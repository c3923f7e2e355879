import HafleyRs.Lib.DepthFirst
import HafleyRs.Lib.Layers
import HafleyRs.Lib.Loop

/-!
# The strata of a project (`crates/sprefa-extract/src/0_stratify.rs`:412)

| here | there |
| --- | --- |
| `graph`, `reverse`, `visit` | the two maps (432–444) and the inner function (413) |
| `stronglyConnected` | `strongly_connected` |
| `dependencies`, `dependents` | `dependencies` and `reverse` (472–491) |
| `settle`, `turn` | the inner `for` (505) and one round of `while let` (498) |
| `componentDepths` | `component_depths` |

An edge is its two paths, the rest of it is not read here. `.error ()` is a panic; each call of `visit` that goes on
takes a path off the unseen, and each round a component off those without a depth, so the fuel is enough.

The maps hold every endpoint, and the first pass only starts at the files of the list. A path that it does not come to
and that leads to one it does come to is put into a component by the second pass, with files that do not lead to it
(`Settled`).
-/

namespace SprefaExtract.Strata
open Layers

structure Edge where
  fromPath : String
  toPath   : String
  deriving DecidableEq

abbrev Graph := BTreeMap String (BTreeSet String)

/-! ## Components -/

/-- A set for every key of the list, and for each link its value under its key. -/
def linked {K V E : Type} [LinearOrder K] [LinearOrder V] (key : E → K) (val : E → V) (keys : List K)
    (links : List E) : BTreeMap K (BTreeSet V) :=
  BTreeMap.group key ∅ (fun s link => s.insert (val link)) (keys.foldl (fun m k => m.insert k ∅) ∅) links

section
variable (files : List String) (edges : List Edge)

def graph : Graph := linked Edge.fromPath Edge.toPath files edges

def reverse : Graph := linked Edge.toPath Edge.fromPath files edges

def nextIn (g : Graph) (node : String) : List String := (g[node]?.map (·.toList)).getD []

def visit (g : Graph) : Nat → String → DepthFirst.State String → Except Unit (DepthFirst.State String) :=
  DepthFirst.visit (nextIn g)

def fuel : Nat := files.length + 2 * edges.length + 1

/-- `component[0]`: no component is empty. -/
def firstPath (component : List String) : String := component.headD ""

def members : Except Unit (List (List String)) := do
  let first ← DepthFirst.visitAll (nextIn (graph files edges)) (fuel files edges) files ⟨∅, []⟩
  let found ← DepthFirst.collect (nextIn (reverse files edges)) (fuel files edges) first.order
  return (found.map fun component => component.insertionSort (· ≤ ·)).insertionSort (firstPath · ≤ firstPath ·)

def number (members : List (List String)) : BTreeMap String Nat :=
  (members.zipIdx.flatMap fun c => c.1.map (·, c.2)).foldl (fun m e => m.insert e.1 e.2) ∅

def stronglyConnected : Except Unit (BTreeMap String Nat) := (members files edges).map number

end

/-! ## Depths -/

def depthCap : Nat := 2 ^ 32 - 1

def index {K V : Type} [LinearOrder K] (m : BTreeMap K V) (k : K) : Except Unit V :=
  match m[k]? with
  | some v => .ok v
  | none => .error ()

section
variable (components : BTreeMap String Nat) (edges : List Edge)

/-- The edges from one component to another. -/
def crossings : List (Nat × Nat) :=
  edges.filterMap fun edge =>
    match components[edge.fromPath]?, components[edge.toPath]? with
    | some a, some b => if a ≠ b then some (a, b) else none
    | _, _ => none

def dependencies : BTreeMap Nat (BTreeSet Nat) :=
  linked Prod.fst Prod.snd (components.toList.map Prod.snd) (crossings components edges)

def dependents (dependencies : BTreeMap Nat (BTreeSet Nat)) : BTreeMap Nat (BTreeSet Nat) :=
  linked Prod.fst Prod.snd dependencies.keys (dependencies.toList.flatMap fun e => e.2.toList.map (·, e.1))

end

structure Sweep where
  queue     : BTreeSet Nat
  remaining : BTreeMap Nat Nat
  depths    : BTreeMap Nat Nat

def settle (s : BTreeSet Nat × BTreeMap Nat Nat) (parent : Nat) : Except Unit (BTreeSet Nat × BTreeMap Nat Nat) := do
  match ← index s.2 parent with
  | 0 => .error ()
  | count + 1 =>
    let remaining := s.2.insert parent count
    return (if count = 0 then s.1.insert parent else s.1, remaining)

def turn (dependencies dependents : BTreeMap Nat (BTreeSet Nat)) (s : Sweep) :
    Except Unit (Loop.Turn Sweep (BTreeMap Nat Nat)) :=
  match s.queue.toList.head? with
  | none => .ok (.done s.depths)
  | some id => do
    let deps ← index dependencies id
    let steps ← deps.toList.mapM fun dep => (index s.depths dep).map (up depthCap)
    let parents ← index dependents id
    let (queue, remaining) ← parents.toList.foldlM settle (s.queue.erase id, s.remaining)
    return .next ⟨queue, remaining, s.depths.insert id (steps.max?.getD 0)⟩

def sweepFrom (dependencies : BTreeMap Nat (BTreeSet Nat)) : Sweep :=
  let remaining := dependencies.map fun _ deps => deps.size
  ⟨((remaining.toList.filter (·.2 = 0)).map Prod.fst).foldl (fun s id => s.insert id) ∅, remaining, ∅⟩

def componentDepths (components : BTreeMap String Nat) (edges : List Edge) : Except Unit (BTreeMap Nat Nat × Nat) := do
  let deps := dependencies components edges
  let depths ← Loop.loop () (turn deps (dependents deps)) (deps.size + 1) (sweepFrom deps)
  return (depths, (depths.toList.map Prod.snd).max?.getD 0)

/-! ## What strata are -/

abbrev Reaches (edges : List Edge) : String → String → Prop :=
  Relation.ReflTransGen fun p q => (⟨p, q⟩ : Edge) ∈ edges

def Reached (files : List String) (edges : List Edge) (p : String) : Prop := ∃ file ∈ files, Reaches edges file p

/-- A file depends on another, in another component. -/
def Below (edges : List Edge) (p q : String) : Prop := Reaches edges p q ∧ ¬Reaches edges q p

structure Layered (edges : List Edge) (components : BTreeMap String Nat) (depths : BTreeMap Nat Nat) : Prop where
  same  : ∀ p q i j, components[p]? = some i → components[q]? = some j →
    (i = j ↔ Reaches edges p q ∧ Reaches edges q p)
  depth : ∀ p i, components[p]? = some i → ∃ d, depths[i]? = some d ∧
    (∃ chain, List.IsChain (Below edges) (p :: chain) ∧ chain.length = d) ∧
    ∀ chain, List.IsChain (Below edges) (p :: chain) → chain.length ≤ d
  falls : ∀ p q i j, (⟨p, q⟩ : Edge) ∈ edges → components[p]? = some i → components[q]? = some j → i ≠ j →
    ∃ d e, depths[i]? = some d ∧ depths[j]? = some e ∧ e < d

/-- A path that leads to one the files lead to is one they lead to as well. -/
def Settled (files : List String) (edges : List Edge) : Prop :=
  ∀ p q, (⟨p, q⟩ : Edge) ∈ edges → Reached files edges q → Reached files edges p

/-- No chain of dependencies is longer than a depth can be. -/
def Short (files : List String) (edges : List Edge) : Prop :=
  ∀ p, Reached files edges p → ∀ chain, List.IsChain (Below edges) (p :: chain) → chain.length ≤ depthCap

/-! ## The maps -/

section
variable {K V E : Type} [LinearOrder K] [LinearOrder V] {key : E → K} {val : E → V} {keys : List K} {links : List E}

theorem getElem?_foldl_insert_same {W : Type} (keys : List K) (w : W) (m : BTreeMap K W) (k : K) :
    (keys.foldl (fun m k => m.insert k w) m)[k]? = if k ∈ keys then some w else m[k]? := by
  induction keys generalizing m with
  | nil => simp
  | cons k' keys ih =>
    rw [List.foldl_cons, ih, BTreeMap.getElem?_insert]
    by_cases hk : k = k'
    · simp [hk]
    · simp [hk, Ne.symm hk]

theorem linked_isSome {k : K} : (linked key val keys links)[k]?.isSome ↔ k ∈ keys ∨ ∃ link ∈ links, key link = k := by
  rw [linked, BTreeMap.getElem?_group_from, getElem?_foldl_insert_same]
  by_cases hnil : links.filter (fun link => key link = k) = []
  · have hnone : ¬∃ link ∈ links, key link = k := by
      rintro ⟨link, hlink, hkey⟩
      exact List.filter_eq_nil_iff.1 hnil link hlink (decide_eq_true hkey)
    rw [if_pos hnil]
    by_cases hk : k ∈ keys
    · simp [hk]
    · simp [hk, hnone]
  · obtain ⟨link, hlink⟩ := List.exists_mem_of_ne_nil _ hnil
    rw [List.mem_filter, decide_eq_true_eq] at hlink
    rw [if_neg hnil]
    exact iff_of_true rfl (.inr ⟨link, hlink⟩)

theorem mem_linked {k : K} {s : BTreeSet V} (h : (linked key val keys links)[k]? = some s) {v : V} :
    v ∈ s ↔ ∃ link ∈ links, key link = k ∧ val link = v := by
  have hempty : ((keys.foldl (fun m k => m.insert k ∅) ∅ : BTreeMap K (BTreeSet V))[k]?.getD ∅) = ∅ := by
    rw [getElem?_foldl_insert_same]
    split
    · rfl
    · simp
  rw [linked, BTreeMap.getElem?_group_from, hempty] at h
  by_cases hnil : links.filter (fun link => key link = k) = []
  · rw [if_pos hnil, getElem?_foldl_insert_same] at h
    have hs : s = ∅ := by
      split at h
      · exact (Option.some.inj h).symm
      · simp at h
    subst hs
    refine iff_of_false (by simp) ?_
    rintro ⟨link, hlink, hkey, -⟩
    exact List.filter_eq_nil_iff.1 hnil link hlink (decide_eq_true hkey)
  · rw [if_neg hnil, Option.some.injEq] at h
    rw [← h, BTreeSet.mem_foldl_insert]
    simp [List.mem_filter, and_assoc]

end

section
variable {files : List String} {edges : List Edge} {p q : String}

theorem mem_nextIn_linked {key val : Edge → String} {node b : String} :
    b ∈ nextIn (linked key val files edges) node ↔ ∃ edge ∈ edges, key edge = node ∧ val edge = b := by
  rw [nextIn]
  cases h : (linked key val files edges)[node]? with
  | none =>
    refine iff_of_false (by simp) ?_
    rintro ⟨edge, hedge, hkey, -⟩
    have hsome := (@linked_isSome _ _ _ _ _ key val files edges node).2 (.inr ⟨edge, hedge, hkey⟩)
    rw [h] at hsome
    cases hsome
  | some s =>
    rw [Option.map_some, Option.getD_some, BTreeSet.mem_toList]
    exact mem_linked h

@[simp] theorem mem_next : q ∈ nextIn (graph files edges) p ↔ (⟨p, q⟩ : Edge) ∈ edges := by
  rw [graph, mem_nextIn_linked]
  constructor
  · rintro ⟨⟨a, b⟩, hedge, rfl, rfl⟩
    exact hedge
  · exact fun hedge => ⟨_, hedge, rfl, rfl⟩

@[simp] theorem mem_prev : q ∈ nextIn (reverse files edges) p ↔ (⟨q, p⟩ : Edge) ∈ edges := by
  rw [reverse, mem_nextIn_linked]
  constructor
  · rintro ⟨⟨a, b⟩, hedge, rfl, rfl⟩
    exact hedge
  · exact fun hedge => ⟨_, hedge, rfl, rfl⟩

/-! ## The components -/

/-- Every path of the run. -/
def paths (files : List String) (edges : List Edge) : Finset String :=
  (files ++ edges.flatMap fun edge => [edge.fromPath, edge.toPath]).toFinset

theorem card_paths_lt : (paths files edges).card < fuel files edges := by
  refine lt_of_le_of_lt (List.toFinset_card_le _) ?_
  have hlen : (edges.flatMap fun edge => [edge.fromPath, edge.toPath]).length = 2 * edges.length := by
    rw [List.length_flatMap]
    simp [Nat.mul_comm]
  rw [List.length_append, hlen, fuel]
  omega

theorem mem_paths_of_edge (h : (⟨p, q⟩ : Edge) ∈ edges) : p ∈ paths files edges ∧ q ∈ paths files edges := by
  have hin : ∀ a ∈ [p, q], a ∈ paths files edges := by
    intro a ha
    exact List.mem_toFinset.2 (List.mem_append_right _ (List.mem_flatMap.2 ⟨_, h, ha⟩))
  exact ⟨hin p (by simp), hin q (by simp)⟩

theorem mem_paths_of_file (h : p ∈ files) : p ∈ paths files edges :=
  List.mem_toFinset.2 (List.mem_append_left _ h)

theorem Reached.mem_paths (h : Reached files edges p) : p ∈ paths files edges := by
  obtain ⟨file, hfile, hpath⟩ := h
  rcases Relation.ReflTransGen.cases_tail hpath with rfl | ⟨b, -, hedge⟩
  · exact mem_paths_of_file hfile
  · exact (mem_paths_of_edge hedge).2

theorem reaches_graph : DepthFirst.Reaches (nextIn (graph files edges)) p q ↔ Reaches edges p q := by
  have hrel : (fun a b => b ∈ nextIn (graph files edges) a) = fun a b => (⟨a, b⟩ : Edge) ∈ edges := by
    ext a b
    exact mem_next
  rw [DepthFirst.Reaches, hrel]

/-- A sorted list of sorted groups numbers the groups. -/
theorem exists_members (files : List String) (edges : List Edge) : ∃ order seen found,
    members files edges =
      .ok ((found.map fun c => c.insertionSort (· ≤ ·)).insertionSort (firstPath · ≤ firstPath ·)) ∧
    (∀ p, p ∈ order ↔ Reached files edges p) ∧
    DepthFirst.Grouping (nextIn (graph files edges)) (nextIn (reverse files edges)) order 0 (seen, found) := by
  have hnext : DepthFirst.Closed (nextIn (graph files edges)) (paths files edges) := fun a _ b hb =>
    (mem_paths_of_edge (mem_next.1 hb)).2
  have hprev : DepthFirst.Closed (nextIn (reverse files edges)) (paths files edges) := fun a _ b hb =>
    (mem_paths_of_edge (mem_prev.1 hb)).1
  have hempty : DepthFirst.unseen (paths files edges) (⟨∅, []⟩ : DepthFirst.State String) < fuel files edges :=
    lt_of_le_of_lt (Finset.card_le_card (Finset.filter_subset _ _)) card_paths_lt
  obtain ⟨first, hfirst, hleads⟩ := DepthFirst.visitAll_leads hnext (fun root h => mem_paths_of_file h) hempty
  have hmem : ∀ p, p ∈ first.seen ↔ Reached files edges p := by
    intro p
    rw [hleads.mem_seen DepthFirst.whole_empty, Reached]
    simp [reaches_graph]
  obtain ⟨new, horder, hseen, hadds, -⟩ := hleads
  rw [List.nil_append] at horder
  have horder' : ∀ p, p ∈ first.order ↔ Reached files edges p := by
    intro p
    rw [← hmem, hseen, horder]
    simp
  have hset : {a | a ∈ (∅ : BTreeSet String)} = (∅ : Set String) := by
    ext a
    simp
  rw [hset, ← horder] at hadds
  obtain ⟨seen, found, hcollect, hgroups⟩ := DepthFirst.collect_groups hadds
    (fun u v => mem_prev.trans mem_next.symm) hprev (fun p hp => ((horder' p).1 hp).mem_paths) card_paths_lt
  refine ⟨first.order, seen, found, ?_, horder', hgroups⟩
  rw [members, hfirst]
  simp only [bind, Except.bind, hcollect]
  rfl

/-- What the numbers of the components say. -/
structure Numbered (files : List String) (edges : List Edge) (components : BTreeMap String Nat) : Prop where
  reached : ∀ p, Reached files edges p → ∃ i, components[p]? = some i
  same    : ∀ p q i j, components[p]? = some i → components[q]? = some j → Reached files edges p →
    Reached files edges q → (i = j ↔ Reaches edges p q ∧ Reaches edges q p)
  root    : ∀ p i, components[p]? = some i → ∃ r, Reached files edges r ∧ components[r]? = some i ∧ Reaches edges p r
  back    : ∀ p q j, (⟨p, q⟩ : Edge) ∈ edges → components[q]? = some j → ∃ i, components[p]? = some i
  rank    : ∃ rank : Nat → Nat, ∀ p q i j, (⟨p, q⟩ : Edge) ∈ edges → components[p]? = some i →
    components[q]? = some j → i ≠ j → rank i < rank j

theorem number_eq_some {groups : List (List String)} (h : groups.flatten.Nodup) {i : Nat} :
    (number groups)[p]? = some i ↔ ∃ c, groups[i]? = some c ∧ p ∈ c := by
  have hkeys : ((groups.zipIdx.flatMap fun c => c.1.map (·, c.2)).map Prod.fst) = groups.flatten := by
    rw [List.map_flatMap, ← List.flatMap_id', List.flatMap_def, List.flatMap_def]
    congr 1
    simp [Function.comp_def]
  rw [← hkeys] at h
  rw [number, BTreeMap.getElem?_foldl_insert h, Std.ExtTreeMap.getElem?_empty, Option.or_none,
    Option.map_eq_some_iff]
  constructor
  · rintro ⟨e, hfind, rfl⟩
    obtain ⟨he, rfl⟩ := (find?_key_eq_some h).1 hfind
    obtain ⟨⟨c, k⟩, hc, hmem⟩ := List.mem_flatMap.1 he
    obtain ⟨a, ha, rfl⟩ := List.mem_map.1 hmem
    exact ⟨c, List.mem_zipIdx_iff_getElem?.1 hc, ha⟩
  · rintro ⟨c, hc, hp⟩
    refine ⟨(p, i), (find?_key_eq_some h).2 ⟨List.mem_flatMap.2 ⟨(c, i), ?_, ?_⟩, rfl⟩, rfl⟩
    · exact List.mem_zipIdx_iff_getElem?.2 hc
    · exact List.mem_map.2 ⟨p, hp, rfl⟩

/-- The groups of the second pass and the members, each sorted. -/
structure Sorts (found sorted : List (List String)) : Prop where
  found_nodup  : found.flatten.Nodup
  sorted_nodup : sorted.flatten.Nodup
  mem          : ∀ c, c ∈ sorted ↔ ∃ g ∈ found, g.insertionSort (· ≤ ·) = c

theorem sorts_members {found : List (List String)} (h : found.flatten.Nodup) :
    Sorts found ((found.map fun c => c.insertionSort (· ≤ ·)).insertionSort (firstPath · ≤ firstPath ·)) := by
  refine ⟨h, ?_, fun c => ?_⟩
  · have houter := (List.perm_insertionSort (firstPath · ≤ firstPath ·)
      (found.map fun c => c.insertionSort (· ≤ ·))).flatten
    have hinner : (found.map fun c => c.insertionSort (· ≤ ·)).flatten.Perm found.flatten := by
      rw [← List.flatMap_def, ← List.flatMap_id]
      exact List.Perm.flatMap_left _ fun c _ => List.perm_insertionSort _ c
    exact (houter.trans hinner).nodup_iff.2 h
  · rw [List.mem_insertionSort, List.mem_map]

section
variable {found sorted : List (List String)} (h : Sorts found sorted)
include h

theorem Sorts.numbered {g : List String} (hg : g ∈ found) (hp : p ∈ g) : ∃ i, (number sorted)[p]? = some i := by
  obtain ⟨i, hi⟩ := List.getElem?_of_mem ((h.mem _).2 ⟨g, hg, rfl⟩)
  exact ⟨i, (number_eq_some h.sorted_nodup).2 ⟨_, hi, (List.mem_insertionSort _).2 hp⟩⟩

/-- The group behind a number. -/
theorem Sorts.exists_group {i : Nat} (hi : (number sorted)[p]? = some i) :
    ∃ (k : Nat) (g : List String), found[k]? = some g ∧ sorted[i]? = some (g.insertionSort (· ≤ ·)) ∧ p ∈ g := by
  obtain ⟨c, hc, hp⟩ := (number_eq_some h.sorted_nodup).1 hi
  obtain ⟨g, hg, rfl⟩ := (h.mem c).1 (List.mem_of_getElem? hc)
  obtain ⟨k, hk⟩ := List.getElem?_of_mem hg
  exact ⟨k, g, hk, hc, (List.mem_insertionSort _).1 hp⟩

theorem Sorts.same_iff {i j k l : Nat} {g g' : List String} (hi : (number sorted)[p]? = some i)
    (hj : (number sorted)[q]? = some j) (hk : found[k]? = some g) (hl : found[l]? = some g') (hp : p ∈ g)
    (hq : q ∈ g') : i = j ↔ k = l := by
  obtain ⟨k', a, hk', hia, hpa⟩ := h.exists_group hi
  obtain ⟨l', b, hl', hjb, hqb⟩ := h.exists_group hj
  obtain rfl := DepthFirst.index_unique h.found_nodup hk hk' hp hpa
  obtain rfl := DepthFirst.index_unique h.found_nodup hl hl' hq hqb
  constructor
  · rintro rfl
    rw [hia, Option.some.injEq] at hjb
    have hpb : p ∈ b := (List.mem_insertionSort _).1 (hjb ▸ (List.mem_insertionSort _).2 hpa)
    exact DepthFirst.index_unique h.found_nodup hk' hl' hpa hpb
  · rintro rfl
    rw [hk', Option.some.injEq] at hl'
    subst hl'
    exact DepthFirst.index_unique h.sorted_nodup hia hjb ((List.mem_insertionSort _).2 hpa)
      ((List.mem_insertionSort _).2 hpa)

/-- A place in the order of the second pass for every number. -/
theorem Sorts.exists_rank : ∃ rank : Nat → Nat, ∀ (p : String) (i : Nat), (number sorted)[p]? = some i →
    ∃ g : List String, found[rank i]? = some g ∧ p ∈ g := by
  have hall : ∀ i : Nat, ∃ k : Nat, ∀ p : String, (number sorted)[p]? = some i →
      ∃ g : List String, found[k]? = some g ∧ p ∈ g := by
    intro i
    by_cases hsome : ∃ p : String, (number sorted)[p]? = some i
    · obtain ⟨p, hp⟩ := hsome
      obtain ⟨k, g, hk, -, hpg⟩ := h.exists_group hp
      refine ⟨k, fun q hq => ?_⟩
      obtain ⟨l, g', hl, -, hqg⟩ := h.exists_group hq
      obtain rfl := (h.same_iff hp hq hk hl hpg hqg).1 rfl
      exact ⟨g', hl, hqg⟩
    · exact ⟨0, fun p hp => absurd ⟨p, hp⟩ hsome⟩
  choose rank hrank using hall
  exact ⟨rank, fun p i => hrank i p⟩

end

/-- **The components** of the paths the files lead to. -/
theorem stronglyConnected_numbered (files : List String) (edges : List Edge) :
    ∃ components, stronglyConnected files edges = .ok components ∧ Numbered files edges components := by
  obtain ⟨order, seen, found, hmembers, horder, hgroups⟩ := exists_members files edges
  have hprev : ∀ u v, u ∈ nextIn (reverse files edges) v ↔ v ∈ nextIn (graph files edges) u :=
    fun u v => mem_prev.trans mem_next.symm
  have hsorts := sorts_members hgroups.nodup
  obtain ⟨rank, hrank⟩ := hsorts.exists_rank
  refine ⟨_, by rw [stronglyConnected, hmembers]; rfl, ?_, ?_, ?_, ?_, rank, ?_⟩
  · intro p hp
    obtain ⟨k, g, hk, hpg⟩ := hgroups.exists_group ((horder p).2 hp)
    exact hsorts.numbered (List.mem_of_getElem? hk) hpg
  · intro p q i j hi hj hp hq
    obtain ⟨g, hk, hpg⟩ := hrank p i hi
    obtain ⟨g', hl, hqg⟩ := hrank q j hj
    rw [hsorts.same_iff hi hj hk hl hpg hqg, ← @reaches_graph files edges p q, ← @reaches_graph files edges q p]
    exact hgroups.same_iff hprev hk hl hpg hqg ((horder p).2 hp) ((horder q).2 hq)
  · intro p i hi
    obtain ⟨g, hk, hpg⟩ := hrank p i hi
    obtain ⟨r, hrg, hro, hroot⟩ := hgroups.root g (List.mem_of_getElem? hk)
    obtain ⟨j, hj⟩ := hsorts.numbered (List.mem_of_getElem? hk) hrg
    obtain rfl := (hsorts.same_iff hi hj hk hk hpg hrg).2 rfl
    exact ⟨r, (horder r).1 hro, hj, reaches_graph.1 (hroot p hpg).1⟩
  · intro p q j hedge hj
    obtain ⟨g, hk, hqg⟩ := hrank q j hj
    have hseen := (hgroups.seen q).2 (List.mem_flatten.2 ⟨g, List.mem_of_getElem? hk, hqg⟩)
    obtain ⟨g', hg', hpg⟩ := List.mem_flatten.1 ((hgroups.seen p).1 (hgroups.whole q hseen p (mem_prev.2 hedge)))
    exact hsorts.numbered hg' hpg
  · intro p q i j hedge hi hj hne
    obtain ⟨g, hk, hpg⟩ := hrank p i hi
    obtain ⟨g', hl, hqg⟩ := hrank q j hj
    refine lt_of_le_of_ne (hgroups.edge_le hprev hk hl hpg hqg (mem_next.2 hedge)) fun heq => hne ?_
    exact (hsorts.same_iff hi hj hk hl hpg hqg).2 heq

end

end SprefaExtract.Strata
