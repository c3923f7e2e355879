import HafleyRs.Lib.LeastWalk

/-!
# The walk over a graph plane (`crates/sprefa-extract/src/0_graph.rs`)

| here | there |
| --- | --- |
| `Node`, `PlaneEdge`, `Found` | 0_graph.rs:239, 243, 253 |
| `reachDepthCap` | bin/ryi/0_sqlite.rs:147 |
| `outOf` | the `out_of` map (303): the edges of a node, by position |
| `offer`, `expand` | the two inner loops (322, 315) |
| `levels`, `firstDiscovery` | the loop over the depths (313) with what is left of it, 298 |

`expired` answers `deadline.expired()` each time a node of a level is taken. The hash map `found` is a map by
node: its values are sorted by `(depth, node)` in the end, and no two share a node.
-/

namespace SprefaExtract

/-- A file and the name declared there, compared as the pair. -/
abbrev Node := String ×ₗ WithBot String

instance transOrd_node : Std.TransOrd Node := inferInstance

structure PlaneEdge where
  row      : Nat
  src      : Node
  dst      : Node
  grade    : String
  dstStart : Option Nat
deriving DecidableEq

structure Found where
  origin  : Node
  node    : Node
  depth   : Nat
  witness : List Nat
  via     : Nat
deriving DecidableEq

def reachDepthCap : Nat := 32

def outOf (edges : List PlaneEdge) (node : Node) : List (PlaneEdge × Nat) :=
  edges.zipIdx.filter fun e => e.1.src = node

/-- One edge of a node that is expanded: what it discovers, if it is the best discovery of this level. -/
def offer (found : BTreeMap Node Found) (depth : Nat) (witness : List Nat) (origin : Node)
    (level : BTreeMap Node Found) (e : PlaneEdge × Nat) : BTreeMap Node Found :=
  if found.contains e.1.dst then level
  else
    let path := witness ++ [e.1.row]
    if level[e.1.dst]?.any fun best => best.witness ≤ path then level
    else level.insert e.1.dst ⟨origin, e.1.dst, depth, path, e.2⟩

structure Level where
  expanded : BTreeSet Node
  level    : BTreeMap Node Found

/-- One entry of the frontier. -/
def expand (edges : List PlaneEdge) (expired : Nat → Node → Bool) (found : BTreeMap Node Found) (depth : Nat)
    (l : Level) (entry : Node × List Nat × Node) : Except String Level :=
  let (node, witness, origin) := entry
  if expired depth node then .error "graph walk passed its deadline"
  else if l.expanded.contains node then .ok l
  else .ok ⟨l.expanded.insert node, (outOf edges node).foldl (offer found depth witness origin) l.level⟩

structure Search where
  found    : BTreeMap Node Found
  expanded : BTreeSet Node
  frontier : List (Node × List Nat × Node)

def frontierOf (level : BTreeMap Node Found) : List (Node × List Nat × Node) :=
  level.toList.map fun e => (e.2.node, e.2.witness, e.2.origin)

/-- The loop from `depth` on, with `n` depths left. -/
def levels (edges : List PlaneEdge) (expired : Nat → Node → Bool) :
    Nat → Nat → Search → Except String (BTreeMap Node Found)
  | 0, _, s => .ok s.found
  | n + 1, depth, s =>
    match s.frontier.foldlM (expand edges expired s.found depth) ⟨s.expanded, ∅⟩ with
    | .error e => .error e
    | .ok l =>
      if l.level.isEmpty then .ok s.found
      else levels edges expired n (depth + 1)
        ⟨l.level.toList.foldl (fun found e => found.insert e.1 e.2) s.found, l.expanded, frontierOf l.level⟩

def Found.key (f : Found) : Nat ×ₗ Node := toLex (f.depth, f.node)

def firstDiscovery (edges : List PlaneEdge) (starts : BTreeSet Node) (expired : Nat → Node → Bool) :
    Except String (List Found) :=
  match levels edges expired reachDepthCap 1 ⟨∅, ∅, starts.toList.map fun node => (node, [], node)⟩ with
  | .error e => .error e
  | .ok found => .ok ((found.toList.map Prod.snd).insertionSort fun a b => a.key ≤ b.key)

end SprefaExtract

/-!
# `first_discovery` finds the nodes in reach (`crates/sprefa-extract/src/0_graph.rs:298`)

`Inv d` holds when the loop comes to depth `d`: what is found are the nodes that come first at a length
below `d`, what is expanded are those at a distance below `d - 1`, and the frontier holds the nodes at
distance `d - 1`, with least walks to them. A start that is found again is in a frontier too, but has been
expanded before. A level is the best of its candidates (`candidates`, `keep`), so a least walk to the node
before, one edge on, is all that need be compared.
-/

namespace SprefaExtract
open LeastWalk

abbrev IsFirst (edges : List PlaneEdge) (S : Set Node) := First PlaneEdge.src PlaneEdge.dst edges S
abbrev IsDist (edges : List PlaneEdge) (S : Set Node) := Dist PlaneEdge.src PlaneEdge.dst edges S
abbrev IsLeast (edges : List PlaneEdge) (S : Set Node) := Least PlaneEdge.src PlaneEdge.dst edges S PlaneEdge.row

/-- A row of the walk: its depth is the least, its witness the least walk of that length. -/
structure Discovered (edges : List PlaneEdge) (S : Set Node) (f : Found) : Prop where
  first   : IsFirst edges S f.depth f.node
  witness : ∃ es e, IsLeast edges S f.node f.origin (es ++ [e]) ∧ (es ++ [e]).length = f.depth ∧
    f.witness = (es ++ [e]).map PlaneEdge.row ∧ edges[f.via]? = some e

/-! ## One level -/

def keep (level : BTreeMap Node Found) (c : Found) : BTreeMap Node Found :=
  if level[c.node]?.any fun best => best.witness ≤ c.witness then level else level.insert c.node c

/-- What the edges of an expanded node discover. -/
def candidates (edges : List PlaneEdge) (found : BTreeMap Node Found) (depth : Nat)
    (entry : Node × List Nat × Node) : List Found :=
  ((outOf edges entry.1).filter fun e => !found.contains e.1.dst).map fun e =>
    ⟨entry.2.2, e.1.dst, depth, entry.2.1 ++ [e.1.row], e.2⟩

theorem foldl_offer (found : BTreeMap Node Found) (depth : Nat) (witness : List Nat) (origin : Node)
    (es : List (PlaneEdge × Nat)) (level : BTreeMap Node Found) :
    es.foldl (offer found depth witness origin) level =
      ((es.filter fun e => !found.contains e.1.dst).map fun e =>
        (⟨origin, e.1.dst, depth, witness ++ [e.1.row], e.2⟩ : Found)).foldl keep level := by
  induction es generalizing level with
  | nil => rfl
  | cons e es ih =>
    rw [List.foldl_cons, ih]
    by_cases hf : found.contains e.1.dst
    · rw [List.filter_cons_of_neg (by simp [hf]), offer, if_pos hf]
    · rw [List.filter_cons_of_pos (by simp [hf]), List.map_cons, List.foldl_cons, offer, if_neg hf, keep]

/-- The entries that a level expands, when no node is there twice. -/
def fresh (expanded : BTreeSet Node) (frontier : List (Node × List Nat × Node)) : List (Node × List Nat × Node) :=
  frontier.filter fun entry => !expanded.contains entry.1

theorem foldlM_expand (edges : List PlaneEdge) {expired : Nat → Node → Bool} (hopen : ∀ d n, expired d n = false)
    (found : BTreeMap Node Found) (depth : Nat) {frontier : List (Node × List Nat × Node)}
    (hnodup : (frontier.map (·.1)).Nodup) (l : Level) :
    ∃ l', frontier.foldlM (expand edges expired found depth) l = .ok l' ∧
      (∀ u, u ∈ l'.expanded ↔ u ∈ l.expanded ∨ u ∈ frontier.map (·.1)) ∧
      l'.level = ((fresh l.expanded frontier).flatMap (candidates edges found depth)).foldl keep l.level := by
  induction frontier generalizing l with
  | nil => exact ⟨l, rfl, by simp, rfl⟩
  | cons entry frontier ih =>
    obtain ⟨node, witness, origin⟩ := entry
    rw [List.map_cons, List.nodup_cons] at hnodup
    rw [List.foldlM_cons]
    by_cases hx : l.expanded.contains node
    · obtain ⟨l', hrun, hexp, hlevel⟩ := ih hnodup.2 l
      refine ⟨l', ?_, fun u => ?_, ?_⟩
      · rw [expand]
        simp only [hopen, hx]
        exact hrun
      · rw [hexp, List.map_cons, List.mem_cons]
        constructor
        · rintro (h | h)
          · exact .inl h
          · exact .inr (.inr h)
        · rintro (h | rfl | h)
          · exact .inl h
          · exact .inl (Std.ExtTreeSet.contains_iff_mem.1 hx)
          · exact .inr h
      · rw [hlevel, fresh, fresh, List.filter_cons_of_neg (by simp [hx])]
    · obtain ⟨l', hrun, hexp, hlevel⟩ := ih hnodup.2
        ⟨l.expanded.insert node, (outOf edges node).foldl (offer found depth witness origin) l.level⟩
      refine ⟨l', ?_, fun u => ?_, ?_⟩
      · rw [expand]
        simp only [hopen, hx]
        exact hrun
      · rw [hexp, BTreeSet.mem_insert, List.map_cons, List.mem_cons, eq_comm (a := node)]
        tauto
      · have hfresh : fresh (l.expanded.insert node) frontier = fresh l.expanded frontier := by
          refine List.filter_congr fun entry hentry => ?_
          have hne : node ≠ entry.1 := by
            rintro rfl
            exact hnodup.1 (List.mem_map.2 ⟨entry, hentry, rfl⟩)
          have hiff : entry.1 ∈ l.expanded.insert node ↔ entry.1 ∈ l.expanded := by
            rw [BTreeSet.mem_insert]
            exact ⟨fun h => h.resolve_left hne, Or.inr⟩
          rw [Bool.eq_iff_iff]
          simp only [Bool.not_eq_true', Bool.eq_false_iff, ne_eq, Std.ExtTreeSet.contains_iff_mem, hiff]
        rw [hlevel, hfresh, foldl_offer, fresh, fresh, List.filter_cons_of_pos (by simp [hx]),
          List.flatMap_cons, List.foldl_append]
        rfl

theorem keep_get_ne {level : BTreeMap Node Found} {c : Found} {v : Node} (h : c.node ≠ v) :
    (keep level c)[v]? = level[v]? := by
  rw [keep]
  by_cases hk : level[c.node]?.any fun best => best.witness ≤ c.witness
  · rw [if_pos hk]
  · rw [if_neg hk, BTreeMap.getElem?_insert, if_neg h]

/-- The entry of the candidate's node stays if it is no worse, else it is the candidate. -/
theorem keep_get_self (level : BTreeMap Node Found) (c : Found) :
    (∃ g, level[c.node]? = some g ∧ g.witness ≤ c.witness ∧ (keep level c)[c.node]? = some g) ∨
      ((keep level c)[c.node]? = some c ∧ ∀ g, level[c.node]? = some g → c.witness ≤ g.witness) := by
  rw [keep]
  by_cases hk : level[c.node]?.any fun best => best.witness ≤ c.witness
  · obtain ⟨g, hg, hle⟩ := (Option.any_eq_true _ _).1 hk
    exact .inl ⟨g, hg, by simpa using hle, by rw [if_pos hk, hg]⟩
  · refine .inr ⟨by rw [if_neg hk, BTreeMap.getElem?_insert, if_pos rfl], fun g hg => ?_⟩
    rw [hg, Option.any_some, decide_eq_true_eq, not_le] at hk
    exact hk.le

/-- What a level holds of a node comes from the candidates, and no candidate for the node is better. -/
theorem foldl_keep {cs : List Found} {m : BTreeMap Node Found} {v : Node} {f : Found}
    (h : (cs.foldl keep m)[v]? = some f) : (m[v]? = some f ∨ (f ∈ cs ∧ f.node = v)) ∧
      (∀ c ∈ cs, c.node = v → f.witness ≤ c.witness) ∧ ∀ g, m[v]? = some g → f.witness ≤ g.witness := by
  induction cs generalizing m with
  | nil =>
    refine ⟨.inl h, by simp, fun g hg => ?_⟩
    obtain rfl : f = g := Option.some.inj (h.symm.trans hg)
    exact le_refl _
  | cons c cs ih =>
    obtain ⟨h1, h2, h3⟩ := ih h
    by_cases hc : c.node = v
    · subst hc
      rcases keep_get_self m c with ⟨g, hg, hle, hkeep⟩ | ⟨hkeep, hbest⟩
      · rw [hkeep] at h1 h3
        refine ⟨?_, ?_, fun g' hg' => h3 g' (hg.symm.trans hg')⟩
        · rcases h1 with h1 | h1
          · exact .inl (hg.trans h1)
          · exact .inr ⟨List.mem_cons_of_mem _ h1.1, h1.2⟩
        · intro d hd hdn
          rcases List.mem_cons.1 hd with rfl | hd
          · exact (h3 g rfl).trans hle
          · exact h2 d hd hdn
      · rw [hkeep] at h1 h3
        refine ⟨.inr ?_, ?_, fun g hg => (h3 c rfl).trans (hbest g hg)⟩
        · rcases h1 with h1 | h1
          · cases h1
            simp
          · exact ⟨List.mem_cons_of_mem _ h1.1, h1.2⟩
        · intro d hd hdn
          rcases List.mem_cons.1 hd with rfl | hd
          · exact h3 d rfl
          · exact h2 d hd hdn
    · rw [keep_get_ne hc] at h1 h3
      refine ⟨h1.imp_right fun h => ⟨List.mem_cons_of_mem _ h.1, h.2⟩, ?_, h3⟩
      intro d hd hdn
      rcases List.mem_cons.1 hd with rfl | hd
      · exact absurd hdn hc
      · exact h2 d hd hdn

theorem foldl_keep_isSome {cs : List Found} {m : BTreeMap Node Found} {v : Node}
    (h : (∃ c ∈ cs, c.node = v) ∨ m[v]?.isSome) : (cs.foldl keep m)[v]?.isSome := by
  induction cs generalizing m with
  | nil => simpa using h
  | cons c cs ih =>
    refine ih ?_
    by_cases hc : c.node = v
    · subst hc
      rcases keep_get_self m c with ⟨g, -, -, hkeep⟩ | ⟨hkeep, -⟩
      · exact .inr (by rw [hkeep]; rfl)
      · exact .inr (by rw [hkeep]; rfl)
    · rcases h with ⟨d, hd, hdn⟩ | h
      · rcases List.mem_cons.1 hd with rfl | hd
        · exact absurd hdn hc
        · exact .inl ⟨d, hd, hdn⟩
      · exact .inr (by rw [keep_get_ne hc]; exact h)

/-! ## From level to level -/

theorem mem_outOf {edges : List PlaneEdge} {u : Node} {e : PlaneEdge × Nat} :
    e ∈ outOf edges u ↔ edges[e.2]? = some e.1 ∧ e.1.src = u := by
  rw [outOf, List.mem_filter, List.mem_zipIdx_iff_getElem?, decide_eq_true_eq]

/-- What holds when the loop comes to `depth`. -/
structure Inv (edges : List PlaneEdge) (S : Set Node) (depth : Nat) (s : Search) : Prop where
  found    : ∀ v f, s.found[v]? = some f → f.node = v ∧ f.depth < depth ∧ Discovered edges S f
  complete : ∀ v k, k < depth → IsFirst edges S k v → s.found.contains v
  expanded : ∀ u, u ∈ s.expanded ↔ ∃ k, k + 1 < depth ∧ IsDist edges S k u
  once     : (s.frontier.map (·.1)).Nodup
  frontier : ∀ entry ∈ s.frontier, entry.1 ∉ s.expanded → ∃ es, IsLeast edges S entry.1 entry.2.2 es ∧
    es.length + 1 = depth ∧ entry.2.1 = es.map PlaneEdge.row ∧ IsDist edges S es.length entry.1
  front    : ∀ u k, k + 1 = depth → IsDist edges S k u → u ∈ s.frontier.map (·.1)

theorem Inv.init (edges : List PlaneEdge) (starts : BTreeSet Node) :
    Inv edges {u | u ∈ starts} 1 ⟨∅, ∅, starts.toList.map fun node => (node, [], node)⟩ := by
  have hnodes : (starts.toList.map fun node => (node, ([] : List Nat), node)).map (·.1) = starts.toList := by
    rw [List.map_map]
    exact List.map_id' _
  refine ⟨by simp, fun v k hk h => ?_, fun u => ?_, ?_, ?_, fun u k hk h => ?_⟩
  · have := h.pos
    omega
  · simp
  · rw [hnodes]
    exact BTreeSet.toList_nodup starts
  · intro entry hentry _
    obtain ⟨node, hnode, rfl⟩ := List.mem_map.1 hentry
    have hstart : node ∈ {u | u ∈ starts} := BTreeSet.mem_toList.1 hnode
    refine ⟨[], ⟨hstart, .nil, fun o' _ es' hlen _ => ?_⟩, rfl, rfl, dist_zero.2 hstart⟩
    obtain rfl := List.length_eq_zero_iff.1 hlen
    exact le_refl _
  · obtain rfl : k = 0 := by omega
    rw [hnodes]
    have hu : u ∈ {u | u ∈ starts} := dist_zero.1 h
    exact BTreeSet.mem_toList.2 hu

/-- The candidates of a level are the edges that leave the frontier for a node not found before. -/
theorem mem_candidates {edges : List PlaneEdge} {depth : Nat} {s : Search} {c : Found} :
    c ∈ (fresh s.expanded s.frontier).flatMap (candidates edges s.found depth) ↔
      ∃ entry ∈ s.frontier, entry.1 ∉ s.expanded ∧ ∃ e i, edges[i]? = some e ∧ e.src = entry.1 ∧
        ¬ s.found.contains e.dst ∧ c = ⟨entry.2.2, e.dst, depth, entry.2.1 ++ [e.row], i⟩ := by
  simp only [List.mem_flatMap, fresh, candidates, List.mem_filter, List.mem_map, mem_outOf, Bool.not_eq_true',
    Bool.eq_false_iff, ne_eq, Std.ExtTreeSet.contains_iff_mem]
  constructor
  · rintro ⟨entry, ⟨hentry, hx⟩, ⟨e, i⟩, ⟨⟨hi, hsrc⟩, hf⟩, rfl⟩
    exact ⟨entry, hentry, hx, e, i, hi, hsrc, hf, rfl⟩
  · rintro ⟨entry, hentry, hx, e, i, hi, hsrc, hf, rfl⟩
    exact ⟨entry, ⟨hentry, hx⟩, (e, i), ⟨⟨hi, hsrc⟩, hf⟩, rfl⟩

section
variable {edges : List PlaneEdge} {S : Set Node} {depth : Nat} {s : Search}

/-- A node one step nearer than the level is in the frontier, and is expanded now. -/
theorem Inv.entry (h : Inv edges S depth s) {u : Node} {k : Nat} (hk : k + 1 = depth) (hu : IsDist edges S k u) :
    ∃ entry ∈ s.frontier, entry.1 = u ∧ entry.1 ∉ s.expanded := by
  obtain ⟨entry, hentry, rfl⟩ := List.mem_map.1 (h.front u k hk hu)
  refine ⟨entry, hentry, rfl, fun hx => ?_⟩
  obtain ⟨k', hk', hu'⟩ := (h.expanded _).1 hx
  have := hu.unique hu'
  omega

theorem Inv.not_found (h : Inv edges S depth s) {v : Node} (hv : IsFirst edges S depth v) : ¬ s.found.contains v := by
  intro hc
  rw [Std.ExtTreeMap.contains_eq_isSome_getElem?] at hc
  obtain ⟨f, hf⟩ := Option.isSome_iff_exists.1 hc
  obtain ⟨rfl, hlt, hd⟩ := h.found v f hf
  have := hd.first.unique hv
  omega

/-- The level holds the nodes that come first at its depth, with least walks. -/
theorem Inv.level (h : Inv edges S depth s) (hpos : 1 ≤ depth) {level : BTreeMap Node Found}
    (hlevel : level = ((fresh s.expanded s.frontier).flatMap (candidates edges s.found depth)).foldl keep ∅) :
    (∀ v f, level[v]? = some f → f.node = v ∧ f.depth = depth ∧ Discovered edges S f) ∧
      ∀ v, IsFirst edges S depth v → level[v]?.isSome := by
  subst hlevel
  refine ⟨fun v f hf => ?_, fun v hv => ?_⟩
  · obtain ⟨h1, hbest, -⟩ := foldl_keep hf
    have hmem : f ∈ (fresh s.expanded s.frontier).flatMap (candidates edges s.found depth) ∧ f.node = v :=
      h1.resolve_left (by simp)
    obtain ⟨entry, hentry, hx, e, i, hi, hsrc, hnew, rfl⟩ := mem_candidates.1 hmem.1
    obtain rfl : e.dst = v := hmem.2
    obtain ⟨es, hleast, hlen, hwit, hdist⟩ := h.frontier entry hentry hx
    have he : e ∈ edges := List.mem_of_getElem? hi
    have hfirst : IsFirst edges S (es.length + 1) e.dst := by
      refine First.of_dist (hsrc ▸ hdist) he fun k hk hfk => hnew ?_
      exact h.complete _ k (by omega) hfk
    have hwitness : entry.2.1 ++ [e.row] = (es ++ [e]).map PlaneEdge.row := by
      rw [hwit, List.map_append, List.map_singleton]
    refine ⟨rfl, rfl, ?_, es, e, ⟨hleast.start, .snoc (hsrc ▸ hleast.walk) he, fun o' ho' fs hfs hw => ?_⟩, ?_,
      hwitness, hi⟩
    · rw [← hlen]
      exact hfirst
    · -- another walk of this length ends with an edge of another candidate
      rcases List.eq_nil_or_concat fs with rfl | ⟨fs, e', rfl⟩
      · simp at hfs
      · rw [List.concat_eq_append] at hw hfs ⊢
        obtain ⟨hw, he', hdst⟩ := walk_snoc.1 hw
        have hfs : fs.length = es.length := by simpa using hfs
        have hdist' : IsDist edges S es.length e'.src :=
          First.pred (hdst ▸ hfirst) he' ⟨o', ho', fs, hfs, hw⟩
        obtain ⟨entry', hentry', hu', hx'⟩ := h.entry hlen hdist'
        obtain ⟨es', hleast', hlen', hwit', -⟩ := h.frontier entry' hentry' hx'
        obtain ⟨i', hi'⟩ := List.mem_iff_getElem?.1 he'
        have hcand := hbest ⟨entry'.2.2, e'.dst, depth, entry'.2.1 ++ [e'.row], i'⟩
          (mem_candidates.2 ⟨entry', hentry', hx', e', i', hi', hu'.symm, hdst ▸ hnew, rfl⟩) hdst
        simp only [hwitness, hwit'] at hcand
        rw [hu'] at hleast'
        refine hcand.trans ?_
        have hle := hleast'.snoc_le ho' (by omega) hw
        rwa [List.map_append, List.map_singleton] at hle
    · simp [hlen]
  · obtain ⟨k, rfl⟩ : ∃ k, depth = k + 1 := ⟨depth - 1, by omega⟩
    obtain ⟨e, he, rfl, hr⟩ := hv.reaches.pred
    obtain ⟨entry, hentry, hu, hx⟩ := h.entry rfl (hv.pred he hr)
    obtain ⟨i, hi⟩ := List.mem_iff_getElem?.1 he
    refine foldl_keep_isSome (.inl ⟨_, mem_candidates.2 ⟨entry, hentry, hx, e, i, hi, hu.symm, ?_, rfl⟩, rfl⟩)
    exact h.not_found hv

theorem getElem?_extend (level found : BTreeMap Node Found) (v : Node) :
    (level.toList.foldl (fun found e => found.insert e.1 e.2) found)[v]? = level[v]?.or found[v]? := by
  have hnodup : (level.toList.map Prod.fst).Nodup :=
    List.pairwise_map.2 ((BTreeMap.toList_sorted level).imp fun h => h.ne)
  rw [BTreeMap.getElem?_foldl_insert hnodup]
  refine congrArg (·.or found[v]?) (Option.ext fun f => ?_)
  simp only [Option.map_eq_some_iff, find?_key_eq_some hnodup]
  constructor
  · rintro ⟨⟨k, g⟩, ⟨hmem, rfl⟩, rfl⟩
    exact BTreeMap.mem_toList.1 hmem
  · intro hf
    exact ⟨(v, f), ⟨BTreeMap.mem_toList.2 hf, rfl⟩, rfl⟩

/-- Nothing comes first at a depth or later, when nothing does at the depth. -/
theorem no_first (hnone : ∀ v, ¬ IsFirst edges S depth v) (hpos : 1 ≤ depth) (n : Nat) :
    ∀ v, ¬ IsFirst edges S (depth + n) v := by
  induction n with
  | zero => exact hnone
  | succ n ih =>
    intro v hv
    obtain ⟨e, he, rfl, hr⟩ := Reaches.pred (n := depth + n) hv.reaches
    obtain ⟨k, hk⟩ : ∃ k, depth + n = k + 1 := ⟨depth + n - 1, by omega⟩
    have hdist := First.pred (n := depth + n) hv he hr
    rw [hk] at hdist
    exact ih _ (hk ▸ hdist.first)

theorem Inv.next (h : Inv edges S depth s) (hpos : 1 ≤ depth) {l : Level}
    (hexp : ∀ u, u ∈ l.expanded ↔ u ∈ s.expanded ∨ u ∈ s.frontier.map (·.1))
    (hlevel : l.level = ((fresh s.expanded s.frontier).flatMap (candidates edges s.found depth)).foldl keep ∅) :
    Inv edges S (depth + 1) ⟨l.level.toList.foldl (fun found e => found.insert e.1 e.2) s.found, l.expanded,
      frontierOf l.level⟩ := by
  obtain ⟨hsound, hcomplete⟩ := h.level hpos hlevel
  have hmem : ∀ {u f}, (u, f) ∈ l.level.toList → f.node = u ∧ f.depth = depth ∧ Discovered edges S f :=
    fun hf => hsound _ _ (BTreeMap.mem_toList.1 hf)
  have hexpanded : ∀ u, u ∈ l.expanded ↔ ∃ k, k + 1 < depth + 1 ∧ IsDist edges S k u := by
    intro u
    rw [hexp, h.expanded]
    constructor
    · rintro (⟨k, hk, hd⟩ | hu)
      · exact ⟨k, by omega, hd⟩
      · obtain ⟨entry, hentry, rfl⟩ := List.mem_map.1 hu
        by_cases hx : entry.1 ∈ s.expanded
        · obtain ⟨k, hk, hd⟩ := (h.expanded _).1 hx
          exact ⟨k, by omega, hd⟩
        · obtain ⟨es, -, hlen, -, hd⟩ := h.frontier entry hentry hx
          exact ⟨es.length, by omega, hd⟩
    · rintro ⟨k, hk, hd⟩
      by_cases hlast : k + 1 = depth
      · exact .inr (h.front u k hlast hd)
      · exact .inl ⟨k, by omega, hd⟩
  have hnodes : (frontierOf l.level).map (·.1) = l.level.toList.map Prod.fst := by
    rw [frontierOf, List.map_map]
    exact List.map_congr_left fun e he => (hmem he).1
  refine ⟨fun v f hf => ?_, fun v k hk hv => ?_, hexpanded, ?_, fun entry hentry hx => ?_, fun u k hk hu => ?_⟩
  · simp only [getElem?_extend] at hf
    cases hl : l.level[v]? with
    | some g =>
      rw [hl, Option.some_or] at hf
      cases hf
      obtain ⟨h1, h2, h3⟩ := hsound v _ hl
      exact ⟨h1, by omega, h3⟩
    | none =>
      rw [hl, Option.none_or] at hf
      obtain ⟨h1, h2, h3⟩ := h.found v f hf
      exact ⟨h1, by omega, h3⟩
  · simp only [Std.ExtTreeMap.contains_eq_isSome_getElem?, getElem?_extend, Option.isSome_or, Bool.or_eq_true]
    by_cases hlast : k = depth
    · exact .inl (hcomplete v (hlast ▸ hv))
    · refine .inr ?_
      rw [← Std.ExtTreeMap.contains_eq_isSome_getElem?]
      exact h.complete v k (by omega) hv
  · rw [hnodes]
    exact List.pairwise_map.2 ((BTreeMap.toList_sorted _).imp fun h => h.ne)
  · obtain ⟨⟨u, f⟩, hf, rfl⟩ := List.mem_map.1 hentry
    obtain ⟨-, h2, hfirst, es, e, hleast, hlen, hwit, -⟩ := hmem hf
    refine ⟨es ++ [e], hleast, by omega, hwit, ?_⟩
    rw [hlen]
    refine hfirst.dist fun hs => hx ?_
    exact (hexpanded _).2 ⟨0, by omega, dist_zero.2 hs⟩
  · rw [hnodes]
    obtain ⟨j, rfl⟩ : ∃ j, k = j + 1 := ⟨k - 1, by omega⟩
    obtain ⟨f, hf⟩ := Option.isSome_iff_exists.1 (hcomplete u ((show j + 1 = depth by omega) ▸ hu.first))
    exact List.mem_map.2 ⟨(u, f), BTreeMap.mem_toList.2 hf, rfl⟩

/-- The loop, from an invariant to what it leaves in `found`. -/
theorem levels_found {expired : Nat → Node → Bool} (hopen : ∀ d n, expired d n = false) (n : Nat)
    (h : Inv edges S depth s) (hpos : 1 ≤ depth) : ∃ found, levels edges expired n depth s = .ok found ∧
      (∀ v f, found[v]? = some f → f.node = v ∧ f.depth < depth + n ∧ Discovered edges S f) ∧
      ∀ v k, k < depth + n → IsFirst edges S k v → found.contains v := by
  induction n generalizing depth s with
  | zero => exact ⟨s.found, rfl, h.found, h.complete⟩
  | succ n ih =>
    obtain ⟨l, hrun, hexp, hlevel⟩ := foldlM_expand edges hopen s.found depth h.once ⟨s.expanded, ∅⟩
    rw [levels, hrun]
    simp only
    by_cases hempty : l.level.isEmpty
    · rw [if_pos hempty]
      have hnone : ∀ v, ¬ IsFirst edges S depth v := by
        intro v hv
        have := (h.level hpos hlevel).2 v hv
        rw [Std.ExtTreeMap.isEmpty_iff.1 hempty] at this
        simp at this
      refine ⟨s.found, rfl, fun v f hf => ?_, fun v k hk hv => ?_⟩
      · obtain ⟨h1, h2, h3⟩ := h.found v f hf
        exact ⟨h1, by omega, h3⟩
      · by_cases hlt : k < depth
        · exact h.complete v k hlt hv
        · obtain ⟨m, rfl⟩ : ∃ m, k = depth + m := ⟨k - depth, by omega⟩
          exact absurd hv (no_first hnone hpos m v)
    · rw [if_neg hempty]
      obtain ⟨found, h1, h2, h3⟩ := ih (h.next hpos hexp hlevel) (by omega)
      exact ⟨found, h1, fun v f hf => by rw [Nat.add_right_comm] at h2; exact h2 v f hf,
        fun v k hk => h3 v k (by omega)⟩

end

end SprefaExtract
