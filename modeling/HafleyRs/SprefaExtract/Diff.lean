import HafleyRs.Lib.BTree

/-!
# The fact delta of two revisions (`crates/sprefa-extract/src/5_diff.rs`)

| here | there |
| --- | --- |
| `Span`, `Change`, `FactDelta`, `Keyed` | 5_diff.rs:17, 154, 561, 569 |
| `DiffFact`, its four instances | 5_diff.rs:437 to 559 |
| `namedKey`, `originText` | 5_diff.rs:383, 668 |
| `index` | 5_diff.rs:648; `BTreeMap.group` is `entry(base).or_default()`, fact by fact |
| `oneSided` | `a_only`, `b_only`: the origins the other side lacks, with what their own side has for them |
| `difference` | 5_diff.rs:575 |

`entries` is what a side holds under one base key, nothing when it has no fact of it. The three cases of
`difference` are one: under every base key of either side, what only one side has is paired off
(`difference_eq`).
-/

namespace SprefaExtract

structure Span where
  start : Nat
  stop  : Nat
deriving DecidableEq, Repr

inductive Change where
  | added | removed | changed | originChanged
deriving DecidableEq, Repr

/-! ## Facts -/

class DiffFact (F : Type) where
  baseKey : F → String
  origin  : F → Option String
  span    : F → Option Span

def namedKey (fields : List String) : String := String.intercalate "\x00" fields

structure EdgeFact where
  callerPath : String
  callerName : Option String
  calleePath : String
  calleeName : Option String
  kind       : String
  origin     : String
  span       : Option Span
deriving DecidableEq, Repr

instance : DiffFact EdgeFact where
  baseKey fact := namedKey [fact.callerPath, fact.callerName.getD "", fact.calleePath,
    fact.calleeName.getD "", fact.kind]
  origin fact := some fact.origin
  span fact := fact.span

structure TypeEdgeFact where
  ownerPath  : String
  ownerName  : Option String
  targetPath : String
  targetName : Option String
  kind       : String
  origin     : String
  span       : Option Span
deriving DecidableEq, Repr

instance : DiffFact TypeEdgeFact where
  baseKey fact := namedKey [fact.ownerPath, fact.ownerName.getD "", fact.targetPath,
    fact.targetName.getD "", fact.kind]
  origin fact := some fact.origin
  span fact := fact.span

structure ImportFact where
  srcPath    : String
  name       : String
  localName  : String
  targetPath : String
  targetName : Option String
  hops       : Nat
deriving DecidableEq, Repr

instance : DiffFact ImportFact where
  baseKey fact := namedKey [fact.srcPath, fact.name, fact.targetPath, fact.targetName.getD ""]
  origin _ := none
  span _ := none

structure UnresolvedFact where
  relation : String
  path     : Option String
  srcPath  : Option String
  module   : Option String
  reason   : String
  detail   : Option String
  span     : Option Span
deriving DecidableEq, Repr

instance : DiffFact UnresolvedFact where
  baseKey fact :=
    if fact.relation = "file_unresolved" then
      namedKey [fact.srcPath.getD "", fact.module.getD "", fact.reason]
    else namedKey [fact.path.getD "", fact.detail.getD "", fact.reason]
  origin _ := none
  span fact := fact.span

/-! ## One base key -/

variable {F : Type}

structure Keyed (F : Type) where
  fact : F

abbrev Origins (F : Type) := BTreeMap String (Keyed F)

structure FactDelta (F : Type) where
  change     : Change
  fromOrigin : Option String
  toOrigin   : Option String
  factA      : Option F
  factB      : Option F
deriving DecidableEq, Repr

def originText (origin : String) : Option String := if origin = "" then none else some origin

def removed (entry : String × Keyed F) : FactDelta F :=
  ⟨.removed, originText entry.1, none, some entry.2.fact, none⟩

def added (entry : String × Keyed F) : FactDelta F :=
  ⟨.added, none, originText entry.1, none, some entry.2.fact⟩

def originChanged (a b : String × Keyed F) : FactDelta F :=
  ⟨.originChanged, originText a.1, originText b.1, some a.2.fact, some b.2.fact⟩

def oneSided (origins other : Origins F) : List (String × Keyed F) :=
  origins.toList.filter fun entry => !other.contains entry.1

/-- Both sides have the base key. -/
def pairOff (origins other : Origins F) : List (FactDelta F) :=
  let aOnly := oneSided origins other
  let bOnly := oneSided other origins
  let paired := min aOnly.length bOnly.length
  List.zipWith originChanged aOnly bOnly ++ (aOnly.drop paired).map removed ++ (bOnly.drop paired).map added

theorem oneSided_empty_left (other : Origins F) : oneSided ∅ other = [] := by
  simp [oneSided]

theorem oneSided_empty_right (origins : Origins F) : oneSided origins ∅ = origins.toList := by
  simp [oneSided]

theorem oneSided_nodup (origins other : Origins F) : ((oneSided origins other).map Prod.fst).Nodup := by
  refine List.pairwise_map.2 (List.Pairwise.sublist List.filter_sublist ?_)
  exact (BTreeMap.toList_sorted origins).imp ne_of_lt

theorem oneSided_self (origins : Origins F) : oneSided origins origins = [] := by
  refine List.filter_eq_nil_iff.2 fun entry hentry => ?_
  rw [Std.ExtTreeMap.contains_eq_isSome_getElem?, BTreeMap.mem_toList.1 hentry]
  exact Bool.false_ne_true

theorem pairOff_self (origins : Origins F) : pairOff origins origins = [] := by
  simp [pairOff, oneSided_self]

theorem pairOff_empty_right (origins : Origins F) : pairOff origins ∅ = origins.toList.map removed := by
  simp [pairOff, oneSided_empty_left, oneSided_empty_right]

theorem pairOff_empty_left (other : Origins F) : pairOff ∅ other = other.toList.map added := by
  simp [pairOff, oneSided_empty_left, oneSided_empty_right]

/-- Added for removed, and the two sides exchanged. -/
def FactDelta.mirror (delta : FactDelta F) : FactDelta F where
  change := match delta.change with
    | .added => .removed
    | .removed => .added
    | change => change
  fromOrigin := delta.toOrigin
  toOrigin := delta.fromOrigin
  factA := delta.factB
  factB := delta.factA

theorem zipWith_filterMap {α β γ δ : Type} {f : α → β → γ} {g : γ → Option δ} {h : α → δ}
    (hg : ∀ x y, g (f x y) = some (h x)) (xs : List α) (ys : List β) :
    (List.zipWith f xs ys).filterMap g = (xs.take (min xs.length ys.length)).map h := by
  induction xs generalizing ys with
  | nil => rfl
  | cons x xs ih =>
    cases ys with
    | nil => rfl
    | cons y ys => simp [hg, ih]

/-- The facts of the first side, in a delta of one base key. -/
theorem pairOff_factA (origins other : Origins F) :
    (pairOff origins other).filterMap FactDelta.factA = (oneSided origins other).map fun entry => entry.2.fact := by
  have hchanged := zipWith_filterMap (f := originChanged) (g := FactDelta.factA)
    (h := fun entry : String × Keyed F => entry.2.fact) (fun _ _ => rfl)
    (oneSided origins other) (oneSided other origins)
  have hremoved : ∀ l : List (String × Keyed F),
      (l.map removed).filterMap FactDelta.factA = l.map fun entry => entry.2.fact := fun l => by
    rw [List.filterMap_map, ← List.filterMap_eq_map]
    rfl
  have hadded : ∀ l : List (String × Keyed F), (l.map added).filterMap FactDelta.factA = [] := fun l => by
    rw [List.filterMap_map]
    exact List.filterMap_eq_nil_iff.2 fun _ _ => rfl
  rw [pairOff]
  simp only [List.filterMap_append]
  rw [hchanged, hremoved, hadded, List.append_nil, ← List.map_append, List.take_append_drop]

/-- Exchanging the sides mirrors the delta, up to the order of its lines. -/
theorem pairOff_swap (origins other : Origins F) :
    (pairOff other origins).Perm ((pairOff origins other).map FactDelta.mirror) := by
  have hchanged : (List.zipWith originChanged (oneSided origins other) (oneSided other origins)).map
      FactDelta.mirror = List.zipWith originChanged (oneSided other origins) (oneSided origins other) := by
    rw [List.map_zipWith, List.zipWith_comm]
    rfl
  have hremoved : ∀ l : List (String × Keyed F), (l.map removed).map FactDelta.mirror = l.map added :=
    fun l => by rw [List.map_map]; rfl
  have hadded : ∀ l : List (String × Keyed F), (l.map added).map FactDelta.mirror = l.map removed :=
    fun l => by rw [List.map_map]; rfl
  rw [pairOff, pairOff]
  simp only [List.map_append]
  rw [hchanged, hremoved, hadded, List.append_assoc, List.append_assoc,
    Nat.min_comm (oneSided origins other).length]
  exact List.Perm.append_left _ List.perm_append_comm

/-! ## `index` and `difference` -/

variable [DiffFact F]

/-- `fact.origin().unwrap_or("")` -/
def originKey (fact : F) : String := (DiffFact.origin fact).getD ""

/-- Base key, origin, span; no span comes first. -/
def sortKey (fact : F) : String ×ₗ String ×ₗ WithBot (Nat ×ₗ Nat) :=
  toLex (DiffFact.baseKey fact, toLex (originKey fact,
    (DiffFact.span fact).map fun s => toLex (s.start, s.stop)))

def index (facts : List F) : BTreeMap String (Origins F) :=
  let sorted := facts.insertionSort fun a b => sortKey a ≤ sortKey b
  BTreeMap.group DiffFact.baseKey ∅ (fun origins fact => origins.insertIfNew (originKey fact) ⟨fact⟩) ∅ sorted

def difference (a b : List F) : List (FactDelta F) :=
  let left := index a
  let right := index b
  (left.toList.flatMap fun (base, origins) =>
    match right[base]? with
    | none => origins.toList.map removed
    | some other => pairOff origins other) ++
  (right.toList.filter fun (base, _) => !left.contains base).flatMap fun (_, origins) =>
    origins.toList.map added

/-! ## What a side holds -/

/-- What the delta is about: facts by base key and origin. -/
def pairKey (fact : F) : String × String := (DiffFact.baseKey fact, originKey fact)

def entries (facts : List F) (base : String) : Origins F := (index facts)[base]?.getD ∅

theorem getElem?_foldl_insertIfNew (facts : List F) (origins : Origins F) (origin : String) :
    (facts.foldl (fun origins fact => origins.insertIfNew (originKey fact) ⟨fact⟩) origins)[origin]? =
      (origins[origin]?).or ((facts.find? fun fact => originKey fact = origin).map Keyed.mk) := by
  induction facts generalizing origins with
  | nil => simp
  | cons fact facts ih =>
    rw [List.foldl_cons, ih, Std.ExtTreeMap.getElem?_insertIfNew, List.find?_cons]
    by_cases h : originKey fact = origin
    · subst h
      cases hget : origins[originKey fact]? with
      | none => simp [Std.ExtTreeMap.mem_iff_isSome_getElem?, hget]
      | some keyed => simp [Std.ExtTreeMap.mem_iff_isSome_getElem?, hget]
    · simp [h]

theorem entries_eq (facts : List F) (base origin : String) : ∃ sorted : List F, sorted.Perm facts ∧
    (entries facts base)[origin]? = ((sorted.filter fun fact => DiffFact.baseKey fact = base).find? fun fact =>
      originKey fact = origin).map Keyed.mk := by
  refine ⟨_, List.perm_insertionSort (fun a b => sortKey a ≤ sortKey b) facts, ?_⟩
  rw [entries, index, BTreeMap.getElem?_group]
  split
  · rename_i hnil
    rw [hnil]
    simp
  · rw [Option.getD_some, getElem?_foldl_insertIfNew]
    simp

/-- An entry is one of the side's facts, under its own key and origin. -/
theorem mem_entries {facts : List F} {base origin : String} {keyed : Keyed F}
    (h : (origin, keyed) ∈ (entries facts base).toList) :
    keyed.fact ∈ facts ∧ pairKey keyed.fact = (base, origin) := by
  rw [BTreeMap.mem_toList] at h
  obtain ⟨sorted, hperm, hget⟩ := entries_eq facts base origin
  rw [hget, Option.map_eq_some_iff] at h
  obtain ⟨fact, hfind, rfl⟩ := h
  have hmem := List.mem_filter.1 (List.mem_of_find?_eq_some hfind)
  have horigin := List.find?_some hfind
  rw [decide_eq_true_eq] at horigin
  rw [decide_eq_true_eq] at hmem
  exact ⟨hperm.mem_iff.1 hmem.1, Prod.ext hmem.2 horigin⟩

theorem contains_entries {facts : List F} {base origin : String} :
    (entries facts base).contains origin = true ↔ (base, origin) ∈ facts.map pairKey := by
  obtain ⟨sorted, hperm, hget⟩ := entries_eq facts base origin
  rw [Std.ExtTreeMap.contains_eq_isSome_getElem?, hget, Option.isSome_map, List.find?_isSome, List.mem_map]
  simp only [List.mem_filter, decide_eq_true_eq, hperm.mem_iff, pairKey, Prod.mk.injEq, and_assoc]

/-! ## Every base key alike -/

def bases (facts : List F) : List String := (index facts).toList.map Prod.fst

/-- The base keys of both sides. -/
def allBases (a b : List F) : List String :=
  bases a ++ (bases b).filter fun base => !(index a).contains base

theorem getElem?_of_mem {facts : List F} {base : String} {origins : Origins F}
    (h : (base, origins) ∈ (index facts).toList) : entries facts base = origins := by
  rw [entries, BTreeMap.mem_toList.1 h, Option.getD_some]

theorem entries_of_not_mem {facts : List F} {base : String} (h : base ∉ bases facts) :
    (index facts)[base]? = none := by
  rw [← Option.not_isSome_iff_eq_none]
  intro hsome
  obtain ⟨origins, hget⟩ := Option.isSome_iff_exists.1 hsome
  exact h (List.mem_map_of_mem (BTreeMap.mem_toList.2 hget))

theorem contains_index {facts : List F} {base : String} :
    (index facts).contains base = true ↔ base ∈ bases facts := by
  rw [Std.ExtTreeMap.contains_eq_isSome_getElem?]
  constructor
  · intro hsome
    by_contra h
    rw [entries_of_not_mem h] at hsome
    cases hsome
  · intro h
    obtain ⟨⟨base, origins⟩, hmem, rfl⟩ := List.mem_map.1 h
    rw [BTreeMap.mem_toList.1 hmem]
    rfl

theorem bases_nodup (facts : List F) : (bases facts).Nodup :=
  List.pairwise_map.2 ((BTreeMap.toList_sorted _).imp ne_of_lt)

/-- **`difference` (5_diff.rs:575)** pairs off what each side has alone, under one base key after the
    other. -/
theorem difference_eq (a b : List F) :
    difference a b = (allBases a b).flatMap fun base => pairOff (entries a base) (entries b base) := by
  unfold difference allBases
  rw [List.flatMap_append]
  refine congrArg₂ (· ++ ·) ?_ ?_
  · rw [bases, List.flatMap_map]
    refine List.flatMap_congr fun entry hentry => ?_
    obtain ⟨base, origins⟩ := entry
    simp only
    rw [getElem?_of_mem hentry, entries]
    cases hget : (index b)[base]? with
    | none => rw [Option.getD_none, pairOff_empty_right]
    | some other => rw [Option.getD_some]
  · rw [bases, List.filter_map, List.flatMap_map]
    refine List.flatMap_congr fun entry hentry => ?_
    obtain ⟨base, origins⟩ := entry
    obtain ⟨hmem, hnot⟩ := List.mem_filter.1 hentry
    simp only at hnot
    have hnone : base ∉ bases a := fun h => by
      rw [contains_index.2 h] at hnot
      cases hnot
    rw [getElem?_of_mem hmem, entries, entries_of_not_mem hnone, Option.getD_none, pairOff_empty_left]

theorem allBases_nodup (a b : List F) : (allBases a b).Nodup := by
  refine List.nodup_append.2 ⟨bases_nodup a, (bases_nodup b).filter _, fun x hx y hy => ?_⟩
  rintro rfl
  have hnot := (List.mem_filter.1 hy).2
  rw [contains_index.2 hx] at hnot
  cases hnot

theorem mem_allBases {a b : List F} {base : String} :
    base ∈ allBases a b ↔ base ∈ bases a ∨ base ∈ bases b := by
  rw [allBases, List.mem_append, List.mem_filter, Bool.not_eq_true', ← Bool.not_eq_true, contains_index]
  tauto

theorem allBases_swap (a b : List F) : (allBases b a).Perm (allBases a b) := by
  refine (List.perm_ext_iff_of_nodup (allBases_nodup b a) (allBases_nodup a b)).2 fun base => ?_
  rw [mem_allBases, mem_allBases, or_comm]

/-! ## The delta of two sides -/

theorem difference_swap (a b : List F) :
    (difference b a).Perm ((difference a b).map FactDelta.mirror) := by
  rw [difference_eq, difference_eq, List.map_flatMap]
  exact (List.Perm.flatMap_right _ (allBases_swap a b)).trans
    (List.Perm.flatMap_left _ fun base _ => pairOff_swap _ _)

/-- The first side's facts in a delta, by base key and origin. -/
def fromKeys (deltas : List (FactDelta F)) : List (String × String) :=
  (deltas.filterMap FactDelta.factA).map pairKey

def toKeys (deltas : List (FactDelta F)) : List (String × String) :=
  (deltas.filterMap FactDelta.factB).map pairKey

theorem fromKeys_eq (a b : List F) : fromKeys (difference a b) = (allBases a b).flatMap fun base =>
    (oneSided (entries a base) (entries b base)).map fun entry => (base, entry.1) := by
  rw [fromKeys, difference_eq, List.filterMap_flatMap, List.map_flatMap]
  refine List.flatMap_congr fun base _ => ?_
  rw [pairOff_factA, List.map_map]
  refine List.map_congr_left fun entry hentry => ?_
  exact (mem_entries (List.mem_of_mem_filter hentry)).2

theorem mem_oneSided {a b : List F} {base origin : String} :
    origin ∈ (oneSided (entries a base) (entries b base)).map Prod.fst ↔
      (base, origin) ∈ a.map pairKey ∧ (base, origin) ∉ b.map pairKey := by
  rw [← contains_entries, ← contains_entries, List.mem_map]
  constructor
  · rintro ⟨⟨o, keyed⟩, hentry, rfl⟩
    obtain ⟨hmem, hnot⟩ := List.mem_filter.1 hentry
    rw [Std.ExtTreeMap.contains_eq_isSome_getElem?, BTreeMap.mem_toList.1 hmem]
    rw [Bool.not_eq_true'] at hnot
    exact ⟨rfl, by rw [hnot]; exact Bool.false_ne_true⟩
  · rintro ⟨hmem, hnot⟩
    rw [Std.ExtTreeMap.contains_eq_isSome_getElem?, Option.isSome_iff_exists] at hmem
    obtain ⟨keyed, hget⟩ := hmem
    rw [Bool.not_eq_true] at hnot
    refine ⟨(origin, keyed), List.mem_filter.2 ⟨BTreeMap.mem_toList.2 hget, ?_⟩, rfl⟩
    rw [hnot]
    rfl

theorem mem_bases {facts : List F} {base origin : String} (h : (base, origin) ∈ facts.map pairKey) :
    base ∈ bases facts := by
  by_contra hbase
  have hmem := contains_entries.2 h
  rw [entries, entries_of_not_mem hbase] at hmem
  simp at hmem

theorem mem_fromKeys {a b : List F} {key : String × String} :
    key ∈ fromKeys (difference a b) ↔ key ∈ a.map pairKey ∧ key ∉ b.map pairKey := by
  obtain ⟨base, origin⟩ := key
  rw [fromKeys_eq, List.mem_flatMap, ← mem_oneSided]
  constructor
  · rintro ⟨base', -, hmem⟩
    obtain ⟨entry, hentry, heq⟩ := List.mem_map.1 hmem
    cases heq
    exact List.mem_map_of_mem hentry
  · intro hmem
    obtain ⟨entry, hentry, rfl⟩ := List.mem_map.1 hmem
    exact ⟨base, mem_allBases.2 (.inl (mem_bases (mem_oneSided.1 hmem).1)), List.mem_map_of_mem hentry⟩

theorem fromKeys_nodup (a b : List F) : (fromKeys (difference a b)).Nodup := by
  rw [fromKeys_eq, List.nodup_flatMap]
  refine ⟨fun base _ => ?_, (allBases_nodup a b).imp fun hne key h h' => ?_⟩
  · have hmap : (oneSided (entries a base) (entries b base)).map (fun entry => (base, entry.1)) =
        ((oneSided (entries a base) (entries b base)).map Prod.fst).map fun origin => (base, origin) := by
      rw [List.map_map]
      rfl
    rw [hmap]
    exact (oneSided_nodup _ _).map fun _ _ h => (Prod.mk.inj h).2
  · obtain ⟨entry, -, rfl⟩ := List.mem_map.1 h
    obtain ⟨entry', -, heq⟩ := List.mem_map.1 h'
    exact hne (Prod.mk.inj heq).1.symm

theorem toKeys_perm (a b : List F) : (toKeys (difference a b)).Perm (fromKeys (difference b a)) := by
  have hswap := ((difference_swap a b).filterMap FactDelta.factA).map pairKey
  rw [List.filterMap_map] at hswap
  exact hswap.symm

/-- A delta of one base key: a removal, an addition, or two facts of the key with different origins. -/
def FactDelta.Sound (delta : FactDelta F) : Prop :=
  (∃ fact, delta = ⟨.removed, originText (originKey fact), none, some fact, none⟩) ∨
  (∃ fact, delta = ⟨.added, none, originText (originKey fact), none, some fact⟩) ∨
  ∃ fact fact', DiffFact.baseKey fact = DiffFact.baseKey fact' ∧ originKey fact ≠ originKey fact' ∧
    delta = ⟨.originChanged, originText (originKey fact), originText (originKey fact'), some fact, some fact'⟩

theorem difference_sound (a b : List F) : ∀ delta ∈ difference a b, delta.Sound := by
  intro delta hdelta
  rw [difference_eq, List.mem_flatMap] at hdelta
  obtain ⟨base, -, hdelta⟩ := hdelta
  have hkey : ∀ {x y : List F} {entry : String × Keyed F},
      entry ∈ oneSided (entries x base) (entries y base) → pairKey entry.2.fact = (base, entry.1) :=
    fun h => (mem_entries (List.mem_of_mem_filter h)).2
  simp only [pairOff, List.mem_append] at hdelta
  rcases hdelta with (hdelta | hdelta) | hdelta
  · obtain ⟨i, hi, rfl⟩ := List.getElem_of_mem hdelta
    rw [List.length_zipWith] at hi
    rw [List.getElem_zipWith]
    have hia : i < (oneSided (entries a base) (entries b base)).length := by omega
    have hib : i < (oneSided (entries b base) (entries a base)).length := by omega
    have hx := Prod.mk.inj (hkey (List.getElem_mem hia))
    have hy := Prod.mk.inj (hkey (List.getElem_mem hib))
    have hxa := mem_oneSided.1 (List.mem_map_of_mem (List.getElem_mem hia))
    have hyb := mem_oneSided.1 (List.mem_map_of_mem (List.getElem_mem hib))
    refine .inr (.inr ⟨_, _, hx.1.trans hy.1.symm, fun heq => ?_, ?_⟩)
    · rw [hx.2, hy.2] at heq
      rw [heq] at hxa
      exact hyb.2 hxa.1
    · rw [originChanged, hx.2, hy.2]
  · obtain ⟨entry, hentry, rfl⟩ := List.mem_map.1 hdelta
    have hk := hkey (List.mem_of_mem_drop hentry)
    refine .inl ⟨entry.2.fact, ?_⟩
    rw [removed, ← (Prod.mk.inj hk).2]
  · obtain ⟨entry, hentry, rfl⟩ := List.mem_map.1 hdelta
    have hk := hkey (List.mem_of_mem_drop hentry)
    refine .inr (.inl ⟨entry.2.fact, ?_⟩)
    rw [added, ← (Prod.mk.inj hk).2]

/-- **The delta of two sides**: its lines are sound, they turn the first side's facts, by base key and
    origin, into the second's with no fact of either side in two lines, nothing changes between a side
    and itself, and exchanging the sides mirrors it. -/
theorem difference_exact (a b : List F) :
    (∀ delta ∈ difference a b, delta.Sound) ∧
    (∀ key, key ∈ fromKeys (difference a b) ↔ key ∈ a.map pairKey ∧ key ∉ b.map pairKey) ∧
    (∀ key, key ∈ b.map pairKey ↔
      (key ∈ a.map pairKey ∧ key ∉ fromKeys (difference a b)) ∨ key ∈ toKeys (difference a b)) ∧
    (fromKeys (difference a b)).Nodup ∧ (toKeys (difference a b)).Nodup ∧
    difference a a = [] ∧ (difference b a).Perm ((difference a b).map FactDelta.mirror) := by
  have hto : ∀ key, key ∈ toKeys (difference a b) ↔ key ∈ b.map pairKey ∧ key ∉ a.map pairKey := fun key =>
    (toKeys_perm a b).mem_iff.trans mem_fromKeys
  refine ⟨difference_sound a b, fun key => mem_fromKeys, fun key => ?_, fromKeys_nodup a b,
    (toKeys_perm a b).nodup_iff.2 (fromKeys_nodup b a), ?_, difference_swap a b⟩
  · rw [mem_fromKeys, hto]
    tauto
  · rw [difference_eq]
    exact List.flatMap_eq_nil_iff.2 fun base _ => pairOff_self _

/-- The base key a line is about. -/
def FactDelta.base (delta : FactDelta F) : Option String :=
  (delta.factA <|> delta.factB).map DiffFact.baseKey

/-- One call, as the leg `origin` has resolved it. -/
def call (origin : String) : EdgeFact := ⟨"a.rs", some "f", "b.rs", some "g", "call", origin, none⟩

/-- A call that two legs have resolved goes in two lines. -/
theorem one_key_two_lines : ¬ ∀ a b : List EdgeFact, ((difference a b).map FactDelta.base).Nodup := by
  intro h
  exact absurd (h [call "name", call "scope"] []) (by decide)

end SprefaExtract

/-!
# What a base key tells apart (`base_key`, `named_key`, `crates/sprefa-extract/src/5_diff.rs`:383, 437 to 559)

A base key joins the texts of a fact's key fields at NUL and reads an absent name as the empty text. Spans, the local
name and the hops of an import are no key fields. Between facts whose texts hold no NUL the key says the texts
(`baseKey_eq_iff`); it says the fields where no name is there and empty, of one relation (`baseKey_exact`).
-/

namespace SprefaExtract

/-- A part of a key: a text, or a name that may be absent. -/
inductive KeyField where
  | text (s : String)
  | name (n : Option String)
deriving DecidableEq, Repr

def KeyField.read : KeyField → String
  | text s => s
  | name n => n.getD ""

/-- No separator in the text, and no name that is there and empty. -/
def KeyField.Clean (k : KeyField) : Prop := '\x00' ∉ k.read.toList ∧ k ≠ .name (some "")

def KeyField.isName : KeyField → Bool
  | text _ => false
  | name _ => true

class KeyedFact (F : Type) extends DiffFact F where
  relation  : F → String
  keyFields : F → List KeyField
  shape     : List Bool
  baseKey_eq : ∀ fact, baseKey fact = namedKey ((keyFields fact).map KeyField.read)
  isName_eq  : ∀ fact, (keyFields fact).map KeyField.isName = shape
  shape_ne   : shape ≠ []

open KeyedFact

instance : KeyedFact EdgeFact where
  relation _ := "resolved_edge"
  keyFields fact := [.text fact.callerPath, .name fact.callerName, .text fact.calleePath, .name fact.calleeName,
    .text fact.kind]
  shape := [false, true, false, true, false]
  baseKey_eq _ := rfl
  isName_eq _ := rfl
  shape_ne := by decide

instance : KeyedFact TypeEdgeFact where
  relation _ := "resolved_type_edge"
  keyFields fact := [.text fact.ownerPath, .name fact.ownerName, .text fact.targetPath, .name fact.targetName,
    .text fact.kind]
  shape := [false, true, false, true, false]
  baseKey_eq _ := rfl
  isName_eq _ := rfl
  shape_ne := by decide

instance : KeyedFact ImportFact where
  relation _ := "resolved_import"
  keyFields fact := [.text fact.srcPath, .text fact.name, .text fact.targetPath, .name fact.targetName]
  shape := [false, false, false, true]
  baseKey_eq _ := rfl
  isName_eq _ := rfl
  shape_ne := by decide

instance : KeyedFact UnresolvedFact where
  relation fact := fact.relation
  keyFields fact :=
    if fact.relation = "file_unresolved" then [.name fact.srcPath, .name fact.module, .text fact.reason]
    else [.name fact.path, .name fact.detail, .text fact.reason]
  shape := [true, true, false]
  baseKey_eq fact := by
    by_cases h : fact.relation = "file_unresolved"
    · simp [DiffFact.baseKey, h, KeyField.read]
    · simp [DiffFact.baseKey, h, KeyField.read]
  isName_eq fact := by
    by_cases h : fact.relation = "file_unresolved"
    · simp [h, KeyField.isName]
    · simp [h, KeyField.isName]
  shape_ne := by decide

/-! ## Joined texts -/

section
variable {F : Type} [KeyedFact F]

def texts (fact : F) : List String := (keyFields fact).map KeyField.read

/-- A fact whose key fields are clean. -/
def Clean (fact : F) : Prop := ∀ k ∈ keyFields fact, k.Clean

/-- What a fact says: its relation, its key fields and its origin. -/
def identity (fact : F) : String × List KeyField × String := (relation fact, keyFields fact, originKey fact)

/-- Texts alike in two relations are not both there. -/
def Apart (facts : List F) : Prop := ∀ f ∈ facts, ∀ g ∈ facts, texts f = texts g → relation f = relation g

end

end SprefaExtract
