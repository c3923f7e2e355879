import Mathlib

/-!
# Ordered maps and sets

`BTreeMap` and `BTreeSet` are the extensional search trees of `Std` at the order of the key type:
two of them are equal iff they hold the same entries, and `toList` lists them by increasing key.
The lemmas below restate the `Std` ones with `=` and `<` for `compare`, and say what the two loops
that fill such maps (`entry().or_default()` and repeated `insert`) leave in them.
-/

abbrev BTreeMap (K V : Type) [LinearOrder K] := Std.ExtTreeMap K V compare
abbrev BTreeSet (K : Type) [LinearOrder K] := Std.ExtTreeSet K compare

/-- The one fact the maps ask of the order of their keys. -/
instance transCmp_compare {K : Type} [LinearOrder K] : Std.TransCmp (compare : K → K → Ordering) := inferInstance

theorem one_lt_length_iff {A : Type} {l : List A} (h : l.Nodup) :
    1 < l.length ↔ ∃ a ∈ l, ∃ b ∈ l, a ≠ b := by
  classical
  rw [← List.toFinset_card_of_nodup h, Finset.one_lt_card]
  simp

namespace BTreeMap
variable {K V E : Type} [LinearOrder K]

theorem toList_sorted (m : BTreeMap K V) : m.toList.Pairwise fun a b => a.1 < b.1 :=
  m.ordered_keys_toList.imp fun h => compare_lt_iff_lt.1 h

theorem mem_toList {m : BTreeMap K V} {k : K} {v : V} : (k, v) ∈ m.toList ↔ m[k]? = some v :=
  Std.ExtTreeMap.mem_toList_iff_getElem?_eq_some

theorem ext_getElem? {m m' : BTreeMap K V} (h : ∀ k : K, m[k]? = m'[k]?) : m = m' := Std.ExtTreeMap.ext_getElem? h

theorem getElem?_alter [DecidableEq K] {m : BTreeMap K V} {k k' : K} {f : Option V → Option V} :
    (m.alter k f)[k']? = if k = k' then f m[k]? else m[k']? := by
  rw [Std.ExtTreeMap.getElem?_alter]
  exact if_congr compare_eq_iff_eq rfl rfl

theorem getElem?_insert [DecidableEq K] {m : BTreeMap K V} {k k' : K} {v : V} :
    (m.insert k v)[k']? = if k = k' then some v else m[k']? := by
  rw [Std.ExtTreeMap.getElem?_insert]
  exact if_congr compare_eq_iff_eq rfl rfl

theorem getElem?_erase [DecidableEq K] {m : BTreeMap K V} {k k' : K} :
    (m.erase k)[k']? = if k = k' then none else m[k']? := by
  rw [Std.ExtTreeMap.getElem?_erase]
  exact if_congr compare_eq_iff_eq rfl rfl

theorem mem_keys {m : BTreeMap K V} {k : K} : k ∈ m.keys ↔ m[k]?.isSome := by
  rw [Std.ExtTreeMap.mem_keys, Std.ExtTreeMap.mem_iff_isSome_getElem?]

theorem keys_nodup (m : BTreeMap K V) : m.keys.Nodup :=
  m.distinct_keys.imp fun h heq => h (compare_eq_iff_eq.2 heq)

theorem getElem?_foldl_erase [DecidableEq K] (ks : List K) (m : BTreeMap K V) (k : K) :
    (ks.foldl (fun m k => m.erase k) m)[k]? = if k ∈ ks then none else m[k]? := by
  induction ks generalizing m with
  | nil => simp
  | cons k' ks ih =>
    rw [List.foldl_cons, ih, getElem?_erase]
    by_cases hk : k = k'
    · simp [hk]
    · simp [hk, Ne.symm hk]

/-- Remove the keys of which `p` holds, one after the other, and count them. -/
def sweep (p : K → Bool) (m : BTreeMap K V) : BTreeMap K V × Nat :=
  ((m.keys.filter p).foldl (fun m k => m.erase k) m, (m.keys.filter p).length)

theorem getElem?_sweep [DecidableEq K] (p : K → Bool) (m : BTreeMap K V) (k : K) :
    (m.sweep p).1[k]? = if p k then none else m[k]? := by
  rw [sweep, getElem?_foldl_erase]
  by_cases hp : p k = true
  · by_cases hk : k ∈ m.keys
    · simp [hp, hk]
    · have hnone : m[k]? = none := by simpa [mem_keys] using hk
      simp [hp, hk, hnone]
  · simp [hp]

/-- `map.entry(key).or_insert(value)` for each pair in turn: the first value of a key stays. -/
theorem getElem?_foldl_entry [DecidableEq K] (es : List (K × V)) (m : BTreeMap K V) (k : K) :
    (es.foldl (fun m e => if m[e.1]?.isSome then m else m.insert e.1 e.2) m)[k]? =
      m[k]?.or ((es.find? fun e => e.1 = k).map (·.2)) := by
  induction es generalizing m with
  | nil => simp
  | cons e es ih =>
    rw [List.foldl_cons, ih]
    by_cases hk : e.1 = k
    · cases hm : m[k]? with
      | none => simp [hk, hm]
      | some v => simp [hk, hm]
    · by_cases hm : m[e.1]?.isSome
      · simp [hk, hm]
      · simp [hk, hm, getElem?_insert]

/-- `map.entry(key).or_default()` followed by an update, for each element in turn. -/
def group (key : E → K) (init : V) (update : V → E → V) (m : BTreeMap K V) (es : List E) :
    BTreeMap K V :=
  es.foldl (fun m e => m.alter (key e) fun v => some (update (v.getD init) e)) m

theorem getElem?_group_from [DecidableEq K] {key : E → K} {init : V} {update : V → E → V} (es : List E)
    (m : BTreeMap K V) (k : K) :
    (group key init update m es)[k]? =
      if es.filter (fun e => key e = k) = [] then m[k]?
      else some ((es.filter fun e => key e = k).foldl update (m[k]?.getD init)) := by
  induction es generalizing m with
  | nil => simp [group]
  | cons e es ih =>
    have hstep : group key init update m (e :: es) =
        group key init update (m.alter (key e) fun v => some (update (v.getD init) e)) es := rfl
    rw [hstep, ih, getElem?_alter]
    by_cases hk : key e = k
    · by_cases hnil : es.filter (fun e => decide (key e = k)) = []
      · simp [hk, hnil]
      · simp [hk, hnil]
    · simp [hk]

theorem getElem?_group [DecidableEq K] (key : E → K) (init : V) (update : V → E → V) (es : List E) (k : K) :
    (group key init update ∅ es)[k]? =
      if es.filter (fun e => key e = k) = [] then none
      else some ((es.filter fun e => key e = k).foldl update init) := by
  simp [getElem?_group_from]

theorem getElem?_foldl_insert [DecidableEq K] {key : E → K} {val : E → V} {es : List E} (h : (es.map key).Nodup)
    (m : BTreeMap K V) (k : K) : (es.foldl (fun m e => m.insert (key e) (val e)) m)[k]? =
      ((es.find? fun e => key e = k).map val).or m[k]? := by
  induction es generalizing m with
  | nil => simp
  | cons e es ih =>
    obtain ⟨he, hes⟩ := List.nodup_cons.1 h
    rw [List.foldl_cons, ih hes, getElem?_insert]
    by_cases hk : key e = k
    · have hnone : (es.find? fun e' => key e' = k) = none := by
        refine List.find?_eq_none.2 fun e' he' heq => he ?_
        have heq : key e' = k := by simpa using heq
        exact List.mem_map.2 ⟨e', he', heq.trans hk.symm⟩
      simp [hk, hnone]
    · simp [hk]

theorem mem_flatMap_toList {F : Type} {m : BTreeMap K V} {f : V → List F} {x : F} :
    x ∈ m.toList.flatMap (fun e => f e.2) ↔ ∃ (k : K) (v : V), m[k]? = some v ∧ x ∈ f v := by
  rw [List.mem_flatMap]
  constructor
  · rintro ⟨⟨k, v⟩, hmem, hx⟩
    exact ⟨k, v, mem_toList.1 hmem, hx⟩
  · rintro ⟨k, v, hget, hx⟩
    exact ⟨(k, v), mem_toList.2 hget, hx⟩

theorem toList_nodup_keys (m : BTreeMap K V) : m.toList.Nodup :=
  (toList_sorted m).imp fun h heq => h.ne (congrArg Prod.fst heq)

/-- What the values of a map lead to, and what more than one of them leads to. -/
theorem mem_filterMap_toList {D : Type} [DecidableEq D] {m : BTreeMap K V} {f : V → Option D} {d : D} :
    d ∈ m.toList.filterMap (fun e => f e.2) ↔ ∃ k : K, m[k]?.bind f = some d := by
  rw [List.mem_filterMap]
  constructor
  · rintro ⟨⟨k, v⟩, hmem, hd⟩
    exact ⟨k, by rw [mem_toList.1 hmem]; exact hd⟩
  · rintro ⟨k, hk⟩
    obtain ⟨v, hv, hd⟩ := Option.bind_eq_some_iff.1 hk
    exact ⟨(k, v), mem_toList.2 hv, hd⟩

theorem one_lt_count_filterMap {D : Type} [DecidableEq D] {m : BTreeMap K V} {f : V → Option D} {d : D} :
    1 < (m.toList.filterMap fun e => f e.2).count d ↔
      ∃ k k' : K, k ≠ k' ∧ m[k]?.bind f = some d ∧ m[k']?.bind f = some d := by
  rw [List.count_filterMap, List.countP_eq_length_filter,
    one_lt_length_iff ((toList_nodup_keys m).filter _)]
  simp only [List.mem_filter, beq_iff_eq]
  constructor
  · rintro ⟨⟨k, v⟩, ⟨hv, hd⟩, ⟨k', v'⟩, ⟨hv', hd'⟩, hne⟩
    rw [mem_toList] at hv hv'
    refine ⟨k, k', ?_, by rw [hv]; exact hd, by rw [hv']; exact hd'⟩
    rintro rfl
    rw [hv] at hv'
    exact hne (by rw [Option.some.inj hv'])
  · rintro ⟨k, k', hne, hk, hk'⟩
    obtain ⟨v, hv, hd⟩ := Option.bind_eq_some_iff.1 hk
    obtain ⟨v', hv', hd'⟩ := Option.bind_eq_some_iff.1 hk'
    exact ⟨(k, v), ⟨mem_toList.2 hv, hd⟩, (k', v'), ⟨mem_toList.2 hv', hd'⟩,
      fun h => hne (congrArg Prod.fst h)⟩

end BTreeMap

namespace BTreeSet
variable {K E : Type} [LinearOrder K]

theorem toList_sorted (s : BTreeSet K) : s.toList.Pairwise (· < ·) :=
  s.ordered_toList.imp fun h => compare_lt_iff_lt.1 h

theorem mem_toList {s : BTreeSet K} {a : K} : a ∈ s.toList ↔ a ∈ s := Std.ExtTreeSet.mem_toList

theorem ext_mem {s t : BTreeSet K} (h : ∀ a, a ∈ s ↔ a ∈ t) : s = t := Std.ExtTreeSet.ext_mem h

theorem mem_insert {s : BTreeSet K} {a b : K} : b ∈ s.insert a ↔ a = b ∨ b ∈ s := by
  simp only [Std.ExtTreeSet.mem_insert, compare_eq_iff_eq]

theorem mem_foldl_insert {f : E → K} (es : List E) (s : BTreeSet K) (k : K) :
    k ∈ es.foldl (fun s e => s.insert (f e)) s ↔ k ∈ s ∨ ∃ e ∈ es, f e = k := by
  induction es generalizing s with
  | nil => simp
  | cons e es ih =>
    rw [List.foldl_cons, ih, mem_insert]
    simp only [List.mem_cons, exists_eq_or_imp]
    tauto

/-- A set's list has one element iff the set does. -/
theorem toList_eq_singleton {s : BTreeSet K} {a : K} :
    s.toList = [a] ↔ a ∈ s ∧ ∀ b ∈ s, b = a := by
  constructor
  · intro h
    have hmem : ∀ b, b ∈ s ↔ b = a := fun b => by
      rw [← mem_toList, h, List.mem_singleton]
    exact ⟨(hmem a).2 rfl, fun b hb => (hmem b).1 hb⟩
  · rintro ⟨ha, hall⟩
    have hmem : ∀ b, b ∈ s.toList ↔ b = a := fun b => by
      rw [mem_toList]
      exact ⟨hall b, fun h => h ▸ ha⟩
    have hsort := toList_sorted s
    cases hl : s.toList with
    | nil => rw [hl] at hmem; simpa using (hmem a).2 rfl
    | cons x l =>
      rw [hl] at hmem hsort
      rw [List.pairwise_cons] at hsort
      have hx : x = a := (hmem x).1 (by simp)
      cases l with
      | nil => rw [hx]
      | cons y l =>
        have hy : y = a := (hmem y).1 (by simp)
        exact absurd (hsort.1 y (by simp)) (by rw [hx, hy]; exact lt_irrefl a)

theorem length_toList (s : BTreeSet K) : s.toList.length = s.size := Std.ExtTreeSet.length_toList

theorem toList_nodup (s : BTreeSet K) : s.toList.Nodup := (toList_sorted s).imp fun h => h.ne

theorem size_le_of_subset {s t : BTreeSet K} (h : ∀ a ∈ s, a ∈ t) : s.size ≤ t.size := by
  rw [← length_toList, ← length_toList]
  refine ((toList_nodup s).subperm fun a ha => ?_).length_le
  exact mem_toList.2 (h a (mem_toList.1 ha))

/-- More than one element. -/
theorem one_lt_size {s : BTreeSet K} : 1 < s.size ↔ ∃ a ∈ s, ∃ b ∈ s, a ≠ b := by
  rw [← length_toList, one_lt_length_iff (toList_nodup s)]
  simp only [mem_toList]

theorem mem_foldl_erase (ks : List K) (s : BTreeSet K) (a : K) :
    a ∈ ks.foldl (fun s k => s.erase k) s ↔ a ∈ s ∧ a ∉ ks := by
  induction ks generalizing s with
  | nil => simp
  | cons k ks ih =>
    rw [List.foldl_cons, ih, Std.ExtTreeSet.mem_erase, List.mem_cons, not_or, Ne, compare_eq_iff_eq, eq_comm]
    tauto

end BTreeSet

/-! ## Sorting by a key -/

theorem sortByKey_pairwise {K E : Type} [LinearOrder K] (key : E → K) (l : List E) :
    (l.insertionSort fun a b => key a ≤ key b).Pairwise fun a b => key a ≤ key b :=
  haveI : IsTrans E fun a b => key a ≤ key b := ⟨fun _ _ _ => le_trans⟩
  haveI : Std.Total fun a b : E => key a ≤ key b := ⟨fun _ _ => le_total _ _⟩
  List.pairwise_insertionSort _ l

/-- Two lists of the same elements, sorted by a key that tells them apart, are equal. -/
theorem eq_of_sortedByKey {K E : Type} [LinearOrder K] (key : E → K) {l m : List E}
    (hkey : ∀ a ∈ l, ∀ b ∈ m, key a = key b → a = b) (hl : l.Pairwise fun a b => key a ≤ key b)
    (hm : m.Pairwise fun a b => key a ≤ key b) (h : l.Perm m) : l = m :=
  h.eq_of_pairwise (fun a b ha hb h1 h2 => hkey a ha b hb (le_antisymm h1 h2)) hl hm

/-- Two maps list alike, as far as `f` shows their values, when they hold alike. -/
theorem BTreeMap.map_toList_eq {K V W : Type} [LinearOrder K] {f : V → W} {m m' : BTreeMap K V}
    (h : ∀ k : K, m[k]?.map f = m'[k]?.map f) :
    m.toList.map (fun e => (e.1, f e.2)) = m'.toList.map (fun e => (e.1, f e.2)) := by
  have hmem : ∀ (m : BTreeMap K V) (k : K) (w : W),
      (k, w) ∈ m.toList.map (fun e => (e.1, f e.2)) ↔ m[k]?.map f = some w := by
    intro m k w
    rw [List.mem_map, Option.map_eq_some_iff]
    constructor
    · rintro ⟨⟨k', v⟩, hv, heq⟩
      cases heq
      exact ⟨v, BTreeMap.mem_toList.1 hv, rfl⟩
    · rintro ⟨v, hv, rfl⟩
      exact ⟨(k, v), BTreeMap.mem_toList.2 hv, rfl⟩
  have hsort : ∀ m : BTreeMap K V, (m.toList.map fun e => (e.1, f e.2)).Pairwise fun a b => a.1 < b.1 :=
    fun m => List.pairwise_map.2 (BTreeMap.toList_sorted m)
  have hnodup : ∀ m : BTreeMap K V, (m.toList.map fun e => (e.1, f e.2)).Nodup :=
    fun m => (hsort m).imp fun h heq => h.ne (congrArg Prod.fst heq)
  have hperm : (m.toList.map fun e => (e.1, f e.2)).Perm (m'.toList.map fun e => (e.1, f e.2)) := by
    refine (List.perm_ext_iff_of_nodup (hnodup m) (hnodup m')).2 ?_
    rintro ⟨k, w⟩
    rw [hmem, hmem, h]
  refine eq_of_sortedByKey Prod.fst ?_ ((hsort m).imp le_of_lt) ((hsort m').imp le_of_lt) hperm
  rintro ⟨k, w⟩ hw ⟨k', w'⟩ hw' heq
  obtain rfl : k = k' := heq
  rw [hmem] at hw hw'
  rw [h, hw'] at hw
  rw [Option.some.inj hw]

/-- The elements of a list, each once, in order. -/
def sortedDistinct {A : Type} [LinearOrder A] (l : List A) : List A := l.dedup.insertionSort (· ≤ ·)

theorem mem_sortedDistinct {A : Type} [LinearOrder A] {l : List A} {a : A} : a ∈ sortedDistinct l ↔ a ∈ l := by
  rw [sortedDistinct, List.mem_insertionSort, List.mem_dedup]

theorem sortedDistinct_sorted {A : Type} [LinearOrder A] (l : List A) : (sortedDistinct l).Pairwise (· < ·) := by
  have hnodup : (sortedDistinct l).Nodup := (List.perm_insertionSort _ _).nodup_iff.2 (List.nodup_dedup l)
  exact (List.pairwise_insertionSort (· ≤ ·) l.dedup).and hnodup |>.imp fun h => lt_of_le_of_ne h.1 h.2

theorem eq_sortedDistinct {A : Type} [LinearOrder A] {l m : List A} (hl : l.Pairwise (· < ·))
    (hmem : ∀ a, a ∈ l ↔ a ∈ m) : l = sortedDistinct m := by
  have hperm : l.Perm (sortedDistinct m) := by
    have hnodup : (sortedDistinct m).Nodup := (sortedDistinct_sorted m).imp fun h => h.ne
    refine (List.perm_ext_iff_of_nodup (hl.imp fun h => h.ne) hnodup).2 fun a => ?_
    rw [hmem, mem_sortedDistinct]
  exact hperm.eq_of_pairwise (fun _ _ _ _ => le_antisymm) (hl.imp fun h => h.le)
    ((sortedDistinct_sorted m).imp fun h => h.le)

/-- Of elements with different keys, the first of a key is the one. -/
theorem find?_key_eq_some {K E : Type} [DecidableEq K] {key : E → K} {l : List E} (h : (l.map key).Nodup) {k : K}
    {e : E} : (l.find? fun x => key x = k) = some e ↔ e ∈ l ∧ key e = k := by
  constructor
  · intro hf
    exact ⟨List.mem_of_find?_eq_some hf, by simpa using List.find?_some hf⟩
  · rintro ⟨he, rfl⟩
    cases hf : l.find? fun x => key x = key e with
    | none => simpa using List.find?_eq_none.1 hf e he
    | some e' =>
      have hkey : key e' = key e := by simpa using List.find?_some hf
      rw [List.inj_on_of_nodup_map h (List.mem_of_find?_eq_some hf) he hkey]

/-- Two elements of one key, inserted one after the other, end up side by side. -/
theorem orderedInsert_ties {K E : Type} [LinearOrder K] (key : E → K) {a b : E} (hab : key a = key b) (l : List E) :
    ∃ p q, (l.orderedInsert (key · ≤ key ·) b).orderedInsert (key · ≤ key ·) a = p ++ a :: b :: q ∧
      (l.orderedInsert (key · ≤ key ·) a).orderedInsert (key · ≤ key ·) b = p ++ b :: a :: q := by
  induction l with
  | nil => exact ⟨[], [], by simp [hab], by simp [hab]⟩
  | cons x l ih =>
    by_cases hx : key a ≤ key x
    · exact ⟨[], x :: l, by simp [hab, hab ▸ hx], by simp [hab, hab ▸ hx]⟩
    · have hx' : ¬ key b ≤ key x := hab ▸ hx
      obtain ⟨p, q, h1, h2⟩ := ih
      exact ⟨x :: p, q, by simp [hx, hx', h1], by simp [hx, hx', h2]⟩

/-- Sorting forgets the order of a list, as far as `g` shows it, iff `g` agrees on elements of one key. -/
theorem sortByKey_perm_iff {K E F : Type} [LinearOrder K] (key : E → K) (g : E → F) (l : List E) :
    (∀ m : List E, m.Perm l → (m.insertionSort (key · ≤ key ·)).map g = (l.insertionSort (key · ≤ key ·)).map g) ↔
      ∀ a ∈ l, ∀ b ∈ l, key a = key b → g a = g b := by
  constructor
  · intro h a ha b hb hab
    by_contra hne
    obtain ⟨s, t, rfl⟩ := List.append_of_mem ha
    have hb' : b ∈ s ++ t := by
      have hba : b ≠ a := fun heq => hne (heq ▸ rfl)
      simpa [hba] using hb
    obtain ⟨u, v, huv⟩ := List.append_of_mem hb'
    have hperm : (s ++ a :: t).Perm (a :: b :: (u ++ v)) := by
      refine List.perm_middle.trans (List.Perm.cons a ?_)
      rw [huv]
      exact List.perm_middle
    obtain ⟨p, q, h1, h2⟩ := orderedInsert_ties key hab ((u ++ v).insertionSort (key · ≤ key ·))
    have heq := (h _ hperm.symm).trans (h _ ((List.Perm.swap a b _).trans hperm.symm)).symm
    rw [List.insertionSort_cons, List.insertionSort_cons, List.insertionSort_cons, List.insertionSort_cons, h1, h2,
      List.map_append, List.map_append, List.append_cancel_left_eq, List.map_cons, List.map_cons] at heq
    exact hne (List.cons.inj heq).1
  · intro h m hm
    have hpairs : (m.insertionSort (key · ≤ key ·)).map (fun e => (key e, g e)) =
        (l.insertionSort (key · ≤ key ·)).map (fun e => (key e, g e)) := by
      refine eq_of_sortedByKey Prod.fst ?_ (List.pairwise_map.2 (sortByKey_pairwise key m))
        (List.pairwise_map.2 (sortByKey_pairwise key l)) (List.Perm.map _ ?_)
      · simp only [List.mem_map, List.mem_insertionSort]
        rintro _ ⟨a, ha, rfl⟩ _ ⟨b, hb, rfl⟩ hab
        exact Prod.ext hab (h a (hm.mem_iff.1 ha) b hb hab)
      · exact (List.perm_insertionSort _ m).trans (hm.trans (List.perm_insertionSort _ l).symm)
    have := congrArg (List.map Prod.snd) hpairs
    rwa [List.map_map, List.map_map] at this
