import HafleyRs.Lib.BTree

/-!
# Differences of ordered maps

`diff differs before after` walks the keys of two maps in order and reports what was added, removed
or changed, where `differs` says which values count as changed. Applied as a patch it turns any map
into `after` at the keys it reports and leaves the others alone (`patch_get`), so it carries
`before` to `after` up to values that do not differ; it is empty iff there is nothing to report,
and its keys strictly increase.
-/

namespace KeyedDiff
variable {K V : Type} [LinearOrder K]

inductive Delta (K V : Type) where
  | added (key : K) (value : V)
  | removed (key : K) (value : V)
  | changed (key : K) (before after : V)

def Delta.key : Delta K V → K
  | added k _ => k
  | removed k _ => k
  | changed k _ _ => k

def Delta.apply (m : BTreeMap K V) : Delta K V → BTreeMap K V
  | added k v => m.insert k v
  | removed k _ => m.erase k
  | changed k _ w => m.insert k w

/-- The keys of both maps, in order. -/
def keys (before after : BTreeMap K V) : List K :=
  ((before.keys ++ after.keys).insertionSort fun a b => a ≤ b).dedup

variable (differs : V → V → Prop) [DecidableRel differs]

/-- What there is to report at `k`. -/
def report (before after : BTreeMap K V) (k : K) : Option (Delta K V) :=
  match before[k]?, after[k]? with
  | none, some v => some (.added k v)
  | some v, none => some (.removed k v)
  | some v, some w => if differs v w then some (.changed k v w) else none
  | none, none => none

def diff (before after : BTreeMap K V) : List (Delta K V) :=
  (keys before after).filterMap (report differs before after)

section
variable {differs} {before after : BTreeMap K V}

/-! ## The keys -/

theorem mem_keys {k : K} : k ∈ keys before after ↔ k ∈ before ∨ k ∈ after := by
  rw [keys, List.mem_dedup, List.mem_insertionSort, List.mem_append, Std.ExtTreeMap.mem_keys,
    Std.ExtTreeMap.mem_keys]

theorem keys_sorted : (keys before after).Pairwise (· < ·) := by
  have hle : ((before.keys ++ after.keys).insertionSort fun a b => a ≤ b).Pairwise (· ≤ ·) :=
    sortByKey_pairwise id _
  have hsub := hle.sublist (List.dedup_sublist _)
  exact (hsub.and (List.nodup_dedup _)).imp fun h => lt_of_le_of_ne h.1 h.2

theorem report_key {k : K} {d : Delta K V} (h : report differs before after k = some d) :
    d.key = k := by
  unfold report at h
  split at h
  · cases h; rfl
  · cases h; rfl
  · split at h
    · cases h; rfl
    · cases h
  · cases h

theorem mem_keys_of_report {k : K} {d : Delta K V} (h : report differs before after k = some d) :
    k ∈ keys before after := by
  rw [mem_keys, Std.ExtTreeMap.mem_iff_isSome_getElem?, Std.ExtTreeMap.mem_iff_isSome_getElem?]
  unfold report at h
  split at h <;> simp_all

theorem mem_diff {d : Delta K V} :
    d ∈ diff differs before after ↔ report differs before after d.key = some d := by
  rw [diff, List.mem_filterMap]
  constructor
  · rintro ⟨k, -, h⟩
    rwa [report_key h]
  · exact fun h => ⟨d.key, mem_keys_of_report h, h⟩

/-- Each key occurs at most once, in order. -/
theorem diff_sorted : ((diff differs before after).map Delta.key).Pairwise (· < ·) := by
  rw [List.pairwise_map, diff, List.pairwise_filterMap]
  refine keys_sorted.imp fun {a b} hab c hc d hd => ?_
  rwa [report_key hc, report_key hd]

theorem diff_eq_nil : diff differs before after = [] ↔ ∀ k, report differs before after k = none := by
  rw [List.eq_nil_iff_forall_not_mem]
  constructor
  · intro h k
    cases hr : report differs before after k with
    | none => rfl
    | some d =>
      have hk := report_key hr
      exact absurd (mem_diff.2 (by rw [hk]; exact hr)) (h d)
  · intro h d hd
    rw [mem_diff, h] at hd
    cases hd

/-! ## The patch -/

/-- What a delta leaves at its key. -/
def Delta.effect : Delta K V → Option V
  | added _ v => some v
  | removed _ _ => none
  | changed _ _ w => some w

theorem apply_get (m : BTreeMap K V) (d : Delta K V) (k : K) :
    (d.apply m)[k]? = if d.key = k then d.effect else m[k]? := by
  cases d with
  | added a v => exact BTreeMap.getElem?_insert
  | removed a v => exact BTreeMap.getElem?_erase
  | changed a v w => exact BTreeMap.getElem?_insert

theorem effect_of_report {d : Delta K V} {k : K} (h : report differs before after k = some d) :
    d.effect = after[k]? := by
  unfold report at h
  split at h
  · rename_i ha; cases h; exact ha.symm
  · rename_i ha; cases h; exact ha.symm
  · rename_i ha
    split at h
    · cases h; exact ha.symm
    · cases h
  · cases h

/-- Updates that each set one key, all to what `val` has there. -/
theorem foldl_get {D W : Type} (key : D → K) (effect : D → Option W) (val : K → Option W)
    {step : BTreeMap K W → D → BTreeMap K W}
    (hstep : ∀ m d k, (step m d)[k]? = if key d = k then effect d else m[k]?) {ds : List D}
    (hval : ∀ d ∈ ds, effect d = val (key d)) (m : BTreeMap K W) (k : K) :
    (ds.foldl step m)[k]? = if k ∈ ds.map key then val k else m[k]? := by
  induction ds generalizing m with
  | nil => simp
  | cons d ds ih =>
    rw [List.forall_mem_cons] at hval
    rw [List.foldl_cons, ih hval.2, hstep, List.map_cons]
    by_cases hk : k ∈ ds.map key
    · rw [if_pos hk, if_pos (List.mem_cons_of_mem _ hk)]
    · by_cases hd : key d = k
      · rw [if_neg hk, if_pos hd, if_pos (by simp [hd]), hval.1, hd]
      · rw [if_neg hk, if_neg hd, if_neg]
        rw [List.mem_cons, not_or]
        exact ⟨Ne.symm hd, hk⟩

theorem mem_map_key {k : K} : k ∈ (diff differs before after).map Delta.key ↔
    report differs before after k ≠ none := by
  rw [List.mem_map]
  constructor
  · rintro ⟨d, hd, rfl⟩
    rw [mem_diff.1 hd]; simp
  · intro h
    obtain ⟨d, hd⟩ := Option.ne_none_iff_exists'.1 h
    have hk := report_key hd
    exact ⟨d, mem_diff.2 (by rw [hk]; exact hd), hk⟩

/-- **The patch**: where something is reported, what `after` has; elsewhere what was there. -/
theorem patch_get (m : BTreeMap K V) (k : K) :
    ((diff differs before after).foldl Delta.apply m)[k]? =
      if report differs before after k = none then m[k]? else after[k]? := by
  rw [foldl_get Delta.key Delta.effect (after[·]?) apply_get
    (fun d hd => effect_of_report (mem_diff.1 hd)) m k]
  by_cases h : report differs before after k = none
  · rw [if_pos h, if_neg fun hk => mem_map_key.1 hk h]
  · rw [if_neg h, if_pos (mem_map_key.2 h)]

/-- Reading a patch back through another type of delta: it is enough that each delta does the same. -/
theorem foldl_map_apply {D M : Type} {f : Delta K V → D} {step : M → D → M} (get : M → BTreeMap K V)
    (put : M → BTreeMap K V → M) (hput : ∀ m x, get (put m x) = x)
    (hputput : ∀ m x y, put (put m x) y = put m y) (hget : ∀ m, put m (get m) = m)
    {ds : List (Delta K V)} (h : ∀ d ∈ ds, ∀ m, step m (f d) = put m (d.apply (get m))) (m : M) :
    (ds.map f).foldl step m = put m (ds.foldl Delta.apply (get m)) := by
  induction ds generalizing m with
  | nil => simp [hget]
  | cons d ds ih =>
    rw [List.map_cons, List.foldl_cons, List.foldl_cons, ih fun e he => h e (by simp [he]),
      h d (by simp), hput, hputput]

/-- The rows of a delta carry its key. -/
def Delta.Keyed (key : V → K) : Delta K V → Prop
  | added k v => key v = k
  | removed k v => key v = k
  | changed k v w => key v = k ∧ key w = k

theorem keyed_of_mem_diff (key : V → K) (hb : ∀ k v, before[k]? = some v → key v = k)
    (ha : ∀ k v, after[k]? = some v → key v = k) {d : Delta K V}
    (hd : d ∈ diff differs before after) : d.Keyed key := by
  rw [mem_diff] at hd
  unfold report at hd
  split at hd
  · rename_i v _ h
    rw [← Option.some_inj.1 hd]; exact ha _ _ h
  · rename_i v h _
    rw [← Option.some_inj.1 hd]; exact hb _ _ h
  · rename_i v w h h'
    split at hd
    · rw [← Option.some_inj.1 hd]; exact ⟨hb _ _ h, ha _ _ h'⟩
    · cases hd
  · cases hd

/-! ## Values compared by a field -/

section
variable {W : Type} [DecidableEq W] {f : V → W}

/-- When values differ by a field, nothing is reported where the field agrees. -/
theorem report_eq_none {k : K} :
    report (fun v w => f v ≠ f w) before after k = none ↔ before[k]?.map f = after[k]?.map f := by
  unfold report
  split
  · rename_i hb ha; simp [hb, ha]
  · rename_i hb ha; simp [hb, ha]
  · rename_i v w hb ha
    by_cases h : f v = f w <;> simp [hb, ha, h]
  · rename_i hb ha; simp [hb, ha]

theorem diff_field_eq_nil : diff (fun v w => f v ≠ f w) before after = [] ↔
    ∀ k : K, before[k]?.map f = after[k]?.map f := by
  simp only [diff_eq_nil, report_eq_none]

/-- A map that agrees with `before` in the field is patched into one that agrees with `after`. -/
theorem patch_field {m : BTreeMap K V} (hm : ∀ k : K, m[k]?.map f = before[k]?.map f) (k : K) :
    ((diff (fun v w => f v ≠ f w) before after).foldl Delta.apply m)[k]?.map f =
      after[k]?.map f := by
  rw [patch_get]
  split
  · rename_i h
    rw [hm, report_eq_none.1 h]
  · rfl

end
end
end KeyedDiff
