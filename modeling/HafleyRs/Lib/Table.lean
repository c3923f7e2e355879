import Mathlib

/-!
# Tables with a unique key

A `Table key` holds rows in the order of their insertion, no two with one key. `upsert` inserts a row
or, when its key is there, merges it into the row that has it (`INSERT … ON CONFLICT DO UPDATE`);
`update` rewrites rows in place (`UPDATE`), `insert?` and `insertOrIgnore` are the inserts that refuse a key
that is there. A `Merge` is a rule for the conflict that keeps the key.

A table is what its keys, in order, and `get` say (`rows_eq_filterMap`). Over a list of upserts the row of a key
is the merge of that key's rows alone (`get_foldl_upsert`), and the keys stand in the order they were
first seen in, whatever the rule (`keys_foldl_upsert`).
-/

variable {R R' E K : Type}

structure Table (key : R → K) where
  rows   : List R
  unique : (rows.map key).Nodup

/-- What a row becomes when another of its key comes in. -/
structure Merge (key : R → K) where
  run   : R → R → R
  keeps : ∀ old new, key old = key new → key (run old new) = key new

namespace Table
variable {key : R → K} {key' : R' → K}

def empty : Table key := ⟨[], List.nodup_nil⟩

def keys (t : Table key) : List K := t.rows.map key

def update (t : Table key) (f : R → R) (hf : ∀ r, key (f r) = key r) : Table key :=
  ⟨t.rows.map f, by
    rw [List.map_map, show key ∘ f = key from funext hf]
    exact t.unique⟩

/-- A row of a new key, at the end. -/
def push (t : Table key) (r : R) (hr : key r ∉ t.keys) : Table key :=
  ⟨t.rows ++ [r], by
    rw [List.map_append, List.map_singleton, List.nodup_append]
    refine ⟨t.unique, List.nodup_singleton _, fun k hk k' hk' => ?_⟩
    rintro rfl
    rw [List.mem_singleton.1 hk'] at hk
    exact hr hk⟩

@[simp] theorem keys_update (t : Table key) (f : R → R) (hf : ∀ r, key (f r) = key r) :
    (t.update f hf).keys = t.keys := by
  rw [keys, update, List.map_map, show key ∘ f = key from funext hf, keys]

@[simp] theorem keys_push (t : Table key) (r : R) (hr : key r ∉ t.keys) :
    (t.push r hr).keys = t.keys ++ [key r] := by
  simp [keys, push]

variable [DecidableEq K]

def get (t : Table key) (k : K) : Option R := t.rows.find? fun r => decide (key r = k)

def upsert (merge : Merge key) (t : Table key) (new : R) : Table key :=
  if h : key new ∈ t.keys then
    t.update (fun old => if key old = key new then merge.run old new else old) fun old => by
      split
      · rename_i hk; rw [merge.keeps old new hk, hk]
      · rfl
  else t.push new h

/-- `INSERT`: a row of a key that is there is refused. -/
def insert? (t : Table key) (r : R) : Option (Table key) :=
  if h : key r ∈ t.keys then none else some (t.push r h)

/-- `INSERT OR IGNORE`, and whether the row went in. -/
def insertOrIgnore (t : Table key) (r : R) : Table key × Bool :=
  match t.insert? r with
  | some t' => (t', true)
  | none => (t, false)

theorem insert?_of_notMem {t : Table key} {r : R} (h : key r ∉ t.keys) : t.insert? r = some (t.push r h) := dif_neg h

theorem insert?_of_mem {t : Table key} {r : R} (h : key r ∈ t.keys) : t.insert? r = none := dif_pos h

/-- The row is there afterwards, or one of its key was. -/
theorem insertOrIgnore_spec (t : Table key) (r : R) :
    (key r ∉ t.keys ∧ (t.insertOrIgnore r).1.rows = t.rows ++ [r] ∧ (t.insertOrIgnore r).2 = true) ∨
    (key r ∈ t.keys ∧ t.insertOrIgnore r = (t, false)) := by
  by_cases h : key r ∈ t.keys
  · exact .inr ⟨h, by rw [insertOrIgnore, insert?_of_mem h]⟩
  · refine .inl ⟨h, ?_⟩
    rw [insertOrIgnore, insert?_of_notMem h]
    exact ⟨rfl, rfl⟩

/-! ## Reading -/

theorem mem_rows_iff (t : Table key) {r : R} : r ∈ t.rows ↔ t.get (key r) = some r := by
  constructor
  · intro h
    cases hf : t.get (key r) with
    | none => simpa using List.find?_eq_none.1 hf r h
    | some r' =>
      have hk : key r' = key r := by simpa using List.find?_some hf
      rw [List.inj_on_of_nodup_map t.unique (List.mem_of_find?_eq_some hf) h hk]
  · exact fun h => List.mem_of_find?_eq_some h

theorem key_of_get {t : Table key} {k : K} {r : R} (h : t.get k = some r) : key r = k := by
  simpa using List.find?_some h

theorem get_isSome {t : Table key} {k : K} : (t.get k).isSome ↔ k ∈ t.keys := by
  rw [get, List.find?_isSome, keys, List.mem_map]
  simp

@[simp] theorem get_empty (k : K) : (empty : Table key).get k = none := rfl

theorem rows_eq_filterMap (t : Table key) : t.rows = t.keys.filterMap t.get := by
  rw [keys, List.filterMap_map]
  conv_lhs => rw [← List.filterMap_some (l := t.rows)]
  exact List.filterMap_congr fun r hr => (t.mem_rows_iff.1 hr).symm

/-- Rows seen through `f`, which keeps the key, are what `get` finds there. -/
theorem mem_map_rows {F : Type} {f : R → F} {keyF : F → K} (hf : ∀ r, keyF (f r) = key r)
    (t : Table key) {x : F} : x ∈ t.rows.map f ↔ (t.get (keyF x)).map f = some x := by
  rw [List.mem_map, Option.map_eq_some_iff]
  constructor
  · rintro ⟨r, hr, rfl⟩
    exact ⟨r, hf r ▸ t.mem_rows_iff.1 hr, rfl⟩
  · rintro ⟨r, hr, rfl⟩
    exact ⟨r, t.mem_rows_iff.2 (hf r ▸ hr), rfl⟩

/-- Two tables show the same rows iff they read alike through every key. -/
theorem same_rows_iff {F : Type} {f : R → F} {f' : R' → F} (keyF : F → K)
    (hf : ∀ r, keyF (f r) = key r) (hf' : ∀ r, keyF (f' r) = key' r) {t : Table key} {t' : Table key'} :
    (∀ x, x ∈ t.rows.map f ↔ x ∈ t'.rows.map f') ↔ ∀ k, (t.get k).map f = (t'.get k).map f' := by
  constructor
  · intro h k
    refine Option.ext fun x => ?_
    have hkey : ∀ {S : Type} {c : S → K} {g : S → F} (u : Table c) (_ : ∀ r, keyF (g r) = c r),
        (u.get k).map g = some x → keyF x = k := by
      intro S c g u hg hx
      obtain ⟨r, hr, rfl⟩ := Option.map_eq_some_iff.1 hx
      rw [hg, key_of_get hr]
    have hx := h x
    rw [mem_map_rows hf, mem_map_rows hf'] at hx
    constructor
    · intro hk
      have hxk := hkey t hf hk
      rw [hxk] at hx
      exact hx.1 hk
    · intro hk
      have hxk := hkey t' hf' hk
      rw [hxk] at hx
      exact hx.2 hk
  · intro h x
    rw [mem_map_rows hf, mem_map_rows hf', h]

/-! ## Updates and upserts -/

@[simp] theorem get_update (t : Table key) (f : R → R) (hf : ∀ r, key (f r) = key r) (k : K) :
    (t.update f hf).get k = (t.get k).map f := by
  rw [get, update, List.find?_map, get]
  congr 2
  funext r
  simp [hf]

theorem get_push (t : Table key) (r : R) (hr : key r ∉ t.keys) (k : K) :
    (t.push r hr).get k = if key r = k then some r else t.get k := by
  rw [get, push, List.find?_append, ← get]
  by_cases hk : key r = k
  · subst hk
    have hnone : t.get (key r) = none := by
      rw [← Option.not_isSome_iff_eq_none, get_isSome]; exact hr
    simp [hnone]
  · simp [hk]

theorem get_insertOrIgnore (t : Table key) (r : R) (k : K) :
    (t.insertOrIgnore r).1.get k = if key r = k then some ((t.get k).getD r) else t.get k := by
  by_cases h : key r ∈ t.keys
  · rw [insertOrIgnore, insert?_of_mem h]
    by_cases hk : key r = k
    · subst hk
      obtain ⟨old, hold⟩ := Option.isSome_iff_exists.1 (get_isSome.2 h)
      simp [hold]
    · rw [if_neg hk]
  · rw [insertOrIgnore, insert?_of_notMem h]
    simp only
    rw [get_push]
    by_cases hk : key r = k
    · subst hk
      have hnone : t.get (key r) = none := by
        rw [← Option.not_isSome_iff_eq_none, get_isSome]; exact h
      simp [hnone]
    · rw [if_neg hk, if_neg hk]

theorem keys_upsert (merge : Merge key) (t : Table key) (new : R) :
    (t.upsert merge new).keys = if key new ∈ t.keys then t.keys else t.keys ++ [key new] := by
  unfold upsert
  split <;> simp

/-- The row a key has after one more row: merged, inserted, or untouched. -/
theorem get_upsert (merge : Merge key) (t : Table key) (new : R) (k : K) :
    (t.upsert merge new).get k =
      if key new = k then some (((t.get k).map fun old => merge.run old new).getD new)
      else t.get k := by
  unfold upsert
  split
  · rename_i h
    rw [get_update]
    cases hget : t.get k with
    | none =>
      have hne : key new ≠ k := by
        rintro rfl
        rw [← get_isSome, hget] at h
        cases h
      simp [hne]
    | some old =>
      have hk := key_of_get hget
      by_cases hnew : key new = k
      · simp [hk, hnew]
      · simp [hk, hnew, Ne.symm hnew]
  · rename_i h
    rw [get_push]
    by_cases hnew : key new = k
    · subst hnew
      have hnone : t.get (key new) = none := by
        rw [← Option.not_isSome_iff_eq_none, get_isSome]; exact h
      simp [hnone]
    · simp [hnew]

/-- The rows of one key, merged one after another. -/
def merged (run : R → R → R) : List R → Option R
  | [] => none
  | r :: rs => some (rs.foldl run r)

theorem merged_concat (run : R → R → R) (rs : List R) (r : R) :
    merged run (rs ++ [r]) = some (((merged run rs).map fun old => run old r).getD r) := by
  cases rs <;> simp [merged]

theorem get_foldl_upsert (merge : Merge key) (rs : List R) (k : K) :
    (rs.foldl (upsert merge) empty).get k = merged merge.run (rs.filter fun r => decide (key r = k)) := by
  induction rs using List.reverseRecOn with
  | nil => rfl
  | append_singleton rs r ih =>
    rw [List.foldl_append, List.foldl_cons, List.foldl_nil, get_upsert, ih, List.filter_append]
    by_cases hk : key r = k
    · simp [hk, merged_concat]
    · simp [hk]

/-- Rows of different keys are inserted as they come. -/
theorem rows_foldl_upsert (merge : Merge key) {rs : List R} (h : (rs.map key).Nodup) :
    (rs.foldl (upsert merge) empty).rows = rs := by
  induction rs using List.reverseRecOn with
  | nil => rfl
  | append_singleton rs r ih =>
    rw [List.map_append, List.nodup_append] at h
    have hrows := ih h.1
    have hnew : key r ∉ (rs.foldl (upsert merge) empty).keys := by
      rw [keys, hrows]
      exact fun hmem => h.2.2 _ hmem _ (by simp) rfl
    rw [List.foldl_append, List.foldl_cons, List.foldl_nil, upsert, dif_neg hnew]
    exact congrArg (· ++ [r]) hrows

/-- A table is the upserts of its own rows. -/
theorem foldl_upsert_rows (merge : Merge key) (t : Table key) : t.rows.foldl (upsert merge) empty = t := by
  have hrows := rows_foldl_upsert merge t.unique
  cases h : t.rows.foldl (upsert merge) empty
  cases t
  rw [h] at hrows
  cases hrows
  rfl

theorem keys_foldl_upsert (merge : Merge key) (merge' : Merge key') {es : List E} {f : E → R}
    {f' : E → R'} (hkey : ∀ e, key (f e) = key' (f' e)) :
    ((es.map f).foldl (upsert merge) empty).keys = ((es.map f').foldl (upsert merge') empty).keys := by
  induction es using List.reverseRecOn with
  | nil => rfl
  | append_singleton es e ih =>
    simp only [List.map_append, List.map_singleton, List.foldl_append, List.foldl_cons, List.foldl_nil,
      keys_upsert, ih, hkey]

end Table
