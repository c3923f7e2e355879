import Mathlib

/-!
# Stacks of savepoints

A savepoint has an index. Opening one retires those at its index or inside it (`put`), releasing one retires it and
what is inside it (`release`), and rolling back to one retires only what is inside it (`rewind`). `Nested` says that
indexes increase inward and that a relation holds from outer to inner ones.
-/

namespace Savepoints
variable {M N : Type} (index : M → Nat)

def put (m : M) (ms : List M) : List M := (ms.filter fun x => index x < index m) ++ [m]

def release (s : Nat) (ms : List M) : List M := ms.filter fun x => index x < s

def rewind (s : Nat) (ms : List M) : List M := ms.filter fun x => index x ≤ s

/-- The innermost one at this index. -/
def find (s : Nat) (ms : List M) : Option M := (ms.filter fun x => index x = s).getLast?

def Nested (R : M → M → Prop) (ms : List M) : Prop := ms.Pairwise fun a b => index a < index b ∧ R a b

/-- From the outermost savepoint on there is one at every index below `depth`, and none above. -/
structure Contiguous (depth : Nat) (ms : List M) : Prop where
  below : ∀ m ∈ ms, index m < depth
  none_missing : ∀ m ∈ ms, ∀ i, index m ≤ i → i < depth → ∃ x ∈ ms, index x = i

variable {index} {R : M → M → Prop} {ms : List M} {s depth : Nat}

theorem mem_put {m x : M} : x ∈ put index m ms ↔ (x ∈ ms ∧ index x < index m) ∨ x = m := by
  simp [put]

theorem mem_release {x : M} : x ∈ release index s ms ↔ x ∈ ms ∧ index x < s := by
  simp [release]

theorem mem_rewind {x : M} : x ∈ rewind index s ms ↔ x ∈ ms ∧ index x ≤ s := by
  simp [rewind]

theorem find_spec {m : M} (h : find index s ms = some m) : m ∈ ms ∧ index m = s := by
  have hmem := List.mem_of_getLast? h
  simpa using hmem

theorem find_none (h : find index s ms = none) : ∀ m ∈ ms, index m ≠ s := by
  rw [find, List.getLast?_eq_none_iff, List.filter_eq_nil_iff] at h
  simpa using h

theorem Nested.put (h : Nested index R ms) {m : M} (hm : ∀ x ∈ ms, R x m) : Nested index R (put index m ms) := by
  refine List.pairwise_append.2 ⟨h.sublist List.filter_sublist, List.pairwise_singleton _ _, fun x hx y hy => ?_⟩
  obtain rfl := List.mem_singleton.1 hy
  obtain ⟨hx, hlt⟩ := List.mem_filter.1 hx
  exact ⟨of_decide_eq_true hlt, hm x hx⟩

theorem Nested.release (h : Nested index R ms) : Nested index R (release index s ms) := h.sublist List.filter_sublist

theorem Nested.rewind (h : Nested index R ms) : Nested index R (rewind index s ms) := h.sublist List.filter_sublist

/-- What is not inside a savepoint is that savepoint or outside it. -/
theorem Nested.outer (h : Nested index R ms) {m x : M} (hm : m ∈ ms) (hx : x ∈ ms) (hle : index x ≤ index m) :
    x = m ∨ R x m := by
  induction ms with
  | nil => cases hm
  | cons a ms ih =>
    obtain ⟨ha, hms⟩ := List.pairwise_cons.1 h
    rcases List.mem_cons.1 hm with rfl | hm'
    · rcases List.mem_cons.1 hx with rfl | hx'
      · exact .inl rfl
      · exact absurd (ha x hx').1 (not_lt.2 hle)
    · rcases List.mem_cons.1 hx with rfl | hx'
      · exact .inr (ha m hm').2
      · exact ih hms hm' hx'

theorem Contiguous.nil : Contiguous index depth [] := ⟨by simp, by simp⟩

theorem Contiguous.put (h : Contiguous index depth ms) {m : M} (hm : index m ≤ depth) :
    Contiguous index (index m + 1) (put index m ms) := by
  refine ⟨fun x hx => ?_, fun x hx i hxi hi => ?_⟩
  · rcases mem_put.1 hx with ⟨-, hlt⟩ | rfl
    · omega
    · omega
  · by_cases him : i = index m
    · exact ⟨m, mem_put.2 (.inr rfl), him.symm⟩
    · rcases mem_put.1 hx with ⟨hx, -⟩ | rfl
      · obtain ⟨y, hy, rfl⟩ := h.none_missing x hx i hxi (by omega)
        exact ⟨y, mem_put.2 (.inl ⟨hy, by omega⟩), rfl⟩
      · omega

theorem Contiguous.release (h : Contiguous index depth ms) (hs : s < depth) :
    Contiguous index s (release index s ms) := by
  refine ⟨fun x hx => (mem_release.1 hx).2, fun x hx i hxi hi => ?_⟩
  obtain ⟨y, hy, rfl⟩ := h.none_missing x (mem_release.1 hx).1 i hxi (by omega)
  exact ⟨y, mem_release.2 ⟨hy, hi⟩, rfl⟩

theorem Contiguous.rewind (h : Contiguous index depth ms) (hs : s < depth) :
    Contiguous index (s + 1) (rewind index s ms) := by
  refine ⟨fun x hx => Nat.lt_succ_of_le (mem_rewind.1 hx).2, fun x hx i hxi hi => ?_⟩
  obtain ⟨y, hy, rfl⟩ := h.none_missing x (mem_rewind.1 hx).1 i hxi (by omega)
  exact ⟨y, mem_rewind.2 ⟨hy, by omega⟩, rfl⟩

/-- An index without a savepoint lies outside all of them. -/
theorem Contiguous.rewind_eq_nil (h : Contiguous index depth ms) (hs : s < depth) (hfind : find index s ms = none) :
    Savepoints.rewind index s ms = [] := by
  refine List.eq_nil_iff_forall_not_mem.2 fun x hx => ?_
  obtain ⟨hx, hle⟩ := mem_rewind.1 hx
  obtain ⟨y, hy, hys⟩ := h.none_missing x hx s hle hs
  exact find_none hfind y hy hys

/-! ## Seen through a projection -/

theorem put_map (f : N → M) (m : N) (ns : List N) :
    put index (f m) (ns.map f) = (put (fun n => index (f n)) m ns).map f := by
  simp [put, List.filter_map, Function.comp_def]

theorem release_map (f : N → M) (s : Nat) (ns : List N) :
    release index s (ns.map f) = (release (fun n => index (f n)) s ns).map f := by
  simp [release, List.filter_map, Function.comp_def]

theorem rewind_map (f : N → M) (s : Nat) (ns : List N) :
    rewind index s (ns.map f) = (rewind (fun n => index (f n)) s ns).map f := by
  simp [rewind, List.filter_map, Function.comp_def]

theorem find_map (f : N → M) (s : Nat) (ns : List N) :
    find index s (ns.map f) = (find (fun n => index (f n)) s ns).map f := by
  simp [find, List.filter_map, Function.comp_def]

end Savepoints
