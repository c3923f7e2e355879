import Mathlib

/-!
# Search with a work list

Take a node off the list, mark its unmarked successors and put them on the list; stop when the list is empty.
What is marked then is what can be reached from the start (`search_eq`), and as many turns as there are nodes,
and one more, are enough.
-/

namespace Worklist
variable {V : Type} [DecidableEq V]

/-- Mark a successor and put it on the list, unless it is marked. -/
def push (s : List V × Finset V) (v : V) : List V × Finset V :=
  if v ∈ s.2 then s else (v :: s.1, insert v s.2)

/-- `none` when `fuel` turns are not enough. -/
def search (succ : V → List V) : Nat → List V × Finset V → Option (Finset V)
  | 0, _ => none
  | _ + 1, ([], marked) => some marked
  | fuel + 1, (v :: work, marked) => search succ fuel ((succ v).foldl push (work, marked))

/-- From `root` along the successors. -/
abbrev Reaches (succ : V → List V) : V → V → Prop := Relation.ReflTransGen fun a b => b ∈ succ a

/-! ## One turn -/

theorem foldl_push_subset (vs : List V) (s : List V × Finset V) : s.2 ⊆ (vs.foldl push s).2 := by
  induction vs generalizing s with
  | nil => exact Finset.Subset.refl _
  | cons v vs ih =>
    refine Finset.Subset.trans ?_ (ih _)
    unfold push
    split
    · exact Finset.Subset.refl _
    · exact Finset.subset_insert _ _

theorem mem_foldl_push {vs : List V} {s : List V × Finset V} {a : V} :
    a ∈ (vs.foldl push s).2 ↔ a ∈ s.2 ∨ a ∈ vs := by
  induction vs generalizing s with
  | nil => simp
  | cons v vs ih =>
    rw [List.foldl_cons, ih, List.mem_cons]
    unfold push
    split
    · rename_i h
      constructor
      · rintro (h | h)
        · exact .inl h
        · exact .inr (.inr h)
      · rintro (h | rfl | h)
        · exact .inl h
        · exact .inl ‹_›
        · exact .inr h
    · rw [Finset.mem_insert]
      tauto

/-- What a turn newly marks is on the list afterwards, and the rest of the list stays. -/
theorem mem_work {vs : List V} {s : List V × Finset V} {a : V} :
    a ∈ (vs.foldl push s).1 ↔ a ∈ s.1 ∨ (a ∈ vs ∧ a ∉ s.2) := by
  induction vs generalizing s with
  | nil => simp
  | cons v vs ih =>
    rw [List.foldl_cons, ih, List.mem_cons]
    unfold push
    split
    · rename_i h
      constructor
      · rintro (h | ⟨h, hn⟩)
        · exact .inl h
        · exact .inr ⟨.inr h, hn⟩
      · rintro (h | ⟨rfl | h, hn⟩)
        · exact .inl h
        · exact absurd ‹_› hn
        · exact .inr ⟨h, hn⟩
    · rename_i h
      simp only [List.mem_cons, Finset.mem_insert]
      by_cases hav : a = v
      · subst hav
        tauto
      · tauto

/-- A turn puts on the list as many nodes as it marks. -/
theorem foldl_push_length (vs : List V) (s : List V × Finset V) :
    (vs.foldl push s).1.length + s.2.card = s.1.length + (vs.foldl push s).2.card := by
  induction vs generalizing s with
  | nil => simp
  | cons v vs ih =>
    have h := ih (push s v)
    rw [List.foldl_cons]
    have hpush : (push s v).1.length + s.2.card = s.1.length + (push s v).2.card := by
      unfold push
      split
      · omega
      · rename_i hv
        rw [Finset.card_insert_of_notMem hv, List.length_cons]
        omega
    omega

/-! ## The whole search -/

/-- Only reachable nodes are marked, and what is marked and off the list is done. -/
structure Inv (succ : V → List V) (root : V) (s : List V × Finset V) : Prop where
  root_mem : root ∈ s.2
  sound : ∀ a ∈ s.2, Reaches succ root a
  work : ∀ a ∈ s.1, a ∈ s.2
  done : ∀ a ∈ s.2, a ∉ s.1 → ∀ b ∈ succ a, b ∈ s.2

theorem Inv.turn {succ : V → List V} {root v : V} {work : List V} {marked : Finset V}
    (h : Inv succ root (v :: work, marked)) : Inv succ root ((succ v).foldl push (work, marked)) where
  root_mem := foldl_push_subset _ _ h.root_mem
  sound a ha := by
    rcases mem_foldl_push.1 ha with ha | ha
    · exact h.sound a ha
    · exact (h.sound v (h.work v (List.mem_cons_self ..))).tail ha
  work a ha := by
    rcases mem_work.1 ha with ha | ⟨ha, -⟩
    · exact foldl_push_subset _ _ (h.work a (List.mem_cons_of_mem _ ha))
    · exact mem_foldl_push.2 (.inr ha)
  done a ha hn b hb := by
    refine mem_foldl_push.2 ?_
    by_cases hav : a = v
    · exact .inr (hav ▸ hb)
    · have hmarked : a ∈ marked := by
        by_contra hnm
        rcases mem_foldl_push.1 ha with ha | ha
        · exact hnm ha
        · exact hn (mem_work.2 (.inr ⟨ha, hnm⟩))
      have hoff : a ∉ v :: work := by
        rw [List.mem_cons, not_or]
        exact ⟨hav, fun h => hn (mem_work.2 (.inl h))⟩
      exact .inl (h.done a hmarked hoff b hb)

theorem search_of_inv [Fintype V] {succ : V → List V} {root : V} :
    ∀ {fuel : Nat} {s : List V × Finset V}, Inv succ root s → s.1.length + Fintype.card V < fuel + s.2.card →
      ∃ m, search succ fuel s = some m ∧ ∀ a, a ∈ m ↔ Reaches succ root a
  | 0, s, _, hfuel => by
    have := s.2.card_le_univ
    omega
  | fuel + 1, ([], marked), h, _ => by
    refine ⟨marked, rfl, fun a => ⟨h.sound a, fun hr => ?_⟩⟩
    induction hr with
    | refl => exact h.root_mem
    | tail _ hb ih => exact h.done _ ih (by simp) _ hb
  | fuel + 1, (v :: work, marked), h, hfuel => by
    have hlen := foldl_push_length (succ v) (work, marked)
    rw [search]
    refine search_of_inv h.turn ?_
    simp only [List.length_cons] at hfuel hlen
    omega

/-- **The search marks what can be reached.** -/
theorem search_eq [Fintype V] (succ : V → List V) (root : V) {fuel : Nat} (hfuel : Fintype.card V < fuel) :
    ∃ m, search succ fuel ([root], {root}) = some m ∧ ∀ a, a ∈ m ↔ Reaches succ root a := by
  refine search_of_inv ⟨by simp, ?_, by simp, ?_⟩ ?_
  · intro a ha
    rw [Finset.mem_singleton.1 ha]
  · intro a ha hn
    exact absurd (by simpa using ha) hn
  · simp only [List.length_singleton, Finset.card_singleton]
    omega

end Worklist
