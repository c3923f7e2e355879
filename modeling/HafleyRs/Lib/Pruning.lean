import Mathlib

/-!
# Pruning

Elements of a set stand as long as enough of the others do. `prune` takes those away that do not, which may let others
fall. Where what stands in a set stands in every larger one, the subsets in which all stand are the same before and
after (`prunable_prune`), so pruning until all stand leaves the greatest of them (`isGreatest_of_stable`).
-/

namespace Pruning
variable {α : Type*} {stands : Set α → α → Prop}

def Stable (stands : Set α → α → Prop) (s : Set α) : Prop := ∀ a ∈ s, stands s a

/-- The subsets in which all stand. -/
def prunable (stands : Set α → α → Prop) (s : Set α) : Set (Set α) := {t | t ⊆ s ∧ Stable stands t}

def prune (stands : Set α → α → Prop) (s : Set α) : Set α := {a ∈ s | stands s a}

theorem prunable_prune (hmono : ∀ s t a, s ⊆ t → stands s a → stands t a) (s : Set α) :
    prunable stands (prune stands s) = prunable stands s := by
  ext t
  constructor
  · intro ⟨hsub, hstable⟩
    exact ⟨fun a ha => (hsub ha).1, hstable⟩
  · intro ⟨hsub, hstable⟩
    exact ⟨fun a ha => ⟨hsub ha, hmono t s a hsub (hstable a ha)⟩, hstable⟩

theorem isGreatest_of_stable {s : Set α} (h : Stable stands s) : IsGreatest (prunable stands s) s :=
  ⟨⟨Set.Subset.refl s, h⟩, fun _ ht => ht.1⟩

end Pruning
