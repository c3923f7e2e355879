import Mathlib

/-!
# The history of a graph without cycles

Every node has parents of smaller rank. `history` is a node with all that its parents lead to (`history_eq`). It holds
the histories of its members (`history_trans`), and no two nodes are in each other's (`history_antisymm`). `since` is
what one history has over another, which is empty only where the other holds the node (`since_eq_empty`).
-/

structure Dag (N : Type) where
  parents : N → List N
  rank    : N → Nat
  falls   : ∀ n, ∀ p ∈ parents n, rank p < rank n

namespace Dag
variable {N : Type} [DecidableEq N] (g : Dag N)

def reach (g : Dag N) : Nat → N → Finset N
  | 0,     n => {n}
  | k + 1, n => insert n ((g.parents n).toFinset.biUnion (reach g k))

def history (n : N) : Finset N := g.reach (g.rank n) n

/-- What `new` adds to `old`. -/
def since (old new : N) : Finset N := g.history new \ g.history old

variable {g} {a b c n : N}

theorem reach_leaf {k : Nat} (h : g.rank n = 0) : g.reach k n = {n} := by
  have hnone : g.parents n = [] := by
    refine List.eq_nil_iff_forall_not_mem.2 fun p hp => ?_
    have hfalls := g.falls n p hp
    omega
  cases k with
  | zero => rfl
  | succ k => simp [reach, hnone]

theorem reach_stable {k k' : Nat} (h : g.rank n ≤ k) (h' : g.rank n ≤ k') : g.reach k n = g.reach k' n := by
  induction k generalizing k' n with
  | zero => rw [reach_leaf (Nat.le_zero.1 h), reach_leaf (Nat.le_zero.1 h)]
  | succ k ih =>
    cases k' with
    | zero => rw [reach_leaf (Nat.le_zero.1 h'), reach_leaf (Nat.le_zero.1 h')]
    | succ k' =>
      rw [reach, reach]
      refine congrArg _ (Finset.biUnion_congr rfl fun p hp => ?_)
      have hfalls := g.falls n p (List.mem_toFinset.1 hp)
      exact ih (by omega) (by omega)

theorem history_eq : g.history n = insert n ((g.parents n).toFinset.biUnion g.history) := by
  have hreach : g.history n = g.reach (g.rank n + 1) n := reach_stable le_rfl (Nat.le_succ _)
  rw [hreach, reach]
  refine congrArg _ (Finset.biUnion_congr rfl fun p hp => ?_)
  have hfalls := g.falls n p (List.mem_toFinset.1 hp)
  exact reach_stable hfalls.le le_rfl

theorem mem_history : a ∈ g.history n ↔ a = n ∨ ∃ p ∈ g.parents n, a ∈ g.history p := by
  rw [history_eq]
  simp

@[simp] theorem self_mem_history : n ∈ g.history n := mem_history.2 (Or.inl rfl)

omit [DecidableEq N] in
/-- An induction from the parents to the node. -/
theorem parents_induction {P : N → Prop} (h : ∀ n, (∀ p ∈ g.parents n, P p) → P n) (n : N) : P n := by
  induction hrank : g.rank n using Nat.strong_induction_on generalizing n with
  | _ k ih =>
    subst hrank
    exact h n fun p hp => ih _ (g.falls n p hp) p rfl

theorem history_trans (hab : a ∈ g.history b) (hbc : b ∈ g.history c) : a ∈ g.history c := by
  induction c using g.parents_induction with
  | _ c ih =>
    rcases mem_history.1 hbc with rfl | ⟨p, hp, hbp⟩
    · exact hab
    · exact mem_history.2 (Or.inr ⟨p, hp, ih p hp hbp⟩)

theorem rank_lt_of_mem_history (h : a ∈ g.history n) (hne : a ≠ n) : g.rank a < g.rank n := by
  induction n using g.parents_induction with
  | _ n ih =>
    rcases mem_history.1 h with rfl | ⟨p, hp, hap⟩
    · exact absurd rfl hne
    · have hfalls := g.falls n p hp
      by_cases heq : a = p
      · rwa [heq]
      · exact (ih p hp hap heq).trans hfalls

theorem history_antisymm (hab : a ∈ g.history b) (hba : b ∈ g.history a) : a = b := by
  by_contra hne
  exact lt_asymm (rank_lt_of_mem_history hab hne) (rank_lt_of_mem_history hba (Ne.symm hne))

theorem since_eq_empty : g.since a b = ∅ ↔ b ∈ g.history a := by
  rw [since, Finset.sdiff_eq_empty_iff_subset]
  exact ⟨fun h => h self_mem_history, fun h x hx => history_trans hx h⟩

/-- A proper descendant adds something. -/
theorem since_pos (hab : a ∈ g.history b) (hne : a ≠ b) : 0 < (g.since a b).card := by
  rw [Finset.card_pos, Finset.nonempty_iff_ne_empty, Ne, since_eq_empty]
  exact fun hba => hne (history_antisymm hab hba)

end Dag
