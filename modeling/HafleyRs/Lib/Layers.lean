import Mathlib

/-!
# Layers of a dependency

A layering puts a node one above the highest of those it depends on, and the others at zero, where `up` counts no
further than `cap`. Up to that a depth is the length of the longest chain of dependencies (`IsLayering.length_le`,
`IsLayering.exists_chain`).
-/

namespace Layers

def up (cap n : Nat) : Nat := min (n + 1) cap

theorem up_le (cap n : Nat) : up cap n ≤ cap := min_le_right _ _

theorem le_up {cap n : Nat} (h : n ≤ cap) : n ≤ up cap n := le_min n.le_succ h

theorem up_of_lt {cap n : Nat} (h : n < cap) : up cap n = n + 1 := min_eq_left h

variable {ι : Type*} {dep : ι → ι → Prop} {cap : Nat} {depth : ι → Nat}

structure IsLayering (dep : ι → ι → Prop) (cap : Nat) (depth : ι → Nat) : Prop where
  reached : ∀ i, depth i = 0 ∨ ∃ j, dep i j ∧ depth i = up cap (depth j)
  above   : ∀ i j, dep i j → up cap (depth j) ≤ depth i

namespace IsLayering
variable (h : IsLayering dep cap depth)
include h

theorem le_cap (i : ι) : depth i ≤ cap := by
  rcases h.reached i with hzero | ⟨j, -, heq⟩
  · rw [hzero]
    exact Nat.zero_le cap
  · rw [heq]
    exact up_le cap _

/-- No chain is longer than the depth, up to the cap. -/
theorem length_le (l : List ι) (i : ι) (hchain : List.IsChain dep (i :: l)) : min l.length cap ≤ depth i := by
  induction l generalizing i with
  | nil => exact (min_le_left _ _).trans (Nat.zero_le _)
  | cons j l ih =>
    obtain ⟨hij, hrest⟩ := List.isChain_cons_cons.1 hchain
    have hup := h.above i j hij
    have hj := ih j hrest
    rw [List.length_cons]
    rw [up] at hup
    omega

/-- A chain has the depth for its length. -/
theorem exists_chain (hwf : WellFounded (flip dep)) (i : ι) :
    ∃ l, List.IsChain dep (i :: l) ∧ l.length = depth i := by
  induction i using hwf.induction with
  | _ i ih =>
    rcases h.reached i with hzero | ⟨j, hij, heq⟩
    · exact ⟨[], List.isChain_singleton i, hzero.symm⟩
    · obtain ⟨l, hchain, hlen⟩ := ih j hij
      have hlong : List.IsChain dep (i :: j :: l) := List.isChain_cons_cons.2 ⟨hij, hchain⟩
      refine ⟨(j :: l).take (depth i), hlong.take (depth i + 1), ?_⟩
      rw [List.length_take, List.length_cons, hlen, heq, up]
      omega

end IsLayering

end Layers
