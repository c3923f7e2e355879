import Mathlib

/-!
# Loops with fuel

A loop takes turns until one is done, and gives up when its fuel is spent. `loop_rule` is its one rule: a turn that
is not the last keeps the invariant, makes the state smaller, and carries what holds of the rest of the loop back to
where it began. A loop whose every turn goes on never ends (`loop_diverges`).
-/

namespace Loop
variable {S A E : Type*}

inductive Turn (S A : Type*) where
  | next (s : S)
  | done (a : A)

def loop (diverged : E) (step : S → Except E (Turn S A)) : Nat → S → Except E A
  | 0, _ => .error diverged
  | fuel + 1, s =>
    match step s with
    | .error e => .error e
    | .ok (.done a) => .ok a
    | .ok (.next s') => loop diverged step fuel s'

/-- What a turn from `s` has to come to. -/
def Fine (I : S → Prop) (size : S → Nat) (R : S → Except E A → Prop) (s : S) : Except E (Turn S A) → Prop
  | .error e => R s (.error e)
  | .ok (.done a) => R s (.ok a)
  | .ok (.next s') => I s' ∧ size s' < size s ∧ ∀ r, R s' r → R s r

variable {diverged : E} {step : S → Except E (Turn S A)} {I : S → Prop} {fuel : Nat} {s : S}

theorem loop_rule {R : S → Except E A → Prop} (size : S → Nat) (h : ∀ s, I s → Fine I size R s (step s))
    (hs : I s) (hfuel : size s < fuel) : R s (loop diverged step fuel s) := by
  induction fuel generalizing s with
  | zero => exact absurd hfuel (Nat.not_lt_zero _)
  | succ fuel ih =>
    have hfine := h s hs
    rw [loop]
    cases hstep : step s with
    | error e =>
      rw [hstep] at hfine
      exact hfine
    | ok turn =>
      rw [hstep] at hfine
      cases turn with
      | done a => exact hfine
      | next s' =>
        obtain ⟨hinv, hsize, hback⟩ := hfine
        exact hback _ (ih hinv (by omega))

theorem loop_diverges (h : ∀ s, I s → ∃ s', step s = .ok (.next s') ∧ I s') (hs : I s) :
    loop diverged step fuel s = .error diverged := by
  induction fuel generalizing s with
  | zero => rfl
  | succ fuel ih =>
    obtain ⟨s', hstep, hs'⟩ := h s hs
    rw [loop, hstep]
    exact ih hs'

end Loop
