import Mathlib

/-!
# Admission by what was admitted before

A log grows at its end. `Throttled near allow` says that each event, when it came, found fewer than
`allow` earlier events near it. `near` need not be symmetric, and `allow` may differ from event to
event: events that are all near the last of them are then no more than it allows
(`Throttled.length_le`). With `near` the distance in time this bounds every window of a rate limiter
that looks back only when it admits.
-/

namespace Window
variable {E : Type*} (near : E → E → Prop) [DecidableRel near] (allow : E → Nat)

/-- Fewer than `allow e` events of `log` are near `e`. -/
def Room (log : List E) (e : E) : Prop := (log.filter fun a => decide (near a e)).length < allow e

def Throttled (log : List E) : Prop :=
  ∀ before e after, log = before ++ e :: after → Room near allow before e

theorem throttled_nil : Throttled near allow [] := by
  intro before e after h
  simp at h

variable {near allow}

theorem Room.mono {log log' : List E} {e : E} (h : Room near allow log' e) (hsub : log.Sublist log') :
    Room near allow log e := ((hsub.filter _).length_le).trans_lt h

theorem Throttled.concat {log : List E} {e : E} (h : Throttled near allow log) (he : Room near allow log e) :
    Throttled near allow (log ++ [e]) := by
  intro before a after heq
  rcases List.eq_nil_or_concat' after with rfl | ⟨after, last, rfl⟩
  · obtain ⟨rfl, hlast⟩ := List.append_inj' heq rfl
    obtain rfl := List.singleton_injective hlast
    exact he
  · have hsplit : log ++ [e] = (before ++ a :: after) ++ [last] := by
      rw [heq]
      simp
    exact h before a after (List.append_inj' hsplit rfl).1

/-- **Every window**: events of the log that are near the last of them are no more than it allows. -/
theorem Throttled.length_le {log seen : List E} {e : E} (h : Throttled near allow log)
    (hsub : (seen ++ [e]).Sublist log) (hnear : ∀ a ∈ seen, near a e) :
    (seen ++ [e]).length ≤ allow e := by
  obtain ⟨before, rest, rfl, hseen, hlast⟩ := List.append_sublist_iff.1 hsub
  obtain ⟨between, after, rfl⟩ := List.append_of_mem (List.singleton_sublist.1 hlast)
  have hroom : Room near allow (before ++ between) e := h _ e after (by simp)
  have hall : seen.filter (fun a => decide (near a e)) = seen := by
    rw [List.filter_eq_self]
    intro a ha
    exact decide_eq_true (hnear a ha)
  have hlt := hroom.mono (hseen.trans (List.sublist_append_left before between))
  rw [Room, hall] at hlt
  rw [List.length_append, List.length_singleton]
  exact hlt

end Window
