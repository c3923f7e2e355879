import Mathlib

/-!
# Runs of a labelled transition relation

`Run step s as t`: the actions `as`, in order, take `s` to `t`. An invariant of the relation holds
at the end of every run, so (each prefix of a run being a run) in every state the run passes
through. `guarded` restricts a relation to the steps that meet a condition on the state they start
from; its runs are the runs all of whose steps meet it. `exec` computes a run when the steps are
given by a function, and `bind_ok` takes apart a step that is made of fallible ones.
-/

namespace Machine
variable {S A : Type*}

inductive Run (step : S → A → S → Prop) : S → List A → S → Prop
  | nil (s : S) : Run step s [] s
  | cons {s t u : S} {a : A} {as : List A} :
      step s a t → Run step t as u → Run step s (a :: as) u

theorem Run.invariant {step : S → A → S → Prop} {I : S → Prop}
    (hstep : ∀ s a t, I s → step s a t → I t) {s t : S} {as : List A}
    (h : Run step s as t) (hs : I s) : I t := by
  induction h with
  | nil => exact hs
  | cons h1 _ ih => exact ih (hstep _ _ _ hs h1)

/-- A run ends with its last step. -/
theorem Run.of_concat {step : S → A → S → Prop} {s t : S} {as : List A} {a : A} (h : Run step s (as ++ [a]) t) :
    ∃ u, Run step s as u ∧ step u a t := by
  induction as generalizing s with
  | nil =>
    cases h with
    | cons hstep hrest =>
      cases hrest
      exact ⟨s, .nil s, hstep⟩
  | cons b as ih =>
    cases h with
    | cons hstep hrest =>
      obtain ⟨u, hrun, hlast⟩ := ih hrest
      exact ⟨u, .cons hstep hrun, hlast⟩

/-- The steps that start where `ok` holds. -/
def guarded (ok : S → A → Prop) (step : S → A → S → Prop) (s : S) (a : A) (t : S) : Prop :=
  ok s a ∧ step s a t

/-- Actions that are fine wherever they are taken. -/
theorem Run.guard {ok : S → A → Prop} {step : S → A → S → Prop} {s t : S} {as : List A}
    (h : Run step s as t) (hok : ∀ a ∈ as, ∀ u, ok u a) : Run (guarded ok step) s as t := by
  induction h with
  | nil => exact .nil _
  | cons h1 _ ih =>
    exact .cons ⟨hok _ (List.mem_cons_self ..) _, h1⟩ (ih fun a ha => hok a (List.mem_cons_of_mem _ ha))

/-- Run a step function along a list of actions; `none` when some step is not enabled. -/
def exec (f : S → A → Option S) : S → List A → Option S
  | s, [] => some s
  | s, a :: as => (f s a).bind fun t => exec f t as

theorem run_of_exec {step : S → A → S → Prop} {f : S → A → Option S}
    (hf : ∀ s a t, f s a = some t → step s a t) {s t : S} {as : List A}
    (h : exec f s as = some t) : Run step s as t := by
  induction as generalizing s with
  | nil => cases h; exact .nil _
  | cons a as ih =>
    obtain ⟨u, hu, hrest⟩ := Option.bind_eq_some_iff.1 h
    exact .cons (hf s a u hu) (ih hrest)

/-- Run it while each step meets the condition. -/
theorem run_of_exec_guarded {ok : S → A → Prop} [∀ s a, Decidable (ok s a)] {f : S → A → Option S} {s t : S}
    {as : List A} (h : exec (fun s a => if ok s a then f s a else none) s as = some t) :
    Run (guarded ok fun s a t => f s a = some t) s as t := by
  refine run_of_exec (fun u a v hstep => ?_) h
  by_cases hok : ok u a
  · rw [if_pos hok] at hstep
    exact ⟨hok, hstep⟩
  · rw [if_neg hok] at hstep
    cases hstep

/-- A total step function runs along any list of actions. -/
theorem run_foldl (f : S → A → S) (s : S) (as : List A) :
    Run (fun s a t => f s a = t) s as (as.foldl f s) := by
  induction as generalizing s with
  | nil => exact .nil s
  | cons a as ih => exact .cons rfl (ih (f s a))

/-- The condition is met at each step. -/
def Along (ok : S → A → Prop) (f : S → A → S) : S → List A → Prop
  | _, [] => True
  | s, a :: as => ok s a ∧ Along ok f (f s a) as

theorem run_foldl_guarded {ok : S → A → Prop} {f : S → A → S} {s : S} {as : List A} (h : Along ok f s as) :
    Run (guarded ok fun s a t => f s a = t) s as (as.foldl f s) := by
  induction as generalizing s with
  | nil => exact .nil s
  | cons a as ih => exact .cons ⟨h.1, rfl⟩ (ih h.2)

/-- A sequence of two computations that may fail succeeds when both do. -/
theorem bind_ok {ε α β : Type} {x : Except ε α} {f : α → Except ε β} {b : β} :
    (x >>= f) = .ok b ↔ ∃ a, x = .ok a ∧ f a = .ok b := by
  cases x with
  | ok a => simp [bind, Except.bind]
  | error e => simp [bind, Except.bind]

/-- A list of computations that all succeed. -/
theorem mapM_eq_some {α β : Type} {f : α → Option β} {g : α → β} {as : List α} (h : ∀ a ∈ as, f a = some (g a)) :
    as.mapM f = some (as.map g) := by
  induction as with
  | nil => rfl
  | cons a as ih =>
    rw [List.mapM_cons, h a (List.mem_cons_self ..), ih fun a ha => h a (List.mem_cons_of_mem _ ha)]
    rfl

theorem mem_of_mapM {α β : Type} {f : α → Option β} {as : List α} {bs : List β} (h : as.mapM f = some bs) {a : α}
    (ha : a ∈ as) : ∃ b ∈ bs, f a = some b := by
  induction as generalizing bs with
  | nil => cases ha
  | cons a' as ih =>
    rw [List.mapM_cons] at h
    obtain ⟨b, hb, hrest⟩ := Option.bind_eq_some_iff.1 h
    obtain ⟨bs', hbs', heq⟩ := Option.bind_eq_some_iff.1 hrest
    obtain rfl : b :: bs' = bs := Option.some.inj heq
    rcases List.mem_cons.1 ha with rfl | ha
    · exact ⟨b, by simp, hb⟩
    · obtain ⟨b', hmem, hb'⟩ := ih hbs' ha
      exact ⟨b', by simp [hmem], hb'⟩

end Machine
