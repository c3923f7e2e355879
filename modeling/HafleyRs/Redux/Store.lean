import Mathlib

/-!
# The store (`crates/redux/src/lib.rs`)

A listener is its id here, and `heard` lists what the listeners were called with. Ids do not wrap at `2^64`.
-/

namespace Redux
variable {S A : Type}

structure Store (S A : Type) where
  state   : S
  reducer : S → A → S
  subs    : List Nat
  nextSub : Nat
  heard   : List (Nat × S)

inductive Call (S A : Type) where
  | dispatch (action : A)
  | subscribe
  | unsubscribe (sub : Nat)
  | replaceReducer (reducer : S → A → S)

namespace Store

def new (reducer : S → A → S) (initial : S) : Store S A := ⟨initial, reducer, [], 0, []⟩

def step (s : Store S A) : Call S A → Store S A
  | .dispatch action =>
    let state := s.reducer s.state action
    { s with state, heard := s.heard ++ s.subs.map (·, state) }
  | .subscribe => { s with subs := s.subs ++ [s.nextSub], nextSub := s.nextSub + 1 }
  | .unsubscribe sub => { s with subs := s.subs.filter (· ≠ sub) }
  | .replaceReducer reducer => { s with reducer }

abbrev run (s : Store S A) (calls : List (Call S A)) : Store S A := calls.foldl step s

def hears (s : Store S A) (i : Nat) : List S := s.heard.filterMap fun h => if h.1 = i then some h.2 else none

/-- The new state of each dispatch. -/
def states (s : Store S A) : List (Call S A) → List S
  | [] => []
  | call :: calls => (match call with
    | .dispatch _ => [(s.step call).state]
    | _ => []) ++ states (s.step call) calls

/-- Ids are handed out once. -/
def Fresh (s : Store S A) : Prop := s.subs.Nodup ∧ (∀ i ∈ s.subs, i < s.nextSub) ∧ ∀ h ∈ s.heard, h.1 < s.nextSub

theorem Fresh.step {s : Store S A} (h : s.Fresh) (call : Call S A) : (s.step call).Fresh := by
  obtain ⟨hnodup, hsubs, hheard⟩ := h
  cases call with
  | dispatch action => exact ⟨hnodup, hsubs, by grind [Store.step]⟩
  | subscribe => exact ⟨by grind [Store.step], by grind [Store.step], by grind [Store.step]⟩
  | unsubscribe sub => exact ⟨hnodup.filter _, fun i hi => hsubs i (List.mem_filter.1 hi).1, hheard⟩
  | replaceReducer reducer => exact ⟨hnodup, hsubs, hheard⟩

theorem Fresh.run {s : Store S A} (h : s.Fresh) (calls : List (Call S A)) : (s.run calls).Fresh := by
  induction calls generalizing s with
  | nil => exact h
  | cons call calls ih => exact ih (h.step call)

theorem hears_step {s : Store S A} (h : s.subs.Nodup) (call : Call S A) (i : Nat) :
    (s.step call).hears i = s.hears i ++ if i ∈ s.subs then s.states [call] else [] := by
  cases call with
  | dispatch action =>
    have hone : ∀ (x : S) {l : List Nat}, l.Nodup →
        l.filterMap (fun j => if j = i then some x else none) = if i ∈ l then [x] else [] := by
      intro x l hl
      induction l with
      | nil => rfl
      | cons j l ih => grind
    simp [Store.step, hears, states, List.filterMap_map, hone _ h]
  | _ => simp [Store.step, hears, states]

/-- A listener that stays attached hears each dispatch; a detached one is never called again. -/
theorem hears_run {s : Store S A} (h : s.Fresh) {i : Nat} (hlt : i < s.nextSub) (calls : List (Call S A))
    (hc : i ∈ s.subs → .unsubscribe i ∉ calls) : (i ∈ (s.run calls).subs ↔ i ∈ s.subs) ∧
      (s.run calls).hears i = s.hears i ++ if i ∈ s.subs then s.states calls else [] := by
  induction calls generalizing s with
  | nil => simp [states]
  | cons call calls ih =>
    have hsub : i ∈ (s.step call).subs ↔ i ∈ s.subs := by
      cases call <;> grind [Store.step]
    have hnext : i < (s.step call).nextSub := by
      cases call <;> grind [Store.step]
    obtain ⟨hmem, hheard⟩ := ih (h.step call) hnext (by grind)
    refine ⟨hmem.trans hsub, hheard.trans ?_⟩
    by_cases hi : i ∈ s.subs <;> simp [hears_step h.1, hsub, hi, states]

/-- **A listener hears exactly what is dispatched while it is attached**: from its `subscribe`, whatever came before,
to the first `unsubscribe` of its id, whatever comes after. -/
theorem listener_hears (reducer : S → A → S) (initial : S) (before during after : List (Call S A))
    (hc : .unsubscribe ((new reducer initial).run before).nextSub ∉ during) :
    let s := (new reducer initial).run before
    let t := s.step .subscribe
    (t.run during).hears s.nextSub = t.states during ∧
      ((t.run during).run (.unsubscribe s.nextSub :: after)).hears s.nextSub = t.states during := by
  intro s t
  have hs : s.Fresh := Fresh.run (by simp [Fresh, new]) before
  have hnone : t.hears s.nextSub = [] := List.filterMap_eq_nil_iff.2 fun h hh => if_neg (hs.2.2 h hh).ne
  have hlt : s.nextSub < t.nextSub := Nat.lt_succ_self _
  have hmem : s.nextSub ∈ t.subs := by simp [t, Store.step]
  obtain ⟨hstill, hduring⟩ := hears_run (hs.step .subscribe) hlt during fun _ => hc
  rw [hnone, if_pos hmem, List.nil_append] at hduring
  refine ⟨hduring, ?_⟩
  have hu := (hs.step .subscribe).run during
  have hgone : s.nextSub ∉ ((t.run during).step (.unsubscribe s.nextSub)).subs := by simp [Store.step]
  have hafter := hears_run (hu.step (.unsubscribe _)) (hu.2.1 _ (hstill.2 hmem)) after fun h => absurd h hgone
  rw [if_neg hgone, List.append_nil] at hafter
  exact hafter.2.trans hduring

theorem listener_hears_counter : (((new (· + ·) 0).step .subscribe).run [.dispatch 3, .subscribe, .dispatch 4]).hears 0 =
    [3, 7] :=
  (listener_hears (· + ·) 0 [] [.dispatch 3, .subscribe, .dispatch 4] [] (by simp)).1

end Store
end Redux
