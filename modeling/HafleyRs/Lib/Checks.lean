import Mathlib.Data.List.Forall2
import Mathlib.Tactic

/-!
# Lists of checks

`each` runs a check over a list up to the first failure. What `mapM` collects over a list is what the function
gives of each element.
-/

namespace Checks
variable {α β ε : Type}

theorem ok_bind (a : α) (f : α → Except ε β) : (Except.ok a >>= f) = f a := rfl

def each (f : α → Except ε Unit) : List α → Except ε Unit
  | [] => .ok ()
  | a :: rest =>
    match f a with
    | .error e => .error e
    | .ok () => each f rest

theorem each_ok {f : α → Except ε Unit} {l : List α} : each f l = .ok () ↔ ∀ a ∈ l, f a = .ok () := by
  induction l with
  | nil => simp [each]
  | cons a rest ih =>
    rw [each]
    cases h : f a with
    | error e => simp [h]
    | ok u => simp [h, ih]

theorem mapM_cons_ok {f : α → Except ε β} {a : α} {l : List α} {m : List β} :
    (a :: l).mapM f = .ok m ↔ ∃ b rest, f a = .ok b ∧ l.mapM f = .ok rest ∧ m = b :: rest := by
  rw [List.mapM_cons]
  cases ha : f a with
  | error e => simp [bind, Except.bind]
  | ok b =>
    cases hl : l.mapM f with
    | error e => simp [bind, Except.bind]
    | ok rest =>
      simp only [bind, Except.bind, pure, Except.pure, Except.ok.injEq, exists_and_left, exists_eq_left']
      exact ⟨fun h => h.symm, fun h => h.symm⟩

theorem mapM_ok {f : α → Except ε β} {l : List α} {m : List β} :
    l.mapM f = .ok m ↔ List.Forall₂ (fun a b => f a = .ok b) l m := by
  induction l generalizing m with
  | nil =>
    rw [List.mapM_nil, List.forall₂_nil_left_iff]
    exact ⟨fun h => (Except.ok.inj h).symm, fun h => by rw [h]; rfl⟩
  | cons a rest ih =>
    rw [mapM_cons_ok, List.forall₂_cons_left_iff]
    constructor
    · rintro ⟨b, bs, hb, hbs, rfl⟩
      exact ⟨b, bs, hb, ih.1 hbs, rfl⟩
    · rintro ⟨b, bs, hb, hbs, rfl⟩
      exact ⟨b, bs, hb, ih.2 hbs, rfl⟩

theorem mapM_error {f : α → Except ε β} {l : List α} {e : ε} (h : l.mapM f = .error e) :
    ∃ a ∈ l, f a = .error e := by
  induction l with
  | nil => cases h
  | cons a rest ih =>
    rw [List.mapM_cons] at h
    cases ha : f a with
    | error e' =>
      rw [ha] at h
      cases h
      exact ⟨a, List.mem_cons_self, ha⟩
    | ok b =>
      cases hl : rest.mapM f with
      | error e' =>
        rw [ha, hl] at h
        cases h
        obtain ⟨c, hc, hf⟩ := ih hl
        exact ⟨c, List.mem_cons_of_mem _ hc, hf⟩
      | ok bs =>
        rw [ha, hl] at h
        cases h

theorem mapM_congr {f g : α → Except ε β} {l m : List α} (h : List.Forall₂ (fun a b => f a = g b) l m) :
    l.mapM f = m.mapM g := by
  induction h with
  | nil => rfl
  | cons hab _ ih => rw [List.mapM_cons, List.mapM_cons, hab, ih]

theorem mapM_zipIdx {f : α × Nat → Except ε β} {g : α → Except ε β} {l : List α} (n : Nat)
    (h : ∀ i a, l[i]? = some a → f (a, n + i) = g a) : (l.zipIdx n).mapM f = l.mapM g := by
  induction l generalizing n with
  | nil => rfl
  | cons a rest ih =>
    have hrest : (rest.zipIdx (n + 1)).mapM f = rest.mapM g := by
      apply ih
      intro i b hb
      rw [Nat.add_assoc, Nat.add_comm 1 i]
      exact h (i + 1) b hb
    rw [List.zipIdx_cons, List.mapM_cons, List.mapM_cons, hrest, ← h 0 a rfl]
    rfl

theorem getElem?_of_left {R : α → β → Prop} {l : List α} {m : List β} (h : List.Forall₂ R l m) {i : Nat} {a : α}
    (ha : l[i]? = some a) : ∃ b, m[i]? = some b ∧ R a b := by
  induction h generalizing i with
  | nil => cases ha
  | @cons a' b l m hab _ ih =>
    cases i with
    | zero =>
      cases ha
      exact ⟨b, rfl, hab⟩
    | succ i => exact ih ha

theorem forall₂_of_exists {R : α → β → Prop} {l : List α} (h : ∀ a ∈ l, ∃ b, R a b) : ∃ m, List.Forall₂ R l m := by
  induction l with
  | nil => exact ⟨[], .nil⟩
  | cons a rest ih =>
    obtain ⟨b, hb⟩ := h a List.mem_cons_self
    obtain ⟨m, hm⟩ := ih fun a ha => h a (List.mem_cons_of_mem _ ha)
    exact ⟨b :: m, .cons hb hm⟩

end Checks
