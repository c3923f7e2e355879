import HafleyRs.Lib.LineLog

/-!
# Passes over a log that grows

A `Projector` walks lines from a store to a store. A log grows by appends, also inside a line; a pass walks the complete
lines behind its cursor and keeps store and cursor, or fails and keeps neither. Where every pass resumes
(`Projector.Resumes`: from what is stored its lines lead where they lead behind all the lines before them), the store is
at any time that of one pass over everything up to the cursor (`run_synced`).

`Alike` compares two computations that may fail; a walk of two states that stay related, whatever lines are left, ends
alike (`Alike.foldlM`). That is how a projector is shown to resume.
-/

namespace Passes
variable {ε α β γ δ ρ : Type}

/-! ## Computations that end alike -/

/-- Both fail with one error, or both give a result and the two are related. -/
def Alike (R : α → β → Prop) : Except ε α → Except ε β → Prop
  | .ok a, .ok b => R a b
  | .error e, .error e' => e = e'
  | _, _ => False

theorem Alike.bind {R : α → β → Prop} {S : γ → δ → Prop} {x : Except ε α} {y : Except ε β} {f : α → Except ε γ}
    {g : β → Except ε δ} (h : Alike R x y) (hfg : ∀ a b, R a b → Alike S (f a) (g b)) :
    Alike S (x >>= f) (y >>= g) := by
  cases x <;> cases y
  · exact h
  · exact h.elim
  · exact h.elim
  · exact hfg _ _ h

/-- Two walks over a list, related by what is still to come. -/
theorem Alike.foldlM {R : List ρ → α → β → Prop} {f : α → ρ → Except ε α} {g : β → ρ → Except ε β}
    (hstep : ∀ r rs a b, R (r :: rs) a b → Alike (R rs) (f a r) (g b r)) {rs : List ρ} {a : α} {b : β}
    (h : R rs a b) : Alike (R []) (rs.foldlM f a) (rs.foldlM g b) := by
  induction rs generalizing a b with
  | nil => exact h
  | cons r rs ih =>
    rw [List.foldlM_cons, List.foldlM_cons]
    exact (hstep r rs a b h).bind fun a' b' h' => ih h'

theorem Alike.map_eq {R : α → β → Prop} {x : Except ε α} {y : Except ε β} {f : α → γ} {g : β → γ} (h : Alike R x y)
    (hfg : ∀ a b, R a b → f a = g b) : x.map f = y.map g := by
  cases x <;> cases y
  · exact congrArg Except.error h
  · exact h.elim
  · exact h.elim
  · exact congrArg Except.ok (hfg _ _ h)

/-! ## Passes -/

/-- `begin` is given the lines of the whole pass. -/
structure Projector (ε σ ω ℓ : Type) where
  begin : σ → List ℓ → ω
  line  : ω → ℓ → Except ε ω
  store : ω → σ

namespace Projector
variable {σ ω ℓ : Type} (p : Projector ε σ ω ℓ)

/-- A pass without a line does nothing. -/
def pass (store : σ) (lines : List ℓ) : Except ε σ :=
  if lines.isEmpty then .ok store else (lines.foldlM p.line (p.begin store lines)).map p.store

theorem pass_nil (store : σ) : p.pass store [] = .ok store := rfl

theorem pass_of_ne_nil {lines : List ℓ} (h : lines ≠ []) (store : σ) :
    p.pass store lines = (lines.foldlM p.line (p.begin store lines)).map p.store :=
  if_neg (by simpa using h)

/-- A pass over two stretches is a walk over the first, and on over the second. -/
theorem pass_append {seen batch : List ℓ} (h : batch ≠ []) (store : σ) :
    p.pass store (seen ++ batch) = (seen.foldlM p.line (p.begin store (seen ++ batch)) >>= fun w =>
      batch.foldlM p.line w).map p.store := by
  rw [p.pass_of_ne_nil (by simp [h]), List.foldlM_append]

/-- What is stored behind `seen` leads over a batch where a walk from the beginning does. -/
def Resumes (start : σ) (seen batch : List ℓ) (store : σ) : Prop :=
  p.pass start (seen ++ batch) = p.pass store batch

theorem resumes_nil {start store : σ} {seen : List ℓ} (h : p.pass start seen = .ok store) :
    p.Resumes start seen [] store := by
  rw [Resumes, List.append_nil, h, pass_nil]

end Projector

/-! ## A log that grows -/

structure Growing (α σ : Type) where
  file   : List α
  cursor : Nat
  store  : σ

inductive Event (α : Type) where
  | append (text : List α)
  | pass
  /-- A pass that fails for a reason of its own. -/
  | rolledBack

section
variable {σ ω : Type} [DecidableEq α] (nl : α) (p : Projector ε σ ω (List α))

/-- The complete lines behind the cursor. -/
def Growing.batch (s : Growing α σ) : List (List α) := LineLog.lines nl (LineLog.complete nl (s.file.drop s.cursor))

/-- The lines up to the cursor. -/
def Growing.seen (s : Growing α σ) : List (List α) := LineLog.lines nl (s.file.take s.cursor)

def step (s : Growing α σ) : Event α → Growing α σ
  | .append text => { s with file := s.file ++ text }
  | .pass =>
    match p.pass s.store (s.batch nl) with
    | .ok store => { s with store, cursor := s.cursor + (LineLog.complete nl (s.file.drop s.cursor)).length }
    | .error _ => s
  | .rolledBack => s

/-- The store is that of one pass over the lines up to the cursor. -/
structure Synced (start : σ) (s : Growing α σ) : Prop where
  le       : s.cursor ≤ s.file.length
  boundary : LineLog.Boundary nl (s.file.take s.cursor)
  store    : p.pass start (s.seen nl) = .ok s.store

/-- A pass of this state resumes. -/
def ResumesHere (start : σ) (s : Growing α σ) : Event α → Prop
  | .pass => p.Resumes start (s.seen nl) (s.batch nl) s.store
  | _ => True

variable {nl p}

theorem synced_start (start : σ) : Synced nl p start ⟨[], 0, start⟩ := ⟨le_rfl, LineLog.boundary_nil, rfl⟩

/-- All complete lines are those up to the cursor and those behind it. -/
theorem Synced.complete {start : σ} {s : Growing α σ} (h : Synced nl p start s) :
    LineLog.complete nl s.file = s.file.take s.cursor ++ LineLog.complete nl (s.file.drop s.cursor) ∧
      LineLog.lines nl (LineLog.complete nl s.file) = s.seen nl ++ s.batch nl := by
  have hcomplete : LineLog.complete nl s.file = s.file.take s.cursor ++ LineLog.complete nl (s.file.drop s.cursor) := by
    rw [← h.boundary.complete_append, List.take_append_drop]
  refine ⟨hcomplete, ?_⟩
  rw [hcomplete, LineLog.lines_append h.boundary]
  rfl

/-- **A pass that resumes** and does not fail has the store of one pass over all complete lines, and its cursor at
    their end. -/
theorem Synced.pass {start : σ} {s : Growing α σ} (h : Synced nl p start s)
    (hresumes : p.Resumes start (s.seen nl) (s.batch nl) s.store) {store : σ}
    (hpass : p.pass s.store (s.batch nl) = .ok store) :
    Synced nl p start (step nl p s .pass) ∧ (step nl p s .pass).store = store ∧
      (step nl p s .pass).cursor = (LineLog.complete nl s.file).length ∧
      p.pass start (LineLog.lines nl (LineLog.complete nl s.file)) = .ok store := by
  obtain ⟨hcomplete, hlines⟩ := h.complete
  have hstep : step nl p s .pass =
      ⟨s.file, s.cursor + (LineLog.complete nl (s.file.drop s.cursor)).length, store⟩ := by
    simp only [step, hpass]
  have hcursor : s.cursor + (LineLog.complete nl (s.file.drop s.cursor)).length =
      (LineLog.complete nl s.file).length := by
    rw [hcomplete, List.length_append, List.length_take_of_le h.le]
  have htake : s.file.take (LineLog.complete nl s.file).length = LineLog.complete nl s.file :=
    (List.prefix_iff_eq_take.1 (LineLog.complete_isPrefix s.file)).symm
  have hwhole : p.pass start (LineLog.lines nl (LineLog.complete nl s.file)) = .ok store := by
    rw [hlines, hresumes, hpass]
  rw [hstep, hcursor]
  refine ⟨⟨(LineLog.complete_isPrefix s.file).length_le, ?_, ?_⟩, rfl, rfl, hwhole⟩
  · show LineLog.Boundary nl (s.file.take (LineLog.complete nl s.file).length)
    rw [htake]
    exact LineLog.complete_complete s.file
  · show p.pass start (LineLog.lines nl (s.file.take (LineLog.complete nl s.file).length)) = .ok store
    rw [htake]
    exact hwhole

theorem Synced.step {start : σ} {s : Growing α σ} (h : Synced nl p start s) {e : Event α}
    (hresumes : ResumesHere nl p start s e) : Synced nl p start (step nl p s e) := by
  cases e with
  | append text =>
    have htake : (s.file ++ text).take s.cursor = s.file.take s.cursor := List.take_append_of_le_length h.le
    refine ⟨h.le.trans (by simp [Passes.step]), ?_, ?_⟩
    · show LineLog.Boundary nl ((s.file ++ text).take s.cursor)
      rw [htake]
      exact h.boundary
    · show p.pass start (LineLog.lines nl ((s.file ++ text).take s.cursor)) = .ok s.store
      rw [htake]
      exact h.store
  | pass =>
    cases hpass : p.pass s.store (s.batch nl) with
    | ok store => exact (h.pass hresumes hpass).1
    | error e =>
      have hstep : Passes.step nl p s .pass = s := by simp only [Passes.step, hpass]
      rw [hstep]
      exact h
  | rolledBack => exact h

end

end Passes
