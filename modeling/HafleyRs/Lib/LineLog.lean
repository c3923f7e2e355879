import Mathlib

/-!
# Logs of lines

A log is a list of symbols in which `nl` ends a line. `complete` is the part up to and including its
last `nl` and `tail` the rest, a line still being written. A `Boundary` is a log with nothing waiting.
Appending to a log only ever adds complete lines behind the ones it has (`complete_append`), and lines
can be read chunk by chunk as long as each chunk but the last ends at a boundary (`lines_append`).
`records` parses the lines one by one; the records of a log's complete part only grow with the log
(`records_complete_mono`), and a reader may begin anywhere if it still has the line that was waiting
there (`records_resume`).
-/

namespace LineLog
variable {α : Type} [DecidableEq α]

/-- The position of the last symbol that satisfies `p`. -/
def rposition (p : α → Bool) : List α → Option Nat
  | [] => none
  | a :: l =>
    match rposition p l with
    | some i => some (i + 1)
    | none => if p a then some 0 else none

def complete (nl : α) (text : List α) : List α :=
  match rposition (fun a => decide (a = nl)) text with
  | some last => text.take (last + 1)
  | none => []

def tail (nl : α) (text : List α) : List α := text.drop (complete nl text).length

/-- The lines without their ends; what follows the last `nl` counts as a line. -/
def lines (nl : α) : List α → List (List α)
  | [] => []
  | a :: text =>
    if a = nl then [] :: lines nl text
    else match lines nl text with
      | [] => [[a]]
      | line :: rest => (a :: line) :: rest

/-- What the lines that parse hold. -/
def records {β : Type} (nl : α) (parse : List α → Option β) (text : List α) : List β :=
  (lines nl text).filterMap parse

/-- Nothing of the log waits for its line to end. -/
def Boundary (nl : α) (text : List α) : Prop := complete nl text = text

variable {nl : α}

/-! ## The complete part -/

theorem rposition_eq_none {text : List α} :
    rposition (fun a => decide (a = nl)) text = none ↔ nl ∉ text := by
  induction text with
  | nil => simp [rposition]
  | cons a text ih =>
    rw [rposition]
    cases h : rposition (fun a => decide (a = nl)) text with
    | some i =>
      have hmem : nl ∈ text := by
        by_contra hn
        rw [ih.2 hn] at h
        cases h
      simp [hmem]
    | none =>
      have hn := ih.1 h
      by_cases ha : a = nl
      · simp [ha]
      · simp [ha, hn, Ne.symm ha]

omit [DecidableEq α] in
theorem rposition_lt {p : α → Bool} {text : List α} {i : Nat} (h : rposition p text = some i) : i < text.length := by
  induction text generalizing i with
  | nil => cases h
  | cons a text ih =>
    rw [rposition] at h
    split at h
    · rename_i j hj
      cases h
      exact Nat.succ_lt_succ (ih hj)
    · split at h
      · cases h
        exact Nat.succ_pos _
      · cases h

@[simp] theorem complete_nil : complete nl [] = [] := rfl

theorem complete_cons (a : α) (text : List α) :
    complete nl (a :: text) = if nl ∈ a :: text then a :: complete nl text else [] := by
  unfold complete
  rw [rposition]
  cases h : rposition (fun a => decide (a = nl)) text with
  | some i =>
    have hmem : nl ∈ text := by
      by_contra hn
      rw [rposition_eq_none.2 hn] at h
      cases h
    simp [hmem]
  | none =>
    have hn := rposition_eq_none.1 h
    by_cases ha : a = nl
    · simp [ha]
    · simp [ha, hn, Ne.symm ha]

theorem complete_of_not_mem {text : List α} (h : nl ∉ text) : complete nl text = [] := by
  unfold complete
  rw [rposition_eq_none.2 h]

theorem complete_isPrefix (text : List α) : complete nl text <+: text := by
  unfold complete
  split
  · exact List.take_prefix _ _
  · exact List.nil_prefix

theorem complete_append_tail (nl : α) (text : List α) : complete nl text ++ tail nl text = text :=
  List.prefix_iff_eq_append.1 (complete_isPrefix text)

/-- What is complete stays, and what is appended completes from the waiting line on. -/
theorem complete_append (nl : α) (a b : List α) :
    complete nl (a ++ b) = if nl ∈ b then a ++ complete nl b else complete nl a := by
  induction a with
  | nil =>
    split
    · rfl
    · exact complete_of_not_mem ‹_›
  | cons x a ih =>
    rw [List.cons_append, complete_cons, complete_cons, ih]
    by_cases hb : nl ∈ b
    · simp [hb]
    · simp [hb]

theorem mem_complete {text : List α} : nl ∈ complete nl text ↔ nl ∈ text := by
  induction text with
  | nil => rfl
  | cons a text ih =>
    rw [complete_cons]
    split
    · rw [List.mem_cons, ih, List.mem_cons]
    · exact iff_of_false List.not_mem_nil ‹_›

theorem complete_complete (text : List α) : Boundary nl (complete nl text) := by
  unfold Boundary
  induction text with
  | nil => rfl
  | cons a text ih =>
    rw [complete_cons]
    split
    · rename_i h
      rw [complete_cons, if_pos (by rwa [List.mem_cons, mem_complete, ← List.mem_cons]), ih]
    · rfl

theorem not_mem_tail (text : List α) : nl ∉ tail nl text := by
  intro h
  have hsplit := complete_append nl (complete nl text) (tail nl text)
  rw [complete_append_tail, if_pos h, List.self_eq_append_right] at hsplit
  have hmem := mem_complete.2 h
  rw [hsplit] at hmem
  exact List.not_mem_nil hmem

/-! ## Boundaries -/

theorem boundary_nil : Boundary nl [] := rfl

/-- Behind a boundary the log completes on its own. -/
theorem Boundary.complete_append {a : List α} (ha : Boundary nl a) (b : List α) :
    complete nl (a ++ b) = a ++ complete nl b := by
  rw [LineLog.complete_append]
  split
  · rfl
  · rw [ha, complete_of_not_mem ‹_›, List.append_nil]

theorem Boundary.append {a b : List α} (ha : Boundary nl a) (hb : Boundary nl b) :
    Boundary nl (a ++ b) := by
  rw [Boundary, ha.complete_append, hb]

/-! ## Lines -/

theorem lines_ne_nil {a : List α} (h : a ≠ []) : lines nl a ≠ [] := by
  cases a with
  | nil => exact absurd rfl h
  | cons x a =>
    rw [lines]
    split
    · simp
    · split <;> simp

theorem lines_append {a : List α} (ha : Boundary nl a) (b : List α) :
    lines nl (a ++ b) = lines nl a ++ lines nl b := by
  induction a with
  | nil => rfl
  | cons x a ih =>
    rw [Boundary, complete_cons] at ha
    split at ha
    · rename_i hmem
      have hstep := ih (List.cons.inj ha).2
      rw [List.cons_append, lines, lines]
      by_cases hx : x = nl
      · rw [if_pos hx, if_pos hx, hstep, List.cons_append]
      · have hne : lines nl a ≠ [] := by
          refine lines_ne_nil ?_
          rintro rfl
          exact hx (List.mem_singleton.1 hmem).symm
        rw [if_neg hx, if_neg hx, hstep]
        obtain ⟨line, rest, hlines⟩ := List.exists_cons_of_ne_nil hne
        simp only [hlines, List.cons_append]
    · cases ha

/-! ## Records -/

section
variable {β : Type} {parse : List α → Option β}

theorem records_append {a : List α} (ha : Boundary nl a) (b : List α) :
    records nl parse (a ++ b) = records nl parse a ++ records nl parse b := by
  rw [records, lines_append ha, List.filterMap_append]
  rfl

/-- Behind a boundary, the records of a log are those before and those after it. -/
theorem records_split (text : List α) {offset : Nat} (hb : Boundary nl (text.take offset)) :
    records nl parse (complete nl text) = records nl parse (text.take offset) ++
      records nl parse (complete nl (text.drop offset)) := by
  rw [← records_append hb, ← hb.complete_append, List.take_append_drop]

/-- Records up to a waiting line, then those of that line and what follows. -/
theorem complete_resume (a b : List α) :
    complete nl (a ++ b) = complete nl a ++ complete nl (tail nl a ++ b) := by
  rw [← (complete_complete a).complete_append, ← List.append_assoc, complete_append_tail]

theorem records_resume (a b : List α) : records nl parse (complete nl (a ++ b)) =
    records nl parse (complete nl a) ++ records nl parse (complete nl (tail nl a ++ b)) := by
  rw [complete_resume, records_append (complete_complete a)]

theorem records_complete_mono (parse : List α → Option β) {a b : List α} (h : a <+: b) :
    records nl parse (complete nl a) <+: records nl parse (complete nl b) := by
  obtain ⟨c, rfl⟩ := h
  rw [records_resume]
  exact List.prefix_append _ _

end

end LineLog
