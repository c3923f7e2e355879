import HafleyRs.BoopStore.Mail
import HafleyRs.Lib.LineLog
import HafleyRs.Lib.Machine

/-!
# Tail reads (`crates/boop-store/src/tail.rs`)

| here | there |
| --- | --- |
| `CompleteLine`, `ReadResult` | :14, :22 |
| `cutLine` | the body of the loop over the bytes (:80) |
| `readFrom`, `readCompleteLines` | :59, :49 |

`placed` gives lines, one behind another from some offset, their starts; that is what a read returns
(`readFrom_placed`). `boundary_lines` is the induction over the lines of a text without an open one.

A `Tailing` is a file that others append to and truncate, and a reader that resumes where its last call
ended; `lines` are what it returned since it last started over. A read that finds the file shorter than
its offset starts over. A file that was truncated and has grown past the offset again does not look
shorter: `regrown_file`.
-/

namespace BoopStore
open LineLog

structure CompleteLine where
  start : Nat
  bytes : Bytes
deriving DecidableEq, Repr

structure ReadResult where
  lines      : List CompleteLine
  nextOffset : Nat
  reset      : Bool
deriving DecidableEq, Repr

/-- One byte of `body` and its index; the lines so far and the start of the one that is open. -/
def cutLine (body : Bytes) (offset : Nat) (s : List CompleteLine × Nat) (p : Byte × Nat) : List CompleteLine × Nat :=
  if p.1 = newline then (s.1 ++ [⟨offset + s.2, (body.take p.2).drop s.2⟩], p.2 + 1) else s

def readFrom (file : Bytes) (offset : Nat) : ReadResult :=
  let n := file.length - offset
  let body := (file.drop offset).take n
  let lastNewline := rposition (fun b => decide (b = newline)) body
  { lines := match lastNewline with
      | some position => ((body.take (position + 1)).zipIdx.foldl (cutLine body offset) ([], 0)).1
      | none => []
    nextOffset := match lastNewline with
      | some position => offset + (position + 1)
      | none => offset
    reset := false }

def readCompleteLines (file : Bytes) (offset : Nat) : ReadResult :=
  if file.length < offset then { readFrom file 0 with reset := true } else readFrom file offset

/-! ## One read -/

/-- The complete lines of a text, without their ends. -/
def completeLines (text : Bytes) : List Bytes := LineLog.lines newline (complete newline text)

theorem completeLines_nil_of {text : Bytes} (h : newline ∉ text) : completeLines text = [] := by
  rw [completeLines, complete_of_not_mem h]
  rfl

theorem lines_line {line : Bytes} (h : newline ∉ line) : LineLog.lines newline (line ++ [newline]) = [line] := by
  induction line with
  | nil => rfl
  | cons b line ih =>
    have hb : b ≠ newline := fun hb => h (hb ▸ List.mem_cons_self ..)
    rw [List.cons_append, LineLog.lines, if_neg hb, ih fun hmem => h (List.mem_cons_of_mem _ hmem)]

theorem boundary_line (line : Bytes) : Boundary newline (line ++ [newline]) := by
  rw [Boundary, complete_append, if_pos (List.mem_singleton_self _)]
  rfl

theorem completeLines_line {line rest : Bytes} (h : newline ∉ line) :
    completeLines (line ++ newline :: rest) = line :: completeLines rest := by
  have hsplit : line ++ newline :: rest = (line ++ [newline]) ++ rest := by simp
  rw [completeLines, hsplit, (boundary_line line).complete_append, lines_append (boundary_line line), lines_line h]
  rfl

/-- A text without an open line is empty, or a line and another such text. -/
theorem boundary_cases {text : Bytes} (h : Boundary newline text) :
    text = [] ∨ ∃ line rest, text = line ++ newline :: rest ∧ newline ∉ line ∧ Boundary newline rest := by
  by_cases hmem : newline ∈ text
  · refine Or.inr ?_
    obtain ⟨line, rest, rfl, hline⟩ := List.eq_append_cons_of_mem hmem
    have hsplit : line ++ newline :: rest = (line ++ [newline]) ++ rest := by simp
    refine ⟨line, rest, rfl, hline, ?_⟩
    rw [Boundary, hsplit, (boundary_line line).complete_append] at h
    exact List.append_cancel_left h
  · rw [Boundary, complete_of_not_mem hmem] at h
    exact Or.inl h.symm

theorem boundary_lines {P : Bytes → Prop} (hnil : P [])
    (hline : ∀ line rest, newline ∉ line → Boundary newline rest → P rest → P (line ++ newline :: rest)) {text : Bytes} (h : Boundary newline text) : P text := by
  induction hn : text.length using Nat.strong_induction_on generalizing text with
  | _ n ih =>
    rcases boundary_cases h with rfl | ⟨line, rest, rfl, hopen, hrest⟩
    · exact hnil
    · refine hline line rest hopen hrest (ih rest.length ?_ hrest rfl)
      rw [← hn, List.length_append, List.length_cons]
      omega

theorem completeLines_append {a : Bytes} (h : Boundary newline a) (b : Bytes) :
    completeLines (a ++ b) = completeLines a ++ completeLines b := by
  rw [completeLines, h.complete_append, lines_append h, completeLines, completeLines, h]

theorem completeLines_complete (text : Bytes) : completeLines (complete newline text) = completeLines text := by
  rw [completeLines, completeLines, complete_complete text]

/-- Lines with their starts, the first at `offset`. -/
def placed (offset : Nat) : List Bytes → List CompleteLine
  | [] => []
  | line :: rest => ⟨offset, line⟩ :: placed (offset + line.length + 1) rest

theorem placed_bytes (offset : Nat) (lines : List Bytes) : (placed offset lines).map CompleteLine.bytes = lines := by
  induction lines generalizing offset with
  | nil => rfl
  | cons line lines ih => rw [placed, List.map_cons, ih]

theorem cut_placed {body : Bytes} (offset : Nat) (rest before after : Bytes) (lines : List CompleteLine)
    (lineStart : Nat) (hbody : body = before ++ rest ++ after) (hopen : newline ∉ before.drop lineStart)
    (hle : lineStart ≤ before.length) :
    ((rest.zipIdx before.length).foldl (cutLine body offset) (lines, lineStart)).1 =
      lines ++ placed (offset + lineStart) (completeLines (before.drop lineStart ++ rest)) := by
  induction rest generalizing before lines lineStart with
  | nil =>
    rw [List.append_nil, completeLines_nil_of hopen, placed, List.append_nil]
    rfl
  | cons b rest ih =>
    have hnext : body = (before ++ [b]) ++ rest ++ after := by simp [hbody]
    have hlen : before.length + 1 = (before ++ [b]).length := by simp
    rw [List.zipIdx_cons, List.foldl_cons, hlen]
    by_cases hb : b = newline
    · subst hb
      have htake : body.take before.length = before := by simp [hbody]
      have hstep : cutLine body offset (lines, lineStart) (newline, before.length) =
          (lines ++ [⟨offset + lineStart, before.drop lineStart⟩], (before ++ [newline]).length) := by
        rw [cutLine, if_pos rfl, htake, hlen]
      have hstart : offset + lineStart + (before.drop lineStart).length + 1 =
          offset + (before ++ [newline]).length := by
        rw [List.length_drop, ← hlen]
        omega
      rw [hstep, ih _ _ _ hnext (by simp) le_rfl, List.drop_length, List.nil_append, completeLines_line hopen, placed,
        hstart, List.append_assoc]
      rfl
    · have hstep : cutLine body offset (lines, lineStart) (b, before.length) = (lines, lineStart) := if_neg hb
      have hdrop : (before ++ [b]).drop lineStart = before.drop lineStart ++ [b] := List.drop_append_of_le_length hle
      have hopen' : newline ∉ (before ++ [b]).drop lineStart := by
        rw [hdrop, List.mem_append, List.mem_singleton]
        rintro (hmem | hmem)
        · exact hopen hmem
        · exact hb hmem.symm
      rw [hstep, ih _ lines lineStart hnext hopen' (by simp; omega), hdrop, List.append_assoc]
      rfl

theorem readFrom_placed (file : Bytes) (offset : Nat) :
    (readFrom file offset).lines = placed offset (completeLines (file.drop offset)) := by
  have hbody : (file.drop offset).take (file.length - offset) = file.drop offset := by
    rw [← List.length_drop, List.take_length]
  unfold readFrom
  simp only [hbody]
  cases hlast : rposition (fun b => decide (b = newline)) (file.drop offset) with
  | none =>
    rw [completeLines_nil_of (rposition_eq_none.1 hlast)]
    rfl
  | some position =>
    have hcomplete : complete newline (file.drop offset) = (file.drop offset).take (position + 1) := by
      unfold complete
      rw [hlast]
    have hsplit : file.drop offset = [] ++ (file.drop offset).take (position + 1) ++
        (file.drop offset).drop (position + 1) := by simp
    refine (cut_placed offset _ [] _ [] 0 hsplit (by simp) le_rfl).trans ?_
    rw [List.nil_append, List.drop_nil, List.nil_append, ← hcomplete, completeLines_complete]
    rfl

/-- A line is a piece of the text that ends at a newline and holds no other. -/
def IsLineOf (file : Bytes) (l : CompleteLine) : Prop :=
  l.bytes ++ [newline] <+: file.drop l.start ∧ newline ∉ l.bytes

/-- The lines of a text stand in it where `placed` says. -/
theorem placed_isLineOf {text : Bytes} (h : Boundary newline text) : ∀ before after : Bytes,
    ∀ l ∈ placed before.length (completeLines text), IsLineOf (before ++ text ++ after) l := by
  refine boundary_lines (P := fun text => ∀ before after : Bytes,
    ∀ l ∈ placed before.length (completeLines text), IsLineOf (before ++ text ++ after) l) (fun _ _ l hl => ?_) ?_ h
  · cases hl
  · intro line rest hopen _ ih before after l hl
    rw [completeLines_line hopen, placed] at hl
    rcases List.mem_cons.1 hl with rfl | hl
    · refine ⟨?_, hopen⟩
      rw [List.append_assoc, List.drop_left]
      exact ⟨rest ++ after, by simp⟩
    · have hlen : before.length + line.length + 1 = (before ++ (line ++ [newline])).length := by simp; omega
      rw [hlen] at hl
      have hline := ih (before ++ (line ++ [newline])) after l hl
      simpa using hline

/-- **`read_from` (tail.rs:59)**: the complete lines behind the offset, and the offset behind them. -/
theorem readFrom_spec (file : Bytes) (offset : Nat) :
    (readFrom file offset).lines.map CompleteLine.bytes = completeLines (file.drop offset) ∧
    (readFrom file offset).nextOffset = offset + (complete newline (file.drop offset)).length ∧
    ∀ l ∈ (readFrom file offset).lines, IsLineOf file l := by
  refine ⟨?_, ?_, fun l hl => ?_⟩
  · rw [readFrom_placed, placed_bytes]
  · have hbody : (file.drop offset).take (file.length - offset) = file.drop offset := by
      rw [← List.length_drop, List.take_length]
    unfold readFrom complete
    simp only [hbody]
    cases hlast : rposition (fun b => decide (b = newline)) (file.drop offset) with
    | none => rfl
    | some position => rw [List.length_take_of_le (Nat.succ_le_of_lt (rposition_lt hlast))]
  · rw [readFrom_placed, ← completeLines_complete] at hl
    by_cases hle : offset ≤ file.length
    · have hboundary : Boundary newline (complete newline (file.drop offset)) := complete_complete _
      have hline := placed_isLineOf hboundary (file.take offset) (tail newline (file.drop offset)) l
      rw [List.length_take_of_le hle, List.append_assoc, complete_append_tail, List.take_append_drop] at hline
      exact hline hl
    · rw [List.drop_of_length_le (Nat.le_of_not_le hle)] at hl
      cases hl

/-- A read without lines leaves the offset where it is. -/
theorem complete_of_no_lines {file : Bytes} {offset : Nat} (h : (readFrom file offset).lines = []) :
    complete newline (file.drop offset) = [] := by
  have hlines := (readFrom_spec file offset).1
  by_contra hne
  rw [h] at hlines
  exact LineLog.lines_ne_nil hne hlines.symm

theorem readCompleteLines_short {file : Bytes} {offset : Nat} (h : file.length < offset) :
    readCompleteLines file offset = { readFrom file 0 with reset := true } := if_pos h

theorem readCompleteLines_long {file : Bytes} {offset : Nat} (h : offset ≤ file.length) :
    readCompleteLines file offset = readFrom file offset := if_neg (Nat.not_lt.2 h)

/-! ## Runs -/

/-- `resets` counts the reads that started over, `cut` says that bytes before the offset were taken away
    since the last read. -/
structure Tailing where
  file   : Bytes
  offset : Nat
  lines  : List CompleteLine
  resets : Nat
  cut    : Bool
deriving DecidableEq, Repr

inductive FileEvent where
  | append (bytes : Bytes)
  | truncate (length : Nat)
  | read

namespace Tailing

def start (file : Bytes) : Tailing := ⟨file, 0, [], 0, false⟩

def step (s : Tailing) : FileEvent → Tailing
  | .append bytes => { s with file := s.file ++ bytes }
  | .truncate length => { s with file := s.file.take length, cut := s.cut || decide (length < s.offset) }
  | .read =>
    let result := readCompleteLines s.file s.offset
    { s with
      offset := result.nextOffset
      lines := if result.reset then result.lines else s.lines ++ result.lines
      resets := if result.reset then s.resets + 1 else s.resets
      cut := false }

/-- A file that lost bytes the reader was past still looks shorter to the read. -/
def Noticed (s : Tailing) : FileEvent → Prop
  | .read => s.cut = true → s.file.length < s.offset
  | _ => True

/-- The file up to the offset is whole lines, the ones returned. -/
structure Synced (s : Tailing) : Prop where
  le       : s.offset ≤ s.file.length
  boundary : Boundary newline (s.file.take s.offset)
  bytes    : s.lines.map CompleteLine.bytes = LineLog.lines newline (s.file.take s.offset)

theorem synced_start (file : Bytes) : Synced (Tailing.start file) := ⟨Nat.zero_le _, boundary_nil, rfl⟩

theorem Synced.append {s : Tailing} (h : Synced s) (bytes : Bytes) : Synced (s.step (.append bytes)) := by
  have htake : (s.file ++ bytes).take s.offset = s.file.take s.offset := List.take_append_of_le_length h.le
  refine ⟨h.le.trans (by simp [step]), ?_, ?_⟩
  · rw [step, htake]
    exact h.boundary
  · rw [step, htake]
    exact h.bytes

/-- Bytes the reader is not past are not missed. -/
theorem Synced.truncate {s : Tailing} (h : Synced s) {length : Nat} (hle : s.offset ≤ length) :
    Synced (s.step (.truncate length)) := by
  have htake : (s.file.take length).take s.offset = s.file.take s.offset := by
    rw [List.take_take, min_eq_left hle]
  refine ⟨?_, ?_, ?_⟩
  · rw [step, List.length_take]
    exact le_min hle h.le
  · rw [step, htake]
    exact h.boundary
  · rw [step, htake]
    exact h.bytes

/-- The reader has all that is complete, its offset is the end of a line. -/
structure CaughtUp (s : Tailing) : Prop where
  bytes  : s.lines.map CompleteLine.bytes = completeLines s.file
  offset : s.offset = (complete newline s.file).length
  ends   : s.offset = 0 ∨ s.file[s.offset - 1]? = some newline

/-- A text of whole lines ends at a newline. -/
theorem ends_of_boundary {text : Bytes} (h : Boundary newline text) :
    text = [] ∨ text[text.length - 1]? = some newline := by
  rcases List.eq_nil_or_concat' text with rfl | ⟨init, b, rfl⟩
  · exact .inl rfl
  · refine .inr ?_
    by_cases hb : b = newline
    · simp [hb]
    · have hnot : newline ∉ [b] := by simpa using fun h => hb h.symm
      rw [Boundary, complete_append, if_neg hnot] at h
      have hstart : complete newline init <+: init := complete_isPrefix init
      have hle := hstart.length_le
      rw [h, List.length_append, List.length_singleton] at hle
      exact absurd hle (Nat.not_succ_le_self _)

theorem CaughtUp.of_take {s : Tailing} (hbytes : s.lines.map CompleteLine.bytes = completeLines s.file)
    (hoffset : s.offset = (complete newline s.file).length) : CaughtUp s := by
  refine ⟨hbytes, hoffset, ?_⟩
  have hboundary : Boundary newline (complete newline s.file) := complete_complete s.file
  rcases ends_of_boundary hboundary with hnil | hends
  · rw [hoffset, hnil]
    exact .inl rfl
  · refine .inr ?_
    have hstart : complete newline s.file <+: s.file := complete_isPrefix s.file
    rw [hoffset]
    rw [List.getElem?_eq_some_iff] at hends ⊢
    obtain ⟨hlt, hget⟩ := hends
    exact ⟨hlt.trans_le hstart.length_le, (hstart.getElem hlt).symm.trans hget⟩

theorem CaughtUp.synced {s : Tailing} (h : CaughtUp s) : Synced s := by
  have htake : s.file.take s.offset = complete newline s.file := by
    rw [h.offset]
    exact (List.prefix_iff_eq_take.1 (complete_isPrefix s.file)).symm
  refine ⟨?_, ?_, ?_⟩
  · rw [h.offset]
    exact (complete_isPrefix s.file).length_le
  · rw [htake]
    exact complete_complete s.file
  · rw [htake, h.bytes]
    rfl

/-- **A read** of a reader in step, or of a file that looks shorter. -/
theorem read_caughtUp {s : Tailing} (h : s.file.length < s.offset ∨ Synced s) : CaughtUp (s.step .read) := by
  by_cases hshort : s.file.length < s.offset
  · obtain ⟨hbytes, hoffset, -⟩ := readFrom_spec s.file 0
    rw [List.drop_zero] at hbytes hoffset
    have hread := readCompleteLines_short hshort
    refine .of_take ?_ ?_
    · simp only [step, hread, if_true]
      exact hbytes
    · simp only [step, hread]
      rw [hoffset, Nat.zero_add]
  · have hsync := h.resolve_left hshort
    obtain ⟨hbytes, hoffset, -⟩ := readFrom_spec s.file s.offset
    have hread := readCompleteLines_long hsync.le
    have hcomplete : complete newline s.file =
        s.file.take s.offset ++ complete newline (s.file.drop s.offset) := by
      rw [← hsync.boundary.complete_append, List.take_append_drop]
    refine .of_take ?_ ?_
    · have hreset : (readFrom s.file s.offset).reset = false := rfl
      simp only [step, hread, hreset, Bool.false_eq_true, if_false]
      rw [List.map_append, hsync.bytes, hbytes, completeLines, completeLines, hcomplete, lines_append hsync.boundary]
    · simp only [step, hread]
      rw [hoffset, hcomplete, List.length_append, List.length_take_of_le hsync.le]

theorem step_synced {s : Tailing} {e : FileEvent} (h : s.cut = false → Synced s) (hok : s.Noticed e) :
    (s.step e).cut = false → Synced (s.step e) := by
  cases e with
  | append bytes => exact fun hcut => (h hcut).append bytes
  | truncate length =>
    intro hcut
    have hboth : s.cut = false ∧ ¬ length < s.offset := by simpa [step] using hcut
    exact (h hboth.1).truncate (Nat.le_of_not_lt hboth.2)
  | read =>
    intro _
    refine (read_caughtUp ?_).synced
    by_cases hcut : s.cut = true
    · exact .inl (hok hcut)
    · exact .inr (h (by simpa using hcut))

theorem run_synced {file : Bytes} {es : List FileEvent} {s : Tailing}
    (hrun : Machine.Run (Machine.guarded Noticed fun s e t => s.step e = t) (Tailing.start file) es s) :
    s.cut = false → Synced s := by
  have hstep : ∀ u e v, (u.cut = false → Synced u) →
      Machine.guarded Noticed (fun s e t => s.step e = t) u e v → v.cut = false → Synced v := by
    rintro u e v hu ⟨hok, rfl⟩
    exact step_synced hu hok
  exact hrun.invariant hstep fun _ => synced_start file

/-- Without a truncation nothing is cut off and no read starts over. -/
theorem run_untruncated {s t : Tailing} {es : List FileEvent} (hrun : Machine.Run (fun s e t => s.step e = t) s es t)
    (hes : ∀ n, .truncate n ∉ es) (hcut : s.cut = false) (hsync : Synced s) :
    t.cut = false ∧ Synced t ∧ t.resets = s.resets := by
  induction hrun with
  | nil => exact ⟨hcut, hsync, rfl⟩
  | @cons s u t e es hstep _ ih =>
    have hrest : ∀ n, .truncate n ∉ es := fun n hn => hes n (List.mem_cons_of_mem _ hn)
    subst hstep
    have hok : s.Noticed e := by
      cases e with
      | read =>
        intro h
        rw [hcut] at h
        cases h
      | append | truncate => trivial
    have hkeep : (s.step e).cut = false ∧ (s.step e).resets = s.resets := by
      cases e with
      | append bytes => exact ⟨hcut, rfl⟩
      | truncate n => exact absurd (List.mem_cons_self ..) (hes n)
      | read =>
        refine ⟨rfl, ?_⟩
        simp only [step, readCompleteLines_long hsync.le]
        rfl
    obtain ⟨hcut', hsync', hresets⟩ := ih hrest hkeep.1 (step_synced (fun _ => hsync) hok hkeep.1)
    exact ⟨hcut', hsync', hresets.trans hkeep.2⟩

end Tailing

open Tailing

theorem readCompleteLines_pieces (file : Bytes) (offset : Nat) :
    ∀ l ∈ (readCompleteLines file offset).lines, IsLineOf file l := by
  unfold readCompleteLines
  split
  · exact (readFrom_spec file 0).2.2
  · exact (readFrom_spec file offset).2.2

/-- **Tail reads**: without truncations every complete line once, in order. A truncation the read notices
    starts it over. Every line of every read is a line of the file as it is then. -/
theorem tail_delivers (file : Bytes) :
    (∀ es s, Machine.Run (fun s e t => Tailing.step s e = t) (Tailing.start file) es s → (∀ n, .truncate n ∉ es) →
      CaughtUp (s.step .read) ∧ (s.step .read).resets = 0) ∧
    (∀ es s, Machine.Run (Machine.guarded Noticed fun s e t => s.step e = t) (Tailing.start file) es s →
      s.Noticed .read →
      CaughtUp (s.step .read) ∧
        ((s.step .read).resets = if s.file.length < s.offset then s.resets + 1 else s.resets)) ∧
    ∀ current offset, ∀ l ∈ (readCompleteLines current offset).lines, IsLineOf current l := by
  refine ⟨fun es s hrun hes => ?_, fun es s hrun hok => ⟨?_, ?_⟩, readCompleteLines_pieces⟩
  · obtain ⟨-, hsync, hresets⟩ := run_untruncated hrun hes rfl (synced_start file)
    refine ⟨read_caughtUp (.inr hsync), ?_⟩
    simp only [step, readCompleteLines_long hsync.le]
    exact hresets
  · refine read_caughtUp ?_
    by_cases hcut : s.cut = true
    · exact .inl (hok hcut)
    · exact .inr (run_synced hrun (by simpa using hcut))
  · by_cases hshort : s.file.length < s.offset
    · rw [if_pos hshort]
      simp only [step, readCompleteLines_short hshort, if_true]
    · rw [if_neg hshort]
      simp only [step, readCompleteLines_long (Nat.le_of_not_lt hshort)]
      rfl

def ascii (text : String) : Bytes := text.toList.map fun c => Fin.ofNat 256 c.toNat

/-- Truncated, and grown past the offset before the next read. -/
def truncatedAndRegrown : List FileEvent := [.read, .truncate 0, .append (ascii "bb\ncccc\n")]

theorem regrown_file : ¬ ∀ (file : Bytes) (es : List FileEvent) (s : Tailing),
    Machine.Run (fun s e t => Tailing.step s e = t) (Tailing.start file) es s → s.cut = true →
      (s.step .read).resets = s.resets + 1 ∧ CaughtUp (s.step .read) := by
  intro h
  have hrun := h (ascii "aaaa\n") truncatedAndRegrown _ (Machine.run_foldl Tailing.step _ truncatedAndRegrown)
  exact absurd (hrun (by decide)).1 (by decide)

end BoopStore

/-!
# Where the lines of a read start

The lines of a text without an open one take up all of it (`extent_completeLines`). At a boundary the lines of a file
fall into those before it and those a read from there finds (`readFrom_split`).
-/

namespace BoopStore
open LineLog

/-- The bytes of lines with their ends. -/
def extent (lines : List Bytes) : Nat := (lines.map fun line => line.length + 1).sum

theorem placed_append (offset : Nat) (a b : List Bytes) :
    placed offset (a ++ b) = placed offset a ++ placed (offset + extent a) b := by
  induction a generalizing offset with
  | nil => rfl
  | cons line a ih =>
    have hextent : offset + extent (line :: a) = offset + line.length + 1 + extent a := by
      simp only [extent, List.map_cons, List.sum_cons]
      omega
    rw [List.cons_append, placed, placed, ih, hextent]
    rfl

theorem le_start_of_mem_placed {offset : Nat} {lines : List Bytes} {l : CompleteLine} (h : l ∈ placed offset lines) :
    offset ≤ l.start ∧ l.start < offset + extent lines := by
  induction lines generalizing offset with
  | nil => cases h
  | cons line lines ih =>
    simp only [extent, List.map_cons, List.sum_cons] at ih ⊢
    rcases List.mem_cons.1 h with rfl | h
    · exact ⟨le_rfl, by simp only; omega⟩
    · have hrest := ih h
      omega

/-! ## The lines of a text -/

theorem extent_completeLines {text : Bytes} (h : Boundary newline text) :
    extent (completeLines text) = text.length := by
  refine boundary_lines (P := fun text => extent (completeLines text) = text.length) rfl ?_ h
  intro line rest hopen _ ih
  rw [completeLines_line hopen, extent, List.map_cons, List.sum_cons, ← extent, ih, List.length_append,
    List.length_cons]
  omega

/-! ## A read -/

/-- The lines before a boundary, and those behind it. -/
theorem readFrom_split {file : Bytes} {cursor : Nat} (hle : cursor ≤ file.length)
    (h : Boundary newline (file.take cursor)) :
    (readFrom file 0).lines = placed 0 (completeLines (file.take cursor)) ++ (readFrom file cursor).lines := by
  have hlines : completeLines file = completeLines (file.take cursor) ++ completeLines (file.drop cursor) := by
    rw [← completeLines_append h, List.take_append_drop]
  have hextent : extent (completeLines (file.take cursor)) = cursor := by
    rw [extent_completeLines h, List.length_take_of_le hle]
  rw [readFrom_placed, readFrom_placed, List.drop_zero, hlines, placed_append, hextent, Nat.zero_add]

end BoopStore
