import HafleyRs.Lib.Machine

/-!
# The end of a supervisor (`crates/boop-proc/src/supervise.rs`, `_1_end_latch.rs`)

| here | there |
| --- | --- |
| `SuperviseEnd`, `outcome` | the returns of `supervise` (1280, 1296, 1730, 1767, 1816, 1828, 1941), probes (784) |
| `ResultRow` | the rows of `record_result` (2335), by where it is called |
| `EndAct.marker`, `.timeout`, `.finish` | the marker (1801), the row of a late job (1271), the other ends |
| `mainLock`, `mainAppend`, `mainPrint` | `main_end` (latch 24) around `record_result`, in `run` (935, 966, 988) |
| `signal`, `signalLock`, `signalAppend`, `signalPrint` | the signal thread (1043), `signal_end` (latch 35) |

A call of `record_result` appends its row and then prints; the append can fail (`written`), and a print to a dead
pane panics (`prints`). The main thread and the signal thread take these steps in any order; one signal arrives.
-/

namespace BoopProc

inductive SuperviseEnd where
  | hardFailure (code : Int)
  | startupFailure
  | emptyBriefTwice
  | parentDied
  | paneGone
  | retired (code : Int)
  | error
  | panic
deriving DecidableEq, Repr

/-- What `run` has of `supervise`: a panic, an error, or an end with its code. -/
inductive EndOutcome where
  | panicked
  | errored
  | ended (code : Int) (retired : Bool)
deriving DecidableEq, Repr

def SuperviseEnd.outcome : SuperviseEnd → EndOutcome
  | hardFailure code => .ended code false
  | startupFailure => .ended 1 false
  | emptyBriefTwice => .ended 1 false
  | parentDied => .ended 1 false
  | paneGone => .ended 1 false
  | retired code => .ended code true
  | error => .errored
  | panic => .panicked

/-- The code of the row that `run` writes for an outcome; none for a retirement. -/
def EndOutcome.rowCode : EndOutcome → Option Int
  | panicked => some 101
  | errored => some 1
  | ended code retired => if retired then none else some code

inductive RowSource where
  | marker | timeout | main | signal
deriving DecidableEq, Repr

structure ResultRow where
  source : RowSource
  code   : Int
deriving DecidableEq, Repr

inductive MainPhase where
  | supervising
  | ending (outcome : EndOutcome)
  | locked (code : Int)
  | appended
  | done
deriving DecidableEq, Repr

/-- `gone` is a signal thread whose print panicked: it holds the latch no more and does not exit. -/
inductive SignalPhase where
  | quiet | arrived | locked | appended | gone
deriving DecidableEq, Repr

structure EndWorld where
  main          : MainPhase
  signal        : SignalPhase
  byMain        : Bool
  bySignal      : Bool
  resultWritten : Bool
  retired       : Bool
  exited        : Bool
  rows          : List ResultRow
deriving DecidableEq, Repr

inductive EndAct where
  | marker (code : Int) (written prints : Bool)
  | timeout (written prints : Bool)
  | finish (e : SuperviseEnd)
  | mainLock
  | mainAppend (written : Bool)
  | mainPrint (prints : Bool)
  | mainExit
  | signal
  | signalLock
  | signalAppend (number : Int) (written : Bool)
  | signalPrint (prints : Bool)
deriving DecidableEq, Repr

namespace EndWorld

def start : EndWorld := ⟨.supervising, .quiet, false, false, false, false, false, []⟩

def append (w : EndWorld) (source : RowSource) (code : Int) (written : Bool) : EndWorld :=
  { w with rows := if written then w.rows ++ [⟨source, code⟩] else w.rows }

/-- Whether a thread holds the latch. -/
def mainHolds (w : EndWorld) : Bool := match w.main with
  | .locked _ => true
  | .appended => true
  | _ => false

def signalHolds (w : EndWorld) : Bool := w.signal = .locked || w.signal = .appended

/-- The end of the main thread's work: a retirement writes nothing, every other outcome goes to the latch. -/
def lock (w : EndWorld) (outcome : EndOutcome) : Option EndWorld :=
  match outcome.rowCode with
  | none => some { w with main := .done }
  | some code =>
    if w.signalHolds then none
    else if w.bySignal then some { w with main := .done } else some { w with main := .locked code }

end EndWorld

def endStep (w : EndWorld) (a : EndAct) : Option EndWorld :=
  if w.exited then none else
  match a with
  | .marker code written prints => match w.main with
    | .supervising => if w.resultWritten then none else
        some { w.append .marker code written with
          resultWritten := true
          main := if prints then .supervising else .ending .panicked }
    | _ => none
  | .timeout written prints => match w.main with
    | .supervising =>
      some { w.append .timeout 124 written with
        main := .ending (if prints then .ended 124 false else .panicked) }
    | _ => none
  | .finish e => match w.main with
    | .supervising => match e with
      | .retired code => if w.resultWritten then
          some { w with main := .ending (.ended code true), retired := true } else none
      | _ => some { w with main := .ending e.outcome }
    | _ => none
  | .mainLock => match w.main with
    | .ending outcome => w.lock outcome
    | _ => none
  | .mainAppend written => match w.main with
    | .locked code => some { w.append .main code written with main := .appended }
    | _ => none
  | .mainPrint prints => match w.main with
    | .appended => some { w with main := .done, byMain := prints }
    | _ => none
  | .mainExit => match w.main with
    | .done => some { w with exited := true }
    | _ => none
  | .signal => if w.signal = .quiet then some { w with signal := .arrived } else none
  | .signalLock => if w.signal = .arrived ∧ w.mainHolds = false then
      (if w.byMain then some { w with signal := .locked, bySignal := true, exited := true }
      else some { w with signal := .locked, bySignal := true }) else none
  | .signalAppend number written => if w.signal = .locked then
      some { w.append .signal (128 + number) written with signal := .appended } else none
  | .signalPrint prints => if w.signal = .appended then
      (if prints then some { w with exited := true } else some { w with signal := .gone }) else none

/-! ## The rows of a run -/

def markers (w : EndWorld) : List ResultRow := w.rows.filter fun r => r.source = .marker

def terminals (w : EndWorld) : List ResultRow := w.rows.filter fun r => r.source ≠ .marker

/-- One terminal row, none for a lane that retires, whose marker stands for it. -/
structure OneResult (w : EndWorld) : Prop where
  marker   : (markers w).length ≤ 1
  terminal : (terminals w).length ≤ 1
  retired  : w.retired = true → terminals w = [] ∧ (markers w).length = 1
  exited   : w.exited = true → w.retired = false → (terminals w).length = 1

/-- No row is appended at the deadline, a lane retires with its marker in the store and the signal thread not at
    work, the terminal row of either thread is appended, and the signal thread does not reach the latch in a run
    that retires or behind a main row whose print failed. -/
def Unhurried (w : EndWorld) : EndAct → Prop
  | .timeout written _ => written = false
  | .finish (.retired _) => w.bySignal = false ∧ w.rows ≠ []
  | .mainAppend written => written = true
  | .signalLock => w.retired = false ∧ (w.main = .done → w.byMain = true)
  | .signalAppend _ written => written = true
  | _ => True

instance (w : EndWorld) (a : EndAct) : Decidable (Unhurried w a) := by
  cases a with
  | finish e => cases e <;> unfold Unhurried <;> infer_instance
  | _ => unfold Unhurried; infer_instance

/-! ## Which thread has written -/

namespace EndWorld

/-- The main thread's row stands: the thread is past it, and did not skip it for a retirement or for the signal. -/
def mainWrote (w : EndWorld) : Bool :=
  w.main = .appended || w.main = .done && (w.byMain || !w.retired && !w.bySignal)

def signalWrote (w : EndWorld) : Bool := w.signal = .appended || w.signal = .gone

end EndWorld

theorem signalWrote_iff {w : EndWorld} : w.signalWrote = true ↔ w.signal = .appended ∨ w.signal = .gone := by
  simp [EndWorld.signalWrote]

theorem markers_append (w : EndWorld) (source : RowSource) (code : Int) (written : Bool) :
    (markers (w.append source code written)).length =
      (markers w).length + (written && source = .marker).toNat := by
  cases written <;> cases source <;> simp [markers, EndWorld.append, List.filter_append]

theorem terminals_append (w : EndWorld) (source : RowSource) (code : Int) (written : Bool) :
    (terminals (w.append source code written)).length =
      (terminals w).length + (written && source ≠ .marker).toNat := by
  cases written <;> cases source <;> simp [terminals, EndWorld.append, List.filter_append]

theorem rows_length (w : EndWorld) : w.rows.length = (markers w).length + (terminals w).length := by
  unfold markers terminals
  induction w.rows with
  | nil => rfl
  | cons r rows ih => by_cases h : r.source = .marker <;> simp [h, ih] <;> omega

/-- At most one thread writes, and only the one the latch let in. -/
structure EndInv (w : EndWorld) : Prop where
  marked  : (markers w).length ≤ w.resultWritten.toNat
  written : (terminals w).length = w.mainWrote.toNat + w.signalWrote.toNat
  latched : w.bySignal = true ↔ w.signal = .locked ∨ w.signal = .appended ∨ w.signal = .gone
  holding : w.mainHolds = true → w.bySignal = false
  noted   : w.byMain = true → w.main = .done
  alone   : w.bySignal = true → w.mainWrote = true → w.exited = true ∧ w.signalWrote = false
  skipped : w.main = .done → w.byMain = false → w.bySignal = true → w.signal = .gone
  silent  : ∀ outcome, w.main = .ending outcome → (outcome.rowCode = none ↔ w.retired = true)
  resting : w.retired = true → w.bySignal = false ∧ w.byMain = false ∧ (markers w).length = 1 ∧
              (w.main = .done ∨ ∃ outcome, w.main = .ending outcome)
  left    : w.exited = true → w.retired = true ∨ w.mainWrote = true ∨ w.signalWrote = true

theorem endInv_start : EndInv .start := by
  constructor <;>
    simp [EndWorld.start, EndWorld.mainWrote, EndWorld.signalWrote, EndWorld.mainHolds, markers, terminals]

theorem EndInv.signal_first {w : EndWorld} (hw : EndInv w) (h : w.signalWrote = true) : w.mainWrote = false := by
  have hs : w.bySignal = true := by
    rw [hw.latched]
    exact .inr (signalWrote_iff.1 h)
  by_contra hm
  rw [(hw.alone hs (eq_true_of_ne_false hm)).2] at h
  cases h

theorem EndInv.retired_silent {w : EndWorld} (hw : EndInv w) (h : w.retired = true) :
    w.mainWrote = false ∧ w.signalWrote = false := by
  obtain ⟨hs, hb, -, hmain⟩ := hw.resting h
  constructor
  · rcases hmain with hd | ⟨outcome, ho⟩
    · simp [EndWorld.mainWrote, hd, hb, h]
    · simp [EndWorld.mainWrote, ho]
  · by_contra hn
    rw [hw.latched.2 (.inr (signalWrote_iff.1 (eq_true_of_ne_false hn)))] at hs
    cases hs

theorem EndInv.oneResult {w : EndWorld} (hw : EndInv w) : OneResult w := by
  refine ⟨hw.marked.trans (Bool.toNat_le _), ?_, fun hr => ?_, fun hx hr => ?_⟩
  · rw [hw.written]
    by_cases hs : w.signalWrote = true
    · simp [hs, hw.signal_first hs]
    · simpa [hs] using Bool.toNat_le _
  · obtain ⟨hm, hs⟩ := hw.retired_silent hr
    refine ⟨List.length_eq_zero_iff.1 ?_, (hw.resting hr).2.2.1⟩
    rw [hw.written, hm, hs]
    rfl
  · rw [hw.written]
    rcases hw.left hx with h | hm | hs
    · rw [hr] at h
      cases h
    · by_cases hs : w.signalWrote = true
      · rw [hw.signal_first hs] at hm
        cases hm
      · simp [hm, hs]
    · simp [hs, hw.signal_first hs]

/-! ## The main thread at work -/

/-- Before its work has ended the main thread has written no terminal row. -/
theorem EndInv.before {w : EndWorld} (hw : EndInv w) (h : w.main = .supervising) :
    w.mainWrote = false ∧ w.byMain = false ∧ w.retired = false := by
  refine ⟨by simp [EndWorld.mainWrote, h], ?_, ?_⟩
  · by_contra hb
    rw [hw.noted (eq_true_of_ne_false hb)] at h
    cases h
  · by_contra hr
    obtain ⟨-, -, -, hd | ⟨outcome, ho⟩⟩ := hw.resting (eq_true_of_ne_false hr)
    · rw [hd] at h
      cases h
    · rw [ho] at h
      cases h

/-- The main thread goes on supervising, or ends with an outcome that has a row. -/
theorem EndInv.onward {w w' : EndWorld} (hw : EndInv w) (h : w.main = .supervising)
    (hmain : w'.main = .supervising ∨ ∃ outcome, w'.main = .ending outcome ∧ outcome.rowCode ≠ none)
    (hsame : w'.signal = w.signal ∧ w'.byMain = w.byMain ∧ w'.bySignal = w.bySignal ∧ w'.retired = w.retired ∧
      w'.exited = w.exited)
    (hmark : (markers w').length ≤ w'.resultWritten.toNat) (hterm : (terminals w').length = (terminals w).length) :
    EndInv w' := by
  obtain ⟨hm, hb, hr⟩ := hw.before h
  obtain ⟨hsig, hby, hbs, hret, hex⟩ := hsame
  have hm' : w'.mainWrote = false := by rcases hmain with hs | ⟨o, ho, -⟩ <;> simp [EndWorld.mainWrote, *]
  have hs' : w'.signalWrote = w.signalWrote := by simp [EndWorld.signalWrote, hsig]
  have hh : w'.mainHolds = false := by rcases hmain with hs | ⟨o, ho, -⟩ <;> simp [EndWorld.mainHolds, *]
  constructor
  case marked => exact hmark
  case written => rw [hterm, hw.written, hm, hm', hs']
  case latched => rw [hbs, hsig, hw.latched]
  case holding => simp [hh]
  case noted => simp [hby, hb]
  case alone => simp [hm']
  case skipped => rcases hmain with hs | ⟨o, ho, -⟩ <;> simp [*]
  case silent =>
    intro outcome houtcome
    rcases hmain with hs | ⟨o, ho, hcode⟩
    · rw [hs] at houtcome
      cases houtcome
    · obtain rfl : o = outcome := by simpa [ho] using houtcome
      simp [hcode, hret, hr]
  case resting => simp [hret, hr]
  case left =>
    intro hx
    have hleft := hw.left (hex ▸ hx)
    simpa [hret, hr, hm, hm', hs'] using hleft

theorem EndInv.retire {w : EndWorld} (hw : EndInv w) (h : w.main = .supervising) (hs : w.bySignal = false)
    (hrows : w.rows ≠ []) (code : Int) :
    EndInv { w with main := .ending (.ended code true), retired := true } := by
  obtain ⟨hm, hb, hr⟩ := hw.before h
  have hsw : w.signalWrote = false := by
    by_contra hn
    rw [hw.latched.2 (.inr (signalWrote_iff.1 (eq_true_of_ne_false hn)))] at hs
    cases hs
  have hmark : (markers w).length = 1 := by
    have hpos := List.length_pos_iff.2 hrows
    rw [rows_length, hw.written, hm, hsw] at hpos
    have hle := hw.marked.trans (Bool.toNat_le _)
    simp at hpos
    omega
  constructor
  case marked => exact hw.marked
  case written =>
    change (terminals w).length = _
    rw [hw.written, hm]
    rfl
  case latched => exact hw.latched
  case holding => simp [EndWorld.mainHolds]
  case noted => simp [hb]
  case alone => simp [hs]
  case skipped => simp
  case silent => simp [EndOutcome.rowCode]
  case resting => exact fun _ => ⟨hs, hb, hmark, .inr ⟨_, rfl⟩⟩
  case left => exact fun _ => .inl rfl

theorem EndInv.lock {w w' : EndWorld} (hw : EndInv w) {outcome : EndOutcome} (h : w.main = .ending outcome)
    (hstep : w.lock outcome = some w') : EndInv w' := by
  obtain ⟨marked, written, latched, -, noted, -, -, silent, resting, left⟩ := hw
  have hb : w.byMain = false := by
    by_contra hb
    rw [noted (eq_true_of_ne_false hb)] at h
    cases h
  have hm : w.mainWrote = false := by simp [EndWorld.mainWrote, h]
  have hcode := silent outcome h
  unfold EndWorld.lock at hstep
  split at hstep
  · next hnone =>
    -- a retirement ends without the latch
    have hr := hcode.1 hnone
    obtain ⟨hs, -, hmark, -⟩ := resting hr
    cases hstep
    constructor
    case marked => exact marked
    case written => simpa [EndWorld.mainWrote, EndWorld.signalWrote, terminals, hb, hr, h] using written
    case latched => exact latched
    case holding => simp [EndWorld.mainHolds]
    case noted => simp
    case alone => simp [hs]
    case skipped => simp [hs]
    case silent => simp
    case resting => exact fun _ => ⟨hs, hb, hmark, .inl rfl⟩
    case left => exact fun _ => .inl hr
  · next code hsome =>
    have hr : w.retired = false := by
      by_contra hr
      rw [hcode.2 (eq_true_of_ne_false hr)] at hsome
      cases hsome
    split at hstep
    · cases hstep
    next hfree =>
    have hfree : w.signal ≠ .locked ∧ w.signal ≠ .appended := by simpa [EndWorld.signalHolds] using hfree
    split at hstep
    · next hs =>
      -- the signal thread has written and its print failed
      have hgone : w.signal = .gone := by simpa [hfree] using latched.1 hs
      cases hstep
      constructor
      case marked => exact marked
      case written => simpa [EndWorld.mainWrote, EndWorld.signalWrote, terminals, hb, hr, hs, h] using written
      case latched => exact latched
      case holding => simp [EndWorld.mainHolds]
      case noted => simp
      case alone => simp [EndWorld.mainWrote, hb, hs]
      case skipped => exact fun _ _ _ => hgone
      case silent => simp
      case resting => simp [hr]
      case left => exact fun _ => .inr (.inr (by simp [EndWorld.signalWrote, hgone]))
    · next hs =>
      have hs : w.bySignal = false := by simpa using hs
      cases hstep
      constructor
      case marked => exact marked
      case written => simpa [EndWorld.mainWrote, EndWorld.signalWrote, terminals, h] using written
      case latched => exact latched
      case holding => exact fun _ => hs
      case noted => simp [hb]
      case alone => simp [hs]
      case skipped => simp
      case silent => simp
      case resting => simp [hr]
      case left => simpa [EndWorld.mainWrote, EndWorld.signalWrote, h] using left

/-- The thread that holds the latch has nothing written before it, and the signal has not come for it. -/
theorem EndInv.held {w : EndWorld} (hw : EndInv w) (h : w.mainHolds = true) :
    w.bySignal = false ∧ w.signalWrote = false ∧ w.byMain = false ∧ w.retired = false := by
  have hs := hw.holding h
  refine ⟨hs, ?_, ?_, ?_⟩
  · by_contra hn
    rw [hw.latched.2 (.inr (signalWrote_iff.1 (eq_true_of_ne_false hn)))] at hs
    cases hs
  · by_contra hb
    simp [EndWorld.mainHolds, hw.noted (eq_true_of_ne_false hb)] at h
  · by_contra hr
    obtain ⟨-, -, -, hd | ⟨outcome, ho⟩⟩ := hw.resting (eq_true_of_ne_false hr)
    · simp [EndWorld.mainHolds, hd] at h
    · simp [EndWorld.mainHolds, ho] at h

theorem EndInv.mainRow {w : EndWorld} (hw : EndInv w) {code : Int} (h : w.main = .locked code) :
    EndInv { w.append .main code true with main := .appended } := by
  obtain ⟨hs, hsw, hb, hr⟩ := hw.held (by simp [EndWorld.mainHolds, h])
  have hm : w.mainWrote = false := by simp [EndWorld.mainWrote, h]
  constructor
  case marked =>
    refine le_trans (le_of_eq ?_) hw.marked
    exact markers_append w .main code true
  case written =>
    refine (terminals_append w .main code true).trans ?_
    rw [hw.written, hm, hsw]
    simp [EndWorld.mainWrote, EndWorld.signalWrote, EndWorld.append] at hsw ⊢
    simp [hsw]
  case latched => exact hw.latched
  case holding => exact fun _ => hs
  case noted => simp [EndWorld.append, hb]
  case alone => simp [EndWorld.append, hs]
  case skipped => simp
  case silent => simp
  case resting => simp [EndWorld.append, hr]
  case left => exact fun _ => .inr (.inl (by simp [EndWorld.mainWrote]))

theorem EndInv.mainRowDone {w : EndWorld} (hw : EndInv w) (h : w.main = .appended) (prints : Bool) :
    EndInv { w with main := .done, byMain := prints } := by
  obtain ⟨hs, hsw, hb, hr⟩ := hw.held (by simp [EndWorld.mainHolds, h])
  have hm : w.mainWrote = true := by simp [EndWorld.mainWrote, h]
  constructor
  case marked => exact hw.marked
  case written =>
    change (terminals w).length = _
    rw [hw.written, hm, hsw]
    simp [EndWorld.mainWrote, EndWorld.signalWrote, hs, hr] at hsw ⊢
    simp [hsw]
  case latched => exact hw.latched
  case holding => simp [EndWorld.mainHolds]
  case noted => simp
  case alone => simp [hs]
  case skipped => simp [hs]
  case silent => simp
  case resting => simp [hr]
  case left => exact fun _ => .inr (.inl (by simp [EndWorld.mainWrote, hs, hr]))

theorem EndInv.mainExit {w : EndWorld} (hw : EndInv w) (h : w.main = .done) :
    EndInv { w with exited := true } := by
  obtain ⟨marked, written, latched, holding, noted, alone, skipped, silent, resting, -⟩ := hw
  refine ⟨marked, written, latched, holding, noted, fun hs hm => ⟨rfl, (alone hs hm).2⟩, skipped, silent, resting, ?_⟩
  intro _
  by_cases hr : w.retired = true
  · exact .inl hr
  by_cases hb : w.byMain = true
  · exact .inr (.inl (by simp [EndWorld.mainWrote, h, hb]))
  by_cases hs : w.bySignal = true
  · exact .inr (.inr (by simp [EndWorld.signalWrote, skipped h (by simpa using hb) hs]))
  · exact .inr (.inl (by simp [EndWorld.mainWrote, h, hr, hs]))

/-! ## The signal thread at work -/

theorem EndInv.signalled {w : EndWorld} (hw : EndInv w) (h : w.signal = .quiet) :
    EndInv { w with signal := .arrived } := by
  obtain ⟨marked, written, latched, holding, noted, alone, skipped, silent, resting, left⟩ := hw
  have hs : w.bySignal = false := by simpa [h] using latched
  refine ⟨marked, ?_, ?_, holding, noted, ?_, ?_, silent, resting, ?_⟩
  · simpa [EndWorld.mainWrote, EndWorld.signalWrote, terminals, h] using written
  · simp [hs]
  · simp [hs]
  · simp [hs]
  · simpa [EndWorld.mainWrote, EndWorld.signalWrote, h] using left

theorem EndInv.signalLock {w : EndWorld} (hw : EndInv w) (h : w.signal = .arrived) (hfree : w.mainHolds = false)
    (hr : w.retired = false) (hdone : w.main = .done → w.byMain = true) :
    EndInv { w with signal := .locked, bySignal := true, exited := w.exited || w.byMain } := by
  obtain ⟨marked, written, latched, holding, noted, alone, skipped, silent, resting, left⟩ := hw
  have hs : w.bySignal = false := by simpa [h] using latched
  have hm : w.mainWrote = w.byMain := by
    have hna : w.main ≠ .appended := by
      rintro ha
      simp [EndWorld.mainHolds, ha] at hfree
    by_cases hd : w.main = .done
    · simp [EndWorld.mainWrote, hd, hdone hd]
    · have hb : w.byMain = false := by
        by_contra hb
        exact hd (noted (eq_true_of_ne_false hb))
      simp [EndWorld.mainWrote, hna, hd, hb]
  have hm' : EndWorld.mainWrote { w with signal := .locked, bySignal := true, exited := w.exited || w.byMain } =
      w.mainWrote := by
    by_cases hd : w.main = .done
    · simp [EndWorld.mainWrote, hd, hdone hd]
    · simp [EndWorld.mainWrote, hd]
  constructor
  case marked => exact marked
  case written => simpa [EndWorld.signalWrote, terminals, hm', h] using written
  case latched => simp
  case holding => simpa [EndWorld.mainHolds] using hfree
  case noted => exact noted
  case alone =>
    intro _ hb
    rw [hm', hm] at hb
    exact ⟨by simp [hb], rfl⟩
  case skipped =>
    intro hd hb
    rw [hdone hd] at hb
    cases hb
  case silent => exact silent
  case resting => simp [hr]
  case left =>
    intro hx
    rw [hm', hm]
    rcases Bool.or_eq_true_iff.1 hx with hx | hb
    · simpa [hr, hm, h, EndWorld.signalWrote] using left hx
    · exact .inr (.inl hb)

theorem EndInv.signalRow {w : EndWorld} (hw : EndInv w) (h : w.signal = .locked) (hx : w.exited = false)
    (number : Int) : EndInv { w.append .signal (128 + number) true with signal := .appended } := by
  have hs := hw.latched.2 (.inl h)
  have hm : w.mainWrote = false := by
    by_contra hm
    rw [(hw.alone hs (eq_true_of_ne_false hm)).1] at hx
    cases hx
  have hr : w.retired = false := by
    by_contra hr
    rw [(hw.resting (eq_true_of_ne_false hr)).1] at hs
    cases hs
  constructor
  case marked =>
    refine le_trans (le_of_eq ?_) hw.marked
    exact markers_append w .signal (128 + number) true
  case written =>
    refine (terminals_append w .signal (128 + number) true).trans ?_
    have hm' : EndWorld.mainWrote { w.append .signal (128 + number) true with signal := .appended } = false := hm
    rw [hw.written, hm, hm']
    simp [EndWorld.signalWrote, h]
  case latched => simp [EndWorld.append, hs]
  case holding => exact hw.holding
  case noted => exact hw.noted
  case alone =>
    intro _ hm'
    have hm' : w.mainWrote = true := hm'
    rw [hm] at hm'
    cases hm'
  case skipped =>
    intro hd hb _
    have hgone := hw.skipped hd hb hs
    rw [h] at hgone
    cases hgone
  case silent => exact hw.silent
  case resting => simp [EndWorld.append, hr]
  case left => exact fun _ => .inr (.inr rfl)

theorem EndInv.signalRowDone {w : EndWorld} (hw : EndInv w) (h : w.signal = .appended) {w' : EndWorld}
    (hsame : w' = { w with exited := true } ∨ w' = { w with signal := .gone }) : EndInv w' := by
  have hs := hw.latched.2 (.inr (.inl h))
  have hsw : w.signalWrote = true := signalWrote_iff.2 (.inl h)
  have hm := hw.signal_first hsw
  obtain ⟨marked, written, latched, holding, noted, alone, skipped, silent, resting, left⟩ := hw
  rcases hsame with rfl | rfl
  · exact ⟨marked, written, latched, holding, noted, fun hs hm => ⟨rfl, (alone hs hm).2⟩, skipped, silent, resting,
      fun _ => .inr (.inr hsw)⟩
  · refine ⟨marked, ?_, ?_, holding, noted, ?_, fun _ _ _ => rfl, silent, resting, fun _ => .inr (.inr rfl)⟩
    · rw [hsw] at written
      exact written
    · simp [hs]
    · intro _ hm'
      have hm' : w.mainWrote = true := hm'
      rw [hm] at hm'
      cases hm'

/-! ## Runs -/

theorem EndInv.step {w w' : EndWorld} {a : EndAct} (hw : EndInv w) (ha : Unhurried w a)
    (h : endStep w a = some w') : EndInv w' := by
  unfold endStep at h
  split at h
  · cases h
  next hx =>
  have hx : w.exited = false := by simpa using hx
  cases a with
  | marker code written prints =>
    dsimp only at h
    split at h
    · next hmain =>
      split at h
      · cases h
      next hr =>
      have hr : w.resultWritten = false := by simpa using hr
      cases h
      have hmark := hw.marked
      refine hw.onward hmain ?_ ⟨rfl, rfl, rfl, rfl, rfl⟩ ?_ ?_
      · cases prints
        · exact .inr ⟨_, rfl, by simp [EndOutcome.rowCode]⟩
        · exact .inl rfl
      · refine le_trans (le_of_eq (markers_append w .marker code written)) ?_
        rw [hr] at hmark
        simp at hmark ⊢
        cases written <;> simp [hmark]
      · exact (terminals_append w .marker code written).trans (by simp)
    · cases h
  | timeout written prints =>
    obtain rfl : written = false := ha
    dsimp only at h
    split at h
    · next hmain =>
      cases h
      refine hw.onward hmain (.inr ⟨_, rfl, ?_⟩) ⟨rfl, rfl, rfl, rfl, rfl⟩ hw.marked rfl
      cases prints <;> simp [EndOutcome.rowCode]
    · cases h
  | finish e =>
    dsimp only at h
    split at h
    · next hmain =>
      split at h
      · next code =>
        split at h
        · cases h
          exact hw.retire hmain ha.1 ha.2 code
        · cases h
      · next hnot =>
        cases h
        refine hw.onward hmain (.inr ⟨_, rfl, ?_⟩) ⟨rfl, rfl, rfl, rfl, rfl⟩ hw.marked rfl
        cases e <;> simp_all [SuperviseEnd.outcome, EndOutcome.rowCode]
    · cases h
  | mainLock =>
    dsimp only at h
    split at h
    · next hmain => exact hw.lock hmain h
    · cases h
  | mainAppend written =>
    obtain rfl : written = true := ha
    dsimp only at h
    split at h
    · next hmain =>
      cases h
      exact hw.mainRow hmain
    · cases h
  | mainPrint prints =>
    dsimp only at h
    split at h
    · next hmain =>
      cases h
      exact hw.mainRowDone hmain prints
    · cases h
  | mainExit =>
    dsimp only at h
    split at h
    · next hmain =>
      cases h
      exact hw.mainExit hmain
    · cases h
  | signal =>
    dsimp only at h
    split at h
    · next hsig =>
      cases h
      exact hw.signalled hsig
    · cases h
  | signalLock =>
    dsimp only at h
    split at h
    · next hsig =>
      have hnext := hw.signalLock hsig.1 hsig.2 ha.1 ha.2
      split at h <;> cases h <;> simp_all
    · cases h
  | signalAppend number written =>
    obtain rfl : written = true := ha
    dsimp only at h
    split at h
    · next hsig =>
      cases h
      exact hw.signalRow hsig hx number
    · cases h
  | signalPrint prints =>
    dsimp only at h
    split at h
    · next hsig =>
      refine hw.signalRowDone hsig ?_
      split at h <;> cases h
      · exact .inl rfl
      · exact .inr rfl
    · cases h

/-- **One terminal result row per supervisor process**, in every state of a run whose steps meet `Unhurried`: none
    before the end and one at it, whatever the end and wherever the signal lands; a lane that retires leaves its
    completion marker alone. -/
theorem one_result {acts : List EndAct} {w : EndWorld}
    (h : Machine.Run (Machine.guarded Unhurried fun s a t => endStep s a = some t) .start acts w) : OneResult w :=
  (h.invariant (fun _ _ _ hs hstep => hs.step hstep.1 hstep.2) endInv_start).oneResult

/-- A brief ends with its marker, then the harness fails hard while a SIGHUP arrives: the main thread's row stands and
    the signal thread finds nothing to add. -/
theorem one_result_hangup : OneResult
    ⟨.done, .locked, true, true, true, false, true, [⟨.marker, 0⟩, ⟨.main, 1⟩]⟩ :=
  @one_result [.marker 0 true true, .finish (.hardFailure 1), .mainLock, .signal, .mainAppend true, .mainPrint true,
    .signalLock] _ (Machine.run_of_exec_guarded (by decide))

/-- A job past its deadline leaves two terminal rows: one written where the deadline is noticed, and one by the
    main thread's end. -/
theorem timeout_twice :
    ∃ (acts : List EndAct) (w : EndWorld), Machine.Run (fun s a t => endStep s a = some t) .start acts w ∧
      w.exited = true ∧ w.rows = [⟨.timeout, 124⟩, ⟨.main, 124⟩] ∧ ¬ OneResult w := by
  refine ⟨[.timeout true true, .mainLock, .mainAppend true, .mainPrint true, .mainExit],
    ⟨.done, .quiet, true, false, false, false, true, [⟨.timeout, 124⟩, ⟨.main, 124⟩]⟩,
    Machine.run_of_exec (fun _ _ _ h => h) (by decide), rfl, rfl, fun h => ?_⟩
  exact absurd h.terminal (by decide)

end BoopProc
