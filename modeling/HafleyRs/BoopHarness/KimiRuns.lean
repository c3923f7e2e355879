import HafleyRs.Lib.Machine
import HafleyRs.Lib.Passes
import HafleyRs.BoopHarness.Kimi
import HafleyRs.BoopHarness.OmpRuns

/-!
# A Kimi transcript that is synced while it grows

A pass starts with the last ordinal and without totals. Lines lead with usage when usage comes before any turn in them
(`leads`), and trail with usage when no turn comes behind their last usage (`trails`). A pass that does not lead with
usage behind lines that trail with it is `Whole`, and resumes (`resumes`).
-/

namespace BoopHarness.Kimi
open BoopStore Passes Machine

section
variable {codec : Codec} {session : SessionRef}

/-! ## Records without usage -/

/-- The turns of a loop event. -/
def loopTurns (codec : Codec) (event : Json) : Nat :=
  if event.strField "type" = some "content.part" then
    match event.get "part" with
    | none => 0
    | some part => Omp.textTurns (partBody codec part)
  else if event.strField "type" = some "tool.call" then 1
  else if event.strField "type" = some "tool.result" then 1
  else 0

/-- How many turns a record without usage writes. -/
def turnsWritten (codec : Codec) (value : Json) : Nat :=
  if value.strField "type" = some "context.append_message" then
    match value.get "message" with
    | none => 0
    | some message => Omp.textTurns (appendMessageText (message.get "content"))
  else if value.strField "type" = some "context.append_loop_event" then
    match value.get "event" with
    | none => 0
    | some event => loopTurns codec event
  else 0

def timeOf (value : Json) : Nat := ((value.get "time").bind Json.asU64).getD 0

/-- The walk behind a record without usage. -/
def advance (codec : Codec) (sid : String) (value : Json) (w : Walk) : Except String Walk :=
  if value.strField "type" = some "context.append_message" then appendMessage sid (timeOf value) value w
  else if value.strField "type" = some "context.append_loop_event" then
    match value.get "event" with
    | none => return w
    | some event => loopEvent codec sid (timeOf value) event w
  else return w

theorem projectValue_usage {value usage : Json} (h : usageIn value = some usage) (p : Projecting) :
    projectValue codec session value p = usageRecord session (timeOf value) value usage p := by
  have htype : value.strField "type" = some "usage.record" := by
    unfold usageIn at h
    split_ifs at h with htype
    exact htype
  have hother : ¬ value.strField "type" = some "context.append_message" := by
    rw [htype]
    decide
  unfold projectValue
  simp only [if_neg hother, if_pos htype, h]
  rfl

theorem projectValue_other {value : Json} (h : usageIn value = none) (p : Projecting) :
    projectValue codec session value p =
      (advance codec session.sessionId value p.walk).bind fun walk => .ok { p with walk } := by
  unfold projectValue advance
  by_cases happend : value.strField "type" = some "context.append_message"
  · simp only [if_pos happend]
    rfl
  by_cases husage : value.strField "type" = some "usage.record"
  · have hloop : ¬ value.strField "type" = some "context.append_loop_event" := by
      rw [husage]
      decide
    simp only [if_neg happend, if_pos husage, if_neg hloop, h]
    rfl
  by_cases hloop : value.strField "type" = some "context.append_loop_event"
  · simp only [hloop, ne_eq, not_true_eq_false, if_false, if_true]
    cases value.get "event" <;> rfl
  · simp only [if_neg happend, if_neg husage, ne_eq, hloop, not_false_eq_true, if_true, if_false]
    rfl

theorem writeTurn_spec (sid : String) (ts : Nat) (role said : String) (w : Walk) :
    ∃ w', writeTurn sid ts role said w = .ok w' ∧ Omp.Advanced sid w w' 1 := by
  have hclass : (if role ∈ ["assistant", "tool", "system", "meta"] then "harness" else "unknown") ∈
      ["human", "harness", "unknown"] := by split_ifs <;> simp
  exact Omp.writeTurn_spec sid ts role said _ hclass w

theorem loopEvent_spec (sid : String) (ts : Nat) (event : Json) (w : Walk) :
    ∃ w', loopEvent codec sid ts event w = .ok w' ∧ Omp.Advanced sid w w' (loopTurns codec event) := by
  unfold loopEvent loopTurns
  by_cases hpart : event.strField "type" = some "content.part"
  · rw [if_pos hpart, if_pos hpart]
    cases event.get "part" with
    | none => exact ⟨w, rfl, .refl sid w⟩
    | some part => exact Omp.textTurn_spec sid ts "assistant" (partBody codec part) "harness" (by simp) w
  by_cases hcall : event.strField "type" = some "tool.call"
  · rw [if_neg hpart, if_neg hpart, if_pos hcall, if_pos hcall]
    obtain ⟨w', hw', hadv⟩ := writeTurn_spec sid ts "tool"
      (toolCallBody codec ((event.strField "name").getD "tool") (event.get "args")) w
    have hfact := Omp.emitToolFact_advanced sid ts (normalizeToolName ((event.strField "name").getD "tool"))
      (event.get "args") w'
    simp only [hw']
    exact ⟨_, rfl, hadv.trans hfact⟩
  rw [if_neg hpart, if_neg hpart, if_neg hcall, if_neg hcall]
  by_cases hresult : event.strField "type" = some "tool.result"
  · rw [if_pos hresult, if_pos hresult]
    exact writeTurn_spec sid ts "tool" (toolResultBody codec (event.get "result")) w
  · rw [if_neg hresult, if_neg hresult]
    exact ⟨w, rfl, .refl sid w⟩

/-- **A record without usage**: its turns. -/
theorem advance_spec (sid : String) (value : Json) (w : Walk) :
    ∃ w', advance codec sid value w = .ok w' ∧ Omp.Advanced sid w w' (turnsWritten codec value) := by
  unfold advance turnsWritten
  by_cases happend : value.strField "type" = some "context.append_message"
  · rw [if_pos happend, if_pos happend]
    unfold appendMessage
    cases value.get "message" with
    | none => exact ⟨w, rfl, .refl sid w⟩
    | some message =>
      refine Omp.textTurn_spec sid (timeOf value) _ _ _ ?_ w
      split_ifs <;> simp
  rw [if_neg happend, if_neg happend]
  by_cases hloop : value.strField "type" = some "context.append_loop_event"
  · rw [if_pos hloop, if_pos hloop]
    cases value.get "event" with
    | none => exact ⟨w, rfl, .refl sid w⟩
    | some event => exact loopEvent_spec sid (timeOf value) event w
  · rw [if_neg hloop, if_neg hloop]
    exact ⟨w, rfl, .refl sid w⟩

/-! ## Two walks of one store -/

/-- Two walks that differ in their counts at most. -/
def Same (w w' : Walk) : Prop := w.store = w'.store ∧ w.turn = w'.turn

theorem addTurn_same (write : TurnStore → Nat → Except String (TurnStore × Nat)) {w w' : Walk} (h : Same w w') :
    Alike Same (addTurn write w) (addTurn write w') := by
  obtain ⟨hstore, hturn⟩ := h
  have hwritten : Alike Eq (write w.store (w.turn + 1)) (write w'.store (w'.turn + 1)) := by
    rw [hstore, hturn]
    cases write w'.store (w'.turn + 1) <;> exact rfl
  refine hwritten.bind fun r r' hr => ?_
  subst hr
  exact ⟨rfl, congrArg (· + 1) hturn⟩

theorem ite_same {c : Prop} [Decidable c] {x x' y y' : Except String Walk} (h : Alike Same x x')
    (h' : Alike Same y y') : Alike Same (if c then x else y) (if c then x' else y') := by
  split_ifs
  · exact h
  · exact h'

theorem loopEvent_same (sid : String) (ts : Nat) (event : Json) {w w' : Walk} (h : Same w w') :
    Alike Same (loopEvent codec sid ts event w) (loopEvent codec sid ts event w') := by
  have hpure : Alike Same (pure w : Except String Walk) (pure w') := h
  unfold loopEvent
  refine ite_same ?_ (ite_same ?_ (ite_same (addTurn_same _ h) hpure))
  · cases event.get "part" with
    | none => exact hpure
    | some part => exact ite_same hpure (addTurn_same _ h)
  · refine (addTurn_same _ h).bind fun v v' hv => ?_
    exact ⟨by rw [hv.1, hv.2], hv.2⟩

theorem advance_same (sid : String) (value : Json) {w w' : Walk} (h : Same w w') :
    Alike Same (advance codec sid value w) (advance codec sid value w') := by
  have hpure : Alike Same (pure w : Except String Walk) (pure w') := h
  unfold advance
  refine ite_same ?_ (ite_same ?_ hpure)
  · unfold appendMessage
    cases value.get "message" with
    | none => exact hpure
    | some message => exact ite_same hpure (addTurn_same _ h)
  · cases value.get "event" with
    | none => exact hpure
    | some event => exact loopEvent_same sid (timeOf value) event h

/-! ## Usage -/

/-- The ordinal a usage hangs on. -/
def attachTurn (turn : Nat) : Nat := if turn = 0 then 1 else turn

theorem usageTurn_same (sid : String) (ts : Nat) (model : String) {w w' : Walk} (h : Same w w') :
    Alike Same (usageTurn sid ts model w) (usageTurn sid ts model w') := by
  unfold usageTurn
  rw [h.2]
  exact ite_same (addTurn_same _ h) h

theorem usageTurn_spec (sid : String) (ts : Nat) (model : String) (w : Walk) :
    ∃ w', usageTurn sid ts model w = .ok w' ∧ w'.turn = attachTurn w.turn ∧
      Omp.Advanced sid w w' (if w.turn = 0 then 1 else 0) := by
  unfold usageTurn attachTurn
  by_cases hzero : w.turn = 0
  · rw [if_pos hzero, if_pos hzero, if_pos hzero]
    obtain ⟨w', hw', hadv⟩ := writeTurn_spec sid ts "assistant" ("[usage] " ++ model) w
    exact ⟨w', hw', by rw [hadv.turn, hzero], hadv⟩
  · rw [if_neg hzero, if_neg hzero, if_neg hzero]
    exact ⟨w, rfl, rfl, .refl sid w⟩

theorem writeUsage_turns {store store' : TurnStore} {sid : String} {turn : Nat} {usage : UsageRow}
    {isNew changed : Bool}
    (h : store.writeUsage sid turn usage = .ok (store', isNew, changed)) : store'.turns = store.turns := by
  unfold TurnStore.writeUsage at h
  obtain ⟨⟨added, changed'⟩, hadd, hwrite⟩ := bind_ok.1 h
  cases hwrite
  unfold TurnStore.addUsage at hadd
  split_ifs at hadd
  · split at hadd
    · cases hadd
    · cases hadd
      rfl
  · cases hadd
    rfl

theorem writeTotals_same (ts : Nat) (model : String) (tokens : TurnTokens) {w w' : Walk} (h : Same w w') :
    Alike (fun q q' => Same q.walk q'.walk ∧ q.tokens = q'.tokens) (writeTotals session ts model tokens w)
      (writeTotals session ts model tokens w') := by
  have hwritten : Alike Eq
      (w.store.writeUsage session.sessionId w.turn (usageRow session ts w.turn model tokens))
      (w'.store.writeUsage session.sessionId w'.turn (usageRow session ts w'.turn model tokens)) := by
    rw [h.1, h.2]
    cases w'.store.writeUsage session.sessionId w'.turn (usageRow session ts w'.turn model tokens) <;> exact rfl
  refine hwritten.bind fun r r' hr => ?_
  subst hr
  exact ⟨⟨rfl, h.2⟩, rfl⟩

theorem writeTotals_spec {ts : Nat} {model : String} {tokens : TurnTokens} {w : Walk} {q : Projecting}
    (h : writeTotals session ts model tokens w = .ok q) :
    q.walk.turn = w.turn ∧ q.tokens = tokens ∧ q.walk.store.turns = w.store.turns := by
  unfold writeTotals at h
  obtain ⟨⟨store, isNew, changed⟩, hwrite, hq⟩ := bind_ok.1 h
  cases hq
  exact ⟨rfl, rfl, writeUsage_turns hwrite⟩

/-- A usage goes to its turn from the totals of that turn. -/
theorem usageRecord_same (ts : Nat) (value usage : Json) {p p' : Projecting} (h : Same p.walk p'.walk)
    (htokens : p.tokens.forTurn (attachTurn p.walk.turn) = p'.tokens.forTurn (attachTurn p.walk.turn)) :
    Alike (fun q q' => Same q.walk q'.walk ∧ q.tokens = q'.tokens) (usageRecord session ts value usage p)
      (usageRecord session ts value usage p') := by
  obtain ⟨w, hw, hturn, -⟩ := usageTurn_spec session.sessionId ts ((value.strField "model").getD "unknown") p.walk
  obtain ⟨w', hw', -, -⟩ := usageTurn_spec session.sessionId ts ((value.strField "model").getD "unknown") p'.walk
  have hsame : Same w w' := by
    have halike := usageTurn_same session.sessionId ts ((value.strField "model").getD "unknown") h
    rwa [hw, hw'] at halike
  have hleft : usageRecord session ts value usage p =
      writeTotals session ts ((value.strField "model").getD "unknown") ((p.tokens.forTurn w.turn).add usage) w := by
    simp only [usageRecord, hw]
    rfl
  have hright : usageRecord session ts value usage p' =
      writeTotals session ts ((value.strField "model").getD "unknown") ((p.tokens.forTurn w.turn).add usage) w' := by
    rw [hturn, htokens, ← hturn, hsame.2]
    simp only [usageRecord, hw']
    rfl
  rw [hleft, hright]
  exact writeTotals_same ts _ _ hsame

theorem usageRecord_spec {ts : Nat} {value usage : Json} {p q : Projecting}
    (h : usageRecord session ts value usage p = .ok q) :
    q.walk.turn = attachTurn p.walk.turn ∧ q.tokens.turn = attachTurn p.walk.turn ∧
      (p.walk.store.maxTurn session.sessionId = p.walk.turn →
        q.walk.store.maxTurn session.sessionId = q.walk.turn) := by
  obtain ⟨w, hw, hturn, hadv⟩ := usageTurn_spec session.sessionId ts ((value.strField "model").getD "unknown") p.walk
  simp only [usageRecord, hw] at h
  obtain ⟨hqturn, hqtokens, hturns⟩ := writeTotals_spec h
  have hforTurn : ∀ tokens : TurnTokens, (tokens.forTurn w.turn).turn = w.turn := fun tokens => by
    unfold TurnTokens.forTurn
    split_ifs with hne
    · rfl
    · exact not_not.1 hne
  refine ⟨hqturn.trans hturn, ?_, fun hmax => ?_⟩
  · rw [hqtokens, ← hturn]
    exact hforTurn p.tokens
  · rw [hqturn, ← hadv.maxTurn hmax, TurnStore.maxTurn, TurnStore.turnsOf, hturns]
    rfl

end

/-! ## Lines -/

/-- The usage that a line adds. -/
def lineUsage (codec : Codec) (line : Bytes) : Option Json := (codec.fromSlice line).bind usageIn

def usageLine (codec : Codec) (line : Bytes) : Bool := (lineUsage codec line).isSome

/-- The turns of a line without usage. -/
def lineTurns (codec : Codec) (line : Bytes) : Nat := ((codec.fromSlice line).map (turnsWritten codec)).getD 0

def turnLine (codec : Codec) (line : Bytes) : Bool := decide (lineTurns codec line ≠ 0)

/-- Usage comes before any turn. -/
def leads (codec : Codec) : List Bytes → Bool
  | [] => false
  | line :: rest => usageLine codec line || !turnLine codec line && leads codec rest

/-- No turn comes behind the last usage. -/
def trails (codec : Codec) (lines : List Bytes) : Bool :=
  lines.foldl (fun flag line => usageLine codec line || !turnLine codec line && flag) false

section
variable {codec : Codec} {session : SessionRef}

/-- A line: nothing, a usage, or a record without. -/
theorem projectLine_cases (codec : Codec) (session : SessionRef) (line : Bytes) :
    (∃ ts value usage, lineUsage codec line = some usage ∧ ∀ p,
      projectLine codec session p line = usageRecord session ts value usage p) ∨
    (lineUsage codec line = none ∧
      ∃ f : Walk → Walk, (∀ p, projectLine codec session p line = .ok { p with walk := f p.walk }) ∧
        (∀ w, Omp.Advanced session.sessionId w (f w) (lineTurns codec line)) ∧
        ∀ w w', Same w w' → Same (f w) (f w')) := by
  unfold lineUsage lineTurns projectLine
  cases hparse : codec.fromSlice line with
  | none => exact Or.inr ⟨rfl, id, fun _ => rfl, fun w => .refl _ w, fun _ _ => id⟩
  | some value =>
    cases husage : usageIn value with
    | some usage =>
      exact Or.inl ⟨timeOf value, value, usage, husage, fun p => projectValue_usage husage p⟩
    | none =>
      choose f hf hadv using fun w => @advance_spec codec session.sessionId value w
      refine Or.inr ⟨husage, f, fun p => ?_, hadv, fun w w' hsame => ?_⟩
      · simp only [projectValue_other husage, hf]
        rfl
      · have halike := @advance_same codec session.sessionId value _ _ hsame
        rwa [hf, hf] at halike

/-! ## A pass resumes -/

/-- Two passes at one place, whose totals are the same or will not be read. -/
structure Together (codec : Codec) (rest : List Bytes) (p p' : Projecting) : Prop where
  same   : Same p.walk p'.walk
  le     : p.tokens.turn ≤ p.walk.turn
  le'    : p'.tokens.turn ≤ p.walk.turn
  tokens : p.tokens = p'.tokens ∨ (leads codec rest = true →
    p.tokens.turn ≠ attachTurn p.walk.turn ∧ p'.tokens.turn ≠ attachTurn p.walk.turn)

theorem le_attachTurn (turn : Nat) : turn ≤ attachTurn turn ∧ 0 < attachTurn turn := by
  unfold attachTurn
  split_ifs <;> omega

theorem attachTurn_attachTurn (turn : Nat) : attachTurn (attachTurn turn) = attachTurn turn :=
  if_neg (le_attachTurn turn).2.ne'

theorem Together.line {line : Bytes} {rest : List Bytes} {p p' : Projecting}
    (h : Together codec (line :: rest) p p') :
    Alike (Together codec rest) (projectLine codec session p line) (projectLine codec session p' line) := by
  rcases projectLine_cases codec session line with ⟨ts, value, usage, hsome, hline⟩ | ⟨hnone, f, hline, hadv, hsame⟩
  · have husage : usageLine codec line = true := by rw [usageLine, hsome, Option.isSome_some]
    have htokens : p.tokens.forTurn (attachTurn p.walk.turn) = p'.tokens.forTurn (attachTurn p.walk.turn) := by
      rcases h.tokens with heq | hstale
      · rw [heq]
      · obtain ⟨hne, hne'⟩ := hstale (by rw [leads, husage, Bool.true_or])
        rw [TurnTokens.forTurn, TurnTokens.forTurn, if_pos hne, if_pos hne']
    have halike := @usageRecord_same session ts value usage p p' h.same htokens
    rw [hline, hline]
    cases hq : usageRecord session ts value usage p with
    | error e =>
      rw [hq] at halike
      cases hq' : usageRecord session ts value usage p' with
      | error e' =>
        rw [hq'] at halike
        exact halike
      | ok q' =>
        rw [hq'] at halike
        exact halike
    | ok q =>
      rw [hq] at halike
      cases hq' : usageRecord session ts value usage p' with
      | error e' =>
        rw [hq'] at halike
        exact halike
      | ok q' =>
        rw [hq'] at halike
        obtain ⟨hturn, htokens, -⟩ := usageRecord_spec hq
        refine ⟨halike.1, ?_, ?_, Or.inl halike.2⟩
        · rw [htokens, hturn]
        · rw [← halike.2, htokens, hturn]
  · have husage : usageLine codec line = false := by rw [usageLine, hnone, Option.isSome_none]
    rw [hline, hline]
    have hforward := (hadv p.walk).turn
    refine ⟨hsame _ _ h.same, ?_, ?_, ?_⟩
    · exact h.le.trans (by rw [hforward]; exact Nat.le_add_right _ _)
    · exact h.le'.trans (by rw [hforward]; exact Nat.le_add_right _ _)
    · refine h.tokens.imp_right fun hstale hleads => ?_
      show p.tokens.turn ≠ attachTurn (f p.walk).turn ∧ p'.tokens.turn ≠ attachTurn (f p.walk).turn
      by_cases hk : lineTurns codec line = 0
      · have hsilent : turnLine codec line = false := by simp [turnLine, hk]
        rw [hforward, hk, Nat.add_zero]
        refine hstale ?_
        rw [leads, husage, hsilent, hleads]
        rfl
      · have hle := h.le
        have hle' := h.le'
        have hattach := (le_attachTurn (f p.walk).turn).1
        omega

/-- A walk so far: the ordinal is the last, and the totals are of its turn at most where usage came last. -/
structure Underway (sid : String) (flag : Bool) (p : Projecting) : Prop where
  maxTurn : p.walk.store.maxTurn sid = p.walk.turn
  le      : p.tokens.turn ≤ p.walk.turn
  flag    : p.tokens.turn = attachTurn p.walk.turn → flag = true

theorem underway_begin (store : TurnStore) : Underway session.sessionId false (begin session store) where
  maxTurn := rfl
  le      := Nat.zero_le _
  flag h  := absurd h (le_attachTurn _).2.ne

theorem Underway.line {line : Bytes} {flag : Bool} {p q : Projecting} (h : Underway session.sessionId flag p)
    (hq : projectLine codec session p line = .ok q) :
    Underway session.sessionId (usageLine codec line || !turnLine codec line && flag) q := by
  rcases projectLine_cases codec session line with ⟨ts, value, usage, hsome, hline⟩ | ⟨hnone, f, hline, hadv, -⟩
  · have husage : usageLine codec line = true := by rw [usageLine, hsome, Option.isSome_some]
    rw [hline] at hq
    obtain ⟨hqturn, hqtokens, hmax⟩ := usageRecord_spec hq
    refine ⟨hmax h.maxTurn, ?_, fun _ => by rw [husage, Bool.true_or]⟩
    rw [hqtokens, hqturn]
  · have husage : usageLine codec line = false := by rw [usageLine, hnone, Option.isSome_none]
    rw [hline] at hq
    obtain rfl := Except.ok.inj hq
    have hforward := (hadv p.walk).turn
    refine ⟨(hadv p.walk).maxTurn h.maxTurn, ?_, fun heq => ?_⟩
    · exact h.le.trans (by rw [hforward]; exact Nat.le_add_right _ _)
    · by_cases hk : lineTurns codec line = 0
      · have hsilent : turnLine codec line = false := by simp [turnLine, hk]
        rw [husage, hsilent, Bool.false_or, Bool.not_false, Bool.true_and]
        refine h.flag (heq.trans ?_)
        show attachTurn (f p.walk).turn = attachTurn p.walk.turn
        rw [hforward, hk, Nat.add_zero]
      · have hle := h.le
        have hattach := (le_attachTurn (f p.walk).turn).1
        have heq' : p.tokens.turn = attachTurn (f p.walk).turn := heq
        omega

theorem Underway.lines (lines : List Bytes) {flag : Bool} {p q : Projecting} (h : Underway session.sessionId flag p)
    (hq : lines.foldlM (projectLine codec session) p = .ok q) :
    Underway session.sessionId
      (lines.foldl (fun flag line => usageLine codec line || !turnLine codec line && flag) flag) q := by
  induction lines generalizing flag p with
  | nil =>
    cases hq
    exact h
  | cons line lines ih =>
    rw [List.foldlM_cons] at hq
    obtain ⟨r, hr, hrest⟩ := bind_ok.1 hq
    exact ih (h.line hr) hrest

def projector (codec : Codec) (session : SessionRef) : Projector String TurnStore Projecting Bytes where
  begin store _ := begin session store
  line          := projectLine codec session
  store p       := p.walk.store

/-- A pass does not begin with usage for a turn that has some. -/
def Whole (codec : Codec) (seen batch : List Bytes) : Prop := ¬ (trails codec seen = true ∧ leads codec batch = true)

theorem resumes {start store : TurnStore} {seen batch : List Bytes} (hseen : (projector codec session).pass start seen =
    .ok store) (hwhole : Whole codec seen batch) : (projector codec session).Resumes start seen batch store := by
  by_cases hempty : batch = []
  · subst hempty
    exact Projector.resumes_nil _ hseen
  by_cases hfirst : seen = []
  · subst hfirst
    cases hseen
    rfl
  rw [Projector.pass_of_ne_nil _ hfirst] at hseen
  obtain ⟨p, hp, hstore⟩ : ∃ p, seen.foldlM (projectLine codec session) (begin session start) = .ok p ∧
      p.walk.store = store := by
    change (seen.foldlM (projectLine codec session) (begin session start)).map (fun p => p.walk.store) = .ok store
      at hseen
    cases hfold : seen.foldlM (projectLine codec session) (begin session start) with
    | error e =>
      rw [hfold] at hseen
      cases hseen
    | ok p =>
      rw [hfold] at hseen
      exact ⟨p, rfl, Except.ok.inj hseen⟩
  subst hstore
  have hunder := (underway_begin start).lines seen hp
  rw [Projector.Resumes, Projector.pass_append _ hempty, Projector.pass_of_ne_nil _ hempty]
  have hwalk : seen.foldlM (projector codec session).line ((projector codec session).begin start (seen ++ batch)) =
      .ok p := hp
  rw [hwalk]
  have htogether : Together codec batch p (begin session p.walk.store) := by
    refine ⟨⟨rfl, hunder.maxTurn.symm⟩, hunder.le, Nat.zero_le _, Or.inr fun hleads => ⟨fun heq => ?_, ?_⟩⟩
    · exact hwhole ⟨hunder.flag heq, hleads⟩
    · exact (le_attachTurn _).2.ne
  exact (@Alike.foldlM _ _ _ _ (Together codec) _ _ (fun line rest q q' h => h.line) _ _ _ htogether).map_eq
    fun q q' h => h.same.1

end

end BoopHarness.Kimi
