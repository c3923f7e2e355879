import HafleyRs.BoopHarness.MessagesRuns
import HafleyRs.BoopHarness.OpencodeSyncRuns

/-!
# A pass over OpenCode leaves nothing behind

The selection looks at the time of a session and not at its cursor. So a write in the millisecond a session was last
read with is not seen by any later pass (`same_millisecond`), where `SyncDecision` would have seen it by
`cursor_advanced`. `Quiet` leaves that write out, and a user message without parts, which ends every walk.
-/

namespace BoopHarness.Opencode
open BoopStore Machine
open Transcripts (asciiLine)

/-- The session that is being read. -/
def Phase.reading? : Phase → Option Reading
  | .reading r _ => some r
  | _ => none

/-- Neither the cursor of the session nor the row it is being read with is of this millisecond. -/
def Unread (s : State) (session : String) : Prop :=
  (∀ cursor ∈ s.cursors session, cursor.modifiedMs ≠ s.now) ∧
    ∀ r ∈ s.phase.reading?, r.row.id = session → r.row.timeUpdated ≠ s.now

instance (s : State) (session : String) : Decidable (Unread s session) := inferInstanceAs (Decidable (_ ∧ _))

/-- A message of the user comes with parts. -/
def Write.whole (codec : Codec) : Write → Prop
  | .message row parts => role codec row = "assistant" ∨ parts ≠ []
  | _ => True

instance (codec : Codec) : (w : Write) → Decidable (w.whole codec)
  | .message _ _ => inferInstanceAs (Decidable (_ ∨ _))
  | .session _ | .part _ | .update _ _ => .isTrue trivial

def Quiet (codec : Codec) (s : State) : Event → Prop
  | .write w => (∀ session ∈ writeTouches s.db w, Unread s session) ∧ w.whole codec
  | _ => True

instance (codec : Codec) (s : State) : (e : Event) → Decidable (Quiet codec s e)
  | .write _ => inferInstanceAs (Decidable (_ ∧ _))
  | .tick _ | .pass _ => .isTrue trivial

/-! ## What the cursors say -/

def WholeUsers (codec : Codec) (db : Db) : Prop :=
  ∀ m ∈ db.messages, role codec m ≠ "assistant" → db.hasParts m

/-- Behind a cursor of the time of its session there is nothing to read, and a reading of the time of its session has
    all there is. -/
structure CaughtUp (codec : Codec) (s : State) : Prop where
  stored  : ∀ row ∈ s.db.sessions, ∀ cursor ∈ s.cursors row.id, cursor.modifiedMs = row.timeUpdated →
    messagesAfter codec s.db row.id cursor.offset = []
  reading : ∀ r ∈ s.phase.reading?, ∀ row ∈ s.db.sessions, row.id = r.row.id → r.row.timeUpdated = row.timeUpdated →
    messagesAfter codec s.db row.id r.offset = r.messages
  whole   : WholeUsers codec s.db

theorem Phase.reading?_eq_some {phase : Phase} {r : Reading} :
    r ∈ phase.reading? ↔ ∃ pending, phase = .reading r pending := by
  cases phase with
  | reading r' pending => simp [Phase.reading?]
  | _ => simp [Phase.reading?]

/-- A session that was not there has no messages. -/
theorem Grown.unknown {codec : Codec} {now : Nat} {db db' : Db} {touched : Option String}
    (h : Grown codec now db db' touched) (hdb : DbOk codec db) {session : String}
    (hnew : session ∉ db.sessions.map SessionRow.id) : ∀ m ∈ db'.messages, m.session ≠ session := by
  obtain ⟨f, new, heq, hkeeps, -, -, -, hfresh⟩ := h.messages
  intro m hm hsession
  rw [heq] at hm
  rcases List.mem_append.1 hm with hm | hm
  · obtain ⟨m₀, hm₀, rfl⟩ := List.mem_map.1 hm
    rw [(hkeeps m₀).2.1] at hsession
    exact hnew (hsession ▸ hdb.sessions m₀ hm₀)
  · exact hnew (hsession ▸ (hfresh m hm).2.2.1)

theorem messagesAfter_unknown {codec : Codec} {db : Db} (h : DbOk codec db) {session : String}
    (hnone : ∀ m ∈ db.messages, m.session ≠ session) (after : Nat) : messagesAfter codec db session after = [] := by
  have hrows : db.rowsAfter session after = [] := by
    rw [h.rowsAfter, List.filter_eq_nil_iff]
    intro m hm hkeep
    exact hnone m hm (of_decide_eq_true hkeep).1
  rw [messagesAfter, hrows]
  rfl

theorem WholeUsers.write {codec : Codec} {now : Nat} {db db' : Db} {w : Write} (h : WholeUsers codec db)
    (hdb : DbOk codec db) (hwhole : w.whole codec) (hwrite : write codec now db w = some db') :
    WholeUsers codec db' := by
  have hmono : ∀ {parts new : List PartRow} {m : MessageRow}, (parts.any fun p => p.messageId = m.id) = true →
      ((parts ++ new).any fun p => p.messageId = m.id) = true := by
    intro parts new m hparts
    rw [List.any_append, hparts, Bool.true_or]
  cases w with
  | session name =>
    simp only [Opencode.write] at hwrite
    split_ifs at hwrite
    cases hwrite
    exact h
  | message row parts =>
    simp only [Opencode.write] at hwrite
    split_ifs at hwrite with hfresh
    cases hwrite
    intro m hm hrole
    rcases List.mem_append.1 hm with hm | hm
    · exact hmono (h m hm hrole)
    · rw [List.mem_singleton.1 hm] at hrole ⊢
      obtain ⟨p, hp⟩ := List.exists_mem_of_ne_nil parts (hwhole.resolve_left hrole)
      have hid := hfresh.2.2.2.2 p hp
      exact List.any_eq_true.2 ⟨p, List.mem_append_right _ hp, by simpa using hid⟩
  | part part =>
    simp only [Opencode.write] at hwrite
    split at hwrite
    · cases hwrite
    · split_ifs at hwrite
      cases hwrite
      intro m hm hrole
      exact hmono (h m hm hrole)
  | update id raw =>
    simp only [Opencode.write] at hwrite
    split at hwrite
    · cases hwrite
    · rename_i found hfound
      split_ifs at hwrite with hopen
      cases hwrite
      intro m hm hrole
      obtain ⟨m₀, hm₀, rfl⟩ := List.mem_map.1 hm
      by_cases hid : m₀.id = id
      · have hfoundId : found.id = id := by simpa using List.find?_some hfound
        have hsame : m₀ = found :=
          List.inj_on_of_nodup_map hdb.ids hm₀ (List.mem_of_find?_eq_some hfound) (hid.trans hfoundId.symm)
        rw [if_pos hid, hsame] at hrole
        exact absurd hopen.2 hrole
      · rw [if_neg hid] at hrole ⊢
        exact h m₀ hm₀ hrole

theorem CaughtUp.write {codec : Codec} {s : State} {db' : Db} {touched : Option String} (h : CaughtUp codec s)
    (hinv : Inv codec s) (hgrown : Grown codec s.now s.db db' touched)
    (hunread : ∀ session ∈ touched, Unread s session) (hwhole : WholeUsers codec db') :
    CaughtUp codec { s with db := db' } := by
  refine ⟨fun row' hrow' cursor hcursor hmodified => ?_, fun r hr row' hrow' hid hmodified => ?_, hwhole⟩
  · rcases hgrown.sessions row' hrow' with ⟨row, hrow, hid, hkept, hnow⟩ | hnew
    · by_cases htouched : touched = some row.id
      · exact absurd (hmodified.trans (hnow htouched)) ((hunread row.id htouched).1 cursor (hid ▸ hcursor))
      · rw [← hid] at hcursor ⊢
        rw [hkept htouched] at hmodified
        exact (hgrown.messagesAfter_eq hinv.db htouched _).trans (h.stored row hrow cursor hcursor hmodified)
    · exact messagesAfter_unknown (hgrown.dbOk hinv.db) (hgrown.unknown hinv.db hnew) _
  · rcases hgrown.sessions row' hrow' with ⟨row, hrow, hsame, hkept, hnow⟩ | hnew
    · by_cases htouched : touched = some row.id
      · exact absurd (hmodified.trans (hnow htouched)) ((hunread row.id htouched).2 r hr (hid.symm.trans hsame.symm))
      · rw [hkept htouched] at hmodified
        rw [← hsame] at hid ⊢
        exact (hgrown.messagesAfter_eq hinv.db htouched _).trans (h.reading r hr row hrow hid hmodified)
    · have hnone := hgrown.unknown hinv.db hnew
      rw [messagesAfter_unknown (hgrown.dbOk hinv.db) hnone]
      obtain ⟨pending, hphase⟩ := Phase.reading?_eq_some.1 hr
      have hmessages := (hinv.reading r pending hphase).messages
      symm
      rw [hmessages, Db.projected, List.filter_eq_nil_iff]
      intro m hm hkeep
      have hknown := hinv.db.sessions m hm
      rw [(of_decide_eq_true hkeep).1, ← hid] at hknown
      exact hnew hknown

/-- A commit of all there is to read leaves nothing behind its cursor. -/
theorem behind_nextCursor {codec : Codec} {s : State} (hdb : DbOk codec s.db) {r : Reading}
    (hread : messagesAfter codec s.db r.row.id r.offset = r.messages) :
    messagesAfter codec s.db r.row.id r.nextCursor = [] := by
  have hbehind := messagesAfter_behind hdb r.row.id r.offset
  rw [hread] at hbehind
  exact hbehind

theorem CaughtUp.pass {codec : Codec} {s s' : State} {e : PassEvent} (h : CaughtUp codec s) (hinv : Inv codec s)
    (hstep : PassStep codec s e s') : CaughtUp codec s' := by
  cases hstep with
  | select hphase => exact ⟨h.stored, (fun r hr => nomatch hr), h.whole⟩
  | sizes hphase => exact ⟨h.stored, (fun r hr => nomatch hr), h.whole⟩
  | openNext hphase =>
    refine ⟨h.stored, fun r hr row hrow hid _ => ?_, h.whole⟩
    cases hr
    rw [hid]
    rfl
  | batch hphase =>
    refine ⟨h.stored, fun r' hr row hrow hid hmodified => ?_, h.whole⟩
    cases hr
    exact h.reading _ (Phase.reading?_eq_some.2 ⟨_, hphase⟩) row hrow hid hmodified
  | @commit r pending hphase htodo =>
    refine ⟨fun row hrow cursor hcursor hmodified => ?_, (fun r hr => nomatch hr), h.whole⟩
    have hlookup : Function.update s.cursors r.row.id
      (some ⟨r.nextCursor, r.row.timeUpdated, projectionVersion⟩) row.id =
        some cursor := hcursor
    by_cases hid : row.id = r.row.id
    · rw [hid, Function.update_self] at hlookup
      cases hlookup
      have hread := h.reading r (Phase.reading?_eq_some.2 ⟨_, hphase⟩) row hrow hid hmodified
      rw [hid] at hread ⊢
      exact behind_nextCursor hinv.db hread
    · rw [Function.update_of_ne hid] at hlookup
      exact h.stored row hrow cursor hlookup hmodified
  | finish hphase => exact ⟨h.stored, (fun r hr => nomatch hr), h.whole⟩
  | stop => exact ⟨h.stored, (fun r hr => nomatch hr), h.whole⟩

theorem caughtUp_start (codec : Codec) (now : Nat) : CaughtUp codec (start now) :=
  ⟨fun _ hrow => (List.not_mem_nil hrow).elim, (fun _ hr => nomatch hr), fun _ hm => (List.not_mem_nil hm).elim⟩

/-- The transitions of a sync and of OpenCode. -/
abbrev Step (codec : Codec) (s : State) (e : Event) (s' : State) : Prop := step codec s e = some s'

theorem caughtUp_step (codec : Codec) (s : State) (e : Event) (s' : State) (h : Inv codec s ∧ CaughtUp codec s)
    (hstep : guarded (Quiet codec) (Step codec) s e s') : Inv codec s' ∧ CaughtUp codec s' := by
  obtain ⟨hinv, hcaught⟩ := h
  obtain ⟨hquiet, hstep⟩ := hstep
  refine ⟨inv_step codec s e s' hinv hstep, ?_⟩
  cases e with
  | tick ms =>
    cases hstep
    exact ⟨hcaught.stored, hcaught.reading, hcaught.whole⟩
  | write w =>
    obtain ⟨db', hdb', rfl⟩ := Option.map_eq_some_iff.1 hstep
    exact hcaught.write hinv (write_grown hinv.db hdb') hquiet.1 (hcaught.whole.write hinv.db hquiet.2 hdb')
  | pass e => exact hcaught.pass hinv (passStep_cases hstep)

/-! ## What a pass still comes to -/

def Phase.Awaits : Phase → SessionRow → Prop
  | .idle, _ => False
  | .selected known changed, row => row ∈ changed ∧ needsSync known row = true
  | .working pending, row => row ∈ pending
  | .reading r pending, row => row = r.row ∨ row ∈ pending

/-- A session has nothing to read, or the pass comes to it. -/
structure Left (codec : Codec) (s : State) : Prop where
  read : ∀ r ∈ s.phase.reading?, messagesAfter codec s.db r.row.id r.offset = r.messages
  left : ∀ row ∈ s.db.sessions, messagesAfter codec s.db row.id (offsetOf s row.id) = [] ∨ s.phase.Awaits row

/-- A session that the selection takes is synced: the decision asks for no more. -/
theorem needed_of_needsSync {known : Cursors} {row : SessionRow} (h : needsSync known row = true) (size : Nat) :
    (decideSync known row size).needed = true := by
  rw [needsSync] at h
  rw [decideSync]
  cases hknown : known row.id with
  | none => rfl
  | some cursor =>
    rw [hknown] at h
    rcases Bool.or_eq_true_iff.1 h with hmodified | hversion
    · simp [SyncDecision.needed, hmodified]
    · simp [SyncDecision.needed, hversion]

/-- A session that the selection passes over has nothing to read. -/
theorem CaughtUp.passed {codec : Codec} {s : State} (h : CaughtUp codec s) {row : SessionRow}
    (hrow : row ∈ s.db.sessions) (hpassed : needsSync s.cursors row = false) :
    messagesAfter codec s.db row.id (offsetOf s row.id) = [] := by
  rw [needsSync] at hpassed
  cases hcursor : s.cursors row.id with
  | none => simp [hcursor] at hpassed
  | some cursor =>
    have hmodified : cursor.modifiedMs = row.timeUpdated := by
      by_contra hne
      simp [hcursor, hne] at hpassed
    have hoffset : offsetOf s row.id = cursor.offset := by simp [offsetOf, hcursor]
    rw [hoffset]
    exact h.stored row hrow cursor hcursor hmodified

/-- Neither a write nor the end of a pass before its end. -/
def Event.reads : Event → Bool
  | .tick _ => true
  | .write _ => false
  | .pass .stop => false
  | .pass _ => true

theorem Left.select {codec : Codec} {s s' : State} (h : CaughtUp codec s) (hstep : PassStep codec s .select s') :
    Left codec s' := by
  cases hstep with
  | select hphase =>
    refine ⟨(fun r hr => nomatch hr), fun row hrow => ?_⟩
    by_cases hneeds : needsSync s.cursors row = true
    · exact .inr ⟨List.mem_filter.2 ⟨hrow, hneeds⟩, hneeds⟩
    · exact .inl (h.passed hrow (by simpa using hneeds))

theorem Left.commit {codec : Codec} {s : State} {r : Reading} {pending : List SessionRow} (h : Left codec s)
    (hdb : DbOk codec s.db) (hphase : s.phase = .reading r pending) :
    Left codec { commitSession s r with phase := .working pending } := by
  refine ⟨(fun r hr => nomatch hr), fun row hrow => ?_⟩
  have hoffset : offsetOf { commitSession s r with phase := .working pending } row.id =
      if row.id = r.row.id then r.nextCursor else offsetOf s row.id := offsetOf_commit s r row.id
  by_cases hid : row.id = r.row.id
  · left
    rw [hoffset, if_pos hid, hid]
    exact behind_nextCursor hdb (h.read r (Phase.reading?_eq_some.2 ⟨_, hphase⟩))
  · rw [hoffset, if_neg hid]
    have hrest := h.left row hrow
    rw [hphase] at hrest
    exact hrest.imp_right fun hawaits => hawaits.resolve_left fun heq => hid (congrArg SessionRow.id heq)

theorem Left.pass {codec : Codec} {s s' : State} {e : PassEvent} (h : Left codec s) (hinv : Inv codec s)
    (hcaught : CaughtUp codec s) (hreads : (Event.pass e).reads = true) (hstep : PassStep codec s e s') :
    Left codec s' := by
  cases hstep with
  | select hphase => exact .select hcaught (.select hphase)
  | sizes hphase =>
    refine ⟨(fun r hr => nomatch hr), fun row hrow => ?_⟩
    have hrest := h.left row hrow
    rw [hphase] at hrest
    exact hrest.imp_right fun hawaits => List.mem_filter.2 ⟨hawaits.1, needed_of_needsSync hawaits.2 _⟩
  | openNext hphase =>
    refine ⟨fun r hr => ?_, fun row hrow => ?_⟩
    · cases hr
      rfl
    · have hrest := h.left row hrow
      rw [hphase] at hrest
      exact hrest.imp_right List.mem_cons.1
  | @batch r pending hphase =>
    refine ⟨fun r' hr => ?_, fun row hrow => ?_⟩
    · cases hr
      exact h.read r (Phase.reading?_eq_some.2 ⟨_, hphase⟩)
    · have hrest := h.left row hrow
      rw [hphase] at hrest
      exact hrest
  | commit hphase htodo => exact h.commit hinv.db hphase
  | finish hphase =>
    refine ⟨(fun r hr => nomatch hr), fun row hrow => .inl ?_⟩
    have hrest := h.left row hrow
    rw [hphase] at hrest
    exact hrest.resolve_right List.not_mem_nil
  | stop => cases hreads

theorem left_step (codec : Codec) (s : State) (e : Event) (s' : State)
    (h : (Inv codec s ∧ CaughtUp codec s) ∧ Left codec s)
    (hstep : guarded (fun _ e => e.reads = true) (Step codec) s e s') :
    (Inv codec s' ∧ CaughtUp codec s') ∧ Left codec s' := by
  obtain ⟨⟨hinv, hcaught⟩, hleft⟩ := h
  obtain ⟨hreads, hstep⟩ := hstep
  cases e with
  | tick ms =>
    refine ⟨caughtUp_step codec s (.tick ms) s' ⟨hinv, hcaught⟩ ⟨trivial, hstep⟩, ?_⟩
    cases hstep
    exact ⟨hleft.read, hleft.left⟩
  | write w => cases hreads
  | pass e =>
    refine ⟨caughtUp_step codec s (.pass e) s' ⟨hinv, hcaught⟩ ⟨trivial, hstep⟩, ?_⟩
    exact hleft.pass hinv hcaught hreads (passStep_cases hstep)

/-! ## Every run -/

/-- What is projected of a session. -/
def State.projected (s : State) (session : String) : List MessageRow := s.db.projected session 0 (offsetOf s session)

/-- No message of its session up to this may still change. -/
def SettledUpTo (codec : Codec) (db : Db) (m : MessageRow) : Prop :=
  ∀ m' ∈ db.messages, m'.session = m.session → m'.rowid ≤ m.rowid → ¬ Incomplete codec m'

instance (codec : Codec) (db : Db) (m : MessageRow) : Decidable (SettledUpTo codec db m) :=
  inferInstanceAs (Decidable (∀ _ ∈ _, _))

/-- At the end of a pass every message with parts before the first that may still change is projected. -/
theorem projected_of_left {codec : Codec} {s : State} (hinv : Inv codec s) (hcaught : CaughtUp codec s)
    (hleft : Left codec s) (hidle : s.phase = .idle) {m : MessageRow} (hm : m ∈ s.db.messages)
    (hparts : s.db.hasParts m) (hsettled : SettledUpTo codec s.db m) : m ∈ s.projected m.session := by
  obtain ⟨row, hrow, hid⟩ := List.mem_map.1 (hinv.db.sessions m hm)
  have hnothing := hleft.left row hrow
  rw [hidle, hid] at hnothing
  replace hnothing := hnothing.resolve_right id
  refine mem_projected.2 ⟨hm, rfl, hinv.db.positive m hm, ?_, hparts⟩
  by_contra hlt
  have hin := hinv.db.mem_rowsAfter.2 ⟨hm, rfl, not_le.1 hlt⟩
  obtain ⟨m', hm', hle, hblocks, hopen⟩ :=
    projectable_nil hnothing hin (hinv.db.rowsAfter_rising _ _) hparts
  obtain ⟨hrow', hsession, -⟩ := hinv.db.mem_rowsAfter.1 hm'
  have hdone := hsettled m' hrow' hsession hle
  -- the end of the walk is a message without parts, which only a complete one of the assistant can be
  have hbare : ¬ s.db.hasParts m' := by
    refine hopen.resolve_right fun hopen => ?_
    exact hdone ⟨hopen.2.1, by simpa using hopen.2.2⟩
  by_cases hrole : role codec m' = "assistant"
  · refine hblocks ⟨hrole, ?_, hbare⟩
    by_contra hcomplete
    exact hdone ⟨hrole, by simpa using hcomplete⟩
  · exact hbare (hcaught.whole m' hrow' hrole)

/-- In each run whose steps meet the condition, a pass without a write has projected all it could. -/
def LeavesNothing (codec : Codec) (now : Nat) (ok : State → Event → Prop) : Prop :=
  ∀ (as bs : List Event) (s t : State), Run (guarded ok (Step codec)) (start now) as s → s.phase = .idle →
    (∀ e ∈ bs, e.reads = true) → Run (Step codec) s (.pass .select :: bs) t → t.phase = .idle →
    ∀ m ∈ t.db.messages, t.db.hasParts m → SettledUpTo codec t.db m → m ∈ t.projected m.session

/-- What is written is each message up to the cursor that has parts, once, in rowid order and with its parts. -/
def WholeOnce (codec : Codec) (s : State) : Prop :=
  ∀ session, Rising (s.projected session) ∧
    s.log session = (s.projected session).flatMap (wholeCalls (partsOf codec s.db))

/-- **What a sync of OpenCode projects is whole and once, and a pass leaves nothing behind as long as no write falls
into the millisecond its session was last read with.** -/
theorem projected_once (codec : Codec) (now : Nat) :
    (∀ (as : List Event) (s : State), Run (Step codec) (start now) as s → WholeOnce codec s) ∧
      LeavesNothing codec now (Quiet codec) := by
  refine ⟨fun as s hrun session => ?_, fun as bs s t hrun hidle hreads hpass hend m hm hparts hsettled => ?_⟩
  · have hinv := hrun.invariant (inv_step codec) (inv_start codec now)
    exact ⟨hinv.db.rising.filter _, hinv.log session⟩
  · have hs := hrun.invariant (caughtUp_step codec) ⟨inv_start codec now, caughtUp_start codec now⟩
    cases hpass with
    | cons hselect hrest =>
      have hu := caughtUp_step codec s (.pass .select) _ hs ⟨trivial, hselect⟩
      have hleft := Left.select hs.2 (passStep_cases hselect)
      have ht := (hrest.guard fun e he _ => hreads e he).invariant (left_step codec) ⟨hu, hleft⟩
      exact projected_of_left ht.1.1 ht.1.2 ht.2 hend hm hparts hsettled

def userData : Bytes := asciiLine "\x7b\"role\":\"user\"\x7d"
def doneData : Bytes := asciiLine "\x7b\"role\":\"assistant\",\"finish\":\"stop\"\x7d"
def textData : Bytes := asciiLine "\x7b\"type\":\"text\",\"text\":\"hi\"\x7d"

/-- What the parser says of these three. -/
def threeRows : Codec where
  fromSlice raw := List.lookup raw
    [(userData, .obj [("role", .str "user")]),
      (doneData, .obj [("role", .str "assistant"), ("finish", .str "stop")]),
      (textData, .obj [("type", .str "text"), ("text", .str "hi")])]
  toText _ := ""
  parseIsoMs _ := none

def question : MessageRow := ⟨1, "m1", "s", 5, userData⟩
def answer : MessageRow := ⟨2, "m2", "s", 5, doneData⟩

/-- A pass has read the question when the answer comes, so many milliseconds after it. -/
def answered (later : Nat) : List Event :=
  [.write (.session "s"), .write (.message question [⟨"p1", "m1", textData⟩]), .pass .select, .pass .sizes,
    .pass .openNext, .tick later, .write (.message answer [⟨"p2", "m2", textData⟩]), .pass .batch, .pass .commit,
    .pass .finish]

def passOver : List Event := [.pass .select, .pass .sizes, .pass .openNext, .pass .batch, .pass .commit, .pass .finish]

instance : (phase : Phase) → Decidable (phase = .idle)
  | .idle => .isTrue rfl
  | .selected _ _ | .working _ | .reading _ _ => .isFalse fun h => nomatch h

def answeredLater : State :=
  (exec (fun s e => if Quiet threeRows s e then step threeRows s e else none) (start 5) (answered 1)).get
    (by decide +kernel)

def syncedLater : State := (exec (step threeRows) answeredLater passOver).get (by decide +kernel)

/-- An answer of the next millisecond is projected by the next pass. -/
theorem projected_once_later :
    Run (guarded (Quiet threeRows) (Step threeRows)) (start 5) (answered 1) answeredLater ∧
      Run (Step threeRows) answeredLater passOver syncedLater ∧ answer ∈ syncedLater.projected "s" := by
  have hrun : Run (guarded (Quiet threeRows) (Step threeRows)) (start 5) (answered 1) answeredLater :=
    run_of_exec_guarded (Option.some_get _).symm
  have hpass : Run (Step threeRows) answeredLater passOver syncedLater :=
    run_of_exec (fun _ _ _ h => h) (Option.some_get _).symm
  refine ⟨hrun, hpass, ?_⟩
  exact (projected_once threeRows 5).2 _ _ _ _ hrun (by decide +kernel) (by decide) hpass (by decide +kernel) answer
    (by decide +kernel) (by decide +kernel) (by decide +kernel)

def answeredAtOnce : State := (exec (step threeRows) (start 5) (answered 0)).get (by decide +kernel)

def syncedAtOnce : State :=
  (exec (step threeRows) answeredAtOnce [.pass .select, .pass .sizes, .pass .finish]).get (by decide +kernel)

/-- An answer of the millisecond in which the session was read is left out by the next pass, though nothing of it may
still change. -/
theorem same_millisecond : ¬ LeavesNothing threeRows 5 fun _ _ => True := by
  have hrun : Run (guarded (fun _ _ => True) (Step threeRows)) (start 5) (answered 0) answeredAtOnce :=
    (run_of_exec (fun _ _ _ h => h) (Option.some_get _).symm).guard fun _ _ _ => trivial
  have hpass : Run (Step threeRows) answeredAtOnce [.pass .select, .pass .sizes, .pass .finish] syncedAtOnce :=
    run_of_exec (fun _ _ _ h => h) (Option.some_get _).symm
  intro h
  have hanswer := h _ _ _ _ hrun (by decide +kernel) (by decide) hpass (by decide +kernel) answer
    (by decide +kernel) (by decide +kernel) (by decide +kernel)
  exact absurd hanswer (by decide +kernel)

end BoopHarness.Opencode
