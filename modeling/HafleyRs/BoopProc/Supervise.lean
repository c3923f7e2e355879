import HafleyRs.BoopStore.Mail
import HafleyRs.Lib.Machine

/-!
# The turn loop of a supervisor (`crates/boop-proc/src/supervise.rs`)

| here | there |
| --- | --- |
| `Hail`, `pending`, `retainActiveReminders`, `ack` | 589, 607, 3102, over the rows of `agent_mail` |
| `renderMail`, `hailText` | 631, 664 |
| `startAckWord`, `startAckFailed`, `emptyBriefTurn`, `resumeText` | 171, 178, 204, 247 |
| `opening` | the first turn's text (1140-1182) |
| `startTurn` | 1212-1261 |
| `poll`, `take` | the inbox drain of a running turn (1561-1680), one hail at a time |
| `settle`, `nextTurn` | what follows a turn's end (1722-1836, 1952-1967) |
| `park` | one turn of the parked loop (1838-1950) |

A world belongs to one lane. `leave` is any return that touches no mail: the deadline, a dead parent, an error of
the channel or of the mailbox. `finish` is a turn's end, from the channel or from the stall bound. Mail arrives
between any two steps, and another process may acknowledge a row. Acknowledgements of the supervisor are written.
`turns` (newest first), `midTurn` and `returned` record what happened, and are read by no step.
-/

namespace BoopProc.Supervise
open BoopStore

/-! ## Mail -/

structure Hail where
  id     : String
  sender : String
  kind   : String
  body   : String
deriving DecidableEq, Repr

abbrev Mail := Table Message.id

/-- The insert of a row, and what a row of a known id changes. -/
def arriveMerge : Merge Message.id where
  run old excluded :=
    { old with
      toTimestamp := excluded.toTimestamp <|> old.toTimestamp
      kind := excluded.kind
      body := excluded.body
      replyTo := excluded.replyTo
      ref := excluded.ref
      rc := excluded.rc
      detail := excluded.detail }
  keeps _ _ h := h

def ackRow (id stamp : String) (m : Message) : Message :=
  if m.id = id ∧ m.toTimestamp = none then { m with toTimestamp := some stamp } else m

theorem ackRow_id (id stamp : String) (m : Message) : (ackRow id stamp m).id = m.id := by
  unfold ackRow
  split <;> rfl

def ack (mail : Mail) (id stamp : String) : Mail := mail.update (ackRow id stamp) (ackRow_id id stamp)

def deliverable (kind : String) : Bool := kind ∈ ["request", "hail", "note", "retry", "resume", "cancel"]

def Hail.ofMessage (m : Message) : Hail := ⟨m.id, m.fromRoute, m.kind.asStr, m.body⟩

def messagesForRoute (mail : Mail) (route : String) : List Message :=
  mail.rows.filter fun m => m.toRoute = route

def pending (mail : Mail) (lane : String) (seen : List String) : List Hail :=
  ((((unacked (messagesForRoute mail lane)).filter fun m => m.toRoute = lane).filter fun m => m.id ∉ seen).filter
    fun m => deliverable m.kind.asStr).map Hail.ofMessage

def Hail.isReminder (h : Hail) : Bool := "reminder:".toList.isPrefixOf h.sender.toList

def retainActiveReminders (mail : Mail) (held : List Hail) : List Hail :=
  held.filter fun h => !h.isReminder || mail.rows.any fun m => m.id = h.id && m.toTimestamp.isNone

/-! ## Texts -/

/-- `str::replace`: `skip` characters of a match are still to be passed over. -/
def replaceFrom (pat rep : List Char) : Nat → List Char → List Char
  | _, [] => []
  | skip + 1, _ :: s => replaceFrom pat rep skip s
  | 0, c :: s => if pat.isPrefixOf (c :: s) then rep ++ replaceFrom pat rep (pat.length - 1) s
    else c :: replaceFrom pat rep 0 s

def replace (s pat rep : String) : String := .ofList (replaceFrom pat.toList rep.toList 0 s.toList)

def renderMail (template kind id sender body : String) : String :=
  replace (replace (replace (replace template "\x7bkind\x7d" kind) "\x7bid\x7d" id) "\x7bfrom\x7d" sender)
    "\x7bbody\x7d" body

def hailText (h : Hail) (template : String) : String := renderMail template h.kind h.id h.sender h.body

/-- `join("\n\n")` -/
def joinParagraphs : List String → String
  | [] => ""
  | [s] => s
  | s :: rest => s ++ "\n\n" ++ joinParagraphs rest

def startAckPrompt : String :=
  "This is a transport readiness probe. Do not inspect the repository.\nRespond exactly with: boop\n" ++
    "Any tool call fails the probe. Do not reason, explain, or add punctuation."

def resumeNudge : String :=
  "The previous turn ended on a provider error you never saw. " ++
    "Re-read your last steps and continue the brief from where you left off."

def reviveText : String :=
  "You were paused after finishing and are now resumed. " ++
    "No new instruction has arrived yet; reply with the single word ready."

def resumeText (briefCompleted : Bool) (conversation : Option String) (brief : String) : String :=
  match briefCompleted, conversation with
  | true, some _ => resumeNudge
  | _, _ => brief

/-! ## The ends of turns -/

structure TurnReceipt where
  text      : String
  toolCalls : Nat
deriving DecidableEq, Repr

inductive TurnEnd where
  | done (detail : String) (receipt : Option TurnReceipt)
  | failed (detail : String)
  | flaked (detail : String)
deriving DecidableEq, Repr

namespace TurnEnd

def isDone : TurnEnd → Bool
  | done _ _ => true
  | _ => false

def retryable : TurnEnd → Bool
  | flaked _ => true
  | _ => false

def receipt : TurnEnd → Option TurnReceipt
  | done _ receipt => receipt
  | _ => none

end TurnEnd

def trim (s : List Char) : List Char := ((s.dropWhile isWhitespace).reverse.dropWhile isWhitespace).reverse

/-- `strip_suffix(['.', '!', '?'])` -/
def stripMark (s : List Char) : List Char :=
  match s.getLast? with
  | some c => if c = '.' ∨ c = '!' ∨ c = '?' then s.dropLast else s
  | none => s

def startAckWord (text : String) : Bool := (stripMark (trim text.toList)).map Char.toLower = "boop".toList

def startAckFailed (e : TurnEnd) : Bool :=
  match e.receipt with
  | some r => !(startAckWord r.text && r.toolCalls = 0)
  | none => true

def emptyBriefTurn (e : TurnEnd) : Bool :=
  match e.receipt with
  | some r => r.toolCalls = 0 && (trim r.text.toList).length < 32
  | none => false

def flakeResumeCap : Nat := 5

def emptyBriefRefeeds : Nat := 1

/-! ## The loop -/

inductive Delivery where
  | midTurn | nextTurn
deriving DecidableEq, Repr

inductive Phase where
  | starting
  | running
  | ended (e : TurnEnd)
  | parked (e : TurnEnd)
  | over
deriving DecidableEq, Repr

/-- A turn the harness was given: its text, the hails it opened with, and its end. -/
structure Turn where
  text   : String
  hails  : List Hail
  ending : Option TurnEnd
deriving DecidableEq, Repr

def Turn.flaked (t : Turn) : Bool := t.ending.any TurnEnd.retryable

structure LaneRun where
  lane  : String
  brief : String
  mood  : String
deriving DecidableEq, Repr

structure World where
  phase            : Phase
  turn             : String
  openingHails     : List Hail
  inbox            : List Hail
  held             : List Hail
  seen             : List String
  startAckPending  : Bool
  briefCompleted   : Bool
  briefTurnPending : Bool
  flakeResumes     : Nat
  emptyBriefs      : Nat
  resultWritten    : Bool
  mail             : Mail
  turns            : List Turn
  midTurn          : List Hail
  returned         : List Hail

namespace World

/-- The start of `supervise`: a fresh lane, one that resumes, or one revived from its retirement. -/
def opening (lane : LaneRun) (resume : Option String) (revived : Bool) (mail : Mail) : World :=
  let arrived := if resume.isSome && revived then pending mail lane.lane [] else []
  let turn := match resume with
    | none => startAckPrompt
    | some _ =>
      if revived then
        (if arrived.isEmpty then reviveText else joinParagraphs (arrived.map fun h => hailText h lane.mood))
      else resumeNudge
  ⟨.starting, turn, arrived, [], [], arrived.map Hail.id, resume.isNone, resume.isSome, resume.isNone, 0, 0, false,
    mail, [], [], arrived⟩

def startTurn (w : World) (stamp : String) : World :=
  { w with
    phase := .running
    turns := ⟨w.turn, w.openingHails, none⟩ :: w.turns
    mail := w.openingHails.foldl (fun mail h => ack mail h.id stamp) w.mail
    openingHails := [] }

def poll (lane : LaneRun) (w : World) : World :=
  let arrived := pending w.mail lane.lane w.seen
  { w with inbox := arrived, returned := w.returned ++ arrived }

/-- One hail of the inbox: `interrupted` is whether the channel's interrupt works, `steered` its answer to a steer. -/
def take (w : World) (hail : Hail) (rest : List Hail) (interrupted : Bool) (steered : Option Delivery)
    (stamp : String) : World :=
  let w := { w with inbox := rest, seen := w.seen ++ [hail.id] }
  if w.startAckPending then { w with held := w.held ++ [hail] }
  else if hail.kind = "cancel" then
    (if interrupted then { w with held := w.held ++ [hail] } else { w with phase := .over })
  else if hail.kind = "resume" ∧ hail.body = "resource-guard" then w
  else match steered with
    | some .midTurn => { w with midTurn := w.midTurn ++ [hail], mail := ack w.mail hail.id stamp }
    | _ => { w with held := w.held ++ [hail] }

def endTurn (w : World) (e : TurnEnd) : World :=
  { w with
    phase := .ended e
    turns := match w.turns with
      | t :: turns => { t with ending := some e } :: turns
      | [] => [] }

/-- The held rows open the next turn. -/
def nextTurn (lane : LaneRun) (w : World) : World :=
  { w with
    phase := .starting
    openingHails := w.held
    turn := joinParagraphs (w.held.map fun h => hailText h lane.mood)
    held := [] }

/-- The rows that wait are claimed into `held`. -/
def claim (lane : LaneRun) (w : World) : World :=
  let arrived := pending w.mail lane.lane w.seen
  { w with
    seen := w.seen ++ arrived.map Hail.id
    held := w.held ++ arrived
    returned := w.returned ++ arrived }

/-- The readiness probe is answered: the brief and what was held until then. -/
def acknowledged (lane : LaneRun) (w : World) : World :=
  let arrived := retainActiveReminders w.mail w.held
  { w with
    phase := .starting
    startAckPending := false
    openingHails := arrived
    turn := joinParagraphs (lane.brief :: arrived.map fun h => hailText h lane.mood)
    held := [] }

/-- The turn boundary: what waits is claimed, and a lane with nothing held exits or parks. -/
def boundary (lane : LaneRun) (w : World) (e : TurnEnd) : World :=
  let w := w.claim lane
  let w := { w with held := retainActiveReminders w.mail w.held }
  if w.held = [] then
    (if e.isDone then { w with phase := .parked e, resultWritten := w.resultWritten || w.briefCompleted }
    else { w with phase := .over })
  else w.nextTurn lane

/-- `conversation` is the channel's id, `nothing` whether the lane owes output and has produced none. -/
def settle (lane : LaneRun) (w : World) (e : TurnEnd) (conversation : Option String) (nothing : Bool) :
    World :=
  if w.startAckPending then
    (if startAckFailed e then { w with phase := .over } else w.acknowledged lane)
  else if w.briefTurnPending ∧ e.isDone ∧ emptyBriefTurn e ∧ nothing then
    (if w.emptyBriefs < emptyBriefRefeeds then
      { w with phase := .starting, emptyBriefs := w.emptyBriefs + 1, turn := lane.brief }
    else { w with phase := .over })
  else
    let w := if w.briefTurnPending ∧ e.isDone then { w with briefCompleted := true, briefTurnPending := false } else w
    if e.retryable ∧ w.flakeResumes < flakeResumeCap then
      { w with
        phase := .starting
        flakeResumes := w.flakeResumes + 1
        turn := resumeText w.briefCompleted conversation lane.brief }
    else w.boundary lane e

/-- `deadline` is whether the idle shutdown is due; it is armed by the result row. -/
def park (lane : LaneRun) (w : World) (deadline : Bool) : World :=
  if pending w.mail lane.lane w.seen = [] then
    (if deadline ∧ w.resultWritten then { w with phase := .over } else w)
  else (w.claim lane).nextTurn lane

end World

inductive Act where
  | arrive (m : Message)
  | acknowledge (id stamp : String)
  | startTurn (stamp : String)
  | poll
  | take (interrupted : Bool) (steered : Option Delivery) (stamp : String)
  | finish (e : TurnEnd)
  | settle (conversation : Option String) (nothing : Bool)
  | park (deadline : Bool)
  | leave

def step (lane : LaneRun) (w : World) : Act → Option World
  | .arrive m => some { w with mail := w.mail.upsert arriveMerge m }
  | .acknowledge id stamp => some { w with mail := ack w.mail id stamp }
  | .startTurn stamp => if w.phase = .starting then some (w.startTurn stamp) else none
  | .poll => if w.phase = .running ∧ w.inbox = [] then some (w.poll lane) else none
  | .take interrupted steered stamp => match w.inbox with
    | hail :: rest => if w.phase = .running then some (w.take hail rest interrupted steered stamp) else none
    | [] => none
  | .finish e => if w.phase = .running ∧ w.inbox = [] then some (w.endTurn e) else none
  | .settle conversation nothing => match w.phase with
    | .ended e => some (w.settle lane e conversation nothing)
    | _ => none
  | .park deadline => match w.phase with
    | .parked _ => some (w.park lane deadline)
    | _ => none
  | .leave => if w.phase = .over then none else some { w with phase := .over }

/-! ## What became of a hail -/

/-- The row of the hail is in the mailbox and no one has acknowledged it. -/
def Unacknowledged (mail : Mail) (h : Hail) : Prop := ∃ m ∈ mail.rows, m.id = h.id ∧ m.toTimestamp = none

def CarriedBy (lane : LaneRun) (t : Turn) (h : Hail) : Prop := (hailText h lane.mood).toList <:+: t.text.toList

/-- Accepted mid-turn, in the text of a turn that did not end as a flake, or unacknowledged. -/
def Kept (lane : LaneRun) (w : World) (h : Hail) : Prop :=
  h ∈ w.midTurn ∨ (∃ t ∈ w.turns, t.flaked = false ∧ CarriedBy lane t h) ∨ Unacknowledged w.mail h

instance (mail : Mail) (h : Hail) : Decidable (Unacknowledged mail h) := by
  unfold Unacknowledged
  infer_instance

instance (lane : LaneRun) (t : Turn) (h : Hail) : Decidable (CarriedBy lane t h) := by
  unfold CarriedBy
  infer_instance

instance (lane : LaneRun) (w : World) (h : Hail) : Decidable (Kept lane w h) := by
  unfold Kept
  infer_instance

end BoopProc.Supervise
