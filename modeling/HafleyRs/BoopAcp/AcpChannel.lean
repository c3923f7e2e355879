import HafleyRs.Lib.Machine

/-!
# The ACP channel (`crates/boop-acp/src/channel/acp.rs`) under the supervisor (`boop-proc/src/supervise.rs`)

| here | there |
| --- | --- |
| `TurnEvent`, `Delivery` | `channel.rs` 70 and the two rungs of a steer |
| `Command`, `Note` | acp 89, 98 |
| `codexSteer` | `codex_steer` (619), from the `outcome` the agent answers |
| `startTurn`, `steer`, `nextEvent`, `close` | `LaneChannel for AcpChannel` (260) |
| `receive`, `verdict`, `steered`, `fail` | the command loop of `connect` (560), `drive` (406) after an error |
| `claim`, `answered`, `gaveUp` | the inbox drain of `supervise` (1561) with `record_steer_outcome` (3132) |

The caller and the connection thread share two queues and the replies to steers. Each step is one action of one
of them, of the agent, or of the clock: a caller that waits for a reply takes it (`answered`) or runs out of its
ten seconds (`gaveUp`). A prompt carries the hails whose text is in it; its number is not in the code.
-/

namespace BoopAcp

inductive TurnEvent where
  | done (detail : String)
  | failed (detail : String)
  | flaked (detail : String)
deriving DecidableEq, Repr

inductive Delivery where
  | midTurn | nextTurn
deriving DecidableEq, Repr

abbrev Reply := Except String Delivery

inductive Command (H : Type) where
  | prompt (turn : Nat) (hails : List H)
  | steer (hail : H)
  | cancel
  | close
deriving DecidableEq, Repr

inductive Note where
  | turn (turn : Nat) (event : TurnEvent)
  | openFailed (detail : String)
deriving DecidableEq, Repr

/-- `response["outcome"]` of a steering request, or the error it ended in. -/
def codexSteer : Except String (Option String) → Reply
  | .error message => .error message
  | .ok (some "injected") => .ok .midTurn
  | .ok (some "startedNewTurn") => .ok .midTurn
  | .ok (some "failed") => .error "Codex ACP _session/steering returned outcome failed"
  | .ok outcome => .error s!"Codex ACP steering returned unexpected outcome {reprStr outcome}"

/-- The connection thread: at its loop, in a prompt, in a steering request within one, or gone. -/
inductive Driver (H : Type) where
  | ready
  | prompting (turn : Nat)
  | steering (turn : Nat) (hail : H)
  | exited
deriving DecidableEq, Repr

inductive Caller (H : Type) where
  | idle
  | steering (hail : H)
  | closed
deriving DecidableEq, Repr

/-- `outcomes` is what the supervisor made of each steer (`none` for an error), `sent` what the agent was sent,
    `verdicts` each verdict `next_event` returned: the turn it was returned in, and the one it is of, if it is
    not the end of the connection. -/
structure AcpWorld (H : Type) where
  codexSteering : Bool
  commands      : List (Command H)
  notes         : List Note
  replies       : List (H × Reply)
  driver        : Driver H
  caller        : Caller H
  turnRunning   : Bool
  turn          : Nat
  seen          : List H
  held          : List H
  outcomes      : List (H × Option Delivery)
  sent          : List (Command H)
  verdicts      : List (Nat × Option Nat)
deriving DecidableEq

/-- How the supervisor takes a claimed hail: by a steer, into the next turn, or there with an interrupt. -/
inductive Claim where
  | steer | hold | cancel
deriving DecidableEq, Repr

inductive AcpAct (H : Type) where
  | startTurn (resume : Bool)
  | claim (hail : H) (as' : Claim)
  | answered
  | gaveUp
  | nextEvent
  | close
  | receive
  | verdict (event : TurnEvent)
  | steered (response : Except String (Option String))
  | fail (detail : String)

namespace AcpWorld
variable {H : Type} [DecidableEq H] (w : AcpWorld H)

/-- A channel whose session is open. -/
def opened (codexSteering : Bool) : AcpWorld H :=
  ⟨codexSteering, [], [], [], .ready, .idle, false, 0, [], [], [], [], []⟩

/-- The thread ends, and its queue goes with it. -/
def exit : AcpWorld H := { w with driver := .exited, commands := [] }

/-- The supervisor starts a turn with the hails it holds, or resumes a flaked one without them. -/
def startTurn (resume : Bool) : AcpWorld H :=
  if w.driver = .exited then { w with caller := .closed }
  else { w with
    commands := w.commands ++ [.prompt (w.turn + 1) (if resume then [] else w.held)]
    held := if resume then w.held else []
    turn := w.turn + 1
    turnRunning := true }

def hold (hail : H) : AcpWorld H := { w with held := w.held ++ [hail] }

def steer (hail : H) : AcpWorld H :=
  if w.codexSteering then
    if w.driver = .exited then { w.hold hail with outcomes := w.outcomes ++ [(hail, none)] }
    else { w with commands := w.commands ++ [.steer hail], caller := .steering hail }
  else { w.hold hail with outcomes := w.outcomes ++ [(hail, some .nextTurn)] }

def interrupt (hail : H) : AcpWorld H :=
  if w.driver = .exited then { w with caller := .closed }
  else { w.hold hail with commands := w.commands ++ [.cancel] }

def claim (hail : H) (as' : Claim) : Option (AcpWorld H) :=
  if hail ∈ w.seen then none
  else
    let w := { w with seen := w.seen ++ [hail] }
    match as' with
    | .hold => some (w.hold hail)
    | .cancel => some (w.interrupt hail)
    | .steer => if w.turnRunning then some (w.steer hail) else none

/-- `record_steer_outcome` and what the drain does with it. -/
def record (hail : H) : Option Delivery → AcpWorld H
  | some .midTurn => { w with caller := .idle, outcomes := w.outcomes ++ [(hail, some .midTurn)] }
  | outcome => { w.hold hail with caller := .idle, outcomes := w.outcomes ++ [(hail, outcome)] }

def ended (note : Option Nat) : AcpWorld H :=
  { w with turnRunning := false, verdicts := w.verdicts ++ [(w.turn, note)] }

def nextEvent : AcpWorld H :=
  if w.turnRunning then
    match w.notes with
    | .turn n _ :: notes => { w with notes }.ended (some n)
    | .openFailed _ :: notes => { w with notes }.ended none
    | [] => if w.driver = .exited then w.ended none else w
  else w

/-- The next command, at the loop or within a prompt. -/
def receive : Option (AcpWorld H) :=
  match w.commands with
  | [] => none
  | command :: commands =>
    let w := { w with commands }
    match w.driver, command with
    | .ready, .prompt n hails => some { w with driver := .prompting n, sent := w.sent ++ [.prompt n hails] }
    | .ready, .steer hail => some { w with replies := w.replies ++ [(hail, .ok .nextTurn)] }
    | .prompting n, .steer hail =>
      if w.codexSteering then some { w with driver := .steering n hail, sent := w.sent ++ [.steer hail] }
      else some { w with replies := w.replies ++ [(hail, .ok .nextTurn)] }
    | .prompting _, .prompt _ _ => some w
    | .ready, .cancel => some { w with sent := w.sent ++ [.cancel] }
    | .prompting _, .cancel => some { w with sent := w.sent ++ [.cancel] }
    | .ready, .close => some w.exit
    | .prompting _, .close => some w.exit
    | .steering _ _, _ => none
    | .exited, _ => none

end AcpWorld

def acpStep {H : Type} [DecidableEq H] (w : AcpWorld H) : AcpAct H → Option (AcpWorld H)
  | .startTurn resume => if w.caller = .idle ∧ w.turnRunning = false then some (w.startTurn resume) else none
  | .claim hail as' => if w.caller = .idle then w.claim hail as' else none
  | .answered => match w.caller with
    | .steering hail => (w.replies.find? fun r => r.1 = hail).map fun r => w.record hail r.2.toOption
    | _ => none
  | .gaveUp => match w.caller with
    | .steering hail => some (w.record hail none)
    | _ => none
  | .nextEvent => if w.caller = .idle then some w.nextEvent else none
  | .close => if w.caller = .idle then
      some { w with
        caller := .closed
        turnRunning := false
        commands := if w.driver = .exited then w.commands else w.commands ++ [.close] }
    else none
  | .receive => w.receive
  | .verdict event => match w.driver with
    | .prompting n => some { w with driver := .ready, notes := w.notes ++ [.turn n event] }
    | _ => none
  | .steered response => match w.driver with
    | .steering n hail => some { w with driver := .prompting n, replies := w.replies ++ [(hail, codexSteer response)] }
    | _ => none
  | .fail detail => match w.driver with
    | .exited => none
    | _ => some { w.exit with notes := w.notes ++ [.openFailed detail] }

/-! ## What the agent was sent, and the verdicts -/

section
variable {H : Type}

def steersIn (commands : List (Command H)) : List H :=
  commands.filterMap fun
    | .steer hail => some hail
    | _ => none

def promptsIn (commands : List (Command H)) : List H :=
  commands.flatMap fun
    | .prompt _ hails => hails
    | _ => []

def turnsIn (commands : List (Command H)) : List Nat :=
  commands.filterMap fun
    | .prompt n _ => some n
    | _ => none

variable [DecidableEq H]

/-- How often the text of a hail was sent, in a steering request or in a prompt. -/
def timesSteered (w : AcpWorld H) (hail : H) : Nat := (steersIn w.sent).count hail

def timesPrompted (w : AcpWorld H) (hail : H) : Nat := (promptsIn w.sent).count hail

/-- A turn's verdict is of that turn, and there is one of each at most. -/
structure OwnVerdicts (w : AcpWorld H) : Prop where
  own     : ∀ v ∈ w.verdicts, ∀ n, v.2 = some n → n = v.1
  once    : (w.verdicts.map Prod.fst).Nodup
  started : ∀ v ∈ w.verdicts, 1 ≤ v.1 ∧ v.1 ≤ w.turn

/-- A hail is sent once, unless its steer ended in an error: then a steer and a prompt may each have sent it. -/
structure SentOnce (w : AcpWorld H) : Prop where
  once    : ∀ hail, (hail, none) ∉ w.outcomes → timesSteered w hail + timesPrompted w hail ≤ 1
  midTurn : ∀ hail, (hail, some .midTurn) ∈ w.outcomes → timesSteered w hail = 1 ∧ timesPrompted w hail = 0
  steered : ∀ hail, timesSteered w hail ≤ 1
  turns   : ∀ hail, timesPrompted w hail ≤ 1

end

end BoopAcp
