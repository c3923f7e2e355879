import HafleyRs.BoopProc.DoorBudget

/-!
# The delivery ladder (`crates/boop-proc/src/deliver.rs`)

| here | there |
| --- | --- |
| `supervisorRow`, `laneEndRow`, `laneProgressRow`, `commitRow` | `crates/boop-store/src/bus.rs`:171, 188, 198, 205 |
| `Surroundings` | what the registry's adapters, the paster and the clock answer during one attempt |
| `commitPushMode`, `commitHead` | deliver.rs:565, 594 |
| `land` | :600, with `mailboxOnly` (:610), `promptQueue` (:656), `pushDoor` (:690) |
| `hookInbox`, `pasteIntoPane`, `noDoorRoute`, `keystrokeRoute` | :875, 893, 857, 908 |
| `enter`, `settle` | `deliver_hail_budgeted` (:469) up to the landing, and from its record on |
| `drainQueue`, `afterAttempt` | `drain_route_held_mail_budgeted` (:1098): the queue, and one turn of its loop |
| `retireIfDead` | `crates/boop-proc/src/1_dead_route.rs`:47 |

`Sent` is the trace of a call that types the body or sends it, `took` that the door, the queue or the pane
took it. A pane that takes the drain notice takes no body. The lane lock is the argument `busy`; opening
a store or writing a row does not fail here. `live_session` (:947) is an answer of the surroundings, and
`record_live_door`, whose columns nothing here reads, is left out.
-/

namespace BoopProc
open BoopStore

/-! ## Kinds of rows -/

def supervisorRow (k : MessageKind) : Bool :=
  k ∈ [.result, .completion, .yield, .reparented, .retrying, .retryBudgetExhausted, .exitedWithoutCompletion,
    .openFailed, .headRewound, .commit]

def laneEndRow (k : MessageKind) : Bool :=
  k ∈ [.result, .completion, .exitedWithoutCompletion, .openFailed, .retryBudgetExhausted]

def laneProgressRow (k : MessageKind) : Bool := supervisorRow k && !laneEndRow k

def commitRow (k : MessageKind) : Bool := k = .commit

/-! ## What the code asks others -/

inductive MailPolicy where
  | door | keystrokes
deriving DecidableEq, Repr

structure Registry where
  all               : List HarnessId
  mail              : HarnessId → MailPolicy
  composerSubmitKey : HarnessId → Option String

inductive Delivered where
  | injected | queuedForTurnBoundary
  | unreachable (why : String)

/-- The session a door is asked to deliver to. -/
structure LiveSession where
  sessionId : String

structure Surroundings where
  inboxHookInstalled : HarnessId → String → String → Bool
  liveSession        : HarnessId → Route → Except String (Option LiveSession)
  deliver            : HarnessId → LiveSession → String → Except String Delivered
  prompt             : Route → String → Except String String
  alive              : String → Bool
  paste              : String → String → Option String
  submit             : String → String → Option String
  moodTemplate       : String → String
  vars               : Vars
  reminderMs         : Nat
  appendMs           : Nat
  gateMs             : Nat
  recordMs           : Nat
  stamp              : String
  pushMs             : Nat
  retireMs           : Nat

inductive Via where
  | door | acpx | pane
deriving DecidableEq, Repr

structure Sent where
  id    : String
  route : String
  body  : String
  via   : Via
  took  : Bool
deriving DecidableEq, Repr

/-! ## Texts -/

/-- `text.split_whitespace()` -/
def splitWhitespace (text : String) : List (List Char) := (text.toList.splitOnP isWhitespace).filter (· ≠ [])

/-- What follows the first `..`. -/
def afterDots : List Char → Option (List Char)
  | '.' :: '.' :: rest => some rest
  | _ :: rest => afterDots rest
  | [] => none

def commitHead (body : String) : String := String.ofList (((splitWhitespace body).findSome? afterDots).getD [])

def renderMail (template kind id sender body : String) : String :=
  (((template.replace "\x7bkind\x7d" kind).replace "\x7bid\x7d" id).replace "\x7bfrom\x7d" sender).replace
    "\x7bbody\x7d" body

def trimEnd (text : List Char) : List Char := text.rdropWhile isWhitespace

/-- `pane_of_target` (`crates/boop-harness/src/live.rs`:140) -/
def paneOfTarget (target : String) : Option String :=
  let pane := trimEnd ((target.toList.rtakeWhile (· ≠ '.')).dropWhile isWhitespace)
  if pane.head? = some '%' then some (String.ofList pane) else none

/-! ## Commit rows -/

inductive CommitPush where
  | door | mailbox
deriving DecidableEq, Repr

def defaultCommitPush (routes : Routes) (subscriber : String) : CommitPush :=
  match routes[subscriber]? with
  | some route =>
    if route.kind.asStr = "coordinator" || route.kind.asStr = "native" || route.mode = some "acpx" then .door
    else .mailbox
  | none => .mailbox

def commitPushMode (s : Ledger) (routes : Routes) (subscriber lane : String) : CommitPush :=
  match s.commitSubscription subscriber lane with
  | some mode => if mode = "mailbox" then .mailbox else .door
  | none => defaultCommitPush routes subscriber

/-- The rows that stop before the route is looked up. -/
def mailboxOnly (s : Ledger) (routes : Routes) (m : Message) : Option Landing :=
  if commitRow m.kind then
    let head := commitHead m.body
    if m.detail = some "done" then
      some (.new .mailboxOnly ("commit " ++ head ++ " row; done stays in the mailbox"))
    else if commitPushMode s routes m.toRoute m.fromRoute = .mailbox then
      some (.new .mailboxOnly "commit row; subscriber reads the mailbox")
    else if s.commitPushExists m.fromRoute m.toRoute head then
      some (.new .mailboxOnly ("commit " ++ head ++ " already pushed to " ++ m.toRoute))
    else none
  else if laneProgressRow m.kind then some (.new .mailboxOnly (m.kind.asStr ++ " row; no door"))
  else none

/-! ## The rungs -/

structure Landed where
  ledger  : Ledger
  sent    : Option Sent
  landing : Except String Landing

def hookInbox (reg : Registry) (sur : Surroundings) (route : Route) (to' : String) : Bool :=
  match route.cwd with
  | none => false
  | some cwd =>
    match route.harness with
    | some id => sur.inboxHookInstalled id cwd to'
    | none => reg.all.any fun id => sur.inboxHookInstalled id cwd to'

/-- The route's pane, when it is there. -/
def livePane (sur : Surroundings) (route : Route) : Option String :=
  match route.tmux.filter (· ≠ "") with
  | none => none
  | some target => if sur.alive target then some ((paneOfTarget target).getD target) else none

def pasteIntoPane (sur : Surroundings) (route : Route) (to' : String) : Option String :=
  (livePane sur route).bind fun pane =>
    sur.paste pane ("[boop] mail for " ++ to' ++ ": run `boop inbox drain --me`")

def doorRouteBelowTheDoor (reg : Registry) (sur : Surroundings) (route : Route) (to' why : String) : Landing :=
  if hookInbox reg sur route to' then .new .hookInbox why else .new .mailbox why

/-- The notice, or the mailbox. -/
def noticeOr (sur : Surroundings) (route : Route) (to' why : String) : Landing :=
  match pasteIntoPane sur route to' with
  | some pane => .new .panePaste (why ++ "; pane " ++ pane)
  | none => .new .mailbox why

def noDoorRoute (reg : Registry) (sur : Surroundings) (route : Route) (to' why : String) : Landing :=
  if hookInbox reg sur route to' then .new .hookInbox why else noticeOr sur route to' why

def rendered (sur : Surroundings) (m : Message) : String :=
  renderMail (sur.moodTemplate m.toRoute) m.kind.asStr m.id m.fromRoute m.body

/-- The body on one line. -/
def typedLine (sur : Surroundings) (m : Message) : String :=
  (rendered sur m).map fun c => if c = '\n' then ' ' else c

def keystrokeWhy : String := "harness takes no door mail"

def keystrokeRoute (reg : Registry) (sur : Surroundings) (s : Ledger) (route : Route) (m : Message) : Landed :=
  if hookInbox reg sur route m.toRoute then ⟨s, none, .ok (.new .hookInbox "installed inbox hook")⟩
  else match livePane sur route with
    | none => ⟨s, none, .ok (.new .mailbox keystrokeWhy)⟩
    | some pane =>
      match route.harness.bind reg.composerSubmitKey with
      | some key =>
        match sur.paste pane (typedLine sur m) with
        | some _ =>
          ⟨s, some ⟨m.id, m.toRoute, m.body, .pane, true⟩,
            .ok (if (sur.submit pane key).isSome then .paneSubmit pane keystrokeWhy else .new .mailbox keystrokeWhy)⟩
        | none => ⟨s, some ⟨m.id, m.toRoute, m.body, .pane, false⟩, .ok (.new .mailbox keystrokeWhy)⟩
      | none => ⟨s, none, .ok (noticeOr sur route m.toRoute keystrokeWhy)⟩

/-- The acpx queue, behind the gate. -/
def promptQueue (sur : Surroundings) (s : Ledger) (routes : Routes) (route : Route) (m : Message)
    (budget : DoorBudget) : Landed :=
  match doorGate s m.toRoute routes m.body budget sur.gateMs with
  | (some cooled, s) => ⟨s, none, .ok cooled⟩
  | (none, s) =>
    match sur.prompt route m.body with
    | .ok reply =>
      ⟨s, some ⟨m.id, m.toRoute, m.body, .acpx, true⟩, .ok (.acpx (String.ofList (trimEnd reply.toList)))⟩
    | .error error => ⟨s, some ⟨m.id, m.toRoute, m.body, .acpx, false⟩, .error error⟩

/-- A door that did not take the body. -/
def doorFailed (reg : Registry) (sur : Surroundings) (s : Ledger) (routes : Routes) (route : Route) (id : HarnessId)
    (m : Message) (why : String) : Landed :=
  let why := id.asStr ++ " door for " ++ m.toRoute ++ ": " ++ why
  ⟨if doorTransportFailure why then recordDoorFailure s m.toRoute routes why sur.vars sur.gateMs else s,
    some ⟨m.id, m.toRoute, m.body, .door, false⟩, .ok (doorRouteBelowTheDoor reg sur route m.toRoute why)⟩

/-- The harness door, behind the gate. -/
def pushDoor (reg : Registry) (sur : Surroundings) (s : Ledger) (routes : Routes) (route : Route) (id : HarnessId)
    (m : Message) (budget : DoorBudget) : Landed :=
  match sur.liveSession id route with
  | .error error => ⟨s, none, .error error⟩
  | .ok none =>
    ⟨s, none, .ok (doorRouteBelowTheDoor reg sur route m.toRoute
      ("no live " ++ id.asStr ++ " session for " ++ m.toRoute))⟩
  | .ok (some live) =>
    match doorGate s m.toRoute routes m.body budget sur.gateMs with
    | (some cooled, s) => ⟨s, none, .ok cooled⟩
    | (none, s) =>
      match sur.deliver id live (rendered sur m) with
      | .ok .injected => ⟨s, some ⟨m.id, m.toRoute, m.body, .door, true⟩, .ok (.new .door "door")⟩
      | .ok .queuedForTurnBoundary =>
        ⟨s, some ⟨m.id, m.toRoute, m.body, .door, true⟩, .ok (.new .doorQueue "door queue")⟩
      | .ok (.unreachable why) => doorFailed reg sur s routes route id m why
      | .error why => doorFailed reg sur s routes route id m why

def land (reg : Registry) (sur : Surroundings) (s : Ledger) (routes : Routes) (m : Message)
    (budget : DoorBudget) : Landed :=
  match mailboxOnly s routes m with
  | some landing => ⟨s, none, .ok landing⟩
  | none =>
    match routes[m.toRoute]? with
    | none => ⟨s, none, .ok (.new .mailbox ("no registry route for " ++ m.toRoute))⟩
    | some route =>
      if route.kind.asStr = "lane" then
        ⟨s, none, .ok (if hookInbox reg sur route m.toRoute then .new .hookInbox "installed inbox hook"
          else .new .turnBoundary "lane supervisor")⟩
      else if route.mode = some "acpx" then promptQueue sur s routes route m budget
      else match route.harness with
        | none =>
          ⟨s, none, .ok (noDoorRoute reg sur route m.toRoute ("route " ++ m.toRoute ++ " names no harness"))⟩
        | some id =>
          if reg.mail id = .keystrokes then keystrokeRoute reg sur s route m
          else pushDoor reg sur s routes route id m budget

/-! ## One attempt -/

def harnessOf (routes : Routes) (m : Message) : Option HarnessId := routes[m.toRoute]?.bind Route.harness

/-- An attempt up to its landing: it is over, it failed, or its landing is to be recorded. -/
inductive Entered where
  | done (s : Ledger) (landing : Landing)
  | failed (s : Ledger) (sent : Option Sent) (error : String)
  | flying (s : Ledger) (sent : Option Sent) (landing : Landing)

def noticed (s : Ledger) (m : Message) : Bool :=
  (s.transitionsOf m.id).any fun t => t.route = m.toRoute && t.outcome = .pastedIntoPane

def appended (s : Ledger) (routes : Routes) (m : Message) (atMs : Nat) : Ledger :=
  if s.hasDeliveryTransition m.id then s
  else s.appendTransition m.id m.toRoute (harnessOf routes m) .appended "mailbox" atMs

def enter (reg : Registry) (sur : Surroundings) (s : Ledger) (routes : Routes) (m : Message) (busy : Bool)
    (budget : DoorBudget) : Entered :=
  if !s.reminderMessageActive m sur.reminderMs then
    let landing := Landing.new .mailboxOnly "reminder cancelled or expired"
    .done (s.record landing m.id m.toRoute none sur.recordMs) landing
  else if busy then
    let held := Landing.new .mailbox "another delivery attempt is in flight"
    .done (s.record held m.id m.toRoute (harnessOf routes m) sur.recordMs) held
  else if s.deliveryAccepted m.id m.toRoute then
    .done (s.ack [m.id] sur.stamp) (.new .alreadyAccepted "previously accepted by harness or its queue")
  else if noticed s m then .done s (.new .panePaste "pane notice already delivered")
  else
    let landed := land reg sur (appended s routes m sur.appendMs) routes m budget
    match landed.landing with
    | .ok landing => .flying landed.ledger landed.sent landing
    | .error error => .failed landed.ledger landed.sent error

def settle (sur : Surroundings) (s : Ledger) (routes : Routes) (m : Message) (landing : Landing) : Ledger :=
  let s := s.record landing m.id m.toRoute (harnessOf routes m) sur.recordMs
  if landing.carried then
    let s := s.ack [m.id] sur.stamp
    if commitRow m.kind then s.recordCommitPush m.fromRoute m.toRoute (commitHead m.body) m.id sur.pushMs else s
  else s

/-- The attempt, when nothing comes between its landing and the record. -/
def deliverHailBudgeted (reg : Registry) (sur : Surroundings) (s : Ledger) (routes : Routes) (m : Message)
    (busy : Bool) (budget : DoorBudget) : Landed :=
  match enter reg sur s routes m busy budget with
  | .done s landing => ⟨s, none, .ok landing⟩
  | .failed s sent error => ⟨s, sent, .error error⟩
  | .flying s sent landing => ⟨settle sur s routes m landing, sent, .ok landing⟩

/-! ## The drain -/

def pushable (s : Ledger) (routes : Routes) (m : Message) : Bool :=
  let commitRetry := commitRow m.kind && m.detail ≠ some "done" &&
    commitPushMode s routes m.toRoute m.fromRoute = .door
  !(laneProgressRow m.kind && !commitRetry || (m.ref.bind reminderName).isSome)

/-- The rows a drain of the route will try; `first` and `routes` are its two reads of the registry. -/
def drainQueue (s : Ledger) (name : String) (first routes : Option Routes) (nowMs heldMs : Nat) : List Message :=
  match first.bind fun routes => routes[name]? with
  | none => []
  | some route =>
    if route.kind.asStr = "lane" || coolingOff s name nowMs then []
    else match routes with
      | none => []
      | some routes => (s.heldMessages name heldMs).filter (pushable s routes)

def namesADeadSession (detail : String) : Bool :=
  "no live ".toList.isPrefixOf detail.toList || doorTransportFailure detail

def deadSessionHolds (s : Ledger) (id route : String) : Nat :=
  ((s.transitionsOf id).filter fun t =>
    t.route = route && t.outcome = .heldInMailbox && namesADeadSession t.detail).length

def deadRouteAttempts (vars : Vars) : Nat :=
  (((vars "BOOP_DEAD_ROUTE_ATTEMPTS").map Fin.val).filter fun n => 0 < n).getD 3

def retireHeld (s : Ledger) (route : String) (harness : Option HarnessId) (rows : List Message) (why : String)
    (attempts nowMs : Nat) : Ledger :=
  rows.foldl (fun s m => s.appendTransition m.id route harness .routeDead
    ("route dead after " ++ toString attempts ++ " holds: " ++ why) nowMs) s

def retireIfDead (s : Ledger) (route : String) (harness : Option HarnessId) (rest : List Message) (detail : String)
    (vars : Vars) (nowMs : Nat) : Ledger :=
  match rest with
  | [] => s
  | first :: _ =>
    if namesADeadSession detail && deadRouteAttempts vars ≤ deadSessionHolds s first.id route then
      retireHeld s route harness rest detail (deadRouteAttempts vars) nowMs
    else s

/-- The ledger and the rows still to try, after an attempt on `m`. -/
def afterAttempt (sur : Surroundings) (s : Ledger) (route : String) (harness : Option HarnessId) (m : Message)
    (rest : List Message) (result : Except String Landing) : Ledger × List Message :=
  match result with
  | .error _ => (s, rest)
  | .ok landing =>
    if landing.rung = .coolOff then (s, [])
    else if landing.rung = .mailbox then
      (retireIfDead s route harness (m :: rest) landing.detail sur.vars sur.retireMs, [])
    else (s, rest)

end BoopProc
