import HafleyRs.BoopStore.Held
import HafleyRs.BoopStore.Route

/-!
# Landings, the delivery ledger and the door budget

| here | there |
| --- | --- |
| `Rung`, `Landing` | `crates/boop-proc/src/deliver.rs`:37, 97 |
| `DoorBlowoutRow`, `latestDoorBlowout`, `recordDoorBlowout` | `crates/boop-store/src/ident.rs`:352, 3540, 3587 |
| `deliveryAccepted`, `doorPushesSince`, `doorPushedBodySince` | ident.rs:3456, 3514, 3527 |
| `commitSubscription`, `commitPushExists`, `recordCommitPush` | ident.rs:3631, 3676, 3688 |
| `DoorBudget`, `fromEnv`, `allowance`, `childrenOf` | deliver.rs:278, 296, 316; lane.rs:444 |
| `doorVerdict`, `doorGate`, `coolingOff` | deliver.rs:340, 386, 428 |
| `doorTransportFailure`, `recordDoorFailure` | deliver.rs:788, 814 |

Clocks are `u64` milliseconds, a column is an `i64`: the queries compare what `asI64` makes of a clock. A
`Duration` counts more milliseconds than a `u64` does, and the budget is read through `as u64`
(`millisU64`). Columns that nothing reads back (a blowout's `pushes`, say) are kept as they are written.
-/

namespace BoopProc
open BoopStore

/-! ## Clocks -/

/-- `std::time::Duration` -/
structure Duration where
  secs     : Nat
  nanos    : Nat
  secs_lt  : secs < 2 ^ 64
  nanos_lt : nanos < 10 ^ 9

def Duration.fromSecs (n : Fin (2 ^ 64)) : Duration := ⟨n, 0, n.isLt, by decide⟩

def Duration.asMillis (d : Duration) : Nat := d.secs * 1000 + d.nanos / 1000000

/-- `d.as_millis() as u64` -/
def Duration.millisU64 (d : Duration) : Nat := d.asMillis % 2 ^ 64

/-- `n as i64` -/
def asI64 (n : Nat) : Int := Int.bmod n (2 ^ 64)

theorem asI64_of_lt {n : Nat} (h : n < 2 ^ 63) : asI64 n = n := by
  unfold asI64
  rw [Int.bmod_eq_of_le] <;> omega

theorem millisU64_of_lt {d : Duration} (h : d.asMillis < 2 ^ 64) : d.millisU64 = d.asMillis := Nat.mod_eq_of_lt h

/-! ## Landings -/

inductive Rung where
  | alreadyAccepted | door | doorQueue | acpx | turnBoundary | hookInbox | panePaste | mailboxOnly | mailbox
  | coolOff
deriving DecidableEq, Repr

def Rung.state : Rung → DeliveryState
  | alreadyAccepted | door | acpx => .acceptedByHarness
  | doorQueue | turnBoundary => .heldForTurnBoundary
  | hookInbox => .queuedInHookInbox
  | panePaste => .pastedIntoPane
  | mailboxOnly | mailbox => .heldInMailbox
  | coolOff => .cooledOff

def Rung.carriedTheBody (r : Rung) : Bool := r ∈ [.alreadyAccepted, .door, .doorQueue, .acpx]

structure Landing where
  rung    : Rung
  detail  : String
  reply   : Option String
  state'  : Option DeliveryState
  carried : Bool
deriving DecidableEq, Repr

namespace Landing

def new (rung : Rung) (detail : String) : Landing := ⟨rung, detail, none, none, rung.carriedTheBody⟩

def acpx (reply : String) : Landing := ⟨.acpx, "acpx queue", some reply, none, true⟩

def paneSubmit (pane why : String) : Landing :=
  ⟨.panePaste, why ++ "; pane " ++ pane, none, some .acceptedByHarness, true⟩

def state (l : Landing) : DeliveryState := l.state'.getD l.rung.state

/-- The transition of such a landing answers `deliveryAccepted`. -/
def Accepted (l : Landing) : Prop := l.state = .acceptedByHarness ∨ l.detail = "door queue"

end Landing

/-! ## The ledger -/

structure DoorBlowoutRow where
  route      : String
  atMs       : Nat
  pushes     : Nat
  budget     : Nat
  windowMs   : Nat
  cooldownMs : Nat
  why        : String
deriving DecidableEq, Repr

/-- `self.at_ms.saturating_add(self.cooldown_ms)` -/
def DoorBlowoutRow.untilMs (r : DoorBlowoutRow) : Nat := min (r.atMs + r.cooldownMs) (2 ^ 64 - 1)

structure CommitPushRow where
  lane       : String
  subscriber : String
  head       : String
  messageId  : String
  atMs       : Nat

structure CommitSubscriptionRow where
  subscriber : String
  lane       : String
  mode       : String

/-- The mailbox with the tables the ladder reads; `blowouts` in the order of `blowout_id`. -/
structure Ledger extends BoopStore.Store where
  blowouts            : List DoorBlowoutRow
  commitPushes        : List CommitPushRow
  commitSubscriptions : List CommitSubscriptionRow

namespace Ledger

def withMailbox (s : Ledger) (db : Mailbox) : Ledger := { s with toStore := { s.toStore with toMailbox := db } }

def appendTransition (s : Ledger) (id route : String) (harness : Option HarnessId) (outcome : DeliveryState)
    (detail : String) (atMs : Nat) : Ledger :=
  s.withMailbox (s.appendDeliveryTransition id route (harness.map HarnessId.asStr) outcome detail none atMs)

def deliveryAccepted (s : Ledger) (id route : String) : Bool :=
  s.transitions.rows.any fun t =>
    t.messageId = id && t.route = route && (t.outcome = .acceptedByHarness || t.detail = "door queue")

/-- `detail IN ('door', 'door queue', 'acpx queue')` -/
def namesDoor (t : Transition) : Bool := t.detail ∈ ["door", "door queue", "acpx queue"]

def pushedSince (route : String) (sinceMs : Nat) (t : Transition) : Bool :=
  t.route = route && asI64 sinceMs ≤ asI64 t.atMs && namesDoor t

def doorPushesSince (s : Ledger) (route : String) (sinceMs : Nat) : Nat :=
  (s.transitions.rows.filter (pushedSince route sinceMs)).length

def doorPushedBodySince (s : Ledger) (route body : String) (sinceMs : Nat) : Bool :=
  s.transitions.rows.any fun t =>
    pushedSince route sinceMs t && s.mail.rows.any fun m => m.messageId = t.messageId && m.body = body

/-- `ORDER BY at_ms DESC, blowout_id DESC LIMIT 1`, row by row. -/
def newer (best : Option DoorBlowoutRow) (r : DoorBlowoutRow) : Option DoorBlowoutRow :=
  match best with
  | none => some r
  | some b => if asI64 b.atMs ≤ asI64 r.atMs then some r else some b

def latestDoorBlowout (s : Ledger) (route : String) : Option DoorBlowoutRow :=
  (s.blowouts.filter fun r => r.route = route).foldl newer none

def recordDoorBlowout (s : Ledger) (row : DoorBlowoutRow) : Ledger := { s with blowouts := s.blowouts ++ [row] }

/-- The subscriber's row for the lane, or its `'*'` row. -/
def commitSubscription (s : Ledger) (subscriber lane : String) : Option String :=
  let mode (lane : String) := (s.commitSubscriptions.find? fun r => r.subscriber = subscriber && r.lane = lane).map
    CommitSubscriptionRow.mode
  mode lane <|> mode "*"

def commitPushExists (s : Ledger) (lane subscriber head : String) : Bool :=
  s.commitPushes.any fun r => r.lane = lane && r.subscriber = subscriber && r.head = head

/-- `INSERT OR IGNORE` -/
def recordCommitPush (s : Ledger) (lane subscriber head messageId : String) (atMs : Nat) : Ledger :=
  if s.commitPushExists lane subscriber head then s
  else { s with commitPushes := s.commitPushes ++ [⟨lane, subscriber, head, messageId, atMs⟩] }

def record (s : Ledger) (l : Landing) (id route : String) (harness : Option HarnessId) (atMs : Nat) : Ledger :=
  s.appendTransition id route harness l.state l.detail atMs

def ack (s : Ledger) (ids : List String) (stamp : String) : Ledger :=
  { s with toStore := s.toStore.ackMessages ids stamp }

end Ledger

/-! ## The budget -/

/-- An environment variable, trimmed and parsed as a `u64`. -/
abbrev Vars := String → Option (Fin (2 ^ 64))

structure DoorBudget where
  window   : Duration
  cooldown : Duration
  floor    : Nat

namespace DoorBudget

def default : DoorBudget := ⟨.fromSecs 60, .fromSecs 300, 32⟩

def fromEnv (vars : Vars) : DoorBudget :=
  let base := default
  let secs (name : String) (fallback : Duration) := ((vars name).map Duration.fromSecs).getD fallback
  ⟨secs "BOOP_DOOR_WINDOW_SECS" base.window, secs "BOOP_DOOR_COOLDOWN_SECS" base.cooldown,
    ((vars "BOOP_DOOR_FLOOR").map Fin.val).getD base.floor⟩

end DoorBudget

abbrev Routes := BTreeMap String Route

def childrenOf (parent : String) (routes : Routes) : List (String × Route) :=
  routes.toList.filter fun p => p.2.parent = some parent && p.1 ≠ parent

def DoorBudget.allowance (b : DoorBudget) (route : String) (routes : Routes) : Nat :=
  max (childrenOf route routes).length b.floor

inductive DoorVerdict where
  | open
  | coolingOff (untilMs : Nat)
  | blowout (pushes budget : Nat) (why : String)

def doorVerdict (s : Ledger) (route : String) (routes : Routes) (body : String) (budget : DoorBudget)
    (nowMs : Nat) : DoorVerdict :=
  match (s.latestDoorBlowout route).filter fun trip => trip.untilMs > nowMs with
  | some trip => .coolingOff trip.untilMs
  | none =>
    let since := nowMs - budget.window.millisU64
    let pushes := s.doorPushesSince route since
    let allowed := budget.allowance route routes
    if allowed ≤ pushes then
      .blowout pushes allowed (toString pushes ++ " door pushes in " ++ toString budget.window.secs ++ "s against " ++
        toString allowed ++ " live connects")
    else if s.doorPushedBodySince route body since then
      .blowout pushes allowed ("the same body already went through the door inside " ++
        toString budget.window.secs ++ "s")
    else .open

/-- The row of a trip. -/
def tripRow (route : String) (budget : DoorBudget) (nowMs pushes allowed : Nat) (why : String) : DoorBlowoutRow :=
  ⟨route, nowMs, pushes, allowed, budget.window.millisU64, budget.cooldown.millisU64, why⟩

/-- The landing to record instead of a push, and the ledger. -/
def doorGate (s : Ledger) (route : String) (routes : Routes) (body : String) (budget : DoorBudget)
    (nowMs : Nat) : Option Landing × Ledger :=
  match doorVerdict s route routes body budget nowMs with
  | .open => (none, s)
  | .coolingOff untilMs =>
    (some (.new .coolOff ("cooling off for " ++ toString ((untilMs - nowMs) / 1000) ++ "s more")), s)
  | .blowout pushes allowed why =>
    (some (.new .coolOff why), s.recordDoorBlowout (tripRow route budget nowMs pushes allowed why))

def coolingOff (s : Ledger) (route : String) (nowMs : Nat) : Bool :=
  (s.latestDoorBlowout route).any fun trip => trip.untilMs > nowMs

/-! ## A door that failed -/

def doorFailureCooldown (vars : Vars) : Duration :=
  ((vars "BOOP_DOOR_FAIL_COOLDOWN_SECS").map Duration.fromSecs).getD (.fromSecs 120)

/-- `text.contains(needle)` -/
def containsText (text needle : String) : Bool := text.toList.tails.any fun rest => needle.toList.isPrefixOf rest

def doorTransportFailure (why : String) : Bool :=
  let why := why.map Char.toLower
  !containsText why "names no messaging socket" &&
    ["connect", "socket", "refused", "unreachable", "app-server", "app server", "timed out", "timeout",
      "broken pipe", "connection reset", "no such file"].any (containsText why)

def failureRow (route : String) (routes : Routes) (why : String) (vars : Vars) (nowMs : Nat) : DoorBlowoutRow :=
  let budget := DoorBudget.fromEnv vars
  ⟨route, nowMs, 0, budget.allowance route routes, budget.window.millisU64, (doorFailureCooldown vars).millisU64,
    "door-unreachable: " ++ why⟩

def recordDoorFailure (s : Ledger) (route : String) (routes : Routes) (why : String) (vars : Vars)
    (nowMs : Nat) : Ledger := s.recordDoorBlowout (failureRow route routes why vars nowMs)

end BoopProc
