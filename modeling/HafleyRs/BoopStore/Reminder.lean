import HafleyRs.BoopStore.Mail

/-!
# Reminders over the mailbox (`crates/boop-store/src/1_reminder.rs`)

| here | there |
| --- | --- |
| `Reminder`, `Schedule` | table `agent_reminder` with its primary key and its partial unique index (:8) |
| `reminderAdd`, `reminderCancel`, `reminderExpire`, `reminderDetail` | :33, :89, :93, :98 |
| `finished`, `latestOutcome`, `blocks`, `due` | the `WHERE` of the claim, :113 to :126 |
| `reminderClaim`, `reminderRetry` | :110, :156 |
| `reminderMessageActive` | :193 |
| `messagesIn`, `ackMessages` | bus.rs:1133, 1113 |

`Schedule.set` is `UPDATE agent_reminder SET … WHERE …`. A call that fails, or that changes no row,
leaves the store as it was; a transaction that fails is rolled back. Times are `Int`; the one checked
sum (`now_ms.checked_add(every_ms)`) is checked at the bounds of `i64`.
-/

namespace BoopStore
open Mailbox

/-! ## Rows -/

inductive ReminderState where
  | active | cancelled | expired
deriving DecidableEq, Repr

structure Reminder where
  name        : String
  route       : String
  body        : String
  everyMs     : Int
  untilMs     : Int
  nextMs      : Int
  state       : ReminderState
  lastMessage : Option String
  detail      : String
deriving DecidableEq, Repr

structure Schedule where
  table     : Table Reminder.name
  oneActive : ∀ r ∈ table.rows, ∀ r' ∈ table.rows, r.state = .active → r'.state = .active →
    r.route = r'.route → r = r'

/-- What no update of the code does: move a reminder, or wake it up again. -/
def Keeps (f : Reminder → Reminder) : Prop :=
  ∀ r, (f r).name = r.name ∧ (f r).route = r.route ∧ ((f r).state = .active → r.state = .active)

namespace Schedule

def empty : Schedule := ⟨.empty, fun _ h => nomatch h⟩

def rows (s : Schedule) : List Reminder := s.table.rows

def set (s : Schedule) (p : Reminder → Bool) (f : Reminder → Reminder) (hf : Keeps f) : Schedule :=
  ⟨s.table.update (fun r => if p r then f r else r) fun r => by
      split
      · exact (hf r).1
      · rfl, by
    intro a ha b hb hsa hsb hroute
    obtain ⟨r, hr, rfl⟩ := List.mem_map.1 ha
    obtain ⟨r', hr', rfl⟩ := List.mem_map.1 hb
    have hkeep : ∀ r : Reminder, (if p r then f r else r).route = r.route ∧
        ((if p r then f r else r).state = .active → r.state = .active) := fun r => by
      split
      · exact (hf r).2
      · exact ⟨rfl, id⟩
    rw [(hkeep r).1, (hkeep r').1] at hroute
    rw [s.oneActive r hr r' hr' ((hkeep r).2 hsa) ((hkeep r').2 hsb) hroute]⟩

theorem mem_set {s : Schedule} {p : Reminder → Bool} {f : Reminder → Reminder} (hf : Keeps f)
    {r' : Reminder} : r' ∈ (s.set p f hf).rows ↔ ∃ r ∈ s.rows, (if p r then f r else r) = r' :=
  List.mem_map

end Schedule

/-! ## The store -/

/-- The mailbox, the schedules and the registered routes. -/
structure Store extends Mailbox where
  reminders : Schedule
  routes    : List String

def checkedAdd (a b : Int) : Option Int :=
  if -2 ^ 63 ≤ a + b ∧ a + b < 2 ^ 63 then some (a + b) else none

namespace Store

def reminderAdd (s : Store) (name route body : String) (everyMs untilMs nowMs : Int) :
    Except String Store :=
  if blank name || blank body then .error "name and body must be nonempty"
  else if ¬ (everyMs > 0 ∧ untilMs > nowMs) then .error "positive interval and future expiry required"
  else if route ∉ s.routes then .error ("no registered route " ++ route)
  else if ¬ (s.reminders.rows.filter fun r => r.state = .active).length < 32 then
    .error "at most 32 active reminders per mail directory"
  else match checkedAdd nowMs everyMs with
    | none => .error "interval overflow"
    | some nextMs =>
      let row : Reminder := ⟨name, route, body, everyMs, untilMs, nextMs, .active, none, ""⟩
      if hname : name ∈ s.reminders.table.keys then
        .error "UNIQUE constraint failed: agent_reminder.name"
      else if hroute : ∃ r ∈ s.reminders.rows, r.state = .active ∧ r.route = route then
        .error "UNIQUE constraint failed: agent_reminder.route"
      else .ok { s with reminders := ⟨s.reminders.table.push row hname, by
        intro r hr r' hr' hs hs' heq
        rcases List.mem_append.1 hr with hr | hr <;> rcases List.mem_append.1 hr' with hr' | hr'
        · exact s.reminders.oneActive r hr r' hr' hs hs' heq
        · rw [List.mem_singleton] at hr'
          subst hr'
          exact absurd ⟨r, hr, hs, heq⟩ hroute
        · rw [List.mem_singleton] at hr
          subst hr
          exact absurd ⟨r', hr', hs', heq.symm⟩ hroute
        · rw [List.mem_singleton.1 hr, List.mem_singleton.1 hr']⟩ }

def reminderCancel (s : Store) (name : String) : Bool × Store :=
  let named (r : Reminder) : Bool := r.name = name && r.state = .active
  let reminders := s.reminders.set named
    (fun r => { r with state := .cancelled, detail := "cancelled by caller" })
    fun _ => ⟨rfl, rfl, fun h => nomatch h⟩
  (s.reminders.rows.any named, { s with reminders := reminders })

def reminderExpire (s : Store) (nowMs : Int) : Store :=
  let reminders := s.reminders.set (fun r => r.state = .active && r.untilMs ≤ nowMs)
    (fun r => { r with state := .expired, detail := "expiry reached" })
    fun _ => ⟨rfl, rfl, fun h => nomatch h⟩
  { s with reminders := reminders }

def reminderDetail (s : Store) (name detail : String) : Store :=
  let reminders := s.reminders.set (fun r => r.name = name && r.detail ≠ detail)
    (fun r => { r with detail := detail }) fun _ => ⟨rfl, rfl, id⟩
  { s with reminders := reminders }

/-! ## The claim -/

/-- A `turn-ended` or `reply-appended` transition, or a reply from the route. -/
def finished (s : Mailbox) (messageId route : String) : Bool :=
  (s.transitionsOf messageId).any (fun t => t.outcome = .turnEnded || t.outcome = .replyAppended) ||
    s.mail.rows.any fun m => m.replyTo = some messageId && m.kind = "reply" && m.fromRoute = route

/-- `ORDER BY sequence DESC LIMIT 1` -/
def latestOutcome (s : Mailbox) (messageId : String) : Option DeliveryState :=
  ((s.transitionsOf messageId).argmax Transition.sequence).map Transition.outcome

/-- The row `other` of the claim's `NOT EXISTS`. -/
def blocks (s : Store) (r other : Reminder) : Bool :=
  other.route = r.route && other.name ≠ r.name &&
    match other.lastMessage with
    | none => false
    | some last => !finished s.toMailbox last other.route &&
        latestOutcome s.toMailbox last ∈
          [some .appended, some .submittedToHarness, some .acceptedByHarness]

def due (s : Store) (r : Reminder) (nowMs : Int) : Bool :=
  r.state = .active && r.nextMs ≤ nowMs && nowMs < r.untilMs &&
    (match r.lastMessage with
      | none => true
      | some last => finished s.toMailbox last r.route) &&
    !s.reminders.rows.any (blocks s r)

/-- The `SET` of the claim. -/
def claimedRow (nowMs : Int) (id : String) (r : Reminder) : Reminder :=
  { r with
    nextMs := nowMs + r.everyMs
    lastMessage := some id
    detail := "claimed; awaiting delivery receipt" }

theorem claimedRow_keeps (nowMs : Int) (id : String) : Keeps (claimedRow nowMs id) :=
  fun _ => ⟨rfl, rfl, fun h => h⟩

/-- The message, if any, and the store; `id`, `iso` and `atMs` are `mint_id`, `now_iso`, `now_ms`. -/
def reminderClaim (s : Store) (name : String) (nowMs : Int) (id iso : String) (atMs : Nat) :
    Except String (Option Message × Store) :=
  match s.reminders.table.get name with
  | none => .ok (none, s)
  | some r =>
    if s.due r nowMs then do
      let reminders := s.reminders.set (fun r => r.name = name) (claimedRow nowMs id)
        (claimedRow_keeps nowMs id)
      let message : Message :=
        ⟨id, "reminder:" ++ name, r.route, iso, none, .request, none, r.body,
          some ("reminder:" ++ name), none, none⟩
      let mailbox ← s.writeMessage "bus" message "reminder" atMs
      return (some message, { s with toMailbox := mailbox, reminders := reminders })
    else .ok (none, s)

end Store

/-! ## Reading messages back, and the retry -/

def MailColumns.message (row : MailColumns) : Message :=
  ⟨row.messageId, row.fromRoute, row.toRoute, row.fromTimestamp, row.toTimestamp, .ofStr row.kind,
    row.replyTo, row.body, row.refId, row.rc, row.detail⟩

/-- `r#ref.strip_prefix("reminder:")` -/
def reminderName (ref : String) : Option String :=
  let tag := "reminder:".toList
  if tag.isPrefixOf ref.toList then some (.ofList (ref.toList.drop tag.length)) else none

namespace Store

def reminderMessageActive (s : Store) (m : Message) (nowMs : Int) : Bool :=
  match m.ref.bind reminderName with
  | none => true
  | some name => s.reminders.rows.any fun r =>
      r.name = name && r.state = .active && nowMs < r.untilMs && r.lastMessage = some m.id

def messagesIn (s : Store) (nowMs : Int) : List Message :=
  s.mail.rows.map fun row =>
    let m := row.message
    if m.toTimestamp.isNone && (m.ref.bind reminderName).isSome && !s.reminderMessageActive m nowMs
    then { m with toTimestamp := some "reminder-inactive" }
    else m

/-- One id of `ack_messages`: an open row is stamped. -/
def stamped (mail : Table mailKey) (id stamp : String) : Table mailKey :=
  mail.update
    (fun row => if row.messageId = id ∧ row.toTimestamp = none
      then { row with toTimestamp := some stamp } else row)
    fun row => by split <;> rfl

def ackMessages (s : Store) (ids : List String) (stamp : String) : Store :=
  ids.foldl (fun s id => { s with mail := stamped s.mail id stamp }) s

/-- The refusals a retry may follow. -/
def refusals : List (Option DeliveryState) :=
  [some .heldInMailbox, some .heldForTurnBoundary, some .cooledOff, some .rejectedByHarness]

def retryable (s : Store) (r : Reminder) (nowMs : Int) : Bool :=
  r.state = .active && nowMs < r.untilMs && r.nextMs ≤ nowMs &&
    match r.lastMessage with
    | none => false
    | some last => latestOutcome s.toMailbox last ∈ refusals &&
        s.mail.rows.any (fun m => m.messageId = last && m.toTimestamp = none) &&
        !(s.transitionsOf last).any fun t => t.outcome = .acceptedByHarness || t.outcome = .turnEnded

def reminderRetry (s : Store) (name : String) (nowMs clockMs : Int) : Option Message × Store :=
  match s.reminders.table.get name with
  | none => (none, s)
  | some r =>
    if s.retryable r nowMs then
      let reminders := s.reminders.set (fun r => r.name = name)
        (fun r => { r with nextMs := nowMs + r.everyMs }) fun _ => ⟨rfl, rfl, id⟩
      let s := { s with reminders := reminders }
      match (s.messagesIn clockMs).find? fun m => some m.id = r.lastMessage with
      | none => (none, s)
      | some message =>
        let mailbox := s.appendDeliveryTransition message.id message.toRoute none .submittedToHarness
          "reminder retry claimed; outcome uncertain until receipt" none nowMs.toNat
        (some message, { s with toMailbox := mailbox })
    else (none, s)

end Store

end BoopStore
