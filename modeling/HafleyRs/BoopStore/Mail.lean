import HafleyRs.Lib.BTree
import HafleyRs.Lib.Table
import HafleyRs.Lib.Words

/-!
# Mailbox rows, in the files and in the database (`crates/boop-store/src/bus.rs`)

| here | there |
| --- | --- |
| `Message`, `MessageKind` | bus.rs:22, 44 (`from` and `to` are `fromRoute` and `toRoute`, the column names) |
| `foldRow`, `fold`, `unacked` | bus.rs:588, 609 |
| `DeliveryState` | ident.rs:303 |
| `MailRow`, `Transition` | tables `agent_mail`, `agent_delivery_transition` (sql/40_schema.sql:129, 33) |
| `hasDeliveryTransition`, `appendDeliveryTransition` | ident.rs:3416, 3467 |
| `insertMail` | the `INSERT` of bus.rs:1079 under the trigger of sql/40_schema.sql:643 |
| `writeMessage` | bus.rs:1057 |
| `writeAll` | a caller's loop over it |

`mailMerge` is the `ON CONFLICT` clause, column by column. `fold` keeps a map and the order of first
sight; `foldTable` is the same as one table of rows, merged by `foldMerge` (`fold_eq_rows`).
-/

namespace BoopStore

abbrev Byte := Fin 256
abbrev Bytes := List Byte

def newline : Byte := 10

/-- `char::is_whitespace` -/
def isWhitespace (c : Char) : Bool :=
  c.toNat ∈ [9, 10, 11, 12, 13, 32, 133, 160, 5760, 8232, 8233, 8239, 8287, 12288] ||
    (8192 ≤ c.toNat && c.toNat ≤ 8202)

/-- `s.trim().is_empty()` -/
def blank (s : String) : Bool := s.toList.all isWhitespace

/-! ## Envelopes -/

inductive MessageKind where
  | request | result | note | dispatch | hail | ack | completion | yield | reparented | retrying
  | retryBudgetExhausted | exitedWithoutCompletion | openFailed | headRewound | commit | pr
  | harnessQuiet | harnessActive | retired
  | other (value : String)
deriving DecidableEq, Repr

def MessageKind.asStr : MessageKind → String
  | request => "request"
  | result => "result"
  | note => "note"
  | dispatch => "dispatch"
  | hail => "hail"
  | ack => "ack"
  | completion => "completion"
  | yield => "yield"
  | reparented => "reparented"
  | retrying => "retrying"
  | retryBudgetExhausted => "retry_budget_exhausted"
  | exitedWithoutCompletion => "exited_without_completion"
  | openFailed => "open_failed"
  | headRewound => "head_rewound"
  | commit => "commit"
  | pr => "pr"
  | harnessQuiet => "harness_quiet"
  | harnessActive => "harness_active"
  | retired => "retired"
  | other value => value

def MessageKind.ofStr : String → MessageKind
  | "request" => request
  | "result" => result
  | "note" => note
  | "dispatch" => dispatch
  | "hail" => hail
  | "ack" => ack
  | "completion" => completion
  | "yield" => yield
  | "reparented" => reparented
  | "retrying" => retrying
  | "retry_budget_exhausted" => retryBudgetExhausted
  | "exited_without_completion" => exitedWithoutCompletion
  | "open_failed" => openFailed
  | "head_rewound" => headRewound
  | "commit" => commit
  | "pr" => pr
  | "harness_quiet" => harnessQuiet
  | "harness_active" => harnessActive
  | "retired" => retired
  | value => other value

structure Message where
  id            : String
  fromRoute     : String
  toRoute       : String
  fromTimestamp : String
  toTimestamp   : Option String
  kind          : MessageKind
  replyTo       : Option String
  body          : String
  ref           : Option String
  rc            : Option Int
  detail        : Option String
deriving DecidableEq, Repr

/-! ## `fold` -/

structure FoldState where
  latest : BTreeMap String Message
  order  : List String

def foldRow (s : FoldState) (row : Message) : FoldState :=
  let order := if s.latest.contains row.id then s.order else s.order ++ [row.id]
  let priorAck := s.latest[row.id]?.bind Message.toTimestamp
  let toTimestamp := priorAck <|> row.toTimestamp
  ⟨s.latest.insert row.id { row with toTimestamp := toTimestamp }, order⟩

/-- `order.into_iter().filter_map(|id| latest.remove(&id))` -/
def drain : List String → BTreeMap String Message → List Message
  | [], _ => []
  | id :: order, latest =>
    match latest[id]? with
    | some m => m :: drain order (latest.erase id)
    | none => drain order latest

def fold (rows : List Message) : List Message :=
  let s := rows.foldl foldRow ⟨∅, []⟩
  drain s.order s.latest

def unacked (rows : List Message) : List Message := (fold rows).filter fun row => row.toTimestamp.isNone

/-- The last row of an id wins, its first ack stays. -/
def foldMerge : Merge Message.id where
  run prior row := { row with toTimestamp := prior.toTimestamp <|> row.toTimestamp }
  keeps _ _ _ := rfl

def foldTable (rows : List Message) : Table Message.id := rows.foldl (Table.upsert foldMerge) .empty

/-- The map and the order hold what the table does. -/
structure FoldState.Holds (s : FoldState) (t : Table Message.id) : Prop where
  order  : s.order = t.keys
  latest : ∀ id : String, s.latest[id]? = t.get id

theorem foldRow_holds {s : FoldState} {t : Table Message.id} (h : s.Holds t) (row : Message) :
    (foldRow s row).Holds (t.upsert foldMerge row) := by
  have hmem : s.latest.contains row.id = true ↔ row.id ∈ t.keys := by
    rw [← Table.get_isSome, ← h.latest, Std.ExtTreeMap.contains_eq_isSome_getElem?]
  refine ⟨?_, fun id => ?_⟩
  · rw [Table.keys_upsert, ← h.order]
    exact if_congr (hmem.trans (by rw [h.order])) rfl rfl
  · rw [Table.get_upsert, foldRow, BTreeMap.getElem?_insert, h.latest, h.latest]
    by_cases hid : row.id = id
    · subst hid
      cases t.get row.id <;> simp [foldMerge]
    · rw [if_neg hid, if_neg hid]

theorem foldTable_holds (rows : List Message) :
    (rows.foldl foldRow ⟨∅, []⟩).Holds (foldTable rows) := by
  induction rows using List.reverseRecOn with
  | nil => exact ⟨rfl, fun id => by simp [foldTable]⟩
  | append_singleton rows row ih =>
    rw [foldTable, List.foldl_append, List.foldl_append]
    exact foldRow_holds ih row

/-- Without a repetition in `order`, a removed row is not asked for again. -/
theorem drain_eq {order : List String} {latest : BTreeMap String Message} (h : order.Nodup) :
    drain order latest = order.filterMap fun id => latest[id]? := by
  induction order generalizing latest with
  | nil => rfl
  | cons id order ih =>
    obtain ⟨hid, horder⟩ := List.nodup_cons.1 h
    have hrest : (order.filterMap fun k => (latest.erase id)[k]?) =
        order.filterMap fun k => latest[k]? := by
      refine List.filterMap_congr fun k hk => ?_
      rw [BTreeMap.getElem?_erase, if_neg]
      rintro rfl
      exact hid hk
    rw [drain]
    cases hget : latest[id]? with
    | none =>
      simp only
      rw [List.filterMap_cons_none hget, ih horder]
    | some m =>
      simp only
      rw [List.filterMap_cons_some hget, ih horder, hrest]

/-- **`fold` (bus.rs:588)** lists the rows of `foldTable`. -/
theorem fold_eq_rows (rows : List Message) : fold rows = (foldTable rows).rows := by
  have h := foldTable_holds rows
  have hrows := Table.rows_eq_filterMap (foldTable rows)
  unfold fold
  simp only
  rw [drain_eq (h.order ▸ (foldTable rows).unique), h.order, hrows]
  exact List.filterMap_congr fun id _ => h.latest id

/-! ## The tables -/

inductive DeliveryState where
  | appended | claimedBySupervisor | submittedToHarness | steered | steeringFailed
  | acceptedByHarness | rejectedByHarness | heldForTurnBoundary | queuedInHookInbox
  | pastedIntoPane | heldInMailbox | turnStarted | turnEnded | replyAppended | noReply
  | parentDoorDelivered | parentDoorFailed | cooledOff | routeDead
deriving DecidableEq, Repr

/-- The columns of `agent_mail` that an envelope fills. -/
structure MailColumns where
  messageId     : String
  fromRoute     : String
  toRoute       : String
  fromTimestamp : String
  toTimestamp   : Option String
  kind          : String
  replyTo       : Option String
  body          : String
  refId         : Option String
  rc            : Option Int
  detail        : Option String
deriving DecidableEq, Repr

/-- A row of `agent_mail`, without `seq`: the rows of a table stand in its order. -/
structure MailRow extends MailColumns where
  mailbox : String
deriving DecidableEq, Repr

def Message.columns (m : Message) : MailColumns :=
  ⟨m.id, m.fromRoute, m.toRoute, m.fromTimestamp, m.toTimestamp, m.kind.asStr, m.replyTo, m.body,
    m.ref, m.rc, m.detail⟩

structure Transition where
  messageId : String
  sequence  : Nat
  route     : String
  harness   : Option String
  outcome   : DeliveryState
  detail    : String
  errorCode : Option String
  atMs      : Nat
deriving DecidableEq, Repr

/-- `PRIMARY KEY (message_id, sequence)` -/
def Transition.key (t : Transition) : String × Nat := (t.messageId, t.sequence)

def mailKey (row : MailRow) : String := row.messageId

structure Mailbox where
  mail        : Table mailKey
  transitions : Table Transition.key

namespace Mailbox

def empty : Mailbox := ⟨.empty, .empty⟩

def transitionsOf (db : Mailbox) (messageId : String) : List Transition :=
  db.transitions.rows.filter fun t => t.messageId = messageId

def hasDeliveryTransition (db : Mailbox) (messageId : String) : Bool :=
  !(db.transitionsOf messageId).isEmpty

/-- `COALESCE(MAX(sequence), 0) + 1` -/
def nextSequence (db : Mailbox) (messageId : String) : Nat :=
  ((db.transitionsOf messageId).map Transition.sequence).foldr max 0 + 1

theorem lt_nextSequence {db : Mailbox} {t : Transition} (h : t ∈ db.transitions.rows) :
    t.sequence < db.nextSequence t.messageId := by
  have hmem : t.sequence ∈ (db.transitionsOf t.messageId).map Transition.sequence :=
    List.mem_map_of_mem (List.mem_filter.2 ⟨h, by simp⟩)
  exact Nat.lt_succ_of_le (List.le_max_of_le' 0 hmem le_rfl)

theorem nextSequence_fresh (db : Mailbox) (messageId : String) :
    (messageId, db.nextSequence messageId) ∉ db.transitions.keys := by
  intro h
  obtain ⟨t, ht, hkey⟩ := List.mem_map.1 h
  have hlt := lt_nextSequence ht
  simp only [Transition.key, Prod.mk.injEq] at hkey
  rw [hkey.1, hkey.2] at hlt
  exact lt_irrefl _ hlt

def appendDeliveryTransition (db : Mailbox) (messageId route : String) (harness : Option String)
    (outcome : DeliveryState) (detail : String) (errorCode : Option String) (atMs : Nat) : Mailbox :=
  let row : Transition :=
    ⟨messageId, db.nextSequence messageId, route, harness, outcome, detail, errorCode, atMs⟩
  { db with transitions := db.transitions.push row (db.nextSequence_fresh messageId) }

/-- `ON CONFLICT(message_id) DO UPDATE SET …` -/
def mailMerge : Merge mailKey where
  run old excluded :=
    { old with
      toTimestamp := excluded.toTimestamp <|> old.toTimestamp
      kind := excluded.kind
      body := excluded.body
      replyTo := excluded.replyTo
      refId := excluded.refId
      rc := excluded.rc
      detail := excluded.detail }
  keeps _ _ h := h

/-- The insert, under the trigger `agent_mail_needs_transition`. -/
def insertMail (db : Mailbox) (row : MailRow) : Except String Mailbox :=
  if db.hasDeliveryTransition row.messageId then .ok { db with mail := db.mail.upsert mailMerge row }
  else .error "agent_mail row without a delivery transition"

def writeMessage (db : Mailbox) (mailbox : String) (message : Message) (detail : String)
    (nowMs : Nat) : Except String Mailbox :=
  let db := if db.hasDeliveryTransition message.id then db
    else db.appendDeliveryTransition message.id message.toRoute none .appended detail none nowMs
  db.insertMail { message.columns with mailbox := mailbox }

theorem hasDeliveryTransition_append {db : Mailbox} {messageId route : String}
    {harness : Option String} {outcome : DeliveryState} {detail : String} {errorCode : Option String}
    {atMs : Nat} :
    (db.appendDeliveryTransition messageId route harness outcome detail errorCode
      atMs).hasDeliveryTransition messageId = true := by
  simp [hasDeliveryTransition, transitionsOf, appendDeliveryTransition, Table.push]

/-- **`write_message` (bus.rs:1057)** never meets the trigger. -/
theorem writeMessage_ok (db : Mailbox) (mailbox : String) (message : Message) (detail : String)
    (nowMs : Nat) : ∃ db', db.writeMessage mailbox message detail nowMs = .ok db' ∧
      db'.mail = db.mail.upsert mailMerge { message.columns with mailbox := mailbox } ∧
      db'.transitions = if db.hasDeliveryTransition message.id then db.transitions
        else (db.appendDeliveryTransition message.id message.toRoute none .appended detail none
          nowMs).transitions := by
  unfold writeMessage insertMail
  simp only
  by_cases h : db.hasDeliveryTransition message.id = true
  · rw [if_pos h, if_pos (show db.hasDeliveryTransition message.columns.messageId = true from h)]
    exact ⟨_, rfl, rfl, (if_pos h).symm⟩
  · have happend : (db.appendDeliveryTransition message.id message.toRoute none .appended detail none
        nowMs).hasDeliveryTransition message.columns.messageId = true := hasDeliveryTransition_append
    rw [if_neg h, if_pos happend]
    exact ⟨_, rfl, rfl, (if_neg h).symm⟩

end Mailbox

/-! ## Sequences of rows -/

/-- A row as it reaches the database: its mailbox, the word for its first transition, the clock. -/
structure Arrival where
  message : Message
  mailbox : String
  detail  : String
  nowMs   : Nat

def Arrival.row (a : Arrival) : MailRow := { a.message.columns with mailbox := a.mailbox }

def Mailbox.writeAll (db : Mailbox) (arrivals : List Arrival) : Except String Mailbox :=
  arrivals.foldlM (fun db a => db.writeMessage a.mailbox a.message a.detail a.nowMs) db

theorem writeAll_ok (db : Mailbox) (arrivals : List Arrival) :
    ∃ db', db.writeAll arrivals = .ok db' ∧
      db'.mail = (arrivals.map Arrival.row).foldl (Table.upsert Mailbox.mailMerge) db.mail := by
  induction arrivals generalizing db with
  | nil => exact ⟨db, rfl, rfl⟩
  | cons a arrivals ih =>
    obtain ⟨db1, hstep, hmail, -⟩ := db.writeMessage_ok a.mailbox a.message a.detail a.nowMs
    obtain ⟨db', hrest, hmail'⟩ := ih db1
    refine ⟨db', ?_, ?_⟩
    · rw [Mailbox.writeAll, List.foldlM_cons, hstep]
      exact hrest
    · rw [hmail', hmail]
      rfl

theorem writeAll_append (db : Mailbox) (as bs : List Arrival) :
    db.writeAll (as ++ bs) = db.writeAll as >>= fun db => db.writeAll bs := List.foldlM_append

end BoopStore
