import HafleyRs.Lib.Machine
import HafleyRs.BoopHarness.Omp

/-!
# Syncing OpenCode (`crates/boop-harness/src/harness/opencode.rs`, `crates/boop/src/cli/db.rs`)

| here | there |
| --- | --- |
| `MessageRow`, `PartRow`, `Db` | the tables `message`, `part` and `session` of OpenCode |
| `assistantComplete`, `projectable`, `messagesAfter` | `messages_after` (opencode.rs:1233) |
| `partsOf`, `visitsOf` | `visit_parts_for_messages` (1376) |
| `visit`, `ingestCalls` | the closure of `Opencode::ingest` (371) and the calls behind it |
| `needsSync`, `lastRowid` | `sync_candidates_from_connection` (734), `last_message_rowids_for` (802) |
| `SyncDecision`, `decide` | db.rs:181, `SyncDecision::for_session` (189) |
| `Cursor`, `commitSession` | `sync_cursor`, what `sync_session_with` (boop-store/src/ident.rs:4000) keeps of it |
| `Phase`, `passStep` | `sync_all_budgeted` (db.rs:622), by the reads of it that can fall apart |
| `Write`, `write` | what OpenCode does to its store |

A pass reads the cursors, the sessions, the last rowids, and for each session in turn its messages and their parts in
batches; between two reads OpenCode may write. The writes of a session and its cursor are one transaction. One pass
runs at a time. The order in which a pass takes its sessions does not matter and is that of the table.
-/

namespace BoopHarness.Opencode
open BoopStore

structure MessageRow where
  rowid   : Nat
  id      : String
  session : String
  ts      : Int
  raw     : Bytes
deriving DecidableEq, Repr

structure PartRow where
  id        : String
  messageId : String
  raw       : Bytes
deriving DecidableEq, Repr

structure SessionRow where
  id          : String
  timeUpdated : Nat
deriving DecidableEq, Repr

/-- `tracksUpdates`: the table `message` has a column `time_updated`. -/
structure Db where
  tracksUpdates : Bool
  messages      : List MessageRow
  parts         : List PartRow
  sessions      : List SessionRow
deriving DecidableEq, Repr

/-! ## Reads -/

def messageData (codec : Codec) (raw : Bytes) : Json := (codec.fromSlice raw).getD .null

def role (codec : Codec) (row : MessageRow) : String := ((messageData codec row.raw).strField "role").getD ""

/-- There is an error that is not `null`. -/
def hasError (data : Json) : Bool :=
  match data.get "error" with
  | none | some .null => false
  | some _ => true

def assistantComplete (codec : Codec) (row : MessageRow) : Bool :=
  let data := messageData codec row.raw
  ((data.get "time").bind fun time => (time.get "completed").bind Json.asI64).isSome ||
    (data.strField "finish").isSome || hasError data

def Db.hasParts (db : Db) (row : MessageRow) : Bool := db.parts.any fun p => p.messageId = row.id

/-- A complete message without parts is passed over, the first that may still change ends the walk. -/
def projectable (codec : Codec) (db : Db) : List MessageRow → List MessageRow
  | [] => []
  | row :: rows =>
    let complete := assistantComplete codec row
    if role codec row = "assistant" ∧ complete ∧ ¬ db.hasParts row then projectable codec db rows
    else if ¬ db.hasParts row ∨ (db.tracksUpdates ∧ role codec row = "assistant" ∧ ¬ complete) then []
    else row :: projectable codec db rows

/-- The rows of a session behind a rowid. -/
def Db.rowsAfter (db : Db) (session : String) (after : Nat) : List MessageRow :=
  (db.messages.filter fun m => m.session = session ∧ after < m.rowid).insertionSort fun a b => a.rowid ≤ b.rowid

def messagesAfter (codec : Codec) (db : Db) (session : String) (after : Nat) : List MessageRow :=
  projectable codec db (db.rowsAfter session after)

/-- The parts of a message that parse. -/
def partsOf (codec : Codec) (db : Db) (row : MessageRow) : List Json :=
  ((db.parts.filter fun p => p.messageId = row.id).insertionSort fun a b => a.id ≤ b.id).filterMap fun p =>
    codec.fromSlice p.raw

/-- The parts of a batch of messages, each with the index of its message. -/
def visitsOf (codec : Codec) (db : Db) (batch : List (MessageRow × Nat)) : List (Nat × Json) :=
  batch.flatMap fun m => (partsOf codec db m.1).map fun part => (m.2, part)

def idBatch : Nat := 500

/-! ## What is written -/

inductive Call where
  | writePart (message : MessageRow) (part : Json)
  | finishMessage (message : MessageRow)

def finishAll (messages : List MessageRow) : List Call := messages.map .finishMessage

structure Visited where
  current : Nat
  active  : Bool
  calls   : List Call

def visit (messages : List MessageRow) (v : Visited) (at_ : Nat × Json) : Visited :=
  let index := at_.1
  let v : Visited :=
    if !v.active then ⟨index, true, v.calls ++ finishAll (messages.take index)⟩
    else if index ≠ v.current then
      ⟨index, true, v.calls ++ finishAll (messages[v.current]?).toList ++
        finishAll ((messages.take index).drop (v.current + 1))⟩
    else v
  { v with calls := v.calls ++ (messages[index]?).toList.map fun m => .writePart m at_.2 }

/-- The calls of an ingest, in their order. -/
def ingestCalls (messages : List MessageRow) (visits : List (Nat × Json)) : List Call :=
  let v := visits.foldl (visit messages) ⟨0, false, []⟩
  if v.active then v.calls ++ finishAll (messages[v.current]?).toList ++ finishAll (messages.drop (v.current + 1))
  else v.calls ++ finishAll (messages.drop v.current)

/-! ## Candidates and decisions -/

structure Cursor where
  offset            : Nat
  modifiedMs        : Nat
  projectionVersion : Nat
deriving DecidableEq, Repr

abbrev Cursors := String → Option Cursor

/-- `Opencode::projection_version` -/
def projectionVersion : Nat := 2

def needsSync (known : Cursors) (row : SessionRow) : Bool :=
  match known row.id with
  | none => true
  | some cursor => decide (cursor.modifiedMs ≠ row.timeUpdated) || decide (cursor.projectionVersion < projectionVersion)

def Db.lastRowid (db : Db) (session : String) : Nat :=
  ((db.messages.filter fun m => m.session = session).map MessageRow.rowid).max?.getD 0

structure SyncDecision where
  newSession        : Bool
  cursorAdvanced    : Bool
  sourceModified    : Bool
  projectionUpgrade : Bool

def decideSync (known : Cursors) (row : SessionRow) (size : Nat) : SyncDecision :=
  match known row.id with
  | none => ⟨true, false, false, false⟩
  | some cursor =>
    ⟨false, decide (cursor.offset ≠ size), decide (cursor.modifiedMs ≠ row.timeUpdated),
      decide (cursor.projectionVersion < projectionVersion)⟩

def SyncDecision.needed (d : SyncDecision) : Bool :=
  d.newSession || d.cursorAdvanced || d.sourceModified || d.projectionUpgrade

/-! ## A pass -/

/-- A session that is being read. -/
structure Reading where
  row      : SessionRow
  offset   : Nat
  messages : List MessageRow
  todo     : List (MessageRow × Nat)
  visits   : List (Nat × Json)

inductive Phase where
  | idle
  | selected (known : Cursors) (changed : List SessionRow)
  | working (pending : List SessionRow)
  | reading (r : Reading) (pending : List SessionRow)

structure State where
  now     : Nat
  db      : Db
  cursors : Cursors
  /-- Everything that was written for a session. -/
  log     : String → List Call
  phase   : Phase

inductive PassEvent where
  | select | sizes | openNext | batch | commit | finish
  /-- The budget is spent, or the process dies. -/
  | stop

def Reading.nextCursor (r : Reading) : Nat := (r.messages.getLast?.map MessageRow.rowid).getD r.offset

def Reading.visitBatch (codec : Codec) (db : Db) (r : Reading) : Reading :=
  { r with visits := r.visits ++ visitsOf codec db (r.todo.take idBatch), todo := r.todo.drop idBatch }

def Reading.calls (r : Reading) : List Call := if r.messages.isEmpty then [] else ingestCalls r.messages r.visits

def commitSession (s : State) (r : Reading) : State :=
  let cursor : Cursor := ⟨r.nextCursor, r.row.timeUpdated, projectionVersion⟩
  { s with
    cursors := Function.update s.cursors r.row.id (some cursor),
    log := Function.update s.log r.row.id (s.log r.row.id ++ r.calls) }

def openSession (codec : Codec) (s : State) (row : SessionRow) : Reading :=
  let offset := ((s.cursors row.id).map Cursor.offset).getD 0
  let messages := messagesAfter codec s.db row.id offset
  ⟨row, offset, messages, messages.zipIdx, []⟩

def passStep (codec : Codec) (s : State) : PassEvent → Option State
  | .select =>
    match s.phase with
    | .idle => some { s with phase := .selected s.cursors (s.db.sessions.filter (needsSync s.cursors)) }
    | _ => none
  | .sizes =>
    match s.phase with
    | .selected known changed =>
      let pending := changed.filter fun row => (decideSync known row (s.db.lastRowid row.id)).needed
      some { s with phase := .working pending }
    | _ => none
  | .openNext =>
    match s.phase with
    | .working (row :: pending) => some { s with phase := .reading (openSession codec s row) pending }
    | _ => none
  | .batch =>
    match s.phase with
    | .reading r pending =>
      if r.todo.isEmpty then none else some { s with phase := .reading (r.visitBatch codec s.db) pending }
    | _ => none
  | .commit =>
    match s.phase with
    | .reading r pending => if r.todo.isEmpty then some { commitSession s r with phase := .working pending } else none
    | _ => none
  | .finish =>
    match s.phase with
    | .working [] => some { s with phase := .idle }
    | _ => none
  | .stop => some { s with phase := .idle }

/-! ## OpenCode -/

inductive Write where
  | session (id : String)
  | message (row : MessageRow) (parts : List PartRow)
  | part (part : PartRow)
  | update (id : String) (raw : Bytes)

/-- An assistant message that may still change. -/
def Incomplete (codec : Codec) (row : MessageRow) : Prop :=
  role codec row = "assistant" ∧ assistantComplete codec row = false

instance (codec : Codec) (row : MessageRow) : Decidable (Incomplete codec row) :=
  inferInstanceAs (Decidable (_ ∧ _))

def Db.touch (db : Db) (session : String) (now : Nat) : Db :=
  { db with sessions := db.sessions.map fun row => if row.id = session then { row with timeUpdated := now } else row }

def Db.setRaw (db : Db) (id : String) (raw : Bytes) : Db :=
  { db with messages := db.messages.map fun m => if m.id = id then { m with raw } else m }

/-- A row with a new rowid and id, in a session that is there, with parts of its own. -/
def Db.fresh (db : Db) (row : MessageRow) (parts : List PartRow) : Prop :=
  row.session ∈ db.sessions.map SessionRow.id ∧ 0 < row.rowid ∧
    (∀ m ∈ db.messages, m.rowid < row.rowid ∧ m.id ≠ row.id) ∧ (∀ p ∈ db.parts, p.messageId ≠ row.id) ∧
    ∀ p ∈ parts, p.messageId = row.id

instance (db : Db) (row : MessageRow) (parts : List PartRow) : Decidable (db.fresh row parts) :=
  inferInstanceAs (Decidable (_ ∧ _ ∧ _ ∧ _ ∧ _))

/-- A message comes with the parts it has then; an incomplete one gains parts and changes, and stays an assistant's. -/
def write (codec : Codec) (now : Nat) (db : Db) : Write → Option Db
  | .session id =>
    if id ∈ db.sessions.map SessionRow.id then none
    else some { db with sessions := db.sessions ++ [⟨id, now⟩] }
  | .message row parts =>
    if db.fresh row parts then
      some ({ db with messages := db.messages ++ [row], parts := db.parts ++ parts }.touch row.session now)
    else none
  | .part part =>
    match db.messages.find? fun m => m.id = part.messageId with
    | none => none
    | some m =>
      if Incomplete codec m then some ({ db with parts := db.parts ++ [part] }.touch m.session now) else none
  | .update id raw =>
    match db.messages.find? fun m => m.id = id with
    | none => none
    | some m =>
      if Incomplete codec m ∧ role codec { m with raw } = "assistant" then
        some ((db.setRaw id raw).touch m.session now)
      else none

inductive Event where
  | tick (ms : Nat)
  | write (w : Write)
  | pass (e : PassEvent)

def step (codec : Codec) (s : State) : Event → Option State
  | .tick ms => some { s with now := s.now + ms }
  | .write w => (write codec s.now s.db w).map fun db => { s with db }
  | .pass e => passStep codec s e

/-- An empty store with the column, at some millisecond, and nothing synced. -/
def start (now : Nat) : State := ⟨now, ⟨true, [], [], []⟩, fun _ => none, fun _ => [], .idle⟩

end BoopHarness.Opencode
