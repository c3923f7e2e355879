import HafleyRs.BoopStore.Tail
import HafleyRs.BoopStore.TurnStore

/-!
# Syncing a transcript (`crates/boop-store/src/ident.rs`)

| here | there |
| --- | --- |
| `SyncCursor`, `Walk` | 136, 181 |
| `cursorState`, `ensureCursor`, `setCursorModified` | 1972, 1906, 1917 |
| `addTurn` | 1591 |
| `projectLine`, `blocksOf`, `projectBlock`, `projectUsage` | 4262, its blocks (4319), the loop over them (4342), its usage (4393) |
| `classifyUserRole`, `parseUsage` | 4428, 4467 |
| `projectTranscriptWith`, `projectRecord` | 4072, the loop over its lines (4105) |
| `syncSessionWith` | 4000 |

`Codec` is what other crates read: a line of JSON, a time stamp. A store is the turns, tool facts and usage, and the
cursor row of one session and path. Of a `pr-link` the row of the PR and its notice, and of a sync the observations,
relations and the status are elsewhere; what `on_record` writes is a relation. One of them that fails rolls the pass
back.
-/

namespace BoopStore.Transcript

structure Codec where
  fromSlice  : Bytes → Option Json
  parseIsoMs : String → Option Nat

structure Walk where
  store : TurnStore
  turn  : Nat
  stat  : SyncStat

def Walk.record (w : Walk) (inserted : Nat) : Walk :=
  { w with
    stat := if inserted = 0 then { w.stat with dropped := w.stat.dropped + 1 }
      else { w.stat with written := w.stat.written + 1 } }

def addTurn (store : TurnStore) (session : String) (turn ts : Nat) (role said : String) (cwd : Option String) :
    TurnStore × Nat :=
  let sourceClass := if role ∈ ["assistant", "tool", "system", "meta"] then "harness" else "unknown"
  store.addTurnWithSource session turn ts role said cwd sourceClass

/-! ## One record -/

def textBlock (text : String) : Json := .obj [("type", .str "text"), ("text", .str text)]

/-- A message is an object with `content`, or a bare text on older records. -/
def blocksOf (message : Json) : List Json :=
  match message with
  | .str text => [textBlock text]
  | message =>
    match message.get "content" with
    | some (.str text) => [textBlock text]
    | some (.arr items) => items
    | _ => []

def classifyUserRole (recordType : String) (object : Json) (blocks : List Json) : String :=
  if recordType ≠ "user" then recordType
  else if blocks.any fun block => block.strField "type" = some "tool_result" then "user"
  else if object.strField "promptSource" = some "system" ∨ ((object.get "isMeta").bind Json.asBool).getD false then
    "meta"
  else "user"

/-- The two windows of the cache; a flat count goes to the shorter. -/
def cacheCreation (usage : Json) : Int × Int :=
  let count := fun key => ((usage.get key).bind Json.asI64).getD 0
  let split := fun key => ((usage.get "cache_creation").bind (Json.get key)).bind Json.asI64
  match split "ephemeral_5m_input_tokens", split "ephemeral_1h_input_tokens" with
  | none, none => (count "cache_creation_input_tokens", 0)
  | five, hour => (five.getD 0, hour.getD 0)

def parseUsage (object message : Json) (ts : Nat) : Option UsageRow := do
  let usage ← message.get "usage"
  let _ ← usage.asObject
  let messageId ← message.strField "id"
  let count := fun key => ((usage.get key).bind Json.asI64).getD 0
  let created := cacheCreation usage
  return {
    ts
    messageId
    requestId := (object.strField "requestId").getD ""
    model := (message.strField "model").getD "unknown"
    serviceTier := usage.strField "service_tier"
    inputTokens := count "input_tokens"
    outputTokens := count "output_tokens"
    cacheCreate5mTokens := created.1
    cacheCreate1hTokens := created.2
    cacheReadTokens := count "cache_read_input_tokens"
    isSidechain := ((object.get "isSidechain").bind Json.asBool).getD false
    costUsdRecorded := (object.get "costUSD").bind Json.asNumber }

/-- A block of text or a tool call is a turn; the ordinal of the first of them is kept. -/
def projectBlock (sid : String) (ts : Nat) (role : String) (cwd : Option String) (s : Walk × Option Nat)
    (block : Json) : Except String (Walk × Option Nat) := do
  let (w, firstTurn) := s
  let kind := (block.strField "type").getD ""
  let turn := w.turn + 1
  if kind = "text" then
    let sourceClass :=
      if role = "user" then "human"
      else if role ∈ ["meta", "assistant", "tool", "system"] then "harness"
      else "unknown"
    let (store, inserted) ← w.store.writeTurnClassified sid turn ts role
      ((block.strField "text").getD "") cwd sourceClass
    return ({ w with store, turn }.record inserted, some (firstTurn.getD turn))
  else if kind = "tool_use" then
    let name := (block.strField "name").getD ""
    let (store, inserted) := addTurn w.store sid turn ts "tool" name cwd
    let store := store.emitToolFact sid turn ts name (block.get "input")
    return ({ w with store, turn }.record inserted, some (firstTurn.getD turn))
  else return s

/-- A new call takes the ordinal of the first block, or one of its own where there is none. -/
def projectUsage (sid : String) (ts : Nat) (role : String) (cwd : Option String) (usage : UsageRow)
    (s : Walk × Option Nat) : Except String Walk := do
  let (w, firstTurn) := s
  let (store, isNew) := w.store.internRequest usage.messageId usage.requestId
  let w := { w with store }
  let (w, turn) :=
    if !isNew then (w, 0)
    else match firstTurn with
      | some turn => (w, turn)
      | none =>
        let turn := w.turn + 1
        let (store, inserted) := addTurn w.store sid turn ts role "" cwd
        ({ w with store, turn }.record inserted, turn)
  let (store, changed) ← w.store.addUsage sid turn isNew usage
  let stat :=
    if changed then
      if isNew then { w.stat with usageWritten := w.stat.usageWritten + 1 }
      else { w.stat with usageUpdated := w.stat.usageUpdated + 1 }
    else w.stat
  return { w with store, stat }

def timestamp (codec : Codec) (value : Json) : Nat := ((value.strField "timestamp").bind codec.parseIsoMs).getD 0

/-- The url of a `pr-link`. -/
def prUrl (object : Json) : String :=
  (((object.get "prUrl").orElse fun _ => object.get "url").bind Json.asStr).getD ""

def projectValue (codec : Codec) (sid : String) (w : Walk) (object : Json) : Except String Walk :=
  let ts := timestamp codec object
  let recordType := (object.strField "type").getD ""
  let cwd := object.strField "cwd"
  if recordType = "pr-link" then
    if (prUrl object).isEmpty then return w
    else
      let turn := w.turn + 1
      let (store, inserted) := addTurn w.store sid turn ts "system" "" cwd
      return { w with store, turn }.record inserted
  else if recordType ≠ "user" ∧ recordType ≠ "assistant" then return w
  else match object.get "message" with
    | none => return w
    | some message => do
      let blocks := blocksOf message
      let role := classifyUserRole recordType object blocks
      let s ← blocks.foldlM (projectBlock sid ts role cwd) (w, none)
      match parseUsage object message ts with
      | none => return s.1
      | some usage => projectUsage sid ts role cwd usage s

/-- A line that is no JSON, or no object, is passed over. -/
def projectLine (codec : Codec) (sid : String) (w : Walk) (line : Bytes) : Except String Walk :=
  match codec.fromSlice line with
  | none => return w
  | some value => if value.asObject.isNone then return w else projectValue codec sid w value

/-! ## One pass -/

structure SyncCursor where
  offset            : Nat := 0
  modifiedMs        : Nat := 0
  projectionVersion : Nat := 0
deriving DecidableEq, Repr

structure CursorRow extends SyncCursor where
  record    : Option String := none
  turn      : Nat := 0
  timestamp : Nat := 0
deriving DecidableEq, Repr

structure Store where
  turns  : TurnStore
  cursor : Option CursorRow

def cursorState (store : Store) : SyncCursor := (store.cursor.map CursorRow.toSyncCursor).getD {}

def ensureCursor (store : Store) (offset : Nat) : Store :=
  { store with cursor := some (store.cursor.getD { offset }) }

def setCursorModified (store : Store) (offset modifiedMs projectionVersion : Nat) : Store :=
  { store with cursor := some { store.cursor.getD {} with offset, modifiedMs, projectionVersion } }

/-- A line, and the `UPDATE` of the cursor row behind it. -/
def projectRecord (codec : Codec) (sid : String) (s : Walk × Option CursorRow) (line : CompleteLine) :
    Except String (Walk × Option CursorRow) := do
  let w ← projectLine codec sid s.1 line.bytes
  let value := (codec.fromSlice line.bytes).getD .null
  let record := (value.strField "uuid").getD "record"
  return (w, s.2.map fun row => { row with record, turn := w.turn, timestamp := timestamp codec value })

structure Ingested where
  stat       : SyncStat
  nextCursor : Nat
deriving DecidableEq, Repr

def projectTranscriptWith (codec : Codec) (sid : String) (store : Store) (file : Bytes) (start : Nat) :
    Except String (Store × Ingested) := do
  let result := readCompleteLines file start
  if result.lines.isEmpty then return (store, ⟨{}, start⟩)
  let (w, cursor) ← result.lines.foldlM (projectRecord codec sid)
    (⟨store.turns, store.turns.maxTurn sid, {}⟩, store.cursor)
  return (⟨w.store, cursor⟩, ⟨w.stat, result.nextOffset⟩)

def syncSessionWith (codec : Codec) (sid : String) (projectionVersion modifiedMs : Nat) (store : Store) (file : Bytes) :
    Except String (Store × SyncStat) := do
  let cursor := cursorState store
  let (store, ingested) ← projectTranscriptWith codec sid (ensureCursor store cursor.offset) file cursor.offset
  return (setCursorModified store ingested.nextCursor modifiedMs projectionVersion, ingested.stat)

end BoopStore.Transcript
