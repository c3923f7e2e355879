import HafleyRs.BoopHarness.OpencodeSync
import HafleyRs.BoopHarness.OpencodeSyncRuns
import HafleyRs.Lib.Batches

/-!
# Ingesting OpenCode (`crates/boop-harness/src/harness/opencode.rs`)

| here | there |
| --- | --- |
| `TurnStore.writeTurn` | `write_turn` (boop-store/src/ident.rs:4141) |
| `Part`, `Part.read` | 1101, the literal of `visit_parts_for_messages` (1419) |
| `patchBody`, `filePath`, `gapBody`, `toolBody` | 1136–1188 |
| `usage`, `timestamp` | `Message::usage` (1065), `Message.ts` |
| `addTurn`, `writePart`, `finishMessage` | `write_part` (869), `finish_message` (1017) |
| `messageIndexes`, `queriedRows`, `partVisits` | `visit_parts_for_messages` (1376): a batch's map, its query, all batches |
| `visitPart`, `finishRest`, `partLoop` | the closure of `Opencode::ingest` (371), what follows the visits, both |
| `Source`, `ingest` | the tables `message` and `part`, `Opencode::ingest` (357) |

The two tables have primary keys. The loop is over any two functions in the place of `write_part` and
`finish_message`, of which the latter only reads the first turn of its message. `partLoop` takes an index out of bounds
for a panic. A text column holds UTF-8. The report of an unknown kind goes to the log alone.
-/

namespace BoopStore.TurnStore

def writeTurn (store : TurnStore) (session : String) (turn ts : Nat) (role said : String) (cwd : Option String) :
    Except String (TurnStore × Nat) :=
  store.writeTurnClassified session turn ts role said cwd
    (if role ∈ ["assistant", "tool", "system", "meta"] then "harness" else "unknown")

end BoopStore.TurnStore

namespace BoopHarness.Opencode
open BoopStore

/-! ## Parts -/

structure Part where
  kind   : String
  tool   : String
  text   : String
  input  : Option Json
  output : Option Json
  error  : Option Json
  hash   : String
  files  : List String
  raw    : Bytes

/-- The text of a column. -/
def columnText (raw : Bytes) : String :=
  (String.fromUTF8? ⟨(raw.map UInt8.ofFin).toArray⟩).getD ""

namespace Part

def read (data : Json) (raw : Bytes) : Part where
  kind   := (data.strField "type").getD ""
  tool   := (data.strField "tool").getD ""
  text   := (data.strField "text").getD ""
  input  := (data.get "state").bind (Json.get "input")
  output := (data.get "state").bind (Json.get "output")
  error  := (data.get "state").bind (Json.get "error")
  hash   := (data.strField "hash").getD ""
  files  := (((data.get "files").bind Json.asArray).map fun files => files.filterMap Json.asStr).getD []
  raw    := raw

def patchBody (part : Part) : String :=
  let files := ", ".intercalate part.files
  if files.isEmpty then "patch " ++ part.hash else "patch " ++ part.hash ++ "\nfiles: " ++ files

def filePath (codec : Codec) (part : Part) : String :=
  match codec.fromSlice part.raw with
  | none => ""
  | some raw => ((raw.strField "filename").orElse fun _ => (raw.get "source").bind (Json.strField "path")).getD ""

def gapBody (part : Part) : String := part.kind ++ " (unprojected)\n" ++ columnText part.raw

def toolBody (codec : Codec) (part : Part) : String :=
  let line := fun (name : String) (value : Option Json) =>
    (value.map fun v => "\n" ++ name ++ ": " ++ codec.toText v).getD ""
  "tool " ++ part.tool ++ line "input" part.input ++ line "output" part.output ++ line "error" part.error

end Part

/-! ## Messages -/

/-- `ts as u64` of a column of 64 bits with a sign. -/
def timestamp (message : MessageRow) : Nat := (message.ts % 2 ^ 64).toNat

def usage (codec : Codec) (message : MessageRow) : Option UsageRow := do
  let data := messageData codec message.raw
  if role codec message ≠ "assistant" then none
  let tokens ← (data.get "tokens").bind fun tokens => tokens.asObject.map Json.obj
  let count := fun key => ((tokens.get key).bind Json.asI64).getD 0
  let cache := fun key => (((tokens.get "cache").bind (Json.get key)).bind Json.asI64).getD 0
  return {
    ts := timestamp message
    messageId := message.id
    requestId := ""
    model := (data.strField "modelID").getD "unknown"
    serviceTier := none
    inputTokens := count "input"
    outputTokens := Int.bmod (count "output" + count "reasoning") (2 ^ 64)
    cacheCreate5mTokens := cache "write"
    cacheCreate1hTokens := 0
    cacheReadTokens := cache "read"
    isSidechain := false
    costUsdRecorded := (data.get "cost").bind Json.asNumber }

/-! ## What a part and a message write -/

def structuralParts : List String := ["step-start", "step-finish", "snapshot", "compaction"]

/-- The next ordinal, its row and the count; the first of a message is kept. -/
def addTurn (write : TurnStore → Nat → Except String (TurnStore × Nat)) (first : Option Nat) (w : Walk) :
    Except String (Walk × Option Nat) := do
  let turn := w.turn + 1
  let (store, inserted) ← write w.store turn
  return (⟨store, turn, Omp.record w.stat inserted⟩, some (first.getD turn))

def writePart (codec : Codec) (sid : String) (message : MessageRow) (part : Part) (first : Option Nat) (w : Walk) :
    Except String (Walk × Option Nat) := do
  let ts := timestamp message
  let role := role codec message
  let plain := fun role said => addTurn (fun store turn => store.writeTurn sid turn ts role said none) first w
  if part.kind = "text" then
    let sourceClass :=
      if role = "user" then "human" else if role = "assistant" ∨ role = "tool" then "harness" else "unknown"
    addTurn (fun store turn => store.writeTurnClassified sid turn ts role part.text none sourceClass) first w
  else if part.kind = "tool" then
    let (w, first) ← plain "tool" (part.toolBody codec)
    return ({ w with store := w.store.emitToolFact sid w.turn ts part.tool part.input }, first)
  else if part.kind = "reasoning" then plain role ("reasoning: " ++ part.text)
  else if part.kind = "patch" then plain "tool" part.patchBody
  else if part.kind = "file" then
    let path := part.filePath codec
    let sourceClass := if role = "user" then "human" else "harness"
    let (w, first) ←
      addTurn (fun store turn => store.writeTurnClassified sid turn ts role ("file " ++ path) none sourceClass) first w
    if path.isEmpty then return (w, first)
    let input := Json.obj [("file_path", .str path)]
    return ({ w with store := w.store.emitToolFact sid w.turn ts "Read" (some input) }, first)
  else if part.kind ∈ structuralParts then return (w, first)
  else plain "tool" part.gapBody

def finishMessage (codec : Codec) (sid : String) (message : MessageRow) (first : Option Nat) (w : Walk) :
    Except String Walk :=
  match usage codec message with
  | none => return w
  | some usage => do
    let (w, attach) ← match first with
      | some turn => pure (w, turn)
      | none => do
        let (store, inserted) ←
          w.store.writeTurn sid (w.turn + 1) (timestamp message) (role codec message) "" none
        pure (⟨store, w.turn + 1, Omp.record w.stat inserted⟩, w.turn + 1)
    let (store, isNew, changed) ← w.store.writeUsage sid attach usage
    let stat :=
      if changed then
        if isNew then { w.stat with usageWritten := w.stat.usageWritten + 1 }
        else { w.stat with usageUpdated := w.stat.usageUpdated + 1 }
      else w.stat
    return { w with store, stat }

/-! ## The visits -/

/-- The map of a batch from ids to indexes; of one id the last stays. -/
def messageIndexes (batch : List MessageRow) (id : String) : Option Nat :=
  (batch.zipIdx.reverse.find? fun m => m.1.id = id).map Prod.snd

/-- The rows of a batch's query: `ORDER BY CASE message_id … END, id`. -/
def queriedRows (parts : List PartRow) (batch : List MessageRow) : List PartRow :=
  (parts.filter fun p => p.messageId ∈ batch.map MessageRow.id).insertionSort
    (Batches.GroupLe PartRow.messageId PartRow.id (batch.map MessageRow.id))

/-- The rows of known messages that parse. -/
def batchVisits (codec : Codec) (parts : List PartRow) (batch : List MessageRow) (batchIndex : Nat) :
    List (Nat × Part) :=
  (queriedRows parts batch).filterMap fun p => do
    let index ← messageIndexes batch p.messageId
    let data ← codec.fromSlice p.raw
    return (batchIndex * idBatch + index, Part.read data p.raw)

def partVisits (codec : Codec) (parts : List PartRow) (messages : List MessageRow) : List (Nat × Part) :=
  (Batches.chunksOf idBatch messages).zipIdx.flatMap fun batch => batchVisits codec parts batch.1 batch.2

/-! ## The loop -/

section
variable {σ : Type}

/-- The variables of an ingest; `state` is all that is not about the boundaries of messages. -/
structure Visiting (σ : Type) where
  state   : σ
  first   : Option Nat
  current : Nat
  active  : Bool

/-- What is done with a part, and with a message behind its parts. -/
structure Handlers (σ : Type) where
  writePart     : MessageRow → Part → Option Nat → σ → Except String (σ × Option Nat)
  finishMessage : MessageRow → Option Nat → σ → Except String σ

variable (h : Handlers σ) (messages : List MessageRow)

def messageAt (index : Nat) : Except String MessageRow :=
  match messages[index]? with
  | some message => .ok message
  | none => .error "index out of bounds"

def finishEach (l : List MessageRow) (first : Option Nat) (state : σ) : Except String σ :=
  l.foldlM (fun state message => h.finishMessage message first state) state

/-- The branches before `write_part`. -/
def crossBoundary (v : Visiting σ) (index : Nat) : Except String (Visiting σ) :=
  if !v.active then do
    let state ← finishEach h (messages.take index) v.first v.state
    return ⟨state, v.first, index, true⟩
  else if index ≠ v.current then do
    let message ← messageAt messages v.current
    let state ← h.finishMessage message v.first v.state
    let state ← finishEach h ((messages.take index).drop (v.current + 1)) none state
    return ⟨state, none, index, true⟩
  else return v

def visitPart (v : Visiting σ) (visit : Nat × Part) : Except String (Visiting σ) := do
  let v ← crossBoundary h messages v visit.1
  let message ← messageAt messages visit.1
  let (state, first) ← h.writePart message visit.2 v.first v.state
  return { v with state, first }

/-- Behind the last part. -/
def finishRest (v : Visiting σ) : Except String σ :=
  if v.active then do
    let message ← messageAt messages v.current
    let state ← h.finishMessage message v.first v.state
    finishEach h (messages.drop (v.current + 1)) none state
  else finishEach h (messages.drop v.current) none v.state

def partLoop (visits : List (Nat × Part)) (state : σ) : Except String σ := do
  let v ← visits.foldlM (visitPart h messages) ⟨state, none, 0, false⟩
  finishRest h messages v

end

/-! ## An ingest -/

/-- The messages of the source; the ids are a key. -/
structure Source where
  db  : Db
  ids : (db.messages.map MessageRow.id).Nodup

def handlers (codec : Codec) (sid : String) : Handlers Walk where
  writePart     := writePart codec sid
  finishMessage := finishMessage codec sid

/-- `parts` is the table as the visits find it. -/
def ingest (codec : Codec) (source : Source) (parts : Table PartRow.id) (sid : String) (store : TurnStore)
    (cursor : Nat) : Except String (TurnStore × Omp.Ingested) := do
  let messages := messagesAfter codec source.db sid cursor
  if messages.isEmpty then return (store, ⟨{}, cursor⟩)
  let w ← partLoop (handlers codec sid) messages (partVisits codec parts.rows messages)
    ⟨store, store.beginWalk sid, {}⟩
  return (w.store, ⟨w.stat, (messages.getLast?.map MessageRow.rowid).getD cursor⟩)

end BoopHarness.Opencode

/-!
# What an ingest of OpenCode writes, message by message

`closed`: the state once the messages before some index are finished. A visit of a message's parts and then closing
behind it does what closing before it and then the message does (`Visited.message`), whatever is done with parts and
messages.
-/

namespace BoopHarness.Opencode
open BoopStore

/-! ## The plain loop -/

section
variable {σ : Type} (h : Handlers σ)

def writeParts (message : MessageRow) (parts : List Part) (state : σ) (first : Option Nat) :
    Except String (σ × Option Nat) :=
  parts.foldlM (fun s part => h.writePart message part s.2 s.1) (state, first)

def writeMessage (parts : MessageRow → List Part) (state : σ) (message : MessageRow) : Except String σ := do
  let (state, first) ← writeParts h message (parts message) state none
  h.finishMessage message first state

end

section
variable {σ : Type} {h : Handlers σ} {messages : List MessageRow}

/-- The state once the messages before `k` are finished. -/
def Visiting.closed (h : Handlers σ) (messages : List MessageRow) (v : Visiting σ) (k : Nat) : Except String σ :=
  if v.active then do
    let message ← messageAt messages v.current
    let state ← h.finishMessage message v.first v.state
    finishEach h ((messages.take k).drop (v.current + 1)) none state
  else finishEach h (messages.take k) none v.state

/-- The last message with a part is before `k`; without one the variables are those of the start. -/
structure Visiting.Before (v : Visiting σ) (k : Nat) : Prop where
  active   : v.active = true → v.current < k
  inactive : v.active = false → v.current = 0 ∧ v.first = none

end

/-! ## The order of what is done -/

inductive Done where
  | part (message : MessageRow) (part : Part)
  | finished (message : MessageRow)

/-- Handlers that only note what they are called for. -/
def noted : Handlers (List Done) where
  writePart     := fun message part first done => .ok (done ++ [.part message part], first)
  finishMessage := fun message _ done => .ok (done ++ [.finished message])

end BoopHarness.Opencode
