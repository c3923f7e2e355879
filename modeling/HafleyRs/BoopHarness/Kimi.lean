import HafleyRs.BoopHarness.OpencodeIngest

/-!
# Kimi transcripts (`crates/boop-harness/src/harness/kimi.rs`)

| here | there |
| --- | --- |
| `normalizeToolName`, `appendMessageText` | kimi.rs:830, 838 |
| `valueAsText`, `partText`, `partBody` | 860, 870, 885 |
| `toolCallBody`, `toolResultBody` | 895, 902 |
| `TurnTokens`, `Projecting` | 935, the store and the three variables of a pass |
| `addTurn` | a turn of `project_line`: the ordinal, the row, the count |
| `appendMessage`, `usageRecord`, `loopEvent` | the branches of `project_line` (943), of usage in two steps |
| `projectValue`, `projectLine`, `ingest` | `project_line`, `Kimi::ingest` (355) |

Sums of counts are of 64 bits with a sign and wrap.
-/

namespace BoopHarness.Kimi
open BoopStore

/-! ## Bodies -/

def normalizeToolName (name : String) : String := if name = "FetchURL" then "webfetch" else name

def appendMessageText (content : Option Json) : String :=
  match content.bind Json.asArray with
  | none => ""
  | some blocks => "\n".intercalate (blocks.filterMap textPart)

def truncateChars (text : String) (maxChars : Nat) : String := .ofList (text.toList.take maxChars)

def valueAsText (codec : Codec) (value : Json) : String := value.asStr.getD (codec.toText value)

/-- `rsplit('.').next()`: what follows the last dot. -/
def lastSegment (kind : String) : String := .ofList (kind.toList.rtakeWhile (· ≠ '.'))

def partText (codec : Codec) (part : Json) (kind : String) : String :=
  let texts := ["text", kind, lastSegment kind, "content"].filterMap fun key =>
    ((part.get key).map (valueAsText codec)).filter fun text => !text.isEmpty
  texts.head?.getD (codec.toText part)

def partBody (codec : Codec) (part : Json) : String :=
  let kind := (part.strField "type").getD "part"
  let text := truncateChars (partText codec part kind) 4000
  if kind = "text" then text else "[" ++ kind ++ "] " ++ text

def toolCallBody (codec : Codec) (name : String) (args : Option Json) : String :=
  name ++ "\n" ++ truncateChars ((args.map (valueAsText codec)).getD "") 2000

def toolResultBody (codec : Codec) : Option Json → String
  | none => "tool result (empty)"
  | some result =>
    let text := match result.get "output" with
      | some (.str text) => text
      | some (.arr items) => "\n".intercalate (items.filterMap (Json.strField "text"))
      | some other => codec.toText other
      | none => ""
    let text := truncateChars (if text.isEmpty then codec.toText result else text) 4000
    if ((result.get "isError").bind Json.asBool).getD false then "error: " ++ text else text

/-! ## A pass -/

structure TurnTokens where
  turn       : Nat := 0
  input      : Int := 0
  output     : Int := 0
  cacheWrite : Int := 0
  cached     : Int := 0
deriving DecidableEq, Repr

structure Projecting where
  walk   : Walk
  tokens : TurnTokens

/-- `+=` on `i64` -/
def wrap (n : Int) : Int := Int.bmod n (2 ^ 64)

/-- The counts of a record, added. -/
def TurnTokens.add (tokens : TurnTokens) (usage : Json) : TurnTokens :=
  let count := fun key => ((usage.get key).bind Json.asI64).getD 0
  { tokens with
    input := wrap (tokens.input + count "inputOther")
    output := wrap (tokens.output + count "output")
    cacheWrite := wrap (tokens.cacheWrite + count "inputCacheCreation")
    cached := wrap (tokens.cached + count "inputCacheRead") }

/-- The totals of a turn: those at hand, or none yet. -/
def TurnTokens.forTurn (tokens : TurnTokens) (turn : Nat) : TurnTokens :=
  if tokens.turn ≠ turn then { turn } else tokens

def addTurn (write : TurnStore → Nat → Except String (TurnStore × Nat)) (w : Walk) : Except String Walk := do
  let turn := w.turn + 1
  let (store, inserted) ← write w.store turn
  return ⟨store, turn, Omp.record w.stat inserted⟩

def writeTurn (sid : String) (ts : Nat) (role said : String) (w : Walk) : Except String Walk :=
  addTurn (fun store turn => store.writeTurn sid turn ts role said none) w

def appendMessage (sid : String) (ts : Nat) (value : Json) (w : Walk) : Except String Walk :=
  match value.get "message" with
  | none => return w
  | some message =>
    let role := (message.strField "role").getD "user"
    let text := appendMessageText (message.get "content")
    let sourceClass :=
      if role = "user" then "human" else if role = "assistant" ∨ role = "tool" then "harness" else "unknown"
    if text.isEmpty then return w
    else addTurn (fun store turn => store.writeTurnClassified sid turn ts role text none sourceClass) w

def usageRow (session : SessionRef) (ts turn : Nat) (model : String) (tokens : TurnTokens) : UsageRow where
  ts                  := ts
  messageId           := session.sessionId ++ "#t" ++ toString turn
  requestId           := ""
  model               := model
  serviceTier         := none
  inputTokens         := tokens.input
  outputTokens        := tokens.output
  cacheCreate5mTokens := tokens.cacheWrite
  cacheCreate1hTokens := 0
  cacheReadTokens     := tokens.cached
  isSidechain         := session.parent.isSome
  costUsdRecorded     := none

/-- A usage before any content still needs a turn to hang on. -/
def usageTurn (sid : String) (ts : Nat) (model : String) (w : Walk) : Except String Walk :=
  if w.turn = 0 then writeTurn sid ts "assistant" ("[usage] " ++ model) w else return w

/-- The usage of the turn at hand, with its totals. -/
def writeTotals (session : SessionRef) (ts : Nat) (model : String) (tokens : TurnTokens) (w : Walk) :
    Except String Projecting := do
  let (store, isNew, changed) ←
    w.store.writeUsage session.sessionId w.turn (usageRow session ts w.turn model tokens)
  let stat :=
    if changed then
      if isNew then { w.stat with usageWritten := w.stat.usageWritten + 1 }
      else { w.stat with usageUpdated := w.stat.usageUpdated + 1 }
    else w.stat
  return ⟨{ w with store, stat }, tokens⟩

def usageRecord (session : SessionRef) (ts : Nat) (value usage : Json) (p : Projecting) : Except String Projecting := do
  let model := (value.strField "model").getD "unknown"
  let w ← usageTurn session.sessionId ts model p.walk
  writeTotals session ts model ((p.tokens.forTurn w.turn).add usage) w

def loopEvent (codec : Codec) (sid : String) (ts : Nat) (event : Json) (w : Walk) : Except String Walk :=
  if event.strField "type" = some "content.part" then
    match event.get "part" with
    | none => return w
    | some part =>
      if (partBody codec part).isEmpty then return w else writeTurn sid ts "assistant" (partBody codec part) w
  else if event.strField "type" = some "tool.call" then do
    let name := (event.strField "name").getD "tool"
    let w ← writeTurn sid ts "tool" (toolCallBody codec name (event.get "args")) w
    return { w with store := w.store.emitToolFact sid w.turn ts (normalizeToolName name) (event.get "args") }
  else if event.strField "type" = some "tool.result" then
    writeTurn sid ts "tool" (toolResultBody codec (event.get "result")) w
  else return w

/-- The object of a `usage.record`. -/
def usageIn (value : Json) : Option Json :=
  if value.strField "type" = some "usage.record" then
    (value.get "usage").bind fun usage => usage.asObject.map Json.obj
  else none

def projectValue (codec : Codec) (session : SessionRef) (value : Json) (p : Projecting) : Except String Projecting :=
  let sid := session.sessionId
  let ts := ((value.get "time").bind Json.asU64).getD 0
  if value.strField "type" = some "context.append_message" then do
    let walk ← appendMessage sid ts value p.walk
    return { p with walk }
  else if value.strField "type" = some "usage.record" then
    match usageIn value with
    | none => return p
    | some usage => usageRecord session ts value usage p
  else if value.strField "type" ≠ some "context.append_loop_event" then return p
  else match value.get "event" with
    | none => return p
    | some event => do
      let walk ← loopEvent codec sid ts event p.walk
      return { p with walk }

/-- A line that is no JSON is passed over. -/
def projectLine (codec : Codec) (session : SessionRef) (p : Projecting) (line : Bytes) : Except String Projecting :=
  match codec.fromSlice line with
  | none => return p
  | some value => projectValue codec session value p

/-- The store, the last ordinal of the session, and no totals. -/
def begin (session : SessionRef) (store : TurnStore) : Projecting :=
  ⟨⟨store, store.beginWalk session.sessionId, {}⟩, {}⟩

/-- A pass over the file from a cursor. -/
def ingest (codec : Codec) (session : SessionRef) (store : TurnStore) (file : Bytes) (cursor : Nat) :
    Except String (TurnStore × Omp.Ingested) := do
  let result := readCompleteLines file cursor
  if result.lines.isEmpty then return (store, ⟨{}, cursor⟩)
  let p ← (result.lines.map CompleteLine.bytes).foldlM (projectLine codec session) (begin session store)
  return (p.walk.store, ⟨p.walk.stat, result.nextOffset⟩)

end BoopHarness.Kimi
