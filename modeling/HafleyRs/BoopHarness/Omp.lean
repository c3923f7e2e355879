import HafleyRs.BoopStore.Tail
import HafleyRs.BoopStore.TurnStore

/-!
# OMP transcripts (`crates/boop-harness/src/harness/omp.rs`)

| here | there |
| --- | --- |
| `cap` | transcript.rs:173 |
| `messageText`, `toolCallBody`, `toolResultBody` | omp.rs:772, 791, 801 |
| `record`, `projectLine`, `Omp.ingest` | 762, 826, 223 |
| `writeTurn` | a turn of `projectLine`: the ordinal, the row, the count |
| `contentItem`, `assistantTurns` | the loop over the content of an assistant message (881) and the prose behind it |
| `usageRow`, `assistantUsage` | its usage (928) |
| `resetBoundary` | the branch of a `reset_boundary` entry (845) |

`Codec` is what other crates read and print: a line of JSON, a JSON value, a time stamp.
-/

namespace BoopHarness
open BoopStore

structure Codec where
  fromSlice  : Bytes → Option Json
  toText     : Json → String
  parseIsoMs : String → Option Nat

/-- `RESET_ATTR_KEY` -/
def resetAttrKey : String := "reset_ts"

/-- `str::parse::<u64>` -/
def parseU64 (text : String) : Option Nat :=
  let digits := match text.toList with
    | '+' :: rest => rest
    | all => all
  let n := digits.foldl (fun n c => 10 * n + (c.toNat - '0'.toNat)) 0
  if digits.isEmpty || digits.any (fun c => !c.isDigit) || 2 ^ 64 ≤ n then none else some n

def cap (s : String) (max : Nat) : String :=
  if s.toList.length > max then .ofList (s.toList.take max) ++ "…" else s

/-- The text of a content part of type `text`. -/
def textPart (item : Json) : Option String :=
  if item.strField "type" = some "text" then item.strField "text" else none

def messageText (message : Json) : String :=
  match message.get "content" with
  | some (.str text) => text
  | some (.arr items) => "\n".intercalate (items.filterMap textPart)
  | _ => ""

def toolCallBody (codec : Codec) (name : String) (arguments : Option Json) : String :=
  let input := match arguments with
    | some (.str text) => text
    | some other => codec.toText other
    | none => ""
  name ++ "\n" ++ cap input 2000

def toolResultBody (content : Option Json) : String :=
  let text := match content with
    | some (.arr items) => "\n".intercalate (items.filterMap textPart)
    | some (.str text) => text
    | _ => ""
  if text.isEmpty then "tool result (empty)" else cap text 4000

/-- What a `SessionRef` says to a projection: the id, and whether it has a parent. -/
structure SessionRef where
  sessionId : String
  parent    : Option String
deriving DecidableEq, Repr

/-- The store, the running ordinal and the counts of a pass. -/
structure Walk where
  store : TurnStore
  turn  : Nat
  stat  : SyncStat

namespace Omp

def record (stat : SyncStat) (inserted : Nat) : SyncStat :=
  if inserted = 0 then { stat with dropped := stat.dropped + 1 } else { stat with written := stat.written + 1 }

def writeTurn (sid : String) (ts : Nat) (role said sourceClass : String) (w : Walk) : Except String Walk := do
  let turn := w.turn + 1
  let (store, inserted) ← w.store.writeTurnClassified sid turn ts role said none sourceClass
  return { store, turn, stat := record w.stat inserted }

/-- The branch of a `reset_boundary` entry; an older one never overwrites a newer. -/
def resetBoundary (sid : String) (ts : Nat) (w : Walk) : Walk :=
  let held := ((w.store.sessionAttr sid resetAttrKey).bind parseU64).getD 0
  if held < ts then { w with store := w.store.setSessionAttr sid resetAttrKey (toString ts) ts } else w

/-- One part of the content: prose to join behind the loop, or a turn and a fact. -/
def contentItem (codec : Codec) (sid : String) (ts : Nat) (s : List String × Walk) (item : Json) :
    Except String (List String × Walk) := do
  let (prose, w) := s
  if item.strField "type" = some "text" then
    match item.strField "text" with
    | some text => return (prose ++ [text], w)
    | none => return (prose, w)
  else if item.strField "type" = some "toolCall" then
    let name := (item.strField "name").getD "tool"
    let w ← writeTurn sid ts "tool" (toolCallBody codec name (item.get "arguments")) "harness" w
    return (prose, { w with store := w.store.emitToolFact sid w.turn ts name (item.get "arguments") })
  else return (prose, w)

/-- The parts of an assistant message's content, none where it is no array. -/
def contentItems (message : Json) : List Json := ((message.get "content").bind Json.asArray).getD []

def assistantTurns (codec : Codec) (sid : String) (ts : Nat) (message : Json) (w : Walk) : Except String Walk := do
  let (prose, w) ← (contentItems message).foldlM (contentItem codec sid ts) ([], w)
  let text := "\n".intercalate prose
  if text.isEmpty then return w else writeTurn sid ts "assistant" text "harness" w

/-- The counts of a `usage` object under the ordinal `turn`. -/
def usageRow (session : SessionRef) (ts turn : Nat) (value message usage : Json) : UsageRow :=
  let count := fun key => ((usage.get key).bind Json.asI64).getD 0
  { ts
    messageId := session.sessionId ++ "#t" ++ toString turn
    requestId := (value.strField "responseId").getD ""
    model := (message.strField "model").getD "unknown"
    serviceTier := none
    inputTokens := count "input"
    outputTokens := count "output"
    cacheCreate5mTokens := count "cacheWrite"
    cacheCreate1hTokens := 0
    cacheReadTokens := count "cacheRead"
    isSidechain := session.parent.isSome
    costUsdRecorded := ((usage.get "cost").bind (Json.get "total")).bind Json.asNumber }

def assistantUsage (session : SessionRef) (ts : Nat) (value message : Json) (w : Walk) : Except String Walk :=
  match message.get "usage" with
  | none => return w
  | some usage => do
    let (store, isNew, changed) ←
      w.store.writeUsage session.sessionId w.turn (usageRow session ts w.turn value message usage)
    let stat :=
      if changed then
        if isNew then { w.stat with usageWritten := w.stat.usageWritten + 1 }
        else { w.stat with usageUpdated := w.stat.usageUpdated + 1 }
      else w.stat
    return { w with store, stat }

/-- The time of a record, 0 where it has none. -/
def timestamp (codec : Codec) (value : Json) : Nat := ((value.strField "timestamp").bind codec.parseIsoMs).getD 0

def roleOf (message : Json) : String := (message.strField "role").getD "user"

def projectValue (codec : Codec) (session : SessionRef) (value : Json) (w : Walk) : Except String Walk :=
  let sid := session.sessionId
  let ts := timestamp codec value
  if value.strField "type" = some "reset_boundary" then return resetBoundary sid ts w
  else if value.strField "type" ≠ some "message" then return w
  else match value.get "message" with
    | none => return w
    | some message =>
      let role := roleOf message
      if role = "user" then
        let text := messageText message
        if text.isEmpty then return w else writeTurn sid ts "user" text "human" w
      else if role = "assistant" then
        assistantTurns codec sid ts message w >>= assistantUsage session ts value message
      else if role = "toolResult" then writeTurn sid ts "tool" (toolResultBody (message.get "content")) "harness" w
      else return w

/-- A line that is no JSON is passed over. -/
def projectLine (codec : Codec) (session : SessionRef) (w : Walk) (line : CompleteLine) : Except String Walk :=
  match codec.fromSlice line.bytes with
  | none => return w
  | some value => projectValue codec session value w

structure Ingested where
  stat       : SyncStat
  nextCursor : Nat
deriving DecidableEq, Repr

/-- A pass over the file from a cursor. -/
def ingest (codec : Codec) (session : SessionRef) (store : TurnStore) (file : Bytes) (cursor : Nat) :
    Except String (TurnStore × Ingested) := do
  let result := readCompleteLines file cursor
  if result.lines.isEmpty then return (store, ⟨{}, cursor⟩)
  let w ← result.lines.foldlM (projectLine codec session) ⟨store, store.beginWalk session.sessionId, {}⟩
  return (w.store, ⟨w.stat, result.nextOffset⟩)

end Omp
end BoopHarness
