import HafleyRs.Lib.Resume
import HafleyRs.BoopHarness.Omp
import HafleyRs.BoopStore.Route

/-!
# The messages of a transcript (`crates/boop-harness/src/harness/*.rs`)

| here | there |
| --- | --- |
| `Message`, `isoToMs`, `previewOf`, `Extracted` | transcript.rs:48, 63, 182, 195 |
| `contentHasToolResult`, `firstText`, `injectedTag` | claude.rs:587, 609, 622 |
| `classifyUserLine`, `toolResultText`, `diagramWriteFence`, `claudeText` | 630, 671, 683, 706 |
| `claudeRecord`, `readClaude` | the loop of `read_claude` (767) |
| `codexValueText`, `codexRecord`, `readCodex` | codex.rs:493, 510 |
| `kimiRecord`, `readKimi` | kimi.rs:494 |
| `ompRecord`, `readOmp` | omp.rs:1037 |
| `opencodePart`, `opencodeMessageText`, `readOpencode` | opencode.rs:529, 583 |

A transcript file is its lines, the OpenCode store its two tables; a table refuses a second row of an id. Of a path a
reader needs the text.
-/

namespace BoopHarness.Transcripts
open BoopStore

structure Message where
  harness   : HarnessId
  sessionId : String
  id        : String
  seq       : Nat
  role      : String
  subtype   : Option String
  ts        : Nat
  preview   : String
  text      : String
  locator   : String
deriving DecidableEq, Repr

/-! ## Time stamps and previews -/

def isDigitByte (b : UInt8) : Bool := decide (48 ≤ b) && decide (b ≤ 57)

/-- `str::parse::<i64>` on a slice too short to overflow. -/
def parseDigits (bytes : List UInt8) : Option Int :=
  let number := fun (digits : List UInt8) =>
    if digits.isEmpty || digits.any (fun b => !isDigitByte b) then none
    else some (digits.foldl (fun (n : Int) b => 10 * n + (b.toNat - 48)) 0)
  match bytes with
  | 43 :: digits => number digits
  | 45 :: digits => (number digits).map (-·)
  | digits => number digits

def field (bytes : List UInt8) (start stop : Nat) : Option Int :=
  if bytes.length < stop then none else parseDigits ((bytes.drop start).take (stop - start))

/-- `chrono_lite`: days since the epoch by the civil calendar. -/
def chronoLite (s : String) : Option Nat := do
  let b := s.toUTF8.toList
  if b.length < 19 then none
  let yr ← field b 0 4
  let mo ← field b 5 7
  let da ← field b 8 10
  let hh ← field b 11 13
  let mi ← field b 14 16
  let ss ← field b 17 19
  let ms := (field b 20 23).getD 0
  let y := if mo ≤ 2 then yr - 1 else yr
  let era := (if 0 ≤ y then y else y - 399).tdiv 400
  let yoe := y - era * 400
  let doy := (153 * (if mo > 2 then mo - 3 else mo + 9) + 2).tdiv 5 + da - 1
  let doe := yoe * 365 + yoe.tdiv 4 - yoe.tdiv 100 + doy
  let days := era * 146097 + doe - 719468
  let secs := days * 86400 + hh * 3600 + mi * 60 + ss
  return ((secs * 1000 + ms) % 2 ^ 64).toNat

def isoToMs (s : String) : Nat := (chronoLite s).getD 0

def trimStart (s : String) : String := .ofList (s.toList.dropWhile isWhitespace)
def trimEnd (s : String) : String := .ofList (s.toList.rdropWhile isWhitespace)

def previewOf (text : String) : String :=
  cap (trimEnd (trimStart (.ofList (text.toList.map fun c => if c = '\n' then ' ' else c)))) 200

/-- What a harness renders, and the prose of it. -/
structure Extracted where
  full    : String
  display : String

def Extracted.empty : Extracted := ⟨"", ""⟩
def Extracted.add (e : Extracted) (full display : String) : Extracted := ⟨e.full ++ full, e.display ++ display⟩
def Extracted.trimmed (e : Extracted) : Extracted := ⟨trimEnd e.full, trimEnd e.display⟩
def Extracted.preview (e : Extracted) : String := previewOf (if e.display.isEmpty then e.full else e.display)

structure Transcript where
  path      : String
  sessionId : String

/-! ## Claude -/

def contentHasToolResult (content : Json) : Bool :=
  (content.asArray.getD []).any fun b => decide (b.strField "type" = some "tool_result")

def injectedTags : List String :=
  ["command-name", "command-message", "command-args", "local-command-stdout", "local-command-stderr", "bash-input",
    "bash-stdout", "bash-stderr", "system-reminder"]

def firstText (content : Json) : Option String :=
  content.asStr.orElse fun _ => (content.asArray.getD []).findSome? textPart

def injectedTag (content : Json) : Option String := do
  let text ← firstText content
  match (trimStart text).toList with
  | '<' :: rest =>
    let tag := String.ofList (rest.takeWhile (· ≠ '>'))
    if '>' ∈ rest ∧ tag ∈ injectedTags then some tag else none
  | _ => none

/-- Role and subtype of a line in the user's role. -/
def classifyUserLine (v content : Json) : String × Option String :=
  let flag := fun key => ((v.get key).bind Json.asBool).getD false
  let origin := (v.get "origin").bind (Json.strField "kind")
  if contentHasToolResult content then ("tool", some "tool_result")
  else if v.strField "promptSource" = some "system" then ("meta", some (origin.getD "system"))
  else if flag "isCompactSummary" then ("meta", some "compact-summary")
  else if flag "isMeta" then ("meta", origin.orElse fun _ => injectedTag content)
  else match injectedTag content with
    | some tag => ("meta", some tag)
    | none => ("user", none)

def toolResultText : Option Json → String
  | some (.str s) => s
  | some (.arr a) => "\n".intercalate (a.filterMap (Json.strField "text"))
  | _ => ""

/-- A diagram that is written to a file, as a fenced block. -/
def diagramWriteFence (name : String) (input : Json) : Option String := do
  if name.toLower ≠ "write" ∧ name.toLower ≠ "write_file" then none
  let path ← ((input.get "file_path").orElse fun _ => input.get "path").bind Json.asStr
  let content ← input.strField "content"
  let endsWith := fun (suffix : String) => decide (suffix.toList <:+ path.toLower.toList)
  let fence := fun (language : String) =>
    "[" ++ name ++ "] " ++ path ++ "\n```" ++ language ++ "\n" ++ content ++ "\n```"
  if endsWith ".d2" then some (fence "d2")
  else if endsWith ".mmd" || endsWith ".mermaid" then some (fence "mermaid")
  else none

def claudeBlock (codec : Codec) (e : Extracted) (b : Json) : Extracted :=
  if b.strField "type" = some "text" then
    match b.strField "text" with
    | some t => e.add (t ++ "\n") (t ++ "\n")
    | none => e
  else if b.strField "type" = some "thinking" then
    match b.strField "thinking" with
    | some t => e.add (cap t 600 ++ "\n") ""
    | none => e
  else if b.strField "type" = some "tool_use" then
    let name := (b.strField "name").getD "tool"
    match b.get "input" with
    | some input =>
      match diagramWriteFence name input with
      | some fence => e.add (fence ++ "\n") ""
      | none => e.add ("[" ++ name ++ "] " ++ cap (codec.toText input) 400 ++ "\n") ""
    | none => e.add ("[" ++ name ++ "]\n") ""
  else if b.strField "type" = some "tool_result" then
    let t := toolResultText (b.get "content")
    if t.isEmpty then e else e.add (cap t 400 ++ "\n") ""
  else e

def claudeText (codec : Codec) : Json → Extracted
  | .str s => ⟨s, s⟩
  | .arr blocks => (blocks.foldl (claudeBlock codec) .empty).trimmed
  | _ => .empty

/-- A line of a file, and the state behind it: its message where it is one. -/
def lineReader {τ : Type} (codec : Codec) (init : τ) (record : τ → Nat → Json → τ × Option Message) :
    Resume.LineReader τ Bytes Message where
  init
  line state seq l :=
    match codec.fromSlice l with
    | none => (state, none)
    | some v => record state seq v
  seq := Message.seq

def claudeRecord (codec : Codec) (t : Transcript) (seq : Nat) (v : Json) : Option Message := do
  let msgType ← (if v.strField "type" = some "user" then some "user"
    else if v.strField "type" = some "assistant" then some "assistant"
    else if v.strField "type" = some "attachment" ∧
      (v.get "attachment").bind (Json.strField "type") = some "queued_command" then some "attachment"
    else none)
  let content :=
    if msgType = "attachment" then ((v.get "attachment").bind (Json.get "prompt")).getD .null
    else ((v.get "message").bind (Json.get "content")).getD .null
  let (role, subtype) :=
    if msgType = "assistant" then ("assistant", none)
    else if msgType = "attachment" then classifyUserLine ((v.get "attachment").getD .null) content
    else classifyUserLine v content
  let ex := claudeText codec content
  if ex.full.isEmpty then none
  return {
    harness := .claude, sessionId := t.sessionId, id := (v.strField "uuid").getD "", seq, role, subtype,
    ts := ((v.strField "timestamp").map isoToMs).getD 0, preview := ex.preview, text := ex.full,
    locator := "claude:" ++ t.path ++ "#L" ++ toString (seq + 1) }

def claudeLines (codec : Codec) (t : Transcript) : Resume.LineReader Unit Bytes Message :=
  lineReader codec () fun _ seq v => ((), claudeRecord codec t seq v)

def readClaude (codec : Codec) (t : Transcript) (lines : List Bytes) (afterSeq : Option Nat) : List Message :=
  (claudeLines codec t).read lines afterSeq

/-! ## Codex -/

/-- Names of tools by the ids of their calls, the latest first. -/
abbrev ToolNames := List (String × String)

/-- The subtype of a tool's answer. -/
def answerSubtype (names : ToolNames) (callId : String) : String :=
  ((names.lookup callId).map (· ++ " result")).getD "tool result"

def codexValueText (codec : Codec) : Json → String
  | .str text => text
  | .arr items => "\n".intercalate (items.filterMap fun item => (item.strField "text").orElse fun _ => item.asStr)
  | value => codec.toText value

/-- What a record says: id, role, subtype and text. -/
structure Said where
  id      : String
  role    : String
  subtype : Option String
  text    : String

def noteCall (names : ToolNames) (callId : Option String) (name : String) : ToolNames :=
  (callId.map fun id => (id, name) :: names).getD names

def codexSaid (codec : Codec) (names : ToolNames) (payload : Json) : ToolNames × Option Said :=
  let kind := (payload.strField "type").getD ""
  let id := (payload.strField "id").getD ""
  if kind = "message" then
    (names, do
      let role ← payload.strField "role"
      if role ≠ "user" ∧ role ≠ "assistant" then none
      let parts := ((payload.get "content").bind Json.asArray).getD []
      let text := "\n".intercalate (parts.filterMap (Json.strField "text"))
      if blank text then none
      return ⟨id, role, none, text⟩)
  else if kind = "custom_tool_call" ∨ kind = "function_call" then
    let name := (payload.strField "name").getD "tool"
    let key := if kind = "custom_tool_call" then "input" else "arguments"
    let input := ((payload.get key).map (codexValueText codec)).getD ""
    (noteCall names (payload.strField "call_id") name, some ⟨id, "assistant", some name, cap input 400⟩)
  else if kind = "custom_tool_call_output" ∨ kind = "function_call_output" then
    let subtype := answerSubtype names ((payload.strField "call_id").getD "")
    let output := ((payload.get "output").map (codexValueText codec)).getD ""
    (names, some ⟨"", "assistant", some subtype, cap output 400⟩)
  else if kind = "reasoning" then (names, some ⟨id, "assistant", some "reasoning", "reasoning trace"⟩)
  else (names, none)

def codexMessage (t : Transcript) (seq : Nat) (v : Json) (said : Said) : Message :=
  { harness := .codex, sessionId := t.sessionId
    id := if said.id.isEmpty then "codex-" ++ toString seq else said.id
    seq, role := said.role, subtype := said.subtype, ts := ((v.strField "timestamp").map isoToMs).getD 0
    preview := cap said.text 180, text := said.text
    locator := "codex:" ++ t.path ++ "#L" ++ toString (seq + 1) }

def codexRecord (codec : Codec) (t : Transcript) (names : ToolNames) (seq : Nat) (v : Json) :
    ToolNames × Option Message :=
  match v.get "payload" with
  | none => (names, none)
  | some payload =>
    let (names, said) := codexSaid codec names payload
    (names, said.map (codexMessage t seq v))

def codexLines (codec : Codec) (t : Transcript) : Resume.LineReader ToolNames Bytes Message :=
  lineReader codec [] (codexRecord codec t)

def readCodex (codec : Codec) (t : Transcript) (lines : List Bytes) (afterSeq : Option Nat) : List Message :=
  (codexLines codec t).read lines afterSeq

/-! ## Kimi -/

def kimiSaid (codec : Codec) (names : ToolNames) (v : Json) : ToolNames × Option Said :=
  if v.strField "type" = some "turn.prompt" then
    let items := ((v.get "input").bind Json.asArray).getD []
    let text := "\n".intercalate (items.filterMap (Json.strField "text"))
    (names, if text.isEmpty then none else some ⟨"", "user", none, text⟩)
  else if v.strField "type" = some "context.append_loop_event" then
    match v.get "event" with
    | none => (names, none)
    | some event =>
      let uuid := (event.strField "uuid").getD ""
      if event.strField "type" = some "content.part" then
        (names, do
          let part ← event.get "part"
          let uuid := (part.strField "uuid").getD ""
          if part.strField "type" = some "text" then
            some ⟨uuid, "assistant", none, (part.strField "text").getD ""⟩
          else if part.strField "type" = some "think" then
            some ⟨uuid, "assistant", some "thinking", cap ((part.strField "think").getD "thinking trace") 600⟩
          else none)
      else if event.strField "type" = some "tool.call" then
        let name := (event.strField "name").getD "tool"
        (noteCall names (event.strField "toolCallId") name,
          some ⟨uuid, "assistant", some name, cap (((event.get "args").map (codexValueText codec)).getD "") 400⟩)
      else if event.strField "type" = some "tool.result" then
        let subtype := answerSubtype names ((event.strField "toolCallId").getD "")
        let text := ((event.get "result").map (codexValueText codec)).getD ""
        (names, some ⟨uuid, "assistant", some subtype, cap text 400⟩)
      else (names, none)
  else (names, none)

def kimiMessage (t : Transcript) (seq : Nat) (v : Json) (said : Said) : Message :=
  { harness := .kimi, sessionId := t.sessionId
    id := if said.id.isEmpty then "kimi-" ++ toString seq else said.id
    seq, role := said.role, subtype := said.subtype, ts := ((v.get "time").bind Json.asU64).getD 0
    preview := cap said.text 180, text := said.text
    locator := "kimi:" ++ t.path ++ "#L" ++ toString (seq + 1) }

def kimiRecord (codec : Codec) (t : Transcript) (names : ToolNames) (seq : Nat) (v : Json) :
    ToolNames × Option Message :=
  let (names, said) := kimiSaid codec names v
  (names, (said.filter fun said => !blank said.text).map (kimiMessage t seq v))

def kimiLines (codec : Codec) (t : Transcript) : Resume.LineReader ToolNames Bytes Message :=
  lineReader codec [] (kimiRecord codec t)

def readKimi (codec : Codec) (t : Transcript) (lines : List Bytes) (afterSeq : Option Nat) : List Message :=
  (kimiLines codec t).read lines afterSeq

/-! ## OMP -/

def ompRecord (codec : Codec) (t : Transcript) (seq : Nat) (v : Json) : Option Message := do
  if v.strField "type" ≠ some "message" then none
  let message ← v.get "message"
  let text := messageText message
  if blank text then none
  return {
    harness := .omp, sessionId := t.sessionId, id := (v.strField "id").getD "", seq
    role := (message.strField "role").getD "", subtype := none
    ts := ((v.strField "timestamp").bind codec.parseIsoMs).getD 0, preview := cap text 180, text
    locator := "omp:" ++ t.path ++ "#L" ++ toString (seq + 1) }

def ompLines (codec : Codec) (t : Transcript) : Resume.LineReader Unit Bytes Message :=
  lineReader codec () fun _ seq v => ((), ompRecord codec t seq v)

def readOmp (codec : Codec) (t : Transcript) (lines : List Bytes) (afterSeq : Option Nat) : List Message :=
  (ompLines codec t).read lines afterSeq

/-! ## OpenCode -/

structure MessageRow where
  id          : String
  sessionId   : String
  timeCreated : Int64
  data        : Bytes
deriving DecidableEq

structure PartRow where
  id          : String
  messageId   : String
  timeCreated : Int64
  data        : Bytes
deriving DecidableEq

structure OpencodeStore where
  messages : List MessageRow
  parts    : List PartRow

inductive OpencodeRecord where
  | message (row : MessageRow)
  | part (row : PartRow)

def OpencodeStore.insert (s : OpencodeStore) : OpencodeRecord → OpencodeStore
  | .message row => if row.id ∈ s.messages.map MessageRow.id then s else { s with messages := s.messages ++ [row] }
  | .part row => if row.id ∈ s.parts.map PartRow.id then s else { s with parts := s.parts ++ [row] }

/-- `ORDER BY time_created, id` -/
def createdLe (a b : Int64 × String) : Prop := a.1.toInt < b.1.toInt ∨ (a.1.toInt = b.1.toInt ∧ a.2 ≤ b.2)

instance : DecidableRel createdLe := fun a b =>
  inferInstanceAs (Decidable (a.1.toInt < b.1.toInt ∨ (a.1.toInt = b.1.toInt ∧ a.2 ≤ b.2)))

def MessageRow.key (row : MessageRow) : Int64 × String := (row.timeCreated, row.id)
def PartRow.key (row : PartRow) : Int64 × String := (row.timeCreated, row.id)

def opencodePart (codec : Codec) (e : Extracted) (row : PartRow) : Extracted :=
  match codec.fromSlice row.data with
  | none => e
  | some v =>
    if v.strField "type" = some "text" then
      match v.strField "text" with
      | some t => e.add (t ++ "\n") (t ++ "\n")
      | none => e
    else if v.strField "type" = some "reasoning" then
      match v.strField "text" with
      | some t => if t.isEmpty then e else e.add (cap t 600 ++ "\n") ""
      | none => e
    else if v.strField "type" = some "tool" then
      let name := (v.strField "tool").getD "tool"
      let input := (((v.get "state").bind (Json.get "input")).map fun i => cap (codec.toText i) 400).getD ""
      let output := (((v.get "state").bind (Json.strField "output")).map fun o => " " ++ cap o 400).getD ""
      e.add ("[" ++ name ++ "] " ++ input ++ output ++ "\n") ""
    else e

def opencodeMessageText (codec : Codec) (s : OpencodeStore) (messageId : String) : Extracted :=
  let rows := s.parts.filter fun p => p.messageId = messageId
  ((rows.insertionSort fun a b => createdLe a.key b.key).foldl (opencodePart codec) .empty).trimmed

/-- The message of a row, none where its parts have no text. -/
def opencodeMessage (codec : Codec) (s : OpencodeStore) (row : MessageRow) : Option Message :=
  let ex := opencodeMessageText codec s row.id
  if ex.full.isEmpty then none
  else some {
    harness := .opencode, sessionId := row.sessionId, id := row.id, seq := row.timeCreated.toUInt64.toNat
    role := ((codec.fromSlice row.data).bind (Json.strField "role")).getD "assistant", subtype := none
    ts := row.timeCreated.toUInt64.toNat, preview := ex.preview, text := ex.full
    locator := "opencode:#msg=" ++ row.id }

/-- The rows of a session created behind a time, in the order of the query. -/
def rowsAfter (s : OpencodeStore) (sessionId : String) (after : Int64) : List MessageRow :=
  (s.messages.filter fun m => m.sessionId = sessionId ∧ after.toInt < m.timeCreated.toInt).insertionSort
    fun a b => createdLe a.key b.key

def readOpencode (codec : Codec) (sessionId : String) (s : OpencodeStore) (afterSeq : Option Nat) : List Message :=
  (rowsAfter s sessionId (Int64.ofNat (afterSeq.getD 0))).filterMap (opencodeMessage codec s)

end BoopHarness.Transcripts
