import HafleyRs.BoopStore.Mail
import HafleyRs.Lib.Json

/-!
# One line of the mailbox file (`crates/boop-store/src/bus.rs`)

| here | there |
| --- | --- |
| `stringField`, `intField` | 414, 418 |
| `parseLine`, `rcFromBody` | 531, 567 |
| `messageLine` (`Message.line` is its struct `Line`) | 616 |
| `SerdeJson` | `serde_json::to_string`, `serde_json::from_str` |

A reader fills `rc` and `detail` from the text of a result row's body where the row has no field of its own, whether
the row is older than the fields or only has nothing to put there. `parseLine_messageLine` says what a written row
is read as; it is the row itself iff it is `Told` (`parseLine_messageLine_iff`).
-/

namespace BoopStore

/-! ## Kinds -/

/-- The kind of some wire string. -/
def MessageKind.Normalized (kind : MessageKind) : Prop := ∃ value, MessageKind.ofStr value = kind

theorem MessageKind.asStr_ofStr (value : String) : (MessageKind.ofStr value).asStr = value := by
  unfold MessageKind.ofStr
  split <;> rfl

theorem MessageKind.Normalized.ofStr_asStr {kind : MessageKind} (h : kind.Normalized) :
    MessageKind.ofStr kind.asStr = kind := by
  obtain ⟨value, rfl⟩ := h
  rw [asStr_ofStr]

theorem MessageKind.Normalized.result_iff {kind : MessageKind} (h : kind.Normalized) :
    kind.asStr = "result" ↔ kind = .result := by
  constructor
  · intro hk
    rw [← h.ofStr_asStr, hk]
    decide
  · rintro rfl
    rfl

/-! ## Text -/

/-- `str::trim` -/
def trim (s : String) : String := .ofList ((s.toList.dropWhile isWhitespace).rdropWhile isWhitespace)

/-- `str::split_whitespace` -/
def splitWhitespace (s : List Char) : List (List Char) := (s.splitOnP isWhitespace).filter (· ≠ [])

/-- `str::strip_prefix` -/
def stripPrefix (pre s : List Char) : Option (List Char) := if pre <+: s then some (s.drop pre.length) else none

/-- `str::split_once` at a char -/
def splitOnce (c : Char) : List Char → Option (List Char × List Char)
  | [] => none
  | d :: rest => if d = c then some ([], rest) else (splitOnce c rest).map fun p => (d :: p.1, p.2)

/-- `str::rsplit_once` at a char -/
def rsplitOnce (c : Char) (s : List Char) : Option (List Char × List Char) :=
  (splitOnce c s.reverse).map fun p => (p.2.reverse, p.1.reverse)

/-- `str::parse::<i32>` -/
def parseI32 (s : List Char) : Option Int :=
  let negative := s.head? = some '-'
  let digits := if s.head? = some '-' ∨ s.head? = some '+' then s.tail else s
  if digits = [] ∨ ¬ digits.all Char.isDigit then none
  else
    let n : Int := digits.foldl (fun n c => 10 * n + (c.toNat - 48)) 0
    let n := if negative then -n else n
    if -2 ^ 31 ≤ n ∧ n < 2 ^ 31 then some n else none

/-! ## Reading a line -/

structure SerdeJson where
  toString : Json → String
  fromStr  : String → Option Json

def stringField (object : Json) (key : String) : Option String := (object.get key).bind Json.asStr

/-- `value as i32` -/
def asI32 (n : Int) : Int := n.bmod (2 ^ 32)

def intField (object : Json) (key : String) : Option Int := ((object.get key).bind Json.asI64).map asI32

def rcOfToken (token : List Char) : Option Int := do
  let digits ← stripPrefix "rc=".toList token <|> stripPrefix "rc:".toList token
  parseI32 digits

def rcFromBody (body : String) : Option Int × Option String :=
  let rc := (splitWhitespace body.toList).findSome? rcOfToken
  let detail := ((splitOnce '(' body.toList).bind fun p => rsplitOnce ')' p.2).map fun p => String.ofList p.1
  match rc with
  | some rc => (some rc, detail)
  | none => (none, none)

def parseLine (json : SerdeJson) (line : String) : Option Message := do
  let trimmed := trim line
  if trimmed.isEmpty then none
  else
    let value ← json.fromStr trimmed
    let _ ← value.asObject
    let id ← stringField value "id"
    let toRoute ← stringField value "to"
    let body := (stringField value "body").getD ""
    let kind := ((stringField value "kind").map MessageKind.ofStr).getD .note
    let legacy := if kind.asStr = "result" then rcFromBody body else (none, none)
    return {
      id := id
      toRoute := toRoute
      fromRoute := (stringField value "from").getD ""
      fromTimestamp := (stringField value "from_timestamp" <|> stringField value "ts").getD ""
      toTimestamp := stringField value "to_timestamp"
      replyTo := stringField value "reply_to"
      ref := stringField value "ref"
      rc := intField value "rc" <|> legacy.1
      detail := stringField value "detail" <|> legacy.2
      kind := kind
      body := body }

/-! ## Writing a line -/

def jsonOption : Option String → Json
  | some s => .str s
  | none => .null

def jsonI32 (n : Int) : Json := .num (if 0 ≤ n then .posInt n.toNat else .negInt n)

def Message.fields (m : Message) : List (String × Json) :=
  [("id", .str m.id), ("from", .str m.fromRoute), ("to", .str m.toRoute), ("from_timestamp", .str m.fromTimestamp),
    ("to_timestamp", jsonOption m.toTimestamp), ("kind", .str m.kind.asStr), ("reply_to", jsonOption m.replyTo),
    ("body", .str m.body), ("ref", jsonOption m.ref)] ++
  (m.rc.map fun rc => ("rc", jsonI32 rc)).toList ++ (m.detail.map fun detail => ("detail", .str detail)).toList

def Message.line (m : Message) : Json := .obj m.fields

def messageLine (json : SerdeJson) (m : Message) : String := json.toString m.line

/-- What is relied on of `serde_json` for one object: its text has no space around it and reads back with the same
    fields. -/
structure SerdeJson.Keeps (json : SerdeJson) (v : Json) : Prop where
  trimmed : trim (json.toString v) = json.toString v
  text    : json.toString v ≠ ""
  reads   : ∃ w, json.fromStr (json.toString v) = some w ∧ w.asObject.isSome ∧ ∀ key, w.get key = v.get key

/-! ## A written line, read -/

theorem asI64_jsonI32 {n : Int} (h : -2 ^ 31 ≤ n ∧ n < 2 ^ 31) : ((jsonI32 n).asI64.map asI32) = some n := by
  have hbmod : asI32 n = n := Int.bmod_eq_of_le (by omega) (by omega)
  by_cases hn : 0 ≤ n
  · have hlt : n.toNat < 2 ^ 63 := by omega
    rw [jsonI32, if_pos hn, Json.asI64, if_pos hlt, Option.map_some, Int.toNat_of_nonneg hn, hbmod]
  · rw [jsonI32, if_neg hn, Json.asI64, Option.map_some, hbmod]

theorem asStr_jsonOption (s : Option String) : (jsonOption s).asStr = s := by cases s <;> rfl

theorem Message.fields_nodup (m : Message) : (m.fields.map Prod.fst).Nodup := by
  cases hrc : m.rc <;> cases hdetail : m.detail <;> simp [Message.fields, hrc, hdetail]

theorem Message.get_line {m : Message} {key : String} {v : Json} (h : (key, v) ∈ m.fields) :
    m.line.get key = some v := Json.get_of_mem m.fields_nodup h

theorem Message.get_rc (m : Message) : m.line.get "rc" = m.rc.map jsonI32 := by
  cases hrc : m.rc with
  | none => cases hdetail : m.detail <;> simp [Message.line, Json.get, Message.fields, hrc, hdetail]
  | some rc => exact Message.get_line (by simp [Message.fields, hrc])

theorem Message.get_detail (m : Message) : m.line.get "detail" = m.detail.map Json.str := by
  cases hdetail : m.detail with
  | none => cases hrc : m.rc <;> simp [Message.line, Json.get, Message.fields, hrc, hdetail]
  | some detail => exact Message.get_line (by simp [Message.fields, hdetail])

/-- What an older row's body tells of its run. -/
def Message.legacy (m : Message) : Option Int × Option String :=
  if m.kind = .result then rcFromBody m.body else (none, none)

/-- **`parse_line (message_line m)` (bus.rs:531, 616)**: every field of the row, and of a result row without a field
    of its own what the body tells. -/
theorem parseLine_messageLine {json : SerdeJson} {m : Message} (hkind : m.kind.Normalized)
    (hrc : ∀ rc ∈ m.rc, -2 ^ 31 ≤ rc ∧ rc < 2 ^ 31) (hjson : json.Keeps m.line) :
    parseLine json (messageLine json m) =
      some { m with rc := m.rc <|> m.legacy.1, detail := m.detail <|> m.legacy.2 } := by
  obtain ⟨w, hread, hobject, hget⟩ := hjson.reads
  obtain ⟨object, hobject⟩ := Option.isSome_iff_exists.1 hobject
  have hempty : (json.toString m.line).isEmpty = false := by simpa using hjson.text
  have hlegacy : (if m.kind.asStr = "result" then rcFromBody m.body else (none, none)) = m.legacy :=
    if_congr hkind.result_iff rfl rfl
  have hfield : ∀ {key v}, (key, v) ∈ m.fields → stringField w key = v.asStr := by
    intro key v hv
    rw [stringField, hget, m.get_line hv, Option.bind_some]
  have hint : intField w "rc" = m.rc := by
    rw [intField, hget, m.get_rc]
    cases h : m.rc with
    | none => rfl
    | some rc => exact asI64_jsonI32 (hrc rc h)
  have hdetail : stringField w "detail" = m.detail := by
    rw [stringField, hget, m.get_detail]
    cases m.detail <;> rfl
  have hid : stringField w "id" = some m.id := hfield (v := .str m.id) (by simp [Message.fields])
  have hfrom : stringField w "from" = some m.fromRoute := hfield (v := .str m.fromRoute) (by simp [Message.fields])
  have hto : stringField w "to" = some m.toRoute := hfield (v := .str m.toRoute) (by simp [Message.fields])
  have hsent : stringField w "from_timestamp" = some m.fromTimestamp :=
    hfield (v := .str m.fromTimestamp) (by simp [Message.fields])
  have hack : stringField w "to_timestamp" = m.toTimestamp :=
    (hfield (by simp [Message.fields])).trans (asStr_jsonOption _)
  have hwire : stringField w "kind" = some m.kind.asStr := hfield (v := .str m.kind.asStr) (by simp [Message.fields])
  have hreply : stringField w "reply_to" = m.replyTo :=
    (hfield (by simp [Message.fields])).trans (asStr_jsonOption _)
  have hbody : stringField w "body" = some m.body := hfield (v := .str m.body) (by simp [Message.fields])
  have href : stringField w "ref" = m.ref := (hfield (by simp [Message.fields])).trans (asStr_jsonOption _)
  unfold parseLine messageLine
  simp [hjson.trimmed, hempty, hread, hobject, hid, hto, hbody, hwire, hfrom, hsent, hack, hreply, href, hint,
    hdetail, hkind.ofStr_asStr, hlegacy]

/-! ## When a row is read as itself -/

/-- A word `rc=N` or `rc:N`. -/
def NamesCode (body : String) : Prop :=
  ∃ token ∈ splitWhitespace body.toList, ∃ n : List Char,
    (token = "rc=".toList ++ n ∨ token = "rc:".toList ++ n) ∧ (parseI32 n).isSome

/-- A closing parenthesis somewhere behind an opening one. -/
def HasParens (body : String) : Prop := ∃ a b c : List Char, body.toList = a ++ '(' :: (b ++ ')' :: c)

/-- Nothing in a result row's body is taken for a field that the row lacks. -/
def Told (m : Message) : Prop :=
  m.kind = .result → NamesCode m.body → m.rc.isSome ∧ (HasParens m.body → m.detail.isSome)

theorem stripPrefix_eq_some {pre s rest : List Char} : stripPrefix pre s = some rest ↔ s = pre ++ rest := by
  unfold stripPrefix
  by_cases h : pre <+: s
  · obtain ⟨t, rfl⟩ := h
    simp
  · rw [if_neg h]
    constructor
    · intro hnone
      cases hnone
    · rintro rfl
      exact absurd (List.prefix_append pre rest) h

theorem rcOfToken_isSome {token : List Char} : (rcOfToken token).isSome ↔
    ∃ n, (token = "rc=".toList ++ n ∨ token = "rc:".toList ++ n) ∧ (parseI32 n).isSome := by
  have hbind : ∀ {o : Option (List Char)}, (o.bind parseI32).isSome ↔ ∃ n, o = some n ∧ (parseI32 n).isSome := by
    intro o
    cases o <;> simp
  have horElse : ∀ n, (stripPrefix "rc=".toList token <|> stripPrefix "rc:".toList token) = some n ↔
      token = "rc=".toList ++ n ∨ token = "rc:".toList ++ n := by
    intro n
    rw [← stripPrefix_eq_some, ← stripPrefix_eq_some]
    cases heq : stripPrefix "rc=".toList token with
    | none => simp
    | some rest =>
      rw [stripPrefix_eq_some] at heq
      simp [heq, stripPrefix]
  refine hbind.trans (exists_congr fun n => and_congr (horElse n) Iff.rfl)

theorem splitOnce_eq_none {c : Char} {s : List Char} : splitOnce c s = none ↔ c ∉ s := by
  induction s with
  | nil => simp [splitOnce]
  | cons d rest ih =>
    by_cases h : d = c
    · simp [splitOnce, h]
    · simp [splitOnce, h, ih, Ne.symm h]

theorem rsplitOnce_isSome {c : Char} {s : List Char} : (rsplitOnce c s).isSome ↔ c ∈ s := by
  rw [rsplitOnce, Option.isSome_map, ← Option.ne_none_iff_isSome, Ne, splitOnce_eq_none, List.mem_reverse, not_not]

theorem parens_isSome {s : List Char} : ((splitOnce '(' s).bind fun p => rsplitOnce ')' p.2).isSome ↔
    ∃ a b c, s = a ++ '(' :: (b ++ ')' :: c) := by
  induction s with
  | nil => simp [splitOnce]
  | cons d rest ih =>
    by_cases h : d = '('
    · subst h
      rw [splitOnce, if_pos rfl, Option.bind_some, rsplitOnce_isSome]
      constructor
      · intro hmem
        obtain ⟨b, c, hsplit⟩ := List.append_of_mem (show ')' ∈ rest from hmem)
        exact ⟨[], b, c, congrArg ('(' :: ·) hsplit⟩
      · rintro ⟨a, b, c, heq⟩
        cases a with
        | nil => simp [(List.cons.inj heq).2]
        | cons x a => simp [(List.cons.inj heq).2]
    · have hrest : ((splitOnce '(' (d :: rest)).bind fun p => rsplitOnce ')' p.2).isSome ↔
          ((splitOnce '(' rest).bind fun p => rsplitOnce ')' p.2).isSome := by
        rw [splitOnce, if_neg h]
        cases splitOnce '(' rest <;> rfl
      rw [hrest, ih]
      constructor
      · rintro ⟨a, b, c, rfl⟩
        exact ⟨d :: a, b, c, rfl⟩
      · rintro ⟨a, b, c, heq⟩
        cases a with
        | nil => exact absurd (List.cons.inj heq).1 h
        | cons x a => exact ⟨a, b, c, (List.cons.inj heq).2⟩

theorem rcFromBody_rc {body : String} : (rcFromBody body).1.isSome ↔ NamesCode body := by
  have hfind : ((splitWhitespace body.toList).findSome? rcOfToken).isSome ↔ NamesCode body := by
    rw [List.findSome?_isSome_iff]
    exact exists_congr fun token => and_congr Iff.rfl rcOfToken_isSome
  rw [← hfind, rcFromBody]
  cases (splitWhitespace body.toList).findSome? rcOfToken <;> rfl

theorem rcFromBody_detail {body : String} : (rcFromBody body).2.isSome ↔ NamesCode body ∧ HasParens body := by
  rw [← rcFromBody_rc, HasParens, ← parens_isSome, rcFromBody]
  cases (splitWhitespace body.toList).findSome? rcOfToken with
  | none => simp
  | some rc => simp only [Option.isSome_map, Option.isSome_some, true_and]

/-- **`parse_line (message_line m) = Some(m)` (bus.rs:531, 616)** for a row as a writer has it, its kind from a wire
    string and its code an `i32`: iff nothing in the body is taken for a field it lacks. -/
theorem parseLine_messageLine_iff {json : SerdeJson} {m : Message} (hkind : m.kind.Normalized)
    (hrc : ∀ rc ∈ m.rc, -2 ^ 31 ≤ rc ∧ rc < 2 ^ 31) (hjson : json.Keeps m.line) :
    parseLine json (messageLine json m) = some m ↔ Told m := by
  have hor : ∀ {α : Type} (x y : Option α), (x <|> y) = x ↔ (y.isSome → x.isSome) := by
    intro α x y
    cases x <;> cases y <;> simp
  have hsame : parseLine json (messageLine json m) = some m ↔
      (m.rc <|> m.legacy.1) = m.rc ∧ (m.detail <|> m.legacy.2) = m.detail := by
    rw [parseLine_messageLine hkind hrc hjson, Option.some.injEq]
    cases m
    simp
  rw [hsame, hor, hor, Told, Message.legacy]
  by_cases hresult : m.kind = .result
  · rw [if_pos hresult, rcFromBody_rc, rcFromBody_detail]
    constructor
    · rintro ⟨hcode, hdetail⟩ - hnames
      exact ⟨hcode hnames, fun hparens => hdetail ⟨hnames, hparens⟩⟩
    · intro h
      exact ⟨fun hnames => (h hresult hnames).1, fun ⟨hnames, hparens⟩ => (h hresult hnames).2 hparens⟩
  · simp [hresult]

/-- A lane's end, its code in a field of its own and why in the body only. -/
def killed : Message :=
  ⟨"m-abcdef03", "mine", "coordinator", "2026-01-01T00:00:00.000Z", none, .result, none,
    "lane mine done rc=7 (killed by SIGTERM)", none, some 7, none⟩

/-- The text of an object between its braces. -/
def braces (inner : String) : String := .ofList ('\x7b' :: (inner.toList ++ ['\x7d']))

theorem trim_braces (inner : String) : trim (braces inner) = braces inner := by
  have hopen : isWhitespace '\x7b' = false := by decide
  have hclose : isWhitespace '\x7d' = false := by decide
  simp only [trim, braces, String.toList_ofList]
  rw [List.dropWhile_cons_of_neg (by simp [hopen]), ← List.cons_append, List.rdropWhile_concat_neg]
  simp [hclose]

/-- `serde_json` on the line of one row, with its text. -/
def serdeOn (m : Message) (inner : String) : SerdeJson where
  toString v := if stringField v "id" = some m.id then braces inner else "null"
  fromStr s := if s = braces inner then some m.line else none

theorem serdeOn_keeps (m : Message) (inner : String) : (serdeOn m inner).Keeps m.line := by
  have hid : stringField m.line "id" = some m.id := by
    rw [stringField, m.get_line (v := .str m.id) (by simp [Message.fields])]
    rfl
  have htoString : (serdeOn m inner).toString m.line = braces inner := if_pos hid
  refine ⟨by rw [htoString, trim_braces], ?_, m.line, ?_, rfl, fun _ => rfl⟩
  · rw [htoString]
    simp [braces]
  · rw [htoString]
    exact if_pos rfl

def killedText : String :=
  "\"id\":\"m-abcdef03\",\"from\":\"mine\",\"to\":\"coordinator\"," ++
  "\"from_timestamp\":\"2026-01-01T00:00:00.000Z\",\"to_timestamp\":null,\"kind\":\"result\",\"reply_to\":null," ++
  "\"body\":\"lane mine done rc=7 (killed by SIGTERM)\",\"ref\":null,\"rc\":7"

theorem killed_round_trips :
    let told := { killed with detail := some "killed by SIGTERM" }
    let json := serdeOn told (killedText ++ ",\"detail\":\"killed by SIGTERM\"")
    parseLine json (messageLine json told) = some told :=
  (parseLine_messageLine_iff ⟨"result", rfl⟩ (by decide) (serdeOn_keeps _ _)).2 fun _ _ => ⟨rfl, fun _ => rfl⟩

/-- The row is written without a detail and read with one. -/
theorem killed_gains_detail : ¬ ∀ (json : SerdeJson) (m : Message), m.kind.Normalized →
    (∀ rc ∈ m.rc, -2 ^ 31 ≤ rc ∧ rc < 2 ^ 31) → json.Keeps m.line →
    parseLine json (messageLine json m) = some m := by
  intro h
  have hkind : killed.kind.Normalized := ⟨"result", rfl⟩
  have hrc : ∀ rc ∈ killed.rc, -2 ^ 31 ≤ rc ∧ rc < 2 ^ 31 := by decide
  have hjson : (serdeOn killed killedText).Keeps killed.line := serdeOn_keeps killed killedText
  have hsame := h _ killed hkind hrc hjson
  rw [parseLine_messageLine hkind hrc hjson, Option.some.injEq] at hsame
  have hdetail : killed.legacy.2 = none := congrArg Message.detail hsame
  exact absurd hdetail (by decide +kernel)

end BoopStore
