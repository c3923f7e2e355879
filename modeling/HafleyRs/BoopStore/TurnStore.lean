import HafleyRs.BoopStore.Mail
import HafleyRs.Lib.Json

/-!
# The turns, tool facts and usage of sessions (`crates/boop-store/src/ident.rs`)

| here | there |
| --- | --- |
| `SyncStat`, `UsageRow` | 125, 165 |
| `TurnRow`, `UsageRecord` | tables `agent_turn`, `agent_usage` (`sql/40_schema.sql`) |
| `FactRow` | `agent_touch`, `agent_cmd`, `agent_fetch`, `agent_skill` |
| `addTurnWithSource`, `writeTurnClassified` | 1608, 4157 |
| `internRequest`, `addUsage`, `writeUsage` | 1629, 1644, 4244 |
| `maxTurn`, `beginWalk` | 1702, 4133 |
| `toolFact`, `emitToolFact` | 4513 |
| `domainOf` | 4573 |
| `sessionAttr`, `setSessionAttr` | 2901, 2909 |

The dictionaries give every text its id and back, so a row has the text itself, and a usage row its `Request`, the
row of `dict_request` it refers to. The four tables of tool facts are one, its key says which of them a row is in.
A cost is the number as recorded.
-/

namespace BoopStore

structure SyncStat where
  written      : Nat := 0
  repaired     : Nat := 0
  dropped      : Nat := 0
  usageWritten : Nat := 0
  usageUpdated : Nat := 0
deriving DecidableEq, Repr

structure TurnRow where
  session     : String
  turn        : Nat
  ts          : Nat
  role        : String
  said        : String
  cwd         : Option String
  sourceClass : String
deriving DecidableEq, Repr

/-- The natural key of one call of a model. -/
structure Request where
  messageId : String
  requestId : String
deriving DecidableEq, Repr

structure UsageRow where
  ts                  : Nat
  messageId           : String
  requestId           : String
  model               : String
  serviceTier         : Option String
  inputTokens         : Int
  outputTokens        : Int
  cacheCreate5mTokens : Int
  cacheCreate1hTokens : Int
  cacheReadTokens     : Int
  isSidechain         : Bool
  costUsdRecorded     : Option JsonNumber
deriving DecidableEq, Repr

def UsageRow.request (usage : UsageRow) : Request := ⟨usage.messageId, usage.requestId⟩

/-- A row of `agent_usage`. -/
structure UsageRecord where
  session : String
  turn    : Nat
  usage   : UsageRow
deriving DecidableEq, Repr

inductive ToolFact where
  | touch (path verb rawVerb : String)
  | cmd (program argline : String)
  | fetch (url domain : String)
  | search (query : String)
  | skill (skill : String)
deriving DecidableEq, Repr

/-- The table a fact goes to, and what of the fact is in its key. -/
inductive FactKey where
  | touch (path verb : String)
  | cmd
  | fetch
  | skill
deriving DecidableEq, Repr

def ToolFact.key : ToolFact → FactKey
  | touch path verb _ => .touch path verb
  | cmd .. => .cmd
  | fetch .. | search .. => .fetch
  | skill _ => .skill

/-- `agent_skill` has no time. -/
structure FactRow where
  session : String
  turn    : Nat
  ts      : Option Nat
  fact    : ToolFact
deriving DecidableEq, Repr

structure AttrRow where
  session : String
  key     : String
  value   : String
  setTs   : Nat
deriving DecidableEq, Repr

def TurnRow.key (r : TurnRow) : String × Nat := (r.session, r.turn)
def UsageRecord.key (r : UsageRecord) : String × Nat := (r.session, r.turn)
def FactRow.key (r : FactRow) : String × Nat × FactKey := (r.session, r.turn, r.fact.key)
def AttrRow.rowKey (r : AttrRow) : String × String := (r.session, r.key)

structure TurnStore where
  turns    : Table TurnRow.key
  requests : Table (id : Request → Request)
  usage    : Table UsageRecord.key
  facts    : Table FactRow.key
  attrs    : Table AttrRow.rowKey

namespace TurnStore

def empty : TurnStore := ⟨.empty, .empty, .empty, .empty, .empty⟩

/-! ## Turns -/

/-- The rows written, 0 or 1. -/
def addTurnWithSource (store : TurnStore) (session : String) (turn ts : Nat) (role said : String)
    (cwd : Option String) (sourceClass : String) : TurnStore × Nat :=
  let (turns, inserted) := store.turns.insertOrIgnore ⟨session, turn, ts, role, said, cwd, sourceClass⟩
  ({ store with turns }, if inserted then 1 else 0)

def writeTurnClassified (store : TurnStore) (session : String) (turn ts : Nat) (role said : String)
    (cwd : Option String) (sourceClass : String) : Except String (TurnStore × Nat) :=
  if sourceClass ∈ ["human", "harness", "unknown"] then
    .ok (store.addTurnWithSource session turn ts role said cwd sourceClass)
  else .error s!"unknown turn source class `{sourceClass}`"

def turnsOf (store : TurnStore) (session : String) : List Nat :=
  (store.turns.rows.filter fun r => r.session = session).map TurnRow.turn

def maxTurn (store : TurnStore) (session : String) : Nat := (store.turnsOf session).foldl max 0

def beginWalk (store : TurnStore) (session : String) : Nat := store.maxTurn session

/-! ## Usage -/

/-- Whether the call is seen for the first time. -/
def internRequest (store : TurnStore) (messageId requestId : String) : TurnStore × Bool :=
  let (requests, inserted) := store.requests.insertOrIgnore ⟨messageId, requestId⟩
  ({ store with requests }, inserted)

/-- The columns that the `UPDATE` of a repeated call sets. -/
def merged (old new : UsageRow) : UsageRow :=
  { old with
    ts := new.ts
    inputTokens := new.inputTokens
    outputTokens := new.outputTokens
    cacheCreate5mTokens := new.cacheCreate5mTokens
    cacheCreate1hTokens := new.cacheCreate1hTokens
    cacheReadTokens := new.cacheReadTokens
    costUsdRecorded := new.costUsdRecorded }

/-- The `WHERE` of that `UPDATE`. -/
def updates (usage : UsageRow) (r : UsageRecord) : Bool :=
  r.usage.request = usage.request && decide (r.usage.outputTokens ≤ usage.outputTokens)

def addUsage (store : TurnStore) (session : String) (turn : Nat) (isNew : Bool) (usage : UsageRow) :
    Except String (TurnStore × Bool) :=
  if isNew then
    if usage.request ∈ store.usage.rows.map fun r => r.usage.request then
      .error "UNIQUE constraint failed: agent_usage.request_ref"
    else match store.usage.insert? ⟨session, turn, usage⟩ with
      | none => .error "UNIQUE constraint failed: agent_usage.session_id, agent_usage.turn"
      | some rows => .ok ({ store with usage := rows }, true)
  else
    let rows := store.usage.update
      (fun r => if updates usage r then { r with usage := merged r.usage usage } else r) (by
        intro r
        split <;> rfl)
    .ok ({ store with usage := rows }, store.usage.rows.any (updates usage))

/-- Whether the call is new, and whether a row changed. -/
def writeUsage (store : TurnStore) (session : String) (turn : Nat) (usage : UsageRow) :
    Except String (TurnStore × Bool × Bool) := do
  let (store, isNew) := store.internRequest usage.messageId usage.requestId
  let (store, changed) ← store.addUsage session turn isNew usage
  return (store, isNew, changed)

/-- The usage rows of a session. -/
def usageOf (store : TurnStore) (session : String) : List UsageRecord :=
  store.usage.rows.filter fun r => r.session = session

/-! ## Tool facts -/

/-- The piece behind the first `://` and before a second, or the whole. -/
def behindScheme : List Char → Option (List Char)
  | ':' :: '/' :: '/' :: rest => some rest
  | _ :: rest => behindScheme rest
  | [] => none

def beforeScheme : List Char → List Char
  | ':' :: '/' :: '/' :: _ => []
  | c :: rest => c :: beforeScheme rest
  | [] => []

def domainOf (url : String) : String :=
  let remainder := ((behindScheme url.toList).map beforeScheme).getD url.toList
  .ofList ((remainder.takeWhile (· ≠ '/')).takeWhile (· ≠ ':'))

/-- The verb is the name in lower case; the name as it is stays beside it. -/
def toolFact (name : String) (input : Option Json) : Option ToolFact :=
  let field := fun key => input.bind (Json.strField key)
  let verb := String.ofList (name.toList.map Char.toLower)
  if verb ∈ ["read", "write", "edit", "list", "glob", "multiedit", "grep"] then
    ((field "file_path").or <| (field "filePath").or <| (field "pattern").or <| field "path").map fun path =>
      .touch path verb name
  else if verb = "bash" then
    let command := ((field "command").getD "").toList
    if command.isEmpty then none
    else some (.cmd (.ofList (command.takeWhile fun c => !isWhitespace c))
      (.ofList ((command.dropWhile fun c => !isWhitespace c).drop 1)))
  else if verb = "webfetch" then (field "url").map fun url => .fetch url (domainOf url)
  else if verb = "websearch" then ((field "query").or <| field "q").map .search
  else if verb = "skill" then
    let skill := ((field "skill").or <| field "name").getD ""
    if skill.isEmpty then none else some (.skill skill)
  else none

def factRow (session : String) (turn ts : Nat) : ToolFact → FactRow
  | .skill skill => ⟨session, turn, none, .skill skill⟩
  | fact => ⟨session, turn, some ts, fact⟩

def emitToolFact (store : TurnStore) (session : String) (turn ts : Nat) (name : String) (input : Option Json) :
    TurnStore :=
  match toolFact name input with
  | some fact => { store with facts := (store.facts.insertOrIgnore (factRow session turn ts fact)).1 }
  | none => store

/-! ## Session attributes -/

def sessionAttr (store : TurnStore) (session key : String) : Option String :=
  (store.attrs.get (session, key)).map AttrRow.value

/-- Last write wins. -/
def attrMerge : Merge AttrRow.rowKey where
  run _ new := new
  keeps _ _ _ := rfl

def setSessionAttr (store : TurnStore) (session key value : String) (ts : Nat) : TurnStore :=
  { store with attrs := store.attrs.upsert attrMerge ⟨session, key, value, ts⟩ }

end TurnStore
end BoopStore

/-!
# What the writes of the turn store do

`Numbered`: the turns of a session are 1 to n, in this order. A turn at the next ordinal keeps it.

`UsageOk`: a call that is interned has one usage row, and the row hangs on a turn unless it is one of `loose`. `usageAt`
is the usage of a call; a write of it absorbs the new counts (`absorb`). Over all writes of a call the counts are those
of the last one whose output is not below any before it (`absorb_spec`).
-/

namespace BoopStore.TurnStore

/-! ## Turns -/

theorem mem_turnsOf {store : TurnStore} {sid : String} {turn : Nat} :
    turn ∈ store.turnsOf sid ↔ (sid, turn) ∈ store.turns.keys := by
  simp only [turnsOf, List.mem_map, List.mem_filter, Table.keys, TurnRow.key, decide_eq_true_eq, Prod.mk.injEq]
  tauto

def Numbered (store : TurnStore) (sid : String) (n : Nat) : Prop := store.turnsOf sid = List.range' 1 n

theorem foldl_max_range' (n : Nat) : (List.range' 1 n).foldl max 0 = n := by
  induction n with
  | zero => rfl
  | succ n ih =>
    rw [List.range'_concat, List.foldl_append, ih]
    simp only [List.foldl_cons, List.foldl_nil]
    omega

theorem Numbered.maxTurn {store : TurnStore} {sid : String} {n : Nat} (h : Numbered store sid n) :
    store.maxTurn sid = n := by
  rw [TurnStore.maxTurn, h, foldl_max_range']

theorem Numbered.mem_keys {store : TurnStore} {sid : String} {n turn : Nat} (h : Numbered store sid n) :
    (sid, turn) ∈ store.turns.keys ↔ 0 < turn ∧ turn ≤ n := by
  rw [← mem_turnsOf, h, List.mem_range'_1]
  omega

theorem Numbered.of_turns {store store' : TurnStore} {sid : String} {n : Nat} (h : Numbered store sid n)
    (hturns : store'.turns = store.turns) : Numbered store' sid n := by
  rw [Numbered, turnsOf, hturns]
  exact h

/-- The next turn goes in, behind all. -/
theorem Numbered.add {store : TurnStore} {sid : String} {n : Nat} (h : Numbered store sid n) (ts : Nat)
    (role said : String) (cwd : Option String) (sourceClass : String) :
    ∃ turns : Table TurnRow.key, store.addTurnWithSource sid (n + 1) ts role said cwd sourceClass =
      ({ store with turns }, 1) ∧
      turns.rows = store.turns.rows ++ [⟨sid, n + 1, ts, role, said, cwd, sourceClass⟩] ∧
      Numbered { store with turns } sid (n + 1) := by
  have hnew : (sid, n + 1) ∉ store.turns.keys := by
    rw [h.mem_keys]
    omega
  rcases Table.insertOrIgnore_spec store.turns ⟨sid, n + 1, ts, role, said, cwd, sourceClass⟩ with
    ⟨-, hrows, hinserted⟩ | ⟨hmem, -⟩
  · refine ⟨_, ?_, hrows, ?_⟩
    · simp [addTurnWithSource, hinserted]
    · rw [Numbered, turnsOf, hrows, List.filter_append, List.map_append, ← turnsOf, h, List.range'_concat]
      simp [Nat.add_comm]
  · exact absurd hmem hnew

/-! ## Usage -/

structure UsageOk (loose : String × Nat → Prop) (store : TurnStore) : Prop where
  refs     : (store.usage.rows.map fun r => r.usage.request).Nodup
  interned : ∀ q, q ∈ store.requests.rows ↔ q ∈ store.usage.rows.map fun r => r.usage.request
  attached : ∀ r ∈ store.usage.rows, r.key ∈ store.turns.keys ∨ loose r.key

variable {loose : String × Nat → Prop}

/-- More turns and other facts leave the usage in order. -/
theorem UsageOk.of_turns {store store' : TurnStore} (h : UsageOk loose store) (husage : store'.usage = store.usage)
    (hrequests : store'.requests = store.requests) (hturns : ∀ k ∈ store.turns.keys, k ∈ store'.turns.keys) :
    UsageOk loose store' := by
  refine ⟨?_, fun q => ?_, fun r hr => ?_⟩
  · rw [husage]
    exact h.refs
  · rw [hrequests, husage]
    exact h.interned q
  · rw [husage] at hr
    exact (h.attached r hr).imp_left (hturns _)

/-- The row of a call. -/
def rowAt (store : TurnStore) (q : Request) : Option UsageRecord :=
  store.usage.rows.find? fun r => r.usage.request = q

def usageAt (store : TurnStore) (q : Request) : Option UsageRow := (store.rowAt q).map UsageRecord.usage

theorem rowAt_eq_none {store : TurnStore} (h : UsageOk loose store) {q : Request} :
    store.rowAt q = none ↔ q ∉ store.requests.rows := by
  rw [rowAt, List.find?_eq_none, h.interned, List.mem_map]
  simp

/-- The row of a call is its only one, and hangs on a turn or is loose. -/
theorem UsageOk.row {store : TurnStore} (h : UsageOk loose store) {q : Request} {r : UsageRecord}
    (hr : store.rowAt q = some r) : (∀ r', r' ∈ store.usage.rows ∧ r'.usage.request = q ↔ r' = r) ∧
      (r.key ∈ store.turns.keys ∨ loose r.key) := by
  have hmem := List.mem_of_find?_eq_some hr
  have hrequest : r.usage.request = q := by simpa using List.find?_some hr
  refine ⟨fun r' => ⟨?_, ?_⟩, h.attached r hmem⟩
  · rintro ⟨hr', hq⟩
    exact List.inj_on_of_nodup_map h.refs hr' hmem (hq.trans hrequest.symm)
  · rintro rfl
    exact ⟨hmem, hrequest⟩

/-- What the usage of a call becomes. -/
def absorb (old : Option UsageRow) (new : UsageRow) : Option UsageRow :=
  match old with
  | none => some new
  | some old => some (if old.outputTokens ≤ new.outputTokens then merged old new else old)

theorem internRequest_eq (store : TurnStore) (messageId requestId : String) :
    (⟨messageId, requestId⟩ ∈ store.requests.rows ∧ store.internRequest messageId requestId = (store, false)) ∨
    (⟨messageId, requestId⟩ ∉ store.requests.rows ∧ ∃ requests : Table (id : Request → Request),
      store.internRequest messageId requestId = ({ store with requests }, true) ∧
      requests.rows = store.requests.rows ++ [⟨messageId, requestId⟩]) := by
  have hkeys : store.requests.keys = store.requests.rows := List.map_id _
  rcases Table.insertOrIgnore_spec store.requests ⟨messageId, requestId⟩ with ⟨hnew, hrows, hinserted⟩ | ⟨hold, heq⟩
  · rw [hkeys] at hnew
    refine .inr ⟨hnew, _, ?_, hrows⟩
    rw [internRequest]
    exact Prod.ext rfl hinserted
  · rw [hkeys] at hold
    refine .inl ⟨hold, ?_⟩
    rw [internRequest, heq]

/-- A call that was just interned gets a row, at an ordinal that has none. -/
theorem addUsage_new {store : TurnStore} (h : UsageOk loose store) {requests : Table (id : Request → Request)}
    {turns : Table TurnRow.key} (facts : Table FactRow.key) {sid : String} {turn : Nat} {usage : UsageRow}
    (hnew : usage.request ∉ store.requests.rows) (hrequests : requests.rows = store.requests.rows ++ [usage.request])
    (hturns : ∀ k ∈ store.turns.keys, k ∈ turns.keys) (hhere : (sid, turn) ∈ turns.keys)
    (hfree : (sid, turn) ∉ store.usage.keys) :
    ∃ rows : Table UsageRecord.key,
      { store with requests, turns, facts }.addUsage sid turn true usage =
        .ok ({ store with requests, turns, facts, usage := rows }, true) ∧
      UsageOk loose { store with requests, turns, facts, usage := rows } ∧
      ∀ q, usageAt { store with requests, turns, facts, usage := rows } q =
        if usage.request = q then absorb (store.usageAt q) usage else store.usageAt q := by
  have hnot : usage.request ∉ store.usage.rows.map fun r => r.usage.request := fun hmem =>
    hnew ((h.interned _).2 hmem)
  have hinsert := Table.insert?_of_notMem (t := store.usage) (r := ⟨sid, turn, usage⟩) hfree
  refine ⟨store.usage.push ⟨sid, turn, usage⟩ hfree, ?_, ⟨?_, fun q => ?_, fun r hr => ?_⟩, fun q => ?_⟩
  · simp only [addUsage, if_true, if_neg hnot, hinsert]
  · simp only [Table.push, List.map_append, List.map_singleton]
    refine List.nodup_append.2 ⟨h.refs, List.nodup_singleton _, fun a ha b hb hab => ?_⟩
    rw [List.mem_singleton.1 hb] at hab
    exact hnot (hab ▸ ha)
  · simp only [Table.push, hrequests, List.map_append, List.mem_append, List.map_singleton, h.interned]
  · rcases List.mem_append.1 hr with hr | hr
    · exact (h.attached r hr).imp_left (hturns _)
    · rw [List.mem_singleton.1 hr]
      exact .inl hhere
  · simp only [usageAt, rowAt, Table.push, List.find?_append, List.find?_singleton]
    by_cases hq : usage.request = q
    · subst hq
      have hnone : store.usage.rows.find? (fun r => decide (r.usage.request = usage.request)) = none :=
        (rowAt_eq_none h).2 hnew
      simp [hnone, absorb]
    · simp [hq]

/-- What a repeated call makes of a row. -/
def renew (usage : UsageRow) (r : UsageRecord) : UsageRecord :=
  if updates usage r then { r with usage := merged r.usage usage } else r

theorem key_renew (usage : UsageRow) (r : UsageRecord) : (renew usage r).key = r.key := by
  unfold renew
  split_ifs <;> rfl

theorem request_renew (usage : UsageRow) (r : UsageRecord) : (renew usage r).usage.request = r.usage.request := by
  unfold renew
  split_ifs <;> rfl

/-- A call that is known has its row updated, where the output does not fall. -/
theorem addUsage_old {store : TurnStore} (h : UsageOk loose store) (sid : String) (turn : Nat) {usage : UsageRow}
    (hold : usage.request ∈ store.requests.rows) :
    ∃ (rows : Table UsageRecord.key) (changed : Bool),
      store.addUsage sid turn false usage = .ok ({ store with usage := rows }, changed) ∧
      UsageOk loose { store with usage := rows } ∧ rows.keys = store.usage.keys ∧
      ∀ q, usageAt { store with usage := rows } q =
        if usage.request = q then absorb (store.usageAt q) usage else store.usageAt q := by
  have hrefs : (store.usage.rows.map (renew usage)).map (fun r => r.usage.request) =
      store.usage.rows.map fun r => r.usage.request := by
    rw [List.map_map]
    exact List.map_congr_left fun r _ => request_renew usage r
  refine ⟨store.usage.update (renew usage) (key_renew usage), store.usage.rows.any (updates usage), rfl,
    ⟨?_, fun q => ?_, fun r hr => ?_⟩, Table.keys_update .., fun q => ?_⟩
  · simp only [Table.update, hrefs]
    exact h.refs
  · simp only [Table.update, hrefs]
    exact h.interned q
  · obtain ⟨r₀, hr₀, rfl⟩ := List.mem_map.1 hr
    rw [key_renew]
    exact h.attached r₀ hr₀
  · have hfind : usageAt { store with usage := store.usage.update (renew usage) (key_renew usage) } q =
        (store.rowAt q).map fun r => (renew usage r).usage := by
      simp only [usageAt, rowAt, Table.update, List.find?_map, Function.comp_def, request_renew, Option.map_map]
    rw [hfind, usageAt]
    cases hrow : store.rowAt q with
    | none =>
      have hmissing := (rowAt_eq_none h).1 hrow
      have hne : usage.request ≠ q := fun heq => hmissing (heq ▸ hold)
      simp [hne]
    | some r =>
      have hq : r.usage.request = q := by simpa using List.find?_some hrow
      by_cases heq : usage.request = q
      · have hupdates : updates usage r = decide (r.usage.outputTokens ≤ usage.outputTokens) := by
          simp [updates, hq, heq]
        simp only [Option.map_some, if_pos heq, absorb, renew, hupdates, decide_eq_true_eq]
        by_cases hle : r.usage.outputTokens ≤ usage.outputTokens
        · simp [hle]
        · simp [hle]
      · have hupdates : updates usage r = false := by simp [updates, hq, Ne.symm heq]
        simp [renew, hupdates, heq]

/-- A call that was not seen, at an ordinal without usage: one row more in both tables. -/
theorem writeUsage_new {store : TurnStore} {sid : String} {turn : Nat} {usage : UsageRow}
    (hrequest : usage.request ∉ store.requests.rows)
    (hrefs : usage.request ∉ store.usage.rows.map fun r => r.usage.request)
    (hkey : UsageRecord.key ⟨sid, turn, usage⟩ ∉ store.usage.keys) :
    ∃ requests : Table (id : Request → Request), requests.rows = store.requests.rows ++ [usage.request] ∧
      store.writeUsage sid turn usage =
        .ok ({ store with requests, usage := store.usage.push ⟨sid, turn, usage⟩ hkey }, true, true) := by
  rcases internRequest_eq store usage.messageId usage.requestId with ⟨hmem, -⟩ | ⟨-, requests, hintern, hrows⟩
  · exact absurd hmem hrequest
  · refine ⟨requests, hrows, ?_⟩
    have hadd : TurnStore.addUsage { store with requests } sid turn true usage =
        .ok ({ store with requests, usage := store.usage.push ⟨sid, turn, usage⟩ hkey }, true) := by
      rw [addUsage, if_pos rfl, if_neg hrefs]
      simp only [Table.insert?_of_notMem hkey]
    simp only [writeUsage, hintern, hadd]
    rfl

/-- A call that was seen renews its row. -/
theorem writeUsage_old {store : TurnStore} {usage : UsageRow} (hrequest : usage.request ∈ store.requests.rows)
    (sid : String) (turn : Nat) : ∃ changed, store.writeUsage sid turn usage =
      .ok ({ store with usage := store.usage.update (renew usage) (key_renew usage) }, false, changed) := by
  rcases internRequest_eq store usage.messageId usage.requestId with ⟨-, hintern⟩ | ⟨hnew, -⟩
  · refine ⟨store.usage.rows.any (updates usage), ?_⟩
    simp only [writeUsage, hintern, addUsage]
    rfl
  · exact absurd hrequest hnew

/-! ## All the writes of a call -/

/-- The counts of a usage. -/
structure UsageCounts where
  input         : Int
  output        : Int
  cacheCreate5m : Int
  cacheCreate1h : Int
  cacheRead     : Int
deriving DecidableEq, Repr

def UsageCounts.of (usage : UsageRow) : UsageCounts :=
  ⟨usage.inputTokens, usage.outputTokens, usage.cacheCreate5mTokens, usage.cacheCreate1hTokens, usage.cacheReadTokens⟩

/-- The output is not below that of any before it. -/
def Leads (before : List UsageRow) (u : UsageRow) : Prop := ∀ x ∈ before, x.outputTokens ≤ u.outputTokens

/-- The last usage of a list that leads. -/
def LastLeading (us : List UsageRow) (u : UsageRow) : Prop :=
  ∃ before after, us = before ++ u :: after ∧ Leads before u ∧
    ∀ earlier x later, after = earlier ++ x :: later → ¬ Leads (before ++ u :: earlier) x

theorem LastLeading.append {us : List UsageRow} {u : UsageRow} (h : LastLeading us u) {x : UsageRow}
    (hbelow : x.outputTokens < u.outputTokens) : LastLeading (us ++ [x]) u := by
  obtain ⟨before, after, rfl, hleads, hafter⟩ := h
  refine ⟨before, after ++ [x], by simp, hleads, fun earlier y later heq => ?_⟩
  rcases List.eq_nil_or_concat' later with rfl | ⟨later, z, rfl⟩
  · obtain ⟨rfl, hxy⟩ := List.append_inj' heq rfl
    cases hxy
    intro hx
    exact absurd (hx u (by simp)) (not_le.2 hbelow)
  · have heq' : after ++ [x] = (earlier ++ y :: later) ++ [z] := by simpa using heq
    obtain ⟨rfl, -⟩ := List.append_inj' heq' rfl
    exact hafter earlier y later rfl

/-- **Over all writes of a call** its counts are those of the last that leads. -/
theorem absorb_spec {us : List UsageRow} (h : us ≠ []) :
    ∃ r u, us.foldl absorb none = some r ∧ LastLeading us u ∧ UsageCounts.of r = UsageCounts.of u ∧
      ∀ x ∈ us, x.outputTokens ≤ r.outputTokens := by
  induction us using List.reverseRecOn with
  | nil => exact absurd rfl h
  | append_singleton us x ih =>
    rw [List.foldl_append, List.foldl_cons, List.foldl_nil]
    by_cases hus : us = []
    · subst hus
      refine ⟨x, x, rfl, ⟨[], [], rfl, fun y hy => (List.not_mem_nil hy).elim, fun earlier y later heq => ?_⟩,
        rfl, by simp⟩
      cases earlier <;> cases heq
    · obtain ⟨r, u, hr, hu, hcounts, hall⟩ := ih hus
      have hout : r.outputTokens = u.outputTokens := congrArg UsageCounts.output hcounts
      rw [hr, absorb]
      by_cases hle : r.outputTokens ≤ x.outputTokens
      · rw [if_pos hle]
        refine ⟨_, x, rfl, ⟨us, [], rfl, fun y hy => (hall y hy).trans hle, fun earlier y later heq => ?_⟩, rfl,
          fun y hy => ?_⟩
        · cases earlier <;> cases heq
        · rcases List.mem_append.1 hy with hy | hy
          · exact (hall y hy).trans hle
          · rw [List.mem_singleton.1 hy]
            exact le_rfl
      · rw [if_neg hle]
        refine ⟨r, u, rfl, hu.append (hout ▸ not_le.1 hle), hcounts, fun y hy => ?_⟩
        rcases List.mem_append.1 hy with hy | hy
        · exact hall y hy
        · rw [List.mem_singleton.1 hy]
          exact (not_le.1 hle).le

end BoopStore.TurnStore
