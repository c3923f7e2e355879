import HafleyRs.BoopStore.Mail
import HafleyRs.BoopStore.Route
import HafleyRs.Lib.BTree

/-!
# The runtime of a lane, alone and in a batch (`crates/boop-store/src/runtime.rs`)

| here | there |
| --- | --- |
| `RuntimeDiagnostic`, `ResolvedRoute`, `ProcessIdentity`, `CompletionRecord`, `LaneRuntime` | 25, 49, 83, 93, 104 |
| `Dict`, `RuntimeStore` | `dict_session`, `dict_trace`, `dict_pane` and the tables read (`sql/40_schema.sql` 89–352) |
| `runtimeTraceNames`, `runtimeTraceRoot`, `runtimeAttachedSessions`, `runtimeProcess` | 1148, 1166, 1178, 1191 |
| `laneTraceRows` | the query of `runtime_lane_traces_sql` (593) |
| `runtimeBatch` | `runtime_batch` (1003) |
| `resolveWith` | the body that `resolve_with_completion` (632) and `resolve_with_completion_batch` (769) share |
| `routeMatches`, `latestCompletion`, `mailboxProjection` | 894, 914, 491 |
| `snapshotLanes` | the lanes of `runtime_snapshot_with_batch` (248) |

A dictionary has a value for an id once, so a join on its id finds one row or none (`Dict.value`). A query ordered by
all its columns is the sorted set of its rows. The number of parameters of a statement is not bounded here. Of the
mailbox projection only the completions are read.
-/

namespace BoopStore

inductive RuntimeDiagnostic where
  | missingLane
  | missingTrace (lane : String)
  | ambiguousTrace (lane : String) (traces : List String)
  | missingCurrentSession (trace : String)
  | ambiguousCurrentSession (trace : String) (sessions : List String) (activityTs : Int)
  | missingRoute
  | ambiguousRoute (lanes : List String)
  | missingCompletion
deriving DecidableEq, Repr

structure ResolvedRoute where
  lane         : String
  kind         : String
  harness      : Option HarnessId
  tmux         : Option String
  cwd          : Option String
  model        : Option String
  mode         : Option String
  sessionId    : Option String
  sourcePath   : Option String
  parent       : Option String
  goal         : Option String
  registeredAt : Option String
deriving DecidableEq, Repr

def ResolvedRoute.fromRoute (lane : String) (route : Route) : ResolvedRoute :=
  ⟨lane, route.kind.asStr, route.harness, route.tmux, route.cwd, route.model, route.mode, route.sessionId,
    route.sourcePath, route.parent, route.goal, route.registeredAt⟩

structure ProcessIdentity where
  session  : String
  status   : Option String
  pid      : Option Int
  tmuxPane : Option String
  alive    : Option Bool
deriving DecidableEq, Repr

structure CompletionRecord where
  id        : String
  fromRoute : String
  toRoute   : String
  timestamp : String
  body      : String
  exitCode  : Option Int
deriving DecidableEq, Repr

structure LaneRuntime where
  lane               : String
  trace              : Option String
  rootSession        : Option String
  currentSession     : Option String
  route              : Option ResolvedRoute
  process            : Option ProcessIdentity
  completion         : Option CompletionRecord
  placeholderSession : Option String
  generatedSessions  : List String
  diagnostics        : List RuntimeDiagnostic
deriving DecidableEq, Repr

/-! ## The tables -/

/-- `(id INTEGER PRIMARY KEY, value TEXT NOT NULL UNIQUE)` -/
structure Dict where
  rows   : List (Nat × String)
  ids    : (rows.map Prod.fst).Nodup
  values : (rows.map Prod.snd).Nodup

def Dict.value (d : Dict) (id : Nat) : Option String := (d.rows.find? fun r => r.1 = id).map Prod.snd

structure LaneSpawnRow where
  laneId  : Nat
  traceId : Option Nat
deriving DecidableEq, Repr

structure TraceRow where
  traceId       : Nat
  rootSessionId : Option Nat
deriving DecidableEq, Repr

structure TraceSpanRow where
  sessionId  : Nat
  traceId    : Nat
  attachedTs : Int
deriving DecidableEq, Repr

structure LiveRow where
  sessionId  : Nat
  pid        : Option Int
  tmuxPaneId : Option Nat
  status     : Option String
deriving DecidableEq, Repr

/-- `agent_turn` and `agent_usage` as sessions and times. -/
structure RuntimeStore where
  dictSession    : Dict
  dictTrace      : Dict
  dictPane       : Dict
  agentLane      : List LaneSpawnRow
  agentTrace     : List TraceRow
  agentTraceSpan : List TraceSpanRow
  agentSession   : List Nat
  agentTurn      : List (Nat × Option Int)
  agentUsage     : List (Nat × Int)
  agentLive      : List LiveRow
  traceIds       : (agentTrace.map TraceRow.traceId).Nodup
  spanSessions   : (agentTraceSpan.map TraceSpanRow.sessionId).Nodup
  liveSessions   : (agentLive.map LiveRow.sessionId).Nodup

structure AttachedSession where
  session    : String
  activityTs : Int
  generated  : Bool
deriving DecidableEq, Repr

namespace RuntimeStore

/-! ## Rows that both readings select from -/

/-- The traces the spans of a lane name, and the traces its spawns name. -/
def spanTraces (s : RuntimeStore) (lane : String) : List String :=
  s.agentTraceSpan.filterMap fun span =>
    if s.dictSession.value span.sessionId = some lane then s.dictTrace.value span.traceId else none

def laneTraces (s : RuntimeStore) (lane : String) : List String :=
  s.agentLane.filterMap fun row =>
    if s.dictSession.value row.laneId = some lane then row.traceId.bind s.dictTrace.value else none

/-- A trace and its root, `NULL` where the left join finds no session. -/
def rootRows (s : RuntimeStore) : List (String × Option String) :=
  s.agentTrace.filterMap fun row =>
    (s.dictTrace.value row.traceId).map fun trace => (trace, row.rootSessionId.bind s.dictSession.value)

/-- `COALESCE(MAX(ts), 0)` of the turns and of the usages, and the larger of the two. -/
def activityTs (s : RuntimeStore) (sessionId : Nat) : Int :=
  let turns := (s.agentTurn.filter fun t => t.1 = sessionId).filterMap Prod.snd
  let usages := (s.agentUsage.filter fun u => u.1 = sessionId).map Prod.snd
  max (turns.max?.getD 0) (usages.max?.getD 0)

structure AttachedRow where
  trace      : String
  attachedTs : Int
  session    : AttachedSession
deriving DecidableEq, Repr

def attachedRows (s : RuntimeStore) : List AttachedRow :=
  s.agentTraceSpan.filterMap fun span =>
    (s.dictTrace.value span.traceId).bind fun trace =>
      (s.dictSession.value span.sessionId).map fun session =>
        ⟨trace, span.attachedTs, session, s.activityTs span.sessionId, decide (span.sessionId ∈ s.agentSession)⟩

/-- The rows of `agent_live` with a name. -/
def processRows (s : RuntimeStore) : List ProcessIdentity :=
  s.agentLive.filterMap fun live =>
    (s.dictSession.value live.sessionId).map fun session =>
      ⟨session, live.status, live.pid, live.tmuxPaneId.bind s.dictPane.value, live.status.map fun v => v = "live"⟩

/-! ## One lane -/

def runtimeLaneExists (s : RuntimeStore) (lane : String) : Bool := lane ∈ s.dictSession.rows.map Prod.snd

def runtimeTraceNames (s : RuntimeStore) (lane : String) : List String :=
  sortedDistinct (s.spanTraces lane ++ s.laneTraces lane)

/-- The column is read as a `String`, and `NULL` is no `String`. -/
def runtimeTraceRoot (s : RuntimeStore) (trace : String) : Except String (Option String) :=
  match (s.rootRows.filter fun r => r.1 = trace).head? with
  | none => .ok none
  | some (_, some root) => .ok (some root)
  | some (_, none) => .error "Invalid column type Null at index: 0, name: value"

/-- `ORDER BY span.attached_ts, d.value` -/
def AttachedRow.key (r : AttachedRow) : Int ×ₗ String := toLex (r.attachedTs, r.session.session)

def runtimeAttachedSessions (s : RuntimeStore) (trace : String) : List AttachedSession :=
  ((s.attachedRows.filter fun r => r.trace = trace).insertionSort fun a b => a.key ≤ b.key).map AttachedRow.session

def runtimeProcess (s : RuntimeStore) (session : String) : Option ProcessIdentity :=
  (s.processRows.filter fun p => p.session = session).head?

/-! ## The batch -/

/-- `UNION` of the lanes that were spawned and of those that have a route. -/
def candidateLaneIds (s : RuntimeStore) (routes : BTreeMap String Route) : List Nat :=
  (s.agentLane.map LaneSpawnRow.laneId ++
    (s.dictSession.rows.filter fun r => routes.contains r.2).map Prod.fst).dedup

abbrev LaneTraceRow := String ×ₗ WithBot String ×ₗ Bool

def laneTraceRow (lane : String) (trace : Option String) (isLane : Bool) : LaneTraceRow :=
  toLex (lane, toLex ((trace : WithBot String), isLane))

/-- The spawns of a candidate, or `NULL` where it has none. -/
def laneArm (s : RuntimeStore) (candidate : Nat) : List (Option String) :=
  let spawns := s.agentLane.filter fun row => row.laneId = candidate
  if spawns = [] then [none] else spawns.map fun row => row.traceId.bind s.dictTrace.value

def spanArm (s : RuntimeStore) (candidate : Nat) : List String :=
  (s.agentTraceSpan.filter fun span => span.sessionId = candidate).filterMap fun span => s.dictTrace.value span.traceId

def laneTraceRows (s : RuntimeStore) (routes : BTreeMap String Route) : List LaneTraceRow :=
  let arms := (s.candidateLaneIds routes).flatMap fun candidate =>
    match s.dictSession.value candidate with
    | none => []
    | some lane =>
      (s.laneArm candidate).map (fun trace => laneTraceRow lane trace true) ++
        (s.spanArm candidate).map fun trace => laneTraceRow lane (some trace) false
  sortedDistinct arms

end RuntimeStore

structure RuntimeBatch where
  lanes      : List String
  laneExists : List String
  traces     : BTreeMap String (List String)
  roots      : BTreeMap String (Option String)
  attached   : BTreeMap String (List AttachedSession)
  processes  : BTreeMap String ProcessIdentity

/-- `if v.last() != Some(&a) { v.push(a) }` -/
def pushNew {A : Type} [DecidableEq A] (v : List A) (a : A) : List A := if v.getLast? = some a then v else v ++ [a]

namespace RuntimeStore

/-- One row of the first query. -/
def readLaneTrace (routes : BTreeMap String Route) (b : List String × BTreeMap String (List String))
    (row : LaneTraceRow) : List String × BTreeMap String (List String) :=
  let lane := (ofLex row).1
  let trace : Option String := (ofLex (ofLex row).2).1
  let isLane := (ofLex (ofLex row).2).2
  let lanes := if isLane then pushNew b.1 lane else b.1
  match trace.filter fun _ => isLane || routes.contains lane with
  | some trace => (lanes, b.2.alter lane fun traces => some (pushNew (traces.getD []) trace))
  | none => (lanes, b.2)

def runtimeBatch (s : RuntimeStore) (routes : BTreeMap String Route) : RuntimeBatch :=
  let (lanes, traces) := (s.laneTraceRows routes).foldl (readLaneTrace routes) ([], ∅)
  let candidateLanes := sortedDistinct (lanes ++ routes.keys)
  let laneExists := (s.dictSession.rows.map Prod.snd).filter fun value => value ∈ candidateLanes
  let named := sortedDistinct (traces.toList.flatMap Prod.snd)
  let rootRows := (s.rootRows.filter fun r => r.1 ∈ named).insertionSort fun a b => a.1 ≤ b.1
  let attachedRows := (s.attachedRows.filter fun r => r.trace ∈ named).insertionSort fun a b =>
    toLex (a.trace, a.key) ≤ toLex (b.trace, b.key)
  let attached := BTreeMap.group AttachedRow.trace [] (fun rows r => rows ++ [r.session]) ∅ attachedRows
  let processSessions :=
    sortedDistinct (candidateLanes ++ attached.toList.flatMap fun e => e.2.map AttachedSession.session)
  let processRows := (s.processRows.filter fun p => p.session ∈ processSessions).insertionSort fun a b =>
    a.session ≤ b.session
  { lanes := lanes.insertionSort (· ≤ ·)
    laneExists
    traces
    roots := rootRows.foldl (fun m r => m.insert r.1 r.2) ∅
    attached
    processes := processRows.foldl (fun m p => m.insert p.session p) ∅ }

end RuntimeStore

/-! ## Routes and completions -/

def routeMatches (routes : BTreeMap String Route) (lane : String) (currentSession : Option String) :
    List (String × Route) :=
  match routes[lane]? with
  | some route => [(lane, route)]
  | none => routes.toList.filter fun e => currentSession.isSome && e.2.sessionId = currentSession

def completionOf (m : Message) : CompletionRecord := ⟨m.id, m.fromRoute, m.toRoute, m.fromTimestamp, m.body, m.rc⟩

def CompletionRecord.key (c : CompletionRecord) : String ×ₗ String := toLex (c.timestamp, c.id)

def completesLane (lane : String) (m : Message) : Bool :=
  m.kind.asStr = "result" && (m.fromRoute = lane || m.toRoute = lane)

/-- `max_by`: of elements that compare equal the last is the maximum. -/
def maxBy {A K : Type} [LinearOrder K] (key : A → K) (as : List A) : Option A :=
  as.foldl (fun best a => match best with
    | none => some a
    | some b => if key a < key b then some b else some a) none

def latestCompletion (messages : List Message) (lane : String) : Option CompletionRecord :=
  (maxBy (fun m => toLex (m.fromTimestamp, m.id)) (messages.filter (completesLane lane))).map completionOf

/-- A completion replaces an older one of its lane. -/
def recordCompletion (c : CompletionRecord) (completions : BTreeMap String CompletionRecord) (lane : String) :
    BTreeMap String CompletionRecord :=
  match completions[lane]? with
  | none => completions.insert lane c
  | some current => if current.key < c.key then completions.insert lane c else completions

/-- The completions of `mailbox_projection`. -/
def mailboxProjection (messages : List Message) : BTreeMap String CompletionRecord :=
  messages.foldl (fun completions m =>
    if m.kind.asStr = "result" then
      [m.fromRoute, m.toRoute].foldl (recordCompletion (completionOf m)) completions
    else completions) ∅

/-! ## The resolution -/

/-- What the trace of a lane says: its own facts, the session that is current, and what is wrong with it. -/
structure TraceFacets where
  trace              : Option String
  rootSession        : Option String
  currentSession     : Option String
  placeholderSession : Option String
  generatedSessions  : List String
  diagnostics        : List RuntimeDiagnostic
deriving DecidableEq, Repr

def currentFacets (lane trace : String) (rootSession : Option String) (attached : List AttachedSession) :
    TraceFacets :=
  let placeholder := ((attached.find? fun s => s.session = lane).map AttachedSession.session) <|> some lane
  let candidates := attached.filter fun s => s.generated && s.session ≠ lane
  let generated := candidates.map AttachedSession.session
  let activityTs := ((candidates.map AttachedSession.activityTs).max?).getD 0
  let current := candidates.filter fun s => s.activityTs = activityTs
  match candidates, current with
  | [], _ => ⟨some trace, rootSession, none, placeholder, generated, [.missingCurrentSession trace]⟩
  | _, s :: s' :: rest => ⟨some trace, rootSession, none, placeholder, generated,
      [.ambiguousCurrentSession trace ((s :: s' :: rest).map AttachedSession.session) activityTs]⟩
  | _, [s] => ⟨some trace, rootSession, some s.session, placeholder, generated, []⟩
  | _, [] => ⟨some trace, rootSession, none, placeholder, generated, []⟩

def traceFacets (lane : String) (traceNames : List String) (laneExists : Bool)
    (root : String → Except String (Option String)) (attached : String → List AttachedSession) :
    Except String TraceFacets :=
  match traceNames with
  | [] => .ok ⟨none, none, none, none, [], [if laneExists then .missingTrace lane else .missingLane]⟩
  | [trace] => (root trace).map fun rootSession => currentFacets lane trace rootSession (attached trace)
  | traces => .ok ⟨none, none, none, none, [], [.ambiguousTrace lane traces]⟩

def routeFacets (routes : BTreeMap String Route) (lane : String) (currentSession : Option String) :
    Option ResolvedRoute × List RuntimeDiagnostic :=
  match routeMatches routes lane currentSession with
  | [] => (none, [.missingRoute])
  | [(routeLane, route)] => (some (.fromRoute routeLane route), [])
  | found => (none, [.ambiguousRoute (found.map Prod.fst)])

/-- A route with a pane stands for a process that was not reported. -/
def routeProcess (lane : String) (currentSession : Option String) (route : Option ResolvedRoute) :
    Option ProcessIdentity :=
  route.bind fun r => if r.tmux.isSome then some ⟨currentSession.getD lane, none, none, r.tmux, none⟩ else none

def resolveWith (lane : String) (routes : BTreeMap String Route) (completion : Option CompletionRecord)
    (traceNames : List String) (laneExists : Bool) (root : String → Except String (Option String))
    (attached : String → List AttachedSession) (process : String → Option ProcessIdentity) :
    Except String LaneRuntime :=
  (traceFacets lane traceNames laneExists root attached).map fun f =>
    let (route, routeDiagnostics) := routeFacets routes lane f.currentSession
    { lane, trace := f.trace, rootSession := f.rootSession, currentSession := f.currentSession, route, completion
      process := ((f.currentSession <|> f.placeholderSession).bind process) <|> routeProcess lane f.currentSession route
      placeholderSession := f.placeholderSession
      generatedSessions := f.generatedSessions
      diagnostics := (if completion.isNone then [.missingCompletion] else []) ++ f.diagnostics ++ routeDiagnostics }

def resolve (s : RuntimeStore) (lane : String) (routes : BTreeMap String Route) (messages : List Message) :
    Except String LaneRuntime :=
  resolveWith lane routes (latestCompletion messages lane) (s.runtimeTraceNames lane) (s.runtimeLaneExists lane)
    s.runtimeTraceRoot s.runtimeAttachedSessions s.runtimeProcess

def resolveWithCompletionBatch (lane : String) (routes : BTreeMap String Route) (batch : RuntimeBatch)
    (completion : Option CompletionRecord) : Except String LaneRuntime :=
  resolveWith lane routes completion (batch.traces[lane]?.getD []) (decide (lane ∈ batch.laneExists))
    (fun trace => .ok (batch.roots[trace]?.getD none)) (fun trace => batch.attached[trace]?.getD [])
    fun session => batch.processes[session]?

def snapshotLanes (routes : BTreeMap String Route) (batch : RuntimeBatch) : List String :=
  sortedDistinct (batch.lanes ++ routes.keys)

/-- The row of a lane in `runtime_snapshot_live`, before the panes and processes are looked at. -/
def snapshotRuntime (s : RuntimeStore) (routes : BTreeMap String Route) (messages : List Message) (lane : String) :
    Except String LaneRuntime :=
  resolveWithCompletionBatch lane routes (s.runtimeBatch routes) ((mailboxProjection messages)[lane]?)

end BoopStore
