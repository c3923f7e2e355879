import HafleyRs.BoopStore.Traces
import HafleyRs.Lib.Table

/-!
# Recorded relations and the traces they attach (`crates/boop-store/src/ident/_1_trace_projection.rs`)

| here | there |
| --- | --- |
| `ObservationRow`, `SpanRow`, `TraceRow` | tables `agent_session_observation`, `agent_trace_span`, `agent_trace` |
| `observationsRead`, `relationsRead` | the queries of :27 and :56 |
| `attached` | the query of :94 |
| `projectTrace` | the body of the loop over the traces (:92) |
| `rebuildTraceProjection` | :5 |
| `observationSources` | `dict_observation_source` of `2_closed_sets.rs` |
| `recordSessionRelation` | ident.rs:2481 |
| `restoreSpan`, `rebuild` | ident.rs:1443, and what `Store::rebuild` (ident.rs:1241) does to these tables |

A dictionary has one id for a name, so a row has the name of its session and of its trace. Times are stored signed.
Sessions are read in the order they were first observed in, not by id; `derive_traces` does not depend on it
(`derive_traces_components`). `none` is a loop of `derive_traces` that would go on.
-/

namespace BoopStore.Projection

/-- `n as i64` -/
def asI64 (n : U64) : Int := if n.val < 2 ^ 63 then n.val else (n.val : Int) - 2 ^ 64

/-- `i as u64` -/
def asU64 (i : Int) : U64 := Fin.ofNat (2 ^ 64) (i % 2 ^ 64).toNat

structure ObservationRow where
  session    : String
  observedTs : Int
deriving DecidableEq, Repr

structure SpanRow where
  session    : String
  trace      : String
  attach     : String
  attachedTs : Int
deriving DecidableEq, Repr

structure TraceRow where
  trace       : String
  rootSession : String
  startedTs   : Int
deriving DecidableEq, Repr

structure TraceStore where
  observations : List ObservationRow
  relations    : Table SessionRelation.relationKey
  spans        : Table SpanRow.session
  traces       : Table TraceRow.trace

/-- `MIN`, 0 over nothing -/
def minTs (ts : List Int) : Int := ts.min?.getD 0

/-- An observation of which only the session and the time are read. -/
def bareObservation (session : String) (observedAtMs : U64) : SessionObservation :=
  ⟨"", session, observedAtMs, none, none, none, none, none, none, ""⟩

def observationsRead (store : TraceStore) : List SessionObservation :=
  ((store.observations.map ObservationRow.session).dedup.map fun session =>
    bareObservation session (asU64 (minTs ((store.observations.filter fun o => o.session = session).map
      ObservationRow.observedTs)))).take (TraceJoinLimits.default.maxObservations + 1)

/-- `ORDER BY relation.observed_ts, relation.relation_id` -/
def relationsRead (store : TraceStore) : List SessionRelation :=
  store.relations.rows.insertionSort fun a b => asI64 a.observedAtMs ≤ asI64 b.observedAtMs

/-- The trace a session is attached to, if that trace has a row. -/
def TraceStore.attached (store : TraceStore) (session : String) : Option String :=
  (store.spans.get session).bind fun span => (store.traces.get span.trace).map fun _ => span.trace

def TraceStore.existing (store : TraceStore) (sessions : List String) : List String :=
  (sessions.filterMap store.attached).dedup

def derivedAttach : String := "derived-session-relation"

def startedTs (observations : List SessionObservation) (trace : DerivedTrace) : Int :=
  minTs ((observations.filter fun o => o.sessionId ∈ trace.sessions).map fun o => asI64 o.observedAtMs)

/-- First observation, or first evidence, or when the trace started. -/
def attachedTs (observations : List SessionObservation) (trace : DerivedTrace) (session : String) : Int :=
  let observed := (observations.filter fun o => o.sessionId = session).map fun o => asI64 o.observedAtMs
  let evidence := (trace.evidence.filter fun r => r.fromSession = session ∨ r.toSession = session).map fun r =>
    asI64 r.observedAtMs
  ((observed.min?).or evidence.min?).getD (startedTs observations trace)

/-- `ON CONFLICT(session_id) DO UPDATE`: the time of the first attachment stays. -/
def spanMerge : Merge SpanRow.session where
  run old new := { old with trace := new.trace, attach := new.attach }
  keeps _ _ h := h

def attachSession (observations : List SessionObservation) (trace : DerivedTrace) (name : String)
    (spans : Table SpanRow.session) (session : String) : Table SpanRow.session :=
  spans.upsert spanMerge ⟨session, name, derivedAttach, attachedTs observations trace session⟩

/-- A component with sessions in two traces is left as it is. -/
def projectTrace (observations : List SessionObservation) (store : TraceStore) (trace : DerivedTrace) : TraceStore :=
  let existing := store.existing trace.sessions
  if 1 < existing.length then store
  else
    let name := existing.head?.getD ("trace-" ++ trace.rootSession)
    { store with
      traces := (store.traces.insertOrIgnore ⟨name, trace.rootSession, startedTs observations trace⟩).1
      spans := trace.sessions.foldl (attachSession observations trace name) store.spans }

def rebuildTraceProjection (store : TraceStore) : Option (Except TraceJoinDiagnostic TraceStore) :=
  let limits := TraceJoinLimits.default
  let relationCount := store.relations.rows.length
  if relationCount > limits.maxRelations then
    some (.error (.relationBudgetExceeded limits.maxRelations relationCount))
  else if relationCount = 0 then some (.ok store)
  else
    let observations := observationsRead store
    (deriveTraces observations (relationsRead store) limits).map fun r => r.map fun traces =>
      (traces.filter fun trace => !trace.evidence.isEmpty).foldl (projectTrace observations) store

def observationSources : List String :=
  ["legacy-agent-trace-span", "trace-event", "transcript-sync", "trace-attach", "live-status",
    "transcript-session-metadata", "claude-transcript"]

inductive RecordError where
  | unknownSource (source : String)
  | join (diagnostic : TraceJoinDiagnostic)
deriving DecidableEq, Repr

/-- An error rolls back, so it comes without a store. A relation that makes the projection ambiguous stays stored,
    with a warning. -/
def recordSessionRelation (store : TraceStore) (relation : SessionRelation) :
    Option (Except RecordError (TraceStore × Bool)) :=
  if relation.source ∉ observationSources then some (.error (.unknownSource relation.source))
  else
    let (relations, inserted) := store.relations.insertOrIgnore relation
    let stored := { store with relations }
    if !inserted then some (.ok (stored, false))
    else match rebuildTraceProjection stored with
      | none => none
      | some (.ok projected) => some (.ok (projected, true))
      | some (.error (.ambiguousRelation _ _)) => some (.ok (stored, true))
      | some (.error diagnostic) => some (.error (.join diagnostic))

/-- The store after a call; one that fails leaves it. -/
def recorded (store : TraceStore) (relation : SessionRelation) : TraceStore :=
  match recordSessionRelation store relation with
  | some (.ok (store, _)) => store
  | _ => store

/-- `INSERT OR REPLACE` -/
def spanReplace : Merge SpanRow.session where
  run _ new := new
  keeps _ _ _ := rfl

def restoreSpan (store : TraceStore) (span : SpanRow) : TraceStore :=
  { store with
    traces := (store.traces.insertOrIgnore ⟨span.trace, span.session, span.attachedTs⟩).1
    spans := store.spans.upsert spanReplace span }

/-- `ORDER BY span.attached_ts, session.value` -/
def carriedSpans (store : TraceStore) : List SpanRow :=
  store.spans.rows.insertionSort fun a b => toLex (a.attachedTs, a.session) ≤ toLex (b.attachedTs, b.session)

/-- Observations and relations go back as they were; a span takes its trace with it. -/
def rebuild (store : TraceStore) : Option (Except TraceJoinDiagnostic TraceStore) :=
  rebuildTraceProjection
    ((carriedSpans store).foldl restoreSpan { store with spans := .empty, traces := .empty })

end BoopStore.Projection
