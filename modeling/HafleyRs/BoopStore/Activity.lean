import HafleyRs.Lib.Query

/-!
# Activity counts (`crates/boop-store/src/activity.rs`)

| here | there |
| --- | --- |
| `ActivityScope`, `ActivityCount` | 17, 37 |
| `sessionMembers`, `traceMembers`, `laneMembers` | 55, 69, 81 |
| `turnCounts`, `usageCounts` | the tables of one name in both queries (96, 107; 176, 190) |
| `activityRows` | the select over `members` (121, 205) |
| `activitySql` | `activity_sql` (91) |
| `scopedTraceActivitySql` | `scoped_trace_activity_sql` (159) |
| `activityCountsForTraces` | `activity_counts_for_traces` (280) |
| `ActivityStore` | the tables read, with their keys (`ident.rs` 4975, 5111–5223, 5314) |

Rows are multisets (`Lib.Query`). The sums are exact: SQLite's error for a sum past 64 bits is left out.
-/

namespace BoopStore

inductive ActivityScope where
  | session | trace | lane
deriving DecidableEq, Repr

structure ActivityTurn where
  sessionId : Nat
  turn      : Int
  ts        : Option Int
  role      : String
deriving DecidableEq, Repr

structure ActivityUsage where
  sessionId           : Nat
  turn                : Int
  ts                  : Int
  inputTokens         : Int
  outputTokens        : Int
  cacheCreate5mTokens : Int
  cacheCreate1hTokens : Int
  cacheReadTokens     : Int
deriving DecidableEq, Repr

/-- The dictionary rows are an id and a value, a span is a session and its trace, a lane row a lane and the
    trace it was spawned under. -/
structure ActivityStore where
  dictSession    : Multiset (Nat × String)
  dictTrace      : Multiset (Nat × String)
  agentSession   : Multiset Nat
  agentTrace     : Multiset Nat
  agentTraceSpan : Multiset (Nat × Nat)
  agentLane      : Multiset (Nat × Option Nat)
  agentTurn      : Multiset ActivityTurn
  agentUsage     : Multiset ActivityUsage
  traceIds       : (dictTrace.map Prod.fst).Nodup
  traceValues    : (dictTrace.map Prod.snd).Nodup
  spanSessions   : (agentTraceSpan.map Prod.fst).Nodup

/-! ## The counts of a session -/

/-- `MIN` and `MAX` pass over `NULL`. -/
def least (ts : Multiset (Option Int)) : Option Int := ts.fold (Option.merge min) none

def greatest (ts : Multiset (Option Int)) : Option Int := ts.fold (Option.merge max) none

structure TurnCounts where
  sessionId : Nat
  user      : Nat
  assistant : Nat
  tool      : Nat
  total     : Nat
  firstTs   : Option Int
  lastTs    : Option Int
deriving DecidableEq, Repr

def roleCount (turns : Multiset ActivityTurn) (role : String) : Nat := (turns.filter fun t => t.role = role).card

def turnCounts (turns : Multiset ActivityTurn) : Multiset TurnCounts :=
  (Query.groups ActivityTurn.sessionId turns : Multiset (Nat × Multiset ActivityTurn)).map fun (sessionId, group) =>
    { sessionId
      user := roleCount group "user"
      assistant := roleCount group "assistant"
      tool := roleCount group "tool"
      total := group.card
      firstTs := least (group.map ActivityTurn.ts)
      lastTs := greatest (group.map ActivityTurn.ts) }

structure UsageCounts where
  sessionId           : Nat
  calls               : Nat
  inputTokens         : Int
  outputTokens        : Int
  cacheCreate5mTokens : Int
  cacheCreate1hTokens : Int
  cacheReadTokens     : Int
  firstTs             : Option Int
  lastTs              : Option Int
deriving DecidableEq, Repr

def usageCounts (usages : Multiset ActivityUsage) : Multiset UsageCounts :=
  (Query.groups ActivityUsage.sessionId usages : Multiset (Nat × Multiset ActivityUsage)).map fun (sessionId, group) =>
    { sessionId
      calls := group.card
      inputTokens := (group.map ActivityUsage.inputTokens).sum
      outputTokens := (group.map ActivityUsage.outputTokens).sum
      cacheCreate5mTokens := (group.map ActivityUsage.cacheCreate5mTokens).sum
      cacheCreate1hTokens := (group.map ActivityUsage.cacheCreate1hTokens).sum
      cacheReadTokens := (group.map ActivityUsage.cacheReadTokens).sum
      firstTs := least (group.map fun u => some u.ts)
      lastTs := greatest (group.map fun u => some u.ts) }

/-! ## The select -/

structure ActivityCount where
  scope               : ActivityScope
  identity            : String
  user                : Nat
  assistant           : Nat
  toolCall            : Nat
  total               : Nat
  calls               : Nat
  inputTokens         : Int
  outputTokens        : Int
  cacheCreate5mTokens : Int
  cacheCreate1hTokens : Int
  cacheReadTokens     : Int
  firstActivityTs     : Option Int
  lastActivityTs      : Option Int
deriving DecidableEq, Repr

/-- A session, if the identity has any, and the identity. -/
abbrev Member := Option Nat × String

abbrev MemberRow := (Member × Option TurnCounts) × Option UsageCounts

/-- The `CASE` of the two times of a row: the one that is there, and of two the first `better` prefers. -/
def eitherTs (better : Int → Int → Prop) [DecidableRel better] : Option Int → Option Int → Option Int
  | none, usage => usage
  | turn, none => turn
  | some turn, some usage => if better turn usage then some turn else some usage

/-- `COALESCE(SUM(..), 0)` -/
def sumOf {M : Type} [AddCommMonoid M] (rows : Multiset MemberRow) (column : MemberRow → Option M) : M :=
  (rows.map fun r => (column r).getD 0).sum

def activityCount (scope : ActivityScope) (identity : String) (rows : Multiset MemberRow) : ActivityCount where
  scope
  identity
  user := sumOf rows fun r => r.1.2.map TurnCounts.user
  assistant := sumOf rows fun r => r.1.2.map TurnCounts.assistant
  toolCall := sumOf rows fun r => r.1.2.map TurnCounts.tool
  total := sumOf rows fun r => r.1.2.map TurnCounts.total
  calls := sumOf rows fun r => r.2.map UsageCounts.calls
  inputTokens := sumOf rows fun r => r.2.map UsageCounts.inputTokens
  outputTokens := sumOf rows fun r => r.2.map UsageCounts.outputTokens
  cacheCreate5mTokens := sumOf rows fun r => r.2.map UsageCounts.cacheCreate5mTokens
  cacheCreate1hTokens := sumOf rows fun r => r.2.map UsageCounts.cacheCreate1hTokens
  cacheReadTokens := sumOf rows fun r => r.2.map UsageCounts.cacheReadTokens
  firstActivityTs := least (rows.map fun r =>
    eitherTs (· < ·) (r.1.2.bind TurnCounts.firstTs) (r.2.bind UsageCounts.firstTs))
  lastActivityTs := greatest (rows.map fun r =>
    eitherTs (· > ·) (r.1.2.bind TurnCounts.lastTs) (r.2.bind UsageCounts.lastTs))

def memberRows (members : Multiset Member) (turns : Multiset TurnCounts) (usages : Multiset UsageCounts) :
    Multiset MemberRow :=
  Query.leftJoin (fun (r : Member × Option TurnCounts) (u : UsageCounts) => r.1.1 = some u.sessionId)
    (Query.leftJoin (fun (m : Member) (t : TurnCounts) => m.1 = some t.sessionId) members turns) usages

def activityRows (scope : ActivityScope) (members : Multiset Member) (turns : Multiset TurnCounts)
    (usages : Multiset UsageCounts) : List ActivityCount :=
  (Query.groups (fun r : MemberRow => r.1.1.2) (memberRows members turns usages)).map fun (identity, rows) =>
    activityCount scope identity rows

/-! ## The members -/

section
variable (store : ActivityStore)

def sessionMembers : Multiset Member :=
  let known := (store.agentSession + store.agentTurn.map ActivityTurn.sessionId +
    store.agentUsage.map ActivityUsage.sessionId + store.agentTraceSpan.map Prod.fst).dedup
  (Query.join (fun k (d : Nat × String) => d.1 = k) known store.dictSession).map fun p => (some p.1, p.2.2)

/-- The traces of a trace row, a span or a lane. -/
def knownTraces : Multiset Nat :=
  (store.agentTrace + store.agentTraceSpan.map Prod.snd + store.agentLane.filterMap Prod.snd).dedup

def traceMembers : Multiset Member :=
  let named := Query.join (fun k (d : Nat × String) => d.1 = k) (knownTraces store) store.dictTrace
  (Query.leftJoin (fun p (s : Nat × Nat) => s.2 = p.1) named store.agentTraceSpan).map fun p =>
    (p.2.map Prod.fst, p.1.2.2)

def laneMembers : Multiset Member :=
  let named := Query.join (fun k (d : Nat × String) => d.1 = k.1) store.agentLane.dedup store.dictSession
  (Query.leftJoin (fun p (s : Nat × Nat) => some s.2 = p.1.2) named store.agentTraceSpan).map fun p =>
    (p.2.map Prod.fst, p.1.2.2)

def activitySql (scope : ActivityScope) : List ActivityCount :=
  let members := match scope with
    | .session => sessionMembers store
    | .trace => traceMembers store
    | .lane => laneMembers store
  activityRows scope members.dedup (turnCounts store.agentTurn) (usageCounts store.agentUsage)

def selectedTraces (traces : List String) : Multiset (Nat × String) := store.dictTrace.filter fun d => d.2 ∈ traces

def scopedMembers (traces : List String) : Multiset Member :=
  (Query.leftJoin (fun (d : Nat × String) (s : Nat × Nat) => s.2 = d.1) (selectedTraces store traces)
    store.agentTraceSpan).map fun p => (p.2.map Prod.fst, p.1.2)

def memberSessions (members : Multiset Member) : Multiset Nat := members.filterMap Prod.fst

def scopedTraceActivitySql (traces : List String) : List ActivityCount :=
  let members := scopedMembers store traces
  let sessions := memberSessions members
  activityRows .trace members (turnCounts (store.agentTurn.filter fun t => t.sessionId ∈ sessions))
    (usageCounts (store.agentUsage.filter fun u => u.sessionId ∈ sessions))

def activityCountsForTraces (traces : List String) : List ActivityCount :=
  if traces = [] then [] else scopedTraceActivitySql store traces

end

/-! ## Selections before and after the counts -/

theorem turnCounts_filter (turns : Multiset ActivityTurn) (sessions : Multiset Nat) :
    turnCounts (turns.filter fun t => t.sessionId ∈ sessions) =
      (turnCounts turns).filter fun c => c.sessionId ∈ sessions := by
  rw [turnCounts, Query.groups_filter (fun k => k ∈ sessions), turnCounts, Multiset.filter_map, ← Multiset.filter_coe]
  rfl

theorem usageCounts_filter (usages : Multiset ActivityUsage) (sessions : Multiset Nat) :
    usageCounts (usages.filter fun u => u.sessionId ∈ sessions) =
      (usageCounts usages).filter fun c => c.sessionId ∈ sessions := by
  rw [usageCounts, Query.groups_filter (fun k => k ∈ sessions), usageCounts, Multiset.filter_map, ← Multiset.filter_coe]
  rfl

section
variable {scope : ActivityScope} {members : Multiset Member} {turns : Multiset TurnCounts}
  {usages : Multiset UsageCounts}

theorem memberRows_filter (p : String → Prop) [DecidablePred p] :
    memberRows (members.filter fun m => p m.2) turns usages =
      (memberRows members turns usages).filter fun r => p r.1.1.2 := by
  rw [memberRows, Query.leftJoin_filter (fun m : Member => p m.2),
    Query.leftJoin_filter (fun r : Member × Option TurnCounts => p r.1.2)]
  rfl

theorem activityRows_filter (p : String → Prop) [DecidablePred p] :
    activityRows scope (members.filter fun m => p m.2) turns usages =
      (activityRows scope members turns usages).filter fun row => decide (p row.identity) := by
  rw [activityRows, memberRows_filter, Query.groups_filter p, activityRows, List.filter_map]
  rfl

/-- The counts of sessions that no member has are not read. -/
theorem memberRows_sessions :
    memberRows members (turns.filter fun c => c.sessionId ∈ memberSessions members)
        (usages.filter fun c => c.sessionId ∈ memberSessions members) =
      memberRows members turns usages := by
  have hmember : ∀ m ∈ members, ∀ s, m.1 = some s → s ∈ memberSessions members := by
    intro m hm s hs
    rw [memberSessions, Multiset.mem_filterMap]
    exact ⟨m, hm, hs⟩
  rw [memberRows, Query.leftJoin_restrict (fun c : TurnCounts => c.sessionId ∈ memberSessions members)
    (fun m hm c hon => hmember m hm _ hon)]
  refine Query.leftJoin_restrict _ fun r hr c hon => ?_
  exact hmember r.1 (Query.mem_leftJoin.1 hr).1 _ hon

end

theorem scopedTraceActivitySql_eq (store : ActivityStore) (traces : List String) :
    scopedTraceActivitySql store traces = activityRows .trace (scopedMembers store traces)
      (turnCounts store.agentTurn) (usageCounts store.agentUsage) := by
  rw [scopedTraceActivitySql, turnCounts_filter, usageCounts_filter, activityRows, memberRows_sessions, activityRows]

/-! ## The two member relations -/

section
variable {store : ActivityStore} {traces : List String}

/-- The sessions of a trace, `none` for a trace without. -/
def spanSessionsOf (store : ActivityStore) (trace : Nat) : Multiset (Option Nat) :=
  (Query.matchesOf (fun t (s : Nat × Nat) => s.2 = t) store.agentTraceSpan trace).map (Option.map Prod.fst)

theorem mem_scopedMembers {m : Member} : m ∈ scopedMembers store traces ↔
    ∃ d ∈ store.dictTrace, d.2 ∈ traces ∧ d.2 = m.2 ∧ m.1 ∈ spanSessionsOf store d.1 := by
  obtain ⟨session, identity⟩ := m
  simp only [scopedMembers, Multiset.mem_map, Query.mem_leftJoin, selectedTraces, Multiset.mem_filter, Prod.exists,
    Prod.mk.injEq]
  constructor
  · rintro ⟨id, value, s, ⟨⟨hd, hin⟩, hs⟩, rfl, rfl⟩
    exact ⟨id, value, hd, hin, rfl, Multiset.mem_map_of_mem _ hs⟩
  · rintro ⟨id, value, hd, hin, rfl, hs⟩
    obtain ⟨s, hspan, rfl⟩ := Multiset.mem_map.1 hs
    exact ⟨id, value, s, ⟨⟨hd, hin⟩, hspan⟩, rfl, rfl⟩

theorem mem_traceMembers {m : Member} : m ∈ traceMembers store ↔
    ∃ d ∈ store.dictTrace, d.1 ∈ knownTraces store ∧ d.2 = m.2 ∧ m.1 ∈ spanSessionsOf store d.1 := by
  obtain ⟨session, identity⟩ := m
  simp only [traceMembers, Multiset.mem_map, Query.mem_leftJoin, Query.mem_join, Prod.exists, Prod.mk.injEq]
  constructor
  · rintro ⟨k, id, value, s, ⟨⟨hk, hd, rfl⟩, hs⟩, rfl, rfl⟩
    exact ⟨id, value, hd, hk, rfl, Multiset.mem_map_of_mem _ hs⟩
  · rintro ⟨id, value, hd, hk, rfl, hs⟩
    obtain ⟨s, hspan, rfl⟩ := Multiset.mem_map.1 hs
    exact ⟨id, id, value, s, ⟨⟨hk, hd, rfl⟩, hspan⟩, rfl, rfl⟩

/-- A session is in one trace and a trace in the dictionary once. -/
theorem scopedMembers_nodup : (scopedMembers store traces).Nodup := by
  refine Multiset.Nodup.map_on ?_ (Query.leftJoin_nodup ((store.traceIds.of_map _).filter _)
    (store.spanSessions.of_map _))
  rintro ⟨d, s⟩ hr ⟨d', s'⟩ hr' heq
  obtain ⟨hs, hvalue⟩ := Prod.mk.inj heq
  have hd := (Multiset.mem_filter.1 (Query.mem_leftJoin.1 hr).1).1
  have hd' := (Multiset.mem_filter.1 (Query.mem_leftJoin.1 hr').1).1
  obtain rfl := Multiset.inj_on_of_nodup_map store.traceValues d hd d' hd' hvalue
  have hspan := (Query.mem_leftJoin.1 hr).2
  have hspan' := (Query.mem_leftJoin.1 hr').2
  cases s with
  | none =>
    cases s' with
    | none => rfl
    | some s' => exact absurd hs (by simp)
  | some s =>
    cases s' with
    | none => exact absurd hs (by simp)
    | some s' =>
      have hsame := Multiset.inj_on_of_nodup_map store.spanSessions s (Query.some_mem_matchesOf.1 hspan).1 s'
        (Query.some_mem_matchesOf.1 hspan').1 (Option.some.inj hs)
      rw [hsame]

/-- The names of the traces that a trace row, a span or a lane has. -/
def recordedNames (store : ActivityStore) : Multiset String :=
  (store.dictTrace.filter fun d => d.1 ∈ knownTraces store).map Prod.snd

theorem mem_recordedNames {d : Nat × String} (hd : d ∈ store.dictTrace) :
    d.2 ∈ recordedNames store ↔ d.1 ∈ knownTraces store := by
  constructor
  · intro h
    obtain ⟨d', hd', hvalue⟩ := Multiset.mem_map.1 h
    obtain ⟨hin, hknown⟩ := Multiset.mem_filter.1 hd'
    rwa [← Multiset.inj_on_of_nodup_map store.traceValues d' hin d hd hvalue]
  · intro h
    exact Multiset.mem_map_of_mem _ (Multiset.mem_filter.2 ⟨hd, h⟩)

theorem scopedMembers_recorded : (scopedMembers store traces).filter (fun m => m.2 ∈ recordedNames store) =
    (traceMembers store).dedup.filter fun m => m.2 ∈ traces := by
  refine (Multiset.Nodup.ext (scopedMembers_nodup.filter _) ((Multiset.nodup_dedup _).filter _)).2 fun m => ?_
  rw [Multiset.mem_filter, Multiset.mem_filter, Multiset.mem_dedup, mem_scopedMembers, mem_traceMembers]
  constructor
  · rintro ⟨⟨d, hd, hin, hvalue, hs⟩, hrecorded⟩
    rw [← hvalue] at hrecorded ⊢
    exact ⟨⟨d, hd, (mem_recordedNames hd).1 hrecorded, rfl, hs⟩, hin⟩
  · rintro ⟨⟨d, hd, hknown, hvalue, hs⟩, hin⟩
    rw [← hvalue] at hin ⊢
    exact ⟨⟨d, hd, hin, rfl, hs⟩, (mem_recordedNames hd).2 hknown⟩

/-- The selected traces that are in the dictionary alone. -/
def unrecordedTraces (store : ActivityStore) (traces : List String) : Multiset String :=
  ((selectedTraces store traces).filter fun d => d.1 ∉ knownTraces store).map Prod.snd

theorem spanSessionsOf_unknown {trace : Nat} (h : trace ∉ knownTraces store) : spanSessionsOf store trace = {none} := by
  have hnone : store.agentTraceSpan.filter (fun s => s.2 = trace) = 0 := by
    refine Multiset.filter_eq_nil.2 fun s hs hsame => h ?_
    rw [knownTraces, Multiset.mem_dedup, Multiset.mem_add, Multiset.mem_add, ← hsame]
    exact Or.inl (Or.inr (Multiset.mem_map_of_mem _ hs))
  rw [spanSessionsOf, Query.matchesOf, hnone, if_pos Multiset.card_zero]
  rfl

theorem unrecordedTraces_nodup : (unrecordedTraces store traces).Nodup :=
  Multiset.nodup_of_le (Multiset.map_le_map ((Multiset.filter_le _ _).trans (Multiset.filter_le _ _)))
    store.traceValues

theorem scopedMembers_unrecorded : (scopedMembers store traces).filter (fun m => m.2 ∉ recordedNames store) =
    (unrecordedTraces store traces).map fun identity => (none, identity) := by
  refine (Multiset.Nodup.ext (scopedMembers_nodup.filter _)
    (unrecordedTraces_nodup.map (Prod.mk_right_injective none))).2 fun m => ?_
  simp only [Multiset.mem_filter, mem_scopedMembers, unrecordedTraces, selectedTraces, Multiset.mem_map]
  constructor
  · rintro ⟨⟨d, hd, hin, hvalue, hs⟩, hnot⟩
    rw [← hvalue, mem_recordedNames hd] at hnot
    rw [spanSessionsOf_unknown hnot, Multiset.mem_singleton] at hs
    exact ⟨d.2, ⟨d, ⟨⟨hd, hin⟩, hnot⟩, rfl⟩, Prod.ext hs.symm hvalue⟩
  · rintro ⟨_, ⟨d, ⟨⟨hd, hin⟩, hnot⟩, rfl⟩, rfl⟩
    refine ⟨⟨d, hd, hin, rfl, ?_⟩, (mem_recordedNames hd).not.2 hnot⟩
    rw [spanSessionsOf_unknown hnot]
    exact Multiset.mem_singleton_self _

end

/-! ## The scoped query against the full one -/

/-- The row of a trace without sessions. -/
def emptyActivity (identity : String) : ActivityCount where
  scope := .trace
  identity
  user := 0
  assistant := 0
  toolCall := 0
  total := 0
  calls := 0
  inputTokens := 0
  outputTokens := 0
  cacheCreate5mTokens := 0
  cacheCreate1hTokens := 0
  cacheReadTokens := 0
  firstActivityTs := none
  lastActivityTs := none

theorem activityRows_empty {identities : Multiset String} (h : identities.Nodup) (turns : Multiset TurnCounts)
    (usages : Multiset UsageCounts) :
    (activityRows .trace (identities.map fun identity => (none, identity)) turns usages : Multiset ActivityCount) =
      identities.map emptyActivity := by
  have hrows : memberRows (identities.map fun identity => (none, identity)) turns usages =
      identities.map fun identity => (((none, identity), none), none) := by
    simp [memberRows, Query.leftJoin, Query.matchesOf, Multiset.bind_map]
  have hkeys : ((identities.map fun identity => (((none, identity), none), none) : Multiset MemberRow).map
      fun r => r.1.1.2).Nodup := by
    rw [Multiset.map_map]
    exact (Multiset.map_id identities).symm ▸ h
  rw [activityRows, hrows, ← Multiset.map_coe, Query.groups_of_nodup hkeys, Multiset.map_map, Multiset.map_map]
  rfl

/-- **The scoped query against the full one**: its rows are those of the full query for the selected traces,
    and a row without counts for every selected trace that only the dictionary has. -/
theorem scoped_rows (store : ActivityStore) (traces : List String) :
    (activityCountsForTraces store traces : Multiset ActivityCount) =
      ((activitySql store .trace).filter (fun row => row.identity ∈ traces) : List ActivityCount) +
        (unrecordedTraces store traces).map emptyActivity := by
  have hscoped : activityCountsForTraces store traces = scopedTraceActivitySql store traces := by
    unfold activityCountsForTraces
    by_cases hnil : traces = []
    · subst hnil
      simp [scopedTraceActivitySql, scopedMembers, selectedTraces, activityRows, memberRows, Query.leftJoin,
        Query.groups]
    · rw [if_neg hnil]
  have hfull : (activitySql store .trace).filter (fun row => decide (row.identity ∈ traces)) =
      activityRows .trace ((traceMembers store).dedup.filter fun m => m.2 ∈ traces) (turnCounts store.agentTurn)
        (usageCounts store.agentUsage) := (activityRows_filter (fun identity => identity ∈ traces)).symm
  rw [hscoped, scopedTraceActivitySql_eq, hfull, ← scopedMembers_recorded,
    ← activityRows_empty unrecordedTraces_nodup (turnCounts store.agentTurn) (usageCounts store.agentUsage),
    ← scopedMembers_unrecorded, activityRows_filter (fun identity => identity ∈ recordedNames store),
    activityRows_filter (fun identity => identity ∉ recordedNames store), ← Multiset.filter_coe,
    ← Multiset.filter_coe, Multiset.filter_add_not]

/-- A trace that an event was recorded under, and nothing else. -/
def eventTraceStore : ActivityStore where
  dictSession := 0
  dictTrace := {(1, "trace-event")}
  agentSession := 0
  agentTrace := 0
  agentTraceSpan := 0
  agentLane := 0
  agentTurn := 0
  agentUsage := 0
  traceIds := Multiset.nodup_singleton _
  traceValues := Multiset.nodup_singleton _
  spanSessions := Multiset.nodup_zero

theorem eventTrace_row : ¬ ∀ (store : ActivityStore) (traces : List String),
    (activityCountsForTraces store traces : Multiset ActivityCount) =
      ((activitySql store .trace).filter (fun row => row.identity ∈ traces) : List ActivityCount) := by
  intro h
  exact absurd (h eventTraceStore ["trace-event"]) (by decide +kernel)

end BoopStore
