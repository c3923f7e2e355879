import HafleyRs.Lib.BTree
import HafleyRs.Lib.Words

/-!
# Traces of sessions (`crates/boop-store/src/0_trace_identity.rs`)

| here | there |
| --- | --- |
| `U64` | `u64`, of which `derive_traces` uses the order and `u64::MAX` |
| `SessionObservation`, `SessionRelation`, `SessionRelationKind` | 4, 18, 29 |
| `TraceJoinLimits`, `DerivedTrace`, `TraceJoinDiagnostic` | 63, 80, 87 |
| `deriveTraces` | `derive_traces` (130), by `endpoints`, `adjacency`, `earliest`, `grow`, `collect`, `rootSession` |

The two `while` loops have fuel; `none` is a loop that would go on.
-/

namespace BoopStore

abbrev U64 := Fin (2 ^ 64)

/-- `u64::MAX` -/
def U64.max : U64 := Fin.last _

structure SessionObservation where
  observationKey : String
  sessionId      : String
  observedAtMs   : U64
  harness        : Option String
  cwd            : Option String
  pid            : Option Nat
  parentPid      : Option Nat
  paneId         : Option String
  tuiSessionId   : Option String
  source         : String
deriving DecidableEq, Repr

inductive SessionRelationKind where
  | continuedIn | sameProcess | parentChild | samePane | sameTui
deriving DecidableEq, Repr

def SessionRelationKind.rank : SessionRelationKind → Nat
  | continuedIn => 0
  | sameProcess => 1
  | parentChild => 2
  | samePane => 3
  | sameTui => 4

instance : LinearOrder SessionRelationKind := LinearOrder.lift' SessionRelationKind.rank fun a b h => by
  cases a <;> cases b <;> simp_all [SessionRelationKind.rank]

structure SessionRelation where
  relationKey        : String
  fromSession        : String
  toSession          : String
  kind               : SessionRelationKind
  source             : String
  observedAtMs       : U64
  matchedIdentityKey : Option String
deriving DecidableEq, Repr

structure TraceJoinLimits where
  maxObservations : Nat
  maxRelations    : Nat
  maxSessions     : Nat
deriving DecidableEq, Repr

/-- `TraceJoinLimits::default()` -/
def TraceJoinLimits.default : TraceJoinLimits := ⟨10000, 10000, 10000⟩

structure DerivedTrace where
  sessions    : List String
  rootSession : String
  evidence    : List SessionRelation
deriving DecidableEq, Repr

inductive TraceJoinDiagnostic where
  | observationBudgetExceeded (limit observed : Nat)
  | relationBudgetExceeded (limit observed : Nat)
  | sessionBudgetExceeded (limit observed : Nat)
  | ambiguousRelation (session : String) (kind : SessionRelationKind)
deriving DecidableEq, Repr

/-! ## The maps -/

/-- All sessions that are named. -/
def mentioned (observations : List SessionObservation) (relations : List SessionRelation) : BTreeSet String :=
  relations.foldl (fun s r => (s.insert r.fromSession).insert r.toSession)
    (observations.foldl (fun s o => s.insert o.sessionId) ∅)

abbrev Endpoints := BTreeMap (String ×ₗ SessionRelationKind) (BTreeSet String)

/-- `incoming` and `outgoing`, by which end a relation is filed under. -/
def endpoints (near far : SessionRelation → String) (relations : List SessionRelation) : Endpoints :=
  BTreeMap.group (fun r => toLex (near r, r.kind)) ∅ (fun s r => s.insert (far r)) ∅ relations

def incoming (relations : List SessionRelation) : Endpoints := endpoints (·.toSession) (·.fromSession) relations
def outgoing (relations : List SessionRelation) : Endpoints := endpoints (·.fromSession) (·.toSession) relations

/-- The first session with more than one `continued-in` endpoint on one side. -/
def ambiguous (relations : List SessionRelation) : Option (String × SessionRelationKind) :=
  (((incoming relations).toList ++ (outgoing relations).toList).find? fun e =>
    (ofLex e.1).2 = .continuedIn && decide (1 < e.2.size)).map fun e => ofLex e.1

/-- Each relation with its index, once from either end. -/
def ends (relations : List SessionRelation) : List (String × String × Nat) :=
  relations.zipIdx.flatMap fun (r, i) => [(r.fromSession, r.toSession, i), (r.toSession, r.fromSession, i)]

abbrev Adjacency := BTreeMap String (List (String × Nat))

def adjacency (relations : List SessionRelation) : Adjacency :=
  BTreeMap.group (·.1) [] (fun l e => l ++ [e.2]) ∅ (ends relations)

def earliest (observations : List SessionObservation) : BTreeMap String U64 :=
  observations.foldl (fun m o => m.alter o.sessionId fun seen =>
    some (seen.elim o.observedAtMs fun seen => min seen o.observedAtMs)) ∅

/-! ## The walk -/

/-- One component's walk: the queue, the sessions and the edges met. -/
structure Walk where
  queue           : List String
  component       : BTreeSet String
  evidenceIndexes : BTreeSet Nat

/-- `for (neighbor, edge_index) in neighbors` -/
def Walk.visit (w : Walk) (neighbors : List (String × Nat)) : Walk :=
  neighbors.foldl (fun w n =>
    { w with
      evidenceIndexes := w.evidenceIndexes.insert n.2
      queue := if n.1 ∈ w.component then w.queue else w.queue ++ [n.1] }) w

/-- `while let Some(session) = queue.pop_front()` -/
def grow (adjacency : Adjacency) (limits : TraceJoinLimits) : Nat → Walk → Option (Except TraceJoinDiagnostic Walk)
  | 0, _ => none
  | fuel + 1, w =>
    match w.queue with
    | [] => some (.ok w)
    | session :: queue =>
      if session ∈ w.component then grow adjacency limits fuel { w with queue }
      else
        let w := { w with queue, component := w.component.insert session }
        if w.component.size > limits.maxSessions then
          some (.error (.sessionBudgetExceeded limits.maxSessions w.component.size))
        else grow adjacency limits fuel (w.visit (adjacency[session]?.getD []))

def rootSession (earliest : BTreeMap String U64) (component : BTreeSet String) : String :=
  (component.toList.argmin fun session => toLex (earliest[session]?.getD U64.max, session)).getD ""

/-- `while let Some(seed) = unseen.pop_first()` -/
def collect (observations : List SessionObservation) (relations : List SessionRelation) (limits : TraceJoinLimits) :
    Nat → BTreeSet String → List DerivedTrace → Option (Except TraceJoinDiagnostic (List DerivedTrace))
  | 0, _, _ => none
  | fuel + 1, unseen, traces =>
    match unseen.toList with
    | [] => some (.ok traces)
    | seed :: _ =>
      match grow (adjacency relations) limits (2 * relations.length + 2) ⟨[seed], ∅, ∅⟩ with
      | none => none
      | some (.error e) => some (.error e)
      | some (.ok w) =>
        let unseen := w.component.toList.foldl (fun unseen session => unseen.erase session) (unseen.erase seed)
        collect observations relations limits fuel unseen (traces ++ [
          { sessions := w.component.toList
            rootSession := rootSession (earliest observations) w.component
            evidence := w.evidenceIndexes.toList.filterMap fun index => relations[index]? }])

def deriveTraces (observations : List SessionObservation) (relations : List SessionRelation)
    (limits : TraceJoinLimits) : Option (Except TraceJoinDiagnostic (List DerivedTrace)) :=
  if observations.length > limits.maxObservations then
    some (.error (.observationBudgetExceeded limits.maxObservations observations.length))
  else if relations.length > limits.maxRelations then
    some (.error (.relationBudgetExceeded limits.maxRelations relations.length))
  else
    let sessions := mentioned observations relations
    if sessions.size > limits.maxSessions then
      some (.error (.sessionBudgetExceeded limits.maxSessions sessions.size))
    else
      match ambiguous relations with
      | some (session, kind) => some (.error (.ambiguousRelation session kind))
      | none =>
        (collect observations relations limits (sessions.size + 1) sessions []).map fun r => r.map fun traces =>
          traces.insertionSort fun left right => left.rootSession ≤ right.rootSession

end BoopStore

/-!
# The walk of one component (`crates/boop-store/src/0_trace_identity.rs`)

`Connected` is the relation the traces are the classes of. The walk from a seed is a search with a queue; `Walk.Inv`
is its invariant, and the adjacency entries of the sessions not yet taken pay for the turns (`grow_spec`).
-/

namespace BoopStore

/-! ## Sessions that belong together -/

def Linked (relations : List SessionRelation) (a b : String) : Prop :=
  ∃ r ∈ relations, r.fromSession = a ∧ r.toSession = b ∨ r.toSession = a ∧ r.fromSession = b

abbrev Connected (relations : List SessionRelation) : String → String → Prop :=
  Relation.ReflTransGen (Linked relations)

theorem Linked.symm {relations : List SessionRelation} {a b : String} (h : Linked relations a b) :
    Linked relations b a := by
  obtain ⟨r, hr, h | h⟩ := h
  · exact ⟨r, hr, .inr ⟨h.2, h.1⟩⟩
  · exact ⟨r, hr, .inl ⟨h.2, h.1⟩⟩

theorem Connected.symm {relations : List SessionRelation} {a b : String} (h : Connected relations a b) :
    Connected relations b a := by
  induction h with
  | refl => exact .refl
  | tail _ hlink ih => exact ih.head hlink.symm

/-- The relation itself links its two sessions. -/
theorem linked_of_mem {relations : List SessionRelation} {r : SessionRelation} (hr : r ∈ relations) :
    Linked relations r.fromSession r.toSession := ⟨r, hr, .inl ⟨rfl, rfl⟩⟩

theorem mem_mentioned {observations : List SessionObservation} {relations : List SessionRelation} {a : String} :
    a ∈ mentioned observations relations ↔
      (∃ o ∈ observations, o.sessionId = a) ∨ ∃ r ∈ relations, r.fromSession = a ∨ r.toSession = a := by
  have hrelations : ∀ s : BTreeSet String,
      a ∈ relations.foldl (fun s r => (s.insert r.fromSession).insert r.toSession) s ↔
        a ∈ s ∨ ∃ r ∈ relations, r.fromSession = a ∨ r.toSession = a := by
    induction relations with
    | nil => simp
    | cons r relations ih =>
      intro s
      rw [List.foldl_cons, ih, BTreeSet.mem_insert, BTreeSet.mem_insert]
      simp only [List.mem_cons, exists_eq_or_imp]
      grind
  rw [mentioned, hrelations, BTreeSet.mem_foldl_insert]
  simp

theorem Connected.mentioned {observations : List SessionObservation} {relations : List SessionRelation} {a b : String}
    (h : Connected relations a b) (ha : a ∈ mentioned observations relations) :
    b ∈ BoopStore.mentioned observations relations := by
  induction h with
  | refl => exact ha
  | tail _ hlink _ =>
    obtain ⟨r, hr, h | h⟩ := hlink
    · exact mem_mentioned.2 (.inr ⟨r, hr, .inr h.2⟩)
    · exact mem_mentioned.2 (.inr ⟨r, hr, .inl h.2⟩)

/-! ## Adjacency -/

theorem mem_ends {relations : List SessionRelation} {a b : String} {i : Nat} : (a, b, i) ∈ ends relations ↔
    ∃ r, relations[i]? = some r ∧ (r.fromSession = a ∧ r.toSession = b ∨ r.toSession = a ∧ r.fromSession = b) := by
  simp only [ends, List.mem_flatMap, Prod.exists, List.mem_zipIdx_iff_getElem?, List.mem_cons, List.not_mem_nil,
    or_false, Prod.mk.injEq]
  constructor
  · rintro ⟨r, j, hj, ⟨rfl, rfl, rfl⟩ | ⟨rfl, rfl, rfl⟩⟩
    · exact ⟨r, hj, .inl ⟨rfl, rfl⟩⟩
    · exact ⟨r, hj, .inr ⟨rfl, rfl⟩⟩
  · rintro ⟨r, hr, ⟨rfl, rfl⟩ | ⟨rfl, rfl⟩⟩
    · exact ⟨r, i, hr, .inl ⟨rfl, rfl, rfl⟩⟩
    · exact ⟨r, i, hr, .inr ⟨rfl, rfl, rfl⟩⟩

theorem length_ends (relations : List SessionRelation) : (ends relations).length = 2 * relations.length := by
  rw [ends, List.length_flatMap]
  simp [Nat.mul_comm]

theorem foldl_append_singleton {A B : Type} (f : A → B) (as : List A) (bs : List B) :
    as.foldl (fun l e => l ++ [f e]) bs = bs ++ as.map f := by
  induction as generalizing bs with
  | nil => simp
  | cons a as ih => simp [ih]

/-- The entries under one session. -/
theorem adjacency_eq (relations : List SessionRelation) (a : String) :
    (adjacency relations)[a]?.getD [] = ((ends relations).filter fun e => e.1 = a).map (·.2) := by
  rw [adjacency, BTreeMap.getElem?_group]
  by_cases h : (ends relations).filter (fun e => e.1 = a) = []
  · simp [h]
  · rw [if_neg h, Option.getD_some, foldl_append_singleton, List.nil_append]

theorem mem_adjacency {relations : List SessionRelation} {a b : String} {i : Nat} :
    (b, i) ∈ (adjacency relations)[a]?.getD [] ↔
      ∃ r, relations[i]? = some r ∧ (r.fromSession = a ∧ r.toSession = b ∨ r.toSession = a ∧ r.fromSession = b) := by
  rw [adjacency_eq, ← mem_ends]
  simp

theorem linked_iff {relations : List SessionRelation} {a b : String} :
    Linked relations a b ↔ ∃ i, (b, i) ∈ (adjacency relations)[a]?.getD [] := by
  constructor
  · rintro ⟨r, hr, h⟩
    obtain ⟨i, hi⟩ := List.mem_iff_getElem?.1 hr
    exact ⟨i, mem_adjacency.2 ⟨r, hi, h⟩⟩
  · rintro ⟨i, hi⟩
    obtain ⟨r, hr, h⟩ := mem_adjacency.1 hi
    exact ⟨r, List.mem_of_getElem? hr, h⟩

/-! ## One turn -/

theorem Walk.visit_eq (w : Walk) (neighbors : List (String × Nat)) :
    (w.visit neighbors).component = w.component ∧
      (w.visit neighbors).queue = w.queue ++ (neighbors.filter fun n => n.1 ∉ w.component).map (·.1) ∧
      ∀ i, i ∈ (w.visit neighbors).evidenceIndexes ↔ i ∈ w.evidenceIndexes ∨ ∃ n ∈ neighbors, n.2 = i := by
  induction neighbors generalizing w with
  | nil => simp [Walk.visit]
  | cons n neighbors ih =>
    obtain ⟨hcomponent, hqueue, hevidence⟩ := ih { w with
      evidenceIndexes := w.evidenceIndexes.insert n.2
      queue := if n.1 ∈ w.component then w.queue else w.queue ++ [n.1] }
    refine ⟨hcomponent, hqueue.trans ?_, fun i => (hevidence i).trans ?_⟩
    · by_cases hn : n.1 ∈ w.component
      · simp [hn]
      · simp [hn]
    · rw [BTreeSet.mem_insert]
      simp only [List.mem_cons, exists_eq_or_imp]
      tauto

/-- What is met is connected to the seed, and what is taken has its neighbours met. -/
structure Walk.Inv (relations : List SessionRelation) (seed : String) (w : Walk) : Prop where
  seed_met : seed ∈ w.component ∨ seed ∈ w.queue
  sound    : ∀ a, a ∈ w.component ∨ a ∈ w.queue → Connected relations seed a
  closed   : ∀ a ∈ w.component, ∀ b, Linked relations a b → b ∈ w.component ∨ b ∈ w.queue
  evidence : ∀ i, i ∈ w.evidenceIndexes ↔
    ∃ r, relations[i]? = some r ∧ (r.fromSession ∈ w.component ∨ r.toSession ∈ w.component)

theorem Walk.Inv.skip {relations : List SessionRelation} {seed session : String} {queue : List String} {w : Walk}
    (h : w.Inv relations seed) (hqueue : w.queue = session :: queue) (hin : session ∈ w.component) :
    Walk.Inv relations seed { w with queue } := by
  refine ⟨?_, fun a ha => h.sound a ?_, fun a ha b hb => ?_, h.evidence⟩
  · rcases h.seed_met with hs | hs
    · exact .inl hs
    · rw [hqueue] at hs
      rcases List.mem_cons.1 hs with rfl | hs
      · exact .inl hin
      · exact .inr hs
  · rw [hqueue, List.mem_cons]
    tauto
  · have hmet := h.closed a ha b hb
    rw [hqueue, List.mem_cons] at hmet
    rcases hmet with hb | rfl | hb
    · exact .inl hb
    · exact .inl hin
    · exact .inr hb

theorem Walk.Inv.take {relations : List SessionRelation} {seed session : String} {queue : List String} {w : Walk}
    (h : w.Inv relations seed) (hqueue : w.queue = session :: queue) :
    (Walk.visit { w with queue, component := w.component.insert session }
      ((adjacency relations)[session]?.getD [])).Inv relations seed := by
  obtain ⟨hcomponent, hq, hevidence⟩ := Walk.visit_eq { w with queue, component := w.component.insert session }
    ((adjacency relations)[session]?.getD [])
  have hsession : Connected relations seed session := h.sound session (.inr (by simp [hqueue]))
  have hmet : ∀ a, a ∈ w.component ∨ a ∈ w.queue → a ∈ w.component.insert session ∨ a ∈ queue := by
    intro a ha
    rw [hqueue, List.mem_cons] at ha
    rw [BTreeSet.mem_insert]
    tauto
  have hkeep : ∀ a, a ∈ w.component.insert session ∨ a ∈ queue →
      a ∈ w.component.insert session ∨ a ∈ queue ++ (((adjacency relations)[session]?.getD []).filter fun n =>
        n.1 ∉ w.component.insert session).map (·.1) := by
    intro a ha
    rw [List.mem_append]
    tauto
  refine ⟨?_, fun a ha => ?_, fun a ha b hb => ?_, fun i => (hevidence i).trans ?_⟩
  · rw [hcomponent, hq]
    exact hkeep _ (hmet _ h.seed_met)
  · rw [hcomponent, hq, List.mem_append, BTreeSet.mem_insert] at ha
    rcases ha with (rfl | ha) | ha | ha
    · exact hsession
    · exact h.sound a (.inl ha)
    · exact h.sound a (.inr (by simp [hqueue, ha]))
    · obtain ⟨n, hn, rfl⟩ := List.mem_map.1 ha
      exact hsession.tail (linked_iff.2 ⟨n.2, (List.mem_filter.1 hn).1⟩)
  · rw [hcomponent] at ha ⊢
    rw [hq]
    rcases BTreeSet.mem_insert.1 ha with rfl | ha
    · obtain ⟨i, hi⟩ := linked_iff.1 hb
      by_cases hin : b ∈ w.component.insert session
      · exact .inl hin
      · refine .inr (List.mem_append_right _ (List.mem_map.2 ⟨(b, i), List.mem_filter.2 ⟨hi, ?_⟩, rfl⟩))
        simpa using hin
    · exact hkeep b (hmet b (h.closed a ha b hb))
  · rw [hcomponent]
    simp only [BTreeSet.mem_insert, h.evidence, Prod.exists, exists_eq_right, mem_adjacency]
    constructor
    · rintro (⟨r, hr, hin⟩ | ⟨b, r, hr, hb⟩)
      · exact ⟨r, hr, by tauto⟩
      · exact ⟨r, hr, by tauto⟩
    · rintro ⟨r, hr, (hin | hin) | hin | hin⟩
      · exact .inr ⟨_, r, hr, .inl ⟨hin.symm, rfl⟩⟩
      · exact .inl ⟨r, hr, .inl hin⟩
      · exact .inr ⟨_, r, hr, .inr ⟨hin.symm, rfl⟩⟩
      · exact .inl ⟨r, hr, .inr hin⟩

/-! ## The whole walk -/

/-- What is left to pay: the queue, and the entries of sessions that are not taken. -/
def Walk.left (relations : List SessionRelation) (w : Walk) : Nat :=
  w.queue.length + (ends relations).countP fun e => e.1 ∉ w.component

theorem Walk.left_take {relations : List SessionRelation} {session : String} {queue : List String} {w : Walk}
    (hqueue : w.queue = session :: queue) (hnew : session ∉ w.component) :
    (Walk.visit { w with queue, component := w.component.insert session }
      ((adjacency relations)[session]?.getD [])).left relations < w.left relations := by
  obtain ⟨hcomponent, hq, -⟩ := Walk.visit_eq { w with queue, component := w.component.insert session }
    ((adjacency relations)[session]?.getD [])
  have hpushed : (((adjacency relations)[session]?.getD []).filter fun n =>
      n.1 ∉ w.component.insert session).length ≤ (ends relations).countP fun e => e.1 = session := by
    refine (List.length_filter_le _ _).trans ?_
    rw [adjacency_eq, List.length_map, List.countP_eq_length_filter]
  have hpaid : ∀ es : List (String × String × Nat), (es.countP fun e => e.1 ∉ w.component.insert session) +
      (es.countP fun e => e.1 = session) = es.countP fun e => e.1 ∉ w.component := by
    intro es
    induction es with
    | nil => rfl
    | cons e es ih =>
      have hiff : e.1 ∉ w.component.insert session ↔ e.1 ≠ session ∧ e.1 ∉ w.component := by
        rw [BTreeSet.mem_insert, not_or, eq_comm]
      simp only [List.countP_cons, decide_eq_true_eq, hiff]
      by_cases he : e.1 = session
      · have hin : e.1 ∉ w.component := he ▸ hnew
        rw [if_neg (by simp [he]), if_pos he, if_pos hin]
        omega
      · by_cases hin : e.1 ∈ w.component
        · rw [if_neg (by simp [hin]), if_neg he, if_neg (by simp [hin])]
          omega
        · rw [if_pos ⟨he, hin⟩, if_neg he, if_pos hin]
          omega
  have hsum := hpaid (ends relations)
  rw [Walk.left, Walk.left, hcomponent, hq, hqueue, List.length_append, List.length_map, List.length_cons]
  dsimp only
  omega

theorem grow_spec {relations : List SessionRelation} {limits : TraceJoinLimits} {seed : String}
    {sessions : BTreeSet String} (hsessions : ∀ a, Connected relations seed a → a ∈ sessions)
    (hlimit : sessions.size ≤ limits.maxSessions) : ∀ {fuel : Nat} {w : Walk}, w.Inv relations seed →
      w.left relations < fuel →
        ∃ w' : Walk, grow (adjacency relations) limits fuel w = some (.ok w') ∧ w'.Inv relations seed ∧ w'.queue = []
  | 0, w, _, hfuel => absurd hfuel (by omega)
  | fuel + 1, w, h, hfuel => by
    rw [grow]
    cases hqueue : w.queue with
    | nil => exact ⟨w, rfl, h, hqueue⟩
    | cons session queue =>
      simp only
      by_cases hin : session ∈ w.component
      · rw [if_pos hin]
        refine grow_spec hsessions hlimit (h.skip hqueue hin) ?_
        simp only [Walk.left, hqueue, List.length_cons] at hfuel ⊢
        omega
      · have htake := h.take hqueue
        have hsmall : (w.component.insert session).size ≤ limits.maxSessions := by
          refine (BTreeSet.size_le_of_subset fun a ha => hsessions a ?_).trans hlimit
          rcases BTreeSet.mem_insert.1 ha with rfl | ha
          · exact h.sound _ (.inr (by simp [hqueue]))
          · exact h.sound _ (.inl ha)
        rw [if_neg hin, if_neg (not_lt.2 hsmall)]
        refine grow_spec hsessions hlimit htake ?_
        have hleft := @Walk.left_take relations _ _ _ hqueue hin
        omega

/-- **The walk from a seed** takes its component, and meets the relations whose sessions are in it. -/
theorem grow_component {relations : List SessionRelation} {limits : TraceJoinLimits} {seed : String}
    {sessions : BTreeSet String} (hsessions : ∀ a, Connected relations seed a → a ∈ sessions)
    (hlimit : sessions.size ≤ limits.maxSessions) :
    ∃ w : Walk, grow (adjacency relations) limits (2 * relations.length + 2) ⟨[seed], ∅, ∅⟩ = some (.ok w) ∧
      (∀ a, a ∈ w.component ↔ Connected relations seed a) ∧
      ∀ i, i ∈ w.evidenceIndexes ↔ ∃ r, relations[i]? = some r ∧ r.fromSession ∈ w.component := by
  have hstart : Walk.Inv relations seed ⟨[seed], ∅, ∅⟩ := by
    refine ⟨by simp, fun a ha => ?_, by simp, by simp⟩
    obtain rfl : a = seed := by simpa using ha
    exact .refl
  obtain ⟨w, hw, hinv, hqueue⟩ := grow_spec hsessions hlimit hstart
    (show Walk.left relations ⟨[seed], ∅, ∅⟩ < 2 * relations.length + 2 by
      have hle : (ends relations).countP (fun e => e.1 ∉ (∅ : BTreeSet String)) ≤ _ := List.countP_le_length
      rw [length_ends] at hle
      simp only [Walk.left, List.length_singleton]
      omega)
  have hcomponent : ∀ a, a ∈ w.component ↔ Connected relations seed a := by
    refine fun a => ⟨fun ha => hinv.sound a (.inl ha), fun ha => ?_⟩
    induction ha with
    | refl => simpa [hqueue] using hinv.seed_met
    | tail _ hlink ih => simpa [hqueue] using hinv.closed _ ih _ hlink
  refine ⟨w, hw, hcomponent, fun i => (hinv.evidence i).trans ⟨?_, ?_⟩⟩
  · rintro ⟨r, hr, h | h⟩
    · exact ⟨r, hr, h⟩
    · have hlink := (linked_of_mem (List.mem_of_getElem? hr)).symm
      exact ⟨r, hr, (hcomponent _).2 (((hcomponent _).1 h).tail hlink)⟩
  · rintro ⟨r, hr, h⟩
    exact ⟨r, hr, .inl h⟩

end BoopStore
