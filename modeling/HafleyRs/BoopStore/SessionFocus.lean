import HafleyRs.BoopStore.SessionGraph

/-!
# What a focused session graph holds

`Closed` lists the links of a family: a shell's lane with its parent's, a lane with its session, the two
ends of a spawned edge. Without a history boundary `focus_graph` keeps the rows of the least closed sets
that have the target's own lanes and sessions, in whatever order the rows come (`focusGraph_least`).

A boundary then drops sessions one by one, each by its own timestamps. Roots stay, but an old session
between a root and a recent one goes, and the recent one is left alone (`boundary_disconnects`). The
sessions that stay are each joined to a root iff no group of them is `Fenced` off by ones that go
(`focusGraph_connected_iff`).
-/

namespace BoopStore
open AgentSessionGraph Saturation

namespace AgentSessionGraph
variable {graph : AgentSessionGraph} {tmux : String}

structure Closed (graph : AgentSessionGraph) (tmux : String) (lanes : Set String)
    (sessions : Set AgentSessionIdentity) : Prop where
  shellSeed   : ∀ shell ∈ graph.shells, shell.shows tmux → shell.lane ∈ lanes
  sessionSeed : ∀ node ∈ graph.sessions, node.shows tmux → node.session ∈ sessions
  lineage     : ∀ shell ∈ graph.shells, ∀ parent, shell.parentLane = some parent →
    (shell.lane ∈ lanes ↔ parent ∈ lanes)
  session     : ∀ shell ∈ graph.shells, ∀ session, shell.session = some session →
    shell.lane ∈ lanes → session ∈ sessions
  spawned     : ∀ edge ∈ graph.edges, edge.kind = "spawned" → (edge.parent ∈ sessions ↔ edge.child ∈ sessions)

/-- Two sets as one. -/
def union (lanes : Set String) (sessions : Set AgentSessionIdentity) : Set Node :=
  { n | Sum.elim (· ∈ lanes) (· ∈ sessions) n }

@[simp] theorem inl_mem_union {lanes : Set String} {sessions : Set AgentSessionIdentity} {lane : String} :
    (.inl lane : Node) ∈ union lanes sessions ↔ lane ∈ lanes := Iff.rfl

@[simp] theorem inr_mem_union {lanes : Set String} {sessions : Set AgentSessionIdentity}
    {session : AgentSessionIdentity} : (.inr session : Node) ∈ union lanes sessions ↔ session ∈ sessions :=
  Iff.rfl

/-! ## The least closed sets -/

theorem forall_mem_rules {p : Node × Node → Prop} : (∀ r ∈ graph.rules, p r) ↔
    (∀ shell ∈ graph.shells, ∀ parent, shell.parentLane = some parent →
      p (.inl shell.lane, .inl parent) ∧ p (.inl parent, .inl shell.lane)) ∧
    (∀ edge ∈ graph.edges, edge.kind = "spawned" →
      p (.inr edge.child, .inr edge.parent) ∧ p (.inr edge.parent, .inr edge.child)) ∧
    ∀ shell ∈ graph.shells, ∀ session, shell.session = some session →
      p (.inl shell.lane, .inr session) := by
  have hlineage : ∀ shell : AgentShellNode, (∀ r ∈ lineageRules shell, p r) ↔ ∀ parent,
      shell.parentLane = some parent → p (.inl shell.lane, .inl parent) ∧ p (.inl parent, .inl shell.lane) := by
    intro shell
    unfold lineageRules
    cases shell.parentLane <;> simp
  have hsession : ∀ shell : AgentShellNode, (∀ r ∈ sessionRules shell, p r) ↔ ∀ session,
      shell.session = some session → p (.inl shell.lane, .inr session) := by
    intro shell
    unfold sessionRules
    cases shell.session <;> simp
  simp only [rules, List.forall_mem_append, List.forall_mem_flatMap, hlineage, hsession, and_assoc,
    AgentSessionGraph.spawned, List.forall_mem_filter, spawnedRules, List.forall_mem_cons,
    decide_eq_true_eq, List.not_mem_nil, false_imp_iff, implies_true, and_true]

/-- The lanes and sessions that show the target themselves. -/
def shown (graph : AgentSessionGraph) (tmux : String) : Finset Node :=
  ((graph.shells.filter fun shell => shell.shows tmux).map AgentShellNode.lane).toFinset.disjSum
    ((graph.sessions.filter fun node => node.shows tmux).map AgentSessionNode.session).toFinset

theorem seeds_nodes (graph : AgentSessionGraph) (tmux : String) : (graph.seeds tmux).nodes =
    (graph.shells.flatMap sessionRules).foldl fire (graph.shown tmux, false) :=
  Kept.nodes_foldl Kept.nodes_sessionTurn _ _

theorem forall_mem_shown {lanes : Set String} {sessions : Set AgentSessionIdentity} :
    (∀ n ∈ graph.shown tmux, n ∈ union lanes sessions) ↔
      (∀ shell ∈ graph.shells, shell.shows tmux → shell.lane ∈ lanes) ∧
        ∀ node ∈ graph.sessions, node.shows tmux → node.session ∈ sessions := by
  simp only [shown, Sum.forall, Finset.inl_mem_disjSum, Finset.inr_mem_disjSum, List.mem_toFinset,
    List.mem_map, List.mem_filter, inl_mem_union, inr_mem_union]
  constructor
  · rintro ⟨hlanes, hsessions⟩
    exact ⟨fun shell hs hshow => hlanes _ ⟨shell, ⟨hs, hshow⟩, rfl⟩,
      fun node hn hshow => hsessions _ ⟨node, ⟨hn, hshow⟩, rfl⟩⟩
  · rintro ⟨hshells, hnodes⟩
    constructor
    · rintro _ ⟨shell, ⟨hs, hshow⟩, rfl⟩
      exact hshells shell hs hshow
    · rintro _ ⟨node, ⟨hn, hshow⟩, rfl⟩
      exact hnodes node hn hshow

theorem mem_of_derives {members : Set Node} {seeds : Finset Node} (hseeds : ∀ n ∈ seeds, n ∈ members)
    (hrules : ∀ r ∈ graph.rules, r.1 ∈ members → r.2 ∈ members) {n : Node}
    (h : Derives graph.rules seeds n) : n ∈ members := by
  induction h with
  | seed hn => exact hseeds _ hn
  | rule hr _ ih => exact hrules _ hr ih

/-- Being closed is having the seeds and keeping the rules. -/
theorem closed_iff {lanes : Set String} {sessions : Set AgentSessionIdentity} :
    Closed graph tmux lanes sessions ↔ (∀ n ∈ (graph.seeds tmux).nodes.1, n ∈ union lanes sessions) ∧
      ∀ r ∈ graph.rules, r.1 ∈ union lanes sessions → r.2 ∈ union lanes sessions := by
  have hrules : (∀ r ∈ graph.rules, r.1 ∈ union lanes sessions → r.2 ∈ union lanes sessions) ↔ _ :=
    forall_mem_rules
  simp only [inl_mem_union, inr_mem_union] at hrules
  constructor
  · intro h
    have hkept := hrules.2 ⟨fun shell hs parent hp =>
        ⟨(h.lineage shell hs parent hp).1, (h.lineage shell hs parent hp).2⟩,
      fun edge he hk => ⟨(h.spawned edge he hk).2, (h.spawned edge he hk).1⟩, h.session⟩
    refine ⟨fun n hn => ?_, hkept⟩
    rw [seeds_nodes] at hn
    have hsub : ∀ r ∈ graph.shells.flatMap sessionRules, r ∈ graph.rules := fun r hr =>
      List.mem_append_right _ hr
    exact mem_of_derives (forall_mem_shown.2 ⟨h.shellSeed, h.sessionSeed⟩) hkept
      (mem_foldl_fire hsub (fun a ha => .seed ha) hn).2
  · rintro ⟨hseeds, hkept⟩
    obtain ⟨hlineage, hspawned, hsession⟩ := hrules.1 hkept
    have hshown : ∀ n ∈ graph.shown tmux, n ∈ union lanes sessions := fun n hn => by
      refine hseeds n ?_
      rw [seeds_nodes]
      exact foldl_fire_subset _ (graph.shown tmux, false) hn
    obtain ⟨hshell, hnode⟩ := forall_mem_shown.1 hshown
    exact ⟨hshell, hnode, fun shell hs parent hp => ⟨(hlineage shell hs parent hp).1,
      (hlineage shell hs parent hp).2⟩, hsession, fun edge he hk => ⟨(hspawned edge he hk).2,
      (hspawned edge he hk).1⟩⟩

/-- What the loop ends with is closed, and in every closed pair. -/
theorem close_least {fuel : Nat} {k : Kept} (h : graph.close fuel (graph.seeds tmux) = some k) :
    IsLeast { p : Set String × Set AgentSessionIdentity | Closed graph tmux p.1 p.2 }
      (k.lanes, k.sessions) := by
  have hclose := graph.close_nodes fuel (graph.seeds tmux)
  rw [h, Option.map_some] at hclose
  have hmem := mem_saturate hclose.symm
  have hk : ∀ n, n ∈ union k.lanes k.sessions ↔ n ∈ k.nodes.1 := by
    intro n
    cases n <;> simp [Kept.nodes]
  constructor
  · refine closed_iff.2 ⟨fun n hn => (hk n).2 ((hmem n).2 (.seed hn)), fun r hr hprem => ?_⟩
    exact (hk _).2 ((hmem _).2 (.rule hr ((hmem _).1 ((hk _).1 hprem))))
  · rintro ⟨lanes, sessions⟩ hclosed
    obtain ⟨hseeds, hrules⟩ := closed_iff.1 hclosed
    have hsub : ∀ n ∈ k.nodes.1, n ∈ union lanes sessions := fun n hn =>
      mem_of_derives hseeds hrules ((hmem n).1 hn)
    exact ⟨fun lane hl => hsub (.inl lane) ((hk _).1 hl), fun session hs => hsub (.inr session) ((hk _).1 hs)⟩

theorem close_ends (graph : AgentSessionGraph) (tmux : String) {fuel : Nat}
    (hfuel : graph.rules.length < fuel) : ∃ k, graph.close fuel (graph.seeds tmux) = some k := by
  have hcard : ((graph.rules.map Prod.snd).toFinset \ (graph.seeds tmux).nodes.1).card < fuel := by
    refine lt_of_le_of_lt (Finset.card_le_card Finset.sdiff_subset) ?_
    refine lt_of_le_of_lt (List.toFinset_card_le _) ?_
    rwa [List.length_map]
  obtain ⟨t, ht⟩ := saturate_ends graph.rules hcard
  rw [← close_nodes, Option.map_eq_some_iff] at ht
  obtain ⟨k, hk, -⟩ := ht
  exact ⟨k, hk⟩

/-- The family of a target: what the loop ends with, however much fuel is left. -/
theorem exists_family (graph : AgentSessionGraph) (tmux : String) :
    ∃ (lanes : Finset String) (sessions : Finset AgentSessionIdentity),
      IsLeast { p : Set String × Set AgentSessionIdentity | Closed graph tmux p.1 p.2 } (lanes, sessions) ∧
      ∀ fuel > graph.rules.length, ∃ changed,
        graph.close fuel (graph.seeds tmux) = some ⟨lanes, sessions, changed⟩ := by
  obtain ⟨k, hk⟩ := graph.close_ends tmux (Nat.lt_succ_self _)
  refine ⟨k.lanes, k.sessions, close_least hk, fun fuel hfuel => ?_⟩
  obtain ⟨k', hk'⟩ := graph.close_ends tmux hfuel
  have hsame := (close_least hk').unique (close_least hk)
  refine ⟨k'.changed, hk'.trans ?_⟩
  rw [← Finset.coe_injective (congrArg Prod.fst hsame), ← Finset.coe_injective (congrArg Prod.snd hsame)]

/-- From some fuel on, `focus_graph` returns `out`. -/
def FocusesTo (graph : AgentSessionGraph) (query : AgentSessionGraphQuery) (out : AgentSessionGraph) : Prop :=
  ∃ n, ∀ fuel > n, focusGraph fuel graph query = some out

theorem close_mono {fuel more : Nat} {k k' : Kept} (h : graph.close fuel k = some k') (hle : fuel ≤ more) :
    graph.close more k = some k' := by
  induction fuel generalizing k more with
  | zero => cases h
  | succ fuel ih =>
    obtain ⟨more, rfl⟩ : ∃ m, more = m + 1 := ⟨more - 1, by omega⟩
    rw [close] at h ⊢
    split at h
    · rename_i hchanged
      rw [if_pos hchanged]
      exact ih h (by omega)
    · rename_i hchanged
      rwa [if_neg hchanged]

theorem focusesTo_of_eq {query : AgentSessionGraphQuery} {out : AgentSessionGraph} {fuel : Nat}
    (h : focusGraph fuel graph query = some out) : graph.FocusesTo query out := by
  refine ⟨fuel, fun more hmore => ?_⟩
  unfold focusGraph at h ⊢
  split at h
  · exact h
  · obtain ⟨k, hk, hout⟩ := Option.bind_eq_some_iff.1 h
    exact Option.bind_eq_some_iff.2 ⟨k, close_mono hk hmore.le, hout⟩

/-- The same rows, in some other order. -/
structure SameRows (graph graph' : AgentSessionGraph) : Prop where
  sessions : graph.sessions.Perm graph'.sessions
  edges    : graph.edges.Perm graph'.edges
  shells   : graph.shells.Perm graph'.shells

theorem SameRows.closed {graph' : AgentSessionGraph} (h : graph.SameRows graph') {lanes : Set String}
    {sessions : Set AgentSessionIdentity} (hc : Closed graph tmux lanes sessions) :
    Closed graph' tmux lanes sessions where
  shellSeed shell hs := hc.shellSeed shell (h.shells.mem_iff.2 hs)
  sessionSeed node hn := hc.sessionSeed node (h.sessions.mem_iff.2 hn)
  lineage shell hs := hc.lineage shell (h.shells.mem_iff.2 hs)
  session shell hs := hc.session shell (h.shells.mem_iff.2 hs)
  spawned edge he := hc.spawned edge (h.edges.mem_iff.2 he)

theorem SameRows.symm {graph' : AgentSessionGraph} (h : graph.SameRows graph') : graph'.SameRows graph :=
  ⟨h.sessions.symm, h.edges.symm, h.shells.symm⟩

theorem SameRows.retain {graph' : AgentSessionGraph} (h : graph.SameRows graph') (lanes : Finset String)
    (sessions : Finset AgentSessionIdentity) :
    (graph.retain lanes sessions).SameRows (graph'.retain lanes sessions) :=
  ⟨h.sessions.filter _, h.edges.filter _, h.shells.filter _⟩

/-- **`focus_graph` (_0_session_graph.rs:647)** without a boundary ends, with the rows of the least family of its
target, and with the same ones for any order of the rows. -/
theorem focusGraph_least (graph : AgentSessionGraph) (tmux : String) :
    ∃ (lanes : Finset String) (sessions : Finset AgentSessionIdentity) (out : AgentSessionGraph),
      IsLeast { p : Set String × Set AgentSessionIdentity | Closed graph tmux p.1 p.2 } (lanes, sessions) ∧
      graph.FocusesTo ⟨some tmux, none⟩ out ∧
      out.sessions = graph.sessions.filter (fun node => node.session ∈ sessions) ∧
      out.shells = graph.shells.filter (fun shell => shell.lane ∈ lanes) ∧
      out.edges = graph.edges.filter (fun edge => edge.parent ∈ sessions ∧ edge.child ∈ sessions) ∧
      ∀ graph', graph.SameRows graph' → ∃ out', graph'.FocusesTo ⟨some tmux, none⟩ out' ∧ out.SameRows out' := by
  have hfocus : ∀ (graph : AgentSessionGraph) (lanes : Finset String) (sessions : Finset AgentSessionIdentity),
      (∀ fuel > graph.rules.length, ∃ changed,
        graph.close fuel (graph.seeds tmux) = some ⟨lanes, sessions, changed⟩) →
      graph.FocusesTo ⟨some tmux, none⟩ (graph.retain lanes sessions) := by
    intro graph lanes sessions hclose
    refine ⟨graph.rules.length, fun fuel hfuel => ?_⟩
    obtain ⟨changed, hk⟩ := hclose fuel hfuel
    simp [focusGraph, hk]
  obtain ⟨lanes, sessions, hleast, hclose⟩ := graph.exists_family tmux
  refine ⟨lanes, sessions, graph.retain lanes sessions, hleast, hfocus graph lanes sessions hclose, rfl, rfl,
    rfl, fun graph' hrows => ?_⟩
  obtain ⟨lanes', sessions', hleast', hclose'⟩ := graph'.exists_family tmux
  have hsets : { p : Set String × Set AgentSessionIdentity | Closed graph' tmux p.1 p.2 } =
      { p | Closed graph tmux p.1 p.2 } := Set.ext fun p => ⟨hrows.symm.closed, hrows.closed⟩
  rw [hsets] at hleast'
  have hsame := hleast'.unique hleast
  obtain rfl := Finset.coe_injective (congrArg Prod.fst hsame)
  obtain rfl := Finset.coe_injective (congrArg Prod.snd hsame)
  exact ⟨graph'.retain lanes' sessions', hfocus graph' lanes' sessions' hclose', hrows.retain _ _⟩

/-! ## Families under a history boundary -/

/-- Two sessions at the ends of one spawned edge. -/
def Spawned (graph : AgentSessionGraph) (a b : AgentSessionIdentity) : Prop :=
  ∃ edge ∈ graph.edges, edge.kind = "spawned" ∧
    (edge.parent = a ∧ edge.child = b ∨ edge.parent = b ∧ edge.child = a)

/-- Nothing has spawned it. -/
def Root (graph : AgentSessionGraph) (identity : AgentSessionIdentity) : Prop :=
  ∀ edge ∈ graph.edges, edge.kind = "spawned" → edge.child ≠ identity

def Lists (graph : AgentSessionGraph) (identity : AgentSessionIdentity) : Prop :=
  ∃ node ∈ graph.sessions, node.session = identity

/-- Joined through sessions and spawned edges of the graph itself. -/
def Joined (graph : AgentSessionGraph) : AgentSessionIdentity → AgentSessionIdentity → Prop :=
  Relation.ReflTransGen fun a b => graph.Lists a ∧ graph.Lists b ∧ graph.Spawned a b

/-- Every session of `out` is joined, in `out`, to a session of `out` that is a root of `graph`. -/
def KeepsConnected (graph out : AgentSessionGraph) : Prop :=
  ∀ identity, out.Lists identity → ∃ root, graph.Root root ∧ out.Lists root ∧ out.Joined identity root

/-- A listed session of the target's family that is a root, or active at or after the boundary; for a
    query without a target, or without a boundary, there is nothing to miss. -/
def Stays (graph : AgentSessionGraph) (query : AgentSessionGraphQuery) (identity : AgentSessionIdentity) :
    Prop :=
  graph.Lists identity ∧ ∀ tmux, query.tmux = some tmux →
    (∀ lanes sessions, Closed graph tmux lanes sessions → identity ∈ sessions) ∧
    ∀ since, query.historySinceTs = some since → graph.Root identity ∨
      ∃ node, (graph.sessions.find? fun node => node.session = identity) = some node ∧
        node.activeSince since

/-- A group of sessions that stay, none of them a root, whose spawned edges to sessions outside the
    group all lead to ones that go. -/
def Fenced (graph : AgentSessionGraph) (query : AgentSessionGraphQuery) (group : Set AgentSessionIdentity) :
    Prop :=
  group.Nonempty ∧ ∀ a ∈ group, graph.Stays query a ∧ ¬ graph.Root a ∧
    ∀ b, graph.Spawned a b → b ∈ group ∨ ¬ graph.Stays query b

/-- In a closed family, the code's roots are those that nothing has spawned. -/
theorem mem_retainSince {lanes : Set String} {sessions : Finset AgentSessionIdentity} {since : Nat}
    (hclosed : Closed graph tmux lanes sessions) {identity : AgentSessionIdentity} :
    identity ∈ graph.retainSince since sessions ↔ identity ∈ sessions ∧ ∃ node,
      (graph.sessions.find? fun node => node.session = identity) = some node ∧
        (graph.Root identity ∨ node.activeSince since) := by
  have hroot : identity ∈ sessions → ((¬ graph.edges.any fun edge => edge.kind = "spawned" &&
      edge.child = identity && decide (edge.parent ∈ sessions)) ↔ graph.Root identity) := by
    intro hin
    simp only [List.any_eq_true, Bool.and_eq_true, decide_eq_true_eq, not_exists, not_and, Root]
    constructor
    · rintro h edge he hk rfl
      exact h edge he ⟨hk, rfl⟩ ((hclosed.spawned edge he hk).2 hin)
    · rintro h edge he ⟨hk, hchild⟩
      exact absurd hchild (h edge he hk)
  unfold retainSince
  rw [Finset.mem_filter]
  refine and_congr_right fun hin => ?_
  simp only [Option.any_eq_true, Bool.or_eq_true, decide_eq_true_eq, Finset.mem_filter, hin, true_and,
    hroot hin]

theorem find_of_lists {identity : AgentSessionIdentity} (h : graph.Lists identity) :
    ∃ node, (graph.sessions.find? fun node => node.session = identity) = some node := by
  obtain ⟨node, hn, hid⟩ := h
  refine Option.isSome_iff_exists.1 (List.find?_isSome.2 ⟨node, hn, ?_⟩)
  simpa using hid

/-- The rows kept for a set of identities. -/
theorem retain_lists {lanes : Finset String} {sessions : Finset AgentSessionIdentity}
    {identity : AgentSessionIdentity} :
    (graph.retain lanes sessions).Lists identity ↔ graph.Lists identity ∧ identity ∈ sessions := by
  constructor
  · rintro ⟨node, hn, rfl⟩
    obtain ⟨hn, hmem⟩ := List.mem_filter.1 hn
    exact ⟨⟨node, hn, rfl⟩, by simpa using hmem⟩
  · rintro ⟨⟨node, hn, rfl⟩, hmem⟩
    exact ⟨node, List.mem_filter.2 ⟨hn, by simpa using hmem⟩, rfl⟩

theorem retain_spawned {lanes : Finset String} {sessions : Finset AgentSessionIdentity}
    {a b : AgentSessionIdentity} (ha : a ∈ sessions) (hb : b ∈ sessions) :
    (graph.retain lanes sessions).Spawned a b ↔ graph.Spawned a b := by
  constructor
  · rintro ⟨edge, he, hrest⟩
    exact ⟨edge, List.mem_of_mem_filter he, hrest⟩
  · rintro ⟨edge, he, hk, hends⟩
    refine ⟨edge, List.mem_filter.2 ⟨he, ?_⟩, hk, hends⟩
    rcases hends with ⟨rfl, rfl⟩ | ⟨rfl, rfl⟩
    · simp [ha, hb]
    · simp [ha, hb]

/-- What `focus_graph` returns, with or without a target: the sessions that stay, and between them the
    spawned edges they had. -/
theorem exists_focus (graph : AgentSessionGraph) (query : AgentSessionGraphQuery) :
    ∃ out, graph.FocusesTo query out ∧ (∀ a, out.Lists a ↔ graph.Stays query a) ∧
      ∀ a b, graph.Stays query a → graph.Stays query b → (out.Spawned a b ↔ graph.Spawned a b) := by
  obtain ⟨target, history⟩ := query
  cases target with
  | none =>
    refine ⟨graph, ⟨0, fun fuel _ => rfl⟩, fun a => ?_, fun a b _ _ => Iff.rfl⟩
    exact ⟨fun h => ⟨h, fun tmux ht => by cases ht⟩, fun h => h.1⟩
  | some tmux =>
    obtain ⟨lanes, sessions, hleast, hclose⟩ := graph.exists_family tmux
    have hfamily : ∀ a, a ∈ sessions ↔ ∀ L S, Closed graph tmux L S → a ∈ S := fun a =>
      ⟨fun ha L S hc => (hleast.2 (show (L, S) ∈ { p : Set String × Set AgentSessionIdentity |
        Closed graph tmux p.1 p.2 } from hc)).2 ha, fun h => h _ _ hleast.1⟩
    have hfocus : ∀ kept : Finset AgentSessionIdentity,
        history.elim sessions (graph.retainSince · sessions) = kept →
        (∀ a, graph.Lists a ∧ a ∈ kept ↔ graph.Stays ⟨some tmux, history⟩ a) →
        ∃ out, graph.FocusesTo ⟨some tmux, history⟩ out ∧
          (∀ a, out.Lists a ↔ graph.Stays ⟨some tmux, history⟩ a) ∧
          ∀ a b, graph.Stays ⟨some tmux, history⟩ a → graph.Stays ⟨some tmux, history⟩ b →
            (out.Spawned a b ↔ graph.Spawned a b) := by
      intro kept hkept hstays
      refine ⟨graph.retain lanes kept, ⟨graph.rules.length, fun fuel hfuel => ?_⟩,
        fun a => retain_lists.trans (hstays a), fun a b ha hb =>
          retain_spawned ((hstays a).2 ha).2 ((hstays b).2 hb).2⟩
      obtain ⟨changed, hk⟩ := hclose fuel hfuel
      subst hkept
      simp only [focusGraph, hk, Option.bind_eq_bind, Option.bind_some]
      cases history <;> rfl
    cases history with
    | none =>
      refine hfocus sessions rfl fun a => ?_
      rw [hfamily]
      constructor
      · rintro ⟨hlist, hin⟩
        refine ⟨hlist, fun tmux' ht => ?_⟩
        cases ht
        exact ⟨hin, fun since hs => by cases hs⟩
      · rintro ⟨hlist, h⟩
        exact ⟨hlist, (h tmux rfl).1⟩
    | some since =>
      refine hfocus (graph.retainSince since sessions) rfl fun a => ?_
      rw [mem_retainSince hleast.1, hfamily]
      constructor
      · rintro ⟨hlist, hin, node, hfind, hor⟩
        refine ⟨hlist, fun tmux' ht => ?_⟩
        cases ht
        refine ⟨hin, fun since' hs => ?_⟩
        cases hs
        exact hor.imp_right fun hact => ⟨node, hfind, hact⟩
      · rintro ⟨hlist, h⟩
        obtain ⟨hin, hrest⟩ := h tmux rfl
        refine ⟨hlist, hin, ?_⟩
        rcases hrest since rfl with hroot | ⟨node, hfind, hact⟩
        · obtain ⟨node, hfind⟩ := find_of_lists hlist
          exact ⟨node, hfind, .inl hroot⟩
        · exact ⟨node, hfind, .inr hact⟩

/-- **"Roots remain present to keep the returned family connected" (_0_session_graph.rs:111)**: it is
    exactly when no group of sessions is fenced off by sessions that go. -/
theorem focusGraph_connected_iff (graph : AgentSessionGraph) (query : AgentSessionGraphQuery) :
    ∃ out, graph.FocusesTo query out ∧
      (graph.KeepsConnected out ↔ ¬ ∃ group, graph.Fenced query group) := by
  obtain ⟨out, hout, hlists, hspawned⟩ := graph.exists_focus query
  refine ⟨out, hout, fun hconn => ?_, fun hfence identity hid => ?_⟩
  · -- a path from the group to a root never leaves the group
    rintro ⟨group, ⟨a, ha⟩, hgroup⟩
    obtain ⟨root, hroot, -, hjoined⟩ := hconn a ((hlists a).2 (hgroup a ha).1)
    have hin : ∀ b, out.Joined a b → b ∈ group := by
      intro b hab
      induction hab with
      | refl => exact ha
      | tail _ hlink ih =>
        obtain ⟨hb, hc, hedge⟩ := hlink
        have hb' := (hlists _).1 hb
        have hc' := (hlists _).1 hc
        exact ((hgroup _ ih).2.2 _ ((hspawned _ _ hb' hc').1 hedge)).resolve_right (not_not.2 hc')
    exact (hgroup root (hin root hjoined)).2.1 hroot
  · -- the sessions that are not joined to a root fence themselves off
    by_contra hno
    refine hfence ⟨{ a | graph.Stays query a ∧
      ¬ ∃ root, graph.Root root ∧ out.Lists root ∧ out.Joined a root }, ⟨identity, (hlists _).1 hid, hno⟩, ?_⟩
    rintro a ⟨hstays, hnone⟩
    refine ⟨hstays, fun hroot => hnone ⟨a, hroot, (hlists a).2 hstays, .refl⟩, fun b hab => ?_⟩
    by_contra hout'
    rw [not_or, not_not] at hout'
    obtain ⟨hb, hstaysb⟩ := hout'
    refine hb ⟨hstaysb, fun ⟨root, hroot, hlist, hjoined⟩ => hnone ⟨root, hroot, hlist, ?_⟩⟩
    exact .head ⟨(hlists a).2 hstays, (hlists b).2 hstaysb, (hspawned a b hstays hstaysb).2 hab⟩ hjoined

/-! A root that shows the target, the session it has spawned, both long idle, and a third session that
    the second has spawned and that is still active. -/

def claude (id : String) : AgentSessionIdentity := ⟨"claude", id⟩

def idleMiddle : AgentSessionGraph where
  sessions := [⟨claude "root", some "main", some 1, none, none⟩, ⟨claude "middle", none, some 2, none, none⟩,
    ⟨claude "leaf", none, some 3, some 100, none⟩]
  edges := [⟨claude "root", claude "middle", "spawned"⟩, ⟨claude "middle", claude "leaf", "spawned"⟩]
  shells := []

theorem boundary_disconnects : ¬ ∀ (graph : AgentSessionGraph) (query : AgentSessionGraphQuery)
    (out : AgentSessionGraph), graph.FocusesTo query out → graph.KeepsConnected out := by
  intro h
  have hfocus : focusGraph 4 idleMiddle ⟨some "main", some 50⟩ =
      some ⟨[⟨claude "root", some "main", some 1, none, none⟩,
        ⟨claude "leaf", none, some 3, some 100, none⟩], [], []⟩ := by decide
  obtain ⟨root, hroot, -, hjoined⟩ := h _ _ _ (focusesTo_of_eq hfocus) (claude "leaf")
    ⟨_, List.mem_cons_of_mem _ List.mem_cons_self, rfl⟩
  cases hjoined.cases_head with
  | inl heq =>
    subst heq
    exact hroot ⟨claude "middle", claude "leaf", "spawned"⟩ (by decide) rfl rfl
  | inr hstep =>
    obtain ⟨b, ⟨-, -, edge, he, -⟩, -⟩ := hstep
    cases he

end AgentSessionGraph
end BoopStore
