import HafleyRs.BoopStore.TraceProjected

/-!
# Runs of recorded relations (`crates/boop-store/src/ident.rs` 2481)

`Projected` is what a run of `Clean` calls keeps: every session of a recorded relation is attached, a component to
one trace that is named after one of its sessions. The run on the relations of one component alone keeps pace with
the whole one (`Agree`).

An ambiguous relation stays in its table, and every later projection fails on it: `ambiguous_blocks`.
-/

namespace BoopStore.Projection

/-! ## One call -/

/-- The trace a session is attached to. -/
def TraceStore.traceOf (store : TraceStore) (session : String) : Option String :=
  (store.spans.get session).map SpanRow.trace

/-- A call that is within the limits, makes nothing ambiguous, and joins no two traces; one of a relation that is
    recorded already does nothing. -/
def Clean (store : TraceStore) (relation : SessionRelation) : Prop :=
  relation.relationKey ∈ store.relations.keys ∨
  Within (observationsRead store) (store.relations.rows ++ [relation]) .default ∧
    ambiguous (store.relations.rows ++ [relation]) = none ∧
    ∀ t t', store.traceOf relation.fromSession = some t → store.traceOf relation.toSession = some t' → t = t'

/-- The relation is in, nothing is projected yet. -/
def Stored (store : TraceStore) (relation : SessionRelation) (stored : TraceStore) : Prop :=
  stored.relations.rows = store.relations.rows ++ [relation] ∧ stored.observations = store.observations ∧
    stored.spans = store.spans ∧ stored.traces = store.traces

theorem recorded_of_stored {store : TraceStore} {relation : SessionRelation}
    (hkey : relation.relationKey ∉ store.relations.keys) (hsource : relation.source ∈ observationSources) :
    ∃ stored, Stored store relation stored ∧
      ∀ after, rebuildTraceProjection stored = some (.ok after) → recorded store relation = after := by
  refine ⟨{ store with relations := store.relations.push relation hkey }, ⟨rfl, rfl, rfl, rfl⟩, fun after hafter => ?_⟩
  unfold recorded recordSessionRelation
  rw [if_neg (not_not.2 hsource), Table.insertOrIgnore, Table.insert?_of_notMem hkey]
  simp only [Bool.not_true, Bool.false_eq_true, if_false, hafter]

/-- **`record_session_relation` (ident.rs:2481)**: nothing, or the relation and a projection. -/
theorem recorded_cases (store : TraceStore) (relation : SessionRelation) :
    recorded store relation = store ∨
    relation.relationKey ∉ store.relations.keys ∧ relation.source ∈ observationSources := by
  by_cases hsource : relation.source ∈ observationSources
  · by_cases hkey : relation.relationKey ∈ store.relations.keys
    · left
      unfold recorded recordSessionRelation
      rw [if_neg (not_not.2 hsource), Table.insertOrIgnore, Table.insert?_of_mem hkey]
      simp only [Bool.not_false, if_true]
    · exact .inr ⟨hkey, hsource⟩
  · left
    unfold recorded recordSessionRelation
    rw [if_pos hsource]

/-! ## The invariant -/

/-- Every session that `a` is connected to is attached to the trace of the name `"trace-" ++ x`. -/
def AttachedTo (store : TraceStore) (a x : String) : Prop :=
  (store.traces.get ("trace-" ++ x)).isSome ∧ ∀ b, Connected store.relations.rows a b →
    ∃ ts, store.spans.get b = some ⟨b, "trace-" ++ x, derivedAttach, ts⟩

structure Projected (start store : TraceStore) : Prop where
  observations : store.observations = start.observations
  unambiguous  : ambiguous store.relations.rows = none
  within       : store.relations.rows ≠ [] → Within (observationsRead store) store.relations.rows .default
  others       : ∀ x, ¬ Related store.relations.rows x → store.spans.get x = start.spans.get x
  attached     : ∀ a, Related store.relations.rows a → ∃ x, Connected store.relations.rows a x ∧ AttachedTo store a x

theorem observationsRead_congr {store store' : TraceStore} (h : store.observations = store'.observations) :
    observationsRead store = observationsRead store' := by
  rw [observationsRead, observationsRead, h]

/-- Sessions that are all attached to one trace, if at all. -/
theorem single_of_attached {store : TraceStore} {t : DerivedTrace} {name : String}
    (hall : ∀ b ∈ t.sessions, ∀ span, store.spans.get b = some span →
      (store.traces.get span.trace).isSome ∧ span.trace = name)
    (hex : ∃ b ∈ t.sessions, (store.spans.get b).isSome) : Single store t ∧ traceName store t = name := by
  obtain ⟨b, hb, hsome⟩ := hex
  obtain ⟨span, hspan⟩ := Option.isSome_iff_exists.1 hsome
  have hin : name ∈ store.existing t.sessions := by
    obtain ⟨hrow, hname⟩ := hall b hb span hspan
    obtain ⟨row, hrow⟩ := Option.isSome_iff_exists.1 hrow
    refine List.mem_dedup.2 (List.mem_filterMap.2 ⟨b, hb, ?_⟩)
    rw [TraceStore.attached, hspan, Option.bind_some, hrow, Option.map_some, hname]
  have hsame : ∀ x ∈ store.existing t.sessions, x = name := by
    intro x hx
    obtain ⟨c, hc, hattached⟩ := List.mem_filterMap.1 (List.mem_dedup.1 hx)
    rw [TraceStore.attached, Option.bind_eq_some_iff] at hattached
    obtain ⟨span', hspan', hmap⟩ := hattached
    obtain ⟨row, -, rfl⟩ := Option.map_eq_some_iff.1 hmap
    exact (hall c hc span' hspan').2
  have hname : traceName store t = name := by
    rw [traceName]
    cases hlist : store.existing t.sessions with
    | nil => rw [hlist] at hin; cases hin
    | cons x rest =>
      rw [List.head?_cons, Option.getD_some]
      exact hsame x (by rw [hlist]; simp)
  exact ⟨fun c hc span' hspan' => ⟨(hall c hc span' hspan').1, (hall c hc span' hspan').2.trans hname.symm⟩, hname⟩

/-- Sessions of which none is attached. -/
theorem single_of_none {store : TraceStore} {t : DerivedTrace} (hall : ∀ b ∈ t.sessions, store.spans.get b = none) :
    Single store t ∧ traceName store t = "trace-" ++ t.rootSession := by
  refine ⟨fun b hb span hspan => ?_, ?_⟩
  · rw [hall b hb] at hspan
    cases hspan
  · have hempty : store.existing t.sessions = [] := by
      rw [TraceStore.existing, List.filterMap_eq_nil_iff.2 fun b hb => ?_, List.dedup_nil]
      rw [TraceStore.attached, hall b hb]
      rfl
    rw [traceName, hempty]
    rfl

/-- A session the relation names, before it is recorded: attached with its component, or alone and not attached. -/
theorem Projected.side {start store : TraceStore} (h : Projected start store) {c : String}
    (hfree : start.spans.get c = none) :
    (∃ x, Connected store.relations.rows c x ∧ AttachedTo store c x) ∨
      ∀ b, Connected store.relations.rows c b → store.spans.get b = none := by
  by_cases hc : Related store.relations.rows c
  · exact .inl (h.attached c hc)
  · refine .inr fun b hb => ?_
    rw [connected_eq_of_not_related hb hc, h.others c hc, hfree]

theorem AttachedTo.span {store : TraceStore} {a x b : String} (h : AttachedTo store a x)
    (hb : Connected store.relations.rows a b) {span : SpanRow} (hspan : store.spans.get b = some span) :
    (store.traces.get span.trace).isSome ∧ span.trace = "trace-" ++ x := by
  obtain ⟨ts, hts⟩ := h.2 b hb
  rw [hts] at hspan
  cases hspan
  exact ⟨h.1, rfl⟩

/-- **Before the projection**: every trace is single, and named after one of its sessions. -/
theorem Projected.ready {start store stored : TraceStore} {relation : SessionRelation} (h : Projected start store)
    (hstored : Stored store relation stored) (hfrom : start.spans.get relation.fromSession = none)
    (hto : start.spans.get relation.toSession = none)
    (hjoin : ∀ t t', store.traceOf relation.fromSession = some t → store.traceOf relation.toSession = some t' → t = t')
    {t : DerivedTrace} (ht : TraceOf stored t) : Single stored t ∧ Named stored t := by
  obtain ⟨hrows, -, hspans, htraces⟩ := hstored
  have hcomp : ∀ {a b : String}, a ∈ t.sessions →
      (b ∈ t.sessions ↔ Connected (store.relations.rows ++ [relation]) a b) := by
    intro a b ha
    rw [ht.component ha, hrows]
  by_cases hin : relation.fromSession ∈ t.sessions
  · -- the component of the new relation: what its two sides were
    have hside : ∀ b ∈ t.sessions, Connected store.relations.rows relation.fromSession b ∨
        Connected store.relations.rows relation.toSession b := fun b hb =>
      connected_concat_ends.1 ((hcomp hin).1 hb)
    have hmem : ∀ b, Connected store.relations.rows relation.fromSession b ∨
        Connected store.relations.rows relation.toSession b → b ∈ t.sessions := fun b hb =>
      (hcomp hin).2 (connected_concat_ends.2 hb)
    rcases h.side hfrom with ⟨x, hx, hattx⟩ | hnonefrom
    · have hsomefrom : (stored.spans.get relation.fromSession).isSome := by
        obtain ⟨ts, hts⟩ := hattx.2 _ .refl
        rw [hspans, hts]
        rfl
      have hall : ∀ b ∈ t.sessions, ∀ span, stored.spans.get b = some span →
          (stored.traces.get span.trace).isSome ∧ span.trace = "trace-" ++ x := by
        intro b hb span hspan
        rw [hspans] at hspan
        rw [htraces]
        rcases hside b hb with hbf | hbt
        · exact hattx.span hbf hspan
        · rcases h.side hto with ⟨y, hy, hatty⟩ | hnoneto
          · obtain ⟨ts, hts⟩ := hattx.2 _ .refl
            obtain ⟨ts', hts'⟩ := hatty.2 _ .refl
            have heq := hjoin _ _ (by rw [TraceStore.traceOf, hts]; rfl) (by rw [TraceStore.traceOf, hts']; rfl)
            obtain ⟨hrow, hname⟩ := hatty.span hbt hspan
            exact ⟨hrow, hname.trans heq.symm⟩
          · rw [hnoneto b hbt] at hspan
            cases hspan
      obtain ⟨hsingle, hname⟩ := single_of_attached hall ⟨_, hin, hsomefrom⟩
      exact ⟨hsingle, x, hmem x (.inl hx), hname⟩
    · rcases h.side hto with ⟨y, hy, hatty⟩ | hnoneto
      · have hto' : relation.toSession ∈ t.sessions := hmem _ (.inr .refl)
        have hsometo : (stored.spans.get relation.toSession).isSome := by
          obtain ⟨ts, hts⟩ := hatty.2 _ .refl
          rw [hspans, hts]
          rfl
        have hall : ∀ b ∈ t.sessions, ∀ span, stored.spans.get b = some span →
            (stored.traces.get span.trace).isSome ∧ span.trace = "trace-" ++ y := by
          intro b hb span hspan
          rw [hspans] at hspan
          rw [htraces]
          rcases hside b hb with hbf | hbt
          · rw [hnonefrom b hbf] at hspan
            cases hspan
          · exact hatty.span hbt hspan
        obtain ⟨hsingle, hname⟩ := single_of_attached hall ⟨_, hto', hsometo⟩
        exact ⟨hsingle, y, hmem y (.inr hy), hname⟩
      · have hnone : ∀ b ∈ t.sessions, stored.spans.get b = none := by
          intro b hb
          rw [hspans]
          rcases hside b hb with hbf | hbt
          · exact hnonefrom b hbf
          · exact hnoneto b hbt
        obtain ⟨hsingle, hname⟩ := single_of_none hnone
        exact ⟨hsingle, t.rootSession, ht.1.root_mem, hname⟩
  · -- a component the relation does not touch
    obtain ⟨r, hr, hrin⟩ := ht.relation
    have hold : r ∈ store.relations.rows := by
      rw [hrows] at hr
      rcases List.mem_append.1 hr with hr | hr
      · exact hr
      · rw [List.mem_singleton.1 hr] at hrin
        exact absurd hrin hin
    have hapart : ¬ Connected (store.relations.rows ++ [relation]) r.fromSession relation.fromSession := fun hc =>
      hin ((hcomp hrin).2 hc)
    obtain ⟨x, hx, hatt⟩ := h.attached r.fromSession ⟨r, hold, .inl rfl⟩
    have hall : ∀ b ∈ t.sessions, ∀ span, stored.spans.get b = some span →
        (stored.traces.get span.trace).isSome ∧ span.trace = "trace-" ++ x := by
      intro b hb span hspan
      rw [hspans] at hspan
      rw [htraces]
      exact hatt.span ((connected_concat_apart hapart).1 ((hcomp hrin).1 hb)) hspan
    have hsome : (stored.spans.get r.fromSession).isSome := by
      obtain ⟨ts, hts⟩ := hatt.2 _ .refl
      rw [hspans, hts]
      rfl
    obtain ⟨hsingle, hname⟩ := single_of_attached hall ⟨_, hrin, hsome⟩
    exact ⟨hsingle, x, (hcomp hrin).2 ((connected_concat_apart hapart).2 hx), hname⟩

/-- What a projection that succeeds leaves: the spans and the row of each trace, all else untouched. -/
structure Outcome (stored after : TraceStore) : Prop where
  spans        : ∀ a, Related stored.relations.rows a → ∃ t, TraceOf stored t ∧ a ∈ t.sessions ∧
    (∀ b ∈ t.sessions, after.spans.get b = some (spanOf (observationsRead stored) stored t b)) ∧
    after.traces.get (traceName stored t) = some (rowOf (observationsRead stored) stored t)
  others       : ∀ b, ¬ Related stored.relations.rows b → after.spans.get b = stored.spans.get b
  names        : ∀ n, (∀ t, TraceOf stored t → traceName stored t ≠ n) → after.traces.get n = stored.traces.get n
  relations    : after.relations = stored.relations
  observations : after.observations = stored.observations

/-- **A clean call** keeps the invariant. -/
theorem Projected.step {start store stored : TraceStore} {relation : SessionRelation} (h : Projected start store)
    (hstored : Stored store relation stored) (hfrom : start.spans.get relation.fromSession = none)
    (hto : start.spans.get relation.toSession = none)
    (hwithin : Within (observationsRead store) (store.relations.rows ++ [relation]) .default)
    (hclear : ambiguous (store.relations.rows ++ [relation]) = none)
    (hjoin : ∀ t t', store.traceOf relation.fromSession = some t →
      store.traceOf relation.toSession = some t' → t = t') :
    ∃ after, rebuildTraceProjection stored = some (.ok after) ∧ Outcome stored after ∧ Projected start after := by
  have hready := fun t (ht : TraceOf stored t) => h.ready hstored hfrom hto hjoin ht
  obtain ⟨hrows, hobs, hspans, htraces⟩ := hstored
  have hread : observationsRead stored = observationsRead store := observationsRead_congr hobs
  rw [← hrows] at hclear
  rw [← hrows, ← hread] at hwithin
  have hne : stored.relations.rows ≠ [] := by
    rw [hrows]
    simp
  obtain ⟨after, hafter, heach, hother, hname, hrel, hobs'⟩ := rebuildTraceProjection_spec hne hwithin hclear hready
  refine ⟨after, hafter, ⟨heach, hother, hname, hrel, hobs'⟩, ?_⟩
  have hread' : observationsRead after = observationsRead stored := observationsRead_congr hobs'
  refine ⟨hobs'.trans (hobs.trans h.observations), hrel ▸ hclear, fun _ => ?_, fun x hx => ?_, fun a ha => ?_⟩
  · rw [hrel, hread']
    exact hwithin
  · rw [hrel] at hx
    have hold : ¬ Related store.relations.rows x := by
      rintro ⟨r, hr, hends⟩
      exact hx ⟨r, by rw [hrows]; exact mem_concat relation r hr, hends⟩
    rw [hother x hx, hspans, h.others x hold]
  · rw [hrel] at ha
    obtain ⟨t, ht, hin, hspan, hrow⟩ := heach a ha
    obtain ⟨x, hx, hnamed⟩ := (hready t ht).2
    refine ⟨x, ?_, ?_, fun b hb => ?_⟩
    · rw [hrel]
      exact (ht.component hin).1 hx
    · rw [← hnamed, hrow]
      rfl
    · rw [hrel] at hb
      exact ⟨_, by rw [hspan b ((ht.component hin).2 hb), spanOf, hnamed]⟩

/-! ## A component alone -/

/-- The sessions `C` belong to whole components. -/
def Closed (C : String → Prop) (relations : List SessionRelation) : Prop :=
  ∀ r ∈ relations, C r.fromSession ↔ C r.toSession

theorem Closed.connected {C : String → Prop} {relations : List SessionRelation} (h : Closed C relations) {a b : String}
    (hab : Connected relations a b) (ha : C a) : C b := by
  induction hab with
  | refl => exact ha
  | tail _ hlink ih =>
    obtain ⟨r, hr, ⟨rfl, rfl⟩ | ⟨rfl, rfl⟩⟩ := hlink
    · exact (h r hr).1 ih
    · exact (h r hr).2 ih

/-- The relations of the sessions `C`. -/
noncomputable def own (C : String → Prop) (relations : List SessionRelation) : List SessionRelation :=
  open Classical in relations.filter fun r => decide (C r.fromSession)

theorem mem_own {C : String → Prop} {relations : List SessionRelation} {r : SessionRelation} :
    r ∈ own C relations ↔ r ∈ relations ∧ C r.fromSession := by
  simp [own]

theorem connected_own {C : String → Prop} {relations : List SessionRelation} (h : Closed C relations) {a b : String}
    (ha : C a) : Connected (own C relations) a b ↔ Connected relations a b := by
  refine ⟨fun hab => connected_mono (fun r hr => (mem_own.1 hr).1) hab, fun hab => ?_⟩
  induction hab with
  | refl => exact .refl
  | @tail c d hac hlink ih =>
    have hc := h.connected hac ha
    obtain ⟨r, hr, hends⟩ := hlink
    have hown : r ∈ own C relations := by
      refine mem_own.2 ⟨hr, ?_⟩
      rcases hends with ⟨rfl, -⟩ | ⟨rfl, -⟩
      · exact hc
      · exact (h r hr).2 hc
    exact ih.tail ⟨r, hown, hends⟩

theorem related_own {C : String → Prop} {relations : List SessionRelation} (h : Closed C relations) {a : String}
    (ha : C a) : Related (own C relations) a ↔ Related relations a := by
  constructor
  · rintro ⟨r, hr, hends⟩
    exact ⟨r, (mem_own.1 hr).1, hends⟩
  · rintro ⟨r, hr, hends⟩
    refine ⟨r, mem_own.2 ⟨hr, ?_⟩, hends⟩
    rcases hends with rfl | rfl
    · exact ha
    · exact (h r hr).2 ha

/-- Two stores show the same of the sessions `C`. -/
structure Agree (C : String → Prop) (store alone : TraceStore) : Prop where
  relations    : alone.relations.rows = own C store.relations.rows
  observations : alone.observations = store.observations
  spans        : ∀ b, C b → alone.spans.get b = store.spans.get b
  traces       : ∀ x, C x → alone.traces.get ("trace-" ++ x) = store.traces.get ("trace-" ++ x)

theorem own_concat {C : String → Prop} {relations : List SessionRelation} {r : SessionRelation} :
    (C r.fromSession → own C (relations ++ [r]) = own C relations ++ [r]) ∧
    (¬ C r.fromSession → own C (relations ++ [r]) = own C relations) := by
  unfold own
  rw [List.filter_append]
  exact ⟨fun hc => by simp [hc], fun hc => by simp [hc]⟩

theorem min?_perm {ts ts' : List Int} (h : ts.Perm ts') : ts.min? = ts'.min? := by
  refine Option.ext fun a => ?_
  rw [List.min?_eq_some_iff, List.min?_eq_some_iff]
  simp only [h.mem_iff]

/-- The trace of a session in the whole store and in the one of its component. -/
theorem TraceOf.same {C : String → Prop} {stored alone : TraceStore} (hclosed : Closed C stored.relations.rows)
    (hrelations : alone.relations.rows = own C stored.relations.rows) (hobs : alone.observations = stored.observations)
    {t u : DerivedTrace} (ht : TraceOf stored t) (hu : TraceOf alone u) {b : String} (hb : C b) (hbt : b ∈ t.sessions)
    (hbu : b ∈ u.sessions) : u.Same t := by
  have hC : ∀ c ∈ t.sessions, C c := fun c hc => hclosed.connected ((ht.component hbt).1 hc) hb
  have hsessions : u.sessions = t.sessions := by
    refine eq_of_sortedByKey id (fun _ _ _ _ h => h) (hu.1.sorted.imp fun h => h.le) (ht.1.sorted.imp fun h => h.le) ?_
    rw [List.perm_ext_iff_of_nodup (hu.1.sorted.imp fun h => h.ne) (ht.1.sorted.imp fun h => h.ne)]
    intro c
    rw [hu.component hbu, ht.component hbt, hrelations, connected_own hclosed hb]
  have hread := observationsRead_congr hobs
  refine ⟨hsessions, ?_, ?_⟩
  · have hut := hu.1.root_le t.rootSession (hsessions ▸ ht.1.root_mem)
    have htu := ht.1.root_le u.rootSession (hsessions ▸ hu.1.root_mem)
    rw [hread] at hut
    exact (Prod.mk.inj (congrArg ofLex (le_antisymm hut htu))).2
  · rw [hu.1.evidence, ht.1.evidence, hsessions]
    have hleft := (relationsRead_perm alone).filter fun r => decide (r.fromSession ∈ t.sessions)
    have hright := (relationsRead_perm stored).filter fun r => decide (r.fromSession ∈ t.sessions)
    refine hleft.trans (List.Perm.trans (List.Perm.of_eq ?_) hright.symm)
    rw [hrelations, own, List.filter_filter]
    refine List.filter_congr fun r _ => ?_
    by_cases hr : r.fromSession ∈ t.sessions
    · simp [hr, hC _ hr]
    · simp [hr]

/-- Two traces of one store that share a session are named alike. -/
theorem TraceOf.name_eq {store : TraceStore} {t u : DerivedTrace} (ht : TraceOf store t) (hu : TraceOf store u)
    {b : String} (hbt : b ∈ t.sessions) (hbu : b ∈ u.sessions) : traceName store t = traceName store u := by
  obtain ⟨hsessions, hroot, -⟩ := ht.1.same (List.Perm.refl _) (List.Perm.refl _) hu.1 hbt hbu
  rw [traceName, traceName, hsessions, hroot]

theorem attachedTs_congr {observations : List SessionObservation} {t u : DerivedTrace} (h : u.Same t) (b : String) :
    attachedTs observations u b = attachedTs observations t b := by
  obtain ⟨hsessions, -, hevidence⟩ := h
  have hmin := min?_perm ((hevidence.filter fun r => decide (r.fromSession = b ∨ r.toSession = b)).map
    fun r => asI64 r.observedAtMs)
  unfold attachedTs startedTs
  rw [hsessions]
  simp only [hmin]

/-- What the two projections write for a session of the component. -/
theorem written_alike {C : String → Prop} {stored alone : TraceStore} {t u : DerivedTrace} (hsame : u.Same t)
    (hobs : alone.observations = stored.observations) (hC : ∀ c ∈ t.sessions, C c)
    (hspans : ∀ b, C b → alone.spans.get b = stored.spans.get b)
    (htraces : ∀ x, C x → alone.traces.get ("trace-" ++ x) = stored.traces.get ("trace-" ++ x))
    (hnames : ∀ b ∈ t.sessions, ∀ span, stored.spans.get b = some span → ∃ x, C x ∧ span.trace = "trace-" ++ x) :
    traceName alone u = traceName stored t ∧
      (∀ b ∈ t.sessions, spanOf (observationsRead alone) alone u b = spanOf (observationsRead stored) stored t b) ∧
      (∀ x, C x → traceName stored t = "trace-" ++ x →
        rowOf (observationsRead alone) alone u = rowOf (observationsRead stored) stored t) := by
  have hread := observationsRead_congr hobs
  have hattached : ∀ b ∈ t.sessions, alone.attached b = stored.attached b := by
    intro b hb
    rw [TraceStore.attached, TraceStore.attached, hspans b (hC b hb)]
    cases hget : stored.spans.get b with
    | none => rfl
    | some span =>
      obtain ⟨x, hx, hname⟩ := hnames b hb span hget
      rw [Option.bind_some, Option.bind_some, hname, htraces x hx]
  have hname : traceName alone u = traceName stored t := by
    rw [traceName, traceName, TraceStore.existing, TraceStore.existing, hsame.1, hsame.2.1,
      List.filterMap_congr hattached]
  refine ⟨hname, fun b hb => ?_, fun x hx hx' => ?_⟩
  · rw [spanOf, spanOf, hname, hspans b (hC b hb), hread, attachedTs_congr hsame]
  · rw [rowOf, rowOf, hname, hx', htraces x hx, hread, hsame.2.1, startedTs, startedTs, hsame.1]

/-- A trace of the name of `x` has `x` among its sessions. -/
theorem Named.mem {store : TraceStore} {t : DerivedTrace} (h : Named store t) {x : String}
    (hx : traceName store t = "trace-" ++ x) : x ∈ t.sessions := by
  obtain ⟨y, hy, hnamed⟩ := h
  rw [hx] at hnamed
  exact (String.append_right_inj _).1 hnamed ▸ hy

/-- **A call of the component**, on both sides. -/
theorem Agree.own_call {C : String → Prop} {start store alone stored stored' after after' : TraceStore}
    {r : SessionRelation} (h : Agree C store alone) (hclosed : Closed C (store.relations.rows ++ [r]))
    (hr : C r.fromSession) (hproj : Projected start store) (hfrom : start.spans.get r.fromSession = none)
    (hto : start.spans.get r.toSession = none) (hready : ∀ t, TraceOf stored t → Named stored t)
    (hready' : ∀ t, TraceOf stored' t → Named stored' t) (hstored : Stored store r stored)
    (hstored' : Stored alone r stored') (hout : Outcome stored after) (hout' : Outcome stored' after') :
    Agree C after after' := by
  obtain ⟨hrows, hobs, hspans, htraces⟩ := hstored
  obtain ⟨hrows', hobs', hspans', htraces'⟩ := hstored'
  have hown : stored'.relations.rows = own C stored.relations.rows := by
    rw [hrows', hrows, h.relations, (own_concat (r := r)).1 hr]
  have hobsEq : stored'.observations = stored.observations := by rw [hobs', hobs, h.observations]
  rw [← hrows] at hclosed
  have hspanEq : ∀ b, C b → stored'.spans.get b = stored.spans.get b := by
    intro b hb
    rw [hspans', hspans, h.spans b hb]
  have htraceEq : ∀ x, C x → stored'.traces.get ("trace-" ++ x) = stored.traces.get ("trace-" ++ x) := by
    intro x hx
    rw [htraces', htraces, h.traces x hx]
  -- every span of the component is named after one of its sessions
  have hnames : ∀ b, C b → Related stored.relations.rows b → ∀ span, stored.spans.get b = some span →
      ∃ x, C x ∧ span.trace = "trace-" ++ x := by
    intro b hb hrel span hspan
    rw [hspans] at hspan
    by_cases hold : Related store.relations.rows b
    · obtain ⟨x, hx, hatt⟩ := hproj.attached b hold
      refine ⟨x, hclosed.connected ?_ hb, (hatt.span .refl hspan).2⟩
      rw [hrows]
      exact connected_mono (mem_concat r) hx
    · obtain ⟨q, hq, hends⟩ := hrel
      rw [hrows] at hq
      rcases List.mem_append.1 hq with hq | hq
      · exact absurd ⟨q, hq, hends⟩ hold
      · rw [List.mem_singleton.1 hq] at hends
        have hnone : store.spans.get b = none := by
          rw [hproj.others b hold]
          rcases hends with rfl | rfl
          · exact hfrom
          · exact hto
        rw [hnone] at hspan
        cases hspan
  have hboth : ∀ b, C b → Related stored.relations.rows b → ∃ t u, TraceOf stored t ∧ TraceOf stored' u ∧
      b ∈ t.sessions ∧ b ∈ u.sessions ∧ after'.spans.get b = after.spans.get b ∧
      traceName stored' u = traceName stored t ∧
      after.traces.get (traceName stored t) = some (rowOf (observationsRead stored) stored t) ∧
      after'.traces.get (traceName stored' u) = some (rowOf (observationsRead stored') stored' u) ∧
      ∀ x, C x → traceName stored t = "trace-" ++ x →
        rowOf (observationsRead stored') stored' u = rowOf (observationsRead stored) stored t := by
    intro b hb hrel
    obtain ⟨t, ht, hbt, hspan, hrow⟩ := hout.spans b hrel
    have hrel' : Related stored'.relations.rows b := by
      rw [hown]
      exact (related_own hclosed hb).2 hrel
    obtain ⟨u, hu, hbu, hspan', hrow'⟩ := hout'.spans b hrel'
    have hsame := ht.same hclosed hown hobsEq hu hb hbt hbu
    have hC : ∀ c ∈ t.sessions, C c := fun c hc => hclosed.connected ((ht.component hbt).1 hc) hb
    obtain ⟨hname, hspanOf, hrowOf⟩ := written_alike hsame hobsEq hC hspanEq htraceEq fun c hc =>
      hnames c (hC c hc) (ht.related hc)
    exact ⟨t, u, ht, hu, hbt, hbu, by rw [hspan b hbt, hspan' b hbu, hspanOf b hbt], hname, hrow, hrow', hrowOf⟩
  refine ⟨?_, ?_, fun b hb => ?_, fun x hx => ?_⟩
  · rw [hout.relations, hout'.relations, hown]
  · rw [hout.observations, hout'.observations, hobsEq]
  · by_cases hrel : Related stored.relations.rows b
    · obtain ⟨-, -, -, -, -, -, hspan, -⟩ := hboth b hb hrel
      exact hspan
    · have hrel' : ¬ Related stored'.relations.rows b := by
        rw [hown]
        exact fun hr' => hrel ((related_own hclosed hb).1 hr')
      rw [hout.others b hrel, hout'.others b hrel', hspanEq b hb]
  · by_cases hrel : Related stored.relations.rows x
    · obtain ⟨t, u, ht, hu, hxt, hxu, -, hname, hrow, hrow', hrowOf⟩ := hboth x hx hrel
      by_cases hnamed : traceName stored t = "trace-" ++ x
      · have hnamed' := hname.trans hnamed
        rw [hnamed] at hrow
        rw [hnamed'] at hrow'
        rw [hrow, hrow', hrowOf x hx hnamed]
      · rw [hout.names _ fun v hv hvn => hnamed ?_, hout'.names _ fun v hv hvn => hnamed ?_, htraceEq x hx]
        · rw [← hname, ← hvn]
          exact (hv.name_eq hu ((hready' v hv).mem hvn) hxu).symm
        · rw [← hvn]
          exact (hv.name_eq ht ((hready v hv).mem hvn) hxt).symm
    · have hrel' : ¬ Related stored'.relations.rows x := by
        rw [hown]
        exact fun hr' => hrel ((related_own hclosed hx).1 hr')
      rw [hout.names _ fun v hv hvn => hrel (hv.related ((hready v hv).mem hvn)),
        hout'.names _ fun v hv hvn => hrel' (hv.related ((hready' v hv).mem hvn)), htraceEq x hx]

/-- **A call of other sessions** leaves the component as it was. -/
theorem Agree.other_call {C : String → Prop} {start store alone stored after : TraceStore} {r : SessionRelation}
    (h : Agree C store alone) (hclosed : Closed C (store.relations.rows ++ [r])) (hr : ¬ C r.fromSession)
    (hproj : Projected start store) (hready : ∀ t, TraceOf stored t → Named stored t)
    (hstored : Stored store r stored) (hout : Outcome stored after) : Agree C after alone := by
  obtain ⟨hrows, hobs, hspans, htraces⟩ := hstored
  have hto : ¬ C r.toSession := fun hc => hr ((hclosed r (by simp)).2 hc)
  rw [← hrows] at hclosed
  -- the component is settled: its trace writes what is there
  have hsettled : ∀ t b, TraceOf stored t → b ∈ t.sessions → C b → ∃ x, AttachedTo store b x ∧
      traceName stored t = "trace-" ++ x := by
    intro t b ht hbt hb
    have hcomp : ∀ c ∈ t.sessions, Connected store.relations.rows b c := by
      intro c hc
      refine (connected_concat_apart fun hbr => hr ?_).1 (hrows ▸ (ht.component hbt).1 hc)
      exact hclosed.connected (hrows ▸ hbr) hb
    have hrel : Related store.relations.rows b := by
      obtain ⟨q, hq, hends⟩ := ht.related hbt
      rw [hrows] at hq
      rcases List.mem_append.1 hq with hq | hq
      · exact ⟨q, hq, hends⟩
      · rw [List.mem_singleton.1 hq] at hends
        rcases hends with rfl | rfl
        · exact absurd hb hr
        · exact absurd hb hto
    obtain ⟨x, -, hatt⟩ := hproj.attached b hrel
    obtain ⟨ts, hts⟩ := hatt.2 b .refl
    refine ⟨x, hatt, (single_of_attached (fun c hc span hspan => ?_) ⟨b, hbt, ?_⟩).2⟩
    · rw [hspans] at hspan
      rw [htraces]
      exact hatt.span (hcomp c hc) hspan
    · rw [hspans, hts]
      rfl
  refine ⟨?_, ?_, fun b hb => ?_, fun x hx => ?_⟩
  · rw [h.relations, hout.relations, hrows, (own_concat (r := r)).2 hr]
  · rw [h.observations, hout.observations, hobs]
  · rw [h.spans b hb]
    by_cases hrel : Related stored.relations.rows b
    · obtain ⟨t, ht, hbt, hspan, -⟩ := hout.spans b hrel
      obtain ⟨x, hatt, hname⟩ := hsettled t b ht hbt hb
      obtain ⟨ts, hts⟩ := hatt.2 b .refl
      rw [hspan b hbt, spanOf, hspans, hts, hname]
      rfl
    · rw [hout.others b hrel, hspans]
  · rw [h.traces x hx]
    by_cases hnamed : ∃ t, TraceOf stored t ∧ traceName stored t = "trace-" ++ x
    · obtain ⟨t, ht, hname⟩ := hnamed
      have hxt := (hready t ht).mem hname
      obtain ⟨u, hu, hxu, -, hrow⟩ := hout.spans x (ht.related hxt)
      have hname' := (hu.name_eq ht hxu hxt).trans hname
      obtain ⟨y, hatt, hy⟩ := hsettled u x hu hxu hx
      rw [hname'] at hrow
      obtain ⟨row, hrow'⟩ := Option.isSome_iff_exists.1 hatt.1
      rw [← hy, hname'] at hrow'
      rw [hrow, rowOf, hname', htraces, hrow', Option.getD_some]
    · rw [hout.names _ fun t ht hname => hnamed ⟨t, ht, hname⟩, htraces]

/-! ## Runs -/

theorem ambiguous_mono {rs rs' : List SessionRelation} (h : ∀ r ∈ rs, r ∈ rs') (hclear : ambiguous rs' = none) :
    ambiguous rs = none := by
  cases ha : ambiguous rs with
  | none => rfl
  | some found =>
    obtain ⟨s, kind⟩ := found
    obtain ⟨-, hs⟩ := ambiguous_spec ha
    have hs' : Ambiguous rs' s := by
      rcases hs with ⟨r, hr, r', hr', hrest⟩ | ⟨r, hr, r', hr', hrest⟩
      · exact .inl ⟨r, h r hr, r', h r' hr', hrest⟩
      · exact .inr ⟨r, h r hr, r', h r' hr', hrest⟩
    exact absurd hs' (not_ambiguous hclear s)

theorem own_sublist (C : String → Prop) (relations : List SessionRelation) : (own C relations).Sublist relations :=
  List.filter_sublist

theorem within_own {observations : List SessionObservation} {relations : List SessionRelation}
    {limits : TraceJoinLimits} (C : String → Prop) (h : Within observations relations limits) :
    Within observations (own C relations) limits := by
  refine ⟨h.observations_le, (own_sublist C relations).length_le.trans h.relations_le, le_trans ?_ h.sessions_le⟩
  refine BTreeSet.size_le_of_subset fun a ha => ?_
  rw [mem_mentioned] at ha ⊢
  rcases ha with ho | ⟨r, hr, hends⟩
  · exact .inl ho
  · exact .inr ⟨r, (mem_own.1 hr).1, hends⟩

theorem projected_start {start : TraceStore} (h : start.relations.rows = []) : Projected start start := by
  refine ⟨rfl, ?_, fun hne => absurd h hne, fun _ _ => rfl, ?_⟩
  · rw [h]
    rfl
  · rw [h]
    rintro a ⟨r, hr, -⟩
    cases hr

/-- The relations of `C` that are recorded, recorded alone. -/
noncomputable def alone (C : String → Prop) (start store : TraceStore) : TraceStore :=
  (own C store.relations.rows).foldl recorded start

/-- Both sides, along a run. -/
def Paced (start store : TraceStore) : Prop :=
  Projected start store ∧ ∀ C, Closed C store.relations.rows →
    Agree C store (alone C start store) ∧ Projected start (alone C start store)

theorem Paced.call {start store : TraceStore} {r : SessionRelation} (h : Paced start store) (hclean : Clean store r)
    (hfrom : start.spans.get r.fromSession = none) (hto : start.spans.get r.toSession = none) :
    Paced start (recorded store r) := by
  rcases recorded_cases store r with hsame | ⟨hkey, hsource⟩
  · rw [hsame]
    exact h
  rcases hclean with hmem | ⟨hwithin, hclear, hjoin⟩
  · exact absurd hmem hkey
  obtain ⟨stored, hstored, hrec⟩ := recorded_of_stored hkey hsource
  obtain ⟨after, hafter, hout, hproj⟩ := h.1.step hstored hfrom hto hwithin hclear hjoin
  have hnamed : ∀ t, TraceOf stored t → Named stored t := fun t ht => (h.1.ready hstored hfrom hto hjoin ht).2
  rw [hrec after hafter]
  refine ⟨hproj, fun C hclosed => ?_⟩
  have hrows : after.relations.rows = store.relations.rows ++ [r] := by rw [hout.relations, hstored.1]
  rw [hrows] at hclosed
  obtain ⟨hagree, halone⟩ := h.2 C fun q hq => hclosed q (List.mem_append_left _ hq)
  by_cases hr : C r.fromSession
  · -- the call is recorded on the side of the component as well
    have hC : C r.toSession := (hclosed r (by simp)).1 hr
    have howned : own C (store.relations.rows ++ [r]) = (alone C start store).relations.rows ++ [r] := by
      rw [(own_concat (r := r)).1 hr, hagree.relations]
    have hkey' : r.relationKey ∉ (alone C start store).relations.keys := by
      intro hmem
      rw [Table.keys, hagree.relations] at hmem
      exact hkey (((own_sublist C _).map _).subset hmem)
    obtain ⟨stored', hstored', hrec'⟩ := recorded_of_stored hkey' hsource
    have hread : observationsRead (alone C start store) = observationsRead store :=
      observationsRead_congr hagree.observations
    have hwithin' : Within (observationsRead (alone C start store)) ((alone C start store).relations.rows ++ [r])
        .default := by
      rw [hread, ← howned]
      exact within_own C hwithin
    have hclear' : ambiguous ((alone C start store).relations.rows ++ [r]) = none := by
      rw [← howned]
      exact ambiguous_mono (fun q hq => (mem_own.1 hq).1) hclear
    have hjoin' : ∀ t t', (alone C start store).traceOf r.fromSession = some t →
        (alone C start store).traceOf r.toSession = some t' → t = t' := by
      intro t t' ht ht'
      rw [TraceStore.traceOf, hagree.spans _ hr] at ht
      rw [TraceStore.traceOf, hagree.spans _ hC] at ht'
      exact hjoin t t' ht ht'
    obtain ⟨after', hafter', hout', hproj'⟩ := halone.step hstored' hfrom hto hwithin' hclear' hjoin'
    have hnamed' : ∀ t, TraceOf stored' t → Named stored' t := fun t ht =>
      (halone.ready hstored' hfrom hto hjoin' ht).2
    have hside : alone C start after = after' := by
      rw [alone, hrows, (own_concat (r := r)).1 hr, List.foldl_append, List.foldl_cons, List.foldl_nil]
      exact hrec' after' hafter'
    rw [hside]
    exact ⟨hagree.own_call hclosed hr h.1 hfrom hto hnamed hnamed' hstored hstored' hout hout', hproj'⟩
  · have hside : alone C start after = alone C start store := by
      rw [alone, hrows, (own_concat (r := r)).2 hr, alone]
    rw [hside]
    exact ⟨hagree.other_call hclosed hr h.1 hnamed hstored hout, halone⟩

theorem run_paced {start store final : TraceStore} {calls : List SessionRelation} (h : Paced start store)
    (hfree : ∀ r ∈ calls, start.spans.get r.fromSession = none ∧ start.spans.get r.toSession = none)
    (hrun : Machine.Run (Machine.guarded Clean fun s r t => recorded s r = t) store calls final) :
    Paced start final := by
  induction hrun with
  | nil => exact h
  | @cons s t u r calls hstep _ ih =>
    obtain ⟨hclean, rfl⟩ := hstep
    obtain ⟨hfrom, hto⟩ := hfree r (by simp)
    exact ih (h.call hclean hfrom hto) fun q hq => hfree q (by simp [hq])

theorem restoreSpans_tables (spans : List SpanRow) (store : TraceStore) :
    (spans.foldl restoreSpan store).relations = store.relations ∧
      (spans.foldl restoreSpan store).observations = store.observations := by
  induction spans generalizing store with
  | nil => exact ⟨rfl, rfl⟩
  | cons span spans ih => exact ih (restoreSpan store span)

/-- A rebuild comes to its end where the projection does. -/
theorem rebuild_ok {store : TraceStore} (hclear : ambiguous store.relations.rows = none)
    (hwithin : store.relations.rows ≠ [] → Within (observationsRead store) store.relations.rows .default) :
    ∃ after, rebuild store = some (.ok after) := by
  obtain ⟨hrel, hobs⟩ := restoreSpans_tables (carriedSpans store) { store with spans := .empty, traces := .empty }
  unfold rebuild
  generalize (carriedSpans store).foldl restoreSpan { store with spans := .empty, traces := .empty } = fresh at *
  simp only at hrel hobs
  have hread := observationsRead_congr hobs
  unfold rebuildTraceProjection
  simp only [hrel]
  by_cases hne : store.relations.rows = []
  · refine ⟨fresh, ?_⟩
    rw [hne]
    rfl
  · have hin := hwithin hne
    have hperm : (relationsRead fresh).Perm store.relations.rows := hrel ▸ relationsRead_perm fresh
    rw [if_neg (not_lt.2 hin.relations_le), if_neg (by simpa using hne)]
    rcases deriveTraces_within (hin.perm (List.Perm.refl _) hperm) with ⟨s, -, hs, -⟩ | ⟨-, -, traces, hok, -⟩
    · rw [ambiguous_perm hperm, hclear] at hs
      cases hs
    · rw [hread, hok]
      exact ⟨_, rfl⟩

/-- **Components are attached**: after a run of clean calls on sessions that were attached to nothing, each
    component of the recorded relations has one trace, the one it would have alone, and a rebuild succeeds. -/
theorem components_attached {start final : TraceStore} {calls : List SessionRelation}
    (hnone : start.relations.rows = [])
    (hfree : ∀ r ∈ calls, start.spans.get r.fromSession = none ∧ start.spans.get r.toSession = none)
    (hrun : Machine.Run (Machine.guarded Clean fun s r t => recorded s r = t) start calls final) :
    (∀ a, Related final.relations.rows a → ∃ trace,
      (∀ b, Connected final.relations.rows a b → final.traceOf b = some trace) ∧
      (∀ b, Connected final.relations.rows a b →
        final.spans.get b = (alone (Connected final.relations.rows a) start final).spans.get b) ∧
      final.traces.get trace = (alone (Connected final.relations.rows a) start final).traces.get trace) ∧
    ∃ after, rebuild final = some (.ok after) := by
  have hstart : Paced start start := by
    refine ⟨projected_start hnone, fun C _ => ?_⟩
    have halone : alone C start start = start := by
      rw [alone, hnone]
      rfl
    have hown : own C start.relations.rows = start.relations.rows := by
      rw [hnone]
      rfl
    rw [halone]
    exact ⟨⟨hown.symm, rfl, fun _ _ => rfl, fun _ _ => rfl⟩, projected_start hnone⟩
  obtain ⟨hproj, hagree⟩ := run_paced hstart hfree hrun
  refine ⟨fun a ha => ?_, rebuild_ok hproj.unambiguous hproj.within⟩
  have hclosed : Closed (Connected final.relations.rows a) final.relations.rows := by
    intro r hr
    exact ⟨fun h => h.tail (linked_of_mem hr), fun h => h.tail (linked_of_mem hr).symm⟩
  obtain ⟨hboth, -⟩ := hagree _ hclosed
  obtain ⟨x, hx, hatt⟩ := hproj.attached a ha
  refine ⟨"trace-" ++ x, fun b hb => ?_, fun b hb => (hboth.spans b hb).symm, (hboth.traces x hx).symm⟩
  obtain ⟨ts, hts⟩ := hatt.2 b hb
  rw [TraceStore.traceOf, hts]
  rfl

def emptyStore : TraceStore := ⟨[], .empty, .empty, .empty⟩

def relate (key a b : String) (kind : SessionRelationKind) : SessionRelation :=
  ⟨key, a, b, kind, "transcript-sync", 1, none⟩

/-- `a` started `b`, which continued in `c`. -/
def chain : List SessionRelation := [relate "1" "a" "b" .parentChild, relate "2" "b" "c" .continuedIn]

theorem chain_run : Machine.Run (Machine.guarded Clean fun s r t => recorded s r = t) emptyStore chain
    (chain.foldl recorded emptyStore) := by
  refine .cons ⟨.inr ⟨⟨?_, ?_, ?_⟩, ?_, fun t t' h => ?_⟩, rfl⟩
    (.cons ⟨.inr ⟨⟨?_, ?_, ?_⟩, ?_, fun t t' h h' => ?_⟩, rfl⟩ (.nil _))
  any_goals decide +kernel
  · cases h
  · have hnone : (recorded emptyStore (relate "1" "a" "b" .parentChild)).traceOf "c" = none := by decide +kernel
    rw [show (relate "2" "b" "c" .continuedIn).toSession = "c" from rfl, hnone] at h'
    cases h'

theorem components_attached_chain :
    (∃ trace, ∀ b, Connected (chain.foldl recorded emptyStore).relations.rows "a" b →
      (chain.foldl recorded emptyStore).traceOf b = some trace) ∧
    ∃ after, rebuild (chain.foldl recorded emptyStore) = some (.ok after) := by
  have hrows : (chain.foldl recorded emptyStore).relations.rows = chain := by decide +kernel
  obtain ⟨hall, hrebuild⟩ := components_attached rfl (fun _ _ => ⟨rfl, rfl⟩) chain_run
  obtain ⟨trace, htrace, -⟩ := hall "a" (by rw [hrows]; exact ⟨_, List.mem_cons_self .., .inl rfl⟩)
  exact ⟨⟨trace, htrace⟩, hrebuild⟩

/-- `a` continued in two sessions, and then `d` started `e`. -/
def ambiguousFirst : List SessionRelation :=
  [relate "1" "a" "b" .continuedIn, relate "2" "a" "c" .continuedIn, relate "3" "d" "e" .parentChild]

theorem ambiguous_blocks :
    ¬ ∀ (start : TraceStore) (calls : List SessionRelation), start.relations.rows = [] →
      (∀ r ∈ calls, start.spans.get r.fromSession = none ∧ start.spans.get r.toSession = none) →
      Within (observationsRead (calls.foldl recorded start)) (calls.foldl recorded start).relations.rows .default →
      ∀ a, Related (calls.foldl recorded start).relations.rows a →
        (∀ b, Connected (calls.foldl recorded start).relations.rows a b →
          ¬ Ambiguous (calls.foldl recorded start).relations.rows b) →
        ∃ trace, ∀ b, Connected (calls.foldl recorded start).relations.rows a b →
          (calls.foldl recorded start).traceOf b = some trace := by
  intro h
  have hrows : (ambiguousFirst.foldl recorded emptyStore).relations.rows = ambiguousFirst := by decide +kernel
  have hwithin : Within (observationsRead (ambiguousFirst.foldl recorded emptyStore)) ambiguousFirst .default :=
    ⟨by decide +kernel, by decide +kernel, by decide +kernel⟩
  have hcase := h emptyStore ambiguousFirst rfl (fun _ _ => ⟨rfl, rfl⟩)
  rw [hrows] at hcase
  have hpair : ∀ b, Connected ambiguousFirst "d" b → b = "d" ∨ b = "e" := by
    intro b hb
    induction hb with
    | refl => exact .inl rfl
    | tail _ hlink ih =>
      obtain ⟨r, hr, hends⟩ := hlink
      simp only [ambiguousFirst, List.mem_cons, List.not_mem_nil, or_false] at hr
      rcases ih with rfl | rfl <;> rcases hr with rfl | rfl | rfl <;> simp [relate] at hends <;> simp [hends]
  have hclear : ∀ b, Connected ambiguousFirst "d" b → ¬ Ambiguous ambiguousFirst b := by
    rintro b hb (⟨r, hr, r', hr', hrest⟩ | ⟨r, hr, r', hr', hrest⟩)
    all_goals
      simp only [ambiguousFirst, List.mem_cons, List.not_mem_nil, or_false] at hr hr'
      rcases hpair b hb with rfl | rfl <;> rcases hr with rfl | rfl | rfl <;> rcases hr' with rfl | rfl | rfl <;>
        simp [relate] at hrest
  have hrelated : Related ambiguousFirst "d" := ⟨relate "3" "d" "e" .parentChild, by simp [ambiguousFirst], .inl rfl⟩
  obtain ⟨trace, htrace⟩ := hcase hwithin "d" hrelated hclear
  have hnone : (ambiguousFirst.foldl recorded emptyStore).traceOf "d" = none := by decide +kernel
  have hsome := htrace "d" .refl
  rw [hnone] at hsome
  cases hsome

/-- Two components that are attached before a relation joins them keep their traces. -/
example : ([relate "1" "a" "b" .samePane, relate "2" "c" "d" .samePane, relate "3" "b" "c" .samePane].foldl recorded
    emptyStore).spans.rows.map SpanRow.trace = ["trace-a", "trace-a", "trace-c", "trace-c"] := by decide +kernel

end BoopStore.Projection
