import HafleyRs.BoopStore.TraceProjection
import HafleyRs.Lib.Machine

/-!
# Which sessions are attached together

The projection writes one trace after another. A trace whose sessions are attached nowhere else keeps or gets one
name (`traceName`), its sessions one span each (`spanOf`), and the other traces do not read what it wrote
(`projectTraces_spec`). So a component is attached as it would be alone, as long as every projection comes to its end
and no relation joins two components that are attached already: `Clean`.
-/

namespace BoopStore.Projection

/-! ## One trace -/

/-- The name the projection gives a trace. -/
def traceName (store : TraceStore) (t : DerivedTrace) : String :=
  (store.existing t.sessions).head?.getD ("trace-" ++ t.rootSession)

/-- The span of a session of the trace. -/
def spanOf (observations : List SessionObservation) (store : TraceStore) (t : DerivedTrace) (session : String) :
    SpanRow :=
  ⟨session, traceName store t, derivedAttach,
    ((store.spans.get session).map SpanRow.attachedTs).getD (attachedTs observations t session)⟩

/-- The row of the trace. -/
def rowOf (observations : List SessionObservation) (store : TraceStore) (t : DerivedTrace) : TraceRow :=
  (store.traces.get (traceName store t)).getD ⟨traceName store t, t.rootSession, startedTs observations t⟩

/-- Its sessions are attached to nothing but the trace of its name, which has a row. -/
def Single (store : TraceStore) (t : DerivedTrace) : Prop :=
  ∀ b ∈ t.sessions, ∀ span, store.spans.get b = some span →
    (store.traces.get span.trace).isSome ∧ span.trace = traceName store t

theorem attachSessions_get (observations : List SessionObservation) (t : DerivedTrace) (name : String)
    (sessions : List String) (spans : Table SpanRow.session) (b : String) :
    (sessions.foldl (attachSession observations t name) spans).get b =
      if b ∈ sessions then
        some ⟨b, name, derivedAttach, ((spans.get b).map SpanRow.attachedTs).getD (attachedTs observations t b)⟩
      else spans.get b := by
  induction sessions generalizing spans with
  | nil => simp
  | cons s sessions ih =>
    rw [List.foldl_cons, ih, attachSession, Table.get_upsert]
    by_cases hs : s = b
    · subst hs
      cases hget : spans.get s with
      | none => simp
      | some old =>
        have hkey : old.session = s := Table.key_of_get hget
        simp [spanMerge, hkey]
    · have hb : b ≠ s := fun h => hs h.symm
      simp [hs, hb]

theorem Single.attached_eq {store : TraceStore} {t : DerivedTrace} (h : Single store t) {b : String}
    (hb : b ∈ t.sessions) : store.attached b = (store.spans.get b).map SpanRow.trace := by
  unfold TraceStore.attached
  cases hget : store.spans.get b with
  | none => rfl
  | some span =>
    obtain ⟨row, hrow⟩ := Option.isSome_iff_exists.1 (h b hb span hget).1
    simp [hrow]

theorem Single.existing_le {store : TraceStore} {t : DerivedTrace} (h : Single store t) :
    (store.existing t.sessions).length ≤ 1 := by
  have hall : ∀ x ∈ store.existing t.sessions, x = traceName store t := by
    intro x hx
    obtain ⟨b, hb, hattached⟩ := List.mem_filterMap.1 (List.mem_dedup.1 hx)
    rw [h.attached_eq hb, Option.map_eq_some_iff] at hattached
    obtain ⟨span, hspan, rfl⟩ := hattached
    exact (h b hb span hspan).2
  have hnodup : (store.existing t.sessions).Nodup := List.nodup_dedup _
  rcases hlist : store.existing t.sessions with _ | ⟨x, _ | ⟨y, rest⟩⟩
  · simp
  · simp
  · rw [hlist] at hall hnodup
    have hx := hall x (by simp)
    have hy := hall y (by simp)
    simp [hx, hy] at hnodup

/-- **One trace is projected**: its sessions get its span, its name the row. -/
theorem projectTrace_spec (observations : List SessionObservation) {store : TraceStore} {t : DerivedTrace}
    (h : Single store t) :
    (∀ b, (projectTrace observations store t).spans.get b =
      if b ∈ t.sessions then some (spanOf observations store t b) else store.spans.get b) ∧
    (∀ n, (projectTrace observations store t).traces.get n =
      if traceName store t = n then some (rowOf observations store t) else store.traces.get n) ∧
    (projectTrace observations store t).relations = store.relations ∧
    (projectTrace observations store t).observations = store.observations := by
  unfold projectTrace
  simp only
  rw [if_neg (not_lt.2 h.existing_le)]
  refine ⟨fun b => attachSessions_get observations t _ t.sessions store.spans b, fun n => ?_, rfl, rfl⟩
  rw [Table.get_insertOrIgnore]
  by_cases hn : traceName store t = n
  · subst hn
    rfl
  · rw [if_neg hn]
    exact if_neg hn

/-! ## All traces -/

/-- A trace is named after one of its sessions. -/
def Named (store : TraceStore) (t : DerivedTrace) : Prop := ∃ x ∈ t.sessions, traceName store t = "trace-" ++ x

theorem Named.ne {store : TraceStore} {t u : DerivedTrace} (ht : Named store t) (hu : Named store u)
    (hdisjoint : ∀ a ∈ t.sessions, a ∉ u.sessions) : traceName store t ≠ traceName store u := by
  obtain ⟨x, hx, hnamex⟩ := ht
  obtain ⟨y, hy, hnamey⟩ := hu
  rw [hnamex, hnamey]
  intro heq
  have hxy := (String.append_right_inj _).1 heq
  exact hdisjoint x hx (hxy ▸ hy)

/-- Another trace reads of the store what it read before. -/
structure SameFor (t : DerivedTrace) (p q : TraceStore) : Prop where
  spans    : ∀ b ∈ t.sessions, q.spans.get b = p.spans.get b
  attached : ∀ b ∈ t.sessions, q.attached b = p.attached b

theorem SameFor.traceName {t : DerivedTrace} {p q : TraceStore} (h : SameFor t p q) :
    traceName q t = traceName p t := by
  rw [Projection.traceName, Projection.traceName, TraceStore.existing, TraceStore.existing]
  rw [List.filterMap_congr h.attached]

theorem SameFor.spanOf {t : DerivedTrace} {p q : TraceStore} (h : SameFor t p q)
    (observations : List SessionObservation) {b : String} (hb : b ∈ t.sessions) :
    spanOf observations q t b = spanOf observations p t b := by
  rw [Projection.spanOf, Projection.spanOf, h.traceName, h.spans b hb]

theorem sameFor_projectTrace (observations : List SessionObservation) {store : TraceStore} {t u : DerivedTrace}
    (ht : Single store t) (hu : Single store u) (hdisjoint : ∀ a ∈ t.sessions, a ∉ u.sessions) :
    SameFor u store (projectTrace observations store t) := by
  obtain ⟨hspans, htraces, -, -⟩ := projectTrace_spec observations ht
  have hsame : ∀ b ∈ u.sessions, (projectTrace observations store t).spans.get b = store.spans.get b := by
    intro b hb
    rw [hspans, if_neg fun hbt => hdisjoint b hbt hb]
  refine ⟨hsame, fun b hb => ?_⟩
  rw [TraceStore.attached, TraceStore.attached, hsame b hb]
  cases hget : store.spans.get b with
  | none => rfl
  | some span =>
    obtain ⟨row, hrow⟩ := Option.isSome_iff_exists.1 (hu b hb span hget).1
    rw [Option.bind_some, Option.bind_some, htraces]
    by_cases hname : traceName store t = span.trace
    · rw [if_pos hname, hrow, Option.map_some, Option.map_some]
    · rw [if_neg hname]

theorem Single.of_sameFor {t : DerivedTrace} {p q : TraceStore} (h : Single p t) (hsame : SameFor t p q)
    (hrows : ∀ n, (p.traces.get n).isSome → (q.traces.get n).isSome) : Single q t := by
  intro b hb span hspan
  rw [hsame.spans b hb] at hspan
  obtain ⟨hrow, hname⟩ := h b hb span hspan
  exact ⟨hrows _ hrow, hname.trans hsame.traceName.symm⟩

/-- **The projection**: every trace as if it were the only one. -/
theorem projectTraces_spec (observations : List SessionObservation) (traces : List DerivedTrace) {store : TraceStore}
    (hdisjoint : traces.Pairwise fun t u => ∀ a ∈ t.sessions, a ∉ u.sessions) (hsingle : ∀ t ∈ traces, Single store t)
    (hnamed : ∀ t ∈ traces, Named store t) :
    let after := traces.foldl (projectTrace observations) store
    (∀ t ∈ traces, (∀ b ∈ t.sessions, after.spans.get b = some (spanOf observations store t b)) ∧
      after.traces.get (traceName store t) = some (rowOf observations store t)) ∧
    (∀ b, (∀ t ∈ traces, b ∉ t.sessions) → after.spans.get b = store.spans.get b) ∧
    (∀ n, (∀ t ∈ traces, traceName store t ≠ n) → after.traces.get n = store.traces.get n) ∧
    after.relations = store.relations ∧ after.observations = store.observations := by
  intro after
  induction traces generalizing store with
  | nil => exact ⟨fun t ht => (List.not_mem_nil ht).elim, fun _ _ => rfl, fun _ _ => rfl, rfl, rfl⟩
  | cons t traces ih =>
    obtain ⟨hhead, htail⟩ := List.pairwise_cons.1 hdisjoint
    have ht := hsingle t (by simp)
    obtain ⟨hspans, htraces, hrelations, hobservations⟩ := projectTrace_spec observations ht
    have hsame : ∀ u ∈ traces, SameFor u store (projectTrace observations store t) := fun u hu =>
      sameFor_projectTrace observations ht (hsingle u (by simp [hu])) (hhead u hu)
    have hrows : ∀ n, (store.traces.get n).isSome → ((projectTrace observations store t).traces.get n).isSome := by
      intro n hn
      rw [htraces]
      split
      · rfl
      · exact hn
    have hne : ∀ u ∈ traces, traceName store t ≠ traceName store u := fun u hu =>
      (hnamed t (by simp)).ne (hnamed u (by simp [hu])) (hhead u hu)
    obtain ⟨heach, hother, hname, hrel, hobs⟩ := ih htail
      (fun u hu => (hsingle u (by simp [hu])).of_sameFor (hsame u hu) hrows)
      (fun u hu => by
        obtain ⟨x, hx, hxname⟩ := hnamed u (by simp [hu])
        exact ⟨x, hx, (hsame u hu).traceName.trans hxname⟩)
    have hnames : ∀ u ∈ traces, traceName (projectTrace observations store t) u = traceName store u := fun u hu =>
      (hsame u hu).traceName
    refine ⟨fun u hu => ?_, fun b hb => ?_, fun n hn => ?_, hrel.trans hrelations, hobs.trans hobservations⟩
    · rcases List.mem_cons.1 hu with rfl | hu
      · refine ⟨fun b hb => ?_, ?_⟩
        · rw [show after.spans.get b = _ from hother b fun v hv => hhead v hv b hb, hspans, if_pos hb]
        · have hfar : ∀ v ∈ traces, traceName (projectTrace observations store u) v ≠ traceName store u := by
            intro v hv
            rw [hnames v hv]
            exact (hne v hv).symm
          rw [show after.traces.get _ = _ from hname _ hfar, htraces, if_pos rfl]
      · obtain ⟨hspan, hrow⟩ := heach u hu
        refine ⟨fun b hb => ?_, ?_⟩
        · rw [show after.spans.get b = _ from hspan b hb, (hsame u hu).spanOf observations hb]
        · rw [hnames u hu] at hrow
          rw [show after.traces.get _ = _ from hrow, rowOf, rowOf, hnames u hu, htraces, if_neg (hne u hu)]
    · rw [show after.spans.get b = _ from hother b fun v hv => hb v (by simp [hv]), hspans, if_neg (hb t (by simp))]
    · have hfar : ∀ v ∈ traces, traceName (projectTrace observations store t) v ≠ n := by
        intro v hv
        rw [hnames v hv]
        exact hn v (by simp [hv])
      rw [show after.traces.get n = _ from hname n hfar, htraces, if_neg (hn t (by simp))]

/-! ## Components, when a relation comes in -/

def Related (relations : List SessionRelation) (a : String) : Prop :=
  ∃ r ∈ relations, r.fromSession = a ∨ r.toSession = a

theorem linked_mono {rs rs' : List SessionRelation} (h : ∀ r ∈ rs, r ∈ rs') {a b : String} (hab : Linked rs a b) :
    Linked rs' a b := by
  obtain ⟨r, hr, hends⟩ := hab
  exact ⟨r, h r hr, hends⟩

theorem connected_mono {rs rs' : List SessionRelation} (h : ∀ r ∈ rs, r ∈ rs') {a b : String}
    (hab : Connected rs a b) : Connected rs' a b := by
  induction hab with
  | refl => exact .refl
  | tail _ hlink ih => exact ih.tail (linked_mono h hlink)

theorem linked_related {rs : List SessionRelation} {a b : String} (h : Linked rs a b) : Related rs a := by
  obtain ⟨r, hr, ⟨ha, -⟩ | ⟨ha, -⟩⟩ := h
  · exact ⟨r, hr, .inl ha⟩
  · exact ⟨r, hr, .inr ha⟩

theorem connected_eq_of_not_related {rs : List SessionRelation} {a b : String} (h : Connected rs a b)
    (ha : ¬ Related rs a) : b = a := by
  cases Relation.ReflTransGen.cases_head h with
  | inl heq => exact heq.symm
  | inr hstep =>
    obtain ⟨c, hlink, -⟩ := hstep
    exact absurd (linked_related hlink) ha

theorem Related.connected {rs : List SessionRelation} {a b : String} (ha : Related rs a) (h : Connected rs a b) :
    Related rs b := by
  cases Relation.ReflTransGen.cases_tail h with
  | inl heq => exact heq ▸ ha
  | inr hstep =>
    obtain ⟨c, -, hlink⟩ := hstep
    exact linked_related hlink.symm

/-- A new relation joins the components of its two sessions, and no others. -/
theorem connected_concat {rs : List SessionRelation} {r : SessionRelation} {a b : String}
    (h : Connected (rs ++ [r]) a b) :
    Connected rs a b ∨ (Connected rs a r.fromSession ∨ Connected rs a r.toSession) ∧
      (Connected rs r.fromSession b ∨ Connected rs r.toSession b) := by
  induction h with
  | refl => exact .inl .refl
  | @tail c d _ hlink ih =>
    obtain ⟨r', hr', hends⟩ := hlink
    rcases List.mem_append.1 hr' with hold | hnew
    · have hstep : Linked rs c d := ⟨r', hold, hends⟩
      rcases ih with hac | ⟨ha, hc | hc⟩
      · exact .inl (hac.tail hstep)
      · exact .inr ⟨ha, .inl (hc.tail hstep)⟩
      · exact .inr ⟨ha, .inr (hc.tail hstep)⟩
    · obtain rfl := List.mem_singleton.1 hnew
      have hside : Connected rs a r'.fromSession ∨ Connected rs a r'.toSession := by
        rcases ih with hac | ⟨ha, -⟩
        · rcases hends with ⟨rfl, -⟩ | ⟨rfl, -⟩
          · exact .inl hac
          · exact .inr hac
        · exact ha
      refine .inr ⟨hside, ?_⟩
      rcases hends with ⟨-, rfl⟩ | ⟨-, rfl⟩
      · exact .inr .refl
      · exact .inl .refl

theorem mem_concat {rs : List SessionRelation} (r : SessionRelation) : ∀ q ∈ rs, q ∈ rs ++ [r] :=
  fun _ hq => List.mem_append_left _ hq

theorem linked_concat (rs : List SessionRelation) (r : SessionRelation) :
    Linked (rs ++ [r]) r.fromSession r.toSession := linked_of_mem (by simp)

/-- The component of the new relation's sessions. -/
theorem connected_concat_ends {rs : List SessionRelation} {r : SessionRelation} {b : String} :
    Connected (rs ++ [r]) r.fromSession b ↔ Connected rs r.fromSession b ∨ Connected rs r.toSession b := by
  constructor
  · intro h
    rcases connected_concat h with h | ⟨-, h⟩
    · exact .inl h
    · exact h
  · rintro (h | h)
    · exact connected_mono (mem_concat r) h
    · exact (Relation.ReflTransGen.single (linked_concat rs r)).trans (connected_mono (mem_concat r) h)

/-- The components without its sessions stay. -/
theorem connected_concat_apart {rs : List SessionRelation} {r : SessionRelation} {a b : String}
    (ha : ¬ Connected (rs ++ [r]) a r.fromSession) : Connected (rs ++ [r]) a b ↔ Connected rs a b := by
  refine ⟨fun h => ?_, fun h => connected_mono (mem_concat r) h⟩
  rcases connected_concat h with h | ⟨hfrom | hto, -⟩
  · exact h
  · exact absurd (connected_mono (mem_concat r) hfrom) ha
  · exact absurd ((connected_mono (mem_concat r) hto).tail (linked_concat rs r).symm) ha

/-! ## The whole projection -/

theorem relationsRead_perm (store : TraceStore) : (relationsRead store).Perm store.relations.rows :=
  List.perm_insertionSort _ _

theorem connected_read (store : TraceStore) : Connected (relationsRead store) = Connected store.relations.rows :=
  connected_perm (relationsRead_perm store)

/-- A trace of the store: what `derive_traces` makes of its tables. -/
def TraceOf (store : TraceStore) (t : DerivedTrace) : Prop :=
  IsTrace (observationsRead store) (relationsRead store) t ∧ t.evidence ≠ []

theorem TraceOf.component {store : TraceStore} {t : DerivedTrace} (h : TraceOf store t) {a b : String}
    (ha : a ∈ t.sessions) : b ∈ t.sessions ↔ Connected store.relations.rows a b := by
  rw [h.1.component a ha b, connected_read]

/-- The evidence is a relation of the trace. -/
theorem TraceOf.relation {store : TraceStore} {t : DerivedTrace} (h : TraceOf store t) :
    ∃ r ∈ store.relations.rows, r.fromSession ∈ t.sessions := by
  obtain ⟨r, hr⟩ := List.exists_mem_of_ne_nil _ h.2
  rw [h.1.evidence] at hr
  obtain ⟨hmem, hin⟩ := List.mem_filter.1 hr
  exact ⟨r, (relationsRead_perm store).mem_iff.1 hmem, of_decide_eq_true hin⟩

theorem TraceOf.related {store : TraceStore} {t : DerivedTrace} (h : TraceOf store t) {a : String}
    (ha : a ∈ t.sessions) : Related store.relations.rows a := by
  obtain ⟨r, hr, hin⟩ := h.relation
  exact Related.connected ⟨r, hr, .inl rfl⟩ ((h.component hin).1 ha)

/-- **`rebuild_trace_projection` (:5)**, where it is within the limits and not ambiguous. -/
theorem rebuildTraceProjection_spec {store : TraceStore} (hne : store.relations.rows ≠ [])
    (hwithin : Within (observationsRead store) store.relations.rows .default)
    (hclear : ambiguous store.relations.rows = none)
    (hready : ∀ t, TraceOf store t → Single store t ∧ Named store t) :
    ∃ after, rebuildTraceProjection store = some (.ok after) ∧
      (∀ a, Related store.relations.rows a → ∃ t, TraceOf store t ∧ a ∈ t.sessions ∧
        (∀ b ∈ t.sessions, after.spans.get b = some (spanOf (observationsRead store) store t b)) ∧
        after.traces.get (traceName store t) = some (rowOf (observationsRead store) store t)) ∧
      (∀ b, ¬ Related store.relations.rows b → after.spans.get b = store.spans.get b) ∧
      (∀ n, (∀ t, TraceOf store t → traceName store t ≠ n) → after.traces.get n = store.traces.get n) ∧
      after.relations = store.relations ∧ after.observations = store.observations := by
  have hperm := relationsRead_perm store
  have hambiguous : ambiguous (relationsRead store) = none := by rw [ambiguous_perm hperm, hclear]
  rcases deriveTraces_within (hwithin.perm (List.Perm.refl _) hperm) with ⟨s, -, hs, -⟩ | ⟨-, -, traces, hok, hall⟩
  · rw [hs] at hambiguous
    cases hambiguous
  set kept := traces.filter fun trace => !trace.evidence.isEmpty with hkept
  have hof : ∀ t ∈ kept, TraceOf store t := by
    intro t ht
    obtain ⟨hmem, hsome⟩ := List.mem_filter.1 ht
    exact ⟨hall.each t hmem, by simpa using hsome⟩
  have hmem : ∀ t, TraceOf store t → ∃ u ∈ kept, ∃ a, a ∈ t.sessions ∧ a ∈ u.sessions := by
    intro t ht
    obtain ⟨r, hr, hin⟩ := ht.relation
    have hmentioned : r.fromSession ∈ mentioned (observationsRead store) (relationsRead store) :=
      mem_mentioned.2 (.inr ⟨r, hperm.mem_iff.2 hr, .inl rfl⟩)
    obtain ⟨u, hu, hau⟩ := (hall.covers _).1 hmentioned
    refine ⟨u, List.mem_filter.2 ⟨hu, ?_⟩, r.fromSession, hin, hau⟩
    have hev : r ∈ u.evidence := by
      rw [(hall.each u hu).evidence]
      exact List.mem_filter.2 ⟨hperm.mem_iff.2 hr, decide_eq_true hau⟩
    cases hlist : u.evidence with
    | nil => rw [hlist] at hev; cases hev
    | cons => rfl
  have hcover : ∀ a, Related store.relations.rows a → ∃ t ∈ kept, a ∈ t.sessions := by
    rintro a ⟨r, hr, hends⟩
    have hlink : Connected (relationsRead store) r.fromSession a := by
      rcases hends with rfl | rfl
      · exact .refl
      · exact .single (linked_of_mem (hperm.mem_iff.2 hr))
    have hmentioned : r.fromSession ∈ mentioned (observationsRead store) (relationsRead store) :=
      mem_mentioned.2 (.inr ⟨r, hperm.mem_iff.2 hr, .inl rfl⟩)
    obtain ⟨t, ht, hin⟩ := (hall.covers _).1 hmentioned
    have hev : t.evidence ≠ [] := by
      rw [(hall.each t ht).evidence]
      exact List.ne_nil_of_mem (List.mem_filter.2 ⟨hperm.mem_iff.2 hr, decide_eq_true hin⟩)
    exact ⟨t, List.mem_filter.2 ⟨ht, by simpa using hev⟩, ((hall.each t ht).component _ hin a).2 hlink⟩
  obtain ⟨heach, hother, hname, hrel, hobs⟩ := projectTraces_spec (observationsRead store) kept
    (hall.disjoint.filter _) (fun t ht => (hready t (hof t ht)).1) (fun t ht => (hready t (hof t ht)).2)
  refine ⟨_, ?_, fun a ha => ?_, fun b hb => ?_, fun n hn => ?_, hrel, hobs⟩
  · unfold rebuildTraceProjection
    simp only
    rw [if_neg (not_lt.2 hwithin.relations_le), if_neg (by simpa using hne), hok]
    rfl
  · obtain ⟨t, ht, hin⟩ := hcover a ha
    exact ⟨t, hof t ht, hin, heach t ht⟩
  · exact hother b fun t ht hin => hb ((hof t ht).related hin)
  · exact hname n fun t ht => hn t (hof t ht)

end BoopStore.Projection
