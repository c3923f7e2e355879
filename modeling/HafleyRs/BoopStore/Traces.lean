import HafleyRs.BoopStore.TraceIdentity

/-!
# Traces are the components (`crates/boop-store/src/0_trace_identity.rs`)

`IsTrace` says what one trace is, `Partition` what the whole answer is. The answer to reordered inputs is the same
up to the order of the evidence, since a `Partition` is determined by the classes (`Partition.unique`).
-/

namespace BoopStore

/-! ## Ambiguity -/

/-- Two distinct `continued-in` endpoints of one session on the side `near`. -/
def TwoEndpoints (near far : SessionRelation → String) (relations : List SessionRelation) (session : String) : Prop :=
  ∃ r ∈ relations, ∃ r' ∈ relations, r.kind = .continuedIn ∧ r'.kind = .continuedIn ∧ near r = session ∧
    near r' = session ∧ far r ≠ far r'

def Ambiguous (relations : List SessionRelation) (session : String) : Prop :=
  TwoEndpoints (·.toSession) (·.fromSession) relations session ∨
    TwoEndpoints (·.fromSession) (·.toSession) relations session

theorem endpoints_get {near far : SessionRelation → String} {relations : List SessionRelation}
    {key : String ×ₗ SessionRelationKind} {e : BTreeSet String}
    (h : (endpoints near far relations)[key]? = some e) (b : String) :
    b ∈ e ↔ ∃ r ∈ relations, toLex (near r, r.kind) = key ∧ far r = b := by
  rw [endpoints, BTreeMap.getElem?_group] at h
  by_cases hnil : relations.filter (fun r => toLex (near r, r.kind) = key) = []
  · rw [if_pos hnil] at h
    cases h
  · rw [if_neg hnil] at h
    obtain rfl := Option.some.inj h
    rw [BTreeSet.mem_foldl_insert]
    simp [and_assoc]

theorem endpoints_isSome {near far : SessionRelation → String} {relations : List SessionRelation} {r : SessionRelation}
    (hr : r ∈ relations) : ∃ e, (endpoints near far relations)[toLex (near r, r.kind)]? = some e := by
  have hne : relations.filter (fun r' => toLex (near r', r'.kind) = toLex (near r, r.kind)) ≠ [] :=
    List.ne_nil_of_mem (List.mem_filter.2 ⟨hr, by simp⟩)
  rw [endpoints, BTreeMap.getElem?_group, if_neg hne]
  exact ⟨_, rfl⟩

theorem mem_endpoints_iff {near far : SessionRelation → String} {relations : List SessionRelation} {session : String} :
    (∃ e ∈ (endpoints near far relations).toList, ofLex e.1 = (session, .continuedIn) ∧ 1 < e.2.size) ↔
      TwoEndpoints near far relations session := by
  constructor
  · rintro ⟨⟨key, e⟩, he, hkey, hsize⟩
    have hget := endpoints_get (BTreeMap.mem_toList.1 he)
    obtain ⟨a, ha, b, hb, hab⟩ := BTreeSet.one_lt_size.1 hsize
    obtain ⟨r, hr, hrkey, rfl⟩ := (hget a).1 ha
    obtain ⟨r', hr', hrkey', rfl⟩ := (hget b).1 hb
    have h1 : (near r, r.kind) = (session, .continuedIn) := (congrArg ofLex hrkey).trans hkey
    have h2 : (near r', r'.kind) = (session, .continuedIn) := (congrArg ofLex hrkey').trans hkey
    obtain ⟨h1n, h1k⟩ := Prod.mk.inj h1
    obtain ⟨h2n, h2k⟩ := Prod.mk.inj h2
    exact ⟨r, hr, r', hr', h1k, h2k, h1n, h2n, hab⟩
  · rintro ⟨r, hr, r', hr', hk, hk', hn, hn', hne⟩
    obtain ⟨e, he⟩ := @endpoints_isSome near far relations r hr
    have hkey : toLex (near r', r'.kind) = toLex (near r, r.kind) := by rw [hn, hn', hk, hk']
    refine ⟨(_, e), BTreeMap.mem_toList.2 he, by simp [hn, hk], BTreeSet.one_lt_size.2 ?_⟩
    exact ⟨far r, (endpoints_get he _).2 ⟨r, hr, rfl, rfl⟩, far r', (endpoints_get he _).2 ⟨r', hr', hkey, rfl⟩, hne⟩

theorem ambiguous_spec {relations : List SessionRelation} {session : String} {kind : SessionRelationKind}
    (h : ambiguous relations = some (session, kind)) : kind = .continuedIn ∧ Ambiguous relations session := by
  obtain ⟨e, he, hkey⟩ := Option.map_eq_some_iff.1 h
  have hmem := List.mem_append.1 (List.mem_of_find?_eq_some he)
  have hp := List.find?_some he
  simp only [Bool.and_eq_true, decide_eq_true_eq] at hp
  obtain ⟨hk, hsize⟩ := hp
  rw [hkey] at hk
  obtain rfl : kind = .continuedIn := hk
  refine ⟨rfl, hmem.imp (fun hin => ?_) fun hin => ?_⟩
  · exact mem_endpoints_iff.1 ⟨e, hin, hkey, hsize⟩
  · exact mem_endpoints_iff.1 ⟨e, hin, hkey, hsize⟩

theorem not_ambiguous {relations : List SessionRelation} (h : ambiguous relations = none) (session : String) :
    ¬ Ambiguous relations session := by
  have hnone := List.find?_eq_none.1 (Option.map_eq_none_iff.1 h)
  have hall : ∀ e ∈ (incoming relations).toList ++ (outgoing relations).toList,
      ¬ (ofLex e.1 = (session, .continuedIn) ∧ 1 < e.2.size) := by
    rintro e he ⟨hkey, hsize⟩
    exact hnone e he (by simp [hkey, hsize])
  rintro (htwo | htwo)
  · obtain ⟨e, he, h⟩ := mem_endpoints_iff.2 htwo
    exact hall e (List.mem_append_left _ he) h
  · obtain ⟨e, he, h⟩ := mem_endpoints_iff.2 htwo
    exact hall e (List.mem_append_right _ he) h

/-! ## One trace -/

/-- When a session was first observed; one never observed counts as observed last of all. -/
def firstSeen (observations : List SessionObservation) (session : String) : U64 :=
  ((observations.filter fun o => o.sessionId = session).map (·.observedAtMs)).foldl min U64.max

theorem earliest_eq (observations : List SessionObservation) (session : String) :
    (earliest observations)[session]?.getD U64.max = firstSeen observations session := by
  have hfold : ∀ (m : BTreeMap String U64), (observations.foldl (fun m o => m.alter o.sessionId fun seen =>
      some (seen.elim o.observedAtMs fun seen => min seen o.observedAtMs)) m)[session]?.getD U64.max =
      ((observations.filter fun o => o.sessionId = session).map (·.observedAtMs)).foldl min
        (m[session]?.getD U64.max) := by
    induction observations with
    | nil => simp
    | cons o observations ih =>
      intro m
      rw [List.foldl_cons, ih, BTreeMap.getElem?_alter]
      by_cases ho : o.sessionId = session
      · cases hm : m[session]? with
        | none =>
          have hmin : min U64.max o.observedAtMs = o.observedAtMs := min_eq_right (Fin.le_last _)
          simp [ho, hm, hmin]
        | some t => simp [ho, hm]
      · simp [ho]
  exact (hfold ∅).trans (by simp [firstSeen])

structure IsTrace (observations : List SessionObservation) (relations : List SessionRelation) (t : DerivedTrace) :
    Prop where
  sorted    : t.sessions.Pairwise (· < ·)
  component : ∀ a ∈ t.sessions, ∀ b, b ∈ t.sessions ↔ Connected relations a b
  root_mem  : t.rootSession ∈ t.sessions
  root_le   : ∀ a ∈ t.sessions, toLex (firstSeen observations t.rootSession, t.rootSession) ≤
    toLex (firstSeen observations a, a)
  evidence  : t.evidence = relations.filter fun r => decide (r.fromSession ∈ t.sessions)

theorem rootSession_spec (observations : List SessionObservation) {component : BTreeSet String} {a : String}
    (ha : a ∈ component) : rootSession (earliest observations) component ∈ component ∧ ∀ b ∈ component,
      toLex (firstSeen observations (rootSession (earliest observations) component),
        rootSession (earliest observations) component) ≤ toLex (firstSeen observations b, b) := by
  have hne : component.toList.argmin (fun s => toLex ((earliest observations)[s]?.getD U64.max, s)) ≠ none := by
    rw [Ne, List.argmin_eq_none]
    exact List.ne_nil_of_mem (BTreeSet.mem_toList.2 ha)
  obtain ⟨m, hm⟩ := Option.ne_none_iff_exists'.1 hne
  have hroot : rootSession (earliest observations) component = m := by rw [rootSession, hm, Option.getD_some]
  rw [hroot]
  refine ⟨BTreeSet.mem_toList.1 (List.argmin_mem hm), fun b hb => ?_⟩
  have hle := List.le_of_mem_argmin (BTreeSet.mem_toList.2 hb) hm
  rwa [earliest_eq, earliest_eq] at hle

/-- Indices in order, read back as relations. -/
theorem filterMap_indexes {A : Type} {l : List A} {p : A → Bool} {is : BTreeSet Nat}
    (h : ∀ i, i ∈ is ↔ ∃ a, l[i]? = some a ∧ p a = true) : is.toList.filterMap (fun i => l[i]?) = l.filter p := by
  have hsorted : (l.zipIdx.map (·.2)).Pairwise (· < ·) := by
    rw [List.zipIdx_map_snd]
    exact List.pairwise_lt_range'
  have hindexes : is.toList = (l.zipIdx.filter fun x => p x.1).map (·.2) := by
    refine eq_of_sortedByKey id (fun _ _ _ _ h => h) ((BTreeSet.toList_sorted is).imp fun h => h.le) ?_ ?_
    · exact List.pairwise_map.2 ((List.Pairwise.filter _ (List.pairwise_map.1 hsorted)).imp fun h => h.le)
    · have hnodup : ((l.zipIdx.filter fun x => p x.1).map (·.2)).Nodup :=
        List.Nodup.sublist (List.filter_sublist.map _) (hsorted.imp fun h => h.ne)
      rw [List.perm_ext_iff_of_nodup (BTreeSet.toList_nodup is) hnodup]
      intro i
      rw [BTreeSet.mem_toList, h, List.mem_map]
      constructor
      · rintro ⟨a, ha, hp⟩
        exact ⟨(a, i), List.mem_filter.2 ⟨List.mem_zipIdx_iff_getElem?.2 ha, hp⟩, rfl⟩
      · rintro ⟨⟨a, j⟩, hj, rfl⟩
        obtain ⟨hmem, hp⟩ := List.mem_filter.1 hj
        exact ⟨a, List.mem_zipIdx_iff_getElem?.1 hmem, hp⟩
  have hread : ∀ xs : List (A × Nat), (∀ x ∈ xs, l[x.2]? = some x.1) →
      (xs.map (·.2)).filterMap (fun i => l[i]?) = xs.map (·.1) := by
    intro xs hxs
    induction xs with
    | nil => rfl
    | cons x xs ih =>
      rw [List.map_cons, List.filterMap_cons, hxs x (by simp), ih fun y hy => hxs y (by simp [hy]), List.map_cons]
  rw [hindexes, hread _ fun x hx => List.mem_zipIdx_iff_getElem?.1 (List.mem_filter.1 hx).1]
  have hfst : (l.zipIdx.filter fun x => p x.1).map (·.1) = (l.zipIdx.map (·.1)).filter p := by
    rw [List.filter_map]
    rfl
  rw [hfst, List.zipIdx_map_fst]

/-! ## All traces -/

/-- The loop's invariant: finished traces and sessions not yet seen. -/
structure Collected (observations : List SessionObservation) (relations : List SessionRelation)
    (unseen : BTreeSet String) (traces : List DerivedTrace) : Prop where
  each     : ∀ t ∈ traces, IsTrace observations relations t
  disjoint : traces.Pairwise fun t u => ∀ a ∈ t.sessions, a ∉ u.sessions
  covers   : ∀ a, a ∈ mentioned observations relations ↔ a ∈ unseen ∨ ∃ t ∈ traces, a ∈ t.sessions
  apart    : ∀ a ∈ unseen, ∀ t ∈ traces, a ∉ t.sessions

/-- A component is disjoint from a trace that does not hold its seed. -/
theorem IsTrace.apart {observations : List SessionObservation} {relations : List SessionRelation} {t : DerivedTrace}
    (h : IsTrace observations relations t) {seed a : String} (hseed : seed ∉ t.sessions)
    (ha : Connected relations seed a) : a ∉ t.sessions := fun hin =>
  hseed ((h.component a hin seed).2 ha.symm)

theorem Collected.next {observations : List SessionObservation} {relations : List SessionRelation}
    {unseen : BTreeSet String} {traces : List DerivedTrace} (h : Collected observations relations unseen traces)
    {seed : String} (hseed : seed ∈ unseen) {w : Walk} (hw : ∀ a, a ∈ w.component ↔ Connected relations seed a)
    (he : ∀ i, i ∈ w.evidenceIndexes ↔ ∃ r, relations[i]? = some r ∧ r.fromSession ∈ w.component) :
    Collected observations relations
      (w.component.toList.foldl (fun unseen session => unseen.erase session) (unseen.erase seed))
      (traces ++ [
        { sessions := w.component.toList
          rootSession := rootSession (earliest observations) w.component
          evidence := w.evidenceIndexes.toList.filterMap fun index => relations[index]? }]) := by
  have hseedin : seed ∈ w.component := (hw seed).2 .refl
  have hleft : ∀ a, a ∈ w.component.toList.foldl (fun unseen session => unseen.erase session) (unseen.erase seed) ↔
      a ∈ unseen ∧ a ∉ w.component := by
    intro a
    rw [BTreeSet.mem_foldl_erase, Std.ExtTreeSet.mem_erase, BTreeSet.mem_toList]
    constructor
    · rintro ⟨⟨-, ha⟩, hn⟩
      exact ⟨ha, hn⟩
    · rintro ⟨ha, hn⟩
      refine ⟨⟨fun heq => hn ?_, ha⟩, hn⟩
      rwa [← compare_eq_iff_eq.1 heq]
  have hnew : ∀ a ∈ w.component, ∀ t ∈ traces, a ∉ t.sessions := fun a ha t ht =>
    (h.each t ht).apart (h.apart seed hseed t ht) ((hw a).1 ha)
  refine ⟨fun t ht => ?_, ?_, fun a => ?_, fun a ha t ht => ?_⟩
  · rcases List.mem_append.1 ht with ht | ht
    · exact h.each t ht
    · obtain rfl := List.mem_singleton.1 ht
      obtain ⟨hroot, hle⟩ := rootSession_spec observations hseedin
      refine ⟨BTreeSet.toList_sorted _, fun a ha b => ?_, BTreeSet.mem_toList.2 hroot,
        fun a ha => hle a (BTreeSet.mem_toList.1 ha), ?_⟩
      · have ha := (hw a).1 (BTreeSet.mem_toList.1 ha)
        rw [BTreeSet.mem_toList, hw]
        exact ⟨fun hb => ha.symm.trans hb, fun hb => ha.trans hb⟩
      · exact filterMap_indexes fun i => (he i).trans (by simp)
  · refine List.pairwise_append.2 ⟨h.disjoint, List.pairwise_singleton _ _, fun t ht u hu a ha => ?_⟩
    obtain rfl := List.mem_singleton.1 hu
    exact fun hin => hnew a (BTreeSet.mem_toList.1 hin) t ht ha
  · rw [h.covers, hleft]
    simp only [List.mem_append, List.mem_singleton, or_and_right, exists_or, exists_eq_left, BTreeSet.mem_toList]
    by_cases ha : a ∈ w.component
    · simp only [ha, not_true, and_false, or_true, iff_true]
      have hmention := ((hw a).1 ha).mentioned ((h.covers seed).2 (.inl hseed))
      exact (h.covers a).1 hmention
    · simp [ha]
  · obtain ⟨hin, hn⟩ := (hleft a).1 ha
    rcases List.mem_append.1 ht with ht | ht
    · exact h.apart a hin t ht
    · obtain rfl := List.mem_singleton.1 ht
      exact fun ha => hn (BTreeSet.mem_toList.1 ha)

theorem collect_spec {observations : List SessionObservation} {relations : List SessionRelation}
    {limits : TraceJoinLimits} (hlimit : (mentioned observations relations).size ≤ limits.maxSessions) :
    ∀ {fuel : Nat} {unseen : BTreeSet String} {traces : List DerivedTrace},
      Collected observations relations unseen traces → unseen.size < fuel →
        ∃ traces', collect observations relations limits fuel unseen traces = some (.ok traces') ∧
          Collected observations relations ∅ traces'
  | 0, _, _, _, hfuel => absurd hfuel (by omega)
  | fuel + 1, unseen, traces, h, hfuel => by
    rw [collect]
    cases hlist : unseen.toList with
    | nil =>
      have hempty : unseen = ∅ := Std.ExtTreeSet.ext_mem fun a => by
        rw [← BTreeSet.mem_toList, hlist]
        simp
      exact ⟨traces, rfl, hempty ▸ h⟩
    | cons seed rest =>
      have hseed : seed ∈ unseen := BTreeSet.mem_toList.1 (by simp [hlist])
      have hmention : seed ∈ mentioned observations relations := (h.covers seed).2 (.inl hseed)
      obtain ⟨w, hw, hcomponent, hevidence⟩ := @grow_component relations limits seed _
        (fun a ha => ha.mentioned hmention) hlimit
      simp only [hw]
      have hnext := h.next hseed hcomponent hevidence
      refine collect_spec hlimit hnext ?_
      -- the seed itself has gone
      refine lt_of_lt_of_le ?_ (Nat.lt_succ_iff.1 hfuel)
      rw [← BTreeSet.length_toList, ← BTreeSet.length_toList, hlist, List.length_cons, Nat.lt_succ_iff]
      refine ((BTreeSet.toList_nodup _).subperm fun a ha => ?_).length_le
      obtain ⟨⟨hne, ha⟩, -⟩ : (compare seed a ≠ .eq ∧ a ∈ unseen) ∧ _ := by
        rw [BTreeSet.mem_toList, BTreeSet.mem_foldl_erase, Std.ExtTreeSet.mem_erase] at ha
        exact ha
      have hmem := BTreeSet.mem_toList.2 ha
      rw [hlist, List.mem_cons] at hmem
      rcases hmem with rfl | hmem
      · exact absurd (compare_eq_iff_eq.2 rfl) hne
      · exact hmem

/-! ## The answer -/

/-- **The partition** of the named sessions into traces. -/
structure Partition (observations : List SessionObservation) (relations : List SessionRelation)
    (traces : List DerivedTrace) : Prop where
  each     : ∀ t ∈ traces, IsTrace observations relations t
  disjoint : traces.Pairwise fun t u => ∀ a ∈ t.sessions, a ∉ u.sessions
  covers   : ∀ a, a ∈ mentioned observations relations ↔ ∃ t ∈ traces, a ∈ t.sessions
  evidence : (traces.flatMap (·.evidence)).Perm relations
  sorted   : traces.Pairwise fun t u => t.rootSession < u.rootSession

/-- Filtering by disjoint classes that cover a list splits it. -/
theorem flatMap_filter_perm {A B : Type} (p : B → A → Bool) {bs : List B} {l : List A}
    (hdisjoint : bs.Pairwise fun b c => ∀ a ∈ l, p b a = true → p c a = false)
    (hcovers : ∀ a ∈ l, ∃ b ∈ bs, p b a = true) :
    (bs.flatMap fun b => l.filter (p b)).Perm l := by
  induction bs generalizing l with
  | nil =>
    cases l with
    | nil => simp
    | cons a l => simpa using hcovers a (by simp)
  | cons b bs ih =>
    obtain ⟨hb, hbs⟩ := List.pairwise_cons.1 hdisjoint
    have hrest : (bs.flatMap fun c => l.filter (p c)) =
        bs.flatMap fun c => (l.filter fun a => !p b a).filter (p c) := by
      refine List.flatMap_congr fun c hc => ?_
      rw [List.filter_filter]
      refine List.filter_congr fun a ha => ?_
      cases hba : p b a with
      | false => simp
      | true => simp [hb c hc a ha hba]
    have hih := @ih (l.filter fun a => !p b a)
      (hbs.imp fun h a ha => h a (List.mem_filter.1 ha).1) fun a ha => by
        obtain ⟨hin, hnot⟩ := List.mem_filter.1 ha
        obtain ⟨c, hc, hca⟩ := hcovers a hin
        rcases List.mem_cons.1 hc with rfl | hc
        · simp [hca] at hnot
        · exact ⟨c, hc, hca⟩
    rw [List.flatMap_cons, hrest]
    exact (hih.append_left _).trans (List.filter_append_perm (p b) l)

theorem Collected.partition {observations : List SessionObservation} {relations : List SessionRelation}
    {traces : List DerivedTrace} (h : Collected observations relations ∅ traces) :
    Partition observations relations
      (traces.insertionSort fun left right => left.rootSession ≤ right.rootSession) := by
  have hperm := List.perm_insertionSort (fun left right : DerivedTrace => left.rootSession ≤ right.rootSession) traces
  have hsymm : ∀ t u : DerivedTrace, (∀ a ∈ t.sessions, a ∉ u.sessions) → ∀ a ∈ u.sessions, a ∉ t.sessions :=
    fun t u htu a hau hat => htu a hat hau
  have hdisjoint := (hperm.pairwise_iff (fun {t u} => hsymm t u)).2 h.disjoint
  have hcovers : ∀ a, a ∈ mentioned observations relations ↔ ∃ t ∈ traces, a ∈ t.sessions := fun a => by
    simpa using h.covers a
  have heach : ∀ t ∈ traces.insertionSort fun left right => left.rootSession ≤ right.rootSession,
      IsTrace observations relations t := fun t ht => h.each t (hperm.mem_iff.1 ht)
  refine ⟨heach, hdisjoint, fun a => ?_, ?_, ?_⟩
  · simp only [hcovers, hperm.mem_iff]
  · refine (hperm.flatMap_right _).trans ?_
    have hevidence : (traces.flatMap fun t => t.evidence) =
        traces.flatMap fun t => relations.filter fun r => decide (r.fromSession ∈ t.sessions) :=
      List.flatMap_congr fun t ht => (h.each t ht).evidence
    rw [hevidence]
    refine flatMap_filter_perm (fun (t : DerivedTrace) (r : SessionRelation) => decide (r.fromSession ∈ t.sessions))
      ?_ fun r hr => ?_
    · refine h.disjoint.imp fun htu r _ hin => ?_
      simpa using htu _ (of_decide_eq_true hin)
    · obtain ⟨t, ht, hin⟩ := (hcovers r.fromSession).1 (mem_mentioned.2 (.inr ⟨r, hr, .inl rfl⟩))
      exact ⟨t, ht, decide_eq_true hin⟩
  · refine ((sortByKey_pairwise (·.rootSession) traces).and hdisjoint).imp_of_mem fun {t u} ht hu htu => ?_
    refine lt_of_le_of_ne htu.1 fun heq => ?_
    exact htu.2 _ (heach t ht).root_mem (heq ▸ (heach u hu).root_mem)

/-- The inputs are within the limits. -/
structure Within (observations : List SessionObservation) (relations : List SessionRelation)
    (limits : TraceJoinLimits) : Prop where
  observations_le : observations.length ≤ limits.maxObservations
  relations_le    : relations.length ≤ limits.maxRelations
  sessions_le     : (mentioned observations relations).size ≤ limits.maxSessions

/-- Within the limits the ambiguity test decides alone. -/
theorem deriveTraces_within {observations : List SessionObservation} {relations : List SessionRelation}
    {limits : TraceJoinLimits} (h : Within observations relations limits) :
    (∃ s, deriveTraces observations relations limits = some (.error (.ambiguousRelation s .continuedIn)) ∧
        ambiguous relations = some (s, .continuedIn) ∧ Ambiguous relations s) ∨
      (∀ s, ¬ Ambiguous relations s) ∧ ambiguous relations = none ∧
        ∃ traces, deriveTraces observations relations limits = some (.ok traces) ∧
          Partition observations relations traces := by
  rw [deriveTraces, if_neg (not_lt.2 h.observations_le), if_neg (not_lt.2 h.relations_le)]
  simp only
  rw [if_neg (not_lt.2 h.sessions_le)]
  cases ha : ambiguous relations with
  | some found =>
    obtain ⟨s, kind⟩ := found
    obtain ⟨rfl, hs⟩ := ambiguous_spec ha
    exact .inl ⟨s, rfl, rfl, hs⟩
  | none =>
    have hstart : Collected observations relations (mentioned observations relations) [] :=
      ⟨by simp, .nil, by simp, by simp⟩
    obtain ⟨traces, htraces, hall⟩ := collect_spec h.sessions_le hstart (Nat.lt_succ_self _)
    refine .inr ⟨not_ambiguous ha, rfl, _, ?_, hall.partition⟩
    simp only [htraces, Option.map_some, Except.map]

/-! ## Reordered inputs -/

/-- Equal up to the order of the evidence. -/
def DerivedTrace.Same (t u : DerivedTrace) : Prop :=
  t.sessions = u.sessions ∧ t.rootSession = u.rootSession ∧ t.evidence.Perm u.evidence

def SameAnswer : Option (Except TraceJoinDiagnostic (List DerivedTrace)) →
    Option (Except TraceJoinDiagnostic (List DerivedTrace)) → Prop
  | some (.ok traces), some (.ok traces') => List.Forall₂ DerivedTrace.Same traces traces'
  | some (.error e), some (.error e') => e = e'
  | _, _ => False

section
variable {observations observations' : List SessionObservation} {relations relations' : List SessionRelation}

theorem mentioned_perm (ho : observations'.Perm observations) (hr : relations'.Perm relations) :
    mentioned observations' relations' = mentioned observations relations := by
  refine Std.ExtTreeSet.ext_mem fun a => ?_
  simp only [mem_mentioned, ho.mem_iff, hr.mem_iff]

theorem connected_perm (hr : relations'.Perm relations) : Connected relations' = Connected relations := by
  have hlinked : Linked relations' = Linked relations := by
    ext a b
    simp only [Linked, hr.mem_iff]
  rw [Connected, hlinked]

theorem firstSeen_perm (ho : observations'.Perm observations) : firstSeen observations' = firstSeen observations := by
  ext a
  rw [firstSeen, firstSeen]
  exact congrArg _ (((ho.filter _).map _).foldl_eq U64.max)

theorem endpoints_perm (near far : SessionRelation → String) (hr : relations'.Perm relations) :
    endpoints near far relations' = endpoints near far relations := by
  refine BTreeMap.ext_getElem? fun k => ?_
  have hperm := hr.filter fun r => decide (toLex (near r, r.kind) = k)
  rw [endpoints, endpoints, BTreeMap.getElem?_group, BTreeMap.getElem?_group]
  by_cases hnil : relations.filter (fun r => decide (toLex (near r, r.kind) = k)) = []
  · rw [if_pos hnil, if_pos (List.Perm.eq_nil (hnil ▸ hperm))]
  · have hne : relations'.filter (fun r => decide (toLex (near r, r.kind) = k)) ≠ [] := by
      intro hnil'
      exact hnil (List.Perm.eq_nil (hnil' ▸ hperm.symm))
    rw [if_neg hnil, if_neg hne]
    refine congrArg some (Std.ExtTreeSet.ext_mem fun a => ?_)
    simp only [BTreeSet.mem_foldl_insert, hperm.mem_iff]

theorem ambiguous_perm (hr : relations'.Perm relations) : ambiguous relations' = ambiguous relations := by
  rw [ambiguous, ambiguous, incoming, incoming, outgoing, outgoing, endpoints_perm _ _ hr, endpoints_perm _ _ hr]

theorem Within.perm {limits : TraceJoinLimits} (h : Within observations relations limits)
    (ho : observations'.Perm observations) (hr : relations'.Perm relations) : Within observations' relations' limits :=
  ⟨ho.length_eq ▸ h.observations_le, hr.length_eq ▸ h.relations_le, mentioned_perm ho hr ▸ h.sessions_le⟩

/-- A trace is determined by any of its sessions. -/
theorem IsTrace.same (ho : observations'.Perm observations) (hr : relations'.Perm relations) {t u : DerivedTrace}
    (ht : IsTrace observations' relations' t) (hu : IsTrace observations relations u) {a : String}
    (hat : a ∈ t.sessions) (hau : a ∈ u.sessions) : t.Same u := by
  have hsessions : t.sessions = u.sessions := by
    refine eq_of_sortedByKey id (fun _ _ _ _ h => h) (ht.sorted.imp fun h => h.le) (hu.sorted.imp fun h => h.le) ?_
    rw [List.perm_ext_iff_of_nodup (ht.sorted.imp fun h => h.ne) (hu.sorted.imp fun h => h.ne)]
    intro b
    rw [ht.component a hat, hu.component a hau, connected_perm hr]
  have hfirst := firstSeen_perm ho
  refine ⟨hsessions, ?_, ?_⟩
  · have htu := ht.root_le u.rootSession (hsessions ▸ hu.root_mem)
    have hut := hu.root_le t.rootSession (hsessions ▸ ht.root_mem)
    rw [hfirst] at htu
    have heq := le_antisymm htu hut
    exact (Prod.mk.inj (congrArg ofLex heq)).2
  · rw [ht.evidence, hu.evidence, hsessions]
    exact hr.filter _

/-- Two lists sorted by a key whose keys are the same correspond. -/
theorem forall₂_of_sorted {A K : Type} [LinearOrder K] {key : A → K} {R : A → A → Prop} {as bs : List A}
    (ha : as.Pairwise fun x y => key x < key y) (hb : bs.Pairwise fun x y => key x < key y)
    (hab : ∀ a ∈ as, ∃ b ∈ bs, key a = key b) (hba : ∀ b ∈ bs, ∃ a ∈ as, key a = key b)
    (hR : ∀ a ∈ as, ∀ b ∈ bs, key a = key b → R a b) : List.Forall₂ R as bs := by
  have hkeys : as.map key = bs.map key := by
    have has : (as.map key).Pairwise (· < ·) := List.pairwise_map.2 ha
    have hbs : (bs.map key).Pairwise (· < ·) := List.pairwise_map.2 hb
    refine eq_of_sortedByKey id (fun _ _ _ _ h => h) (has.imp fun h => h.le) (hbs.imp fun h => h.le) ?_
    rw [List.perm_ext_iff_of_nodup (has.imp fun h => h.ne) (hbs.imp fun h => h.ne)]
    intro k
    simp only [List.mem_map]
    constructor
    · rintro ⟨a, ha, rfl⟩
      obtain ⟨b, hb, h⟩ := hab a ha
      exact ⟨b, hb, h.symm⟩
    · rintro ⟨b, hb, rfl⟩
      exact hba b hb
  have hboth : List.Forall₂ (fun a b => key a = key b) as bs := by
    have hmapped : List.Forall₂ (fun k k' => k = k') (as.map key) (bs.map key) := by
      rw [hkeys]
      exact List.forall₂_refl _
    rwa [List.forall₂_map_left_iff, List.forall₂_map_right_iff] at hmapped
  refine (List.forall₂_iff_zip.2 ⟨hboth.length_eq, fun {a b} hin => ?_⟩)
  exact hR a (List.of_mem_zip hin).1 b (List.of_mem_zip hin).2 ((List.forall₂_iff_zip.1 hboth).2 hin)

/-- A session of one partition lies in a trace of the other, and the two are the same. -/
theorem Partition.meet (ho : observations'.Perm observations) (hr : relations'.Perm relations)
    {traces traces' : List DerivedTrace} (h' : Partition observations' relations' traces')
    (h : Partition observations relations traces) {t : DerivedTrace} (ht : t ∈ traces') :
    ∃ u ∈ traces, t.Same u := by
  have hroot := (h'.each t ht).root_mem
  obtain ⟨u, hu, hin⟩ := (h.covers t.rootSession).1 (mentioned_perm ho hr ▸ (h'.covers _).2 ⟨t, ht, hroot⟩)
  exact ⟨u, hu, (h'.each t ht).same ho hr (h.each u hu) hroot hin⟩

theorem Partition.unique (ho : observations'.Perm observations) (hr : relations'.Perm relations)
    {traces traces' : List DerivedTrace} (h' : Partition observations' relations' traces')
    (h : Partition observations relations traces) : List.Forall₂ DerivedTrace.Same traces' traces := by
  refine forall₂_of_sorted h'.sorted h.sorted (fun t ht => ?_) (fun u hu => ?_) fun t ht u hu heq => ?_
  · obtain ⟨u, hu, hsame⟩ := h'.meet ho hr h ht
    exact ⟨u, hu, hsame.2.1⟩
  · obtain ⟨t, ht, hsame⟩ := h.meet ho.symm hr.symm h' hu
    exact ⟨t, ht, hsame.2.1.symm⟩
  · exact (h'.each t ht).same ho hr (h.each u hu) (h'.each t ht).root_mem (heq ▸ (h.each u hu).root_mem)

end

/-- **Traces are the connected components** of the relations, or the relations are ambiguous. -/
theorem derive_traces_components {observations : List SessionObservation} {relations : List SessionRelation}
    {limits : TraceJoinLimits} (h : Within observations relations limits) :
    ((∃ s kind, deriveTraces observations relations limits = some (.error (.ambiguousRelation s kind))) ↔
        ∃ s, Ambiguous relations s) ∧
      ((¬ ∃ s, Ambiguous relations s) → ∃ traces, deriveTraces observations relations limits = some (.ok traces) ∧
        Partition observations relations traces) ∧
      ∀ observations' relations', observations'.Perm observations → relations'.Perm relations →
        SameAnswer (deriveTraces observations' relations' limits) (deriveTraces observations relations limits) := by
  refine ⟨⟨?_, ?_⟩, fun hnone => ?_, fun observations' relations' ho hr => ?_⟩
  · rintro ⟨s, kind, herror⟩
    rcases deriveTraces_within h with ⟨s', -, -, hs⟩ | ⟨-, -, traces, hok, -⟩
    · exact ⟨s', hs⟩
    · rw [hok] at herror
      cases herror
  · rintro ⟨s, hs⟩
    rcases deriveTraces_within h with ⟨s', herror, -⟩ | ⟨hnone, -⟩
    · exact ⟨s', _, herror⟩
    · exact absurd hs (hnone s)
  · rcases deriveTraces_within h with ⟨s', -, -, hs⟩ | ⟨-, -, traces, hok, hall⟩
    · exact absurd ⟨s', hs⟩ hnone
    · exact ⟨traces, hok, hall⟩
  · have hsame := ambiguous_perm hr
    rcases deriveTraces_within h with ⟨s, herror, hs, -⟩ | ⟨-, hnone, traces, hok, hall⟩
    · rcases deriveTraces_within (h.perm ho hr) with ⟨s', herror', hs', -⟩ | ⟨-, hnone, -⟩
      · rw [hs', hs] at hsame
        rw [herror, herror', (Prod.mk.inj (Option.some.inj hsame)).1]
        rfl
      · rw [hnone, hs] at hsame
        cases hsame
    · rcases deriveTraces_within (h.perm ho hr) with ⟨s', -, hs', -⟩ | ⟨-, -, traces', hok', hall'⟩
      · rw [hs', hnone] at hsame
        cases hsame
      · rw [hok, hok']
        exact hall'.unique ho hr hall

/-- `a` continued in `b`, and only `b` was observed, as late as can be. -/
def lateObservation : SessionObservation := ⟨"o", "b", U64.max, none, none, none, none, none, none, "hook"⟩
def continuation : SessionRelation := ⟨"r", "a", "b", .continuedIn, "hook", 0, none⟩

theorem derive_traces_components_late :
    Within [lateObservation] [continuation] .default ∧
      ∃ traces, deriveTraces [lateObservation] [continuation] .default = some (.ok traces) ∧
        Partition [lateObservation] [continuation] traces := by
  have h : Within [lateObservation] [continuation] .default := ⟨by decide, by decide, by decide⟩
  refine ⟨h, (derive_traces_components h).2.1 ?_⟩
  rintro ⟨s, ⟨r, hr, r', hr', -, -, -, -, hne⟩ | ⟨r, hr, r', hr', -, -, -, -, hne⟩⟩
  · rw [List.mem_singleton.1 hr, List.mem_singleton.1 hr'] at hne
    exact hne rfl
  · rw [List.mem_singleton.1 hr, List.mem_singleton.1 hr'] at hne
    exact hne rfl

/-- The root is `a`, which was never observed. -/
theorem unobserved_root :
    Within [lateObservation] [continuation] .default ∧
      deriveTraces [lateObservation] [continuation] .default = some (.ok [⟨["a", "b"], "a", [continuation]⟩]) ∧
      (∃ o ∈ [lateObservation], o.sessionId = "b") ∧ ¬ ∃ o ∈ [lateObservation], o.sessionId = "a" := by
  refine ⟨⟨by decide, by decide, by decide⟩, ?_, ?_, ?_⟩
  · decide
  · decide
  · decide

end BoopStore
