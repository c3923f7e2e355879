import HafleyRs.BoopStore.Runtime

/-!
# When the batch resolves a lane as the single query does

The batch groups five set queries in memory. Roots, attached sessions and processes come out as they do for one lane
(`getD_roots`, `getD_attached`, `getElem?_processes`), because each is keyed by a name that its rows have once. The
traces do not: a span row is kept only for a lane with a route (`getD_traces`). And only the single query fails on a
trace without a root session. `batch_agrees_iff` says that these two are all.
-/

namespace BoopStore

/-! ## Dictionaries -/

theorem Dict.value_eq_some {d : Dict} {id : Nat} {v : String} : d.value id = some v ↔ (id, v) ∈ d.rows := by
  rw [Dict.value, Option.map_eq_some_iff]
  constructor
  · rintro ⟨r, hr, rfl⟩
    have hid : r.1 = id := by simpa using List.find?_some hr
    exact hid ▸ List.mem_of_find?_eq_some hr
  · intro hmem
    refine ⟨(id, v), ?_, rfl⟩
    cases hf : d.rows.find? fun r => r.1 = id with
    | none => simpa using List.find?_eq_none.1 hf _ hmem
    | some r =>
      have hid : r.1 = id := by simpa using List.find?_some hf
      rw [List.inj_on_of_nodup_map d.ids (List.mem_of_find?_eq_some hf) hmem hid]

theorem Dict.value_injective {d : Dict} {i j : Nat} {v : String} (hi : d.value i = some v) (hj : d.value j = some v) :
    i = j :=
  congrArg Prod.fst
    (List.inj_on_of_nodup_map d.values (Dict.value_eq_some.1 hi) (Dict.value_eq_some.1 hj) rfl)

/-- A column that names a key through a dictionary is a key. -/
theorem nodup_named {R F : Type} {rows : List R} {key : R → Nat} (h : (rows.map key).Nodup) {d : Dict}
    {f : R → Option F} {name : F → String} (hf : ∀ r ∈ rows, ∀ x, f r = some x → d.value (key r) = some (name x)) :
    ((rows.filterMap f).map name).Nodup := by
  induction rows with
  | nil => exact List.nodup_nil
  | cons r rows ih =>
    obtain ⟨hr, hrows⟩ := List.nodup_cons.1 h
    have hrest := ih hrows fun r' hr' => hf r' (List.mem_cons_of_mem _ hr')
    cases hfr : f r with
    | none => simpa [List.filterMap_cons, hfr] using hrest
    | some x =>
      rw [List.filterMap_cons_some hfr, List.map_cons, List.nodup_cons]
      refine ⟨fun hmem => hr ?_, hrest⟩
      obtain ⟨y, hy, hname⟩ := List.mem_map.1 hmem
      obtain ⟨r', hr', hfr'⟩ := List.mem_filterMap.1 hy
      have hx := hf r (List.mem_cons_self ..) x hfr
      have hy' := hf r' (List.mem_cons_of_mem _ hr') y hfr'
      rw [hname] at hy'
      exact List.mem_map.2 ⟨r', hr', Dict.value_injective hy' hx⟩

/-! ## Sorted lists without repetition -/

section pushNew
variable {A : Type} [DecidableEq A]

theorem mem_foldl_pushNew {l v : List A} {a : A} : a ∈ l.foldl pushNew v ↔ a ∈ v ∨ a ∈ l := by
  induction l generalizing v with
  | nil => simp
  | cons b l ih =>
    rw [List.foldl_cons, ih, pushNew]
    split
    · next hlast =>
      have hb : b ∈ v := List.mem_of_getLast? hlast
      simp only [List.mem_cons]
      constructor
      · rintro (h | h)
        · exact .inl h
        · exact .inr (.inr h)
      · rintro (h | rfl | h)
        · exact .inl h
        · exact .inl hb
        · exact .inr h
    · rw [List.mem_append, List.mem_singleton, List.mem_cons, or_assoc]

end pushNew

section sorted
variable {A : Type} [LinearOrder A]

/-- Adjacent repetitions are all there are in a sorted list. -/
theorem foldl_pushNew_sorted {l v : List A} (hv : v.Pairwise (· < ·)) (hl : l.Pairwise (· ≤ ·))
    (hvl : ∀ a ∈ v, ∀ b ∈ l, a ≤ b) : (l.foldl pushNew v).Pairwise (· < ·) := by
  induction l generalizing v with
  | nil => exact hv
  | cons b l ih =>
    obtain ⟨hb, hl⟩ := List.pairwise_cons.1 hl
    have hvl' : ∀ a ∈ v, ∀ c ∈ l, a ≤ c := fun a ha c hc => hvl a ha c (List.mem_cons_of_mem _ hc)
    rw [List.foldl_cons, pushNew]
    by_cases hlast : v.getLast? = some b
    · rw [if_pos hlast]
      exact ih hv hl hvl'
    · rw [if_neg hlast]
      refine ih (List.pairwise_append.2 ⟨hv, List.pairwise_singleton .., ?_⟩) hl ?_
      · intro a ha c hc
        obtain rfl := List.mem_singleton.1 hc
        refine lt_of_le_of_ne (hvl a ha c (List.mem_cons_self ..)) ?_
        rintro rfl
        -- the last element of `v` lies between `a` and itself
        obtain ⟨init, x, rfl⟩ : ∃ init x, v = init ++ [x] := by
          rcases List.eq_nil_or_concat v with rfl | ⟨init, x, rfl⟩
          · cases ha
          · exact ⟨init, x, by simp⟩
        have hx : x ≤ a := hvl x (by simp) a (List.mem_cons_self ..)
        have hax : a ≤ x := by
          rcases List.mem_append.1 ha with ha | ha
          · exact ((List.pairwise_append.1 hv).2.2 a ha x (by simp)).le
          · exact (List.mem_singleton.1 ha).le
        exact hlast (by simp [le_antisymm hx hax])
      · intro a ha c hc
        rcases List.mem_append.1 ha with ha | ha
        · exact hvl' a ha c hc
        · exact List.mem_singleton.1 ha ▸ hb c hc

end sorted

namespace RuntimeStore
variable {s : RuntimeStore} {routes : BTreeMap String Route} {lane : String}

/-! ## The traces of a lane -/

theorem mem_spanTraces {trace : String} : trace ∈ s.spanTraces lane ↔ ∃ span ∈ s.agentTraceSpan,
    s.dictSession.value span.sessionId = some lane ∧ s.dictTrace.value span.traceId = some trace := by
  unfold spanTraces
  rw [List.mem_filterMap]
  refine exists_congr fun span => and_congr_right fun _ => ?_
  by_cases h : s.dictSession.value span.sessionId = some lane <;> simp [h]

theorem mem_laneTraces {trace : String} : trace ∈ s.laneTraces lane ↔ ∃ row ∈ s.agentLane,
    s.dictSession.value row.laneId = some lane ∧ row.traceId.bind s.dictTrace.value = some trace := by
  unfold laneTraces
  rw [List.mem_filterMap]
  refine exists_congr fun row => and_congr_right fun _ => ?_
  by_cases h : s.dictSession.value row.laneId = some lane <;> simp [h]

theorem mem_candidateLaneIds {id : Nat} : id ∈ s.candidateLaneIds routes ↔
    (∃ row ∈ s.agentLane, row.laneId = id) ∨ ∃ value, (id, value) ∈ s.dictSession.rows ∧ routes.contains value := by
  simp [candidateLaneIds]

theorem mem_laneTraceRows {row : LaneTraceRow} : row ∈ s.laneTraceRows routes ↔
    ∃ id ∈ s.candidateLaneIds routes, ∃ lane, s.dictSession.value id = some lane ∧
      ((∃ trace ∈ s.laneArm id, row = laneTraceRow lane trace true) ∨
        ∃ trace ∈ s.spanArm id, row = laneTraceRow lane (some trace) false) := by
  simp only [laneTraceRows, mem_sortedDistinct, List.mem_flatMap]
  refine exists_congr fun id => and_congr_right fun _ => ?_
  cases s.dictSession.value id with
  | none => simp
  | some lane => simp [eq_comm]

/-- The trace a row adds to a lane. -/
def keptTrace (routes : BTreeMap String Route) (lane : String) (row : LaneTraceRow) : Option String :=
  if (ofLex row).1 = lane then
    ((ofLex (ofLex row).2).1 : Option String).filter fun _ => (ofLex (ofLex row).2).2 || routes.contains lane
  else none

theorem foldl_readLaneTrace (rows : List LaneTraceRow) (b : List String × BTreeMap String (List String)) :
    ((rows.foldl (readLaneTrace routes) b).2[lane]?).getD [] =
      (rows.filterMap (keptTrace routes lane)).foldl pushNew (b.2[lane]?.getD []) := by
  induction rows generalizing b with
  | nil => rfl
  | cons row rows ih =>
    rw [List.foldl_cons, ih]
    by_cases hlane : (ofLex row).1 = lane
    · cases hkept : keptTrace routes lane row with
      | none =>
        rw [List.filterMap_cons_none hkept]
        rw [keptTrace, if_pos hlane] at hkept
        simp only [readLaneTrace, hlane, hkept]
      | some trace =>
        rw [List.filterMap_cons_some hkept, List.foldl_cons]
        rw [keptTrace, if_pos hlane] at hkept
        simp only [readLaneTrace, hlane, hkept, BTreeMap.getElem?_alter, if_true, Option.getD_some]
    · have hkept : keptTrace routes lane row = none := if_neg hlane
      rw [List.filterMap_cons_none hkept]
      unfold readLaneTrace
      dsimp only
      split
      · rw [BTreeMap.getElem?_alter, if_neg hlane]
      · rfl

theorem keptTrace_sorted (s : RuntimeStore) (routes : BTreeMap String Route) (lane : String) :
    ((s.laneTraceRows routes).filterMap (keptTrace routes lane)).Pairwise (· ≤ ·) := by
  rw [List.pairwise_filterMap]
  refine (sortedDistinct_sorted _).imp ?_
  intro a b hab t ht t' ht'
  have hab := hab.le
  unfold keptTrace at ht ht'
  split at ht
  · next ha =>
    split at ht'
    · next hb =>
      have ht : (ofLex (ofLex a).2).1 = (t : WithBot String) := (Option.filter_eq_some_iff.1 ht).1
      have ht' : (ofLex (ofLex b).2).1 = (t' : WithBot String) := (Option.filter_eq_some_iff.1 ht').1
      rw [Prod.Lex.le_iff] at hab
      rcases hab with hlt | ⟨-, hle⟩
      · rw [ha, hb] at hlt
        exact absurd hlt (lt_irrefl _)
      · rw [Prod.Lex.le_iff, ht, ht'] at hle
        rcases hle with hlt | ⟨heq, -⟩
        · exact WithBot.coe_le_coe.1 hlt.le
        · exact WithBot.coe_le_coe.1 heq.le
    · cases ht'
  · cases ht

theorem mem_spanArm {id : Nat} {trace : String} : trace ∈ s.spanArm id ↔
    ∃ span ∈ s.agentTraceSpan, span.sessionId = id ∧ s.dictTrace.value span.traceId = some trace := by
  simp [spanArm, and_assoc]

theorem some_mem_laneArm {id : Nat} {trace : String} : some trace ∈ s.laneArm id ↔
    ∃ row ∈ s.agentLane, row.laneId = id ∧ row.traceId.bind s.dictTrace.value = some trace := by
  unfold laneArm
  dsimp only
  split
  · next hnil =>
    rw [List.filter_eq_nil_iff] at hnil
    simp only [List.mem_singleton, reduceCtorEq, false_iff]
    rintro ⟨row, hrow, hid, -⟩
    exact hnil row hrow (by simpa using hid)
  · simp [and_assoc]

/-- A lane without a route keeps the traces of its spawns alone. -/
theorem mem_keptTraces {trace : String} :
    trace ∈ (s.laneTraceRows routes).filterMap (keptTrace routes lane) ↔
      trace ∈ s.laneTraces lane ∨ (routes.contains lane = true ∧ trace ∈ s.spanTraces lane) := by
  rw [List.mem_filterMap]
  constructor
  · rintro ⟨row, hrow, hkept⟩
    unfold keptTrace at hkept
    split at hkept
    · next hlane =>
      obtain ⟨htrace, hflag⟩ := Option.filter_eq_some_iff.1 hkept
      obtain ⟨id, -, lane', hvalue, ⟨t, ht, rfl⟩ | ⟨t, ht, rfl⟩⟩ := mem_laneTraceRows.1 hrow
      · obtain rfl : lane' = lane := hlane
        obtain rfl : t = some trace := htrace
        obtain ⟨spawn, hspawn, rfl, hname⟩ := some_mem_laneArm.1 ht
        exact .inl (mem_laneTraces.2 ⟨spawn, hspawn, hvalue, hname⟩)
      · obtain rfl : lane' = lane := hlane
        obtain rfl : t = trace := Option.some.inj htrace
        obtain ⟨span, hspan, rfl, hname⟩ := mem_spanArm.1 ht
        exact .inr ⟨by simpa [laneTraceRow] using hflag, mem_spanTraces.2 ⟨span, hspan, hvalue, hname⟩⟩
    · cases hkept
  · rintro (h | ⟨hroute, h⟩)
    · obtain ⟨spawn, hspawn, hvalue, hname⟩ := mem_laneTraces.1 h
      refine ⟨laneTraceRow lane (some trace) true, mem_laneTraceRows.2 ⟨spawn.laneId, ?_, lane, hvalue, .inl ?_⟩, ?_⟩
      · exact mem_candidateLaneIds.2 (.inl ⟨spawn, hspawn, rfl⟩)
      · exact ⟨some trace, some_mem_laneArm.2 ⟨spawn, hspawn, rfl, hname⟩, rfl⟩
      · simp [keptTrace, laneTraceRow]
    · obtain ⟨span, hspan, hvalue, hname⟩ := mem_spanTraces.1 h
      refine ⟨laneTraceRow lane (some trace) false, mem_laneTraceRows.2 ⟨span.sessionId, ?_, lane, hvalue, .inr ?_⟩, ?_⟩
      · exact mem_candidateLaneIds.2 (.inr ⟨lane, Dict.value_eq_some.1 hvalue, hroute⟩)
      · exact ⟨trace, mem_spanArm.2 ⟨span, hspan, rfl, hname⟩, rfl⟩
      · simp [keptTrace, laneTraceRow, hroute]

/-- The traces a batch has for a lane. -/
def batchNames (s : RuntimeStore) (routes : BTreeMap String Route) (lane : String) : List String :=
  (s.runtimeBatch routes).traces[lane]?.getD []

theorem batchNames_eq (s : RuntimeStore) (routes : BTreeMap String Route) (lane : String) : s.batchNames routes lane =
    ((s.laneTraceRows routes).filterMap (keptTrace routes lane)).foldl pushNew [] := by
  refine (foldl_readLaneTrace (s.laneTraceRows routes) ([], ∅)).trans ?_
  have hempty : (∅ : BTreeMap String (List String))[lane]? = none := Std.ExtTreeMap.getElem?_empty
  dsimp only
  rw [hempty, Option.getD_none]

theorem mem_batchNames {trace : String} : trace ∈ s.batchNames routes lane ↔
    trace ∈ s.laneTraces lane ∨ (routes.contains lane = true ∧ trace ∈ s.spanTraces lane) := by
  rw [batchNames_eq, mem_foldl_pushNew, mem_keptTraces]
  simp

theorem mem_runtimeTraceNames {trace : String} :
    trace ∈ s.runtimeTraceNames lane ↔ trace ∈ s.spanTraces lane ∨ trace ∈ s.laneTraces lane := by
  rw [runtimeTraceNames, mem_sortedDistinct, List.mem_append]

/-- **The names of both readings** are equal iff a lane without a route has no span on a trace of its own. -/
theorem batchNames_eq_iff : s.batchNames routes lane = s.runtimeTraceNames lane ↔
    routes.contains lane = true ∨ ∀ trace ∈ s.spanTraces lane, trace ∈ s.laneTraces lane := by
  constructor
  · intro h
    by_contra hnot
    obtain ⟨hroute, hspans⟩ := not_or.1 hnot
    refine hspans fun trace htrace => ?_
    have hmem := mem_runtimeTraceNames.2 (.inl htrace)
    rw [← h, mem_batchNames] at hmem
    exact hmem.resolve_right fun hr => hroute hr.1
  · intro h
    refine eq_sortedDistinct ?_ fun trace => ?_
    · rw [batchNames_eq]
      exact foldl_pushNew_sorted List.Pairwise.nil (keptTrace_sorted s routes lane) (by simp)
    · rw [mem_batchNames, List.mem_append]
      constructor
      · rintro (hl | ⟨-, hs⟩)
        · exact .inr hl
        · exact .inl hs
      · rintro (hs | hl)
        · rcases h with hroute | hsub
          · exact .inr ⟨hroute, hs⟩
          · exact .inl (hsub trace hs)
        · exact .inl hl

/-! ## Roots, sessions, processes -/

theorem rootRows_nodup (s : RuntimeStore) : (s.rootRows.map Prod.fst).Nodup := by
  refine nodup_named s.traceIds (d := s.dictTrace) fun row _ x hx => ?_
  obtain ⟨trace, htrace, rfl⟩ := Option.map_eq_some_iff.1 hx
  exact htrace

theorem processRows_nodup (s : RuntimeStore) : (s.processRows.map ProcessIdentity.session).Nodup := by
  refine nodup_named s.liveSessions (d := s.dictSession) fun row _ x hx => ?_
  obtain ⟨session, hsession, rfl⟩ := Option.map_eq_some_iff.1 hx
  exact hsession

theorem attachedRows_nodup (s : RuntimeStore) : (s.attachedRows.map fun r => r.session.session).Nodup := by
  refine nodup_named s.spanSessions (d := s.dictSession) fun span _ x hx => ?_
  obtain ⟨trace, -, hx⟩ := Option.bind_eq_some_iff.1 hx
  obtain ⟨session, hsession, rfl⟩ := Option.map_eq_some_iff.1 hx
  exact hsession

/-- The traces whose roots and sessions a batch reads. -/
def named (s : RuntimeStore) (routes : BTreeMap String Route) : List String :=
  sortedDistinct ((s.runtimeBatch routes).traces.toList.flatMap Prod.snd)

theorem mem_named {trace : String} : trace ∈ s.named routes ↔ ∃ lane, trace ∈ s.batchNames routes lane := by
  rw [named, mem_sortedDistinct]
  refine (BTreeMap.mem_flatMap_toList (f := fun v => v)).trans ?_
  unfold batchNames
  constructor
  · rintro ⟨lane, names, hget, hmem⟩
    exact ⟨lane, by rw [hget]; exact hmem⟩
  · rintro ⟨lane, hmem⟩
    cases hget : (s.runtimeBatch routes).traces[lane]? with
    | none => simp [hget] at hmem
    | some names => exact ⟨lane, names, hget, by simpa [hget] using hmem⟩

/-- Sorted rows of different keys are found by key as the unsorted are. -/
theorem find?_sorted {E K : Type} [LinearOrder K] {key : E → K} {rows : List E} (h : (rows.map key).Nodup)
    {p : E → Bool} {r : E → E → Prop} [DecidableRel r] {k : K} (hp : ∀ e, key e = k → p e = true) :
    (((rows.filter p).insertionSort r).find? fun e => key e = k) = rows.find? fun e => key e = k := by
  have hsorted : (((rows.filter p).insertionSort r).map key).Nodup :=
    (((rows.filter p).perm_insertionSort r).map key).nodup_iff.2 (h.sublist (List.filter_sublist.map key))
  refine Option.ext fun e => ?_
  rw [find?_key_eq_some hsorted, find?_key_eq_some h, List.mem_insertionSort, List.mem_filter]
  constructor
  · rintro ⟨⟨hmem, -⟩, hk⟩
    exact ⟨hmem, hk⟩
  · rintro ⟨hmem, hk⟩
    exact ⟨⟨hmem, hp e hk⟩, hk⟩

theorem getElem?_roots {trace : String} (h : trace ∈ s.named routes) : (s.runtimeBatch routes).roots[trace]? =
    (s.rootRows.find? fun r => r.1 = trace).map Prod.snd := by
  have hnodup : (((s.rootRows.filter fun r => r.1 ∈ s.named routes).insertionSort fun a b => a.1 ≤ b.1).map
      Prod.fst).Nodup :=
    ((List.perm_insertionSort _ _).map _).nodup_iff.2 (s.rootRows_nodup.sublist (List.filter_sublist.map _))
  refine (BTreeMap.getElem?_foldl_insert hnodup ∅ trace).trans ?_
  rw [find?_sorted s.rootRows_nodup fun e he => by simpa [he] using h]
  cases s.rootRows.find? fun r => r.1 = trace <;> simp

/-- The rows of a batch that are of one trace, in their order, are the rows of the single query. -/
theorem attachedRows_of (s : RuntimeStore) {p : AttachedRow → Bool} {trace : String}
    (hp : ∀ r : AttachedRow, r.trace = trace → p r = true) :
    ((s.attachedRows.filter p).insertionSort fun a b => toLex (a.trace, a.key) ≤ toLex (b.trace, b.key)).filter
        (fun r => r.trace = trace) =
      (s.attachedRows.filter fun r => r.trace = trace).insertionSort fun a b => a.key ≤ b.key := by
  have hfilter : (s.attachedRows.filter p).filter (fun r => r.trace = trace) =
      s.attachedRows.filter fun r => r.trace = trace := by
    rw [List.filter_filter]
    refine List.filter_congr fun r _ => ?_
    by_cases hr : r.trace = trace
    · simp [hr, hp r hr]
    · simp [hr]
  refine eq_of_sortedByKey AttachedRow.key ?_ ?_ (sortByKey_pairwise AttachedRow.key _) ?_
  · intro a ha b hb hkey
    have ha := (List.mem_filter.1 ((List.mem_insertionSort _).1 (List.mem_filter.1 ha).1)).1
    have hb := (List.mem_filter.1 ((List.mem_insertionSort _).1 hb)).1
    exact List.inj_on_of_nodup_map s.attachedRows_nodup ha hb (congrArg (fun k => (ofLex k).2) hkey)
  · have hsorted := sortByKey_pairwise (fun r : AttachedRow => toLex (r.trace, r.key)) (s.attachedRows.filter p)
    refine (hsorted.filter fun r => r.trace = trace).imp_of_mem fun {a b} ha hb hle => ?_
    have ha : a.trace = trace := by simpa using (List.mem_filter.1 ha).2
    have hb : b.trace = trace := by simpa using (List.mem_filter.1 hb).2
    rcases Prod.Lex.le_iff.1 hle with hlt | ⟨-, hle⟩
    · have hlt : a.trace < b.trace := hlt
      rw [ha, hb] at hlt
      exact absurd hlt (lt_irrefl _)
    · exact hle
  · refine ((List.perm_insertionSort _ _).filter _).trans ?_
    rw [hfilter]
    exact (List.perm_insertionSort _ _).symm

theorem foldl_push {rows : List AttachedRow} (acc : List AttachedSession) :
    rows.foldl (fun acc r => acc ++ [r.session]) acc = acc ++ rows.map AttachedRow.session := by
  induction rows generalizing acc with
  | nil => simp
  | cons r rows ih => rw [List.foldl_cons, ih, List.map_cons, List.append_assoc, List.singleton_append]

theorem getD_attached {trace : String} (h : trace ∈ s.named routes) :
    (s.runtimeBatch routes).attached[trace]?.getD [] = s.runtimeAttachedSessions trace := by
  have hp : ∀ r : AttachedRow, r.trace = trace → decide (r.trace ∈ s.named routes) = true := by
    intro r hr
    simpa [hr] using h
  have hrows := s.attachedRows_of hp
  have hgroup := BTreeMap.getElem?_group AttachedRow.trace [] (fun rows r => rows ++ [r.session])
    ((s.attachedRows.filter fun r => r.trace ∈ s.named routes).insertionSort fun a b =>
      toLex (a.trace, a.key) ≤ toLex (b.trace, b.key)) trace
  rw [hrows] at hgroup
  refine (congrArg (Option.getD · []) hgroup).trans ?_
  unfold runtimeAttachedSessions
  by_cases hnil : ((s.attachedRows.filter fun r => r.trace = trace).insertionSort fun a b => a.key ≤ b.key) = []
  · rw [if_pos hnil, hnil]
    rfl
  · rw [if_neg hnil, Option.getD_some, foldl_push, List.nil_append]

/-- The lanes whose rows a batch reads are those of a snapshot. -/
def candidateLanes (s : RuntimeStore) (routes : BTreeMap String Route) : List String :=
  sortedDistinct (((s.laneTraceRows routes).foldl (readLaneTrace routes) ([], ∅)).1 ++ routes.keys)

theorem mem_snapshotLanes :
    lane ∈ snapshotLanes routes (s.runtimeBatch routes) ↔ lane ∈ s.candidateLanes routes := by
  rw [snapshotLanes, candidateLanes, mem_sortedDistinct, mem_sortedDistinct, List.mem_append, List.mem_append]
  exact or_congr (List.mem_insertionSort _) Iff.rfl

/-- The names whose processes a batch reads. -/
def processSessions (s : RuntimeStore) (routes : BTreeMap String Route) : List String :=
  sortedDistinct (s.candidateLanes routes ++
    (s.runtimeBatch routes).attached.toList.flatMap fun e => e.2.map AttachedSession.session)

theorem mem_processSessions {session : String} (h : session ∈ snapshotLanes routes (s.runtimeBatch routes) ∨
    ∃ trace ∈ s.named routes, ∃ a ∈ s.runtimeAttachedSessions trace, a.session = session) :
    session ∈ s.processSessions routes := by
  rw [processSessions, mem_sortedDistinct, List.mem_append]
  refine h.imp mem_snapshotLanes.1 ?_
  rintro ⟨trace, htrace, a, ha, rfl⟩
  rw [← getD_attached htrace] at ha
  refine (BTreeMap.mem_flatMap_toList (f := List.map AttachedSession.session)).2 ?_
  cases hget : (s.runtimeBatch routes).attached[trace]? with
  | none => simp [hget] at ha
  | some rows => exact ⟨trace, rows, hget, List.mem_map_of_mem (by simpa [hget] using ha)⟩

theorem getElem?_processes {session : String} (h : session ∈ s.processSessions routes) :
    (s.runtimeBatch routes).processes[session]? = s.runtimeProcess session := by
  have hnodup : (((s.processRows.filter fun p => p.session ∈ s.processSessions routes).insertionSort fun a b =>
      a.session ≤ b.session).map ProcessIdentity.session).Nodup :=
    ((List.perm_insertionSort _ _).map _).nodup_iff.2 (s.processRows_nodup.sublist (List.filter_sublist.map _))
  refine (@BTreeMap.getElem?_foldl_insert String ProcessIdentity ProcessIdentity _ _ ProcessIdentity.session
    (fun p => p) _ hnodup ∅ session).trans ?_
  rw [find?_sorted s.processRows_nodup fun e he => by simpa [he] using h, runtimeProcess, List.head?_filter]
  cases s.processRows.find? fun p => p.session = session <;> simp

theorem mem_laneExists (h : lane ∈ snapshotLanes routes (s.runtimeBatch routes)) :
    decide (lane ∈ (s.runtimeBatch routes).laneExists) = s.runtimeLaneExists lane := by
  have hmem : lane ∈ (s.runtimeBatch routes).laneExists ↔ lane ∈ s.dictSession.rows.map Prod.snd := by
    refine List.mem_filter.trans (and_iff_left ?_)
    exact decide_eq_true (mem_snapshotLanes.1 h)
  rw [runtimeLaneExists, decide_eq_decide, hmem]

end RuntimeStore

/-! ## Completions -/

/-- The newer of a lane's completion and a result row. -/
def newerCompletion (best : Option CompletionRecord) (m : Message) : Option CompletionRecord :=
  match best with
  | none => some (completionOf m)
  | some current => if current.key < (completionOf m).key then some (completionOf m) else some current

theorem getElem?_recordCompletion (m : Message) (completions : BTreeMap String CompletionRecord) (lane lane' : String) :
    (recordCompletion (completionOf m) completions lane')[lane]? =
      if lane' = lane then newerCompletion completions[lane]? m else completions[lane]? := by
  unfold recordCompletion newerCompletion
  by_cases hl : lane' = lane
  · subst hl
    rw [if_pos rfl]
    cases hget : completions[lane']? with
    | none => simp
    | some current =>
      dsimp only
      split
      · simp
      · exact hget
  · rw [if_neg hl]
    cases completions[lane']? with
    | none => simp [BTreeMap.getElem?_insert, hl]
    | some current =>
      dsimp only
      split
      · simp [BTreeMap.getElem?_insert, hl]
      · rfl

theorem newerCompletion_twice (best : Option CompletionRecord) (m : Message) :
    newerCompletion (newerCompletion best m) m = newerCompletion best m := by
  cases best with
  | none => simp [newerCompletion]
  | some current =>
    by_cases h : current.key < (completionOf m).key
    · simp [newerCompletion, h]
    · simp [newerCompletion, h]

theorem getElem?_mailboxProjection (messages : List Message) (lane : String) :
    (mailboxProjection messages)[lane]? = (messages.filter (completesLane lane)).foldl newerCompletion none := by
  unfold mailboxProjection
  induction messages using List.reverseRecOn with
  | nil => exact Std.ExtTreeMap.getElem?_empty
  | append_singleton messages m ih =>
    rw [List.foldl_append, List.filter_append, List.foldl_append, ← ih, List.foldl_cons, List.foldl_nil]
    by_cases hkind : m.kind.asStr = "result"
    · rw [if_pos hkind, List.foldl_cons, List.foldl_cons, List.foldl_nil, getElem?_recordCompletion,
        getElem?_recordCompletion]
      by_cases hfrom : m.fromRoute = lane
      · by_cases hto : m.toRoute = lane
        · simp [completesLane, hkind, hfrom, hto, newerCompletion_twice]
        · simp [completesLane, hkind, hfrom, hto]
      · by_cases hto : m.toRoute = lane
        · simp [completesLane, hkind, hfrom, hto]
        · simp [completesLane, hkind, hfrom, hto]
    · simp [completesLane, hkind]

section maxBy
variable {A K : Type} [LinearOrder K] {key : A → K}

theorem maxBy_append (as : List A) (b : A) : maxBy key (as ++ [b]) = match maxBy key as with
    | none => some b
    | some c => if key b < key c then some c else some b := by
  rw [maxBy, List.foldl_append, List.foldl_cons, List.foldl_nil]
  rfl

theorem mem_of_maxBy {as : List A} {a : A} (h : maxBy key as = some a) : a ∈ as := by
  induction as using List.reverseRecOn with
  | nil => cases h
  | append_singleton as b ih =>
    rw [maxBy_append] at h
    cases hmax : maxBy key as with
    | none =>
      rw [hmax] at h
      simp [Option.some.inj h]
    | some c =>
      rw [hmax] at h
      dsimp only at h
      split at h
      · exact List.mem_append_left _ (ih (hmax.trans h))
      · simp [Option.some.inj h]

end maxBy

/-- Rows of different ids have different keys, so the first and the last maximum are one. -/
theorem foldl_newerCompletion {messages : List Message} (h : (messages.map Message.id).Nodup) :
    messages.foldl newerCompletion none =
      (maxBy (fun m : Message => toLex (m.fromTimestamp, m.id)) messages).map completionOf := by
  induction messages using List.reverseRecOn with
  | nil => rfl
  | append_singleton messages m ih =>
    rw [List.map_append, List.nodup_append] at h
    rw [List.foldl_append, ih h.1, List.foldl_cons, List.foldl_nil, maxBy_append]
    cases hmax : maxBy (fun m : Message => toLex (m.fromTimestamp, m.id)) messages with
    | none => rfl
    | some best =>
      have hid : best.id ≠ m.id := h.2.2 _ (List.mem_map_of_mem (mem_of_maxBy hmax)) _ (by simp)
      have hne : toLex (m.fromTimestamp, m.id) ≠ toLex (best.fromTimestamp, best.id) := by
        intro heq
        exact hid (congrArg Prod.snd (toLex_inj.1 heq)).symm
      rw [Option.map_some, newerCompletion]
      rcases lt_or_gt_of_ne hne with hlt | hgt
      · have hkey : (completionOf m).key < (completionOf best).key := hlt
        dsimp only
        rw [if_neg hkey.not_gt, if_pos hlt, Option.map_some]
      · have hkey : (completionOf best).key < (completionOf m).key := hgt
        dsimp only
        rw [if_pos hkey, if_neg hgt.not_gt, Option.map_some]

theorem completions_agree (rows : List Message) (lane : String) :
    (mailboxProjection (fold rows))[lane]? = latestCompletion (fold rows) lane := by
  have hnodup : ((fold rows).map Message.id).Nodup := fold_eq_rows rows ▸ (foldTable rows).unique
  rw [getElem?_mailboxProjection, latestCompletion]
  exact foldl_newerCompletion (hnodup.sublist (List.filter_sublist.map _))

/-! ## The facets of a trace -/

theorem currentSession_mem {lane trace : String} {root : Option String} {attached : List AttachedSession} {x : String}
    (h : (currentFacets lane trace root attached).currentSession = some x) : ∃ a ∈ attached, a.session = x := by
  unfold currentFacets at h
  dsimp only at h
  split at h
  · cases h
  · cases h
  · next a hcurrent _ =>
    have ha : a ∈ [a] := List.mem_singleton_self a
    rw [← hcurrent] at ha
    exact ⟨a, (List.mem_filter.1 (List.mem_filter.1 ha).1).1, Option.some.inj h⟩
  · cases h

theorem placeholderSession_eq (lane trace : String) (root : Option String) (attached : List AttachedSession) :
    (currentFacets lane trace root attached).placeholderSession = some lane := by
  have hlane : ((attached.find? fun s => s.session = lane).map AttachedSession.session <|> some lane) = some lane := by
    cases hf : attached.find? fun s => s.session = lane with
    | none => rfl
    | some a => simpa using List.find?_some hf
  unfold currentFacets
  dsimp only
  split <;> exact hlane

theorem trace_currentFacets (lane trace : String) (root : Option String) (attached : List AttachedSession) :
    (currentFacets lane trace root attached).trace = some trace := by
  unfold currentFacets
  dsimp only
  split <;> rfl

/-- The traces that a lane's facets name. -/
def TraceFacets.names (f : TraceFacets) : List String :=
  match f.trace, f.diagnostics with
  | some trace, _ => [trace]
  | none, [.ambiguousTrace _ traces] => traces
  | none, _ => []

theorem names_of_traceFacets {lane : String} {names : List String} {laneExists : Bool}
    {root : String → Except String (Option String)} {attached : String → List AttachedSession} {f : TraceFacets}
    (h : traceFacets lane names laneExists root attached = .ok f) : f.names = names := by
  match names with
  | [] =>
    obtain rfl := Except.ok.inj h
    cases laneExists <;> rfl
  | [trace] =>
    cases hroot : root trace with
    | error e => simp [traceFacets, hroot, Except.map] at h
    | ok root =>
      simp only [traceFacets, hroot, Except.map, Except.ok.injEq] at h
      rw [TraceFacets.names, ← h, trace_currentFacets]
  | a :: b :: rest =>
    obtain rfl := Except.ok.inj h
    rfl

/-- Runtimes of one lane and one completion are of one trace's facets. -/
theorem facets_of_resolveWith {lane : String} {routes : BTreeMap String Route} {completion : Option CompletionRecord}
    {names names' : List String} {laneExists : Bool} {root root' : String → Except String (Option String)}
    {attached attached' : String → List AttachedSession} {process process' : String → Option ProcessIdentity}
    {f : TraceFacets} (hf : traceFacets lane names laneExists root attached = .ok f)
    (h : resolveWith lane routes completion names laneExists root attached process =
      resolveWith lane routes completion names' laneExists root' attached' process') :
    traceFacets lane names' laneExists root' attached' = .ok f := by
  unfold resolveWith at h
  rw [hf] at h
  cases hf' : traceFacets lane names' laneExists root' attached' with
  | error e => simp [hf', Except.map] at h
  | ok f' =>
    rw [hf'] at h
    have h := Except.ok.inj h
    have hcurrent : f.currentSession = f'.currentSession := congrArg LaneRuntime.currentSession h
    have hdiag := congrArg LaneRuntime.diagnostics h
    dsimp only at hdiag
    rw [hcurrent, List.append_left_inj, List.append_right_inj] at hdiag
    obtain ⟨t, r, c, p, g, d⟩ := f
    obtain ⟨t', r', c', p', g', d'⟩ := f'
    obtain rfl : t = t' := congrArg LaneRuntime.trace h
    obtain rfl : r = r' := congrArg LaneRuntime.rootSession h
    obtain rfl : p = p' := congrArg LaneRuntime.placeholderSession h
    obtain rfl : g = g' := congrArg LaneRuntime.generatedSessions h
    obtain rfl : c = c' := hcurrent
    obtain rfl : d = d' := hdiag
    rfl

namespace RuntimeStore
variable {s : RuntimeStore} {routes : BTreeMap String Route} {lane : String}

/-- The traces of the lane's spans are traces of its spawns, unless it has a route; and if the lane has one trace, that
    trace has no row or one whose root is in the dictionary. -/
structure AgreeWhen (s : RuntimeStore) (routes : BTreeMap String Route) (lane : String) : Prop where
  spans : routes.contains lane = true ∨ ∀ trace ∈ s.spanTraces lane, trace ∈ s.laneTraces lane
  root  : ∀ trace, (∀ t, t ∈ s.spanTraces lane ∨ t ∈ s.laneTraces lane ↔ t = trace) →
            ∀ r ∈ s.rootRows, r.1 = trace → r.2.isSome = true

theorem unrooted {trace : String} {r : String × Option String} (hmem : r ∈ s.rootRows) (hkey : r.1 = trace)
    (hnone : r.2 = none) :
    s.runtimeTraceRoot trace = .error "Invalid column type Null at index: 0, name: value" := by
  have hf := (find?_key_eq_some s.rootRows_nodup).2 ⟨hmem, hkey⟩
  unfold runtimeTraceRoot
  rw [List.head?_filter, hf]
  obtain ⟨t, root⟩ := r
  obtain rfl : root = none := hnone
  rfl

theorem root_of_rooted {trace : String} (h : ∀ r ∈ s.rootRows, r.1 = trace → r.2.isSome = true) :
    s.runtimeTraceRoot trace = .ok (((s.rootRows.find? fun r => r.1 = trace).map Prod.snd).getD none) := by
  unfold runtimeTraceRoot
  rw [List.head?_filter]
  cases hf : s.rootRows.find? fun r => r.1 = trace with
  | none => rfl
  | some r =>
    obtain ⟨t, root⟩ := r
    obtain ⟨hmem, hkey⟩ := (find?_key_eq_some s.rootRows_nodup).1 hf
    obtain ⟨root, rfl⟩ := Option.isSome_iff_exists.1 (h _ hmem hkey)
    rfl

/-- The facets that the batch finds. -/
def batchFacets (s : RuntimeStore) (routes : BTreeMap String Route) (lane : String) : Except String TraceFacets :=
  traceFacets lane (s.batchNames routes lane) (s.runtimeLaneExists lane)
    (fun trace => .ok ((s.runtimeBatch routes).roots[trace]?.getD none))
    fun trace => (s.runtimeBatch routes).attached[trace]?.getD []

theorem batchFacets_ok (s : RuntimeStore) (routes : BTreeMap String Route) (lane : String) :
    ∃ f, s.batchFacets routes lane = .ok f := by
  unfold batchFacets traceFacets
  split
  · exact ⟨_, rfl⟩
  · exact ⟨_, rfl⟩
  · exact ⟨_, rfl⟩

theorem singleton_iff {trace : String} : s.runtimeTraceNames lane = [trace] ↔
    ∀ t, t ∈ s.spanTraces lane ∨ t ∈ s.laneTraces lane ↔ t = trace := by
  constructor
  · intro h t
    rw [← mem_runtimeTraceNames, h, List.mem_singleton]
  · intro h
    refine (eq_sortedDistinct (List.pairwise_singleton _ _) fun t => ?_).symm
    rw [List.mem_append, h, List.mem_singleton]

/-- With the same traces and a root that can be read, the single query finds the facets of the batch. -/
theorem facets_agree (h : s.AgreeWhen routes lane) : traceFacets lane (s.runtimeTraceNames lane)
    (s.runtimeLaneExists lane) s.runtimeTraceRoot s.runtimeAttachedSessions = s.batchFacets routes lane := by
  have hnames := batchNames_eq_iff.2 h.spans
  rw [batchFacets, hnames]
  cases hsingle : s.runtimeTraceNames lane with
  | nil => rfl
  | cons trace rest =>
    cases rest with
    | cons trace' rest => rfl
    | nil =>
      have hnamed : trace ∈ s.named routes :=
        mem_named.2 ⟨lane, by rw [hnames, hsingle]; exact List.mem_singleton_self _⟩
      have hroot := root_of_rooted (h.root trace (singleton_iff.1 hsingle))
      rw [traceFacets, traceFacets, hroot, getElem?_roots hnamed, getD_attached hnamed]

/-- The processes that either reading asks for. -/
theorem process_agrees (hlane : lane ∈ snapshotLanes routes (s.runtimeBatch routes)) {f : TraceFacets}
    (hf : s.batchFacets routes lane = .ok f) {session : String}
    (hsession : (f.currentSession <|> f.placeholderSession) = some session) :
    (s.runtimeBatch routes).processes[session]? = s.runtimeProcess session := by
  refine getElem?_processes (mem_processSessions ?_)
  unfold batchFacets at hf
  cases hnames : s.batchNames routes lane with
  | nil =>
    rw [hnames] at hf
    obtain rfl := Except.ok.inj hf
    cases hsession
  | cons trace rest =>
    rw [hnames] at hf
    cases rest with
    | cons trace' rest =>
      obtain rfl := Except.ok.inj hf
      cases hsession
    | nil =>
      have hnamed : trace ∈ s.named routes := mem_named.2 ⟨lane, by rw [hnames]; exact List.mem_singleton_self _⟩
      obtain rfl := Except.ok.inj hf
      dsimp only at hsession
      rw [placeholderSession_eq] at hsession
      cases hcurrent : (currentFacets lane trace ((s.runtimeBatch routes).roots[trace]?.getD none)
          ((s.runtimeBatch routes).attached[trace]?.getD [])).currentSession with
      | none =>
        rw [hcurrent] at hsession
        exact .inl (Option.some.inj hsession ▸ hlane)
      | some x =>
        rw [hcurrent] at hsession
        obtain rfl : x = session := Option.some.inj hsession
        obtain ⟨a, ha, hx⟩ := currentSession_mem hcurrent
        rw [getD_attached hnamed] at ha
        exact .inr ⟨trace, hnamed, a, ha, hx⟩

end RuntimeStore

/-- **A lane resolves alike in the batch and alone** iff `AgreeWhen` holds of it: for every store, route map and folded
    message list, and every lane a snapshot lists. -/
theorem batch_agrees_iff (s : RuntimeStore) (routes : BTreeMap String Route) (rows : List Message) {lane : String}
    (hlane : lane ∈ snapshotLanes routes (s.runtimeBatch routes)) :
    snapshotRuntime s routes (fold rows) lane = resolve s lane routes (fold rows) ↔ s.AgreeWhen routes lane := by
  have hsnapshot : snapshotRuntime s routes (fold rows) lane =
      resolveWith lane routes (latestCompletion (fold rows) lane) (s.batchNames routes lane) (s.runtimeLaneExists lane)
      (fun trace => .ok ((s.runtimeBatch routes).roots[trace]?.getD none))
      (fun trace => (s.runtimeBatch routes).attached[trace]?.getD []) fun session =>
      (s.runtimeBatch routes).processes[session]? := by
    rw [snapshotRuntime, resolveWithCompletionBatch, completions_agree, RuntimeStore.mem_laneExists hlane]
    rfl
  obtain ⟨f, hf⟩ := s.batchFacets_ok routes lane
  rw [hsnapshot, resolve]
  constructor
  · intro heq
    have hsingle := facets_of_resolveWith hf heq
    have hnames : s.batchNames routes lane = s.runtimeTraceNames lane :=
      (names_of_traceFacets hf).symm.trans (names_of_traceFacets hsingle)
    refine ⟨RuntimeStore.batchNames_eq_iff.1 hnames, fun trace htrace r hmem hkey => ?_⟩
    rw [RuntimeStore.singleton_iff.2 htrace] at hsingle
    by_contra hnone
    rw [traceFacets, RuntimeStore.unrooted hmem hkey (by simpa using hnone)] at hsingle
    cases hsingle
  · intro hagree
    have hfacets := RuntimeStore.facets_agree hagree
    rw [hf] at hfacets
    have hprocess : ((f.currentSession <|> f.placeholderSession).bind fun session =>
        (s.runtimeBatch routes).processes[session]?) =
        (f.currentSession <|> f.placeholderSession).bind s.runtimeProcess := by
      cases hsession : (f.currentSession <|> f.placeholderSession) with
      | none => rfl
      | some session => exact RuntimeStore.process_agrees hlane hf hsession
    unfold RuntimeStore.batchFacets at hf
    rw [resolveWith, resolveWith, hf, hfacets, Except.map, Except.map, hprocess]

/-- A lane that was spawned without a trace and attached to one later. -/
def attachedLater : RuntimeStore where
  dictSession := ⟨[(1, "lane-a"), (2, "ses-1")], by decide, by decide⟩
  dictTrace := ⟨[(1, "trace-a")], by decide, by decide⟩
  dictPane := ⟨[], by decide, by decide⟩
  agentLane := [⟨1, none⟩]
  agentTrace := [⟨1, some 1⟩]
  agentTraceSpan := [⟨1, 1, 10⟩, ⟨2, 1, 11⟩]
  agentSession := [2]
  agentTurn := [(2, some 20)]
  agentUsage := []
  agentLive := [⟨2, some 99, none, some "live"⟩]
  traceIds := by decide
  spanSessions := by decide
  liveSessions := by decide

def laneRoute : BTreeMap String Route := (∅ : BTreeMap String Route).insert "lane-a" .default

/-- With a route, both readings find its trace and its session. -/
theorem batch_agrees_iff_routed :
    snapshotRuntime attachedLater laneRoute (fold []) "lane-a" = resolve attachedLater "lane-a" laneRoute (fold []) ↔
      attachedLater.AgreeWhen laneRoute "lane-a" :=
  batch_agrees_iff attachedLater laneRoute [] (by decide +kernel)

/-- Without one, the batch leaves the span's trace out. -/
theorem spans_left_out : "lane-a" ∈ snapshotLanes ∅ (attachedLater.runtimeBatch ∅) ∧
    (snapshotRuntime attachedLater ∅ (fold []) "lane-a").toOption.bind LaneRuntime.trace = none ∧
    (resolve attachedLater "lane-a" ∅ (fold [])).toOption.bind LaneRuntime.trace = some "trace-a" ∧
    snapshotRuntime attachedLater ∅ (fold []) "lane-a" ≠ resolve attachedLater "lane-a" ∅ (fold []) := by
  have hbatch : (snapshotRuntime attachedLater ∅ (fold []) "lane-a").toOption.bind LaneRuntime.trace = none := by
    decide +kernel
  have hsingle : (resolve attachedLater "lane-a" ∅ (fold [])).toOption.bind LaneRuntime.trace = some "trace-a" := by
    decide +kernel
  refine ⟨by decide +kernel, hbatch, hsingle, fun heq => ?_⟩
  rw [heq, hsingle] at hbatch
  cases hbatch

end BoopStore
