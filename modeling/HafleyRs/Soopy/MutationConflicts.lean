import HafleyRs.Soopy.MutationGroups

/-!
# The conflicts of a batch (`crates/soopy/src/_7d_mutation_plan.rs:426`)

Everything `group_actions` reports, read off the batch (`mem_foundConflicts`): which of the moves of a
source counts for the destinations is the only thing besides `collisions` that the order decides. A batch
without conflicts is `Clean`, and that says nothing of the order (`foundConflicts_eq_nil`).
-/

namespace Soopy

def Created (actions : List SourceAction) (path : SourcePath) : Prop := path ∈ (createsOf actions).map Prod.fst

instance (actions : List SourceAction) : DecidablePred (Created actions) := fun path =>
  inferInstanceAs (Decidable (path ∈ (createsOf actions).map Prod.fst))

/-- A path that nothing may be put at: it is there, or it is a source of the batch. -/
def Blocked (root : SourceRoot) (actions : List SourceAction) (path : SourcePath) : Prop :=
  (∃ s, operationsOn s actions ≠ [] ∧ sourcePath s = path) ∨ destinationIsOccupied root path

/-- The move that is left for the source goes there. -/
def MovesTo (actions : List SourceAction) (s : ActionSource) (path : SourcePath) : Prop :=
  ((grouping actions).sources[s]?).bind (·.destination) = some path

/-- One of the moves of the source goes there. -/
def MayMove (actions : List SourceAction) (s : ActionSource) (path : SourcePath) : Prop :=
  ∃ op ∈ othersOn s actions, op.destination = some path

/-- Whatever is done with the source is a move there. -/
def MustMove (actions : List SourceAction) (s : ActionSource) (path : SourcePath) : Prop :=
  othersOn s actions ≠ [] ∧ ∀ op ∈ othersOn s actions, op.destination = some path

theorem movesTo_iff {as : List SourceAction} {s : ActionSource} {p : SourcePath} :
    MovesTo as s p ↔ (othersOn s as).getLast?.bind (·.destination) = some p := by
  rw [MovesTo, grouping_sources]
  by_cases h : othersOn s as = []
  · rw [h]
    refine iff_of_false ?_ (by simp)
    cases hops : operationsOn s as with
    | nil => simp [entryAfter]
    | cons op ops =>
      rw [othersOn, hops] at h
      by_cases hop : op.IsReplace
      · obtain ⟨x, es, rfl⟩ := eq_replace hop
        rw [others_replace] at h
        rw [entryAfter, List.foldl_cons, ← entryAfter,
          show mergeOperation none (.replace x es) = .replace x es from rfl,
          entryAfter_replace, h]
        simp [SourceOperation.destination]
      · rw [others_cons hop] at h
        cases h
  · rw [entryAfter_of_others h]

theorem MovesTo.may {as : List SourceAction} {s : ActionSource} {p : SourcePath} (h : MovesTo as s p) :
    MayMove as s p := by
  obtain ⟨op, hop, hd⟩ := Option.bind_eq_some_iff.1 (movesTo_iff.1 h)
  exact ⟨op, List.mem_of_getLast? hop, hd⟩

theorem MustMove.moves {as : List SourceAction} {s : ActionSource} {p : SourcePath} (h : MustMove as s p) :
    MovesTo as s p := by
  rw [movesTo_iff, List.getLast?_eq_some_getLast h.1, Option.bind_some]
  exact h.2 _ (List.getLast_mem h.1)

/-! ## The destinations -/

theorem mem_sourcePaths {as : List SourceAction} {p : SourcePath} :
    p ∈ (grouping as).sourcePaths ↔ ∃ s, operationsOn s as ≠ [] ∧ sourcePath s = p := by
  rw [GroupedActions.sourcePaths, BTreeSet.mem_foldl_insert]
  simp only [Std.ExtTreeSet.not_mem_empty, false_or, BTreeMap.mem_keys, grouping_sources, entryAfter_isSome]

theorem mem_creates {as : List SourceAction} {p : SourcePath} :
    p ∈ (grouping as).creates.keys ↔ Created as p := by
  have hfold : ∀ (es : List (SourcePath × Bytes)) (m : BTreeMap SourcePath Bytes),
      p ∈ (es.foldl (fun m e => m.insert e.1 e.2) m).keys ↔ p ∈ es.map Prod.fst ∨ p ∈ m.keys := by
    intro es
    induction es with
    | nil => simp
    | cons e es ih =>
      intro m
      rw [List.foldl_cons, ih, BTreeMap.mem_keys, BTreeMap.mem_keys, BTreeMap.getElem?_insert,
        List.map_cons, List.mem_cons]
      by_cases hp : e.1 = p
      · simp [hp]
      · have hp' : p ≠ e.1 := Ne.symm hp
        simp [hp, hp']
  have hnil : p ∉ (∅ : BTreeMap SourcePath Bytes).keys := by simp [BTreeMap.mem_keys]
  rw [grouping_creates, hfold, Created]
  exact or_iff_left hnil

theorem mem_destinations {as : List SourceAction} {p : SourcePath} :
    p ∈ (grouping as).destinations ↔ Created as p ∨ ∃ s, MovesTo as s p := by
  rw [GroupedActions.destinations, List.mem_append, mem_creates, BTreeMap.mem_filterMap_toList]
  rfl

theorem one_lt_count_destinations {as : List SourceAction} {p : SourcePath} :
    1 < (grouping as).destinations.count p ↔ (Created as p ∧ ∃ s, MovesTo as s p) ∨
      ∃ s s', s ≠ s' ∧ MovesTo as s p ∧ MovesTo as s' p := by
  have hmoves : (∃ s s', s ≠ s' ∧ MovesTo as s p ∧ MovesTo as s' p) ↔
      1 < ((grouping as).sources.toList.filterMap fun e => e.2.destination).count p :=
    BTreeMap.one_lt_count_filterMap.symm
  have hsome : (∃ s, MovesTo as s p) ↔
      0 < ((grouping as).sources.toList.filterMap fun e => e.2.destination).count p := by
    rw [List.count_pos_iff]
    exact BTreeMap.mem_filterMap_toList.symm
  have hcreates : (grouping as).creates.keys.count p = if Created as p then 1 else 0 := by
    by_cases hc : Created as p
    · rw [if_pos hc, List.count_eq_one_of_mem (BTreeMap.keys_nodup _) (mem_creates.2 hc)]
    · rw [if_neg hc, List.count_eq_zero_of_not_mem fun h => hc (mem_creates.1 h)]
  rw [GroupedActions.destinations, List.count_append, hcreates, hmoves, hsome]
  by_cases hc : Created as p
  · simp only [hc, if_true, true_and]
    omega
  · simp [hc]

theorem mem_foldl_claim (root : SourceRoot) (sourcePaths : BTreeSet SourcePath) (paths : List SourcePath)
    (d : Destinations) (c : MutationConflict) :
    c ∈ (paths.foldl (claimDestination root sourcePaths) d).conflicts ↔ c ∈ d.conflicts ∨
      (∃ p, c = .pathCollision p ∧ Twice (· ∈ d.claimed) paths p) ∨
      ∃ p ∈ paths, c = .occupiedDestination p ∧ (p ∈ sourcePaths ∨ destinationIsOccupied root p) := by
  induction paths generalizing d with
  | nil => simp [twice_nil]
  | cons path paths ih =>
    have hheld : ∀ p, p ∈ (claimDestination root sourcePaths d path).claimed ↔ path = p ∨ p ∈ d.claimed :=
      fun p => BTreeSet.mem_insert
    have hconf : c ∈ (claimDestination root sourcePaths d path).conflicts ↔ c ∈ d.conflicts ∨
        (c = .pathCollision path ∧ path ∈ d.claimed) ∨
        (c = .occupiedDestination path ∧ (path ∈ sourcePaths ∨ destinationIsOccupied root path)) := by
      rw [claimDestination]
      by_cases h1 : path ∈ d.claimed
      · by_cases h2 : path ∈ sourcePaths ∨ destinationIsOccupied root path
        · simp [h1, h2]
        · simp [h1, h2]
      · by_cases h2 : path ∈ sourcePaths ∨ destinationIsOccupied root path
        · simp [h1, h2]
        · simp [h1, h2]
    rw [List.foldl_cons, ih, hconf, exists_twice_cons hheld]
    simp only [List.mem_cons, exists_eq_or_imp]
    constructor
    · rintro ((h | h | h) | h | h)
      · exact .inl h
      · exact .inr (.inl (.inl h))
      · exact .inr (.inr (.inl h))
      · exact .inr (.inl (.inr h))
      · exact .inr (.inr (.inr h))
    · rintro (h | (h | h) | h | h)
      · exact .inl (.inl h)
      · exact .inl (.inr (.inl h))
      · exact .inr (.inl h)
      · exact .inl (.inr (.inr h))
      · exact .inr (.inr h)

theorem twice_iff_of_not_held (held : SourcePath → Prop) [DecidablePred held] (h : ∀ p, ¬ held p)
    (paths : List SourcePath) (p : SourcePath) : Twice held paths p ↔ 1 < paths.count p := by
  rw [Twice, if_neg (h p), ← List.count_pos_iff]
  omega

/-- **`group_actions` (_7d_mutation_plan.rs:426)**: the conflicts it finds. -/
theorem mem_foundConflicts (root : SourceRoot) (as : List SourceAction) (c : MutationConflict) :
    c ∈ foundConflicts root as ↔
      (∃ p, c = .pathCollision p ∧ (1 < ((createsOf as).map Prod.fst).count p ∨
        (Created as p ∧ ∃ s, MovesTo as s p) ∨ ∃ s s', s ≠ s' ∧ MovesTo as s p ∧ MovesTo as s' p)) ∨
      (∃ p, c = .occupiedDestination p ∧ (Created as p ∨ ∃ s, MovesTo as s p) ∧ Blocked root as p) ∨
      ∃ s, c ∈ collisions s none (operationsOn s as) := by
  have hgroup := mem_foldl_groupAction as ⟨⟨∅, ∅⟩, []⟩ c
  simp only [List.not_mem_nil, false_or, Std.ExtTreeMap.getElem?_empty,
    twice_iff_of_not_held (Held ∅) (by simp)] at hgroup
  have hclaim := mem_foldl_claim root (grouping as).sourcePaths (grouping as).destinations
    ⟨∅, (grouping as).conflicts⟩ c
  simp only [twice_iff_of_not_held (· ∈ (∅ : BTreeSet SourcePath)) (by simp),
    one_lt_count_destinations, mem_destinations, mem_sourcePaths] at hclaim
  rw [foundConflicts, hclaim, grouping, hgroup]
  constructor
  · rintro ((⟨p, rfl, h⟩ | h) | ⟨p, rfl, h⟩ | ⟨p, hp, rfl, hb⟩)
    · exact .inl ⟨p, rfl, .inl h⟩
    · exact .inr (.inr h)
    · exact .inl ⟨p, rfl, .inr h⟩
    · exact .inr (.inl ⟨p, rfl, hp, hb⟩)
  · rintro (⟨p, rfl, h | h⟩ | ⟨p, rfl, hp, hb⟩ | h)
    · exact .inl (.inl ⟨p, rfl, h⟩)
    · exact .inr (.inl ⟨p, rfl, h⟩)
    · exact .inr (.inr ⟨p, hp, rfl, hb⟩)
    · exact .inl (.inr h)

/-! ## Batches without conflicts -/

theorem length_others_add (ops : List SourceOperation) :
    (others ops).length + (expecteds ops).length = ops.length := by
  induction ops with
  | nil => rfl
  | cons op ops ih =>
    by_cases hop : op.IsReplace
    · obtain ⟨x, es, rfl⟩ := eq_replace hop
      simp only [others_replace, expecteds_replace, List.length_cons]
      omega
    · simp only [others_cons hop, expecteds_cons hop, List.length_cons]
      omega

theorem length_on_add (s : ActionSource) (as : List SourceAction) :
    (othersOn s as).length + (expectedsOn s as).length = (operationsOn s as).length :=
  length_others_add (operationsOn s as)

theorem leading_eq_expecteds {ops : List SourceOperation} (h : others ops = []) : leading ops = expecteds ops := by
  rw [leading, List.takeWhile_eq_self_iff.2]
  intro op hop
  simpa using List.filter_eq_nil_iff.1 h op hop

theorem mem_leading {ops : List SourceOperation} {x : ContentId} (h : x ∈ leading ops) : x ∈ expecteds ops := by
  obtain ⟨op, hop, hx⟩ := List.mem_filterMap.1 h
  exact List.mem_filterMap.2 ⟨op, (List.takeWhile_sublist _).subset hop, hx⟩

/-- The batch has no conflict. -/
structure Clean (root : SourceRoot) (actions : List SourceAction) : Prop where
  created  : ((createsOf actions).map Prod.fst).Nodup
  alone    : ∀ s, othersOn s actions ≠ [] → (othersOn s actions).length = 1 ∧ expectedsOn s actions = []
  agreed   : ∀ s, ∀ x ∈ expectedsOn s actions, ∀ y ∈ expectedsOn s actions, x = y
  separate : ∀ p s s', MayMove actions s p → MayMove actions s' p → s = s'
  fresh    : ∀ p s, MayMove actions s p → ¬ Created actions p
  free     : ∀ p, (Created actions p ∨ ∃ s, MayMove actions s p) → ¬ Blocked root actions p

/-- A source with one operation moves where it may. -/
theorem MayMove.moves {as : List SourceAction} {s : ActionSource} {p : SourcePath} (h : MayMove as s p)
    (halone : othersOn s as ≠ [] → (othersOn s as).length = 1) : MovesTo as s p := by
  obtain ⟨op, hop, hd⟩ := h
  obtain ⟨op', hop'⟩ := List.length_eq_one_iff.1 (halone (List.ne_nil_of_mem hop))
  rw [hop', List.mem_singleton] at hop
  subst hop
  refine MustMove.moves ⟨by rw [hop']; simp, ?_⟩
  rw [hop']
  simpa using hd

theorem foundConflicts_eq_nil {root : SourceRoot} {as : List SourceAction} :
    foundConflicts root as = [] ↔ Clean root as := by
  rw [List.eq_nil_iff_forall_not_mem]
  simp only [mem_foundConflicts, not_or, mem_collisions]
  constructor
  · intro h
    have halone : ∀ s, othersOn s as ≠ [] → (othersOn s as).length = 1 ∧ expectedsOn s as = [] := by
      intro s ho
      have hlen : ¬ 2 ≤ (operationsOn s as).length := fun hlen =>
        (h (.sourceOperationCollision s)).2.2 ⟨s, .inr ⟨ho, hlen, rfl⟩⟩
      have hsum := length_on_add s as
      have hpos := List.length_pos_iff.2 ho
      have hexp : (expectedsOn s as).length = 0 := by omega
      exact ⟨by omega, List.length_eq_zero_iff.1 hexp⟩
    have hmoves : ∀ {s p}, MayMove as s p → MovesTo as s p :=
      fun {s p} hm => hm.moves fun ho => (halone s ho).1
    refine ⟨?_, halone, fun s => ?_, fun p s s' hs hs' => ?_, fun p s hs hc => ?_, fun p hp hb => ?_⟩
    · rw [List.nodup_iff_count_le_one]
      intro p
      by_contra hgt
      exact (h (.pathCollision p)).1 ⟨p, rfl, .inl (by omega)⟩
    · -- a second content would be told against the first
      by_cases ho : othersOn s as = []
      · have hlead := leading_eq_expecteds ho
        have hfirst : ∀ x rest, expectedsOn s as = x :: rest → ∀ y ∈ rest, x = y := by
          intro x rest hx y hy
          by_contra hne
          exact (h _).2.2 ⟨s, .inl ⟨x, rest, hlead.trans hx, y, hy, hne, rfl⟩⟩
        cases hx : expectedsOn s as with
        | nil => simp
        | cons x rest =>
          have hall : ∀ y ∈ x :: rest, x = y := by simpa using hfirst x rest hx
          exact fun y hy z hz => (hall y hy).symm.trans (hall z hz)
      · simp [(halone s ho).2]
    · by_contra hne
      exact (h (.pathCollision p)).1 ⟨p, rfl, .inr (.inr ⟨s, s', hne, hmoves hs, hmoves hs'⟩)⟩
    · exact (h (.pathCollision p)).1 ⟨p, rfl, .inr (.inl ⟨hc, s, hmoves hs⟩)⟩
    · refine (h (.occupiedDestination p)).2.1 ⟨p, rfl, ?_, hb⟩
      rcases hp with hp | ⟨s, hs⟩
      · exact .inl hp
      · exact .inr ⟨s, hmoves hs⟩
  · intro h c
    refine ⟨?_, ?_, ?_⟩
    · rintro ⟨p, -, hp | ⟨hc, s, hs⟩ | ⟨s, s', hne, hs, hs'⟩⟩
      · have := List.nodup_iff_count_le_one.1 h.created p
        omega
      · exact h.fresh p s hs.may hc
      · exact hne (h.separate p s s' hs.may hs'.may)
    · rintro ⟨p, -, hp | ⟨s, hs⟩, hb⟩
      · exact h.free p (.inl hp) hb
      · exact h.free p (.inr ⟨s, hs.may⟩) hb
    · rintro ⟨s, ⟨x, rest, hlead, y, hy, hne, -⟩ | ⟨ho, hlen, -⟩⟩
      · refine hne (h.agreed s x (mem_leading ?_) y (mem_leading ?_))
        · rw [hlead]; simp
        · rw [hlead]; simp [hy]
      · obtain ⟨h1, h2⟩ := h.alone s ho
        have hsum := length_on_add s as
        rw [h1, h2] at hsum
        simp only [List.length_nil] at hsum
        omega

/-! ## What the order leaves alone -/

/-- Two batches that say the same of every path and source. -/
structure SameBatch (as bs : List SourceAction) : Prop where
  creates   : (createsOf as).Perm (createsOf bs)
  others    : ∀ s, (othersOn s as).Perm (othersOn s bs)
  expecteds : ∀ s x, x ∈ expectedsOn s as ↔ x ∈ expectedsOn s bs
  edits     : ∀ s x, (editsOn s x as).Perm (editsOn s x bs)

theorem SameBatch.symm {as bs : List SourceAction} (h : SameBatch as bs) : SameBatch bs as :=
  ⟨h.creates.symm, fun s => (h.others s).symm, fun s x => (h.expecteds s x).symm, fun s x => (h.edits s x).symm⟩

theorem SameBatch.trans {as bs cs : List SourceAction} (h : SameBatch as bs) (h' : SameBatch bs cs) :
    SameBatch as cs :=
  ⟨h.creates.trans h'.creates, fun s => (h.others s).trans (h'.others s),
    fun s x => (h.expecteds s x).trans (h'.expecteds s x), fun s x => (h.edits s x).trans (h'.edits s x)⟩

theorem SameBatch.of_perm {as bs : List SourceAction} (h : as.Perm bs) : SameBatch as bs := by
  have hops : ∀ s, (operationsOn s as).Perm (operationsOn s bs) := fun s => h.filterMap _
  exact ⟨h.filterMap _, fun s => (hops s).filter _, fun s x => ((hops s).filterMap _).mem_iff,
    fun s x => (hops s).flatMap_right _⟩

theorem SameBatch.others_nil {as bs : List SourceAction} (h : SameBatch as bs) (s : ActionSource) :
    othersOn s as = [] ↔ othersOn s bs = [] := by
  rw [← List.length_eq_zero_iff, (h.others s).length_eq, List.length_eq_zero_iff]

theorem SameBatch.created {as bs : List SourceAction} (h : SameBatch as bs) (p : SourcePath) :
    Created as p ↔ Created bs p :=
  (h.creates.map _).mem_iff

theorem SameBatch.may {as bs : List SourceAction} (h : SameBatch as bs) (s : ActionSource) (p : SourcePath) :
    MayMove as s p ↔ MayMove bs s p := by
  unfold MayMove
  simp only [(h.others s).mem_iff]

theorem SameBatch.must {as bs : List SourceAction} (h : SameBatch as bs) (s : ActionSource) (p : SourcePath) :
    MustMove as s p ↔ MustMove bs s p := by
  unfold MustMove
  simp only [(h.others s).mem_iff, ne_eq, h.others_nil s]

theorem operationsOn_ne_nil {s : ActionSource} {as : List SourceAction} :
    operationsOn s as ≠ [] ↔ othersOn s as ≠ [] ∨ ∃ x, x ∈ expectedsOn s as := by
  have hsum := length_on_add s as
  rw [← List.length_pos_iff, ← List.length_pos_iff, ← List.length_pos_iff_exists_mem, ← hsum]
  omega

theorem SameBatch.blocked {as bs : List SourceAction} (h : SameBatch as bs) (root : SourceRoot) (p : SourcePath) :
    Blocked root as p ↔ Blocked root bs p := by
  have hops : ∀ s, operationsOn s as ≠ [] ↔ operationsOn s bs ≠ [] := by
    intro s
    rw [operationsOn_ne_nil, operationsOn_ne_nil, ne_eq, h.others_nil s]
    simp only [h.expecteds]
  unfold Blocked
  simp only [hops]

theorem SameBatch.clean {as bs : List SourceAction} (h : SameBatch as bs) {root : SourceRoot}
    (hc : Clean root as) : Clean root bs := by
  refine ⟨(h.creates.map _).nodup_iff.1 hc.created, fun s ho => ?_, fun s x hx y hy => ?_,
    fun p s s' hs hs' => ?_, fun p s hs hp => ?_, fun p hp hb => ?_⟩
  · obtain ⟨h1, h2⟩ := hc.alone s (mt (h.others_nil s).1 ho)
    refine ⟨(h.others s).length_eq.symm.trans h1, List.eq_nil_iff_forall_not_mem.2 fun x hx => ?_⟩
    have hx := (h.expecteds s x).2 hx
    rw [h2] at hx
    cases hx
  · exact hc.agreed s x ((h.expecteds s x).2 hx) y ((h.expecteds s y).2 hy)
  · exact hc.separate p s s' ((h.may s p).2 hs) ((h.may s' p).2 hs')
  · exact hc.fresh p s ((h.may s p).2 hs) ((h.created p).2 hp)
  · refine hc.free p ?_ ((h.blocked root p).2 hb)
    rcases hp with hp | ⟨s, hs⟩
    · exact .inl ((h.created p).2 hp)
    · exact .inr ⟨s, (h.may s p).2 hs⟩

end Soopy
