import HafleyRs.Soopy.MutationOrder

/-!
# Which refusals depend on the order (`crates/soopy/src/_7d_mutation_plan.rs:426`)

Whether a batch is refused is a matter of the batch (`foundConflicts_eq_nil`), but which conflicts are told
is not: a replacement is compared with the first one of its source only, as long as nothing but replacements
has come, and a destination counts only while the move to it is its source's last. `OrderFree` is what keeps
both from showing.
-/

namespace Soopy

def conflictsOf : Except Halt MutationPlan → List MutationConflict
  | .error (.refused (.conflict conflicts)) => conflicts
  | _ => []

def IsRefused (result : Except Halt MutationPlan) : Prop := ∃ refusal, result = .error (.refused refusal)

/-- Both refuse, for the same conflicts, or neither does. -/
structure RefusesAlike (result result' : Except Halt MutationPlan) : Prop where
  refused   : IsRefused result ↔ IsRefused result'
  conflicts : ∀ c, c ∈ conflictsOf result ↔ c ∈ conflictsOf result'

/-- No conflict of the batch is told in one order and not in another. -/
structure OrderFree (root : SourceRoot) (actions : List SourceAction) : Prop where
  /-- Replacements alone expect no more than two contents of a source. -/
  two : ∀ s, othersOn s actions = [] → ∀ x ∈ expectedsOn s actions, ∀ y ∈ expectedsOn s actions,
    ∀ z ∈ expectedsOn s actions, x = y ∨ y = z ∨ x = z
  /-- Replacements beside a move or a delete expect one. -/
  one : ∀ s, othersOn s actions ≠ [] → ∀ x ∈ expectedsOn s actions, ∀ y ∈ expectedsOn s actions, x = y
  /-- Where nothing may be put and nothing is created, some source moves whatever its last action. -/
  occupied : ∀ p, Blocked root actions p → ¬ Created actions p → (∃ s, MayMove actions s p) →
    ∃ s, MustMove actions s p
  /-- So it does where one create puts something. -/
  createdOnce : ∀ p, ((createsOf actions).map Prod.fst).count p = 1 → (∃ s, MayMove actions s p) →
    ∃ s, MustMove actions s p
  /-- Where two sources may meet, two sources do. -/
  uncreated : ∀ p, ¬ Created actions p → (∃ s s', s ≠ s' ∧ MayMove actions s p ∧ MayMove actions s' p) →
    ∃ s s', s ≠ s' ∧ MustMove actions s p ∧ MustMove actions s' p

theorem OrderFree.perm {root : SourceRoot} {as bs : List SourceAction} (hp : as.Perm bs)
    (h : OrderFree root as) : OrderFree root bs := by
  have hs := SameBatch.of_perm hp
  refine ⟨fun s ho x hx y hy z hz => ?_, fun s ho x hx y hy => ?_, fun p hb hc hm => ?_, fun p hc hm => ?_,
    fun p hc hm => ?_⟩
  · exact h.two s ((hs.others_nil s).2 ho) x ((hs.expecteds s x).2 hx) y ((hs.expecteds s y).2 hy) z
      ((hs.expecteds s z).2 hz)
  · exact h.one s (mt (hs.others_nil s).1 ho) x ((hs.expecteds s x).2 hx) y ((hs.expecteds s y).2 hy)
  · simp only [← hs.must, ← hs.may] at hm ⊢
    exact h.occupied p ((hs.blocked root p).2 hb) (fun hc' => hc ((hs.created p).1 hc')) hm
  · simp only [← hs.must, ← hs.may] at hm ⊢
    exact h.createdOnce p (((hs.creates.map _).count_eq p).trans hc) hm
  · simp only [← hs.must, ← hs.may] at hm ⊢
    exact h.uncreated p (fun hc' => hc ((hs.created p).1 hc')) hm

theorem mem_canonicalContentIds {x y z : ContentId} : z ∈ canonicalContentIds [x, y] ↔ z = x ∨ z = y := by
  simp [canonicalContentIds, mem_sortedDistinct]

theorem canonicalContentIds_comm (x y : ContentId) : canonicalContentIds [x, y] = canonicalContentIds [y, x] := by
  refine eq_sortedDistinct (sortedDistinct_sorted _) fun z => ?_
  rw [mem_canonicalContentIds]
  simp [or_comm]

/-- A batch told alike in every order loses no conflict to a permutation. -/
theorem OrderFree.mem_of_perm {root : SourceRoot} {as bs : List SourceAction} (h : OrderFree root as)
    (hp : as.Perm bs) {c : MutationConflict} (hc : c ∈ foundConflicts root as) : c ∈ foundConflicts root bs := by
  have hs := SameBatch.of_perm hp
  have hcount : ∀ p, ((createsOf bs).map Prod.fst).count p = ((createsOf as).map Prod.fst).count p :=
    fun p => ((hs.creates.map _).count_eq p).symm
  have hmust : ∀ {p}, (∃ s, MustMove as s p) → ∃ s, MovesTo bs s p := by
    rintro p ⟨s, hm⟩
    exact ⟨s, ((hs.must s p).1 hm).moves⟩
  rw [mem_foundConflicts] at hc ⊢
  simp only [mem_collisions] at hc ⊢
  rcases hc with ⟨p, rfl, hc⟩ | ⟨p, rfl, hd, hb⟩ | ⟨s, ⟨x, rest, hlead, y, hy, hne, rfl⟩ | ⟨ho, hlen, rfl⟩⟩
  · refine .inl ⟨p, rfl, ?_⟩
    by_cases htwice : 1 < ((createsOf as).map Prod.fst).count p
    · exact .inl (by rw [hcount]; exact htwice)
    · refine .inr ?_
      by_cases hcr : Created as p
      · -- the create meets a move
        have hpos : 0 < ((createsOf as).map Prod.fst).count p := List.count_pos_iff.2 hcr
        refine .inl ⟨(hs.created p).1 hcr, hmust (h.createdOnce p (by omega) ?_)⟩
        rcases hc with hc | ⟨-, s, hm⟩ | ⟨s, s', -, hm, -⟩
        · exact absurd hc htwice
        · exact ⟨s, hm.may⟩
        · exact ⟨s, hm.may⟩
      · rcases hc with hc | ⟨hcr', -⟩ | ⟨s, s', hne, hm, hm'⟩
        · exact absurd hc htwice
        · exact absurd hcr' hcr
        · obtain ⟨t, t', hne, ht, ht'⟩ := h.uncreated p hcr ⟨s, s', hne, hm.may, hm'.may⟩
          exact .inr ⟨t, t', hne, ((hs.must t p).1 ht).moves, ((hs.must t' p).1 ht').moves⟩
  · refine .inr (.inl ⟨p, rfl, ?_, (hs.blocked root p).1 hb⟩)
    by_cases hcr : Created as p
    · exact .inl ((hs.created p).1 hcr)
    · rcases hd with hd | ⟨s, hm⟩
      · exact absurd hd hcr
      · exact .inr (hmust (h.occupied p hb hcr ⟨s, hm.may⟩))
  · -- two contents: no move or delete, and whichever comes first is told against the other
    have hx : x ∈ expectedsOn s as := mem_leading (by rw [hlead]; simp)
    have hy' : y ∈ expectedsOn s as := mem_leading (by rw [hlead]; simp [hy])
    have ho : othersOn s as = [] := by
      by_contra ho
      exact hne (h.one s ho x hx y hy')
    have hlead' := leading_eq_expecteds ((hs.others_nil s).1 ho)
    refine .inr (.inr ⟨s, .inl ?_⟩)
    cases hexp : expectedsOn s bs with
    | nil =>
      have := (hs.expecteds s x).1 hx
      rw [hexp] at this
      cases this
    | cons z rest' =>
      have hz : z ∈ expectedsOn s as := (hs.expecteds s z).2 (by rw [hexp]; simp)
      have hxb := (hs.expecteds s x).1 hx
      have hyb := (hs.expecteds s y).1 hy'
      rw [hexp, List.mem_cons] at hxb hyb
      rcases h.two s ho z hz x hx y hy' with rfl | hxy | rfl
      · refine ⟨z, rest', hlead'.trans hexp, y, ?_, hne, rfl⟩
        exact hyb.resolve_left fun heq => hne heq.symm
      · exact absurd hxy hne
      · refine ⟨z, rest', hlead'.trans hexp, x, ?_, Ne.symm hne, by rw [canonicalContentIds_comm]⟩
        exact hxb.resolve_left hne
  · have hops : (operationsOn s as).length = (operationsOn s bs).length := (hp.filterMap _).length_eq
    exact .inr (.inr ⟨s, .inr ⟨mt (hs.others_nil s).2 ho, hops ▸ hlen, rfl⟩⟩)

/-! ## Orders that show a conflict, and orders that hide it -/

/-- The actions of which `q` holds first, or last. -/
def promote (q : SourceAction → Bool) (actions : List SourceAction) : List SourceAction :=
  actions.filter q ++ actions.filter fun a => !q a

theorem promote_perm (q : SourceAction → Bool) (as : List SourceAction) : as.Perm (promote q as) :=
  (List.filter_append_perm q as).symm

theorem operationsOn_filter {q : SourceAction → Bool} {r : SourceOperation → Bool} {s : ActionSource}
    (hq : ∀ a op, a.on s = some op → q a = r op) (as : List SourceAction) :
    operationsOn s (as.filter q) = (operationsOn s as).filter r := by
  induction as with
  | nil => rfl
  | cons a as ih =>
    cases ha : a.on s with
    | none =>
      have hcons : operationsOn s (a :: as) = operationsOn s as := List.filterMap_cons_none ha
      rw [hcons, ← ih]
      by_cases hqa : q a
      · rw [List.filter_cons_of_pos hqa]
        exact List.filterMap_cons_none ha
      · rw [List.filter_cons_of_neg hqa]
    | some op =>
      have hcons : ∀ as, operationsOn s (a :: as) = op :: operationsOn s as := fun as => List.filterMap_cons_some ha
      have hr := hq a op ha
      rw [hcons]
      by_cases hqa : q a
      · rw [List.filter_cons_of_pos hqa, hcons, ih, List.filter_cons_of_pos (hr ▸ hqa)]
      · rw [List.filter_cons_of_neg hqa, ih, List.filter_cons_of_neg (hr ▸ hqa)]

theorem operationsOn_promote {q : SourceAction → Bool} {r : SourceOperation → Bool} {s : ActionSource}
    (hq : ∀ a op, a.on s = some op → q a = r op) (as : List SourceAction) :
    operationsOn s (promote q as) = (operationsOn s as).filter r ++ (operationsOn s as).filter fun op => !r op := by
  rw [promote, operationsOn_append, operationsOn_filter hq,
    operationsOn_filter (r := fun op => !r op) fun a op h => by rw [hq a op h]]

/-- Whether the action moves its source to the path. -/
def goesTo (p : SourcePath) (a : SourceAction) : Bool :=
  (a.operation.bind fun e => e.2.destination) = some p

theorem goesTo_on {p : SourcePath} {s : ActionSource} (a : SourceAction) (op : SourceOperation)
    (h : a.on s = some op) : goesTo p a = decide (op.destination = some p) := by
  obtain ⟨e, he, hs⟩ := Option.bind_eq_some_iff.1 h
  by_cases hes : e.1 = s
  · rw [if_pos hes] at hs
    cases hs
    simp [goesTo, he]
  · rw [if_neg hes] at hs
    cases hs

/-- With the moves there put last, a source that may move there does. -/
theorem MayMove.promote_last {as : List SourceAction} {s : ActionSource} {p : SourcePath} (h : MayMove as s p) :
    MovesTo (promote (fun a => !goesTo p a) as) s p := by
  obtain ⟨op, hop, hd⟩ := h
  have hops : operationsOn s (promote (fun a => !goesTo p a) as) =
      ((operationsOn s as).filter fun op => !decide (op.destination = some p)) ++
        (operationsOn s as).filter fun op => !!decide (op.destination = some p) :=
    operationsOn_promote (fun a op h => by rw [goesTo_on a op h]) as
  have hlast : op ∈ others ((operationsOn s as).filter fun op => !!decide (op.destination = some p)) := by
    obtain ⟨h1, h2⟩ := List.mem_filter.1 hop
    exact List.mem_filter.2 ⟨List.mem_filter.2 ⟨h1, by simpa using hd⟩, h2⟩
  rw [movesTo_iff, othersOn, hops, others, List.filter_append, ← others, ← others,
    List.getLast?_append_of_ne_nil _ (List.ne_nil_of_mem hlast),
    List.getLast?_eq_some_getLast (List.ne_nil_of_mem hlast), Option.bind_some]
  have hmem := List.mem_filter.1 (List.getLast_mem (List.ne_nil_of_mem hlast))
  simpa using (List.mem_filter.1 hmem.1).2

/-- With the moves there put first, a source still moves there only if it must. -/
theorem MovesTo.must_of_promote {as : List SourceAction} {s : ActionSource} {p : SourcePath}
    (h : MovesTo (promote (goesTo p) as) s p) : MustMove as s p := by
  have hops : operationsOn s (promote (goesTo p) as) =
      ((operationsOn s as).filter fun op => decide (op.destination = some p)) ++
        (operationsOn s as).filter fun op => !decide (op.destination = some p) :=
    operationsOn_promote (fun a op h => goesTo_on a op h) as
  rw [movesTo_iff, othersOn, hops, others, List.filter_append, ← others, ← others] at h
  have hrest : others ((operationsOn s as).filter fun op => !decide (op.destination = some p)) = [] := by
    by_contra hne
    rw [List.getLast?_append_of_ne_nil _ hne, List.getLast?_eq_some_getLast hne, Option.bind_some] at h
    have hmem := List.mem_filter.1 (List.getLast_mem hne)
    have := (List.mem_filter.1 hmem.1).2
    simp [h] at this
  have hall : ∀ op ∈ othersOn s as, op.destination = some p := by
    intro op hop
    by_contra hd
    obtain ⟨h1, h2⟩ := List.mem_filter.1 hop
    have : op ∈ others ((operationsOn s as).filter fun op => !decide (op.destination = some p)) :=
      List.mem_filter.2 ⟨List.mem_filter.2 ⟨h1, by simpa using hd⟩, h2⟩
    rw [hrest] at this
    cases this
  refine ⟨fun hnil => ?_, hall⟩
  rw [hrest, List.append_nil] at h
  obtain ⟨op, hop, -⟩ := Option.bind_eq_some_iff.1 h
  have hmem := List.mem_filter.1 (List.mem_of_getLast? hop)
  have : op ∈ othersOn s as := List.mem_filter.2 ⟨(List.mem_filter.1 hmem.1).1, hmem.2⟩
  rw [hnil] at this
  cases this

/-- What the action expects of the source, as a replacement. -/
def expects (s : ActionSource) (a : SourceAction) : Option ContentId := (a.on s).bind (·.replaceExpected)

theorem expecteds_append (ops ops' : List SourceOperation) :
    expecteds (ops ++ ops') = expecteds ops ++ expecteds ops' := List.filterMap_append

/-- Any content that replacements alone expect of a source can come first. -/
theorem exists_leading {s : ActionSource} {as : List SourceAction} (ho : othersOn s as = []) {x : ContentId}
    (hx : x ∈ expectedsOn s as) : ∃ bs, as.Perm bs ∧ ∃ rest, leading (operationsOn s bs) = x :: rest ∧
      ∀ y ∈ expectedsOn s as, y ≠ x → y ∈ rest := by
  have hq : ∀ (a : SourceAction) (op : SourceOperation), a.on s = some op →
      decide (expects s a = some x) = decide (op.replaceExpected = some x) := by
    intro a op h
    rw [expects, h, Option.bind_some]
  have hops := operationsOn_promote hq as
  have hperm := promote_perm (fun a => decide (expects s a = some x)) as
  refine ⟨_, hperm, ?_⟩
  rw [leading_eq_expecteds ((SameBatch.of_perm hperm).others_nil s |>.1 ho), hops, expecteds_append]
  obtain ⟨op, hop, hopx⟩ := List.mem_filterMap.1 hx
  cases hfirst : expecteds ((operationsOn s as).filter fun op => decide (op.replaceExpected = some x)) with
  | nil =>
    have : x ∈ expecteds ((operationsOn s as).filter fun op => decide (op.replaceExpected = some x)) :=
      List.mem_filterMap.2 ⟨op, List.mem_filter.2 ⟨hop, by simpa using hopx⟩, hopx⟩
    rw [hfirst] at this
    cases this
  | cons x' rest =>
    have hx' : x' = x := by
      have : x' ∈ expecteds ((operationsOn s as).filter fun op => decide (op.replaceExpected = some x)) := by
        rw [hfirst]; simp
      obtain ⟨op', hop', hopx'⟩ := List.mem_filterMap.1 this
      have := (List.mem_filter.1 hop').2
      rw [decide_eq_true_eq, hopx'] at this
      exact Option.some.inj this
    refine ⟨_, by rw [hx', List.cons_append], fun y hy hne => ?_⟩
    obtain ⟨op', hop', hopy⟩ := List.mem_filterMap.1 hy
    refine List.mem_append_right _ (List.mem_filterMap.2 ⟨op', List.mem_filter.2 ⟨hop', ?_⟩, hopy⟩)
    simpa [hopy] using hne

theorem leading_append {ops ops' : List SourceOperation} (h : ∀ op ∈ ops, op.IsReplace) :
    leading (ops ++ ops') = expecteds ops ++ leading ops' := by
  induction ops with
  | nil => rfl
  | cons op ops ih =>
    obtain ⟨x, es, rfl⟩ := eq_replace (h op (by simp))
    rw [List.cons_append, leading_replace, ih fun op hop => h op (by simp [hop]), expecteds_replace, List.cons_append]

def replaces (a : SourceAction) : Bool := (a.operation.map fun e => decide e.2.IsReplace) = some true

theorem replaces_on {s : ActionSource} (a : SourceAction) (op : SourceOperation) (h : a.on s = some op) :
    replaces a = decide op.IsReplace := by
  obtain ⟨e, he, hs⟩ := Option.bind_eq_some_iff.1 h
  by_cases hes : e.1 = s
  · rw [if_pos hes] at hs
    cases hs
    simp [replaces, he]
  · rw [if_neg hes] at hs
    cases hs

theorem expecteds_filter (ops : List SourceOperation) :
    expecteds (ops.filter fun op => decide op.IsReplace) = expecteds ops := by
  induction ops with
  | nil => rfl
  | cons op ops ih =>
    by_cases hop : op.IsReplace
    · obtain ⟨x, es, rfl⟩ := eq_replace hop
      rw [List.filter_cons_of_pos (by simpa using hop), expecteds_replace, expecteds_replace, ih]
    · rw [List.filter_cons_of_neg (by simpa using hop), expecteds_cons hop, ih]

/-- The conflicts of contents at a source, by what leads there. -/
theorem mem_found_mismatch {root : SourceRoot} {as : List SourceAction} {s : ActionSource} {ids : List ContentId} :
    .expectedContentMismatch s ids ∈ foundConflicts root as ↔
      ∃ x rest, leading (operationsOn s as) = x :: rest ∧ ∃ y ∈ rest, x ≠ y ∧ ids = canonicalContentIds [x, y] := by
  rw [mem_foundConflicts]
  simp only [mem_collisions]
  constructor
  · rintro (⟨p, hc, -⟩ | ⟨p, hc, -⟩ | ⟨t, ⟨x, rest, hlead, y, hy, hne, hc⟩ | ⟨-, -, hc⟩⟩)
    · cases hc
    · cases hc
    · cases hc
      exact ⟨x, rest, hlead, y, hy, hne, rfl⟩
    · cases hc
  · rintro ⟨x, rest, hlead, y, hy, hne, rfl⟩
    exact .inr (.inr ⟨s, .inl ⟨x, rest, hlead, y, hy, hne, rfl⟩⟩)

theorem mem_found_occupied {root : SourceRoot} {as : List SourceAction} {p : SourcePath} :
    .occupiedDestination p ∈ foundConflicts root as ↔
      (Created as p ∨ ∃ s, MovesTo as s p) ∧ Blocked root as p := by
  rw [mem_foundConflicts]
  simp only [mem_collisions]
  constructor
  · rintro (⟨q, hc, -⟩ | ⟨q, hc, h⟩ | ⟨t, ⟨x, rest, -, y, -, -, hc⟩ | ⟨-, -, hc⟩⟩)
    · cases hc
    · cases hc
      exact h
    · cases hc
    · cases hc
  · intro h
    exact .inr (.inl ⟨p, rfl, h⟩)

theorem mem_found_collision {root : SourceRoot} {as : List SourceAction} {p : SourcePath} :
    .pathCollision p ∈ foundConflicts root as ↔ 1 < ((createsOf as).map Prod.fst).count p ∨
      (Created as p ∧ ∃ s, MovesTo as s p) ∨ ∃ s s', s ≠ s' ∧ MovesTo as s p ∧ MovesTo as s' p := by
  rw [mem_foundConflicts]
  simp only [mem_collisions]
  constructor
  · rintro (⟨q, hc, h⟩ | ⟨q, hc, -⟩ | ⟨t, ⟨x, rest, -, y, -, -, hc⟩ | ⟨-, -, hc⟩⟩)
    · cases hc
      exact h
    · cases hc
    · cases hc
    · cases hc
  · intro h
    exact .inl ⟨p, rfl, h⟩

/-- The conflicts of the batch are told alike in every order. -/
def ToldAlike (root : SourceRoot) (actions : List SourceAction) : Prop :=
  ∀ bs, actions.Perm bs → ∀ c, c ∈ foundConflicts root actions ↔ c ∈ foundConflicts root bs

theorem ToldAlike.two {root : SourceRoot} {as : List SourceAction} (h : ToldAlike root as) {s : ActionSource}
    (ho : othersOn s as = []) {x y z : ContentId} (hx : x ∈ expectedsOn s as) (hy : y ∈ expectedsOn s as)
    (hz : z ∈ expectedsOn s as) : x = y ∨ y = z ∨ x = z := by
  by_contra hne
  simp only [not_or] at hne
  obtain ⟨bs, hbs, rest, hlead, hrest⟩ := exists_leading ho hx
  obtain ⟨cs, hcs, rest', hlead', -⟩ := exists_leading ho hy
  have hmem : .expectedContentMismatch s (canonicalContentIds [x, z]) ∈ foundConflicts root cs := by
    refine (h cs hcs _).1 ((h bs hbs _).2 (mem_found_mismatch.2 ⟨x, rest, hlead, z, ?_, hne.2.2, rfl⟩))
    exact hrest z hz (Ne.symm hne.2.2)
  obtain ⟨y', rest'', hlead'', w, -, -, hids⟩ := mem_found_mismatch.1 hmem
  obtain ⟨rfl, -⟩ := List.cons.inj (hlead'.symm.trans hlead'')
  have hyids : y ∈ canonicalContentIds [x, z] := by
    rw [hids, mem_canonicalContentIds]
    exact .inl rfl
  rcases mem_canonicalContentIds.1 hyids with heq | heq
  · exact hne.1 heq.symm
  · exact hne.2.1 heq

theorem ToldAlike.one {root : SourceRoot} {as : List SourceAction} (h : ToldAlike root as) {s : ActionSource}
    (ho : othersOn s as ≠ []) {x y : ContentId} (hx : x ∈ expectedsOn s as) (hy : y ∈ expectedsOn s as) :
    x = y := by
  by_contra hne
  -- replacements first: some two of them disagree; the others first: none is compared
  have hops := operationsOn_promote (q := replaces) (fun a op h => replaces_on (s := s) a op h) as
  have hops' := operationsOn_promote (q := fun a => !replaces a) (s := s)
    (fun a op h => by rw [replaces_on a op h]) as
  have hlead : ∃ tail, leading (operationsOn s (promote replaces as)) = expectedsOn s as ++ tail := by
    rw [hops, leading_append fun op hop => by simpa using (List.mem_filter.1 hop).2, expecteds_filter]
    exact ⟨_, rfl⟩
  have hlead' : leading (operationsOn s (promote (fun a => !replaces a) as)) = [] := by
    rw [hops']
    cases hot : (operationsOn s as).filter fun op => !decide op.IsReplace with
    | nil =>
      refine absurd ?_ ho
      rw [othersOn, others, ← hot]
      simp
    | cons op ops =>
      have hop : op ∈ (operationsOn s as).filter fun op => !decide op.IsReplace := by rw [hot]; simp
      exact leading_other (by simpa using (List.mem_filter.1 hop).2) _
  obtain ⟨tail, hlead⟩ := hlead
  have htwo : ∃ a rest, expectedsOn s as ++ tail = a :: rest ∧ ∃ b ∈ rest, a ≠ b := by
    cases hexp : expectedsOn s as with
    | nil =>
      rw [hexp] at hx
      cases hx
    | cons a rest =>
      rw [hexp, List.mem_cons] at hx hy
      refine ⟨a, rest ++ tail, rfl, ?_⟩
      by_cases hax : a = x
      · subst hax
        exact ⟨y, List.mem_append_left _ (hy.resolve_left fun h => hne h.symm), hne⟩
      · exact ⟨x, List.mem_append_left _ (hx.resolve_left fun h => hax h.symm), hax⟩
  obtain ⟨a, rest, heq, b, hb, hab⟩ := htwo
  have hmem : .expectedContentMismatch s (canonicalContentIds [a, b]) ∈ foundConflicts root (promote replaces as) :=
    mem_found_mismatch.2 ⟨a, rest, hlead.trans heq, b, hb, hab, rfl⟩
  have hmem := (h _ (promote_perm (fun a => !replaces a) as) _).1 ((h _ (promote_perm replaces as) _).2 hmem)
  obtain ⟨a', rest', hcontra, -⟩ := mem_found_mismatch.1 hmem
  rw [hlead'] at hcontra
  cases hcontra

theorem ToldAlike.orderFree {root : SourceRoot} {as : List SourceAction} (h : ToldAlike root as) :
    OrderFree root as := by
  have hfl : ∀ {p c}, c ∈ foundConflicts root (promote (fun a => !goesTo p a) as) →
      c ∈ foundConflicts root (promote (goesTo p) as) := fun {p c} hc =>
    (h _ (promote_perm _ as) c).1 ((h _ (promote_perm _ as) c).2 hc)
  have hs : ∀ q, SameBatch as (promote q as) := fun q => .of_perm (promote_perm q as)
  refine ⟨fun s ho x hx y hy z hz => h.two ho hx hy hz, fun s ho x hx y hy => h.one ho hx hy,
    fun p hb hc => ?_, fun p hc => ?_, fun p hc => ?_⟩
  · rintro ⟨s, hm⟩
    have hmem : .occupiedDestination p ∈ foundConflicts root (promote (fun a => !goesTo p a) as) :=
      mem_found_occupied.2 ⟨.inr ⟨s, hm.promote_last⟩, ((hs _).blocked root p).1 hb⟩
    rcases (mem_found_occupied.1 (hfl hmem)).1 with hc' | ⟨s', hm'⟩
    · exact absurd (((hs _).created p).2 hc') hc
    · exact ⟨s', hm'.must_of_promote⟩
  · rintro ⟨s, hm⟩
    have hcount : ∀ q, ((createsOf (promote q as)).map Prod.fst).count p = 1 :=
      fun q => (((hs q).creates.map _).count_eq p).symm.trans hc
    have hcreated : ∀ q, Created (promote q as) p := fun q => List.count_pos_iff.1 (by rw [hcount q]; exact one_pos)
    have hmem : .pathCollision p ∈ foundConflicts root (promote (fun a => !goesTo p a) as) :=
      mem_found_collision.2 (.inr (.inl ⟨hcreated _, s, hm.promote_last⟩))
    rcases mem_found_collision.1 (hfl hmem) with htwice | ⟨-, s', hm'⟩ | ⟨s', -, -, hm', -⟩
    · rw [hcount] at htwice
      omega
    · exact ⟨s', hm'.must_of_promote⟩
    · exact ⟨s', hm'.must_of_promote⟩
  · rintro ⟨s, s', hne, hm, hm'⟩
    have hmem : .pathCollision p ∈ foundConflicts root (promote (fun a => !goesTo p a) as) :=
      mem_found_collision.2 (.inr (.inr ⟨s, s', hne, hm.promote_last, hm'.promote_last⟩))
    have hnone : ¬ Created (promote (goesTo p) as) p := fun hc' => hc (((hs _).created p).2 hc')
    rcases mem_found_collision.1 (hfl hmem) with htwice | ⟨hc', -⟩ | ⟨t, t', hne', ht, ht'⟩
    · exact absurd (List.count_pos_iff.1 (by omega)) hnone
    · exact absurd hc' hnone
    · exact ⟨t, t', hne', ht.must_of_promote, ht'.must_of_promote⟩

/-! ## Refusals -/

theorem mem_destutter_ne {A : Type} [DecidableEq A] (l : List A) (a : A) : a ∈ l.destutter (· ≠ ·) ↔ a ∈ l := by
  have haux : ∀ (l : List A) (b : A), a ∈ List.destutter' (· ≠ ·) b l ↔ a ∈ b :: l := by
    intro l
    induction l with
    | nil => simp
    | cons c l ih =>
      intro b
      by_cases hbc : b = c
      · subst hbc
        simp [ih]
      · rw [List.destutter'_cons_pos _ hbc, List.mem_cons, ih, List.mem_cons, List.mem_cons, List.mem_cons]
  cases l with
  | nil => rfl
  | cons b l => exact haux l b

theorem mem_sortConflicts (debug : MutationConflict → String) (l : List MutationConflict) (c : MutationConflict) :
    c ∈ sortConflicts debug l ↔ c ∈ l := by
  rw [sortConflicts, mem_destutter_ne, List.mem_insertionSort]

/-- A request that is not well-formed is refused for that, in any order. -/
theorem refused_of_not_wellFormed (debug : MutationConflict → String) (blake3 : Bytes → Bytes) {root : SourceRoot}
    {request : StageRequest} (h : ¬ WellFormed root request) :
    IsRefused (planMutations debug blake3 root request) ∧
      conflictsOf (planMutations debug blake3 root request) = [] := by
  unfold planMutations
  by_cases h1 : request.root = root.identity
  · by_cases h2 : validateShape request = []
    · by_cases h3 : invalidPaths request = []
      · exact absurd ⟨h1, h2, h3⟩ h
      · rw [if_neg (by simpa using h1), if_neg (by simpa using h2), if_pos h3]
        exact ⟨⟨_, rfl⟩, rfl⟩
    · rw [if_neg (by simpa using h1), if_pos h2]
      exact ⟨⟨_, rfl⟩, rfl⟩
  · rw [if_pos h1]
    exact ⟨⟨_, rfl⟩, rfl⟩

/-- **`plan_mutations` (_7d_mutation_plan.rs:82)** refuses a request in every order for the same conflicts iff
it refuses it before the grouping or the batch is `OrderFree`. -/
theorem refusesAlike_iff (debug : MutationConflict → String) (blake3 : Bytes → Bytes) (root : SourceRoot)
    (request : StageRequest) :
    (∀ bs, request.actions.Perm bs → RefusesAlike (planMutations debug blake3 root request)
      (planMutations debug blake3 root { request with actions := bs })) ↔
      (WellFormed root request → OrderFree root request.actions) := by
  by_cases hw : WellFormed root request
  · have hbs : ∀ {bs}, request.actions.Perm bs → WellFormed root { request with actions := bs } :=
      fun hp => hw.regrouped (.permuted hp)
    obtain ⟨hplan, hrefuse⟩ := planMutations_wellFormed debug blake3 hw
    refine ⟨fun h _ => ToldAlike.orderFree fun bs hp c => ?_, fun h bs hp => ?_⟩
    · have hsame := SameBatch.of_perm hp
      obtain ⟨-, hrefuse'⟩ := planMutations_wellFormed debug blake3 (hbs hp)
      by_cases hc : Clean root request.actions
      · rw [foundConflicts_eq_nil.2 hc, foundConflicts_eq_nil.2 (hsame.clean hc)]
      · have hconf := (h bs hp).conflicts c
        rw [hrefuse hc, hrefuse' fun hc' => hc (hsame.symm.clean hc')] at hconf
        simpa only [conflictsOf, mem_sortConflicts] using hconf
    · have hsame := SameBatch.of_perm hp
      obtain ⟨hplan', hrefuse'⟩ := planMutations_wellFormed debug blake3 (hbs hp)
      by_cases hc : Clean root request.actions
      · rw [hplan hc, hplan' (hsame.clean hc), planClean_same blake3 hsame hc]
        exact ⟨Iff.rfl, fun _ => Iff.rfl⟩
      · rw [hrefuse hc, hrefuse' fun hc' => hc (hsame.symm.clean hc')]
        refine ⟨iff_of_true ⟨_, rfl⟩ ⟨_, rfl⟩, fun c => ?_⟩
        simp only [conflictsOf, mem_sortConflicts]
        exact ⟨fun hmem => (h hw).mem_of_perm hp hmem, fun hmem => ((h hw).perm hp).mem_of_perm hp.symm hmem⟩
  · refine iff_of_true (fun bs hp => ?_) fun h => absurd h hw
    have hback : Regrouped ({ request with actions := bs } : StageRequest).actions request.actions := .permuted hp.symm
    have hw' : ¬ WellFormed root { request with actions := bs } := fun h => by
      have hwell := h.regrouped hback
      exact hw hwell
    obtain ⟨h1, h2⟩ := refused_of_not_wellFormed debug blake3 hw
    obtain ⟨h1', h2'⟩ := refused_of_not_wellFormed debug blake3 hw'
    exact ⟨iff_of_true h1 h1', fun c => by rw [h2, h2']⟩

/-- Three replacements of one file that expect different contents. -/
def threeContents (first second third : Byte) : StageRequest where
  schemaVersion := 1
  root := .directory "d"
  actions := [first, second, third].map fun b => .replace (.directory ⟨"d", "f"⟩) (.blake3 [b]) []

theorem threeContents_told : ¬ ∀ bs, (threeContents 0 1 2).actions.Perm bs →
    RefusesAlike (planMutations (fun _ => "") id oneFile (threeContents 0 1 2))
      (planMutations (fun _ => "") id oneFile { threeContents 0 1 2 with actions := bs }) := by
  intro h
  have hconf := (h (threeContents 1 0 2).actions (by decide)).conflicts
    (.expectedContentMismatch (.directory ⟨"d", "f"⟩) [.blake3 [0], .blake3 [2]])
  revert hconf
  decide +kernel

end Soopy
