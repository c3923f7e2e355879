import HafleyRs.Soopy.MutationOrder

/-!
# Which planned files meet at one file (`crates/soopy/src/_7d_mutation_plan.rs:426`)

`group_actions` tells sources apart by their whole `ActionSource` and destinations by their spelling, while a
commit goes to the file a path names. A Git source carries the head and the dirty flag of its worktree, and
`./f` names what `f` does, so two groups can be about one file. What is in place already never is a
destination: `destination_is_occupied` asks the file system, which sees through the spelling.
-/

namespace Soopy

/-- Which file a path names, so that what is there does not depend on the spelling. -/
structure Naming (root : SourceRoot) (F : Type) where
  file  : SourcePath → F
  lstat : ∀ p q, file p = file q → (root.lstat (pathText p)).isOk = (root.lstat (pathText q)).isOk

variable {F : Type}

/-- Neither file is read where the other is, nor written where the other is read or written. -/
structure Apart (file : SourcePath → F) (f g : PlannedFile) : Prop where
  before : ∀ p ∈ f.pathBefore, ∀ q ∈ g.pathBefore, file p ≠ file q
  after  : ∀ p ∈ f.pathAfter, ∀ q ∈ g.pathAfter, file p ≠ file q
  across : ∀ p ∈ f.pathAfter, ∀ q ∈ g.pathBefore, file p ≠ file q
  back   : ∀ p ∈ f.pathBefore, ∀ q ∈ g.pathAfter, file p ≠ file q

theorem Apart.symm {file : SourcePath → F} {f g : PlannedFile} (h : Apart file f g) : Apart file g f :=
  ⟨fun p hp q hq => (h.before q hq p hp).symm, fun p hp q hq => (h.after q hq p hp).symm,
    fun p hp q hq => (h.back q hq p hp).symm, fun p hp q hq => (h.across q hq p hp).symm⟩

/-- No two files of the plan meet. -/
def PathsUnique (file : SourcePath → F) (plan : MutationPlan) : Prop := plan.files.Pairwise (Apart file)

def Targeted (actions : List SourceAction) (s : ActionSource) : Prop := operationsOn s actions ≠ []

def Destined (actions : List SourceAction) (p : SourcePath) : Prop :=
  Created actions p ∨ ∃ s, MayMove actions s p

/-- Different sources and different destinations name different files. -/
structure NamesApart (file : SourcePath → F) (actions : List SourceAction) : Prop where
  sources      : ∀ s s', Targeted actions s → Targeted actions s' → s ≠ s' → file (sourcePath s) ≠ file (sourcePath s')
  destinations : ∀ p p', Destined actions p → Destined actions p' → p ≠ p' → file p ≠ file p'

/-! ## What a plan holds -/

def SourceOperation.pathAfter (source : ActionSource) : SourceOperation → Option SourcePath
  | .replace _ _ => some (sourcePath source)
  | .move _ destination => some destination
  | .delete _ => none

theorem plannedFile_paths {blake3 : Bytes → Bytes} {inputs : BTreeMap ActionSource SourceInput}
    {e : ActionSource × SourceOperation} {f : PlannedFile} (h : plannedFile blake3 inputs e = .ok f) :
    f.source = some e.1 ∧ f.pathBefore = some (sourcePath e.1) ∧ f.pathAfter = e.2.pathAfter e.1 := by
  obtain ⟨s, op⟩ := e
  obtain ⟨input, -, h⟩ := Machine.bind_ok.1 h
  cases op with
  | replace x es =>
    simp only at h
    cases hn : normalizeEdits s es input.bytes.length with
    | error refusal => rw [hn] at h; cases h
    | ok N =>
      rw [hn] at h
      simp only at h
      cases ha : applyEdits input.bytes N with
      | none => rw [ha] at h; cases h
      | some out => rw [ha] at h; cases h; exact ⟨rfl, rfl, rfl⟩
  | move x d => cases h; exact ⟨rfl, rfl, rfl⟩
  | delete x => cases h; exact ⟨rfl, rfl, rfl⟩

theorem sourceModes_ok {root : SourceRoot} {sources : List ActionSource}
    {modes modes' : BTreeMap ActionSource FileModeObservation}
    (h : sources.foldlM (fun modes source =>
      match directSourceMode root source with
      | .ok mode => (.ok (modes.insert source mode) : Except Halt (BTreeMap ActionSource FileModeObservation))
      | .error detail => .error (.refused (.unreadable source detail))) modes = .ok modes') :
    ∀ s ∈ sources, ∃ mode, directSourceMode root s = .ok mode := by
  induction sources generalizing modes with
  | nil => simp
  | cons s sources ih =>
    rw [List.foldlM_cons] at h
    obtain ⟨modes₁, h1, h⟩ := Machine.bind_ok.1 h
    rw [List.forall_mem_cons]
    refine ⟨?_, ih h⟩
    cases hm : directSourceMode root s with
    | ok mode => exact ⟨mode, rfl⟩
    | error detail => rw [hm] at h1; cases h1

/-- The path is of the root's kind. -/
def OfKind (root : SourceRootId) : SourcePath → Prop
  | .directory _ => ∃ directory, root = .directory directory
  | .git _ => ∃ repository worktree, root = .gitWorktree repository worktree

theorem ofKind_of_validatePath {root : SourceRootId} {i : Nat} {p : SourcePath} (h : validatePath root i p = []) :
    OfKind root p := by
  cases root with
  | directory d =>
    cases p with
    | directory => exact ⟨d, rfl⟩
    | git => simp [validatePath] at h
  | gitWorktree r w =>
    cases p with
    | directory => simp [validatePath] at h
    | git => exact ⟨r, w, rfl⟩

theorem isOccupied_iff {root : SourceRoot} {p : SourcePath} (h : OfKind root.identity p) :
    destinationIsOccupied root p = (root.lstat (pathText p)).isOk := by
  cases p with
  | directory path =>
    obtain ⟨d, hd⟩ := h
    simp only [destinationIsOccupied, hd, pathText]
  | git path =>
    obtain ⟨r, w, hd⟩ := h
    simp only [destinationIsOccupied, hd, pathText]

theorem lstat_of_mode {root : SourceRoot} {s : ActionSource} {mode : FileModeObservation}
    (h : directSourceMode root s = .ok mode) : (root.lstat (pathText (sourcePath s))).isOk := by
  unfold directSourceMode at h
  cases hid : root.identity with
  | directory d =>
    rw [hid] at h
    cases s with
    | git => cases h
    | directory file =>
      simp only at h
      cases hl : root.lstat file.path with
      | error => rw [hl] at h; cases h
      | ok => rw [sourcePath, pathText, hl]; rfl
  | gitWorktree r w =>
    rw [hid] at h
    cases s with
    | directory => cases h
    | git git =>
      simp only at h
      cases hl : root.lstat git.path with
      | error => rw [hl] at h; cases h
      | ok => rw [sourcePath, pathText, hl]; rfl

theorem destined_ofKind {root : SourceRoot} {request : StageRequest} (hw : WellFormed root request) {p : SourcePath}
    (h : Destined request.actions p) : OfKind root.identity p := by
  obtain ⟨-, hshape⟩ := validateShape_eq_nil.1 hw.shape
  rw [← hw.root]
  rcases h with h | ⟨s, op, hop, hd⟩
  · obtain ⟨⟨p', bytes⟩, hmem, rfl⟩ := List.mem_map.1 h
    obtain ⟨a, ha, hcr⟩ := List.mem_filterMap.1 hmem
    cases a with
    | create path bytes => cases hcr; exact ofKind_of_validatePath (hshape _ ha)
    | replace => cases hcr
    | move => cases hcr
    | delete => cases hcr
  · obtain ⟨a, ha, hon⟩ := List.mem_filterMap.1 (List.mem_filter.1 hop).1
    obtain ⟨e, he, hs⟩ := Option.bind_eq_some_iff.1 hon
    by_cases hes : e.1 = s
    · rw [if_pos hes] at hs
      cases hs
      cases a with
      | create => cases he
      | replace => cases he; cases hd
      | delete => cases he; cases hd
      | move source expected destination =>
        cases he
        cases hd
        exact ofKind_of_validatePath (List.append_eq_nil_iff.1 (hshape _ ha)).2
    · rw [if_neg hes] at hs
      cases hs

theorem exists_left {A B : Type} {P : A → B → Prop} {l : List A} {m : List B} (h : List.Forall₂ P l m) {b : B}
    (hb : b ∈ m) : ∃ a ∈ l, P a b := by
  induction h with
  | nil => cases hb
  | @cons a b' l m hab _ ih =>
    rcases List.mem_cons.1 hb with rfl | hb
    · exact ⟨a, by simp, hab⟩
    · obtain ⟨a', ha', h⟩ := ih hb
      exact ⟨a', by simp [ha'], h⟩

theorem exists_right {A B : Type} {P : A → B → Prop} {l : List A} {m : List B} (h : List.Forall₂ P l m) {a : A}
    (ha : a ∈ l) : ∃ b ∈ m, P a b := exists_left h.flip ha

theorem pairwise_of_forall₂ {A B : Type} {R : A → A → Prop} {S : B → B → Prop} {P : A → B → Prop} {l : List A}
    {m : List B} (h : List.Forall₂ P l m) (hl : l.Pairwise R)
    (hRS : ∀ a ∈ l, ∀ a' ∈ l, R a a' → ∀ b b', P a b → P a' b' → S b b') : m.Pairwise S := by
  induction h with
  | nil => exact .nil
  | @cons a b l m hab hlm ih =>
    rw [List.pairwise_cons] at hl ⊢
    refine ⟨fun b' hb' => ?_, ih hl.2 fun a ha a' ha' => hRS a (by simp [ha]) a' (by simp [ha'])⟩
    obtain ⟨a', ha', hab'⟩ := exists_left hlm hb'
    exact hRS a (by simp) a' (by simp [ha']) (hl.1 a' ha') b b' hab hab'

/-- The files of an accepted plan, the creates' before the sources'. -/
theorem planClean_ok {blake3 : Bytes → Bytes} {root : SourceRoot} {actions : List SourceAction} {plan : MutationPlan}
    (h : planClean blake3 root actions = .ok plan) :
    (∀ s, Targeted actions s → ∃ mode, directSourceMode root s = .ok mode) ∧
    ∃ inputs files, List.Forall₂ (fun e f => plannedFile blake3 inputs e = .ok f)
      (grouping actions).sources.toList files ∧
      plan.files.Perm ((grouping actions).creates.toList.map (fun e => createdFile blake3 e.1 e.2) ++ files) := by
  unfold planClean planGrouped at h
  obtain ⟨inputs, hread, h⟩ := Machine.bind_ok.1 h
  obtain ⟨stale, -, h⟩ := Machine.bind_ok.1 h
  refine ⟨fun s hs => ?_, inputs, ?_⟩
  · obtain ⟨modes, hmodes, -⟩ := Machine.bind_ok.1 hread
    refine sourceModes_ok hmodes s ?_
    obtain ⟨op, hop⟩ := Option.isSome_iff_exists.1 (entryAfter_isSome.2 hs)
    rw [← grouping_sources] at hop
    exact List.mem_map.2 ⟨(s, op), BTreeMap.mem_toList.2 hop, rfl⟩
  · by_cases hstale : stale = []
    · rw [if_neg (by simpa using hstale)] at h
      obtain ⟨files, hfiles, h⟩ := Machine.bind_ok.1 h
      cases h
      exact ⟨files, Checks.mapM_ok.1 hfiles, List.perm_insertionSort _ _⟩
    · rw [if_pos hstale] at h
      cases h

theorem mem_sources {actions : List SourceAction} {s : ActionSource} {op : SourceOperation}
    (h : (s, op) ∈ (grouping actions).sources.toList) :
    Targeted actions s ∧ ∀ p, op.destination = some p → MovesTo actions s p := by
  rw [BTreeMap.mem_toList] at h
  refine ⟨?_, fun p hp => ?_⟩
  · rw [Targeted, ← entryAfter_isSome, ← grouping_sources, h]
    rfl
  · rw [MovesTo, h]
    exact hp

theorem createdFile_before {blake3 : Bytes → Bytes} {path p : SourcePath} {bytes : Bytes} :
    p ∉ (createdFile blake3 path bytes).pathBefore := fun h => nomatch h

/-- What a source's file is written to: the source itself, or the destination of its move. -/
theorem pathAfter_cases {s : ActionSource} {op : SourceOperation} {p : SourcePath} (h : p ∈ op.pathAfter s) :
    p = sourcePath s ∨ op.destination = some p := by
  cases op with
  | replace => exact .inl (Option.some.inj h).symm
  | move => exact .inr h
  | delete => cases h

theorem planMutations_ok {debug : MutationConflict → String} {blake3 : Bytes → Bytes} {root : SourceRoot}
    {request : StageRequest} {plan : MutationPlan} (h : planMutations debug blake3 root request = .ok plan) :
    WellFormed root request ∧ Clean root request.actions ∧ planClean blake3 root request.actions = .ok plan := by
  have hw := wellFormed_of_ok h
  obtain ⟨hplan, hrefuse⟩ := planMutations_wellFormed debug blake3 hw
  by_cases hc : Clean root request.actions
  · exact ⟨hw, hc, (hplan hc).symm.trans h⟩
  · rw [hrefuse hc] at h
    cases h

section
variable {root : SourceRoot} {request : StageRequest} (names : Naming root F)

/-- A destination is never where a source was read: it would be occupied. -/
theorem destined_ne (hw : WellFormed root request) (hc : Clean root request.actions)
    (hread : ∀ s, Targeted request.actions s → ∃ mode, directSourceMode root s = .ok mode) {p : SourcePath}
    (hp : Destined request.actions p) {s : ActionSource} (hs : Targeted request.actions s) :
    names.file p ≠ names.file (sourcePath s) := by
  intro heq
  obtain ⟨mode, hmode⟩ := hread s hs
  refine hc.free p hp (.inr ?_)
  rw [isOccupied_iff (destined_ofKind hw hp), names.lstat p _ heq]
  exact lstat_of_mode hmode

theorem pathsUnique_of_namesApart {debug : MutationConflict → String} {blake3 : Bytes → Bytes} {plan : MutationPlan}
    (h : planMutations debug blake3 root request = .ok plan) (hn : NamesApart names.file request.actions) :
    PathsUnique names.file plan := by
  obtain ⟨hw, hc, h⟩ := planMutations_ok h
  obtain ⟨hread, inputs, files, hfiles, hperm⟩ := planClean_ok h
  have hne : ∀ {p}, Destined request.actions p → ∀ {s}, Targeted request.actions s →
      names.file p ≠ names.file (sourcePath s) := fun hp _ hs => destined_ne names hw hc hread hp hs
  have hcreated : ∀ {e}, e ∈ (grouping request.actions).creates.toList → Created request.actions e.1 := by
    intro e he
    exact mem_creates.1 (BTreeMap.mem_keys.2 (by rw [BTreeMap.mem_toList.1 he]; rfl))
  rw [PathsUnique, hperm.pairwise_iff Apart.symm, List.pairwise_append]
  refine ⟨?_, ?_, ?_⟩
  · refine List.pairwise_map.2 ((BTreeMap.toList_sorted _).imp_of_mem fun {a b} ha hb hlt => ?_)
    refine ⟨fun p hp => absurd hp createdFile_before, fun p hp q hq => ?_,
      fun p _ q hq => absurd hq createdFile_before, fun p hp => absurd hp createdFile_before⟩
    cases hp
    cases hq
    exact hn.destinations _ _ (.inl (hcreated ha)) (.inl (hcreated hb)) hlt.ne
  · refine pairwise_of_forall₂ hfiles (BTreeMap.toList_sorted _) ?_
    rintro ⟨s, op⟩ he ⟨s', op'⟩ he' hlt f f' hf hf'
    obtain ⟨-, hb, ha⟩ := plannedFile_paths hf
    obtain ⟨-, hb', ha'⟩ := plannedFile_paths hf'
    obtain ⟨ht, hm⟩ := mem_sources he
    obtain ⟨ht', hm'⟩ := mem_sources he'
    have hss : names.file (sourcePath s) ≠ names.file (sourcePath s') := hn.sources s s' ht ht' hlt.ne
    have hdest : ∀ {p}, op.destination = some p → Destined request.actions p := fun hp => .inr ⟨s, (hm _ hp).may⟩
    have hdest' : ∀ {p}, op'.destination = some p → Destined request.actions p := fun hp => .inr ⟨s', (hm' _ hp).may⟩
    refine ⟨fun p hp q hq => ?_, fun p hp q hq => ?_, fun p hp q hq => ?_, fun p hp q hq => ?_⟩
    · rw [hb] at hp
      rw [hb'] at hq
      cases hp
      cases hq
      exact hss
    · rw [ha] at hp
      rw [ha'] at hq
      rcases pathAfter_cases hp with rfl | hp
      · rcases pathAfter_cases hq with rfl | hq
        · exact hss
        · exact (hne (hdest' hq) ht).symm
      · rcases pathAfter_cases hq with rfl | hq
        · exact hne (hdest hp) ht'
        · refine hn.destinations p q (hdest hp) (hdest' hq) ?_
          rintro rfl
          exact hlt.ne (hc.separate p s s' (hm p hp).may (hm' p hq).may)
    · rw [ha] at hp
      rw [hb'] at hq
      cases hq
      rcases pathAfter_cases hp with rfl | hp
      · exact hss
      · exact hne (hdest hp) ht'
    · rw [hb] at hp
      rw [ha'] at hq
      cases hp
      rcases pathAfter_cases hq with rfl | hq
      · exact hss
      · exact (hne (hdest' hq) ht).symm
  · intro f hf g hg
    obtain ⟨e, he, rfl⟩ := List.mem_map.1 hf
    obtain ⟨⟨s, op⟩, hsop, hplanned⟩ := exists_left hfiles hg
    obtain ⟨-, hb, ha⟩ := plannedFile_paths hplanned
    obtain ⟨ht, hm⟩ := mem_sources hsop
    refine ⟨fun p hp => absurd hp createdFile_before, fun p hp q hq => ?_, fun p hp q hq => ?_,
      fun p hp => absurd hp createdFile_before⟩
    · cases hp
      rw [ha] at hq
      rcases pathAfter_cases hq with rfl | hq
      · exact hne (.inl (hcreated he)) ht
      · refine hn.destinations _ q (.inl (hcreated he)) (.inr ⟨s, (hm q hq).may⟩) ?_
        rintro rfl
        exact hc.fresh _ s (hm _ hq).may (hcreated he)
    · cases hp
      rw [hb] at hq
      cases hq
      exact hne (.inl (hcreated he)) ht

theorem namesApart_of_pathsUnique {debug : MutationConflict → String} {blake3 : Bytes → Bytes} {plan : MutationPlan}
    (h : planMutations debug blake3 root request = .ok plan) (hu : PathsUnique names.file plan) :
    NamesApart names.file request.actions := by
  obtain ⟨-, hc, h⟩ := planMutations_ok h
  obtain ⟨-, inputs, files, hfiles, hperm⟩ := planClean_ok h
  have : Std.Symm (Apart names.file) := ⟨fun _ _ => Apart.symm⟩
  have hsource : ∀ {s op}, (grouping request.actions).sources[s]? = some op → ∃ f ∈ plan.files,
      f.source = some s ∧ f.pathBefore = some (sourcePath s) ∧ f.pathAfter = op.pathAfter s := by
    intro s op hop
    obtain ⟨f, hf, hplanned⟩ := exists_right hfiles (BTreeMap.mem_toList.2 hop)
    exact ⟨f, hperm.mem_iff.2 (List.mem_append_right _ hf), plannedFile_paths hplanned⟩
  refine ⟨fun s s' hs hs' hne => ?_, fun p p' hp hp' hne => ?_⟩
  · have hentry : ∀ {s}, Targeted request.actions s → ∃ op, (grouping request.actions).sources[s]? = some op := by
      intro s hs
      rw [grouping_sources]
      exact Option.isSome_iff_exists.1 (entryAfter_isSome.2 hs)
    obtain ⟨op, hop⟩ := hentry hs
    obtain ⟨op', hop'⟩ := hentry hs'
    obtain ⟨f, hf, h1, h2, -⟩ := hsource hop
    obtain ⟨f', hf', h1', h2', -⟩ := hsource hop'
    have hff : f ≠ f' := by
      rintro rfl
      exact hne (Option.some.inj (h1.symm.trans h1'))
    exact (hu.forall hf hf' hff).before _ h2 _ h2'
  · have hafter : ∀ {p}, Destined request.actions p → ∃ f ∈ plan.files, f.pathAfter = some p := by
      rintro p (hp | ⟨s, hm⟩)
      · rw [← mem_creates, BTreeMap.mem_keys] at hp
        obtain ⟨bytes, hb⟩ := Option.isSome_iff_exists.1 hp
        refine ⟨createdFile blake3 p bytes, hperm.mem_iff.2 (List.mem_append_left _ ?_), rfl⟩
        exact List.mem_map.2 ⟨(p, bytes), BTreeMap.mem_toList.2 hb, rfl⟩
      · obtain ⟨op, hop, hd⟩ := Option.bind_eq_some_iff.1 (hm.moves fun ho => (hc.alone s ho).1)
        obtain ⟨f, hf, -, -, ha⟩ := hsource hop
        refine ⟨f, hf, ha.trans ?_⟩
        cases op with
        | replace => cases hd
        | move => exact hd
        | delete => cases hd
    obtain ⟨f, hf, ha⟩ := hafter hp
    obtain ⟨f', hf', ha'⟩ := hafter hp'
    have hff : f ≠ f' := by
      rintro rfl
      exact hne (Option.some.inj (ha.symm.trans ha'))
    exact (hu.forall hf hf' hff).after _ ha _ ha'

/-- **`plan_mutations` (_7d_mutation_plan.rs:82)**: the files of an accepted plan are about different files iff
the sources, and the destinations, that the request tells apart are. -/
theorem pathsUnique_iff (debug : MutationConflict → String) (blake3 : Bytes → Bytes) (plan : MutationPlan)
    (h : planMutations debug blake3 root request = .ok plan) :
    PathsUnique names.file plan ↔ NamesApart names.file request.actions :=
  ⟨namesApart_of_pathsUnique names h, pathsUnique_of_namesApart names h⟩

end

/-- A worktree of one empty file, named with and without a leading dot. -/
def oneWorktreeFile : SourceRoot where
  identity := .gitWorktree "r" "w"
  display := id
  lstat := fun path => if path = "f" ∨ path = "./f" then .ok ⟨true, false, none⟩ else .error "not found"
  readEach := fun requests => (requests.map fun r => ⟨r.source, .blake3 [], []⟩, none)

def oneWorktreeNaming : Naming oneWorktreeFile String where
  file := fun p => if pathText p = "./f" then "f" else pathText p
  lstat := fun p q h => by
    have hread : ∀ p, (oneWorktreeFile.lstat (pathText p)).isOk =
        decide ((if pathText p = "./f" then "f" else pathText p) = "f") := by
      intro p
      by_cases h1 : pathText p = "./f"
      · simp [oneWorktreeFile, h1, Except.isOk, Except.toBool]
      · by_cases h2 : pathText p = "f"
        · simp [oneWorktreeFile, h2, Except.isOk, Except.toBool]
        · simp [oneWorktreeFile, h1, h2, Except.isOk, Except.toBool]
    rw [hread, hread, h]

/-- Two replacements of `f`, read with the head that `first` and `second` name. -/
def twoHeads (first second : Option ObjectId) : StageRequest where
  schemaVersion := 1
  root := .gitWorktree "r" "w"
  actions := [first, second].map fun head =>
    .replace (.git ⟨"r", .worktree "w" head false, "f"⟩) (.blake3 []) []

theorem pathsUnique_iff_sameHead : ∃ plan,
    planMutations (fun _ => "") id oneWorktreeFile (twoHeads none none) = .ok plan ∧
    (PathsUnique oneWorktreeNaming.file plan ↔ NamesApart oneWorktreeNaming.file (twoHeads none none).actions) := by
  have hsome : (planMutations (fun _ => "") id oneWorktreeFile (twoHeads none none)).toOption.isSome := by
    decide +kernel
  cases h : planMutations (fun _ => "") id oneWorktreeFile (twoHeads none none) with
  | error halt =>
    rw [h] at hsome
    cases hsome
  | ok plan => exact ⟨plan, rfl, pathsUnique_iff oneWorktreeNaming (fun _ => "") id plan h⟩

/-- Both are planned, and the second replaces what the first wrote. -/
theorem twoHeads_meet : ∃ plan,
    planMutations (fun _ => "") id oneWorktreeFile (twoHeads (some "a") (some "b")) = .ok plan ∧
      ¬ PathsUnique oneWorktreeNaming.file plan := by
  have hsome : (planMutations (fun _ => "") id oneWorktreeFile (twoHeads (some "a") (some "b"))).toOption.map
      (fun plan => plan.files.map fun f => (f.pathBefore, f.pathAfter)) =
        some [(some (.git "f"), some (.git "f")), (some (.git "f"), some (.git "f"))] := by decide +kernel
  cases h : planMutations (fun _ => "") id oneWorktreeFile (twoHeads (some "a") (some "b")) with
  | error halt =>
    rw [h] at hsome
    cases hsome
  | ok plan =>
    refine ⟨plan, rfl, fun hu => ?_⟩
    rw [h] at hsome
    obtain ⟨f, fs, hfiles, hf, hrest⟩ := List.map_eq_cons_iff.1 (Option.some.inj hsome)
    obtain ⟨g, gs, rfl, hg, -⟩ := List.map_eq_cons_iff.1 hrest
    rw [PathsUnique, hfiles, List.pairwise_cons] at hu
    exact (hu.1 g (by simp)).before _ (congrArg Prod.fst hf) _ (congrArg Prod.fst hg) rfl

end Soopy
