import HafleyRs.Lib.Checks
import HafleyRs.Soopy.EditAccept
import HafleyRs.Soopy.MutationConflicts

/-!
# A plan does not depend on the order of its actions (`crates/soopy/src/_7d_mutation_plan.rs:82`)

`Regrouped` generates the requests that say the same: permuted actions, permuted edits in a replacement,
and edits moved between replacements of one source that expect the same content. All it can change in a
batch without conflicts is the order of the edits kept for a source (`grouped_similar`), and
`normalize_edits` starts by merging those into a map (`normalizeEdits_perm`).
-/

namespace Soopy

inductive Regrouped : List SourceAction → List SourceAction → Prop
  | permuted {as bs} : as.Perm bs → Regrouped as bs
  | edits {source expected es fs as} : es.Perm fs →
    Regrouped (.replace source expected es :: as) (.replace source expected fs :: as)
  | split {source expected es fs as} :
    Regrouped (.replace source expected (es ++ fs) :: as)
      (.replace source expected es :: .replace source expected fs :: as)
  | symm {as bs} : Regrouped as bs → Regrouped bs as
  | trans {as bs cs} : Regrouped as bs → Regrouped bs cs → Regrouped as cs

/-! ## The batch -/

theorem Regrouped.sameBatch {as bs : List SourceAction} (h : Regrouped as bs) : SameBatch as bs := by
  have hcons : ∀ {a : SourceAction} {source : ActionSource} {x : ContentId} {es : List TextEdit},
      a = .replace source x es → ∀ (s : ActionSource) (as : List SourceAction),
      operationsOn s (a :: as) = (if source = s then [.replace x es] else []) ++ operationsOn s as := by
    rintro a source x es rfl s as
    exact operationsOn_cons_some rfl s as
  induction h with
  | permuted h => exact .of_perm h
  | symm _ ih => exact ih.symm
  | trans _ _ ih ih' => exact ih.trans ih'
  | @edits source expected es fs as h =>
    refine ⟨List.Perm.refl _, fun s => ?_, fun s x => ?_, fun s x => ?_⟩
    · by_cases hs : source = s
      · simp [othersOn, hcons rfl, hs]
      · simp [othersOn, hcons rfl, hs]
    · by_cases hs : source = s
      · simp [expectedsOn, hcons rfl, hs]
      · simp [expectedsOn, hcons rfl, hs]
    · by_cases hs : source = s
      · by_cases hx : expected = x
        · simpa [editsOn, editsExpecting, SourceOperation.editsExpecting, hcons rfl, hs, hx] using
            h.append_right _
        · simp [editsOn, editsExpecting, SourceOperation.editsExpecting, hcons rfl, hs, hx]
      · simp [editsOn, hcons rfl, hs]
  | @split source expected es fs as =>
    refine ⟨List.Perm.refl _, fun s => ?_, fun s x => ?_, fun s x => ?_⟩
    · by_cases hs : source = s
      · simp [othersOn, hcons rfl, hs]
      · simp [othersOn, hcons rfl, hs]
    · by_cases hs : source = s
      · simp [expectedsOn, hcons rfl, hs]
      · simp [expectedsOn, hcons rfl, hs]
    · by_cases hs : source = s
      · by_cases hx : expected = x
        · simp [editsOn, editsExpecting, SourceOperation.editsExpecting, hcons rfl, hs, hx]
        · simp [editsOn, editsExpecting, SourceOperation.editsExpecting, hcons rfl, hs, hx]
      · simp [editsOn, hcons rfl, hs]

/-- What is asked of each action by itself, and of each edit of a replacement. -/
structure Piecewise (P : SourceAction → Prop) (Q : ActionSource → ContentId → TextEdit → Prop) : Prop where
  replace : ∀ source expected es, P (.replace source expected es) ↔
    P (.replace source expected []) ∧ ∀ e ∈ es, Q source expected e

theorem Regrouped.forall_iff {P : SourceAction → Prop} {Q : ActionSource → ContentId → TextEdit → Prop}
    (hP : Piecewise P Q) {as bs : List SourceAction} (h : Regrouped as bs) :
    (∀ a ∈ as, P a) ↔ ∀ b ∈ bs, P b := by
  induction h with
  | permuted h => simp only [h.mem_iff]
  | symm _ ih => exact ih.symm
  | trans _ _ ih ih' => exact ih.trans ih'
  | @edits source expected es fs as h =>
    rw [List.forall_mem_cons, List.forall_mem_cons, hP.replace _ _ es, hP.replace _ _ fs]
    simp only [h.mem_iff]
  | @split source expected es fs as =>
    rw [List.forall_mem_cons, List.forall_mem_cons, List.forall_mem_cons, hP.replace _ _ (es ++ fs),
      hP.replace _ _ es, hP.replace _ _ fs]
    simp only [List.mem_append]
    constructor
    · rintro ⟨⟨h1, h2⟩, h3⟩
      exact ⟨⟨h1, fun e he => h2 e (.inl he)⟩, ⟨h1, fun e he => h2 e (.inr he)⟩, h3⟩
    · rintro ⟨⟨h1, h2⟩, ⟨-, h3⟩, h4⟩
      exact ⟨⟨h1, fun e he => he.elim (h2 e) (h3 e)⟩, h4⟩

/-! ## The checks before the grouping -/

theorem flatMap_zipIdx_eq_nil {A B : Type} {f : A × Nat → List B} (hf : ∀ a i, f (a, i) = [] ↔ f (a, 0) = [])
    (l : List A) : l.zipIdx.flatMap f = [] ↔ ∀ a ∈ l, f (a, 0) = [] := by
  rw [List.flatMap_eq_nil_iff]
  constructor
  · intro h a ha
    obtain ⟨i, hi, rfl⟩ := List.getElem_of_mem ha
    exact (hf _ i).1 (h (l[i], i) (List.mk_mem_zipIdx_iff_getElem?.2 (by simp [hi])))
  · rintro h ⟨a, i⟩ hai
    exact (hf a i).2 (h a (List.fst_mem_of_mem_zipIdx hai))

theorem validatePath_index (root : SourceRootId) (i : Nat) (path : SourcePath) :
    validatePath root i path = [] ↔ validatePath root 0 path = [] := by
  cases root <;> cases path <;> simp [validatePath]

theorem validateSource_index (root : SourceRootId) (i : Nat) (source : ActionSource) :
    validateSource root i source = [] ↔ validateSource root 0 source = [] := by
  cases root with
  | directory => cases source <;> simp [validateSource]
  | gitWorktree repository worktree =>
    cases source with
    | directory => simp [validateSource]
    | git git =>
      by_cases hr : git.repository = repository
      · cases hrev : git.revision <;> simp [validateSource, hr, hrev]
      · simp [validateSource, hr]

theorem validateEdit_index (i j : Nat) (source : ActionSource) (e : TextEdit) :
    validateEdit i source j e = [] ↔ validateEdit 0 source 0 e = [] := by
  by_cases h1 : e.range.source = source
  · by_cases h2 : e.range.stop < e.range.start
    · simp [validateEdit, h1, h2]
    · simp [validateEdit, h1, h2]
  · simp [validateEdit, h1]

theorem validateEdits_eq_nil (i : Nat) (source : ActionSource) (es : List TextEdit) :
    (es.zipIdx.flatMap fun e => validateEdit i source e.2 e.1) = [] ↔
      ∀ e ∈ es, validateEdit 0 source 0 e = [] := by
  rw [flatMap_zipIdx_eq_nil (fun e j => (validateEdit_index i j source e).trans
    (validateEdit_index i 0 source e).symm)]
  simp only [validateEdit_index i 0]

theorem validateAction_index (root : SourceRootId) (i : Nat) (a : SourceAction) :
    validateAction root i a = [] ↔ validateAction root 0 a = [] := by
  cases a with
  | create path bytes => exact validatePath_index root i path
  | replace source expected es =>
    simp only [validateAction, List.append_eq_nil_iff, validateEdits_eq_nil, validateSource_index root i]
  | move source expected destination =>
    simp only [validateAction, List.append_eq_nil_iff, validateSource_index root i, validatePath_index root i]
  | delete source expected => exact validateSource_index root i source

theorem validateAction_piecewise (root : SourceRootId) :
    Piecewise (fun a => validateAction root 0 a = []) fun source _ e => validateEdit 0 source 0 e = [] := by
  refine ⟨fun source expected es => ?_⟩
  simp only [validateAction, List.append_eq_nil_iff, validateEdits_eq_nil]
  simp

theorem validateShape_eq_nil {request : StageRequest} :
    validateShape request = [] ↔ request.schemaVersion = sourceActionSchemaVersion ∧
      ∀ a ∈ request.actions, validateAction request.root 0 a = [] := by
  rw [validateShape, List.append_eq_nil_iff,
    flatMap_zipIdx_eq_nil fun a i => validateAction_index request.root i a]
  simp

theorem invalidPaths_eq_nil {request : StageRequest} :
    invalidPaths request = [] ↔
      ∀ a ∈ request.actions, ∀ path ∈ actionPaths a, pathReason (pathText path) = none := by
  have hpush : ∀ i path, pushInvalidPath i path = [] ↔ pathReason (pathText path) = none := by
    intro i path
    unfold pushInvalidPath
    cases pathReason (pathText path) <;> simp
  have hindex : ∀ (a : SourceAction) (i : Nat), (actionPaths a).flatMap (pushInvalidPath i) = [] ↔
      (actionPaths a).flatMap (pushInvalidPath 0) = [] := by
    intro a i
    simp only [List.flatMap_eq_nil_iff, hpush]
  rw [invalidPaths, flatMap_zipIdx_eq_nil hindex]
  simp only [List.flatMap_eq_nil_iff, hpush]

theorem actionPaths_piecewise :
    Piecewise (fun a => ∀ path ∈ actionPaths a, pathReason (pathText path) = none) fun _ _ _ => True := by
  refine ⟨fun source expected es => ?_⟩
  simp [actionPaths]

/-! ## The edits of one source -/

theorem mergeEdits_perm {es fs : List TextEdit} (h : es.Perm fs) : mergeEdits es = mergeEdits fs := by
  have hmap : es.foldl mergeEdit ∅ = fs.foldl mergeEdit ∅ := by
    refine BTreeMap.ext_getElem? fun k => ?_
    have hfilter := h.filter fun e => decide (e.key = k)
    have hset : (es.filter fun e => e.key = k).foldl (fun s e => s.insert e.producer) (∅ : BTreeSet ActionProducer) =
        (fs.filter fun e => e.key = k).foldl (fun s e => s.insert e.producer) ∅ := by
      refine BTreeSet.ext_mem fun p => ?_
      rw [BTreeSet.mem_foldl_insert, BTreeSet.mem_foldl_insert]
      simp only [hfilter.mem_iff]
    rw [getElem?_merged, getElem?_merged, hset]
    have hnil : es.filter (fun e => e.key = k) = [] ↔ fs.filter (fun e => e.key = k) = [] := by
      rw [← List.length_eq_zero_iff, hfilter.length_eq, List.length_eq_zero_iff]
    simp only [hnil]
  rw [mergeEdits, hmap, ← mergeEdits]

theorem normalizeEdits_perm {es fs : List TextEdit} (h : es.Perm fs) (source : ActionSource) (inputLen : Nat) :
    normalizeEdits source es inputLen = normalizeEdits source fs inputLen := by
  unfold normalizeEdits
  rw [mergeEdits_perm h]

/-! ## The grouped actions -/

/-- Two operations that differ at most in the order of their edits. -/
inductive Similar : SourceOperation → SourceOperation → Prop
  | refl (op) : Similar op op
  | replace (expected) {es fs} : es.Perm fs → Similar (.replace expected es) (.replace expected fs)

/-- What an operation says but for the order of its edits. -/
def SourceOperation.view : SourceOperation → ContentId × (Multiset TextEdit ⊕ Option SourcePath)
  | .replace expected es => (expected, .inl es)
  | .move expected destination => (expected, .inr (some destination))
  | .delete expected => (expected, .inr none)

theorem similar_of_view {op op' : SourceOperation} (h : op.view = op'.view) : Similar op op' := by
  cases op with
  | replace x es =>
    cases op' with
    | replace y fs =>
      simp only [SourceOperation.view, Prod.mk.injEq, Sum.inl.injEq, Multiset.coe_eq_coe] at h
      obtain ⟨rfl, h⟩ := h
      exact .replace x h
    | move => simp [SourceOperation.view] at h
    | delete => simp [SourceOperation.view] at h
  | move x d =>
    cases op' with
    | replace => simp [SourceOperation.view] at h
    | move y d' =>
      simp only [SourceOperation.view, Prod.mk.injEq, Sum.inr.injEq, Option.some.injEq] at h
      obtain ⟨rfl, rfl⟩ := h
      exact .refl _
    | delete => simp [SourceOperation.view] at h
  | delete x =>
    cases op' with
    | replace => simp [SourceOperation.view] at h
    | move => simp [SourceOperation.view] at h
    | delete y =>
      simp only [SourceOperation.view, Prod.mk.injEq, and_true] at h
      rw [h]
      exact .refl _

abbrev SimilarEntry (e e' : ActionSource × SourceOperation) : Prop := e.1 = e'.1 ∧ Similar e.2 e'.2

theorem grouped_creates {as bs : List SourceAction} (h : SameBatch as bs) {root : SourceRoot}
    (hc : Clean root as) : (grouping as).creates = (grouping bs).creates := by
  have hc' := h.clean hc
  refine BTreeMap.ext_getElem? fun p => Option.ext fun b => ?_
  rw [grouping_creates, grouping_creates, BTreeMap.getElem?_foldl_insert hc.created,
    BTreeMap.getElem?_foldl_insert hc'.created]
  simp only [Std.ExtTreeMap.getElem?_empty, Option.or_none, Option.map_eq_some_iff,
    find?_key_eq_some hc.created, find?_key_eq_some hc'.created, h.creates.mem_iff]

theorem entry_view {as bs : List SourceAction} (h : SameBatch as bs) {root : SourceRoot} (hc : Clean root as)
    (s : ActionSource) : (grouping as).sources[s]?.map (·.view) = (grouping bs).sources[s]?.map (·.view) := by
  have hc' := h.clean hc
  rw [grouping_sources, grouping_sources]
  by_cases ho : othersOn s as = []
  · have ho' := (h.others_nil s).1 ho
    by_cases hx : ∃ x, x ∈ expectedsOn s as
    · obtain ⟨x, hx⟩ := hx
      have hx' := (h.expecteds s x).1 hx
      rw [entryAfter_of_replaces ho hx fun y hy => hc.agreed s y hy x hx,
        entryAfter_of_replaces ho' hx' fun y hy => hc'.agreed s y hy x hx']
      simp only [Option.map_some, SourceOperation.view, Option.some.injEq, Prod.mk.injEq, Sum.inl.injEq,
        true_and, Multiset.coe_eq_coe]
      exact h.edits s x
    · have hnil : operationsOn s as = [] := by
        by_contra hne
        rcases operationsOn_ne_nil.1 hne with h1 | h1
        · exact h1 ho
        · exact hx h1
      have hnil' : operationsOn s bs = [] := by
        by_contra hne
        rcases operationsOn_ne_nil.1 hne with h1 | ⟨x, h1⟩
        · exact h1 ho'
        · exact hx ⟨x, (h.expecteds s x).2 h1⟩
      rw [hnil, hnil']
  · have ho' := mt (h.others_nil s).2 ho
    obtain ⟨op, hop⟩ := List.length_eq_one_iff.1 (hc.alone s ho).1
    have hop' : othersOn s bs = [op] := List.perm_singleton.1 ((hop ▸ h.others s).symm)
    rw [entryAfter_of_others ho, entryAfter_of_others ho', ← othersOn, ← othersOn, hop, hop']

theorem grouped_similar {as bs : List SourceAction} (h : SameBatch as bs) {root : SourceRoot}
    (hc : Clean root as) :
    List.Forall₂ SimilarEntry (grouping as).sources.toList (grouping bs).sources.toList := by
  have hmap := BTreeMap.map_toList_eq (f := fun op : SourceOperation => op.view) (entry_view h hc)
  rw [← List.forall₂_eq_eq_eq, List.forall₂_map_left_iff, List.forall₂_map_right_iff] at hmap
  refine hmap.imp ?_
  rintro ⟨s, op⟩ ⟨s', op'⟩ heq
  obtain ⟨h1, h2⟩ := Prod.mk.inj heq
  exact ⟨h1, similar_of_view h2⟩

/-! ## From the groups to the plan -/

theorem Similar.expected {op op' : SourceOperation} (h : Similar op op') :
    expectedContent op = expectedContent op' := by
  cases h <;> rfl

theorem readInputs_similar (root : SourceRoot) {es fs : List (ActionSource × SourceOperation)}
    (h : List.Forall₂ SimilarEntry es fs) : readInputs root es = readInputs root fs := by
  have hkeys : es.map Prod.fst = fs.map Prod.fst := by
    rw [← List.forall₂_eq_eq_eq, List.forall₂_map_left_iff, List.forall₂_map_right_iff]
    exact h.imp fun _ _ h => h.1
  have hrequests : (es.map fun e => readRequest root e.1 e.2) = fs.map fun e => readRequest root e.1 e.2 := by
    rw [← List.forall₂_eq_eq_eq, List.forall₂_map_left_iff, List.forall₂_map_right_iff]
    refine h.imp fun a b hab => ?_
    rw [readRequest, readRequest, hab.1, expectedForGitRead, expectedForGitRead, hab.2.expected]
  rw [readInputs, readInputs, hkeys, hrequests]

theorem staleInputs_similar (inputs : BTreeMap ActionSource SourceInput)
    {es fs : List (ActionSource × SourceOperation)} (h : List.Forall₂ SimilarEntry es fs) :
    staleInputs inputs es = staleInputs inputs fs := by
  have hmap : es.mapM (staleInput inputs) = fs.mapM (staleInput inputs) := by
    refine Checks.mapM_congr (h.imp fun a b hab => ?_)
    rw [staleInput, staleInput, hab.1, hab.2.expected]
  rw [staleInputs, staleInputs, hmap]

theorem plannedFile_similar (blake3 : Bytes → Bytes) (inputs : BTreeMap ActionSource SourceInput)
    {e f : ActionSource × SourceOperation} (h : SimilarEntry e f) :
    plannedFile blake3 inputs e = plannedFile blake3 inputs f := by
  obtain ⟨s, op⟩ := e
  obtain ⟨s', op'⟩ := f
  obtain ⟨h1, h2⟩ := h
  obtain rfl : s = s' := h1
  cases h2 with
  | refl => rfl
  | replace x hperm => simp only [plannedFile, normalizeEdits_perm hperm]

theorem planGrouped_similar (blake3 : Bytes → Bytes) (root : SourceRoot) (creates : List (SourcePath × Bytes))
    {es fs : List (ActionSource × SourceOperation)} (h : List.Forall₂ SimilarEntry es fs) :
    planGrouped blake3 root creates es = planGrouped blake3 root creates fs := by
  have hfiles : ∀ inputs, es.mapM (plannedFile blake3 inputs) = fs.mapM (plannedFile blake3 inputs) :=
    fun inputs => Checks.mapM_congr (h.imp fun _ _ => plannedFile_similar blake3 inputs)
  unfold planGrouped
  simp only [readInputs_similar root h, staleInputs_similar _ h, hfiles]

/-- The groups of a batch without conflicts, planned. -/
def planClean (blake3 : Bytes → Bytes) (root : SourceRoot) (actions : List SourceAction) : Except Halt MutationPlan :=
  planGrouped blake3 root (grouping actions).creates.toList (grouping actions).sources.toList

theorem planClean_same (blake3 : Bytes → Bytes) {root : SourceRoot} {as bs : List SourceAction}
    (h : SameBatch as bs) (hc : Clean root as) : planClean blake3 root as = planClean blake3 root bs := by
  rw [planClean, planClean, grouped_creates h hc, planGrouped_similar blake3 root _ (grouped_similar h hc)]

/-- The checks before the grouping let the request pass. -/
structure WellFormed (root : SourceRoot) (request : StageRequest) : Prop where
  root  : request.root = root.identity
  shape : validateShape request = []
  paths : invalidPaths request = []

theorem WellFormed.regrouped {root : SourceRoot} {request : StageRequest} {bs : List SourceAction}
    (h : Regrouped request.actions bs) (hw : WellFormed root request) :
    WellFormed root { request with actions := bs } := by
  obtain ⟨h1, h2⟩ := validateShape_eq_nil.1 hw.shape
  refine ⟨hw.root, validateShape_eq_nil.2 ⟨h1, ?_⟩, invalidPaths_eq_nil.2 ?_⟩
  · exact (h.forall_iff (validateAction_piecewise request.root)).1 h2
  · exact (h.forall_iff actionPaths_piecewise).1 (invalidPaths_eq_nil.1 hw.paths)

theorem sortConflicts_eq_nil (debug : MutationConflict → String) {l : List MutationConflict} :
    sortConflicts debug l = [] ↔ l = [] := by
  rw [sortConflicts, List.destutter_eq_nil, ← List.length_eq_zero_iff,
    (List.perm_insertionSort _ l).length_eq, List.length_eq_zero_iff]

/-- What a well-formed request comes to. -/
theorem planMutations_wellFormed (debug : MutationConflict → String) (blake3 : Bytes → Bytes) {root : SourceRoot}
    {request : StageRequest} (h : WellFormed root request) :
    (Clean root request.actions →
      planMutations debug blake3 root request = planClean blake3 root request.actions) ∧
    (¬ Clean root request.actions → planMutations debug blake3 root request =
      .error (.refused (.conflict (sortConflicts debug (foundConflicts root request.actions))))) := by
  have hclean : sortConflicts debug (foundConflicts root request.actions) = [] ↔ Clean root request.actions :=
    (sortConflicts_eq_nil debug).trans foundConflicts_eq_nil
  unfold planMutations groupActions
  simp only [h.root, ne_eq, not_true_eq_false, if_false, h.shape, h.paths]
  refine ⟨fun hc => ?_, fun hc => ?_⟩
  · rw [if_pos (hclean.2 hc)]
    rfl
  · rw [if_neg (mt hclean.1 hc)]
    rfl

theorem wellFormed_of_ok {debug : MutationConflict → String} {blake3 : Bytes → Bytes} {root : SourceRoot}
    {request : StageRequest} {plan : MutationPlan} (h : planMutations debug blake3 root request = .ok plan) :
    WellFormed root request := by
  unfold planMutations at h
  by_cases h1 : request.root = root.identity
  · by_cases h2 : validateShape request = []
    · by_cases h3 : invalidPaths request = []
      · exact ⟨h1, h2, h3⟩
      · simp [h1, h2, h3] at h
    · simp [h1, h2] at h
  · simp [h1] at h

/-- **`plan_mutations` (_7d_mutation_plan.rs:82)**: a regrouped request is accepted when the request is, and
makes the same plan. -/
theorem planMutations_regrouped (debug : MutationConflict → String) (blake3 : Bytes → Bytes) (root : SourceRoot)
    (request : StageRequest) (bs : List SourceAction) (h : Regrouped request.actions bs) (plan : MutationPlan) :
    planMutations debug blake3 root request = .ok plan ↔
      planMutations debug blake3 root { request with actions := bs } = .ok plan := by
  have hone : ∀ (request : StageRequest) {bs : List SourceAction}, Regrouped request.actions bs →
      planMutations debug blake3 root request = .ok plan →
      planMutations debug blake3 root { request with actions := bs } = .ok plan := by
    intro request bs h hok
    have hw := wellFormed_of_ok hok
    have hw' := hw.regrouped h
    obtain ⟨hplan, hrefuse⟩ := planMutations_wellFormed debug blake3 hw
    obtain ⟨hplan', -⟩ := planMutations_wellFormed debug blake3 hw'
    by_cases hc : Clean root request.actions
    · rw [hplan hc] at hok
      rw [hplan' (h.sameBatch.clean hc), ← planClean_same blake3 h.sameBatch hc, hok]
    · rw [hrefuse hc] at hok
      cases hok
  exact ⟨hone request h, hone { request with actions := bs } h.symm⟩

/-- A directory of one empty file. -/
def oneFile : SourceRoot where
  identity := .directory "d"
  display := id
  lstat := fun path => if path = "f" then .ok ⟨true, false, none⟩ else .error "not found"
  readEach := fun requests => (requests.map fun r => ⟨r.source, .blake3 [], []⟩, none)

def insertAtStart (text : Byte) (order : Nat) : TextEdit :=
  ⟨⟨.directory ⟨"d", "f"⟩, 0, 0⟩, [text], ⟨"p", some order, none⟩⟩

def joinedEdits : StageRequest where
  schemaVersion := 1
  root := .directory "d"
  actions := [.replace (.directory ⟨"d", "f"⟩) (.blake3 []) ([insertAtStart 1 2] ++ [insertAtStart 2 1])]

def splitEdits : StageRequest where
  schemaVersion := 1
  root := .directory "d"
  actions := [.replace (.directory ⟨"d", "f"⟩) (.blake3 []) [insertAtStart 1 2],
    .replace (.directory ⟨"d", "f"⟩) (.blake3 []) [insertAtStart 2 1]]

theorem planMutations_regrouped_split : ∃ plan, planMutations (fun _ => "") id oneFile joinedEdits = .ok plan ∧
    planMutations (fun _ => "") id oneFile splitEdits = .ok plan := by
  have hsome : (planMutations (fun _ => "") id oneFile joinedEdits).toOption.isSome := by decide +kernel
  cases h : planMutations (fun _ => "") id oneFile joinedEdits with
  | error halt =>
    rw [h] at hsome
    cases hsome
  | ok plan =>
    exact ⟨plan, rfl, (planMutations_regrouped _ _ _ joinedEdits splitEdits.actions .split plan).1 h⟩

end Soopy
