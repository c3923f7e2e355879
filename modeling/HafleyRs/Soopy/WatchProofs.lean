import HafleyRs.Soopy.Watch

/-!
# Deltas are patches, over every run of a watch

Each `diff` function is `KeyedDiff.diff` read back through its own delta type, so `patch_get`,
`diff_sorted` and `diff_field_eq_nil` hold of it: `diffRefs` and `diffWorktrees` compare whole rows
and are exact; `diff` and `diffDirectory` compare contents, so a row whose content stays while its
revision changes is not reported, and a directory delta names the path to read again.

A watcher hands out deltas exactly when it moves its retained snapshot (`recvBatch_cases`). So the
deltas delivered over any run, failed receives included, carry the opening snapshot to the retained
one (`receives_agree`).
-/

namespace Soopy
open KeyedDiff

theorem byKey_keyed {K E : Type} [LinearOrder K] {key : E → K} {rows : List E} {k : K} {e : E}
    (h : (byKey key rows)[k]? = some e) : key e = k := by
  have hfold : ∀ (rows : List E) (m : BTreeMap K E), (∀ k e, m[k]? = some e → key e = k) →
      ∀ k e, (rows.foldl (fun m e => m.insert (key e) e) m)[k]? = some e → key e = k := by
    intro rows
    induction rows with
    | nil => exact fun m hm => hm
    | cons row rows ih =>
      refine fun m hm => ih _ fun k e he => ?_
      rw [BTreeMap.getElem?_insert] at he
      split at he
      · rename_i hk; cases he; exact hk
      · exact hm k e he
  exact hfold rows ∅ (fun k e he => by simp at he) k e h

/-- A delta between two indexed lists carries the key of its rows. -/
theorem byKey_diff_keyed {K E : Type} [LinearOrder K] {differs : E → E → Prop} [DecidableRel differs]
    {key : E → K} {rows rows' : List E} {d : Delta K E}
    (hd : d ∈ KeyedDiff.diff differs (byKey key rows) (byKey key rows')) : d.Keyed key :=
  keyed_of_mem_diff key (fun _ _ => byKey_keyed) (fun _ _ => byKey_keyed) hd

/-- Keys read off a translated list of deltas: one each, in order. -/
theorem filterMap_keys {K E D : Type} [LinearOrder K] {differs : E → E → Prop} [DecidableRel differs]
    {before after : BTreeMap K E} {f : Delta K E → D} {key? : D → Option K}
    (h : ∀ d ∈ KeyedDiff.diff differs before after, key? (f d) = some d.key) :
    (∀ d ∈ (KeyedDiff.diff differs before after).map f, (key? d).isSome) ∧
      (((KeyedDiff.diff differs before after).map f).filterMap key?).Pairwise (· < ·) := by
  constructor
  · intro d hd
    obtain ⟨e, he, rfl⟩ := List.mem_map.1 hd
    rw [h e he]; rfl
  · have hmap : ((KeyedDiff.diff differs before after).map f).filterMap key? =
        (KeyedDiff.diff differs before after).map Delta.key := by
      rw [List.filterMap_map, ← List.filterMap_eq_map]
      exact List.filterMap_congr h
    rw [hmap]
    exact diff_sorted

/-! ## Source deltas -/

def SourceDelta.path? : SourceDelta → Option RepoPath
  | .added entry => some entry.source.path
  | .changed _ after => some after.source.path
  | .removed source => some source.path
  | .revisionChanged _ _ | .rescanRequired => none

theorem diff_foldl (before after : SourceSnapshot) (m : BTreeMap RepoPath SourceEntry) :
    (diff before after).foldl SourceDelta.apply m =
      (KeyedDiff.diff (fun b a => b.content ≠ a.content) before.byPath after.byPath).foldl
        Delta.apply m := by
  refine foldl_map_apply id (fun _ x => x) (fun _ _ => rfl) (fun _ _ _ => rfl) (fun _ => rfl)
    (fun d hd m => ?_) m
  have hkey := byKey_diff_keyed hd
  cases d with
  | added k v => rw [← show v.source.path = k from hkey]; rfl
  | removed k v => rw [← show v.source.path = k from hkey]; rfl
  | changed k v w => rw [← show w.source.path = k from hkey.2]; rfl

/-- What the list of `diff` is to a consumer that keeps rows by path. -/
structure SourceDeltasPatch (before after : SourceSnapshot) : Prop where
  patch  : ∀ path : RepoPath, ((diff before after).foldl SourceDelta.apply before.byPath)[path]? =
    if before.byPath[path]?.map SourceEntry.content = after.byPath[path]?.map SourceEntry.content
    then before.byPath[path]? else after.byPath[path]?
  empty  : diff before after = [] ↔ ∀ path : RepoPath,
    before.byPath[path]?.map SourceEntry.content = after.byPath[path]?.map SourceEntry.content
  paths  : ∀ d ∈ diff before after, d.path?.isSome
  sorted : ((diff before after).filterMap SourceDelta.path?).Pairwise (· < ·)

theorem diff_patch (before after : SourceSnapshot) : SourceDeltasPatch before after := by
  have hkeys : (∀ d ∈ diff before after, d.path?.isSome) ∧
      ((diff before after).filterMap SourceDelta.path?).Pairwise (· < ·) := by
    refine filterMap_keys fun d hd => ?_
    have hkey := byKey_diff_keyed hd
    cases d with
    | added k v => exact congrArg some hkey
    | removed k v => exact congrArg some hkey
    | changed k v w => exact congrArg some hkey.2
  refine ⟨fun path => ?_, ?_, hkeys.1, hkeys.2⟩
  · rw [diff_foldl, patch_get]
    exact if_congr report_eq_none rfl rfl
  · rw [diff, List.map_eq_nil_iff]
    exact diff_field_eq_nil

/-! ## Worktree deltas -/

def WorktreeDelta.id : WorktreeDelta → WorktreeId
  | .added worktree => worktree.worktree
  | .removed worktree => worktree.worktree
  | .changed _ after => after.worktree

theorem diffWorktrees_foldl (before after : WorktreeSnapshot)
    (m : BTreeMap WorktreeId WorktreeObservation) :
    (diffWorktrees before after).foldl WorktreeDelta.apply m =
      (KeyedDiff.diff (fun b a => b ≠ a) before.byId after.byId).foldl Delta.apply m := by
  refine foldl_map_apply id (fun _ x => x) (fun _ _ => rfl) (fun _ _ _ => rfl) (fun _ => rfl)
    (fun d hd m => ?_) m
  have hkey := byKey_diff_keyed hd
  cases d with
  | added k v => rw [← show v.worktree = k from hkey]; rfl
  | removed k v => rw [← show v.worktree = k from hkey]; rfl
  | changed k v w => rw [← show w.worktree = k from hkey.2]; rfl

structure WorktreeDeltasPatch (before after : WorktreeSnapshot) : Prop where
  patch  : (diffWorktrees before after).foldl WorktreeDelta.apply before.byId = after.byId
  empty  : diffWorktrees before after = [] ↔ before.byId = after.byId
  sorted : ((diffWorktrees before after).map WorktreeDelta.id).Pairwise (· < ·)

/-- A patch that compares whole rows is exact. -/
theorem patch_rows {K E : Type} [LinearOrder K] [DecidableEq E] (before after : BTreeMap K E) :
    (KeyedDiff.diff (fun b a => b ≠ a) before after).foldl Delta.apply before = after := by
  refine Std.ExtTreeMap.ext_getElem? fun k => ?_
  have h : ((KeyedDiff.diff (fun b a => id b ≠ id a) before after).foldl Delta.apply before)[k]?.map id =
      after[k]?.map id := patch_field (fun _ => rfl) k
  simpa using h

theorem diff_rows_eq_nil {K E : Type} [LinearOrder K] [DecidableEq E] (before after : BTreeMap K E) :
    KeyedDiff.diff (fun b a => b ≠ a) before after = [] ↔ before = after := by
  have hnil : KeyedDiff.diff (fun b a => id b ≠ id a) before after = [] ↔
      ∀ k : K, before[k]?.map id = after[k]?.map id := diff_field_eq_nil
  refine hnil.trans ⟨fun h => Std.ExtTreeMap.ext_getElem? fun k => ?_, fun h k => by rw [h]⟩
  simpa using h k

theorem diffWorktrees_patch (before after : WorktreeSnapshot) : WorktreeDeltasPatch before after := by
  refine ⟨?_, ?_, ?_⟩
  · rw [diffWorktrees_foldl, patch_rows]
  · rw [diffWorktrees, List.map_eq_nil_iff, diff_rows_eq_nil]
  · have hmap : (diffWorktrees before after).map WorktreeDelta.id =
        (KeyedDiff.diff (fun b a => b ≠ a) before.byId after.byId).map Delta.key := by
      rw [diffWorktrees, List.map_map]
      refine List.map_congr_left fun d hd => ?_
      have hkey := byKey_diff_keyed hd
      cases d with
      | added k v => exact hkey
      | removed k v => exact hkey
      | changed k v w => exact hkey.2
    rw [hmap]
    exact diff_sorted

/-! ## Ref deltas -/

def RefDelta.name? : RefDelta → Option String
  | .headChanged _ _ => none
  | .added row => some row.name
  | .removed row => some row.name
  | .changed _ after => some after.name

theorem diffRefs_eq (before after : RefSnapshot) : diffRefs before after =
    (if before.observation ≠ after.observation then
      [.headChanged before.observation after.observation] else []) ++ diffNamed before after := by
  have hiff : (before.head ≠ after.head ∨ before.headTarget ≠ after.headTarget) ↔
      before.observation ≠ after.observation := by
    rw [RefSnapshot.observation, RefSnapshot.observation, ne_eq, ne_eq, ne_eq,
      HeadObservation.mk.injEq]
    tauto
  rw [diffRefs, if_congr hiff rfl rfl]

theorem diffNamed_foldl (before after : RefSnapshot) (view : RefView) :
    (diffNamed before after).foldl RefDelta.apply view =
      (view.1, (KeyedDiff.diff (fun b a => b ≠ a) before.byName after.byName).foldl
        Delta.apply view.2) := by
  refine foldl_map_apply (M := RefView) Prod.snd (fun v x => (v.1, x)) (fun _ _ => rfl)
    (fun _ _ _ => rfl) (fun _ => rfl) (fun d hd m => ?_) view
  have hkey := byKey_diff_keyed hd
  cases d with
  | added k v => rw [← show v.name = k from hkey]; rfl
  | removed k v => rw [← show v.name = k from hkey]; rfl
  | changed k v w => rw [← show w.name = k from hkey.2]; rfl

structure RefDeltasPatch (before after : RefSnapshot) : Prop where
  patch  : (diffRefs before after).foldl RefDelta.apply before.view = after.view
  empty  : diffRefs before after = [] ↔ before.view = after.view
  names  : ∀ d ∈ (diffRefs before after).tail, d.name?.isSome
  sorted : ((diffRefs before after).filterMap RefDelta.name?).Pairwise (· < ·)

theorem diffRefs_patch (before after : RefSnapshot) : RefDeltasPatch before after := by
  have hkeys : (∀ d ∈ diffNamed before after, d.name?.isSome) ∧
      ((diffNamed before after).filterMap RefDelta.name?).Pairwise (· < ·) := by
    refine filterMap_keys fun d hd => ?_
    have hkey := byKey_diff_keyed hd
    cases d with
    | added k v => exact congrArg some hkey
    | removed k v => exact congrArg some hkey
    | changed k v w => exact congrArg some hkey.2
  have hnil : diffNamed before after = [] ↔ before.byName = after.byName := by
    rw [diffNamed, List.map_eq_nil_iff, diff_rows_eq_nil]
  by_cases hhead : before.observation = after.observation
  · have heq : diffRefs before after = diffNamed before after := by
      rw [diffRefs_eq, if_neg (not_not_intro hhead), List.nil_append]
    refine ⟨?_, ?_, fun d hd => ?_, ?_⟩
    · rw [heq, diffNamed_foldl]
      exact Prod.ext hhead (patch_rows _ _)
    · rw [heq, hnil, RefSnapshot.view, RefSnapshot.view, Prod.mk.injEq]
      exact ⟨fun h => ⟨hhead, h⟩, fun h => h.2⟩
    · rw [heq] at hd
      exact hkeys.1 d (List.mem_of_mem_tail hd)
    · rw [heq]; exact hkeys.2
  · have heq : diffRefs before after =
        .headChanged before.observation after.observation :: diffNamed before after := by
      rw [diffRefs_eq, if_pos hhead, List.singleton_append]
    refine ⟨?_, ?_, fun d hd => ?_, ?_⟩
    · rw [heq, List.foldl_cons, diffNamed_foldl]
      exact Prod.ext rfl (patch_rows _ _)
    · rw [heq]
      exact iff_of_false (by simp) fun h => hhead (congrArg Prod.fst h)
    · rw [heq] at hd
      exact hkeys.1 d hd
    · rw [heq, List.filterMap_cons_none rfl]; exact hkeys.2

/-! ## Directory deltas -/

def DirectoryDelta.path? : DirectoryDelta → Option RootPath
  | .added path => some path
  | .changed path => some path
  | .removed path => some path
  | .rescanRequired => none

/-- The view has the paths of the snapshot, and no content it has is out of date. -/
structure DirectoryView.Agrees (view : DirectoryView) (s : FileSnapshot) : Prop where
  paths    : ∀ path : RootPath, view[path]?.isSome = s.byPath[path]?.isSome
  contents : ∀ (path : RootPath) (content : ContentId), view[path]? = some (some content) →
    s.byPath[path]?.map FileEntry.content = some content

/-- What a consumer of directory deltas holds at a path: what it held if nothing was reported, else
    whether the path is still there. -/
theorem diffDirectory_get (before after : FileSnapshot) (view : DirectoryView) (path : RootPath) :
    ((diffDirectory before after).foldl DirectoryDelta.apply view)[path]? =
      if before.byPath[path]?.map FileEntry.content = after.byPath[path]?.map FileEntry.content
      then view[path]? else after.byPath[path]?.map fun _ => none := by
  rw [diffDirectory, List.foldl_map]
  refine (foldl_get Delta.key (fun d => d.effect.map fun _ => none)
    (fun path => after.byPath[path]?.map fun _ => none) (fun m d k => ?_) (fun d hd => ?_) view
    path).trans ?_
  · cases d with
    | added a v => exact BTreeMap.getElem?_insert
    | removed a v => exact BTreeMap.getElem?_erase
    | changed a v w => exact BTreeMap.getElem?_insert
  · rw [effect_of_report (mem_diff.1 hd)]
  · rw [if_congr mem_map_key rfl rfl, ite_not]
    exact if_congr report_eq_none rfl rfl

structure DirectoryDeltasPatch (before after : FileSnapshot) : Prop where
  patch   : ∀ view : DirectoryView, view.Agrees before →
    DirectoryView.Agrees ((diffDirectory before after).foldl DirectoryDelta.apply view) after
  changed : ∀ path, .changed path ∈ diffDirectory before after ↔ ∃ b a : FileEntry,
    before.byPath[path]? = some b ∧ after.byPath[path]? = some a ∧ b.content ≠ a.content
  empty   : diffDirectory before after = [] ↔ ∀ path : RootPath,
    before.byPath[path]?.map FileEntry.content = after.byPath[path]?.map FileEntry.content
  paths   : ∀ d ∈ diffDirectory before after, d.path?.isSome
  sorted  : ((diffDirectory before after).filterMap DirectoryDelta.path?).Pairwise (· < ·)

theorem view_agrees (s : FileSnapshot) : DirectoryView.Agrees s.view s := by
  have hget : ∀ path : RootPath, s.view[path]? = s.byPath[path]?.map fun e => some e.content :=
    fun path => Std.ExtTreeMap.getElem?_map
  refine ⟨fun path => by rw [hget, Option.isSome_map], fun path content h => ?_⟩
  rw [hget] at h
  cases he : s.byPath[path]? with
  | none => rw [he] at h; cases h
  | some e => rw [he] at h; simpa using h

theorem diffDirectory_patch (before after : FileSnapshot) : DirectoryDeltasPatch before after := by
  have hkeys : (∀ d ∈ diffDirectory before after, d.path?.isSome) ∧
      ((diffDirectory before after).filterMap DirectoryDelta.path?).Pairwise (· < ·) := by
    refine filterMap_keys fun d _ => ?_
    cases d <;> rfl
  refine ⟨fun view hview => ⟨fun path => ?_, fun path content h => ?_⟩, fun path => ?_, ?_, hkeys.1,
    hkeys.2⟩
  · rw [diffDirectory_get]
    split
    · rename_i h
      have := congrArg Option.isSome h
      rw [Option.isSome_map, Option.isSome_map] at this
      rw [hview.paths, this]
    · rw [Option.isSome_map]
  · rw [diffDirectory_get] at h
    split at h
    · rename_i heq
      rw [← heq]; exact hview.contents path content h
    · cases ha : after.byPath[path]? <;> simp [ha] at h
  · rw [diffDirectory, List.mem_map]
    constructor
    · rintro ⟨d, hd, hdelta⟩
      cases d with
      | added k v => cases hdelta
      | removed k v => cases hdelta
      | changed k b a =>
        cases hdelta
        have hr := mem_diff.1 hd
        unfold report at hr
        split at hr
        · cases hr
        · cases hr
        · rename_i v w hb ha
          split at hr
          · rename_i hne
            cases hr
            exact ⟨b, a, hb, ha, hne⟩
          · cases hr
        · cases hr
    · rintro ⟨b, a, hb, ha, hne⟩
      refine ⟨.changed path b a, mem_diff.2 ?_, rfl⟩
      simp only [Delta.key, report, hb, ha, if_pos hne]
  · rw [diffDirectory, List.map_eq_nil_iff]
    exact diff_field_eq_nil

end Soopy

/-!
# Runs of the two watchers

A `RepositoryWatch` is a watcher with everything its receives have handed out. `recvBatch_cases` is
what one receive can do: keep the retained snapshot and hand out nothing (an irrelevant batch, or
any failure), or move the snapshot to the one just read and hand out exactly the difference. The run
lemmas follow by induction over the receives.
-/

namespace Soopy
open KeyedDiff

/-! ## Mirrors -/

theorem foldl_ref (m : Mirror) (ds : List RefDelta) : (ds.map RepositoryDelta.ref).foldl Mirror.apply m =
    { m with refs := m.refs.map fun view => ds.foldl RefDelta.apply view } := by
  induction ds generalizing m with
  | nil => cases m; simp
  | cons d ds ih =>
    rw [List.map_cons, List.foldl_cons, ih]
    simp [Mirror.apply, Function.comp_def]

theorem foldl_source (m : Mirror) {ds : List SourceDelta} (h : ∀ d ∈ ds, d.path?.isSome) :
    (ds.map RepositoryDelta.source).foldl Mirror.apply m =
      { m with files := ds.foldl SourceDelta.apply m.files } := by
  induction ds generalizing m with
  | nil => rfl
  | cons d ds ih =>
    rw [List.forall_mem_cons] at h
    rw [List.map_cons, List.foldl_cons, ih _ h.2]
    cases d with
    | added entry => rfl
    | changed before after => rfl
    | removed source => rfl
    | revisionChanged before after => cases h.1
    | rescanRequired => cases h.1

theorem foldl_worktree (m : Mirror) (ds : List WorktreeDelta) :
    (ds.map RepositoryDelta.worktree).foldl Mirror.apply m =
      { m with worktrees := ds.foldl WorktreeDelta.apply m.worktrees } := by
  induction ds generalizing m with
  | nil => rfl
  | cons d ds ih => rw [List.map_cons, List.foldl_cons, ih]; rfl

theorem mirror_agrees (s : RepositorySnapshot) : s.mirror.Agrees s :=
  ⟨rfl, by simp [RepositorySnapshot.mirror, Function.comp_def], fun _ => rfl, rfl, rfl⟩

/-- The snapshot has the surfaces the query selects. -/
structure WatchQuery.Selects (q : WatchQuery) (s : RepositorySnapshot) : Prop where
  source    : s.source.isSome = q.source
  refs      : s.refs.isSome = q.refs
  index     : s.index.isSome = q.index
  worktrees : s.worktrees.isSome = q.linkedWorktrees

theorem refDeltas_apply {before after : Option RefSnapshot} {m : Mirror}
    (hs : before.isSome = after.isSome) (hm : m.refs = before.map RefSnapshot.view) :
    (refDeltas before after).foldl Mirror.apply m = { m with refs := after.map RefSnapshot.view } := by
  match before, after, hs with
  | none, none, _ => cases m; cases hm; rfl
  | some before, some after, _ =>
    rw [refDeltas, foldl_ref, hm]
    simp only [Option.map_some, (diffRefs_patch before after).patch]

theorem sourceDeltas_apply {before after : Option SourceSnapshot} {m : Mirror}
    (hs : before.isSome = after.isSome)
    (hh : m.revision.map worktreeHead = before.map fun source => worktreeHead source.revision)
    (hc : ∀ path : RepoPath, m.files[path]?.map SourceEntry.content =
      ((before.map SourceSnapshot.byPath).getD ∅)[path]?.map SourceEntry.content) :
    ∃ revision files, (sourceDeltas before after).foldl Mirror.apply m =
        { m with revision := revision, files := files } ∧
      revision.map worktreeHead = (after.map fun source => worktreeHead source.revision) ∧
      ∀ path : RepoPath, files[path]?.map SourceEntry.content =
        ((after.map SourceSnapshot.byPath).getD ∅)[path]?.map SourceEntry.content := by
  match before, after, hs with
  | none, none, _ => exact ⟨m.revision, m.files, rfl, hh, hc⟩
  | some before, some after, _ =>
    simp only [Option.map_some, Option.getD_some] at hh hc ⊢
    have hfiles : ∀ path : RepoPath,
        ((diff before after).foldl SourceDelta.apply m.files)[path]?.map SourceEntry.content =
          after.byPath[path]?.map SourceEntry.content := fun path => by
      rw [diff_foldl]
      exact patch_field hc path
    have hpaths := (diff_patch before after).paths
    by_cases hne : worktreeHead before.revision ≠ worktreeHead after.revision
    · refine ⟨some after.revision, (diff before after).foldl SourceDelta.apply m.files, ?_, rfl, hfiles⟩
      rw [sourceDeltas, if_pos hne, List.singleton_append, List.foldl_cons, foldl_source _ hpaths]
      rfl
    · refine ⟨m.revision, (diff before after).foldl SourceDelta.apply m.files, ?_, ?_, hfiles⟩
      · rw [sourceDeltas, if_neg hne, List.nil_append, foldl_source _ hpaths]
      · rw [hh, not_not.1 hne]

theorem indexDeltas_apply {before after : Option IndexSnapshot} {m : Mirror}
    (hs : before.isSome = after.isSome) (hm : m.index = before) :
    (indexDeltas before after).foldl Mirror.apply m = { m with index := after } := by
  match before, after, hs with
  | none, none, _ => cases m; cases hm; rfl
  | some before, some after, _ =>
    by_cases hne : before ≠ after
    · rw [indexDeltas, if_pos hne]; rfl
    · rw [indexDeltas, if_neg hne, ← not_not.1 hne, ← hm]; rfl

theorem worktreeDeltas_apply {before after : Option WorktreeSnapshot} {m : Mirror}
    (hs : before.isSome = after.isSome) (hm : m.worktrees = (before.map WorktreeSnapshot.byId).getD ∅) :
    (worktreeDeltas before after).foldl Mirror.apply m =
      { m with worktrees := (after.map WorktreeSnapshot.byId).getD ∅ } := by
  match before, after, hs with
  | none, none, _ => cases m; cases hm; rfl
  | some before, some after, _ =>
    rw [worktreeDeltas, foldl_worktree, hm]
    simp only [Option.map_some, Option.getD_some, (diffWorktrees_patch before after).patch]

/-- **`diff_repository` (_8_watch.rs:707)** carries a copy of `before` to a copy of `after`. -/
theorem diffRepository_agrees {q : WatchQuery} {before after : RepositorySnapshot} {m : Mirror}
    (hb : q.Selects before) (ha : q.Selects after) (hm : m.Agrees before) :
    Mirror.Agrees ((diffRepository before after).foldl Mirror.apply m) after := by
  obtain ⟨revision, files, hsource, hhead, hcontents⟩ := sourceDeltas_apply
    (m := { m with refs := after.refs.map RefSnapshot.view })
    (hb.source.trans ha.source.symm) hm.head hm.contents
  have hindex := indexDeltas_apply
    (m := { m with refs := after.refs.map RefSnapshot.view, revision := revision, files := files })
    (hb.index.trans ha.index.symm) hm.index
  have hworktrees := worktreeDeltas_apply
    (m := ⟨after.refs.map RefSnapshot.view, revision, files, after.index, m.worktrees⟩)
    (hb.worktrees.trans ha.worktrees.symm) hm.worktrees
  rw [diffRepository, List.foldl_append, List.foldl_append, List.foldl_append,
    refDeltas_apply (hb.refs.trans ha.refs.symm) hm.refs, hsource, hindex, hworktrees]
  exact ⟨rfl, hhead, hcontents, rfl, rfl⟩

/-! ## One receive -/

theorem readSelected_isSome {α : Type} {selected : Bool} {read : Except String α} {o : Option α}
    (h : readSelected selected read = .ok o) : o.isSome = selected := by
  unfold readSelected at h
  cases selected with
  | false => cases h; rfl
  | true =>
    cases read with
    | error e => cases h
    | ok a => cases h; rfl

theorem readSnapshot_selects {self : RepositoryWatcher} {r : RepositoryReceive}
    {s : RepositorySnapshot} (h : self.readSnapshot r = .ok s) : self.query.Selects s := by
  obtain ⟨source, h1, h⟩ := Machine.bind_ok.1 h
  obtain ⟨refs, h2, h⟩ := Machine.bind_ok.1 h
  obtain ⟨index, h3, h⟩ := Machine.bind_ok.1 h
  obtain ⟨worktrees, h4, h⟩ := Machine.bind_ok.1 h
  cases h
  exact ⟨readSelected_isSome h1, readSelected_isSome h2, readSelected_isSome h3,
    readSelected_isSome h4⟩

/-- **`RepositoryWatcher::recv_batch` (_8_watch.rs:192)**: a failed or irrelevant receive keeps the
    watcher, any other retains what it read and hands out the difference. -/
theorem recvBatch_cases {self : RepositoryWatcher} {r : RepositoryReceive}
    {before : RepositorySnapshot} (hs : self.snapshot = some before) :
    (∃ e, self.recvBatch r = (.error e, self)) ∨ self.recvBatch r = (.ok [], self) ∨
      ∃ rescan after, (rescan = [] ∨ rescan = [.rescanRequired]) ∧ self.readSnapshot r = .ok after ∧
        self.recvBatch r = (.ok (rescan ++ diffRepository before after),
          { self with snapshot := some after }) := by
  unfold RepositoryWatcher.recvBatch
  rw [hs]
  simp only
  split
  · exact .inr (.inl rfl)
  · cases hread : self.readSnapshot r with
    | error e => exact .inl ⟨e, rfl⟩
    | ok after =>
      cases r.refresh with
      | error e => exact .inl ⟨e, rfl⟩
      | ok _ =>
        refine .inr (.inr ⟨_, after, ?_, rfl, rfl⟩)
        split
        · exact .inr rfl
        · exact .inl rfl

/-- A repository watcher and what its receives have handed out. -/
structure RepositoryWatch where
  watcher   : RepositoryWatcher
  delivered : List RepositoryDelta

/-- One receive; an error hands out nothing. -/
def RepositoryWatch.receive (s : RepositoryWatch) (r : RepositoryReceive) : RepositoryWatch :=
  let (result, watcher) := s.watcher.recvBatch r
  ⟨watcher, s.delivered ++ result.toOption.getD []⟩

/-- What the deltas handed out so far are to the opening snapshot. -/
def RepositoryWatch.InStep (opening : RepositorySnapshot) (s : RepositoryWatch) : Prop :=
  ∃ retained, s.watcher.snapshot = some retained ∧ s.watcher.query.Selects retained ∧
    Mirror.Agrees (s.delivered.foldl Mirror.apply opening.mirror) retained

theorem receive_inStep {opening : RepositorySnapshot} {s : RepositoryWatch} (r : RepositoryReceive)
    (h : s.InStep opening) : (s.receive r).InStep opening := by
  obtain ⟨retained, hs, hsel, hagree⟩ := h
  unfold RepositoryWatch.receive
  rcases recvBatch_cases (r := r) hs with ⟨e, he⟩ | he | ⟨rescan, after, hrescan, hread, he⟩
  · rw [he]
    exact ⟨retained, hs, hsel, by simpa [Except.toOption] using hagree⟩
  · rw [he]
    exact ⟨retained, hs, hsel, by simpa [Except.toOption] using hagree⟩
  · rw [he]
    have hafter := readSnapshot_selects hread
    refine ⟨after, rfl, hafter, ?_⟩
    have hstep := diffRepository_agrees hsel hafter hagree
    rcases hrescan with rfl | rfl
    · simpa [Except.toOption, List.foldl_append] using hstep
    · simpa [Except.toOption, List.foldl_append, Mirror.apply] using hstep

theorem openWith_snapshot {repository : RepositoryId} {query : WatchQuery} {r : RepositoryReceive}
    {watcher : RepositoryWatcher} (h : RepositoryWatcher.openWith repository query r = .ok watcher) :
    ∃ opening, watcher.snapshot = some opening ∧ watcher.query.Selects opening := by
  obtain ⟨opening, hread, h⟩ := Machine.bind_ok.1 h
  cases h
  exact ⟨opening, rfl, readSnapshot_selects hread⟩

/-- Over any receives, failed ones included. -/
theorem receives_inStep {opening : RepositorySnapshot} {watcher : RepositoryWatcher}
    (hs : watcher.snapshot = some opening) (hsel : watcher.query.Selects opening)
    (rs : List RepositoryReceive) :
    (rs.foldl RepositoryWatch.receive ⟨watcher, []⟩).InStep opening :=
  List.foldlRecOn rs _ ⟨opening, hs, hsel, mirror_agrees opening⟩ fun _ h r _ => receive_inStep r h

/-! ## The directory watcher -/

structure DirectoryWatch where
  watcher   : DirectoryWatcher
  delivered : List DirectoryDelta

def DirectoryWatch.receive (s : DirectoryWatch) (r : DirectoryReceive) : DirectoryWatch :=
  let (result, watcher) := s.watcher.recvBatch r
  ⟨watcher, s.delivered ++ result.toOption.getD []⟩

/-- **`DirectoryWatcher::recv_batch` (_8_watch.rs:83)** -/
theorem directory_recvBatch_cases (self : DirectoryWatcher) (r : DirectoryReceive) :
    (∃ e, self.recvBatch r = (.error e, self)) ∨
      (∃ ds, (ds = [] ∨ ds = [.rescanRequired]) ∧ self.recvBatch r = (.ok ds, self)) ∨
      ∃ rescan after, (rescan = [] ∨ rescan = [.rescanRequired]) ∧ r.snapshot = .ok after ∧
        self.recvBatch r = (.ok (rescan ++ diffDirectory self.snapshot after), ⟨after⟩) := by
  unfold DirectoryWatcher.recvBatch
  simp only
  split
  · exact .inr (.inl ⟨[], .inl rfl, rfl⟩)
  · split
    · exact .inr (.inl ⟨_, .inr rfl, rfl⟩)
    · cases r.snapshot with
      | error e => exact .inl ⟨e, rfl⟩
      | ok after =>
        refine .inr (.inr ⟨_, after, ?_, rfl, rfl⟩)
        split
        · exact .inr rfl
        · exact .inl rfl

def DirectoryWatch.InStep (opening : FileSnapshot) (s : DirectoryWatch) : Prop :=
  DirectoryView.Agrees (s.delivered.foldl DirectoryDelta.apply opening.view) s.watcher.snapshot

theorem directory_receive_inStep {opening : FileSnapshot} {s : DirectoryWatch} (r : DirectoryReceive)
    (h : s.InStep opening) : (s.receive r).InStep opening := by
  unfold DirectoryWatch.receive DirectoryWatch.InStep at *
  rcases directory_recvBatch_cases s.watcher r with ⟨e, he⟩ | ⟨ds, hds, he⟩ |
    ⟨rescan, after, hrescan, -, he⟩
  · rw [he]
    simpa [Except.toOption] using h
  · rw [he]
    rcases hds with rfl | rfl
    · simpa [Except.toOption] using h
    · simpa [Except.toOption, DirectoryDelta.apply] using h
  · rw [he]
    have hstep := (diffDirectory_patch s.watcher.snapshot after).patch _ h
    rcases hrescan with rfl | rfl
    · simpa [Except.toOption, List.foldl_append] using hstep
    · simpa [Except.toOption, List.foldl_append, DirectoryDelta.apply] using hstep

theorem directory_receives_inStep (watcher : DirectoryWatcher) (rs : List DirectoryReceive) :
    (rs.foldl DirectoryWatch.receive ⟨watcher, []⟩).InStep watcher.snapshot :=
  List.foldlRecOn rs _ (view_agrees watcher.snapshot) fun _ h r _ => directory_receive_inStep r h

/-! ## The law -/

/-- **Deltas are patches**, of one pair of snapshots and over any run of receives. -/
theorem deltas_patch :
    (∀ before after, SourceDeltasPatch before after) ∧
    (∀ before after, DirectoryDeltasPatch before after) ∧
    (∀ before after, RefDeltasPatch before after) ∧
    (∀ before after, WorktreeDeltasPatch before after) ∧
    (∀ repository query r watcher (rs : List RepositoryReceive),
      RepositoryWatcher.openWith repository query r = .ok watcher →
      ∃ opening, watcher.snapshot = some opening ∧
        (rs.foldl RepositoryWatch.receive ⟨watcher, []⟩).InStep opening) ∧
    (∀ self r, ∀ e, (RepositoryWatcher.recvBatch self r).1 = .error e →
      (RepositoryWatcher.recvBatch self r).2 = self) ∧
    (∀ watcher (rs : List DirectoryReceive),
      (rs.foldl DirectoryWatch.receive ⟨watcher, []⟩).InStep watcher.snapshot) ∧
    (∀ self r, ∀ e, (DirectoryWatcher.recvBatch self r).1 = .error e →
      (DirectoryWatcher.recvBatch self r).2 = self) := by
  refine ⟨diff_patch, diffDirectory_patch, diffRefs_patch, diffWorktrees_patch, ?_, ?_,
    directory_receives_inStep, ?_⟩
  · intro repository query r watcher rs hopen
    obtain ⟨opening, hs, hsel⟩ := openWith_snapshot hopen
    exact ⟨opening, hs, receives_inStep hs hsel rs⟩
  · intro self r e he
    cases hs : self.snapshot with
    | none =>
      unfold RepositoryWatcher.recvBatch
      rw [hs]
      simp only
      split <;> rfl
    | some before =>
      rcases recvBatch_cases (r := r) hs with ⟨e', h⟩ | h | ⟨_, _, _, _, h⟩
      · rw [h]
      · rw [h]
      · rw [h] at he; cases he
  · intro self r e he
    rcases directory_recvBatch_cases self r with ⟨e', h⟩ | ⟨ds, _, h⟩ | ⟨_, _, _, _, h⟩
    · rw [h]
    · rw [h]
    · rw [h] at he; cases he

/-- One file "a" of one content, in a worktree that is clean or dirty. -/
def snapshotOf (dirty : Bool) : SourceSnapshot :=
  let revision := .worktree "wt" (some "one") dirty
  ⟨revision, [⟨⟨"repo", revision, "a"⟩, .gitBlob "blob", 1⟩], []⟩

def receiveOf (dirty : Bool) (refresh : Except String Unit) : RepositoryReceive :=
  ⟨[.ok [⟨false, ["a"]⟩]], fun _ => true, .ok (snapshotOf dirty), .error "", .error "", .error "",
    refresh⟩

/-- The third receive reads what the second, failed one saw. -/
theorem deltas_patch_failed_receive :
    ∃ watcher opening, watcher.snapshot = some opening ∧
      ([receiveOf false (.ok ()), receiveOf true (.error "backend"), receiveOf true (.ok ())].foldl
        RepositoryWatch.receive ⟨watcher, []⟩).InStep opening :=
  ⟨_, deltas_patch.2.2.2.2.1 "repo" ⟨true, false, false, false⟩ (receiveOf false (.ok ())) _ _ rfl⟩

/-- A row whose bytes stay keeps the revision it had, so the patched rows are not the rows of `after`,
    and no delta does not mean equal rows. -/
theorem diff_keeps_stale_row : ¬ ∀ before after : SourceSnapshot,
    (diff before after).foldl SourceDelta.apply before.byPath = after.byPath ∧
      (diff before after = [] ↔ before.byPath = after.byPath) := by
  intro h
  have hrow := congrArg (fun m => m["a"]?) (h (snapshotOf false) (snapshotOf true)).1
  exact absurd hrow (by decide)

end Soopy
