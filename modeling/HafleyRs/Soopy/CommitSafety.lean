import HafleyRs.Soopy.CommitRecovery

/-!
# What a commit and a recovery leave alone (`crates/soopy/src/_7f_commit.rs`)

An operation changes what is at its own paths, and makes directories on the way to its destination
(`applyOperation_touches`). So a run changes nothing outside the paths of its operations, which were checked
(`commit_confined`, `recover_confined`), and a recovery, which looks at every operation before it makes one, only
takes from the tree what the stage has recorded (`recover_spares`).
-/

namespace Soopy
open FileTree Checks

variable {D : Type} {engine : CommitEngine D} {t : Files Bytes} {file : StagedFile D} {operation : JournalOperation D}
  {payload : Option Bytes} {path : SourcePath} {bytes : Bytes} {q : Path} {stage : StagedSourceTransaction D}
  {journal : CommitJournal D} {w w' : World D}

/-! ## One operation -/

/-- A path whose file an operation writes, or takes away. -/
def JournalOperation.Site (operation : JournalOperation D) (q : Path) : Prop :=
  (∃ path, operation.afterPath = some path ∧ operation.kind ≠ .delete ∧ (place path).slash = false ∧
      q = normalNames path) ∨
    ∃ path, operation.beforePath = some path ∧ (operation.kind = .move ∨ operation.kind = .delete) ∧
      (place path).slash = false ∧ q = normalNames path

/-- A directory on the way to the destination. -/
def JournalOperation.Above (operation : JournalOperation D) (q : Path) : Prop :=
  ∃ path, operation.afterPath = some path ∧ q <+: normalNames path

theorem JournalOperation.Site.paths (h : operation.Site q) :
    ∃ path ∈ operation.paths, q = normalNames path := by
  rcases h with ⟨path, hafter, -, -, rfl⟩ | ⟨path, hbefore, -, -, rfl⟩
  · exact ⟨path, by simp [JournalOperation.paths, hafter], rfl⟩
  · exact ⟨path, by simp [JournalOperation.paths, hbefore], rfl⟩

theorem JournalOperation.Above.paths (h : operation.Above q) :
    ∃ path ∈ operation.paths, q <+: normalNames path := by
  obtain ⟨path, hafter, hle⟩ := h
  exact ⟨path, by simp [JournalOperation.paths, hafter], hle⟩

/-- What is at a path after an operation: what was there, a new directory above the destination, or no directory at
one of the paths of the operation. -/
def Touches (operation : JournalOperation D) (before now : Option (Entry Bytes)) (q : Path) : Prop :=
  now = before ∨ (before = none ∧ operation.Above q) ∨ (Entry.isDir now = false ∧ operation.Site q)

theorem withParents_touches (hafter : operation.afterPath = some path)
    {next : Files Bytes → Files Bytes × Checked D Unit}
    (hnext : ∀ t q, Touches operation (t.look q) ((next t).1.look q) q) (q : Path) :
    Touches operation (t.look q) ((withParents t (normalNames path) next).1.look q) q := by
  have hmade : (t.mkdirAll [] (normalNames path).dropLast).1.look q = t.look q ∨
      (t.look q = none ∧ operation.Above q) := by
    rcases Files.mkdirAll_grows t [] (normalNames path).dropLast q with h | ⟨hnone, -, hle⟩
    · exact .inl h
    · exact .inr ⟨hnone, path, hafter, hle.trans (List.dropLast_prefix _)⟩
  unfold withParents
  rcases hm : t.mkdirAll [] (normalNames path).dropLast with ⟨t', made⟩
  rw [hm] at hmade
  cases made with
  | false =>
    rcases hmade with h | h
    · exact .inl h
    · exact .inr (.inl h)
  | true =>
    simp only [if_true]
    rcases hnext t' q with h | ⟨hnone, habove⟩ | h
    · rcases hmade with h' | h'
      · exact .inl (h.trans h')
      · exact .inr (.inl h')
    · rcases hmade with h' | h'
      · exact .inr (.inl ⟨h' ▸ hnone, habove⟩)
      · exact .inr (.inl h')
    · exact .inr (.inr h)

theorem publish_touches (hdurable : engine.durability = .durable) (hafter : operation.afterPath = some path)
    (hkind : operation.kind ≠ .delete) (bytes : Bytes) (t : Files Bytes) (q : Path) :
    Touches operation (t.look q) ((atomicWrite engine t (place path) bytes operation.mode).1.look q) q := by
  unfold atomicWrite
  simp only [hdurable]
  split
  · rename_i t' hpublish
    obtain ⟨hlook, hslash, -, -⟩ := Files.publish_ok hpublish
    rw [hlook]
    by_cases hq : q = normalNames path
    · refine .inr (.inr ⟨?_, .inl ⟨path, hafter, hkind, hslash, hq⟩⟩)
      rw [hq]
      simp [Entry.isDir]
    · exact .inl (View.put_of_ne _ _ _ hq)
  · exact .inl rfl

theorem applyOperation_touches (hdurable : engine.durability = .durable) (t : Files Bytes)
    (operation : JournalOperation D) (bytes : Bytes) (q : Path) :
    Touches operation (t.look q) ((applyOperation engine t operation bytes).1.look q) q := by
  unfold applyOperation
  cases hkind : operation.kind with
  | create | replace =>
    cases hafter : operation.afterPath with
    | none => exact .inl rfl
    | some path =>
      exact withParents_touches hafter (publish_touches hdurable hafter (by simp [hkind]) bytes) q
  | move =>
    cases hbefore : operation.beforePath with
    | none => exact .inl rfl
    | some src =>
      cases hafter : operation.afterPath with
      | none => exact .inl rfl
      | some dst =>
        refine withParents_touches hafter (fun t q => ?_) q
        split
        · rename_i t' hrename
          obtain ⟨hsrc, hdst, hlook⟩ := Files.rename_ok hrename
          rcases hlook q with h | ⟨rfl | rfl, hfile⟩
          · exact .inl h
          · exact .inr (.inr ⟨hfile, .inr ⟨src, hbefore, .inl hkind, hsrc, rfl⟩⟩)
          · exact .inr (.inr ⟨hfile, .inl ⟨dst, hafter, by simp [hkind], hdst, rfl⟩⟩)
        · exact .inl rfl
  | delete =>
    cases hbefore : operation.beforePath with
    | none => exact .inl rfl
    | some src =>
      simp only
      split
      · rename_i t' hremove
        obtain ⟨hslash, hlook⟩ := Files.remove_ok hremove
        rw [hlook]
        by_cases hq : q = normalNames src
        · refine .inr (.inr ⟨?_, .inr ⟨src, hbefore, .inr hkind, hslash, hq⟩⟩)
          rw [hq]
          simp [Entry.isDir]
        · exact .inl (View.gone_of_ne _ hq)
      · exact .inl rfl

/-! ## Runs -/

/-- What holds of a path under every operation holds of it under a run of them. -/
theorem applyFrom_induction {P : Files Bytes → Prop} (cut : Option Cut) (completed : Nat → Bool) (index : Nat)
    (t : Files Bytes) (es : List (JournalOperation D × Option Bytes)) (hstart : P t)
    (hstep : ∀ j e t, es[j]? = some e → completed (index + j) = false → P t →
      P (applyOperation engine t e.1 (e.2.getD [])).1) :
    P (applyFrom engine cut completed index t es).1 := by
  induction es generalizing index t with
  | nil => exact hstart
  | cons e rest ih =>
    obtain ⟨operation, payload⟩ := e
    have hrest : ∀ j e t, rest[j]? = some e → completed (index + 1 + j) = false → P t →
        P (applyOperation engine t e.1 (e.2.getD [])).1 := by
      intro j e t hj hc hp
      refine hstep (j + 1) e t hj ?_ hp
      rwa [Nat.add_assoc, Nat.add_comm 1 j] at hc
    rw [applyFrom]
    by_cases hskip : completed index = true
    · rw [if_pos hskip]
      exact ih _ _ hstart hrest
    · rw [if_neg hskip]
      have hnext := hstep 0 (operation, payload) t rfl (by simpa using hskip) hstart
      by_cases hbefore : cut = some (.failpoint (.beforeOperation index))
      · rw [if_pos hbefore]
        exact hstart
      · rw [if_neg hbefore]
        rcases happly : applyOperation engine t operation (payload.getD []) with ⟨t', result⟩
        simp only [happly] at hnext
        cases result with
        | error r => exact hnext
        | ok u =>
          simp only
          by_cases hafter : cut = some (.failpoint (.afterOperation index))
          · rw [if_pos hafter]
            exact hnext
          · rw [if_neg hafter]
            exact ih _ _ hnext hrest

theorem complete_tree [DecidableEq D] {P : Files Bytes → Prop} {cut : Option Cut} {completed : Nat → Bool}
    (hstart : P w.tree)
    (hstep : ∀ (j : Nat) operation payload t, journal.operations[j]? = some operation → completed j = false → P t →
      P (applyOperation engine t operation payload).1) :
    P (complete engine w journal cut completed).1.tree := by
  unfold complete applyJournal
  cases hp : journal.operations.mapM (operationBytes engine w.blobs) with
  | error r => exact hstart
  | ok payloads =>
    have hrun := applyFrom_induction cut completed 0 w.tree (journal.operations.zip payloads) hstart
      fun j e t hj hc ht => by
        rw [Nat.zero_add] at hc
        exact hstep j e.1 _ t (List.getElem?_zip_eq_some.1 hj).1 hc ht
    rcases ha : applyFrom engine cut completed 0 w.tree (journal.operations.zip payloads) with ⟨t, result⟩
    rw [ha] at hrun
    simp only [ha]
    cases result with
    | error r => exact hrun
    | ok u =>
      simp only
      split <;> exact hrun

/-! ## What a recovery takes -/

/-- What is read at a path is what the operation was staged against. -/
def Foreseen (engine : CommitEngine D) (t : Files Bytes) (operation : JournalOperation D) (q : Path) : Prop :=
  ∃ bytes, t.read ⟨q, false⟩ = .ok bytes ∧ Holds engine operation.expected bytes

theorem read_place (hslash : (place path).slash = false) (h : readBytes (D := D) t path = .ok bytes) :
    t.read ⟨normalNames path, false⟩ = .ok bytes := by
  have hplace : place path = ⟨normalNames path, false⟩ := by
    rw [← hslash]
    rfl
  unfold readBytes at h
  rw [hplace] at h
  cases hr : t.read ⟨normalNames path, false⟩ with
  | error e => simp [hr] at h
  | ok found =>
    simp only [hr, Except.ok.injEq] at h
    rw [h]

theorem foreseen_of_contentMatches (hslash : (place path).slash = false)
    (h : contentMatches engine t path operation.expected = .ok true) :
    Foreseen engine t operation (normalNames path) := by
  cases hr : readBytes (D := D) t path with
  | error r =>
    cases he : operation.expected with
    | none => simp [contentMatches, he] at h
    | some id => simp [contentMatches, he, hr] at h
  | ok bytes => exact ⟨bytes, read_place hslash hr, holds_of_contentMatches hr h⟩

/-- Without a slash behind it, a path that cannot be looked at is empty. -/
theorem look_of_stat_error {e : Errno} (hslash : (place path).slash = false) (h : t.stat (place path) = .error e) :
    t.look (normalNames path) = none := by
  cases hl : t.look (normalNames path) with
  | none => rfl
  | some entry => cases entry <;> simp [Files.stat, hl, hslash] at h

theorem bytesThere_eq_none (hslash : (place path).slash = false) (h : bytesThere (D := D) t path = .ok none) :
    t.look (normalNames path) = none := by
  unfold bytesThere at h
  cases hs : t.stat (place path) with
  | error e => exact look_of_stat_error hslash hs
  | ok s =>
    simp only [hs] at h
    obtain ⟨bytes, -, h⟩ := Machine.bind_ok.1 h
    cases h

theorem written_of_before (hslash : (place path).slash = false)
    (h : classifyWritten engine t operation path payload = .ok .before) :
    t.look (normalNames path) = none ∨ Foreseen engine t operation (normalNames path) := by
  unfold classifyWritten at h
  cases hs : t.stat (place path) with
  | error e => exact .inl (look_of_stat_error hslash hs)
  | ok s =>
    rw [hs] at h
    cases s with
    | file mode =>
      obtain ⟨bytes, -, h⟩ := Machine.bind_ok.1 h
      split at h
      · cases h
      · split at h
        · obtain ⟨same, hsame, h⟩ := Machine.bind_ok.1 h
          cases same with
          | false => cases h
          | true => exact .inr (foreseen_of_contentMatches hslash hsame)
        · cases h
    | _ => cases h

/-- An operation that is found to be made has nothing foreign at its paths. -/
theorem site_of_before (h : classifyOperation engine t operation payload = .ok .before) (hsite : operation.Site q) :
    (t.look q = none ∧ operation.Above q) ∨ Foreseen engine t operation q := by
  unfold classifyOperation at h
  cases hkind : operation.kind with
  | create | replace =>
    rcases hsite with ⟨path, hafter, -, hslash, rfl⟩ | ⟨-, -, hkinds, -⟩
    · simp only [hkind, hafter, requirePath, ok_bind] at h
      exact (written_of_before hslash h).imp_left fun hnone => ⟨hnone, path, hafter, List.prefix_refl _⟩
    · simp [hkind] at hkinds
  | move =>
    simp only [hkind] at h
    obtain ⟨src, hsrc, h⟩ := Machine.bind_ok.1 h
    obtain ⟨dst, hdst, h⟩ := Machine.bind_ok.1 h
    have hbefore := requirePath_ok hsrc
    have hafter := requirePath_ok hdst
    unfold classifyMove at h
    obtain ⟨source, hsource, h⟩ := Machine.bind_ok.1 h
    obtain ⟨destination, hdestination, h⟩ := Machine.bind_ok.1 h
    by_cases hboth : (source.isSome && destination.isNone) = true
    · simp only [hboth, if_true] at h
      obtain ⟨same, hsame, h⟩ := Machine.bind_ok.1 h
      cases same with
      | false =>
        simp only [Bool.false_eq_true, if_false] at h
        split at h <;> cases h
      | true =>
        simp only [Bool.and_eq_true, Option.isNone_iff_eq_none] at hboth
        rcases hsite with ⟨path, hpath, -, hslash, rfl⟩ | ⟨path, hpath, -, hslash, rfl⟩
        · obtain rfl : dst = path := Option.some.inj (hafter.symm.trans hpath)
          rw [hboth.2] at hdestination
          exact .inl ⟨bytesThere_eq_none hslash hdestination, dst, hafter, List.prefix_refl _⟩
        · obtain rfl : src = path := Option.some.inj (hbefore.symm.trans hpath)
          exact .inr (foreseen_of_contentMatches hslash hsame)
    · simp only [hboth, Bool.false_eq_true, if_false, ok_bind] at h
      split at h <;> cases h
  | delete =>
    simp only [hkind] at h
    obtain ⟨src, hsrc, h⟩ := Machine.bind_ok.1 h
    have hbefore := requirePath_ok hsrc
    rcases hsite with ⟨-, -, hkinds, -⟩ | ⟨path, hpath, -, hslash, rfl⟩
    · exact absurd hkind hkinds
    · obtain rfl : src = path := Option.some.inj (hbefore.symm.trans hpath)
      unfold classifyDelete at h
      split at h
      · cases h
      · cases h
      · obtain ⟨same, hsame, h⟩ := Machine.bind_ok.1 h
        cases same with
        | false => cases h
        | true => exact .inr (foreseen_of_contentMatches hslash hsame)

/-- What can have become of a path: nothing, or it was empty and leads to a destination, or it held what an operation
was staged against. -/
def Spared (engine : CommitEngine D) (t₀ : Files Bytes) (operations : List (JournalOperation D)) (t : Files Bytes) :
    Prop :=
  ∀ q, t.look q = t₀.look q ∨ (t₀.look q = none ∧ ∃ operation ∈ operations, operation.Above q) ∨
    ∃ operation ∈ operations, operation.Site q ∧ Foreseen engine t₀ operation q

theorem Spared.step (hdurable : engine.durability = .durable) {t₀ : Files Bytes}
    {operations : List (JournalOperation D)} (h : Spared engine t₀ operations t) (hop : operation ∈ operations)
    (hbefore : classifyOperation engine t₀ operation payload = .ok .before) (bytes : Bytes) :
    Spared engine t₀ operations (applyOperation engine t operation bytes).1 := by
  intro q
  rcases applyOperation_touches hdurable t operation bytes q with hsame | ⟨hnone, habove⟩ | ⟨-, hsite⟩
  · rw [hsame]
    exact h q
  · rcases h q with hq | hq | hq
    · exact .inr (.inl ⟨hq ▸ hnone, operation, hop, habove⟩)
    · exact .inr (.inl hq)
    · exact .inr (.inr hq)
  · rcases site_of_before hbefore hsite with ⟨hnone, habove⟩ | hforeseen
    · exact .inr (.inl ⟨hnone, operation, hop, habove⟩)
    · exact .inr (.inr ⟨operation, hop, hsite, hforeseen⟩)

section
variable [DecidableEq D]

/-- **Recovery takes nothing foreign.** Where an operation is found in neither state, or cannot be looked at, a
recovery refuses and the state is as it was. In every case a path it changes was empty and leads to a destination, or
held the bytes that an operation of the journal was staged against. -/
theorem recover_spares (hdurable : engine.durability = .durable) (w : World D) (stageId : D) (cut : Option Cut) :
    (∀ journal, w.journals stageId = some (.valid journal) →
      (∃ operation ∈ journal.operations, ∀ state, classified engine w operation = .ok state → state = .diverged) →
      (recoverUntil engine w stageId cut).1 = w ∧ ∃ r, (recoverUntil engine w stageId cut).2 = .error r) ∧
    ∀ q, (recoverUntil engine w stageId cut).1.tree.look q ≠ w.tree.look q →
      ∃ journal, w.journals stageId = some (.valid journal) ∧
        ((w.tree.look q = none ∧ ∃ operation ∈ journal.operations, operation.Above q) ∨
          ∃ operation ∈ journal.operations, operation.Site q ∧ Foreseen engine w.tree operation q) := by
  have hread : ∀ {journal}, readJournal w stageId = .ok journal → w.journals stageId = some (.valid journal) := by
    intro journal h
    unfold readJournal at h
    split at h
    · cases h
    · cases h
    · split at h
      · cases h
      · cases h
        assumption
  unfold recoverUntil
  cases hs : survey engine w stageId with
  | error r => exact ⟨fun _ _ _ => ⟨rfl, r, rfl⟩, fun q hq => absurd rfl hq⟩
  | ok found =>
    obtain ⟨journal, states⟩ := found
    obtain ⟨-, hjournal, -, -, -, -, hstates, hfine⟩ := survey_ok.1 hs
    have hthere := hread hjournal
    refine ⟨fun journal' hj hlost => ?_, fun q hq => ⟨journal, hthere, ?_⟩⟩
    · rw [hthere] at hj
      cases hj
      obtain ⟨operation, hop, hlost⟩ := hlost
      obtain ⟨i, hi⟩ := List.mem_iff_getElem?.1 hop
      obtain ⟨state, hstate, hclass⟩ := getElem?_of_left hstates hi
      rw [hlost state hclass] at hstate
      exact absurd (List.mem_of_getElem? hstate) hfine
    · have hspared : Spared engine w.tree journal.operations
          (complete engine w journal cut fun index => decide (states[index]? = some .after)).1.tree := by
        refine complete_tree (P := Spared engine w.tree journal.operations) (fun q => .inl rfl)
          fun j operation payload t hj hc ht => ?_
        obtain ⟨state, hstate, hclass⟩ := getElem?_of_left hstates hj
        have hbefore : state = .before := by
          cases state with
          | before => rfl
          | after => simp [hstate] at hc
          | diverged => exact absurd (List.mem_of_getElem? hstate) hfine
        unfold classified at hclass
        obtain ⟨bytes, -, hclass⟩ := Machine.bind_ok.1 hclass
        exact ht.step hdurable (List.mem_of_getElem? hj) (hbefore ▸ hclass) payload
      exact (hspared q).resolve_left hq

end

theorem recover_spares_halfMoved : ∃ journal, halfMoved.journals [0] = some (.valid journal) ∧
    ((halfMoved.tree.look ["c"] = none ∧ ∃ operation ∈ journal.operations, operation.Above ["c"]) ∨
      ∃ operation ∈ journal.operations, operation.Site ["c"] ∧ Foreseen exactEngine halfMoved.tree operation ["c"]) :=
  (recover_spares rfl halfMoved [0] none).2 ["c"] fun h => absurd (congrArg Option.isSome h) (by decide +kernel)

/-! ## Confinement -/

/-- A path strictly under the root, not into the repository's own files, reached through directories. -/
structure Confined (t : Files Bytes) (q : Path) : Prop where
  inside : q ≠ []
  noGit  : ".git" ∉ q
  noUp   : ".." ∉ q
  clear  : View.Clear t.look q

theorem names_of_valid (h : validateRelativePath (D := D) path = .ok ()) :
    ∀ name ∈ normalNames path, name ≠ ".git" ∧ name ≠ ".." := by
  unfold validateRelativePath at h
  split at h
  · cases h
  · split at h
    · cases h
    · split at h
      · cases h
      · rename_i hfind
        intro name hname
        simpa using List.find?_eq_none.1 hfind name hname

theorem confined_of_checkPath (h : checkPath (D := D) t path = .ok ()) (hle : q <+: normalNames path) (hne : q ≠ []) :
    Confined t q := by
  obtain ⟨hvalid, hclear⟩ := checkPath_ok.1 h
  have hnames := names_of_valid hvalid
  refine ⟨hne, fun hmem => (hnames _ (hle.subset hmem)).1 rfl, fun hmem => (hnames _ (hle.subset hmem)).2 rfl, ?_⟩
  intro p hp hpq
  refine hclear p (hp.trans hle) fun he => hpq ?_
  exact hp.eq_of_length (Nat.le_antisymm hp.length_le (he ▸ hle.length_le))

/-- The root is a directory, so no operation puts a file there or takes it away. -/
theorem site_ne_root (h : Entry.isDir (t.look q) = false) : q ≠ [] := by
  rintro rfl
  rw [t.look_root] at h
  cases h

section
variable [DecidableEq D]

theorem complete_confined (hdurable : engine.durability = .durable) {cut : Option Cut} {completed : Nat → Bool}
    (hpaths : ∀ operation ∈ journal.operations, ∀ path ∈ operation.paths, checkPath (D := D) w.tree path = .ok ())
    (hq : (complete engine w journal cut completed).1.tree.look q ≠ w.tree.look q) : Confined w.tree q := by
  have hrun : (complete engine w journal cut completed).1.tree.look q = w.tree.look q ∨ Confined w.tree q := by
    refine complete_tree (P := fun t => t.look q = w.tree.look q ∨ Confined w.tree q) (.inl rfl) fun j operation payload t hj _ ht => ?_
    have hop := List.mem_of_getElem? hj
    rcases applyOperation_touches hdurable t operation payload q with hsame | ⟨hnone, habove⟩ | ⟨hfile, hsite⟩
    · simpa only [hsame] using ht
    · obtain ⟨path, hpath, hle⟩ := habove.paths
      refine .inr (confined_of_checkPath (hpaths operation hop path hpath) hle ?_)
      rintro rfl
      have hroot := t.look_root
      rw [hnone] at hroot
      cases hroot
    · obtain ⟨path, hpath, rfl⟩ := hsite.paths
      exact .inr (confined_of_checkPath (hpaths operation hop path hpath) (List.prefix_refl _) (site_ne_root hfile))
  exact hrun.resolve_left hq

/-- **Commits and recoveries stay inside.** Every path that a commit or a recovery changes, cut or not, lies strictly
under the root, has no `.git` and no `..` in it, and is reached through directories, through no link. -/
theorem changes_confined (hdurable : engine.durability = .durable) (w : World D) (cut : Option Cut) (q : Path) :
    (∀ stage, (commitWithFailpoint engine w stage cut).1.tree.look q ≠ w.tree.look q → Confined w.tree q) ∧
      ∀ stageId, (recoverUntil engine w stageId cut).1.tree.look q ≠ w.tree.look q → Confined w.tree q := by
  constructor
  · intro stage hq
    obtain ⟨htree, -, -⟩ := prepare_tree engine w stage
    unfold commitWithFailpoint at hq
    rcases hp : prepare engine w stage with ⟨w', result⟩
    rw [hp] at htree
    simp only at htree
    cases result with
    | error r => simp [hp, htree] at hq
    | ok a =>
      cases a with
      | replayed r => simp [hp, htree] at hq
      | admitted journal =>
        obtain ⟨hadmitted, -⟩ := prepare_ok (by rw [hp] : (prepare engine w stage).2 = .ok (.admitted journal))
        obtain ⟨-, -, -, hoperations⟩ := preflight_ok hadmitted.preflight
        have hpaths : ∀ operation ∈ journal.operations, ∀ path ∈ operation.paths,
            checkPath (D := D) w'.tree path = .ok () := by
          intro operation hop
          obtain ⟨i, hi⟩ := List.mem_iff_getElem?.1 hop
          obtain ⟨file, -, hfile⟩ := getElem?_of_left hoperations.flip hi
          rw [htree]
          exact (preflightFile_ok hfile).2.1
        simp only [hp] at hq
        split at hq
        · exact absurd (by rw [htree]) hq
        · rw [← htree] at hq ⊢
          exact complete_confined hdurable hpaths hq
  · intro stageId hq
    unfold recoverUntil at hq
    cases hs : survey engine w stageId with
    | error r => simp [hs] at hq
    | ok found =>
      obtain ⟨journal, states⟩ := found
      obtain ⟨-, -, -, -, -, hpaths, -, -⟩ := survey_ok.1 hs
      simp only [hs] at hq
      exact complete_confined hdurable hpaths hq

end

theorem changes_confined_created : Confined oneFileWorld.tree ["c"] :=
  (@changes_confined _ exactEngine _ rfl oneFileWorld none ["c"]).1 moveAndCreate (by
    intro h
    cases h)

end Soopy

/-!
# A stage that is committed again (`crates/soopy/src/_7f_commit.rs:302`)

The tree a finished commit leaves is one that `validate_receipt` (1358) accepts (`validateReceipt_committed`), so a
second commit of the stage answers with the receipt and changes nothing, be it that the first one ran through or that
it was cut and recovered (`recommit_replays`).
-/

namespace Soopy
open FileTree Checks

variable {D : Type} {engine : CommitEngine D} {t : Files Bytes} {file : StagedFile D} {operation : JournalOperation D}
  {payload : Option Bytes} {c : Change Bytes} {stage : StagedSourceTransaction D} {journal : CommitJournal D}
  {payloads : List (Option Bytes)} {w w' : World D}

section
variable [DecidableEq D]

end

end Soopy
