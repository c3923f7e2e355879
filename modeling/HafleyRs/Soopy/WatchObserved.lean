import HafleyRs.Soopy.WatchTargets

/-!
# Relevant paths are observed (`crates/soopy/src/_8_watch.rs:322`, `480`, `499`)

Each relevant path is the root or below it, one of the two Git directories or an entry of theirs, or below one
of the optional directories (`relevant_cases`). The first two kinds are always observed. The third is so when
its directory is there and not shadowed, and the two flags of the watcher say this at any time (`Flags`).
-/

namespace Soopy

/-! ## Layouts -/

theorem Layout.fileExists_prefix (layout : Layout) {path rest : Path}
    (h : layout.fileExists (path ++ rest) = true) : layout.fileExists path = true := by
  induction rest using List.reverseRecOn with
  | nil => simpa using h
  | append_singleton rest name ih =>
    rw [← List.append_assoc] at h
    exact ih (layout.parent _ _ h)

/-- A path below `dir ++ [name]` is near only when that directory exists, the directory itself apart. -/
theorem Layout.Near.below {layout : Layout} {path dir : Path} {name : String} (h : layout.Near path)
    (hle : dir ++ [name] <+: path) : path = dir ++ [name] ∨ layout.fileExists (dir ++ [name]) = true := by
  obtain ⟨rest, rfl⟩ := hle
  rcases h with h | ⟨parent, last, heq, h⟩
  · exact .inr (layout.fileExists_prefix h)
  · rcases List.eq_nil_or_concat rest with rfl | ⟨rest, last', rfl⟩
    · exact .inl (by simp)
    · have hparent : dir ++ [name] ++ rest = parent := by
        rw [List.concat_eq_append, ← List.append_assoc] at heq
        exact (List.append_inj' heq rfl).1
      exact .inr (layout.fileExists_prefix (hparent ▸ h))

/-! ## Relevant paths -/

section
variable {root gitDir commonDir : Path} {query : WatchQuery}

theorem relevant_cases {path : Path} (h : pathIsRelevant root query gitDir commonDir path = true) :
    (query.source = true ∧ root <+: path) ∨
    ((query.watchRefs || query.index || query.linkedWorktrees) = true ∧ ∃ name, path = gitDir ++ [name]) ∨
    ((query.watchRefs || query.linkedWorktrees) = true ∧ (path = commonDir ∨ ∃ name, path = commonDir ++ [name])) ∨
    (query.watchRefs = true ∧ commonDir ++ ["refs"] <+: path) ∨
    (query.linkedWorktrees = true ∧ commonDir ++ ["worktrees"] <+: path) := by
  have hnamed : query.watchRefs = true → path = commonDir ∨ path = commonDir ++ ["HEAD"] ∨
      path = commonDir ++ ["packed-refs"] ∨ commonDir ++ ["refs"] <+: path →
      ((query.watchRefs || query.linkedWorktrees) = true ∧
        (path = commonDir ∨ ∃ name, path = commonDir ++ [name])) ∨
      (query.watchRefs = true ∧ commonDir ++ ["refs"] <+: path) := by
    rintro hw (hp | hp | hp | hp)
    · exact .inl ⟨by simp [hw], .inl hp⟩
    · exact .inl ⟨by simp [hw], .inr ⟨_, hp⟩⟩
    · exact .inl ⟨by simp [hw], .inr ⟨_, hp⟩⟩
    · exact .inr ⟨hw, hp⟩
  simp only [pathIsRelevant, decide_eq_true_eq] at h
  rcases h with ⟨hs, ⟨hroot, -⟩ | hhead | hnamedRef⟩ | ⟨hr, hhead | hnamedRef⟩ | ⟨hi, hindex | hindex⟩ |
    ⟨hl, hhead | hhead | hlinked⟩
  · exact .inl ⟨hs, hroot⟩
  · exact .inr (.inl ⟨by simp [WatchQuery.watchRefs, hs], _, hhead⟩)
  · rcases hnamed (by simp [WatchQuery.watchRefs, hs]) hnamedRef with h | h
    · exact .inr (.inr (.inl h))
    · exact .inr (.inr (.inr (.inl h)))
  · exact .inr (.inl ⟨by simp [WatchQuery.watchRefs, hr], _, hhead⟩)
  · rcases hnamed (by simp [WatchQuery.watchRefs, hr]) hnamedRef with h | h
    · exact .inr (.inr (.inl h))
    · exact .inr (.inr (.inr (.inl h)))
  · exact .inr (.inl ⟨by simp [hi], _, hindex⟩)
  · exact .inr (.inl ⟨by simp [hi], _, hindex⟩)
  · exact .inr (.inl ⟨by simp [hl], _, hhead⟩)
  · exact .inr (.inr (.inl ⟨by simp [hl], .inr ⟨_, hhead⟩⟩))
  · exact .inr (.inr (.inr (.inr ⟨hl, hlinked⟩)))

theorem relevant_observed (layout : Layout)
    (hrefs : ¬ (query.watchRefs = true ∧ Shadowed root gitDir query (commonDir ++ ["refs"])))
    (hworktrees : ¬ (query.linkedWorktrees = true ∧ Shadowed root gitDir query (commonDir ++ ["worktrees"])))
    {path : Path} (hnear : layout.Near path) (hrel : pathIsRelevant root query gitDir commonDir path = true) :
    Observed (opened root gitDir commonDir query layout.fileExists).targets path := by
  have hcommon : (query.watchRefs || query.linkedWorktrees) = true →
      covers (opened root gitDir commonDir query layout.fileExists).targets commonDir = true := fun h =>
    covers_mono (fun t ht => base_planned ht) (base_commonDir h)
  rcases relevant_cases hrel with ⟨hs, hroot⟩ | ⟨hw, name, rfl⟩ | ⟨hw, rfl | ⟨name, rfl⟩⟩ | ⟨hw, hle⟩ | ⟨hw, hle⟩
  · exact ⟨⟨root, true⟩, base_planned (base_root hs), .inr (.inr ⟨rfl, hroot⟩)⟩
  · exact observed_child (covers_mono (fun t ht => base_planned ht) (base_gitDir _ _ _ hw)) name
  · exact observed_of_covers (hcommon hw)
  · exact observed_child (hcommon hw) name
  · rcases hnear.below hle with rfl | hexists
    · exact observed_child (hcommon (by simp [hw])) _
    · refine ObservedBelow.observed ((plan_refs fun h => hrefs ⟨hw, h⟩).2 ?_) hle
      exact refs_covered _ _ _ (by simp [hw, hexists])
  · rcases hnear.below hle with rfl | hexists
    · exact observed_child (hcommon (by simp [hw])) _
    · refine ObservedBelow.observed ((plan_worktrees fun h => hworktrees ⟨hw, h⟩).2 ?_) hle
      exact worktrees_covered _ _ _ _ (by simp [hw, hexists])

end

/-! ## The flags -/

/-- The flags tell which wanted directories are observed with all that is below them. -/
structure Flags (commonDir : Path) (query : WatchQuery) (s : Registered) : Prop where
  refs      : s.refsWatched = (query.watchRefs && decide (ObservedBelow s.targets (commonDir ++ ["refs"])))
  worktrees : s.worktreesWatched =
    (query.linkedWorktrees && decide (ObservedBelow s.targets (commonDir ++ ["worktrees"])))

section
variable {root gitDir commonDir : Path} {query : WatchQuery}

theorem and_eq_and_decide {wanted covered : Bool} {p : Prop} [Decidable p] (h : wanted = true → (p ↔ covered = true)) :
    (wanted && covered) = (wanted && decide p) := by
  cases wanted with
  | false => rfl
  | true => simp [h rfl]

theorem opened_flags {fileExists : Path → Bool}
    (hrefs : ¬ (query.watchRefs = true ∧ Shadowed root gitDir query (commonDir ++ ["refs"])))
    (hworktrees : ¬ (query.linkedWorktrees = true ∧ Shadowed root gitDir query (commonDir ++ ["worktrees"]))) :
    Flags commonDir query (opened root gitDir commonDir query fileExists) := by
  constructor
  · exact and_eq_and_decide fun hw => plan_refs fun h => hrefs ⟨hw, h⟩
  · exact and_eq_and_decide fun hw => plan_worktrees fun h => hworktrees ⟨hw, h⟩

/-- A watch of the loop is one of the two optional ones, and wanted. -/
def Wanted (commonDir : Path) (query : WatchQuery) : OptionalWatch → Prop
  | .refs path => path = commonDir ++ ["refs"] ∧ query.watchRefs = true
  | .worktrees path => path = commonDir ++ ["worktrees"] ∧ query.linkedWorktrees = true

theorem Flags.register {accepts : Path → Bool} {watches : List OptionalWatch}
    (hwanted : ∀ w ∈ watches, Wanted commonDir query w) {s : Registered} (h : Flags commonDir query s) :
    Flags commonDir query (register accepts s watches) := by
  induction watches generalizing s with
  | nil => exact h
  | cons w rest ih =>
    have hrest : ∀ w ∈ rest, Wanted commonDir query w := fun w hw => hwanted w (List.mem_cons_of_mem _ hw)
    have hw := hwanted w List.mem_cons_self
    cases w with
    | refs path =>
      obtain ⟨rfl, hq⟩ := hw
      by_cases ha : accepts (commonDir ++ ["refs"]) = true
      · rw [Soopy.register, if_pos ha]
        refine ih hrest ⟨?_, ?_⟩
        · simp [hq, observedBelow_append]
        · simp [h.worktrees, observedBelow_append, not_prefix_sibling commonDir (show "refs" ≠ "worktrees" by decide)]
      · rw [Soopy.register, if_neg ha]
        exact h
    | worktrees path =>
      obtain ⟨rfl, hq⟩ := hw
      by_cases ha : accepts (commonDir ++ ["worktrees"]) = true
      · rw [Soopy.register, if_pos ha]
        refine ih hrest ⟨?_, ?_⟩
        · simp [h.refs, observedBelow_append, not_prefix_sibling commonDir (show "worktrees" ≠ "refs" by decide)]
        · simp [hq, observedBelow_append]
      · rw [Soopy.register, if_neg ha]
        exact h

theorem pending_wanted {s : Registered} {fileExists : Path → Bool} :
    ∀ w ∈ s.pending commonDir query fileExists, Wanted commonDir query w := by
  intro w hw
  simp only [Registered.pending, pendingOptionalWatches, List.mem_append, List.mem_ite_nil_right,
    List.mem_singleton, Bool.and_eq_true] at hw
  rcases hw with ⟨⟨⟨hq, -⟩, -⟩, rfl⟩ | ⟨⟨⟨hq, -⟩, -⟩, rfl⟩
  · exact ⟨rfl, hq⟩
  · exact ⟨rfl, hq⟩

theorem Flags.runs {s : Registered} (h : Flags commonDir query s) (refreshes : List Refresh) :
    Flags commonDir query (refreshes.foldl (Registered.refresh commonDir query) s) := by
  induction refreshes generalizing s with
  | nil => exact h
  | cons r rest ih => exact ih (h.register pending_wanted)

theorem Flags.pending {s : Registered} (h : Flags commonDir query s) (fileExists : Path → Bool) :
    s.pending commonDir query fileExists = uncovered s.targets commonDir query fileExists := by
  unfold Registered.pending pendingOptionalWatches uncovered
  rw [h.refs, h.worktrees]
  congr 1
  · refine if_congr ?_ rfl rfl
    cases query.watchRefs <;> simp [and_comm]
  · refine if_congr ?_ rfl rfl
    cases query.linkedWorktrees <;> simp [and_comm]

/-! ## The watcher -/

/-- A shadowed directory counts as covered by the base targets, and none of them observes it. -/
theorem Shadowed.base {dir : Path} (hs : Shadowed root gitDir query dir)
    (hw : (query.watchRefs || query.index || query.linkedWorktrees) = true) :
    covers (baseTargets root gitDir commonDir query) dir = true ∧
      ∀ t ∈ baseTargets root gitDir commonDir query, t.recursive = true → ¬ t.path <+: dir := by
  obtain ⟨heq, hroot⟩ := hs
  refine ⟨heq ▸ base_gitDir _ _ _ hw, fun t ht hrec hle => ?_⟩
  rcases mem_baseTargets ht with ⟨hs, rfl⟩ | rfl | rfl
  · exact hroot ⟨hs, hle⟩
  · cases hrec
  · cases hrec

/-- A shadowed directory is wanted and there, and the watcher neither observes it nor says so. -/
theorem shadowed_refs (hw : query.watchRefs = true) (hs : Shadowed root gitDir query (commonDir ++ ["refs"])) :
    (opened root gitDir commonDir query fun _ => true).refsWatched = true ∧
      ¬ ObservedBelow (opened root gitDir commonDir query fun _ => true).targets (commonDir ++ ["refs"]) := by
  obtain ⟨hbase, hnone⟩ := hs.base (by simp [hw])
  constructor
  · have := refs_covered root gitDir commonDir (show (query.watchRefs && true) = true by simp [hw])
    simp [opened, watchPlan, hw, this]
  · rintro ⟨t, ht, hrec, hle⟩
    rcases mem_planTargets.1 ht with ht | ⟨-, -, rfl⟩
    · rcases mem_refsTargets.1 ht with ht | ⟨-, hnot, -⟩
      · exact hnone t ht hrec hle
      · exact hnot hbase
    · exact not_prefix_sibling commonDir (by decide) hle

theorem shadowed_worktrees (hw : query.linkedWorktrees = true)
    (hs : Shadowed root gitDir query (commonDir ++ ["worktrees"])) :
    (opened root gitDir commonDir query fun _ => true).worktreesWatched = true ∧
      ¬ ObservedBelow (opened root gitDir commonDir query fun _ => true).targets (commonDir ++ ["worktrees"]) := by
  obtain ⟨hbase, hnone⟩ := hs.base (by simp [hw])
  constructor
  · have := worktrees_covered root gitDir commonDir true (show (query.linkedWorktrees && true) = true by simp [hw])
    simp [opened, watchPlan, hw, this]
  · rintro ⟨t, ht, hrec, hle⟩
    rcases mem_planTargets.1 ht with ht | ⟨-, hnot, -⟩
    · rcases mem_refsTargets.1 ht with ht | ⟨-, -, rfl⟩
      · exact hnone t ht hrec hle
      · exact not_prefix_sibling commonDir (by decide) hle
    · exact hnot (covers_mono (fun t ht => mem_refsTargets.2 (.inl ht)) hbase)

/-- **What is observed.** Over every layout each relevant path near to what exists is observed by the plan, and
after any refreshes the pending watches are the wanted directories that are not observed, exactly when the Git
directory is not itself a wanted optional directory that no recursive root holds. -/
theorem relevant_observed_iff (root gitDir commonDir : Path) (query : WatchQuery) :
    (∀ layout : Layout,
      (∀ path, layout.Near path → pathIsRelevant root query gitDir commonDir path = true →
        Observed (opened root gitDir commonDir query layout.fileExists).targets path) ∧
      ∀ (refreshes : List Refresh) (fileExists : Path → Bool),
        let s := refreshes.foldl (Registered.refresh commonDir query)
          (opened root gitDir commonDir query layout.fileExists)
        s.pending commonDir query fileExists = uncovered s.targets commonDir query fileExists) ↔
    ¬ (query.watchRefs = true ∧ Shadowed root gitDir query (commonDir ++ ["refs"])) ∧
    ¬ (query.linkedWorktrees = true ∧ Shadowed root gitDir query (commonDir ++ ["worktrees"])) := by
  constructor
  · intro h
    have hpending := (h ⟨fun _ => true, fun _ _ _ => rfl⟩).2 [] fun _ => true
    refine ⟨?_, ?_⟩
    · rintro ⟨hw, hs⟩
      obtain ⟨hflag, hnot⟩ := shadowed_refs hw hs
      have hmem : OptionalWatch.refs (commonDir ++ ["refs"]) ∈
          uncovered (opened root gitDir commonDir query fun _ => true).targets commonDir query fun _ => true := by
        simp [uncovered, hw, hnot]
      rw [List.foldl_nil] at hpending
      rw [← hpending] at hmem
      simp [Registered.pending, pendingOptionalWatches, hflag] at hmem
    · rintro ⟨hw, hs⟩
      obtain ⟨hflag, hnot⟩ := shadowed_worktrees hw hs
      have hmem : OptionalWatch.worktrees (commonDir ++ ["worktrees"]) ∈
          uncovered (opened root gitDir commonDir query fun _ => true).targets commonDir query fun _ => true := by
        simp [uncovered, hw, hnot]
      rw [List.foldl_nil] at hpending
      rw [← hpending] at hmem
      simp [Registered.pending, pendingOptionalWatches, hflag] at hmem
  · rintro ⟨hrefs, hworktrees⟩ layout
    refine ⟨fun path hnear hrel => relevant_observed layout hrefs hworktrees hnear hrel, ?_⟩
    intro refreshes fileExists
    exact ((opened_flags hrefs hworktrees).runs refreshes).pending fileExists

end

/-- With the Git directory of a worktree at `refs`, its branches are relevant and not observed, and no watch of
theirs is pending. -/
theorem refsGitDir_unseen :
    ¬ ∀ (root gitDir commonDir : Path) (query : WatchQuery) (layout : Layout),
      (∀ path, layout.Near path → pathIsRelevant root query gitDir commonDir path = true →
        Observed (opened root gitDir commonDir query layout.fileExists).targets path) ∧
      ∀ (refreshes : List Refresh) (fileExists : Path → Bool),
        let s := refreshes.foldl (Registered.refresh commonDir query)
          (opened root gitDir commonDir query layout.fileExists)
        s.pending commonDir query fileExists = uncovered s.targets commonDir query fileExists := by
  intro h
  have hclosed : ∀ (path : Path) (name : String), decide (path ++ [name] <+: [".git", "refs", "heads"]) = true →
      decide (path <+: [".git", "refs", "heads"]) = true := by
    intro path name hle
    exact decide_eq_true ((List.prefix_append path [name]).trans (of_decide_eq_true hle))
  have hheads : decide (([".git", "refs", "heads"] : Path) <+: [".git", "refs", "heads"]) = true := by decide
  have hobserved := (h ["tree"] [".git", "refs"] [".git"] ⟨false, true, false, false⟩
    ⟨fun path => decide (path <+: [".git", "refs", "heads"]), hclosed⟩).1 [".git", "refs", "heads", "main"]
    (.inr ⟨[".git", "refs", "heads"], "main", rfl, hheads⟩) (by decide)
  revert hobserved
  rintro ⟨t, ht, hseen⟩
  have htargets : t = ⟨[".git", "refs"], false⟩ ∨ t = ⟨[".git"], false⟩ := by
    simpa [opened, watchPlan, planTargets, refsTargets, baseTargets, WatchQuery.watchRefs, add, covers] using ht
  rcases htargets with rfl | rfl
  · simp at hseen
  · simp at hseen

end Soopy
