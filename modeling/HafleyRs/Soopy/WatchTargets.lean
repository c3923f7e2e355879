import HafleyRs.Soopy.Watch

/-!
# What a repository watcher registers (`crates/soopy/src/_8_watch.rs`)

| here | there |
| --- | --- |
| `Path` | an absolute path by its components: `join` appends one, `starts_with` is `<+:` |
| `pathIsRelevant` | _8_watch.rs:322 |
| `WatchTarget`, `WatchPlan`, `covers`, `add` | 447, 453, 460 |
| `pendingOptionalWatches`, `watchPlan` | 480, 499 |
| `Registered`, `opened`, `refresh` | the watcher's two flags (139), and 259 with the targets registered so far |

`covers` takes any target at the path for coverage, also one that is not recursive. So `refs` and
`worktrees`, which are wanted with all that is under them, are left to such a target when the Git directory
is that very path (`Shadowed`).
-/

namespace Soopy

abbrev Path := List String

def pathIsRelevant (root : Path) (query : WatchQuery) (gitDir commonDir path : Path) : Bool :=
  let isGitPath := gitDir <+: path ∨ commonDir <+: path
  let sourcePath := root <+: path ∧ ¬ isGitPath
  let currentHead := path = gitDir ++ ["HEAD"]
  let commonHead := path = commonDir ++ ["HEAD"]
  let currentIndex := path = gitDir ++ ["index"] ∨ path = gitDir ++ ["index.lock"]
  let namedRef := path = commonDir ∨ commonHead ∨ path = commonDir ++ ["packed-refs"] ∨
    commonDir ++ ["refs"] <+: path
  let linkedWorktree := commonDir ++ ["worktrees"] <+: path
  query.source ∧ (sourcePath ∨ currentHead ∨ namedRef) ∨ query.refs ∧ (currentHead ∨ namedRef) ∨
    query.index ∧ currentIndex ∨ query.linkedWorktrees ∧ (currentHead ∨ commonHead ∨ linkedWorktree)

structure WatchTarget where
  path      : Path
  recursive : Bool
deriving DecidableEq, Repr

structure WatchPlan where
  targets          : List WatchTarget
  refsWatched      : Bool
  worktreesWatched : Bool
deriving DecidableEq, Repr

def covers (targets : List WatchTarget) (path : Path) : Bool :=
  targets.any fun target => target.path = path ∨ target.recursive ∧ target.path <+: path

def add (targets : List WatchTarget) (path : Path) (recursive : Bool) : List WatchTarget :=
  if covers targets path then targets else targets ++ [⟨path, recursive⟩]

inductive OptionalWatch where
  | refs (path : Path)
  | worktrees (path : Path)
deriving DecidableEq, Repr

def pendingOptionalWatches (fileExists : Path → Bool) (commonDir : Path)
    (watchRefs watchWorktrees refsWatched worktreesWatched : Bool) : List OptionalWatch :=
  (if watchRefs && !refsWatched && fileExists (commonDir ++ ["refs"]) then
    [.refs (commonDir ++ ["refs"])] else []) ++
  (if watchWorktrees && !worktreesWatched && fileExists (commonDir ++ ["worktrees"]) then
    [.worktrees (commonDir ++ ["worktrees"])] else [])

def WatchQuery.watchRefs (query : WatchQuery) : Bool := query.source || query.refs

/-- The targets, as `watch_plan` adds them. -/
def baseTargets (root gitDir commonDir : Path) (query : WatchQuery) : List WatchTarget :=
  let targets := if query.source then add [] root true else []
  let targets := if query.watchRefs || query.index || query.linkedWorktrees then add targets gitDir false
    else targets
  if (query.watchRefs || query.linkedWorktrees) && commonDir ≠ gitDir then add targets commonDir false
    else targets

def refsTargets (root gitDir commonDir : Path) (query : WatchQuery) (refsExist : Bool) : List WatchTarget :=
  let targets := baseTargets root gitDir commonDir query
  if query.watchRefs && refsExist then add targets (commonDir ++ ["refs"]) true else targets

def planTargets (root gitDir commonDir : Path) (query : WatchQuery) (refsExist worktreesExist : Bool) :
    List WatchTarget :=
  let targets := refsTargets root gitDir commonDir query refsExist
  if query.linkedWorktrees && worktreesExist then add targets (commonDir ++ ["worktrees"]) true else targets

def watchPlan (root gitDir commonDir : Path) (query : WatchQuery) (refsExist worktreesExist : Bool) :
    WatchPlan where
  targets := planTargets root gitDir commonDir query refsExist worktreesExist
  refsWatched := query.watchRefs &&
    covers (refsTargets root gitDir commonDir query refsExist) (commonDir ++ ["refs"])
  worktreesWatched := query.linkedWorktrees &&
    covers (planTargets root gitDir commonDir query refsExist worktreesExist) (commonDir ++ ["worktrees"])

/-! ## The watcher's registrations over time -/

structure Registered where
  targets          : List WatchTarget
  refsWatched      : Bool
  worktreesWatched : Bool
deriving DecidableEq, Repr

def opened (root gitDir commonDir : Path) (query : WatchQuery) (fileExists : Path → Bool) : Registered :=
  let plan := watchPlan root gitDir commonDir query (fileExists (commonDir ++ ["refs"]))
    (fileExists (commonDir ++ ["worktrees"]))
  ⟨plan.targets, plan.refsWatched, plan.worktreesWatched⟩

/-- The loop of `refresh_optional_watches`; it ends at the first watch that the watcher does not accept. -/
def register (accepts : Path → Bool) (s : Registered) : List OptionalWatch → Registered
  | [] => s
  | .refs path :: rest =>
    if accepts path then
      register accepts { s with targets := s.targets ++ [⟨path, true⟩], refsWatched := true } rest
    else s
  | .worktrees path :: rest =>
    if accepts path then
      register accepts { s with targets := s.targets ++ [⟨path, true⟩], worktreesWatched := true } rest
    else s

def Registered.pending (s : Registered) (commonDir : Path) (query : WatchQuery) (fileExists : Path → Bool) :
    List OptionalWatch :=
  pendingOptionalWatches fileExists commonDir query.watchRefs query.linkedWorktrees s.refsWatched s.worktreesWatched

/-- One refresh: what exists then, and which watches are accepted. -/
structure Refresh where
  fileExists : Path → Bool
  accepts    : Path → Bool

def Registered.refresh (commonDir : Path) (query : WatchQuery) (s : Registered) (r : Refresh) : Registered :=
  register r.accepts s (s.pending commonDir query r.fileExists)

/-! ## What is observed -/

/-- Events at the path reach the watcher. -/
def Observed (targets : List WatchTarget) (path : Path) : Prop :=
  ∃ t ∈ targets, t.path = path ∨ (t.recursive = false ∧ ∃ name, path = t.path ++ [name]) ∨
    (t.recursive = true ∧ t.path <+: path)

/-- Events at the path and everywhere below it do. -/
def ObservedBelow (targets : List WatchTarget) (path : Path) : Prop :=
  ∃ t ∈ targets, t.recursive = true ∧ t.path <+: path

instance (targets : List WatchTarget) (path : Path) : Decidable (ObservedBelow targets path) :=
  inferInstanceAs (Decidable (∃ t ∈ targets, _))

/-- The directories there are. -/
structure Layout where
  fileExists : Path → Bool
  parent     : ∀ path name, fileExists (path ++ [name]) → fileExists path

/-- The path is there, or may come to be in a directory that is. -/
def Layout.Near (layout : Layout) (path : Path) : Prop :=
  layout.fileExists path ∨ ∃ dir name, path = dir ++ [name] ∧ layout.fileExists dir

/-- The wanted directories that exist and are not observed with all that is below them. -/
def uncovered (targets : List WatchTarget) (commonDir : Path) (query : WatchQuery) (fileExists : Path → Bool) :
    List OptionalWatch :=
  (if query.watchRefs ∧ fileExists (commonDir ++ ["refs"]) ∧ ¬ ObservedBelow targets (commonDir ++ ["refs"]) then
    [.refs (commonDir ++ ["refs"])] else []) ++
  (if query.linkedWorktrees ∧ fileExists (commonDir ++ ["worktrees"]) ∧
      ¬ ObservedBelow targets (commonDir ++ ["worktrees"]) then
    [.worktrees (commonDir ++ ["worktrees"])] else [])

/-- The Git directory is the directory itself, and no recursive root holds it. -/
def Shadowed (root gitDir : Path) (query : WatchQuery) (dir : Path) : Prop :=
  gitDir = dir ∧ ¬ (query.source = true ∧ root <+: dir)

end Soopy

/-!
# What the planned targets observe (`crates/soopy/src/_8_watch.rs:499`)

The targets before the optional ones are the root, recursive, and the two Git directories, not recursive
(`mem_baseTargets`). Unless one of these stands at an optional directory, being covered there is being
observed with all that is below, which is what the two flags of the watcher then say at any time (`Flags`).
-/

namespace Soopy

/-! ## Targets -/

theorem covers_iff {targets : List WatchTarget} {path : Path} :
    covers targets path = true ↔ (∃ t ∈ targets, t.path = path) ∨ ObservedBelow targets path := by
  simp only [covers, List.any_eq_true, decide_eq_true_eq, ObservedBelow]
  constructor
  · rintro ⟨t, ht, h | h⟩
    · exact .inl ⟨t, ht, h⟩
    · exact .inr ⟨t, ht, h⟩
  · rintro (⟨t, ht, h⟩ | ⟨t, ht, h⟩)
    · exact ⟨t, ht, .inl h⟩
    · exact ⟨t, ht, .inr h⟩

theorem mem_add {targets : List WatchTarget} {path : Path} {recursive : Bool} {t : WatchTarget} :
    t ∈ add targets path recursive ↔ t ∈ targets ∨ (¬ covers targets path = true ∧ t = ⟨path, recursive⟩) := by
  unfold add
  by_cases h : covers targets path = true
  · simp [h]
  · simp [h]

theorem ObservedBelow.mono {targets targets' : List WatchTarget} (hsub : ∀ t ∈ targets, t ∈ targets') {path : Path}
    (h : ObservedBelow targets path) : ObservedBelow targets' path := by
  obtain ⟨t, ht, h⟩ := h
  exact ⟨t, hsub t ht, h⟩

theorem covers_mono {targets targets' : List WatchTarget} (hsub : ∀ t ∈ targets, t ∈ targets') {path : Path}
    (h : covers targets path = true) : covers targets' path = true := by
  rw [covers_iff] at h ⊢
  rcases h with ⟨t, ht, h⟩ | h
  · exact .inl ⟨t, hsub t ht, h⟩
  · exact .inr (h.mono hsub)

theorem covers_add (targets : List WatchTarget) (path : Path) (recursive : Bool) :
    covers (add targets path recursive) path = true := by
  by_cases h : covers targets path = true
  · rwa [add, if_pos h]
  · exact covers_iff.2 (.inl ⟨⟨path, recursive⟩, mem_add.2 (.inr ⟨h, rfl⟩), rfl⟩)

theorem observed_of_covers {targets : List WatchTarget} {path : Path} (h : covers targets path = true) :
    Observed targets path := by
  rcases covers_iff.1 h with ⟨t, ht, h⟩ | ⟨t, ht, h⟩
  · exact ⟨t, ht, .inl h⟩
  · exact ⟨t, ht, .inr (.inr h)⟩

theorem observed_child {targets : List WatchTarget} {path : Path} (h : covers targets path = true) (name : String) :
    Observed targets (path ++ [name]) := by
  rcases covers_iff.1 h with ⟨t, ht, rfl⟩ | ⟨t, ht, hrec, hle⟩
  · cases hrec : t.recursive with
    | true => exact ⟨t, ht, .inr (.inr ⟨hrec, List.prefix_append _ _⟩)⟩
    | false => exact ⟨t, ht, .inr (.inl ⟨hrec, name, rfl⟩)⟩
  · exact ⟨t, ht, .inr (.inr ⟨hrec, hle.trans (List.prefix_append _ _)⟩)⟩

theorem ObservedBelow.observed {targets : List WatchTarget} {path path' : Path} (h : ObservedBelow targets path)
    (hle : path <+: path') : Observed targets path' := by
  obtain ⟨t, ht, hrec, hle'⟩ := h
  exact ⟨t, ht, .inr (.inr ⟨hrec, hle'.trans hle⟩)⟩

theorem append_ne_self (path : Path) (name : String) : path ≠ path ++ [name] := fun h => by
  have := congrArg List.length h
  simp at this

theorem not_prefix_sibling (path : Path) {a b : String} (h : a ≠ b) : ¬ path ++ [a] <+: path ++ [b] := by
  intro hle
  have := (List.prefix_append_right_inj path).1 hle
  simp [h] at this

theorem observedBelow_append {targets : List WatchTarget} {added path : Path} :
    ObservedBelow (targets ++ [⟨added, true⟩]) path ↔ ObservedBelow targets path ∨ added <+: path := by
  constructor
  · rintro ⟨t, ht, hrec, hle⟩
    rcases List.mem_append.1 ht with ht | ht
    · exact .inl ⟨t, ht, hrec, hle⟩
    · rw [List.mem_singleton.1 ht] at hle
      exact .inr hle
  · rintro (h | hle)
    · exact h.mono fun t ht => List.mem_append_left _ ht
    · exact ⟨⟨added, true⟩, by simp, rfl, hle⟩

/-! ## The plan -/

theorem mem_ite_add {wanted recursive : Bool} {targets : List WatchTarget} {path : Path} {t : WatchTarget} :
    t ∈ (if wanted then add targets path recursive else targets) ↔
      t ∈ targets ∨ (wanted = true ∧ ¬ covers targets path = true ∧ t = ⟨path, recursive⟩) := by
  cases wanted with
  | true => simp [mem_add]
  | false => simp

section
variable {root gitDir commonDir : Path} {query : WatchQuery}

theorem mem_baseTargets {t : WatchTarget} (h : t ∈ baseTargets root gitDir commonDir query) :
    (query.source = true ∧ t = ⟨root, true⟩) ∨ t = ⟨gitDir, false⟩ ∨ t = ⟨commonDir, false⟩ := by
  rcases mem_ite_add.1 h with h | ⟨-, -, rfl⟩
  · rcases mem_ite_add.1 h with h | ⟨-, -, rfl⟩
    · rcases mem_ite_add.1 h with h | ⟨hs, -, rfl⟩
      · cases h
      · exact .inl ⟨hs, rfl⟩
    · exact .inr (.inl rfl)
  · exact .inr (.inr rfl)

theorem base_root (hs : query.source = true) : ⟨root, true⟩ ∈ baseTargets root gitDir commonDir query := by
  refine mem_ite_add.2 (.inl (mem_ite_add.2 (.inl (mem_ite_add.2 (.inr ⟨hs, ?_, rfl⟩)))))
  simp [covers]

variable (root gitDir commonDir) in
theorem base_gitDir (h : (query.watchRefs || query.index || query.linkedWorktrees) = true) :
    covers (baseTargets root gitDir commonDir query) gitDir = true := by
  refine covers_mono (fun t ht => mem_ite_add.2 (.inl ht)) ?_
  rw [if_pos h]
  exact covers_add _ _ _

theorem base_commonDir (h : (query.watchRefs || query.linkedWorktrees) = true) :
    covers (baseTargets root gitDir commonDir query) commonDir = true := by
  by_cases heq : commonDir = gitDir
  · have hgit : (query.watchRefs || query.index || query.linkedWorktrees) = true := by
      simp only [Bool.or_eq_true] at h ⊢
      tauto
    have := base_gitDir root gitDir commonDir hgit
    rwa [heq] at this ⊢
  · unfold baseTargets
    simp only
    rw [if_pos (by simp [h, heq])]
    exact covers_add _ _ _

/-- Away from a shadowed directory, being covered is being observed with all that is below. -/
theorem observedBelow_of_covers {targets : List WatchTarget} {dir : Path}
    (hsub : ∀ t ∈ baseTargets root gitDir commonDir query, t ∈ targets)
    (hmem : ∀ t ∈ targets, t ∈ baseTargets root gitDir commonDir query ∨ t.recursive = true)
    (hcommon : commonDir ≠ dir) (hshadow : ¬ Shadowed root gitDir query dir) (h : covers targets dir = true) :
    ObservedBelow targets dir := by
  rcases covers_iff.1 h with ⟨t, ht, hpath⟩ | h
  · rcases hmem t ht with hbase | hrec
    · rcases mem_baseTargets hbase with ⟨-, rfl⟩ | rfl | rfl
      · exact ⟨_, ht, rfl, hpath ▸ List.prefix_refl _⟩
      · have hroot : query.source = true ∧ root <+: dir := by
          by_contra hroot
          exact hshadow ⟨hpath, hroot⟩
        exact ⟨⟨root, true⟩, hsub _ (base_root hroot.1), rfl, hroot.2⟩
      · exact absurd hpath hcommon
    · exact ⟨t, ht, hrec, hpath ▸ List.prefix_refl _⟩
  · exact h

variable {refsExist worktreesExist : Bool}

theorem mem_refsTargets {t : WatchTarget} : t ∈ refsTargets root gitDir commonDir query refsExist ↔
    t ∈ baseTargets root gitDir commonDir query ∨ ((query.watchRefs && refsExist) = true ∧
      ¬ covers (baseTargets root gitDir commonDir query) (commonDir ++ ["refs"]) = true ∧
        t = ⟨commonDir ++ ["refs"], true⟩) :=
  mem_ite_add

theorem mem_planTargets {t : WatchTarget} :
    t ∈ planTargets root gitDir commonDir query refsExist worktreesExist ↔
      t ∈ refsTargets root gitDir commonDir query refsExist ∨ ((query.linkedWorktrees && worktreesExist) = true ∧
        ¬ covers (refsTargets root gitDir commonDir query refsExist) (commonDir ++ ["worktrees"]) = true ∧
          t = ⟨commonDir ++ ["worktrees"], true⟩) :=
  mem_ite_add

theorem base_planned {t : WatchTarget} (h : t ∈ baseTargets root gitDir commonDir query) :
    t ∈ planTargets root gitDir commonDir query refsExist worktreesExist :=
  mem_planTargets.2 (.inl (mem_refsTargets.2 (.inl h)))

theorem refsTargets_recursive {t : WatchTarget} (h : t ∈ refsTargets root gitDir commonDir query refsExist) :
    t ∈ baseTargets root gitDir commonDir query ∨ t.recursive = true := by
  rcases mem_refsTargets.1 h with h | ⟨-, -, rfl⟩
  · exact .inl h
  · exact .inr rfl

theorem planTargets_recursive {t : WatchTarget}
    (h : t ∈ planTargets root gitDir commonDir query refsExist worktreesExist) :
    t ∈ baseTargets root gitDir commonDir query ∨ t.recursive = true := by
  rcases mem_planTargets.1 h with h | ⟨-, -, rfl⟩
  · exact refsTargets_recursive h
  · exact .inr rfl

/-- `refs` is observed with all that is below by the plan exactly when the plan's flag says so. -/
theorem plan_refs (hshadow : ¬ Shadowed root gitDir query (commonDir ++ ["refs"])) :
    ObservedBelow (planTargets root gitDir commonDir query refsExist worktreesExist) (commonDir ++ ["refs"]) ↔
      covers (refsTargets root gitDir commonDir query refsExist) (commonDir ++ ["refs"]) = true := by
  constructor
  · rintro ⟨t, ht, hrec, hle⟩
    rcases mem_planTargets.1 ht with ht | ⟨-, -, rfl⟩
    · exact covers_iff.2 (.inr ⟨t, ht, hrec, hle⟩)
    · exact absurd hle (not_prefix_sibling commonDir (by decide))
  · intro h
    refine ObservedBelow.mono (fun t ht => mem_planTargets.2 (.inl ht)) ?_
    exact observedBelow_of_covers (fun t ht => mem_refsTargets.2 (.inl ht)) (fun t ht => refsTargets_recursive ht)
      (append_ne_self _ _) hshadow h

theorem plan_worktrees (hshadow : ¬ Shadowed root gitDir query (commonDir ++ ["worktrees"])) :
    ObservedBelow (planTargets root gitDir commonDir query refsExist worktreesExist) (commonDir ++ ["worktrees"]) ↔
      covers (planTargets root gitDir commonDir query refsExist worktreesExist)
        (commonDir ++ ["worktrees"]) = true := by
  constructor
  · intro h
    exact covers_iff.2 (.inr h)
  · exact observedBelow_of_covers (fun t ht => base_planned ht) (fun t ht => planTargets_recursive ht)
      (append_ne_self _ _) hshadow

variable (root gitDir commonDir) in
theorem refs_covered (h : (query.watchRefs && refsExist) = true) :
    covers (refsTargets root gitDir commonDir query refsExist) (commonDir ++ ["refs"]) = true := by
  unfold refsTargets
  simp only
  rw [if_pos h]
  exact covers_add _ _ _

variable (root gitDir commonDir refsExist) in
theorem worktrees_covered (h : (query.linkedWorktrees && worktreesExist) = true) :
    covers (planTargets root gitDir commonDir query refsExist worktreesExist) (commonDir ++ ["worktrees"]) = true := by
  unfold planTargets
  simp only
  rw [if_pos h]
  exact covers_add _ _ _

end

end Soopy
