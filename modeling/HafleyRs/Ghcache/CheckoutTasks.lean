import Mathlib

/-!
# Checkout tasks (`crates/ghcache/src/sync/mod.rs`)

| here | there |
| --- | --- |
| `RepoConfig`, `OrgConfig`, `fsOwner` | `config.rs` 65, 90, 116, 123, the fields the tasks read |
| `CheckoutTask` | `checkout.rs` 64 |
| `RepoTable` | the table `repo` (`schema.sql` 1), `readable` when its selects succeed |
| `getRepoDefaultBranch` | `db.rs` 115 |
| `buildCheckoutTasks` | `build_checkout_tasks` (311), `repoTask` and `orgTasks` its two loops |

A task is made for every entry that wants one, so a repository that two entries name has two tasks, and one
that only an organisation names has a task when the table has it (`length_tasks`).
-/

namespace Ghcache

abbrev Slug := String × String

structure RepoConfig where
  owner                      : String
  name                       : String
  defaultBranch              : Option String
  checkoutOnSync             : Option Bool
  checkoutPrBranches         : Option Bool
  checkoutForceDefaultBranch : Option Bool
  checkoutOnlyOnActivity     : Option Bool
  fsAlias                    : Option String
deriving DecidableEq, Repr

structure OrgConfig where
  owner                      : String
  checkoutOnSync             : Option Bool
  checkoutPrBranches         : Option Bool
  checkoutForceDefaultBranch : Option Bool
  checkoutOnlyOnActivity     : Option Bool
  /-- Names to leave out of the discovery. -/
  exclude                    : List String
  fsAlias                    : Option String
deriving DecidableEq, Repr

structure ResolvedConfig where
  repos : List RepoConfig
  orgs  : List OrgConfig
deriving DecidableEq, Repr

def RepoConfig.slug (r : RepoConfig) : Slug := (r.owner, r.name)

def RepoConfig.fsOwner (r : RepoConfig) : String := r.fsAlias.getD r.owner

def OrgConfig.fsOwner (org : OrgConfig) : String := org.fsAlias.getD org.owner

structure CheckoutTask where
  owner              : String
  name               : String
  fsOwner            : String
  isDirty            : Bool
  onlyOnActivity     : Bool
  defaultBranch      : String
  fetchPrBranches    : Bool
  forceDefaultBranch : Bool
deriving DecidableEq, Repr

def CheckoutTask.slug (t : CheckoutTask) : Slug := (t.owner, t.name)

structure RepoRow where
  owner         : String
  name          : String
  defaultBranch : String
deriving DecidableEq, Repr

def RepoRow.slug (row : RepoRow) : Slug := (row.owner, row.name)

structure RepoTable where
  rows     : List RepoRow
  unique   : (rows.map RepoRow.slug).Nodup
  readable : Bool

namespace RepoTable
variable (t : RepoTable)

def getRepoDefaultBranch (owner name : String) : Option String :=
  if t.readable then (t.rows.find? fun row => row.slug = (owner, name)).map RepoRow.defaultBranch else none

/-- `SELECT name, default_branch FROM repo WHERE owner = ?`, empty when it fails. -/
def ofOwner (owner : String) : List (String × String) :=
  if t.readable then (t.rows.filter fun row => row.owner = owner).map fun row => (row.name, row.defaultBranch) else []

def has (repo : Slug) : Bool := t.readable && t.rows.any fun row => row.slug = repo

end RepoTable

def RepoConfig.wantsTask (r : RepoConfig) : Bool := r.checkoutOnSync.getD false || r.checkoutPrBranches.getD false

def OrgConfig.wantsTask (org : OrgConfig) : Bool :=
  org.checkoutOnSync.getD false || org.checkoutPrBranches.getD false

section
variable (table : RepoTable) (dirtyRepos : Finset Slug)

def repoTask (r : RepoConfig) : CheckoutTask where
  owner := r.owner
  name := r.name
  fsOwner := r.fsOwner
  isDirty := (r.owner, r.name) ∈ dirtyRepos
  onlyOnActivity := r.checkoutOnlyOnActivity.getD false
  defaultBranch := (table.getRepoDefaultBranch r.owner r.name).getD (r.defaultBranch.getD "main")
  fetchPrBranches := r.checkoutPrBranches.getD false
  forceDefaultBranch := r.checkoutForceDefaultBranch.getD false

def orgTask (org : OrgConfig) (row : String × String) : CheckoutTask where
  owner := org.owner
  name := row.1
  fsOwner := org.fsOwner
  isDirty := (org.owner, row.1) ∈ dirtyRepos
  onlyOnActivity := org.checkoutOnlyOnActivity.getD false
  defaultBranch := row.2
  fetchPrBranches := org.checkoutPrBranches.getD false
  forceDefaultBranch := org.checkoutForceDefaultBranch.getD false

def orgTasks (org : OrgConfig) : List CheckoutTask :=
  if org.wantsTask then (table.ofOwner org.owner).map (orgTask dirtyRepos org) else []

def buildCheckoutTasks (cfg : ResolvedConfig) (extraRepos : List RepoConfig) : List CheckoutTask :=
  ((cfg.repos ++ extraRepos).filter RepoConfig.wantsTask).map (repoTask table dirtyRepos) ++
    cfg.orgs.flatMap (orgTasks table dirtyRepos)

end

/-! ## How many tasks a repository has -/

section
variable {table : RepoTable} {dirtyRepos : Finset Slug} {cfg : ResolvedConfig} {extraRepos : List RepoConfig}

theorem slugs_orgTasks (org : OrgConfig) : (orgTasks table dirtyRepos org).map CheckoutTask.slug =
    if org.wantsTask && table.readable then (table.rows.map RepoRow.slug).filter fun repo => repo.1 = org.owner
    else [] := by
  unfold orgTasks RepoTable.ofOwner
  by_cases hwants : org.wantsTask
  · by_cases hreadable : table.readable
    · simp only [hwants, hreadable, if_true, Bool.and_self, List.map_map, List.filter_map]
      refine List.map_congr_left fun row hrow => ?_
      have howner : row.owner = org.owner := of_decide_eq_true (List.mem_filter.1 hrow).2
      simp only [Function.comp, CheckoutTask.slug, orgTask, RepoRow.slug, howner]
    · simp [hwants, hreadable]
  · simp [hwants]

theorem count_orgTasks (org : OrgConfig) (repo : Slug) :
    ((orgTasks table dirtyRepos org).map CheckoutTask.slug).count repo =
      if org.wantsTask ∧ org.owner = repo.1 ∧ table.has repo then 1 else 0 := by
  have hhas : table.has repo = true ↔ table.readable = true ∧ repo ∈ table.rows.map RepoRow.slug := by
    simp [RepoTable.has, List.mem_map]
  simp only [slugs_orgTasks, hhas]
  by_cases hon : org.wantsTask = true ∧ table.readable = true
  · rw [if_pos (by simpa using hon)]
    by_cases howner : org.owner = repo.1
    · rw [List.count_filter (by simpa using howner.symm), table.unique.count]
      simp [hon.1, hon.2, howner]
    · rw [if_neg fun h => howner h.2.1, List.count_eq_zero]
      intro hmem
      exact howner (of_decide_eq_true (List.mem_filter.1 hmem).2).symm
  · rw [if_neg (by simpa using hon), if_neg fun h => hon ⟨h.1, h.2.2.1⟩, List.count_nil]

/-- How often a repository is asked for: by entries of its own, and by organisations when the table has it. -/
def requests (table : RepoTable) (cfg : ResolvedConfig) (extraRepos : List RepoConfig) (repo : Slug) : Nat :=
  ((cfg.repos ++ extraRepos).filter fun r => r.wantsTask && r.slug = repo).length +
    if table.has repo then (cfg.orgs.filter fun org => org.wantsTask && org.owner = repo.1).length else 0

def tasksOf (repo : Slug) (tasks : List CheckoutTask) : List CheckoutTask := tasks.filter fun t => t.slug = repo

theorem length_tasks (repo : Slug) :
    (tasksOf repo (buildCheckoutTasks table dirtyRepos cfg extraRepos)).length =
      requests table cfg extraRepos repo := by
  have hcount : ∀ tasks : List CheckoutTask, (tasksOf repo tasks).length =
    (tasks.map CheckoutTask.slug).count repo := by
    intro tasks
    rw [tasksOf, List.count, List.countP_map, List.countP_eq_length_filter]
    exact congrArg List.length (List.filter_congr fun t _ => (beq_eq_decide t.slug repo).symm)
  have horgs : ((cfg.orgs.flatMap (orgTasks table dirtyRepos)).map CheckoutTask.slug).count repo =
      if table.has repo then (cfg.orgs.filter fun org => org.wantsTask && org.owner = repo.1).length else 0 := by
    induction cfg.orgs with
    | nil => simp
    | cons org orgs ih =>
      rw [List.flatMap_cons, List.map_append, List.count_append, ih, count_orgTasks, List.filter_cons]
      by_cases hhas : table.has repo = true
      · by_cases hhere : org.wantsTask = true ∧ org.owner = repo.1
        · simp [hhas, hhere.1, hhere.2, Nat.add_comm]
        · rw [if_neg fun h => hhere ⟨h.1, h.2.1⟩, if_pos hhas, if_pos hhas, if_neg (by simpa using hhere), Nat.zero_add]
      · simp [hhas]
  have hrepos : ((((cfg.repos ++ extraRepos).filter RepoConfig.wantsTask).map (repoTask table dirtyRepos)).map
      CheckoutTask.slug).count repo =
        ((cfg.repos ++ extraRepos).filter fun r => r.wantsTask && r.slug = repo).length := by
    rw [List.map_map, List.count, List.countP_map, List.countP_filter, List.countP_eq_length_filter]
    refine congrArg List.length (List.filter_congr fun r _ => ?_)
    have hslug : (repoTask table dirtyRepos r).slug = r.slug := rfl
    rw [Function.comp, Function.comp, hslug, beq_eq_decide, Bool.and_comm]
  rw [hcount, buildCheckoutTasks, List.map_append, List.count_append, hrepos, horgs, requests]

theorem isDirty_of_mem {t : CheckoutTask} (ht : t ∈ buildCheckoutTasks table dirtyRepos cfg extraRepos) :
    t.isDirty = decide (t.slug ∈ dirtyRepos) := by
  rcases List.mem_append.1 ht with hrepo | horg
  · obtain ⟨r, -, rfl⟩ := List.mem_map.1 hrepo
    rfl
  · obtain ⟨org, -, horg⟩ := List.mem_flatMap.1 horg
    unfold orgTasks at horg
    split at horg
    · obtain ⟨row, -, rfl⟩ := List.mem_map.1 horg
      rfl
    · exact absurd horg List.not_mem_nil

end

/-! ## One task per repository -/

/-- A repository that an entry of its own, or its organisation, configures for checkout. -/
def Configured (cfg : ResolvedConfig) (extraRepos : List RepoConfig) (repo : Slug) : Prop :=
  (∃ r ∈ cfg.repos ++ extraRepos, r.wantsTask = true ∧ r.slug = repo) ∨
  ∃ org ∈ cfg.orgs, org.wantsTask = true ∧ org.owner = repo.1 ∧ repo.2 ∉ org.exclude

/-- The only task of the repository, and it says that there was activity. -/
def OneTask (repo : Slug) (tasks : List CheckoutTask) : Prop := ∃ t, tasksOf repo tasks = [t] ∧ t.isDirty = true

/-- **One task per repository**: so it is exactly for the repositories that are asked for once. -/
theorem one_task_per_repo (table : RepoTable) (cfg : ResolvedConfig) (extraRepos : List RepoConfig)
    (events : List Slug) :
    (∀ repo ∈ events, Configured cfg extraRepos repo →
      OneTask repo (buildCheckoutTasks table events.toFinset cfg extraRepos)) ↔
    ∀ repo ∈ events, Configured cfg extraRepos repo → requests table cfg extraRepos repo = 1 := by
  refine forall₃_congr fun repo hevent _ => ?_
  rw [← @length_tasks table events.toFinset, List.length_eq_one_iff]
  constructor
  · rintro ⟨t, ht, -⟩
    exact ⟨t, ht⟩
  · rintro ⟨t, ht⟩
    obtain ⟨hmem, hslug⟩ := List.mem_filter.1 (ht ▸ List.mem_singleton_self t : t ∈ tasksOf repo _)
    refine ⟨t, ht, ?_⟩
    rw [isDirty_of_mem hmem, of_decide_eq_true hslug]
    exact decide_eq_true (List.mem_toFinset.2 hevent)

/-- A repository under an entry of its own and under its organisation. -/
def twiceConfig : ResolvedConfig where
  repos := [⟨"o", "n", none, some true, none, none, none, none⟩]
  orgs := [⟨"o", some true, none, none, none, [], none⟩]

def twiceTable : RepoTable where
  rows := [⟨"o", "n", "main"⟩]
  unique := List.nodup_singleton _
  readable := true

theorem two_tasks : ¬ ∀ (table : RepoTable) (cfg : ResolvedConfig) (extraRepos : List RepoConfig) (events : List Slug),
    ∀ repo ∈ events, Configured cfg extraRepos repo →
      OneTask repo (buildCheckoutTasks table events.toFinset cfg extraRepos) := by
  intro h
  obtain ⟨t, ht, -⟩ := h twiceTable twiceConfig [] [("o", "n")] ("o", "n") (List.mem_singleton_self _)
    (Or.inl ⟨_, List.mem_singleton_self _, rfl, rfl⟩)
  have hlen : (tasksOf ("o", "n") (buildCheckoutTasks twiceTable [("o", "n")].toFinset twiceConfig [])).length = 1 :=
    congrArg List.length ht
  exact absurd hlen (by decide)

end Ghcache
