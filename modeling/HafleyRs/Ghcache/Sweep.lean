import HafleyRs.Ghcache.PullRequests

/-!
# When a sweep tells the truth (`crates/ghcache/src/sync/prs.rs`:60)

`Known` is what a table says under the numbers of one repository. A sweep lays the answer over it (`after`) and has
noted a change when a stamp is not the stored one or a stored number, of whatever state, is not in the answer
(`Noted`). Nothing is taken out and no state is rewritten, so what left the answer stays as it was and is noted again
by every sweep (`honest_iff`).
-/

namespace Ghcache

/-! ## A keyed store and an answer laid over it -/

section
variable {K V S : Type}

abbrev Known (K V : Type) := K → Option V

namespace Known
variable (stamp : V → S) (isOpen : V → Prop) (answer k : Known K V)

def after : Known K V := fun n => (answer n).or (k n)

def Noted : Prop :=
  (∃ n new, answer n = some new ∧ (k n).map stamp ≠ some (stamp new)) ∨ ∃ n old, k n = some old ∧ answer n = none

/-- The values that are open. -/
def opened : Set (K × V) := {x | k x.1 = some x.2 ∧ isOpen x.2}

/-- Their stamps. -/
def openStamps : Set (K × S) := (fun x : K × V => (x.1, stamp x.2)) '' opened isOpen k

/-- Everything stored is in the answer, and a change shows in some stamp or everything stored is open. -/
def Covered : Prop :=
  (∀ n old, k n = some old → answer n ≠ none) ∧
    ((∃ n new, answer n = some new ∧ (k n).map stamp ≠ some (stamp new)) ∨ ∀ n old, k n = some old → isOpen old)

variable {stamp isOpen answer k}

theorem mem_openStamps {n : K} {t : S} :
    (n, t) ∈ openStamps stamp isOpen k ↔ ∃ v, k n = some v ∧ isOpen v ∧ stamp v = t := by
  constructor
  · rintro ⟨⟨n', v⟩, ⟨hv, ho⟩, heq⟩
    obtain ⟨rfl, rfl⟩ := Prod.mk.inj heq
    exact ⟨v, hv, ho, rfl⟩
  · rintro ⟨v, hv, ho, rfl⟩
    exact ⟨(n, v), ⟨hv, ho⟩, rfl⟩

theorem after_of_answer {n : K} {new : V} (h : answer n = some new) : after answer k n = some new := by
  rw [after, h, Option.some_or]

theorem after_of_none {n : K} (h : answer n = none) : after answer k n = k n := by
  rw [after, h, Option.none_or]

@[simp] theorem after_after : after answer (after answer k) = after answer k := by
  funext n
  cases h : answer n with
  | none => rw [after_of_none h]
  | some new => rw [after_of_answer h, after_of_answer h]

/-- The second sweep notes what the answer lacks, and nothing else. -/
theorem noted_after : Noted stamp answer (after answer k) ↔ ∃ n old, k n = some old ∧ answer n = none := by
  constructor
  · rintro (⟨n, new, hnew, hne⟩ | ⟨n, old, hold, hnone⟩)
    · rw [after_of_answer hnew] at hne
      exact absurd rfl hne
    · rw [after_of_none hnone] at hold
      exact ⟨n, old, hold, hnone⟩
  · rintro ⟨n, old, hold, hnone⟩
    refine .inr ⟨n, old, ?_, hnone⟩
    rw [after_of_none hnone, hold]

theorem noted_of_noted_after (h : Noted stamp answer (after answer k)) : Noted stamp answer k := .inr (noted_after.1 h)

theorem opened_after (hcover : ∀ n old, k n = some old → answer n ≠ none) :
    opened isOpen (after answer k) = opened isOpen answer := by
  ext ⟨n, v⟩
  change after answer k n = some v ∧ isOpen v ↔ answer n = some v ∧ isOpen v
  cases h : answer n with
  | some new => rw [after_of_answer h]
  | none =>
    rw [after_of_none h]
    constructor
    · exact fun hv => absurd h (hcover n v hv.1)
    · exact fun hv => by cases hv.1

/-- **When a sweep is honest**: it notes a change iff the open stamps are not the answer's, leaves the answer's
values as the open ones, and notes nothing the second time. -/
theorem honest_iff (hopen : ∀ n new, answer n = some new → isOpen new) :
    ((Noted stamp answer k ↔ openStamps stamp isOpen k ≠ openStamps stamp isOpen answer) ∧
      opened isOpen (after answer k) = opened isOpen answer ∧ ¬Noted stamp answer (after answer k)) ↔
    Covered stamp isOpen answer k := by
  constructor
  · rintro ⟨hnoted, -, hsecond⟩
    have hcover : ∀ n old, k n = some old → answer n ≠ none := fun n old hold hnone =>
      hsecond (noted_after.2 ⟨n, old, hold, hnone⟩)
    refine ⟨hcover, ?_⟩
    by_cases hstamp : ∃ n new, answer n = some new ∧ (k n).map stamp ≠ some (stamp new)
    · exact .inl hstamp
    · refine .inr fun n old hold => ?_
      have hsame : openStamps stamp isOpen k = openStamps stamp isOpen answer := by
        by_contra hne
        rcases hnoted.2 hne with hdiffers | ⟨m, v, hv, hnone⟩
        · exact hstamp hdiffers
        · exact hcover m v hv hnone
      obtain ⟨new, hnew⟩ := Option.ne_none_iff_exists'.1 (hcover n old hold)
      have hmem : (n, stamp new) ∈ openStamps stamp isOpen k := by
        rw [hsame]
        exact mem_openStamps.2 ⟨new, hnew, hopen n new hnew, rfl⟩
      obtain ⟨v, hv, ho, -⟩ := mem_openStamps.1 hmem
      rw [hold] at hv
      exact Option.some.inj hv ▸ ho
  · rintro ⟨hcover, hrest⟩
    refine ⟨⟨?_, ?_⟩, opened_after hcover, fun hsecond => ?_⟩
    · rintro (⟨n, new, hnew, hne⟩ | ⟨n, old, hold, hnone⟩) heq
      · have hmem : (n, stamp new) ∈ openStamps stamp isOpen k := by
          rw [heq]
          exact mem_openStamps.2 ⟨new, hnew, hopen n new hnew, rfl⟩
        obtain ⟨v, hv, -, hstamp⟩ := mem_openStamps.1 hmem
        rw [hv, Option.map_some, hstamp] at hne
        exact hne rfl
      · exact hcover n old hold hnone
    · intro hne
      by_contra hnoted
      have hstamp : ∀ n new, answer n = some new → (k n).map stamp = some (stamp new) := by
        intro n new hnew
        by_contra hdiffers
        exact hnoted (.inl ⟨n, new, hnew, hdiffers⟩)
      have hallOpen : ∀ n old, k n = some old → isOpen old := by
        rcases hrest with ⟨n, new, hnew, hdiffers⟩ | hall
        · exact absurd (hstamp n new hnew) hdiffers
        · exact hall
      refine hne (Set.ext fun ⟨n, t⟩ => ?_)
      rw [mem_openStamps, mem_openStamps]
      constructor
      · rintro ⟨old, hold, -, rfl⟩
        obtain ⟨new, hnew⟩ := Option.ne_none_iff_exists'.1 (hcover n old hold)
        have h := hstamp n new hnew
        rw [hold, Option.map_some, Option.some.injEq] at h
        exact ⟨new, hnew, hopen n new hnew, h.symm⟩
      · rintro ⟨new, hnew, -, rfl⟩
        obtain ⟨old, hold, hs⟩ := Option.map_eq_some_iff.1 (hstamp n new hnew)
        exact ⟨old, hold, hallOpen n old hold, hs⟩
    · obtain ⟨n, old, hold, hnone⟩ := noted_after.1 hsecond
      exact hcover n old hold hnone

end Known

end

/-! ## What the table knows -/

/-- The columns an answer writes. -/
def PullRequest.content (row : PullRequest) : PullRequest := { row with id := 0, createdAt := "" }

/-- The pull requests of a repository, by number. -/
def Db.shown (db : Db) (repoId : Int) : Known Int PullRequest := fun n =>
  (db.pullRequests.get (repoId, n)).map PullRequest.content

/-- The rows the answer makes. -/
def answered (ext : Ext) (repoId : Int) (nodes : List Json) : Known Int PullRequest := fun n =>
  (nodes.find? fun pr => number pr = some n).map fun pr => (pullRequest ext 0 repoId pr).content

/-- What the service answers to a query for open pull requests. -/
structure OpenNodes (nodes : List Json) : Prop where
  numbered : ∀ pr ∈ nodes, (number pr).isSome
  stamped  : ∀ pr ∈ nodes, (updatedAt pr).isSome
  isOpen   : ∀ pr ∈ nodes, (index pr "state").asStr = some "OPEN"
  once     : (nodes.filterMap number).Nodup

section
variable {ext : Ext}

theorem upsertReview_pullRequests (prId : Int) (db : Db) (rv : Json) :
    (upsertReview prId db rv).pullRequests = db.pullRequests := rfl

theorem upsertStatusCheck_pullRequests (prId : Int) (db : Db) (ctx : Json) :
    (upsertStatusCheck ext prId db ctx).pullRequests = db.pullRequests := by
  unfold upsertStatusCheck
  split <;> rfl

theorem foldl_pullRequests {f : Db → Json → Db} (hf : ∀ db v, (f db v).pullRequests = db.pullRequests)
    (vs : List Json) (db : Db) : (vs.foldl f db).pullRequests = db.pullRequests := by
  induction vs generalizing db with
  | nil => rfl
  | cons v vs ih => rw [List.foldl_cons, ih, hf]

theorem upsertPr_pullRequests (db : Db) (repoId : Int) (slug : String) (pr : Json) (isNew : Bool) :
    (upsertPr ext db repoId slug pr isNew).pullRequests =
      db.pullRequests.upsert PullRequest.merge (pullRequest ext (ext.newId db) repoId pr) := by
  unfold upsertPr
  dsimp only
  split
  · rw [replaceRequestedReviewers, replaceLabels]
    exact foldl_pullRequests (upsertReview_pullRequests _) _ _
  · rw [foldl_pullRequests (upsertStatusCheck_pullRequests _), replaceRequestedReviewers, replaceLabels]
    exact foldl_pullRequests (upsertReview_pullRequests _) _ _

theorem shown_upsertPr {db : Db} {repoId n : Int} {slug : String} {pr : Json} {isNew : Bool}
    (hn : number pr = some n) (r m : Int) : (upsertPr ext db repoId slug pr isNew).shown r m =
      if repoId = r ∧ n = m then some (pullRequest ext 0 repoId pr).content else db.shown r m := by
  have hkey : (pullRequest ext (ext.newId db) repoId pr).key = (repoId, n) := by
    rw [PullRequest.key, pullRequest, hn]
    rfl
  rw [Db.shown, upsertPr_pullRequests, Table.get_upsert, hkey]
  simp only [Prod.mk.injEq]
  by_cases h : repoId = r ∧ n = m
  · rw [if_pos h, if_pos h, Option.map_some]
    cases db.pullRequests.get (r, m) with
    | none => rfl
    | some old => rfl
  · rw [if_neg h, if_neg h, Db.shown]

theorem OpenNodes.tail {pr : Json} {nodes : List Json} (h : OpenNodes (pr :: nodes)) : OpenNodes nodes where
  numbered := fun pr hpr => h.numbered pr (List.mem_cons_of_mem _ hpr)
  stamped := fun pr hpr => h.stamped pr (List.mem_cons_of_mem _ hpr)
  isOpen := fun pr hpr => h.isOpen pr (List.mem_cons_of_mem _ hpr)
  once := by
    obtain ⟨n, hn⟩ := Option.isSome_iff_exists.1 (h.numbered pr List.mem_cons_self)
    have hnodup := h.once
    rw [List.filterMap_cons_some hn] at hnodup
    exact (List.nodup_cons.1 hnodup).2

theorem answered_cons (repoId : Int) (pr : Json) (nodes : List Json) (n : Int) : answered ext repoId (pr :: nodes) n =
    if number pr = some n then some (pullRequest ext 0 repoId pr).content else answered ext repoId nodes n := by
  rw [answered, List.find?_cons]
  by_cases h : number pr = some n
  · simp [h]
  · simp [h, answered]

theorem answered_eq_none {repoId n : Int} {nodes : List Json} :
    answered ext repoId nodes n = none ↔ n ∉ nodes.filterMap number := by
  rw [answered, Option.map_eq_none_iff, List.find?_eq_none, List.mem_filterMap]
  simp

/-- The rows of an answer are open. -/
theorem answered_isOpen {repoId n : Int} {nodes : List Json} {row : PullRequest} (h : OpenNodes nodes)
    (hrow : answered ext repoId nodes n = some row) : row.state = "open" := by
  obtain ⟨pr, hpr, rfl⟩ := Option.map_eq_some_iff.1 hrow
  have hstate := h.isOpen pr (List.mem_of_find?_eq_some hpr)
  rw [PullRequest.content, pullRequest, hstate]
  rfl

/-! ## One repository -/

theorem map_shown {α : Type} (f : PullRequest → α) (hf : ∀ row, f row.content = f row) (db : Db) (repoId n : Int) :
    (db.shown repoId n).map f = (db.pullRequests.get (repoId, n)).map f := by
  rw [Db.shown, Option.map_map]
  exact congrArg (Option.map · _) (funext hf)

variable (ext) in
theorem syncNode_spec {repo : Int × Slug} {existing : List Int} {s : Db × Bool} {pr : Json} {n : Int}
    (hn : number pr = some n) (hstamp : (updatedAt pr).isSome)
    (hexisting : existing.contains n = (s.1.shown repo.1 n).isSome) :
    (∀ r m, (syncNode ext repo existing s pr).1.shown r m =
      if repo.1 = r ∧ n = m then some (pullRequest ext 0 repo.1 pr).content else s.1.shown r m) ∧
    ((syncNode ext repo existing s pr).2 = true ↔ s.2 = true ∨
      (s.1.shown repo.1 n).map PullRequest.updatedAt ≠ some (pullRequest ext 0 repo.1 pr).content.updatedAt) := by
  obtain ⟨t, ht⟩ := Option.isSome_iff_exists.1 hstamp
  refine ⟨fun r m => shown_upsertPr hn r m, ?_⟩
  have hnew : (pullRequest ext 0 repo.1 pr).content.updatedAt = t := by
    rw [PullRequest.content, pullRequest, ht]
    rfl
  rw [syncNode, hn, hnew, map_shown _ fun _ => rfl]
  simp only [Option.getD_some, hexisting, ht, Bool.or_eq_true, Bool.not_eq_true', decide_eq_true_eq]
  have hnone : (s.1.shown repo.1 n).isSome = false →
      (s.1.pullRequests.get (repo.1, n)).map PullRequest.updatedAt ≠ some t := by
    intro h
    rw [Db.shown, Option.isSome_map, Option.isSome_eq_false_iff, Option.isNone_iff_eq_none] at h
    rw [h]
    exact fun h => by cases h
  constructor
  · rintro (h | h | h)
    · exact .inl h
    · exact .inr (hnone h)
    · exact .inr h
  · rintro (h | h)
    · exact .inl h
    · exact .inr (.inr h)

variable (ext) in
/-- The answer is laid over what is known of the repository, and the flag tells of stamps that differ. -/
theorem foldl_syncNode {repo : Int × Slug} {existing : List Int} :
    ∀ {nodes : List Json} {s : Db × Bool}, OpenNodes nodes →
      (∀ n ∈ nodes.filterMap number, existing.contains n = (s.1.shown repo.1 n).isSome) →
      (∀ r, (nodes.foldl (syncNode ext repo existing) s).1.shown r =
        if repo.1 = r then Known.after (answered ext repo.1 nodes) (s.1.shown r) else s.1.shown r) ∧
      ((nodes.foldl (syncNode ext repo existing) s).2 = true ↔ s.2 = true ∨ ∃ n new,
        answered ext repo.1 nodes n = some new ∧ (s.1.shown repo.1 n).map PullRequest.updatedAt ≠ some new.updatedAt)
  | [], s, _, _ => by
    refine ⟨fun r => ?_, ?_⟩
    · split <;> rfl
    · simp [answered]
  | pr :: nodes, s, h, hexisting => by
    obtain ⟨n, hn⟩ := Option.isSome_iff_exists.1 (h.numbered pr List.mem_cons_self)
    have honce := h.once
    rw [List.filterMap_cons_some hn] at honce hexisting
    obtain ⟨hnotin, -⟩ := List.nodup_cons.1 honce
    obtain ⟨hshown, hflag⟩ := syncNode_spec ext hn (h.stamped pr List.mem_cons_self)
      (hexisting n List.mem_cons_self)
    have hother : ∀ m, m ≠ n → (syncNode ext repo existing s pr).1.shown repo.1 m = s.1.shown repo.1 m := fun m hm => by
      rw [hshown, if_neg fun h => hm h.2.symm]
    have hkeep : ∀ m ∈ nodes.filterMap number,
        existing.contains m = ((syncNode ext repo existing s pr).1.shown repo.1 m).isSome := fun m hm => by
      rw [hother m (fun heq => hnotin (heq ▸ hm)), hexisting m (List.mem_cons_of_mem _ hm)]
    obtain ⟨hafter, hchanged⟩ := foldl_syncNode h.tail hkeep
    rw [List.foldl_cons]
    have hnone : answered ext repo.1 nodes n = none := answered_eq_none.2 hnotin
    refine ⟨fun r => ?_, ?_⟩
    · rw [hafter]
      by_cases hr : repo.1 = r
      · rw [if_pos hr, if_pos hr]
        funext m
        subst hr
        rw [Known.after, Known.after, hshown, answered_cons, hn]
        by_cases hm : n = m
        · subst hm
          simp [hnone]
        · simp [hm]
      · rw [if_neg hr, if_neg hr]
        funext m
        rw [hshown, if_neg fun h => hr h.1]
    · rw [hchanged, hflag]
      constructor
      · rintro ((hs | hne) | ⟨m, new, hnew, hne⟩)
        · exact .inl hs
        · exact .inr ⟨n, _, by rw [answered_cons, if_pos hn], hne⟩
        · have hm : m ≠ n := by
            rintro rfl
            rw [hnone] at hnew
            cases hnew
          rw [hother m hm] at hne
          exact .inr ⟨m, new, by rw [answered_cons, if_neg fun h => hm (Option.some.inj (hn.symm.trans h)).symm, hnew],
            hne⟩
      · rintro (hs | ⟨m, new, hnew, hne⟩)
        · exact .inl (.inl hs)
        · rw [answered_cons] at hnew
          by_cases hm : n = m
          · subst hm
            rw [if_pos hn] at hnew
            cases hnew
            exact .inl (.inr hne)
          · rw [if_neg fun h => hm (Option.some.inj (hn.symm.trans h))] at hnew
            refine .inr ⟨m, new, hnew, ?_⟩
            rwa [hother m (Ne.symm hm)]

theorem mem_existing {db : Db} {repoId n : Int} :
    n ∈ (db.pullRequests.rows.filter fun row => row.repoId = repoId).map (·.number) ↔
      (db.shown repoId n).isSome = true := by
  rw [Db.shown, Option.isSome_map, Table.get_isSome, Table.keys, List.mem_map, List.mem_map]
  constructor
  · rintro ⟨row, hrow, rfl⟩
    obtain ⟨hmem, hrepo⟩ := List.mem_filter.1 hrow
    have hrepo' : row.repoId = repoId := by simpa using hrepo
    exact ⟨row, hmem, Prod.ext hrepo' rfl⟩
  · rintro ⟨row, hrow, hkey⟩
    obtain ⟨hrepo, hnumber⟩ := Prod.mk.inj hkey
    exact ⟨row, List.mem_filter.2 ⟨hrow, by simpa using hrepo⟩, hnumber⟩

variable (ext) in
theorem syncRepo_spec (db : Db) (repo : Int × Slug) {nodes : List Json} (h : OpenNodes nodes) :
    (∀ r, (syncRepo ext db repo nodes).1.shown r =
      if repo.1 = r then Known.after (answered ext repo.1 nodes) (db.shown r) else db.shown r) ∧
    ((syncRepo ext db repo nodes).2 = true ↔
      Known.Noted PullRequest.updatedAt (answered ext repo.1 nodes) (db.shown repo.1)) := by
  have hexisting : ∀ n ∈ nodes.filterMap number,
      ((db.pullRequests.rows.filter fun row => row.repoId = repo.1).map (·.number)).contains n =
        ((db, false).1.shown repo.1 n).isSome := fun n _ => by
    rw [Bool.eq_iff_iff, List.contains_iff_mem, mem_existing]
  obtain ⟨hshown, hflag⟩ := foldl_syncNode ext h hexisting
  refine ⟨hshown, ?_⟩
  have hgone : ((db.pullRequests.rows.filter fun row => row.repoId = repo.1).map (·.number)).any
      (fun n => !(nodes.filterMap number).contains n) = true ↔
        ∃ n old, db.shown repo.1 n = some old ∧ answered ext repo.1 nodes n = none := by
    rw [List.any_eq_true]
    constructor
    · rintro ⟨n, hn, hnot⟩
      obtain ⟨old, hold⟩ := Option.isSome_iff_exists.1 (mem_existing.1 hn)
      refine ⟨n, old, hold, answered_eq_none.2 ?_⟩
      simpa using hnot
    · rintro ⟨n, old, hold, hnone⟩
      refine ⟨n, mem_existing.2 (by rw [hold]; rfl), ?_⟩
      simpa using answered_eq_none.1 hnone
  change (_ || _) = true ↔ _
  rw [Bool.or_eq_true, hgone, hflag, Known.Noted]
  simp

end

/-! ## A batch -/

/-- The service answers every query of a batch, and of one repository alike. -/
structure Answers (gh : GitHubClient) (repos : List (Int × Slug)) (answer : Slug → List Json) : Prop where
  throttle : ∃ left, gh.throttleIfNeeded "graphql" = .ok left
  data     : ∀ chunk ∈ repos.toChunks batchSize, ∃ data, gh.graphql (endpoint chunk) (query chunk) = .ok data ∧
    ∀ (i : Nat) (repo : Int × Slug), chunk[i]? = some repo →
      nodesOf (index data s!"repo_{i}") "pullRequests" = some (answer repo.2)
  isOpen   : ∀ repo ∈ repos, OpenNodes (answer repo.2)

/-- The answers for `done` are laid over `db₀`. -/
structure Swept (ext : Ext) (answer : Slug → List Json) (db₀ : Db) (done : List (Int × Slug))
    (s : Db × Finset Slug) : Prop where
  laid  : ∀ repo ∈ done, s.1.shown repo.1 = Known.after (answered ext repo.1 (answer repo.2)) (db₀.shown repo.1)
  kept  : ∀ r, (∀ repo ∈ done, repo.1 ≠ r) → s.1.shown r = db₀.shown r
  noted : ∀ slug, slug ∈ s.2 ↔ ∃ repo ∈ done, repo.2 = slug ∧
    Known.Noted PullRequest.updatedAt (answered ext repo.1 (answer repo.2)) (db₀.shown repo.1)

section
variable {ext : Ext} {answer : Slug → List Json} {db₀ : Db} {done : List (Int × Slug)} {s : Db × Finset Slug}

theorem swept_nil (db : Db) : Swept ext answer db [] (db, ∅) where
  laid _ h := by cases h
  kept _ _ := rfl
  noted slug := by simp

theorem Swept.step (h : Swept ext answer db₀ done s) {repo : Int × Slug}
    (hids : ∀ a ∈ done ++ [repo], ∀ b ∈ done ++ [repo], a.1 = b.1 ↔ a.2 = b.2) (hopen : OpenNodes (answer repo.2)) :
    Swept ext answer db₀ (done ++ [repo]) ((syncRepo ext s.1 repo (answer repo.2)).1,
      if (syncRepo ext s.1 repo (answer repo.2)).2 then insert repo.2 s.2 else s.2) := by
  obtain ⟨hshown, hflag⟩ := syncRepo_spec ext s.1 repo hopen
  have hlast : repo ∈ done ++ [repo] := List.mem_append_right _ List.mem_cons_self
  have hsame : ∀ a ∈ done, a.1 = repo.1 → a = repo := fun a ha heq =>
    Prod.ext heq ((hids a (List.mem_append_left _ ha) repo hlast).1 heq)
  have hrepo : Known.after (answered ext repo.1 (answer repo.2)) (s.1.shown repo.1) =
      Known.after (answered ext repo.1 (answer repo.2)) (db₀.shown repo.1) := by
    by_cases hin : repo ∈ done
    · rw [h.laid repo hin, Known.after_after]
    · rw [h.kept repo.1 fun a ha heq => hin (hsame a ha heq ▸ ha)]
  refine ⟨fun a ha => ?_, fun r hr => ?_, fun slug => ?_⟩
  · rw [hshown]
    rcases List.mem_append.1 ha with ha' | ha'
    · by_cases heq : repo.1 = a.1
      · obtain rfl := hsame a ha' heq.symm
        rw [if_pos rfl, hrepo]
      · rw [if_neg heq, h.laid a ha']
    · obtain rfl := List.mem_singleton.1 ha'
      rw [if_pos rfl, hrepo]
  · rw [hshown, if_neg (hr repo hlast), h.kept r fun a ha => hr a (List.mem_append_left _ ha)]
  · have hnoted : (syncRepo ext s.1 repo (answer repo.2)).2 = true →
        Known.Noted PullRequest.updatedAt (answered ext repo.1 (answer repo.2)) (db₀.shown repo.1) := fun hon => by
      have hon := hflag.1 hon
      by_cases hin : repo ∈ done
      · rw [h.laid repo hin] at hon
        exact Known.noted_of_noted_after hon
      · rwa [h.kept repo.1 fun a ha heq => hin (hsame a ha heq ▸ ha)] at hon
    have hmem : slug ∈ (if (syncRepo ext s.1 repo (answer repo.2)).2 then insert repo.2 s.2 else s.2) ↔
        (syncRepo ext s.1 repo (answer repo.2)).2 = true ∧ slug = repo.2 ∨ slug ∈ s.2 := by
      split
      · rename_i hon
        simp [hon]
      · rename_i hoff
        simp [hoff]
    rw [hmem]
    constructor
    · rintro (⟨hon, rfl⟩ | hold)
      · exact ⟨repo, hlast, rfl, hnoted hon⟩
      · obtain ⟨a, ha, hslug, hn⟩ := (h.noted slug).1 hold
        exact ⟨a, List.mem_append_left _ ha, hslug, hn⟩
    · rintro ⟨a, ha, rfl, hn⟩
      by_cases hin : a ∈ done
      · exact .inr ((h.noted _).2 ⟨a, hin, rfl, hn⟩)
      · obtain rfl : a = repo := List.mem_singleton.1 ((List.mem_append.1 ha).resolve_left hin)
        refine .inl ⟨hflag.2 ?_, rfl⟩
        rwa [h.kept a.1 fun b hb heq => hin (hsame b hb heq ▸ hb)]

theorem syncChunk_swept {repos chunk : List (Int × Slug)} {data : Json}
    (hids : ∀ a ∈ repos, ∀ b ∈ repos, a.1 = b.1 ↔ a.2 = b.2) (hopen : ∀ repo ∈ repos, OpenNodes (answer repo.2))
    (hin : done ++ chunk ⊆ repos)
    (hdata : ∀ (i : Nat) (repo : Int × Slug), chunk[i]? = some repo →
      nodesOf (index data s!"repo_{i}") "pullRequests" = some (answer repo.2))
    (h : Swept ext answer db₀ done s) : Swept ext answer db₀ (done ++ chunk) (syncChunk ext data s chunk) := by
  induction chunk using List.reverseRecOn with
  | nil => simpa [syncChunk] using h
  | append_singleton chunk repo ih =>
    have hsub : done ++ chunk ⊆ repos := fun a ha => hin (by
      rw [← List.append_assoc]
      exact List.mem_append_left _ ha)
    have hbefore := ih hsub fun i a ha => hdata i a (by
      obtain ⟨hi, -⟩ := List.getElem?_eq_some_iff.1 ha
      rwa [List.getElem?_append_left hi])
    have hnodes := hdata chunk.length repo (by simp)
    have hrun : syncChunk ext data s (chunk ++ [repo]) =
        ((syncRepo ext (syncChunk ext data s chunk).1 repo (answer repo.2)).1,
          if (syncRepo ext (syncChunk ext data s chunk).1 repo (answer repo.2)).2 then
            insert repo.2 (syncChunk ext data s chunk).2 else (syncChunk ext data s chunk).2) := by
      rw [syncChunk, List.zipIdx_append, List.foldl_append]
      simp only [List.zipIdx_singleton, List.foldl_cons, List.foldl_nil, Nat.zero_add]
      rw [hnodes]
      rfl
    rw [hrun, ← List.append_assoc]
    refine hbefore.step (fun a ha b hb => hids a ?_ b ?_) (hopen repo (hin (by simp)))
    · exact hin (by rwa [← List.append_assoc])
    · exact hin (by rwa [← List.append_assoc])

variable (ext) in
theorem syncChunks_swept {gh : GitHubClient} {repos : List (Int × Slug)} (h : Answers gh repos answer)
    (hids : ∀ a ∈ repos, ∀ b ∈ repos, a.1 = b.1 ↔ a.2 = b.2) :
    ∀ (chunks : List (List (Int × Slug))) {done : List (Int × Slug)} {s : Db × Finset Slug},
      (∀ chunk ∈ chunks, chunk ∈ repos.toChunks batchSize) → done ++ chunks.flatten ⊆ repos →
      Swept ext answer db₀ done s → ∃ s', syncChunks ext gh s chunks = (s'.1, .ok s'.2) ∧
        Swept ext answer db₀ (done ++ chunks.flatten) s'
  | [], done, s, _, _, hs => ⟨s, rfl, by simpa using hs⟩
  | chunk :: chunks, done, s, hchunks, hin, hs => by
    obtain ⟨left, hleft⟩ := h.throttle
    obtain ⟨data, hquery, hdata⟩ := h.data chunk (hchunks chunk List.mem_cons_self)
    rw [List.flatten_cons, ← List.append_assoc] at hin ⊢
    have hchunk : done ++ chunk ⊆ repos := fun a ha => hin (List.mem_append_left _ ha)
    have hstep := syncChunk_swept hids h.isOpen hchunk hdata hs
    rw [syncChunks, hleft, hquery]
    exact syncChunks_swept h hids chunks (fun c hc => hchunks c (List.mem_cons_of_mem _ hc)) hin hstep

theorem flatten_toChunks_go {α : Type} (n : Nat) (xs : List α) : ∀ (acc : Array α) (out : Array (List α)),
    (List.toChunks.go n xs acc out).flatten = out.toList.flatten ++ acc.toList ++ xs := by
  induction xs with
  | nil => intro acc out; simp [List.toChunks.go]
  | cons x xs ih =>
    intro acc out
    rw [List.toChunks.go]
    split
    · rw [ih]
      simp
    · rw [ih]
      simp

theorem flatten_toChunks {α : Type} (n : Nat) (xs : List α) : (xs.toChunks n).flatten = xs := by
  cases xs with
  | nil => simp [List.toChunks]
  | cons x xs =>
    cases n with
    | zero => simp [List.toChunks]
    | succ n => simp [List.toChunks, flatten_toChunks_go]

variable (ext) in
/-- A batch that is answered lays every answer over the table. -/
theorem syncBatch_swept {gh : GitHubClient} {repos : List (Int × Slug)} (h : Answers gh repos answer)
    (hids : ∀ a ∈ repos, ∀ b ∈ repos, a.1 = b.1 ↔ a.2 = b.2) (db : Db) :
    ∃ db' changed, syncBatch ext gh db repos = (db', .ok changed) ∧ Swept ext answer db repos (db', changed) := by
  cases repos with
  | nil => exact ⟨db, ∅, rfl, swept_nil db⟩
  | cons repo repos =>
    obtain ⟨s', hrun, hswept⟩ := syncChunks_swept ext h hids ((repo :: repos).toChunks batchSize)
      (fun _ hc => hc) (by rw [flatten_toChunks]; exact fun _ ha => ha) (swept_nil db)
    rw [flatten_toChunks] at hswept
    exact ⟨s'.1, s'.2, hrun, hswept⟩

/-- What is stored of a repository is all in the answer, and the answer has a pull request that is new or bears
another stamp, or all that is stored is open. -/
def Db.Covered (db : Db) (ext : Ext) (repoId : Int) (nodes : List Json) : Prop :=
  Known.Covered PullRequest.updatedAt (fun row => row.state = "open") (answered ext repoId nodes) (db.shown repoId)

def openPullRequests (k : Known Int PullRequest) : Set (Int × PullRequest) := k.opened fun row => row.state = "open"

def openVersions (k : Known Int PullRequest) : Set (Int × String) :=
  k.openStamps PullRequest.updatedAt fun row => row.state = "open"

/-- **Two sweeps with one answer**: of each repository the change is told, the open pull requests are the answer's
afterwards and the second sweep is silent, iff what was stored was covered. -/
theorem syncBatch_honest_iff {gh : GitHubClient} {repos : List (Int × Slug)} (h : Answers gh repos answer)
    (hids : ∀ a ∈ repos, ∀ b ∈ repos, a.1 = b.1 ↔ a.2 = b.2) (db : Db) :
    ∃ db₁ changed₁ db₂ changed₂, syncBatch ext gh db repos = (db₁, .ok changed₁) ∧
      syncBatch ext gh db₁ repos = (db₂, .ok changed₂) ∧ ∀ repo ∈ repos,
        ((repo.2 ∈ changed₁ ↔
            openVersions (db.shown repo.1) ≠ openVersions (answered ext repo.1 (answer repo.2))) ∧
          openPullRequests (db₁.shown repo.1) = openPullRequests (answered ext repo.1 (answer repo.2)) ∧
          repo.2 ∉ changed₂) ↔
        db.Covered ext repo.1 (answer repo.2) := by
  obtain ⟨db₁, changed₁, hrun₁, h₁⟩ := syncBatch_swept ext h hids db
  obtain ⟨db₂, changed₂, hrun₂, h₂⟩ := syncBatch_swept ext h hids db₁
  refine ⟨db₁, changed₁, db₂, changed₂, hrun₁, hrun₂, fun repo hrepo => ?_⟩
  have hmem : ∀ {db : Db} {s : Db × Finset Slug}, Swept ext answer db repos s → (repo.2 ∈ s.2 ↔
      Known.Noted PullRequest.updatedAt (answered ext repo.1 (answer repo.2)) (db.shown repo.1)) := by
    intro db s hs
    rw [hs.noted]
    constructor
    · rintro ⟨a, ha, hslug, hn⟩
      obtain rfl : a = repo := Prod.ext ((hids a ha repo hrepo).2 hslug) hslug
      exact hn
    · exact fun hn => ⟨repo, hrepo, rfl, hn⟩
  rw [hmem h₁, hmem h₂, h₁.laid repo hrepo, openVersions, openVersions, openPullRequests, openPullRequests]
  exact Known.honest_iff fun n new hnew => answered_isOpen (h.isOpen repo hrepo) hnew

end

/-! ## A pull request that left the answer -/

/-- A service with one repository. -/
def oneRepo (nodes : List Json) : GitHubClient where
  throttleIfNeeded _ := .ok 5000
  graphql _ _ := .ok (.obj [("repo_0", .obj [("pullRequests", .obj [("nodes", .arr nodes)])])])

theorem oneRepo_answers {nodes : List Json} (h : OpenNodes nodes) (repo : Int × Slug) :
    Answers (oneRepo nodes) [repo] fun _ => nodes where
  throttle := ⟨5000, rfl⟩
  data chunk hchunk := by
    obtain rfl : chunk = [repo] := by simpa [List.toChunks, List.toChunks.go, batchSize] using hchunk
    refine ⟨_, rfl, fun i a ha => ?_⟩
    obtain rfl : i = 0 := by
      obtain ⟨hi, -⟩ := List.getElem?_eq_some_iff.1 ha
      simpa using hi
    rfl
  isOpen _ _ := h

def openNode : Json := .obj [("number", .num (.posInt 7)), ("state", .str "OPEN"), ("updatedAt", .str "2026-01-02")]

theorem openNodes_openNode : OpenNodes [openNode] where
  numbered := by simp [openNode, number, index, Json.get, Json.asI64]
  stamped := by simp [openNode, updatedAt, index, Json.get, Json.asStr]
  isOpen := by simp [openNode, index, Json.get, Json.asStr]
  once := by simp [openNode, number, index, Json.get, Json.asI64]

theorem openNodes_nil : OpenNodes [] where
  numbered := by simp
  stamped := by simp
  isOpen := by simp
  once := by simp

def plainExt : Ext := ⟨fun _ => 1, fun _ => "now", fun _ => ""⟩

def emptyDb : Db := ⟨.empty, .empty, .empty, .empty, .empty, []⟩

/-- A pull request the last sweep stored. -/
def storedDb : Db :=
  { emptyDb with pullRequests := emptyDb.pullRequests.upsert PullRequest.merge (pullRequest plainExt 1 3 openNode) }

theorem storedDb_shown : storedDb.shown 3 7 = some (pullRequest plainExt 1 3 openNode).content := by decide +kernel

/-- A stored pull request that the answer still has. -/
theorem stored_sweep_honest : ∃ db₁ changed₁ db₂ changed₂,
    syncBatch plainExt (oneRepo [openNode]) storedDb [(3, ("owner", "name"))] = (db₁, .ok changed₁) ∧
      syncBatch plainExt (oneRepo [openNode]) db₁ [(3, ("owner", "name"))] = (db₂, .ok changed₂) ∧
      ∀ repo ∈ [((3 : Int), ("owner", "name"))],
        ((repo.2 ∈ changed₁ ↔ openVersions (storedDb.shown repo.1) ≠
          openVersions (answered plainExt repo.1 [openNode])) ∧
          openPullRequests (db₁.shown repo.1) = openPullRequests (answered plainExt repo.1 [openNode]) ∧
          repo.2 ∉ changed₂) ↔
        storedDb.Covered plainExt repo.1 [openNode] :=
  syncBatch_honest_iff (oneRepo_answers openNodes_openNode (3, ("owner", "name"))) (by simp) storedDb

/-- The pull request was merged: it is in no answer any more, stays open in the table, and every sweep tells of it. -/
theorem merged_told_again : ¬∀ (ext : Ext) (gh : GitHubClient) (repos : List (Int × Slug)) (answer : Slug → List Json),
    Answers gh repos answer → (∀ a ∈ repos, ∀ b ∈ repos, a.1 = b.1 ↔ a.2 = b.2) →
    ∀ (db db₁ db₂ : Db) (changed₁ changed₂ : Finset Slug), syncBatch ext gh db repos = (db₁, .ok changed₁) →
      syncBatch ext gh db₁ repos = (db₂, .ok changed₂) → ∀ repo ∈ repos,
        (repo.2 ∈ changed₁ ↔ openVersions (db.shown repo.1) ≠ openVersions (answered ext repo.1 (answer repo.2))) ∧
          openPullRequests (db₁.shown repo.1) = openPullRequests (answered ext repo.1 (answer repo.2)) ∧
          repo.2 ∉ changed₂ := by
  intro h
  have hanswers := oneRepo_answers openNodes_nil (3, ("owner", "name"))
  have hids : ∀ a ∈ [((3 : Int), ("owner", "name"))], ∀ b ∈ [((3 : Int), ("owner", "name"))],
      a.1 = b.1 ↔ a.2 = b.2 := by simp
  obtain ⟨db₁, changed₁, hrun₁, h₁⟩ := syncBatch_swept plainExt hanswers hids storedDb
  obtain ⟨db₂, changed₂, hrun₂, h₂⟩ := syncBatch_swept plainExt hanswers hids db₁
  have hclaim := h plainExt _ _ _ hanswers hids storedDb db₁ db₂ changed₁ changed₂ hrun₁ hrun₂ _ List.mem_cons_self
  refine hclaim.2.2 ((h₂.noted _).2 ⟨_, List.mem_cons_self, rfl, ?_⟩)
  have hlaid : db₁.shown 3 = Known.after (answered plainExt 3 []) (storedDb.shown 3) := h₁.laid _ List.mem_cons_self
  change Known.Noted _ (answered plainExt 3 []) (db₁.shown 3)
  rw [hlaid]
  exact Known.noted_after.2 ⟨7, _, storedDb_shown, rfl⟩

end Ghcache
