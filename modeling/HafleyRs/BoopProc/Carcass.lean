import HafleyRs.BoopStore.Mail

/-!
# Deleting the carcass of a lane (`crates/boop-proc/src/lane.rs`)

| here | there |
| --- | --- |
| `slug` | `slug` (72–85) |
| `worktreeDir` | `worktree_dir` (87–95) |
| `components`, `fileName` | `Path::components`, by which paths compare, and `Path::file_name` |
| `findCarcass` | `find_carcass` with the trim of `git_line` (200–212, 516–521) |
| `carcassInListing` | `carcass_in_listing` (523–553) |
| `carcassToReclaim`, `deleteCarcass` | `delete_carcass` (591–611), up to `reclaim_carcass` and with it |

`entries` is what a listing says: the worktrees other than the repository's that have a branch. A lane is asked for by
name, and a worktree answers by the slug of its branch or by its directory. The second rule takes the first entry that
it fits, whatever lane that entry belongs to (`deletes_own_lane_iff`).
-/

namespace BoopProc.Carcass
open BoopStore

abbrev Text := List Char

/-! ## Names and paths -/

def slugStep (slugged : Text) (character : Char) : Text :=
  if character.isAlphanum || character = '-' || character = '_' then slugged ++ [character]
  else if slugged.getLast? ≠ some '-' then slugged ++ ['-']
  else slugged

def slug (branch : Text) : Text :=
  ((branch.foldl slugStep []).dropWhile (· = '-')).rdropWhile (· = '-')

/-- A path as the sequence it is compared by: whether it starts at the root, and its names. -/
def components (path : Text) : Bool × List Text :=
  let names := path.splitOn '/'
  (path.head? = some '/', (names.take 1).filter (· ≠ []) ++
    (names.drop 1).filter fun name => name ≠ [] ∧ name ≠ ['.'])

def fileName (path : Text) : Option Text :=
  ((components path).2.getLast?).filter fun name => name ≠ ['.', '.'] ∧ name ≠ ['.']

def worktreeRoot : Text := ".boop-worktrees".toList

def worktreeDir (repo branch : Text) : Text :=
  ((branch.splitOn '/').filter (· ≠ [])).foldl (fun path segment => path ++ '/' :: segment)
    (repo ++ '/' :: worktreeRoot)

/-! ## The listing -/

structure LaneCarcass where
  worktree : Text
  branch   : Text
deriving DecidableEq

def stripPrefix (front line : Text) : Option Text := if front <+: line then some (line.drop front.length) else none

/-- `str::lines` -/
def lines (text : Text) : List Text :=
  let parts := text.splitOn '\n'
  parts.dropLast.map (fun line => if line.getLast? = some '\r' then line.dropLast else line) ++
    (parts.getLast?.toList.filter (· ≠ []))

/-- A worktree answers to a lane by the slug of its branch or by the name of its directory. -/
def answers (lane : Text) (carcass : LaneCarcass) : Bool :=
  let named := fileName carcass.worktree = some lane
  slug carcass.branch = lane || named

/-- The loop over the lines, with the path read last. -/
def scan (repo lane : Text) : Option Text → List Text → Option LaneCarcass
  | _, [] => none
  | path, line :: rest =>
    match stripPrefix "worktree ".toList line with
    | some rest' => scan repo lane (some rest') rest
    | none =>
      match stripPrefix "branch refs/heads/".toList line, path with
      | some branch, some worktree =>
        if components worktree = components repo then scan repo lane path rest
        else if answers lane { worktree, branch } then some { worktree, branch }
        else scan repo lane path rest
      | _, _ => scan repo lane path rest

def carcassInListing (repo listing lane : Text) : Option LaneCarcass := scan repo lane none (lines listing)

/-- `git` is what `git worktree list --porcelain` prints, if it succeeds. -/
def findCarcass (git : Option Text) (repo lane : Text) : Option LaneCarcass := do
  let printed ← git
  let listing := (printed.dropWhile isWhitespace).rdropWhile isWhitespace
  if listing = [] then none else carcassInListing repo listing lane

/-! ## The deletion -/

inductive DeleteError where
  | noCarcass (lane repo : Text)
  | sessionAlive (lane : Text)
  | reclaim (message : String)
deriving DecidableEq

/-- The carcass that `reclaim_carcass` is called with. -/
def carcassToReclaim (git : Option Text) (paneAlive : Text → Bool) (repo lane : Text) :
    Except DeleteError LaneCarcass :=
  match findCarcass git repo lane with
  | none         => .error (.noCarcass lane repo)
  | some carcass => if paneAlive lane then .error (.sessionAlive lane) else .ok carcass

def deleteCarcass {Reclaimed : Type} (reclaimCarcass : Text → Text → Except DeleteError Reclaimed)
    (git : Option Text) (paneAlive : Text → Bool) (repo lane : Text) : Except DeleteError Reclaimed := do
  let carcass ← carcassToReclaim git paneAlive repo lane
  reclaimCarcass carcass.branch carcass.worktree

/-! ## The entries of a listing -/

def entriesFrom (repo : Text) : Option Text → List Text → List LaneCarcass
  | _, [] => []
  | path, line :: rest =>
    match stripPrefix "worktree ".toList line with
    | some rest' => entriesFrom repo (some rest') rest
    | none =>
      match stripPrefix "branch refs/heads/".toList line, path with
      | some branch, some worktree =>
        if components worktree = components repo then entriesFrom repo path rest
        else { worktree, branch } :: entriesFrom repo path rest
      | _, _ => entriesFrom repo path rest

/-- The worktrees of a repository that have a branch, its own apart. -/
def entries (git : Option Text) (repo : Text) : List LaneCarcass :=
  entriesFrom repo none (lines (((git.getD []).dropWhile isWhitespace).rdropWhile isWhitespace))

theorem scan_eq_find? (repo lane : Text) (path : Option Text) (ls : List Text) :
    scan repo lane path ls = (entriesFrom repo path ls).find? (answers lane) := by
  induction ls generalizing path with
  | nil => rfl
  | cons line rest ih =>
    unfold scan entriesFrom
    cases stripPrefix "worktree ".toList line with
    | some rest' => exact ih _
    | none =>
      cases stripPrefix "branch refs/heads/".toList line with
      | none => exact ih _
      | some branch =>
        cases path with
        | none => exact ih _
        | some worktree =>
          simp only
          by_cases hrepo : components worktree = components repo
          · rw [if_pos hrepo, if_pos hrepo]
            exact ih _
          · rw [if_neg hrepo, if_neg hrepo, List.find?_cons]
            cases hanswers : answers lane { worktree, branch } with
            | true => rfl
            | false => exact ih _

theorem findCarcass_eq_find? (git : Option Text) (repo lane : Text) :
    findCarcass git repo lane = (entries git repo).find? (answers lane) := by
  unfold findCarcass entries
  cases git with
  | none => rfl
  | some printed =>
    simp only [Option.bind_eq_bind, Option.bind_some, Option.getD_some]
    by_cases hempty : (printed.dropWhile isWhitespace).rdropWhile isWhitespace = []
    · rw [if_pos hempty, hempty]
      rfl
    · rw [if_neg hempty]
      exact scan_eq_find? _ _ _ _

/-- The carcass found is the first entry that answers. -/
theorem findCarcass_eq_some {git : Option Text} {repo lane : Text} {carcass : LaneCarcass} :
    findCarcass git repo lane = some carcass ↔ answers lane carcass = true ∧
      ∃ before after, entries git repo = before ++ carcass :: after ∧ ∀ entry ∈ before, answers lane entry = false := by
  rw [findCarcass_eq_find?, List.find?_eq_some_iff_append]
  simp only [Bool.not_eq_true']

theorem carcassToReclaim_eq_ok {git : Option Text} {paneAlive : Text → Bool} {repo lane : Text}
    {carcass : LaneCarcass} : carcassToReclaim git paneAlive repo lane = .ok carcass ↔
      findCarcass git repo lane = some carcass ∧ paneAlive lane = false := by
  unfold carcassToReclaim
  cases hfound : findCarcass git repo lane with
  | none => simp
  | some found => cases paneAlive lane <;> simp

/-! ## Whose carcass it is -/

/-- The worktree named by a lane is that lane's own, where there is one, and a lane that is alive loses none. -/
structure DeletesOwnLane (git : Option Text) (paneAlive : Text → Bool) (repo lane : Text) : Prop where
  finds : (∃ entry ∈ entries git repo, slug entry.branch = lane) →
    ∃ entry ∈ entries git repo, findCarcass git repo lane = some entry ∧ slug entry.branch = lane
  spares : ∀ carcass, carcassToReclaim git paneAlive repo lane = .ok carcass → paneAlive (slug carcass.branch) = false

/-- Before an entry whose directory alone has the lane's name, some entry answers to the lane, or none is the lane's
and deleting this one harms no lane that is alive. -/
def DirectoryHarmless (git : Option Text) (paneAlive : Text → Bool) (repo lane : Text) : Prop :=
  ∀ before other after, entries git repo = before ++ other :: after → fileName other.worktree = some lane →
    slug other.branch ≠ lane → (∃ entry ∈ before, slug entry.branch = lane ∨ fileName entry.worktree = some lane) ∨
      (∀ entry ∈ after, slug entry.branch ≠ lane) ∧ (paneAlive lane = true ∨ paneAlive (slug other.branch) = false)

theorem answers_iff {lane : Text} {carcass : LaneCarcass} :
    answers lane carcass = true ↔ slug carcass.branch = lane ∨ fileName carcass.worktree = some lane := by
  simp [answers]

/-- A carcass found by its directory alone is a harmless one. -/
theorem DirectoryHarmless.of_found {git : Option Text} {paneAlive : Text → Bool} {repo lane : Text}
    (h : DirectoryHarmless git paneAlive repo lane) {found : LaneCarcass}
    (hfound : findCarcass git repo lane = some found) (hslug : slug found.branch ≠ lane) :
    (∀ entry ∈ entries git repo, slug entry.branch ≠ lane) ∧
      (paneAlive lane = true ∨ paneAlive (slug found.branch) = false) := by
  obtain ⟨hanswers, before, after, hentries, hfirst⟩ := findCarcass_eq_some.1 hfound
  have hnone : ∀ entry ∈ before, ¬ (slug entry.branch = lane ∨ fileName entry.worktree = some lane) :=
    fun entry hentry hrule => Bool.eq_false_iff.1 (hfirst entry hentry) (answers_iff.2 hrule)
  have hnamed := (answers_iff.1 hanswers).resolve_left hslug
  rcases h before found after hentries hnamed hslug with ⟨entry, hentry, hrule⟩ | ⟨hafter, halive⟩
  · exact absurd hrule (hnone entry hentry)
  · refine ⟨fun entry hentry => ?_, halive⟩
    rw [hentries, List.mem_append, List.mem_cons] at hentry
    rcases hentry with hentry | rfl | hentry
    · exact fun hown => hnone entry hentry (Or.inl hown)
    · exact hslug
    · exact hafter entry hentry

/-- **Deleting a carcass takes the lane's own** — exactly where no worktree that only its directory names stands before
the lane's, or is the first of a lane that is alive. -/
theorem deletes_own_lane_iff (git : Option Text) (paneAlive : Text → Bool) (repo lane : Text) :
    DeletesOwnLane git paneAlive repo lane ↔ DirectoryHarmless git paneAlive repo lane := by
  constructor
  · intro howns before other after hentries hnamed hslug
    by_cases hbefore : ∃ entry ∈ before, slug entry.branch = lane ∨ fileName entry.worktree = some lane
    · exact Or.inl hbefore
    have hfound : findCarcass git repo lane = some other := by
      refine findCarcass_eq_some.2 ⟨answers_iff.2 (Or.inr hnamed), before, after, hentries, fun entry hentry => ?_⟩
      by_contra hanswers
      exact hbefore ⟨entry, hentry, answers_iff.1 (Bool.not_eq_false _ ▸ hanswers)⟩
    refine Or.inr ⟨fun entry hentry hown => ?_, ?_⟩
    · obtain ⟨found, -, hfirst, hfoundown⟩ := howns.finds ⟨entry, by rw [hentries]; simp [hentry], hown⟩
      rw [hfound, Option.some.injEq] at hfirst
      exact hslug (hfirst ▸ hfoundown)
    · cases halive : paneAlive lane with
      | true => exact Or.inl rfl
      | false => exact Or.inr (howns.spares other (carcassToReclaim_eq_ok.2 ⟨hfound, halive⟩))
  · intro hharmless
    constructor
    case finds =>
      intro ⟨entry, hentry, hown⟩
      have hsome : ((entries git repo).find? (answers lane)).isSome := by
        rw [List.find?_isSome]
        exact ⟨entry, hentry, answers_iff.2 (Or.inl hown)⟩
      obtain ⟨found, hfound⟩ := Option.isSome_iff_exists.1 hsome
      refine ⟨found, List.mem_of_find?_eq_some hfound, (findCarcass_eq_find? _ _ _).trans hfound, ?_⟩
      by_contra hslug
      exact (hharmless.of_found ((findCarcass_eq_find? _ _ _).trans hfound) hslug).1 entry hentry hown
    case spares =>
      intro carcass hcarcass
      obtain ⟨hfound, halive⟩ := carcassToReclaim_eq_ok.1 hcarcass
      by_cases hslug : slug carcass.branch = lane
      · rw [hslug]
        exact halive
      · refine (hharmless.of_found hfound hslug).2.resolve_left ?_
        rw [halive]
        exact Bool.false_ne_true

/-- A lane whose directory is named as another lane. -/
def nestedListing : Text :=
  "worktree /r\nbranch refs/heads/main\n\nworktree ".toList ++ worktreeDir "/r".toList "x/fix-a".toList ++
    "\nHEAD b\nbranch refs/heads/x/fix-a\n".toList

/-- Deleting the one that is gone takes the worktree of the one that is alive. -/
theorem deletes_other_lane : ¬ DeletesOwnLane (some nestedListing) (fun lane => lane = "x-fix-a".toList) "/r".toList
    "fix-a".toList := by
  intro h
  have halive := h.spares ⟨"/r/.boop-worktrees/x/fix-a".toList, "x/fix-a".toList⟩ (by decide +kernel)
  exact absurd halive (by decide)

end BoopProc.Carcass
