import HafleyRs.SprefaExtract.Move

/-!
# What the sweep takes (`crates/sprefa-extract/src/edit/_6_move.rs`:452–521)

The sweep reads the files its scope has left, and not what stands once the stages are committed. `sweep_takes_emptied`
says when the two agree: where no moved file lands, the files in scope may not all leave while another file stays or a
shim comes back.
-/

namespace SprefaExtract
open Slashed

section
variable {ws : Workspace} {cx : MoveCx} {taken moves requested : List (Rel × Rel)}

theorem validateMove_ok {move m : Rel × Rel} (h : validateMove ws cx taken move = .ok m) :
    m = move ∧ move.1 ∈ cx.present ∧ move.1 ∉ taken.map Prod.fst := by
  simp only [validateMove] at h
  cases hold : ws.rehomeFor move.1 with
  | none =>
    simp only [hold] at h
    split_ifs at h
  | some arm =>
    cases hnew : ws.rehomeFor move.2 with
    | none =>
      simp only [hold, hnew] at h
      split_ifs at h
    | some destination =>
      simp only [hold, hnew] at h
      split_ifs at h with hfile hoccupied hpresent hcross htwice hshared
      cases h
      exact ⟨rfl, by simpa [MoveCx.contains] using hpresent, by simpa using htwice⟩

/-- The requests a batch is made of: each in the corpus, and none twice. -/
def Drawn (cx : MoveCx) (moves : List (Rel × Rel)) : Prop :=
  (moves.map Prod.fst).Nodup ∧ ∀ m ∈ moves, m.1 ∈ cx.present

theorem validatedMoves_ok (h : validatedMoves ws cx taken requested = .ok moves) (htaken : Drawn cx taken) :
    Drawn cx moves := by
  induction requested generalizing taken with
  | nil =>
    cases h
    exact htaken
  | cons move rest ih =>
    unfold validatedMoves at h
    cases hmove : validateMove ws cx taken move with
    | error e =>
      rw [hmove] at h
      cases h
    | ok m =>
      rw [hmove] at h
      obtain ⟨rfl, hpresent, hnew⟩ := validateMove_ok hmove
      refine ih h ⟨?_, fun m' hm' => ?_⟩
      · rw [List.map_append, List.map_singleton, List.nodup_append]
        refine ⟨htaken.1, List.nodup_singleton _, fun a ha b hb hab => hnew ?_⟩
        rw [List.mem_singleton] at hb
        rwa [← hb, ← hab]
      · rcases List.mem_append.1 hm' with hm' | hm'
        · exact htaken.2 m' hm'
        · rw [List.mem_singleton] at hm'
          rwa [hm']

/-- A plan moves files of the corpus, and edits those of its scope. -/
structure Planned (corpus : List Rel) (scope : Option (List Rel)) (shim : Bool) (plan : Plan) : Prop where
  present : plan.cx.present = corpus
  files   : ∀ rel, rel ∈ plan.cx.files ↔ rel ∈ corpus ∧ ∀ keep, scope = some keep → rel ∈ keep
  shim    : plan.cx.shim = shim
  moved   : ∀ old new, plan.cx.destination old = some new ↔ (old, new) ∈ plan.moves
  corpus  : ∀ old new, plan.cx.destination old = some new → old ∈ plan.cx.present
  single  : plan.cx.shim = true → plan.moves.length ≤ 1

theorem build_planned {corpus : List Rel} {scope : Option (List Rel)} {shim : Bool} {plan : Plan}
    (h : build ws corpus scope shim requested = .ok plan) : Planned corpus scope shim plan := by
  have hcx : ((MoveCx.fromFiles corpus).scopedTo scope).present = corpus := by cases scope <;> rfl
  simp only [build] at h
  cases hmoves : validatedMoves ws ((MoveCx.fromFiles corpus).scopedTo scope) [] requested with
  | error e =>
    rw [hmoves] at h
    cases h
  | ok moves =>
    simp only [hmoves, Except.bind, bind] at h
    split_ifs at h with hshim
    cases h
    obtain ⟨hnodup, hpresent⟩ := validatedMoves_ok hmoves ⟨List.nodup_nil, nofun⟩
    have hmoved : ∀ old new, (moves.foldl (fun m move => m.insert move.1 move.2) (∅ : BTreeMap Rel Rel))[old]? =
        some new ↔ (old, new) ∈ moves := by
      intro old new
      rw [BTreeMap.getElem?_foldl_insert hnodup, Std.ExtTreeMap.getElem?_empty, Option.or_none, Option.map_eq_some_iff]
      constructor
      · rintro ⟨move, hfound, rfl⟩
        obtain ⟨hmem, rfl⟩ := (find?_key_eq_some hnodup).1 hfound
        exact hmem
      · intro hmem
        exact ⟨(old, new), (find?_key_eq_some hnodup).2 ⟨hmem, rfl⟩, rfl⟩
    constructor
    case present => exact hcx
    case files =>
      intro rel
      cases scope with
      | none => simp [MoveCx.withBatch, MoveCx.scopedTo, MoveCx.fromFiles]
      | some keep => simp [MoveCx.withBatch, MoveCx.scopedTo, MoveCx.fromFiles]
    case shim => rfl
    case moved => exact hmoved
    case corpus =>
      intro old new hnew
      exact hpresent _ ((hmoved old new).1 hnew)
    case single =>
      intro htrue
      by_contra hlen
      exact hshim (by rw [show shim = true from htrue, decide_eq_true (not_le.1 hlen)]; rfl)

end

/-! ## What stands once the stages are committed -/

def Standing (plan : Plan) (path : Rel) : Prop :=
  (∃ rel ∈ plan.cx.present, plan.cx.after rel = path) ∨ path ∈ shimPaths plan

/-- The moves take the last file out of the directory. -/
def Emptied (plan : Plan) (d : Rel) : Prop :=
  (∃ rel ∈ plan.cx.present, under rel d) ∧ ∀ path, Standing plan path → under path d = false

/-- The directories listed are those emptied, each once and after those under it. -/
structure SweepsEmptied (plan : Plan) : Prop where
  clear    : ∀ d ∈ emptiedDirectories plan.cx, ∀ path, Standing plan path → under path d = false
  complete : ∀ d, Emptied plan d → d ∈ emptiedDirectories plan.cx
  once     : (emptiedDirectories plan.cx).Nodup
  bottomUp : (emptiedDirectories plan.cx).Pairwise fun a b => under b a = false

/-- All of some files that lie under a directory are moved, and there is one. -/
def LeftBy (plan : Plan) (files : List Rel) (d : Rel) : Prop :=
  (∃ rel ∈ files, under rel d) ∧ ∀ rel ∈ files, under rel d → rel ∈ plan.moves.map Prod.fst

/-- The files in scope leave a directory that no moved file lands in if all its files do, and no shim comes back. -/
def WholeInScope (plan : Plan) : Prop :=
  ∀ d, d ≠ [] → (∀ move ∈ plan.moves, under move.2 d = false) →
    (LeftBy plan plan.cx.files d ↔ LeftBy plan plan.cx.present d ∧ plan.cx.shim = false)

section
variable {corpus : List Rel} {scope : Option (List Rel)} {shim : Bool} {plan : Plan} {d : Rel}

theorem Planned.isSome_destination (h : Planned corpus scope shim plan) {rel : Rel} :
    (plan.cx.destination rel).isSome ↔ rel ∈ plan.moves.map Prod.fst := by
  rw [Option.isSome_iff_exists, List.mem_map]
  constructor
  · rintro ⟨new, hnew⟩
    exact ⟨(rel, new), (h.moved rel new).1 hnew, rfl⟩
  · rintro ⟨⟨old, new⟩, hmem, rfl⟩
    exact ⟨new, (h.moved old new).2 hmem⟩

theorem Planned.mem_emptied (h : Planned corpus scope shim plan) : d ∈ emptiedDirectories plan.cx ↔
    d ≠ [] ∧ (∀ move ∈ plan.moves, under move.2 d = false) ∧ LeftBy plan plan.cx.files d := by
  rw [mem_emptiedDirectories, empties_iff]
  refine and_congr_right fun _ => and_congr ⟨fun hlands move hmem => ?_, fun hlands old new hnew => ?_⟩ ?_
  · exact hlands move.1 move.2 ((h.moved _ _).2 hmem)
  · exact hlands (old, new) ((h.moved _ _).1 hnew)
  · simp only [h.isSome_destination]
    exact and_comm

/-- With a shim, what was moved last is what comes back. -/
theorem Planned.mem_shimPaths (h : Planned corpus scope shim plan) {path : Rel} :
    path ∈ shimPaths plan ↔ plan.cx.shim = true ∧ path ∈ plan.moves.map Prod.fst := by
  unfold shimPaths
  cases hshim : plan.cx.shim with
  | false => simp
  | true =>
    have hsingle := h.single hshim
    cases hmoves : plan.moves with
    | nil => simp
    | cons move rest =>
      rw [hmoves, List.length_cons] at hsingle
      obtain rfl : rest = [] := List.length_eq_zero_iff.1 (by omega)
      simp

theorem Planned.standing_clear (h : Planned corpus scope shim plan) (hmoved : ∀ rel ∈ plan.cx.present, under rel d →
    rel ∈ plan.moves.map Prod.fst) (hlands : ∀ move ∈ plan.moves, under move.2 d = false)
    (hshim : plan.cx.shim = false) : ∀ path, Standing plan path → under path d = false := by
  rintro path (⟨rel, hrel, rfl⟩ | hpath)
  · cases hdest : plan.cx.destination rel with
    | some new =>
      rw [MoveCx.after, hdest]
      exact hlands (rel, new) ((h.moved rel new).1 hdest)
    | none =>
      rw [MoveCx.after, hdest]
      by_contra hunder
      have hmem := h.isSome_destination.2 (hmoved rel hrel (Bool.not_eq_false _ ▸ hunder))
      rw [hdest] at hmem
      cases hmem
  · rw [h.mem_shimPaths, hshim] at hpath
    cases hpath.1

theorem Planned.clear_standing (h : Planned corpus scope shim plan) (hclear : ∀ path, Standing plan path →
    under path d = false) : (∀ move ∈ plan.moves, under move.2 d = false) ∧
      (∀ rel ∈ plan.cx.present, under rel d → rel ∈ plan.moves.map Prod.fst) ∧
      ((∃ move ∈ plan.moves, under move.1 d) → plan.cx.shim = false) := by
  refine ⟨fun move hmem => ?_, fun rel hrel hunder => ?_, fun ⟨move, hmem, hunder⟩ => ?_⟩
  · have hdest := (h.moved move.1 move.2).2 hmem
    refine hclear move.2 (Or.inl ⟨move.1, h.corpus _ _ hdest, ?_⟩)
    rw [MoveCx.after, hdest]
    rfl
  · by_contra hstays
    rw [← h.isSome_destination, Option.not_isSome_iff_eq_none] at hstays
    have hafter := hclear rel (Or.inl ⟨rel, hrel, by rw [MoveCx.after, hstays]; rfl⟩)
    rw [hunder] at hafter
    cases hafter
  · by_contra hshim
    rw [Bool.not_eq_false] at hshim
    have hback := hclear move.1 (Or.inr (h.mem_shimPaths.2 ⟨hshim, List.mem_map.2 ⟨move, hmem, rfl⟩⟩))
    rw [hunder] at hback
    cases hback

theorem Planned.emptied_iff (h : Planned corpus scope shim plan) : Emptied plan d ↔
    (∀ move ∈ plan.moves, under move.2 d = false) ∧ LeftBy plan plan.cx.present d ∧ plan.cx.shim = false := by
  constructor
  · rintro ⟨⟨rel, hrel, hunder⟩, hclear⟩
    obtain ⟨hlands, hmoved, hshim⟩ := h.clear_standing hclear
    obtain ⟨move, hmem, heq⟩ := List.mem_map.1 (hmoved rel hrel hunder)
    exact ⟨hlands, ⟨⟨rel, hrel, hunder⟩, hmoved⟩, hshim ⟨move, hmem, heq ▸ hunder⟩⟩
  · rintro ⟨hlands, ⟨hthere, hmoved⟩, hshim⟩
    exact ⟨hthere, h.standing_clear hmoved hlands hshim⟩

/-- The root holds what was moved, so it is never emptied. -/
theorem emptied_ne_nil (h : Emptied plan d) : d ≠ [] := by
  rintro rfl
  obtain ⟨⟨rel, hrel, -⟩, hclear⟩ := h
  exact absurd (hclear _ (Or.inl ⟨rel, hrel, rfl⟩)) (by simp [under])

end

/-- **The sweep takes what the moves empty** — for exactly the plans whose scope holds, of each directory the moves
leave, every file. -/
theorem sweep_takes_emptied (ws : Workspace) (corpus : List Rel) (scope : Option (List Rel)) (shim : Bool)
    (requested : List (Rel × Rel)) (plan : Plan) (h : build ws corpus scope shim requested = .ok plan) :
    SweepsEmptied plan ↔ WholeInScope plan := by
  have hplanned := build_planned h
  constructor
  · intro hsweeps d hd hlands
    constructor
    · intro hleft
      have hmem := hplanned.mem_emptied.2 ⟨hd, hlands, hleft⟩
      obtain ⟨rel, hrel, hunder⟩ := hleft.1
      have hpresent : rel ∈ plan.cx.present := hplanned.present ▸ ((hplanned.files rel).1 hrel).1
      exact (hplanned.emptied_iff.1 ⟨⟨rel, hpresent, hunder⟩, hsweeps.clear d hmem⟩).2
    · intro hleft
      exact (hplanned.mem_emptied.1 (hsweeps.complete d (hplanned.emptied_iff.2 ⟨hlands, hleft⟩))).2.2
  · intro hwhole
    constructor
    case clear =>
      intro d hmem
      obtain ⟨hd, hlands, hleft⟩ := hplanned.mem_emptied.1 hmem
      exact (hplanned.emptied_iff.2 ⟨hlands, (hwhole d hd hlands).1 hleft⟩).2
    case complete =>
      intro d hemptied
      obtain ⟨hlands, hleft⟩ := hplanned.emptied_iff.1 hemptied
      have hd := emptied_ne_nil hemptied
      exact hplanned.mem_emptied.2 ⟨hd, hlands, (hwhole d hd hlands).2 hleft⟩
    case once => exact ahead_emptiedDirectories.imp fun hahead heq => hahead (Or.inl heq)
    case bottomUp =>
      refine ahead_emptiedDirectories.imp_of_mem fun {a b} ha hb hahead => ?_
      by_contra hunder
      rw [Bool.not_eq_false, under_eq_true (mem_emptiedDirectories.1 ha).1] at hunder
      exact hahead (Or.inr hunder)

/-- Two files of one directory, of which the scope has one. -/
def pairWorkspace : Workspace where
  isFile _    := true
  occupied _  := false
  display rel := String.ofList rel
  rehomes     := ["ts"]
  rehomeFor _ := some "ts"

def pairCorpus : List Rel := ["a/x.ts".toList, "a/y.ts".toList]
def pairMove : Rel × Rel := ("a/x.ts".toList, "b/x.ts".toList)

theorem build_pair (scope : Option (List Rel)) : ∃ plan,
    build pairWorkspace pairCorpus scope false [pairMove] = .ok plan ∧ plan.moves = [pairMove] := by
  cases scope with
  | none => exact ⟨_, rfl, rfl⟩
  | some keep => exact ⟨_, rfl, rfl⟩

theorem pair_swept_whole : ∃ plan, build pairWorkspace pairCorpus none false [pairMove] = .ok plan ∧
    (SweepsEmptied plan ↔ WholeInScope plan) := by
  obtain ⟨plan, hplan, -⟩ := build_pair none
  exact ⟨plan, hplan, sweep_takes_emptied _ _ _ _ _ _ hplan⟩

/-- A directory is listed though a file of it is left, which the scope does not hold. -/
theorem unscoped_file_stays : ∃ plan, build pairWorkspace pairCorpus (some ["a/x.ts".toList]) false [pairMove] =
    .ok plan ∧ ¬ SweepsEmptied plan ∧ "a".toList ∈ emptiedDirectories plan.cx ∧ Standing plan "a/y.ts".toList ∧
    under "a/y.ts".toList "a".toList = true := by
  obtain ⟨plan, hplan, hmoves⟩ := build_pair (some ["a/x.ts".toList])
  have hplanned := build_planned hplan
  have hlisted : "a".toList ∈ emptiedDirectories plan.cx := by
    refine hplanned.mem_emptied.2 ⟨by decide, ?_, ?_⟩
    · rw [hmoves]
      decide
    have hfiles : ∀ rel, rel ∈ plan.cx.files ↔ rel = "a/x.ts".toList := by
      intro rel
      rw [hplanned.files]
      simp only [Option.some.injEq, forall_eq', List.mem_singleton]
      refine and_iff_right_of_imp ?_
      rintro rfl
      decide
    refine ⟨⟨"a/x.ts".toList, (hfiles _).2 rfl, by decide⟩, fun rel hrel _ => ?_⟩
    rw [hmoves, (hfiles rel).1 hrel]
    decide
  have hstays : plan.cx.destination "a/y.ts".toList = none := by
    rw [← Option.not_isSome_iff_eq_none, hplanned.isSome_destination, hmoves]
    decide
  have hstands : Standing plan "a/y.ts".toList := by
    refine Or.inl ⟨"a/y.ts".toList, ?_, ?_⟩
    · rw [hplanned.present]
      decide
    · rw [MoveCx.after, hstays]
      rfl
  have hunder : under "a/y.ts".toList "a".toList = true := by decide
  refine ⟨plan, hplan, fun hsweeps => ?_, hlisted, hstands, hunder⟩
  rw [hsweeps.clear _ hlisted _ hstands] at hunder
  cases hunder

end SprefaExtract
