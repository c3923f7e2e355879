import HafleyRs.Lib.BTree
import HafleyRs.Lib.Slashed

/-!
# The directories a move empties (`crates/sprefa-extract/src/edit/`)

| here | there |
| --- | --- |
| `MoveCx`, `scopedTo`, `withBatch`, `destination`, `after` | `MoveCx` (`_1_move_cx.rs`:76–250) |
| `dirname` | `dirname` (`_1_move_cx.rs`:337) |
| `Workspace` | `is_file`, `exists` and `display` of paths, `rehomes`, `rehome_for` |
| `validatedMoves`, `build` | `validated_moves` (`_6_move.rs`:587), `Plan::build_for` up to the batch (292–323) |
| `shimPaths` | `shim_paths` (197) |
| `emptiedDirectories`, `empties`, `collectTree`, `under` | the sweep (452–521) |

A path is relative to the root, as `within_root` hands it out. What the requests say is canonical and within the root
already. The files are read twice, whole for what is there and narrowed by the scope for the sweep.
-/

namespace SprefaExtract
open Slashed

abbrev Rel := List Char

def dirname (rel : Rel) : Rel := parent '/' rel

structure MoveCx where
  files   : List Rel
  present : List Rel
  moved   : BTreeMap Rel Rel
  shim    : Bool

namespace MoveCx

def fromFiles (files : List Rel) : MoveCx where
  files   := files
  present := files
  moved   := ∅
  shim    := false

def scopedTo (cx : MoveCx) : Option (List Rel) → MoveCx
  | some keep => { cx with files := cx.files.filter keep.contains }
  | none      => cx

def withBatch (cx : MoveCx) (moved : BTreeMap Rel Rel) (shim : Bool) : MoveCx :=
  { cx with moved := moved, shim := shim }

def contains (cx : MoveCx) (rel : Rel) : Bool := cx.present.contains rel

def destination (cx : MoveCx) (rel : Rel) : Option Rel := cx.moved[rel]?

def after (cx : MoveCx) (rel : Rel) : Rel := (cx.destination rel).getD rel

end MoveCx

/-! ## The batch -/

structure Workspace where
  isFile    : Rel → Bool
  occupied  : Rel → Bool
  display   : Rel → String
  rehomes   : List String
  rehomeFor : Rel → Option String

/-- One request against those taken so far. -/
def validateMove (ws : Workspace) (cx : MoveCx) (taken : List (Rel × Rel)) (move : Rel × Rel) :
    Except String (Rel × Rel) :=
  let old := move.1
  let new := move.2
  if !ws.isFile old then .error s!"move source is not a file: {ws.display old}"
  else if ws.occupied new then .error s!"move destination already exists: {ws.display new}"
  else if !cx.contains old then .error s!"move source is outside the corpus: {String.ofList old}"
  else match ws.rehomeFor old, ws.rehomeFor new with
    | none, _ =>
      let supported := ", ".intercalate ws.rehomes
      .error s!"ryi move does not support {String.ofList old} (supported: {supported})"
    | some _, none => .error s!"move destination has no known extension: {String.ofList new}"
    | some arm, some destination =>
      if arm ≠ destination then .error s!"{String.ofList old} -> {String.ofList new} crosses languages"
      else if (taken.map Prod.fst).contains old then .error s!"{String.ofList old} is moved twice"
      else if (taken.map Prod.snd).contains new then .error s!"{String.ofList new} is the destination of two moves"
      else .ok move

def validatedMoves (ws : Workspace) (cx : MoveCx) (taken : List (Rel × Rel)) :
    List (Rel × Rel) → Except String (List (Rel × Rel))
  | []           => .ok taken
  | move :: rest => do
    let move ← validateMove ws cx taken move
    validatedMoves ws cx (taken ++ [move]) rest

structure Plan where
  cx    : MoveCx
  moves : List (Rel × Rel)

def build (ws : Workspace) (corpus : List Rel) (scope : Option (List Rel)) (shim : Bool)
    (requested : List (Rel × Rel)) : Except String Plan := do
  let cx := (MoveCx.fromFiles corpus).scopedTo scope
  let moves ← validatedMoves ws cx [] requested
  if shim && decide (1 < moves.length) then .error "--shim cannot be combined with --list"
  else .ok { cx := cx.withBatch (moves.foldl (fun m move => m.insert move.1 move.2) ∅) shim, moves }

def shimPaths (plan : Plan) : List Rel :=
  match plan.cx.shim, plan.moves with
  | true, move :: _ => [move.1]
  | _, _            => []

/-! ## The sweep -/

def under (path directory : Rel) : Bool := directory.isEmpty || decide (Below '/' directory path)

def empties (cx : MoveCx) (directory : Rel) : Bool :=
  !cx.moved.toList.any (fun move => under move.2 directory) &&
    (cx.files.filter fun rel => under rel directory).all (fun rel => (cx.destination rel).isSome) &&
    decide (0 < (cx.files.filter fun rel => under rel directory).length)

def children (cx : MoveCx) (directory : Rel) : List Rel := sortedDistinct (cx.files.filterMap (child '/' directory))

/-- A bound on the paths, which are what the tree ends at. -/
def longest (cx : MoveCx) : Nat := (cx.files.map List.length).foldr max 0

theorem length_le_longest {cx : MoveCx} {rel : Rel} (h : rel ∈ cx.files) : rel.length ≤ longest cx := by
  unfold longest
  generalize cx.files = files at h
  induction files with
  | nil => cases h
  | cons f files ih =>
    simp only [List.map_cons, List.foldr_cons]
    rcases List.mem_cons.1 h with rfl | h
    · exact le_max_left _ _
    · exact le_trans (ih h) (le_max_right _ _)

theorem mem_children {cx : MoveCx} {directory name : Rel} : name ∈ children cx directory ↔
    '/' ∉ name ∧ ∃ rel ∈ cx.files, Below '/' (directory ++ '/' :: name) rel := by
  rw [children, mem_sortedDistinct, List.mem_filterMap]
  constructor
  · intro ⟨rel, hrel, hchild⟩
    exact ⟨(child_eq_some.1 hchild).1, rel, hrel, (child_eq_some.1 hchild).2⟩
  · intro ⟨hname, rel, hrel, hbelow⟩
    exact ⟨rel, hrel, child_eq_some.2 ⟨hname, hbelow⟩⟩

theorem child_shortens {cx : MoveCx} {directory name : Rel} (h : name ∈ children cx directory) :
    longest cx - (directory ++ '/' :: name).length < longest cx - directory.length := by
  obtain ⟨-, rel, hrel, hbelow⟩ := mem_children.1 h
  have hlong := length_le_longest hrel
  have hlt := hbelow.length_lt
  rw [List.length_append, List.length_cons] at hlt ⊢
  omega

def collectTree (cx : MoveCx) (directory : Rel) : List Rel :=
  (children cx directory).attach.flatMap (fun name => collectTree cx (directory ++ '/' :: name.1)) ++ [directory]
termination_by longest cx - directory.length
decreasing_by exact child_shortens name.2

/-- The directories over a file, from the nearest. -/
def ancestors (probe : Rel) : List Rel :=
  if probe = [] then [] else probe :: ancestors (dirname probe)
termination_by probe.length
decreasing_by exact parent_length_lt ‹_›

structure Sweep where
  removals : List Rel
  covered  : List Rel

def sweepDirectory (cx : MoveCx) (s : Sweep) (directory : Rel) : Sweep :=
  if s.covered.any (fun done => under directory done) then s
  else if !empties cx directory then s
  else { covered := s.covered ++ [directory], removals := s.removals ++ collectTree cx directory }

def MoveCx.candidates (cx : MoveCx) : List Rel :=
  sortedDistinct (cx.moved.keys.flatMap fun old => ancestors (dirname old))

def emptiedDirectories (cx : MoveCx) : List Rel :=
  (cx.candidates.foldl (sweepDirectory cx) { removals := [], covered := [] }).removals

/-! ## What is listed -/

theorem under_eq_true {path directory : Rel} (h : directory ≠ []) :
    under path directory = true ↔ Below '/' directory path := by
  unfold under
  simp [h]

theorem mem_ancestors {d probe : Rel} (hd : d ≠ []) : d ∈ ancestors probe ↔ d = probe ∨ Below '/' d probe := by
  induction probe using ancestors.induct with
  | case1 =>
    unfold ancestors
    rw [if_pos rfl]
    refine iff_of_false List.not_mem_nil ?_
    rintro (h | h)
    · exact hd h
    · exact absurd h.length_lt (Nat.not_lt_zero _)
  | case2 probe h ih =>
    unfold ancestors
    rw [if_neg h, List.mem_cons, ih]
    exact or_congr_right (below_iff_parent hd).symm

theorem nil_not_mem_ancestors (probe : Rel) : [] ∉ ancestors probe := by
  induction probe using ancestors.induct with
  | case1 =>
    unfold ancestors
    simp
  | case2 probe h ih =>
    unfold ancestors
    rw [if_neg h, List.mem_cons, not_or]
    exact ⟨Ne.symm h, ih⟩

theorem MoveCx.mem_candidates {cx : MoveCx} {d : Rel} :
    d ∈ cx.candidates ↔ d ≠ [] ∧ ∃ old, (cx.destination old).isSome ∧ under old d := by
  rw [MoveCx.candidates, mem_sortedDistinct, List.mem_flatMap]
  constructor
  · intro ⟨old, hold, hmem⟩
    have hd : d ≠ [] := fun h => nil_not_mem_ancestors _ (h ▸ hmem)
    refine ⟨hd, old, BTreeMap.mem_keys.1 hold, ?_⟩
    rw [under_eq_true hd, below_iff_parent hd]
    exact (mem_ancestors hd).1 hmem
  · intro ⟨hd, old, hold, hunder⟩
    rw [under_eq_true hd, below_iff_parent hd] at hunder
    exact ⟨old, BTreeMap.mem_keys.2 hold, (mem_ancestors hd).2 hunder⟩

section
variable {cx : MoveCx} {d e : Rel}

theorem empties_iff : empties cx d = true ↔ (∀ old new, cx.destination old = some new → under new d = false) ∧
    (∀ rel ∈ cx.files, under rel d → (cx.destination rel).isSome) ∧ ∃ rel ∈ cx.files, under rel d := by
  have hlands : cx.moved.toList.any (fun move => under move.2 d) = false ↔
      ∀ old new, cx.destination old = some new → under new d = false := by
    simp only [List.any_eq_false, Prod.forall, BTreeMap.mem_toList, Bool.not_eq_true]
    rfl
  simp only [empties, Bool.and_eq_true, Bool.not_eq_true', hlands, List.all_eq_true, List.mem_filter, and_imp,
    decide_eq_true_eq, List.length_pos_iff_exists_mem, and_assoc]

/-- The tree under a directory: itself, and what lies between it and some file. -/
theorem mem_collectTree : e ∈ collectTree cx d ↔ e = d ∨ Below '/' d e ∧ ∃ rel ∈ cx.files, Below '/' e rel := by
  induction d using collectTree.induct cx with
  | case1 d ih =>
    rw [collectTree, List.mem_append, List.mem_singleton, List.mem_flatMap, or_comm]
    refine or_congr_right ⟨?_, ?_⟩
    · rintro ⟨⟨name, hname⟩, -, hmem⟩
      obtain ⟨-, rel, hrel, hbelow⟩ := mem_children.1 hname
      rcases (ih ⟨name, hname⟩).1 hmem with rfl | ⟨hchild, hfile⟩
      · exact ⟨Below.intro, rel, hrel, hbelow⟩
      · exact ⟨Below.intro.trans hchild, hfile⟩
    · intro ⟨hde, rel, hrel, hep⟩
      obtain ⟨name, hchild, hwithin⟩ := child_le hde hep
      have hname : name ∈ children cx d :=
        mem_children.2 ⟨(child_eq_some.1 hchild).1, rel, hrel, (child_eq_some.1 hchild).2⟩
      refine ⟨⟨name, hname⟩, List.mem_attach _ _, (ih ⟨name, hname⟩).2 ?_⟩
      exact hwithin.imp Eq.symm fun h => ⟨h, rel, hrel, hep⟩

theorem within_of_mem_collectTree (h : e ∈ collectTree cx d) : Within '/' d e :=
  (mem_collectTree.1 h).imp Eq.symm And.left

/-- Children come before their parents, and none twice. -/
theorem collectTree_ahead : (collectTree cx d).Pairwise (Ahead '/') := by
  induction d using collectTree.induct cx with
  | case1 d ih =>
    have hapart : (children cx d).Pairwise fun n m => Slashed.Apart '/' (d ++ '/' :: n) (d ++ '/' :: m) := by
      refine (sortedDistinct_sorted _).imp_of_mem fun hn hm hlt => ?_
      exact apart_children (mem_children.1 hn).1 (mem_children.1 hm).1 hlt.ne
    have hattach : (children cx d).attach.Pairwise fun n m =>
        Slashed.Apart '/' (d ++ '/' :: n.1) (d ++ '/' :: m.1) := by
      rw [← List.attach_map_subtype_val (children cx d)] at hapart
      exact (List.pairwise_map (f := Subtype.val)).1 hapart
    rw [collectTree, List.pairwise_append, List.pairwise_flatMap]
    refine ⟨⟨fun name _ => ih name, ?_⟩, List.pairwise_singleton _ _, ?_⟩
    · refine hattach.imp fun h a ha b hb => ?_
      exact (h.mono (within_of_mem_collectTree ha) (within_of_mem_collectTree hb)).1
    · intro a ha b hb
      obtain ⟨name, -, hmem⟩ := List.mem_flatMap.1 ha
      rw [List.mem_singleton] at hb
      subst hb
      have hbelow : Below '/' b a := Below.intro.trans_within (within_of_mem_collectTree hmem)
      rintro (rfl | h)
      · exact hbelow.irrefl
      · exact (h.trans hbelow).irrefl

/-! ## The sweep over the candidates -/

/-- What the sweep has done after some of the candidates. -/
structure Swept (cx : MoveCx) (done : List Rel) (s : Sweep) : Prop where
  emptied : ∀ r ∈ s.covered, r ∈ done ∧ empties cx r = true
  covers  : ∀ d ∈ done, empties cx d = true → ∃ r ∈ s.covered, Within '/' r d
  listed  : ∀ e, e ∈ s.removals ↔ ∃ r ∈ s.covered, e ∈ collectTree cx r
  ahead   : s.removals.Pairwise (Ahead '/')

theorem Swept.start : Swept cx [] { removals := [], covered := [] } where
  emptied := nofun
  covers  := nofun
  listed  := by simp
  ahead   := List.Pairwise.nil

theorem Swept.skip {done : List Rel} {s : Sweep} (h : Swept cx done s)
    (hd : empties cx d = true → ∃ r ∈ s.covered, Within '/' r d) : Swept cx (done ++ [d]) s where
  emptied r hr := ⟨List.mem_append_left _ (h.emptied r hr).1, (h.emptied r hr).2⟩
  covers e he hempties := by
    rcases List.mem_append.1 he with he | he
    · exact h.covers e he hempties
    · rw [List.mem_singleton] at he
      subst he
      exact hd hempties
  listed := h.listed
  ahead  := h.ahead

/-- A candidate is larger than those before it, so it lies over none of them. -/
theorem Swept.step {done : List Rel} {s : Sweep} (h : Swept cx done s) (hnil : ∀ r ∈ done, r ≠ [])
    (hlt : ∀ r ∈ done, r < d) : Swept cx (done ++ [d]) (sweepDirectory cx s d) := by
  unfold sweepDirectory
  by_cases hcovered : s.covered.any (fun done => under d done) = true
  · rw [if_pos hcovered]
    refine h.skip fun _ => ?_
    obtain ⟨r, hr, hunder⟩ := List.any_eq_true.1 hcovered
    exact ⟨r, hr, Or.inr ((under_eq_true (hnil r (h.emptied r hr).1)).1 hunder)⟩
  rw [if_neg hcovered]
  by_cases hempties : empties cx d = true
  · rw [hempties, Bool.not_true, if_neg Bool.false_ne_true]
    have hapart : ∀ r ∈ s.covered, Slashed.Apart '/' r d := by
      intro r hr
      have hbefore := hlt r (h.emptied r hr).1
      constructor
      · rintro (rfl | hbelow)
        · exact lt_irrefl _ hbefore
        · refine hcovered (List.any_eq_true.2 ⟨r, hr, ?_⟩)
          exact (under_eq_true (hnil r (h.emptied r hr).1)).2 hbelow
      · rintro (rfl | hbelow)
        · exact lt_irrefl _ hbefore
        · exact lt_asymm hbefore hbelow.lt
    constructor
    case emptied =>
      intro r hr
      rcases List.mem_append.1 hr with hr | hr
      · exact ⟨List.mem_append_left _ (h.emptied r hr).1, (h.emptied r hr).2⟩
      · rw [List.mem_singleton] at hr
        subst hr
        exact ⟨by simp, hempties⟩
    case covers =>
      intro e he hemptied
      rcases List.mem_append.1 he with he | he
      · obtain ⟨r, hr, hwithin⟩ := h.covers e he hemptied
        exact ⟨r, List.mem_append_left _ hr, hwithin⟩
      · rw [List.mem_singleton] at he
        subst he
        exact ⟨e, by simp, Or.inl rfl⟩
    case listed =>
      intro e
      simp only [List.mem_append, h.listed, List.mem_singleton, or_and_right, exists_or, exists_eq_left]
    case ahead =>
      refine List.pairwise_append.2 ⟨h.ahead, collectTree_ahead, fun a ha b hb => ?_⟩
      obtain ⟨r, hr, hmem⟩ := (h.listed a).1 ha
      exact ((hapart r hr).mono (within_of_mem_collectTree hmem) (within_of_mem_collectTree hb)).1
  · rw [Bool.not_eq_true] at hempties
    rw [hempties, Bool.not_false, if_pos rfl]
    exact h.skip fun h => by rw [hempties] at h; cases h

theorem Swept.run {done rest : List Rel} {s : Sweep} (h : Swept cx done s) (hnil : ∀ r ∈ done ++ rest, r ≠ [])
    (hsorted : (done ++ rest).Pairwise (· < ·)) : Swept cx (done ++ rest) (rest.foldl (sweepDirectory cx) s) := by
  induction rest generalizing done s with
  | nil => rwa [List.append_nil]
  | cons d rest ih =>
    rw [List.append_cons] at hnil hsorted ⊢
    refine ih (h.step (fun r hr => hnil r (by simp [hr])) fun r hr => ?_) hnil hsorted
    exact (List.pairwise_append.1 (List.pairwise_append.1 hsorted).1).2.2 r hr d (List.mem_singleton_self d)

theorem emptiedDirectories_swept : ∃ s : Sweep, emptiedDirectories cx = s.removals ∧ Swept cx cx.candidates s :=
  ⟨_, rfl, Swept.start.run (fun _ hr => (MoveCx.mem_candidates.1 hr).1) (sortedDistinct_sorted _)⟩

theorem ahead_emptiedDirectories : (emptiedDirectories cx).Pairwise (Ahead '/') := by
  obtain ⟨s, hs, hswept⟩ := @emptiedDirectories_swept cx
  rw [hs]
  exact hswept.ahead

/-- A directory is listed if all the files under it that the sweep sees move, and none to it. -/
theorem mem_emptiedDirectories : d ∈ emptiedDirectories cx ↔ d ≠ [] ∧ empties cx d = true := by
  obtain ⟨s, hs, hswept⟩ := @emptiedDirectories_swept cx
  rw [hs, hswept.listed]
  constructor
  · intro ⟨r, hr, hmem⟩
    obtain ⟨hcandidate, hempties⟩ := hswept.emptied r hr
    have hnil := (MoveCx.mem_candidates.1 hcandidate).1
    rcases mem_collectTree.1 hmem with rfl | ⟨hbelow, rel, hrel, hfile⟩
    · exact ⟨hnil, hempties⟩
    · have hd : d ≠ [] := fun h => absurd hbelow.length_lt (by simp [h])
      have hup : ∀ {path}, under path d = true → under path r = true := fun h =>
        (under_eq_true hnil).2 (hbelow.trans ((under_eq_true hd).1 h))
      rw [empties_iff] at hempties ⊢
      refine ⟨hd, fun old new hnew => ?_, fun f hf h => hempties.2.1 f hf (hup h),
        rel, hrel, (under_eq_true hd).2 hfile⟩
      exact Bool.eq_false_iff.2 fun h => Bool.eq_false_iff.1 (hempties.1 old new hnew) (hup h)
  · intro ⟨hd, hempties⟩
    obtain ⟨-, hmoved, rel, hrel, hunder⟩ := empties_iff.1 hempties
    obtain ⟨r, hr, hwithin⟩ :=
      hswept.covers d (MoveCx.mem_candidates.2 ⟨hd, rel, hmoved rel hrel hunder, hunder⟩) hempties
    refine ⟨r, hr, mem_collectTree.2 ?_⟩
    exact hwithin.imp Eq.symm fun h => ⟨h, rel, hrel, (under_eq_true hd).1 hunder⟩

end

end SprefaExtract
