import HafleyRs.HafleyScm.NestInnermost

/-!
# Scopes and what resolves in them (`crates/hafley_scm/src/read/lang/7_scm_rows.rs`)

| here | there |
| --- | --- |
| `Capture`, `Scope`, `Definition` | 48, 326, 332 |
| `Scopes`, `containing` | 800–809 |
| `owned` | `owned` (815): `entry().or_insert` keeps the first |
| `topLevel`, `resolve` | `top_level` (976), `resolve` (991) |
| `scopeTree` | `scope_tree` (1019) |
| `definitions` | `definitions` (1048) |

The two loops over the parents have fuel; `none` is a loop that would go on. The parent of a scope holds it and is
another, so where no two spans are equal it is larger, and the parents lead to the file (`exists_ancestry`).
-/

namespace HafleyScm.Rows

structure Capture where
  label : String
  text  : String
  start : Nat
  stop  : Nat
deriving DecidableEq, Repr

structure Scope where
  start  : Nat
  stop   : Nat
  parent : Option Nat
deriving DecidableEq, Repr

structure Scopes where
  scopes : List Scope
  nest   : Nest

structure Definition where
  name  : String
  kind  : String
  start : Nat
  stop  : Nat
  owner : Nat
  decl  : Span
deriving DecidableEq, Repr

def root : Nat := 0

def Scopes.containing (scopes : Scopes) (start stop : Nat) (skip : Option Nat) : Nat :=
  (scopes.nest.innermost start stop skip).getD root

def Scopes.parent (scopes : Scopes) (index : Nat) : Option Nat := (scopes.scopes[index]?).bind Scope.parent

def capturedSpans (captures : List Capture) : List Span := captures.map fun capture => (capture.start, capture.stop)

def scopeTree (fileEnd : Nat) (spans : List Capture) : Scopes :=
  let all := (0, fileEnd) :: capturedSpans spans
  let nest := Nest.new all
  { scopes := all.mapIdx fun index span =>
      { start := span.1, stop := span.2
        parent := if index = root then none
          else some ((nest.innermost span.1 span.2 (some index)).getD root) }
    nest }

/-! ## Definitions -/

def stripPrefix (front s : String) : Option String :=
  if front.toList <+: s.toList then some (.ofList (s.toList.drop front.toList.length)) else none

def define (scopes : Scopes) (spans : Nest) (capture : Capture) (kind : String) : Definition :=
  let direct := scopes.containing capture.start capture.stop none
  let around := (scopes.scopes[direct]?).elim direct fun scope =>
    scopes.containing scope.start scope.stop (some direct)
  { name := capture.text, kind, start := capture.start, stop := capture.stop
    owner := if kind = "function" ∨ kind = "type" then around else direct
    decl := ((spans.innermost capture.start capture.stop none).map (spanAt spans.spans)).getD
      (capture.start, capture.stop) }

def definitions (captures : List Capture) (scopes : Scopes) : List Definition :=
  let spans := Nest.new (capturedSpans (captures.filter fun capture => capture.label = "local.def.span"))
  captures.filterMap fun capture =>
    (stripPrefix "local.definition." capture.label).map (define scopes spans capture)

def owned (definitions : List Definition) (scope : Nat) (name : String) : Option Nat :=
  definitions.findIdx? fun d => d.owner = scope ∧ d.name = name

/-! ## The loops -/

def topLevel (scopes : Scopes) : Nat → Nat → Option Nat
  | 0, _ => none
  | fuel + 1, scope =>
    match scopes.parent scope with
    | some parent => if parent = root then some scope else topLevel scopes fuel parent
    | none        => some root

def resolveFrom (scopes : Scopes) (definitions : List Definition) (text : String) :
    Nat → Option Nat → Option (Option Definition)
  | 0, _ => none
  | _ + 1, none => some none
  | fuel + 1, some index =>
    match owned definitions index text with
    | some found => some definitions[found]?
    | none       => resolveFrom scopes definitions text fuel (scopes.parent index)

def resolve (fuel : Nat) (call : Capture) (scopes : Scopes) (definitions : List Definition) :
    Option (Option Definition) :=
  resolveFrom scopes definitions call.text fuel (some (scopes.containing call.start call.stop none))

/-! ## Ancestors -/

/-- A scope with all its ancestors. -/
inductive Ancestry (scopes : Scopes) : Nat → List Nat → Prop
  | top {scope : Nat} (h : scopes.parent scope = none) : Ancestry scopes scope [scope]
  | up {scope parent : Nat} {line : List Nat} (h : scopes.parent scope = some parent)
      (hline : Ancestry scopes parent line) : Ancestry scopes scope (scope :: line)

/-- The last scope before the file. -/
def outermost (line : List Nat) : Nat := line.dropLast.getLast?.getD root

/-- The first definition of a name that the first of some scopes to own one owns. -/
def firstOwned (definitions : List Definition) (name : String) (line : List Nat) : Option Definition :=
  line.findSome? fun scope => definitions.find? fun d => d.owner = scope ∧ d.name = name

section
variable {scopes : Scopes} {scope : Nat} {line : List Nat}

theorem Ancestry.unique {line' : List Nat} (h : Ancestry scopes scope line) (h' : Ancestry scopes scope line') :
    line = line' := by
  induction h generalizing line' with
  | top hnone =>
    cases h' with
    | top => rfl
    | up hsome => rw [hnone] at hsome; cases hsome
  | up hsome _ ih =>
    cases h' with
    | top hnone => rw [hnone] at hsome; cases hsome
    | up hsome' hline' =>
      rw [hsome, Option.some.injEq] at hsome'
      subst hsome'
      rw [ih hline']

theorem Ancestry.ne_nil (h : Ancestry scopes scope line) : line ≠ [] := by cases h <;> exact List.cons_ne_nil _ _

theorem Ancestry.head (h : Ancestry scopes scope line) : line.head? = some scope := by cases h <;> rfl

theorem getElem?_owned (definitions : List Definition) (scope : Nat) (name : String) :
    (owned definitions scope name).bind (definitions[·]?) =
      definitions.find? fun d => d.owner = scope ∧ d.name = name := by
  unfold owned
  induction definitions with
  | nil => rfl
  | cons d definitions ih =>
    rw [List.findIdx?_cons, List.find?_cons]
    by_cases hd : d.owner = scope ∧ d.name = name
    · simp [hd]
    · rw [decide_eq_false hd, if_neg Bool.false_ne_true, ← ih, Option.bind_map]
      rfl

theorem outermost_cons {line : List Nat} (h : line.dropLast ≠ []) : outermost (scope :: line) = outermost line := by
  have hline : line ≠ [] := by
    rintro rfl
    exact h rfl
  unfold outermost
  rw [List.dropLast_cons_of_ne_nil hline, List.getLast?_cons_of_ne_nil h]

theorem Ancestry.topLevel (h : Ancestry scopes scope line) (hlast : line.getLast? = some root)
    (hroot : scopes.parent root = none) {fuel : Nat} (hfuel : line.length ≤ fuel) :
    Rows.topLevel scopes fuel scope = some (outermost line) := by
  induction h generalizing fuel with
  | @top scope hnone =>
    cases fuel with
    | zero => cases hfuel
    | succ fuel =>
      unfold Rows.topLevel
      rw [hnone]
      rfl
  | @up scope parent line hsome hline ih =>
    cases fuel with
    | zero => cases hfuel
    | succ fuel =>
      rw [List.length_cons] at hfuel
      have hlast' : line.getLast? = some root := by
        rwa [List.getLast?_cons_of_ne_nil hline.ne_nil] at hlast
      unfold Rows.topLevel
      simp only [hsome]
      by_cases hparent : parent = root
      · subst hparent
        have hone : line = [root] := hline.unique (.top hroot)
        rw [if_pos rfl, hone]
        rfl
      · rw [if_neg hparent, ih hlast' (by omega), outermost_cons]
        intro hshort
        have hhead := hline.head
        cases line with
        | nil => cases hhead
        | cons x rest =>
          cases rest with
          | nil =>
            rw [List.head?_cons, Option.some.injEq] at hhead
            rw [List.getLast?_singleton, Option.some.injEq] at hlast'
            exact hparent (hhead ▸ hlast')
          | cons y rest => cases hshort

theorem owned_cases (definitions : List Definition) (scope : Nat) (name : String) :
    (owned definitions scope name = none ∧ definitions.find? (fun d => d.owner = scope ∧ d.name = name) = none) ∨
    ∃ found d, owned definitions scope name = some found ∧ definitions[found]? = some d ∧
      definitions.find? (fun d => d.owner = scope ∧ d.name = name) = some d := by
  rw [← getElem?_owned]
  cases hfound : owned definitions scope name with
  | none => exact Or.inl ⟨rfl, rfl⟩
  | some found =>
    obtain ⟨hlt, -⟩ := List.findIdx?_eq_some_iff_getElem.1 hfound
    have hat : definitions[found]? = some definitions[found] := List.getElem?_eq_getElem hlt
    exact Or.inr ⟨found, definitions[found], rfl, hat, hat⟩

theorem Ancestry.resolveFrom (h : Ancestry scopes scope line) {definitions : List Definition} {text : String}
    {fuel : Nat} (hfuel : line.length < fuel) :
    Rows.resolveFrom scopes definitions text fuel (some scope) = some (firstOwned definitions text line) := by
  induction h generalizing fuel with
  | @top scope hnone =>
    obtain ⟨fuel, rfl⟩ : ∃ rest, fuel = rest + 2 := ⟨fuel - 2, by simp only [List.length_singleton] at hfuel; omega⟩
    unfold Rows.resolveFrom firstOwned
    rw [List.findSome?_cons]
    obtain ⟨howned, hfind⟩ | ⟨found, d, howned, hat, hfind⟩ := owned_cases definitions scope text
    · simp only [howned, hfind, hnone, List.findSome?_nil]
      rfl
    · simp only [howned, hfind, hat]
  | @up scope parent line hsome hline ih =>
    obtain ⟨fuel, rfl⟩ : ∃ rest, fuel = rest + 1 := ⟨fuel - 1, by simp only [List.length_cons] at hfuel; omega⟩
    rw [List.length_cons] at hfuel
    unfold Rows.resolveFrom firstOwned
    rw [List.findSome?_cons]
    obtain ⟨howned, hfind⟩ | ⟨found, d, howned, hat, hfind⟩ := owned_cases definitions scope text
    · simp only [howned, hfind, hsome]
      exact ih (by omega)
    · simp only [howned, hfind, hat]

end

/-! ## The tree -/

section
variable {fileEnd : Nat} {captures : List Capture}

/-- The file and what is captured. -/
def allSpans (fileEnd : Nat) (captures : List Capture) : List Span := (0, fileEnd) :: capturedSpans captures

theorem scopeTree_nest : (scopeTree fileEnd captures).nest = Nest.new (allSpans fileEnd captures) := rfl

theorem scopeTree_parent {index : Nat} (h : index < (allSpans fileEnd captures).length) :
    (scopeTree fileEnd captures).parent index = if index = root then none
      else some ((scopeTree fileEnd captures).containing (spanAt (allSpans fileEnd captures) index).1
        (spanAt (allSpans fileEnd captures) index).2 (some index)) := by
  have hat : (allSpans fileEnd captures)[index]? = some (spanAt (allSpans fileEnd captures) index) := by
    unfold spanAt
    rw [List.getD_eq_getElem?_getD, List.getElem?_eq_getElem h, Option.getD_some]
  have hscope : (scopeTree fileEnd captures).scopes[index]? =
      (allSpans fileEnd captures)[index]?.map fun span =>
        { start := span.1, stop := span.2, parent := if index = root then none
            else some (((scopeTree fileEnd captures).nest.innermost span.1 span.2 (some index)).getD root) } :=
    List.getElem?_mapIdx
  unfold Scopes.parent Scopes.containing
  rw [hscope, hat]
  rfl

theorem root_parent : (scopeTree fileEnd captures).parent root = none := scopeTree_parent (Nat.succ_pos _)

theorem spans_differ (h : (capturedSpans captures).Nodup) {i j : Nat} (hi : i < (allSpans fileEnd captures).length)
    (hj : j < (allSpans fileEnd captures).length) (hi0 : i ≠ root) (hj0 : j ≠ root) (hne : i ≠ j) :
    spanAt (allSpans fileEnd captures) i ≠ spanAt (allSpans fileEnd captures) j := by
  intro heq
  obtain ⟨i, rfl⟩ := Nat.exists_eq_succ_of_ne_zero hi0
  obtain ⟨j, rfl⟩ := Nat.exists_eq_succ_of_ne_zero hj0
  unfold spanAt allSpans at heq
  simp only [List.getD_cons_succ] at heq
  have hi' : i < (capturedSpans captures).length := Nat.lt_of_succ_lt_succ hi
  have hj' : j < (capturedSpans captures).length := Nat.lt_of_succ_lt_succ hj
  rw [List.getD_eq_getElem _ _ hi', List.getD_eq_getElem _ _ hj', h.getElem_inj_iff] at heq
  exact hne (heq ▸ rfl)

/-- What contains a range is the file or holds it. -/
theorem containing_holds (hwf : WellFormed (allSpans fileEnd captures)) {start stop : Nat} (hle : start ≤ stop)
    (skip : Option Nat) : (scopeTree fileEnd captures).containing start stop skip = root ∨
      Holds (allSpans fileEnd captures) start stop skip ((scopeTree fileEnd captures).containing start stop skip) := by
  unfold Scopes.containing
  rw [scopeTree_nest]
  cases hfound : (Nest.new (allSpans fileEnd captures)).innermost start stop skip with
  | none => exact Or.inl rfl
  | some index =>
    refine Or.inr ?_
    rw [Option.getD_some]
    exact innermost_holds hwf hle hfound

def Encloses (spans : List Span) (outer inner : Nat) : Prop :=
  (spanAt spans outer).1 ≤ (spanAt spans inner).1 ∧ (spanAt spans inner).2 ≤ (spanAt spans outer).2

/-- Each is less than the ones behind it, or that is the file. -/
def Grows (spans : List Span) (line : List Nat) : Prop :=
  line.Pairwise fun a b => a ≠ b ∧ (b = root ∨ size spans a < size spans b)

/-- The parent of a scope is the file or holds it, and is another span. -/
theorem parent_cases (hwf : WellFormed (allSpans fileEnd captures)) (hdistinct : (capturedSpans captures).Nodup)
    {index parent : Nat} (hindex : index < (allSpans fileEnd captures).length)
    (h : (scopeTree fileEnd captures).parent index = some parent) :
    index ≠ root ∧ parent < (allSpans fileEnd captures).length ∧ (parent = root ∨
      size (allSpans fileEnd captures) index < size (allSpans fileEnd captures) parent ∧
      Encloses (allSpans fileEnd captures) parent index) := by
  rw [scopeTree_parent hindex] at h
  split_ifs at h with hroot
  have hcontains := containing_holds hwf (wellFormed_at hwf index) (some index)
  rw [Option.some.inj h] at hcontains
  refine ⟨hroot, ?_⟩
  rcases hcontains with rfl | ⟨hlt, hskip, hlo, hhi⟩
  · exact ⟨Nat.succ_pos _, Or.inl rfl⟩
  · refine ⟨hlt, ?_⟩
    by_cases hfile : parent = root
    · exact Or.inl hfile
    refine Or.inr ⟨?_, hlo, hhi⟩
    have hother := spans_differ hdistinct hlt hindex hfile hroot fun heq => hskip (congrArg some heq.symm)
    have hle := wellFormed_at hwf index
    unfold size
    rw [Ne, Prod.ext_iff] at hother
    omega

/-- From each scope the parents lead to the file, without coming back. -/
theorem exists_ancestry (hwf : WellFormed (allSpans fileEnd captures)) (hdistinct : (capturedSpans captures).Nodup)
    {index : Nat} (hindex : index < (allSpans fileEnd captures).length) :
    ∃ line, Ancestry (scopeTree fileEnd captures) index line ∧ line.getLast? = some root ∧
      Grows (allSpans fileEnd captures) line ∧
      ∀ x ∈ line, x < (allSpans fileEnd captures).length ∧ (x = root ∨
        size (allSpans fileEnd captures) index ≤ size (allSpans fileEnd captures) x ∧
        Encloses (allSpans fileEnd captures) x index) := by
  -- Of the spans fewer are larger than the parent.
  induction hm : ((Finset.range (allSpans fileEnd captures).length).filter fun j =>
      size (allSpans fileEnd captures) index < size (allSpans fileEnd captures) j).card
    using Nat.strong_induction_on generalizing index with
  | _ m ih =>
    have hroot : Ancestry (scopeTree fileEnd captures) root [root] := .top root_parent
    by_cases hfile : index = root
    · subst hfile
      refine ⟨[root], hroot, rfl, List.pairwise_singleton _ _, fun x hx => ?_⟩
      rw [List.mem_singleton] at hx
      subst hx
      exact ⟨hindex, Or.inl rfl⟩
    obtain ⟨parent, hsome⟩ : ∃ parent, (scopeTree fileEnd captures).parent index = some parent := by
      rw [scopeTree_parent hindex, if_neg hfile]
      exact ⟨_, rfl⟩
    obtain ⟨-, hlt, hcases⟩ := parent_cases hwf hdistinct hindex hsome
    rcases hcases with rfl | ⟨hsize, henc⟩
    · refine ⟨[index, root], .up hsome hroot, rfl, List.pairwise_pair.2 ⟨hfile, Or.inl rfl⟩, fun x hx => ?_⟩
      rw [List.mem_pair] at hx
      rcases hx with rfl | rfl
      · exact ⟨hindex, Or.inr ⟨le_rfl, le_rfl, le_rfl⟩⟩
      · exact ⟨hlt, Or.inl rfl⟩
    · have hfewer : ((Finset.range (allSpans fileEnd captures).length).filter fun j =>
          size (allSpans fileEnd captures) parent < size (allSpans fileEnd captures) j).card < m := by
        rw [← hm]
        refine Finset.card_lt_card (Finset.ssubset_iff_subset_ne.2 ⟨fun j hj => ?_, fun heq => ?_⟩)
        · rw [Finset.mem_filter] at hj ⊢
          exact ⟨hj.1, hsize.trans hj.2⟩
        · have hmem := (Finset.ext_iff.1 heq parent).2 (Finset.mem_filter.2 ⟨Finset.mem_range.2 hlt, hsize⟩)
          exact absurd (Finset.mem_filter.1 hmem).2 (lt_irrefl _)
      obtain ⟨line, hline, hlast, hgrows, hmem⟩ := ih _ hfewer hlt rfl
      refine ⟨index :: line, .up hsome hline, ?_, ?_, fun x hx => ?_⟩
      · rwa [List.getLast?_cons_of_ne_nil hline.ne_nil]
      · refine List.pairwise_cons.2 ⟨fun x hx => ?_, hgrows⟩
        rcases (hmem x hx).2 with rfl | ⟨hle, -⟩
        · exact ⟨hfile, Or.inl rfl⟩
        · have hlarger := hsize.trans_le hle
          exact ⟨fun heq => (heq ▸ hlarger).false, Or.inr hlarger⟩
      · rcases List.mem_cons.1 hx with rfl | hx
        · exact ⟨hindex, Or.inr ⟨le_rfl, le_rfl, le_rfl⟩⟩
        · refine (hmem x hx).imp_right (Or.imp_right fun ⟨hle, hx⟩ => ?_)
          exact ⟨hsize.le.trans hle, hx.1.trans henc.1, henc.2.trans hx.2⟩

theorem encloses_file (hdistinct : (allSpans fileEnd captures).Nodup)
    (hinside : ∀ capture ∈ captures, capture.stop ≤ fileEnd) {j : Nat} (hj : j < (allSpans fileEnd captures).length)
    (henc : Encloses (allSpans fileEnd captures) j root) : j = root := by
  have hat : spanAt (allSpans fileEnd captures) j = (allSpans fileEnd captures)[j] := List.getD_eq_getElem _ _ hj
  have hstop : (spanAt (allSpans fileEnd captures) j).2 ≤ fileEnd := by
    rw [hat]
    rcases List.mem_cons.1 (List.getElem_mem hj) with hfile | hcaptured
    · rw [hfile]
    · obtain ⟨capture, hcapture, heq⟩ := List.mem_map.1 hcaptured
      rw [← heq]
      exact hinside capture hcapture
  have hfile : spanAt (allSpans fileEnd captures) j = (0, fileEnd) :=
    Prod.ext (Nat.le_zero.1 henc.1) (hstop.antisymm henc.2)
  rw [hat] at hfile
  have hpos : root < (allSpans fileEnd captures).length := Nat.succ_pos _
  have hsame : (allSpans fileEnd captures)[j] = (allSpans fileEnd captures)[root] := hfile
  exact hdistinct.getElem_inj_iff.1 hsame

/-- Two spans that hold a range with extent are nested. -/
theorem encloses_of_smaller {spans : List Span} (hnested : ¬ Crosses spans) {start stop a b : Nat} {skip : Option Nat}
    (hwide : start < stop) (ha : Holds spans start stop skip a) (hb : Holds spans start stop skip b)
    (hsmaller : Smaller spans a b) : Encloses spans b a := by
  obtain ⟨halt, -, halo, hahi⟩ := ha
  obtain ⟨hblt, -, hblo, hbhi⟩ := hb
  have hab : ¬ ((spanAt spans a).1 < (spanAt spans b).1 ∧ (spanAt spans b).1 < (spanAt spans a).2 ∧
      (spanAt spans a).2 < (spanAt spans b).2) := fun h => hnested ⟨a, halt, b, hblt, h⟩
  have hba : ¬ ((spanAt spans b).1 < (spanAt spans a).1 ∧ (spanAt spans a).1 < (spanAt spans b).2 ∧
      (spanAt spans b).2 < (spanAt spans a).2) := fun h => hnested ⟨b, hblt, a, halt, h⟩
  unfold Smaller size at hsmaller
  unfold Encloses
  omega

theorem containing_smallest (hwf : WellFormed (allSpans fileEnd captures)) {start stop index : Nat}
    {skip : Option Nat} (hwide : start < stop) (h : Holds (allSpans fileEnd captures) start stop skip index) :
    Smallest (allSpans fileEnd captures) start stop skip
      ((scopeTree fileEnd captures).containing start stop skip) := by
  obtain ⟨least, hleast, -⟩ := exists_smallest h
  have hanswers : Answers (allSpans fileEnd captures) start stop skip :=
    (answers_iff hwf hwide.le).2 (Or.inr fun i _ hends => absurd hends.1 hwide.ne)
  unfold Scopes.containing
  rw [scopeTree_nest, (hanswers least).2 hleast, Option.getD_some]
  exact hleast

/-- In a nested set within the file all that encloses a scope is on its line. -/
theorem Ancestry.mem_of_encloses {index : Nat} {line : List Nat}
    (h : Ancestry (scopeTree fileEnd captures) index line) (hwf : WellFormed (allSpans fileEnd captures))
    (hnested : ¬ Crosses (allSpans fileEnd captures)) (hdistinct : (allSpans fileEnd captures).Nodup)
    (hinside : ∀ capture ∈ captures, capture.stop ≤ fileEnd) (hindex : index < (allSpans fileEnd captures).length)
    (hwide : (spanAt (allSpans fileEnd captures) index).1 < (spanAt (allSpans fileEnd captures) index).2) {j : Nat}
    (hj : j < (allSpans fileEnd captures).length) (hfile : j ≠ root)
    (henc : Encloses (allSpans fileEnd captures) j index) : j ∈ line := by
  induction h with
  | @top index hnone =>
    rw [scopeTree_parent hindex] at hnone
    split_ifs at hnone with hroot
    subst hroot
    exact absurd (encloses_file hdistinct hinside hj henc) hfile
  | @up index parent line hsome hline ih =>
    by_cases hself : j = index
    · exact hself ▸ List.mem_cons_self ..
    refine List.mem_cons_of_mem _ ?_
    have hholds : Holds (allSpans fileEnd captures) (spanAt (allSpans fileEnd captures) index).1
        (spanAt (allSpans fileEnd captures) index).2 (some index) j :=
      ⟨hj, fun heq => hself (Option.some.inj heq).symm, henc⟩
    obtain ⟨hparent, hsmaller⟩ : Holds (allSpans fileEnd captures) (spanAt (allSpans fileEnd captures) index).1
        (spanAt (allSpans fileEnd captures) index).2 (some index) parent ∧
        Smaller (allSpans fileEnd captures) parent j := by
      rw [scopeTree_parent hindex] at hsome
      split_ifs at hsome
      rw [← Option.some.inj hsome]
      have hleast := containing_smallest hwf hwide hholds
      exact ⟨hleast.1, hleast.2 j hholds⟩
    have hinner := encloses_of_smaller hnested hwide hparent hholds hsmaller
    obtain ⟨hlt, -, hlo, hhi⟩ := hparent
    exact ih hlt (by omega) hinner

theorem length_le_of_grows {spans : List Span} {line : List Nat} (h : Grows spans line)
    (hlt : ∀ x ∈ line, x < spans.length) : line.length ≤ spans.length := by
  have hnodup : line.Nodup := h.imp And.left
  have hsub : line ⊆ List.range spans.length := fun x hx => List.mem_range.2 (hlt x hx)
  have hle := (hnodup.subperm hsub).length_le
  rwa [List.length_range] at hle

/-! ## A call -/

/-- The lookup of a call ends: with the definition that the first of the ancestors to own one owns. -/
theorem exists_lookup (hwf : WellFormed (allSpans fileEnd captures)) (hdistinct : (capturedSpans captures).Nodup)
    {call : Capture} (hcall : call.start ≤ call.stop) (definitions : List Definition) :
    ∃ line, Ancestry (scopeTree fileEnd captures)
        ((scopeTree fileEnd captures).containing call.start call.stop none) line ∧
      line.getLast? = some root ∧ Grows (allSpans fileEnd captures) line ∧
      (∀ x ∈ line, x = root ∨ Holds (allSpans fileEnd captures) call.start call.stop none x) ∧
      ∀ fuel, (allSpans fileEnd captures).length < fuel →
        resolve fuel call (scopeTree fileEnd captures) definitions = some (firstOwned definitions call.text line) := by
  have hcontains := containing_holds hwf hcall none
  have hlt : (scopeTree fileEnd captures).containing call.start call.stop none <
      (allSpans fileEnd captures).length := by
    rcases hcontains with hfile | hholds
    · rw [hfile]
      exact Nat.succ_pos _
    · exact hholds.1
  obtain ⟨line, hline, hlast, hgrows, hmem⟩ := exists_ancestry hwf hdistinct hlt
  refine ⟨line, hline, hlast, hgrows, fun x hx => ?_, fun fuel hfuel => ?_⟩
  · obtain ⟨hxlt, hroot | ⟨-, henc⟩⟩ := hmem x hx
    · exact Or.inl hroot
    · rcases hcontains with hfile | ⟨-, -, hlo, hhi⟩
      · rw [hfile] at hline
        rw [hline.unique (.top root_parent), List.mem_singleton] at hx
        exact Or.inl hx
      · exact Or.inr ⟨hxlt, nofun, henc.1.trans hlo, hhi.trans henc.2⟩
  · have hle := length_le_of_grows hgrows fun x hx => (hmem x hx).1
    exact hline.resolveFrom (hle.trans_lt hfuel)

theorem exists_topLevel (hwf : WellFormed (allSpans fileEnd captures)) (hdistinct : (capturedSpans captures).Nodup)
    {index : Nat} (hindex : index < (allSpans fileEnd captures).length) :
    ∃ line, Ancestry (scopeTree fileEnd captures) index line ∧ line.getLast? = some root ∧
      ∀ fuel, (allSpans fileEnd captures).length ≤ fuel →
        topLevel (scopeTree fileEnd captures) fuel index = some (outermost line) := by
  obtain ⟨line, hline, hlast, hgrows, hmem⟩ := exists_ancestry hwf hdistinct hindex
  have hle := length_le_of_grows hgrows fun x hx => (hmem x hx).1
  exact ⟨line, hline, hlast, fun fuel hfuel => hline.topLevel hlast root_parent (hle.trans hfuel)⟩

/-- In a nested set within the file the ancestors are all the scopes that hold the call. -/
theorem mem_lookup (hwf : WellFormed (allSpans fileEnd captures)) (hnested : ¬ Crosses (allSpans fileEnd captures))
    (hdistinct : (allSpans fileEnd captures).Nodup) (hinside : ∀ capture ∈ captures, capture.stop ≤ fileEnd)
    {call : Capture} (hcall : call.start < call.stop) {line : List Nat} (hline : Ancestry (scopeTree fileEnd captures)
      ((scopeTree fileEnd captures).containing call.start call.stop none) line) (hlast : line.getLast? = some root)
    {j : Nat} (hj : Holds (allSpans fileEnd captures) call.start call.stop none j) : j ∈ line := by
  by_cases hfile : j = root
  · exact hfile ▸ List.mem_of_getLast? hlast
  have hleast := containing_smallest hwf hcall hj
  have hinner := encloses_of_smaller hnested hcall hleast.1 hj (hleast.2 j hj)
  obtain ⟨hlt, -, hlo, hhi⟩ := hleast.1
  exact hline.mem_of_encloses hwf hnested hdistinct hinside hlt (by omega) hj.1 hfile hinner

end

/-! ## Both -/

/-- **The nest answers as the scan does exactly where spans cross, or where none that ends at an empty range is the
smallest to hold it; and of distinct scopes each has the file as its last ancestor, so both loops end, the lookup with
what the first ancestor to own a definition of the name owns first** -/
theorem nest_and_scopes {spans : List Span} {start stop : Nat} {skip : Option Nat} {fileEnd : Nat}
    {captures : List Capture} (hwf : WellFormed spans) (hle : start ≤ stop)
    (hwf' : WellFormed (allSpans fileEnd captures)) (hdistinct : (capturedSpans captures).Nodup) :
    (Answers spans start stop skip ↔ Crosses spans ∨ Settled spans start stop skip) ∧
    (∀ index < (allSpans fileEnd captures).length, ∃ line, Ancestry (scopeTree fileEnd captures) index line ∧
      line.getLast? = some root ∧ ∀ fuel, (allSpans fileEnd captures).length ≤ fuel →
        topLevel (scopeTree fileEnd captures) fuel index = some (outermost line)) ∧
    ∀ (call : Capture) (definitions : List Definition), call.start ≤ call.stop →
      ∃ line, Ancestry (scopeTree fileEnd captures)
          ((scopeTree fileEnd captures).containing call.start call.stop none) line ∧
        Grows (allSpans fileEnd captures) line ∧
        (∀ x ∈ line, x = root ∨ Holds (allSpans fileEnd captures) call.start call.stop none x) ∧
        (¬ Crosses (allSpans fileEnd captures) → (allSpans fileEnd captures).Nodup →
          (∀ capture ∈ captures, capture.stop ≤ fileEnd) → call.start < call.stop →
          ∀ x, Holds (allSpans fileEnd captures) call.start call.stop none x → x ∈ line) ∧
        ∀ fuel, (allSpans fileEnd captures).length < fuel →
          resolve fuel call (scopeTree fileEnd captures) definitions =
            some (firstOwned definitions call.text line) := by
  refine ⟨answers_iff hwf hle, fun index hindex => exists_topLevel hwf' hdistinct hindex,
    fun call definitions hcall => ?_⟩
  obtain ⟨line, hline, hlast, hgrows, hholds, hlookup⟩ := exists_lookup hwf' hdistinct hcall definitions
  refine ⟨line, hline, hgrows, hholds, fun hnested hall hinside hwide x hx => ?_, hlookup⟩
  exact mem_lookup hwf' hnested hall hinside hwide hline hlast hx

theorem touching_settled : Answers [(0, 4), (4, 9)] 4 5 none ∧
    ∃ line, Ancestry (scopeTree 9 [⟨"local.scope", "", 0, 4⟩, ⟨"local.scope", "", 4, 9⟩]) 2 line ∧
      line.getLast? = some root ∧ ∀ fuel, 3 ≤ fuel →
        topLevel (scopeTree 9 [⟨"local.scope", "", 0, 4⟩, ⟨"local.scope", "", 4, 9⟩]) fuel 2 =
          some (outermost line) := by
  have h := @nest_and_scopes [(0, 4), (4, 9)] 4 5 none 9
    [⟨"local.scope", "", 0, 4⟩, ⟨"local.scope", "", 4, 9⟩] (by simp [WellFormed]) (by decide)
    (by simp [WellFormed, allSpans, capturedSpans]) (by decide)
  exact ⟨h.1.2 (Or.inr fun i _ hends => absurd hends.1 (by decide)), h.2.1 2 (by decide)⟩

/-- Of two touching spans of one size the scan takes the first at the place where they touch, the walk the second. -/
theorem touching_differ : WellFormed [(0, 5), (5, 10)] ∧ (Nest.new [(0, 5), (5, 10)]).scan 5 5 none = some 0 ∧
    (Nest.new [(0, 5), (5, 10)]).innermost 5 5 none = some 1 ∧ ¬ Answers [(0, 5), (5, 10)] 5 5 none := by
  have hwf : WellFormed [(0, 5), (5, 10)] := by simp [WellFormed]
  have hscan : (Nest.new [(0, 5), (5, 10)]).scan 5 5 none = some 0 := by decide
  have hwalk : (Nest.new [(0, 5), (5, 10)]).innermost 5 5 none = some 1 := by
    refine (innermost_nested hwf (by decide) le_rfl).2 ⟨⟨by decide, fun hends => absurd hends.2.1 (by decide)⟩, ?_⟩
    intro j hj hstays
    obtain ⟨hlt, -⟩ := hj
    match j, hlt with
    | 0, _ => exact absurd ⟨rfl, by decide, by decide, 1, by decide, by decide, by decide⟩ hstays
    | 1, _ => exact smaller_refl 1
  refine ⟨hwf, hscan, hwalk, fun hanswers => ?_⟩
  have hfirst := (hanswers 0).2 (scan_eq_some.1 hscan)
  rw [hwalk] at hfirst
  cases hfirst

end HafleyScm.Rows
