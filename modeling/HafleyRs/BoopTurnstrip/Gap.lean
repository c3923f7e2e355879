import HafleyRs.BoopTurnvis.Lines
import HafleyRs.Lib.Cuts

/-!
# The visible tool gap (`crates/boop-turnstrip/src/_3a_gap.rs`)

| here | there |
| --- | --- |
| `TurnKind`, `TurnRow` | `_0_types.rs:16`, 88 |
| `Viewport` | `boop-mux/src/_0_snapshot.rs:78` |
| `drawnAtAll` | `drawn_at_all` (`_3_layout.rs:92`) |
| `splitAt'`, `visibleGap` | the closure of `flat_map` and `visible_gap` (`_3a_gap.rs:10`, 3) |

An `i64` is an `Int`, and `asI64` wraps the two sums. A conversation turn whose rows are the wrong way round covers no
row and still cuts an interval in two that overlap, so a gap is a longest run only where none is
(`visibleGap_exact`, `inverted_turn_splits`).
-/

namespace BoopTurnstrip
open BoopTurnvis (Text)

inductive TurnKind where
  | user | agent | tool | other
deriving DecidableEq, Repr

structure TurnRow where
  id    : Text
  kind  : TurnKind
  total : Int
  (start end' lines : Int)
deriving DecidableEq, Repr

structure Viewport where
  (top bottom : Int)
deriving DecidableEq, Repr

structure ToolGap where
  beforeId : Option Text
  afterId  : Option Text
  startRow : Int
  endRow   : Int
deriving DecidableEq, Repr

def drawnAtAll (kind : TurnKind) : Bool := kind = .user || kind = .agent

def asI64 (n : Int) : Int := n.bmod (2 ^ 64)

/-- `Iterator::reduce`, where `keeps` says whether the best so far stays -/
def reduce (keeps : TurnRow → TurnRow → Bool) (rows : List TurnRow) : Option TurnRow :=
  rows.foldl (fun best row => some (best.elim row fun b => if keeps b row then b else row)) none

/-- `Iterator::max_by_key`: the last of the greatest -/
def maxByKey (key : TurnRow → Int) (rows : List TurnRow) : Option TurnRow := reduce (fun b row => key row < key b) rows

/-- `Iterator::min_by_key`: the first of the least -/
def minByKey (key : TurnRow → Int) (rows : List TurnRow) : Option TurnRow := reduce (fun b row => key b ≤ key row) rows

/-- An interval without the rows of a conversation turn. -/
def splitAt' (conversation : TurnRow) (p : Int × Int) : List (Int × Int) :=
  if conversation.end' < p.1 ∨ conversation.start > p.2 then [p]
  else [(p.1, asI64 (conversation.start - 1)), (asI64 (conversation.end' + 1), p.2)]

def intervals (rows : List TurnRow) (viewport : Viewport) (tool : TurnRow) : List (Int × Int) :=
  (rows.filter fun row => drawnAtAll row.kind).foldl
    (fun intervals conversation => (intervals.flatMap (splitAt' conversation)).filter fun p => p.1 ≤ p.2)
    [(max tool.start viewport.top, min tool.end' viewport.bottom)]

def gapOf (rows : List TurnRow) (p : Int × Int) : ToolGap where
  beforeId := (maxByKey (·.end') (rows.filter fun row => drawnAtAll row.kind && row.end' < p.1)).map (·.id)
  afterId := (minByKey (·.start) (rows.filter fun row => drawnAtAll row.kind && row.start > p.2)).map (·.id)
  startRow := p.1
  endRow := p.2

def visibleGap (rows : List TurnRow) (viewport : Viewport) : Option ToolGap :=
  (rows.filter fun row => row.kind = .tool).findSome? fun tool =>
    ((intervals rows viewport tool).find? fun p => p.1 ≤ p.2).map (gapOf rows)

/-! ## The nearest turns -/

/-- The turn is one of those that qualify, and none of them is nearer. -/
def Nearest (rows : List TurnRow) (qualifies : TurnRow → Prop) (distance : TurnRow → Int) : Option Text → Prop
  | none => ∀ row ∈ rows, ¬qualifies row
  | some id => ∃ row ∈ rows, row.id = id ∧ qualifies row ∧ ∀ other ∈ rows, qualifies other → distance row ≤ distance other

section
variable {keeps : TurnRow → TurnRow → Bool} {distance : TurnRow → Int}

theorem reduce_concat (rows : List TurnRow) (row : TurnRow) : reduce keeps (rows ++ [row]) =
    some ((reduce keeps rows).elim row fun b => if keeps b row then b else row) := by
  rw [reduce, List.foldl_concat, ← reduce]

theorem reduce_spec (hkeep : ∀ b row, keeps b row = true → distance b ≤ distance row)
    (hdrop : ∀ b row, keeps b row = false → distance row ≤ distance b) : ∀ (rows : List TurnRow),
    (reduce keeps rows = none ↔ rows = []) ∧
      ∀ best, reduce keeps rows = some best → best ∈ rows ∧ ∀ other ∈ rows, distance best ≤ distance other := by
  intro rows
  induction rows using List.reverseRecOn with
  | nil => exact ⟨by simp [reduce], fun best h => by cases h⟩
  | append_singleton rows row ih =>
    refine ⟨by simp [reduce_concat], fun best h => ?_⟩
    rw [reduce_concat] at h
    cases hrows : reduce keeps rows with
    | none =>
      rw [hrows, Option.elim_none, Option.some.injEq] at h
      rw [ih.1.1 hrows]
      simp [h]
    | some b =>
      obtain ⟨hb, hleast⟩ := ih.2 b hrows
      rw [hrows, Option.elim_some, Option.some.injEq] at h
      cases hk : keeps b row with
      | true =>
        rw [hk, if_pos rfl] at h
        subst h
        refine ⟨List.mem_append_left _ hb, fun other hother => ?_⟩
        rcases List.mem_append.1 hother with hother | hother
        · exact hleast other hother
        · rw [List.mem_singleton.1 hother]
          exact hkeep b row hk
      | false =>
        rw [hk, if_neg (by simp)] at h
        subst h
        refine ⟨by simp, fun other hother => ?_⟩
        rcases List.mem_append.1 hother with hother | hother
        · exact (hdrop b row hk).trans (hleast other hother)
        · rw [List.mem_singleton.1 hother]

variable (keeps distance) in
theorem nearest_reduce (hkeep : ∀ b row, keeps b row = true → distance b ≤ distance row)
    (hdrop : ∀ b row, keeps b row = false → distance row ≤ distance b) (rows : List TurnRow)
    (qualifies : TurnRow → Bool) :
    Nearest rows (fun row => qualifies row = true) distance ((reduce keeps (rows.filter qualifies)).map (·.id)) := by
  obtain ⟨hnone, hsome⟩ := reduce_spec hkeep hdrop (rows.filter qualifies)
  cases hbest : reduce keeps (rows.filter qualifies) with
  | none => exact List.filter_eq_nil_iff.1 (hnone.1 hbest)
  | some best =>
    obtain ⟨hmem, hleast⟩ := hsome best hbest
    obtain ⟨hin, hqualifies⟩ := List.mem_filter.1 hmem
    exact ⟨best, hin, rfl, hqualifies, fun other hother h => hleast other (List.mem_filter.2 ⟨hother, h⟩)⟩

end

/-- The turns named are the nearest that end before the gap and start after it. -/
theorem gapOf_nearest (rows : List TurnRow) (p : Int × Int) :
    Nearest rows (fun row => drawnAtAll row.kind = true ∧ row.end' < p.1) (fun row => p.1 - row.end')
        (gapOf rows p).beforeId ∧
      Nearest rows (fun row => drawnAtAll row.kind = true ∧ p.2 < row.start) (fun row => row.start - p.2)
        (gapOf rows p).afterId := by
  constructor
  · have h := nearest_reduce (fun b row => row.end' < b.end') (fun row => p.1 - row.end')
      (fun b row h => by simp at h; omega) (fun b row h => by simp at h; omega) rows
      fun row => drawnAtAll row.kind && row.end' < p.1
    simp only [Bool.and_eq_true, decide_eq_true_eq] at h
    exact h
  · have h := nearest_reduce (fun b row => b.start ≤ row.start) (fun row => row.start - p.2)
      (fun b row h => by simp at h; omega) (fun b row h => by simp at h; omega) rows
      fun row => drawnAtAll row.kind && row.start > p.2
    simp only [Bool.and_eq_true, decide_eq_true_eq] at h
    exact h

/-! ## What the cuts leave -/

/-- A row of the tool in the viewport that no conversation turn covers. -/
def Bare (rows : List TurnRow) (viewport : Viewport) (tool : TurnRow) (r : Int) : Prop :=
  (tool.start ≤ r ∧ r ≤ tool.end') ∧ (viewport.top ≤ r ∧ r ≤ viewport.bottom) ∧
    ∀ row ∈ rows, drawnAtAll row.kind = true → ¬(row.start ≤ r ∧ r ≤ row.end')

/-- The row before a conversation turn and the row after it are rows of `i64`. -/
@[mk_iff]
structure Bounded (row : TurnRow) : Prop where
  start : -2 ^ 63 < row.start ∧ row.start < 2 ^ 63
  last  : -2 ^ 63 ≤ row.end' ∧ row.end' < 2 ^ 63 - 1

section
variable {rows : List TurnRow} {viewport : Viewport} {tool : TurnRow}

theorem splitAt_eq {row : TurnRow} (h : Bounded row) (p : Int × Int) :
    splitAt' row p = Cuts.cut (row.start, row.end') p := by
  have hstart := h.start
  have hend := h.last
  have hbefore : asI64 (row.start - 1) = row.start - 1 := Int.bmod_eq_of_le (by omega) (by omega)
  have hafter : asI64 (row.end' + 1) = row.end' + 1 := Int.bmod_eq_of_le (by omega) (by omega)
  rw [splitAt', Cuts.cut, hbefore, hafter]

theorem intervals_eq (h : ∀ row ∈ rows, drawnAtAll row.kind = true → Bounded row) : intervals rows viewport tool =
    Cuts.cutAll ((rows.filter fun row => drawnAtAll row.kind).map fun row => (row.start, row.end'))
      [(max tool.start viewport.top, min tool.end' viewport.bottom)] := by
  have hdrawn : ∀ row ∈ rows.filter (fun row => drawnAtAll row.kind), Bounded row := by
    intro row hrow
    obtain ⟨hin, hkind⟩ := List.mem_filter.1 hrow
    exact h row hin hkind
  rw [intervals, Cuts.cutAll, List.foldl_map]
  refine List.foldl_ext _ _ _ fun ps row hrow => ?_
  rw [funext (splitAt_eq (hdrawn row hrow))]

/-- **The rows left are the bare ones.** -/
theorem within_intervals (h : ∀ row ∈ rows, drawnAtAll row.kind = true → Bounded row) (r : Int) :
    (∃ p ∈ intervals rows viewport tool, Cuts.Within r p) ↔ Bare rows viewport tool r := by
  rw [intervals_eq h, Cuts.within_cutAll]
  simp only [List.mem_singleton, exists_eq_left, Cuts.Within, List.forall_mem_map, List.mem_filter, and_imp, Bare]
  constructor
  · rintro ⟨hclip, hcover⟩
    exact ⟨by omega, by omega, hcover⟩
  · rintro ⟨hspan, hview, hcover⟩
    exact ⟨by omega, hcover⟩

theorem intervals_apart (h : ∀ row ∈ rows, drawnAtAll row.kind = true → Bounded row)
    (hspan : ∀ row ∈ rows, drawnAtAll row.kind = true → row.start ≤ row.end') :
    Cuts.Apart (intervals rows viewport tool) := by
  rw [intervals_eq h]
  refine Cuts.apart_cutAll ?_ (List.pairwise_singleton _ _)
  simp only [List.forall_mem_map, List.mem_filter, and_imp]
  exact hspan

end

/-- The gap is of bare rows of the tool, and names the nearest turns. -/
structure GapIn (rows : List TurnRow) (viewport : Viewport) (tool : TurnRow) (gap : ToolGap) : Prop where
  some'  : gap.startRow ≤ gap.endRow
  bare   : ∀ r, gap.startRow ≤ r → r ≤ gap.endRow → Bare rows viewport tool r
  before : Nearest rows (fun row => drawnAtAll row.kind = true ∧ row.end' < gap.startRow)
    (fun row => gap.startRow - row.end') gap.beforeId
  after  : Nearest rows (fun row => drawnAtAll row.kind = true ∧ gap.endRow < row.start)
    (fun row => row.start - gap.endRow) gap.afterId

section
variable {rows : List TurnRow} {viewport : Viewport} {tool : TurnRow}

/-- The interval found is none iff the tool has no bare row. -/
theorem find_eq_none_iff (h : ∀ row ∈ rows, drawnAtAll row.kind = true → Bounded row) :
    (intervals rows viewport tool).find? (fun p => p.1 ≤ p.2) = none ↔ ∀ r, ¬Bare rows viewport tool r := by
  rw [List.find?_eq_none]
  constructor
  · intro hempty r hr
    obtain ⟨p, hp, hin⟩ := (within_intervals h r).2 hr
    exact hempty p hp (decide_eq_true (hin.1.trans hin.2))
  · intro hnone p hp hsome
    exact hnone p.1 ((within_intervals h p.1).1 ⟨p, hp, le_rfl, of_decide_eq_true hsome⟩)

/-- The interval found is of bare rows. -/
theorem gapIn_of_find (h : ∀ row ∈ rows, drawnAtAll row.kind = true → Bounded row) {p : Int × Int}
    (hfind : (intervals rows viewport tool).find? (fun p => p.1 ≤ p.2) = some p) :
    GapIn rows viewport tool (gapOf rows p) := by
  have hp := List.mem_of_find?_eq_some hfind
  have hsome := List.find?_some hfind
  obtain ⟨hbefore, hafter⟩ := gapOf_nearest rows p
  refine ⟨of_decide_eq_true hsome, ?_, hbefore, hafter⟩
  intro r hstart hend
  exact (within_intervals h r).1 ⟨p, hp, hstart, hend⟩

theorem run_of_find (h : ∀ row ∈ rows, drawnAtAll row.kind = true → Bounded row)
    (hspan : ∀ row ∈ rows, drawnAtAll row.kind = true → row.start ≤ row.end') {p : Int × Int}
    (hfind : (intervals rows viewport tool).find? (fun p => p.1 ≤ p.2) = some p) :
    Cuts.Run (Bare rows viewport tool) p := by
  have hsome := List.find?_some hfind
  have hrun := (intervals_apart h hspan).run (List.mem_of_find?_eq_some hfind) (of_decide_eq_true hsome)
  rwa [funext fun r => propext (within_intervals h r)] at hrun

end

/-- **The visible tool gap is exact**: there is one iff some tool has a bare row, and it is of rows of the first tool
that has; where no conversation turn's rows are the wrong way round, it is a run that cannot be made longer. -/
theorem visibleGap_exact (rows : List TurnRow) (viewport : Viewport)
    (h : ∀ row ∈ rows, drawnAtAll row.kind = true → Bounded row) :
    ((visibleGap rows viewport).isSome = true ↔
      ∃ tool ∈ rows, tool.kind = .tool ∧ ∃ r, Bare rows viewport tool r) ∧
    ∀ gap, visibleGap rows viewport = some gap → ∃ earlier tool later, rows = earlier ++ tool :: later ∧
      tool.kind = .tool ∧ (∀ other ∈ earlier, other.kind = .tool → ∀ r, ¬Bare rows viewport other r) ∧
      GapIn rows viewport tool gap ∧
      ((∀ row ∈ rows, drawnAtAll row.kind = true → row.start ≤ row.end') →
        Cuts.Run (Bare rows viewport tool) (gap.startRow, gap.endRow)) := by
  constructor
  · rw [visibleGap, Option.isSome_iff_ne_none, Ne, List.findSome?_eq_none_iff]
    simp only [List.mem_filter, decide_eq_true_eq, Option.map_eq_none_iff, find_eq_none_iff h, and_imp]
    push Not
    rfl
  · intro gap hgap
    rw [visibleGap] at hgap
    obtain ⟨front, tool, back, hsplit, hfound, hnone⟩ := List.findSome?_eq_some_iff.1 hgap
    obtain ⟨p, hfind, rfl⟩ := Option.map_eq_some_iff.1 hfound
    obtain ⟨start, rest, rfl, rfl, hrest⟩ := List.filter_eq_append_iff.1 hsplit
    obtain ⟨between, later, rfl, hbetween, htool, -⟩ := List.filter_eq_cons_iff.1 hrest
    refine ⟨start ++ between, tool, later, by simp, of_decide_eq_true htool, ?_, gapIn_of_find h hfind,
      fun hspan => run_of_find h hspan hfind⟩
    intro other hother hkind
    rcases List.mem_append.1 hother with hother | hother
    · have hskip := hnone other (List.mem_filter.2 ⟨hother, decide_eq_true hkind⟩)
      exact (find_eq_none_iff h).1 (Option.map_eq_none_iff.1 hskip)
    · exact absurd (decide_eq_true hkind) (hbetween other hother)

/-! ## A turn the wrong way round -/

def turnRow (id : String) (kind : TurnKind) (start end' : Int) : TurnRow := ⟨id.toList, kind, 1, start, end', 1⟩

/-- A tool between two turns, the middle of it covered by a third. -/
def halfCovered : List TurnRow :=
  [turnRow "a" .user 0 1, turnRow "tool" .tool 2 9, turnRow "b" .agent 4 5, turnRow "c" .agent 10 12]

theorem halfCovered_bounded : ∀ row ∈ halfCovered, drawnAtAll row.kind = true → Bounded row := by
  simp [halfCovered, turnRow, drawnAtAll, bounded_iff]

theorem visibleGap_exact_halfCovered :
    ((visibleGap halfCovered ⟨0, 12⟩).isSome = true ↔
      ∃ tool ∈ halfCovered, tool.kind = .tool ∧ ∃ r, Bare halfCovered ⟨0, 12⟩ tool r) ∧
    ∀ gap, visibleGap halfCovered ⟨0, 12⟩ = some gap → ∃ earlier tool later, halfCovered = earlier ++ tool :: later ∧
      tool.kind = .tool ∧ (∀ other ∈ earlier, other.kind = .tool → ∀ r, ¬Bare halfCovered ⟨0, 12⟩ other r) ∧
      GapIn halfCovered ⟨0, 12⟩ tool gap ∧
      ((∀ row ∈ halfCovered, drawnAtAll row.kind = true → row.start ≤ row.end') →
        Cuts.Run (Bare halfCovered ⟨0, 12⟩ tool) (gap.startRow, gap.endRow)) :=
  visibleGap_exact halfCovered ⟨0, 12⟩ halfCovered_bounded

example : visibleGap halfCovered ⟨0, 12⟩ = some ⟨some "a".toList, some "b".toList, 2, 3⟩ := by decide +kernel

def toolRow : TurnRow := turnRow "tool" .tool 0 20

/-- The second turn covers no row, and the gap ends before its start although the rows go on; the turn that starts
at the least `i64` covers every row of the tool, and there is a gap over them all. -/
theorem inverted_turn_splits :
    (visibleGap [toolRow, turnRow "b" .agent 10 5] ⟨0, 20⟩ = some ⟨none, some "b".toList, 0, 9⟩ ∧
      ¬Cuts.Run (Bare [toolRow, turnRow "b" .agent 10 5] ⟨0, 20⟩ toolRow) (0, 9)) ∧
    visibleGap [toolRow, turnRow "b" .agent (-2 ^ 63) 30] ⟨0, 20⟩ = some ⟨none, none, 0, 2 ^ 63 - 1⟩ ∧
      ∀ r, ¬Bare [toolRow, turnRow "b" .agent (-2 ^ 63) 30] ⟨0, 20⟩ toolRow r := by
  refine ⟨⟨by decide +kernel, fun h => h.after ?_⟩, by decide +kernel, ?_⟩
  · simp [Bare, toolRow, turnRow, drawnAtAll]
  · rintro r ⟨hspan, -, hcover⟩
    refine hcover (turnRow "b" .agent (-2 ^ 63) 30) (by simp) rfl ?_
    simp only [toolRow, turnRow] at hspan ⊢
    omega

end BoopTurnstrip
