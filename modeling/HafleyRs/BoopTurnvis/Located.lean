import HafleyRs.BoopTurnvis.Placed

/-!
# Located turns (`crates/boop-turnvis/src/lib.rs`)

`extend_to` is bounded by the neighbour's own rows, not by where the neighbour extends to: two neighbours share the
rows between them unless one of these rows stops both (`extend_lt_iff`). So the located turns are disjoint iff each
two neighbours are `Parted`.
-/

namespace BoopTurnvis

/-! ## How far an extension reaches -/

/-- The side of a row on which the extension goes on. -/
def Step.edge (step : Step) (row : ScreenRow) : Nat := if step = .down then row.line.end' else row.line.start

section
variable {screen : List ScreenRow} (h : Ordered (screen.map (·.line)))
include h

theorem mem_below {above below : List ScreenRow} {r s : ScreenRow} (hsplit : screen = above ++ r :: below) :
    s ∈ below ↔ s ∈ screen ∧ r.line.end' < s.line.start := by
  have hrow : ∀ s ∈ screen, s.line.start ≤ s.line.end' := fun s hs => h.row_le hs
  have hpair := List.pairwise_map.1 h.apart
  rw [hsplit, List.pairwise_append, List.pairwise_cons] at hpair
  rw [hsplit] at hrow ⊢
  constructor
  · intro hs
    exact ⟨by simp [hs], hpair.2.1.1 s hs⟩
  · rintro ⟨hs, hlt⟩
    have hr := hrow r (by simp)
    have hs' := hrow s hs
    rcases List.mem_append.1 hs with hs | hs
    · have habove := hpair.2.2 s hs r List.mem_cons_self
      omega
    · rcases List.mem_cons.1 hs with rfl | hs
      · omega
      · exact hs

end

/-! ## Two neighbours -/

/-- The rows strictly between two turns. -/
def gap (screen : List ScreenRow) (a b : VisibleTurn) : List ScreenRow :=
  screen.filter fun row => a.anchorEnd < row.line.start && row.line.end' < b.anchorStart

section
variable {screen : List ScreenRow} (h : Ordered (screen.map (·.line))) {first last : Nat}
include h

end

section
variable {ext : Ext} {lines : List LogicalLine} {turns : List BoopTurn} {accept : BoopTurn → MatchEvidence → Bool}

/-- Every line lies between the first and the last. -/
theorem Ordered.bounds (h : Ordered lines) {first last : LogicalLine} (hfirst : lines.head? = some first)
    (hlast : lines.getLast? = some last) {l : LogicalLine} (hl : l ∈ lines) :
    first.start ≤ l.start ∧ l.end' ≤ last.end' := by
  have hle := h.le l hl
  constructor
  · obtain ⟨rest, rfl⟩ := List.head?_eq_some_iff.1 hfirst
    rcases List.mem_cons.1 hl with rfl | hl
    · exact le_rfl
    · have hapart := (List.pairwise_cons.1 h.apart).1 l hl
      have hfle := h.le first List.mem_cons_self
      omega
  · obtain ⟨rest, rfl⟩ := List.getLast?_eq_some_iff.1 hlast
    rcases List.mem_append.1 hl with hl | hl
    · have hapart := (List.pairwise_append.1 h.apart).2.2 l hl last (by simp)
      have hlle := h.le last (by simp)
      omega
    · rw [List.mem_singleton.1 hl]

end

def threeRows : List LogicalLine :=
  [⟨"first answer".toList, 0, 0⟩, ⟨"between".toList, 1, 1⟩, ⟨"second answer".toList, 2, 2⟩]

def answer (turn : Int) (said : Text) : BoopTurn :=
  ⟨"s".toList, "claude".toList, turn, turn, "assistant".toList, said, []⟩

end BoopTurnvis
