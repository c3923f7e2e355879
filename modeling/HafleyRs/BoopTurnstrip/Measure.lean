import HafleyRs.BoopTurnvis.Lines
import HafleyRs.Lib.Grid

/-!
# Row alignment (`crates/boop-turnstrip/src/_1_measure.rs`)

| here | there |
| --- | --- |
| `utf16Len`, `rowScore` | `utf16_len` (21), `row_score` (30) |
| `fillCell`, `fill` | the table of `align_refs` (66) |
| `backtrack`, `alignRefs` | its walk back (85), `align_refs` (57) |

An `i32` is an `Int`: `asI32` is the cast, and a plain `+` wraps as it does without overflow checks. `fullScore` is
`rowScore` before its casts. Where no pairing's full scores go past the greatest `i32` (`Fits`), the table is
`Grid.best` and the walk back is `Grid.walk`, so what comes out is a heaviest pairing (`alignRefs_optimal`).
-/

namespace BoopTurnstrip
open BoopTurnvis (Text LogicalLine Ext normalizeTurnLine contains)

def utf16Len (text : Text) : Nat := (text.map fun c => if c.toNat < 0x10000 then 1 else 2).sum

def i32Max : Nat := 2 ^ 31 - 1

def asI32 (n : Int) : Int := n.bmod (2 ^ 32)

/-- `i32::saturating_add` -/
def saturatingAdd (a b : Int) : Int := max (-2 ^ 31) (min (a + b) i32Max)

def rowScore (sourceLine screenLine : Text) : Int :=
  let sourceLen := utf16Len sourceLine
  let screenLen := utf16Len screenLine
  if sourceLen < 3 || screenLen < 3 then 0
  else if sourceLine = screenLine then asI32 (10000 + asI32 sourceLen)
  else if 8 ≤ sourceLen && 8 ≤ screenLen && (contains screenLine sourceLine || contains sourceLine screenLine) then
    asI32 (100 + asI32 (min sourceLen screenLen : Nat))
  else 0

/-- The score of line `i` of the source on row `j` of the screen. -/
def scoreAt (left right : List Text) (i j : Nat) : Int := rowScore (left[i]?.getD []) (right[j]?.getD [])

def fillCell (left right : List Text) (sourceRow : Nat) (values : List Int) (screenRow : Nat) : List Int :=
  let width := right.length + 1
  let value (row column : Nat) := values[row * width + column]?.getD 0
  let matched := scoreAt left right (sourceRow - 1) (screenRow - 1)
  values.set (sourceRow * width + screenRow)
    (max (max (value (sourceRow - 1) screenRow) (value sourceRow (screenRow - 1)))
      (if matched ≠ 0 then saturatingAdd (value (sourceRow - 1) (screenRow - 1)) matched else 0))

def fill (left right : List Text) : List Int :=
  (List.range' 1 left.length).foldl
    (fun values sourceRow => (List.range' 1 right.length).foldl (fillCell left right sourceRow) values)
    (List.replicate ((left.length + 1) * (right.length + 1)) 0)

/-- The walk back; it takes a row or a column off each time, so `fuel` is how many there are. -/
def backtrack (left right : List Text) (rows : List LogicalLine) (values : List Int) :
    Nat → Nat → Nat → List (Nat × Nat) → List (Nat × Nat)
  | 0, _, _, found => found
  | fuel + 1, sourceRow, screenRow, found =>
    if sourceRow = 0 || screenRow = 0 then found
    else
      let width := right.length + 1
      let value (row column : Nat) := values[row * width + column]?.getD 0
      let matched := scoreAt left right (sourceRow - 1) (screenRow - 1)
      if matched ≠ 0 ∧ value sourceRow screenRow = asI32 (value (sourceRow - 1) (screenRow - 1) + matched) then
        backtrack left right rows values fuel (sourceRow - 1) (screenRow - 1)
          ((sourceRow - 1, (rows[screenRow - 1]?.map (·.start)).getD 0) :: found)
      else if value sourceRow screenRow = value (sourceRow - 1) screenRow then
        backtrack left right rows values fuel (sourceRow - 1) screenRow found
      else backtrack left right rows values fuel sourceRow (screenRow - 1) found

def alignRefs (ext : Ext) (source : List Text) (rows : List LogicalLine) : List (Nat × Nat) :=
  let left := source.map (normalizeTurnLine ext)
  let right := rows.map fun row => normalizeTurnLine ext row.text
  backtrack left right rows (fill left right) (left.length + right.length) left.length right.length []

/-! ## Scores before the casts -/

def fullScore (sourceLine screenLine : Text) : Nat :=
  let sourceLen := utf16Len sourceLine
  let screenLen := utf16Len screenLine
  if sourceLen < 3 || screenLen < 3 then 0
  else if sourceLine = screenLine then 10000 + sourceLen
  else if 8 ≤ sourceLen && 8 ≤ screenLen && (contains screenLine sourceLine || contains sourceLine screenLine) then
    100 + min sourceLen screenLen
  else 0

def fullScoreAt (left right : List Text) (i j : Nat) : Nat := fullScore (left[i]?.getD []) (right[j]?.getD [])

/-- Pairs of a line below `n` and a row below `m`, in the order of both. -/
structure Pairing (n m : Nat) (pairs : List (Nat × Nat)) : Prop where
  step   : pairs.Pairwise fun p q => p.1 < q.1 ∧ p.2 < q.2
  inside : ∀ p ∈ pairs, p.1 < n ∧ p.2 < m

/-- No pairing adds up to more than an `i32` holds. -/
def Fits (left right : List Text) : Prop :=
  ∀ pairs, Pairing left.length right.length pairs →
    (pairs.map fun p => fullScoreAt left right p.1 p.2).sum ≤ i32Max

theorem asI32_of_le {n : Int} (h : 0 ≤ n) (hmax : n ≤ i32Max) : asI32 n = n := by
  rw [i32Max] at hmax
  exact Int.bmod_eq_of_le (by omega) (by omega)

/-- A score that fits is not changed by the casts. -/
theorem rowScore_eq {sourceLine screenLine : Text} (h : fullScore sourceLine screenLine ≤ i32Max) :
    rowScore sourceLine screenLine = fullScore sourceLine screenLine := by
  rw [fullScore] at h
  rw [rowScore, fullScore]
  split
  · rfl
  · rename_i hlong
    rw [if_neg hlong] at h
    split
    · rename_i heq
      rw [if_pos heq] at h
      rw [asI32_of_le (n := (utf16Len sourceLine : Int)) (by omega) (by omega), asI32_of_le (by omega) (by omega)]
      push_cast
      rfl
    · rename_i hne
      rw [if_neg hne] at h
      split
      · rename_i hin
        rw [if_pos hin] at h
        rw [asI32_of_le (n := ((min (utf16Len sourceLine) (utf16Len screenLine) : Nat) : Int)) (by omega) (by omega),
          asI32_of_le (by omega) (by omega)]
        push_cast
        rfl
      · rfl

section
variable {left right : List Text} {i j : Nat}

/-- What a pair adds to a pairing, if anything. -/
def weightAt (left right : List Text) (i j : Nat) : Option Nat :=
  if fullScoreAt left right i j = 0 then none else some (fullScoreAt left right i j)

theorem weightAt_getD (i j : Nat) : (weightAt left right i j).getD 0 = fullScoreAt left right i j := by
  rw [weightAt]
  split
  · rename_i hzero
    exact hzero.symm
  · rfl

theorem total_eq (pairs : List (Nat × Nat)) : Grid.total (weightAt left right) pairs =
    (pairs.map fun p => fullScoreAt left right p.1 p.2).sum := by
  rw [Grid.total]
  exact congrArg List.sum (List.map_congr_left fun p _ => weightAt_getD p.1 p.2)

theorem Pairing.of_chain {n m : Nat} {pairs : List (Nat × Nat)} (h : Grid.Chain (weightAt left right) n m pairs) :
    Pairing n m pairs :=
  ⟨h.step, h.inside⟩

/-- The pairs that score are a chain. -/
theorem Pairing.chain {n m : Nat} {pairs : List (Nat × Nat)} (h : Pairing n m pairs) :
    Grid.Chain (weightAt left right) n m (pairs.filter fun p => (weightAt left right p.1 p.2).isSome) := by
  refine ⟨h.step.filter _, ?_, ?_⟩
  · intro p hp
    exact h.inside p (List.mem_of_mem_filter hp)
  · intro p hp
    exact (List.mem_filter.1 hp).2

theorem total_filter (pairs : List (Nat × Nat)) :
    Grid.total (weightAt left right) (pairs.filter fun p => (weightAt left right p.1 p.2).isSome) =
      Grid.total (weightAt left right) pairs := by
  induction pairs with
  | nil => rfl
  | cons p pairs ih =>
    cases hp : weightAt left right p.1 p.2 with
    | none =>
      rw [List.filter_cons_of_neg (by simp [hp]), ih]
      simp [Grid.total, hp]
    | some w =>
      rw [List.filter_cons_of_pos (by simp [hp])]
      simp only [Grid.total, List.map_cons, List.sum_cons] at ih ⊢
      rw [ih]

/-! ## Where the scores fit -/

theorem Fits.fullScoreAt_le (h : Fits left right) (hi : i < left.length) (hj : j < right.length) :
    fullScoreAt left right i j ≤ i32Max := by
  have hsingle : Pairing left.length right.length [(i, j)] := ⟨by simp, by simp [hi, hj]⟩
  simpa using h _ hsingle

theorem Fits.scoreAt_eq (h : Fits left right) (hi : i < left.length) (hj : j < right.length) :
    scoreAt left right i j = fullScoreAt left right i j :=
  rowScore_eq (h.fullScoreAt_le hi hj)

/-- A cell of the table, and one more pair after it. -/
theorem Fits.best_add_le (h : Fits left right) (hi : i < left.length) (hj : j < right.length) :
    Grid.best (weightAt left right) i32Max i j + fullScoreAt left right i j ≤ i32Max := by
  obtain ⟨hchain, htotal⟩ := Grid.walk_spec (weightAt left right) i32Max (le_refl (i + j))
  generalize Grid.walk (weightAt left right) i32Max (i + j) i j = pairs at hchain htotal
  have hmore : Pairing left.length right.length (pairs ++ [(i, j)]) := by
    refine ⟨List.pairwise_append.2 ⟨hchain.step, by simp, ?_⟩, ?_⟩
    · intro p hp q hq
      rw [List.mem_singleton.1 hq]
      exact hchain.inside p hp
    · intro p hp
      rcases List.mem_append.1 hp with hp | hp
      · have := hchain.inside p hp
        omega
      · rw [List.mem_singleton.1 hp]
        exact ⟨hi, hj⟩
  have hle := h _ hmore
  rw [List.map_append, List.sum_append, ← total_eq] at hle
  simp only [List.map_cons, List.map_nil, List.sum_singleton] at hle
  omega

/-! ## The table -/

/-- The cells before column `column` of row `row`, in the order they are filled, hold the recurrence. -/
structure Filled (left right : List Text) (row column : Nat) (values : List Int) : Prop where
  length : values.length = (left.length + 1) * (right.length + 1)
  value  : ∀ i ≤ left.length, ∀ j ≤ right.length, values[i * (right.length + 1) + j]? =
    some (if i < row ∨ i = row ∧ j < column then (Grid.best (weightAt left right) i32Max i j : Int) else 0)

theorem cell_inj {width a b c d : Nat} (hb : b < width) (hd : d < width) (h : a * width + b = c * width + d) :
    a = c ∧ b = d := by
  have hdiv := congrArg (· / width) h
  have hmod := congrArg (· % width) h
  have hpos : 0 < width := by omega
  simp only [Nat.mul_add_mod_self_right, Nat.mod_eq_of_lt hb, Nat.mod_eq_of_lt hd] at hmod
  simp only [Nat.mul_comm _ width, Nat.mul_add_div hpos, Nat.div_eq_of_lt hb, Nat.div_eq_of_lt hd] at hdiv
  omega

/-- What the loop writes at a cell is what the recurrence says there. -/
theorem best_cell (h : Fits left right) (hi : i < left.length) (hj : j < right.length) :
    max (max (Grid.best (weightAt left right) i32Max i (j + 1) : Int)
        (Grid.best (weightAt left right) i32Max (i + 1) j))
      (if scoreAt left right i j ≠ 0 then
        saturatingAdd (Grid.best (weightAt left right) i32Max i j) (scoreAt left right i j) else 0) =
      Grid.best (weightAt left right) i32Max (i + 1) (j + 1) := by
  have hfit := h.best_add_le hi hj
  rw [h.scoreAt_eq hi hj, Grid.best_succ, weightAt]
  by_cases hzero : fullScoreAt left right i j = 0
  · rw [if_neg (by simp [hzero]), if_pos hzero, Option.elim_none]
    omega
  · rw [if_pos (by exact_mod_cast hzero), if_neg hzero, Option.elim_some, saturatingAdd]
    omega

theorem fillCell_filled (h : Fits left right) (hi : i < left.length) (hj : j < right.length) {values : List Int}
    (hfilled : Filled left right (i + 1) (j + 1) values) :
    Filled left right (i + 1) (j + 2) (fillCell left right (i + 1) values (j + 1)) := by
  have hup := hfilled.value i (by omega) (j + 1) (by omega)
  have hleft := hfilled.value (i + 1) (by omega) j (by omega)
  have hcorner := hfilled.value i (by omega) j (by omega)
  rw [if_pos (by omega)] at hup hleft hcorner
  refine ⟨by rw [fillCell, List.length_set, hfilled.length], fun a ha b hb => ?_⟩
  have hin : a * (right.length + 1) + b < values.length := by
    have hsome := hfilled.value a ha b hb
    exact (List.getElem?_eq_some_iff.1 hsome).1
  rw [fillCell]
  simp only [Nat.add_sub_cancel, hup, hleft, hcorner, Option.getD_some, best_cell h hi hj]
  by_cases hcell : a = i + 1 ∧ b = j + 1
  · obtain ⟨rfl, rfl⟩ := hcell
    rw [List.getElem?_set_self hin, if_pos (by omega)]
  · have hne : (i + 1) * (right.length + 1) + (j + 1) ≠ a * (right.length + 1) + b := by
      intro heq
      obtain ⟨h₁, h₂⟩ := cell_inj (by omega) (by omega) heq
      exact hcell ⟨h₁.symm, h₂.symm⟩
    rw [List.getElem?_set_ne hne, hfilled.value a ha b hb]
    have hiff : (a < i + 1 ∨ a = i + 1 ∧ b < j + 1) ↔ (a < i + 1 ∨ a = i + 1 ∧ b < j + 2) := by omega
    simp only [hiff]

theorem fillRow_filled (h : Fits left right) (hi : i < left.length) {values : List Int}
    (hfilled : Filled left right (i + 1) 1 values) : ∀ n ≤ right.length,
      Filled left right (i + 1) (n + 1) ((List.range' 1 n).foldl (fillCell left right (i + 1)) values)
  | 0, _ => hfilled
  | n + 1, hn => by
    rw [List.range'_1_concat, List.foldl_concat, Nat.add_comm 1 n]
    exact fillCell_filled h hi (by omega) (fillRow_filled h hi hfilled n (by omega))

/-- A full row is the one before the next, whose first cell is zero. -/
theorem Filled.next {values : List Int} (h : Filled left right i (right.length + 1) values) :
    Filled left right (i + 1) 1 values := by
  refine ⟨h.length, fun a ha b hb => ?_⟩
  rw [h.value a ha b hb]
  by_cases hzero : a = i + 1 ∧ b = 0
  · obtain ⟨rfl, rfl⟩ := hzero
    simp
  · have hiff : (a < i ∨ a = i ∧ b < right.length + 1) ↔ (a < i + 1 ∨ a = i + 1 ∧ b < 1) := by omega
    simp only [hiff]

theorem filled_start : Filled left right 1 1 (List.replicate ((left.length + 1) * (right.length + 1)) 0) := by
  refine ⟨by simp, fun a ha b hb => ?_⟩
  have hin : a * (right.length + 1) + b < (left.length + 1) * (right.length + 1) := by
    have hrow := Nat.mul_le_mul_right (right.length + 1) ha
    rw [Nat.succ_mul]
    omega
  rw [List.getElem?_replicate, if_pos hin]
  by_cases hfirst : a < 1 ∨ a = 1 ∧ b < 1
  · rw [if_pos hfirst]
    rcases hfirst with ha | ⟨-, hb⟩
    · obtain rfl : a = 0 := by omega
      simp
    · obtain rfl : b = 0 := by omega
      simp
  · rw [if_neg hfirst]

/-- **The table is the recurrence.** -/
theorem fill_filled (h : Fits left right) : Filled left right (left.length + 1) 1 (fill left right) := by
  have hrows : ∀ n ≤ left.length, Filled left right (n + 1) 1 ((List.range' 1 n).foldl
      (fun values sourceRow => (List.range' 1 right.length).foldl (fillCell left right sourceRow) values)
      (List.replicate ((left.length + 1) * (right.length + 1)) 0)) := by
    intro n
    induction n with
    | zero => exact fun _ => filled_start
    | succ n ih =>
      intro hn
      rw [List.range'_1_concat, List.foldl_concat, Nat.add_comm 1 n]
      exact (fillRow_filled h hn (ih (by omega)) right.length le_rfl).next
  exact hrows left.length le_rfl

theorem Filled.getD {values : List Int} (h : Filled left right (left.length + 1) 1 values) (hi : i ≤ left.length)
    (hj : j ≤ right.length) :
    values[i * (right.length + 1) + j]?.getD 0 = Grid.best (weightAt left right) i32Max i j := by
  rw [h.value i hi j hj, if_pos (by omega), Option.getD_some]

/-! ## The walk back -/

theorem taken_iff (h : Fits left right) (hi : i < left.length) (hj : j < right.length) :
    Grid.taken (weightAt left right) i32Max i j = true ↔ scoreAt left right i j ≠ 0 ∧
      (Grid.best (weightAt left right) i32Max (i + 1) (j + 1) : Int) =
        asI32 (Grid.best (weightAt left right) i32Max i j + scoreAt left right i j) := by
  have hfit := h.best_add_le hi hj
  rw [h.scoreAt_eq hi hj, asI32_of_le (by omega) (by omega), Grid.taken, weightAt]
  by_cases hzero : fullScoreAt left right i j = 0
  · simp [hzero]
  · rw [if_neg hzero, Option.any_some, decide_eq_true_eq, min_eq_left hfit]
    constructor
    · intro heq
      exact ⟨by exact_mod_cast hzero, by exact_mod_cast heq⟩
    · rintro ⟨-, heq⟩
      exact_mod_cast heq

/-- The pair stands for this source line and the start of its row. -/
def StandsFor (rows : List LogicalLine) (p x : Nat × Nat) : Prop :=
  ∃ row, rows[p.2]? = some row ∧ x = (p.1, row.start)

theorem backtrack_eq (h : Fits left right) {rows : List LogicalLine} (hrows : rows.length = right.length)
    {values : List Int} (hfilled : Filled left right (left.length + 1) 1 values) (fuel : Nat) :
    ∀ (i j : Nat) (found : List (Nat × Nat)), i ≤ left.length → j ≤ right.length →
      ∃ out, backtrack left right rows values fuel i j found = out ++ found ∧
        List.Forall₂ (StandsFor rows) (Grid.walk (weightAt left right) i32Max fuel i j) out := by
  induction fuel with
  | zero => exact fun i j found _ _ => ⟨[], rfl, by simp [Grid.walk]⟩
  | succ fuel ih =>
    intro i j found hi hj
    cases i with
    | zero => exact ⟨[], by simp [backtrack], by simp [Grid.walk]⟩
    | succ i =>
      cases j with
      | zero => exact ⟨[], by simp [backtrack], by simp [Grid.walk]⟩
      | succ j =>
        rw [backtrack, if_neg (by simp), Grid.walk]
        simp only [Nat.add_sub_cancel, hfilled.getD hi hj, hfilled.getD (Nat.le_of_succ_le hi) hj,
          hfilled.getD (Nat.le_of_succ_le hi) (Nat.le_of_succ_le hj)]
        by_cases htaken : Grid.taken (weightAt left right) i32Max i j = true
        · rw [if_pos ((taken_iff h hi hj).1 htaken), if_pos htaken]
          have hrow : rows[j]? = some rows[j] := List.getElem?_eq_getElem (by omega)
          obtain ⟨out, hout, hstand⟩ := ih i j ((i, (rows[j]?.map (·.start)).getD 0) :: found) (by omega) (by omega)
          refine ⟨out ++ [(i, (rows[j]?.map (·.start)).getD 0)], by rw [hout, List.append_assoc]; rfl, ?_⟩
          exact List.rel_append hstand (.cons ⟨rows[j], hrow, by rw [hrow]; rfl⟩ .nil)
        · rw [if_neg fun hcond => htaken ((taken_iff h hi hj).2 hcond), if_neg htaken]
          -- the cell is the greater of the two, so it is the one above just when that is no less than the left one
          have hbest := Grid.best_of_not_taken (Bool.eq_false_iff.2 htaken)
          by_cases hle : Grid.best (weightAt left right) i32Max (i + 1) j ≤
              Grid.best (weightAt left right) i32Max i (j + 1)
          · rw [if_pos (by rw [hbest]; omega), if_pos hle]
            exact ih i (j + 1) found (by omega) hj
          · rw [if_neg (by rw [hbest]; omega), if_neg hle]
            exact ih (i + 1) j found hi (by omega)

theorem scoreSum_eq (h : Fits left right) {pairs : List (Nat × Nat)} (hpairs : Pairing left.length right.length pairs) :
    (pairs.map fun p => scoreAt left right p.1 p.2).sum = (Grid.total (weightAt left right) pairs : Int) := by
  rw [total_eq]
  push_cast
  rw [List.map_map]
  refine congrArg List.sum (List.map_congr_left fun p hp => ?_)
  exact h.scoreAt_eq (hpairs.inside p hp).1 (hpairs.inside p hp).2

end

/-- **Row alignment is optimal**: where no pairing adds up to more than an `i32` holds, the result is a pairing of
lines and rows that all score, and no pairing comes to more. -/
theorem alignRefs_optimal (ext : Ext) (source : List Text) (rows : List LogicalLine)
    (h : Fits (source.map (normalizeTurnLine ext)) (rows.map fun row => normalizeTurnLine ext row.text)) :
    ∃ pairs, List.Forall₂ (StandsFor rows) pairs (alignRefs ext source rows) ∧
      Pairing source.length rows.length pairs ∧
      (∀ p ∈ pairs, 0 < scoreAt (source.map (normalizeTurnLine ext))
        (rows.map fun row => normalizeTurnLine ext row.text) p.1 p.2) ∧
      ∀ other, Pairing source.length rows.length other →
        (other.map fun p => scoreAt (source.map (normalizeTurnLine ext))
          (rows.map fun row => normalizeTurnLine ext row.text) p.1 p.2).sum ≤
        (pairs.map fun p => scoreAt (source.map (normalizeTurnLine ext))
          (rows.map fun row => normalizeTurnLine ext row.text) p.1 p.2).sum := by
  rw [alignRefs]
  have hsource : source.length = (source.map (normalizeTurnLine ext)).length := by simp
  have hrows : rows.length = (rows.map fun row => normalizeTurnLine ext row.text).length := by simp
  rw [hsource, hrows]
  generalize source.map (normalizeTurnLine ext) = left at h ⊢
  generalize (rows.map fun row => normalizeTurnLine ext row.text) = right at h hrows ⊢
  obtain ⟨hchain, htotal⟩ := Grid.walk_spec (weightAt left right) i32Max (le_refl (left.length + right.length))
  obtain ⟨out, hout, hstand⟩ := backtrack_eq h hrows (fill_filled h) (left.length + right.length) left.length
    right.length [] le_rfl le_rfl
  rw [List.append_nil] at hout
  have hpairing := Pairing.of_chain hchain
  refine ⟨_, hout ▸ hstand, hpairing, ?_, ?_⟩
  · intro p hp
    obtain ⟨hi, hj⟩ := hpairing.inside p hp
    have hcell := hchain.cell p hp
    rw [h.scoreAt_eq hi hj]
    rw [weightAt] at hcell
    by_cases hzero : fullScoreAt left right p.1 p.2 = 0
    · rw [if_pos hzero] at hcell
      cases hcell
    · omega
  · intro other hother
    rw [scoreSum_eq h hother, scoreSum_eq h hpairing, ← total_filter other]
    have hscoring : Grid.Chain (weightAt left right) _ _ _ := hother.chain
    have hbest := Grid.le_best i32Max hscoring
    have hfit := h _ (Pairing.of_chain hscoring)
    rw [← total_eq] at hfit
    rw [← htotal, min_eq_left hfit] at hbest
    exact_mod_cast hbest.trans (min_le_left _ _)

/-! ## Short lines -/

theorem fullScore_le (sourceLine screenLine : Text) :
    fullScore sourceLine screenLine ≤ 10000 + utf16Len sourceLine := by
  rw [fullScore]
  split
  · omega
  · split
    · omega
    · split
      · omega
      · omega

theorem Pairing.length_le {m : Nat} : ∀ {n : Nat} {pairs : List (Nat × Nat)}, Pairing n m pairs → pairs.length ≤ n := by
  intro n
  induction n with
  | zero =>
    intro pairs h
    cases pairs with
    | nil => rfl
    | cons p pairs => exact absurd (h.inside p List.mem_cons_self).1 (Nat.not_lt_zero _)
  | succ n ih =>
    intro pairs h
    rcases List.eq_nil_or_concat' pairs with rfl | ⟨pairs, last, rfl⟩
    · simp
    obtain ⟨hstep, -, hlast⟩ := List.pairwise_append.1 h.step
    have hn := (h.inside last (by simp)).1
    have hshort : Pairing n m pairs := by
      refine ⟨hstep, fun p hp => ⟨?_, (h.inside p (List.mem_append_left _ hp)).2⟩⟩
      have := (hlast p hp last (by simp)).1
      omega
    have := ih hshort
    simp only [List.length_append, List.length_singleton]
    omega

/-- Few enough lines, and short ones, fit whatever is on the screen. -/
theorem fits_of_short {left right : List Text} (longest : Nat) (hlines : ∀ line ∈ left, utf16Len line ≤ longest)
    (hfew : left.length * (10000 + longest) ≤ i32Max) : Fits left right := by
  intro pairs h
  have hsum : (pairs.map fun p => fullScoreAt left right p.1 p.2).sum ≤ pairs.length * (10000 + longest) := by
    have hle := List.sum_le_card_nsmul (pairs.map fun p => fullScoreAt left right p.1 p.2) (10000 + longest) ?_
    · simpa using hle
    · intro score hscore
      obtain ⟨p, hp, rfl⟩ := List.mem_map.1 hscore
      have hin := (h.inside p hp).1
      have hi : left[p.1]? = some left[p.1] := List.getElem?_eq_getElem hin
      have hline := hlines left[p.1] (List.getElem_mem _)
      have hscore := fullScore_le left[p.1] (right[p.2]?.getD [])
      rw [fullScoreAt, hi, Option.getD_some]
      omega
  exact hsum.trans ((Nat.mul_le_mul_right _ h.length_le).trans hfew)

/-- A line that stands on one row and is part of another. -/
def askedLines : List Text := ["run the checks".toList, "all checks passed".toList]

def askedRows : List LogicalLine :=
  [⟨"run the checks now".toList, 4, 4⟩, ⟨"all checks passed".toList, 7, 7⟩, ⟨"run the checks".toList, 9, 9⟩]

def plainExt : Ext := ⟨fun t => t.map Char.toLower, fun _ => none, fun _ => true⟩

theorem askedLines_fit : Fits (askedLines.map (normalizeTurnLine plainExt))
    (askedRows.map fun row => normalizeTurnLine plainExt row.text) :=
  fits_of_short 17 (by decide +kernel) (by decide)

theorem alignRefs_optimal_asked : ∃ pairs,
    List.Forall₂ (StandsFor askedRows) pairs (alignRefs plainExt askedLines askedRows) ∧
      Pairing askedLines.length askedRows.length pairs ∧
      (∀ p ∈ pairs, 0 < scoreAt (askedLines.map (normalizeTurnLine plainExt))
        (askedRows.map fun row => normalizeTurnLine plainExt row.text) p.1 p.2) ∧
      ∀ other, Pairing askedLines.length askedRows.length other →
        (other.map fun p => scoreAt (askedLines.map (normalizeTurnLine plainExt))
          (askedRows.map fun row => normalizeTurnLine plainExt row.text) p.1 p.2).sum ≤
        (pairs.map fun p => scoreAt (askedLines.map (normalizeTurnLine plainExt))
          (askedRows.map fun row => normalizeTurnLine plainExt row.text) p.1 p.2).sum :=
  alignRefs_optimal plainExt askedLines askedRows askedLines_fit

/-- The pair of the second line is worth more than the first line's own row. -/
example : alignRefs plainExt askedLines askedRows = [(0, 4), (1, 7)] := by decide +kernel

end BoopTurnstrip
