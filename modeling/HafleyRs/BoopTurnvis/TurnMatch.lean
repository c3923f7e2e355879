import HafleyRs.BoopTurnvis.Placed
import HafleyRs.Lib.Grid

/-!
# The turn match is the best (`crates/boop-turnvis/src/lib.rs`:188)

The table of scores is the recurrence `Grid.best` over pairs of a row and a line (`scoreAt_tableOf`), capped where
`u32` saturates, and the walk back is `Grid.walk` (`backtrack_eq`). A source line is paired with one row, so the rows
chosen are the best among those whose lines increase too; the rows that continue a line come in afterwards, before
the next row chosen (`wrapped_spec`).
-/

namespace BoopTurnvis

def u32Max : Nat := 2 ^ 32 - 1

/-- What a pair of a row and a line adds, if they match. -/
def pairWeight (screenNorm sourceNorm : Text) : Option Nat :=
  if lineMatches screenNorm sourceNorm then some (1000 + min screenNorm.length sourceNorm.length % 2 ^ 32) else none

/-- The same by indices. -/
def weightAt (rows : List ScreenRow) (normalized : List Text) (i j : Nat) : Option Nat :=
  (rows[i]?).bind fun row => (normalized[j]?).bind (pairWeight row.normalized)

theorem matchScore_eq (score : Nat) (screenNorm sourceNorm : Text) : matchScore score screenNorm sourceNorm =
    min (score + (1000 + min screenNorm.length sourceNorm.length % 2 ^ 32)) u32Max := by
  rw [matchScore, saturatingAdd, saturatingAdd, u32Max]
  omega

section
variable {rows : List ScreenRow} {normalized : List Text} {i j : Nat} {row : ScreenRow} {line : Text}

theorem weightAt_eq (hi : rows[i]? = some row) (hj : normalized[j]? = some line) :
    weightAt rows normalized i j = pairWeight row.normalized line := by
  rw [weightAt, hi, hj, Option.bind_some, Option.bind_some]

/-! ## The table -/

/-- A row of the table. -/
def bestRow (rows : List ScreenRow) (normalized : List Text) (i n : Nat) : List Nat :=
  (List.range (n + 1)).map (Grid.best (weightAt rows normalized) u32Max i)

theorem bestRow_zip (i : Nat) :
    normalized.zip
        ((bestRow rows normalized i normalized.length).zip (bestRow rows normalized i normalized.length).tail) =
      (List.range normalized.length).map fun k => (normalized[k]?.getD [],
        Grid.best (weightAt rows normalized) u32Max i k, Grid.best (weightAt rows normalized) u32Max i (k + 1)) := by
  refine List.ext_getElem (by simp [bestRow]) fun k hk _ => ?_
  have hk' : k < normalized.length := by
    simp only [List.length_zip] at hk
    omega
  simp [bestRow, hk']

theorem nextScores_bestRow (hi : rows[i]? = some row) :
    nextScores normalized (bestRow rows normalized i normalized.length) row.normalized =
      bestRow rows normalized (i + 1) normalized.length := by
  have hfold : ∀ n ≤ normalized.length, ((List.range n).map fun k => (normalized[k]?.getD [],
      Grid.best (weightAt rows normalized) u32Max i k, Grid.best (weightAt rows normalized) u32Max i (k + 1))).foldl
        (fun (s : List Nat × Nat) x =>
          let here := if lineMatches row.normalized x.1 then matchScore x.2.1 row.normalized x.1 else 0
          let score := max (max here x.2.2) s.2
          (s.1 ++ [score], score)) ([0], 0) =
      (bestRow rows normalized (i + 1) n, Grid.best (weightAt rows normalized) u32Max (i + 1) n) := by
    intro n hn
    induction n with
    | zero => simp [bestRow]
    | succ n ih =>
      have hj : normalized[n]? = some normalized[n] := List.getElem?_eq_getElem (by omega)
      have hhere : (if lineMatches row.normalized normalized[n] then
          matchScore (Grid.best (weightAt rows normalized) u32Max i n) row.normalized normalized[n] else 0) =
          (weightAt rows normalized i n).elim 0 fun w =>
            min (Grid.best (weightAt rows normalized) u32Max i n + w) u32Max := by
        rw [weightAt_eq hi hj, pairWeight]
        by_cases hm : lineMatches row.normalized normalized[n] = true
        · rw [if_pos hm, if_pos hm, matchScore_eq, Option.elim_some]
        · rw [if_neg hm, if_neg hm, Option.elim_none]
      rw [List.range_succ, List.map_append, List.foldl_append, ih (by omega)]
      simp only [List.map_cons, List.map_nil, List.foldl_cons, List.foldl_nil, hj, Option.getD_some, hhere,
        ← Grid.best_succ]
      rw [bestRow, bestRow, List.range_succ (n := n + 1), List.map_append, List.map_singleton]
  rw [nextScores, bestRow_zip, hfold _ le_rfl]

theorem tableOf_getElem? : ∀ {i : Nat}, i ≤ rows.length →
    (tableOf rows normalized)[i]? = some (bestRow rows normalized i normalized.length)
  | 0, _ => by
    rw [tableOf]
    have hzero : bestRow rows normalized 0 normalized.length = List.replicate (normalized.length + 1) 0 := by
      refine List.eq_replicate_iff.2 ⟨by simp [bestRow], fun score hscore => ?_⟩
      obtain ⟨k, -, rfl⟩ := List.mem_map.1 hscore
      exact Grid.best_zero_left
    rw [hzero]
    simp
  | i + 1, h => by
    have hi : rows[i]? = some rows[i] := List.getElem?_eq_getElem (by omega)
    have hprev := tableOf_getElem? (i := i) (by omega)
    rw [tableOf] at hprev ⊢
    rw [List.getElem?_succ_scanl, hprev, hi]
    simp [nextScores_bestRow hi]

/-- The table is the recurrence. -/
theorem scoreAt_tableOf (hi : i ≤ rows.length) (hj : j ≤ normalized.length) :
    scoreAt (tableOf rows normalized) i j = Grid.best (weightAt rows normalized) u32Max i j := by
  rw [scoreAt, tableOf_getElem? hi, Option.getD_some, bestRow, List.getElem?_map, List.getElem?_range (by omega)]
  rfl

/-! ## The walk back -/

/-- The hit stands on the row and the line of these indices. -/
def StandsAt (rows : List ScreenRow) (p : Nat × Nat) (hit : Hit) : Prop :=
  ∃ row, rows[p.1]? = some row ∧ hit = ⟨row.line, p.2⟩

theorem taken_iff (hi : rows[i]? = some row) (hj : normalized[j]? = some line) :
    Grid.taken (weightAt rows normalized) u32Max i j = (lineMatches row.normalized line &&
      decide (Grid.best (weightAt rows normalized) u32Max (i + 1) (j + 1) =
        matchScore (Grid.best (weightAt rows normalized) u32Max i j) row.normalized line)) := by
  rw [Grid.taken, weightAt_eq hi hj, pairWeight, matchScore_eq]
  by_cases hm : lineMatches row.normalized line = true
  · simp [hm]
  · simp [hm]

theorem backtrack_eq : ∀ (fuel : Nat) {i j : Nat} (hits : List Hit), i ≤ rows.length → j ≤ normalized.length →
    ∃ out, backtrack rows normalized (tableOf rows normalized) fuel i j hits = out ++ hits ∧
      List.Forall₂ (StandsAt rows) (Grid.walk (weightAt rows normalized) u32Max fuel i j) out
  | 0, _, _, hits, _, _ => ⟨[], rfl, by simp [Grid.walk]⟩
  | fuel + 1, 0, j, hits, _, _ => by
    refine ⟨[], ?_, by simp [Grid.walk]⟩
    rw [backtrack]
    split
    · simp
    · rfl
  | fuel + 1, i + 1, 0, hits, _, _ => by
    refine ⟨[], ?_, by simp [Grid.walk]⟩
    rw [backtrack]
    split
    · simp
    · rfl
  | fuel + 1, i + 1, j + 1, hits, hi, hj => by
    have hrow : rows[i]? = some rows[i] := List.getElem?_eq_getElem (by omega)
    have hline : normalized[j]? = some normalized[j] := List.getElem?_eq_getElem (by omega)
    rw [backtrack, Grid.walk, taken_iff hrow hline]
    simp only [Nat.add_sub_cancel, hrow, hline]
    rw [if_neg (by simp), scoreAt_tableOf hi hj, scoreAt_tableOf (by omega) (by omega),
      scoreAt_tableOf (by omega) (by omega), scoreAt_tableOf (by omega) (by omega)]
    split
    · obtain ⟨out, hout, hstand⟩ := backtrack_eq fuel (⟨rows[i].line, j⟩ :: hits) (show i ≤ rows.length by omega)
        (show j ≤ normalized.length by omega)
      refine ⟨out ++ [⟨rows[i].line, j⟩], by rw [hout, List.append_assoc]; rfl, ?_⟩
      exact List.rel_append hstand (.cons ⟨_, hrow, rfl⟩ .nil)
    · split
      · exact backtrack_eq fuel hits (by omega) hj
      · exact backtrack_eq fuel hits hi (by omega)

/-! ## Rows that continue a line -/

/-- Row `m` follows the row before it on the screen, and its text is in the line. -/
def Follows (rows : List ScreenRow) (line : Text) (m : Nat) : Prop :=
  ∃ above row, rows[m]? = some above ∧ rows[m + 1]? = some row ∧ row.line.start = above.line.end' + 1 ∧
    contains line row.normalized = true

/-- The row of `q` continues the line that `p` has: every row from the one to the other does. -/
def Continues (rows : List ScreenRow) (normalized : List Text) (p q : Nat × Nat) : Prop :=
  q.2 = p.2 ∧ p.1 < q.1 ∧ ∀ m, p.1 ≤ m → m < q.1 → Follows rows (normalized[p.2]?.getD []) m

theorem wrap_spec (line : Text) (next : Option Nat) : ∀ {i : Nat} {row : ScreenRow}, rows[i]? = some row →
    ∃ count, wrap line next row (rows.drop (i + 1)) = ((rows.drop (i + 1)).take count).map (·.line) ∧
      i + count < rows.length ∧
      ∀ m, i ≤ m → m < i + count → Follows rows line m ∧ ∀ below, rows[m + 1]? = some below →
        some below.line.start ≠ next := by
  intro i
  induction hleft : rows.length - i generalizing i with
  | zero =>
    intro row hrow
    obtain ⟨hi, -⟩ := List.getElem?_eq_some_iff.1 hrow
    omega
  | succ left ih =>
    intro row hrow
    obtain ⟨hi, -⟩ := List.getElem?_eq_some_iff.1 hrow
    have hstop : ∃ count, ([] : List LogicalLine) = ((rows.drop (i + 1)).take count).map (·.line) ∧
        i + count < rows.length ∧ ∀ m, i ≤ m → m < i + count → Follows rows line m ∧ ∀ below,
          rows[m + 1]? = some below → some below.line.start ≠ next := ⟨0, by simp, by omega, fun m h h' => by omega⟩
    cases hbelow : rows[i + 1]? with
    | none =>
      rw [List.drop_eq_nil_of_le (List.getElem?_eq_none_iff.1 hbelow), wrap]
      rwa [List.drop_eq_nil_of_le (List.getElem?_eq_none_iff.1 hbelow)] at hstop
    | some below =>
      obtain ⟨hi', hget⟩ := List.getElem?_eq_some_iff.1 hbelow
      rw [List.drop_eq_getElem_cons hi', hget] at hstop ⊢
      rw [wrap]
      by_cases hcond : (decide (some below.line.start = next) || decide (below.line.start ≠ row.line.end' + 1) ||
          !contains line below.normalized) = true
      · rw [if_pos hcond]
        exact hstop
      · rw [if_neg hcond]
        simp only [Bool.or_eq_true, decide_eq_true_eq, Bool.not_eq_true', not_or, not_not, Bool.not_eq_false] at hcond
        obtain ⟨⟨hnext, hstart⟩, hin⟩ := hcond
        obtain ⟨count, hwrap, hcount, hfollow⟩ := ih (i := i + 1) (by omega) hbelow
        refine ⟨count + 1, by rw [hwrap]; rfl, by omega, fun m hm hm' => ?_⟩
        rcases hm.eq_or_lt with rfl | hlt
        · refine ⟨⟨row, below, hrow, hbelow, hstart, hin⟩, fun b hb => ?_⟩
          rw [hbelow] at hb
          cases hb
          exact hnext
        · exact hfollow m hlt (by omega)

theorem dropWhile_start (h : Ordered (rows.map (·.line))) (hi : rows[i]? = some row) :
    rows.dropWhile (fun r => decide (r.line.start ≠ row.line.start)) = row :: rows.drop (i + 1) := by
  induction rows generalizing i with
  | nil => simp at hi
  | cons first rest ih =>
    cases i with
    | zero =>
      obtain rfl : first = row := by simpa using hi
      rw [List.dropWhile_cons_of_neg (by simp)]
      rfl
    | succ i =>
      have hlt := h.lt (i := 0) (j := i + 1) rfl hi (by omega)
      have hle := h.row_le (r := first) List.mem_cons_self
      rw [List.dropWhile_cons_of_pos (by simp; omega), ih ⟨fun l hl => h.le l (by simp [hl]), ?_⟩ hi]
      · rfl
      · exact (List.pairwise_cons.1 h.apart).2

theorem rows_between (column : Nat) : ∀ {count i : Nat}, i + count ≤ rows.length →
    List.Forall₂ (StandsAt rows) ((List.range' i count).map fun m => (m, column))
      ((((rows.drop i).take count).map (·.line)).map (Hit.mk · column))
  | 0, _, _ => by simp
  | count + 1, i, h => by
    have hi : i < rows.length := by omega
    rw [List.drop_eq_getElem_cons hi, List.range'_succ, List.take_succ_cons]
    simp only [List.map_cons]
    exact .cons ⟨rows[i], List.getElem?_eq_getElem hi, rfl⟩ (rows_between column (by omega))

/-- Row after row, and no line before the line of the row above. -/
def Downward (picks : List (Nat × Nat)) : Prop := picks.Pairwise fun p q => p.1 < q.1 ∧ p.2 ≤ q.2

variable (normalized) in
/-- The rows that continue a chosen row come after it and before the next one. -/
theorem wrapped_spec (h : Ordered (rows.map (·.line))) {chosen : List (Nat × Nat)} {hits : List Hit}
    (hstep : chosen.Pairwise fun p q => p.1 < q.1 ∧ p.2 < q.2) (hstand : List.Forall₂ (StandsAt rows) chosen hits) :
    ∃ picks, List.Forall₂ (StandsAt rows) picks (wrapped rows normalized hits) ∧ chosen.Sublist picks ∧
      Downward picks ∧ (∀ q ∈ picks, q ∈ chosen ∨ ∃ p ∈ chosen, Continues rows normalized p q) ∧
      ∀ first ∈ chosen.head?, ∀ q ∈ picks, first.1 ≤ q.1 ∧ first.2 ≤ q.2 := by
  induction hstand with
  | nil => exact ⟨[], .nil, .slnil, .nil, by simp, by simp⟩
  | @cons p hit chosen hits hhit hrest ih =>
    obtain ⟨hlast, hstep⟩ := List.pairwise_cons.1 hstep
    obtain ⟨picks, hpicks, hsub, hdown, hcell, hfirst⟩ := ih hstep
    obtain ⟨row, hrow, rfl⟩ := hhit
    obtain ⟨count, hwrap, hcount, hfollow⟩ := wrap_spec (normalized[p.2]?.getD [])
      (hits.head?.map fun next : Hit => next.line.start) hrow
    have hbefore : ∀ q ∈ picks, p.1 + count < q.1 ∧ p.2 < q.2 := by
      intro q hq
      cases hrest with
      | nil =>
        exfalso
        cases picks with
        | nil => cases hq
        | cons _ _ => exact absurd hpicks (by simp [wrapped])
      | @cons next hit' chosen hits hhit' hrest =>
        obtain ⟨below, hbelow, rfl⟩ := hhit'
        have hnext := hlast next List.mem_cons_self
        have hge := hfirst next rfl q hq
        have hclear : p.1 + count < next.1 := by
          by_contra hle
          have hlast : next.1 - 1 + 1 = next.1 := by omega
          rw [← hlast] at hbelow
          exact (hfollow (next.1 - 1) (by omega) (by omega)).2 below hbelow rfl
        omega
    have hmore : ∀ q ∈ (List.range' (p.1 + 1) count).map fun m => (m, p.2),
        p.1 < q.1 ∧ q.1 ≤ p.1 + count ∧ q.2 = p.2 := by
      intro q hq
      obtain ⟨m, hm, rfl⟩ := List.mem_map.1 hq
      rw [List.mem_range'_1] at hm
      exact ⟨by simp; omega, by simp; omega, rfl⟩
    refine ⟨p :: ((List.range' (p.1 + 1) count).map fun m => (m, p.2)) ++ picks, ?_, ?_, ?_, ?_, ?_⟩
    · have hdrop := dropWhile_start h hrow
      rw [wrapped]
      simp only [hdrop, hwrap]
      exact List.rel_append (.cons ⟨row, hrow, rfl⟩ (rows_between p.2 (by omega))) hpicks
    · exact List.Sublist.cons_cons p (hsub.trans (List.sublist_append_right _ _))
    · refine List.pairwise_append.2 ⟨List.pairwise_cons.2 ⟨fun q hq => ?_, ?_⟩, hdown, fun a ha q hq => ?_⟩
      · obtain ⟨hlt, -, heq⟩ := hmore q hq
        exact ⟨hlt, heq.ge⟩
      · refine List.pairwise_map.2 ((List.pairwise_lt_range' (s := p.1 + 1) (n := count)).imp fun hlt => ?_)
        exact ⟨hlt, le_rfl⟩
      · have hq' := hbefore q hq
        rcases List.mem_cons.1 ha with rfl | ha
        · omega
        · obtain ⟨hlt, hle, heq⟩ := hmore a ha
          omega
    · intro q hq
      rcases List.mem_append.1 hq with hq | hq
      · rcases List.mem_cons.1 hq with rfl | hq
        · exact .inl List.mem_cons_self
        · obtain ⟨hlt, hle, heq⟩ := hmore q hq
          exact .inr ⟨p, List.mem_cons_self, heq, hlt, fun m hm hm' => (hfollow m hm (by omega)).1⟩
      · rcases hcell q hq with hin | ⟨a, ha, hcont⟩
        · exact .inl (List.mem_cons_of_mem _ hin)
        · exact .inr ⟨a, List.mem_cons_of_mem _ ha, hcont⟩
    · intro first hfirst q hq
      obtain rfl : p = first := by simpa using hfirst
      rcases List.mem_append.1 hq with hq | hq
      · rcases List.mem_cons.1 hq with rfl | hq
        · exact ⟨le_rfl, le_rfl⟩
        · obtain ⟨hlt, -, heq⟩ := hmore q hq
          exact ⟨hlt.le, heq.ge⟩
      · have hq' := hbefore q hq
        omega

theorem weightAt_isSome : (weightAt rows normalized i j).isSome = true ↔
    ∃ row line, rows[i]? = some row ∧ normalized[j]? = some line ∧ lineMatches row.normalized line = true := by
  constructor
  · intro h
    cases hi : rows[i]? with
    | none => simp [weightAt, hi] at h
    | some row =>
      cases hj : normalized[j]? with
      | none => simp [weightAt, hi, hj] at h
      | some line =>
        rw [weightAt_eq hi hj, pairWeight] at h
        refine ⟨row, line, rfl, rfl, ?_⟩
        by_contra hm
        rw [if_neg hm] at h
        cases h
  · rintro ⟨row, line, hi, hj, hm⟩
    rw [weightAt_eq hi hj, pairWeight, if_pos hm]
    rfl

theorem weightAt_pos {w : Nat} (h : weightAt rows normalized i j = some w) : 0 < w := by
  obtain ⟨row, line, hi, hj, hm⟩ := weightAt_isSome.1 (by rw [h]; rfl)
  rw [weightAt_eq hi hj, pairWeight, if_pos hm] at h
  have := Option.some.inj h
  omega

/-- The corner of the table is zero iff nothing matches. -/
theorem corner_eq_zero_iff : scoreAt (tableOf rows normalized) rows.length normalized.length = 0 ↔
    ∀ row ∈ rows, ∀ line ∈ normalized, lineMatches row.normalized line = false := by
  rw [scoreAt_tableOf le_rfl le_rfl, Grid.best_eq_zero_iff (by simp [u32Max]) fun a b w hw => weightAt_pos hw]
  constructor
  · intro hnone row hrow line hline
    obtain ⟨i, hi⟩ := List.mem_iff_getElem?.1 hrow
    obtain ⟨j, hj⟩ := List.mem_iff_getElem?.1 hline
    have hcell := hnone i (List.getElem?_eq_some_iff.1 hi).1 j (List.getElem?_eq_some_iff.1 hj).1
    rw [Bool.eq_false_iff]
    intro hm
    have hsome := weightAt_isSome.2 ⟨row, line, hi, hj, hm⟩
    rw [hcell] at hsome
    cases hsome
  · intro hnone i _ j _
    cases hw : weightAt rows normalized i j with
    | none => rfl
    | some w =>
      obtain ⟨row, line, hi, hj, hm⟩ := weightAt_isSome.1 (by rw [hw]; rfl)
      rw [hnone row (List.mem_of_getElem? hi) line (List.mem_of_getElem? hj)] at hm
      cases hm

/-- Hits of picks that go downward go down the screen. -/
theorem hits_downward (h : Ordered (rows.map (·.line))) {picks : List (Nat × Nat)} {hits : List Hit}
    (hstand : List.Forall₂ (StandsAt rows) picks hits) (hdown : Downward picks) :
    hits.Pairwise fun a b => a.line.end' < b.line.start ∧ a.sourceIndex ≤ b.sourceIndex := by
  induction hstand with
  | nil => exact .nil
  | @cons p hit picks hits hhit hrest ih =>
    obtain ⟨hlast, hdown⟩ := List.pairwise_cons.1 hdown
    refine List.pairwise_cons.2 ⟨fun b hb => ?_, ih hdown⟩
    obtain ⟨q, hq, hb⟩ : ∃ q ∈ picks, StandsAt rows q b := by
      obtain ⟨k, hk, rfl⟩ := List.mem_iff_getElem.1 hb
      have hlen := hrest.length_eq
      exact ⟨picks[k], List.getElem_mem _, hrest.get (by omega) hk⟩
    obtain ⟨row, hrow, rfl⟩ := hhit
    obtain ⟨below, hbelow, rfl⟩ := hb
    exact ⟨h.lt hrow hbelow (hlast q hq).1, (hlast q hq).2⟩

end

/-- **The turn match is the best**: it is none iff no written row matches a line. Otherwise its hits go downward, a
row at most once; some of them are pairs that match, as heavy as any pairs whose rows and lines both increase can be,
up to the greatest `u32`, and each other hit continues the line of one of these. -/
theorem monotonicTurnMatch_best {screen : List ScreenRow} {source : Source} (h : Ordered (screen.map (·.line))) :
    (monotonicTurnMatch screen source = none ↔
      ∀ row ∈ written screen, ∀ line ∈ source.normalized, lineMatches row.normalized line = false) ∧
    ∀ m, monotonicTurnMatch screen source = some m → ∃ chosen picks : List (Nat × Nat),
      List.Forall₂ (StandsAt (written screen)) picks m.hits ∧ Downward picks ∧
      m.hits.Pairwise (fun a b => a.line.end' < b.line.start ∧ a.sourceIndex ≤ b.sourceIndex) ∧ chosen.Sublist picks ∧
      (∀ q ∈ picks, q ∈ chosen ∨ ∃ p ∈ chosen, Continues (written screen) source.normalized p q) ∧
      Grid.Chain (weightAt (written screen) source.normalized) (written screen).length source.normalized.length chosen ∧
      ∀ other, Grid.Chain (weightAt (written screen) source.normalized) (written screen).length
          source.normalized.length other →
        min (Grid.total (weightAt (written screen) source.normalized) other) u32Max ≤
          min (Grid.total (weightAt (written screen) source.normalized) chosen) u32Max := by
  have hrows := written_ordered h
  generalize hwritten : written screen = rows at hrows ⊢
  have hwalk := Grid.walk_spec (weightAt rows source.normalized) u32Max
    (le_refl (rows.length + source.normalized.length))
  generalize hchosen : Grid.walk (weightAt rows source.normalized) u32Max (rows.length + source.normalized.length)
    rows.length source.normalized.length = chosen at hwalk
  obtain ⟨hchain, htotal⟩ := hwalk
  obtain ⟨hits, hback, hstand⟩ := backtrack_eq (rows.length + source.normalized.length) []
    (le_refl rows.length) (le_refl source.normalized.length)
  rw [List.append_nil] at hback
  rw [hchosen] at hstand
  obtain ⟨picks, hpicks, hsub, hdown, hcell, -⟩ :=
    wrapped_spec source.normalized hrows hchain.step hstand
  rw [← corner_eq_zero_iff]
  unfold monotonicTurnMatch
  simp only [hwritten, hback]
  by_cases hzero : scoreAt (tableOf rows source.normalized) rows.length source.normalized.length = 0
  · rw [if_pos hzero]
    exact ⟨by simp [hzero], fun m hm => by cases hm⟩
  · rw [if_neg hzero]
    have hsome : wrapped rows source.normalized hits ≠ [] := by
      intro hnil
      rw [hnil] at hpicks
      cases hpicks
      obtain rfl := List.sublist_nil.1 hsub
      rw [scoreAt_tableOf le_rfl le_rfl, ← htotal] at hzero
      simp [Grid.total] at hzero
    split
    · rename_i hnil
      exact absurd hnil hsome
    · rename_i first more hwrapped
      refine ⟨by simp [hzero], fun m hm => ?_⟩
      obtain rfl := Option.some.inj hm
      rw [hwrapped] at hpicks
      refine ⟨chosen, picks, hpicks, hdown, hits_downward hrows hpicks hdown, hsub, hcell, hchain, ?_⟩
      intro other hother
      rw [htotal]
      exact Grid.le_best _ hother

/-! ## One line on two rows -/

def shortLine : Text := "all checks passed".toList

/-- The line stands on the screen twice, with other output between. -/
def twiceScreen : List ScreenRow := [⟨⟨shortLine, 0, 0⟩, shortLine⟩, ⟨⟨shortLine, 5, 5⟩, shortLine⟩]

def onceSource : Source := ⟨⟨[], [], 0, 0, [], [], []⟩, [], [shortLine]⟩

theorem twiceScreen_ordered : Ordered (twiceScreen.map (·.line)) where
  le := by simp [twiceScreen]
  apart := by simp [twiceScreen]

theorem onceSource_best : (monotonicTurnMatch twiceScreen onceSource = none ↔
      ∀ row ∈ written twiceScreen, ∀ line ∈ onceSource.normalized, lineMatches row.normalized line = false) ∧
    ∀ m, monotonicTurnMatch twiceScreen onceSource = some m → ∃ chosen picks : List (Nat × Nat),
      List.Forall₂ (StandsAt (written twiceScreen)) picks m.hits ∧ Downward picks ∧
      m.hits.Pairwise (fun a b => a.line.end' < b.line.start ∧ a.sourceIndex ≤ b.sourceIndex) ∧ chosen.Sublist picks ∧
      (∀ q ∈ picks, q ∈ chosen ∨ ∃ p ∈ chosen, Continues (written twiceScreen) onceSource.normalized p q) ∧
      Grid.Chain (weightAt (written twiceScreen) onceSource.normalized) (written twiceScreen).length
        onceSource.normalized.length chosen ∧
      ∀ other, Grid.Chain (weightAt (written twiceScreen) onceSource.normalized) (written twiceScreen).length
          onceSource.normalized.length other →
        min (Grid.total (weightAt (written twiceScreen) onceSource.normalized) other) u32Max ≤
          min (Grid.total (weightAt (written twiceScreen) onceSource.normalized) chosen) u32Max :=
  monotonicTurnMatch_best twiceScreen_ordered

/-- What a hit's own row and line add. -/
def hitWeight (rows : List ScreenRow) (normalized : List Text) (hit : Hit) : Nat :=
  ((rows.find? fun row => row.line = hit.line).bind fun row =>
    (normalized[hit.sourceIndex]?).bind (pairWeight row.normalized)).getD 0

/-- Both rows match the one line, and the match takes one of them. -/
theorem second_row_left_out : ¬∀ (screen : List ScreenRow) (source : Source) (m : TurnMatch),
    Ordered (screen.map (·.line)) → monotonicTurnMatch screen source = some m → ∀ other : List (Nat × Nat),
      Downward other → (∀ p ∈ other, (weightAt (written screen) source.normalized p.1 p.2).isSome) →
        Grid.total (weightAt (written screen) source.normalized) other ≤
          (m.hits.map (hitWeight (written screen) source.normalized)).sum := by
  intro h
  have hrun : monotonicTurnMatch twiceScreen onceSource = some ⟨onceSource, [⟨⟨shortLine, 5, 5⟩, 0⟩], 1⟩ := by
    decide +kernel
  have hmore := h twiceScreen onceSource _ twiceScreen_ordered hrun [(0, 0), (1, 0)] (by simp [Downward])
    (by decide +kernel)
  revert hmore
  decide +kernel

end BoopTurnvis
