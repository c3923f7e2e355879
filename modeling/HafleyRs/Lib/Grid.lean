import Mathlib

/-!
# Heaviest chains through a grid

`weight i j` is what the cell of row `i` and column `j` adds, if it may be taken. A `Chain` takes cells whose rows and
columns both increase, and adds up to its total, which is capped. `best` is the recurrence a table is filled by: no
chain comes to more (`le_best`), and the walk back from the corner finds a chain that comes to it (`walk_spec`), in
whatever way ties between the row above and the column to the left are broken.
-/

namespace Grid
variable (weight : Nat → Nat → Option Nat) (cap : Nat)

/-- What the cells above `i` and left of `j` come to at most. -/
def best : Nat → Nat → Nat
  | 0, _ => 0
  | _ + 1, 0 => 0
  | i + 1, j + 1 =>
    max (max ((weight i j).elim 0 fun w => min (best i j + w) cap) (best i (j + 1))) (best (i + 1) j)
termination_by i j => i + j

def total (ps : List (Nat × Nat)) : Nat := (ps.map fun p => (weight p.1 p.2).getD 0).sum

/-- Cells above `i` and left of `j`, each below and right of the one before. -/
structure Chain (i j : Nat) (ps : List (Nat × Nat)) : Prop where
  step   : ps.Pairwise fun p q => p.1 < q.1 ∧ p.2 < q.2
  inside : ∀ p ∈ ps, p.1 < i ∧ p.2 < j
  cell   : ∀ p ∈ ps, (weight p.1 p.2).isSome

/-- The cell is taken when the score is the one it gives. -/
def taken (i j : Nat) : Bool :=
  (weight i j).any fun w => best weight cap (i + 1) (j + 1) = min (best weight cap i j + w) cap

/-- The walk back, over at most `fuel` cells. -/
def walk : Nat → Nat → Nat → List (Nat × Nat)
  | fuel + 1, i + 1, j + 1 =>
    if taken weight cap i j then walk fuel i j ++ [(i, j)]
    else if best weight cap (i + 1) j ≤ best weight cap i (j + 1) then walk fuel i (j + 1)
    else walk fuel (i + 1) j
  | _, _, _ => []

variable {weight cap} {i j : Nat} {ps : List (Nat × Nat)}

@[simp] theorem best_zero_left : best weight cap 0 j = 0 := by rw [best]

@[simp] theorem best_zero_right : best weight cap i 0 = 0 := by
  cases i with
  | zero => rw [best]
  | succ i => rw [best]

variable (weight cap i j) in
theorem best_succ : best weight cap (i + 1) (j + 1) =
    max (max ((weight i j).elim 0 fun w => min (best weight cap i j + w) cap) (best weight cap i (j + 1)))
      (best weight cap (i + 1) j) := by
  rw [best]

theorem chain_nil : Chain weight i j [] := ⟨List.Pairwise.nil, by simp, by simp⟩

theorem chain_concat {p : Nat × Nat} : Chain weight i j (ps ++ [p]) ↔
    Chain weight p.1 p.2 ps ∧ p.1 < i ∧ p.2 < j ∧ (weight p.1 p.2).isSome := by
  constructor
  · intro h
    obtain ⟨hps, -, hlast⟩ := List.pairwise_append.1 h.step
    have hp : p ∈ ps ++ [p] := by simp
    refine ⟨⟨hps, fun q hq => hlast q hq p (by simp), fun q hq => h.cell q (List.mem_append_left _ hq)⟩, ?_⟩
    exact ⟨(h.inside p hp).1, (h.inside p hp).2, h.cell p hp⟩
  · rintro ⟨h, hi, hj, hcell⟩
    refine ⟨List.pairwise_append.2 ⟨h.step, by simp, ?_⟩, fun q hq => ?_, fun q hq => ?_⟩
    · intro q hq p' hp'
      rw [List.mem_singleton.1 hp']
      exact h.inside q hq
    · rcases List.mem_append.1 hq with hq | hq
      · exact ⟨(h.inside q hq).1.trans hi, (h.inside q hq).2.trans hj⟩
      · rw [List.mem_singleton.1 hq]
        exact ⟨hi, hj⟩
    · rcases List.mem_append.1 hq with hq | hq
      · exact h.cell q hq
      · rwa [List.mem_singleton.1 hq]

theorem total_concat (ps : List (Nat × Nat)) (p : Nat × Nat) :
    total weight (ps ++ [p]) = total weight ps + (weight p.1 p.2).getD 0 := by
  simp [total]

theorem Chain.mono {i' j' : Nat} (h : Chain weight i j ps) (hi : i ≤ i') (hj : j ≤ j') : Chain weight i' j' ps :=
  ⟨h.step, fun p hp => ⟨(h.inside p hp).1.trans_le hi, (h.inside p hp).2.trans_le hj⟩, h.cell⟩

variable (cap) in
/-- **No chain comes to more.** -/
theorem le_best (h : Chain weight i j ps) : min (total weight ps) cap ≤ best weight cap i j := by
  induction i, j using best.induct generalizing ps with
  | case1 j =>
    cases ps with
    | nil => simp [total]
    | cons p ps => exact absurd (h.inside p List.mem_cons_self).1 (Nat.not_lt_zero _)
  | case2 i =>
    cases ps with
    | nil => simp [total]
    | cons p ps => exact absurd (h.inside p List.mem_cons_self).2 (Nat.not_lt_zero _)
  | case3 i j ihcorner ihup ihleft =>
    rcases List.eq_nil_or_concat' ps with rfl | ⟨ps, p, rfl⟩
    · simp [total]
    obtain ⟨hps, hi, hj, hcell⟩ := chain_concat.1 h
    rw [best_succ]
    rcases Nat.lt_succ_iff_lt_or_eq.1 hi with hi' | hi'
    · have hup := ihup (chain_concat.2 ⟨hps, hi', hj, hcell⟩)
      exact hup.trans ((le_max_right _ _).trans (le_max_left _ _))
    · rcases Nat.lt_succ_iff_lt_or_eq.1 hj with hj' | hj'
      · have hleft := ihleft (chain_concat.2 ⟨hps, hi, hj', hcell⟩)
        exact hleft.trans (le_max_right _ _)
      · obtain ⟨a, b⟩ := p
        cases hi'
        cases hj'
        obtain ⟨w, hw⟩ := Option.isSome_iff_exists.1 hcell
        have hcorner := ihcorner hps
        refine le_trans ?_ ((le_max_left _ _).trans (le_max_left _ _))
        rw [total_concat, hw, Option.getD_some, Option.elim_some]
        omega

/-- A cell that is not taken adds nothing. -/
theorem best_of_not_taken (h : taken weight cap i j = false) :
    best weight cap (i + 1) (j + 1) = max (best weight cap i (j + 1)) (best weight cap (i + 1) j) := by
  have hbest := best_succ weight cap i j
  cases hw : weight i j with
  | none =>
    rw [hw] at hbest
    simpa using hbest
  | some w =>
    rw [taken, hw, Option.any_some, decide_eq_false_iff_not] at h
    rw [hw, Option.elim_some] at hbest
    omega

variable (weight cap) in
/-- **The walk finds the best chain.** -/
theorem walk_spec {fuel : Nat} (h : i + j ≤ fuel) : Chain weight i j (walk weight cap fuel i j) ∧
    min (total weight (walk weight cap fuel i j)) cap = best weight cap i j := by
  induction fuel generalizing i j with
  | zero =>
    obtain ⟨rfl, rfl⟩ : i = 0 ∧ j = 0 := by omega
    exact ⟨chain_nil, by simp [walk, total]⟩
  | succ fuel ih =>
    cases i with
    | zero => exact ⟨chain_nil, by simp [walk, total]⟩
    | succ i =>
      cases j with
      | zero => exact ⟨chain_nil, by simp [walk, total]⟩
      | succ j =>
        rw [walk]
        by_cases htaken : taken weight cap i j = true
        · rw [if_pos htaken]
          obtain ⟨hchain, htotal⟩ := ih (i := i) (j := j) (by omega)
          cases hw : weight i j with
          | none => simp [taken, hw] at htaken
          | some w =>
            rw [taken, hw, Option.any_some, decide_eq_true_eq] at htaken
            refine ⟨chain_concat.2 ⟨hchain, i.lt_succ_self, j.lt_succ_self, by rw [hw]; rfl⟩, ?_⟩
            rw [total_concat, hw, Option.getD_some, htaken]
            omega
        · rw [if_neg htaken]
          have hbest := best_of_not_taken (Bool.eq_false_iff.2 htaken)
          by_cases hle : best weight cap (i + 1) j ≤ best weight cap i (j + 1)
          · rw [if_pos hle]
            obtain ⟨hchain, htotal⟩ := ih (i := i) (j := j + 1) (by omega)
            exact ⟨hchain.mono i.le_succ le_rfl, by rw [htotal, hbest, max_eq_left hle]⟩
          · rw [if_neg hle]
            obtain ⟨hchain, htotal⟩ := ih (i := i + 1) (j := j) (by omega)
            exact ⟨hchain.mono le_rfl j.le_succ, by rw [htotal, hbest, max_eq_right (by omega)]⟩

/-- The score is nothing iff there is no cell to take. -/
theorem best_eq_zero_iff (hcap : 0 < cap) (hpos : ∀ a b w, weight a b = some w → 0 < w) :
    best weight cap i j = 0 ↔ ∀ a < i, ∀ b < j, weight a b = none := by
  constructor
  · intro h a ha b hb
    cases hw : weight a b with
    | none => rfl
    | some w =>
      have hsingle : Chain weight i j ([] ++ [(a, b)]) := chain_concat.2 ⟨chain_nil, ha, hb, by simp [hw]⟩
      have hle := le_best cap hsingle
      have htotal : total weight [(a, b)] = w := by simp [total, hw]
      rw [List.nil_append, h, htotal] at hle
      have := hpos a b w hw
      omega
  · intro h
    obtain ⟨hchain, htotal⟩ := walk_spec weight cap (le_refl (i + j))
    have hnil : walk weight cap (i + j) i j = [] := by
      refine List.eq_nil_iff_forall_not_mem.2 fun p hp => ?_
      have hcell := hchain.cell p hp
      rw [h p.1 (hchain.inside p hp).1 p.2 (hchain.inside p hp).2] at hcell
      cases hcell
    rw [← htotal, hnil]
    simp [total]

end Grid
