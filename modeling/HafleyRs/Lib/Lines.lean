import Mathlib.Data.List.Basic
import Mathlib.Data.List.DropRight
import Mathlib.Tactic

/-!
# Binary search by a comparison

The search keeps a window and halves it: the middle element moves its start unless it compares greater. Where
the elements up to an index do not compare greater and all after it do, the window closes on that index
(`narrow_eq`), so an element that compares equal there is found (`binarySearchBy_eq`), and one that holds a condition
all before it do ends the part that does (`partitionPoint_append`).
-/

namespace Search
variable {α : Type*}

/-- The start of the window `[base, base + size)` when it has shrunk to one element. -/
def narrow (cmp : α → Ordering) (xs : List α) (base size : Nat) : Nat :=
  if 1 < size then
    let half := size / 2
    let mid := base + half
    narrow cmp xs (if xs[mid]?.map cmp = some .gt then base else mid) (size - half)
  else base
termination_by size
decreasing_by omega

def binarySearchBy (cmp : α → Ordering) (xs : List α) : Option Nat :=
  if xs.isEmpty then none
  else
    let base := narrow cmp xs 0 xs.length
    if xs[base]?.map cmp = some .eq then some base else none

/-- Up to the index nothing compares greater, after it everything does. -/
structure Splits (cmp : α → Ordering) (xs : List α) (i : Nat) : Prop where
  upTo  : ∀ j x, j ≤ i → xs[j]? = some x → cmp x ≠ .gt
  after : ∀ j x, i < j → xs[j]? = some x → cmp x = .gt

theorem narrow_eq {cmp : α → Ordering} {xs : List α} {i : Nat} (h : Splits cmp xs i) (base size : Nat)
    (hlo : base ≤ i) (hhi : i < base + size) (hlen : base + size ≤ xs.length) : narrow cmp xs base size = i := by
  induction size using Nat.strong_induction_on generalizing base with
  | _ size ih =>
    rw [narrow]
    by_cases hsize : 1 < size
    · have hmid : base + size / 2 < xs.length := by omega
      have hget : xs[base + size / 2]? = some xs[base + size / 2] := List.getElem?_eq_getElem hmid
      rw [if_pos hsize]
      simp only [hget, Option.map_some, Option.some.injEq]
      by_cases hgt : cmp xs[base + size / 2] = .gt
      · -- the index stands before the middle
        have hlt : i < base + size / 2 := by
          by_contra hle
          exact h.upTo _ _ (by omega) hget hgt
        rw [if_pos hgt]
        exact ih _ (by omega) _ hlo (by omega) (by omega)
      · have hle : base + size / 2 ≤ i := by
          by_contra hlt
          exact hgt (h.after _ _ (by omega) hget)
        rw [if_neg hgt]
        exact ih _ (by omega) _ hle (by omega) (by omega)
    · rw [if_neg hsize]
      omega

theorem binarySearchBy_eq {cmp : α → Ordering} {xs : List α} {i : Nat} (h : Splits cmp xs i) {x : α}
    (hx : xs[i]? = some x) (heq : cmp x = .eq) : binarySearchBy cmp xs = some i := by
  have hi : i < xs.length := (List.getElem?_eq_some_iff.1 hx).1
  have hne : xs.isEmpty = false := by
    cases xs with
    | nil => simp at hi
    | cons _ _ => rfl
  have hbase := narrow_eq h 0 xs.length (by omega) (by omega) (by omega)
  simp [binarySearchBy, hne, hbase, hx, heq]

/-! ## Where a condition ends -/

def partitionPoint (p : α → Bool) (xs : List α) : Nat :=
  if xs.isEmpty then 0
  else
    let base := narrow (fun x => if p x then .lt else .gt) xs 0 xs.length
    if xs[base]?.map p = some true then base + 1 else base

theorem narrow_stays {cmp : α → Ordering} {xs : List α} (h : ∀ x ∈ xs, cmp x = .gt) (base size : Nat)
    (hlen : base + size ≤ xs.length) : narrow cmp xs base size = base := by
  induction size using Nat.strong_induction_on generalizing base with
  | _ size ih =>
    rw [narrow]
    by_cases hsize : 1 < size
    · have hmid : base + size / 2 < xs.length := by omega
      have hgt : xs[base + size / 2]?.map cmp = some .gt := by
        rw [List.getElem?_eq_getElem hmid, Option.map_some, h _ (List.getElem_mem hmid)]
      simp only [hgt, if_pos hsize, if_true]
      exact ih _ (by omega) _ (by omega)
    · rw [if_neg hsize]

theorem partitionPoint_of_narrow {p : α → Bool} {xs : List α} {base : Nat} {x : α} (hget : xs[base]? = some x)
    (h : narrow (fun x => if p x then .lt else .gt) xs 0 xs.length = base) :
    partitionPoint p xs = if p x then base + 1 else base := by
  have hne : xs.isEmpty = false := by
    cases xs with
    | nil => cases hget
    | cons y ys => rfl
  rw [partitionPoint, hne, if_neg Bool.false_ne_true, h]
  simp only [hget, Option.map_some, Option.some.injEq]

/-- **The point is the length of the part where the condition holds.** -/
theorem partitionPoint_append {p : α → Bool} {as bs : List α} (has : ∀ a ∈ as, p a = true)
    (hbs : ∀ b ∈ bs, p b = false) : partitionPoint p (as ++ bs) = as.length := by
  rcases List.eq_nil_or_concat' as with rfl | ⟨front, a, rfl⟩
  · cases bs with
    | nil => rfl
    | cons b bs =>
      have hgt : ∀ x ∈ b :: bs, (if p x then Ordering.lt else Ordering.gt) = .gt := by
        intro x hx
        rw [hbs x hx]
        rfl
      have hbase := narrow_stays hgt 0 (b :: bs).length (by omega)
      rw [List.nil_append, partitionPoint_of_narrow rfl hbase, hbs b List.mem_cons_self]
      rfl
  · have hsplits : Splits (fun x => if p x then .lt else .gt) (front ++ [a] ++ bs) front.length := by
      refine ⟨fun j x hj hx => ?_, fun j x hj hx => ?_⟩
      · have hlt : j < (front ++ [a]).length := by
          rw [List.length_append, List.length_singleton]
          omega
        rw [List.getElem?_append_left hlt] at hx
        simp [has x (List.mem_of_getElem? hx)]
      · rw [List.getElem?_append_right (by rw [List.length_append, List.length_singleton]; omega)] at hx
        simp [hbs x (List.mem_of_getElem? hx)]
    have hbase := narrow_eq hsplits 0 (front ++ [a] ++ bs).length (by omega) (by simp) (by omega)
    have hget : (front ++ [a] ++ bs)[front.length]? = some a := by simp
    rw [partitionPoint_of_narrow hget hbase, has a (by simp), if_pos rfl, List.length_append, List.length_singleton]

end Search

/-!
# Where the lines of a text start

A line starts at the front and behind every separator. The starts up to an offset are those of the text up to there,
so a search by `≤` over all of them gives the number of the line (`partitionPoint_starts`), and the start found there
is as far back as the line is long (`getElem?_starts`).
-/

namespace Lines
open Search
variable {α : Type*} [DecidableEq α] {sep : α} {xs ys : List α} {n offset : Nat}

/-- The starts behind the separators, the text being `n` into a longer one. -/
def startsFrom (sep : α) (n : Nat) : List α → List Nat
  | [] => []
  | x :: xs => if x = sep then (n + 1) :: startsFrom sep (n + 1) xs else startsFrom sep (n + 1) xs

def starts (sep : α) (xs : List α) : List Nat := 0 :: startsFrom sep 0 xs

/-- What is behind the last separator. -/
def lastLine (sep : α) (xs : List α) : List α := xs.rtakeWhile (· ≠ sep)

theorem startsFrom_append : startsFrom sep n (xs ++ ys) = startsFrom sep n xs ++ startsFrom sep (n + xs.length) ys := by
  induction xs generalizing n with
  | nil => rfl
  | cons x xs ih =>
    have hlen : n + 1 + xs.length = n + (x :: xs).length := by simp; omega
    rw [List.cons_append, startsFrom, startsFrom, ih, hlen]
    split
    · rfl
    · rfl

theorem starts_append : starts sep (xs ++ ys) = starts sep xs ++ startsFrom sep xs.length ys := by
  rw [starts, startsFrom_append, Nat.zero_add]
  rfl

theorem mem_startsFrom {s : Nat} (h : s ∈ startsFrom sep n xs) : n < s ∧ s ≤ n + xs.length := by
  induction xs generalizing n with
  | nil => cases h
  | cons x xs ih =>
    have hrest : s ∈ startsFrom sep (n + 1) xs → n < s ∧ s ≤ n + (x :: xs).length := by
      intro hs
      have := ih hs
      simp only [List.length_cons]
      omega
    rw [startsFrom] at h
    split at h
    · rcases List.mem_cons.1 h with rfl | h
      · simp only [List.length_cons]
        omega
      · exact hrest h
    · exact hrest h

theorem length_startsFrom : (startsFrom sep n xs).length = xs.count sep := by
  induction xs generalizing n with
  | nil => rfl
  | cons x xs ih =>
    rw [startsFrom]
    split
    · rename_i hx
      rw [List.length_cons, ih, hx, List.count_cons_self]
    · rename_i hx
      rw [ih, List.count_cons_of_ne hx]

theorem length_starts : (starts sep xs).length = xs.count sep + 1 := by
  rw [starts, List.length_cons, length_startsFrom]

theorem lastLine_le : (lastLine sep xs).length ≤ xs.length := (List.rtakeWhile_suffix _ xs).length_le

/-- A text is its lines up to the last one, and that one. -/
theorem lastLine_spec (sep : α) (xs : List α) : ∃ front, xs = front ++ lastLine sep xs ∧
    (front = [] ∨ front.getLast? = some sep) ∧ sep ∉ lastLine sep xs := by
  refine ⟨xs.rdropWhile (· ≠ sep), List.rdropWhile_append_rtakeWhile.symm, ?_, fun h => ?_⟩
  · by_cases hnil : xs.rdropWhile (· ≠ sep) = []
    · exact .inl hnil
    · have hlast := List.rdropWhile_last_not _ xs hnil
      rw [List.getLast?_eq_some_getLast hnil]
      exact .inr (by simpa using hlast)
  · have hne := List.mem_rtakeWhile_imp h
    simp at hne

theorem getLast?_starts (sep : α) (xs : List α) :
    (starts sep xs).getLast? = some (xs.length - (lastLine sep xs).length) := by
  induction xs using List.reverseRecOn with
  | nil => rfl
  | append_singleton xs x ih =>
    rw [starts_append, startsFrom, lastLine]
    by_cases hx : x = sep
    · rw [if_pos hx, List.rtakeWhile_concat_neg _ _ _ (by simp [hx])]
      simp [startsFrom]
    · have hle : (lastLine sep xs).length ≤ xs.length := lastLine_le
      rw [if_neg hx, List.rtakeWhile_concat_pos _ _ _ (by simp [hx]), startsFrom, List.append_nil, ih,
        List.length_append, List.length_append]
      rw [lastLine] at hle ⊢
      simp only [List.length_singleton, Option.some.injEq]
      omega

section
variable (sep) (h : offset ≤ xs.length)
include h

theorem starts_take : starts sep xs = starts sep (xs.take offset) ++ startsFrom sep offset (xs.drop offset) := by
  have hlen : (xs.take offset).length = offset := List.length_take_of_le h
  conv_lhs => rw [← List.take_append_drop offset xs]
  rw [starts_append, hlen]

/-- **The search gives the number of the line**, counted from 1. -/
theorem partitionPoint_starts :
    partitionPoint (fun start => start ≤ offset) (starts sep xs) = (xs.take offset).count sep + 1 := by
  have hlen : (xs.take offset).length = offset := List.length_take_of_le h
  rw [starts_take sep h, partitionPoint_append, length_starts]
  · intro s hs
    rcases List.mem_cons.1 hs with rfl | hs
    · simp
    · have := (mem_startsFrom hs).2
      exact decide_eq_true (by omega)
  · intro s hs
    have := (mem_startsFrom hs).1
    exact decide_eq_false (by omega)

/-- **The line's start is as far back as the line is long.** -/
theorem getElem?_starts : (starts sep xs)[(xs.take offset).count sep]? =
    some (offset - (lastLine sep (xs.take offset)).length) := by
  have hlen : (xs.take offset).length = offset := List.length_take_of_le h
  have hlast := getLast?_starts sep (xs.take offset)
  rw [List.getLast?_eq_getElem?, length_starts, Nat.add_sub_cancel, hlen] at hlast
  rw [starts_take sep h, List.getElem?_append_left (by rw [length_starts]; omega), hlast]

end

end Lines
