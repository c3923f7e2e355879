import HafleyRs.Lib.Worklist
import HafleyRs.Lib.Dominance

/-!
# Immediate dominators by search

A node dominates another when a search that never enters it does not come to the other. The immediate dominator is
the strict dominator that all strict dominators dominate. Slow, and plainly right (`idom_immediate`).
-/

namespace Dominance
open Worklist

section
variable {V : Type} [DecidableEq V] {succ : V → List V} {root d n : V}

/-- The successors with `d` left out. -/
def without (succ : V → List V) (d v : V) : List V := (succ v).filter (· ≠ d)

theorem mem_without {v w : V} : w ∈ without succ d v ↔ w ∈ succ v ∧ w ≠ d := by simp [without]

omit [DecidableEq V] in
/-- Ways are what a search follows. -/
theorem exists_path_iff : (∃ l, Path (fun a b => b ∈ succ a) root n l) ↔ Reaches succ root n := by
  constructor
  · rintro ⟨l, hl⟩
    induction hl with
    | single a => exact .refl
    | cons hab _ ih => exact .head hab ih
  · intro h
    induction h with
    | refl => exact ⟨[root], .single root⟩
    | tail _ hbc ih =>
      obtain ⟨l, hl⟩ := ih
      exact ⟨_, hl.snoc hbc⟩

theorem exists_path_without (hd : d ≠ root) :
    (∃ l, Path (fun a b => b ∈ succ a) root n l ∧ d ∉ l) ↔ Reaches (without succ d) root n := by
  constructor
  · rintro ⟨l, hl, hnot⟩
    induction hl with
    | single a => exact .refl
    | cons hab hp ih =>
      rw [List.mem_cons, not_or] at hnot
      have hbd : d ≠ _ := fun h => hnot.2 (h ▸ hp.head_mem)
      exact .head (mem_without.2 ⟨hab, hbd.symm⟩) (ih hbd hnot.2)
  · intro h
    induction h with
    | refl => exact ⟨[root], .single root, by simpa using hd⟩
    | tail _ hbc ih =>
      obtain ⟨l, hl, hnot⟩ := ih
      obtain ⟨hbc, hne⟩ := mem_without.1 hbc
      refine ⟨_, hl.snoc hbc, ?_⟩
      rw [List.mem_append, not_or]
      exact ⟨hnot, by simpa using hne.symm⟩

end

variable {count : Nat} (succ : Fin count → List (Fin count)) (root : Fin count)

/-- What a search from the root comes to. -/
def marks : Finset (Fin count) := (search succ (count + 1) ([root], {root})).getD ∅

theorem mem_marks {n : Fin count} : n ∈ marks succ root ↔ Reaches succ root n := by
  have hfuel : Fintype.card (Fin count) < count + 1 := by simp
  obtain ⟨m, hm, hiff⟩ := search_eq succ root hfuel
  rw [marks, hm]
  exact hiff n

def dominates (d n : Fin count) : Bool := d = root || !decide (n ∈ marks (without succ d) root)

theorem dominates_iff {d n : Fin count} :
    dominates succ root d n = true ↔ Dom (fun a b => b ∈ succ a) root d n := by
  by_cases hd : d = root
  · subst hd
    simp only [dominates, decide_true, Bool.true_or, true_iff]
    exact fun l hl => hl.head_mem
  · simp only [dominates, hd, decide_false, Bool.false_or, Bool.not_eq_true', decide_eq_false_iff_not, mem_marks,
      ← exists_path_without hd, not_exists, not_and, not_not]
    rfl

/-- A strict dominator of `n` that every other strict dominator dominates. -/
def isIdom (n d : Fin count) : Bool :=
  decide (d ≠ n) && dominates succ root d n &&
    (List.finRange count).all fun e => decide (e = n) || !dominates succ root e n || dominates succ root e d

def idom (n : Fin count) : Option (Fin count) :=
  if n = root ∨ n ∉ marks succ root then none else (List.finRange count).find? (isIdom succ root n)

theorem isIdom_iff {d n : Fin count} :
    isIdom succ root n d = true ↔ Dom (fun a b => b ∈ succ a) root d n ∧ d ≠ n ∧
      ∀ e, Dom (fun a b => b ∈ succ a) root e n → e ≠ n → Dom (fun a b => b ∈ succ a) root e d := by
  simp only [isIdom, Bool.and_eq_true, decide_eq_true_eq, List.all_eq_true, List.mem_finRange, true_imp_iff,
    Bool.or_eq_true, Bool.not_eq_true', ← dominates_iff]
  constructor
  · rintro ⟨⟨hne, hd⟩, hall⟩
    refine ⟨hd, hne, fun e he hen => ?_⟩
    rcases hall e with (h | h) | h
    · exact absurd h hen
    · rw [he] at h
      cases h
    · exact h
  · rintro ⟨hd, hne, hall⟩
    refine ⟨⟨hne, hd⟩, fun e => ?_⟩
    by_cases hen : e = n
    · exact .inl (.inl hen)
    · cases he : dominates succ root e n with
      | false => exact .inl (.inr rfl)
      | true => exact .inr (hall e he hen)

/-- **The table holds the immediate dominators.** -/
theorem idom_immediate : Immediate (fun a b => b ∈ succ a) root (idom succ root) where
  at_root := by simp [idom]
  outside n hn := by
    rw [exists_path_iff, ← mem_marks] at hn
    simp [idom, hn]
  above n hn hreach := by
    have hmarks := hreach
    rw [exists_path_iff, ← mem_marks] at hmarks
    obtain ⟨l, hl⟩ := hreach
    obtain ⟨d, hd, hmin⟩ := exists_immediate ⟨_, hl.reverse⟩ hn
    have hspec : isIdom succ root n d = true := (isIdom_iff succ root).2
      ⟨postDom_iff.1 hd.1, hd.2, fun e he hen => postDom_iff.1 (hmin e ⟨postDom_iff.2 he, hen⟩)⟩
    obtain ⟨d', hd'⟩ := Option.isSome_iff_exists.1 (List.find?_isSome.2 ⟨d, List.mem_finRange d, hspec⟩)
    refine ⟨d', ?_, (isIdom_iff succ root).1 (List.find?_some hd')⟩
    rw [idom, if_neg (by simp [hn, hmarks]), hd']

end Dominance
