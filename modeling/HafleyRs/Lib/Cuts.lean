import Mathlib

/-!
# Ranges of whole numbers cut out of a range

A range is closed at both ends, and holds nothing if its ends are the wrong way round. `cutAll` takes ranges out of a
list of pieces, one after the other, and drops the pieces that become empty. What is left of one range is what none of
the others covers (`within_cutAll`), and as a cut leaves a number between the two sides (`apart_cutAll`), each piece is
a run: it cannot be made longer (`Apart.run`).
-/

namespace Cuts

def Within (r : Int) (p : Int × Int) : Prop := p.1 ≤ r ∧ r ≤ p.2

/-- One piece without `c`. -/
def cut (c p : Int × Int) : List (Int × Int) :=
  if c.2 < p.1 ∨ p.2 < c.1 then [p] else [(p.1, c.1 - 1), (c.2 + 1, p.2)]

def cutAll (cs ps : List (Int × Int)) : List (Int × Int) :=
  cs.foldl (fun ps c => (ps.flatMap (cut c)).filter fun p => p.1 ≤ p.2) ps

/-- In order, with a number between each two. -/
def Apart (ps : List (Int × Int)) : Prop := ps.Pairwise fun p q => p.2 + 1 < q.1

/-- A range of numbers of `S` that cannot be made longer. -/
structure Run (S : Int → Prop) (p : Int × Int) : Prop where
  some'  : p.1 ≤ p.2
  inside : ∀ r, Within r p → S r
  before : ¬S (p.1 - 1)
  after  : ¬S (p.2 + 1)

variable {r : Int} {c p : Int × Int} {cs ps : List (Int × Int)}

theorem within_cut : (∃ q ∈ cut c p, Within r q) ↔ Within r p ∧ ¬Within r c := by
  rw [cut]
  split
  · rename_i hoff
    simp only [List.mem_singleton, exists_eq_left, Within]
    omega
  · simp only [List.mem_cons, List.not_mem_nil, or_false, exists_eq_or_imp, exists_eq_left, Within]
    omega

theorem cut_inside {q : Int × Int} (hq : q ∈ cut c p) : p.1 ≤ q.1 ∧ q.2 ≤ p.2 := by
  rw [cut] at hq
  split at hq
  · rw [List.mem_singleton.1 hq]
    exact ⟨le_rfl, le_rfl⟩
  · rename_i hmeet
    simp only [List.mem_cons, List.not_mem_nil, or_false] at hq
    rcases hq with rfl | rfl
    · simp only
      omega
    · simp only
      omega

theorem apart_cut (h : c.1 ≤ c.2) : Apart (cut c p) := by
  rw [cut]
  split
  · exact List.pairwise_singleton _ _
  · refine List.pairwise_pair.2 ?_
    simp only
    omega

theorem mem_step {q : Int × Int} : q ∈ (ps.flatMap (cut c)).filter (fun p => decide (p.1 ≤ p.2)) ↔
    (∃ p ∈ ps, q ∈ cut c p) ∧ q.1 ≤ q.2 := by
  rw [List.mem_filter, List.mem_flatMap, decide_eq_true_eq]

theorem within_step :
    (∃ q ∈ (ps.flatMap (cut c)).filter (fun p => decide (p.1 ≤ p.2)), Within r q) ↔
      (∃ p ∈ ps, Within r p) ∧ ¬Within r c := by
  constructor
  · rintro ⟨q, hq, hr⟩
    obtain ⟨⟨p, hp, hq⟩, -⟩ := mem_step.1 hq
    obtain ⟨hrp, hrc⟩ := within_cut.1 ⟨q, hq, hr⟩
    exact ⟨⟨p, hp, hrp⟩, hrc⟩
  · rintro ⟨⟨p, hp, hrp⟩, hrc⟩
    obtain ⟨q, hq, hr⟩ := within_cut.2 ⟨hrp, hrc⟩
    exact ⟨q, mem_step.2 ⟨⟨p, hp, hq⟩, hr.1.trans hr.2⟩, hr⟩

theorem apart_step (h : c.1 ≤ c.2) (hps : Apart ps) :
    Apart ((ps.flatMap (cut c)).filter fun p => decide (p.1 ≤ p.2)) := by
  induction ps with
  | nil => exact .nil
  | cons p ps ih =>
    obtain ⟨hfirst, hrest⟩ := List.pairwise_cons.1 hps
    rw [List.flatMap_cons, List.filter_append]
    refine List.pairwise_append.2 ⟨(apart_cut h).filter _, ih hrest, ?_⟩
    intro a ha b hb
    obtain ⟨⟨q, hq, hb⟩, -⟩ := mem_step.1 hb
    have hleft := (cut_inside (List.mem_of_mem_filter ha)).2
    have hright := (cut_inside hb).1
    have hgap := hfirst q hq
    omega

/-- **What is left is what no cut covers.** -/
theorem within_cutAll :
    (∃ q ∈ cutAll cs ps, Within r q) ↔ (∃ p ∈ ps, Within r p) ∧ ∀ c ∈ cs, ¬Within r c := by
  induction cs generalizing ps with
  | nil => simp [cutAll]
  | cons c cs ih =>
    rw [cutAll, List.foldl_cons, ← cutAll, ih, within_step, List.forall_mem_cons, and_assoc]

theorem apart_cutAll (h : ∀ c ∈ cs, c.1 ≤ c.2) (hps : Apart ps) : Apart (cutAll cs ps) := by
  induction cs generalizing ps with
  | nil => exact hps
  | cons c cs ih =>
    rw [cutAll, List.foldl_cons]
    exact ih (fun d hd => h d (List.mem_cons_of_mem _ hd)) (apart_step (h c List.mem_cons_self) hps)

/-- A piece among pieces that are apart cannot be made longer. -/
theorem Apart.run (h : Apart ps) (hp : p ∈ ps) (hsome : p.1 ≤ p.2) : Run (fun r => ∃ q ∈ ps, Within r q) p := by
  obtain ⟨front, back, rfl⟩ := List.append_of_mem hp
  obtain ⟨-, hback, hfront⟩ := List.pairwise_append.1 h
  have hother : ∀ q ∈ front ++ p :: back, q.2 + 1 < p.1 ∨ q = p ∨ p.2 + 1 < q.1 := by
    intro q hq
    rcases List.mem_append.1 hq with hq | hq
    · exact .inl (hfront q hq p List.mem_cons_self)
    · rcases List.mem_cons.1 hq with rfl | hq
      · exact .inr (.inl rfl)
      · exact .inr (.inr ((List.pairwise_cons.1 hback).1 q hq))
  have hbeside : ∀ r, r = p.1 - 1 ∨ r = p.2 + 1 → ¬∃ q ∈ front ++ p :: back, Within r q := by
    rintro r hr ⟨q, hq, hin⟩
    rw [Within] at hin
    rcases hother q hq with hlt | rfl | hlt
    · omega
    · omega
    · omega
  exact ⟨hsome, fun r hr => ⟨p, hp, hr⟩, hbeside _ (.inl rfl), hbeside _ (.inr rfl)⟩

end Cuts
