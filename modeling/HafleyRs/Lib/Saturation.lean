import Mathlib

/-!
# Saturation

A rule `(a, b)` puts `b` into a set that has `a`. A scan fires a list of rules in order, each on what the
ones before it have left, and says whether it has added anything; `saturate` scans until one has not.
What comes out is the least set with the seeds that is closed under the rules (`mem_saturate`), whatever
their order. Every scan but the last adds a conclusion, so the scans end (`saturate_ends`).
-/

namespace Saturation
variable {α : Type} [DecidableEq α]

/-- What follows from the seeds. -/
inductive Derives (rules : List (α × α)) (seeds : Finset α) : α → Prop
  | seed {a : α} : a ∈ seeds → Derives rules seeds a
  | rule {a b : α} : (a, b) ∈ rules → Derives rules seeds a → Derives rules seeds b

def fire (s : Finset α × Bool) (r : α × α) : Finset α × Bool :=
  if r.1 ∈ s.1 then (insert r.2 s.1, s.2 || decide (r.2 ∉ s.1)) else s

def scan (rules : List (α × α)) (s : Finset α) : Finset α × Bool := rules.foldl fire (s, false)

/-- Scan until nothing changes; `none` when `fuel` scans are not enough. -/
def saturate (rules : List (α × α)) : Nat → Finset α → Option (Finset α)
  | 0, _ => none
  | fuel + 1, s => if (scan rules s).2 then saturate rules fuel (scan rules s).1 else some (scan rules s).1

/-! ## One rule -/

theorem fire_subset (s : Finset α × Bool) (r : α × α) : s.1 ⊆ (fire s r).1 := by
  unfold fire
  split
  · exact Finset.subset_insert _ _
  · exact Finset.Subset.refl _

/-- A rule leaves the flag down iff it was down and the rule had nothing to add. -/
theorem fire_flag (s : Finset α × Bool) (r : α × α) :
    (fire s r).2 = false ↔ s.2 = false ∧ (r.1 ∈ s.1 → r.2 ∈ s.1) := by
  unfold fire
  split
  · rename_i h
    simp [h]
  · rename_i h
    simp [h]

theorem fire_of_flag {s : Finset α × Bool} {r : α × α} (h : (fire s r).2 = false) : (fire s r).1 = s.1 := by
  have hr := ((fire_flag s r).1 h).2
  unfold fire
  split
  · exact Finset.insert_eq_of_mem (hr ‹_›)
  · rfl

theorem mem_fire {s : Finset α × Bool} {r : α × α} {a : α} (h : a ∈ (fire s r).1) :
    a ∈ s.1 ∨ (r.1 ∈ s.1 ∧ a = r.2) := by
  unfold fire at h
  split at h
  · rcases Finset.mem_insert.1 h with rfl | h
    · exact .inr ⟨‹_›, rfl⟩
    · exact .inl h
  · exact .inl h

/-! ## One scan -/

theorem foldl_fire_subset (rules : List (α × α)) (s : Finset α × Bool) : s.1 ⊆ (rules.foldl fire s).1 := by
  induction rules generalizing s with
  | nil => exact Finset.Subset.refl _
  | cons r rules ih => exact (fire_subset s r).trans (ih (fire s r))

/-- The flag stays down iff the set was closed under the rules, and then the set stays as it was. -/
theorem foldl_fire_flag {rules : List (α × α)} {s : Finset α × Bool} (h : (rules.foldl fire s).2 = false) :
    s.2 = false ∧ (rules.foldl fire s).1 = s.1 ∧ ∀ r ∈ rules, r.1 ∈ s.1 → r.2 ∈ s.1 := by
  induction rules generalizing s with
  | nil => exact ⟨h, rfl, fun r hr => absurd hr List.not_mem_nil⟩
  | cons r rules ih =>
    obtain ⟨hflag, hset, hrest⟩ := ih h
    have hfire := fire_of_flag hflag
    obtain ⟨hs, hr⟩ := (fire_flag s r).1 hflag
    rw [hfire] at hset hrest
    exact ⟨hs, hset, List.forall_mem_cons.2 ⟨hr, hrest⟩⟩

theorem foldl_fire_true {rules : List (α × α)} {s : Finset α} (h : (rules.foldl fire (s, false)).2 = true) :
    ∃ a ∈ (rules.foldl fire (s, false)).1, a ∉ s := by
  by_contra hnone
  push Not at hnone
  have hclosed : ∀ (l : List (α × α)) (t : Finset α), (l.foldl fire (t, false)).1 ⊆ t →
      (l.foldl fire (t, false)).2 = false := by
    intro l
    induction l with
    | nil => exact fun t _ => rfl
    | cons r l ih =>
      intro t ht
      have hstep : fire (t, false) r = (t, false) := by
        unfold fire
        split
        · have hmem : r.2 ∈ t := ht (foldl_fire_subset l _ (by simp [fire, *]))
          simp [hmem]
        · rfl
      rw [List.foldl_cons, hstep] at ht ⊢
      exact ih t ht
  rw [hclosed rules s hnone] at h
  cases h

/-- What a scan adds are conclusions, and they follow. -/
theorem mem_foldl_fire {rules all : List (α × α)} {seeds : Finset α} {s : Finset α × Bool}
    (hall : ∀ r ∈ rules, r ∈ all) (hs : ∀ a ∈ s.1, Derives all seeds a) {a : α}
    (h : a ∈ (rules.foldl fire s).1) : (a ∈ s.1 ∨ a ∈ all.map Prod.snd) ∧ Derives all seeds a := by
  induction rules generalizing s with
  | nil => exact ⟨.inl h, hs a h⟩
  | cons r rules ih =>
    have hr := hall r List.mem_cons_self
    have hfire : ∀ b ∈ (fire s r).1, (b ∈ s.1 ∨ b ∈ all.map Prod.snd) ∧ Derives all seeds b := by
      intro b hb
      rcases mem_fire hb with hb | ⟨hprem, rfl⟩
      · exact ⟨.inl hb, hs b hb⟩
      · exact ⟨.inr (List.mem_map_of_mem hr), .rule hr (hs _ hprem)⟩
    obtain ⟨hmem, hder⟩ := ih (fun r' hr' => hall r' (List.mem_cons_of_mem r hr'))
      (fun b hb => (hfire b hb).2) h
    refine ⟨?_, hder⟩
    rcases hmem with hmem | hmem
    · exact (hfire a hmem).1
    · exact .inr hmem

/-! ## The loop -/

theorem saturate_sound {rules : List (α × α)} {seeds s t : Finset α} {fuel : Nat}
    (hs : ∀ a ∈ s, Derives rules seeds a) (h : saturate rules fuel s = some t) :
    (∀ a ∈ t, Derives rules seeds a) ∧ s ⊆ t ∧ ∀ r ∈ rules, r.1 ∈ t → r.2 ∈ t := by
  induction fuel generalizing s with
  | zero => cases h
  | succ fuel ih =>
    have hscan : ∀ a ∈ (scan rules s).1, Derives rules seeds a := fun a ha =>
      (mem_foldl_fire (fun _ hr => hr) hs (show a ∈ (rules.foldl fire (s, false)).1 from ha)).2
    have hsub : s ⊆ (scan rules s).1 := foldl_fire_subset rules (s, false)
    rw [saturate] at h
    split at h
    · obtain ⟨hder, hsub', hclosed⟩ := ih hscan h
      exact ⟨hder, hsub.trans hsub', hclosed⟩
    · rename_i hflag
      obtain ⟨-, hset, hclosed⟩ := foldl_fire_flag (Bool.eq_false_iff.2 hflag)
      cases h
      refine ⟨hscan, hsub, fun r hr hprem => ?_⟩
      rw [scan, hset] at hprem ⊢
      exact hclosed r hr hprem

/-- **What a saturated set holds**: what follows from the seeds. -/
theorem mem_saturate {rules : List (α × α)} {seeds t : Finset α} {fuel : Nat}
    (h : saturate rules fuel seeds = some t) (a : α) : a ∈ t ↔ Derives rules seeds a := by
  obtain ⟨hder, hsub, hclosed⟩ := saturate_sound (fun a ha => Derives.seed ha) h
  refine ⟨hder a, fun ha => ?_⟩
  induction ha with
  | seed ha => exact hsub ha
  | rule hr _ ih => exact hclosed _ hr ih

/-- **The scans end**: each but the last takes away from the conclusions that are missing. -/
theorem saturate_ends (rules : List (α × α)) {fuel : Nat} {s : Finset α}
    (h : ((rules.map Prod.snd).toFinset \ s).card < fuel) : ∃ t, saturate rules fuel s = some t := by
  induction fuel generalizing s with
  | zero => omega
  | succ fuel ih =>
    rw [saturate]
    split
    · rename_i hflag
      obtain ⟨a, ha, hnew⟩ := foldl_fire_true hflag
      have hconcl : a ∈ (rules.map Prod.snd).toFinset := by
        rcases (@mem_foldl_fire _ _ rules rules s (s, false) (fun _ hr => hr)
          (fun _ hb => .seed hb) _ ha).1 with h' | h'
        · exact absurd h' hnew
        · exact List.mem_toFinset.2 h'
      have hless : (rules.map Prod.snd).toFinset \ (scan rules s).1 ⊂
          (rules.map Prod.snd).toFinset \ s := by
        refine (Finset.ssubset_iff_of_subset (Finset.sdiff_subset_sdiff subset_rfl
          (foldl_fire_subset rules (s, false)))).2 ⟨a, Finset.mem_sdiff.2 ⟨hconcl, hnew⟩, fun hmem => ?_⟩
        exact (Finset.mem_sdiff.1 hmem).2 ha
      have hcard := Finset.card_lt_card hless
      exact ih (by omega)
    · exact ⟨_, rfl⟩

end Saturation
