import Mathlib

/-!
# Lists of separated intervals

A free list keeps a set of indices as a sorted list of half-open intervals, no two of which touch.
This file is the mathematics such a list needs, with no allocator in sight: the set it covers,
carving a prefix off one interval, and giving an interval back with coalescing on either side.

`frag_le` is the fragmentation bound: separated intervals are held apart by something, so there is
at most one more of them than there are pieces in the complement.
-/

namespace Intervals

/-- The half-open interval `[start, start + len)`. -/
structure Span where
  start : Nat
  len   : Nat
deriving DecidableEq, Repr, Inhabited

def Span.stop (s : Span) : Nat := s.start + s.len

instance : Membership Nat Span := ⟨fun s i => s.start ≤ i ∧ i < s.stop⟩

theorem Span.mem_iff {s : Span} {i : Nat} : i ∈ s ↔ s.start ≤ i ∧ i < s.start + s.len := Iff.rfl

instance (s : Span) (i : Nat) : Decidable (i ∈ s) :=
  inferInstanceAs (Decidable (s.start ≤ i ∧ i < s.stop))

/-- The index set of a list of intervals. -/
def Covers (l : List Span) (i : Nat) : Prop := ∃ s ∈ l, i ∈ s

/-- Two intervals share no index (empty ones share none with anything). -/
def Span.Disj (a b : Span) : Prop := ∀ i, i ∈ a → i ∉ b

/-- Sorted by start, pairwise non-adjacent, no empty interval. -/
structure Separated (l : List Span) : Prop where
  pos  : ∀ s ∈ l, 0 < s.len
  apart : l.Pairwise fun a b => a.stop < b.start

def total (l : List Span) : Nat := (l.map Span.len).sum

theorem Span.Disj.symm {a b : Span} (h : a.Disj b) : b.Disj a := fun i hb ha => h i ha hb

/-- Disjoint non-empty intervals lie one after the other. -/
theorem Span.Disj.order {a b : Span} (h : a.Disj b) (hb : 0 < b.len)
    (hab : a.start ≤ b.start) : a.stop ≤ b.start := by
  by_contra hlt
  refine h b.start ?_ ?_ <;> simp only [Span.mem_iff, Span.stop] at * <;> omega

/-! ## The covered set -/

@[simp] theorem covers_nil (i : Nat) : ¬ Covers [] i := by simp [Covers]

@[simp] theorem covers_cons {s : Span} {l : List Span} {i : Nat} :
    Covers (s :: l) i ↔ i ∈ s ∨ Covers l i := by simp [Covers]

@[simp] theorem covers_append {l m : List Span} {i : Nat} :
    Covers (l ++ m) i ↔ Covers l i ∨ Covers m i := by
  simp only [Covers, List.mem_append]
  constructor
  · rintro ⟨s, hs | hs, hi⟩
    · exact .inl ⟨s, hs, hi⟩
    · exact .inr ⟨s, hs, hi⟩
  · rintro (⟨s, hs, hi⟩ | ⟨s, hs, hi⟩)
    · exact ⟨s, .inl hs, hi⟩
    · exact ⟨s, .inr hs, hi⟩

@[simp] theorem total_nil : total [] = 0 := rfl

@[simp] theorem total_cons (s : Span) (l : List Span) : total (s :: l) = s.len + total l := by
  simp [total]

@[simp] theorem total_append (l m : List Span) : total (l ++ m) = total l + total m := by
  simp [total]

theorem separated_nil : Separated [] := ⟨by simp, .nil⟩

theorem separated_cons {s : Span} {l : List Span} :
    Separated (s :: l) ↔ 0 < s.len ∧ (∀ t ∈ l, s.stop < t.start) ∧ Separated l := by
  constructor
  · rintro ⟨hpos, hap⟩
    rw [List.pairwise_cons] at hap
    exact ⟨hpos s (by simp), hap.1, fun t ht => hpos t (by simp [ht]), hap.2⟩
  · rintro ⟨hs, hap, hl⟩
    refine ⟨fun t ht => ?_, List.pairwise_cons.2 ⟨hap, hl.apart⟩⟩
    rcases List.mem_cons.1 ht with rfl | ht
    · exact hs
    · exact hl.pos t ht

theorem separated_append {l m : List Span} :
    Separated (l ++ m) ↔ Separated l ∧ Separated m ∧ ∀ a ∈ l, ∀ b ∈ m, a.stop < b.start := by
  constructor
  · rintro ⟨hpos, hap⟩
    rw [List.pairwise_append] at hap
    exact ⟨⟨fun s hs => hpos s (by simp [hs]), hap.1⟩, ⟨fun s hs => hpos s (by simp [hs]), hap.2.1⟩,
      hap.2.2⟩
  · rintro ⟨hl, hm, hlm⟩
    refine ⟨fun s hs => ?_, List.pairwise_append.2 ⟨hl.apart, hm.apart, hlm⟩⟩
    rcases List.mem_append.1 hs with hs | hs
    · exact hl.pos s hs
    · exact hm.pos s hs

/-! ## Carving a prefix -/

/-- What is left of `s` after its first `n` indices are taken: nothing, or the shorter interval. -/
def carve (s : Span) (n : Nat) : List Span :=
  if s.len - n = 0 then [] else [⟨s.start + n, s.len - n⟩]

theorem carve_separated {pre post : List Span} {s : Span} {n : Nat}
    (h : Separated (pre ++ s :: post)) (hn : n ≤ s.len) : Separated (pre ++ carve s n ++ post) := by
  rw [separated_append, separated_cons] at h
  obtain ⟨hpre, ⟨_, hs, hpost⟩, hcross⟩ := h
  rw [List.append_assoc, separated_append]
  unfold carve
  split
  · rw [List.nil_append]
    exact ⟨hpre, hpost, fun a ha b hb => hcross a ha b (by simp [hb])⟩
  · simp only [List.singleton_append]
    refine ⟨hpre, separated_cons.2 ⟨by simp only; omega, fun t ht => ?_, hpost⟩, fun a ha b hb => ?_⟩
    · have := hs t ht
      simp only [Span.stop] at this ⊢; omega
    · rcases List.mem_cons.1 hb with rfl | hb
      · have := hcross a ha s (by simp)
        simp only at this ⊢; omega
      · exact hcross a ha b (by simp [hb])

/-- The carved prefix and the rest partition the interval. -/
theorem covers_carve {s : Span} {n i : Nat} (hn : n ≤ s.len) :
    i ∈ s ↔ i ∈ (⟨s.start, n⟩ : Span) ∨ Covers (carve s n) i := by
  unfold carve
  split <;> simp only [covers_cons, covers_nil, or_false, Span.mem_iff] <;> omega

theorem carve_off {s : Span} {n i : Nat} (h : i ∈ (⟨s.start, n⟩ : Span)) : ¬ Covers (carve s n) i := by
  unfold carve
  split
  · simp
  · simp only [covers_cons, covers_nil, or_false, Span.mem_iff] at h ⊢; omega

theorem total_carve {s : Span} {n : Nat} (hn : n ≤ s.len) : n + total (carve s n) = s.len := by
  unfold carve
  split <;> simp <;> omega

/-! ## Giving an interval back -/

/-- Merge `m` with the interval that follows it when they touch. -/
def glueRight (m : Span) : List Span → Span × List Span
  | [] => (m, [])
  | r :: rest => if m.stop = r.start then (⟨m.start, m.len + r.len⟩, rest) else (m, r :: rest)

/-- Put `m` after `pre`, merging it into the last interval of `pre` when they touch. -/
def glueLeft (pre : List Span) (m : Span) (post : List Span) : List Span :=
  match pre.getLast? with
  | none => m :: post
  | some p =>
    if p.stop = m.start then pre.dropLast ++ ⟨p.start, p.len + m.len⟩ :: post
    else pre ++ m :: post

def giveBack (pre : List Span) (m : Span) (post : List Span) : List Span :=
  glueLeft pre (glueRight m post).1 (glueRight m post).2

/-- What both gluing steps need of their place in the list: `m` fits strictly between. -/
structure Fits (pre : List Span) (m : Span) (post : List Span) : Prop where
  before : Separated pre
  after  : Separated post
  cross  : ∀ a ∈ pre, ∀ b ∈ post, a.stop < b.start
  pos    : 0 < m.len
  left   : ∀ a ∈ pre, a.stop ≤ m.start
  right  : ∀ b ∈ post, m.stop ≤ b.start

theorem glueRight_spec {pre post : List Span} {m : Span} (h : Fits pre m post) :
    Fits pre (glueRight m post).1 (glueRight m post).2 ∧
    (∀ b ∈ (glueRight m post).2, (glueRight m post).1.stop < b.start) ∧
    (∀ i, i ∈ (glueRight m post).1 ∨ Covers (glueRight m post).2 i ↔ i ∈ m ∨ Covers post i) ∧
    (glueRight m post).1.len + total (glueRight m post).2 = m.len + total post := by
  cases post with
  | nil => exact ⟨h, by simp [glueRight], fun i => by simp [glueRight], by simp [glueRight]⟩
  | cons r rest =>
    obtain ⟨hr, hrest, hsep⟩ := separated_cons.1 h.after
    have hmr := h.right r (by simp)
    by_cases htouch : m.stop = r.start
    · rw [glueRight, if_pos htouch]
      refine ⟨⟨h.before, hsep, fun a ha b hb => h.cross a ha b (by simp [hb]), by simp only; omega,
        fun a ha => h.left a ha, fun b hb => ?_⟩, fun b hb => ?_, fun i => ?_, by simp; omega⟩
      · have := hrest b hb
        simp only [Span.stop] at this htouch ⊢; omega
      · have := hrest b hb
        simp only [Span.stop] at this htouch ⊢; omega
      · simp only [covers_cons, ← or_assoc]
        refine or_congr_left ?_
        simp only [Span.mem_iff, Span.stop] at htouch ⊢; omega
    · rw [glueRight, if_neg htouch]
      refine ⟨h, fun b hb => ?_, fun i => Iff.rfl, rfl⟩
      have hlt : m.stop < r.start := by omega
      rcases List.mem_cons.1 hb with rfl | hb
      · exact hlt
      · have h1 := hrest b hb
        have h2 : r.start ≤ r.stop := by simp [Span.stop]
        simp only at h1 ⊢; omega

theorem glueLeft_spec {pre post : List Span} {m : Span} (h : Fits pre m post)
    (hpost : ∀ b ∈ post, m.stop < b.start) :
    Separated (glueLeft pre m post) ∧
    (∀ i, Covers (glueLeft pre m post) i ↔ Covers pre i ∨ i ∈ m ∨ Covers post i) ∧
    total (glueLeft pre m post) = total pre + (m.len + total post) := by
  have hm : Separated (m :: post) := separated_cons.2 ⟨h.pos, hpost, h.after⟩
  rcases List.eq_nil_or_concat pre with rfl | ⟨init, p, rfl⟩
  · simp only [glueLeft, List.getLast?_nil]
    exact ⟨hm, fun i => by simp, by simp⟩
  · rw [List.concat_eq_append] at *
    obtain ⟨hinit, hp, hip⟩ := separated_append.1 h.before
    have hpm := h.left p (by simp)
    have hinit_p : ∀ a ∈ init, a.stop < p.start := fun a ha => hip a ha p (by simp)
    have hps : p.start ≤ p.stop := by simp [Span.stop]
    simp only [glueLeft, List.getLast?_append, List.getLast?_singleton, Option.some_or,
      List.dropLast_concat]
    split
    · rename_i htouch
      refine ⟨separated_append.2 ⟨hinit, separated_cons.2 ⟨?_, fun b hb => ?_, h.after⟩, ?_⟩,
        fun i => ?_, by simp; omega⟩
      · have := h.pos
        simp only; omega
      · have := hpost b hb
        simp only [Span.stop] at this htouch ⊢; omega
      · intro a ha b hb
        rcases List.mem_cons.1 hb with rfl | hb
        · exact hinit_p a ha
        · exact h.cross a (by simp [ha]) b hb
      · simp only [covers_append, covers_cons, covers_nil, or_false, or_assoc]
        refine or_congr_right ?_
        rw [← or_assoc]
        refine or_congr_left ?_
        simp only [Span.mem_iff, Span.stop] at htouch ⊢; omega
    · rename_i htouch
      refine ⟨separated_append.2 ⟨h.before, hm, fun a ha b hb => ?_⟩, fun i => by simp [or_assoc],
        by simp [Nat.add_assoc]⟩
      have hlt : p.stop < m.start := by omega
      have ham : a.stop < m.start := by
        rcases List.mem_append.1 ha with ha | ha
        · have := hinit_p a ha; omega
        · simp only [List.mem_singleton] at ha; subst ha; exact hlt
      have hms : m.start ≤ m.stop := by simp [Span.stop]
      rcases List.mem_cons.1 hb with rfl | hb
      · exact ham
      · have := hpost b hb; omega

/-- **Coalescing insert**: the list stays separated, and exactly `m` joins the covered set. -/
theorem giveBack_spec {pre post : List Span} {m : Span} (h : Fits pre m post) :
    Separated (giveBack pre m post) ∧
    (∀ i, Covers (giveBack pre m post) i ↔ Covers (pre ++ post) i ∨ i ∈ m) ∧
    total (giveBack pre m post) = total (pre ++ post) + m.len := by
  obtain ⟨hfits, hright, hcov, htot⟩ := glueRight_spec h
  obtain ⟨hsep, hcov', htot'⟩ := glueLeft_spec hfits hright
  refine ⟨hsep, fun i => ?_, ?_⟩
  · rw [giveBack, hcov', hcov, covers_append]
    tauto
  · rw [giveBack, htot', htot, total_append]; omega

/-! ## Rearranging and locating -/

theorem covers_perm {l m : List Span} (h : l.Perm m) {i : Nat} : Covers l i ↔ Covers m i := by
  simp only [Covers, h.mem_iff]

theorem total_perm {l m : List Span} (h : l.Perm m) : total l = total m :=
  (h.map Span.len).sum_eq

theorem Separated.length_le_total {l : List Span} (h : Separated l) : l.length ≤ total l := by
  induction l with
  | nil => simp
  | cons s l ih =>
    obtain ⟨hs, -, hl⟩ := separated_cons.1 h
    have := ih hl
    simp only [List.length_cons, total_cons]; omega

/-- An index of one interval is in no other. -/
theorem Separated.off_middle {pre post : List Span} {s : Span} (h : Separated (pre ++ s :: post))
    (i : Nat) (hi : i ∈ s) : ¬ Covers pre i ∧ ¬ Covers post i := by
  rw [separated_append, separated_cons] at h
  obtain ⟨-, ⟨-, hs, -⟩, hcross⟩ := h
  constructor
  · rintro ⟨a, ha, hia⟩
    have := hcross a ha s (by simp)
    simp only [Span.mem_iff, Span.stop] at *; omega
  · rintro ⟨b, hb, hib⟩
    have := hs b hb
    simp only [Span.mem_iff, Span.stop] at *; omega

/-- An interval off a separated list has one place in it. -/
theorem Separated.split_at {l : List Span} {m : Span} (h : Separated l) (hm : 0 < m.len)
    (hoff : ∀ i, i ∈ m → ¬ Covers l i) :
    ∃ pre post, l = pre ++ post ∧ Fits pre m post ∧ ∀ s ∈ pre, s.start < m.start := by
  have hdisj : ∀ s ∈ l, m.Disj s := fun s hs i him his => hoff i him ⟨s, hs, his⟩
  induction l with
  | nil => exact ⟨[], [], rfl, ⟨separated_nil, separated_nil, by simp, hm, by simp, by simp⟩, by simp⟩
  | cons s l ih =>
    obtain ⟨hs, hsl, hl⟩ := separated_cons.1 h
    by_cases hlt : s.start < m.start
    · obtain ⟨pre, post, rfl, hfit, hpre⟩ := ih hl (fun i hi hc => hoff i hi (by simp [hc]))
        (fun t ht => hdisj t (by simp [ht]))
      refine ⟨s :: pre, post, rfl, ⟨separated_cons.2 ⟨hs, fun t ht => hsl t (by simp [ht]),
        hfit.before⟩, hfit.after, ?_, hm, ?_, hfit.right⟩, ?_⟩
      · intro a ha b hb
        rcases List.mem_cons.1 ha with rfl | ha
        · exact hsl b (by simp [hb])
        · exact hfit.cross a ha b hb
      · intro a ha
        rcases List.mem_cons.1 ha with rfl | ha
        · exact (hdisj a (by simp)).symm.order hm (by omega)
        · exact hfit.left a ha
      · intro a ha
        rcases List.mem_cons.1 ha with rfl | ha
        · exact hlt
        · exact hpre a ha
    · refine ⟨[], s :: l, rfl, ⟨separated_nil, h, by simp, hm, by simp, fun b hb => ?_⟩, by simp⟩
      refine (hdisj b hb).order (h.pos b hb) ?_
      rcases List.mem_cons.1 hb with rfl | hb
      · omega
      · have := hsl b hb
        simp only [Span.stop] at this; omega

/-! ## The fragmentation bound -/

theorem Separated.trichotomy {l : List Span} (h : Separated l) {a b : Span} (ha : a ∈ l) (hb : b ∈ l) :
    a = b ∨ a.stop < b.start ∨ b.stop < a.start := by
  induction l with
  | nil => simp at ha
  | cons s l ih =>
    obtain ⟨_, hs, hl⟩ := separated_cons.1 h
    rcases List.mem_cons.1 ha with ha | ha <;> rcases List.mem_cons.1 hb with hb | hb
    · exact .inl (ha.trans hb.symm)
    · exact .inr (.inl (ha ▸ hs b hb))
    · exact .inr (.inr (hb ▸ hs a ha))
    · exact ih hl ha hb

/-- The index just past an interval is not covered: the next interval does not touch it. -/
theorem Separated.stop_free {l : List Span} (h : Separated l) {a : Span} (ha : a ∈ l) :
    ¬ Covers l a.stop := by
  rintro ⟨c, hc, hac⟩
  have hpos := h.pos a ha
  rcases h.trichotomy ha hc with rfl | h1 | h1
  all_goals simp only [Span.mem_iff, Span.stop] at *; omega

/-- Every interval but the last ends strictly below the start of some later one. -/
theorem stop_lt_of_mem_dropLast {l : List Span} (h : Separated l) {a : Span} (ha : a ∈ l.dropLast) :
    ∃ b ∈ l, a.stop < b.start := by
  rcases List.eq_nil_or_concat l with rfl | ⟨init, b, rfl⟩
  · simp at ha
  · rw [List.concat_eq_append] at *
    rw [List.dropLast_concat] at ha
    exact ⟨b, by simp, (separated_append.1 h).2.2 a ha b (by simp)⟩

/-- **Fragmentation bound**: if the intervals `l` and the pieces `held` partition `[0, n)`, there is
    at most one more interval than there are pieces. Each interval but the last ends at an index
    some piece holds, and one piece cannot sit at the end of two intervals. -/
theorem frag_le {l held : List Span} {n : Nat} (h : Separated l)
    (hin : ∀ i, Covers l i → i < n) (hoff : ∀ i, Covers l i → ¬ Covers held i)
    (hall : ∀ i, i < n → Covers l i ∨ Covers held i) : l.length ≤ held.length + 1 := by
  have hend : ∀ a ∈ l.dropLast, ∃ p ∈ held, a.stop ∈ p := by
    intro a ha
    obtain ⟨b, hb, hab⟩ := stop_lt_of_mem_dropLast h ha
    have hbpos := h.pos b hb
    have hbn : b.start < n := hin _ ⟨b, hb, by simp only [Span.mem_iff]; omega⟩
    rcases hall a.stop (by omega) with hc | hc
    · exact absurd hc (h.stop_free (List.mem_of_mem_dropLast ha))
    · exact hc
  choose! f hf using hend
  have hinj : (l.dropLast.map f).Nodup := by
    rw [List.Nodup, List.pairwise_map]
    refine List.Pairwise.imp_of_mem (fun {a b} ha hb hab heq => ?_)
      (h.apart.sublist (List.dropLast_sublist l))
    -- the shared piece spans from `a`'s end past `b`'s start, which `b` covers
    have hbl := List.mem_of_mem_dropLast hb
    have hbpos := h.pos b hbl
    have ha' := (hf a ha).2
    have hb' := (hf b hb).2
    refine hoff b.start ⟨b, hbl, by simp only [Span.mem_iff]; omega⟩ ⟨f b, (hf b hb).1, ?_⟩
    rw [heq] at ha'
    simp only [Span.mem_iff, Span.stop] at ha' hb' hab ⊢; omega
  have hsub : l.dropLast.map f ⊆ held := by
    intro p hp
    obtain ⟨a, ha, rfl⟩ := List.mem_map.1 hp
    exact (hf a ha).1
  have hlen := (List.subperm_of_subset hinj hsub).length_le
  rw [List.length_map, List.length_dropLast] at hlen
  omega

/-! ## The covered set determines the list -/

/-- A stretch of covered indices lies in one interval. -/
theorem Separated.stretch {l : List Span} (h : Separated l) {k n : Nat} (hn : 0 < n)
    (hcov : ∀ i, k ≤ i → i < k + n → Covers l i) : ∃ s ∈ l, s.start ≤ k ∧ k + n ≤ s.stop := by
  obtain ⟨s, hs, hk⟩ := hcov k le_rfl (by omega)
  refine ⟨s, hs, hk.1, ?_⟩
  by_contra hlt
  exact h.stop_free hs (hcov s.stop hk.2.le (not_le.1 hlt))

theorem Separated.ext {l m : List Span} (hl : Separated l) (hm : Separated m) (h : ∀ i, Covers l i ↔ Covers m i) :
    l = m := by
  have hsub : ∀ {l m : List Span}, Separated l → Separated m → (∀ i, Covers l i ↔ Covers m i) → ∀ s ∈ l, s ∈ m := by
    intro l m hl hm h s hs
    have hpos := hl.pos s hs
    -- each holds a stretch of the other, so they are one interval
    obtain ⟨t, ht, hts, hst⟩ := hm.stretch hpos fun i h1 h2 => (h i).1 ⟨s, hs, h1, h2⟩
    have htpos := hm.pos t ht
    obtain ⟨u, hu, hut, htu⟩ := hl.stretch htpos fun i h1 h2 => (h i).2 ⟨t, ht, h1, h2⟩
    have hsu : s = u := by
      rcases hl.trichotomy hs hu with heq | hlt | hlt
      · exact heq
      · simp only [Span.stop] at *
        omega
      · simp only [Span.stop] at *
        omega
    subst hsu
    have hstart : s.start = t.start := le_antisymm hut hts
    have hlen : s.len = t.len := by
      simp only [Span.stop] at *
      omega
    have heq : s = t := by
      cases s
      cases t
      simp_all
    exact heq ▸ ht
  have hsorted : ∀ {l : List Span}, Separated l → l.Pairwise fun a b => a.start < b.start := fun hl =>
    hl.apart.imp fun hab => lt_of_le_of_lt (Nat.le_add_right _ _) hab
  have hnodup : ∀ {l : List Span}, Separated l → l.Nodup := fun hl => (hsorted hl).imp fun hab heq => by
    rw [heq] at hab
    exact absurd hab (lt_irrefl _)
  have hperm : l.Perm m := (List.perm_ext_iff_of_nodup (hnodup hl) (hnodup hm)).2 fun s =>
    ⟨hsub hl hm h s, hsub hm hl (fun i => (h i).symm) s⟩
  exact hperm.eq_of_pairwise (fun a b _ _ hab hba => absurd hab (not_lt.2 hba.le)) (hsorted hl) (hsorted hm)

end Intervals
