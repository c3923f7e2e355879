import HafleyRs.Soopy.EditPlan

/-!
# Which edits `normalize_edits` accepts (`crates/soopy/src/_7d_mutation_plan.rs:776`)

The checks of `normalize_edits` run over the merged list, and compare neighbours only. `Compatible`
says what they are for in terms of the edits as they come in: two edits are distinct when their
`(start, end, replacement)` differ, whoever produced them, and the regions of the distinct
replacements are disjoint as sets of offsets. `validate_action` (_7b_source_actions.rs:317) has seen to
`start ≤ end` before.
-/

namespace Soopy

/-- The offsets an edit cuts away. -/
def TextEdit.region (e : TextEdit) : Set Nat := Set.Ico e.range.start e.range.stop

def TextEdit.IsReplacement (e : TextEdit) : Prop := e.range.start < e.range.stop

instance (e : TextEdit) : Decidable e.IsReplacement :=
  inferInstanceAs (Decidable (e.range.start < e.range.stop))

/-- Each insertion at `p` carries one order, the same whoever produced it, and no two the same one. -/
def OrderedAt (edits : List TextEdit) (p : Nat) : Prop :=
  ∃ order : Bytes → Nat,
    (∀ e ∈ edits, IsInsertionAt p e → e.producer.sameOffsetOrder = some (order e.replacement)) ∧
    ∀ a ∈ edits, ∀ b ∈ edits, IsInsertionAt p a → IsInsertionAt p b → a.replacement ≠ b.replacement →
      order a.replacement ≠ order b.replacement

def Contested (edits : List TextEdit) (p : Nat) : Prop :=
  ∃ a ∈ edits, ∃ b ∈ edits, IsInsertionAt p a ∧ IsInsertionAt p b ∧ a.replacement ≠ b.replacement

/-- The edits can be applied to an input of `inputLen` bytes at once. -/
structure Compatible (edits : List TextEdit) (inputLen : Nat) : Prop where
  inRange  : ∀ e ∈ edits, e.range.start ≤ inputLen ∧ e.range.stop ≤ inputLen
  disjoint : ∀ a ∈ edits, ∀ b ∈ edits, a.IsReplacement → b.IsReplacement → a.key ≠ b.key →
    Disjoint a.region b.region
  free     : ∀ p, ∀ i ∈ edits, IsInsertionAt p i → ∀ e ∈ edits, e.IsReplacement →
    ¬ (e.range.start < p ∧ p < e.range.stop)
  ordered  : ∀ p, Contested edits p → OrderedAt edits p

/-- Each distinct edit is held once, with its producers once each and in order. -/
structure Collapsed (edits : List TextEdit) (N : List NormalizedEdit) : Prop where
  once      : (N.map NormalizedEdit.key).Nodup
  same      : ∀ k, k ∈ N.map NormalizedEdit.key ↔ k ∈ edits.map TextEdit.key
  producers : ∀ n ∈ N, n.producers =
    sortedDistinct ((edits.filter fun e => e.key = n.key).map TextEdit.producer)

/-! ## The merged list and the edits -/

theorem mergeEdits_producers {edits : List TextEdit} {n : NormalizedEdit} (h : n ∈ mergeEdits edits) :
    n.producers.Pairwise (· < ·) := by
  obtain ⟨⟨k, s⟩, -, rfl⟩ := List.mem_map.1 h
  exact BTreeSet.toList_sorted s

theorem mergeEdits_collapsed (edits : List TextEdit) : Collapsed edits (mergeEdits edits) := by
  refine ⟨?_, fun k => ?_, fun n hn => ?_⟩
  · exact List.pairwise_map.2 ((mergeEdits_sorted edits).imp fun h => h.ne)
  · constructor
    · intro h
      obtain ⟨n, hn, rfl⟩ := List.mem_map.1 h
      obtain ⟨⟨e, he, hkey⟩, -⟩ := mem_mergeEdits hn
      exact List.mem_map.2 ⟨e, he, hkey⟩
    · intro h
      obtain ⟨e, he, rfl⟩ := List.mem_map.1 h
      obtain ⟨n, hn, hkey⟩ := exists_mergeEdits he
      exact List.mem_map.2 ⟨n, hn, hkey.symm⟩
  · refine eq_sortedDistinct (mergeEdits_producers hn) fun p => ?_
    rw [(mem_mergeEdits hn).2 p]
    simp [and_assoc]

theorem Collapsed.perm {edits : List TextEdit} {M N : List NormalizedEdit} (hM : Collapsed edits M)
    (h : M.Perm N) : Collapsed edits N := by
  refine ⟨?_, fun k => ?_, fun n hn => ?_⟩
  · exact (h.map NormalizedEdit.key).nodup_iff.1 hM.once
  · rw [← hM.same k]
    exact ((h.map NormalizedEdit.key).mem_iff).symm
  · exact hM.producers n (h.mem_iff.2 hn)

/-- The sort is on the start before anything else. -/
theorem start_le_of_key_lt {a b : NormalizedEdit} (h : a.key < b.key) : a.start ≤ b.start := by
  simp only [NormalizedEdit.key, Prod.Lex.toLex_lt_toLex] at h
  rcases h with h | ⟨h, -⟩
  · exact h.le
  · exact h.le

theorem disjoint_region {a b : TextEdit} (ha : a.IsReplacement) (hb : b.IsReplacement) :
    Disjoint a.region b.region ↔ a.range.stop ≤ b.range.start ∨ b.range.stop ≤ a.range.start := by
  unfold TextEdit.IsReplacement at ha hb
  rw [TextEdit.region, TextEdit.region, Set.Ico_disjoint_Ico]
  omega

/-- Neighbours that do not overlap, in a list sorted by start, leave no pair that does. -/
theorem apart_iff {edits : List TextEdit} :
    (((mergeEdits edits).filter fun e => e.start < e.stop).Pairwise fun a b => a.stop ≤ b.start) ↔
      ∀ a ∈ edits, ∀ b ∈ edits, a.IsReplacement → b.IsReplacement → a.key ≠ b.key →
        Disjoint a.region b.region := by
  constructor
  · intro h a ha b hb hra hrb hne
    obtain ⟨m, hm, hkm⟩ := exists_mergeEdits ha
    obtain ⟨n, hn, hkn⟩ := exists_mergeEdits hb
    obtain ⟨hm1, hm2, -⟩ := TextEdit.key_inj.1 hkm
    obtain ⟨hn1, hn2, -⟩ := TextEdit.key_inj.1 hkn
    have hmn : m ≠ n := by
      rintro rfl
      exact hne (hkm.trans hkn.symm)
    rw [disjoint_region hra hrb, hm1, hm2, hn1, hn2]
    unfold TextEdit.IsReplacement at hra hrb
    have : Std.Symm fun a b : NormalizedEdit => a.stop ≤ b.start ∨ b.stop ≤ a.start :=
      ⟨fun _ _ => Or.symm⟩
    have hsym : ((mergeEdits edits).filter fun e => e.start < e.stop).Pairwise
        fun a b => a.stop ≤ b.start ∨ b.stop ≤ a.start := h.imp Or.inl
    refine hsym.forall ?_ ?_ hmn
    · simp only [List.mem_filter, decide_eq_true_eq]
      exact ⟨hm, by omega⟩
    · simp only [List.mem_filter, decide_eq_true_eq]
      exact ⟨hn, by omega⟩
  · intro h
    refine ((mergeEdits_sorted edits).filter _).imp_of_mem fun {m n} hm hn hlt => ?_
    simp only [List.mem_filter, decide_eq_true_eq] at hm hn
    obtain ⟨⟨a, ha, hkm⟩, -⟩ := mem_mergeEdits hm.1
    obtain ⟨⟨b, hb, hkn⟩, -⟩ := mem_mergeEdits hn.1
    obtain ⟨hm1, hm2, -⟩ := TextEdit.key_inj.1 hkm
    obtain ⟨hn1, hn2, -⟩ := TextEdit.key_inj.1 hkn
    have hra : a.IsReplacement := by unfold TextEdit.IsReplacement; omega
    have hrb : b.IsReplacement := by unfold TextEdit.IsReplacement; omega
    have hdis := h a ha b hb hra hrb (by rw [hkm, hkn]; exact hlt.ne)
    rw [disjoint_region hra hrb] at hdis
    have hle := start_le_of_key_lt hlt
    omega

/-! ## The orders of the insertions -/

theorem claimedOrder_eq_some {e : NormalizedEdit} {o : Nat} :
    claimedOrder e = some o ↔ e.producers ≠ [] ∧ ∀ p ∈ e.producers, p.sameOffsetOrder = some o := by
  constructor
  · intro h
    refine ⟨?_, claimedOrder_eq h⟩
    intro hnil
    unfold claimedOrder at h
    simp only [hnil, List.foldl_nil] at h
    cases h
  · rintro ⟨hne, hall⟩
    obtain ⟨q, hq⟩ := List.exists_mem_of_ne_nil _ hne
    have hlist : (e.producers.foldl (fun s p => s.insert (optKey p.sameOffsetOrder))
        (∅ : BTreeSet (WithBot Nat))).toList = [optKey (some o)] := by
      rw [BTreeSet.toList_eq_singleton]
      constructor
      · exact (BTreeSet.mem_foldl_insert _ ∅ _).2 (.inr ⟨q, hq, by rw [hall q hq]⟩)
      · intro b hb
        rcases (BTreeSet.mem_foldl_insert _ ∅ b).1 hb with hb | ⟨p, hp, rfl⟩
        · simp at hb
        · rw [hall p hp]
    unfold claimedOrder
    simp only [hlist]
    rfl

/-- What a merged edit claims, in terms of the edits merged into it. -/
theorem claimedOrder_merged {edits : List TextEdit} {n : NormalizedEdit} (hn : n ∈ mergeEdits edits)
    {o : Nat} : claimedOrder n = some o ↔
      ∀ e ∈ edits, e.key = n.key → e.producer.sameOffsetOrder = some o := by
  obtain ⟨⟨f, hf, hkey⟩, hprod⟩ := mem_mergeEdits hn
  rw [claimedOrder_eq_some]
  constructor
  · rintro ⟨-, hall⟩ e he hek
    exact hall _ ((hprod _).2 ⟨e, he, hek, rfl⟩)
  · intro h
    refine ⟨List.ne_nil_of_mem ((hprod f.producer).2 ⟨f, hf, hkey, rfl⟩), fun p hp => ?_⟩
    obtain ⟨e, he, hek, rfl⟩ := (hprod p).1 hp
    exact h e he hek

theorem exists_groupAt {edits : List TextEdit} {p : Nat} {e : TextEdit} (he : e ∈ edits)
    (hins : IsInsertionAt p e) : ∃ n ∈ groupAt edits p, e.key = n.key ∧ n.replacement = e.replacement := by
  obtain ⟨n, hn, hkey⟩ := exists_mergeEdits he
  obtain ⟨h1, h2, h3⟩ := TextEdit.key_inj.1 hkey
  exact ⟨n, mem_groupAt.2 ⟨hn, h1.symm.trans hins.1, h2.symm.trans hins.2⟩, hkey, h3.symm⟩

theorem insertion_of_groupAt {edits : List TextEdit} {p : Nat} {n : NormalizedEdit}
    (hn : n ∈ groupAt edits p) : ∃ e ∈ edits, IsInsertionAt p e ∧ e.replacement = n.replacement := by
  obtain ⟨hmem, hstart, hstop⟩ := mem_groupAt.1 hn
  obtain ⟨⟨e, he, hkey⟩, -⟩ := mem_mergeEdits hmem
  obtain ⟨h1, h2, h3⟩ := TextEdit.key_inj.1 hkey
  exact ⟨e, he, ⟨h1.trans hstart, h2.trans hstop⟩, h3⟩

theorem contested_iff {edits : List TextEdit} {p : Nat} :
    Contested edits p ↔ 2 ≤ (groupAt edits p).length := by
  constructor
  · rintro ⟨a, ha, b, hb, hia, hib, hne⟩
    obtain ⟨m, hm, -, hrm⟩ := exists_groupAt ha hia
    obtain ⟨n, hn, -, hrn⟩ := exists_groupAt hb hib
    have hmn : m ≠ n := by
      rintro rfl
      exact hne (hrm.symm.trans hrn)
    match hg : groupAt edits p with
    | [] => simp [hg] at hm
    | [x] =>
      rw [hg, List.mem_singleton] at hm hn
      exact absurd (hm.trans hn.symm) hmn
    | _ :: _ :: _ => simp
  · intro hlen
    have hrep := groupAt_replacements edits p
    match hg : groupAt edits p with
    | [] => simp [hg] at hlen
    | [x] => simp [hg] at hlen
    | m :: n :: rest =>
      rw [hg] at hrep
      obtain ⟨a, ha, hia, hra⟩ := insertion_of_groupAt (n := m) (by rw [hg]; simp)
      obtain ⟨b, hb, hib, hrb⟩ := insertion_of_groupAt (n := n) (by rw [hg]; simp)
      refine ⟨a, ha, b, hb, hia, hib, ?_⟩
      rw [hra, hrb]
      exact (List.pairwise_cons.1 hrep).1 n (by simp)

theorem ordered_iff {edits : List TextEdit} {p : Nat} :
    Ordered (groupAt edits p) ↔ (Contested edits p → OrderedAt edits p) := by
  unfold Ordered
  rw [contested_iff]
  refine forall_congr' fun hlen => ?_
  constructor
  · rintro ⟨hall, hpair⟩
    have horder : ∀ n ∈ groupAt edits p,
        claimedOrder n = some ((orderAt edits p n.replacement).unbotD 0) := by
      intro n hn
      obtain ⟨o, ho⟩ := Option.ne_none_iff_exists'.1 (hall n hn)
      rw [orderAt_of_mem hn ho, ho]
      rfl
    refine ⟨fun text => (orderAt edits p text).unbotD 0, fun e he hins => ?_, ?_⟩
    · obtain ⟨n, hn, hkey, hrep⟩ := exists_groupAt he hins
      have := horder n hn
      rw [hrep] at this
      exact (claimedOrder_merged (mem_groupAt.1 hn).1).1 this e he hkey
    · intro a ha b hb hia hib hne heq
      obtain ⟨m, hm, -, hrm⟩ := exists_groupAt ha hia
      obtain ⟨n, hn, -, hrn⟩ := exists_groupAt hb hib
      have hmn : m ≠ n := by
        rintro rfl
        exact hne (hrm.symm.trans hrn)
      have : Std.Symm fun a b : NormalizedEdit => claimedOrder a ≠ claimedOrder b :=
        ⟨fun _ _ => Ne.symm⟩
      refine hpair.forall hm hn hmn ?_
      rw [horder m hm, horder n hn, hrm, hrn]
      exact congrArg some heq
  · rintro ⟨order, hcarry, hdist⟩
    have horder : ∀ n ∈ groupAt edits p, claimedOrder n = some (order n.replacement) := by
      intro n hn
      obtain ⟨hmem, hstart, hstop⟩ := mem_groupAt.1 hn
      refine (claimedOrder_merged hmem).2 fun e he hkey => ?_
      obtain ⟨h1, h2, h3⟩ := TextEdit.key_inj.1 hkey
      rw [← h3]
      exact hcarry e he ⟨h1.trans hstart, h2.trans hstop⟩
    refine ⟨fun n hn => by simp [horder n hn], ?_⟩
    refine (groupAt_replacements edits p).imp_of_mem fun {m n} hm hn hne => ?_
    rw [horder m hm, horder n hn]
    obtain ⟨a, ha, hia, hra⟩ := insertion_of_groupAt hm
    obtain ⟨b, hb, hib, hrb⟩ := insertion_of_groupAt hn
    have := hdist a ha b hb hia hib (by rwa [hra, hrb])
    rw [hra, hrb] at this
    simpa using this

/-! ## Acceptance -/

theorem accepted_iff {edits : List TextEdit} {inputLen : Nat} :
    Accepted edits inputLen ↔ Compatible edits inputLen := by
  constructor
  · intro h
    refine ⟨fun e he => ?_, apart_iff.1 h.apart, fun p i hi hins e he hrep hlt => ?_,
      fun p => ordered_iff.1 (h.ordered p)⟩
    · obtain ⟨n, hn, hkey⟩ := exists_mergeEdits he
      obtain ⟨h1, h2, -⟩ := TextEdit.key_inj.1 hkey
      rw [h1, h2]
      exact h.bounds n hn
    · obtain ⟨m, hm, hkm, -⟩ := exists_groupAt hi hins
      obtain ⟨n, hn, hkn⟩ := exists_mergeEdits he
      obtain ⟨h1, h2, -⟩ := TextEdit.key_inj.1 hkn
      obtain ⟨hmem, hstart, hstop⟩ := mem_groupAt.1 hm
      refine h.free m hmem (hstart.trans hstop.symm) n hn ?_
      rw [hstart, ← h1, ← h2]
      exact hlt
  · intro h
    refine ⟨fun n hn => ?_, apart_iff.2 h.disjoint, fun m hm hins n hn hlt => ?_,
      fun p => ordered_iff.2 (h.ordered p)⟩
    · obtain ⟨⟨e, he, hkey⟩, -⟩ := mem_mergeEdits hn
      obtain ⟨h1, h2, -⟩ := TextEdit.key_inj.1 hkey
      rw [← h1, ← h2]
      exact h.inRange e he
    · obtain ⟨i, hi, hii, -⟩ := insertion_of_groupAt (p := m.start) (n := m)
        (mem_groupAt.2 ⟨hm, rfl, Eq.symm hins⟩)
      obtain ⟨⟨e, he, hkey⟩, -⟩ := mem_mergeEdits hn
      obtain ⟨h1, h2, -⟩ := TextEdit.key_inj.1 hkey
      rw [← h1, ← h2] at hlt
      exact h.free m.start i hi hii e he (by unfold TextEdit.IsReplacement; omega) hlt

theorem normalizeEdits_of_accepted (source : ActionSource) {edits : List TextEdit} {inputLen : Nat}
    (h : Accepted edits inputLen) : ∃ N, normalizeEdits source edits inputLen = .ok N := by
  have h1 : checkBounds source inputLen (mergeEdits edits) = .ok () := checkBounds_ok.2 h.bounds
  have h2 : checkOverlaps source ((mergeEdits edits).filter fun e => e.start < e.stop) = .ok () :=
    (checkOverlaps_ok fun e he => by simpa using (List.mem_filter.1 he).2).2 h.apart
  have h3 : checkInsertions source ((mergeEdits edits).filter fun e => e.start < e.stop)
      ((mergeEdits edits).filter fun e => e.IsInsertion) = .ok () := by
    refine checkInsertions_ok.2 fun i hi e he => ?_
    simp only [List.mem_filter, decide_eq_true_eq] at hi he
    exact h.free i hi.1 hi.2 e he.1
  have h4 : ∃ orders, collectOrders source
      (insertionGroups ((mergeEdits edits).filter fun e => e.IsInsertion)).toList = .ok orders := by
    refine collectOrders_ok.2 fun g hg => ?_
    rw [(mem_insertionGroups.1 hg).1]
    exact h.ordered g.1
  obtain ⟨orders, h4⟩ := h4
  refine ⟨(mergeEdits edits).insertionSort fun a b => sortKey orders a ≤ sortKey orders b, ?_⟩
  simp only [normalizeEdits, h1, h2, h3, h4, bind, Except.bind, pure, Except.pure]

/-- **`normalize_edits` (_7d_mutation_plan.rs:776)** accepts the compatible lists of edits and no
others, and collapses the exact duplicates of those it accepts. An edit with `end < start` would be
neither insertion nor replacement here, and pass. -/
theorem normalizeEdits_accepts (source : ActionSource) (edits : List TextEdit) (inputLen : Nat) :
    ((∃ N, normalizeEdits source edits inputLen = .ok N) ↔ Compatible edits inputLen) ∧
      ∀ N, normalizeEdits source edits inputLen = .ok N → Collapsed edits N := by
  refine ⟨⟨fun ⟨N, hN⟩ => ?_, fun hc => ?_⟩, fun N hN => ?_⟩
  · exact accepted_iff.1 (normalizeEdits_ok hN).1
  · exact normalizeEdits_of_accepted source (accepted_iff.2 hc)
  · obtain ⟨-, orders, -, rfl⟩ := normalizeEdits_ok hN
    exact (mergeEdits_collapsed edits).perm (List.perm_insertionSort _ _).symm

end Soopy
