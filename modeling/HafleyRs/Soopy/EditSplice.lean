import HafleyRs.Soopy.EditPlan

/-!
# `apply_edits` against the rewrite the edits ask for

The normalised list is `Spliceable`, so `apply_edits` is the walk of `Spliceable.applyRev_eq_rewrite`
and so is `simultaneous`; both pass over the same ranges. At an offset without a replacement they
emit the same insertions (`insertionsAt_eq`). At a replacement the insertions `B` that sort after it
are those it overtakes (`overtaken_eq`), and the two walks emit the same there iff cutting behind
`B` leaves the right bytes.
-/

namespace Soopy
open Splice

def NormalizedEdit.toEdit (n : NormalizedEdit) : Edit Byte := ⟨n.start, n.stop, n.replacement⟩

section
variable {edits : List TextEdit} {inputLen : Nat} {N : List NormalizedEdit}
  {orders : BTreeMap (Nat ×ₗ Bytes) Nat}

/-! ## The normalised list -/

/-- What the rest of this file knows of an accepted list. -/
structure Normalized (edits : List TextEdit) (inputLen : Nat) (N : List NormalizedEdit)
    (orders : BTreeMap (Nat ×ₗ Bytes) Nat) : Prop where
  upright  : ∀ e ∈ edits, e.range.start ≤ e.range.stop
  accepted : Accepted edits inputLen
  ordered  : HasOrders edits orders
  perm     : N.Perm (mergeEdits edits)
  sorted   : N.Pairwise fun a b => sortKey orders a ≤ sortKey orders b

theorem normalizeEdits_normalized {source : ActionSource}
    (hup : ∀ e ∈ edits, e.range.start ≤ e.range.stop)
    (h : normalizeEdits source edits inputLen = .ok N) :
    ∃ orders, Normalized edits inputLen N orders := by
  obtain ⟨hacc, orders, hord, rfl⟩ := normalizeEdits_ok h
  exact ⟨orders, hup, hacc, hord, List.perm_insertionSort _ _, sortByKey_pairwise _ _⟩

theorem sortKey_le_of_start_eq {a b : NormalizedEdit} (h : sortKey orders a ≤ sortKey orders b)
    (hs : a.start = b.start) :
    optKey orders[(toLex (a.start, a.replacement) : Nat ×ₗ Bytes)]? <
        optKey orders[(toLex (b.start, b.replacement) : Nat ×ₗ Bytes)]? ∨
      (optKey orders[(toLex (a.start, a.replacement) : Nat ×ₗ Bytes)]? =
        optKey orders[(toLex (b.start, b.replacement) : Nat ×ₗ Bytes)]? ∧
        (a.stop < b.stop ∨ a.stop = b.stop ∧ a.replacement ≤ b.replacement)) := by
  rw [hs]
  simpa only [sortKey, Prod.Lex.toLex_le_toLex, hs, lt_irrefl, false_or, true_and] using h

theorem sortKey_start_le {a b : NormalizedEdit} (h : sortKey orders a ≤ sortKey orders b) :
    a.start ≤ b.start := by
  simp only [sortKey, Prod.Lex.toLex_le_toLex] at h
  rcases h with h | h
  · exact h.le
  · exact h.1.le

variable (hN : Normalized edits inputLen N orders)
include hN

theorem Normalized.upright' {n : NormalizedEdit} (hn : n ∈ N) : n.start ≤ n.stop := by
  obtain ⟨⟨e, he, hkey⟩, -⟩ := mem_mergeEdits (hN.perm.mem_iff.1 hn)
  obtain ⟨h1, h2, -⟩ := TextEdit.key_inj.1 hkey
  rw [← h1, ← h2]
  exact hN.upright e he

theorem Normalized.exists_mem {e : TextEdit} (he : e ∈ edits) :
    ∃ n ∈ N, e.range.start = n.start ∧ e.range.stop = n.stop ∧ e.replacement = n.replacement := by
  obtain ⟨n, hn, hkey⟩ := exists_mergeEdits he
  exact ⟨n, hN.perm.mem_iff.2 hn, TextEdit.key_inj.1 hkey⟩

theorem Normalized.nodup : N.Nodup :=
  hN.perm.nodup_iff.2 ((mergeEdits_sorted edits).imp fun h heq => h.ne (congrArg _ heq))

theorem Normalized.apart {a b : NormalizedEdit} (ha : a ∈ N) (hb : b ∈ N) (hab : a ≠ b)
    (ha' : a.start < a.stop) (hb' : b.start < b.stop) : a.stop ≤ b.start ∨ b.stop ≤ a.start := by
  have hmem : ∀ {n}, n ∈ N → n.start < n.stop →
      n ∈ (mergeEdits edits).filter fun e => e.start < e.stop := fun hn hlt =>
    List.mem_filter.2 ⟨hN.perm.mem_iff.1 hn, by simpa using hlt⟩
  obtain ⟨i, hi, rfl⟩ := List.getElem_of_mem (hmem ha ha')
  obtain ⟨j, hj, rfl⟩ := List.getElem_of_mem (hmem hb hb')
  have happ := List.pairwise_iff_getElem.1 hN.accepted.apart
  rcases Nat.lt_trichotomy i j with hij | rfl | hij
  · exact .inl (happ i j hi hj hij)
  · exact absurd rfl hab
  · exact .inr (happ j i hj hi hij)

theorem Normalized.spliceable : Spliceable (N.map NormalizedEdit.toEdit) inputLen := by
  refine ⟨?_, ?_, ?_, ?_⟩
  · exact List.pairwise_map.2 (hN.sorted.imp sortKey_start_le)
  · rintro _ he
    obtain ⟨n, hn, rfl⟩ := List.mem_map.1 he
    exact ⟨hN.upright' hn, (hN.accepted.bounds n (hN.perm.mem_iff.1 hn)).2⟩
  · refine List.pairwise_map.2 ((hN.sorted.and hN.nodup).imp_of_mem fun {a b} ha hb hab hai hbi => ?_)
    simp only [NormalizedEdit.toEdit, Edit.IsInsertion] at hai hbi ⊢
    have h1 := hN.upright' ha
    have h2 := hN.upright' hb
    have h3 := sortKey_start_le hab.1
    rcases hN.apart ha hb hab.2 (by omega) (by omega) with h | h <;> omega
  · rintro _ hem _ hfm hfi
    obtain ⟨e, he, rfl⟩ := List.mem_map.1 hem
    obtain ⟨f, hf, rfl⟩ := List.mem_map.1 hfm
    exact hN.accepted.free f (hN.perm.mem_iff.1 hf) hfi e (hN.perm.mem_iff.1 he)

/-! ## The insertions at an offset -/

/-- The insertions at `p` in the order of the final sort. -/
def sortedAt (N : List NormalizedEdit) (p : Nat) : List NormalizedEdit :=
  (N.filter fun n => n.start = p).filter fun n => n.IsInsertion

omit hN in
theorem mem_sortedAt {p : Nat} {n : NormalizedEdit} :
    n ∈ sortedAt N p ↔ n ∈ N ∧ n.start = p ∧ n.stop = p := by
  rw [sortedAt, List.mem_filter, List.mem_filter, decide_eq_true_eq, decide_eq_true_eq,
    NormalizedEdit.IsInsertion]
  constructor
  · rintro ⟨⟨h1, h2⟩, h3⟩; exact ⟨h1, h2, h3 ▸ h2⟩
  · rintro ⟨h1, h2, h3⟩; exact ⟨⟨h1, h2⟩, h2.trans h3.symm⟩

theorem Normalized.sortedAt_perm (p : Nat) : (sortedAt N p).Perm (groupAt edits p) := by
  refine (List.perm_ext_iff_of_nodup ((hN.nodup.filter _).filter _) ?_).2 fun n => ?_
  · exact (groupAt_replacements edits p).imp fun h heq => h (congrArg _ heq)
  · change n ∈ sortedAt N p ↔ _
    rw [mem_sortedAt, mem_groupAt, hN.perm.mem_iff]

/-- A looked-up order is the claimed one, at an offset with several insertions. -/
theorem Normalized.order_eq {p : Nat} (hlen : 2 ≤ (sortedAt N p).length) (text : Bytes) :
    optKey orders[(toLex (p, text) : Nat ×ₗ Bytes)]? = orderAt edits p text := by
  rw [hN.ordered, if_pos ((hN.sortedAt_perm p).length_eq ▸ hlen)]

theorem Normalized.sortedAt_sorted (p : Nat) : (sortedAt N p).Pairwise fun a b =>
    (toLex (orderAt edits p a.replacement, a.replacement) : WithBot Nat ×ₗ Bytes) ≤
      toLex (orderAt edits p b.replacement, b.replacement) := by
  by_cases hlen : 2 ≤ (sortedAt N p).length
  · have hs : (sortedAt N p).Pairwise fun a b => sortKey orders a ≤ sortKey orders b :=
      (hN.sorted.filter _).filter _
    refine hs.imp_of_mem fun {a b} ha hb hab => ?_
    obtain ⟨-, ha1, ha2⟩ := mem_sortedAt.1 ha
    obtain ⟨-, hb1, hb2⟩ := mem_sortedAt.1 hb
    have hcmp := sortKey_le_of_start_eq hab (ha1.trans hb1.symm)
    rw [ha1, hb1, hN.order_eq hlen, hN.order_eq hlen, ha2, hb2] at hcmp
    rw [Prod.Lex.toLex_le_toLex]
    simpa using hcmp
  · -- at most one insertion
    match sortedAt N p, hlen with
    | [], _ => exact .nil
    | [_], _ => exact List.pairwise_singleton _ _
    | _ :: _ :: _, h => exact absurd (by simp) h

/-- The code and the specification list the insertions at an offset alike. -/
theorem Normalized.insertionsAt_eq (p : Nat) :
    insertionsAt edits p = (sortedAt N p).map NormalizedEdit.replacement := by
  have hmem : ∀ r, r ∈ (edits.filter fun e => IsInsertionAt p e).map TextEdit.replacement ↔
      r ∈ (sortedAt N p).map NormalizedEdit.replacement := fun r => by
    simp only [List.mem_map, List.mem_filter, decide_eq_true_eq, mem_sortedAt]
    constructor
    · rintro ⟨e, ⟨he, h1, h2⟩, rfl⟩
      obtain ⟨n, hn, hs, ht, hr⟩ := hN.exists_mem he
      exact ⟨n, ⟨hn, hs.symm.trans h1, ht.symm.trans h2⟩, hr.symm⟩
    · rintro ⟨n, ⟨hn, h1, h2⟩, rfl⟩
      obtain ⟨⟨e, he, hkey⟩, -⟩ := mem_mergeEdits (hN.perm.mem_iff.1 hn)
      obtain ⟨hs, ht, hr⟩ := TextEdit.key_inj.1 hkey
      exact ⟨e, ⟨he, hs.trans h1, ht.trans h2⟩, hr⟩
  have hnodup : ((sortedAt N p).map NormalizedEdit.replacement).Nodup := by
    rw [((hN.sortedAt_perm p).map _).nodup_iff]
    exact List.pairwise_map.2 (groupAt_replacements edits p)
  refine eq_of_sortedByKey (fun r => (toLex (orderAt edits p r, r) : WithBot Nat ×ₗ Bytes))
    (fun a _ b _ h => ?_) (sortByKey_pairwise _ _) (List.pairwise_map.2 (hN.sortedAt_sorted p)) ?_
  · simpa using congrArg (fun k => (ofLex k).2) h
  · refine (List.perm_insertionSort _ _).trans ?_
    refine (List.perm_ext_iff_of_nodup (List.nodup_dedup _) hnodup).2 fun r => ?_
    rw [List.mem_dedup, hmem]

/-! ## A replacement among them -/

/-- At an offset with a replacement, the final sort puts after it what it overtakes. -/
theorem Normalized.overtaken_eq {p stop : Nat} {text : Bytes} {A B : List (Edit Byte)}
    (hat : atOffset (N.map NormalizedEdit.toEdit) p = A ++ ⟨p, stop, text⟩ :: B) (hps : p < stop)
    (hA : ∀ e ∈ A, e.start = p ∧ e.stop = p) (hB : ∀ e ∈ B, e.start = p ∧ e.stop = p) :
    insertionsAt edits p = A.map Edit.text ++ B.map Edit.text ∧
      overtaken edits p text = B.map Edit.text := by
  have hmap : (N.filter fun n => n.start = p).map NormalizedEdit.toEdit =
      A ++ ⟨p, stop, text⟩ :: B := by
    rw [← hat, atOffset, List.filter_map]; rfl
  obtain ⟨NA, rest, hN', rfl, hrest⟩ := List.map_eq_append_iff.1 hmap
  obtain ⟨n, NB, rfl, hn, rfl⟩ := List.map_eq_cons_iff.1 hrest
  obtain ⟨nstart, nstop, nrepl, nprod⟩ := n
  simp only [NormalizedEdit.toEdit, Edit.mk.injEq] at hn
  obtain ⟨rfl, rfl, rfl⟩ := hn
  have hNA : ∀ a ∈ NA, a.start = nstart ∧ a.stop = nstart := fun a ha =>
    hA a.toEdit (List.mem_map_of_mem ha)
  have hNB : ∀ b ∈ NB, b.start = nstart ∧ b.stop = nstart := fun b hb =>
    hB b.toEdit (List.mem_map_of_mem hb)
  have hins : sortedAt N nstart = NA ++ NB := by
    rw [sortedAt, hN', List.filter_append, List.filter_cons_of_neg, List.filter_eq_self.2,
      List.filter_eq_self.2]
    · intro b hb
      simp [NormalizedEdit.IsInsertion, hNB b hb]
    · intro a ha
      simp [NormalizedEdit.IsInsertion, hNA a ha]
    · exact fun h => hps.ne (of_decide_eq_true h)
  have hsort : (NA ++ ⟨nstart, nstop, nrepl, nprod⟩ :: NB).Pairwise fun a b =>
      sortKey orders a ≤ sortKey orders b := hN' ▸ hN.sorted.filter _
  rw [List.pairwise_append, List.pairwise_cons] at hsort
  obtain ⟨-, ⟨hafter, -⟩, hbefore⟩ := hsort
  have heq : insertionsAt edits nstart = NA.map NormalizedEdit.replacement ++
      NB.map NormalizedEdit.replacement := by
    rw [hN.insertionsAt_eq, hins, List.map_append]
  refine ⟨by rw [heq, List.map_map, List.map_map]; rfl, ?_⟩
  rw [List.map_map]
  change _ = NB.map NormalizedEdit.replacement
  unfold overtaken
  have hlen : (insertionsAt edits nstart).length = (sortedAt N nstart).length := by
    rw [hN.insertionsAt_eq, List.length_map]
  rw [hlen]
  by_cases h2 : 2 ≤ (sortedAt N nstart).length
  · rw [if_neg (by omega), heq, List.filter_append, List.filter_eq_nil_iff.2, List.filter_eq_self.2,
      List.nil_append]
    · intro r hr
      obtain ⟨b, hb, rfl⟩ := List.mem_map.1 hr
      have hcmp := sortKey_le_of_start_eq (hafter b hb) (hNB b hb).1.symm
      rw [(hNB b hb).1, (hNB b hb).2, hN.order_eq h2, hN.order_eq h2] at hcmp
      rw [decide_eq_true_eq]
      rcases hcmp with h | ⟨-, h | h⟩
      · exact h
      · simp only at h; omega
      · simp only at h; omega
    · intro r hr
      obtain ⟨a, ha, rfl⟩ := List.mem_map.1 hr
      have hcmp := sortKey_le_of_start_eq (hbefore a ha _ (List.mem_cons_self ..)) (hNA a ha).1
      rw [(hNA a ha).1, hN.order_eq h2, hN.order_eq h2] at hcmp
      rw [decide_eq_true_eq, not_lt]
      rcases hcmp with h | ⟨h, -⟩
      · exact h.le
      · exact h.le
  · -- a lone insertion has no order, so it sorts by its end, before the replacement
    rw [if_pos (by omega)]
    symm
    rw [List.map_eq_nil_iff, List.eq_nil_iff_forall_not_mem]
    intro b hb
    have hnone : ∀ t, optKey orders[(toLex (nstart, t) : Nat ×ₗ Bytes)]? = ⊥ := fun t => by
      rw [hN.ordered, if_neg ((hN.sortedAt_perm nstart).length_eq ▸ h2)]
    have hcmp := sortKey_le_of_start_eq (hafter b hb) (hNB b hb).1.symm
    rw [(hNB b hb).1, (hNB b hb).2, hnone, hnone] at hcmp
    rcases hcmp with h | ⟨-, h | h⟩
    · exact lt_irrefl _ h
    · simp only at h; omega
    · simp only at h; omega

/-! ## The two walks -/

theorem Normalized.replacementAt_eq {p : Nat} {n : NormalizedEdit} (hn : n ∈ N) (hp : n.start = p)
    (hlt : p < n.stop) : replacementAt edits p = some (n.stop, n.replacement) := by
  obtain ⟨⟨e, he, hkey⟩, -⟩ := mem_mergeEdits (hN.perm.mem_iff.1 hn)
  obtain ⟨hs, ht, -⟩ := TextEdit.key_inj.1 hkey
  unfold replacementAt
  cases hf : edits.find? fun e => e.range.start = p ∧ e.range.start < e.range.stop with
  | none =>
    have := List.find?_eq_none.1 hf e he
    simp only [decide_eq_true_eq] at this
    omega
  | some f =>
    have hf1 := List.find?_some hf
    simp only [decide_eq_true_eq] at hf1
    obtain ⟨m, hm, h1, h2, h3⟩ := hN.exists_mem (List.mem_of_find?_eq_some hf)
    have hmn : m = n := by
      by_contra hne
      rcases hN.apart hm hn hne (by omega) (by omega) with h | h <;> omega
    rw [Option.map_some, h2, h3, hmn]

theorem Normalized.replacementAt_none {p : Nat} (h : ∀ n ∈ N, n.start = p → n.stop = p) :
    replacementAt edits p = none := by
  rw [replacementAt, Option.map_eq_none_iff, List.find?_eq_none]
  intro e he
  obtain ⟨n, hn, h1, h2, -⟩ := hN.exists_mem he
  have := h n hn
  simp only [decide_eq_true_eq]; omega

omit hN in
theorem texts_eq (es : List (Edit Byte)) : texts es = (es.map Edit.text).flatten := by
  rw [texts, List.flatMap_def]

/-- What the two walks do at an offset: the same, or they meet a replacement and the insertions
    around it. -/
theorem Normalized.offset_cases (input : Bytes) (p : Nat) :
    (cut (N.map NormalizedEdit.toEdit) input p = none ∧ replacementAt edits p = none ∧
      fore (N.map NormalizedEdit.toEdit) p = (insertionsAt edits p).flatten) ∨
    ∃ A stop text, (∃ n ∈ N, n.start = p ∧ n.stop = stop ∧ n.replacement = text) ∧ p < stop ∧
      replacementAt edits p = some (stop, text) ∧
      (insertionsAt edits p).flatten = A ++ (overtaken edits p text).flatten ∧
      fore (N.map NormalizedEdit.toEdit) p = A ∧
      cut (N.map NormalizedEdit.toEdit) input p = some (stop, text ++
        ((overtaken edits p text).flatten ++ (input.take stop).drop p).drop (stop - p)) := by
  rcases hN.spliceable.offset_cases input p with ⟨hins, hcut, hfore⟩ |
    ⟨A, B, stop, text, hat, hmem, hps, hA, hB, hfore, hcut⟩
  · have hN' : ∀ n ∈ N, n.start = p → n.stop = p := fun n hn hp =>
      (hins n.toEdit (mem_atOffset.2 ⟨List.mem_map_of_mem hn, hp⟩)).2
    have hmap : atOffset (N.map NormalizedEdit.toEdit) p =
        (sortedAt N p).map NormalizedEdit.toEdit := by
      rw [sortedAt, List.filter_eq_self.2, atOffset, List.filter_map]
      · rfl
      · intro n hn
        obtain ⟨hn, hp⟩ := List.mem_filter.1 hn
        rw [decide_eq_true_eq] at hp ⊢
        exact hp.trans (hN' n hn hp).symm
    refine .inl ⟨hcut, hN.replacementAt_none hN', ?_⟩
    rw [hfore, hmap, hN.insertionsAt_eq, texts_eq, List.map_map]
    rfl
  · obtain ⟨hat', hover⟩ := hN.overtaken_eq hat hps hA hB
    obtain ⟨n, hn, hne⟩ := List.mem_map.1 hmem
    simp only [NormalizedEdit.toEdit, Edit.mk.injEq] at hne
    obtain ⟨h1, h2, h3⟩ := hne
    refine .inr ⟨texts A, stop, text, ⟨n, hn, h1, h2, h3⟩, hps, ?_, ?_, hfore, ?_⟩
    · rw [hN.replacementAt_eq hn h1 (h2 ▸ hps), h2, h3]
    · rw [hat', hover, List.flatten_append, texts_eq]
    · rw [hcut, hover, texts_eq]

theorem Normalized.applyEdits_eq {input : Bytes} (hlen : input.length = inputLen) :
    applyEdits input N = some (applyRev input (N.map NormalizedEdit.toEdit)) := by
  have hsplice : ∀ M : List NormalizedEdit,
      Spliceable (M.map NormalizedEdit.toEdit) input.length →
      applyEdits input M = some (applyRev input (M.map NormalizedEdit.toEdit)) := fun M hM => by
    induction M with
    | nil => rfl
    | cons n M ih =>
      have ih := ih hM.tail
      rw [applyEdits] at ih ⊢
      rw [List.foldrM_cons, ih]
      have hle := (hM.inside n.toEdit (by simp)).1
      exact if_pos ⟨hle, hM.stop_le⟩
  exact hsplice N (hlen ▸ hN.spliceable)

/-- Ranges of the input, as the walk of `apply_edits` sees them. -/
theorem Normalized.ranges (input : Bytes) :
    Ranges (cut (N.map NormalizedEdit.toEdit) input) inputLen := by
  have hrange : ∀ p stop text, cut (N.map NormalizedEdit.toEdit) input p = some (stop, text) →
      p < stop ∧ ∃ n ∈ N, n.start = p ∧ n.stop = stop := fun p stop text h => by
    rcases hN.offset_cases input p with ⟨hcut, -⟩ | ⟨A, s, t, ⟨n, hn, h1, h2, -⟩, hps, -, -, -, hcut⟩
    · rw [hcut] at h; cases h
    · rw [hcut] at h
      cases h
      exact ⟨hps, n, hn, h1, h2⟩
  refine ⟨fun p stop text h => ?_, fun p stop text q h hpq hqs => ?_⟩
  · obtain ⟨hps, n, hn, -, rfl⟩ := hrange p stop text h
    exact ⟨hps, (hN.accepted.bounds n (hN.perm.mem_iff.1 hn)).2⟩
  · obtain ⟨hps, n, hn, rfl, rfl⟩ := hrange p stop text h
    cases hq : cut (N.map NormalizedEdit.toEdit) input q with
    | none => rfl
    | some st =>
      obtain ⟨hqs', m, hm, rfl, hstop⟩ := hrange q st.1 st.2 hq
      have hne : n ≠ m := by rintro rfl; omega
      rcases hN.apart hn hm hne hps (hstop ▸ hqs') with h | h <;> omega

/-- The walk of `apply_edits` is the simultaneous rewrite iff every replacement cuts clean. -/
theorem Normalized.rewrite_iff {input : Bytes} (hlen : input.length = inputLen) :
    applyRev input (N.map NormalizedEdit.toEdit) = simultaneous edits input ↔
      CutsClean edits input := by
  have hsp : Spliceable (N.map NormalizedEdit.toEdit) input.length := hlen ▸ hN.spliceable
  rw [hsp.applyRev_eq_rewrite, simultaneous,
    rewrite_eq_iff (hlen ▸ hN.ranges input) (fun p => ?_) (fun p hp => ?_) (fun p => ?_)
      (Nat.zero_add _) (Nat.zero_le _) (fun q _ hq => absurd hq (by omega))]
  · constructor
    · intro h e he hlt
      obtain ⟨n, hn, h1, h2, h3⟩ := hN.exists_mem he
      rcases hN.offset_cases input e.range.start with ⟨-, hnone, -⟩ |
        ⟨A, stop, text, -, -, hrep, hins, hfore, hcut⟩
      · rw [hN.replacementAt_eq hn h1.symm (by omega)] at hnone; cases hnone
      · rw [hN.replacementAt_eq hn h1.symm (by omega), ← h2, ← h3] at hrep
        cases hrep
        have := h e.range.start (Nat.zero_le _) (by rw [hcut]; simp)
        simp only [emits, hcut, hfore, hins, Option.map_some, Option.getD_some,
          List.append_assoc, List.append_cancel_left_eq,
          hN.replacementAt_eq hn h1.symm (by omega), ← h2, ← h3] at this
        exact this
    · intro h p _ hne
      rcases hN.offset_cases input p with ⟨hnone, -⟩ |
        ⟨A, stop, text, ⟨n, hn, rfl, rfl, rfl⟩, hps, hrep, hins, hfore, hcut⟩
      · exact absurd hnone hne
      · obtain ⟨⟨e, he, hkey⟩, -⟩ := mem_mergeEdits (hN.perm.mem_iff.1 hn)
        obtain ⟨h1, h2, h3⟩ := TextEdit.key_inj.1 hkey
        have hclean := h e he (by omega)
        simp only [h1, h2, h3] at hclean
        simp only [emits, hcut, hrep, hfore, hins, Option.map_some, Option.getD_some, hclean,
          List.append_assoc]
  · rcases hN.offset_cases input p with ⟨h1, h2, -⟩ | ⟨A, stop, text, -, -, h1, -, -, h2⟩
    · rw [h1, h2]
    · rw [h1, h2]; rfl
  · rcases hN.offset_cases input p with ⟨-, -, h⟩ | ⟨A, stop, text, -, -, -, -, -, h⟩
    · exact h
    · rw [hp] at h; cases h
  · rcases hN.offset_cases input p with ⟨h1, h2, h3⟩ | ⟨A, stop, text, ⟨n, hn, rfl, rfl, -⟩, hps, h1, h2,
      h3, h4⟩
    · simp [emits, h1, h2, h3]
    · have hle := (hN.accepted.bounds n (hN.perm.mem_iff.1 hn)).2
      simp only [emits, h1, h2, h3, h4, Option.map_some, Option.getD_some, List.length_append,
        List.length_drop, List.length_take]
      omega

end

/-- **`apply_edits` after `normalize_edits`**: the bytes are those of the simultaneous rewrite iff
    every accepted replacement cuts clean of the insertions it overtakes at its start. -/
theorem applyEdits_eq_simultaneous_iff {source : ActionSource} {edits : List TextEdit} {input : Bytes}
    {N : List NormalizedEdit} (hup : ∀ e ∈ edits, e.range.start ≤ e.range.stop)
    (h : normalizeEdits source edits input.length = .ok N) :
    applyEdits input N = some (simultaneous edits input) ↔ CutsClean edits input := by
  obtain ⟨orders, hN⟩ := normalizeEdits_normalized hup h
  rw [hN.applyEdits_eq rfl, Option.some_inj]
  exact hN.rewrite_iff rfl

/-- A replacement that overtakes nothing cuts clean: with at most one insertion at its start, say. -/
theorem cutsClean_of_overtaken_nil {edits : List TextEdit} {input : Bytes}
    (h : ∀ e ∈ edits, e.range.start < e.range.stop →
      overtaken edits e.range.start e.replacement = [])
    (hin : ∀ e ∈ edits, e.range.stop ≤ input.length) : CutsClean edits input := by
  intro e he hlt
  have hle := hin e he
  rw [h e he hlt]
  simp only [List.flatten_nil, List.nil_append, List.append_right_eq_self]
  refine List.drop_of_length_le ?_
  rw [List.length_drop, List.length_take]; omega

/-- Two ordered insertions `1`, `2` and the replacement of the first byte by `9`, all at offset 0. -/
def colliding (source : ActionSource) : List TextEdit :=
  [⟨⟨source, 0, 1⟩, [9], ⟨"rename", none, none⟩⟩,
   ⟨⟨source, 0, 0⟩, [1], ⟨"header", some 0, none⟩⟩,
   ⟨⟨source, 0, 0⟩, [2], ⟨"footer", some 1, none⟩⟩]

def fileA : ActionSource := .directory ⟨"root", "a"⟩

/-- The planner's answer for `colliding`: the replacement is sorted first. -/
def collidingNormalized : List NormalizedEdit :=
  [⟨0, 1, [9], [⟨"rename", none, none⟩]⟩, ⟨0, 0, [1], [⟨"header", some 0, none⟩]⟩,
   ⟨0, 0, [2], [⟨"footer", some 1, none⟩]⟩]

theorem applyEdits_eq_simultaneous_iff_colliding :
    applyEdits [7, 8] collidingNormalized = some (simultaneous (colliding fileA) [7, 8]) ↔
      CutsClean (colliding fileA) [7, 8] :=
  applyEdits_eq_simultaneous_iff (by decide)
    (show normalizeEdits fileA (colliding fileA) 2 = .ok collidingNormalized by decide)

/-- The insertion of `1` is lost and the byte `7` it was put before survives its replacement. -/
theorem applyEdits_cuts_insertion :
    normalizeEdits fileA (colliding fileA) 2 = .ok collidingNormalized ∧
    applyEdits [7, 8] collidingNormalized = some [9, 2, 7, 8] ∧
    simultaneous (colliding fileA) [7, 8] = [1, 2, 9, 8] := by
  decide

end Soopy
