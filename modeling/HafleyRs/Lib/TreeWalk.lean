import HafleyRs.Lib.Preorder

/-!
# Walking a tree with a stop

A walk visits nodes in order and ends at the first one that is a stop, which it still visits (`through`).
Upwards and along the children of one node the order is a list; downwards every branch ends on its own
(`descend`). Which nodes a walk visits is then said without the walk: those it would reach with no stop
before them (`mem_through`, `mem_ancestorsTo`, `mem_descend`).
-/

namespace Preorder

/-- The visited part of `l`: up to the first stop and with it. -/
def through {β : Type} (stop : β → Bool) : List β → List β
  | [] => []
  | b :: l => b :: if stop b then [] else through stop l

section
variable {β : Type} {stop : β → Bool}

theorem through_subset (l : List β) : through stop l ⊆ l := by
  induction l with
  | nil => simp [through]
  | cons b l ih =>
    rw [through]
    split
    · simp
    · exact List.cons_subset_cons b ih

@[simp] theorem through_eq_nil {l : List β} : through stop l = [] ↔ l = [] := by
  cases l <;> simp [through]

theorem through_map {γ : Type} (f : γ → β) (l : List γ) :
    through stop (l.map f) = (through (fun c => stop (f c)) l).map f := by
  induction l with
  | nil => rfl
  | cons c l ih =>
    simp only [List.map_cons, through, ih]
    split <;> rfl

/-- In an ordered list a member is visited exactly if nothing before it is a stop. -/
theorem mem_through {r : β → β → Prop} (hr : ∀ a b, r a b → ¬ r b a) {l : List β} (hl : l.Pairwise r) {a : β} :
    a ∈ through stop l ↔ a ∈ l ∧ ∀ b ∈ l, r b a → stop b = false := by
  induction l with
  | nil => simp [through]
  | cons c l ih =>
    obtain ⟨hc, hl⟩ := List.pairwise_cons.1 hl
    rw [through, List.mem_cons, List.mem_cons]
    constructor
    · rintro (rfl | h)
      · refine ⟨.inl rfl, fun b hb hba => ?_⟩
        rcases List.mem_cons.1 hb with rfl | hb
        · exact absurd hba (hr _ _ hba)
        · exact absurd hba (hr _ _ (hc b hb))
      · split at h
        · cases h
        · rename_i hstop
          obtain ⟨ha, hfree⟩ := (ih hl).1 h
          refine ⟨.inr ha, fun b hb hba => ?_⟩
          rcases List.mem_cons.1 hb with rfl | hb
          · simpa using hstop
          · exact hfree b hb hba
    · rintro ⟨rfl | ha, hfree⟩
      · exact .inl rfl
      · refine .inr ?_
        rw [if_neg (by simp [hfree c (List.mem_cons_self ..) (hc a ha)])]
        exact (ih hl).2 ⟨ha, fun b hb => hfree b (List.mem_cons_of_mem _ hb)⟩

end

/-! ## Upwards -/

/-- The nodes above `p`, nearest first, each with its child on the way down to `p`. -/
def ancestors (p : Path) : List (Path × Path) :=
  ((List.range p.length).map fun n => (p.take n, p.take (n + 1))).reverse

theorem mem_ancestors {p u k : Path} :
    (u, k) ∈ ancestors p ↔ u <+: p ∧ u ≠ p ∧ k = p.take (u.length + 1) := by
  simp only [ancestors, List.mem_reverse, List.mem_map, List.mem_range, Prod.mk.injEq]
  constructor
  · rintro ⟨n, hn, rfl, rfl⟩
    have hlen : (p.take n).length = n := by simp [Nat.le_of_lt hn]
    refine ⟨List.take_prefix n p, fun he => ?_, by rw [hlen]⟩
    rw [he] at hlen
    omega
  · rintro ⟨hu, hne, rfl⟩
    have hlt : u.length < p.length :=
      Nat.lt_of_le_of_ne hu.length_le fun h => hne (hu.eq_of_length h)
    exact ⟨u.length, hlt, (List.prefix_iff_eq_take.1 hu).symm, rfl⟩

theorem ancestors_pairwise (p : Path) : (ancestors p).Pairwise fun a b => b.1.length < a.1.length := by
  rw [ancestors, List.pairwise_reverse, List.pairwise_map]
  refine List.pairwise_lt_range.imp_of_mem fun hm hn h => ?_
  simp only [List.mem_range] at hm hn
  simp only [List.length_take]
  omega

theorem ancestors_concat (p : Path) (i : Nat) : ancestors (p ++ [i]) = (p, p ++ [i]) :: ancestors p := by
  have htake : ∀ n ∈ List.range p.length,
      ((p ++ [i]).take n, (p ++ [i]).take (n + 1)) = (p.take n, p.take (n + 1)) := by
    intro n hn
    have hn := List.mem_range.1 hn
    rw [List.take_append_of_le_length (Nat.le_of_lt hn), List.take_append_of_le_length hn]
  rw [ancestors, List.length_append, List.length_singleton, List.range_succ, List.map_append,
    List.reverse_append, List.map_congr_left htake]
  simp [ancestors]

/-- What a climb from `p` visits. -/
def climb (stop : Path → Bool) (p : Path) : List (Path × Path) := through (stop ·.1) (ancestors p)

/-- A climb visits the nodes that enclose `p` with no stop strictly between. -/
theorem mem_climb {stop : Path → Bool} {p u k : Path} :
    (u, k) ∈ climb stop p ↔
      (u <+: p ∧ u ≠ p ∧ k = p.take (u.length + 1)) ∧
        ∀ s, u <+: s → s ≠ u → s <+: p → s ≠ p → stop s = false := by
  rw [climb, mem_through (fun _ _ h => Nat.lt_asymm h) (ancestors_pairwise p), mem_ancestors]
  refine and_congr_right fun ⟨hu, _, _⟩ => ⟨fun h s hus hsu hsp hne => ?_, fun h ⟨s, k'⟩ hs hlt => ?_⟩
  · have hlt : u.length < s.length := Nat.lt_of_le_of_ne hus.length_le fun h => hsu (hus.eq_of_length h).symm
    exact h (s, _) (mem_ancestors.2 ⟨hsp, hne, rfl⟩) hlt
  · obtain ⟨hsp, hne, -⟩ := mem_ancestors.1 hs
    have hus : u <+: s := List.prefix_of_prefix_length_le hu hsp (Nat.le_of_lt hlt)
    exact h s hus (fun he => Nat.lt_irrefl _ (he ▸ hlt)) hsp hne

/-! ## Downwards -/

namespace Tree
variable {α : Type}

mutual
/-- The nodes below the root that a walk visits when each branch ends at its first stop. -/
def descend (stop : Path → Bool) : Tree α → List Path
  | node _ cs => descendFrom stop 0 cs
def descendFrom (stop : Path → Bool) (i : Nat) : List (Tree α) → List Path
  | [] => []
  | c :: cs =>
    ([i] :: if stop [i] then [] else (descend (fun p => stop (i :: p)) c).map (i :: ·)) ++
      descendFrom stop (i + 1) cs
end

theorem descend_eq (stop : Path → Bool) (t : Tree α) : t.descend stop = descendFrom stop 0 t.children := by
  cases t
  simp [descend, children]

theorem mem_descendFrom {stop : Path → Bool} {cs : List (Tree α)} {k : Nat} {p : Path} :
    p ∈ descendFrom stop k cs ↔
      ∃ i c q, p = (k + i) :: q ∧ cs[i]? = some c ∧
        (q = [] ∨ stop [k + i] = false ∧ q ∈ descend (fun r => stop ((k + i) :: r)) c) := by
  induction cs generalizing k with
  | nil => simp [descendFrom]
  | cons c cs ih =>
    rw [descendFrom, List.mem_append, ih]
    constructor
    · rintro (h | ⟨i, d, q, rfl, hd, hq⟩)
      · rcases List.mem_cons.1 h with rfl | h
        · exact ⟨0, c, [], rfl, rfl, .inl rfl⟩
        · split at h
          · cases h
          · rename_i hstop
            obtain ⟨q, hq, rfl⟩ := List.mem_map.1 h
            exact ⟨0, c, q, rfl, rfl, .inr ⟨by simpa using hstop, hq⟩⟩
      · exact ⟨i + 1, d, q, by rw [Nat.add_right_comm, Nat.add_assoc], hd, by
          rwa [Nat.add_right_comm, Nat.add_assoc] at hq⟩
    · rintro ⟨i, d, q, rfl, hd, hq⟩
      cases i with
      | zero =>
        obtain rfl : c = d := Option.some.inj hd
        refine .inl ?_
        rcases hq with rfl | ⟨hstop, hq⟩
        · exact List.mem_cons_self ..
        · rw [Nat.add_zero] at hstop hq
          rw [if_neg (by simp [hstop])]
          exact List.mem_cons_of_mem _ (List.mem_map_of_mem hq)
      | succ i =>
        exact .inr ⟨i, d, q, by rw [Nat.add_right_comm, Nat.add_assoc], hd, by
          rwa [Nat.add_right_comm, Nat.add_assoc]⟩

/-- The walk down visits the nodes below the root with no stop strictly between. -/
theorem mem_descend {stop : Path → Bool} {t : Tree α} {q : Path} :
    q ∈ t.descend stop ↔
      q ≠ [] ∧ (∃ s, t.sub q = some s) ∧ ∀ s, s ≠ [] → s <+: q → s ≠ q → stop s = false := by
  induction q generalizing t stop with
  | nil =>
    rw [descend_eq, mem_descendFrom]
    simp
  | cons j q ih =>
    rw [descend_eq, mem_descendFrom]
    constructor
    · rintro ⟨i, c, q', h, hc, hq⟩
      obtain ⟨rfl, rfl⟩ : j = i ∧ q = q' := by simpa using h
      rw [Nat.zero_add] at hq
      refine ⟨List.cons_ne_nil _ _, ?_, ?_⟩
      · rcases hq with rfl | ⟨-, hq⟩
        · exact ⟨c, sub_cons.2 ⟨c, hc, rfl⟩⟩
        · obtain ⟨s, hs⟩ := (ih.1 hq).2.1
          exact ⟨s, sub_cons.2 ⟨c, hc, hs⟩⟩
      · intro s hs hsq hne
        obtain ⟨i, s, rfl⟩ := List.exists_cons_of_ne_nil hs
        obtain ⟨rfl, hin⟩ := List.cons_prefix_cons.1 hsq
        rcases hq with rfl | ⟨hstop, hq⟩
        · exact absurd (by rw [List.prefix_nil.1 hin]) hne
        · rcases eq_or_ne s [] with rfl | hs
          · exact hstop
          · exact (ih.1 hq).2.2 s hs hin fun h => hne (by rw [h])
    · rintro ⟨-, ⟨u, hu⟩, hfree⟩
      obtain ⟨c, hc, hu⟩ := sub_cons.1 hu
      refine ⟨j, c, q, by simp, hc, ?_⟩
      rw [Nat.zero_add]
      rcases eq_or_ne q [] with rfl | hq
      · exact .inl rfl
      · refine .inr ⟨hfree [j] (by simp) (by simp) (by simpa using hq.symm), ?_⟩
        refine ih.2 ⟨hq, ⟨u, hu⟩, fun s _ hsq hne => hfree (j :: s) (by simp) (by simpa using hsq) ?_⟩
        simpa using hne

/-! ## Along the children of one node -/

/-- In an ordered list of numbers a member stands where as many are smaller. -/
theorem getElem?_sorted {l : List Nat} (hl : l.Pairwise (· < ·)) {k i : Nat} :
    l[k]? = some i ↔ i ∈ l ∧ l.countP (· < i) = k := by
  induction l generalizing k with
  | nil => simp
  | cons a l ih =>
    obtain ⟨ha, hl⟩ := List.pairwise_cons.1 hl
    have hnone : l.countP (· < a) = 0 := by
      rw [List.countP_eq_zero]
      intro b hb
      have := ha b hb
      simp
      omega
    cases k with
    | zero =>
      simp only [List.getElem?_cons_zero, Option.some.injEq, List.mem_cons]
      constructor
      · rintro rfl
        exact ⟨.inl rfl, by simp [hnone]⟩
      · rintro ⟨rfl | hi, hcount⟩
        · rfl
        · have := ha i hi
          simp [this] at hcount
    | succ k =>
      rw [List.getElem?_cons_succ, ih hl, List.mem_cons]
      constructor
      · rintro ⟨hi, hcount⟩
        exact ⟨.inr hi, by simp [ha i hi, hcount]⟩
      · rintro ⟨rfl | hi, hcount⟩
        · simp [hnone] at hcount
        · exact ⟨hi, by simpa [ha i hi] using hcount⟩

/-- Around a member of an ordered list the larger ones come after it and the smaller ones before it. -/
theorem filter_sorted {l : List Nat} (hl : l.Pairwise (· < ·)) {k i : Nat} (h : l[k]? = some i) :
    l.filter (i < ·) = l.drop (k + 1) ∧ l.filter (· < i) = l.take k := by
  obtain ⟨hk, hi⟩ := List.getElem?_eq_some_iff.1 h
  have hsplit : l = l.take k ++ i :: l.drop (k + 1) := by
    rw [← hi]
    simp
  rw [hsplit, List.pairwise_append, List.pairwise_cons] at hl
  obtain ⟨-, ⟨hafter, -⟩, hbefore⟩ := hl
  have hb : ∀ x ∈ l.take k, x < i := fun x hx => hbefore x hx _ (List.mem_cons_self ..)
  constructor
  · have hlow : (l.take k).filter (i < ·) = [] := by
      rw [List.filter_eq_nil_iff]
      intro x hx
      have := hb x hx
      simp
      omega
    have hhigh : (l.drop (k + 1)).filter (i < ·) = l.drop (k + 1) := by
      rw [List.filter_eq_self]
      intro x hx
      simpa using hafter x hx
    conv_lhs => rw [hsplit]
    simp [List.filter_append, hlow, hhigh]
  · have hlow : (l.take k).filter (· < i) = l.take k := by
      rw [List.filter_eq_self]
      intro x hx
      simpa using hb x hx
    have hhigh : (l.drop (k + 1)).filter (· < i) = [] := by
      rw [List.filter_eq_nil_iff]
      intro x hx
      have := hafter x hx
      simp
      omega
    conv_lhs => rw [hsplit]
    simp [List.filter_append, hlow, hhigh]

/-- Places of the children with a mark, in order. -/
def marked (mark : α → Bool) (t : Tree α) : List Nat :=
  (List.range t.children.length).filter fun i => (t.children[i]?).any fun c => mark c.label

theorem mem_marked {mark : α → Bool} {t : Tree α} {i : Nat} :
    i ∈ t.marked mark ↔ ∃ c, t.children[i]? = some c ∧ mark c.label = true := by
  rw [marked, List.mem_filter, List.mem_range, Option.any_eq_true]
  constructor
  · rintro ⟨-, h⟩
    exact h
  · rintro ⟨c, hc, hm⟩
    exact ⟨(List.getElem?_eq_some_iff.1 hc).1, c, hc, hm⟩

theorem marked_pairwise (mark : α → Bool) (t : Tree α) : (t.marked mark).Pairwise (· < ·) :=
  List.pairwise_lt_range.filter _

theorem marked_countP (mark : α → Bool) (t : Tree α) (i : Nat) :
    (t.marked mark).countP (· < i) = (t.children.take i).countP fun c => mark c.label := by
  induction i with
  | zero => simp
  | succ i ih =>
    have hsplit : ∀ l : List Nat, l.countP (· < i + 1) = l.countP (· < i) + l.count i := by
      intro l
      induction l with
      | nil => rfl
      | cons a l ihl =>
        simp only [List.countP_cons, List.count_cons, ihl, decide_eq_true_eq, beq_iff_eq]
        split <;> split <;> split <;> omega
    have hnd : (t.marked mark).Nodup := (marked_pairwise mark t).imp fun h => Nat.ne_of_lt h
    rw [hsplit, ih, List.take_add_one, List.countP_append, hnd.count]
    congr 1
    cases hc : t.children[i]? with
    | none => simp [mem_marked, hc]
    | some c => by_cases hm : mark c.label <;> simp [mem_marked, hc, hm]

/-- A marked child's place in the list of marked children is the number of marked children before it. -/
theorem marked_getElem? {mark : α → Bool} {t : Tree α} {k i : Nat} :
    (t.marked mark)[k]? = some i ↔
      (∃ c, t.children[i]? = some c ∧ mark c.label = true) ∧
        (t.children.take i).countP (fun c => mark c.label) = k := by
  rw [getElem?_sorted (marked_pairwise mark t), mem_marked, marked_countP]

end Tree
end Preorder
