import HafleyRs.HafleyScm.LowerRows

/-!
# The joins select what a walk selects

What a walk over the tree visits is said without the walk (`mem_children`, `mem_below`, `mem_later`, …) and
compared with what the joins test. They agree for every node and every walk but one: an anonymous node has no
`sib`, so in the store nothing precedes or follows it, while in the tree it can have named siblings on either
side (`relations_are_walks_iff`).
-/

namespace HafleyScm.Lower
open Preorder Preorder.Tree

/-! ## What a walk visits -/

section
variable {t : Cst} {p q : Path} {u : Cst}

theorem mem_parent {k : Path} : (q, k) ∈ (ancestors p).take 1 ↔ p ≠ [] ∧ q = p.dropLast ∧ k = p := by
  rcases List.eq_nil_or_concat' p with rfl | ⟨d, i, rfl⟩
  · simp [ancestors]
  · simp [ancestors_concat]

theorem mem_children (hp : t.sub p = some u) :
    q ∈ children t p ↔ (∃ v, t.sub q = some v) ∧ q ≠ [] ∧ q.dropLast = p := by
  simp only [children, hp, Option.elim_some, List.mem_map, List.mem_range]
  constructor
  · rintro ⟨i, hi, rfl⟩
    exact ⟨⟨u.children[i], sub_concat.2 ⟨u, hp, by simp [hi]⟩⟩, by simp, by simp⟩
  · rintro ⟨⟨v, hv⟩, hne, rfl⟩
    rw [← List.dropLast_concat_getLast hne] at hv
    obtain ⟨w, hw, hi⟩ := sub_concat.1 hv
    obtain rfl := Option.some.inj (hp.symm.trans hw)
    exact ⟨q.getLast hne, (List.getElem?_eq_some_iff.1 hi).1, List.dropLast_concat_getLast hne⟩

theorem mem_below (hp : t.sub p = some u) {stop : Path → Bool} :
    q ∈ below t stop p ↔ (∃ v, t.sub q = some v) ∧ (p <+: q ∧ p ≠ q) ∧
      ∀ s, p <+: s → s ≠ p → s <+: q → s ≠ q → stop s = false := by
  simp only [below, hp, Option.elim_some, List.mem_map, mem_descend]
  constructor
  · rintro ⟨q, ⟨hne, ⟨v, hv⟩, hfree⟩, rfl⟩
    refine ⟨⟨v, by simp [sub_append, hp, hv]⟩, ⟨List.prefix_append p q, by simpa using hne⟩, ?_⟩
    rintro s ⟨s, rfl⟩ hsp hsq hsne
    exact hfree s (by simpa using hsp) (by simpa using hsq) (by simpa using hsne)
  · rintro ⟨⟨v, hv⟩, ⟨⟨q, rfl⟩, hne⟩, hfree⟩
    rw [sub_append, hp] at hv
    refine ⟨q, ⟨by simpa using hne, ⟨v, hv⟩, fun s hs hsq hsne => ?_⟩, rfl⟩
    exact hfree (p ++ s) (by simp) (by simpa using hs) (by simpa using hsq) (by simpa using hsne)

variable {d : Path} {i k : Nat} (hd : t.sub d = some u)
include hd

theorem sqlLt_sib {a b : Nat} : sqlLt (Cst.sib t (d ++ [a])) (Cst.sib t (d ++ [b])) = true ↔
    a ∈ u.marked (·.named) ∧ b ∈ u.marked (·.named) ∧ a < b := by
  have hsorted := List.pairwise_iff_getElem.1 (marked_pairwise (·.named) u)
  rw [sib_concat hd, sib_concat hd]
  constructor
  · intro h
    cases ha : Cst.namedIndex u a with
    | none => simp [ha, sqlLt] at h
    | some x =>
      cases hb : Cst.namedIndex u b with
      | none => simp [ha, hb, sqlLt] at h
      | some y =>
        obtain ⟨m, rfl, hm⟩ := namedIndex_eq.1 ha
        obtain ⟨n, rfl, hn⟩ := namedIndex_eq.1 hb
        obtain ⟨hml, rfl⟩ := List.getElem?_eq_some_iff.1 hm
        obtain ⟨hnl, rfl⟩ := List.getElem?_eq_some_iff.1 hn
        simp only [ha, hb, sqlLt, decide_eq_true_eq, Int.ofNat_lt] at h
        exact ⟨List.getElem_mem hml, List.getElem_mem hnl, hsorted m n hml hnl h⟩
  · rintro ⟨ha, hb, hab⟩
    obtain ⟨m, hml, rfl⟩ := List.mem_iff_getElem.1 ha
    obtain ⟨n, hnl, rfl⟩ := List.mem_iff_getElem.1 hb
    have hmn : m < n := by
      by_contra hle
      rcases Nat.lt_or_eq_of_le (Nat.not_lt.1 hle) with h | rfl
      · have := hsorted n m hnl hml h
        omega
      · omega
    rw [namedIndex_eq.2 ⟨m, rfl, List.getElem?_eq_getElem hml⟩,
      namedIndex_eq.2 ⟨n, rfl, List.getElem?_eq_getElem hnl⟩]
    simpa [sqlLt] using hmn

theorem later_eq : later t (d ++ [i]) = ((u.marked (·.named)).filter (i < ·)).map fun j => d ++ [j] := by
  simp [later, hd]

theorem earlier_eq :
    earlier t (d ++ [i]) = ((u.marked (·.named)).filter (· < i)).reverse.map fun j => d ++ [j] := by
  simp [earlier, hd]

theorem mem_later {stop : Path → Bool} : q ∈ through stop (later t (d ++ [i])) ↔
    ∃ j, q = d ++ [j] ∧ (j ∈ u.marked (·.named) ∧ i < j) ∧
      ∀ b ∈ u.marked (·.named), i < b → b < j → stop (d ++ [b]) = false := by
  have hord := (marked_pairwise (·.named) u).filter fun j => i < j
  rw [later_eq hd, through_map, List.mem_map]
  constructor
  · rintro ⟨j, hj, rfl⟩
    obtain ⟨hj, hfree⟩ := (mem_through (fun _ _ h => Nat.lt_asymm h) hord).1 hj
    refine ⟨j, rfl, by simpa using hj, fun b hb hib hbj => hfree b ?_ hbj⟩
    simpa using ⟨hb, hib⟩
  · rintro ⟨j, rfl, hj, hfree⟩
    refine ⟨j, (mem_through (fun _ _ h => Nat.lt_asymm h) hord).2 ⟨by simpa using hj, fun b hb hbj => ?_⟩, rfl⟩
    obtain ⟨hb, hib⟩ : b ∈ u.marked (·.named) ∧ i < b := by simpa using hb
    exact hfree b hb hib hbj

theorem mem_earlier {stop : Path → Bool} : q ∈ through stop (earlier t (d ++ [i])) ↔
    ∃ j, q = d ++ [j] ∧ (j ∈ u.marked (·.named) ∧ j < i) ∧
      ∀ b ∈ u.marked (·.named), j < b → b < i → stop (d ++ [b]) = false := by
  have hord : (((u.marked (·.named)).filter fun j => j < i).reverse).Pairwise (· > ·) :=
    List.pairwise_reverse.2 ((marked_pairwise (·.named) u).filter fun j => j < i)
  rw [earlier_eq hd, through_map, List.mem_map]
  constructor
  · rintro ⟨j, hj, rfl⟩
    obtain ⟨hj, hfree⟩ := (mem_through (fun _ _ h => Nat.lt_asymm h) hord).1 hj
    refine ⟨j, rfl, by simpa using hj, fun b hb hjb hbi => hfree b ?_ hjb⟩
    simpa using ⟨hb, hbi⟩
  · rintro ⟨j, rfl, hj, hfree⟩
    refine ⟨j, (mem_through (fun _ _ h => Nat.lt_asymm h) hord).2 ⟨by simpa using hj, fun b hb hjb => ?_⟩, rfl⟩
    obtain ⟨hb, hbi⟩ : b ∈ u.marked (·.named) ∧ b < i := by simpa using hb
    exact hfree b hb hjb hbi

/-- The adjacent named sibling is the next place in the list of named children. -/
theorem mem_next (hi : (u.marked (·.named))[k]? = some i) :
    q ∈ (later t (d ++ [i])).take 1 ↔ ∃ j, q = d ++ [j] ∧ (u.marked (·.named))[k + 1]? = some j := by
  rw [later_eq hd, (filter_sorted (marked_pairwise _ u) hi).1, List.take_one, Option.mem_toList, List.head?_map,
    List.head?_drop, Option.map_eq_some_iff]
  exact ⟨fun ⟨j, hj, he⟩ => ⟨j, he.symm, hj⟩, fun ⟨j, he, hj⟩ => ⟨j, hj, he.symm⟩⟩

theorem mem_prev (hi : (u.marked (·.named))[k]? = some i) :
    q ∈ (earlier t (d ++ [i])).take 1 ↔ ∃ j m, q = d ++ [j] ∧ (u.marked (·.named))[m]? = some j ∧ m + 1 = k := by
  rw [earlier_eq hd, (filter_sorted (marked_pairwise _ u) hi).2, List.take_one, Option.mem_toList, List.head?_map,
    List.head?_reverse, Option.map_eq_some_iff]
  cases k with
  | zero => simp
  | succ k =>
    obtain ⟨hk, -⟩ := List.getElem?_eq_some_iff.1 hi
    have hm := List.getElem?_eq_getElem (Nat.lt_of_succ_lt hk)
    rw [List.take_add_one, hm, Option.toList_some, List.getLast?_concat]
    constructor
    · rintro ⟨j, hj, rfl⟩
      exact ⟨j, k, rfl, hm.trans hj, rfl⟩
    · rintro ⟨j, m, rfl, hj, hmk⟩
      obtain rfl : m = k := Nat.succ_injective hmk
      exact ⟨j, hm.symm.trans hj, rfl⟩

end

/-! ## One step -/

theorem mem_select {r : Rel} {file : Nat} {t : Cst} {p q : Path} :
    q ∈ select r file t p ↔
      ∃ k, (q, k) ∈ visited r.walk r.neighbor t (fun q => r.stop.any (·.at file t q)) p ∧
        r.field.all (Cst.fieldOf t k == ·) = true := by
  simp only [select, List.mem_map, List.mem_filter, Prod.exists, exists_and_right, exists_eq_right]

theorem mem_alongSiblings {neighbor : Bool} {stop : Path → Bool} {l : List Path} {q k : Path} :
    (q, k) ∈ alongSiblings neighbor stop l ↔ k = q ∧ q ∈ if neighbor then l.take 1 else through stop l := by
  simp only [alongSiblings, List.mem_map, Prod.mk.injEq]
  constructor
  · rintro ⟨x, hx, rfl, rfl⟩
    exact ⟨rfl, hx⟩
  · rintro ⟨rfl, hq⟩
    exact ⟨_, hq, rfl, rfl⟩

theorem siblingOrder_precedes (mine theirs : Option Int) :
    siblingOrder .precedes false mine theirs = sqlLt mine theirs := by
  cases mine <;> cases theirs <;> rfl

theorem siblingOrder_follows (mine theirs : Option Int) :
    siblingOrder .follows false mine theirs = sqlLt theirs mine := by
  cases mine <;> cases theirs <;> rfl

/-- No place lies strictly between two adjacent ones. -/
theorem not_sqlLt_adjacent {a b : Int} (h : b = a + 1) (x : Option Int) :
    ¬ (sqlLt (some a) x = true ∧ sqlLt x (some b) = true) := by
  cases x with
  | none => simp [sqlLt]
  | some x =>
    simp only [sqlLt, decide_eq_true_eq]
    omega

/-- The tests on the two sibling rows, for a named context node. -/
theorem siblings_iff {r : Rel} (hw : r.walk = .precedes ∨ r.walk = .follows) {file : Nat} {t u v : Cst}
    {d q : Path} {i k : Nat} (hd : t.sub d = some u) (hi : (u.marked (·.named))[k]? = some i)
    (hq : t.sub q = some v) {stop : Path → Bool} :
    ((Cst.row file t q).parent = (Cst.row file t (d ++ [i])).parent ∧
        siblingOrder r.walk r.neighbor (Cst.sib t (d ++ [i])) (Cst.sib t q) = true ∧
        (∀ s w, t.sub s = some w → (Cst.row file t s).parent = (Cst.row file t (d ++ [i])).parent ∧
          sqlLt (Cst.sib t (if r.walk = .precedes then d ++ [i] else q)) (Cst.sib t s) = true ∧
          sqlLt (Cst.sib t s) (Cst.sib t (if r.walk = .precedes then q else d ++ [i])) = true →
          stop s = false)) ↔
      (q, q) ∈ visited r.walk r.neighbor t stop (d ++ [i]) := by
  have hparent : ∀ {s w}, t.sub s = some w →
      ((Cst.row file t s).parent = (Cst.row file t (d ++ [i])).parent ↔ ∃ j, s = d ++ [j]) := by
    intro s w hs
    rw [row_parent_concat, row_parent hs hd]
    constructor
    · rintro ⟨hne, rfl⟩
      exact ⟨s.getLast hne, (List.dropLast_concat_getLast hne).symm⟩
    · rintro ⟨j, rfl⟩
      simp
  have hmine : Cst.sib t (d ++ [i]) = some (k : Int) := (sib_concat hd i).trans (namedIndex_eq.2 ⟨k, rfl, hi⟩)
  have himem : i ∈ u.marked (·.named) := List.mem_of_getElem? hi
  have hvalid : ∀ b ∈ u.marked (·.named), ∃ w, t.sub (d ++ [b]) = some w := by
    intro b hb
    obtain ⟨c, hc, -⟩ := mem_marked.1 hb
    exact ⟨c, sub_concat.2 ⟨u, hd, hc⟩⟩
  rw [hparent hq]
  rcases hw with hw | hw <;> rw [hw] <;> simp only [visited, mem_alongSiblings, true_and, if_true, reduceCtorEq,
    if_false] <;> cases r.neighbor <;> simp only [Bool.false_eq_true, if_false, if_true]
  · -- later siblings, up to a stop
    rw [mem_later hd, siblingOrder_precedes]
    constructor
    · rintro ⟨⟨j, rfl⟩, hlt, hfree⟩
      obtain ⟨-, hj, hij⟩ := (sqlLt_sib hd).1 hlt
      refine ⟨j, rfl, ⟨hj, hij⟩, fun b hb hib hbj => ?_⟩
      obtain ⟨w, hw⟩ := hvalid b hb
      exact hfree _ w hw ⟨(hparent hw).2 ⟨b, rfl⟩, (sqlLt_sib hd).2 ⟨himem, hb, hib⟩, (sqlLt_sib hd).2 ⟨hb, hj, hbj⟩⟩
    · rintro ⟨j, rfl, ⟨hj, hij⟩, hfree⟩
      refine ⟨⟨j, rfl⟩, (sqlLt_sib hd).2 ⟨himem, hj, hij⟩, fun s w hs ⟨hup, hlow, hhigh⟩ => ?_⟩
      obtain ⟨b, rfl⟩ := (hparent hs).1 hup
      exact hfree b ((sqlLt_sib hd).1 hlow).2.1 ((sqlLt_sib hd).1 hlow).2.2 ((sqlLt_sib hd).1 hhigh).2.2
  · -- the next sibling
    rw [mem_next hd hi, hmine]
    constructor
    · rintro ⟨⟨j, rfl⟩, hord, -⟩
      refine ⟨j, rfl, ?_⟩
      rw [sib_concat hd] at hord
      cases hj : Cst.namedIndex u j with
      | none => simp [hj, siblingOrder] at hord
      | some x =>
        obtain ⟨m, rfl, hm⟩ := namedIndex_eq.1 hj
        simp only [hj, siblingOrder, beq_iff_eq] at hord
        obtain rfl : m = k + 1 := by omega
        exact hm
    · rintro ⟨j, rfl, hj⟩
      have htheirs : Cst.sib t (d ++ [j]) = some ((k + 1 : Nat) : Int) :=
        (sib_concat hd j).trans (namedIndex_eq.2 ⟨k + 1, rfl, hj⟩)
      rw [htheirs]
      refine ⟨⟨j, rfl⟩, by simp [siblingOrder], fun s w _ ⟨_, hb⟩ => ?_⟩
      exact absurd hb (not_sqlLt_adjacent (by simp) _)
  · -- earlier siblings, up to a stop
    rw [mem_earlier hd, siblingOrder_follows]
    constructor
    · rintro ⟨⟨j, rfl⟩, hlt, hfree⟩
      obtain ⟨hj, -, hji⟩ := (sqlLt_sib hd).1 hlt
      refine ⟨j, rfl, ⟨hj, hji⟩, fun b hb hjb hbi => ?_⟩
      obtain ⟨w, hw⟩ := hvalid b hb
      exact hfree _ w hw ⟨(hparent hw).2 ⟨b, rfl⟩, (sqlLt_sib hd).2 ⟨hj, hb, hjb⟩, (sqlLt_sib hd).2 ⟨hb, himem, hbi⟩⟩
    · rintro ⟨j, rfl, ⟨hj, hji⟩, hfree⟩
      refine ⟨⟨j, rfl⟩, (sqlLt_sib hd).2 ⟨hj, himem, hji⟩, fun s w hs ⟨hup, hlow, hhigh⟩ => ?_⟩
      obtain ⟨b, rfl⟩ := (hparent hs).1 hup
      exact hfree b ((sqlLt_sib hd).1 hlow).2.1 ((sqlLt_sib hd).1 hlow).2.2 ((sqlLt_sib hd).1 hhigh).2.2
  · -- the previous sibling
    rw [mem_prev hd hi, hmine]
    constructor
    · rintro ⟨⟨j, rfl⟩, hord, -⟩
      rw [sib_concat hd] at hord
      cases hj : Cst.namedIndex u j with
      | none => simp [hj, siblingOrder] at hord
      | some x =>
        obtain ⟨m, rfl, hm⟩ := namedIndex_eq.1 hj
        simp only [hj, siblingOrder, beq_iff_eq] at hord
        exact ⟨j, m, rfl, hm, by omega⟩
    · rintro ⟨j, m, rfl, hj, rfl⟩
      have htheirs : Cst.sib t (d ++ [j]) = some (m : Int) :=
        (sib_concat hd j).trans (namedIndex_eq.2 ⟨m, rfl, hj⟩)
      rw [htheirs]
      refine ⟨⟨j, rfl⟩, by simp [siblingOrder], fun s w _ ⟨_, hb⟩ => ?_⟩
      exact absurd hb (not_sqlLt_adjacent (by simp) _)

section
variable {t : Cst} {p q : Path} {u : Cst} (hp : t.sub p = some u)
include hp

theorem mem_marked_of_named {d : Path} {i : Nat} {w : Cst} (hd : t.sub d = some w) (he : p = d ++ [i]) :
    Cst.named t p = true ↔ i ∈ w.marked (·.named) := by
  subst he
  obtain ⟨w', hw', hi⟩ := sub_concat.1 hp
  obtain rfl := Option.some.inj (hd.symm.trans hw')
  simp [Cst.named, hp, mem_marked, hi]

theorem sib_of_anonymous (h : Cst.named t p = false) : Cst.sib t p = none := by
  rcases List.eq_nil_or_concat' p with rfl | ⟨d, i, rfl⟩
  · rfl
  · obtain ⟨w, hd, -⟩ := sub_concat.1 hp
    cases hsib : Cst.sib t (d ++ [i]) with
    | none => rfl
    | some x =>
      rw [sib_concat hd] at hsib
      obtain ⟨k, -, hk⟩ := namedIndex_eq.1 hsib
      rw [(mem_marked_of_named hp hd rfl).2 (List.mem_of_getElem? hk)] at h
      cases h

/-- Only the root and the anonymous nodes have no place among named siblings. -/
theorem sib_none (h : Cst.sib t p = none) : p = [] ∨ Cst.named t p = false := by
  rcases List.eq_nil_or_concat' p with rfl | ⟨d, i, rfl⟩
  · exact .inl rfl
  · obtain ⟨w, hd, -⟩ := sub_concat.1 hp
    refine .inr ?_
    rw [← Bool.not_eq_true, mem_marked_of_named hp hd rfl]
    intro hi
    obtain ⟨k, hk⟩ := List.mem_iff_getElem?.1 hi
    rw [sib_concat hd, namedIndex_eq.2 ⟨k, rfl, hk⟩] at h
    cases h

omit hp in
theorem siblings_valid (h : q ∈ later t p ∨ q ∈ earlier t p) : ∃ v, t.sub q = some v := by
  simp only [later, earlier] at h
  cases hi : p.getLast? with
  | none => simp [hi] at h
  | some i =>
    cases hd : t.sub p.dropLast with
    | none => simp [hi, hd] at h
    | some w =>
      simp only [hi, hd, Option.elim_some, List.mem_map, List.mem_reverse, List.mem_filter, mem_marked] at h
      obtain ⟨j, ⟨⟨c, hc, -⟩, -⟩, rfl⟩ | ⟨j, ⟨⟨c, hc, -⟩, -⟩, rfl⟩ := h
      · exact ⟨c, sub_concat.2 ⟨w, hd, hc⟩⟩
      · exact ⟨c, sub_concat.2 ⟨w, hd, hc⟩⟩

/-- A walk stays in the tree. -/
theorem visited_valid {walk : Walk} {neighbor : Bool} {stop : Path → Bool} {k : Path}
    (h : (q, k) ∈ visited walk neighbor t stop p) : ∃ v, t.sub q = some v := by
  have habove : (q, k) ∈ ancestors p → ∃ v, t.sub q = some v :=
    fun h => sub_of_prefix hp (mem_ancestors.1 h).1
  have halong : ∀ {l}, (q, k) ∈ alongSiblings neighbor stop l → q ∈ l := by
    intro l h
    obtain ⟨-, h⟩ := mem_alongSiblings.1 h
    cases neighbor with
    | false => exact through_subset l h
    | true => exact List.mem_of_mem_take h
  cases walk with
  | parent => exact habove (List.mem_of_mem_take h)
  | ancestor =>
    cases neighbor with
    | false => exact habove (through_subset _ h)
    | true => exact habove (List.mem_of_mem_take h)
  | descendant =>
    obtain ⟨x, hx, he⟩ := List.mem_map.1 h
    obtain ⟨rfl, rfl⟩ := Prod.mk.inj he
    cases neighbor with
    | false => exact ((mem_below hp).1 hx).1
    | true => exact ((mem_children hp).1 hx).1
  | precedes => exact siblings_valid (.inl (halong h))
  | follows => exact siblings_valid (.inr (halong h))
  | nthChild => cases h

end

/-- Where the joins and the walk may part: the walk is along siblings and the node is an anonymous one. -/
def Sideways (r : Rel) : Prop := r.walk = .precedes ∨ r.walk = .follows

section
variable {s : Store} {file : Nat} {t : Cst} (hf : (file, t) ∈ s.files) (r : Rel) {p q : Path} {u v : Cst}
  (hp : t.sub p = some u) {from' to' : CaptureRow} (hfrom : from'.file = file) (hpre : from'.node = t.pre p)
  (hto : to'.file = file)
include hf hp hfrom hpre hto

omit hf hp hfrom hpre hto in
theorem step_sideways (hw : Sideways r) : step s.nodes r from' to' = siblingRows s.nodes r from' to' := by
  rcases hw with h | h <;> simp [step, h]

/-- An anonymous node has no `sib`, so nothing precedes or follows it in the store. -/
theorem step_anonymous (hw : Sideways r) (hnone : Cst.sib t p = none) (hq : t.sub q = some v)
    (hnode : to'.node = t.pre q) : step s.nodes r from' to' = [] := by
  rw [step_sideways r hw]
  refine (sibling_once hf r hp hq hfrom hpre hto hnode).2 ?_
  rintro ⟨-, hord, -⟩
  simp [hnone, siblingOrder] at hord

theorem sideways_once (hw : Sideways r) (hside : Cst.named t p = false → select r file t p = [])
    (hq : t.sub q = some v) (hnode : to'.node = t.pre q) :
    Once (step s.nodes r from' to') (q ∈ select r file t p) := by
  cases hsib : Cst.sib t p with
  | none =>
    have hempty : select r file t p = [] := by
      rcases sib_none hp hsib with rfl | h
      · rcases hw with h | h <;> cases hn : r.neighbor <;>
          simp [select, visited, h, hn, alongSiblings, later, earlier, through]
      · exact hside h
    rw [step_anonymous hf r hp hfrom hpre hto hw hsib hq hnode, hempty]
    exact Once.nil (by simp)
  | some x =>
    rcases List.eq_nil_or_concat' p with rfl | ⟨d, i, rfl⟩
    · simp [Cst.sib] at hsib
    · obtain ⟨w, hd, -⟩ := sub_concat.1 hp
      rw [sib_concat hd] at hsib
      obtain ⟨k, rfl, hi⟩ := namedIndex_eq.1 hsib
      rw [step_sideways r hw]
      refine (sibling_once hf r hp hq hfrom hpre hto hnode).congr ?_
      rw [mem_select, ← and_assoc, ← and_assoc, and_assoc (a := (Cst.row file t q).parent = _),
        siblings_iff hw hd hi hq]
      constructor
      · rintro ⟨hv, hfield⟩
        exact ⟨q, hv, hfield⟩
      · rintro ⟨k', hv, hfield⟩
        have hk : k' = q := by
          rcases hw with h | h <;> rw [h] at hv <;> exact (mem_alongSiblings.1 hv).1
        exact hk ▸ ⟨hk ▸ hv, hfield⟩

theorem step_nowhere (hnode : ∀ q v, t.sub q = some v → to'.node ≠ t.pre q) : step s.nodes r from' to' = [] := by
  have hrow : ∀ y ∈ s.nodes, y.file = to'.file → y.pre ≠ to'.node := by
    intro y hy hyf he
    obtain ⟨q, v, hq, rfl⟩ := (Store.mem_file hf).1 ⟨hy, hyf.trans hto⟩
    exact hnode q v hq he.symm
  have hedge : edgeRows s.nodes r.field from' to' = [] := by
    refine (edge_once hf r hp hfrom hpre to').2 ?_
    rintro ⟨hup, -⟩
    rcases List.eq_nil_or_concat' p with rfl | ⟨d, i, rfl⟩
    · simp [Cst.row] at hup
    · obtain ⟨w, hd, -⟩ := sub_concat.1 hp
      rw [row_parent_concat] at hup
      exact hnode d w hd (by omega)
  have hdown : edgeRows s.nodes r.field to' from' = [] := by
    rw [edgeRows, List.map_eq_nil_iff, List.filter_eq_nil_iff]
    intro y hy hP
    simp only [Bool.and_eq_true, beq_iff_eq] at hP
    exact hrow y hy hP.1.1.1 hP.1.1.2
  have habove : ancestorRows s.nodes r from' to' = [] := by
    rw [ancestorRows, List.filter_eq_nil_iff.2, List.flatMap_nil]
    intro y hy hP
    simp only [Bool.and_eq_true, beq_iff_eq] at hP
    exact hrow y hy hP.1.1.1.1 hP.1.1.1.2
  have hbelow : descendantRows s.nodes r from' to' = [] := by
    rw [descendantRows, List.flatMap_eq_nil_iff]
    intro y hy
    simp only [List.mem_filter, Bool.and_eq_true, beq_iff_eq, decide_eq_true_eq] at hy
    obtain ⟨hy, ⟨⟨⟨hyf, hyp⟩, -⟩, hhigh⟩, -⟩ := hy
    obtain rfl := Store.row_of_key hf hp hy (hyf.trans hfrom) (hyp.trans hpre)
    -- numbers have no gaps
    have hsize : to'.node < t.size := by
      have := pre_lt hp
      have := last_eq hp
      rw [row_last] at hhigh
      omega
    obtain ⟨q, v, hq, he⟩ := exists_pre_eq hsize
    exact absurd he.symm (hnode q v hq)
  have hside : siblingRows s.nodes r from' to' = [] := by
    rw [siblingRows, List.flatMap_eq_nil_iff]
    intro y hy
    rw [List.map_eq_nil_iff, List.filter_eq_nil_iff]
    intro z hz hP
    simp only [Bool.and_eq_true, beq_iff_eq] at hP
    exact hrow z hz hP.1.1.1.1.1 hP.1.1.1.1.2
  unfold step
  split
  · exact hedge
  · exact hedge
  · exact hdown
  · exact habove
  · exact hbelow
  · exact hside
  · exact hside
  · rfl

/-- **A step joins once exactly the nodes the walk selects**, unless it goes sideways from an anonymous node that
has siblings to reach. -/
theorem step_once (hside : Sideways r → Cst.named t p = false → select r file t p = []) :
    Once (step s.nodes r from' to') (∃ q ∈ select r file t p, to'.node = t.pre q) := by
  by_cases hat : ∃ q v, t.sub q = some v ∧ to'.node = t.pre q
  swap
  · rw [step_nowhere hf r hp hfrom hpre hto fun q v hq he => hat ⟨q, v, hq, he⟩]
    refine Once.nil ?_
    rintro ⟨q, hq, he⟩
    obtain ⟨k, hk, -⟩ := mem_select.1 hq
    obtain ⟨v, hv⟩ := visited_valid hp hk
    exact hat ⟨q, v, hv, he⟩
  obtain ⟨q, v, hq, hnode⟩ := hat
  suffices h : Once (step s.nodes r from' to') (q ∈ select r file t p) by
    refine h.congr ⟨fun h => ⟨q, h, hnode⟩, ?_⟩
    rintro ⟨q', hq', he⟩
    obtain ⟨k, hk, -⟩ := mem_select.1 hq'
    obtain ⟨v', hv'⟩ := visited_valid hp hk
    rwa [pre_inj hq hv' (hnode.symm.trans he)]
  have hup : (Cst.row file t p).parent = to'.node ↔ p ≠ [] ∧ q = p.dropLast := by
    rw [hnode, row_parent hp hq, eq_comm (a := q)]
  by_cases hw : Sideways r
  · exact sideways_once hf r hp hfrom hpre hto hw (hside hw) hq hnode
  simp only [mem_select]
  rcases hwalk : r.walk with _ | _ | _ | _ | _ | n
  · -- parent
    simp only [step, hwalk, visited, mem_parent]
    exact (edge_once hf r hp hfrom hpre to').congr (by rw [hup]; aesop)
  · cases hn : r.neighbor with
    | true =>
      simp only [step, hwalk, hn, visited, mem_parent, if_true]
      exact (edge_once hf r hp hfrom hpre to').congr (by rw [hup]; aesop)
    | false =>
      simp only [step, hwalk, hn, visited, mem_climb, Bool.false_eq_true, if_false]
      refine (ancestor_once hf r hp hq hfrom hpre hto hnode).congr ?_
      simp only [Free]
      aesop
  · cases hn : r.neighbor with
    | true =>
      simp only [step, hwalk, hn, visited, if_true, List.mem_map, mem_children hp]
      refine (edge_once hf r hq hto hnode from').congr ?_
      rw [hpre, row_parent hq hp]
      aesop
    | false =>
      simp only [step, hwalk, hn, visited, Bool.false_eq_true, if_false, List.mem_map, mem_below hp]
      refine (descendant_once hf r hp hq hfrom hpre hto hnode).congr ?_
      simp only [Free]
      aesop
  · exact absurd (.inl hwalk) hw
  · exact absurd (.inr hwalk) hw
  · simp only [step, hwalk, visited]
    exact Once.nil (by simp)

end

/-! ## One relation -/

section
variable {s : Store} {file : Nat} {t : Cst} (hf : (file, t) ∈ s.files) (r : Rel) {p : Path} {u : Cst}
  (hp : t.sub p = some u) {from' : CaptureRow} (hfrom : from'.file = file) (hpre : from'.node = t.pre p)
include hf hp hfrom hpre

theorem matched_eq (hside : Sideways r → Cst.named t p = false → select r file t p = []) (target : Level) :
    matched s.nodes r target from' = related r target file t p := by
  rw [matched, related]
  induction target.hits with
  | nil => rfl
  | cons to' l ih =>
    by_cases hto : to'.file = file
    · have honce := step_once hf r hp hfrom hpre hto hside
      simp only [List.filter_cons, hfrom, hto, beq_self_eq_true, if_true, List.flatMap_cons, Bool.true_and,
        List.any_eq_true, beq_iff_eq]
      rw [hfrom] at ih
      split
      · rename_i hsel
        obtain ⟨x, hx⟩ := honce.1 hsel
        simpa [hx] using ih
      · rename_i hsel
        simpa [honce.2 hsel] using ih
    · rw [hfrom] at ih
      simpa [List.filter_cons, hfrom, hto] using ih

/-- A left join on match numbers finds the matches they come from: a match has one root. -/
theorem optional_eq (hside : Sideways r → Cst.named t p = false → select r file t p = []) (target : Level) :
    optionalRows s.nodes r target from' =
      if (related r target file t p).isEmpty then [.absent] else (related r target file t p).map .joined := by
  have hon : (target.roots.filter fun root => root.file == from'.file &&
      ((matched s.nodes r target from').map (·.ordinal)).contains root.ordinal) = related r target file t p := by
    rw [matched_eq hf r hp hfrom hpre hside, related, Level.hits, List.filter_filter]
    refine List.filter_congr fun root hroot => ?_
    rw [Bool.eq_iff_iff]
    simp only [Bool.and_eq_true, beq_iff_eq, List.contains_iff_mem, List.mem_map, List.mem_filter, hfrom]
    constructor
    · rintro ⟨hfile, m, ⟨hm, hsel, hpass⟩, hord⟩
      have hsame : m = root := by
        by_contra hne
        have hsymm : Std.Symm fun a b : CaptureRow => ¬ (a.file = b.file ∧ a.ordinal = b.ordinal) :=
          ⟨fun a b h h' => h ⟨h'.1.symm, h'.2.symm⟩⟩
        exact target.once.forall hm hroot hne ⟨hsel.1.trans hfile.symm, hord⟩
      exact hsame ▸ ⟨hsel, hpass⟩
    · rintro ⟨hsel, hpass⟩
      exact ⟨hsel.1, root, ⟨hroot, hsel, hpass⟩, rfl⟩
  rw [optionalRows, hon]

/-! ### Position among siblings -/

omit hf hp hfrom hpre in
theorem sqlLt_some {a b : Option Int} (h : sqlLt a b = true) : a.isSome ∧ b.isSome := by
  cases a <;> cases b <;> simp_all [sqlLt]

omit hf hp hpre hfrom in
theorem nodeIs_row (of : Level) (q : Path) : nodeIs of (Cst.row file t q) = of.at file t q := rfl

omit hp hfrom hpre in
/-- The ranks of the store are the places among the siblings that match. -/
theorem rank_eq (of : Level) {d : Path} {i : Nat} {w : Cst} (hd : t.sub d = some w)
    (hi : i ∈ w.marked (·.named)) :
    rank (ranked s.nodes of) (Cst.row file t (d ++ [i])) =
      1 + ((w.marked (·.named)).filter fun j => of.at file t (d ++ [j])).countP (· < i) := by
  have hvalid : ∀ b ∈ w.marked (·.named), ∃ v, t.sub (d ++ [b]) = some v := by
    intro b hb
    obtain ⟨c, hc, -⟩ := mem_marked.1 hb
    exact ⟨c, sub_concat.2 ⟨w, hd, hc⟩⟩
  have hnd : ((w.marked (·.named)).filter fun j => of.at file t (d ++ [j])).Nodup :=
    ((marked_pairwise _ w).imp fun h => Nat.ne_of_lt h).filter _
  rw [rank, List.countP_eq_length_filter, List.countP_eq_length_filter]
  congr 1
  -- the rows before it are those of the matching siblings before it
  refine (List.Perm.length_eq ((List.perm_ext_iff_of_nodup ((s.nodes_nodup.filter _).filter _) ?_).2 fun x => ?_)).trans
    (List.length_map fun j => Cst.row file t (d ++ [j]))
  · refine (hnd.filter _).map_on fun a ha b hb h => ?_
    simp only [List.mem_filter] at ha hb
    obtain ⟨v, hv⟩ := hvalid a ha.1.1
    obtain ⟨v', hv'⟩ := hvalid b hb.1.1
    simpa using pre_inj hv hv' (congrArg NodeRow.pre h)
  · simp only [List.mem_filter, Bool.and_eq_true, beq_iff_eq, List.mem_map, decide_eq_true_eq]
    constructor
    · rintro ⟨⟨hx, -, hof⟩, ⟨hfile, hup⟩, hlt⟩
      obtain ⟨q, v, hq, rfl⟩ := (Store.mem_file hf).1 ⟨hx, hfile⟩
      obtain ⟨hne, hqd⟩ := (row_parent hq hd).1 (hup.trans (row_parent_concat d i))
      rw [← List.dropLast_concat_getLast hne, hqd] at hlt hof ⊢
      obtain ⟨hj, -, hji⟩ := (sqlLt_sib hd).1 hlt
      exact ⟨_, ⟨⟨hj, hof⟩, hji⟩, rfl⟩
    · rintro ⟨j, ⟨⟨hj, hof⟩, hji⟩, rfl⟩
      obtain ⟨v, hv⟩ := hvalid j hj
      have hlt := (sqlLt_sib (a := j) (b := i) hd).2 ⟨hj, hi, hji⟩
      exact ⟨⟨Store.row_mem hf hv, (sqlLt_some hlt).1, hof⟩, ⟨rfl, by rw [row_parent_concat, row_parent_concat]⟩, hlt⟩

/-- **`nth-child` ranks the node among its siblings as the walk does.** -/
theorem found_eq {index : Nat} (hindex : 0 < index) (of : Option Level) :
    found s.nodes index of from' = nth index of file t p := by
  rw [Bool.eq_iff_iff]
  have hkey : ∀ x ∈ s.nodes, x.file = from'.file → x.pre = from'.node → x = Cst.row file t p :=
    fun x hx hfile hnode => Store.row_of_key hf hp hx (hfile.trans hfrom) (hnode.trans hpre)
  rcases List.eq_nil_or_concat' p with rfl | ⟨d, i, rfl⟩
  · -- the root has no position
    have hnone : ∀ x ∈ s.nodes, x.file = from'.file → x.pre = from'.node → x.sib = none :=
      fun x hx hfile hnode => by rw [hkey x hx hfile hnode]; rfl
    cases of with
    | none =>
      simp only [found, nth, List.any_eq_true, Bool.and_eq_true, beq_iff_eq, List.getLast?_nil, Option.any_none,
        Bool.false_eq_true, iff_false]
      rintro ⟨x, hx, ⟨hfile, hnode⟩, hsib⟩
      rw [hnone x hx hfile hnode] at hsib
      cases hsib
    | some of =>
      simp only [found, nth, ranked, List.any_eq_true, Bool.and_eq_true, beq_iff_eq, List.getLast?_nil,
        Option.any_none, Bool.false_eq_true, iff_false, List.mem_filter]
      rintro ⟨x, ⟨hx, hsib, -⟩, ⟨hfile, hnode⟩, -⟩
      rw [hnone x hx hfile hnode] at hsib
      cases hsib
  · obtain ⟨w, hd, -⟩ := sub_concat.1 hp
    simp only [nth, List.getLast?_concat, List.dropLast_concat, Option.any_some, hd, beq_iff_eq]
    have hrow : Cst.row file t (d ++ [i]) ∈ s.nodes := Store.row_mem hf hp
    cases of with
    | none =>
      have hplace : Cst.sib t (d ++ [i]) = some ((index : Int) - 1) ↔ (w.marked (·.named))[index - 1]? = some i := by
        rw [sib_concat hd, namedIndex_eq]
        constructor
        · rintro ⟨k, hk, hi⟩
          obtain rfl : k = index - 1 := by omega
          exact hi
        · exact fun hi => ⟨index - 1, by omega, hi⟩
      simp only [found, List.any_eq_true, Bool.and_eq_true, beq_iff_eq, Option.all_none, List.filter_true,
        ← hplace]
      constructor
      · rintro ⟨x, hx, ⟨hfile, hnode⟩, hsib⟩
        rwa [hkey x hx hfile hnode] at hsib
      · exact fun hsib => ⟨_, hrow, ⟨hfrom.symm, hpre.symm⟩, hsib⟩
    | some of =>
      simp only [found, List.any_eq_true, Bool.and_eq_true, beq_iff_eq, Option.all_some,
        getElem?_sorted ((marked_pairwise (·.named) w).filter _), List.mem_filter]
      constructor
      · rintro ⟨x, hx, ⟨hfile, hnode⟩, hrank⟩
        obtain ⟨hx, hsib, hof⟩ : x ∈ s.nodes ∧ x.sib.isSome = true ∧ nodeIs of x = true := by
          simpa [ranked] using hx
        obtain rfl := hkey x hx hfile hnode
        obtain ⟨y, hy⟩ := Option.isSome_iff_exists.1 hsib
        rw [row_sib, sib_concat hd] at hy
        obtain ⟨k, -, hk⟩ := namedIndex_eq.1 hy
        have hi := List.mem_of_getElem? hk
        rw [rank_eq hf of hd hi] at hrank
        exact ⟨⟨hi, hof⟩, by omega⟩
      · rintro ⟨⟨hi, hof⟩, hcount⟩
        obtain ⟨k, hk⟩ := List.mem_iff_getElem?.1 hi
        have hsib : Cst.sib t (d ++ [i]) = some (k : Int) := (sib_concat hd i).trans (namedIndex_eq.2 ⟨k, rfl, hk⟩)
        refine ⟨Cst.row file t (d ++ [i]), ?_, ⟨hfrom.symm, hpre.symm⟩, ?_⟩
        · simp [ranked, hrow, hsib, nodeIs_row, hof]
        · rw [rank_eq hf of hd hi]
          omega

theorem rel_eq (hside : Sideways r → Cst.named t p = false → select r file t p = []) (exported : Bool) :
    rel s.nodes r exported from' = walkRel r exported file t p := by
  cases hw : r.walk with
  | nthChild index => simp only [rel, walkRel, hw, found_eq hf hp hfrom hpre (r.index_pos index hw)]
  | _ =>
    simp only [rel, walkRel, hw]
    cases r.target with
    | none => rfl
    | some target =>
      simp only [Option.elim_some, matched_eq hf r hp hfrom hpre hside, optional_eq hf r hp hfrom hpre hside]

end

/-! ## Relations are walks -/

/-- The same walk, whatever it is looking for and whatever becomes of the outer row. -/
structure Rel.SameWalk (r r' : Rel) : Prop where
  walk : r'.walk = r.walk
  neighbor : r'.neighbor = r.neighbor
  stop : r'.stop = r.stop
  field : r'.field = r.field

theorem Rel.SameWalk.select_eq {r r' : Rel} (h : r.SameWalk r') (file : Nat) (t : Cst) (p : Path) :
    select r' file t p = select r file t p := by
  simp only [select, h.walk, h.neighbor, h.stop, h.field]

/-- A level that matches once, at one node. -/
def Level.one (file node : Nat) : Level where
  roots := [⟨file, 0, node⟩]
  passes := fun _ => true
  once := List.pairwise_singleton ..

/-- A plain relation along siblings is a condition: there is a related node. -/
theorem sideways_first {r : Rel} (hw : Sideways r) {target : Level} (ht : r.target = some target)
    (hrows : r.rows = .first) (hopt : r.optional = false) (hneg : r.negated = false) (nodes : List NodeRow)
    (from' : CaptureRow) (file : Nat) (t : Cst) (p : Path) :
    rel nodes r false from' = condition (!(matched nodes r target from').isEmpty) false ∧
      walkRel r false file t p = condition (!(related r target file t p).isEmpty) false := by
  rcases hw with h | h <;> simp [rel, walkRel, h, ht, hrows, hopt, hneg]

/-- **Relations are walks, but not sideways from an anonymous node** (3_lower.rs:454-744). For every node of every
file and every walk: each relation over that walk, whatever its target, does to the outer row what the walk over
the tree says, exactly if the walk is not along siblings, or the node is named, or the walk reaches no sibling
from there. -/
theorem relations_are_walks_iff (s : Store) {file : Nat} {t : Cst} (hf : (file, t) ∈ s.files) {p : Path} {u : Cst}
    (hp : t.sub p = some u) (r : Rel) (ordinal : Nat) :
    (∀ r' : Rel, r.SameWalk r' → ∀ exported,
      rel s.nodes r' exported ⟨file, ordinal, t.pre p⟩ = walkRel r' exported file t p) ↔
    (r.walk = .precedes ∨ r.walk = .follows → Cst.named t p = false → select r file t p = []) := by
  constructor
  · intro h hw hanon
    by_contra hne
    obtain ⟨q, hq⟩ := List.exists_mem_of_ne_nil _ hne
    obtain ⟨k, hk, -⟩ := mem_select.1 hq
    obtain ⟨v, hv⟩ := visited_valid hp hk
    -- look for a level that matches at a node the walk reaches
    let r' : Rel := { r with
      rows := .first, optional := false, negated := false, target := some (.one file (t.pre q))
      hasTarget := fun _ => rfl }
    have hsame : r.SameWalk r' := ⟨rfl, rfl, rfl, rfl⟩
    have hnone := sib_of_anonymous hp hanon
    have hempty : matched s.nodes r' (.one file (t.pre q)) ⟨file, ordinal, t.pre p⟩ = [] := by
      have hstep : step s.nodes r' ⟨file, ordinal, t.pre p⟩ ⟨file, 0, t.pre q⟩ = [] :=
        step_anonymous hf r' hp rfl rfl rfl hw hnone hv rfl
      simp [matched, Level.hits, Level.one, hstep]
    have hone : related r' (.one file (t.pre q)) file t p = [⟨file, 0, t.pre q⟩] := by
      have hany : ∃ x ∈ select r' file t p, t.pre q = t.pre x := ⟨q, hsame.select_eq file t p ▸ hq, rfl⟩
      simpa [related, Level.hits, Level.one] using hany
    obtain ⟨hrel, hwalk⟩ := sideways_first (r := r') hw rfl rfl rfl rfl s.nodes ⟨file, ordinal, t.pre p⟩ file t p
    have hsplit := h r' hsame false
    rw [hrel, hwalk, hempty, hone] at hsplit
    cases hsplit
  · intro h r' hsame exported
    refine rel_eq hf r' hp rfl rfl (fun hw hanon => ?_) exported
    rw [hsame.select_eq]
    exact h (by rwa [Sideways, hsame.walk] at hw) hanon

/-- A keyword, a name and a body. -/
def item : Cst := .node ⟨true, 0⟩ [.node ⟨false, 0⟩ [], .node ⟨true, 3⟩ [], .node ⟨true, 4⟩ []]

def itemFile : Store where
  files := [(1, item)]
  once := by decide

/-- `#precedes? @capture` of a level that matches at one node. -/
def precedesOne (node : Nat) : Rel where
  walk := .precedes
  neighbor := false
  stop := none
  field := none
  rows := .first
  optional := false
  negated := false
  target := some (.one 1 node)
  index_pos := by simp
  hasTarget := fun _ => rfl

/-- `"fn" @kw (#precedes? @kw identifier)`: the name follows the keyword in the tree, the joins drop the row. -/
theorem keyword_precedes_nothing :
    ¬ ∀ (s : Store) (file : Nat) (t : Cst), (file, t) ∈ s.files → ∀ (p : Path) (u : Cst), t.sub p = some u →
      ∀ (r : Rel) (ordinal : Nat) (exported : Bool),
        rel s.nodes r exported ⟨file, ordinal, t.pre p⟩ = walkRel r exported file t p := by
  intro h
  have hcase := h itemFile 1 item (List.mem_singleton.2 rfl) [0] _ rfl (precedesOne 2) 0 false
  revert hcase
  decide

/-- From the name the body is found. -/
theorem name_precedes_body :
    rel itemFile.nodes (precedesOne 3) false ⟨1, 0, item.pre [1]⟩ = walkRel (precedesOne 3) false 1 item [1] ∧
      walkRel (precedesOne 3) false 1 item [1] = [.kept] :=
  ⟨(relations_are_walks_iff itemFile (List.mem_singleton.2 rfl) (p := [1]) rfl (precedesOne 3) 0).2 (by decide) _
    ⟨rfl, rfl, rfl, rfl⟩ false, by decide⟩

end HafleyScm.Lower
