import HafleyRs.HafleyScm.Nest

/-!
# What the nest answers (`crates/hafley_scm/src/read/lang/7_scm_rows.rs`:780–795)

`Smallest` is the answer of a scan over all spans. The walk up finds the smallest of the spans that are still on the
stack behind the last one to start (`innermost_eq_find?`). What has been popped by then ends before the range, or at it,
where the range is empty and a span that goes on starts there: the scan may take what ends, the walk does not.
-/

namespace HafleyScm.Rows
open Nest

/-! ## The scan -/

def Holds (spans : List Span) (start stop : Nat) (skip : Option Nat) (index : Nat) : Prop :=
  index < spans.length ∧ skip ≠ some index ∧ (spanAt spans index).1 ≤ start ∧ stop ≤ (spanAt spans index).2

instance (spans : List Span) (start stop : Nat) (skip : Option Nat) (index : Nat) :
    Decidable (Holds spans start stop skip index) := inferInstanceAs (Decidable (_ ∧ _ ∧ _ ∧ _))

def size (spans : List Span) (index : Nat) : Nat := (spanAt spans index).2 - (spanAt spans index).1

/-- Of less size, or of the same and a lower index. -/
def Smaller (spans : List Span) (a b : Nat) : Prop :=
  size spans a < size spans b ∨ size spans a = size spans b ∧ a ≤ b

instance (spans : List Span) (a b : Nat) : Decidable (Smaller spans a b) := inferInstanceAs (Decidable (_ ∨ _ ∧ _))

def Smallest (spans : List Span) (start stop : Nat) (skip : Option Nat) (index : Nat) : Prop :=
  Holds spans start stop skip index ∧ ∀ other, Holds spans start stop skip other → Smaller spans index other

theorem minByKey_eq_none {key : Nat → Nat} {l : List Nat} : minByKey key l = none ↔ l = [] := by
  cases l with
  | nil => simp [minByKey]
  | cons x rest =>
    unfold minByKey
    cases minByKey key rest with
    | none => simp
    | some b => by_cases hlt : key b < key x <;> simp [hlt]

theorem minByKey_least {key : Nat → Nat} {l : List Nat} (h : l.Pairwise (· < ·)) {a : Nat}
    (ha : minByKey key l = some a) : a ∈ l ∧ ∀ b ∈ l, key a < key b ∨ key a = key b ∧ a ≤ b := by
  induction l generalizing a with
  | nil => cases ha
  | cons x rest ih =>
    obtain ⟨hx, hrest⟩ := List.pairwise_cons.1 h
    unfold minByKey at ha
    cases hmin : minByKey key rest with
    | none =>
      rw [hmin] at ha
      obtain rfl := Option.some.inj ha
      obtain rfl := minByKey_eq_none.1 hmin
      simp
    | some b =>
      simp only [hmin] at ha
      obtain ⟨hb, hleast⟩ := ih hrest hmin
      split_ifs at ha with hlt
      · obtain rfl := Option.some.inj ha
        refine ⟨List.mem_cons_of_mem _ hb, fun c hc => ?_⟩
        rcases List.mem_cons.1 hc with rfl | hc
        · exact Or.inl hlt
        · exact hleast c hc
      · obtain rfl := Option.some.inj ha
        refine ⟨List.mem_cons_self .., fun c hc => ?_⟩
        rcases List.mem_cons.1 hc with rfl | hc
        · exact Or.inr ⟨rfl, le_rfl⟩
        · have hxc := hx c hc
          have hbc := hleast c hc
          omega

section
variable {spans : List Span} {start stop : Nat} {skip : Option Nat} {index : Nat}

theorem Smallest.unique {i j : Nat} (hi : Smallest spans start stop skip i) (hj : Smallest spans start stop skip j) :
    i = j := by
  have hij := hi.2 j hj.1
  have hji := hj.2 i hi.1
  unfold Smaller at hij hji
  omega

theorem hit_new : index < spans.length ∧ (Nest.new spans).hit start stop skip index = true ↔
    Holds spans start stop skip index := by
  unfold hit Nest.holds Holds
  rw [Bool.and_eq_true, decide_eq_true_eq, decide_eq_true_eq]
  rfl

theorem exists_smallest (h : Holds spans start stop skip index) : ∃ i, Smallest spans start stop skip i ∧
    (Nest.new spans).scan start stop skip = some i := by
  have hmem : ∀ j, j ∈ (List.range spans.length).filter ((Nest.new spans).hit start stop skip) ↔
      Holds spans start stop skip j := by
    intro j
    rw [List.mem_filter, List.mem_range, hit_new]
  have hsorted : ((List.range spans.length).filter ((Nest.new spans).hit start stop skip)).Pairwise (· < ·) :=
    List.pairwise_lt_range.filter _
  cases hscan : (Nest.new spans).scan start stop skip with
  | none =>
    have hnil := minByKey_eq_none.1 hscan
    have hin := (hmem index).2 h
    rw [show (Nest.new spans).spans = spans from rfl] at hnil
    rw [hnil] at hin
    cases hin
  | some i =>
    obtain ⟨hi, hleast⟩ := minByKey_least hsorted hscan
    exact ⟨i, ⟨(hmem i).1 hi, fun j hj => hleast j ((hmem j).2 hj)⟩, rfl⟩

/-- The scan answers the smallest span. -/
theorem scan_eq_some {i : Nat} :
    (Nest.new spans).scan start stop skip = some i ↔ Smallest spans start stop skip i := by
  constructor
  · intro hscan
    have hsorted : ((List.range spans.length).filter ((Nest.new spans).hit start stop skip)).Pairwise (· < ·) :=
      List.pairwise_lt_range.filter _
    have hi := (minByKey_least hsorted hscan).1
    rw [List.mem_filter, List.mem_range, hit_new] at hi
    obtain ⟨j, hj, hscan'⟩ := exists_smallest hi
    rw [hscan, Option.some.injEq] at hscan'
    rwa [hscan']
  · intro hi
    obtain ⟨j, hj, hscan⟩ := exists_smallest hi.1
    rw [hscan, hj.unique hi]

/-! ## The walk -/

theorem climb_linked {nest : Nest} {hit : Nat → Bool} {stack : List Nat} (h : Linked nest.up (index :: stack)) :
    nest.climb hit index = (index :: stack).find? hit := by
  induction stack generalizing index with
  | nil =>
    unfold climb
    rw [List.find?_cons]
    cases hit index with
    | true => rfl
    | false =>
      have hup : nest.up index = none := h.1
      simp only [Bool.false_eq_true, if_false]
      split
      · next heq => rw [hup] at heq; cases heq
      · rfl
  | cons parent stack ih =>
    unfold climb
    rw [List.find?_cons]
    cases hit index with
    | true => rfl
    | false =>
      have hup : nest.up index = some parent := h.1
      simp only [Bool.false_eq_true, if_false]
      split
      · next heq =>
        rw [hup] at heq
        obtain rfl := Option.some.inj heq
        exact ih h.2
      · next heq => rw [hup] at heq; cases heq

theorem stack_passOver (done : List Nat) : (passOver spans done).stack.head? = done.getLast? := by
  induction done using List.reverseRecOn with
  | nil => rfl
  | append_singleton done index _ =>
    simp only [passOver, List.foldl_append, List.foldl_cons, List.foldl_nil, place, List.head?_cons,
      List.getLast?_append, List.getLast?_singleton, Option.some_or]

/-- The part of the order that starts by `start`. -/
def begun (spans : List Span) (start : Nat) : List Nat := (order spans).takeWhile fun i => (spanAt spans i).1 ≤ start

theorem order_split (spans : List Span) (start : Nat) :
    ∃ rest, order spans = begun spans start ++ rest ∧ ∀ i ∈ rest, ∀ j ∈ begun spans start, i ≠ j := by
  refine ⟨_, (List.takeWhile_append_dropWhile).symm, fun i hi j hj heq => ?_⟩
  have hnodup := order_nodup spans
  rw [← List.takeWhile_append_dropWhile (p := fun i => (spanAt spans i).1 ≤ start) (l := order spans),
    List.nodup_append] at hnodup
  exact hnodup.2.2 j hj i hi heq.symm

theorem passed_begun (spans : List Span) (start : Nat) :
    Passed spans (begun spans start) (passOver spans (begun spans start)) := by
  obtain ⟨rest, hsplit, -⟩ := order_split spans start
  exact passed_of_order (hsplit ▸ order_ahead spans)

theorem innermost_eq_find? (hnested : (Nest.new spans).nested = true) :
    (Nest.new spans).innermost start stop skip =
      (passOver spans (begun spans start)).stack.find? ((Nest.new spans).hit start stop skip) := by
  obtain ⟨rest, hsplit, hapart⟩ := order_split spans start
  have hlast : ((Nest.new spans).starts.takeWhile fun start' => start' ≤ start).length =
      (begun spans start).length := by
    simp only [Nest.new, List.takeWhile_map, List.length_map, begun]
    rfl
  have hlinked : Linked (Nest.new spans).up (passOver spans (begun spans start)).stack := by
    have hpass := passed_begun spans start
    have hfinal : Linked (passOver spans (begun spans start ++ rest)).up (passOver spans (begun spans start)).stack :=
      linked_passOver hpass.linked fun x hx hmem => hapart x hmem x (hpass.sub x hx) rfl
    rw [← hsplit] at hfinal
    exact hfinal
  simp only [innermost, hnested, Bool.not_true, Bool.false_eq_true, if_false, hlast]
  rcases List.eq_nil_or_concat (begun spans start) with hnil | ⟨front, last, hfront⟩
  · rw [hnil]
    rfl
  · have hhead : (passOver spans (begun spans start)).stack.head? = some last := by
      rw [stack_passOver, hfront]
      simp
    have hat : (Nest.new spans).order[front.length]? = some last := by
      have horder : (Nest.new spans).order = begun spans start ++ rest := hsplit
      rw [horder, hfront]
      simp
    obtain ⟨tail, htail⟩ : ∃ tail, (passOver spans (begun spans start)).stack = last :: tail := by
      cases hstack : (passOver spans (begun spans start)).stack with
      | nil =>
        rw [hstack] at hhead
        cases hhead
      | cons top tail =>
        rw [hstack] at hhead
        exact ⟨tail, by rw [Option.some.inj hhead]⟩
    have hlength : (begun spans start).length = front.length + 1 := by rw [hfront]; simp
    rw [htail] at hlinked ⊢
    simp only [hlength, hat, Option.bind_some]
    exact climb_linked hlinked

/-! ## What is still on the stack -/

/-- A range without extent at the end of one span where another starts that goes on. -/
def EndsHere (spans : List Span) (start stop index : Nat) : Prop :=
  start = stop ∧ (spanAt spans index).1 < start ∧ (spanAt spans index).2 = start ∧
    ∃ other < spans.length, (spanAt spans other).1 = start ∧ start < (spanAt spans other).2

theorem mem_takeWhile_sorted {l : List Nat} {q : Nat → Bool} (h : l.Pairwise fun a b => q b = true → q a = true)
    {x : Nat} : x ∈ l.takeWhile q ↔ x ∈ l ∧ q x = true := by
  induction l with
  | nil => simp
  | cons a l ih =>
    obtain ⟨ha, hl⟩ := List.pairwise_cons.1 h
    rw [List.takeWhile_cons]
    cases hqa : q a with
    | true =>
      rw [if_pos rfl, List.mem_cons, ih hl, List.mem_cons, or_and_right]
      exact or_congr_left ⟨fun hx => ⟨hx, hx ▸ hqa⟩, And.left⟩
    | false =>
      rw [if_neg Bool.false_ne_true]
      refine iff_of_false List.not_mem_nil ?_
      rintro ⟨hx, hqx⟩
      rcases List.mem_cons.1 hx with rfl | hx
      · rw [hqa] at hqx
        cases hqx
      · rw [ha x hx hqx] at hqa
        cases hqa

theorem mem_begun {i : Nat} : i ∈ begun spans start ↔ i < spans.length ∧ (spanAt spans i).1 ≤ start := by
  have hsorted : (order spans).Pairwise fun a b => decide ((spanAt spans b).1 ≤ start) = true →
      decide ((spanAt spans a).1 ≤ start) = true := by
    refine (order_ahead spans).imp fun {a b} hab hb => ?_
    rw [decide_eq_true_eq] at hb ⊢
    have hbefore := hab.1
    unfold Before at hbefore
    omega
  rw [begun, mem_takeWhile_sorted hsorted, mem_order, decide_eq_true_eq]

theorem nested_passOver {done rest : List Nat} (h : (passOver spans (done ++ rest)).nested = true) :
    (passOver spans done).nested = true := by
  induction rest using List.reverseRecOn with
  | nil => rwa [List.append_nil] at h
  | append_singleton rest index ih =>
    refine ih ?_
    rw [← List.append_assoc, passOver, List.foldl_append] at h
    exact ((popTo_nested _ _ _).1 h).1

theorem nested_begun (hnested : (Nest.new spans).nested = true) (start : Nat) :
    (passOver spans (begun spans start)).nested = true := by
  obtain ⟨rest, hsplit, -⟩ := order_split spans start
  refine nested_passOver (?_ : (passOver spans (begun spans start ++ rest)).nested = true)
  rw [← hsplit]
  exact hnested

/-- In a nested set the stack has all spans that hold the range, but for those that end at it. -/
theorem mem_stack (hnested : (Nest.new spans).nested = true) (hle : start ≤ stop)
    (h : Holds spans start stop skip index) :
    index ∈ (passOver spans (begun spans start)).stack ↔ ¬ EndsHere spans start stop index := by
  have hpass := passed_begun spans start
  obtain ⟨hlength, -, hlo, hhi⟩ := h
  constructor
  · rintro hmem ⟨rfl, hbefore, hend, other, hother, hstarts, hgoes⟩
    have hahead : Ahead spans index other := ⟨Or.inl (by omega), by rintro rfl; omega⟩
    have hcovered := hpass.covers index hmem other (mem_begun.2 ⟨hother, by omega⟩) hahead
    omega
  · intro hstays
    by_contra hgone
    obtain ⟨y, hy, hahead, hlt, hapart⟩ := hpass.popped index (mem_begun.2 ⟨hlength, hlo⟩) hgone
    have hybegun := mem_begun.1 hy
    have hsep := hapart (nested_begun hnested start)
    have hbefore := hahead.1
    unfold Before at hbefore
    exact hstays ⟨by omega, by omega, by omega, y, hybegun.1, by omega, by omega⟩

/-! ## The answer -/

/-- Two spans overlap and neither holds the other. -/
def Crosses (spans : List Span) : Prop :=
  ∃ i < spans.length, ∃ j < spans.length, (spanAt spans i).1 < (spanAt spans j).1 ∧
    (spanAt spans j).1 < (spanAt spans i).2 ∧ (spanAt spans i).2 < (spanAt spans j).2

theorem nested_eq_false_iff : (Nest.new spans).nested = false ↔ Crosses spans := by
  have hpass : Passed spans (order spans) (passOver spans (order spans)) := passed_order
  constructor
  · intro hfalse
    obtain ⟨x, hx, y, hy, hahead, hlo, hhi⟩ := hpass.crossing hfalse
    have hbefore := hahead.1
    unfold Before at hbefore
    exact ⟨x, (mem_order spans).1 hx, y, (mem_order spans).1 hy, by omega, hlo, hhi⟩
  · rintro ⟨x, hx, y, hy, hlt, hlo, hhi⟩
    by_contra htrue
    rw [Bool.not_eq_false] at htrue
    have hbegun := passed_begun spans (spanAt spans y).1
    have hxb : x ∈ begun spans (spanAt spans y).1 := mem_begun.2 ⟨hx, hlt.le⟩
    have hyb : y ∈ begun spans (spanAt spans y).1 := mem_begun.2 ⟨hy, le_rfl⟩
    by_cases hstack : x ∈ (passOver spans (begun spans (spanAt spans y).1)).stack
    · have hcovered := hbegun.covers x hstack y hyb ⟨Or.inl hlt, by rintro rfl; omega⟩
      omega
    · obtain ⟨z, hz, -, -, hapart⟩ := hbegun.popped x hxb hstack
      have hsep := hapart (nested_begun htrue _)
      have hzb := (mem_begun.1 hz).2
      omega

/-- A span that ends at an empty range is not the smallest that holds it. -/
def Settled (spans : List Span) (start stop : Nat) (skip : Option Nat) : Prop :=
  ∀ i, Holds spans start stop skip i → EndsHere spans start stop i →
    ∃ j, Holds spans start stop skip j ∧ ¬ EndsHere spans start stop j ∧ Smaller spans j i

def WellFormed (spans : List Span) : Prop := ∀ span ∈ spans, span.1 ≤ span.2

theorem wellFormed_at (h : WellFormed spans) (i : Nat) : (spanAt spans i).1 ≤ (spanAt spans i).2 := by
  unfold spanAt
  rw [List.getD_eq_getElem?_getD]
  cases hi : spans[i]? with
  | none => exact le_rfl
  | some span => exact h span (List.mem_of_getElem? hi)

theorem smaller_refl (i : Nat) : Smaller spans i i := Or.inr ⟨rfl, le_rfl⟩

theorem smaller_antisymm {i j : Nat} (hij : Smaller spans i j) (hji : Smaller spans j i) : i = j := by
  unfold Smaller at hij hji
  omega

theorem find?_smallest {l : List Nat} {q : Nat → Bool} (h : l.Pairwise (Smaller spans)) {i : Nat} :
    l.find? q = some i ↔ (i ∈ l ∧ q i = true) ∧ ∀ j, j ∈ l ∧ q j = true → Smaller spans i j := by
  have hfinds : ∀ {i}, l.find? q = some i → ∀ j, j ∈ l ∧ q j = true → Smaller spans i j := by
    rintro i hfound j ⟨hj, hqj⟩
    obtain ⟨-, before, after, rfl, hbefore⟩ := List.find?_eq_some_iff_append.1 hfound
    rcases List.mem_append.1 hj with hj | hj
    · have hnot := hbefore j hj
      rw [hqj] at hnot
      cases hnot
    · rcases List.mem_cons.1 hj with rfl | hj
      · exact smaller_refl j
      · exact (List.pairwise_cons.1 (List.pairwise_append.1 h).2.1).1 j hj
  constructor
  · intro hfound
    exact ⟨⟨List.mem_of_find?_eq_some hfound, List.find?_some hfound⟩, hfinds hfound⟩
  · rintro ⟨⟨hi, hqi⟩, hleast⟩
    have hsome : (l.find? q).isSome := List.find?_isSome.2 ⟨i, hi, hqi⟩
    obtain ⟨k, hk⟩ := Option.isSome_iff_exists.1 hsome
    rw [hk, smaller_antisymm (hfinds hk i ⟨hi, hqi⟩)
      (hleast k ⟨List.mem_of_find?_eq_some hk, List.find?_some hk⟩)]

/-- The walk answers the smallest of the spans that hold the range and do not end at it. -/
theorem innermost_nested (hwf : WellFormed spans) (hnested : (Nest.new spans).nested = true) (hle : start ≤ stop)
    {i : Nat} : (Nest.new spans).innermost start stop skip = some i ↔
      (Holds spans start stop skip i ∧ ¬ EndsHere spans start stop i) ∧
        ∀ j, Holds spans start stop skip j → ¬ EndsHere spans start stop j → Smaller spans i j := by
  have hpass := passed_begun spans start
  have hmem : ∀ j, j ∈ (passOver spans (begun spans start)).stack ∧ (Nest.new spans).hit start stop skip j = true ↔
      Holds spans start stop skip j ∧ ¬ EndsHere spans start stop j := by
    intro j
    constructor
    · rintro ⟨hj, hhit⟩
      have hholds := hit_new.1 ⟨(mem_begun.1 (hpass.sub j hj)).1, hhit⟩
      exact ⟨hholds, (mem_stack hnested hle hholds).1 hj⟩
    · rintro ⟨hholds, hends⟩
      exact ⟨(mem_stack hnested hle hholds).2 hends, (hit_new.2 hholds).2⟩
  have hsmaller : (passOver spans (begun spans start)).stack.Pairwise (Smaller spans) := by
    refine hpass.sorted.imp fun {a b} hab => ?_
    have hbefore := hab.1.1
    have ha := wellFormed_at hwf a
    have hb := wellFormed_at hwf b
    unfold Before at hbefore
    unfold Smaller size
    omega
  rw [innermost_eq_find? hnested, find?_smallest hsmaller]
  simp only [hmem, and_imp]

theorem innermost_holds (hwf : WellFormed spans) (hle : start ≤ stop) {i : Nat}
    (h : (Nest.new spans).innermost start stop skip = some i) : Holds spans start stop skip i := by
  cases hnested : (Nest.new spans).nested with
  | true => exact ((innermost_nested hwf hnested hle).1 h).1.1
  | false =>
    rw [innermost, hnested] at h
    exact (scan_eq_some.1 h).1

/-- What the nest should answer. -/
def Answers (spans : List Span) (start stop : Nat) (skip : Option Nat) : Prop :=
  ∀ i, (Nest.new spans).innermost start stop skip = some i ↔ Smallest spans start stop skip i

theorem answers_iff (hwf : WellFormed spans) (hle : start ≤ stop) :
    Answers spans start stop skip ↔ Crosses spans ∨ Settled spans start stop skip := by
  by_cases hcrosses : Crosses spans
  · refine iff_of_true (fun i => ?_) (Or.inl hcrosses)
    rw [innermost, nested_eq_false_iff.2 hcrosses]
    exact scan_eq_some
  have hnested : (Nest.new spans).nested = true := Bool.not_eq_false _ ▸ fun h => hcrosses (nested_eq_false_iff.1 h)
  rw [or_iff_right hcrosses]
  constructor
  · intro hanswers i hi hends
    obtain ⟨least, hleast, -⟩ := exists_smallest hi
    have hanswer := (innermost_nested hwf hnested hle).1 ((hanswers least).2 hleast)
    exact ⟨least, hleast.1, hanswer.1.2, hleast.2 i hi⟩
  · intro hsettled i
    rw [innermost_nested hwf hnested hle]
    have hbeaten : ∀ {i}, (∀ j, Holds spans start stop skip j → ¬ EndsHere spans start stop j → Smaller spans i j) →
        ∀ j, Holds spans start stop skip j → Smaller spans i j := by
      intro i hleast j hj
      by_cases hends : EndsHere spans start stop j
      · obtain ⟨k, hk, hstays, hkj⟩ := hsettled j hj hends
        have hik := hleast k hk hstays
        unfold Smaller at hik hkj ⊢
        omega
      · exact hleast j hj hends
    constructor
    · rintro ⟨⟨hi, -⟩, hleast⟩
      exact ⟨hi, hbeaten hleast⟩
    · rintro ⟨hi, hleast⟩
      refine ⟨⟨hi, fun hends => ?_⟩, fun j hj _ => hleast j hj⟩
      obtain ⟨k, hk, hstays, hki⟩ := hsettled i hi hends
      rw [smaller_antisymm (hleast k hk) hki] at hends
      exact hstays hends

end

end HafleyScm.Rows
