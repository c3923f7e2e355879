import HafleyRs.Lib.BTree

/-!
# The span nest (`crates/hafley_scm/src/read/lang/7_scm_rows.rs`:724–796)

| here | there |
| --- | --- |
| `Before`, `order` | `order` of `Nest::new` (737–747): from the earliest, of one start the longest, of equal spans the last |
| `popTo`, `place`, `passOver` | the loop over the order with its stack (748–763) |
| `Nest`, `Nest.new` | `Nest` (728), `Nest::new` (736) |
| `holds`, `scan`, `climb`, `innermost` | `Nest::holds`, and `Nest::innermost` (780) with its fallback and its walk |

`partition_point` on the sorted starts is the length of the part up to `start`. `sinks` is why the walk up ends.

The stack after a part of the order is what the walk up from its last span meets (`Passed`).
-/

namespace HafleyScm.Rows

abbrev Span := Nat × Nat

def spanAt (spans : List Span) (index : Nat) : Span := spans.getD index (0, 0)

section
variable (spans : List Span)

/-- The order of `order.sort_by`. -/
def Before (a b : Nat) : Prop :=
  (spanAt spans a).1 < (spanAt spans b).1 ∨ (spanAt spans a).1 = (spanAt spans b).1 ∧
    ((spanAt spans b).2 < (spanAt spans a).2 ∨ (spanAt spans a).2 = (spanAt spans b).2 ∧ b ≤ a)

instance : DecidableRel (Before spans) := fun _ _ => inferInstanceAs (Decidable (_ ∨ _ ∧ (_ ∨ _ ∧ _)))

instance : Std.Total (Before spans) where
  total a b := by
    unfold Before
    omega

instance : IsTrans Nat (Before spans) where
  trans a b c := by
    unfold Before
    omega

theorem before_antisymm {a b : Nat} (hab : Before spans a b) (hba : Before spans b a) : a = b := by
  unfold Before at hab hba
  omega

def order : List Nat := (List.range spans.length).insertionSort (Before spans)

theorem mem_order {index : Nat} : index ∈ order spans ↔ index < spans.length := by
  rw [order, (List.perm_insertionSort _ _).mem_iff, List.mem_range]

theorem order_nodup : (order spans).Nodup := (List.perm_insertionSort _ _).nodup_iff.2 List.nodup_range

/-- One comes before the other and is not it. -/
def Ahead (a b : Nat) : Prop := Before spans a b ∧ a ≠ b

theorem order_ahead : (order spans).Pairwise (Ahead spans) :=
  (List.pairwise_insertionSort (Before spans) _).and (order_nodup spans)

/-! ## The pass -/

structure Pass where
  up     : Nat → Option Nat
  stack  : List Nat
  nested : Bool

/-- The `while let` on the stack. -/
def popTo (span : Span) : List Nat → Bool → List Nat × Bool
  | [], nested => ([], nested)
  | top :: stack, nested =>
    if span.2 ≤ (spanAt spans top).2 then (top :: stack, nested)
    else popTo span stack (if span.1 < (spanAt spans top).2 then false else nested)

def place (p : Pass) (index : Nat) : Pass :=
  let (stack, nested) := popTo spans (spanAt spans index) p.stack p.nested
  { up := Function.update p.up index stack.head?, stack := index :: stack, nested }

def passOver (indices : List Nat) : Pass :=
  indices.foldl (place spans) { up := fun _ => none, stack := [], nested := true }

/-- Of what is on the stack, each member points to the next. -/
def Linked (up : Nat → Option Nat) : List Nat → Prop
  | [] => True
  | index :: rest => up index = rest.head? ∧ Linked up rest

variable {spans}

theorem popTo_stack (span : Span) (stack : List Nat) (nested : Bool) :
    (popTo spans span stack nested).1 = stack.dropWhile fun x => (spanAt spans x).2 < span.2 := by
  induction stack generalizing nested with
  | nil => rfl
  | cons top stack ih =>
    unfold popTo
    rw [List.dropWhile_cons]
    by_cases hle : span.2 ≤ (spanAt spans top).2
    · rw [if_pos hle, if_neg (by simpa using hle)]
    · have hpops : decide ((spanAt spans top).2 < span.2) = true := decide_eq_true (not_le.1 hle)
      rw [if_neg hle, hpops]
      exact ih _

theorem popTo_nested (span : Span) (stack : List Nat) (nested : Bool) :
    (popTo spans span stack nested).2 = true ↔ nested = true ∧
      ∀ x ∈ stack.takeWhile (fun x => (spanAt spans x).2 < span.2), (spanAt spans x).2 ≤ span.1 := by
  induction stack generalizing nested with
  | nil => simp [popTo]
  | cons top stack ih =>
    unfold popTo
    rw [List.takeWhile_cons]
    by_cases hle : span.2 ≤ (spanAt spans top).2
    · rw [if_pos hle, if_neg (by simpa using hle)]
      simp
    · have hpops : decide ((spanAt spans top).2 < span.2) = true := decide_eq_true (not_le.1 hle)
      simp only [if_neg hle, hpops, if_true, ih, List.forall_mem_cons]
      by_cases hcross : span.1 < (spanAt spans top).2
      · simp [hcross]
      · simp [hcross, not_lt.1 hcross]

/-! ## What the pass has done -/

/-- The state after the indices `done`: what is on the stack, from the top, and why the rest is not. -/
structure Passed (spans : List Span) (done : List Nat) (p : Pass) : Prop where
  sub      : ∀ x ∈ p.stack, x ∈ done
  linked   : Linked p.up p.stack
  sorted   : p.stack.Pairwise fun a b => Ahead spans b a ∧ (spanAt spans a).2 ≤ (spanAt spans b).2
  covers   : ∀ x ∈ p.stack, ∀ y ∈ done, Ahead spans x y → (spanAt spans y).2 ≤ (spanAt spans x).2
  popped   : ∀ x ∈ done, x ∉ p.stack → ∃ y ∈ done, Ahead spans x y ∧ (spanAt spans x).2 < (spanAt spans y).2 ∧
    (p.nested = true → (spanAt spans x).2 ≤ (spanAt spans y).1)
  crossing : p.nested = false → ∃ x ∈ done, ∃ y ∈ done, Ahead spans x y ∧ (spanAt spans y).1 < (spanAt spans x).2 ∧
    (spanAt spans x).2 < (spanAt spans y).2
  sinks    : ∀ i q, p.up i = some q → i ∈ done ∧ done.idxOf q < done.idxOf i

theorem linked_update {up : Nat → Option Nat} {stack : List Nat} {index : Nat} {v : Option Nat}
    (h : Linked up stack) (hindex : index ∉ stack) : Linked (Function.update up index v) stack := by
  induction stack with
  | nil => trivial
  | cons x rest ih =>
    rw [List.mem_cons, not_or] at hindex
    refine ⟨?_, ih h.2 hindex.2⟩
    rw [Function.update_of_ne (Ne.symm hindex.1)]
    exact h.1

theorem linked_dropWhile {up : Nat → Option Nat} {stack : List Nat} (q : Nat → Bool) (h : Linked up stack) :
    Linked up (stack.dropWhile q) := by
  induction stack with
  | nil => trivial
  | cons x rest ih =>
    rw [List.dropWhile_cons]
    split
    · exact ih h.2
    · exact h

theorem passed_nil : Passed spans [] (passOver spans []) where
  sub      := nofun
  linked   := trivial
  sorted   := List.Pairwise.nil
  covers   := nofun
  popped   := nofun
  crossing := nofun
  sinks    := nofun

/-- On a stack whose ends grow downwards, what is popped are the spans with smaller ends. -/
theorem mem_dropWhile_sorted {stack : List Nat} {span : Span} (h : stack.Pairwise fun a b => Ahead spans b a ∧
    (spanAt spans a).2 ≤ (spanAt spans b).2) {x : Nat} :
    x ∈ stack.dropWhile (fun x => (spanAt spans x).2 < span.2) ↔ x ∈ stack ∧ span.2 ≤ (spanAt spans x).2 := by
  induction stack with
  | nil => simp
  | cons top rest ih =>
    obtain ⟨htop, hrest⟩ := List.pairwise_cons.1 h
    rw [List.dropWhile_cons]
    by_cases hlt : (spanAt spans top).2 < span.2
    · rw [decide_eq_true hlt, if_pos rfl, ih hrest, List.mem_cons]
      constructor
      · exact fun ⟨hmem, hle⟩ => ⟨Or.inr hmem, hle⟩
      · rintro ⟨rfl | hmem, hle⟩
        · omega
        · exact ⟨hmem, hle⟩
    · rw [decide_eq_false hlt, if_neg Bool.false_ne_true, List.mem_cons]
      refine ⟨fun hmem => ⟨hmem, ?_⟩, And.left⟩
      rcases hmem with rfl | hmem
      · exact not_lt.1 hlt
      · exact (not_lt.1 hlt).trans (htop x hmem).2

theorem Passed.step {done : List Nat} {p : Pass} {index : Nat} (h : Passed spans done p)
    (hahead : ∀ x ∈ done, Ahead spans x index) : Passed spans (done ++ [index]) (place spans p index) := by
  have hstack : (place spans p index).stack =
      index :: p.stack.dropWhile fun x => (spanAt spans x).2 < (spanAt spans index).2 := by
    rw [← popTo_stack]
    rfl
  have hup : (place spans p index).up = Function.update p.up index
      (p.stack.dropWhile fun x => (spanAt spans x).2 < (spanAt spans index).2).head? := by
    rw [← popTo_stack]
    rfl
  have hnested : (place spans p index).nested = true ↔ p.nested = true ∧ ∀ x ∈ p.stack.takeWhile
      (fun x => (spanAt spans x).2 < (spanAt spans index).2), (spanAt spans x).2 ≤ (spanAt spans index).1 :=
    popTo_nested _ _ _
  have hnot : index ∉ done := fun hmem => (hahead index hmem).2 rfl
  have hdrop : ∀ x, x ∈ p.stack.dropWhile (fun x => (spanAt spans x).2 < (spanAt spans index).2) ↔
      x ∈ p.stack ∧ (spanAt spans index).2 ≤ (spanAt spans x).2 := fun x => mem_dropWhile_sorted h.sorted
  have hmem : ∀ x, x ∈ (place spans p index).stack ↔ x = index ∨ x ∈ p.stack ∧
      (spanAt spans index).2 ≤ (spanAt spans x).2 := by
    intro x
    rw [hstack, List.mem_cons, hdrop]
  have htake : ∀ x, x ∈ p.stack.takeWhile (fun x => (spanAt spans x).2 < (spanAt spans index).2) ↔
      x ∈ p.stack ∧ (spanAt spans x).2 < (spanAt spans index).2 := by
    intro x
    constructor
    · exact fun hx => ⟨(List.takeWhile_sublist _).mem hx, by simpa using List.mem_takeWhile_imp hx⟩
    · intro ⟨hx, hlt⟩
      rw [← List.takeWhile_append_dropWhile (p := fun x => (spanAt spans x).2 < (spanAt spans index).2) (l := p.stack),
        List.mem_append] at hx
      exact hx.resolve_right fun hx => absurd ((hdrop x).1 hx).2 (not_le.2 hlt)
  constructor
  case sub =>
    intro x hx
    rcases (hmem x).1 hx with rfl | ⟨hx, -⟩
    · simp
    · exact List.mem_append_left _ (h.sub x hx)
  case linked =>
    rw [hstack, hup]
    refine ⟨Function.update_self .., linked_update (linked_dropWhile _ h.linked) fun hx => ?_⟩
    exact hnot (h.sub index ((hdrop index).1 hx).1)
  case sorted =>
    rw [hstack, List.pairwise_cons]
    refine ⟨fun b hb => ?_, h.sorted.sublist (List.dropWhile_sublist _)⟩
    obtain ⟨hb, hle⟩ := (hdrop b).1 hb
    exact ⟨hahead b (h.sub b hb), hle⟩
  case covers =>
    intro x hx y hy hxy
    rcases List.mem_append.1 hy with hdone | hlast
    · rcases (hmem x).1 hx with rfl | ⟨hx, -⟩
      · exact absurd (before_antisymm _ hxy.1 (hahead y hdone).1) hxy.2
      · exact h.covers x hx y hdone hxy
    · rw [List.mem_singleton] at hlast
      subst hlast
      exact (((hmem x).1 hx).resolve_left hxy.2).2
  case popped =>
    intro x hx hgone
    rw [hmem, not_or, not_and] at hgone
    have hxdone := (List.mem_append.1 hx).resolve_right fun hx => hgone.1 (List.mem_singleton.1 hx)
    by_cases hxs : x ∈ p.stack
    · have hlt := not_le.1 (hgone.2 hxs)
      exact ⟨index, by simp, hahead x hxdone, hlt, fun hn => (hnested.1 hn).2 x ((htake x).2 ⟨hxs, hlt⟩)⟩
    · obtain ⟨y, hy, hxy, hlt, hle⟩ := h.popped x hxdone hxs
      exact ⟨y, List.mem_append_left _ hy, hxy, hlt, fun hn => hle (hnested.1 hn).1⟩
  case crossing =>
    intro hfalse
    by_cases hold : p.nested = true
    · have hsome : ∃ x ∈ p.stack.takeWhile (fun x => (spanAt spans x).2 < (spanAt spans index).2),
          (spanAt spans index).1 < (spanAt spans x).2 := by
        by_contra hnone
        push Not at hnone
        rw [hnested.2 ⟨hold, hnone⟩] at hfalse
        cases hfalse
      obtain ⟨x, hx, hlo⟩ := hsome
      obtain ⟨hx, hlt⟩ := (htake x).1 hx
      exact ⟨x, List.mem_append_left _ (h.sub x hx), index, by simp, hahead x (h.sub x hx), hlo, hlt⟩
    · obtain ⟨x, hx, y, hy, hcross⟩ := h.crossing (Bool.not_eq_true _ ▸ hold)
      exact ⟨x, List.mem_append_left _ hx, y, List.mem_append_left _ hy, hcross⟩
  case sinks =>
    intro i q hq
    rw [hup] at hq
    by_cases hi : i = index
    · subst hi
      rw [Function.update_self] at hq
      have hqdone : q ∈ done := h.sub q ((hdrop q).1 (List.mem_of_mem_head? hq)).1
      rw [List.idxOf_append_of_mem hqdone, List.idxOf_append_of_notMem hnot]
      have hlt := List.idxOf_lt_length_of_mem hqdone
      exact ⟨by simp, by omega⟩
    · rw [Function.update_of_ne hi] at hq
      obtain ⟨hidone, hlt⟩ := h.sinks i q hq
      have hqdone : q ∈ done := List.idxOf_lt_length_iff.1 (hlt.trans (List.idxOf_lt_length_of_mem hidone))
      rw [List.idxOf_append_of_mem hqdone, List.idxOf_append_of_mem hidone]
      exact ⟨List.mem_append_left _ hidone, hlt⟩

/-- After a part of the order the pass has done as much, and after all of it the links made so far are still there. -/
theorem passed_of_order {done rest : List Nat} (h : (done ++ rest).Pairwise (Ahead spans)) :
    Passed spans done (passOver spans done) := by
  induction done using List.reverseRecOn generalizing rest with
  | nil => exact passed_nil
  | append_singleton done index ih =>
    have hpass : passOver spans (done ++ [index]) = place spans (passOver spans done) index := by
      simp only [passOver, List.foldl_append, List.foldl_cons, List.foldl_nil]
    rw [hpass]
    rw [List.append_assoc] at h
    refine (ih h).step fun x hx => ?_
    exact (List.pairwise_append.1 h).2.2 x hx index (by simp)

theorem passed_order : Passed spans (order spans) (passOver spans (order spans)) := by
  have hahead : (order spans ++ []).Pairwise (Ahead spans) := by
    rw [List.append_nil]
    exact order_ahead spans
  exact passed_of_order hahead

theorem linked_passOver {done rest stack : List Nat} (h : Linked (passOver spans done).up stack)
    (hrest : ∀ x ∈ stack, x ∉ rest) : Linked (passOver spans (done ++ rest)).up stack := by
  induction rest generalizing done with
  | nil => rwa [List.append_nil]
  | cons index rest ih =>
    rw [List.append_cons]
    refine ih ?_ fun x hx hmem => hrest x hx (List.mem_cons_of_mem _ hmem)
    have hpass : passOver spans (done ++ [index]) = place spans (passOver spans done) index := by
      simp only [passOver, List.foldl_append, List.foldl_cons, List.foldl_nil]
    rw [hpass]
    exact linked_update h fun hmem => hrest index hmem (List.mem_cons_self ..)

end

/-! ## The nest -/

structure Nest where
  spans  : List Span
  order  : List Nat
  starts : List Nat
  up     : Nat → Option Nat
  nested : Bool
  /-- Up is towards the front of the order. -/
  sinks  : ∀ i q, up i = some q → order.idxOf q < order.idxOf i

/-- `Iterator::min_by_key`: the first of the least. -/
def minByKey (key : Nat → Nat) : List Nat → Option Nat
  | [] => none
  | a :: rest =>
    match minByKey key rest with
    | some b => if key b < key a then some b else some a
    | none   => some a

namespace Nest

def new (spans : List Span) : Nest where
  spans  := spans
  order  := Rows.order spans
  starts := (Rows.order spans).map fun index => (spanAt spans index).1
  up     := (passOver spans (Rows.order spans)).up
  nested := (passOver spans (Rows.order spans)).nested
  sinks i q hq := (passed_order.sinks i q hq).2

variable (nest : Nest)

def holds (index start stop : Nat) : Bool :=
  decide ((spanAt nest.spans index).1 ≤ start ∧ stop ≤ (spanAt nest.spans index).2)

/-- The spans a question is about. -/
def hit (start stop : Nat) (skip : Option Nat) (index : Nat) : Bool :=
  decide (skip ≠ some index) && nest.holds index start stop

def scan (start stop : Nat) (skip : Option Nat) : Option Nat :=
  minByKey (fun index => (spanAt nest.spans index).2 - (spanAt nest.spans index).1)
    ((List.range nest.spans.length).filter (nest.hit start stop skip))

/-- The walk up from a span. -/
def climb (hit : Nat → Bool) (index : Nat) : Option Nat :=
  if hit index then some index
  else match _h : nest.up index with
    | some parent => climb hit parent
    | none        => none
termination_by nest.order.idxOf index
decreasing_by exact nest.sinks _ _ _h

def innermost (start stop : Nat) (skip : Option Nat) : Option Nat :=
  if !nest.nested then nest.scan start stop skip
  else
    let last := (nest.starts.takeWhile fun start' => start' ≤ start).length
    match last with
    | 0            => none
    | position + 1 =>
      (nest.order[position]?).bind (nest.climb (nest.hit start stop skip))

end Nest

end HafleyScm.Rows
