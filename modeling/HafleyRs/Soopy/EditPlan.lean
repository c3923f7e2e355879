import HafleyRs.Lib.Splice
import HafleyRs.Soopy.Types

/-!
# Normalising and applying edits (`crates/soopy/src/_7d_mutation_plan.rs`)

| here | there |
| --- | --- |
| `mergeEdits` | the `merged` map of `normalize_edits` (_7d_mutation_plan.rs:782) and its list |
| `checkBounds`, `checkOverlaps`, `checkInsertions` | its three range checks (790, 819, 830) |
| `insertionGroups`, `claim`, `collectOrders` | the `orders` map (847, 861) |
| `sortKey`, `normalizeEdits` | the final sort (896) and the whole function (776) |
| `applyEdits` | 910; `none` is the panic of `Vec::splice` on a range past the end |

The rewrite the edits ask for is `simultaneous`. `normalize_edits` fills `orders` for insertions
only but looks it up for every edit, so at an offset with several ordered insertions a replacement
is sorted by whether its bytes happen to be those of an insertion: before all of them if not, after
the equal one if so. The insertions that sort after it (`overtaken`) are then spliced in first, and
the replacement cuts their bytes instead of the ones it names. `applyEdits_eq_simultaneous_iff` is
the exact extent of that.
-/

namespace Soopy
open Splice

/-! ## `normalize_edits` -/

abbrev EditKey := Nat ×ₗ Nat ×ₗ Bytes

def TextEdit.key (e : TextEdit) : EditKey :=
  toLex (e.range.start, toLex (e.range.stop, e.replacement))

def NormalizedEdit.key (e : NormalizedEdit) : EditKey := toLex (e.start, toLex (e.stop, e.replacement))

/-- `merged.entry(key).or_default().insert(producer)` -/
def mergeEdit (merged : BTreeMap EditKey (BTreeSet ActionProducer)) (e : TextEdit) :
    BTreeMap EditKey (BTreeSet ActionProducer) :=
  merged.alter e.key fun producers => some ((producers.getD ∅).insert e.producer)

def mergeEdits (edits : List TextEdit) : List NormalizedEdit :=
  (edits.foldl mergeEdit ∅).toList.map fun entry =>
    let key := ofLex entry.1
    ⟨key.1, (ofLex key.2).1, (ofLex key.2).2, entry.2.toList⟩

def NormalizedEdit.IsInsertion (e : NormalizedEdit) : Prop := e.start = e.stop

instance (e : NormalizedEdit) : Decidable e.IsInsertion :=
  inferInstanceAs (Decidable (e.start = e.stop))

def refuse (conflict : MutationConflict) : StageRefusal := .conflict [conflict]

def checkBounds (source : ActionSource) (inputLen : Nat) (edits : List NormalizedEdit) :
    Except StageRefusal Unit :=
  match edits.find? fun e => e.start > inputLen ∨ e.stop > inputLen with
  | some e => .error (refuse (.editOutOfBounds source e.start e.stop inputLen))
  | none => .ok ()

/-- The `windows(2)` loop over the non-empty edits. -/
def checkOverlaps (source : ActionSource) : List NormalizedEdit → Except StageRefusal Unit
  | left :: right :: rest =>
    if left.stop > right.start then .error (refuse (.overlappingEdits source left right))
    else checkOverlaps source (right :: rest)
  | _ => .ok ()

def checkInsertions (source : ActionSource) (nonempty : List NormalizedEdit) :
    List NormalizedEdit → Except StageRefusal Unit
  | [] => .ok ()
  | insertion :: rest =>
    match nonempty.find? fun e => e.start < insertion.start ∧ insertion.start < e.stop with
    | some e => .error (refuse (.overlappingEdits source e insertion))
    | none => checkInsertions source nonempty rest

def insertionGroups (insertions : List NormalizedEdit) : BTreeMap Nat (List NormalizedEdit) :=
  insertions.foldl (fun groups e => groups.alter e.start fun g => some (g.getD [] ++ [e])) ∅

/-- The one order all producers of an edit claim, if they claim one and agree. -/
def claimedOrder (e : NormalizedEdit) : Option Nat :=
  let distinct : BTreeSet (WithBot Nat) :=
    e.producers.foldl (fun s p => s.insert (optKey p.sameOffsetOrder)) ∅
  match distinct.toList with
  | [some order] => some order
  | _ => none

instance transCmp_insertion : Std.TransCmp (@compare (Nat ×ₗ Bytes) LinearOrder.toOrd) := transCmp_compare

structure Claims where
  orders    : BTreeMap (Nat ×ₗ Bytes) Nat
  claimed   : BTreeSet Nat
  missing   : Bool
  collision : Bool

/-- One turn of the loop over a group of insertions at `offset`. -/
def claim (offset : Nat) (c : Claims) (e : NormalizedEdit) : Claims :=
  match claimedOrder e with
  | none => { c with missing := true }
  | some order =>
    { c with
      orders := c.orders.insert (toLex (offset, e.replacement)) order
      claimed := c.claimed.insert order
      collision := c.collision || c.claimed.contains order }

def groupOrders (source : ActionSource) (orders : BTreeMap (Nat ×ₗ Bytes) Nat) (offset : Nat)
    (group : List NormalizedEdit) : Except StageRefusal (BTreeMap (Nat ×ₗ Bytes) Nat) :=
  if group.length < 2 then .ok orders
  else
    let c := group.foldl (claim offset) ⟨orders, ∅, false, false⟩
    if c.missing then .error (refuse (.sameOffsetOrderRequired source offset group))
    else if c.collision then .error (refuse (.sameOffsetOrderCollision source offset group))
    else .ok c.orders

def collectOrders (source : ActionSource) (groups : List (Nat × List NormalizedEdit)) :
    Except StageRefusal (BTreeMap (Nat ×ₗ Bytes) Nat) :=
  groups.foldlM (fun orders g => groupOrders source orders g.1 g.2) ∅

/-- The comparator of the final sort, field by field. -/
def sortKey (orders : BTreeMap (Nat ×ₗ Bytes) Nat) (e : NormalizedEdit) :
    Nat ×ₗ WithBot Nat ×ₗ Nat ×ₗ Bytes :=
  toLex (e.start, toLex (optKey orders[(toLex (e.start, e.replacement) : Nat ×ₗ Bytes)]?,
    toLex (e.stop, e.replacement)))

def normalizeEdits (source : ActionSource) (edits : List TextEdit) (inputLen : Nat) :
    Except StageRefusal (List NormalizedEdit) := do
  let normalized := mergeEdits edits
  checkBounds source inputLen normalized
  let nonempty := normalized.filter fun e => e.start < e.stop
  checkOverlaps source nonempty
  let insertions := normalized.filter fun e => e.IsInsertion
  checkInsertions source nonempty insertions
  let orders ← collectOrders source (insertionGroups insertions).toList
  return normalized.insertionSort fun a b => sortKey orders a ≤ sortKey orders b

/-! ## `apply_edits` -/

/-- `output.splice(start..end, replacement)` -/
def spliceVec (e : NormalizedEdit) (output : Bytes) : Option Bytes :=
  if e.start ≤ e.stop ∧ e.stop ≤ output.length then
    some (splice e.start e.stop e.replacement output)
  else none

def applyEdits (input : Bytes) (edits : List NormalizedEdit) : Option Bytes :=
  edits.foldrM spliceVec input

/-! ## The rewrite the edits ask for -/

def IsInsertionAt (p : Nat) (e : TextEdit) : Prop := e.range.start = p ∧ e.range.stop = p

instance (p : Nat) (e : TextEdit) : Decidable (IsInsertionAt p e) :=
  inferInstanceAs (Decidable (_ ∧ _))

/-- The order a producer of the insertion of `text` at `p` claims. -/
def orderAt (edits : List TextEdit) (p : Nat) (text : Bytes) : WithBot Nat :=
  optKey ((edits.find? fun e => IsInsertionAt p e ∧ e.replacement = text).bind
    fun e => e.producer.sameOffsetOrder)

/-- The distinct insertions at `p`, in increasing order. -/
def insertionsAt (edits : List TextEdit) (p : Nat) : List Bytes :=
  ((edits.filter fun e => IsInsertionAt p e).map TextEdit.replacement).dedup.insertionSort
    fun a b => (toLex (orderAt edits p a, a) : WithBot Nat ×ₗ Bytes) ≤ toLex (orderAt edits p b, b)

def replacementAt (edits : List TextEdit) (p : Nat) : Option (Nat × Bytes) :=
  (edits.find? fun e => e.range.start = p ∧ e.range.start < e.range.stop).map
    fun e => (e.range.stop, e.replacement)

/-- Walk the input left to right: at each offset the insertions there in order, then the
    replacement that starts there or the byte itself. -/
def simultaneous (edits : List TextEdit) (input : Bytes) : Bytes :=
  rewrite (fun p => (insertionsAt edits p).flatten) (replacementAt edits) 0 0 input

/-- The insertions at `p` that the final sort puts after a replacement by `text` there: when there
    are several, those of a larger order than `text` itself has as an insertion (all, if none). -/
def overtaken (edits : List TextEdit) (p : Nat) (text : Bytes) : List Bytes :=
  if (insertionsAt edits p).length < 2 then []
  else (insertionsAt edits p).filter fun r => orderAt edits p text < orderAt edits p r

/-- Each replacement, cutting behind the insertions it overtakes, leaves the right bytes all the
    same. That is so whenever it overtakes none; otherwise only by coincidence of the bytes. -/
def CutsClean (edits : List TextEdit) (input : Bytes) : Prop :=
  ∀ e ∈ edits, e.range.start < e.range.stop →
    let B := (overtaken edits e.range.start e.replacement).flatten
    e.replacement ++
      (B ++ (input.take e.range.stop).drop e.range.start).drop (e.range.stop - e.range.start) =
    B ++ e.replacement

instance (edits : List TextEdit) (input : Bytes) : Decidable (CutsClean edits input) :=
  inferInstanceAs (Decidable (∀ e ∈ edits, _))

end Soopy

/-!
# What `normalize_edits` accepts, and what `apply_edits` makes of it

The merged list holds each distinct `(start, end, replacement)` once, by increasing key
(`mergeEdits_sorted`, `mem_mergeEdits`). `normalizeEdits_ok` reads the checks back: the list is
`Accepted`, and `orders` holds exactly the insertions of the offsets that have several. From there
the sorted list is `Spliceable`, so `apply_edits` is one walk over the input, and it differs from
`simultaneous` exactly where a replacement overtakes insertions.
-/

namespace Soopy
open Splice

/-! ## The merged list -/

theorem TextEdit.key_inj {e : TextEdit} {n : NormalizedEdit} :
    e.key = n.key ↔ e.range.start = n.start ∧ e.range.stop = n.stop ∧ e.replacement = n.replacement := by
  simp [TextEdit.key, NormalizedEdit.key]

theorem NormalizedEdit.key_inj {m n : NormalizedEdit} :
    m.key = n.key ↔ m.start = n.start ∧ m.stop = n.stop ∧ m.replacement = n.replacement := by
  simp [NormalizedEdit.key]

/-- The entries of the merged map. -/
theorem getElem?_merged (edits : List TextEdit) (k : EditKey) :
    (edits.foldl mergeEdit ∅)[k]? =
      if edits.filter (fun e => e.key = k) = [] then none
      else some ((edits.filter fun e => e.key = k).foldl (fun s e => s.insert e.producer) ∅) :=
  BTreeMap.getElem?_group TextEdit.key ∅ (fun (s : BTreeSet ActionProducer) e => s.insert e.producer)
    edits k

theorem mergeEdits_sorted (edits : List TextEdit) :
    (mergeEdits edits).Pairwise fun a b => a.key < b.key :=
  List.pairwise_map.2 (BTreeMap.toList_sorted _)

theorem mem_mergeEdits {edits : List TextEdit} {n : NormalizedEdit} (h : n ∈ mergeEdits edits) :
    (∃ e ∈ edits, e.key = n.key) ∧
      ∀ p, p ∈ n.producers ↔ ∃ e ∈ edits, e.key = n.key ∧ e.producer = p := by
  obtain ⟨⟨k, s⟩, hmem, rfl⟩ := List.mem_map.1 h
  rw [BTreeMap.mem_toList, getElem?_merged] at hmem
  split at hmem
  · cases hmem
  · rename_i hne
    cases hmem
    change (∃ e ∈ edits, e.key = k) ∧ _
    refine ⟨?_, fun p => ?_⟩
    · obtain ⟨e, he⟩ := List.exists_mem_of_ne_nil _ hne
      exact ⟨e, (List.mem_filter.1 he).1, by simpa using (List.mem_filter.1 he).2⟩
    · refine BTreeSet.mem_toList.trans ((BTreeSet.mem_foldl_insert _ ∅ p).trans ?_)
      simp only [Std.ExtTreeSet.not_mem_empty, false_or, List.mem_filter, decide_eq_true_eq,
        and_assoc]
      rfl

theorem exists_mergeEdits {edits : List TextEdit} {e : TextEdit} (he : e ∈ edits) :
    ∃ n ∈ mergeEdits edits, e.key = n.key := by
  have hne : edits.filter (fun f => f.key = e.key) ≠ [] :=
    List.ne_nil_of_mem (List.mem_filter.2 ⟨he, by simp⟩)
  have hget := getElem?_merged edits e.key
  rw [if_neg hne, ← BTreeMap.mem_toList] at hget
  exact ⟨_, List.mem_map.2 ⟨_, hget, rfl⟩, rfl⟩

theorem mergeEdits_key {edits : List TextEdit} {m n : NormalizedEdit} (hm : m ∈ mergeEdits edits)
    (hn : n ∈ mergeEdits edits) (h : m.key = n.key) : m = n := by
  obtain ⟨i, hi, rfl⟩ := List.getElem_of_mem hm
  obtain ⟨j, hj, rfl⟩ := List.getElem_of_mem hn
  have hsort := List.pairwise_iff_getElem.1 (mergeEdits_sorted edits)
  rcases Nat.lt_trichotomy i j with hij | rfl | hij
  · exact absurd h (hsort i j hi hj hij).ne
  · rfl
  · exact absurd h.symm (hsort j i hj hi hij).ne

/-! ## The three range checks -/

theorem checkBounds_ok {source : ActionSource} {inputLen : Nat} {l : List NormalizedEdit} :
    checkBounds source inputLen l = .ok () ↔ ∀ e ∈ l, e.start ≤ inputLen ∧ e.stop ≤ inputLen := by
  unfold checkBounds
  cases hf : l.find? fun e => e.start > inputLen ∨ e.stop > inputLen with
  | some e =>
    have h1 := List.find?_some hf
    have h2 := List.mem_of_find?_eq_some hf
    simp only [decide_eq_true_eq] at h1
    refine iff_of_false (by simp) fun h => ?_
    have := h e h2
    omega
  | none =>
    refine iff_of_true rfl fun e he => ?_
    have := List.find?_eq_none.1 hf e he
    simp only [decide_eq_true_eq] at this; omega

theorem checkOverlaps_ok {source : ActionSource} {l : List NormalizedEdit}
    (hpos : ∀ e ∈ l, e.start < e.stop) :
    checkOverlaps source l = .ok () ↔ l.Pairwise fun a b => a.stop ≤ b.start := by
  induction l with
  | nil => simp [checkOverlaps]
  | cons left l ih =>
    cases l with
    | nil => simp [checkOverlaps]
    | cons right rest =>
      have ih := ih fun e he => hpos e (List.mem_cons_of_mem _ he)
      rw [checkOverlaps]
      by_cases hgt : left.stop > right.start
      · rw [if_pos hgt]
        refine iff_of_false (by simp) fun h => ?_
        have := (List.pairwise_cons.1 h).1 right (by simp)
        omega
      · rw [if_neg hgt, ih]
        refine ⟨fun h => List.pairwise_cons.2 ⟨fun e he => ?_, h⟩, fun h => (List.pairwise_cons.1 h).2⟩
        have hright := hpos right (by simp)
        rcases List.mem_cons.1 he with rfl | he
        · omega
        · have := (List.pairwise_cons.1 h).1 e he
          omega

theorem checkInsertions_ok {source : ActionSource} {nonempty l : List NormalizedEdit} :
    checkInsertions source nonempty l = .ok () ↔
      ∀ i ∈ l, ∀ e ∈ nonempty, ¬ (e.start < i.start ∧ i.start < e.stop) := by
  induction l with
  | nil => simp [checkInsertions]
  | cons i rest ih =>
    rw [checkInsertions]
    cases hf : nonempty.find? fun e => e.start < i.start ∧ i.start < e.stop with
    | some e =>
      have h1 := List.find?_some hf
      simp only [decide_eq_true_eq] at h1
      exact iff_of_false (by simp) fun h => h i (by simp) e (List.mem_of_find?_eq_some hf) h1
    | none =>
      have hnone := List.find?_eq_none.1 hf
      simp only [decide_eq_true_eq] at hnone
      simp only [ih, List.forall_mem_cons]
      exact ⟨fun h => ⟨hnone, h⟩, fun h => h.2⟩

/-! ## The `orders` map -/

/-- The distinct insertions at `p`, as the planner holds them. -/
def groupAt (edits : List TextEdit) (p : Nat) : List NormalizedEdit :=
  ((mergeEdits edits).filter fun e => e.IsInsertion).filter fun e => e.start = p

theorem mem_groupAt {edits : List TextEdit} {p : Nat} {n : NormalizedEdit} :
    n ∈ groupAt edits p ↔ n ∈ mergeEdits edits ∧ n.start = p ∧ n.stop = p := by
  rw [groupAt, List.mem_filter, List.mem_filter, decide_eq_true_eq, decide_eq_true_eq,
    NormalizedEdit.IsInsertion]
  constructor
  · rintro ⟨⟨h1, h2⟩, h3⟩; exact ⟨h1, h3, h2 ▸ h3⟩
  · rintro ⟨h1, h2, h3⟩; exact ⟨⟨h1, h2.trans h3.symm⟩, h2⟩

theorem groupAt_replacement {edits : List TextEdit} {p : Nat} {m n : NormalizedEdit}
    (hm : m ∈ groupAt edits p) (hn : n ∈ groupAt edits p) (h : m.replacement = n.replacement) :
    m = n := by
  rw [mem_groupAt] at hm hn
  exact mergeEdits_key hm.1 hn.1 (NormalizedEdit.key_inj.2
    ⟨hm.2.1.trans hn.2.1.symm, hm.2.2.trans hn.2.2.symm, h⟩)

theorem getElem?_insertionGroups (l : List NormalizedEdit) (p : Nat) :
    (insertionGroups l)[p]? =
      if l.filter (fun e => e.start = p) = [] then none else some (l.filter fun e => e.start = p) := by
  have hpush : ∀ (es acc : List NormalizedEdit), es.foldl (fun g e => g ++ [e]) acc = acc ++ es :=
    fun es => by
      induction es with
      | nil => simp
      | cons e es ih => intro acc; rw [List.foldl_cons, ih]; simp
  have hgroup := BTreeMap.getElem?_group NormalizedEdit.start [] (fun g e => g ++ [e]) l p
  rw [hpush, List.nil_append] at hgroup
  exact hgroup

theorem mem_insertionGroups {edits : List TextEdit} {p : Nat} {g : List NormalizedEdit} :
    (p, g) ∈ (insertionGroups ((mergeEdits edits).filter fun e => e.IsInsertion)).toList ↔
      g = groupAt edits p ∧ g ≠ [] := by
  rw [BTreeMap.mem_toList, getElem?_insertionGroups]
  rw [show ((mergeEdits edits).filter fun e => e.IsInsertion).filter (fun e => e.start = p) =
    groupAt edits p from rfl]
  by_cases hnil : groupAt edits p = []
  · rw [if_pos hnil]
    exact iff_of_false (by simp) fun h => h.2 (h.1.trans hnil)
  · rw [if_neg hnil]
    exact ⟨fun h => by cases h; exact ⟨rfl, hnil⟩, fun h => by rw [h.1]⟩

theorem claim_missing (offset : Nat) (c : Claims) (e : NormalizedEdit) :
    (claim offset c e).missing = (c.missing || (claimedOrder e).isNone) := by
  unfold claim
  cases claimedOrder e <;> simp

theorem foldl_claim_missing (offset : Nat) (g : List NormalizedEdit) (c : Claims) :
    (g.foldl (claim offset) c).missing = false ↔
      c.missing = false ∧ ∀ e ∈ g, claimedOrder e ≠ none := by
  induction g generalizing c with
  | nil => simp
  | cons e g ih =>
    rw [List.foldl_cons, ih, claim_missing]
    simp only [Bool.or_eq_false_iff, Option.isNone_eq_false_iff, Option.isSome_iff_ne_none,
      List.forall_mem_cons, ne_eq]
    tauto

/-- When every insertion claims an order, no collision means the orders are new and distinct. -/
theorem foldl_claim_collision (offset : Nat) (g : List NormalizedEdit) (c : Claims)
    (hg : ∀ e ∈ g, claimedOrder e ≠ none) :
    (g.foldl (claim offset) c).collision = false ↔ c.collision = false ∧
      g.Pairwise (fun a b => claimedOrder a ≠ claimedOrder b) ∧
      ∀ e ∈ g, ∀ o, claimedOrder e = some o → o ∉ c.claimed := by
  induction g generalizing c with
  | nil => simp
  | cons e g ih =>
    rw [List.forall_mem_cons] at hg
    obtain ⟨o, ho⟩ := Option.ne_none_iff_exists'.1 hg.1
    have hmem : ∀ x, x ∈ (claim offset c e).claimed ↔ o = x ∨ x ∈ c.claimed := fun x => by
      rw [claim, ho]; exact BTreeSet.mem_insert
    have hcol : (claim offset c e).collision = false ↔ c.collision = false ∧ o ∉ c.claimed := by
      rw [claim, ho, ← Std.ExtTreeSet.contains_iff_mem]
      simp only [Bool.or_eq_false_iff, Bool.not_eq_true]
    rw [List.foldl_cons, ih _ hg.2, hcol, List.pairwise_cons, List.forall_mem_cons]
    simp only [hmem, not_or, ho]
    constructor
    · rintro ⟨⟨h1, h2⟩, h3, h4⟩
      refine ⟨h1, ⟨fun b hb heq => ?_, h3⟩, fun x hx => ?_, fun b hb x hx => (h4 b hb x hx).2⟩
      · exact (h4 b hb o heq.symm).1 rfl
      · cases hx; exact h2
    · rintro ⟨h1, ⟨h2, h3⟩, h4, h5⟩
      refine ⟨⟨h1, h4 o rfl⟩, h3, fun b hb x hx => ⟨?_, h5 b hb x hx⟩⟩
      rintro rfl
      exact h2 b hb hx.symm

theorem foldl_claim_orders (offset : Nat) (g : List NormalizedEdit) (c : Claims)
    (hg : ∀ e ∈ g, claimedOrder e ≠ none) (hrep : g.Pairwise fun a b => a.replacement ≠ b.replacement)
    (k : Nat ×ₗ Bytes) :
    (∀ e ∈ g, k = toLex (offset, e.replacement) →
      (g.foldl (claim offset) c).orders[k]? = claimedOrder e) ∧
    ((∀ e ∈ g, k ≠ toLex (offset, e.replacement)) →
      (g.foldl (claim offset) c).orders[k]? = c.orders[k]?) := by
  induction g generalizing c with
  | nil => simp
  | cons e g ih =>
    rw [List.forall_mem_cons] at hg
    rw [List.pairwise_cons] at hrep
    obtain ⟨o, ho⟩ := Option.ne_none_iff_exists'.1 hg.1
    have hget : (claim offset c e).orders[k]? =
        if toLex (offset, e.replacement) = k then some o else c.orders[k]? := by
      simp only [claim, ho, BTreeMap.getElem?_insert]
    obtain ⟨ih1, ih2⟩ := ih (claim offset c e) hg.2 hrep.2
    rw [List.foldl_cons]
    refine ⟨fun f hf hk => ?_, fun hall => ?_⟩
    · rcases List.mem_cons.1 hf with rfl | hf
      · rw [ih2 fun b hb heq => hrep.1 b hb (by rw [hk] at heq; simpa using heq), hget,
          if_pos hk.symm, ho]
      · exact ih1 f hf hk
    · rw [List.forall_mem_cons] at hall
      rw [ih2 hall.2, hget, if_neg fun h => hall.1 h.symm]

/-- The insertions of one offset may go in: each claims one order, and no two the same. -/
def Ordered (g : List NormalizedEdit) : Prop :=
  2 ≤ g.length → (∀ e ∈ g, claimedOrder e ≠ none) ∧
    g.Pairwise fun a b => claimedOrder a ≠ claimedOrder b

theorem groupOrders_ok (source : ActionSource) (orders : BTreeMap (Nat ×ₗ Bytes) Nat) (offset : Nat)
    (g : List NormalizedEdit) :
    (∃ orders', groupOrders source orders offset g = .ok orders') ↔ Ordered g := by
  unfold groupOrders Ordered
  by_cases hlen : g.length < 2
  · rw [if_pos hlen]
    exact iff_of_true ⟨_, rfl⟩ fun h => by omega
  · rw [if_neg hlen]
    have hmis := foldl_claim_missing offset g ⟨orders, ∅, false, false⟩
    have hcol := foldl_claim_collision offset g ⟨orders, ∅, false, false⟩
    generalize g.foldl (claim offset) ⟨orders, ∅, false, false⟩ = c at hmis hcol
    obtain ⟨o, cl, missing, collision⟩ := c
    simp only [true_and, Std.ExtTreeSet.not_mem_empty, not_false_eq_true, implies_true, and_true]
      at hmis hcol
    have hle : 2 ≤ g.length := by omega
    cases missing
    · have hall := hmis.1 rfl
      cases collision
      · exact iff_of_true ⟨o, rfl⟩ fun _ => ⟨hall, (hcol hall).1 rfl⟩
      · refine iff_of_false (by simp) fun h => ?_
        exact absurd ((hcol hall).2 (h hle).2) (by simp)
    · exact iff_of_false (by simp) fun h => absurd (hmis.2 (h hle).1) (by simp)

/-- What an accepted group adds to the map. -/
theorem groupOrders_get {source : ActionSource} {orders orders' : BTreeMap (Nat ×ₗ Bytes) Nat}
    {offset : Nat} {g : List NormalizedEdit}
    (h : groupOrders source orders offset g = .ok orders')
    (hrep : g.Pairwise fun a b => a.replacement ≠ b.replacement) (k : Nat ×ₗ Bytes) :
    (2 ≤ g.length → ∀ e ∈ g, k = toLex (offset, e.replacement) → orders'[k]? = claimedOrder e) ∧
    ((2 ≤ g.length → ∀ e ∈ g, k ≠ toLex (offset, e.replacement)) → orders'[k]? = orders[k]?) := by
  have hord := (groupOrders_ok source orders offset g).1 ⟨orders', h⟩
  unfold groupOrders at h
  by_cases hlen : g.length < 2
  · rw [if_pos hlen] at h
    cases h
    exact ⟨fun h => by omega, fun _ => rfl⟩
  · have hle : 2 ≤ g.length := by omega
    obtain ⟨h1, h2⟩ := foldl_claim_orders offset g ⟨orders, ∅, false, false⟩ (hord hle).1 hrep k
    rw [if_neg hlen] at h
    simp only at h
    split at h
    · cases h
    · split at h
      · cases h
      · cases h
        exact ⟨fun _ => h1, fun hall => h2 (hall hle)⟩

theorem collectOrders_ok {source : ActionSource} {groups : List (Nat × List NormalizedEdit)}
    {orders : BTreeMap (Nat ×ₗ Bytes) Nat} :
    (∃ orders', groups.foldlM (fun o g => groupOrders source o g.1 g.2) orders = .ok orders') ↔
      ∀ g ∈ groups, Ordered g.2 := by
  induction groups generalizing orders with
  | nil => exact iff_of_true ⟨orders, rfl⟩ (by simp)
  | cons g groups ih =>
    rw [List.forall_mem_cons, ← groupOrders_ok source orders g.1]
    simp only [List.foldlM_cons, bind, Except.bind]
    cases hg : groupOrders source orders g.1 g.2 with
    | error e => exact iff_of_false (by simp) fun h => by simpa using h.1
    | ok orders₁ =>
      simp only [ih]
      exact ⟨fun h => ⟨⟨orders₁, rfl⟩, h⟩, fun h => h.2⟩

/-- What the whole loop leaves in the map: the insertions of the groups of two or more. -/
theorem collectOrders_get {source : ActionSource} {groups : List (Nat × List NormalizedEdit)}
    {orders orders' : BTreeMap (Nat ×ₗ Bytes) Nat}
    (h : groups.foldlM (fun o g => groupOrders source o g.1 g.2) orders = .ok orders')
    (hdist : groups.Pairwise fun a b => a.1 < b.1)
    (hrep : ∀ g ∈ groups, g.2.Pairwise fun a b => a.replacement ≠ b.replacement) (k : Nat ×ₗ Bytes) :
    (∀ g ∈ groups, 2 ≤ g.2.length → ∀ e ∈ g.2, k = toLex (g.1, e.replacement) →
      orders'[k]? = claimedOrder e) ∧
    ((∀ g ∈ groups, 2 ≤ g.2.length → ∀ e ∈ g.2, k ≠ toLex (g.1, e.replacement)) →
      orders'[k]? = orders[k]?) := by
  induction groups generalizing orders with
  | nil => cases h; simp
  | cons g groups ih =>
    simp only [List.foldlM_cons, bind, Except.bind] at h
    cases hg : groupOrders source orders g.1 g.2 with
    | error e => rw [hg] at h; cases h
    | ok orders₁ =>
      rw [hg] at h
      rw [List.pairwise_cons] at hdist
      rw [List.forall_mem_cons] at hrep
      obtain ⟨ih1, ih2⟩ := ih h hdist.2 hrep.2
      obtain ⟨hg1, hg2⟩ := groupOrders_get hg hrep.1 k
      refine ⟨fun a ha hlen e he hk => ?_, fun hall => ?_⟩
      · rcases List.mem_cons.1 ha with rfl | ha
        · -- later groups have another offset
          rw [ih2, hg1 hlen e he hk]
          rintro b hb - f hf heq
          rw [hk] at heq
          have hlt := hdist.1 b hb
          simp only [toLex_inj, Prod.mk.injEq] at heq
          omega
        · exact ih1 a ha hlen e he hk
      · rw [List.forall_mem_cons] at hall
        rw [ih2 hall.2, hg2 hall.1]

/-! ## What is accepted -/

/-- The conditions `normalize_edits` checks, on the merged list. -/
structure Accepted (edits : List TextEdit) (inputLen : Nat) : Prop where
  bounds  : ∀ n ∈ mergeEdits edits, n.start ≤ inputLen ∧ n.stop ≤ inputLen
  apart   : ((mergeEdits edits).filter fun e => e.start < e.stop).Pairwise fun a b => a.stop ≤ b.start
  free    : ∀ i ∈ mergeEdits edits, i.IsInsertion → ∀ e ∈ mergeEdits edits,
    ¬ (e.start < i.start ∧ i.start < e.stop)
  ordered : ∀ p, Ordered (groupAt edits p)

theorem claimedOrder_eq {e : NormalizedEdit} {o : Nat} (h : claimedOrder e = some o) :
    ∀ p ∈ e.producers, p.sameOffsetOrder = some o := by
  unfold claimedOrder at h
  simp only at h
  split at h
  · rename_i order hlist
    cases h
    intro p hp
    have hmem := (BTreeSet.toList_eq_singleton.1 hlist).2 (optKey p.sameOffsetOrder)
      ((BTreeSet.mem_foldl_insert _ ∅ _).2 (.inr ⟨p, hp, rfl⟩))
    exact optKey_injective hmem
  · cases h

theorem orderAt_of_mem {edits : List TextEdit} {p o : Nat} {n : NormalizedEdit}
    (hn : n ∈ groupAt edits p) (ho : claimedOrder n = some o) :
    orderAt edits p n.replacement = optKey (some o) := by
  obtain ⟨hmem, hstart, hstop⟩ := mem_groupAt.1 hn
  obtain ⟨⟨e, he, hkey⟩, hprod⟩ := mem_mergeEdits hmem
  obtain ⟨h1, h2, h3⟩ := TextEdit.key_inj.1 hkey
  unfold orderAt
  cases hf : edits.find? fun e => IsInsertionAt p e ∧ e.replacement = n.replacement with
  | none =>
    have := List.find?_eq_none.1 hf e he
    simp only [decide_eq_true_eq] at this
    exact absurd ⟨⟨h1.trans hstart, h2.trans hstop⟩, h3⟩ this
  | some f =>
    have hf1 := List.find?_some hf
    simp only [decide_eq_true_eq] at hf1
    obtain ⟨⟨hf2, hf3⟩, hf4⟩ := hf1
    have hfp := (hprod f.producer).2 ⟨f, List.mem_of_find?_eq_some hf,
      TextEdit.key_inj.2 ⟨hf2.trans hstart.symm, hf3.trans hstop.symm, hf4⟩, rfl⟩
    rw [Option.bind_some, claimedOrder_eq ho _ hfp]

theorem orderAt_of_not_mem {edits : List TextEdit} {p : Nat} {text : Bytes}
    (h : ∀ n ∈ groupAt edits p, n.replacement ≠ text) : orderAt edits p text = ⊥ := by
  unfold orderAt
  cases hf : edits.find? fun e => IsInsertionAt p e ∧ e.replacement = text with
  | none => rfl
  | some f =>
    have hf1 := List.find?_some hf
    simp only [decide_eq_true_eq] at hf1
    obtain ⟨⟨hf2, hf3⟩, hf4⟩ := hf1
    obtain ⟨n, hn, hkey⟩ := exists_mergeEdits (List.mem_of_find?_eq_some hf)
    obtain ⟨h1, h2, h3⟩ := TextEdit.key_inj.1 hkey
    exact absurd (h3.symm.trans hf4)
      (h n (mem_groupAt.2 ⟨hn, h1.symm.trans hf2, h2.symm.trans hf3⟩))

/-- Looking any text up in the `orders` of an accepted list. -/
def HasOrders (edits : List TextEdit) (orders : BTreeMap (Nat ×ₗ Bytes) Nat) : Prop :=
  ∀ p text, optKey orders[(toLex (p, text) : Nat ×ₗ Bytes)]? =
    if 2 ≤ (groupAt edits p).length then orderAt edits p text else ⊥

theorem groupAt_replacements (edits : List TextEdit) (p : Nat) :
    (groupAt edits p).Pairwise fun a b => a.replacement ≠ b.replacement := by
  have hsort : (groupAt edits p).Pairwise fun a b => a.key < b.key :=
    ((mergeEdits_sorted edits).filter _).filter _
  exact hsort.imp_of_mem fun ha hb hlt heq => hlt.ne (congrArg _ (groupAt_replacement ha hb heq))

theorem collectOrders_hasOrders {source : ActionSource} {edits : List TextEdit}
    {orders : BTreeMap (Nat ×ₗ Bytes) Nat}
    (h : collectOrders source
      (insertionGroups ((mergeEdits edits).filter fun e => e.IsInsertion)).toList = .ok orders) :
    (∀ p, Ordered (groupAt edits p)) ∧ HasOrders edits orders := by
  have hall := collectOrders_ok.1 ⟨orders, h⟩
  have hord : ∀ p, Ordered (groupAt edits p) := fun p => by
    by_cases hnil : groupAt edits p = []
    · intro hlen; rw [hnil] at hlen; simp at hlen
    · exact hall (p, groupAt edits p) (mem_insertionGroups.2 ⟨rfl, hnil⟩)
  have hrep : ∀ g ∈ (insertionGroups ((mergeEdits edits).filter fun e => e.IsInsertion)).toList,
      g.2.Pairwise fun a b => a.replacement ≠ b.replacement := fun g hg => by
    rw [(mem_insertionGroups.1 hg).1]
    exact groupAt_replacements edits g.1
  refine ⟨hord, fun p text => ?_⟩
  obtain ⟨hin, hout⟩ := collectOrders_get h (BTreeMap.toList_sorted _) hrep (toLex (p, text))
  by_cases hlen : 2 ≤ (groupAt edits p).length
  · rw [if_pos hlen]
    by_cases hex : ∃ n ∈ groupAt edits p, n.replacement = text
    · obtain ⟨n, hn, rfl⟩ := hex
      obtain ⟨o, ho⟩ := Option.ne_none_iff_exists'.1 ((hord p hlen).1 n hn)
      rw [hin (p, groupAt edits p) (mem_insertionGroups.2 ⟨rfl, List.ne_nil_of_mem hn⟩) hlen n hn rfl,
        ho, orderAt_of_mem hn ho]
    · rw [orderAt_of_not_mem fun n hn heq => hex ⟨n, hn, heq⟩, hout fun g hg _ n hn heq => ?_]
      · simp; rfl
      · rw [(mem_insertionGroups.1 hg).1] at hn
        simp only [toLex_inj, Prod.mk.injEq] at heq
        exact hex ⟨n, heq.1 ▸ hn, heq.2.symm⟩
  · rw [if_neg hlen, hout fun g hg h2 n hn heq => ?_]
    · simp; rfl
    · rw [(mem_insertionGroups.1 hg).1] at h2
      simp only [toLex_inj, Prod.mk.injEq] at heq
      exact hlen (heq.1 ▸ h2)

/-- **`normalize_edits` (_7d_mutation_plan.rs:776)**: what it accepts, and the list it returns. -/
theorem normalizeEdits_ok {source : ActionSource} {edits : List TextEdit} {inputLen : Nat}
    {N : List NormalizedEdit} (h : normalizeEdits source edits inputLen = .ok N) :
    Accepted edits inputLen ∧ ∃ orders, HasOrders edits orders ∧
      N = (mergeEdits edits).insertionSort fun a b => sortKey orders a ≤ sortKey orders b := by
  obtain ⟨⟨⟩, h1, h⟩ := Machine.bind_ok.1 h
  obtain ⟨⟨⟩, h2, h⟩ := Machine.bind_ok.1 h
  obtain ⟨⟨⟩, h3, h⟩ := Machine.bind_ok.1 h
  obtain ⟨orders, h4, h⟩ := Machine.bind_ok.1 h
  obtain ⟨hord, hget⟩ := collectOrders_hasOrders h4
  refine ⟨⟨checkBounds_ok.1 h1, ?_, fun i hi hins e he hlt => ?_, hord⟩, orders, hget, ?_⟩
  · exact (checkOverlaps_ok fun e he => by simpa using (List.mem_filter.1 he).2).1 h2
  · refine checkInsertions_ok.1 h3 i (List.mem_filter.2 ⟨hi, by simpa using hins⟩) e
      (List.mem_filter.2 ⟨he, ?_⟩) hlt
    simp only [decide_eq_true_eq]; omega
  · cases h; rfl

end Soopy
