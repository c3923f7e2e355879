import HafleyRs.Lib.BTree

/-!
# Depth-first search, and components in two passes

`visit` lists the nodes a search comes to in the order in which it is done with them. What a search adds (`Adds`) is all
that can be reached, and for an edge to a node it is done with later, that node reaches all it was done with in between:
the node was on the stack.

The second pass (`collect`) goes through that order backwards, against the edges, and takes what each search adds as one
group. The groups are the components of the graph (`Groups`), as far as the first pass has seen it. Nodes that it has
not seen and that lead to one it has seen end up in a group as well.
-/

namespace DepthFirst
open Relation

structure State (α : Type) [LinearOrder α] where
  seen  : BTreeSet α
  order : List α

section
variable {α : Type} [LinearOrder α]

def visit (next : α → List α) : Nat → α → State α → Except Unit (State α)
  | 0, _, _ => .error ()
  | fuel + 1, node, s =>
    if s.seen.contains node then .ok s
    else do
      let s ← (next node).foldlM (fun s child => visit next fuel child s) ⟨s.seen.insert node, s.order⟩
      return ⟨s.seen, s.order ++ [node]⟩

def visitAll (next : α → List α) (fuel : Nat) (roots : List α) (s : State α) : Except Unit (State α) :=
  roots.foldlM (fun s root => visit next fuel root s) s

end

section
variable {α : Type}

abbrev Reaches (next : α → List α) : α → α → Prop := ReflTransGen fun a b => b ∈ next a

/-! ## What a search adds -/

/-- The node at `i` has an edge to the one at `j`: either that one was done before, or it reaches all between. -/
def Back (next : α → List α) (order : List α) (i j : Nat) (r : α) : Prop :=
  j ≤ i ∨ ∀ k z, i ≤ k → k ≤ j → order[k]? = some z → Reaches next r z

structure Adds (next : α → List α) (seen : Set α) (order : List α) : Prop where
  nodup   : order.Nodup
  fresh   : ∀ a ∈ order, a ∉ seen
  settled : ∀ i q, order[i]? = some q → ∀ r ∈ next q, r ∈ seen ∨ ∃ j, order[j]? = some r ∧ Back next order i j r

variable {next : α → List α} {seen : Set α} {new more : List α} {node : α}

theorem reaches_swap {prev : α → List α} (hprev : ∀ u v, u ∈ prev v ↔ v ∈ next u) {a b : α} :
    Reaches prev a b ↔ Reaches next b a := by
  have hswap : (Function.swap fun a b => b ∈ next a) = fun a b => b ∈ prev a := by
    ext a b
    exact (hprev b a).symm
  rw [Reaches, Reaches, ← hswap]
  exact reflTransGen_swap

theorem getElem?_append_split {order more : List α} {i : Nat} {q : α} (h : (order ++ more)[i]? = some q) :
    order[i]? = some q ∨ ∃ k, i = order.length + k ∧ more[k]? = some q := by
  rcases Nat.lt_or_ge i order.length with hi | hi
  · rw [List.getElem?_append_left hi] at h
    exact .inl h
  · rw [List.getElem?_append_right hi] at h
    exact .inr ⟨i - order.length, by omega, h⟩

theorem getElem?_append_of_some {order more : List α} {i : Nat} {q : α} (h : order[i]? = some q) :
    (order ++ more)[i]? = some q := by
  rw [List.getElem?_append_left (List.getElem?_eq_some_iff.1 h).1]
  exact h

theorem getElem?_append_add (order more : List α) (k : Nat) : (order ++ more)[order.length + k]? = more[k]? := by
  rw [List.getElem?_append_right (Nat.le_add_right _ _), Nat.add_sub_cancel_left]

theorem Adds.nil : Adds next seen [] :=
  ⟨List.nodup_nil, fun _ h => absurd h List.not_mem_nil, fun _ _ h => by simp at h⟩

/-- Positions within one part of an order are settled as they are there. -/
theorem Back.append_left {i j : Nat} {r : α} (hj : j < new.length) (h : Back next new i j r) :
    Back next (new ++ more) i j r := by
  refine h.imp_right fun h k z hik hkj hk => h k z hik hkj ?_
  rwa [List.getElem?_append_left (by omega)] at hk

theorem Back.append_right {i j : Nat} {r : α} (h : Back next more i j r) :
    Back next (new ++ more) (new.length + i) (new.length + j) r := by
  rcases h with h | h
  · exact .inl (by omega)
  · refine .inr fun k z hik hkj hk => ?_
    obtain ⟨k, rfl⟩ := Nat.exists_eq_add_of_le (show new.length ≤ k by omega)
    rw [getElem?_append_add] at hk
    exact h k z (by omega) (by omega) hk

theorem Adds.append (h : Adds next seen new) (h' : Adds next {a | a ∈ seen ∨ a ∈ new} more) :
    Adds next seen (new ++ more) := by
  refine ⟨?_, ?_, ?_⟩
  · refine List.nodup_append.2 ⟨h.nodup, h'.nodup, ?_⟩
    rintro a ha b hb rfl
    exact h'.fresh a hb (.inr ha)
  · intro a ha
    rcases List.mem_append.1 ha with ha | ha
    · exact h.fresh a ha
    · exact fun hseen => h'.fresh a ha (.inl hseen)
  · intro i q hi r hr
    rcases getElem?_append_split hi with hi | ⟨k, rfl, hk⟩
    · refine (h.settled i q hi r hr).imp_right ?_
      rintro ⟨j, hj, hback⟩
      exact ⟨j, getElem?_append_of_some hj, hback.append_left (List.getElem?_eq_some_iff.1 hj).1⟩
    · rcases h'.settled k q hk r hr with (hseen | hnew) | ⟨j, hj, hback⟩
      · exact .inl hseen
      · -- the search was done with it in the first part
        obtain ⟨j, hlt, hj⟩ := List.getElem_of_mem hnew
        refine .inr ⟨j, getElem?_append_of_some (List.getElem?_eq_some_iff.2 ⟨hlt, hj⟩), .inl (by omega)⟩
      · refine .inr ⟨new.length + j, ?_, hback.append_right⟩
        rw [getElem?_append_add]
        exact hj

/-- A node is done when its own edges are. -/
theorem Adds.close (h : Adds next {a | a = node ∨ a ∈ seen} new) (hnode : node ∉ seen)
    (hreach : ∀ z ∈ new, Reaches next node z) (hnext : ∀ r ∈ next node, r = node ∨ r ∈ seen ∨ r ∈ new) :
    Adds next seen (new ++ [node]) := by
  have hlast : (new ++ [node])[new.length]? = some node := getElem?_append_add new [node] 0
  refine ⟨?_, ?_, ?_⟩
  · refine List.nodup_append.2 ⟨h.nodup, List.nodup_singleton _, ?_⟩
    rintro a ha b hb rfl
    exact h.fresh a ha (.inl (List.mem_singleton.1 hb))
  · intro a ha
    rcases List.mem_append.1 ha with ha | ha
    · exact fun hseen => h.fresh a ha (.inr hseen)
    · rwa [List.mem_singleton.1 ha]
  · intro i q hi r hr
    rcases getElem?_append_split hi with hi | ⟨k, rfl, hk⟩
    · rcases h.settled i q hi r hr with (rfl | hseen) | ⟨j, hj, hback⟩
      · -- an edge back to the node itself, which reaches all that was added
        refine .inr ⟨new.length, hlast, .inr fun k z _ _ hk => ?_⟩
        rcases List.mem_append.1 (List.mem_of_getElem? hk) with hz | hz
        · exact hreach z hz
        · rw [List.mem_singleton.1 hz]
      · exact .inl hseen
      · exact .inr ⟨j, getElem?_append_of_some hj, hback.append_left (List.getElem?_eq_some_iff.1 hj).1⟩
    · obtain rfl : q = node := (List.mem_singleton.1 (List.mem_of_getElem? hk))
      have hk0 : k = 0 := by
        have hlt := (List.getElem?_eq_some_iff.1 hk).1
        rw [List.length_singleton] at hlt
        omega
      subst hk0
      rcases hnext r hr with rfl | hseen | hnew
      · exact .inr ⟨new.length, hlast, .inl le_rfl⟩
      · exact .inl hseen
      · obtain ⟨j, hlt, hj⟩ := List.getElem_of_mem hnew
        exact .inr ⟨j, getElem?_append_of_some (List.getElem?_eq_some_iff.2 ⟨hlt, hj⟩), .inl (by omega)⟩

/-- **A node that leads to one done with later, along nodes done with before that,** can be reached from there, and so
can all in between. -/
theorem reaches_back {order : List α} (h : Adds next ∅ order) {m : Nat} {p q : α} (hp : order[m]? = some p)
    (hpath : ReflTransGen (fun a b => b ∈ next a ∧ ∀ j, order[j]? = some b → j ≤ m) q p) :
    ∀ i, order[i]? = some q → i ≤ m → ∀ k z, i ≤ k → k ≤ m → order[k]? = some z → Reaches next p z := by
  induction hpath using ReflTransGen.head_induction_on with
  | refl =>
    intro i hi _ k z hik hkm hk
    have him : i = m := (List.getElem?_inj (List.getElem?_eq_some_iff.1 hi).1 h.nodup).1 (hi.trans hp.symm)
    obtain rfl : k = m := by omega
    rw [hp, Option.some.injEq] at hk
    rw [hk]
  | head hedge _ ih =>
    intro i hi him k z hik hkm hk
    obtain ⟨hnext, hbefore⟩ := hedge
    rcases h.settled i _ hi _ hnext with hempty | ⟨j, hj, hback⟩
    · exact absurd hempty (Set.notMem_empty _)
    · have hjm := hbefore j hj
      rcases hback with hji | hall
      · exact ih j hj hjm k z (by omega) hkm hk
      · rcases Nat.lt_or_ge j k with hjk | hkj
        · exact ih j hj hjm k z (by omega) hkm hk
        · exact (ih j hj hjm j _ le_rfl hjm hj).trans (hall k z hik hkj hk)

/-- In a partition an element has one place. -/
theorem index_unique {members : List (List α)} (h : members.flatten.Nodup) {i j : Nat} {c c' : List α} {a : α}
    (hi : members[i]? = some c) (hj : members[j]? = some c') (ha : a ∈ c) (ha' : a ∈ c') : i = j := by
  obtain ⟨-, hdisjoint⟩ := List.nodup_flatten.1 h
  obtain ⟨hli, rfl⟩ := List.getElem?_eq_some_iff.1 hi
  obtain ⟨hlj, rfl⟩ := List.getElem?_eq_some_iff.1 hj
  rcases lt_trichotomy i j with hlt | rfl | hlt
  · exact absurd ha' (List.pairwise_iff_getElem.1 hdisjoint i j hli hlj hlt ha)
  · rfl
  · exact absurd ha (List.pairwise_iff_getElem.1 hdisjoint j i hlj hli hlt ha')

end

section
variable {α : Type} [LinearOrder α] {next : α → List α} {s s' s'' : State α} {node : α}

/-- A search from `roots` leads from one state to the next. -/
def Leads (next : α → List α) (roots : List α) (s s' : State α) : Prop :=
  ∃ new, s'.order = s.order ++ new ∧ (∀ a, a ∈ s'.seen ↔ a ∈ s.seen ∨ a ∈ new) ∧ Adds next {a | a ∈ s.seen} new ∧
    (∀ z ∈ new, ∃ root ∈ roots, Reaches next root z) ∧ ∀ root ∈ roots, root ∈ s'.seen

theorem Leads.nil : Leads next [] s s :=
  ⟨[], by simp, by simp, Adds.nil, by simp, by simp⟩

theorem Leads.trans {roots roots' : List α} (h : Leads next roots s s') (h' : Leads next roots' s' s'') :
    Leads next (roots ++ roots') s s'' := by
  obtain ⟨new, horder, hseen, hadds, hreach, hroots⟩ := h
  obtain ⟨more, horder', hseen', hadds', hreach', hroots'⟩ := h'
  refine ⟨new ++ more, by rw [horder', horder, List.append_assoc], fun a => ?_, hadds.append ?_, ?_, ?_⟩
  · rw [hseen', hseen, List.mem_append, or_assoc]
  · have hset : {a | a ∈ {a | a ∈ s.seen} ∨ a ∈ new} = {a | a ∈ s'.seen} := by
      ext a
      exact (hseen a).symm
    rwa [hset]
  · intro z hz
    rcases List.mem_append.1 hz with hz | hz
    · obtain ⟨root, hroot, hpath⟩ := hreach z hz
      exact ⟨root, List.mem_append_left _ hroot, hpath⟩
    · obtain ⟨root, hroot, hpath⟩ := hreach' z hz
      exact ⟨root, List.mem_append_right _ hroot, hpath⟩
  · intro root hroot
    rcases List.mem_append.1 hroot with hroot | hroot
    · exact (hseen' root).2 (.inl (hroots root hroot))
    · exact hroots' root hroot

/-! ## Every search ends -/

/-- A finite set of nodes that no edge leaves. -/
def Closed (next : α → List α) (nodes : Finset α) : Prop := ∀ a ∈ nodes, ∀ b ∈ next a, b ∈ nodes

/-- How many of them the search has not come to. -/
def unseen (nodes : Finset α) (s : State α) : Nat := (nodes.filter fun a => a ∉ s.seen).card

theorem unseen_mono {nodes : Finset α} (h : ∀ a ∈ s.seen, a ∈ s'.seen) : unseen nodes s' ≤ unseen nodes s := by
  refine Finset.card_le_card fun a ha => ?_
  rw [Finset.mem_filter] at ha ⊢
  exact ⟨ha.1, fun hseen => ha.2 (h a hseen)⟩

theorem unseen_insert {nodes : Finset α} (hmem : node ∈ nodes) (hnode : node ∉ s.seen) :
    unseen nodes ⟨s.seen.insert node, s.order⟩ < unseen nodes s := by
  refine Finset.card_lt_card (Finset.ssubset_iff_subset_ne.2 ⟨fun a ha => ?_, fun heq => ?_⟩)
  · rw [Finset.mem_filter] at ha ⊢
    exact ⟨ha.1, fun hseen => ha.2 (BTreeSet.mem_insert.2 (.inr hseen))⟩
  · have hin : node ∈ nodes.filter fun a => a ∉ s.seen := Finset.mem_filter.2 ⟨hmem, hnode⟩
    rw [← heq, Finset.mem_filter] at hin
    exact hin.2 (BTreeSet.mem_insert.2 (.inl rfl))

theorem Leads.mono {roots : List α} (h : Leads next roots s s') : ∀ a ∈ s.seen, a ∈ s'.seen := by
  obtain ⟨new, -, hseen, -⟩ := h
  exact fun a ha => (hseen a).2 (.inl ha)

theorem foldlM_leads {nodes : Finset α} {fuel : Nat} {f : State α → α → Except Unit (State α)} (roots : List α)
    (hf : ∀ root ∈ roots, ∀ s, unseen nodes s < fuel → ∃ s', f s root = .ok s' ∧ Leads next [root] s s') :
    ∀ s, unseen nodes s < fuel → ∃ s', roots.foldlM f s = .ok s' ∧ Leads next roots s s' := by
  induction roots with
  | nil => exact fun s _ => ⟨s, rfl, Leads.nil⟩
  | cons root roots ih =>
    intro s hs
    obtain ⟨hroot, hroots⟩ := List.forall_mem_cons.1 hf
    obtain ⟨s', hfirst, hleads⟩ := hroot s hs
    obtain ⟨s'', hmore, hleads'⟩ := ih hroots s' (lt_of_le_of_lt (unseen_mono hleads.mono) hs)
    refine ⟨s'', ?_, hleads.trans hleads'⟩
    rw [List.foldlM_cons, hfirst]
    exact hmore

/-- **A search ends**, and leads from one state to the next. -/
theorem visit_leads {nodes : Finset α} (hclosed : Closed next nodes) (fuel : Nat) (node : α) (hmem : node ∈ nodes)
    (s : State α) (hfuel : unseen nodes s < fuel) : ∃ s', visit next fuel node s = .ok s' ∧ Leads next [node] s s' := by
  induction fuel generalizing node s with
  | zero => exact absurd hfuel (Nat.not_lt_zero _)
  | succ fuel ih =>
    rw [visit]
    split
    · rename_i hseen
      refine ⟨s, rfl, [], by simp, by simp, Adds.nil, by simp, ?_⟩
      intro root hroot
      rw [List.mem_singleton.1 hroot]
      exact Std.ExtTreeSet.contains_iff_mem.1 hseen
    · rename_i hseen
      have hnode : node ∉ s.seen := fun h => hseen (Std.ExtTreeSet.contains_iff_mem.2 h)
      have hlt := unseen_insert hmem hnode
      obtain ⟨s', hchildren, new, horder, hseen', hadds, hreach, hroots⟩ := foldlM_leads (next node)
        (fun child hchild s hs => ih child (hclosed node hmem child hchild) s hs) ⟨s.seen.insert node, s.order⟩
        (by omega)
      have hnew : ∀ z ∈ new, Reaches next node z := by
        intro z hz
        obtain ⟨child, hchild, hpath⟩ := hreach z hz
        exact ReflTransGen.head hchild hpath
      have hafter : ∀ a, a ∈ s'.seen ↔ (a = node ∨ a ∈ s.seen) ∨ a ∈ new := by
        intro a
        rw [hseen', BTreeSet.mem_insert, eq_comm (a := node)]
      refine ⟨⟨s'.seen, s'.order ++ [node]⟩, by rw [hchildren]; rfl, new ++ [node], ?_, ?_, ?_, ?_, ?_⟩
      · rw [horder, List.append_assoc]
      · intro a
        rw [hafter, List.mem_append, List.mem_singleton]
        tauto
      · have hset : {a | a ∈ s.seen.insert node} = {a | a = node ∨ a ∈ {a | a ∈ s.seen}} := by
          ext a
          exact BTreeSet.mem_insert.trans (or_congr_left eq_comm)
        rw [hset] at hadds
        refine hadds.close hnode hnew fun r hr => ?_
        have := (hafter r).1 (hroots r hr)
        exact or_assoc.1 this
      · intro z hz
        refine ⟨node, List.mem_singleton_self node, ?_⟩
        rcases List.mem_append.1 hz with hz | hz
        · exact hnew z hz
        · rw [List.mem_singleton.1 hz]
      · intro root hroot
        rw [List.mem_singleton.1 hroot]
        exact (hafter node).2 (.inl (.inl rfl))

theorem visitAll_leads {nodes : Finset α} (hclosed : Closed next nodes) {fuel : Nat} {roots : List α}
    (hroots : ∀ root ∈ roots, root ∈ nodes) {s : State α} (hfuel : unseen nodes s < fuel) :
    ∃ s', visitAll next fuel roots s = .ok s' ∧ Leads next roots s s' :=
  foldlM_leads roots (fun root hroot s hs => visit_leads hclosed fuel root (hroots root hroot) s hs) s hfuel

/-! ## What can be reached -/

/-- No edge leaves what has been seen. -/
def Whole (next : α → List α) (seen : BTreeSet α) : Prop := ∀ a ∈ seen, ∀ b ∈ next a, b ∈ seen

theorem Whole.reaches {seen : BTreeSet α} (h : Whole next seen) {a b : α} (ha : a ∈ seen) (hpath : Reaches next a b) :
    b ∈ seen := by
  induction hpath with
  | refl => exact ha
  | tail _ hedge ih => exact h _ ih _ hedge

theorem Leads.whole {roots : List α} (h : Leads next roots s s') (hs : Whole next s.seen) : Whole next s'.seen := by
  obtain ⟨new, -, hseen, hadds, -⟩ := h
  intro a ha b hb
  rcases (hseen a).1 ha with ha | ha
  · exact (hseen b).2 (.inl (hs a ha b hb))
  · obtain ⟨i, hlt, hi⟩ := List.getElem_of_mem ha
    rcases hadds.settled i a (List.getElem?_eq_some_iff.2 ⟨hlt, hi⟩) b hb with hin | ⟨j, hj, -⟩
    · exact (hseen b).2 (.inl hin)
    · exact (hseen b).2 (.inr (List.mem_of_getElem? hj))

/-- A search from whole to whole sees what it can reach. -/
theorem Leads.mem_seen {roots : List α} (h : Leads next roots s s') (hs : Whole next s.seen) {a : α} :
    a ∈ s'.seen ↔ a ∈ s.seen ∨ ∃ root ∈ roots, Reaches next root a := by
  have hwhole := h.whole hs
  obtain ⟨new, -, hseen, -, hreach, hroots⟩ := h
  rw [hseen]
  constructor
  · exact fun ha => ha.imp_right (hreach a)
  · rintro (ha | ⟨root, hroot, hpath⟩)
    · exact .inl ha
    · exact (hseen a).1 (hwhole.reaches (hroots root hroot) hpath)

theorem whole_empty : Whole next (∅ : BTreeSet α) := fun a ha => absurd ha (by simp)

end

/-! ## The second pass -/

section
variable {α : Type} [LinearOrder α]

def collectStep (prev : α → List α) (fuel : Nat) (s : BTreeSet α × List (List α)) (root : α) :
    Except Unit (BTreeSet α × List (List α)) :=
  if s.1.contains root then .ok s
  else do
    let found ← visit prev fuel root ⟨s.1, []⟩
    return (found.seen, s.2 ++ [found.order])

def collect (prev : α → List α) (fuel : Nat) (order : List α) : Except Unit (List (List α)) :=
  (order.reverse.foldlM (collectStep prev fuel) (∅, [])).map Prod.snd

variable {next prev : α → List α} {order : List α}

/-- The groups of the nodes from `m` on. -/
structure Grouping (next prev : α → List α) (order : List α) (m : Nat) (s : BTreeSet α × List (List α)) : Prop where
  seen  : ∀ a, a ∈ s.1 ↔ a ∈ s.2.flatten
  whole : Whole prev s.1
  done  : ∀ i q, m ≤ i → order[i]? = some q → q ∈ s.1
  nodup : s.2.flatten.Nodup
  root  : ∀ c ∈ s.2, ∃ p ∈ c, p ∈ order ∧ ∀ z ∈ c, Reaches next z p ∧ (z ∈ order → Reaches next p z)
  apart : s.2.Pairwise fun c c' => ∀ v ∈ c, ∀ u ∈ c', u ∉ prev v

theorem Grouping.path {m : Nat} {s : BTreeSet α × List (List α)} (h : Grouping next prev order (m + 1) s)
    (hprev : ∀ u v, u ∈ prev v ↔ v ∈ next u) {z p : α} (hz : z ∉ s.1) (hpath : Reaches next z p) :
    p ∉ s.1 ∧ ReflTransGen (fun a b => b ∈ next a ∧ ∀ j, order[j]? = some b → j ≤ m) z p := by
  induction hpath with
  | refl => exact ⟨hz, .refl⟩
  | @tail b c _ hedge ih =>
    obtain ⟨hb, hbefore⟩ := ih
    have hc : c ∉ s.1 := fun hc => hb (h.whole c hc b ((hprev b c).2 hedge))
    refine ⟨hc, hbefore.tail ⟨hedge, fun j hj => ?_⟩⟩
    by_contra hjm
    exact hc (h.done j c (by omega) hj)

theorem Grouping.step (hadds : Adds next ∅ order) (hprev : ∀ u v, u ∈ prev v ↔ v ∈ next u) {nodes : Finset α}
    (hclosed : Closed prev nodes) {m fuel : Nat} {p : α} (hp : order[m]? = some p) (hmem : p ∈ nodes)
    (hfuel : nodes.card < fuel) {s : BTreeSet α × List (List α)} (h : Grouping next prev order (m + 1) s) :
    ∃ s', collectStep prev fuel s p = .ok s' ∧ Grouping next prev order m s' := by
  rw [collectStep]
  split
  · rename_i hseen
    refine ⟨s, rfl, h.seen, h.whole, fun i q hi hq => ?_, h.nodup, h.root, h.apart⟩
    rcases Nat.lt_or_ge m i with hmi | him
    · exact h.done i q hmi hq
    · obtain rfl : i = m := le_antisymm him hi
      rw [hp, Option.some.injEq] at hq
      rw [← hq]
      exact Std.ExtTreeSet.contains_iff_mem.1 hseen
  · rename_i hseen
    have hunseen : unseen nodes (⟨s.1, []⟩ : State α) < fuel :=
      lt_of_le_of_lt (Finset.card_le_card (Finset.filter_subset _ _)) hfuel
    obtain ⟨found, hvisit, hleads⟩ := visit_leads hclosed fuel p hmem ⟨s.1, []⟩ hunseen
    have hwhole := hleads.whole h.whole
    obtain ⟨new, horder, hafter, hnew, hreach, hroots⟩ := hleads
    rw [List.nil_append] at horder
    have hpfound := hroots p (List.mem_singleton_self p)
    have hpnew : p ∈ new :=
      ((hafter p).1 hpfound).resolve_left fun hin => hseen (Std.ExtTreeSet.contains_iff_mem.2 hin)
    have hto : ∀ z ∈ new, Reaches next z p := by
      intro z hz
      obtain ⟨root, hroot, hpath⟩ := hreach z hz
      rw [List.mem_singleton.1 hroot] at hpath
      exact (reaches_swap hprev).1 hpath
    refine ⟨(found.seen, s.2 ++ [found.order]), by rw [hvisit]; rfl, ?_, hwhole, ?_, ?_, ?_, ?_⟩
    · intro a
      rw [hafter, List.flatten_append, List.mem_append, horder, ← h.seen]
      simp
    · intro i q hi hq
      rcases Nat.lt_or_ge m i with hmi | him
      · exact (hafter q).2 (.inl (h.done i q hmi hq))
      · obtain rfl : i = m := le_antisymm him hi
        rw [hp, Option.some.injEq] at hq
        exact hq ▸ hpfound
    · rw [List.flatten_append, horder]
      simp only [List.flatten_cons, List.flatten_nil, List.append_nil]
      refine List.nodup_append.2 ⟨h.nodup, hnew.nodup, ?_⟩
      rintro a ha b hb rfl
      exact hnew.fresh a hb ((h.seen a).2 ha)
    · intro c hc
      rcases List.mem_append.1 hc with hc | hc
      · exact h.root c hc
      · rw [List.mem_singleton.1 hc, horder]
        refine ⟨p, hpnew, List.mem_of_getElem? hp, fun z hz => ⟨hto z hz, fun hin => ?_⟩⟩
        obtain ⟨i, hlt, hi⟩ := List.getElem_of_mem hin
        have hi : order[i]? = some z := List.getElem?_eq_some_iff.2 ⟨hlt, hi⟩
        have hz' : z ∉ s.1 := hnew.fresh z hz
        have him : i ≤ m := by
          by_contra him
          exact hz' (h.done i z (by omega) hi)
        exact reaches_back hadds hp (h.path hprev hz' (hto z hz)).2 i hi him i z le_rfl him hi
    · refine List.pairwise_append.2 ⟨h.apart, List.pairwise_singleton _ _, ?_⟩
      intro c hc c' hc' v hv u hu hedge
      rw [List.mem_singleton.1 hc', horder] at hu
      have hv' : v ∈ s.1 := (h.seen v).2 (List.mem_flatten.2 ⟨c, hc, hv⟩)
      exact hnew.fresh u hu (h.whole v hv' u hedge)

/-- **The second pass ends**, and groups all of the order. -/
theorem collect_groups (hadds : Adds next ∅ order) (hprev : ∀ u v, u ∈ prev v ↔ v ∈ next u) {nodes : Finset α}
    (hclosed : Closed prev nodes) (hmem : ∀ p ∈ order, p ∈ nodes) {fuel : Nat} (hfuel : nodes.card < fuel) :
    ∃ seen members, collect prev fuel order = .ok members ∧ Grouping next prev order 0 (seen, members) := by
  have hall : ∀ (front back : List α) (s : BTreeSet α × List (List α)), order = front ++ back →
      Grouping next prev order front.length s →
        ∃ s', front.reverse.foldlM (collectStep prev fuel) s = .ok s' ∧ Grouping next prev order 0 s' := by
    intro front
    induction front using List.reverseRecOn with
    | nil => exact fun back s _ h => ⟨s, rfl, h⟩
    | append_singleton front p ih =>
      intro back s horder h
      rw [List.length_append, List.length_singleton] at h
      rw [List.append_assoc, List.singleton_append] at horder
      have hp : order[front.length]? = some p := by rw [horder, ← Nat.add_zero front.length, getElem?_append_add]; rfl
      obtain ⟨s', hstep, h'⟩ := h.step hadds hprev hclosed hp (hmem p (List.mem_of_getElem? hp)) hfuel
      obtain ⟨s'', hmore, h''⟩ := ih (p :: back) s' horder h'
      refine ⟨s'', ?_, h''⟩
      rw [List.reverse_append, List.reverse_singleton, List.singleton_append, List.foldlM_cons, hstep]
      exact hmore
  have hfirst : Grouping next prev order order.length (∅, []) := by
    refine ⟨by simp, whole_empty, fun i q hi hq => ?_, by simp, by simp, by simp⟩
    rw [List.getElem?_eq_none hi] at hq
    cases hq
  obtain ⟨⟨seen, members⟩, hfold, h⟩ := hall order [] _ (List.append_nil _).symm hfirst
  refine ⟨seen, members, ?_, h⟩
  rw [collect, hfold]
  rfl

/-! ## Groups are components -/

section
variable {seen : BTreeSet α} {members : List (List α)} (h : Grouping next prev order 0 (seen, members))
include h

theorem Grouping.index_unique {i j : Nat} {c c' : List α} {a : α} (hi : members[i]? = some c)
    (hj : members[j]? = some c') (ha : a ∈ c) (ha' : a ∈ c') : i = j := DepthFirst.index_unique h.nodup hi hj ha ha'

theorem Grouping.exists_group {p : α} (hp : p ∈ order) : ∃ (i : Nat) (c : List α), members[i]? = some c ∧ p ∈ c := by
  obtain ⟨k, hlt, hk⟩ := List.getElem_of_mem hp
  have hseen := h.done k p (Nat.zero_le k) (List.getElem?_eq_some_iff.2 ⟨hlt, hk⟩)
  obtain ⟨c, hc, hpc⟩ := List.mem_flatten.1 ((h.seen p).1 hseen)
  obtain ⟨i, hi⟩ := List.getElem?_of_mem hc
  exact ⟨i, c, hi, hpc⟩

/-- An edge goes to the same group or to a later one, -/
theorem Grouping.edge_le {i j : Nat} {c c' : List α} {u v : α} (hprev : ∀ u v, u ∈ prev v ↔ v ∈ next u)
    (hi : members[i]? = some c) (hj : members[j]? = some c') (hu : u ∈ c) (hv : v ∈ c') (hedge : v ∈ next u) :
    i ≤ j := by
  by_contra hlt
  obtain ⟨hli, rfl⟩ := List.getElem?_eq_some_iff.1 hi
  obtain ⟨hlj, rfl⟩ := List.getElem?_eq_some_iff.1 hj
  exact List.pairwise_iff_getElem.1 h.apart j i hlj hli (by omega) v hv u hu ((hprev u v).2 hedge)

/-- and so does a path. -/
theorem Grouping.path_le {j : Nat} {c' : List α} {u v : α} (hprev : ∀ u v, u ∈ prev v ↔ v ∈ next u)
    (hj : members[j]? = some c') (hv : v ∈ c') (hpath : Reaches next u v) :
    ∀ (i : Nat) (c : List α), members[i]? = some c → u ∈ c → i ≤ j := by
  induction hpath using ReflTransGen.head_induction_on with
  | refl => exact fun i c hi hu => (h.index_unique hi hj hu hv).le
  | head hedge hpath ih =>
    intro i c hi hu
    have hseen := h.whole.reaches ((h.seen v).2 (List.mem_flatten.2 ⟨c', List.mem_of_getElem? hj, hv⟩))
      ((reaches_swap hprev).2 hpath)
    obtain ⟨b, hb, hmem⟩ := List.mem_flatten.1 ((h.seen _).1 hseen)
    obtain ⟨k, hk⟩ := List.getElem?_of_mem hb
    exact (h.edge_le hprev hi hk hu hmem hedge).trans (ih k b hk hmem)

/-- **Two nodes of the order are in one group** iff each can be reached from the other. -/
theorem Grouping.same_iff {i j : Nat} {c c' : List α} {u v : α} (hprev : ∀ u v, u ∈ prev v ↔ v ∈ next u)
    (hi : members[i]? = some c) (hj : members[j]? = some c') (hu : u ∈ c) (hv : v ∈ c') (huo : u ∈ order)
    (hvo : v ∈ order) : i = j ↔ Reaches next u v ∧ Reaches next v u := by
  constructor
  · rintro rfl
    rw [hi, Option.some.injEq] at hj
    subst hj
    obtain ⟨p, -, -, hp⟩ := h.root c (List.mem_of_getElem? hi)
    exact ⟨(hp u hu).1.trans ((hp v hv).2 hvo), (hp v hv).1.trans ((hp u hu).2 huo)⟩
  · rintro ⟨hto, hback⟩
    exact le_antisymm (h.path_le hprev hj hv hto i c hi hu) (h.path_le hprev hi hu hback j c' hj hv)

end

end

end DepthFirst
