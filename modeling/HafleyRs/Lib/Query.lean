import Mathlib

/-!
# Joins and groups of rows

Rows are multisets. `join` and `leftJoin` pair the rows of two tables, and `groups` is `GROUP BY` with
`ORDER BY` the same key. A selection on the key of a group can be made before the grouping or after it
(`groups_filter`), one on the left of a join before the join or after it (`leftJoin_filter`), and rows on the
right that no row on the left meets can be left out (`leftJoin_restrict`).
-/

namespace Query

variable {A B K : Type}

section joins
variable (on : A → B → Prop) [DecidableRel on]

def join (as : Multiset A) (bs : Multiset B) : Multiset (A × B) :=
  as.bind fun a => (bs.filter (on a)).map fun b => (a, b)

/-- The matches of a row, or the row alone. -/
def matchesOf (bs : Multiset B) (a : A) : Multiset (Option B) :=
  if (bs.filter (on a)).card = 0 then {none} else (bs.filter (on a)).map some

def leftJoin (as : Multiset A) (bs : Multiset B) : Multiset (A × Option B) :=
  as.bind fun a => (matchesOf on bs a).map fun b => (a, b)

variable {on} {as : Multiset A} {bs : Multiset B}

theorem mem_join {p : A × B} : p ∈ join on as bs ↔ p.1 ∈ as ∧ p.2 ∈ bs ∧ on p.1 p.2 := by
  obtain ⟨a, b⟩ := p
  rw [join, Multiset.mem_bind]
  constructor
  · rintro ⟨a', ha, hb⟩
    obtain ⟨b', hb', heq⟩ := Multiset.mem_map.1 hb
    obtain ⟨rfl, rfl⟩ := Prod.mk.inj heq
    exact ⟨ha, (Multiset.mem_filter.1 hb').1, (Multiset.mem_filter.1 hb').2⟩
  · rintro ⟨ha, hb, hon⟩
    exact ⟨a, ha, Multiset.mem_map.2 ⟨b, Multiset.mem_filter.2 ⟨hb, hon⟩, rfl⟩⟩

theorem mem_leftJoin {p : A × Option B} : p ∈ leftJoin on as bs ↔ p.1 ∈ as ∧ p.2 ∈ matchesOf on bs p.1 := by
  obtain ⟨a, b⟩ := p
  rw [leftJoin, Multiset.mem_bind]
  constructor
  · rintro ⟨a', ha, hb⟩
    obtain ⟨b', hb', heq⟩ := Multiset.mem_map.1 hb
    obtain ⟨rfl, rfl⟩ := Prod.mk.inj heq
    exact ⟨ha, hb'⟩
  · rintro ⟨ha, hb⟩
    exact ⟨a, ha, Multiset.mem_map.2 ⟨b, hb, rfl⟩⟩

theorem some_mem_matchesOf {a : A} {b : B} : some b ∈ matchesOf on bs a ↔ b ∈ bs ∧ on a b := by
  unfold matchesOf
  by_cases hnone : (bs.filter (on a)).card = 0
  · rw [if_pos hnone, Multiset.mem_singleton]
    refine iff_of_false (by simp) fun h => ?_
    exact Multiset.eq_zero_iff_forall_notMem.1 (Multiset.card_eq_zero.1 hnone) b (Multiset.mem_filter.2 h)
  · rw [if_neg hnone, Multiset.mem_map_of_injective (Option.some_injective B), Multiset.mem_filter]

theorem matchesOf_nodup (h : bs.Nodup) (a : A) : (matchesOf on bs a).Nodup := by
  unfold matchesOf
  split
  · exact Multiset.nodup_singleton _
  · exact (h.filter _).map (Option.some_injective _)

theorem leftJoin_nodup (ha : as.Nodup) (hb : bs.Nodup) : (leftJoin on as bs).Nodup := by
  rw [leftJoin, Multiset.nodup_bind]
  refine ⟨fun a _ => (matchesOf_nodup hb a).map (Prod.mk_right_injective a), ?_⟩
  refine ha.pairwise fun a _ a' _ hne => Multiset.disjoint_left.2 fun {r} hr hr' => hne ?_
  obtain ⟨b, -, rfl⟩ := Multiset.mem_map.1 hr
  obtain ⟨b', -, heq⟩ := Multiset.mem_map.1 hr'
  exact (congrArg Prod.fst heq).symm

theorem leftJoin_filter (p : A → Prop) [DecidablePred p] :
    leftJoin on (as.filter p) bs = (leftJoin on as bs).filter fun r => p r.1 := by
  rw [leftJoin, leftJoin, Multiset.bind_filter, Multiset.filter_bind]
  refine Multiset.bind_congr fun a _ => ?_
  by_cases ha : p a
  · rw [if_pos ha, Multiset.filter_eq_self.2]
    intro r hr
    obtain ⟨b, -, rfl⟩ := Multiset.mem_map.1 hr
    exact ha
  · rw [if_neg ha, eq_comm, Multiset.filter_eq_nil]
    intro r hr
    obtain ⟨b, -, rfl⟩ := Multiset.mem_map.1 hr
    exact ha

theorem leftJoin_restrict (q : B → Prop) [DecidablePred q] (hq : ∀ a ∈ as, ∀ b, on a b → q b) :
    leftJoin on as (bs.filter q) = leftJoin on as bs := by
  refine Multiset.bind_congr fun a ha => ?_
  have hsame : (bs.filter q).filter (on a) = bs.filter (on a) := by
    rw [Multiset.filter_filter]
    exact Multiset.filter_congr fun b _ => ⟨fun h => h.1, fun h => ⟨h, hq a ha b h⟩⟩
  rw [matchesOf, matchesOf, hsame]

end joins

section groups
variable [LinearOrder K] (key : A → K)

/-- The groups of a key, by rising key. -/
def groups (as : Multiset A) : List (K × Multiset A) :=
  ((as.map key).toFinset.sort (· ≤ ·)).map fun k => (k, as.filter fun a => key a = k)

theorem sort_filter (s : Finset K) (p : K → Prop) [DecidablePred p] :
    (s.filter p).sort (· ≤ ·) = (s.sort (· ≤ ·)).filter (fun k => decide (p k)) := by
  have hsorted : ((s.sort (· ≤ ·)).filter fun k => decide (p k)).Pairwise (· ≤ ·) := (Finset.pairwise_sort s _).filter _
  refine List.Perm.eq_of_pairwise (fun a b _ _ => le_antisymm) (Finset.pairwise_sort _ _) hsorted ?_
  refine (List.perm_ext_iff_of_nodup (Finset.sort_nodup _ _) ((Finset.sort_nodup s _).filter _)).2 fun k => ?_
  rw [Finset.mem_sort, Finset.mem_filter, List.mem_filter, Finset.mem_sort, decide_eq_true_eq]

variable {key} {as : Multiset A}

theorem groups_filter (p : K → Prop) [DecidablePred p] :
    groups key (as.filter fun a => p (key a)) = (groups key as).filter fun g => decide (p g.1) := by
  have hkeys : ((as.filter fun a => p (key a)).map key).toFinset = ((as.map key).toFinset).filter p := by
    ext k
    simp only [Multiset.mem_toFinset, Multiset.mem_map, Multiset.mem_filter, Finset.mem_filter]
    constructor
    · rintro ⟨a, ⟨ha, hp⟩, rfl⟩
      exact ⟨⟨a, ha, rfl⟩, hp⟩
    · rintro ⟨⟨a, ha, rfl⟩, hp⟩
      exact ⟨a, ⟨ha, hp⟩, rfl⟩
  rw [groups, groups, hkeys, sort_filter, List.filter_map]
  refine List.map_congr_left fun k hk => ?_
  have hpk : p k := of_decide_eq_true (List.mem_filter.1 hk).2
  rw [Multiset.filter_filter]
  exact congrArg (Prod.mk k) (Multiset.filter_congr fun a _ => ⟨fun h => h.1, fun h => ⟨h, h ▸ hpk⟩⟩)

/-- Keys all different: every group is one row. -/
theorem groups_of_nodup (h : (as.map key).Nodup) :
    (groups key as : Multiset (K × Multiset A)) = as.map fun a => (key a, {a}) := by
  have hkeys : (((as.map key).toFinset.sort (· ≤ ·) : List K) : Multiset K) = as.map key := by
    rw [Finset.sort_eq, Multiset.toFinset_val, Multiset.dedup_eq_self.2 h]
  rw [groups, ← Multiset.map_coe, hkeys, Multiset.map_map]
  refine Multiset.map_congr rfl fun a ha => congrArg (Prod.mk (key a)) ?_
  refine (Multiset.Nodup.ext ((h.of_map key).filter _) (Multiset.nodup_singleton a)).2 fun b => ?_
  rw [Multiset.mem_filter, Multiset.mem_singleton]
  constructor
  · rintro ⟨hb, hkey⟩
    exact Multiset.inj_on_of_nodup_map h b hb a ha hkey
  · rintro rfl
    exact ⟨ha, rfl⟩

end groups

end Query
