import HafleyRs.SprefaExtract.Strata

/-!
# The depth of a component

The sweep takes a component when all it depends on have a depth (`Sweeping`). Edges go one way between components
(`Numbered.rank`), so it comes to each, no index is missing, and the depths are a layering of the components
(`componentDepths_layers`). Along paths that makes them one of the files, up to the largest depth there is
(`strata_layered_iff`).
-/

namespace SprefaExtract.Strata
open Layers

/-- One component has an edge to another. -/
def DependsOn (components : BTreeMap String Nat) (edges : List Edge) (i j : Nat) : Prop :=
  i ≠ j ∧ ∃ p q, (⟨p, q⟩ : Edge) ∈ edges ∧ components[p]? = some i ∧ components[q]? = some j

/-! ## The two maps -/

structure Linked (deps parents : BTreeMap Nat (BTreeSet Nat)) (dep : Nat → Nat → Prop) : Prop where
  mem_deps    : ∀ (i : Nat) (s : BTreeSet Nat), deps[i]? = some s → ∀ j, j ∈ s ↔ dep i j
  within      : ∀ i j : Nat, dep i j → deps[i]?.isSome ∧ deps[j]?.isSome
  mem_parents : ∀ j : Nat, deps[j]?.isSome → ∃ s : BTreeSet Nat, parents[j]? = some s ∧ ∀ i, i ∈ s ↔ dep i j

section
variable {components : BTreeMap String Nat} {edges : List Edge}

theorem mem_crossings {a b : Nat} : (a, b) ∈ crossings components edges ↔ DependsOn components edges a b := by
  rw [crossings, List.mem_filterMap, DependsOn]
  constructor
  · rintro ⟨⟨p, q⟩, hedge, heq⟩
    split at heq
    · rename_i hp hq
      split at heq
      · rename_i hne
        cases heq
        exact ⟨hne, p, q, hedge, hp, hq⟩
      · cases heq
    · cases heq
  · rintro ⟨hne, p, q, hedge, hp, hq⟩
    refine ⟨_, hedge, ?_⟩
    simp only [hp, hq]
    rw [if_pos hne]

theorem mem_numbers {i : Nat} : i ∈ components.toList.map Prod.snd ↔ ∃ p : String, components[p]? = some i := by
  constructor
  · intro h
    obtain ⟨⟨p, i⟩, hp, rfl⟩ := List.mem_map.1 h
    exact ⟨p, BTreeMap.mem_toList.1 hp⟩
  · rintro ⟨p, hp⟩
    exact List.mem_map.2 ⟨(p, i), BTreeMap.mem_toList.2 hp, rfl⟩

theorem dependencies_isSome {i : Nat} :
    (dependencies components edges)[i]?.isSome ↔ ∃ p : String, components[p]? = some i := by
  rw [dependencies, linked_isSome, mem_numbers]
  refine ⟨fun h => h.elim id ?_, .inl⟩
  rintro ⟨⟨a, b⟩, hlink, rfl⟩
  obtain ⟨-, p, q, -, hp, -⟩ := mem_crossings.1 hlink
  exact ⟨p, hp⟩

theorem linked_dependencies (components : BTreeMap String Nat) (edges : List Edge) :
    Linked (dependencies components edges) (dependents (dependencies components edges))
      (DependsOn components edges) := by
  have hdeps : ∀ (i : Nat) (s : BTreeSet Nat), (dependencies components edges)[i]? = some s →
      ∀ j, j ∈ s ↔ DependsOn components edges i j := by
    intro i s hs j
    rw [mem_linked hs, ← mem_crossings]
    constructor
    · rintro ⟨⟨a, b⟩, hlink, rfl, rfl⟩
      exact hlink
    · exact fun hlink => ⟨_, hlink, rfl, rfl⟩
  have hwithin : ∀ i j : Nat, DependsOn components edges i j →
      (dependencies components edges)[i]?.isSome ∧ (dependencies components edges)[j]?.isSome := by
    rintro i j ⟨-, p, q, -, hp, hq⟩
    exact ⟨dependencies_isSome.2 ⟨p, hp⟩, dependencies_isSome.2 ⟨q, hq⟩⟩
  refine ⟨hdeps, hwithin, fun j hj => ?_⟩
  have hsome : (dependents (dependencies components edges))[j]?.isSome := by
    rw [dependents, linked_isSome, BTreeMap.mem_keys]
    exact .inl hj
  obtain ⟨s, hs⟩ := Option.isSome_iff_exists.1 hsome
  refine ⟨s, hs, fun i => ?_⟩
  rw [mem_linked hs]
  constructor
  · rintro ⟨⟨a, b⟩, hlink, rfl, rfl⟩
    obtain ⟨⟨i, t⟩, ht, hmem⟩ := List.mem_flatMap.1 hlink
    obtain ⟨j, hjt, heq⟩ := List.mem_map.1 hmem
    cases heq
    exact (hdeps _ t (BTreeMap.mem_toList.1 ht) _).1 (BTreeSet.mem_toList.1 hjt)
  · intro hdep
    obtain ⟨t, ht⟩ := Option.isSome_iff_exists.1 (hwithin i j hdep).1
    refine ⟨(j, i), List.mem_flatMap.2 ⟨(i, t), BTreeMap.mem_toList.2 ht, ?_⟩, rfl, rfl⟩
    exact List.mem_map.2 ⟨j, BTreeSet.mem_toList.2 ((hdeps i t ht j).2 hdep), rfl⟩

end

/-! ## One round -/

theorem index_some {K V : Type} [LinearOrder K] {m : BTreeMap K V} {k : K} {v : V} (h : m[k]? = some v) :
    index m k = .ok v := by
  rw [index, h]

/-- Each parent's count falls by one, and those at zero are queued. -/
theorem foldlM_settle (parents : List Nat) (hnodup : parents.Nodup) (queue : BTreeSet Nat)
    (remaining : BTreeMap Nat Nat) (h : ∀ p ∈ parents, ∃ n, remaining[p]? = some (n + 1)) :
    ∃ queue' remaining', parents.foldlM settle (queue, remaining) = .ok (queue', remaining') ∧
      (∀ k : Nat, remaining'[k]? = if k ∈ parents then remaining[k]?.map (· - 1) else remaining[k]?) ∧
      ∀ k : Nat, k ∈ queue' ↔ k ∈ queue ∨ k ∈ parents ∧ remaining[k]? = some 1 := by
  induction parents generalizing queue remaining with
  | nil => exact ⟨queue, remaining, rfl, by simp, by simp⟩
  | cons p parents ih =>
    obtain ⟨hp, hparents⟩ := List.nodup_cons.1 hnodup
    obtain ⟨n, hn⟩ := h p List.mem_cons_self
    have hother : ∀ k : Nat, k ≠ p → (remaining.insert p n)[k]? = remaining[k]? := by
      intro k hk
      rw [BTreeMap.getElem?_insert, if_neg (Ne.symm hk)]
    have hne : ∀ k ∈ parents, k ≠ p := fun k hk heq => hp (heq ▸ hk)
    obtain ⟨queue', remaining', hfold, hremaining, hqueue⟩ :=
      ih hparents (if n = 0 then queue.insert p else queue) (remaining.insert p n) (fun k hk => by
        rw [hother k (hne k hk)]
        exact h k (List.mem_cons_of_mem _ hk))
    refine ⟨queue', remaining', ?_, fun k => ?_, fun k => ?_⟩
    · rw [List.foldlM_cons, settle]
      simp only [index_some hn]
      exact hfold
    · rw [hremaining]
      by_cases hkp : k = p
      · subst hkp
        simp [hp, hn]
      · rw [hother k hkp]
        simp [hkp]
    · rw [hqueue]
      by_cases hkp : k = p
      · subst hkp
        by_cases hzero : n = 0
        · simp [hp, hn, hzero]
        · simp [hp, hn, hzero]
      · have hset : k ∈ (if n = 0 then queue.insert p else queue) ↔ k ∈ queue := by
          split
          · rw [BTreeSet.mem_insert]
            exact or_iff_right (Ne.symm hkp)
          · exact Iff.rfl
        rw [hset, hother k hkp]
        simp [hkp]

/-- A depth is zero, or one above one of those it depends on, and above all of them. -/
def Sits (dep : Nat → Nat → Prop) (depths : BTreeMap Nat Nat) (i d : Nat) : Prop :=
  (d = 0 ∨ ∃ j e, dep i j ∧ depths[j]? = some e ∧ d = up depthCap e) ∧
    ∀ j, dep i j → ∃ e, depths[j]? = some e ∧ up depthCap e ≤ d

/-- How many of them have no depth yet. -/
def missing (depths : BTreeMap Nat Nat) (ids : List Nat) : Nat := (ids.filter fun j => depths[j]?.isNone).length

structure Sweeping (deps : BTreeMap Nat (BTreeSet Nat)) (dep : Nat → Nat → Prop) (s : Sweep) : Prop where
  within    : ∀ (i d : Nat), s.depths[i]? = some d → deps[i]?.isSome
  sits      : ∀ (i d : Nat), s.depths[i]? = some d → Sits dep s.depths i d
  remaining : ∀ (i : Nat) (t : BTreeSet Nat), deps[i]? = some t → s.remaining[i]? = some (missing s.depths t.toList)
  queue     : ∀ i : Nat, i ∈ s.queue ↔ deps[i]?.isSome ∧ s.depths[i]? = none ∧ ∀ j, dep i j → s.depths[j]?.isSome

section
variable {deps parents : BTreeMap Nat (BTreeSet Nat)} {dep : Nat → Nat → Prop}

theorem missing_eq_zero {depths : BTreeMap Nat Nat} {ids : List Nat} :
    missing depths ids = 0 ↔ ∀ j ∈ ids, depths[j]?.isSome := by
  rw [missing, List.length_eq_zero_iff, List.filter_eq_nil_iff]
  simp only [Option.isNone_iff_eq_none, ← Option.ne_none_iff_isSome, ne_eq]

theorem missing_insert {depths : BTreeMap Nat Nat} {ids : List Nat} (hnodup : ids.Nodup) {id d : Nat}
    (hnone : depths[id]? = none) :
    missing (depths.insert id d) ids = if id ∈ ids then missing depths ids - 1 else missing depths ids := by
  have hfilter : (ids.filter fun j => (depths.insert id d)[j]?.isNone) =
      (ids.filter fun j => depths[j]?.isNone).erase id := by
    rw [(hnodup.filter _).erase_eq_filter, List.filter_filter]
    refine List.filter_congr fun j _ => ?_
    rw [BTreeMap.getElem?_insert]
    by_cases hj : id = j
    · simp [hj]
    · simp [hj, Ne.symm hj]
  have hmem : id ∈ (ids.filter fun j => depths[j]?.isNone) ↔ id ∈ ids := by
    rw [List.mem_filter]
    simp [hnone]
  rw [missing, hfilter, List.length_erase, missing]
  by_cases hid : id ∈ ids
  · rw [if_pos (hmem.2 hid), if_pos hid]
  · rw [if_neg fun h => hid (hmem.1 h), if_neg hid]

theorem Sits.insert {depths : BTreeMap Nat Nat} {i d id n : Nat} (h : Sits dep depths i d)
    (hnone : depths[id]? = none) :
    Sits dep (depths.insert id n) i d := by
  have hkeep : ∀ (j e : Nat), depths[j]? = some e → (depths.insert id n)[j]? = some e := by
    intro j e he
    rw [BTreeMap.getElem?_insert, if_neg]
    · exact he
    · rintro rfl
      rw [hnone] at he
      cases he
  refine ⟨h.1.imp_right ?_, fun j hj => ?_⟩
  · rintro ⟨j, e, hj, he, heq⟩
    exact ⟨j, e, hj, hkeep j e he, heq⟩
  · obtain ⟨e, he, hle⟩ := h.2 j hj
    exact ⟨e, hkeep j e he, hle⟩

/-- The largest of the steps is where a component sits. -/
theorem sits_max {depths : BTreeMap Nat Nat} {t : BTreeSet Nat} {i : Nat} (ht : ∀ j, j ∈ t ↔ dep i j)
    (hall : ∀ j, dep i j → depths[j]?.isSome) : ∃ steps,
      (t.toList.mapM fun j => (index depths j).map (up depthCap)) = .ok steps ∧
        Sits dep depths i (steps.max?.getD 0) := by
  have hsteps : (t.toList.mapM fun j => (index depths j).map (up depthCap)) =
      .ok (t.toList.map fun j => up depthCap (depths[j]?.getD 0)) := by
    have hlist : ∀ l : List Nat, (∀ j ∈ l, depths[j]?.isSome) →
        (l.mapM fun j => (index depths j).map (up depthCap)) =
          .ok (l.map fun j => up depthCap (depths[j]?.getD 0)) := by
      intro l
      induction l with
      | nil => exact fun _ => rfl
      | cons j l ih =>
        intro h
        obtain ⟨hj, hl⟩ := List.forall_mem_cons.1 h
        obtain ⟨e, he⟩ := Option.isSome_iff_exists.1 hj
        rw [List.mapM_cons, index_some he, ih hl]
        simp [he]
        rfl
    exact hlist _ fun j hj => hall j ((ht j).1 (BTreeSet.mem_toList.1 hj))
  refine ⟨_, hsteps, ?_, fun j hj => ?_⟩
  · cases hmax : (t.toList.map fun j => up depthCap (depths[j]?.getD 0)).max? with
    | none => exact .inl rfl
    | some m =>
      obtain ⟨j, hj, rfl⟩ := List.mem_map.1 (List.max?_mem hmax)
      have hdep := (ht j).1 (BTreeSet.mem_toList.1 hj)
      obtain ⟨e, he⟩ := Option.isSome_iff_exists.1 (hall j hdep)
      refine .inr ⟨j, e, hdep, he, ?_⟩
      rw [Option.getD_some, he, Option.getD_some]
  · obtain ⟨e, he⟩ := Option.isSome_iff_exists.1 (hall j hj)
    have hin : up depthCap e ∈ t.toList.map fun j => up depthCap (depths[j]?.getD 0) :=
      List.mem_map.2 ⟨j, BTreeSet.mem_toList.2 ((ht j).2 hj), by rw [he, Option.getD_some]⟩
    obtain ⟨m, hm⟩ := Option.isSome_iff_exists.1 (List.isSome_max?_of_mem hin)
    refine ⟨e, he, ?_⟩
    rw [hm, Option.getD_some]
    exact (List.max?_eq_some_iff.1 hm).2 _ hin

/-! ## The sweep -/

/-- When a component gets its depth and its parents' counts fall, the sweep goes on as before. -/
theorem Sweeping.settled (hlinked : Linked deps parents dep) {s : Sweep} (h : Sweeping deps dep s) {id d : Nat}
    (hid : id ∈ s.queue) (hsits : Sits dep s.depths id d) {queue : BTreeSet Nat} {remaining : BTreeMap Nat Nat}
    {above : BTreeSet Nat} (habove : ∀ i, i ∈ above ↔ dep i id)
    (hremaining : ∀ k : Nat, remaining[k]? = if k ∈ above.toList then s.remaining[k]?.map (· - 1) else s.remaining[k]?)
    (hqueue : ∀ k : Nat, k ∈ queue ↔ k ∈ s.queue.erase id ∨ k ∈ above.toList ∧ s.remaining[k]? = some 1) :
    Sweeping deps dep ⟨queue, remaining, s.depths.insert id d⟩ := by
  obtain ⟨hsome, hnone, hall⟩ := (h.queue id).1 hid
  have hfalls : ∀ (i : Nat) (t : BTreeSet Nat), deps[i]? = some t → dep i id →
      missing (s.depths.insert id d) t.toList = missing s.depths t.toList - 1 := by
    intro i t ht hdep
    rw [missing_insert (BTreeSet.toList_nodup t) hnone, if_pos]
    exact BTreeSet.mem_toList.2 ((hlinked.mem_deps i t ht id).2 hdep)
  have hstays : ∀ (i : Nat) (t : BTreeSet Nat), deps[i]? = some t → ¬dep i id →
      missing (s.depths.insert id d) t.toList = missing s.depths t.toList := by
    intro i t ht hdep
    rw [missing_insert (BTreeSet.toList_nodup t) hnone, if_neg]
    exact fun hin => hdep ((hlinked.mem_deps i t ht id).1 (BTreeSet.mem_toList.1 hin))
  have hget : ∀ i : Nat, i ≠ id → (s.depths.insert id d)[i]? = s.depths[i]? := by
    intro i hi
    rw [BTreeMap.getElem?_insert, if_neg (Ne.symm hi)]
  have hself : (s.depths.insert id d)[id]? = some d := by rw [BTreeMap.getElem?_insert, if_pos rfl]
  have hzero : ∀ (i : Nat) (t : BTreeSet Nat), deps[i]? = some t →
      (missing (s.depths.insert id d) t.toList = 0 ↔ ∀ j, dep i j → (s.depths.insert id d)[j]?.isSome) := by
    intro i t ht
    rw [missing_eq_zero]
    exact forall_congr' fun j => imp_congr_left (BTreeSet.mem_toList.trans (hlinked.mem_deps i t ht j))
  refine ⟨fun i e he => ?_, fun i e he => ?_, fun i t ht => ?_, fun i => ?_⟩
  · by_cases hi : i = id
    · rw [hi]
      exact hsome
    · rw [hget i hi] at he
      exact h.within i e he
  · by_cases hi : i = id
    · subst hi
      rw [hself, Option.some.injEq] at he
      rw [← he]
      exact hsits.insert hnone
    · rw [hget i hi] at he
      exact (h.sits i e he).insert hnone
  · rw [hremaining, h.remaining i t ht]
    by_cases hdep : dep i id
    · rw [if_pos (BTreeSet.mem_toList.2 ((habove i).2 hdep)), hfalls i t ht hdep]
      rfl
    · rw [if_neg fun hin => hdep ((habove i).1 (BTreeSet.mem_toList.1 hin)), hstays i t ht hdep]
  · rw [hqueue, Std.ExtTreeSet.mem_erase, Ne, compare_eq_iff_eq, BTreeSet.mem_toList, habove]
    constructor
    · rintro (⟨hne, hi⟩ | ⟨hdep, hone⟩)
      · obtain ⟨hkey, hdepth, hready⟩ := (h.queue i).1 hi
        refine ⟨hkey, by rw [hget i (Ne.symm hne)]; exact hdepth, fun j hj => ?_⟩
        by_cases hjid : j = id
        · rw [hjid, hself]
          rfl
        · rw [hget j hjid]
          exact hready j hj
      · obtain ⟨t, ht⟩ := Option.isSome_iff_exists.1 (hlinked.within i id hdep).1
        have hcount := h.remaining i t ht
        rw [hone, Option.some.injEq] at hcount
        -- a component with a depth does not depend on one without
        have hdepth : s.depths[i]? = none := by
          by_contra hin
          obtain ⟨e, he⟩ := Option.ne_none_iff_exists'.1 hin
          obtain ⟨e', he', -⟩ := (h.sits i e he).2 id hdep
          rw [hnone] at he'
          cases he'
        have hne : i ≠ id := by
          rintro rfl
          have := hall i hdep
          rw [hnone] at this
          cases this
        refine ⟨by rw [ht]; rfl, by rw [hget i hne]; exact hdepth, (hzero i t ht).1 ?_⟩
        rw [hfalls i t ht hdep]
        omega
    · rintro ⟨hkey, hdepth, hready⟩
      have hne : i ≠ id := by
        rintro rfl
        rw [hself] at hdepth
        cases hdepth
      rw [hget i hne] at hdepth
      obtain ⟨t, ht⟩ := Option.isSome_iff_exists.1 hkey
      by_cases hdep : dep i id
      · refine .inr ⟨hdep, ?_⟩
        have hnow := (hzero i t ht).2 hready
        have hbefore : missing s.depths t.toList ≠ 0 := by
          intro hcount
          have := missing_eq_zero.1 hcount id (BTreeSet.mem_toList.2 ((hlinked.mem_deps i t ht id).2 hdep))
          rw [hnone] at this
          cases this
        rw [hfalls i t ht hdep] at hnow
        rw [h.remaining i t ht]
        exact congrArg some (by omega)
      · refine .inl ⟨Ne.symm hne, (h.queue i).2 ⟨hkey, hdepth, fun j hj => ?_⟩⟩
        have := hready j hj
        rwa [hget j fun heq => hdep (heq ▸ hj)] at this

/-- What the sweep ends with: a depth for every component. -/
def Swept (deps : BTreeMap Nat (BTreeSet Nat)) (dep : Nat → Nat → Prop) (r : Except Unit (BTreeMap Nat Nat)) : Prop :=
  ∃ depths, r = .ok depths ∧ (∀ i : Nat, deps[i]?.isSome ↔ depths[i]?.isSome) ∧
    ∀ (i d : Nat), depths[i]? = some d → Sits dep depths i d

/-- Nothing is left when the queue is empty. -/
theorem Sweeping.complete (hlinked : Linked deps parents dep) {rank : Nat → Nat}
    (hrank : ∀ i j, dep i j → rank i < rank j) {s : Sweep} (h : Sweeping deps dep s) (hempty : s.queue.toList = [])
    {i : Nat} (hi : deps[i]?.isSome) : s.depths[i]?.isSome := by
  by_contra hnone
  have hmem : ∀ k : Nat, k ∈ (deps.keys.filter fun k => s.depths[k]?.isNone).toFinset ↔
      deps[k]?.isSome ∧ s.depths[k]? = none := by
    intro k
    rw [List.mem_toFinset, List.mem_filter, BTreeMap.mem_keys, Option.isNone_iff_eq_none]
  obtain ⟨k, hk, hmax⟩ := Finset.exists_max_image _ rank ⟨i, (hmem i).2 ⟨hi, by simpa using hnone⟩⟩
  obtain ⟨hkey, hdepth⟩ := (hmem k).1 hk
  have hout : k ∉ s.queue := fun hin => by simpa [hempty] using BTreeSet.mem_toList.2 hin
  have hwaits : ∃ j, dep k j ∧ s.depths[j]? = none := by
    by_contra hno
    refine hout ((h.queue k).2 ⟨hkey, hdepth, fun j hj => ?_⟩)
    by_contra hj'
    exact hno ⟨j, hj, by simpa using hj'⟩
  obtain ⟨j, hj, hjnone⟩ := hwaits
  have hle := hmax j ((hmem j).2 ⟨(hlinked.within k j hj).2, hjnone⟩)
  exact absurd (hrank k j hj) (by omega)

theorem turn_fine (hlinked : Linked deps parents dep) {rank : Nat → Nat} (hrank : ∀ i j, dep i j → rank i < rank j)
    (s : Sweep) (h : Sweeping deps dep s) : Loop.Fine (Sweeping deps dep) (fun s => missing s.depths deps.keys)
      (fun _ => Swept deps dep) s (turn deps parents s) := by
  rw [turn]
  cases hmin : s.queue.toList.head? with
  | none =>
    have hempty := List.head?_eq_none_iff.1 hmin
    refine ⟨s.depths, rfl, fun i => ⟨h.complete hlinked hrank hempty, fun hi => ?_⟩, h.sits⟩
    obtain ⟨d, hd⟩ := Option.isSome_iff_exists.1 hi
    exact h.within i d hd
  | some id =>
    have hid := BTreeSet.mem_toList.1 (List.mem_of_head? hmin)
    obtain ⟨hsome, hnone, hall⟩ := (h.queue id).1 hid
    obtain ⟨t, ht⟩ := Option.isSome_iff_exists.1 hsome
    obtain ⟨above, hgetabove, habove⟩ := hlinked.mem_parents id hsome
    obtain ⟨steps, hsteps, hsits⟩ := sits_max (hlinked.mem_deps id t ht) hall
    have hcounts : ∀ p ∈ above.toList, ∃ n, s.remaining[p]? = some (n + 1) := by
      intro p hp
      have hdep := (habove p).1 (BTreeSet.mem_toList.1 hp)
      obtain ⟨t', ht'⟩ := Option.isSome_iff_exists.1 (hlinked.within p id hdep).1
      have hpos : missing s.depths t'.toList ≠ 0 := by
        intro hzero
        have := missing_eq_zero.1 hzero id (BTreeSet.mem_toList.2 ((hlinked.mem_deps p t' ht' id).2 hdep))
        rw [hnone] at this
        cases this
      obtain ⟨n, hn⟩ := Nat.exists_eq_succ_of_ne_zero hpos
      exact ⟨n, by rw [h.remaining p t' ht', hn]⟩
    obtain ⟨queue, remaining, hfold, hremaining, hqueue⟩ :=
      foldlM_settle above.toList (BTreeSet.toList_nodup above) (s.queue.erase id) s.remaining hcounts
    simp only [index_some ht, index_some hgetabove, hsteps, hfold, bind, Except.bind, pure, Except.pure]
    refine ⟨h.settled hlinked hid hsits habove hremaining hqueue, ?_, fun r hr => hr⟩
    change missing (s.depths.insert id _) deps.keys < missing s.depths deps.keys
    rw [missing_insert (BTreeMap.keys_nodup deps) hnone, if_pos (BTreeMap.mem_keys.2 hsome)]
    have hpos : missing s.depths deps.keys ≠ 0 := by
      intro hzero
      have := missing_eq_zero.1 hzero id (BTreeMap.mem_keys.2 hsome)
      rw [hnone] at this
      cases this
    omega

theorem sweepFrom_sweeping (hlinked : Linked deps parents dep) : Sweeping deps dep (sweepFrom deps) := by
  have hget : ∀ i : Nat, (deps.map fun _ t => t.size)[i]? = deps[i]?.map (·.size) := fun i => by
    rw [Std.ExtTreeMap.getElem?_map]
  have hall : ∀ t : BTreeSet Nat, missing ∅ t.toList = t.size := by
    intro t
    rw [missing, List.filter_eq_self.2 (by simp), BTreeSet.length_toList]
  refine ⟨by simp [sweepFrom], by simp [sweepFrom], fun i t ht => ?_, fun i => ?_⟩
  · rw [sweepFrom, hget, ht, hall]
    rfl
  · have hmem : ∀ ids : List Nat, i ∈ ids.foldl (fun s id => s.insert id) (∅ : BTreeSet Nat) ↔ i ∈ ids := by
      intro ids
      have hfold := BTreeSet.mem_foldl_insert (f := fun k : Nat => k) ids ∅ i
      rw [hfold]
      simp
    rw [sweepFrom]
    simp only [hmem]
    constructor
    · intro hi
      obtain ⟨⟨k, n⟩, hin, rfl⟩ := List.mem_map.1 hi
      obtain ⟨hin, hzero⟩ := List.mem_filter.1 hin
      obtain rfl : n = 0 := of_decide_eq_true hzero
      have hin := BTreeMap.mem_toList.1 hin
      rw [hget, Option.map_eq_some_iff] at hin
      obtain ⟨t, ht, hsize⟩ := hin
      refine ⟨by rw [ht]; rfl, by simp, fun j hj => ?_⟩
      rw [← hall, missing_eq_zero] at hsize
      exact hsize j (BTreeSet.mem_toList.2 ((hlinked.mem_deps k t ht j).2 hj))
    · rintro ⟨hkey, -, hready⟩
      obtain ⟨t, ht⟩ := Option.isSome_iff_exists.1 hkey
      refine List.mem_map.2 ⟨(i, 0), List.mem_filter.2 ⟨BTreeMap.mem_toList.2 ?_, rfl⟩, rfl⟩
      rw [hget, ht, Option.map_some, ← hall, missing_eq_zero.2]
      exact fun j hj => hready j ((hlinked.mem_deps i t ht j).1 (BTreeSet.mem_toList.1 hj))

end

/-- **Every component has a depth**, and the depths are a layering. -/
theorem componentDepths_layers {components : BTreeMap String Nat} {edges : List Edge} {rank : Nat → Nat}
    (hrank : ∀ i j, DependsOn components edges i j → rank i < rank j) :
    ∃ depths deepest, componentDepths components edges = .ok (depths, deepest) ∧
      (∀ i : Nat, depths[i]?.isSome ↔ ∃ p : String, components[p]? = some i) ∧
      IsLayering (DependsOn components edges) depthCap fun i => depths[i]?.getD 0 := by
  have hlinked := linked_dependencies components edges
  have hfuel : missing (sweepFrom (dependencies components edges)).depths (dependencies components edges).keys <
      (dependencies components edges).size + 1 := by
    have hle := List.length_filter_le (fun j => (sweepFrom (dependencies components edges)).depths[j]?.isNone)
      (dependencies components edges).keys
    rw [Std.ExtTreeMap.length_keys] at hle
    rw [missing]
    omega
  obtain ⟨depths, hloop, hkeys, hsits⟩ := @Loop.loop_rule _ _ _ () _ _ _ _ _ (fun s : Sweep => missing s.depths _)
    (turn_fine hlinked hrank) (sweepFrom_sweeping hlinked) hfuel
  refine ⟨depths, (depths.toList.map Prod.snd).max?.getD 0, ?_, fun i => ?_, fun i => ?_, fun i j hij => ?_⟩
  · rw [componentDepths]
    simp only [hloop, bind, Except.bind]
    rfl
  · rw [← hkeys, dependencies_isSome]
  · cases hi : depths[i]? with
    | none => exact .inl rfl
    | some d =>
      rcases (hsits i d hi).1 with hzero | ⟨j, e, hij, he, heq⟩
      · exact .inl hzero
      · refine .inr ⟨j, hij, ?_⟩
        rw [he]
        exact heq
  · obtain ⟨d, hd⟩ := Option.isSome_iff_exists.1 ((hkeys i).1 (hlinked.within i j hij).1)
    obtain ⟨e, he, hle⟩ := (hsits i d hd).2 j hij
    simp only [hd, he, Option.getD_some]
    exact hle

/-! ## Chains of files -/

section
variable {files : List String} {edges : List Edge} {components : BTreeMap String Nat} {depths : BTreeMap Nat Nat}
  {p q : String}

theorem Reached.trans (h : Reached files edges p) (hpath : Reaches edges p q) : Reached files edges q := by
  obtain ⟨file, hfile, hto⟩ := h
  exact ⟨file, hfile, hto.trans hpath⟩

theorem Settled.reached (h : Settled files edges) (hpath : Reaches edges p q) (hq : Reached files edges q) :
    Reached files edges p := by
  induction hpath using Relation.ReflTransGen.head_induction_on with
  | refl => exact hq
  | head hedge _ ih => exact h _ _ hedge ih

/-- There is no way up for ever: what is below a file below another is less. -/
theorem below_wf (files : List String) (edges : List Edge) :
    WellFounded (flip fun p q => Reached files edges p ∧ Below edges p q) := by
  classical
  have hlt : ∀ p q, Reached files edges p → Below edges p q →
      ((paths files edges).filter (Below edges q)).card < ((paths files edges).filter (Below edges p)).card := by
    rintro p q hp ⟨hto, hback⟩
    refine Finset.card_lt_card (Finset.ssubset_iff_subset_ne.2 ⟨fun r hr => ?_, fun heq => ?_⟩)
    · obtain ⟨hin, hqr, hrq⟩ := Finset.mem_filter.1 hr
      exact Finset.mem_filter.2 ⟨hin, hto.trans hqr, fun hrp => hrq (hrp.trans hto)⟩
    · have hin : q ∈ (paths files edges).filter (Below edges p) :=
        Finset.mem_filter.2 ⟨(hp.trans hto).mem_paths, hto, hback⟩
      rw [← heq] at hin
      exact (Finset.mem_filter.1 hin).2.2 .refl
  exact Subrelation.wf (fun h => hlt _ _ h.1 h.2)
    (measure fun p => ((paths files edges).filter (Below edges p)).card).wf

theorem chain_reached (hp : Reached files edges p) {l : List String} (h : List.IsChain (Below edges) (p :: l)) :
    List.IsChain (fun p q => Reached files edges p ∧ Below edges p q) (p :: l) := by
  induction l generalizing p with
  | nil => exact List.isChain_singleton p
  | cons q l ih =>
    obtain ⟨hpq, hrest⟩ := List.isChain_cons_cons.1 h
    exact List.isChain_cons_cons.2 ⟨⟨hp, hpq⟩, ih (hp.trans hpq.1) hrest⟩

/-- The depth of the component of a file. -/
def level (components : BTreeMap String Nat) (depths : BTreeMap Nat Nat) (p : String) : Nat :=
  (components[p]?.map fun i => depths[i]?.getD 0).getD 0

theorem level_of {i : Nat} (h : components[p]? = some i) : level components depths p = depths[i]?.getD 0 := by
  rw [level, h, Option.map_some, Option.getD_some]

section
variable (hnum : Numbered files edges components)
  (hlayers : IsLayering (DependsOn components edges) depthCap fun i => depths[i]?.getD 0)
include hnum hlayers

omit hlayers in
theorem reached_of_component (hsettled : Settled files edges) {p : String} {i : Nat} (hi : components[p]? = some i) :
    Reached files edges p := by
  obtain ⟨r, hr, -, hpath⟩ := hnum.root p i hi
  exact hsettled.reached hpath hr

/-- Along a path the depth falls, or the component stays. -/
theorem level_path (hp : Reached files edges p) (hpath : Reaches edges p q) {j : Nat} (hq : components[q]? = some j) :
    ∀ i, components[p]? = some i → i = j ∨ up depthCap (depths[j]?.getD 0) ≤ depths[i]?.getD 0 := by
  induction hpath using Relation.ReflTransGen.head_induction_on with
  | refl =>
    intro i hi
    rw [hq, Option.some.injEq] at hi
    exact .inl hi.symm
  | @head a b hedge _ ih =>
    intro i hi
    have hb := hp.trans (.single hedge)
    obtain ⟨k, hk⟩ := hnum.reached b hb
    by_cases hik : i = k
    · exact hik ▸ ih hb k hk
    · have hfirst := hlayers.above i k ⟨hik, a, b, hedge, hi, hk⟩
      rcases ih hb k hk with rfl | hrest
      · exact .inr hfirst
      · exact .inr ((hrest.trans (le_up (hlayers.le_cap k))).trans hfirst)

/-- Where every path with a number is one the files lead to, the depths are a layering of the files. -/
theorem level_layering (hsettled : Settled files edges) :
    IsLayering (fun p q => Reached files edges p ∧ Below edges p q) depthCap (level components depths) := by
  have hreached := fun p i => @reached_of_component _ _ _ hnum hsettled p i
  refine ⟨fun p => ?_, ?_⟩
  · cases hi : components[p]? with
    | none =>
      rw [level, hi]
      exact .inl rfl
    | some i =>
      rw [level_of hi]
      rcases hlayers.reached i with hzero | ⟨j, ⟨hne, p', q, hedge, hp', hq⟩, heq⟩
      · exact .inl hzero
      · refine .inr ⟨q, ⟨hreached p i hi, ?_, fun hback => hne ?_⟩, by rw [level_of hq]; exact heq⟩
        · have hsame := (hnum.same p p' i i hi hp' (hreached p i hi) (hreached p' i hp')).1 rfl
          exact hsame.1.tail hedge
        · have hsame := (hnum.same p p' i i hi hp' (hreached p i hi) (hreached p' i hp')).1 rfl
          exact (hnum.same p q i j hi hq (hreached p i hi) (hreached q j hq)).2 ⟨hsame.1.tail hedge, hback⟩
  · rintro p q ⟨hp, hto, hback⟩
    obtain ⟨i, hi⟩ := hnum.reached p hp
    obtain ⟨j, hj⟩ := hnum.reached q (hp.trans hto)
    rw [level_of hi, level_of hj]
    refine (level_path hnum hlayers hp hto hj i hi).resolve_left fun heq => hback ?_
    exact ((hnum.same p q i j hi hj hp (hp.trans hto)).1 heq).2

theorem layered_of_settled (hdepths : ∀ i : Nat, depths[i]?.isSome ↔ ∃ p : String, components[p]? = some i)
    (hsettled : Settled files edges) (hshort : Short files edges) : Layered edges components depths := by
  have hreached := fun p i => @reached_of_component _ _ _ hnum hsettled p i
  have hlevels := level_layering hnum hlayers hsettled
  have hchain : ∀ p, ∃ l, List.IsChain (Below edges) (p :: l) ∧ l.length = level components depths p := by
    intro p
    obtain ⟨l, hl, hlen⟩ := hlevels.exists_chain (below_wf files edges) p
    exact ⟨l, hl.imp fun _ _ h => h.2, hlen⟩
  refine ⟨fun p q i j hi hj => hnum.same p q i j hi hj (hreached p i hi) (hreached q j hj), fun p i hi => ?_, ?_⟩
  · obtain ⟨d, hd⟩ := Option.isSome_iff_exists.1 ((hdepths i).2 ⟨p, hi⟩)
    have hlevel : level components depths p = d := by rw [level_of hi, hd, Option.getD_some]
    refine ⟨d, hd, hlevel ▸ hchain p, fun l hl => ?_⟩
    have hle := hlevels.length_le l p (chain_reached (hreached p i hi) hl)
    rwa [min_eq_left (hshort p (hreached p i hi) l hl), hlevel] at hle
  · intro p q i j hedge hi hj hne
    obtain ⟨d, hd⟩ := Option.isSome_iff_exists.1 ((hdepths i).2 ⟨p, hi⟩)
    obtain ⟨e, he⟩ := Option.isSome_iff_exists.1 ((hdepths j).2 ⟨q, hj⟩)
    have hp := hreached p i hi
    have hbelow : Below edges p q := by
      refine ⟨.single hedge, fun hback => hne ?_⟩
      exact (hnum.same p q i j hi hj hp (hreached q j hj)).2 ⟨.single hedge, hback⟩
    have habove := hlevels.above p q ⟨hp, hbelow⟩
    rw [level_of hi, level_of hj, hd, he, Option.getD_some, Option.getD_some] at habove
    refine ⟨d, e, hd, he, ?_⟩
    -- the longest chain from `q` is not the longest from `p`
    obtain ⟨l, hl, hlen⟩ := hchain q
    rw [level_of hj, he, Option.getD_some] at hlen
    have hlt := hshort p hp (q :: l) (List.isChain_cons_cons.2 ⟨hbelow, hl⟩)
    rw [List.length_cons, hlen] at hlt
    rw [up_of_lt hlt] at habove
    exact habove

theorem settled_of_layered (h : Layered edges components depths) : Settled files edges ∧ Short files edges := by
  constructor
  · intro p q hedge hq
    obtain ⟨j, hj⟩ := hnum.reached q hq
    obtain ⟨i, hi⟩ := hnum.back p q j hedge hj
    obtain ⟨r, hr, hri, -⟩ := hnum.root p i hi
    exact hr.trans ((h.same p r i i hi hri).1 rfl).2
  · intro p hp l hl
    obtain ⟨i, hi⟩ := hnum.reached p hp
    obtain ⟨d, hd, -, hmax⟩ := h.depth p i hi
    have hcap := hlayers.le_cap i
    rw [hd, Option.getD_some] at hcap
    exact (hmax l hl).trans hcap

end

/-- The components have no way up for ever either. -/
theorem dependsOn_wf {rank : Nat → Nat} (hrank : ∀ i j, DependsOn components edges i j → rank i < rank j) :
    WellFounded (flip (DependsOn components edges)) := by
  classical
  have hlt : ∀ i j, DependsOn components edges i j →
      ((components.toList.map Prod.snd).toFinset.filter (rank j < rank ·)).card <
        ((components.toList.map Prod.snd).toFinset.filter (rank i < rank ·)).card := by
    intro i j hij
    have hij' := hrank i j hij
    obtain ⟨-, p, q, -, -, hq⟩ := hij
    refine Finset.card_lt_card (Finset.ssubset_iff_subset_ne.2 ⟨fun k hk => ?_, fun heq => ?_⟩)
    · obtain ⟨hin, hjk⟩ := Finset.mem_filter.1 hk
      exact Finset.mem_filter.2 ⟨hin, hij'.trans hjk⟩
    · have hin : j ∈ (components.toList.map Prod.snd).toFinset.filter (rank i < rank ·) :=
        Finset.mem_filter.2 ⟨List.mem_toFinset.2 (mem_numbers.2 ⟨q, hq⟩), hij'⟩
      rw [← heq] at hin
      exact lt_irrefl _ (Finset.mem_filter.1 hin).2
  exact Subrelation.wf (fun h => hlt _ _ h)
    (measure fun i => ((components.toList.map Prod.snd).toFinset.filter (rank i < rank ·)).card).wf

end

/-- **Strata.** Both passes end, with a number for every file, one for two files of the list iff each leads to the
other, and with a depth for every number, the longest chain of numbers below it. These are the components and the
chains of files iff no path from outside leads in, and no chain is longer than a depth can be. -/
theorem strata_layered_iff (files : List String) (edges : List Edge) : ∃ components depths deepest,
    stronglyConnected files edges = .ok components ∧ componentDepths components edges = .ok (depths, deepest) ∧
    (∀ p ∈ files, ∀ q ∈ files, ∃ i j, components[p]? = some i ∧ components[q]? = some j ∧
      (i = j ↔ Reaches edges p q ∧ Reaches edges q p)) ∧
    (∀ (p : String) (i : Nat), components[p]? = some i → ∃ d, depths[i]? = some d ∧
      (∃ chain, List.IsChain (DependsOn components edges) (i :: chain) ∧ chain.length = d) ∧
      ∀ chain, List.IsChain (DependsOn components edges) (i :: chain) → min chain.length depthCap ≤ d) ∧
    (Layered edges components depths ↔ Settled files edges ∧ Short files edges) := by
  obtain ⟨components, hcomponents, hnum⟩ := stronglyConnected_numbered files edges
  obtain ⟨rank, hranked⟩ := hnum.rank
  have hrank : ∀ i j, DependsOn components edges i j → rank i < rank j := by
    rintro i j ⟨hne, p, q, hedge, hi, hj⟩
    exact hranked p q i j hedge hi hj hne
  obtain ⟨depths, deepest, hsweep, hdepths, hlayers⟩ := componentDepths_layers hrank
  have hfile : ∀ p ∈ files, Reached files edges p := fun p hp => ⟨p, hp, .refl⟩
  refine ⟨components, depths, deepest, hcomponents, hsweep, fun p hp q hq => ?_, fun p i hi => ?_,
    settled_of_layered hnum hlayers, fun h => layered_of_settled hnum hlayers hdepths h.1 h.2⟩
  · obtain ⟨i, hi⟩ := hnum.reached p (hfile p hp)
    obtain ⟨j, hj⟩ := hnum.reached q (hfile q hq)
    exact ⟨i, j, hi, hj, hnum.same p q i j hi hj (hfile p hp) (hfile q hq)⟩
  · obtain ⟨d, hd⟩ := Option.isSome_iff_exists.1 ((hdepths i).2 ⟨p, hi⟩)
    obtain ⟨l, hl, hlen⟩ := hlayers.exists_chain (dependsOn_wf hrank) i
    simp only [hd, Option.getD_some] at hlen
    refine ⟨d, hd, ⟨l, hl, hlen⟩, fun l hl => ?_⟩
    have hle := hlayers.length_le l i hl
    simp only [hd, Option.getD_some] at hle
    exact hle

/-- A path outside the list with edges to two of its files: it shares a number with one of them, which gets a depth
though it depends on nothing. -/
theorem outside_importer : ∃ components depths,
    stronglyConnected ["a", "b"] [⟨"x", "a"⟩, ⟨"x", "b"⟩] = .ok components ∧
    componentDepths components [⟨"x", "a"⟩, ⟨"x", "b"⟩] = .ok (depths, 1) ∧
    components["b"]? = some 1 ∧ components["x"]? = some 1 ∧ depths[1]? = some 1 ∧
    (∀ q, ¬Below [⟨"x", "a"⟩, ⟨"x", "b"⟩] "b" q) ∧ ¬Layered [⟨"x", "a"⟩, ⟨"x", "b"⟩] components depths := by
  have hrun : (do
      let c ← stronglyConnected ["a", "b"] [⟨"x", "a"⟩, ⟨"x", "b"⟩]
      let d ← componentDepths c [⟨"x", "a"⟩, ⟨"x", "b"⟩]
      return (c.toList, d.1.toList, d.2)).toOption =
        some ([("a", 0), ("b", 1), ("x", 1)], [(0, 0), (1, 1)], 1) := by decide +kernel
  cases hc : stronglyConnected ["a", "b"] [⟨"x", "a"⟩, ⟨"x", "b"⟩] with
  | error e =>
    rw [hc] at hrun
    cases hrun
  | ok components =>
    rw [hc] at hrun
    cases hd : componentDepths components [⟨"x", "a"⟩, ⟨"x", "b"⟩] with
    | error e =>
      simp only [bind, Except.bind, hd] at hrun
      cases hrun
    | ok d =>
      obtain ⟨depths, deepest⟩ := d
      simp only [bind, Except.bind, hd, pure, Except.pure, Except.toOption, Option.some.injEq, Prod.mk.injEq] at hrun
      obtain ⟨hnumbers, hdepths, rfl⟩ := hrun
      have hb : components["b"]? = some 1 := BTreeMap.mem_toList.1 (by rw [hnumbers]; decide)
      have hx : components["x"]? = some 1 := BTreeMap.mem_toList.1 (by rw [hnumbers]; decide)
      have hone : depths[1]? = some 1 := BTreeMap.mem_toList.1 (by rw [hdepths]; decide)
      have hstart : ∀ q, Reaches [⟨"x", "a"⟩, ⟨"x", "b"⟩] "b" q → q = "b" := by
        intro q hpath
        rcases Relation.ReflTransGen.cases_head hpath with heq | ⟨c, hedge, -⟩
        · exact heq.symm
        · simp at hedge
      refine ⟨components, depths, rfl, hd, hb, hx, hone, fun q hq => ?_, fun h => ?_⟩
      · rw [hstart q hq.1] at hq
        exact hq.2 .refl
      · exact absurd (hstart "x" ((h.same "x" "b" 1 1 hx hb).1 rfl).2) (by decide)

end SprefaExtract.Strata
