import HafleyRs.Lib.BTree

/-!
# A map kept under other keys and encoded values

`Mirrors name enc m n`: `n` holds, under `name k`, the encoding of what `m` holds under `k`, and nothing else. When
names tell keys apart, the two answer lookups alike and stay mirrors under insertion, removal and a sweep that
removes and counts the keys some test picks.
-/

namespace BTreeMap
variable {K L V W : Type} [LinearOrder K] [LinearOrder L]

def Mirrors (name : K → L) (enc : K → V → W) (m : BTreeMap K V) (n : BTreeMap L W) : Prop :=
  ∀ l w, n[l]? = some w ↔ ∃ k v, l = name k ∧ m[k]? = some v ∧ w = enc k v

namespace Mirrors
variable {name : K → L} {enc : K → V → W} {m : BTreeMap K V} {n : BTreeMap L W}

theorem empty : Mirrors name enc ∅ ∅ := fun l w => by simp

theorem get (h : Mirrors name enc m n) (hname : Function.Injective name) (k : K) :
    n[name k]? = m[k]?.map (enc k) := by
  refine Option.ext fun w => (h _ w).trans ?_
  rw [Option.map_eq_some_iff]
  constructor
  · rintro ⟨k', v, heq, hv, rfl⟩
    obtain rfl := hname heq
    exact ⟨v, hv, rfl⟩
  · rintro ⟨v, hv, rfl⟩
    exact ⟨k, v, rfl, hv, rfl⟩

theorem insert (h : Mirrors name enc m n) (hname : Function.Injective name) (k : K) (v : V) :
    Mirrors name enc (m.insert k v) (n.insert (name k) (enc k v)) := by
  intro l w
  rw [getElem?_insert]
  by_cases hl : name k = l
  · subst hl
    rw [if_pos rfl]
    constructor
    · rintro hw
      exact ⟨k, v, rfl, by rw [getElem?_insert, if_pos rfl], (Option.some.inj hw).symm⟩
    · rintro ⟨k', v', heq, hv', rfl⟩
      obtain rfl := hname heq
      rw [getElem?_insert, if_pos rfl] at hv'
      rw [Option.some.inj hv']
  · rw [if_neg hl, h]
    refine exists_congr fun k' => exists_congr fun v' => and_congr_right fun heq => ?_
    have hne : k ≠ k' := by
      rintro rfl
      exact hl heq.symm
    rw [getElem?_insert, if_neg hne]

/-- Keys removed on both sides: those that `p` picks, and the names of those. -/
theorem erase_all (h : Mirrors name enc m n) {p : K → Prop} {q : L → Prop} {m' : BTreeMap K V} {n' : BTreeMap L W}
    (hpq : ∀ k, q (name k) ↔ p k) (hm : ∀ k, (p k → m'[k]? = none) ∧ (¬ p k → m'[k]? = m[k]?))
    (hn : ∀ l, (q l → n'[l]? = none) ∧ (¬ q l → n'[l]? = n[l]?)) : Mirrors name enc m' n' := by
  intro l w
  by_cases hl : q l
  · rw [(hn l).1 hl]
    constructor
    · intro h
      cases h
    · rintro ⟨k, v, rfl, hv, -⟩
      rw [(hm k).1 ((hpq k).1 hl)] at hv
      cases hv
  · rw [(hn l).2 hl, h]
    refine exists_congr fun k => exists_congr fun v => and_congr_right fun heq => ?_
    subst heq
    rw [(hm k).2 fun hp => hl ((hpq k).2 hp)]

theorem erase (h : Mirrors name enc m n) (hname : Function.Injective name) (k : K) :
    Mirrors name enc (m.erase k) (n.erase (name k)) := by
  refine h.erase_all (p := (k = ·)) (q := (name k = ·)) (fun k' => hname.eq_iff) (fun k' => ?_) fun l => ?_
  · rw [getElem?_erase]
    exact ⟨fun h => if_pos h, fun h => if_neg h⟩
  · rw [getElem?_erase]
    exact ⟨fun h => if_pos h, fun h => if_neg h⟩

theorem sweep (h : Mirrors name enc m n) {p : K → Bool} {q : L → Bool} (hpq : ∀ k, q (name k) = p k) :
    Mirrors name enc (m.sweep p).1 (n.sweep q).1 := by
  refine h.erase_all (p := (p · = true)) (q := (q · = true)) (fun k => by rw [hpq]) (fun k => ?_) fun l => ?_
  · rw [getElem?_sweep]
    exact ⟨fun h => if_pos h, fun h => if_neg h⟩
  · rw [getElem?_sweep]
    exact ⟨fun h => if_pos h, fun h => if_neg h⟩

/-- The same number of keys goes. -/
theorem sweep_count (h : Mirrors name enc m n) (hname : Function.Injective name) {p : K → Bool} {q : L → Bool}
    (hpq : ∀ k, q (name k) = p k) : (n.sweep q).2 = (m.sweep p).2 := by
  have hperm : (n.keys.filter q).Perm ((m.keys.filter p).map name) := by
    rw [List.perm_ext_iff_of_nodup ((keys_nodup n).filter _) (((keys_nodup m).filter _).map hname)]
    intro l
    simp only [List.mem_filter, List.mem_map, mem_keys, Option.isSome_iff_exists]
    constructor
    · rintro ⟨⟨w, hw⟩, hq⟩
      obtain ⟨k, v, rfl, hv, -⟩ := (h l w).1 hw
      exact ⟨k, ⟨⟨v, hv⟩, hpq k ▸ hq⟩, rfl⟩
    · rintro ⟨k, ⟨⟨v, hv⟩, hp⟩, rfl⟩
      exact ⟨⟨_, (h _ _).2 ⟨k, v, rfl, hv, rfl⟩⟩, (hpq k).trans hp⟩
  rw [BTreeMap.sweep, BTreeMap.sweep, hperm.length_eq, List.length_map]

end Mirrors
end BTreeMap
