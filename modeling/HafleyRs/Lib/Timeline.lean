import HafleyRs.Lib.BTree

/-!
# States in time

A timeline has a stay for each time at which a state began; a stay ends at some time or is open. `Tiled` is a timeline
without gaps: a stay ends where the next begins, and the last is open. So one state holds at a time (`Tiled.once`).
It stays tiled when the open stay is ended by a later one (`Tiled.succeed`) or has its state replaced (`Tiled.replace`).
-/

namespace Timeline

structure Stay (T S : Type) where
  till  : Option T
  state : S
deriving DecidableEq, Repr

end Timeline

abbrev Timeline (T S : Type) [LinearOrder T] := BTreeMap T (Timeline.Stay T S)

namespace Timeline
variable {T S : Type} [LinearOrder T]

def Stay.holds (start : T) (stay : Stay T S) (t : T) : Prop := start ≤ t ∧ ∀ stop, stay.till = some stop → t < stop

/-- The open stay that began last. -/
def current (m : Timeline T S) : Option (T × Stay T S) := m.toList.reverse.find? fun e => e.2.till.isNone

/-- The stay that began at `start` ends at `t`, where a new one begins. -/
def succeed (m : Timeline T S) (start : T) (stay : Stay T S) (t : T) (state : S) : Timeline T S :=
  (m.insert start { stay with till := some t }).insert t { till := none, state }

structure Tiled (m : Timeline T S) : Prop where
  last : ∀ (f : T) (s : Stay T S), m[f]? = some s → s.till = none → ∀ (f' : T) (s' : Stay T S), m[f']? = some s' →
    f' ≤ f
  next : ∀ (f : T) (s : Stay T S) (t : T), m[f]? = some s → s.till = some t → f < t ∧ (∃ s', m[t]? = some s') ∧
    ∀ (f' : T) (s' : Stay T S), m[f']? = some s' → f' ≤ f ∨ t ≤ f'
  runs : ∀ (f : T) (s : Stay T S), m[f]? = some s → ∃ (f' : T) (s' : Stay T S), m[f']? = some s' ∧ s'.till = none

/-- A stay differs from the one that ends where it begins. -/
def Changes (m : Timeline T S) : Prop :=
  ∀ (f : T) (s : Stay T S) (t : T) (s' : Stay T S), m[f]? = some s → s.till = some t → m[t]? = some s' →
    s.state ≠ s'.state

variable {m : Timeline T S} {f f' t : T} {s s' : Stay T S} {state : S}

theorem Tiled.open_unique (h : Tiled m) (hs : m[f]? = some s) (hs' : m[f']? = some s') (hopen : s.till = none)
    (hopen' : s'.till = none) : f = f' :=
  le_antisymm (h.last f' s' hs' hopen' f s hs) (h.last f s hs hopen f' s' hs')

theorem current_eq_some (h : Tiled m) : current m = some (f, s) ↔ m[f]? = some s ∧ s.till = none := by
  unfold current
  constructor
  · intro hcurrent
    have hmem := List.mem_of_find?_eq_some hcurrent
    rw [List.mem_reverse, BTreeMap.mem_toList] at hmem
    exact ⟨hmem, by simpa using List.find?_some hcurrent⟩
  · intro ⟨hs, hopen⟩
    have hsome : (m.toList.reverse.find? fun e => e.2.till.isNone).isSome := by
      rw [List.find?_isSome]
      exact ⟨(f, s), List.mem_reverse.2 (BTreeMap.mem_toList.2 hs), by rw [hopen]; rfl⟩
    obtain ⟨⟨f', s'⟩, hfound⟩ := Option.isSome_iff_exists.1 hsome
    have hmem := List.mem_of_find?_eq_some hfound
    rw [List.mem_reverse, BTreeMap.mem_toList] at hmem
    have hopen' : s'.till = none := by simpa using List.find?_some hfound
    obtain rfl : f' = f := h.open_unique hmem hs hopen' hopen
    obtain rfl : s' = s := Option.some.inj (hmem.symm.trans hs)
    exact hfound

theorem current_eq_none (h : Tiled m) : current m = none ↔ ∀ f : T, m[f]? = none := by
  constructor
  · intro hcurrent f
    cases hs : m[f]? with
    | none => rfl
    | some s =>
      obtain ⟨f', s', hs', hopen⟩ := h.runs f s hs
      rw [(current_eq_some h).2 ⟨hs', hopen⟩] at hcurrent
      cases hcurrent
  · intro hnone
    cases hcurrent : current m with
    | none => rfl
    | some e =>
      have hs := ((current_eq_some h).1 hcurrent).1
      rw [hnone] at hs
      cases hs

/-- One state at a time. -/
theorem Tiled.once (h : Tiled m) (hs : m[f]? = some s) (hs' : m[f']? = some s') (hold : s.holds f t)
    (hold' : s'.holds f' t) : f = f' := by
  have hkey : ∀ {f f' : T} {s s' : Stay T S}, m[f]? = some s → m[f']? = some s' → Stay.holds f s t →
    Stay.holds f' s' t → f' ≤ f := by
    intro f f' s s' hs hs' hold hold'
    cases htill : s.till with
    | none => exact h.last f s hs htill f' s' hs'
    | some stop =>
      rcases (h.next f s stop hs htill).2.2 f' s' hs' with hle | hle
      · exact hle
      · exact absurd (hold'.1.trans_lt (hold.2 stop htill)) (not_lt.2 hle)
  exact le_antisymm (hkey hs' hs hold' hold) (hkey hs hs' hold hold')

theorem tiled_empty : Tiled (∅ : Timeline T S) := by
  constructor <;> simp

theorem changes_empty : Changes (∅ : Timeline T S) := by simp [Changes]

theorem getElem?_succeed {k : T} : (succeed m f s t state)[k]? = if t = k then some ⟨none, state⟩ else
    if f = k then some { s with till := some t } else m[k]? := by
  unfold succeed
  rw [BTreeMap.getElem?_insert, BTreeMap.getElem?_insert]

theorem tiled_first (t : T) (state : S) : Tiled ((∅ : Timeline T S).insert t { till := none, state }) := by
  have hget : ∀ {k : T} {s : Stay T S}, ((∅ : Timeline T S).insert t { till := none, state })[k]? = some s ↔
      t = k ∧ { till := none, state } = s := by
    intro k s
    rw [BTreeMap.getElem?_insert]
    by_cases hk : t = k <;> simp [hk]
  constructor
  · intro f s hs _ f' s' hs'
    exact (hget.1 hs').1 ▸ (hget.1 hs).1.le
  · intro f s stop hs hstop
    rw [← (hget.1 hs).2] at hstop
    cases hstop
  · intro f s hs
    exact ⟨t, _, hget.2 ⟨rfl, rfl⟩, rfl⟩

theorem changes_first (t : T) (state : S) : Changes ((∅ : Timeline T S).insert t { till := none, state }) := by
  intro f s stop s' hs hstop
  rw [BTreeMap.getElem?_insert] at hs
  split_ifs at hs
  · rw [← Option.some.inj hs] at hstop
    cases hstop
  · rw [Std.ExtTreeMap.getElem?_empty] at hs
    cases hs

/-- The open stay is ended by one that begins later. -/
theorem Tiled.succeed (h : Tiled m) (hs : m[f]? = some s) (hopen : s.till = none) (hlt : f < t) :
    Tiled (succeed m f s t state) := by
  have hlast := h.last f s hs hopen
  have hcases : ∀ {k : T} {x : Stay T S}, (Timeline.succeed m f s t state)[k]? = some x →
      (k = t ∧ x = ⟨none, state⟩) ∨ (k = f ∧ x = { s with till := some t }) ∨ (k < f ∧ m[k]? = some x) := by
    intro k x hx
    rw [getElem?_succeed] at hx
    split_ifs at hx with htk hfk
    · exact Or.inl ⟨htk.symm, (Option.some.inj hx).symm⟩
    · exact Or.inr (Or.inl ⟨hfk.symm, (Option.some.inj hx).symm⟩)
    · exact Or.inr (Or.inr ⟨lt_of_le_of_ne (hlast k x hx) (Ne.symm hfk), hx⟩)
  have hold : ∀ {k : T} {x : Stay T S}, k < f → m[k]? = some x → (Timeline.succeed m f s t state)[k]? = some x := by
    intro k x hk hx
    rw [getElem?_succeed, if_neg (hk.trans hlt).ne', if_neg hk.ne', hx]
  have hnew : (Timeline.succeed m f s t state)[t]? = some ⟨none, state⟩ := by rw [getElem?_succeed, if_pos rfl]
  have hended : (Timeline.succeed m f s t state)[f]? = some { s with till := some t } := by
    rw [getElem?_succeed, if_neg hlt.ne', if_pos rfl]
  constructor
  · intro k x hx hnone k' x' hx'
    rcases hcases hx with ⟨rfl, rfl⟩ | ⟨rfl, rfl⟩ | ⟨hk, hx⟩
    · rcases hcases hx' with ⟨rfl, -⟩ | ⟨rfl, -⟩ | ⟨hk', -⟩
      · exact le_rfl
      · exact hlt.le
      · exact (hk'.trans hlt).le
    · cases hnone
    · exact absurd (h.last k x hx hnone f s hs) (not_le.2 hk)
  · intro k x stop hx hstop
    rcases hcases hx with ⟨rfl, rfl⟩ | ⟨rfl, rfl⟩ | ⟨hk, hx⟩
    · cases hstop
    · obtain rfl := Option.some.inj hstop
      refine ⟨hlt, ⟨_, hnew⟩, fun k' x' hx' => ?_⟩
      rcases hcases hx' with ⟨rfl, -⟩ | ⟨rfl, -⟩ | ⟨hk', -⟩
      · exact Or.inr le_rfl
      · exact Or.inl le_rfl
      · exact Or.inl hk'.le
    · obtain ⟨hkstop, ⟨y, hy⟩, hgap⟩ := h.next k x stop hx hstop
      have hstopf : stop ≤ f := (hgap f s hs).resolve_left (not_le.2 hk)
      refine ⟨hkstop, ?_, fun k' x' hx' => ?_⟩
      · rcases hstopf.eq_or_lt with rfl | hlt'
        · exact ⟨_, hended⟩
        · exact ⟨y, hold hlt' hy⟩
      · rcases hcases hx' with ⟨rfl, -⟩ | ⟨rfl, -⟩ | ⟨-, hx'⟩
        · exact Or.inr (hstopf.trans hlt.le)
        · exact Or.inr hstopf
        · exact hgap k' x' hx'
  · intro k x _
    exact ⟨t, _, hnew, rfl⟩

theorem Changes.succeed (h : Changes m) (ht : Tiled m) (hs : m[f]? = some s) (hopen : s.till = none) (hlt : f < t)
    (hne : s.state ≠ state) : Changes (succeed m f s t state) := by
  intro k x stop y hx hstop hy
  rw [getElem?_succeed] at hx hy
  split_ifs at hx with htk hfk
  · obtain rfl := Option.some.inj hx
    cases hstop
  · obtain rfl := Option.some.inj hx
    obtain rfl : t = stop := Option.some.inj hstop
    rw [if_pos rfl, Option.some.injEq] at hy
    subst hy
    exact hne
  · obtain ⟨hkstop, hthere, hgap⟩ := ht.next k x stop hx hstop
    have hk : k < f := lt_of_le_of_ne (ht.last f s hs hopen k x hx) (Ne.symm hfk)
    have hstopf : stop ≤ f := (hgap f s hs).resolve_left (not_le.2 hk)
    rw [if_neg (hstopf.trans_lt hlt).ne'] at hy
    split_ifs at hy with hfstop
    · obtain rfl := Option.some.inj hy
      exact h k x stop s hx hstop (hfstop ▸ hs)
    · exact h k x stop y hx hstop hy

/-- The state of the open stay is replaced. -/
theorem Tiled.replace (h : Tiled m) (hs : m[f]? = some s) (hopen : s.till = none) :
    Tiled (m.insert f { till := none, state }) := by
  have hget : ∀ {k : T} {x : Stay T S}, (m.insert f ⟨none, state⟩)[k]? = some x →
      ∃ x', m[k]? = some x' ∧ x'.till = x.till := by
    intro k x hx
    rw [BTreeMap.getElem?_insert] at hx
    split_ifs at hx with hk
    · subst hk
      exact ⟨s, hs, by rw [← Option.some.inj hx, hopen]⟩
    · exact ⟨x, hx, rfl⟩
  have hthere : ∀ {k : T} {x : Stay T S}, m[k]? = some x → ∃ x', (m.insert f ⟨none, state⟩)[k]? = some x' := by
    intro k x hx
    rw [BTreeMap.getElem?_insert]
    split_ifs
    · exact ⟨_, rfl⟩
    · exact ⟨x, hx⟩
  constructor
  · intro k x hx hnone k' x' hx'
    obtain ⟨y, hy, hyx⟩ := hget hx
    obtain ⟨y', hy', -⟩ := hget hx'
    exact h.last k y hy (hyx.trans hnone) k' y' hy'
  · intro k x stop hx hstop
    obtain ⟨y, hy, hyx⟩ := hget hx
    obtain ⟨hlt, ⟨z, hz⟩, hgap⟩ := h.next k y stop hy (hyx.trans hstop)
    refine ⟨hlt, hthere hz, fun k' x' hx' => ?_⟩
    obtain ⟨y', hy', -⟩ := hget hx'
    exact hgap k' y' hy'
  · intro k x _
    exact ⟨f, _, by rw [BTreeMap.getElem?_insert, if_pos rfl], rfl⟩

theorem Changes.replace (h : Changes m)
    (hne : ∀ (k : T) (x : Stay T S), m[k]? = some x → x.till = some f → x.state ≠ state) :
    Changes (m.insert f { till := none, state }) := by
  intro k x stop y hx hstop hy
  rw [BTreeMap.getElem?_insert] at hx hy
  split_ifs at hx with hfk
  · obtain rfl := Option.some.inj hx
    cases hstop
  · split_ifs at hy with hfstop
    · obtain rfl := Option.some.inj hy
      exact hne k x hx (hfstop ▸ hstop)
    · exact h k x stop y hx hstop hy

end Timeline
