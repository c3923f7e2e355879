import Mathlib

/-!
# Post-dominance and control dependence

`PostDom E exit d n`: every way from `n` to the exit meets `d`. A node is control dependent on `b` when `b` has a
successor from which the node post-dominates, while it does not strictly post-dominate `b` (`Dependent`).

With a table of immediate post-dominators both are climbs: the post-dominators of a node are what lies above it in
the table (`reaches_spec`), and those of a successor of `b` that lie below the immediate post-dominator of `b` are
the nodes dependent on `b` by way of that successor (`dependent_iff_below`). A climb ends after at most as many
steps as there are nodes.
-/

namespace Dominance
variable {V : Type}

/-- The nodes of a way from `a` to `b`, in order. -/
inductive Path (E : V → V → Prop) : V → V → List V → Prop
  | single (a : V) : Path E a a [a]
  | cons {a b c : V} {l : List V} : E a b → Path E b c l → Path E a c (a :: l)

/-- Every way from the root to `n` meets `d`. -/
def Dom (E : V → V → Prop) (root d n : V) : Prop := ∀ l, Path E root n l → d ∈ l

/-- Every way from `n` to the exit meets `d`. -/
def PostDom (E : V → V → Prop) (exit d n : V) : Prop := ∀ l, Path E n exit l → d ∈ l

def StrictPostDom (E : V → V → Prop) (exit d n : V) : Prop := PostDom E exit d n ∧ d ≠ n

/-- Control dependence: `n` post-dominates from a successor of `b` and does not strictly post-dominate `b`. -/
def Dependent (E : V → V → Prop) (exit b n : V) : Prop :=
  ∃ s, E b s ∧ PostDom E exit n s ∧ ¬ StrictPostDom E exit n b

/-- `idom` gives the immediate dominators of the nodes that can be reached from the root. -/
structure Immediate (E : V → V → Prop) (root : V) (idom : V → Option V) : Prop where
  at_root : idom root = none
  outside : ∀ n, (¬ ∃ l, Path E root n l) → idom n = none
  above : ∀ n, n ≠ root → (∃ l, Path E root n l) →
    ∃ d, idom n = some d ∧ Dom E root d n ∧ d ≠ n ∧ ∀ e, Dom E root e n → e ≠ n → Dom E root e d

variable {E : V → V → Prop} {x : V}

/-! ## Ways -/

namespace Path

theorem head_eq {a b : V} {l : List V} (h : Path E a b l) : l.head? = some a := by
  cases h <;> rfl

theorem head_mem {a b : V} {l : List V} (h : Path E a b l) : a ∈ l := List.mem_of_head? h.head_eq

theorem snoc {a b c : V} {l : List V} (h : Path E a b l) (hbc : E b c) : Path E a c (l ++ [c]) := by
  induction h with
  | single a => exact .cons hbc (.single c)
  | cons hab _ ih => exact .cons hab (ih hbc)

/-- A way read backwards is a way over the reversed edges. -/
theorem reverse {a b : V} {l : List V} (h : Path E a b l) : Path (fun u v => E v u) b a l.reverse := by
  induction h with
  | single a => exact .single a
  | cons hab _ ih =>
    rw [List.reverse_cons]
    exact ih.snoc hab

/-- From every node on a way the rest of it leads to the same end. -/
theorem suffix {a b c : V} {l : List V} (h : Path E a b l) (hc : c ∈ l) : ∃ l', Path E c b l' ∧ l' <:+ l := by
  induction h with
  | single a =>
    obtain rfl : c = a := by simpa using hc
    exact ⟨[c], .single c, List.suffix_refl _⟩
  | @cons a b d l hab hp ih =>
    rcases List.mem_cons.1 hc with rfl | hc
    · exact ⟨c :: l, .cons hab hp, List.suffix_refl _⟩
    · obtain ⟨l', hl', hsuf⟩ := ih hc
      exact ⟨l', hl', hsuf.trans (List.suffix_cons ..)⟩

end Path

/-- Post-dominance is dominance over the reversed edges. -/
theorem postDom_iff {d n : V} : PostDom E x d n ↔ Dom (fun u v => E v u) x d n := by
  constructor
  · intro h l hl
    exact List.mem_reverse.1 (h _ hl.reverse)
  · intro h l hl
    exact List.mem_reverse.1 (h _ hl.reverse)

/-! ## The order -/

theorem postDom_refl (n : V) : PostDom E x n n := fun _ hl => hl.head_mem

theorem PostDom.trans {a b c : V} (hab : PostDom E x a b) (hbc : PostDom E x b c) : PostDom E x a c := by
  intro l hl
  obtain ⟨l', hl', hsuf⟩ := hl.suffix (hbc l hl)
  exact hsuf.subset (hab l' hl')

/-- Two nodes that post-dominate each other would each need a shorter way out than the other. -/
theorem PostDom.antisymm {a b : V} (hout : ∃ l, Path E a x l) (hab : PostDom E x a b) (hba : PostDom E x b a) :
    a = b := by
  by_contra hne
  have hnone : ∀ n l, l.length = n → ¬ Path E a x l := by
    intro n
    induction n using Nat.strong_induction_on with
    | h n ih =>
      intro l hn hl
      obtain ⟨m, hm, hml⟩ := hl.suffix (hba l hl)
      obtain ⟨k, hk, hkm⟩ := hm.suffix (hab m hm)
      have hshort : m.length < l.length := by
        refine Nat.lt_of_le_of_ne hml.length_le fun h => hne ?_
        have hheads := hl.head_eq
        rw [← hml.eq_of_length h, hm.head_eq] at hheads
        exact (Option.some.inj hheads).symm
      exact ih k.length (hn ▸ Nat.lt_of_le_of_lt hkm.length_le hshort) k rfl hk
  obtain ⟨l, hl⟩ := hout
  exact hnone _ l rfl hl

/-- Post-dominators can get out where the node can. -/
theorem PostDom.out {d n : V} (h : PostDom E x d n) (hout : ∃ l, Path E n x l) : ∃ l, Path E d x l := by
  obtain ⟨l, hl⟩ := hout
  obtain ⟨l', hl', -⟩ := hl.suffix (h l hl)
  exact ⟨l', hl'⟩

theorem postDom_exit {d : V} : PostDom E x d x ↔ d = x := by
  constructor
  · intro h
    simpa using h [x] (.single x)
  · rintro rfl
    exact postDom_refl d

/-- What post-dominates a node and is another one post-dominates its successors. -/
theorem PostDom.step {d b s : V} (h : PostDom E x d b) (hne : d ≠ b) (hs : E b s) : PostDom E x d s := by
  intro l hl
  exact (List.mem_cons.1 (h _ (.cons hs hl))).resolve_left hne

/-- **The post-dominators of a node are in line**: which of the two is met first on a way out decides. -/
theorem PostDom.total {d e n : V} (hout : ∃ l, Path E n x l) (hd : PostDom E x d n) (he : PostDom E x e n) :
    PostDom E x d e ∨ PostDom E x e d := by
  obtain ⟨l, hl⟩ := hout
  induction hl with
  | single n =>
    obtain rfl := postDom_exit.1 hd
    exact .inr he
  | @cons n b c l hnb _ ih =>
    by_cases hdn : d = n
    · exact .inr (hdn ▸ he)
    · by_cases hen : e = n
      · exact .inl (hen ▸ hd)
      · exact ih (hd.step hdn hnb) (he.step hen hnb)

/-! ## A table of immediate post-dominators -/

variable {ip : V → Option V}

/-- The table in terms of post-dominance. -/
theorem immediate_above (h : Immediate (fun u v => E v u) x ip) {n : V} (hout : ∃ l, Path E n x l) (hn : n ≠ x) :
    ∃ d, ip n = some d ∧ StrictPostDom E x d n ∧ ∀ e, StrictPostDom E x e n → PostDom E x e d := by
  obtain ⟨l, hl⟩ := hout
  obtain ⟨d, hd, hdom, hne, hmin⟩ := h.above n hn ⟨_, hl.reverse⟩
  refine ⟨d, hd, ⟨postDom_iff.2 hdom, hne⟩, fun e he => ?_⟩
  exact postDom_iff.2 (hmin e (postDom_iff.1 he.1) he.2)

/-- Whether the climb from a node meets the target; `none` when `fuel` steps are not enough. -/
def reaches [DecidableEq V] (ip : V → Option V) (target : V) : Nat → Option V → Option Bool
  | 0, _ => none
  | _ + 1, none => some false
  | fuel + 1, some node => if node = target then some true else reaches ip target fuel (ip node)

/-- The nodes on the climb before `stop`. -/
def below [DecidableEq V] (ip : V → Option V) (stop : Option V) : Nat → Option V → Option (List V)
  | 0, _ => none
  | _ + 1, none => some []
  | fuel + 1, some node =>
    if some node = stop then some [] else (below ip stop fuel (ip node)).map (node :: ·)

section
variable [Fintype V]

open Classical in
/-- How many nodes lie above. -/
noncomputable def height (E : V → V → Prop) (x n : V) : Nat :=
  (Finset.univ.filter fun d => StrictPostDom E x d n).card

theorem height_lt_card (n : V) : height E x n < Fintype.card V := by
  classical
  refine Finset.card_lt_univ_of_notMem (x := n) ?_
  rw [Finset.mem_filter]
  exact fun h => h.2.2 rfl

theorem height_lt {d n : V} (hout : ∃ l, Path E n x l) (hd : StrictPostDom E x d n) :
    height E x d < height E x n := by
  classical
  refine Finset.card_lt_card ((Finset.ssubset_iff_of_subset fun e he => ?_).2 ⟨d, ?_, ?_⟩)
  · simp only [Finset.mem_filter, Finset.mem_univ, true_and] at he ⊢
    refine ⟨he.1.trans hd.1, ?_⟩
    rintro rfl
    exact he.2 (he.1.antisymm hout hd.1)
  · simpa using hd
  · rw [Finset.mem_filter]
    exact fun h => h.2.2 rfl

/-- The strict post-dominator with the most above it is the immediate one. -/
theorem exists_immediate {n : V} (hout : ∃ l, Path E n x l) (hn : n ≠ x) :
    ∃ d, StrictPostDom E x d n ∧ ∀ e, StrictPostDom E x e n → PostDom E x e d := by
  classical
  have hexit : StrictPostDom E x x n := by
    refine ⟨fun l hl => ?_, hn.symm⟩
    have := hl.reverse.head_mem
    simpa using this
  have hsome : (Finset.univ.filter fun d => StrictPostDom E x d n).Nonempty := ⟨x, by simpa using hexit⟩
  obtain ⟨d, hd, hmax⟩ := Finset.exists_max_image _ (height E x) hsome
  simp only [Finset.mem_filter, Finset.mem_univ, true_and] at hd hmax
  refine ⟨d, hd, fun e he => ?_⟩
  rcases PostDom.total hout hd.1 he.1 with hde | hed
  · by_cases heq : d = e
    · exact heq ▸ postDom_refl d
    · have hlt := height_lt (he.1.out hout) ⟨hde, heq⟩
      exact absurd (hmax e he) (by omega)
  · exact hed

variable [DecidableEq V]

/-- A climb ends where the exit cannot be reached from as well. -/
theorem reaches_some (h : Immediate (fun u v => E v u) x ip) (target : V) :
    ∀ {fuel : Nat} {n : V}, height E x n + 1 < fuel → ∃ r, reaches ip target fuel (some n) = some r
  | 0, _, hfuel => absurd hfuel (Nat.not_lt_zero _)
  | fuel + 1, n, hfuel => by
    obtain ⟨k, rfl⟩ : ∃ k, fuel = k + 1 := ⟨fuel - 1, by omega⟩
    rw [reaches]
    split
    · exact ⟨true, rfl⟩
    · by_cases hout : ∃ l, Path E n x l
      · by_cases hn : n = x
        · exact ⟨false, by rw [hn, h.at_root]; rfl⟩
        · obtain ⟨d, hd, hstrict, -⟩ := immediate_above h hout hn
          have hlow := height_lt hout hstrict
          rw [hd]
          exact reaches_some h target (by omega)
      · exact ⟨false, by rw [h.outside n fun ⟨l, hl⟩ => hout ⟨_, hl.reverse⟩]; rfl⟩

theorem below_some (h : Immediate (fun u v => E v u) x ip) (stop : Option V) :
    ∀ {fuel : Nat} {n : V}, height E x n + 1 < fuel → ∃ l, below ip stop fuel (some n) = some l
  | 0, _, hfuel => absurd hfuel (Nat.not_lt_zero _)
  | fuel + 1, n, hfuel => by
    obtain ⟨k, rfl⟩ : ∃ k, fuel = k + 1 := ⟨fuel - 1, by omega⟩
    rw [below]
    split
    · exact ⟨[], rfl⟩
    · by_cases hout : ∃ l, Path E n x l
      · by_cases hn : n = x
        · exact ⟨[n], by rw [hn, h.at_root]; rfl⟩
        · obtain ⟨d, hd, hstrict, -⟩ := immediate_above h hout hn
          have hlow := height_lt hout hstrict
          have habove : ∃ l, below ip stop (k + 1) (some d) = some l := below_some h stop (by omega)
          obtain ⟨l, hl⟩ := habove
          exact ⟨n :: l, by rw [hd, hl]; rfl⟩
      · exact ⟨[n], by rw [h.outside n fun ⟨l, hl⟩ => hout ⟨_, hl.reverse⟩]; rfl⟩

/-- **The climb meets what post-dominates.** -/
theorem reaches_spec (h : Immediate (fun u v => E v u) x ip) {target : V} :
    ∀ {fuel : Nat} {n : V}, (∃ l, Path E n x l) → height E x n + 1 < fuel →
      ∃ r, reaches ip target fuel (some n) = some r ∧ (r = true ↔ PostDom E x target n)
  | 0, _, _, hfuel => absurd hfuel (Nat.not_lt_zero _)
  | fuel + 1, n, hout, hfuel => by
    rw [reaches]
    split
    · rename_i heq
      exact ⟨true, rfl, by simp [heq, postDom_refl]⟩
    · rename_i hne
      by_cases hn : n = x
      · subst hn
        rw [h.at_root]
        obtain ⟨k, rfl⟩ : ∃ k, fuel = k + 1 := ⟨fuel - 1, by omega⟩
        exact ⟨false, rfl, by simpa [postDom_exit] using fun h => hne h.symm⟩
      · obtain ⟨d, hd, hstrict, hmin⟩ := immediate_above h hout hn
        have hlow := height_lt hout hstrict
        have habove : ∃ r, reaches ip target fuel (some d) = some r ∧ (r = true ↔ PostDom E x target d) :=
          reaches_spec h (hstrict.1.out hout) (by omega)
        obtain ⟨r, hr, hiff⟩ := habove
        refine ⟨r, by rw [hd, hr], hiff.trans ⟨fun ht => ht.trans hstrict.1, fun ht => ?_⟩⟩
        exact hmin target ⟨ht, fun h => hne h.symm⟩

/-- **The climb up to a post-dominator** meets what post-dominates the node and not that post-dominator. -/
theorem below_spec (h : Immediate (fun u v => E v u) x ip) {stop : V} :
    ∀ {fuel : Nat} {n : V}, (∃ l, Path E n x l) → height E x n + 1 < fuel → PostDom E x stop n →
      ∃ l, below ip (some stop) fuel (some n) = some l ∧
        ∀ d, d ∈ l ↔ PostDom E x d n ∧ ¬ PostDom E x d stop
  | 0, _, _, hfuel, _ => absurd hfuel (Nat.not_lt_zero _)
  | fuel + 1, n, hout, hfuel, hstop => by
    rw [below]
    split
    · rename_i heq
      obtain rfl := Option.some.inj heq
      exact ⟨[], rfl, by simp⟩
    · rename_i hne
      have hns : n ≠ stop := fun h => hne (by rw [h])
      have hn : n ≠ x := by
        rintro rfl
        exact hns (postDom_exit.1 hstop).symm
      obtain ⟨d, hd, hstrict, hmin⟩ := immediate_above h hout hn
      have hlow := height_lt hout hstrict
      have habove : ∃ l, below ip (some stop) fuel (some d) = some l ∧
          ∀ e, e ∈ l ↔ PostDom E x e d ∧ ¬ PostDom E x e stop :=
        below_spec h (hstrict.1.out hout) (by omega) (hmin stop ⟨hstop, hns.symm⟩)
      obtain ⟨l, hl, hiff⟩ := habove
      refine ⟨n :: l, by rw [hd, hl]; rfl, fun e => ?_⟩
      rw [List.mem_cons, hiff]
      constructor
      · rintro (rfl | ⟨he, hes⟩)
        · exact ⟨postDom_refl _, fun h => hns (h.antisymm hout hstop)⟩
        · exact ⟨he.trans hstrict.1, hes⟩
      · rintro ⟨he, hes⟩
        by_cases hen : e = n
        · exact .inl hen
        · exact .inr ⟨hmin e ⟨he, hen⟩, hes⟩

end

/-! ## Control dependence -/

/-- A successor that post-dominates the branch makes nothing dependent on it. -/
theorem not_dependent_of_postDom {b s n : V} (hout : ∃ l, Path E s x l) (hsb : s ≠ b) (hs : PostDom E x s b)
    (hn : PostDom E x n s) : StrictPostDom E x n b := by
  refine ⟨hn.trans hs, ?_⟩
  rintro rfl
  exact hsb (hs.antisymm hout hn)

/-- An only successor is on every way out. -/
theorem postDom_of_only {b s : V} (hb : b ≠ x) (honly : ∀ v, E b v → v = s) : PostDom E x s b := by
  intro l hl
  cases hl with
  | single => exact absurd rfl hb
  | cons hbv hp => exact List.mem_cons_of_mem _ (honly _ hbv ▸ hp.head_mem)

/-- By way of a successor: below the immediate post-dominator of the branch. -/
theorem dependent_iff_below {b s stop n : V} (hout : ∃ l, Path E b x l) (hstop : StrictPostDom E x stop b)
    (hmin : ∀ e, StrictPostDom E x e b → PostDom E x e stop) :
    PostDom E x n s ∧ ¬ PostDom E x n stop ↔ PostDom E x n s ∧ ¬ StrictPostDom E x n b := by
  refine and_congr_right fun _ => not_congr ⟨fun h => ⟨h.trans hstop.1, ?_⟩, hmin n⟩
  rintro rfl
  exact hstop.2 (hstop.1.antisymm (hstop.1.out hout) h)

/-! ## Renaming -/

section
variable {W : Type} {E' : W → W → Prop} {f : V → W} (hf : ∀ a w, E' (f a) w ↔ ∃ b, w = f b ∧ E a b)
include hf

theorem Path.map {a b : V} {l : List V} (h : Path E a b l) : Path E' (f a) (f b) (l.map f) := by
  induction h with
  | single a => exact .single (f a)
  | cons hab _ ih => exact .cons ((hf _ _).2 ⟨_, rfl, hab⟩) ih

/-- A way from a renamed node stays among the renamed nodes. -/
theorem Path.of_map {a : V} {c : W} {l : List W} (h : Path E' (f a) c l) :
    ∃ b l', c = f b ∧ l = l'.map f ∧ Path E a b l' := by
  generalize hw : f a = w at h
  induction h generalizing a with
  | single w => exact ⟨a, [a], hw.symm, by simp [hw], .single a⟩
  | cons hwv _ ih =>
    subst hw
    obtain ⟨b, rfl, hab⟩ := (hf _ _).1 hwv
    obtain ⟨c, l', rfl, rfl, hp⟩ := ih rfl
    exact ⟨c, a :: l', rfl, rfl, .cons hab hp⟩

variable (hinj : Function.Injective f)
include hinj

theorem exists_path_map {a b : V} : (∃ l, Path E' (f a) (f b) l) ↔ ∃ l, Path E a b l := by
  constructor
  · rintro ⟨l, hl⟩
    obtain ⟨b', l', hb, -, hp⟩ := hl.of_map hf
    obtain rfl := hinj hb
    exact ⟨l', hp⟩
  · rintro ⟨l, hl⟩
    exact ⟨_, hl.map hf⟩

theorem postDom_map {d n : V} : PostDom E' (f x) (f d) (f n) ↔ PostDom E x d n := by
  constructor
  · intro h l hl
    obtain ⟨d', hd', heq⟩ := List.mem_map.1 (h _ (hl.map hf))
    exact hinj heq ▸ hd'
  · intro h l hl
    obtain ⟨x', l', hx', rfl, hp⟩ := hl.of_map hf
    obtain rfl := hinj hx'
    exact List.mem_map_of_mem (h l' hp)

theorem dependent_map {b n : V} : Dependent E' (f x) (f b) (f n) ↔ Dependent E x b n := by
  have hstrict : StrictPostDom E' (f x) (f n) (f b) ↔ StrictPostDom E x n b :=
    and_congr (postDom_map hf hinj) hinj.ne_iff
  constructor
  · rintro ⟨w, hw, hpost, hnot⟩
    obtain ⟨s, rfl, hs⟩ := (hf _ _).1 hw
    exact ⟨s, hs, (postDom_map hf hinj).1 hpost, fun h => hnot (hstrict.2 h)⟩
  · rintro ⟨s, hs, hpost, hnot⟩
    exact ⟨f s, (hf _ _).2 ⟨s, rfl, hs⟩, (postDom_map hf hinj).2 hpost, fun h => hnot (hstrict.1 h)⟩

end

end Dominance
