import Mathlib

/-!
# Paths written as one text

A path is a list over some alphabet, one letter of which separates its names. `Below c d p` says that `p` lies in the
directory `d`. What lies above one path is a chain (`Below.comparable`): `parent` climbs it (`below_iff_parent`) and
`child` goes down it (`child_le`). A directory is smaller than what lies in it in the order of texts (`Below.lt`).
-/

namespace Slashed
variable {α : Type*} {c : α} {a b d e p : List α}

def Below (c : α) (d p : List α) : Prop := d ++ [c] <+: p

instance [DecidableEq α] (d p : List α) : Decidable (Below c d p) := inferInstanceAs (Decidable (_ <+: _))

theorem below_iff : Below c d p ↔ ∃ rest, p = d ++ c :: rest := by
  constructor
  · rintro ⟨rest, rfl⟩
    exact ⟨rest, by simp⟩
  · rintro ⟨rest, rfl⟩
    exact ⟨rest, by simp⟩

theorem Below.intro {rest : List α} : Below c d (d ++ c :: rest) := below_iff.2 ⟨rest, rfl⟩

theorem Below.length_lt (h : Below c d p) : d.length < p.length := by
  have hle := List.IsPrefix.length_le h
  rw [List.length_append, List.length_singleton] at hle
  omega

theorem Below.trans (h : Below c a b) (h' : Below c b d) : Below c a d :=
  List.IsPrefix.trans h ((List.prefix_append b [c]).trans h')

theorem Below.irrefl (h : Below c d d) : False := lt_irrefl _ h.length_lt

theorem Below.lt [LinearOrder α] (h : Below c d p) : d < p := by
  obtain ⟨rest, rfl⟩ := below_iff.1 h
  clear h
  induction d with
  | nil => exact List.nil_lt_cons c rest
  | cons x d ih => exact List.cons_lt_cons_self.2 ih

/-- Two directories over one path: the shorter is over the longer. -/
theorem below_of_length_lt (ha : Below c a p) (hb : b <+: p) (hlen : a.length < b.length) : Below c a b := by
  refine List.prefix_of_prefix_length_le ha hb ?_
  rw [List.length_append, List.length_singleton]
  exact hlen

theorem Below.comparable (ha : Below c a p) (hb : Below c b p) : a = b ∨ Below c a b ∨ Below c b a := by
  have hpre : ∀ {d}, Below c d p → d <+: p := fun h => (List.prefix_append _ [c]).trans h
  rcases lt_trichotomy a.length b.length with hlt | heq | hgt
  · exact Or.inr (Or.inl (below_of_length_lt ha (hpre hb) hlt))
  · exact Or.inl ((List.prefix_of_prefix_length_le (hpre ha) (hpre hb) heq.le).eq_of_length heq)
  · exact Or.inr (Or.inr (below_of_length_lt hb (hpre ha) hgt))

/-! ## The tree -/

/-- At or below. -/
def Within (c : α) (d p : List α) : Prop := d = p ∨ Below c d p

theorem Within.trans (h : Within c a b) (h' : Within c b d) : Within c a d := by
  rcases h with rfl | h
  · exact h'
  · rcases h' with rfl | h'
    · exact Or.inr h
    · exact Or.inr (h.trans h')

theorem Below.trans_within (h : Below c a b) (h' : Within c b d) : Below c a d := by
  rcases h' with rfl | h'
  · exact h
  · exact h.trans h'

/-- Neither lies in the other. -/
def Apart (c : α) (a b : List α) : Prop := ¬ Within c a b ∧ ¬ Within c b a

theorem within_comparable (ha : Within c a p) (hb : Within c b p) : Within c a b ∨ Within c b a := by
  rcases ha with rfl | ha
  · exact Or.inr hb
  · rcases hb with rfl | hb
    · exact Or.inl (Or.inr ha)
    · rcases ha.comparable hb with rfl | h | h
      · exact Or.inl (Or.inl rfl)
      · exact Or.inl (Or.inr h)
      · exact Or.inr (Or.inr h)

theorem Apart.mono (h : Apart c a b) (ha : Within c a d) (hb : Within c b e) : Apart c d e := by
  constructor
  · intro hde
    rcases within_comparable (ha.trans hde) hb with hab | hba
    · exact h.1 hab
    · exact h.2 hba
  · intro hed
    rcases within_comparable ha (hb.trans hed) with hab | hba
    · exact h.1 hab
    · exact h.2 hba

/-- The order of a sweep: what lies in a directory comes before it, and nothing comes twice. -/
def Ahead (c : α) (a b : List α) : Prop := ¬ Within c a b

/-! ## Up and down -/

section
variable [DecidableEq α]

def parent (c : α) (p : List α) : List α := ((p.reverse.dropWhile (· ≠ c)).drop 1).reverse

theorem parent_concat {rest : List α} (h : c ∉ rest) : parent c (p ++ c :: rest) = p := by
  have hdrop : (rest.reverse ++ c :: p.reverse).dropWhile (fun x => decide (x ≠ c)) = c :: p.reverse := by
    rw [List.dropWhile_append_of_pos fun x hx => ?_, List.dropWhile_cons_of_neg (by simp)]
    refine decide_eq_true fun hxc => h ?_
    rwa [List.mem_reverse, hxc] at hx
  rw [parent, List.reverse_append, List.reverse_cons, List.append_assoc, List.singleton_append, hdrop]
  simp

theorem parent_of_not_mem (h : c ∉ p) : parent c p = [] := by
  have hdrop : p.reverse.dropWhile (fun x => decide (x ≠ c)) = [] := by
    rw [List.dropWhile_eq_nil_iff]
    refine fun x hx => decide_eq_true fun hxc => h ?_
    rwa [List.mem_reverse, hxc] at hx
  rw [parent, hdrop]
  rfl

omit [DecidableEq α] in
theorem exists_last (h : c ∈ p) : ∃ front rest, p = front ++ c :: rest ∧ c ∉ rest := by
  obtain ⟨front, rest, hsplit, hnot⟩ := List.eq_append_cons_of_mem (List.mem_reverse.2 h)
  refine ⟨rest.reverse, front.reverse, ?_, by rwa [List.mem_reverse]⟩
  rw [← List.reverse_reverse p, hsplit]
  simp

/-- The directories over a path are its parent and those over the parent. -/
theorem below_iff_parent (hd : d ≠ []) : Below c d p ↔ d = parent c p ∨ Below c d (parent c p) := by
  by_cases hc : c ∈ p
  · obtain ⟨front, rest, rfl, hnot⟩ := exists_last hc
    rw [parent_concat hnot]
    constructor
    · intro h
      rcases h.comparable (@Below.intro _ c front rest) with hdf | hdf | hfd
      · exact Or.inl hdf
      · exact Or.inr hdf
      · obtain ⟨mid, rfl⟩ := below_iff.1 hfd
        obtain ⟨tail, htail⟩ := below_iff.1 h
        rw [List.append_assoc, List.append_cancel_left_eq, List.cons_append, List.cons.injEq] at htail
        exact absurd (htail.2 ▸ by simp) hnot
    · rintro (rfl | h)
      · exact Below.intro
      · exact h.trans Below.intro
  · rw [parent_of_not_mem hc]
    constructor
    · intro h
      obtain ⟨rest, rfl⟩ := below_iff.1 h
      exact absurd (by simp) hc
    · rintro (h | h)
      · exact absurd h hd
      · exact absurd h.length_lt (Nat.not_lt_zero _)

theorem parent_length_lt (h : p ≠ []) : (parent c p).length < p.length := by
  by_cases hc : c ∈ p
  · obtain ⟨front, rest, rfl, hnot⟩ := exists_last hc
    rw [parent_concat hnot, List.length_append, List.length_cons]
    omega
  · rw [parent_of_not_mem hc]
    exact List.length_pos_of_ne_nil h

/-- The name a path goes on with below a directory. -/
def child (c : α) (d p : List α) : Option (List α) :=
  if Below c d p ∧ c ∈ p.drop (d.length + 1) then some ((p.drop (d.length + 1)).takeWhile (· ≠ c)) else none

theorem child_eq_some {name : List α} :
    child c d p = some name ↔ c ∉ name ∧ Below c (d ++ c :: name) p := by
  have hdrop : ∀ rest, (d ++ c :: rest).drop (d.length + 1) = rest := fun rest => by
    rw [← List.singleton_append, ← List.append_assoc]
    exact List.drop_left' (by simp)
  have htake : ∀ {front tail : List α}, c ∉ front →
      (front ++ c :: tail).takeWhile (fun x => decide (x ≠ c)) = front := by
    intro front tail hnot
    have hall : ∀ x ∈ front, decide (x ≠ c) = true := fun x hx => decide_eq_true fun hxc => hnot (hxc ▸ hx)
    rw [List.takeWhile_append_of_pos hall, List.takeWhile_cons_of_neg (by simp), List.append_nil]
  unfold child
  constructor
  · intro h
    obtain ⟨⟨hbelow, hmem⟩, hname⟩ := Option.ite_none_right_eq_some.1 h
    obtain ⟨rest, rfl⟩ := below_iff.1 hbelow
    rw [hdrop] at hmem hname
    obtain ⟨front, tail, rfl, hnot⟩ := List.eq_append_cons_of_mem hmem
    rw [Option.some.injEq, htake hnot] at hname
    subst hname
    exact ⟨hnot, below_iff.2 ⟨tail, by simp⟩⟩
  · intro ⟨hnot, hbelow⟩
    obtain ⟨tail, rfl⟩ := below_iff.1 hbelow
    rw [List.append_assoc, List.cons_append, hdrop, if_pos ⟨Below.intro, by simp⟩, htake hnot]

/-- A directory between another and a path is the next one down, or in it. -/
theorem child_le (hde : Below c d e) (hep : Below c e p) :
    ∃ name, child c d p = some name ∧ Within c (d ++ c :: name) e := by
  obtain ⟨rest, rfl⟩ := below_iff.1 hde
  by_cases hc : c ∈ rest
  · obtain ⟨name, tail, rfl, hnot⟩ := List.eq_append_cons_of_mem hc
    have hbelow : Below c (d ++ c :: name) (d ++ c :: (name ++ c :: tail)) := below_iff.2 ⟨tail, by simp⟩
    exact ⟨name, child_eq_some.2 ⟨hnot, hbelow.trans hep⟩, Or.inr hbelow⟩
  · exact ⟨rest, child_eq_some.2 ⟨hc, hep⟩, Or.inl rfl⟩

end

theorem apart_children {n m : List α} (hn : c ∉ n) (hm : c ∉ m) (hne : n ≠ m) :
    Apart c (d ++ c :: n) (d ++ c :: m) := by
  have hkey : ∀ {n m : List α}, c ∉ m → n ≠ m → ¬ Within c (d ++ c :: n) (d ++ c :: m) := by
    rintro n m hm hne (h | h)
    · rw [List.append_cancel_left_eq, List.cons.injEq] at h
      exact hne h.2
    · obtain ⟨rest, h⟩ := below_iff.1 h
      rw [List.append_assoc, List.append_cancel_left_eq, List.cons_append, List.cons.injEq] at h
      exact hm (h.2 ▸ by simp)
  exact ⟨hkey hm hne, hkey hn hne.symm⟩

/-! ## Cutting at the separator -/

theorem not_mem_of_mem_splitOn [BEq α] [LawfulBEq α] {part : List α} (h : part ∈ p.splitOn c) : c ∉ part := by
  induction p generalizing part with
  | nil =>
    rw [List.splitOn_nil, List.mem_singleton] at h
    rw [h]
    exact List.not_mem_nil
  | cons x p ih =>
    rw [List.splitOn_cons_eq_if_modifyHead] at h
    split at h
    · rcases List.mem_cons.1 h with rfl | h
      · exact List.not_mem_nil
      · exact ih h
    · rename_i hx
      obtain ⟨head, tail, hsplit⟩ := List.exists_cons_of_ne_nil (List.splitOn_ne_nil c p)
      rw [hsplit, List.modifyHead_cons] at h
      rcases List.mem_cons.1 h with rfl | h
      · have hhead : c ∉ head := ih (hsplit ▸ List.mem_cons_self)
        exact fun hmem => (List.mem_cons.1 hmem).elim (fun heq => hx (beq_iff_eq.2 heq.symm)) hhead
      · exact ih (hsplit ▸ List.mem_cons_of_mem _ h)

end Slashed
