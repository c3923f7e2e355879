import Mathlib

/-!
# Decimal text

`pad w n`: the last `w` decimal digits of `n`, most significant first. Text of one width is ordered as the numbers
are (`pad_lt_pad`). `trim` drops trailing zeros, as a fraction is written; trimmed fractions that go on with a
character above every digit are ordered as the numbers are unless one is a prefix of the other (`trim_lt_trim`).
-/

namespace Decimal

def pad : Nat → Nat → List Char
  | 0, _ => []
  | w + 1, n => Nat.digitChar (n / 10 ^ w % 10) :: pad w n

/-- Without trailing zeros. -/
def trim (l : List Char) : List Char := l.rdropWhile (· = '0')

/-! ## Lexicographic order -/

section
variable {α : Type} [LinearOrder α]

theorem cons_lt_cons {a b : α} {s t : List α} : a :: s < b :: t ↔ a < b ∨ a = b ∧ s < t := List.cons_lt_cons_iff

theorem append_lt_append_left (l : List α) {s t : List α} : l ++ s < l ++ t ↔ s < t := by
  induction l with
  | nil => rfl
  | cons a l ih => simp [ih]

/-- Texts that start with fields of one width compare field by field. -/
theorem append_lt_append {a b : List α} (h : a.length = b.length) {s t : List α} :
    a ++ s < b ++ t ↔ a < b ∨ a = b ∧ s < t := by
  induction a generalizing b with
  | nil =>
    obtain rfl : b = [] := List.length_eq_zero_iff.1 h.symm
    simp
  | cons x a ih =>
    cases b with
    | nil => simp at h
    | cons y b =>
      have hlen : a.length = b.length := by simpa using h
      simp only [List.cons_append, cons_lt_cons, ih hlen, List.cons.injEq]
      tauto

/-- Two lists part at some place, or one is a prefix of the other. -/
theorem prefix_or_parts (l m : List α) :
    l <+: m ∨ m <+: l ∨ ∃ p a b s t, a ≠ b ∧ l = p ++ a :: s ∧ m = p ++ b :: t := by
  induction l generalizing m with
  | nil => exact .inl (List.nil_prefix)
  | cons x l ih =>
    cases m with
    | nil => exact .inr (.inl List.nil_prefix)
    | cons y m =>
      by_cases hxy : x = y
      · subst hxy
        rcases ih m with h | h | ⟨p, a, b, s, t, hab, rfl, rfl⟩
        · exact .inl ((List.prefix_cons_inj x).2 h)
        · exact .inr (.inl ((List.prefix_cons_inj x).2 h))
        · exact .inr (.inr ⟨x :: p, a, b, s, t, hab, rfl, rfl⟩)
      · exact .inr (.inr ⟨[], x, y, l, m, hxy, rfl, rfl⟩)

end

/-! ## `pad` -/

theorem digitChar_lt : ∀ a < 10, ∀ b < 10, (Nat.digitChar a < Nat.digitChar b ↔ a < b) := by decide

theorem digitChar_inj : ∀ a < 10, ∀ b < 10, (Nat.digitChar a = Nat.digitChar b ↔ a = b) := by decide

theorem digitChar_bounds : ∀ a < 10, '0' ≤ Nat.digitChar a ∧ Nat.digitChar a ≤ '9' := by decide

@[simp] theorem length_pad (w n : Nat) : (pad w n).length = w := by
  induction w with
  | zero => rfl
  | succ w ih => simp [pad, ih]

/-- A digit is one of ten characters. -/
theorem mem_pad {w n : Nat} {c : Char} (h : c ∈ pad w n) : '0' ≤ c ∧ c ≤ '9' := by
  induction w with
  | zero => cases h
  | succ w ih =>
    rcases List.mem_cons.1 h with rfl | h
    · exact digitChar_bounds _ (Nat.mod_lt _ (by decide))
    · exact ih h

theorem pad_mod (w n : Nat) : pad w (n % 10 ^ w) = pad w n := by
  suffices h : ∀ v ≤ w, pad v (n % 10 ^ w) = pad v n from h w le_rfl
  intro v hv
  induction v with
  | zero => rfl
  | succ v ih =>
    have hdigit : n % 10 ^ w / 10 ^ v % 10 = n / 10 ^ v % 10 := by
      obtain ⟨k, rfl⟩ := Nat.exists_eq_add_of_le hv
      rw [show v + 1 + k = v + (k + 1) by omega, pow_add, Nat.mod_mul_right_div_self, pow_succ',
        Nat.mod_mul_right_mod]
    rw [pad, pad, hdigit, ih (by omega)]

theorem pad_lt_pad {w n m : Nat} (hn : n < 10 ^ w) (hm : m < 10 ^ w) : pad w n < pad w m ↔ n < m := by
  induction w generalizing n m with
  | zero =>
    obtain rfl : n = 0 := by omega
    obtain rfl : m = 0 := by omega
    simp [pad]
  | succ w ih =>
    have hpos : 0 < 10 ^ w := Nat.pow_pos (by decide)
    have hn' : n / 10 ^ w < 10 := Nat.div_lt_of_lt_mul (by rwa [pow_succ] at hn)
    have hm' : m / 10 ^ w < 10 := Nat.div_lt_of_lt_mul (by rwa [pow_succ] at hm)
    have hrest := ih (Nat.mod_lt n hpos) (Nat.mod_lt m hpos)
    rw [pad_mod, pad_mod] at hrest
    rw [pad, pad, cons_lt_cons, Nat.mod_eq_of_lt hn', Nat.mod_eq_of_lt hm', digitChar_lt _ hn' _ hm',
      digitChar_inj _ hn' _ hm', hrest]
    have h1 := Nat.div_add_mod n (10 ^ w)
    have h2 := Nat.div_add_mod m (10 ^ w)
    constructor
    · rintro (hlt | ⟨heq, hlt⟩)
      · exact Nat.lt_of_div_lt_div hlt
      · calc n = 10 ^ w * (m / 10 ^ w) + n % 10 ^ w := by rw [← heq, h1]
          _ < 10 ^ w * (m / 10 ^ w) + m % 10 ^ w := Nat.add_lt_add_left hlt _
          _ = m := h2
    · intro hlt
      rcases (Nat.div_le_div_right (c := 10 ^ w) hlt.le).lt_or_eq with hq | hq
      · exact .inl hq
      · have hsum : 10 ^ w * (m / 10 ^ w) + n % 10 ^ w < 10 ^ w * (m / 10 ^ w) + m % 10 ^ w :=
          calc 10 ^ w * (m / 10 ^ w) + n % 10 ^ w = n := by rw [← hq, h1]
            _ < m := hlt
            _ = 10 ^ w * (m / 10 ^ w) + m % 10 ^ w := h2.symm
        exact .inr ⟨hq, Nat.lt_of_add_lt_add_left hsum⟩

theorem pad_inj {w n m : Nat} (hn : n < 10 ^ w) (hm : m < 10 ^ w) : pad w n = pad w m ↔ n = m := by
  constructor
  · intro h
    refine le_antisymm (not_lt.1 fun hlt => ?_) (not_lt.1 fun hlt => ?_)
    · exact absurd ((pad_lt_pad hm hn).2 hlt) (h ▸ lt_irrefl _)
    · exact absurd ((pad_lt_pad hn hm).2 hlt) (h ▸ lt_irrefl _)
  · rintro rfl
    rfl

/-- Texts that start with numbers of one width. -/
theorem pad_append_lt {w n m : Nat} (hn : n < 10 ^ w) (hm : m < 10 ^ w) {s t : List Char} :
    pad w n ++ s < pad w m ++ t ↔ n < m ∨ n = m ∧ s < t := by
  rw [append_lt_append ((length_pad _ _).trans (length_pad _ _).symm), pad_lt_pad hn hm, pad_inj hn hm]

/-! ## Digits and their number -/

def value (digits : List Nat) : Nat := digits.foldl (fun n d => 10 * n + d) 0

theorem value_append (ds es : List Nat) : value (ds ++ es) = value ds * 10 ^ es.length + value es := by
  induction es using List.reverseRecOn with
  | nil => simp [value]
  | append_singleton es d ih =>
    have hsnoc : ∀ l : List Nat, value (l ++ [d]) = 10 * value l + d := fun l => List.foldl_append
    rw [← List.append_assoc, hsnoc, hsnoc, ih, List.length_append, List.length_singleton, pow_succ]
    ring

theorem value_lt {ds : List Nat} (h : ∀ d ∈ ds, d < 10) : value ds < 10 ^ ds.length := by
  induction ds using List.reverseRecOn with
  | nil => exact Nat.one_pos
  | append_singleton ds d ih =>
    have hd : d < 10 := h d (by simp)
    have hds := ih fun x hx => h x (List.mem_append_left _ hx)
    have hsnoc : value (ds ++ [d]) = 10 * value ds + d := List.foldl_append
    rw [hsnoc, List.length_append, List.length_singleton, pow_succ]
    omega

theorem value_eq_zero {ds : List Nat} : value ds = 0 ↔ ∀ d ∈ ds, d = 0 := by
  induction ds using List.reverseRecOn with
  | nil => simp [value]
  | append_singleton ds d ih =>
    have hsnoc : value (ds ++ [d]) = 10 * value ds + d := List.foldl_append
    have hsplit : value (ds ++ [d]) = 0 ↔ value ds = 0 ∧ d = 0 := by
      rw [hsnoc]
      omega
    rw [hsplit, ih, List.forall_mem_append, List.forall_mem_singleton]

theorem pad_digits (w n : Nat) : ∃ ds : List Nat, ds.length = w ∧ (∀ d ∈ ds, d < 10) ∧
    pad w n = ds.map Nat.digitChar ∧ value ds = n % 10 ^ w := by
  induction w generalizing n with
  | zero => exact ⟨[], rfl, fun d hd => (List.not_mem_nil hd).elim, rfl, (Nat.mod_one n).symm⟩
  | succ w ih =>
    obtain ⟨ds, hlen, hlt, hpad, hvalue⟩ := ih n
    refine ⟨n / 10 ^ w % 10 :: ds, by rw [List.length_cons, hlen], ?_, by rw [pad, hpad]; rfl, ?_⟩
    · exact List.forall_mem_cons.2 ⟨Nat.mod_lt _ (by decide), hlt⟩
    · have hcons := value_append [n / 10 ^ w % 10] ds
      rw [List.singleton_append, hlen, hvalue] at hcons
      rw [hcons, Nat.mod_pow_succ, Nat.add_comm, Nat.mul_comm]
      simp [value]

/-! ## Zeros in front -/

/-- At least `w` digits. -/
def zeros (w n : Nat) : List Char := (Nat.toDigits 10 n).leftpad w '0'

theorem pad_zero (w : Nat) : pad w 0 = List.replicate w '0' := by
  induction w with
  | zero => rfl
  | succ w ih => rw [pad, ih, Nat.zero_div, List.replicate_succ]; rfl

/-- The last digit. -/
theorem pad_succ (w n : Nat) : pad (w + 1) n = pad w (n / 10) ++ [Nat.digitChar (n % 10)] := by
  induction w generalizing n with
  | zero => simp [pad]
  | succ w ih =>
    rw [pad, ih, pad, List.cons_append, Nat.div_div_eq_div_mul, pow_succ']

theorem zeros_eq_pad {w n : Nat} (hw : 0 < w) (hn : n < 10 ^ w) : zeros w n = pad w n := by
  unfold zeros
  induction w generalizing n with
  | zero => cases hw
  | succ w ih =>
    rw [pad_succ]
    rcases Nat.lt_or_ge n 10 with hlt | hge
    · rw [Nat.toDigits_of_lt_base hlt, Nat.div_eq_of_lt hlt, Nat.mod_eq_of_lt hlt, pad_zero, List.leftpad]
      rfl
    · have hw' : 0 < w := by
        rcases Nat.eq_zero_or_pos w with rfl | h
        · omega
        · exact h
      have hdiv : n / 10 < 10 ^ w := Nat.div_lt_of_lt_mul (by rwa [pow_succ'] at hn)
      rw [Nat.toDigits_of_base_le (by decide) hge, ← ih hw' hdiv, List.leftpad, List.leftpad, List.length_append,
        List.length_singleton, Nat.add_sub_add_right, List.append_assoc]

/-! ## `trim` -/

theorem eq_trim_append (l : List Char) : ∃ k, l = trim l ++ List.replicate k '0' := by
  refine ⟨(l.rtakeWhile (· = '0')).length, ?_⟩
  have hzeros : l.rtakeWhile (· = '0') = List.replicate (l.rtakeWhile (· = '0')).length '0' := by
    refine List.eq_replicate_of_mem fun c hc => ?_
    simpa using List.mem_rtakeWhile_imp hc
  have hsplit : l.rdropWhile (· = '0') ++ l.rtakeWhile (· = '0') = l := List.rdropWhile_append_rtakeWhile
  rw [hzeros] at hsplit
  exact hsplit.symm

theorem replicate_zero_le {l : List Char} (h : ∀ c ∈ l, '0' ≤ c) : ¬ l < List.replicate l.length '0' := by
  induction l with
  | nil => simp
  | cons a l ih =>
    have ha := h a (by simp)
    have hl := ih fun c hc => h c (by simp [hc])
    rw [List.length_cons, List.replicate_succ, cons_lt_cons]
    rintro (hlt | ⟨-, hlt⟩)
    · exact absurd ha (not_le.2 hlt)
    · exact hl hlt

/-- Trimmed digit texts of one width, ended by a character above every digit. -/
theorem trim_lt_trim {l m : List Char} (hlen : l.length = m.length) (hm : ∀ c ∈ m, '0' ≤ c ∧ c ≤ '9')
    (hl : ∀ c ∈ l, '0' ≤ c) {z : Char} (hz : '9' < z) (hlt : l < m) :
    trim l ++ [z] < trim m ++ [z] ↔ ¬ trim l <+: trim m := by
  obtain ⟨j, hj⟩ := eq_trim_append l
  obtain ⟨k, hk⟩ := eq_trim_append m
  constructor
  · rintro h ⟨e, he⟩
    rw [← he, List.append_assoc, append_lt_append_left] at h
    cases e with
    | nil => simp at h
    | cons a e =>
      have ha : a ∈ m := by
        rw [hk, ← he]
        simp
      rcases cons_lt_cons.1 h with h | ⟨h, -⟩
      · exact absurd ((hz.trans h).trans_le (hm a ha).2) (lt_irrefl _)
      · exact absurd (hz.trans_le (h ▸ (hm a ha).2)) (lt_irrefl _)
  · intro hnot
    rcases prefix_or_parts (trim l) (trim m) with h | ⟨e, he⟩ | ⟨p, a, b, s, t, hab, hl', hm'⟩
    · exact absurd h hnot
    · -- the zeros of `m` would have to be above the digits of `l`
      exfalso
      rw [hj, hk, ← he, List.append_assoc, append_lt_append_left] at hlt
      have hsame : (e ++ List.replicate j '0').length = k := by
        have h1 := congrArg List.length hj
        have h2 := congrArg List.length hk
        have h3 := congrArg List.length he
        simp only [List.length_append, List.length_replicate] at h1 h2 h3 ⊢
        omega
      rw [← hsame] at hlt
      refine replicate_zero_le (fun c hc => ?_) hlt
      rcases List.mem_append.1 hc with hc | hc
      · refine hl c ?_
        rw [hj, ← he]
        simp [hc]
      · rw [(List.mem_replicate.1 hc).2]
    · rw [hj, hk, hl', hm', List.append_assoc, List.append_assoc, append_lt_append_left] at hlt
      rw [hl', hm', List.append_assoc, List.append_assoc, append_lt_append_left]
      rcases cons_lt_cons.1 hlt with h | ⟨h, -⟩
      · exact cons_lt_cons.2 (.inl h)
      · exact absurd h hab

end Decimal
