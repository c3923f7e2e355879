import Mathlib

/-!
# Values behind markers

A text is a list of elements with a character each, so that a proof can follow where an element goes. `pass` looks for
a marker from left to right, puts `inserted` in place of what stands behind it up to the next stop, and looks on from
there.

A pass goes stop by stop where the marker has none (`pass_append_stop`), so it works on each word alone, and shortens
it at the first marker (`Shortened`). A marker that ends in a stop looks at the word before (`pass_append_last`).
-/

namespace Markers

section
variable {α : Type*} (char : α → Char) (stop : Char → Bool) (marker : List Char) (inserted : List α)

/-- The text in front of the first marker, and the text from there on. -/
def find : List α → Option (List α × List α)
  | [] => if marker = [] then some ([], []) else none
  | x :: xs =>
    if marker <+: (x :: xs).map char then some ([], x :: xs)
    else (find xs).map fun p => (x :: p.1, p.2)

/-- From the next stop on. -/
def toStop (xs : List α) : List α := xs.dropWhile fun x => !stop (char x)

theorem toStop_length_le (xs : List α) : (toStop char stop xs).length ≤ xs.length :=
  (List.dropWhile_suffix _).length_le

end

section
variable {α : Type*} {char : α → Char} {marker : List Char}

theorem find_nil (hm : marker ≠ []) : find char marker ([] : List α) = none := by rw [find, if_neg hm]

theorem find_cons (x : α) (xs : List α) : find char marker (x :: xs) =
    if marker <+: (x :: xs).map char then some ([], x :: xs)
    else (find char marker xs).map fun p => (x :: p.1, p.2) := by
  rw [find]

theorem find_some : ∀ {xs a b : List α}, find char marker xs = some (a, b) →
    xs = a ++ b ∧ marker <+: b.map char
  | [], a, b, h => by
    rw [find] at h
    split at h
    · rename_i hempty
      cases h
      rw [hempty]
      exact ⟨rfl, List.nil_prefix⟩
    · cases h
  | x :: xs, a, b, h => by
    rw [find] at h
    split at h
    · rename_i hstart
      cases h
      exact ⟨rfl, hstart⟩
    · obtain ⟨⟨a', b'⟩, hfind, heq⟩ := Option.map_eq_some_iff.1 h
      cases heq
      obtain ⟨hsplit, hstart⟩ := find_some hfind
      exact ⟨by rw [hsplit]; rfl, hstart⟩

/-- A marker is found, and none before it. -/
theorem find_append : ∀ (a b : List α), marker <+: b.map char →
    ∃ a' b', find char marker (a ++ b) = some (a', b') ∧ a'.length ≤ a.length
  | [], b, h => by
    cases b with
    | nil => exact ⟨[], [], by rw [List.nil_append, find, List.prefix_nil.1 h]; rfl, le_rfl⟩
    | cons x b => exact ⟨[], x :: b, by rw [List.nil_append, find, if_pos h], le_rfl⟩
  | x :: a, b, h => by
    rw [List.cons_append, find]
    split
    · exact ⟨[], _, rfl, Nat.zero_le _⟩
    · obtain ⟨a', b', hfind, hle⟩ := find_append a b h
      exact ⟨x :: a', b', by rw [hfind]; rfl, Nat.succ_le_succ hle⟩

theorem length_le_of_find {xs a b : List α} (h : find char marker xs = some (a, b)) : marker.length ≤ b.length := by
  simpa using (find_some h).2.length_le

end

variable {α : Type*} (char : α → Char) (stop : Char → Bool) (inserted : List α)

/-- One pass over a text. -/
def pass (marker : List Char) (xs : List α) : List α :=
  match _ : find char marker xs with
  | none => xs
  | some (a, b) =>
    if _ : marker = [] then xs
    else a ++ b.take marker.length ++ inserted ++ pass marker (toStop char stop (b.drop marker.length))
termination_by xs.length
decreasing_by
  rename_i hfind hm
  have hsplit := (find_some hfind).1
  have hle := length_le_of_find hfind
  have hpos := List.length_pos_of_ne_nil hm
  have hstop := toStop_length_le char stop (b.drop marker.length)
  rw [List.length_drop] at hstop
  rw [hsplit, List.length_append]
  omega

variable {char stop inserted} {marker : List Char} {xs x y : List α} {d : α}

theorem pass_none (h : find char marker xs = none) : pass char stop inserted marker xs = xs := by
  rw [pass]
  split
  · rfl
  · rename_i a b hfind
    rw [h] at hfind
    cases hfind

theorem pass_some (hm : marker ≠ []) {a b : List α} (h : find char marker xs = some (a, b)) :
    pass char stop inserted marker xs =
      a ++ b.take marker.length ++ inserted ++
        pass char stop inserted marker (toStop char stop (b.drop marker.length)) := by
  rw [pass]
  split
  · rename_i hfind
    rw [h] at hfind
    cases hfind
  · rename_i a' b' hfind
    rw [h] at hfind
    cases hfind
    rw [dif_neg hm]

@[simp] theorem pass_nil : pass char stop inserted marker ([] : List α) = [] := by
  by_cases hm : marker = []
  · rw [pass]
    split
    · rfl
    · rw [dif_pos hm]
  · exact pass_none (find_nil hm)

/-- A pass puts in nothing else. -/
theorem mem_pass (hm : marker ≠ []) {e : α} (h : e ∈ pass char stop inserted marker xs) : e ∈ xs ∨ e ∈ inserted := by
  induction hn : xs.length using Nat.strong_induction_on generalizing xs with
  | _ n ih =>
    cases hfind : find char marker xs with
    | none =>
      rw [pass_none hfind] at h
      exact .inl h
    | some p =>
      obtain ⟨a, b⟩ := p
      obtain ⟨rfl, -⟩ := find_some hfind
      have hle := length_le_of_find hfind
      have hpos := List.length_pos_of_ne_nil hm
      have hstop := toStop_length_le char stop (b.drop marker.length)
      rw [List.length_drop] at hstop
      rw [List.length_append] at hn
      rw [pass_some hm hfind] at h
      simp only [List.mem_append] at h
      rcases h with ((h | h) | h) | h
      · exact .inl (List.mem_append_left _ h)
      · exact .inl (List.mem_append_right _ (List.mem_of_mem_take h))
      · exact .inr h
      · rcases ih _ (by omega) h rfl with h | h
        · exact .inl (List.mem_append_right _ (List.mem_of_mem_drop ((List.dropWhile_suffix _).subset h)))
        · exact .inr h

/-- A pass keeps the first element. -/
theorem head?_pass (hm : marker ≠ []) : (pass char stop inserted marker xs).head? = xs.head? := by
  cases hfind : find char marker xs with
  | none => rw [pass_none hfind]
  | some p =>
    obtain ⟨a, b⟩ := p
    obtain ⟨rfl, -⟩ := find_some hfind
    have hle := length_le_of_find hfind
    have hpos := List.length_pos_of_ne_nil hm
    rw [pass_some hm hfind]
    cases a with
    | cons e a => rfl
    | nil =>
      cases b with
      | nil => exact absurd (Nat.le_zero.1 hle) hpos.ne'
      | cons e b =>
        obtain ⟨n, hn⟩ := Nat.exists_eq_succ_of_ne_zero hpos.ne'
        rw [hn]
        rfl

/-! ## Markers without a stop -/

/-- A marker without a stop is in front of the stop or behind it. -/
theorem prefix_append_stop {c : Char} {a b : List Char} (hm : c ∉ marker) : marker <+: a ++ c :: b ↔ marker <+: a := by
  constructor
  · intro h
    by_cases hlen : marker.length ≤ a.length
    · exact List.prefix_of_prefix_length_le h (List.prefix_append a (c :: b)) hlen
    · have hstop : a ++ [c] <+: a ++ c :: b := ⟨b, by simp⟩
      have hin := (List.prefix_of_prefix_length_le hstop h (by simp; omega)).subset (a := c) (by simp)
      exact absurd hin hm
  · exact fun h => h.trans (List.prefix_append _ _)

theorem find_append_stop (hne : marker ≠ []) (hm : char d ∉ marker) :
    find char marker (x ++ d :: y) = (find char marker x).elim
      ((find char marker y).map fun p => (x ++ d :: p.1, p.2)) fun p => some (p.1, p.2 ++ d :: y) := by
  induction x with
  | nil =>
    have hno : ¬marker <+: (d :: y).map char := by
      intro h
      exact hne (List.prefix_nil.1 ((prefix_append_stop hm).1 (by simpa using h)))
    rw [List.nil_append, find_cons, if_neg hno, find_nil hne]
    rfl
  | cons e x ih =>
    have hiff : marker <+: (e :: (x ++ d :: y)).map char ↔ marker <+: (e :: x).map char := by
      rw [← List.cons_append, List.map_append, List.map_cons (a := d), prefix_append_stop hm]
    rw [List.cons_append, find_cons, find_cons]
    by_cases h : marker <+: (e :: x).map char
    · rw [if_pos (hiff.2 h), if_pos h]
      rfl
    · rw [if_neg fun h' => h (hiff.1 h'), if_neg h, ih]
      cases find char marker x with
      | none =>
        cases find char marker y with
        | none => rfl
        | some p => rfl
      | some p => rfl

theorem toStop_append (hd : stop (char d) = true) :
    toStop char stop (x ++ d :: y) = toStop char stop x ++ d :: y := by
  induction x with
  | nil => rw [List.nil_append, toStop, List.dropWhile_cons_of_neg (by simp [hd])]; rfl
  | cons e x ih =>
    by_cases he : stop (char e) = true
    · rw [List.cons_append, toStop, List.dropWhile_cons_of_neg (by simp [he]), toStop,
        List.dropWhile_cons_of_neg (by simp [he])]
      rfl
    · rw [List.cons_append, toStop, List.dropWhile_cons_of_pos (by simp [he]), ← toStop, ih, toStop, toStop,
        List.dropWhile_cons_of_pos (by simp [he])]

/-- **A pass goes stop by stop.** -/
theorem pass_append_stop (hne : marker ≠ []) (hm : char d ∉ marker) (hd : stop (char d) = true) :
    pass char stop inserted marker (x ++ d :: y) =
      pass char stop inserted marker x ++ d :: pass char stop inserted marker y := by
  induction hn : x.length using Nat.strong_induction_on generalizing x with
  | _ n ih =>
    have hfind := @find_append_stop _ char marker x y d hne hm
    cases hx : find char marker x with
    | none =>
      rw [hx, Option.elim_none] at hfind
      rw [pass_none hx]
      cases hy : find char marker y with
      | none =>
        rw [hy, Option.map_none] at hfind
        rw [pass_none hfind, pass_none hy]
      | some p =>
        rw [hy, Option.map_some] at hfind
        rw [pass_some hne hfind, pass_some hne hy]
        simp
    | some p =>
      obtain ⟨a, b⟩ := p
      rw [hx, Option.elim_some] at hfind
      obtain ⟨rfl, -⟩ := find_some hx
      have hle := length_le_of_find hx
      have hpos := List.length_pos_of_ne_nil hne
      have hstop := toStop_length_le char stop (b.drop marker.length)
      rw [List.length_drop] at hstop
      rw [List.length_append] at hn
      rw [pass_some hne hfind, pass_some hne hx, List.take_append_of_le_length hle, List.drop_append_of_le_length hle,
        toStop_append hd, ih _ (by omega) rfl]
      simp

/-! ## A marker whose last character is a stop -/

theorem suffix_append_stop {word a b : List Char} {c : Char} (h : c ∉ word) : word <:+ a ++ c :: b ↔ word <:+ b := by
  rw [← List.reverse_prefix, ← List.reverse_prefix]
  have hrev : c ∉ word.reverse := by simpa using h
  simpa using prefix_append_stop (a := b.reverse) (b := a.reverse) hrev

theorem prefix_append_last {word a b : List Char} {c e : Char} (h : e ∉ word) :
    word ++ [c] <+: a ++ e :: b ↔ word ++ [c] <+: a ∨ word = a ∧ c = e := by
  constructor
  · intro hstart
    by_cases hlen : (word ++ [c]).length ≤ a.length
    · exact .inl (List.prefix_of_prefix_length_le hstart (List.prefix_append a (e :: b)) hlen)
    · have hlast : a ++ [e] <+: word ++ [c] := by
        have hstop : a ++ [e] <+: a ++ e :: b := ⟨b, by simp⟩
        refine List.prefix_of_prefix_length_le hstop hstart ?_
        simp only [List.length_append, List.length_singleton] at hlen ⊢
        omega
      rcases List.prefix_concat_iff.1 hlast with heq | hin
      · obtain ⟨hword, hstop⟩ := List.append_inj' heq rfl
        exact .inr ⟨hword.symm, (List.cons.inj hstop).1.symm⟩
      · exact absurd (hin.subset (List.mem_append_right _ List.mem_cons_self)) h
  · rintro (hstart | ⟨rfl, rfl⟩)
    · exact hstart.trans (List.prefix_append _ _)
    · exact ⟨b, by simp⟩

section
variable {word : List Char} {c : Char}

theorem find_append_last (hne : word ≠ []) (hd : char d ∉ word) : find char (word ++ [c]) (x ++ d :: y) =
    (find char (word ++ [c]) x).elim
      (if char d = c ∧ word <:+ x.map char then
        some (x.take (x.length - word.length), x.drop (x.length - word.length) ++ d :: y)
      else (find char (word ++ [c]) y).map fun p => (x ++ d :: p.1, p.2))
      fun p => some (p.1, p.2 ++ d :: y) := by
  induction x with
  | nil =>
    have hno : ¬word ++ [c] <+: (d :: y).map char := by
      intro h
      rcases (prefix_append_last (a := []) hd).1 h with h | ⟨h, -⟩
      · simp at h
      · exact hne h
    rw [List.nil_append, find_cons, if_neg hno, find_nil (by simp), Option.elim_none, if_neg]
    · rfl
    · rintro ⟨-, h⟩
      exact hne (List.suffix_nil.1 h)
  | cons e x ih =>
    have hiff : word ++ [c] <+: (e :: (x ++ d :: y)).map char ↔
        word ++ [c] <+: (e :: x).map char ∨ word = (e :: x).map char ∧ c = char d := by
      rw [← List.cons_append, List.map_append, List.map_cons (a := d), prefix_append_last hd]
    have hsuffix : word <:+ (e :: x).map char ↔ word = (e :: x).map char ∨ word <:+ x.map char := by
      rw [List.map_cons, List.suffix_cons_iff]
    rw [List.cons_append, find_cons, find_cons]
    by_cases h : word ++ [c] <+: (e :: x).map char
    · rw [if_pos (hiff.2 (.inl h)), if_pos h]
      rfl
    · rw [if_neg h]
      by_cases hlast : word = (e :: x).map char ∧ c = char d
      · -- the marker is longer than what stands in front of the stop
        have hnone : find char (word ++ [c]) x = none := by
          cases hx : find char (word ++ [c]) x with
          | none => rfl
          | some p =>
            have hle := length_le_of_find hx
            rw [(find_some hx).1] at hlast
            have hlen := congrArg List.length hlast.1
            simp only [List.length_append, List.length_map, List.length_cons, List.length_nil] at hle hlen
            omega
        have hlen : (e :: x).length - word.length = 0 := by
          rw [hlast.1, List.length_map, Nat.sub_self]
        rw [if_pos (hiff.2 (.inr hlast)), hnone, Option.map_none, Option.elim_none,
          if_pos ⟨hlast.2.symm, hsuffix.2 (.inl hlast.1)⟩, hlen]
        rfl
      · rw [if_neg fun h' => (hiff.1 h').elim h hlast, ih]
        cases find char (word ++ [c]) x with
        | some p => rfl
        | none =>
          simp only [Option.map_none, Option.elim_none]
          by_cases hcond : char d = c ∧ word <:+ x.map char
          · have hle := hcond.2.length_le
            rw [List.length_map] at hle
            rw [if_pos hcond, if_pos ⟨hcond.1, hsuffix.2 (.inr hcond.2)⟩, List.length_cons, Nat.succ_sub hle]
            rfl
          · have hcond' : ¬(char d = c ∧ word <:+ (e :: x).map char) := by
              rintro ⟨hd', hs⟩
              rcases hsuffix.1 hs with hs | hs
              · exact hlast ⟨hs, hd'.symm⟩
              · exact hcond ⟨hd', hs⟩
            rw [if_neg hcond, if_neg hcond']
            cases find char (word ++ [c]) y with
            | none => rfl
            | some p => rfl

theorem toStop_head {e : α} {r : List α} (h : toStop char stop xs = e :: r) : stop (char e) = true := by
  have hhead := List.head?_dropWhile_not (fun x => !stop (char x)) xs
  rw [toStop] at h
  rw [h] at hhead
  simpa using hhead

/-- The text in front of what the pass goes on with ends in what was put in. -/
theorem suffix_pass_some {marker : List Char} (hne : word ≠ []) (hout : ∀ e : Char, stop e = true → e ∉ word)
    (hins : ∀ z : List α, ¬word <:+ (z ++ inserted).map char) (hm : marker ≠ []) (a b : List α) :
    word <:+ (a ++ b.take marker.length ++ inserted ++ pass char stop inserted marker
        (toStop char stop (b.drop marker.length))).map char ↔
      word <:+ (pass char stop inserted marker (toStop char stop (b.drop marker.length))).map char := by
  cases hr : toStop char stop (b.drop marker.length) with
  | nil =>
    rw [pass_nil, List.append_nil, List.map_nil, List.suffix_nil]
    exact ⟨fun h => absurd h (hins _), fun h => absurd h hne⟩
  | cons e r =>
    have hhead := @head?_pass _ char stop inserted marker (e :: r) hm
    cases hp : pass char stop inserted marker (e :: r) with
    | nil => rw [hp] at hhead; cases hhead
    | cons e' t =>
      rw [hp] at hhead
      obtain rfl : e' = e := by simpa using hhead
      have he := hout _ (toStop_head hr)
      rw [List.map_append, List.map_cons, suffix_append_stop he]
      exact (suffix_append_stop (a := []) he).symm

/-- A pass leaves no word at the end that was not there. -/
theorem suffix_of_pass {marker : List Char} (hne : word ≠ []) (hw : ∀ e ∈ word, stop e = false)
    (hins : ∀ z : List α, ¬word <:+ (z ++ inserted).map char) (hm : marker ≠ [])
    (h : word <:+ (pass char stop inserted marker xs).map char) : word <:+ xs.map char := by
  have hout : ∀ e : Char, stop e = true → e ∉ word := by
    intro e he hin
    rw [hw e hin] at he
    cases he
  induction hn : xs.length using Nat.strong_induction_on generalizing xs with
  | _ n ih =>
    cases hfind : find char marker xs with
    | none => rwa [pass_none hfind] at h
    | some p =>
      obtain ⟨a, b⟩ := p
      obtain ⟨rfl, -⟩ := find_some hfind
      have hle := length_le_of_find hfind
      have hpos := List.length_pos_of_ne_nil hm
      have hstop := toStop_length_le char stop (b.drop marker.length)
      rw [List.length_drop] at hstop
      rw [List.length_append] at hn
      rw [pass_some hm hfind, suffix_pass_some hne hout hins hm] at h
      have hrest := ih _ (by omega) h rfl
      have hsuffix : toStop char stop (b.drop marker.length) <:+ a ++ b :=
        (List.dropWhile_suffix _).trans ((List.drop_suffix _ b).trans (List.suffix_append a b))
      exact hrest.trans (hsuffix.map char)

/-- **A pass whose marker ends in a stop** looks at the word in front of the stop. -/
theorem pass_append_last (hne : word ≠ []) (hw : ∀ e ∈ word, stop e = false) (hd : stop (char d) = true)
    (hins : ∀ z : List α, ¬word <:+ (z ++ inserted).map char) :
    pass char stop inserted (word ++ [c]) (x ++ d :: y) = pass char stop inserted (word ++ [c]) x ++ d ::
      (if char d = c ∧ word <:+ (pass char stop inserted (word ++ [c]) x).map char then
        inserted ++ pass char stop inserted (word ++ [c]) (toStop char stop y)
      else pass char stop inserted (word ++ [c]) y) := by
  have hout : ∀ e : Char, stop e = true → e ∉ word := by
    intro e he hin
    rw [hw e hin] at he
    cases he
  have hm : word ++ [c] ≠ [] := by simp
  induction hn : x.length using Nat.strong_induction_on generalizing x with
  | _ n ih =>
    have hfind := @find_append_last _ char x y d word c hne (hout _ hd)
    cases hx : find char (word ++ [c]) x with
    | none =>
      rw [hx, Option.elim_none] at hfind
      rw [pass_none hx]
      by_cases hcond : char d = c ∧ word <:+ x.map char
      · rw [if_pos hcond] at hfind
        have hle := hcond.2.length_le
        rw [List.length_map] at hle
        have htake : (x.drop (x.length - word.length) ++ d :: y).take (word ++ [c]).length =
            x.drop (x.length - word.length) ++ [d] := by
          rw [← List.singleton_append (l := y), ← List.append_assoc]
          refine List.take_left' ?_
          simp only [List.length_append, List.length_drop, List.length_singleton]
          omega
        have hdrop : (x.drop (x.length - word.length) ++ d :: y).drop (word ++ [c]).length = y := by
          rw [← List.singleton_append (l := y), ← List.append_assoc]
          refine List.drop_left' ?_
          simp only [List.length_append, List.length_drop, List.length_singleton]
          omega
        rw [pass_some hm hfind, htake, hdrop, if_pos hcond, ← List.append_assoc, List.take_append_drop]
        simp
      · rw [if_neg hcond] at hfind
        rw [if_neg hcond]
        cases hy : find char (word ++ [c]) y with
        | none =>
          rw [hy, Option.map_none] at hfind
          rw [pass_none hfind, pass_none hy]
        | some p =>
          rw [hy, Option.map_some] at hfind
          rw [pass_some hm hfind, pass_some hm hy]
          simp
    | some p =>
      obtain ⟨a, b⟩ := p
      rw [hx, Option.elim_some] at hfind
      obtain ⟨rfl, -⟩ := find_some hx
      have hle := length_le_of_find hx
      have hstop := toStop_length_le char stop (b.drop (word ++ [c]).length)
      rw [List.length_drop] at hstop
      rw [List.length_append] at hn
      have hpos : 0 < (word ++ [c]).length := List.length_pos_of_ne_nil hm
      rw [pass_some hm hfind, pass_some hm hx, List.take_append_of_le_length hle, List.drop_append_of_le_length hle,
        toStop_append hd, ih _ (by omega) rfl]
      have hiff := suffix_pass_some hne hout hins hm a b
      simp only [hiff]
      simp only [List.append_assoc]

end

/-! ## Words -/

section
variable (char stop)

def Unstopped (w : List α) : Prop := ∀ e ∈ w, stop (char e) = false

/-- The text ends in a stop, if anywhere. -/
def Ends (xs : List α) : Prop := ∀ e ∈ xs.getLast?, stop (char e) = true

def Starts (xs : List α) : Prop := ∀ e ∈ xs.head?, stop (char e) = true

/-- The text is a word and what stands in front of it. -/
theorem exists_word (xs : List α) : ∃ a w, xs = a ++ w ∧ Ends char stop a ∧ Unstopped char stop w := by
  induction xs using List.reverseRecOn with
  | nil => exact ⟨[], [], rfl, by simp [Ends], by simp [Unstopped]⟩
  | append_singleton xs e ih =>
    by_cases he : stop (char e) = true
    · exact ⟨xs ++ [e], [], by simp, by simp [Ends, he], by simp [Unstopped]⟩
    · obtain ⟨a, w, rfl, ha, hw⟩ := ih
      refine ⟨a, w ++ [e], by simp, ha, fun e' he' => ?_⟩
      rcases List.mem_append.1 he' with he' | he'
      · exact hw e' he'
      · rw [List.mem_singleton.1 he']
        exact Bool.eq_false_iff.2 he

theorem starts_toStop (xs : List α) : Starts char stop (toStop char stop xs) := by
  intro e he
  cases h : toStop char stop xs with
  | nil => rw [h] at he; cases he
  | cons e' r =>
    rw [h] at he
    obtain rfl : e' = e := by simpa using he
    exact toStop_head h

theorem unstopped_takeWhile (xs : List α) : Unstopped char stop (xs.takeWhile fun e => !stop (char e)) := by
  intro e he
  simpa using List.mem_takeWhile_imp he

end

section
variable {w : List α}

theorem toStop_word (h : Unstopped char stop w) : toStop char stop (w ++ xs) = toStop char stop xs := by
  rw [toStop, List.dropWhile_append_of_pos fun e he => by simp [h e he]]
  rfl

theorem Unstopped.append (h : Unstopped char stop x) (h' : Unstopped char stop y) : Unstopped char stop (x ++ y) := by
  intro e he
  exact (List.mem_append.1 he).elim (h e) (h' e)

theorem Unstopped.mono (h : Unstopped char stop y) (hsub : x ⊆ y) : Unstopped char stop x := fun e he => h e (hsub he)

/-- A pass over a word ends at its first marker. -/
theorem pass_word (hm : marker ≠ []) (h : Unstopped char stop xs) {a b : List α}
    (hfind : find char marker xs = some (a, b)) :
    pass char stop inserted marker xs = xs.take (a.length + marker.length) ++ inserted := by
  obtain ⟨rfl, -⟩ := find_some hfind
  have hrest : toStop char stop (b.drop marker.length) = [] := by
    have hb : Unstopped char stop (b.drop marker.length) :=
      h.mono fun e he => List.mem_append_right _ (List.mem_of_mem_drop he)
    have hnil : toStop char stop (b.drop marker.length ++ []) = toStop char stop [] := toStop_word hb
    rw [List.append_nil] at hnil
    rw [hnil]
    rfl
  rw [pass_some hm hfind, hrest, pass_nil, List.append_nil, List.take_length_add_append]

theorem Starts.pass (h : Starts char stop y) (hm : marker ≠ []) :
    Starts char stop (pass char stop inserted marker y) := by
  intro e he
  rw [head?_pass hm] at he
  exact h e he

/-- At most the first `n` elements of the word are left, and what was put in. -/
def Shortened (inserted w : List α) (n : Nat) (ys : List α) : Prop :=
  ∃ t, ys = w.take n ++ t ++ inserted ∧ ∀ e ∈ t, e ∈ inserted

theorem Shortened.mem {n : Nat} {ys : List α} (h : Shortened inserted w n ys) {e : α} (he : e ∈ ys) :
    e ∈ w.take n ∨ e ∈ inserted := by
  obtain ⟨t, rfl, ht⟩ := h
  simp only [List.mem_append] at he
  rcases he with (he | he) | he
  · exact .inl he
  · exact .inr (ht e he)
  · exact .inr he

theorem Shortened.unstopped {n : Nat} {ys : List α} (h : Shortened inserted w n ys) (hw : Unstopped char stop w)
    (hins : Unstopped char stop inserted) : Unstopped char stop ys := by
  intro e he
  rcases h.mem he with he | he
  · exact hw e (List.mem_of_mem_take he)
  · exact hins e he

/-- One pass on, a word that was shortened is no longer. -/
theorem Shortened.pass {n : Nat} {ys : List α} (h : Shortened inserted w n ys) (hm : marker ≠ [])
    (hys : Unstopped char stop ys) :
    ∃ n' ≤ n, Shortened inserted w n' (pass char stop inserted marker ys) := by
  cases hfind : find char marker ys with
  | none =>
    rw [pass_none hfind]
    exact ⟨n, le_rfl, h⟩
  | some p =>
    obtain ⟨t, rfl, ht⟩ := h
    refine ⟨min (p.1.length + marker.length) n, min_le_right _ _, ?_⟩
    rw [pass_word hm hys hfind, List.append_assoc (w.take n), List.take_append, List.take_take]
    refine ⟨_, rfl, fun e he => ?_⟩
    rcases List.mem_append.1 (List.mem_of_mem_take he) with he | he
    · exact ht e he
    · exact he

theorem shortened_of_find {n : Nat} (hm : marker ≠ []) (hys : Unstopped char stop xs) {a b : List α}
    (hfind : find char marker xs = some (a, b)) (hpre : w.take n <+: xs) (hle : a.length + marker.length ≤ n)
    (hlen : a.length + marker.length ≤ w.length) :
    Shortened inserted w (a.length + marker.length) (Markers.pass char stop inserted marker xs) := by
  obtain ⟨rest, rfl⟩ := hpre
  refine ⟨[], ?_, by simp⟩
  rw [pass_word hm hys hfind, List.take_append_of_le_length (by rw [List.length_take]; omega), List.take_take,
    min_eq_left hle, List.append_nil]

/-- What a word may look like after some passes. -/
def Passed (inserted w ys : List α) : Prop := ys = w ∨ ∃ n, Shortened inserted w n ys

theorem Passed.unstopped {ys : List α} (h : Passed inserted w ys) (hw : Unstopped char stop w)
    (hins : Unstopped char stop inserted) : Unstopped char stop ys := by
  rcases h with rfl | ⟨n, h⟩
  · exact hw
  · exact h.unstopped hw hins

theorem Passed.pass {ys : List α} (h : Passed inserted w ys) (hm : marker ≠ []) (hw : Unstopped char stop w)
    (hins : Unstopped char stop inserted) : Passed inserted w (pass char stop inserted marker ys) := by
  have hys := h.unstopped hw hins
  rcases h with rfl | ⟨n, h⟩
  · cases hfind : find char marker ys with
    | none => exact .inl (pass_none hfind)
    | some p =>
      refine .inr ⟨p.1.length + marker.length, [], ?_, by simp⟩
      rw [pass_word hm hys hfind, List.append_nil]
  · obtain ⟨n', -, h⟩ := h.pass hm hys
    exact .inr ⟨n', h⟩

/-- **The pass for a marker of the word leaves nothing behind it.** -/
theorem Passed.pass_marker {u found v ys : List α} (h : Passed inserted w ys) (hm : marker ≠ [])
    (hw : Unstopped char stop w) (hins : Unstopped char stop inserted) (hsplit : w = u ++ found ++ v)
    (hfound : found.map char = marker) :
    ∃ n ≤ u.length + marker.length, Shortened inserted w n (Markers.pass char stop inserted marker ys) := by
  have hys := h.unstopped hw hins
  have hlen : found.length = marker.length := by rw [← hfound, List.length_map]
  have hin : ∀ rest : List α, marker <+: (found ++ rest).map char := fun rest => by
    rw [List.map_append, hfound]
    exact List.prefix_append _ _
  rcases h with rfl | ⟨n, h⟩
  · obtain ⟨a, b, hfind, hle⟩ := find_append u (found ++ v) (hin v)
    rw [← List.append_assoc, ← hsplit] at hfind
    have hwlen := congrArg List.length hsplit
    simp only [List.length_append] at hwlen
    refine ⟨a.length + marker.length, by omega, shortened_of_find hm hys hfind ?_ le_rfl (by omega)⟩
    exact List.take_prefix _ _
  · by_cases hn : n ≤ u.length + marker.length
    · obtain ⟨n', hn', h⟩ := h.pass hm hys
      exact ⟨n', hn'.trans hn, h⟩
    · obtain ⟨t, rfl, -⟩ := h
      have htake : w.take n = u ++ (found ++ v.take (n - (u.length + marker.length))) := by
        rw [hsplit, List.take_append, List.take_of_length_le (by simp; omega), List.append_assoc]
        simp [hlen]
      obtain ⟨a, b, hfind, hle⟩ := find_append u
        (found ++ (v.take (n - (u.length + marker.length)) ++ t ++ inserted)) (hin _)
      have heq : u ++ (found ++ (v.take (n - (u.length + marker.length)) ++ t ++ inserted)) =
          w.take n ++ t ++ inserted := by
        rw [htake]
        simp
      rw [heq] at hfind
      have hwlen := congrArg List.length hsplit
      simp only [List.length_append] at hwlen
      refine ⟨a.length + marker.length, by omega, shortened_of_find (n := n) hm hys hfind ?_ (by omega) (by omega)⟩
      rw [List.append_assoc]
      exact List.prefix_append _ _

end

/-! ## One pass after another -/

variable (char stop inserted) in
def passes (markers : List (List Char)) (xs : List α) : List α :=
  markers.foldl (fun xs marker => pass char stop inserted marker xs) xs

/-- A marker that has no stop. -/
def Solid (stop : Char → Bool) (marker : List Char) : Prop := marker ≠ [] ∧ ∀ c ∈ marker, stop c = false

theorem Solid.not_mem (h : Solid stop marker) (hd : stop (char d) = true) : char d ∉ marker := by
  intro hin
  rw [h.2 _ hin] at hd
  cases hd

section
variable {markers : List (List Char)} {w : List α}

theorem passes_cons : passes char stop inserted (marker :: markers) xs =
    passes char stop inserted markers (pass char stop inserted marker xs) := rfl

theorem passes_append (more : List (List Char)) : passes char stop inserted (markers ++ more) xs =
    passes char stop inserted more (passes char stop inserted markers xs) := List.foldl_append

theorem passes_nil : passes char stop inserted markers ([] : List α) = [] := by
  induction markers with
  | nil => rfl
  | cons marker markers ih => rw [passes_cons, pass_nil, ih]

theorem mem_passes (h : ∀ marker ∈ markers, marker ≠ []) {e : α} (he : e ∈ passes char stop inserted markers xs) :
    e ∈ xs ∨ e ∈ inserted := by
  induction markers generalizing xs with
  | nil => exact .inl he
  | cons marker markers ih =>
    obtain ⟨hm, hmore⟩ := List.forall_mem_cons.1 h
    rcases ih hmore he with he | he
    · exact mem_pass hm he
    · exact .inr he

theorem head?_passes (h : ∀ marker ∈ markers, marker ≠ []) :
    (passes char stop inserted markers xs).head? = xs.head? := by
  induction markers generalizing xs with
  | nil => rfl
  | cons marker markers ih =>
    obtain ⟨hm, hmore⟩ := List.forall_mem_cons.1 h
    rw [passes_cons, ih hmore, head?_pass hm]

theorem passes_append_stop (h : ∀ marker ∈ markers, Solid stop marker) (hd : stop (char d) = true) :
    passes char stop inserted markers (x ++ d :: y) =
      passes char stop inserted markers x ++ d :: passes char stop inserted markers y := by
  induction markers generalizing x y with
  | nil => rfl
  | cons marker markers ih =>
    obtain ⟨hm, hmore⟩ := List.forall_mem_cons.1 h
    rw [passes_cons, pass_append_stop hm.1 (hm.not_mem hd) hd, ih hmore]
    rfl

/-- Passes go on separately in front of a text that begins with a stop, -/
theorem passes_append_starts (h : ∀ marker ∈ markers, Solid stop marker) (hy : Starts char stop y) :
    passes char stop inserted markers (x ++ y) =
      passes char stop inserted markers x ++ passes char stop inserted markers y := by
  cases y with
  | nil => rw [passes_nil, List.append_nil, List.append_nil]
  | cons d y =>
    have hd : stop (char d) = true := hy d rfl
    have halone := @passes_append_stop _ char stop inserted [] y d markers h hd
    rw [passes_nil, List.nil_append, List.nil_append] at halone
    rw [passes_append_stop h hd, halone]

/-- and behind one that ends in a stop. -/
theorem passes_append_ends (h : ∀ marker ∈ markers, Solid stop marker) (hx : Ends char stop x) :
    passes char stop inserted markers (x ++ y) =
      passes char stop inserted markers x ++ passes char stop inserted markers y := by
  rcases List.eq_nil_or_concat' x with rfl | ⟨x, d, rfl⟩
  · rw [passes_nil, List.nil_append, List.nil_append]
  · have hd : stop (char d) = true := hx d (by simp)
    rw [List.append_assoc, List.singleton_append, passes_append_stop h hd, passes_append_stop h hd, passes_nil,
      List.append_assoc, List.singleton_append]

theorem Starts.passes (h : Starts char stop y) (hm : ∀ marker ∈ markers, marker ≠ []) :
    Starts char stop (passes char stop inserted markers y) := by
  intro e he
  rw [head?_passes hm] at he
  exact h e he

theorem Ends.passes (h : ∀ marker ∈ markers, Solid stop marker) (hx : Ends char stop x) :
    Ends char stop (passes char stop inserted markers x) := by
  rcases List.eq_nil_or_concat' x with rfl | ⟨x, d, rfl⟩
  · rwa [passes_nil]
  · have hd : stop (char d) = true := hx d (by simp)
    rw [passes_append_stop h hd, passes_nil]
    intro e he
    obtain rfl : d = e := by simpa using he
    exact hd

theorem Passed.passes {ys : List α} (h : Passed inserted w ys) (hm : ∀ marker ∈ markers, marker ≠ [])
    (hw : Unstopped char stop w) (hins : Unstopped char stop inserted) :
    Passed inserted w (passes char stop inserted markers ys) := by
  induction markers generalizing ys with
  | nil => exact h
  | cons marker markers ih =>
    obtain ⟨hfirst, hmore⟩ := List.forall_mem_cons.1 hm
    exact ih (h.pass hfirst hw hins) hmore

theorem Shortened.passes {n : Nat} {ys : List α} (h : Shortened inserted w n ys) (hm : ∀ marker ∈ markers, marker ≠ [])
    (hw : Unstopped char stop w) (hins : Unstopped char stop inserted) :
    ∃ n' ≤ n, Shortened inserted w n' (passes char stop inserted markers ys) := by
  induction markers generalizing ys n with
  | nil => exact ⟨n, le_rfl, h⟩
  | cons marker markers ih =>
    obtain ⟨hfirst, hmore⟩ := List.forall_mem_cons.1 hm
    obtain ⟨n₁, hle₁, h₁⟩ := h.pass hfirst (h.unstopped hw hins)
    obtain ⟨n₂, hle₂, h₂⟩ := ih h₁ hmore
    exact ⟨n₂, hle₂.trans hle₁, h₂⟩

/-- **The passes leave nothing of a word behind any of their markers.** -/
theorem passes_marker {u found v : List α} (hm : ∀ marker ∈ markers, marker ≠ []) (hin : marker ∈ markers)
    (hw : Unstopped char stop w) (hins : Unstopped char stop inserted) (hsplit : w = u ++ found ++ v)
    (hfound : found.map char = marker) :
    ∃ n ≤ u.length + marker.length, Shortened inserted w n (Markers.passes char stop inserted markers w) := by
  obtain ⟨before, after, rfl⟩ := List.append_of_mem hin
  have hbefore := (show Passed inserted w w from .inl rfl).passes
    (fun m h => hm m (List.mem_append_left _ h)) hw hins
  obtain ⟨n, hle, h⟩ := hbefore.pass_marker (hm marker hin) hw hins hsplit hfound
  obtain ⟨n', hle', h'⟩ := h.passes (fun m hmem => hm m (List.mem_append_right _ (List.mem_cons_of_mem _ hmem))) hw hins
  refine ⟨n', hle'.trans hle, ?_⟩
  rw [passes_append, passes_cons]
  exact h'

theorem suffix_of_passes {word : List Char} (hne : word ≠ []) (hword : ∀ e ∈ word, stop e = false)
    (hins : ∀ z : List α, ¬word <:+ (z ++ inserted).map char) (hm : ∀ marker ∈ markers, marker ≠ [])
    (h : word <:+ (passes char stop inserted markers xs).map char) : word <:+ xs.map char := by
  induction markers generalizing xs with
  | nil => exact h
  | cons marker markers ih =>
    obtain ⟨hfirst, hmore⟩ := List.forall_mem_cons.1 hm
    exact suffix_of_pass hne hword hins hfirst (ih hmore h)

theorem passes_of_find (h : ∀ marker ∈ markers, find char marker xs = none) :
    passes char stop inserted markers xs = xs := by
  induction markers with
  | nil => rfl
  | cons marker markers ih =>
    obtain ⟨hfirst, hmore⟩ := List.forall_mem_cons.1 h
    rw [passes_cons, pass_none hfirst, ih hmore]

end

/-! ## Words and a marker that ends in a stop -/

section
variable {word : List Char} {c : Char} {w : List α}

/-- There is no such marker in a word. -/
theorem find_last_word (hc : stop c = true) (hw : Unstopped char stop w) : find char (word ++ [c]) w = none := by
  cases h : find char (word ++ [c]) w with
  | none => rfl
  | some p =>
    obtain ⟨rfl, hstart⟩ := find_some h
    have hin := hstart.subset (List.mem_append_right word (List.mem_singleton_self c))
    obtain ⟨e, he, rfl⟩ := List.mem_map.1 hin
    rw [hw e (List.mem_append_right _ he)] at hc
    cases hc

theorem pass_last_alone (hc : stop c = true) (hw : Unstopped char stop w) :
    pass char stop inserted (word ++ [c]) w = w := pass_none (find_last_word hc hw)

/-- Such a pass leaves a word as it is, or puts the same in place of all of it. -/
theorem pass_last_split (hne : word ≠ []) (hword : ∀ e ∈ word, stop e = false) (hc : stop c = true)
    (hins : ∀ z : List α, ¬word <:+ (z ++ inserted).map char) (hx : Ends char stop x) (hw : Unstopped char stop w)
    (hy : Starts char stop y) :
    ∃ x' w' y', pass char stop inserted (word ++ [c]) (x ++ w ++ y) = x' ++ w' ++ y' ∧ Ends char stop x' ∧
      Starts char stop y' ∧ (w' = w ∨ w' = inserted) ∧ (∀ e ∈ x', e ∈ x ∨ e ∈ inserted) ∧
      ∀ e ∈ y', e ∈ y ∨ e ∈ inserted := by
  have hm : word ++ [c] ≠ [] := by simp
  -- the word in front, then its rest
  have hfront : ∃ y', pass char stop inserted (word ++ [c]) (w ++ y) = w ++ y' ∧ Starts char stop y' ∧
      ∀ e ∈ y', e ∈ y ∨ e ∈ inserted := by
    cases y with
    | nil =>
      rw [List.append_nil, pass_last_alone hc hw]
      exact ⟨[], by simp, hy, by simp⟩
    | cons d y =>
      have hd : stop (char d) = true := hy d rfl
      rw [pass_append_last hne hword hd hins, pass_last_alone hc hw]
      refine ⟨_, rfl, fun e he => ?_, fun e he => ?_⟩
      · obtain rfl : d = e := by simpa using he
        exact hd
      · rcases List.mem_cons.1 he with rfl | he
        · exact .inl List.mem_cons_self
        · split at he
          · rcases List.mem_append.1 he with he | he
            · exact .inr he
            · rcases mem_pass hm he with he | he
              · exact .inl (List.mem_cons_of_mem _ ((List.dropWhile_suffix _).subset he))
              · exact .inr he
          · rcases mem_pass hm he with he | he
            · exact .inl (List.mem_cons_of_mem _ he)
            · exact .inr he
  obtain ⟨y', hpass, hstart, hmem⟩ := hfront
  rcases List.eq_nil_or_concat' x with rfl | ⟨x, d, rfl⟩
  · exact ⟨[], w, y', by rw [List.nil_append, hpass], hx, hstart, .inl rfl, by simp, hmem⟩
  · have hd : stop (char d) = true := hx d (by simp)
    have hsplit := pass_append_last (x := x) (y := w ++ y) (c := c) hne hword hd hins
    have hends : Ends char stop (pass char stop inserted (word ++ [c]) x ++ [d]) := by
      intro e he
      obtain rfl : d = e := by simpa using he
      exact hd
    have hbefore : ∀ e ∈ pass char stop inserted (word ++ [c]) x ++ [d], e ∈ x ++ [d] ∨ e ∈ inserted := by
      intro e he
      rcases List.mem_append.1 he with he | he
      · exact (mem_pass hm he).imp_left (List.mem_append_left _)
      · exact .inl (List.mem_append_right _ he)
    rw [List.append_assoc, List.append_assoc, List.singleton_append, hsplit]
    split
    · -- what follows the word is a stop already
      have hrest : toStop char stop (w ++ y) = y := by
        rw [toStop_word hw]
        cases y with
        | nil => rfl
        | cons d y => rw [toStop, List.dropWhile_cons_of_neg (by simp [hy d rfl])]
      rw [hrest]
      exact ⟨_, inserted, pass char stop inserted (word ++ [c]) y, by simp, hends, hy.pass hm, .inr rfl, hbefore,
        fun e he => mem_pass hm he⟩
    · rw [hpass]
      exact ⟨_, w, y', by simp, hends, hstart, .inl rfl, hbefore, hmem⟩

end

/-! ## Passes and what else an element carries -/

section
variable {β : Type*} {char' : β → Char} {f : α → β}

theorem find_map (h : ∀ e, char' (f e) = char e) (xs : List α) :
    find char' marker (xs.map f) = (find char marker xs).map fun p => (p.1.map f, p.2.map f) := by
  have hchar : ∀ xs : List α, (xs.map f).map char' = xs.map char := fun xs => by
    rw [List.map_map]
    exact List.map_congr_left fun e _ => h e
  induction xs with
  | nil =>
    rw [List.map_nil, find, find]
    split
    · rfl
    · rfl
  | cons x xs ih =>
    rw [List.map_cons, find_cons, find_cons, ← List.map_cons, hchar]
    by_cases hstart : marker <+: (x :: xs).map char
    · rw [if_pos hstart, if_pos hstart]
      rfl
    · rw [if_neg hstart, if_neg hstart, ih]
      cases find char marker xs with
      | none => rfl
      | some p => rfl

theorem toStop_map (h : ∀ e, char' (f e) = char e) (xs : List α) :
    toStop char' stop (xs.map f) = (toStop char stop xs).map f := by
  rw [toStop, toStop, List.dropWhile_map]
  simp only [Function.comp_def, h]

theorem pass_map (h : ∀ e, char' (f e) = char e) (hm : marker ≠ []) (xs : List α) :
    pass char' stop (inserted.map f) marker (xs.map f) = (pass char stop inserted marker xs).map f := by
  induction hn : xs.length using Nat.strong_induction_on generalizing xs with
  | _ n ih =>
    have hfind := @find_map _ char marker _ char' f h xs
    cases hx : find char marker xs with
    | none =>
      rw [hx, Option.map_none] at hfind
      rw [pass_none hfind, pass_none hx]
    | some p =>
      obtain ⟨a, b⟩ := p
      rw [hx, Option.map_some] at hfind
      obtain ⟨rfl, -⟩ := find_some hx
      have hle := length_le_of_find hx
      have hpos := List.length_pos_of_ne_nil hm
      have hstop := toStop_length_le char stop (b.drop marker.length)
      rw [List.length_drop] at hstop
      rw [List.length_append] at hn
      rw [pass_some hm hfind, pass_some hm hx]
      have hrest := ih _ (by omega) (toStop char stop (b.drop marker.length)) rfl
      simp only [← List.map_drop, ← List.map_take, toStop_map h, hrest, List.map_append]

theorem passes_map {markers : List (List Char)} (h : ∀ e, char' (f e) = char e)
    (hm : ∀ marker ∈ markers, marker ≠ []) (xs : List α) :
    passes char' stop (inserted.map f) markers (xs.map f) = (passes char stop inserted markers xs).map f := by
  induction markers generalizing xs with
  | nil => rfl
  | cons marker markers ih =>
    obtain ⟨hfirst, hmore⟩ := List.forall_mem_cons.1 hm
    rw [passes_cons, passes_cons, pass_map h hfirst, ih hmore]

end

end Markers
