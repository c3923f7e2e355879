import HafleyRs.HafleyScm.ParensScan

/-!
# Predicates (`crates/hafley_scm/src/scmpp/_1_parens.rs`:108)

`pred` reads a whole group that has a `#` in it. It stops between characters at every turn and goes on at every turn
(`pred_ends`), since the last byte is a bracket; a predicate keeps the text and the offset it was read from.
-/

namespace HafleyScm.Parens
open Loop Utf8

/-- A result, or an error of syntax. -/
def Ends {α : Type} (r : Run α) : Prop := ∀ stop, r = .error stop → ∃ offset message, stop = .syntaxError offset message

theorem ends_ok {α : Type} (a : α) : Ends (.ok a : Run α) := fun stop h => by cases h

theorem ends_fail {α : Type} (offset : Nat) (message : Text) : Ends (.error (.syntaxError offset message) : Run α) :=
  fun stop h => by
    cases h
    exact ⟨offset, message, rfl⟩

theorem Ends.bind {α β : Type} {r : Run α} {f : α → Run β} (hr : Ends r) (hf : ∀ a, r = .ok a → Ends (f a)) :
    Ends (r >>= f) := by
  cases r with
  | ok a => exact hf a rfl
  | error stop =>
    obtain ⟨offset, message, rfl⟩ := hr stop rfl
    exact ends_fail offset message

/-- A place before the last character is before some character. -/
theorem splits_before {x a u : Text} {z : Char} (h : x ++ [z] = a ++ u) (hlt : pos a < pos x) :
    ∃ c v, x = a ++ c :: v ∧ u = c :: v ++ [z] := by
  rcases List.append_eq_append_iff.1 h with ⟨w, rfl, -⟩ | ⟨w, rfl, hu⟩
  · rw [pos_append] at hlt
    omega
  · cases w with
    | nil =>
      rw [List.append_nil] at hlt
      omega
    | cons c v => exact ⟨c, v, rfl, hu⟩

/-- What ends a string is its quote. -/
theorem upTo_quoted : ∀ {t s r : Text} (escaped : Bool), upTo (quoted escaped 0) t = some (s, r) →
    ∃ w, s = w ++ ['"']
  | [], _, _, _, h => by cases h
  | c :: t, s, r, escaped, h => by
    rw [upTo, next_quoted] at h
    simp only at h
    by_cases hend : (!escaped && decide (kindOf c = .quote)) = true
    · rw [if_pos hend, if_pos rfl] at h
      cases h
      have hkind : kindOf c = .quote := by
        rw [Bool.and_eq_true, decide_eq_true_eq] at hend
        exact hend.2
      refine ⟨[], ?_⟩
      have hc : c = '"' := by
        rw [kindOf] at hkind
        split at hkind
        · rename_i hascii
          refine (byte_inj hascii (d := '"') rfl).1 ?_
          by_contra hne
          rw [kindOfByte, if_neg hne] at hkind
          split_ifs at hkind
        · cases hkind
      rw [hc]
      rfl
    · rw [if_neg hend, if_neg (quoted_ne _ _)] at h
      obtain ⟨y, hy, heq⟩ := Option.map_eq_some_iff.1 h
      cases heq
      obtain ⟨w, hw⟩ := upTo_quoted _ (s := y.1) (r := y.2) hy
      exact ⟨c :: w, by rw [hw]; rfl⟩

/-- A text with a place further right is where a loop over it may go on. -/
def Place (text : Text) (i : Nat) : Prop := ∃ a u, text = a ++ u ∧ i = pos a

section
variable {fuel base : Nat} {text : Text}

/-- A turn of `pred` goes on to a place further right, or ends. -/
theorem predStep_fine {x : Text} {z : Char} (hz : isAscii z = true) (htext : text = x ++ [z]) (hfuel : pos text < fuel)
    {s : Nat × List Arg} (hs : Place text s.1) :
    Fine (fun s : Nat × List Arg => Place text s.1) (fun s => pos text - s.1)
      (fun _ (r : Run (List Arg)) => Ends r) s (predStep fuel text base s) := by
  obtain ⟨i, args⟩ := s
  obtain ⟨a, u, hau, hi⟩ := hs
  simp only at hi
  subst hi
  have hstop : (bytes text).length - 1 = pos x := by
    rw [← pos, htext, pos_singleton hz]
    rfl
  rw [predStep]
  simp only [hstop]
  by_cases hlt : pos x ≤ pos a
  · rw [if_pos hlt]
    exact ends_ok args
  rw [if_neg hlt]
  obtain ⟨c, v, rfl, rfl⟩ := splits_before (htext.symm.trans hau) (by omega)
  have hnext : ∀ {b w : Text} (args' : List Arg), text = a ++ (b ++ w) → 0 < pos b →
      Fine (fun s : Nat × List Arg => Place text s.1) (fun s => pos text - s.1) (fun _ (r : Run (List Arg)) => Ends r)
        (pos a, args) (.ok (.next (pos (a ++ b), args'))) := by
    intro b w args' hsplit hb
    refine ⟨⟨a ++ b, w, by rw [hsplit, List.append_assoc], rfl⟩, ?_, fun _ hr => hr⟩
    rw [hsplit]
    simp only [pos_append]
    omega
  obtain ⟨b, hget, hfirst⟩ := firstByte a c (v ++ [z]) hau
  rw [hget]
  simp only
  by_cases hwhite : isAsciiWhitespace b = true
  · rw [if_pos hwhite]
    rw [hfirst.whitespace, whitespaceC, Bool.and_eq_true] at hwhite
    rw [← pos_singleton hwhite.1]
    exact hnext args (b := [c]) (w := v ++ [z]) hau (pos_pos c [])
  rw [if_neg hwhite]
  by_cases hsemi : b = byte ';'
  · rw [if_pos hsemi]
    obtain rfl := (hfirst.eq_iff ';' rfl).1 hsemi
    rw [afterComment_at hau]
    refine hnext args (w := (';' :: v ++ [z]).dropWhile fun c => c ≠ '\n') ?_ ?_
    · rw [List.takeWhile_append_dropWhile, hau]
    · rw [List.cons_append, List.takeWhile_cons_of_pos (by decide)]
      exact pos_pos _ _
  rw [if_neg hsemi]
  by_cases hat : b = byte '@'
  · rw [if_pos hat]
    obtain rfl := (hfirst.eq_iff '@' rfl).1 hat
    have hrest : text = a ++ ['@'] ++ (v.takeWhile nameC ++ (v.dropWhile nameC ++ [z])) := by
      rw [← List.append_assoc (v.takeWhile nameC), List.takeWhile_append_dropWhile, hau]
      simp
    rw [← pos_singleton (c := '@') rfl, skipName_at (t := v) (b := [z]) (by rw [hau]; simp) (by simp),
      slice_at hrest rfl rfl, List.append_assoc]
    exact hnext _ (b := ['@'] ++ v.takeWhile nameC) (w := v.dropWhile nameC ++ [z]) (by rw [hrest]; simp) (pos_pos _ _)
  rw [if_neg hat]
  by_cases hquote : b = byte '"'
  · rw [if_pos hquote]
    obtain rfl := (hfirst.eq_iff '"' rfl).1 hquote
    rw [afterString_at (t := v ++ [z]) hau hfuel]
    cases hend : upTo (.str 0) (v ++ [z]) with
    | none => exact ends_fail _ _
    | some y =>
      obtain ⟨w, hw⟩ := upTo_quoted false (s := y.1) (r := y.2) hend
      have hall := (upTo_spec (s := y.1) (r := y.2) hend).1
      have hsplit : text = a ++ ['"'] ++ (w ++ ('"' :: y.2)) := by
        rw [hau, List.cons_append, hall, hw]
        simp
      have hlast : pos (a ++ '"' :: y.1) - 1 = pos (a ++ ['"'] ++ w) := by
        have happend : a ++ '"' :: y.1 = a ++ ['"'] ++ w ++ ['"'] := by
          rw [hw]
          simp
        rw [happend, pos_singleton rfl]
        rfl
      simp only [bind, Except.bind]
      rw [slice_at hsplit (pos_singleton rfl a).symm hlast]
      exact hnext _ (b := '"' :: y.1) (w := y.2) (by rw [hau, List.cons_append, hall]; rfl) (pos_pos _ _)
  rw [if_neg hquote]
  by_cases hopens : (b = byte '(' || b = byte '[') = true
  · rw [if_pos hopens]
    have hkind : kindOf c = .opens := by
      rw [← hfirst.kind]
      rw [Bool.or_eq_true, decide_eq_true_eq, decide_eq_true_eq] at hopens
      rcases hopens with rfl | rfl <;> rfl
    have hgroup := afterGroup_at (t := v ++ [z]) base hkind hau hfuel
    cases hend : upTo (.code 1) (v ++ [z]) with
    | none =>
      rw [hend] at hgroup
      obtain ⟨offset, message, herror⟩ := hgroup
      rw [herror]
      exact ends_fail offset message
    | some y =>
      rw [hend] at hgroup
      have hall := (upTo_spec (s := y.1) (r := y.2) hend).1
      have hsplit : text = a ++ (c :: y.1 ++ y.2) := by
        rw [hau, List.cons_append, hall]
        rfl
      rw [hgroup]
      simp only [bind, Except.bind]
      rw [slice_at hsplit rfl rfl]
      exact hnext _ hsplit (pos_pos _ _)
  rw [if_neg hopens]
  by_cases hcloses : (b = byte ')' || b = byte ']') = true
  · rw [if_pos hcloses]
    exact ends_fail _ _
  rw [if_neg hcloses]
  have hword : wordC c = true := by
    rw [← hfirst.word]
    simp only [Bool.or_eq_true, decide_eq_true_eq, not_or] at hopens hcloses
    simp [wordChar, hwhite, hsemi, hat, hquote, hopens, hcloses]
  have hsplit : text = a ++ ((c :: v).takeWhile wordC ++ ((c :: v).dropWhile wordC ++ [z])) := by
    rw [← List.append_assoc ((c :: v).takeWhile wordC), List.takeWhile_append_dropWhile, hau]
  rw [skipWord_at (t := c :: v) (b := [z]) hau rfl, slice_at hsplit rfl rfl]
  refine hnext _ hsplit ?_
  rw [List.takeWhile_cons_of_pos hword]
  exact pos_pos _ _

/-- **A group with a `#` in it is read to the end**, and the predicate keeps its text and offset. -/
theorem pred_ends {x : Text} {z : Char} (hz : isAscii z = true) (htext : text = x ++ [z]) (hhash : '#' ∈ text)
    (hfuel : pos text < fuel) : Ends (pred fuel text base) ∧
      ∀ found, pred fuel text base = .ok found → found.text = text ∧ found.offset = base := by
  rw [pred]
  cases hfind : (bytes text).findIdx? fun b => decide (b = byte '#') with
  | none =>
    obtain ⟨a, u, hau⟩ := List.mem_iff_append.1 hhash
    have hmem : byte '#' ∈ bytes text := by
      rw [hau, bytes_append, bytes_cons, encode_ascii (c := '#') rfl]
      exact List.mem_append_right _ List.mem_cons_self
    simpa using List.findIdx?_eq_none_iff.1 hfind _ hmem
  | some hash =>
    obtain ⟨hlt, heq, -⟩ := List.findIdx?_eq_some_iff_getElem.1 hfind
    have hget : (bytes text)[hash]? = some (byte '#') := by
      rw [List.getElem?_eq_getElem hlt, of_decide_eq_true heq]
    obtain ⟨a, c, u, hau, rfl, hc, hbyte⟩ := exists_of_ascii hget (by decide)
    obtain rfl := (byte_inj (d := '#') hc rfl).1 hbyte
    have hrest : text = a ++ ['#'] ++ (u.takeWhile wordC ++ u.dropWhile wordC) := by
      rw [List.takeWhile_append_dropWhile, hau]
      simp
    have hplace : (bytes a).length + 1 = pos (a ++ ['#']) := (pos_singleton rfl a).symm
    have hwhole : a ++ ['#'] ++ u = text := by
      rw [hau]
      simp
    have hend : (bytes text).length = pos (a ++ ['#'] ++ u) := by rw [hwhole]
    simp only
    rw [hplace, skipWord_at (t := u) (b := []) (by rw [List.append_nil, hwhole]) hend, slice_at hrest rfl rfl]
    have hargs : Ends (loop .diverge (predStep fuel text base) fuel (pos (a ++ ['#'] ++ u.takeWhile wordC), [])) := by
      refine loop_rule (R := fun _ r => Ends r) (fun s : Nat × List Arg => pos text - s.1)
        (fun s hs => predStep_fine hz htext hfuel hs) ?_ (lt_of_le_of_lt (Nat.sub_le _ _) hfuel)
      exact ⟨a ++ ['#'] ++ u.takeWhile wordC, u.dropWhile wordC, by rw [List.append_assoc, ← hrest], rfl⟩
    constructor
    · exact (ends_ok _).bind fun op _ => hargs.bind fun args _ => ends_ok _
    · intro found hfound
      simp only [bind, Except.bind] at hfound
      cases hloop : loop .diverge (predStep fuel text base) fuel (pos (a ++ ['#'] ++ u.takeWhile wordC), []) with
      | error stop => rw [hloop] at hfound; cases hfound
      | ok args =>
        rw [hloop] at hfound
        cases hfound
        exact ⟨rfl, rfl⟩

end

end HafleyScm.Parens
