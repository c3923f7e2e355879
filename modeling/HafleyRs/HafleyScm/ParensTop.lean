import HafleyRs.HafleyScm.ParensCut

/-!
# The patterns of a query file (`crates/hafley_scm/src/scmpp/_1_parens.rs`:233)

`Tiled` is what `top_items` has found when it has read so far: balanced ranges in their order, and nothing outside
them but white space and comments. An item that starts where another ends with a capture or a quantifier is the same
item (`Tiled.extend`), any other is the next one (`Tiled.push`).
-/

namespace HafleyScm.Parens
open Loop Utf8

/-- As many brackets closed as opened, outside strings and comments. -/
def Balanced (t : Text) : Prop := reads (.code 0) t = some (.code 0)

theorem balanced_append {a b : Text} (ha : Balanced a) : Balanced (a ++ b) ↔ Balanced b := by
  rw [Balanced, reads_append, ha]
  rfl

theorem balanced_flat {w : Text} (h : ∀ c ∈ w, Mode.next (.code 0) (kindOf c) = some (.code 0)) : Balanced w := by
  induction w with
  | nil => rfl
  | cons c w ih =>
    rw [Balanced, reads_cons, h c List.mem_cons_self]
    exact ih fun d hd => h d (List.mem_cons_of_mem _ hd)

/-- A character of a kind that leaves out quotes, semicolons and brackets. -/
theorem flat {P : Char → Bool} {c : Char} (hP : ['"', ';', '(', '[', ')', ']'].all (fun d => !P d) = true)
    (h : P c = true) : Mode.next (.code 0) (kindOf c) = some (.code 0) := by
  have hne : ∀ d ∈ ['"', ';', '(', '[', ')', ']'], c ≠ d := by
    rintro d hd rfl
    have := List.all_eq_true.1 hP c hd
    rw [h] at this
    cases this
  refine kindOf_cases c (P := fun k => Mode.next (.code 0) k = some (.code 0)) (fun hc => ?_) (fun _ => rfl)
    (fun hc => ?_) (fun _ => rfl) (fun hc => ?_) (fun hc => ?_) rfl
  · exact absurd hc (hne _ (by simp))
  · exact absurd hc (hne _ (by simp))
  · rcases hc with hc | hc <;> exact absurd hc (hne _ (by simp))
  · rcases hc with hc | hc <;> exact absurd hc (hne _ (by simp))

theorem word_flat {c : Char} (h : wordC c = true) : Mode.next (.code 0) (kindOf c) = some (.code 0) :=
  flat rfl h

theorem name_flat {c : Char} (h : nameC c = true) : Mode.next (.code 0) (kindOf c) = some (.code 0) :=
  flat rfl h

theorem whitespace_flat {c : Char} (h : whitespaceC c = true) : Mode.next (.code 0) (kindOf c) = some (.code 0) :=
  flat rfl h

theorem balanced_capture (t : Text) : Balanced ('@' :: t.takeWhile nameC) := by
  refine balanced_flat fun c hc => ?_
  rcases List.mem_cons.1 hc with rfl | hc
  · rfl
  · exact name_flat (List.mem_takeWhile_imp hc)

theorem balanced_string {t s r : Text} (h : upTo (.str 0) t = some (s, r)) : Balanced ('"' :: s) := (upTo_spec h).2

theorem balanced_group {c : Char} {t s r : Text} (hc : kindOf c = .opens) (h : upTo (.code 1) t = some (s, r)) :
    Balanced (c :: s) := by
  rw [Balanced, reads_cons, hc]
  exact (upTo_spec h).2

/-! ## Where a piece ends -/

section
variable {fuel : Nat} {text a t : Text}

theorem topEnd_at (attach : Bool) {c : Char} {b : UInt8} (htext : text = a ++ c :: t) (hfirst : FirstByte c b)
    (hwhite : isAsciiWhitespace b ≠ true) (hsemi : b ≠ byte ';') (hfuel : pos text < fuel) :
    (∃ offset message, topEnd fuel (bytes text) (pos a) attach b = .error (.syntaxError offset message)) ∨
      ∃ w u, c :: t = w ++ u ∧ w ≠ [] ∧ Balanced w ∧
        topEnd fuel (bytes text) (pos a) attach b = .ok (pos (a ++ w)) := by
  rw [topEnd]
  by_cases hpost : (isPostfix b && attach) = true
  · rw [if_pos hpost]
    have hc : c = '*' ∨ c = '+' ∨ c = '?' := by
      simp only [isPostfix, Bool.and_eq_true, Bool.or_eq_true, decide_eq_true_eq, hfirst.eq_iff '*' rfl,
        hfirst.eq_iff '+' rfl, hfirst.eq_iff '?' rfl, or_assoc] at hpost
      exact hpost.1
    refine .inr ⟨[c], t, rfl, List.cons_ne_nil _ _, ?_, ?_⟩
    · rcases hc with rfl | rfl | rfl <;> rfl
    · rw [pos_singleton (by rcases hc with rfl | rfl | rfl <;> rfl)]
  rw [if_neg hpost]
  by_cases hat : (decide (b = byte '@') && attach) = true
  · rw [if_pos hat]
    rw [Bool.and_eq_true, decide_eq_true_eq] at hat
    obtain rfl := (hfirst.eq_iff '@' rfl).1 hat.1
    have hwhole : text = a ++ ['@'] ++ (t ++ []) := by
      rw [htext]
      simp
    refine .inr ⟨'@' :: t.takeWhile nameC, t.dropWhile nameC, ?_, List.cons_ne_nil _ _, ?_, ?_⟩
    · rw [List.cons_append, List.takeWhile_append_dropWhile]
    · exact balanced_capture t
    · rw [← pos_singleton (c := '@') rfl, skipName_at hwhole (by rw [hwhole, List.append_nil]), List.append_assoc]
      rfl
  rw [if_neg hat]
  by_cases hquote : b = byte '"'
  · rw [if_pos hquote]
    obtain rfl := (hfirst.eq_iff '"' rfl).1 hquote
    rw [afterString_at htext hfuel]
    cases hend : upTo (.str 0) t with
    | none => exact .inl ⟨_, _, rfl⟩
    | some x =>
      refine .inr ⟨'"' :: x.1, x.2, ?_, List.cons_ne_nil _ _, balanced_string (s := x.1) (r := x.2) hend, rfl⟩
      rw [(upTo_spec (s := x.1) (r := x.2) hend).1]
      rfl
  rw [if_neg hquote]
  by_cases hopens : (b = byte '(' || b = byte '[') = true
  · rw [if_pos hopens]
    have hkind : kindOf c = .opens := by
      rw [← hfirst.kind]
      rw [Bool.or_eq_true, decide_eq_true_eq, decide_eq_true_eq] at hopens
      rcases hopens with rfl | rfl <;> rfl
    have hgroup := afterGroup_at 0 hkind htext hfuel
    cases hend : upTo (.code 1) t with
    | none =>
      rw [hend] at hgroup
      exact .inl hgroup
    | some x =>
      rw [hend] at hgroup
      refine .inr ⟨c :: x.1, x.2, ?_, List.cons_ne_nil _ _, balanced_group (s := x.1) (r := x.2) hkind hend, hgroup⟩
      rw [(upTo_spec (s := x.1) (r := x.2) hend).1]
      rfl
  rw [if_neg hopens]
  by_cases hcloses : (b = byte ')' || b = byte ']') = true
  · rw [if_pos hcloses]
    exact .inl ⟨_, _, rfl⟩
  rw [if_neg hcloses, skipWord_at (t := c :: t) (b := []) (by rw [List.append_nil, htext]) (by rw [htext])]
  by_cases hword : wordC c = true
  · refine .inr ⟨(c :: t).takeWhile wordC, (c :: t).dropWhile wordC, List.takeWhile_append_dropWhile.symm, ?_, ?_, ?_⟩
    · rw [List.takeWhile_cons_of_pos hword]
      exact List.cons_ne_nil _ _
    · exact balanced_flat fun d hd => word_flat (List.mem_takeWhile_imp hd)
    · rw [List.takeWhile_cons_of_pos hword, pos_append]
      have := pos_pos c (t.takeWhile wordC)
      rw [max_eq_left (by omega)]
  · -- only an `@` with nothing to attach to is left
    have hb : b = byte '@' := by
      by_contra hne
      simp only [Bool.or_eq_true, decide_eq_true_eq, not_or] at hopens hcloses
      refine hword ?_
      rw [← hfirst.word]
      simp [wordChar, hwhite, hsemi, hne, hquote, hopens, hcloses]
    obtain rfl := (hfirst.eq_iff '@' rfl).1 hb
    refine .inr ⟨['@'], t, rfl, List.cons_ne_nil _ _, rfl, ?_⟩
    rw [List.takeWhile_cons_of_neg hword, List.append_nil, max_eq_right (Nat.le_succ _), pos_singleton rfl]

end

/-! ## Tiles -/

/-- A character that is white space, or is in a comment after the text before it. -/
def Skipped (b : Text) (c : Char) : Prop :=
  whitespaceC c = true ∨ reads (.code 0) (b ++ [c]) = some (.comment 0)

/-- The ranges found when the text is read up to the end of `a`. -/
structure Tiled (text : Text) (found : List (Nat × Nat)) (a : Text) : Prop where
  item    : ∀ r ∈ found, ∃ b s u, text = b ++ s ++ u ∧ r = (pos b, pos (b ++ s)) ∧ s ≠ [] ∧ Balanced b ∧ Balanced s
  ordered : found.Pairwise fun r r' => r.2 ≤ r'.1
  behind  : ∀ r ∈ found, r.2 ≤ pos a
  covers  : ∀ b c u, a = b ++ c :: u → Skipped b c ∨ ∃ r ∈ found, r.1 ≤ pos b ∧ pos (b ++ [c]) ≤ r.2

section
variable {text a w u : Text} {found : List (Nat × Nat)}

/-- A character of a text read further is one of those read before or one after them. -/
theorem split_further {b u : Text} {c : Char} (h : a ++ w = b ++ c :: u) :
    (∃ v, a = b ++ c :: v) ∨ ∃ w₁, b = a ++ w₁ ∧ w = w₁ ++ c :: u := by
  rcases List.append_eq_append_iff.1 h with ⟨w₁, hb, hw⟩ | ⟨v, ha, hu⟩
  · exact .inr ⟨w₁, hb, hw⟩
  · cases v with
    | nil =>
      rw [List.append_nil] at ha
      exact .inr ⟨[], by rw [ha, List.append_nil], hu.symm⟩
    | cons d v =>
      cases hu
      exact .inl ⟨v, ha⟩

theorem Tiled.skip (h : Tiled text found a) (hskip : ∀ w₁ c w₂, w = w₁ ++ c :: w₂ → Skipped (a ++ w₁) c) :
    Tiled text found (a ++ w) where
  item := h.item
  ordered := h.ordered
  behind r hr := (h.behind r hr).trans (by rw [pos_append]; omega)
  covers b c u hsplit := by
    rcases split_further hsplit with ⟨v, ha⟩ | ⟨w₁, rfl, hw⟩
    · exact h.covers b c v ha
    · exact .inl (hskip w₁ c u hw)

theorem Tiled.push (h : Tiled text found a) (htext : text = a ++ w ++ u) (hw : w ≠ []) (ha : Balanced a)
    (hbalanced : Balanced w) : Tiled text (found ++ [(pos a, pos (a ++ w))]) (a ++ w) where
  item r hr := by
    rcases List.mem_append.1 hr with hr | hr
    · exact h.item r hr
    · exact ⟨a, w, u, htext, List.mem_singleton.1 hr, hw, ha, hbalanced⟩
  ordered := by
    refine List.pairwise_append.2 ⟨h.ordered, List.pairwise_singleton _ _, fun r hr r' hr' => ?_⟩
    rw [List.mem_singleton.1 hr']
    exact h.behind r hr
  behind r hr := by
    rcases List.mem_append.1 hr with hr | hr
    · exact (h.behind r hr).trans (by rw [pos_append]; omega)
    · rw [List.mem_singleton.1 hr]
  covers b c v hsplit := by
    rcases split_further hsplit with ⟨v', ha⟩ | ⟨w₁, rfl, hw⟩
    · refine (h.covers b c v' ha).imp_right ?_
      rintro ⟨r, hr, hrange⟩
      exact ⟨r, List.mem_append_left _ hr, hrange⟩
    · refine .inr ⟨_, List.mem_append_right _ (List.mem_singleton_self _), ?_, ?_⟩
      · simp only [pos_append]
        omega
      · rw [hw, show a ++ (w₁ ++ c :: v) = a ++ w₁ ++ [c] ++ v by simp, pos_append _ v]
        exact Nat.le_add_right _ _

/-- A text that ends no later than another of the same whole is a first part of it. -/
theorem prefix_of_pos {x y t : Text} (hx : text = x ++ y) (ha : text = a ++ t) (hle : pos x ≤ pos a) :
    ∃ s, a = x ++ s := by
  rcases List.append_eq_append_iff.1 (ha.symm.trans hx) with ⟨s, rfl, -⟩ | ⟨s, hs, -⟩
  · cases s with
    | nil => exact ⟨[], by simp⟩
    | cons c s =>
      rw [pos_append] at hle
      have := pos_pos c s
      omega
  · exact ⟨s, hs⟩

theorem Tiled.extend (h : Tiled text found a) (hfound : found ≠ []) (htext : text = a ++ w ++ u) (ha : Balanced a)
    (hbalanced : Balanced w) : Tiled text (extendLast found (pos (a ++ w))) (a ++ w) := by
  obtain ⟨before, last, rfl⟩ : ∃ before last, found = before ++ [last] :=
    ⟨_, _, (List.dropLast_append_getLast hfound).symm⟩
  have hlast : last ∈ before ++ [last] := List.mem_append_right _ (List.mem_singleton_self _)
  obtain ⟨b, s, u', hsplit, hrange, hs, hb, -⟩ := h.item last hlast
  obtain ⟨s', hs'⟩ : ∃ s', a = b ++ s ++ s' := by
    refine prefix_of_pos hsplit (by rw [htext, List.append_assoc]) ?_
    have := h.behind last hlast
    rwa [hrange] at this
  have hwhole : a ++ w = b ++ (s ++ s' ++ w) := by
    rw [hs']
    simp only [List.append_assoc]
  have hextend : extendLast (before ++ [last]) (pos (a ++ w)) = before ++ [(pos b, pos (b ++ (s ++ s' ++ w)))] := by
    rw [extendLast, List.getLast?_concat]
    simp only [List.dropLast_concat, hrange, hwhole]
  have hle : pos a ≤ pos (a ++ w) := by
    rw [pos_append]
    omega
  rw [hextend]
  refine ⟨fun r hr => ?_, ?_, fun r hr => ?_, fun b' c v hchar => ?_⟩
  · rcases List.mem_append.1 hr with hr | hr
    · exact h.item r (List.mem_append_left _ hr)
    · refine ⟨b, s ++ s' ++ w, u, by rw [htext, hwhole], List.mem_singleton.1 hr, ?_, hb, ?_⟩
      · simp [hs]
      · rw [← balanced_append hb, ← hwhole, balanced_append ha]
        exact hbalanced
  · obtain ⟨hbefore, -, hordered⟩ := List.pairwise_append.1 h.ordered
    refine List.pairwise_append.2 ⟨hbefore, List.pairwise_singleton _ _, fun r hr r' hr' => ?_⟩
    rw [List.mem_singleton.1 hr']
    have := hordered r hr last (List.mem_singleton_self _)
    rwa [hrange] at this
  · rcases List.mem_append.1 hr with hr | hr
    · exact (h.behind r (List.mem_append_left _ hr)).trans hle
    · rw [List.mem_singleton.1 hr, ← hwhole]
  · have hnew : (pos b, pos (b ++ (s ++ s' ++ w))) ∈ before ++ [(pos b, pos (b ++ (s ++ s' ++ w)))] :=
      List.mem_append_right _ (List.mem_singleton_self _)
    have hstart : pos b ≤ pos a := by
      rw [hs', pos_append, pos_append]
      omega
    rcases split_further hchar with ⟨v', hold⟩ | ⟨w₁, rfl, hw⟩
    · refine (h.covers b' c v' hold).imp_right ?_
      rintro ⟨r, hr, hfrom, hto⟩
      rcases List.mem_append.1 hr with hr | hr
      · exact ⟨r, List.mem_append_left _ hr, hfrom, hto⟩
      · rw [List.mem_singleton.1 hr, hrange] at hfrom
        refine ⟨_, hnew, hfrom, ?_⟩
        rw [← hwhole, hchar, show b' ++ c :: v = b' ++ [c] ++ v by simp, pos_append _ v]
        exact Nat.le_add_right _ _
    · refine .inr ⟨_, hnew, ?_, ?_⟩
      · simp only [pos_append] at hstart ⊢
        omega
      · rw [← hwhole, hchar, show a ++ w₁ ++ c :: v = a ++ w₁ ++ [c] ++ v by simp, pos_append _ v]
        exact Nat.le_add_right _ _

end

/-! ## The whole text -/

/-- Outside every group and string, and in a comment only at its end. -/
def Outside (a t : Text) : Prop :=
  Balanced a ∨ reads (.code 0) a = some (.comment 0) ∧ ∀ c ∈ t.head?, c = '\n'

theorem Outside.balanced {a t : Text} {c : Char} (h : Outside a (c :: t)) (hc : c ≠ '\n') : Balanced a :=
  h.resolve_right fun hcomment => hc (hcomment.2 c rfl)

theorem Outside.whitespace {a t : Text} {c : Char} (h : Outside a (c :: t)) (hc : whitespaceC c = true) :
    Balanced (a ++ [c]) := by
  rcases h with h | ⟨h, hline⟩
  · rw [balanced_append h, Balanced, reads_cons, whitespace_flat hc]
    rfl
  · obtain rfl := hline c rfl
    rw [Balanced, reads_append, h]
    rfl

theorem reads_comment {w : Text} (h : '\n' ∉ w) : reads (.comment 0) w = some (.comment 0) := by
  induction w with
  | nil => rfl
  | cons c w ih =>
    have hnext : Mode.next (.comment 0) (kindOf c) = some (.comment 0) :=
      kindOf_cases c (P := fun k => Mode.next (.comment 0) k = some (.comment 0)) (fun _ => rfl) (fun _ => rfl)
        (fun _ => rfl) (fun hc => absurd (hc ▸ List.mem_cons_self) h) (fun _ => rfl) (fun _ => rfl) rfl
    rw [reads_cons, hnext]
    exact ih fun hmem => h (List.mem_cons_of_mem _ hmem)

theorem not_newline {t : Text} : '\n' ∉ t.takeWhile fun c => decide (c ≠ '\n') := fun hmem => by
  have := List.mem_takeWhile_imp hmem
  simp at this

section
variable {fuel : Nat} {text : Text}

/-- What `top_items` has come to at a place. -/
structure TopAt (text : Text) (s : TopState) (a t : Text) : Prop where
  text_eq : text = a ++ t
  place   : s.i = pos a
  outside : Outside a t
  tiled   : Tiled text s.found a

/-- What `top_items` ends with. -/
def TopEnds (text : Text) (r : Run (List (Nat × Nat))) : Prop :=
  Ends r ∧ ∀ found, r = .ok found → Tiled text found text ∧ Outside text []

theorem topStep_fine (hfuel : pos text < fuel) {s : TopState} (hs : ∃ a t, TopAt text s a t) :
    Fine (fun s => ∃ a t, TopAt text s a t) (fun s => pos text - s.i) (fun _ r => TopEnds text r) s
      (topStep fuel (bytes text) s) := by
  obtain ⟨a, t, htext, hplace, houtside, htiled⟩ := hs
  have hgo : ∀ {s' : TopState} {w u : Text}, t = w ++ u → w ≠ [] → s'.i = pos (a ++ w) → Outside (a ++ w) u →
      Tiled text s'.found (a ++ w) →
      Fine (fun s => ∃ a t, TopAt text s a t) (fun s => pos text - s.i) (fun _ r => TopEnds text r) s
        (.ok (.next s')) := by
    intro s' w u hsplit hw hi hout htile
    refine ⟨⟨a ++ w, u, by rw [htext, hsplit, List.append_assoc], hi, hout, htile⟩, ?_, fun r hr => hr⟩
    obtain ⟨c, w, rfl⟩ := List.exists_cons_of_ne_nil hw
    have := pos_pos c w
    simp only [hi, hplace, htext, hsplit, pos_append]
    omega
  rw [topStep, hplace]
  cases t with
  | nil =>
    rw [List.append_nil] at htext
    subst htext
    rw [no_byte]
    refine ⟨ends_ok _, fun found heq => ?_⟩
    cases heq
    exact ⟨htiled, houtside⟩
  | cons c t =>
    obtain ⟨b, hget, hfirst⟩ := firstByte a c t htext
    simp only [hget]
    by_cases hwhite : isAsciiWhitespace b = true
    · rw [if_pos hwhite]
      have hc : whitespaceC c = true := by rw [← hfirst.whitespace, hwhite]
      refine hgo (w := [c]) rfl (List.cons_ne_nil _ _) ?_ (.inl (houtside.whitespace hc)) (htiled.skip ?_)
      · rw [pos_singleton (by rw [whitespaceC, Bool.and_eq_true] at hc; exact hc.1)]
      · intro w₁ d w₂ hw
        have hd : d ∈ [c] := by
          rw [hw]
          simp
        rw [List.mem_singleton.1 hd]
        exact .inl hc
    rw [if_neg hwhite]
    have hline : c ≠ '\n' := by
      rintro rfl
      rw [hfirst.whitespace] at hwhite
      exact hwhite rfl
    have hbal : Balanced a := houtside.balanced hline
    by_cases hsemi : b = byte ';'
    · rw [if_pos hsemi]
      obtain rfl := (hfirst.eq_iff ';' rfl).1 hsemi
      rw [afterComment_at htext]
      have hcomment : ∀ w : Text, '\n' ∉ w → reads (.code 0) (a ++ ';' :: w) = some (.comment 0) := fun w hw => by
        rw [reads_append, hbal]
        exact reads_comment hw
      have hfirst : (';' :: t).takeWhile (fun c => decide (c ≠ '\n')) = ';' :: t.takeWhile fun c => decide (c ≠ '\n') :=
        List.takeWhile_cons_of_pos (by decide)
      refine hgo (w := (';' :: t).takeWhile fun c => decide (c ≠ '\n'))
        (u := (';' :: t).dropWhile fun c => decide (c ≠ '\n')) List.takeWhile_append_dropWhile.symm ?_ rfl
        (.inr ⟨?_, ?_⟩) (htiled.skip ?_)
      · rw [hfirst]
        exact List.cons_ne_nil _ _
      · rw [hfirst]
        exact hcomment _ not_newline
      · intro d hd
        have := List.head?_dropWhile_not (fun c => decide (c ≠ '\n')) (';' :: t)
        rw [Option.mem_def.1 hd] at this
        simpa using this
      · intro w₁ d w₂ hw
        have hall : '\n' ∉ w₁ ++ [d] := fun hmem => by
          refine not_newline (t := ';' :: t) ?_
          rw [hw, show w₁ ++ d :: w₂ = w₁ ++ [d] ++ w₂ by simp]
          exact List.mem_append_left _ hmem
        rw [hfirst] at hw
        refine .inr ?_
        rw [List.append_assoc]
        cases w₁ with
        | nil =>
          cases hw
          exact hcomment [] List.not_mem_nil
        | cons e w₁ =>
          obtain ⟨rfl, -⟩ := List.cons.inj hw
          exact hcomment (w₁ ++ [d]) fun hmem => hall (List.mem_cons_of_mem _ hmem)
    rw [if_neg hsemi]
    rcases topEnd_at s.attach htext hfirst hwhite hsemi hfuel with ⟨offset, message, herror⟩ |
      ⟨w, u, hsplit, hw, hbalanced, hend⟩
    · rw [herror]
      exact ⟨ends_fail offset message, fun found heq => by cases heq⟩
    · rw [hend]
      have hwhole : text = a ++ w ++ u := by rw [htext, hsplit, List.append_assoc]
      refine hgo hsplit hw rfl (.inl ((balanced_append hbal).2 hbalanced)) ?_
      dsimp only
      split_ifs with hextends
      · simp only [ne_eq, Bool.and_eq_true, decide_eq_true_eq] at hextends
        exact htiled.extend hextends.1.1 hwhole hbal hbalanced
      · exact htiled.push hwhole hw hbal hbalanced

/-- **`top_items` ends on every text**, and what it finds tiles the text. -/
theorem top_spec (hfuel : pos text < fuel) : TopEnds text (topItems fuel text) := by
  refine loop_rule (R := fun _ r => TopEnds text r) (fun s : TopState => pos text - s.i)
    (fun s hs => topStep_fine hfuel hs) ?_ (lt_of_le_of_lt (Nat.sub_le _ _) hfuel)
  refine ⟨[], text, rfl, rfl, .inl rfl, nofun, List.Pairwise.nil, nofun, fun b c u h => ?_⟩
  cases b <;> cases h

end

/-! ## Brackets of two kinds -/

/-- The brackets open after a character, innermost first; none where one is closed by the other kind. -/
def Mode.brackets (m : Mode) (st : List Char) (c : Char) : Option (List Char) :=
  match m with
  | .code _ =>
    if c = '(' ∨ c = '[' then some (c :: st)
    else if c = ')' then (if st.head? = some '(' then some st.tail else none)
    else if c = ']' then (if st.head? = some '[' then some st.tail else none)
    else some st
  | _ => some st

def nests : Mode → List Char → Text → Option (Mode × List Char)
  | m, st, [] => some (m, st)
  | m, st, c :: t => (m.brackets st c).bind fun st' => (m.next (kindOf c)).bind fun m' => nests m' st' t

/-- Every bracket is closed, and by its own kind. -/
def Matched (t : Text) : Prop := ∃ m, nests (.code 0) [] t = some (m, [])

theorem opens_iff {c : Char} : kindOf c = .opens ↔ c = '(' ∨ c = '[' := by
  constructor
  · exact kindOf_cases c (P := fun k => k = .opens → c = '(' ∨ c = '[') (fun _ => nofun) (fun _ => nofun)
      (fun _ => nofun) (fun _ => nofun) (fun h _ => h) (fun _ => nofun) nofun
  · rintro (rfl | rfl) <;> rfl

theorem depth_flat {m m' : Mode} {k : Kind} (hopens : k ≠ .opens) (hcloses : k ≠ .closes) (h : m.next k = some m') :
    m'.depth = m.depth := by
  cases m with
  | code d => cases d <;> cases k <;> cases h <;> first | rfl | contradiction
  | str d => cases k <;> cases h <;> rfl
  | esc d => cases h; rfl
  | comment d => cases k <;> cases h <;> rfl

/-- The depth is the number of brackets that are open. -/
theorem brackets_depth {m m' : Mode} {st st' : List Char} {c : Char} (hst : m.brackets st c = some st')
    (hnext : m.next (kindOf c) = some m') (hdepth : m.depth = st.length) : m'.depth = st'.length := by
  cases m with
  | code d =>
    change d = st.length at hdepth
    rw [Mode.brackets] at hst
    have htail : st.tail.length = st.length - 1 := List.length_tail
    split_ifs at hst with hopens hround hhead hsquare hhead'
    · cases hst
      rw [opens_iff.2 hopens] at hnext
      cases hnext
      exact congrArg (· + 1) hdepth
    · cases hst
      rw [closes_iff.2 (.inl hround)] at hnext
      cases d with
      | zero => cases hnext
      | succ d =>
        cases hnext
        exact (by omega : d = st.tail.length)
    · cases hst
      rw [closes_iff.2 (.inr hsquare)] at hnext
      cases d with
      | zero => cases hnext
      | succ d =>
        cases hnext
        exact (by omega : d = st.tail.length)
    · cases hst
      rw [depth_flat (mt opens_iff.1 hopens) (mt closes_iff.1 (not_or.2 ⟨hround, hsquare⟩)) hnext]
      exact hdepth
  | str d =>
    cases hst
    rw [← hdepth]
    cases hkind : kindOf c <;> rw [hkind] at hnext <;> cases hnext <;> rfl
  | esc d =>
    cases hst
    cases hnext
    exact hdepth
  | comment d =>
    cases hst
    rw [← hdepth]
    cases hkind : kindOf c <;> rw [hkind] at hnext <;> cases hnext <;> rfl

theorem nests_reads : ∀ {t : Text} {m m' : Mode} {st st' : List Char}, nests m st t = some (m', st') →
    m.depth = st.length → reads m t = some m' ∧ m'.depth = st'.length
  | [], _, _, _, _, h, hdepth => by
    cases h
    exact ⟨rfl, hdepth⟩
  | c :: t, m, m', st, st', h, hdepth => by
    obtain ⟨st₁, hst, h⟩ := Option.bind_eq_some_iff.1 h
    obtain ⟨m₁, hnext, h⟩ := Option.bind_eq_some_iff.1 h
    obtain ⟨hreads, hlast⟩ := nests_reads h (brackets_depth hst hnext hdepth)
    exact ⟨by rw [reads_cons, hnext]; exact hreads, hlast⟩

theorem nests_append (t : Text) : ∀ (s : Text) (m : Mode) (st : List Char),
    nests m st (s ++ t) = (nests m st s).bind fun x => nests x.1 x.2 t
  | [], _, _ => rfl
  | c :: s, m, st => by
    rw [List.cons_append, nests, nests]
    cases m.brackets st c with
    | none => rfl
    | some st' =>
      cases m.next (kindOf c) with
      | none => rfl
      | some m' => exact nests_append t s m' st'

/-- What stands between two places at depth zero is matched when the text is. -/
theorem Matched.slice {b s u : Text} (h : Matched (b ++ s ++ u)) (hb : Balanced b) (hs : Balanced s) : Matched s := by
  obtain ⟨m, h⟩ := h
  have hempty : ∀ {t : Text} {m : Mode} {st : List Char}, Balanced t → nests (.code 0) [] t = some (m, st) →
      m = .code 0 ∧ st = [] := by
    intro t m st ht hnests
    obtain ⟨hreads, hdepth⟩ := nests_reads hnests rfl
    cases ht.symm.trans hreads
    exact ⟨rfl, List.length_eq_zero_iff.1 hdepth.symm⟩
  rw [List.append_assoc, nests_append] at h
  obtain ⟨⟨m₁, st₁⟩, hfirst, h⟩ := Option.bind_eq_some_iff.1 h
  obtain ⟨rfl, rfl⟩ := hempty hb hfirst
  rw [nests_append] at h
  obtain ⟨⟨m₂, st₂⟩, hsecond, -⟩ := Option.bind_eq_some_iff.1 h
  obtain ⟨rfl, rfl⟩ := hempty hs hsecond
  exact ⟨_, hsecond⟩

/-! ## Nothing is lost -/

/-- **The top-level cut loses nothing**: the ranges of `top_items` are ordered and apart, balanced, and cover all but
white space and comments; `cut` keeps the predicate groups and, in their order, the other pieces of the text. -/
theorem cutting_keeps {fuel : Nat} {text : Text} (base : Nat) (hfuel : pos text < fuel) :
    (∀ found, topItems fuel text = .ok found →
      found.Pairwise (fun r r' => r.2 ≤ r'.1) ∧
      (∀ r ∈ found, ∃ s, slice text r.1 r.2 = .ok s ∧ s ≠ [] ∧ Balanced s ∧ (Matched text → Matched s)) ∧
      ∀ b c u, text = b ++ c :: u → Skipped b c ∨ ∃ r ∈ found, r.1 ≤ pos b ∧ pos (b ++ [c]) ≤ r.2) ∧
    ∀ root captures preds, cut fuel text base = .ok (root, captures, preds) → ∃ ps qs,
      Cuts text ps [] ∧ text = ps.flatMap Piece.text ∧ preds.map Pred.text = ps.filterMap Piece.group? ∧
      root = qs.flatMap Piece.text ∧ Kept ps qs ∧ qs.filter Piece.solid = ps.filter Piece.solid ∧
      (preds = [] → qs = ps.filter fun p => !(p matches .comment _)) := by
  constructor
  · intro found hfound
    obtain ⟨htiled, -⟩ := (top_spec hfuel).2 found hfound
    refine ⟨htiled.ordered, fun r hr => ?_, fun b c u hsplit => htiled.covers b c u hsplit⟩
    obtain ⟨b, s, u, hsplit, rfl, hs, hb, hbalanced⟩ := htiled.item r hr
    exact ⟨s, slice_at (by rw [hsplit, List.append_assoc]) rfl rfl, hs, hbalanced, fun hmatched =>
      (hsplit ▸ hmatched : Matched (b ++ s ++ u)).slice hb hbalanced⟩
  · intro root captures preds hcut
    obtain ⟨ps, qs, hkeeps⟩ := (cut_spec base hfuel).2 root captures preds hcut
    have htext := hkeeps.read.text_eq
    rw [List.append_nil] at htext
    refine ⟨ps, qs, hkeeps.read, htext, hkeeps.preds_eq, hkeeps.root_eq, hkeeps.kept, hkeeps.kept.solid,
      fun hnone => ?_⟩
    exact hkeeps.kept.unfiltered (by rw [← hkeeps.preds_eq, hnone, List.map_nil])

def filtered : Text := "(a) @b (#p? @b)".toList

theorem filtered_cut : ∃ ps qs, Cuts filtered ps [] ∧ ps.filterMap Piece.group? = ["(#p? @b)".toList] ∧
    qs.flatMap Piece.text = "(a) @b".toList ∧ Kept ps qs := by
  obtain ⟨ps, qs, hread, -, hpreds, hroot, hkept, -, -⟩ :=
    (cutting_keeps 0 (show pos filtered < 40 by decide)).2 "(a) @b".toList ["b".toList]
      [⟨"p?".toList, "(#p? @b)".toList, [.capture "b".toList], 7⟩] (by rfl)
  exact ⟨ps, qs, hread, hpreds.symm, hroot.symm, hkept⟩

/-- The space before the predicate is neither in a comment nor in a predicate, and is lost. -/
theorem space_is_lost : ¬ ∀ (fuel base : Nat) (text root : Text) (captures : List Text) (preds : List Pred)
    (ps : List Piece), cut fuel text base = .ok (root, captures, preds) → Cuts text ps [] →
      root = (ps.filter fun p => !(p matches .comment _ | .group _)).flatMap Piece.text := by
  intro h
  have hread : Cuts "(a) (#p?)".toList ([] ++ [.plain '('] ++ [.plain 'a'] ++ [.plain ')'] ++ [.plain ' '] ++
      [.group "(#p?)".toList]) [] :=
    ((((Cuts.nil.snoc rfl).snoc rfl).snoc rfl).snoc rfl).snoc rfl
  have hroot := h 20 0 "(a) (#p?)".toList "(a)".toList [] [⟨"p?".toList, "(#p?)".toList, [], 4⟩] _ (by rfl) hread
  exact absurd hroot (by decide)

end HafleyScm.Parens
