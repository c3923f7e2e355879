import HafleyRs.HafleyScm.ParensTop

/-!
# The scanner ends (`crates/hafley_scm/src/scmpp/_1_parens.rs`:172–328)

`items` has no turn for a `;`: it takes none and goes round for ever. It is only given what `cut` put down, and there
a `;` stands inside a string (`Quiet`). Of such a text `items` reads every item, and `root_of` takes off a pair of
brackets at each turn, which leaves the text quiet.
-/

namespace HafleyScm.Parens
open Loop Utf8

/-! ## Texts without comments -/

/-- Where a character stands when brackets do not count. -/
inductive Lex where
  | code | str | esc
deriving DecidableEq, Repr

/-- None where a comment starts. -/
def Lex.next : Lex → Kind → Option Lex
  | .code, .semicolon => none
  | .code, .quote => some .str
  | .code, _ => some .code
  | .str, .backslash => some .esc
  | .str, .quote => some .code
  | .str, _ => some .str
  | .esc, _ => some .str

def Lex.reads (l : Lex) (t : Text) : Option Lex := t.foldlM (fun l c => l.next (kindOf c)) l

/-- Every `;` stands in a string. -/
def Quiet (t : Text) : Prop := ∃ l, Lex.reads .code t = some l

def Mode.lex : Mode → Option Lex
  | .code _ => some .code
  | .str _ => some .str
  | .esc _ => some .esc
  | .comment _ => none

theorem Lex.reads_cons (l : Lex) (c : Char) (t : Text) :
    l.reads (c :: t) = (l.next (kindOf c)).bind (Lex.reads · t) := rfl

theorem Lex.reads_append (l : Lex) (s t : Text) : l.reads (s ++ t) = (l.reads s).bind (Lex.reads · t) :=
  List.foldlM_append

theorem Lex.next_of_mode {m m' : Mode} {l l' : Lex} {k : Kind} (hm : m.lex = some l) (hnext : m.next k = some m')
    (hlex : l.next k = some l') : m'.lex = some l' := by
  cases m with
  | code d =>
    cases hm
    cases k with
    | closes =>
      cases d with
      | zero => cases hnext
      | succ d => cases hnext; cases hlex; rfl
    | semicolon => cases hlex
    | _ => cases hnext; cases hlex; rfl
  | str d =>
    cases hm
    cases k with
    | _ => cases hnext; cases hlex; rfl
  | esc d => cases hm; cases hnext; cases hlex; rfl
  | comment d => cases hm

/-- Where both readers come through, they agree. -/
theorem Lex.reads_of_mode : ∀ {t : Text} {m m' : Mode} {l l' : Lex}, m.lex = some l → Parens.reads m t = some m' →
    l.reads t = some l' → m'.lex = some l'
  | [], _, _, _, _, hm, hreads, hlex => by
    cases hreads
    cases hlex
    exact hm
  | c :: t, m, m', l, l', hm, hreads, hlex => by
    obtain ⟨m₁, hnext, hreads⟩ := Option.bind_eq_some_iff.1 hreads
    obtain ⟨l₁, hlexNext, hlex⟩ := Option.bind_eq_some_iff.1 hlex
    exact Lex.reads_of_mode (Lex.next_of_mode hm hnext hlexNext) hreads hlex

theorem Quiet.first {a b : Text} (h : Quiet (a ++ b)) : Quiet a := by
  obtain ⟨l, h⟩ := h
  rw [Lex.reads_append] at h
  obtain ⟨l', ha, -⟩ := Option.bind_eq_some_iff.1 h
  exact ⟨l', ha⟩

theorem Quiet.rest {a b : Text} (h : Quiet (a ++ b)) (ha : Lex.reads .code a = some .code) : Quiet b := by
  obtain ⟨l, h⟩ := h
  rw [Lex.reads_append, ha] at h
  exact ⟨l, h⟩

/-- What the scanner takes as a whole leaves no string open. -/
theorem Quiet.code {a b : Text} {m : Mode} (h : Quiet (a ++ b)) (hm : m.lex = some .code)
    (ha : reads m a = some (.code 0)) : Lex.reads .code a = some .code := by
  obtain ⟨l, hl⟩ := h.first
  cases (Lex.reads_of_mode hm ha hl).symm
  exact hl

theorem flat_lex {c : Char} (hquote : c ≠ '"') (hsemi : c ≠ ';') : Lex.next .code (kindOf c) = some .code :=
  kindOf_cases c (P := fun k => Lex.next .code k = some .code) (fun h => absurd h hquote) (fun _ => rfl)
    (fun h => absurd h hsemi) (fun _ => rfl) (fun _ => rfl) (fun _ => rfl) rfl

theorem flat_reads {w : Text} (h : ∀ c ∈ w, c ≠ '"' ∧ c ≠ ';') : Lex.reads .code w = some .code := by
  induction w with
  | nil => rfl
  | cons c w ih =>
    have hc := h c List.mem_cons_self
    rw [Lex.reads_cons, flat_lex hc.1 hc.2]
    exact ih fun d hd => h d (List.mem_cons_of_mem _ hd)

/-- A string up to its quote. -/
theorem lex_quoted : ∀ {t s r : Text} (escaped : Bool), upTo (quoted escaped 0) t = some (s, r) →
    Lex.reads (if escaped then .esc else .str) s = some .code
  | [], _, _, _, h => by cases h
  | c :: t, s, r, escaped, h => by
    have hlex : Lex.next (if escaped then .esc else .str) (kindOf c) =
        some (if !escaped && kindOf c = .quote then .code
          else if !escaped && kindOf c = .backslash then .esc else .str) := by
      cases escaped <;> cases kindOf c <;> rfl
    rw [upTo, next_quoted] at h
    simp only at h
    split_ifs at h with hclosed hzero hzero
    · cases h
      rw [Lex.reads_cons, hlex, if_pos hclosed]
      rfl
    · exact absurd rfl hzero
    · exact absurd hzero (quoted_ne _ _)
    · obtain ⟨x, hx, heq⟩ := Option.map_eq_some_iff.1 h
      cases heq
      rw [Lex.reads_cons, hlex, if_neg hclosed]
      exact lex_quoted _ (s := x.1) (r := x.2) hx

theorem isWhitespace_flat {c : Char} (h : isWhitespace c = true) : c ≠ '"' ∧ c ≠ ';' := by
  constructor <;> rintro rfl <;> cases h

theorem Piece.Whole.lex {p : Piece} (h : p.Whole) : Lex.reads .code p.text = some .code := by
  cases p with
  | literal t =>
    obtain ⟨s, rfl, hs⟩ := h
    exact lex_quoted false hs
  | comment t => exact h.elim
  | group t => exact h.elim
  | capture name =>
    refine flat_reads fun c hc => ?_
    rcases List.mem_cons.1 hc with rfl | hc
    · exact ⟨by decide, by decide⟩
    · have hname : nameC c = true := h c hc
      constructor <;> rintro rfl <;> cases hname
  | plain c => exact flat_reads fun d hd => List.mem_singleton.1 hd ▸ h

theorem pieces_lex {qs : List Piece} (h : ∀ q ∈ qs, q.Whole) :
    Lex.reads .code (qs.flatMap Piece.text) = some .code := by
  induction qs with
  | nil => rfl
  | cons q qs ih =>
    rw [List.flatMap_cons, Lex.reads_append, (h q List.mem_cons_self).lex]
    exact ih fun p hp => h p (List.mem_cons_of_mem _ hp)

/-- **The cut leaves no `;` outside a string.** -/
theorem CutKeeps.quiet {text root : Text} {preds : List Pred} {ps qs : List Piece}
    (h : CutKeeps text root preds ps qs) : Quiet root :=
  ⟨.code, by rw [h.root_eq]; exact pieces_lex h.kept.whole⟩

theorem trim_split (t : Text) : ∃ a b, t = a ++ (trim t ++ b) ∧ ∀ c ∈ a, isWhitespace c = true := by
  refine ⟨t.takeWhile isWhitespace, (trimStart t).rtakeWhile isWhitespace, ?_, fun c hc => List.mem_takeWhile_imp hc⟩
  rw [trim, trimEnd, List.rdropWhile_append_rtakeWhile, trimStart, List.takeWhile_append_dropWhile]

theorem Quiet.trim {t : Text} (h : Quiet t) : Quiet (trim t) := by
  obtain ⟨a, b, hsplit, hwhite⟩ := trim_split t
  rw [hsplit] at h
  exact (h.rest (flat_reads fun c hc => isWhitespace_flat (hwhite c hc))).first

theorem pos_trim (t : Text) : pos (trim t) ≤ pos t := by
  obtain ⟨a, b, hsplit, -⟩ := trim_split t
  have := congrArg pos hsplit
  rw [pos_append, pos_append] at this
  omega

/-! ## Items -/

section
variable {fuel base : Nat} {text : Text}

/-- Where `items` has read to. -/
structure ItemsAt (text : Text) (i : Nat) (a t : Text) : Prop where
  text_eq : text = a ++ t
  place   : i = pos a
  code    : Lex.reads .code a = some .code

theorem itemsStep_fine (hquiet : Quiet text) (hfuel : pos text < fuel) {s : Nat × List Nat}
    (hs : ∃ a t, ItemsAt text s.1 a t) :
    Fine (fun s : Nat × List Nat => ∃ a t, ItemsAt text s.1 a t) (fun s => pos text - s.1)
      (fun _ (r : Run (List Nat)) => Ends r) s (itemsStep fuel (bytes text) base s) := by
  obtain ⟨i, found⟩ := s
  obtain ⟨a, t, htext, hi, hcode⟩ := hs
  simp only at hi
  subst hi
  have hrest : Quiet t := by
    rw [htext] at hquiet
    exact hquiet.rest hcode
  have hgo : ∀ {w u : Text} (found' : List Nat), t = w ++ u → w ≠ [] → Balanced w →
      Fine (fun s : Nat × List Nat => ∃ a t, ItemsAt text s.1 a t) (fun s => pos text - s.1)
        (fun _ (r : Run (List Nat)) => Ends r) (pos a, found) (.ok (.next (pos (a ++ w), found'))) := by
    intro w u found' hsplit hw hbalanced
    rw [hsplit] at hrest
    refine ⟨⟨a ++ w, u, by rw [htext, hsplit, List.append_assoc], rfl, ?_⟩, ?_, fun r hr => hr⟩
    · rw [Lex.reads_append, hcode]
      exact hrest.code (m := .code 0) rfl hbalanced
    · obtain ⟨c, w, rfl⟩ := List.exists_cons_of_ne_nil hw
      have := pos_pos c w
      simp only [htext, hsplit, pos_append]
      omega
  rw [itemsStep]
  cases t with
  | nil =>
    rw [List.append_nil] at htext
    subst htext
    simp only [no_byte]
    exact ends_ok _
  | cons c t =>
    obtain ⟨b, hget, hfirst⟩ := firstByte a c t htext
    simp only [hget]
    have hsemi : c ≠ ';' := by
      rintro rfl
      obtain ⟨l, hl⟩ := hrest
      cases hl
    by_cases hwhite : isAsciiWhitespace b = true
    · rw [if_pos hwhite]
      have hc : whitespaceC c = true := by rw [← hfirst.whitespace, hwhite]
      have hascii : isAscii c = true := by
        rw [whitespaceC, Bool.and_eq_true] at hc
        exact hc.1
      rw [← pos_singleton hascii]
      refine hgo found (w := [c]) (u := t) rfl (List.cons_ne_nil _ _) (balanced_flat fun d hd => ?_)
      rw [List.mem_singleton.1 hd]
      exact whitespace_flat hc
    rw [if_neg hwhite]
    by_cases hpost : (isPostfix b || decide (b = byte '.')) = true
    · rw [if_pos hpost]
      have hc : c = '*' ∨ c = '+' ∨ c = '?' ∨ c = '.' := by
        simpa only [isPostfix, Bool.or_eq_true, decide_eq_true_eq, hfirst.eq_iff '*' rfl, hfirst.eq_iff '+' rfl,
          hfirst.eq_iff '?' rfl, hfirst.eq_iff '.' rfl, or_assoc] using hpost
      have hnext := hgo found (w := [c]) (u := t) rfl (List.cons_ne_nil _ _)
        (by rcases hc with rfl | rfl | rfl | rfl <;> rfl)
      rwa [pos_singleton (by rcases hc with rfl | rfl | rfl | rfl <;> rfl)] at hnext
    rw [if_neg hpost]
    by_cases hquote : b = byte '"'
    · rw [if_pos hquote]
      obtain rfl := (hfirst.eq_iff '"' rfl).1 hquote
      rw [afterString_at htext hfuel]
      cases hend : upTo (.str 0) t with
      | none => exact ends_fail _ _
      | some x =>
        refine hgo _ (w := '"' :: x.1) (u := x.2) ?_ (List.cons_ne_nil _ _) (balanced_string (s := x.1) (r := x.2) hend)
        rw [(upTo_spec (s := x.1) (r := x.2) hend).1]
        rfl
    rw [if_neg hquote]
    by_cases hopens : (b = byte '(' || b = byte '[') = true
    · rw [if_pos hopens]
      have hkind : kindOf c = .opens := by
        rw [← hfirst.kind]
        rw [Bool.or_eq_true, decide_eq_true_eq, decide_eq_true_eq] at hopens
        rcases hopens with rfl | rfl <;> rfl
      have hgroup := afterGroup_at base hkind htext hfuel
      cases hend : upTo (.code 1) t with
      | none =>
        rw [hend] at hgroup
        obtain ⟨offset, message, herror⟩ := hgroup
        rw [herror]
        exact ends_fail offset message
      | some x =>
        rw [hend] at hgroup
        simp only at hgroup
        rw [hgroup]
        refine hgo _ (w := c :: x.1) (u := x.2) ?_ (List.cons_ne_nil _ _)
          (balanced_group (s := x.1) (r := x.2) hkind hend)
        rw [(upTo_spec (s := x.1) (r := x.2) hend).1]
        rfl
    rw [if_neg hopens]
    by_cases hat : b = byte '@'
    · rw [if_pos hat]
      obtain rfl := (hfirst.eq_iff '@' rfl).1 hat
      have hwhole : text = a ++ ['@'] ++ (t ++ []) := by
        rw [htext]
        simp
      rw [← pos_singleton (c := '@') rfl, skipName_at hwhole (by rw [hwhole, List.append_nil]), List.append_assoc]
      refine hgo found (w := ['@'] ++ t.takeWhile nameC) (u := t.dropWhile nameC) ?_ (List.cons_ne_nil _ _)
        (balanced_capture t)
      rw [List.append_assoc, List.takeWhile_append_dropWhile]
      rfl
    rw [if_neg hat]
    by_cases hcloses : (b = byte ')' || b = byte ']') = true
    · rw [if_pos hcloses]
      exact ends_fail _ _
    rw [if_neg hcloses, skipWord_at (t := c :: t) (b := []) (by rw [List.append_nil, htext]) (by rw [htext])]
    have hword : wordC c = true := by
      rw [← hfirst.word]
      simp only [Bool.or_eq_true, decide_eq_true_eq, not_or] at hopens hcloses
      simp [wordChar, hwhite, mt (hfirst.eq_iff ';' rfl).1 hsemi, hat, hquote, hopens, hcloses]
    refine hgo _ (w := (c :: t).takeWhile wordC) (u := (c :: t).dropWhile wordC)
      List.takeWhile_append_dropWhile.symm ?_ (balanced_flat fun d hd => word_flat (List.mem_takeWhile_imp hd))
    rw [List.takeWhile_cons_of_pos hword]
    exact List.cons_ne_nil _ _

/-- `items` ends on a text without comments. -/
theorem items_ends (hquiet : Quiet text) (hfuel : pos text < fuel) : Ends (items fuel text base) := by
  refine loop_rule (R := fun _ r => Ends r) (fun s : Nat × List Nat => pos text - s.1)
    (fun s hs => itemsStep_fine hquiet hfuel hs) ?_ (lt_of_le_of_lt (Nat.sub_le _ _) hfuel)
  exact ⟨[], text, rfl, rfl, rfl⟩

variable (base) in
/-- A grouping is a pair of brackets around a text. -/
theorem isGrouping_spec (hfuel : pos text < fuel) : Ends (isGrouping fuel text base) ∧
    (isGrouping fuel text base = .ok true → ∃ inner z, text = '(' :: (inner ++ [z]) ∧ isAscii z = true) := by
  rw [isGrouping]
  by_cases hhead : (bytes text).head? = some (byte '(')
  · rw [if_neg (not_not.2 hhead)]
    cases text with
    | nil => cases hhead
    | cons c t =>
      obtain ⟨b, hget, hfirst⟩ := firstByte [] c t (List.nil_append _).symm
      have hc : c = '(' := by
        refine (hfirst.eq_iff '(' rfl).1 ?_
        rw [List.head?_eq_getElem?] at hhead
        exact Option.some.inj (hget.symm.trans hhead)
      subst hc
      have hgroup := afterGroup_at (t := t) base (a := []) (o := '(') rfl (List.nil_append _).symm hfuel
      cases hend : upTo (.code 1) t with
      | none =>
        rw [hend] at hgroup
        obtain ⟨offset, message, herror⟩ := hgroup
        change afterGroup fuel (bytes ('(' :: t)) 0 base = _ at herror
        rw [herror]
        exact ⟨ends_fail offset message, fun h => by cases h⟩
      | some x =>
        rw [hend] at hgroup
        change afterGroup fuel (bytes ('(' :: t)) 0 base = _ at hgroup
        rw [hgroup]
        have hall := (upTo_spec (s := x.1) (r := x.2) hend).1
        simp only [bind, Except.bind, List.nil_append]
        by_cases hwhole : pos ('(' :: x.1) = (bytes ('(' :: t)).length
        · have hinside : sliceFrom ('(' :: t) 1 = .ok t := sliceFrom_at (a := ['(']) rfl rfl
          rw [if_neg (not_not.2 hwhole), hinside]
          refine ⟨ends_ok _, fun _ => ?_⟩
          obtain ⟨inner, z, hinner, hz⟩ := upTo_closes (s := x.1) (r := x.2) (m := .code 1) Nat.one_pos hend
          have hempty : x.2 = [] := by
            have hlen : pos ('(' :: t) = pos ('(' :: x.1) + pos x.2 := by
              rw [hall, ← List.cons_append, pos_append]
            cases hx : x.2 with
            | nil => rfl
            | cons d u =>
              have := pos_pos d u
              rw [hx] at hlen
              change pos ('(' :: x.1) = pos ('(' :: t) at hwhole
              omega
          refine ⟨inner, z, by rw [hall, hempty, hinner, List.append_nil], ?_⟩
          rcases closes_iff.1 hz with rfl | rfl <;> rfl
        · rw [if_pos hwhole]
          exact ⟨ends_ok _, fun h => by cases h⟩
  · rw [if_pos hhead]
    exact ⟨ends_ok _, fun h => by cases h⟩

/-- `root_of` ends on a text without comments. -/
theorem rootOf_ends (hquiet : Quiet text) (hfuel : pos text < fuel) : Ends (rootOf fuel text base) := by
  refine loop_rule (I := fun t => Quiet t ∧ pos t < fuel) (R := fun _ r => Ends r) pos (fun t ht => ?_)
    ⟨hquiet, hfuel⟩ hfuel
  obtain ⟨hquiet, hfuel⟩ := ht
  rw [rootStep]
  cases hitems : items fuel t base with
  | error stop =>
    obtain ⟨offset, message, rfl⟩ := items_ends hquiet hfuel stop hitems
    exact ends_fail offset message
  | ok found =>
    simp only [bind, Except.bind]
    by_cases hone : found.length ≠ 1
    · rw [if_pos hone]
      exact ends_fail _ _
    rw [if_neg hone]
    obtain ⟨hends, hspec⟩ := isGrouping_spec base hfuel
    cases hgrouping : isGrouping fuel t base with
    | error stop =>
      obtain ⟨offset, message, rfl⟩ := hends stop hgrouping
      exact ends_fail offset message
    | ok grouping =>
      cases grouping with
      | false => exact ends_ok _
      | true =>
        obtain ⟨inner, z, rfl, hz⟩ := hspec hgrouping
        have hsplit : '(' :: (inner ++ [z]) = ['('] ++ (inner ++ [z]) := rfl
        have hlast : (bytes ('(' :: (inner ++ [z]))).length - 1 = pos (['('] ++ inner) := by
          rw [← pos, hsplit, ← List.append_assoc, pos_singleton hz]
          rfl
        simp only [Bool.not_true, Bool.false_eq_true, if_false]
        have hinside : slice ('(' :: (inner ++ [z])) 1 ((bytes ('(' :: (inner ++ [z]))).length - 1) = .ok inner :=
          slice_at hsplit rfl hlast
        rw [hinside]
        have hlt : pos (trim inner) < pos ('(' :: (inner ++ [z])) := by
          refine lt_of_le_of_lt (pos_trim inner) ?_
          rw [pos_cons rfl, pos_append]
          omega
        refine ⟨⟨Quiet.trim ?_, hlt.trans hfuel⟩, hlt, fun r hr => hr⟩
        rw [hsplit] at hquiet
        exact (hquiet.rest rfl).first

/-! ## Every text -/

/-- The root is no longer than what it was cut from: a predicate is longer than the space in its place. -/
theorem Kept.shorter {ps qs : List Piece} (h : Kept ps qs) (hps : ∀ p ∈ ps, 0 < pos p.text) :
    pos (qs.flatMap Piece.text) ≤ pos (ps.flatMap Piece.text) := by
  have hleft : ∀ {ps : List Piece} {p : Piece}, (∀ q ∈ ps ++ [p], 0 < pos q.text) → ∀ q ∈ ps, 0 < pos q.text :=
    fun hall q hq => hall q (List.mem_append_left _ hq)
  induction h with
  | nil => exact le_rfl
  | comment t _ ih =>
    rw [List.flatMap_append, pos_append]
    exact (ih (hleft hps)).trans (Nat.le_add_right _ _)
  | group t space _ _ ih =>
    have hgroup := hps (.group t) (List.mem_append_right _ (List.mem_singleton_self _))
    have hold := ih (hleft hps)
    rw [List.flatMap_append, pos_append] at hold
    rw [List.flatMap_append, List.flatMap_append, pos_append, pos_append, List.flatMap_singleton]
    have hspace : pos (List.flatMap Piece.text (if space then [.plain ' '] else [])) ≤ 1 := by
      cases space <;> decide
    omega
  | keep _ _ ih =>
    rw [List.flatMap_append, List.flatMap_append, pos_append, pos_append]
    exact Nat.add_le_add_right (ih (hleft hps)) _

theorem Cuts.pos {t r : Text} {ps : List Piece} (h : Cuts t ps r) : ∀ p ∈ ps, 0 < Parens.pos p.text := by
  induction h with
  | nil => exact nofun
  | snoc _ hnext ih =>
    intro p hp
    rcases List.mem_append.1 hp with hp | hp
    · exact ih p hp
    · rw [List.mem_singleton.1 hp]
      exact (nextPiece_spec hnext).2

theorem CutKeeps.shorter {text root : Text} {preds : List Pred} {ps qs : List Piece}
    (h : CutKeeps text root preds ps qs) : pos root ≤ pos text := by
  have htext := h.read.text_eq
  rw [List.append_nil] at htext
  rw [h.root_eq, htext]
  exact h.kept.shorter h.read.pos

/-- **The scanner ends on every text**, with a result or an error of syntax; `items` and `root_of` end on every text
whose semicolons are all inside strings, and the cut returns no other. -/
theorem scanner_ends (base : Nat) (hfuel : pos text < fuel) :
    Ends (cut fuel text base) ∧ Ends (split fuel text base) ∧ Ends (topItems fuel text) ∧
      (∀ root captures preds, cut fuel text base = .ok (root, captures, preds) → Quiet root) ∧
      (Quiet text → Ends (items fuel text base) ∧ Ends (rootOf fuel text base)) := by
  obtain ⟨hcut, hkeeps⟩ := cut_spec base hfuel
  refine ⟨hcut, ?_, (top_spec hfuel).1, ?_, fun hquiet => ⟨items_ends hquiet hfuel, rootOf_ends hquiet hfuel⟩⟩
  · refine hcut.bind fun x hx => ?_
    obtain ⟨root, captures, preds⟩ := x
    obtain ⟨ps, qs, hkept⟩ := hkeeps root captures preds hx
    have hshort : pos (trim root) < fuel := lt_of_le_of_lt ((pos_trim root).trans hkept.shorter) hfuel
    exact (rootOf_ends hkept.quiet.trim hshort).bind fun root _ => ends_ok _
  · intro root captures preds hcut
    obtain ⟨ps, qs, hkept⟩ := hkeeps root captures preds hcut
    exact hkept.quiet

end

def grouped : Text := "((a \";\") @b)".toList

theorem grouped_ends : Ends (split 40 grouped 0) ∧ Ends (items 40 grouped 0) ∧ Ends (rootOf 40 grouped 0) := by
  obtain ⟨-, hsplit, -, -, hquiet⟩ := scanner_ends 0 (show pos grouped < 40 by decide)
  exact ⟨hsplit, hquiet ⟨.code, rfl⟩⟩

/-- A lone semicolon keeps `items` where it is, however long it goes on. -/
theorem semicolon_never_ends : ¬ ∀ (text : Text) (base : Nat), ∃ fuel,
    Ends (items fuel text base) ∧ Ends (rootOf fuel text base) := by
  intro h
  obtain ⟨fuel, hitems, -⟩ := h [';'] 0
  have hstuck : items fuel [';'] 0 = .error .diverge :=
    loop_diverges (I := fun s : Nat × List Nat => s.1 = 0) (fun s hs => ⟨(0, s.2 ++ [0]), by
      obtain ⟨i, found⟩ := s
      cases hs
      rfl, rfl⟩) rfl
  obtain ⟨offset, message, heq⟩ := hitems _ hstuck
  cases heq

end HafleyScm.Parens
