import HafleyRs.HafleyScm.ParensPred

/-!
# The cut (`crates/hafley_scm/src/scmpp/_1_parens.rs`:183)

`nextPiece` reads a level piece by piece: a string, a comment, a predicate group, a capture, or one character of
anything else. `cut` reads the same pieces (`cut_spec`): it keeps the predicates apart, leaves the comments out and
puts the others down in their order, except that the white space before a predicate goes and a space may come instead.
-/

namespace HafleyScm.Parens
open Loop Utf8

/-! ## Pieces -/

inductive Piece where
  | literal (text : Text)
  | comment (text : Text)
  | group (text : Text)
  | capture (name : Text)
  | plain (c : Char)
deriving DecidableEq, Repr

def Piece.text : Piece → Text
  | .literal t => t
  | .comment t => t
  | .group t => t
  | .capture name => '@' :: name
  | .plain c => [c]

/-- The group starts with a `#`, after white space. -/
def isPredicate (t : Text) : Bool := (trimStart t).head? = some '#'

/-- The first piece and the rest; `none` at the end and where a string or a predicate is not closed. -/
def nextPiece : Text → Option (Piece × Text)
  | [] => none
  | c :: t =>
    if c = '"' then (upTo (.str 0) t).map fun x => (.literal (c :: x.1), x.2)
    else if c = ';' then some (.comment ((c :: t).takeWhile (· ≠ '\n')), (c :: t).dropWhile (· ≠ '\n'))
    else if c = '(' && isPredicate t then (upTo (.code 1) t).map fun x => (.group (c :: x.1), x.2)
    else if c = '@' then some (.capture (t.takeWhile nameC), t.dropWhile nameC)
    else some (.plain c, t)

/-- The pieces of a text up to a rest. -/
inductive Cuts (t : Text) : List Piece → Text → Prop
  | nil : Cuts t [] t
  | snoc {ps : List Piece} {p : Piece} {r r' : Text} : Cuts t ps r → nextPiece r = some (p, r') → Cuts t (ps ++ [p]) r'

theorem nextPiece_spec {t r : Text} {p : Piece} (h : nextPiece t = some (p, r)) : t = p.text ++ r ∧ 0 < pos p.text := by
  cases t with
  | nil => cases h
  | cons c t =>
    rw [nextPiece] at h
    split_ifs at h with h1 h2 h3 h4
    · obtain ⟨x, hx, heq⟩ := Option.map_eq_some_iff.1 h
      cases heq
      exact ⟨congrArg (c :: ·) (upTo_spec (s := x.1) (r := x.2) hx).1, pos_pos _ _⟩
    · cases h
      rw [Piece.text]
      refine ⟨List.takeWhile_append_dropWhile.symm, ?_⟩
      rw [h2, List.takeWhile_cons_of_pos (by decide)]
      exact pos_pos _ _
    · obtain ⟨x, hx, heq⟩ := Option.map_eq_some_iff.1 h
      cases heq
      exact ⟨congrArg (c :: ·) (upTo_spec (s := x.1) (r := x.2) hx).1, pos_pos _ _⟩
    · cases h
      rw [h4]
      exact ⟨congrArg ('@' :: ·) List.takeWhile_append_dropWhile.symm, pos_pos _ _⟩
    · cases h
      exact ⟨rfl, pos_pos _ _⟩

/-- **Nothing is lost**: the pieces are the text. -/
theorem Cuts.text_eq {t r : Text} {ps : List Piece} (h : Cuts t ps r) : t = ps.flatMap Piece.text ++ r := by
  induction h with
  | nil => rfl
  | snoc _ hnext ih =>
    rw [ih, (nextPiece_spec hnext).1]
    simp

/-! ## Closing brackets -/

def Mode.depth : Mode → Nat
  | .code d => d
  | .str d => d
  | .esc d => d
  | .comment d => d

theorem Mode.next_inside {m m' : Mode} {k : Kind} (hm : 0 < m.depth) (h : m.next k = some m') :
    m' = .code 0 ∧ k = .closes ∨ m' ≠ .code 0 ∧ 0 < m'.depth := by
  have hcode : ∀ {d : Nat}, 0 < d → Mode.code d ≠ .code 0 := fun hd heq => by
    cases heq
    exact absurd hd (lt_irrefl 0)
  cases m with
  | code d =>
    obtain ⟨e, rfl⟩ := Nat.exists_eq_succ_of_ne_zero hm.ne'
    cases k with
    | closes =>
      cases h
      cases e with
      | zero => exact .inl ⟨rfl, rfl⟩
      | succ e => exact .inr ⟨hcode e.succ_pos, e.succ_pos⟩
    | quote => cases h; exact .inr ⟨nofun, hm⟩
    | semicolon => cases h; exact .inr ⟨nofun, hm⟩
    | opens => cases h; exact .inr ⟨hcode (Nat.succ_pos _), Nat.succ_pos _⟩
    | backslash => cases h; exact .inr ⟨hcode hm, hm⟩
    | newline => cases h; exact .inr ⟨hcode hm, hm⟩
    | other => cases h; exact .inr ⟨hcode hm, hm⟩
  | str d =>
    cases k with
    | quote => cases h; exact .inr ⟨hcode hm, hm⟩
    | _ => cases h; exact .inr ⟨nofun, hm⟩
  | esc d => cases h; exact .inr ⟨nofun, hm⟩
  | comment d =>
    cases k with
    | newline => cases h; exact .inr ⟨hcode hm, hm⟩
    | _ => cases h; exact .inr ⟨nofun, hm⟩

/-- What ends a group is a closing bracket. -/
theorem upTo_closes : ∀ {t s r : Text} {m : Mode}, 0 < m.depth → upTo m t = some (s, r) →
    ∃ w z, s = w ++ [z] ∧ kindOf z = .closes
  | [], _, _, _, _, h => by cases h
  | c :: t, s, r, m, hm, h => by
    rw [upTo] at h
    cases hnext : m.next (kindOf c) with
    | none => rw [hnext] at h; cases h
    | some m' =>
      rw [hnext] at h
      simp only at h
      rcases Mode.next_inside hm hnext with ⟨hzero, hkind⟩ | ⟨hne, hdepth⟩
      · rw [if_pos hzero] at h
        cases h
        exact ⟨[], c, rfl, hkind⟩
      · rw [if_neg hne] at h
        obtain ⟨x, hx, heq⟩ := Option.map_eq_some_iff.1 h
        cases heq
        obtain ⟨w, z, hw, hz⟩ := upTo_closes (s := x.1) (r := x.2) hdepth hx
        exact ⟨c :: w, z, by rw [hw]; rfl, hz⟩

theorem closes_iff {c : Char} : kindOf c = .closes ↔ c = ')' ∨ c = ']' := by
  constructor
  · intro h
    rw [kindOf] at h
    split at h
    · rename_i hascii
      by_contra hne
      rw [not_or, ← byte_inj (d := ')') hascii rfl, ← byte_inj (d := ']') hascii rfl, ← not_or] at hne
      rw [kindOfByte, if_neg hne] at h
      split_ifs at h
    · cases h
  · rintro (rfl | rfl) <;> rfl

/-- The `#` of a predicate is inside its group. -/
theorem hash_mem {t s r : Text} (hpred : isPredicate t = true) (h : upTo (.code 1) t = some (s, r)) : '#' ∈ s := by
  obtain ⟨w, z, rfl, hz⟩ := upTo_closes (m := .code 1) Nat.one_pos h
  have hwhite : isWhitespace z = false := by
    rcases closes_iff.1 hz with rfl | rfl <;> rfl
  have hhead : (t.dropWhile isWhitespace).head? = some '#' := of_decide_eq_true hpred
  obtain ⟨u, hu⟩ : ∃ u, t.dropWhile isWhitespace = '#' :: u := by
    cases hdrop : t.dropWhile isWhitespace with
    | nil => rw [hdrop] at hhead; cases hhead
    | cons c u =>
      rw [hdrop] at hhead
      cases hhead
      exact ⟨u, rfl⟩
  have hall : w ++ [z] ++ r = t.takeWhile isWhitespace ++ '#' :: u := by
    rw [← hu, List.takeWhile_append_dropWhile, (upTo_spec h).1]
  rcases List.append_eq_append_iff.1 hall with ⟨x, hx, -⟩ | ⟨x, hx, hrest⟩
  · have hmem : z ∈ t.takeWhile isWhitespace := by
      rw [hx]
      simp
    rw [List.mem_takeWhile_imp hmem] at hwhite
    cases hwhite
  · cases x with
    | nil =>
      have hmem : z ∈ t.takeWhile isWhitespace := by
        rw [List.append_nil] at hx
        rw [← hx]
        simp
      rw [List.mem_takeWhile_imp hmem] at hwhite
      cases hwhite
    | cons c x =>
      cases hrest
      rw [hx]
      simp

/-! ## A turn of the cut -/

/-- After a piece that is no predicate. -/
def CutState.take (s : CutState) (i : Nat) : Piece → CutState
  | .literal t => { s with i, root := s.root ++ t }
  | .comment _ => { s with i }
  | .group _ => s
  | .capture name =>
    { s with i, root := s.root ++ '@' :: name
             captures := if s.captures.contains name then s.captures else s.captures ++ [name] }
  | .plain c => { s with i, root := s.root ++ [c] }

/-- Nothing follows in this group. -/
def atEnd (r : Text) : Bool := r.head?.all fun c => c = ')' || c = ']'

/-- After a predicate. -/
def CutState.takePred (s : CutState) (i : Nat) (r : Text) (found : Pred) : CutState :=
  { s with i, root := if atEnd r then trimEnd s.root else trimEnd s.root ++ [' '], preds := s.preds ++ [found] }

section
variable {fuel base : Nat} {text a t r : Text} {s : CutState} {p : Piece}

theorem cutStep_end (hi : s.i = pos text) : cutStep fuel text base s = .ok (.done (s.root, s.captures, s.preds)) := by
  rw [cutStep, hi]
  simp only [no_byte]

/-- What a turn does with the next piece. -/
def cutTurn (fuel base : Nat) (a : Text) (s : CutState) (t : Text)
    (result : Run (Turn CutState (Text × List Text × List Pred))) : Prop :=
  match nextPiece t with
  | none => ∃ offset message, result = .error (.syntaxError offset message)
  | some (.group g, r) =>
    result = (pred fuel g (base + pos a)).map fun found => .next (s.takePred (pos (a ++ g)) r found)
  | some (p, _) => result = .ok (.next (s.take (pos (a ++ p.text)) p))

theorem head_byte (htext : text = a ++ t) :
    ((bytes text)[pos a]?.all fun b => b = byte ')' || b = byte ']') = atEnd t := by
  cases t with
  | nil =>
    rw [List.append_nil] at htext
    rw [htext, no_byte]
    rfl
  | cons c t =>
    obtain ⟨b, hget, hfirst⟩ := firstByte a c t htext
    rw [hget, atEnd]
    simp only [List.head?_cons, Option.all_some, hfirst.eq_iff ')' rfl, hfirst.eq_iff ']' rfl]

variable (fuel base) in
theorem cutStep_at (htext : text = a ++ t) (hi : s.i = pos a) (ht : t ≠ []) (hfuel : pos text < fuel) :
    cutTurn fuel base a s t (cutStep fuel text base s) := by
  cases t with
  | nil => exact absurd rfl ht
  | cons c t =>
    obtain ⟨b, hget, hfirst⟩ := firstByte a c t htext
    rw [cutTurn, nextPiece, cutStep, hi]
    simp only [hget]
    by_cases hquote : c = '"'
    · subst hquote
      rw [if_pos rfl, if_pos ((hfirst.eq_iff '"' rfl).2 rfl), afterString_at htext hfuel]
      cases hend : upTo (.str 0) t with
      | none => exact ⟨_, _, rfl⟩
      | some y =>
        have hsplit : text = a ++ ('"' :: y.1 ++ y.2) := by
          rw [htext, (upTo_spec (s := y.1) (r := y.2) hend).1]
          rfl
        simp only [Option.map_some, bind, Except.bind]
        rw [slice_at hsplit rfl rfl]
        rfl
    rw [if_neg hquote, if_neg (mt (hfirst.eq_iff '"' rfl).1 hquote)]
    by_cases hsemi : c = ';'
    · subst hsemi
      rw [if_pos rfl, if_pos ((hfirst.eq_iff ';' rfl).2 rfl), afterComment_at htext]
      rfl
    rw [if_neg hsemi, if_neg (mt (hfirst.eq_iff ';' rfl).1 hsemi)]
    have hopens : opensPred text (pos a) b = .ok (c = '(' && isPredicate t) := by
      rw [opensPred]
      by_cases hparen : c = '('
      · subst hparen
        rw [if_pos ((hfirst.eq_iff '(' rfl).2 rfl),
          sliceFrom_at (a := a ++ ['(']) (t := t) (by rw [htext]; simp) (pos_singleton rfl a).symm]
        rfl
      · rw [if_neg (mt (hfirst.eq_iff '(' rfl).1 hparen)]
        simp [hparen]
    rw [hopens]
    simp only [bind, Except.bind]
    by_cases hpred : (c = '(' && isPredicate t) = true
    · rw [if_pos hpred, if_pos hpred]
      obtain ⟨hc, hpred⟩ := (Bool.and_eq_true _ _).mp hpred
      obtain rfl := of_decide_eq_true hc
      have hgroup := afterGroup_at base (o := '(') rfl htext hfuel
      cases hend : upTo (.code 1) t with
      | none =>
        rw [hend] at hgroup
        obtain ⟨offset, message, herror⟩ := hgroup
        rw [herror]
        exact ⟨offset, message, rfl⟩
      | some y =>
        rw [hend] at hgroup
        have hsplit : text = a ++ ('(' :: y.1 ++ y.2) := by
          rw [htext, (upTo_spec (s := y.1) (r := y.2) hend).1]
          rfl
        simp only at hgroup
        rw [hgroup]
        simp only
        rw [slice_at hsplit rfl rfl]
        simp only [Option.map_some]
        rw [head_byte (by rw [hsplit, ← List.append_assoc])]
        cases pred fuel ('(' :: y.1) (base + pos a) with
        | error e => rfl
        | ok found => rfl
    rw [if_neg hpred, if_neg hpred]
    by_cases hat : c = '@'
    · subst hat
      have hwhole : text = a ++ ['@'] ++ (t ++ []) := by
        rw [htext]
        simp
      have hrest : text = a ++ ['@'] ++ (t.takeWhile nameC ++ t.dropWhile nameC) := by
        rw [List.takeWhile_append_dropWhile, htext]
        simp
      have hend : (bytes text).length = pos (a ++ ['@'] ++ t) := by
        rw [hwhole, List.append_nil]
      rw [if_pos rfl, if_pos ((hfirst.eq_iff '@' rfl).2 rfl), ← pos_singleton (c := '@') rfl, skipName_at hwhole hend,
        slice_at hrest rfl rfl, List.append_assoc]
      rfl
    rw [if_neg hat, if_neg (mt (hfirst.eq_iff '@' rfl).1 hat), sliceFrom_at htext rfl]
    have hplace : pos a + c.utf8Size = pos (a ++ [c]) := by
      rw [pos_append, pos, pos, bytes_cons, List.length_append, length_encode]
      rfl
    simp only [hplace]
    rfl

end

/-! ## What the cut keeps -/

/-- A piece of the root as it is put down. -/
def Piece.Whole : Piece → Prop
  | .literal t => ∃ s, t = '"' :: s ∧ upTo (.str 0) s = some (s, [])
  | .capture name => ∀ c ∈ name, nameC c = true
  | .plain c => c ≠ '"' ∧ c ≠ ';'
  | _ => False

/-- White space outside strings. -/
def Piece.blank : Piece → Bool
  | .plain c => isWhitespace c
  | _ => false

def Piece.group? : Piece → Option Text
  | .group t => some t
  | _ => none

/-- The pieces of a level against the pieces of its root. -/
inductive Kept : List Piece → List Piece → Prop
  | nil : Kept [] []
  | comment {ps qs : List Piece} (t : Text) : Kept ps qs → Kept (ps ++ [.comment t]) qs
  | group {ps qs blanks : List Piece} (t : Text) (space : Bool) : Kept ps (qs ++ blanks) →
      (∀ q ∈ blanks, q.blank = true) → Kept (ps ++ [.group t]) (qs ++ if space then [.plain ' '] else [])
  | keep {ps qs : List Piece} {p : Piece} : Kept ps qs → p.Whole → Kept (ps ++ [p]) (qs ++ [p])

/-- A piece of the root that is not white space. -/
def Piece.solid (p : Piece) : Bool :=
  match p with
  | .comment _ | .group _ => false
  | _ => !p.blank

theorem Kept.whole {ps qs : List Piece} (h : Kept ps qs) : ∀ q ∈ qs, q.Whole := by
  induction h with
  | nil => exact nofun
  | comment _ _ ih => exact ih
  | group _ space _ _ ih =>
    intro q hq
    rcases List.mem_append.1 hq with hq | hq
    · exact ih q (List.mem_append_left _ hq)
    · cases space with
      | false => cases hq
      | true =>
        cases List.mem_singleton.1 hq
        exact ⟨by decide, by decide⟩
  | keep _ hwhole ih =>
    intro q hq
    rcases List.mem_append.1 hq with hq | hq
    · exact ih q hq
    · rw [List.mem_singleton.1 hq]
      exact hwhole

theorem solid_blank {p : Piece} (h : p.blank = true) : p.solid = false := by
  cases p <;> simp_all [Piece.solid, Piece.blank]

theorem Kept.solid {ps qs : List Piece} (h : Kept ps qs) : qs.filter Piece.solid = ps.filter Piece.solid := by
  induction h with
  | nil => rfl
  | comment t _ ih =>
    rw [List.filter_append, ih]
    exact (List.append_nil _).symm
  | group t space _ hblank ih =>
    rw [List.filter_append, List.filter_append, ← ih, List.filter_append]
    have hnone : ∀ {xs : List Piece}, (∀ q ∈ xs, q.blank = true) → xs.filter Piece.solid = [] := fun hxs =>
      List.filter_eq_nil_iff.2 fun q hq => by rw [solid_blank (hxs q hq)]; exact Bool.false_ne_true
    rw [hnone hblank, List.append_nil]
    cases space with
    | false => rfl
    | true =>
      have hspace : List.filter Piece.solid [.plain ' '] = [] := by decide
      rw [if_pos rfl, hspace]
      rfl
  | keep _ _ ih => rw [List.filter_append, List.filter_append, ih]

/-- Without a predicate nothing but the comments goes. -/
theorem Kept.unfiltered {ps qs : List Piece} (h : Kept ps qs) (hnone : ps.filterMap Piece.group? = []) :
    qs = ps.filter fun p => !(p matches .comment _) := by
  induction h with
  | nil => rfl
  | comment t _ ih =>
    rw [List.filterMap_append, List.append_eq_nil_iff] at hnone
    rw [List.filter_append, ih hnone.1]
    exact (List.append_nil _).symm
  | group t _ _ _ _ =>
    rw [List.filterMap_append, List.append_eq_nil_iff] at hnone
    cases hnone.2
  | @keep ps qs p _ hwhole ih =>
    rw [List.filterMap_append, List.append_eq_nil_iff] at hnone
    rw [List.filter_append, ih hnone.1]
    cases p with
    | comment t => exact hwhole.elim
    | _ => rfl

theorem upTo_append : ∀ {s r : Text} {m : Mode}, upTo m (s ++ r) = some (s, r) → ∀ r', upTo m (s ++ r') = some (s, r')
  | [], r, m, h, r' => by
    cases r with
    | nil => cases h
    | cons c r =>
      rw [List.nil_append, upTo] at h
      split at h
      · cases h
      · split_ifs at h
        · cases h
        · obtain ⟨x, -, heq⟩ := Option.map_eq_some_iff.1 h
          cases heq
  | c :: s, r, m, h, r' => by
    rw [List.cons_append, upTo] at h ⊢
    split at h
    · cases h
    · rename_i m' hnext
      by_cases hzero : m' = .code 0
      · rw [if_pos hzero] at h ⊢
        simp only [Option.some.injEq, Prod.mk.injEq, List.cons.injEq, true_and] at h ⊢
        obtain ⟨rfl, -⟩ := h
        exact ⟨rfl, rfl⟩
      · rw [if_neg hzero] at h ⊢
        obtain ⟨x, hx, heq⟩ := Option.map_eq_some_iff.1 h
        cases heq
        rw [upTo_append (s := x.1) (r := x.2) hx r']
        rfl

theorem upTo_self {t s r : Text} {m : Mode} (h : upTo m t = some (s, r)) : upTo m s = some (s, []) := by
  have happend := upTo_append (s := s) (r := r) (by rw [← (upTo_spec h).1, h]) []
  rwa [List.append_nil] at happend

theorem nextPiece_whole {t r : Text} {p : Piece} (h : nextPiece t = some (p, r)) :
    (∃ s, p = .comment s) ∨ (∃ s, p = .group s) ∨ p.Whole := by
  cases t with
  | nil => cases h
  | cons c t =>
    rw [nextPiece] at h
    split_ifs at h with h1 h2 h3 h4
    · obtain ⟨x, hx, heq⟩ := Option.map_eq_some_iff.1 h
      cases heq
      exact .inr (.inr ⟨x.1, by rw [h1], upTo_self (s := x.1) (r := x.2) hx⟩)
    · cases h
      exact .inl ⟨_, rfl⟩
    · obtain ⟨x, hx, heq⟩ := Option.map_eq_some_iff.1 h
      cases heq
      exact .inr (.inl ⟨_, rfl⟩)
    · cases h
      exact .inr (.inr fun c hc => List.mem_takeWhile_imp hc)
    · cases h
      exact .inr (.inr ⟨h1, h2⟩)

theorem name_solid {c : Char} (h : nameC c = true) : isWhitespace c = false := by
  have hbounds := name_bounds h
  simp only [isWhitespace, Bool.or_eq_false_iff, Bool.and_eq_false_iff, decide_eq_false_iff_not]
  omega

/-- A piece of the root is white space or does not end in any. -/
theorem Piece.Whole.ends {p : Piece} (h : p.Whole) :
    p.blank = true ∨ ∃ w z, p.text = w ++ [z] ∧ isWhitespace z = false := by
  cases p with
  | literal t =>
    obtain ⟨s, rfl, hs⟩ := h
    obtain ⟨w, rfl⟩ := upTo_quoted false hs
    exact .inr ⟨'"' :: w, '"', rfl, by decide⟩
  | comment t => exact h.elim
  | group t => exact h.elim
  | capture name =>
    refine .inr ?_
    rcases List.eq_nil_or_concat name with rfl | ⟨w, z, rfl⟩
    · exact ⟨[], '@', rfl, by decide⟩
    · refine ⟨'@' :: w, z, by simp [Piece.text], ?_⟩
      have hz : nameC z = true := h z (by simp)
      exact name_solid hz
  | plain c =>
    cases hc : isWhitespace c with
    | true => exact .inl hc
    | false => exact .inr ⟨[], c, rfl, hc⟩

/-- The white space at the end of a root is that of its last pieces. -/
theorem trimEnd_pieces {qs : List Piece} (h : ∀ q ∈ qs, q.Whole) :
    ∃ rest blanks, qs = rest ++ blanks ∧ (∀ q ∈ blanks, q.blank = true) ∧
      trimEnd (qs.flatMap Piece.text) = rest.flatMap Piece.text := by
  induction qs using List.reverseRecOn with
  | nil => exact ⟨[], [], rfl, nofun, rfl⟩
  | append_singleton qs p ih =>
    rcases (h p (by simp)).ends with hblank | ⟨w, z, htext, hz⟩
    · obtain ⟨rest, blanks, rfl, hblanks, htrim⟩ := ih fun q hq => h q (List.mem_append_left _ hq)
      refine ⟨rest, blanks ++ [p], List.append_assoc _ _ _, ?_, ?_⟩
      · intro q hq
        rcases List.mem_append.1 hq with hq | hq
        · exact hblanks q hq
        · rw [List.mem_singleton.1 hq]
          exact hblank
      · cases p with
        | plain c =>
          rw [← htrim, List.flatMap_append]
          exact List.rdropWhile_concat_pos _ _ _ hblank
        | _ => cases hblank
    · refine ⟨qs ++ [p], [], (List.append_nil _).symm, nofun, ?_⟩
      have hend : (qs ++ [p]).flatMap Piece.text = qs.flatMap Piece.text ++ w ++ [z] := by
        rw [List.flatMap_append, List.flatMap_singleton, htext, List.append_assoc]
      rw [hend]
      exact List.rdropWhile_concat_neg _ _ _ (by rw [hz]; exact Bool.false_ne_true)

/-! ## The whole cut -/

/-- What the cut has come to at a place. -/
structure CutAt (text : Text) (s : CutState) (a t : Text) (ps qs : List Piece) : Prop where
  text_eq  : text = a ++ t
  place    : s.i = pos a
  read     : Cuts text ps t
  kept     : Kept ps qs
  root_eq  : s.root = qs.flatMap Piece.text
  preds_eq : s.preds.map Pred.text = ps.filterMap Piece.group?

theorem CutAt.take {text a t r : Text} {s : CutState} {ps qs : List Piece} {p : Piece} (h : CutAt text s a t ps qs)
    (hnext : nextPiece t = some (p, r)) (hgroup : p.group? = none) :
    ∃ qs', CutAt text (s.take (pos (a ++ p.text)) p) (a ++ p.text) r (ps ++ [p]) qs' := by
  have htext : text = a ++ p.text ++ r := by rw [h.text_eq, (nextPiece_spec hnext).1, List.append_assoc]
  have hpreds : s.preds.map Pred.text = (ps ++ [p]).filterMap Piece.group? := by
    rw [List.filterMap_append, h.preds_eq, List.filterMap_cons_none hgroup]
    exact (List.append_nil _).symm
  have hroot : s.root ++ p.text = (qs ++ [p]).flatMap Piece.text := by
    rw [List.flatMap_append, List.flatMap_singleton, h.root_eq]
  rcases nextPiece_whole hnext with ⟨t, rfl⟩ | ⟨t, rfl⟩ | hwhole
  · exact ⟨qs, htext, rfl, h.read.snoc hnext, h.kept.comment t, h.root_eq, hpreds⟩
  · cases hgroup
  · refine ⟨qs ++ [p], htext, ?_, h.read.snoc hnext, h.kept.keep hwhole, ?_, ?_⟩
    · cases p with
      | group t => cases hgroup
      | _ => rfl
    · rw [← hroot]
      cases p with
      | comment t => exact hwhole.elim
      | group t => cases hgroup
      | _ => rfl
    · rw [← hpreds]
      cases p with
      | group t => cases hgroup
      | _ => rfl

theorem CutAt.takePred {text a t r g : Text} {s : CutState} {ps qs : List Piece} {found : Pred}
    (h : CutAt text s a t ps qs) (hnext : nextPiece t = some (.group g, r)) (hfound : found.text = g) :
    ∃ qs', CutAt text (s.takePred (pos (a ++ g)) r found) (a ++ g) r (ps ++ [.group g]) qs' := by
  obtain ⟨rest, blanks, rfl, hblanks, htrim⟩ := trimEnd_pieces h.kept.whole
  refine ⟨rest ++ if !atEnd r then [.plain ' '] else [], ?_, rfl, h.read.snoc hnext,
    h.kept.group g (!atEnd r) hblanks, ?_, ?_⟩
  · rw [h.text_eq, (nextPiece_spec hnext).1, List.append_assoc]
    rfl
  · rw [← h.root_eq] at htrim
    rw [CutState.takePred, List.flatMap_append, htrim]
    cases atEnd r with
    | true => exact (List.append_nil _).symm
    | false => rfl
  · rw [CutState.takePred, List.map_append, h.preds_eq, List.filterMap_append]
    simp [Piece.group?, hfound]

/-- What `cut` ends with. -/
structure CutKeeps (text root : Text) (preds : List Pred) (ps qs : List Piece) : Prop where
  read     : Cuts text ps []
  kept     : Kept ps qs
  root_eq  : root = qs.flatMap Piece.text
  preds_eq : preds.map Pred.text = ps.filterMap Piece.group?

def CutEnds (text : Text) (r : Run (Text × List Text × List Pred)) : Prop :=
  Ends r ∧ ∀ root captures preds, r = .ok (root, captures, preds) → ∃ ps qs, CutKeeps text root preds ps qs

/-- A predicate's text is a group with a `#` in it. -/
theorem group_pred {fuel : Nat} (base : Nat) {text a t r g : Text} (htext : text = a ++ t) (hfuel : pos text < fuel)
    (hnext : nextPiece t = some (.group g, r)) :
    Ends (pred fuel g base) ∧ ∀ found, pred fuel g base = .ok found → found.text = g ∧ found.offset = base := by
  have hlen : pos g < fuel := by
    rw [htext, (nextPiece_spec hnext).1, Piece.text, pos_append, pos_append] at hfuel
    omega
  cases t with
  | nil => cases hnext
  | cons c t =>
    rw [nextPiece] at hnext
    split_ifs at hnext with h1 h2 h3 h4
    · obtain ⟨x, -, heq⟩ := Option.map_eq_some_iff.1 hnext
      cases heq
    · cases hnext
    · obtain ⟨x, hx, heq⟩ := Option.map_eq_some_iff.1 hnext
      cases heq
      rw [Bool.and_eq_true] at h3
      obtain ⟨w, z, hw, hz⟩ := upTo_closes (s := x.1) (r := x.2) (m := .code 1) Nat.one_pos hx
      have hascii : isAscii z = true := by
        rcases closes_iff.1 hz with rfl | rfl <;> rfl
      exact pred_ends (x := c :: w) hascii (by rw [hw]; rfl)
        (List.mem_cons_of_mem _ (hash_mem (s := x.1) (r := x.2) h3.2 hx)) hlen
    · cases hnext
    · cases hnext

/-- **The cut ends on every text**, and what it returns are the pieces of the text: the predicates in their order and
the rest of them in theirs. -/
theorem cut_spec {fuel : Nat} (base : Nat) {text : Text} (hfuel : pos text < fuel) :
    CutEnds text (cut fuel text base) := by
  refine loop_rule (I := fun s => ∃ a t ps qs, CutAt text s a t ps qs) (R := fun _ r => CutEnds text r)
    (fun s => pos text - s.i) (fun s hs => ?_) ?_ (lt_of_le_of_lt (Nat.sub_le _ _) hfuel)
  · obtain ⟨a, t, ps, qs, hat⟩ := hs
    by_cases ht : t = []
    · subst ht
      rw [cutStep_end (by rw [hat.place, hat.text_eq, List.append_nil])]
      refine ⟨ends_ok _, fun root captures preds heq => ?_⟩
      cases heq
      exact ⟨ps, qs, hat.read, hat.kept, hat.root_eq, hat.preds_eq⟩
    have hturn := cutStep_at fuel base hat.text_eq hat.place ht hfuel
    rw [cutTurn] at hturn
    have hfurther : ∀ {p : Piece} {r : Text} {s' : CutState}, nextPiece t = some (p, r) → s'.i = pos (a ++ p.text) →
        pos text - s'.i < pos text - s.i := by
      intro p r s' hnext hs'
      obtain ⟨hsplit, hpos⟩ := nextPiece_spec hnext
      rw [hs', hat.place, hat.text_eq, hsplit]
      simp only [pos_append]
      omega
    have hfail : ∀ offset message, CutEnds text (.error (.syntaxError offset message)) := fun offset message =>
      ⟨ends_fail offset message, fun root captures preds heq => by cases heq⟩
    cases hnext : nextPiece t with
    | none =>
      rw [hnext] at hturn
      obtain ⟨offset, message, herror⟩ := hturn
      rw [herror]
      exact hfail offset message
    | some x =>
      obtain ⟨p, r⟩ := x
      rw [hnext] at hturn
      have htake : p.group? = none → cutStep fuel text base s = .ok (.next (s.take (pos (a ++ p.text)) p)) →
          Fine (fun s => ∃ a t ps qs, CutAt text s a t ps qs) (fun s => pos text - s.i) (fun _ r => CutEnds text r) s
            (cutStep fuel text base s) := by
        intro hgroup hstep
        rw [hstep]
        obtain ⟨qs', hat'⟩ := hat.take hnext hgroup
        exact ⟨⟨_, _, _, qs', hat'⟩, hfurther hnext hat'.place, fun r hr => hr⟩
      cases p with
      | group g =>
        obtain ⟨hends, hfound⟩ := group_pred (base + pos a) hat.text_eq hfuel hnext
        simp only at hturn
        rw [hturn]
        cases hpred : pred fuel g (base + pos a) with
        | error stop =>
          obtain ⟨offset, message, rfl⟩ := hends stop hpred
          exact hfail offset message
        | ok found =>
          obtain ⟨qs', hat'⟩ := hat.takePred hnext (hfound found hpred).1
          exact ⟨⟨_, _, _, qs', hat'⟩, hfurther hnext hat'.place, fun r hr => hr⟩
      | literal t => exact htake rfl hturn
      | comment t => exact htake rfl hturn
      | capture name => exact htake rfl hturn
      | plain c => exact htake rfl hturn
  · exact ⟨[], text, [], [], rfl, rfl, .nil, .nil, rfl, rfl⟩

end HafleyScm.Parens
