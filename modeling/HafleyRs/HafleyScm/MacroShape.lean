import HafleyRs.HafleyScm.MacroExpansion

/-!
# What the shape of a call says

A shape is the text of a stream with some of its words replaced: every identifier that is neither a literal token of a
matcher nor one of `keywords`, and every literal that is no literal token. `shape_inj`: streams of one shape are alike
but for such words (`Joined`), where the lexer keeps words and marks apart as the language does (`Lexicon`, `Written`).
-/

namespace HafleyScm.Expansion

/-! ## Streams that are alike -/

/-- Token by token the same, but for identifiers and literals that are joined. -/
inductive Alike (ident literal : Text → Text → Prop) : List TokenTree → List TokenTree → Prop
  | nil : Alike ident literal [] []
  | group (delimiter : Delimiter) {s s' ts ts' : List TokenTree} (inner : Alike ident literal s s')
      (rest : Alike ident literal ts ts') :
      Alike ident literal (.group delimiter s :: ts) (.group delimiter s' :: ts')
  | ident {v v' : Text} {ts ts' : List TokenTree} (here : ident v v') (rest : Alike ident literal ts ts') :
      Alike ident literal (.ident v :: ts) (.ident v' :: ts')
  | literal {v v' : Text} {ts ts' : List TokenTree} (here : literal v v') (rest : Alike ident literal ts ts') :
      Alike ident literal (.literal v :: ts) (.literal v' :: ts')
  | punct (char : Byte) (joint : Bool) {ts ts' : List TokenTree} (rest : Alike ident literal ts ts') :
      Alike ident literal (.punct char joint :: ts) (.punct char joint :: ts')

/-- The same word, or two that the shape forgets. -/
def Joined (forgotten : Text → Prop) (v v' : Text) : Prop := v = v' ∨ forgotten v ∧ forgotten v'

def ForgottenIdent (literals : List Text) (v : Text) : Prop := ¬ (v ∈ literals ∨ v ∈ keywords)
def ForgottenLiteral (literals : List Text) (v : Text) : Prop := v ∉ literals

/-! ## Words and marks -/

def quote : Byte := 39
def plus : Byte := 43
def operators : Text := ascii "~!@#$%^&*-=+|;:,<.>/?"
def closers : Text := ascii ")]\x7d"
def delimiters : Text := ascii "([\x7b" ++ closers

/-- Identifiers and literals as a lexer of the language cuts them: none goes on behind a `;`, none starts with a mark,
an identifier is no literal, and a character literal of a `+` ends behind it. -/
structure Lexicon (I L : Text → Prop) : Prop where
  closed : ∀ v v' rest, I v ∨ L v → I v' ∨ L v' → v' ≠ v ++ semicolon :: rest
  apart  : ∀ v, I v → ¬ L v
  head   : ∀ v, I v ∨ L v → ∃ b rest, v = b :: rest ∧ b ∉ operators ∧ b ∉ delimiters
  ident  : ∀ v rest, I v → v ≠ quote :: rest
  quoted : ∀ v rest, L v → v = quote :: plus :: rest → ∃ rest', rest = quote :: rest'

/-- A stream of these words: groups have delimiters that were written, and a `'` stands before the name of a lifetime.
-/
inductive Written (I L : Text → Prop) : List TokenTree → Prop
  | nil : Written I L []
  | group {delimiter : Delimiter} {s ts : List TokenTree} (h : delimiter ≠ .none) (inner : Written I L s)
      (rest : Written I L ts) : Written I L (.group delimiter s :: ts)
  | ident {v : Text} {ts : List TokenTree} (h : I v) (rest : Written I L ts) : Written I L (.ident v :: ts)
  | literal {v : Text} {ts : List TokenTree} (h : L v) (rest : Written I L ts) : Written I L (.literal v :: ts)
  | punct {char : Byte} {joint : Bool} {ts : List TokenTree} (h : char ∈ operators) (rest : Written I L ts) :
      Written I L (.punct char joint :: ts)
  | lifetime {v : Text} {ts : List TokenTree} (h : I v) (rest : Written I L ts) :
      Written I L (.punct quote true :: .ident v :: ts)

/-- The end of a stream: that of the text, or a delimiter. -/
def Ends (s : Text) : Prop := s = [] ∨ ∃ b rest, s = b :: rest ∧ b ∈ closers

/-! ## The first token of a shape -/

/-- Behind a `<`: a word that is left out, or the mark. -/
def leadLess : Text → Nat
  | 105 :: _ => 4
  | 108 :: _ => 5
  | _ => 7

/-- Behind a `'`: a character literal, or a lifetime. -/
def leadQuote : Text → Nat
  | 43 :: b :: _ => if b = quote then 6 else 8
  | _ => 6

/-- Which token a shape starts with, by its first bytes. -/
def lead : Text → Nat
  | [] => 0
  | b :: rest =>
    if b ∈ closers then 0
    else if b = 40 then 1
    else if b = 123 then 2
    else if b = 91 then 3
    else if b = 60 then leadLess rest
    else if b = quote then leadQuote rest
    else if b ∈ operators then 7
    else 6

/-- The same for a stream. -/
def leadOf (literals : List Text) : List TokenTree → Nat
  | [] => 0
  | .group .parenthesis _ :: _ => 1
  | .group .brace _ :: _ => 2
  | .group .bracket _ :: _ => 3
  | .group .none _ :: _ => 9
  | .ident v :: _ => if v ∈ literals ∨ v ∈ keywords then 6 else 4
  | .literal v :: _ => if v ∈ literals then 6 else 5
  | .punct char _ :: _ => if char = quote then 8 else 7

section
variable {I L : Text → Prop} {literals : List Text}

theorem lead_ends {s : Text} (h : Ends s) : lead s = 0 := by
  rcases h with rfl | ⟨b, rest, rfl, hb⟩
  · rfl
  · exact if_pos hb

theorem lead_word (hlex : Lexicon I L) {v : Text} (hv : I v ∨ L v) (rest : Text) :
    lead (v ++ semicolon :: rest) = 6 := by
  obtain ⟨b, tail, rfl, hoperator, hdelimiter⟩ := hlex.head v hv
  have hcloser : b ∉ closers := fun hmem => hdelimiter (List.mem_append_right _ hmem)
  have hopen : b ≠ 40 ∧ b ≠ 123 ∧ b ≠ 91 := by
    refine ⟨?_, ?_, ?_⟩ <;> rintro rfl <;> exact hdelimiter (by decide)
  have hless : b ≠ 60 := by
    rintro rfl
    exact hoperator (by decide)
  rw [List.cons_append, lead, if_neg hcloser, if_neg hopen.1, if_neg hopen.2.1, if_neg hopen.2.2, if_neg hless]
  by_cases hquote : b = quote
  · subst hquote
    have hliteral : L (quote :: tail) := hv.resolve_left fun hident => hlex.ident _ tail hident rfl
    rw [if_pos rfl]
    match tail, hliteral with
    | [], _ => rfl
    | b' :: tail', hliteral =>
      by_cases hplus : b' = plus
      · subst hplus
        obtain ⟨tail'', rfl⟩ := hlex.quoted _ tail' hliteral rfl
        rfl
      · rw [List.cons_append, leadQuote]
        intro b'' tail'' heq
        exact hplus (List.cons.inj heq).1
  · rw [if_neg hquote, if_neg hoperator]

theorem lead_operator {char : Byte} (h : char ∈ operators) (joint : Bool) (rest : Text) :
    lead ([char] ++ ascii (if joint then "+" else " ") ++ rest) = 7 := by
  have hmark : ∀ c ∈ operators, c ∉ closers ∧ c ≠ 40 ∧ c ≠ 123 ∧ c ≠ 91 ∧ c ≠ quote := by
    decide +kernel
  obtain ⟨hcloser, hparen, hbrace, hbracket, hquote⟩ := hmark char h
  rw [List.append_assoc, List.singleton_append, lead, if_neg hcloser, if_neg hparen, if_neg hbrace, if_neg hbracket]
  by_cases hless : char = 60
  · rw [if_pos hless]
    cases joint <;> rfl
  · rw [if_neg hless, if_neg hquote, if_pos h]

/-! ## One token -/

theorem word_inj (hlex : Lexicon I L) {v v' x x' : Text} (hv : I v ∨ L v) (hv' : I v' ∨ L v')
    (h : v ++ semicolon :: x = v' ++ semicolon :: x') : v = v' ∧ x = x' := by
  rcases List.append_eq_append_iff.1 h with ⟨a, ha, hrest⟩ | ⟨a, ha, hrest⟩
  · cases a with
    | nil =>
      rw [List.append_nil] at ha
      exact ⟨ha.symm, (List.cons.inj hrest).2⟩
    | cons b a =>
      rw [← (List.cons.inj hrest).1] at ha
      exact absurd ha (hlex.closed v v' a hv hv')
  · cases a with
    | nil =>
      rw [List.append_nil] at ha
      exact ⟨ha, (List.cons.inj hrest).2.symm⟩
    | cons b a =>
      rw [← (List.cons.inj hrest).1] at ha
      exact absurd ha (hlex.closed v' v a hv' hv)

theorem lead_ident (hlex : Lexicon I L) {v : Text} (hv : I v) (x : Text) :
    lead (tokenShape literals (.ident v) ++ x) = if v ∈ literals ∨ v ∈ keywords then 6 else 4 := by
  rw [tokenShape, List.append_assoc]
  split_ifs
  · exact lead_word hlex (Or.inl hv) x
  · rfl

theorem lead_literal (hlex : Lexicon I L) {v : Text} (hv : L v) (x : Text) :
    lead (tokenShape literals (.literal v) ++ x) = if v ∈ literals then 6 else 5 := by
  rw [tokenShape, List.append_assoc]
  split_ifs
  · exact lead_word hlex (Or.inr hv) x
  · rfl

theorem ident_inj (hlex : Lexicon I L) {v v' x x' : Text} (hv : I v) (hv' : I v')
    (h : tokenShape literals (.ident v) ++ x = tokenShape literals (.ident v') ++ x') :
    Joined (ForgottenIdent literals) v v' ∧ x = x' := by
  have hlead := congrArg lead h
  rw [lead_ident hlex hv, lead_ident hlex hv'] at hlead
  by_cases hkept : v ∈ literals ∨ v ∈ keywords
  · have hkept' : v' ∈ literals ∨ v' ∈ keywords := by
      by_contra hnot
      rw [if_pos hkept, if_neg hnot] at hlead
      cases hlead
    rw [tokenShape, tokenShape, if_pos hkept, if_pos hkept', List.append_assoc, List.append_assoc] at h
    obtain ⟨rfl, rfl⟩ := word_inj hlex (Or.inl hv) (Or.inl hv') h
    exact ⟨Or.inl rfl, rfl⟩
  · have hkept' : ¬ (v' ∈ literals ∨ v' ∈ keywords) := by
      intro hin
      rw [if_neg hkept, if_pos hin] at hlead
      cases hlead
    rw [tokenShape, tokenShape, if_neg hkept, if_neg hkept'] at h
    exact ⟨Or.inr ⟨hkept, hkept'⟩, List.append_cancel_left h⟩

theorem literal_inj (hlex : Lexicon I L) {v v' x x' : Text} (hv : L v) (hv' : L v')
    (h : tokenShape literals (.literal v) ++ x = tokenShape literals (.literal v') ++ x') :
    Joined (ForgottenLiteral literals) v v' ∧ x = x' := by
  have hlead := congrArg lead h
  rw [lead_literal hlex hv, lead_literal hlex hv'] at hlead
  by_cases hkept : v ∈ literals
  · have hkept' : v' ∈ literals := by
      by_contra hnot
      rw [if_pos hkept, if_neg hnot] at hlead
      cases hlead
    rw [tokenShape, tokenShape, if_pos hkept, if_pos hkept', List.append_assoc, List.append_assoc] at h
    obtain ⟨rfl, rfl⟩ := word_inj hlex (Or.inr hv) (Or.inr hv') h
    exact ⟨Or.inl rfl, rfl⟩
  · have hkept' : v' ∉ literals := by
      intro hin
      rw [if_neg hkept, if_pos hin] at hlead
      cases hlead
    rw [tokenShape, tokenShape, if_neg hkept, if_neg hkept'] at h
    exact ⟨Or.inr ⟨hkept, hkept'⟩, List.append_cancel_left h⟩

/-- The shape of an identifier is never that of a literal. -/
theorem ident_ne_literal (hlex : Lexicon I L) {v v' x x' : Text} (hv : I v) (hv' : L v') :
    tokenShape literals (.ident v) ++ x ≠ tokenShape literals (.literal v') ++ x' := by
  intro h
  have hlead := congrArg lead h
  rw [lead_ident hlex hv, lead_literal hlex hv'] at hlead
  by_cases hkept : v ∈ literals ∨ v ∈ keywords <;> by_cases hkept' : v' ∈ literals
  · rw [tokenShape, tokenShape, if_pos hkept, if_pos hkept', List.append_assoc, List.append_assoc] at h
    obtain ⟨rfl, -⟩ := word_inj hlex (Or.inl hv) (Or.inr hv') h
    exact hlex.apart v hv hv'
  · rw [if_pos hkept, if_neg hkept'] at hlead
    cases hlead
  · rw [if_neg hkept, if_pos hkept'] at hlead
    cases hlead
  · rw [if_neg hkept, if_neg hkept'] at hlead
    cases hlead

/-! ## Streams -/

/-- A shape starts as its stream does. -/
theorem lead_shape (hlex : Lexicon I L) {ts : List TokenTree} (h : Written I L ts) {s : Text} (hs : Ends s) :
    lead (appendShape literals ts ++ s) = leadOf literals ts := by
  cases h with
  | nil => exact lead_ends hs
  | @group delimiter _ _ hwritten =>
    cases delimiter with
    | none => exact absurd rfl hwritten
    | _ => rfl
  | @ident v ts hv =>
    rw [appendShape, List.append_assoc]
    exact lead_ident hlex hv _
  | @literal v ts hv =>
    rw [appendShape, List.append_assoc]
    exact lead_literal hlex hv _
  | @punct char joint ts hchar =>
    have hne : char ≠ quote := fun heq => absurd (heq ▸ hchar) (by decide)
    rw [appendShape, tokenShape, leadOf, if_neg hne, List.append_assoc]
    exact lead_operator hchar joint _
  | @lifetime v ts hv =>
    rw [appendShape, appendShape, tokenShape, tokenShape]
    show lead (quote :: plus :: _) = 8
    split_ifs
    · obtain ⟨b, tail, rfl, -, -⟩ := hlex.head v (Or.inl hv)
      have hb : b ≠ quote := fun heq => hlex.ident _ tail hv (by rw [heq])
      show (if b = quote then 6 else 8) = 8
      rw [if_neg hb]
    · rfl

theorem ends_closing {delimiter : Delimiter} (h : delimiter ≠ .none) (x : Text) : Ends (closing delimiter ++ x) := by
  cases delimiter with
  | none => exact absurd rfl h
  | parenthesis => exact Or.inr ⟨41, x, rfl, by decide⟩
  | brace => exact Or.inr ⟨125, x, rfl, by decide⟩
  | bracket => exact Or.inr ⟨93, x, rfl, by decide⟩

theorem leadOf_group {delimiter : Delimiter} (h : delimiter ≠ .none) {s ts : List TokenTree} :
    1 ≤ leadOf literals (.group delimiter s :: ts) ∧ leadOf literals (.group delimiter s :: ts) ≤ 3 := by
  cases delimiter with
  | none => exact absurd rfl h
  | _ => simp [leadOf]

theorem leadOf_delimiter {delimiter delimiter' : Delimiter} {s s' ts ts' : List TokenTree}
    (h : leadOf literals (.group delimiter s :: ts) = leadOf literals (.group delimiter' s' :: ts')) :
    delimiter = delimiter' := by
  cases delimiter <;> cases delimiter' <;> first | rfl | cases h

theorem leadOf_ident {v : Text} {ts : List TokenTree} :
    leadOf literals (.ident v :: ts) = 4 ∨ leadOf literals (.ident v :: ts) = 6 := by
  rw [leadOf]
  split_ifs
  · exact Or.inr rfl
  · exact Or.inl rfl

theorem leadOf_literal {v : Text} {ts : List TokenTree} :
    leadOf literals (.literal v :: ts) = 5 ∨ leadOf literals (.literal v :: ts) = 6 := by
  rw [leadOf]
  split_ifs
  · exact Or.inr rfl
  · exact Or.inl rfl

theorem leadOf_operator {char : Byte} (h : char ∈ operators) {joint : Bool} {ts : List TokenTree} :
    leadOf literals (.punct char joint :: ts) = 7 :=
  if_neg fun heq => absurd (heq ▸ h) (by decide)

theorem leadOf_lifetime {ts : List TokenTree} : leadOf literals (.punct quote true :: ts) = 8 := rfl

/-- A stream by its first token. -/
theorem Written.cases {ts : List TokenTree} (h : Written I L ts) :
    (leadOf literals ts = 0 ∧ ts = []) ∨
    ((1 ≤ leadOf literals ts ∧ leadOf literals ts ≤ 3) ∧ ∃ delimiter s rest, ts = .group delimiter s :: rest ∧
      Written I L s ∧ Written I L rest) ∨
    ((leadOf literals ts = 4 ∨ leadOf literals ts = 6) ∧ ∃ v rest, ts = .ident v :: rest ∧ I v ∧ Written I L rest) ∨
    ((leadOf literals ts = 5 ∨ leadOf literals ts = 6) ∧ ∃ v rest, ts = .literal v :: rest ∧ L v ∧ Written I L rest) ∨
    (leadOf literals ts = 7 ∧ ∃ char joint rest, ts = .punct char joint :: rest ∧ Written I L rest) ∨
    (leadOf literals ts = 8 ∧ ∃ v rest, ts = .punct quote true :: .ident v :: rest ∧ I v ∧ Written I L rest) := by
  cases h with
  | nil => exact Or.inl ⟨rfl, rfl⟩
  | group hd inner rest => exact Or.inr (Or.inl ⟨leadOf_group hd, _, _, _, rfl, inner, rest⟩)
  | ident hv rest => exact Or.inr (Or.inr (Or.inl ⟨leadOf_ident, _, _, rfl, hv, rest⟩))
  | literal hv rest => exact Or.inr (Or.inr (Or.inr (Or.inl ⟨leadOf_literal, _, _, rfl, hv, rest⟩)))
  | punct hchar rest => exact Or.inr (Or.inr (Or.inr (Or.inr (Or.inl ⟨leadOf_operator hchar, _, _, _, rfl, rest⟩))))
  | lifetime hv rest => exact Or.inr (Or.inr (Or.inr (Or.inr (Or.inr ⟨leadOf_lifetime, _, _, rfl, hv, rest⟩))))

/-- What a stream starts with is told by its shape. -/
theorem leadOf_eq (hlex : Lexicon I L) {ts ts' : List TokenTree} (hts : Written I L ts) (hts' : Written I L ts')
    {s s' : Text} (hs : Ends s) (hs' : Ends s') (h : appendShape literals ts ++ s = appendShape literals ts' ++ s') :
    leadOf literals ts = leadOf literals ts' := by
  rw [← lead_shape hlex hts hs, ← lead_shape hlex hts' hs', h]

/-- **Streams of one shape** are alike but for words that the shape forgets. -/
theorem shape_inj (hlex : Lexicon I L) {ts ts' : List TokenTree} (hts : Written I L ts) (hts' : Written I L ts')
    {s s' : Text} (hs : Ends s) (hs' : Ends s') (h : appendShape literals ts ++ s = appendShape literals ts' ++ s') :
    Alike (Joined (ForgottenIdent literals)) (Joined (ForgottenLiteral literals)) ts ts' ∧ s = s' := by
  induction hts generalizing ts' s s' with
  | nil =>
    have hfirst := leadOf_eq hlex .nil hts' hs hs' h
    have hhere : leadOf literals [] = 0 := rfl
    rcases @Written.cases I L literals _ hts' with ⟨-, rfl⟩ | ⟨hn, -⟩ | ⟨hn, -⟩ | ⟨hn, -⟩ | ⟨hn, -⟩ | ⟨hn, -⟩
    · exact ⟨.nil, h⟩
    all_goals omega
  | @group delimiter inner rest hdelimiter hinner hrest ihInner ihRest =>
    have hfirst := leadOf_eq hlex (.group hdelimiter hinner hrest) hts' hs hs' h
    have hhere := @leadOf_group literals delimiter hdelimiter inner rest
    rcases @Written.cases I L literals _ hts' with ⟨hn, -⟩ | ⟨-, delimiter', inner', rest', rfl, hinner', hrest'⟩ |
      ⟨hn, -⟩ | ⟨hn, -⟩ | ⟨hn, -⟩ | ⟨hn, -⟩
    · omega
    · obtain rfl := leadOf_delimiter hfirst
      simp only [appendShape, tokenShape, List.append_assoc] at h
      obtain ⟨halike, hclosed⟩ := ihInner hinner' (ends_closing hdelimiter _) (ends_closing hdelimiter _)
        (List.append_cancel_left h)
      obtain ⟨halike', hend⟩ := ihRest hrest' hs hs' (List.append_cancel_left hclosed)
      exact ⟨.group delimiter halike halike', hend⟩
    all_goals omega
  | @ident v rest hv hrest ih =>
    have hfirst := leadOf_eq hlex (.ident hv hrest) hts' hs hs' h
    have hhere := @leadOf_ident literals v rest
    rcases @Written.cases I L literals _ hts' with ⟨hn, -⟩ | ⟨hn, -⟩ | ⟨-, v', rest', rfl, hv', hrest'⟩ |
      ⟨-, v', rest', rfl, hv', -⟩ | ⟨hn, -⟩ | ⟨hn, -⟩
    · omega
    · omega
    · rw [appendShape, appendShape, List.append_assoc, List.append_assoc] at h
      obtain ⟨hjoined, htail⟩ := ident_inj hlex hv hv' h
      obtain ⟨halike, hend⟩ := ih hrest' hs hs' htail
      exact ⟨.ident hjoined halike, hend⟩
    · rw [appendShape, appendShape, List.append_assoc, List.append_assoc] at h
      exact absurd h (ident_ne_literal hlex hv hv')
    all_goals omega
  | @literal v rest hv hrest ih =>
    have hfirst := leadOf_eq hlex (.literal hv hrest) hts' hs hs' h
    have hhere := @leadOf_literal literals v rest
    rcases @Written.cases I L literals _ hts' with ⟨hn, -⟩ | ⟨hn, -⟩ | ⟨-, v', rest', rfl, hv', -⟩ |
      ⟨-, v', rest', rfl, hv', hrest'⟩ | ⟨hn, -⟩ | ⟨hn, -⟩
    · omega
    · omega
    · rw [appendShape, appendShape, List.append_assoc, List.append_assoc] at h
      exact absurd h.symm (ident_ne_literal hlex hv' hv)
    · rw [appendShape, appendShape, List.append_assoc, List.append_assoc] at h
      obtain ⟨hjoined, htail⟩ := literal_inj hlex hv hv' h
      obtain ⟨halike, hend⟩ := ih hrest' hs hs' htail
      exact ⟨.literal hjoined halike, hend⟩
    all_goals omega
  | @punct char joint rest hchar hrest ih =>
    have hfirst := leadOf_eq hlex (.punct hchar hrest) hts' hs hs' h
    have hhere := @leadOf_operator literals char hchar joint rest
    rcases @Written.cases I L literals _ hts' with ⟨hn, -⟩ | ⟨hn, -⟩ | ⟨hn, -⟩ | ⟨hn, -⟩ |
      ⟨-, char', joint', rest', rfl, hrest'⟩ | ⟨hn, -⟩
    · omega
    · omega
    · omega
    · omega
    · simp only [appendShape, tokenShape, List.append_assoc, List.singleton_append] at h
      obtain ⟨rfl, hspacing⟩ := List.cons.inj h
      obtain ⟨rfl, htail⟩ : joint = joint' ∧ appendShape literals rest ++ s = appendShape literals rest' ++ s' := by
        cases joint <;> cases joint'
        · exact ⟨rfl, (List.cons.inj hspacing).2⟩
        · exact absurd (List.cons.inj hspacing).1 (by decide)
        · exact absurd (List.cons.inj hspacing).1 (by decide)
        · exact ⟨rfl, (List.cons.inj hspacing).2⟩
      obtain ⟨halike, hend⟩ := ih hrest' hs hs' htail
      exact ⟨.punct char joint halike, hend⟩
    · omega
  | @lifetime v rest hv hrest ih =>
    have hfirst := leadOf_eq hlex (.lifetime hv hrest) hts' hs hs' h
    have hhere := @leadOf_lifetime literals (.ident v :: rest)
    rcases @Written.cases I L literals _ hts' with ⟨hn, -⟩ | ⟨hn, -⟩ | ⟨hn, -⟩ | ⟨hn, -⟩ | ⟨hn, -⟩ |
      ⟨-, v', rest', rfl, hv', hrest'⟩
    · omega
    · omega
    · omega
    · omega
    · omega
    · rw [appendShape, appendShape, appendShape, appendShape, List.append_assoc, List.append_assoc, List.append_assoc,
        List.append_assoc] at h
      obtain ⟨hjoined, htail⟩ := ident_inj hlex hv hv' (List.append_cancel_left h)
      obtain ⟨halike, hend⟩ := ih hrest' hs hs' htail
      exact ⟨.punct quote true (.ident hjoined halike), hend⟩

end

/-! ## The forgotten words -/

mutual
def identsOf : List TokenTree → List Text
  | [] => []
  | token :: rest => tokenIdents token ++ identsOf rest
def tokenIdents : TokenTree → List Text
  | .group _ stream => identsOf stream
  | .ident value => [value]
  | _ => []
end

mutual
def literalsOf : List TokenTree → List Text
  | [] => []
  | token :: rest => tokenLiterals token ++ literalsOf rest
def tokenLiterals : TokenTree → List Text
  | .group _ stream => literalsOf stream
  | .literal value => [value]
  | _ => []
end

instance (literals : List Text) : DecidablePred (ForgottenIdent literals) :=
  fun v => inferInstanceAs (Decidable (¬ (v ∈ literals ∨ v ∈ keywords)))

instance (literals : List Text) : DecidablePred (ForgottenLiteral literals) :=
  fun v => inferInstanceAs (Decidable (v ∉ literals))

/-- The identifiers of a call that its shape does not name, in order. -/
def forgottenIdents (literals : List Text) (ts : List TokenTree) : List Text :=
  (identsOf ts).filter fun v => ForgottenIdent literals v

def forgottenLiterals (literals : List Text) (ts : List TokenTree) : List Text :=
  (literalsOf ts).filter fun v => ForgottenLiteral literals v

section
variable {P Q : Text → Prop} [DecidablePred P] [DecidablePred Q] {κ κ' : Type} {f : Text → κ} {g : Text → κ'}

theorem Joined.filter_length {v v' : Text} (h : Joined P v v') :
    ([v].filter fun v => P v).length = ([v'].filter fun v => P v).length := by
  rcases h with rfl | ⟨hv, hv'⟩
  · rfl
  · simp [hv, hv']

/-- A joined pair is seen alike if it is where both words are forgotten. -/
theorem Joined.eq_of_map {v v' : Text} (h : Joined P v v')
    (hmap : ([v].filter fun v => P v).map f = ([v'].filter fun v => P v).map f) : f v = f v' := by
  rcases h with rfl | ⟨hv, hv'⟩
  · rfl
  · simpa [hv, hv'] using hmap

theorem Alike.filter_length {ts ts' : List TokenTree} (h : Alike (Joined P) (Joined Q) ts ts') :
    ((identsOf ts).filter fun v => P v).length = ((identsOf ts').filter fun v => P v).length ∧
      ((literalsOf ts).filter fun v => Q v).length = ((literalsOf ts').filter fun v => Q v).length := by
  induction h with
  | nil => exact ⟨rfl, rfl⟩
  | group delimiter inner rest ihInner ihRest =>
    simp only [identsOf, tokenIdents, literalsOf, tokenLiterals, List.filter_append, List.length_append]
    rw [ihInner.1, ihInner.2, ihRest.1, ihRest.2]
    exact ⟨rfl, rfl⟩
  | ident here rest ih =>
    simp only [identsOf, tokenIdents, literalsOf, tokenLiterals, List.filter_append, List.length_append,
      List.nil_append]
    rw [here.filter_length, ih.1]
    exact ⟨rfl, ih.2⟩
  | literal here rest ih =>
    simp only [identsOf, tokenIdents, literalsOf, tokenLiterals, List.filter_append, List.length_append,
      List.nil_append]
    rw [here.filter_length, ih.2]
    exact ⟨ih.1, rfl⟩
  | punct char joint rest ih => exact ih

/-- Two stretches that are seen alike, the first of one length. -/
theorem map_append_inj {a a' b b' : List Text} (hlength : a.length = a'.length)
    (h : (a ++ b).map f = (a' ++ b').map f) : a.map f = a'.map f ∧ b.map f = b'.map f := by
  rw [List.map_append, List.map_append] at h
  exact List.append_inj h (by rw [List.length_map, List.length_map, hlength])

/-- **Streams that are alike but for joined words** are seen alike if those words are. -/
theorem Alike.of_forgotten {ts ts' : List TokenTree} (h : Alike (Joined P) (Joined Q) ts ts')
    (hidents : ((identsOf ts).filter fun v => P v).map f = ((identsOf ts').filter fun v => P v).map f)
    (hliterals : ((literalsOf ts).filter fun v => Q v).map g = ((literalsOf ts').filter fun v => Q v).map g) :
    Alike (fun v v' => f v = f v') (fun v v' => g v = g v') ts ts' := by
  induction h with
  | nil => exact .nil
  | group delimiter inner rest ihInner ihRest =>
    simp only [identsOf, tokenIdents, literalsOf, tokenLiterals, List.filter_append] at hidents hliterals
    obtain ⟨hidents, hidentsRest⟩ := map_append_inj inner.filter_length.1 hidents
    obtain ⟨hliterals, hliteralsRest⟩ := map_append_inj inner.filter_length.2 hliterals
    exact .group delimiter (ihInner hidents hliterals) (ihRest hidentsRest hliteralsRest)
  | ident here rest ih =>
    simp only [identsOf, tokenIdents, List.filter_append] at hidents
    obtain ⟨hword, hrest⟩ := map_append_inj here.filter_length hidents
    exact .ident (here.eq_of_map hword) (ih hrest hliterals)
  | literal here rest ih =>
    simp only [literalsOf, tokenLiterals, List.filter_append] at hliterals
    obtain ⟨hword, hrest⟩ := map_append_inj here.filter_length hliterals
    exact .literal (here.eq_of_map hword) (ih hidents hrest)
  | punct char joint rest ih => exact .punct char joint (ih hidents hliterals)

end

end HafleyScm.Expansion
