import HafleyRs.HafleyScm.MacroShape

/-!
# What a matcher sees of a call

A rule of `macro_rules!` matches a call token by token: a fragment `$name:kind` takes what it accepts, every other token
of the matcher only itself. So of an identifier it sees whether it is `_` and whether it is a token of the matcher, of a
literal the latter, and where a fragment is parsed (`expr`, `ty`, ..) how the parser classes the word (`Parsers`).

`matchTokens` is such a matcher, of rules whose fragments are identifiers, literals and token trees and that repeat
nothing; `matchTokens_alike`: it sees no more than that.
-/

namespace HafleyScm.Expansion

def underscore : Text := ascii "_"

/-! ## The words of a matcher -/

mutual
/-- The words that a matcher names. The state says what stands before: 1 a `$`, 2 the name behind it, 3 the `:` behind
    that. -/
def matcherWords (state : Nat) : List TokenTree → List Text
  | [] => []
  | .ident value :: rest =>
    if state = 1 then matcherWords 2 rest
    else if state = 3 then matcherWords 0 rest
    else value :: matcherWords 0 rest
  | .literal value :: rest => value :: matcherWords 0 rest
  | .group delimiter stream :: rest => groupWords (.group delimiter stream) ++ matcherWords 0 rest
  | .punct char _ :: rest =>
    matcherWords (if char = dollar then 1 else if char = colon ∧ state = 2 then 3 else 0) rest
def groupWords : TokenTree → List Text
  | .group _ stream => matcherWords 0 stream
  | _ => []
end

mutual
/-- **A word of a matcher** is one of its literal tokens, or the name of a fragment. -/
theorem mem_matcherLiterals {v : Text} : ∀ (ts : List TokenTree) {dollarBefore colonBefore : Bool} {state : Nat},
    (dollarBefore = true → state = 1) → v ∈ matcherWords state ts →
    v ∈ matcherLiterals dollarBefore colonBefore ts ∨ v ∈ fragments
  | [], _, _, _, _, h => (List.not_mem_nil h).elim
  | .ident value :: rest, dollarBefore, colonBefore, state, hdollar, h => by
    have hrest : ∀ {state' : Nat}, v ∈ matcherWords state' rest →
        v ∈ matcherLiterals dollarBefore colonBefore (.ident value :: rest) ∨ v ∈ fragments := fun hv =>
      (mem_matcherLiterals rest (fun hfalse : false = true => nomatch hfalse) hv).imp_left (List.mem_append_right _)
    rw [matcherWords] at h
    split_ifs at h with hname hkind
    · exact hrest h
    · exact hrest h
    · rcases List.mem_cons.1 h with rfl | h
      · have hnot : dollarBefore = false := by
          rw [← Bool.not_eq_true]
          exact fun htrue => hname (hdollar htrue)
        rw [matcherLiterals, hnot]
        by_cases hfragment : v ∈ fragments
        · exact Or.inr hfragment
        · refine Or.inl (List.mem_append_left _ ?_)
          simp [hfragment]
      · exact hrest h
  | .literal value :: rest, _, _, _, _, h => by
    rcases List.mem_cons.1 h with rfl | h
    · exact Or.inl (List.mem_cons_self ..)
    · exact (mem_matcherLiterals rest (fun hfalse : false = true => nomatch hfalse) h).imp_left (List.mem_cons_of_mem _)
  | .group delimiter stream :: rest, _, _, _, _, h => by
    rcases List.mem_append.1 h with h | h
    · exact (mem_groupLiterals (.group delimiter stream) h).imp_left (List.mem_append_left _)
    · exact (mem_matcherLiterals rest (fun hfalse : false = true => nomatch hfalse) h).imp_left
        (List.mem_append_right _)
  | .punct char joint :: rest, _, _, state, _, h => by
    rw [matcherWords] at h
    rw [matcherLiterals]
    refine mem_matcherLiterals rest (fun hdollar => ?_) h
    rw [if_pos (of_decide_eq_true hdollar)]
theorem mem_groupLiterals {v : Text} : ∀ t : TokenTree, v ∈ groupWords t → v ∈ groupLiterals t ∨ v ∈ fragments
  | .group _ stream, h => mem_matcherLiterals stream (fun hfalse : false = true => nomatch hfalse) h
  | .ident _, h => (List.not_mem_nil h).elim
  | .literal _, h => (List.not_mem_nil h).elim
  | .punct _ _, h => (List.not_mem_nil h).elim
end

/-! ## What is seen of a word -/

/-- How the parsers of the other fragments class identifiers and literals. -/
structure Parsers (κ : Type) where
  ident   : Text → κ
  literal : Text → κ

section
variable {κ : Type} (parsers : Parsers κ) (words : List Text)

def seenIdent (v : Text) : Bool × Option Text × κ :=
  (decide (v = underscore), if v ∈ words then some v else none, parsers.ident v)

def seenLiteral (v : Text) : Option Text × κ := (if v ∈ words then some v else none, parsers.literal v)

/-- Streams that a matcher with these words cannot tell apart. -/
def Indistinct (ts ts' : List TokenTree) : Prop :=
  Alike (fun v v' => seenIdent parsers words v = seenIdent parsers words v')
    (fun v v' => seenLiteral parsers words v = seenLiteral parsers words v') ts ts'

end

/-! ## A matcher -/

/-- What one fragment takes. -/
def accepts (kind : Text) : TokenTree → Bool
  | .ident v => kind = ascii "tt" || kind = ascii "ident" && decide (v ≠ underscore)
  | .literal _ => kind = ascii "tt" || kind = ascii "literal"
  | _ => kind = ascii "tt"

def isIdent (v : Text) : TokenTree → Bool
  | .ident v' => v = v'
  | _ => false

mutual
/-- Whether a matcher takes a stream, with the states of `matcherWords`. -/
def matchTokens (state : Nat) : List TokenTree → List TokenTree → Bool
  | [], ts => ts.isEmpty
  | .ident value :: rest, ts =>
    if state = 1 then matchTokens 2 rest ts
    else match ts with
      | [] => false
      | t :: ts => (if state = 3 then accepts value t else isIdent value t) && matchTokens 0 rest ts
  | .literal value :: rest, ts =>
    match ts with
    | .literal value' :: ts => decide (value = value') && matchTokens 0 rest ts
    | _ => false
  | .group delimiter pattern :: rest, ts =>
    match ts with
    | .group delimiter' stream :: ts =>
      decide (state ≠ 1 ∧ delimiter = delimiter') && matchGroup (.group delimiter pattern) stream &&
        matchTokens 0 rest ts
    | _ => false
  | .punct char _ :: rest, ts =>
    if char = dollar then matchTokens 1 rest ts
    else if char = colon ∧ state = 2 then matchTokens 3 rest ts
    else match ts with
      | .punct char' _ :: ts => decide (char = char') && matchTokens 0 rest ts
      | _ => false
def matchGroup : TokenTree → List TokenTree → Bool
  | .group _ pattern, stream => matchTokens 0 pattern stream
  | _, _ => false
end

section
variable {κ : Type} {parsers : Parsers κ} {words : List Text}

/-- A word that is named, seen as another, is that word. -/
theorem eq_of_named {value v v' : Text} (hvalue : value ∈ words)
    (h : (if v ∈ words then some v else none) = if v' ∈ words then some v' else none) : value = v ↔ value = v' := by
  constructor
  · rintro rfl
    rw [if_pos hvalue] at h
    split_ifs at h with hin
    exact Option.some.inj h
  · rintro rfl
    rw [if_pos hvalue] at h
    split_ifs at h with hin
    exact (Option.some.inj h).symm

theorem accepts_ident (kind : Text) {v v' : Text} (h : seenIdent parsers words v = seenIdent parsers words v') :
    accepts kind (.ident v) = accepts kind (.ident v') := by
  have hunderscore : decide (v = underscore) = decide (v' = underscore) := congrArg Prod.fst h
  rw [accepts, accepts, decide_not, decide_not, hunderscore]

theorem isIdent_ident {value v v' : Text} (hvalue : value ∈ words)
    (h : seenIdent parsers words v = seenIdent parsers words v') :
    isIdent value (.ident v) = isIdent value (.ident v') :=
  decide_eq_decide.2 (eq_of_named hvalue (congrArg (fun seen => seen.2.1) h))

mutual
/-- **A matcher** does not tell indistinct streams apart. -/
theorem matchTokens_alike : ∀ (pattern : List TokenTree) {state : Nat} {ts ts' : List TokenTree},
    (∀ v ∈ matcherWords state pattern, v ∈ words) → Indistinct parsers words ts ts' →
    matchTokens state pattern ts = matchTokens state pattern ts'
  | [], _, _, _, _, h => by
    cases h <;> rfl
  | .ident value :: rest, state, ts, ts', hwords, h => by
    rw [matcherWords] at hwords
    by_cases hname : state = 1
    · rw [if_pos hname] at hwords
      simp only [matchTokens, if_pos hname]
      exact matchTokens_alike rest hwords h
    have hrest : ∀ v ∈ matcherWords 0 rest, v ∈ words := by
      intro v hv
      rw [if_neg hname] at hwords
      split_ifs at hwords
      · exact hwords v hv
      · exact hwords v (List.mem_cons_of_mem _ hv)
    simp only [matchTokens, if_neg hname]
    cases h with
    | nil => rfl
    | group delimiter inner tail =>
      simp only [matchTokens_alike rest hrest tail]
      rfl
    | ident here tail =>
      simp only [matchTokens_alike rest hrest tail]
      by_cases hkind : state = 3
      · rw [if_pos hkind, if_pos hkind, accepts_ident value here]
      · rw [if_neg hname, if_neg hkind] at hwords
        rw [if_neg hkind, if_neg hkind, isIdent_ident (hwords value (List.mem_cons_self ..)) here]
    | literal here tail =>
      simp only [matchTokens_alike rest hrest tail]
      rfl
    | punct char joint tail =>
      simp only [matchTokens_alike rest hrest tail]
  | .literal value :: rest, state, ts, ts', hwords, h => by
    have hrest : ∀ v ∈ matcherWords 0 rest, v ∈ words := fun v hv => hwords v (List.mem_cons_of_mem _ hv)
    simp only [matchTokens]
    cases h with
    | literal here tail =>
      have hvalue := eq_of_named (hwords value (List.mem_cons_self ..)) (congrArg Prod.fst here)
      simp only [matchTokens_alike rest hrest tail, hvalue]
    | _ => rfl
  | .group delimiter pattern :: rest, state, ts, ts', hwords, h => by
    have hrest : ∀ v ∈ matcherWords 0 rest, v ∈ words := fun v hv => hwords v (List.mem_append_right _ hv)
    have hinner : ∀ v ∈ groupWords (.group delimiter pattern), v ∈ words := fun v hv =>
      hwords v (List.mem_append_left _ hv)
    simp only [matchTokens]
    cases h with
    | group delimiter' inner tail =>
      simp only [matchTokens_alike rest hrest tail, matchGroup_alike (.group delimiter pattern) hinner inner]
    | _ => rfl
  | .punct char joint :: rest, state, ts, ts', hwords, h => by
    rw [matcherWords] at hwords
    simp only [matchTokens]
    by_cases hdollar : char = dollar
    · rw [if_pos hdollar] at hwords
      rw [if_pos hdollar, if_pos hdollar]
      exact matchTokens_alike rest hwords h
    by_cases hcolon : char = colon ∧ state = 2
    · rw [if_neg hdollar, if_pos hcolon] at hwords
      rw [if_neg hdollar, if_neg hdollar, if_pos hcolon, if_pos hcolon]
      exact matchTokens_alike rest hwords h
    · rw [if_neg hdollar, if_neg hcolon] at hwords
      rw [if_neg hdollar, if_neg hdollar, if_neg hcolon, if_neg hcolon]
      cases h with
      | punct char' joint' tail => simp only [matchTokens_alike rest hwords tail]
      | _ => rfl
theorem matchGroup_alike : ∀ (pattern : TokenTree) {ts ts' : List TokenTree}, (∀ v ∈ groupWords pattern, v ∈ words) →
    Indistinct parsers words ts ts' → matchGroup pattern ts = matchGroup pattern ts'
  | .group _ pattern, _, _, hwords, h => matchTokens_alike pattern hwords h
  | .ident _, _, _, _, _ => rfl
  | .literal _, _, _, _, _ => rfl
  | .punct _ _, _, _, _, _ => rfl
end

end

end HafleyScm.Expansion
