import Mathlib

/-!
# JSON as text

`scan` cuts a text into its tokens, and a text is one of a value when its tokens are those the value is spelled with
(`Parses`). The members of an object are in order, and the value of a string are its UTF-16 code units, in pairs or not.

A text is also a list of items, one for each character outside strings and one for each string, which is cut into
pieces: `scan_text` reads the tokens off the items, and every text with tokens is one (`exists_items`). An item may
also be a comment; no JSON text has any.
-/

namespace JsonText

abbrev Text := List Char

def isBlank (c : Char) : Bool := c = ' ' || c = '\t' || c = '\n' || c = '\r'

def isClose (c : Char) : Bool := c = ']' || c = '}'

def isPunct (c : Char) : Bool := isClose c || c = '[' || c = '{' || c = ':' || c = ','

/-- A character of a number, or of `true`, `false` or `null`. -/
def isWord (c : Char) : Bool := c.isAlphanum || c = '+' || c = '-' || c = '.'

/-! ## Numbers and literals -/

def dropDigits (t : Text) : Option Text :=
  match t with
  | c :: rest => if c.isDigit then some (rest.dropWhile Char.isDigit) else none
  | [] => none

def afterInteger (t : Text) : Option Text :=
  match t with
  | '0' :: rest => some rest
  | _ => dropDigits t

def afterFraction (t : Text) : Option Text :=
  match t with
  | '.' :: rest => dropDigits rest
  | _ => some t

def afterExponent (t : Text) : Option Text :=
  match t with
  | c :: rest =>
    if c = 'e' || c = 'E' then
      match rest with
      | '+' :: digits => dropDigits digits
      | '-' :: digits => dropDigits digits
      | _ => dropDigits rest
    else some t
  | [] => some t

def isNumber (t : Text) : Bool :=
  let unsigned := match t with
    | '-' :: rest => rest
    | _ => t
  ((afterInteger unsigned).bind afterFraction).bind afterExponent == some []

structure Scalar where
  raw   : Text
  valid : (isNumber raw || raw = "true".toList || raw = "false".toList || raw = "null".toList) = true

/-! ## Tokens and values -/

inductive Token where
  | punct (c : Char)
  | scalar (raw : Text)
  | str (units : List Nat)
deriving DecidableEq

inductive Value where
  | scalar (s : Scalar)
  | str (units : List Nat)
  | arr (items : List Value)
  | obj (members : List (List Nat × Value))

mutual

def spell : Value → List Token
  | .scalar s => [.scalar s.raw]
  | .str units => [.str units]
  | .arr items => .punct '[' :: (spellItems items ++ [.punct ']'])
  | .obj members => .punct '{' :: (spellMembers members ++ [.punct '}'])

def spellItems : List Value → List Token
  | [] => []
  | v :: items => spell v ++ spellMoreItems items

def spellMoreItems : List Value → List Token
  | [] => []
  | v :: items => .punct ',' :: (spell v ++ spellMoreItems items)

def spellMembers : List (List Nat × Value) → List Token
  | [] => []
  | (key, v) :: members => .str key :: .punct ':' :: (spell v ++ spellMoreMembers members)

def spellMoreMembers : List (List Nat × Value) → List Token
  | [] => []
  | (key, v) :: members => .punct ',' :: .str key :: .punct ':' :: (spell v ++ spellMoreMembers members)

end

/-! ## The scanner -/

def utf16 (c : Char) : List Nat :=
  if c.toNat < 0x10000 then [c.toNat]
  else [0xd800 + (c.toNat - 0x10000) / 0x400, 0xdc00 + (c.toNat - 0x10000) % 0x400]

def unescape (c : Char) : Option Nat :=
  match c with
  | '"' => some 0x22
  | '\\' => some 0x5c
  | '/' => some 0x2f
  | 'b' => some 8
  | 'f' => some 0xc
  | 'n' => some 0xa
  | 'r' => some 0xd
  | 't' => some 9
  | _ => none

def hexDigit (c : Char) : Option Nat :=
  if c.isDigit then some (c.toNat - '0'.toNat)
  else if 'a' ≤ c ∧ c ≤ 'f' then some (c.toNat - 'a'.toNat + 10)
  else if 'A' ≤ c ∧ c ≤ 'F' then some (c.toNat - 'A'.toNat + 10)
  else none

/-- Where a scan stands: outside, in a word, in a string, behind a backslash, or in the digits of a `\u`. -/
inductive Mode where
  | out
  | word (raw : Text)
  | str (units : List Nat)
  | escape (units : List Nat)
  | code (units digits : List Nat)

def outStep (c : Char) : Option (List Token × Mode) :=
  if isBlank c then some ([], .out)
  else if isPunct c then some ([.punct c], .out)
  else if c = '"' then some ([], .str [])
  else if isWord c then some ([], .word [c])
  else none

def step : Mode → Char → Option (List Token × Mode)
  | .out, c => outStep c
  | .word raw, c =>
    if isWord c then some ([], .word (raw ++ [c])) else (outStep c).map fun r => (.scalar raw :: r.1, r.2)
  | .str units, c =>
    if c = '"' then some ([.str units], .out)
    else if c = '\\' then some ([], .escape units)
    else if c.toNat < 0x20 then none
    else some ([], .str (units ++ utf16 c))
  | .escape units, c =>
    if c = 'u' then some ([], .code units []) else (unescape c).map fun u => ([], .str (units ++ [u]))
  | .code units digits, c =>
    (hexDigit c).map fun d =>
      if digits.length = 3 then ([], .str (units ++ [(digits ++ [d]).foldl (fun n d => 16 * n + d) 0]))
      else ([], .code units (digits ++ [d]))

def finish : Mode → Option (List Token)
  | .out => some []
  | .word raw => some [.scalar raw]
  | _ => none

def scanFrom (m : Mode) : Text → Option (List Token)
  | [] => finish m
  | c :: rest => (step m c).bind fun r => (scanFrom r.2 rest).map (r.1 ++ ·)

def scan (t : Text) : Option (List Token) := scanFrom .out t

/-- The text is one of the value. -/
def Parses (t : Text) (v : Value) : Prop := scan t = some (spell v)

/-! ## Items -/

inductive Piece where
  | plain (c : Char)
  | escape (c : Char)
  | code (a b c d : Char)
deriving DecidableEq

namespace Piece

def text : Piece → Text
  | plain c => [c]
  | escape c => ['\\', c]
  | code a b c d => ['\\', 'u', a, b, c, d]

def units : Piece → List Nat
  | plain c => utf16 c
  | escape c => (unescape c).toList
  | code a b c d => [([a, b, c, d].map fun x => (hexDigit x).getD 0).foldl (fun n d => 16 * n + d) 0]

def Ok : Piece → Prop
  | plain c => 0x20 ≤ c.toNat ∧ c ≠ '"' ∧ c ≠ '\\'
  | escape c => (unescape c).isSome
  | code a b c d => ∀ x ∈ [a, b, c, d], (hexDigit x).isSome

end Piece

def piecesText (ps : List Piece) : Text := ps.flatMap Piece.text

def piecesUnits (ps : List Piece) : List Nat := ps.flatMap Piece.units

inductive Item where
  | blank (c : Char)
  | punct (c : Char)
  | word (c : Char)
  | str (ps : List Piece)
  | line (body : Text)
  | block (body : Text)

def Item.text : Item → Text
  | blank c => [c]
  | punct c => [c]
  | word c => [c]
  | str ps => '"' :: (piecesText ps ++ ['"'])
  | line body => '/' :: '/' :: body
  | block body => '/' :: '*' :: (body ++ ['*', '/'])

def text (is : List Item) : Text := is.flatMap Item.text

/-- An item of a JSON text. -/
def Item.Plain : Item → Prop
  | blank c => isBlank c = true
  | punct c => isPunct c = true
  | word c => isWord c = true
  | str ps => ∀ p ∈ ps, p.Ok
  | line _ => False
  | block _ => False

def Plain (is : List Item) : Prop := ∀ i ∈ is, i.Plain

def flush (word : Text) : List Token := if word = [] then [] else [.scalar word]

/-- The tokens of the items behind a word that has begun. -/
def tokensFrom (word : Text) : List Item → List Token
  | [] => flush word
  | .blank _ :: is => flush word ++ tokensFrom [] is
  | .punct c :: is => flush word ++ .punct c :: tokensFrom [] is
  | .word c :: is => tokensFrom (word ++ [c]) is
  | .str ps :: is => flush word ++ .str (piecesUnits ps) :: tokensFrom [] is
  | .line _ :: is => tokensFrom word is
  | .block _ :: is => tokensFrom word is

def modeOf (word : Text) : Mode := if word = [] then .out else .word word

/-! ## Scanning items -/

theorem isPunct_cases {c : Char} (h : isPunct c = true) :
    c = ']' ∨ c = '}' ∨ c = '[' ∨ c = '{' ∨ c = ':' ∨ c = ',' := by
  simpa [isPunct, isClose, or_assoc] using h

theorem isBlank_cases {c : Char} (h : isBlank c = true) : c = ' ' ∨ c = '\t' ∨ c = '\n' ∨ c = '\r' := by
  simpa [isBlank, or_assoc] using h

/-- A character of a word is none of the others. -/
theorem isWord_other {c : Char} (h : isWord c = true) : isBlank c = false ∧ isPunct c = false ∧ c ≠ '"' := by
  refine ⟨?_, ?_, ?_⟩
  · rw [Bool.eq_false_iff]
    intro hblank
    rcases isBlank_cases hblank with rfl | rfl | rfl | rfl <;> revert h <;> decide
  · rw [Bool.eq_false_iff]
    intro hpunct
    rcases isPunct_cases hpunct with rfl | rfl | rfl | rfl | rfl | rfl <;> revert h <;> decide
  · rintro rfl
    revert h
    decide

theorem outStep_blank {c : Char} (h : isBlank c = true) : outStep c = some ([], .out) := by rw [outStep, if_pos h]

theorem outStep_punct {c : Char} (h : isPunct c = true) : outStep c = some ([.punct c], .out) := by
  have hblank : ¬isBlank c = true := by
    intro hblank
    rcases isBlank_cases hblank with rfl | rfl | rfl | rfl <;> revert h <;> decide
  rw [outStep, if_neg hblank, if_pos h]

theorem outStep_quote : outStep '"' = some ([], .str []) := by simp [outStep, isBlank, isPunct, isClose]

theorem outStep_word {c : Char} (h : isWord c = true) : outStep c = some ([], .word [c]) := by
  obtain ⟨hblank, hpunct, hquote⟩ := isWord_other h
  rw [outStep, if_neg (by simp [hblank]), if_neg (by simp [hpunct]), if_neg hquote, if_pos h]

theorem scanFrom_word {c : Char} (h : isWord c = true) (word rest : Text) :
    scanFrom (modeOf word) (c :: rest) = scanFrom (modeOf (word ++ [c])) rest := by
  have hmode : modeOf (word ++ [c]) = .word (word ++ [c]) := by rw [modeOf, if_neg (by simp)]
  rw [hmode, scanFrom, modeOf]
  split
  · rename_i hempty
    subst hempty
    simp [step, outStep_word h]
  · simp [step, h]

/-- What ends a word. -/
theorem scanFrom_out {c : Char} (hword : isWord c = false) {ts : List Token} {m : Mode}
    (h : outStep c = some (ts, m)) (word rest : Text) :
    scanFrom (modeOf word) (c :: rest) = (scanFrom m rest).map ((flush word ++ ts) ++ ·) := by
  rw [scanFrom, modeOf, flush]
  by_cases hempty : word = []
  · rw [if_pos hempty, if_pos hempty, step, h]
    rfl
  · rw [if_neg hempty, if_neg hempty, step, if_neg (by simp [hword]), h]
    rfl

/-- A step that says nothing yet. -/
theorem scanFrom_silent {m m' : Mode} {c : Char} (h : step m c = some ([], m')) (rest : Text) :
    scanFrom m (c :: rest) = scanFrom m' rest := by
  rw [scanFrom, h, Option.bind_some]
  simp

theorem step_digit {us ds : List Nat} {c : Char} {d : Nat} (h : hexDigit c = some d) (hlen : ds.length ≠ 3) :
    step (.code us ds) c = some ([], .code us (ds ++ [d])) := by
  rw [step, h, Option.map_some, if_neg hlen]

/-- A piece of a string is read as its code units. -/
theorem scanFrom_piece {p : Piece} (h : p.Ok) (us : List Nat) (rest : Text) :
    scanFrom (.str us) (p.text ++ rest) = scanFrom (.str (us ++ p.units)) rest := by
  have hslash : step (.str us) '\\' = some ([], .escape us) := by rw [step, if_neg (by decide), if_pos rfl]
  cases p with
  | plain c =>
    obtain ⟨hlow, hquote, hback⟩ := h
    refine scanFrom_silent ?_ rest
    rw [step, if_neg hquote, if_neg hback, if_neg (Nat.not_lt.2 hlow)]
    rfl
  | escape c =>
    obtain ⟨u, hu⟩ := Option.isSome_iff_exists.1 h
    have hcode : c ≠ 'u' := by
      rintro rfl
      have hnone : unescape 'u' = none := by decide
      rw [hnone] at hu
      cases hu
    rw [Piece.text, List.cons_append, scanFrom_silent hslash, List.singleton_append]
    refine scanFrom_silent ?_ rest
    rw [step, if_neg hcode, hu, Piece.units, hu]
    rfl
  | code a b c d =>
    have hdigits : ∀ x ∈ [a, b, c, d], ∃ n, hexDigit x = some n := fun x hx => Option.isSome_iff_exists.1 (h x hx)
    obtain ⟨na, ha⟩ := hdigits a (by simp)
    obtain ⟨nb, hb⟩ := hdigits b (by simp)
    obtain ⟨nc, hc⟩ := hdigits c (by simp)
    obtain ⟨nd, hd⟩ := hdigits d (by simp)
    have hcode : step (.escape us) 'u' = some ([], .code us []) := by rw [step, if_pos rfl]
    simp only [Piece.text, List.cons_append, List.nil_append]
    rw [scanFrom_silent hslash, scanFrom_silent hcode, scanFrom_silent (step_digit ha (by simp)),
      scanFrom_silent (step_digit hb (by simp)), scanFrom_silent (step_digit hc (by simp))]
    refine scanFrom_silent ?_ rest
    rw [step, hd, Option.map_some, if_pos (by simp)]
    simp [Piece.units, ha, hb, hc, hd]

theorem scanFrom_pieces {ps : List Piece} (h : ∀ p ∈ ps, p.Ok) (us : List Nat) (rest : Text) :
    scanFrom (.str us) (piecesText ps ++ '"' :: rest) =
      (scanFrom .out rest).map (.str (us ++ piecesUnits ps) :: ·) := by
  induction ps generalizing us with
  | nil => simp [piecesText, piecesUnits, scanFrom, step]
  | cons p ps ih =>
    obtain ⟨hp, hps⟩ := List.forall_mem_cons.1 h
    have hsplit : piecesText (p :: ps) ++ '"' :: rest = p.text ++ (piecesText ps ++ '"' :: rest) := by
      simp [piecesText]
    rw [hsplit, scanFrom_piece hp, ih hps]
    simp [piecesUnits]

theorem not_isWord_of_punct {c : Char} (h : isPunct c = true) : isWord c = false := by
  rw [Bool.eq_false_iff]
  intro hword
  rw [(isWord_other hword).2.1] at h
  cases h

theorem not_isWord_of_blank {c : Char} (h : isBlank c = true) : isWord c = false := by
  rw [Bool.eq_false_iff]
  intro hword
  rw [(isWord_other hword).1] at h
  cases h

/-- **The scanner reads the tokens off the items.** -/
theorem scanFrom_text {is : List Item} (h : Plain is) (word : Text) :
    scanFrom (modeOf word) (text is) = some (tokensFrom word is) := by
  induction is generalizing word with
  | nil =>
    rw [text, List.flatMap_nil, scanFrom, tokensFrom, modeOf, flush]
    split
    · rfl
    · rfl
  | cons i is ih =>
    obtain ⟨hi, his⟩ := List.forall_mem_cons.1 h
    have htext : text (i :: is) = i.text ++ text is := rfl
    have hempty := ih his []
    rw [modeOf, if_pos rfl] at hempty
    cases i with
    | blank c =>
      rw [htext, Item.text, List.singleton_append, scanFrom_out (not_isWord_of_blank hi) (outStep_blank hi), hempty]
      simp [tokensFrom]
    | punct c =>
      rw [htext, Item.text, List.singleton_append, scanFrom_out (not_isWord_of_punct hi) (outStep_punct hi), hempty]
      simp [tokensFrom]
    | word c =>
      rw [htext, Item.text, List.singleton_append, scanFrom_word hi, ih his, tokensFrom]
    | str ps =>
      have hquote : isWord '"' = false := by decide
      rw [htext, Item.text, List.cons_append, List.append_assoc, List.singleton_append,
        scanFrom_out hquote outStep_quote, scanFrom_pieces hi, hempty]
      simp [tokensFrom]
    | line body => cases hi
    | block body => cases hi

theorem scan_text {is : List Item} (h : Plain is) : scan (text is) = some (tokensFrom [] is) :=
  scanFrom_text h []

/-! ## Every text with tokens is one of items -/

/-- What a text is cut into, from where the scan stands. -/
def Cut (t : Text) : Mode → Prop
  | .out | .word _ => ∃ is, Plain is ∧ text is = t
  | .str _ => ∃ ps is, (∀ p ∈ ps, Piece.Ok p) ∧ Plain is ∧ piecesText ps ++ '"' :: text is = t
  | .escape _ => ∃ p ps is, Piece.Ok p ∧ (∀ p ∈ ps, Piece.Ok p) ∧ Plain is ∧
      p.text ++ piecesText ps ++ '"' :: text is = '\\' :: t
  | .code _ digits => ∃ (hs : Text) (ps : List Piece) (is : List Item), (∀ x ∈ hs, (hexDigit x).isSome) ∧
      digits.length + hs.length = 4 ∧ (∀ p ∈ ps, p.Ok) ∧ Plain is ∧ hs ++ piecesText ps ++ '"' :: text is = t

theorem Plain.cons {i : Item} {is : List Item} (hi : i.Plain) (his : Plain is) : Plain (i :: is) :=
  List.forall_mem_cons.2 ⟨hi, his⟩

theorem cut_out {c : Char} {rest : Text} {r : List Token × Mode} (h : outStep c = some r) (hrest : Cut rest r.2) :
    ∃ is, Plain is ∧ text is = c :: rest := by
  rw [outStep] at h
  split at h
  · rename_i hblank
    cases h
    obtain ⟨is, his, rfl⟩ := hrest
    exact ⟨.blank c :: is, his.cons hblank, rfl⟩
  · split at h
    · rename_i hpunct
      cases h
      obtain ⟨is, his, rfl⟩ := hrest
      exact ⟨.punct c :: is, his.cons hpunct, rfl⟩
    · split at h
      · rename_i hquote
        cases h
        obtain ⟨ps, is, hps, his, rfl⟩ := hrest
        refine ⟨.str ps :: is, his.cons hps, ?_⟩
        rw [hquote, text, List.flatMap_cons, Item.text, List.cons_append, List.append_assoc]
        rfl
      · split at h
        · rename_i hword
          cases h
          obtain ⟨is, his, rfl⟩ := hrest
          exact ⟨.word c :: is, his.cons hword, rfl⟩
        · cases h

theorem exists_cut {t : Text} {m : Mode} {ts : List Token} (h : scanFrom m t = some ts) : Cut t m := by
  induction t generalizing m ts with
  | nil =>
    cases m with
    | out => exact ⟨[], by simp [Plain], rfl⟩
    | word raw => exact ⟨[], by simp [Plain], rfl⟩
    | str us => cases h
    | escape us => cases h
    | code us ds => cases h
  | cons c rest ih =>
    rw [scanFrom] at h
    obtain ⟨r, hstep, hmap⟩ := Option.bind_eq_some_iff.1 h
    obtain ⟨more, hmore, -⟩ := Option.map_eq_some_iff.1 hmap
    have hrest := ih hmore
    cases m with
    | out => exact cut_out hstep hrest
    | word raw =>
      rw [step] at hstep
      split at hstep
      · rename_i hword
        cases hstep
        obtain ⟨is, his, rfl⟩ := hrest
        exact ⟨.word c :: is, his.cons hword, rfl⟩
      · obtain ⟨r', hout, rfl⟩ := Option.map_eq_some_iff.1 hstep
        exact cut_out hout hrest
    | str us =>
      rw [step] at hstep
      split at hstep
      · rename_i hquote
        cases hstep
        obtain ⟨is, his, rfl⟩ := hrest
        exact ⟨[], is, by simp, his, by rw [hquote]; rfl⟩
      · rename_i hquote
        split at hstep
        · rename_i hslash
          cases hstep
          obtain ⟨p, ps, is, hp, hps, his, heq⟩ := hrest
          refine ⟨p :: ps, is, List.forall_mem_cons.2 ⟨hp, hps⟩, his, ?_⟩
          rw [hslash, ← heq]
          rfl
        · rename_i hslash
          split at hstep
          · cases hstep
          · rename_i hlow
            cases hstep
            obtain ⟨ps, is, hps, his, rfl⟩ := hrest
            exact ⟨.plain c :: ps, is, List.forall_mem_cons.2 ⟨⟨Nat.not_lt.1 hlow, hquote, hslash⟩, hps⟩, his, rfl⟩
    | escape us =>
      rw [step] at hstep
      split at hstep
      · rename_i hcode
        cases hstep
        obtain ⟨hs, ps, is, hhex, hlen, hps, his, rfl⟩ := hrest
        rw [List.length_nil, Nat.zero_add] at hlen
        obtain ⟨a, b, c', d, rfl⟩ := List.length_eq_four.1 hlen
        exact ⟨.code a b c' d, ps, is, hhex, hps, his, by rw [hcode]; rfl⟩
      · obtain ⟨u, hu, rfl⟩ := Option.map_eq_some_iff.1 hstep
        obtain ⟨ps, is, hps, his, rfl⟩ := hrest
        exact ⟨.escape c, ps, is, by rw [Piece.Ok, hu]; rfl, hps, his, rfl⟩
    | code us ds =>
      rw [step] at hstep
      obtain ⟨d, hd, hr⟩ := Option.map_eq_some_iff.1 hstep
      have hsome : (hexDigit c).isSome := by rw [hd]; rfl
      split at hr
      · rename_i hlen
        cases hr
        obtain ⟨ps, is, hps, his, rfl⟩ := hrest
        refine ⟨[c], ps, is, ?_, by rw [hlen]; rfl, hps, his, rfl⟩
        rw [List.forall_mem_singleton]
        exact hsome
      · cases hr
        obtain ⟨hs, ps, is, hhex, hlen, hps, his, rfl⟩ := hrest
        rw [List.length_append, List.length_singleton] at hlen
        refine ⟨c :: hs, ps, is, List.forall_mem_cons.2 ⟨hsome, hhex⟩, ?_, hps, his, rfl⟩
        rw [List.length_cons]
        omega

/-- **A text with tokens is one of items.** -/
theorem exists_items {t : Text} {ts : List Token} (h : scan t = some ts) : ∃ is, Plain is ∧ text is = t :=
  exists_cut h

/-! ## Commas of a value -/

def Token.Closes (x : Token) : Prop := ∃ c, x = .punct c ∧ isClose c = true

/-- No comma stands in front of a closing bracket. -/
def NoTrailing (ts : List Token) : Prop := List.IsChain (fun x y => x = .punct ',' → ¬y.Closes) ts

/-- Such tokens, without a closing bracket in front or a comma behind. -/
structure Fits (ts : List Token) : Prop where
  chain : NoTrailing ts
  head  : ∀ x ∈ ts.head?, ¬x.Closes
  last  : ∀ x ∈ ts.getLast?, x ≠ .punct ','

theorem not_closes_str (units : List Nat) : ¬(Token.str units).Closes := by
  rintro ⟨c, h, -⟩
  cases h

theorem not_closes_scalar (raw : Text) : ¬(Token.scalar raw).Closes := by
  rintro ⟨c, h, -⟩
  cases h

theorem not_closes_punct {c : Char} (h : isClose c = false) : ¬(Token.punct c).Closes := by
  rintro ⟨c', heq, hclose⟩
  cases heq
  rw [h] at hclose
  cases hclose

theorem Fits.nil : Fits [] := ⟨List.isChain_nil, by simp, by simp⟩

theorem Fits.append {a b : List Token} (ha : Fits a) (hb : Fits b) : Fits (a ++ b) := by
  refine ⟨List.isChain_append.2 ⟨ha.chain, hb.chain, fun x hx y _ hcomma => absurd hcomma (ha.last x hx)⟩, ?_, ?_⟩
  · intro x hx
    rw [List.head?_append] at hx
    rcases Option.or_eq_some_iff.1 hx with hx | ⟨-, hx⟩
    · exact ha.head x hx
    · exact hb.head x hx
  · intro x hx
    rw [List.getLast?_append] at hx
    rcases Option.or_eq_some_iff.1 hx with hx | ⟨-, hx⟩
    · exact hb.last x hx
    · exact ha.last x hx

theorem Fits.single {x : Token} (hopen : ¬x.Closes) (hcomma : x ≠ .punct ',') : Fits [x] := by
  refine ⟨List.isChain_singleton x, ?_, ?_⟩
  · rintro y ⟨⟩
    exact hopen
  · rintro y ⟨⟩
    exact hcomma

theorem Fits.cons {x : Token} {ts : List Token} (hopen : ¬x.Closes) (hcomma : x ≠ .punct ',') (h : Fits ts) :
    Fits (x :: ts) := (Fits.single hopen hcomma).append h

theorem Fits.comma {ts : List Token} (h : Fits ts) (hne : ts ≠ []) : Fits (.punct ',' :: ts) := by
  refine ⟨List.isChain_cons.2 ⟨fun y hy _ => h.head y hy, h.chain⟩, ?_, fun x hx => ?_⟩
  · rintro x ⟨⟩
    exact not_closes_punct (by decide)
  · rw [List.getLast?_cons_of_ne_nil hne] at hx
    exact h.last x hx

theorem Fits.close {ts : List Token} {c : Char} (h : Fits ts) (hne : ts ≠ []) (hc : c ≠ ',') :
    Fits (ts ++ [.punct c]) := by
  refine ⟨List.isChain_append.2 ⟨h.chain, List.isChain_singleton _, fun x hx y _ hcomma => absurd hcomma (h.last x hx)⟩,
    fun x hx => ?_, fun x hx => ?_⟩
  · rw [List.head?_append_of_ne_nil _ hne] at hx
    exact h.head x hx
  · rw [List.getLast?_concat] at hx
    cases hx
    intro heq
    exact hc (by injection heq)

mutual

theorem fits_spell : ∀ v : Value, Fits (spell v) ∧ spell v ≠ []
  | .scalar s => ⟨by
      rw [spell]
      exact Fits.single (not_closes_scalar _) (by simp), by simp [spell]⟩
  | .str units => ⟨by
      rw [spell]
      exact Fits.single (not_closes_str _) (by simp), by simp [spell]⟩
  | .arr items => ⟨by
      rw [spell, ← List.cons_append]
      exact ((fits_spellItems items).cons (not_closes_punct (by decide)) (by decide)).close (by simp) (by decide),
      by simp [spell]⟩
  | .obj members => ⟨by
      rw [spell, ← List.cons_append]
      exact ((fits_spellMembers members).cons (not_closes_punct (by decide)) (by decide)).close (by simp) (by decide),
      by simp [spell]⟩

theorem fits_spellItems : ∀ items : List Value, Fits (spellItems items)
  | [] => by
    rw [spellItems]
    exact Fits.nil
  | v :: items => by
    rw [spellItems]
    exact (fits_spell v).1.append (fits_spellMoreItems items)

theorem fits_spellMoreItems : ∀ items : List Value, Fits (spellMoreItems items)
  | [] => by
    rw [spellMoreItems]
    exact Fits.nil
  | v :: items => by
    rw [spellMoreItems]
    have hv := fits_spell v
    exact (hv.1.append (fits_spellMoreItems items)).comma (by simp [hv.2])

theorem fits_spellMembers : ∀ members : List (List Nat × Value), Fits (spellMembers members)
  | [] => by
    rw [spellMembers]
    exact Fits.nil
  | (key, v) :: members => by
    rw [spellMembers]
    have hrest := (fits_spell v).1.append (fits_spellMoreMembers members)
    exact (hrest.cons (not_closes_punct (by decide)) (by decide)).cons (not_closes_str _) (by simp)

theorem fits_spellMoreMembers : ∀ members : List (List Nat × Value), Fits (spellMoreMembers members)
  | [] => by
    rw [spellMoreMembers]
    exact Fits.nil
  | (key, v) :: members => by
    rw [spellMoreMembers]
    have hrest := (fits_spell v).1.append (fits_spellMoreMembers members)
    exact ((hrest.cons (not_closes_punct (by decide)) (by decide)).cons (not_closes_str _) (by simp)).comma (by simp)

end

/-- **A value is spelled without trailing commas.** -/
theorem noTrailing_spell (v : Value) : NoTrailing (spell v) := (fits_spell v).1.chain

end JsonText
