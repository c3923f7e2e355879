import HafleyRs.Lib.JsonText
import HafleyRs.Lib.Utf8

/-!
# JSON with comments (`crates/hafley_scm/src/read/deps.rs`:210)

| here | there |
| --- | --- |
| `strip` | the loop of `strip_json_extras` (216), by where it stands |
| `dropFrom` | the loop of `drop_trailing_commas` (267) |
| `stripJsonExtras` | `strip_json_extras` |
| `uncomment`, `trim` | what the two passes do to the items of a text |

Both passes push bytes as characters, so each puts a character of its own in place of every byte of one that is not
ASCII. The second takes a quote behind a backslash for an escaped one. Behind a string that ends in a backslash it
takes what is outside strings for inside and the other way round, until the next such string (`Kept`).
-/

namespace HafleyScm.JsonExtras
open JsonText

/-- `byte as char` -/
def asChar (b : UInt8) : Char := Char.ofNat b.toNat

/-- Outside strings and comments, in a string, behind its backslash, in a comment, and at the second byte of what
opens or closes one. -/
inductive Place where
  | plain
  | inString
  | escaped
  | line
  | opening
  | block
  | closing

def strip : Place → List UInt8 → Text
  | _, [] => []
  | .inString, b :: rest =>
    asChar b :: strip (if b = '\\'.toUInt8 then .escaped else if b = '"'.toUInt8 then .plain else .inString) rest
  | .escaped, b :: rest => asChar b :: strip .inString rest
  | .plain, b :: rest =>
    if b = '"'.toUInt8 then '"' :: strip .inString rest
    else if b = '/'.toUInt8 ∧ rest.head? = some '/'.toUInt8 then strip .line rest
    else if b = '/'.toUInt8 ∧ rest.head? = some '*'.toUInt8 then strip .opening rest
    else asChar b :: strip .plain rest
  | .line, b :: rest => if b = '\n'.toUInt8 then asChar b :: strip .plain rest else strip .line rest
  | .opening, _ :: rest => strip .block rest
  | .block, b :: rest =>
    if b = '*'.toUInt8 ∧ rest.head? = some '/'.toUInt8 then strip .closing rest else strip .block rest
  | .closing, _ :: rest => strip .plain rest

def isAsciiWhitespace (b : UInt8) : Bool := b = 0x20 || b = 0x09 || b = 0x0a || b = 0x0c || b = 0x0d

/-- The next byte that is no whitespace is a closing bracket. -/
def closesNext (rest : List UInt8) : Bool :=
  match rest.find? fun b => !isAsciiWhitespace b with
  | some b => b = '}'.toUInt8 || b = ']'.toUInt8
  | none => false

/-- `prev` is `bytes[index - 1]`. -/
def dropFrom (prev : Option UInt8) (inString : Bool) : List UInt8 → Text
  | [] => []
  | b :: rest =>
    let inString := if b = '"'.toUInt8 ∧ prev ≠ some '\\'.toUInt8 then !inString else inString
    if inString = false ∧ b = ','.toUInt8 ∧ closesNext rest = true then dropFrom (some b) inString rest
    else asChar b :: dropFrom (some b) inString rest

def dropTrailingCommas (text : Text) : Text := dropFrom none false (Utf8.bytes text)

def stripJsonExtras (text : Text) : Text := dropTrailingCommas (strip .plain (Utf8.bytes text))

/-! ## What is put into a JSON text -/

def isWordItem : Item → Bool
  | .word _ => true
  | _ => false

def startsWord (is : List Item) : Bool := is.head?.any isWordItem

/-- The next item, blanks and comments aside, is a closing bracket. -/
def closes : List Item → Bool
  | .blank _ :: is => closes is
  | .line _ :: is => closes is
  | .block _ :: is => closes is
  | .punct c :: _ => isClose c
  | _ => false

def EndsLine (is : List Item) : Prop := is = [] ∨ ∃ rest, is = .blank '\n' :: rest

/-- The items of a text with comments and trailing commas put in, behind a word or not. A comment of one line goes with
the blank that ends it, so it may not cut a word in two. -/
inductive Decorates : Bool → List Item → List Item → Prop where
  | nil (inWord : Bool) : Decorates inWord [] []
  | keep {inWord : Bool} {i : Item} {o d : List Item} (h : Decorates (isWordItem i) o d) :
      Decorates inWord (i :: o) (i :: d)
  | block {inWord : Bool} {body : Text} {o d : List Item} (hbody : ¬['*', '/'] <:+: body) (h : Decorates inWord o d) :
      Decorates inWord o (.block body :: d)
  | line {inWord : Bool} {body : Text} {o d : List Item} (hbody : '\n' ∉ body) (hend : EndsLine d)
      (h : Decorates inWord o d) : Decorates inWord o (.line body :: d)
  | blank {inWord : Bool} {c : Char} {o d : List Item} (hblank : isBlank c = true)
      (hword : inWord = true → startsWord o = false) (h : Decorates false o d) :
      Decorates inWord o (.blank c :: d)
  | comma {inWord : Bool} {o d : List Item} (hclose : closes d = true) (h : Decorates inWord o d) :
      Decorates inWord o (.punct ',' :: d)

/-! ## What becomes of it -/

def isAsciiPiece : Piece → Bool
  | .plain c => Utf8.isAscii c
  | _ => true

/-- A character for each byte. -/
def mangle : Piece → List Piece
  | .plain c => (String.utf8EncodeChar c).map fun b => .plain (asChar b)
  | p => [p]

def closesPieces : List Piece → Bool
  | .plain c :: ps => if c = ' ' then closesPieces ps else isClose c
  | _ => false

/-- A comma in front of a closing bracket, in a string. -/
def drops : List Piece → Bool
  | [] => false
  | p :: ps => (p = .plain ',' && closesPieces ps) || drops ps

def cutPieces : List Piece → List Piece
  | [] => []
  | p :: ps => if (p = .plain ',' && closesPieces ps) = true then cutPieces ps else mangle p ++ cutPieces ps

def endsSlash (ps : List Piece) : Bool := ps.getLast? = some (.escape '\\')

def uncomment : List Item → List Item
  | [] => []
  | .line _ :: is => uncomment is
  | .block _ :: is => uncomment is
  | .str ps :: is => .str (ps.flatMap mangle) :: uncomment is
  | i :: is => i :: uncomment is

/-- The second pass, with inside and outside `swapped` or not. -/
def trim (swapped : Bool) : List Item → List Item
  | [] => []
  | .str ps :: is => .str (if swapped then cutPieces ps else ps.flatMap mangle) :: trim (swapped ^^ endsSlash ps) is
  | .punct c :: is =>
    if swapped = false ∧ c = ',' ∧ closes is = true then trim swapped is else .punct c :: trim swapped is
  | i :: is => i :: trim swapped is

/-- All strings are ASCII. Behind an odd number of strings that end in a backslash no trailing comma was put in, and no
string has a comma in front of a closing bracket. -/
def Kept (swapped : Bool) : List Item → Prop
  | [] => True
  | .str ps :: is =>
    (∀ p ∈ ps, isAsciiPiece p = true) ∧ (swapped = true → drops ps = false) ∧ Kept (swapped ^^ endsSlash ps) is
  | .punct c :: is => (swapped = true → c = ',' → closes is = false) ∧ Kept swapped is
  | _ :: is => Kept swapped is

/-! ## Bytes -/

theorem asChar_ascii {c : Char} (h : Utf8.isAscii c = true) : asChar c.toUInt8 = c := by
  rw [asChar, Utf8.toUInt8_toNat h]
  exact Char.ofNat_toNat c

theorem toUInt8_eq {c e : Char} (hc : Utf8.isAscii c = true) (he : Utf8.isAscii e = true) :
    c.toUInt8 = e.toUInt8 ↔ c = e := by
  refine ⟨fun h => ?_, fun h => by rw [h]⟩
  rw [← asChar_ascii hc, h, asChar_ascii he]

theorem byte_ne {x : UInt8} {e : Char} (hx : 128 ≤ x.toNat) (he : Utf8.isAscii e = true) : x ≠ e.toUInt8 := by
  rintro rfl
  have hlt : e.toNat < 128 := of_decide_eq_true he
  rw [Utf8.toUInt8_toNat he] at hx
  omega

/-- A byte of a character is not the one of an ASCII character other than it. -/
theorem encode_ne {c e : Char} (he : Utf8.isAscii e = true) (hne : c ≠ e) :
    ∀ x ∈ String.utf8EncodeChar c, x ≠ e.toUInt8 := by
  intro x hx
  cases hc : Utf8.isAscii c with
  | true =>
    rw [Utf8.encode_ascii hc, List.mem_singleton] at hx
    rw [hx]
    exact fun heq => hne ((toUInt8_eq hc he).1 heq)
  | false => exact byte_ne (Utf8.encode_other hc x hx) he

theorem bytes_ascii_cons {c : Char} (h : Utf8.isAscii c = true) (t : Text) :
    Utf8.bytes (c :: t) = c.toUInt8 :: Utf8.bytes t := by
  rw [Utf8.bytes_cons, Utf8.encode_ascii h]
  rfl

theorem encode_ne_nil (c : Char) : String.utf8EncodeChar c ≠ [] := by
  intro h
  have hpos := Char.utf8Size_pos c
  rw [← String.length_utf8EncodeChar, h] at hpos
  cases hpos

/-- The first byte of a text is no ASCII character but its first. -/
theorem head_bytes_ne {t : Text} {e : Char} (he : Utf8.isAscii e = true) (h : t.head? ≠ some e) (rest : List UInt8)
    (hrest : rest.head? ≠ some e.toUInt8) : (Utf8.bytes t ++ rest).head? ≠ some e.toUInt8 := by
  cases t with
  | nil => exact hrest
  | cons c t =>
    rw [Utf8.bytes_cons, List.append_assoc]
    have hne : c ≠ e := fun heq => h (by rw [heq]; rfl)
    have hall := encode_ne he hne
    obtain ⟨x, xs, henc⟩ := List.exists_cons_of_ne_nil (encode_ne_nil c)
    rw [henc] at hall ⊢
    simpa using hall x List.mem_cons_self

/-! ## The first pass -/

section
variable {rest : List UInt8}

theorem strip_plain {c : Char} (hascii : Utf8.isAscii c = true) (hquote : c ≠ '"') (hslash : c ≠ '/') :
    strip .plain (c.toUInt8 :: rest) = c :: strip .plain rest := by
  have hq : c.toUInt8 ≠ '"'.toUInt8 := fun h => hquote ((toUInt8_eq hascii (by decide)).1 h)
  have hs : c.toUInt8 ≠ '/'.toUInt8 := fun h => hslash ((toUInt8_eq hascii (by decide)).1 h)
  rw [strip, if_neg hq, if_neg fun h => hs h.1, if_neg fun h => hs h.1, asChar_ascii hascii]

theorem strip_string {bs : List UInt8} (h : ∀ b ∈ bs, b ≠ '\\'.toUInt8 ∧ b ≠ '"'.toUInt8) :
    strip .inString (bs ++ rest) = bs.map asChar ++ strip .inString rest := by
  induction bs with
  | nil => rfl
  | cons b bs ih =>
    obtain ⟨⟨hslash, hquote⟩, hbs⟩ := List.forall_mem_cons.1 h
    rw [List.cons_append, strip, if_neg hslash, if_neg hquote, ih hbs]
    rfl

theorem strip_line {body : Text} (h : '\n' ∉ body) : strip .line (Utf8.bytes body ++ rest) = strip .line rest := by
  have hskip : ∀ bs : List UInt8, (∀ b ∈ bs, b ≠ '\n'.toUInt8) → strip .line (bs ++ rest) = strip .line rest := by
    intro bs
    induction bs with
    | nil => exact fun _ => rfl
    | cons b bs ih =>
      intro h
      obtain ⟨hb, hbs⟩ := List.forall_mem_cons.1 h
      rw [List.cons_append, strip, if_neg hb, ih hbs]
  refine hskip _ fun b hb => ?_
  obtain ⟨c, hc, hbc⟩ := List.mem_flatMap.1 hb
  refine encode_ne (by decide) (fun heq => h ?_) b hbc
  rw [← heq]
  exact hc

theorem strip_block_byte {b : UInt8} (h : b = '*'.toUInt8 → rest.head? ≠ some '/'.toUInt8) :
    strip .block (b :: rest) = strip .block rest := by
  rw [strip, if_neg fun hb => h hb.1 hb.2]

theorem strip_block {body : Text} (h : ¬['*', '/'] <:+: body) :
    strip .block (Utf8.bytes body ++ '*'.toUInt8 :: '/'.toUInt8 :: rest) = strip .plain rest := by
  induction body with
  | nil => rfl
  | cons c body ih =>
    have hbody : ¬['*', '/'] <:+: body := fun hin => h (hin.trans (List.suffix_cons c body).isInfix)
    rw [Utf8.bytes_cons, List.append_assoc]
    by_cases hstar : c = '*'
    · subst hstar
      have hnext : (Utf8.bytes body ++ '*'.toUInt8 :: '/'.toUInt8 :: rest).head? ≠ some '/'.toUInt8 := by
        refine head_bytes_ne (by decide) (fun hhead => h ?_) _ (by simp; decide)
        obtain ⟨more, rfl⟩ := List.head?_eq_some_iff.1 hhead
        exact ⟨[], more, rfl⟩
      rw [Utf8.encode_ascii (by decide), List.singleton_append, strip_block_byte fun _ => hnext, ih hbody]
    · have hskip : ∀ bs more : List UInt8, (∀ b ∈ bs, b ≠ '*'.toUInt8) →
          strip .block (bs ++ more) = strip .block more := by
        intro bs more
        induction bs with
        | nil => exact fun _ => rfl
        | cons b bs ihb =>
          intro h
          obtain ⟨hb, hbs⟩ := List.forall_mem_cons.1 h
          rw [List.cons_append, strip_block_byte fun heq => absurd heq hb, ihb hbs]
      rw [hskip _ _ (encode_ne (by decide) hstar), ih hbody]

/-! ## Pieces and items in bytes -/

theorem ascii_of_le {c e : Char} (he : Utf8.isAscii e = true) (h : c ≤ e) : Utf8.isAscii c = true := by
  have hlt : e.toNat < 128 := of_decide_eq_true he
  exact decide_eq_true (lt_of_le_of_lt (show c.toNat ≤ e.toNat from h) hlt)

theorem hex_plain {x : Char} (h : (hexDigit x).isSome = true) :
    Utf8.isAscii x = true ∧ x ≠ '"' ∧ x ≠ '\\' ∧ x ≠ ',' := by
  refine ⟨?_, ?_, ?_, ?_⟩
  · rw [hexDigit] at h
    split at h
    · rename_i hdigit
      simp only [Char.isDigit, Bool.and_eq_true, decide_eq_true_eq] at hdigit
      exact ascii_of_le (e := '9') (by decide) hdigit.2
    · split at h
      · rename_i hlower
        exact ascii_of_le (by decide) hlower.2
      · split at h
        · rename_i hupper
          exact ascii_of_le (by decide) hupper.2
        · cases h
  · rintro rfl
    revert h
    decide
  · rintro rfl
    revert h
    decide
  · rintro rfl
    revert h
    decide

theorem escape_plain {c : Char} (h : (unescape c).isSome = true) : Utf8.isAscii c = true ∧ c ≠ ',' := by
  have hcases : c = '"' ∨ c = '\\' ∨ c = '/' ∨ c = 'b' ∨ c = 'f' ∨ c = 'n' ∨ c = 'r' ∨ c = 't' := by
    by_contra hnone
    simp only [not_or] at hnone
    obtain ⟨h1, h2, h3, h4, h5, h6, h7, h8⟩ := hnone
    unfold unescape at h
    simp_all
  rcases hcases with rfl | rfl | rfl | rfl | rfl | rfl | rfl | rfl <;> decide

theorem piecesText_append (ps qs : List Piece) : piecesText (ps ++ qs) = piecesText ps ++ piecesText qs :=
  List.flatMap_append

theorem piecesText_plain (bs : List UInt8) :
    piecesText (bs.map fun b => .plain (asChar b)) = bs.map asChar := by
  induction bs with
  | nil => rfl
  | cons b bs ih =>
    rw [List.map_cons, List.map_cons, ← ih]
    rfl

theorem map_asChar {t : List Char} (h : ∀ c ∈ t, Utf8.isAscii c = true) : (Utf8.bytes t).map asChar = t := by
  rw [Utf8.bytes_ascii h, List.map_map]
  conv_rhs => rw [← List.map_id t]
  exact List.map_congr_left fun c hc => asChar_ascii (h c hc)

theorem strip_piece {p : Piece} (h : p.Ok) :
    strip .inString (Utf8.bytes p.text ++ rest) = piecesText (mangle p) ++ strip .inString rest := by
  have hslash : ∀ c : Char, Utf8.isAscii c = true → ∀ more : List UInt8,
      strip .inString ('\\'.toUInt8 :: c.toUInt8 :: more) = '\\' :: c :: strip .inString more := by
    intro c hc more
    rw [strip, if_pos rfl, strip, asChar_ascii hc, asChar_ascii (by decide)]
  cases p with
  | plain c =>
    obtain ⟨-, hquote, hback⟩ := h
    have hbytes : Utf8.bytes (Piece.plain c).text = String.utf8EncodeChar c := by simp [Piece.text]
    rw [hbytes, strip_string, mangle, piecesText_plain]
    exact fun b hb => ⟨encode_ne (by decide) hback b hb, encode_ne (by decide) hquote b hb⟩
  | escape c =>
    have hc := (escape_plain h).1
    rw [Piece.text, bytes_ascii_cons (by decide), bytes_ascii_cons hc]
    exact hslash c hc rest
  | code a b c d =>
    have hall := fun x hx => hex_plain (h x hx)
    have hascii : ∀ x ∈ [a, b, c, d], Utf8.isAscii x = true := fun x hx => (hall x hx).1
    have hplain : ∀ y ∈ Utf8.bytes [a, b, c, d], y ≠ '\\'.toUInt8 ∧ y ≠ '"'.toUInt8 := by
      intro y hy
      obtain ⟨x, hx, hyx⟩ := List.mem_flatMap.1 hy
      exact ⟨encode_ne (by decide) (hall x hx).2.2.1 y hyx, encode_ne (by decide) (hall x hx).2.1 y hyx⟩
    rw [Piece.text, bytes_ascii_cons (by decide), bytes_ascii_cons (by decide), List.cons_append, List.cons_append,
      hslash _ (by decide), strip_string hplain, map_asChar hascii]
    rfl

theorem strip_pieces {ps : List Piece} (h : ∀ p ∈ ps, p.Ok) : strip .inString (Utf8.bytes (piecesText ps) ++ rest) =
    piecesText (ps.flatMap mangle) ++ strip .inString rest := by
  induction ps with
  | nil => rfl
  | cons p ps ih =>
    obtain ⟨hp, hps⟩ := List.forall_mem_cons.1 h
    have hsplit : piecesText (p :: ps) = p.text ++ piecesText ps := rfl
    rw [hsplit, Utf8.bytes_append, List.append_assoc, strip_piece hp, ih hps, List.flatMap_cons, piecesText_append,
      List.append_assoc]

theorem blank_plain {c : Char} (h : isBlank c = true) : Utf8.isAscii c = true ∧ c ≠ '"' ∧ c ≠ '/' ∧ c ≠ ',' := by
  rcases isBlank_cases h with rfl | rfl | rfl | rfl <;> decide

theorem punct_plain {c : Char} (h : isPunct c = true) : Utf8.isAscii c = true ∧ c ≠ '"' ∧ c ≠ '/' := by
  rcases isPunct_cases h with rfl | rfl | rfl | rfl | rfl | rfl <;> decide

theorem word_plain {c : Char} (h : isWord c = true) : Utf8.isAscii c = true ∧ c ≠ '"' ∧ c ≠ '/' ∧ c ≠ ',' := by
  refine ⟨?_, (isWord_other h).2.2, ?_, ?_⟩
  · simp only [isWord, Char.isAlphanum, Char.isAlpha, Char.isUpper, Char.isLower, Char.isDigit, Bool.or_eq_true,
      Bool.and_eq_true, decide_eq_true_eq] at h
    rcases h with (((((⟨-, h⟩ | ⟨-, h⟩) | ⟨-, h⟩) | rfl) | rfl) | rfl)
    · exact ascii_of_le (e := 'Z') (by decide) h
    · exact ascii_of_le (e := 'z') (by decide) h
    · exact ascii_of_le (e := '9') (by decide) h
    · decide
    · decide
    · decide
  · rintro rfl
    revert h
    decide
  · rintro rfl
    revert h
    decide

theorem text_cons (i : Item) (is : List Item) : text (i :: is) = i.text ++ text is := rfl

theorem strip_single {c : Char} {i : Item} (hi : i.text = [c]) (hc : Utf8.isAscii c = true ∧ c ≠ '"' ∧ c ≠ '/')
    (is : List Item) : strip .plain (Utf8.bytes (text (i :: is))) = c :: strip .plain (Utf8.bytes (text is)) := by
  rw [text_cons, hi, List.singleton_append, bytes_ascii_cons hc.1, strip_plain hc.1 hc.2.1 hc.2.2]

/-- **The first pass** takes the comments out. -/
theorem strip_text {inWord : Bool} {o d : List Item} (h : Decorates inWord o d) (ho : Plain o) :
    strip .plain (Utf8.bytes (text d)) = text (uncomment d) := by
  induction h with
  | nil => rfl
  | @keep _ i o d _ ih =>
    obtain ⟨hi, ho⟩ := List.forall_mem_cons.1 ho
    have hrest := ih ho
    cases i with
    | blank c =>
      obtain ⟨hascii, hquote, hslash, -⟩ := blank_plain hi
      rw [strip_single rfl ⟨hascii, hquote, hslash⟩, hrest]
      rfl
    | punct c =>
      rw [strip_single rfl (punct_plain hi), hrest]
      rfl
    | word c =>
      obtain ⟨hascii, hquote, hslash, -⟩ := word_plain hi
      rw [strip_single rfl ⟨hascii, hquote, hslash⟩, hrest]
      rfl
    | str ps =>
      have hsplit : text (.str ps :: d) = '"' :: (piecesText ps ++ '"' :: text d) := by
        rw [text_cons, Item.text, List.cons_append, List.append_assoc]
        rfl
      rw [hsplit, bytes_ascii_cons (by decide), Utf8.bytes_append, bytes_ascii_cons (by decide), strip, if_pos rfl,
        strip_pieces hi, strip, if_neg (by decide), if_pos rfl, hrest, uncomment, text_cons, Item.text,
        asChar_ascii (by decide)]
      simp
    | line body => cases hi
    | block body => cases hi
  | @block _ body o d hbody _ ih =>
    have hopen : ∀ more : List UInt8, strip .plain ('/'.toUInt8 :: '*'.toUInt8 :: more) = strip .block more := by
      intro more
      rw [strip, if_neg (by decide), if_neg, if_pos ⟨rfl, rfl⟩, strip]
      rintro ⟨-, h⟩
      exact absurd (Option.some.inj h) (by decide)
    rw [text_cons, Item.text, List.cons_append, List.cons_append, List.append_assoc, bytes_ascii_cons (by decide),
      bytes_ascii_cons (by decide), Utf8.bytes_append, List.cons_append, List.cons_append, List.nil_append,
      bytes_ascii_cons (by decide), bytes_ascii_cons (by decide), hopen, strip_block hbody, ih ho]
    rfl
  | @line _ body o d hbody hend _ ih =>
    have hopen : ∀ more : List UInt8, strip .plain ('/'.toUInt8 :: '/'.toUInt8 :: more) = strip .line more := by
      intro more
      rw [strip, if_neg (by decide), if_pos ⟨rfl, rfl⟩, strip, if_neg (by decide)]
    have hclose : strip .line (Utf8.bytes (text d)) = strip .plain (Utf8.bytes (text d)) := by
      rcases hend with rfl | ⟨d, rfl⟩
      · rfl
      · rw [strip_single rfl (by decide), text_cons, Item.text, List.singleton_append, bytes_ascii_cons (by decide),
          strip, if_pos rfl, asChar_ascii (by decide)]
    rw [text_cons, Item.text, List.cons_append, List.cons_append, bytes_ascii_cons (by decide),
      bytes_ascii_cons (by decide), Utf8.bytes_append, hopen, strip_line hbody, hclose, ih ho]
    rfl
  | blank hblank _ _ ih =>
    obtain ⟨hascii, hquote, hslash, -⟩ := blank_plain hblank
    rw [strip_single rfl ⟨hascii, hquote, hslash⟩, ih ho]
    rfl
  | comma _ _ ih =>
    rw [strip_single rfl (by decide), ih ho]
    rfl

end

/-! ## The second pass -/

section
variable {rest : List UInt8} {prev : Option UInt8} {inString : Bool}

theorem dropFrom_push {b : UInt8} (hquote : b ≠ '"'.toUInt8) (hcomma : b ≠ ','.toUInt8) :
    dropFrom prev inString (b :: rest) = asChar b :: dropFrom (some b) inString rest := by
  rw [dropFrom]
  simp only [hquote, hcomma, false_and, and_false, if_false]

theorem dropFrom_pushAll {bs : List UInt8} (h : ∀ b ∈ bs, b ≠ '"'.toUInt8 ∧ b ≠ ','.toUInt8) :
    dropFrom prev inString (bs ++ rest) = bs.map asChar ++ dropFrom (bs.getLast?.or prev) inString rest := by
  induction bs generalizing prev with
  | nil => rfl
  | cons b bs ih =>
    obtain ⟨⟨hquote, hcomma⟩, hbs⟩ := List.forall_mem_cons.1 h
    have hlast : (b :: bs).getLast?.or prev = bs.getLast?.or (some b) := by
      cases hbs' : bs.getLast? with
      | none =>
        rw [List.getLast?_eq_none_iff.1 hbs']
        rfl
      | some x => rw [List.getLast?_cons, hbs']; rfl
    rw [List.cons_append, dropFrom_push hquote hcomma, ih hbs, hlast]
    rfl

theorem closesNext_skip {b : UInt8} (h : isAsciiWhitespace b = true) : closesNext (b :: rest) = closesNext rest := by
  rw [closesNext, closesNext, List.find?_cons_of_neg (by simp [h])]

theorem closesNext_stop {b : UInt8} (h : isAsciiWhitespace b = false) :
    closesNext (b :: rest) = (b = '}'.toUInt8 || b = ']'.toUInt8) := by
  rw [closesNext, List.find?_cons_of_pos (by simp [h])]

theorem isBlank_whitespace {c : Char} (h : isBlank c = true) : isAsciiWhitespace c.toUInt8 = true := by
  rcases isBlank_cases h with rfl | rfl | rfl | rfl <;> decide

/-- A character that is no blank and no control character stops the search, and closes when it is a bracket. -/
theorem closesNext_char {c : Char} (h : Utf8.isAscii c = true) (hlow : 0x20 < c.toNat) :
    closesNext (c.toUInt8 :: rest) = isClose c := by
  have hnat := Utf8.toUInt8_toNat h
  have hspace : isAsciiWhitespace c.toUInt8 = false := by
    rw [Bool.eq_false_iff]
    intro hws
    simp only [isAsciiWhitespace, Bool.or_eq_true, decide_eq_true_eq] at hws
    rcases hws with (((heq | heq) | heq) | heq) | heq
    all_goals
      rw [heq] at hnat
      simp at hnat
      omega
  rw [closesNext_stop hspace, isClose, Bool.or_comm]
  simp only [toUInt8_eq h (show Utf8.isAscii '}' = true by decide),
    toUInt8_eq h (show Utf8.isAscii ']' = true by decide)]

/-- A byte of a character that is not ASCII stops it too, and does not close. -/
theorem closesNext_other {b : UInt8} (h : 128 ≤ b.toNat) : closesNext (b :: rest) = false := by
  have hspace : isAsciiWhitespace b = false := by
    rw [Bool.eq_false_iff]
    intro hws
    simp only [isAsciiWhitespace, Bool.or_eq_true, decide_eq_true_eq] at hws
    rcases hws with (((rfl | rfl) | rfl) | rfl) | rfl
    all_goals
      revert h
      decide
  rw [closesNext_stop hspace]
  have hbrace := byte_ne h (show Utf8.isAscii '}' = true by decide)
  have hbracket := byte_ne h (show Utf8.isAscii ']' = true by decide)
  simp [hbrace, hbracket]

theorem isClose_ascii {c : Char} (h : Utf8.isAscii c = false) : isClose c = false := by
  rw [Bool.eq_false_iff]
  intro hclose
  have hcases : c = ']' ∨ c = '}' := by simpa [isClose] using hclose
  rcases hcases with rfl | rfl
  · revert h
    decide
  · revert h
    decide

theorem word_low {c : Char} (h : isWord c = true) : 0x20 < c.toNat := by
  simp only [isWord, Char.isAlphanum, Char.isAlpha, Char.isUpper, Char.isLower, Char.isDigit, Bool.or_eq_true,
    Bool.and_eq_true, decide_eq_true_eq] at h
  have hle : ∀ e : Char, 0x20 < e.toNat → e ≤ c → 0x20 < c.toNat := fun e he h => lt_of_lt_of_le he h
  rcases h with (((((⟨h, -⟩ | ⟨h, -⟩) | ⟨h, -⟩) | rfl) | rfl) | rfl)
  · exact hle 'A' (by decide) h
  · exact hle 'a' (by decide) h
  · exact hle '0' (by decide) h
  · decide
  · decide
  · decide

/-- The look ahead from a comma, outside strings -/
theorem closesNext_text {is : List Item} (h : Plain is) : closesNext (Utf8.bytes (text is)) = closes is := by
  induction is with
  | nil => rfl
  | cons i is ih =>
    obtain ⟨hi, his⟩ := List.forall_mem_cons.1 h
    rw [text_cons]
    cases i with
    | blank c =>
      rw [Item.text, List.singleton_append, bytes_ascii_cons (blank_plain hi).1,
        closesNext_skip (isBlank_whitespace hi), ih his, closes]
    | punct c =>
      rw [Item.text, List.singleton_append, bytes_ascii_cons (punct_plain hi).1, closesNext_char (punct_plain hi).1,
        closes]
      rcases isPunct_cases hi with rfl | rfl | rfl | rfl | rfl | rfl <;> decide
    | word c =>
      rw [Item.text, List.singleton_append, bytes_ascii_cons (word_plain hi).1,
        closesNext_char (word_plain hi).1 (word_low hi)]
      have hcloses : closes (.word c :: is) = false := rfl
      rw [hcloses]
      have hpunct := (isWord_other hi).2.1
      rw [isPunct] at hpunct
      simp only [Bool.or_eq_false_iff] at hpunct
      exact hpunct.1.1.1.1
    | str ps =>
      rw [Item.text, List.cons_append, bytes_ascii_cons (by decide), closesNext_char (by decide) (by decide)]
      rfl
    | line body => cases hi
    | block body => cases hi

/-- and inside. -/
theorem closesNext_pieces {ps : List Piece} (h : ∀ p ∈ ps, p.Ok) :
    closesNext (Utf8.bytes (piecesText ps) ++ '"'.toUInt8 :: rest) = closesPieces ps := by
  induction ps with
  | nil => rfl
  | cons p ps ih =>
    obtain ⟨hp, hps⟩ := List.forall_mem_cons.1 h
    have hsplit : piecesText (p :: ps) = p.text ++ piecesText ps := rfl
    rw [hsplit]
    cases p with
    | plain c =>
      rw [Piece.text, List.singleton_append, closesPieces]
      by_cases hspace : c = ' '
      · rw [if_pos hspace, hspace, bytes_ascii_cons (by decide), List.cons_append, closesNext_skip (by decide), ih hps]
      · rw [if_neg hspace]
        cases hc : Utf8.isAscii c with
        | true =>
          rw [bytes_ascii_cons hc, List.cons_append, closesNext_char hc]
          refine lt_of_le_of_ne hp.1 fun heq => hspace ?_
          exact Char.toNat_inj.1 heq.symm
        | false =>
          obtain ⟨b, bs, hbytes⟩ := List.exists_cons_of_ne_nil (encode_ne_nil c)
          have hb : 128 ≤ b.toNat := Utf8.encode_other hc b (by rw [hbytes]; exact List.mem_cons_self)
          rw [Utf8.bytes_cons, hbytes, List.append_assoc, List.cons_append, closesNext_other hb, isClose_ascii hc]
    | escape c =>
      rw [Piece.text, List.cons_append, bytes_ascii_cons (by decide), List.cons_append,
        closesNext_char (by decide) (by decide)]
      rfl
    | code a b c d =>
      rw [Piece.text, List.cons_append, bytes_ascii_cons (by decide), List.cons_append,
        closesNext_char (by decide) (by decide)]
      rfl

/-- The last byte of a piece. -/
def lastByte (p : Piece) : Option UInt8 := (Utf8.bytes p.text).getLast?

theorem bytes_text_plain (c : Char) : Utf8.bytes (Piece.plain c).text = String.utf8EncodeChar c := by simp [Piece.text]

theorem lastByte_slash {p : Piece} (h : p.Ok) : lastByte p = some '\\'.toUInt8 ↔ p = .escape '\\' := by
  cases p with
  | plain c =>
    refine iff_of_false (fun hlast => ?_) (by simp)
    rw [lastByte, bytes_text_plain] at hlast
    exact encode_ne (by decide) h.2.2 _ (List.mem_of_getLast? hlast) rfl
  | escape c =>
    have hc := (escape_plain h).1
    rw [lastByte, Piece.text, bytes_ascii_cons (by decide), bytes_ascii_cons hc]
    simp [toUInt8_eq hc (show Utf8.isAscii '\\' = true by decide)]
  | code a b c d =>
    refine iff_of_false (fun hlast => ?_) (by simp)
    have hall := fun x hx => hex_plain (h x hx)
    have hascii : ∀ x ∈ [a, b, c, d], Utf8.isAscii x = true := fun x hx => (hall x hx).1
    rw [lastByte, Piece.text, bytes_ascii_cons (by decide), bytes_ascii_cons (by decide),
      Utf8.bytes_ascii hascii] at hlast
    have hd : d.toUInt8 = '\\'.toUInt8 := by simpa using hlast
    exact (hall d (by simp)).2.2.1 ((toUInt8_eq (hascii d (by simp)) (by decide)).1 hd)

/-- A piece is pushed, but for a comma that is taken for a trailing one. -/
theorem dropFrom_piece {p : Piece} (h : p.Ok) {more : List UInt8} :
    dropFrom prev inString (Utf8.bytes p.text ++ more) =
      if inString = false ∧ p = .plain ',' ∧ closesNext more = true then dropFrom (lastByte p) inString more
      else piecesText (mangle p) ++ dropFrom (lastByte p) inString more := by
  have hpush : ∀ (c : Char) (bs : List UInt8) (prev : Option UInt8), Utf8.isAscii c = true → c ≠ '"' → c ≠ ',' →
      dropFrom prev inString (c.toUInt8 :: bs) = c :: dropFrom (some c.toUInt8) inString bs := by
    intro c bs prev hc hquote hcomma
    rw [dropFrom_push (fun heq => hquote ((toUInt8_eq hc (by decide)).1 heq))
      (fun heq => hcomma ((toUInt8_eq hc (by decide)).1 heq)), asChar_ascii hc]
  cases p with
  | plain c =>
    obtain ⟨-, hquote, -⟩ := h
    rw [lastByte, bytes_text_plain]
    by_cases hcomma : c = ','
    · subst hcomma
      rw [Utf8.encode_ascii (by decide), List.singleton_append, dropFrom, mangle, Utf8.encode_ascii (by decide)]
      have hne : ','.toUInt8 ≠ '"'.toUInt8 := by decide
      simp only [hne, false_and, if_false, true_and]
      rfl
    · have hne : Piece.plain c ≠ .plain ',' := fun heq => hcomma (by injection heq)
      have hall : ∀ b ∈ String.utf8EncodeChar c, b ≠ '"'.toUInt8 ∧ b ≠ ','.toUInt8 := fun b hb =>
        ⟨encode_ne (by decide) hquote b hb, encode_ne (by decide) hcomma b hb⟩
      have hb := List.getLast?_eq_some_getLast (encode_ne_nil c)
      rw [if_neg fun hcond => hne hcond.2.1, dropFrom_pushAll hall, mangle, piecesText_plain, hb]
      rfl
  | escape c =>
    obtain ⟨hc, hcomma⟩ := escape_plain h
    rw [if_neg (by simp), lastByte, Piece.text, bytes_ascii_cons (by decide), bytes_ascii_cons hc, List.cons_append,
      List.cons_append, hpush _ _ _ (by decide) (by decide) (by decide), dropFrom]
    have hcomma' : c.toUInt8 ≠ ','.toUInt8 := fun heq => hcomma ((toUInt8_eq hc (by decide)).1 heq)
    simp only [ne_eq, not_true_eq_false, and_false, if_false, hcomma', false_and, asChar_ascii hc]
    rfl
  | code a b c d =>
    have hall := fun x hx => hex_plain (h x hx)
    have hascii : ∀ x ∈ [a, b, c, d], Utf8.isAscii x = true := fun x hx => (hall x hx).1
    have hplain : ∀ y ∈ Utf8.bytes [a, b, c, d], y ≠ '"'.toUInt8 ∧ y ≠ ','.toUInt8 := by
      intro y hy
      obtain ⟨x, hx, hyx⟩ := List.mem_flatMap.1 hy
      exact ⟨encode_ne (by decide) (hall x hx).2.1 y hyx, encode_ne (by decide) (hall x hx).2.2.2 y hyx⟩
    have hlast : (Utf8.bytes [a, b, c, d]).getLast? = some d.toUInt8 := by
      rw [Utf8.bytes_ascii hascii]
      rfl
    rw [if_neg (by simp), lastByte, Piece.text, bytes_ascii_cons (by decide), bytes_ascii_cons (by decide),
      List.cons_append, List.cons_append, hpush _ _ _ (by decide) (by decide) (by decide),
      hpush _ _ _ (by decide) (by decide) (by decide), dropFrom_pushAll hplain, map_asChar hascii, hlast, List.getLast?_cons,
      List.getLast?_cons, hlast]
    rfl

theorem cutPieces_cons (p : Piece) (ps : List Piece) : cutPieces (p :: ps) =
    if p = .plain ',' ∧ closesPieces ps = true then cutPieces ps else mangle p ++ cutPieces ps := by
  rw [cutPieces]
  simp only [Bool.and_eq_true, decide_eq_true_eq]

/-- The byte in front of the closing quote is a backslash. -/
def ended (prev : Option UInt8) (ps : List Piece) : Bool :=
  match ps.getLast? with
  | some p => p = .escape '\\'
  | none => prev = some '\\'.toUInt8

theorem ended_cons {p : Piece} (h : p.Ok) (ps : List Piece) : ended prev (p :: ps) = ended (lastByte p) ps := by
  rw [ended, ended]
  cases hps : ps.getLast? with
  | none =>
    rw [List.getLast?_eq_none_iff.1 hps]
    simp [lastByte_slash h]
  | some q =>
    rw [List.getLast?_cons, hps]
    rfl

/-- The second pass over a string, from behind its opening quote. -/
theorem dropFrom_pieces {ps : List Piece} (h : ∀ p ∈ ps, p.Ok) :
    dropFrom prev inString (Utf8.bytes (piecesText ps) ++ '"'.toUInt8 :: rest) =
      piecesText (if inString then ps.flatMap mangle else cutPieces ps) ++
        '"' :: dropFrom (some '"'.toUInt8) (if ended prev ps then inString else !inString) rest := by
  induction ps generalizing prev with
  | nil =>
    have hcomma : '"'.toUInt8 ≠ ','.toUInt8 := by decide
    rw [show Utf8.bytes (piecesText []) = [] from rfl, List.nil_append, dropFrom]
    simp only [true_and, hcomma, false_and, and_false, if_false, ended, List.getLast?_nil, List.flatMap_nil, cutPieces,
      ite_self, decide_eq_true_eq]
    by_cases hprev : prev = some '\\'.toUInt8
    · simp only [hprev, ne_eq, not_true_eq_false, if_false, if_true]
      rfl
    · simp only [hprev, ne_eq, not_false_eq_true, if_true, if_false]
      rfl
  | cons p ps ih =>
    obtain ⟨hp, hps⟩ := List.forall_mem_cons.1 h
    have hsplit : piecesText (p :: ps) = p.text ++ piecesText ps := rfl
    rw [hsplit, Utf8.bytes_append, List.append_assoc, dropFrom_piece hp, closesNext_pieces hps, ih hps, ended_cons hp]
    cases inString with
    | true => simp [piecesText_append]
    | false =>
      simp only [Bool.false_eq_true, if_false, true_and, cutPieces_cons]
      split
      · rfl
      · rw [piecesText_append, List.append_assoc]

/-- **The second pass**, item by item. -/
theorem dropFrom_text {is : List Item} (h : Plain is) (swapped : Bool) (hprev : prev ≠ some '\\'.toUInt8) :
    dropFrom prev swapped (Utf8.bytes (text is)) = text (trim swapped is) := by
  induction is generalizing prev swapped with
  | nil => rfl
  | cons i is ih =>
    obtain ⟨hi, his⟩ := List.forall_mem_cons.1 h
    have hsingle : ∀ c : Char, Utf8.isAscii c = true → c ≠ '"' → c ≠ ',' → c ≠ '\\' →
        dropFrom prev swapped (Utf8.bytes (c :: text is)) = c :: text (trim swapped is) := by
      intro c hc hquote hcomma hback
      have hne : ∀ e : Char, Utf8.isAscii e = true → c ≠ e → c.toUInt8 ≠ e.toUInt8 := fun e he hce heq =>
        hce ((toUInt8_eq hc he).1 heq)
      rw [bytes_ascii_cons hc, dropFrom_push (hne _ (by decide) hquote) (hne _ (by decide) hcomma), asChar_ascii hc,
        ih his swapped fun heq => hne _ (by decide) hback (Option.some.inj heq)]
    rw [text_cons]
    cases i with
    | blank c =>
      obtain ⟨hascii, hquote, -, hcomma⟩ := blank_plain hi
      refine hsingle c hascii hquote hcomma ?_
      rintro rfl
      have hblank : isBlank '\\' = true := hi
      exact absurd hblank (by decide)
    | word c =>
      obtain ⟨hascii, hquote, -, hcomma⟩ := word_plain hi
      refine hsingle c hascii hquote hcomma ?_
      rintro rfl
      have hword : isWord '\\' = true := hi
      exact absurd hword (by decide)
    | punct c =>
      rw [Item.text, List.singleton_append, trim]
      by_cases hcomma : c = ','
      · subst hcomma
        have hquote : ','.toUInt8 ≠ '"'.toUInt8 := by decide
        have hrest : dropFrom (some ','.toUInt8) swapped (Utf8.bytes (text is)) = text (trim swapped is) :=
          ih his swapped (by decide)
        rw [bytes_ascii_cons (by decide), dropFrom]
        simp only [hquote, false_and, if_false, true_and, closesNext_text his, hrest]
        split
        · rfl
        · rfl
      · rw [if_neg fun hcond => hcomma hcond.2.1]
        refine hsingle c (punct_plain hi).1 (punct_plain hi).2.1 hcomma ?_
        rintro rfl
        have hpunct : isPunct '\\' = true := hi
        exact absurd hpunct (by decide)
    | str ps =>
      have hcomma : '"'.toUInt8 ≠ ','.toUInt8 := by decide
      have hended : ended (some '"'.toUInt8) ps = endsSlash ps := by
        rw [ended, endsSlash]
        cases ps.getLast? with
        | none => rfl
        | some p => simp
      have hafter : dropFrom (some '"'.toUInt8) (swapped ^^ endsSlash ps) (Utf8.bytes (text is)) =
          text (trim (swapped ^^ endsSlash ps) is) := ih his _ (by decide)
      have hswap : (if endsSlash ps = true then !swapped else !!swapped) = (swapped ^^ endsSlash ps) := by
        cases endsSlash ps <;> cases swapped <;> rfl
      have hpieces : (if (!swapped) = true then ps.flatMap mangle else cutPieces ps) =
          if swapped = true then cutPieces ps else ps.flatMap mangle := by
        cases swapped <;> rfl
      rw [Item.text, List.cons_append, List.append_assoc, List.singleton_append, bytes_ascii_cons (by decide),
        Utf8.bytes_append, bytes_ascii_cons (by decide), dropFrom]
      simp only [true_and, hprev, ne_eq, not_false_eq_true, if_true, hcomma, false_and, and_false, if_false]
      rw [dropFrom_pieces hi, hended, hswap, hpieces, hafter, trim, text_cons, Item.text, asChar_ascii (by decide)]
      simp
    | line body => cases hi
    | block body => cases hi

end

/-! ## The outcome is a text of items -/

theorem asChar_toNat (b : UInt8) : (asChar b).toNat = b.toNat := by
  have hlt : b.toNat < 256 := b.toNat_lt
  rw [asChar, Char.toNat_ofNat, if_pos]
  exact .inl (by omega)

theorem ok_mangle {p : Piece} (h : p.Ok) : ∀ q ∈ mangle p, q.Ok := by
  cases p with
  | plain c =>
    intro q hq
    obtain ⟨b, hb, rfl⟩ := List.mem_map.1 hq
    cases hc : Utf8.isAscii c with
    | true =>
      rw [Utf8.encode_ascii hc, List.mem_singleton] at hb
      rw [hb, asChar_ascii hc]
      exact h
    | false =>
      have hlow := Utf8.encode_other hc b hb
      have hne : ∀ e : Char, e.toNat < 128 → asChar b ≠ e := by
        rintro e he rfl
        rw [asChar_toNat] at he
        omega
      refine ⟨?_, hne _ (by decide), hne _ (by decide)⟩
      rw [asChar_toNat]
      omega
  | escape c => simpa [mangle] using h
  | code a b c d => simpa [mangle] using h

theorem ok_mangleAll {ps : List Piece} (h : ∀ p ∈ ps, p.Ok) : ∀ q ∈ ps.flatMap mangle, q.Ok := by
  intro q hq
  obtain ⟨p, hp, hqp⟩ := List.mem_flatMap.1 hq
  exact ok_mangle (h p hp) q hqp

theorem ok_cut {ps : List Piece} (h : ∀ p ∈ ps, p.Ok) : ∀ q ∈ cutPieces ps, q.Ok := by
  induction ps with
  | nil => simp [cutPieces]
  | cons p ps ih =>
    obtain ⟨hp, hps⟩ := List.forall_mem_cons.1 h
    rw [cutPieces_cons]
    split
    · exact ih hps
    · intro q hq
      exact (List.mem_append.1 hq).elim (ok_mangle hp q) (ih hps q)

theorem plain_uncomment {inWord : Bool} {o d : List Item} (h : Decorates inWord o d) (ho : Plain o) :
    Plain (uncomment d) := by
  induction h with
  | nil => exact ho
  | @keep _ i o d _ ih =>
    obtain ⟨hi, hrest⟩ := List.forall_mem_cons.1 ho
    cases i with
    | blank c => exact (ih hrest).cons hi
    | punct c => exact (ih hrest).cons hi
    | word c => exact (ih hrest).cons hi
    | str ps => exact (ih hrest).cons (ok_mangleAll hi)
    | line body => cases hi
    | block body => cases hi
  | block _ _ ih => exact ih ho
  | line _ _ _ ih => exact ih ho
  | blank hblank _ _ ih => exact (ih ho).cons hblank
  | comma _ _ ih =>
    have hcomma : isPunct ',' = true := by decide
    exact (ih ho).cons hcomma

theorem plain_trim {is : List Item} (h : Plain is) (swapped : Bool) : Plain (trim swapped is) := by
  induction is generalizing swapped with
  | nil => exact h
  | cons i is ih =>
    obtain ⟨hi, his⟩ := List.forall_mem_cons.1 h
    cases i with
    | blank c => exact (ih his swapped).cons hi
    | word c => exact (ih his swapped).cons hi
    | punct c =>
      rw [trim]
      split
      · exact ih his swapped
      · exact (ih his swapped).cons hi
    | str ps =>
      rw [trim]
      refine (ih his _).cons ?_
      cases swapped with
      | true => exact ok_cut hi
      | false => exact ok_mangleAll hi
    | line body => cases hi
    | block body => cases hi

/-- **Both passes**, item by item. -/
theorem stripJsonExtras_text {inWord : Bool} {o d : List Item} (h : Decorates inWord o d) (ho : Plain o) :
    stripJsonExtras (text d) = text (trim false (uncomment d)) := by
  rw [stripJsonExtras, strip_text h ho, dropTrailingCommas]
  exact dropFrom_text (plain_uncomment h ho) false (by simp)

/-! ## Strings -/

theorem closes_uncomment (is : List Item) : closes (uncomment is) = closes is := by
  induction is with
  | nil => rfl
  | cons i is ih =>
    cases i with
    | blank c => exact ih
    | punct c => rfl
    | word c => rfl
    | str ps => rfl
    | line body => exact ih
    | block body => exact ih

theorem endsSlash_mangle (ps : List Piece) : endsSlash (ps.flatMap mangle) = endsSlash ps := by
  rcases List.eq_nil_or_concat' ps with rfl | ⟨ps, p, rfl⟩
  · rfl
  · rw [endsSlash, endsSlash, List.getLast?_concat, List.flatMap_append, List.flatMap_singleton]
    cases p with
    | plain c =>
      have hne : mangle (.plain c) ≠ [] := fun h => encode_ne_nil c (List.map_eq_nil_iff.1 h)
      rw [List.getLast?_append_of_ne_nil _ hne, List.getLast?_eq_some_getLast hne]
      obtain ⟨b, -, hb⟩ := List.mem_map.1 (List.getLast_mem hne)
      rw [← hb]
      simp
    | escape c =>
      have hsame : mangle (.escape c) = [.escape c] := rfl
      rw [hsame, List.getLast?_concat]
    | code a b c d =>
      have hsame : mangle (.code a b c d) = [.code a b c d] := rfl
      rw [hsame, List.getLast?_concat]

/-- The code units that are not ASCII. -/
def high (us : List Nat) : Nat := us.countP (128 ≤ ·)

theorem high_append (us vs : List Nat) : high (us ++ vs) = high us + high vs := List.countP_append

theorem high_all {us : List Nat} (h : ∀ u ∈ us, 128 ≤ u) : high us = us.length :=
  List.countP_eq_length.2 fun u hu => decide_eq_true (h u hu)

theorem piecesUnits_append (ps qs : List Piece) : piecesUnits (ps ++ qs) = piecesUnits ps ++ piecesUnits qs :=
  List.flatMap_append

theorem mangle_ascii {p : Piece} (h : isAsciiPiece p = true) : mangle p = [p] := by
  cases p with
  | plain c =>
    have hc : Utf8.isAscii c = true := h
    rw [mangle, Utf8.encode_ascii hc, List.map_singleton, asChar_ascii hc]
  | escape c => rfl
  | code a b c d => rfl

theorem mangleAll_ascii {ps : List Piece} (h : ∀ p ∈ ps, isAsciiPiece p = true) : ps.flatMap mangle = ps := by
  induction ps with
  | nil => rfl
  | cons p ps ih =>
    obtain ⟨hp, hps⟩ := List.forall_mem_cons.1 h
    rw [List.flatMap_cons, mangle_ascii hp, ih hps]
    rfl

theorem utf16_other {c : Char} (h : Utf8.isAscii c = false) :
    (∀ u ∈ utf16 c, 128 ≤ u) ∧ (utf16 c).length < (String.utf8EncodeChar c).length := by
  have hlow : 128 ≤ c.toNat := Nat.not_lt.1 (of_decide_eq_false h)
  have hsize : c.utf8Size =
      if c.toNat ≤ 0x7f then 1 else if c.toNat ≤ 0x7ff then 2 else if c.toNat ≤ 0xffff then 3 else 4 := rfl
  rw [if_neg (by omega)] at hsize
  rw [String.length_utf8EncodeChar, hsize, utf16]
  by_cases hshort : c.toNat < 0x10000
  · rw [if_pos hshort, if_pos (show c.toNat ≤ 0xffff by omega)]
    refine ⟨by simpa using hlow, ?_⟩
    split
    · simp
    · simp
  · rw [if_neg hshort, if_neg (show ¬c.toNat ≤ 0x7ff by omega), if_neg (show ¬c.toNat ≤ 0xffff by omega)]
    refine ⟨fun u hu => ?_, show 2 < 4 by omega⟩
    simp only [List.mem_cons, List.not_mem_nil, or_false] at hu
    omega

/-- A character for each byte is more than the character was. -/
theorem high_mangle (p : Piece) : high p.units ≤ high (piecesUnits (mangle p)) ∧
    (isAsciiPiece p = false → high p.units < high (piecesUnits (mangle p))) := by
  cases hp : isAsciiPiece p with
  | true =>
    rw [mangle_ascii hp]
    simp [piecesUnits]
  | false =>
    have hlt : high p.units < high (piecesUnits (mangle p)) := by
      cases p with
      | escape c => cases hp
      | code a b c d => cases hp
      | plain c =>
        obtain ⟨hunits, hlen⟩ := utf16_other hp
        have hbytes : ∀ bs : List UInt8, (∀ b ∈ bs, 128 ≤ b.toNat) →
            high (piecesUnits (bs.map fun b => .plain (asChar b))) = bs.length := by
          intro bs
          induction bs with
          | nil => exact fun _ => rfl
          | cons b bs ih =>
            intro hall
            obtain ⟨hb, hbs⟩ := List.forall_mem_cons.1 hall
            have hlt := b.toNat_lt
            have hunit : (Piece.plain (asChar b)).units = [b.toNat] := by
              rw [Piece.units, utf16, asChar_toNat, if_pos (by omega)]
            have hsplit : piecesUnits (((b :: bs).map fun b => Piece.plain (asChar b))) =
                [b.toNat] ++ piecesUnits (bs.map fun b => .plain (asChar b)) := by
              rw [← hunit]
              rfl
            rw [hsplit, high_append, ih hbs, high_all (by simpa using hb)]
            simp only [List.length_cons, List.length_nil]
            omega
        rw [mangle, hbytes _ (Utf8.encode_other hp), Piece.units, high_all hunits]
        exact hlen
    exact ⟨hlt.le, fun _ => hlt⟩

theorem high_mangleAll (ps : List Piece) : high (piecesUnits ps) ≤ high (piecesUnits (ps.flatMap mangle)) ∧
    ((∃ p ∈ ps, isAsciiPiece p = false) → high (piecesUnits ps) < high (piecesUnits (ps.flatMap mangle))) := by
  induction ps with
  | nil => simp
  | cons p ps ih =>
    obtain ⟨hple, hplt⟩ := high_mangle p
    have hsplit : piecesUnits (p :: ps) = p.units ++ piecesUnits ps := rfl
    rw [hsplit, List.flatMap_cons, piecesUnits_append, high_append, high_append]
    refine ⟨by omega, ?_⟩
    rintro ⟨q, hq, hother⟩
    rcases List.mem_cons.1 hq with rfl | hq
    · have := hplt hother
      omega
    · have := ih.2 ⟨q, hq, hother⟩
      omega

theorem high_cut (ps : List Piece) : high (piecesUnits (cutPieces ps)) = high (piecesUnits (ps.flatMap mangle)) := by
  induction ps with
  | nil => rfl
  | cons p ps ih =>
    rw [cutPieces_cons, List.flatMap_cons, piecesUnits_append, high_append]
    split
    · rename_i hcomma
      rw [hcomma.1, ih, mangle_ascii (by decide)]
      simp [piecesUnits, Piece.units, high, utf16]
    · rw [piecesUnits_append, high_append, ih]

theorem cut_of_not_drops {ps : List Piece} (h : drops ps = false) : cutPieces ps = ps.flatMap mangle := by
  induction ps with
  | nil => rfl
  | cons p ps ih =>
    rw [drops, Bool.or_eq_false_iff] at h
    rw [cutPieces, h.1, ih h.2]
    rfl

/-- A comma less is a code unit less. -/
theorem length_cut {ps : List Piece} (h : ∀ p ∈ ps, isAsciiPiece p = true) :
    (piecesUnits (cutPieces ps)).length ≤ (piecesUnits ps).length ∧
      (drops ps = true → (piecesUnits (cutPieces ps)).length < (piecesUnits ps).length) := by
  induction ps with
  | nil => simp [cutPieces, drops]
  | cons p ps ih =>
    obtain ⟨hp, hps⟩ := List.forall_mem_cons.1 h
    have hsplit : piecesUnits (p :: ps) = p.units ++ piecesUnits ps := rfl
    have hmore := ih hps
    rw [cutPieces, drops, hsplit, List.length_append]
    cases hcond : p = .plain ',' && closesPieces ps with
    | true =>
      have hcomma : p = .plain ',' := by simpa using (Bool.and_eq_true_iff.1 hcond).1
      have hone : (Piece.plain ',').units.length = 1 := by decide
      rw [if_pos rfl, hcomma, hone]
      exact ⟨by omega, fun _ => by omega⟩
    | false =>
      have hunits : (piecesUnits [p]).length = p.units.length := by simp [piecesUnits]
      rw [if_neg Bool.false_ne_true, mangle_ascii hp, piecesUnits_append, List.length_append, hunits, Bool.false_or]
      exact ⟨by omega, fun hdrops => by have := hmore.2 hdrops; omega⟩

/-- **A string comes through** iff it is ASCII and loses no comma. -/
theorem units_kept (ps : List Piece) (swapped : Bool) :
    piecesUnits (if swapped then cutPieces (ps.flatMap mangle) else (ps.flatMap mangle).flatMap mangle) =
      piecesUnits ps ↔ (∀ p ∈ ps, isAsciiPiece p = true) ∧ (swapped = true → drops ps = false) := by
  constructor
  · intro h
    have hhigh : high (piecesUnits ((ps.flatMap mangle).flatMap mangle)) = high (piecesUnits ps) := by
      rw [← h]
      cases swapped with
      | true => exact (high_cut _).symm
      | false => rfl
    have hascii : ∀ p ∈ ps, isAsciiPiece p = true := by
      by_contra hnot
      have hother : ∃ p ∈ ps, isAsciiPiece p = false := by simpa using hnot
      have hfirst := (high_mangleAll ps).2 hother
      have hsecond := (high_mangleAll (ps.flatMap mangle)).1
      omega
    refine ⟨hascii, ?_⟩
    rintro rfl
    rw [if_pos rfl, mangleAll_ascii hascii] at h
    by_contra hdrops
    have hlt := (length_cut hascii).2 (by simpa using hdrops)
    rw [h] at hlt
    exact lt_irrefl _ hlt
  · rintro ⟨hascii, hdrops⟩
    rw [mangleAll_ascii hascii, mangleAll_ascii hascii]
    cases swapped with
    | true => rw [if_pos rfl, cut_of_not_drops (hdrops rfl), mangleAll_ascii hascii]
    | false => rfl

/-! ## Tokens -/

section
variable {inWord : Bool} {o d : List Item} {word : Text}

theorem Decorates.closes (h : Decorates inWord o d) (hclose : closes d = true) : closes o = true := by
  induction h with
  | nil => exact hclose
  | @keep _ i o d _ ih =>
    cases i with
    | blank c => exact ih hclose
    | punct c => exact hclose
    | word c => exact hclose
    | str ps => exact hclose
    | line body => exact ih hclose
    | block body => exact ih hclose
  | block _ _ ih => exact ih hclose
  | line _ _ _ ih => exact ih hclose
  | blank _ _ _ ih => exact ih hclose
  | comma _ _ _ =>
    have hopen : isClose ',' = true := hclose
    exact absurd hopen (by decide)

/-- The closing bracket is the next token. -/
theorem closes_tokens (ho : Plain o) (hclose : closes o = true) :
    ∃ x rest, tokensFrom word o = flush word ++ x :: rest ∧ x.Closes := by
  induction o generalizing word with
  | nil => cases hclose
  | cons i o ih =>
    obtain ⟨hi, hrest⟩ := List.forall_mem_cons.1 ho
    cases i with
    | blank c =>
      obtain ⟨x, rest, htokens, hx⟩ := @ih [] hrest hclose
      exact ⟨x, rest, by rw [tokensFrom, htokens]; rfl, hx⟩
    | punct c => exact ⟨.punct c, tokensFrom [] o, rfl, c, rfl, hclose⟩
    | word c => cases hclose
    | str ps => cases hclose
    | line body => cases hi
    | block body => cases hi

/-- A word ends where the text goes on with something else. -/
theorem tokens_flush (ho : Plain o) (hstart : startsWord o = false) :
    tokensFrom word o = flush word ++ tokensFrom [] o := by
  cases o with
  | nil => simp [tokensFrom, flush]
  | cons i o =>
    have hi := ho i List.mem_cons_self
    cases i with
    | blank c => simp [tokensFrom, flush]
    | punct c => simp [tokensFrom, flush]
    | str ps => simp [tokensFrom, flush]
    | word c => cases hstart
    | line body => cases hi
    | block body => cases hi

theorem noTrailing_append {ts us : List Token} (h : NoTrailing (ts ++ us)) : NoTrailing us :=
  (List.isChain_append.1 h).2.1

/-- **The tokens come through** iff all is kept. -/
theorem tokens_trim (h : Decorates inWord o d) (ho : Plain o) (swapped : Bool) (word : Text)
    (hword : inWord = false → word = []) (htrailing : NoTrailing (tokensFrom word o)) :
    tokensFrom word (trim swapped (uncomment d)) = tokensFrom word o ↔ Kept swapped d := by
  induction h generalizing swapped word with
  | nil => exact iff_of_true rfl trivial
  | @keep _ i o d h ih =>
    obtain ⟨hi, hos⟩ := List.forall_mem_cons.1 ho
    cases i with
    | blank c =>
      rw [tokensFrom] at htrailing
      have hrest := ih hos swapped [] (fun _ => rfl) (noTrailing_append htrailing)
      have htrim : trim swapped (uncomment (.blank c :: d)) = .blank c :: trim swapped (uncomment d) := rfl
      rw [htrim, tokensFrom, tokensFrom, List.append_cancel_left_eq, hrest]
      exact Iff.rfl
    | word c =>
      rw [tokensFrom] at htrailing
      have hrest := ih hos swapped (word ++ [c]) (fun h => by cases h) htrailing
      have htrim : trim swapped (uncomment (.word c :: d)) = .word c :: trim swapped (uncomment d) := rfl
      rw [htrim, tokensFrom, tokensFrom, hrest]
      exact Iff.rfl
    | punct c =>
      rw [tokensFrom] at htrailing
      have hbehind := List.isChain_cons.1 (noTrailing_append htrailing)
      have hrest := ih hos swapped [] (fun _ => rfl) hbehind.2
      -- a comma of the text itself is not in front of a bracket
      have hopen : c = ',' → closes d = false := by
        rintro rfl
        rw [Bool.eq_false_iff]
        intro hclose
        obtain ⟨x, rest, htokens, hx⟩ := @closes_tokens o [] hos (h.closes hclose)
        exact hbehind.1 x (by rw [htokens]; rfl) rfl hx
      have hkeep : ¬(swapped = false ∧ c = ',' ∧ closes (uncomment d) = true) := by
        rintro ⟨-, hcomma, hclose⟩
        rw [closes_uncomment, hopen hcomma] at hclose
        cases hclose
      have hkept : Kept swapped (.punct c :: d) ↔ Kept swapped d := and_iff_right fun _ => hopen
      have huncomment : uncomment (.punct c :: d) = .punct c :: uncomment d := rfl
      rw [huncomment, trim, if_neg hkeep, tokensFrom, tokensFrom, List.append_cancel_left_eq, List.cons.injEq,
        hrest, hkept]
      exact and_iff_right rfl
    | str ps =>
      rw [tokensFrom] at htrailing
      have hbehind := List.isChain_cons.1 (noTrailing_append htrailing)
      have hrest := ih hos (swapped ^^ endsSlash ps) [] (fun _ => rfl) hbehind.2
      have hkept : Kept swapped (.str ps :: d) ↔ ((∀ p ∈ ps, isAsciiPiece p = true) ∧
          (swapped = true → drops ps = false)) ∧ Kept (swapped ^^ endsSlash ps) d := and_assoc.symm
      have huncomment : uncomment (.str ps :: d) = .str (ps.flatMap mangle) :: uncomment d := rfl
      rw [huncomment, trim, endsSlash_mangle, tokensFrom, tokensFrom, List.append_cancel_left_eq, List.cons.injEq,
        hrest, Token.str.injEq, units_kept, hkept]
    | line body => cases hi
    | block body => cases hi
  | block _ _ ih => exact ih ho swapped word hword htrailing
  | line _ _ _ ih => exact ih ho swapped word hword htrailing
  | @blank inWord c o d _ hstart _ ih =>
    have hflush : tokensFrom word o = flush word ++ tokensFrom [] o := by
      cases inWord with
      | true => exact tokens_flush ho (hstart rfl)
      | false =>
        rw [hword rfl]
        rfl
    rw [hflush] at htrailing
    have hrest := ih ho swapped [] (fun _ => rfl) (noTrailing_append htrailing)
    have htrim : trim swapped (uncomment (.blank c :: d)) = .blank c :: trim swapped (uncomment d) := rfl
    rw [hflush, htrim, tokensFrom, List.append_cancel_left_eq, hrest]
    exact Iff.rfl
  | @comma _ o d hclose h ih =>
    have hrest := ih ho swapped word hword htrailing
    have huncomment : uncomment (.punct ',' :: d) = .punct ',' :: uncomment d := rfl
    cases swapped with
    | false =>
      have hkept : Kept false (.punct ',' :: d) ↔ Kept false d := and_iff_right fun h => by cases h
      rw [huncomment, trim, if_pos ⟨rfl, rfl, by rw [closes_uncomment, hclose]⟩, hrest, hkept]
    | true =>
      refine iff_of_false (fun heq => ?_) fun hkept => ?_
      · -- the comma is still there, where a closing bracket should be
        obtain ⟨x, rest, htokens, hx⟩ := @closes_tokens o word ho (h.closes hclose)
        rw [huncomment, trim, if_neg fun hcond => Bool.noConfusion hcond.1, htokens, tokensFrom,
          List.append_cancel_left_eq, List.cons.injEq] at heq
        rw [← heq.1] at hx
        exact not_closes_punct (by decide) hx
      · have hopen := hkept.1 rfl rfl
        rw [hclose] at hopen
        cases hopen

end

/-- **JSON with comments and trailing commas.** Of a text that is one of a value, with any of them put in, the passes
make one of the same value iff all is kept. -/
theorem stripJsonExtras_iff {t : Text} {v : Value} (h : Parses t v) : (∃ o, Plain o ∧ text o = t) ∧
    ∀ o d, Plain o → text o = t → Decorates false o d → (Parses (stripJsonExtras (text d)) v ↔ Kept false d) := by
  refine ⟨exists_items h, ?_⟩
  rintro o d ho rfl hd
  rw [Parses, scan_text ho, Option.some.injEq] at h
  have htrailing : NoTrailing (tokensFrom [] o) := by
    rw [h]
    exact noTrailing_spell v
  rw [Parses, stripJsonExtras_text hd ho, scan_text (plain_trim (plain_uncomment hd ho) false), Option.some.injEq, ← h]
  exact tokens_trim hd ho false [] (fun _ => rfl) htrailing

theorem Decorates.refl (inWord : Bool) (o : List Item) : Decorates inWord o o := by
  induction o generalizing inWord with
  | nil => exact .nil _
  | cons i o ih => exact .keep (ih _)

def one : Value := .scalar ⟨"1".toList, by decide⟩

/-- `[1]` with a comment and a trailing comma. -/
theorem stripJsonExtras_one : Parses (stripJsonExtras "[1,//]\n]".toList) (.arr [one]) := by
  have hparses : Parses "[1]".toList (.arr [one]) := by
    simp only [Parses, spell, spellItems, spellMoreItems, one]
    decide +kernel
  have hplain : Plain [.punct '[', .word '1', .punct ']'] := by simp [Plain, Item.Plain, isPunct, isClose, isWord]
  have hdecorates : Decorates false [.punct '[', .word '1', .punct ']']
      [.punct '[', .word '1', .punct ',', .line "]".toList, .blank '\n', .punct ']'] := by
    refine .keep (.keep (.comma (by decide) (.line (by decide) (.inr ⟨_, rfl⟩) (.blank (by decide) ?_ ?_))))
    · exact fun _ => rfl
    · exact .refl _ _
  exact ((stripJsonExtras_iff hparses).2 _ _ hplain rfl hdecorates).2 (by simp [Kept])

/-- `["\\",1]` -/
def slashed : List Item := [.punct '[', .str [.escape '\\'], .punct ',', .word '1', .punct ']']

/-- `["\\",1,]` -/
def slashedComma : List Item :=
  [.punct '[', .str [.escape '\\'], .punct ',', .word '1', .punct ',', .punct ']']

/-- Behind `"\\"` a trailing comma stays, and a comma in a string goes with nothing put in at all. A letter with an
accent becomes others in any string. -/
theorem extras_spoil :
    (Parses (text slashed) (.arr [.str [0x5c], one]) ∧ Decorates false slashed slashedComma ∧
      stripJsonExtras (text slashedComma) = text slashedComma ∧
      ¬Parses (stripJsonExtras (text slashedComma)) (.arr [.str [0x5c], one])) ∧
    (Parses "[\"\\\\\",\",]\"]".toList (.arr [.str [0x5c], .str [0x2c, 0x5d]]) ∧
      stripJsonExtras "[\"\\\\\",\",]\"]".toList = "[\"\\\\\",\"]\"]".toList ∧
      ¬Parses (stripJsonExtras "[\"\\\\\",\",]\"]".toList) (.arr [.str [0x5c], .str [0x2c, 0x5d]])) ∧
    (Parses "[\"é\"]".toList (.arr [.str [0xe9]]) ∧
      ¬Parses (stripJsonExtras "[\"é\"]".toList) (.arr [.str [0xe9]])) := by
  simp only [Parses, spell, spellItems, spellMoreItems, one]
  refine ⟨⟨by decide +kernel, ?_, by decide +kernel, by decide +kernel⟩, ⟨by decide +kernel, by decide +kernel,
    by decide +kernel⟩, by decide +kernel, by decide +kernel⟩
  exact .keep (.keep (.keep (.keep (.comma (by decide) (.refl _ _)))))

end HafleyScm.JsonExtras
