import HafleyRs.Lib.Loop
import HafleyRs.Lib.Utf8

/-!
# The query scanner (`crates/hafley_scm/src/scmpp/_1_parens.rs`)

| here | there |
| --- | --- |
| `Text`, `Bytes` | `&str`, and its `as_bytes` |
| `Run` | `Result<_, ScmppError>`, or a panic, or a loop that has not ended |
| `skipWhile` | the loops `while i < end && p(bytes[i]) { i += 1 }` |
| `afterString`, `afterComment`, `afterGroup` | 34, 46, 54 |
| `pred` | 108; `predStep` is the body of its loop, as `cutStep`, `topStep`, `itemsStep` and the rest are of theirs |
| `split`, `cut`, `topItems`, `items`, `rootOf` | 172, 183, 233, 276, 313 |

A slice that is out of range or not between characters is a panic; so is an `unwrap` of nothing. Offsets do not reach
the end of `usize`, as no text does.
-/

namespace HafleyScm.Parens
open Loop

abbrev Text := List Char

abbrev Bytes := List UInt8

inductive Stop where
  | syntaxError (offset : Nat) (message : Text)
  | panic
  | diverge
deriving DecidableEq, Repr

abbrev Run := Except Stop

inductive Arg where
  | capture (name : Text)
  | word (text : Text)
  | str (text : Text)
  /-- A balanced argument and its byte offset in the whole query. -/
  | group (text : Text) (offset : Nat)
  | key (name : Text)
deriving DecidableEq, Repr

structure Pred where
  op     : Text
  text   : Text
  args   : List Arg
  offset : Nat
deriving DecidableEq, Repr

structure LevelText where
  root     : Text
  captures : List Text
  preds    : List Pred
deriving DecidableEq, Repr

def fail {α : Type} (offset : Nat) (message : String) : Run α := .error (.syntaxError offset message.toList)

/-! ## Bytes and characters -/

def byte (c : Char) : UInt8 := c.toUInt8

/-- `u8::is_ascii_whitespace` -/
def isAsciiWhitespace (b : UInt8) : Bool :=
  b = byte ' ' || b = byte '\t' || b = byte '\n' || b.toNat = 0x0c || b = byte '\r'

def nameChar (b : UInt8) : Bool :=
  (byte 'a' ≤ b && b ≤ byte 'z') || (byte 'A' ≤ b && b ≤ byte 'Z') || (byte '0' ≤ b && b ≤ byte '9') ||
    b = byte '_' || b = byte '-' || b = byte '.'

def wordChar (b : UInt8) : Bool :=
  !isAsciiWhitespace b && !(b = byte '(' || b = byte ')' || b = byte '[' || b = byte ']' || b = byte '"' ||
    b = byte ';' || b = byte '@')

/-- `char::is_whitespace` -/
def isWhitespace (c : Char) : Bool :=
  let n := c.toNat
  (9 ≤ n && n ≤ 13) || n = 0x20 || n = 0x85 || n = 0xa0 || n = 0x1680 || (0x2000 ≤ n && n ≤ 0x200a) ||
    n = 0x2028 || n = 0x2029 || n = 0x202f || n = 0x205f || n = 0x3000

def trimStart (t : Text) : Text := t.dropWhile isWhitespace

def trimEnd (t : Text) : Text := t.rdropWhile isWhitespace

def trim (t : Text) : Text := trimEnd (trimStart t)

def unescape : Text → Text
  | '\\' :: 'n' :: t => '\n' :: unescape t
  | '\\' :: 't' :: t => '\t' :: unescape t
  | '\\' :: 'r' :: t => '\r' :: unescape t
  | '\\' :: '0' :: t => '\x00' :: unescape t
  | '\\' :: c :: t => c :: unescape t
  | ['\\'] => []
  | c :: t => c :: unescape t
  | [] => []

/-- `str::split_once(':')` -/
def splitColon : Text → Option (Text × Text)
  | [] => none
  | c :: t => if c = ':' then some ([], t) else (splitColon t).map fun x => (c :: x.1, x.2)

/-- `&text[i..j]` -/
def slice (text : Text) (i j : Nat) : Run Text :=
  match Utf8.slice text i j with
  | some t => .ok t
  | none => .error .panic

/-- `&text[i..]` -/
def sliceFrom (text : Text) (i : Nat) : Run Text := slice text i (Utf8.bytes text).length

def skipWhile (p : UInt8 → Bool) (bytes : Bytes) (i stop : Nat) : Nat :=
  i + (((bytes.take stop).drop i).takeWhile p).length

/-! ## Strings, comments, groups -/

section
variable (fuel : Nat)

def afterString (text : Bytes) (start base : Nat) : Run Nat :=
  loop .diverge (fun i =>
    match text[i]? with
    | none => fail (base + start) "unterminated string"
    | some b =>
      if b = byte '\\' then .ok (.next (i + 2))
      else if b = byte '"' then .ok (.done (i + 1))
      else .ok (.next (i + 1))) fuel (start + 1)

def afterComment (text : Bytes) (start : Nat) : Run Nat :=
  if text.length < start then .error .panic
  else .ok (((text.drop start).findIdx? (· = byte '\n')).elim text.length (start + ·))

def groupStep (text : Bytes) (start base : Nat) (s : Nat × Nat) : Run (Turn (Nat × Nat) Nat) :=
  match text[s.1]? with
  | none => fail (base + start) "unbalanced open"
  | some b =>
    if b = byte '"' then (afterString fuel text s.1 base).map fun i => .next (i, s.2)
    else if b = byte ';' then (afterComment text s.1).map fun i => .next (i, s.2)
    else if b = byte '(' || b = byte '[' then .ok (.next (s.1 + 1, s.2 + 1))
    else if b = byte ')' || b = byte ']' then
      match s.2 with
      | 0 => fail (base + s.1) "unbalanced close"
      | 1 => .ok (.done (s.1 + 1))
      | depth + 2 => .ok (.next (s.1 + 1, depth + 1))
    else .ok (.next (s.1 + 1, s.2))

def afterGroup (text : Bytes) (start base : Nat) : Run Nat :=
  loop .diverge (groupStep fuel text start base) fuel (start, 0)

/-! ## Predicates -/

def predStep (text : Text) (base : Nat) (s : Nat × List Arg) : Run (Turn (Nat × List Arg) (List Arg)) :=
  let bytes := Utf8.bytes text
  let stop := bytes.length - 1
  let i := s.1
  let args := s.2
  if stop ≤ i then .ok (.done args)
  else
    match bytes[i]? with
    | none => .error .panic
    | some b =>
      if isAsciiWhitespace b then .ok (.next (i + 1, args))
      else if b = byte ';' then (afterComment bytes i).map fun i => .next (i, args)
      else if b = byte '@' then do
        let after := skipWhile nameChar bytes (i + 1) stop
        let name ← slice text (i + 1) after
        return .next (after, args ++ [.capture name])
      else if b = byte '"' then do
        let after ← afterString fuel bytes i base
        let raw ← slice text (i + 1) (after - 1)
        return .next (after, args ++ [.str (unescape raw)])
      else if b = byte '(' || b = byte '[' then do
        let after ← afterGroup fuel bytes i base
        let group ← slice text i after
        return .next (after, args ++ [.group group (base + i)])
      else if b = byte ')' || b = byte ']' then fail (base + i) "unbalanced close in predicate"
      else do
        let after := skipWhile wordChar bytes i stop
        let token ← slice text i after
        return .next (after, args ++
          match splitColon token with
          | some (key, rest) => .key key :: (if rest.isEmpty then [] else [.word rest])
          | none => [.word token])

def pred (text : Text) (base : Nat) : Run Pred := do
  let bytes := Utf8.bytes text
  match bytes.findIdx? (· = byte '#') with
  | none => .error .panic
  | some hash =>
    let i := skipWhile wordChar bytes (hash + 1) bytes.length
    let op ← slice text (hash + 1) i
    let args ← loop .diverge (predStep fuel text base) fuel (i, [])
    return { op, text, args, offset := base }

/-! ## One level -/

structure CutState where
  i        : Nat
  root     : Text
  captures : List Text
  preds    : List Pred
deriving DecidableEq, Repr

/-- `b'(' if text[i + 1..].trim_start().starts_with('#')` -/
def opensPred (text : Text) (i : Nat) (b : UInt8) : Run Bool :=
  if b = byte '(' then (sliceFrom text (i + 1)).map fun t => decide ((trimStart t).head? = some '#') else .ok false

def cutStep (text : Text) (base : Nat) (s : CutState) : Run (Turn CutState (Text × List Text × List Pred)) :=
  let bytes := Utf8.bytes text
  let i := s.i
  match bytes[i]? with
  | none => .ok (.done (s.root, s.captures, s.preds))
  | some b => do
    if b = byte '"' then
      let after ← afterString fuel bytes i base
      let literal ← slice text i after
      return .next { s with i := after, root := s.root ++ literal }
    else if b = byte ';' then
      let after ← afterComment bytes i
      return .next { s with i := after }
    else
      if (← opensPred text i b) then
        let after ← afterGroup fuel bytes i base
        let group ← slice text i after
        let found ← pred fuel group (base + i)
        let root := trimEnd s.root
        let atEnd := bytes[after]?.all fun b => b = byte ')' || b = byte ']'
        return .next { s with
          i := after
          root := if atEnd then root else root ++ [' ']
          preds := s.preds ++ [found] }
      else if b = byte '@' then
        let after := skipWhile nameChar bytes (i + 1) bytes.length
        let name ← slice text (i + 1) after
        return .next { s with
          i := after
          root := s.root ++ '@' :: name
          captures := if s.captures.contains name then s.captures else s.captures ++ [name] }
      else
        match (← sliceFrom text i) with
        | [] => .error .panic
        | c :: _ => return .next { s with i := i + c.utf8Size, root := s.root ++ [c] }

def cut (text : Text) (base : Nat) : Run (Text × List Text × List Pred) :=
  loop .diverge (cutStep fuel text base) fuel ⟨0, [], [], []⟩

/-! ## Items -/

structure TopState where
  i      : Nat
  found  : List (Nat × Nat)
  attach : Bool
deriving DecidableEq, Repr

/-- `last.end = i` -/
def extendLast (found : List (Nat × Nat)) (i : Nat) : List (Nat × Nat) :=
  match found.getLast? with
  | none => found
  | some last => found.dropLast ++ [(last.1, i)]

def isPostfix (b : UInt8) : Bool := b = byte '*' || b = byte '+' || b = byte '?'

/-- Where the piece that starts here ends. -/
def topEnd (bytes : Bytes) (start : Nat) (attach : Bool) (b : UInt8) : Run Nat :=
  if isPostfix b && attach then .ok (start + 1)
  else if b = byte '@' && attach then .ok (skipWhile nameChar bytes (start + 1) bytes.length)
  else if b = byte '"' then afterString fuel bytes start 0
  else if b = byte '(' || b = byte '[' then afterGroup fuel bytes start 0
  else if b = byte ')' || b = byte ']' then fail start "unbalanced close"
  else .ok (max (skipWhile wordChar bytes start bytes.length) (start + 1))

def topStep (bytes : Bytes) (s : TopState) : Run (Turn TopState (List (Nat × Nat))) :=
  let start := s.i
  match bytes[start]? with
  | none => .ok (.done s.found)
  | some b =>
    if isAsciiWhitespace b then .ok (.next { s with i := start + 1 })
    else if b = byte ';' then (afterComment bytes start).map fun after => .next { s with i := after }
    else do
      let after ← topEnd fuel bytes start s.attach b
      let extends' := s.found ≠ [] && s.attach && (isPostfix b || b = byte '@')
      return .next ⟨after, if extends' then extendLast s.found after else s.found ++ [(start, after)], true⟩

def topItems (text : Text) : Run (List (Nat × Nat)) :=
  loop .diverge (topStep fuel (Utf8.bytes text)) fuel ⟨0, [], false⟩

def itemsStep (bytes : Bytes) (base : Nat) (s : Nat × List Nat) : Run (Turn (Nat × List Nat) (List Nat)) :=
  let i := s.1
  let found := s.2
  match bytes[i]? with
  | none => .ok (.done found)
  | some b =>
    if isAsciiWhitespace b then .ok (.next (i + 1, found))
    else if isPostfix b || b = byte '.' then .ok (.next (i + 1, found))
    else if b = byte '"' then (afterString fuel bytes i base).map fun after => .next (after, found ++ [i])
    else if b = byte '(' || b = byte '[' then
      (afterGroup fuel bytes i base).map fun after => .next (after, found ++ [i])
    else if b = byte '@' then .ok (.next (skipWhile nameChar bytes (i + 1) bytes.length, found))
    else if b = byte ')' || b = byte ']' then fail (base + i) "unbalanced close"
    else .ok (.next (skipWhile wordChar bytes i bytes.length, found ++ [i]))

def items (text : Text) (base : Nat) : Run (List Nat) :=
  loop .diverge (itemsStep fuel (Utf8.bytes text) base) fuel (0, [])

/-- Whether the text is one group around a group or a string. -/
def isGrouping (text : Text) (base : Nat) : Run Bool := do
  let bytes := Utf8.bytes text
  if bytes.head? ≠ some (byte '(') then return false
  else if (← afterGroup fuel bytes 0 base) ≠ bytes.length then return false
  else
    let inner ← sliceFrom text 1
    return (trimStart inner).head?.any fun c => c = '(' || c = '[' || c = '"'

def rootStep (base : Nat) (text : Text) : Run (Turn Text Text) := do
  let found ← items fuel text base
  if found.length ≠ 1 then
    .error (.syntaxError base ("a level needs exactly one root pattern: `".toList ++ text ++ "`".toList))
  else if !(← isGrouping fuel text base) then return .done text
  else return .next (trim (← slice text 1 ((Utf8.bytes text).length - 1)))

def rootOf (text : Text) (base : Nat) : Run Text := loop .diverge (rootStep fuel base) fuel text

def split (text : Text) (base : Nat) : Run LevelText := do
  let (root, captures, preds) ← cut fuel text base
  let root ← rootOf fuel (trim root) base
  return ⟨root, captures, preds⟩

end

end HafleyScm.Parens
