import HafleyRs.HafleyScm.MacroExpansion
import HafleyRs.Lib.Splice
import HafleyRs.Lib.Lines

/-!
# The span map of an expansion (`crates/hafley_scm/src/lang/rust/syn_macro_expansion_defs.rs`)

| here | there |
| --- | --- |
| `spanOrder`, `mapSpan` | 66 |
| `macroSites` | 97 |
| `Spliced.pass` | a call of `apply_pass` (625) |

The offsets are `u32` there; a text of 4 GiB or more is refused by the parser's own `TextSize`. An edit replaces an
invocation, so its range is not empty (`WellPlaced`).

A `Trail` is what the map stands for: each byte of the text with where it comes from. An edit whose bytes are
consecutive bytes of the original stands at their range, one whose bytes were all minted by one invocation stands
where that one does, and any other stands nowhere (`position`). `apply_pass` keeps that only for edits inside one
chunk: for the rest `invocation_origin` reports the range in the text it is given. And a chunk of an empty expansion
is in no range that is copied, so it is gone after the next pass (`Kept` says when neither happens).
-/

namespace HafleyScm.Expansion

/-! ## Spans -/

def spanOrder (spliced : ByteRange) (c : Chunk) : Ordering :=
  if spliced.start < c.start then .gt else if c.stop ≤ spliced.start then .lt else .eq

def mapSpan (chunks : List Chunk) (spliced : ByteRange) : Option ByteRange :=
  match (Search.binarySearchBy (spanOrder spliced) chunks).bind fun idx => chunks[idx]? with
  | none => none
  | some chunk =>
    if chunk.stop < spliced.stop then none
    else
      match chunk with
      | .verbatim start _ origStart => some ⟨origStart + (spliced.start - start), origStart + (spliced.stop - start)⟩
      | .ofMacro _ _ origin _ => some origin

def addSite (seen : List (ByteRange × Text)) : Chunk → List (ByteRange × Text)
  | .verbatim _ _ _ => seen
  | .ofMacro _ _ origin name => if seen.any fun site => site.1 = origin then seen else seen ++ [(origin, name)]

def macroSites (chunks : List Chunk) : List (ByteRange × Text) := chunks.foldl addSite []

/-! ## Passes -/

structure Spliced where
  text   : Text
  chunks : List Chunk
deriving DecidableEq, Repr

def Spliced.ofContent (content : Text) : Spliced := ⟨content, [.verbatim 0 content.length 0]⟩

def Spliced.pass (s : Spliced) (edits : List Edit) : Spliced :=
  let (text, chunks, _) := applyPass s.text s.chunks edits
  ⟨text, chunks⟩

/-- In bounds and apart from each other. -/
structure WellPlaced (text : Text) (edits : List Edit) : Prop where
  inside : ∀ e ∈ edits, e.range.start < e.range.stop ∧ e.range.stop ≤ text.length
  apart  : edits.Pairwise fun a b => a.range.stop ≤ b.range.start ∨ b.range.stop ≤ a.range.start

/-! ## Where the bytes come from -/

inductive Source where
  | original (offset : Nat)
  | minted (position : Option ByteRange)
deriving DecidableEq, Repr

/-- Where bytes of these sources stand in the original. -/
def position : List Source → Option ByteRange
  | [] => none
  | .original i :: rest =>
    if rest = (List.range' (i + 1) rest.length).map .original then some ⟨i, i + 1 + rest.length⟩ else none
  | .minted origin :: rest => if ∀ s ∈ rest, s = .minted origin then origin else none

/-- The text with its sources, and where the invocations expanded so far stand. -/
structure Trail where
  bytes     : List (Byte × Source)
  positions : List (Option ByteRange)
deriving DecidableEq, Repr

def Trail.ofContent (content : Text) : Trail := ⟨content.zip ((List.range' 0 content.length).map .original), []⟩

def Trail.at (t : Trail) (range : ByteRange) : Option ByteRange :=
  position (((t.bytes.drop range.start).take (range.stop - range.start)).map Prod.snd)

def inOrder (edits : List Edit) : List Edit := edits.insertionSort fun a b => a.range.start ≤ b.range.start

def Trail.pass (t : Trail) (edits : List Edit) : Trail where
  bytes := Splice.forward t.bytes 0 ((inOrder edits).map fun e =>
    ⟨e.range.start, e.range.stop, e.replacement.map fun b => (b, .minted (t.at e.range))⟩)
  positions := t.positions ++ edits.map fun e => t.at e.range

/-! ## Exactness -/

/-- The chunks lie one behind the other from `a` to `b`. -/
def Tiles : Nat → List Chunk → Nat → Prop
  | a, [], b => a = b
  | a, c :: cs, b => c.start = a ∧ a ≤ c.stop ∧ Tiles c.stop cs b

/-- The map is exact for a text that was made from the content by expanding invocations at the positions. -/
structure Exact (content : Text) (s : Spliced) (positions : List (Option ByteRange)) : Prop where
  tiles    : Tiles 0 s.chunks s.text.length
  verbatim : ∀ start stop orig, .verbatim start stop orig ∈ s.chunks →
    slice s.text ⟨start, stop⟩ = slice content ⟨orig, orig + (stop - start)⟩
  origins  : ∀ start stop origin name, .ofMacro start stop origin name ∈ s.chunks →
    origin.start ≤ origin.stop ∧ origin.stop ≤ content.length
  mapped   : ∀ start stop orig, .verbatim start stop orig ∈ s.chunks → ∀ r : ByteRange,
    start ≤ r.start → r.start < stop → r.start ≤ r.stop → r.stop ≤ stop →
    ∃ r', mapSpan s.chunks r = some r' ∧ r'.start = orig + (r.start - start) ∧ r'.stop = orig + (r.stop - start) ∧
      slice s.text r = slice content r'
  sites    : ∀ origin, origin ∈ (macroSites s.chunks).map Prod.fst ↔ some origin ∈ positions
  once     : ((macroSites s.chunks).map Prod.fst).Nodup

/-- Each edit lies in one chunk, and the origin of an empty expansion is also that of a chunk which is not empty. -/
structure Kept (chunks : List Chunk) (edits : List Edit) : Prop where
  inOne : ∀ e ∈ edits, ∃ c ∈ chunks, c.start ≤ e.range.start ∧ e.range.stop ≤ c.stop
  empty : ∀ start origin name, .ofMacro start start origin name ∈ chunks →
    ∃ start' stop' name', start' < stop' ∧ .ofMacro start' stop' origin name' ∈ chunks

/-- Passes over well placed edits, each under a condition on what it starts from. -/
def PassesFrom (condition : List Chunk → List Edit → Prop) : Spliced → List (List Edit) → Prop
  | _, [] => True
  | s, edits :: rest => WellPlaced s.text edits ∧ condition s.chunks edits ∧ PassesFrom condition (s.pass edits) rest

end HafleyScm.Expansion
