import HafleyRs.Lib.Preorder
import HafleyRs.Lib.Words

/-!
# Local macro expansion (`crates/hafley_scm/src/lang/rust/syn_macro_expansion_defs.rs`)

| here | there |
| --- | --- |
| `Chunk` (`ofMacro` is `Macro`), `Expanded` | 28, 55 |
| `ExpansionAttempt` | 191 |
| `matcherLiterals`, `appendShape`, `invocationShape` | 229, 262, 225 |
| `collectRules`, `collectCalls` | 160, 386 |
| `sortCall`, `settleGroup`, `expandPass` | the loops of `expand_pass` (456, 511, 560), 439 |
| `recordAttempt` | 567 |
| `pushVerbatimRange`, `applyPass` | 636, 625 |
| `invocationOrigin` | 698 |
| `passLoop`, `expandFile` | the loop of `expand_file` (753), 719 |

An `Engine` is what other crates do: the parser, the token stream of `proc_macro2`, and the expansion of a call by a
definition, all of them functions of the text; a reparse is a parse of the new text. A text is its bytes. The tables
are lists; a definition is parsed once for each of its texts, so its text stands for it.
-/

namespace HafleyScm.Expansion

abbrev Byte := Fin 256
abbrev Text := List Byte

def ascii (s : String) : Text := s.toList.map fun c => Fin.ofNat 256 c.toNat

structure ByteRange where
  start : Nat
  stop  : Nat
deriving DecidableEq, Repr

def slice (text : Text) (range : ByteRange) : Text := (text.drop range.start).take (range.stop - range.start)

/-! ## Syntax -/

/-- The nodes the passes look for; `tokens` says that a token tree is there. -/
inductive Item where
  | other
  | macroRules (name : Option Text) (tokens : Bool)
  | macroCall (name : Option Text) (tokens : Bool)
deriving DecidableEq, Repr

structure SyntaxNode where
  range : ByteRange
  item  : Item
deriving DecidableEq, Repr

abbrev Cst := Preorder.Tree SyntaxNode

/-- Every node lies in the range of its parent. -/
inductive Nested : Cst → Prop
  | node (label : SyntaxNode) (children : List Cst)
      (inside : ∀ c ∈ children, label.range.start ≤ c.label.range.start ∧ c.label.range.stop ≤ label.range.stop)
      (below : ∀ c ∈ children, Nested c) : Nested (.node label children)

inductive Delimiter where
  | parenthesis | brace | bracket | none
deriving DecidableEq, Repr

inductive TokenTree where
  | group (delimiter : Delimiter) (stream : List TokenTree)
  | ident (value : Text)
  | literal (value : Text)
  | punct (char : Byte) (joint : Bool)

inductive ExpansionAttempt where
  | failed (memoizeShape : Bool)
  | expanded (replacement : Text)
deriving DecidableEq, Repr

structure Engine where
  parse  : Text → Cst
  nested : ∀ text, Nested (parse text)
  tokens : Text → Option (List TokenTree)
  /-- A call by a definition, both as texts. -/
  expand : Text → Text → ExpansionAttempt

/-! ## The shape of a call -/

def fragments : List Text :=
  ["block", "expr", "ident", "item", "lifetime", "literal", "meta", "pat", "path", "stmt", "tt", "ty", "vis"].map ascii

def keywords : List Text :=
  ["Self", "as", "async", "await", "break", "const", "continue", "crate", "dyn", "else", "enum", "extern", "false",
    "fn", "for", "if", "impl", "in", "let", "loop", "match", "mod", "move", "mut", "pub", "ref", "return", "self",
    "static", "struct", "trait", "true", "type", "unsafe", "use", "where", "while", "yield"].map ascii

def dollar : Byte := 36
def colon : Byte := 58
def semicolon : Byte := 59

mutual
/-- The literal tokens of a matcher; the flags say that a `$` or a `:` stands before. -/
def matcherLiterals (dollarBefore colonBefore : Bool) : List TokenTree → List Text
  | [] => []
  | .ident value :: rest =>
    (if !dollarBefore && !(colonBefore && decide (value ∈ fragments)) then [value] else []) ++
      matcherLiterals false false rest
  | .literal value :: rest => value :: matcherLiterals false false rest
  | .group delimiter stream :: rest => groupLiterals (.group delimiter stream) ++ matcherLiterals false false rest
  | .punct char _ :: rest => matcherLiterals (char = dollar) (char = colon) rest
def groupLiterals : TokenTree → List Text
  | .group _ stream => matcherLiterals false false stream
  | _ => []
end

def opening : Delimiter → Text
  | .parenthesis => ascii "("
  | .brace => ascii "\x7b"
  | .bracket => ascii "["
  | .none => ascii "<"

def closing : Delimiter → Text
  | .parenthesis => ascii ")"
  | .brace => ascii "\x7d"
  | .bracket => ascii "]"
  | .none => ascii ">"

mutual
def appendShape (literals : List Text) : List TokenTree → Text
  | [] => []
  | token :: rest => tokenShape literals token ++ appendShape literals rest
def tokenShape (literals : List Text) : TokenTree → Text
  | .group delimiter stream => opening delimiter ++ appendShape literals stream ++ closing delimiter
  | .ident value => (if value ∈ literals ∨ value ∈ keywords then value else ascii "<ident>") ++ [semicolon]
  | .literal value => (if value ∈ literals then value else ascii "<literal>") ++ [semicolon]
  | .punct char joint => [char] ++ ascii (if joint then "+" else " ")
end

/-- The matchers of a definition's body: the groups before a `=>`. -/
def matchers : List TokenTree → List (List TokenTree)
  | .group _ stream :: .punct eq joint :: .punct gt joint' :: rest =>
    (if eq = 61 ∧ gt = 62 then [stream] else []) ++ matchers (.punct eq joint :: .punct gt joint' :: rest)
  | _ :: rest => matchers rest
  | [] => []
termination_by tokens => tokens.length

def firstGroup (tokens : List TokenTree) : Option (List TokenTree) :=
  tokens.findSome? fun
    | .group _ stream => some stream
    | _ => none

def invocationShape (engine : Engine) (definition invocation : Text) : Text :=
  match (engine.tokens definition).bind firstGroup with
  | none => invocation
  | some body =>
    let literals := (matchers body).flatMap (matcherLiterals false false)
    match engine.tokens invocation with
    | none => invocation
    | some tokens => appendShape literals tokens

/-! ## Definitions and calls -/

mutual
/-- Name and text of each definition, in the order of the walk. -/
def collectRules (text : Text) : Cst → List (Text × Text)
  | .node label children =>
    (match label.item with
      | .macroRules (some name) true => [(name, slice text label.range)]
      | _ => []) ++ collectRulesList text children
def collectRulesList (text : Text) : List Cst → List (Text × Text)
  | [] => []
  | c :: cs => collectRules text c ++ collectRulesList text cs
end

/-- The table keeps the last definition of a name. -/
def definition (rules : List (Text × Text)) (name : Text) : Option Text :=
  (rules.reverse.find? fun d => d.1 = name).map Prod.snd

structure Invocation where
  name  : Text
  range : ByteRange
deriving DecidableEq, Repr

def overlaps (a b : ByteRange) : Bool := decide (a.start < b.stop) && decide (b.start < a.stop)

/-- Everything is in scope where there is none. -/
def inScope (scope : Option (List ByteRange)) (range : ByteRange) : Bool :=
  scope.elim true fun ranges => ranges.any fun r => overlaps r range

mutual
def collectCalls (rules : List (Text × Text)) (scope : Option (List ByteRange)) : Cst → List Invocation
  | .node label children =>
    if !inScope scope label.range then []
    else
      (match label.item with
        | .macroCall (some name) true => if (definition rules name).isSome then [⟨name, label.range⟩] else []
        | _ => []) ++ collectCallsList rules scope children
def collectCallsList (rules : List (Text × Text)) (scope : Option (List ByteRange)) : List Cst → List Invocation
  | [] => []
  | c :: cs => collectCalls rules scope c ++ collectCallsList rules scope cs
end

/-! ## A pass -/

/-- A call's definition and its own text. -/
abbrev Key := Text × Text

structure Memo where
  failed       : List Key
  failedShapes : List Key
  expanded     : List (Key × Text)
deriving DecidableEq, Repr

def Memo.empty : Memo := ⟨[], [], []⟩

structure Edit where
  range       : ByteRange
  replacement : Text
  name        : Text
deriving DecidableEq, Repr

structure PendingExpansion where
  key        : Key
  invocation : Invocation
deriving DecidableEq, Repr

/-- What the pass has found so far: edits that were made before, groups of calls of one shape. -/
structure Sorted where
  edits  : List Edit
  groups : List (Key × List PendingExpansion)
  memo   : Memo

def addToGroup (shapeKey : Key) (pending : PendingExpansion) :
    List (Key × List PendingExpansion) → List (Key × List PendingExpansion)
  | [] => [(shapeKey, [pending])]
  | group :: groups =>
    if group.1 = shapeKey then (group.1, group.2 ++ [pending]) :: groups
    else group :: addToGroup shapeKey pending groups

def sortCall (engine : Engine) (text : Text) (rules : List (Text × Text)) (s : Sorted) (inv : Invocation) : Sorted :=
  match definition rules inv.name with
  | none => s
  | some defText =>
    let callText := slice text inv.range
    let key := (defText, callText)
    match s.memo.expanded.lookup key with
    | some replacement => { s with edits := s.edits ++ [⟨inv.range, replacement, inv.name⟩] }
    | none =>
      if key ∈ s.memo.failed then s
      else
        let shapeKey := (defText, invocationShape engine defText callText)
        if shapeKey ∈ s.memo.failedShapes then { s with memo := { s.memo with failed := key :: s.memo.failed } }
        else { s with groups := addToGroup shapeKey ⟨key, inv⟩ s.groups }

/-- The memo and the edits while the attempts come in. -/
structure Recorded where
  memo  : Memo
  edits : List Edit

def recordAttempt (r : Recorded) (pending : PendingExpansion) : ExpansionAttempt → Recorded
  | .failed _ => { r with memo := { r.memo with failed := pending.key :: r.memo.failed } }
  | .expanded replacement =>
    { memo := { r.memo with expanded := (pending.key, replacement) :: r.memo.expanded }
      edits := r.edits ++ [⟨pending.invocation.range, replacement, pending.invocation.name⟩] }

def attempt (engine : Engine) (pending : PendingExpansion) : ExpansionAttempt :=
  engine.expand pending.key.1 pending.key.2

/-- A group: its first member is tried; a failure of the match is one of the whole shape, else the others remain. -/
def settleGroup (engine : Engine) (s : Recorded × List PendingExpansion) (group : Key × List PendingExpansion) :
    Recorded × List PendingExpansion :=
  match group.2 with
  | [] => s
  | first :: members =>
    match attempt engine first with
    | .failed true =>
      ({ s.1 with memo := { s.1.memo with
          failedShapes := group.1 :: s.1.memo.failedShapes
          failed := (members.map PendingExpansion.key).reverse ++ first.key :: s.1.memo.failed } }, s.2)
    | result => (recordAttempt s.1 first result, s.2 ++ members)

def callsIn (engine : Engine) (text : Text) (scope : Option (List ByteRange)) : List Invocation :=
  collectCalls (collectRules text (engine.parse text)) scope (engine.parse text)

def expandPass (engine : Engine) (text : Text) (scope : Option (List ByteRange)) (memo : Memo) : List Edit × Memo :=
  let rules := collectRules text (engine.parse text)
  let sorted := (callsIn engine text scope).foldl (sortCall engine text rules) ⟨[], [], memo⟩
  let (recorded, remaining) := sorted.groups.foldl (settleGroup engine) (⟨sorted.memo, sorted.edits⟩, [])
  let recorded := remaining.foldl (fun r pending => recordAttempt r pending (attempt engine pending)) recorded
  (recorded.edits, recorded.memo)

/-! ## The next text -/

inductive Chunk where
  | verbatim (start stop origStart : Nat)
  | ofMacro (start stop : Nat) (origin : ByteRange) (name : Text)
deriving DecidableEq, Repr

def Chunk.start : Chunk → Nat
  | verbatim start _ _ | ofMacro start _ _ _ => start

def Chunk.stop : Chunk → Nat
  | verbatim _ stop _ | ofMacro _ stop _ _ => stop

/-- Where an invocation says it comes from. -/
def invocationOrigin (oldChunks : List Chunk) (range : ByteRange) (ownName : Text) : ByteRange × Text :=
  match oldChunks.find? fun c => decide (c.start ≤ range.start) && decide (range.stop ≤ c.stop) with
  | some (.verbatim start _ origStart) =>
    (⟨origStart + (range.start - start), origStart + (range.stop - start)⟩, ownName)
  | some (.ofMacro _ _ origin name) => (origin, name)
  | none => (range, ownName)

structure Applied where
  text    : Text
  chunks  : List Chunk
  changed : List ByteRange
  cursor  : Nat

/-- The part of a chunk in `[lo, hi)`, moved to where it stands in the new text. -/
def moveChunk (shift fromOld lo hi : Nat) : Chunk → Chunk
  | .verbatim start _ origStart =>
    .verbatim (shift + (lo - fromOld)) (shift + (hi - fromOld)) (origStart + (lo - start))
  | .ofMacro _ _ origin name => .ofMacro (shift + (lo - fromOld)) (shift + (hi - fromOld)) origin name

def pushVerbatimRange (oldText : Text) (oldChunks : List Chunk) (fromOld toOld : Nat) (a : Applied) : Applied :=
  if toOld ≤ fromOld then a
  else
    let moved := oldChunks.filterMap fun c =>
      let lo := max c.start fromOld
      let hi := min c.stop toOld
      if hi ≤ lo then none else some (moveChunk a.text.length fromOld lo hi c)
    { a with text := a.text ++ slice oldText ⟨fromOld, toOld⟩, chunks := a.chunks ++ moved }

def applyEdit (oldText : Text) (oldChunks : List Chunk) (a : Applied) (edit : Edit) : Applied :=
  let a := pushVerbatimRange oldText oldChunks a.cursor edit.range.start a
  let (origin, name) := invocationOrigin oldChunks edit.range edit.name
  let start := a.text.length
  let text := a.text ++ edit.replacement
  { text
    chunks := a.chunks ++ [.ofMacro start text.length origin name]
    changed := if start < text.length then a.changed ++ [⟨start, text.length⟩] else a.changed
    cursor := edit.range.stop }

def applyPass (oldText : Text) (oldChunks : List Chunk) (edits : List Edit) : Text × List Chunk × List ByteRange :=
  let edits := edits.insertionSort fun a b => a.range.start ≤ b.range.start
  let a := edits.foldl (applyEdit oldText oldChunks) ⟨[], [], [], 0⟩
  let a := pushVerbatimRange oldText oldChunks a.cursor oldText.length a
  (a.text, a.chunks, a.changed)

/-! ## The file -/

/-- What one pass hands to the next. -/
structure PassState where
  text    : Text
  chunks  : List Chunk
  scope   : Option (List ByteRange)
  memo    : Memo

/-- The edits of the pass that starts here, and the memo it leaves. -/
def PassState.edits (engine : Engine) (s : PassState) : List Edit := (expandPass engine s.text s.scope s.memo).1
def PassState.memoAfter (engine : Engine) (s : PassState) : Memo := (expandPass engine s.text s.scope s.memo).2

/-- The text, the chunks and the changed ranges after that pass. -/
def PassState.next (engine : Engine) (s : PassState) : PassState :=
  let (text, chunks, changed) := applyPass s.text s.chunks (s.edits engine)
  ⟨text, chunks, some changed, s.memoAfter engine⟩

def start (content : Text) : PassState := ⟨content, [.verbatim 0 content.length 0], none, .empty⟩

end HafleyScm.Expansion
