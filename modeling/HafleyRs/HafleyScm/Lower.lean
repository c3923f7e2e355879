import HafleyRs.Lib.TreeWalk

/-!
# Relations lowered to joins over numbered nodes

| here | there |
| --- | --- |
| `Node`, `Cst` | a parsed tree; `namedIndex` and `fieldOf` are the slot `walk_streaming` gives a node (cst.rs:46-91) |
| `NodeRow`, `Cst.row`, `Store.nodes` | the rows of `scmpp_node` (1a_scmpp_rows.rs:23-43, 366-417) |
| `CaptureRow`, `Level` | the `@__root` rows of a level in `scmpp_capture`, and those its own conditions leave |
| `step` | `Lower::step` (3_lower.rs:581-744): the node rows joined for one pair of captures |
| `scope`, `nodeIs`, `found` | `scope`, `node_is` and the `NthChild` arm of `rel` (3_lower.rs:430-490) |
| `rel` | `Lower::rel`, `list`, `optional` (3_lower.rs:454-572): what one outer row becomes |
| `visited`, `select`, `walkRel` | the walk over the tree that the language describes, stated for comparison |

A node in the tree is a path, in the store a file and a number; a `NULL` column is `none`, and a comparison
with it does not hold. `rel` looks at one outer row, whose captures are bound, so a level is the list of its
root rows and a test on them. The columns no relation reads (`depth`, `idx`, `kind`, `start`, `end`) are left
out, and so is the text of the statement.
-/

namespace HafleyScm.Lower
open Preorder

structure Node where
  named : Bool
  /-- 0 when the node sits in no field. -/
  field : Nat
deriving DecidableEq, Repr

abbrev Cst := Preorder.Tree Node

/-- One row of `scmpp_node`. -/
structure NodeRow where
  file : Nat
  pre : Nat
  last : Nat
  /-- -1 at the root -/
  parent : Int
  /-- place among the parent's named children; `none` for anonymous nodes and the root -/
  sib : Option Int
  field : Nat
deriving DecidableEq, Repr

namespace Cst

/-- Place of child `i` among the named children of `u`, when it is named. -/
def namedIndex (u : Cst) (i : Nat) : Option Int :=
  if (u.children[i]?).any (·.label.named) then some ((u.children.take i).countP (·.label.named)) else none

def sib (t : Cst) (p : Path) : Option Int :=
  p.getLast?.bind fun i => (t.sub p.dropLast).bind fun u => namedIndex u i

def named (t : Cst) (p : Path) : Bool := (t.sub p).any (·.label.named)

def fieldOf (t : Cst) (p : Path) : Nat := if p = [] then 0 else (t.sub p).elim 0 (·.label.field)

def row (file : Nat) (t : Cst) (p : Path) : NodeRow where
  file := file
  pre := t.pre p
  last := t.last p
  parent := if p = [] then -1 else t.pre p.dropLast
  sib := sib t p
  field := fieldOf t p

end Cst

/-- The files of one store, each written once. -/
structure Store where
  files : List (Nat × Cst)
  once : (files.map (·.1)).Nodup

def Store.nodes (s : Store) : List NodeRow := s.files.flatMap fun (file, t) => t.paths.map (Cst.row file t)

/-- One `@__root` row of `scmpp_capture`, or the row of the capture a relation starts from. -/
structure CaptureRow where
  file : Nat
  /-- ordinal of the match within the file -/
  ordinal : Nat
  node : Nat
deriving DecidableEq, Repr

/-- The root rows of a level's pattern, and which of them pass the level's own conditions. -/
structure Level where
  roots : List CaptureRow
  passes : CaptureRow → Bool
  /-- a match captures its root once -/
  once : roots.Pairwise fun a b => ¬ (a.file = b.file ∧ a.ordinal = b.ordinal)

def Level.hits (level : Level) : List CaptureRow := level.roots.filter level.passes

inductive Walk where
  | parent | ancestor | descendant | precedes | follows
  | nthChild (index : Nat)
deriving DecidableEq, Repr

inductive Rows where
  | first | each | list
deriving DecidableEq, Repr

structure Rel where
  walk : Walk
  neighbor : Bool
  stop : Option Level
  field : Option Nat
  rows : Rows
  optional : Bool
  negated : Bool
  target : Option Level
  /-- `N` is a positive integer -/
  index_pos : ∀ n, walk = .nthChild n → 0 < n
  /-- only `nth-child N` does without a target -/
  hasTarget : (∀ n, walk ≠ .nthChild n) → target.isSome

/-! ## The joins -/

section
variable (nodes : List NodeRow)

/-- `EXISTS` of a scope-root level whose root row is joined with its node row and meets `tie`. -/
def scope (level : Level) (tie : CaptureRow → NodeRow → Bool) : Bool :=
  level.hits.any fun r => nodes.any fun between =>
    between.file == r.file && between.pre == r.node && tie r between

def nodeIs (level : Level) (node : NodeRow) : Bool :=
  level.hits.any fun r => r.file == node.file && r.node == node.pre

def fieldIs (field : Option Nat) (row : NodeRow) : Bool := field.all (row.field == ·)

/-- `a < b` in SQL -/
def sqlLt : Option Int → Option Int → Bool
  | some a, some b => a < b
  | _, _ => false

/-- The `order` condition of `precedes` and `follows`. -/
def siblingOrder (walk : Walk) (neighbor : Bool) : (mine theirs : Option Int) → Bool
  | some mine, some theirs =>
    match walk, neighbor with
    | .precedes, true => theirs == mine + 1
    | .precedes, false => theirs > mine
    | _, true => theirs == mine - 1
    | _, false => theirs < mine
  | _, _ => false

/-- One-step parent edge: the child's row names its parent. -/
def edgeRows (field : Option Nat) (child parent : CaptureRow) : List (List NodeRow) :=
  (nodes.filter fun edge => edge.file == child.file && edge.pre == child.node && edge.parent == (parent.node : Int) &&
    fieldIs field edge).map ([·])

def ancestorRows (r : Rel) (from' to' : CaptureRow) : List (List NodeRow) :=
  let above := nodes.filter fun above =>
    above.file == to'.file && above.pre == to'.node && to'.node < from'.node && from'.node ≤ above.last &&
    r.stop.all fun stop => !scope nodes stop fun root between =>
      between.last ≥ from'.node && root.file == from'.file && root.node > above.pre && root.node < from'.node
  above.flatMap fun above =>
    match r.field with
    | none => [[above]]
    | some id =>
      -- the field belongs to the target's child on the path down to `from`
      (nodes.filter fun child => child.file == above.file && child.parent == (above.pre : Int) &&
        child.pre ≤ from'.node && from'.node ≤ child.last && child.field == id).map ([above, ·])

def descendantRows (r : Rel) (from' to' : CaptureRow) : List (List NodeRow) :=
  let below := nodes.filter fun below =>
    below.file == from'.file && below.pre == from'.node && to'.node > below.pre && to'.node ≤ below.last &&
    r.stop.all fun stop => !scope nodes stop fun root between =>
      between.last ≥ to'.node && root.file == from'.file && root.node > below.pre && root.node < to'.node
  below.flatMap fun below =>
    match r.field with
    | none => [[below]]
    | some id =>
      (nodes.filter fun reached => reached.file == to'.file && reached.pre == to'.node && reached.field == id).map
        ([below, ·])

def siblingRows (r : Rel) (from' to' : CaptureRow) : List (List NodeRow) :=
  let mine := nodes.filter fun mine => mine.file == from'.file && mine.pre == from'.node
  mine.flatMap fun mine =>
    (nodes.filter fun theirs =>
      theirs.file == to'.file && theirs.pre == to'.node && theirs.parent == mine.parent &&
      siblingOrder r.walk r.neighbor mine.sib theirs.sib && fieldIs r.field theirs &&
      r.stop.all fun stop => !scope nodes stop fun root between =>
        let low := if r.walk = .precedes then mine else theirs
        let high := if r.walk = .precedes then theirs else mine
        root.file == mine.file && between.parent == mine.parent && sqlLt low.sib between.sib &&
          sqlLt between.sib high.sib).map ([mine, ·])

/-- **The node rows that relate the capture `from` to the target root capture `to`** (3_lower.rs:581-744). -/
def step (r : Rel) (from' to' : CaptureRow) : List (List NodeRow) :=
  match r.walk, r.neighbor with
  | .parent, _ | .ancestor, true => edgeRows nodes r.field from' to'
  | .descendant, true => edgeRows nodes r.field to' from'
  | .ancestor, false => ancestorRows nodes r from' to'
  | .descendant, false => descendantRows nodes r from' to'
  | .precedes, _ | .follows, _ => siblingRows nodes r from' to'
  | .nthChild _, _ => []

/-- The target rows a relation joins: a level's root is in the file of the level around it. -/
def matched (r : Rel) (target : Level) (from' : CaptureRow) : List CaptureRow :=
  (target.hits.filter (·.file == from'.file)).flatMap fun to' => (step nodes r from' to').map fun _ => to'

/-- The siblings that match `of`, as `row_number` ranks them. -/
def ranked (of : Level) : List NodeRow := nodes.filter fun node => node.sib.isSome && nodeIs of node

/-- `row_number() OVER (PARTITION BY file, parent ORDER BY sib)` -/
def rank (rows : List NodeRow) (node : NodeRow) : Nat :=
  1 + rows.countP fun other => other.file == node.file && other.parent == node.parent && sqlLt other.sib node.sib

def found (index : Nat) (of : Option Level) (from' : CaptureRow) : Bool :=
  match of with
  | none => nodes.any fun me => me.file == from'.file && me.pre == from'.node && me.sib == some ((index : Int) - 1)
  | some of => (ranked nodes of).any fun node =>
      node.file == from'.file && node.pre == from'.node && rank (ranked nodes of) node == index

/-- What becomes of an outer row: it stays, it is joined with one related row, it stays with nulls, it gets an
array column. -/
inductive Out where
  | kept
  | joined (to' : CaptureRow)
  | absent
  | array (tos : List CaptureRow)
deriving DecidableEq, Repr

/-- A condition of the statement keeps the row or drops it. -/
def condition (holds negated : Bool) : List Out := if holds != negated then [.kept] else []

/-- `ORDER BY node, "match"` -/
def inOrder (rows : List CaptureRow) : List CaptureRow :=
  rows.insertionSort fun a b => a.node < b.node ∨ a.node = b.node ∧ a.ordinal ≤ b.ordinal

/-- `rows: each` with `optional: true`: the left join on the match numbers that relate. -/
def optionalRows (r : Rel) (target : Level) (from' : CaptureRow) : List Out :=
  let on := target.roots.filter fun root =>
    root.file == from'.file && ((matched nodes r target from').map (·.ordinal)).contains root.ordinal
  if on.isEmpty then [.absent] else on.map .joined

/-- **One relation of one outer row** (3_lower.rs:454-533). -/
def rel (r : Rel) (exported : Bool) (from' : CaptureRow) : List Out :=
  match r.walk with
  | .nthChild index => condition (found nodes index r.target from') r.negated
  | _ => r.target.elim [] fun target =>
      if r.optional then
        if r.rows = .each ∧ exported then optionalRows nodes r target from' else [.kept]
      else if r.rows = .list ∧ ¬ r.negated then
        if exported then [.array (inOrder (matched nodes r target from'))] else [.kept]
      else if r.rows = .each ∧ ¬ r.negated then (matched nodes r target from').map .joined
      else condition (!(matched nodes r target from').isEmpty) r.negated

end

/-! ## The walk over the tree -/

/-- The named siblings after a node. -/
def later (t : Cst) (p : Path) : List Path :=
  p.getLast?.elim [] fun i => (t.sub p.dropLast).elim [] fun u =>
    ((u.marked (·.named)).filter (i < ·)).map fun j => p.dropLast ++ [j]

/-- The named siblings before a node, nearest first. -/
def earlier (t : Cst) (p : Path) : List Path :=
  p.getLast?.elim [] fun i => (t.sub p.dropLast).elim [] fun u =>
    ((u.marked (·.named)).filter (· < i)).reverse.map fun j => p.dropLast ++ [j]

def alongSiblings (neighbor : Bool) (stop : Path → Bool) (siblings : List Path) : List (Path × Path) :=
  (if neighbor then siblings.take 1 else through stop siblings).map fun q => (q, q)

def children (t : Cst) (p : Path) : List Path :=
  (t.sub p).elim [] fun s => (List.range s.children.length).map fun i => p ++ [i]

def below (t : Cst) (stop : Path → Bool) (p : Path) : List Path :=
  (t.sub p).elim [] fun s => (s.descend fun q => stop (p ++ q)).map (p ++ ·)

/-- The nodes a walk from `p` visits, each with the node whose field is the step next to it. A visited node is
tested, then the walk ends there if it is a stop; siblings are named, anonymous tokens are skipped. -/
def visited (walk : Walk) (neighbor : Bool) (t : Cst) (stop : Path → Bool) (p : Path) : List (Path × Path) :=
  match walk with
  | .parent => (ancestors p).take 1
  | .ancestor => if neighbor then (ancestors p).take 1 else climb stop p
  | .descendant => (if neighbor then children t p else below t stop p).map fun q => (q, q)
  | .precedes => alongSiblings neighbor stop (later t p)
  | .follows => alongSiblings neighbor stop (earlier t p)
  | .nthChild _ => []

/-- A level matches at a node of the tree. -/
def Level.at (level : Level) (file : Nat) (t : Cst) (q : Path) : Bool :=
  level.hits.any fun c => c.file == file && c.node == t.pre q

def select (r : Rel) (file : Nat) (t : Cst) (p : Path) : List Path :=
  ((visited r.walk r.neighbor t (fun q => r.stop.any (·.at file t q)) p).filter fun v =>
    r.field.all (Cst.fieldOf t v.2 == ·)).map (·.1)

/-- The node is the `index`th of its parent's named children that match `of`. -/
def nth (index : Nat) (of : Option Level) (file : Nat) (t : Cst) (p : Path) : Bool :=
  p.getLast?.any fun i => (t.sub p.dropLast).any fun u =>
    ((u.marked (·.named)).filter fun j => of.all (·.at file t (p.dropLast ++ [j])))[index - 1]? == some i

def related (r : Rel) (target : Level) (file : Nat) (t : Cst) (p : Path) : List CaptureRow :=
  target.hits.filter fun to' => to'.file == file && (select r file t p).any fun q => to'.node == t.pre q

/-- One relation of an outer row whose capture is at `p`, by walking the tree. -/
def walkRel (r : Rel) (exported : Bool) (file : Nat) (t : Cst) (p : Path) : List Out :=
  match r.walk with
  | .nthChild index => condition (nth index r.target file t p) r.negated
  | _ => r.target.elim [] fun target =>
      let tos := related r target file t p
      if r.optional then
        if r.rows = .each ∧ exported then (if tos.isEmpty then [.absent] else tos.map .joined) else [.kept]
      else if r.rows = .list ∧ ¬ r.negated then if exported then [.array (inOrder tos)] else [.kept]
      else if r.rows = .each ∧ ¬ r.negated then tos.map .joined
      else condition (!tos.isEmpty) r.negated

end HafleyScm.Lower
