import HafleyRs.Lib.TreeWalk
import HafleyRs.Lib.Worklist
import HafleyRs.Lib.Dominance

/-!
# Control flow of a file

| here | there |
| --- | --- |
| `CfgRole`, `CfgNodeKind`, `CfgEdgeKind` | the enums of the same names (cfg.rs:31-68, types.rs:1140-1179) |
| `CstNode`, `Cst` | a syntax tree with what the builder reads of a node: its kind, the role `CfgBuild::new` settled on, its span, `leading_word` and `call_target_name` of its text |
| `Node`, `Edge`, `Build` | `FamilyBundle<CfgF>` and the state of `CfgBuild` (cfg.rs:287-306) |
| `node`, `edge`, `connect`, `chain`, `leaf`, `fold` | the methods of the same names (cfg.rs:423-450, 766-797) |
| `link`, `linkSeq`, `linkJump`, … | `link` and its forms (cfg.rs:690-982) |
| `controlDependence` | `control_dependence` (cfg.rs:531-633) |
| `callable`, `clause`, `close`, `buildCfg` | cfg.rs:234-257, 454-527 |

A node of the tree is a path, so `kids` and `descendants` are those of `Preorder.Tree`; roles are any labelling of
the tree, which every table gives. `seen` holds the edges pushed so far, so membership in `edges` stands for it.
`Node.origin`, `Node.site` and `Build.closed` are not in the source: they say for which tree node a control node
was made, whether it was made for exceptional flow only, and which nodes each callable has. `simple_fast` of
petgraph is a parameter; the climbs over its table have fuel.
-/

namespace HafleyScm.Cfg
open Preorder Preorder.Tree

inductive CfgRole where
  | callable | clause | branch | cases | fork | negation | try' | seq | loop | doLoop | jump | exit | throw
  | selfCall | aggregate
deriving DecidableEq, Repr

inductive CfgNodeKind where
  | entry | exit | stmt | branch | loop | jump | ret
deriving DecidableEq, Repr

inductive CfgEdgeKind where
  | next | arm | jump | exit | throw | control
deriving DecidableEq, Repr

structure CstNode where
  kind : String
  role : Option CfgRole
  start : Nat
  stop : Nat
  /-- the leading ASCII word of the node's text -/
  word : String
  /-- the final path segment before the arguments of a call-shaped node -/
  target : String
deriving DecidableEq, Repr

abbrev Cst := Preorder.Tree CstNode

structure Node where
  origin : Path
  start : Nat
  stop : Nat
  kind : CfgNodeKind
  site : Bool
deriving DecidableEq, Repr

structure Edge where
  src : Nat
  dst : Nat
  kind : CfgEdgeKind
deriving DecidableEq, Repr

/-- Where control can go when a subtree is done: `exits` fall through. -/
structure Flow where
  entry : Option Nat
  exits : List Nat
deriving DecidableEq, Repr

def Flow.default : Flow := ⟨none, []⟩

/-- One enclosing loop: its header, and the break nodes that leave it. -/
structure LoopFrame where
  header : Nat
  breaks : List Nat
deriving DecidableEq, Repr

structure Build where
  nodes : List Node
  edges : List Edge
  /-- innermost first -/
  loops : List LoopFrame
  /-- innermost first -/
  catches : List Nat
  caught : List (Path × Nat)
  entry : Nat
  exit : Nat
  /-- each callable closed so far, with its first node and the end of its nodes -/
  closed : List (Path × Nat × Nat)
deriving DecidableEq, Repr

def Build.new : Build := ⟨[], [], [], [], [], 0, 0, []⟩

namespace Build

def node (b : Build) (p : Path) (c : CstNode) (kind : CfgNodeKind) (site : Bool) : Nat × Build :=
  (b.nodes.length, { b with nodes := b.nodes ++ [⟨p, c.start, c.stop, kind, site⟩] })

def edge (b : Build) (src dst : Nat) (kind : CfgEdgeKind) : Build :=
  if ⟨src, dst, kind⟩ ∈ b.edges then b else { b with edges := b.edges ++ [⟨src, dst, kind⟩] }

/-- The kind of a node; nodes are asked for only once they are placed. -/
def kindOf (b : Build) (n : Nat) : Option CfgNodeKind := b.nodes[n]?.map (·.kind)

def connectKind (b : Build) (src dst : Nat) : CfgEdgeKind :=
  if dst = b.exit then .exit else if b.kindOf src = some .jump then .jump else .next

def connect (b : Build) (srcs : List Nat) (dst : Nat) : Build :=
  srcs.foldl (fun b src => b.edge src dst (b.connectKind src dst)) b

def leaf (b : Build) (p : Path) (c : CstNode) : Flow × Build :=
  let n := b.node p c .stmt false
  (⟨some n.1, [n.1]⟩, n.2)

def fold (b : Build) (p : Path) (c : CstNode) : Flow × Build :=
  let n := b.node p c .loop false
  (⟨some n.1, [n.1]⟩, n.2)

/-- Appends `step` after `flow`; a step with no entry leaves `flow` as is. -/
def chain (b : Build) (flow step : Flow) : Flow × Build :=
  match step.entry with
  | none => (flow, b)
  | some entry =>
    match flow.entry with
    | none => (⟨some entry, step.exits⟩, b)
    | some first => (⟨some first, step.exits⟩, b.connect flow.exits entry)

end Build

/-- The nodes below `p`, in the order of the tree. -/
def descendants (p : Path) (t : Cst) : List (Path × Cst) :=
  t.paths.tail.filterMap fun q => (t.sub q).map fun s => (p ++ q, s)

mutual
/-- `roled_subtree` -/
def roled : Cst → Bool
  | .node c kids => c.role.isSome || roledAny kids
def roledAny : List Cst → Bool
  | [] => false
  | t :: ts => roled t || roledAny ts
end

def callShaped (kind : String) : Bool :=
  kind == "call_expression" || kind == "call" || kind == "new_expression" || kind == "macro_invocation"

mutual
/-- Exceptional successors for the calls inside a guarded region (cfg.rs:665-687). -/
def throwCallSites (catch' : Nat) (includeThrows : Bool) (p : Path) : Cst → Build → Build
  | .node c kids, b =>
    if c.role = some .callable ∨ c.role = some .try' then b
    else if c.role = some .throw then
      if includeThrows then
        let thrown := b.node p c .ret true
        thrown.2.edge thrown.1 catch' .throw
      else b
    else if callShaped c.kind then
      let site := b.node p c .stmt true
      throwCallSitesAll catch' includeThrows p 0 kids (site.2.edge site.1 catch' .throw)
    else throwCallSitesAll catch' includeThrows p 0 kids b
def throwCallSitesAll (catch' : Nat) (includeThrows : Bool) (p : Path) (i : Nat) : List Cst → Build → Build
  | [], b => b
  | t :: ts, b => throwCallSitesAll catch' includeThrows p (i + 1) ts
    (throwCallSites catch' includeThrows (p ++ [i]) t b)
end

def linkJump (p : Path) (c : CstNode) (b : Build) : Flow × Build :=
  let jump := b.node p c .jump false
  (⟨some jump.1, []⟩,
    match jump.2.loops with
    | [] => jump.2
    | frame :: outer =>
      if c.word = "continue" then jump.2.edge jump.1 frame.header .jump
      else { jump.2 with loops := { frame with breaks := frame.breaks ++ [jump.1] } :: outer })

def linkCatchUnwind (p : Path) (c : CstNode) (t : Cst) (b : Build) : Flow × Build :=
  let catch' := b.node p c .stmt false
  (⟨some catch'.1, [catch'.1]⟩,
    match (descendants p t).find? fun d => d.2.label.kind == "closure_expression" with
    | none => catch'.2
    | some (q, closure) =>
      match closure.children.getLast? with
      | none => catch'.2
      | some body =>
        throwCallSites catch'.1 false (q ++ [closure.children.length - 1]) body
          { catch'.2 with caught := (q, catch'.1) :: catch'.2.caught })

def isCatch (kind : String) : Bool := kind == "catch_clause" || kind == "catch_block" || kind == "except_clause"

/-- The node exceptions of a guarded body go to: the entry of the first catching handler, made if it has none. -/
def catchTarget (b : Build) (handlers : List (Path × CstNode × Flow)) : Option Nat × Build :=
  match handlers.find? fun h => isCatch h.2.1.kind with
  | none => (none, b)
  | some (q, c, flow) =>
    match flow.entry with
    | some entry => (some entry, b)
    | none =>
      let made := b.node q c .stmt true
      (some made.1, made.2)

def linkHandlerArms (guard : Nat) (handlers : List (Path × CstNode × Flow)) (exits : List Nat) (b : Build) :
    List Nat × Build :=
  handlers.foldl (fun s h =>
    match h.2.2.entry with
    | none => s
    | some entry => (s.1 ++ h.2.2.exits, s.2.edge guard entry .arm)) (exits, b)

/-- The guard goes on to the body, or falls through when that has no node, and to the handlers. -/
def linkGuard (guard : Nat) (handlers : List (Path × CstNode × Flow)) (inner : Flow) (after : Build) :
    List Nat × Build :=
  match inner.entry with
  | none => linkHandlerArms guard handlers [guard] after
  | some entry => linkHandlerArms guard handlers inner.exits (after.edge guard entry .next)

def openLoop (header : Nat) (b : Build) : Build := { b with loops := ⟨header, []⟩ :: b.loops }

/-- The body goes back to the header; the header and the breaks leave the loop. -/
def closeLoop (header : Nat) (inner : Flow × Build) : Flow × Build :=
  let popped := { inner.2 with loops := inner.2.loops.tail }
  (⟨some header, header :: (inner.2.loops.head?.elim [] (·.breaks))⟩,
    match inner.1.entry with
    | none => popped
    | some entry => (popped.edge header entry .arm).connect inner.1.exits header)

mutual
/-- **The flow of one tree node** (cfg.rs:690-760). -/
def link (p : Path) : Cst → Build → Flow × Build
  | .node c kids, b =>
    match c.role with
    | some .callable | some .clause => b.leaf p c
    | some .aggregate => b.fold p c
    | some .selfCall =>
      let call := b.node p c .stmt false
      (⟨some call.1, [call.1]⟩, call.2.edge call.1 call.2.entry .jump)
    | some .seq => linkSeq p 0 kids Flow.default b
    | some .fork =>
      if kids.head?.any fun first => first.label.role = some .branch then linkForkBranch p kids b
      else
        let fork := b.node p c .branch false
        let r := linkArms fork.1 p 0 kids [] fork.2
        (⟨some fork.1, if r.1 = [] then [fork.1] else r.1⟩, r.2)
    | some .negation =>
      let negation := b.node p c .branch false
      let r := linkLast p 0 kids negation.2
      match r.1.entry with
      | none => (⟨some negation.1, [negation.1]⟩, r.2)
      | some entry => (⟨some negation.1, negation.1 :: r.1.exits⟩, r.2.edge negation.1 entry .arm)
    | some .try' =>
      if c.kind = "call_expression" ∧ c.target = "catch_unwind" then linkCatchUnwind p c (.node c kids) b
      else
        let guard := b.node p c .branch false
        linkTry p guard.1 kids guard.2
    | some .exit =>
      let ret := b.node p c .ret false
      (⟨some ret.1, []⟩, ret.2.edge ret.1 ret.2.exit .exit)
    | some .throw =>
      let thrown := b.node p c .ret false
      (⟨some thrown.1, []⟩, thrown.2.edge thrown.1 (thrown.2.catches.head?.getD thrown.2.exit) .throw)
    | some .jump => linkJump p c b
    | some .loop =>
      let header := b.node p c .loop false
      closeLoop header.1 (linkLast p 0 kids (openLoop header.1 header.2))
    | some .doLoop =>
      let header := b.node p c .loop false
      closeLoop header.1 (linkFirst p kids (openLoop header.1 header.2))
    | some .branch =>
      let branch := b.node p c .branch false
      let r := linkTail branch.1 p kids branch.2
      (⟨some branch.1, branch.1 :: r.1⟩, r.2)
    | some .cases =>
      let branch := b.node p c .branch false
      let r := linkCases branch.1 p 0 kids branch.2
      (⟨some branch.1, r.1⟩, r.2)
    | none => if roled (.node c kids) then linkSeq p 0 kids Flow.default b else b.leaf p c
def linkSeq (p : Path) (i : Nat) : List Cst → Flow → Build → Flow × Build
  | [], flow, b => (flow, b)
  | t :: ts, flow, b =>
    let step := link (p ++ [i]) t b
    let r := step.2.chain flow step.1
    linkSeq p (i + 1) ts r.1 r.2
/-- The arms off a branch node; what falls through is what falls through an arm. -/
def linkArms (branch : Nat) (p : Path) (i : Nat) : List Cst → List Nat → Build → List Nat × Build
  | [], exits, b => (exits, b)
  | t :: ts, exits, b =>
    let flow := link (p ++ [i]) t b
    match flow.1.entry with
    | none => linkArms branch p (i + 1) ts exits flow.2
    | some entry => linkArms branch p (i + 1) ts (exits ++ flow.1.exits) (flow.2.edge branch entry .arm)
/-- The arms of a `Branch`: every child after the condition. -/
def linkTail (branch : Nat) (p : Path) : List Cst → Build → List Nat × Build
  | [], b => ([], b)
  | _ :: arms, b => linkArms branch p 1 arms [] b
/-- `(C -> T ; E)`: the branch is the first child, and the rest is where its failed condition goes. -/
def linkForkBranch (p : Path) : List Cst → Build → Flow × Build
  | [], b => (Flow.default, b)
  | .node c kids :: rest, b =>
    let branch := b.node (p ++ [0]) c .branch false
    let then' := linkTail branch.1 (p ++ [0]) kids branch.2
    let r := linkArms branch.1 p 1 rest then'.1 then'.2
    (⟨some branch.1, if rest.isEmpty then branch.1 :: r.1 else r.1⟩, r.2)
/-- The arms of `Cases`: the children of the last child. -/
def linkCases (branch : Nat) (p : Path) (i : Nat) : List Cst → Build → List Nat × Build
  | [], b => ([], b)
  | [.node _ arms], b => linkArms branch (p ++ [i]) 0 arms [] b
  | _ :: t :: ts, b => linkCases branch p (i + 1) (t :: ts) b
def linkLast (p : Path) (i : Nat) : List Cst → Build → Flow × Build
  | [], b => (Flow.default, b)
  | [t], b => link (p ++ [i]) t b
  | _ :: t :: ts, b => linkLast p (i + 1) (t :: ts) b
def linkFirst (p : Path) : List Cst → Build → Flow × Build
  | [], b => (Flow.default, b)
  | t :: _, b => link (p ++ [0]) t b
def linkHandlers (p : Path) (i : Nat) : List Cst → Build → List (Path × CstNode × Flow) × Build
  | [], b => ([], b)
  | t :: ts, b =>
    let flow := link (p ++ [i]) t b
    let r := linkHandlers p (i + 1) ts flow.2
    ((p ++ [i], t.label, flow.1) :: r.1, r.2)
/-- A guarded body and its handlers (cfg.rs:930-981); the handlers are linked before the body can throw to them. -/
def linkTry (p : Path) (guard : Nat) : List Cst → Build → Flow × Build
  | [], b => (⟨some guard, [guard]⟩, b)
  | body :: handlers, b =>
    let hs := linkHandlers p 1 handlers b
    let target := catchTarget hs.2 hs.1
    let guarded := match target.1 with
      | none => target.2
      | some catch' => throwCallSites catch' false (p ++ [0]) body
        { target.2 with catches := catch' :: target.2.catches }
    let inner := link (p ++ [0]) body guarded
    let after := if target.1.isSome then { inner.2 with catches := inner.2.catches.tail } else inner.2
    let r := linkGuard guard hs.1 inner.1 after
    (⟨some guard, r.1⟩, r.2)
end

/-! ## Control dependence -/

/-- `simple_fast`: for a number of nodes, the edges and the root, each node's immediate dominator. -/
abbrev SimpleFast := (count : Nat) → List (Fin count × Fin count) → Fin count → Fin count → Option (Fin count)

section
variable (b : Build) (start count : Nat)

/-- The edges between the `count` nodes from `start` on, `Control` apart. -/
def flowEdges : List (Fin count × Fin count) :=
  b.edges.filterMap fun e =>
    if h : (start ≤ e.src ∧ e.src < start + count) ∧ (start ≤ e.dst ∧ e.dst < start + count) ∧ e.kind ≠ .control then
      some (⟨e.src - start, by omega⟩, ⟨e.dst - start, by omega⟩)
    else none

def successors (v : Fin count) : List (Fin count) := ((flowEdges b start count).filter (·.1 = v)).map (·.2)

def isControl (kind : Option CfgNodeKind) : Bool := kind == some .branch || kind == some .loop

/-- What one branch controls by way of one of its successors. -/
def controlled (ip : Fin count → Option (Fin count)) (controller target : Fin count) : Option (List (Fin count)) :=
  (Dominance.reaches ip target (count + 1) (some controller)).bind fun skip =>
    if skip then some [] else Dominance.below ip (ip controller) (count + 1) (some target)

/-- The `Control` edges out of one node; `none` when a climb does not end. -/
def controlsOf (ip : Fin count → Option (Fin count)) (reachable : Finset (Fin count)) (controller : Fin count) :
    Option (List (Fin count × Fin count)) :=
  if isControl (b.kindOf (start + controller)) then
    let targets := (successors b start count controller).filter (· ∈ reachable)
    if targets.length < 2 then some []
    else (targets.mapM (controlled count ip controller)).map fun found => found.flatten.map (controller, ·)
  else some []

end

/-- **`control_dependence`** (cfg.rs:531-633). -/
def controlDependence (sf : SimpleFast) (b : Build) (entry exit : Nat) : Option Build :=
  let count := b.nodes.length - entry
  if !((List.range count).any fun n => isControl (b.kindOf (entry + n))) then some b
  else if h : 0 < count ∧ exit - entry < count then
    (Worklist.search (successors b entry count) (count + 1) ([⟨0, h.1⟩], {⟨0, h.1⟩})).bind fun reachable =>
      let exit' : Fin count := ⟨exit - entry, h.2⟩
      if exit' ∈ reachable then
        let ip := sf count ((flowEdges b entry count).map fun e => (e.2, e.1)) exit'
        (((List.finRange count).filter (· ∈ reachable)).mapM (controlsOf b entry count ip reachable)).map
          fun controls => controls.flatten.foldl (fun b e => b.edge (e.1 + entry) (e.2 + entry) .control) b
      else some b
  else some b

/-! ## Callables -/

/-- The entry and exit of a callable; nothing encloses it. -/
def openCallable (b : Build) (p : Path) (c : CstNode) : Build :=
  let entry := b.node p c .entry false
  let exit := entry.2.node p c .exit false
  { exit.2 with entry := entry.1, exit := exit.1, loops := [], catches := [] }

def join (entry exit : Nat) (flow : Flow) (b : Build) : Build :=
  match flow.entry with
  | some first => (b.edge entry first .next).connect flow.exits exit
  | none => b.edge entry exit .exit

def close (sf : SimpleFast) (p : Path) (entry exit : Nat) (flow : Flow) (b : Build) : Option Build :=
  (controlDependence sf (join entry exit flow b) entry exit).map fun b =>
    { b with closed := b.closed ++ [(p, entry, b.nodes.length)] }

/-- The first `recover` call inside a `defer` of the body. -/
def goRecoverTarget (p : Path) (body : Cst) : Option (Path × Cst) :=
  (descendants p body).findSome? fun d =>
    if d.2.label.kind = "defer_statement" then
      (descendants d.1 d.2).find? fun c =>
        (c.2.label.kind == "call_expression" || c.2.label.kind == "call") && c.2.label.target == "recover"
    else none

/-- The last child, when it ends where the callable ends: a signature has no body. -/
def bodyOf (t : Cst) : Option Cst := t.children.getLast?.filter (·.label.stop == t.label.stop)

def linkBody (p : Path) (callable : Path) (body : Cst) (b : Build) : Flow × Build :=
  let recover := goRecoverTarget p body
  let made : Option Nat × Build := match recover with
    | some (q, call) =>
      let target := b.node q call.label .stmt true
      (some target.1, target.2)
    | none => ((b.caught.find? (·.1 == callable)).map (·.2), b)
  match made.1 with
  | none => link p body made.2
  | some catch' =>
    let guarded := { made.2 with catches := catch' :: made.2.catches }
    let r := link p body (if recover.isSome then throwCallSites catch' false p body guarded else guarded)
    (r.1, { r.2 with catches := r.2.catches.tail })

/-- The flow of a callable's body, in the state its entry and exit leave. -/
def callableFlow (p : Path) (t : Cst) (b : Build) : Flow × Build :=
  match bodyOf t with
  | some body => linkBody (p ++ [t.children.length - 1]) p body b
  | none => (Flow.default, b)

/-- The folds of a clause's head, chained after the body. -/
def foldHead (p : Path) (head : Cst) (r : Flow × Build) : Flow × Build :=
  (descendants p head).foldl (fun r d =>
    if d.2.label.role = some .aggregate then
      let step := r.2.fold d.1 d.2.label
      step.2.chain r.1 step.1
    else r) r

/-- The body of a clause, then the folds of its head, then the head. -/
def clauseFlow (p : Path) (t : Cst) (b : Build) : Flow × Build :=
  match t.children with
  | [] => (Flow.default, b)
  | head :: body =>
    let folded := foldHead (p ++ [0]) head (linkSeq p 1 body Flow.default b)
    let produced := folded.2.leaf (p ++ [0]) head.label
    produced.2.chain folded.1 produced.1

def isCallable (t : Cst) : Bool := t.label.role == some .callable || t.label.role == some .clause

def callable (sf : SimpleFast) (b : Build) (c : Path × Cst) : Option Build :=
  let opened := openCallable b c.1 c.2.label
  let r := if c.2.label.role = some .clause then clauseFlow c.1 c.2 opened else callableFlow c.1 c.2 opened
  close sf c.1 opened.entry opened.exit r.1 r.2

/-- The callables of a file, in the order of the tree. -/
def callables (t : Cst) : List (Path × Cst) := (([], t) :: descendants [] t).filter fun d => isCallable d.2

/-- **The control flow of one file** (cfg.rs:234-257). -/
def buildCfg (sf : SimpleFast) (t : Cst) : Option Build := (callables t).foldlM (callable sf) Build.new

end HafleyScm.Cfg
