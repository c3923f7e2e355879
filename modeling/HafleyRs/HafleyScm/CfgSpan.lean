import HafleyRs.HafleyScm.Cfg

/-!
# What linking adds to a control flow graph

Linking only adds: nodes at the end, edges out of the nodes it has added, and breaks to the frame of the innermost
loop. `Span` says this of two states of the builder, together with what the added part satisfies: edges stay in the
callable (`EdgeOk`), a jump goes to its own loop (`JumpEdge`), and every statement but the pending ones is entered
from an earlier node or comes right after a node control does not leave (`Entered`, `stopper`). Spans compose
(`Span.trans`), and each operation of the builder is one.
-/

namespace HafleyScm.Cfg
open Preorder Preorder.Tree

/-! ## Loops around a tree node -/

/-- A tree node as `link` comes to it: the innermost loop of the callable around it, and whether its own role
counts. The block around the arms of `Cases` is no construct of its own. -/
structure Place where
  tree : Cst
  loop : Option Path
  skip : Bool

def isLoop (role : Option CfgRole) : Bool := role == some .loop || role == some .doLoop

def Place.child (pl : Place) (p : Path) (i : Nat) : Option Place :=
  pl.tree.children[i]?.map fun t =>
    ⟨t, if !pl.skip && isLoop pl.tree.label.role then some p else pl.loop,
      !pl.skip && pl.tree.label.role == some .cases && i + 1 == pl.tree.children.length⟩

/-- Down from a place at `p`. -/
def placeAt (p : Path) (pl : Place) : Path → Option Place
  | [] => some pl
  | i :: q => (pl.child p i).bind fun c => placeAt (p ++ [i]) c q

theorem placeAt_concat (p : Path) (pl : Place) (q : Path) (i : Nat) :
    placeAt p pl (q ++ [i]) = (placeAt p pl q).bind fun c => c.child (p ++ q) i := by
  induction q generalizing p pl with
  | nil =>
    simp only [List.nil_append, List.append_nil, placeAt, Option.bind_some]
    cases pl.child p i <;> rfl
  | cons j q ih =>
    simp only [List.cons_append, placeAt]
    cases pl.child p j with
    | none => rfl
    | some c => simp [ih]

/-- The place of `p` within the callable at `r`. -/
def place (r : Path) (t : Cst) (p : Path) : Option Place :=
  if r <+: p then placeAt r ⟨t, none, false⟩ (p.drop r.length) else none

/-- `link` comes to `p` in the callable at `r`, with `loop` around it. -/
def At (r : Path) (t : Cst) (p : Path) (pl : Place) : Prop := place r t p = some pl

theorem At.root (r : Path) (t : Cst) : At r t r ⟨t, none, false⟩ := by
  rw [At, place, if_pos (List.prefix_refl r), List.drop_length]
  rfl

theorem At.child {r p : Path} {t c : Cst} {pl : Place} {i : Nat} (h : At r t p pl)
    (hc : pl.tree.children[i]? = some c) :
    At r t (p ++ [i]) ⟨c, if !pl.skip && isLoop pl.tree.label.role then some p else pl.loop,
      !pl.skip && pl.tree.label.role == some .cases && i + 1 == pl.tree.children.length⟩ := by
  unfold At place at h ⊢
  split at h
  · rename_i hpre
    obtain ⟨q, rfl⟩ := hpre
    rw [List.drop_left] at h
    rw [if_pos ⟨q ++ [i], by simp⟩, List.append_assoc, List.drop_left, placeAt_concat, h]
    simp [Place.child, hc]
  · cases h

/-! ## The state of the builder -/

namespace Build

def originOf (b : Build) (n : Nat) : Option Path := b.nodes[n]?.map (·.origin)

section
variable (b : Build) (p : Path) (c : CstNode) (kind : CfgNodeKind) (site : Bool)

@[simp] theorem node_fst : (b.node p c kind site).1 = b.nodes.length := rfl
@[simp] theorem node_nodes : (b.node p c kind site).2.nodes = b.nodes ++ [⟨p, c.start, c.stop, kind, site⟩] := rfl
@[simp] theorem node_edges : (b.node p c kind site).2.edges = b.edges := rfl
@[simp] theorem node_loops : (b.node p c kind site).2.loops = b.loops := rfl
@[simp] theorem node_catches : (b.node p c kind site).2.catches = b.catches := rfl
@[simp] theorem node_caught : (b.node p c kind site).2.caught = b.caught := rfl
@[simp] theorem node_entry : (b.node p c kind site).2.entry = b.entry := rfl
@[simp] theorem node_exit : (b.node p c kind site).2.exit = b.exit := rfl
@[simp] theorem node_closed : (b.node p c kind site).2.closed = b.closed := rfl

end

section
variable (b : Build) (src dst : Nat) (kind : CfgEdgeKind)

theorem edge_eq : ∃ es, b.edge src dst kind = { b with edges := es } ∧
    ∀ e, e ∈ es ↔ e ∈ b.edges ∨ e = ⟨src, dst, kind⟩ := by
  unfold edge
  split
  · rename_i h
    refine ⟨b.edges, rfl, fun e => ⟨.inl, ?_⟩⟩
    rintro (he | rfl)
    · exact he
    · exact h
  · exact ⟨_, rfl, fun e => by simp⟩

theorem mem_edge {e : Edge} : e ∈ (b.edge src dst kind).edges ↔ e ∈ b.edges ∨ e = ⟨src, dst, kind⟩ := by
  obtain ⟨es, he, hmem⟩ := b.edge_eq src dst kind
  rw [he]
  exact hmem e

@[simp] theorem edge_nodes : (b.edge src dst kind).nodes = b.nodes := by
  obtain ⟨es, he, -⟩ := b.edge_eq src dst kind
  rw [he]

@[simp] theorem edge_loops : (b.edge src dst kind).loops = b.loops := by
  obtain ⟨es, he, -⟩ := b.edge_eq src dst kind
  rw [he]

@[simp] theorem edge_catches : (b.edge src dst kind).catches = b.catches := by
  obtain ⟨es, he, -⟩ := b.edge_eq src dst kind
  rw [he]

@[simp] theorem edge_caught : (b.edge src dst kind).caught = b.caught := by
  obtain ⟨es, he, -⟩ := b.edge_eq src dst kind
  rw [he]

@[simp] theorem edge_entry : (b.edge src dst kind).entry = b.entry := by
  obtain ⟨es, he, -⟩ := b.edge_eq src dst kind
  rw [he]

@[simp] theorem edge_exit : (b.edge src dst kind).exit = b.exit := by
  obtain ⟨es, he, -⟩ := b.edge_eq src dst kind
  rw [he]

@[simp] theorem edge_closed : (b.edge src dst kind).closed = b.closed := by
  obtain ⟨es, he, -⟩ := b.edge_eq src dst kind
  rw [he]

end

/-- Connecting adds one edge for each source. -/
theorem connect_eq (b : Build) (srcs : List Nat) (dst : Nat) :
    ∃ es, b.connect srcs dst = { b with edges := es } ∧
      ∀ e, e ∈ es ↔ e ∈ b.edges ∨ ∃ src ∈ srcs, e = ⟨src, dst, b.connectKind src dst⟩ := by
  unfold connect
  induction srcs generalizing b with
  | nil => exact ⟨b.edges, rfl, by simp⟩
  | cons src srcs ih =>
    obtain ⟨es, he, hmem⟩ := b.edge_eq src dst (b.connectKind src dst)
    obtain ⟨es', he', hmem'⟩ := ih { b with edges := es }
    refine ⟨es', by rw [List.foldl_cons, he, he'], fun e => ?_⟩
    rw [hmem', hmem]
    constructor
    · rintro ((h | rfl) | ⟨x, hx, rfl⟩)
      · exact .inl h
      · exact .inr ⟨src, List.mem_cons_self .., rfl⟩
      · exact .inr ⟨x, List.mem_cons_of_mem _ hx, rfl⟩
    · rintro (h | ⟨x, hx, rfl⟩)
      · exact .inl (.inl h)
      · rcases List.mem_cons.1 hx with rfl | hx
        · exact .inl (.inr rfl)
        · exact .inr ⟨x, hx, rfl⟩

@[simp] theorem connect_nodes (b : Build) (srcs : List Nat) (dst : Nat) : (b.connect srcs dst).nodes = b.nodes := by
  obtain ⟨es, he, -⟩ := b.connect_eq srcs dst
  rw [he]

theorem kindOf_of_prefix {b b' : Build} (h : b.nodes <+: b'.nodes) {n : Nat} (hn : n < b.nodes.length) :
    b'.kindOf n = b.kindOf n := by
  obtain ⟨l, hl⟩ := h
  rw [kindOf, kindOf, ← hl, List.getElem?_append_left hn]

theorem originOf_of_prefix {b b' : Build} (h : b.nodes <+: b'.nodes) {n : Nat} (hn : n < b.nodes.length) :
    b'.originOf n = b.originOf n := by
  obtain ⟨l, hl⟩ := h
  rw [originOf, originOf, ← hl, List.getElem?_append_left hn]

theorem lt_of_kindOf {b : Build} {n : Nat} {kind : CfgNodeKind} (h : b.kindOf n = some kind) :
    n < b.nodes.length := by
  by_contra hn
  rw [kindOf, List.getElem?_eq_none (Nat.le_of_not_lt hn)] at h
  cases h

end Build

/-! ## What holds of the added part -/

section
variable (tr : Cst) (r : Path) (s : Nat)

def innermostLoop (p : Path) : Option Path := (place r tr p).bind (·.loop)

def wordAt (p : Path) : Option String := (place r tr p).map (·.tree.label.word)

/-- An edge out of the jump made for `c`: `continue` re-enters the header of the innermost loop around `c`; another
jump goes where the header goes when the loop is over. -/
def JumpEdge (b : Build) (e : Edge) : Prop :=
  ∃ c l h, b.originOf e.src = some c ∧ innermostLoop tr r c = some l ∧ b.kindOf h = some .loop ∧
    b.originOf h = some l ∧ (s ≤ h ∧ h < e.src) ∧
    if wordAt tr r c = some "continue" then e.dst = h ∧ e.kind = .jump
    else ∃ k, (k = .next ∨ k = .exit) ∧ ⟨h, e.dst, k⟩ ∈ b.edges

/-- An edge added since the callable had `lo` nodes. -/
structure EdgeOk (lo : Nat) (b : Build) (e : Edge) : Prop where
  src_ge : lo ≤ e.src
  src_lt : e.src < b.nodes.length
  dst_lt : e.dst < b.nodes.length
  ne : e.dst ≠ e.src
  inside : e.kind ≠ .throw → s ≤ e.dst
  flow : e.kind ≠ .control
  jump : b.kindOf e.src = some .jump → JumpEdge tr r s b e

/-- An edge from an earlier node of the callable leads here. -/
def Entered (b : Build) (n : Nat) : Prop := ∃ e ∈ b.edges, e.dst = n ∧ s ≤ e.src ∧ e.src < n

/-- Control goes on from the node. -/
def Leaves (b : Build) (n : Nat) : Prop := ∃ e ∈ b.edges, e.src = n ∧ e.kind ≠ .control

/-- Control does not get past the node to the next one: a return, a jump, or a branch no edge leaves. -/
def Shut (b : Build) (n : Nat) : Prop :=
  b.kindOf n = some .ret ∨ b.kindOf n = some .jump ∨ (b.kindOf n = some .branch ∧ ¬ Leaves b n)

/-- A statement that was linked, not made for exceptional flow only. -/
def isStmt (b : Build) (n : Nat) : Prop := ∃ x, b.nodes[n]? = some x ∧ x.kind = .stmt ∧ x.site = false

def addBreaks (bs : List Nat) : List LoopFrame → List LoopFrame
  | [] => []
  | frame :: outer => { frame with breaks := frame.breaks ++ bs } :: outer

/-- A jump out of the loop `l`. -/
def Break (l : Option Path) (b : Build) (j : Nat) : Prop :=
  b.kindOf j = some .jump ∧
    ∃ c, b.originOf j = some c ∧ innermostLoop tr r c = l ∧ wordAt tr r c ≠ some "continue"

/-- From `b` to `b'` the builder has only added, within the loop `l`; `pend` are the statements still to be entered. -/
structure Span (l : Option Path) (pend : Nat → Prop) (b b' : Build) : Prop where
  nodes : b.nodes <+: b'.nodes
  edges : b.edges ⊆ b'.edges
  entry : b'.entry = b.entry
  exit : b'.exit = b.exit
  closed : b'.closed = b.closed
  catches : b'.catches = b.catches
  caught : ∀ x ∈ b'.caught, x ∈ b.caught ∨ x.2 < b'.nodes.length
  kinds : ∀ n, b.nodes.length ≤ n → b'.kindOf n ≠ some .entry ∧ b'.kindOf n ≠ some .exit
  fresh : ∀ e ∈ b'.edges, e ∈ b.edges ∨ EdgeOk tr r s b.nodes.length b' e
  breaks : ∃ bs, b'.loops = addBreaks bs b.loops ∧ ∀ j ∈ bs, b.nodes.length ≤ j ∧ Break tr r l b' j
  stmts : ∀ n, b.nodes.length ≤ n → isStmt b' n → Entered s b' n ∨ Shut b' (n - 1) ∨ pend n

end

variable {tr : Cst} {r : Path} {s : Nat} {l : Option Path} {b b' b'' : Build} {P Q : Nat → Prop}

/-! ## Adding keeps what held -/

/-- More nodes and more edges. -/
structure Extends (b b' : Build) : Prop where
  nodes : b.nodes <+: b'.nodes
  edges : b.edges ⊆ b'.edges

theorem Span.extends (h : Span tr r s l P b b') : Extends b b' := ⟨h.nodes, h.edges⟩

theorem Extends.trans (h : Extends b b') (h' : Extends b' b'') : Extends b b'' :=
  ⟨h.nodes.trans h'.nodes, List.Subset.trans h.edges h'.edges⟩

theorem Extends.le (h : Extends b b') : b.nodes.length ≤ b'.nodes.length := h.nodes.length_le

theorem Extends.kindOf (h : Extends b b') {n : Nat} {kind : CfgNodeKind} (hk : b.kindOf n = some kind) :
    b'.kindOf n = some kind := by
  rwa [Build.kindOf_of_prefix h.nodes (Build.lt_of_kindOf hk)]

theorem Extends.kindOf_lt (h : Extends b b') {n : Nat} (hn : n < b.nodes.length) : b'.kindOf n = b.kindOf n :=
  Build.kindOf_of_prefix h.nodes hn

theorem Extends.originOf (h : Extends b b') {n : Nat} {p : Path} (ho : b.originOf n = some p) :
    b'.originOf n = some p := by
  have hn : n < b.nodes.length := by
    by_contra hn
    rw [Build.originOf, List.getElem?_eq_none (Nat.le_of_not_lt hn)] at ho
    cases ho
  rwa [Build.originOf_of_prefix h.nodes hn]

theorem Extends.jumpEdge (h : Extends b b') {e : Edge} (he : JumpEdge tr r s b e) : JumpEdge tr r s b' e := by
  obtain ⟨c, l, k, hc, hl, hk, ho, hs, hto⟩ := he
  refine ⟨c, l, k, h.originOf hc, hl, h.kindOf hk, h.originOf ho, hs, ?_⟩
  split
  · rename_i hw
    rwa [if_pos hw] at hto
  · rename_i hw
    rw [if_neg hw] at hto
    obtain ⟨kind, hkind, hmem⟩ := hto
    exact ⟨kind, hkind, h.edges hmem⟩

theorem Extends.edgeOk (h : Extends b b') {lo : Nat} {e : Edge} (he : EdgeOk tr r s lo b e) :
    EdgeOk tr r s lo b' e where
  src_ge := he.src_ge
  src_lt := Nat.lt_of_lt_of_le he.src_lt h.le
  dst_lt := Nat.lt_of_lt_of_le he.dst_lt h.le
  ne := he.ne
  inside := he.inside
  flow := he.flow
  jump hk := h.jumpEdge (he.jump (by rwa [h.kindOf_lt he.src_lt] at hk))

theorem EdgeOk.mono {lo lo' : Nat} {e : Edge} (he : EdgeOk tr r s lo b e) (hle : lo' ≤ lo) : EdgeOk tr r s lo' b e :=
  { he with src_ge := Nat.le_trans hle he.src_ge }

theorem Extends.entered (h : Extends b b') {n : Nat} (he : Entered s b n) : Entered s b' n := by
  obtain ⟨e, hmem, hdst⟩ := he
  exact ⟨e, h.edges hmem, hdst⟩

theorem Extends.leaves (h : Extends b b') {n : Nat} (hn : Leaves b n) : Leaves b' n := by
  obtain ⟨e, he, hsrc⟩ := hn
  exact ⟨e, h.edges he, hsrc⟩

/-- What control does not get past stays so, unless a branch gets an edge. -/
theorem Extends.shut (h : Extends b b') {n : Nat} (hn : Shut b n)
    (hnew : b.kindOf n = some .branch → Leaves b' n → Leaves b n) : Shut b' n := by
  rcases hn with hn | hn | ⟨hn, hleaves⟩
  · exact .inl (h.kindOf hn)
  · exact .inr (.inl (h.kindOf hn))
  · exact .inr (.inr ⟨h.kindOf hn, fun hl => hleaves (hnew hn hl)⟩)

theorem Extends.isStmt (h : Extends b b') {n : Nat} (hlt : n < b.nodes.length) (hn : isStmt b' n) : isStmt b n := by
  obtain ⟨rest, hrest⟩ := h.nodes
  obtain ⟨x, hx, hkind⟩ := hn
  rw [← hrest, List.getElem?_append_left hlt] at hx
  exact ⟨x, hx, hkind⟩

theorem Extends.break (h : Extends b b') {j : Nat} (hj : Break tr r l b j) : Break tr r l b' j := by
  obtain ⟨hk, c, hc, hl⟩ := hj
  exact ⟨h.kindOf hk, c, h.originOf hc, hl⟩

theorem isStmt_lt {n : Nat} (h : isStmt b n) : n < b.nodes.length := by
  obtain ⟨x, hx, -⟩ := h
  exact (List.getElem?_eq_some_iff.1 hx).1

theorem addBreaks_addBreaks (bs bs' : List Nat) (loops : List LoopFrame) :
    addBreaks bs' (addBreaks bs loops) = addBreaks (bs ++ bs') loops := by
  cases loops <;> simp [addBreaks]

@[simp] theorem addBreaks_nil (loops : List LoopFrame) : addBreaks [] loops = loops := by
  cases loops <;> simp [addBreaks]

theorem Span.refl (hend : ∀ n, b.nodes.length ≤ n → b.kindOf n = none) : Span tr r s l (fun _ => False) b b where
  nodes := List.prefix_refl _
  edges := List.Subset.refl _
  entry := rfl
  exit := rfl
  closed := rfl
  catches := rfl
  caught _ hx := .inl hx
  kinds n hn := by simp [hend n hn]
  fresh _ he := .inl he
  breaks := ⟨[], by simp⟩
  stmts n hn h := by
    obtain ⟨x, hx, -⟩ := h
    rw [List.getElem?_eq_none hn] at hx
    cases hx

/-- The edges a span adds leave the nodes it adds. -/
theorem Span.leaves_of_lt (h : Span tr r s l P b b') {n : Nat} (hn : n < b.nodes.length) (hl : Leaves b' n) :
    Leaves b n := by
  obtain ⟨e, he, hsrc, hkind⟩ := hl
  rcases h.fresh e he with he | he
  · exact ⟨e, he, hsrc, hkind⟩
  · exact absurd he.src_ge (by omega)

/-- **Spans compose.** -/
theorem Span.trans (h : Span tr r s l P b b') (h' : Span tr r s l Q b' b'') :
    Span tr r s l (fun n => P n ∨ Q n) b b'' where
  nodes := h.nodes.trans h'.nodes
  edges := List.Subset.trans h.edges h'.edges
  entry := h'.entry.trans h.entry
  exit := h'.exit.trans h.exit
  closed := h'.closed.trans h.closed
  catches := h'.catches.trans h.catches
  caught x hx := by
    rcases h'.caught x hx with hx | hx
    · rcases h.caught x hx with hx | hx
      · exact .inl hx
      · exact .inr (Nat.lt_of_lt_of_le hx h'.extends.le)
    · exact .inr hx
  kinds n hn := by
    rcases Nat.lt_or_ge n b'.nodes.length with hlt | hge
    · rw [h'.extends.kindOf_lt hlt]
      exact h.kinds n hn
    · exact h'.kinds n hge
  fresh e he := by
    rcases h'.fresh e he with he | he
    · rcases h.fresh e he with he | he
      · exact .inl he
      · exact .inr (h'.extends.edgeOk he)
    · exact .inr (he.mono h.extends.le)
  breaks := by
    obtain ⟨bs, hbs, hjs⟩ := h.breaks
    obtain ⟨bs', hbs', hjs'⟩ := h'.breaks
    refine ⟨bs ++ bs', by rw [hbs', hbs, addBreaks_addBreaks], fun j hj => ?_⟩
    rcases List.mem_append.1 hj with hj | hj
    · exact ⟨(hjs j hj).1, h'.extends.break (hjs j hj).2⟩
    · exact ⟨Nat.le_trans h.extends.le (hjs' j hj).1, (hjs' j hj).2⟩
  stmts n hn hstmt := by
    rcases Nat.lt_or_ge n b'.nodes.length with hlt | hge
    · rcases h.stmts n hn (h'.extends.isStmt hlt hstmt) with he | he | he
      · exact .inl (h'.extends.entered he)
      · exact .inr (.inl (h'.extends.shut he fun _ => h'.leaves_of_lt (Nat.lt_of_le_of_lt (Nat.sub_le ..) hlt)))
      · exact .inr (.inr (.inl he))
    · rcases h'.stmts n hge hstmt with he | he | he
      · exact .inl he
      · exact .inr (.inl he)
      · exact .inr (.inr (.inr he))

theorem Span.weaken (h : Span tr r s l P b b')
    (hPQ : ∀ n, isStmt b' n → P n → Entered s b' n ∨ Shut b' (n - 1) ∨ Q n) : Span tr r s l Q b b' :=
  { h with
    stmts := fun n hn hstmt => by
      rcases h.stmts n hn hstmt with he | he | he
      · exact .inl he
      · exact .inr (.inl he)
      · exact hPQ n hstmt he }

/-- The same graph; the rest of the state may differ. -/
def Same (b b' : Build) : Prop := b'.nodes = b.nodes ∧ b'.edges = b.edges

theorem Same.extends (h : Same b b') : Extends b b' := ⟨by rw [h.1], by simp [h.2]⟩

theorem Same.symm (h : Same b b') : Same b' b := ⟨h.1.symm, h.2.symm⟩

/-- A span between graphs is one between all states with these graphs that add up. -/
theorem Span.transport {l' : Option Path} {b₀ b₁ : Build} (h : Span tr r s l P b b') (hb : Same b b₀)
    (hb' : Same b' b₁) (hentry : b₁.entry = b₀.entry) (hexit : b₁.exit = b₀.exit) (hclosed : b₁.closed = b₀.closed)
    (hcatches : b₁.catches = b₀.catches) (hcaught : ∀ x ∈ b₁.caught, x ∈ b₀.caught ∨ x.2 < b'.nodes.length)
    (hbreaks : ∃ bs, b₁.loops = addBreaks bs b₀.loops ∧ ∀ j ∈ bs, b.nodes.length ≤ j ∧ Break tr r l' b' j) :
    Span tr r s l' P b₀ b₁ where
  nodes := by
    rw [hb.1, hb'.1]
    exact h.nodes
  edges := by
    rw [hb.2, hb'.2]
    exact h.edges
  entry := hentry
  exit := hexit
  closed := hclosed
  catches := hcatches
  caught := by
    rw [hb'.1]
    exact hcaught
  kinds n hn := by
    rw [hb.1] at hn
    rw [Build.kindOf, hb'.1]
    exact h.kinds n hn
  fresh e he := by
    rw [hb'.2] at he
    rw [hb.1, hb.2]
    exact (h.fresh e he).imp_right hb'.extends.edgeOk
  breaks := by
    obtain ⟨bs, hbs, hjs⟩ := hbreaks
    rw [hb.1]
    exact ⟨bs, hbs, fun j hj => ⟨(hjs j hj).1, hb'.extends.break (hjs j hj).2⟩⟩
  stmts n hn hstmt := by
    rw [hb.1] at hn
    rw [isStmt, hb'.1] at hstmt
    rcases h.stmts n hn hstmt with he | he | he
    · exact .inl (hb'.extends.entered he)
    · exact .inr (.inl (hb'.extends.shut he fun _ => hb'.symm.extends.leaves))
    · exact .inr (.inr he)

theorem kindOf_end (b : Build) (n : Nat) (hn : b.nodes.length ≤ n) : b.kindOf n = none := by
  rw [Build.kindOf, List.getElem?_eq_none hn]
  rfl

/-- One node more; a statement among the nodes is still to be entered. -/
theorem Span.node (b : Build) (p : Path) (c : CstNode) {kind : CfgNodeKind} (site : Bool) (hentry : kind ≠ .entry)
    (hexit : kind ≠ .exit) : Span tr r s l (fun n => n = b.nodes.length ∧ kind = .stmt ∧ site = false) b
      (b.node p c kind site).2 where
  nodes := List.prefix_append _ _
  edges := List.Subset.refl _
  entry := rfl
  exit := rfl
  closed := rfl
  catches := rfl
  caught _ hx := .inl hx
  kinds n hn := by
    rcases Nat.eq_or_lt_of_le hn with rfl | hlt
    · simp [Build.kindOf, hentry, hexit]
    · rw [kindOf_end]
      · simp
      · simpa using hlt
  fresh _ he := .inl he
  breaks := ⟨[], by simp⟩
  stmts n hn h := by
    obtain ⟨x, hx, hkind, hsite⟩ := h
    rcases Nat.eq_or_lt_of_le hn with rfl | hlt
    · simp only [Build.node_nodes, List.getElem?_concat_length, Option.some.injEq] at hx
      subst hx
      exact .inr (.inr ⟨rfl, hkind, hsite⟩)
    · rw [List.getElem?_eq_none (by simpa using hlt)] at hx
      cases hx

/-- Edges out of the added part. A branch that gets one may be what kept a statement from being entered. -/
theorem Span.addEdges (h : Span tr r s l P b b') {es : List Edge} (hes : b'.edges ⊆ es)
    (hok : ∀ e ∈ es, e ∈ b'.edges ∨ EdgeOk tr r s b.nodes.length { b' with edges := es } e)
    (hshut : ∀ e ∈ es, e ∈ b'.edges ∨ (b'.kindOf e.src = some .branch → isStmt b' (e.src + 1) →
      Leaves b' e.src ∨ Entered s { b' with edges := es } (e.src + 1) ∨ P (e.src + 1))) :
    Span tr r s l P b { b' with edges := es } where
  nodes := h.nodes
  edges := List.Subset.trans h.edges hes
  entry := h.entry
  exit := h.exit
  closed := h.closed
  catches := h.catches
  caught := h.caught
  kinds := h.kinds
  fresh e he := by
    have hext : Extends b' { b' with edges := es } := ⟨List.prefix_refl _, hes⟩
    rcases hok e he with he | he
    · rcases h.fresh e he with he | he
      · exact .inl he
      · exact .inr (hext.edgeOk he)
    · exact .inr he
  breaks := h.breaks
  stmts n hn hstmt := by
    have hext : Extends b' { b' with edges := es } := ⟨List.prefix_refl _, hes⟩
    rcases h.stmts n hn hstmt with he | hs | he
    · exact .inl (hext.entered he)
    · by_cases hleft : ∃ e ∈ es, e.src = n - 1 ∧ e ∉ b'.edges
      · obtain ⟨e, he, hsrc, hnew⟩ := hleft
        have hbranch := (hshut e he).resolve_left hnew
        rcases hs with hk | hk | ⟨hk, hdead⟩
        · exact .inr (.inl (.inl hk))
        · exact .inr (.inl (.inr (.inl hk)))
        · rcases Nat.eq_zero_or_pos n with rfl | hpos
          · obtain ⟨x, hx, hkind, -⟩ := hstmt
            have hx' : b'.nodes[0]? = some x := hx
            simp [Build.kindOf, hx', hkind] at hk
          · obtain rfl : n = e.src + 1 := by omega
            rcases hbranch hk hstmt with hl | hent | hp
            · exact absurd hl hdead
            · exact .inl hent
            · exact .inr (.inr hp)
      · refine .inr (.inl (hext.shut hs fun _ hl => ?_))
        obtain ⟨e, he, hsrc, hkind⟩ := hl
        by_cases hmem : e ∈ b'.edges
        · exact ⟨e, hmem, hsrc, hkind⟩
        · exact absurd ⟨e, he, hsrc, hmem⟩ hleft
    · exact .inr (.inr he)

end HafleyScm.Cfg
