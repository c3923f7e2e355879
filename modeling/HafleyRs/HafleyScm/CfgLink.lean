import HafleyRs.HafleyScm.CfgSpan

/-!
# Linking a callable

| here | there |
| --- | --- |
| `Good` | the state while a callable is linked: its entry and exit, the loop around (cfg.rs:496-506) |
| `Ends` | the open exits of a flow |
| `Linked` | what a call of `link` or of one of its forms gives |

Each form is linked by the same few steps: make a node, link a child, join the two with edges. A subtree that is
linked enters at its first node, and its open exits are joined to what comes next (`Linked.chain`); a loop joins
them to its header (`closeLoop_linked`).
-/

namespace HafleyScm.Cfg
open Preorder Preorder.Tree

section
variable (tr : Cst) (r : Path) (s : Nat)

/-- `h` is the header of the loop that the jump `j` leaves. -/
def HeadOf (b : Build) (j h : Nat) : Prop :=
  ∃ l, Break tr r (some l) b j ∧ b.kindOf h = some .loop ∧ b.originOf h = some l ∧ s ≤ h ∧ h < j

/-- The state in which a callable from `s` on is linked, within the loop `l`. -/
structure Good (l : Option Path) (b : Build) : Prop where
  entry : b.entry = s
  exit : b.exit = s + 1
  size : s + 2 ≤ b.nodes.length
  edges : ∀ e ∈ b.edges, e.src < b.nodes.length
  catches : ∀ n ∈ b.catches, n < b.nodes.length
  caught : ∀ x ∈ b.caught, x.2 < b.nodes.length
  loop : match l with
    | none => b.loops = []
    | some p => ∃ frame outer, b.loops = frame :: outer ∧ b.kindOf frame.header = some .loop ∧
        b.originOf frame.header = some p ∧ s ≤ frame.header

/-- The open exits of a flow: a jump among them leaves a loop whose header is among them. -/
structure Ends (Q : Nat → Prop) (lo : Nat) (b : Build) (exits : List Nat) : Prop where
  ge : ∀ x ∈ exits, lo ≤ x
  lt : ∀ x ∈ exits, x < b.nodes.length
  pair : ∀ x ∈ exits, b.kindOf x = some .jump → ∃ h ∈ exits, HeadOf tr r s b x h
  live : ∀ x ∈ exits, b.kindOf x = some .branch → isStmt b (x + 1) →
    Leaves b x ∨ Entered s b (x + 1) ∨ Q (x + 1)

/-- What linking a subtree gives: its first node is its entry, and what cannot go on ends in a node control does not
leave. -/
structure Linked (l : Option Path) (b : Build) (flow : Flow) (b' : Build) : Prop where
  span : Span tr r s l (fun n => n = b.nodes.length) b b'
  entry : (flow.entry = some b.nodes.length ∧ b.nodes.length < b'.nodes.length) ∨
    (flow.entry = none ∧ flow.exits = [] ∧ b'.nodes.length = b.nodes.length)
  ends : Ends tr r s (fun _ => False) b.nodes.length b' flow.exits
  stuck : flow.entry ≠ none → flow.exits = [] → Shut b' (b'.nodes.length - 1)

end

variable {tr : Cst} {r : Path} {s : Nat} {l : Option Path} {b b' b₁ b₂ : Build} {P Q Q' : Nat → Prop}

/-! ## States -/

theorem Span.good (h : Span tr r s l P b b') (hg : Good s l b) : Good s l b' where
  entry := h.entry.trans hg.entry
  exit := h.exit.trans hg.exit
  size := Nat.le_trans hg.size h.extends.le
  edges e he := by
    rcases h.fresh e he with he | he
    · exact Nat.lt_of_lt_of_le (hg.edges e he) h.extends.le
    · exact he.src_lt
  catches n hn := by
    rw [h.catches] at hn
    exact Nat.lt_of_lt_of_le (hg.catches n hn) h.extends.le
  caught x hx := by
    rcases h.caught x hx with hx | hx
    · exact Nat.lt_of_lt_of_le (hg.caught x hx) h.extends.le
    · exact hx
  loop := by
    obtain ⟨bs, hbs, -⟩ := h.breaks
    have hloop := hg.loop
    cases l with
    | none => rw [hbs, hloop, addBreaks]
    | some p =>
      obtain ⟨frame, outer, hframe, hkind, horigin, hge⟩ := hloop
      exact ⟨⟨frame.header, frame.breaks ++ bs⟩, outer, by rw [hbs, hframe, addBreaks], h.extends.kindOf hkind,
        h.extends.originOf horigin, hge⟩

theorem Good.le (hg : Good s l b) : s ≤ b.nodes.length := by
  have := hg.size
  omega

theorem Good.not_leaves (hg : Good s l b) {n : Nat} (hn : b.nodes.length ≤ n) : ¬ Leaves b n := by
  rintro ⟨e, he, rfl, -⟩
  exact absurd (hg.edges e he) (by omega)

/-! ## Open exits -/

theorem Ends.nil {lo : Nat} : Ends tr r s Q lo b [] := ⟨by simp, by simp, by simp, by simp⟩

theorem Ends.append {lo : Nat} {xs ys : List Nat} (hx : Ends tr r s Q lo b xs) (hy : Ends tr r s Q lo b ys) :
    Ends tr r s Q lo b (xs ++ ys) where
  ge x h := (List.mem_append.1 h).elim (hx.ge x) (hy.ge x)
  lt x h := (List.mem_append.1 h).elim (hx.lt x) (hy.lt x)
  pair x h hk := by
    rcases List.mem_append.1 h with h | h
    · obtain ⟨k, hmem, hhead⟩ := hx.pair x h hk
      exact ⟨k, List.mem_append_left _ hmem, hhead⟩
    · obtain ⟨k, hmem, hhead⟩ := hy.pair x h hk
      exact ⟨k, List.mem_append_right _ hmem, hhead⟩
  live x h := (List.mem_append.1 h).elim (hx.live x) (hy.live x)

theorem Ends.mono {lo lo' : Nat} {xs : List Nat} (h : Ends tr r s Q lo b xs) (hle : lo' ≤ lo) :
    Ends tr r s Q lo' b xs :=
  { h with ge := fun x hx => Nat.le_trans hle (h.ge x hx) }

theorem Ends.weaken {lo : Nat} {xs : List Nat} (h : Ends tr r s Q lo b xs) (hQ : ∀ n, Q n → Q' n) :
    Ends tr r s Q' lo b xs :=
  { h with live := fun x hx hk hn => (h.live x hx hk hn).imp_right fun h => h.imp_right (hQ _) }

/-- Pending statements that are entered after all. -/
theorem Ends.settle {lo : Nat} {xs : List Nat} (h : Ends tr r s Q lo b xs)
    (hQ : ∀ n, isStmt b n → Q n → Entered s b n) : Ends tr r s Q' lo b xs :=
  { h with
    live := fun x hx hk hn => by
      rcases h.live x hx hk hn with hl | he | hq
      · exact .inl hl
      · exact .inr (.inl he)
      · exact .inr (.inl (hQ _ hn hq)) }

theorem Ends.flatMap {α : Type} {lo : Nat} {as : List α} {f : α → List Nat} (h : ∀ a ∈ as, Ends tr r s Q lo b (f a)) :
    Ends tr r s Q lo b (as.flatMap f) := by
  induction as with
  | nil => exact .nil
  | cons a as ih =>
    rw [List.flatMap_cons]
    exact (h a (List.mem_cons_self ..)).append (ih fun a ha => h a (List.mem_cons_of_mem _ ha))

/-- The exits stay open when more is linked; the first node after them is entered or pending. -/
theorem Ends.extend {lo : Nat} {xs : List Nat} (h : Ends tr r s Q lo b xs) (hx : Extends b b')
    (hnext : isStmt b' b.nodes.length → Entered s b' b.nodes.length ∨ Q b.nodes.length) : Ends tr r s Q lo b' xs where
  ge := h.ge
  lt x hmem := Nat.lt_of_lt_of_le (h.lt x hmem) hx.le
  pair x hmem hk := by
    rw [hx.kindOf_lt (h.lt x hmem)] at hk
    obtain ⟨k, hk, l, hbreak, hloop, ho, hge⟩ := h.pair x hmem hk
    exact ⟨k, hk, l, hx.break hbreak, hx.kindOf hloop, hx.originOf ho, hge⟩
  live x hmem hk hstmt := by
    have hlt := h.lt x hmem
    rw [hx.kindOf_lt hlt] at hk
    rcases Nat.eq_or_lt_of_le hlt with heq | hlt
    · rw [← heq] at hnext
      exact .inr (hnext hstmt)
    · rcases h.live x hmem hk (hx.isStmt hlt hstmt) with he | he | he
      · exact .inl (hx.leaves he)
      · exact .inr (.inl (hx.entered he))
      · exact .inr (.inr he)

theorem Ends.extend_edges {lo : Nat} {xs : List Nat} (h : Ends tr r s Q lo b xs) (hx : Extends b b')
    (hlen : b'.nodes.length = b.nodes.length) : Ends tr r s Q lo b' xs :=
  h.extend hx fun hn => absurd (isStmt_lt hn) (by omega)

/-- One exit, not a jump; after a branch comes a statement only once an edge leaves the branch. -/
theorem Ends.single {lo x : Nat} (hge : lo ≤ x) (hlt : x < b.nodes.length) (hjump : b.kindOf x ≠ some .jump)
    (hlive : b.kindOf x = some .branch → isStmt b (x + 1) → Leaves b x) : Ends tr r s Q lo b [x] where
  ge := by simpa using hge
  lt := by simpa using hlt
  pair y hy hk := by
    obtain rfl : y = x := by simpa using hy
    exact absurd hk hjump
  live y hy hk hn := by
    obtain rfl : y = x := by simpa using hy
    exact .inl (hlive hk hn)

/-! ## Edges -/

theorem extends_edges {es : List Edge} (h : b.edges ⊆ es) : Extends b { b with edges := es } :=
  ⟨List.prefix_refl _, h⟩

theorem extends_edge (src dst : Nat) (kind : CfgEdgeKind) : Extends b (b.edge src dst kind) :=
  ⟨by simp, fun _ he => (b.mem_edge ..).2 (.inl he)⟩

theorem extends_connect (srcs : List Nat) (dst : Nat) : Extends b (b.connect srcs dst) := by
  obtain ⟨es, he, hmem⟩ := b.connect_eq srcs dst
  rw [he]
  exact extends_edges fun e h => (hmem e).2 (.inl h)

theorem Span.edge (h : Span tr r s l P b b') {src dst : Nat} {kind : CfgEdgeKind}
    (hok : EdgeOk tr r s b.nodes.length (b'.edge src dst kind) ⟨src, dst, kind⟩)
    (hshut : b'.kindOf src = some .branch → isStmt b' (src + 1) →
      Leaves b' src ∨ Entered s (b'.edge src dst kind) (src + 1) ∨ P (src + 1)) :
    Span tr r s l P b (b'.edge src dst kind) := by
  obtain ⟨es, he, hmem⟩ := b'.edge_eq src dst kind
  rw [he] at hok hshut ⊢
  refine h.addEdges (fun e h => (hmem e).2 (.inl h)) (fun e h => ?_) fun e h => ?_
  · rcases (hmem e).1 h with h | rfl
    · exact .inl h
    · exact .inr hok
  · rcases (hmem e).1 h with h | rfl
    · exact .inl h
    · exact .inr hshut

/-- The open exits joined to a node. -/
theorem Span.connect (h : Span tr r s l P b b') {srcs : List Nat} (hs : Ends tr r s P b.nodes.length b' srcs)
    {dst : Nat} (hin : s ≤ dst) (hlt : dst < b'.nodes.length) (hne : dst ∉ srcs) :
    Span tr r s l P b (b'.connect srcs dst) := by
  obtain ⟨es, he, hmem⟩ := b'.connect_eq srcs dst
  have hext : Extends b' { b' with edges := es } := extends_edges fun e h => (hmem e).2 (.inl h)
  rw [he]
  refine h.addEdges hext.edges (fun e h => ?_) fun e h => ?_
  · rcases (hmem e).1 h with h | ⟨x, hx, rfl⟩
    · exact .inl h
    · have hxd : dst ≠ x := by
        rintro rfl
        exact hne hx
      refine .inr ⟨hs.ge x hx, hs.lt x hx, hlt, hxd, fun _ => hin, ?_, fun hk => ?_⟩
      · simp only [Build.connectKind]
        split_ifs <;> simp
      · obtain ⟨k, hk, l', ⟨-, c, hc, hl, hw⟩, hloop, ho, hge⟩ := hs.pair x hx hk
        refine ⟨c, l', k, hc, hl, hloop, ho, hge, ?_⟩
        rw [if_neg hw]
        refine ⟨b'.connectKind k dst, ?_, (hmem _).2 (.inr ⟨k, hk, rfl⟩)⟩
        simp only [Build.connectKind, hloop]
        split_ifs <;> simp_all
  · rcases (hmem e).1 h with h | ⟨x, hx, rfl⟩
    · exact .inl h
    · refine .inr fun hk hn => ?_
      rcases hs.live x hx hk hn with h | h | h
      · exact .inl h
      · exact .inr (.inl (hext.entered h))
      · exact .inr (.inr h)

/-! ## One step after another -/

theorem Linked.good {flow : Flow} (h : Linked tr r s l b flow b') (hg : Good s l b) : Good s l b' := h.span.good hg

theorem Linked.default : Linked tr r s l b Flow.default b where
  span := (Span.refl fun n hn => kindOf_end b n hn).weaken fun _ _ h => h.elim
  entry := .inr ⟨rfl, rfl, rfl⟩
  ends := .nil
  stuck h := absurd rfl h

/-- What is shut stays so when no edge out of it is added. -/
theorem Extends.shut_of_edges (hx : Extends b b') {n : Nat} (hn : Shut b n)
    (hnew : ∀ e ∈ b'.edges, e.src = n → e ∈ b.edges) : Shut b' n :=
  hx.shut hn fun _ ⟨e, he, hsrc, hkind⟩ => ⟨e, hnew e he hsrc, hsrc, hkind⟩

theorem Span.shut (h : Span tr r s l P b b') {n : Nat} (hlt : n < b.nodes.length) (hn : Shut b n) : Shut b' n :=
  h.extends.shut hn fun _ => h.leaves_of_lt hlt

/-- A step with a node of its own, behind a flow with one: the open exits go to it. -/
theorem Linked.join (hg : Good s l b) {flow step : Flow} {first : Nat} (h : Linked tr r s l b flow b₁)
    (h' : Linked tr r s l b₁ step b₂) (hfirst : flow.entry = some first) (hstep : step.entry = some b₁.nodes.length) :
    Linked tr r s l b ⟨some first, step.exits⟩ (b₂.connect flow.exits b₁.nodes.length) := by
  have hsize := hg.size
  have hle := h.span.extends.le
  have hle' := h'.span.extends.le
  have hlt : b₁.nodes.length < b₂.nodes.length := by
    rcases h'.entry with ⟨-, hlt⟩ | ⟨hnone, -⟩
    · exact hlt
    · rw [hstep] at hnone
      cases hnone
  have hends : Ends tr r s (fun n => n = b.nodes.length ∨ n = b₁.nodes.length) b.nodes.length b₂ flow.exits :=
    (h.ends.weaken fun _ h => h.elim).extend h'.span.extends fun _ => .inr (.inr rfl)
  have hjoin := (h.span.trans h'.span).connect hends (by omega) hlt fun hmem => absurd (h.ends.lt _ hmem) (by omega)
  have hext : Extends b₂ (b₂.connect flow.exits b₁.nodes.length) := extends_connect _ _
  obtain ⟨es, he, hmem⟩ := b₂.connect_eq flow.exits b₁.nodes.length
  refine ⟨hjoin.weaken fun n hn hp => ?_, .inl ⟨?_, ?_⟩, ?_, fun _ hexits => ?_⟩
  · rcases hp with rfl | rfl
    · exact .inr (.inr rfl)
    · rcases List.eq_nil_or_concat flow.exits with hnil | ⟨xs, x, hxs⟩
      · have hshut := h'.span.shut (by omega) (h.stuck (by simp [hfirst]) hnil)
        rw [hnil]
        exact .inr (.inl hshut)
      · have hx : x ∈ flow.exits := by simp [hxs]
        refine .inl ⟨⟨x, b₁.nodes.length, b₂.connectKind x b₁.nodes.length⟩, ?_, rfl, ?_, h.ends.lt x hx⟩
        · rw [he]
          exact (hmem _).2 (.inr ⟨x, hx, rfl⟩)
        · have := h.ends.ge x hx
          show s ≤ x
          omega
  · rcases h.entry with ⟨hentry, -⟩ | ⟨hnone, -⟩
    · exact hfirst.symm.trans hentry
    · rw [hfirst] at hnone
      cases hnone
  · rw [Build.connect_nodes]
    omega
  · exact (h'.ends.mono hle).extend_edges hext (by simp)
  · have hshut := h'.stuck (by simp [hstep]) hexits
    rw [he] at hext ⊢
    refine hext.shut_of_edges hshut fun e hmem' hsrc => ?_
    rcases (hmem e).1 hmem' with h' | ⟨x, hx, rfl⟩
    · exact h'
    · have hlow : x < b₁.nodes.length := h.ends.lt x hx
      have heq : x = b₂.nodes.length - 1 := hsrc
      omega

theorem Linked.chain (hg : Good s l b) {flow step : Flow} (h : Linked tr r s l b flow b₁)
    (h' : Linked tr r s l b₁ step b₂) :
    Linked tr r s l b (b₂.chain flow step).1 (b₂.chain flow step).2 := by
  have hboth := h.span.trans h'.span
  have hsize := hg.size
  have hle := h.span.extends.le
  rcases h'.entry with ⟨hstep, hlt⟩ | ⟨hstep, -, hsame⟩
  · cases hflow : flow.entry with
    | some first =>
      simp only [Build.chain, hstep, hflow]
      exact h.join hg h' hflow hstep
    | none =>
      rcases h.entry with ⟨hentry, -⟩ | ⟨-, -, hsame⟩
      · rw [hflow] at hentry
        cases hentry
      simp only [Build.chain, hstep, hflow]
      rw [hsame] at hstep hlt
      refine ⟨hboth.weaken fun n _ hp => .inr (.inr ?_), .inl ⟨hsame ▸ rfl, hlt⟩, h'.ends.mono hle, fun _ => ?_⟩
      · rcases hp with hp | hp
        · exact hp
        · exact hp.trans hsame
      · exact h'.stuck (by simp [hstep])
  · simp only [Build.chain, hstep]
    refine ⟨hboth.weaken fun n hn hp => ?_, ?_, ?_, fun hentry hexits => ?_⟩
    · rcases hp with rfl | rfl
      · exact .inr (.inr rfl)
      · exact absurd (isStmt_lt hn) (by omega)
    · rw [hsame]
      exact h.entry
    · exact h.ends.extend_edges h'.span.extends hsame
    · rw [hsame]
      exact h'.span.shut (by omega) (h.stuck hentry hexits)

/-! ## Forms that are one node -/

section
variable (p : Path) (c : CstNode) (kind : CfgNodeKind) (site : Bool)

@[simp] theorem kindOf_node_end : (b.node p c kind site).2.kindOf b.nodes.length = some kind := by
  simp [Build.kindOf]

@[simp] theorem originOf_node_end : (b.node p c kind site).2.originOf b.nodes.length = some p := by
  simp [Build.originOf]

theorem node_length : (b.node p c kind site).2.nodes.length = b.nodes.length + 1 := by simp

end

/-- A node that is entry and exit of its flow. -/
theorem Linked.node (p : Path) (c : CstNode) {kind : CfgNodeKind} (hentry : kind ≠ .entry) (hexit : kind ≠ .exit)
    (hjump : kind ≠ .jump) :
    Linked tr r s l b ⟨some b.nodes.length, [b.nodes.length]⟩ (b.node p c kind false).2 where
  span := (Span.node b p c false hentry hexit).weaken fun _ _ h => .inr (.inr h.1)
  entry := .inl ⟨rfl, by simp⟩
  ends := Ends.single (Nat.le_refl _) (by simp) (by simpa using hjump) fun _ hn => absurd (isStmt_lt hn) (by simp)
  stuck _ h := by cases h

/-- A node control does not get past, with at most one edge out of it. -/
theorem Linked.last (p : Path) (c : CstNode) {kind : CfgNodeKind} (hkind : kind = .ret ∨ kind = .jump) :
    Linked tr r s l b ⟨some b.nodes.length, []⟩ (b.node p c kind false).2 where
  span := (Span.node b p c false (by rcases hkind with rfl | rfl <;> simp)
    (by rcases hkind with rfl | rfl <;> simp)).weaken fun _ _ h => .inr (.inr h.1)
  entry := .inl ⟨rfl, by simp⟩
  ends := .nil
  stuck _ _ := by
    rcases hkind with rfl | rfl
    · exact .inl (by simp)
    · exact .inr (.inl (by simp))

/-- An edge out of the last node, when that is not a branch. -/
theorem Linked.edge {flow : Flow} (h : Linked tr r s l b flow b') {src dst : Nat} {kind : CfgEdgeKind}
    (hok : EdgeOk tr r s b.nodes.length (b'.edge src dst kind) ⟨src, dst, kind⟩)
    (hbranch : b'.kindOf src ≠ some .branch) : Linked tr r s l b flow (b'.edge src dst kind) where
  span := h.span.edge hok fun hk => absurd hk hbranch
  entry := by simpa using h.entry
  ends := h.ends.extend_edges (extends_edge ..) (by simp)
  stuck hentry hexits := by
    have hext : Extends b' (b'.edge src dst kind) := extends_edge ..
    rw [Build.edge_nodes]
    refine hext.shut (h.stuck hentry hexits) fun hk ⟨e, he, hsrc, hkind⟩ => ?_
    rcases (b'.mem_edge ..).1 he with he | rfl
    · exact ⟨e, he, hsrc, hkind⟩
    · have hsrc' : src = b'.nodes.length - 1 := hsrc
      exact absurd (hsrc' ▸ hk) hbranch

/-- An edge from the node made last to one made before. -/
theorem EdgeOk.back (p : Path) (c : CstNode) {kind : CfgNodeKind} {site : Bool} {dst : Nat} {ekind : CfgEdgeKind}
    (hdst : dst < b.nodes.length) (hin : ekind ≠ .throw → s ≤ dst) (hflow : ekind ≠ .control)
    (hjump : kind = .jump → JumpEdge tr r s ((b.node p c kind site).2.edge b.nodes.length dst ekind)
      ⟨b.nodes.length, dst, ekind⟩) :
    EdgeOk tr r s b.nodes.length ((b.node p c kind site).2.edge b.nodes.length dst ekind)
      ⟨b.nodes.length, dst, ekind⟩ where
  src_ge := Nat.le_refl _
  src_lt := by simp
  dst_lt := by
    simp only [Build.edge_nodes, node_length]
    omega
  ne h := by
    have : dst = b.nodes.length := h
    omega
  inside := hin
  flow := hflow
  jump hk := by
    refine hjump ?_
    have hk' : (b.node p c kind site).2.kindOf b.nodes.length = some .jump := by
      simpa [Build.kindOf] using hk
    simpa using hk'

theorem linkJump_linked (hg : Good s l b) {p : Path} {pl : Place} (hat : At r tr p pl) (hl : pl.loop = l) :
    Linked tr r s l b (linkJump p pl.tree.label b).1 (linkJump p pl.tree.label b).2 := by
  have hnode : Linked tr r s l b ⟨some b.nodes.length, []⟩ (b.node p pl.tree.label .jump false).2 :=
    .last p _ (.inr rfl)
  have hplace : place r tr p = some pl := hat
  have hloops := hg.loop
  unfold linkJump
  cases l with
  | none =>
    simp only [Build.node_loops, hloops]
    exact hnode
  | some l =>
    obtain ⟨frame, outer, hframe, hloop, ho, hge⟩ := hloops
    simp only [Build.node_loops, hframe]
    split
    · rename_i hw
      refine hnode.edge (EdgeOk.back p _ (Build.lt_of_kindOf hloop) (fun _ => hge) (by simp) fun _ => ?_) (by simp)
      have hext : Extends b ((b.node p pl.tree.label .jump false).2.edge b.nodes.length frame.header .jump) :=
        ⟨by simp, fun e he => (Build.mem_edge ..).2 (.inl he)⟩
      refine ⟨p, l, frame.header, ?_, ?_, hext.kindOf hloop, hext.originOf ho, ⟨hge, Build.lt_of_kindOf hloop⟩, ?_⟩
      · simp [Build.originOf]
      · rw [innermostLoop, hplace, Option.bind_some, hl]
      · rw [if_pos (by rw [wordAt, hplace, Option.map_some, hw])]
        exact ⟨rfl, rfl⟩
    · rename_i hw
      have hbreak : Break tr r (some l) (b.node p pl.tree.label .jump false).2 b.nodes.length := by
        refine ⟨by simp, p, by simp, ?_, ?_⟩
        · rw [innermostLoop, hplace, Option.bind_some, hl]
        · rw [wordAt, hplace, Option.map_some]
          exact fun h => hw (Option.some.inj h)
      have hsame : Same (b.node p pl.tree.label .jump false).2 { (b.node p pl.tree.label .jump false).2 with
          loops := ⟨frame.header, frame.breaks ++ [b.nodes.length]⟩ :: outer } := ⟨rfl, rfl⟩
      refine ⟨hnode.span.transport ⟨rfl, rfl⟩ hsame rfl rfl rfl rfl (fun _ h => .inl h) ⟨[b.nodes.length], ?_, ?_⟩,
        hnode.entry, .nil, fun hentry hexits => ?_⟩
      · simp [hframe, addBreaks]
      · intro j hj
        obtain rfl : j = b.nodes.length := by simpa using hj
        exact ⟨Nat.le_refl _, hbreak⟩
      · exact hsame.extends.shut (hnode.stuck hentry hexits) fun _ => hsame.symm.extends.leaves

/-! ## Loops -/

/-- Inside a new loop. -/
theorem Good.openLoop (hg : Good s l b) (p : Path) (c : CstNode) :
    Good s (some p) (openLoop b.nodes.length (b.node p c .loop false).2) where
  entry := hg.entry
  exit := hg.exit
  size := by
    have := hg.size
    simp only [Cfg.openLoop, node_length]
    omega
  edges e he := by
    simp only [Cfg.openLoop, node_length]
    exact Nat.lt_succ_of_lt (hg.edges e he)
  catches n hn := by
    simp only [Cfg.openLoop, node_length]
    exact Nat.lt_succ_of_lt (hg.catches n hn)
  caught x hx := by
    simp only [Cfg.openLoop, node_length]
    exact Nat.lt_succ_of_lt (hg.caught x hx)
  loop := ⟨⟨b.nodes.length, []⟩, b.loops, rfl, kindOf_node_end .., originOf_node_end .., hg.le⟩

/-- The header of a loop and the breaks out of it. -/
theorem Ends.loop (hg : Good s l b) {p : Path} (hkind : b'.kindOf b.nodes.length = some .loop)
    (horigin : b'.originOf b.nodes.length = some p) {bs : List Nat}
    (hbs : ∀ j ∈ bs, b.nodes.length < j ∧ Break tr r (some p) b' j) :
    Ends tr r s (fun _ => False) b.nodes.length b' (b.nodes.length :: bs) where
  ge x hx := by
    rcases List.mem_cons.1 hx with rfl | hx
    · exact Nat.le_refl _
    · exact Nat.le_of_lt (hbs x hx).1
  lt x hx := by
    rcases List.mem_cons.1 hx with rfl | hx
    · exact Build.lt_of_kindOf hkind
    · exact Build.lt_of_kindOf (hbs x hx).2.1
  pair x hx hk := by
    rcases List.mem_cons.1 hx with rfl | hx
    · rw [hkind] at hk
      cases hk
    · exact ⟨b.nodes.length, List.mem_cons_self .., p, (hbs x hx).2, hkind, horigin, hg.le, (hbs x hx).1⟩
  live x hx hk := by
    rcases List.mem_cons.1 hx with rfl | hx
    · rw [hkind] at hk
      cases hk
    · rw [(hbs x hx).2.1] at hk
      cases hk

theorem closeLoop_linked (hg : Good s l b) {p : Path} {c : CstNode} {flow : Flow}
    (h : Linked tr r s (some p) (openLoop b.nodes.length (b.node p c .loop false).2) flow b') :
    Linked tr r s l b (closeLoop b.nodes.length (flow, b')).1 (closeLoop b.nodes.length (flow, b')).2 := by
  have hlen : (openLoop b.nodes.length (b.node p c .loop false).2).nodes.length = b.nodes.length + 1 := by
    simp [openLoop]
  obtain ⟨bs, hloops, hbs⟩ := h.span.breaks
  have hle := h.span.extends.le
  rw [hlen] at hle hbs
  have hloops' : b'.loops = ⟨b.nodes.length, bs⟩ :: b.loops := by simpa [openLoop, addBreaks] using hloops
  have hsame : Same b' { b' with loops := b'.loops.tail } := ⟨rfl, rfl⟩
  have hpopped : Span tr r s l (fun n => n = b.nodes.length + 1) b { b' with loops := b'.loops.tail } := by
    have hinner : Span tr r s l _ (b.node p c .loop false).2 { b' with loops := b'.loops.tail } :=
      h.span.transport ⟨rfl, rfl⟩ hsame h.span.entry h.span.exit h.span.closed h.span.catches h.span.caught
        ⟨[], by simp [hloops'], by simp⟩
    refine ((Span.node b p c false (by simp) (by simp)).trans hinner).weaken fun n _ hp => .inr (.inr ?_)
    rcases hp with ⟨-, hk, -⟩ | hp
    · cases hk
    · rw [hp, hlen]
  have hkind := h.span.extends.kindOf (kindOf_node_end (b := b) p c .loop false)
  have horigin := h.span.extends.originOf (originOf_node_end (b := b) p c .loop false)
  have hends : Ends tr r s (fun _ => False) b.nodes.length b' (b.nodes.length :: bs) :=
    Ends.loop hg hkind horigin hbs
  simp only [closeLoop, hloops', List.head?_cons, Option.elim_some, List.tail_cons]
  rw [hloops', List.tail_cons] at hpopped hsame
  rcases h.entry with ⟨hentry, hlt⟩ | ⟨hentry, -, hshort⟩
  · rw [hlen] at hentry hlt
    rw [hentry]
    have hloop := hsame.extends.kindOf hkind
    have harm : Span tr r s l (fun n => n = b.nodes.length + 1) b
        (({ b' with loops := b.loops } : Build).edge b.nodes.length (b.nodes.length + 1) .arm) := by
      refine hpopped.edge ⟨Nat.le_refl _, ?_, ?_, ?_, fun _ => ?_, by simp, fun hk => ?_⟩ fun hk => ?_
      · rw [Build.edge_nodes]
        exact Build.lt_of_kindOf hkind
      · rw [Build.edge_nodes]
        exact hlt
      · exact Nat.succ_ne_self _
      · exact Nat.le_succ_of_le hg.le
      · rw [(extends_edge ..).kindOf hloop] at hk
        cases hk
      · rw [hloop] at hk
        cases hk
    have hext := extends_edge (b := { b' with loops := b.loops }) b.nodes.length (b.nodes.length + 1) .arm
    have hlow : Ends tr r s (fun _ => False) b.nodes.length b' flow.exits := h.ends.mono (by omega)
    have hinner : Ends tr r s (fun n => n = b.nodes.length + 1) b.nodes.length _ flow.exits :=
      (hlow.weaken fun _ h => h.elim).extend_edges (hsame.extends.trans hext) (by simp)
    have hheader : b.nodes.length ∉ flow.exits := fun hmem => absurd (h.ends.ge _ hmem) (by omega)
    have hback := harm.connect hinner hg.le (by simpa using Build.lt_of_kindOf hkind) hheader
    have hext' := hext.trans (extends_connect flow.exits b.nodes.length)
    refine ⟨hback.weaken fun n hn hp => .inl ?_, .inl ⟨rfl, ?_⟩, hends.extend_edges (hsame.extends.trans hext') ?_,
      fun _ h => by cases h⟩
    · subst hp
      refine ⟨⟨b.nodes.length, b.nodes.length + 1, .arm⟩, (extends_connect ..).edges ?_, rfl, hg.le, ?_⟩
      · exact (Build.mem_edge ..).2 (.inr rfl)
      · exact Nat.lt_succ_self _
    · simpa using Build.lt_of_kindOf hkind
    · simp
  · rw [hlen] at hshort
    rw [hentry]
    refine ⟨hpopped.weaken fun n hn hp => absurd (isStmt_lt hn) ?_, .inl ⟨rfl, ?_⟩,
      hends.extend_edges hsame.extends rfl, fun _ h => by cases h⟩
    · show ¬ n < b'.nodes.length
      omega
    · show _ < b'.nodes.length
      omega

end HafleyScm.Cfg
