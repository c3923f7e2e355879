import HafleyRs.HafleyScm.CfgLink

/-!
# Branches and guarded regions

| here | there |
| --- | --- |
| `Arms` | a branch node with some of its arms linked (cfg.rs:811-883) |
| `Sites` | nodes made for exceptional flow (cfg.rs:660-687) |
| `Handled`, `Guarded` | the handlers and the body of a guarded region (cfg.rs:926-982) |

The arms of a branch are linked one after the other, each entered from the branch (`Arms.step`). The handlers of a
guarded region are linked before its body and entered from the guard when the body is done (`guarded_linked`).
-/

namespace HafleyScm.Cfg
open Preorder Preorder.Tree

variable {tr : Cst} {r : Path} {s : Nat} {l : Option Path} {b b' b₁ b₂ : Build} {P : Nat → Prop}

/-! ## Branches -/

/-- A branch node made first in `b`, with some of its arms linked; `exits` are those of the arms. -/
structure Arms (tr : Cst) (r : Path) (s : Nat) (l : Option Path) (b : Build) (exits : List Nat) (b' : Build) :
    Prop where
  span : Span tr r s l (fun _ => False) b b'
  branch : b'.kindOf b.nodes.length = some .branch
  ends : Ends tr r s (fun _ => False) b.nodes.length b' exits
  opened : Leaves b' b.nodes.length ∨ b'.nodes.length = b.nodes.length + 1
  stuck : exits = [] → Shut b' (b'.nodes.length - 1)

theorem Arms.start (hg : Good s l b) (p : Path) (c : CstNode) :
    Arms tr r s l b [] (b.node p c .branch false).2 where
  span := (Span.node b p c false (by simp) (by simp)).weaken fun _ _ h => by cases h.2.1
  branch := kindOf_node_end ..
  ends := .nil
  opened := .inr (by simp)
  stuck _ := by
    rw [node_length, Nat.add_sub_cancel]
    exact .inr (.inr ⟨kindOf_node_end .., fun h => hg.not_leaves (Nat.le_refl _) h⟩)

theorem Arms.lt {exits : List Nat} (h : Arms tr r s l b exits b') : b.nodes.length < b'.nodes.length :=
  Build.lt_of_kindOf h.branch

/-- An arm with a node of its own. -/
theorem Arms.arm (hg : Good s l b) {exits : List Nat} {flow : Flow} (h : Arms tr r s l b exits b₁)
    (h' : Linked tr r s l b₁ flow b₂) (hentry : flow.entry = some b₁.nodes.length) :
    Arms tr r s l b (exits ++ flow.exits) (b₂.edge b.nodes.length b₁.nodes.length .arm) := by
  have hlt : b₁.nodes.length < b₂.nodes.length := by
    rcases h'.entry with ⟨-, hlt⟩ | ⟨hnone, -⟩
    · exact hlt
    · rw [hentry] at hnone
      cases hnone
  have hlow := h.lt
  have hext := extends_edge (b := b₂) b.nodes.length b₁.nodes.length .arm
  have hbranch := hext.kindOf (h'.span.extends.kindOf h.branch)
  have hmem : (⟨b.nodes.length, b₁.nodes.length, .arm⟩ : Edge) ∈
      (b₂.edge b.nodes.length b₁.nodes.length .arm).edges := (Build.mem_edge ..).2 (.inr rfl)
  have hentered : Entered s (b₂.edge b.nodes.length b₁.nodes.length .arm) b₁.nodes.length :=
    ⟨_, hmem, rfl, hg.le, hlow⟩
  refine ⟨?_, hbranch, ?_, .inl ⟨_, hmem, rfl, by simp⟩, fun hexits => ?_⟩
  · refine ((h.span.trans h'.span).edge ⟨Nat.le_refl _, ?_, ?_, ?_, fun _ => ?_, by simp, fun hk => ?_⟩
      fun _ _ => ?_).weaken fun n _ hp => .inl ?_
    · exact Build.lt_of_kindOf hbranch
    · rwa [Build.edge_nodes]
    · exact Nat.ne_of_gt hlow
    · have := hg.le
      show s ≤ b₁.nodes.length
      omega
    · rw [hbranch] at hk
      cases hk
    · rcases h.opened with hl | hlen
      · exact .inl (h'.span.extends.leaves hl)
      · exact .inr (.inl (hlen ▸ hentered))
    · rcases hp with hp | rfl
      · exact hp.elim
      · exact hentered
  · refine Ends.append (h.ends.extend (h'.span.extends.trans hext) fun _ => .inl hentered) ?_
    exact (h'.ends.mono (Nat.le_of_lt hlow)).extend_edges hext (by simp)
  · rw [Build.edge_nodes]
    refine hext.shut_of_edges (h'.stuck (by simp [hentry]) (List.append_eq_nil_iff.1 hexits).2) fun e he hsrc => ?_
    rcases (Build.mem_edge ..).1 he with he | rfl
    · exact he
    · have hsrc' : b.nodes.length = b₂.nodes.length - 1 := hsrc
      omega

/-- An arm that makes no node is none. -/
theorem Arms.skip {exits : List Nat} {flow : Flow} (h : Arms tr r s l b exits b₁) (h' : Linked tr r s l b₁ flow b₂)
    (hlen : b₂.nodes.length = b₁.nodes.length) : Arms tr r s l b exits b₂ where
  span := (h.span.trans h'.span).weaken fun n hn hp => by
    rcases hp with hp | rfl
    · exact hp.elim
    · exact absurd (isStmt_lt hn) (by omega)
  branch := h'.span.extends.kindOf h.branch
  ends := h.ends.extend_edges h'.span.extends hlen
  opened := by
    rw [hlen]
    exact h.opened.imp_left h'.span.extends.leaves
  stuck hexits := by
    rw [hlen]
    exact h'.span.shut (by have := h.lt; omega) (h.stuck hexits)

/-- What is linked is linked as an arm. -/
theorem Arms.step (hg : Good s l b) {exits : List Nat} {flow : Flow} (h : Arms tr r s l b exits b₁)
    (h' : Linked tr r s l b₁ flow b₂) :
    (∃ entry, flow.entry = some entry ∧ Arms tr r s l b (exits ++ flow.exits) (b₂.edge b.nodes.length entry .arm)) ∨
      (flow.entry = none ∧ Arms tr r s l b exits b₂) := by
  rcases h'.entry with ⟨hentry, -⟩ | ⟨hentry, -, hlen⟩
  · exact .inl ⟨_, hentry, h.arm hg h' hentry⟩
  · exact .inr ⟨hentry, h.skip h' hlen⟩

/-- All arms linked: only they are left. -/
theorem Arms.linked {exits : List Nat} (h : Arms tr r s l b exits b') :
    Linked tr r s l b ⟨some b.nodes.length, exits⟩ b' where
  span := h.span.weaken fun _ _ h => h.elim
  entry := .inl ⟨rfl, h.lt⟩
  ends := h.ends
  stuck _ := h.stuck

/-- All arms linked: they and the branch itself are left. -/
theorem Arms.linked_branch {exits : List Nat} (h : Arms tr r s l b exits b') :
    Linked tr r s l b ⟨some b.nodes.length, b.nodes.length :: exits⟩ b' where
  span := h.span.weaken fun _ _ h => h.elim
  entry := .inl ⟨rfl, h.lt⟩
  ends := by
    have hself : Ends tr r s (fun _ => False) b.nodes.length b' [b.nodes.length] := by
      refine Ends.single (Nat.le_refl _) h.lt (by simp [h.branch]) fun _ hn => ?_
      rcases h.opened with hl | hlen
      · exact hl
      · exact absurd (isStmt_lt hn) (by omega)
    exact hself.append h.ends
  stuck _ h := by cases h

/-! ## Exceptional flow -/

/-- Only nodes that are no linked statements are added. -/
structure Sites (tr : Cst) (r : Path) (s : Nat) (l : Option Path) (b b' : Build) : Prop where
  span : Span tr r s l (fun _ => False) b b'
  none : ∀ n, b.nodes.length ≤ n → ¬ isStmt b' n

theorem Sites.refl : Sites tr r s l b b where
  span := Span.refl fun n hn => kindOf_end b n hn
  none n hn h := absurd (isStmt_lt h) (by omega)

theorem Sites.trans (h : Sites tr r s l b b₁) (h' : Sites tr r s l b₁ b₂) : Sites tr r s l b b₂ where
  span := (h.span.trans h'.span).weaken fun _ _ h => h.elim False.elim False.elim
  none n hn hstmt := by
    rcases Nat.lt_or_ge n b₁.nodes.length with hlt | hge
    · exact h.none n hn (h'.span.extends.isStmt hlt hstmt)
    · exact h'.none n hge hstmt

theorem not_isStmt_node (p : Path) (c : CstNode) (kind : CfgNodeKind) {n : Nat} (hn : b.nodes.length ≤ n) :
    ¬ isStmt (b.node p c kind true).2 n := by
  rintro ⟨x, hx, -, hsite⟩
  rcases Nat.eq_or_lt_of_le hn with rfl | hlt
  · simp only [Build.node_nodes, List.getElem?_concat_length, Option.some.injEq] at hx
    subst hx
    cases hsite
  · rw [List.getElem?_eq_none (by simpa using hlt)] at hx
    cases hx

theorem Sites.node (p : Path) (c : CstNode) : Sites tr r s l b (b.node p c .stmt true).2 where
  span := (Span.node b p c true (by simp) (by simp)).weaken fun _ _ h => by cases h.2.2
  none _ hn := not_isStmt_node p c .stmt hn

/-- A node for exceptional flow, and its edge. -/
theorem Sites.throw (p : Path) (c : CstNode) {kind : CfgNodeKind} (hkind : kind = .ret ∨ kind = .stmt) {dst : Nat}
    (hdst : dst < b.nodes.length) :
    Sites tr r s l b ((b.node p c kind true).2.edge b.nodes.length dst .throw) where
  span := by
    have hnode : Span tr r s l (fun _ => False) b (b.node p c kind true).2 :=
      (Span.node b p c true (by rcases hkind with rfl | rfl <;> simp)
        (by rcases hkind with rfl | rfl <;> simp)).weaken fun _ _ h => by cases h.2.2
    refine hnode.edge (EdgeOk.back p c hdst (fun h => absurd rfl h) (by simp) fun h => ?_) fun h => ?_
    · rcases hkind with rfl | rfl <;> cases h
    · rcases hkind with rfl | rfl <;> simp at h
  none n hn h := by
    obtain ⟨x, hx, hstmt⟩ := h
    rw [Build.edge_nodes] at hx
    exact not_isStmt_node p c kind hn ⟨x, hx, hstmt⟩

theorem throwCallSites_sites {catch' : Nat} {inc : Bool} (t : Cst) :
    ∀ (p : Path) (b : Build), catch' < b.nodes.length → Sites tr r s l b (throwCallSites catch' inc p t b) := by
  induction t using Preorder.Tree.induct with
  | h c kids ih =>
    have hall : ∀ (i : Nat) (p : Path) (b : Build), catch' < b.nodes.length →
        Sites tr r s l b (throwCallSitesAll catch' inc p i kids b) := by
      clear * - ih
      induction kids with
      | nil => exact fun _ _ _ _ => .refl
      | cons t ts ihs =>
        intro i p b hlt
        have hone := ih t (List.mem_cons_self ..) (p ++ [i]) b hlt
        refine hone.trans (ihs (fun t ht => ih t (List.mem_cons_of_mem _ ht)) _ _ _ ?_)
        exact Nat.lt_of_lt_of_le hlt hone.span.extends.le
    intro p b hlt
    rw [throwCallSites]
    split_ifs
    · exact .refl
    · exact .throw p c (.inl rfl) hlt
    · exact .refl
    · refine (Sites.throw p c (.inr rfl) hlt).trans (hall _ _ _ ?_)
      simp only [Build.edge_nodes, node_length]
      exact Nat.lt_succ_of_lt hlt
    · exact hall _ _ _ hlt

/-- With a catch target on top. -/
def guard (catch' : Nat) (b : Build) : Build := { b with catches := catch' :: b.catches }

def unguard (b : Build) : Build := { b with catches := b.catches.tail }

theorem Good.guard (hg : Good s l b) {catch' : Nat} (hlt : catch' < b.nodes.length) : Good s l (guard catch' b) where
  entry := hg.entry
  exit := hg.exit
  size := hg.size
  edges := hg.edges
  catches n hn := by
    rcases List.mem_cons.1 hn with rfl | hn
    · exact hlt
    · exact hg.catches n hn
  caught := hg.caught
  loop := hg.loop

/-- What is linked under a catch target is linked when it is off again. -/
theorem Span.unguard {catch' : Nat} (h : Span tr r s l P (guard catch' b) b') : Span tr r s l P b (unguard b') :=
  h.transport ⟨rfl, rfl⟩ ⟨rfl, rfl⟩ h.entry h.exit h.closed (by simp [Cfg.unguard, h.catches, Cfg.guard]) h.caught
    h.breaks

theorem linkCatchUnwind_linked (p : Path) (c : CstNode) (t : Cst) :
    Linked tr r s l b (linkCatchUnwind p c t b).1 (linkCatchUnwind p c t b).2 := by
  have hnode : Linked tr r s l b ⟨some b.nodes.length, [b.nodes.length]⟩ (b.node p c .stmt false).2 :=
    .node p c (by simp) (by simp) (by simp)
  unfold linkCatchUnwind
  simp only [Build.node_fst]
  split
  · exact hnode
  · rename_i q closure _
    split
    · exact hnode
    · rename_i body _
      let caught : Build :=
        { (b.node p c .stmt false).2 with caught := (q, b.nodes.length) :: (b.node p c .stmt false).2.caught }
      have hcaught : Span tr r s l (fun n => n = b.nodes.length) b caught := by
        refine hnode.span.transport ⟨rfl, rfl⟩ ⟨rfl, rfl⟩ rfl rfl rfl rfl (fun x hx => ?_)
          ⟨[], by simp [caught], by simp⟩
        rcases List.mem_cons.1 hx with rfl | hx
        · exact .inr (by simp)
        · exact .inl hx
      have hlt : b.nodes.length < caught.nodes.length := by simp [caught]
      have hsites : Sites tr r s l caught
          (throwCallSites b.nodes.length false (q ++ [closure.children.length - 1]) body caught) :=
        throwCallSites_sites body _ _ hlt
      have hkind : caught.kindOf b.nodes.length = some .stmt := kindOf_node_end p c .stmt false
      have hext := hsites.span.extends
      have hkind' := hext.kindOf hkind
      refine ⟨(hcaught.trans hsites.span).weaken fun n _ hp => .inr (.inr ?_),
        .inl ⟨rfl, Nat.lt_of_lt_of_le hlt hext.le⟩,
        Ends.single (Nat.le_refl _) (Nat.lt_of_lt_of_le hlt hext.le) (fun h => ?_) fun h => ?_, fun _ h => by cases h⟩
      · exact hp.elim id False.elim
      · cases hkind'.symm.trans h
      · cases hkind'.symm.trans h

/-! ## Guarded regions -/

/-- The handlers of a guarded region, linked and not yet entered. -/
structure Handled (tr : Cst) (r : Path) (s : Nat) (l : Option Path) (b : Build) (hs : List (Path × CstNode × Flow))
    (b' : Build) : Prop where
  span : Span tr r s l (fun n => ∃ h ∈ hs, h.2.2.entry = some n) b b'
  entry : ∀ h ∈ hs, ∀ n, h.2.2.entry = some n → b.nodes.length ≤ n ∧ n < b'.nodes.length
  first : b'.nodes.length = b.nodes.length ∨ ∃ h ∈ hs, h.2.2.entry = some b.nodes.length
  ends : ∀ h ∈ hs, Ends tr r s (fun n => ∃ h ∈ hs, h.2.2.entry = some n) b.nodes.length b' h.2.2.exits

theorem Handled.cons (q : Path) (c : CstNode) {flow : Flow} {hs : List (Path × CstNode × Flow)}
    (h : Linked tr r s l b flow b₁) (h' : Handled tr r s l b₁ hs b₂) :
    Handled tr r s l b ((q, c, flow) :: hs) b₂ where
  span := (h.span.trans h'.span).weaken fun n hn hp => by
    rcases hp with rfl | ⟨k, hk, hentry⟩
    · rcases h.entry with ⟨hentry, -⟩ | ⟨-, -, hlen⟩
      · exact .inr (.inr ⟨_, List.mem_cons_self .., hentry⟩)
      · rcases h'.first with hlen' | ⟨k, hk, hentry⟩
        · exact absurd (isStmt_lt hn) (by omega)
        · exact .inr (.inr ⟨k, List.mem_cons_of_mem _ hk, hlen ▸ hentry⟩)
    · exact .inr (.inr ⟨k, List.mem_cons_of_mem _ hk, hentry⟩)
  entry k hk n hn := by
    have hle := h.span.extends.le
    have hle' := h'.span.extends.le
    rcases List.mem_cons.1 hk with rfl | hk
    · rcases h.entry with ⟨hentry, hlt⟩ | ⟨hentry, -⟩
      · obtain rfl : n = b.nodes.length := Option.some.inj (hn.symm.trans hentry)
        omega
      · cases hn.symm.trans hentry
    · have := h'.entry k hk n hn
      omega
  first := by
    rcases h.entry with ⟨hentry, -⟩ | ⟨-, -, hlen⟩
    · exact .inr ⟨_, List.mem_cons_self .., hentry⟩
    · rcases h'.first with hlen' | ⟨k, hk, hentry⟩
      · exact .inl (hlen'.trans hlen)
      · exact .inr ⟨k, List.mem_cons_of_mem _ hk, hlen ▸ hentry⟩
  ends k hk := by
    rcases List.mem_cons.1 hk with rfl | hk
    · refine (h.ends.weaken fun _ h => h.elim).extend h'.span.extends fun hn => .inr ?_
      rcases h'.first with hlen | ⟨k, hk, hentry⟩
      · exact absurd (isStmt_lt hn) (by omega)
      · exact ⟨k, List.mem_cons_of_mem _ hk, hentry⟩
    · refine ((h'.ends k hk).mono h.span.extends.le).weaken fun n hn => ?_
      obtain ⟨k, hk, hentry⟩ := hn
      exact ⟨k, List.mem_cons_of_mem _ hk, hentry⟩

theorem Handled.nil : Handled tr r s l b [] b where
  span := (Span.refl fun n hn => kindOf_end b n hn).weaken fun _ _ h => h.elim
  entry := by simp
  first := .inl rfl
  ends := by simp

theorem catchTarget_sites (hs : List (Path × CstNode × Flow)) (h : Handled tr r s l b hs b') :
    Sites tr r s l b' (catchTarget b' hs).2 ∧ ∀ n, (catchTarget b' hs).1 = some n →
      n < (catchTarget b' hs).2.nodes.length := by
  unfold catchTarget
  split
  · exact ⟨.refl, by simp⟩
  · rename_i q c flow hfind
    have hmem := List.mem_of_find?_eq_some hfind
    split
    · rename_i entry hentry
      refine ⟨.refl, fun n hn => ?_⟩
      obtain rfl := Option.some.inj hn
      exact (h.entry _ hmem entry hentry).2
    · refine ⟨.node q c, fun n hn => ?_⟩
      obtain rfl := Option.some.inj hn
      simp

/-- The guarded body, linked with the catch target on top when there is one. -/
structure Guarded (tr : Cst) (r : Path) (s : Nat) (l : Option Path) (b b₁ : Build) (flow : Flow) (b' : Build) :
    Prop where
  before : ∀ n, b.nodes.length ≤ n → n < b₁.nodes.length → ¬ isStmt b' n
  le : b.nodes.length ≤ b₁.nodes.length
  linked : ∃ b₂, Linked tr r s l b₁ flow b₂ ∧ Same b₂ b'
  span : Span tr r s l (fun n => n = b₁.nodes.length) b b'

theorem linkHandlerArms_eq (g : Nat) (hs : List (Path × CstNode × Flow)) (exits : List Nat) (b : Build) :
    ∃ es, (linkHandlerArms g hs exits b).2 = { b with edges := es } ∧
      (∀ e, e ∈ es ↔ e ∈ b.edges ∨ ∃ h ∈ hs, ∃ n, h.2.2.entry = some n ∧ e = ⟨g, n, .arm⟩) ∧
      (linkHandlerArms g hs exits b).1 =
        exits ++ (hs.filter fun h => h.2.2.entry.isSome).flatMap fun h => h.2.2.exits := by
  unfold linkHandlerArms
  induction hs generalizing exits b with
  | nil => exact ⟨b.edges, rfl, by simp, by simp⟩
  | cons h hs ih =>
    rw [List.foldl_cons]
    cases hentry : h.2.2.entry with
    | none =>
      simp only
      obtain ⟨es, he, hmem, hexits⟩ := ih exits b
      refine ⟨es, he, fun e => (hmem e).trans ?_, ?_⟩
      · simp [hentry]
      · rw [hexits]
        simp [hentry]
    | some n =>
      simp only
      obtain ⟨es₁, he₁, hmem₁⟩ := b.edge_eq g n .arm
      obtain ⟨es, he, hmem, hexits⟩ := ih (exits ++ h.2.2.exits) (b.edge g n .arm)
      refine ⟨es, ?_, fun e => (hmem e).trans ?_, ?_⟩
      · rw [he, he₁]
      · rw [Build.mem_edge]
        simp [hentry, or_assoc]
      · rw [hexits]
        simp [hentry]

/-- Everything the guard enters, and everything that falls through. -/
theorem guarded_eq (g : Nat) (hs : List (Path × CstNode × Flow)) (flow : Flow) (after : Build) :
    ∃ es, (linkGuard g hs flow after).2 = { after with edges := es } ∧
      (∀ e, e ∈ es ↔ e ∈ after.edges ∨ (∃ n, flow.entry = some n ∧ e = ⟨g, n, .next⟩) ∨
        ∃ h ∈ hs, ∃ n, h.2.2.entry = some n ∧ e = ⟨g, n, .arm⟩) ∧
      (linkGuard g hs flow after).1 = (if flow.entry = none then [g] else flow.exits) ++
        (hs.filter fun h => h.2.2.entry.isSome).flatMap fun h => h.2.2.exits := by
  unfold linkGuard
  cases hentry : flow.entry with
  | none =>
    obtain ⟨es, he, hmem, hexits⟩ := linkHandlerArms_eq g hs [g] after
    exact ⟨es, he, fun e => (hmem e).trans (by simp), by simpa using hexits⟩
  | some n =>
    obtain ⟨es, he, hmem, hexits⟩ := linkHandlerArms_eq g hs flow.exits (after.edge g n .next)
    obtain ⟨es₁, he₁, -⟩ := after.edge_eq g n .next
    refine ⟨es, by simpa only [he₁] using he, fun e => (hmem e).trans ?_, by simpa using hexits⟩
    rw [Build.mem_edge]
    simp [or_assoc]

/-- **A guarded region.** The guard is `b`'s next node, the handlers are linked up to `b₁`, and the body's flow is
linked from `b₂` on. -/
theorem guarded_linked (hg : Good s l b) {p : Path} {c : CstNode} {hs : List (Path × CstNode × Flow)}
    {flow : Flow} {after : Build} (hh : Handled tr r s l (b.node p c .branch false).2 hs b₁)
    (hbody : Guarded tr r s l b₁ b₂ flow after) :
    Linked tr r s l b ⟨some b.nodes.length, (linkGuard b.nodes.length hs flow after).1⟩
      (linkGuard b.nodes.length hs flow after).2 := by
  obtain ⟨es, he, hmem, hexits⟩ := guarded_eq b.nodes.length hs flow after
  obtain ⟨inner, hlinked, hsame⟩ := hbody.linked
  have hguard : Span tr r s l (fun _ => False) b (b.node p c .branch false).2 :=
    (Arms.start hg p c).span
  have hall := (hguard.trans hh.span).trans hbody.span
  have hext : Extends after { after with edges := es } := extends_edges fun e h => (hmem e).2 (.inl h)
  have hlow : b.nodes.length < b₁.nodes.length := by
    have := hh.span.extends.le
    rw [node_length] at this
    omega
  have hle := hbody.le
  have hle' := hlinked.span.extends.le
  have hlen : after.nodes.length = inner.nodes.length := by rw [hsame.1]
  have hkind : after.kindOf b.nodes.length = some .branch :=
    hbody.span.extends.kindOf (hh.span.extends.kindOf (kindOf_node_end p c .branch false))
  -- the entry of a handler or of the body, entered from the guard
  have hentered : ∀ n, isStmt after n → (∃ h ∈ hs, h.2.2.entry = some n) ∨ n = b₂.nodes.length →
      (∃ kind, (⟨b.nodes.length, n, kind⟩ : Edge) ∈ es ∧ kind ≠ .control) ∧ b.nodes.length < n := by
    intro n hn hp
    rcases hp with ⟨h, hh', hentry⟩ | rfl
    · have hge := (hh.entry h hh' n hentry).1
      rw [node_length] at hge
      exact ⟨⟨.arm, (hmem _).2 (.inr (.inr ⟨h, hh', n, hentry, rfl⟩)), by simp⟩, by omega⟩
    · rcases hlinked.entry with ⟨hentry, -⟩ | ⟨-, -, hshort⟩
      · exact ⟨⟨.next, (hmem _).2 (.inr (.inl ⟨_, hentry, rfl⟩)), by simp⟩, by omega⟩
      · exact absurd (isStmt_lt hn) (by omega)
  have hnext : ∀ n, isStmt after n → (∃ h ∈ hs, h.2.2.entry = some n) ∨ n = b₂.nodes.length →
      Entered s { after with edges := es } n := by
    intro n hn hp
    obtain ⟨⟨kind, he, -⟩, hlt⟩ := hentered n hn hp
    exact ⟨_, he, rfl, hg.le, hlt⟩
  have hafter : ∀ n, b₁.nodes.length = n → isStmt after n → n = b₂.nodes.length := by
    rintro n rfl hn
    rcases Nat.eq_or_lt_of_le hle with h | h
    · exact h
    · exact absurd hn (hbody.before _ (Nat.le_refl _) h)
  have hfirst : isStmt after (b.nodes.length + 1) →
      (∃ h ∈ hs, h.2.2.entry = some (b.nodes.length + 1)) ∨ b.nodes.length + 1 = b₂.nodes.length := by
    intro hn
    rcases hh.first with h | ⟨h, hh', hentry⟩
    · rw [node_length] at h
      exact .inr (hafter _ h hn)
    · rw [node_length] at hentry
      exact .inl ⟨h, hh', hentry⟩
  have hok : ∀ n kind, b.nodes.length < n → n < after.nodes.length → kind ≠ .control →
      EdgeOk tr r s b.nodes.length { after with edges := es } ⟨b.nodes.length, n, kind⟩ := by
    intro n kind hlt hn hkind'
    refine ⟨Nat.le_refl _, Build.lt_of_kindOf hkind, hn, Nat.ne_of_gt hlt, fun _ => ?_, hkind', fun hk => ?_⟩
    · exact Nat.le_trans hg.le (Nat.le_of_lt hlt)
    · cases hkind.symm.trans hk
  rw [he, hexits]
  refine ⟨?_, .inl ⟨rfl, Build.lt_of_kindOf hkind⟩, Ends.append ?_ (Ends.flatMap fun h hh' => ?_), fun _ hnil => ?_⟩
  · refine (hall.addEdges hext.edges (fun e h => ?_) fun e h => ?_).weaken fun n hn hp => ?_
    · rcases (hmem e).1 h with h | ⟨n, hentry, rfl⟩ | ⟨k, hk, n, hentry, rfl⟩
      · exact .inl h
      · rcases hlinked.entry with ⟨hsome, hlt⟩ | ⟨hnone, -⟩
        · obtain rfl : b₂.nodes.length = n := Option.some.inj (hsome.symm.trans hentry)
          exact .inr (hok _ _ (by omega) (by omega) (by simp))
        · cases hnone.symm.trans hentry
      · have := hh.entry k hk n hentry
        rw [node_length] at this
        exact .inr (hok _ _ (by omega) (by omega) (by simp))
    · rcases (hmem e).1 h with h | ⟨n, -, rfl⟩ | ⟨k, -, n, -, rfl⟩
      · exact .inl h
      · exact .inr fun _ hn => .inr (.inr ((hfirst hn).imp_left .inr))
      · exact .inr fun _ hn => .inr (.inr ((hfirst hn).imp_left .inr))
    · rcases hp with (hp | hp) | hp
      · exact hp.elim
      · exact .inl (hnext n hn (.inl hp))
      · exact .inl (hnext n hn (.inr hp))
  · split_ifs with hnone
    · refine Ends.single (Nat.le_refl _) (Build.lt_of_kindOf hkind) (fun h => ?_) fun _ hn => ?_
      · cases hkind.symm.trans h
      · obtain ⟨⟨kind, he, hkind'⟩, -⟩ := hentered _ hn (hfirst hn)
        exact ⟨_, he, rfl, hkind'⟩
    · exact (hlinked.ends.mono (by omega)).extend_edges (hsame.extends.trans hext) hlen
  · refine ((hh.ends h (List.mem_of_mem_filter hh')).mono (by simp)).extend (hbody.span.extends.trans hext)
      (fun hn => ?_)
      |>.settle fun n hn hq => hnext n hn (.inl hq)
    exact .inl (hnext _ hn (.inr (hafter _ rfl hn)))
  · obtain ⟨hnil, -⟩ := List.append_eq_nil_iff.1 hnil
    split_ifs at hnil with hnone
    have hext' := hsame.extends.trans hext
    have hshut := hlinked.stuck hnone hnil
    rw [← hlen] at hshut
    refine hext'.shut_of_edges hshut fun e h hsrc => ?_
    rcases hlinked.entry with ⟨-, hlt⟩ | ⟨hnone', -⟩
    · rw [← hsame.2]
      rcases (hmem e).1 h with h | ⟨n, -, rfl⟩ | ⟨k, -, n, -, rfl⟩
      · exact h
      · have hsrc' : b.nodes.length = after.nodes.length - 1 := hsrc
        omega
      · have hsrc' : b.nodes.length = after.nodes.length - 1 := hsrc
        omega
    · exact absurd hnone' hnone

end HafleyScm.Cfg
