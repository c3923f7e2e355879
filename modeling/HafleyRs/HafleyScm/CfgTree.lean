import HafleyRs.HafleyScm.CfgArms

/-!
# Linking a tree

`link` and the forms it calls, one lemma a form over the children it links, and `link_linked` by induction on the
tree. `Cases` and `Fork` link grandchildren, so the induction carries the children of a node beside the node.
-/

namespace HafleyScm.Cfg
open Preorder Preorder.Tree

variable {tr : Cst} {r : Path} {s : Nat} {l : Option Path} {b b' : Build}

/-- Linking this tree, wherever it stands in the callable. -/
def LinkOk (tr : Cst) (r : Path) (s : Nat) (t : Cst) : Prop :=
  ∀ p l b, At r tr p ⟨t, l, false⟩ → Good s l b → Linked tr r s l b (link p t b).1 (link p t b).2

/-- The children of `p` from the `i`th on, within the loop `l`. -/
def AtKids (tr : Cst) (r p : Path) (i : Nat) (kids : List Cst) (l : Option Path) : Prop :=
  ∀ j c, kids[j]? = some c → At r tr (p ++ [i + j]) ⟨c, l, false⟩

theorem AtKids.head {p : Path} {i : Nat} {t : Cst} {ts : List Cst} (h : AtKids tr r p i (t :: ts) l) :
    At r tr (p ++ [i]) ⟨t, l, false⟩ := h 0 t rfl

theorem AtKids.tail {p : Path} {i : Nat} {t : Cst} {ts : List Cst} (h : AtKids tr r p i (t :: ts) l) :
    AtKids tr r p (i + 1) ts l := fun j c hc => by
  have := h (j + 1) c hc
  rwa [Nat.add_comm j 1, ← Nat.add_assoc] at this

theorem AtKids.last {p : Path} {i : Nat} {kids : List Cst} {t : Cst} (h : AtKids tr r p i kids l)
    (ht : kids.getLast? = some t) : At r tr (p ++ [i + (kids.length - 1)]) ⟨t, l, false⟩ := by
  rw [List.getLast?_eq_getElem?] at ht
  exact h _ t ht

/-- The children of a node, within the loop that the node is or that is around it. -/
theorem At.kids {p : Path} {c : CstNode} {kids : List Cst} (h : At r tr p ⟨.node c kids, l, false⟩)
    (hcases : c.role ≠ some .cases) : AtKids tr r p 0 kids (if isLoop c.role then some p else l) := by
  intro j t ht
  have hchild := h.child (i := j) ht
  have hrole : (c.role == some .cases) = false := by simpa using hcases
  simpa [Preorder.Tree.label, hrole] using hchild

/-- The arms of `Cases`, below its last child. -/
theorem At.arms {p : Path} {c : CstNode} {kids : List Cst} {t : Cst} (h : At r tr p ⟨.node c kids, l, false⟩)
    (hcases : c.role = some .cases) (ht : kids.getLast? = some t) :
    AtKids tr r (p ++ [kids.length - 1]) 0 t.children l := by
  intro j a ha
  rw [List.getLast?_eq_getElem?] at ht
  have hpos : kids.length - 1 + 1 = kids.length := by
    have := (List.getElem?_eq_some_iff.1 ht).1
    omega
  have hblock := h.child (i := kids.length - 1) ht
  simp only [Preorder.Tree.label, Preorder.Tree.children, hcases, hpos, beq_self_eq_true, Bool.not_false,
    Bool.true_and, isLoop] at hblock
  have harm := hblock.child (i := j) ha
  simpa using harm

/-! ## Children -/

theorem linkSeq_linked (p : Path) {kids : List Cst} (ih : ∀ t ∈ kids, LinkOk tr r s t) {i : Nat} {flow : Flow}
    (hg : Good s l b) (hat : AtKids tr r p i kids l) (h : Linked tr r s l b flow b') :
    Linked tr r s l b (linkSeq p i kids flow b').1 (linkSeq p i kids flow b').2 := by
  induction kids generalizing i flow b' with
  | nil => exact h
  | cons t ts ihs =>
    have hstep := ih t (List.mem_cons_self ..) _ l b' hat.head (h.good hg)
    exact ihs (fun t ht => ih t (List.mem_cons_of_mem _ ht)) hat.tail (h.chain hg hstep)

theorem linkArms_arms (p : Path) {kids : List Cst} (ih : ∀ t ∈ kids, LinkOk tr r s t) {i : Nat} {exits : List Nat}
    (hg : Good s l b) (hat : AtKids tr r p i kids l) (h : Arms tr r s l b exits b') :
    Arms tr r s l b (linkArms b.nodes.length p i kids exits b').1 (linkArms b.nodes.length p i kids exits b').2 := by
  induction kids generalizing i exits b' with
  | nil => exact h
  | cons t ts ihs =>
    have hstep := ih t (List.mem_cons_self ..) _ l b' hat.head (h.span.good hg)
    have hts : ∀ t ∈ ts, LinkOk tr r s t := fun t ht => ih t (List.mem_cons_of_mem _ ht)
    rw [linkArms]
    rcases h.step hg hstep with ⟨entry, hentry, harms⟩ | ⟨hentry, harms⟩
    · simp only [hentry]
      exact ihs hts hat.tail harms
    · simp only [hentry]
      exact ihs hts hat.tail harms

theorem linkLast_eq (p : Path) (i : Nat) (kids : List Cst) (b : Build) :
    linkLast p i kids b = match kids.getLast? with
      | none => (Flow.default, b)
      | some t => link (p ++ [i + (kids.length - 1)]) t b := by
  induction kids generalizing i with
  | nil => rfl
  | cons t ts ih =>
    cases ts with
    | nil => rfl
    | cons u us =>
      rw [linkLast, ih, List.getLast?_cons_cons]
      simp only [List.length_cons, Nat.add_sub_cancel]
      rw [show i + 1 + us.length = i + (us.length + 1) by omega]

theorem linkCases_eq (branch : Nat) (p : Path) (i : Nat) (kids : List Cst) (b : Build) :
    linkCases branch p i kids b = match kids.getLast? with
      | none => ([], b)
      | some t => linkArms branch (p ++ [i + (kids.length - 1)]) 0 t.children [] b := by
  induction kids generalizing i with
  | nil => rfl
  | cons t ts ih =>
    cases ts with
    | nil =>
      cases t
      rfl
    | cons u us =>
      rw [linkCases, ih, List.getLast?_cons_cons]
      simp only [List.length_cons, Nat.add_sub_cancel]
      rw [show i + 1 + us.length = i + (us.length + 1) by omega]

theorem linkHandlers_handled (p : Path) {kids : List Cst} (ih : ∀ t ∈ kids, LinkOk tr r s t) {i : Nat}
    (hg : Good s l b) (hat : AtKids tr r p i kids l) :
    Handled tr r s l b (linkHandlers p i kids b).1 (linkHandlers p i kids b).2 := by
  induction kids generalizing i b with
  | nil => exact .nil
  | cons t ts ihs =>
    have hstep := ih t (List.mem_cons_self ..) _ l b hat.head hg
    have hrest := ihs (fun t ht => ih t (List.mem_cons_of_mem _ ht)) (hstep.good hg) hat.tail
    exact hrest.cons _ _ hstep

/-! ## One node of the tree -/

theorem linkLast_linked (p : Path) {kids : List Cst} (ih : ∀ t ∈ kids, LinkOk tr r s t) (hg : Good s l b)
    (hat : AtKids tr r p 0 kids l) :
    Linked tr r s l b (linkLast p 0 kids b).1 (linkLast p 0 kids b).2 := by
  rw [linkLast_eq]
  cases hlast : kids.getLast? with
  | none => exact .default
  | some t => exact ih t (List.mem_of_getLast? hlast) _ l b (hat.last hlast) hg

theorem linkFirst_linked (p : Path) {kids : List Cst} (ih : ∀ t ∈ kids, LinkOk tr r s t) (hg : Good s l b)
    (hat : AtKids tr r p 0 kids l) :
    Linked tr r s l b (linkFirst p kids b).1 (linkFirst p kids b).2 := by
  cases kids with
  | nil => exact .default
  | cons t ts => exact ih t (List.mem_cons_self ..) _ l b hat.head hg

theorem linkTail_arms (p : Path) {kids : List Cst} (ih : ∀ t ∈ kids, LinkOk tr r s t) (hg : Good s l b)
    (hat : AtKids tr r p 0 kids l) (h : Arms tr r s l b [] b') :
    Arms tr r s l b (linkTail b.nodes.length p kids b').1 (linkTail b.nodes.length p kids b').2 := by
  cases kids with
  | nil => exact h
  | cons t ts => exact linkArms_arms p (fun t ht => ih t (List.mem_cons_of_mem _ ht)) hg hat.tail h

/-- A body linked where no catch target is added. -/
theorem Guarded.plain {b₁ b₂ : Build} {flow : Flow} (hs : Sites tr r s l b₁ b₂) (h : Linked tr r s l b₂ flow b') :
    Guarded tr r s l b₁ b₂ flow b' where
  before n hn hlt hstmt := hs.none n hn (h.span.extends.isStmt hlt hstmt)
  le := hs.span.extends.le
  linked := ⟨b', h, rfl, rfl⟩
  span := (hs.span.trans h.span).weaken fun _ _ hp => .inr (.inr (hp.elim False.elim id))

/-- A body linked under a catch target, after the call sites that can throw to it. -/
theorem Guarded.caught {b₁ b₂ g : Build} {flow : Flow} {catch' : Nat} (hs : Sites tr r s l b₁ b₂)
    (hs' : Sites tr r s l (guard catch' b₂) g) (h : Linked tr r s l g flow b') :
    Guarded tr r s l b₁ g flow (unguard b') where
  before n hn hlt hstmt := by
    have hstmt' : isStmt g n := h.span.extends.isStmt hlt hstmt
    rcases Nat.lt_or_ge n b₂.nodes.length with hlt' | hge
    · exact hs.none n hn (hs'.span.extends.isStmt hlt' hstmt')
    · exact hs'.none n hge hstmt'
  le := Nat.le_trans hs.span.extends.le hs'.span.extends.le
  linked := ⟨b', h, rfl, rfl⟩
  span := by
    refine (hs.span.trans (hs'.span.trans h.span).unguard).weaken fun _ _ hp => .inr (.inr ?_)
    rcases hp with hp | hp | hp
    · exact hp.elim
    · exact hp.elim
    · exact hp

theorem linkTry_linked (p : Path) (c : CstNode) {kids : List Cst} (ih : ∀ t ∈ kids, LinkOk tr r s t) (hg : Good s l b)
    (hat : AtKids tr r p 0 kids l) :
    Linked tr r s l b (linkTry p b.nodes.length kids (b.node p c .branch false).2).1
      (linkTry p b.nodes.length kids (b.node p c .branch false).2).2 := by
  have hstart : Arms tr r s l b [] (b.node p c .branch false).2 := .start hg p c
  cases kids with
  | nil => exact hstart.linked_branch
  | cons body handlers =>
    have hh := linkHandlers_handled p (fun t ht => ih t (List.mem_cons_of_mem _ ht)) (hstart.span.good hg) hat.tail
    obtain ⟨hsites, htarget⟩ := catchTarget_sites _ hh
    have hg₁ := hsites.span.good (hh.span.good (hstart.span.good hg))
    have hbody := ih body (List.mem_cons_self ..) (p ++ [0]) l
    simp only [linkTry]
    cases hcatch : (catchTarget (linkHandlers p 1 handlers (b.node p c .branch false).2).2
        (linkHandlers p 1 handlers (b.node p c .branch false).2).1).1 with
    | none =>
      simp only [Option.isSome_none]
      exact guarded_linked hg hh (.plain hsites (hbody _ hat.head hg₁))
    | some catch' =>
      have hlt := htarget catch' hcatch
      have hthrows : Sites tr r s l (guard catch' _) _ :=
        @throwCallSites_sites tr r s l catch' false body (p ++ [0]) (guard catch' _) hlt
      simp only [Option.isSome_some, if_true]
      exact guarded_linked hg hh (.caught hsites hthrows (hbody _ hat.head (hthrows.span.good (hg₁.guard hlt))))

/-- A fork whose first child is a branch. -/
theorem linkForkBranch_linked (p : Path) {first : Cst} {rest : List Cst} (ih : ∀ t ∈ first :: rest, LinkOk tr r s t)
    (ih' : ∀ t ∈ first.children, LinkOk tr r s t) (hrole : first.label.role = some .branch) (hg : Good s l b)
    (hat : AtKids tr r p 0 (first :: rest) l) :
    Linked tr r s l b (linkForkBranch p (first :: rest) b).1 (linkForkBranch p (first :: rest) b).2 := by
  obtain ⟨c, kids⟩ := first
  have hrole : c.role = some .branch := hrole
  have hkids : AtKids tr r (p ++ [0]) 0 kids l := by
    have := hat.head.kids (by simp [hrole])
    simpa [hrole, isLoop] using this
  have hthen := linkTail_arms (p ++ [0]) ih' hg hkids (.start hg (p ++ [0]) c)
  have harms := linkArms_arms p (fun t ht => ih t (List.mem_cons_of_mem _ ht)) hg hat.tail hthen
  simp only [linkForkBranch]
  split
  · exact harms.linked_branch
  · exact harms.linked

theorem linkCases_arms (p : Path) {c : CstNode} {kids : List Cst} (ih : ∀ t ∈ kids, ∀ a ∈ t.children, LinkOk tr r s a)
    (hrole : c.role = some .cases) (hg : Good s l b) (hat : At r tr p ⟨.node c kids, l, false⟩)
    (h : Arms tr r s l b [] b') :
    Arms tr r s l b (linkCases b.nodes.length p 0 kids b').1 (linkCases b.nodes.length p 0 kids b').2 := by
  rw [linkCases_eq]
  cases hlast : kids.getLast? with
  | none => exact h
  | some t =>
    have harms := hat.arms hrole hlast
    simp only [Nat.zero_add]
    exact linkArms_arms _ (ih t (List.mem_of_getLast? hlast)) hg harms h

/-- An edge from a new node to the callable's entry or exit, or to where its exceptions go. -/
theorem Linked.out {flow : Flow} {p : Path} {c : CstNode} {kind : CfgNodeKind} (hkind : kind = .ret ∨ kind = .stmt)
    (h : Linked tr r s l b flow (b.node p c kind false).2) {dst : Nat} {ekind : CfgEdgeKind}
    (hdst : dst < b.nodes.length) (hin : ekind ≠ .throw → s ≤ dst) (hflow : ekind ≠ .control) :
    Linked tr r s l b flow ((b.node p c kind false).2.edge b.nodes.length dst ekind) := by
  refine h.edge (EdgeOk.back p c hdst hin hflow fun hjump => ?_) ?_
  · rcases hkind with rfl | rfl <;> cases hjump
  · rcases hkind with rfl | rfl <;> simp

theorem Good.throwTarget (hg : Good s l b) : b.catches.head?.getD b.exit < b.nodes.length := by
  have hsize := hg.size
  have hexit := hg.exit
  cases hcatches : b.catches with
  | nil => simp only [List.head?_nil, Option.getD_none]; omega
  | cons n ns => exact hg.catches n (by simp [hcatches])

/-- **Linking a tree.** -/
theorem link_linked (t : Cst) : LinkOk tr r s t ∧ ∀ c ∈ t.children, LinkOk tr r s c := by
  induction t using Preorder.Tree.induct with
  | h c kids ih =>
    have hkids : ∀ t ∈ kids, LinkOk tr r s t := fun t ht => (ih t ht).1
    refine ⟨fun p l b hat hg => ?_, hkids⟩
    have hstart : Arms tr r s l b [] (b.node p c .branch false).2 := .start hg p c
    have hsize := hg.size
    by_cases hcases : c.role = some .cases
    · simp only [link, hcases]
      exact (linkCases_arms p (fun t ht => (ih t ht).2) hcases hg hat hstart).linked
    have hat' := hat.kids hcases
    cases hrole : c.role with
    | none =>
      simp only [hrole, isLoop] at hat'
      simp only [link, hrole]
      split_ifs
      · exact linkSeq_linked p hkids hg hat' .default
      · exact .node p c (by simp) (by simp) (by simp)
    | some role =>
      simp only [hrole, isLoop] at hat'
      cases role with
      | callable | clause | aggregate =>
        simp only [link, hrole]
        exact .node p c (by simp) (by simp) (by simp)
      | selfCall =>
        simp only [link, hrole]
        refine Linked.out (.inr rfl) (.node p c (by simp) (by simp) (by simp)) ?_ (fun _ => ?_) (by simp)
        · simp only [Build.node_entry, hg.entry]
          omega
        · simp [hg.entry]
      | exit =>
        simp only [link, hrole]
        refine Linked.out (.inl rfl) (.last p c (.inl rfl)) ?_ (fun _ => ?_) (by simp)
        · simp only [Build.node_exit, hg.exit]
          omega
        · simp [hg.exit]
      | throw =>
        simp only [link, hrole]
        exact Linked.out (.inl rfl) (.last p c (.inl rfl)) hg.throwTarget (fun h => absurd rfl h) (by simp)
      | jump =>
        simp only [link, hrole]
        exact linkJump_linked hg hat rfl
      | seq =>
        simp only [link, hrole]
        exact linkSeq_linked p hkids hg hat' .default
      | loop =>
        simp only [link, hrole]
        exact closeLoop_linked hg (linkLast_linked p hkids (hg.openLoop p c) hat')
      | doLoop =>
        simp only [link, hrole]
        exact closeLoop_linked hg (linkFirst_linked p hkids (hg.openLoop p c) hat')
      | branch =>
        simp only [link, hrole]
        exact (linkTail_arms p hkids hg hat' hstart).linked_branch
      | cases => exact absurd hrole hcases
      | negation =>
        simp only [link, hrole]
        have hgoal := linkLast_linked p hkids (hstart.span.good hg) hat'
        rcases hstart.step hg hgoal with ⟨entry, hentry, harms⟩ | ⟨hentry, harms⟩
        · simp only [Build.node_fst, hentry]
          exact harms.linked_branch
        · simp only [Build.node_fst, hentry]
          exact harms.linked_branch
      | fork =>
        simp only [link, hrole]
        split
        · rename_i hfirst
          cases kids with
          | nil => simp at hfirst
          | cons first rest =>
            have hbranch : first.label.role = some .branch := by simpa using hfirst
            exact linkForkBranch_linked p hkids (ih first (List.mem_cons_self ..)).2 hbranch hg hat'
        · have harms := linkArms_arms p hkids hg hat' hstart
          split
          · rename_i hnil
            have hnil : (linkArms b.nodes.length p 0 kids [] (b.node p c .branch false).2).1 = [] := hnil
            rw [hnil] at harms
            exact harms.linked_branch
          · exact harms.linked
      | try' =>
        simp only [link, hrole]
        split
        · exact linkCatchUnwind_linked p c _
        · exact linkTry_linked p c hkids hg hat'

end HafleyScm.Cfg
