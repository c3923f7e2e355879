import HafleyRs.HafleyScm.CfgControl
import HafleyRs.HafleyScm.CfgTree

/-!
# The shape of a file's control flow

| here | there |
| --- | --- |
| `Shape` | what holds of one callable's part of the graph |
| `Grown` | what one turn of the loop over the callables adds (cfg.rs:241-256) |

A callable's nodes are linked behind its entry and exit and nothing is added to them later, so the shape of each
callable is that of the finished graph (`buildCfg_shape`).
-/

namespace HafleyScm.Cfg
open Preorder Preorder.Tree

variable {p : Path} {s : Nat} {b b' b₁ : Build}

/-! ## Bodies -/

/-- Between callables. -/
structure Wf (b : Build) : Prop where
  edges : ∀ e ∈ b.edges, e.src < b.nodes.length
  caught : ∀ x ∈ b.caught, x.2 < b.nodes.length

theorem openCallable_length (b : Build) (p : Path) (c : CstNode) :
    (openCallable b p c).nodes.length = b.nodes.length + 2 := by
  simp [openCallable]

theorem Wf.good (h : Wf b) (p : Path) (c : CstNode) : Good b.nodes.length none (openCallable b p c) where
  entry := rfl
  exit := by simp [openCallable]
  size := by rw [openCallable_length]
  edges e he := by
    rw [openCallable_length]
    exact Nat.lt_add_right 2 (h.edges e he)
  catches n hn := by simp [openCallable] at hn
  caught x hx := by
    rw [openCallable_length]
    exact Nat.lt_add_right 2 (h.caught x hx)
  loop := rfl

theorem linkBody_guarded {tr body : Cst} {l : Option Path} {q : Path} (hg : Good s l b)
    (hat : At p tr q ⟨body, l, false⟩) :
    ∃ g, Guarded tr p s l b g (linkBody q p body b).1 (linkBody q p body b).2 := by
  have hlink : LinkOk tr p s body := (link_linked body).1
  simp only [linkBody]
  cases goRecoverTarget q body with
  | none =>
    cases hfind : b.caught.find? (·.1 == p) with
    | none => exact ⟨b, .plain .refl (hlink q l b hat hg)⟩
    | some x =>
      have hlt := hg.caught x (List.mem_of_find?_eq_some hfind)
      exact ⟨_, .caught .refl .refl (hlink q l _ hat (hg.guard hlt))⟩
  | some x =>
    obtain ⟨q', call⟩ := x
    have hnode : Sites tr p s l b (b.node q' call.label .stmt true).2 := .node q' call.label
    have hlt : b.nodes.length < (b.node q' call.label .stmt true).2.nodes.length := by simp
    have hthrows : Sites tr p s l (guard b.nodes.length (b.node q' call.label .stmt true).2) _ :=
      @throwCallSites_sites tr p s l b.nodes.length false body q _ hlt
    exact ⟨_, .caught hnode hthrows (hlink q l _ hat (hthrows.span.good ((hnode.span.good hg).guard hlt)))⟩

theorem callableFlow_guarded {t : Cst} (hrole : t.label.role = some .callable) (hg : Good s none b) :
    ∃ g, Guarded t p s none b g (callableFlow p t b).1 (callableFlow p t b).2 := by
  unfold callableFlow
  cases hbody : bodyOf t with
  | none => exact ⟨b, .plain .refl .default⟩
  | some body =>
    have hlast : t.children.getLast? = some body := by
      rw [bodyOf, Option.filter_eq_some_iff] at hbody
      exact hbody.1
    rw [List.getLast?_eq_getElem?] at hlast
    have hat := (At.root p t).child (i := t.children.length - 1) hlast
    simp only [hrole, isLoop] at hat
    exact linkBody_guarded hg hat

theorem foldHead_linked {tr : Cst} {r : Path} {l : Option Path} (hg : Good s l b) (p : Path) (head : Cst)
    {flow : Flow} (h : Linked tr r s l b flow b') :
    Linked tr r s l b (foldHead p head (flow, b')).1 (foldHead p head (flow, b')).2 := by
  unfold foldHead
  induction descendants p head generalizing flow b' with
  | nil => exact h
  | cons d ds ih =>
    rw [List.foldl_cons]
    split_ifs
    · exact ih (h.chain hg (.node d.1 d.2.label (by simp) (by simp) (by simp)))
    · exact ih h

theorem clauseFlow_linked {t : Cst} (hrole : t.label.role = some .clause) (hg : Good s none b) :
    Linked t p s none b (clauseFlow p t b).1 (clauseFlow p t b).2 := by
  obtain ⟨c, kids⟩ := t
  have hrole : c.role = some .clause := hrole
  have hat : AtKids (.node c kids) p p 0 kids none := by
    have := (At.root p (.node c kids)).kids (by simp [hrole])
    simpa [hrole, isLoop] using this
  cases kids with
  | nil => exact .default
  | cons head body =>
    have hseq := linkSeq_linked p (fun t _ => (link_linked t).1) hg hat.tail (.default (b := b))
    have hfold := foldHead_linked hg (p ++ [0]) head hseq
    exact hfold.chain hg (.node _ _ (by simp) (by simp) (by simp))

/-! ## One callable -/

/-- The nodes from `s` up to `e` are those of the callable `t` at `p`. -/
structure Shape (t : Cst) (p : Path) (s e : Nat) (b : Build) : Prop where
  size : s + 2 ≤ e ∧ e ≤ b.nodes.length
  entry : b.kindOf s = some .entry ∧ b.originOf s = some p
  exit : b.kindOf (s + 1) = some .exit ∧ b.originOf (s + 1) = some p
  only : ∀ n, s ≤ n → n < e → (b.kindOf n = some .entry → n = s) ∧ (b.kindOf n = some .exit → n = s + 1)
  leave : ∀ x ∈ b.edges, x.src ≠ s + 1
  inside : ∀ x ∈ b.edges, s ≤ x.src → x.src < e → x.kind ≠ .throw → s ≤ x.dst ∧ x.dst < e
  jumps : ∀ x ∈ b.edges, s ≤ x.src → x.src < e → b.kindOf x.src = some .jump → JumpEdge t p s b x
  stmts : ∀ n, s ≤ n → n < e → isStmt b n → Entered s b n ∨ Shut b (n - 1)

/-- The edges from `s` up to `e` are those of a linked callable and what `control_dependence` adds to it. -/
def Controls (sf : SimpleFast) (s e : Nat) (b : Build) : Prop :=
  ∃ joined done : Build, joined.nodes <+: b.nodes ∧ joined.nodes.length = e ∧
    (∀ x ∈ joined.edges, s ≤ x.src → x.kind ≠ .control ∧ x.dst ≠ x.src) ∧
    controlDependence sf joined s (s + 1) = some done ∧
    ∀ x : Edge, s ≤ x.src → x.src < e → (x ∈ done.edges ↔ x ∈ b.edges)

/-- Linking the callable `t` at `p` takes `b` to `b'`. -/
structure Grown (sf : SimpleFast) (p : Path) (t : Cst) (b b' : Build) : Prop where
  ext : Extends b b'
  fresh : ∀ e ∈ b'.edges, e ∈ b.edges ∨ b.nodes.length ≤ e.src
  closed : b'.closed = b.closed ++ [(p, b.nodes.length, b'.nodes.length)]
  wf : Wf b'
  shape : Shape t p b.nodes.length b'.nodes.length b'
  controls : Controls sf b.nodes.length b'.nodes.length b'

/-- The edges of a closed callable: its open exits to its exit, and one out of its entry. -/
theorem join_eq (b : Build) (entry exit : Nat) {flow : Flow} (hnone : flow.entry = none → flow.exits = []) :
    ∃ es d kind, join entry exit flow b = { b with edges := es } ∧
      (∀ e, e ∈ es ↔ e ∈ (b.connect flow.exits exit).edges ∨ e = ⟨entry, d, kind⟩) ∧
      (flow.entry = some d ∨ (flow.entry = none ∧ d = exit)) ∧ kind ≠ .control ∧ kind ≠ .throw := by
  obtain ⟨es₀, he₀, hmem₀⟩ := b.connect_eq flow.exits exit
  unfold join
  cases hentry : flow.entry with
  | none =>
    obtain ⟨es, he, hmem⟩ := b.edge_eq entry exit .exit
    refine ⟨es, exit, .exit, he, fun e => (hmem e).trans ?_, .inr ⟨rfl, rfl⟩, by simp, by simp⟩
    rw [hnone hentry]
    rfl
  | some first =>
    obtain ⟨es₁, he₁, hmem₁⟩ := b.edge_eq entry first .next
    obtain ⟨es, he, hmem⟩ := ({ b with edges := es₁ } : Build).connect_eq flow.exits exit
    refine ⟨es, first, .next, by simp only [he₁, he], fun e => (hmem e).trans ?_, .inl rfl, by simp, by simp⟩
    rw [he₀]
    simp only [hmem₀, hmem₁]
    exact or_right_comm

theorem isControl_iff {kind : Option CfgNodeKind} :
    isControl kind = true ↔ kind = some .branch ∨ kind = some .loop := by
  simp [isControl]

/-- Where the edges of a linked callable come from. -/
inductive Source (t : Cst) (p : Path) (s : Nat) (b conn : Build) (e : Edge) : Prop
  | before : e ∈ b.edges → Source t p s b conn e
  | linked : e ∈ conn.edges → EdgeOk t p s (s + 2) conn e → Source t p s b conn e
  | entry : e.src = s → s < e.dst → e.dst < conn.nodes.length → e.kind ≠ .control → Source t p s b conn e
  | control : e.kind = .control → isControl (conn.kindOf e.src) = true → (s ≤ e.src ∧ e.src < conn.nodes.length) →
      s ≤ e.dst ∧ e.dst < conn.nodes.length → Source t p s b conn e

section
variable {t : Cst} {conn : Build} {P : Nat → Prop}
  (hwf : Wf b) (hspan : Span t p b.nodes.length none P (openCallable b p t.label) conn) (hx : Extends conn b')
  (hlen : b'.nodes.length = conn.nodes.length)
  (hsource : ∀ e ∈ b'.edges, Source t p b.nodes.length b conn e)
include hwf hspan hx hlen hsource

/-- A callable's shape, from the span that links it and where its edges come from. -/
theorem shape_of_source
    (hentered : ∀ n, isStmt conn n → P n → Entered b.nodes.length b' n) :
    Shape t p b.nodes.length b'.nodes.length b' := by
  have hlow := hspan.extends.le
  rw [openCallable_length] at hlow
  have hentry : b'.kindOf b.nodes.length = some .entry ∧ b'.originOf b.nodes.length = some p := by
    have h := hspan.extends.trans hx
    exact ⟨h.kindOf (by simp [openCallable, Build.kindOf]), h.originOf (by simp [openCallable, Build.originOf])⟩
  have hexit : b'.kindOf (b.nodes.length + 1) = some .exit ∧ b'.originOf (b.nodes.length + 1) = some p := by
    have h := hspan.extends.trans hx
    exact ⟨h.kindOf (by simp [openCallable, Build.kindOf]), h.originOf (by simp [openCallable, Build.originOf])⟩
  have hkind : ∀ n, n < conn.nodes.length → b'.kindOf n = conn.kindOf n := fun n hn => hx.kindOf_lt hn
  have hcase : ∀ n, b.nodes.length ≤ n → n = b.nodes.length ∨ n = b.nodes.length + 1 ∨
      (openCallable b p t.label).nodes.length ≤ n := by
    intro n hn
    rw [openCallable_length]
    omega
  refine ⟨⟨by omega, Nat.le_refl _⟩, hentry, hexit, fun n hn hlt => ?_, fun x hmem => ?_, fun x hmem hge hlt hk => ?_,
    fun x hmem hge hlt hk => ?_, fun n hn hlt hstmt => ?_⟩
  · rcases hcase n hn with rfl | rfl | hge
    · exact ⟨fun _ => rfl, fun h => absurd (hentry.1.symm.trans h) (by simp)⟩
    · exact ⟨fun h => absurd (hexit.1.symm.trans h) (by simp), fun _ => rfl⟩
    · have hnew := hspan.kinds n hge
      rw [hkind n (by omega)]
      exact ⟨fun h => absurd h hnew.1, fun h => absurd h hnew.2⟩
  · rcases hsource x hmem with h | ⟨-, h⟩ | ⟨h, -, -, -⟩ | ⟨-, h, hlt, -⟩
    · have := hwf.edges x h
      omega
    · have := h.src_ge
      omega
    · omega
    · rintro heq
      rw [← hkind _ hlt.2, heq, hexit.1] at h
      simp [isControl] at h
  · rcases hsource x hmem with h | ⟨-, h⟩ | ⟨h, hd, hd', -⟩ | ⟨-, -, -, hd⟩
    · have := hwf.edges x h
      omega
    · exact ⟨h.inside hk, hlen ▸ h.dst_lt⟩
    · omega
    · omega
  · rcases hsource x hmem with h | ⟨-, h⟩ | ⟨h, -, -, -⟩ | ⟨-, h, -, -⟩
    · have := hwf.edges x h
      omega
    · rw [hkind _ (by omega)] at hk
      exact hx.jumpEdge (h.jump hk)
    · rw [h, hentry.1] at hk
      cases hk
    · rw [hkind _ (by omega)] at hk
      rw [hk] at h
      simp [isControl] at h
  · have hstmt' : isStmt conn n := hx.isStmt (by omega) hstmt
    rcases hcase n hn with rfl | rfl | hge
    · obtain ⟨x, hx, hkind, -⟩ := hstmt
      simp [Build.kindOf, hx, hkind] at hentry
    · obtain ⟨x, hx, hkind, -⟩ := hstmt
      simp [Build.kindOf, hx, hkind] at hexit
    · rcases hspan.stmts n hge hstmt' with h | h | h
      · exact .inl (hx.entered h)
      · refine .inr (hx.shut h fun hb hjump => ?_)
        obtain ⟨e, he, hsrc, hkind'⟩ := hjump
        rcases hsource e he with h | ⟨h, -⟩ | ⟨h, -, -, -⟩ | ⟨h, -, -, -⟩
        · exact ⟨e, hspan.edges h, hsrc, hkind'⟩
        · exact ⟨e, h, hsrc, hkind'⟩
        · rw [← hkind _ (Build.lt_of_kindOf hb), ← hsrc, h, hentry.1] at hb
          cases hb
        · exact absurd h hkind'
      · exact .inl (hentered n hstmt' h)

end

/-- A linked body, closed. -/
theorem close_grown {sf : SimpleFast} (hsf : ImmediateDominators sf) (hwf : Wf b) {t : Cst} {g b₂ : Build} {flow : Flow}
    (hbody : Guarded t p b.nodes.length none (openCallable b p t.label) g flow b₂) :
    ∃ b', close sf p b.nodes.length (b.nodes.length + 1) flow b₂ = some b' ∧ Grown sf p t b b' := by
  obtain ⟨inner, hlinked, hsame⟩ := hbody.linked
  have hlow := openCallable_length b p t.label
  have hle := hbody.le
  have hle' := hlinked.span.extends.le
  have hinner : inner.nodes.length = b₂.nodes.length := by rw [hsame.1]
  have hnone : flow.entry = none → flow.exits = [] := by
    intro h
    rcases hlinked.entry with ⟨hsome, -⟩ | ⟨-, hnil, -⟩
    · cases hsome.symm.trans h
    · exact hnil
  have hends : Ends t p b.nodes.length (fun n => n = g.nodes.length) (openCallable b p t.label).nodes.length b₂
      flow.exits :=
    ((hlinked.ends.mono hbody.le).extend_edges hsame.extends hinner.symm).weaken fun _ h => h.elim
  have hexit : b.nodes.length + 1 ∉ flow.exits := fun h => absurd (hends.ge _ h) (by omega)
  have hconn := hbody.span.connect hends (Nat.le_succ _) (by omega) hexit
  obtain ⟨es, d, kind, hjoin, hmem, hd, hk, hk'⟩ := join_eq b₂ b.nodes.length (b.nodes.length + 1) hnone
  obtain ⟨es', hcontrol, hsub, hnew⟩ :=
    controlDependence_adds hsf { b₂ with edges := es } b.nodes.length (b.nodes.length + 1)
  have hd' : b.nodes.length < d ∧ d < b₂.nodes.length := by
    rcases hd with hd | ⟨-, rfl⟩
    · rcases hlinked.entry with ⟨hsome, hlt⟩ | ⟨hn, -⟩
      · obtain rfl : g.nodes.length = d := Option.some.inj (hsome.symm.trans hd)
        omega
      · cases hn.symm.trans hd
    · omega
  have hsource : ∀ e ∈ es', Source t p b.nodes.length b (b₂.connect flow.exits (b.nodes.length + 1)) e := by
    intro e he
    have hkinds : ∀ n, (b₂.connect flow.exits (b.nodes.length + 1)).kindOf n = b₂.kindOf n := by simp [Build.kindOf]
    rcases hnew e he with he | ⟨hc, hsrc, hin, hin'⟩
    · rcases (hmem e).1 he with he | rfl
      · rcases hconn.fresh e he with h | h
        · exact .before h
        · exact .linked he (hlow ▸ h)
      · exact .entry rfl hd'.1 (by simpa using hd'.2) hk
    · exact .control hc ((hkinds _).symm ▸ hsrc) (by simpa using hin) (by simpa using hin')
  let b' : Build := { b₂ with edges := es', closed := b₂.closed ++ [(p, b.nodes.length, b₂.nodes.length)] }
  have hx : Extends (b₂.connect flow.exits (b.nodes.length + 1)) b' :=
    ⟨by simp [b'], fun e h => hsub ((hmem e).2 (.inl h))⟩
  have hopen : Extends b (openCallable b p t.label) :=
    ⟨by simp [openCallable, List.append_assoc], List.Subset.refl _⟩
  have hext : Extends b b' := hopen.trans (hconn.extends.trans hx)
  have hfresh : ∀ e ∈ b'.edges, e ∈ b.edges ∨ b.nodes.length ≤ e.src := by
    intro e he
    rcases hsource e he with h | ⟨-, h⟩ | ⟨h, -, -, -⟩ | ⟨-, -, h, -⟩
    · exact .inl h
    · exact .inr (Nat.le_trans (Nat.le_add_right ..) h.src_ge)
    · exact .inr (Nat.le_of_eq h.symm)
    · exact .inr h.1
  refine ⟨b', ?_, ⟨hext, hfresh, ?_, ⟨fun e he => ?_, fun x hx => ?_⟩, ?_,
    ⟨{ b₂ with edges := es }, _, List.prefix_refl _, rfl, ?_, hcontrol, fun _ _ _ => Iff.rfl⟩⟩⟩
  · rw [close, hjoin, hcontrol]
    rfl
  · show b₂.closed ++ _ = _
    rw [hbody.span.closed]
    rfl
  · have hlen : (b₂.connect flow.exits (b.nodes.length + 1)).nodes.length = b₂.nodes.length := by simp
    show e.src < b₂.nodes.length
    rcases hsource e he with h | ⟨-, h⟩ | ⟨h, -, -, -⟩ | ⟨-, -, h, -⟩
    · have := hwf.edges e h
      omega
    · exact hlen ▸ h.src_lt
    · omega
    · exact hlen ▸ h.2
  · rcases hbody.span.caught x hx with h | h
    · have := hwf.caught x h
      show x.2 < b₂.nodes.length
      omega
    · exact h
  · refine shape_of_source hwf hconn hx (by simp [b']) hsource fun n hn hp => ?_
    subst hp
    rcases hd with hd | ⟨hn', -⟩
    · rcases hlinked.entry with ⟨hsome, -⟩ | ⟨hn', -⟩
      · obtain rfl : g.nodes.length = d := Option.some.inj (hsome.symm.trans hd)
        exact ⟨_, hsub ((hmem _).2 (.inr rfl)), rfl, Nat.le_refl _, hd'.1⟩
      · cases hn'.symm.trans hd
    · rcases hlinked.entry with ⟨hsome, -⟩ | ⟨-, -, hshort⟩
      · cases hsome.symm.trans hn'
      · have := isStmt_lt hn
        rw [Build.connect_nodes] at this
        omega
  · intro e he hge
    rcases (hmem e).1 he with he | rfl
    · rcases hconn.fresh e he with h | h
      · have := hwf.edges e h
        omega
      · exact ⟨h.flow, h.ne⟩
    · exact ⟨hk, Nat.ne_of_gt hd'.1⟩

/-- **One callable.** -/
theorem callable_grown {sf : SimpleFast} (hsf : ImmediateDominators sf) (hwf : Wf b) {t : Cst}
    (ht : isCallable t = true) : ∃ b', callable sf b (p, t) = some b' ∧ Grown sf p t b b' := by
  have hg := hwf.good p t.label
  have hexit : (openCallable b p t.label).exit = b.nodes.length + 1 := hg.exit
  unfold callable
  simp only [hexit]
  by_cases hclause : t.label.role = some .clause
  · rw [if_pos hclause]
    exact close_grown hsf hwf (.plain .refl (clauseFlow_linked hclause hg))
  · rw [if_neg hclause]
    have hrole : t.label.role = some .callable := by
      simp only [isCallable, Bool.or_eq_true, beq_iff_eq] at ht
      exact ht.resolve_right hclause
    obtain ⟨g, hbody⟩ := callableFlow_guarded hrole hg
    exact close_grown hsf hwf hbody

/-! ## All callables -/

/-- Only edges from `e` on are added. -/
theorem Shape.later {t : Cst} {e : Nat} (h : Shape t p s e b) (hx : Extends b b')
    (hfresh : ∀ x ∈ b'.edges, x ∈ b.edges ∨ e ≤ x.src) : Shape t p s e b' := by
  have hsize := h.size
  have hkind : ∀ n, n < e → b'.kindOf n = b.kindOf n := fun n hn => hx.kindOf_lt (by omega)
  have hold : ∀ x ∈ b'.edges, x.src < e → x ∈ b.edges := fun x hmem hlt =>
    (hfresh x hmem).resolve_right (by omega)
  refine ⟨⟨hsize.1, Nat.le_trans hsize.2 hx.le⟩, ⟨hx.kindOf h.entry.1, hx.originOf h.entry.2⟩,
    ⟨hx.kindOf h.exit.1, hx.originOf h.exit.2⟩, fun n hn hlt => ?_, fun x hmem => ?_, fun x hmem hge hlt => ?_,
    fun x hmem hge hlt hk => ?_, fun n hn hlt hstmt => ?_⟩
  · rw [hkind n hlt]
    exact h.only n hn hlt
  · rcases hfresh x hmem with hm | hge
    · exact h.leave x hm
    · omega
  · exact h.inside x (hold x hmem hlt) hge hlt
  · rw [hkind _ hlt] at hk
    exact hx.jumpEdge (h.jumps x (hold x hmem hlt) hge hlt hk)
  · rcases h.stmts n hn hlt (hx.isStmt (by omega) hstmt) with he | he
    · exact .inl (hx.entered he)
    · refine .inr (hx.shut he fun _ ⟨x, hmem, hsrc, hk⟩ => ⟨x, hold x hmem (by omega), hsrc, hk⟩)

theorem Controls.later {sf : SimpleFast} {e : Nat} (h : Controls sf s e b) (hx : Extends b b')
    (hfresh : ∀ x ∈ b'.edges, x ∈ b.edges ∨ e ≤ x.src) : Controls sf s e b' := by
  obtain ⟨joined, done, hpre, hlen, hplain, hcontrol, hmem⟩ := h
  refine ⟨joined, done, hpre.trans hx.nodes, hlen, hplain, hcontrol, fun x hge hlt => (hmem x hge hlt).trans ?_⟩
  exact ⟨fun h => hx.edges h, fun h => (hfresh x h).resolve_right (by omega)⟩

/-- The parts lie behind each other, from `s` to `e`. -/
def Tiles : Nat → List (Path × Nat × Nat) → Nat → Prop
  | s, [], e => s = e
  | s, part :: parts, e => part.2.1 = s ∧ Tiles part.2.2 parts e

/-- What holds of the callables `cs` in a graph in which they were closed as `parts`, from node `s` on. -/
structure Parts (sf : SimpleFast) (cs : List (Path × Cst)) (s : Nat) (parts : List (Path × Nat × Nat)) (b : Build) :
    Prop where
  paths : parts.map (·.1) = cs.map (·.1)
  tiles : Tiles s parts b.nodes.length
  shape : List.Forall₂ (fun c part => Shape c.2 c.1 part.2.1 part.2.2 b) cs parts
  controls : ∀ part ∈ parts, Controls sf part.2.1 part.2.2 b

/-- **Callable after callable.** -/
theorem foldlM_parts {sf : SimpleFast} (hsf : ImmediateDominators sf) :
    ∀ (cs : List (Path × Cst)) (b : Build), (∀ c ∈ cs, isCallable c.2 = true) → Wf b →
      ∃ b' parts, cs.foldlM (callable sf) b = some b' ∧ Extends b b' ∧
        (∀ e ∈ b'.edges, e ∈ b.edges ∨ b.nodes.length ≤ e.src) ∧ Wf b' ∧ b'.closed = b.closed ++ parts ∧
        Parts sf cs b.nodes.length parts b'
  | [], b, _, hwf =>
    ⟨b, [], rfl, ⟨List.prefix_refl _, List.Subset.refl _⟩, fun _ h => .inl h, hwf, by simp,
      ⟨rfl, rfl, .nil, by simp⟩⟩
  | (p, t) :: cs, b, hall, hwf => by
    obtain ⟨b₁, hb₁, hgrown⟩ := callable_grown (p := p) hsf hwf (hall _ (List.mem_cons_self ..))
    obtain ⟨b', parts, hb', hx, hfresh, hwf', hclosed, hparts⟩ :=
      foldlM_parts hsf cs b₁ (fun c hc => hall c (List.mem_cons_of_mem _ hc)) hgrown.wf
    refine ⟨b', (p, b.nodes.length, b₁.nodes.length) :: parts, ?_, hgrown.ext.trans hx, fun e he => ?_, hwf', ?_, ?_⟩
    · rw [List.foldlM_cons, hb₁]
      exact hb'
    · rcases hfresh e he with h | h
      · exact hgrown.fresh e h
      · exact .inr (Nat.le_trans hgrown.ext.le h)
    · rw [hclosed, hgrown.closed, List.append_assoc]
      rfl
    · refine ⟨by simp [hparts.paths], ⟨rfl, hparts.tiles⟩, .cons (hgrown.shape.later hx hfresh) hparts.shape, ?_⟩
      intro part hpart
      rcases List.mem_cons.1 hpart with rfl | hpart
      · exact hgrown.controls.later hx hfresh
      · exact hparts.controls part hpart

/-- A callable is where the tree has it. -/
theorem mem_callables {t u : Cst} {q : Path} (h : (q, u) ∈ callables t) : t.sub q = some u ∧ isCallable u = true := by
  obtain ⟨hmem, hrole⟩ := List.mem_filter.1 h
  refine ⟨?_, hrole⟩
  rcases List.mem_cons.1 hmem with heq | hmem
  · obtain ⟨rfl, rfl⟩ := Prod.mk.inj heq
    rfl
  · obtain ⟨q', -, hq'⟩ := List.mem_filterMap.1 hmem
    obtain ⟨v, hv, heq⟩ := Option.map_eq_some_iff.1 hq'
    obtain ⟨rfl, rfl⟩ := Prod.mk.inj heq
    exact hv

theorem buildCfg_parts {sf : SimpleFast} (hsf : ImmediateDominators sf) (t : Cst) :
    ∃ b, buildCfg sf t = some b ∧ Wf b ∧ Parts sf (callables t) 0 b.closed b := by
  obtain ⟨b, parts, hb, -, -, hwf, hclosed, hparts⟩ := foldlM_parts hsf (callables t) Build.new
    (fun c hc => (mem_callables hc).2) ⟨by simp [Build.new], by simp [Build.new]⟩
  refine ⟨b, hb, hwf, ?_⟩
  rw [hclosed]
  exact hparts

/-- **The shape of a file's control flow.** Each callable has its own stretch of nodes, with one entry and one exit,
and no edge leaves an exit. Edges other than `Throw` stay in their callable. An edge out of a jump goes to the header
of the innermost loop around it or where that header goes when the loop is over. A linked statement is entered from an
earlier node of its callable, or comes right after a return, a jump, or a branch that no edge leaves. -/
theorem buildCfg_shape {sf : SimpleFast} (hsf : ImmediateDominators sf) (t : Cst) :
    ∃ b, buildCfg sf t = some b ∧ b.closed.map (·.1) = (callables t).map (·.1) ∧ Tiles 0 b.closed b.nodes.length ∧
      (∀ e ∈ b.edges, e.src < b.nodes.length) ∧
      List.Forall₂ (fun c part => Shape c.2 c.1 part.2.1 part.2.2 b) (callables t) b.closed := by
  obtain ⟨b, hb, hwf, hparts⟩ := buildCfg_parts hsf t
  exact ⟨b, hb, hparts.paths, hparts.tiles, hwf.edges, hparts.shape⟩

section
variable (kind : String) (role : Option CfgRole) (children : List Cst)

/-- A node whose text begins with its keyword. -/
def syntaxNode (word : String) : Cst := .node ⟨kind, role, 0, 0, word, ""⟩ children

end

/-- `while (x) { switch (y) { case 0: break; } f; }` -/
def switchInLoop : Cst :=
  syntaxNode "function_declaration" (some .callable) [
    syntaxNode "while_statement" (some .loop) [
      syntaxNode "identifier" none [] "x",
      syntaxNode "statement_block" none [
        syntaxNode "switch_statement" (some .branch) [
          syntaxNode "identifier" none [] "y",
          syntaxNode "break_statement" (some .jump) [] "break"] "switch",
        syntaxNode "expression_statement" none [] "f"] ""] "while"] "function"

/-- `try { f() } catch {}` -/
def callInTry : Cst :=
  syntaxNode "function_declaration" (some .callable) [
    syntaxNode "try_statement" (some .try') [
      syntaxNode "call_expression" none [] "f",
      syntaxNode "catch_clause" none [] "catch"] "try"] "function"

/-- `match x:` without a case, and a statement after it -/
def emptyMatch : Cst :=
  syntaxNode "function_definition" (some .callable) [
    syntaxNode "block" none [
      syntaxNode "match_statement" (some .cases) [
        syntaxNode "identifier" none [] "x",
        syntaxNode "block" none [] ""] "match",
      syntaxNode "expression_statement" none [] "f"] ""] "def"

theorem buildCfg_shape_switchInLoop :
    ∃ b, buildCfg simpleFast switchInLoop = some b ∧
      b.closed.map (·.1) = (callables switchInLoop).map (·.1) ∧ Tiles 0 b.closed b.nodes.length ∧
      (∀ e ∈ b.edges, e.src < b.nodes.length) ∧
      List.Forall₂ (fun c part => Shape c.2 c.1 part.2.1 part.2.2 b) (callables switchInLoop) b.closed :=
  buildCfg_shape simpleFast_immediate switchInLoop

/-- A TypeScript `break` leaves the innermost loop or `switch` around it. -/
def leaves (c : CstNode) : Bool := isLoop c.role || c.kind == "switch_statement"

/-- The innermost node above `p` of which `f` holds. -/
def innermost (f : CstNode → Bool) (t : Cst) (p : Path) : Option Path :=
  (p.inits.dropLast.filter fun q => (t.sub q).any fun u => f u.label).getLast?

/-- Each edge out of a `break` goes where the construct it leaves goes. -/
def breaksLeave (t : Cst) (b : Build) : Bool :=
  b.edges.all fun e => b.kindOf e.src != some .jump ||
    (b.originOf e.src).all fun p => (innermost leaves t p).all fun q =>
      b.edges.any fun x => b.originOf x.src == some q && x.dst == e.dst

/-- Each statement is entered from an earlier node of the callable or follows a jump that cannot fall through. -/
def statementsFollow (b : Build) : Bool :=
  b.closed.all fun part => (List.range' part.2.1 (part.2.2 - part.2.1)).all fun n =>
    b.kindOf n != some .stmt || (b.edges.any fun e => e.dst == n && part.2.1 ≤ e.src && e.src < n) ||
      b.kindOf (n - 1) == some .ret || b.kindOf (n - 1) == some .jump

/-- The `break` in the `switch` leaves the loop instead; the call site in the `try` has no way in, and neither has
the statement after the `match`. -/
theorem switch_is_not_left :
    (buildCfg simpleFast switchInLoop).map (breaksLeave switchInLoop) = some false ∧
      (buildCfg simpleFast callInTry).map statementsFollow = some false ∧
      (buildCfg simpleFast emptyMatch).map statementsFollow = some false := by
  decide

end HafleyScm.Cfg

/-!
# Control edges are control dependence

For a callable of the finished graph whose nodes all reach its exit, the `Control` edges are the control dependences
on its branches and loops that its entry reaches (`control_iff_dependent`). Nodes with two ways on that are no branch
or loop, and branches that nothing reaches, have none (`selfCall_has_no_control`).
-/

namespace HafleyScm.Cfg
open Dominance Preorder Preorder.Tree

/-- An edge between two nodes of the callable from `s` up to `e`, `Control` apart. -/
def FlowIn (b : Build) (s e u v : Nat) : Prop :=
  (s ≤ u ∧ u < e) ∧ (s ≤ v ∧ v < e) ∧ ∃ kind, (⟨u, v, kind⟩ : Edge) ∈ b.edges ∧ kind ≠ .control

/-- The callable's flow as `control_dependence` sees it and in the finished graph. -/
theorem flowIn_iff {sf : SimpleFast} (hsf : ImmediateDominators sf) {b joined done : Build} {s : Nat}
    (hdone : controlDependence sf joined s (s + 1) = some done)
    (hmem : ∀ x : Edge, s ≤ x.src → x.src < joined.nodes.length → (x ∈ done.edges ↔ x ∈ b.edges))
    (u : Fin (joined.nodes.length - s)) (w : Nat) :
    FlowIn b s joined.nodes.length (s + u) w ↔
      ∃ v : Fin (joined.nodes.length - s), w = s + v ∧ FlowEdge joined s (joined.nodes.length - s) u v := by
  obtain ⟨es, he, hsub, hnew⟩ := controlDependence_adds hsf joined s (s + 1)
  obtain rfl := Option.some.inj (he.symm.trans hdone)
  have hflow : ∀ w kind, kind ≠ .control →
      ((⟨s + u, w, kind⟩ : Edge) ∈ b.edges ↔ (⟨s + u, w, kind⟩ : Edge) ∈ joined.edges) := by
    intro w kind hkind
    rw [← hmem ⟨s + u, w, kind⟩ (Nat.le_add_right ..) (by simp only; omega)]
    exact ⟨fun h => (hnew _ h).resolve_right fun h => hkind h.1, fun h => hsub h⟩
  constructor
  · rintro ⟨-, hw, kind, he, hkind⟩
    refine ⟨⟨w - s, by omega⟩, by simp only; omega, (flowEdge_iff ..).2 ⟨kind, ?_, hkind⟩⟩
    rw [show s + (w - s) = w by omega]
    exact (hflow w kind hkind).1 he
  · rintro ⟨v, rfl, hv⟩
    obtain ⟨kind, he, hkind⟩ := (flowEdge_iff ..).1 hv
    exact ⟨⟨by omega, by omega⟩, ⟨by omega, by omega⟩, kind, (hflow _ kind hkind).2 he, hkind⟩

theorem forall₂_mem {α β : Type} {R : α → β → Prop} {as : List α} {bs : List β} (h : List.Forall₂ R as bs) {y : β}
    (hy : y ∈ bs) : ∃ a ∈ as, R a y := by
  induction h with
  | nil => exact absurd hy List.not_mem_nil
  | cons hr _ ih =>
    rcases List.mem_cons.1 hy with rfl | hy
    · exact ⟨_, List.mem_cons_self .., hr⟩
    · obtain ⟨a, ha, hr⟩ := ih hy
      exact ⟨a, List.mem_cons_of_mem _ ha, hr⟩

/-- **Control edges are control dependence**, for the branches and loops that the entry reaches. -/
theorem control_iff_dependent {sf : SimpleFast} (hsf : ImmediateDominators sf) {t : Cst} {b : Build}
    (hb : buildCfg sf t = some b) {p : Preorder.Path} {s e : Nat} (hpart : (p, s, e) ∈ b.closed)
    (hout : ∀ n, s ≤ n → n < e → ∃ l, Path (FlowIn b s e) n (s + 1) l) {c : Nat} (hc : s ≤ c ∧ c < e) (n : Nat) :
    (⟨c, n, .control⟩ : Edge) ∈ b.edges ↔
      (b.kindOf c = some .branch ∨ b.kindOf c = some .loop) ∧ (∃ l, Path (FlowIn b s e) s c l) ∧
        Dependent (FlowIn b s e) (s + 1) c n := by
  obtain ⟨b', hb', -, hparts⟩ := buildCfg_parts hsf t
  obtain rfl := Option.some.inj (hb'.symm.trans hb)
  obtain ⟨x, -, hshape⟩ := forall₂_mem hparts.shape hpart
  have hsize : s + 2 ≤ e := hshape.size.1
  obtain ⟨joined, done, hpre, hlen, hplain, hdone, hmem⟩ := hparts.controls _ hpart
  simp only at hlen hplain hdone hmem
  subst hlen
  have hf := flowIn_iff hsf hdone hmem
  have hinj : Function.Injective fun v : Fin (joined.nodes.length - s) => s + (v : Nat) :=
    fun u v h => Fin.ext (Nat.add_left_cancel h)
  have hkind : ∀ n, n < joined.nodes.length → b'.kindOf n = joined.kindOf n := fun n hn =>
    Build.kindOf_of_prefix hpre hn
  have hexit : s + (s + 1 - s) = s + 1 := by omega
  have hexitlt : s + 1 - s < joined.nodes.length - s := by omega
  have hout' : ∀ n : Fin (joined.nodes.length - s), ∃ l, Path (FlowEdge joined s _) n ⟨s + 1 - s, hexitlt⟩ l := by
    intro n
    have h := hout (s + n) (by omega) (by omega)
    rw [← hexit] at h
    exact (exists_path_map hf hinj).1 h
  have hself : ∀ n, ¬ FlowEdge joined s (joined.nodes.length - s) n n := by
    intro n hn
    obtain ⟨kind, he, -⟩ := (flowEdge_iff ..).1 hn
    exact (hplain _ he (Nat.le_add_right ..)).2 rfl
  have hexitkind : isControl (joined.kindOf (s + 1)) = false := by
    rw [← hkind _ (by omega), hshape.exit.1]
    rfl
  -- both sides speak of nodes of the callable
  have hin : (⟨c, n, .control⟩ : Edge) ∈ b'.edges ∨ Dependent (FlowIn b' s joined.nodes.length) (s + 1) c n →
      s ≤ n ∧ n < joined.nodes.length := by
    rintro (h | ⟨w, hw, hpost, -⟩)
    · exact hshape.inside _ h hc.1 hc.2 (by simp)
    · obtain ⟨l, hl⟩ := hout w hw.2.1.1 hw.2.1.2
      obtain ⟨l', hl', -⟩ := hl.suffix (hpost l hl)
      cases hl' with
      | single => omega
      | cons h _ => exact h.1
  by_cases hn : s ≤ n ∧ n < joined.nodes.length
  · have hiff := mem_controlDependence hsf (by omega) hexitlt (by omega) hexitkind hout' hself hdone
      ⟨c - s, by omega⟩ ⟨n - s, by omega⟩
    have hc' : s + (c - s) = c := by omega
    have hn' : s + (n - s) = n := by omega
    simp only [hc', hn'] at hiff
    have hpath := exists_path_map hf hinj (a := ⟨0, by omega⟩) (b := ⟨c - s, by omega⟩)
    have hdep := dependent_map hf hinj (x := ⟨s + 1 - s, hexitlt⟩) (b := ⟨c - s, by omega⟩) (n := ⟨n - s, by omega⟩)
    simp only [hexit, hc', hn', Nat.add_zero] at hpath hdep
    have hold : (⟨c, n, .control⟩ : Edge) ∉ joined.edges := fun h => (hplain _ h hc.1).1 rfl
    rw [← hmem ⟨c, n, .control⟩ hc.1 hc.2, hiff, hpath, hdep, hkind c hc.2, isControl_iff]
    exact or_iff_right hold
  · exact ⟨fun h => absurd (hin (.inl h)) hn, fun h => absurd (hin (.inr h.2.2)) hn⟩

/-! ## Dependences without a `Control` edge -/

/-- `if (x) f;` -/
def ifStatement : Cst :=
  syntaxNode "if_statement" (some .branch) [
    syntaxNode "identifier" none [] "x", syntaxNode "expression_statement" none [] "f"] "if"

def oneIf : Cst := syntaxNode "function_declaration" (some .callable) [ifStatement] "function"

/-- `return; if (x) f;` -/
def ifAfterReturn : Cst :=
  syntaxNode "function_declaration" (some .callable) [
    syntaxNode "statement_block" none [
      syntaxNode "return_statement" (some .exit) [] "return", ifStatement] ""] "function"

/-- `walk :- walk.` -/
def selfCall : Cst :=
  syntaxNode "binary_operation" (some .callable) [
    syntaxNode "atom" none [] "walk", syntaxNode "atom" (some .selfCall) [] "walk"] "walk"

/-- The graph of a tree, as `simpleFast` gives it. -/
def graphOf (t : Cst) : Build := (buildCfg simpleFast t).getD Build.new

theorem control_iff_dependent_oneIf :
    (⟨2, 3, .control⟩ : Edge) ∈ (graphOf oneIf).edges ↔
      ((graphOf oneIf).kindOf 2 = some .branch ∨ (graphOf oneIf).kindOf 2 = some .loop) ∧
        (∃ l, Path (FlowIn (graphOf oneIf) 0 4) 0 2 l) ∧ Dependent (FlowIn (graphOf oneIf) 0 4) 1 2 3 := by
  have h02 : FlowIn (graphOf oneIf) 0 4 0 2 := ⟨by omega, by omega, .next, by decide, by decide⟩
  have h21 : FlowIn (graphOf oneIf) 0 4 2 1 := ⟨by omega, by omega, .exit, by decide, by decide⟩
  have h31 : FlowIn (graphOf oneIf) 0 4 3 1 := ⟨by omega, by omega, .exit, by decide, by decide⟩
  refine control_iff_dependent simpleFast_immediate (t := oneIf) (p := []) (by decide) (by decide) (fun n _ hn => ?_)
    (by omega) 3
  interval_cases n
  · exact ⟨_, .cons h02 (.cons h21 (.single 1))⟩
  · exact ⟨_, .single 1⟩
  · exact ⟨_, .cons h21 (.single 1)⟩
  · exact ⟨_, .cons h31 (.single 1)⟩

/-- A `SelfCall` has two ways on and is no branch; a branch after a `return` is one that the entry does not reach. -/
theorem dependence_without_control :
    ((∀ n < 3, ∃ l, Path (FlowIn (graphOf selfCall) 0 3) n 1 l) ∧ Dependent (FlowIn (graphOf selfCall) 0 3) 1 2 0 ∧
        (⟨2, 0, .control⟩ : Edge) ∉ (graphOf selfCall).edges) ∧
      (∀ n < 5, ∃ l, Path (FlowIn (graphOf ifAfterReturn) 0 5) n 1 l) ∧
        Dependent (FlowIn (graphOf ifAfterReturn) 0 5) 1 3 4 ∧
        (⟨3, 4, .control⟩ : Edge) ∉ (graphOf ifAfterReturn).edges := by
  constructor
  · have h02 : FlowIn (graphOf selfCall) 0 3 0 2 := ⟨by omega, by omega, .next, by decide, by decide⟩
    have h20 : FlowIn (graphOf selfCall) 0 3 2 0 := ⟨by omega, by omega, .jump, by decide, by decide⟩
    have h21 : FlowIn (graphOf selfCall) 0 3 2 1 := ⟨by omega, by omega, .exit, by decide, by decide⟩
    have hout : Path (FlowIn (graphOf selfCall) 0 3) 2 1 [2, 1] := .cons h21 (.single 1)
    refine ⟨fun n hn => ?_, ⟨0, h20, postDom_refl 0, fun h => absurd (h.1 _ hout) (by decide)⟩, by decide⟩
    interval_cases n
    · exact ⟨_, .cons h02 hout⟩
    · exact ⟨_, .single 1⟩
    · exact ⟨_, hout⟩
  · have h02 : FlowIn (graphOf ifAfterReturn) 0 5 0 2 := ⟨by omega, by omega, .next, by decide, by decide⟩
    have h21 : FlowIn (graphOf ifAfterReturn) 0 5 2 1 := ⟨by omega, by omega, .exit, by decide, by decide⟩
    have h31 : FlowIn (graphOf ifAfterReturn) 0 5 3 1 := ⟨by omega, by omega, .exit, by decide, by decide⟩
    have h34 : FlowIn (graphOf ifAfterReturn) 0 5 3 4 := ⟨by omega, by omega, .arm, by decide, by decide⟩
    have h41 : FlowIn (graphOf ifAfterReturn) 0 5 4 1 := ⟨by omega, by omega, .exit, by decide, by decide⟩
    have hout : Path (FlowIn (graphOf ifAfterReturn) 0 5) 3 1 [3, 1] := .cons h31 (.single 1)
    refine ⟨fun n hn => ?_, ⟨4, h34, postDom_refl 4, fun h => absurd (h.1 _ hout) (by decide)⟩, by decide⟩
    interval_cases n
    · exact ⟨_, .cons h02 (.cons h21 (.single 1))⟩
    · exact ⟨_, .single 1⟩
    · exact ⟨_, .cons h21 (.single 1)⟩
    · exact ⟨_, hout⟩
    · exact ⟨_, .cons h41 (.single 1)⟩

end HafleyScm.Cfg
