import HafleyRs.HafleyScm.CfgSpan
import HafleyRs.Lib.Dominators
import HafleyRs.Lib.Machine

/-!
# Control dependence of a callable

`control_dependence` climbs the table of immediate post-dominators from each successor of a branch. With a table
that holds them the climbs end, and it only adds `Control` edges out of branches and loops
(`controlDependence_adds`). Where every node reaches the exit and no edge loops on its node, the edges it adds are
the dependences on the branches and loops that the entry reaches (`mem_controlDependence`).
-/

namespace HafleyScm.Cfg
open Dominance

/-- `simple_fast` gives immediate dominators. -/
def ImmediateDominators (sf : SimpleFast) : Prop :=
  ∀ count edges root, Immediate (fun u v => (u, v) ∈ edges) root (sf count edges root)

/-- A `simple_fast` to run. -/
def simpleFast : SimpleFast := fun _ edges root => idom (fun v => (edges.filter (·.1 = v)).map (·.2)) root

theorem simpleFast_immediate : ImmediateDominators simpleFast := by
  intro count edges root
  have hedges : (fun u v : Fin count => (u, v) ∈ edges) = fun u v => v ∈ (edges.filter (·.1 = u)).map (·.2) := by
    funext u v
    refine propext ⟨fun h => List.mem_map.2 ⟨(u, v), by simpa using h, rfl⟩, fun h => ?_⟩
    obtain ⟨⟨u', v'⟩, hmem, rfl⟩ := List.mem_map.1 h
    obtain ⟨hedge, hu⟩ := List.mem_filter.1 hmem
    obtain rfl : u' = u := by simpa using hu
    exact hedge
  rw [hedges]
  exact idom_immediate _ root

section
variable (b : Build) (start count : Nat)

/-- An edge of the callable that is not a `Control` edge. -/
def FlowEdge (u v : Fin count) : Prop := (u, v) ∈ flowEdges b start count

theorem flowEdge_iff {u v : Fin count} :
    FlowEdge b start count u v ↔ ∃ kind, (⟨start + u, start + v, kind⟩ : Edge) ∈ b.edges ∧ kind ≠ .control := by
  rw [FlowEdge, flowEdges, List.mem_filterMap]
  constructor
  · rintro ⟨e, he, hsome⟩
    by_cases hin : (start ≤ e.src ∧ e.src < start + count) ∧ (start ≤ e.dst ∧ e.dst < start + count) ∧ e.kind ≠ .control
    · rw [dif_pos hin, Option.some.injEq, Prod.mk.injEq] at hsome
      obtain ⟨rfl, rfl⟩ := hsome
      refine ⟨e.kind, ?_, hin.2.2⟩
      have hsrc : start + (e.src - start) = e.src := by omega
      have hdst : start + (e.dst - start) = e.dst := by omega
      simpa only [hsrc, hdst] using he
    · rw [dif_neg hin] at hsome
      cases hsome
  · rintro ⟨kind, he, hkind⟩
    refine ⟨_, he, ?_⟩
    rw [dif_pos ⟨⟨by simp, by simp⟩, ⟨by simp, by simp⟩, hkind⟩]
    simp

theorem mem_successors {u v : Fin count} : v ∈ successors b start count u ↔ FlowEdge b start count u v := by
  rw [successors, List.mem_map]
  constructor
  · rintro ⟨⟨u', v'⟩, hmem, rfl⟩
    obtain ⟨hedge, hu⟩ := List.mem_filter.1 hmem
    obtain rfl : u' = u := by simpa using hu
    exact hedge
  · exact fun h => ⟨(u, v), List.mem_filter.2 ⟨h, by simp⟩, rfl⟩

variable {b start count} {x : Fin count} {ip : Fin count → Option (Fin count)}
  (h : Immediate (fun u v => FlowEdge b start count v u) x ip)
include h

theorem controlled_some (controller target : Fin count) : ∃ l, controlled count ip controller target = some l := by
  have hfuel : ∀ n, height (FlowEdge b start count) x n + 1 < count + 1 := by
    intro n
    have := height_lt_card (E := FlowEdge b start count) (x := x) n
    simpa using this
  obtain ⟨skip, hskip⟩ := reaches_some h target (hfuel controller)
  obtain ⟨l, hl⟩ := below_some h (ip controller) (hfuel target)
  cases skip
  · exact ⟨l, by simp [controlled, hskip, hl]⟩
  · exact ⟨[], by simp [controlled, hskip]⟩

/-- By way of one successor. -/
theorem mem_controlled (hout : ∀ n, ∃ l, Path (FlowEdge b start count) n x l) {controller target : Fin count}
    (hedge : FlowEdge b start count controller target) (hself : target ≠ controller) (hexit : controller ≠ x)
    {l : List (Fin count)} (hl : controlled count ip controller target = some l) {n : Fin count} :
    n ∈ l ↔ PostDom (FlowEdge b start count) x n target ∧ ¬ StrictPostDom (FlowEdge b start count) x n controller := by
  have hfuel : ∀ n, height (FlowEdge b start count) x n + 1 < count + 1 := by
    intro n
    have := height_lt_card (E := FlowEdge b start count) (x := x) n
    simpa using this
  have hskip : ∃ r, reaches ip target (count + 1) (some controller) = some r ∧
      (r = true ↔ PostDom (FlowEdge b start count) x target controller) :=
    reaches_spec h (hout controller) (hfuel controller)
  obtain ⟨skip, hskip, hiff⟩ := hskip
  obtain ⟨stop, hstop, hstrict, hmin⟩ := immediate_above h (hout controller) hexit
  obtain ⟨l', hl', hmem⟩ := below_spec h (hout target) (hfuel target) (hstrict.1.step hstrict.2 hedge)
  simp only [controlled, hskip, hstop, hl', Option.bind_some] at hl
  split_ifs at hl with hs
  · obtain rfl := Option.some.inj hl
    refine ⟨fun h => absurd h (List.not_mem_nil), fun h => absurd ?_ h.2⟩
    obtain ⟨hn, -⟩ := h
    exact not_dependent_of_postDom (hout target) hself (hiff.1 hs) hn
  · obtain rfl := Option.some.inj hl
    rw [hmem]
    exact dependent_iff_below (hout controller) hstrict hmin

/-- The dependences on one node. -/
theorem controlsOf_some (reachable : Finset (Fin count)) (controller : Fin count) :
    ∃ l, controlsOf b start count ip reachable controller = some l ∧
      ∀ c ∈ l, c.1 = controller ∧ isControl (b.kindOf (start + controller)) = true := by
  simp only [controlsOf]
  split_ifs with hkind
  · exact ⟨[], rfl, by simp⟩
  · rw [Machine.mapM_eq_some (g := fun target => (controlled count ip controller target).getD []) fun target _ => ?_]
    · refine ⟨_, rfl, fun c hc => ?_⟩
      obtain ⟨n, -, rfl⟩ := List.mem_map.1 hc
      exact ⟨rfl, hkind⟩
    · obtain ⟨l, hl⟩ := controlled_some h controller target
      rw [hl]
      rfl
  · exact ⟨[], rfl, by simp⟩

theorem mem_controlsOf (hout : ∀ n, ∃ l, Path (FlowEdge b start count) n x l)
    (hself : ∀ n, ¬ FlowEdge b start count n n) (hexit : isControl (b.kindOf (start + x)) = false)
    {reachable : Finset (Fin count)} (hclosed : ∀ n ∈ reachable, ∀ m, FlowEdge b start count n m → m ∈ reachable)
    {controller : Fin count} (hreach : controller ∈ reachable) {l : List (Fin count × Fin count)}
    (hl : controlsOf b start count ip reachable controller = some l) {n : Fin count} :
    (controller, n) ∈ l ↔
      isControl (b.kindOf (start + controller)) = true ∧ Dependent (FlowEdge b start count) x controller n := by
  simp only [controlsOf] at hl
  by_cases hkind : isControl (b.kindOf (start + controller)) = true
  · have hne : controller ≠ x := by
      rintro rfl
      rw [hexit] at hkind
      cases hkind
    have htargets : ∀ t, t ∈ (successors b start count controller).filter (· ∈ reachable) ↔
        FlowEdge b start count controller t := by
      intro t
      rw [List.mem_filter, mem_successors, decide_eq_true_eq]
      exact ⟨And.left, fun h => ⟨h, hclosed _ hreach _ h⟩⟩
    rw [if_pos hkind] at hl
    split_ifs at hl with hlen
    · -- one successor at most: it post-dominates
      obtain rfl := Option.some.inj hl
      refine ⟨fun h => absurd h List.not_mem_nil, fun ⟨_, t, ht, hpost, hnot⟩ => absurd ?_ hnot⟩
      refine not_dependent_of_postDom (hout t) (fun h => hself _ (h ▸ ht)) (postDom_of_only hne fun v hv => ?_) hpost
      have hv' := (htargets v).2 hv
      have ht' := (htargets t).2 ht
      rcases hl : (successors b start count controller).filter (· ∈ reachable) with _ | ⟨y, _ | ⟨z, zs⟩⟩
      · rw [hl] at hv'
        exact absurd hv' List.not_mem_nil
      · rw [hl, List.mem_singleton] at hv' ht'
        rw [hv', ht']
      · rw [hl] at hlen
        simp at hlen
    · have hall : ∀ t, ∃ l, controlled count ip controller t = some l := controlled_some h controller
      rw [Machine.mapM_eq_some (g := fun t => (controlled count ip controller t).getD []) fun t _ => ?_] at hl
      · obtain rfl := Option.some.inj hl
        simp only [List.mem_map, List.mem_flatten, Prod.mk.injEq, true_and, exists_eq_right, hkind, Dependent]
        constructor
        · rintro ⟨-, ⟨t, ht, rfl⟩, hn⟩
          obtain ⟨l, hl⟩ := hall t
          rw [hl, Option.getD_some] at hn
          have hedge := (htargets t).1 ht
          exact ⟨t, hedge, (mem_controlled h hout hedge (fun h => hself _ (h ▸ hedge)) hne hl).1 hn⟩
        · rintro ⟨t, hedge, hn⟩
          obtain ⟨l, hl⟩ := hall t
          refine ⟨_, ⟨t, (htargets t).2 hedge, rfl⟩, ?_⟩
          rw [hl, Option.getD_some]
          exact (mem_controlled h hout hedge (fun h => hself _ (h ▸ hedge)) hne hl).2 hn
      · obtain ⟨l, hl⟩ := hall t
        rw [hl]
        rfl
  · rw [if_neg hkind] at hl
    obtain rfl := Option.some.inj hl
    simp [hkind]

end

/-! ## The callable -/

theorem foldl_control {count : Nat} (b : Build) (entry : Nat) (cs : List (Fin count × Fin count)) :
    ∃ es, cs.foldl (fun b e => b.edge (e.1 + entry) (e.2 + entry) .control) b = { b with edges := es } ∧
      ∀ e, e ∈ es ↔ e ∈ b.edges ∨ ∃ c ∈ cs, e = ⟨c.1 + entry, c.2 + entry, .control⟩ := by
  induction cs generalizing b with
  | nil => exact ⟨b.edges, rfl, by simp⟩
  | cons c cs ih =>
    obtain ⟨es₁, he₁, hmem₁⟩ := b.edge_eq (c.1 + entry) (c.2 + entry) .control
    obtain ⟨es, he, hmem⟩ := ih { b with edges := es₁ }
    refine ⟨es, by rw [List.foldl_cons, he₁, he], fun e => (hmem e).trans ?_⟩
    rw [hmem₁]
    simp [or_assoc]

/-- What `control_dependence` adds: nothing, or for each node that the entry reaches its dependences. -/
theorem controlDependence_cases {sf : SimpleFast} (hsf : ImmediateDominators sf) (b : Build) (entry exit : Nat) :
    ∃ es, controlDependence sf b entry exit = some { b with edges := es } ∧
      ((es = b.edges ∧ ((∀ n, entry ≤ n → n < b.nodes.length → isControl (b.kindOf n) = false) ∨
          ¬ (0 < b.nodes.length - entry ∧ exit - entry < b.nodes.length - entry) ∨
          ∃ h : 0 < b.nodes.length - entry ∧ exit - entry < b.nodes.length - entry,
            ¬ Worklist.Reaches (successors b entry _) ⟨0, h.1⟩ ⟨exit - entry, h.2⟩)) ∨
        ∃ h : 0 < b.nodes.length - entry ∧ exit - entry < b.nodes.length - entry, ∃ reachable : Finset (Fin _),
          (∀ n, n ∈ reachable ↔ Worklist.Reaches (successors b entry (b.nodes.length - entry)) ⟨0, h.1⟩ n) ∧
          ∃ ip, Immediate (fun u v => FlowEdge b entry _ v u) ⟨exit - entry, h.2⟩ ip ∧
            ∀ e, e ∈ es ↔ e ∈ b.edges ∨ ∃ controller ∈ reachable, ∃ l,
              controlsOf b entry _ ip reachable controller = some l ∧
                ∃ c ∈ l, e = ⟨c.1 + entry, c.2 + entry, .control⟩) := by
  simp only [controlDependence]
  split_ifs with hany hcount
  · refine ⟨b.edges, rfl, .inl ⟨rfl, .inl fun n hn hlt => ?_⟩⟩
    have hnone : ¬ ((List.range (b.nodes.length - entry)).any fun n => isControl (b.kindOf (entry + n))) = true := by
      simpa using hany
    by_contra hc
    refine hnone (List.any_eq_true.2 ⟨n - entry, List.mem_range.2 (by omega), ?_⟩)
    rw [show entry + (n - entry) = n by omega]
    simpa using hc
  · have hfuel : Fintype.card (Fin (b.nodes.length - entry)) < b.nodes.length - entry + 1 := by simp
    obtain ⟨reachable, hsearch, hreach⟩ := Worklist.search_eq (successors b entry _) ⟨0, hcount.1⟩ hfuel
    rw [hsearch, Option.bind_some]
    split_ifs with hexit
    · have hswap : (fun u v => (u, v) ∈ (flowEdges b entry (b.nodes.length - entry)).map fun e => (e.2, e.1)) =
          fun u v => FlowEdge b entry _ v u := by
        funext u v
        simp [FlowEdge]
      have hip := hsf (b.nodes.length - entry)
        ((flowEdges b entry (b.nodes.length - entry)).map fun e => (e.2, e.1)) ⟨exit - entry, hcount.2⟩
      rw [hswap] at hip
      have hall := controlsOf_some hip reachable
      rw [Machine.mapM_eq_some (g := fun n => (controlsOf b entry _ _ reachable n).getD []) fun n _ => ?_]
      · obtain ⟨es, he, hmem⟩ := foldl_control b entry
          ((((List.finRange _).filter (· ∈ reachable)).map fun n =>
            (controlsOf b entry _ (sf _ _ ⟨exit - entry, hcount.2⟩) reachable n).getD []).flatten)
        refine ⟨es, by rw [Option.map_some, he], .inr ⟨hcount, reachable, hreach, _, hip, fun e => (hmem e).trans ?_⟩⟩
        refine or_congr_right ⟨?_, ?_⟩
        · rintro ⟨c, hc, rfl⟩
          obtain ⟨l, hl, hcl⟩ := List.mem_flatten.1 hc
          obtain ⟨n, hn, rfl⟩ := List.mem_map.1 hl
          obtain ⟨l, hl, -⟩ := hall n
          rw [hl, Option.getD_some] at hcl
          exact ⟨n, by simpa using (List.mem_filter.1 hn).2, l, hl, c, hcl, rfl⟩
        · rintro ⟨n, hn, l, hl, c, hcl, rfl⟩
          refine ⟨c, List.mem_flatten.2 ⟨l, List.mem_map.2 ⟨n, ?_, ?_⟩, hcl⟩, rfl⟩
          · exact List.mem_filter.2 ⟨List.mem_finRange n, by simpa using hn⟩
          · rw [hl]
            rfl
      · obtain ⟨l, hl, -⟩ := hall n
        rw [hl]
        rfl
    · exact ⟨b.edges, rfl, .inl ⟨rfl, .inr (.inr ⟨hcount, fun h => hexit ((hreach _).2 h)⟩)⟩⟩
  · exact ⟨b.edges, rfl, .inl ⟨rfl, .inr (.inl hcount)⟩⟩

/-- **It ends, and only adds `Control` edges** within the callable, out of branches and loops. -/
theorem controlDependence_adds {sf : SimpleFast} (hsf : ImmediateDominators sf) (b : Build) (entry exit : Nat) :
    ∃ es, controlDependence sf b entry exit = some { b with edges := es } ∧ b.edges ⊆ es ∧
      ∀ e ∈ es, e ∈ b.edges ∨ (e.kind = .control ∧ isControl (b.kindOf e.src) = true ∧
        (entry ≤ e.src ∧ e.src < b.nodes.length) ∧ entry ≤ e.dst ∧ e.dst < b.nodes.length) := by
  obtain ⟨es, he, ⟨rfl, -⟩ | ⟨h, reachable, -, ip, hip, hmem⟩⟩ := controlDependence_cases hsf b entry exit
  · exact ⟨b.edges, he, List.Subset.refl _, fun _ h => .inl h⟩
  · refine ⟨es, he, fun e h => (hmem e).2 (.inl h), fun e h => ((hmem e).1 h).imp_right ?_⟩
    rintro ⟨n, -, l, hl, c, hc, rfl⟩
    obtain ⟨l', hl', hspec⟩ := controlsOf_some hip reachable n
    obtain rfl : l' = l := Option.some.inj (hl'.symm.trans hl)
    obtain ⟨rfl, hkind⟩ := hspec c hc
    have h₁ := c.1.isLt
    have h₂ := c.2.isLt
    rw [Nat.add_comm] at hkind
    exact ⟨rfl, hkind, ⟨by simp, by simp only; omega⟩, by simp, by simp only; omega⟩

/-- **What it adds** where every node reaches the exit. -/
theorem mem_controlDependence {sf : SimpleFast} (hsf : ImmediateDominators sf) {b b' : Build} {entry exit : Nat}
    (hentry : entry < b.nodes.length) (hexit : exit - entry < b.nodes.length - entry) (hle : entry ≤ exit)
    (hkind : isControl (b.kindOf exit) = false)
    (hout : ∀ n, ∃ l, Path (FlowEdge b entry (b.nodes.length - entry)) n ⟨exit - entry, hexit⟩ l)
    (hself : ∀ n, ¬ FlowEdge b entry (b.nodes.length - entry) n n) (h : controlDependence sf b entry exit = some b')
    (c n : Fin (b.nodes.length - entry)) :
    (⟨entry + c, entry + n, .control⟩ : Edge) ∈ b'.edges ↔
      (⟨entry + c, entry + n, .control⟩ : Edge) ∈ b.edges ∨
      (isControl (b.kindOf (entry + c)) = true ∧
        (∃ l, Path (FlowEdge b entry (b.nodes.length - entry)) ⟨0, by omega⟩ c l) ∧
        Dependent (FlowEdge b entry (b.nodes.length - entry)) ⟨exit - entry, hexit⟩ c n) := by
  have hways : ∀ (u v : Fin (b.nodes.length - entry)),
      Worklist.Reaches (successors b entry _) u v ↔ ∃ l, Path (FlowEdge b entry (b.nodes.length - entry)) u v l := by
    intro u v
    rw [← exists_path_iff]
    simp only [mem_successors]
  obtain ⟨es, he, ⟨rfl, hnone⟩ | ⟨hcount, reachable, hreach, ip, hip, hmem⟩⟩ :=
    controlDependence_cases hsf b entry exit
  · obtain rfl := Option.some.inj (he.symm.trans h)
    refine ⟨.inl, fun hd => hd.elim id fun ⟨hc, _⟩ => ?_⟩
    rcases hnone with hnone | hnone | ⟨hcount, hnone⟩
    · rw [hnone _ (Nat.le_add_right ..) (by omega)] at hc
      cases hc
    · exact absurd ⟨by omega, hexit⟩ hnone
    · exact absurd ((hways _ _).2 (hout _)) hnone
  · obtain rfl := Option.some.inj (he.symm.trans h)
    have hexit' : isControl (b.kindOf (entry + (⟨exit - entry, hexit⟩ : Fin (b.nodes.length - entry)))) = false := by
      rw [show entry + (exit - entry) = exit by omega]
      exact hkind
    have hclosed : ∀ u ∈ reachable, ∀ v, FlowEdge b entry (b.nodes.length - entry) u v → v ∈ reachable :=
      fun u hu v huv => (hreach v).2 (((hreach u).1 hu).tail ((mem_successors ..).2 huv))
    refine (hmem _).trans (or_congr_right ⟨?_, ?_⟩)
    · rintro ⟨u, hu, l, hl, d, hd, heq⟩
      obtain ⟨l', hl', hspec⟩ := controlsOf_some hip reachable u
      obtain rfl : l' = l := Option.some.inj (hl'.symm.trans hl)
      obtain ⟨rfl, -⟩ := hspec d hd
      simp only [Edge.mk.injEq, and_true] at heq
      obtain rfl : c = d.1 := Fin.ext (by omega)
      obtain rfl : n = d.2 := Fin.ext (by omega)
      have := (mem_controlsOf hip hout hself hexit' hclosed hu hl).1 hd
      exact ⟨this.1, (hways _ _).1 ((hreach _).1 hu), this.2⟩
    · rintro ⟨hc, hpath, hdep⟩
      have hu := (hreach c).2 ((hways _ _).2 hpath)
      obtain ⟨l, hl, -⟩ := controlsOf_some hip reachable c
      refine ⟨c, hu, l, hl, (c, n), (mem_controlsOf hip hout hself hexit' hclosed hu hl).2 ⟨hc, hdep⟩, ?_⟩
      simp only [Nat.add_comm]

end HafleyScm.Cfg
