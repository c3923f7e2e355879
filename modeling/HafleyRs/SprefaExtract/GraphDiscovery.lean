import HafleyRs.SprefaExtract.Graph

/-!
# The rows of `first_discovery` (`crates/sprefa-extract/src/0_graph.rs:298`)

One row for each node that a walk of 1 to `REACH_DEPTH_CAP` edges reaches, with what there is to tell about
it: a least witness among the shortest, its start and its last edge. When no two edges share a row id the
witness is one walk, so what a row tells does not depend on how the edges are listed; `via` is a position in
that list and is read as the edge there.
-/

namespace SprefaExtract
open LeastWalk

structure FirstDiscoveries (edges : List PlaneEdge) (S : Set Node) (rows : List Found) : Prop where
  once       : (rows.map Found.node).Nodup
  sorted     : rows.Pairwise fun a b => a.key ≤ b.key
  reached    : ∀ v, (∃ f ∈ rows, f.node = v) ↔
    ∃ n, 1 ≤ n ∧ n ≤ reachDepthCap ∧ Reaches PlaneEdge.src PlaneEdge.dst edges S n v
  discovered : ∀ f ∈ rows, Discovered edges S f

/-- What a row says, with the edge that `via` points at. -/
def Found.told (edges : List PlaneEdge) (f : Found) : Found × Option PlaneEdge :=
  ({ f with via := 0 }, edges[f.via]?)

theorem firstDiscovery_spec (edges : List PlaneEdge) (starts : BTreeSet Node) {expired : Nat → Node → Bool}
    (hopen : ∀ d n, expired d n = false) : ∃ rows, firstDiscovery edges starts expired = .ok rows ∧
      FirstDiscoveries edges {u | u ∈ starts} rows := by
  obtain ⟨found, hrun, hsound, hcomplete⟩ :=
    levels_found hopen reachDepthCap (Inv.init edges starts) (Nat.le_refl 1)
  have hmem : ∀ f, f ∈ (found.toList.map Prod.snd).insertionSort (fun a b => a.key ≤ b.key) ↔
      found[f.node]? = some f := by
    intro f
    rw [List.mem_insertionSort, List.mem_map]
    constructor
    · rintro ⟨⟨v, g⟩, hg, rfl⟩
      rw [BTreeMap.mem_toList] at hg
      rw [(hsound v g hg).1, hg]
    · intro hf
      exact ⟨(f.node, f), BTreeMap.mem_toList.2 hf, rfl⟩
  refine ⟨_, by rw [firstDiscovery, hrun], ?_, sortByKey_pairwise Found.key _, fun v => ?_, fun f hf => ?_⟩
  · have hnodes : (found.toList.map Prod.snd).map Found.node = found.toList.map Prod.fst := by
      rw [List.map_map]
      exact List.map_congr_left fun e he => (hsound e.1 e.2 (BTreeMap.mem_toList.1 he)).1
    refine ((List.perm_insertionSort _ _).map Found.node).nodup_iff.2 ?_
    rw [hnodes]
    exact List.pairwise_map.2 ((BTreeMap.toList_sorted found).imp fun h => h.ne)
  · constructor
    · rintro ⟨f, hf, rfl⟩
      obtain ⟨-, hlt, hd⟩ := hsound _ f ((hmem f).1 hf)
      exact ⟨f.depth, hd.first.pos, by omega, hd.first.reaches⟩
    · rintro ⟨n, hn, hcap, hr⟩
      obtain ⟨k, hk, hfirst⟩ := exists_first hn hr
      have hc := hcomplete v k (by omega) hfirst
      rw [Std.ExtTreeMap.contains_eq_isSome_getElem?] at hc
      obtain ⟨f, hf⟩ := Option.isSome_iff_exists.1 hc
      obtain ⟨rfl, -, -⟩ := hsound v f hf
      exact ⟨f, (hmem f).2 hf, rfl⟩
  · exact (hsound _ f ((hmem f).1 hf)).2.2

theorem eq_of_map_eq {A B : Type} {f : A → B} {l m : List A} (hinj : ∀ a ∈ l, ∀ b ∈ m, f a = f b → a = b)
    (h : l.map f = m.map f) : l = m := by
  induction l generalizing m with
  | nil => exact (List.map_eq_nil_iff.1 h.symm).symm
  | cons a l ih =>
    cases m with
    | nil => simp at h
    | cons b m =>
      obtain ⟨hab, h⟩ := List.cons.inj h
      rw [hinj a (by simp) b (by simp) hab, ih (fun a ha b hb => hinj a (by simp [ha]) b (by simp [hb])) h]

/-- What is told of a node is settled by the edges, when their row ids are distinct. -/
theorem told_eq {edges edges' : List PlaneEdge} {S : Set Node} (hrows : (edges.map PlaneEdge.row).Nodup)
    (hmem : ∀ e, e ∈ edges ↔ e ∈ edges') {f f' : Found} (h : Discovered edges S f) (h' : Discovered edges' S f')
    (hnode : f.node = f'.node) : f.told edges = f'.told edges' := by
  obtain ⟨hfirst, es, e, hleast, hlen, hwit, hvia⟩ := h
  obtain ⟨hfirst', es', e', hleast', hlen', hwit', hvia'⟩ := h'
  have hleast' := hleast'.congr fun e => (hmem e).symm
  rw [← hnode] at hleast' hfirst'
  have hdepth : f.depth = f'.depth := hfirst.unique (hfirst'.congr fun e => (hmem e).symm)
  have hlabels := hleast.labels_eq hleast' (hlen.trans (hdepth.trans hlen'.symm))
  -- the rows name the edges
  have hwalk : es ++ [e] = es' ++ [e'] := by
    refine eq_of_map_eq (fun a ha b hb hab => ?_) hlabels
    exact List.inj_on_of_nodup_map hrows (hleast.walk.mem a ha) (hleast'.walk.mem b hb) hab
  have horigin : f.origin = f'.origin := by
    have hw := hleast.walk
    have hw' := hleast'.walk
    rw [← hwalk] at hw'
    cases hfs : es ++ [e] with
    | nil => simp at hfs
    | cons a fs =>
      rw [hfs] at hw hw'
      exact hw.start.symm.trans hw'.start
  obtain ⟨-, hlast⟩ := List.append_inj' hwalk rfl
  cases hlast
  obtain ⟨o, n, d, w, v⟩ := f
  obtain ⟨o', n', d', w', v'⟩ := f'
  simp only [Found.told, Prod.mk.injEq, Found.mk.injEq, and_true]
  exact ⟨⟨horigin, hnode, hdepth, hwit.trans (hlabels.trans hwit'.symm)⟩, hvia.trans hvia'.symm⟩

theorem FirstDiscoveries.told {edges edges' : List PlaneEdge} {S : Set Node} {rows rows' : List Found}
    (hrows : (edges.map PlaneEdge.row).Nodup) (hperm : edges.Perm edges') (h : FirstDiscoveries edges S rows)
    (h' : FirstDiscoveries edges' S rows') : rows'.map (Found.told edges') = rows.map (Found.told edges) := by
  have hmem : ∀ e, e ∈ edges ↔ e ∈ edges' := fun e => hperm.mem_iff
  have hpair : ∀ {edges : List PlaneEdge} {rows : List Found}, FirstDiscoveries edges S rows →
      (rows.map (Found.told edges)).Pairwise fun a b => a.1.key ≤ b.1.key := fun h => List.pairwise_map.2 h.sorted
  have hnodup : ∀ {edges : List PlaneEdge} {rows : List Found}, FirstDiscoveries edges S rows →
      (rows.map (Found.told edges)).Nodup := by
    intro edges rows h
    refine List.Nodup.of_map (fun t : Found × Option PlaneEdge => t.1.node) ?_
    rw [List.map_map]
    exact h.once
  have hsub : ∀ t, t ∈ rows'.map (Found.told edges') ↔ t ∈ rows.map (Found.told edges) := by
    have hreach : ∀ v, (∃ f ∈ rows, f.node = v) ↔ ∃ f ∈ rows', f.node = v := by
      intro v
      rw [h.reached, h'.reached]
      constructor
      · rintro ⟨n, h1, h2, hr⟩
        exact ⟨n, h1, h2, hr.mono fun e => (hmem e).1⟩
      · rintro ⟨n, h1, h2, hr⟩
        exact ⟨n, h1, h2, hr.mono fun e => (hmem e).2⟩
    intro t
    constructor
    · intro ht
      obtain ⟨f', hf', rfl⟩ := List.mem_map.1 ht
      obtain ⟨f, hf, hnode⟩ := (hreach f'.node).2 ⟨f', hf', rfl⟩
      exact List.mem_map.2 ⟨f, hf, told_eq hrows hmem (h.discovered f hf) (h'.discovered f' hf') hnode⟩
    · intro ht
      obtain ⟨f, hf, rfl⟩ := List.mem_map.1 ht
      obtain ⟨f', hf', hnode⟩ := (hreach f.node).1 ⟨f, hf, rfl⟩
      exact List.mem_map.2 ⟨f', hf', (told_eq hrows hmem (h.discovered f hf) (h'.discovered f' hf') hnode.symm).symm⟩
  refine eq_of_sortedByKey (fun t : Found × Option PlaneEdge => t.1.key) ?_ (hpair h') (hpair h)
    ((List.perm_ext_iff_of_nodup (hnodup h') (hnodup h)).2 hsub)
  intro a ha b hb hab
  -- one node, one row
  have hnode : a.1.node = b.1.node := congrArg (fun k => (ofLex k).2) hab
  obtain ⟨f, hf, rfl⟩ := List.mem_map.1 ((hsub a).1 ha)
  obtain ⟨g, hg, rfl⟩ := List.mem_map.1 hb
  rw [List.inj_on_of_nodup_map h.once hf hg hnode]

/-- **`first_discovery` (0_graph.rs:298)**: with distinct row ids and no deadline passed it gives one row for
each node in reach, with the least depth and the least witness of that length, however the edges are listed. -/
theorem firstDiscovery_exact (edges : List PlaneEdge) (starts : BTreeSet Node) (expired : Nat → Node → Bool)
    (hrows : (edges.map PlaneEdge.row).Nodup) (hopen : ∀ d n, expired d n = false) :
    ∃ rows, firstDiscovery edges starts expired = .ok rows ∧ FirstDiscoveries edges {u | u ∈ starts} rows ∧
      ∀ edges', edges.Perm edges' → ∃ rows', firstDiscovery edges' starts expired = .ok rows' ∧
        rows'.map (Found.told edges') = rows.map (Found.told edges) := by
  obtain ⟨rows, hrun, hspec⟩ := firstDiscovery_spec edges starts hopen
  refine ⟨rows, hrun, hspec, fun edges' hperm => ?_⟩
  obtain ⟨rows', hrun', hspec'⟩ := firstDiscovery_spec edges' starts hopen
  exact ⟨rows', hrun', FirstDiscoveries.told hrows hperm hspec hspec'⟩

/-- Two routes of one length. -/
def twoRoutes : List PlaneEdge :=
  let edge := fun row (src dst : String) => (⟨row, toLex ("f", ↑src), toLex ("f", ↑dst), "~", none⟩ : PlaneEdge)
  [edge 9 "a" "x", edge 2 "a" "y", edge 7 "x" "z", edge 3 "y" "z"]

def routeStart : BTreeSet Node := (∅ : BTreeSet Node).insert (toLex ("f", ↑"a"))

theorem firstDiscovery_twoRoutes : ∃ rows, firstDiscovery twoRoutes routeStart (fun _ _ => false) = .ok rows ∧
    FirstDiscoveries twoRoutes {u | u ∈ routeStart} rows ∧
      ∀ edges', twoRoutes.Perm edges' → ∃ rows', firstDiscovery edges' routeStart (fun _ _ => false) = .ok rows' ∧
        rows'.map (Found.told edges') = rows.map (Found.told twoRoutes) :=
  firstDiscovery_exact twoRoutes routeStart (fun _ _ => false) (by decide) fun _ _ => rfl

end SprefaExtract
