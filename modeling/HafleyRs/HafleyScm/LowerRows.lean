import HafleyRs.HafleyScm.Lower

/-!
# What the joins of a relation test

Every table a relation joins has at most one row for given columns, because a file and a number name one node
(`Store.row_of_key`). A join is therefore one test on that row (`Once`). The tests read back as facts about the
two nodes: intervals are subtrees (`ancestor_once`, `descendant_once`), the `sib` column is the place among the
named siblings (`namedIndex_eq`), and a stop level matches between the two nodes in the store exactly if it does
in the tree (`stop_free`).
-/

namespace HafleyScm.Lower
open Preorder Preorder.Tree

/-! ## The rows of a store -/

section
variable {s : Store} {file : Nat} {t : Cst}

theorem Store.mem_nodes {x : NodeRow} :
    x ∈ s.nodes ↔ ∃ file t, (file, t) ∈ s.files ∧ ∃ p u, t.sub p = some u ∧ x = Cst.row file t p := by
  simp only [Store.nodes, List.mem_flatMap, List.mem_map, mem_paths, Prod.exists]
  constructor
  · rintro ⟨f, t, hf, p, ⟨u, hu⟩, rfl⟩
    exact ⟨f, t, hf, p, u, hu, rfl⟩
  · rintro ⟨f, t, hf, p, u, hu, rfl⟩
    exact ⟨f, t, hf, p, ⟨u, hu⟩, rfl⟩

theorem Store.tree_unique {t' : Cst} (hf : (file, t) ∈ s.files) (hf' : (file, t') ∈ s.files) : t = t' := by
  have h := List.inj_on_of_nodup_map s.once hf hf' rfl
  exact (Prod.mk.inj h).2

/-- The rows of one file are the nodes of its tree. -/
theorem Store.mem_file (hf : (file, t) ∈ s.files) {x : NodeRow} :
    x ∈ s.nodes ∧ x.file = file ↔ ∃ p u, t.sub p = some u ∧ x = Cst.row file t p := by
  rw [Store.mem_nodes]
  constructor
  · rintro ⟨⟨f, t', hf', p, u, hu, rfl⟩, rfl⟩
    obtain rfl := tree_unique hf hf'
    exact ⟨p, u, hu, rfl⟩
  · rintro ⟨p, u, hu, rfl⟩
    exact ⟨⟨file, t, hf, p, u, hu, rfl⟩, rfl⟩

theorem Store.row_mem (hf : (file, t) ∈ s.files) {p : Path} {u : Cst} (hp : t.sub p = some u) :
    Cst.row file t p ∈ s.nodes := ((Store.mem_file hf).2 ⟨p, u, hp, rfl⟩).1

/-- A file and a number name one row. -/
theorem Store.row_of_key (hf : (file, t) ∈ s.files) {p : Path} {u : Cst} (hp : t.sub p = some u) {x : NodeRow}
    (hx : x ∈ s.nodes) (hfile : x.file = file) (hpre : x.pre = t.pre p) : x = Cst.row file t p := by
  obtain ⟨q, v, hq, rfl⟩ := (Store.mem_file hf).1 ⟨hx, hfile⟩
  rw [pre_inj hq hp hpre]

theorem Store.nodes_nodup (s : Store) : s.nodes.Nodup := by
  have hfiles : s.files.Pairwise fun a b => a.1 ≠ b.1 := List.pairwise_map.1 s.once
  refine List.nodup_flatMap.2 ⟨fun f hf => ?_, hfiles.imp fun hne => ?_⟩
  · refine (paths_nodup f.2).map_on fun p hp q hq h => ?_
    obtain ⟨u, hu⟩ := mem_paths.1 hp
    obtain ⟨v, hv⟩ := mem_paths.1 hq
    exact pre_inj hu hv (congrArg NodeRow.pre h)
  · rw [Function.onFun, List.disjoint_left]
    rintro x hx hy
    obtain ⟨p, -, rfl⟩ := List.mem_map.1 hx
    obtain ⟨q, -, h⟩ := List.mem_map.1 hy
    exact hne (congrArg NodeRow.file h).symm

end

/-! ## A join that meets at most one row -/

/-- The join has one row when `c` holds and none otherwise. -/
def Once {α : Type} (rows : List α) (c : Prop) : Prop := (c → ∃ x, rows = [x]) ∧ (¬ c → rows = [])

namespace Once
variable {α β : Type} {rows : List α} {c d : Prop}

theorem congr (h : Once rows c) (hcd : c ↔ d) : Once rows d := ⟨fun hd => h.1 (hcd.2 hd), fun hd => h.2 (mt hcd.1 hd)⟩

theorem single (x : α) : Once [x] True := ⟨fun _ => ⟨x, rfl⟩, fun h => absurd trivial h⟩

theorem nil (h : ¬ c) : Once ([] : List α) c := ⟨fun hc => absurd hc h, fun _ => rfl⟩

/-- A table filtered down to the one row it can leave. -/
theorem filter {l : List α} (hl : l.Nodup) {P : α → Bool} {x : α} (hx : x ∈ l) (hP : ∀ y ∈ l, P y = true → y = x)
    {f : α → List β} (hf : P x = true → Once (f x) c) : Once ((l.filter P).flatMap f) (P x = true ∧ c) := by
  cases hpx : P x with
  | false =>
    have hnil : l.filter P = [] := by
      rw [List.filter_eq_nil_iff]
      intro y hy hpy
      rw [hP y hy hpy, hpx] at hpy
      cases hpy
    rw [hnil]
    exact nil (by simp)
  | true =>
    have hone : l.filter P = [x] := by
      refine List.perm_singleton.1 ((List.perm_ext_iff_of_nodup (hl.filter P) (List.nodup_singleton x)).2 fun y => ?_)
      rw [List.mem_filter, List.mem_singleton]
      constructor
      · rintro ⟨hy, hpy⟩
        exact hP y hy hpy
      · rintro rfl
        exact ⟨hx, hpx⟩
    rw [hone, List.flatMap_singleton]
    exact (hf hpx).congr (by simp)

theorem filter_map {l : List α} (hl : l.Nodup) {P : α → Bool} {x : α} (hx : x ∈ l)
    (hP : ∀ y ∈ l, P y = true → y = x) (f : α → β) : Once ((l.filter P).map f) (P x = true) := by
  rw [List.map_eq_flatMap]
  exact (filter hl hx hP fun _ => single (f x)).congr (by simp)

end Once

/-! ## The columns of a row -/

section
variable {file : Nat} {t : Cst}

@[simp] theorem row_file (p : Path) : (Cst.row file t p).file = file := rfl
@[simp] theorem row_pre (p : Path) : (Cst.row file t p).pre = t.pre p := rfl
@[simp] theorem row_last (p : Path) : (Cst.row file t p).last = t.last p := rfl
@[simp] theorem row_sib (p : Path) : (Cst.row file t p).sib = Cst.sib t p := rfl
@[simp] theorem row_field (p : Path) : (Cst.row file t p).field = Cst.fieldOf t p := rfl

theorem sub_dropLast {p : Path} {u : Cst} (hp : t.sub p = some u) : ∃ v, t.sub p.dropLast = some v :=
  sub_of_prefix hp (List.dropLast_prefix p)

/-- The `parent` column names the node one step up. -/
theorem row_parent {p d : Path} {u v : Cst} (hp : t.sub p = some u) (hd : t.sub d = some v) :
    (Cst.row file t p).parent = (t.pre d : Int) ↔ p ≠ [] ∧ p.dropLast = d := by
  simp only [Cst.row]
  split
  · rename_i h
    simp [h]
  · rename_i h
    obtain ⟨w, hw⟩ := sub_dropLast hp
    constructor
    · intro he
      exact ⟨h, pre_inj hw hd (by omega)⟩
    · rintro ⟨-, rfl⟩
      rfl

theorem row_parent_concat (d : Path) (i : Nat) : (Cst.row file t (d ++ [i])).parent = t.pre d := by
  simp [Cst.row]

theorem sib_concat {d : Path} {u : Cst} (hd : t.sub d = some u) (i : Nat) :
    Cst.sib t (d ++ [i]) = Cst.namedIndex u i := by
  simp [Cst.sib, hd]

/-- The `sib` column is the place in the list of named children. -/
theorem namedIndex_eq {u : Cst} {i : Nat} {x : Int} :
    Cst.namedIndex u i = some x ↔ ∃ k : Nat, x = k ∧ (u.marked (·.named))[k]? = some i := by
  simp only [marked_getElem?, Cst.namedIndex, Option.ite_none_right_eq_some, Option.any_eq_true,
    Option.some.injEq]
  constructor
  · rintro ⟨hc, rfl⟩
    exact ⟨_, rfl, hc, rfl⟩
  · rintro ⟨k, rfl, hc, rfl⟩
    exact ⟨hc, rfl⟩

end

/-! ## A stop level -/

section
variable {s : Store} {file : Nat} {t : Cst}

/-- No stop matches between the two nodes in the store exactly if none does in the tree. -/
theorem stop_free (hf : (file, t) ∈ s.files) (r : Rel) {tie : CaptureRow → NodeRow → Bool} {P : Path → Prop}
    (htie : ∀ c q v, t.sub q = some v → c.node = t.pre q →
      (tie c (Cst.row file t q) = true ↔ c.file = file ∧ P q))
    (hfile : ∀ c x, tie c x = true → c.file = file) :
    (r.stop.all fun stop => !scope s.nodes stop tie) = true ↔
      ∀ q v, t.sub q = some v → P q → (r.stop.any (·.at file t q)) = false := by
  cases r.stop with
  | none => simp
  | some stop =>
    simp only [Option.all_some, Option.any_some, Bool.not_eq_true', ← Bool.not_eq_true, scope, Level.at,
      List.any_eq_true, Bool.and_eq_true, beq_iff_eq]
    constructor
    · rintro h q v hq hP ⟨c, hc, hcf, hcn⟩
      exact h ⟨c, hc, _, Store.row_mem hf hq, ⟨hcf.symm, hcn.symm⟩, (htie c q v hq hcn).2 ⟨hcf, hP⟩⟩
    · rintro h ⟨c, hc, x, hx, ⟨hxf, hxn⟩, ht⟩
      have hcf := hfile c x ht
      obtain ⟨q, v, hq, rfl⟩ := (Store.mem_file hf).1 ⟨hx, hxf.trans hcf⟩
      exact h q v hq ((htie c q v hq hxn.symm).1 ht).2 ⟨c, hc, hcf, hxn.symm⟩

end

/-! ## Each walk -/

section
variable {s : Store} {file : Nat} {t : Cst} (hf : (file, t) ∈ s.files) (r : Rel)
include hf

theorem edge_once {c : Path} {v : Cst} (hc : t.sub c = some v) {child : CaptureRow} (hfile : child.file = file)
    (hnode : child.node = t.pre c) (parent : CaptureRow) :
    Once (edgeRows s.nodes r.field child parent)
      ((Cst.row file t c).parent = parent.node ∧ r.field.all (Cst.fieldOf t c == ·) = true) := by
  refine (Once.filter_map s.nodes_nodup (Store.row_mem hf hc) (fun y hy hP => ?_) _).congr ?_
  · simp only [Bool.and_eq_true, beq_iff_eq] at hP
    exact Store.row_of_key hf hc hy (hP.1.1.1.trans hfile) (hP.1.1.2.trans hnode)
  · simp [hfile, hnode, fieldIs]

variable {p q : Path} {u v : Cst} (hp : t.sub p = some u) (hq : t.sub q = some v) {from' to' : CaptureRow}
  (hfrom : from'.file = file) (hpre : from'.node = t.pre p) (hto : to'.file = file) (hnode : to'.node = t.pre q)

/-- No stop strictly between the two nodes. -/
def Free (r : Rel) (file : Nat) (t : Cst) (a b : Path) : Prop :=
  ∀ s, a <+: s → s ≠ a → s <+: b → s ≠ b → r.stop.any (·.at file t s) = false

omit hf in
include hp hq in
theorem between_iff {s : Path} {w : Cst} (hs : t.sub s = some w) (hpq : p <+: q) :
    t.last s ≥ t.pre q ∧ t.pre s > t.pre p ∧ t.pre s < t.pre q ↔ p <+: s ∧ s ≠ p ∧ s <+: q ∧ s ≠ q := by
  have hs_q := pre_lt_iff hs hq
  have hp_s := pre_lt_iff hp hs
  constructor
  · rintro ⟨hlast, hlow, hhigh⟩
    obtain ⟨hsq, hne⟩ := hs_q.1 ⟨hhigh, hlast⟩
    rcases List.prefix_or_prefix_of_prefix hpq hsq with h | h
    · exact ⟨h, fun he => Nat.lt_irrefl _ (he ▸ hlow), hsq, hne⟩
    · have := (pre_interval hs hp).2 h
      omega
  · rintro ⟨hps, hne, hsq, hne'⟩
    obtain ⟨hhigh, hlast⟩ := hs_q.2 ⟨hsq, hne'⟩
    exact ⟨hlast, (hp_s.2 ⟨hps, hne.symm⟩).1, hhigh⟩

include hp hq hfrom hpre hto hnode

theorem ancestor_once :
    Once (ancestorRows s.nodes r from' to') ((q <+: p ∧ q ≠ p) ∧ Free r file t q p ∧
      r.field.all (Cst.fieldOf t (p.take (q.length + 1)) == ·) = true) := by
  have hstop : q <+: p →
      ((r.stop.all fun stop => !scope s.nodes stop fun root between =>
        between.last ≥ from'.node && root.file == from'.file && root.node > t.pre q && root.node < from'.node) = true ↔
        Free r file t q p) := by
    intro hqp
    rw [stop_free hf r (P := fun s => q <+: s ∧ s ≠ q ∧ s <+: p ∧ s ≠ p)]
    · exact ⟨fun h s h1 h2 h3 h4 => by
        obtain ⟨w, hw⟩ := sub_of_prefix hp h3
        exact h s w hw ⟨h1, h2, h3, h4⟩, fun h s _ _ hs => h s hs.1 hs.2.1 hs.2.2.1 hs.2.2.2⟩
    · intro c s w hs hc
      rw [← between_iff hq hp hs hqp]
      simp only [row_last, Bool.and_eq_true, decide_eq_true_eq, beq_iff_eq, hfrom, hpre, hc]
      tauto
    · intro c x h
      simp only [Bool.and_eq_true, beq_iff_eq] at h
      exact h.1.1.2.trans hfrom
  have hchild : q <+: p → q ≠ p → ∀ id, Once ((s.nodes.filter fun child => child.file == file &&
      child.parent == (t.pre q : Int) && child.pre ≤ from'.node && from'.node ≤ child.last && child.field == id).map
        ([Cst.row file t q, ·])) (Cst.fieldOf t (p.take (q.length + 1)) = id) := by
    intro hqp hne id
    obtain ⟨w, hw⟩ := sub_of_prefix hp (List.take_prefix (q.length + 1) p)
    have hlen : q.length < p.length := Nat.lt_of_le_of_ne hqp.length_le fun h => hne (hqp.eq_of_length h)
    have hup : p.take (q.length + 1) ≠ [] ∧ (p.take (q.length + 1)).dropLast = q := by
      have hmin : min (min (q.length + 1) p.length - 1) (q.length + 1) = q.length := by omega
      refine ⟨fun h => ?_, ?_⟩
      · have hlen' := congrArg List.length h
        rw [List.length_take, List.length_nil] at hlen'
        omega
      · rw [List.dropLast_eq_take, List.take_take, List.length_take, hmin]
        exact (List.prefix_iff_eq_take.1 hqp).symm
    refine (Once.filter_map s.nodes_nodup (Store.row_mem hf hw) (fun y hy hP => ?_) _).congr ?_
    · simp only [Bool.and_eq_true, beq_iff_eq, decide_eq_true_eq] at hP
      obtain ⟨⟨⟨⟨hyf, hyp⟩, hlow⟩, hhigh⟩, -⟩ := hP
      obtain ⟨c, x, hc, rfl⟩ := (Store.mem_file hf).1 ⟨hy, hyf⟩
      obtain ⟨hcne, hcq⟩ := (row_parent hc hq).1 hyp
      rw [hpre, row_pre] at hlow
      rw [hpre, row_last] at hhigh
      have hcp := (pre_interval hc hp).1 ⟨hlow, hhigh⟩
      have hclen : c.length = q.length + 1 := by
        have := List.length_pos_iff.2 hcne
        rw [← hcq, List.length_dropLast]
        omega
      rw [List.prefix_iff_eq_take.1 hcp, hclen]
    · have hin := (pre_interval hw hp).2 (List.take_prefix (q.length + 1) p)
      simp [(row_parent hw hq).2 hup, hpre, hin.1, hin.2]
  refine (Once.filter s.nodes_nodup (Store.row_mem hf hq)
    (c := r.field.all (Cst.fieldOf t (p.take (q.length + 1)) == ·) = true) (fun y hy hP => ?_)
    fun hP => ?_).congr ?_
  · simp only [Bool.and_eq_true, beq_iff_eq] at hP
    exact Store.row_of_key hf hq hy (hP.1.1.1.1.trans hto) (hP.1.1.1.2.trans hnode)
  · simp only [row_file, row_pre, row_last, Bool.and_eq_true, beq_iff_eq, decide_eq_true_eq, hpre, hnode] at hP
    obtain ⟨hqp, hne⟩ := (pre_lt_iff hq hp).1 ⟨hP.1.1.2, hP.1.2⟩
    cases hfield : r.field with
    | none => exact (Once.single _).congr (by simp)
    | some id => exact (hchild hqp hne id).congr (by simp)
  · rw [← and_assoc]
    refine and_congr_left fun _ => ?_
    simp only [Bool.and_eq_true, beq_iff_eq, decide_eq_true_eq]
    simp only [row_file, row_pre, row_last, hto, hnode, true_and]
    rw [← pre_lt_iff hq hp, ← hpre]
    refine and_congr_right fun hlt => ?_
    rw [hpre] at hlt
    exact hstop ((pre_lt_iff hq hp).1 hlt).1

theorem descendant_once :
    Once (descendantRows s.nodes r from' to') ((p <+: q ∧ p ≠ q) ∧ Free r file t p q ∧
      r.field.all (Cst.fieldOf t q == ·) = true) := by
  have hstop : p <+: q →
      ((r.stop.all fun stop => !scope s.nodes stop fun root between =>
        between.last ≥ to'.node && root.file == file && root.node > t.pre p && root.node < to'.node) = true ↔
        Free r file t p q) := by
    intro hpq
    rw [stop_free hf r (P := fun s => p <+: s ∧ s ≠ p ∧ s <+: q ∧ s ≠ q)]
    · exact ⟨fun h s h1 h2 h3 h4 => by
        obtain ⟨w, hw⟩ := sub_of_prefix hq h3
        exact h s w hw ⟨h1, h2, h3, h4⟩, fun h s _ _ hs => h s hs.1 hs.2.1 hs.2.2.1 hs.2.2.2⟩
    · intro c s w hs hc
      rw [← between_iff hp hq hs hpq]
      simp only [row_last, Bool.and_eq_true, decide_eq_true_eq, beq_iff_eq, hnode, hc]
      tauto
    · intro c x h
      simp only [Bool.and_eq_true, beq_iff_eq] at h
      exact h.1.1.2
  have hreached : ∀ id, Once ((s.nodes.filter fun reached => reached.file == to'.file && reached.pre == to'.node &&
      reached.field == id).map ([Cst.row file t p, ·])) (Cst.fieldOf t q = id) := by
    intro id
    refine (Once.filter_map s.nodes_nodup (Store.row_mem hf hq) (fun y hy hP => ?_) _).congr ?_
    · simp only [Bool.and_eq_true, beq_iff_eq] at hP
      exact Store.row_of_key hf hq hy (hP.1.1.trans hto) (hP.1.2.trans hnode)
    · simp [hto, hnode]
  refine (Once.filter s.nodes_nodup (Store.row_mem hf hp)
    (c := r.field.all (Cst.fieldOf t q == ·) = true) (fun y hy hP => ?_) fun _ => ?_).congr ?_
  · simp only [Bool.and_eq_true, beq_iff_eq] at hP
    exact Store.row_of_key hf hp hy (hP.1.1.1.1.trans hfrom) (hP.1.1.1.2.trans hpre)
  · cases hfield : r.field with
    | none => exact (Once.single _).congr (by simp)
    | some id => exact (hreached id).congr (by simp)
  · rw [← and_assoc]
    refine and_congr_left fun _ => ?_
    simp only [Bool.and_eq_true, beq_iff_eq, decide_eq_true_eq]
    simp only [row_file, row_pre, row_last, hfrom, hpre, true_and]
    rw [← pre_lt_iff hp hq, ← hnode]
    refine and_congr_right fun hlt => ?_
    rw [hnode] at hlt
    exact hstop ((pre_lt_iff hp hq).1 hlt).1

/-- What the two sibling rows are tested for. -/
theorem sibling_once :
    Once (siblingRows s.nodes r from' to')
      ((Cst.row file t q).parent = (Cst.row file t p).parent ∧
        siblingOrder r.walk r.neighbor (Cst.sib t p) (Cst.sib t q) = true ∧
        (∀ s w, t.sub s = some w → (Cst.row file t s).parent = (Cst.row file t p).parent ∧
          sqlLt (Cst.sib t (if r.walk = .precedes then p else q)) (Cst.sib t s) = true ∧
          sqlLt (Cst.sib t s) (Cst.sib t (if r.walk = .precedes then q else p)) = true →
          r.stop.any (·.at file t s) = false) ∧
        r.field.all (Cst.fieldOf t q == ·) = true) := by
  refine (Once.filter s.nodes_nodup (Store.row_mem hf hp) (fun y hy hP => ?_) fun _ =>
    Once.filter_map s.nodes_nodup (Store.row_mem hf hq) (fun y hy hP => ?_) _).congr ?_
  · simp only [Bool.and_eq_true, beq_iff_eq] at hP
    exact Store.row_of_key hf hp hy (hP.1.trans hfrom) (hP.2.trans hpre)
  · simp only [Bool.and_eq_true, beq_iff_eq] at hP
    exact Store.row_of_key hf hq hy (hP.1.1.1.1.1.trans hto) (hP.1.1.1.1.2.trans hnode)
  · simp only [Bool.and_eq_true, beq_iff_eq, row_file, row_pre, hfrom, hpre, hto, hnode, true_and, and_true]
    rw [stop_free hf r (P := fun s => (Cst.row file t s).parent = (Cst.row file t p).parent ∧
      sqlLt (Cst.sib t (if r.walk = .precedes then p else q)) (Cst.sib t s) = true ∧
      sqlLt (Cst.sib t s) (Cst.sib t (if r.walk = .precedes then q else p)) = true)]
    · simp only [row_sib, row_field, fieldIs]
      tauto
    · intro c s w _ _
      by_cases hw : r.walk = .precedes <;> simp [hw, and_assoc]
    · intro c x h
      simp only [Bool.and_eq_true, beq_iff_eq] at h
      exact h.1.1.1

end

end HafleyScm.Lower
