import Mathlib

/-!
# A tree numbered depth first

A node of a tree is the path of child indices that leads to it. `pre` numbers the nodes in the order a
depth-first walk enters them (`map_pre_paths`), and `last` is the number of the last node below a node. The
nodes below `p` are then an interval of numbers: `pre p ≤ pre q ≤ last p` says that `p` is a prefix of `q`
(`pre_interval`). Every test of the shape "encloses" is two comparisons, and no table of ancestors is kept.
-/

namespace Preorder

inductive Tree (α : Type) where
  | node (label : α) (children : List (Tree α))

abbrev Path := List Nat

namespace Tree
variable {α : Type}

def label : Tree α → α
  | node a _ => a

def children : Tree α → List (Tree α)
  | node _ cs => cs

mutual
def size : Tree α → Nat
  | node _ cs => 1 + sizes cs
def sizes : List (Tree α) → Nat
  | [] => 0
  | c :: cs => size c + sizes cs
end

/-- The tree at a path; `none` when the path leaves the tree. -/
def sub (t : Tree α) : Path → Option (Tree α)
  | [] => some t
  | i :: p => t.children[i]?.bind fun c => c.sub p

/-- Position of a node in depth-first order, counted from 0 at the root. -/
def pre (t : Tree α) : Path → Nat
  | [] => 0
  | i :: p => 1 + sizes (t.children.take i) + (t.children[i]?.elim 0 fun c => c.pre p)

/-- Number of the last node in the subtree at `p`. -/
def last (t : Tree α) (p : Path) : Nat := t.pre p + (((t.sub p).elim 0 size) - 1)

mutual
/-- All nodes, in the order a depth-first walk enters them. -/
def paths : Tree α → List Path
  | node _ cs => [] :: pathsFrom 0 cs
def pathsFrom (i : Nat) : List (Tree α) → List Path
  | [] => []
  | c :: cs => (paths c).map (i :: ·) ++ pathsFrom (i + 1) cs
end

/-- Induction over a tree: a property holds of a node once it holds of its children. -/
theorem induct {P : Tree α → Prop} (h : ∀ a cs, (∀ c ∈ cs, P c) → P (node a cs)) (t : Tree α) : P t := by
  refine @Tree.rec α P (fun cs => ∀ c ∈ cs, P c) (fun a cs ih => h a cs ih) ?_ ?_ t
  · simp
  · intro c cs hc hcs d hd
    rcases List.mem_cons.1 hd with rfl | hd
    · exact hc
    · exact hcs d hd

/-! ## Sizes -/

theorem size_eq (t : Tree α) : t.size = 1 + sizes t.children := by
  cases t
  simp [size, children]

theorem size_pos (t : Tree α) : 0 < t.size := by
  rw [size_eq]
  omega

@[simp] theorem sizes_nil : sizes ([] : List (Tree α)) = 0 := by simp [sizes]

@[simp] theorem sizes_cons (c : Tree α) (cs : List (Tree α)) : sizes (c :: cs) = c.size + sizes cs := by
  simp [sizes]

@[simp] theorem sizes_append (cs ds : List (Tree α)) : sizes (cs ++ ds) = sizes cs + sizes ds := by
  induction cs with
  | nil => simp
  | cons c cs ih => simp [ih, Nat.add_assoc]

theorem sizes_take_succ {cs : List (Tree α)} {i : Nat} {c : Tree α} (h : cs[i]? = some c) :
    sizes (cs.take (i + 1)) = sizes (cs.take i) + c.size := by
  rw [List.take_add_one, h]
  simp

theorem sizes_take_mono (cs : List (Tree α)) {i j : Nat} (h : i ≤ j) :
    sizes (cs.take i) ≤ sizes (cs.take j) := by
  have he : cs.take j = cs.take i ++ (cs.take j).drop i := by
    conv_lhs => rw [← List.take_append_drop i (cs.take j)]
    rw [List.take_take, Nat.min_eq_left h]
  rw [he, sizes_append]
  omega

theorem sizes_take_le (cs : List (Tree α)) (i : Nat) : sizes (cs.take i) ≤ sizes cs := by
  conv_rhs => rw [← List.take_append_drop i cs]
  rw [sizes_append]
  omega

/-! ## Paths -/

@[simp] theorem sub_nil (t : Tree α) : t.sub [] = some t := rfl

theorem sub_cons {t s : Tree α} {i : Nat} {p : Path} :
    t.sub (i :: p) = some s ↔ ∃ c, t.children[i]? = some c ∧ c.sub p = some s := by
  simp [sub, Option.bind_eq_some_iff]

theorem sub_append (t : Tree α) (p q : Path) : t.sub (p ++ q) = (t.sub p).bind (·.sub q) := by
  induction p generalizing t with
  | nil => rfl
  | cons i p ih =>
    simp only [List.cons_append, sub]
    cases t.children[i]? with
    | none => rfl
    | some c => exact ih c

theorem sub_of_prefix {t s : Tree α} {p q : Path} (hq : t.sub q = some s) (h : p <+: q) :
    ∃ u, t.sub p = some u := by
  obtain ⟨r, rfl⟩ := h
  rw [sub_append] at hq
  obtain ⟨u, hu, -⟩ := Option.bind_eq_some_iff.1 hq
  exact ⟨u, hu⟩

/-- A child of the node at `p` is one of the trees in its list of children. -/
theorem sub_concat {t s : Tree α} {p : Path} {i : Nat} :
    t.sub (p ++ [i]) = some s ↔ ∃ u, t.sub p = some u ∧ u.children[i]? = some s := by
  rw [sub_append, Option.bind_eq_some_iff]
  simp [sub]

theorem mem_pathsFrom {cs : List (Tree α)} {k : Nat} {p : Path} :
    p ∈ pathsFrom k cs ↔ ∃ i c q, p = (k + i) :: q ∧ cs[i]? = some c ∧ q ∈ c.paths := by
  induction cs generalizing k with
  | nil => simp [pathsFrom]
  | cons c cs ih =>
    rw [pathsFrom, List.mem_append, List.mem_map, ih]
    constructor
    · rintro (⟨q, hq, rfl⟩ | ⟨i, d, q, rfl, hd, hq⟩)
      · exact ⟨0, c, q, rfl, rfl, hq⟩
      · exact ⟨i + 1, d, q, by rw [Nat.add_right_comm, Nat.add_assoc], hd, hq⟩
    · rintro ⟨i, d, q, rfl, hd, hq⟩
      cases i with
      | zero => exact .inl ⟨q, by simpa using (Option.some.inj hd) ▸ hq, rfl⟩
      | succ i => exact .inr ⟨i, d, q, by rw [Nat.add_right_comm, Nat.add_assoc], hd, hq⟩

theorem paths_eq (t : Tree α) : t.paths = [] :: pathsFrom 0 t.children := by
  cases t
  simp [paths, children]

theorem mem_paths {t : Tree α} {p : Path} : p ∈ t.paths ↔ ∃ s, t.sub p = some s := by
  induction p generalizing t with
  | nil => simp [paths_eq]
  | cons j p ih =>
    rw [paths_eq, List.mem_cons, mem_pathsFrom]
    constructor
    · rintro (h | ⟨i, c, q, h, hc, hq⟩)
      · cases h
      · obtain ⟨rfl, rfl⟩ : j = 0 + i ∧ p = q := by simpa using h
        obtain ⟨s, hs⟩ := ih.1 hq
        exact ⟨s, sub_cons.2 ⟨c, by simpa using hc, hs⟩⟩
    · rintro ⟨s, hs⟩
      obtain ⟨c, hc, hs⟩ := sub_cons.1 hs
      exact .inr ⟨j, c, p, by simp, hc, ih.2 ⟨s, hs⟩⟩

/-! ## Numbers -/

@[simp] theorem pre_nil (t : Tree α) : t.pre [] = 0 := rfl

theorem pre_cons {t c : Tree α} {i : Nat} (p : Path) (h : t.children[i]? = some c) :
    t.pre (i :: p) = 1 + sizes (t.children.take i) + c.pre p := by
  simp [pre, h]

theorem pre_lt {t s : Tree α} {p : Path} (h : t.sub p = some s) : t.pre p + s.size ≤ t.size := by
  induction p generalizing t with
  | nil =>
    cases h
    simp
  | cons i p ih =>
    obtain ⟨c, hc, hs⟩ := sub_cons.1 h
    have hin := ih hs
    have hup := sizes_take_le t.children (i + 1)
    rw [sizes_take_succ hc] at hup
    rw [pre_cons _ hc, size_eq t]
    omega

theorem last_eq {t s : Tree α} {p : Path} (h : t.sub p = some s) : t.last p + 1 = t.pre p + s.size := by
  have hpos := size_pos s
  simp only [last, h, Option.elim_some]
  omega

/-- Two children of one node take disjoint intervals, in their order. -/
theorem pre_lt_of_lt {t c d : Tree α} {i j : Nat} {p q : Path} {s : Tree α} (hc : t.children[i]? = some c)
    (hd : t.children[j]? = some d) (hs : c.sub p = some s) (hij : i < j) :
    t.pre (i :: p) + s.size ≤ t.pre (j :: q) := by
  have hin := pre_lt hs
  have hmono := sizes_take_mono t.children (Nat.succ_le_of_lt hij)
  rw [Nat.succ_eq_add_one, sizes_take_succ hc] at hmono
  rw [pre_cons _ hc, pre_cons _ hd]
  omega

/-- **Intervals are subtrees.** Of two nodes of a tree, the second lies in the first one's interval of numbers
exactly if the first is on its path. -/
theorem pre_interval {t s u : Tree α} {p q : Path} (hp : t.sub p = some s) (hq : t.sub q = some u) :
    t.pre p ≤ t.pre q ∧ t.pre q ≤ t.last p ↔ p <+: q := by
  have hlast := last_eq hp
  have hkey : t.pre p ≤ t.pre q ∧ t.pre q < t.pre p + s.size ↔ p <+: q := by
    clear hlast
    induction p generalizing t q with
    | nil =>
      cases hp
      have := pre_lt hq
      have := size_pos u
      simp
      omega
    | cons i p ih =>
      obtain ⟨c, hc, hs⟩ := sub_cons.1 hp
      cases q with
      | nil =>
        rw [pre_cons _ hc]
        simp
      | cons j q =>
        obtain ⟨d, hd, hu⟩ := sub_cons.1 hq
        have hpos := size_pos u
        rcases Nat.lt_trichotomy i j with h | rfl | h
        · have := pre_lt_of_lt (q := q) hc hd hs h
          simp [Nat.ne_of_lt h]
          omega
        · obtain rfl : c = d := Option.some.inj (hc.symm.trans hd)
          rw [List.cons_prefix_cons, ← ih hs hu, pre_cons _ hc, pre_cons _ hc]
          simp
          omega
        · have := pre_lt_of_lt (q := p) hd hc hu h
          simp [(Nat.ne_of_lt h).symm]
          omega
  rw [← hkey]
  omega

theorem pre_inj {t s u : Tree α} {p q : Path} (hp : t.sub p = some s) (hq : t.sub q = some u)
    (h : t.pre p = t.pre q) : p = q := by
  have hs := last_eq hp
  have hu := last_eq hq
  have := size_pos s
  have := size_pos u
  have hpq : p <+: q := (pre_interval hp hq).1 (by omega)
  have hqp : q <+: p := (pre_interval hq hp).1 (by omega)
  exact hpq.eq_of_length (Nat.le_antisymm hpq.length_le hqp.length_le)

/-- Strictly enclosing is one comparison below and one above. -/
theorem pre_lt_iff {t s u : Tree α} {p q : Path} (hp : t.sub p = some s) (hq : t.sub q = some u) :
    t.pre p < t.pre q ∧ t.pre q ≤ t.last p ↔ p <+: q ∧ p ≠ q := by
  rw [← pre_interval hp hq]
  constructor
  · rintro ⟨hlt, hle⟩
    refine ⟨⟨Nat.le_of_lt hlt, hle⟩, ?_⟩
    rintro rfl
    exact Nat.lt_irrefl _ hlt
  · rintro ⟨⟨hlt, hle⟩, hne⟩
    exact ⟨Nat.lt_of_le_of_ne hlt fun h => hne (pre_inj hp hq h), hle⟩

/-! ## The walk enters the nodes in the order of their numbers -/

theorem map_pre_pathsFrom {t : Tree α} {us ds : List (Tree α)} (ht : t.children = us ++ ds)
    (ih : ∀ c ∈ ds, c.paths.map c.pre = List.range c.size) :
    (pathsFrom us.length ds).map t.pre = List.range' (1 + sizes us) (sizes ds) := by
  induction ds generalizing us with
  | nil => simp [pathsFrom]
  | cons c ds ihd =>
    have hc : t.children[us.length]? = some c := by simp [ht]
    have hrest : (pathsFrom (us ++ [c]).length ds).map t.pre =
        List.range' (1 + sizes (us ++ [c])) (sizes ds) :=
      ihd (by simp [ht]) fun d hd => ih d (List.mem_cons_of_mem _ hd)
    have hpre : t.pre ∘ (us.length :: ·) = (fun n => (1 + sizes us) + n) ∘ c.pre := by
      funext p
      simp [pre_cons p hc, ht]
    simp only [List.length_append, List.length_cons, List.length_nil, Nat.zero_add, sizes_append, sizes_cons,
      sizes_nil, Nat.add_zero] at hrest
    rw [pathsFrom, List.map_append, List.map_map, hpre, ← List.map_map, ih c (List.mem_cons_self ..), hrest,
      ← List.range'_eq_map_range, sizes_cons, ← Nat.add_assoc, List.range'_append_1]

/-- Numbers count up from 0 in the order of the walk. -/
theorem map_pre_paths (t : Tree α) : t.paths.map t.pre = List.range t.size := by
  induction t using induct with
  | h a cs ih =>
    have hkids : (pathsFrom 0 cs).map (node a cs).pre = List.range' (1 + sizes []) (sizes cs) :=
      @map_pre_pathsFrom _ (node a cs) [] cs rfl ih
    simp only [sizes_nil, Nat.add_zero] at hkids
    rw [paths, List.map_cons, hkids, pre_nil, size, List.range_eq_range', Nat.add_comm 1, List.range'_succ]

/-- Every number below the size is a node's. -/
theorem exists_pre_eq {t : Tree α} {n : Nat} (h : n < t.size) : ∃ p s, t.sub p = some s ∧ t.pre p = n := by
  have hmem : n ∈ t.paths.map t.pre := by
    rw [map_pre_paths]
    exact List.mem_range.2 h
  obtain ⟨p, hp, rfl⟩ := List.mem_map.1 hmem
  obtain ⟨s, hs⟩ := mem_paths.1 hp
  exact ⟨p, s, hs, rfl⟩

theorem paths_nodup (t : Tree α) : t.paths.Nodup :=
  .of_map t.pre (by rw [map_pre_paths]; exact List.nodup_range)

end Tree
end Preorder
