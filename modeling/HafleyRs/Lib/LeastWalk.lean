import HafleyRs.Lib.BTree

/-!
# Shortest walks with least labels

A graph is a list of edges, each with a source, a target and a label. `Walk o es v` says that the edges `es`
lead from `o` to `v`. From a set of starts, `Dist n v` is the length of a shortest walk to `v`, the empty walk
of a start included, and `First n v` the length of a shortest walk that has an edge; `Least` is a walk whose
labels come first, in the lexicographic order, among the walks of its length.

A search goes from one level to the next by `First.pred` and `First.of_dist`: the walks of the least positive
length `n + 1` to `v` are the edges to `v` from nodes at distance `n`, behind a walk of length `n`. A least
walk to `v` extends a least walk to the node before (`Least.snoc_le`).
-/

namespace LeastWalk
variable {N E L : Type} (src dst : E → N)

inductive Walk (edges : List E) (o : N) : List E → N → Prop
  | nil : Walk edges o [] o
  | snoc {es : List E} {e : E} : Walk edges o es (src e) → e ∈ edges → Walk edges o (es ++ [e]) (dst e)

variable {src dst} {edges : List E} {S : Set N}

theorem walk_snoc {o v : N} {es : List E} {e : E} :
    Walk src dst edges o (es ++ [e]) v ↔ Walk src dst edges o es (src e) ∧ e ∈ edges ∧ dst e = v := by
  constructor
  · intro h
    generalize hfs : es ++ [e] = fs at h
    cases h with
    | nil => simp at hfs
    | @snoc es' e' h he =>
      obtain ⟨rfl, heq⟩ := List.append_inj' hfs rfl
      cases heq
      exact ⟨h, he, rfl⟩
  · rintro ⟨h, he, rfl⟩
    exact .snoc h he

theorem walk_nil {o v : N} : Walk src dst edges o [] v ↔ o = v := by
  constructor
  · intro h
    generalize hfs : ([] : List E) = fs at h
    cases h with
    | nil => rfl
    | snoc => simp at hfs
  · rintro rfl
    exact .nil

/-- A walk stays a walk when the edges are listed otherwise. -/
theorem Walk.mono {edges' : List E} (hsub : ∀ e ∈ edges, e ∈ edges') {o v : N} {es : List E}
    (h : Walk src dst edges o es v) : Walk src dst edges' o es v := by
  induction h with
  | nil => exact .nil
  | snoc _ he ih => exact .snoc ih (hsub _ he)

theorem Walk.mem {o v : N} {es : List E} (h : Walk src dst edges o es v) : ∀ e ∈ es, e ∈ edges := by
  induction h with
  | nil => simp
  | snoc _ he ih =>
    intro e' he'
    rcases List.mem_append.1 he' with he' | he'
    · exact ih e' he'
    · rw [List.mem_singleton.1 he']
      exact he

/-- The first edge of a walk tells where it starts. -/
theorem Walk.start {o v : N} {e : E} {es : List E} (h : Walk src dst edges o (e :: es) v) : src e = o := by
  generalize hfs : e :: es = fs at h
  induction h generalizing es with
  | nil => cases hfs
  | @snoc fs e' h he ih =>
    cases fs with
    | nil =>
      cases hfs
      exact (walk_nil.1 h).symm
    | cons f fs =>
      cases hfs
      exact ih rfl

variable (src dst edges S)

/-- Some walk of the length leads from a start to the node. -/
def Reaches (n : Nat) (v : N) : Prop := ∃ o ∈ S, ∃ es : List E, es.length = n ∧ Walk src dst edges o es v

structure Dist (n : Nat) (v : N) : Prop where
  reaches : Reaches src dst edges S n v
  least   : ∀ m, Reaches src dst edges S m v → n ≤ m

structure First (n : Nat) (v : N) : Prop where
  pos     : 1 ≤ n
  reaches : Reaches src dst edges S n v
  least   : ∀ m, 1 ≤ m → Reaches src dst edges S m v → n ≤ m

structure Least [LinearOrder L] (label : E → L) (v o : N) (es : List E) : Prop where
  start : o ∈ S
  walk  : Walk src dst edges o es v
  least : ∀ o' ∈ S, ∀ es', es'.length = es.length → Walk src dst edges o' es' v → es.map label ≤ es'.map label

variable {src dst edges S}

theorem Reaches.mono {edges' : List E} (hsub : ∀ e ∈ edges, e ∈ edges') {n : Nat} {v : N}
    (h : Reaches src dst edges S n v) : Reaches src dst edges' S n v := by
  obtain ⟨o, ho, es, hlen, hw⟩ := h
  exact ⟨o, ho, es, hlen, hw.mono hsub⟩

/-- The same edges, listed otherwise. -/
theorem First.congr {edges' : List E} (hmem : ∀ e, e ∈ edges ↔ e ∈ edges') {n : Nat} {v : N}
    (h : First src dst edges S n v) : First src dst edges' S n v :=
  ⟨h.pos, h.reaches.mono fun e => (hmem e).1, fun m hm hr => h.least m hm (hr.mono fun e => (hmem e).2)⟩

theorem Least.congr [LinearOrder L] {label : E → L} {edges' : List E} (hmem : ∀ e, e ∈ edges ↔ e ∈ edges') {v o : N}
    {es : List E} (h : Least src dst edges S label v o es) : Least src dst edges' S label v o es :=
  ⟨h.start, h.walk.mono fun e => (hmem e).1,
    fun o' ho' es' hlen hw => h.least o' ho' es' hlen (hw.mono fun e => (hmem e).2)⟩

/-- Two least walks of one length have the same labels. -/
theorem Least.labels_eq [LinearOrder L] {label : E → L} {v o o' : N} {es es' : List E}
    (h : Least src dst edges S label v o es) (h' : Least src dst edges S label v o' es')
    (hlen : es.length = es'.length) : es.map label = es'.map label :=
  le_antisymm (h.least o' h'.start es' hlen.symm h'.walk) (h'.least o h.start es hlen h.walk)

theorem Reaches.snoc {n : Nat} {e : E} (h : Reaches src dst edges S n (src e)) (he : e ∈ edges) :
    Reaches src dst edges S (n + 1) (dst e) := by
  obtain ⟨o, ho, es, hlen, hw⟩ := h
  exact ⟨o, ho, es ++ [e], by simp [hlen], .snoc hw he⟩

theorem reaches_zero {v : N} : Reaches src dst edges S 0 v ↔ v ∈ S := by
  constructor
  · rintro ⟨o, ho, es, hlen, hw⟩
    rw [List.length_eq_zero_iff] at hlen
    subst hlen
    rw [← walk_nil.1 hw]
    exact ho
  · intro hv
    exact ⟨v, hv, [], rfl, .nil⟩

theorem Reaches.pred {n : Nat} {v : N} (h : Reaches src dst edges S (n + 1) v) :
    ∃ e ∈ edges, dst e = v ∧ Reaches src dst edges S n (src e) := by
  obtain ⟨o, ho, es, hlen, hw⟩ := h
  rcases List.eq_nil_or_concat es with rfl | ⟨es', e, rfl⟩
  · simp at hlen
  · rw [List.concat_eq_append] at hw
    obtain ⟨hw, he, hv⟩ := walk_snoc.1 hw
    exact ⟨e, he, hv, o, ho, es', by simpa using hlen, hw⟩

theorem dist_zero {v : N} : Dist src dst edges S 0 v ↔ v ∈ S :=
  ⟨fun h => reaches_zero.1 h.reaches, fun h => ⟨reaches_zero.2 h, fun _ _ => Nat.zero_le _⟩⟩

theorem Dist.unique {m n : Nat} {v : N} (h : Dist src dst edges S m v) (h' : Dist src dst edges S n v) : m = n :=
  le_antisymm (h.least n h'.reaches) (h'.least m h.reaches)

theorem First.unique {m n : Nat} {v : N} (h : First src dst edges S m v) (h' : First src dst edges S n v) : m = n :=
  le_antisymm (h.least n h'.pos h'.reaches) (h'.least m h.pos h.reaches)

/-- What is reached by a walk with an edge has a least such length. -/
theorem exists_first {n : Nat} {v : N} (hn : 1 ≤ n) (h : Reaches src dst edges S n v) :
    ∃ k, k ≤ n ∧ First src dst edges S k v := by
  classical
  have hex : ∃ k, 1 ≤ k ∧ Reaches src dst edges S k v := ⟨n, hn, h⟩
  obtain ⟨h1, h2⟩ := Nat.find_spec hex
  exact ⟨Nat.find hex, Nat.find_min' hex ⟨hn, h⟩, h1, h2, fun m hm hr => Nat.find_min' hex ⟨hm, hr⟩⟩

/-- Away from the starts the two lengths are one. -/
theorem Dist.first {n : Nat} {v : N} (h : Dist src dst edges S (n + 1) v) : First src dst edges S (n + 1) v :=
  ⟨Nat.succ_le_succ (Nat.zero_le n), h.reaches, fun m _ hm => h.least m hm⟩

theorem First.dist {n : Nat} {v : N} (h : First src dst edges S n v) (hv : v ∉ S) : Dist src dst edges S n v := by
  refine ⟨h.reaches, fun m hm => ?_⟩
  by_cases h0 : m = 0
  · subst h0
    exact absurd (reaches_zero.1 hm) hv
  · exact h.least m (by omega) hm

/-- The last edge of a shortest walk comes from a node one step nearer. -/
theorem First.pred {n : Nat} {e : E} (h : First src dst edges S (n + 1) (dst e)) (he : e ∈ edges)
    (hr : Reaches src dst edges S n (src e)) : Dist src dst edges S n (src e) := by
  refine ⟨hr, fun m hm => ?_⟩
  have := h.least (m + 1) (by omega) (hm.snoc he)
  omega

/-- An edge from a node at distance `n` leads to a node that comes at `n + 1`, if it has not come before. -/
theorem First.of_dist {n : Nat} {e : E} (h : Dist src dst edges S n (src e)) (he : e ∈ edges)
    (hnew : ∀ k, k ≤ n → ¬ First src dst edges S k (dst e)) : First src dst edges S (n + 1) (dst e) := by
  refine ⟨by omega, h.reaches.snoc he, fun m hm hr => ?_⟩
  obtain ⟨k, hk, hf⟩ := exists_first hm hr
  by_contra hlt
  exact hnew k (by omega) hf

/-! ## Labels -/

/-- Lists of one length compare as they do before the same end. -/
theorem append_le_append [LinearOrder L] {l m : List L} (hlen : l.length = m.length) (h : l ≤ m) (n : List L) :
    l ++ n ≤ m ++ n := by
  induction l generalizing m with
  | nil =>
    rw [List.length_nil, eq_comm, List.length_eq_zero_iff] at hlen
    rw [hlen]
  | cons a l ih =>
    cases m with
    | nil => simp at hlen
    | cons b m =>
      rcases lt_or_eq_of_le h with h | h
      · cases h with
        | rel h => exact le_of_lt (List.Lex.rel h)
        | cons h => exact List.cons_le_cons a (ih (by simpa using hlen) (le_of_lt h))
      · obtain ⟨rfl, rfl⟩ := List.cons.inj h
        exact le_refl _

/-- A least walk, one edge on, comes before every walk with that last edge. -/
theorem Least.snoc_le [LinearOrder L] {label : E → L} {o o' : N} {es es' : List E} {e : E}
    (h : Least src dst edges S label (src e) o es) (ho' : o' ∈ S) (hlen : es'.length = es.length)
    (hw : Walk src dst edges o' es' (src e)) : (es ++ [e]).map label ≤ (es' ++ [e]).map label := by
  rw [List.map_append, List.map_append]
  exact append_le_append (by simp [hlen]) (h.least o' ho' es' hlen hw) _

end LeastWalk
