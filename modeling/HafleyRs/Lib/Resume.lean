import Mathlib.Data.List.MinMax
import Mathlib.Data.List.GetD
import Mathlib.Data.Option.Basic

/-!
# Reading a growing store from where one stopped

A `Source` grows record by record and is read behind a position; a reader passes the greatest position it was given so
far. `Kept` says what one read has to do for the pieces to be the whole, and a run gives the whole at every read if and
only if every read is kept (`whole_iff_kept`).

A `LineReader` walks lines with a state that a read starts anew. Its reads are kept if and only if every line behind
the position says the same from the fresh state and from that of the whole (`kept_iff_agree`).
-/

namespace Resume
variable {σ ρ μ : Type*}

structure Source (σ ρ μ : Type*) where
  empty  : σ
  append : σ → ρ → σ
  read   : σ → Option Nat → List μ
  seq    : μ → Nat

inductive Event (ρ : Type*) where
  | append (record : ρ)
  | read

/-- The store, what it was at the last read, and what the reads have returned. -/
structure Reader (σ μ : Type*) where
  store : σ
  seen  : σ
  out   : List μ

namespace Source
variable (source : Source σ ρ μ)

/-- The greatest position in what was returned. -/
def cursor (out : List μ) : Option Nat := (out.map source.seq).max?

def begin : Reader σ μ := ⟨source.empty, source.empty, []⟩

def step (s : Reader σ μ) : Event ρ → Reader σ μ
  | .append record => { s with store := source.append s.store record }
  | .read => ⟨s.store, s.store, s.out ++ source.read s.store (source.cursor s.out)⟩

/-- `p` holds in every state in which a read begins. -/
def EveryRead (p : Reader σ μ → Prop) (s : Reader σ μ) : List (Event ρ) → Prop
  | [] => True
  | .append record :: events => EveryRead p (source.step s (.append record)) events
  | .read :: events => p s ∧ EveryRead p (source.step s .read) events

/-- The read that begins here completes what was returned to what a read of everything returns. -/
def Whole (s : Reader σ μ) : Prop := (source.step s .read).out = source.read s.store none

instance [DecidableEq μ] (s : Reader σ μ) : Decidable (source.Whole s) :=
  inferInstanceAs (Decidable ((source.step s .read).out = source.read s.store none))

instance decidableEveryRead (p : Reader σ μ → Prop) [DecidablePred p] :
    ∀ (s : Reader σ μ) (events : List (Event ρ)), Decidable (source.EveryRead p s events)
  | _, [] => .isTrue trivial
  | s, .append record :: events => decidableEveryRead p (source.step s (.append record)) events
  | s, .read :: events =>
    have := decidableEveryRead p (source.step s .read) events
    inferInstanceAs (Decidable (p s ∧ source.EveryRead p (source.step s .read) events))

/-- A read of everything returns what it did at the last read, and then what is behind it. -/
def Kept (s : Reader σ μ) : Prop :=
  source.read s.store none =
    source.read s.seen none ++ source.read s.store (source.cursor (source.read s.seen none))

/-- An invariant of the stores before and at the end of a stretch without reads. -/
structure Inv (I : σ → σ → Prop) : Prop where
  start  : I source.empty source.empty
  append : ∀ {seen store} record, I seen store → I seen (source.append store record)
  read   : ∀ {seen store}, I seen store → I store store

variable {source}

theorem whole_iff {s : Reader σ μ} (h : s.out = source.read s.seen none) : source.Whole s ↔ source.Kept s := by
  simp only [Whole, Kept, step, h]
  exact eq_comm

/-- **Every read of a run completes the whole if and only if every read is kept.** -/
theorem whole_iff_kept {I : σ → σ → Prop} {p : Reader σ μ → Prop} (hinv : source.Inv I)
    (hp : ∀ s, I s.seen s.store → s.out = source.read s.seen none → (source.Kept s ↔ p s))
    (hempty : source.read source.empty none = []) (events : List (Event ρ)) :
    source.EveryRead source.Whole source.begin events ↔ source.EveryRead p source.begin events := by
  have hrun : ∀ (events : List (Event ρ)) (s : Reader σ μ), I s.seen s.store → s.out = source.read s.seen none →
      (source.EveryRead source.Whole s events ↔ source.EveryRead p s events) := by
    intro events
    induction events with
    | nil => intro s _ _; exact Iff.rfl
    | cons e events ih =>
      intro s hI hout
      cases e with
      | append record => exact ih _ (hinv.append record hI) hout
      | read =>
        have hhere := (whole_iff hout).trans (hp s hI hout)
        constructor
        · rintro ⟨hwhole, hrest⟩
          exact ⟨hhere.1 hwhole, (ih _ (hinv.read hI) hwhole).1 hrest⟩
        · rintro ⟨hkept, hrest⟩
          have hwhole := hhere.2 hkept
          exact ⟨hwhole, (ih _ (hinv.read hI) hwhole).2 hrest⟩
  exact hrun events source.begin hinv.start hempty.symm

end Source

/-! ## Lines -/

/-- What a line says, at its index and in a state, and the state behind it. -/
structure LineReader (τ ℓ μ : Type*) where
  init : τ
  line : τ → Nat → ℓ → τ × Option μ
  seq  : μ → Nat

namespace LineReader
variable {τ ℓ : Type*} (r : LineReader τ ℓ μ)

/-- The loop over the lines: those up to `after` are skipped. -/
def read (lines : List ℓ) (after : Option Nat) : List μ :=
  (lines.zipIdx.foldl (fun (s : τ × List μ) l =>
    if after.any (l.2 ≤ ·) then s
    else
      let (state, said) := r.line s.1 l.2 l.1
      (state, s.2 ++ said.toList)) (r.init, [])).2

def source : Source (List ℓ) ℓ μ where
  empty := []
  append lines l := lines ++ [l]
  read := r.read
  seq := r.seq

/-- The index of the first line behind a position. -/
def behind (after : Option Nat) : Nat := after.elim 0 (· + 1)

/-- The state behind lines, the first of them at index `i`. -/
def stateAfter (state : τ) (i : Nat) : List ℓ → τ
  | [] => state
  | l :: lines => stateAfter (r.line state i l).1 (i + 1) lines

def walk (state : τ) (i : Nat) : List ℓ → List μ
  | [] => []
  | l :: lines => (r.line state i l).2.toList ++ walk (r.line state i l).1 (i + 1) lines

/-- Whether a line says something is the line's alone, and what it says is at its index. -/
structure Shaped : Prop where
  seq   : ∀ state i l m, (r.line state i l).2 = some m → r.seq m = i
  shape : ∀ state state' i l, (r.line state i l).2.isSome = (r.line state' i l).2.isSome

variable {r}

theorem walk_append (state : τ) (i : Nat) (xs ys : List ℓ) :
    r.walk state i (xs ++ ys) = r.walk state i xs ++ r.walk (r.stateAfter state i xs) (i + xs.length) ys := by
  induction xs generalizing state i with
  | nil => rfl
  | cons l xs ih =>
    rw [List.cons_append, walk, walk, stateAfter, ih, List.append_assoc, List.length_cons]
    congr 3
    omega

theorem walk_split {lines : List ℓ} {k : Nat} (hk : k ≤ lines.length) :
    r.walk r.init 0 lines =
      r.walk r.init 0 (lines.take k) ++ r.walk (r.stateAfter r.init 0 (lines.take k)) k (lines.drop k) := by
  conv => lhs; rw [← List.take_append_drop k lines]
  rw [walk_append, List.length_take, Nat.min_eq_left hk, Nat.zero_add]

theorem mem_walk (h : r.Shaped) {state : τ} {i : Nat} {lines : List ℓ} {m : μ} (hm : m ∈ r.walk state i lines) :
    i ≤ r.seq m ∧ r.seq m < i + lines.length := by
  induction lines generalizing state i with
  | nil => cases hm
  | cons l lines ih =>
    rw [List.length_cons]
    rcases List.mem_append.1 hm with hhere | hrest
    · have hseq := h.seq _ _ _ _ (Option.mem_toList.1 hhere)
      omega
    · have hrange := ih hrest
      omega

/-- What the lines say depends on the state before them only through what each of them says. -/
theorem walk_eq_iff (h : r.Shaped) {state state' : τ} {i : Nat} {lines : List ℓ} :
    r.walk state i lines = r.walk state' i lines ↔
      ∀ j l, lines[j]? = some l → (r.line (r.stateAfter state i (lines.take j)) (i + j) l).2 =
        (r.line (r.stateAfter state' i (lines.take j)) (i + j) l).2 := by
  induction lines generalizing state state' i with
  | nil => simp [walk]
  | cons l lines ih =>
    have hlength : (r.line state i l).2.toList.length = (r.line state' i l).2.toList.length := by
      have hshape := h.shape state state' i l
      cases h₁ : (r.line state i l).2 <;> cases h₂ : (r.line state' i l).2 <;> simp_all
    have hhead : (r.line state i l).2.toList = (r.line state' i l).2.toList ↔
        (r.line state i l).2 = (r.line state' i l).2 :=
      ⟨fun heq => by cases h₁ : (r.line state i l).2 <;> cases h₂ : (r.line state' i l).2 <;> simp_all,
        fun heq => by rw [heq]⟩
    rw [walk, walk, List.append_eq_append_iff_of_size_eq_left hlength, hhead, ih]
    constructor
    · rintro ⟨hfirst, hrest⟩ j l' hl'
      cases j with
      | zero =>
        cases hl'
        exact hfirst
      | succ j =>
        have hat := hrest j l' hl'
        rw [show i + 1 + j = i + (j + 1) by omega] at hat
        exact hat
    · intro hall
      refine ⟨hall 0 l rfl, fun j l' hl' => ?_⟩
      have hat := hall (j + 1) l' hl'
      rw [show i + (j + 1) = i + 1 + j by omega] at hat
      exact hat

/-- The loop says of the lines behind `after` what a walk from there does. -/
theorem read_eq (lines : List ℓ) (after : Option Nat) :
    r.read lines after = r.walk r.init (behind after) (lines.drop (behind after)) := by
  have hskip : ∀ i, (after.any (i ≤ ·)) = decide (i < behind after) := by
    intro i
    cases after with
    | none => simp [behind]
    | some n => simp [behind, Nat.lt_succ_iff]
  have hloop : ∀ (lines : List ℓ) (i : Nat) (state : τ) (out : List μ),
      ((lines.zipIdx i).foldl (fun (s : τ × List μ) l =>
        if after.any (l.2 ≤ ·) then s
        else
          let (state, said) := r.line s.1 l.2 l.1
          (state, s.2 ++ said.toList)) (state, out)).2 =
        out ++ r.walk state (max i (behind after)) (lines.drop (behind after - i)) := by
    intro lines
    induction lines with
    | nil => intro i state out; simp [walk]
    | cons l lines ih =>
      intro i state out
      rw [List.zipIdx_cons, List.foldl_cons, hskip]
      by_cases hi : i < behind after
      · rw [if_pos (decide_eq_true hi), ih, show behind after - i = (behind after - (i + 1)) + 1 by omega,
          List.drop_succ_cons, show max (i + 1) (behind after) = max i (behind after) by omega]
      · rw [if_neg (by simpa using hi), ih, show behind after - i = 0 by omega,
          show behind after - (i + 1) = 0 by omega, show max (i + 1) (behind after) = i + 1 by omega,
          show max i (behind after) = i by omega, List.drop_zero, List.drop_zero, walk, List.append_assoc]
  rw [read]
  simpa using hloop lines 0 r.init []

/-- Every line behind the position says from the state a read starts with what it says in the whole. -/
def Agree (r : LineReader τ ℓ μ) (lines : List ℓ) (after : Option Nat) : Prop :=
  ∀ j l, (lines.drop (behind after))[j]? = some l →
    (r.line (r.stateAfter (r.stateAfter r.init 0 (lines.take (behind after))) (behind after)
      ((lines.drop (behind after)).take j)) (behind after + j) l).2 =
    (r.line (r.stateAfter r.init (behind after) ((lines.drop (behind after)).take j)) (behind after + j) l).2

theorem inv_prefix : r.source.Inv (· <+: ·) :=
  ⟨List.prefix_refl _, fun _ h => h.trans (List.prefix_append _ _), fun _ => List.prefix_refl _⟩

theorem cursor_spec {source : Source σ ρ μ} {out : List μ} :
    (∀ m ∈ out, ∃ n, source.cursor out = some n ∧ source.seq m ≤ n) ∧
    ∀ n, source.cursor out = some n → ∃ m ∈ out, source.seq m = n := by
  constructor
  · intro m hm
    have hmem : source.seq m ∈ out.map source.seq := List.mem_map_of_mem hm
    cases hmax : (out.map source.seq).max? with
    | none => rw [List.max?_eq_none_iff.1 hmax] at hmem; cases hmem
    | some n => exact ⟨n, hmax, (List.max?_eq_some_iff.1 hmax).2 _ hmem⟩
  · intro n hn
    obtain ⟨m, hm, hseq⟩ := List.mem_map.1 (List.max?_mem hn)
    exact ⟨m, hm, hseq⟩

/-- The lines behind the last that said something said nothing. -/
theorem walk_behind (h : r.Shaped) (lines : List ℓ) :
    let after := r.source.cursor (r.walk r.init 0 lines)
    behind after ≤ lines.length ∧
      r.walk (r.stateAfter r.init 0 (lines.take (behind after))) (behind after) (lines.drop (behind after)) = [] := by
  intro after
  obtain ⟨hle, hattained⟩ := @cursor_spec _ _ _ r.source (r.walk r.init 0 lines)
  have hlength : behind after ≤ lines.length := by
    cases hafter : after with
    | none => exact Nat.zero_le _
    | some n =>
      obtain ⟨m, hm, hseq⟩ := hattained n hafter
      have hrange := (mem_walk h hm).2
      have hseq' : r.seq m = n := hseq
      show n + 1 ≤ lines.length
      omega
  refine ⟨hlength, List.eq_nil_iff_forall_not_mem.2 fun m hm => ?_⟩
  have hrange := (mem_walk h hm).1
  have hwhole : m ∈ r.walk r.init 0 lines := by
    rw [walk_split hlength]
    exact List.mem_append_right _ hm
  obtain ⟨n, hn, hseq⟩ := hle m hwhole
  have hafter : after = some n := hn
  have hseq' : r.seq m ≤ n := hseq
  rw [hafter, show behind (some n) = n + 1 from rfl] at hrange
  omega

/-- **A read is kept if and only if the lines behind the position say what they say in the whole.** -/
theorem kept_iff_agree (h : r.Shaped) {s : Reader (List ℓ) μ} (hgrows : s.seen <+: s.store) :
    r.source.Kept s ↔ r.Agree s.store (r.source.cursor (r.source.read s.seen none)) := by
  have hread : ∀ lines : List ℓ, r.source.read lines none = r.walk r.init 0 lines := fun lines => read_eq lines none
  obtain ⟨hlength, hnone⟩ := walk_behind h s.seen
  rw [hread]
  generalize hafter : r.source.cursor (r.walk r.init 0 s.seen) = after at hlength hnone ⊢
  have htake : s.store.take (behind after) = s.seen.take (behind after) := by
    obtain ⟨rest, hrest⟩ := hgrows
    rw [← hrest, List.take_append_of_le_length hlength]
  have hseen := walk_split (r := r) hlength
  rw [hnone, List.append_nil] at hseen
  have hstore := walk_split (r := r) (hlength.trans hgrows.length_le)
  rw [htake, ← hseen] at hstore
  rw [Source.Kept, hread, hread, hafter, hstore, List.append_cancel_left_eq, show r.source.read = r.read from rfl,
    read_eq, walk_eq_iff h, Agree, htake]

end LineReader

end Resume
