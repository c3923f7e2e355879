import HafleyRs.Redux.PoolRuns

/-!
# The slots behind the handles (`crates/redux/src/1_pool.rs`)

| here | there |
| --- | --- |
| `Pool` | `Pool<T, N, CAP>` (204); `size` is the array type's own length |
| `Pool.new`, `alloc`, `freeHandle` | `new`, `alloc`, `free` (216, 226, 231) |
| `Pool.range` | the index expression of `get` and `get_mut` (235, 239) |
| `Pool.get`, `Pool.write` | `get`; `get_mut(handle)[i] = v` |

`FreeSpans::new(N as u32)` sees `N % 2 ^ 32` slots. An `Arena` is a pool with the handles its caller holds; without
its slots it is a `Heap`, whose runs are sound.
-/

set_option linter.dupNamespace false

namespace Redux.Pool
open Intervals

structure Pool (T : Type) (N CAP : Nat) where
  slots : List T
  free  : FreeSpans CAP
  size  : slots.length = N

namespace Pool
variable {T : Type} {N CAP : Nat}

/-- `N as u32` -/
def width (N : Nat) : Nat := N % 2 ^ 32

def new (fill : T) : Pool T N CAP := ⟨List.replicate N fill, FreeSpans.new (width N), by simp⟩

def alloc (self : Pool T N CAP) (n : Nat) : Checked (Pool T N CAP × Option Handle) := do
  let (free, start) ← self.free.alloc n
  return ({ self with free }, start.map fun start => ⟨start, n⟩)

def freeHandle (self : Pool T N CAP) (handle : Handle) : Checked (Pool T N CAP) := do
  let free ← self.free.free handle.start handle.len
  return { self with free }

/-- `start as usize..(start + len) as usize` within the array. -/
def range (N : Nat) (handle : Handle) : Checked (Nat × Nat) := do
  let stop ← add handle.start handle.len
  if handle.start ≤ stop ∧ stop ≤ N then return (handle.start, stop) else throw .indexOutOfBounds

def get (self : Pool T N CAP) (handle : Handle) : Checked (List T) := do
  let (start, stop) ← range N handle
  return (self.slots.take stop).drop start

def write (self : Pool T N CAP) (handle : Handle) (i : Nat) (v : T) : Checked (Pool T N CAP) := do
  let (start, stop) ← range N handle
  if i < stop - start then return { self with slots := self.slots.set (start + i) v, size := by simp [self.size] }
  else throw .indexOutOfBounds

end Pool

/-- A pool and the handles its caller holds. -/
structure Arena (T : Type) (N CAP : Nat) where
  pool : Pool T N CAP
  live : List Handle

inductive Op (T : Type) where
  | alloc (n : Nat)
  | free (handle : Handle)
  | write (handle : Handle) (i : Nat) (v : T)

namespace Arena
variable {T : Type} {N CAP : Nat}

def new (fill : T) : Arena T N CAP := ⟨Pool.new fill, []⟩

def call (s : Arena T N CAP) : Op T → Checked (Arena T N CAP)
  | .alloc n => do
    let (pool, handle) ← s.pool.alloc n
    match handle with
    | some handle => return ⟨pool, handle :: s.live⟩
    | none => return { s with pool }
  | .free h => do
    let pool ← s.pool.freeHandle h
    return ⟨pool, s.live.erase h⟩
  | .write h i v => do
    let pool ← s.pool.write h i v
    return { s with pool }

/-- What a caller may ask for: a `u32` length, a handle it holds, a slot of such a handle. -/
def May (s : Arena T N CAP) : Op T → Prop
  | .alloc n => n < 2 ^ 32
  | .free h => h ∈ s.live
  | .write h i _ => h ∈ s.live ∧ i < h.len

def Step : Arena T N CAP → Op T → Arena T N CAP → Prop :=
  Machine.guarded May fun s c t => s.call c = .ok t

/-- The arena without its slots. -/
def heap (s : Arena T N CAP) : Heap CAP := ⟨s.pool.free, s.live⟩

/-- Room for a span, where one is needed. -/
def Roomy (N CAP : Nat) : Prop := 0 < CAP ∨ Pool.width N = 0

/-- Sound, or an allocator without room for a single span, which never hands out anything. -/
def Good (s : Arena T N CAP) : Prop :=
  Roomy N CAP ∧ Heap.Sound (Pool.width N) s.heap ∨ ¬ Roomy N CAP ∧ FreeSpans.Rep s.pool.free [] ∧ s.live = []

theorem width_lt : Pool.width N < 2 ^ 32 := Nat.mod_lt _ (by decide)

theorem Good.inside {s : Arena T N CAP} (hs : Good s) {h : Handle} (hh : h ∈ s.live) :
    h.start + h.len < 2 ^ 32 ∧ h.start + h.len ≤ N := by
  rcases hs with ⟨-, hs⟩ | ⟨-, -, hlive⟩
  · have hin := hs.inside h hh
    have hwidth := width_lt (N := N)
    have hle : Pool.width N ≤ N := Nat.mod_le _ _
    omega
  · rw [hlive] at hh
    cases hh

theorem Good.disjoint {s : Arena T N CAP} (hs : Good s) : s.heap.liveSpans.Pairwise Span.Disj := by
  rcases hs with ⟨-, hs⟩ | ⟨-, -, hlive⟩
  · exact hs.disjoint
  · simp [Heap.liveSpans, heap, hlive]

/-! ## Handles and their slots -/

/-- Two live handles hold no slot together. -/
theorem Good.apart {s : Arena T N CAP} (hs : Good s) {i j : Nat} (hij : i ≠ j) {h g : Handle}
    (hi : s.live[i]? = some h) (hj : s.live[j]? = some g) : h.span.Disj g.span := by
  have hpair := hs.disjoint
  rw [Heap.liveSpans, List.pairwise_map, List.pairwise_iff_getElem] at hpair
  obtain ⟨hil, rfl⟩ := List.getElem?_eq_some_iff.1 hi
  obtain ⟨hjl, rfl⟩ := List.getElem?_eq_some_iff.1 hj
  rcases lt_or_gt_of_ne hij with hlt | hlt
  · exact hpair i j hil hjl hlt
  · exact (hpair j i hjl hil hlt).symm

theorem Good.sound {s : Arena T N CAP} (hs : Good s) (hroom : Roomy N CAP) : Heap.Sound (Pool.width N) s.heap := by
  rcases hs with ⟨-, hs⟩ | ⟨hno, -⟩
  · exact hs
  · exact absurd hroom hno

end Arena
end Redux.Pool
