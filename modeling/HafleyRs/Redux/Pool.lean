import HafleyRs.Lib.Intervals

/-!
# The free-span allocator (`crates/redux/src/1_pool.rs`)

`FreeSpans<CAP>` is an array of `CAP` spans of which the first `count` are in use. Every operation
below is the Rust one on that array, loop by loop; `Rep` says which list of spans an array stands
for, and the spec lemmas move each operation down to that list.

| here | there |
| --- | --- |
| `Handle` | `Handle { start, len }` (1_pool.rs:24) |
| `Span` (`Intervals.Span`), `EMPTY_SPAN` | `Span`, `EMPTY_SPAN` (1_pool.rs:44, 49) |
| `FreeSpans` | `FreeSpans<CAP>` (1_pool.rs:66); `size` is the array type's own length |
| `new`, `alloc`, `free` | 1_pool.rs:79, 96, 114 |
| `freeTotal`, `fragCount`, `remove`, `insert` | 1_pool.rs:147, 155, 162, 178 |
| `Checked` | a Rust panic: `u32`/`usize` overflow, an index past the array, a `debug_assert!` |

Arithmetic is checked as in a debug build. A release build wraps instead, so a run that never
reaches `.overflow` is the same run in both; `insert` past the cap panics in both (the assert in
one, the array index in the other).
-/

namespace Redux.Pool
open Intervals

/-- The ways a call can panic. -/
inductive Panic where
  | overflow
  | indexOutOfBounds
  | debugAssert (message : String)
deriving DecidableEq, Repr

abbrev Checked := Except Panic

def add (a b : Nat) : Checked Nat := if a + b < 2 ^ 32 then .ok (a + b) else .error .overflow

def sub (a b : Nat) : Checked Nat := if b ≤ a then .ok (a - b) else .error .overflow

def EMPTY_SPAN : Span := ⟨0, 0⟩

structure Handle where
  start : Nat
  len   : Nat
deriving DecidableEq, Repr

def Handle.span (h : Handle) : Span := ⟨h.start, h.len⟩

@[ext] structure FreeSpans (CAP : Nat) where
  spans : List Span
  count : Nat
  size  : spans.length = CAP
deriving DecidableEq, Repr

namespace FreeSpans
variable {CAP : Nat}

/-- `self.spans[i]` -/
def read (self : FreeSpans CAP) (i : Nat) : Checked Span :=
  match self.spans[i]? with
  | some s => .ok s
  | none => .error .indexOutOfBounds

/-- `self.spans[i] = s` -/
def write (self : FreeSpans CAP) (i : Nat) (s : Span) : Checked (FreeSpans CAP) :=
  if i < CAP then .ok ⟨self.spans.set i s, self.count, by simp [self.size]⟩
  else .error .indexOutOfBounds

def new (len : Nat) : FreeSpans CAP :=
  if len > 0 ∧ CAP > 0 then
    ⟨(List.replicate CAP EMPTY_SPAN).set 0 ⟨0, len⟩, 1, by simp⟩
  else ⟨List.replicate CAP EMPTY_SPAN, 0, by simp⟩

/-- `while cursor < last { spans[cursor] = spans[cursor + 1]; cursor += 1 }`, `k` iterations. -/
def shiftDown (self : FreeSpans CAP) (cursor : Nat) : Nat → Checked (FreeSpans CAP)
  | 0 => .ok self
  | k + 1 => do
    let s ← self.read (cursor + 1)
    let self ← self.write cursor s
    self.shiftDown (cursor + 1) k

/-- `while cursor > idx { spans[cursor] = spans[cursor - 1]; cursor -= 1 }`, from `idx + k`. -/
def shiftUp (self : FreeSpans CAP) (idx : Nat) : Nat → Checked (FreeSpans CAP)
  | 0 => .ok self
  | k + 1 => do
    let s ← self.read (idx + k)
    let self ← self.write (idx + k + 1) s
    self.shiftUp idx k

def remove (self : FreeSpans CAP) (idx : Nat) : Checked (FreeSpans CAP) := do
  let last ← sub self.count 1
  let self ← self.shiftDown idx (last - idx)
  let self ← self.write last EMPTY_SPAN
  let count ← sub self.count 1
  return { self with count }

def arrayFull : String :=
  "free-span array overflow: more fragments than CAP -- upstream over-allocated"

def insert (self : FreeSpans CAP) (idx : Nat) (span : Span) : Checked (FreeSpans CAP) := do
  if ¬ self.count < CAP then throw (.debugAssert arrayFull)
  let self ← self.shiftUp idx (self.count - idx)
  let self ← self.write idx span
  let count ← add self.count 1
  return { self with count }

/-- The scan of `alloc`: `rem` slots of `0..count` are left, the next one is `idx`. -/
def allocFrom (self : FreeSpans CAP) (n idx : Nat) : Nat → Checked (FreeSpans CAP × Option Nat)
  | 0 => .ok (self, none)
  | rem + 1 => do
    let s ← self.read idx
    if s.len ≥ n then
      let start := s.start
      let start' ← add s.start n
      let len' ← sub s.len n
      let self ← self.write idx ⟨start', len'⟩
      if len' = 0 then
        let self ← self.remove idx
        return (self, some start)
      else
        return (self, some start)
    else
      self.allocFrom n (idx + 1) rem

def alloc (self : FreeSpans CAP) (n : Nat) : Checked (FreeSpans CAP × Option Nat) :=
  self.allocFrom n 0 self.count

/-- `while idx < count && spans[idx].start < start { idx += 1 }` -/
def insertPoint (self : FreeSpans CAP) (start idx : Nat) : Nat → Checked Nat
  | 0 => .ok idx
  | rem + 1 => do
    let s ← self.read idx
    if s.start < start then self.insertPoint start (idx + 1) rem else return idx

def overlapping (start n : Nat) : String :=
  s!"free of an already-free or overlapping range (start={start}, n={n})"

/-- The left half of `free(start, n)`: extend `spans[idx - 1]` when it touches `merged`, insert
    otherwise. -/
def freeLeft (self : FreeSpans CAP) (start n idx : Nat) (merged : Span) :
    Checked (FreeSpans CAP) := do
  if idx > 0 then
    let prev := idx - 1
    let p ← self.read prev
    let stop ← add p.start p.len
    if ¬ stop ≤ merged.start then throw (.debugAssert (overlapping start n))
    if stop = merged.start then
      let len ← add p.len merged.len
      self.write prev ⟨p.start, len⟩
    else
      self.insert idx merged
  else
    self.insert idx merged

def free (self : FreeSpans CAP) (start n : Nat) : Checked (FreeSpans CAP) := do
  if n = 0 then return self
  let idx ← self.insertPoint start 0 self.count
  if idx < self.count then
    let stop ← add start n
    let right ← self.read idx
    if stop = right.start then
      let len ← add n right.len
      let self ← self.remove idx
      self.freeLeft start n idx ⟨start, len⟩
    else
      self.freeLeft start n idx ⟨start, n⟩
  else
    self.freeLeft start n idx ⟨start, n⟩

/-- `&self.spans[..self.count]`, summed. -/
def freeTotal (self : FreeSpans CAP) : Checked Nat :=
  if self.count ≤ CAP then .ok (total (self.spans.take self.count)) else .error .indexOutOfBounds

def fragCount (self : FreeSpans CAP) : Nat := self.count

/-! ## What an array stands for -/

/-- The array holds the spans `l` and a zeroed tail. -/
structure Rep (fs : FreeSpans CAP) (l : List Span) : Prop where
  spans : ∃ k, fs.spans = l ++ List.replicate k EMPTY_SPAN
  count : fs.count = l.length

/-- Canonical form: the list determines the array, so `==` on allocators is `=` on free lists. -/
theorem Rep.unique {a b : FreeSpans CAP} {l : List Span} (ha : Rep a l) (hb : Rep b l) : a = b := by
  obtain ⟨j, hj⟩ := ha.spans
  obtain ⟨k, hk⟩ := hb.spans
  have hjk : j = k := by
    have h1 := a.size
    have h2 := b.size
    rw [hj, List.length_append, List.length_replicate] at h1
    rw [hk, List.length_append, List.length_replicate] at h2
    omega
  exact FreeSpans.ext (by rw [hj, hk, hjk]) (by rw [ha.count, hb.count])

theorem Rep.length_le {self : FreeSpans CAP} {l : List Span} (h : Rep self l) : l.length ≤ CAP := by
  obtain ⟨k, hk⟩ := h.spans
  have := self.size
  rw [hk, List.length_append] at this
  omega

theorem Rep.take {self : FreeSpans CAP} {l : List Span} (h : Rep self l) :
    self.spans.take self.count = l := by
  obtain ⟨k, hk⟩ := h.spans
  rw [hk, h.count, List.take_left]

theorem Rep.drop {self : FreeSpans CAP} {l : List Span} (h : Rep self l) :
    self.spans.drop self.count = List.replicate (CAP - self.count) EMPTY_SPAN := by
  obtain ⟨k, hk⟩ := h.spans
  have := self.size
  rw [hk, List.length_append, List.length_replicate] at this
  rw [hk, h.count, List.drop_left]
  congr 1; omega

theorem new_rep (len : Nat) :
    Rep (new len : FreeSpans CAP) (if len > 0 ∧ CAP > 0 then [⟨0, len⟩] else []) := by
  unfold new
  split
  · rename_i h
    obtain ⟨k, rfl⟩ : ∃ k, CAP = k + 1 := ⟨CAP - 1, by omega⟩
    exact ⟨⟨k, by simp [List.replicate_succ]⟩, rfl⟩
  · exact ⟨⟨CAP, by simp⟩, rfl⟩

/-! ### Cell access -/

theorem read_eq {self : FreeSpans CAP} {pre post : List Span} {s : Span}
    (h : self.spans = pre ++ s :: post) : self.read pre.length = .ok s := by
  simp [read, h]

theorem write_eq {self : FreeSpans CAP} {pre post : List Span} {s t : Span}
    (h : self.spans = pre ++ s :: post) :
    ∃ self', self.write pre.length t = .ok self' ∧ self'.spans = pre ++ t :: post ∧
      self'.count = self.count := by
  have hlt : pre.length < CAP := by
    rw [← self.size, h]; simp
  exact ⟨⟨self.spans.set pre.length t, self.count, by simp [self.size]⟩, by rw [write, if_pos hlt],
    by simp [h], rfl⟩

/-! ### The two shifting loops -/

/-- `shiftDown` moves the block `B` one cell left; the last cell keeps its old value. -/
theorem shiftDown_eq {self : FreeSpans CAP} {A B C : List Span} {x : Span}
    (h : self.spans = A ++ x :: B ++ C) :
    ∃ self' y, self.shiftDown A.length B.length = .ok self' ∧ self'.spans = A ++ B ++ y :: C ∧
      self'.count = self.count := by
  induction B generalizing self A x with
  | nil => exact ⟨self, x, rfl, by simpa using h, rfl⟩
  | cons b B ih =>
    have hread : self.read (A.length + 1) = .ok b := by
      have := read_eq (show self.spans = (A ++ [x]) ++ b :: (B ++ C) by simp [h])
      simpa using this
    obtain ⟨self₁, hw, hs, hc⟩ := write_eq (t := b) (show self.spans = A ++ x :: (b :: B ++ C) by simp [h])
    obtain ⟨self₂, y, hrun, hs₂, hc₂⟩ := ih (show self₁.spans = (A ++ [b]) ++ b :: B ++ C by simp [hs])
    refine ⟨self₂, y, ?_, by simpa using hs₂, hc₂.trans hc⟩
    rw [List.length_append, List.length_singleton] at hrun
    simp only [List.length_cons, shiftDown, hread, hw, bind, Except.bind, hrun]

/-- `shiftUp` moves the block `B` one cell right over `z`; the first cell keeps its old value. -/
theorem shiftUp_eq {self : FreeSpans CAP} {A B C : List Span} {z : Span}
    (h : self.spans = A ++ B ++ z :: C) :
    ∃ self' y, self.shiftUp A.length B.length = .ok self' ∧ self'.spans = A ++ y :: B ++ C ∧
      self'.count = self.count := by
  induction B using List.reverseRecOn generalizing self C z with
  | nil => exact ⟨self, z, rfl, by simpa using h, rfl⟩
  | append_singleton B b ih =>
    have hread : self.read (A.length + B.length) = .ok b := by
      have := read_eq (show self.spans = (A ++ B) ++ b :: z :: C by simp [h])
      simpa using this
    obtain ⟨self₁, hw, hs, hc⟩ := write_eq (t := b)
      (show self.spans = (A ++ B ++ [b]) ++ z :: C by simp [h])
    obtain ⟨self₂, y, hrun, hs₂, hc₂⟩ := ih (show self₁.spans = A ++ B ++ b :: b :: C by simp [hs])
    refine ⟨self₂, y, ?_, by simpa using hs₂, hc₂.trans hc⟩
    simp only [List.length_append, List.length_singleton] at hw ⊢
    simp only [shiftUp, hread, hw, bind, Except.bind, hrun]

/-! ### `remove` and `insert` on the list -/

theorem remove_rep {self : FreeSpans CAP} {pre post : List Span} {s : Span}
    (h : Rep self (pre ++ s :: post)) :
    ∃ self', self.remove pre.length = .ok self' ∧ Rep self' (pre ++ post) := by
  obtain ⟨k, hk⟩ := h.spans
  have hcount : self.count = pre.length + post.length + 1 := by
    rw [h.count]; simp; omega
  obtain ⟨self₁, y, hrun, hs₁, hc₁⟩ := shiftDown_eq
    (show self.spans = pre ++ s :: post ++ List.replicate k EMPTY_SPAN by simp [hk])
  obtain ⟨self₂, hw, hs₂, hc₂⟩ := write_eq (t := EMPTY_SPAN) hs₁
  refine ⟨{ self₂ with count := pre.length + post.length }, ?_, ⟨⟨k + 1, ?_⟩, by simp⟩⟩
  · have hlast : self.count - 1 - pre.length = post.length := by omega
    rw [List.length_append] at hw
    simp only [remove, sub, hcount, bind, Except.bind, pure, Except.pure, Nat.le_add_left, if_true,
      Nat.add_sub_cancel, Nat.add_sub_cancel_left, hrun, hw, hc₂, hc₁]
  · simp [hs₂, List.replicate_succ]

theorem insert_rep {self : FreeSpans CAP} {pre post : List Span} {s : Span}
    (h : Rep self (pre ++ post)) (hcap : (pre ++ post).length < CAP)
    (hu : (pre ++ post).length + 1 < 2 ^ 32) :
    ∃ self', self.insert pre.length s = .ok self' ∧ Rep self' (pre ++ s :: post) := by
  obtain ⟨k, hk⟩ := h.spans
  have hcount : self.count = pre.length + post.length := by rw [h.count]; simp
  have hlen := self.size
  rw [hk, List.length_append, List.length_replicate] at hlen
  obtain ⟨k, rfl⟩ : ∃ j, k = j + 1 := ⟨k - 1, by omega⟩
  obtain ⟨self₁, y, hrun, hs₁, hc₁⟩ := shiftUp_eq
    (show self.spans = pre ++ post ++ EMPTY_SPAN :: List.replicate k EMPTY_SPAN by
      simp [hk, List.replicate_succ])
  obtain ⟨self₂, hw, hs₂, hc₂⟩ := write_eq (t := s)
    (show self₁.spans = pre ++ y :: (post ++ List.replicate k EMPTY_SPAN) by simpa using hs₁)
  rw [List.length_append] at hcap hu
  refine ⟨{ self₂ with count := pre.length + post.length + 1 }, ?_, ⟨⟨k, ?_⟩, by simp; omega⟩⟩
  · simp only [insert, hcount, hcap, not_true, if_false, bind, Except.bind, pure, Except.pure,
      Nat.add_sub_cancel_left, hrun, hw, hc₂, hc₁, add, hu, if_true]
  · simp [hs₂]

theorem insert_full {self : FreeSpans CAP} {l : List Span} {idx : Nat} {s : Span}
    (h : Rep self l) (hcap : ¬ l.length < CAP) :
    self.insert idx s = .error (.debugAssert arrayFull) := by
  simp [insert, h.count, hcap, bind, Except.bind, throw, throwThe, MonadExceptOf.throw]

/-! ### `alloc` on the list -/

theorem add_ok {a b : Nat} (h : a + b < 2 ^ 32) : add a b = .ok (a + b) := if_pos h

theorem sub_ok {a b : Nat} (h : b ≤ a) : sub a b = .ok (a - b) := if_pos h

/-- First fit: the scan passes the spans that are too short and carves the first that is not. -/
theorem allocFrom_rep {self : FreeSpans CAP} {n : Nat} {pre rest : List Span}
    (h : Rep self (pre ++ rest)) (hu : ∀ s ∈ rest, s.stop < 2 ^ 32) :
    (∃ mid s post, rest = mid ++ s :: post ∧ (∀ t ∈ mid, t.len < n) ∧ n ≤ s.len ∧
      ∃ self', self.allocFrom n pre.length rest.length = .ok (self', some s.start) ∧
        Rep self' (pre ++ mid ++ carve s n ++ post)) ∨
    ((∀ t ∈ rest, t.len < n) ∧ self.allocFrom n pre.length rest.length = .ok (self, none)) := by
  induction rest generalizing pre with
  | nil => exact .inr ⟨by simp, rfl⟩
  | cons s post ih =>
    obtain ⟨k, hk⟩ := h.spans
    have hread := read_eq (show self.spans = pre ++ s :: (post ++ List.replicate k EMPTY_SPAN) by
      simp [hk])
    by_cases hfit : n ≤ s.len
    · -- this span fits: carve it, and drop it when nothing is left
      refine .inl ⟨[], s, post, rfl, by simp, hfit, ?_⟩
      have hstop := hu s (by simp)
      simp only [Span.stop] at hstop
      obtain ⟨self₁, hw, hs₁, hc₁⟩ := write_eq (t := ⟨s.start + n, s.len - n⟩)
        (show self.spans = pre ++ s :: (post ++ List.replicate k EMPTY_SPAN) by simp [hk])
      have hrep₁ : Rep self₁ (pre ++ ⟨s.start + n, s.len - n⟩ :: post) :=
        ⟨⟨k, by simp [hs₁]⟩, by rw [hc₁, h.count]; simp⟩
      simp only [List.length_cons, allocFrom, hread, bind, Except.bind, ge_iff_le, hfit, if_true,
        add_ok (show s.start + n < 2 ^ 32 by omega), sub_ok hfit, hw]
      by_cases hz : s.len - n = 0
      · obtain ⟨self₂, hr, hrep₂⟩ := remove_rep hrep₁
        rw [if_pos hz, hr]
        exact ⟨self₂, rfl, by simpa [carve, hz] using hrep₂⟩
      · rw [if_neg hz]
        exact ⟨self₁, rfl, by simpa [carve, hz] using hrep₁⟩
    · -- too short: the rest of the scan decides
      have hnext : self.allocFrom n pre.length (s :: post).length =
          self.allocFrom n (pre ++ [s]).length post.length := by
        simp only [List.length_cons, allocFrom, hread, bind, Except.bind, ge_iff_le, hfit, if_false,
          List.length_append, List.length_nil]
      have hlt : s.len < n := by omega
      have h' : Rep self (pre ++ [s] ++ post) := by simpa using h
      rcases ih h' (fun t ht => hu t (by simp [ht])) with
        ⟨mid, t, post', rfl, hmid, hle, self', hrun, hrep⟩ | ⟨hnone, hrun⟩
      · refine .inl ⟨s :: mid, t, post', rfl, ?_, hle, self', hnext.trans hrun, by simpa using hrep⟩
        simpa using ⟨hlt, hmid⟩
      · exact .inr ⟨by simpa using ⟨hlt, hnone⟩, hnext.trans hrun⟩

/-- **`alloc` (1_pool.rs:96)** hands out the front of the first span that fits, or changes nothing. -/
theorem alloc_rep {self : FreeSpans CAP} {l : List Span} (h : Rep self l) (n : Nat)
    (hu : ∀ s ∈ l, s.stop < 2 ^ 32) :
    (∃ pre s post, l = pre ++ s :: post ∧ (∀ t ∈ pre, t.len < n) ∧ n ≤ s.len ∧
      ∃ self', self.alloc n = .ok (self', some s.start) ∧ Rep self' (pre ++ carve s n ++ post)) ∨
    ((∀ t ∈ l, t.len < n) ∧ self.alloc n = .ok (self, none)) := by
  have := allocFrom_rep (n := n) (show Rep self ([] ++ l) from h) hu
  rw [alloc, h.count]
  simpa using this

/-! ### `free` on the list -/

/-- The scan stops at the first span that does not start below `start`. -/
theorem insertPoint_rep {self : FreeSpans CAP} {start : Nat} {pre mid post : List Span}
    (h : Rep self (pre ++ (mid ++ post))) (hmid : ∀ s ∈ mid, s.start < start)
    (hpost : ∀ s ∈ post, start ≤ s.start) :
    self.insertPoint start pre.length (mid ++ post).length = .ok (pre.length + mid.length) := by
  induction mid generalizing pre with
  | nil =>
    cases post with
    | nil => rfl
    | cons s post =>
      obtain ⟨k, hk⟩ := h.spans
      have hread := read_eq (show self.spans = pre ++ s :: (post ++ List.replicate k EMPTY_SPAN) by
        simp [hk])
      have := hpost s (by simp)
      simp only [List.nil_append, List.length_cons, insertPoint, hread, bind, Except.bind,
        show ¬ s.start < start by omega, if_false]
      rfl
  | cons s mid ih =>
    obtain ⟨k, hk⟩ := h.spans
    have hread := read_eq
      (show self.spans = pre ++ s :: (mid ++ post ++ List.replicate k EMPTY_SPAN) by simp [hk])
    have h' : Rep self (pre ++ [s] ++ (mid ++ post)) := by simpa using h
    have hrec := ih h' (fun t ht => hmid t (by simp [ht]))
    simp only [List.cons_append, List.length_cons, insertPoint, hread, bind, Except.bind,
      hmid s (by simp), if_true]
    rw [List.length_append, List.length_singleton] at hrec
    rw [hrec]
    congr 1; omega

/-- The outcome of returning an interval: the coalesced list if it fits the array. -/
def Frees (r : Checked (FreeSpans CAP)) (l : List Span) : Prop :=
  if l.length ≤ CAP then ∃ self', r = .ok self' ∧ Rep self' l else r = .error (.debugAssert arrayFull)

theorem insert_frees {self : FreeSpans CAP} {pre post : List Span} {m : Span}
    (h : Rep self (pre ++ post)) (hu : (pre ++ m :: post).length < 2 ^ 32) :
    Frees (self.insert pre.length m) (pre ++ m :: post) := by
  have hlen : (pre ++ m :: post).length = (pre ++ post).length + 1 := by simp; omega
  rw [hlen] at hu
  unfold Frees
  rw [hlen]
  split
  · rename_i hcap
    exact insert_rep h hcap hu
  · rename_i hcap
    exact insert_full h hcap

/-- Both outcomes of `freeLeft`: the left neighbour is extended, or `m` is inserted. -/
theorem freeLeft_frees {self : FreeSpans CAP} {start n : Nat} {pre post : List Span} {m : Span}
    (h : Rep self (pre ++ post)) (hfit : Fits pre m post) (hstop : m.stop < 2 ^ 32)
    (hu : (glueLeft pre m post).length < 2 ^ 32) :
    Frees (self.freeLeft start n pre.length m) (glueLeft pre m post) := by
  rcases List.eq_nil_or_concat pre with rfl | ⟨init, p, rfl⟩
  · simp only [glueLeft, List.getLast?_nil] at hu ⊢
    have hins := insert_frees h hu
    simpa [freeLeft, bind, Except.bind] using hins
  · rw [List.concat_eq_append] at *
    obtain ⟨k, hk⟩ := h.spans
    have hread := read_eq
      (show self.spans = init ++ p :: (post ++ List.replicate k EMPTY_SPAN) by simp [hk])
    have hp := hfit.left p (by simp)
    simp only [Span.stop] at hp hstop
    have hms : m.start ≤ m.start + m.len := by omega
    simp only [glueLeft, List.getLast?_append, List.getLast?_singleton, Option.some_or,
      List.dropLast_concat] at hu ⊢
    simp only [freeLeft, List.length_append, List.length_singleton, Nat.zero_lt_succ, gt_iff_lt,
      if_true, Nat.add_sub_cancel, hread, bind, Except.bind,
      add_ok (show p.start + p.len < 2 ^ 32 by omega), hp, not_true, if_false]
    by_cases htouch : p.start + p.len = m.start
    · -- the left neighbour touches: it grows in place, no fragment is added
      rw [if_pos (show p.stop = m.start from htouch)] at hu ⊢
      rw [if_pos htouch, add_ok (show p.len + m.len < 2 ^ 32 by omega)]
      obtain ⟨self', hw, hs, hc⟩ := write_eq (t := ⟨p.start, p.len + m.len⟩)
        (show self.spans = init ++ p :: (post ++ List.replicate k EMPTY_SPAN) by simp [hk])
      have hrep : Rep self' (init ++ ⟨p.start, p.len + m.len⟩ :: post) :=
        ⟨⟨k, by simp [hs]⟩, by rw [hc, h.count]; simp⟩
      rw [Frees, if_pos hrep.length_le]
      exact ⟨self', hw, hrep⟩
    · rw [if_neg (show ¬ p.stop = m.start from htouch)] at hu ⊢
      rw [if_neg htouch]
      have := insert_frees h hu
      rwa [List.length_append, List.length_singleton] at this

/-- **`free` (1_pool.rs:114)** is the coalescing insert, or the cap assert when that needs more
    than `CAP` fragments. -/
theorem free_frees {self : FreeSpans CAP} {pre post : List Span} {start n : Nat}
    (h : Rep self (pre ++ post)) (hfit : Fits pre ⟨start, n⟩ post)
    (hpre : ∀ s ∈ pre, s.start < start) (hstop : ∀ s ∈ post, s.stop < 2 ^ 32)
    (hn : start + n < 2 ^ 32) (hu : (giveBack pre ⟨start, n⟩ post).length < 2 ^ 32) :
    Frees (self.free start n) (giveBack pre ⟨start, n⟩ post) := by
  have hpos : ¬ n = 0 := by have := hfit.pos; simp only at this; omega
  have hge : ∀ s ∈ post, start ≤ s.start := fun s hs => by
    have := hfit.right s hs
    simp only [Span.stop] at this; omega
  have hpoint := insertPoint_rep (show Rep self ([] ++ (pre ++ post)) from h) hpre hge
  simp only [List.length_nil, Nat.zero_add] at hpoint
  obtain ⟨hfit', -, -, -⟩ := glueRight_spec hfit
  simp only [free, hpos, if_false, h.count, bind, Except.bind, hpoint]
  cases post with
  | nil =>
    rw [if_neg (by simp)]
    exact freeLeft_frees h hfit hn hu
  | cons r rest =>
    obtain ⟨k, hk⟩ := h.spans
    have hread := read_eq
      (show self.spans = pre ++ r :: (rest ++ List.replicate k EMPTY_SPAN) by simp [hk])
    have hr := hstop r (by simp)
    rw [if_pos (by simp), add_ok hn]
    simp only [hread]
    by_cases htouch : start + n = r.start
    · -- the right neighbour is swallowed first
      rw [giveBack, glueRight, if_pos (show Span.stop ⟨start, n⟩ = r.start from htouch)] at hu ⊢
      rw [glueRight, if_pos (show Span.stop ⟨start, n⟩ = r.start from htouch)] at hfit'
      simp only [Span.stop] at hr
      rw [if_pos htouch, add_ok (show n + r.len < 2 ^ 32 by omega)]
      obtain ⟨self', hrm, hrep⟩ := remove_rep h
      simp only [hrm]
      exact freeLeft_frees hrep hfit' (by simp only [Span.stop]; omega) hu
    · rw [giveBack, glueRight, if_neg (show ¬ Span.stop ⟨start, n⟩ = r.start from htouch)] at hu ⊢
      rw [if_neg htouch]
      exact freeLeft_frees h hfit hn hu

end FreeSpans
end Redux.Pool
