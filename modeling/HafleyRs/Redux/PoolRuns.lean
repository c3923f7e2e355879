import HafleyRs.Lib.Machine
import HafleyRs.Redux.Pool

/-!
# Runs of the pool (`crates/redux/src/1_pool.rs`)

A pool and its caller: `live` holds the handles handed out and not yet given back. `Sound` is the
invariant the header of `FreeSpans` promises (1_pool.rs:58), with the complement spelled out; one
call keeps it (`call_sound`), so every run does.

The array is fixed. A `free` whose coalesced list needs more than `CAP` spans trips the cap assert
of `insert`, and nothing else panics; by `frag_le` that takes more than `CAP` non-empty live
allocations, which is how the source asks for `CAP` to be sized (1_pool.rs:53).
-/

namespace Redux.Pool
open Intervals

/-- A pool and the allocations its caller holds. -/
structure Heap (CAP : Nat) where
  pool : FreeSpans CAP
  live : List Handle
deriving DecidableEq, Repr

inductive Call where
  | alloc (n : Nat)
  | free (handle : Handle)
deriving DecidableEq, Repr

namespace Heap
variable {CAP : Nat}

def new (len : Nat) : Heap CAP := ⟨FreeSpans.new len, []⟩

/-- `Pool::alloc` (1_pool.rs:223) and `Pool::free` (1_pool.rs:228), with the caller's bookkeeping. -/
def call (s : Heap CAP) : Call → Checked (Heap CAP)
  | .alloc n => do
    let (pool, start) ← s.pool.alloc n
    match start with
    | some start => return ⟨pool, ⟨start, n⟩ :: s.live⟩
    | none => return { s with pool }
  | .free h => do
    let pool ← s.pool.free h.start h.len
    return ⟨pool, s.live.erase h⟩

/-- What a caller may ask for: a `u32` length, or a handle it holds. -/
def May (s : Heap CAP) : Call → Prop
  | .alloc n => n < 2 ^ 32
  | .free h => h ∈ s.live

instance (s : Heap CAP) (c : Call) : Decidable (s.May c) :=
  match c with
  | .alloc n => inferInstanceAs (Decidable (n < 2 ^ 32))
  | .free h => inferInstanceAs (Decidable (h ∈ s.live))

def Step : Heap CAP → Call → Heap CAP → Prop :=
  Machine.guarded May fun s c t => s.call c = .ok t

/-- `Step` as a function. -/
def perform (s : Heap CAP) (c : Call) : Option (Heap CAP) :=
  if s.May c then (s.call c).toOption else none

theorem run_of_perform {s t : Heap CAP} {calls : List Call}
    (h : Machine.exec perform s calls = some t) : Machine.Run Step s calls t := by
  refine Machine.run_of_exec (fun s c t hst => ?_) h
  rw [perform] at hst
  split at hst
  · rename_i hmay
    refine ⟨hmay, ?_⟩
    cases hc : s.call c with
    | ok u => rw [hc] at hst; cases hst; exact hc
    | error e => rw [hc] at hst; cases hst
  · cases hst

def frags (s : Heap CAP) : List Span := s.pool.spans.take s.pool.count

def liveSpans (s : Heap CAP) : List Span := s.live.map Handle.span

/-- The number of live allocations that take up room. -/
def occupied (s : Heap CAP) : Nat := (s.live.filter fun h => 0 < h.len).length

/-- The allocator's invariant over `[0, n)`. -/
structure Sound (n : Nat) (s : Heap CAP) : Prop where
  count_le   : s.pool.count ≤ CAP
  tail       : s.pool.spans.drop s.pool.count = List.replicate (CAP - s.pool.count) EMPTY_SPAN
  separated  : Separated s.frags
  complement : ∀ i, Covers s.frags i ↔ i < n ∧ ¬ Covers s.liveSpans i
  disjoint   : s.liveSpans.Pairwise Span.Disj
  inside     : ∀ h ∈ s.live, h.start + h.len ≤ n
  conserved  : ∃ free, s.pool.freeTotal = .ok free ∧ free + total s.liveSpans = n

/-! ## `Sound` and the list an array stands for -/

theorem Sound.rep {n : Nat} {s : Heap CAP} (h : Sound n s) : FreeSpans.Rep s.pool s.frags := by
  refine ⟨⟨CAP - s.pool.count, ?_⟩, ?_⟩
  · rw [← h.tail, frags, List.take_append_drop]
  · rw [frags, List.length_take, s.pool.size, Nat.min_eq_left h.count_le]

theorem Sound.total_eq {n : Nat} {s : Heap CAP} (h : Sound n s) :
    total s.frags + total s.liveSpans = n := by
  obtain ⟨free, hf, ht⟩ := h.conserved
  rw [FreeSpans.freeTotal, if_pos h.count_le] at hf
  cases hf
  exact ht

theorem Sound.below {n : Nat} {s : Heap CAP} (h : Sound n s) {t : Span} (ht : t ∈ s.frags) :
    t.stop ≤ n := by
  have hpos := h.separated.pos t ht
  have hlast := ((h.complement (t.start + t.len - 1)).1 ⟨t, ht, by
    simp only [Span.mem_iff]; omega⟩).1
  simp only [Span.stop]; omega

/-- To re-establish `Sound`, name the list the new array stands for. -/
theorem sound_of_rep {n : Nat} {s : Heap CAP} {l : List Span} (hrep : FreeSpans.Rep s.pool l)
    (hsep : Separated l) (hcomp : ∀ i, Covers l i ↔ i < n ∧ ¬ Covers s.liveSpans i)
    (hdisj : s.liveSpans.Pairwise Span.Disj) (hin : ∀ h ∈ s.live, h.start + h.len ≤ n)
    (htot : total l + total s.liveSpans = n) : Sound n s := by
  have hl : s.frags = l := hrep.take
  have hle : s.pool.count ≤ CAP := by rw [hrep.count]; exact hrep.length_le
  refine ⟨hle, hrep.drop, hl ▸ hsep, hl ▸ hcomp, hdisj, hin, total l, ?_, htot⟩
  rw [FreeSpans.freeTotal, if_pos hle, hrep.take]

theorem new_sound {n : Nat} (hcap : 0 < CAP ∨ n = 0) : Sound n (new n : Heap CAP) := by
  refine sound_of_rep (FreeSpans.new_rep n) ?_ ?_ .nil (by simp [new]) ?_
  · split
    · exact separated_cons.2 ⟨by simp only; omega, by simp, separated_nil⟩
    · exact separated_nil
  · intro i
    split
    · simp [liveSpans, new, Span.mem_iff]
    · simp only [covers_nil, liveSpans, new, List.map_nil, not_false_eq_true, and_true, false_iff]
      omega
  · split
    · simp [liveSpans, new]
    · simp only [total_nil, liveSpans, new, List.map_nil]; omega

/-! ## `alloc` -/

theorem alloc_sound {n k : Nat} {s : Heap CAP} (h : Sound n s) (hn : n < 2 ^ 32) :
    ∃ t, s.call (.alloc k) = .ok t ∧ Sound n t := by
  rcases FreeSpans.alloc_rep h.rep k (fun t ht => lt_of_le_of_lt (h.below ht) hn) with
    ⟨l, f, r, hl, -, hfit, pool, hrun, hrep⟩ | ⟨-, hrun⟩
  · refine ⟨⟨pool, ⟨f.start, k⟩ :: s.live⟩, by simp [call, hrun]; rfl, ?_⟩
    have hsep := h.separated
    have hf : f ∈ s.frags := by rw [hl]; simp
    have hpre : ∀ {i}, i ∈ (⟨f.start, k⟩ : Span) → i ∈ f := fun hi =>
      (covers_carve hfit).2 (.inl hi)
    have hcomp := h.complement
    rw [hl] at hsep hcomp
    have hoff := hsep.off_middle
    refine sound_of_rep hrep (carve_separated hsep hfit) (fun i => ?_) ?_ ?_ ?_
    · have hc := hcomp i
      have hsplit := covers_carve (i := i) hfit
      have hcarve := carve_off (s := f) (n := k) (i := i)
      have hi := hoff i
      simp only [liveSpans, List.map_cons, covers_cons, covers_append, Handle.span] at hc ⊢
      tauto
    · refine List.pairwise_cons.2 ⟨fun b hb i hi hib => ?_, h.disjoint⟩
      exact ((h.complement i).1 ⟨f, hf, hpre hi⟩).2 ⟨b, hb, hib⟩
    · intro b hb
      rcases List.mem_cons.1 hb with rfl | hb
      · have := h.below hf
        simp only [Span.stop] at this ⊢; omega
      · exact h.inside b hb
    · have htot := h.total_eq
      have := total_carve hfit
      rw [hl] at htot
      simp only [liveSpans, List.map_cons, total_append, total_cons, Handle.span] at htot ⊢
      omega
  · exact ⟨s, by simp [call, hrun]; rfl, h⟩

/-! ## Fragments -/

/-- The spans between handles that fill the rest of `[0, n)` are at most one more than the handles
    that take up room. -/
theorem frag_le_occupied {n : Nat} {l : List Span} {live : List Handle} (hsep : Separated l)
    (hcomp : ∀ i, Covers l i ↔ i < n ∧ ¬ Covers (live.map Handle.span) i) :
    l.length ≤ (live.filter fun b => 0 < b.len).length + 1 := by
  have hfrag : l.length ≤ ((live.filter fun b => 0 < b.len).map Handle.span).length + 1 :=
    frag_le hsep (fun i hi => ((hcomp i).1 hi).1) (fun i hi hc => ?_) (fun i hi => ?_)
  · rwa [List.length_map] at hfrag
  · refine ((hcomp i).1 hi).2 ?_
    obtain ⟨b, hb, hib⟩ := hc
    obtain ⟨c, hc, rfl⟩ := List.mem_map.1 hb
    exact ⟨c.span, List.mem_map_of_mem (List.mem_of_mem_filter hc), hib⟩
  · by_cases hc : Covers (live.map Handle.span) i
    · obtain ⟨b, hb, hib⟩ := hc
      obtain ⟨c, hc, rfl⟩ := List.mem_map.1 hb
      refine .inr ⟨c.span, List.mem_map_of_mem (List.mem_filter.2 ⟨hc, ?_⟩), hib⟩
      simp only [Span.mem_iff, Handle.span] at hib
      simp only [decide_eq_true_eq]; omega
    · exact .inl ((hcomp i).2 ⟨hi, hc⟩)

theorem Sound.count_le_occupied {n : Nat} {s : Heap CAP} (h : Sound n s) :
    s.pool.count ≤ s.occupied + 1 := by
  have hlen := frag_le_occupied h.separated h.complement
  rwa [frags, List.length_take, s.pool.size, Nat.min_eq_left h.count_le] at hlen

theorem occupied_le (s : Heap CAP) : s.occupied ≤ s.live.length := List.length_filter_le _ _

/-! ## `free` -/

theorem liveSpans_perm {s : Heap CAP} {h : Handle} (hm : h ∈ s.live) :
    s.liveSpans.Perm (h.span :: (s.live.erase h).map Handle.span) :=
  (List.perm_cons_erase hm).map Handle.span

theorem free_sound {n : Nat} {s : Heap CAP} {h : Handle} (hs : Sound n s) (hn : n < 2 ^ 32)
    (hm : h ∈ s.live) : (∃ t, s.call (.free h) = .ok t ∧ Sound n t) ∨
      (s.call (.free h) = .error (.debugAssert FreeSpans.arrayFull) ∧ CAP < s.occupied) := by
  have hperm := liveSpans_perm hm
  have hin := hs.inside h hm
  have htot := hs.total_eq
  have hdisj := hperm.pairwise hs.disjoint fun hab => hab.symm
  rw [List.pairwise_cons] at hdisj
  rw [total_perm hperm, total_cons] at htot
  have hlive : ∀ b ∈ s.live.erase h, b.start + b.len ≤ n := fun b hb =>
    hs.inside b (List.mem_of_mem_erase hb)
  have hcomp : ∀ i, Covers s.frags i ↔
      i < n ∧ ¬ (i ∈ h.span ∨ Covers ((s.live.erase h).map Handle.span) i) := fun i => by
    rw [hs.complement i, covers_perm hperm, covers_cons]
  by_cases hz : h.len = 0
  · -- a zero-width handle covers nothing, so giving it back is no change
    refine .inl ⟨⟨s.pool, s.live.erase h⟩, by simp [call, FreeSpans.free, hz]; rfl, ?_⟩
    refine sound_of_rep hs.rep hs.separated (fun i => ?_) hdisj.2 hlive ?_
    · have hi : i ∉ h.span := by simp only [Span.mem_iff, Handle.span]; omega
      rw [hcomp i]; simp [liveSpans, hi]
    · simp only [liveSpans, Handle.span] at htot ⊢; omega
  · have hpos : 0 < h.span.len := Nat.pos_of_ne_zero hz
    have hoff : ∀ i, i ∈ h.span → ¬ Covers s.frags i := fun i hi hc => ((hcomp i).1 hc).2 (.inl hi)
    obtain ⟨l, r, hl, hfit, hbelow⟩ := hs.separated.split_at hpos hoff
    obtain ⟨hsep, hcov, hlen⟩ := giveBack_spec hfit
    rw [← hl] at hcov hlen
    have hcomp' : ∀ i, Covers (giveBack l h.span r) i ↔
        i < n ∧ ¬ Covers ((s.live.erase h).map Handle.span) i := fun i => by
      have hdis : i ∈ h.span → ¬ Covers ((s.live.erase h).map Handle.span) i := by
        rintro hi ⟨b, hb, hib⟩
        exact hdisj.1 b hb i hi hib
      have hlt : i ∈ h.span → i < n := fun hi => by
        simp only [Span.mem_iff, Handle.span] at hi; omega
      rw [hcov, hcomp i]
      tauto
    have htot' : total (giveBack l h.span r) + total ((s.live.erase h).map Handle.span) = n := by
      omega
    have hshort := hsep.length_le_total
    have hfrees := FreeSpans.free_frees (hl ▸ hs.rep) hfit hbelow
      (fun t ht => lt_of_le_of_lt (hs.below (hl ▸ List.mem_append_right l ht)) hn)
      (by omega) (show (giveBack l h.span r).length < 2 ^ 32 by omega)
    rw [show (⟨h.start, h.len⟩ : Span) = h.span from rfl] at hfrees
    unfold FreeSpans.Frees at hfrees
    split at hfrees
    · obtain ⟨pool, hrun, hrep⟩ := hfrees
      exact .inl ⟨⟨pool, s.live.erase h⟩, by simp only [call, hrun]; rfl,
        sound_of_rep hrep hsep hcomp' hdisj.2 hlive htot'⟩
    · rename_i hcap
      refine .inr ⟨by simp only [call, hfrees]; rfl, ?_⟩
      have hfrag := frag_le_occupied hsep hcomp'
      have hocc : s.occupied = ((s.live.erase h).filter fun b => 0 < b.len).length + 1 := by
        rw [occupied, ((List.perm_cons_erase hm).filter _).length_eq, List.filter_cons_of_pos]
        · rfl
        · simpa [Handle.span] using hpos
      omega

/-! ## Runs -/

/-- One call on a sound heap returns a sound heap, or it is a `free` that trips the cap assert
    with more than `CAP` non-empty allocations live. -/
theorem call_sound {n : Nat} {s : Heap CAP} {c : Call} (hs : Sound n s) (hn : n < 2 ^ 32)
    (hmay : s.May c) : (∃ t, s.call c = .ok t ∧ Sound n t) ∨
      (s.call c = .error (.debugAssert FreeSpans.arrayFull) ∧ CAP < s.occupied) := by
  cases c with
  | alloc k => exact .inl (alloc_sound hs hn)
  | free h => exact free_sound hs hn hmay

theorem step_sound {n : Nat} {s t : Heap CAP} {c : Call} (hn : n < 2 ^ 32) (hs : Sound n s)
    (hstep : Step s c t) : Sound n t := by
  obtain ⟨hmay, hcall⟩ := hstep
  rcases call_sound hs hn hmay with ⟨u, hu, hsound⟩ | ⟨herr, -⟩
  · rw [hu] at hcall
    cases hcall
    exact hsound
  · rw [herr] at hcall
    cases hcall

/-- **Pool soundness**: from `new n`, every call of every run finds a sound heap and either returns
    or trips the cap assert; in particular no `u32` operation overflows and no index is out of
    bounds. -/
theorem run_sound {n : Nat} (hn : n < 2 ^ 32) (hcap : 0 < CAP ∨ n = 0) {calls : List Call}
    {s : Heap CAP} (hrun : Machine.Run Step (new n) calls s) :
    Sound n s ∧ ∀ c, s.May c → (∃ t, s.call c = .ok t) ∨
      (s.call c = .error (.debugAssert FreeSpans.arrayFull) ∧ CAP < s.occupied) := by
  have hs : Sound n s :=
    hrun.invariant (fun _ _ _ hs hstep => step_sound hn hs hstep) (new_sound hcap)
  refine ⟨hs, fun c hmay => ?_⟩
  rcases call_sound hs hn hmay with ⟨t, ht, -⟩ | herr
  · exact .inl ⟨t, ht⟩
  · exact .inr herr

theorem run_sound_hundred :
    let s : Heap 2 := ⟨⟨[⟨10, 90⟩, EMPTY_SPAN], 1, rfl⟩, [⟨0, 10⟩]⟩
    Sound 100 s ∧ ∀ c, s.May c → (∃ t, s.call c = .ok t) ∨
      (s.call c = .error (.debugAssert FreeSpans.arrayFull) ∧ 2 < s.occupied) :=
  run_sound (by decide) (by decide)
    (run_of_perform (show Machine.exec perform (new 100) [.alloc 10] = some _ by decide))

/-- Where the promise stops: without room for a span the free range is lost, and one span of room
    is not enough for the two fragments that giving back both ends of `[0, 3)` leaves. -/
theorem run_past_cap :
    (∃ s : Heap 0, Machine.Run Step (new 1) [.alloc 1] s ∧ ¬ Sound 1 s) ∧
    ∃ s : Heap 1, Machine.Run Step (new 3) [.alloc 1, .alloc 1, .alloc 1, .free ⟨0, 1⟩] s ∧
      s.May (.free ⟨2, 1⟩) ∧ s.call (.free ⟨2, 1⟩) = .error (.debugAssert FreeSpans.arrayFull) := by
  refine ⟨⟨⟨⟨[], 0, rfl⟩, []⟩, run_of_perform (by decide), fun h => ?_⟩, ?_⟩
  · have hfree := (h.complement 0).2 ⟨by decide, by simp [liveSpans]⟩
    simp [frags] at hfree
  · exact ⟨⟨⟨[⟨0, 1⟩], 1, rfl⟩, [⟨2, 1⟩, ⟨1, 1⟩]⟩, run_of_perform (by decide), by decide, by decide⟩

/-! ## A caller with a bound -/

/-- The steps that leave at most `K` handles live. -/
def StepWithin (K : Nat) (s : Heap CAP) (c : Call) (t : Heap CAP) : Prop :=
  Step s c t ∧ t.live.length ≤ K

/-- **`CAP >= K + 1` (1_pool.rs:53)**: with at most `K` live allocations at any time there are at most
    `K + 1` free spans, and no call panics. -/
theorem frags_within {n K : Nat} (hn : n < 2 ^ 32) (hcap : K + 1 ≤ CAP) {calls : List Call}
    {s : Heap CAP} (hrun : Machine.Run (StepWithin K) (new n) calls s) :
    s.pool.fragCount ≤ K + 1 ∧ ∀ c, s.May c → ∃ t, s.call c = .ok t := by
  have hinv : Sound n s ∧ s.live.length ≤ K := by
    have hkeeps : ∀ (s : Heap CAP) c t, Sound n s ∧ s.live.length ≤ K → StepWithin K s c t →
        Sound n t ∧ t.live.length ≤ K := by
      rintro s c t ⟨hs, -⟩ ⟨hstep, hlive⟩
      exact ⟨step_sound hn hs hstep, hlive⟩
    exact hrun.invariant hkeeps ⟨new_sound (.inl (by omega)), Nat.zero_le K⟩
  obtain ⟨hs, hlive⟩ := hinv
  have hocc := s.occupied_le
  refine ⟨?_, fun c hmay => ?_⟩
  · have hcount := hs.count_le_occupied
    rw [FreeSpans.fragCount]
    omega
  · rcases call_sound hs hn hmay with ⟨t, ht, -⟩ | ⟨-, hfull⟩
    · exact ⟨t, ht⟩
    · omega

theorem frags_within_one :
    let s : Heap 2 := ⟨⟨[⟨10, 90⟩, EMPTY_SPAN], 1, rfl⟩, [⟨0, 10⟩]⟩
    s.pool.fragCount ≤ 1 + 1 ∧ ∀ c, s.May c → ∃ t, s.call c = .ok t :=
  frags_within (n := 100) (by decide) (by decide)
    (.cons (a := .alloc 10) ⟨⟨by decide, by decide⟩, by decide⟩ (.nil _))

end Heap
end Redux.Pool
