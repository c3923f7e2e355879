import HafleyRs.Lib.BTree
import HafleyRs.Lib.Machine
import HafleyRs.SqliteExt.Collector

/-!
# Batches are the surviving changes (`crates/sqlite-ext/src/collector.rs`)

`Holds` says that the staged rows and the shadow table together are what is pending in a list of events. A `Frame` is
one savepoint as all sides see it: the collector's mark, what stood when it was opened, and where the ledger was. Its
staged rows are in `staged` and `applied` as long as it is open (`Frame.Kept`).
-/

namespace SqliteExt
open Savepoints

/-! ## Pending updates -/

def Event.isUpdate : Event → Bool
  | .update _ => true
  | .drain => false

/-- How many sequence numbers the events have used. -/
def written (events : List Event) : Nat := events.countP Event.isUpdate

theorem pending_update (i : Nat) (events : List Event) (change : RowChange) :
    pending i (events ++ [.update change]) =
      pending i events ++ [{ change with sequence := i + written events }] := by
  induction events generalizing i with
  | nil => simp [pending, written]
  | cons e events ih =>
    cases e with
    | update c =>
      have hcount : i + 1 + written events = i + written (.update c :: events) := by
        rw [written, written, List.countP_cons_of_pos rfl]
        omega
      by_cases hd : Event.drain ∈ events
      · simp [pending, hd, ih, hcount]
      · simp [pending, hd, ih, hcount]
    | drain =>
      have hcount : written (.drain :: events) = written events := List.countP_cons_of_neg (by simp [Event.isUpdate])
      simp [pending, ih, hcount]

theorem pending_drain (i : Nat) (events : List Event) : pending i (events ++ [.drain]) = [] := by
  induction events generalizing i with
  | nil => rfl
  | cons e events ih =>
    cases e with
    | update c => simp [pending, ih]
    | drain => simp [pending, ih]

theorem written_append (events events' : List Event) : written (events ++ events') = written events + written events' :=
  List.countP_append

/-- Pending updates have the last numbers, one after the other. -/
theorem pending_sequences (events : List Event) : ∃ k, k + (pending 0 events).length = written events ∧
    (pending 0 events).map (·.sequence) = List.range' k (pending 0 events).length := by
  induction events using List.reverseRecOn with
  | nil => exact ⟨0, rfl, rfl⟩
  | append_singleton events e ih =>
    obtain ⟨k, hk, hseq⟩ := ih
    cases e with
    | update c =>
      have hone : written [.update c] = 1 := rfl
      refine ⟨k, ?_, ?_⟩
      · rw [pending_update, written_append, hone, List.length_append, List.length_singleton]
        omega
      · rw [pending_update, List.map_append, hseq, List.length_append, List.length_singleton, List.range'_append_1.symm]
        simp [hk]
    | drain =>
      refine ⟨written events, ?_, ?_⟩
      · rw [pending_drain, written_append]
        rfl
      · rw [pending_drain]
        rfl

theorem pending_sorted (events : List Event) : (pending 0 events).Pairwise fun a b => a.sequence < b.sequence := by
  obtain ⟨k, -, hseq⟩ := pending_sequences events
  have hrange : ((pending 0 events).map (·.sequence)).Pairwise (· < ·) := hseq ▸ List.pairwise_lt_range'
  exact List.pairwise_map.1 hrange

theorem pending_lt {events : List Event} {r : RowChange} (hr : r ∈ pending 0 events) : r.sequence < written events := by
  obtain ⟨k, hk, hseq⟩ := pending_sequences events
  have hmem : r.sequence ∈ (pending 0 events).map (·.sequence) := List.mem_map_of_mem hr
  rw [hseq, List.mem_range'_1] at hmem
  omega

/-! ## What the collector holds -/

/-- Rows sorted by distinct numbers are determined by what they are. -/
theorem sort_eq {rows sorted : List RowChange} (h : rows.Perm sorted)
    (hsorted : sorted.Pairwise fun a b => a.sequence < b.sequence) :
    (rows.insertionSort fun a b => a.sequence ≤ b.sequence) = sorted := by
  have hperm := (List.perm_insertionSort (fun a b : RowChange => a.sequence ≤ b.sequence) rows).trans h
  refine eq_of_sortedByKey (·.sequence) ?_ (sortByKey_pairwise _ _) (hsorted.imp fun h => h.le) hperm
  intro a ha b hb hab
  by_contra hne
  have hsymm : Std.Symm fun a b : RowChange => a.sequence ≠ b.sequence := ⟨fun _ _ h => h.symm⟩
  exact (hsorted.imp fun h => h.ne).forall (hperm.mem_iff.1 ha) hb hne hab

structure Holds (sizes : Sizes) (rowCap byteCap : Nat) (v : View) (events : List Event) : Prop where
  perm          : (v.staged ++ v.shadow).Perm (pending 0 events)
  staged_sorted : v.staged.Pairwise fun a b => a.sequence < b.sequence
  shadow_sorted : v.shadow.Pairwise fun a b => a.sequence < b.sequence
  next          : v.nextSequence = written events
  spilled       : v.spilledRows = v.shadow.length
  bytes         : v.stagedBytes = (v.staged.map (rowBytes sizes)).sum
  row_cap       : v.staged.length ≤ rowCap
  byte_cap      : v.stagedBytes ≤ byteCap

section
variable {sizes : Sizes} {rowCap byteCap : Nat}

theorem holds_empty : Holds sizes rowCap byteCap .empty [] :=
  ⟨.refl _, .nil, .nil, rfl, rfl, rfl, Nat.zero_le _, Nat.zero_le _⟩

theorem Holds.lt {v : View} {events : List Event} (h : Holds sizes rowCap byteCap v events) :
    (∀ r ∈ v.staged, r.sequence < v.nextSequence) ∧ ∀ r ∈ v.shadow, r.sequence < v.nextSequence := by
  have hall : ∀ r ∈ v.staged ++ v.shadow, r.sequence < v.nextSequence := fun r hr =>
    h.next ▸ pending_lt (h.perm.mem_iff.1 hr)
  exact ⟨fun r hr => hall r (List.mem_append_left _ hr), fun r hr => hall r (List.mem_append_right _ hr)⟩

/-- A row more, staged or spilled. -/
theorem Holds.update {v : View} {events : List Event} (h : Holds sizes rowCap byteCap v events) (change : RowChange) :
    let row := { change with sequence := v.nextSequence }
    (v.staged.length < rowCap ∧ v.stagedBytes + rowBytes sizes row ≤ byteCap →
      Holds sizes rowCap byteCap ⟨v.staged ++ [row], v.stagedBytes + rowBytes sizes row, v.spilledRows,
        v.nextSequence + 1, v.shadow⟩ (events ++ [.update change])) ∧
      Holds sizes rowCap byteCap ⟨v.staged, v.stagedBytes, v.spilledRows + 1, v.nextSequence + 1, v.shadow ++ [row]⟩
        (events ++ [.update change]) := by
  intro row
  have hpending : pending 0 (events ++ [.update change]) = pending 0 events ++ [row] := by
    rw [pending_update, Nat.zero_add, ← h.next]
  have hnext : v.nextSequence + 1 = written (events ++ [.update change]) := by
    rw [written_append, h.next]
    rfl
  obtain ⟨hstaged, hshadow⟩ := h.lt
  constructor
  · rintro ⟨hrows, hbytes⟩
    refine ⟨?_, ?_, h.shadow_sorted, hnext, h.spilled, ?_, ?_, hbytes⟩
    · rw [hpending, List.append_assoc]
      refine (List.Perm.append_left _ List.perm_append_comm).trans ?_
      rw [← List.append_assoc]
      exact h.perm.append_right _
    · refine List.pairwise_append.2 ⟨h.staged_sorted, List.pairwise_singleton _ _, fun a ha b hb => ?_⟩
      rw [List.mem_singleton.1 hb]
      exact hstaged a ha
    · simp [h.bytes]
    · simp
      omega
  · refine ⟨?_, h.staged_sorted, ?_, hnext, ?_, h.bytes, h.row_cap, h.byte_cap⟩
    · rw [hpending, ← List.append_assoc]
      exact h.perm.append_right _
    · refine List.pairwise_append.2 ⟨h.shadow_sorted, List.pairwise_singleton _ _, fun a ha b hb => ?_⟩
      rw [List.mem_singleton.1 hb]
      exact hshadow a ha
    · simp [h.spilled]

theorem Holds.drained {v : View} {events : List Event} (h : Holds sizes rowCap byteCap v events) :
    Holds sizes rowCap byteCap ⟨[], 0, 0, v.nextSequence, []⟩ (events ++ [.drain]) := by
  refine ⟨?_, .nil, .nil, ?_, rfl, rfl, Nat.zero_le _, Nat.zero_le _⟩
  · rw [pending_drain]
    exact .refl _
  · rw [written_append, h.next]
    rfl

/-- **A drain returns what is pending.** -/
theorem Holds.batch {v : View} {events : List Event} (h : Holds sizes rowCap byteCap v events) :
    (v.staged.merge (Collector.readShadow v.shadow) fun left right => left.sequence ≤ right.sequence) =
      pending 0 events := by
  have hread : Collector.readShadow v.shadow = v.shadow := sort_eq (.refl _) h.shadow_sorted
  have hsort : (v.staged.merge v.shadow fun left right => left.sequence ≤ right.sequence).Pairwise
      fun a b => a.sequence ≤ b.sequence := by
    have hmerge := @List.pairwise_merge RowChange (fun a b => decide (a.sequence ≤ b.sequence))
      (fun a b c => by simp only [decide_eq_true_eq]; exact le_trans)
      (fun a b => by simp only [Bool.or_eq_true, decide_eq_true_eq]; exact le_total _ _) v.staged v.shadow
      (h.staged_sorted.imp fun h => by simpa using h.le) (h.shadow_sorted.imp fun h => by simpa using h.le)
    exact hmerge.imp fun h => by simpa using h
  rw [hread]
  have hperm : (v.staged.merge v.shadow fun left right => left.sequence ≤ right.sequence).Perm (pending 0 events) :=
    List.Perm.trans (List.merge_perm_append _) h.perm
  exact hsort.insertionSort_eq.symm.trans (sort_eq hperm (pending_sorted events))

end
/-! ## Savepoints as all sides see them -/

structure Frame where
  index  : Nat
  view   : View
  drains : Nat
  /-- Where the ledger was. -/
  length : Nat

def Frame.mark (f : Frame) : Mark := ⟨f.index, f.view.spilledRows, f.view.nextSequence, f.drains⟩

/-- The rows to return to: those in memory, and those a drain since delivered from memory. -/
def Frame.back (f : Frame) (staged : List RowChange) (applied : List (RowChange × Nat)) : List RowChange :=
  (staged.filter fun change => change.sequence < f.view.nextSequence) ++
    (((applied.filter fun x => f.drains ≤ x.2).map (·.1)).filter fun change => change.sequence < f.view.nextSequence)

/-- Outer savepoints are older. -/
def Frame.Older (f g : Frame) : Prop :=
  f.drains ≤ g.drains ∧ f.view.nextSequence ≤ g.view.nextSequence ∧ f.length ≤ g.length

/-- What stood at an open savepoint is still at hand. -/
structure Frame.Kept (sizes : Sizes) (c : Collector) (events : List Event) (f : Frame) : Prop where
  length_le : f.length ≤ events.length
  holds     : Holds sizes c.stagedRowCap c.stagedByteCap f.view (events.take f.length)
  back      : (f.back c.staged c.applied).Perm f.view.staged
  drains_le : f.drains ≤ c.drains
  next_le   : f.view.nextSequence ≤ c.nextSequence

/-- Transaction and ledger agree. -/
structure Agrees (sizes : Sizes) (t : Transaction) (l : Ledger) (fs : List Frame) : Prop where
  holds      : Holds sizes t.collector.stagedRowCap t.collector.stagedByteCap t.view l.events
  batches    : t.batches = l.batches
  saved      : t.saved = fs.map fun f => (f.index, f.view)
  marks      : t.collector.marks = fs.map Frame.mark
  ledger     : l.marks = fs.map fun f => (f.index, f.length)
  nested     : Nested Frame.index Frame.Older fs
  contiguous : Contiguous Frame.index t.depth fs
  kept       : ∀ f ∈ fs, f.Kept sizes t.collector l.events
  applied_lt : ∀ x ∈ t.collector.applied, x.2 < t.collector.drains

section
variable {sizes : Sizes} {t : Transaction} {l : Ledger} {fs : List Frame}

theorem start_agrees (sizes : Sizes) (c : Collector) (depth : Nat) :
    Agrees sizes (Transaction.start c depth) .empty [] :=
  ⟨holds_empty, rfl, rfl, rfl, rfl, .nil, .nil, by simp, by simp [Transaction.start, Collector.begin', Collector.reset]⟩

/-! ### One lemma a call -/

theorem Agrees.update (h : Agrees sizes t l fs) (change : RowChange) :
    Agrees sizes (t.call sizes (.update change)) (l.call t.collector.width (.update change)) fs := by
  by_cases hwide : change.values.length > t.collector.width
  · simpa [Transaction.call, Collector.update, Ledger.call, hwide] using h
  · obtain ⟨hroom, hfull⟩ := h.holds.update change
    have hlen : ∀ f ∈ fs, f.length ≤ (l.events ++ [Event.update change]).length ∧
        (l.events ++ [Event.update change]).take f.length = l.events.take f.length := fun f hf => by
      have hle := (h.kept f hf).length_le
      exact ⟨by simp; omega, List.take_append_of_le_length hle⟩
    simp only [Transaction.call, Collector.update, Ledger.call, if_neg hwide]
    split
    · rename_i hcond
      split at hcond
      · cases hcond
      · cases hcond
    · rename_i c shadow hcond
      split at hcond
      · rename_i hfits
        cases hcond
        refine ⟨hroom hfits, h.batches, h.saved, h.marks, h.ledger, h.nested, h.contiguous, fun f hf => ?_,
          h.applied_lt⟩
        have hf' := h.kept f hf
        refine ⟨(hlen f hf).1, (hlen f hf).2.symm ▸ hf'.holds, ?_, hf'.drains_le, hf'.next_le.trans (Nat.le_succ _)⟩
        have hnot : ¬ t.collector.nextSequence < f.view.nextSequence := not_lt.2 hf'.next_le
        simpa [Frame.back, hnot] using hf'.back
      · cases hcond
        refine ⟨hfull, h.batches, h.saved, h.marks, h.ledger, h.nested, h.contiguous, fun f hf => ?_, h.applied_lt⟩
        have hf' := h.kept f hf
        exact ⟨(hlen f hf).1, (hlen f hf).2.symm ▸ hf'.holds, hf'.back, hf'.drains_le,
          hf'.next_le.trans (Nat.le_succ _)⟩

theorem Agrees.savepoint (h : Agrees sizes t l fs) {s : Nat} (hs : s ≤ t.depth) :
    Agrees sizes (t.call sizes (.savepoint s)) (l.call t.collector.width (.savepoint s))
      (put Frame.index ⟨s, t.view, t.collector.drains, l.events.length⟩ fs) := by
  obtain ⟨hstaged, -⟩ := h.holds.lt
  have hcontiguous := h.contiguous.put (m := ⟨s, t.view, t.collector.drains, l.events.length⟩) hs
  refine ⟨h.holds, h.batches, ?_, ?_, ?_, h.nested.put fun f hf => ?_, hcontiguous, fun f hf => ?_, h.applied_lt⟩
  · change put Prod.fst (s, t.view) t.saved = _
    rw [h.saved]
    exact put_map (fun f : Frame => (f.index, f.view)) ⟨s, t.view, t.collector.drains, l.events.length⟩ fs
  · change put Mark.savepoint ⟨s, t.collector.spilledRows, t.collector.nextSequence, t.collector.drains⟩
      t.collector.marks = _
    rw [h.marks]
    exact put_map Frame.mark ⟨s, t.view, t.collector.drains, l.events.length⟩ fs
  · change put Prod.fst (s, l.events.length) l.marks = _
    rw [h.ledger]
    exact put_map (fun f : Frame => (f.index, f.length)) ⟨s, t.view, t.collector.drains, l.events.length⟩ fs
  · obtain ⟨hlen, -, -, hdrains, hnext⟩ := h.kept f hf
    exact ⟨hdrains, hnext, hlen⟩
  · rcases mem_put.1 hf with ⟨hf, -⟩ | rfl
    · obtain ⟨hlen, hholds, hback, hdrains, hnext⟩ := h.kept f hf
      exact ⟨hlen, hholds, hback, hdrains, hnext⟩
    · refine ⟨le_rfl, ?_, ?_, le_rfl, le_rfl⟩
      · have hall : l.events.take l.events.length = l.events := List.take_length
        exact hall.symm ▸ h.holds
      · have hall : (t.collector.staged.filter fun change => change.sequence < t.collector.nextSequence) =
            t.collector.staged := List.filter_eq_self.2 fun r hr => decide_eq_true (hstaged r hr)
        have hnone : (t.collector.applied.filter fun x => t.collector.drains ≤ x.2) = [] :=
          List.filter_eq_nil_iff.2 fun x hx => by simpa using h.applied_lt x hx
        change ((t.collector.staged.filter fun change => change.sequence < t.collector.nextSequence) ++
          (((t.collector.applied.filter fun x => t.collector.drains ≤ x.2).map (·.1)).filter
            fun change => change.sequence < t.collector.nextSequence)).Perm t.collector.staged
        rw [hall, hnone]
        simp

theorem Agrees.release (h : Agrees sizes t l fs) {s : Nat} (hs : s < t.depth) :
    Agrees sizes (t.call sizes (.release s)) (l.call t.collector.width (.release s))
      (release Frame.index s fs) := by
  have hmarks : (t.collector.marks.filter fun mark => mark.savepoint < s) =
      (Savepoints.release Frame.index s fs).map Frame.mark := by
    rw [h.marks]
    exact release_map Frame.mark s fs
  refine ⟨h.holds, h.batches, ?_, hmarks, ?_, h.nested.release, h.contiguous.release hs, fun f hf => ?_, fun x hx => ?_⟩
  · change Savepoints.release Prod.fst s t.saved = _
    rw [h.saved]
    exact release_map (fun f : Frame => (f.index, f.view)) s fs
  · change Savepoints.release Prod.fst s l.marks = _
    rw [h.ledger]
    exact release_map (fun f : Frame => (f.index, f.length)) s fs
  · obtain ⟨hlen, hholds, hback, hdrains, hnext⟩ := h.kept f (mem_release.1 hf).1
    refine ⟨hlen, hholds, ?_, hdrains, hnext⟩
    -- a savepoint is still open, so nothing was cleared
    have hopen : (t.collector.marks.filter fun mark => mark.savepoint < s) ≠ [] := by
      rw [hmarks]
      exact List.ne_nil_of_mem (List.mem_map_of_mem hf)
    simpa [Transaction.call, Collector.release, hopen] using hback
  · simp only [Transaction.call, Collector.release] at hx ⊢
    split at hx
    · cases hx
    · exact h.applied_lt x hx

theorem Agrees.drain (h : Agrees sizes t l fs) :
    Agrees sizes (t.call sizes .drain) (l.call t.collector.width .drain) fs := by
  have hbatch : (t.collector.drain t.shadow).2.2 = pending 0 l.events := by
    rw [Collector.drain]
    by_cases hz : t.collector.spilledRows = 0
    · have hshadow : t.shadow = [] := List.length_eq_zero_iff.1 (h.holds.spilled.symm.trans hz)
      have hb := h.holds.batch
      simp only [Transaction.view, hshadow] at hb
      simp only [if_pos hz]
      rw [← hb]
      simp [Collector.readShadow]
    · simp only [if_neg hz]
      exact h.holds.batch
  have hshadow : (t.collector.drain t.shadow).2.1 = [] := by
    rw [Collector.drain]
    by_cases hz : t.collector.spilledRows = 0
    · simp only [if_pos hz]
      exact List.length_eq_zero_iff.1 (h.holds.spilled.symm.trans hz)
    · simp only [if_neg hz]
  have hcollector : (t.collector.drain t.shadow).1 = { t.collector with
      staged := [], stagedBytes := 0, spilledRows := 0, drains := t.collector.drains + 1
      applied := if t.collector.marks.isEmpty then t.collector.applied
        else t.collector.applied ++ t.collector.staged.map (·, t.collector.drains) } := by
    rw [Collector.drain]
    split
    · rfl
    · rfl
  have hcall : t.call sizes .drain = { t with
      collector := (t.collector.drain t.shadow).1
      shadow := (t.collector.drain t.shadow).2.1
      batches := t.batches ++ [(t.collector.drain t.shadow).2.2] } := rfl
  rw [hcall, hbatch, hshadow, hcollector]
  refine ⟨h.holds.drained, ?_, h.saved, h.marks, h.ledger, h.nested, h.contiguous, fun f hf => ?_, fun x hx => ?_⟩
  · rw [Ledger.call, h.batches]
  · obtain ⟨hlen, hholds, hback, hdrains, hnext⟩ := h.kept f hf
    refine ⟨by simp [Ledger.call]; omega, ?_, ?_, Nat.le_succ_of_le hdrains, hnext⟩
    · have htake : (l.events ++ [Event.drain]).take f.length = l.events.take f.length :=
        List.take_append_of_le_length hlen
      simpa [Ledger.call, htake] using hholds
    · -- what leaves memory is noted under this drain
      have hopen : t.collector.marks.isEmpty = false := by
        rw [h.marks]
        cases fs with
        | nil => cases hf
        | cons g gs => rfl
      have hmap : ((t.collector.staged.map (·, t.collector.drains)).filter fun x => f.drains ≤ x.2) =
          t.collector.staged.map (·, t.collector.drains) := List.filter_eq_self.2 fun x hx => by
        obtain ⟨r, -, rfl⟩ := List.mem_map.1 hx
        simpa using hdrains
      refine List.Perm.trans ?_ hback
      simp only [Frame.back, hopen, Bool.false_eq_true, if_false, List.filter_nil, List.nil_append, List.filter_append,
        List.map_append, hmap, List.map_map, Function.comp_def, List.map_id']
      exact List.perm_append_comm
  · dsimp only at hx ⊢
    split at hx
    · exact Nat.lt_succ_of_lt (h.applied_lt x hx)
    · rcases List.mem_append.1 hx with hx | hx
      · exact Nat.lt_succ_of_lt (h.applied_lt x hx)
      · obtain ⟨r, -, rfl⟩ := List.mem_map.1 hx
        exact Nat.lt_succ_self _

end

section
variable {sizes : Sizes} {t : Transaction} {l : Ledger} {fs : List Frame}

/-- A rollback to a savepoint opened since the first write. -/
theorem Agrees.rollbackTo_view (h : Agrees sizes t l fs) {s : Nat} {f : Frame}
    (hfind : find Frame.index s fs = some f) :
    (t.call sizes (.rollbackTo s)).view = f.view ∧
      (t.collector.rollbackTo sizes s).applied = t.collector.applied.filter (fun x => ¬ f.drains ≤ x.2) ∧
      (t.collector.rollbackTo sizes s).marks = (rewind Frame.index s fs).map Frame.mark ∧
      (t.collector.rollbackTo sizes s).drains = t.collector.drains ∧
      (t.collector.rollbackTo sizes s).stagedRowCap = t.collector.stagedRowCap ∧
      (t.collector.rollbackTo sizes s).stagedByteCap = t.collector.stagedByteCap := by
  obtain ⟨hf, -⟩ := find_spec hfind
  have hkept := h.kept f hf
  have hrestored : (t.collector.marks.filter fun mark => mark.savepoint = s).getLast? = some f.mark := by
    have hmap := @find_map Mark Frame Mark.savepoint Frame.mark s fs
    rw [← h.marks] at hmap
    refine hmap.trans ?_
    rw [show find (fun f : Frame => f.mark.savepoint) s fs = some f from hfind, Option.map_some]
  have hsaved : find Prod.fst s t.saved = some (f.index, f.view) := by
    have hmap := @find_map (Nat × View) Frame Prod.fst (fun f => (f.index, f.view)) s fs
    rw [← h.saved] at hmap
    refine hmap.trans ?_
    rw [show find (fun f : Frame => (f.index, f.view).1) s fs = some f from hfind, Option.map_some]
  have hmarks : (t.collector.marks.filter fun mark => mark.savepoint ≤ s) =
      (rewind Frame.index s fs).map Frame.mark := by
    rw [h.marks]
    exact rewind_map Frame.mark s fs
  have hsort := sort_eq hkept.back hkept.holds.staged_sorted
  rw [Collector.rollbackTo, hrestored]
  refine ⟨?_, rfl, hmarks, rfl, rfl, rfl⟩
  simp only [Transaction.call, Transaction.view, Collector.rollbackTo, hrestored, hsaved, Option.elim_some]
  have hrows : ((t.collector.staged.filter fun change => change.sequence < f.mark.nextSequence) ++
      (((t.collector.applied.filter fun x => f.mark.drains ≤ x.2).map (·.1)).filter
        fun change => change.sequence < f.mark.nextSequence)).insertionSort
          (fun a b => a.sequence ≤ b.sequence) = f.view.staged := hsort
  rw [hrows, ← hkept.holds.bytes]
  rfl

/-- A rollback to a savepoint opened before the first write. -/
theorem Agrees.rollbackTo_none (h : Agrees sizes t l fs) {s : Nat} (hfind : find Frame.index s fs = none) :
    t.collector.rollbackTo sizes s = { t.collector with marks := t.collector.marks.filter (·.savepoint ≤ s) }.reset ∧
      find Prod.fst s t.saved = none ∧ find Prod.fst s l.marks = none := by
  have hrestored : (t.collector.marks.filter fun mark => mark.savepoint = s).getLast? = none := by
    have hmap := @find_map Mark Frame Mark.savepoint Frame.mark s fs
    rw [← h.marks] at hmap
    refine hmap.trans ?_
    rw [show find (fun f : Frame => f.mark.savepoint) s fs = none from hfind, Option.map_none]
  refine ⟨?_, ?_, ?_⟩
  · rw [Collector.rollbackTo, hrestored]
  · rw [h.saved, find_map]
    rw [show find (fun f : Frame => (f.index, f.view).1) s fs = none from hfind, Option.map_none]
  · rw [h.ledger, find_map]
    rw [show find (fun f : Frame => (f.index, f.length).1) s fs = none from hfind, Option.map_none]

/-- The rows an outer savepoint returns to are still there after a rollback to an inner one. -/
theorem Frame.Kept.rollback {f g : Frame} {c : Collector} (hfg : f = g ∨ f.Older g)
    (hf : (f.back c.staged c.applied).Perm f.view.staged) (hg : (g.back c.staged c.applied).Perm g.view.staged) :
    (f.back g.view.staged (c.applied.filter fun x => ¬ g.drains ≤ x.2)).Perm f.view.staged := by
  have hle : f.drains ≤ g.drains ∧ f.view.nextSequence ≤ g.view.nextSequence := by
    rcases hfg with rfl | hold
    · exact ⟨le_rfl, le_rfl⟩
    · exact ⟨hold.1, hold.2.1⟩
  refine List.Perm.trans ?_ hf
  -- what the inner savepoint returns to, as the outer one sees it
  have hinner : (g.view.staged.filter fun change => change.sequence < f.view.nextSequence).Perm
      ((c.staged.filter fun change => change.sequence < f.view.nextSequence) ++
        (((c.applied.filter fun x => g.drains ≤ x.2).map (·.1)).filter
          fun change => change.sequence < f.view.nextSequence)) := by
    refine (hg.symm.filter _).trans (List.Perm.of_eq ?_)
    have hand : ∀ change : RowChange, (decide (change.sequence < f.view.nextSequence) &&
        decide (change.sequence < g.view.nextSequence)) = decide (change.sequence < f.view.nextSequence) := by
      intro change
      by_cases hlt : change.sequence < f.view.nextSequence
      · have hlt' := hlt.trans_le hle.2
        simp [hlt, hlt']
      · simp [hlt]
    simp only [Frame.back, List.filter_append, List.filter_filter, hand]
  have hsplit : ((c.applied.filter fun x => f.drains ≤ x.2).map (·.1)).Perm
      (((c.applied.filter fun x => g.drains ≤ x.2).map (·.1)) ++
        (((c.applied.filter fun x => ¬ g.drains ≤ x.2).filter fun x => f.drains ≤ x.2).map (·.1))) := by
    rw [← List.map_append]
    refine List.Perm.map _ ?_
    have hparts := (List.filter_append_perm (fun x : RowChange × Nat => decide (g.drains ≤ x.2))
      (c.applied.filter fun x => f.drains ≤ x.2)).symm
    refine hparts.trans (List.Perm.of_eq ?_)
    rw [List.filter_filter, List.filter_filter, List.filter_filter]
    refine congrArg₂ _ (List.filter_congr fun x _ => ?_) (List.filter_congr fun x _ => ?_)
    · by_cases hx : g.drains ≤ x.2
      · have hx' := hle.1.trans hx
        simp [hx, hx']
      · simp [hx]
    · rw [Bool.and_comm, decide_not]
  rw [Frame.back, Frame.back]
  refine (hinner.append_right _).trans ?_
  rw [List.append_assoc]
  refine List.Perm.append_left _ ?_
  rw [← List.filter_append]
  exact hsplit.symm.filter _

theorem Agrees.rollbackTo (h : Agrees sizes t l fs) {s : Nat} (hs : s < t.depth) :
    ∃ fs', Agrees sizes (t.call sizes (.rollbackTo s)) (l.call t.collector.width (.rollbackTo s)) fs' := by
  cases hfind : find Frame.index s fs with
  | none =>
    obtain ⟨hcollector, hsaved, hledger⟩ := h.rollbackTo_none hfind
    have hnil := h.contiguous.rewind_eq_nil hs hfind
    refine ⟨[], ?_⟩
    simp only [Transaction.call, Ledger.call, hcollector, hsaved, hledger, Option.elim_none, List.take_zero]
    refine ⟨holds_empty, h.batches, ?_, rfl, ?_, .nil, .nil, by simp, by simp [Collector.reset]⟩
    · rw [h.saved, rewind_map]
      exact congrArg _ hnil
    · rw [h.ledger, rewind_map]
      exact congrArg _ hnil
  | some f =>
    obtain ⟨hview, happlied, hmarks, hdrains, hrow, hbyte⟩ := h.rollbackTo_view hfind
    obtain ⟨hf, hfs⟩ := find_spec hfind
    have hkept := h.kept f hf
    have hledger : find Prod.fst s l.marks = some (f.index, f.length) := by
      rw [h.ledger, find_map]
      rw [show find (fun f : Frame => (f.index, f.length).1) s fs = some f from hfind, Option.map_some]
    have hevents : (l.call t.collector.width (.rollbackTo s)).events = l.events.take f.length := by
      rw [Ledger.call, hledger, Option.elim_some]
    have hstaged : (t.collector.rollbackTo sizes s).staged = f.view.staged := congrArg View.staged hview
    have hnext : (t.collector.rollbackTo sizes s).nextSequence = f.view.nextSequence := congrArg View.nextSequence hview
    refine ⟨rewind Frame.index s fs, ?_, h.batches, ?_, hmarks, ?_, h.nested.rewind, h.contiguous.rewind hs,
      fun g hg => ?_, fun x hx => ?_⟩
    · rw [hview, hevents]
      exact hrow.symm ▸ hbyte.symm ▸ hkept.holds
    · change Savepoints.rewind Prod.fst s t.saved = _
      rw [h.saved]
      exact rewind_map (fun f : Frame => (f.index, f.view)) s fs
    · change Savepoints.rewind Prod.fst s l.marks = _
      rw [h.ledger]
      exact rewind_map (fun f : Frame => (f.index, f.length)) s fs
    · obtain ⟨hgin, hle⟩ := mem_rewind.1 hg
      have hgf := h.nested.outer hf hgin (hfs.symm ▸ hle)
      have hold : g.length ≤ f.length ∧ g.drains ≤ f.drains ∧ g.view.nextSequence ≤ f.view.nextSequence := by
        rcases hgf with rfl | hold
        · exact ⟨le_rfl, le_rfl, le_rfl⟩
        · exact ⟨hold.2.2, hold.1, hold.2.1⟩
      have hgkept := h.kept g hgin
      rw [hevents]
      change g.Kept sizes (t.collector.rollbackTo sizes s) _
      refine ⟨?_, ?_, ?_, hdrains.symm ▸ hgkept.drains_le, hnext.symm ▸ hold.2.2⟩
      · rw [List.length_take]
        exact le_min hold.1 hgkept.length_le
      · rw [List.take_take, min_eq_left hold.1]
        exact hrow.symm ▸ hbyte.symm ▸ hgkept.holds
      · rw [hstaged, happlied]
        exact Frame.Kept.rollback hgf hgkept.back hkept.back
    · change x ∈ (t.collector.rollbackTo sizes s).applied at hx
      rw [happlied] at hx
      change x.2 < (t.collector.rollbackTo sizes s).drains
      rw [hdrains]
      exact h.applied_lt x (List.mem_filter.1 hx).1

/-! ## Runs -/

theorem Agrees.step (h : Agrees sizes t l fs) {c : Call} (hmay : t.May c) :
    ∃ fs', Agrees sizes (t.call sizes c) (l.call t.collector.width c) fs' := by
  cases c with
  | update change => exact ⟨fs, h.update change⟩
  | savepoint s => exact ⟨_, h.savepoint hmay⟩
  | release s => exact ⟨_, h.release hmay⟩
  | rollbackTo s => exact h.rollbackTo hmay
  | drain => exact ⟨fs, h.drain⟩

/-- The width and the caps stay. -/
theorem call_fixed (sizes : Sizes) (t : Transaction) (c : Call) :
    (t.call sizes c).collector.width = t.collector.width ∧
      (t.call sizes c).collector.stagedRowCap = t.collector.stagedRowCap ∧
      (t.call sizes c).collector.stagedByteCap = t.collector.stagedByteCap := by
  cases c with
  | update change =>
    rw [Transaction.call]
    split
    · exact ⟨rfl, rfl, rfl⟩
    · rename_i c' shadow hupdate
      rw [Collector.update] at hupdate
      split at hupdate
      · cases hupdate
      · dsimp only at hupdate
        split at hupdate
        · cases hupdate
          exact ⟨rfl, rfl, rfl⟩
        · cases hupdate
          exact ⟨rfl, rfl, rfl⟩
  | savepoint s => exact ⟨rfl, rfl, rfl⟩
  | release s => exact ⟨rfl, rfl, rfl⟩
  | rollbackTo s =>
    simp only [Transaction.call, Collector.rollbackTo]
    split
    · exact ⟨rfl, rfl, rfl⟩
    · exact ⟨rfl, rfl, rfl⟩
  | drain =>
    simp only [Transaction.call, Collector.drain]
    split
    · exact ⟨rfl, rfl, rfl⟩
    · exact ⟨rfl, rfl, rfl⟩

def Step (sizes : Sizes) : Transaction → Call → Transaction → Prop :=
  Machine.guarded Transaction.May fun t c t' => t.call sizes c = t'

theorem run_agrees {calls : List Call} {t t' : Transaction} (hrun : Machine.Run (Step sizes) t calls t') {l : Ledger}
    {fs : List Frame} (h : Agrees sizes t l fs) :
    (∃ fs', Agrees sizes t' (calls.foldl (Ledger.call t.collector.width) l) fs') ∧
      t'.collector.stagedRowCap = t.collector.stagedRowCap ∧
      t'.collector.stagedByteCap = t.collector.stagedByteCap := by
  induction hrun generalizing l fs with
  | nil t => exact ⟨⟨fs, h⟩, rfl, rfl⟩
  | @cons t u v c calls hstep _ ih =>
    obtain ⟨hmay, rfl⟩ := hstep
    obtain ⟨fs', h'⟩ := h.step hmay
    obtain ⟨hwidth, hrow, hbyte⟩ := call_fixed sizes t c
    obtain ⟨hend, hrow', hbyte'⟩ := ih h'
    rw [hwidth] at hend
    exact ⟨hend, hrow'.trans hrow, hbyte'.trans hbyte⟩

theorem Ledger.batches_pending (width : Nat) (calls : List Call) (l : Ledger)
    (h : ∀ batch ∈ l.batches, ∃ events, batch = pending 0 events) :
    ∀ batch ∈ (calls.foldl (Ledger.call width) l).batches, ∃ events, batch = pending 0 events := by
  induction calls generalizing l with
  | nil => exact h
  | cons c calls ih =>
    refine ih _ fun batch hbatch => ?_
    cases c with
    | update change =>
      rw [Ledger.call] at hbatch
      split at hbatch
      · exact h batch hbatch
      · exact h batch hbatch
    | savepoint s => exact h batch hbatch
    | release s => exact h batch hbatch
    | rollbackTo s => exact h batch hbatch
    | drain =>
      rcases List.mem_append.1 hbatch with hbatch | hbatch
      · exact h batch hbatch
      · exact ⟨l.events, List.mem_singleton.1 hbatch⟩

theorem Agrees.restores (h : Agrees sizes t l fs) (s : Nat) :
    (t.call sizes (.rollbackTo s)).view = (find Prod.fst s t.saved).elim .empty (·.2) := by
  cases hfind : find Frame.index s fs with
  | none =>
    obtain ⟨hcollector, hsaved, -⟩ := h.rollbackTo_none hfind
    simp only [Transaction.call, hcollector, hsaved, Option.elim_none]
    rfl
  | some f =>
    have hsaved : find Prod.fst s t.saved = some (f.index, f.view) := by
      rw [h.saved, find_map]
      rw [show find (fun f : Frame => (f.index, f.view).1) s fs = some f from hfind, Option.map_some]
    rw [hsaved, Option.elim_some]
    exact (h.rollbackTo_view hfind).1

end

/-- **Batches are exactly the surviving changes**, whatever the caps. -/
theorem batches_surviving (sizes : Sizes) (c : Collector) (depth : Nat) {calls : List Call} {t : Transaction}
    (hrun : Machine.Run (Step sizes) (Transaction.start c depth) calls t) :
    t.batches = (calls.foldl (Ledger.call c.width) .empty).batches ∧
      (∀ batch ∈ t.batches, ∃ k, batch.map (·.sequence) = List.range' k batch.length) ∧
      (∀ s, (t.call sizes (.rollbackTo s)).view = (find Prod.fst s t.saved).elim .empty (·.2)) ∧
      t.collector.staged.length ≤ c.stagedRowCap ∧ t.collector.stagedBytes ≤ c.stagedByteCap := by
  obtain ⟨⟨fs, h⟩, hrow, hbyte⟩ := run_agrees hrun (start_agrees sizes c depth)
  refine ⟨h.batches, fun batch hbatch => ?_, h.restores, ?_, ?_⟩
  · rw [h.batches] at hbatch
    obtain ⟨events, rfl⟩ := Ledger.batches_pending _ calls .empty (by simp [Ledger.empty]) batch hbatch
    obtain ⟨k, -, hseq⟩ := pending_sequences events
    exact ⟨k, hseq⟩
  · exact hrow ▸ h.holds.row_cap
  · exact hbyte ▸ h.holds.byte_cap

/-- One row staged, one spilled, a drain within a savepoint and the rollback that takes it back. -/
def order (table : String) : RowChange := ⟨table, .insert, [.integer 1], 0⟩

def unwoundDrain : List Call :=
  [.update (order "a"), .savepoint 0, .update (order "b"), .drain, .rollbackTo 0, .update (order "c"), .drain]

theorem batches_surviving_unwound :
    let t := unwoundDrain.foldl (Transaction.call ⟨64, 32⟩) (.start (.new 1 1 1000) 0)
    t.batches = (unwoundDrain.foldl (Ledger.call 1) .empty).batches ∧
      (∀ batch ∈ t.batches, ∃ k, batch.map (·.sequence) = List.range' k batch.length) ∧
      (∀ s, (t.call ⟨64, 32⟩ (.rollbackTo s)).view = (find Prod.fst s t.saved).elim .empty (·.2)) ∧
      t.collector.staged.length ≤ 1 ∧ t.collector.stagedBytes ≤ 1000 :=
  batches_surviving ⟨64, 32⟩ (.new 1 1 1000) 0 (.cons ⟨trivial, rfl⟩ (.cons ⟨le_rfl, rfl⟩ (.cons ⟨trivial, rfl⟩
    (.cons ⟨trivial, rfl⟩ (.cons ⟨Nat.zero_lt_one, rfl⟩ (.cons ⟨trivial, rfl⟩ (.cons ⟨trivial, rfl⟩ (.nil _))))))))

example : ((unwoundDrain.foldl (Ledger.call 1) .empty).batches.map fun batch =>
    batch.map fun r => (r.table, r.sequence)) = [[("a", 0), ("b", 1)], [("a", 0), ("c", 1)]] := by
  decide

end SqliteExt
