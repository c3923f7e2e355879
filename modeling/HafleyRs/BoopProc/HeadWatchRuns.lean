import HafleyRs.BoopProc.HeadWatch

/-!
# Runs of the HEAD watcher

`Watches` says what a watch knows between its steps: it reports from the last reported head, and either it has
seen HEAD, with a burst opened by the first tick after the last move, or the reflog is newer than its last look
and no tick is done since HEAD moved. `Aligned` is the first case; every tick ends from it (`settled_inv`),
which reports a burst that is quiet. `HeadInv` holds in every calm run, and `HeadReports` follows from it.
-/

namespace BoopProc
open HeadWorld

variable {Sha : Type} {git : Git Sha} {quiet : Nat}

/-! ## One watch -/

namespace HeadWatch
variable {v : HeadWatch Sha} {r head : Sha} {stat : Option Nat} {now : Nat}

theorem settle_cases (quiet : Nat) (v : HeadWatch Sha) (now : Nat) :
    (∃ b, v.burst = some b ∧ quiet ≤ now - b.lastChange ∧ v.settle quiet now =
      ({ v with burst := none, reported := some b.latest }, some (.advanced b.firstOld b.latest b.count))) ∨
    (v.settle quiet now = (v, none) ∧ ∀ b, v.burst = some b → now - b.lastChange < quiet) := by
  unfold settle
  cases hburst : v.burst with
  | none => exact Or.inr ⟨rfl, by simp⟩
  | some b =>
    by_cases hquiet : quiet ≤ now - b.lastChange
    · exact Or.inl ⟨b, rfl, hquiet, by simp [hquiet]⟩
    · refine Or.inr ⟨by simp [hquiet], ?_⟩
      rintro _ ⟨⟩
      omega

/-- What reading HEAD does to a watch that has reported a commit. -/
theorem see_reported [DecidableEq Sha] (hr : v.reported = some r) :
    (v.target r = head ∧ v.see git true stat head now = ({ v with lastMtime := stat }, none)) ∨
    (git.isAncestor r head = true ∧ v.target r ≠ head ∧ v.see git true stat head now =
      ({ v with lastMtime := stat, burst := some ⟨(v.burst.map HeadBurst.firstOld).getD r, head, now,
        git.revListCount ((v.burst.map HeadBurst.firstOld).getD r) head⟩ }, none)) ∨
    (git.isAncestor r head = false ∧ v.see git true stat head now =
      ({ v with lastMtime := stat, reported := some head, burst := none }, some (.rewound r head))) := by
  obtain ⟨lastMtime, reported, burst, nudged⟩ := v
  obtain rfl : reported = some r := hr
  have hunchanged : (HeadWatch.mk stat (some r) burst nudged).unchanged head =
      decide ((HeadWatch.mk lastMtime (some r) burst nudged).target r = head) := by
    rw [Bool.eq_iff_iff, decide_eq_true_iff]
    cases burst <;> simp [unchanged, target]
  unfold see
  simp only [hunchanged, descendsFrom, if_true, decide_eq_true_eq]
  by_cases htarget : (HeadWatch.mk lastMtime (some r) burst nudged).target r = head
  · exact Or.inl ⟨htarget, if_pos htarget⟩
  · right
    rw [if_neg htarget]
    by_cases hahead : git.isAncestor r head = true
    · exact Or.inl ⟨hahead, htarget, if_pos hahead⟩
    · exact Or.inr ⟨by simpa using hahead, if_neg hahead⟩

theorem see_cases [DecidableEq Sha] (hr : v.reported = some r) :
    (v.target r = head ∧ v.see git true stat head now = ({ v with lastMtime := stat }, none)) ∨
    (git.isAncestor r head = true ∧ v.target r ≠ head ∧ ∃ firstOld count, v.see git true stat head now =
      ({ v with lastMtime := stat, burst := some ⟨firstOld, head, now, count⟩ }, none)) ∨
    (git.isAncestor r head = false ∧ v.see git true stat head now =
      ({ v with lastMtime := stat, reported := some head, burst := none }, some (.rewound r head))) := by
  rcases see_reported hr with h | ⟨hahead, htarget, h⟩ | h
  · exact Or.inl h
  · exact Or.inr (Or.inl ⟨hahead, htarget, _, _, h⟩)
  · exact Or.inr (Or.inr h)

end HeadWatch

/-! ## The last report and the rewinds -/

@[simp] theorem rewindTo_self (h : Sha) : rewindTo git (some h) h = [] := by simp [rewindTo, git.refl]

theorem rewindTo_ahead {r head : Sha} (h : git.isAncestor r head = true) : rewindTo git (some r) head = [] := by
  simp [rewindTo, h]

theorem lastReported_concat (w : HeadWorld Sha) (v : HeadWatch Sha) (mv : HeadMove Sha) (now : Nat) (writes : Bool) :
    (w.ended v (some mv) now writes).lastReported = some mv.new := by
  simp [lastReported, ended]

theorem lastReported_none (w : HeadWorld Sha) (v : HeadWatch Sha) (now : Nat) (writes : Bool) :
    (w.ended v none now writes).lastReported = w.lastReported := by
  simp [lastReported, ended]

/-! ## The invariant -/

/-- The watch has seen HEAD, at the tick of time `now`. -/
structure Aligned (git : Git Sha) (w : HeadWorld Sha) (now : Nat) (v : HeadWatch Sha) (r : Sha) : Prop where
  reported : v.reported = some r
  last     : w.lastReported = some r
  ahead    : ∀ b, v.burst = some b → git.isAncestor r b.latest = true
  past     : ∀ b, v.burst = some b → b.lastChange ≤ now
  stat     : v.lastMtime = w.reflog
  head     : v.target r = w.head
  opened   : ∀ b, v.burst = some b → ∀ t ∈ w.ticks, b.lastChange ≤ t

/-- HEAD has moved since the watch looked, and no tick is done since. -/
structure Behind (git : Git Sha) (w : HeadWorld Sha) (now : Nat) (v : HeadWatch Sha) (r : Sha) : Prop where
  reported : v.reported = some r
  last     : w.lastReported = some r
  ahead    : ∀ b, v.burst = some b → git.isAncestor r b.latest = true
  past     : ∀ b, v.burst = some b → b.lastChange ≤ now
  stat     : v.lastMtime.getD 0 < w.reflog.getD 0
  ticks    : w.ticks = []

def Watches (git : Git Sha) (w : HeadWorld Sha) (now : Nat) (v : HeadWatch Sha) : Prop :=
  ∃ r, Aligned git w now v r ∨ Behind git w now v r

/-- A tick that began at `now` is under way. -/
structure Ticking (git : Git Sha) (w : HeadWorld Sha) (now : Nat) (v : HeadWatch Sha) : Prop where
  begun   : now ≤ w.clock
  after   : ∀ t ∈ w.ticks, t ≤ now
  watches : Watches git w now v

def PhaseInv (git : Git Sha) (w : HeadWorld Sha) : WatchPhase Sha → Prop
  | .down => True
  | .seeding stat => stat = w.reflog ∧ ∀ r, w.lastReported = some r → r = w.head
  | .idle v => Watches git w w.clock v
  | .reading v now => Ticking git w now v
  | .seen v now head => Ticking git w now v ∧ head = w.head

structure HeadInv (git : Git Sha) (quiet : Nat) (w : HeadWorld Sha) : Prop where
  order   : ∀ t ∈ w.ticks, t ≤ w.clock
  known   : ∀ s, w.stored = some s → w.lastReported ≠ none
  pending : rewoundOf w.reports ++ rewindTo git w.lastReported w.head = w.rewinds
  calm    : w.ticks ≠ [] → rewindTo git w.lastReported w.head = []
  current : ∀ t ∈ w.ticks, ∀ t' ∈ w.ticks, t + quiet ≤ t' → w.lastReported = some w.head
  phase   : PhaseInv git w w.phase

theorem HeadInv.reports {w : HeadWorld Sha} (h : HeadInv git quiet w) : HeadReports quiet w where
  current := h.current
  rewound := ⟨_, h.pending⟩
  all hticks := by
    rw [← h.pending, h.calm hticks, List.append_nil]

theorem headInv_initial (head : Sha) (reflog : Option Nat) (stored : Option Sha) :
    HeadInv git quiet (initial git head reflog stored) where
  order := by simp [initial]
  known := by
    intro s hs
    simp [initial, lastReported] at hs ⊢
    simp [hs]
  pending := by simp [initial, lastReported, rewoundOf]
  calm := by simp [initial]
  current := by simp [initial]
  phase := trivial

/-! ## The end of a tick -/

section
variable {w : HeadWorld Sha} {v : HeadWatch Sha} {r : Sha} {now : Nat}

theorem Aligned.target_ahead (h : Aligned git w now v r) : git.isAncestor r w.head = true := by
  rw [← h.head, HeadWatch.target]
  cases hburst : v.burst with
  | none => exact git.refl r
  | some b => exact h.ahead b hburst

/-- A watch that has seen HEAD ends its tick: a burst that stays is younger than every tick since HEAD moved. -/
theorem settled_inv (hi : HeadInv git quiet w) (h : Aligned git w now v r) (hbegun : now ≤ w.clock)
    (hafter : ∀ t ∈ w.ticks, t ≤ now) (writes : Bool) : HeadInv git quiet (settled quiet w v now writes) := by
  have hpending := hi.pending
  rw [h.last, rewindTo_ahead h.target_ahead, List.append_nil] at hpending
  have horder : ∀ t ∈ w.ticks ++ [now], t ≤ w.clock := by
    intro t ht
    rcases List.mem_append.1 ht with ht | ht
    · exact hi.order t ht
    · exact List.mem_singleton.1 ht ▸ hbegun
  have hlater : ∀ t ∈ w.ticks ++ [now], t ≤ now := by
    intro t ht
    rcases List.mem_append.1 ht with ht | ht
    · exact hafter t ht
    · exact (List.mem_singleton.1 ht).le
  unfold settled
  rcases HeadWatch.settle_cases quiet v now with ⟨b, hb, hquiet, heq⟩ | ⟨heq, hyoung⟩
  · -- the burst is reported, and it was HEAD
    have hlatest : b.latest = w.head := by
      have hhead := h.head
      rwa [HeadWatch.target, hb] at hhead
    rw [heq]
    have hlast : ∀ mv : HeadMove Sha, mv.new = w.head → ∀ u : HeadWatch Sha,
        (w.ended u (some mv) now writes).lastReported = some w.head := by
      intro mv hmv u
      rw [lastReported_concat, hmv]
    have hlast' := hlast (.advanced b.firstOld b.latest b.count) hlatest
      { v with burst := none, reported := some b.latest }
    refine ⟨horder, fun _ _ => by rw [hlast']; simp, ?_, fun _ => ?_, fun t ht t' ht' _ => hlast', ?_⟩
    · rw [hlast']
      simpa [ended, rewoundOf] using hpending
    · rw [hlast']
      exact rewindTo_self _
    · refine ⟨w.head, Or.inl ⟨by simp [hlatest], hlast', by simp, by simp, h.stat, rfl, by simp⟩⟩
  · rw [heq]
    have hlast : (w.ended v none now writes).lastReported = some r := by rw [lastReported_none, h.last]
    refine ⟨horder, fun s hs => by rw [hlast]; simp, ?_, fun _ => ?_, fun t ht t' ht' hquiet => ?_, ?_⟩
    · rw [hlast]
      have hahead : rewindTo git (some r) w.head = [] := rewindTo_ahead h.target_ahead
      simpa [ended, hahead] using hpending
    · rw [hlast]
      exact rewindTo_ahead h.target_ahead
    · -- no burst stays, since one that did would be older than the window
      have hhead := h.head
      rw [HeadWatch.target] at hhead
      rw [hlast]
      change some r = some w.head
      rw [← hhead]
      cases hburst : v.burst with
      | none => rfl
      | some b =>
        have hyoung := hyoung b hburst
        have hle : b.lastChange ≤ t := by
          rcases List.mem_append.1 ht with ht | ht
          · exact h.opened b hburst t ht
          · exact List.mem_singleton.1 ht ▸ h.past b hburst
        have := hlater t' ht'
        omega
    · refine ⟨r, Or.inl ⟨h.reported, hlast, h.ahead, fun b hb => (h.past b hb).trans hbegun, h.stat, h.head, ?_⟩⟩
      intro b hb t ht
      rcases List.mem_append.1 ht with ht | ht
      · exact h.opened b hb t ht
      · exact List.mem_singleton.1 ht ▸ h.past b hb

/-- HEAD was read, and has not moved since. -/
theorem finish_inv [DecidableEq Sha] (hi : HeadInv git quiet w) (h : Ticking git w now v) (writes : Bool) :
    HeadInv git quiet (finished quiet git w v now w.head true writes) := by
  unfold finished
  obtain ⟨r, hwatch⟩ := h.watches
  have hreported : v.reported = some r := hwatch.elim Aligned.reported Behind.reported
  have hlast : w.lastReported = some r := hwatch.elim Aligned.last Behind.last
  have hahead : ∀ b, v.burst = some b → git.isAncestor r b.latest = true := hwatch.elim Aligned.ahead Behind.ahead
  have hpast : ∀ b, v.burst = some b → b.lastChange ≤ now := hwatch.elim Aligned.past Behind.past
  have hopened : ∀ b, v.burst = some b → ∀ t ∈ w.ticks, b.lastChange ≤ t := by
    rcases hwatch with haligned | hbehind
    · exact haligned.opened
    · intro b _ t ht
      rw [hbehind.ticks] at ht
      exact absurd ht List.not_mem_nil
  rcases HeadWatch.see_cases hreported with ⟨htarget, heq⟩ | ⟨hdesc, htarget, firstOld, count, heq⟩ | ⟨hnot, heq⟩
  · rw [heq]
    have haligned : Aligned git w now { v with lastMtime := w.reflog } r :=
      ⟨hreported, hlast, hahead, hpast, rfl, htarget, hopened⟩
    exact settled_inv hi haligned h.begun h.after writes
  · rw [heq]
    have hticks : w.ticks = [] := by
      rcases hwatch with haligned | hbehind
      · exact absurd haligned.head htarget
      · exact hbehind.ticks
    have haligned : Aligned git w now
        { v with lastMtime := w.reflog, burst := some ⟨firstOld, w.head, now, count⟩ } r := by
      refine ⟨hreported, hlast, ?_, ?_, rfl, rfl, ?_⟩
      · rintro _ ⟨⟩
        exact hdesc
      · rintro _ ⟨⟩
        exact le_rfl
      · intro b _ t ht
        rw [hticks] at ht
        exact absurd ht List.not_mem_nil
    exact settled_inv hi haligned h.begun h.after writes
  · rw [heq]
    change HeadInv git quiet (w.ended _ (some (.rewound r w.head)) now writes)
    have hlast' : (w.ended { v with lastMtime := w.reflog, reported := some w.head, burst := none }
        (some (.rewound r w.head)) now writes).lastReported = some w.head := lastReported_concat ..
    refine ⟨?_, fun _ _ => by rw [hlast']; simp, ?_, fun _ => ?_, fun t ht t' ht' _ => hlast', ?_⟩
    · intro t ht
      rcases List.mem_append.1 ht with ht | ht
      · exact hi.order t ht
      · exact List.mem_singleton.1 ht ▸ h.begun
    · have hpending := hi.pending
      rw [hlast, rewindTo, if_neg (by simp [hnot])] at hpending
      rw [hlast']
      change rewoundOf (w.reports ++ [.rewound r w.head]) ++ rewindTo git (some w.head) w.head = w.rewinds
      rw [rewindTo_self, List.append_nil, ← hpending, rewoundOf, List.filterMap_append]
      rfl
    · rw [hlast']
      exact rewindTo_self _
    · exact ⟨w.head, Or.inl ⟨rfl, hlast', by simp, by simp, rfl, rfl, by simp⟩⟩

theorem moved_inv (hi : HeadInv git quiet w) (hbetween : w.betweenReads = false)
    (hahead : ∀ r, w.lastReported = some r → git.isAncestor r w.head = true) (head : Sha) :
    HeadInv git quiet (w.moved git head) := by
  have hnone : rewindTo git w.lastReported w.head = [] := by
    cases hlast : w.lastReported with
    | none => rfl
    | some r => exact rewindTo_ahead (hahead r hlast)
  have hpending := hi.pending
  rw [hnone, List.append_nil] at hpending
  have hbehind : ∀ {v : HeadWatch Sha} {now : Nat}, Watches git w now v → Watches git (w.moved git head) now v := by
    rintro v now ⟨r, haligned | hbehind⟩
    · refine ⟨r, Or.inr ⟨haligned.reported, haligned.last, haligned.ahead, haligned.past, ?_, rfl⟩⟩
      rw [haligned.stat]
      exact Nat.lt_succ_self _
    · exact ⟨r, Or.inr ⟨hbehind.reported, hbehind.last, hbehind.ahead, hbehind.past,
        hbehind.stat.trans (Nat.lt_succ_self _), rfl⟩⟩
  refine ⟨by simp [moved], hi.known, ?_, fun h => absurd rfl h, by simp [moved], ?_⟩
  · change rewoundOf w.reports ++ rewindTo git w.lastReported head = w.rewinds ++ rewindTo git w.lastReported head
    rw [hpending]
  · have hphase := hi.phase
    change PhaseInv git (w.moved git head) w.phase
    rw [betweenReads] at hbetween
    cases hp : w.phase with
    | down => trivial
    | seeding stat => simp [hp] at hbetween
    | idle v =>
      rw [hp] at hphase
      exact hbehind hphase
    | reading v now =>
      rw [hp] at hphase
      exact ⟨hphase.begun, by simp [moved], hbehind hphase.watches⟩
    | seen v now head => simp [hp] at hbetween

theorem start_inv [DecidableEq Sha] (hi : HeadInv git quiet w) (hlast : ∀ r, w.lastReported = some r → r = w.head)
    (hstored : ∀ s, w.stored = some s → s = w.head) {w' : HeadWorld Sha} (h : headStep quiet git w .start = some w') :
    HeadInv git quiet w' := by
  obtain rfl := Option.some.inj h
  refine ⟨hi.order, hi.known, hi.pending, hi.calm, hi.current, ?_⟩
  cases hs : w.stored with
  | none => exact ⟨rfl, hlast⟩
  | some s =>
    obtain ⟨r, hr⟩ := Option.ne_none_iff_exists'.1 (hi.known s hs)
    obtain rfl := hlast r hr
    obtain rfl := hstored s hs
    exact ⟨w.head, Or.inl ⟨rfl, hr, by simp [HeadWatch.start], by simp [HeadWatch.start], rfl, rfl,
      by simp [HeadWatch.start]⟩⟩

theorem seed_inv (hi : HeadInv git quiet w) {stat : Option Nat} (hphase : w.phase = .seeding stat) :
    HeadInv git quiet { w with
      phase := .idle (.start stat (some w.head)), baseline := w.baseline.or (some w.head) } := by
  have hseed := hi.phase
  rw [hphase] at hseed
  obtain ⟨rfl, hhead⟩ := hseed
  have hlast : ({ w with
      phase := .idle (.start w.reflog (some w.head)), baseline := w.baseline.or (some w.head) } :
      HeadWorld Sha).lastReported = some w.head := by
    have hsplit : (w.reports.getLast?.map HeadMove.new).or (w.baseline.or (some w.head)) =
        w.lastReported.or (some w.head) := by rw [lastReported, Option.or_assoc]
    change (w.reports.getLast?.map HeadMove.new).or (w.baseline.or (some w.head)) = some w.head
    rw [hsplit]
    cases hr : w.lastReported with
    | none => rfl
    | some r => rw [hhead r hr]; rfl
  refine ⟨hi.order, fun _ _ => by rw [hlast]; simp, ?_, fun _ => ?_, fun _ _ _ _ _ => hlast, ?_⟩
  · have hpending := hi.pending
    have hnone : rewindTo git w.lastReported w.head = [] := by
      cases hr : w.lastReported with
      | none => rfl
      | some r => rw [hhead r hr]; exact rewindTo_self _
    rw [hnone] at hpending
    rw [hlast, rewindTo_self]
    exact hpending
  · rw [hlast]
    exact rewindTo_self _
  · exact ⟨w.head, Or.inl ⟨rfl, hlast, by simp [HeadWatch.start], by simp [HeadWatch.start], rfl, rfl,
      by simp [HeadWatch.start]⟩⟩

theorem wait_inv (hi : HeadInv git quiet w) (ms : Nat) : HeadInv git quiet { w with clock := w.clock + ms } := by
  refine ⟨fun t ht => (hi.order t ht).trans (Nat.le_add_right ..), hi.known, hi.pending, hi.calm, hi.current, ?_⟩
  have hlong : ∀ {t : Nat}, t ≤ w.clock → t ≤ w.clock + ms := fun ht => ht.trans (Nat.le_add_right ..)
  have hsame : ∀ {v : HeadWatch Sha} {now now' : Nat}, now ≤ now' → Watches git w now v →
      Watches git { w with clock := w.clock + ms } now' v := by
    rintro v now now' hle ⟨r, h | h⟩
    · exact ⟨r, Or.inl ⟨h.reported, h.last, h.ahead, fun b hb => (h.past b hb).trans hle, h.stat, h.head, h.opened⟩⟩
    · exact ⟨r, Or.inr ⟨h.reported, h.last, h.ahead, fun b hb => (h.past b hb).trans hle, h.stat, h.ticks⟩⟩
  have hphases : ∀ p, PhaseInv git w p → PhaseInv git { w with clock := w.clock + ms } p := by
    intro p hp
    cases p with
    | down => trivial
    | seeding stat => exact hp
    | idle v => exact hsame (hlong le_rfl) hp
    | reading v now => exact ⟨hlong hp.begun, hp.after, hsame le_rfl hp.watches⟩
    | seen v now head => exact ⟨⟨hlong hp.1.begun, hp.1.after, hsame le_rfl hp.1.watches⟩, hp.2⟩
  exact hphases w.phase hi.phase

/-- The steps that only move the supervisor on. -/
theorem phase_inv (hi : HeadInv git quiet w) {phase : WatchPhase Sha} (h : PhaseInv git w phase) :
    HeadInv git quiet { w with phase } := by
  refine ⟨hi.order, hi.known, hi.pending, hi.calm, hi.current, ?_⟩
  have hsame : ∀ {v : HeadWatch Sha} {now : Nat}, Watches git w now v → Watches git { w with phase } now v := by
    rintro v now ⟨r, h | h⟩
    · exact ⟨r, Or.inl ⟨h.reported, h.last, h.ahead, h.past, h.stat, h.head, h.opened⟩⟩
    · exact ⟨r, Or.inr ⟨h.reported, h.last, h.ahead, h.past, h.stat, h.ticks⟩⟩
  change PhaseInv git { w with phase } phase
  cases phase with
  | down => trivial
  | seeding stat => exact h
  | idle v => exact hsame h
  | reading v now => exact ⟨h.begun, h.after, hsame h.watches⟩
  | seen v now head => exact ⟨⟨h.1.begun, h.1.after, hsame h.1.watches⟩, h.2⟩

theorem Watches.flag {b : Bool} (h : Watches git w now v) : Watches git w now { v with nudged := b } := by
  obtain ⟨r, h | h⟩ := h
  · exact ⟨r, Or.inl ⟨h.reported, h.last, h.ahead, h.past, h.stat, h.head, h.opened⟩⟩
  · exact ⟨r, Or.inr ⟨h.reported, h.last, h.ahead, h.past, h.stat, h.ticks⟩⟩

/-- A tick whose gate is shut has nothing to see. -/
theorem aligned_of_not_due (h : Watches git w now v) (hdue : v.due w.reflog = false) : ∃ r, Aligned git w now v r := by
  obtain ⟨r, h | h⟩ := h
  · exact ⟨r, h⟩
  · have hstat : w.reflog = v.lastMtime := by
      rw [HeadWatch.due, Bool.or_eq_false_iff] at hdue
      simpa using hdue.2
    exact absurd h.stat (by rw [hstat]; exact lt_irrefl _)

/-- One step of a calm run. -/
theorem headStep_inv [DecidableEq Sha] {a : HeadAct Sha} {w' : HeadWorld Sha} (hi : HeadInv git quiet w)
    (hcalm : Undisturbed git w a) (h : headStep quiet git w a = some w') : HeadInv git quiet w' := by
  cases a with
  | move head =>
    obtain rfl := Option.some.inj h
    exact moved_inv hi hcalm.1 hcalm.2 head
  | wait ms =>
    obtain rfl := Option.some.inj h
    exact wait_inv hi ms
  | start => exact start_inv hi hcalm.1 hcalm.2 h
  | seed answer =>
    obtain rfl : answer = true := hcalm
    rw [headStep] at h
    cases hp : w.phase with
    | seeding stat =>
      rw [hp] at h
      obtain rfl := Option.some.inj h
      exact seed_inv hi hp
    | _ => simp [hp] at h
  | nudge =>
    rw [headStep] at h
    cases hp : w.phase with
    | idle v =>
      have hphase := hi.phase
      rw [hp] at h hphase
      obtain rfl := Option.some.inj h
      exact phase_inv hi hphase.flag
    | _ => simp [hp] at h
  | tick writes =>
    rw [headStep] at h
    cases hp : w.phase with
    | idle v =>
      have hphase := hi.phase
      rw [hp] at hphase
      simp only [hp] at h
      by_cases hdue : v.due w.reflog = true
      · rw [if_pos hdue] at h
        obtain rfl := Option.some.inj h
        exact phase_inv hi ⟨le_rfl, hi.order, hphase.flag⟩
      · rw [if_neg hdue] at h
        obtain rfl := Option.some.inj h
        obtain ⟨r, haligned⟩ := aligned_of_not_due hphase (by simpa using hdue)
        exact settled_inv hi haligned le_rfl hi.order writes
    | _ => simp [hp] at h
  | read answer writes =>
    obtain rfl : answer = true := hcalm
    rw [headStep] at h
    cases hp : w.phase with
    | reading v now =>
      have hphase := hi.phase
      rw [hp] at h hphase
      obtain rfl := Option.some.inj h
      exact phase_inv hi ⟨hphase, rfl⟩
    | _ => simp [hp] at h
  | finish answers writes =>
    obtain rfl : answers = true := hcalm
    rw [headStep] at h
    cases hp : w.phase with
    | seen v now head =>
      have hphase := hi.phase
      rw [hp] at h hphase
      obtain ⟨hticking, rfl⟩ := hphase
      obtain rfl := Option.some.inj h
      exact finish_inv hi hticking writes
    | _ => simp [hp] at h

end

/-- **Head reports** in every calm run: HEAD is reported once it has stayed through a quiet window from one
    tick to another, and each rewind is reported once, with the sha reported before it. -/
theorem head_reports [DecidableEq Sha] {head : Sha} {reflog : Option Nat} {stored : Option Sha}
    {acts : List (HeadAct Sha)} {w : HeadWorld Sha}
    (h : Machine.Run (Machine.guarded (Undisturbed git) fun s a t => headStep quiet git s a = some t)
      (initial git head reflog stored) acts w) : HeadReports quiet w := by
  have hstep : ∀ s a t, HeadInv git quiet s → Machine.guarded (Undisturbed git)
      (fun s a t => headStep quiet git s a = some t) s a t → HeadInv git quiet t := by
    intro s a t hi hcalm
    exact headStep_inv hi hcalm.1 hcalm.2
  exact (h.invariant hstep (headInv_initial head reflog stored)).reports

section runs

/-- A line of commits. -/
def line : Git Nat := ⟨fun a b => decide (a ≤ b), fun a b => b - a, fun s => decide_eq_true (le_refl s)⟩

/-- Two commits and a reset, each read by a tick, and a restart once the head is stored again. -/
def calmActs : List (HeadAct Nat) :=
  [.start, .seed true, .move 2, .tick true, .read true true, .finish true true, .wait 5, .tick true,
    .start, .move 1, .tick true, .read true true, .finish true true]

def calmWorld : HeadWorld Nat :=
  ⟨1, some 2, 5, some 2, .idle ⟨some 2, some 1, none, false⟩, [.advanced 1 2 1, .rewound 2 1], some 1, [(2, 1)], [5]⟩

theorem head_reports_calm : HeadReports 5 calmWorld := by
  have hrun : Machine.Run (Machine.guarded (Undisturbed line) fun s a t => headStep 5 line s a = some t)
      (initial line 1 none none) calmActs calmWorld := Machine.run_of_exec_guarded (by decide)
  exact head_reports hrun

/-- HEAD moves after a tick has read it and before that tick looks at the reflog again. -/
def missedActs : List (HeadAct Nat) :=
  [.start, .seed true, .move 2, .tick true, .read true true, .move 3, .finish true true, .wait 5, .tick true,
    .wait 5, .tick true]

def missedWorld : HeadWorld Nat :=
  ⟨3, some 2, 10, some 2, .idle ⟨some 2, some 2, none, false⟩, [.advanced 1 2 1], some 1, [], [0, 5, 10]⟩

theorem head_missed : ¬ ∀ (git : Git Nat) (quiet head : Nat) (acts : List (HeadAct Nat)) (w : HeadWorld Nat),
    HeadRuns quiet git (initial git head none none) acts w → HeadReports quiet w := by
  intro h
  have hrun : Machine.exec (headStep 5 line) (initial line 1 none none) missedActs = some missedWorld := by decide
  have hcurrent := (h line 5 1 missedActs missedWorld (Machine.run_of_exec (fun _ _ _ hstep => hstep) hrun)).current
  exact absurd (hcurrent 0 (by decide) 10 (by decide) (by decide)) (by decide)

/-- The stored head is the one before a rewind, so after a restart the rewind is reported again. -/
def restartActs : List (HeadAct Nat) :=
  [.start, .seed true, .move 2, .tick true, .read true true, .finish true true, .wait 5, .tick true, .move 1,
    .tick true, .read true true, .finish true true, .start, .nudge, .tick true, .read true true, .finish true true]

example : ((Machine.exec (headStep 5 line) (initial line 1 none none) restartActs).map fun w =>
    (w.rewinds, rewoundOf w.reports)) = some ([(2, 1)], [(2, 1), (2, 1)]) := by decide

end runs

end BoopProc
