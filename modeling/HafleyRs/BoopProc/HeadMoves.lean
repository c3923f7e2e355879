import HafleyRs.BoopProc.HeadWatchRuns
import HafleyRs.Lib.History

/-!
# The moves of one HEAD watcher (`crates/boop-proc/src/headwatch.rs`:65–158)

| here | there |
| --- | --- |
| `gitOf` | `git merge-base --is-ancestor` (291) and `git rev-list --count` (299), parsed as a `u32` |
| `Look` | what one tick is told: a nudge before it, both stats of the reflog, HEAD, whether git answers, the time |
| `readHead`, `tick` | `HeadWatch::tick` (109) |

Git answers both questions of a tick or neither. `Watched` keeps beside the watch what it has emitted: the moves, the
commit they start from, the bursts opened so far, and the number of the burst each move was emitted for.

A burst that has come back to the reported commit is still a burst, and is reported as an advance by no commit
(`burst_returns`).
-/

namespace BoopProc
open HeadWatch

variable {Sha : Type} [DecidableEq Sha]

def gitOf (graph : Dag Sha) : Git Sha where
  isAncestor ancestor candidate := decide (ancestor ∈ graph.history candidate)
  revListCount old new          := if (graph.since old new).card < 2 ^ 32 then (graph.since old new).card else 0
  refl _                        := by simp

structure Look (Sha : Type) where
  nudged    : Bool
  stat      : Option Nat
  head      : Option Sha
  answers   : Bool
  statAfter : Option Nat
  now       : Nat
deriving DecidableEq, Repr

section
variable (graph : Dag Sha) (quiet : Nat)

def armed (v : HeadWatch Sha) (look : Look Sha) : HeadWatch Sha := if look.nudged then v.nudge else v

def readHead (v : HeadWatch Sha) (look : Look Sha) : HeadWatch Sha × Option (HeadMove Sha) :=
  if v.due look.stat then
    let v := { v with nudged := false }
    match look.head with
    | some head => v.see (gitOf graph) look.answers look.statAfter head look.now
    | none      => (v, none)
  else (v, none)

def tick (v : HeadWatch Sha) (look : Look Sha) : HeadWatch Sha × Option (HeadMove Sha) :=
  match readHead graph (armed v look) look with
  | (v, some move) => (v, some move)
  | (v, none)      => v.settle quiet look.now

structure Watched (Sha : Type) where
  watch  : HeadWatch Sha
  seed   : Option Sha
  moves  : List (HeadMove Sha)
  opened : Nat
  ended  : List Nat

def Watched.start (stat : Option Nat) (reported : Option Sha) : Watched Sha where
  watch  := .start stat reported
  seed   := reported
  moves  := []
  opened := 0
  ended  := []

/-- A tick opens a burst if there was none, and a move ends the burst there is, be it one of the same tick. -/
def watchTick (w : Watched Sha) (look : Look Sha) : Watched Sha :=
  let seen := (readHead graph (armed w.watch look) look).1
  let (watch, move) := tick graph quiet w.watch look
  let opened := if w.watch.burst.isNone && seen.burst.isSome then w.opened + 1 else w.opened
  let ends := move.isSome && (w.watch.burst.isSome || seen.burst.isSome)
  { watch, opened
    seed  := w.seed.or watch.reported
    moves := w.moves ++ move.toList
    ended := w.ended ++ if ends then [opened] else [] }

def WatchRuns (w : Watched Sha) (looks : List (Look Sha)) (w' : Watched Sha) : Prop :=
  Machine.Run (fun s look t => watchTick graph quiet s look = t) w looks w'

end

/-! ## Moves that chain -/

variable {graph : Dag Sha} {quiet : Nat}

/-- A move away from `r`: to a proper descendant, by as many commits as that has over `r`, or to no descendant. -/
def MoveFrom (graph : Dag Sha) (r : Sha) : HeadMove Sha → Prop
  | .advanced old new count => old = r ∧ r ∈ graph.history new ∧ new ≠ r ∧ count = (graph.since r new).card ∧ 1 ≤ count
  | .rewound old new        => old = r ∧ r ∉ graph.history new

def MovesFrom (graph : Dag Sha) (r : Sha) : List (HeadMove Sha) → Prop
  | []           => True
  | move :: rest => MoveFrom graph r move ∧ MovesFrom graph move.new rest

/-- Where moves from `r` lead. -/
def headAfter (r : Sha) (moves : List (HeadMove Sha)) : Sha := moves.foldl (fun _ move => move.new) r

theorem MovesFrom.concat {r : Sha} {moves : List (HeadMove Sha)} {move : HeadMove Sha}
    (h : MovesFrom graph r moves) (hmove : MoveFrom graph (headAfter r moves) move) :
    MovesFrom graph r (moves ++ [move]) := by
  induction moves generalizing r with
  | nil => exact ⟨hmove, trivial⟩
  | cons m moves ih => exact ⟨h.1, ih h.2 hmove⟩

omit [DecidableEq Sha] in
theorem headAfter_concat (r : Sha) (moves : List (HeadMove Sha)) (move : HeadMove Sha) :
    headAfter r (moves ++ [move]) = move.new := by simp [headAfter]

/-- The moves emitted chain from the seed, and no two are for one burst. -/
structure HeadMovesChain (graph : Dag Sha) (w : Watched Sha) : Prop where
  chain    : ∀ s, w.seed = some s → MovesFrom graph s w.moves
  unseeded : w.seed = none → w.moves = []
  once     : w.ended.Nodup

/-- Where HEAD is not what the watch, having reported `r`, takes it for, git answers, HEAD is not back at `r`, and a
descendant is fewer than 2^32 commits ahead. -/
def ClearHead (graph : Dag Sha) (v : HeadWatch Sha) (look : Look Sha) (r : Sha) : Prop :=
  ∀ head, look.head = some head → v.target r ≠ head → look.answers = true ∧ head ≠ r ∧
    (r ∈ graph.history head → (graph.since r head).card < 2 ^ 32)

/-- A tick that reads HEAD finds it clear. -/
def Clear (graph : Dag Sha) (w : Watched Sha) (look : Look Sha) : Prop :=
  ∀ r, w.watch.reported = some r → (armed w.watch look).due look.stat = true → ClearHead graph w.watch look r

/-! ## One tick -/

section
variable {v : HeadWatch Sha} {look : Look Sha} {r : Sha}

omit [DecidableEq Sha] in
@[simp] theorem armed_reported : (armed v look).reported = v.reported := by
  unfold armed
  split <;> rfl

omit [DecidableEq Sha] in
@[simp] theorem armed_burst : (armed v look).burst = v.burst := by
  unfold armed
  split <;> rfl

/-- The open burst starts at the reported commit and would be a move from there. -/
def BurstFrom (graph : Dag Sha) (r : Sha) (v : HeadWatch Sha) : Prop :=
  ∀ b, v.burst = some b → b.firstOld = r ∧ MoveFrom graph r (.advanced r b.latest b.count)

theorem revListCount_gitOf {old new : Sha} (h : (graph.since old new).card < 2 ^ 32) :
    (gitOf graph).revListCount old new = (graph.since old new).card := if_pos h

theorem readHead_unseeded (hr : v.reported = none) (hburst : v.burst = none) :
    (readHead graph v look).2 = none ∧ (readHead graph v look).1.burst = none := by
  obtain ⟨lastMtime, reported, burst, nudged⟩ := v
  obtain rfl : reported = none := hr
  obtain rfl : burst = none := hburst
  unfold readHead
  split
  · cases look.head with
    | none => exact ⟨rfl, rfl⟩
    | some head => simp [see, unchanged]
  · exact ⟨rfl, rfl⟩

theorem see_target {git : Git Sha} {answers : Bool} {stat : Option Nat} {head : Sha} {now : Nat}
    (hr : v.reported = some r) (h : v.target r = head) :
    v.see git answers stat head now = ({ v with lastMtime := stat }, none) := by
  obtain ⟨lastMtime, reported, burst, nudged⟩ := v
  obtain rfl : reported = some r := hr
  unfold see
  rw [if_pos]
  cases burst with
  | none => simpa [unchanged, target] using h
  | some b => simpa [unchanged, target] using h

omit [DecidableEq Sha] in
@[simp] theorem armed_target : (armed v look).target r = v.target r := by rw [target, armed_burst, target]

/-- What reading HEAD does: nothing, a burst that moves on, or a rewind. -/
theorem readHead_reported (hr : v.reported = some r) (hburst : BurstFrom graph r v)
    (hclear : v.due look.stat = true → ClearHead graph v look r) :
    ((readHead graph v look).2 = none ∧ (readHead graph v look).1.reported = some r ∧
      (readHead graph v look).1.burst = v.burst) ∨
    ((readHead graph v look).2 = none ∧ (readHead graph v look).1.reported = some r ∧
      BurstFrom graph r (readHead graph v look).1) ∨
    ∃ head, r ∉ graph.history head ∧ (readHead graph v look).2 = some (.rewound r head) ∧
      (readHead graph v look).1.reported = some head ∧ (readHead graph v look).1.burst = none := by
  unfold readHead
  by_cases hdue : v.due look.stat = true
  · rw [if_pos hdue]
    cases hhead : look.head with
    | none => exact Or.inl ⟨rfl, hr, rfl⟩
    | some head =>
      have hfirst : (v.burst.map HeadBurst.firstOld).getD r = r := by
        cases hb : v.burst with
        | none => rfl
        | some b => exact (hburst b hb).1
      by_cases htarget : v.target r = head
      · simp only [@see_target _ _ { v with nudged := false } r (gitOf graph) look.answers look.statAfter head look.now
          hr htarget]
        exact Or.inl ⟨trivial, hr, trivial⟩
      obtain ⟨hanswers, hback, hcount⟩ := hclear hdue head hhead htarget
      simp only [hanswers]
      rcases @see_reported _ (gitOf graph) { v with nudged := false } r head look.statAfter look.now _ hr with
        ⟨hsame, -⟩ | ⟨hahead, -, hsee⟩ | ⟨hahead, hsee⟩
      · exact absurd hsame htarget
      · rw [hsee]
        refine Or.inr (Or.inl ⟨rfl, hr, ?_⟩)
        have hdescends : r ∈ graph.history head := of_decide_eq_true hahead
        rintro b ⟨⟩
        have hcard : (gitOf graph).revListCount ((v.burst.map HeadBurst.firstOld).getD r) head =
            (graph.since r head).card := by rw [hfirst, revListCount_gitOf (hcount hdescends)]
        exact ⟨hfirst, rfl, hdescends, hback, hcard, hcard ▸ Dag.since_pos hdescends hback.symm⟩
      · rw [hsee]
        exact Or.inr (Or.inr ⟨head, of_decide_eq_false hahead, rfl, rfl, rfl⟩)
  · rw [if_neg hdue]
    exact Or.inl ⟨rfl, hr, rfl⟩

/-- A tick that emits leaves no burst, and one that does not leaves the burst that reading HEAD has left. -/
theorem tick_burst : (∀ move, (tick graph quiet v look).2 = some move → (tick graph quiet v look).1.burst = none) ∧
    ((tick graph quiet v look).2 = none →
      (tick graph quiet v look).1.burst = (readHead graph (armed v look) look).1.burst) := by
  have hread : ∀ v' move, readHead graph (armed v look) look = (v', some move) → v'.burst = none := by
    intro v' move h
    unfold readHead see at h
    split_ifs at h <;> grind
  unfold tick
  cases hseen : readHead graph (armed v look) look with
  | mk v' move? =>
    cases move? with
    | some move => exact ⟨fun _ _ => hread v' move hseen, fun h => by cases h⟩
    | none =>
      rcases settle_cases quiet v' look.now with ⟨b, -, -, hsettle⟩ | ⟨hsettle, -⟩
      · simp [hsettle]
      · simp [hsettle]

/-- The whole of a tick: nothing is emitted, or a move from the reported commit. -/
theorem tick_reported (hr : v.reported = some r) (hburst : BurstFrom graph r v)
    (hclear : (armed v look).due look.stat = true → ClearHead graph v look r) :
    ((tick graph quiet v look).2 = none ∧ (tick graph quiet v look).1.reported = some r ∧
      BurstFrom graph r (tick graph quiet v look).1) ∨
    ∃ move, (tick graph quiet v look).2 = some move ∧ MoveFrom graph r move ∧
      (tick graph quiet v look).1.reported = some move.new := by
  have hread := @readHead_reported _ _ graph (armed v look) look r (by rw [armed_reported, hr])
    (by simpa only [BurstFrom, armed_burst] using hburst) (by simpa only [ClearHead, armed_target] using hclear)
  unfold tick
  cases hseen : readHead graph (armed v look) look with
  | mk v' move? =>
    rw [hseen] at hread
    simp only at hread
    have hquiet : v'.reported = some r → BurstFrom graph r v' →
        ((v'.settle quiet look.now).2 = none ∧ (v'.settle quiet look.now).1.reported = some r ∧
          BurstFrom graph r (v'.settle quiet look.now).1) ∨
        ∃ move, (v'.settle quiet look.now).2 = some move ∧ MoveFrom graph r move ∧
          (v'.settle quiet look.now).1.reported = some move.new := by
      intro hr' hburst'
      rcases settle_cases quiet v' look.now with ⟨b, hb, -, hsettle⟩ | ⟨hsettle, -⟩
      · obtain ⟨hfirst, hmove⟩ := hburst' b hb
        rw [hsettle]
        exact Or.inr ⟨_, rfl, hfirst ▸ hmove, rfl⟩
      · rw [hsettle]
        exact Or.inl ⟨rfl, hr', hburst'⟩
    rcases hread with ⟨rfl, hr', hsame⟩ | ⟨rfl, hr', hburst'⟩ | ⟨head, hnot, rfl, hr', -⟩
    · refine hquiet hr' fun b hb => hburst b ?_
      rw [← hb, hsame, armed_burst]
    · exact hquiet hr' hburst'
    · exact Or.inr ⟨_, rfl, ⟨rfl, hnot⟩, hr'⟩

theorem tick_unseeded (hr : v.reported = none) (hburst : v.burst = none) :
    (tick graph quiet v look).2 = none ∧ (tick graph quiet v look).1.burst = none := by
  obtain ⟨hnone, hburst'⟩ := @readHead_unseeded _ _ graph (armed v look) look (by rw [armed_reported, hr])
    (by rw [armed_burst, hburst])
  unfold tick
  cases hseen : readHead graph (armed v look) look with
  | mk v' move? =>
    rw [hseen] at hnone hburst'
    obtain rfl : move? = none := hnone
    rcases settle_cases quiet v' look.now with ⟨b, hb, -, -⟩ | ⟨hsettle, -⟩
    · rw [hburst'] at hb
      cases hb
    · simp only [hsettle]
      exact ⟨trivial, hburst'⟩

end

/-! ## Runs -/

/-- The bursts that moves were emitted for are past ones. -/
structure Counted (w : Watched Sha) : Prop where
  le   : ∀ n ∈ w.ended, n ≤ w.opened
  lt   : w.watch.burst.isSome = true → ∀ n ∈ w.ended, n < w.opened
  once : w.ended.Nodup

/-- What a watch keeps: its moves lead from the seed to the reported commit, and its burst from there. -/
structure Chained (graph : Dag Sha) (w : Watched Sha) : Prop where
  unseeded : w.watch.reported = none → w.seed = none ∧ w.moves = [] ∧ w.watch.burst = none
  seeded   : ∀ r, w.watch.reported = some r → ∃ s, w.seed = some s ∧ MovesFrom graph s w.moves ∧
    headAfter s w.moves = r ∧ BurstFrom graph r w.watch
  counted  : Counted w

variable {w : Watched Sha} {look : Look Sha}

/-- The number of the burst that is open once HEAD is read. -/
def openedAfter (graph : Dag Sha) (w : Watched Sha) (look : Look Sha) : Nat :=
  if w.watch.burst.isNone && (readHead graph (armed w.watch look) look).1.burst.isSome then w.opened + 1 else w.opened

theorem Counted.lt_openedAfter (h : Counted w) (hburst : (w.watch.burst.isSome ||
    (readHead graph (armed w.watch look) look).1.burst.isSome) = true) :
    ∀ n ∈ w.ended, n < openedAfter graph w look := by
  intro n hn
  have hle := h.le n hn
  unfold openedAfter
  cases hb : w.watch.burst with
  | some b =>
    simp only [Option.isNone_some, Bool.false_and, Bool.false_eq_true, if_false]
    exact h.lt (by rw [hb]; rfl) n hn
  | none =>
    rw [hb, Option.isSome_none, Bool.false_or] at hburst
    simp only [Option.isNone_none, hburst, Bool.and_self, if_true]
    omega

theorem Counted.le_openedAfter (h : Counted w) : ∀ n ∈ w.ended, n ≤ openedAfter graph w look := by
  intro n hn
  have hle := h.le n hn
  unfold openedAfter
  split <;> omega

theorem Counted.step (h : Counted w) : Counted (watchTick graph quiet w look) := by
  obtain ⟨hemits, hkeeps⟩ := @tick_burst _ _ graph quiet w.watch look
  have hended : (watchTick graph quiet w look).ended = w.ended ++
      if (tick graph quiet w.watch look).2.isSome && (w.watch.burst.isSome ||
        (readHead graph (armed w.watch look) look).1.burst.isSome) then [openedAfter graph w look] else [] := rfl
  have hwatch : (watchTick graph quiet w look).watch = (tick graph quiet w.watch look).1 := rfl
  have hopened : (watchTick graph quiet w look).opened = openedAfter graph w look := rfl
  cases hmove : (tick graph quiet w.watch look).2 with
  | none =>
    rw [hmove, Option.isSome_none, Bool.false_and, if_neg Bool.false_ne_true, List.append_nil] at hended
    constructor
    · rw [hended, hopened]
      exact h.le_openedAfter
    · rw [hended, hopened, hwatch, hkeeps hmove]
      exact fun hburst => h.lt_openedAfter (by rw [hburst, Bool.or_true])
    · rw [hended]
      exact h.once
  | some move =>
    have hgone : (watchTick graph quiet w look).watch.burst = none := hwatch ▸ hemits move hmove
    rw [hmove, Option.isSome_some, Bool.true_and] at hended
    split at hended
    case isTrue hburst =>
      have hlt := h.lt_openedAfter hburst
      constructor
      · rw [hended, hopened]
        intro n hn
        rcases List.mem_append.1 hn with hn | hn
        · exact (hlt n hn).le
        · exact (List.mem_singleton.1 hn).le
      · rw [hgone]
        nofun
      · rw [hended, List.nodup_append]
        refine ⟨h.once, List.nodup_singleton _, fun n hn m hm heq => ?_⟩
        rw [List.mem_singleton] at hm
        exact (hlt n hn).ne (heq.trans hm)
    case isFalse =>
      rw [List.append_nil] at hended
      constructor
      · rw [hended, hopened]
        exact h.le_openedAfter
      · rw [hgone]
        nofun
      · rw [hended]
        exact h.once

theorem Chained.step (h : Chained graph w) (hclear : Clear graph w look) :
    Chained graph (watchTick graph quiet w look) := by
  have hwatch : (watchTick graph quiet w look).watch = (tick graph quiet w.watch look).1 := rfl
  have hmoves : (watchTick graph quiet w look).moves = w.moves ++ (tick graph quiet w.watch look).2.toList := rfl
  have hseed : (watchTick graph quiet w look).seed = w.seed.or (tick graph quiet w.watch look).1.reported := rfl
  cases hr : w.watch.reported with
  | none =>
    obtain ⟨hunseeded, hempty, hburst⟩ := h.unseeded hr
    obtain ⟨hnone, hburst'⟩ := @tick_unseeded _ _ graph quiet w.watch look hr hburst
    rw [hempty, hnone] at hmoves
    rw [hunseeded, Option.none_or] at hseed
    constructor
    · intro hr'
      rw [hseed, hmoves, hwatch]
      exact ⟨hwatch ▸ hr', rfl, hburst'⟩
    · intro r hr'
      refine ⟨r, hseed.trans (hwatch ▸ hr'), ?_⟩
      rw [hmoves, hwatch]
      refine ⟨trivial, rfl, fun b hb => ?_⟩
      rw [hburst'] at hb
      cases hb
    · exact h.counted.step
  | some r =>
    obtain ⟨s, hs, hchain, hlast, hburst⟩ := h.seeded r hr
    rw [hs, Option.some_or] at hseed
    rcases @tick_reported _ _ graph quiet w.watch look r hr hburst (hclear r hr) with
      ⟨hnone, hr', hburst'⟩ | ⟨move, hmove, hfrom, hr'⟩
    · rw [hnone, Option.toList_none, List.append_nil] at hmoves
      constructor
      · intro hr''
        rw [hwatch, hr'] at hr''
        cases hr''
      · intro r' hr''
        rw [hwatch, hr', Option.some.injEq] at hr''
        subst hr''
        rw [hmoves, hwatch]
        exact ⟨s, hseed, hchain, hlast, hburst'⟩
      · exact h.counted.step
    · rw [hmove, Option.toList_some] at hmoves
      have hgone := (@tick_burst _ _ graph quiet w.watch look).1 move hmove
      constructor
      · intro hr''
        rw [hwatch, hr'] at hr''
        cases hr''
      · intro r' hr''
        rw [hwatch, hr', Option.some.injEq] at hr''
        subst hr''
        rw [hmoves, hwatch]
        refine ⟨s, hseed, hchain.concat (hlast ▸ hfrom), headAfter_concat _ _ _, fun b hb => ?_⟩
        rw [hgone] at hb
        cases hb
      · exact h.counted.step

theorem chained_start (stat : Option Nat) (reported : Option Sha) :
    Chained graph (Watched.start stat reported) where
  unseeded h := ⟨h, rfl, rfl⟩
  seeded r h := ⟨r, h, trivial, rfl, nofun⟩
  counted    := ⟨nofun, nofun, List.nodup_nil⟩

/-- **Head moves chain** — in every run whose ticks are clear. -/
theorem head_moves_chain (graph : Dag Sha) (quiet : Nat) (stat : Option Nat) (reported : Option Sha)
    (looks : List (Look Sha)) (w : Watched Sha) (hrun : Machine.Run (Machine.guarded (Clear graph)
      fun s look t => watchTick graph quiet s look = t) (.start stat reported) looks w) : HeadMovesChain graph w := by
  have hchained : Chained graph w := by
    refine hrun.invariant (I := Chained graph) ?_ (chained_start stat reported)
    rintro s look t hs ⟨hclear, rfl⟩
    exact hs.step hclear
  constructor
  · intro s hs
    cases hr : w.watch.reported with
    | none =>
      rw [(hchained.unseeded hr).1] at hs
      cases hs
    | some r =>
      obtain ⟨s', hs', hmoves, -, -⟩ := hchained.seeded r hr
      obtain rfl := Option.some.inj (hs.symm.trans hs')
      exact hmoves
  · intro hs
    cases hr : w.watch.reported with
    | none => exact (hchained.unseeded hr).2.1
    | some r =>
      obtain ⟨s', hs', -⟩ := hchained.seeded r hr
      rw [hs] at hs'
      cases hs'
  · exact hchained.counted.once

/-- Three commits in a row. -/
def lineOfCommits : Dag Nat where
  parents n := if n = 0 then [] else [n - 1]
  rank n    := n
  falls n p hp := by
    split at hp
    · cases hp
    · rw [List.mem_singleton] at hp
      omega

def lookAt (head now : Nat) : Look Nat := ⟨true, none, some head, true, none, now⟩

theorem advance_chains : HeadMovesChain lineOfCommits
    (watchTick lineOfCommits 5 (watchTick lineOfCommits 5 (.start none (some 0)) (lookAt 1 0)) (lookAt 1 9)) := by
  refine head_moves_chain lineOfCommits 5 none (some 0) [lookAt 1 0, lookAt 1 9] _
    (.cons ⟨?_, rfl⟩ (.cons ⟨?_, rfl⟩ (.nil _)))
  · rintro r ⟨⟩ - head ⟨⟩ -
    exact ⟨rfl, by decide, fun _ => by decide⟩
  · rintro r ⟨⟩ - head ⟨⟩ -
    exact ⟨rfl, by decide, fun _ => by decide⟩

/-- HEAD goes one commit on and comes back: the burst is reported as an advance from the commit to itself. -/
theorem burst_returns : ¬ ∀ (graph : Dag Nat) (quiet : Nat) (stat : Option Nat) (reported : Option Nat)
    (looks : List (Look Nat)) (w : Watched Nat), WatchRuns graph quiet (.start stat reported) looks w →
      HeadMovesChain graph w := by
  intro h
  have hchain := h lineOfCommits 5 none (some 0) [lookAt 1 0, lookAt 0 1, lookAt 0 9] _
    (.cons rfl (.cons rfl (.cons rfl (.nil _))))
  have hmoves : MovesFrom lineOfCommits 0 [.advanced 0 0 0] := hchain.chain 0 rfl
  exact hmoves.1.2.2.1 rfl

end BoopProc
