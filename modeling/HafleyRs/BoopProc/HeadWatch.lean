import HafleyRs.Lib.Machine

/-!
# The HEAD watcher (`crates/boop-proc/src/headwatch.rs`, `supervise.rs`)

| here | there |
| --- | --- |
| `Git` | `git merge-base --is-ancestor` and `git rev-list --count` (headwatch 279, 288) |
| `HeadMove`, `HeadBurst`, `HeadWatch` | headwatch 59, 66, 75; of the facts of an advance the range and the count |
| `due`, `see`, `settle` | `HeadWatch::tick` (109): the gate, what follows the read of HEAD, the quiet burst |
| `HeadWorld`, `headStep` | HEAD, its reflog time, the stored head, and a supervisor's steps on them |
| `ended` | `report_head_move` (supervise 1994) at the end of a tick (1311, 1867) |
| `start`, `seed` | `HeadWatch::new` (headwatch 86) on the stored head (supervise 1108) |

A tick is three steps, so that HEAD can move between them: the stat and the gate, the read of HEAD, the second
stat with the rest. `new` is two: the stat and, when no head is stored, the read. `answer` is whether git
answers, `writes` whether the store takes the reported head.
-/

namespace BoopProc

/-- What git says about two commits. -/
structure Git (Sha : Type) where
  isAncestor   : Sha → Sha → Bool
  revListCount : Sha → Sha → Nat
  refl         : ∀ s, isAncestor s s = true

variable {Sha : Type}

inductive HeadMove (Sha : Type) where
  | advanced (old new : Sha) (count : Nat)
  | rewound (old new : Sha)
deriving DecidableEq, Repr

def HeadMove.new : HeadMove Sha → Sha
  | advanced _ new _ => new
  | rewound _ new => new

structure HeadBurst (Sha : Type) where
  firstOld   : Sha
  latest     : Sha
  lastChange : Nat
  count      : Nat
deriving DecidableEq, Repr

structure HeadWatch (Sha : Type) where
  lastMtime : Option Nat
  reported  : Option Sha
  burst     : Option (HeadBurst Sha)
  nudged    : Bool
deriving DecidableEq, Repr

namespace HeadWatch

def start (stat : Option Nat) (reported : Option Sha) : HeadWatch Sha := ⟨stat, reported, none, false⟩

def nudge (v : HeadWatch Sha) : HeadWatch Sha := { v with nudged := true }

def due (v : HeadWatch Sha) (stat : Option Nat) : Bool := v.nudged || stat != v.lastMtime

/-- `descends_from`: a git that does not answer raises no rewind. -/
def descendsFrom (git : Git Sha) (answers : Bool) (ancestor candidate : Sha) : Bool :=
  if answers then git.isAncestor ancestor candidate else true

def settle (quiet : Nat) (v : HeadWatch Sha) (now : Nat) : HeadWatch Sha × Option (HeadMove Sha) :=
  match v.burst with
  | some burst =>
    if quiet ≤ now - burst.lastChange then
      ({ v with burst := none, reported := some burst.latest },
        some (.advanced burst.firstOld burst.latest burst.count))
    else (v, none)
  | none => (v, none)

/-- What the watch takes HEAD for, having reported `r`. -/
def target (v : HeadWatch Sha) (r : Sha) : Sha := (v.burst.map HeadBurst.latest).getD r

variable [DecidableEq Sha]

def unchanged (v : HeadWatch Sha) (head : Sha) : Bool :=
  match v.burst with
  | some burst => burst.latest = head
  | none => v.reported = some head

/-- HEAD was read as `head`; `stat` is the second look at the reflog. -/
def see (git : Git Sha) (answers : Bool) (v : HeadWatch Sha) (stat : Option Nat) (head : Sha) (now : Nat) :
    HeadWatch Sha × Option (HeadMove Sha) :=
  let v := { v with lastMtime := stat }
  if v.unchanged head then (v, none) else
    match v.reported with
    | some prev =>
      if descendsFrom git answers prev head then
        let firstOld := (v.burst.map HeadBurst.firstOld).getD prev
        let count := if answers then git.revListCount firstOld head else 0
        ({ v with burst := some ⟨firstOld, head, now, count⟩ }, none)
      else ({ v with reported := some head, burst := none }, some (.rewound prev head))
    | none => ({ v with reported := some head }, none)

end HeadWatch

/-! ## The steps -/

/-- Where the supervisor is: in `new`, between ticks, or in a tick that began at `now`. -/
inductive WatchPhase (Sha : Type) where
  | down
  | seeding (stat : Option Nat)
  | idle (v : HeadWatch Sha)
  | reading (v : HeadWatch Sha) (now : Nat)
  | seen (v : HeadWatch Sha) (now : Nat) (head : Sha)
deriving DecidableEq, Repr

/-- `reports` is what the parent was told. `baseline` is the head before the first report, `rewinds` the moves
    that left the last reported head behind, and `ticks` the times of the ticks done since HEAD moved. -/
structure HeadWorld (Sha : Type) where
  head     : Sha
  reflog   : Option Nat
  clock    : Nat
  stored   : Option Sha
  phase    : WatchPhase Sha
  reports  : List (HeadMove Sha)
  baseline : Option Sha
  rewinds  : List (Sha × Sha)
  ticks    : List Nat
deriving DecidableEq, Repr

inductive HeadAct (Sha : Type) where
  | move (head : Sha)
  | wait (ms : Nat)
  | start
  | seed (answer : Bool)
  | nudge
  | tick (writes : Bool)
  | read (answer writes : Bool)
  | finish (answers writes : Bool)
deriving DecidableEq, Repr

namespace HeadWorld

def lastReported (w : HeadWorld Sha) : Option Sha := (w.reports.getLast?.map HeadMove.new).or w.baseline

/-- The rewind that a head is, after the last report. -/
def rewindTo (git : Git Sha) (reported : Option Sha) (head : Sha) : List (Sha × Sha) :=
  match reported with
  | some r => if git.isAncestor r head then [] else [(r, head)]
  | none => []

/-- HEAD and a stored head, before any supervisor. -/
def initial (git : Git Sha) (head : Sha) (reflog : Option Nat) (stored : Option Sha) : HeadWorld Sha :=
  ⟨head, reflog, 0, stored, .down, [], stored, rewindTo git stored head, []⟩

def moved (git : Git Sha) (w : HeadWorld Sha) (head : Sha) : HeadWorld Sha :=
  { w with
    head
    reflog := some (w.reflog.getD 0 + 1)
    rewinds := w.rewinds ++ rewindTo git w.lastReported head
    ticks := [] }

def ended (w : HeadWorld Sha) (v : HeadWatch Sha) (mv : Option (HeadMove Sha)) (now : Nat) (writes : Bool) :
    HeadWorld Sha :=
  { w with
    phase := .idle v
    reports := w.reports ++ mv.toList
    stored := match mv with
      | some (.advanced _ new _) => if writes then some new else w.stored
      | _ => w.stored
    ticks := w.ticks ++ [now] }

end HeadWorld

section steps
variable (quiet : Nat)

def settled (w : HeadWorld Sha) (v : HeadWatch Sha) (now : Nat) (writes : Bool) : HeadWorld Sha :=
  w.ended (v.settle quiet now).1 (v.settle quiet now).2 now writes

variable [DecidableEq Sha] (git : Git Sha)

def finished (w : HeadWorld Sha) (v : HeadWatch Sha) (now : Nat) (head : Sha) (answers writes : Bool) :
    HeadWorld Sha :=
  match v.see git answers w.reflog head now with
  | (v, some mv) => w.ended v (some mv) now writes
  | (v, none) => settled quiet w v now writes

def headStep (w : HeadWorld Sha) : HeadAct Sha → Option (HeadWorld Sha)
  | .move head => some (w.moved git head)
  | .wait ms => some { w with clock := w.clock + ms }
  | .start => some { w with
      phase := match w.stored with
        | some reported => .idle (.start w.reflog (some reported))
        | none => .seeding w.reflog }
  | .seed answer => match w.phase with
    | .seeding stat =>
      let reported := if answer then some w.head else none
      some { w with phase := .idle (.start stat reported), baseline := w.baseline.or reported }
    | _ => none
  | .nudge => match w.phase with
    | .idle v => some { w with phase := .idle v.nudge }
    | _ => none
  | .tick writes => match w.phase with
    | .idle v =>
      if v.due w.reflog then some { w with phase := .reading { v with nudged := false } w.clock }
      else some (settled quiet w v w.clock writes)
    | _ => none
  | .read answer writes => match w.phase with
    | .reading v now =>
      if answer then some { w with phase := .seen v now w.head } else some (settled quiet w v now writes)
    | _ => none
  | .finish answers writes => match w.phase with
    | .seen v now head => some (finished quiet git w v now head answers writes)
    | _ => none

def HeadRuns (w : HeadWorld Sha) (acts : List (HeadAct Sha)) (w' : HeadWorld Sha) : Prop :=
  Machine.Run (fun s a t => headStep quiet git s a = some t) w acts w'

end steps

/-! ## The property and the calm runs -/

def rewoundOf (reports : List (HeadMove Sha)) : List (Sha × Sha) :=
  reports.filterMap fun
    | .rewound old new => some (old, new)
    | .advanced .. => none

/-- The last reported head is HEAD once it has stayed through a quiet window from one tick to another, and the
    rewinds reported are the rewinds made, but for one that no tick has run after. -/
structure HeadReports (quiet : Nat) (w : HeadWorld Sha) : Prop where
  current : ∀ t ∈ w.ticks, ∀ t' ∈ w.ticks, t + quiet ≤ t' → w.lastReported = some w.head
  rewound : rewoundOf w.reports <+: w.rewinds
  all     : w.ticks ≠ [] → rewoundOf w.reports = w.rewinds

/-- In a tick that has read HEAD and not yet looked at the reflog again, or in `new` the other way round. -/
def HeadWorld.betweenReads (w : HeadWorld Sha) : Bool :=
  match w.phase with
  | .seeding _ => true
  | .seen .. => true
  | _ => false

/-- Git answers; HEAD does not move between two reads of one tick or of a start, nor while it is a rewind that
    no tick has seen; a supervisor starts while HEAD is the last reported head and the stored one. -/
def Undisturbed (git : Git Sha) (w : HeadWorld Sha) : HeadAct Sha → Prop
  | .move _ => w.betweenReads = false ∧ ∀ r ∈ w.lastReported, git.isAncestor r w.head = true
  | .start => (∀ r ∈ w.lastReported, r = w.head) ∧ ∀ s ∈ w.stored, s = w.head
  | .seed answer => answer = true
  | .read answer _ => answer = true
  | .finish answers _ => answers = true
  | _ => True

instance [DecidableEq Sha] (git : Git Sha) (w : HeadWorld Sha) (a : HeadAct Sha) : Decidable (Undisturbed git w a) :=
  match a with
  | .move _ => inferInstanceAs (Decidable (_ ∧ ∀ r ∈ w.lastReported, git.isAncestor r w.head = true))
  | .start => inferInstanceAs (Decidable ((∀ r ∈ w.lastReported, r = w.head) ∧ ∀ s ∈ w.stored, s = w.head))
  | .seed answer => inferInstanceAs (Decidable (answer = true))
  | .read answer _ => inferInstanceAs (Decidable (answer = true))
  | .finish answers _ => inferInstanceAs (Decidable (answers = true))
  | .wait _ => isTrue trivial
  | .nudge => isTrue trivial
  | .tick _ => isTrue trivial

end BoopProc
