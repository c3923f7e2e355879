import HafleyRs.BoopProc.DeliverRuns
import HafleyRs.Lib.Window

/-!
# The door budget over runs

A `Meter` is the ledger with the clock and the trace of the pushes (a body that a door or the acpx queue
took, `sentMs` when the gate let it pass and `notedMs` when its row was written) and of the refusals. The
attempts come one after another and read a clock that does not go back; the message of an attempt is in
the mailbox.

The gate looks back one window from a push it is about to make, and finds every push that was noted since
(`Metered.recorded`): so the pushes are `Window.Throttled`, which bounds every window. A trip is written only
outside every cool-off (`Metered.trips`). All of it rests on milliseconds that survive `as u64` and
`as i64`: a window of `2^64` of them or more is read as a short one (`window_read_short`).
-/

namespace BoopProc
open BoopStore

/-! ## The latest trip -/

/-- Trips in the order of the clock. -/
def Sorted (rows : List DoorBlowoutRow) : Prop := rows.Pairwise fun a b => a.atMs ≤ b.atMs

theorem newest_getLast {rows : List DoorBlowoutRow} (hsorted : Sorted rows) (hlt : ∀ r ∈ rows, r.atMs < 2 ^ 63) :
    rows.foldl Ledger.newer none = rows.getLast? := by
  induction rows using List.reverseRecOn with
  | nil => rfl
  | append_singleton rows r ih =>
    obtain ⟨hsorted, -, hle⟩ := List.pairwise_append.1 hsorted
    rw [List.foldl_append, ih hsorted fun b hb => hlt b (List.mem_append_left _ hb), List.getLast?_concat]
    cases hlast : rows.getLast? with
    | none => rfl
    | some b =>
      have hb : b ∈ rows := List.mem_of_getLast? hlast
      have hat : b.atMs ≤ r.atMs := hle b hb r (List.mem_singleton_self r)
      have hb63 := hlt b (List.mem_append_left _ hb)
      have hr63 := hlt r (by simp)
      have hle' : asI64 b.atMs ≤ asI64 r.atMs := by
        rw [asI64_of_lt hb63, asI64_of_lt hr63]
        exact_mod_cast hat
      simp only [List.foldl_cons, List.foldl_nil, Ledger.newer, if_pos hle']

/-- The instant the cool-off ends, were it not for the width of the column. -/
def DoorBlowoutRow.endMs (r : DoorBlowoutRow) : Nat := r.atMs + r.cooldownMs

theorem endMs_le_of_untilMs {r : DoorBlowoutRow} {nowMs : Nat} (hnow : nowMs < 2 ^ 63) (h : r.untilMs ≤ nowMs) :
    r.endMs ≤ nowMs := by
  unfold DoorBlowoutRow.untilMs at h
  unfold DoorBlowoutRow.endMs
  omega

/-- No cool-off overlaps the next of its route. -/
def Apart (rows : List DoorBlowoutRow) : Prop := rows.Pairwise fun a b => a.route = b.route → a.endMs ≤ b.atMs

theorem Apart.concat {rows : List DoorBlowoutRow} {r : DoorBlowoutRow} (h : Apart rows)
    (hr : ∀ b ∈ rows, b.route = r.route → b.endMs ≤ r.atMs) : Apart (rows ++ [r]) := by
  refine List.pairwise_append.2 ⟨h, List.pairwise_singleton .., fun b hb x hx => ?_⟩
  obtain rfl := List.mem_singleton.1 hx
  exact hr b hb

/-- Whether the row's cool-off is in force. -/
def covers (route : String) (nowMs : Nat) (r : DoorBlowoutRow) : Bool :=
  r.route = route && r.atMs ≤ nowMs && nowMs < r.endMs

/-- **One trip a cool-off.** -/
theorem Apart.one {rows : List DoorBlowoutRow} (h : Apart rows) {route : String} {nowMs : Nat}
    {r : DoorBlowoutRow} (hr : r ∈ rows) (hcov : covers route nowMs r = true) :
    (rows.filter (covers route nowMs)).length = 1 := by
  have hmem : r ∈ rows.filter (covers route nowMs) := List.mem_filter.2 ⟨hr, hcov⟩
  have hpair := h.filter (covers route nowMs)
  generalize hlist : rows.filter (covers route nowMs) = seen at hmem hpair ⊢
  match seen, hmem, hpair with
  | [_], _, _ => rfl
  | a :: b :: rest, _, hpair =>
    have hcovers : ∀ x ∈ a :: b :: rest, covers route nowMs x = true := fun x hx => by
      rw [← hlist] at hx
      exact (List.mem_filter.1 hx).2
    have ha := hcovers a (by simp)
    have hb := hcovers b (by simp)
    simp only [covers, Bool.and_eq_true, decide_eq_true_eq] at ha hb
    have hle := List.rel_of_pairwise_cons hpair (List.mem_cons_self ..) (ha.1.1.trans hb.1.1.symm)
    omega

/-- The trip that is in force. -/
def inForce (s : Ledger) (route : String) (nowMs : Nat) : Option DoorBlowoutRow :=
  (s.latestDoorBlowout route).filter fun trip => trip.untilMs > nowMs

section latest
variable {s : Ledger} {route : String} {nowMs : Nat}

theorem latest_eq (hsorted : Sorted s.blowouts) (hlt : ∀ r ∈ s.blowouts, r.atMs < 2 ^ 63) :
    s.latestDoorBlowout route = (s.blowouts.filter fun r => r.route = route).getLast? :=
  newest_getLast (hsorted.filter _) fun r hr => hlt r (List.mem_of_mem_filter hr)

/-- Outside the latest cool-off is outside all of them. -/
theorem ended_of_latest (hsorted : Sorted s.blowouts) (hlt : ∀ r ∈ s.blowouts, r.atMs < 2 ^ 63)
    (hapart : Apart s.blowouts) (hnow : nowMs < 2 ^ 63)
    (h : inForce s route nowMs = none) :
    ∀ r ∈ s.blowouts, r.route = route → r.endMs ≤ nowMs := by
  intro r hr hroute
  have hmem : r ∈ s.blowouts.filter fun r => r.route = route := List.mem_filter.2 ⟨hr, decide_eq_true hroute⟩
  rw [inForce, latest_eq hsorted hlt] at h
  cases hlast : (s.blowouts.filter fun r => r.route = route).getLast? with
  | none =>
    rw [List.getLast?_eq_none_iff.1 hlast] at hmem
    cases hmem
  | some last =>
    have hend : last.endMs ≤ nowMs := by
      rw [hlast] at h
      exact endMs_le_of_untilMs hnow (by simpa using h)
    obtain ⟨before, hsplit⟩ := List.getLast?_eq_some_iff.1 hlast
    have hpair : Apart (before ++ [last]) := hsplit ▸ hapart.filter _
    have hlastRoute : last.route = route := by
      have hin : last ∈ s.blowouts.filter fun r => r.route = route := List.mem_of_getLast? hlast
      exact of_decide_eq_true (List.mem_filter.1 hin).2
    rw [hsplit] at hmem
    rcases List.mem_append.1 hmem with hbefore | hhere
    · have hle := (List.pairwise_append.1 hpair).2.2 r hbefore last (List.mem_singleton_self _)
        (hroute.trans hlastRoute.symm)
      exact hle.trans ((Nat.le_add_right ..).trans hend)
    · rw [List.mem_singleton.1 hhere]
      exact hend

/-- A trip that is in force covers the clock. -/
theorem covers_of_latest (hsorted : Sorted s.blowouts) (hlt : ∀ r ∈ s.blowouts, r.atMs < 2 ^ 63)
    (hle : ∀ r ∈ s.blowouts, r.atMs ≤ nowMs) {trip : DoorBlowoutRow}
    (h : inForce s route nowMs = some trip) :
    trip ∈ s.blowouts ∧ covers route nowMs trip = true := by
  obtain ⟨hlatest, huntil⟩ := Option.filter_eq_some_iff.1 h
  rw [latest_eq hsorted hlt] at hlatest
  obtain ⟨hmem, hroute⟩ := List.mem_filter.1 (List.mem_of_getLast? hlatest)
  have hat := hle trip hmem
  have hbefore : nowMs < trip.endMs := by
    simp only [DoorBlowoutRow.untilMs, gt_iff_lt, decide_eq_true_eq, lt_min_iff] at huntil
    exact huntil.1
  refine ⟨hmem, ?_⟩
  simp only [covers, Bool.and_eq_true, decide_eq_true_eq]
  exact ⟨⟨of_decide_eq_true hroute, hat⟩, hbefore⟩

end latest

/-! ## The verdict and one attempt -/

section verdict
variable {s : Ledger} {route : String} {routes : Routes} {body : String} {budget : DoorBudget} {nowMs : Nat}

theorem doorVerdict_open (h : doorVerdict s route routes body budget nowMs = .open) :
    inForce s route nowMs = none ∧
    s.doorPushesSince route (nowMs - budget.window.millisU64) < budget.allowance route routes ∧
    s.doorPushedBodySince route body (nowMs - budget.window.millisU64) = false := by
  unfold doorVerdict at h
  split at h
  · cases h
  · rename_i hnone
    simp only at h
    split_ifs at h with hfull hbody
    exact ⟨hnone, Nat.lt_of_not_le hfull, by simpa using hbody⟩

theorem doorGate_some {landing : Landing} {s' : Ledger}
    (h : doorGate s route routes body budget nowMs = (some landing, s')) : landing.rung = .coolOff ∧
    ((s' = s ∧ ∃ trip, inForce s route nowMs = some trip) ∨
      (inForce s route nowMs = none ∧ ∃ pushes allowed why,
        s' = s.recordDoorBlowout (tripRow route budget nowMs pushes allowed why))) := by
  unfold doorGate at h
  split at h
  · cases (Prod.mk.inj h).1
  · rename_i untilMs hverdict
    obtain ⟨hl, hs⟩ := Prod.mk.inj h
    obtain rfl := Option.some.inj hl
    refine ⟨rfl, .inl ⟨hs.symm, ?_⟩⟩
    unfold doorVerdict at hverdict
    split at hverdict
    · rename_i trip htrip
      exact ⟨trip, htrip⟩
    · simp only at hverdict
      split_ifs at hverdict
  · rename_i pushes allowed why hverdict
    obtain ⟨hl, hs⟩ := Prod.mk.inj h
    obtain rfl := Option.some.inj hl
    refine ⟨rfl, .inr ⟨?_, pushes, allowed, why, hs.symm⟩⟩
    unfold doorVerdict at hverdict
    split at hverdict
    · cases hverdict
    · assumption

end verdict

/-- A door or the queue took the body. -/
def Sent.pushes (x : Sent) : Bool := x.took && x.via ≠ .pane

section
variable (sur : Surroundings) (s : Ledger) (routes : Routes) (m : Message) (budget : DoorBudget)

/-- What an attempt does to the ledger; `s1` is the ledger at the gate. -/
inductive Turn (r : Landed) : Prop
  | quiet (hext : Extends s r.ledger) (hsent : ∀ x ∈ r.sent, x.pushes = false) (hcalm : Calm r.landing)
  | cooling (s1 : Ledger) (trip : DoorBlowoutRow) (hs1 : Extends s s1)
      (htrip : inForce s1 m.toRoute sur.gateMs = some trip) (hext : Extends s1 r.ledger) (hsent : r.sent = none)
  | trips (s1 : Ledger) (row : DoorBlowoutRow) (hs1 : Extends s s1) (hnone : inForce s1 m.toRoute sur.gateMs = none)
      (hroute : row.route = m.toRoute) (hat : row.atMs = sur.gateMs)
      (hcool : row.cooldownMs = budget.cooldown.millisU64 ∨
        (row.cooldownMs = (doorFailureCooldown sur.vars).millisU64 ∧ Calm r.landing))
      (hext : Extends (s1.recordDoorBlowout row) r.ledger) (hsent : ∀ x ∈ r.sent, x.pushes = false)
  | pushes (s1 : Ledger) (via : Via) (landing : Landing) (hs1 : Extends s s1)
      (hopen : doorVerdict s1 m.toRoute routes m.body budget sur.gateMs = .open) (hvia : via ≠ .pane)
      (hdoor : landing.detail ∈ ["door", "door queue", "acpx queue"])
      (hledger : r.ledger = settle sur s1 routes m landing)
      (hsent : r.sent = some ⟨m.id, m.toRoute, m.body, via, true⟩) (hcalm : Calm r.landing)

variable {sur s routes m budget}

theorem Lands.turn {reg : Registry} {r : Landed}
    (h : Lands reg sur (appended s routes m sur.appendMs) routes m budget r) {r' : Landed}
    (hsent : r'.sent = r.sent) (hlanding : r'.landing = r.landing)
    (hledger : ∀ landing, r.landing = .ok landing → r'.ledger = settle sur r.ledger routes m landing)
    (hfailed : ∀ error, r.landing = .error error → r'.ledger = r.ledger) :
    Turn sur s routes m budget r' := by
  have hs1 := extends_appended s routes m sur.appendMs
  have hext : Extends r.ledger r'.ledger := by
    cases hl : r.landing with
    | ok landing =>
      rw [hledger landing hl]
      exact (extends_append ..).trans (extends_settle ..)
    | error error =>
      rw [hfailed error hl]
      exact .refl _
  cases h with
  | quiet result hcalm =>
    exact .quiet (hs1.trans hext) (by simp [hsent]) (hlanding ▸ hcalm)
  | cooled landing s' hgate =>
    obtain ⟨hrung, ⟨rfl, trip, htrip⟩ | ⟨hnone, pushes, allowed, why, rfl⟩⟩ := doorGate_some hgate
    · exact .cooling _ trip hs1 htrip hext hsent
    · exact .trips _ _ hs1 hnone rfl rfl (.inl rfl) hext (by simp [hsent])
  | pushed via landing hopen hacc hvia hdoor hcalm =>
    exact .pushes _ via landing hs1 hopen hvia hdoor (hledger landing rfl) hsent (hlanding ▸ calm_ok hcalm)
  | refused via s' result hopen hs' hcalm =>
    have hsent' : ∀ x ∈ r'.sent, x.pushes = false := by
      intro x hx
      rw [hsent] at hx
      cases hx
      rfl
    rcases hs' with rfl | ⟨why, rfl⟩
    · exact .quiet (hs1.trans hext) hsent' (hlanding ▸ hcalm)
    · exact .trips _ _ hs1 (doorVerdict_open hopen).1 rfl rfl (.inr ⟨rfl, hlanding ▸ hcalm⟩) hext hsent'
  | typed landing hacc hcalm =>
    refine .quiet (hs1.trans hext) (fun x hx => ?_) (hlanding ▸ calm_ok hcalm)
    rw [hsent] at hx
    cases hx
    rfl
  | untyped landing hcalm =>
    refine .quiet (hs1.trans hext) (fun x hx => ?_) (hlanding ▸ calm_ok hcalm)
    rw [hsent] at hx
    cases hx
    rfl

/-- **`deliver_hail_budgeted` (deliver.rs:469), for the budget.** -/
theorem deliver_turn (reg : Registry) (busy : Bool) :
    Turn sur s routes m budget (deliverHailBudgeted reg sur s routes m busy budget) := by
  have hspec := enter_spec reg sur s routes m busy budget
  unfold deliverHailBudgeted
  revert hspec
  cases enter reg sur s routes m busy budget with
  | done s' landing =>
    rintro ⟨hext, hrung⟩
    exact .quiet hext (fun x hx => nomatch hx) (calm_ok hrung)
  | failed s' sent error =>
    rintro ⟨-, hlands⟩
    exact hlands.turn rfl rfl (fun _ h => nomatch h) fun _ _ => rfl
  | flying s' sent landing =>
    rintro ⟨-, hlands⟩
    refine hlands.turn rfl rfl (fun landing' h => ?_) fun _ h => nomatch h
    cases h
    rfl

end

/-! ## Runs -/

/-- A body that went through; `trips` is the number of trips recorded before. -/
structure Push where
  id        : String
  route     : String
  body      : String
  sentMs    : Nat
  notedMs   : Nat
  allowance : Nat
  trips     : Nat

/-- An attempt the gate turned away; `tripped` when a trip was recorded for it. -/
structure Refusal where
  route   : String
  atMs    : Nat
  tripped : Bool

structure Meter where
  ledger   : Ledger
  clock    : Nat
  pushes   : List Push
  refusals : List Refusal

/-- The clock readings of an attempt, in their order. -/
structure Timely (clock : Nat) (sur : Surroundings) : Prop where
  reminder : clock ≤ sur.reminderMs
  append   : sur.reminderMs ≤ sur.appendMs
  gate     : sur.appendMs ≤ sur.gateMs
  record   : sur.gateMs ≤ sur.recordMs
  push     : sur.recordMs ≤ sur.pushMs

def Mailed (s : Ledger) (m : Message) : Prop := ∃ row ∈ s.mail.rows, row.messageId = m.id ∧ row.body = m.body

inductive MeterAct where
  | attempt (m : Message) (sur : Surroundings) (routes : Routes) (busy : Bool)
  | append (mailbox : String) (m : Message) (detail : String) (nowMs : Nat)
  | ack (ids : List String) (stamp : String)

namespace Meter

def start (s : Ledger) (clock : Nat) : Meter := ⟨s, clock, [], []⟩

def pushOf (sur : Surroundings) (routes : Routes) (budget : DoorBudget) (trips : Nat) (x : Sent) : Option Push :=
  if x.pushes then
    some ⟨x.id, x.route, x.body, sur.gateMs, sur.recordMs, budget.allowance x.route routes, trips⟩
  else none

def refusalOf (sur : Surroundings) (m : Message) (tripped : Bool) (result : Except String Landing) : List Refusal :=
  match result with
  | .ok landing => if landing.rung = .coolOff then [⟨m.toRoute, sur.gateMs, tripped⟩] else []
  | .error _ => []

def attempt (reg : Registry) (budget : DoorBudget) (w : Meter) (m : Message) (sur : Surroundings) (routes : Routes)
    (busy : Bool) : Meter :=
  let landed := deliverHailBudgeted reg sur w.ledger routes m busy budget
  let trips := w.ledger.blowouts.length
  { ledger := landed.ledger
    clock := sur.pushMs
    pushes := w.pushes ++ (landed.sent.bind (pushOf sur routes budget trips)).toList
    refusals := w.refusals ++ refusalOf sur m (decide (trips < landed.ledger.blowouts.length)) landed.landing }

def Next (reg : Registry) (budget : DoorBudget) (w : Meter) (a : MeterAct) (w' : Meter) : Prop :=
  match a with
  | .attempt m sur routes busy => Timely w.clock sur ∧ Mailed w.ledger m ∧ w' = w.attempt reg budget m sur routes busy
  | .append mailbox m detail nowMs => m.id ∉ w.ledger.mail.keys ∧
    ∃ db, w.ledger.writeMessage mailbox m detail nowMs = .ok db ∧ w' = { w with ledger := w.ledger.withMailbox db }
  | .ack ids stamp => w' = { w with ledger := w.ledger.ack ids stamp }

end Meter

/-- Clocks below `2^63`, and a failure's cool-off below `2^64`. -/
def Fits (_ : Meter) : MeterAct → Prop
  | .attempt _ sur _ _ => sur.pushMs < 2 ^ 63 ∧ (doorFailureCooldown sur.vars).asMillis < 2 ^ 64
  | _ => True

/-! ## What holds in every state -/

/-- `b` was sent within a window of `a`, on the same route. -/
def near (windowMs : Nat) (a b : Push) : Prop := a.route = b.route ∧ b.sentMs ≤ a.notedMs + windowMs

instance (windowMs : Nat) : DecidableRel (near windowMs) := fun a b => by
  unfold near
  infer_instance

def Push.key (p : Push) : String × String × Nat := (p.id, p.route, p.notedMs)

def rowKey (t : Transition) : String × String × Nat := (t.messageId, t.route, t.atMs)

def doorRows (s : Ledger) : List (String × String × Nat) :=
  (s.transitions.rows.filter Ledger.namesDoor).map rowKey

structure Metered (budget : DoorBudget) (w : Meter) : Prop where
  recorded  : (w.pushes.map Push.key).Sublist (doorRows w.ledger)
  mailed    : ∀ p ∈ w.pushes, ∃ row ∈ w.ledger.mail.rows, row.messageId = p.id ∧ row.body = p.body
  timed     : ∀ p ∈ w.pushes, p.notedMs ≤ w.clock ∧ p.notedMs < 2 ^ 63
  throttled : Window.Throttled (near budget.window.asMillis) Push.allowance w.pushes
  distinct  : w.pushes.Pairwise fun p q => p.route = q.route → p.body = q.body →
    p.notedMs + budget.window.asMillis < q.sentMs
  sorted    : Sorted w.ledger.blowouts
  clocked   : ∀ r ∈ w.ledger.blowouts, r.atMs ≤ w.clock ∧ r.atMs < 2 ^ 63
  trips     : Apart w.ledger.blowouts
  lasting   : ∀ r ∈ w.ledger.blowouts, r.cooldownMs = budget.cooldown.asMillis ∨
    ∃ vars, r.cooldownMs = (doorFailureCooldown vars).asMillis
  counted   : ∀ p ∈ w.pushes, p.trips ≤ w.ledger.blowouts.length
  ended     : ∀ p ∈ w.pushes, ∀ r ∈ w.ledger.blowouts.take p.trips, r.route = p.route → r.endMs ≤ p.sentMs
  later     : ∀ p ∈ w.pushes, ∀ r ∈ w.ledger.blowouts.drop p.trips, p.notedMs ≤ r.atMs
  refused   : ∀ x ∈ w.refusals, (x.tripped = true → 0 < budget.cooldown.asMillis) →
    ∃ r ∈ w.ledger.blowouts, covers x.route x.atMs r = true

theorem Extends.doorRows {s s' : Ledger} (h : Extends s s') : (doorRows s).Sublist (doorRows s') :=
  (h.rows.sublist.filter _).map _

def recent (route : String) (sinceMs : Nat) (k : String × String × Nat) : Bool :=
  k.2.1 = route && asI64 sinceMs ≤ asI64 k.2.2

/-- Noted less than a window before `sentMs`, as the columns tell it. -/
theorem asI64_since_le {sentMs notedMs windowMs : Nat} (hnoted : notedMs < 2 ^ 63)
    (h : sentMs ≤ notedMs + windowMs) : asI64 (sentMs - windowMs) ≤ asI64 notedMs := by
  have hle : sentMs - windowMs ≤ notedMs := Nat.sub_le_iff_le_add.2 h
  rw [asI64_of_lt (hle.trans_lt hnoted), asI64_of_lt hnoted]
  exact_mod_cast hle

/-- The pushes that are near a new one were noted in the window the gate looks at. -/
theorem near_le_pushesSince {budget : DoorBudget} {w : Meter} (h : Metered budget w) {s : Ledger}
    (hext : Extends w.ledger s) (q : Push) :
    (w.pushes.filter fun p => decide (near budget.window.asMillis p q)).length ≤
      s.doorPushesSince q.route (q.sentMs - budget.window.asMillis) := by
  have hnear : ∀ p ∈ w.pushes, decide (near budget.window.asMillis p q) = true →
      (recent q.route (q.sentMs - budget.window.asMillis) ∘ Push.key) p = true := by
    intro p hp hdec
    obtain ⟨hroute, hle⟩ := of_decide_eq_true hdec
    exact Bool.and_eq_true_iff.2 ⟨decide_eq_true hroute,
      decide_eq_true (asI64_since_le (h.timed p hp).2 hle)⟩
  have hsame : ∀ t : Transition, (recent q.route (q.sentMs - budget.window.asMillis) (rowKey t) &&
      Ledger.namesDoor t) = Ledger.pushedSince q.route (q.sentMs - budget.window.asMillis) t := fun _ => rfl
  calc (w.pushes.filter fun p => decide (near budget.window.asMillis p q)).length
      ≤ w.pushes.countP (recent q.route (q.sentMs - budget.window.asMillis) ∘ Push.key) := by
        rw [← List.countP_eq_length_filter]
        exact List.countP_mono_left hnear
    _ = (w.pushes.map Push.key).countP (recent q.route (q.sentMs - budget.window.asMillis)) :=
        (List.countP_map ..).symm
    _ ≤ (doorRows s).countP (recent q.route (q.sentMs - budget.window.asMillis)) :=
        (h.recorded.trans hext.doorRows).countP_le
    _ = s.doorPushesSince q.route (q.sentMs - budget.window.asMillis) := by
        rw [Ledger.doorPushesSince, ← List.countP_eq_length_filter, BoopProc.doorRows, List.countP_map,
          List.countP_filter]
        exact List.countP_congr fun t _ => by rw [Function.comp_apply, hsame]

/-- A body that went through in the window is one the gate sees. -/
theorem pushedBody_of_near {budget : DoorBudget} {w : Meter} (h : Metered budget w) {s : Ledger}
    (hext : Extends w.ledger s) {p q : Push} (hp : p ∈ w.pushes)
    (hnear : near budget.window.asMillis p q) (hbody : p.body = q.body) :
    s.doorPushedBodySince q.route q.body (q.sentMs - budget.window.asMillis) = true := by
  obtain ⟨row, hrow, hid, hrowBody⟩ := h.mailed p hp
  obtain ⟨row', hrow', hid', hbody'⟩ := hext.bodies row hrow
  have hkey : p.key ∈ doorRows s := (h.recorded.trans hext.doorRows).subset (List.mem_map_of_mem hp)
  obtain ⟨t, ht, htkey⟩ := List.mem_map.1 hkey
  obtain ⟨ht, hdoor⟩ := List.mem_filter.1 ht
  simp only [rowKey, Push.key, Prod.mk.injEq] at htkey
  obtain ⟨htid, htroute, htat⟩ := htkey
  obtain ⟨hroute, hle⟩ := hnear
  refine List.any_eq_true.2 ⟨t, ht, ?_⟩
  have hin : asI64 (q.sentMs - budget.window.asMillis) ≤ asI64 t.atMs :=
    htat ▸ asI64_since_le (h.timed p hp).2 hle
  have hmail : (s.mail.rows.any fun m => m.messageId = t.messageId && m.body = q.body) = true := by
    refine List.any_eq_true.2 ⟨row', hrow', ?_⟩
    simp [hid', hid, htid, hbody', hrowBody, hbody]
  simp only [Ledger.pushedSince, Bool.and_eq_true, decide_eq_true_eq]
  exact ⟨⟨⟨htroute.trans hroute, hin⟩, hdoor⟩, hmail⟩

section step
variable {budget : DoorBudget} {w : Meter}

/-- The ledger grows, the clock goes on, and attempts are turned away inside a cool-off. -/
theorem Metered.extend (h : Metered budget w) {s : Ledger} {clock : Nat} {refusals : List Refusal}
    (hext : Extends w.ledger s) (hclock : w.clock ≤ clock)
    (hrefused : ∀ x ∈ refusals, (x.tripped = true → 0 < budget.cooldown.asMillis) →
      ∃ r ∈ w.ledger.blowouts, covers x.route x.atMs r = true) :
    Metered budget ⟨s, clock, w.pushes, w.refusals ++ refusals⟩ where
  recorded := h.recorded.trans hext.doorRows
  mailed := by
    intro p hp
    obtain ⟨row, hrow, hid, hbody⟩ := h.mailed p hp
    obtain ⟨row', hrow', hid', hbody'⟩ := hext.bodies row hrow
    exact ⟨row', hrow', hid'.trans hid, hbody'.trans hbody⟩
  timed := fun p hp => ⟨(h.timed p hp).1.trans hclock, (h.timed p hp).2⟩
  throttled := h.throttled
  distinct := h.distinct
  sorted := by rw [hext.blowouts]; exact h.sorted
  clocked := by
    rw [hext.blowouts]
    exact fun r hr => ⟨(h.clocked r hr).1.trans hclock, (h.clocked r hr).2⟩
  trips := by rw [hext.blowouts]; exact h.trips
  lasting := by rw [hext.blowouts]; exact h.lasting
  counted := by rw [hext.blowouts]; exact h.counted
  ended := by rw [hext.blowouts]; exact h.ended
  later := by rw [hext.blowouts]; exact h.later
  refused := by
    rw [hext.blowouts]
    intro x hx hlong
    rcases List.mem_append.1 hx with hx | hx
    · exact h.refused x hx hlong
    · exact hrefused x hx hlong

theorem Metered.grow (h : Metered budget w) {s : Ledger} (hext : Extends w.ledger s) :
    Metered budget { w with ledger := s } := by
  have hsame : Metered budget ⟨s, w.clock, w.pushes, w.refusals ++ []⟩ :=
    h.extend hext le_rfl fun x hx => nomatch hx
  rwa [List.append_nil] at hsame

/-- A trip outside the cool-offs of its route. -/
theorem Metered.trip (h : Metered budget w) {row : DoorBlowoutRow} (hclock : w.clock ≤ row.atMs)
    (hlt : row.atMs < 2 ^ 63) (hended : ∀ r ∈ w.ledger.blowouts, r.route = row.route → r.endMs ≤ row.atMs)
    (hlasting : row.cooldownMs = budget.cooldown.asMillis ∨
      ∃ vars, row.cooldownMs = (doorFailureCooldown vars).asMillis) :
    Metered budget { w with ledger := w.ledger.recordDoorBlowout row, clock := row.atMs } where
  recorded := h.recorded
  mailed := h.mailed
  timed := fun p hp => ⟨(h.timed p hp).1.trans hclock, (h.timed p hp).2⟩
  throttled := h.throttled
  distinct := h.distinct
  sorted := by
    refine List.pairwise_append.2 ⟨h.sorted, List.pairwise_singleton .., fun b hb x hx => ?_⟩
    obtain rfl := List.mem_singleton.1 hx
    exact (h.clocked b hb).1.trans hclock
  clocked := by
    intro r hr
    rcases List.mem_append.1 hr with hr | hr
    · exact ⟨(h.clocked r hr).1.trans hclock, (h.clocked r hr).2⟩
    · obtain rfl := List.mem_singleton.1 hr
      exact ⟨le_rfl, hlt⟩
  trips := h.trips.concat hended
  lasting := by
    intro r hr
    rcases List.mem_append.1 hr with hr | hr
    · exact h.lasting r hr
    · obtain rfl := List.mem_singleton.1 hr
      exact hlasting
  counted := fun p hp => (h.counted p hp).trans (by simp [Ledger.recordDoorBlowout])
  ended := by
    intro p hp r hr
    rw [Ledger.recordDoorBlowout, List.take_append_of_le_length (h.counted p hp)] at hr
    exact h.ended p hp r hr
  later := by
    intro p hp r hr
    rw [Ledger.recordDoorBlowout, List.drop_append_of_le_length (h.counted p hp)] at hr
    rcases List.mem_append.1 hr with hr | hr
    · exact h.later p hp r hr
    · obtain rfl := List.mem_singleton.1 hr
      exact (h.timed p hp).1.trans hclock
  refused := by
    intro x hx hlong
    obtain ⟨r, hr, hcov⟩ := h.refused x hx hlong
    exact ⟨r, List.mem_append_left _ hr, hcov⟩

/-- A push the gate let pass. -/
theorem Metered.push (h : Metered budget w) {p : Push} (hclock : w.clock ≤ p.sentMs) (hnoted : p.sentMs ≤ p.notedMs)
    (hlt : p.notedMs < 2 ^ 63)
    (hmailed : ∃ row ∈ w.ledger.mail.rows, row.messageId = p.id ∧ row.body = p.body)
    (hroom : w.ledger.doorPushesSince p.route (p.sentMs - budget.window.asMillis) < p.allowance)
    (hbody : w.ledger.doorPushedBodySince p.route p.body (p.sentMs - budget.window.asMillis) = false)
    (htrips : p.trips = w.ledger.blowouts.length)
    (hended : ∀ r ∈ w.ledger.blowouts, r.route = p.route → r.endMs ≤ p.sentMs) {s : Ledger}
    (hs : s.blowouts = w.ledger.blowouts) (hmail : s.mail = w.ledger.mail)
    (hrows : doorRows s = doorRows w.ledger ++ [p.key]) :
    Metered budget { w with ledger := s, clock := p.notedMs, pushes := w.pushes ++ [p] } where
  recorded := by
    rw [hrows, List.map_append]
    exact h.recorded.append (List.Sublist.refl _)
  mailed := by
    intro q hq
    rw [hmail]
    rcases List.mem_append.1 hq with hq | hq
    · exact h.mailed q hq
    · obtain rfl := List.mem_singleton.1 hq
      exact hmailed
  timed := by
    intro q hq
    rcases List.mem_append.1 hq with hq | hq
    · exact ⟨(h.timed q hq).1.trans (hclock.trans hnoted), (h.timed q hq).2⟩
    · obtain rfl := List.mem_singleton.1 hq
      exact ⟨le_rfl, hlt⟩
  throttled := h.throttled.concat ((near_le_pushesSince h (.refl _) p).trans_lt hroom)
  distinct := by
    refine List.pairwise_append.2 ⟨h.distinct, List.pairwise_singleton .., fun a ha x hx hroute hsame => ?_⟩
    obtain rfl := List.mem_singleton.1 hx
    by_contra hlate
    have hseen := pushedBody_of_near h (.refl _) ha ⟨hroute, Nat.le_of_not_lt hlate⟩ hsame
    rw [hbody] at hseen
    cases hseen
  sorted := by rw [hs]; exact h.sorted
  clocked := by
    rw [hs]
    exact fun r hr => ⟨(h.clocked r hr).1.trans (hclock.trans hnoted), (h.clocked r hr).2⟩
  trips := by rw [hs]; exact h.trips
  lasting := by rw [hs]; exact h.lasting
  counted := by
    rw [hs]
    intro q hq
    rcases List.mem_append.1 hq with hq | hq
    · exact h.counted q hq
    · obtain rfl := List.mem_singleton.1 hq
      exact htrips.le
  ended := by
    rw [hs]
    intro q hq r hr
    rcases List.mem_append.1 hq with hq | hq
    · exact h.ended q hq r hr
    · obtain rfl := List.mem_singleton.1 hq
      exact hended r (List.mem_of_mem_take hr)
  later := by
    rw [hs]
    intro q hq r hr
    rcases List.mem_append.1 hq with hq | hq
    · exact h.later q hq r hr
    · obtain rfl := List.mem_singleton.1 hq
      rw [htrips, List.drop_length] at hr
      cases hr
  refused := by rw [hs]; exact h.refused

end step

theorem refusalOf_calm {sur : Surroundings} {m : Message} {tripped : Bool} {result : Except String Landing}
    (h : Calm result) : Meter.refusalOf sur m tripped result = [] := by
  unfold Meter.refusalOf
  split
  · exact if_neg (h _ rfl)
  · rfl

theorem mem_refusalOf {sur : Surroundings} {m : Message} {tripped : Bool} {result : Except String Landing}
    {x : Refusal} (hx : x ∈ Meter.refusalOf sur m tripped result) : x = ⟨m.toRoute, sur.gateMs, tripped⟩ := by
  unfold Meter.refusalOf at hx
  split at hx
  · split at hx
    · exact List.mem_singleton.1 hx
    · cases hx
  · cases hx

theorem pushOf_none {sur : Surroundings} {routes : Routes} {budget : DoorBudget} {trips : Nat} {sent : Option Sent}
    (h : ∀ x ∈ sent, x.pushes = false) : sent.bind (Meter.pushOf sur routes budget trips) = none := by
  cases sent with
  | none => rfl
  | some x => exact if_neg (by simp [h x rfl])

/-- The record of a landing that names a door is the last of the door's rows. -/
theorem doorRows_record (s : Ledger) {landing : Landing} (id route : String) (harness : Option HarnessId) (atMs : Nat)
    (hdoor : landing.detail ∈ ["door", "door queue", "acpx queue"]) :
    doorRows (s.record landing id route harness atMs) = doorRows s ++ [(id, route, atMs)] := by
  unfold doorRows
  simp only [Ledger.record, Ledger.appendTransition, Ledger.withMailbox, Mailbox.appendDeliveryTransition, Table.push]
  rw [List.filter_append, List.map_append]
  congr 1
  rw [List.filter_cons_of_pos (by simpa [Ledger.namesDoor] using hdoor)]
  rfl

/-- **One attempt** within the bounds keeps what every state has. -/
theorem Metered.attempt {budget : DoorBudget} {w : Meter} (h : Metered budget w) (reg : Registry) {m : Message}
    {sur : Surroundings} {routes : Routes} {busy : Bool} (hwindow : budget.window.asMillis < 2 ^ 64)
    (hcooldown : budget.cooldown.asMillis < 2 ^ 64) (htimely : Timely w.clock sur) (hmailed : Mailed w.ledger m)
    (hfits : Fits w (.attempt m sur routes busy)) :
    Metered budget (w.attempt reg budget m sur routes busy) := by
  obtain ⟨hclock63, hfail⟩ := hfits
  obtain ⟨h1, h2, h3, h4, h5⟩ := htimely
  have hgate : w.clock ≤ sur.gateMs := h1.trans (h2.trans h3)
  have hgate63 : sur.gateMs < 2 ^ 63 := (h4.trans h5).trans_lt hclock63
  have hlt : ∀ r ∈ w.ledger.blowouts, r.atMs < 2 ^ 63 := fun r hr => (h.clocked r hr).2
  unfold Meter.attempt
  simp only
  have hturn : Turn sur w.ledger routes m budget (deliverHailBudgeted reg sur w.ledger routes m busy budget) :=
    deliver_turn reg busy
  cases hturn with
  | quiet hext hsent hcalm =>
    rw [pushOf_none hsent, refusalOf_calm hcalm, Option.toList_none, List.append_nil]
    exact h.extend hext (hgate.trans (h4.trans h5)) fun x hx => nomatch hx
  | cooling s1 trip hs1 htrip hext hsent =>
    have hcovers : trip ∈ w.ledger.blowouts ∧ covers m.toRoute sur.gateMs trip = true := by
      rw [← hs1.blowouts]
      refine covers_of_latest ?_ ?_ ?_ htrip <;> rw [hs1.blowouts]
      · exact h.sorted
      · exact hlt
      · exact fun r hr => (h.clocked r hr).1.trans hgate
    rw [hsent, Option.bind_none, Option.toList_none, List.append_nil]
    refine h.extend (hs1.trans hext) (hgate.trans (h4.trans h5)) fun x hx _ => ?_
    rw [mem_refusalOf hx]
    exact ⟨trip, hcovers⟩
  | trips s1 row hs1 hnone hroute hat hcool hext hsent =>
    have hended : ∀ r ∈ s1.blowouts, r.route = row.route → r.endMs ≤ row.atMs := by
      rw [hroute, hat]
      refine ended_of_latest ?_ ?_ ?_ hgate63 hnone <;> rw [hs1.blowouts]
      · exact h.sorted
      · exact hlt
      · exact h.trips
    have hmillis : row.cooldownMs = budget.cooldown.asMillis ∨
        (row.cooldownMs = (doorFailureCooldown sur.vars).asMillis ∧
          Calm (deliverHailBudgeted reg sur w.ledger routes m busy budget).landing) := by
      rwa [millisU64_of_lt hcooldown, millisU64_of_lt hfail] at hcool
    have hbefore : Metered budget { w with ledger := s1 } := h.grow hs1
    have htripped : Metered budget
        { w with ledger := s1.recordDoorBlowout row, clock := row.atMs } :=
      hbefore.trip (hat ▸ hgate) (hat ▸ hgate63) hended (hmillis.imp id fun hf => ⟨_, hf.1⟩)
    rw [pushOf_none hsent, Option.toList_none, List.append_nil]
    refine htripped.extend hext (hat ▸ h4.trans h5) fun x hx hlong => ?_
    have hgrew : decide (w.ledger.blowouts.length <
        (deliverHailBudgeted reg sur w.ledger routes m busy budget).ledger.blowouts.length) = true := by
      rw [hext.blowouts, Ledger.recordDoorBlowout, List.length_append, hs1.blowouts]
      simp
    rcases hmillis with hmillis | ⟨-, hcalm⟩
    · obtain rfl := mem_refusalOf hx
      have hpos : 0 < budget.cooldown.asMillis := hlong hgrew
      have hlate : sur.gateMs < row.atMs + row.cooldownMs := by omega
      exact ⟨row, by simp [Ledger.recordDoorBlowout], Bool.and_eq_true_iff.2 ⟨Bool.and_eq_true_iff.2
        ⟨decide_eq_true hroute, decide_eq_true hat.le⟩, decide_eq_true hlate⟩⟩
    · rw [refusalOf_calm hcalm] at hx
      cases hx
  | pushes s1 via landing hs1 hopen hvia hdoor hledger hsent hcalm =>
    obtain ⟨hnone, hroom, hbody⟩ := doorVerdict_open hopen
    rw [millisU64_of_lt hwindow] at hroom hbody
    have hended : ∀ r ∈ s1.blowouts, r.route = m.toRoute → r.endMs ≤ sur.gateMs := by
      refine ended_of_latest ?_ ?_ ?_ hgate63 hnone <;> rw [hs1.blowouts]
      · exact h.sorted
      · exact hlt
      · exact h.trips
    have hbefore : Metered budget { w with ledger := s1 } := h.grow hs1
    let p : Push := ⟨m.id, m.toRoute, m.body, sur.gateMs, sur.recordMs, budget.allowance m.toRoute routes,
      w.ledger.blowouts.length⟩
    have hpush : ((deliverHailBudgeted reg sur w.ledger routes m busy budget).sent.bind
        (Meter.pushOf sur routes budget w.ledger.blowouts.length)) = some p := by
      rw [hsent, Option.bind_some, Meter.pushOf, if_pos (by simpa [Sent.pushes] using hvia)]
    have hin : ∃ row ∈ s1.mail.rows, row.messageId = m.id ∧ row.body = m.body := by
      obtain ⟨row, hrow, hid, hrowBody⟩ := hmailed
      obtain ⟨row', hrow', hid', hbody'⟩ := hs1.bodies row hrow
      exact ⟨row', hrow', hid'.trans hid, hbody'.trans hrowBody⟩
    have hsettled : Extends (s1.record landing m.id m.toRoute (harnessOf routes m) sur.recordMs)
        (settle sur s1 routes m landing) := extends_settle ..
    have hrows : doorRows (s1.record landing m.id m.toRoute (harnessOf routes m) sur.recordMs) =
        doorRows s1 ++ [p.key] := doorRows_record s1 m.id m.toRoute (harnessOf routes m) sur.recordMs hdoor
    have htrips : p.trips = s1.blowouts.length := by rw [hs1.blowouts]
    have hpushed : Metered budget
        { w with
          ledger := s1.record landing m.id m.toRoute (harnessOf routes m) sur.recordMs
          clock := p.notedMs
          pushes := w.pushes ++ [p] } :=
      hbefore.push hgate h4 (h5.trans_lt hclock63) hin hroom hbody htrips hended rfl rfl hrows
    rw [hpush, refusalOf_calm hcalm, Option.toList_some, hledger]
    exact hpushed.extend hsettled h5 fun x hx => nomatch hx

/-! ## The budget -/

/-- The pushes of a route that meet the window which starts at `fromMs`. -/
def Meter.within (w : Meter) (route : String) (fromMs windowMs : Nat) : List Push :=
  w.pushes.filter fun p => p.route = route && fromMs ≤ p.notedMs && p.sentMs ≤ fromMs + windowMs

/-- What the budget promises of a state. -/
structure WithinBudget (budget : DoorBudget) (w : Meter) : Prop where
  allowed  : ∀ route fromMs, ∀ last ∈ (w.within route fromMs budget.window.asMillis).getLast?,
    (w.within route fromMs budget.window.asMillis).length ≤ last.allowance
  distinct : w.pushes.Pairwise fun p q => p.route = q.route → p.body = q.body →
    p.notedMs + budget.window.asMillis < q.sentMs
  cool     : ∀ p ∈ w.pushes, (∀ r ∈ w.ledger.blowouts.take p.trips, r.route = p.route → r.endMs ≤ p.sentMs) ∧
    ∀ r ∈ w.ledger.blowouts.drop p.trips, p.notedMs ≤ r.atMs
  trips    : ∀ x ∈ w.refusals, (x.tripped = true → 0 < budget.cooldown.asMillis) →
    (w.ledger.blowouts.filter (covers x.route x.atMs)).length = 1
  apart    : Apart w.ledger.blowouts
  lasting  : ∀ r ∈ w.ledger.blowouts, r.cooldownMs = budget.cooldown.asMillis ∨
    ∃ vars, r.cooldownMs = (doorFailureCooldown vars).asMillis

theorem Metered.withinBudget {budget : DoorBudget} {w : Meter} (h : Metered budget w) : WithinBudget budget w where
  allowed := by
    intro route fromMs last hlast
    obtain ⟨seen, hseen⟩ := List.getLast?_eq_some_iff.1 hlast
    have hin : ∀ p ∈ seen ++ [last], p.route = route ∧ fromMs ≤ p.notedMs ∧
        p.sentMs ≤ fromMs + budget.window.asMillis := by
      intro p hp
      rw [← hseen] at hp
      simpa [and_assoc] using (List.mem_filter.1 hp).2
    obtain ⟨hroute, -, hsent⟩ := hin last (by simp)
    rw [hseen]
    refine h.throttled.length_le (hseen ▸ List.filter_sublist) fun p hp => ?_
    obtain ⟨hproute, hpnoted, -⟩ := hin p (List.mem_append_left _ hp)
    exact ⟨hproute.trans hroute.symm, by omega⟩
  distinct := h.distinct
  cool := fun p hp => ⟨h.ended p hp, h.later p hp⟩
  trips := by
    intro x hx hlong
    obtain ⟨r, hr, hcov⟩ := h.refused x hx hlong
    exact h.trips.one hr hcov
  apart := h.trips
  lasting := h.lasting

/-- A message with an id of its own leaves the other rows as they are. -/
theorem extends_write {s : Ledger} {mailbox : String} {m : Message} {detail : String} {nowMs : Nat} {db : Mailbox}
    (hfresh : m.id ∉ s.mail.keys) (h : s.writeMessage mailbox m detail nowMs = .ok db) :
    Extends s (s.withMailbox db) := by
  obtain ⟨db', hok, hmail, htransitions⟩ := s.writeMessage_ok mailbox m detail nowMs
  rw [hok] at h
  cases h
  refine ⟨?_, fun row hrow => ⟨row, ?_, rfl, rfl⟩, rfl⟩
  · have hrows : s.transitions.rows <+: db.transitions.rows := by
      rw [htransitions]
      split
      · exact List.prefix_rfl
      · exact List.prefix_append ..
    exact hrows
  · have hother : mailKey row ≠ m.id := by
      rintro hsame
      exact hfresh (hsame ▸ List.mem_map_of_mem hrow)
    have hget := Table.get_upsert Mailbox.mailMerge s.mail { m.columns with mailbox := mailbox } (mailKey row)
    rw [← hmail, if_neg fun hsame => hother hsame.symm, s.mail.mem_rows_iff.1 hrow] at hget
    exact db.mail.mem_rows_iff.2 hget

theorem Metered.next {budget : DoorBudget} {w w' : Meter} (h : Metered budget w) {reg : Registry} {a : MeterAct}
    (hwindow : budget.window.asMillis < 2 ^ 64) (hcooldown : budget.cooldown.asMillis < 2 ^ 64)
    (hfits : Fits w a) (hnext : Meter.Next reg budget w a w') : Metered budget w' := by
  cases a with
  | attempt m sur routes busy =>
    obtain ⟨htimely, hmailed, rfl⟩ := hnext
    exact h.attempt reg hwindow hcooldown htimely hmailed hfits
  | append mailbox m detail nowMs =>
    obtain ⟨hfresh, db, hdb, rfl⟩ := hnext
    exact h.grow (extends_write hfresh hdb)
  | ack ids stamp =>
    obtain rfl := hnext
    exact h.grow (extends_ack ..)

/-- **The door budget over whole runs**: every window, every body, every cool-off. -/
theorem budget_holds (reg : Registry) {budget : DoorBudget} (hwindow : budget.window.asMillis < 2 ^ 64)
    (hcooldown : budget.cooldown.asMillis < 2 ^ 64) {s : Ledger} (hnew : s.blowouts = []) {clock : Nat}
    {acts : List MeterAct} {w : Meter}
    (hrun : Machine.Run (Machine.guarded Fits (Meter.Next reg budget)) (Meter.start s clock) acts w) :
    WithinBudget budget w := by
  have hstart : Metered budget (Meter.start s clock) := by
    constructor <;> simp [Meter.start, hnew, Window.throttled_nil, Sorted, Apart]
  have hinv : Metered budget w := by
    have hstep : ∀ u a v, Metered budget u → Machine.guarded Fits (Meter.Next reg budget) u a v →
        Metered budget v := by
      rintro u a v hu ⟨hfits, hnext⟩
      exact hu.next hwindow hcooldown hfits hnext
    exact hrun.invariant hstep hstart
  exact hinv.withinBudget

/-! ## A window that is read as a short one -/

def claudeRegistry : Registry := ⟨[.claude], fun _ => .door, fun _ => none⟩

def claudeRoutes : Routes :=
  (∅ : Routes).insert "parent" { Route.default with kind := .coordinator, harness := some .claude }

/-- A door that takes every body, with the clock at `nowMs`. -/
def openDoor (nowMs : Nat) : Surroundings where
  inboxHookInstalled _ _ _ := false
  liveSession _ _ := .ok (some ⟨"live"⟩)
  deliver _ _ _ := .ok .injected
  prompt _ _ := .ok ""
  alive _ := false
  paste _ _ := none
  submit _ _ := none
  moodTemplate _ := "\x7bbody\x7d"
  vars _ := none
  reminderMs := nowMs
  appendMs := nowMs
  gateMs := nowMs
  recordMs := nowMs
  stamp := "now"
  pushMs := nowMs
  retireMs := nowMs

def hail (id body : String) : Message :=
  ⟨id, "coordinator", "parent", "now", none, .hail, none, body, none, none, none⟩

/-- A window of `2^64 + 384` milliseconds, and one push in it. -/
def longWindow : DoorBudget :=
  .fromEnv fun name =>
    if name = "BOOP_DOOR_WINDOW_SECS" then some 18446744073709552
    else if name = "BOOP_DOOR_FLOOR" then some 1 else none

/-- Two hails to the parent, `gap` apart. -/
def twoHails (gap : Nat) : List MeterAct :=
  [.append "bus" (hail "m1" "one") "mailbox" 0, .append "bus" (hail "m2" "two") "mailbox" 0,
    .attempt (hail "m1" "one") (openDoor 0) claudeRoutes false,
    .attempt (hail "m2" "two") (openDoor gap) claudeRoutes false]

/-- The meter after an action that is allowed. -/
def meterStep (reg : Registry) (budget : DoorBudget) (w : Meter) : MeterAct → Option Meter
  | .attempt m sur routes busy =>
    if w.clock ≤ sur.reminderMs ∧ sur.reminderMs ≤ sur.appendMs ∧ sur.appendMs ≤ sur.gateMs ∧
        sur.gateMs ≤ sur.recordMs ∧ sur.recordMs ≤ sur.pushMs ∧
        w.ledger.mail.rows.any fun row => row.messageId = m.id && row.body = m.body then
      some (w.attempt reg budget m sur routes busy)
    else none
  | .append mailbox m detail nowMs =>
    if m.id ∈ w.ledger.mail.keys then none
    else match w.ledger.writeMessage mailbox m detail nowMs with
      | .ok db => some { w with ledger := w.ledger.withMailbox db }
      | .error _ => none
  | .ack ids stamp => some { w with ledger := w.ledger.ack ids stamp }

theorem meterStep_next {reg : Registry} {budget : DoorBudget} {w w' : Meter} {a : MeterAct}
    (h : meterStep reg budget w a = some w') : Meter.Next reg budget w a w' := by
  cases a with
  | attempt m sur routes busy =>
    simp only [meterStep] at h
    split at h
    · rename_i hok
      obtain ⟨h1, h2, h3, h4, h5, hmail⟩ := hok
      obtain ⟨row, hrow, hmatch⟩ := List.any_eq_true.1 hmail
      exact ⟨⟨h1, h2, h3, h4, h5⟩, ⟨row, hrow, by simpa using hmatch⟩, (Option.some.inj h).symm⟩
    · cases h
  | append mailbox m detail nowMs =>
    simp only [meterStep] at h
    split at h
    · cases h
    · rename_i hfresh
      split at h
      · rename_i db hdb
        exact ⟨hfresh, db, hdb, (Option.some.inj h).symm⟩
      · cases h
  | ack ids stamp => exact (Option.some.inj h).symm

def meterAfter (budget : DoorBudget) (gap : Nat) : Option Meter :=
  Machine.exec (meterStep claudeRegistry budget) (Meter.start noLedger 0) (twoHails gap)

theorem window_read_short : ¬ ∀ (reg : Registry) (budget : DoorBudget) (s : Ledger) (clock : Nat)
    (acts : List MeterAct) (w : Meter), s.blowouts = [] →
      Machine.Run (Meter.Next reg budget) (Meter.start s clock) acts w → WithinBudget budget w := by
  intro h
  obtain ⟨w, hw⟩ : ∃ w, meterAfter longWindow 1000 = some w := Option.isSome_iff_exists.1 (by decide +kernel)
  have hbudget := h claudeRegistry longWindow noLedger 0 (twoHails 1000) w rfl
    (Machine.run_of_exec (fun _ _ _ => meterStep_next) hw)
  have htwo : ((meterAfter longWindow 1000).map fun w =>
      (w.within "parent" 0 longWindow.window.asMillis).map Push.allowance) = some [1, 1] := by decide +kernel
  rw [hw, Option.map_some, Option.some.injEq] at htwo
  have hlast : (w.within "parent" 0 longWindow.window.asMillis).getLast?.map Push.allowance = some 1 := by
    rw [← List.getLast?_map, htwo]
    rfl
  obtain ⟨last, hmem, hone⟩ := Option.map_eq_some_iff.1 hlast
  have hle := hbudget.allowed "parent" 0 last hmem
  rw [hone, ← List.length_map (f := Push.allowance), htwo] at hle
  exact absurd hle (by decide)

theorem twoHails_fit : ∀ a ∈ twoHails 1000, ∀ w, Fits w a := by
  intro a ha w
  simp only [twoHails, List.mem_cons, List.not_mem_nil, or_false] at ha
  rcases ha with rfl | rfl | rfl | rfl
  · trivial
  · trivial
  · exact ⟨by decide, by decide⟩
  · exact ⟨by decide, by decide⟩

/-- Two hails within the default budget. -/
theorem budget_holds_twoHails : ∃ w, meterAfter .default 1000 = some w ∧ WithinBudget .default w := by
  obtain ⟨w, hw⟩ : ∃ w, meterAfter .default 1000 = some w := Option.isSome_iff_exists.1 (by decide +kernel)
  exact ⟨w, hw, budget_holds claudeRegistry (by decide) (by decide) rfl
    ((Machine.run_of_exec (fun _ _ _ => meterStep_next) hw).guard twoHails_fit)⟩

end BoopProc
