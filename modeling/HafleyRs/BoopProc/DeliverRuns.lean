import HafleyRs.BoopProc.Deliver
import HafleyRs.Lib.Machine

/-!
# At most one delivery of a body

A `World` is the ledger, the attempts between their landing and its record (`Flight`), the drains between
two attempts (`Drain`), and the trace of what was typed or sent. An attempt holds the lock of its route
while it is a flight, so the attempts of one route do not overlap; attempts on other routes, attempts that
find the lock taken, drains, appends and acks may come in between.

`Lands` is what a walk down the ladder can do, case by case (`land_lands`). A body that a door, the queue
or a pane took is accepted by the ledger, or about to be (`Once.taken`), with one exception: a pane that
takes the typed line and not the submit key (`HalfTyped`) is recorded as an unanswered mailbox row, which
the next drain types again (`typed_twice`).
-/

namespace BoopProc
open BoopStore

/-! ## What a landing can do -/

/-- The composer takes the line, and not the key that submits it. -/
def HalfTyped (reg : Registry) (sur : Surroundings) (s : Ledger) (routes : Routes) (m : Message) : Prop :=
  mailboxOnly s routes m = none ∧ ∃ route id pane key, routes[m.toRoute]? = some route ∧ route.kind.asStr ≠ "lane" ∧
    route.mode ≠ some "acpx" ∧ route.harness = some id ∧ reg.mail id = .keystrokes ∧
      hookInbox reg sur route m.toRoute = false ∧ livePane sur route = some pane ∧
        reg.composerSubmitKey id = some key ∧ sur.paste pane (typedLine sur m) ≠ none ∧ sur.submit pane key = none

/-- The result is no cool-off. -/
def Calm (result : Except String Landing) : Prop := ∀ landing, result = .ok landing → landing.rung ≠ .coolOff

theorem calm_error (error : String) : Calm (.error error) := fun _ h => nomatch h

theorem calm_ok {landing : Landing} (h : landing.rung ≠ .coolOff) : Calm (.ok landing) := by
  rintro landing ⟨⟩
  exact h

section
variable (reg : Registry) (sur : Surroundings) (s : Ledger) (routes : Routes) (m : Message) (budget : DoorBudget)

inductive Lands : Landed → Prop
  | quiet (result : Except String Landing) (hcalm : Calm result) : Lands ⟨s, none, result⟩
  | cooled (landing : Landing) (s' : Ledger)
      (hgate : doorGate s m.toRoute routes m.body budget sur.gateMs = (some landing, s')) :
      Lands ⟨s', none, .ok landing⟩
  | pushed (via : Via) (landing : Landing)
      (hopen : doorVerdict s m.toRoute routes m.body budget sur.gateMs = .open) (hacc : landing.Accepted)
      (hvia : via ≠ .pane) (hdoor : landing.detail ∈ ["door", "door queue", "acpx queue"])
      (hcalm : landing.rung ≠ .coolOff) :
      Lands ⟨s, some ⟨m.id, m.toRoute, m.body, via, true⟩, .ok landing⟩
  | refused (via : Via) (s' : Ledger) (result : Except String Landing)
      (hopen : doorVerdict s m.toRoute routes m.body budget sur.gateMs = .open)
      (hs' : s' = s ∨ ∃ why, s' = recordDoorFailure s m.toRoute routes why sur.vars sur.gateMs)
      (hcalm : Calm result) :
      Lands ⟨s', some ⟨m.id, m.toRoute, m.body, via, false⟩, result⟩
  | typed (landing : Landing) (hacc : ¬ HalfTyped reg sur s routes m → landing.Accepted)
      (hcalm : landing.rung ≠ .coolOff) : Lands ⟨s, some ⟨m.id, m.toRoute, m.body, .pane, true⟩, .ok landing⟩
  | untyped (landing : Landing) (hcalm : landing.rung ≠ .coolOff) :
      Lands ⟨s, some ⟨m.id, m.toRoute, m.body, .pane, false⟩, .ok landing⟩

variable {s routes m budget}

theorem doorGate_none {s' : Ledger} {nowMs : Nat}
    (h : doorGate s m.toRoute routes m.body budget nowMs = (none, s')) :
    s' = s ∧ doorVerdict s m.toRoute routes m.body budget nowMs = .open := by
  unfold doorGate at h
  split at h
  · rename_i hopen
    exact ⟨(Prod.mk.inj h).2.symm, hopen⟩
  · cases (Prod.mk.inj h).1
  · cases (Prod.mk.inj h).1

theorem mailboxOnly_calm {landing : Landing} (h : mailboxOnly s routes m = some landing) :
    landing.rung ≠ .coolOff := by
  unfold mailboxOnly at h
  simp only at h
  split_ifs at h <;> cases h <;> exact nofun

theorem doorRouteBelowTheDoor_calm (route : Route) (to' why : String) :
    (doorRouteBelowTheDoor reg sur route to' why).rung ≠ .coolOff := by
  unfold doorRouteBelowTheDoor
  split <;> exact nofun

theorem noticeOr_calm (route : Route) (to' why : String) : (noticeOr sur route to' why).rung ≠ .coolOff := by
  unfold noticeOr
  split <;> exact nofun

theorem noDoorRoute_calm (route : Route) (to' why : String) :
    (noDoorRoute reg sur route to' why).rung ≠ .coolOff := by
  unfold noDoorRoute
  split
  · exact nofun
  · exact noticeOr_calm _ _ _ _

theorem promptQueue_lands (route : Route) :
    Lands reg sur s routes m budget (promptQueue sur s routes route m budget) := by
  unfold promptQueue
  split
  · rename_i hgate
    exact .cooled _ _ hgate
  · rename_i hgate
    obtain ⟨rfl, hopen⟩ := doorGate_none hgate
    split
    · exact .pushed .acpx _ hopen (.inl rfl) nofun (by simp [Landing.acpx]) nofun
    · exact .refused .acpx _ _ hopen (.inl rfl) (calm_error _)

theorem doorFailed_lands (route : Route) (id : HarnessId) (why : String)
    (hopen : doorVerdict s m.toRoute routes m.body budget sur.gateMs = .open) :
    Lands reg sur s routes m budget (doorFailed reg sur s routes route id m why) := by
  unfold doorFailed
  refine .refused .door _ _ hopen ?_ (calm_ok (doorRouteBelowTheDoor_calm _ _ _ _ _))
  split
  · exact .inr ⟨_, rfl⟩
  · exact .inl rfl

theorem pushDoor_lands (route : Route) (id : HarnessId) :
    Lands reg sur s routes m budget (pushDoor reg sur s routes route id m budget) := by
  unfold pushDoor
  split
  · exact .quiet _ (calm_error _)
  · exact .quiet _ (calm_ok (doorRouteBelowTheDoor_calm _ _ _ _ _))
  · split
    · rename_i hgate
      exact .cooled _ _ hgate
    · rename_i hgate
      obtain ⟨rfl, hopen⟩ := doorGate_none hgate
      split
      · exact .pushed .door _ hopen (.inl rfl) nofun (by simp [Landing.new]) nofun
      · exact .pushed .door _ hopen (.inr rfl) nofun (by simp [Landing.new]) nofun
      · exact doorFailed_lands reg sur route id _ hopen
      · exact doorFailed_lands reg sur route id _ hopen

theorem keystrokeRoute_lands {route : Route} {id : HarnessId} (hheld : mailboxOnly s routes m = none)
    (hroute : routes[m.toRoute]? = some route) (hlane : route.kind.asStr ≠ "lane") (hmode : route.mode ≠ some "acpx")
    (hid : route.harness = some id) (hmail : reg.mail id = .keystrokes) :
    Lands reg sur s routes m budget (keystrokeRoute reg sur s route m) := by
  unfold keystrokeRoute
  split
  · exact .quiet _ (calm_ok nofun)
  · rename_i hhook
    split
    · exact .quiet _ (calm_ok nofun)
    · rename_i pane hpane
      split
      · rename_i key hkey
        rw [hid, Option.bind_some] at hkey
        split
        · rename_i taken hpaste
          refine .typed _ (fun hhalf => ?_) (by split <;> exact nofun)
          by_cases hsubmit : (sur.submit pane key).isSome
          · rw [if_pos hsubmit]
            exact .inl rfl
          · have hnone : sur.submit pane key = none := Option.not_isSome_iff_eq_none.1 hsubmit
            have hpaste' : sur.paste pane (typedLine sur m) ≠ none := by
              rw [hpaste]
              exact nofun
            exact absurd ⟨hheld, route, id, pane, key, hroute, hlane, hmode, hid, hmail, by simpa using hhook, hpane,
              hkey, hpaste', hnone⟩ hhalf
        · exact .untyped _ nofun
      · exact .quiet _ (calm_ok (noticeOr_calm _ _ _ _))

/-- **`land` (deliver.rs:600), every branch.** -/
theorem land_lands : Lands reg sur s routes m budget (land reg sur s routes m budget) := by
  unfold land
  split
  · rename_i hheld
    exact .quiet _ (calm_ok (mailboxOnly_calm hheld))
  · rename_i hheld
    split
    · exact .quiet _ (calm_ok nofun)
    · rename_i route hroute
      split
      · exact .quiet _ (calm_ok (by split <;> exact nofun))
      · rename_i hlane
        split
        · exact promptQueue_lands reg sur route
        · rename_i hmode
          split
          · exact .quiet _ (calm_ok (noDoorRoute_calm _ _ _ _ _))
          · rename_i id hid
            split
            · rename_i hmail
              exact keystrokeRoute_lands reg sur hheld hroute hlane hmode hid hmail
            · exact pushDoor_lands reg sur route id

end

/-! ## The ledger grows -/

/-- Transitions stay. -/
structure Longer (s s' : Ledger) : Prop where
  keep : ∀ t ∈ s.transitions.rows, t ∈ s'.transitions.rows

theorem Longer.refl (s : Ledger) : Longer s s := ⟨fun _ ht => ht⟩

theorem Longer.trans {a b c : Ledger} (h : Longer a b) (h' : Longer b c) : Longer a c :=
  ⟨fun t ht => h'.keep t (h.keep t ht)⟩

/-- Transitions are added at the end, rows keep their bodies, and no door trips. -/
structure Extends (s s' : Ledger) : Prop where
  rows     : s.transitions.rows <+: s'.transitions.rows
  bodies   : ∀ row ∈ s.mail.rows, ∃ row' ∈ s'.mail.rows, row'.messageId = row.messageId ∧ row'.body = row.body
  blowouts : s'.blowouts = s.blowouts

theorem Extends.longer {s s' : Ledger} (h : Extends s s') : Longer s s' := ⟨fun _ ht => h.rows.subset ht⟩

theorem Extends.refl (s : Ledger) : Extends s s := ⟨List.prefix_rfl, fun row hrow => ⟨row, hrow, rfl, rfl⟩, rfl⟩

theorem Extends.trans {a b c : Ledger} (h : Extends a b) (h' : Extends b c) : Extends a c := by
  refine ⟨h.rows.trans h'.rows, fun row hrow => ?_, h'.blowouts.trans h.blowouts⟩
  obtain ⟨row1, hrow1, hid1, hbody1⟩ := h.bodies row hrow
  obtain ⟨row2, hrow2, hid2, hbody2⟩ := h'.bodies row1 hrow1
  exact ⟨row2, hrow2, hid2.trans hid1, hbody2.trans hbody1⟩

theorem extends_append (s : Ledger) (id route : String) (harness : Option HarnessId) (outcome : DeliveryState)
    (detail : String) (atMs : Nat) : Extends s (s.appendTransition id route harness outcome detail atMs) :=
  ⟨List.prefix_append .., fun row hrow => ⟨row, hrow, rfl, rfl⟩, rfl⟩

theorem extends_ack (s : Ledger) (ids : List String) (stamp : String) : Extends s (s.ack ids stamp) := by
  induction ids generalizing s with
  | nil => exact .refl s
  | cons id ids ih =>
    have hstamped : Extends s (s.ack [id] stamp) := by
      refine ⟨List.prefix_rfl, fun row hrow => ⟨_, List.mem_map_of_mem hrow, ?_⟩, rfl⟩
      split <;> exact ⟨rfl, rfl⟩
    exact hstamped.trans (ih _)

theorem extends_recordCommitPush (s : Ledger) (lane subscriber head messageId : String) (atMs : Nat) :
    Extends s (s.recordCommitPush lane subscriber head messageId atMs) := by
  unfold Ledger.recordCommitPush
  split <;> exact ⟨List.prefix_rfl, fun row hrow => ⟨row, hrow, rfl, rfl⟩, rfl⟩

theorem extends_appended (s : Ledger) (routes : Routes) (m : Message) (atMs : Nat) :
    Extends s (appended s routes m atMs) := by
  unfold appended
  split
  · exact .refl s
  · exact extends_append ..

theorem extends_retireHeld (s : Ledger) (route : String) (harness : Option HarnessId) (rows : List Message)
    (why : String) (attempts nowMs : Nat) : Extends s (retireHeld s route harness rows why attempts nowMs) := by
  induction rows generalizing s with
  | nil => exact .refl s
  | cons m rows ih => exact (extends_append ..).trans (ih _)

theorem extends_afterAttempt (sur : Surroundings) (s : Ledger) (route : String) (harness : Option HarnessId)
    (m : Message) (rest : List Message) (result : Except String Landing) :
    Extends s (afterAttempt sur s route harness m rest result).1 := by
  unfold afterAttempt retireIfDead
  split
  · exact .refl s
  · split
    · exact .refl s
    · split
      · simp only
        split
        · exact extends_retireHeld ..
        · exact .refl s
      · exact .refl s

/-- The record of a landing, and what follows it. -/
theorem extends_settle (sur : Surroundings) (s : Ledger) (routes : Routes) (m : Message) (landing : Landing) :
    Extends (s.record landing m.id m.toRoute (harnessOf routes m) sur.recordMs) (settle sur s routes m landing) := by
  unfold settle
  simp only
  split
  · split
    · exact (extends_ack ..).trans (extends_recordCommitPush ..)
    · exact extends_ack ..
  · exact .refl _

theorem doorGate_store (s : Ledger) (route : String) (routes : Routes) (body : String) (budget : DoorBudget)
    (nowMs : Nat) : (doorGate s route routes body budget nowMs).2.toStore = s.toStore := by
  unfold doorGate
  split <;> rfl

/-- A walk down the ladder leaves the mailbox as it is. -/
theorem Lands.store {reg : Registry} {sur : Surroundings} {s : Ledger} {routes : Routes} {m : Message}
    {budget : DoorBudget} {r : Landed} (h : Lands reg sur s routes m budget r) : r.ledger.toStore = s.toStore := by
  cases h with
  | cooled landing s' hgate =>
    have hstore := doorGate_store s m.toRoute routes m.body budget sur.gateMs
    rwa [hgate] at hstore
  | refused via s' result hopen hs' hcalm =>
    rcases hs' with rfl | ⟨why, rfl⟩ <;> rfl
  | quiet | pushed | typed | untyped => rfl

theorem deliveryAccepted_iff {s : Ledger} {id route : String} : s.deliveryAccepted id route = true ↔
    ∃ t ∈ s.transitions.rows, t.messageId = id ∧ t.route = route ∧
      (t.outcome = .acceptedByHarness ∨ t.detail = "door queue") := by
  simp [Ledger.deliveryAccepted, and_assoc]

theorem Longer.accepted {s s' : Ledger} (h : Longer s s') {id route : String}
    (hacc : s.deliveryAccepted id route = true) : s'.deliveryAccepted id route = true := by
  obtain ⟨t, ht, hrest⟩ := deliveryAccepted_iff.1 hacc
  exact deliveryAccepted_iff.2 ⟨t, h.keep t ht, hrest⟩

/-- **The record of an accepted landing** is what the next attempt asks for. -/
theorem settle_accepted (sur : Surroundings) (s : Ledger) (routes : Routes) (m : Message) {landing : Landing}
    (h : landing.Accepted) : (settle sur s routes m landing).deliveryAccepted m.id m.toRoute = true := by
  refine (extends_settle sur s routes m landing).longer.accepted (deliveryAccepted_iff.2 ?_)
  exact ⟨_, mem_append_rows.2 (.inr rfl), rfl, rfl, h⟩

/-! ## Runs -/

/-- A drain between two attempts. -/
structure Drain where
  name    : String
  harness : Option HarnessId
  routes  : Routes
  budget  : DoorBudget
  queue   : List Message

/-- An attempt that has its landing and holds the lock of its route. -/
structure Flight where
  message : Message
  routes  : Routes
  sur     : Surroundings
  landing : Landing
  drain   : Option Drain

structure World where
  ledger  : Ledger
  flights : List Flight
  drains  : List Drain
  sent    : List Sent

/-- What happens next. `attempt` is a call of `deliver_hail_budgeted`, `openDrain` a drain that reads its
    queue, `next` its next attempt, `record` the end of an attempt. -/
inductive Act where
  | attempt (m : Message) (sur : Surroundings) (routes : Routes) (budget : DoorBudget)
  | openDrain (name : String) (first routes : Option Routes) (nowMs heldMs : Nat) (budget : DoorBudget)
  | next (i : Nat) (sur : Surroundings)
  | record (i : Nat)
  | append (mailbox : String) (m : Message) (detail : String) (nowMs : Nat)
  | ack (ids : List String) (stamp : String)

namespace World

def start (s : Ledger) : World := ⟨s, [], [], []⟩

def busy (w : World) (route : String) : Bool := w.flights.any fun f => f.message.toRoute = route

/-- The caller of an attempt goes on: a drain, to its next row or to its end. -/
def finish (w : World) (sur : Surroundings) (drain : Option Drain) (m : Message) (result : Except String Landing) :
    World :=
  match drain with
  | none => w
  | some d =>
    let (s, rest) := afterAttempt sur w.ledger d.name d.harness m d.queue result
    { w with ledger := s, drains := if rest = [] then w.drains else w.drains ++ [{ d with queue := rest }] }

def attempt (reg : Registry) (w : World) (sur : Surroundings) (routes : Routes) (m : Message) (budget : DoorBudget)
    (drain : Option Drain) : World :=
  match enter reg sur w.ledger routes m (w.busy m.toRoute) budget with
  | .done s landing => { w with ledger := s }.finish sur drain m (.ok landing)
  | .failed s sent error => { w with ledger := s, sent := w.sent ++ sent.toList }.finish sur drain m (.error error)
  | .flying s sent landing =>
    { w with
      ledger := s
      sent := w.sent ++ sent.toList
      flights := w.flights ++ [⟨m, routes, sur, landing, drain⟩] }

def openDrain (w : World) (name : String) (first routes : Option Routes) (nowMs heldMs : Nat) (budget : DoorBudget) :
    World :=
  match drainQueue w.ledger name first routes nowMs heldMs, routes with
  | m :: queue, some routes =>
    let harness := (first.bind fun first => first[name]?).bind Route.harness
    { w with drains := w.drains ++ [⟨name, harness, routes, budget, m :: queue⟩] }
  | _, _ => w

def step (reg : Registry) (w : World) : Act → World
  | .attempt m sur routes budget => w.attempt reg sur routes m budget none
  | .openDrain name first routes nowMs heldMs budget => w.openDrain name first routes nowMs heldMs budget
  | .next i sur =>
    match w.drains[i]? with
    | none => w
    | some d =>
      match d.queue with
      | [] => w
      | m :: rest =>
        { w with drains := w.drains.eraseIdx i }.attempt reg sur d.routes m d.budget (some { d with queue := rest })
  | .record i =>
    match w.flights[i]? with
    | none => w
    | some f =>
      { w with
        ledger := settle f.sur w.ledger f.routes f.message f.landing
        flights := w.flights.eraseIdx i }.finish f.sur f.drain f.message (.ok f.landing)
  | .append mailbox m detail nowMs =>
    match w.ledger.writeMessage mailbox m detail nowMs with
    | .ok db => { w with ledger := w.ledger.withMailbox db }
    | .error _ => w
  | .ack ids stamp => { w with ledger := w.ledger.ack ids stamp }

end World

/-! ## At most once -/

/-- The attempt walks the ladder. -/
structure Reaches (sur : Surroundings) (s : Ledger) (m : Message) (busy : Bool) : Prop where
  active   : s.reminderMessageActive m sur.reminderMs = true
  free     : busy = false
  fresh    : s.deliveryAccepted m.id m.toRoute = false
  unpasted : noticed s m = false

/-- What an attempt does before its record. -/
def EnterSpec (reg : Registry) (sur : Surroundings) (s : Ledger) (routes : Routes) (m : Message) (busy : Bool)
    (budget : DoorBudget) : Entered → Prop
  | .done s' landing => Extends s s' ∧ landing.rung ≠ .coolOff
  | .failed s' sent error => Reaches sur s m busy ∧
    Lands reg sur (appended s routes m sur.appendMs) routes m budget ⟨s', sent, .error error⟩
  | .flying s' sent landing => Reaches sur s m busy ∧
    Lands reg sur (appended s routes m sur.appendMs) routes m budget ⟨s', sent, .ok landing⟩

theorem enter_spec (reg : Registry) (sur : Surroundings) (s : Ledger) (routes : Routes) (m : Message) (busy : Bool)
    (budget : DoorBudget) :
    EnterSpec reg sur s routes m busy budget (enter reg sur s routes m busy budget) := by
  unfold enter
  split
  · exact ⟨extends_append .., nofun⟩
  · rename_i hactive
    split
    · exact ⟨extends_append .., nofun⟩
    · rename_i hfree
      split
      · exact ⟨extends_ack .., nofun⟩
      · rename_i hfresh
        split
        · exact ⟨.refl s, nofun⟩
        · rename_i hunpasted
          have hreach : Reaches sur s m busy :=
            ⟨by simpa using hactive, by simpa using hfree, by simpa using hfresh, by simpa using hunpasted⟩
          have hlands : Lands reg sur (appended s routes m sur.appendMs) routes m budget
              (land reg sur (appended s routes m sur.appendMs) routes m budget) := land_lands reg sur
          simp only
          split
          · rename_i landing hlanding
            refine ⟨hreach, ?_⟩
            rw [← hlanding]
            exact hlands
          · rename_i error herror
            refine ⟨hreach, ?_⟩
            rw [← herror]
            exact hlands

/-- The row of a first transition is no part of what holds a commit row back. -/
theorem halfTyped_appended {reg : Registry} {sur : Surroundings} {s : Ledger} {routes : Routes} {m : Message}
    {atMs : Nat} (h : HalfTyped reg sur (appended s routes m atMs) routes m) : HalfTyped reg sur s routes m := by
  have hsame : mailboxOnly (appended s routes m atMs) routes m = mailboxOnly s routes m := by
    unfold appended
    split <;> rfl
  rw [HalfTyped, hsame] at h
  exact h

/-- A body that was taken is accepted by the ledger, or is about to be. -/
def Covered (w : World) (x : Sent) : Prop :=
  w.ledger.deliveryAccepted x.id x.route = true ∨
    ∃ f ∈ w.flights, f.message.id = x.id ∧ f.message.toRoute = x.route ∧ f.landing.Accepted

structure Once (w : World) : Prop where
  taken : ∀ x ∈ w.sent, x.took = true → Covered w x
  once  : w.sent.Pairwise fun x y => x.id = y.id → x.route = y.route → x.took = false

theorem Once.mono {w w' : World} (h : Once w) (hsent : w'.sent = w.sent) (hflights : w'.flights = w.flights)
    (hledger : Longer w.ledger w'.ledger) : Once w' := by
  refine ⟨fun x hx htook => ?_, hsent ▸ h.once⟩
  rcases h.taken x (hsent ▸ hx) htook with hacc | hflying
  · exact .inl (hledger.accepted hacc)
  · rw [← hflights] at hflying
    exact .inr hflying

theorem Once.finish {w : World} (h : Once w) (sur : Surroundings) (drain : Option Drain) (m : Message)
    (result : Except String Landing) : Once (w.finish sur drain m result) := by
  unfold World.finish
  split
  · exact h
  · exact h.mono rfl rfl (extends_afterAttempt ..).longer

/-- The lock and the ledger together keep a second body back. -/
theorem Once.fresh {w : World} (h : Once w) {sur : Surroundings} {m : Message}
    (hreach : Reaches sur w.ledger m (w.busy m.toRoute)) :
    ∀ x ∈ w.sent, x.id = m.id → x.route = m.toRoute → x.took = false := by
  intro x hx hid hroute
  by_contra htook
  rcases h.taken x hx (by simpa using htook) with hacc | ⟨f, hf, -, hto, -⟩
  · rw [hid, hroute, hreach.fresh] at hacc
    cases hacc
  · have hbusy : w.busy m.toRoute = true := List.any_eq_true.2 ⟨f, hf, decide_eq_true (hto.trans hroute)⟩
    rw [hreach.free] at hbusy
    cases hbusy

theorem Once.send {w : World} (h : Once w) {sent : Option Sent} {id route : String}
    (hfresh : ∀ x ∈ w.sent, x.id = id → x.route = route → x.took = false)
    (hsent : ∀ y ∈ sent, y.id = id ∧ y.route = route) :
    (w.sent ++ sent.toList).Pairwise fun x y => x.id = y.id → x.route = y.route → x.took = false := by
  cases sent with
  | none => simpa using h.once
  | some y =>
    obtain ⟨hid, hroute⟩ := hsent y rfl
    refine List.pairwise_append.2 ⟨h.once, List.pairwise_singleton .., fun x hx z hz => ?_⟩
    obtain rfl : z = y := by simpa using hz
    rw [hid, hroute]
    exact hfresh x hx

theorem Lands.sent_of {reg : Registry} {sur : Surroundings} {s : Ledger} {routes : Routes} {m : Message}
    {budget : DoorBudget} {r : Landed} (h : Lands reg sur s routes m budget r) :
    ∀ y ∈ r.sent, y.id = m.id ∧ y.route = m.toRoute := by
  intro y hy
  cases h with
  | quiet => cases hy
  | cooled => cases hy
  | pushed | refused | typed | untyped =>
    cases hy
    exact ⟨rfl, rfl⟩

/-- A body is taken when the landing is accepted, a half-typed one apart. -/
theorem Lands.accepted_of {reg : Registry} {sur : Surroundings} {s : Ledger} {routes : Routes} {m : Message}
    {budget : DoorBudget} {r : Landed} (h : Lands reg sur s routes m budget r)
    (hhalf : ¬ HalfTyped reg sur s routes m) :
    ∀ y ∈ r.sent, y.took = true → ∃ landing, r.landing = .ok landing ∧ landing.Accepted := by
  intro y hy htook
  cases h with
  | quiet => cases hy
  | cooled => cases hy
  | pushed via landing hopen hacc hvia hdoor => exact ⟨landing, rfl, hacc⟩
  | refused =>
    cases hy
    cases htook
  | typed landing hacc hcalm => exact ⟨landing, rfl, hacc hhalf⟩
  | untyped =>
    cases hy
    cases htook

/-- Landing behind the append takes no transition away. -/
theorem Lands.longer {reg : Registry} {sur : Surroundings} {s : Ledger} {routes : Routes} {m : Message}
    {budget : DoorBudget} {r : Landed} (h : Lands reg sur (appended s routes m sur.appendMs) routes m budget r) :
    Longer s r.ledger := by
  refine (extends_appended s routes m sur.appendMs).longer.trans ⟨fun t ht => ?_⟩
  rwa [h.store]

theorem Once.attempt {reg : Registry} {w : World} (h : Once w) (sur : Surroundings) (routes : Routes) (m : Message)
    (budget : DoorBudget) (drain : Option Drain)
    (hok : Reaches sur w.ledger m (w.busy m.toRoute) → ¬ HalfTyped reg sur w.ledger routes m) :
    Once (w.attempt reg sur routes m budget drain) := by
  have hspec := enter_spec reg sur w.ledger routes m (w.busy m.toRoute) budget
  unfold World.attempt
  revert hspec
  cases enter reg sur w.ledger routes m (w.busy m.toRoute) budget with
  | done s landing =>
    rintro ⟨hledger, -⟩
    have hdone : Once { w with ledger := s } := h.mono rfl rfl hledger.longer
    exact hdone.finish ..
  | failed s sent error =>
    rintro ⟨hreach, hlands⟩
    have hledger : Longer w.ledger s := hlands.longer
    have hhalf : ¬ HalfTyped reg sur (appended w.ledger routes m sur.appendMs) routes m :=
      fun hhalf => hok hreach (halfTyped_appended hhalf)
    refine Once.finish ⟨fun x hx htook => ?_, h.send (h.fresh hreach) hlands.sent_of⟩ ..
    rcases List.mem_append.1 hx with hx | hx
    · exact (h.taken x hx htook).imp hledger.accepted id
    · obtain ⟨landing, hl, -⟩ := hlands.accepted_of hhalf x (by simpa using hx) htook
      cases hl
  | flying s sent landing =>
    rintro ⟨hreach, hlands⟩
    have hledger : Longer w.ledger s := hlands.longer
    have hhalf : ¬ HalfTyped reg sur (appended w.ledger routes m sur.appendMs) routes m :=
      fun hhalf => hok hreach (halfTyped_appended hhalf)
    refine ⟨fun x hx htook => ?_, h.send (h.fresh hreach) hlands.sent_of⟩
    rcases List.mem_append.1 hx with hx | hx
    · rcases h.taken x hx htook with hacc | ⟨f, hf, hrest⟩
      · exact .inl (hledger.accepted hacc)
      · exact .inr ⟨f, List.mem_append_left _ hf, hrest⟩
    · have hy : x ∈ sent := by simpa using hx
      obtain ⟨landing', hl, hacc⟩ := hlands.accepted_of hhalf x hy htook
      obtain ⟨hid, hroute⟩ := hlands.sent_of x hy
      cases hl
      exact .inr ⟨_, List.mem_append_right _ (List.mem_singleton_self _), hid.symm, hroute.symm, hacc⟩

/-- No attempt of this step leaves a line typed and not submitted. -/
def Submits (reg : Registry) (w : World) : Act → Prop
  | .attempt m sur routes _ => Reaches sur w.ledger m (w.busy m.toRoute) → ¬ HalfTyped reg sur w.ledger routes m
  | .next i sur => ∀ d ∈ w.drains[i]?, ∀ m ∈ d.queue.head?,
    Reaches sur w.ledger m (w.busy m.toRoute) → ¬ HalfTyped reg sur w.ledger d.routes m
  | _ => True

theorem Once.record {w : World} (h : Once w) {i : Nat} {f : Flight} (hf : w.flights[i]? = some f) :
    Once { w with
      ledger := settle f.sur w.ledger f.routes f.message f.landing
      flights := w.flights.eraseIdx i } := by
  have hledger : Longer w.ledger (settle f.sur w.ledger f.routes f.message f.landing) :=
    ((extends_append ..).trans (extends_settle ..)).longer
  refine ⟨fun x hx htook => ?_, h.once⟩
  rcases h.taken x hx htook with hacc | ⟨g, hg, hid, hto, hacc⟩
  · exact .inl (hledger.accepted hacc)
  · obtain ⟨j, hj, rfl⟩ := List.mem_iff_getElem.1 hg
    by_cases hji : j = i
    · subst hji
      rw [List.getElem?_eq_getElem hj] at hf
      obtain rfl := Option.some.inj hf
      left
      rw [← hid, ← hto]
      exact settle_accepted _ _ _ _ hacc
    · exact .inr ⟨_, List.mem_eraseIdx_iff_getElem.2 ⟨j, hj, hji, rfl⟩, hid, hto, hacc⟩

theorem Once.step {reg : Registry} {w : World} (h : Once w) (a : Act) (hok : Submits reg w a) :
    Once (w.step reg a) := by
  cases a with
  | attempt m sur routes budget => exact h.attempt sur routes m budget none hok
  | openDrain name first routes nowMs heldMs budget =>
    simp only [World.step, World.openDrain]
    split
    · exact h.mono rfl rfl (.refl _)
    · exact h
  | next i sur =>
    simp only [World.step]
    split
    · exact h
    · rename_i d hd
      split
      · exact h
      · rename_i m rest hqueue
        have hhead : m ∈ d.queue.head? := by simp [hqueue]
        have hrest : Once { w with drains := w.drains.eraseIdx i } := h.mono rfl rfl (.refl _)
        exact hrest.attempt sur d.routes m d.budget _ (hok d hd m hhead)
  | record i =>
    simp only [World.step]
    split
    · exact h
    · rename_i f hf
      exact (h.record hf).finish ..
  | append mailbox m detail nowMs =>
    simp only [World.step]
    split
    · rename_i db hdb
      exact h.mono rfl rfl ⟨(writeMessage_advances hdb).transitions⟩
    · exact h
  | ack ids stamp => exact h.mono rfl rfl (extends_ack ..).longer

/-- **At most once**: when no composer keeps a line it did not submit, nothing is typed or sent for a
    message and a route after the body was taken, and it is taken once at most. -/
theorem delivered_at_most_once (reg : Registry) {s : Ledger} {w : World} {acts : List Act}
    (hrun : Machine.Run (Machine.guarded (Submits reg) fun w a w' => w.step reg a = w') (World.start s) acts w) :
    (w.sent.Pairwise fun x y => x.id = y.id → x.route = y.route → x.took = false) ∧
    ∀ id route, (w.sent.filter fun x => x.id = id && x.route = route && x.took).length ≤ 1 := by
  have hinv : Once w := by
    have hstep : ∀ u a v, Once u →
        Machine.guarded (Submits reg) (fun w a w' => w.step reg a = w') u a v → Once v := by
      rintro u a v hu ⟨hok, rfl⟩
      exact hu.step a hok
    exact hrun.invariant hstep ⟨fun x hx => (List.not_mem_nil hx).elim, .nil⟩
  refine ⟨hinv.once, fun id route => ?_⟩
  have hpair := (hinv.once.filter fun x => decide (x.id = id) && decide (x.route = route) && x.took)
  generalize hlist : w.sent.filter (fun x => decide (x.id = id) && decide (x.route = route) && x.took) = seen at hpair ⊢
  match seen, hpair with
  | [], _ => simp
  | [_], _ => simp
  | x :: y :: rest, hpair =>
    have hmem : ∀ z ∈ x :: y :: rest, z.id = id ∧ z.route = route ∧ z.took = true := by
      intro z hz
      rw [← hlist, List.mem_filter] at hz
      simpa [and_assoc] using hz.2
    obtain ⟨hx1, hx2, hx3⟩ := hmem x (by simp)
    obtain ⟨hy1, hy2, -⟩ := hmem y (by simp)
    have hfalse := List.rel_of_pairwise_cons hpair (List.mem_cons_self ..) (hx1.trans hy1.symm) (hx2.trans hy2.symm)
    rw [hx3] at hfalse
    cases hfalse

/-! ## A line typed twice -/

def noLedger : Ledger := ⟨⟨.empty, .empty, ["kimi"]⟩, [], [], []⟩

/-- kimi reads keystrokes and has a submit key. -/
def kimiRegistry : Registry := ⟨[.kimi], fun _ => .keystrokes, fun _ => some "Enter"⟩

def kimiRoute : Route := { Route.default with kind := .native, harness := some .kimi, tmux := some "%1" }

def kimiRoutes : Routes := (∅ : Routes).insert "kimi" kimiRoute

/-- A live pane that takes every line; `key` is its answer to the submit key. -/
def kimiPane (key : Option String) : Surroundings where
  inboxHookInstalled _ _ _ := false
  liveSession _ _ := .ok none
  deliver _ _ _ := .ok .injected
  prompt _ _ := .ok ""
  alive _ := true
  paste pane _ := some pane
  submit _ _ := key
  moodTemplate _ := "\x7bbody\x7d"
  vars _ := none
  reminderMs := 0
  appendMs := 0
  gateMs := 0
  recordMs := 0
  stamp := "now"
  pushMs := 0
  retireMs := 0

def request : Message :=
  ⟨"m1", "coordinator", "kimi", "now", none, .request, none, "do it", none, none, none⟩

/-- The send finds a pane that loses the key, the next drain one that takes it. -/
def sendThenDrain : List Act :=
  [.append "bus" request "mailbox" 0, .attempt request (kimiPane none) kimiRoutes .default, .record 0,
    .openDrain "kimi" (some kimiRoutes) (some kimiRoutes) 0 0 .default, .next 0 (kimiPane (some "%1"))]

theorem typed_twice : ¬ ∀ (reg : Registry) (s : Ledger) (acts : List Act) (w : World),
    Machine.Run (fun w a w' => w.step reg a = w') (World.start s) acts w →
      w.sent.Pairwise fun x y => x.id = y.id → x.route = y.route → x.took = false := by
  intro h
  have hrun := h kimiRegistry noLedger sendThenDrain _
    (Machine.run_foldl (World.step kimiRegistry) (World.start noLedger) sendThenDrain)
  have htwice : (sendThenDrain.foldl (World.step kimiRegistry) (World.start noLedger)).sent =
      [⟨"m1", "kimi", "do it", .pane, true⟩, ⟨"m1", "kimi", "do it", .pane, true⟩] := by decide +kernel
  rw [htwice] at hrun
  exact absurd (List.rel_of_pairwise_cons hrun (List.mem_singleton_self _) rfl rfl) (by decide)

theorem submits_of_key {w : World} {m : Message} : Submits kimiRegistry w
    (.attempt m (kimiPane (some "%1")) kimiRoutes .default) := by
  rintro - ⟨-, route, id, pane, key, -, -, -, -, -, -, -, -, -, hsubmit⟩
  cases hsubmit

/-- Sent, recorded and sent again. -/
theorem delivered_at_most_once_retry :
    let send : Act := .attempt request (kimiPane (some "%1")) kimiRoutes .default
    let w := [send, .record 0, send].foldl (World.step kimiRegistry) (World.start noLedger)
    (w.sent.filter fun x => x.id = "m1" && x.route = "kimi" && x.took).length ≤ 1 := by
  intro send w
  have hrun : Machine.Run (Machine.guarded (Submits kimiRegistry) fun w a w' => w.step kimiRegistry a = w')
      (World.start noLedger) [send, .record 0, send] w :=
    .cons ⟨submits_of_key, rfl⟩ (.cons ⟨trivial, rfl⟩ (.cons ⟨submits_of_key, rfl⟩ (.nil _)))
  exact (delivered_at_most_once kimiRegistry hrun).2 "m1" "kimi"

end BoopProc
