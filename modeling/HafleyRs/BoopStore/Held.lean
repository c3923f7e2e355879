import HafleyRs.BoopStore.ReminderRuns

/-!
# Held messages (`held_messages`, `crates/boop-store/src/bus.rs`:327)

| here | there |
| --- | --- |
| `settles` | the outcomes and details of the `NOT EXISTS` (bus.rs:336) |
| `held` | the `WHERE` clause |
| `underSchedule`, `heldMessages` | the loop over the rows (bus.rs:356) |

A message is `Settled` for a route once its row is acked or a settling transition names it and the route.
No step of a `History` takes an ack back, moves a row to another route or drops a transition
(`step_advances`), so a settled message is never held again. One that is not settled is held, unless it
is a reminder's and the reminder has moved on, expired or been cancelled: the reader checks the
schedule as it reads, and `cancelled_reminder` is such a message.
-/

namespace BoopStore
open Mailbox

/-- `'accepted-by-harness'`, `'pasted-into-pane'` or `'route-dead'`, or the detail names a door. -/
def Transition.settles (t : Transition) : Bool :=
  t.outcome ∈ [.acceptedByHarness, .pastedIntoPane, .routeDead] || t.detail ∈ ["door", "door queue"]

namespace Store

def held (s : Store) (route : String) (row : MailRow) : Bool :=
  row.toRoute = route && row.toTimestamp = none &&
    !(s.transitions.rows.any fun t => t.messageId = row.messageId && t.route = row.toRoute && t.settles)

/-- An open message of a reminder that is not active reads as stamped. -/
def underSchedule (s : Store) (nowMs : Int) (m : Message) : Message :=
  if m.toTimestamp.isNone && (m.ref.bind reminderName).isSome && !s.reminderMessageActive m nowMs
  then { m with toTimestamp := some "reminder-inactive" } else m

def heldMessages (s : Store) (route : String) (nowMs : Int) : List Message :=
  (((s.mail.rows.filter (s.held route)).map fun row => s.underSchedule nowMs row.message).filter
    fun m => m.toTimestamp ≠ some "reminder-inactive")

/-- Acked, or taken by the route. -/
def Settled (s : Store) (id route : String) : Prop :=
  (∃ row ∈ s.mail.rows, row.messageId = id ∧ row.toTimestamp ≠ none) ∨
    ∃ t ∈ s.transitions.rows, t.messageId = id ∧ t.route = route ∧ t.settles = true

end Store

/-! ## What no step takes back -/

/-- Transitions stay, and rows stay with their route and their ack. -/
structure Advances (db db' : Mailbox) : Prop where
  transitions : ∀ t ∈ db.transitions.rows, t ∈ db'.transitions.rows
  mail        : ∀ row ∈ db.mail.rows, ∃ row' ∈ db'.mail.rows, row'.messageId = row.messageId ∧
    row'.toRoute = row.toRoute ∧ (row.toTimestamp ≠ none → row'.toTimestamp ≠ none)

theorem Advances.refl (db : Mailbox) : Advances db db :=
  ⟨fun _ ht => ht, fun row hrow => ⟨row, hrow, rfl, rfl, id⟩⟩

theorem append_advances {db : Mailbox} {messageId route : String} {harness : Option String}
    {outcome : DeliveryState} {detail : String} {errorCode : Option String} {atMs : Nat} :
    Advances db (db.appendDeliveryTransition messageId route harness outcome detail errorCode atMs) :=
  ⟨fun _ ht => mem_append_rows.2 (.inl ht), fun row hrow => ⟨row, hrow, rfl, rfl, id⟩⟩

/-- The upsert keeps the first route, and an ack unless it has a new one. -/
theorem writeMessage_advances {db db' : Mailbox} {mailbox : String} {m : Message} {detail : String}
    {nowMs : Nat} (h : db.writeMessage mailbox m detail nowMs = .ok db') : Advances db db' := by
  obtain ⟨db1, hok, hmail, htr⟩ := db.writeMessage_ok mailbox m detail nowMs
  rw [hok] at h
  cases h
  constructor
  · intro t ht
    rw [htr]
    split
    · exact ht
    · exact mem_append_rows.2 (.inl ht)
  · intro row hrow
    have hget := db.mail.mem_rows_iff.1 hrow
    have hget' := Table.get_upsert mailMerge db.mail { m.columns with mailbox := mailbox } (mailKey row)
    rw [← hmail] at hget'
    split at hget'
    · rw [hget, Option.map_some, Option.getD_some] at hget'
      refine ⟨_, List.mem_of_find?_eq_some hget', rfl, rfl, fun hack hnone => ?_⟩
      have hor : (m.toTimestamp <|> row.toTimestamp) = none := hnone
      cases hm : m.toTimestamp with
      | none => rw [hm] at hor; exact hack hor
      | some stamp => rw [hm] at hor; cases hor
    · rw [hget] at hget'
      exact ⟨row, List.mem_of_find?_eq_some hget', rfl, rfl, id⟩

theorem stamped_advances {s : Store} {id stamp : String} :
    Advances s.toMailbox { s.toMailbox with mail := Store.stamped s.mail id stamp } := by
  refine ⟨fun _ ht => ht, fun row hrow => ⟨_, List.mem_map_of_mem hrow, ?_⟩⟩
  split
  · exact ⟨rfl, rfl, fun _ => nofun⟩
  · exact ⟨rfl, rfl, fun h => h⟩

theorem Advances.trans {a b c : Mailbox} (h : Advances a b) (h' : Advances b c) : Advances a c := by
  refine ⟨fun t ht => h'.transitions t (h.transitions t ht), fun row hrow => ?_⟩
  obtain ⟨row1, hrow1, hid1, hto1, hack1⟩ := h.mail row hrow
  obtain ⟨row2, hrow2, hid2, hto2, hack2⟩ := h'.mail row1 hrow1
  exact ⟨row2, hrow2, hid2.trans hid1, hto2.trans hto1, fun hack => hack2 (hack1 hack)⟩

theorem ack_advances (s : Store) (ids : List String) (stamp : String) :
    Advances s.toMailbox (s.ackMessages ids stamp).toMailbox := by
  induction ids generalizing s with
  | nil => exact .refl _
  | cons id ids ih => exact stamped_advances.trans (ih { s with mail := Store.stamped s.mail id stamp })

theorem retry_advances (s : Store) (name : String) (nowMs clockMs : Int) :
    Advances s.toMailbox (s.reminderRetry name nowMs clockMs).2.toMailbox := by
  unfold Store.reminderRetry
  split
  · exact .refl _
  · split
    · simp only
      split
      · exact .refl _
      · exact append_advances
    · exact .refl _

theorem step_advances (s : History) (a : Action) : Advances s.store.toMailbox (s.step a).store.toMailbox := by
  cases a with
  | add name route body everyMs untilMs nowMs =>
    unfold History.step
    simp only
    split
    · rename_i hadd
      rw [History.withStore, (reminderAdd_ok hadd).1]
      exact .refl _
    · exact .refl _
  | cancel name => exact .refl _
  | expire nowMs => exact .refl _
  | detail name detail => exact .refl _
  | claim name nowMs id iso atMs =>
    unfold History.step
    simp only
    split
    · rename_i hclaim
      obtain ⟨r, -, -, -, -, hwrite, -⟩ := reminderClaim_some hclaim
      exact writeMessage_advances hwrite
    · rename_i hclaim
      rw [reminderClaim_none hclaim]
      exact .refl _
    · exact .refl _
  | retry name nowMs clockMs => exact retry_advances s.store name nowMs clockMs
  | deliver messageId route harness outcome detail errorCode atMs => exact append_advances
  | send mailbox message detail nowMs =>
    unfold History.step
    simp only
    split
    · exact writeMessage_advances ‹_›
    · exact .refl _
  | ack ids stamp => exact ack_advances s.store ids stamp
  | register routes => exact .refl _

/-! ## Settled messages -/

namespace Store

theorem Settled.mono {s t : Store} (h : Advances s.toMailbox t.toMailbox) {id route : String}
    (hs : s.Settled id route) : t.Settled id route := by
  rcases hs with ⟨row, hrow, hid, hack⟩ | ⟨tr, htr, hrest⟩
  · obtain ⟨row', hrow', hid', -, hack'⟩ := h.mail row hrow
    exact .inl ⟨row', hrow', hid'.trans hid, hack' hack⟩
  · exact .inr ⟨tr, h.transitions tr htr, hrest⟩

theorem ack_settles (s : Store) {ids : List String} (stamp : String) {row : MailRow}
    (hrow : row ∈ s.mail.rows) (hid : row.messageId ∈ ids) (route : String) :
    (s.ackMessages ids stamp).Settled row.messageId route := by
  induction ids generalizing s row with
  | nil => exact absurd hid List.not_mem_nil
  | cons id ids ih =>
    have hrest := ack_advances { s with mail := stamped s.mail id stamp } ids stamp
    by_cases hhead : row.messageId = id
    · refine Settled.mono hrest (.inl ⟨_, List.mem_map_of_mem hrow, ?_⟩)
      split
      · exact ⟨rfl, nofun⟩
      · rename_i hopen
        exact ⟨rfl, fun hnone => hopen ⟨hhead, hnone⟩⟩
    · have hin : row.messageId ∈ ids := (List.mem_cons.1 hid).resolve_left hhead
      have hsame : row ∈ (stamped s.mail id stamp).rows := by
        refine List.mem_map.2 ⟨row, hrow, if_neg fun h => hhead h.1⟩
      exact ih { s with mail := stamped s.mail id stamp } hsame hin

theorem deliver_settles (s : History) {messageId route : String} {harness : Option String}
    {outcome : DeliveryState} {detail : String} {errorCode : Option String} {atMs : Nat}
    (h : outcome ∈ [.acceptedByHarness, .pastedIntoPane, .routeDead] ∨ detail ∈ ["door", "door queue"]) :
    (s.step (.deliver messageId route harness outcome detail errorCode atMs)).store.Settled messageId
      route := by
  refine .inr ⟨_, mem_append_rows.2 (.inr rfl), rfl, rfl, ?_⟩
  simpa [Transition.settles] using h

/-! ## `held_messages` -/

theorem held_iff {s : Store} {route : String} {row : MailRow} (hrow : row ∈ s.mail.rows) :
    s.held route row = true ↔ row.toRoute = route ∧ ¬ s.Settled row.messageId route := by
  have hacked : (∃ row' ∈ s.mail.rows, row'.messageId = row.messageId ∧ row'.toTimestamp ≠ none) ↔
      row.toTimestamp ≠ none := by
    constructor
    · rintro ⟨row', hrow', hid, hack⟩
      rwa [← List.inj_on_of_nodup_map s.mail.unique hrow' hrow hid]
    · exact fun hack => ⟨row, hrow, rfl, hack⟩
  rw [Settled, hacked, held]
  by_cases hroute : row.toRoute = route
  · subst hroute
    simp only [decide_true, Bool.true_and, Bool.and_eq_true, decide_eq_true_eq, Bool.not_eq_true',
      List.any_eq_false, true_and, not_or, ne_eq, not_not, not_exists, not_and, and_imp]
  · simp [hroute]

theorem underSchedule_id (s : Store) (nowMs : Int) (m : Message) : (s.underSchedule nowMs m).id = m.id := by
  unfold underSchedule
  split <;> rfl

theorem not_mem_held {s : Store} {id route : String} (h : s.Settled id route) (nowMs : Int) :
    ∀ m ∈ s.heldMessages route nowMs, m.id ≠ id := by
  rintro m hm rfl
  obtain ⟨row, hrow, rfl⟩ := List.mem_map.1 (List.mem_of_mem_filter hm)
  obtain ⟨hrow, hheld⟩ := List.mem_filter.1 hrow
  rw [underSchedule_id] at h
  exact ((held_iff hrow).1 hheld).2 h

theorem mem_held {s : Store} {row : MailRow} (hrow : row ∈ s.mail.rows)
    (hopen : ¬ s.Settled row.messageId row.toRoute) {nowMs : Int}
    (hactive : s.reminderMessageActive row.message nowMs = true) :
    row.message ∈ s.heldMessages row.toRoute nowMs := by
  have hsame : s.underSchedule nowMs row.message = row.message := by
    rw [underSchedule, hactive]
    simp
  have hnone : row.toTimestamp = none := by
    by_contra hack
    exact hopen (.inl ⟨row, hrow, rfl, hack⟩)
  refine List.mem_filter.2 ⟨List.mem_map.2 ⟨row, List.mem_filter.2 ⟨hrow, ?_⟩, hsame⟩, ?_⟩
  · exact (held_iff hrow).2 ⟨rfl, hopen⟩
  · have : row.message.toTimestamp = none := hnone
    simp [this]

end Store

/-- **`held_messages` (bus.rs:327)** over any history: an ack settles a message, so does one of the
    outcomes or a door's detail for a route; a settled message is not held for the route in any later
    state, and every other message is held, reminders that are not active apart. -/
theorem held_once {s t : History} {as : List Action}
    (hrun : Machine.Run (fun s a t => History.step s a = t) s as t) :
    (∀ ids stamp, ∀ row ∈ s.store.mail.rows, row.messageId ∈ ids → ∀ route,
      (s.step (.ack ids stamp)).store.Settled row.messageId route) ∧
    (∀ messageId route harness outcome detail errorCode atMs,
      outcome ∈ [.acceptedByHarness, .pastedIntoPane, .routeDead] ∨ detail ∈ ["door", "door queue"] →
        (s.step (.deliver messageId route harness outcome detail errorCode atMs)).store.Settled messageId
          route) ∧
    (∀ id route, s.store.Settled id route → ∀ nowMs, ∀ m ∈ t.store.heldMessages route nowMs, m.id ≠ id) ∧
    ∀ row ∈ t.store.mail.rows, ¬ t.store.Settled row.messageId row.toRoute → ∀ nowMs,
      t.store.reminderMessageActive row.message nowMs = true →
        row.message ∈ t.store.heldMessages row.toRoute nowMs := by
  have hadv : Advances s.store.toMailbox t.store.toMailbox := by
    have hstep : ∀ u a v, Advances s.store.toMailbox u.store.toMailbox → History.step u a = v →
        Advances s.store.toMailbox v.store.toMailbox := by
      rintro u a v hu rfl
      exact hu.trans (step_advances u a)
    exact hrun.invariant hstep (.refl _)
  exact ⟨fun ids stamp row hrow hid route => s.store.ack_settles stamp hrow hid route,
    fun _ _ _ _ _ _ _ hout => Store.deliver_settles s hout,
    fun id route hs nowMs => Store.not_mem_held (hs.mono hadv) nowMs,
    fun row hrow hopen nowMs hactive => Store.mem_held hrow hopen hactive⟩

/-- The message of `tick`, accepted through the door, and then reported as held. -/
theorem held_once_tick : (((tickAccepted.foldl History.step (start ["lane"])).step
    (.deliver "m1" "lane" none .heldInMailbox "mailbox" none 12)).store.heldMessages "lane" 12).any
      (fun m => decide (m.id = "m1")) = false := by
  rw [List.any_eq_false]
  intro m hm
  have hsettled := (held_once (.cons rfl (.nil _))).2.2.1 "m1" "lane" (by unfold Store.Settled; decide) 12 m hm
  simpa using hsettled

/-- `tick` is claimed and cancelled: its message is open, and nothing was recorded about it. -/
def claimedThenCancelled : List Action :=
  [.add "tick" "lane" "work" 10 1000 0, .claim "tick" 10 "m1" "t" 10, .cancel "tick"]

theorem cancelled_reminder : ¬ ∀ (routes : List String) (as : List Action) (t : History),
    Machine.Run (fun s a t => History.step s a = t) (start routes) as t →
      ∀ row ∈ t.store.mail.rows, row.toRoute ∈ t.store.routes →
        ¬ t.store.Settled row.messageId row.toRoute → ∀ nowMs,
          row.message ∈ t.store.heldMessages row.toRoute nowMs := by
  intro h
  have hall := h _ _ _ (Machine.run_foldl History.step (start ["lane"]) claimedThenCancelled)
  exact absurd (hall ⟨⟨"m1", "reminder:tick", "lane", "t", none, "request", none, "work",
    some "reminder:tick", none, none⟩, "bus"⟩ (by decide) (by decide) (by unfold Store.Settled; decide) 20)
    (by decide)

end BoopStore
