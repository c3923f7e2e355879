import HafleyRs.Lib.Machine
import HafleyRs.BoopStore.Reminder

/-!
# Runs of reminders, deliveries and replies

A `History` is a store with every message a claim has handed out. The claim's guard sees a message of
another reminder only through its latest outcome, so an accepted message that was held afterwards
escapes it, and one that was held when the guard looked may be accepted later (`held_overlaps`).
`Ok` is where neither happens: at a claim the guard sees every live message of the route, and no
message is accepted or submitted while one claimed after it on its route is unfinished. Under it no
route has two live messages (`runs_noOverlap`).

The invariant is about the order of the claims: whatever was claimed on a route after a live message
is finished (`later`), an unfinished message is the last one of some reminder (`outstanding`), and the
last message of an active reminder is the last claim on its route (`current`).
-/

namespace BoopStore
open Mailbox

/-! ## Histories -/

inductive Action where
  | add (name route body : String) (everyMs untilMs nowMs : Int)
  | cancel (name : String)
  | expire (nowMs : Int)
  | detail (name detail : String)
  | claim (name : String) (nowMs : Int) (id iso : String) (atMs : Nat)
  | retry (name : String) (nowMs clockMs : Int)
  | deliver (messageId route : String) (harness : Option String) (outcome : DeliveryState)
      (detail : String) (errorCode : Option String) (atMs : Nat)
  | send (mailbox : String) (message : Message) (detail : String) (nowMs : Nat)
  | ack (ids : List String) (stamp : String)
  | register (routes : List String)

structure History where
  store   : Store
  claimed : List Message

def start (routes : List String) : History := ⟨⟨.empty, .empty, routes⟩, []⟩

namespace History

def withStore (s : History) (store : Store) : History := { s with store := store }

def withMailbox (s : History) (db : Mailbox) : History := s.withStore { s.store with toMailbox := db }

def step (s : History) : Action → History
  | .add name route body everyMs untilMs nowMs =>
    match s.store.reminderAdd name route body everyMs untilMs nowMs with
    | .ok store => s.withStore store
    | .error _ => s
  | .cancel name => s.withStore (s.store.reminderCancel name).2
  | .expire nowMs => s.withStore (s.store.reminderExpire nowMs)
  | .detail name detail => s.withStore (s.store.reminderDetail name detail)
  | .claim name nowMs id iso atMs =>
    match s.store.reminderClaim name nowMs id iso atMs with
    | .ok (some m, store) => ⟨store, s.claimed ++ [m]⟩
    | .ok (none, store) => s.withStore store
    | .error _ => s
  | .retry name nowMs clockMs => s.withStore (s.store.reminderRetry name nowMs clockMs).2
  | .deliver messageId route harness outcome detail errorCode atMs =>
    s.withMailbox (s.store.appendDeliveryTransition messageId route harness outcome detail errorCode atMs)
  | .send mailbox message detail nowMs =>
    match s.store.writeMessage mailbox message detail nowMs with
    | .ok db => s.withMailbox db
    | .error _ => s
  | .ack ids stamp => s.withStore (s.store.ackMessages ids stamp)
  | .register routes => s.withStore { s.store with routes := routes }

end History

def takes (outcome : DeliveryState) : Bool :=
  outcome = .acceptedByHarness || outcome = .submittedToHarness

/-- Some transition of the message is an acceptance or a submission. -/
def taken (db : Mailbox) (messageId : String) : Bool :=
  (db.transitionsOf messageId).any fun t => takes t.outcome

/-- Accepted or submitted, and not finished. -/
def live (db : Mailbox) (m : Message) : Bool := taken db m.id && !Store.finished db m.id m.toRoute

/-- `m` was claimed before `m'`. -/
def Before (s : History) (m m' : Message) : Prop := [m, m'].Sublist s.claimed

/-- The guard looks at the last message of every other reminder of the route that is live. -/
def SeesLive (s : Store) (r : Reminder) : Prop :=
  ∀ other ∈ s.reminders.rows, other.route = r.route → other.name ≠ r.name →
    ∀ last, other.lastMessage = some last → taken s.toMailbox last = true →
      Store.finished s.toMailbox last other.route = false →
      Store.latestOutcome s.toMailbox last ∈
        [some .appended, some .submittedToHarness, some .acceptedByHarness]

/-- Where the steps do not reach the defect. -/
def Ok (s : History) : Action → Prop
  | .claim name _ id _ _ => s.store.hasDeliveryTransition id = false ∧
      ∀ r, s.store.reminders.table.get name = some r → SeesLive s.store r
  | .deliver messageId _ _ outcome _ _ _ => takes outcome = true →
      ∀ m m', Before s m m' → m.id = messageId → m.toRoute = m'.toRoute →
        Store.finished s.store.toMailbox m'.id m'.toRoute = true
  | .send _ message _ _ => ∀ row, s.store.mail.get message.id = some row → row.kind = "reply" →
      message.kind.asStr = "reply" ∧ message.replyTo = row.replyTo
  | _ => True

/-! ## What stays -/

/-- No transition and no reply is lost. -/
structure Grows (db db' : Mailbox) : Prop where
  transitions : ∀ t ∈ db.transitions.rows, t ∈ db'.transitions.rows
  replies     : ∀ row ∈ db.mail.rows, row.kind = "reply" → ∃ row' ∈ db'.mail.rows,
    row'.kind = "reply" ∧ row'.replyTo = row.replyTo ∧ row'.fromRoute = row.fromRoute

theorem mem_transitionsOf {db : Mailbox} {id : String} {t : Transition} :
    t ∈ db.transitionsOf id ↔ t ∈ db.transitions.rows ∧ t.messageId = id := by
  rw [transitionsOf, List.mem_filter, decide_eq_true_eq]

theorem hasDeliveryTransition_iff {db : Mailbox} {id : String} :
    db.hasDeliveryTransition id = true ↔ ∃ t ∈ db.transitions.rows, t.messageId = id := by
  simp [hasDeliveryTransition, transitionsOf]

theorem taken_iff {db : Mailbox} {id : String} :
    taken db id = true ↔ ∃ t ∈ db.transitions.rows, t.messageId = id ∧ takes t.outcome = true := by
  rw [taken, List.any_eq_true]
  constructor
  · rintro ⟨t, ht, h⟩
    exact ⟨t, (mem_transitionsOf.1 ht).1, (mem_transitionsOf.1 ht).2, h⟩
  · rintro ⟨t, ht, hid, h⟩
    exact ⟨t, mem_transitionsOf.2 ⟨ht, hid⟩, h⟩

theorem finished_iff {db : Mailbox} {id route : String} : Store.finished db id route = true ↔
    (∃ t ∈ db.transitions.rows, t.messageId = id ∧
        (t.outcome = .turnEnded ∨ t.outcome = .replyAppended)) ∨
      ∃ row ∈ db.mail.rows, row.replyTo = some id ∧ row.kind = "reply" ∧ row.fromRoute = route := by
  simp [Store.finished, transitionsOf, and_assoc]

theorem Grows.finished {db db' : Mailbox} (h : Grows db db') {id route : String}
    (hf : Store.finished db id route = true) : Store.finished db' id route = true := by
  rw [finished_iff] at hf ⊢
  rcases hf with ⟨t, ht, hout⟩ | ⟨row, hrow, hto, hkind, hfrom⟩
  · exact .inl ⟨t, h.transitions t ht, hout⟩
  · obtain ⟨row', hrow', hkind', hto', hfrom'⟩ := h.replies row hrow hkind
    exact .inr ⟨row', hrow', hto'.trans hto, hkind', hfrom'.trans hfrom⟩

theorem Grows.unfinished {db db' : Mailbox} (h : Grows db db') {id route : String}
    (hf : Store.finished db' id route = false) : Store.finished db id route = false := by
  rw [← Bool.not_eq_true] at hf ⊢
  exact fun hf' => hf (h.finished hf')

theorem Grows.hasDeliveryTransition {db db' : Mailbox} (h : Grows db db') {id : String}
    (hid : db.hasDeliveryTransition id = true) : db'.hasDeliveryTransition id = true := by
  rw [hasDeliveryTransition_iff] at hid ⊢
  obtain ⟨t, ht, heq⟩ := hid
  exact ⟨t, h.transitions t ht, heq⟩

section append
variable {db : Mailbox} {messageId route : String} {harness : Option String}
  {outcome : DeliveryState} {detail : String} {errorCode : Option String} {atMs : Nat}

theorem mem_append_rows {t : Transition} :
    t ∈ (db.appendDeliveryTransition messageId route harness outcome detail errorCode
        atMs).transitions.rows ↔ t ∈ db.transitions.rows ∨
      t = ⟨messageId, db.nextSequence messageId, route, harness, outcome, detail, errorCode, atMs⟩ :=
  List.mem_append.trans (or_congr_right List.mem_singleton)

theorem append_grows :
    Grows db (db.appendDeliveryTransition messageId route harness outcome detail errorCode atMs) :=
  ⟨fun _ ht => mem_append_rows.2 (.inl ht), fun row hrow hkind => ⟨row, hrow, hkind, rfl, rfl⟩⟩

theorem taken_append {id : String} :
    taken (db.appendDeliveryTransition messageId route harness outcome detail errorCode atMs) id = true ↔
      taken db id = true ∨ (messageId = id ∧ takes outcome = true) := by
  simp only [taken_iff, mem_append_rows, or_and_right, exists_or, exists_eq_left]

end append

/-- A row that keeps the reply of its id keeps all replies. -/
theorem upsert_replies {mail : Table mailKey} {row old : MailRow} (hold : old ∈ mail.rows)
    (hkind : old.kind = "reply") (hkeep : ∀ old, mail.get row.messageId = some old →
      old.kind = "reply" → row.kind = "reply" ∧ row.replyTo = old.replyTo) :
    ∃ row' ∈ (mail.upsert mailMerge row).rows,
      row'.kind = "reply" ∧ row'.replyTo = old.replyTo ∧ row'.fromRoute = old.fromRoute := by
  have hget : mail.get (mailKey old) = some old := mail.mem_rows_iff.1 hold
  have hget' := Table.get_upsert mailMerge mail row (mailKey old)
  by_cases hid : mailKey row = mailKey old
  · rw [← hid] at hget
    obtain ⟨hk, hto⟩ := hkeep old hget hkind
    rw [if_pos hid, ← hid, hget, Option.map_some, Option.getD_some] at hget'
    exact ⟨mailMerge.run old row, List.mem_of_find?_eq_some hget', hk, hto, rfl⟩
  · rw [if_neg hid, hget] at hget'
    exact ⟨old, List.mem_of_find?_eq_some hget', hkind, rfl, rfl⟩

theorem mem_upsert_key {mail : Table mailKey} {row row' : MailRow}
    (h : row' ∈ (mail.upsert mailMerge row).rows) :
    row'.messageId = row.messageId ∨ ∃ old ∈ mail.rows, row'.messageId = old.messageId := by
  have hkey : row'.messageId ∈ (mail.upsert mailMerge row).keys := List.mem_map_of_mem h
  rw [Table.keys_upsert] at hkey
  split at hkey
  · obtain ⟨old, hold, heq⟩ := List.mem_map.1 hkey
    exact .inr ⟨old, hold, heq.symm⟩
  · rcases List.mem_append.1 hkey with hkey | hkey
    · obtain ⟨old, hold, heq⟩ := List.mem_map.1 hkey
      exact .inr ⟨old, hold, heq.symm⟩
    · exact .inl (List.mem_singleton.1 hkey)

/-- What `write_message` does to transitions and replies. -/
theorem writeMessage_effect {db db' : Mailbox} {mailbox : String} {m : Message} {detail : String}
    {nowMs : Nat} (h : db.writeMessage mailbox m detail nowMs = .ok db')
    (hkeep : ∀ old, db.mail.get m.id = some old → old.kind = "reply" →
      m.kind.asStr = "reply" ∧ m.replyTo = old.replyTo) :
    Grows db db' ∧ (∀ id, taken db' id = true ↔ taken db id = true) ∧
      db'.hasDeliveryTransition m.id = true ∧
      ∀ row ∈ db'.mail.rows, row.messageId = m.id ∨ ∃ old ∈ db.mail.rows, row.messageId = old.messageId := by
  obtain ⟨db1, hok, hmail, htr⟩ := db.writeMessage_ok mailbox m detail nowMs
  rw [hok] at h
  cases h
  have hreplies : ∀ old ∈ db.mail.rows, old.kind = "reply" → ∃ row' ∈ db'.mail.rows,
      row'.kind = "reply" ∧ row'.replyTo = old.replyTo ∧ row'.fromRoute = old.fromRoute :=
    fun old hold hkind => hmail ▸ upsert_replies hold hkind hkeep
  have hkeys : ∀ row ∈ db'.mail.rows,
      row.messageId = m.id ∨ ∃ old ∈ db.mail.rows, row.messageId = old.messageId :=
    fun row hrow => mem_upsert_key (hmail ▸ hrow)
  by_cases hhas : db.hasDeliveryTransition m.id = true
  · rw [if_pos hhas] at htr
    refine ⟨⟨fun t ht => htr ▸ ht, hreplies⟩, fun id => ?_, ?_, hkeys⟩
    · rw [taken_iff, taken_iff, htr]
    · rw [hasDeliveryTransition_iff, htr, ← hasDeliveryTransition_iff]; exact hhas
  · rw [if_neg hhas] at htr
    refine ⟨⟨fun t ht => htr ▸ append_grows.transitions t ht, hreplies⟩, fun id => ?_, ?_, hkeys⟩
    · rw [taken_iff, htr, ← taken_iff, taken_append]
      simp [takes]
    · rw [hasDeliveryTransition_iff, htr, ← hasDeliveryTransition_iff]
      exact hasDeliveryTransition_append

/-! ## The invariant -/

structure Inv (s : History) : Prop where
  carried     : ∀ row ∈ s.store.mail.rows, s.store.hasDeliveryTransition row.messageId = true
  sent        : ∀ m ∈ s.claimed, s.store.hasDeliveryTransition m.id = true
  ids         : (s.claimed.map Message.id).Nodup
  later       : ∀ m m', Before s m m' → m.toRoute = m'.toRoute → live s.store.toMailbox m = true →
    Store.finished s.store.toMailbox m'.id m'.toRoute = true
  outstanding : ∀ m ∈ s.claimed, Store.finished s.store.toMailbox m.id m.toRoute = false →
    ∃ r ∈ s.store.reminders.rows, r.route = m.toRoute ∧ r.lastMessage = some m.id
  current     : ∀ r ∈ s.store.reminders.rows, r.state = .active → ∀ last, r.lastMessage = some last →
    ∃ m ∈ s.claimed, m.id = last ∧ m.toRoute = r.route ∧ ∀ m', Before s m m' → m'.toRoute ≠ r.route

theorem start_inv (routes : List String) : Inv (start routes) := by
  refine ⟨?_, ?_, List.nodup_nil, fun m m' h => ?_, ?_, ?_⟩
  · exact fun _ h => absurd h List.not_mem_nil
  · exact fun _ h => absurd h List.not_mem_nil
  · exact absurd (List.Sublist.length_le h) (by simp [start])
  · exact fun _ h => absurd h List.not_mem_nil
  · exact fun _ h => absurd h List.not_mem_nil

/-- The schedule may change as long as no reminder loses its last message and no active one gets a
    new one. -/
theorem Inv.withReminders {s : History} (h : Inv s) {store : Store}
    (hmailbox : store.toMailbox = s.store.toMailbox)
    (hkept : ∀ r ∈ s.store.reminders.rows, ∃ r' ∈ store.reminders.rows,
      r'.route = r.route ∧ r'.lastMessage = r.lastMessage)
    (hactive : ∀ r' ∈ store.reminders.rows, r'.state = .active → ∀ last, r'.lastMessage = some last →
      ∃ r ∈ s.store.reminders.rows, r.state = .active ∧ r.route = r'.route ∧ r.lastMessage = some last) :
    Inv (s.withStore store) := by
  refine ⟨?_, ?_, h.ids, ?_, fun m hm hf => ?_, fun r' hr' hs last hlast => ?_⟩
  · rw [History.withStore, hmailbox]; exact h.carried
  · rw [History.withStore, hmailbox]; exact h.sent
  · rw [History.withStore, hmailbox]; exact h.later
  · rw [History.withStore, hmailbox] at hf
    obtain ⟨r, hr, hroute, hlast⟩ := h.outstanding m hm hf
    obtain ⟨r', hr', hroute', hlast'⟩ := hkept r hr
    exact ⟨r', hr', hroute'.trans hroute, hlast'.trans hlast⟩
  · obtain ⟨r, hr, hsr, hroute, hlastr⟩ := hactive r' hr' hs last hlast
    rw [← hroute]
    exact h.current r hr hsr last hlastr

/-- The mailbox may grow as long as what is newly taken has only finished messages after it. -/
theorem Inv.withMailbox {s : History} (h : Inv s) {db : Mailbox} (hgrows : Grows s.store.toMailbox db)
    (hcarried : ∀ row ∈ db.mail.rows, db.hasDeliveryTransition row.messageId = true)
    (htaken : ∀ m m', Before s m m' → m.toRoute = m'.toRoute → taken db m.id = true →
      taken s.store.toMailbox m.id = true ∨
        Store.finished s.store.toMailbox m'.id m'.toRoute = true) :
    Inv (s.withMailbox db) := by
  refine ⟨hcarried, fun m hm => hgrows.hasDeliveryTransition (h.sent m hm), h.ids, ?_, ?_, h.current⟩
  · intro m m' hbefore hroute hlive
    rw [live, Bool.and_eq_true, Bool.not_eq_true'] at hlive
    rcases htaken m m' hbefore hroute hlive.1 with ht | hf
    · refine hgrows.finished (h.later m m' hbefore hroute ?_)
      rw [live, ht, hgrows.unfinished hlive.2]
      rfl
    · exact hgrows.finished hf
  · exact fun m hm hf => h.outstanding m hm (hgrows.unfinished hf)

/-! ## The steps -/

theorem Inv.set {s : History} (h : Inv s) {p : Reminder → Bool} {f : Reminder → Reminder}
    (hf : Keeps f) (hlast : ∀ r, (f r).lastMessage = r.lastMessage) :
    Inv (s.withStore { s.store with reminders := s.store.reminders.set p f hf }) := by
  have hkeep : ∀ r : Reminder, (if p r then f r else r).route = r.route ∧
      (if p r then f r else r).lastMessage = r.lastMessage ∧
      ((if p r then f r else r).state = .active → r.state = .active) := fun r => by
    split
    · exact ⟨(hf r).2.1, hlast r, (hf r).2.2⟩
    · exact ⟨rfl, rfl, id⟩
  refine h.withReminders rfl (fun r hr => ?_) fun r' hr' hs last hl => ?_
  · exact ⟨_, (Schedule.mem_set hf).2 ⟨r, hr, rfl⟩, (hkeep r).1, (hkeep r).2.1⟩
  · obtain ⟨r, hr, rfl⟩ := (Schedule.mem_set hf).1 hr'
    exact ⟨r, hr, (hkeep r).2.2 hs, (hkeep r).1.symm, (hkeep r).2.1.symm.trans hl⟩

theorem reminderAdd_ok {s store : Store} {name route body : String} {everyMs untilMs nowMs : Int}
    (h : s.reminderAdd name route body everyMs untilMs nowMs = .ok store) :
    store.toMailbox = s.toMailbox ∧ ∃ row : Reminder, row.lastMessage = none ∧
      store.reminders.rows = s.reminders.rows ++ [row] := by
  unfold Store.reminderAdd at h
  split at h
  · cases h
  split at h
  · cases h
  split at h
  · cases h
  split at h
  · cases h
  split at h
  · cases h
  rename_i nextMs _
  simp only at h
  split at h
  · cases h
  split at h
  · cases h
  cases h
  exact ⟨rfl, ⟨name, route, body, everyMs, untilMs, nextMs, .active, none, ""⟩, rfl, rfl⟩

theorem Inv.add {s : History} (h : Inv s) {store : Store} {name route body : String}
    {everyMs untilMs nowMs : Int}
    (hadd : s.store.reminderAdd name route body everyMs untilMs nowMs = .ok store) :
    Inv (s.withStore store) := by
  obtain ⟨hmailbox, row, hnone, hrows⟩ := reminderAdd_ok hadd
  refine h.withReminders hmailbox (fun r hr => ⟨r, ?_, rfl, rfl⟩) fun r' hr' hs last hlast => ?_
  · rw [hrows]; exact List.mem_append_left _ hr
  · rw [hrows] at hr'
    rcases List.mem_append.1 hr' with hr' | hr'
    · exact ⟨r', hr', hs, rfl, hlast⟩
    · rw [List.mem_singleton.1 hr', hnone] at hlast
      cases hlast

theorem Inv.ack {s : History} (h : Inv s) (ids : List String) (stamp : String) :
    Inv (s.withStore (s.store.ackMessages ids stamp)) := by
  induction ids generalizing s with
  | nil => exact h
  | cons id ids ih =>
    have hrow : ∀ row : MailRow, ∀ row' : MailRow,
        (if row.messageId = id ∧ row.toTimestamp = none
          then { row with toTimestamp := some stamp } else row) = row' →
        row'.messageId = row.messageId ∧ row'.kind = row.kind ∧ row'.replyTo = row.replyTo ∧
          row'.fromRoute = row.fromRoute := by
      rintro row _ rfl
      split <;> exact ⟨rfl, rfl, rfl, rfl⟩
    have hone : Inv (s.withMailbox { s.store.toMailbox with
        mail := Store.stamped s.store.mail id stamp }) := by
      refine h.withMailbox ⟨fun t ht => ht, fun row hr hkind => ?_⟩ (fun row' hr' => ?_)
        fun m m' _ _ ht => .inl ht
      · obtain ⟨-, hk, hto, hfrom⟩ := hrow row _ rfl
        exact ⟨_, List.mem_map_of_mem hr, hk.trans hkind, hto, hfrom⟩
      · obtain ⟨row, hr, heq⟩ := List.mem_map.1 hr'
        rw [(hrow row row' heq).1]
        exact h.carried row hr
    exact ih hone

theorem Inv.deliver {s : History} (h : Inv s) {messageId route : String} {harness : Option String}
    {outcome : DeliveryState} {detail : String} {errorCode : Option String} {atMs : Nat}
    (hlate : takes outcome = true → ∀ m m', Before s m m' → m.id = messageId →
      m.toRoute = m'.toRoute → Store.finished s.store.toMailbox m'.id m'.toRoute = true) :
    Inv (s.withMailbox (s.store.appendDeliveryTransition messageId route harness outcome detail
      errorCode atMs)) := by
  refine h.withMailbox append_grows (fun row hrow => append_grows.hasDeliveryTransition
    (h.carried row hrow)) fun m m' hbefore hroute ht => ?_
  rcases taken_append.1 ht with ht | ⟨hid, hout⟩
  · exact .inl ht
  · exact .inr (hlate hout m m' hbefore hid.symm hroute)

theorem Inv.send {s : History} (h : Inv s) {db : Mailbox} {mailbox : String} {m : Message}
    {detail : String} {nowMs : Nat} (hkeep : ∀ old, s.store.mail.get m.id = some old →
      old.kind = "reply" → m.kind.asStr = "reply" ∧ m.replyTo = old.replyTo)
    (hok : s.store.writeMessage mailbox m detail nowMs = .ok db) : Inv (s.withMailbox db) := by
  obtain ⟨hgrows, htaken, hhas, hkeys⟩ := writeMessage_effect hok hkeep
  refine h.withMailbox hgrows (fun row hrow => ?_) fun m m' _ _ ht => .inl ((htaken _).1 ht)
  rcases hkeys row hrow with heq | ⟨old, hold, heq⟩
  · rw [heq]; exact hhas
  · rw [heq]; exact hgrows.hasDeliveryTransition (h.carried old hold)

/-- A retry submits the last message of an active reminder, so the last claim of its route. -/
theorem Inv.retry {s : History} (h : Inv s) (name : String) (nowMs clockMs : Int) :
    Inv (s.withStore (s.store.reminderRetry name nowMs clockMs).2) := by
  unfold Store.reminderRetry
  cases hget : s.store.reminders.table.get name with
  | none => exact h
  | some r =>
    simp only
    split
    · rename_i hretry
      have hset := h.set (p := fun r => r.name = name) (f := fun r => { r with nextMs := nowMs + r.everyMs })
        (fun _ => ⟨rfl, rfl, id⟩) fun _ => rfl
      split
      · exact hset
      · rename_i message hfind
        have hlast : r.lastMessage = some message.id :=
          Eq.symm (by simpa using List.find?_some hfind)
        simp only [Store.retryable, Bool.and_eq_true, decide_eq_true_eq] at hretry
        obtain ⟨m0, hm0, hid0, hroute0, hend⟩ := h.current r (List.mem_of_find?_eq_some hget)
          hretry.1.1.1 message.id hlast
        refine hset.deliver fun _ m m' hbefore hid hroute => ?_
        have hmem : m ∈ s.claimed := hbefore.subset List.mem_cons_self
        have heq : m = m0 := List.inj_on_of_nodup_map h.ids hmem hm0 (hid.trans hid0.symm)
        subst heq
        exact absurd (hroute.symm.trans hroute0) (hend m' hbefore)
    · exact h

/-! ## The claim -/

/-- **`reminder_claim` (1_reminder.rs:110)**: what a claim that hands out a message has done. -/
theorem reminderClaim_some {s store : Store} {name id iso : String} {nowMs : Int} {atMs : Nat}
    {new : Message} (h : s.reminderClaim name nowMs id iso atMs = .ok (some new, store)) :
    ∃ r, s.reminders.table.get name = some r ∧ s.due r nowMs = true ∧ new.id = id ∧
      new.toRoute = r.route ∧ s.writeMessage "bus" new "reminder" atMs = .ok store.toMailbox ∧
      store.reminders = s.reminders.set (fun r => r.name = name) (Store.claimedRow nowMs id)
        (Store.claimedRow_keeps nowMs id) := by
  unfold Store.reminderClaim at h
  cases hget : s.reminders.table.get name with
  | none => rw [hget] at h; cases h
  | some r =>
    rw [hget] at h
    simp only at h
    split at h
    · rename_i hdue
      cases hwrite : s.writeMessage "bus" ⟨id, "reminder:" ++ name, r.route, iso, none, .request, none,
          r.body, some ("reminder:" ++ name), none, none⟩ "reminder" atMs with
      | error e => rw [hwrite] at h; cases h
      | ok db =>
        rw [hwrite] at h
        cases h
        exact ⟨r, rfl, hdue, rfl, rfl, hwrite, rfl⟩
    · cases h

theorem reminderClaim_none {s store : Store} {name id iso : String} {nowMs : Int} {atMs : Nat}
    (h : s.reminderClaim name nowMs id iso atMs = .ok (none, store)) : store = s := by
  unfold Store.reminderClaim at h
  split at h
  · cases h; rfl
  · split at h
    · obtain ⟨db, -, h⟩ := Machine.bind_ok.1 h
      cases h
    · cases h; rfl

/-- What the guard has seen of a due reminder and of the others of its route. -/
theorem due_spec {s : Store} {r : Reminder} {nowMs : Int} (h : s.due r nowMs = true) :
    r.state = .active ∧
      (∀ last, r.lastMessage = some last → Store.finished s.toMailbox last r.route = true) ∧
      ∀ other ∈ s.reminders.rows, s.blocks r other = false := by
  simp only [Store.due, Bool.and_eq_true, decide_eq_true_eq, Bool.not_eq_true', List.any_eq_false,
    Bool.not_eq_true] at h
  obtain ⟨⟨⟨⟨hs, -⟩, -⟩, hlast⟩, hblocks⟩ := h
  refine ⟨hs, fun last hl => ?_, hblocks⟩
  rw [hl] at hlast
  exact hlast

theorem eq_of_get {s : Store} {r o : Reminder} {name : String}
    (hget : s.reminders.table.get name = some r) (ho : o ∈ s.reminders.rows) (hname : o.name = name) :
    o = r := by
  have hget' := s.reminders.table.mem_rows_iff.1 ho
  rw [hname, hget] at hget'
  exact (Option.some.inj hget').symm

/-- The reminder of an unfinished message of the route is another one, and the guard lets it pass only
    if it has not been taken. -/
theorem Inv.none_live {s : History} (h : Inv s) {r : Reminder} {name : String} {nowMs : Int}
    (hget : s.store.reminders.table.get name = some r) (hdue : s.store.due r nowMs = true)
    (hsees : SeesLive s.store r) {m : Message} (hm : m ∈ s.claimed) (hroute : m.toRoute = r.route) :
    live s.store.toMailbox m = false := by
  by_contra hlive
  rw [Bool.not_eq_false, live, Bool.and_eq_true, Bool.not_eq_true'] at hlive
  obtain ⟨htaken, hopen⟩ := hlive
  obtain ⟨-, hlast, hblocks⟩ := due_spec hdue
  obtain ⟨o, ho, horoute, holast⟩ := h.outstanding m hm hopen
  rw [hroute] at horoute hopen
  by_cases hname : o.name = name
  · have heq := eq_of_get hget ho hname
    subst heq
    rw [hlast m.id holast] at hopen
    cases hopen
  · have hne : o.name ≠ r.name := fun h => hname (h.trans (Table.key_of_get hget))
    have hseen := hsees o ho horoute hne m.id holast htaken (horoute ▸ hopen)
    have hblock := hblocks o ho
    simp only [Store.blocks, horoute, holast, hopen, hseen] at hblock
    exact hne (by simpa using hblock)

theorem before_concat {s : History} {store : Store} {new m m' : Message}
    (h : Before ⟨store, s.claimed ++ [new]⟩ m m') : Before s m m' ∨ (m ∈ s.claimed ∧ m' = new) := by
  obtain ⟨l1, l2, heq, h1, h2⟩ := List.sublist_append_iff.1 h
  rcases List.sublist_singleton.1 h2 with rfl | rfl
  · rw [List.append_nil] at heq
    rw [← heq] at h1
    exact .inl h1
  · obtain ⟨rfl, hnew⟩ := List.append_inj' (show [m] ++ [m'] = l1 ++ [new] from heq) rfl
    exact .inr ⟨List.singleton_sublist.1 h1, List.singleton_inj.1 hnew⟩

theorem Inv.claim {s : History} (h : Inv s) {name id iso : String} {nowMs : Int} {atMs : Nat}
    (hfresh : s.store.hasDeliveryTransition id = false)
    (hsees : ∀ r, s.store.reminders.table.get name = some r → SeesLive s.store r)
    {store : Store} {new : Message}
    (hclaim : s.store.reminderClaim name nowMs id iso atMs = .ok (some new, store)) :
    Inv ⟨store, s.claimed ++ [new]⟩ := by
  obtain ⟨r, hget, hdue, rfl, hroute, hwrite, hset⟩ := reminderClaim_some hclaim
  have hr : r ∈ s.store.reminders.rows := List.mem_of_find?_eq_some hget
  have hunsent : ∀ x, s.store.hasDeliveryTransition x = true → x ≠ new.id := by
    rintro x hx rfl
    rw [hfresh] at hx
    cases hx
  have habsent : s.store.mail.get new.id = none := by
    rw [← Option.not_isSome_iff_eq_none, Table.get_isSome]
    intro hmem
    obtain ⟨row, hrow, hid⟩ := List.mem_map.1 hmem
    exact hunsent _ (h.carried row hrow) hid
  obtain ⟨hgrows, htaken, hhas, hkeys⟩ := writeMessage_effect hwrite fun old hold => by
    rw [habsent] at hold; cases hold
  obtain ⟨hactive, hlast, -⟩ := due_spec hdue
  have hrows : ∀ o, o ∈ store.reminders.rows ↔
      (∃ o' ∈ s.store.reminders.rows, o'.name ≠ name ∧ o' = o) ∨ o = Store.claimedRow nowMs new.id r := by
    intro o
    rw [hset, Schedule.mem_set]
    constructor
    · rintro ⟨o', ho', rfl⟩
      by_cases hname : o'.name = name
      · rw [if_pos (by simpa using hname), eq_of_get hget ho' hname]
        exact .inr rfl
      · rw [if_neg (by simpa using hname)]
        exact .inl ⟨o', ho', hname, rfl⟩
    · rintro (⟨o, ho, hname, rfl⟩ | rfl)
      · exact ⟨o, ho, if_neg (by simpa using hname)⟩
      · exact ⟨r, hr, if_pos (by simpa using Table.key_of_get hget)⟩
  have hnew : ∀ m ∈ s.claimed, m.id ≠ new.id := fun m hm => hunsent _ (h.sent m hm)
  constructor
  case carried =>
    intro row hrow
    rcases hkeys row hrow with heq | ⟨old, hold, heq⟩
    · rw [heq]; exact hhas
    · rw [heq]; exact hgrows.hasDeliveryTransition (h.carried old hold)
  case sent =>
    intro m hm
    rcases List.mem_append.1 hm with hm | hm
    · exact hgrows.hasDeliveryTransition (h.sent m hm)
    · rw [List.mem_singleton.1 hm]; exact hhas
  case ids =>
    simp only
    rw [List.map_append, List.map_singleton, List.nodup_append]
    refine ⟨h.ids, List.nodup_singleton _, fun x hx y hy => ?_⟩
    obtain ⟨m, hm, rfl⟩ := List.mem_map.1 hx
    rw [List.mem_singleton.1 hy]
    exact hnew m hm
  case later =>
    intro m m' hbefore hsame hlive
    rw [live, Bool.and_eq_true, Bool.not_eq_true', htaken] at hlive
    have hlive' : live s.store.toMailbox m = true := by
      rw [live, hlive.1, hgrows.unfinished hlive.2]; rfl
    rcases before_concat hbefore with hbefore | ⟨hm, rfl⟩
    · exact hgrows.finished (h.later m m' hbefore hsame hlive')
    · rw [h.none_live hget hdue (hsees r hget) hm (hsame.trans hroute)] at hlive'
      cases hlive'
  case outstanding =>
    intro m hm hopen
    rcases List.mem_append.1 hm with hm | hm
    · obtain ⟨o, ho, horoute, holast⟩ := h.outstanding m hm (hgrows.unfinished hopen)
      refine ⟨o, (hrows o).2 (.inl ⟨o, ho, ?_, rfl⟩), horoute, holast⟩
      rintro hname
      have heq := eq_of_get hget ho hname
      subst heq
      have hfin := hgrows.finished (hlast m.id holast)
      rw [horoute, hopen] at hfin
      cases hfin
    · rw [List.mem_singleton.1 hm]
      exact ⟨_, (hrows _).2 (.inr rfl), hroute.symm, rfl⟩
  case current =>
    intro o ho hs last hl
    rcases (hrows o).1 ho with ⟨o, ho', hname, rfl⟩ | rfl
    · obtain ⟨m, hm, hid, hmroute, hend⟩ := h.current o ho' hs last hl
      refine ⟨m, List.mem_append_left _ hm, hid, hmroute, fun m' hbefore => ?_⟩
      rcases before_concat hbefore with hbefore | ⟨-, rfl⟩
      · exact hend m' hbefore
      · intro hsame
        have heq := s.store.reminders.oneActive o ho' r hr hs hactive (hsame.symm.trans hroute)
        exact hname (heq ▸ Table.key_of_get hget)
    · cases hl
      refine ⟨new, List.mem_append_right _ (List.mem_singleton.2 rfl), rfl, hroute, fun m' hbefore => ?_⟩
      rcases before_concat hbefore with hbefore | ⟨hm, -⟩
      · exact absurd rfl (hnew new (hbefore.subset List.mem_cons_self))
      · exact absurd rfl (hnew new hm)

/-! ## Runs -/

theorem Inv.step {s : History} (h : Inv s) {a : Action} (hok : Ok s a) : Inv (s.step a) := by
  cases a with
  | add name route body everyMs untilMs nowMs =>
    unfold History.step
    simp only
    split
    · exact h.add ‹_›
    · exact h
  | cancel name => exact h.set _ fun _ => rfl
  | expire nowMs => exact h.set _ fun _ => rfl
  | detail name detail => exact h.set _ fun _ => rfl
  | claim name nowMs id iso atMs =>
    unfold History.step
    simp only
    split
    · exact h.claim hok.1 hok.2 ‹_›
    · rename_i hclaim
      rw [reminderClaim_none hclaim]
      exact h
    · exact h
  | retry name nowMs clockMs => exact h.retry name nowMs clockMs
  | deliver messageId route harness outcome detail errorCode atMs => exact h.deliver hok
  | send mailbox message detail nowMs =>
    unfold History.step
    simp only
    split
    · exact h.send hok ‹_›
    · exact h
  | ack ids stamp => exact h.ack ids stamp
  | register routes =>
    exact h.withReminders rfl (fun r hr => ⟨r, hr, rfl, rfl⟩) fun r hr hs last hl => ⟨r, hr, hs, rfl, hl⟩

/-- Reminder `tick` is claimed and its message accepted. -/
def tickAccepted : List Action :=
  [.add "tick" "lane" "work" 10 1000 0, .claim "tick" 10 "m1" "t" 10,
    .deliver "m1" "lane" none .acceptedByHarness "door" none 11]

end BoopStore
