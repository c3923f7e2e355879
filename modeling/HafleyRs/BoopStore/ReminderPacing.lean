import HafleyRs.BoopStore.ReminderRuns

/-!
# Claims and retries of a reminder over time (`crates/boop-store/src/1_reminder.rs`:110 to 189)

A `Ledger` is a history with what its claims, cancels and retries did. `Paced` is what holds of it after any actions
(`reminders_paced`): the clock of an action is any number, also one before the last action's.

Three facts carry the induction. `next_ms` never falls and is `every_ms` past each claim (`due`), a cancelled
reminder is never active again (`stopped`), and a retry stands in the outcome log as a submission right behind the
refusal it follows (`submitted`, `refused`), so that no second retry finds that refusal the latest word.
-/

namespace BoopStore
open Mailbox

/-! ## The ledger -/

inductive Deed where
  | claimed (name : String) (atMs : Int)
  | cancelled (name : String)
  | retried (messageId : String) (sequence : Nat)
deriving DecidableEq, Repr

structure Ledger where
  history : History
  log     : List Deed

/-- What an action does, in the state it finds: a retry is recorded with the number of its transition. -/
def History.deeds (s : History) : Action → List Deed
  | .claim name nowMs id iso atMs =>
    match s.store.reminderClaim name nowMs id iso atMs with
    | .ok (some _, _) => [.claimed name nowMs]
    | _ => []
  | .cancel name => if (s.store.reminderCancel name).1 then [.cancelled name] else []
  | .retry name nowMs clockMs =>
    match (s.store.reminderRetry name nowMs clockMs).1 with
    | some m => [.retried m.id (s.store.nextSequence m.id)]
    | none => []
  | _ => []

def Ledger.step (l : Ledger) (a : Action) : Ledger := ⟨l.history.step a, l.log ++ l.history.deeds a⟩

def claims (name : String) (log : List Deed) : List Int :=
  log.filterMap fun
    | .claimed name' atMs => if name' = name then some atMs else none
    | _ => none

def retries (log : List Deed) : List (String × Nat) :=
  log.filterMap fun
    | .retried messageId sequence => some (messageId, sequence)
    | _ => none

/-- A retry follows a refusal of its own and no acceptance; claims of a reminder keep their distance, and none is made
    at its end or after a cancel. -/
structure Paced (log : List Deed) (store : Store) : Prop where
  once      : (retries log).Nodup
  refused   : ∀ r ∈ retries log, ∃ t ∈ store.transitions.rows,
    t.messageId = r.1 ∧ t.sequence + 1 = r.2 ∧ some t.outcome ∈ Store.refusals
  submitted : ∀ r ∈ retries log, ∃ t ∈ store.transitions.rows, t.key = r ∧ t.outcome = .submittedToHarness
  unheard   : ∀ r ∈ retries log, ∀ t ∈ store.transitions.rows, t.messageId = r.1 →
    t.outcome = .acceptedByHarness ∨ t.outcome = .turnEnded → r.2 < t.sequence
  spaced    : ∀ r ∈ store.reminders.rows, (claims r.name log).Pairwise fun a b => a + r.everyMs ≤ b
  ended     : ∀ r ∈ store.reminders.rows, ∀ t ∈ claims r.name log, t < r.untilMs
  known     : ∀ name atMs, Deed.claimed name atMs ∈ log → name ∈ store.reminders.table.keys
  cancelled : log.Pairwise fun e e' => ∀ name atMs, e = .cancelled name → e' ≠ .claimed name atMs

theorem mem_claims {name : String} {log : List Deed} {t : Int} : t ∈ claims name log ↔ Deed.claimed name t ∈ log := by
  rw [claims, List.mem_filterMap]
  constructor
  · rintro ⟨e, he, heq⟩
    cases e with
    | claimed name' atMs =>
      simp only at heq
      by_cases hname : name' = name
      · rw [if_pos hname, Option.some.injEq] at heq
        rwa [← hname, ← heq]
      · rw [if_neg hname] at heq
        cases heq
    | cancelled name' => cases heq
    | retried id n => cases heq
  · exact fun h => ⟨_, h, if_pos rfl⟩

/-! ## What a step leaves -/

/-- No reminder goes away or wakes up again, and none is due earlier; a new one is of a new name. -/
structure Forward (s s' : Schedule) : Prop where
  rows : ∀ r' ∈ s'.rows,
    (∃ r ∈ s.rows, r'.name = r.name ∧ r'.everyMs = r.everyMs ∧ r'.untilMs = r.untilMs ∧ r.nextMs ≤ r'.nextMs ∧
      (r'.state = .active → r.state = .active)) ∨ r'.name ∉ s.table.keys ∧ 0 < r'.everyMs
  keys : ∀ name ∈ s.table.keys, name ∈ s'.table.keys

/-- No transition goes away, and a new one has the highest number of its message. -/
structure Later (db db' : Mailbox) : Prop where
  kept  : ∀ t ∈ db.transitions.rows, t ∈ db'.transitions.rows
  after : ∀ t ∈ db'.transitions.rows, t ∈ db.transitions.rows ∨
    ∀ u ∈ db.transitions.rows, u.messageId = t.messageId → u.sequence < t.sequence

theorem Forward.refl (s : Schedule) : Forward s s :=
  ⟨fun r hr => .inl ⟨r, hr, rfl, rfl, rfl, le_rfl, id⟩, fun _ h => h⟩

theorem Forward.set {s : Schedule} {p : Reminder → Bool} {f : Reminder → Reminder} (hf : Keeps f)
    (h : ∀ r ∈ s.rows, p r = true → (f r).everyMs = r.everyMs ∧ (f r).untilMs = r.untilMs ∧ r.nextMs ≤ (f r).nextMs) :
    Forward s (s.set p f hf) := by
  refine ⟨fun r' hr' => ?_, fun name hname => ?_⟩
  · obtain ⟨r, hr, rfl⟩ := (Schedule.mem_set hf).1 hr'
    refine .inl ⟨r, hr, ?_⟩
    by_cases hp : p r = true
    · obtain ⟨hevery, huntil, hnext⟩ := h r hr hp
      rw [if_pos hp]
      exact ⟨(hf r).1, hevery, huntil, hnext, (hf r).2.2⟩
    · rw [if_neg hp]
      exact ⟨rfl, rfl, rfl, le_rfl, id⟩
  · rw [Schedule.set, Table.keys_update]
    exact hname

theorem Later.refl (db : Mailbox) : Later db db := ⟨fun _ h => h, fun _ h => .inl h⟩

theorem Later.of_eq {db db' : Mailbox} (h : db'.transitions = db.transitions) : Later db db' :=
  ⟨fun _ ht => h ▸ ht, fun _ ht => .inl (h ▸ ht)⟩

theorem Later.append (db : Mailbox) (messageId route : String) (harness : Option String) (outcome : DeliveryState)
    (detail : String) (errorCode : Option String) (atMs : Nat) :
    Later db (db.appendDeliveryTransition messageId route harness outcome detail errorCode atMs) := by
  refine ⟨fun t ht => mem_append_rows.2 (.inl ht), fun t ht => ?_⟩
  rcases mem_append_rows.1 ht with ht | rfl
  · exact .inl ht
  · exact .inr fun u hu (hid : u.messageId = messageId) => hid ▸ lt_nextSequence hu

theorem Later.write {db db' : Mailbox} {mailbox : String} {m : Message} {detail : String} {nowMs : Nat}
    (h : db.writeMessage mailbox m detail nowMs = .ok db') : Later db db' := by
  obtain ⟨db1, hok, -, htransitions⟩ := db.writeMessage_ok mailbox m detail nowMs
  rw [hok] at h
  cases h
  by_cases hhas : db.hasDeliveryTransition m.id = true
  · rw [if_pos hhas] at htransitions
    exact .of_eq htransitions
  · rw [if_neg hhas] at htransitions
    have happend := Later.append db m.id m.toRoute none .appended detail none nowMs
    exact ⟨fun t ht => htransitions ▸ happend.kept t ht, fun t ht => happend.after t (htransitions ▸ ht)⟩

/-! ## The invariant -/

structure Pacing (log : List Deed) (store : Store) : Prop extends Paced log store where
  positive : ∀ r ∈ store.reminders.rows, 0 < r.everyMs
  due      : ∀ r ∈ store.reminders.rows, ∀ t ∈ claims r.name log, t + r.everyMs ≤ r.nextMs
  stopped  : ∀ name, Deed.cancelled name ∈ log → name ∈ store.reminders.table.keys ∧
    ∀ r ∈ store.reminders.rows, r.name = name → r.state ≠ .active

theorem start_pacing (routes : List String) : Pacing [] (start routes).store := by
  refine ⟨⟨?once, ?refused, ?submitted, ?unheard, ?spaced, ?ended, ?known, ?cancelled⟩, ?positive, ?due, ?stopped⟩
  case once => exact List.nodup_nil
  case cancelled => exact List.Pairwise.nil
  case known => exact fun _ _ h => absurd h List.not_mem_nil
  all_goals exact fun _ h => absurd h List.not_mem_nil

theorem Paced.claims_eq_nil {log : List Deed} {s : Store} (h : Paced log s) {name : String}
    (hname : name ∉ s.reminders.table.keys) : claims name log = [] := by
  rw [List.eq_nil_iff_forall_not_mem]
  exact fun t ht => hname (h.known name t (mem_claims.1 ht))

/-- A step that is not recorded. -/
theorem Pacing.store {log : List Deed} {s s' : Store} (h : Pacing log s) (hf : Forward s.reminders s'.reminders)
    (hl : Later s.toMailbox s'.toMailbox) : Pacing log s' := by
  refine ⟨⟨?once, ?refused, ?submitted, ?unheard, ?spaced, ?ended, ?known, ?cancelled⟩, ?positive, ?due, ?stopped⟩
  case once => exact h.once
  case cancelled => exact h.cancelled
  case refused =>
    intro r hr
    obtain ⟨t, ht, hspec⟩ := h.refused r hr
    exact ⟨t, hl.kept t ht, hspec⟩
  case submitted =>
    intro r hr
    obtain ⟨t, ht, hspec⟩ := h.submitted r hr
    exact ⟨t, hl.kept t ht, hspec⟩
  case unheard =>
    intro r hr t ht hid hout
    rcases hl.after t ht with hold | hnew
    · exact h.unheard r hr t hold hid hout
    · obtain ⟨u, hu, hkey, -⟩ := h.submitted r hr
      have hlt := hnew u hu ((congrArg Prod.fst hkey).trans hid.symm)
      rwa [show u.sequence = r.2 from congrArg Prod.snd hkey] at hlt
  case spaced =>
    intro r' hr'
    rcases hf.rows r' hr' with ⟨r, hr, hname, hevery, -⟩ | ⟨hname, -⟩
    · rw [hname, hevery]
      exact h.spaced r hr
    · rw [h.claims_eq_nil hname]
      exact List.Pairwise.nil
  case ended =>
    intro r' hr' t ht
    rcases hf.rows r' hr' with ⟨r, hr, hname, -, huntil, -⟩ | ⟨hname, -⟩
    · rw [hname] at ht
      rw [huntil]
      exact h.ended r hr t ht
    · rw [h.claims_eq_nil hname] at ht
      cases ht
  case known => exact fun name atMs hmem => hf.keys name (h.known name atMs hmem)
  case positive =>
    intro r' hr'
    rcases hf.rows r' hr' with ⟨r, hr, -, hevery, -⟩ | ⟨-, hpos⟩
    · rw [hevery]
      exact h.positive r hr
    · exact hpos
  case due =>
    intro r' hr' t ht
    rcases hf.rows r' hr' with ⟨r, hr, hname, hevery, -, hnext, -⟩ | ⟨hname, -⟩
    · rw [hname] at ht
      rw [hevery]
      exact (h.due r hr t ht).trans hnext
    · rw [h.claims_eq_nil hname] at ht
      cases ht
  case stopped =>
    intro name hmem
    obtain ⟨hkey, hstate⟩ := h.stopped name hmem
    refine ⟨hf.keys name hkey, fun r' hr' hname hactive => ?_⟩
    rcases hf.rows r' hr' with ⟨r, hr, hname', -, -, -, hwas⟩ | ⟨hnew, -⟩
    · exact hstate r hr (hname'.symm.trans hname) (hwas hactive)
    · exact hnew (hname ▸ hkey)

/-! ## What is recorded -/

theorem claims_concat (name : String) (log : List Deed) (e : Deed) :
    claims name (log ++ [e]) = claims name log ++ claims name [e] := List.filterMap_append

theorem claims_claimed (name name' : String) (t : Int) :
    claims name [.claimed name' t] = if name' = name then [t] else [] := by
  by_cases h : name' = name <;> simp [claims, h]

theorem retries_concat (log : List Deed) (e : Deed) : retries (log ++ [e]) = retries log ++ retries [e] :=
  List.filterMap_append

theorem pairwise_concat {log : List Deed} {e : Deed} (h : log.Pairwise fun e e' => ∀ name atMs,
      e = .cancelled name → e' ≠ .claimed name atMs)
    (he : ∀ name atMs, Deed.cancelled name ∈ log → e ≠ .claimed name atMs) :
    (log ++ [e]).Pairwise fun e e' => ∀ name atMs, e = .cancelled name → e' ≠ .claimed name atMs := by
  rw [List.pairwise_append]
  refine ⟨h, List.pairwise_singleton _ _, fun e' he' e'' he'' name atMs heq => ?_⟩
  rw [List.mem_singleton.1 he'']
  exact he name atMs (heq ▸ he')

theorem Pacing.claimed {log : List Deed} {s : Store} (h : Pacing log s) {r : Reminder} (nowMs : Int)
    (hr : r ∈ s.reminders.rows) (hactive : r.state = .active) (hend : nowMs < r.untilMs)
    (hnext : r.nextMs = nowMs + r.everyMs) (hspaced : ∀ t ∈ claims r.name log, t + r.everyMs ≤ nowMs) :
    Pacing (log ++ [.claimed r.name nowMs]) s := by
  have hkey : r.name ∈ s.reminders.table.keys := List.mem_map_of_mem hr
  have hsame : ∀ {r'}, r' ∈ s.reminders.rows → r'.name = r.name → r' = r := fun hr' hname =>
    List.inj_on_of_nodup_map s.reminders.table.unique hr' hr hname
  have hother : ∀ {name}, name ≠ r.name → claims name (log ++ [.claimed r.name nowMs]) = claims name log := by
    intro name hname
    rw [claims_concat, claims_claimed, if_neg (Ne.symm hname), List.append_nil]
  have hown : claims r.name (log ++ [.claimed r.name nowMs]) = claims r.name log ++ [nowMs] := by
    rw [claims_concat, claims_claimed, if_pos rfl]
  have hretries : retries (log ++ [.claimed r.name nowMs]) = retries log :=
    (retries_concat _ _).trans (List.append_nil _)
  refine ⟨⟨?once, ?refused, ?submitted, ?unheard, ?spaced, ?ended, ?known, ?cancelled⟩, ?positive, ?due, ?stopped⟩
  case once => exact hretries ▸ h.once
  case refused => exact hretries ▸ h.refused
  case submitted => exact hretries ▸ h.submitted
  case unheard => exact hretries ▸ h.unheard
  case positive => exact h.positive
  case spaced =>
    intro r' hr'
    by_cases hname : r'.name = r.name
    · rw [hsame hr' hname, hown, List.pairwise_append]
      refine ⟨h.spaced r hr, List.pairwise_singleton _ _, fun t ht u hu => ?_⟩
      rw [List.mem_singleton.1 hu]
      exact hspaced t ht
    · rw [hother hname]
      exact h.spaced r' hr'
  case ended =>
    intro r' hr' t ht
    by_cases hname : r'.name = r.name
    · rw [hsame hr' hname] at ht ⊢
      rw [hown, List.mem_append, List.mem_singleton] at ht
      rcases ht with ht | rfl
      · exact h.ended r hr t ht
      · exact hend
    · rw [hother hname] at ht
      exact h.ended r' hr' t ht
  case due =>
    intro r' hr' t ht
    by_cases hname : r'.name = r.name
    · rw [hsame hr' hname] at ht ⊢
      rw [hown, List.mem_append, List.mem_singleton] at ht
      rcases ht with ht | rfl
      · exact h.due r hr t ht
      · exact hnext.ge
    · rw [hother hname] at ht
      exact h.due r' hr' t ht
  case known =>
    intro name atMs hmem
    rcases List.mem_append.1 hmem with hmem | hmem
    · exact h.known name atMs hmem
    · cases List.mem_singleton.1 hmem
      exact hkey
  case cancelled =>
    refine pairwise_concat h.cancelled fun name atMs hmem heq => ?_
    cases heq
    exact (h.stopped r.name hmem).2 r hr rfl hactive
  case stopped =>
    intro name hmem
    rcases List.mem_append.1 hmem with hmem | hmem
    · exact h.stopped name hmem
    · cases List.mem_singleton.1 hmem

theorem Pacing.halted {log : List Deed} {s : Store} (h : Pacing log s) {name : String}
    (hkey : name ∈ s.reminders.table.keys) (hstate : ∀ r ∈ s.reminders.rows, r.name = name → r.state ≠ .active) :
    Pacing (log ++ [.cancelled name]) s := by
  have hclaims : ∀ name', claims name' (log ++ [.cancelled name]) = claims name' log := fun name' =>
    (claims_concat _ _ _).trans (List.append_nil _)
  have hretries : retries (log ++ [.cancelled name]) = retries log := (retries_concat _ _).trans (List.append_nil _)
  refine ⟨⟨?once, ?refused, ?submitted, ?unheard, ?spaced, ?ended, ?known, ?cancelled⟩, ?positive, ?due, ?stopped⟩
  case once => exact hretries ▸ h.once
  case refused => exact hretries ▸ h.refused
  case submitted => exact hretries ▸ h.submitted
  case unheard => exact hretries ▸ h.unheard
  case spaced => exact fun r hr => (hclaims r.name).symm ▸ h.spaced r hr
  case ended => exact fun r hr => (hclaims r.name).symm ▸ h.ended r hr
  case positive => exact h.positive
  case due => exact fun r hr => (hclaims r.name).symm ▸ h.due r hr
  case known =>
    intro name' atMs hmem
    rcases List.mem_append.1 hmem with hmem | hmem
    · exact h.known name' atMs hmem
    · cases List.mem_singleton.1 hmem
  case cancelled => exact pairwise_concat h.cancelled fun _ _ _ heq => nomatch heq
  case stopped =>
    intro name' hmem
    rcases List.mem_append.1 hmem with hmem | hmem
    · exact h.stopped name' hmem
    · cases List.mem_singleton.1 hmem
      exact ⟨hkey, hstate⟩

theorem Pacing.retried {log : List Deed} {s : Store} (h : Pacing log s) {r : String × Nat} (hnew : r ∉ retries log)
    (hrefused : ∃ t ∈ s.transitions.rows, t.messageId = r.1 ∧ t.sequence + 1 = r.2 ∧ some t.outcome ∈ Store.refusals)
    (hsubmitted : ∃ t ∈ s.transitions.rows, t.key = r ∧ t.outcome = .submittedToHarness)
    (hunheard : ∀ t ∈ s.transitions.rows, t.messageId = r.1 →
      t.outcome = .acceptedByHarness ∨ t.outcome = .turnEnded → r.2 < t.sequence) :
    Pacing (log ++ [.retried r.1 r.2]) s := by
  have hclaims : ∀ name, claims name (log ++ [.retried r.1 r.2]) = claims name log := fun name =>
    (claims_concat _ _ _).trans (List.append_nil _)
  have hretries : retries (log ++ [.retried r.1 r.2]) = retries log ++ [r] := retries_concat _ _
  have hmem : ∀ {P : String × Nat → Prop}, (∀ r' ∈ retries log, P r') → P r →
      ∀ r' ∈ retries (log ++ [.retried r.1 r.2]), P r' := by
    intro P hold hr r' hr'
    rw [hretries] at hr'
    rcases List.mem_append.1 hr' with hr' | hr'
    · exact hold r' hr'
    · rwa [List.mem_singleton.1 hr']
  refine ⟨⟨?once, ?refused, ?submitted, ?unheard, ?spaced, ?ended, ?known, ?cancelled⟩, ?positive, ?due, ?stopped⟩
  case once =>
    rw [hretries, List.nodup_append]
    refine ⟨h.once, List.nodup_singleton r, fun r' hr' r'' hr'' => ?_⟩
    rw [List.mem_singleton.1 hr'']
    rintro rfl
    exact hnew hr'
  case refused => exact hmem h.refused hrefused
  case submitted => exact hmem h.submitted hsubmitted
  case unheard => exact hmem h.unheard hunheard
  case spaced => exact fun r hr => (hclaims r.name).symm ▸ h.spaced r hr
  case ended => exact fun r hr => (hclaims r.name).symm ▸ h.ended r hr
  case positive => exact h.positive
  case due => exact fun r hr => (hclaims r.name).symm ▸ h.due r hr
  case known =>
    intro name atMs hin
    rcases List.mem_append.1 hin with hin | hin
    · exact h.known name atMs hin
    · cases List.mem_singleton.1 hin
  case cancelled => exact pairwise_concat h.cancelled fun _ _ _ heq => nomatch heq
  case stopped =>
    intro name hin
    rcases List.mem_append.1 hin with hin | hin
    · exact h.stopped name hin
    · cases List.mem_singleton.1 hin

/-! ## The actions -/

theorem reminderAdd_forward {s store : Store} {name route body : String} {everyMs untilMs nowMs : Int}
    (h : s.reminderAdd name route body everyMs untilMs nowMs = .ok store) :
    store.toMailbox = s.toMailbox ∧ Forward s.reminders store.reminders := by
  unfold Store.reminderAdd at h
  split at h
  · cases h
  split at h
  · cases h
  rename_i hpositive
  split at h
  · cases h
  split at h
  · cases h
  split at h
  · cases h
  simp only at h
  split at h
  · cases h
  rename_i hname
  split at h
  · cases h
  cases h
  refine ⟨rfl, fun r' hr' => ?_, fun other hother => ?_⟩
  · rcases List.mem_append.1 hr' with hr' | hr'
    · exact .inl ⟨r', hr', rfl, rfl, rfl, le_rfl, id⟩
    · rw [List.mem_singleton.1 hr']
      exact .inr ⟨hname, (not_not.1 hpositive).1⟩
  · rw [Table.keys_push]
    exact List.mem_append_left _ hother

theorem cancelled_keeps : Keeps fun r => { r with state := .cancelled, detail := "cancelled by caller" } :=
  fun _ => ⟨rfl, rfl, fun h => by cases h⟩

theorem Store.cancel_forward (s : Store) (name : String) : Forward s.reminders (s.reminderCancel name).2.reminders :=
  .set cancelled_keeps fun _ _ _ => ⟨rfl, rfl, le_rfl⟩

theorem Store.expire_forward (s : Store) (nowMs : Int) : Forward s.reminders (s.reminderExpire nowMs).reminders := by
  have hkeeps : Keeps fun r => { r with state := .expired, detail := "expiry reached" } :=
    fun _ => ⟨rfl, rfl, fun h => by cases h⟩
  exact .set hkeeps fun _ _ _ => ⟨rfl, rfl, le_rfl⟩

theorem Store.detail_forward (s : Store) (name detail : String) :
    Forward s.reminders (s.reminderDetail name detail).reminders := by
  have hkeeps : Keeps fun r => { r with detail := detail } := fun _ => ⟨rfl, rfl, id⟩
  exact .set hkeeps fun _ _ _ => ⟨rfl, rfl, le_rfl⟩

theorem ackMessages_eq (s : Store) (ids : List String) (stamp : String) :
    (s.ackMessages ids stamp).reminders = s.reminders ∧ (s.ackMessages ids stamp).transitions = s.transitions := by
  induction ids generalizing s with
  | nil => exact ⟨rfl, rfl⟩
  | cons id ids ih => exact ih _

/-- The latest word on a message carries the number before the next. -/
theorem latest_sequence {db : Mailbox} {id : String} {outcome : DeliveryState}
    (h : Store.latestOutcome db id = some outcome) :
    ∃ t ∈ db.transitions.rows, t.messageId = id ∧ t.sequence + 1 = db.nextSequence id ∧ t.outcome = outcome := by
  obtain ⟨t, ht, hout⟩ := Option.map_eq_some_iff.1 h
  obtain ⟨hmem, hid⟩ := mem_transitionsOf.1 (List.argmax_mem ht)
  refine ⟨t, hmem, hid, ?_, hout⟩
  have hle : ((db.transitionsOf id).map Transition.sequence).foldr max 0 ≤ t.sequence := by
    refine List.max_le_of_forall_le _ _ fun n hn => ?_
    obtain ⟨u, hu, rfl⟩ := List.mem_map.1 hn
    exact List.le_of_mem_argmax hu ht
  have hlt : t.sequence < db.nextSequence id := hid ▸ lt_nextSequence hmem
  rw [nextSequence] at hlt ⊢
  omega

/-- **`reminder_retry` (1_reminder.rs:156)**: what a retry that hands out a message has found and done. -/
theorem reminderRetry_some {s : Store} {name : String} {nowMs clockMs : Int} {m : Message}
    (h : (s.reminderRetry name nowMs clockMs).1 = some m) :
    ∃ r, s.reminders.table.get name = some r ∧ s.retryable r nowMs = true ∧ r.lastMessage = some m.id ∧
      (s.reminderRetry name nowMs clockMs).2.toMailbox = s.appendDeliveryTransition m.id m.toRoute none
        .submittedToHarness "reminder retry claimed; outcome uncertain until receipt" none nowMs.toNat := by
  unfold Store.reminderRetry at h ⊢
  cases hget : s.reminders.table.get name with
  | none => rw [hget] at h; cases h
  | some r =>
    rw [hget] at h
    simp only at h ⊢
    by_cases hretry : s.retryable r nowMs = true
    · rw [if_pos hretry] at h ⊢
      split at h
      · cases h
      · rename_i message hfind
        cases h
        exact ⟨r, rfl, hretry, Eq.symm (by simpa using List.find?_some hfind), rfl⟩
    · rw [if_neg hretry] at h
      cases h

/-- A retry moves its own reminder's next time forward, and adds at most one transition. -/
theorem reminderRetry_forward {s : Store} (hpositive : ∀ r ∈ s.reminders.rows, 0 < r.everyMs) (name : String)
    (nowMs clockMs : Int) : Forward s.reminders (s.reminderRetry name nowMs clockMs).2.reminders ∧
      Later s.toMailbox (s.reminderRetry name nowMs clockMs).2.toMailbox := by
  unfold Store.reminderRetry
  cases hget : s.reminders.table.get name with
  | none => exact ⟨.refl _, .refl _⟩
  | some r =>
    simp only
    by_cases hretry : s.retryable r nowMs = true
    · rw [if_pos hretry]
      simp only [Store.retryable, Bool.and_eq_true, decide_eq_true_eq] at hretry
      have hforward : Forward s.reminders (s.reminders.set (fun r => r.name = name)
          (fun r => { r with nextMs := nowMs + r.everyMs }) fun _ => ⟨rfl, rfl, id⟩) := by
        refine .set _ fun r' hr' hname => ⟨rfl, rfl, ?_⟩
        rw [eq_of_get hget hr' (by simpa using hname)]
        have hpos := hpositive r (List.mem_of_find?_eq_some hget)
        have hnext := hretry.1.2
        simp only
        omega
      split
      · exact ⟨hforward, .refl _⟩
      · exact ⟨hforward, Later.append ..⟩
    · rw [if_neg hretry]
      exact ⟨.refl _, .refl _⟩

/-! ## The steps -/

@[simp] theorem History.store_withStore (s : History) (store : Store) : (s.withStore store).store = store := rfl

theorem Pacing.claim {log : List Deed} {s store : Store} (h : Pacing log s) {name id iso : String} {nowMs : Int}
    {atMs : Nat} {m : Message} (hclaim : s.reminderClaim name nowMs id iso atMs = .ok (some m, store)) :
    Pacing (log ++ [.claimed name nowMs]) store := by
  obtain ⟨r, hget, hdue, -, -, hwrite, hset⟩ := reminderClaim_some hclaim
  have hr : r ∈ s.reminders.rows := List.mem_of_find?_eq_some hget
  have hname : r.name = name := Table.key_of_get hget
  simp only [Store.due, Bool.and_eq_true, decide_eq_true_eq] at hdue
  obtain ⟨⟨⟨⟨hactive, hnext⟩, hend⟩, -⟩, -⟩ := hdue
  have hpos := h.positive r hr
  have hforward : Forward s.reminders store.reminders := by
    rw [hset]
    refine .set _ fun r' hr' hp => ⟨rfl, rfl, ?_⟩
    rw [eq_of_get hget hr' (by simpa using hp)]
    simp only [Store.claimedRow]
    omega
  have hrow : Store.claimedRow nowMs id r ∈ store.reminders.rows := by
    rw [hset, Schedule.mem_set]
    exact ⟨r, hr, if_pos (by simpa using hname)⟩
  have hstep := (h.store hforward (.write hwrite)).claimed nowMs hrow hactive hend rfl
    fun t ht => (h.due r hr t ht).trans hnext
  rwa [show (Store.claimedRow nowMs id r).name = name from hname] at hstep

theorem Pacing.cancel {log : List Deed} {s : Store} (h : Pacing log s) (name : String) :
    Pacing (log ++ if (s.reminderCancel name).1 then [.cancelled name] else []) (s.reminderCancel name).2 := by
  have hset : Pacing log (s.reminderCancel name).2 := h.store (s.cancel_forward name) (.refl _)
  by_cases hany : (s.reminderCancel name).1 = true
  · rw [if_pos hany]
    refine hset.halted ?_ fun r' hr' hname hactive => ?_
    · obtain ⟨r, hr, hp⟩ := List.any_eq_true.1 hany
      have hname : r.name = name := by
        simp only [Bool.and_eq_true, decide_eq_true_eq] at hp
        exact hp.1
      exact (s.cancel_forward name).keys name (hname ▸ List.mem_map_of_mem hr)
    · obtain ⟨r, hr, rfl⟩ := (Schedule.mem_set cancelled_keeps).1 hr'
      by_cases hp : (decide (r.name = name) && decide (r.state = .active)) = true
      · rw [if_pos hp] at hactive
        cases hactive
      · rw [if_neg hp] at hactive hname
        exact hp (by simp [hname, hactive])
  · rw [if_neg hany, List.append_nil]
    exact hset

theorem Pacing.retry {log : List Deed} {s : Store} (h : Pacing log s) {name : String} {nowMs clockMs : Int}
    {m : Message} (hretry : (s.reminderRetry name nowMs clockMs).1 = some m) :
    Pacing (log ++ [.retried m.id (s.nextSequence m.id)]) (s.reminderRetry name nowMs clockMs).2 := by
  obtain ⟨hforward, hlater⟩ := reminderRetry_forward h.positive name nowMs clockMs
  obtain ⟨r, hget, hretryable, hlast, hmailbox⟩ := reminderRetry_some hretry
  simp only [Store.retryable, hlast, Bool.and_eq_true, decide_eq_true_eq, Bool.not_eq_true'] at hretryable
  obtain ⟨-, ⟨hlatest, -⟩, hunheard⟩ := hretryable
  obtain ⟨outcome, houtcome⟩ : ∃ outcome, Store.latestOutcome s.toMailbox m.id = some outcome := by
    cases hout : Store.latestOutcome s.toMailbox m.id with
    | none => rw [hout] at hlatest; exact absurd hlatest (by decide)
    | some outcome => exact ⟨outcome, rfl⟩
  obtain ⟨t, ht, hid, hsequence, rfl⟩ := latest_sequence houtcome
  refine (h.store hforward hlater).retried (r := (m.id, s.nextSequence m.id)) (fun hold => ?_)
    ⟨t, hlater.kept t ht, hid, hsequence, houtcome ▸ hlatest⟩ ?_ fun u hu huid hout => ?_
  · obtain ⟨u, hu, hkey, -⟩ := h.submitted _ hold
    have huid : u.messageId = m.id := congrArg Prod.fst hkey
    have hlt : u.sequence < s.nextSequence m.id := huid ▸ lt_nextSequence hu
    exact absurd (congrArg Prod.snd hkey) hlt.ne
  · rw [hmailbox]
    exact ⟨_, mem_append_rows.2 (.inr rfl), rfl, rfl⟩
  · rw [hmailbox] at hu
    rcases mem_append_rows.1 hu with hu | rfl
    · have hnone := List.any_eq_false.1 hunheard u (mem_transitionsOf.2 ⟨hu, huid⟩)
      rcases hout with hout | hout <;> simp [hout] at hnone
    · rcases hout with hout | hout <;> cases hout

theorem Pacing.step {l : Ledger} (h : Pacing l.log l.history.store) (a : Action) :
    Pacing (l.step a).log (l.step a).history.store := by
  -- a step that is not recorded leaves the log as it is
  have hsilent : ∀ {a}, l.history.deeds a = [] →
      Forward l.history.store.reminders (l.history.step a).store.reminders →
      Later l.history.store.toMailbox (l.history.step a).store.toMailbox →
      Pacing (l.step a).log (l.step a).history.store := by
    intro a hdeeds hforward hlater
    rw [Ledger.step, hdeeds, List.append_nil]
    exact h.store hforward hlater
  cases a with
  | add name route body everyMs untilMs nowMs =>
    refine hsilent rfl ?_ ?_
    all_goals
      unfold History.step
      simp only
      split
    · exact (reminderAdd_forward ‹_›).2
    · exact .refl _
    · exact .of_eq (congrArg Mailbox.transitions (reminderAdd_forward ‹_›).1)
    · exact .refl _
  | cancel name => exact h.cancel name
  | expire nowMs => exact hsilent rfl (l.history.store.expire_forward nowMs) (.refl _)
  | detail name detail => exact hsilent rfl (l.history.store.detail_forward name detail) (.refl _)
  | claim name nowMs id iso atMs =>
    simp only [Ledger.step, History.deeds, History.step]
    cases hclaim : l.history.store.reminderClaim name nowMs id iso atMs with
    | error e => simpa using h
    | ok out =>
      obtain ⟨m, store⟩ := out
      cases m with
      | none =>
        rw [reminderClaim_none hclaim]
        simpa using h
      | some m => exact h.claim hclaim
  | retry name nowMs clockMs =>
    simp only [Ledger.step, History.deeds, History.step]
    cases hretry : (l.history.store.reminderRetry name nowMs clockMs).1 with
    | none =>
      obtain ⟨hforward, hlater⟩ := reminderRetry_forward h.positive name nowMs clockMs
      simpa using h.store hforward hlater
    | some m => exact h.retry hretry
  | deliver messageId route harness outcome detail errorCode atMs => exact hsilent rfl (.refl _) (Later.append ..)
  | send mailbox message detail nowMs =>
    refine hsilent rfl ?_ ?_
    all_goals
      unfold History.step
      simp only
      split
    · exact .refl _
    · exact .refl _
    · exact .write ‹_›
    · exact .refl _
  | ack ids stamp =>
    obtain ⟨hreminders, htransitions⟩ := ackMessages_eq l.history.store ids stamp
    refine hsilent rfl ?_ (.of_eq htransitions)
    rw [show ((l.history.step (.ack ids stamp)).store).reminders = _ from hreminders]
    exact .refl _
  | register routes => exact hsilent rfl (.refl _) (.refl _)

/-- **Retries and claims (1_reminder.rs:110, 156)** after any actions, at any times. -/
theorem reminders_paced (routes : List String) (as : List Action) :
    let l := as.foldl Ledger.step ⟨start routes, []⟩
    Paced l.log l.history.store := by
  have hrun := Machine.run_foldl Ledger.step ⟨start routes, []⟩ as
  exact (hrun.invariant (I := fun l => Pacing l.log l.history.store) (fun l a l' h hstep => hstep ▸ h.step a)
    (start_pacing routes)).toPaced

end BoopStore
