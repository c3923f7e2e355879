import HafleyRs.BoopStore.TraceProjection
import HafleyRs.Lib.Machine
import HafleyRs.Lib.Timeline

/-!
# Liveness observations (`crates/boop-store/src/ident.rs`)

| here | there |
| --- | --- |
| `Binding` | `status`, `pid`, `tmux_pane_id` of a row of `agent_live_span` (5433) |
| `LiveRow` | what an observation reads and writes of `agent_live` (5350) |
| `SessionLive` | the rows of one session in both tables; the key of an interval is `from_ts` |
| `statuses` | `dict_status` of `2_closed_sets.rs` (82) |
| `recordStatus` | `record_status` (3178) |
| `queryLiveAt` | `query_live_at` (3831) |

A pane is its name and a session its id, for which the dictionaries have one number each. A call that fails leaves
the store as it was, by its savepoint. An observation is compared with the start of the open interval, not with the
last one that confirmed it: an older one cuts a newer one off (`older_replaces`).
-/

namespace BoopStore.Liveness
open Projection Timeline

structure Binding where
  status : String
  pid    : Option Int
  pane   : Option String
deriving DecidableEq, Repr

structure LiveRow where
  binding     : Binding
  lastSeen    : Int
  paneAlive   : Option Int
  pidAlive    : Option Int
  tmuxSession : Option String
deriving DecidableEq, Repr

structure SessionLive where
  row   : Option LiveRow
  spans : Timeline Int Binding

structure LivenessStore where
  sessions     : BTreeMap String SessionLive
  routeTmux    : String → Option String
  observations : Table SessionObservation.observationKey

structure StatusCall where
  session : String
  ts      : U64
  binding : Binding
deriving DecidableEq, Repr

def LivenessStore.live (store : LivenessStore) (session : String) : SessionLive :=
  (store.sessions[session]?).getD { row := none, spans := ∅ }

/-! ## One call -/

def statuses : List String := ["idle", "live", "detached", "dead", "closed"]

def alive (status : String) : Option Int :=
  if status = "live" ∨ status = "idle" then some 1
  else if status = "dead" ∨ status = "closed" ∨ status = "detached" then some 0
  else none

/-- The tmux session a route names, unless it names a pane. -/
def tmuxSession (target : String) : Option String :=
  if target.toList.head? = some '%' then none else some (.ofList (target.toList.takeWhile (· ≠ ':')))

def statusObservation (call : StatusCall) : SessionObservation where
  observationKey := s!"live-status:{call.session}:{call.ts.val}"
  sessionId      := call.session
  observedAtMs   := call.ts
  harness        := none
  cwd            := none
  pid            := call.binding.pid.bind fun pid => if 0 ≤ pid ∧ pid < 2 ^ 32 then some pid.toNat else none
  parentPid      := none
  paneId         := call.binding.pane
  tuiSessionId   := none
  source         := "live-status"

/-- The row of `agent_live` after an observation. -/
def liveRow (routeTmux : Option String) (call : StatusCall) (old : Option LiveRow) : LiveRow where
  binding     := call.binding
  lastSeen    := asI64 call.ts
  paneAlive   := call.binding.pane.bind fun _ => alive call.binding.status
  pidAlive    := call.binding.pid.bind fun _ => alive call.binding.status
  tmuxSession := (routeTmux.bind tmuxSession).or (old.bind LiveRow.tmuxSession)

/-- The two statements that end the open interval and write the new one. -/
def writeSpan (spans : Timeline Int Binding) (current : Option (Int × Stay Int Binding)) (call : StatusCall) :
    Timeline Int Binding :=
  let ended := match current with
    | some (start, stay) => spans.insert start { stay with till := some (asI64 call.ts) }
    | none               => spans
  ended.insert (asI64 call.ts) { till := none, state := call.binding }

def recordStatus (store : LivenessStore) (call : StatusCall) : Except String LivenessStore :=
  if call.binding.status ∉ statuses then .error s!"invalid dict_status value {repr call.binding.status}" else
  let live := store.live call.session
  let current := Timeline.current live.spans
  if current.any (fun e => asI64 call.ts < e.1) then .ok store else
  let row := liveRow (store.routeTmux call.session) call live.row
  let spans := if current.any (fun e => e.2.state = call.binding) then live.spans
    else writeSpan live.spans current call
  .ok { store with
    sessions     := store.sessions.insert call.session { row := some row, spans }
    observations := (store.observations.insertOrIgnore (statusObservation call)).1 }

/-! ## The query -/

structure LiveSpanRow where
  session : String
  start   : Int
  stay    : Stay Int Binding
deriving DecidableEq, Repr

def queryLiveAt (store : LivenessStore) (atTs : U64) : List LiveSpanRow :=
  store.sessions.toList.flatMap fun e =>
    (e.2.spans.toList.filter fun s => decide (s.1 ≤ asI64 atTs) && s.2.till.all fun stop => asI64 atTs < stop).map
      fun s => ⟨e.1, s.1, s.2⟩

end BoopStore.Liveness

/-!
# Runs of liveness observations (`crates/boop-store/src/ident.rs`:3178)

`Kept` is what every run of calls in order keeps: a session's intervals are a tiled timeline in which neighbours
differ, and its row and its open interval are of the newest call. That the timeline is tiled holds in every run
(`Writes.tiled`); the rest needs that no call is older than one that is not older than the open interval.
-/

namespace BoopStore.Liveness
open Projection Timeline

theorem asI64_of_lt {n : U64} (h : n.val < 2 ^ 63) : asI64 n = n.val := if_pos h

/-! ## One call -/

section
variable {store after : LivenessStore} {call : StatusCall}

theorem live_of_insert {live : SessionLive} (h : after.sessions = store.sessions.insert call.session live)
    (session : String) : after.live session = if call.session = session then live else store.live session := by
  unfold LivenessStore.live
  rw [h, BTreeMap.getElem?_insert]
  split_ifs <;> rfl

/-- The intervals after a call that is written: begun, left, continued, or with the open one replaced. -/
inductive Writes (spans : Timeline Int Binding) (t : Int) (b : Binding) : Timeline Int Binding → Prop
  | first (hnone : ∀ f : Int, spans[f]? = none) : Writes spans t b ((∅ : Timeline Int Binding).insert t ⟨none, b⟩)
  | same {f : Int} {s : Stay Int Binding} (hs : spans[f]? = some s) (hopen : s.till = none) (hle : f ≤ t)
      (hsame : s.state = b) : Writes spans t b spans
  | succeeds {f : Int} {s : Stay Int Binding} (hs : spans[f]? = some s) (hopen : s.till = none) (hlt : f < t)
      (hne : s.state ≠ b) : Writes spans t b (Timeline.succeed spans f s t b)
  | replaces {f : Int} {s : Stay Int Binding} (hs : spans[f]? = some s) (hopen : s.till = none) (heq : f = t)
      (hne : s.state ≠ b) : Writes spans t b (spans.insert f ⟨none, b⟩)

theorem writes_writeSpan {spans : Timeline Int Binding} (htiled : Tiled spans)
    (hcurrent : (Timeline.current spans).any (fun e => asI64 call.ts < e.1) = false) :
    Writes spans (asI64 call.ts) call.binding
      (if (Timeline.current spans).any (fun e => e.2.state = call.binding) then spans
        else writeSpan spans (Timeline.current spans) call) := by
  cases hopen : Timeline.current spans with
  | none =>
    have hnone := (current_eq_none htiled).1 hopen
    obtain rfl : spans = ∅ := BTreeMap.ext_getElem? fun f => by rw [hnone f, Std.ExtTreeMap.getElem?_empty]
    exact .first hnone
  | some e =>
    obtain ⟨f, s⟩ := e
    obtain ⟨hs, htill⟩ := (current_eq_some htiled).1 hopen
    rw [hopen, Option.any_some, decide_eq_false_iff_not, not_lt] at hcurrent
    rw [Option.any_some]
    by_cases hsame : s.state = call.binding
    · rw [if_pos (decide_eq_true hsame)]
      exact .same hs htill hcurrent hsame
    · rw [if_neg (by simpa using hsame)]
      rcases hcurrent.eq_or_lt with heq | hlt
      · have hreplaced : writeSpan spans (some (f, s)) call = spans.insert f ⟨none, call.binding⟩ := by
          refine BTreeMap.ext_getElem? fun k => ?_
          simp only [writeSpan, BTreeMap.getElem?_insert, ← heq]
          split_ifs <;> rfl
        rw [hreplaced]
        exact .replaces hs htill heq hsame
      · exact .succeeds hs htill hlt hsame

/-- A call is too old for the open interval, or it is written. -/
theorem recordStatus_cases (htiled : Tiled (store.live call.session).spans) (h : recordStatus store call = .ok after) :
    call.binding.status ∈ statuses ∧ (∀ other, call.session ≠ other → after.live other = store.live other) ∧
    ((∃ (f : Int) (s : Stay Int Binding), (store.live call.session).spans[f]? = some s ∧ s.till = none ∧
      asI64 call.ts < f ∧ after = store) ∨
    Writes (store.live call.session).spans (asI64 call.ts) call.binding (after.live call.session).spans ∧
      ∃ row, (after.live call.session).row = some row ∧ row.binding = call.binding ∧ row.lastSeen = asI64 call.ts) := by
  unfold recordStatus at h
  by_cases hstatus : call.binding.status ∈ statuses
  · rw [if_neg (not_not.2 hstatus)] at h
    refine ⟨hstatus, ?_⟩
    by_cases hold : (Timeline.current (store.live call.session).spans).any (fun e => asI64 call.ts < e.1) = true
    · simp only [hold, if_true] at h
      obtain rfl : store = after := Except.ok.inj h
      refine ⟨fun _ _ => rfl, Or.inl ?_⟩
      obtain ⟨⟨f, s⟩, hcurrent, hlt⟩ := (Option.any_eq_true _ _).1 hold
      obtain ⟨hs, htill⟩ := (current_eq_some htiled).1 hcurrent
      exact ⟨f, s, hs, htill, of_decide_eq_true hlt, rfl⟩
    · simp only [hold, Bool.false_eq_true, if_false] at h
      have hlive := live_of_insert (congrArg LivenessStore.sessions (Except.ok.inj h)).symm
      rw [Bool.not_eq_true] at hold
      refine ⟨fun other hother => (hlive other).trans (if_neg hother), Or.inr ?_⟩
      rw [hlive, if_pos rfl]
      exact ⟨writes_writeSpan htiled hold, _, rfl, rfl, rfl⟩
  · rw [if_pos hstatus] at h
    cases h

/-- A call leaves an interval tiling time, whatever its time. -/
theorem Writes.tiled {spans spans' : Timeline Int Binding} {t : Int} {b : Binding} (h : Writes spans t b spans')
    (htiled : Tiled spans) : Tiled spans' := by
  cases h with
  | first => exact tiled_first t b
  | same => exact htiled
  | succeeds hs hopen hlt => exact htiled.succeed hs hopen hlt
  | replaces hs hopen => exact htiled.replace hs hopen

theorem Writes.changes {spans spans' : Timeline Int Binding} {t : Int} {b : Binding} (h : Writes spans t b spans')
    (htiled : Tiled spans) (hchanges : Changes spans) (hback : ∀ (f : Int) (s : Stay Int Binding), spans[f]? = some s →
      s.till = none → t = f → ∀ (k : Int) (x : Stay Int Binding), spans[k]? = some x → x.till = some f → x.state ≠ b) :
    Changes spans' := by
  cases h with
  | first => exact changes_first t b
  | same => exact hchanges
  | succeeds hs hopen hlt hne => exact hchanges.succeed htiled hs hopen hlt hne
  | replaces hs hopen heq => exact hchanges.replace (hback _ _ hs hopen heq.symm)

theorem Writes.start_le {spans spans' : Timeline Int Binding} {t : Int} {b : Binding} (h : Writes spans t b spans')
    (htiled : Tiled spans) {f : Int} {s : Stay Int Binding} (hs : spans[f]? = some s) (hopen : s.till = none) :
    f ≤ t := by
  cases h with
  | first hnone =>
    rw [hnone] at hs
    cases hs
  | same hs' hopen' hle => exact htiled.open_unique hs hs' hopen hopen' ▸ hle
  | succeeds hs' hopen' hlt => exact htiled.open_unique hs hs' hopen hopen' ▸ hlt.le
  | replaces hs' hopen' heq => exact (htiled.open_unique hs hs' hopen hopen').le.trans heq.le

/-- The open interval is then of the call, and began by its time. -/
theorem Writes.open {spans spans' : Timeline Int Binding} {t : Int} {b : Binding} (h : Writes spans t b spans') :
    ∃ (f : Int) (s : Stay Int Binding), spans'[f]? = some s ∧ s.till = none ∧ s.state = b ∧ f ≤ t := by
  cases h with
  | first => exact ⟨t, _, by rw [BTreeMap.getElem?_insert, if_pos rfl], rfl, rfl, le_rfl⟩
  | same hs hopen hle hsame => exact ⟨_, _, hs, hopen, hsame, hle⟩
  | succeeds hs hopen hlt => exact ⟨t, _, by rw [getElem?_succeed, if_pos rfl], rfl, rfl, le_rfl⟩
  | replaces hs hopen heq => exact ⟨_, _, by rw [BTreeMap.getElem?_insert, if_pos rfl], rfl, rfl, heq.le⟩

end

/-! ## Runs -/

/-- The store, and the calls it has taken. -/
structure Recorded where
  store : LivenessStore
  log   : List StatusCall

/-- A call that fails is rolled back. -/
def recordCall (r : Recorded) (call : StatusCall) : Recorded :=
  match recordStatus r.store call with
  | .ok store => { store, log := r.log ++ [call] }
  | .error _  => r

def Recorded.start (routeTmux : String → Option String) : Recorded where
  store := { sessions := ∅, routeTmux, observations := Table.empty }
  log   := []

def Recorded.calls (r : Recorded) (session : String) : List StatusCall :=
  r.log.filter fun call => call.session = session

/-- The call with the greatest time, of several the last. -/
def newest (calls : List StatusCall) : Option StatusCall :=
  calls.foldl (fun best call => if best.any (fun b => call.ts < b.ts) then best else some call) none

/-- What the intervals of a session and its row should say. -/
structure LivenessPartitions (r : Recorded) (session : String) : Prop where
  ordered  : ∀ (f : Int) (s : Stay Int Binding) (t : Int), (r.store.live session).spans[f]? = some s →
    s.till = some t → f ≤ t
  disjoint : ∀ (f f' : Int) (s s' : Stay Int Binding) (t : Int), (r.store.live session).spans[f]? = some s →
    (r.store.live session).spans[f']? = some s' → s.holds f t → s'.holds f' t → f = f'
  oneOpen  : ∀ (f f' : Int) (s s' : Stay Int Binding), (r.store.live session).spans[f]? = some s →
    (r.store.live session).spans[f']? = some s' → s.till = none → s'.till = none → f = f'
  differ   : Changes (r.store.live session).spans
  queried  : ∀ t, ((queryLiveAt r.store t).filter fun row => row.session = session).length ≤ 1
  agree    : ∀ (f : Int) (s : Stay Int Binding), (r.store.live session).spans[f]? = some s → s.till = none →
    ((r.store.live session).row.map LiveRow.binding) = some s.state
  newest   : ∀ call, newest (r.calls session) = some call →
    (∃ row, (r.store.live session).row = some row ∧ row.binding = call.binding ∧ row.lastSeen = call.ts.val) ∧
    ∃ (f : Int) (s : Stay Int Binding), (r.store.live session).spans[f]? = some s ∧ s.till = none ∧
      s.state = call.binding

/-- A call that is taken fits an `i64`, and is older than the open interval or as new as all calls of its session; and
at the start of the open interval it does not bring back what was before. -/
def InOrder (r : Recorded) (call : StatusCall) : Prop :=
  call.binding.status ∈ statuses → call.ts.val < 2 ^ 63 ∧
    ∀ (f : Int) (s : Stay Int Binding), (r.store.live call.session).spans[f]? = some s → s.till = none →
      asI64 call.ts < f ∨ (∀ earlier ∈ r.calls call.session, earlier.ts ≤ call.ts) ∧
        (asI64 call.ts = f → ∀ (k : Int) (x : Stay Int Binding), (r.store.live call.session).spans[k]? = some x →
          x.till = some f → x.state ≠ call.binding)

theorem newest_concat (calls : List StatusCall) (call : StatusCall) : newest (calls ++ [call]) =
    if (newest calls).any (fun b => call.ts < b.ts) then newest calls else some call := by
  unfold newest
  rw [List.foldl_append]
  rfl

theorem newest_mem {calls : List StatusCall} {call : StatusCall} (h : newest calls = some call) : call ∈ calls := by
  induction calls using List.reverseRecOn with
  | nil => cases h
  | append_singleton calls last ih =>
    rw [newest_concat] at h
    split_ifs at h
    · exact List.mem_append_left _ (ih h)
    · rw [Option.some.injEq] at h
      simp [h]

theorem newest_eq_none {calls : List StatusCall} : newest calls = none ↔ calls = [] := by
  constructor
  · intro h
    induction calls using List.reverseRecOn with
    | nil => rfl
    | append_singleton calls last ih =>
      rw [newest_concat] at h
      split_ifs at h with hany
      rw [h] at hany
      cases hany
  · rintro rfl
    rfl

theorem newest_latest {calls : List StatusCall} {call : StatusCall} (h : ∀ earlier ∈ calls, earlier.ts ≤ call.ts) :
    newest (calls ++ [call]) = some call := by
  rw [newest_concat, if_neg]
  rw [Bool.not_eq_true, Option.any_eq_false]
  intro b hb
  simpa using h b (newest_mem hb)

theorem newest_older {calls : List StatusCall} {b call : StatusCall} (h : newest calls = some b)
    (hlt : call.ts < b.ts) : newest (calls ++ [call]) = some b := by
  rw [newest_concat, if_pos, h]
  rw [h, Option.any_some]
  exact decide_eq_true hlt

/-- What the runs in order keep of a session. -/
structure Kept (r : Recorded) (session : String) : Prop where
  tiled   : Tiled (r.store.live session).spans
  changes : Changes (r.store.live session).spans
  unseen  : newest (r.calls session) = none → ∀ f : Int, (r.store.live session).spans[f]? = none
  seen    : ∀ call, newest (r.calls session) = some call → call.ts.val < 2 ^ 63 ∧
    (∃ row, (r.store.live session).row = some row ∧ row.binding = call.binding ∧ row.lastSeen = call.ts.val) ∧
    ∃ (f : Int) (s : Stay Int Binding), (r.store.live session).spans[f]? = some s ∧ s.till = none ∧
      s.state = call.binding ∧ f ≤ call.ts.val

section
variable {r : Recorded} {call : StatusCall} {session : String}

theorem kept_start (routeTmux : String → Option String) (session : String) :
    Kept (Recorded.start routeTmux) session where
  tiled   := tiled_empty
  changes := changes_empty
  unseen _ _ := Std.ExtTreeMap.getElem?_empty
  seen    := nofun

theorem calls_concat (store : LivenessStore) : Recorded.calls { store, log := r.log ++ [call] } session =
    if call.session = session then r.calls session ++ [call] else r.calls session := by
  unfold Recorded.calls
  rw [List.filter_append]
  split_ifs with h <;> simp [h]

/-- A call older than the open interval is not the newest. -/
theorem Kept.older (h : Kept r session) {f : Int} {s : Stay Int Binding}
    (hs : (r.store.live session).spans[f]? = some s) (hopen : s.till = none) (hlt : (call.ts.val : Int) < f)
    (hcalls : Recorded.calls { r with log := r.log ++ [call] } session = r.calls session ++ [call]) :
    Kept { r with log := r.log ++ [call] } session := by
  cases hn : newest (r.calls session) with
  | none =>
    rw [h.unseen hn] at hs
    cases hs
  | some b =>
    obtain ⟨f', s', hs', hopen', -, hle⟩ := (h.seen b hn).2.2
    obtain rfl := h.tiled.open_unique hs hs' hopen hopen'
    have hbefore : call.ts < b.ts := by
      have hval : call.ts.val < b.ts.val := by omega
      exact hval
    have hnewest := newest_older hn hbefore
    constructor
    · exact h.tiled
    · exact h.changes
    · rw [hcalls, hnewest]
      nofun
    · rw [hcalls, hnewest]
      rintro _ ⟨⟩
      exact h.seen b hn

theorem Kept.step (h : ∀ session, Kept r session) (horder : InOrder r call) (session : String) :
    Kept (recordCall r call) session := by
  unfold recordCall
  cases hrecord : recordStatus r.store call with
  | error e => exact h session
  | ok after =>
    obtain ⟨hstatus, hother, hcases⟩ := recordStatus_cases (h call.session).tiled hrecord
    obtain ⟨hfits, hinorder⟩ := horder hstatus
    by_cases hsession : call.session = session
    · subst hsession
      have hcalls := @calls_concat r call call.session after
      rw [if_pos rfl] at hcalls
      rcases hcases with ⟨f, s, hs, hopen, hlt, rfl⟩ | ⟨hwrites, row, hrow, hbinding, hseen⟩
      · exact Kept.older (h call.session) hs hopen (asI64_of_lt hfits ▸ hlt) hcalls
      · have hle : ∀ {f : Int} {s : Stay Int Binding}, (r.store.live call.session).spans[f]? = some s →
            s.till = none → f ≤ asI64 call.ts := hwrites.start_le (h call.session).tiled
        have hnewest : newest (r.calls call.session ++ [call]) = some call := by
          cases hn : newest (r.calls call.session) with
          | none =>
            rw [newest_eq_none.1 hn]
            rfl
          | some b =>
            obtain ⟨-, -, f, s, hs, hopen, -⟩ := (h call.session).seen b hn
            exact newest_latest ((hinorder f s hs hopen).resolve_left (not_lt.2 (hle hs hopen))).1
        constructor
        · exact hwrites.tiled (h call.session).tiled
        · refine hwrites.changes (h call.session).tiled (h call.session).changes fun f s hs hopen heq => ?_
          exact ((hinorder f s hs hopen).resolve_left (not_lt.2 (hle hs hopen))).2 heq
        · rw [hcalls, hnewest]
          nofun
        · rw [hcalls, hnewest]
          rintro b ⟨⟩
          obtain ⟨f, s, hs, hopen, hstate, hft⟩ := hwrites.open
          rw [asI64_of_lt hfits] at hft hseen
          exact ⟨hfits, ⟨row, hrow, hbinding, hseen⟩, f, s, hs, hopen, hstate, hft⟩
    · have hcalls := @calls_concat r call session after
      rw [if_neg hsession] at hcalls
      have hlive := hother session hsession
      constructor
      · rw [hlive]
        exact (h session).tiled
      · rw [hlive]
        exact (h session).changes
      · rw [hlive, hcalls]
        exact (h session).unseen
      · rw [hlive, hcalls]
        exact (h session).seen

/-! ## What a kept session shows -/

theorem mem_queryLiveAt {t : U64} {row : LiveSpanRow} (h : row ∈ queryLiveAt r.store t) :
    (r.store.live row.session).spans[row.start]? = some row.stay ∧ row.stay.holds row.start (asI64 t) := by
  obtain ⟨⟨key, live⟩, hlive, hrow⟩ := List.mem_flatMap.1 h
  obtain ⟨⟨start, stay⟩, hstay, rfl⟩ := List.mem_map.1 hrow
  rw [List.mem_filter, BTreeMap.mem_toList, Bool.and_eq_true, decide_eq_true_eq] at hstay
  rw [BTreeMap.mem_toList] at hlive
  refine ⟨?_, hstay.2.1, fun stop hstop => ?_⟩
  · rw [LivenessStore.live, hlive]
    exact hstay.1
  · have hall := hstay.2.2
    rw [hstop, Option.all_some] at hall
    exact of_decide_eq_true hall

theorem queryLiveAt_nodup (store : LivenessStore) (t : U64) : (queryLiveAt store t).Nodup := by
  unfold queryLiveAt
  rw [List.nodup_flatMap]
  constructor
  · intro e _
    refine List.Nodup.map ?_ ((BTreeMap.toList_nodup_keys e.2.spans).filter _)
    rintro ⟨a, b⟩ ⟨a', b'⟩ heq
    simpa using heq
  · refine (BTreeMap.toList_sorted store.sessions).imp fun {a b} hlt => ?_
    intro row ha hb
    obtain ⟨s, -, rfl⟩ := List.mem_map.1 ha
    obtain ⟨s', -, heq⟩ := List.mem_map.1 hb
    exact hlt.ne (congrArg LiveSpanRow.session heq).symm

theorem Kept.partitions (h : Kept r session) : LivenessPartitions r session := by
  constructor
  case ordered => exact fun f s t hs hstop => (h.tiled.next f s t hs hstop).1.le
  case disjoint => exact fun f f' s s' t hs hs' => h.tiled.once hs hs'
  case oneOpen => exact fun f f' s s' hs hs' => h.tiled.open_unique hs hs'
  case differ => exact h.changes
  case queried =>
    intro t
    by_contra hmany
    obtain ⟨a, ha, b, hb, hne⟩ := (one_lt_length_iff ((queryLiveAt_nodup r.store t).filter _)).1 (not_le.1 hmany)
    rw [List.mem_filter, decide_eq_true_eq] at ha hb
    obtain ⟨hspan, hholds⟩ := mem_queryLiveAt ha.1
    obtain ⟨hspan', hholds'⟩ := mem_queryLiveAt hb.1
    rw [ha.2] at hspan
    rw [hb.2] at hspan'
    have hstart := h.tiled.once hspan hspan' hholds hholds'
    rw [hstart, hspan', Option.some.injEq] at hspan
    obtain ⟨session, start, stay⟩ := a
    obtain ⟨session', start', stay'⟩ := b
    simp_all
  case agree =>
    intro f s hs hopen
    cases hn : newest (r.calls session) with
    | none =>
      rw [h.unseen hn] at hs
      cases hs
    | some b =>
      obtain ⟨-, ⟨row, hrow, hbinding, -⟩, f', s', hs', hopen', hstate, -⟩ := h.seen b hn
      obtain rfl := h.tiled.open_unique hs hs' hopen hopen'
      obtain rfl := Option.some.inj (hs.symm.trans hs')
      rw [hrow, Option.map_some, hbinding, hstate]
  case newest =>
    intro call hcall
    obtain ⟨-, hrow, f, s, hs, hopen, hstate, -⟩ := h.seen call hcall
    exact ⟨hrow, f, s, hs, hopen, hstate⟩

end

/-- **Liveness intervals partition time** — in every run of calls in order, for every session. -/
theorem liveness_partitions (routeTmux : String → Option String) (calls : List StatusCall) (r : Recorded)
    (hrun : Machine.Run (Machine.guarded InOrder fun s call t => recordCall s call = t) (.start routeTmux) calls r)
    (session : String) : LivenessPartitions r session := by
  have hkept : ∀ session, Kept r session := by
    refine hrun.invariant (I := fun r => ∀ session, Kept r session) ?_ (kept_start routeTmux)
    rintro s call t hs ⟨horder, rfl⟩
    exact Kept.step hs horder
  exact (hkept session).partitions

def seenAt (status : String) (ts : U64) : StatusCall := ⟨"s1", ts, ⟨status, some 1, some "%1"⟩⟩

theorem death_partitions : LivenessPartitions
    (recordCall (recordCall (.start fun _ => none) (seenAt "live" 100)) (seenAt "dead" 200)) "s1" := by
  refine liveness_partitions (fun _ => none) [seenAt "live" 100, seenAt "dead" 200] _
    (.cons ⟨fun _ => ⟨by decide, ?_⟩, rfl⟩ (.cons ⟨fun _ => ⟨by decide, ?_⟩, rfl⟩ (.nil _))) "s1"
  · intro f s hs
    rw [(kept_start _ _).unseen rfl] at hs
    cases hs
  · intro f s hs _
    have hlist : ((recordCall (.start fun _ => none) (seenAt "live" 100)).store.live "s1").spans.toList =
        [(100, ⟨none, ⟨"live", some 1, some "%1"⟩⟩)] := by decide +kernel
    have hmem := BTreeMap.mem_toList.2 hs
    rw [show (seenAt "dead" 200).session = "s1" from rfl, hlist, List.mem_singleton, Prod.mk.injEq] at hmem
    obtain ⟨rfl, -⟩ := hmem
    exact Or.inr ⟨by decide +kernel, fun h => absurd h (by decide)⟩

/-- A death seen at 150 replaces the life confirmed at 200, as the interval is open since 100. -/
theorem older_replaces : ¬ ∀ (routeTmux : String → Option String) (calls : List StatusCall) (r : Recorded),
    Machine.Run (fun s call t => recordCall s call = t) (.start routeTmux) calls r →
      ∀ session, LivenessPartitions r session := by
  intro h
  have hpartitions := h (fun _ => none) [seenAt "live" 100, seenAt "live" 200, seenAt "dead" 150] _
    (.cons rfl (.cons rfl (.cons rfl (.nil _)))) "s1"
  obtain ⟨⟨row, hrow, hbinding, -⟩, -⟩ := hpartitions.newest (seenAt "live" 200) (by decide +kernel)
  have hdead : ((recordCall (recordCall (recordCall (.start fun _ => none) (seenAt "live" 100)) (seenAt "live" 200))
      (seenAt "dead" 150)).store.live "s1").row.map LiveRow.binding = some ⟨"dead", some 1, some "%1"⟩ := by
    decide +kernel
  rw [hrow, Option.map_some, hbinding] at hdead
  exact absurd hdead (by decide)

end BoopStore.Liveness
