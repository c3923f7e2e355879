import HafleyRs.Lib.Decimal
import HafleyRs.BoopStore.Mail
import HafleyRs.BoopStore.Route

/-!
# Timestamps kept as text (`crates/boop-store/src/bus.rs`, `crates/boop-proc/src/mailwait.rs`)

| here | there |
| --- | --- |
| `Instant`, with `<` | `time::OffsetDateTime` in UTC from year 0 to 9999: the date first, then the time of day |
| `Instant.rfc3339` | the text `now_iso` makes of it (bus.rs:775): no trailing zeros in a fraction, no zero fraction |
| `outranks` | bus.rs:978 |
| `replyTo` | mailwait.rs:65 |

`Z` sorts above the digits and above `.`, so a shorter fraction sorts above every longer one that goes on from it.
-/

namespace BoopStore
open Decimal

def isLeap (year : Nat) : Bool := year % 4 = 0 && (year % 100 ≠ 0 || year % 400 = 0)

def daysInMonth (year month : Nat) : Nat :=
  if month = 2 then if isLeap year then 29 else 28
  else if month ∈ [4, 6, 9, 11] then 30
  else 31

structure Instant where
  year       : Nat
  month      : Nat
  day        : Nat
  hour       : Nat
  minute     : Nat
  second     : Nat
  nanosecond : Nat
  year_le       : year ≤ 9999
  month_pos     : 1 ≤ month
  month_le      : month ≤ 12
  day_pos       : 1 ≤ day
  day_le        : day ≤ daysInMonth year month
  hour_lt       : hour < 24
  minute_lt     : minute < 60
  second_lt     : second < 60
  nanosecond_lt : nanosecond < 10 ^ 9

namespace Instant

/-- All but the fraction. -/
def fields (t : Instant) : List Nat := [t.year, t.month, t.day, t.hour, t.minute, t.second]

instance : LT Instant := ⟨fun t u => t.fields < u.fields ∨ t.fields = u.fields ∧ t.nanosecond < u.nanosecond⟩

def toSecond (t : Instant) : List Char :=
  pad 4 t.year ++ '-' :: (pad 2 t.month ++ '-' :: (pad 2 t.day ++ 'T' :: (pad 2 t.hour ++ ':' ::
    (pad 2 t.minute ++ ':' :: pad 2 t.second))))

/-- The digits after the point. -/
def fraction (t : Instant) : List Char := Decimal.trim (pad 9 t.nanosecond)

def rfc3339 (t : Instant) : String :=
  String.ofList (t.toSecond ++ (if t.nanosecond = 0 then ['Z'] else '.' :: (t.fraction ++ ['Z'])))

theorem day_lt (t : Instant) : t.day < 10 ^ 2 := by
  have h := t.day_le
  unfold daysInMonth at h
  split at h
  · split at h <;> omega
  · split at h <;> omega

theorem toSecond_lt (t u : Instant) : t.toSecond < u.toSecond ↔ t.fields < u.fields := by
  have hyear : ∀ t : Instant, t.year < 10 ^ 4 := fun t => by have := t.year_le; omega
  have hmonth : ∀ t : Instant, t.month < 10 ^ 2 := fun t => by have := t.month_le; omega
  have hhour : ∀ t : Instant, t.hour < 10 ^ 2 := fun t => by have := t.hour_lt; omega
  have hminute : ∀ t : Instant, t.minute < 10 ^ 2 := fun t => by have := t.minute_lt; omega
  have hsecond : ∀ t : Instant, t.second < 10 ^ 2 := fun t => by have := t.second_lt; omega
  rw [toSecond, toSecond, pad_append_lt (hyear t) (hyear u), cons_lt_cons, pad_append_lt (hmonth t) (hmonth u),
    cons_lt_cons, pad_append_lt t.day_lt u.day_lt, cons_lt_cons, pad_append_lt (hhour t) (hhour u), cons_lt_cons,
    pad_append_lt (hminute t) (hminute u), cons_lt_cons, pad_lt_pad (hsecond t) (hsecond u)]
  simp only [fields, cons_lt_cons, lt_irrefl, true_and, false_or, and_false, or_false]

theorem length_toSecond (t : Instant) : t.toSecond.length = 19 := by simp [toSecond]

theorem toSecond_eq {t u : Instant} (h : t.fields = u.fields) : t.toSecond = u.toSecond := by
  simp only [fields, List.cons.injEq, and_true] at h
  obtain ⟨h1, h2, h3, h4, h5, h6⟩ := h
  rw [toSecond, toSecond, h1, h2, h3, h4, h5, h6]

theorem fraction_zero {t : Instant} (h : t.nanosecond = 0) : t.fraction = [] := by
  rw [fraction, h]
  decide

/-- Text order is time order unless the earlier fraction is the start of the later one in the same second. -/
theorem rfc3339_lt_iff {t u : Instant} (h : t < u) :
    t.rfc3339 < u.rfc3339 ↔ ¬ (t.fields = u.fields ∧ t.fraction <+: u.fraction) := by
  rw [rfc3339, rfc3339, String.lt_iff, String.toList_ofList, String.toList_ofList,
    append_lt_append (t.length_toSecond.trans u.length_toSecond.symm), toSecond_lt]
  rcases h with hlt | ⟨heq, hnano⟩
  · have hne : t.fields ≠ u.fields := fun heq => absurd hlt (heq ▸ lt_irrefl _)
    simp [hlt, hne]
  · have hu : u.nanosecond ≠ 0 := by omega
    rw [heq, toSecond_eq heq, if_neg hu]
    by_cases ht : t.nanosecond = 0
    · rw [if_pos ht, fraction_zero ht]
      simp [cons_lt_cons]
    · have hpad : pad 9 t.nanosecond < pad 9 u.nanosecond := (pad_lt_pad t.nanosecond_lt u.nanosecond_lt).2 hnano
      have htrim := trim_lt_trim (z := 'Z') ((length_pad _ _).trans (length_pad _ _).symm) (fun _ => mem_pad)
        (fun _ hc => (mem_pad hc).1) (by decide) hpad
      rw [if_neg ht, cons_lt_cons]
      simp only [lt_irrefl, true_and, false_or]
      exact htrim

end Instant

/-! ## What reads them -/

/-- Whether the route the table already holds beats the one the file carries. -/
def outranks (held : Option Route) (incoming : Route) : Bool :=
  match held with
  | none => false
  | some held =>
    match held.registeredAt, incoming.registeredAt with
    | some heldAt, some newAt => decide (newAt ≤ heldAt)
    | some _, none => true
    | none, _ => false

/-- `row` answers `sent` without naming it. -/
def answered (sent : Option Message) (row : Message) : Bool :=
  sent.any fun sent =>
    decide (row.fromRoute = sent.toRoute ∧ row.toRoute = sent.fromRoute ∧ sent.fromTimestamp < row.fromTimestamp)

def replyTo (rows : List Message) (id : String) : Option Message :=
  let folded := fold rows
  let sent := folded.find? fun row => row.id = id
  (folded.filter fun row => row.id ≠ id && row.kind.asStr ≠ "ack" && row.toTimestamp.isNone).find? fun row =>
    row.replyTo = some id || answered sent row

/-- Of two registrations the later stays, whichever of them is stored. -/
def KeepsLater (earlier later : Instant) : Prop :=
  ∀ a b : Route, a.registeredAt = some earlier.rfc3339 → b.registeredAt = some later.rfc3339 →
    outranks (some b) a = true ∧ outranks (some a) b = false

/-- An open row of the recipient back to the sender is found, threaded or not. -/
def FindsReply (earlier later : Instant) : Prop :=
  ∀ rows id sent reply, (fold rows).find? (fun row => decide (row.id = id)) = some sent → reply ∈ fold rows →
    reply.id ≠ id → reply.kind.asStr ≠ "ack" → reply.toTimestamp = none → reply.fromRoute = sent.toRoute →
    reply.toRoute = sent.fromRoute → sent.fromTimestamp = earlier.rfc3339 → reply.fromTimestamp = later.rfc3339 →
      (replyTo rows id).isSome

theorem keepsLater_iff (t u : Instant) : KeepsLater t u ↔ t.rfc3339 < u.rfc3339 := by
  constructor
  · intro h
    have hboth := h { Route.default with registeredAt := some t.rfc3339 }
      { Route.default with registeredAt := some u.rfc3339 } rfl rfl
    simpa [outranks] using hboth.2
  · intro h a b ha hb
    simp [outranks, ha, hb, h, h.le]

theorem answered_some {sent row : Message} : answered (some sent) row = true ↔
    row.fromRoute = sent.toRoute ∧ row.toRoute = sent.fromRoute ∧ sent.fromTimestamp < row.fromTimestamp := by
  rw [answered, Option.any_some, decide_eq_true_iff]

theorem fold_pair {a b : Message} (h : a.id ≠ b.id) : fold [a, b] = [a, b] := by
  have hba : compare b.id a.id ≠ .eq := fun heq => h (compare_eq_iff_eq.1 heq).symm
  simp [fold, foldRow, drain, h, Std.ExtTreeMap.getElem_insert, hba]

def question (t : Instant) : Message :=
  { id := "question", fromRoute := "asker", toRoute := "worker", fromTimestamp := t.rfc3339, toTimestamp := none,
    kind := .request, replyTo := none, body := "", ref := none, rc := none, detail := none }

def answer (t : Instant) : Message :=
  { id := "answer", fromRoute := "worker", toRoute := "asker", fromTimestamp := t.rfc3339, toTimestamp := none,
    kind := .note, replyTo := none, body := "", ref := none, rc := none, detail := none }

theorem fold_exchange (t u : Instant) : fold [question t, answer u] = [question t, answer u] :=
  fold_pair (show "question" ≠ "answer" by decide)

theorem replyTo_answer {t u : Instant} (h : (replyTo [question t, answer u] "question").isSome) :
    t.rfc3339 < u.rfc3339 := by
  rw [replyTo, fold_exchange, List.find?_isSome] at h
  obtain ⟨row, hrow, hanswers⟩ := h
  obtain ⟨hmem, hopen⟩ := List.mem_filter.1 hrow
  have hsent : [question t, answer u].find? (fun row => decide (row.id = "question")) = some (question t) := rfl
  rw [hsent, Bool.or_eq_true, answered_some] at hanswers
  rcases List.mem_pair.1 hmem with rfl | rfl
  · exact absurd hopen (by simp [question])
  · rcases hanswers with hthread | ⟨-, -, hlt⟩
    · exact absurd hthread (by simp [answer])
    · exact hlt

theorem findsReply_iff (t u : Instant) : FindsReply t u ↔ t.rfc3339 < u.rfc3339 := by
  constructor
  · intro h
    refine replyTo_answer (h _ "question" (question t) (answer u) ?_ ?_ (show "answer" ≠ "question" by decide)
      (show "note" ≠ "ack" by decide) rfl rfl rfl rfl rfl)
    · rw [fold_exchange]
      rfl
    · rw [fold_exchange]
      simp
  · intro h rows id sent reply hsent hmem hid hkind hopen hfrom hto hasked hwrote
    rw [replyTo, List.find?_isSome]
    refine ⟨reply, List.mem_filter.2 ⟨hmem, by simp [hid, hkind, hopen]⟩, ?_⟩
    rw [hsent, Bool.or_eq_true, answered_some]
    exact .inr ⟨hfrom, hto, by rwa [hasked, hwrote]⟩

/-- **Where text order is time order**, for the text itself and for both of its readers. -/
theorem timestamps_sort_iff {t u : Instant} (h : t < u) :
    let C := ¬ (t.fields = u.fields ∧ t.fraction <+: u.fraction)
    (t.rfc3339 < u.rfc3339 ↔ C) ∧ (KeepsLater t u ↔ C) ∧ (FindsReply t u ↔ C) := by
  have htext := Instant.rfc3339_lt_iff h
  exact ⟨htext, (keepsLater_iff t u).trans htext, (findsReply_iff t u).trans htext⟩

/-- 2026-01-01T00:00:00Z and `n` nanoseconds. -/
def newYear (n : Nat) (h : n < 10 ^ 9) : Instant :=
  ⟨2026, 1, 1, 0, 0, 0, n, by decide, by decide, by decide, by decide, by decide, by decide, by decide, by decide, h⟩

def quarterPast : Instant := newYear 250000000 (by decide)
def halfPast : Instant := newYear 500000000 (by decide)

theorem timestamps_sort_quarter : quarterPast.rfc3339 < halfPast.rfc3339 ↔
    ¬ (quarterPast.fields = halfPast.fields ∧ quarterPast.fraction <+: halfPast.fraction) := by
  have hlt : quarterPast < halfPast := .inr ⟨rfl, by decide⟩
  exact (timestamps_sort_iff hlt).1

/-- Half a second past the full second: `...00Z` sorts above `...00.5Z`. -/
theorem half_second_sorts_first : ¬ ∀ t u : Instant, t < u →
    t.rfc3339 < u.rfc3339 ∧ KeepsLater t u ∧ FindsReply t u := by
  intro h
  have hsecond : newYear 0 (by decide) < halfPast := .inr ⟨rfl, by decide⟩
  refine (Instant.rfc3339_lt_iff hsecond).1 (h _ _ hsecond).1 ⟨rfl, ?_⟩
  rw [Instant.fraction_zero rfl]
  exact List.nil_prefix

end BoopStore
