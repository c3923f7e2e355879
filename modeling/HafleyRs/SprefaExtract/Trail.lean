import HafleyRs.Lib.Calendar
import HafleyRs.Lib.Decimal

/-!
# Times on the trail (`crates/sprefa-extract/src/trail.rs:233-260`)

| here | there |
| --- | --- |
| `formatUtc` | `format_utc`; a `SystemTime` is its nanoseconds from the epoch, negative before it |
| `civilFromDays` | `civil_from_days` |

`i64` sums wrap, as in a release build; only the first of `civil_from_days` can. What is unsigned there is a `Nat`
here, and no difference of those falls below zero.
-/

namespace SprefaExtract
open Calendar Decimal

def civilFromDays (days : Int) : Int × Nat × Nat :=
  let z := Int.bmod (days + 719468) (2 ^ 64)
  let era := (if 0 ≤ z then z else z - 146096).tdiv 146097
  let doe := (z - era * 146097).toNat
  let yoe := (doe - doe / 1460 + doe / 36524 - doe / 146096) / 365
  let year := (yoe : Int) + era * 400
  let doy := doe - (365 * yoe + yoe / 4 - yoe / 100)
  let mp := (5 * doy + 2) / 153
  let day := doy - (153 * mp + 2) / 5 + 1
  let month := if mp < 10 then mp + 3 else mp - 9
  (year + (if month ≤ 2 then 1 else 0), month, day)

/-- `{n:0w}` of a signed number. -/
def zerosInt (w : Nat) (n : Int) : List Char :=
  if 0 ≤ n then zeros w n.toNat else '-' :: zeros (w - 1) (-n).toNat

/-- `duration_since(UNIX_EPOCH).map_or(0, |since| since.as_secs())` -/
def secsOf (instant : Int) : Nat := if instant < 0 then 0 else (instant / 10 ^ 9).toNat

def formatUtc (instant : Int) : String :=
  let secs := secsOf instant
  let days : Int := secs / 86400
  let rest := secs % 86400
  let civil := civilFromDays days
  String.ofList (zerosInt 4 civil.1 ++ '-' :: (zeros 2 civil.2.1 ++ '-' :: (zeros 2 civil.2.2 ++
    'T' :: (zeros 2 (rest / 3600) ++ ':' :: (zeros 2 (rest % 3600 / 60) ++ ':' :: (zeros 2 (rest % 60) ++ ['Z']))))))

/-! ## The date of a day -/

/-- The date of a day number that fits. -/
theorem civilFromDays_spec {days : Int} (hlow : -2 ^ 63 ≤ days) (hhigh : days + 719468 < 2 ^ 63) :
    ∃ d : Date, civilFromDays days = (d.year, d.month, d.day) ∧ dayNumber d = days := by
  have hz : Int.bmod (days + 719468) (2 ^ 64) = days + 719468 := by
    rw [Int.bmod_eq_of_le] <;> omega
  have hera := floor_of_tdiv (show (0 : Int) < 146097 by decide) (days + 719468)
  obtain ⟨era, hdef⟩ : ∃ era, era = (days + 719468) / 146097 := ⟨_, rfl⟩
  obtain ⟨doe, hdoe⟩ : ∃ doe : Nat, doe = (days + 719468 - era * 146097).toNat := ⟨_, rfl⟩
  have hlt : doe < 146097 := by omega
  obtain ⟨hle, hsum, hlast⟩ := yearOfEra_spec hlt era
  obtain ⟨d, hyear, hmonth, hday, hnumber⟩ := exists_date hle hlast rfl rfl rfl
  refine ⟨d, ?_, by rw [hnumber, hsum]; omega⟩
  rw [hyear, hmonth, hday]
  simp only [civilFromDays, hz]
  rw [show (146096 : Int) = 146097 - 1 by rfl, hera, ← hdef, ← hdoe]
  rfl

/-! ## Texts in order -/

/-- The first day of the year 10000. -/
def tenThousand : Date := ⟨10000, 1, 1, january_pos, january_le, january_pos, by decide⟩

/-- The first nanosecond of the year 10000. -/
def endOfYears : Int := dayNumber tenThousand * 86400 * 10 ^ 9

theorem dayNumber_tenThousand : dayNumber tenThousand = 2932897 := by decide

/-- The date of an instant from the epoch to the year 9999, with what its text takes of it. -/
theorem exists_dateOf {instant : Int} (h : instant < endOfYears) :
    ∃ d : Date, civilFromDays (secsOf instant / 86400 : Nat) = (d.year, d.month, d.day) ∧
      dayNumber d = (secsOf instant / 86400 : Nat) ∧ 1970 ≤ d.year ∧ d.year ≤ 9999 := by
  have hdays : secsOf instant / 86400 < 2932897 := by
    rw [endOfYears, dayNumber_tenThousand] at h
    unfold secsOf
    split
    · decide
    · omega
  obtain ⟨d, hcivil, hnumber⟩ := @civilFromDays_spec (secsOf instant / 86400 : Nat) (by omega) (by omega)
  refine ⟨d, hcivil, hnumber, ?_, ?_⟩
  · by_contra hlt
    have hbefore := (dayNumber_within (le_refl d.year) (not_le.1 hlt)).2
    rw [show daysBeforeYear 1970 = 719527 by decide] at hbefore
    omega
  · by_contra hgt
    have hbehind := (dayNumber_within (Int.add_one_le_of_lt (not_le.1 hgt)) (lt_add_one d.year)).1
    rw [show daysBeforeYear (9999 + 1) = 3652424 by decide] at hbehind
    omega

theorem day_lt_hundred (d : Date) : d.day < 10 ^ 2 := by
  have hle := d.day_le
  have := daysInMonth_bounds d.year d.month
  omega

theorem month_lt_hundred (d : Date) : d.month < 10 ^ 2 := by
  have := d.month_le
  omega

/-- The text of an instant, every number of fixed width. -/
theorem formatUtc_eq {instant : Int} {d : Date} (hlow : 1970 ≤ d.year) (hhigh : d.year ≤ 9999)
    (hcivil : civilFromDays (secsOf instant / 86400 : Nat) = (d.year, d.month, d.day)) :
    formatUtc instant = String.ofList (pad 4 d.year.toNat ++ '-' :: (pad 2 d.month ++ '-' :: (pad 2 d.day ++
      'T' :: (pad 2 (secsOf instant % 86400 / 3600) ++ ':' :: (pad 2 (secsOf instant % 86400 % 3600 / 60) ++
        ':' :: (pad 2 (secsOf instant % 86400 % 60) ++ ['Z'])))))) := by
  have hdays : ((secsOf instant : Int) / 86400) = (secsOf instant / 86400 : Nat) := by omega
  simp only [formatUtc, hdays, hcivil]
  rw [zerosInt, if_pos (by omega), zeros_eq_pad (by decide) (by omega),
    zeros_eq_pad (by decide) (month_lt_hundred d), zeros_eq_pad (by decide) (day_lt_hundred d),
    zeros_eq_pad (by decide) (by omega), zeros_eq_pad (by decide) (by omega), zeros_eq_pad (by decide) (by omega)]

theorem formatUtc_lt {instant later : Int} (hend : later < endOfYears) (hlt : secsOf instant < secsOf later)
    (hle : instant ≤ later) : formatUtc instant < formatUtc later := by
  obtain ⟨d, hd, hdn, hdlow, hdhigh⟩ := exists_dateOf (lt_of_le_of_lt hle hend)
  obtain ⟨e, he, hen, helow, hehigh⟩ := exists_dateOf hend
  rw [formatUtc_eq hdlow hdhigh hd, formatUtc_eq helow hehigh he, String.lt_iff, String.toList_ofList,
    String.toList_ofList, pad_append_lt (by omega) (by omega), cons_lt_cons,
    pad_append_lt (month_lt_hundred d) (month_lt_hundred e), cons_lt_cons,
    pad_append_lt (day_lt_hundred d) (day_lt_hundred e), cons_lt_cons, pad_append_lt (by omega) (by omega), cons_lt_cons,
    pad_append_lt (by omega) (by omega), cons_lt_cons, pad_append_lt (by omega) (by omega)]
  simp only [lt_irrefl, false_or, true_and]
  rcases Nat.lt_or_ge (secsOf instant / 86400) (secsOf later / 86400) with hday | hday
  · have hdate : d < e := dayNumber_lt_iff.1 (by omega)
    rcases hdate with h | ⟨h, h' | ⟨h', h''⟩⟩
    · exact .inl (by omega)
    · exact .inr ⟨by rw [h], .inl h'⟩
    · exact .inr ⟨by rw [h], .inr ⟨h', .inl h''⟩⟩
  · have hsame : d = e := dayNumber_injective (by omega)
    refine .inr ⟨by rw [hsame], .inr ⟨by rw [hsame], .inr ⟨by rw [hsame], ?_⟩⟩⟩
    omega

/-- **Times on the trail are calendar exact.** A day number that leaves room for the shift is the number of the date
`civil_from_days` returns; from the epoch to the year 9999 a second later is a greater text. -/
theorem trail_times_exact :
    (∀ days : Int, -2 ^ 63 ≤ days → days + 719468 < 2 ^ 63 →
      ∃ d : Date, civilFromDays days = (d.year, d.month, d.day) ∧ dayNumber d = days) ∧
    ∀ instant : Int, 0 ≤ instant → instant + 10 ^ 9 < endOfYears →
      formatUtc instant < formatUtc (instant + 10 ^ 9) := by
  constructor
  · intro days hlow hhigh
    exact civilFromDays_spec hlow hhigh
  · intro instant hpos hend
    refine formatUtc_lt hend ?_ (by omega)
    rw [secsOf, secsOf, if_neg (by omega), if_neg (by omega)]
    omega

/-- Before the epoch two seconds have one text; the last day numbers leave no room for the shift. -/
theorem before_epoch_one_text : ¬ formatUtc (-2 * 10 ^ 9) < formatUtc (-2 * 10 ^ 9 + 10 ^ 9) ∧
    ¬ ∃ d : Date, civilFromDays (2 ^ 63 - 1) = (d.year, d.month, d.day) ∧ dayNumber d = 2 ^ 63 - 1 := by
  constructor
  · rw [show formatUtc (-2 * 10 ^ 9) = formatUtc (-2 * 10 ^ 9 + 10 ^ 9) from rfl]
    exact lt_irrefl _
  · rintro ⟨d, hcivil, hnumber⟩
    have hcomputed : (civilFromDays (2 ^ 63 - 1)).1 < 0 := by decide
    have hyear : d.year < 0 := by rwa [hcivil] at hcomputed
    have hwithin := date_within d
    have hmono := daysBeforeYear_mono (show d.year + 1 ≤ 0 by omega)
    have hzero : daysBeforeYear 0 = -1 := by decide
    unfold dayNumber at hnumber
    omega

end SprefaExtract
