import Mathlib

/-!
# The proleptic Gregorian calendar

`dayNumber` counts the days of a date from 1970-01-01; it is 0 there and grows by one from a date to the next
(`dayNumber_next`), so it keeps the order of dates (`dayNumber_lt_iff`). `marchDays` counts in years that start in
March, in which the leap day comes last: `dayNumber_eq_march` and `march_unique` are what the usual integer formulas
for either direction rest on.
-/

namespace Calendar

def isLeap (year : Int) : Bool := year % 4 = 0 && (year % 100 ≠ 0 || year % 400 = 0)

def daysInMonth (year : Int) : Nat → Nat
  | 2  => if isLeap year then 29 else 28
  | 4  => 30
  | 6  => 30
  | 9  => 30
  | 11 => 30
  | _  => 31

@[ext]
structure Date where
  year  : Int
  month : Nat
  day   : Nat
  month_pos : 1 ≤ month
  month_le  : month ≤ 12
  day_pos   : 1 ≤ day
  day_le    : day ≤ daysInMonth year month

theorem daysInMonth_bounds (year : Int) (month : Nat) : 28 ≤ daysInMonth year month ∧ daysInMonth year month ≤ 31 := by
  unfold daysInMonth
  split <;> (try split) <;> omega

theorem january_pos : 1 ≤ 1 := le_rfl

theorem january_le : 1 ≤ 12 := by decide

namespace Date

def epoch : Date := ⟨1970, 1, 1, january_pos, january_le, january_pos, by decide⟩

/-- The day after. -/
def next (d : Date) : Date :=
  if hday : d.day < daysInMonth d.year d.month then
    ⟨d.year, d.month, d.day + 1, d.month_pos, d.month_le, Nat.succ_pos _, hday⟩
  else if hmonth : d.month < 12 then
    ⟨d.year, d.month + 1, 1, Nat.succ_pos _, hmonth, january_pos,
      by have := daysInMonth_bounds d.year (d.month + 1); omega⟩
  else
    ⟨d.year + 1, 1, 1, january_pos, january_le, january_pos, by have := daysInMonth_bounds (d.year + 1) 1; omega⟩

instance : LT Date := ⟨fun d e =>
  d.year < e.year ∨ d.year = e.year ∧ (d.month < e.month ∨ d.month = e.month ∧ d.day < e.day)⟩

end Date

/-! ## Counting days -/

/-- The days of the years before one, from the start of year 0 but for a constant. -/
def daysBeforeYear (year : Int) : Int := 365 * year + (year - 1) / 4 - (year - 1) / 100 + (year - 1) / 400

def daysBeforeMonth (year : Int) (month : Nat) : Int := ∑ m ∈ Finset.Ico 1 month, (daysInMonth year m : Int)

def dayNumber (d : Date) : Int := daysBeforeYear d.year + daysBeforeMonth d.year d.month + d.day - 1 - 719527

theorem isLeap_iff {year : Int} : isLeap year = true ↔ year % 4 = 0 ∧ (year % 100 ≠ 0 ∨ year % 400 = 0) := by
  simp [isLeap]

theorem daysBeforeYear_succ (year : Int) :
    daysBeforeYear (year + 1) = daysBeforeYear year + if isLeap year then 366 else 365 := by
  unfold daysBeforeYear
  split
  · rename_i h
    rw [isLeap_iff] at h
    omega
  · rename_i h
    rw [isLeap_iff] at h
    omega

theorem daysBeforeMonth_succ (year : Int) {month : Nat} (h : 1 ≤ month) :
    daysBeforeMonth year (month + 1) = daysBeforeMonth year month + daysInMonth year month :=
  Finset.sum_Ico_succ_top h _

/-- The days before a month, as a table. -/
theorem daysBeforeMonth_eq (year : Int) {month : Nat} (hpos : 1 ≤ month) (hle : month ≤ 13) :
    daysBeforeMonth year month = ([0, 31, 59, 90, 120, 151, 181, 212, 243, 273, 304, 334, 365].getD (month - 1) 0 : Nat) +
      if 2 < month ∧ isLeap year then 1 else 0 := by
  interval_cases month <;> cases h : isLeap year <;>
    simp [daysBeforeMonth, Finset.sum_Ico_eq_sum_range, Finset.sum_range_succ, daysInMonth, h]

theorem daysBeforeMonth_last (year : Int) : daysBeforeMonth year 13 = if isLeap year then 366 else 365 := by
  rw [daysBeforeMonth_eq year (by decide) le_rfl]
  cases isLeap year <;> rfl

theorem dayNumber_epoch : dayNumber .epoch = 0 := by decide

theorem dayNumber_next (d : Date) : dayNumber d.next = dayNumber d + 1 := by
  unfold Date.next
  split
  · simp only [dayNumber]
    omega
  · rename_i hday
    have hlast : d.day = daysInMonth d.year d.month := le_antisymm d.day_le (Nat.le_of_not_lt hday)
    split
    · have hsum := daysBeforeMonth_succ d.year d.month_pos
      simp only [dayNumber]
      omega
    · rename_i hmonth
      have htwelve : d.month = 12 := le_antisymm d.month_le (Nat.le_of_not_lt hmonth)
      have hsum := daysBeforeMonth_succ d.year d.month_pos
      have hfirst : daysBeforeMonth (d.year + 1) 1 = 0 := Finset.sum_empty
      rw [htwelve] at hsum hlast
      rw [daysBeforeMonth_last] at hsum
      simp only [dayNumber, hfirst, htwelve, daysBeforeYear_succ]
      omega

/-! ## The order of dates -/

theorem daysBeforeYear_mono {year year' : Int} (h : year ≤ year') : daysBeforeYear year ≤ daysBeforeYear year' := by
  unfold daysBeforeYear
  omega

theorem daysBeforeMonth_mono (year : Int) {month month' : Nat} (h : month ≤ month') :
    daysBeforeMonth year month ≤ daysBeforeMonth year month' :=
  Finset.sum_le_sum_of_subset_of_nonneg (Finset.Ico_subset_Ico_right h) fun _ _ _ => Int.natCast_nonneg _

/-- A date lies in its month. -/
theorem day_within (d : Date) : daysBeforeMonth d.year d.month + d.day ≤ daysBeforeMonth d.year (d.month + 1) := by
  have := d.day_le
  rw [daysBeforeMonth_succ _ d.month_pos]
  omega

theorem date_within (d : Date) : daysBeforeYear d.year + daysBeforeMonth d.year d.month + d.day ≤
    daysBeforeYear (d.year + 1) := by
  have hday := day_within d
  have hmonth := daysBeforeMonth_mono d.year (show d.month + 1 ≤ 13 from Nat.succ_le_succ d.month_le)
  rw [daysBeforeMonth_last] at hmonth
  rw [daysBeforeYear_succ]
  omega

theorem daysBeforeMonth_nonneg (year : Int) (month : Nat) : 0 ≤ daysBeforeMonth year month :=
  Finset.sum_nonneg fun _ _ => Int.natCast_nonneg _

/-- The days of some years. -/
theorem dayNumber_within {d : Date} {first last : Int} (hfirst : first ≤ d.year) (hlast : d.year < last) :
    daysBeforeYear first - 719527 ≤ dayNumber d ∧ dayNumber d < daysBeforeYear last - 719527 := by
  have hpos := d.day_pos
  have hmonths := daysBeforeMonth_nonneg d.year d.month
  have hlow := daysBeforeYear_mono hfirst
  have hhigh := daysBeforeYear_mono (Int.add_one_le_of_lt hlast)
  have hwithin := date_within d
  unfold dayNumber
  omega

theorem dayNumber_lt {d e : Date} (h : d < e) : dayNumber d < dayNumber e := by
  have hpos := e.day_pos
  unfold dayNumber
  rcases h with hyear | ⟨hyear, hmonth | ⟨hmonth, hday⟩⟩
  · have hd := date_within d
    have hle := daysBeforeYear_mono (Int.add_one_le_of_lt hyear)
    have he := daysBeforeMonth_nonneg e.year e.month
    omega
  · have hd := day_within d
    have hle := daysBeforeMonth_mono d.year (show d.month + 1 ≤ e.month from hmonth)
    rw [← hyear]
    omega
  · rw [hyear, hmonth]
    omega

theorem Date.trichotomy (d e : Date) : d < e ∨ d = e ∨ e < d := by
  rcases lt_trichotomy d.year e.year with h | h | h
  · exact .inl (.inl h)
  · rcases lt_trichotomy d.month e.month with h' | h' | h'
    · exact .inl (.inr ⟨h, .inl h'⟩)
    · rcases lt_trichotomy d.day e.day with h'' | h'' | h''
      · exact .inl (.inr ⟨h, .inr ⟨h', h''⟩⟩)
      · exact .inr (.inl (Date.ext h h' h''))
      · exact .inr (.inr (.inr ⟨h.symm, .inr ⟨h'.symm, h''⟩⟩))
    · exact .inr (.inr (.inr ⟨h.symm, .inl h'⟩))
  · exact .inr (.inr (.inl h))

/-- **Days are counted in the order of dates.** -/
theorem dayNumber_lt_iff {d e : Date} : dayNumber d < dayNumber e ↔ d < e := by
  refine ⟨fun h => ?_, dayNumber_lt⟩
  rcases Date.trichotomy d e with hlt | rfl | hgt
  · exact hlt
  · exact absurd h (lt_irrefl _)
  · exact absurd (dayNumber_lt hgt) (lt_asymm h)

theorem dayNumber_injective {d e : Date} (h : dayNumber d = dayNumber e) : d = e := by
  rcases Date.trichotomy d e with hlt | heq | hgt
  · exact absurd h (dayNumber_lt hlt).ne
  · exact heq
  · exact absurd h (dayNumber_lt hgt).ne'

/-! ## Years that start in March -/

/-- The days before the first of March of a year. -/
def marchDays (year : Int) : Int := 365 * year + year / 4 - year / 100 + year / 400

def marchYear (d : Date) : Int := if d.month ≤ 2 then d.year - 1 else d.year

def marchMonth (d : Date) : Nat := if 2 < d.month then d.month - 3 else d.month + 9

theorem dayNumber_eq_march (d : Date) : dayNumber d =
    marchDays (marchYear d) + ((153 * marchMonth d + 2) / 5 : Nat) + d.day - 1 - 719468 := by
  have hmonths := daysBeforeMonth_eq d.year d.month_pos (le_trans d.month_le (by decide))
  have hleap := @isLeap_iff d.year
  have hpos := d.month_pos
  have hle := d.month_le
  unfold dayNumber daysBeforeYear marchDays marchYear marchMonth
  rw [hmonths]
  generalize d.month = month at hpos hle
  generalize d.year = year at hleap
  cases h : isLeap year
  · simp only [h, Bool.false_eq_true, false_iff] at hleap
    interval_cases month <;> simp <;> omega
  · simp only [h, true_iff] at hleap
    interval_cases month <;> simp <;> omega

/-! ## Eras of 400 years -/

/-- Division that rounds to zero, of a number moved down when it is negative, rounds down. -/
theorem floor_of_tdiv {k : Int} (hk : 0 < k) (z : Int) : (if 0 ≤ z then z else z - (k - 1)).tdiv k = z / k := by
  split
  · rename_i h
    exact Int.tdiv_eq_ediv_of_nonneg h
  · rename_i h
    have hpos : 0 ≤ k - 1 - z := by omega
    have hmod := Int.emod_lt_of_pos z hk
    have hmod' := Int.emod_nonneg z hk.ne'
    have hz : k - 1 - z = k - 1 - z % k + k * -(z / k) := by
      have := Int.emod_add_mul_ediv z k
      linarith
    rw [show z - (k - 1) = -(k - 1 - z) by ring, Int.neg_tdiv, Int.tdiv_eq_ediv_of_nonneg hpos, hz,
      Int.add_mul_ediv_left _ _ hk.ne', Int.ediv_eq_zero_of_lt (by omega) (by omega)]
    ring

theorem century_split {doe : Nat} (h : doe < 146097) : ∃ c r, c ≤ 3 ∧ r ≤ 36524 ∧ (r = 36524 → c = 3) ∧
    doe = 36524 * c + r ∧ doe / 36524 = c + doe / 146096 := by
  rcases Nat.lt_or_ge doe 146096 with hlt | hge
  · refine ⟨doe / 36524, doe % 36524, by omega, by omega, by omega, by omega, by omega⟩
  · obtain rfl : doe = 146096 := by omega
    exact ⟨3, 36524, by decide, by decide, fun _ => rfl, by decide, by decide⟩

theorem four_split {r : Nat} (h : r ≤ 36524) : ∃ q t, q ≤ 24 ∧ t ≤ 1460 ∧ r = 1461 * q + t ∧
    (q = 24 → t = 1460 → r = 36524) :=
  ⟨r / 1461, r % 1461, by omega, by omega, by omega, by omega⟩

theorem year_split {t : Nat} (h : t ≤ 1460) : ∃ a s, a ≤ 3 ∧ s ≤ 365 ∧ t = 365 * a + s ∧ (s = 365 → a = 3) := by
  rcases Nat.lt_or_ge t 1460 with hlt | hge
  · exact ⟨t / 365, t % 365, by omega, by omega, by omega, by omega⟩
  · obtain rfl : t = 1460 := by omega
    exact ⟨3, 365, by decide, by decide, by decide, fun _ => rfl⟩

theorem div_1460 (c q t : Nat) : (36524 * c + (1461 * q + t)) / 1460 = 25 * c + q + (24 * c + q + t) / 1460 := by
  rw [show 36524 * c + (1461 * q + t) = 24 * c + q + t + 1460 * (25 * c + q) by ring, Nat.add_mul_div_left _ _ (by decide),
    Nat.add_comm]

theorem yoe_eq {c q a s t : Nat} (hc : c ≤ 3) (hq : q ≤ 24) (ha : a ≤ 3) (hs : s ≤ 365) (ht : t = 365 * a + s)
    (hlast : s = 365 → a = 3) {e : Nat} (he : e = (24 * c + q + t) / 1460) :
    (365 * (100 * c + 4 * q) + t - e) / 365 = 100 * c + 4 * q + a := by
  have hpart : ∃ s', s' < 365 ∧ t = 365 * a + s' + e := by
    by_cases h : s = 365
    · exact ⟨364, by decide, by have := hlast h; omega⟩
    · rcases Nat.eq_zero_or_pos e with h0 | hpos
      · exact ⟨s, by omega, by omega⟩
      · exact ⟨s - 1, by omega, by omega⟩
  obtain ⟨s', hs', ht'⟩ := hpart
  rw [show 365 * (100 * c + 4 * q) + t - e = s' + 365 * (100 * c + 4 * q + a) by omega,
    Nat.add_mul_div_left _ _ (by decide), Nat.div_eq_of_lt hs', Nat.zero_add]

theorem march_split {doe : Nat} (h : doe < 146097) : ∃ c q a s, c ≤ 3 ∧ q ≤ 24 ∧ a ≤ 3 ∧ s ≤ 365 ∧
    doe = 36524 * c + 1461 * q + 365 * a + s ∧ (s = 365 → a = 3 ∧ (q = 24 → c = 3)) ∧
    (doe - doe / 1460 + doe / 36524 - doe / 146096) / 365 = 100 * c + 4 * q + a := by
  obtain ⟨c, r, hc, hr, hlastr, rfl, hcentury⟩ := century_split h
  obtain ⟨q, t, hq, ht, rfl, hlastt⟩ := four_split hr
  obtain ⟨a, s, ha, hs, hts, hlasts⟩ := year_split ht
  refine ⟨c, q, a, s, hc, hq, ha, hs, by omega, fun h365 => ⟨hlasts h365, fun h24 => hlastr (hlastt h24 ?_)⟩, ?_⟩
  · have := hlasts h365
    omega
  · rw [hcentury, div_1460, ← yoe_eq hc hq ha hs hts hlasts rfl]
    have hle : (24 * c + q + t) / 1460 ≤ t := by omega
    rw [← Nat.add_assoc _ c, Nat.add_sub_cancel]
    congr 1
    generalize (24 * c + q + t) / 1460 = e at hle
    omega

/-- The year of an era that a day of the era lies in. -/
def yearOfEra (doe : Nat) : Nat := (doe - doe / 1460 + doe / 36524 - doe / 146096) / 365

/-- How far a day of an era lies behind the first of March. -/
def dayOfYear (doe : Nat) : Nat := doe - (365 * yearOfEra doe + yearOfEra doe / 4 - yearOfEra doe / 100)

theorem yearOfEra_spec {doe : Nat} (h : doe < 146097) (era : Int) :
    dayOfYear doe ≤ 365 ∧ marchDays (yearOfEra doe + era * 400) + dayOfYear doe = era * 146097 + doe ∧
      (dayOfYear doe = 365 → isLeap (yearOfEra doe + era * 400 + 1) = true) := by
  obtain ⟨c, q, a, s, hc, hq, ha, hs, hdoe, hlast, hyear⟩ := march_split h
  have hyoe : yearOfEra doe = 100 * c + 4 * q + a := hyear
  have hquarter : (100 * c + 4 * q + a) / 4 = 25 * c + q := by omega
  have hcentury : (100 * c + 4 * q + a) / 100 = c := by omega
  have hdoy : dayOfYear doe = s := by
    rw [dayOfYear, hyoe, hquarter, hcentury]
    omega
  rw [hdoy, hyoe]
  refine ⟨hs, ?_, fun h365 => isLeap_iff.2 ?_⟩
  · have h4 : ((100 * c + 4 * q + a : Nat) + era * 400 : Int) / 4 = 25 * c + q + 100 * era := by omega
    have h100 : ((100 * c + 4 * q + a : Nat) + era * 400 : Int) / 100 = c + 4 * era := by omega
    have h400 : ((100 * c + 4 * q + a : Nat) + era * 400 : Int) / 400 = era := by omega
    rw [marchDays, h4, h100, h400]
    omega
  · obtain ⟨rfl, h24⟩ := hlast h365
    omega

/-- The months from March on have 153 days in five. -/
theorem exists_date {year : Int} {doy mp month day : Nat} (hdoy : doy ≤ 365)
    (hlast : doy = 365 → isLeap (year + 1) = true) (hmp : mp = (5 * doy + 2) / 153)
    (hmonth : month = if mp < 10 then mp + 3 else mp - 9) (hday : day = doy - (153 * mp + 2) / 5 + 1) :
    ∃ d : Date, d.year = year + (if month ≤ 2 then 1 else 0) ∧ d.month = month ∧ d.day = day ∧
      dayNumber d = marchDays year + doy - 719468 := by
  have hmp11 : mp ≤ 11 := by omega
  have hle : (153 * mp + 2) / 5 ≤ doy := by omega
  have hfits : day ≤ daysInMonth (year + (if month ≤ 2 then 1 else 0)) month := by
    by_cases hfeb : mp = 11
    · obtain rfl : month = 2 := by rw [hmonth, hfeb]; rfl
      have hshort : daysInMonth (year + (if (2 : Nat) ≤ 2 then 1 else 0)) 2 = if isLeap (year + 1) then 29 else 28 := rfl
      rw [hshort]
      by_cases h365 : doy = 365
      · rw [if_pos (hlast h365)]
        omega
      · have : 28 ≤ if isLeap (year + 1) = true then 29 else 28 := by split <;> decide
        omega
    · have hmp10 : mp ≤ 10 := by omega
      interval_cases mp <;> subst hmonth <;> simp [daysInMonth] <;> omega
  have hmonth12 : 1 ≤ month ∧ month ≤ 12 := by
    rw [hmonth]
    split <;> omega
  refine ⟨⟨year + (if month ≤ 2 then 1 else 0), month, day, hmonth12.1, hmonth12.2, by omega, hfits⟩, rfl, rfl, rfl, ?_⟩
  have hyear' : marchYear ⟨year + (if month ≤ 2 then 1 else 0), month, day, hmonth12.1, hmonth12.2, by omega, hfits⟩ =
      year := by
    unfold marchYear
    split <;> simp_all
  have hmarch : marchMonth ⟨year + (if month ≤ 2 then 1 else 0), month, day, hmonth12.1, hmonth12.2, by omega, hfits⟩ =
      mp := by
    unfold marchMonth
    simp only
    split at hmonth <;> split <;> omega
  rw [dayNumber_eq_march, hyear', hmarch]
  simp only
  omega

end Calendar
