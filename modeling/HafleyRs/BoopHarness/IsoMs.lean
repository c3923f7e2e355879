import HafleyRs.Lib.Calendar
import HafleyRs.Lib.Decimal
import HafleyRs.Lib.Utf8
import HafleyRs.BoopHarness.Messages

/-!
# The two readers of a time stamp (`crates/boop-harness/src/transcript.rs:63-93`, `crates/boop-store/src/session.rs:357`)

| here | there |
| --- | --- |
| `Stamp`, `Stamp.text` | an RFC 3339 time stamp of the years 1970 to 9999 |
| `isoToMs` | `iso_to_ms`, in `Messages` |
| `parseIsoMs` | `parse_iso_ms`; `parse` is `OffsetDateTime::parse` with `Rfc3339`: seconds from the epoch and nanoseconds |
| `Stamp.instant` | what `parse` returns on a time stamp |

`iso_to_ms` reads fixed places: the offset is left out, and a fraction counts only when its first three digits are
there. On second 60 the `time` crate returns the last nanosecond before it.
-/

namespace BoopHarness.Transcripts
open Calendar Decimal Utf8

/-! ## Time stamps -/

inductive Offset
  | utc (upper : Bool)
  | numeric (west : Bool) (hours : Fin 24) (minutes : Fin 60)

/-- Minutes ahead of UTC. -/
def Offset.ahead : Offset → Int
  | .utc _ => 0
  | .numeric west hours minutes => if west then -(60 * hours + minutes : Int) else 60 * hours + minutes

def Offset.text : Offset → List Char
  | .utc upper => if upper then ['Z'] else ['z']
  | .numeric west hours minutes => (if west then '-' else '+') :: (pad 2 hours ++ ':' :: pad 2 minutes)

/-- Second 60 is the last one of a month in UTC. -/
structure Stamp where
  date     : Date
  upperT   : Bool
  hour     : Nat
  minute   : Nat
  second   : Nat
  fraction : List (Fin 10)
  offset   : Offset
  year_low  : 1970 ≤ date.year
  year_high : date.year ≤ 9999
  hour_lt   : hour < 24
  minute_lt : minute < 60
  second_le : second ≤ 60
  leap      : second = 60 → ∃ last : Date, last.next.day = 1 ∧
    1440 * dayNumber last + 1439 = 1440 * dayNumber date + 60 * hour + minute - offset.ahead

namespace Stamp

def digits (t : Stamp) : List Nat := t.fraction.map Fin.val

def fractionText (t : Stamp) : List Char := if t.fraction = [] then [] else '.' :: t.digits.map Nat.digitChar

def toSecond (t : Stamp) : List Char :=
  pad 4 t.date.year.toNat ++ '-' :: (pad 2 t.date.month ++ '-' :: (pad 2 t.date.day ++
    (if t.upperT then 'T' else 't') :: (pad 2 t.hour ++ ':' :: (pad 2 t.minute ++ ':' :: pad 2 t.second))))

def text (t : Stamp) : List Char := t.toSecond ++ (t.fractionText ++ t.offset.text)

/-- The seconds its fields count, wherever it is. -/
def wall (t : Stamp) : Int := 86400 * dayNumber t.date + 3600 * t.hour + 60 * t.minute + t.second

/-- The first nine digits of the fraction. -/
def nanosecond (t : Stamp) : Nat := value ((t.digits ++ List.replicate 9 0).take 9)

def instant (t : Stamp) : Int × Nat :=
  if t.second = 60 then (t.wall - 1 - 60 * t.offset.ahead, 999999999)
  else (t.wall - 60 * t.offset.ahead, t.nanosecond)

/-- The readers agree: no offset, no second 60, and three digits of the fraction or none but zeros. -/
def Plain (t : Stamp) : Prop :=
  t.offset.ahead = 0 ∧ t.second < 60 ∧ (3 ≤ t.fraction.length ∨ ∀ d ∈ t.fraction, d = 0)

end Stamp

/-! ## The readers -/

/-- `u64` products and sums that fit. -/
def fitU64 (n : Nat) : Option Nat := if n < 2 ^ 64 then some n else none

def parseIsoMs (parse : String → Option (Int × Nat)) (text : String) : Option Nat := do
  let parsed ← parse text
  let seconds ← if 0 ≤ parsed.1 then some parsed.1.toNat else none
  let ms ← fitU64 (seconds * 1000)
  fitU64 (ms + parsed.2 / 10 ^ 6)

/-! ## Fields at fixed places -/

theorem digit_byte : ∀ d < 10, isDigitByte (Nat.digitChar d).toUInt8 = true ∧
    ((Nat.digitChar d).toUInt8.toNat : Int) - 48 = d ∧ isAscii (Nat.digitChar d) = true := by decide

theorem digit_bytes_lead : ∀ d < 10, (Nat.digitChar d).toUInt8 ≠ 43 ∧ (Nat.digitChar d).toUInt8 ≠ 45 := by decide

/-- Digits are read as their number. -/
theorem parseDigits_digits {ds : List Nat} (hne : ds ≠ []) (h : ∀ d ∈ ds, d < 10) :
    parseDigits (ds.map fun d => (Nat.digitChar d).toUInt8) = some (value ds : Int) := by
  have hfold : ∀ (l : List Nat) (n : Nat), (∀ d ∈ l, d < 10) →
      (l.map fun d => (Nat.digitChar d).toUInt8).foldl (fun (n : Int) b => 10 * n + (b.toNat - 48)) n =
        (l.foldl (fun n d => 10 * n + d) n : Nat) := by
    intro l
    induction l with
    | nil => exact fun n _ => rfl
    | cons d l ih =>
      intro n hl
      obtain ⟨hd, hl⟩ := List.forall_mem_cons.1 hl
      have hstep : (10 * (n : Int) + (((Nat.digitChar d).toUInt8.toNat : Int) - 48)) = ((10 * n + d : Nat) : Int) := by
        rw [(digit_byte d hd).2.1]
        push_cast
        rfl
      rw [List.map_cons, List.foldl_cons, hstep, ih _ hl, List.foldl_cons]
  obtain ⟨d, ds, rfl⟩ := List.exists_cons_of_ne_nil hne
  have hlead := digit_bytes_lead d (h d List.mem_cons_self)
  have hany : ((d :: ds).map fun d => (Nat.digitChar d).toUInt8).any (fun b => !isDigitByte b) = false := by
    refine List.any_eq_false.2 fun b hb => ?_
    obtain ⟨e, he, rfl⟩ := List.mem_map.1 hb
    rw [(digit_byte e (h e he)).1]
    decide
  unfold parseDigits
  split
  · rename_i heq
    exact absurd (List.cons.inj heq).1 hlead.1
  · rename_i heq
    exact absurd (List.cons.inj heq).1 hlead.2
  · have hnumber := hfold (d :: ds) 0 h
    have hempty : ((d :: ds).map fun d => (Nat.digitChar d).toUInt8).isEmpty = false := rfl
    dsimp only
    rw [hempty, hany, Bool.or_false, if_neg Bool.false_ne_true, value, ← hnumber]
    rfl

/-- What stands between two places. -/
theorem field_at {whole : List UInt8} (a b c : List UInt8) {start stop : Nat} (h : whole = a ++ (b ++ c))
    (hstart : start = a.length) (hstop : stop = start + b.length) : field whole start stop = parseDigits b := by
  subst h hstart hstop
  rw [field, if_neg (by simp), List.drop_left, Nat.add_sub_cancel_left, List.take_left]

/-- A byte that is no digit spoils a field. -/
theorem parseDigits_spoilt {b x : UInt8} {rest : List UInt8} (hb : isDigitByte b = true) (hx : x ∈ rest)
    (hspoilt : isDigitByte x = false) : parseDigits (b :: rest) = none := by
  have hany : (b :: rest).any (fun b => !isDigitByte b) = true :=
    List.any_eq_true.2 ⟨x, List.mem_cons_of_mem _ hx, by rw [hspoilt]; rfl⟩
  unfold parseDigits
  split
  · rename_i heq
    rw [(List.cons.inj heq).1] at hb
    exact absurd hb (by decide)
  · rename_i heq
    rw [(List.cons.inj heq).1] at hb
    exact absurd hb (by decide)
  · dsimp only
    rw [hany, Bool.or_true, if_pos rfl]

theorem bytes_digits {ds : List Nat} (h : ∀ d ∈ ds, d < 10) :
    bytes (ds.map Nat.digitChar) = ds.map fun d => (Nat.digitChar d).toUInt8 := by
  rw [bytes_ascii fun c hc => ?_, List.map_map]
  · rfl
  · obtain ⟨d, hd, rfl⟩ := List.mem_map.1 hc
    exact (digit_byte d (h d hd)).2.2

theorem length_bytes_pad (w n : Nat) : (bytes (pad w n)).length = w := by
  obtain ⟨ds, hlen, hlt, hpad, -⟩ := pad_digits w n
  rw [hpad, bytes_digits hlt, List.length_map, hlen]

theorem parseDigits_pad {w n : Nat} (hw : 0 < w) (hn : n < 10 ^ w) :
    parseDigits (bytes (pad w n)) = some (n : Int) := by
  obtain ⟨ds, hlen, hlt, hpad, hvalue⟩ := pad_digits w n
  have hne : ds ≠ [] := List.ne_nil_of_length_pos (by omega)
  rw [hpad, bytes_digits hlt, parseDigits_digits hne hlt, hvalue, Nat.mod_eq_of_lt hn]

theorem bytes_char {c : Char} (h : isAscii c = true) (t : List Char) : bytes (c :: t) = c.toUInt8 :: bytes t := by
  rw [bytes_cons, encode_ascii h, List.singleton_append]

namespace Stamp

/-- The bytes up to the second, field by field. -/
theorem bytes_toSecond (t : Stamp) : bytes t.toSecond = bytes (pad 4 t.date.year.toNat) ++ 45 ::
    (bytes (pad 2 t.date.month) ++ 45 :: (bytes (pad 2 t.date.day) ++ (if t.upperT then 84 else 116) ::
      (bytes (pad 2 t.hour) ++ 58 :: (bytes (pad 2 t.minute) ++ 58 :: bytes (pad 2 t.second))))) := by
  have hT : isAscii (if t.upperT then 'T' else 't') = true := by split <;> decide
  have hbyte : (if t.upperT then 'T' else 't').toUInt8 = if t.upperT then 84 else 116 := by split <;> decide
  rw [toSecond, bytes_append, bytes_char (by decide), bytes_append, bytes_char (by decide), bytes_append,
    bytes_char hT, hbyte, bytes_append, bytes_char (by decide), bytes_append, bytes_char (by decide)]
  rfl

theorem length_bytes_toSecond (t : Stamp) : (bytes t.toSecond).length = 19 := by
  simp [bytes_toSecond, length_bytes_pad]

theorem year_lt (t : Stamp) : t.date.year.toNat < 10 ^ 4 := by
  have := t.year_high
  omega

theorem month_lt (t : Stamp) : t.date.month < 10 ^ 2 := by
  have := t.date.month_le
  omega

theorem day_lt (t : Stamp) : t.date.day < 10 ^ 2 := by
  have := t.date.day_le
  have := daysInMonth_bounds t.date.year t.date.month
  omega

/-- The six fields in front, whatever follows. -/
theorem fields (t : Stamp) (rest : List UInt8) :
    field (bytes t.toSecond ++ rest) 0 4 = some (t.date.year.toNat : Int) ∧
      field (bytes t.toSecond ++ rest) 5 7 = some (t.date.month : Int) ∧
      field (bytes t.toSecond ++ rest) 8 10 = some (t.date.day : Int) ∧
      field (bytes t.toSecond ++ rest) 11 13 = some (t.hour : Int) ∧
      field (bytes t.toSecond ++ rest) 14 16 = some (t.minute : Int) ∧
      field (bytes t.toSecond ++ rest) 17 19 = some (t.second : Int) := by
  have hhour := t.hour_lt
  have hminute := t.minute_lt
  have hsecond := t.second_le
  rw [bytes_toSecond]
  generalize (if t.upperT then 84 else 116 : UInt8) = sep
  set y := bytes (pad 4 t.date.year.toNat)
  set mo := bytes (pad 2 t.date.month)
  set da := bytes (pad 2 t.date.day)
  set hh := bytes (pad 2 t.hour)
  set mi := bytes (pad 2 t.minute)
  set ss := bytes (pad 2 t.second)
  have hy : y.length = 4 := length_bytes_pad _ _
  have hmo : mo.length = 2 := length_bytes_pad _ _
  have hda : da.length = 2 := length_bytes_pad _ _
  have hhh : hh.length = 2 := length_bytes_pad _ _
  have hmi : mi.length = 2 := length_bytes_pad _ _
  have hss : ss.length = 2 := length_bytes_pad _ _
  refine ⟨?_, ?_, ?_, ?_, ?_, ?_⟩
  · rw [field_at [] y _ (by simp only [List.append_assoc, List.nil_append]; rfl) (by rfl) (by simp [hy])]
    exact parseDigits_pad (by decide) (year_lt t)
  · rw [field_at (y ++ [45]) mo _ (by simp only [List.append_assoc, List.cons_append, List.nil_append]; rfl)
      (by simp [hy]) (by simp [hmo])]
    exact parseDigits_pad (by decide) (month_lt t)
  · rw [field_at (y ++ 45 :: (mo ++ [45])) da _
      (by simp only [List.append_assoc, List.cons_append, List.nil_append]; rfl) (by simp [hy, hmo]) (by simp [hda])]
    exact parseDigits_pad (by decide) (day_lt t)
  · rw [field_at (y ++ 45 :: (mo ++ 45 :: (da ++ [sep]))) hh _
      (by simp only [List.append_assoc, List.cons_append, List.nil_append]; rfl) (by simp [hy, hmo, hda])
        (by simp [hhh])]
    exact parseDigits_pad (by decide) (by omega)
  · rw [field_at (y ++ 45 :: (mo ++ 45 :: (da ++ sep :: (hh ++ [58])))) mi _
      (by simp only [List.append_assoc, List.cons_append, List.nil_append]; rfl) (by simp [hy, hmo, hda, hhh])
      (by simp [hmi])]
    exact parseDigits_pad (by decide) (by omega)
  · rw [field_at (y ++ 45 :: (mo ++ 45 :: (da ++ sep :: (hh ++ 58 :: (mi ++ [58]))))) ss rest
      (by simp only [List.append_assoc, List.cons_append, List.nil_append]) (by simp [hy, hmo, hda, hhh, hmi])
      (by simp [hss])]
    exact parseDigits_pad (by decide) (by omega)

theorem digits_lt (t : Stamp) : ∀ d ∈ t.digits, d < 10 := by
  intro d hd
  obtain ⟨e, -, rfl⟩ := List.mem_map.1 hd
  exact e.2

theorem length_digits (t : Stamp) : t.digits.length = t.fraction.length := List.length_map _

/-- The bytes behind the second. -/
theorem bytes_tail (t : Stamp) : bytes (t.fractionText ++ t.offset.text) =
    (if t.fraction = [] then [] else 46 :: t.digits.map fun d => (Nat.digitChar d).toUInt8) ++ bytes t.offset.text := by
  rw [bytes_append, fractionText]
  split
  · rfl
  · rw [bytes_char (by decide), bytes_digits t.digits_lt]
    rfl

theorem bytes_offset (o : Offset) : (∃ b, bytes o.text = [b] ∧ isDigitByte b = false) ∨
    ∃ sign h₁ h₂ rest, bytes o.text = sign :: h₁ :: h₂ :: 58 :: rest ∧ isDigitByte sign = false ∧
      isDigitByte h₁ = true := by
  cases o with
  | utc upper => cases upper <;> exact .inl ⟨_, rfl, by decide⟩
  | numeric west hours minutes =>
    right
    have hsign : isAscii (if west then '-' else '+') = true := by cases west <;> decide
    obtain ⟨ds, hlen, hlt, hpad, -⟩ := pad_digits 2 hours
    obtain ⟨d₁, d₂, rfl⟩ := List.length_eq_two.1 hlen
    have htext : bytes (Offset.numeric west hours minutes).text = (if west then '-' else '+').toUInt8 ::
        (Nat.digitChar d₁).toUInt8 :: (Nat.digitChar d₂).toUInt8 :: 58 :: bytes (pad 2 minutes) := by
      rw [Offset.text, bytes_char hsign, bytes_append, bytes_char (by decide), hpad, bytes_digits hlt]
      rfl
    exact ⟨_, _, _, _, htext, by cases west <;> decide, (digit_byte d₁ (hlt d₁ List.mem_cons_self)).1⟩

/-- The milliseconds that `iso_to_ms` finds: three digits of the fraction, or nothing. -/
def readMs (t : Stamp) : Nat := if 3 ≤ t.fraction.length then value (t.digits.take 3) else 0

theorem field_ms (t : Stamp) : (field (bytes t.text) 20 23).getD 0 = t.readMs := by
  have hdigit : ∀ d ∈ t.digits, isDigitByte (Nat.digitChar d).toUInt8 = true := fun d hd =>
    (digit_byte d (t.digits_lt d hd)).1
  have hfront := t.length_bytes_toSecond
  have hlt := t.digits_lt
  have hnil : t.fraction = [] ↔ t.digits = [] := List.map_eq_nil_iff.symm
  rw [text, bytes_append, bytes_tail, readMs, ← length_digits]
  simp only [hnil]
  generalize t.digits = ds at hdigit hlt
  generalize bytes t.toSecond = front at hfront
  have hoffset := bytes_offset t.offset
  generalize bytes t.offset.text = tail at hoffset
  match ds with
  | [] =>
    rcases hoffset with ⟨b, rfl, -⟩ | ⟨sign, h₁, h₂, rest, rfl, -, hh⟩
    · simp [field, hfront]
    · rw [field_at (front ++ [sign]) [h₁, h₂, 58] rest (by simp) (by simp [hfront]) (by rfl),
        parseDigits_spoilt hh (x := 58) (by simp) (by decide)]
      rfl
  | [d₁] =>
    rcases hoffset with ⟨b, rfl, -⟩ | ⟨sign, h₁, h₂, rest, rfl, hsign, -⟩
    · simp [field, hfront]
    · rw [field_at (front ++ [46]) [(Nat.digitChar d₁).toUInt8, sign, h₁] (h₂ :: 58 :: rest) (by simp)
        (by simp [hfront]) (by rfl), parseDigits_spoilt (hdigit d₁ (by simp)) (x := sign) (by simp) hsign]
      rfl
  | [d₁, d₂] =>
    have hspoilt : ∃ b rest, tail = b :: rest ∧ isDigitByte b = false := by
      rcases hoffset with ⟨b, rfl, hb⟩ | ⟨sign, h₁, h₂, rest, rfl, hsign, -⟩
      · exact ⟨b, _, rfl, hb⟩
      · exact ⟨sign, _, rfl, hsign⟩
    obtain ⟨b, rest, rfl, hb⟩ := hspoilt
    rw [field_at (front ++ [46]) [(Nat.digitChar d₁).toUInt8, (Nat.digitChar d₂).toUInt8, b] rest (by simp)
      (by simp [hfront]) (by rfl), parseDigits_spoilt (hdigit d₁ (by simp)) (x := b) (by simp) hb]
    rfl
  | d₁ :: d₂ :: d₃ :: ds =>
    have hthree : ∀ d ∈ [d₁, d₂, d₃], d < 10 := fun d hd => hlt d (by
      simp only [List.mem_cons, List.not_mem_nil, or_false] at hd
      rcases hd with rfl | rfl | rfl <;> simp)
    rw [field_at (front ++ [46]) ([d₁, d₂, d₃].map fun d => (Nat.digitChar d).toUInt8)
      ((ds.map fun d => (Nat.digitChar d).toUInt8) ++ tail) (by simp) (by simp [hfront]) (by rfl),
      parseDigits_digits (List.cons_ne_nil _ _) hthree, if_pos (by simp)]
    rfl

/-! ## What the readers return -/

theorem era_days (y : Int) : y / 400 * 146097 + ((y - y / 400 * 400) * 365 + (y - y / 400 * 400) / 4 -
    (y - y / 400 * 400) / 100) = marchDays y := by
  unfold marchDays
  omega

/-- The days of `iso_to_ms`, from the fields of a date. -/
theorem days_eq (d : Date) (hlow : 0 ≤ d.year) :
    let y : Int := if (d.month : Int) ≤ 2 then (d.year.toNat : Int) - 1 else d.year.toNat
    let era := (if 0 ≤ y then y else y - 399).tdiv 400
    let yoe := y - era * 400
    let doy := (153 * (if (d.month : Int) > 2 then (d.month : Int) - 3 else d.month + 9) + 2).tdiv 5 + d.day - 1
    era * 146097 + (yoe * 365 + yoe.tdiv 4 - yoe.tdiv 100 + doy) - 719468 = dayNumber d := by
  intro y era yoe doy
  have hy : y = marchYear d := by
    simp only [y, marchYear, Int.toNat_of_nonneg hlow]
    split <;> split <;> omega
  have hera : era = y / 400 := floor_of_tdiv (show (0 : Int) < 400 by decide) y
  have hyoe : 0 ≤ yoe := by simp only [yoe, hera]; omega
  have hmonth : (if (d.month : Int) > 2 then (d.month : Int) - 3 else d.month + 9) = marchMonth d := by
    unfold marchMonth
    split <;> split <;> omega
  have hdoy : doy = ((153 * marchMonth d + 2) / 5 : Nat) + d.day - 1 := by
    simp only [doy, hmonth]
    rw [Int.tdiv_eq_ediv_of_nonneg (by omega)]
    omega
  have hdays := era_days y
  rw [dayNumber_eq_march, ← hy, ← hdays, hdoy, Int.tdiv_eq_ediv_of_nonneg hyoe, Int.tdiv_eq_ediv_of_nonneg hyoe]
  simp only [yoe, hera]
  ring

theorem date_bounds (t : Stamp) : 0 ≤ dayNumber t.date ∧ dayNumber t.date < 2932897 := by
  have hwithin := dayNumber_within t.year_low (Int.lt_add_one_of_le t.year_high)
  have hfirst : daysBeforeYear 1970 = 719527 := by decide
  have hlast : daysBeforeYear (9999 + 1) = 3652424 := by decide
  omega

theorem wall_bounds (t : Stamp) : 0 ≤ t.wall ∧ t.wall < 2 ^ 40 := by
  have hdays := t.date_bounds
  have hhour := t.hour_lt
  have hminute := t.minute_lt
  have hsecond := t.second_le
  unfold wall
  omega

theorem value_take_three (t : Stamp) : value (t.digits.take 3) < 1000 := by
  have hlt := @value_lt (t.digits.take 3) fun d hd => t.digits_lt d (List.mem_of_mem_take hd)
  have hpow : 10 ^ (t.digits.take 3).length ≤ 10 ^ 3 := Nat.pow_le_pow_right (by decide) (List.length_take_le _ _)
  omega

theorem readMs_lt (t : Stamp) : t.readMs < 1000 := by
  unfold readMs
  split
  · exact t.value_take_three
  · decide

/-- **`iso_to_ms`** counts the fields and the first three digits of the fraction. -/
theorem isoToMs_text (t : Stamp) : (isoToMs (.ofList t.text) : Int) = 1000 * t.wall + t.readMs := by
  have hsplit : bytes t.text = bytes t.toSecond ++ bytes (t.fractionText ++ t.offset.text) := by
    rw [text, bytes_append]
  obtain ⟨hyr, hmo, hda, hhh, hmi, hss⟩ := t.fields (bytes (t.fractionText ++ t.offset.text))
  rw [← hsplit] at hyr hmo hda hhh hmi hss
  have hlong : ¬ (bytes t.text).length < 19 := by
    rw [hsplit, List.length_append, length_bytes_toSecond]
    omega
  have hwall : (dayNumber t.date * 86400 + t.hour * 3600 + t.minute * 60 + t.second : Int) = t.wall := by
    unfold wall
    ring
  have hbounds := t.wall_bounds
  have hms := t.readMs_lt
  rw [isoToMs, chronoLite]
  simp only [toList_toUTF8, hlong, if_false, hyr, hmo, hda, hhh, hmi, hss, t.field_ms, Option.bind_some, Option.pure_def,
    Option.bind_eq_bind, Option.getD_some]
  rw [days_eq t.date (le_trans (by decide) t.year_low), hwall, Int.emod_eq_of_lt (by omega) (by omega),
    Int.toNat_of_nonneg (by omega)]
  ring

/-- The milliseconds of the fraction. -/
def millisecond (t : Stamp) : Nat := value ((t.digits ++ List.replicate 9 0).take 3)

theorem nanosecond_div (t : Stamp) : t.nanosecond / 10 ^ 6 = t.millisecond := by
  have hlt : ∀ d ∈ t.digits ++ List.replicate 9 0, d < 10 := by
    intro d hd
    rcases List.mem_append.1 hd with hd | hd
    · exact t.digits_lt d hd
    · rw [List.eq_of_mem_replicate hd]
      decide
  rw [nanosecond, millisecond]
  generalize hds : t.digits ++ List.replicate 9 0 = ds at hlt
  have hlen : 9 ≤ ds.length := by simp [← hds]
  have hsplit : ds.take 9 = ds.take 3 ++ (ds.take 9).drop 3 := by
    have hthree : ds.take 3 = (ds.take 9).take 3 := by rw [List.take_take]; rfl
    rw [hthree, List.take_append_drop]
  have hrest : ((ds.take 9).drop 3).length = 6 := by
    rw [List.length_drop, List.length_take]
    omega
  have hsmall := @value_lt ((ds.take 9).drop 3) fun d hd => hlt d (List.mem_of_mem_take (List.mem_of_mem_drop hd))
  rw [hrest] at hsmall
  rw [hsplit, value_append, hrest]
  omega

theorem millisecond_lt (t : Stamp) : t.millisecond < 1000 := by
  have hlt : ∀ d ∈ (t.digits ++ List.replicate 9 0).take 3, d < 10 := by
    intro d hd
    rcases List.mem_append.1 (List.mem_of_mem_take hd) with hd | hd
    · exact t.digits_lt d hd
    · rw [List.eq_of_mem_replicate hd]
      decide
  have hpow : 10 ^ ((t.digits ++ List.replicate 9 0).take 3).length ≤ 10 ^ 3 :=
    Nat.pow_le_pow_right (by decide) (List.length_take_le _ _)
  have := value_lt hlt
  unfold millisecond
  omega

theorem readMs_eq_iff (t : Stamp) : t.readMs = t.millisecond ↔ 3 ≤ t.fraction.length ∨ ∀ d ∈ t.fraction, d = 0 := by
  have hzero : (∀ d ∈ t.digits, d = 0) ↔ ∀ d ∈ t.fraction, d = 0 := by
    rw [digits, List.forall_mem_map]
    exact forall₂_congr fun d _ => Fin.val_eq_zero_iff
  rw [readMs, millisecond, ← t.length_digits, ← hzero]
  split
  · rename_i h
    rw [List.take_append_of_le_length h]
    exact iff_of_true rfl (.inl h)
  · rename_i h
    rw [or_iff_right h, eq_comm, value_eq_zero, List.take_append, List.take_of_length_le (by omega)]
    constructor
    · exact fun hall d hd => hall d (List.mem_append_left _ hd)
    · intro hall d hd
      rcases List.mem_append.1 hd with hd | hd
      · exact hall d hd
      · exact List.eq_of_mem_replicate (List.mem_of_mem_take hd)

theorem ahead_bounds (o : Offset) : -1440 < o.ahead ∧ o.ahead < 1440 := by
  cases o with
  | utc upper =>
    rw [Offset.ahead]
    decide
  | numeric west hours minutes =>
    have hhours := hours.2
    have hminutes := minutes.2
    unfold Offset.ahead
    cases west <;> simp only [Bool.false_eq_true, if_false, if_true] <;> omega

end Stamp

/-! ## Agreement -/

section
variable (parse : String → Option (Int × Nat)) (t : Stamp)

theorem parseIsoMs_some {text : String} {seconds : Int} {nanos n : Nat} (hparse : parse text = some (seconds, nanos))
    (hbound : seconds < 2 ^ 41) (hnanos : nanos < 10 ^ 9) :
    parseIsoMs parse text = some n ↔ 0 ≤ seconds ∧ (n : Int) = seconds * 1000 + (nanos / 10 ^ 6 : Nat) := by
  rw [parseIsoMs, hparse]
  by_cases hpos : 0 ≤ seconds
  · have hfit : fitU64 (seconds.toNat * 1000) = some (seconds.toNat * 1000) := if_pos (by omega)
    have hfit' : fitU64 (seconds.toNat * 1000 + nanos / 10 ^ 6) = some (seconds.toNat * 1000 + nanos / 10 ^ 6) :=
      if_pos (by omega)
    simp only [Option.bind_eq_bind, Option.bind_some, hpos, if_true, hfit, hfit', Option.some.injEq, true_and]
    omega
  · simp [hpos]

/-- **The two readers agree** on a time stamp without an offset, before second 60, whose fraction has three digits or
none that count. -/
theorem readers_agree_iff (hparse : parse (.ofList t.text) = some t.instant) :
    parseIsoMs parse (.ofList t.text) = some (isoToMs (.ofList t.text)) ↔ t.Plain := by
  have hiso := t.isoToMs_text
  have hahead := Stamp.ahead_bounds t.offset
  have hwall := t.wall_bounds
  have hread := t.readMs_lt
  have hms := t.millisecond_lt
  unfold Stamp.Plain
  unfold Stamp.instant at hparse
  by_cases hleap : t.second = 60
  · rw [if_pos hleap] at hparse
    rw [parseIsoMs_some parse hparse (by omega) (by omega), hiso]
    omega
  · rw [if_neg hleap] at hparse
    have hnanos : t.nanosecond < 10 ^ 9 := by
      have := t.nanosecond_div
      omega
    have hsecond : t.second < 60 := lt_of_le_of_ne t.second_le hleap
    rw [parseIsoMs_some parse hparse (by omega) hnanos, hiso, t.nanosecond_div, ← t.readMs_eq_iff]
    omega

end

/-- 2026-06-26T12:17:10.619 with some offset. -/
def june (offset : Offset) : Stamp where
  date      := ⟨2026, 6, 26, by decide, by decide, by decide, by decide⟩
  upperT    := true
  hour      := 12
  minute    := 17
  second    := 10
  fraction  := [6, 1, 9]
  offset    := offset
  year_low  := by decide
  year_high := by decide
  hour_lt   := by decide
  minute_lt := by decide
  second_le := by decide
  leap      := fun h => absurd h (by decide)

theorem readers_agree_iff_june :
    parseIsoMs (fun _ => some (1782476230, 619000000)) (.ofList (june (.utc true)).text) =
      some (isoToMs (.ofList (june (.utc true)).text)) ↔ (june (.utc true)).Plain :=
  readers_agree_iff _ (june (.utc true)) (by decide)

/-- Two hours east of UTC the readers are two hours apart. -/
theorem offset_left_out : ∃ parse : String → Option (Int × Nat),
    parse (.ofList (june (.numeric false 2 0)).text) = some (june (.numeric false 2 0)).instant ∧
      parseIsoMs parse (.ofList (june (.numeric false 2 0)).text) ≠
        some (isoToMs (.ofList (june (.numeric false 2 0)).text)) := by
  refine ⟨fun _ => some (1782469030, 619000000), by decide, fun h => ?_⟩
  obtain ⟨-, heq⟩ := (parseIsoMs_some _ rfl (by decide) (by decide)).1 h
  rw [Stamp.isoToMs_text] at heq
  exact absurd heq (by decide)

end BoopHarness.Transcripts
