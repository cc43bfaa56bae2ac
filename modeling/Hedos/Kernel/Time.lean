import Hedos.Upstream.LineStream
import Mathlib.Data.List.TakeWhile

/-!
# Wire timestamps

`kernel/src/time.rs`: an instant is a count of milliseconds since the Unix epoch in memory and an
ISO 8601 text on the wire.

* `civil_from_days` and `days_from_civil` are inverse to each other on every day
  (`daysFromCivil_civilFromDays`);
* `millis_from_iso8601` reads the text `iso8601` writes back as the instant cut down to the whole
  second, from the year 0 on, and not at all before (`millisFromIso8601_iso8601`).
-/

namespace Hedos.Kernel.Time

/-! ## Numbers as text -/

/-- Zeros in front, up to a width. -/
def pad (width : ℕ) (digits : Text) : Text :=
  List.replicate (width - digits.length) '0' ++ digits

/-- `{n:0width}`; a sign takes up one place. -/
def formatInt (width : ℕ) (n : ℤ) : Text :=
  if n < 0 then '-' :: pad (width - 1) (Nat.toDigits 10 n.natAbs)
  else pad width (Nat.toDigits 10 n.natAbs)

def formatNat (width n : ℕ) : Text := pad width (Nat.toDigits 10 n)

def readDigits (digits : Text) : Option ℕ :=
  if digits ≠ [] ∧ digits.all Char.isDigit then some (Nat.ofDigitChars 10 digits 0) else none

/-- `str::parse::<i64>`. -/
def parseI64 (text : Text) : Option ℤ :=
  let value : Option ℤ := match text with
    | '-' :: digits => (readDigits digits).map fun n => -Int.ofNat n
    | '+' :: digits => (readDigits digits).map Int.ofNat
    | digits => (readDigits digits).map Int.ofNat
  value.filter fun n => -2 ^ 63 ≤ n ∧ n < 2 ^ 63

/-- `str::parse::<u32>`. -/
def parseU32 (text : Text) : Option ℕ :=
  let value := match text with
    | '+' :: digits => readDigits digits
    | digits => readDigits digits
  value.filter (· < 2 ^ 32)

/-! ## Cutting text -/

/-- `str::split_once`. -/
def splitOnce (c : Char) (text : Text) : Option (Text × Text) :=
  match text.dropWhile (· != c) with
  | [] => none
  | _ :: rest => some (text.takeWhile (· != c), rest)

/-- `str::trim_end_matches`. -/
def trimEndMatches (c : Char) (text : Text) : Text := (text.reverse.dropWhile (· == c)).reverse

def isSign (c : Char) : Bool := c == '+' || c == '-'

/-- The text before the last sign, the sign and the text behind it. -/
def splitAtLastSign (text : Text) : Option (Text × Char × Text) :=
  match text.reverse.dropWhile (!isSign ·) with
  | [] => none
  | sign :: before => some (before.reverse, sign, (text.reverse.takeWhile (!isSign ·)).reverse)

/-! ## The calendar -/

/-- Days since the epoch of a year, month and day. -/
def daysFromCivil (year : ℤ) (month day : ℕ) : ℤ :=
  let year := if month ≤ 2 then year - 1 else year
  let era := (if 0 ≤ year then year else year - 399).tdiv 400
  let yearOfEra := year - era * 400
  let dayOfYear : ℤ :=
    (153 * (if 2 < month then (month : ℤ) - 3 else month + 9) + 2) / 5 + day - 1
  let dayOfEra := yearOfEra * 365 + yearOfEra / 4 - yearOfEra / 100 + dayOfYear
  era * 146097 + dayOfEra - 719468

/-- The year, month and day of a count of days since the epoch. -/
def civilFromDays (days : ℤ) : ℤ × ℕ × ℕ :=
  let z := days + 719468
  let era := (if 0 ≤ z then z else z - 146096).tdiv 146097
  let dayOfEra := (z - era * 146097).toNat
  let yearOfEra := (dayOfEra - dayOfEra / 1460 + dayOfEra / 36524 - dayOfEra / 146096) / 365
  let year := yearOfEra + era * 400
  let dayOfYear := dayOfEra - (365 * yearOfEra + yearOfEra / 4 - yearOfEra / 100)
  let monthPosition := (5 * dayOfYear + 2) / 153
  let day := dayOfYear - (153 * monthPosition + 2) / 5 + 1
  let month := if monthPosition < 10 then monthPosition + 3 else monthPosition - 9
  (if month ≤ 2 then year + 1 else year, month, day)

/-! ## Timestamps -/

/-- `YYYY-MM-DDTHH:MM:SSZ`. -/
def iso8601 (millis : ℤ) : Text :=
  let seconds := millis / 1000
  let days := seconds / 86400
  let secondsOfDay := (seconds % 86400).toNat
  let hour := secondsOfDay / 3600
  let minute := secondsOfDay % 3600 / 60
  let second := secondsOfDay % 60
  let (year, month, day) := civilFromDays days
  formatInt 4 year ++ '-' :: (formatNat 2 month ++ '-' :: (formatNat 2 day ++ 'T' ::
    (formatNat 2 hour ++ ':' :: (formatNat 2 minute ++ ':' :: (formatNat 2 second ++ ['Z'])))))

/-- The time of the day and the offset of its zone in seconds. -/
def readOffset (time : Text) : Option (Text × ℤ) :=
  match splitAtLastSign time with
  | none => some (time, 0)
  | some (time, sign, offset) => do
    let (hours, minutes) ← splitOnce ':' offset
    let seconds := (← parseI64 hours) * 3600 + (← parseI64 minutes) * 60
    some (time, if sign = '-' then -seconds else seconds)

/-- The first three digits of the fraction of a second. -/
def subMillis (fraction : Text) : ℤ :=
  let digits := (fraction.takeWhile Char.isDigit).take 3
  (parseI64 (digits ++ List.replicate (3 - digits.length) '0')).getD 0

def millisFromIso8601 (text : Text) : Option ℤ := do
  let (date, time) ← splitOnce 'T' (trimEndMatches 'Z' (Upstream.trim text))
  let (time, offsetSeconds) ← readOffset time
  let dateParts := date.splitOn '-'
  let year ← dateParts[0]?.bind parseI64
  let month ← dateParts[1]?.bind parseU32
  let day ← dateParts[2]?.bind parseU32
  if ¬ (1 ≤ month ∧ month ≤ 12 ∧ 1 ≤ day ∧ day ≤ 31) then none
  let (hms, fraction) := match splitOnce '.' time with
    | some (hms, fraction) => (hms, some fraction)
    | none => (time, none)
  let timeParts := hms.splitOn ':'
  let hour ← timeParts[0]?.bind parseI64
  let minute ← timeParts[1]?.bind parseI64
  let second ← timeParts[2]?.bind parseI64
  let days := daysFromCivil year month day
  some ((days * 86400 + hour * 3600 + minute * 60 + second - offsetSeconds) * 1000 +
    (fraction.map subMillis).getD 0)

/-! ## The fields of a timestamp -/

/-- The offset of a zone. -/
structure Offset where
  sign : Char
  hours : ℤ
  minutes : ℤ

def Offset.seconds (offset : Offset) : ℤ :=
  let seconds := offset.hours * 3600 + offset.minutes * 60
  if offset.sign = '-' then -seconds else seconds

structure Fields where
  year : ℤ
  month : ℕ
  day : ℕ
  hour : ℤ
  minute : ℤ
  second : ℤ
  subMillis : ℤ
  offset : Option Offset

def Fields.seconds (fields : Fields) : ℤ :=
  daysFromCivil fields.year fields.month fields.day * 86400 + fields.hour * 3600 +
    fields.minute * 60 + fields.second - (fields.offset.map Offset.seconds).getD 0

def Fields.millis (fields : Fields) : ℤ := fields.seconds * 1000 + fields.subMillis

/-- What is checked of a date. -/
def Fields.Admitted (fields : Fields) : Prop :=
  1 ≤ fields.month ∧ fields.month ≤ 12 ∧ 1 ≤ fields.day ∧ fields.day ≤ 31

instance (fields : Fields) : Decidable fields.Admitted := inferInstanceAs (Decidable (_ ∧ _))

def readZone (time : Text) : Option (Text × Option Offset) :=
  match splitAtLastSign time with
  | none => some (time, none)
  | some (time, sign, offset) => do
    let (hours, minutes) ← splitOnce ':' offset
    some (time, some ⟨sign, ← parseI64 hours, ← parseI64 minutes⟩)

/-- What a timestamp says, before anything is checked or calculated. -/
def readFields (text : Text) : Option Fields := do
  let (date, time) ← splitOnce 'T' (trimEndMatches 'Z' (Upstream.trim text))
  let (time, offset) ← readZone time
  let dateParts := date.splitOn '-'
  let year ← dateParts[0]?.bind parseI64
  let month ← dateParts[1]?.bind parseU32
  let day ← dateParts[2]?.bind parseU32
  let (hms, fraction) := match splitOnce '.' time with
    | some (hms, fraction) => (hms, some fraction)
    | none => (time, none)
  let timeParts := hms.splitOn ':'
  let hour ← timeParts[0]?.bind parseI64
  let minute ← timeParts[1]?.bind parseI64
  let second ← timeParts[2]?.bind parseI64
  some ⟨year, month, day, hour, minute, second, (fraction.map subMillis).getD 0, offset⟩

theorem readOffset_eq (time : Text) :
    readOffset time =
      (readZone time).map fun read => (read.1, (read.2.map Offset.seconds).getD 0) := by
  unfold readOffset readZone
  cases splitAtLastSign time with
  | none => rfl
  | some cut =>
    obtain ⟨time, sign, offset⟩ := cut
    cases hparts : splitOnce ':' offset with
    | none => simp [hparts]
    | some parts =>
      cases hhours : parseI64 parts.1 <;> cases hminutes : parseI64 parts.2 <;>
        simp [hparts, hhours, hminutes, Offset.seconds]

theorem millisFromIso8601_eq (text : Text) :
    millisFromIso8601 text =
      (readFields text).bind fun fields =>
        if fields.Admitted then some fields.millis else none := by
  unfold millisFromIso8601 readFields
  cases splitOnce 'T' (trimEndMatches 'Z' (Upstream.trim text)) with
  | none => rfl
  | some halves =>
    obtain ⟨date, time⟩ := halves
    simp only [Option.bind_eq_bind, Option.bind_some, readOffset_eq]
    cases readZone time with
    | none => rfl
    | some zone =>
      obtain ⟨time, offset⟩ := zone
      simp only [Option.bind_some, Option.map_some]
      cases (date.splitOn '-')[0]?.bind parseI64 with
      | none => rfl
      | some year =>
        cases (date.splitOn '-')[1]?.bind parseU32 with
        | none => rfl
        | some month =>
          cases (date.splitOn '-')[2]?.bind parseU32 with
          | none => rfl
          | some day =>
            simp only [Option.bind_some]
            generalize ((match splitOnce '.' time with
              | some (hms, fraction) => (hms, some fraction)
              | none => (time, none)) : Text × Option Text) = clock
            by_cases hdate : 1 ≤ month ∧ month ≤ 12 ∧ 1 ≤ day ∧ day ≤ 31
            · rw [if_neg (not_not.2 hdate)]
              simp [Option.bind_assoc, Fields.Admitted, hdate, Fields.millis, Fields.seconds]
            · rw [if_pos hdate]
              simp [Option.bind_assoc, Fields.Admitted, hdate]

example : iso8601 1600000000999 = "2020-09-13T12:26:40Z".toList := by decide

example : millisFromIso8601 "1970-01-01T02:30:00.5+02:00".toList = some 1800500 := by decide

/-! ## The calendar there and back -/

/-- The blocks of four years and the centuries that `year_of_era` counts: it is in the right
century. -/
theorem yearOfEra_blocks {dayOfEra year : ℕ} (hday : dayOfEra ≤ 146096)
    (hyear : year = (dayOfEra - dayOfEra / 1460 + dayOfEra / 36524 - dayOfEra / 146096) / 365) :
    ∃ fours century, 1460 * fours ≤ dayOfEra ∧ dayOfEra < 1460 * fours + 1460 ∧
      36524 * century ≤ dayOfEra ∧
      (dayOfEra < 36524 * century + 36524 ∨ dayOfEra = 146096 ∧ century = 3) ∧ century ≤ 3 ∧
      365 * year + fours ≤ dayOfEra + century ∧ dayOfEra + century < 365 * year + 365 + fours ∧
      year / 100 = century := by
  obtain ⟨fours, hfours⟩ : ∃ n, n = dayOfEra / 1460 := ⟨_, rfl⟩
  obtain ⟨century, hcentury⟩ : ∃ n, n = dayOfEra / 36524 - dayOfEra / 146096 := ⟨_, rfl⟩
  have hfours_le : 1460 * fours ≤ dayOfEra := by omega
  have hfours_lt : dayOfEra < 1460 * fours + 1460 := by omega
  have hcentury_le : 36524 * century ≤ dayOfEra := by omega
  have hcentury_ge : dayOfEra < 36524 * century + 36524 ∨ dayOfEra = 146096 ∧ century = 3 := by
    omega
  have hcentury_lt : century ≤ 3 := by omega
  have hyear_le : 365 * year + fours ≤ dayOfEra + century := by omega
  have hyear_lt : dayOfEra + century < 365 * year + 365 + fours := by omega
  clear hyear hfours hcentury hday
  have hlow : 100 * century ≤ year := by omega
  have hhigh : year < 100 * (century + 1) := by omega
  exact ⟨fours, century, hfours_le, hfours_lt, hcentury_le, hcentury_ge, hcentury_lt, hyear_le,
    hyear_lt, by omega⟩

/-- The days of the whole years of an era before the one a day is in, and what is left of them. -/
theorem yearOfEra_bounds {dayOfEra year : ℕ} (hday : dayOfEra ≤ 146096)
    (hyear : year = (dayOfEra - dayOfEra / 1460 + dayOfEra / 36524 - dayOfEra / 146096) / 365) :
    365 * year + year / 4 - year / 100 ≤ dayOfEra ∧
      dayOfEra ≤ 365 * year + year / 4 - year / 100 + 365 ∧ year ≤ 399 := by
  obtain ⟨fours, century, hfours_le, hfours_lt, hcentury_le, hcentury_ge, hcentury_lt, hyear_le,
    hyear_lt, hhundreds⟩ := yearOfEra_blocks hday hyear
  clear hyear hday
  -- at most a year off in its block of four
  have hblock : fours ≤ year / 4 + 1 := by omega
  have hblock' : year / 4 ≤ fours := by omega
  have hrest : year / 4 * 4 ≤ year := by omega
  have hrest' : year < year / 4 * 4 + 4 := by omega
  rw [hhundreds]
  generalize year / 4 = leaps at *
  omega

/-- A year has a day behind its 365 days in leap years only. -/
theorem yearOfEra_leap {dayOfEra year : ℕ} (hday : dayOfEra ≤ 146096)
    (hyear : year = (dayOfEra - dayOfEra / 1460 + dayOfEra / 36524 - dayOfEra / 146096) / 365)
    (hlast : dayOfEra = 365 * year + year / 4 - year / 100 + 365) :
    (year + 1) % 4 = 0 ∧ ((year + 1) % 100 = 0 → year = 399) := by
  obtain ⟨-, -, hlate⟩ := yearOfEra_bounds hday hyear
  obtain ⟨fours, century, hfours_le, hfours_lt, hcentury_le, hcentury_ge, hcentury_lt, hyear_le,
    hyear_lt, hhundreds⟩ := yearOfEra_blocks hday hyear
  clear hyear hday
  have hleaps : year / 100 ≤ year / 4 := Nat.div_le_div_left (by decide) (by decide)
  have hmore : year / 4 + 1 ≤ fours := by omega
  constructor
  · -- else the block of four years would have a leap day too many
    by_contra hshort
    have hblock : year ≤ 4 * (year / 4) + 2 := by omega
    have hfew : year / 4 ≤ 99 := by omega
    omega
  · intro hhundred
    have hyear : year = 100 * century + 99 := by omega
    omega

theorem tdiv_floor {n : ℤ} {d : ℕ} (hd : 0 < d) :
    (if 0 ≤ n then n else n - (d - 1)).tdiv d = n / d := by
  have hpos : (0 : ℤ) < d := by exact_mod_cast hd
  by_cases hn : 0 ≤ n
  · rw [if_pos hn, Int.tdiv_eq_ediv_of_nonneg hn]
  · rw [if_neg hn]
    have hneg : (n - (d - 1)).tdiv d = -((d - 1 - n) / d) := by
      rw [← Int.tdiv_eq_ediv_of_nonneg (by omega), ← Int.neg_tdiv]
      congr 1
      omega
    rw [hneg]
    have hle : (d - 1 - n) / d * d ≤ d - 1 - n := Int.ediv_mul_le _ (by omega)
    have hlt : d - 1 - n < ((d - 1 - n) / d + 1) * d := Int.lt_ediv_add_one_mul_self _ hpos
    symm
    rw [Int.ediv_eq_iff_of_pos hpos]
    constructor <;> nlinarith

variable (days : ℤ)

/-- Where a day lies: its era, its year in the era and its day in the year, counted from March. -/
theorem civilFromDays_spec :
    ∃ (era : ℤ) (year day : ℕ), year ≤ 399 ∧ day ≤ 365 ∧
      (day = 365 → (year + 1) % 4 = 0 ∧ ((year + 1) % 100 = 0 → year = 399)) ∧
      365 * year + year / 4 - year / 100 + day ≤ 146096 ∧
      days + 719468 = era * 146097 + (365 * year + year / 4 - year / 100 + day : ℕ) ∧
      civilFromDays days =
        (if (5 * day + 2) / 153 < 10 then year + era * 400 else year + era * 400 + 1,
          if (5 * day + 2) / 153 < 10 then (5 * day + 2) / 153 + 3 else (5 * day + 2) / 153 - 9,
          day - (153 * ((5 * day + 2) / 153) + 2) / 5 + 1) := by
  have hera := tdiv_floor (n := days + 719468) (d := 146097) (by decide)
  obtain ⟨dayOfEra, hday⟩ : ∃ n, n = (days + 719468 - (days + 719468) / 146097 * 146097).toNat :=
    ⟨_, rfl⟩
  have hbound : dayOfEra ≤ 146096 := by omega
  obtain ⟨year, hyear⟩ : ∃ year, year =
      (dayOfEra - dayOfEra / 1460 + dayOfEra / 36524 - dayOfEra / 146096) / 365 := ⟨_, rfl⟩
  obtain ⟨hle, hge, hyear_le⟩ := yearOfEra_bounds hbound hyear
  obtain ⟨day, hdayOfYear⟩ : ∃ day, day = dayOfEra - (365 * year + year / 4 - year / 100) :=
    ⟨_, rfl⟩
  have hsplit : 365 * year + year / 4 - year / 100 + day = dayOfEra := by omega
  refine ⟨(days + 719468) / 146097, year, day, hyear_le, by omega,
    fun hlast => yearOfEra_leap hbound hyear (by omega), by omega, by omega, ?_⟩
  have hposition : (5 * day + 2) / 153 ≤ 11 := by omega
  unfold civilFromDays
  norm_num only at hera
  simp only [hera, ← hday, ← hyear, ← hdayOfYear]
  by_cases hmarch : (5 * day + 2) / 153 < 10
  · simp only [if_pos hmarch]
    rw [if_neg (by omega)]
  · simp only [if_neg hmarch]
    rw [if_pos (by omega)]

theorem daysFromCivil_civilFromDays :
    daysFromCivil (civilFromDays days).1 (civilFromDays days).2.1 (civilFromDays days).2.2 =
      days := by
  obtain ⟨era, year, day, hyear, hday, -, hera, hdays, hcivil⟩ := civilFromDays_spec days
  have htdiv := tdiv_floor (n := year + era * 400) (d := 400) (by decide)
  have hdiv : (year + era * 400) / 400 = era := by omega
  norm_num only [hdiv] at htdiv
  obtain ⟨position, hposition⟩ : ∃ p, p = (5 * day + 2) / 153 := ⟨_, rfl⟩
  have hbefore : (153 * position + 2) / 5 ≤ day := by omega
  have hleaps : year / 100 ≤ 365 * year + year / 4 := by omega
  rw [hcivil]
  simp only [← hposition]
  unfold daysFromCivil
  by_cases hmarch : position < 10
  · have hlater : 2 < position + 3 := by omega
    have hmonth : (153 * (((position + 3 : ℕ) : ℤ) - 3) + 2) / 5 =
        ((153 * position + 2) / 5 : ℕ) := by omega
    simp only [if_pos hmarch, if_pos hlater, if_neg hlater.not_ge, htdiv, add_sub_cancel_right,
      hmonth]
    omega
  · have hearly : position - 9 ≤ 2 := by omega
    have hmonth : (153 * (((position - 9 : ℕ) : ℤ) + 9) + 2) / 5 =
        ((153 * position + 2) / 5 : ℕ) := by omega
    simp only [if_neg hmarch, if_pos hearly, if_neg hearly.not_gt, htdiv, add_sub_cancel_right,
      hmonth]
    omega

/-- The parts of a date. -/
theorem civilFromDays_month : 1 ≤ (civilFromDays days).2.1 ∧ (civilFromDays days).2.1 ≤ 12 := by
  obtain ⟨era, year, day, -, hday, -, -, -, hcivil⟩ := civilFromDays_spec days
  have hposition : (5 * day + 2) / 153 ≤ 11 := by omega
  rw [hcivil]
  simp only
  split <;> omega

theorem civilFromDays_day : 1 ≤ (civilFromDays days).2.2 ∧ (civilFromDays days).2.2 ≤ 31 := by
  obtain ⟨era, year, day, -, hday, -, -, -, hcivil⟩ := civilFromDays_spec days
  rw [hcivil]
  simp only
  omega

/-- The year 0 begins 719528 days before the epoch. -/
theorem civilFromDays_year_nonneg : 0 ≤ (civilFromDays days).1 ↔ -719528 ≤ days := by
  obtain ⟨era, year, day, hyear, hday, -, hera, hdays, hcivil⟩ := civilFromDays_spec days
  have hleaps : year / 100 ≤ 365 * year + year / 4 := by omega
  rw [hcivil]
  simp only
  have hera_sign : 0 ≤ era ∨ era = -1 ∨ era ≤ -2 := by omega
  split
  · omega
  · by_cases hlast : year = 399
    · subst hlast
      omega
    · omega

theorem civilFromDays_year_le : (civilFromDays days).1 ≤ max days 0 + 2000 := by
  obtain ⟨era, year, day, hyear, hday, -, hera, hdays, hcivil⟩ := civilFromDays_spec days
  rw [hcivil]
  simp only
  split <;> omega

/-! ## Reading back what was written -/

variable {c : Char} {width n : ℕ} {text : Text}

theorem isDigit_pad (h : c ∈ pad width (Nat.toDigits 10 n)) :
    c.isDigit := by
  rcases List.mem_append.1 h with h | h
  · rw [List.eq_of_mem_replicate h]
    rfl
  · exact Nat.isDigit_of_mem_toDigits (by decide) (by decide) h

theorem readDigits_pad (width n : ℕ) : readDigits (pad width (Nat.toDigits 10 n)) = some n := by
  have hne : pad width (Nat.toDigits 10 n) ≠ [] := by simp [pad, Nat.toDigits_ne_nil]
  have hdigits : (pad width (Nat.toDigits 10 n)).all Char.isDigit :=
    List.all_eq_true.2 fun c hc => isDigit_pad hc
  rw [readDigits, if_pos ⟨hne, hdigits⟩, pad, Nat.ofDigitChars_append,
    Nat.ofDigitChars_replicate_zero, Nat.mul_zero, Nat.ofDigitChars_ten_toDigits]

/-- A text that digits can be read from has no sign in front. -/
theorem ne_sign_of_readDigits (h : readDigits (c :: text) = some n) : c ≠ '-' ∧ c ≠ '+' := by
  unfold readDigits at h
  split at h
  · rename_i hdigits
    have hc := List.all_eq_true.1 hdigits.2 c (by simp)
    constructor <;> rintro rfl <;> simp at hc
  · cases h

theorem parseI64_of_readDigits (h : readDigits text = some n)
    (hn : (n : ℤ) < 2 ^ 63) : parseI64 text = some n := by
  unfold parseI64
  split
  · exact absurd rfl (ne_sign_of_readDigits h).1
  · exact absurd rfl (ne_sign_of_readDigits h).2
  · simp only [h, Option.map_some]
    have hrange : -2 ^ 63 ≤ Int.ofNat n ∧ Int.ofNat n < 2 ^ 63 := ⟨by simp, hn⟩
    rw [Option.filter_some, if_pos (by simpa using hrange)]
    rfl

theorem parseU32_of_readDigits (h : readDigits text = some n)
    (hn : n < 2 ^ 32) : parseU32 text = some n := by
  unfold parseU32
  split
  · exact absurd rfl (ne_sign_of_readDigits h).2
  · simp only [h]
    rw [Option.filter_some, if_pos (by simpa using hn)]

theorem parseI64_pad (hn : (n : ℤ) < 2 ^ 63) : parseI64 (pad width (Nat.toDigits 10 n)) = some n :=
  parseI64_of_readDigits (readDigits_pad width n) hn

theorem parseU32_pad (hn : n < 2 ^ 32) : parseU32 (pad width (Nat.toDigits 10 n)) = some n :=
  parseU32_of_readDigits (readDigits_pad width n) hn

theorem splitOnce_append {a : Text} (h : c ∉ a) (b : Text) :
    splitOnce c (a ++ c :: b) = some (a, b) := by
  have hall : ∀ x ∈ a, (x != c) = true := fun x hx => by
    rw [bne_iff_ne]
    rintro rfl
    exact h hx
  rw [splitOnce, List.dropWhile_append_of_pos hall, List.takeWhile_append_of_pos hall]
  simp

theorem splitOnce_eq_none (h : c ∉ text) : splitOnce c text = none := by
  have hall : ∀ x ∈ text, (x != c) = true := fun x hx => by
    rw [bne_iff_ne]
    rintro rfl
    exact h hx
  rw [splitOnce, List.dropWhile_eq_nil_iff.2 hall]

theorem splitAtLastSign_eq_none (h : ∀ c ∈ text, isSign c = false) :
    splitAtLastSign text = none := by
  have hall : ∀ c ∈ text.reverse, (!isSign c) = true := fun c hc => by
    rw [h c (List.mem_reverse.1 hc)]
    rfl
  rw [splitAtLastSign, List.dropWhile_eq_nil_iff.2 hall]

/-- White space around a timestamp and the `Z` behind it come off. -/
theorem trim_utc (hfirst : ∀ c ∈ text.head?, Upstream.isWhitespace c = false)
    (hlast : ∀ c ∈ text.getLast?, c ≠ 'Z') :
    trimEndMatches 'Z' (Upstream.trim (text ++ ['Z'])) = text := by
  have hutc : Upstream.isWhitespace 'Z' = false := by decide
  have hfront : (text ++ ['Z']).dropWhile Upstream.isWhitespace = text ++ ['Z'] := by
    cases text with
    | nil => rw [List.nil_append, List.dropWhile_cons_of_neg (by simp [hutc])]
    | cons c text =>
      rw [List.cons_append, List.dropWhile_cons_of_neg (by simp [hfirst c (by simp)])]
  have hback : (text ++ ['Z']).reverse = 'Z' :: text.reverse := by simp
  rw [Upstream.trim, hfront, hback, List.dropWhile_cons_of_neg (by simp [hutc]), trimEndMatches,
    List.reverse_reverse, List.dropWhile_cons_of_pos (by simp)]
  cases hrev : text.reverse with
  | nil => simpa using hrev.symm
  | cons c rest =>
    have hc : c ∈ text.getLast? := by rw [← List.head?_reverse, hrev]; rfl
    rw [List.dropWhile_cons_of_neg (by simpa using hlast c hc), ← hrev, List.reverse_reverse]

theorem not_mem_formatNat (hc : c.isDigit = false) (width n : ℕ) :
    c ∉ formatNat width n := fun h => by
  rw [isDigit_pad h] at hc
  cases hc

theorem formatInt_natCast (width n : ℕ) : formatInt width n = formatNat width n := by
  rw [formatInt, if_neg (by omega)]
  rfl

theorem not_mem_formatInt (hc : c.isDigit = false) (hsign : c ≠ '-') (width : ℕ)
    (n : ℤ) : c ∉ formatInt width n := by
  unfold formatInt
  split
  · rw [List.mem_cons, not_or]
    exact ⟨hsign, not_mem_formatNat hc _ _⟩
  · exact not_mem_formatNat hc _ _

def dateText (year : ℤ) (month day : ℕ) : Text :=
  formatInt 4 year ++ '-' :: (formatNat 2 month ++ '-' :: formatNat 2 day)

def clockText (hour minute second : ℕ) : Text :=
  formatNat 2 hour ++ ':' :: (formatNat 2 minute ++ ':' :: formatNat 2 second)

theorem mem_clockText {hour minute second : ℕ} (h : c ∈ clockText hour minute second) :
    c.isDigit ∨ c = ':' := by
  simp only [clockText, List.mem_append, List.mem_cons] at h
  rcases h with h | rfl | h | rfl | h
  · exact .inl (isDigit_pad h)
  · exact .inr rfl
  · exact .inl (isDigit_pad h)
  · exact .inr rfl
  · exact .inl (isDigit_pad h)

theorem splitAtLastSign_clockText (hour minute second : ℕ) :
    splitAtLastSign (clockText hour minute second) = none := by
  refine splitAtLastSign_eq_none fun c hc => ?_
  rw [isSign, Bool.or_eq_false_iff, beq_eq_false_iff_ne, beq_eq_false_iff_ne]
  rcases mem_clockText hc with hdigit | rfl
  · constructor <;> rintro rfl <;> simp at hdigit
  · decide

theorem readZone_clockText (hour minute second : ℕ) :
    readZone (clockText hour minute second) = some (clockText hour minute second, none) := by
  rw [readZone, splitAtLastSign_clockText]

/-- The parts of a date or of a time of the day. -/
theorem splitOn_three (hc : c.isDigit = false) {first : Text} (hfirst : c ∉ first)
    (second third : ℕ) :
    (first ++ c :: (formatNat 2 second ++ c :: formatNat 2 third)).splitOn c =
      [first, formatNat 2 second, formatNat 2 third] := by
  rw [List.splitOn_append_cons_self_of_not_mem hfirst,
    List.splitOn_append_cons_self_of_not_mem (not_mem_formatNat hc 2 second),
    List.splitOn_eq_singleton (not_mem_formatNat hc 2 third)]

theorem isWhitespace_isDigit (hc : c.isDigit) : Upstream.isWhitespace c = false := by
  have hrange : 48 ≤ c.toNat ∧ c.toNat ≤ 57 := by
    simpa [Char.isDigit, UInt32.le_iff_toNat_le] using hc
  simp only [Upstream.isWhitespace, Bool.or_eq_false_iff, Bool.and_eq_false_iff,
    decide_eq_false_iff_not, beq_eq_false_iff_ne]
  omega

theorem isWhitespace_head_dateText {year : ℤ} {month day : ℕ} (rest : Text) :
    ∀ c ∈ (dateText year month day ++ rest).head?, Upstream.isWhitespace c = false := by
  intro c hc
  have hmem : c = '-' ∨ c.isDigit := by
    simp only [dateText, formatInt, List.append_assoc] at hc
    split at hc
    · exact .inl (by simpa [eq_comm] using hc)
    · cases hpad : pad 4 (Nat.toDigits 10 year.natAbs) with
      | nil => exact .inl (by simpa [hpad, eq_comm] using hc)
      | cons d digits =>
        obtain rfl : d = c := by simpa [hpad] using hc
        exact .inr (isDigit_pad (by rw [hpad]; exact (.head _)))
  rcases hmem with rfl | hdigit
  · decide
  · exact isWhitespace_isDigit hdigit

theorem getLast_clockText (front : Text) (hour minute second : ℕ) :
    ∀ c ∈ (front ++ 'T' :: clockText hour minute second).getLast?, c ≠ 'Z' := by
  intro c hc
  have hne : clockText hour minute second ≠ [] := by simp [clockText]
  rw [List.getLast?_append_of_ne_nil _ (List.cons_ne_nil _ _),
    List.getLast?_cons_of_ne_nil hne] at hc
  rcases mem_clockText (List.mem_of_getLast? hc) with hdigit | rfl
  · rintro rfl
    simp at hdigit
  · decide

/-- The date and the time of the day that a timestamp is made of. -/
theorem splitOnce_timestamp (year : ℤ) (month day hour minute second : ℕ) :
    splitOnce 'T' (trimEndMatches 'Z' (Upstream.trim
        (dateText year month day ++ 'T' :: (clockText hour minute second ++ ['Z'])))) =
      some (dateText year month day, clockText hour minute second) := by
  have hdate : 'T' ∉ dateText year month day := by
    simp only [dateText, List.mem_append, List.mem_cons, not_or]
    exact ⟨not_mem_formatInt rfl (by decide) 4 year, by decide, not_mem_formatNat rfl 2 month,
      by decide, not_mem_formatNat rfl 2 day⟩
  have htrim := trim_utc (isWhitespace_head_dateText ('T' :: clockText hour minute second))
    (getLast_clockText (dateText year month day) hour minute second)
  rw [List.append_assoc, List.cons_append] at htrim
  rw [htrim, splitOnce_append hdate]

/-- A year before the year 0 is not read. -/
theorem dateText_year_neg {year : ℤ} (h : year < 0) (month day : ℕ) :
    ((dateText year month day).splitOn '-')[0]? = some [] := by
  have hfirst : ∀ rest : Text, ('-' :: rest).splitOn '-' = [] :: rest.splitOn '-' := fun rest =>
    List.splitOn_append_cons_self_of_not_mem List.not_mem_nil rest
  rw [dateText, formatInt, if_pos h, List.cons_append, hfirst]
  rfl

theorem dateText_parts (year month day : ℕ) :
    (dateText year month day).splitOn '-' =
      [formatNat 4 year, formatNat 2 month, formatNat 2 day] := by
  rw [dateText, formatInt_natCast]
  exact splitOn_three rfl (not_mem_formatNat rfl 4 year) month day

theorem clockText_parts (hour minute second : ℕ) :
    (clockText hour minute second).splitOn ':' =
      [formatNat 2 hour, formatNat 2 minute, formatNat 2 second] :=
  splitOn_three rfl (not_mem_formatNat rfl 2 hour) minute second

theorem iso8601_eq (millis : ℤ) :
    iso8601 millis =
      dateText (civilFromDays (millis / 1000 / 86400)).1 (civilFromDays (millis / 1000 / 86400)).2.1
          (civilFromDays (millis / 1000 / 86400)).2.2 ++
        'T' :: (clockText ((millis / 1000 % 86400).toNat / 3600)
          ((millis / 1000 % 86400).toNat % 3600 / 60) ((millis / 1000 % 86400).toNat % 60) ++
            ['Z']) := by
  simp [iso8601, dateText, clockText]

/-- The fields of the text of an instant are those it was written from, from the year 0 on; before
that there are none, for the sign of the year looks like the end of it. -/
theorem readFields_iso8601 {millis : ℤ} (h : millis < 2 ^ 63) :
    readFields (iso8601 millis) =
      if -62167219200000 ≤ millis then
        some
          { year := (civilFromDays (millis / 1000 / 86400)).1
            month := (civilFromDays (millis / 1000 / 86400)).2.1
            day := (civilFromDays (millis / 1000 / 86400)).2.2
            hour := millis / 1000 % 86400 / 3600
            minute := millis / 1000 % 86400 % 3600 / 60
            second := millis / 1000 % 86400 % 60
            subMillis := 0
            offset := none }
      else none := by
  have hmonth := civilFromDays_month (millis / 1000 / 86400)
  have hday := civilFromDays_day (millis / 1000 / 86400)
  have hsign := civilFromDays_year_nonneg (millis / 1000 / 86400)
  have hyear := civilFromDays_year_le (millis / 1000 / 86400)
  rw [iso8601_eq]
  generalize civilFromDays (millis / 1000 / 86400) = civil at *
  obtain ⟨year, month, day⟩ := civil
  simp only at hmonth hday hsign hyear ⊢
  obtain ⟨seconds, hseconds⟩ : ∃ n, n = (millis / 1000 % 86400).toNat := ⟨_, rfl⟩
  have hcast : millis / 1000 % 86400 = seconds := by omega
  rw [hcast, Int.toNat_natCast]
  unfold readFields
  rw [splitOnce_timestamp]
  simp only [Option.bind_eq_bind, Option.bind_some, readZone_clockText]
  by_cases hpast : -62167219200000 ≤ millis
  · rw [if_pos hpast]
    obtain ⟨year, rfl⟩ : ∃ n : ℕ, year = n := ⟨year.toNat, by omega⟩
    have hdot : '.' ∉ clockText (seconds / 3600) (seconds % 3600 / 60) (seconds % 60) := by
      intro hmem
      rcases mem_clockText hmem with hdigit | heq
      · simp at hdigit
      · cases heq
    rw [dateText_parts, splitOnce_eq_none hdot]
    simp only [clockText_parts, List.getElem?_cons_zero, List.getElem?_cons_succ, Option.bind_some]
    have hy : parseI64 (formatNat 4 year) = some (year : ℤ) := parseI64_pad (by omega)
    have hm : parseU32 (formatNat 2 month) = some month := parseU32_pad (by omega)
    have hd : parseU32 (formatNat 2 day) = some day := parseU32_pad (by omega)
    have hclock : ∀ n ≤ 86400, parseI64 (formatNat 2 n) = some (n : ℤ) := fun n hn =>
      parseI64_pad (by omega)
    rw [hy, hm, hd, hclock _ (by omega), hclock _ (by omega), hclock _ (by omega)]
    simp
  · rw [if_neg hpast, dateText_year_neg (by omega)]
    rfl

/-- The text of an instant is read back as that instant cut down to the whole second; before the
year 0 it cannot be read. -/
theorem millisFromIso8601_iso8601 {millis : ℤ} (h : millis < 2 ^ 63) :
    millisFromIso8601 (iso8601 millis) =
      if -62167219200000 ≤ millis then some (millis / 1000 * 1000) else none := by
  have hback := daysFromCivil_civilFromDays (millis / 1000 / 86400)
  have hmonth := civilFromDays_month (millis / 1000 / 86400)
  have hday := civilFromDays_day (millis / 1000 / 86400)
  rw [millisFromIso8601_eq, readFields_iso8601 h]
  by_cases hpast : -62167219200000 ≤ millis
  · rw [if_pos hpast, if_pos hpast, Option.bind_some, if_pos ⟨hmonth.1, hmonth.2, hday⟩]
    simp only [Fields.millis, Fields.seconds, hback, Option.map_none, Option.getD_none,
      Option.some.injEq]
    omega
  · rw [if_neg hpast, if_neg hpast, Option.bind_none]

end Hedos.Kernel.Time
