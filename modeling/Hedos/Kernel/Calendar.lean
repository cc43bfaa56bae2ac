import Hedos.Kernel.Time
import Hedos.Lib.Fallible
import Mathlib.Tactic.IntervalCases

/-!
# Timestamps in 64 bits

`kernel/src/time.rs` with the width of its integers: a step that leaves an `i64` is an overflow.

* `civil_from_days` and `days_from_civil` are inverse to each other, on the days and on the dates
  that are calculated without overflow, and a timestamp is read back to the second
  (`calendar_and_timestamps`);
* `millis_from_iso8601` checks the month and the day of a timestamp roughly and no other field; it
  is total and strict exactly on the texts whose fields are in range (`total_and_strict_iff`).
-/

namespace Hedos.Kernel.Time

open Fallible

/-! ## Dates -/

def isLeap (year : ℤ) : Bool := year % 4 == 0 && (year % 100 != 0 || year % 400 == 0)

def daysInMonth (year : ℤ) (month : ℕ) : ℕ :=
  if month = 2 then if isLeap year then 29 else 28
  else if month = 4 ∨ month = 6 ∨ month = 9 ∨ month = 11 then 30
  else 31

/-- A day of the calendar. -/
structure IsDate (year : ℤ) (month day : ℕ) : Prop where
  one_le_month : 1 ≤ month
  month_le : month ≤ 12
  one_le_day : 1 ≤ day
  day_le : day ≤ daysInMonth year month

/-! ## Arithmetic with overflow -/

inductive Overflow
  | overflow
deriving DecidableEq

abbrev Checked (α : Type) := Except Overflow α

/-- The value is an `i64`. -/
def Fits (n : ℤ) : Prop := -2 ^ 63 ≤ n ∧ n < 2 ^ 63

instance (n : ℤ) : Decidable (Fits n) := inferInstanceAs (Decidable (_ ∧ _))

/-- The result of a step. -/
def i64 (n : ℤ) : Checked ℤ := if Fits n then .ok n else .error .overflow

/-- `days_from_civil`. What is calculated within an era is small. -/
def daysFromCivilChecked (year : ℤ) (month day : ℕ) : Checked ℤ := do
  let year ← (if month ≤ 2 then i64 (year - 1) else .ok year)
  let shifted ← (if 0 ≤ year then .ok year else i64 (year - 399))
  let era := shifted.tdiv 400
  let before ← i64 (era * 400)
  let yearOfEra ← i64 (year - before)
  let dayOfYear : ℤ :=
    (153 * (if 2 < month then (month : ℤ) - 3 else month + 9) + 2) / 5 + day - 1
  let dayOfEra := yearOfEra * 365 + yearOfEra / 4 - yearOfEra / 100 + dayOfYear
  let days ← i64 (era * 146097)
  let days ← i64 (days + dayOfEra)
  i64 (days - 719468)

/-- `civil_from_days`. What is calculated within an era is small. -/
def civilFromDaysChecked (days : ℤ) : Checked (ℤ × ℕ × ℕ) := do
  let z ← i64 (days + 719468)
  let shifted ← (if 0 ≤ z then .ok z else i64 (z - 146096))
  let era := shifted.tdiv 146097
  let before ← i64 (era * 146097)
  let dayOfEra := (← i64 (z - before)).toNat
  let yearOfEra := (dayOfEra - dayOfEra / 1460 + dayOfEra / 36524 - dayOfEra / 146096) / 365
  let eras ← i64 (era * 400)
  let year ← i64 (yearOfEra + eras)
  let dayOfYear := dayOfEra - (365 * yearOfEra + yearOfEra / 4 - yearOfEra / 100)
  let monthPosition := (5 * dayOfYear + 2) / 153
  let day := dayOfYear - (153 * monthPosition + 2) / 5 + 1
  let month := if monthPosition < 10 then monthPosition + 3 else monthPosition - 9
  let year ← (if month ≤ 2 then i64 (year + 1) else .ok year)
  return (year, month, day)

def step (n : ℤ) : OptionT Checked ℤ := OptionT.lift (i64 n)

def readOffsetChecked (time : Text) : OptionT Checked (Text × ℤ) :=
  match splitAtLastSign time with
  | none => pure (time, 0)
  | some (time, sign, offset) => do
    let (hours, minutes) ← ofOption (splitOnce ':' offset)
    let hours ← step ((← ofOption (parseI64 hours)) * 3600)
    let minutes ← step ((← ofOption (parseI64 minutes)) * 60)
    let seconds ← step (hours + minutes)
    if sign = '-' then
      let seconds ← step (-seconds)
      pure (time, seconds)
    else pure (time, seconds)

/-- `millis_from_iso8601`; `none` is a text that is refused. -/
def millisFromIso8601Checked (text : Text) : OptionT Checked ℤ := do
  let (date, time) ← ofOption (splitOnce 'T' (trimEndMatches 'Z' (Upstream.trim text)))
  let (time, offsetSeconds) ← readOffsetChecked time
  let dateParts := date.splitOn '-'
  let year ← ofOption (dateParts[0]?.bind parseI64)
  let month ← ofOption (dateParts[1]?.bind parseU32)
  let day ← ofOption (dateParts[2]?.bind parseU32)
  if ¬ (1 ≤ month ∧ month ≤ 12 ∧ 1 ≤ day ∧ day ≤ 31) then ofOption none
  else
    let (hms, fraction) := match splitOnce '.' time with
      | some (hms, fraction) => (hms, some fraction)
      | none => (time, none)
    let timeParts := hms.splitOn ':'
    let hour ← ofOption (timeParts[0]?.bind parseI64)
    let minute ← ofOption (timeParts[1]?.bind parseI64)
    let second ← ofOption (timeParts[2]?.bind parseI64)
    let days ← OptionT.lift (daysFromCivilChecked year month day)
    let days ← step (days * 86400)
    let hours ← step (hour * 3600)
    let seconds ← step (days + hours)
    let minutes ← step (minute * 60)
    let seconds ← step (seconds + minutes)
    let seconds ← step (seconds + second)
    let seconds ← step (seconds - offsetSeconds)
    let millis ← step (seconds * 1000)
    step (millis + (fraction.map subMillis).getD 0)

/-! ## The calendar in unbounded integers -/

/-- The days of the years of an era before one of them. -/
def yearStart (year : ℕ) : ℕ := 365 * year + year / 4 - year / 100

theorem yearStart_succ (year : ℕ) :
    yearStart (year + 1) + (if (year + 1) % 100 = 0 then 1 else 0) =
      yearStart year + 365 + if (year + 1) % 4 = 0 then 1 else 0 := by
  have hfour : (year + 1) / 4 = year / 4 + if (year + 1) % 4 = 0 then 1 else 0 := by
    split <;> omega
  have hhundred : (year + 1) / 100 = year / 100 + if (year + 1) % 100 = 0 then 1 else 0 := by
    split <;> omega
  have hleaps : year / 100 ≤ year / 4 := Nat.div_le_div_left (by decide) (by decide)
  have hnext : (year + 1) / 100 ≤ (year + 1) / 4 := Nat.div_le_div_left (by decide) (by decide)
  unfold yearStart
  omega

theorem yearStart_mono {year later : ℕ} (h : year ≤ later) : yearStart year ≤ yearStart later := by
  refine monotone_nat_of_le_succ (fun year => ?_) h
  have hstep := yearStart_succ year
  split at hstep <;> omega

variable {day month : ℕ} {year n m days : ℤ} {post : ℤ → Prop} {fields : Fields}

/-- A day of a year is before the next one. -/
theorem lt_yearStart_succ {year : ℕ} (hyear : year ≤ 398) (hday : day ≤ 365)
    (hleap : day = 365 → (year + 1) % 4 = 0 ∧ ((year + 1) % 100 = 0 → year = 399)) :
    yearStart year + day < yearStart (year + 1) := by
  have hstep := yearStart_succ year
  by_cases hlast : day = 365
  · obtain ⟨hfour, hhundred⟩ := hleap hlast
    have hnot : (year + 1) % 100 ≠ 0 := fun h => by
      have := hhundred h
      omega
    rw [if_neg hnot, if_pos hfour] at hstep
    omega
  · split_ifs at hstep <;> omega

/-- A day lies in one year of one era. -/
theorem era_unique {era era' : ℤ} {year year' day' : ℕ} (hyear : year ≤ 399)
    (hyear' : year' ≤ 399) (hday : day ≤ 365) (hday' : day' ≤ 365)
    (hleap : day = 365 → (year + 1) % 4 = 0 ∧ ((year + 1) % 100 = 0 → year = 399))
    (hleap' : day' = 365 → (year' + 1) % 4 = 0 ∧ ((year' + 1) % 100 = 0 → year' = 399))
    (h : era * 146097 + (yearStart year + day : ℕ) = era' * 146097 + (yearStart year' + day' : ℕ)) :
    era = era' ∧ year = year' ∧ day = day' := by
  have hlast : yearStart 399 = 145731 := by decide
  have hlow := yearStart_mono hyear
  have hlow' := yearStart_mono hyear'
  obtain rfl : era = era' := by omega
  have hsum : yearStart year + day = yearStart year' + day' := by omega
  rcases lt_trichotomy year year' with hlt | rfl | hlt
  · have hstep := lt_yearStart_succ (by omega) hday hleap
    have hmono := yearStart_mono (show year + 1 ≤ year' from hlt)
    omega
  · exact ⟨rfl, rfl, by omega⟩
  · have hstep := lt_yearStart_succ (by omega) hday' hleap'
    have hmono := yearStart_mono (show year' + 1 ≤ year from hlt)
    omega

theorem isLeap_iff : isLeap year = true ↔ year % 4 = 0 ∧ (year % 100 ≠ 0 ∨ year % 400 = 0) := by
  simp [isLeap]

theorem civilFromDays_isDate (days : ℤ) :
    IsDate (civilFromDays days).1 (civilFromDays days).2.1 (civilFromDays days).2.2 := by
  have hmonth := civilFromDays_month days
  have hday := civilFromDays_day days
  refine ⟨hmonth.1, hmonth.2, hday.1, ?_⟩
  obtain ⟨era, year, day, hyear, hday, hleap, -, -, hcivil⟩ := civilFromDays_spec days
  rw [hcivil]
  obtain ⟨position, hposition⟩ : ∃ p, p = (5 * day + 2) / 153 := ⟨_, rfl⟩
  have hlast : position ≤ 11 := by omega
  simp only [← hposition]
  by_cases hfebruary : position = 11
  · subst hfebruary
    have hlong : day = 365 → isLeap (year + era * 400 + 1) = true := by
      intro h
      rw [isLeap_iff]
      obtain ⟨hfour, hhundred⟩ := hleap h
      omega
    simp only [daysInMonth]
    norm_num
    split
    · omega
    · rename_i hshort
      have hne : day ≠ 365 := fun h => hshort (hlong h)
      omega
  · interval_cases position <;> simp [daysInMonth] <;> omega

/-- Where a date lies, counted from March. -/
theorem daysFromCivil_spec (h : IsDate year month day) :
    ∃ (era : ℤ) (yearOfEra dayOfYear position : ℕ), yearOfEra ≤ 399 ∧ dayOfYear ≤ 365 ∧
      (dayOfYear = 365 → (yearOfEra + 1) % 4 = 0 ∧ ((yearOfEra + 1) % 100 = 0 → yearOfEra = 399)) ∧
      daysFromCivil year month day + 719468 = era * 146097 + (yearStart yearOfEra + dayOfYear : ℕ) ∧
      (5 * dayOfYear + 2) / 153 = position ∧
      year = (if position < 10 then yearOfEra + era * 400 else yearOfEra + era * 400 + 1) ∧
      month = (if position < 10 then position + 3 else position - 9) ∧
      day = dayOfYear - (153 * position + 2) / 5 + 1 := by
  obtain ⟨hone, hmonth, hfirst, hlast⟩ := h
  obtain ⟨shifted, hshifted⟩ : ∃ y, y = if month ≤ 2 then year - 1 else year := ⟨_, rfl⟩
  have htdiv := tdiv_floor (n := shifted) (d := 400) (by decide)
  norm_num only at htdiv
  obtain ⟨yearOfEra, hyearOfEra⟩ : ∃ n : ℕ, n = (shifted - shifted / 400 * 400).toNat := ⟨_, rfl⟩
  obtain ⟨position, hposition⟩ : ∃ p, p = if 2 < month then month - 3 else month + 9 := ⟨_, rfl⟩
  have hcast : (yearOfEra : ℤ) = shifted - shifted / 400 * 400 := by omega
  have hbound : yearOfEra ≤ 399 := by omega
  have hcivil : daysFromCivil year month day + 719468 = shifted / 400 * 146097 +
      (yearStart yearOfEra + ((153 * position + 2) / 5 + day - 1) : ℕ) := by
    have hleaps : yearOfEra / 100 ≤ 365 * yearOfEra + yearOfEra / 4 := by omega
    have hmarch : (153 * (if 2 < month then (month : ℤ) - 3 else month + 9) + 2) / 5 =
        ((153 * position + 2) / 5 : ℕ) := by
      split_ifs at hposition ⊢ <;> omega
    unfold daysFromCivil yearStart
    simp only [← hshifted, htdiv, ← hcast, hmarch]
    omega
  have hmonth_eq : month = if position < 10 then position + 3 else position - 9 := by
    split_ifs at hposition ⊢ <;> omega
  have hyear : year = if position < 10 then (yearOfEra : ℤ) + shifted / 400 * 400
      else yearOfEra + shifted / 400 * 400 + 1 := by
    split_ifs at hposition hshifted ⊢ <;> omega
  have hposition_le : position ≤ 11 := by split_ifs at hposition <;> omega
  have hlength : day ≤ if position = 11 then (if isLeap year then 29 else 28)
      else (153 * (position + 1) + 2) / 5 - (153 * position + 2) / 5 := by
    rw [hmonth_eq] at hlast
    clear hcivil hyear hmonth_eq hposition
    interval_cases position <;> simpa [daysInMonth] using hlast
  have hcut : day = (153 * position + 2) / 5 + day - 1 - (153 * position + 2) / 5 + 1 := by omega
  refine ⟨shifted / 400, yearOfEra, (153 * position + 2) / 5 + day - 1, position, hbound, ?_, ?_,
    hcivil, ?_, hyear, hmonth_eq, hcut⟩
  · have hshort : (if isLeap year then 29 else 28) ≤ 29 := by split <;> omega
    clear hcivil hyear hmonth_eq hposition hcut
    interval_cases position <;> simp at hlength <;> omega
  · intro hend
    have hfebruary : position = 11 ∧ isLeap year = true := by
      by_cases hlate : position = 11
      · refine ⟨hlate, ?_⟩
        by_contra hshort
        rw [if_pos hlate, if_neg hshort] at hlength
        omega
      · rw [if_neg hlate] at hlength
        omega
    have hnext : year = yearOfEra + shifted / 400 * 400 + 1 := by
      rw [hyear, if_neg (by omega)]
    have hleap := isLeap_iff.1 hfebruary.2
    omega
  · have hshort : (if isLeap year then 29 else 28) ≤ 29 := by split <;> omega
    clear hcivil hyear hmonth_eq hposition hcut
    interval_cases position <;> simp at hlength <;> omega

/-- A date is found again from its day. -/
theorem civilFromDays_daysFromCivil (h : IsDate year month day) :
    civilFromDays (daysFromCivil year month day) = (year, month, day) := by
  obtain ⟨era, yearOfEra, dayOfYear, position, hyear, hday, hleap, hdays, hposition, hy, hm, hd⟩ :=
    daysFromCivil_spec h
  obtain ⟨era', year', day', hyear', hday', hleap', -, hdays', hcivil⟩ :=
    civilFromDays_spec (daysFromCivil year month day)
  have hsame : era * 146097 + (yearStart yearOfEra + dayOfYear : ℕ) =
      era' * 146097 + (yearStart year' + day' : ℕ) := hdays.symm.trans hdays'
  obtain ⟨rfl, rfl, rfl⟩ := era_unique hyear hyear' hday hday' hleap hleap' hsame
  rw [hcivil, hposition, ← hy, ← hm, ← hd]

/-! ## The calendar in 64 bits -/

@[simp] theorem i64_eq_ok : i64 n = .ok m ↔ n = m ∧ Fits n := by
  unfold i64
  split <;> simp_all

theorem bind_eq_ok {α β : Type} {x : Checked α} {f : α → Checked β} {b : β} :
    (x >>= f) = .ok b ↔ ∃ a, x = .ok a ∧ f a = .ok b := by
  cases x with
  | error e =>
    refine ⟨fun h => ?_, fun h => ?_⟩
    · cases h
    · obtain ⟨a, ha, -⟩ := h
      cases ha
  | ok a =>
    refine ⟨fun h => ⟨a, rfl, h⟩, fun h => ?_⟩
    obtain ⟨_, ha, hb⟩ := h
    cases ha
    exact hb

/-- A step that is taken in one case only. -/
theorem ite_i64_eq_ok {p : Prop} [Decidable p] {r : ℤ} :
    ((if p then i64 n else .ok m : Checked ℤ) = .ok r) ↔
      (if p then n else m) = r ∧ (p → Fits n) := by
  by_cases h : p <;> simp [h]

theorem ite_ok_eq_ok {p : Prop} [Decidable p] {r : ℤ} :
    ((if p then .ok m else i64 n : Checked ℤ) = .ok r) ↔
      (if p then m else n) = r ∧ (¬ p → Fits n) := by
  by_cases h : p <;> simp [h]

/-- The days of a date are calculated where they and the days since March of the year 0 fit. -/
theorem daysFromCivilChecked_eq_ok (hmonth : month ≤ 12) (hday : day ≤ 31) :
    daysFromCivilChecked year month day = .ok days ↔
      daysFromCivil year month day = days ∧ Fits days ∧ Fits (days + 719468) := by
  obtain ⟨shifted, hshifted⟩ : ∃ y, y = if month ≤ 2 then year - 1 else year := ⟨_, rfl⟩
  have htdiv := tdiv_floor (n := shifted) (d := 400) (by decide)
  norm_num only at htdiv
  obtain ⟨within, hwithin⟩ : ∃ n : ℤ,
      n = (153 * (if 2 < month then (month : ℤ) - 3 else month + 9) + 2) / 5 := ⟨_, rfl⟩
  have hsmall : 0 ≤ within ∧ within ≤ 337 := by split_ifs at hwithin <;> omega
  unfold daysFromCivilChecked daysFromCivil
  simp only [bind_eq_ok, i64_eq_ok, ite_i64_eq_ok, ite_ok_eq_ok, and_assoc, exists_eq_left',
    ← hshifted, ← hwithin, htdiv]
  clear hwithin htdiv
  unfold Fits
  constructor
  · intro h
    omega
  · intro h
    split_ifs at hshifted <;> omega

/-- The date of a day is calculated where the days since March of the year 0 fit. -/
theorem civilFromDaysChecked_eq_ok {date : ℤ × ℕ × ℕ} (hdays : Fits days) :
    civilFromDaysChecked days = .ok date ↔ civilFromDays days = date ∧ Fits (days + 719468) := by
  obtain ⟨z, hz⟩ : ∃ z, z = days + 719468 := ⟨_, rfl⟩
  have htdiv := tdiv_floor (n := z) (d := 146097) (by decide)
  norm_num only at htdiv
  obtain ⟨dayOfEra, hday⟩ : ∃ n, n = (z - z / 146097 * 146097).toNat := ⟨_, rfl⟩
  obtain ⟨yearOfEra, hyear⟩ : ∃ y, y =
      (dayOfEra - dayOfEra / 1460 + dayOfEra / 36524 - dayOfEra / 146096) / 365 := ⟨_, rfl⟩
  obtain ⟨month, hmonth⟩ : ∃ m, m = if (5 * (dayOfEra - (365 * yearOfEra + yearOfEra / 4 -
      yearOfEra / 100)) + 2) / 153 < 10 then (5 * (dayOfEra - (365 * yearOfEra + yearOfEra / 4 -
      yearOfEra / 100)) + 2) / 153 + 3 else (5 * (dayOfEra - (365 * yearOfEra + yearOfEra / 4 -
      yearOfEra / 100)) + 2) / 153 - 9 := ⟨_, rfl⟩
  have hlate := (yearOfEra_bounds (by omega) hyear).2.2
  unfold civilFromDaysChecked civilFromDays
  simp only [bind_eq_ok, i64_eq_ok, ite_i64_eq_ok, ite_ok_eq_ok, and_assoc, exists_eq_left',
    ← hz, htdiv, ← hday, ← hyear, ← hmonth]
  clear hday hyear hmonth htdiv
  unfold Fits at *
  constructor
  · intro h
    obtain ⟨hz, -, -, -, -, -, -, hdate⟩ := h
    exact ⟨Except.ok.inj hdate, hz⟩
  · intro h
    obtain ⟨rfl, hz⟩ := h
    refine ⟨hz, ?_, ?_, ?_, ?_, ?_, ?_, rfl⟩ <;> omega

/-! ## Which texts are safe to read -/

/-- The arithmetic of the offset does not overflow. -/
def OffsetFits (time : Text) : Prop :=
  ∀ cut, splitAtLastSign time = some cut → ∀ parts, splitOnce ':' cut.2.2 = some parts →
    ∀ hours, parseI64 parts.1 = some hours → Fits (hours * 3600) ∧
      ∀ minutes, parseI64 parts.2 = some minutes →
        Fits (minutes * 60) ∧ Fits (hours * 3600 + minutes * 60) ∧
          (cut.2.1 = '-' → Fits (-(hours * 3600 + minutes * 60)))

/-- The arithmetic of the instant does not overflow. -/
structure Fields.Calculable (fields : Fields) : Prop where
  days : Fits (daysFromCivil fields.year fields.month fields.day)
  march : Fits (daysFromCivil fields.year fields.month fields.day + 719468)
  daySeconds : Fits (daysFromCivil fields.year fields.month fields.day * 86400)
  hourSeconds : Fits (fields.hour * 3600)
  hours : Fits (daysFromCivil fields.year fields.month fields.day * 86400 + fields.hour * 3600)
  minuteSeconds : Fits (fields.minute * 60)
  minutes : Fits (daysFromCivil fields.year fields.month fields.day * 86400 + fields.hour * 3600 +
    fields.minute * 60)
  utc : Fits (daysFromCivil fields.year fields.month fields.day * 86400 + fields.hour * 3600 +
    fields.minute * 60 + fields.second)
  seconds : Fits fields.seconds
  whole : Fits (fields.seconds * 1000)
  millis : Fits fields.millis

@[simp] theorem safe_step : Safe (step n) post ↔ Fits n ∧ post n := by
  rw [step, safe_lift]
  simp [and_assoc]

theorem safe_readOffset {time : Text} {post : Text × ℤ → Prop} :
    Safe (readOffsetChecked time) post ↔ OffsetFits time ∧ ∀ read, readZone time = some read →
      post (read.1, (read.2.map Offset.seconds).getD 0) := by
  unfold readOffsetChecked OffsetFits readZone
  cases hsign : splitAtLastSign time with
  | none => simp [safe_pure]
  | some cut =>
    obtain ⟨before, sign, offset⟩ := cut
    cases hparts : splitOnce ':' offset with
    | none => simp [safe_bind, safe_ofOption, hparts]
    | some parts =>
      obtain ⟨hours, minutes⟩ := parts
      cases hhours : parseI64 hours with
      | none => simp [safe_bind, safe_ofOption, hparts, hhours]
      | some h =>
        cases hminutes : parseI64 minutes with
        | none => simp [safe_bind, safe_ofOption, hparts, hhours, hminutes]
        | some m =>
          by_cases hminus : sign = '-' <;>
            simp [safe_bind, safe_ofOption, safe_map, hparts, hhours, hminutes, hminus,
              Offset.seconds, and_assoc]

/-- The seconds of the instant, step by step. -/
theorem safe_instant (fields : Fields) (post : ℤ → Prop) (h : fields.Admitted) :
    (Safe (OptionT.lift (daysFromCivilChecked fields.year fields.month fields.day)) fun days =>
      Safe (step (days * 86400)) fun days => Safe (step (fields.hour * 3600)) fun hours =>
      Safe (step (days + hours)) fun seconds => Safe (step (fields.minute * 60)) fun minutes =>
      Safe (step (seconds + minutes)) fun seconds =>
      Safe (step (seconds + fields.second)) fun seconds =>
      Safe (step (seconds - (fields.offset.map Offset.seconds).getD 0)) fun seconds =>
      Safe (step (seconds * 1000)) fun millis => Safe (step (millis + fields.subMillis)) post) ↔
    fields.Calculable ∧ post fields.millis := by
  simp only [safe_lift, safe_step, daysFromCivilChecked_eq_ok h.2.1 h.2.2.2, and_assoc,
    exists_eq_left']
  constructor
  · intro h
    obtain ⟨h1, h2, h3, h4, h5, h6, h7, h8, h9, h10, h11, hpost⟩ := h
    exact ⟨⟨h1, h2, h3, h4, h5, h6, h7, h8, h9, h10, h11⟩, hpost⟩
  · intro h
    obtain ⟨⟨h1, h2, h3, h4, h5, h6, h7, h8, h9, h10, h11⟩, hpost⟩ := h
    exact ⟨h1, h2, h3, h4, h5, h6, h7, h8, h9, h10, h11, hpost⟩

theorem safe_clock {subMillis : ℤ} {parts : List Text}
    {offset : Option Offset} (h : 1 ≤ month ∧ month ≤ 12 ∧ 1 ≤ day ∧ day ≤ 31) :
    (∀ hour, parts[0]?.bind parseI64 = some hour → ∀ minute, parts[1]?.bind parseI64 = some minute →
      ∀ second, parts[2]?.bind parseI64 = some second →
      Safe (OptionT.lift (daysFromCivilChecked year month day)) fun days =>
      Safe (step (days * 86400)) fun days => Safe (step (hour * 3600)) fun hours =>
      Safe (step (days + hours)) fun seconds => Safe (step (minute * 60)) fun minutes =>
      Safe (step (seconds + minutes)) fun seconds => Safe (step (seconds + second)) fun seconds =>
      Safe (step (seconds - (offset.map Offset.seconds).getD 0)) fun seconds =>
      Safe (step (seconds * 1000)) fun millis => Safe (step (millis + subMillis)) post) ↔
    ∀ fields, ((parts[0]?.bind parseI64).bind fun hour =>
        (parts[1]?.bind parseI64).bind fun minute => (parts[2]?.bind parseI64).bind fun second =>
          some (Fields.mk year month day hour minute second subMillis offset)) = some fields →
      fields.Admitted → fields.Calculable ∧ post fields.millis := by
  cases parts[0]?.bind parseI64 with
  | none => simp
  | some hour =>
    cases parts[1]?.bind parseI64 with
    | none => simp
    | some minute =>
      cases parts[2]?.bind parseI64 with
      | none => simp
      | some second =>
        simp only [Option.some.injEq, forall_eq', Option.bind_some]
        have hinstant := safe_instant
          ⟨year, month, day, hour, minute, second, subMillis, offset⟩ post h
        simp only at hinstant
        rw [hinstant]
        exact ⟨fun h _ => h, fun hall => hall h⟩

theorem date_of_clock {hour minute second : Option ℤ} {subMillis : ℤ}
    {offset : Option Offset}
    (h : (hour.bind fun hour => minute.bind fun minute => second.bind fun second =>
      some (Fields.mk year month day hour minute second subMillis offset)) = some fields) :
    fields.month = month ∧ fields.day = day := by
  obtain ⟨hour, -, h⟩ := Option.bind_eq_some_iff.1 h
  obtain ⟨minute, -, h⟩ := Option.bind_eq_some_iff.1 h
  obtain ⟨second, -, h⟩ := Option.bind_eq_some_iff.1 h
  cases h
  exact ⟨rfl, rfl⟩

theorem safe_millisFromIso8601 {text : Text} :
    Safe (millisFromIso8601Checked text) post ↔
      (∀ halves, splitOnce 'T' (trimEndMatches 'Z' (Upstream.trim text)) = some halves →
        OffsetFits halves.2) ∧
      ∀ fields, readFields text = some fields → fields.Admitted →
        fields.Calculable ∧ post fields.millis := by
  unfold millisFromIso8601Checked readFields
  cases splitOnce 'T' (trimEndMatches 'Z' (Upstream.trim text)) with
  | none => exact iff_of_true safe_none_bind ⟨fun _ h => (by cases h), fun _ h => (by cases h)⟩
  | some halves =>
    obtain ⟨date, time⟩ := halves
    rw [safe_some_bind]
    dsimp only
    rw [safe_bind, safe_readOffset]
    simp only [Option.some.injEq, forall_eq']
    refine and_congr_right fun _ => ?_
    show _ ↔ ∀ fields, (readZone time).bind _ = some fields → _
    cases readZone time with
    | none => exact iff_of_true (fun _ h => by cases h) fun _ h => by cases h
    | some zone =>
      obtain ⟨time, offset⟩ := zone
      simp only [Option.some.injEq, forall_eq']
      cases (date.splitOn '-')[0]?.bind parseI64 with
      | none => exact iff_of_true safe_none_bind fun _ h => by cases h
      | some year =>
        rw [safe_some_bind]
        cases (date.splitOn '-')[1]?.bind parseU32 with
        | none => exact iff_of_true safe_none_bind fun _ h => by cases h
        | some month =>
          rw [safe_some_bind]
          cases (date.splitOn '-')[2]?.bind parseU32 with
          | none => exact iff_of_true safe_none_bind fun _ h => by cases h
          | some day =>
            rw [safe_some_bind]
            by_cases hdate : 1 ≤ month ∧ month ≤ 12 ∧ 1 ≤ day ∧ day ≤ 31
            · rw [if_neg (not_not.2 hdate)]
              simp only [safe_bind, safe_ofOption, Option.bind_eq_bind, Option.bind_some]
              cases splitOnce '.' time <;> exact safe_clock hdate
            · rw [if_pos hdate, safe_ofOption]
              refine iff_of_true (fun _ h => by cases h) fun fields hread hadmitted => ?_
              have hsame : fields.month = month ∧ fields.day = day := by
                simp only [Option.bind_eq_bind, Option.bind_some] at hread
                exact date_of_clock hread
              exact absurd (hsame.1 ▸ hsame.2 ▸ hadmitted) hdate

/-- Every field is in its range. -/
structure Fields.InRange (fields : Fields) : Prop where
  date : IsDate fields.year fields.month fields.day
  hour : 0 ≤ fields.hour ∧ fields.hour < 24
  minute : 0 ≤ fields.minute ∧ fields.minute < 60
  second : 0 ≤ fields.second ∧ fields.second < 60
  offset : ∀ offset, fields.offset = some offset →
    (0 ≤ offset.hours ∧ offset.hours < 24) ∧ 0 ≤ offset.minutes ∧ offset.minutes < 60

theorem IsDate.day_le_31 (h : IsDate year month day) : day ≤ 31 := by
  have hlast := h.day_le
  unfold daysInMonth at hlast
  split_ifs at hlast <;> omega

theorem Fields.InRange.offset_bound (h : fields.InRange) :
    -86400 < (fields.offset.map Offset.seconds).getD 0 ∧
      (fields.offset.map Offset.seconds).getD 0 < 86400 := by
  cases hoffset : fields.offset with
  | none => simp
  | some offset =>
    have hbound := h.offset offset hoffset
    simp only [Option.map_some, Option.getD_some, Offset.seconds]
    split <;> omega

/-- In range, only the instant itself can be too far away. -/
theorem Fields.InRange.calculable (h : fields.InRange)
    (hwhole : Fits (fields.seconds * 1000)) (hmillis : Fits fields.millis) :
    fields.Calculable := by
  have hoffset := h.offset_bound
  have hhour := h.hour
  have hminute := h.minute
  have hsecond := h.second
  have hseconds : fields.seconds = daysFromCivil fields.year fields.month fields.day * 86400 +
      fields.hour * 3600 + fields.minute * 60 + fields.second -
        (fields.offset.map Offset.seconds).getD 0 := rfl
  unfold Fits at hwhole
  constructor <;> first | exact hmillis | (unfold Fits; omega)

/-- The reading ends, and gives an instant only for a timestamp whose fields are in range. -/
def TotalAndStrict (text : Text) : Prop :=
  ∃ result, (millisFromIso8601Checked text).run = .ok result ∧
    ∀ millis, result = some millis → ∃ fields, readFields text = some fields ∧ fields.InRange

/-- A text is read safely exactly when its offset can be calculated and, if its date passes the
rough check, its fields are in range and its instant is one that `i64` milliseconds reach. -/
theorem total_and_strict_iff (text : Text) :
    TotalAndStrict text ↔
      (∀ halves, splitOnce 'T' (trimEndMatches 'Z' (Upstream.trim text)) = some halves →
        OffsetFits halves.2) ∧
      ∀ fields, readFields text = some fields → fields.Admitted →
        fields.InRange ∧ Fits (fields.seconds * 1000) ∧ Fits fields.millis := by
  have hsafe : TotalAndStrict text ↔ Safe (millisFromIso8601Checked text) fun _ =>
      ∃ fields, readFields text = some fields ∧ fields.InRange := Iff.rfl
  rw [hsafe, safe_millisFromIso8601]
  refine and_congr_right fun _ => forall_congr' fun fields => ?_
  refine imp_congr_right fun hread => imp_congr_right fun _ => ?_
  constructor
  · intro h
    obtain ⟨hcalc, read, hsame, hrange⟩ := h
    rw [hread, Option.some.injEq] at hsame
    exact ⟨hsame ▸ hrange, hcalc.whole, hcalc.millis⟩
  · intro h
    exact ⟨h.1.calculable h.2.1 h.2.2, fields, hread, h.1⟩

/-- The thirtieth of February, at an hour that no day has. -/
theorem no_such_day_is_read :
    ¬ TotalAndStrict "2024-02-30T25:61:61Z".toList := by
  intro h
  obtain ⟨result, hrun, hstrict⟩ := h
  have hgiven : (millisFromIso8601Checked "2024-02-30T25:61:61Z".toList).run =
      .ok (some 1709344921000) := by decide +kernel
  obtain rfl : some 1709344921000 = result := Except.ok.inj (hgiven.symm.trans hrun)
  obtain ⟨fields, hread, hrange⟩ := hstrict _ rfl
  have hfields : (readFields "2024-02-30T25:61:61Z".toList).map (·.hour) = some 25 := by
    decide +kernel
  rw [hread] at hfields
  have hhour : fields.hour = 25 := by simpa using hfields
  have := hrange.hour
  omega

/-! ## There and back in 64 bits -/

theorem daysFromCivilChecked_eq (hmonth : month ≤ 12)
    (hday : day ≤ 31) (h : daysFromCivilChecked year month day = .ok days) :
    days = daysFromCivil year month day :=
  ((daysFromCivilChecked_eq_ok hmonth hday).1 h).1.symm

theorem agrees_step (n : ℤ) : Agrees (step n) (some n) := by
  intro result hrun
  unfold step i64 at hrun
  split at hrun
  · exact (Except.ok.inj hrun).symm
  · cases hrun

theorem agrees_readOffset (time : Text) : Agrees (readOffsetChecked time) (readOffset time) := by
  unfold readOffsetChecked readOffset
  have hstep : ∀ n m, i64 n = .ok m → m = n := fun n m h => (i64_eq_ok.1 h).1.symm
  cases splitAtLastSign time with
  | none => exact agrees_pure _
  | some cut =>
    obtain ⟨before, sign, offset⟩ := cut
    refine agrees_bind (agrees_ofOption _) fun parts => ?_
    refine agrees_bind (agrees_ofOption _) fun hours => agrees_lift_bind (hstep _) ?_
    refine agrees_bind (agrees_ofOption _) fun minutes => agrees_lift_bind (hstep _) ?_
    refine agrees_lift_bind (hstep _) ?_
    by_cases hminus : sign = '-'
    · simp only [hminus, if_true]
      exact agrees_lift_bind (hstep _) (agrees_pure _)
    · simp only [hminus, if_false]
      exact agrees_pure _

/-- Without overflow, the reading is the one in unbounded integers. -/
theorem agrees_millisFromIso8601 (text : Text) :
    Agrees (millisFromIso8601Checked text) (millisFromIso8601 text) := by
  unfold millisFromIso8601Checked millisFromIso8601
  have hstep : ∀ n m, i64 n = .ok m → m = n := fun n m h => (i64_eq_ok.1 h).1.symm
  refine agrees_bind (agrees_ofOption _) fun halves => ?_
  refine agrees_bind (agrees_readOffset _) fun zone => ?_
  refine agrees_bind (agrees_ofOption _) fun year => agrees_bind (agrees_ofOption _) fun month => ?_
  refine agrees_bind (agrees_ofOption _) fun day => ?_
  by_cases hdate : 1 ≤ month ∧ month ≤ 12 ∧ 1 ≤ day ∧ day ≤ 31
  · simp only [if_neg (not_not.2 hdate)]
    refine agrees_bind (agrees_ofOption _) fun hour => ?_
    refine agrees_bind (agrees_ofOption _) fun minute => ?_
    refine agrees_bind (agrees_ofOption _) fun second => ?_
    refine agrees_lift_bind (fun days h => daysFromCivilChecked_eq hdate.2.1 hdate.2.2.2 h) ?_
    iterate 8 refine agrees_lift_bind (hstep _) ?_
    exact agrees_step _
  · simp only [if_pos hdate]
    exact agrees_ofOption none

/-- Wherever nothing overflows, the calendar is a bijection between days and dates; and a timestamp
from the year 0 on is written and read back to the second. -/
theorem calendar_and_timestamps :
    (∀ days year month day, Fits days → civilFromDaysChecked days = .ok (year, month, day) →
      IsDate year month day ∧ daysFromCivilChecked year month day = .ok days) ∧
    (∀ year month day days, IsDate year month day →
      daysFromCivilChecked year month day = .ok days →
        civilFromDaysChecked days = .ok (year, month, day)) ∧
    ∀ millis, Fits millis → 0 ≤ (civilFromDays (millis / 1000 / 86400)).1 →
      civilFromDaysChecked (millis / 1000 / 86400) = .ok (civilFromDays (millis / 1000 / 86400)) ∧
      (millisFromIso8601Checked (iso8601 millis)).run = .ok (some (millis / 1000 * 1000)) := by
  refine ⟨fun days year month day hdays hcivil => ?_, fun year month day days hdate hdays => ?_,
    fun millis hmillis hyear => ⟨?_, ?_⟩⟩
  · obtain ⟨hcivil, hfits⟩ := (civilFromDaysChecked_eq_ok hdays).1 hcivil
    have hdate := civilFromDays_isDate days
    have hback := daysFromCivil_civilFromDays days
    rw [hcivil] at hdate hback
    refine ⟨hdate, ?_⟩
    rw [daysFromCivilChecked_eq_ok hdate.month_le hdate.day_le_31]
    exact ⟨hback, hdays, hfits⟩
  · obtain ⟨hcivil, hfits, hmarch⟩ :=
      (daysFromCivilChecked_eq_ok hdate.month_le hdate.day_le_31).1 hdays
    rw [civilFromDaysChecked_eq_ok hfits, ← hcivil]
    exact ⟨civilFromDays_daysFromCivil hdate, hcivil ▸ hmarch⟩
  · unfold Fits at hmillis
    refine (civilFromDaysChecked_eq_ok ?_).2 ⟨rfl, ?_⟩ <;> (unfold Fits; omega)
  · obtain ⟨hlow, hhigh⟩ := hmillis
    have hpast : -62167219200000 ≤ millis := by
      have hsign := (civilFromDays_year_nonneg (millis / 1000 / 86400)).1 hyear
      omega
    have hdate := civilFromDays_isDate (millis / 1000 / 86400)
    have hback := daysFromCivil_civilFromDays (millis / 1000 / 86400)
    have hread := readFields_iso8601 hhigh
    rw [if_pos hpast] at hread
    have hagrees := agrees_millisFromIso8601 (iso8601 millis)
    rw [millisFromIso8601_iso8601 hhigh, if_pos hpast] at hagrees
    have hsafe : TotalAndStrict (iso8601 millis) := by
      rw [total_and_strict_iff]
      constructor
      · intro halves hhalves cut hcut
        rw [iso8601_eq, splitOnce_timestamp, Option.some.injEq] at hhalves
        subst hhalves
        rw [splitAtLastSign_clockText] at hcut
        cases hcut
      · intro fields hfields _
        rw [hread, Option.some.injEq] at hfields
        subst hfields
        refine ⟨⟨hdate, ?_, ?_, ?_, fun offset h => by cases h⟩, ?_, ?_⟩
        · simp only
          omega
        · simp only
          omega
        · simp only
          omega
        · simp only [Fields.seconds, hback, Option.map_none, Option.getD_none, Fits]
          omega
        · simp only [Fields.millis, Fields.seconds, hback, Option.map_none, Option.getD_none, Fits]
          omega
    obtain ⟨result, hrun, -⟩ := hsafe
    rw [hrun, hagrees result hrun]

end Hedos.Kernel.Time
