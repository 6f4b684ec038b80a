import Rabotka.Events.Recurrence

/-!
# The dates of the recurrence expander

`addUnits` of `RecurrenceExpanderService` as it goes through `Date.UTC`. A date is a number of
milliseconds. `Date.UTC` carries months and days that are outside their range, and takes a year
from 0 to 99 as one of the twentieth century (`fullYear`).

The last point is what separates the code from the calendar: where a date falls in such a year,
or a monthly one starts in one, it comes out 1900 years late (`Late`). In any case it is the day of
the anchor, pulled back to the end of its month, in the month that is as many periods later or
1900 years later still (`addUnits_clamped`); days and weeks move by days (`addUnits_days`).

The range of JavaScript's dates, which ends in the year 275760, is not modelled: requests carry
dates of four-digit years.
-/

namespace Rabotka.Expander

open Calendar
open Events (RecurrenceFrequency)

/-! ### Components -/

def getUTCFullYear (date : ℤ) : ℤ := monthOf (date / msPerDay) / 12

/-- From 0 for January. -/
def getUTCMonth (date : ℤ) : ℤ := monthOf (date / msPerDay) % 12

def getUTCDate (date : ℤ) : ℤ := dayOfMonth (date / msPerDay)

/-- Hours, minutes, seconds and milliseconds together. -/
def getUTCTime (date : ℤ) : ℤ := date % msPerDay

/-- A year that `Date.UTC` reads as one of the twentieth century. -/
def IsTwoDigit (year : ℤ) : Prop := 0 ≤ year ∧ year ≤ 99

instance (year : ℤ) : Decidable (IsTwoDigit year) := inferInstanceAs (Decidable (_ ∧ _))

/-- The year that `Date.UTC` takes for its first argument. -/
def fullYear (year : ℤ) : ℤ := if IsTwoDigit year then 1900 + year else year

/-- `Date.UTC`. -/
def dateUTC (year month day time : ℤ) : ℤ :=
  (monthStart (12 * fullYear year + month) + (day - 1)) * msPerDay + time

/-! ### Shifting -/

/-- `shiftClamped`: the same day of the month in another one, or its last day. -/
def shiftClamped (year month day time : ℤ) : ℤ :=
  let normalised := dateUTC year month 1 0
  let targetYear := getUTCFullYear normalised
  let targetMonth := getUTCMonth normalised
  let lastDay := getUTCDate (dateUTC targetYear (targetMonth + 1) 0 0)
  dateUTC targetYear targetMonth (min day lastDay) time

/-- `addUnits`: the date shifted by `n` periods. -/
def addUnits (date : ℤ) (frequency : RecurrenceFrequency) (n : ℕ) : ℤ :=
  if n = 0 then date
  else
    let year := getUTCFullYear date
    let month := getUTCMonth date
    let day := getUTCDate date
    let time := getUTCTime date
    match frequency with
    | .daily => dateUTC year month (day + n) time
    | .weekly => dateUTC year month (day + n * 7) time
    | .monthly => shiftClamped year (month + n) day time
    | .yearly => shiftClamped (year + n) month day time

/-- `intervalMs`: the gap between the first occurrence and the second. -/
def intervalMs (anchorStart : ℤ) (frequency : RecurrenceFrequency) : ℤ :=
  addUnits anchorStart frequency 1 - anchorStart

/-! ### Where the date comes out late -/

/-- The months of a period; days and weeks have none. -/
def months : RecurrenceFrequency → ℤ
  | .daily | .weekly => 0
  | .monthly => 1
  | .yearly => 12

/-- The days of a period; months and years have none. -/
def days : RecurrenceFrequency → ℤ
  | .daily => 1
  | .weekly => 7
  | .monthly | .yearly => 0

/-- The month that is `n` periods after the date's. -/
def targetMonth (date : ℤ) (frequency : RecurrenceFrequency) (n : ℕ) : ℤ :=
  monthOf (date / msPerDay) + months frequency * n

/-- The date is computed in a year that `Date.UTC` takes for one of the twentieth century: the
year of the target, and that of the first date where the months are added to it. -/
def Late (date : ℤ) (frequency : RecurrenceFrequency) (n : ℕ) : Prop :=
  n ≠ 0 ∧ (IsTwoDigit (targetMonth date frequency n / 12) ∨
    frequency = .monthly ∧ IsTwoDigit (getUTCFullYear date))

instance (date : ℤ) (frequency : RecurrenceFrequency) (n : ℕ) : Decidable (Late date frequency n) :=
  inferInstanceAs (Decidable (_ ∧ _))

/-- The months of 1900 years. -/
def lateness : ℤ := 12 * 1900

/-- The month that a date is computed in. -/
def landedMonth (date : ℤ) (frequency : RecurrenceFrequency) (n : ℕ) : ℤ :=
  targetMonth date frequency n + if Late date frequency n then lateness else 0

/-! ### The components of what `Date.UTC` computes -/

theorem dateUTC_div (year month day : ℤ) {time : ℤ} (htime : 0 ≤ time ∧ time < msPerDay) :
    dateUTC year month day time / msPerDay =
      monthStart (12 * fullYear year + month) + (day - 1) := by
  rw [dateUTC, Int.add_comm, Int.add_mul_ediv_right _ _ (by decide),
    Int.ediv_eq_zero_of_lt htime.1 htime.2, zero_add]

theorem monthOf_monthStart (month : ℤ) : monthOf (monthStart month) = month :=
  monthOf_eq le_rfl (by have hnext := monthStart_add_le month; omega)

/-- The last day of a month is the day before the first of the next. -/
theorem dayOfMonth_last (month : ℤ) : dayOfMonth (monthStart (month + 1) - 1) = daysIn month := by
  have hnext := monthStart_add_le month
  have hmonth : monthOf (monthStart (month + 1) - 1) = month := monthOf_eq (by omega) (by omega)
  rw [dayOfMonth, hmonth, daysIn]
  omega

/-- A month stays where it is, or is taken for one that is 1900 years later. -/
theorem fullYear_month (month : ℤ) : 12 * fullYear (month / 12) + month % 12 =
      month + if IsTwoDigit (month / 12) then lateness else 0 := by
  unfold fullYear lateness
  split <;> omega

/-- `shiftClamped` in terms of the month that it lands in. -/
theorem shiftClamped_eq (year month day time : ℤ) : shiftClamped year month day time =
      clampedDay (12 * fullYear ((12 * fullYear year + month) / 12) +
        (12 * fullYear year + month) % 12) day * msPerDay + time := by
  have hzero : (0 : ℤ) ≤ 0 ∧ (0 : ℤ) < msPerDay := by decide
  have hmonth : monthOf (dateUTC year month 1 0 / msPerDay) = 12 * fullYear year + month := by
    rw [dateUTC_div _ _ _ hzero, sub_self, add_zero, monthOf_monthStart]
  simp only [shiftClamped, getUTCFullYear, getUTCMonth, getUTCDate, hmonth]
  rw [dateUTC_div _ _ _ hzero, zero_sub, ← add_assoc (12 * fullYear _), ← sub_eq_add_neg,
    dayOfMonth_last, dateUTC, clampedDay]

/-! ### Where a shifted date is -/

variable {date : ℤ} {frequency : RecurrenceFrequency} {n : ℕ}

theorem getUTCTime_mem (date : ℤ) : 0 ≤ getUTCTime date ∧ getUTCTime date < msPerDay :=
  ⟨Int.emod_nonneg _ (by decide), Int.emod_lt_of_pos _ (by decide)⟩

theorem late_zero : ¬Late date frequency 0 := fun h => h.1 rfl

theorem year_add (date : ℤ) :
    12 * getUTCFullYear date + getUTCMonth date = monthOf (date / msPerDay) := by
  unfold getUTCFullYear getUTCMonth
  omega

theorem targetMonth_days (h : frequency = .daily ∨ frequency = .weekly) :
    targetMonth date frequency n = monthOf (date / msPerDay) := by
  rcases h with rfl | rfl <;> rw [targetMonth, months, zero_mul, add_zero]

theorem targetMonth_monthly : targetMonth date .monthly n = monthOf (date / msPerDay) + n := by
  rw [targetMonth, months, one_mul]

theorem targetMonth_yearly : targetMonth date .yearly n = monthOf (date / msPerDay) + 12 * n := by
  rw [targetMonth, months]

theorem landedMonth_zero (date : ℤ) (frequency : RecurrenceFrequency) :
    landedMonth date frequency 0 = monthOf (date / msPerDay) := by
  rw [landedMonth, if_neg late_zero, targetMonth, Nat.cast_zero, mul_zero, add_zero, add_zero]

/-- The month that `shiftClamped` lands in for a year and a month that add up to the target. -/
theorem landed_of_twoDigit {year month target : ℤ} (hsum : 12 * year + month = target)
    (hyear : IsTwoDigit year) (hmonth : 0 ≤ month) :
    12 * fullYear ((12 * fullYear year + month) / 12) + (12 * fullYear year + month) % 12 =
      target + lateness := by
  have hlate : ¬IsTwoDigit ((12 * fullYear year + month) / 12) := by
    rw [fullYear, if_pos hyear]
    unfold IsTwoDigit at *
    omega
  rw [fullYear_month, if_neg hlate, fullYear, if_pos hyear]
  unfold lateness
  omega

theorem landed_of_not {year month target : ℤ} (hsum : 12 * year + month = target)
    (hyear : ¬IsTwoDigit year) :
    12 * fullYear ((12 * fullYear year + month) / 12) + (12 * fullYear year + month) % 12 =
      target + if IsTwoDigit (target / 12) then lateness else 0 := by
  rw [fullYear_month, fullYear, if_neg hyear, hsum]

theorem landed_monthly (date : ℤ) (hn : n ≠ 0) :
    12 * fullYear ((12 * fullYear (getUTCFullYear date) + (getUTCMonth date + n)) / 12) +
        (12 * fullYear (getUTCFullYear date) + (getUTCMonth date + n)) % 12 =
      landedMonth date .monthly n := by
  have hsum : 12 * getUTCFullYear date + (getUTCMonth date + n) = targetMonth date .monthly n := by
    rw [← add_assoc, year_add, targetMonth_monthly]
  by_cases hyear : IsTwoDigit (getUTCFullYear date)
  · have hmonth : 0 ≤ getUTCMonth date + n := by
      unfold getUTCMonth
      omega
    rw [landed_of_twoDigit hsum hyear hmonth, landedMonth, if_pos ⟨hn, .inr ⟨rfl, hyear⟩⟩]
  · have hlate : Late date .monthly n ↔ IsTwoDigit (targetMonth date .monthly n / 12) :=
      ⟨fun h => h.2.resolve_right fun h => hyear h.2, fun h => ⟨hn, .inl h⟩⟩
    rw [landed_of_not hsum hyear, landedMonth]
    simp only [hlate]

theorem landed_yearly (date : ℤ) (hn : n ≠ 0) :
    12 * fullYear ((12 * fullYear (getUTCFullYear date + n) + getUTCMonth date) / 12) +
        (12 * fullYear (getUTCFullYear date + n) + getUTCMonth date) % 12 =
      landedMonth date .yearly n := by
  have hsum : 12 * (getUTCFullYear date + n) + getUTCMonth date = targetMonth date .yearly n := by
    rw [targetMonth_yearly, ← year_add]
    ring
  have hmonth : 0 ≤ getUTCMonth date ∧ getUTCMonth date < 12 := by
    unfold getUTCMonth
    omega
  have htarget : targetMonth date .yearly n / 12 = getUTCFullYear date + n := by omega
  have hlate : Late date .yearly n ↔ IsTwoDigit (getUTCFullYear date + n) := by
    rw [← htarget]
    exact ⟨fun h => h.2.resolve_right fun h => (nomatch h.1), fun h => ⟨hn, .inl h⟩⟩
  by_cases hyear : IsTwoDigit (getUTCFullYear date + n)
  · rw [landed_of_twoDigit hsum hyear hmonth.1, landedMonth, if_pos (hlate.2 hyear)]
  · rw [landed_of_not hsum hyear, landedMonth, htarget, if_neg hyear, if_neg (mt hlate.1 hyear)]

/-- Months and years land on the day of the anchor, or the last one of the month. -/
theorem addUnits_clamped (h : frequency = .monthly ∨ frequency = .yearly) (date : ℤ) (n : ℕ) :
    addUnits date frequency n =
      clampedDay (landedMonth date frequency n) (getUTCDate date) * msPerDay + getUTCTime date := by
  rcases eq_or_ne n 0 with rfl | hn
  · rw [addUnits, if_pos rfl, landedMonth_zero, getUTCDate, clampedDay_monthOf, getUTCTime,
      mul_comm, Int.mul_ediv_add_emod]
  · rw [addUnits, if_neg hn]
    rcases h with rfl | rfl
    · simp only [shiftClamped_eq, landed_monthly date hn]
    · simp only [shiftClamped_eq, landed_yearly date hn]

/-- Days and weeks move by days. -/
theorem addUnits_days (h : frequency = .daily ∨ frequency = .weekly) (date : ℤ) (n : ℕ) :
    addUnits date frequency n =
      (monthStart (landedMonth date frequency n) + (getUTCDate date - 1) + n * days frequency) *
        msPerDay + getUTCTime date := by
  rcases eq_or_ne n 0 with rfl | hn
  · have hday : monthStart (monthOf (date / msPerDay)) + (getUTCDate date - 1) =
        date / msPerDay := by
      rw [getUTCDate, dayOfMonth]
      omega
    rw [addUnits, if_pos rfl, landedMonth_zero, Nat.cast_zero, zero_mul, add_zero, hday,
      getUTCTime, mul_comm, Int.mul_ediv_add_emod]
  · have hmonths : targetMonth date frequency n = monthOf (date / msPerDay) := targetMonth_days h
    have hlate : Late date frequency n ↔ IsTwoDigit (getUTCFullYear date) := by
      unfold Late getUTCFullYear
      rw [hmonths]
      refine ⟨fun hl => hl.2.resolve_right fun hm => ?_, fun hl => ⟨hn, .inl hl⟩⟩
      rcases h with rfl | rfl <;> cases hm.1
    have hland : 12 * fullYear (getUTCFullYear date) + getUTCMonth date =
        landedMonth date frequency n := by
      rw [landedMonth, hmonths, ← year_add, fullYear]
      simp only [hlate, lateness]
      split <;> ring
    rw [addUnits, if_neg hn]
    rcases h with rfl | rfl
    · simp only [dateUTC, hland, days, mul_one]
      ring
    · simp only [dateUTC, hland, days]
      ring

/-- Daily and monthly from 31 January of the year 50: the first date is the anchor, the others are
1900 years late. -/
example : (List.range 3).map (addUnits (clampedDay (12 * 50) 31 * msPerDay) .daily) =
      [clampedDay (12 * 50) 31 * msPerDay, clampedDay (12 * 1950 + 1) 1 * msPerDay,
        clampedDay (12 * 1950 + 1) 2 * msPerDay] ∧
    addUnits (clampedDay (12 * 50) 31 * msPerDay) .monthly 1 =
      clampedDay (12 * 1950 + 1) 28 * msPerDay := by
  decide

end Rabotka.Expander
