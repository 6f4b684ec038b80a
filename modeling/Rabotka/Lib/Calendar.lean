import Mathlib.Tactic.IntervalCases
import Mathlib.Tactic.Linarith

/-!
# Calendar months

The proleptic Gregorian calendar, as far as adding months needs it. Days are numbered from
1 January 1970 and months from January of the year 0, both without bound in either direction;
`monthStart` is the first day of a month and `monthOf` the month of a day, and they agree
(`monthStart_monthOf_le`, `lt_monthStart_monthOf`). An instant is a number of milliseconds.

The arithmetic counts years from March, so that the leap day is the last day of a year and the
months before it have a closed form: the month `m` starts on day `(153 * m + 2) / 5`.

`addMonthsClamped` moves an instant by whole months, to the same day of the month or the last
one there is. More months move it further (`addMonthsClamped_lt`), so it moves forward
(`lt_addMonthsClamped`).
-/

namespace Calendar

/-- 1 March of the year `y`. -/
def marchStart (y : ℤ) : ℤ :=
  365 * y + y / 4 - y / 100 + y / 400 - 719468

/-- The first day of a month. -/
def monthStart (month : ℤ) : ℤ :=
  marchStart ((month - 2) / 12) + (153 * ((month - 2) % 12) + 2) / 5

/-- The year from March to February that a day is in: the mean length of a year gives it up to
one. -/
def marchYearOf (day : ℤ) : ℤ :=
  let y := (day + 719468) * 400 / 146097
  if day < marchStart y then y - 1
  else if marchStart (y + 1) ≤ day then y + 1
  else y

/-- The month of a day. -/
def monthOf (day : ℤ) : ℤ :=
  let y := marchYearOf day
  12 * y + (5 * (day - marchStart y) + 2) / 153 + 2

theorem marchStart_succ_ge (y : ℤ) : marchStart y + 365 ≤ marchStart (y + 1) := by
  unfold marchStart
  omega

theorem marchStart_succ_le (y : ℤ) : marchStart (y + 1) ≤ marchStart y + 366 := by
  unfold marchStart
  omega

theorem marchStart_marchYearOf_le (day : ℤ) : marchStart (marchYearOf day) ≤ day := by
  unfold marchYearOf
  simp only
  split
  · unfold marchStart at *
    omega
  · split
    · assumption
    · omega

theorem lt_marchStart_marchYearOf (day : ℤ) : day < marchStart (marchYearOf day + 1) := by
  unfold marchYearOf
  simp only
  split
  · rwa [Int.sub_add_cancel]
  · split
    · unfold marchStart at *
      omega
    · omega

/-- A month of a year, the last one apart, has at least 30 days; the last one ends with the
year. -/
theorem monthStart_add_le (month : ℤ) : monthStart month + 28 ≤ monthStart (month + 1) := by
  have hyear := marchStart_succ_ge ((month - 2) / 12)
  unfold monthStart
  rcases eq_or_ne ((month - 2) % 12) 11 with hlast | hlast
  · have hdiv : (month + 1 - 2) / 12 = (month - 2) / 12 + 1 := by omega
    have hmod : (month + 1 - 2) % 12 = 0 := by omega
    rw [hdiv, hmod, hlast]
    omega
  · have hdiv : (month + 1 - 2) / 12 = (month - 2) / 12 := by omega
    have hmod : (month + 1 - 2) % 12 = (month - 2) % 12 + 1 := by omega
    rw [hdiv, hmod]
    omega

theorem monthStart_mono {m m' : ℤ} (h : m ≤ m') : monthStart m ≤ monthStart m' := by
  have hmono : Monotone monthStart := monotone_int_of_le_succ fun k => by
    have hnext := monthStart_add_le k
    omega
  exact hmono h

/-- The year and the month of the year of a day. -/
theorem monthOf_sub (day : ℤ) : (monthOf day - 2) / 12 = marchYearOf day ∧
      (monthOf day - 2) % 12 = (5 * (day - marchStart (marchYearOf day)) + 2) / 153 := by
  have hle := marchStart_marchYearOf_le day
  have hlt := lt_marchStart_marchYearOf day
  have hyear := marchStart_succ_le (marchYearOf day)
  simp only [monthOf]
  omega

theorem monthStart_monthOf_le (day : ℤ) : monthStart (monthOf day) ≤ day := by
  have hle := marchStart_marchYearOf_le day
  rw [monthStart, (monthOf_sub day).1, (monthOf_sub day).2]
  omega

theorem lt_monthStart_monthOf (day : ℤ) : day < monthStart (monthOf day + 1) := by
  obtain ⟨hdiv, hmod⟩ := monthOf_sub day
  have hlt := lt_marchStart_marchYearOf day
  unfold monthStart
  rcases eq_or_ne ((monthOf day - 2) % 12) 11 with hlast | hlast
  · have hdiv' : (monthOf day + 1 - 2) / 12 = marchYearOf day + 1 := by omega
    have hmod' : (monthOf day + 1 - 2) % 12 = 0 := by omega
    rw [hdiv', hmod']
    omega
  · have hdiv' : (monthOf day + 1 - 2) / 12 = marchYearOf day := by omega
    have hmod' : (monthOf day + 1 - 2) % 12 = (monthOf day - 2) % 12 + 1 := by omega
    rw [hdiv', hmod', hmod]
    omega

theorem monthStart_le_iff {month day : ℤ} : monthStart month ≤ day ↔ month ≤ monthOf day := by
  refine ⟨fun h => ?_, fun h => (monthStart_mono h).trans (monthStart_monthOf_le day)⟩
  by_contra hlt
  exact absurd ((monthStart_mono (show monthOf day + 1 ≤ month by omega)).trans h)
    (lt_monthStart_monthOf day).not_ge

/-! ### Instants -/

/-- The milliseconds of a day. -/
def msPerDay : ℤ := 24 * 60 * 60 * 1000

/-- The instant `months` months later, on the same day of the month at the same time, or on the
last day where the month is shorter. -/
def addMonthsClamped (date months : ℤ) : ℤ :=
  let day := date / msPerDay
  let month := monthOf day
  let dayOfMonth := day - monthStart month + 1
  let target := month + months
  let lastDay := monthStart (target + 1) - monthStart target
  (monthStart target + min dayOfMonth lastDay - 1) * msPerDay + date % msPerDay

/-- The result is in the target month. -/
theorem addMonthsClamped_mem (date months : ℤ) :
    monthStart (monthOf (date / msPerDay) + months) * msPerDay ≤ addMonthsClamped date months ∧
      addMonthsClamped date months <
        monthStart (monthOf (date / msPerDay) + months + 1) * msPerDay := by
  unfold addMonthsClamped
  simp only
  have hstart := monthStart_monthOf_le (date / msPerDay)
  have hnext := monthStart_add_le (monthOf (date / msPerDay) + months)
  have hmod := Int.emod_nonneg date (show msPerDay ≠ 0 by decide)
  have hlt := Int.emod_lt_of_pos date (show 0 < msPerDay by decide)
  generalize monthStart (monthOf (date / msPerDay) + months + 1) = next at *
  generalize monthStart (monthOf (date / msPerDay) + months) = first at *
  -- the day of the month is between the first and the last
  have hday : first ≤ first + min (date / msPerDay - monthStart (monthOf (date / msPerDay)) + 1)
        (next - first) - 1 ∧
      first + min (date / msPerDay - monthStart (monthOf (date / msPerDay)) + 1)
        (next - first) - 1 < next := by
    omega
  generalize first + _ - 1 = day at hday ⊢
  unfold msPerDay at *
  omega

/-- No months move nothing. -/
theorem addMonthsClamped_zero (date : ℤ) : addMonthsClamped date 0 = date := by
  unfold addMonthsClamped
  simp only [add_zero]
  have hday := lt_monthStart_monthOf (date / msPerDay)
  have hmin : min (date / msPerDay - monthStart (monthOf (date / msPerDay)) + 1)
      (monthStart (monthOf (date / msPerDay) + 1) - monthStart (monthOf (date / msPerDay))) =
        date / msPerDay - monthStart (monthOf (date / msPerDay)) + 1 := by
    omega
  rw [hmin]
  have hdiv := Int.mul_ediv_add_emod date msPerDay
  linarith

/-- More months move further. -/
theorem addMonthsClamped_lt {months months' : ℤ} (h : months < months') (date : ℤ) :
    addMonthsClamped date months < addMonthsClamped date months' := by
  have hmono : monthStart (monthOf (date / msPerDay) + months + 1) ≤
      monthStart (monthOf (date / msPerDay) + months') := monthStart_mono (by omega)
  calc addMonthsClamped date months
      < monthStart (monthOf (date / msPerDay) + months + 1) * msPerDay :=
        (addMonthsClamped_mem date months).2
    _ ≤ monthStart (monthOf (date / msPerDay) + months') * msPerDay :=
        Int.mul_le_mul_of_nonneg_right hmono (by decide)
    _ ≤ addMonthsClamped date months' := (addMonthsClamped_mem date months').1

/-- Adding months moves forward. -/
theorem lt_addMonthsClamped {months : ℤ} (h : 0 < months) (date : ℤ) :
    date < addMonthsClamped date months := by
  simpa only [addMonthsClamped_zero] using addMonthsClamped_lt h date

/-- A month after 31 January 2026 is 28 February, and a year after 29 February 2024 too. -/
example : addMonthsClamped ((monthStart (12 * 2026) + 30) * msPerDay) 1 =
      (monthStart (12 * 2026 + 1) + 27) * msPerDay ∧
    addMonthsClamped ((monthStart (12 * 2024 + 1) + 28) * msPerDay) 12 =
      (monthStart (12 * 2025 + 1) + 27) * msPerDay ∧ monthStart (12 * 1970) = 0 := by
  decide

end Calendar

/-!
## Month lengths and the steps of a monthly date

How many days a month has, which month a day given by its month and its position is in, and how
far apart the same day of two months is when it is pulled back to the last day of a month that is
too short (`clampedDay`).

The day `d` of consecutive months is at least `shortestStep d` days apart, and within any three
years somewhere exactly so many (`shortestStep_le`, `exists_shortestStep`): 28 days, where the
day exists in every month or is the last one of January, and 29 days for a 29th or a 30th, which
February pulls back by one day or two. The same day of consecutive years is 365 days apart or
366, and twice in a row it is not 366 (`yearStep_ge`, `exists_yearStep`).
-/

namespace Calendar

/-- The number of days of a month. -/
def daysIn (month : ℤ) : ℤ := monthStart (month + 1) - monthStart month

/-- The day `day` of a month, or its last day. -/
def clampedDay (month day : ℤ) : ℤ := monthStart month + (min day (daysIn month) - 1)

/-- The position of a day in its month, from 1. -/
def dayOfMonth (day : ℤ) : ℤ := day - monthStart (monthOf day) + 1

/-! ### Lengths -/

variable {month : ℤ}

/-- Months apart from February have their length from their place in the year. -/
theorem daysIn_of_ne (h : month % 12 ≠ 1) :
    daysIn month = if month % 12 = 3 ∨ month % 12 = 5 ∨ month % 12 = 8 ∨ month % 12 = 10 then 30
      else 31 := by
  have hdiv : (month + 1 - 2) / 12 = (month - 2) / 12 := by omega
  have hmod : (month + 1 - 2) % 12 = (month - 2) % 12 + 1 := by omega
  have hplace : (month - 2) % 12 = (month % 12 + 10) % 12 := by omega
  have hrange : 0 ≤ month % 12 ∧ month % 12 < 12 := by omega
  unfold daysIn monthStart
  rw [hdiv, hmod, hplace]
  generalize month % 12 = place at *
  obtain ⟨hle, hlt⟩ := hrange
  interval_cases place <;> split <;> omega

/-- February has 28 days or 29. -/
theorem daysIn_february (h : month % 12 = 1) : daysIn month = 28 ∨ daysIn month = 29 := by
  have hdiv : (month + 1 - 2) / 12 = (month - 2) / 12 + 1 := by omega
  have hmod : (month + 1 - 2) % 12 = 0 := by omega
  have hlast : (month - 2) % 12 = 11 := by omega
  have hge := marchStart_succ_ge ((month - 2) / 12)
  have hle := marchStart_succ_le ((month - 2) / 12)
  unfold daysIn monthStart
  rw [hdiv, hmod, hlast]
  omega

/-- The month before February and the one after it have 31 days. -/
theorem daysIn_around (h : month % 12 = 0 ∨ month % 12 = 2) : daysIn month = 31 := by
  rw [daysIn_of_ne (by omega), if_neg (by omega)]

theorem daysIn_mem (month : ℤ) : 28 ≤ daysIn month ∧ daysIn month ≤ 31 := by
  by_cases h : month % 12 = 1
  · have hcases := daysIn_february h
    omega
  · rw [daysIn_of_ne h]
    split <;> decide

/-- One of two consecutive Februaries has 28 days. -/
theorem exists_daysIn_february (h : month % 12 = 1) :
    daysIn month = 28 ∨ daysIn (month + 12) = 28 := by
  have hdiv : (month + 1 - 2) / 12 = (month - 2) / 12 + 1 := by omega
  have hmod : (month + 1 - 2) % 12 = 0 := by omega
  have hlast : (month - 2) % 12 = 11 := by omega
  have hdiv' : (month + 12 + 1 - 2) / 12 = (month - 2) / 12 + 2 := by omega
  have hmod' : (month + 12 + 1 - 2) % 12 = 0 := by omega
  have hdiv'' : (month + 12 - 2) / 12 = (month - 2) / 12 + 1 := by omega
  have hlast' : (month + 12 - 2) % 12 = 11 := by omega
  unfold daysIn monthStart
  rw [hdiv, hmod, hlast, hdiv', hmod', hdiv'', hlast']
  unfold marchStart
  omega

/-! ### The month of a day -/

/-- A day between the first one of a month and the next month is in the month. -/
theorem monthOf_eq {month day : ℤ} (hle : monthStart month ≤ day)
    (hlt : day < monthStart (month + 1)) : monthOf day = month := by
  have hfirst := monthStart_monthOf_le day
  have hnext := lt_monthStart_monthOf day
  rcases lt_trichotomy (monthOf day) month with h | h | h
  · have hmono : monthStart (monthOf day + 1) ≤ monthStart month := monthStart_mono (by omega)
    omega
  · exact h
  · have hmono : monthStart (month + 1) ≤ monthStart (monthOf day) := monthStart_mono (by omega)
    omega

variable {month day : ℤ}

theorem dayOfMonth_mem (day : ℤ) : 1 ≤ dayOfMonth day ∧ dayOfMonth day ≤ 31 := by
  have hfirst := monthStart_monthOf_le day
  have hnext := lt_monthStart_monthOf day
  have hdays := (daysIn_mem (monthOf day)).2
  unfold dayOfMonth
  unfold daysIn at hdays
  omega

theorem monthOf_clampedDay (hday : 1 ≤ day) : monthOf (clampedDay month day) = month := by
  have hdays := (daysIn_mem month).1
  unfold clampedDay
  refine monthOf_eq ?_ ?_
  · omega
  · unfold daysIn at *
    omega

theorem dayOfMonth_clampedDay (hday : 1 ≤ day) :
    dayOfMonth (clampedDay month day) = min day (daysIn month) := by
  rw [dayOfMonth, monthOf_clampedDay hday, clampedDay]
  omega

theorem clampedDay_monthOf (day : ℤ) : clampedDay (monthOf day) (dayOfMonth day) = day := by
  have hnext := lt_monthStart_monthOf day
  unfold clampedDay dayOfMonth daysIn
  omega

theorem clampedDay_lt {month' : ℤ} (h : month < month') (hday : 1 ≤ day) :
    clampedDay month day < clampedDay month' day := by
  have hmono : monthStart (month + 1) ≤ monthStart month' := monthStart_mono (by omega)
  have hdays := (daysIn_mem month').1
  unfold clampedDay daysIn at *
  omega

/-! ### Steps of a month -/

/-- The least number of days between the day `day` of a month and of the next. -/
def shortestStep (day : ℤ) : ℤ := if day = 29 ∨ day = 30 then 29 else 28

theorem shortestStep_le (month : ℤ) (hday : 1 ≤ day ∧ day ≤ 31) :
    clampedDay month day + shortestStep day ≤ clampedDay (month + 1) day := by
  have hdays := daysIn_mem month
  have hnext := daysIn_mem (month + 1)
  have hstart : monthStart (month + 1) = monthStart month + daysIn month := by
    unfold daysIn
    omega
  -- a month before February or after it makes up for the days that February lacks
  have hbefore : daysIn (month + 1) ≤ 29 → daysIn month = 31 := by
    intro hshort
    refine daysIn_around (.inl ?_)
    by_contra hne
    have hlong := @daysIn_of_ne (month + 1) (by omega)
    split at hlong <;> omega
  have hafter : daysIn month ≤ 29 → daysIn (month + 1) = 31 := by
    intro hshort
    refine daysIn_around (.inr ?_)
    by_contra hne
    have hlong := @daysIn_of_ne month (by omega)
    split at hlong <;> omega
  unfold clampedDay shortestStep
  rw [hstart]
  split <;> omega

/-- The shortest step is taken within two years, from a January or a February. -/
theorem exists_shortestStep (month : ℤ) (hday : 1 ≤ day ∧ day ≤ 31) :
    ∃ k : ℕ, k ≤ 24 ∧ (month + k) % 12 ≤ 1 ∧
      clampedDay (month + k + 1) day = clampedDay (month + k) day + shortestStep day := by
  -- a February that has 28 days
  obtain ⟨f, hlt, hle, hplace, hshort⟩ : ∃ f : ℤ, month < f ∧ f ≤ month + 24 ∧ f % 12 = 1 ∧
      daysIn f = 28 := by
    have hplace : (month + 12 - (month + 11) % 12) % 12 = 1 := by omega
    rcases exists_daysIn_february hplace with hshort | hshort
    · exact ⟨_, by omega, by omega, hplace, hshort⟩
    · exact ⟨_, by omega, by omega, by omega, hshort⟩
  have hbefore : daysIn (f - 1) = 31 := daysIn_around (.inl (by omega))
  have hafter : daysIn (f + 1) = 31 := daysIn_around (.inr (by omega))
  have hstart : monthStart (f + 1) = monthStart f + daysIn f := by
    unfold daysIn
    omega
  have hstart' : monthStart f = monthStart (f - 1) + daysIn (f - 1) := by
    unfold daysIn
    rw [sub_add_cancel]
    omega
  -- the day is pulled back less in the month that follows, or more
  by_cases hlast : day = 30 ∨ day = 31
  · refine ⟨(f - 1 - month).toNat, by omega, ?_, ?_⟩
    · rw [Int.toNat_of_nonneg (by omega)]
      omega
    · rw [Int.toNat_of_nonneg (by omega), add_sub_cancel, sub_add_cancel]
      unfold clampedDay shortestStep
      rw [hstart', hbefore, hshort]
      split <;> omega
  · refine ⟨(f - month).toNat, by omega, ?_, ?_⟩
    · rw [Int.toNat_of_nonneg (by omega)]
      omega
    · rw [Int.toNat_of_nonneg (by omega), add_sub_cancel]
      unfold clampedDay shortestStep
      rw [hstart, hshort, hafter]
      split <;> omega

/-! ### Steps of a year -/

theorem monthStart_add_twelve (month : ℤ) (k : ℤ) : monthStart (month + 12 * k) =
      marchStart ((month - 2) / 12 + k) + (153 * ((month - 2) % 12) + 2) / 5 := by
  have hdiv : (month + 12 * k - 2) / 12 = (month - 2) / 12 + k := by omega
  have hmod : (month + 12 * k - 2) % 12 = (month - 2) % 12 := by omega
  rw [monthStart, hdiv, hmod]

/-- The same day of the years that follow is as many days later as the years from March to
February have, from the one of the day or, for the end of February, the next. -/
theorem clampedDay_add_twelve (month : ℤ) (hday : 1 ≤ day) : ∃ y : ℤ, ∀ k : ℤ,
      clampedDay (month + 12 * k) day =
        clampedDay month day + (marchStart (y + k) - marchStart y) := by
  by_cases hlast : month % 12 = 1 ∧ 29 ≤ day
  · -- the last day of February is the one before the first of March
    have hfebruary : ∀ m : ℤ, m % 12 = 1 → clampedDay m day = monthStart (m + 1) - 1 := by
      intro m hm
      have hdays := daysIn_february hm
      unfold clampedDay daysIn at *
      omega
    refine ⟨(month + 1 - 2) / 12, fun k => ?_⟩
    have hmod : (month + 1 - 2) % 12 = 0 := by omega
    rw [hfebruary _ (by omega), hfebruary _ hlast.1, add_right_comm, monthStart_add_twelve,
      monthStart, hmod]
    omega
  · refine ⟨(month - 2) / 12, fun k => ?_⟩
    have hmin : min day (daysIn (month + 12 * k)) = min day (daysIn month) := by
      by_cases hfebruary : month % 12 = 1
      · have hdays := daysIn_february hfebruary
        have hdays' := @daysIn_february (month + 12 * k) (by omega)
        omega
      · rw [daysIn_of_ne hfebruary, daysIn_of_ne (by omega), Int.add_mul_emod_self_left]
    rw [clampedDay, clampedDay, hmin, monthStart_add_twelve, monthStart]
    omega

theorem yearStep_ge (month : ℤ) (hday : 1 ≤ day) :
    clampedDay month day + 365 ≤ clampedDay (month + 12) day := by
  obtain ⟨y, hy⟩ := clampedDay_add_twelve month hday
  have hstep := hy 1
  have hge := marchStart_succ_ge y
  rw [mul_one] at hstep
  omega

/-- Of two consecutive years one has no leap day between the two dates. -/
theorem exists_yearStep (month : ℤ) (hday : 1 ≤ day) :
    clampedDay (month + 12) day = clampedDay month day + 365 ∨
      clampedDay (month + 24) day = clampedDay (month + 12) day + 365 := by
  obtain ⟨y, hy⟩ := clampedDay_add_twelve month hday
  have hone := hy 1
  have htwo := hy 2
  rw [mul_one] at hone
  rw [show (12 * 2 : ℤ) = 24 by rfl] at htwo
  unfold marchStart at *
  omega

/-- The lengths of the months of 2023 and of February 2024, and what becomes of a 31st. -/
example : (List.range 12).map (fun m : ℕ => daysIn (12 * 2023 + m)) =
      [31, 28, 31, 30, 31, 30, 31, 31, 30, 31, 30, 31] ∧
    daysIn (12 * 2024 + 1) = 29 ∧ dayOfMonth (clampedDay (12 * 2024 + 1) 31) = 29 := by
  decide

end Calendar
