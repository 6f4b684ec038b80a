import Rabotka.Expander.Dates

/-!
# Expanding a rule in pieces

`expand` of `RecurrenceExpanderService`: a walk over the indexes of a rule that stops at the limit
of the rule, at the first date that is past its end or past the horizon, and after so many rows.

Where the walk stops depends on the index alone, so it can be taken up again at any index it has
reached: pieces of any sizes make up the whole (`resume_eq`). The dates of the whole increase, keep
the duration and the time of day of the first, and lie in the months and years that the rule names
unless one of them comes out 1900 years late and is still not past the end
(`expansion_exact_iff`).
-/

namespace Rabotka.Expander

open Calendar List
open Events (RecurrenceFrequency Occurrence maxOccurrencesPerSeries)

/-- `ExpandInput`. -/
structure ExpandInput where
  anchorStart : ℤ
  anchorEnd : ℤ
  frequency : RecurrenceFrequency
  /-- Inclusive last date. -/
  «until» : Option ℤ
  /-- Total number of occurrences, counting the first. -/
  count : Option ℤ
  horizonEnd : ℤ
  /-- No number is no bound. -/
  maxRows : Option ℕ
  startIndex : ℕ := 0
  deriving DecidableEq

namespace ExpandInput

variable (input : ExpandInput)

/-- A count of zero is no count. -/
def hardLimit : ℤ :=
  match input.count with
  | none => maxOccurrencesPerSeries
  | some count => if count = 0 then maxOccurrencesPerSeries else min count maxOccurrencesPerSeries

def durationMs : ℤ := input.anchorEnd - input.anchorStart

def start (index : ℕ) : ℤ := addUnits input.anchorStart input.frequency index

def occurrence (index : ℕ) : Occurrence where
  start := input.start index
  «end» := input.start index + input.durationMs
  index := index

end ExpandInput

/-- The loop of `expand`: `left` indexes are left below the limit, `written` occurrences are on the
list. -/
def expandLoop (input : ExpandInput) : (left written index : ℕ) → List Occurrence
  | 0, _, _ => []
  | left + 1, written, index =>
    if input.maxRows.any (· ≤ written) then []
    else
      let start := addUnits input.anchorStart input.frequency index
      if input.until.any (· < start) then []
      else if input.horizonEnd < start then []
      else
        ⟨start, start + input.durationMs, index⟩ :: expandLoop input left (written + 1) (index + 1)

/-- `expand`. -/
def expand (input : ExpandInput) : List Occurrence :=
  expandLoop input (input.hardLimit - input.startIndex).toNat 0 input.startIndex

/-- All of a rule in one call. -/
def whole (input : ExpandInput) : List Occurrence :=
  expand { input with maxRows := none, startIndex := 0 }

/-- Successive calls for so many rows each, every one of which resumes at the number of
occurrences so far. -/
def resume (input : ExpandInput) : List ℕ → List Occurrence → List Occurrence
  | [], done => done
  | rows :: sizes, done =>
    resume input sizes
      (done ++ expand { input with maxRows := some rows, startIndex := done.length })

/-! ### Runs of indexes -/

section Runs

variable {p : ℕ → Bool} {n j : ℕ}

/-- How far a run of indexes goes. -/
theorem lt_length_takeWhile (l : ℕ) :
    j < ((range' n l).takeWhile p).length ↔ j < l ∧ ∀ i ≤ j, p (n + i) = true := by
  induction l generalizing n j with
  | zero => simp
  | succ l ih =>
    rw [List.range'_succ, takeWhile_cons]
    split
    · rename_i hp
      rcases j with _ | j
      · simp [hp]
      · rw [length_cons, Nat.succ_lt_succ_iff, ih, Nat.succ_lt_succ_iff]
        refine and_congr_right fun _ => ⟨fun h i hi => ?_, fun h i hi => ?_⟩
        · rcases i with _ | i
          · exact hp
          · have hi := h i (by omega)
            rwa [Nat.add_right_comm, Nat.add_assoc] at hi
        · have hi := h (i + 1) (by omega)
          rwa [← Nat.add_assoc, Nat.add_right_comm] at hi
    · rename_i hp
      refine iff_of_false (Nat.not_lt_zero j) fun h => hp (h.2 0 (Nat.zero_le j))

/-- A run of indexes is a run of consecutive ones. -/
theorem takeWhile_range' (l : ℕ) :
    (range' n l).takeWhile p = range' n ((range' n l).takeWhile p).length := by
  induction l generalizing n with
  | zero => rfl
  | succ l ih =>
    rw [List.range'_succ, takeWhile_cons]
    split
    · rw [length_cons, List.range'_succ, ← ih]
    · rfl

/-- A run that is taken up where a part of it ends goes on as the run does. -/
theorem drop_takeWhile {l k : ℕ} (hk : k ≤ ((range' n l).takeWhile p).length) :
    (range' (n + k) (l - k)).takeWhile p = ((range' n l).takeWhile p).drop k := by
  induction k generalizing n l with
  | zero => rfl
  | succ k ih =>
    rcases l with _ | l
    · simp at hk
    · rw [List.range'_succ, takeWhile_cons] at hk ⊢
      split at hk
      · rename_i hp
        rw [if_pos hp, drop_succ_cons, ← ih (by simpa using hk), Nat.add_sub_add_right,
          Nat.add_right_comm, Nat.add_assoc]
      · simp at hk

end Runs

/-! ### What the walk returns -/

namespace ExpandInput

variable (input : ExpandInput) {input' : ExpandInput}

/-- The date of an index is neither past the end of the rule nor past the horizon. -/
def fits (index : ℕ) : Bool :=
  !input.until.any (· < input.start index) && !decide (input.horizonEnd < input.start index)

/-- The indexes of the whole. -/
def indexes : List ℕ := (range' 0 input.hardLimit.toNat).takeWhile input.fits

end ExpandInput

variable {input : ExpandInput}

/-- One step of the walk while there is room. -/
theorem expandLoop_succ (left : ℕ) {written index : ℕ}
    (hroom : input.maxRows.any (· ≤ written) = false) :
    expandLoop input (left + 1) written index =
      if input.fits index then
        input.occurrence index :: expandLoop input left (written + 1) (index + 1)
      else [] := by
  rw [expandLoop, hroom, if_neg Bool.false_ne_true]
  change (if input.until.any (· < input.start index) = true then [] else
    if input.horizonEnd < input.start index then [] else
      input.occurrence index :: expandLoop input left (written + 1) (index + 1)) = _
  unfold ExpandInput.fits
  cases input.until.any (· < input.start index)
  · by_cases hfar : input.horizonEnd < input.start index
    · simp [hfar]
    · simp [hfar]
  · simp

/-- Without a bound the walk goes through a run of indexes. -/
theorem expandLoop_unbounded (h : input.maxRows = none) (left written index : ℕ) :
    expandLoop input left written index =
      ((range' index left).takeWhile input.fits).map input.occurrence := by
  induction left generalizing written index with
  | zero => rfl
  | succ left ih =>
    rw [expandLoop_succ left (by rw [h]; rfl), List.range'_succ, takeWhile_cons, ih]
    split <;> rfl

/-- A bound cuts the run short. -/
theorem expandLoop_bounded {rows : ℕ} (h : input.maxRows = some rows) (left written index : ℕ) :
    expandLoop input left written index =
      (((range' index left).takeWhile input.fits).take (rows - written)).map
        input.occurrence := by
  induction left generalizing written index with
  | zero => simp [expandLoop]
  | succ left ih =>
    by_cases hroom : rows ≤ written
    · have hnone : rows - written = 0 := Nat.sub_eq_zero_of_le hroom
      rw [hnone, take_zero, map_nil, expandLoop, h, Option.any_some,
        decide_eq_true hroom, if_pos rfl]
    · have hmore : rows - written = rows - (written + 1) + 1 := by omega
      rw [expandLoop_succ left (by rw [h, Option.any_some, decide_eq_false hroom]),
        List.range'_succ, takeWhile_cons, ih, hmore]
      split <;> rfl

/-- The whole is what a run of the indexes below the limit gives. -/
theorem whole_eq (input : ExpandInput) : whole input = input.indexes.map input.occurrence := by
  rw [whole, expand, expandLoop_unbounded rfl]
  simp only [Nat.cast_zero, sub_zero]
  rfl

theorem lt_length_whole {k : ℕ} :
    k < (whole input).length ↔ (k : ℤ) < input.hardLimit ∧ ∀ i ≤ k, input.fits i = true := by
  rw [whole_eq, length_map, ExpandInput.indexes, lt_length_takeWhile]
  simp only [zero_add, Int.lt_toNat]

/-- The occurrence number `k` of the whole. -/
theorem getElem?_whole {k : ℕ} {o : Occurrence} :
    (whole input)[k]? = some o ↔ k < (whole input).length ∧ o = input.occurrence k := by
  have hlength : (whole input).length = input.indexes.length := by rw [whole_eq, length_map]
  rw [hlength, whole_eq, getElem?_map, ExpandInput.indexes, takeWhile_range']
  generalize ((range' 0 input.hardLimit.toNat).takeWhile input.fits).length = m
  rw [length_range']
  by_cases hk : k < m
  · rw [getElem?_range' hk, Option.map_some, Option.some_inj]
    simp [hk, eq_comm]
  · rw [getElem?_eq_none (by simpa using hk)]
    simp [hk]

/-! ### Pieces -/

/-- A call that resumes at an index of the whole goes on with the whole. -/
theorem expand_resumed {k : ℕ} (hk : k ≤ (whole input).length) (rows : ℕ) :
    expand { input with maxRows := some rows, startIndex := k } =
      ((whole input).drop k).take rows := by
  have hleft : (input.hardLimit - k).toNat = input.hardLimit.toNat - k := by omega
  rw [whole_eq, length_map] at hk
  have hrest := drop_takeWhile hk
  rw [zero_add] at hrest
  rw [expand, expandLoop_bounded rfl, whole_eq, ← map_drop, ← List.map_take,
    ExpandInput.indexes, ← hrest, ← hleft]
  rfl

/-- Pieces of any sizes make up as much of the whole as they have room for. -/
theorem resume_eq (input : ExpandInput) (sizes : List ℕ) :
    resume input sizes [] = (whole input).take sizes.sum := by
  -- what has been written so far is the beginning of the whole
  have hfrom : ∀ n : ℕ, resume input sizes ((whole input).take n) =
      (whole input).take (n + sizes.sum) := by
    induction sizes with
    | nil => exact fun n => rfl
    | cons rows sizes ih =>
      intro n
      have hlength : ((whole input).take n).length ≤ (whole input).length := by
        rw [length_take]
        exact min_le_right _ _
      have hpiece : (whole input).take n ++
          ((whole input).drop ((whole input).take n).length).take rows =
            (whole input).take (n + rows) := by
        rw [length_take, take_add]
        rcases le_total n (whole input).length with hle | hle
        · rw [min_eq_left hle]
        · rw [min_eq_right hle, drop_length, drop_eq_nil_of_le hle]
      rw [resume, expand_resumed hlength, hpiece, ih, sum_cons, Nat.add_assoc]
  simpa using hfrom 0

/-! ### Where the dates are -/

namespace ExpandInput

variable (input : ExpandInput)

/-- The rule steps by months or years. -/
def StepsByMonths : Prop := input.frequency = .monthly ∨ input.frequency = .yearly

instance : Decidable input.StepsByMonths := inferInstanceAs (Decidable (_ ∨ _))

/-- The month of the occurrence number `k`: so many months or years after the first one's. -/
def month (k : ℕ) : ℤ := targetMonth input.anchorStart input.frequency k

/-- The occurrence number `k`, 1900 years late. -/
def lateDate (k : ℕ) : ℤ :=
  clampedDay (input.month k + lateness) (getUTCDate input.anchorStart) * msPerDay +
    getUTCTime input.anchorStart

/-- A date is past the end of the rule or past the horizon. -/
def PastEnd (date : ℤ) : Prop := (∃ last ∈ input.until, last < date) ∨ input.horizonEnd < date

instance (date : ℤ) : Decidable (input.PastEnd date) := inferInstanceAs (Decidable (_ ∨ _))

end ExpandInput

/-- **What an expansion should be.** Pieces make up the whole; the dates increase, keep the
duration and the time of day of the first one, and the one number `k` is in the month that is `k`
months, or the year that is `k` years, after the first one's, on its day or the last of the
month. -/
structure Exact (input : ExpandInput) : Prop where
  chunks : ∀ sizes : List ℕ, (∀ rows ∈ sizes, 0 < rows) → (whole input).length ≤ sizes.sum →
    resume input sizes [] = whole input
  increasing : (whole input).Pairwise fun o o' => o.start < o'.start
  kept : ∀ o ∈ whole input, o.end - o.start = input.anchorEnd - input.anchorStart ∧
    getUTCTime o.start = getUTCTime input.anchorStart
  months : input.StepsByMonths → ∀ k o, (whole input)[k]? = some o →
    monthOf (o.start / msPerDay) = input.month k ∧
      getUTCDate o.start = min (getUTCDate input.anchorStart) (daysIn (input.month k))

variable {i j k : ℕ}

theorem landedMonth_of_not (h : ¬Late input.anchorStart input.frequency k) :
    landedMonth input.anchorStart input.frequency k = input.month k := by
  rw [landedMonth, if_neg h, add_zero, ExpandInput.month]

theorem start_of_late (h : input.StepsByMonths) (hlate : Late input.anchorStart input.frequency k) :
    input.start k = input.lateDate k := by
  rw [ExpandInput.start, addUnits_clamped h, landedMonth, if_pos hlate]
  rfl

theorem start_of_not_late (h : input.StepsByMonths)
    (hlate : ¬Late input.anchorStart input.frequency k) :
    input.start k = clampedDay (input.month k) (getUTCDate input.anchorStart) * msPerDay +
      getUTCTime input.anchorStart := by
  rw [ExpandInput.start, addUnits_clamped h, landedMonth_of_not hlate]

theorem fits_iff : input.fits k = true ↔ ¬input.PastEnd (input.start k) := by
  unfold ExpandInput.fits ExpandInput.PastEnd
  cases input.until <;> simp

/-- A date that is in time leaves the earlier ones in time. -/
theorem not_pastEnd_of_le {date date' : ℤ} (hle : date ≤ date') (h : ¬input.PastEnd date') :
    ¬input.PastEnd date := by
  rintro (⟨last, hlast, hlt⟩ | hlt)
  · exact h (.inl ⟨last, hlast, hlt.trans_le hle⟩)
  · exact h (.inr (hlt.trans_le hle))

theorem one_le_getUTCDate (date : ℤ) : 1 ≤ getUTCDate date := (dayOfMonth_mem _).1

/-- Days of the same time are in the order of the days. -/
theorem instant_lt {day day' : ℤ} (time : ℤ) (h : day < day') :
    day * msPerDay + time < day' * msPerDay + time :=
  Int.add_lt_add_right (Int.mul_lt_mul_of_pos_right h (by decide)) time

theorem month_lt (h : input.StepsByMonths) (hij : i < j) : input.month i < input.month j := by
  unfold ExpandInput.month
  rcases h with h | h <;> rw [h]
  · rw [targetMonth_monthly, targetMonth_monthly]
    omega
  · rw [targetMonth_yearly, targetMonth_yearly]
    omega

/-- Late or in time, a later index has a later date 1900 years late. -/
theorem start_le_lateDate (h : input.StepsByMonths) (hij : i ≤ j) :
    input.start i ≤ input.lateDate j := by
  have hmonth : landedMonth input.anchorStart input.frequency i ≤ input.month j + lateness := by
    have hle : input.month i ≤ input.month j := by
      rcases hij.lt_or_eq with hlt | rfl
      · exact (month_lt h hlt).le
      · exact le_rfl
    unfold landedMonth lateness
    unfold ExpandInput.month at *
    split <;> omega
  have hday := one_le_getUTCDate input.anchorStart
  rw [ExpandInput.start, addUnits_clamped h, ExpandInput.lateDate]
  rcases hmonth.lt_or_eq with hlt | heq
  · exact (instant_lt _ (clampedDay_lt hlt hday)).le
  · rw [heq]

theorem div_instant {day : ℤ} (date : ℤ) : (day * msPerDay + getUTCTime date) / msPerDay = day := by
  obtain ⟨hle, hlt⟩ := getUTCTime_mem date
  rw [Int.add_comm, Int.add_mul_ediv_right _ _ (by decide), Int.ediv_eq_zero_of_lt hle hlt,
    zero_add]

theorem getUTCDate_instant {day : ℤ} (date : ℤ) :
    getUTCDate (day * msPerDay + getUTCTime date) = dayOfMonth day := by
  rw [getUTCDate, div_instant]

theorem time_instant {day : ℤ} (date : ℤ) :
    getUTCTime (day * msPerDay + getUTCTime date) = getUTCTime date := by
  obtain ⟨hle, hlt⟩ := getUTCTime_mem date
  rw [getUTCTime, Int.add_comm, Int.add_mul_emod_self_right, Int.emod_eq_of_lt hle hlt]

/-- Every date of a rule has the time of day of the first. -/
theorem time_start (input : ExpandInput) (k : ℕ) :
    getUTCTime (input.start k) = getUTCTime input.anchorStart := by
  by_cases h : input.StepsByMonths
  · rw [ExpandInput.start, addUnits_clamped h, time_instant]
  · have hdays : input.frequency = .daily ∨ input.frequency = .weekly := by
      unfold ExpandInput.StepsByMonths at h
      cases hf : input.frequency <;> simp_all
    rw [ExpandInput.start, addUnits_days hdays, time_instant]

/-- Days and weeks increase, also where they are late from the second one on. -/
theorem start_lt_of_days (h : input.frequency = .daily ∨ input.frequency = .weekly) (hij : i < j) :
    input.start i < input.start j := by
  have hmonth : landedMonth input.anchorStart input.frequency i ≤
      landedMonth input.anchorStart input.frequency j := by
    have htarget : ∀ k, targetMonth input.anchorStart input.frequency k =
        monthOf (input.anchorStart / msPerDay) := fun k => targetMonth_days h
    have hlate : Late input.anchorStart input.frequency i →
        Late input.anchorStart input.frequency j := by
      rintro ⟨-, hyear⟩
      rw [htarget] at hyear
      exact ⟨by omega, by rwa [htarget]⟩
    unfold landedMonth lateness
    rw [htarget, htarget]
    split
    · rename_i hl
      rw [if_pos (hlate hl)]
    · split <;> omega
  have hstart := monthStart_mono hmonth
  have hdays : (i : ℤ) * days input.frequency < j * days input.frequency := by
    rcases h with h | h <;> rw [h, days] <;> omega
  rw [ExpandInput.start, ExpandInput.start, addUnits_days h, addUnits_days h]
  exact instant_lt _ (by omega)

/-! ### The rules of the series -/

/-- **An expansion is exact unless a date is late and in time.** Every date of a rule in days and
weeks, and every date of a rule in months and years that is not computed in a year from 0 to 99 or
comes out past the end when it is taken for one of the twentieth century. -/
theorem expansion_exact_iff (input : ExpandInput) :
    Exact input ↔ ∀ k : ℕ, (k : ℤ) < input.hardLimit → input.StepsByMonths →
      Late input.anchorStart input.frequency k → input.PastEnd (input.lateDate k) := by
  constructor
  · intro h k hlimit hsteps hlate
    by_contra hintime
    -- the first date that is late is in time too, and not in its month
    obtain ⟨j, ⟨hj, hjk⟩, hfirst⟩ : ∃ j : ℕ, (Late input.anchorStart input.frequency j ∧ j ≤ k) ∧
        ∀ i < j, ¬Late input.anchorStart input.frequency i := by
      refine ⟨Nat.find ⟨k, hlate⟩, ⟨Nat.find_spec ⟨k, hlate⟩, Nat.find_le hlate⟩, fun i hi => ?_⟩
      exact Nat.find_min ⟨k, hlate⟩ hi
    have hfits : ∀ i ≤ j, input.fits i = true := fun i hi =>
      fits_iff.2 (not_pastEnd_of_le (start_le_lateDate hsteps (hi.trans hjk)) hintime)
    have hlength : j < (whole input).length := lt_length_whole.2 ⟨by omega, hfits⟩
    have hmonth := (h.months hsteps j _ (getElem?_whole.2 ⟨hlength, rfl⟩)).1
    change monthOf (input.start j / msPerDay) = input.month j at hmonth
    rw [start_of_late hsteps hj, ExpandInput.lateDate, div_instant,
      monthOf_clampedDay (one_le_getUTCDate _)] at hmonth
    unfold lateness at hmonth
    omega
  · intro h
    -- what is written is not late
    have hnot : input.StepsByMonths → ∀ k < (whole input).length,
        ¬Late input.anchorStart input.frequency k := by
      intro hsteps k hk hlate
      obtain ⟨hlimit, hfits⟩ := lt_length_whole.1 hk
      refine fits_iff.1 (hfits k le_rfl) ?_
      rw [start_of_late hsteps hlate]
      exact h k hlimit hsteps hlate
    refine ⟨fun sizes _ hsum => ?_, ?_, ?_, ?_⟩
    · rw [resume_eq, take_of_length_le hsum]
    · refine pairwise_iff_getElem.2 fun i j hi hj hij => ?_
      have hstart : ∀ k (hk : k < (whole input).length), (whole input)[k].start = input.start k :=
        fun k hk => by rw [(getElem?_whole.1 (getElem?_eq_getElem hk)).2]; rfl
      rw [hstart i hi, hstart j hj]
      by_cases hsteps : input.StepsByMonths
      · rw [start_of_not_late hsteps (hnot hsteps i hi),
          start_of_not_late hsteps (hnot hsteps j hj)]
        exact instant_lt _ (clampedDay_lt (month_lt hsteps hij) (one_le_getUTCDate _))
      · refine start_lt_of_days ?_ hij
        unfold ExpandInput.StepsByMonths at hsteps
        cases hf : input.frequency <;> simp_all
    · intro o ho
      rw [whole_eq] at ho
      obtain ⟨k, -, rfl⟩ := mem_map.1 ho
      exact ⟨add_sub_cancel_left _ _, time_start input k⟩
    · intro hsteps k o ho
      obtain ⟨hk, rfl⟩ := getElem?_whole.1 ho
      change monthOf (input.start k / msPerDay) = _ ∧ getUTCDate (input.start k) = _
      rw [start_of_not_late hsteps (hnot hsteps k hk), getUTCDate_instant, div_instant]
      exact ⟨monthOf_clampedDay (one_le_getUTCDate _), dayOfMonth_clampedDay (one_le_getUTCDate _)⟩

/-- Monthly from 31 January of the year 50, three times: February and March are those of 1950. -/
def firstCentury : ExpandInput where
  anchorStart := clampedDay (12 * 50) 31 * msPerDay
  anchorEnd := clampedDay (12 * 50) 31 * msPerDay
  frequency := .monthly
  «until» := none
  count := some 3
  horizonEnd := clampedDay (12 * 1951) 31 * msPerDay
  maxRows := none

/-- **What goes wrong otherwise.** A rule that begins in the year 50 goes on in 1950. -/
theorem expansion_inexact : ((whole firstCentury).map fun o => monthOf (o.start / msPerDay)) =
        [12 * 50, 12 * 1950 + 1, 12 * 1950 + 2] ∧ ¬Exact firstCentury := by
  have hwhole : ((whole firstCentury).map fun o => monthOf (o.start / msPerDay)) =
      [12 * 50, 12 * 1950 + 1, 12 * 1950 + 2] := by decide
  refine ⟨hwhole, fun h => ?_⟩
  have hmonth := (h.months (.inl rfl) 1 _ (getElem?_whole.2 ⟨by decide, rfl⟩)).1
  exact absurd hmonth (by decide)

end Rabotka.Expander
