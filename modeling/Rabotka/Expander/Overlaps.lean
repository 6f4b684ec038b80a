import Rabotka.Events.Schema
import Rabotka.Expander.Chunks

/-!
# Occurrences that overlap

`assertOccurrenceFitsInterval` of `EventSeriesService` accepts an occurrence that is over when the
second one starts. Later steps of a rule can be shorter than the first: a month after a long one,
a year without a leap day.

Consecutive occurrences never overlap exactly when the first one is no longer than the shortest
step its rule takes, and the years of a yearly rule never turn back from 1999 to 100
(`occurrences_apart_iff`); `occurrences_overlap` is a rule that is accepted and overlaps.
-/

namespace Rabotka.Expander

open Calendar
open Events (RecurrenceFrequency Occurrence maxOccurrencesPerSeries Exn frequencyWords)

/-- An event window that `resolveEventWindow` lets through. -/
structure EventWindow extends Events.EventWindow where
  ordered : start ≤ «end»

namespace EventWindow

variable (window : EventWindow)

def durationMs : ℤ := window.end - window.start

/-- `assertOccurrenceFitsInterval`. -/
def assertOccurrenceFitsInterval (frequency : RecurrenceFrequency) : Except Exn Unit :=
  if window.durationMs < intervalMs window.start frequency then pure ()
  else
    let (adverb, period) := frequencyWords frequency
    throw (.badRequest ("An event that repeats " ++ adverb ++
      " must finish before it repeats, so it can last at most " ++ period ++ ". " ++
      "Shorten the event's end date — to make the repetition itself never stop, " ++
      "leave the recurrence without an \"until\" or a \"count\"."))

/-- The window as the anchor of an expansion. -/
def input (frequency : RecurrenceFrequency) («until» count : Option ℤ) (horizonEnd : ℤ)
    (maxRows : Option ℕ) (startIndex : ℕ) : ExpandInput where
  anchorStart := window.start
  anchorEnd := window.end
  frequency := frequency
  «until» := «until»
  count := count
  horizonEnd := horizonEnd
  maxRows := maxRows
  startIndex := startIndex

/-- Of two consecutive occurrences of any expansion, the earlier one is over when the later one
starts. -/
def NeverOverlaps (frequency : RecurrenceFrequency) : Prop :=
  ∀ («until» count : Option ℤ) (horizonEnd : ℤ) (maxRows : Option ℕ) (startIndex k : ℕ)
    (o o' : Occurrence),
    let occurrences := expand (window.input frequency «until» count horizonEnd maxRows startIndex)
    occurrences[k]? = some o → occurrences[k + 1]? = some o' → o.end ≤ o'.start

/-- The shortest step of a rule that begins at this window, in milliseconds. -/
def shortest (frequency : RecurrenceFrequency) : ℤ :=
  match frequency with
  | .daily => msPerDay
  | .weekly => 7 * msPerDay
  | .monthly => shortestStep (getUTCDate window.start) * msPerDay
  | .yearly => 365 * msPerDay

/-- A yearly rule comes from the year 99, which is taken for 1999, to the year 100. -/
def TurnsBack (frequency : RecurrenceFrequency) : Prop :=
  frequency = .yearly ∧ -264 ≤ getUTCFullYear window.start ∧ getUTCFullYear window.start ≤ 98

instance (frequency : RecurrenceFrequency) : Decidable (window.TurnsBack frequency) :=
  inferInstanceAs (Decidable (_ ∧ _))

end EventWindow

/-! ### Consecutive occurrences -/

variable {input : ExpandInput} {window : EventWindow} {frequency : RecurrenceFrequency}
  {i j k : ℕ}

theorem hardLimit_le (input : ExpandInput) : input.hardLimit ≤ maxOccurrencesPerSeries := by
  unfold ExpandInput.hardLimit
  split
  · exact le_rfl
  · split
    · exact le_rfl
    · exact min_le_right _ _

/-- An expansion goes through consecutive indexes below the limit. -/
theorem expand_run (input : ExpandInput) : ∃ m : ℕ, m ≤ input.hardLimit.toNat - input.startIndex ∧
      expand input = (List.range' input.startIndex m).map input.occurrence := by
  have hleft : (input.hardLimit - input.startIndex).toNat =
      input.hardLimit.toNat - input.startIndex := by omega
  have hlength : ∀ l : ℕ, ((List.range' input.startIndex l).takeWhile input.fits).length ≤ l :=
    fun l => (List.takeWhile_prefix _).length_le.trans_eq List.length_range'
  rw [expand, hleft]
  cases hrows : input.maxRows with
  | none =>
    refine ⟨_, hlength _, ?_⟩
    rw [expandLoop_unbounded hrows, ← takeWhile_range']
  | some rows =>
    rw [expandLoop_bounded hrows, takeWhile_range', Nat.sub_zero]
    have hrun := hlength (input.hardLimit.toNat - input.startIndex)
    generalize ((List.range' input.startIndex (input.hardLimit.toNat -
      input.startIndex)).takeWhile input.fits).length = m at hrun ⊢
    rcases le_total m rows with hle | hle
    · exact ⟨m, hrun, by rw [List.take_range'_of_length_le hle]⟩
    · exact ⟨rows, hle.trans hrun, by rw [List.take_range'_of_length_ge hle]⟩

/-- An occurrence that is written has its index below the limit. -/
theorem of_getElem?_expand {o : Occurrence} (h : (expand input)[k]? = some o) :
    input.startIndex + k < maxOccurrencesPerSeries ∧
      o = input.occurrence (input.startIndex + k) := by
  obtain ⟨m, hm, hexpand⟩ := expand_run input
  have hlimit := hardLimit_le input
  rw [hexpand, List.getElem?_map] at h
  by_cases hk : k < m
  · rw [List.getElem?_range' hk, Option.map_some, Option.some_inj, one_mul] at h
    exact ⟨by omega, h.symm⟩
  · rw [List.getElem?_eq_none (by rw [List.length_range']; omega)] at h
    cases h

/-- Without a bound an occurrence is written that neither it nor an earlier one is too late
for. -/
theorem getElem?_expand (hrows : input.maxRows = none)
    (hlt : input.startIndex + j < input.hardLimit)
    (hfits : ∀ i ≤ j, input.fits (input.startIndex + i) = true) :
    (expand input)[j]? = some (input.occurrence (input.startIndex + j)) := by
  have hlength := (lt_length_takeWhile (input.hardLimit - input.startIndex).toNat).2
    ⟨by omega, hfits⟩
  rw [expand, expandLoop_unbounded hrows, takeWhile_range', List.getElem?_map,
    List.getElem?_range' hlength, Option.map_some, one_mul]

/-- Occurrences overlap in no expansion exactly if no date is too close to the next. -/
theorem neverOverlaps_iff : window.NeverOverlaps frequency ↔ ∀ k < 364,
      addUnits window.start frequency k + window.durationMs ≤
        addUnits window.start frequency (k + 1) := by
  constructor
  · intro h k hk
    -- an expansion of these two alone
    generalize hinput : window.input frequency none none
      (max (addUnits window.start frequency k) (addUnits window.start frequency (k + 1))) none k =
        input
    have hfits : ∀ i ≤ 1, input.fits (input.startIndex + i) = true := by
      intro i hi
      rw [fits_iff, ← hinput]
      rintro (⟨last, hlast, -⟩ | hlt)
      · cases hlast
      · interval_cases i
        · exact absurd hlt (not_lt.2 (le_max_left _ _))
        · exact absurd hlt (not_lt.2 (le_max_right _ _))
    have hlimit : input.startIndex = k ∧ input.hardLimit = 365 ∧ input.maxRows = none := by
      rw [← hinput]
      exact ⟨rfl, rfl, rfl⟩
    obtain ⟨hstart, hhard, hrows⟩ := hlimit
    have hzero : (expand input)[0]? = some (input.occurrence k) := by
      rw [getElem?_expand hrows (by omega) fun i hi => hfits i (by omega), hstart, add_zero]
    have hone : (expand input)[1]? = some (input.occurrence (k + 1)) := by
      rw [getElem?_expand hrows (by omega) hfits, hstart]
    rw [← hinput] at hzero hone
    exact h _ _ _ _ _ 0 _ _ hzero hone
  · intro h «until» count horizonEnd maxRows startIndex k o o' occurrences ho ho'
    obtain ⟨-, rfl⟩ := of_getElem?_expand ho
    obtain ⟨hlt, rfl⟩ := of_getElem?_expand ho'
    exact h (startIndex + k) (by change startIndex + (k + 1) < 365 at hlt; omega)

/-! ### Steps of days and weeks -/

variable {date : ℤ}

/-- From the second date on either all are late or none, where neither the months nor the years
change. -/
theorem landedMonth_days (h : frequency = .daily ∨ frequency = .weekly) (hij : i ≤ j) :
    landedMonth date frequency i ≤ landedMonth date frequency j ∧
      (i ≠ 0 → landedMonth date frequency i = landedMonth date frequency j) := by
  have htarget : ∀ k, targetMonth date frequency k = monthOf (date / msPerDay) :=
    fun k => targetMonth_days h
  unfold landedMonth Late lateness
  simp only [htarget]
  by_cases hyear : IsTwoDigit (monthOf (date / msPerDay) / 12) ∨
      frequency = .monthly ∧ IsTwoDigit (getUTCFullYear date)
  · simp only [hyear, and_true]
    split_ifs <;> omega
  · simp only [hyear, and_false, if_false, le_refl, implies_true, and_true]

/-- A step of days or weeks has its length, or more where the dates begin to be late. -/
theorem step_days (h : frequency = .daily ∨ frequency = .weekly) (date : ℤ) (k : ℕ) :
    addUnits date frequency k + days frequency * msPerDay ≤ addUnits date frequency (k + 1) ∧
      (k ≠ 0 → addUnits date frequency (k + 1) =
        addUnits date frequency k + days frequency * msPerDay) := by
  obtain ⟨hle, heq⟩ := @landedMonth_days frequency k (k + 1) date h (Nat.le_succ k)
  have hstart := monthStart_mono hle
  have hnext : ((k + 1 : ℕ) : ℤ) * days frequency = k * days frequency + days frequency := by
    push_cast
    ring
  rw [addUnits_days h, addUnits_days h, hnext]
  unfold msPerDay
  refine ⟨by omega, fun hk => ?_⟩
  rw [heq hk]
  ring

/-! ### Steps of months -/

/-- Once a monthly date is late, the later ones below the limit are. -/
theorem late_monthly_mono (h : Late date .monthly i) (hij : i ≤ j) (hj : j ≤ 364) :
    Late date .monthly j := by
  obtain ⟨hi, hyear⟩ := h
  refine ⟨by omega, ?_⟩
  rw [targetMonth_monthly] at hyear ⊢
  unfold IsTwoDigit getUTCFullYear at *
  simp only [true_and] at hyear ⊢
  omega

theorem landedMonth_monthly (hij : i ≤ j) (hj : j ≤ 364) :
    landedMonth date .monthly i + (j - i) ≤ landedMonth date .monthly j ∧
      ((Late date .monthly j → Late date .monthly i) →
        landedMonth date .monthly j = landedMonth date .monthly i + (j - i)) := by
  have hmono := fun h => @late_monthly_mono i j date h hij hj
  unfold landedMonth lateness
  rw [targetMonth_monthly, targetMonth_monthly]
  refine ⟨?_, fun hback => ?_⟩
  · split_ifs with hi hj' hj'
    · omega
    · exact absurd (hmono hi) hj'
    · omega
    · omega
  · rw [if_congr (Iff.intro hmono hback) rfl rfl]
    split <;> omega

theorem step_monthly (date : ℤ) (hk : k < 364) :
    addUnits date .monthly k + shortestStep (getUTCDate date) * msPerDay ≤
      addUnits date .monthly (k + 1) := by
  have hday := dayOfMonth_mem (date / msPerDay)
  have hmonth := (@landedMonth_monthly k (k + 1) date (Nat.le_succ k) hk).1
  have hstep := shortestStep_le (landedMonth date .monthly k) hday
  have hle : clampedDay (landedMonth date .monthly k + 1) (getUTCDate date) ≤
      clampedDay (landedMonth date .monthly (k + 1)) (getUTCDate date) := by
    rcases (show landedMonth date .monthly k + 1 ≤ landedMonth date .monthly (k + 1) by
      omega).lt_or_eq with hlt | heq
    · exact (clampedDay_lt hlt hday.1).le
    · rw [heq]
  rw [addUnits_clamped (.inl rfl), addUnits_clamped (.inl rfl)]
  unfold getUTCDate msPerDay at *
  omega

/-- The shortest step is taken below the limit. -/
theorem exists_step_monthly (date : ℤ) : ∃ k < 364, addUnits date .monthly (k + 1) =
      addUnits date .monthly k + shortestStep (getUTCDate date) * msPerDay := by
  have hday := dayOfMonth_mem (date / msPerDay)
  -- 25 steps during which no date begins to be late
  obtain ⟨b, hb, hsame⟩ : ∃ b : ℕ, b ≤ 26 ∧ ∀ k, b ≤ k → k ≤ b + 25 →
      landedMonth date .monthly k = landedMonth date .monthly b + (k - b) := by
    by_cases hlate : Late date .monthly 26
    · exact ⟨26, le_rfl, fun k hge hle =>
        (landedMonth_monthly hge (by omega)).2 fun _ => hlate⟩
    · exact ⟨1, by decide, fun k hge hle => (landedMonth_monthly hge (by omega)).2 fun hk =>
        absurd (late_monthly_mono hk hle (by decide)) hlate⟩
  obtain ⟨k, hk, -, hstep⟩ := exists_shortestStep (landedMonth date .monthly b) hday
  refine ⟨b + k, by omega, ?_⟩
  have hfirst := hsame (b + k) (by omega) (by omega)
  have hsecond := hsame (b + k + 1) (by omega) (by omega)
  have hmonth : landedMonth date .monthly (b + k) = landedMonth date .monthly b + k := by
    rw [hfirst]
    push_cast
    ring
  have hmonth' : landedMonth date .monthly (b + k + 1) = landedMonth date .monthly b + k + 1 := by
    rw [hsecond]
    push_cast
    ring
  rw [addUnits_clamped (.inl rfl), addUnits_clamped (.inl rfl), hmonth, hmonth', getUTCDate, hstep]
  ring

/-! ### Steps of years -/

theorem late_yearly_iff : Late date .yearly k ↔ k ≠ 0 ∧ IsTwoDigit (getUTCFullYear date + k) := by
  have htarget : targetMonth date .yearly k / 12 = getUTCFullYear date + k := by
    rw [targetMonth_yearly, getUTCFullYear]
    omega
  rw [Late, htarget]
  simp

theorem landedMonth_yearly (date : ℤ) (k : ℕ) :
    landedMonth date .yearly k = 12 * (getUTCFullYear date + k) + getUTCMonth date +
      if k ≠ 0 ∧ IsTwoDigit (getUTCFullYear date + k) then lateness else 0 := by
  unfold landedMonth
  simp only [late_yearly_iff]
  rw [targetMonth_yearly, ← year_add]
  ring

/-- A step of a year has 365 days or more, or turns back. -/
theorem step_yearly (hturns : ¬(-264 ≤ getUTCFullYear date ∧ getUTCFullYear date ≤ 98))
    (hk : k < 364) :
    addUnits date .yearly k + 365 * msPerDay ≤ addUnits date .yearly (k + 1) := by
  have hday := one_le_getUTCDate date
  have hmonth : landedMonth date .yearly k + 12 ≤ landedMonth date .yearly (k + 1) := by
    rw [landedMonth_yearly, landedMonth_yearly]
    unfold IsTwoDigit lateness
    push_cast
    split_ifs <;> omega
  have hstep := yearStep_ge (landedMonth date .yearly k) hday
  have hle : clampedDay (landedMonth date .yearly k + 12) (getUTCDate date) ≤
      clampedDay (landedMonth date .yearly (k + 1)) (getUTCDate date) := by
    rcases hmonth.lt_or_eq with hlt | heq
    · exact (clampedDay_lt hlt hday).le
    · rw [heq]
  rw [addUnits_clamped (.inr rfl), addUnits_clamped (.inr rfl)]
  unfold msPerDay
  omega

/-- A step of 365 days is taken below the limit. -/
theorem exists_step_yearly (hturns : ¬(-264 ≤ getUTCFullYear date ∧ getUTCFullYear date ≤ 98)) :
    ∃ k < 364, addUnits date .yearly (k + 1) = addUnits date .yearly k + 365 * msPerDay := by
  have hday := one_le_getUTCDate date
  have hsame : ∀ k : ℕ, 1 ≤ k → k ≤ 3 →
      landedMonth date .yearly k = landedMonth date .yearly 1 + 12 * (k - 1) := by
    intro k hge hle
    rw [landedMonth_yearly, landedMonth_yearly]
    unfold IsTwoDigit lateness
    push_cast
    split_ifs <;> omega
  have htwo : landedMonth date .yearly (1 + 1) = landedMonth date .yearly 1 + 12 :=
    hsame 2 (by decide) (by decide)
  have hthree : landedMonth date .yearly (2 + 1) = landedMonth date .yearly 1 + 24 :=
    hsame 3 (by decide) (by decide)
  rcases exists_yearStep (landedMonth date .yearly 1) hday with hstep | hstep
  · refine ⟨1, by decide, ?_⟩
    rw [addUnits_clamped (.inr rfl), addUnits_clamped (.inr rfl), htwo, hstep]
    ring
  · refine ⟨2, by decide, ?_⟩
    rw [addUnits_clamped (.inr rfl), addUnits_clamped (.inr rfl), hthree, hstep,
      show landedMonth date .yearly 2 = landedMonth date .yearly 1 + 12 from htwo]
    ring

/-- From the year 99, which is taken for 1999, the next date is in the year 100. -/
theorem turns_back (hturns : -264 ≤ getUTCFullYear date ∧ getUTCFullYear date ≤ 98) :
    ∃ k < 364, addUnits date .yearly (k + 1) < addUnits date .yearly k := by
  have hday := one_le_getUTCDate date
  refine ⟨(99 - getUTCFullYear date).toNat, by omega, ?_⟩
  have hmonth : landedMonth date .yearly ((99 - getUTCFullYear date).toNat + 1) <
      landedMonth date .yearly (99 - getUTCFullYear date).toNat := by
    rw [landedMonth_yearly, landedMonth_yearly]
    unfold IsTwoDigit lateness
    push_cast
    split_ifs <;> omega
  rw [addUnits_clamped (.inr rfl), addUnits_clamped (.inr rfl)]
  exact instant_lt _ (clampedDay_lt hmonth hday)

/-! ### The condition -/

/-- No date of a rule is closer to the next than the shortest step, unless it turns back. -/
theorem shortest_le (hturns : ¬window.TurnsBack frequency) (hk : k < 364) :
    addUnits window.start frequency k + window.shortest frequency ≤
      addUnits window.start frequency (k + 1) := by
  cases frequency with
  | daily =>
    have hstep := (step_days (.inl rfl) window.start k).1
    rwa [days, one_mul] at hstep
  | weekly => exact (step_days (.inr rfl) window.start k).1
  | monthly => exact step_monthly window.start hk
  | yearly => exact step_yearly (fun h => hturns ⟨rfl, h⟩) hk

/-- Some date is no further from the next than the shortest step. -/
theorem exists_shortest (hturns : ¬window.TurnsBack frequency) :
    ∃ k < 364, addUnits window.start frequency (k + 1) =
      addUnits window.start frequency k + window.shortest frequency := by
  cases frequency with
  | daily =>
    have hstep := (step_days (.inl rfl) window.start 1).2 (by decide)
    rw [days, one_mul] at hstep
    exact ⟨1, by decide, hstep⟩
  | weekly => exact ⟨1, by decide, (step_days (.inr rfl) window.start 1).2 (by decide)⟩
  | monthly => exact exists_step_monthly window.start
  | yearly => exact exists_step_yearly fun h => hturns ⟨rfl, h⟩

/-- **Occurrences stay apart exactly if the first fits into the shortest step.** Of a window that
is accepted, no two consecutive occurrences of any expansion overlap if and only if the window is
no longer than a day, a week, the shortest step between the same day of two months, or 365 days,
and a yearly rule does not come from the year 99 to the year 100. -/
theorem occurrences_apart_iff (window : EventWindow) (frequency : RecurrenceFrequency)
    (_ : window.assertOccurrenceFitsInterval frequency = .ok ()) :
    window.NeverOverlaps frequency ↔
      window.durationMs ≤ window.shortest frequency ∧ ¬window.TurnsBack frequency := by
  rw [neverOverlaps_iff]
  constructor
  · intro h
    have hturns : ¬window.TurnsBack frequency := by
      rintro ⟨rfl, hyears⟩
      obtain ⟨k, hk, hlt⟩ := turns_back hyears
      have hapart := h k hk
      have hordered := window.ordered
      unfold EventWindow.durationMs at hapart
      omega
    obtain ⟨k, hk, hstep⟩ := exists_shortest hturns
    have hapart := h k hk
    exact ⟨by omega, hturns⟩
  · rintro ⟨hle, hturns⟩ k hk
    have hstep := shortest_le hturns hk
    omega

/-- An hour on 31 January 2026. -/
def hour : EventWindow where
  start := clampedDay (12 * 2026) 31 * msPerDay
  «end» := clampedDay (12 * 2026) 31 * msPerDay + 60 * 60 * 1000
  ordered := by decide

/-- Every month for an hour from 31 January 2026. -/
theorem occurrences_apart_hourly : hour.NeverOverlaps .monthly :=
  (occurrences_apart_iff hour .monthly (if_pos (by decide))).2 (by decide)

/-- From 1 January 2026 for 30 days. -/
def thirtyDays : EventWindow where
  start := clampedDay (12 * 2026) 1 * msPerDay
  «end» := clampedDay (12 * 2026) 31 * msPerDay
  ordered := by decide

/-- **What goes wrong otherwise.** Thirty days every month are accepted from January, and the
occurrence of February is not over when the one of March starts. -/
theorem occurrences_overlap : thirtyDays.assertOccurrenceFitsInterval .monthly = .ok () ∧
      ((whole (thirtyDays.input .monthly none (some 3) (clampedDay (12 * 2027) 1 * msPerDay) none
          0)).map fun o => (o.start / msPerDay, o.end / msPerDay)) =
        [(clampedDay (12 * 2026) 1, clampedDay (12 * 2026) 31),
          (clampedDay (12 * 2026 + 1) 1, clampedDay (12 * 2026 + 2) 3),
          (clampedDay (12 * 2026 + 2) 1, clampedDay (12 * 2026 + 2) 31)] ∧
      ¬thirtyDays.NeverOverlaps .monthly := by
  refine ⟨if_pos (by decide), by decide, fun h => ?_⟩
  have hapart := neverOverlaps_iff.1 h 1 (by decide)
  exact absurd hapart (by decide)

end Rabotka.Expander
