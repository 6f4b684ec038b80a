import Mathlib
import Rabotka.Lib.Calendar

/-!
# Repeat rules

A repeat rule is a first occurrence, a frequency and an end condition. `expand` turns it into
dates, as `RecurrenceExpanderService` does: the occurrence number `index` is computed from the
first one, not from its predecessor, and the walk stops at the first date that is too late.

The dates of a rule increase strictly (`Rule.strictMono_start`), so what the walk returns is
known without walking: it is a run of consecutive indexes from the one it starts at
(`expand_eq`), and it reaches as far as the limits, the end condition and the horizon allow
(`lt_length_expand`). Dates are milliseconds.
-/

namespace Rabotka.Events

open List

/-- `RecurrenceFrequency`. -/
inductive RecurrenceFrequency where
  | daily
  | weekly
  | monthly
  | yearly
deriving DecidableEq

/-- Hard ceiling on how many occurrences one series may ever hold. -/
def maxOccurrencesPerSeries : ℕ := 365

/-- How many rows a single request will write. -/
def maxMaterialisedPerRequest : ℕ := 120

/-- How far ahead a series with no end condition is generated. -/
def openEndedHorizonMonths : ℕ := 12

/-- `addUnits`: the date shifted by `n` periods. The components are in UTC, so that a day is a
fixed number of milliseconds; months clamp to the last day. -/
def addUnits (date : ℤ) (frequency : RecurrenceFrequency) (n : ℕ) : ℤ :=
  if n = 0 then date
  else match frequency with
    | .daily => date + n * Calendar.msPerDay
    | .weekly => date + n * 7 * Calendar.msPerDay
    | .monthly => Calendar.addMonthsClamped date n
    | .yearly => Calendar.addMonthsClamped date (12 * n)

/-- `intervalMs`: the gap between the first occurrence and the second. -/
def intervalMs (anchorStart : ℤ) (frequency : RecurrenceFrequency) : ℤ :=
  addUnits anchorStart frequency 1 - anchorStart

/-- `openEndedHorizon`. -/
def openEndedHorizon (anchorStart : ℤ) : ℤ :=
  addUnits anchorStart .monthly openEndedHorizonMonths

/-- A repeat rule: the first occurrence, the frequency and the end condition. -/
structure Rule where
  anchorStart : ℤ
  anchorEnd : ℤ
  frequency : RecurrenceFrequency
  /-- Inclusive last date. -/
  «until» : Option ℤ
  /-- Total number of occurrences, counting the first. -/
  count : Option ℕ
deriving DecidableEq

/-- `ExpandInput`: a rule, and how much of it to write. -/
structure ExpandInput extends Rule where
  horizonEnd : ℤ
  maxRows : ℕ
  startIndex : ℕ := 0

/-- `Occurrence`. -/
structure Occurrence where
  start : ℤ
  «end» : ℤ
  index : ℕ
deriving DecidableEq

namespace Rule

/-- The start of the occurrence number `index`. -/
def start (rule : Rule) (index : ℕ) : ℤ := addUnits rule.anchorStart rule.frequency index

/-- The occurrence number `index`: the duration of the first one is kept. -/
def occurrence (rule : Rule) (index : ℕ) : Occurrence where
  start := rule.start index
  «end» := rule.start index + (rule.anchorEnd - rule.anchorStart)
  index := index

/-- `hardLimit`. A count of zero is no count. -/
def hardLimit (rule : Rule) : ℕ :=
  match rule.count with
  | some count => if count = 0 then maxOccurrencesPerSeries else min count maxOccurrencesPerSeries
  | none => maxOccurrencesPerSeries

/-- The date is not past the last one of the rule. -/
def Within (rule : Rule) (date : ℤ) : Prop := ∀ last ∈ rule.until, date ≤ last

instance (rule : Rule) (date : ℤ) : Decidable (rule.Within date) :=
  inferInstanceAs (Decidable (∀ last ∈ rule.until, date ≤ last))

/-- The rule has an occurrence number `index`. -/
def Has (rule : Rule) (index : ℕ) : Prop :=
  index < rule.hardLimit ∧ rule.Within (rule.start index)

instance (rule : Rule) (index : ℕ) : Decidable (rule.Has index) :=
  inferInstanceAs (Decidable (_ ∧ _))

end Rule

/-- The loop of `expand`: `left` indexes are left below the hard limit, `written` occurrences are
on the list. -/
def expandLoop (input : ExpandInput) : (left written index : ℕ) → List Occurrence
  | 0, _, _ => []
  | left + 1, written, index =>
    if input.maxRows ≤ written then []
    else
      let start := addUnits input.anchorStart input.frequency index
      if ¬ input.Within start then []
      else if input.horizonEnd < start then []
      else input.occurrence index :: expandLoop input left (written + 1) (index + 1)

/-- `expand`. -/
def expand (input : ExpandInput) : List Occurrence :=
  expandLoop input (input.hardLimit - input.startIndex) 0 input.startIndex

/-! ### The dates increase -/

theorem addUnits_lt (date : ℤ) (frequency : RecurrenceFrequency) {n n' : ℕ} (h : n < n') :
    addUnits date frequency n < addUnits date frequency n' := by
  have hpos : (0 : ℤ) < Calendar.msPerDay := by decide
  have hcast : (n : ℤ) < n' := by exact_mod_cast h
  -- zero periods are no exception to the formula of the frequency
  have hday : ∀ n : ℕ, addUnits date .daily n = date + n * Calendar.msPerDay := by
    rintro (_ | n) <;> simp [addUnits]
  have hweek : ∀ n : ℕ, addUnits date .weekly n = date + n * 7 * Calendar.msPerDay := by
    rintro (_ | n) <;> simp [addUnits]
  have hmonth : ∀ n : ℕ, addUnits date .monthly n = Calendar.addMonthsClamped date n := by
    rintro (_ | n) <;> simp [addUnits, Calendar.addMonthsClamped_zero]
  have hyear : ∀ n : ℕ, addUnits date .yearly n = Calendar.addMonthsClamped date (12 * n) := by
    rintro (_ | n) <;> simp [addUnits, Calendar.addMonthsClamped_zero]
  cases frequency
  · rw [hday, hday]
    linarith [mul_lt_mul_of_pos_right hcast hpos]
  · rw [hweek, hweek]
    linarith [mul_lt_mul_of_pos_right hcast hpos]
  · rw [hmonth, hmonth]
    exact Calendar.addMonthsClamped_lt hcast date
  · rw [hyear, hyear]
    exact Calendar.addMonthsClamped_lt (by omega) date

theorem Rule.strictMono_start (rule : Rule) : StrictMono rule.start :=
  fun _ _ h => addUnits_lt _ _ h

@[simp]
theorem Rule.start_zero (rule : Rule) : rule.start 0 = rule.anchorStart := by
  simp [Rule.start, addUnits]

theorem lt_openEndedHorizon (date : ℤ) : date < openEndedHorizon date :=
  addUnits_lt date .monthly (show 0 < openEndedHorizonMonths by decide)

theorem Rule.Within.mono {rule : Rule} {date date' : ℤ} (h : rule.Within date')
    (hle : date ≤ date') : rule.Within date :=
  fun last hlast => hle.trans (h last hlast)

/-- An earlier occurrence of a rule is one too. -/
theorem Rule.Has.mono {rule : Rule} {i j : ℕ} (h : rule.Has j) (hle : i ≤ j) : rule.Has i :=
  ⟨hle.trans_lt h.1, h.2.mono (rule.strictMono_start.monotone hle)⟩

/-! ### What the walk returns -/

/-- The occurrence number `index` is not past the end condition or the horizon. -/
def ExpandInput.Fits (input : ExpandInput) (index : ℕ) : Prop :=
  input.Has index ∧ input.start index ≤ input.horizonEnd

variable {input : ExpandInput}

theorem ExpandInput.Fits.mono {i j : ℕ} (h : input.Fits j) (hle : i ≤ j) : input.Fits i :=
  ⟨h.1.mono hle, (input.toRule.strictMono_start.monotone hle).trans h.2⟩

/-- The walk goes through consecutive indexes. -/
theorem expandLoop_eq (input : ExpandInput) (left written index : ℕ) :
    expandLoop input left written index =
      (range' index (expandLoop input left written index).length).map input.occurrence := by
  induction left generalizing written index with
  | zero => rfl
  | succ left ih =>
    simp only [expandLoop]
    split
    · rfl
    · split
      · rfl
      · split
        · rfl
        · rw [length_cons, List.range'_succ, map_cons, ← ih]

/-- The walk goes on as long as there is room and the date is not too late. -/
theorem lt_length_expandLoop (input : ExpandInput) {left written index : ℕ}
    (hleft : index + left = max input.hardLimit index) (j : ℕ) :
    j < (expandLoop input left written index).length ↔
      written + j < input.maxRows ∧ input.Fits (index + j) := by
  induction left generalizing written index j with
  | zero =>
    simp only [expandLoop, length_nil, Nat.not_lt_zero, false_iff, not_and]
    intro _ hfits
    have hlt := hfits.1.1
    omega
  | succ left ih =>
    simp only [expandLoop]
    -- where the walk stops, no later index fits either
    have hstop : ¬ input.Fits index → (j < ([] : List Occurrence).length ↔
          written + j < input.maxRows ∧ input.Fits (index + j)) := by
      intro hnot
      simp only [length_nil, Nat.not_lt_zero, false_iff, not_and]
      exact fun _ hfits => hnot (hfits.mono (by omega))
    split
    · rename_i hfull
      simp only [length_nil, Nat.not_lt_zero, false_iff, not_and]
      omega
    · split
      · rename_i hpast
        exact hstop fun hfits => hpast hfits.1.2
      · split
        · rename_i hfar
          exact hstop fun hfits => absurd hfits.2 (not_le.2 hfar)
        · rename_i hroom hwithin hnear
          rcases j with _ | j
          · have hfits : input.Fits index :=
              ⟨⟨by omega, not_not.1 hwithin⟩, not_lt.1 hnear⟩
            simp only [length_cons, Nat.zero_lt_succ, add_zero, true_iff]
            exact ⟨by omega, hfits⟩
          · rw [length_cons, Nat.succ_lt_succ_iff, ih (by omega), Nat.add_right_comm index,
              Nat.add_right_comm written]
            rfl

theorem expand_eq (input : ExpandInput) : expand input =
      (range' input.startIndex (expand input).length).map input.occurrence :=
  expandLoop_eq input _ _ _

theorem lt_length_expand (input : ExpandInput) (j : ℕ) :
    j < (expand input).length ↔ j < input.maxRows ∧ input.Fits (input.startIndex + j) := by
  rw [expand, lt_length_expandLoop input (by omega), Nat.zero_add]

/-- An occurrence that the walk returns. -/
theorem mem_expand {o : Occurrence} : o ∈ expand input ↔
      input.startIndex ≤ o.index ∧ o.index < input.startIndex + input.maxRows ∧
        input.Fits o.index ∧ o = input.occurrence o.index := by
  rw [expand_eq]
  simp only [mem_map, mem_range'_1]
  constructor
  · rintro ⟨i, ⟨hge, hlt⟩, rfl⟩
    obtain ⟨hrows, hfits⟩ := (lt_length_expand input (i - input.startIndex)).1 (by omega)
    rw [Nat.add_sub_cancel' hge] at hfits
    exact ⟨hge, by simp only [Rule.occurrence]; omega, hfits, rfl⟩
  · rintro ⟨hge, hlt, hfits, ho⟩
    refine ⟨o.index, ⟨hge, ?_⟩, ho.symm⟩
    have hlen := (lt_length_expand input (o.index - input.startIndex)).2
      ⟨by omega, by rwa [Nat.add_sub_cancel' hge]⟩
    omega

theorem expand_eq_nil :
    expand input = [] ↔ ¬ (0 < input.maxRows ∧ input.Fits input.startIndex) := by
  have hpos := lt_length_expand input 0
  rw [add_zero] at hpos
  rw [← hpos, ← length_eq_zero_iff]
  omega

/-- The date of the last occurrence. -/
theorem getLast?_expand (hne : expand input ≠ []) : (expand input).getLast? =
      some (input.occurrence (input.startIndex + (expand input).length - 1)) := by
  have hpos := length_pos_iff.2 hne
  have hlast : (expand input).getLast? = (expand input)[(expand input).length - 1]? :=
    getLast?_eq_getElem?
  rw [hlast]
  conv_lhs => rw [expand_eq]
  simp only [getElem?_map, length_map, length_range']
  rw [getElem?_range' (by omega)]
  simp only [Option.map_some, one_mul]
  congr 2
  omega

/-- Daily for three days from the first instant, and monthly from 31 January 2026: February is
short and March is not. -/
example : expand ⟨⟨0, 5, .daily, none, some 3⟩, 10 ^ 10, 120, 1⟩ =
      [⟨86400000, 86400005, 1⟩, ⟨172800000, 172800005, 2⟩] ∧
    (expand ⟨⟨1769817600000, 1769817600000, .monthly, none, none⟩, 1774915200000, 120, 0⟩).map
      (·.start) = [1769817600000, 1772236800000, 1774915200000] := by
  decide

end Rabotka.Events
