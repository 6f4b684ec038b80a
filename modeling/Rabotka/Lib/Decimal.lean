import Mathlib.Data.Rat.Floor

/-!
# Fixed-point columns

A `DECIMAL` column with two fractional digits stores a whole number of hundredths. Writing
an arbitrary number to it rounds half away from zero, and an `increment` adds the exact
number to the stored one *before* rounding the result. The two roundings — of the sum, and
of the number written on its own to another column — agree except where the number lies
exactly halfway between two hundredths and the sum rounds it the other way; the lemmas here
say exactly when.
-/

namespace Decimal

/-- `Math.round`: halves are rounded up. -/
def mathRound (x : ℚ) : ℤ :=
  ⌊x + 1 / 2⌋

/-- Rounding half away from zero. -/
def roundAway (x : ℚ) : ℤ :=
  if 0 ≤ x then ⌊x + 1 / 2⌋ else -⌊-x + 1 / 2⌋

/-- The stored value of a `DECIMAL(_, 2)` column, in hundredths, after writing `x`. -/
def column (x : ℚ) : ℤ :=
  roundAway (100 * x)

/-- The number a column that stores `c` hundredths denotes. -/
def value (c : ℤ) : ℚ :=
  c / 100

/-- `SET balance = balance + x` on a column that stores `b` hundredths. -/
def increment (b : ℤ) (x : ℚ) : ℤ :=
  column (value b + x)

/-- `x` lies exactly halfway between two hundredths. -/
def IsHalf (x : ℚ) : Prop :=
  Int.fract (100 * x) = 1 / 2

instance (x : ℚ) : Decidable (IsHalf x) :=
  inferInstanceAs (Decidable (_ = _))

variable {x : ℚ}

theorem roundAway_of_nonneg (h : 0 ≤ x) : roundAway x = ⌊x + 1 / 2⌋ :=
  if_pos h

@[simp]
theorem roundAway_intCast (n : ℤ) : roundAway n = n := by
  have hhalf : ⌊(1 / 2 : ℚ)⌋ = 0 := by norm_num
  unfold roundAway
  split
  · rw [Int.floor_intCast_add, hhalf, add_zero]
  · rw [← Int.cast_neg, Int.floor_intCast_add, hhalf, add_zero, neg_neg]

@[simp]
theorem column_value (c : ℤ) : column (value c) = c := by
  rw [column, value, mul_div_cancel₀ _ (by norm_num : (100 : ℚ) ≠ 0), roundAway_intCast]

/-- Between whole hundredths no rounding takes place. -/
theorem increment_value (b c : ℤ) : increment b (value c) = b + c := by
  have hsum : value b + value c = value (b + c) := by
    simp only [value, Int.cast_add]
    ring
  rw [increment, hsum, column_value]

theorem increment_neg_value (b c : ℤ) : increment b (-value c) = b - c := by
  have hneg : -value c = value (-c) := by
    simp only [value, Int.cast_neg]
    ring
  rw [hneg, increment_value, sub_eq_add_neg]

theorem hundred_mul_value_add (b : ℤ) (x : ℚ) : 100 * (value b + x) = b + 100 * x := by
  simp only [value]
  ring

variable {b : ℤ}

/-- Adding a non-negative number to a non-negative balance rounds like the number itself. -/
theorem increment_of_nonneg (hb : 0 ≤ b) (hx : 0 ≤ x) : increment b x = b + column x := by
  have hx' : 0 ≤ 100 * x := by linarith
  have hb' : (0 : ℚ) ≤ b := by exact_mod_cast hb
  rw [increment, column, hundred_mul_value_add, roundAway_of_nonneg (by linarith), column,
    roundAway_of_nonneg hx', add_assoc, Int.floor_intCast_add]

theorem column_nonneg (hx : 0 ≤ x) : 0 ≤ column x := by
  rw [column, roundAway_of_nonneg (by linarith)]
  exact Int.floor_nonneg.2 (by linarith)

/-- What a covered withdrawal leaves is not negative. -/
theorem increment_neg_nonneg (h : x ≤ value b) : 0 ≤ increment b (-x) :=
  column_nonneg (by linarith)

private theorem floor_sub_add_half {y : ℚ} :
    ⌊(b : ℚ) - y + 1 / 2⌋ = b - ⌊y + 1 / 2⌋ ↔ Int.fract y ≠ 1 / 2 := by
  have hy := Int.floor_add_fract y
  have h0 := Int.fract_nonneg y
  have h1 := Int.fract_lt_one y
  have hlow : ⌊(b : ℚ) - y + 1 / 2⌋ = b - ⌊y⌋ + ⌊1 / 2 - Int.fract y⌋ := by
    rw [← Int.floor_intCast_add]
    congr 1
    push_cast
    linarith
  have hhigh : ⌊y + 1 / 2⌋ = ⌊y⌋ + ⌊Int.fract y + 1 / 2⌋ := by
    rw [← Int.floor_intCast_add]
    congr 1
    linarith
  rw [hlow, hhigh]
  rcases lt_trichotomy (Int.fract y) (1 / 2) with hlt | heq | hgt
  · have h2 : ⌊1 / 2 - Int.fract y⌋ = 0 := Int.floor_eq_zero_iff.2 ⟨by linarith, by linarith⟩
    have h3 : ⌊Int.fract y + 1 / 2⌋ = 0 := Int.floor_eq_zero_iff.2 ⟨by linarith, by linarith⟩
    rw [h2, h3]
    exact iff_of_true (by ring) hlt.ne
  · have h2 : ⌊1 / 2 - Int.fract y⌋ = 0 := by rw [heq]; norm_num
    have h3 : ⌊Int.fract y + 1 / 2⌋ = 1 := by rw [heq]; norm_num
    rw [h2, h3]
    exact iff_of_false (by omega) (not_not.2 heq)
  · have h2 : ⌊1 / 2 - Int.fract y⌋ = -1 :=
      Int.floor_eq_iff.2 ⟨by push_cast; linarith, by push_cast; linarith⟩
    have h3 : ⌊Int.fract y + 1 / 2⌋ = 1 :=
      Int.floor_eq_iff.2 ⟨by push_cast; linarith, by push_cast; linarith⟩
    rw [h2, h3]
    exact iff_of_true (by ring) hgt.ne'

private theorem covered_iff (h : x ≤ value b) : 0 ≤ (b : ℚ) - 100 * x := by
  have hmul := mul_le_mul_of_nonneg_left h (by norm_num : (0 : ℚ) ≤ 100)
  rw [value, mul_div_cancel₀ _ (by norm_num : (100 : ℚ) ≠ 0)] at hmul
  linarith

private theorem increment_neg_of_covered (h : x ≤ value b) :
    increment b (-x) = ⌊(b : ℚ) - 100 * x + 1 / 2⌋ := by
  have hsum : 100 * (value b + -x) = b - 100 * x := by
    rw [hundred_mul_value_add]
    ring
  rw [increment, column, hsum, roundAway_of_nonneg (covered_iff h)]

/-- **Exactness of a covered withdrawal.** A balance debited by a covered amount drops by the
rounded amount exactly when the amount is not a positive one halfway between hundredths. -/
theorem increment_neg_eq_iff (h : x ≤ value b) :
    increment b (-x) = b - column x ↔ ¬ (0 ≤ x ∧ IsHalf x) := by
  rw [increment_neg_of_covered h]
  rcases le_or_gt 0 x with hx | hx
  · rw [column, roundAway_of_nonneg (by linarith), floor_sub_add_half]
    simp only [hx, true_and]
    rfl
  · have hneg : ¬ 0 ≤ 100 * x := by linarith
    have hfloor : ⌊(b : ℚ) - 100 * x + 1 / 2⌋ = b + ⌊-(100 * x) + 1 / 2⌋ := by
      rw [← Int.floor_intCast_add]
      congr 1
      ring
    rw [column, roundAway, if_neg hneg, hfloor]
    exact iff_of_true (by ring) fun hhalf => absurd hhalf.1 (not_le.2 hx)

end Decimal
