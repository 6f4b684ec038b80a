import Mathlib.Algebra.Order.BigOperators.Group.List
import Mathlib.Algebra.BigOperators.Ring.List
import Mathlib.Algebra.Order.Field.Basic
import Mathlib.Tactic.Linarith
import Mathlib.Tactic.Ring

/-!
# Weighted means over a list

The mean of values `v` under weights `w` over a list of indices, as a quotient of two sums. A
list without weight has mean zero, by the convention for division.

* `le_mean`, `mean_le`, `mean_mono`: the mean lies between bounds of the values and follows them.
* `mean_scale`: only the ratios of the weights count.
* `mean_le_mean_cons_iff`: one more term lowers the mean exactly when its value is below it.
* `abs_mean_sub_mul_le`: what a change of the weights does to a mean of values in the unit
  interval. The difference, multiplied by the larger of the two total weights, is at most the
  weight added or the weight taken away, whichever is more. Here no weight needs to be positive.
-/

namespace Rabotka.Lib.WeightedMean

open List

variable {ι K : Type*} [Field K] [LinearOrder K] [IsStrictOrderedRing K]

/-- The weight of a list. -/
def total (w : ι → K) (l : List ι) : K :=
  (l.map w).sum

/-- The sum of the weighted values of a list. -/
def moment (w v : ι → K) (l : List ι) : K :=
  (l.map fun i => v i * w i).sum

/-- The weighted mean of a list. -/
def mean (w v : ι → K) (l : List ι) : K :=
  moment w v l / total w l

variable {w u v : ι → K} {l : List ι}

omit [LinearOrder K] [IsStrictOrderedRing K] in
@[simp] theorem total_nil : total w ([] : List ι) = 0 := rfl

omit [LinearOrder K] [IsStrictOrderedRing K] in
@[simp] theorem total_cons (i : ι) : total w (i :: l) = w i + total w l := by
  simp [total]

omit [LinearOrder K] [IsStrictOrderedRing K] in
@[simp] theorem moment_nil : moment w v ([] : List ι) = 0 := rfl

omit [LinearOrder K] [IsStrictOrderedRing K] in
@[simp] theorem moment_cons (i : ι) : moment w v (i :: l) = v i * w i + moment w v l := by
  simp [moment]

omit [LinearOrder K] [IsStrictOrderedRing K] in
/-- A mean times its weight is the sum of the weighted values. -/
theorem mean_mul_total (h : total w l ≠ 0) : mean w v l * total w l = moment w v l :=
  div_mul_cancel₀ _ h

theorem total_nonneg (hw : ∀ i ∈ l, 0 ≤ w i) : 0 ≤ total w l :=
  sum_nonneg fun x hx => by
    obtain ⟨i, hi, rfl⟩ := mem_map.mp hx
    exact hw i hi

/-- A list of positive weights has weight, unless it is empty. -/
theorem total_pos (hw : ∀ i ∈ l, 0 < w i) (hl : l ≠ []) : 0 < total w l := by
  cases l with
  | nil => exact absurd rfl hl
  | cons i l =>
    rw [total_cons]
    have htail : 0 ≤ total w l := total_nonneg fun j hj => (hw j (mem_cons_of_mem _ hj)).le
    exact add_pos_of_pos_of_nonneg (hw i mem_cons_self) htail

/-! ### Bounds and monotonicity -/

/-- Larger values have a larger weighted sum. -/
theorem moment_mono (hw : ∀ i ∈ l, 0 ≤ w i) (h : ∀ i ∈ l, u i ≤ v i) :
    moment w u l ≤ moment w v l :=
  sum_le_sum fun i hi => mul_le_mul_of_nonneg_right (h i hi) (hw i hi)

omit [LinearOrder K] [IsStrictOrderedRing K] in
/-- The weighted sum of a constant. -/
theorem moment_const (a : K) : moment w (fun _ => a) l = a * total w l := by
  rw [moment, total, sum_map_mul_left]

/-- The mean follows the values. -/
theorem mean_mono (hw : ∀ i ∈ l, 0 ≤ w i) (h : ∀ i ∈ l, u i ≤ v i) : mean w u l ≤ mean w v l :=
  div_le_div_of_nonneg_right (moment_mono hw h) (total_nonneg hw)

/-- A lower bound of the values is a lower bound of their mean. -/
theorem le_mean {a : K} (hw : ∀ i ∈ l, 0 ≤ w i) (ht : 0 < total w l) (h : ∀ i ∈ l, a ≤ v i) :
    a ≤ mean w v l := by
  rw [mean, le_div_iff₀ ht, ← moment_const]
  exact moment_mono hw h

/-- An upper bound of the values is an upper bound of their mean. -/
theorem mean_le {b : K} (hw : ∀ i ∈ l, 0 ≤ w i) (ht : 0 < total w l) (h : ∀ i ∈ l, v i ≤ b) :
    mean w v l ≤ b := by
  rw [mean, div_le_iff₀ ht, ← moment_const]
  exact moment_mono hw h

/-- The mean of values in the unit interval lies there, also when there is no weight. -/
theorem mean_mem_unit (hw : ∀ i ∈ l, 0 ≤ w i) (h : ∀ i ∈ l, 0 ≤ v i ∧ v i ≤ 1) :
    0 ≤ mean w v l ∧ mean w v l ≤ 1 := by
  rcases (total_nonneg hw).eq_or_lt with ht | ht
  · have hzero : mean w v l = 0 := by rw [mean, ← ht, div_zero]
    rw [hzero]
    exact ⟨le_rfl, zero_le_one⟩
  · exact ⟨le_mean hw ht fun i hi => (h i hi).1, mean_le hw ht fun i hi => (h i hi).2⟩

omit [LinearOrder K] [IsStrictOrderedRing K] in
/-- The mean depends on the weights and values of the members only. -/
theorem mean_congr {x y : ι → K} (hw : ∀ i ∈ l, w i = x i) (hv : ∀ i ∈ l, v i = y i) :
    mean w v l = mean x y l := by
  have htotal : total w l = total x l := by
    rw [total, total, map_congr_left hw]
  have hmoment : moment w v l = moment x y l := by
    rw [moment, moment, map_congr_left fun i hi => by rw [hv i hi, hw i hi]]
  rw [mean, mean, htotal, hmoment]

omit [LinearOrder K] [IsStrictOrderedRing K] in
/-- Only the ratios of the weights count. -/
theorem mean_scale {c : K} (hc : c ≠ 0) : mean (fun i => c * w i) v l = mean w v l := by
  have htotal : total (fun i => c * w i) l = c * total w l := by
    rw [total, total, sum_map_mul_left]
  have hmoment : moment (fun i => c * w i) v l = c * moment w v l := by
    rw [moment, moment, ← sum_map_mul_left]
    exact congrArg List.sum (map_congr_left fun i _ => by ring)
  rw [mean, mean, htotal, hmoment, mul_div_mul_left _ _ hc]

omit [LinearOrder K] [IsStrictOrderedRing K] in
/-- The order of the terms does not count. -/
theorem mean_perm {m : List ι} (h : l.Perm m) : mean w v l = mean w v m := by
  rw [mean, mean, moment, moment, total, total, (h.map _).sum_eq, (h.map _).sum_eq]

omit [IsStrictOrderedRing K] in
/-- Terms without weight do not count in a mean. -/
theorem mean_filter_pos (hw : ∀ i ∈ l, 0 ≤ w i) :
    mean w v (l.filter fun i => decide (0 < w i)) = mean w v l := by
  have hsums : total w (l.filter fun i => decide (0 < w i)) = total w l
      ∧ moment w v (l.filter fun i => decide (0 < w i)) = moment w v l := by
    induction l with
    | nil => exact ⟨rfl, rfl⟩
    | cons i l ih =>
      obtain ⟨htotal, hmoment⟩ := ih fun j hj => hw j (mem_cons_of_mem _ hj)
      rcases (hw i mem_cons_self).eq_or_lt with hzero | hpos
      · rw [filter_cons_of_neg (by simp [← hzero]), htotal, hmoment, total_cons,
          moment_cons, ← hzero, mul_zero, zero_add, zero_add]
        exact ⟨rfl, rfl⟩
      · rw [filter_cons_of_pos (by simpa using hpos), total_cons, moment_cons, htotal,
          hmoment, total_cons, moment_cons]
        exact ⟨rfl, rfl⟩
  rw [mean, mean, hsums.1, hsums.2]

/-- One more term keeps the mean from falling exactly when its value is not below the mean. -/
theorem mean_le_mean_cons_iff {i : ι} (ht : 0 < total w l) (hi : 0 < w i) :
    mean w v l ≤ mean w v (i :: l) ↔ mean w v l ≤ v i := by
  have hsum : 0 < w i + total w l := add_pos hi ht
  have hmean : moment w v l = mean w v l * total w l := (mean_mul_total ht.ne').symm
  rw [mean.eq_def w v (i :: l), moment_cons, total_cons, le_div_iff₀ hsum, hmean, mul_add,
    add_le_add_iff_right, mul_le_mul_iff_left₀ hi]

/-! ### A change of the weights -/

/-- The weight that a change from `w` to `u` adds. -/
def rise (w u : ι → K) (l : List ι) : K :=
  (l.map fun i => max 0 (u i - w i)).sum

theorem rise_nonneg : 0 ≤ rise w u l :=
  sum_nonneg fun x hx => by
    obtain ⟨i, -, rfl⟩ := mem_map.mp hx
    exact le_max_left 0 _

/-- What the new total outweighs the old one by was added. -/
theorem total_sub_le_rise : total u l - total w l ≤ rise w u l := by
  induction l with
  | nil => simp [rise]
  | cons i l ih =>
    have hstep : u i - w i ≤ max 0 (u i - w i) := le_max_right 0 _
    have hrise : rise w u (i :: l) = max 0 (u i - w i) + rise w u l := by simp [rise]
    rw [total_cons, total_cons, hrise]
    linarith

omit [LinearOrder K] [IsStrictOrderedRing K] in
/-- The deviations from a value `r`, weighted by the change. -/
theorem moment_sub_sub (r : K) : (moment u v l - r * total u l) - (moment w v l - r * total w l)
      = (l.map fun i => (u i - w i) * (v i - r)).sum := by
  induction l with
  | nil => simp
  | cons i l ih =>
    rw [map_cons, sum_cons, ← ih, moment_cons, moment_cons, total_cons, total_cons]
    ring

/-- A change of weight `d` at a deviation of at most `a` above and `b` below. -/
theorem mul_le_rise {d x a b : K} (ha : x ≤ a) (hb : -b ≤ x) :
    d * x ≤ max 0 d * a + max 0 (-d) * b := by
  rcases le_total 0 d with hd | hd
  · rw [max_eq_right hd, max_eq_left (neg_nonpos.mpr hd), zero_mul, add_zero]
    exact mul_le_mul_of_nonneg_left ha hd
  · rw [max_eq_left hd, max_eq_right (neg_nonneg.mpr hd), zero_mul, zero_add]
    have h : -d * -x ≤ -d * b := mul_le_mul_of_nonneg_left (by linarith) (neg_nonneg.mpr hd)
    linarith

/-- Deviations between `-b` and `a`, weighted by the change. -/
theorem sum_le_rise {x : ι → K} {a b : K} (h : ∀ i ∈ l, x i ≤ a ∧ -b ≤ x i) :
    (l.map fun i => (u i - w i) * x i).sum ≤ rise w u l * a + rise u w l * b := by
  rw [rise, rise, ← sum_map_mul_right, ← sum_map_mul_right, ← sum_map_add]
  refine sum_le_sum fun i hi => ?_
  have hterm : (u i - w i) * x i ≤ max 0 (u i - w i) * a + max 0 (-(u i - w i)) * b :=
    mul_le_rise (h i hi).1 (h i hi).2
  rwa [neg_sub] at hterm

/-- A convex combination is below the larger of the two. -/
theorem convex_le_max {a b r : K} (h₀ : 0 ≤ r) (h₁ : r ≤ 1) : a * (1 - r) + b * r ≤ max a b := by
  have ha : a * (1 - r) ≤ max a b * (1 - r) :=
    mul_le_mul_of_nonneg_right (le_max_left a b) (by linarith)
  have hb : b * r ≤ max a b * r := mul_le_mul_of_nonneg_right (le_max_right a b) h₀
  linarith

/-- One side of the bound: the difference against the new total weight. The old mean `r` has
deviations that cancel under the old weights, so only the change of the weights counts. -/
theorem abs_mean_sub_mul_total_le (hw : ∀ i ∈ l, 0 ≤ w i) (hu : ∀ i ∈ l, 0 ≤ u i)
    (hv : ∀ i ∈ l, 0 ≤ v i ∧ v i ≤ 1) :
    |mean u v l - mean w v l| * total u l ≤ max (rise w u l) (rise u w l) := by
  rcases (total_nonneg hu).eq_or_lt with htu | htu
  · rw [← htu, mul_zero]
    exact le_max_of_le_left rise_nonneg
  rcases (total_nonneg hw).eq_or_lt with htw | htw
  · -- without weight before, all the weight is added
    have hzero : mean w v l = 0 := by rw [mean, ← htw, div_zero]
    have hunit : 0 ≤ mean u v l ∧ mean u v l ≤ 1 := mean_mem_unit hu hv
    have hadded : total u l ≤ rise w u l := by
      have h : total u l - total w l ≤ rise w u l := total_sub_le_rise
      rwa [← htw, sub_zero] at h
    rw [hzero, sub_zero, abs_of_nonneg hunit.1]
    calc mean u v l * total u l ≤ 1 * total u l :=
          mul_le_mul_of_nonneg_right hunit.2 htu.le
      _ = total u l := one_mul _
      _ ≤ max (rise w u l) (rise u w l) := le_max_of_le_left hadded
  · have hr : 0 ≤ mean w v l ∧ mean w v l ≤ 1 := mean_mem_unit hw hv
    have hshift : (mean u v l - mean w v l) * total u l
        = (l.map fun i => (u i - w i) * (v i - mean w v l)).sum := by
      rw [← moment_sub_sub, mean_mul_total htw.ne', sub_self, sub_zero, sub_mul,
        mean_mul_total htu.ne']
    have hup : (l.map fun i => (u i - w i) * (v i - mean w v l)).sum
        ≤ rise w u l * (1 - mean w v l) + rise u w l * mean w v l :=
      sum_le_rise fun i hi => ⟨by linarith [(hv i hi).2], by linarith [(hv i hi).1]⟩
    have hdown : (l.map fun i => (w i - u i) * (v i - mean w v l)).sum
        ≤ rise u w l * (1 - mean w v l) + rise w u l * mean w v l :=
      sum_le_rise fun i hi => ⟨by linarith [(hv i hi).2], by linarith [(hv i hi).1]⟩
    have hneg : (l.map fun i => (w i - u i) * (v i - mean w v l)).sum
        = -(l.map fun i => (u i - w i) * (v i - mean w v l)).sum := by
      rw [← moment_sub_sub, ← moment_sub_sub]
      ring
    have habs : |mean u v l - mean w v l| * total u l
        = |(mean u v l - mean w v l) * total u l| := by
      rw [abs_mul, abs_of_pos htu]
    rw [habs, hshift, abs_le]
    constructor
    · have h := convex_le_max (a := rise u w l) (b := rise w u l) hr.1 hr.2
      rw [max_comm] at h
      linarith
    · exact hup.trans (convex_le_max hr.1 hr.2)

/-- **A change of the weights.** The means of values in the unit interval under two weightings,
compared at the larger of the two total weights, differ by at most the weight added or the
weight taken away, whichever is more. -/
theorem abs_mean_sub_mul_le (hw : ∀ i ∈ l, 0 ≤ w i) (hu : ∀ i ∈ l, 0 ≤ u i)
    (hv : ∀ i ∈ l, 0 ≤ v i ∧ v i ≤ 1) :
    |mean u v l - mean w v l| * max (total w l) (total u l)
      ≤ max (rise w u l) (rise u w l) := by
  rcases le_total (total w l) (total u l) with h | h
  · rw [max_eq_right h]
    exact abs_mean_sub_mul_total_le hw hu hv
  · rw [max_eq_left h, abs_sub_comm, max_comm]
    exact abs_mean_sub_mul_total_le hu hw hv

end Rabotka.Lib.WeightedMean
