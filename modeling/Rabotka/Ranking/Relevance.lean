import Mathlib
import Rabotka.Ranking.Quality

/-!
# The relevance of a candidate

`computeRelevance` is the weighted mean of the terms that are present, each clamped to the unit
interval; `interpolateWeights` blends three weight profiles by the number of positive signals a
user has given.

The relevance is a mean of the present terms in every sense (`computeRelevance_eq`): it lies
between them, follows each of them, and knows the weights by their ratios only. The weights are a
partition of one and continuous in the history. One more signal moves the relevance through the
weights alone. Since the mean is taken over the present terms, the change is measured against
their total weight (`relevance_calibrated`), and several weights may move the mean the same way at
once, so it is not bounded by the largest change of a single weight (`one_signal_moves_more`).
-/

namespace Rabotka.Ranking

open Lib.WeightedMean List

/-! ### The code -/

/-- The keys of `ScoreTerms` and `ScoreWeights`. -/
inductive TermKey where
  | sim
  | catAff
  | partyAff
  | cf
  | prox
  | urgency
  | fresh
  | quality
  | payFit
  deriving DecidableEq

/-- `ScoreTerms`: no value where there is no evidence. -/
abbrev ScoreTerms := TermKey → Option ℚ

/-- A weights record, by its own entries in their order. -/
abbrev ScoreWeights := List (TermKey × ℚ)

/-- The keys of the weight profiles, in their order. -/
def weightKeys : List TermKey :=
  [.sim, .catAff, .partyAff, .cf, .prox, .urgency, .fresh, .quality, .payFit]

/-- `COLD_WEIGHTS`. -/
def coldWeights : TermKey → ℚ
  | .sim => 25 / 100
  | .catAff => 1125 / 10000
  | .partyAff => 0
  | .cf => 0
  | .prox => 2625 / 10000
  | .urgency => 105 / 1000
  | .fresh => 975 / 10000
  | .quality => 135 / 1000
  | .payFit => 375 / 10000

/-- `WARM_WEIGHTS`. -/
def warmWeights : TermKey → ℚ
  | .sim => 30 / 100
  | .catAff => 15 / 100
  | .partyAff => 6 / 100
  | .cf => 5 / 100
  | .prox => 16 / 100
  | .urgency => 6 / 100
  | .fresh => 5 / 100
  | .quality => 12 / 100
  | .payFit => 5 / 100

/-- `HOT_WEIGHTS`. -/
def hotWeights : TermKey → ℚ
  | .sim => 36 / 100
  | .catAff => 15 / 100
  | .partyAff => 10 / 100
  | .cf => 8 / 100
  | .prox => 9 / 100
  | .urgency => 5 / 100
  | .fresh => 3 / 100
  | .quality => 10 / 100
  | .payFit => 4 / 100

def warmAt : ℚ := 10
def hotAt : ℚ := 40

def lerp (a b t : ℚ) : ℚ :=
  a + (b - a) * t

/-- The weight that `interpolateWeights` gives a key. -/
def interpolatedWeight (positiveCount : ℚ) (k : TermKey) : ℚ :=
  let n := max 0 positiveCount
  if n ≤ warmAt then lerp (coldWeights k) (warmWeights k) (n / warmAt)
  else lerp (warmWeights k) (hotWeights k) (min 1 ((n - warmAt) / (hotAt - warmAt)))

/-- `interpolateWeights`. -/
def interpolateWeights (positiveCount : ℚ) : ScoreWeights :=
  weightKeys.map fun k => (k, interpolatedWeight positiveCount k)

/-- One turn of the loop of `computeRelevance`, on the total weight and the sum. -/
def addTerm (terms : ScoreTerms) (acc : ℚ × ℚ) (entry : TermKey × ℚ) : ℚ × ℚ :=
  match terms entry.1 with
  | none => acc
  | some value =>
    if entry.2 ≤ 0 then acc
    else (acc.1 + entry.2, acc.2 + clamp01 value * entry.2)

/-- `computeRelevance`. -/
def computeRelevance (terms : ScoreTerms) (weights : ScoreWeights) : ℚ :=
  let acc := weights.foldl (addTerm terms) (0, 0)
  if acc.1 ≤ 0 then 0 else clamp01 (acc.2 / acc.1)

/-! ### The relevance as a mean -/

/-- The clamped value of the term behind an entry. -/
def clampedTerm (terms : ScoreTerms) (entry : TermKey × ℚ) : ℚ :=
  clamp01 ((terms entry.1).getD 0)

/-- The entries that count: a term is present and the weight is positive. -/
def counting (terms : ScoreTerms) (weights : ScoreWeights) : ScoreWeights :=
  weights.filter fun entry => (terms entry.1).isSome && decide (0 < entry.2)

variable {weights : ScoreWeights} {terms : ScoreTerms}

theorem mem_counting {entry : TermKey × ℚ} : entry ∈ counting terms weights
      ↔ entry ∈ weights ∧ (terms entry.1).isSome = true ∧ 0 < entry.2 := by
  simp [counting]

/-- The loop adds up the weights and the weighted values of the entries that count. -/
theorem foldl_addTerm (terms : ScoreTerms) (weights : ScoreWeights) (acc : ℚ × ℚ) :
    weights.foldl (addTerm terms) acc = (acc.1 + total Prod.snd (counting terms weights),
          acc.2 + moment Prod.snd (clampedTerm terms) (counting terms weights)) := by
  induction weights generalizing acc with
  | nil => simp [counting]
  | cons entry rest ih =>
    rw [foldl_cons, ih]
    cases hterm : terms entry.1 with
    | none => simp [addTerm, counting, hterm]
    | some value =>
      by_cases hpos : 0 < entry.2
      · simp [addTerm, counting, hterm, hpos, hpos.not_ge, clampedTerm, add_assoc]
      · simp [addTerm, counting, hterm, hpos, not_lt.mp hpos]

/-- The entries that count have weight, if there are any. -/
theorem total_counting_nonneg (terms : ScoreTerms) (weights : ScoreWeights) :
    0 ≤ total Prod.snd (counting terms weights) :=
  total_nonneg fun _ h => (mem_counting.mp h).2.2.le

/-- **The relevance is a mean** of the clamped terms over the entries that count. -/
theorem computeRelevance_eq (terms : ScoreTerms) (weights : ScoreWeights) :
    computeRelevance terms weights
      = mean Prod.snd (clampedTerm terms) (counting terms weights) := by
  have hunit : 0 ≤ mean Prod.snd (clampedTerm terms) (counting terms weights)
      ∧ mean Prod.snd (clampedTerm terms) (counting terms weights) ≤ 1 :=
    mean_mem_unit (fun _ h => (mem_counting.mp h).2.2.le) fun _ _ => clamp01_mem _
  rw [computeRelevance, foldl_addTerm]
  simp only [zero_add]
  split_ifs with h
  · have hzero : total Prod.snd (counting terms weights) = 0 :=
      h.antisymm (total_counting_nonneg terms weights)
    rw [mean, hzero, div_zero]
  · exact clamp01_eq hunit.1 hunit.2

/-- Without an entry that counts the relevance is zero. -/
theorem computeRelevance_of_counting_nil
    (h : counting terms weights = []) : computeRelevance terms weights = 0 := by
  rw [computeRelevance_eq, h, mean, moment_nil, zero_div]

/-- Otherwise it lies between two of the clamped terms that count. -/
theorem computeRelevance_between (h : counting terms weights ≠ []) :
    (∃ low ∈ counting terms weights, clampedTerm terms low ≤ computeRelevance terms weights)
      ∧ ∃ high ∈ counting terms weights,
        computeRelevance terms weights ≤ clampedTerm terms high := by
  have hweight : ∀ e ∈ counting terms weights, 0 ≤ e.2 := fun _ he => (mem_counting.mp he).2.2.le
  have hpos : 0 < total Prod.snd (counting terms weights) :=
    total_pos (fun _ he => (mem_counting.mp he).2.2) h
  rw [computeRelevance_eq]
  constructor
  · obtain ⟨low, hlow, hmin⟩ :=
      (counting terms weights).toFinset.exists_min_image (clampedTerm terms)
        (by simpa [toFinset_nonempty_iff] using h)
    exact ⟨low, mem_toFinset.mp hlow, le_mean hweight hpos fun e he => hmin e (mem_toFinset.mpr he)⟩
  · obtain ⟨high, hhigh, hmax⟩ :=
      (counting terms weights).toFinset.exists_max_image (clampedTerm terms)
        (by simpa [toFinset_nonempty_iff] using h)
    exact ⟨high, mem_toFinset.mp hhigh,
      mean_le hweight hpos fun e he => hmax e (mem_toFinset.mpr he)⟩

/-- Terms that are nowhere lower, with the same terms present. -/
def ScoreTerms.Le (terms better : ScoreTerms) : Prop :=
  ∀ k, Option.Rel (· ≤ ·) (terms k) (better k)

theorem isSome_of_rel {a b : Option ℚ} (h : Option.Rel (· ≤ ·) a b) : a.isSome = b.isSome := by
  cases h <;> rfl

theorem getD_of_rel {a b : Option ℚ} (h : Option.Rel (· ≤ ·) a b) : a.getD 0 ≤ b.getD 0 := by
  cases h with
  | some hle => exact hle
  | none => exact le_rfl

/-- The relevance follows every term. -/
theorem computeRelevance_mono {terms better : ScoreTerms} (h : terms.Le better)
    (weights : ScoreWeights) :
    computeRelevance terms weights ≤ computeRelevance better weights := by
  have hcounting : counting better weights = counting terms weights :=
    filter_congr fun e _ => by rw [isSome_of_rel (h e.1)]
  rw [computeRelevance_eq, computeRelevance_eq, hcounting]
  exact mean_mono (fun _ he => (mem_counting.mp he).2.2.le)
    fun e _ => clamp01_mono (getD_of_rel (h e.1))

/-- Only the ratios of the weights count. -/
theorem computeRelevance_scale (terms : ScoreTerms) (weights : ScoreWeights) {c : ℚ} (hc : 0 < c) :
    computeRelevance terms (weights.map fun e => (e.1, c * e.2))
      = computeRelevance terms weights := by
  have hcounting : counting terms (weights.map fun e => (e.1, c * e.2))
      = (counting terms weights).map fun e => (e.1, c * e.2) := by
    rw [counting, filter_map, counting]
    congr 1
    refine filter_congr fun e _ => ?_
    simp [mul_pos_iff_of_pos_left hc]
  rw [computeRelevance_eq, computeRelevance_eq, hcounting, mean, moment, total, map_map, map_map]
  exact mean_scale hc.ne'

/-- Entries without a term do not count. -/
theorem computeRelevance_drop (terms : ScoreTerms) (weights : ScoreWeights) :
    computeRelevance terms (weights.filter fun e => (terms e.1).isSome)
      = computeRelevance terms weights := by
  have hcounting : counting terms (weights.filter fun e => (terms e.1).isSome)
      = counting terms weights := by
    rw [counting, counting, filter_filter]
    refine filter_congr fun e _ => ?_
    cases (terms e.1).isSome <;> simp
  rw [computeRelevance_eq, computeRelevance_eq, hcounting]

/-! ### The weights along the history -/

/-- A number cut off below `a` and above `b`. -/
def clip (a b n : ℚ) : ℚ :=
  min b (max a n)

/-- The weight of a key in closed form: the cold weight, plus the two slopes over the parts of
the history on which they act. -/
theorem interpolatedWeight_eq (n : ℚ) (k : TermKey) : interpolatedWeight n k = coldWeights k
      + (warmWeights k - coldWeights k) / 10 * clip 0 10 n
      + (hotWeights k - warmWeights k) / 30 * (clip 10 40 n - 10) := by
  unfold interpolatedWeight
  dsimp only
  split_ifs with h
  · simp only [warmAt, lerp, clip] at h ⊢
    have hn : n ≤ 10 := (le_max_right 0 n).trans h
    rw [min_eq_right h, max_eq_left hn, min_eq_right (by norm_num : (10 : ℚ) ≤ 40)]
    ring
  · simp only [warmAt, hotAt, lerp, clip] at h ⊢
    have hmax : max 0 n = n := max_eq_right (by
      by_contra hneg
      exact h (by rw [max_eq_left (not_le.mp hneg).le]; norm_num))
    rw [hmax] at h ⊢
    have hn : 10 ≤ n := (not_le.mp h).le
    rw [min_eq_left hn, max_eq_right hn]
    rcases le_total n 40 with hhot | hhot
    · rw [min_eq_right hhot, min_eq_right (by linarith : (n - 10) / (40 - 10) ≤ 1)]
      ring
    · rw [min_eq_left hhot, min_eq_left (by linarith : 1 ≤ (n - 10) / (40 - 10))]
      ring

/-- The weights are not negative. -/
theorem interpolatedWeight_nonneg (n : ℚ) (k : TermKey) : 0 ≤ interpolatedWeight n k := by
  have hlerp : ∀ {a b t : ℚ}, 0 ≤ a → 0 ≤ b → 0 ≤ t → t ≤ 1 → 0 ≤ lerp a b t := by
    intro a b t ha hb h₀ h₁
    have hconvex : lerp a b t = a * (1 - t) + b * t := by rw [lerp]; ring
    rw [hconvex]
    exact add_nonneg (mul_nonneg ha (by linarith)) (mul_nonneg hb h₀)
  have hcold : 0 ≤ coldWeights k := by cases k <;> norm_num [coldWeights]
  have hwarm : 0 ≤ warmWeights k := by cases k <;> norm_num [warmWeights]
  have hhot : 0 ≤ hotWeights k := by cases k <;> norm_num [hotWeights]
  have hwarmAt : (0 : ℚ) < warmAt := by norm_num [warmAt]
  have hhotAt : (0 : ℚ) ≤ hotAt - warmAt := by norm_num [warmAt, hotAt]
  unfold interpolatedWeight
  dsimp only
  split_ifs with h
  · exact hlerp hcold hwarm (div_nonneg (le_max_left 0 n) hwarmAt.le) ((div_le_one hwarmAt).mpr h)
  · have hpos : 0 ≤ (max 0 n - warmAt) / (hotAt - warmAt) :=
      div_nonneg (sub_nonneg.mpr (not_le.mp h).le) hhotAt
    exact hlerp hwarm hhot (le_min zero_le_one hpos) (min_le_left 1 _)

/-- The weights sum up to one. -/
theorem sum_interpolateWeights (n : ℚ) : ((interpolateWeights n).map Prod.snd).sum = 1 := by
  simp only [interpolateWeights, weightKeys, map_cons, map_nil, sum_cons,
    sum_nil, interpolatedWeight_eq, coldWeights, warmWeights, hotWeights]
  ring

/-- The weights are continuous in the history. -/
theorem continuous_interpolatedWeight (k : TermKey) :
    Continuous fun n => interpolatedWeight n k := by
  have hclip : ∀ a b : ℚ, Continuous (clip a b) := fun a b =>
    continuous_const.min (continuous_const.max continuous_id)
  simp only [interpolatedWeight_eq]
  exact (continuous_const.add (continuous_const.mul (hclip 0 10))).add
    (continuous_const.mul ((hclip 10 40).sub continuous_const))

/-- A function is piecewise linear: between its breaks it is a line. -/
def PiecewiseLinear (f : ℚ → ℚ) : Prop :=
  ∃ breaks : List ℚ, ∀ low high, (∀ c ∈ breaks, c ≤ low ∨ high ≤ c) →
    ∃ slope offset, ∀ n, low ≤ n → n ≤ high → f n = slope * n + offset

/-- Where it is not cut, a clip is a constant or the identity. -/
theorem clip_linear {a b low high : ℚ} (hab : a ≤ b) (ha : a ≤ low ∨ high ≤ a)
    (hb : b ≤ low ∨ high ≤ b) :
    ∃ slope offset, ∀ n, low ≤ n → n ≤ high → clip a b n = slope * n + offset := by
  rcases ha with ha | ha
  · rcases hb with hb | hb
    · refine ⟨0, b, fun n hlow _ => ?_⟩
      rw [clip, min_eq_left (le_max_of_le_right (hb.trans hlow)), zero_mul, zero_add]
    · refine ⟨1, 0, fun n hlow hhigh => ?_⟩
      rw [clip, max_eq_right (ha.trans hlow), min_eq_right (hhigh.trans hb), one_mul, add_zero]
  · refine ⟨0, a, fun n _ hhigh => ?_⟩
    rw [clip, max_eq_left (hhigh.trans ha), min_eq_right hab, zero_mul, zero_add]

/-- The weights are piecewise linear in the history. -/
theorem piecewiseLinear_interpolatedWeight (k : TermKey) :
    PiecewiseLinear fun n => interpolatedWeight n k := by
  refine ⟨[0, 10, 40], fun low high hbreaks => ?_⟩
  have hzero := hbreaks 0 (by simp)
  have hten := hbreaks 10 (by simp)
  have hforty := hbreaks 40 (by simp)
  obtain ⟨s, a, hs⟩ := clip_linear (by norm_num) hzero hten
  obtain ⟨t, b, ht⟩ := clip_linear (by norm_num) hten hforty
  refine ⟨(warmWeights k - coldWeights k) / 10 * s + (hotWeights k - warmWeights k) / 30 * t,
    coldWeights k + (warmWeights k - coldWeights k) / 10 * a
      + (hotWeights k - warmWeights k) / 30 * (b - 10), fun n hlow hhigh => ?_⟩
  dsimp only
  rw [interpolatedWeight_eq, hs n hlow hhigh, ht n hlow hhigh]
  ring

/-! ### One more signal -/

/-- The keys whose term is present. -/
def presentKeys (terms : ScoreTerms) : List TermKey :=
  weightKeys.filter fun k => (terms k).isSome

/-- The clamped term of a key. -/
def clampedAt (terms : ScoreTerms) (k : TermKey) : ℚ :=
  clamp01 ((terms k).getD 0)

/-- The relevance at a history, as a mean over the terms that are present. -/
theorem relevance_at (terms : ScoreTerms) (n : ℚ) : computeRelevance terms (interpolateWeights n)
      = mean (interpolatedWeight n) (clampedAt terms) (presentKeys terms) := by
  have hcounting : counting terms (interpolateWeights n)
      = ((presentKeys terms).filter fun k => decide (0 < interpolatedWeight n k)).map
          fun k => (k, interpolatedWeight n k) := by
    rw [counting, interpolateWeights, filter_map, presentKeys, filter_filter]
    congr 1
    refine filter_congr fun k _ => ?_
    simp [Bool.and_comm]
  rw [computeRelevance_eq, hcounting, ← mean_filter_pos fun k _ => interpolatedWeight_nonneg n k,
    mean, moment, total, map_map, map_map]
  rfl

/-- **One more signal** moves the relevance, against the larger of the two weights of the present
terms, by at most the weight that they gain or the weight that they lose. -/
theorem relevance_step (terms : ScoreTerms) (n : ℚ) :
    |computeRelevance terms (interpolateWeights (n + 1))
        - computeRelevance terms (interpolateWeights n)|
      * max (total (interpolatedWeight n) (presentKeys terms))
          (total (interpolatedWeight (n + 1)) (presentKeys terms))
      ≤ max (rise (interpolatedWeight n) (interpolatedWeight (n + 1)) (presentKeys terms))
          (rise (interpolatedWeight (n + 1)) (interpolatedWeight n) (presentKeys terms)) := by
  rw [relevance_at, relevance_at]
  exact abs_mean_sub_mul_le (fun k _ => interpolatedWeight_nonneg n k)
    (fun k _ => interpolatedWeight_nonneg (n + 1) k) fun k _ => clamp01_mem _

/-- **The relevance is a calibrated mean.** It is zero if no entry counts and lies between two
clamped terms otherwise, it follows every term, and neither the scale of the weights nor entries
without a term matter. The weights of every history are a partition of one, continuous and
piecewise linear in the history, and one more signal moves the relevance, against the larger
weight of the present terms, by at most the weight that they gain or lose. -/
theorem relevance_calibrated (terms : ScoreTerms) (weights : ScoreWeights) (n : ℚ) :
    (counting terms weights = [] → computeRelevance terms weights = 0)
      ∧ (counting terms weights ≠ [] →
        (∃ low ∈ counting terms weights, clampedTerm terms low ≤ computeRelevance terms weights)
          ∧ ∃ high ∈ counting terms weights,
            computeRelevance terms weights ≤ clampedTerm terms high)
      ∧ (∀ better : ScoreTerms, terms.Le better →
        computeRelevance terms weights ≤ computeRelevance better weights)
      ∧ (∀ c : ℚ, 0 < c → computeRelevance terms (weights.map fun e => (e.1, c * e.2))
        = computeRelevance terms weights)
      ∧ computeRelevance terms (weights.filter fun e => (terms e.1).isSome)
        = computeRelevance terms weights
      ∧ ((interpolateWeights n).map Prod.snd).sum = 1
      ∧ (∀ k, 0 ≤ interpolatedWeight n k)
      ∧ (∀ k, Continuous (fun m => interpolatedWeight m k)
        ∧ PiecewiseLinear fun m => interpolatedWeight m k)
      ∧ |computeRelevance terms (interpolateWeights (n + 1))
            - computeRelevance terms (interpolateWeights n)|
          * max (total (interpolatedWeight n) (presentKeys terms))
              (total (interpolatedWeight (n + 1)) (presentKeys terms))
        ≤ max (rise (interpolatedWeight n) (interpolatedWeight (n + 1)) (presentKeys terms))
            (rise (interpolatedWeight (n + 1)) (interpolatedWeight n) (presentKeys terms)) :=
  ⟨computeRelevance_of_counting_nil, computeRelevance_between,
    fun _ h => computeRelevance_mono h weights, fun _ hc => computeRelevance_scale terms weights hc,
    computeRelevance_drop terms weights, sum_interpolateWeights n, interpolatedWeight_nonneg n,
    fun k => ⟨continuous_interpolatedWeight k, piecewiseLinear_interpolatedWeight k⟩,
    relevance_step terms n⟩

/-- A candidate whose terms are full where a first signal adds weight, and empty elsewhere. -/
def favoured : ScoreTerms
  | .sim | .catAff | .partyAff | .cf | .payFit => some 1
  | .prox | .urgency | .fresh | .quality => some 0

/-- The first signal moves a candidate with all terms present by more than any weight changes. -/
theorem one_signal_moves_more : ¬ ∃ k, |computeRelevance favoured (interpolateWeights 1)
          - computeRelevance favoured (interpolateWeights 0)|
      ≤ |interpolatedWeight 1 k - interpolatedWeight 0 k| := by
  rintro ⟨k, hk⟩
  revert hk
  cases k <;> decide +kernel

end Rabotka.Ranking
