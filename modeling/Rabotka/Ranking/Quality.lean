import Rabotka.Lib.WeightedMean

/-!
# The quality of a profile

`qualityPrior` is a weighted mean of up to five signals about a profile, over exact rationals:
how reliable it is, how many missions it completed, how it was rated, how decisions about it went
and how much interest it drew. A signal with nothing behind it is left out of the mean, and its
weight goes to the others.

The signals are therefore not a fixed set, and the mean of a set that grows may fall. A change of
the inputs for the better (`Better`) raises every signal that was there; when it makes a signal
appear, the mean falls exactly if the new signal is worth less than the mean before
(`quality_better_iff`). A first page view does that to a seasoned profile.
-/

namespace Rabotka.Ranking

open Lib.WeightedMean List

/-- `clamp01` on finite numbers. -/
def clamp01 (n : ℚ) : ℚ :=
  min 1 (max 0 n)

theorem clamp01_mem (n : ℚ) : 0 ≤ clamp01 n ∧ clamp01 n ≤ 1 :=
  ⟨le_min zero_le_one (le_max_left 0 n), min_le_left 1 _⟩

theorem clamp01_mono {a b : ℚ} (h : a ≤ b) : clamp01 a ≤ clamp01 b :=
  min_le_min_left 1 (max_le_max_left 0 h)

/-- A number of the unit interval is its own clamp. -/
theorem clamp01_eq {n : ℚ} (h₀ : 0 ≤ n) (h₁ : n ≤ 1) : clamp01 n = n := by
  rw [clamp01, max_eq_right h₀, min_eq_right h₁]

/-! ### The code -/

/-- The signals of a profile's quality. -/
inductive Signal where
  | reliability
  | missions
  | rating
  | outcome
  | demand
  deriving DecidableEq

/-- `QUALITY_MIX`. -/
def qualityMix : Signal → ℚ
  | .reliability => 28 / 100
  | .rating => 27 / 100
  | .missions => 15 / 100
  | .outcome => 18 / 100
  | .demand => 12 / 100

def ratingPriorMean : ℚ := 35 / 10
def ratingPriorWeight : ℚ := 3
def missionsHalfSaturation : ℚ := 3
def outcomePriorRate : ℚ := 1 / 2
def outcomePriorWeight : ℚ := 3
def demandHalfSaturation : ℚ := 5
def unlockWeight : ℚ := 5

/-- `QualityInputs`: each number may be missing. -/
structure QualityInputs where
  reliabilityScore : Option ℚ
  ratingAvg : Option ℚ
  ratingCount : Option ℚ
  completedMissions : Option ℚ
  acceptedOutcomes : Option ℚ
  rejectedOutcomes : Option ℚ
  profileViews : Option ℚ
  contactUnlocks : Option ℚ

/-- `Math.max(0, x ?? 0)`. -/
def count (x : Option ℚ) : ℚ :=
  max 0 (x.getD 0)

theorem count_nonneg (x : Option ℚ) : 0 ≤ count x :=
  le_max_left 0 _

theorem count_mono {x y : Option ℚ} (h : x.getD 0 ≤ y.getD 0) : count x ≤ count y :=
  max_le_max_left 0 h

/-- The decisions counted. -/
def QualityInputs.decided (i : QualityInputs) : ℚ :=
  count i.acceptedOutcomes + count i.rejectedOutcomes

/-- The interest counted: views, and unlocks for more. -/
def QualityInputs.interest (i : QualityInputs) : ℚ :=
  count i.profileViews + count i.contactUnlocks * unlockWeight

/-- A rating shrunk towards the prior mean by the number of ratings behind it. -/
def shrunk (ratingAvg ratingCount : ℚ) : ℚ :=
  (ratingAvg * ratingCount + ratingPriorMean * ratingPriorWeight)
    / (ratingCount + ratingPriorWeight)

/-- One entry of the list of terms. -/
structure Term where
  value : ℚ
  weight : ℚ

/-- The list of terms, in the order in which they are pushed. -/
def QualityInputs.terms (i : QualityInputs) : List Term :=
  [⟨clamp01 (i.reliabilityScore.getD 100 / 100), qualityMix .reliability⟩,
    ⟨count i.completedMissions / (count i.completedMissions + missionsHalfSaturation),
      qualityMix .missions⟩]
  ++ (match i.ratingAvg with
      | some ratingAvg =>
        if 0 < count i.ratingCount then
          [⟨clamp01 ((shrunk ratingAvg (count i.ratingCount) - 1) / 4), qualityMix .rating⟩]
        else []
      | none => [])
  ++ (if 0 < i.decided then
        [⟨clamp01 ((count i.acceptedOutcomes + outcomePriorRate * outcomePriorWeight)
          / (i.decided + outcomePriorWeight)), qualityMix .outcome⟩]
      else [])
  ++ (if 0 < i.interest then
        [⟨i.interest / (i.interest + demandHalfSaturation), qualityMix .demand⟩]
      else [])

/-- `qualityPrior`: none for a profile without any history. -/
def qualityPrior (i : QualityInputs) : Option ℚ :=
  if count i.ratingCount = 0 ∧ count i.completedMissions = 0 ∧ i.decided = 0 ∧ i.interest = 0 then
    none
  else
    let totalWeight := (i.terms.map Term.weight).sum
    if totalWeight ≤ 0 then none
    else some (clamp01 ((i.terms.map fun t => t.value * t.weight).sum / totalWeight))

/-! ### The signals of a profile -/

/-- Does a profile show a signal? -/
def Signal.shown (i : QualityInputs) : Signal → Bool
  | .reliability => true
  | .missions => true
  | .rating => i.ratingAvg.isSome && decide (0 < count i.ratingCount)
  | .outcome => decide (0 < i.decided)
  | .demand => decide (0 < i.interest)

/-- The value of a signal. -/
def Signal.value (i : QualityInputs) : Signal → ℚ
  | .reliability => clamp01 (i.reliabilityScore.getD 100 / 100)
  | .missions => count i.completedMissions / (count i.completedMissions + missionsHalfSaturation)
  | .rating => clamp01 ((shrunk (i.ratingAvg.getD 0) (count i.ratingCount) - 1) / 4)
  | .outcome =>
    clamp01 ((count i.acceptedOutcomes + outcomePriorRate * outcomePriorWeight)
      / (i.decided + outcomePriorWeight))
  | .demand => i.interest / (i.interest + demandHalfSaturation)

/-- All signals, in the order of the code. -/
def signals : List Signal :=
  [.reliability, .missions, .rating, .outcome, .demand]

theorem mem_signals (s : Signal) : s ∈ signals := by
  cases s <;> decide

/-- The signals that a profile shows. -/
def QualityInputs.present (i : QualityInputs) : List Signal :=
  signals.filter (Signal.shown i)

@[simp] theorem mem_present {i : QualityInputs} {s : Signal} :
    s ∈ i.present ↔ s.shown i = true := by
  simp [QualityInputs.present, mem_signals]

/-- The terms of the code are the signals shown. -/
theorem terms_eq (i : QualityInputs) :
    i.terms = i.present.map fun s => ⟨s.value i, qualityMix s⟩ := by
  have hrating : (match i.ratingAvg with
      | some ratingAvg =>
        if 0 < count i.ratingCount then
          [(⟨clamp01 ((shrunk ratingAvg (count i.ratingCount) - 1) / 4), qualityMix .rating⟩ :
            Term)]
        else []
      | none => [])
      = (([Signal.rating].filter (Signal.shown i)).map fun s => ⟨s.value i, qualityMix s⟩) := by
    cases h : i.ratingAvg with
    | none => simp [Signal.shown, h]
    | some a => by_cases hc : 0 < count i.ratingCount <;> simp [Signal.shown, Signal.value, h, hc]
  have houtcome : (if 0 < i.decided then
        [(⟨clamp01 ((count i.acceptedOutcomes + outcomePriorRate * outcomePriorWeight)
          / (i.decided + outcomePriorWeight)), qualityMix .outcome⟩ : Term)]
      else [])
      = (([Signal.outcome].filter (Signal.shown i)).map fun s => ⟨s.value i, qualityMix s⟩) := by
    by_cases h : 0 < i.decided <;> simp [Signal.shown, Signal.value, h]
  have hdemand : (if 0 < i.interest then
        [(⟨i.interest / (i.interest + demandHalfSaturation), qualityMix .demand⟩ : Term)]
      else [])
      = (([Signal.demand].filter (Signal.shown i)).map fun s => ⟨s.value i, qualityMix s⟩) := by
    by_cases h : 0 < i.interest <;> simp [Signal.shown, Signal.value, h]
  have hsplit : i.present = [Signal.reliability, .missions]
      ++ [Signal.rating].filter (Signal.shown i) ++ [Signal.outcome].filter (Signal.shown i)
      ++ [Signal.demand].filter (Signal.shown i) := by
    have h : signals = [Signal.reliability, .missions] ++ [.rating] ++ [.outcome] ++ [.demand] :=
      rfl
    rw [QualityInputs.present, h]
    simp only [filter_append]
    rfl
  rw [QualityInputs.terms, hrating, houtcome, hdemand, hsplit]
  simp only [map_append]
  rfl

theorem qualityMix_pos (s : Signal) : 0 < qualityMix s := by
  cases s <;> norm_num [qualityMix]

/-- A profile always shows its reliability and its missions, so the total weight is positive. -/
theorem total_present_pos (i : QualityInputs) : 0 < total qualityMix i.present :=
  total_pos (fun s _ => qualityMix_pos s)
    (ne_nil_of_mem (mem_present.mpr (rfl : Signal.shown i .reliability = true)))

/-- A saturating share of a count lies in the unit interval. -/
theorem saturated_mem {a c : ℚ} (ha : 0 ≤ a) (hc : 0 < c) : 0 ≤ a / (a + c) ∧ a / (a + c) ≤ 1 := by
  have hsum : 0 < a + c := add_pos_of_nonneg_of_pos ha hc
  exact ⟨div_nonneg ha hsum.le, (div_le_one hsum).mpr (by linarith)⟩

theorem interest_nonneg (i : QualityInputs) : 0 ≤ i.interest :=
  add_nonneg (count_nonneg _) (mul_nonneg (count_nonneg _) (by norm_num [unlockWeight]))

theorem decided_nonneg (i : QualityInputs) : 0 ≤ i.decided :=
  add_nonneg (count_nonneg _) (count_nonneg _)

/-- Every signal is a number of the unit interval. -/
theorem value_mem (i : QualityInputs) (s : Signal) : 0 ≤ s.value i ∧ s.value i ≤ 1 := by
  cases s with
  | reliability | rating | outcome => exact clamp01_mem _
  | missions => exact saturated_mem (count_nonneg _) (by norm_num [missionsHalfSaturation])
  | demand => exact saturated_mem (interest_nonneg i) (by norm_num [demandHalfSaturation])

/-- A profile has a history. -/
def QualityInputs.Known (i : QualityInputs) : Prop :=
  ¬(count i.ratingCount = 0 ∧ count i.completedMissions = 0 ∧ i.decided = 0 ∧ i.interest = 0)

/-- The quality is the mean of the signals shown. -/
theorem qualityPrior_eq_some_iff {i : QualityInputs} {q : ℚ} :
    qualityPrior i = some q ↔ i.Known ∧ q = mean qualityMix (Signal.value i) i.present := by
  have htotal : (i.terms.map Term.weight).sum = total qualityMix i.present := by
    rw [terms_eq, map_map]
    rfl
  have hmoment : (i.terms.map fun t => t.value * t.weight).sum
      = moment qualityMix (Signal.value i) i.present := by
    rw [terms_eq, map_map]
    rfl
  have hunit : 0 ≤ mean qualityMix (Signal.value i) i.present
      ∧ mean qualityMix (Signal.value i) i.present ≤ 1 :=
    mean_mem_unit (fun s _ => (qualityMix_pos s).le) fun s _ => value_mem i s
  have hclamp : clamp01 (moment qualityMix (Signal.value i) i.present / total qualityMix i.present)
      = mean qualityMix (Signal.value i) i.present := clamp01_eq hunit.1 hunit.2
  rw [qualityPrior]
  simp only [htotal, hmoment, hclamp, if_neg (total_present_pos i).not_ge]
  split_ifs with h
  · exact iff_of_false (fun hnone => nomatch hnone) fun hknown => hknown.1 h
  · rw [Option.some_inj, eq_comm]
    exact (and_iff_right h).symm

/-! ### Better evidence -/

/-- One input changes for the better. -/
inductive Better : QualityInputs → QualityInputs → Prop
  | completedMissions (i : QualityInputs) (n : Option ℚ)
      (h : i.completedMissions.getD 0 ≤ n.getD 0) : Better i { i with completedMissions := n }
  | acceptedOutcomes (i : QualityInputs) (n : Option ℚ)
      (h : i.acceptedOutcomes.getD 0 ≤ n.getD 0) : Better i { i with acceptedOutcomes := n }
  | profileViews (i : QualityInputs) (n : Option ℚ)
      (h : i.profileViews.getD 0 ≤ n.getD 0) : Better i { i with profileViews := n }
  | contactUnlocks (i : QualityInputs) (n : Option ℚ)
      (h : i.contactUnlocks.getD 0 ≤ n.getD 0) : Better i { i with contactUnlocks := n }
  | reliabilityScore (i : QualityInputs) (n : Option ℚ)
      (h : i.reliabilityScore.getD 100 ≤ n.getD 100) : Better i { i with reliabilityScore := n }
  | ratingAvg (i : QualityInputs) (avg : ℚ)
      (h : ∀ a ∈ i.ratingAvg, a ≤ avg) : Better i { i with ratingAvg := some avg }
  | rejectedOutcomes (i : QualityInputs) (n : Option ℚ)
      (h : n.getD 0 ≤ i.rejectedOutcomes.getD 0)
      (hdecided : 0 < QualityInputs.decided { i with rejectedOutcomes := n }) :
      Better i { i with rejectedOutcomes := n }

/-- What a change for the better does to the signals: those that were shown do not fall, and if a
new one appears, the others stay as they were. -/
inductive Follows (i j : QualityInputs) : Prop
  | raised (hshown : ∀ r, Signal.shown j r = Signal.shown i r)
      (hvalue : ∀ r, Signal.shown i r = true → Signal.value i r ≤ Signal.value j r)
  | entered (s : Signal) (hs : s.shown i = false)
      (hshown : ∀ r, Signal.shown j r = (decide (r = s) || Signal.shown i r))
      (hvalue : ∀ r ≠ s, Signal.value i r = Signal.value j r)

/-- A saturating share follows its count. -/
theorem saturated_mono {a b c : ℚ} (ha : 0 ≤ a) (hc : 0 < c) (h : a ≤ b) :
    a / (a + c) ≤ b / (b + c) := by
  rw [div_le_div_iff₀ (add_pos_of_nonneg_of_pos ha hc) (add_pos_of_nonneg_of_pos (ha.trans h) hc)]
  have hcross : a * c ≤ b * c := mul_le_mul_of_nonneg_right h hc.le
  linarith [mul_comm a b]

/-- The shrunk rate of `a` decisions out of `a + r` follows `a`. -/
theorem rate_mono {a b r p c : ℚ} (ha : 0 ≤ a) (hr : 0 ≤ r) (hc : 0 < c) (hp : p ≤ c)
    (h : a ≤ b) : (a + p) / (a + r + c) ≤ (b + p) / (b + r + c) := by
  rw [div_le_div_iff₀ (by linarith) (by linarith)]
  have hcross : a * (r + c - p) ≤ b * (r + c - p) :=
    mul_le_mul_of_nonneg_right h (by linarith)
  linarith [mul_comm a b, mul_comm p a, mul_comm p b]

theorem shrunk_mono {a b n : ℚ} (hn : 0 ≤ n) (h : a ≤ b) : shrunk a n ≤ shrunk b n := by
  have hden : 0 ≤ n + ratingPriorWeight := add_nonneg hn (by norm_num [ratingPriorWeight])
  refine div_le_div_of_nonneg_right ?_ hden
  linarith [mul_le_mul_of_nonneg_right h hn]

variable {i j : QualityInputs}

/-- A change that touches one signal only, and keeps and raises it where it was shown. -/
theorem Follows.of_signal (s : Signal)
    (hother : ∀ r ≠ s, Signal.shown j r = Signal.shown i r ∧ Signal.value i r = Signal.value j r)
    (hkeep : s.shown i = true → s.shown j = true ∧ s.value i ≤ s.value j) : Follows i j := by
  have hvalue : ∀ r ≠ s, Signal.value i r = Signal.value j r := fun r hr => (hother r hr).2
  cases hi : s.shown i with
  | true =>
    refine Follows.raised (fun r => ?_) fun r hr => ?_
    · by_cases hrs : r = s
      · rw [hrs, hi, (hkeep hi).1]
      · exact (hother r hrs).1
    · by_cases hrs : r = s
      · rw [hrs]
        exact (hkeep hi).2
      · exact (hvalue r hrs).le
  | false =>
    cases hj : s.shown j with
    | true =>
      refine Follows.entered s hi (fun r => ?_) hvalue
      by_cases hrs : r = s
      · simp [hrs, hj]
      · simp [hrs, (hother r hrs).1]
    | false =>
      refine Follows.raised (fun r => ?_) fun r hr => ?_
      · by_cases hrs : r = s
        · rw [hrs, hi, hj]
        · exact (hother r hrs).1
      · have hrs : r ≠ s := by
          rintro rfl
          rw [hi] at hr
          exact nomatch hr
        exact (hvalue r hrs).le

/-- More interest touches the demand only. -/
theorem Follows.of_interest (hother : ∀ r ≠ Signal.demand,
      Signal.shown j r = Signal.shown i r ∧ Signal.value i r = Signal.value j r)
    (h : i.interest ≤ j.interest) : Follows i j := by
  refine Follows.of_signal .demand hother fun hi => ?_
  have hpos : 0 < i.interest := of_decide_eq_true hi
  exact ⟨decide_eq_true (hpos.trans_le h),
    saturated_mono hpos.le (by norm_num [demandHalfSaturation]) h⟩

/-- **Step lemma.** A change for the better raises every signal that was shown, and makes at most
one appear. -/
theorem Better.follows (h : Better i j) : Follows i j := by
  cases h with
  | completedMissions n h =>
    refine Follows.of_signal .missions (fun r hr => ?_) fun _ => ⟨rfl, ?_⟩
    · cases r <;> first | exact absurd rfl hr | exact ⟨rfl, rfl⟩
    · exact saturated_mono (count_nonneg _) (by norm_num [missionsHalfSaturation]) (count_mono h)
  | acceptedOutcomes n h =>
    refine Follows.of_signal .outcome (fun r hr => ?_) fun hi => ⟨?_, ?_⟩
    · cases r <;> first | exact absurd rfl hr | exact ⟨rfl, rfl⟩
    · have hpos : 0 < i.decided := of_decide_eq_true hi
      exact decide_eq_true (hpos.trans_le (add_le_add_left (count_mono h) _))
    · exact clamp01_mono (rate_mono (count_nonneg _) (count_nonneg _)
        (by norm_num [outcomePriorWeight])
        (by norm_num [outcomePriorRate, outcomePriorWeight]) (count_mono h))
  | profileViews n h =>
    refine Follows.of_interest (fun r hr => ?_) (add_le_add_left (count_mono h) _)
    cases r <;> first | exact absurd rfl hr | exact ⟨rfl, rfl⟩
  | contactUnlocks n h =>
    refine Follows.of_interest (fun r hr => ?_) (add_le_add_right
      (mul_le_mul_of_nonneg_right (count_mono h) (by norm_num [unlockWeight])) _)
    cases r <;> first | exact absurd rfl hr | exact ⟨rfl, rfl⟩
  | reliabilityScore n h =>
    refine Follows.of_signal .reliability (fun r hr => ?_) fun _ => ⟨rfl, ?_⟩
    · cases r <;> first | exact absurd rfl hr | exact ⟨rfl, rfl⟩
    · exact clamp01_mono (div_le_div_of_nonneg_right h (by norm_num))
  | ratingAvg avg h =>
    refine Follows.of_signal .rating (fun r hr => ?_) fun hi => ⟨?_, ?_⟩
    · cases r <;> first | exact absurd rfl hr | exact ⟨rfl, rfl⟩
    · exact (Bool.and_eq_true _ _).mpr ⟨rfl, ((Bool.and_eq_true _ _).mp hi).2⟩
    · obtain ⟨a, ha⟩ := Option.isSome_iff_exists.mp ((Bool.and_eq_true _ _).mp hi).1
      have hle : shrunk a (count i.ratingCount) ≤ shrunk avg (count i.ratingCount) :=
        shrunk_mono (count_nonneg _) (h a ha)
      simp only [Signal.value, ha, Option.getD_some]
      exact clamp01_mono (div_le_div_of_nonneg_right (sub_le_sub_right hle 1) (by norm_num))
  | rejectedOutcomes n h hdecided =>
    refine Follows.of_signal .outcome (fun r hr => ?_) fun _ => ⟨decide_eq_true hdecided, ?_⟩
    · cases r <;> first | exact absurd rfl hr | exact ⟨rfl, rfl⟩
    · have hprior : (0 : ℚ) < outcomePriorWeight := by norm_num [outcomePriorWeight]
      refine clamp01_mono (div_le_div_of_nonneg_left ?_ ?_ ?_)
      · exact add_nonneg (count_nonneg _) (by norm_num [outcomePriorRate, outcomePriorWeight])
      · exact add_pos hdecided hprior
      · exact add_le_add_left (add_le_add_right (count_mono h) _) _

/-- A change for the better leaves a known profile known. -/
theorem Better.known (h : Better i j) (hi : i.Known) : j.Known := by
  intro hj
  refine hi ?_
  obtain ⟨hrating, hmissions, hdecided, hinterest⟩ := hj
  cases h with
  | completedMissions n h =>
    exact ⟨hrating, ((count_mono h).trans hmissions.le).antisymm (count_nonneg _), hdecided,
      hinterest⟩
  | acceptedOutcomes n h =>
    exact ⟨hrating, hmissions, ((add_le_add_left (count_mono h) _).trans hdecided.le).antisymm
      (decided_nonneg i), hinterest⟩
  | profileViews n h =>
    exact ⟨hrating, hmissions, hdecided, ((add_le_add_left (count_mono h) _).trans
      hinterest.le).antisymm (interest_nonneg i)⟩
  | contactUnlocks n h =>
    have hle : i.interest ≤ QualityInputs.interest { i with contactUnlocks := n } :=
      add_le_add_right (mul_le_mul_of_nonneg_right (count_mono h) (by norm_num [unlockWeight])) _
    exact ⟨hrating, hmissions, hdecided, (hle.trans hinterest.le).antisymm (interest_nonneg i)⟩
  | reliabilityScore | ratingAvg => exact ⟨hrating, hmissions, hdecided, hinterest⟩
  | rejectedOutcomes n h hpos => exact absurd hdecided hpos.ne'

/-! ### What better evidence does to the mean -/

/-- Means before and after: the later one is not below the earlier exactly if no signal that
appears is worth less than the earlier mean. -/
theorem Follows.mean_le_mean_iff (h : Follows i j) :
    mean qualityMix (Signal.value i) i.present ≤ mean qualityMix (Signal.value j) j.present
      ↔ ∀ s : Signal, s.shown j = true → s.shown i = false →
          mean qualityMix (Signal.value i) i.present ≤ s.value j := by
  have hweight : ∀ s ∈ i.present, 0 ≤ qualityMix s := fun s _ => (qualityMix_pos s).le
  cases h with
  | raised hshown hvalue =>
    have hpresent : j.present = i.present := filter_congr fun s _ => hshown s
    refine iff_of_true ?_ fun s hj hi => ?_
    · rw [hpresent]
      exact mean_mono hweight fun s hs => hvalue s (mem_present.mp hs)
    · rw [hshown s, hi] at hj
      exact nomatch hj
  | entered s hs hshown hvalue =>
    have hperm : j.present.Perm (s :: i.present) := by
      have hnodup : signals.Nodup := by decide
      have hfresh : s ∉ i.present := fun hmem => by
        rw [mem_present, hs] at hmem
        exact nomatch hmem
      refine (perm_ext_iff_of_nodup (hnodup.filter _)
        (nodup_cons.mpr ⟨hfresh, hnodup.filter _⟩)).mpr fun r => ?_
      rw [mem_cons, mem_present]
      refine mem_present.trans ?_
      rw [hshown r, Bool.or_eq_true, decide_eq_true_iff]
    have hsame : mean qualityMix (Signal.value i) i.present
        = mean qualityMix (Signal.value j) i.present :=
      mean_congr (fun _ _ => rfl) fun r hr => hvalue r fun hrs => by
        rw [hrs, mem_present, hs] at hr
        exact nomatch hr
    rw [mean_perm hperm, hsame, mean_le_mean_cons_iff (total_present_pos i) (qualityMix_pos s)]
    constructor
    · intro hle r hj hi
      have hrs : r = s := by simpa [hshown r, hi] using hj
      rw [hrs]
      exact hle
    · intro hall
      exact hall s (by simp [hshown s]) hs

/-- **Better evidence.** After a change for the better a known profile has a quality again. It is
not lower than before exactly if each signal that appears is worth at least the quality before;
when none appears, it is never lower. -/
theorem quality_better_iff {i j : QualityInputs} {q : ℚ} (h : Better i j)
    (hq : qualityPrior i = some q) :
    ∃ r, qualityPrior j = some r
      ∧ (q ≤ r ↔ ∀ s : Signal, s.shown j = true → s.shown i = false → q ≤ s.value j) := by
  obtain ⟨hknown, rfl⟩ := qualityPrior_eq_some_iff.mp hq
  exact ⟨_, qualityPrior_eq_some_iff.mpr ⟨h.known hknown, rfl⟩, h.follows.mean_le_mean_iff⟩

/-- A reliable profile with a thousand missions and nothing else behind it. -/
def seasoned : QualityInputs where
  reliabilityScore := some 100
  ratingAvg := none
  ratingCount := some 0
  completedMissions := some 1000
  acceptedOutcomes := some 0
  rejectedOutcomes := some 0
  profileViews := some 0
  contactUnlocks := some 0

/-- The first page view of a seasoned profile lowers its quality. -/
theorem first_view_lowers : Better seasoned { seasoned with profileViews := some 1 }
      ∧ qualityPrior seasoned = some (43084 / 43129)
      ∧ qualityPrior { seasoned with profileViews := some 1 } = some (9018 / 11033)
      ∧ (9018 / 11033 : ℚ) < 43084 / 43129 := by
  refine ⟨Better.profileViews seasoned (some 1) (by decide), ?_, ?_, by norm_num⟩ <;> decide +kernel

/-- A second page view does not make a signal appear. -/
theorem second_view_keeps : ∃ r, qualityPrior { seasoned with profileViews := some 2 } = some r
      ∧ ((9018 / 11033 : ℚ) ≤ r ↔ ∀ s : Signal,
        s.shown { seasoned with profileViews := some 2 } = true →
        s.shown { seasoned with profileViews := some 1 } = false →
        9018 / 11033 ≤ s.value { seasoned with profileViews := some 2 }) :=
  quality_better_iff
    (Better.profileViews { seasoned with profileViews := some 1 } (some 2) (by decide))
    (by decide +kernel)

end Rabotka.Ranking
