import Rabotka.Lib.Decimal

/-!
# The amounts of a referral settlement

`computeReferralPayout`: how the base of a settlement is divided between the two sides, as fixed
amounts or as percentages, under an optional ceiling. A number that the configuration does not
hold, or that is not finite, is `none`.

What the callers rely on is that a payout without shortfall fits into the base.
-/

namespace Rabotka.Referrals

open Decimal

inductive ReferralCommissionType
  | fixed | percentage
  deriving DecidableEq

/-- What `getReferralCredits` returns. -/
structure ReferralCredits where
  commissionType : ReferralCommissionType
  referrerCreditFcfa : Option ℚ
  refereeCreditFcfa : Option ℚ
  maxRewardedPerReferrer : Option ℕ
  maxPayoutPerReferralFcfa : ℕ
  deriving DecidableEq

structure Shares where
  referrerAmount : ℤ
  refereeAmount : ℤ
  deriving DecidableEq

structure ReferralPayout where
  referrerAmount : ℤ
  refereeAmount : ℤ
  totalPayout : ℤ
  shortfall : Bool
  deriving DecidableEq

/-- `PERCENT_BASE`. -/
def percentBase : ℤ := 100

def sanitizeAmount : Option ℚ → ℤ
  | none => 0
  | some value => if value ≤ 0 then 0 else mathRound value

def sanitizePercent : Option ℚ → ℤ
  | none => 0
  | some value => if value ≤ 0 then 0 else min (mathRound value) percentBase

def fixedShares (referrerFcfa refereeFcfa : Option ℚ) : Shares where
  referrerAmount := sanitizeAmount referrerFcfa
  refereeAmount := sanitizeAmount refereeFcfa

def percentageShares (base : ℤ) (referrerPct refereePct : Option ℚ) : Shares :=
  let referrerAmount := base * sanitizePercent referrerPct / percentBase
  { referrerAmount
    refereeAmount :=
      min (base * sanitizePercent refereePct / percentBase) (base - referrerAmount) }

def applyCap (shares : Shares) (maxPayoutFcfa : ℕ) : Shares :=
  let cap := sanitizeAmount (some maxPayoutFcfa)
  let total := shares.referrerAmount + shares.refereeAmount
  if cap = 0 ∨ total ≤ cap then shares
  else
    let referrerAmount := shares.referrerAmount * cap / total
    { referrerAmount, refereeAmount := min shares.refereeAmount (cap - referrerAmount) }

/-- The shares before the ceiling. -/
def rawShares (base : ℤ) (credits : ReferralCredits) : Shares :=
  match credits.commissionType with
  | .fixed => fixedShares credits.referrerCreditFcfa credits.refereeCreditFcfa
  | .percentage => percentageShares base credits.referrerCreditFcfa credits.refereeCreditFcfa

/-- `computeReferralPayout` on the settings of `referralPayoutSettingsFrom`. -/
def computeReferralPayout (baseFcfa : ℚ) (credits : ReferralCredits) : ReferralPayout :=
  let base := sanitizeAmount (some baseFcfa)
  let shares := applyCap (rawShares base credits) credits.maxPayoutPerReferralFcfa
  let totalPayout := shares.referrerAmount + shares.refereeAmount
  { referrerAmount := shares.referrerAmount
    refereeAmount := shares.refereeAmount
    totalPayout
    shortfall := base < totalPayout }

/-! ### Rounding -/

variable {x : ℚ}

/-- A base rounds to no more than any whole number of francs it fits into. -/
theorem sanitizeAmount_le {n : ℤ} (hx : 0 ≤ x) (h : x ≤ n) : sanitizeAmount (some x) ≤ n := by
  have hn : 0 ≤ n := by exact_mod_cast hx.trans h
  simp only [sanitizeAmount]
  split_ifs with hle
  · exact hn
  · have hlt : mathRound x < n + 1 := by
      refine Int.floor_lt.2 ?_
      push_cast
      linarith
    omega

/-! ### Shares -/

/-- Percentages of a base fit into it. -/
theorem percentageShares_le (base : ℤ) (p q : Option ℚ) :
    (percentageShares base p q).referrerAmount + (percentageShares base p q).refereeAmount ≤
      base := by
  simp only [percentageShares]
  have hmin := min_le_right (base * sanitizePercent q / percentBase)
    (base - base * sanitizePercent p / percentBase)
  omega

/-- A payout without shortfall fits into every whole number of francs that the base fits
into. -/
theorem totalPayout_le {credits : ReferralCredits} {n : ℤ} (hx : 0 ≤ x) (h : x ≤ n)
    (hfits : (computeReferralPayout x credits).shortfall = false) :
    (computeReferralPayout x credits).totalPayout ≤ n := by
  have hle := sanitizeAmount_le hx h
  simp only [computeReferralPayout, decide_eq_false_iff_not, not_lt] at hfits ⊢
  exact hfits.trans hle

end Rabotka.Referrals

/-!
## The split of a referral payout

`computeReferralPayout` on every value that its settings can take: the amounts, the percentages
and the ceiling are numbers, and `none` stands for one that is absent or not finite. The
settlement reads its ceiling from the configuration as a natural number, and is a special case.

The shares are whole and not negative, they stay below the ceiling, and a percentage of the base
never exceeds the base (`payout_split_bounded`). What carries the bounds is that one share is
rounded down and the other takes at most the remainder.
-/

namespace Rabotka.Referrals

open Decimal

/-- `ReferralPayoutSettings`. The two values are francs or percentages according to the type. -/
structure ReferralPayoutSettings where
  type : ReferralCommissionType
  referrer : Option ℚ
  referee : Option ℚ
  maxPayoutFcfa : Option ℚ
  deriving DecidableEq

def referralPayoutSettingsFrom (credits : ReferralCredits) : ReferralPayoutSettings where
  type := credits.commissionType
  referrer := credits.referrerCreditFcfa
  referee := credits.refereeCreditFcfa
  maxPayoutFcfa := some credits.maxPayoutPerReferralFcfa

/-- The sum of both sides. -/
def Shares.total (shares : Shares) : ℤ := shares.referrerAmount + shares.refereeAmount

/-- `applyCap`, under any ceiling. -/
def Shares.applyCap (shares : Shares) (maxPayoutFcfa : Option ℚ) : Shares :=
  let cap := sanitizeAmount maxPayoutFcfa
  if cap = 0 ∨ shares.total ≤ cap then shares
  else
    let referrerAmount := shares.referrerAmount * cap / shares.total
    { referrerAmount, refereeAmount := min shares.refereeAmount (cap - referrerAmount) }

namespace ReferralPayoutSettings

/-- The shares before the ceiling. -/
def shares (settings : ReferralPayoutSettings) (base : ℤ) : Shares :=
  match settings.type with
  | .fixed => fixedShares settings.referrer settings.referee
  | .percentage => percentageShares base settings.referrer settings.referee

/-- `computeReferralPayout` on a base and any settings. -/
def computeReferralPayout (baseFcfa : Option ℚ) (settings : ReferralPayoutSettings) :
    ReferralPayout :=
  let base := sanitizeAmount baseFcfa
  let shares := (settings.shares base).applyCap settings.maxPayoutFcfa
  { referrerAmount := shares.referrerAmount
    refereeAmount := shares.refereeAmount
    totalPayout := shares.total
    shortfall := base < shares.total }

end ReferralPayoutSettings

/-! ### Sanitised values -/

theorem mathRound_nonneg {x : ℚ} (hx : 0 < x) : 0 ≤ mathRound x :=
  Int.floor_nonneg.2 (by linarith)

theorem sanitizeAmount_nonneg (value : Option ℚ) : 0 ≤ sanitizeAmount value := by
  cases value with
  | none => exact le_rfl
  | some value =>
    simp only [sanitizeAmount]
    split_ifs with hle
    · exact le_rfl
    · exact mathRound_nonneg (not_le.1 hle)

theorem sanitizePercent_nonneg (value : Option ℚ) : 0 ≤ sanitizePercent value := by
  cases value with
  | none => exact le_rfl
  | some value =>
    simp only [sanitizePercent]
    split_ifs with hle
    · exact le_rfl
    · exact le_min (mathRound_nonneg (not_le.1 hle)) (by decide)

theorem sanitizePercent_le (value : Option ℚ) : sanitizePercent value ≤ percentBase := by
  cases value with
  | none => decide
  | some value =>
    simp only [sanitizePercent]
    split_ifs
    · decide
    · exact min_le_right _ _

/-- A whole number of francs is kept as it is. -/
theorem sanitizeAmount_natCast (n : ℕ) : sanitizeAmount (some (n : ℚ)) = n := by
  have hhalf : ⌊(1 / 2 : ℚ)⌋ = 0 := by norm_num
  simp only [sanitizeAmount]
  split_ifs with hle
  · have hn : n = 0 := Nat.le_zero.1 (by exact_mod_cast hle)
    rw [hn, Nat.cast_zero]
  · rw [mathRound, Int.floor_natCast_add, hhalf, add_zero]

/-! ### Shares -/

/-- A share of a percentage is not negative and fits into the base. -/
theorem percentage_mem (b : ℕ) (value : Option ℚ) :
    0 ≤ (b : ℤ) * sanitizePercent value / percentBase ∧
      (b : ℤ) * sanitizePercent value / percentBase ≤ b := by
  have hb : (0 : ℤ) ≤ b := Int.natCast_nonneg b
  have hle := mul_le_mul_of_nonneg_left (sanitizePercent_le value) hb
  refine ⟨Int.ediv_nonneg (mul_nonneg hb (sanitizePercent_nonneg value)) (by decide), ?_⟩
  calc (b : ℤ) * sanitizePercent value / percentBase
      ≤ b * percentBase / percentBase := Int.ediv_le_ediv (by decide) hle
    _ = b := Int.mul_ediv_cancel _ (by decide)

/-- Neither side is ever owed. -/
theorem shares_nonneg (settings : ReferralPayoutSettings) (b : ℕ) :
    0 ≤ (settings.shares b).referrerAmount ∧ 0 ≤ (settings.shares b).refereeAmount := by
  unfold ReferralPayoutSettings.shares
  cases settings.type with
  | fixed => exact ⟨sanitizeAmount_nonneg _, sanitizeAmount_nonneg _⟩
  | percentage =>
    obtain ⟨hreferrer, hfits⟩ := percentage_mem b settings.referrer
    have hreferee := (percentage_mem b settings.referee).1
    exact ⟨hreferrer, le_min hreferee (sub_nonneg.2 hfits)⟩

/-! ### The ceiling -/

variable {shares : Shares} {c : Option ℚ}

theorem applyCap_of_le (h : sanitizeAmount c = 0 ∨ shares.total ≤ sanitizeAmount c) :
    shares.applyCap c = shares :=
  if_pos h

/-- The referrer's side of a total above the ceiling is scaled down and rounded down, and the
referee's takes at most the remainder. -/
theorem applyCap_of_lt (hpos : 0 < sanitizeAmount c) (hlt : sanitizeAmount c < shares.total) :
    shares.applyCap c =
      { referrerAmount := shares.referrerAmount * sanitizeAmount c / shares.total
        refereeAmount := min shares.refereeAmount
          (sanitizeAmount c - shares.referrerAmount * sanitizeAmount c / shares.total) } := by
  have hcap : ¬(sanitizeAmount c = 0 ∨ shares.total ≤ sanitizeAmount c) := by omega
  exact if_neg hcap

/-- A side of a total above the ceiling is scaled to something between nothing and the ceiling,
and to no more than it was. -/
theorem scaled_mem {a total cap : ℤ} (ha : 0 ≤ a) (hle : a ≤ total) (hcap : 0 < cap)
    (hlt : cap < total) : 0 ≤ a * cap / total ∧ a * cap / total ≤ cap ∧ a * cap / total ≤ a := by
  have htotal : 0 < total := hcap.trans hlt
  refine ⟨Int.ediv_nonneg (mul_nonneg ha hcap.le) htotal.le, ?_, ?_⟩
  · calc a * cap / total
        ≤ total * cap / total :=
          Int.ediv_le_ediv htotal (mul_le_mul_of_nonneg_right hle hcap.le)
      _ = cap := Int.mul_ediv_cancel_left _ htotal.ne'
  · calc a * cap / total
        ≤ a * total / total := Int.ediv_le_ediv htotal (mul_le_mul_of_nonneg_left hlt.le ha)
      _ = a := Int.mul_ediv_cancel _ htotal.ne'

/-- What the ceiling does to shares that are not negative. -/
theorem applyCap_mem (hreferrer : 0 ≤ shares.referrerAmount) (hreferee : 0 ≤ shares.refereeAmount) :
    (0 ≤ (shares.applyCap c).referrerAmount ∧ 0 ≤ (shares.applyCap c).refereeAmount) ∧
      ((shares.applyCap c).referrerAmount ≤ shares.referrerAmount ∧
        (shares.applyCap c).refereeAmount ≤ shares.refereeAmount) ∧
      (0 < sanitizeAmount c → (shares.applyCap c).total ≤ sanitizeAmount c) := by
  by_cases hcap : sanitizeAmount c = 0 ∨ shares.total ≤ sanitizeAmount c
  · rw [applyCap_of_le hcap]
    exact ⟨⟨hreferrer, hreferee⟩, ⟨le_rfl, le_rfl⟩, fun hpos => hcap.resolve_left hpos.ne'⟩
  · have hnonneg := sanitizeAmount_nonneg c
    obtain ⟨hne, hlt⟩ := not_or.1 hcap
    have hpos : 0 < sanitizeAmount c := lt_of_le_of_ne hnonneg (Ne.symm hne)
    have hle : shares.referrerAmount ≤ shares.total := le_add_of_nonneg_right hreferee
    obtain ⟨hscaled, hbelow, hless⟩ := scaled_mem hreferrer hle hpos (not_le.1 hlt)
    rw [applyCap_of_lt hpos (not_le.1 hlt)]
    refine ⟨⟨hscaled, le_min hreferee (sub_nonneg.2 hbelow)⟩, ⟨hless, min_le_left _ _⟩, fun _ => ?_⟩
    exact add_le_of_le_sub_left (min_le_right _ _)

/-- **A split stays within its bounds.** Of every whole base and under any settings, both sides
are not negative and make up the total; under a ceiling the total is at most the ceiling, and a
total above it is scaled down on both sides, the referrer's share rounded down; percentages never
exceed the base; and a shortfall is exactly a total above the base. -/
theorem payout_split_bounded (b : ℕ) (settings : ReferralPayoutSettings) :
    let payout := settings.computeReferralPayout (some (b : ℚ))
    let uncapped := settings.shares b
    let cap := sanitizeAmount settings.maxPayoutFcfa
    (0 ≤ payout.referrerAmount ∧ 0 ≤ payout.refereeAmount) ∧
      payout.referrerAmount + payout.refereeAmount = payout.totalPayout ∧
      (0 < cap → payout.totalPayout ≤ cap ∧ (cap < uncapped.total →
          payout.referrerAmount ≤ uncapped.referrerAmount ∧
          payout.refereeAmount ≤ uncapped.refereeAmount ∧
          payout.referrerAmount = ⌊(uncapped.referrerAmount * cap : ℚ) / (uncapped.total : ℚ)⌋)) ∧
      (settings.type = .percentage → payout.totalPayout ≤ b ∧ payout.shortfall = false) ∧
      (payout.shortfall = true ↔ (b : ℤ) < payout.totalPayout) := by
  obtain ⟨hreferrer, hreferee⟩ := shares_nonneg settings b
  obtain ⟨hnonneg, hless, hcapped⟩ :=
    @applyCap_mem (settings.shares b) settings.maxPayoutFcfa hreferrer hreferee
  simp only [ReferralPayoutSettings.computeReferralPayout, sanitizeAmount_natCast,
    decide_eq_true_eq, decide_eq_false_iff_not, not_lt, iff_self, and_true]
  refine ⟨hnonneg, rfl, fun hpos => ⟨hcapped hpos, fun hlt => ⟨hless.1, hless.2, ?_⟩⟩,
    fun htype => ?_⟩
  · obtain ⟨total, htotal⟩ := Int.eq_ofNat_of_zero_le (hpos.trans hlt).le
    rw [applyCap_of_lt hpos hlt, htotal]
    exact_mod_cast (Rat.floor_intCast_div_natCast _ total).symm
  · have htotal : (settings.shares b).total ≤ b := by
      simp only [ReferralPayoutSettings.shares, htype, Shares.total]
      exact percentageShares_le b _ _
    have hle := (add_le_add hless.1 hless.2).trans htotal
    exact ⟨hle, hle⟩

end Rabotka.Referrals
