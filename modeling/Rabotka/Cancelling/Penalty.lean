import Mathlib.Algebra.Order.Field.Rat
import Rabotka.Hiring.Schema

/-!
# The penalty of a late cancellation, and its preview

`ApplicationService.cancel` as far as it decides who may cancel and what it costs, and
`wouldPenalizeCancellation`, which tells a worker beforehand whether it will. Instants are
milliseconds and amounts are numbers; of a cancellation the penalty, the points of reliability and
the application's own columns are modelled.

`cancel` refuses an accepted application once its mission has started, but not one that still waits
for a payment, and `wouldPenalizeCancellation` takes a date that is past for one that costs nothing:
the two agree otherwise (`preview_agrees_iff`).
-/

namespace Rabotka.Cancelling

open Hiring

/-- A number of the settings, `Number(...)` of a text. -/
inductive Number
  | nan
  | negativeInfinity
  | finite (value : ℚ)
  | infinity
  deriving DecidableEq

/-- `x < n`. -/
def Number.above (x : ℚ) : Number → Bool
  | nan => false
  | negativeInfinity => false
  | finite value => decide (x < value)
  | infinity => true

/-- `Number.isFinite(n) && n > 0 ? n : 0`. -/
def Number.safe : Number → ℚ
  | finite value => if 0 < value then value else 0
  | _ => 0

/-- What is read of a job offer. -/
structure JobOffer where
  employmentType : EmploymentType
  scheduledAt : Option ℤ
  deriving DecidableEq

/-- An application with its offer. -/
structure Application where
  workerId : ℕ
  status : ApplicationStatus
  jobOffer : JobOffer
  penaltyApplied : Bool := false
  penaltyAmount : Option ℚ := none
  cancelledFromStatus : Option ApplicationStatus := none
  deriving DecidableEq

/-- A row of the penalties; the key is the application. -/
structure Penalty where
  profileId : ℕ
  applicationId : ℕ
  amount : ℚ
  deriving DecidableEq

/-- `getFees`, as far as cancellations read it. -/
structure Fees where
  cancellationThresholdHours : Number
  lateCancellationPenaltyFcfa : ℚ
  lateCancellationScoreDeduction : Number
  cancellationScoreDeduction : Number
  reliabilityScoreMin : ℚ

/-- The tables: the applications, the penalties and the scores of the profiles. -/
structure Db where
  applications : ℕ → Option Application
  penalties : List Penalty
  reliabilityScore : ℕ → Option ℚ

/-- `RELIABILITY_SCORE_MAX`. -/
def reliabilityScoreMax : ℚ := 100

inductive Exn
  | notFound (message : String)
  | forbidden (message : String)
  | badRequest (message : String)
  deriving DecidableEq

/-- The hours from an instant to a date. -/
def hoursUntil (scheduledAt now : ℤ) : ℚ := ((scheduledAt - now : ℤ) : ℚ) / (60 * 60 * 1000)

/-! ### Cancelling -/

/-- A hire that has closed its offer, and can still fall through. -/
def Application.isReversibleHire (a : Application) : Bool :=
  decide (a.status = .ended) && a.jobOffer.employmentType.closesOnFill

/-- Whether the application can be cancelled at all. -/
def Application.isCancellable (a : Application) : Bool :=
  decide (a.status ∈ [.accepted, .pending, .viewed, .waitingPayment]) || a.isReversibleHire

/-- Whether the date of the offer has come. -/
def Application.hasStarted (a : Application) (now : ℤ) : Bool :=
  a.jobOffer.scheduledAt.any fun scheduledAt => decide (scheduledAt ≤ now)

/-- `isLateCancellation`. -/
def Application.isLate (a : Application) (fees : Fees) (now : ℤ) : Bool :=
  a.jobOffer.scheduledAt.any fun scheduledAt =>
    fees.cancellationThresholdHours.above (hoursUntil scheduledAt now)

/-- `applyPenalty`. -/
def Application.applyPenalty (a : Application) (fees : Fees) (now : ℤ) : Bool :=
  a.isLate fees now && (decide (a.status = .accepted) || decide (a.status = .waitingPayment))

/-- `isCommittedCancellation`. -/
def isCommittedCancellation (fromStatus : ApplicationStatus) : Bool :=
  decide (fromStatus ∈ [.accepted, .waitingPayment, .ended])

def cancellationScoreDeduction (late committed : Bool) (lateDeduction anyDeduction : Number) : ℚ :=
  (if late then lateDeduction.safe else 0) + if committed then anyDeduction.safe else 0

/-- What `cancel` checks before it writes. -/
def checkCancel (db : Db) (applicationId workerId : ℕ) (now : ℤ) : Except Exn Application :=
  match db.applications applicationId with
  | none => throw (.notFound "Candidature non trouvée")
  | some a =>
    if a.workerId ≠ workerId then
      throw (.forbidden "Vous ne pouvez annuler que vos propres candidatures")
    else if !a.isCancellable then
      throw (.badRequest "Cette candidature ne peut plus être annulée")
    else if a.hasStarted now && decide (a.status = .accepted) then
      throw (.badRequest
        "Cette mission a déjà débuté, vous ne pouvez plus annuler votre candidature")
    else pure a

/-- `penalty.upsert`: a penalty that the application has already stays as it is. -/
def upsertPenalty (penalties : List Penalty) (p : Penalty) : List Penalty :=
  if penalties.any fun q => decide (q.applicationId = p.applicationId) then penalties
  else penalties ++ [p]

/-- The score after a deduction. -/
def deductScore (fees : Fees) (score : Option ℚ) (deduction : ℚ) : ℚ :=
  max fees.reliabilityScoreMin (min reliabilityScoreMax (score.getD 100 - deduction))

/-- The transaction of `cancel`, for the application as it was read. -/
def writeCancel (db : Db) (fees : Fees) (applicationId workerId : ℕ) (now : ℤ) (a : Application) :
    Except Exn Db :=
  if (db.applications applicationId).map Application.status = some .cancelled then
    throw (.badRequest "Cette candidature est déjà annulée")
  else
    let applyPenalty := a.applyPenalty fees now
    let amount := fees.lateCancellationPenaltyFcfa
    let deduction := cancellationScoreDeduction applyPenalty (isCommittedCancellation a.status)
      fees.lateCancellationScoreDeduction fees.cancellationScoreDeduction
    let penalties :=
      if applyPenalty then upsertPenalty db.penalties ⟨workerId, applicationId, amount⟩
      else db.penalties
    let reliabilityScore :=
      if 0 < deduction then
        Function.update db.reliabilityScore workerId
          (some (deductScore fees (db.reliabilityScore workerId) deduction))
      else db.reliabilityScore
    let cancelled : Application :=
      { a with
        status := .cancelled
        penaltyApplied := applyPenalty
        penaltyAmount := if applyPenalty then some amount else none
        cancelledFromStatus := some a.status }
    pure
      { applications := Function.update db.applications applicationId (some cancelled)
        penalties := penalties
        reliabilityScore := reliabilityScore }

/-- `cancel`: the tables after it, and whether a penalty was applied. -/
def cancel (db : Db) (fees : Fees) (applicationId workerId : ℕ) (now : ℤ) :
    Except Exn (Db × Bool) := do
  let a ← checkCancel db applicationId workerId now
  let db ← writeCancel db fees applicationId workerId now a
  pure (db, a.applyPenalty fees now)

/-! ### The preview -/

def wouldPenalizeCancellation (db : Db) (fees : Fees) (applicationId workerId : ℕ) (now : ℤ) :
    Bool :=
  match db.applications applicationId with
  | none => false
  | some a =>
    if a.workerId ≠ workerId then false
    else if a.status ≠ .accepted ∧ a.status ≠ .waitingPayment then false
    else
      match a.jobOffer.scheduledAt with
      | none => false
      | some scheduledAt =>
        decide (0 ≤ hoursUntil scheduledAt now) &&
          fees.cancellationThresholdHours.above (hoursUntil scheduledAt now)

/-! ### Where they agree -/

variable {db after : Db} {fees : Fees} {applicationId workerId : ℕ} {now : ℤ} {a : Application}
  {penalised : Bool}

theorem hoursUntil_nonneg {scheduledAt now : ℤ} : 0 ≤ hoursUntil scheduledAt now ↔
    now ≤ scheduledAt := by
  unfold hoursUntil
  rw [le_div_iff₀ (by norm_num), zero_mul]
  exact_mod_cast sub_nonneg (a := scheduledAt) (b := now)

/-- What an application that `cancel` lets through is like. -/
theorem checkCancel_spec (h : checkCancel db applicationId workerId now = .ok a) :
    db.applications applicationId = some a ∧ a.workerId = workerId ∧ a.isCancellable = true ∧
      (a.status = .accepted → a.hasStarted now = false) := by
  unfold checkCancel at h
  cases happ : db.applications applicationId with
  | none =>
    rw [happ] at h
    cases h
  | some b =>
    rw [happ] at h
    simp only at h
    split_ifs at h with hworker hcancellable hstarted
    obtain rfl : b = a := by simpa [pure, Except.pure] using h
    refine ⟨rfl, not_not.1 hworker, by simpa using hcancellable, fun haccepted => ?_⟩
    simpa [haccepted] using hstarted

/-- A cancellation that succeeds: its application was let through, and what it says of the penalty
is what it wrote. -/
theorem cancel_spec (h : cancel db fees applicationId workerId now = .ok (after, penalised)) :
    ∃ a, checkCancel db applicationId workerId now = .ok a ∧
      writeCancel db fees applicationId workerId now a = .ok after ∧
      penalised = a.applyPenalty fees now := by
  unfold cancel at h
  cases hcheck : checkCancel db applicationId workerId now with
  | error e =>
    rw [hcheck] at h
    cases h
  | ok a =>
    rw [hcheck] at h
    cases hwrite : writeCancel db fees applicationId workerId now a with
    | error e =>
      simp only [bind, Except.bind, hwrite] at h
      cases h
    | ok db' =>
      simp only [bind, Except.bind, hwrite, pure, Except.pure, Except.ok.injEq, Prod.mk.injEq] at h
      obtain ⟨rfl, rfl⟩ := h
      exact ⟨a, rfl, hwrite, rfl⟩

/-- The application waits for a payment, its date is past, and the cancellation is late all the
same. -/
def PastWaiting (db : Db) (fees : Fees) (applicationId : ℕ) (now : ℤ) : Prop :=
  ∃ a scheduledAt, db.applications applicationId = some a ∧ a.status = .waitingPayment ∧
    a.jobOffer.scheduledAt = some scheduledAt ∧ scheduledAt < now ∧
    fees.cancellationThresholdHours.above (hoursUntil scheduledAt now) = true

/-- The preview of an application that `cancel` lets through. -/
theorem preview_eq (h : checkCancel db applicationId workerId now = .ok a) :
    wouldPenalizeCancellation db fees applicationId workerId now =
      (a.applyPenalty fees now && !a.jobOffer.scheduledAt.any fun t => decide (t < now)) := by
  obtain ⟨happ, hworker, -, -⟩ := checkCancel_spec h
  unfold wouldPenalizeCancellation
  rw [happ]
  simp only [hworker, ne_eq, not_true_eq_false, if_false, Application.applyPenalty,
    Application.isLate]
  cases hdate : a.jobOffer.scheduledAt with
  | none =>
    split_ifs <;> rfl
  | some scheduledAt =>
    simp only [Option.any_some, hoursUntil_nonneg]
    split_ifs with hstatus
    · obtain ⟨hnot, hnot'⟩ := hstatus
      simp [hnot, hnot']
    · have hcommitted : (decide (a.status = .accepted) || decide (a.status = .waitingPayment)) =
          true := by
        rw [Bool.or_eq_true, decide_eq_true_eq, decide_eq_true_eq]
        tauto
      rw [hcommitted, Bool.and_true, Bool.and_comm]
      congr 1
      rw [Bool.eq_iff_iff]
      simp

/-- **When the preview tells the truth.** For a cancellation that succeeds it says whether a
penalty is applied, but for an application that waits for a payment and whose date is past: that
one is penalised all the same. -/
theorem preview_agrees_iff
    (h : cancel db fees applicationId workerId now = .ok (after, penalised)) :
    wouldPenalizeCancellation db fees applicationId workerId now = penalised ↔
      ¬PastWaiting db fees applicationId now := by
  obtain ⟨a, hcheck, -, rfl⟩ := cancel_spec h
  obtain ⟨happ, -, -, hstarted⟩ := checkCancel_spec hcheck
  rw [preview_eq hcheck]
  constructor
  · rintro hagree ⟨b, scheduledAt, hb, hwaiting, hdate, hpast, hlate⟩
    obtain rfl : a = b := Option.some_inj.1 (happ.symm.trans hb)
    simp [Application.applyPenalty, Application.isLate, hdate, hlate, hwaiting, hpast] at hagree
  · intro hnot
    cases happly : a.applyPenalty fees now with
    | false => rfl
    | true =>
      rw [Bool.true_and, Bool.not_eq_true']
      cases hdate : a.jobOffer.scheduledAt with
      | none => rfl
      | some scheduledAt =>
        rw [Option.any_some, decide_eq_false_iff_not]
        intro hpast
        simp only [Application.applyPenalty, Application.isLate, hdate, Option.any_some,
          Bool.and_eq_true, Bool.or_eq_true, decide_eq_true_eq] at happly
        obtain ⟨hlate, haccepted | hwaiting⟩ := happly
        · -- an accepted one is refused from its date on
          have hfuture := hstarted haccepted
          simp only [Application.hasStarted, hdate, Option.any_some,
            decide_eq_false_iff_not] at hfuture
          exact hfuture hpast.le
        · exact hnot ⟨a, scheduledAt, happ, hwaiting, hdate, hpast, hlate⟩

/-- Four hours, and a penalty of 500. -/
def sampleFees : Fees where
  cancellationThresholdHours := .finite 4
  lateCancellationPenaltyFcfa := 500
  lateCancellationScoreDeduction := .finite 10
  cancellationScoreDeduction := .finite 5
  reliabilityScoreMin := 0

/-- One application of the worker 1, for a mission at noon. -/
def sampleDb (status : ApplicationStatus) : Db where
  applications := fun id =>
    if id = 0 then some ⟨1, status, ⟨.mission, some 43200000⟩, false, none, none⟩ else none
  penalties := []
  reliabilityScore := fun _ => some 100

/-- Accepted, and two hours before: both say yes. -/
theorem preview_agrees_accepted :
    ∃ after, cancel (sampleDb .accepted) sampleFees 0 1 36000000 = .ok (after, true) ∧
      (wouldPenalizeCancellation (sampleDb .accepted) sampleFees 0 1 36000000 = true ↔
        ¬PastWaiting (sampleDb .accepted) sampleFees 0 36000000) := by
  have hdone : (cancel (sampleDb .accepted) sampleFees 0 1 36000000).map Prod.snd = .ok true := by
    decide +kernel
  cases h : cancel (sampleDb .accepted) sampleFees 0 1 36000000 with
  | error e =>
    rw [h] at hdone
    cases hdone
  | ok result =>
    rw [h] at hdone
    obtain ⟨after, penalised⟩ := result
    obtain rfl : penalised = true := Except.ok.inj hdone
    exact ⟨after, rfl, preview_agrees_iff h⟩

/-- Waiting for a payment, and an hour after: the preview says no, and there is a penalty. -/
theorem preview_disagrees : (cancel (sampleDb .waitingPayment) sampleFees 0 1 46800000).map
        (fun result => (result.1.penalties, result.2)) = .ok ([⟨1, 0, 500⟩], true) ∧
      wouldPenalizeCancellation (sampleDb .waitingPayment) sampleFees 0 1 46800000 = false := by
  decide +kernel

end Rabotka.Cancelling
