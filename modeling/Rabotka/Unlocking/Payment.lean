import Rabotka.Unlocking.Wallets

/-!
# Paying for a contact unlock

`payUnlock` of the unlock service, with everything it calls: the checks of the attempt and the
payer, the debit, the records of the payment, and then either the attempt's own update or, where an
employer pays for a job with several places, the job's flag and the updates of all its attempts.
When that last part throws, the payer's wallet is credited with the amount again.

Left out are the interaction signals, the index and the messages, which are started and not
waited for.
-/

namespace Rabotka.Unlocking

open Faulty
open Hiring (ContactUnlockAttempt ContactUnlockStatus ApplicationStatus)

structure PayUnlockResult where
  attemptId : ℕ
  status : ContactUnlockStatus
  newlyUnlocked : List ℕ
  deriving DecidableEq

/-- What a payment draws at random. -/
structure Draw where
  paymentReference : ℕ
  token : ℕ

/-! ### The checks -/

/-- `ensurePayUnlockAttemptOrEarlyExit`: the attempt to go on with, unless it is unlocked. -/
def ensurePayUnlockAttemptOrEarlyExit : Option ContactUnlockAttempt →
    Op (Option ContactUnlockAttempt)
  | none => refuse "Tentative de déverrouillage introuvable"
  | some attempt =>
    if attempt.status = .unlocked then return none
    else if attempt.status = .expired ∨ attempt.status = .convertedToCredit then
      refuse "Cette tentative de déverrouillage a expiré"
    else return some attempt

def assertPayUnlockParticipant (attempt : ContactUnlockAttempt) (profileId : ℕ) :
    Op (Bool × Bool) :=
  let isEmployer : Bool := attempt.employerId = profileId
  let isWorker : Bool := attempt.workerId = profileId
  if !isEmployer && !isWorker then
    refuse "Vous n'êtes pas autorisé à déverrouiller ce contact"
  else return (isEmployer, isWorker)

def dayMs : ℤ := 24 * 60 * 60 * 1000

/-- The penalties that `isWorkerHardBlocked` counts. -/
def Penalty.blocks (profileId : ℕ) (threshold : ℤ) (p : Penalty) : Bool :=
  p.profileId = profileId && !p.paid && !p.deleted && p.appliedAt ≤ threshold

/-- `hardBlockCutoff`. -/
def hardBlockCutoff (now : ℤ) (hardBlockDays : ℕ) : ℤ := now - hardBlockDays * dayMs

def assertPayUnlockAccountAllowsPayment (profileId : ℕ) (now : ℤ) : Op Unit := do
  let profile ← read .findProfile fun db => db.profiles[profileId]?
  if profile.any Profile.billingBlocked then
    refuse "Votre compte est bloqué. Réglez vos pénalités pour continuer."
  else
    let hardBlockDays ← read .getPenaltyHardBlockDays Db.penaltyHardBlockDays
    let count ← read .countPenalties fun db =>
      db.penalties.countP (Penalty.blocks profileId (hardBlockCutoff now hardBlockDays))
    if 0 < count then
      refuse s!"🚨 Votre compte est bloqué : vous avez des pénalités impayées depuis plus de {hardBlockDays} jour(s). Réglez-les pour débloquer ce contact."
    else return

def assertPayUnlockPartyNotAlreadyPaid (attempt : ContactUnlockAttempt)
    (isEmployer isWorker : Bool) : Op Unit :=
  if isEmployer && attempt.employerPaid then
    refuse "Vous avez déjà payé pour ce déverrouillage"
  else if isWorker && attempt.workerPaid then
    refuse "Vous avez déjà payé pour ce déverrouillage"
  else return

/-! ### The records of the payment -/

def recordWalletUnlockPayment (attemptId profileId amount : ℕ) (draw : Draw) : Op Unit := do
  let paymentRequest ← call .createRequest fun db =>
    (db.paymentRequests.length,
      { db with
        paymentRequests := db.paymentRequests ++
          [{ profileId
             token := draw.token
             status := .approved
             amount
             paymentReference := some draw.paymentReference
             contactUnlockAttemptId := some attemptId
             requestType := none }] })
  write .createPayment fun db =>
    { db with
      payments := db.payments ++
        [{ type := .contactUnlock
           profileId
           amount
           method := .wallet
           transactionId := draw.paymentReference
           status := .completed }] }
  createInvoice profileId paymentRequest amount attemptId

/-! ### The applications that follow -/

/-- `rejectLeftoversIfOfferFilled`, a transaction that locks the offer; it is one call here, which
throws when a statement of it does. -/
def Db.closeFilled (db : Db) (jobOfferId : ℕ) : Db :=
  match db.offers[jobOfferId]? with
  | none => db
  | some offer =>
    let acceptedCount := db.applications.countP fun a =>
      a.jobOfferId = jobOfferId && a.status = .accepted
    if acceptedCount < offer.quantity then db
    else
      { db with
        offers := Table.update db.offers jobOfferId fun o => { o with status := .filled }
        applications := Table.updateMany db.applications
          (fun _ a => a.jobOfferId = jobOfferId &&
            (a.status = .pending || a.status = .viewed || a.status = .waitingPayment))
          fun a => { a with status := .rejected } }

/-- The jobs of the applications, each once. -/
def Db.jobsOf (db : Db) (applicationIds : List ℕ) : List ℕ :=
  ((Table.findMany db.applications fun id _ => id ∈ applicationIds).map
    fun a => a.2.jobOfferId).eraseDups

def markApplicationAcceptedAfterUnlock (applicationIds : List ℕ) : Op Unit :=
  if applicationIds = [] then return
  else do
    let jobOfferIds ← read .findApplications fun db => db.jobsOf applicationIds
    write .acceptApplications fun db =>
      { db with
        applications := Table.updateMany db.applications
          (fun id a => id ∈ applicationIds && a.status = .waitingPayment)
          fun a => { a with status := .accepted } }
    jobOfferIds.forM fun jobOfferId =>
      write (.closeFilled jobOfferId) fun db => db.closeFilled jobOfferId

/-- `ContactRecordService.record`, which never throws: the row is made unless it is there. -/
def recordUnlockedContact (attemptId : ℕ) (attempt : ContactUnlockAttempt) : Op Unit :=
  swallow do
    write (.upsertRecord attemptId) fun db =>
      if db.contactRecords.any fun r => r.contactUnlockAttemptId = attemptId then db
      else
        { db with
          contactRecords := db.contactRecords ++
            [{ employerId := attempt.employerId
               workerId := attempt.workerId
               amount := attempt.employerAmount
               jobOfferId := attempt.jobOfferId
               applicationId := attempt.applicationId
               contactUnlockAttemptId := attemptId }] }
    write (.invalidateRecords attemptId) id

def recordUnlockedContactsByIds (attemptIds : List ℕ) : Op Unit :=
  if attemptIds = [] then return
  else do
    let rows ← read .findUnlocked fun db =>
      Table.findMany db.attempts fun id _ => id ∈ attemptIds
    rows.forM fun row => recordUnlockedContact row.1 row.2

/-! ### The payment for one attempt -/

/-- The status for the sides that have paid. -/
def statusOfPaid (employerPaid workerPaid : Bool) : ContactUnlockStatus :=
  if employerPaid && workerPaid then .unlocked
  else if employerPaid && !workerPaid then .pendingWorker
  else .pendingEmployer

/-- The side that pays has not paid yet. -/
def sideUnpaid (isEmployer : Bool) (a : ContactUnlockAttempt) : Bool :=
  if isEmployer then !a.employerPaid else !a.workerPaid

/-- One side's payment, with the status that follows. -/
def paySide (isEmployer : Bool) (newStatus : ContactUnlockStatus) (a : ContactUnlockAttempt) :
    ContactUnlockAttempt :=
  if isEmployer then { a with employerPaid := true, status := newStatus }
  else { a with workerPaid := true, status := newStatus }

/-- The guarded update of an attempt: it counts the rows on which the side has not paid. -/
def Db.payAttempt (db : Db) (attemptId : ℕ) (isEmployer : Bool)
    (newStatus : ContactUnlockStatus) : Bool × Db :=
  match Table.claim db.attempts attemptId (sideUnpaid isEmployer)
    (paySide isEmployer newStatus) with
  | some attempts => (true, { db with attempts })
  | none => (false, db)

def commitStandardPerAttemptPayUnlock (attemptId : ℕ) (attempt : ContactUnlockAttempt)
    (isEmployer isWorker : Bool) : Op PayUnlockResult := do
  let updatedEmployerPaid := if isEmployer then true else attempt.employerPaid
  let updatedWorkerPaid := if isWorker then true else attempt.workerPaid
  let newStatus := statusOfPaid updatedEmployerPaid updatedWorkerPaid
  let guardResult ← call .payAttempt fun db => db.payAttempt attemptId isEmployer newStatus
  if guardResult = false then refuse "Ce paiement a déjà été enregistré pour cette partie"
  else
    match ← read .rereadAttempt fun db => db.attempts[attemptId]? with
    | none => refuse "P2025"
    | some updated =>
      if newStatus = .unlocked then
        markApplicationAcceptedAfterUnlock [updated.applicationId]
        recordUnlockedContact attemptId updated
        return { attemptId, status := updated.status, newlyUnlocked := [attemptId] }
      else return { attemptId, status := updated.status, newlyUnlocked := [] }

/-! ### The payment for a job with several places -/

/-- The attempts of a job that wait for the employer. -/
def awaitsEmployer (jobOfferId : ℕ) (a : ContactUnlockAttempt) : Bool :=
  a.jobOfferId = jobOfferId && !a.employerPaid &&
    (a.status = .pendingBoth || a.status = .pendingEmployer)

def Db.pendingAttempts (db : Db) (jobOfferId : ℕ) : List (ℕ × ContactUnlockAttempt) :=
  Table.findMany db.attempts fun _ a => awaitsEmployer jobOfferId a

/-- The employer's side of the attempt is paid. -/
def payEmployerSide (willUnlock : Bool) (a : ContactUnlockAttempt) : ContactUnlockAttempt :=
  { a with
    employerPaid := true
    status := if willUnlock then .unlocked else .pendingWorker }

def Db.payJob (db : Db) (jobOfferId : ℕ) : Db :=
  { db with
    offers := Table.update db.offers jobOfferId fun o => { o with employerUnlockPaid := true } }

def Db.payPending (db : Db) (a : ℕ × ContactUnlockAttempt) : Db :=
  { db with attempts := Table.update db.attempts a.1 (payEmployerSide a.2.workerPaid) }

def handleMultiPersonEmployerPay (triggerId : ℕ) (triggerAttempt : ContactUnlockAttempt) :
    Op PayUnlockResult := do
  write .payJob fun db => db.payJob triggerAttempt.jobOfferId
  let pendingAttempts ← read .findPending fun db => db.pendingAttempts triggerAttempt.jobOfferId
  pendingAttempts.forM fun a => write (.payPending a.1) fun db => db.payPending a
  let unlocked := pendingAttempts.filter fun a => a.2.workerPaid
  let newlyUnlocked := unlocked.map Prod.fst
  let unlockedApplicationIds := unlocked.map fun a => a.2.applicationId
  if triggerAttempt.workerPaid then
    let newlyUnlocked :=
      if triggerId ∈ newlyUnlocked then newlyUnlocked else newlyUnlocked ++ [triggerId]
    let trigger ← read .findTrigger fun db => db.attempts[triggerId]?
    let unlockedApplicationIds := unlockedApplicationIds ++
      (trigger.map ContactUnlockAttempt.applicationId).toList
    markApplicationAcceptedAfterUnlock unlockedApplicationIds.eraseDups
    recordUnlockedContactsByIds newlyUnlocked
    return { attemptId := triggerId, status := .unlocked, newlyUnlocked }
  else
    markApplicationAcceptedAfterUnlock unlockedApplicationIds.eraseDups
    recordUnlockedContactsByIds newlyUnlocked
    return { attemptId := triggerId, status := .pendingWorker, newlyUnlocked }

/-! ### The payment -/

/-- The amount is given back to the payer, if that succeeds, and the error goes on. -/
def refundAndRethrow (useCredit : Bool) (attemptId profileId amount : ℕ) (dbErr : Thrown Site) :
    Op PayUnlockResult := do
  if useCredit then
    swallow (refundProfileWallet profileId amount .contactUnlockCreditConversion attemptId)
  rethrow dbErr

/-- What follows the checks and the payment: the part whose failure is made good. -/
def settle (attemptId profileId : ℕ) (attempt : ContactUnlockAttempt) (useCredit : Bool)
    (amount : ℕ) (isEmployer isWorker : Bool) : Op PayUnlockResult := do
  if isEmployer then
    let jobOffer ← read .findJob fun db => db.offers[attempt.jobOfferId]?
    if 1 < (jobOffer.map Hiring.JobOffer.quantity).getD 1 then
      rescue (handleMultiPersonEmployerPay attemptId attempt)
        (refundAndRethrow useCredit attemptId profileId amount)
    else
      rescue (commitStandardPerAttemptPayUnlock attemptId attempt isEmployer isWorker)
        (refundAndRethrow useCredit attemptId profileId amount)
  else
    rescue (commitStandardPerAttemptPayUnlock attemptId attempt isEmployer isWorker)
      (refundAndRethrow useCredit attemptId profileId amount)

/-- The checks at the beginning of `payUnlock`: the attempt and the sides that the profile is on,
unless the attempt is unlocked already. -/
def admitPayment (attemptId profileId : ℕ) (now : ℤ) :
    Op (Option (ContactUnlockAttempt × Bool × Bool)) := do
  let attemptRow ← read .findAttempt fun db => db.attempts[attemptId]?
  match ← ensurePayUnlockAttemptOrEarlyExit attemptRow with
  | none => return none
  | some attempt =>
    let sides ← assertPayUnlockParticipant attempt profileId
    assertPayUnlockAccountAllowsPayment profileId now
    assertPayUnlockPartyNotAlreadyPaid attempt sides.1 sides.2
    let offer ← read .findOffer fun db => db.offers[attempt.jobOfferId]?
    if offer.all Hiring.JobOffer.deleted then refuse "Offre introuvable"
    else return some (attempt, sides)

def payUnlock (attemptId profileId : ℕ) (useCredit : Bool) (now : ℤ) (draw : Draw) :
    Op PayUnlockResult := do
  match ← admitPayment attemptId profileId now with
  | none => return { attemptId, status := .unlocked, newlyUnlocked := [] }
  | some (attempt, isEmployer, isWorker) =>
    let amount := if isEmployer then attempt.employerAmount else attempt.workerAmount
    if useCredit then
      debitProfileAndCreditSystem profileId amount .contactUnlockDebit .contactUnlockPayment
        attemptId
      recordWalletUnlockPayment attemptId profileId amount draw
    settle attemptId profileId attempt useCredit amount isEmployer isWorker

end Rabotka.Unlocking
