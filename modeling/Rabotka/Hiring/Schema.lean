import Rabotka.Lib.Table

/-!
# The hiring tables

Job offers, applications with their assignments, contact unlock attempts, the quota of a
subscription that attempts were covered by, and the wallets as far as unlocks move their money,
as the contact unlock service and the application service read and write them. Stored amounts
are hundredths of a franc, and the configured fees are not negative; instants are numbers; an
identifier is the position of the row in its table.

An unlock attempt is paid for by two parties. Its status repeats what its two paid flags say, and
the services keep both, so that the two can disagree.
-/

namespace Rabotka.Hiring

/-! ### Enumerations -/

inductive JobOfferStatus
  | active | partiallyFilled | filled | inProgress | completed | cancelled | expired
  deriving DecidableEq

/-- `TERMINAL_JOB_OFFER_STATUSES`. -/
def JobOfferStatus.isTerminal : JobOfferStatus → Bool
  | .cancelled | .completed | .expired => true
  | _ => false

inductive EmploymentType
  | mission | cdd | cdi | stage
  deriving DecidableEq

/-- `closesOnFill`: everything but a dated mission. -/
def EmploymentType.closesOnFill : EmploymentType → Bool
  | .mission => false
  | _ => true

/-- The value as the source writes it. -/
def EmploymentType.label : EmploymentType → String
  | .mission => "MISSION"
  | .cdd => "CDD"
  | .cdi => "CDI"
  | .stage => "STAGE"

inductive ApplicationStatus
  | pending | viewed | waitingPayment | accepted | rejected | cancelled | started | ended
  deriving DecidableEq

inductive AssignmentStatus
  | confirmed | completed | noShow | cancelledByWorker | cancelledByEmployer
  deriving DecidableEq

inductive ContactUnlockStatus
  | pendingBoth | pendingEmployer | pendingWorker | unlocked | expired | convertedToCredit
  deriving DecidableEq

namespace ContactUnlockStatus

/-- `PENDING_BOTH`, `PENDING_EMPLOYER` or `PENDING_WORKER`. -/
def isPending : ContactUnlockStatus → Bool
  | pendingBoth | pendingEmployer | pendingWorker => true
  | _ => false

end ContactUnlockStatus

inductive UnlockTransactionType
  | contactUnlockDebit | contactUnlockCreditConversion
  deriving DecidableEq

/-! ### Rows -/

structure JobOffer where
  employerId : ℕ
  quantity : ℕ
  status : JobOfferStatus
  employerUnlockPaid : Bool
  employmentType : EmploymentType
  scheduledAt : Option ℕ
  deleted : Bool
  deriving DecidableEq

/-- An application, with the status of the assignment that belongs to it.
`cancelledFromStatus` is set by a worker's cancellation only. -/
structure Application where
  jobOfferId : ℕ
  workerId : ℕ
  status : ApplicationStatus
  cancelledFromStatus : Option ApplicationStatus
  assignment : Option AssignmentStatus
  deriving DecidableEq

structure ContactUnlockAttempt where
  applicationId : ℕ
  jobOfferId : ℕ
  workerId : ℕ
  employerId : ℕ
  status : ContactUnlockStatus
  employerPaid : Bool
  workerPaid : Bool
  employerAmount : ℕ
  workerAmount : ℕ
  expiresAt : ℕ
  deriving DecidableEq

/-- One unit of a subscription's quota, used to cover the employer's side of an attempt. -/
structure QuotaUsage where
  contactUnlockAttemptId : ℕ
  released : Bool
  deriving DecidableEq

structure Wallet where
  profileId : ℕ
  balance : ℕ
  deriving DecidableEq

/-- A row of a profile's wallet whose reference is an unlock attempt. -/
structure UnlockTransaction where
  profileId : ℕ
  type : UnlockTransactionType
  amount : ℕ
  attemptId : ℕ
  deriving DecidableEq

/-- A payment that was collected outside the wallet and recorded on an attempt. -/
structure CashPayment where
  attemptId : ℕ
  profileId : ℕ
  amount : ℕ
  deriving DecidableEq

/-- The database. -/
structure Db where
  offers : List JobOffer
  applications : List Application
  attempts : List ContactUnlockAttempt
  quotaUsages : List QuotaUsage
  wallets : List Wallet
  transactions : List UnlockTransaction
  cashPayments : List CashPayment

namespace JobOffer

/-- A multi-seat offer: its employer pays once for all candidates. -/
def isMultiPerson (o : JobOffer) : Bool := 1 < o.quantity

/-- `isEmployerCoveredAtJobLevel`. -/
def coversEmployer (o : JobOffer) : Bool := o.isMultiPerson && o.employerUnlockPaid

end JobOffer

end Rabotka.Hiring

/-!
## The hiring transactions

Transactions of the contact unlock service and of the application service, each as a
function of the database. A `prisma.$transaction` is one function: those that decide from what
they read hold a row lock on the offer or the application meanwhile.

What these functions do to penalties, scores, timestamps and notifications is left out.
-/

namespace Rabotka.Hiring

/-- The exceptions of the services, with their texts. -/
inductive Exn
  | badRequest (message : String)
  | notFound (message : String)
  | forbidden (message : String)
  | conflict (message : String)
  | error (message : String)

/-- The statuses of applicants still waiting on an offer. -/
def ApplicationStatus.isWaiting : ApplicationStatus → Bool
  | .pending | .viewed | .waitingPayment => true
  | _ => false

namespace Db

/-! ### Statements -/

def setOfferStatus (db : Db) (offerId : ℕ) (status : JobOfferStatus) : Db :=
  { db with offers := Table.update db.offers offerId fun o => { o with status } }

def setApplication (db : Db) (applicationId : ℕ) (f : Application → Application) : Db :=
  { db with applications := Table.update db.applications applicationId f }

/-- `application.updateMany` where the id is listed, setting REJECTED. -/
def rejectApplications (db : Db) (applicationIds : List ℕ) : Db :=
  { db with
    applications := Table.updateMany db.applications (fun i _ => i ∈ applicationIds) fun a =>
      { a with status := .rejected } }

/-- `application.findMany` of an offer in the given statuses. -/
def applicationsIn (db : Db) (offerId : ℕ) (p : ApplicationStatus → Bool) : List ℕ :=
  (Table.findMany db.applications fun _ a => a.jobOfferId = offerId && p a.status).map Prod.fst

/-- `application.count` of an offer in the given statuses, one application aside. -/
def countOthers (db : Db) (offerId applicationId : ℕ) (p : ApplicationStatus → Bool) : ℕ :=
  (Table.findMany db.applications fun i a =>
    i ≠ applicationId && a.jobOfferId = offerId && p a.status).length

/-- `reopenOfferUnlessClosed`. -/
def reopenOfferUnlessClosed (db : Db) (offerId : ℕ) (status : JobOfferStatus) : Db :=
  match db.offers[offerId]? with
  | none => db
  | some offer => if offer.status.isTerminal then db else db.setOfferStatus offerId status

/-! ### Unlock attempts -/

/-- `application.updateMany` of `markApplicationAcceptedAfterUnlock`. -/
def acceptWaiting (db : Db) (applicationIds : List ℕ) : Db :=
  { db with
    applications := Table.updateMany db.applications
      (fun i a => i ∈ applicationIds && a.status = .waitingPayment) fun a =>
        { a with status := .accepted } }

/-- The transaction of `rejectLeftoversIfOfferFilled`. -/
def rejectLeftoversIfOfferFilled (db : Db) (offerId : ℕ) : Db :=
  match db.offers[offerId]? with
  | none => db
  | some offer =>
    if (db.applicationsIn offerId fun s => s = .accepted).length < offer.quantity then db
    else
      (db.setOfferStatus offerId .filled).rejectApplications
        (db.applicationsIn offerId ApplicationStatus.isWaiting)

/-! ### Applications -/

/-- What `initiateUnlock` takes from the configuration, the clock and the subscription. -/
structure UnlockTerms where
  employerFee : ℕ
  workerFee : ℕ
  expiresAt : ℕ
  /-- The subscription has a unit of its quota left. -/
  quotaLeft : Bool

/-- `initiateUnlock`, within the transaction of `accept`. -/
def initiateUnlock (db : Db) (applicationId employerId : ℕ) (terms : UnlockTerms) : Except Exn Db :=
  if db.attempts.any fun x => x.applicationId = applicationId then .ok db
  else
    match db.applications[applicationId]? with
    | none => .error (.notFound "Candidature introuvable")
    | some app =>
      match db.offers[app.jobOfferId]? with
      | none => .error (.notFound "Offre introuvable")
      | some offer =>
        if offer.deleted then .error (.notFound "Offre introuvable")
        else
          let coveredAtJobLevel := offer.coversEmployer
          let coveredByPlan := !coveredAtJobLevel && terms.quotaLeft
          let employerAlreadyPaid := coveredAtJobLevel || coveredByPlan
          .ok { db with
            attempts := db.attempts ++
              [{ applicationId
                 jobOfferId := app.jobOfferId
                 workerId := app.workerId
                 employerId
                 status := if employerAlreadyPaid then .pendingWorker else .pendingBoth
                 employerPaid := employerAlreadyPaid
                 workerPaid := false
                 employerAmount := if coveredByPlan then 0 else terms.employerFee
                 workerAmount := terms.workerFee
                 expiresAt := terms.expiresAt }]
            quotaUsages := db.quotaUsages ++
              if coveredByPlan then
                [{ contactUnlockAttemptId := db.attempts.length, released := false }]
              else [] }

/-- The transaction of `accept`. -/
def accept (db : Db) (applicationId offerId employerId quantity : ℕ) (terms : UnlockTerms) :
    Except Exn Db :=
  match db.applications[applicationId]? with
  | none => .error (.badRequest "Cette candidature n'est plus en attente")
  | some app =>
    if app.status ≠ .pending ∧ app.status ≠ .viewed then
      .error (.badRequest "Cette candidature n'est plus en attente")
    else if app.assignment.isSome then
      .error (.error "Unique constraint failed on the fields: (application_id)")
    else
      let currentAcceptedCount :=
        (db.applicationsIn offerId fun s => s = .accepted || s = .waitingPayment).length
      if quantity ≤ currentAcceptedCount then
        .error (.conflict "Cette offre a déjà atteint sa capacité maximale de candidats acceptés")
      else
        let offerStatus : JobOfferStatus :=
          if quantity ≤ currentAcceptedCount + 1 then .filled else .partiallyFilled
        let accepted := (db.setApplication applicationId fun a =>
          { a with
            status := .waitingPayment
            assignment := some .confirmed }).setOfferStatus offerId offerStatus
        match accepted.initiateUnlock applicationId employerId terms with
        | .error e => .error e
        | .ok db =>
          if offerStatus = .filled then
            .ok (db.rejectApplications ((db.applicationsIn offerId fun s =>
              s = .pending || s = .viewed).filter fun i => i ≠ applicationId))
          else .ok db

/-- The transaction of `cancel`, from the status that was read. -/
def cancel (db : Db) (applicationId offerId : ℕ) (readStatus : ApplicationStatus)
    (isReversibleHire : Bool) : Except Exn Db :=
  match db.applications[applicationId]? with
  | none => .error (.error "Record to update not found")
  | some fresh =>
    if fresh.status = .cancelled then
      .error (.badRequest "Cette candidature est déjà annulée")
    else
      let committed :=
        readStatus = .accepted || readStatus = .waitingPayment || isReversibleHire
      let remainingAccepted := db.countOthers offerId applicationId fun s =>
        s = .accepted || s = .waitingPayment || isReversibleHire && s = .ended
      let reopenStatus : JobOfferStatus :=
        if 0 < remainingAccepted then .partiallyFilled else .active
      let reopened :=
        if !committed then db
        else if isReversibleHire then db.setOfferStatus offerId reopenStatus
        else db.reopenOfferUnlessClosed offerId reopenStatus
      .ok (reopened.setApplication applicationId fun a =>
        { a with
          status := .cancelled
          cancelledFromStatus := readStatus
          assignment :=
            if committed then a.assignment.map fun _ => .cancelledByWorker else a.assignment })

/-- `closeOfferIfAllWorkersDone`. -/
def closeOfferIfAllWorkersDone (db : Db) (offerId : ℕ) : Db :=
  if (db.offers[offerId]?).any fun o => o.status = .completed then db
  else
    let stillWorking := Table.findMany db.applications fun _ a =>
      a.jobOfferId = offerId && (a.status = .accepted || a.status = .started) &&
        a.assignment ≠ some .noShow
    if stillWorking ≠ [] then db
    else
      (db.setOfferStatus offerId .completed).rejectApplications
        (db.applicationsIn offerId ApplicationStatus.isWaiting)

end Db

end Rabotka.Hiring
