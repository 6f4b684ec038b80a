import Rabotka.Publishing.Market

/-!
# Applying to an offer

A worker applies to an offer (`create`), and may walk away (`cancel`); the employer rejects an
application or takes an acceptance back, and the team archives and restores applications. One row is
kept for every application; a partial index admits one row of a pair that is not cancelled, archived
or not.

Offers and workers are named by their positions, and what is read of them is chosen by the
environment. The transaction of `create` locks the offer and the one of a cancellation locks the
application, so each is one call; so is every other statement. A call that throws changes nothing.
-/

namespace Rabotka.Applying

open Async
open Hiring (ApplicationStatus EmploymentType JobOfferStatus)
open Publishing (AccountStatus VerificationStatus Exn)

/-! ### Rows -/

inductive ApplicationCancelledBy
  | worker | employer | system
  deriving DecidableEq

structure Application where
  jobOfferId : ℕ
  workerId : ℕ
  status : ApplicationStatus := .pending
  cancelledBy : Option ApplicationCancelledBy := none
  createdAt : ℤ
  deleted : Bool := false
  deriving DecidableEq

/-- The application is one of the pair. -/
def Application.isOf (r : Application) (jobOfferId workerId : ℕ) : Bool :=
  r.jobOfferId = jobOfferId && r.workerId = workerId

/-- What the partial index covers. -/
def Application.indexed (r : Application) : Bool := r.status ≠ .cancelled

structure World where
  now : ℤ := 0
  applications : List Application := []
  deriving DecidableEq

/-- What does not change during a run. -/
structure Setting where
  maxDailyApplications : ℕ

/-- A job offer, as far as it is read. -/
structure Offer where
  employerId : ℕ := 0
  status : JobOfferStatus := .active
  deleted : Bool := false
  employerDeleted : Bool := false
  employmentType : EmploymentType := .mission
  scheduledAt : Option ℤ := none
  deriving DecidableEq

/-- The offer recruits. -/
def Offer.recruits (o : Offer) : Bool := o.status = .active || o.status = .partiallyFilled

/-- A worker's profile, as far as it is read. -/
structure Worker where
  status : AccountStatus := .active
  isWorker : Bool := true
  verificationStatus : VerificationStatus := .verified
  deriving DecidableEq

/-! ### Who may apply again -/

inductive ReapplyDecision
  | allow | blockedActive | blockedSelfCancelled
  deriving DecidableEq

def reapplyDecision (rows : List Application) : ReapplyDecision :=
  let live := rows.filter fun r => !r.deleted
  if live.any fun r => r.status ≠ .cancelled then .blockedActive
  else if live.any fun r => r.cancelledBy = some .worker then .blockedSelfCancelled
  else .allow

/-- One hour, in milliseconds: the offset of local time. -/
def offsetMs : ℤ := 60 * 60 * 1000

/-- 24 hours, in milliseconds. -/
def dayMs : ℤ := 24 * offsetMs

/-- The last local midnight. -/
def startOfBusinessDay (now : ℤ) : ℤ := (now + offsetMs) / dayMs * dayMs - offsetMs

/-! ### Calls -/

/-- What the environment chooses at a call. -/
structure Env where
  offer : Option Offer := some {}
  worker : Option Worker := some {}
  unpaidPenalties : ℕ := 0
  oldPenalties : ℕ := 0
  hardBlockDays : ℕ := 3
  answersRefused : Option String := none
  deriving DecidableEq

/-- What the transaction of an application answers. -/
inductive Inserted
  | row (id : ℕ)
  | closed
  | taken
  deriving DecidableEq

inductive Cmd
  | findOffer (jobOfferId : ℕ)
  | findWorker (workerId : ℕ)
  | countUnpaidPenalties (workerId : ℕ)
  | getPenaltyHardBlockDays
  | countOldPenalties (workerId : ℕ)
  | findPair (jobOfferId workerId : ℕ)
  | getFees
  | checkAnswers (jobOfferId : ℕ)
  | dateNow
  | countToday (workerId : ℕ) (since : ℤ)
  | insert (jobOfferId workerId : ℕ)
  | findApplication (id : ℕ)
  | cancel (id : ℕ) (cancelledBy : ApplicationCancelledBy)
  | reject (id : ℕ)
  | progress (id : ℕ) (status : ApplicationStatus)
  | archive (id : ℕ)
  | restore (id : ℕ)
  | elapse (milliseconds : ℕ)

abbrev Resp : Cmd → Type
  | .findOffer _ => Option Offer
  | .findWorker _ => Option Worker
  | .countUnpaidPenalties _ => ℕ
  | .getPenaltyHardBlockDays => ℕ
  | .countOldPenalties _ => ℕ
  | .findPair _ _ => List Application
  | .getFees => ℕ
  | .checkAnswers _ => Option String
  | .dateNow => ℤ
  | .countToday _ _ => ℕ
  | .insert _ _ => Inserted
  | .findApplication _ => Option (Application × Offer)
  | .cancel _ _ => Bool
  | .reject _ => Bool
  | _ => Unit

/-- The applications of a pair. -/
def World.pair (w : World) (jobOfferId workerId : ℕ) : List Application :=
  w.applications.filter fun r => r.isOf jobOfferId workerId

/-- `countApplicationsToday`. -/
def Application.countedToday (workerId : ℕ) (since : ℤ) (r : Application) : Bool :=
  r.workerId = workerId && !r.deleted && since ≤ r.createdAt

/-- `cancellationPatch`. -/
def Application.cancelled (cancelledBy : ApplicationCancelledBy) (r : Application) : Application :=
  { r with status := .cancelled, cancelledBy := some cancelledBy }

/-- A cancellation finds the application not cancelled. -/
def cancelRow (t : List Application) (id : ℕ) (cancelledBy : ApplicationCancelledBy) :
    Option (List Application) :=
  Table.claim t id Application.indexed (Application.cancelled cancelledBy)

/-- A rejection is written whatever the status, where the index admits it. -/
def rejectRow (t : List Application) (id : ℕ) : Option (List Application) :=
  Table.claim t id
    (fun r => r.indexed || !t.any fun r' => r'.indexed && r'.isOf r.jobOfferId r.workerId)
    fun r => { r with status := .rejected }

/-- An application moves on, but not from or to its cancellation. -/
def Application.progressed (status : ApplicationStatus) (r : Application) : Application :=
  if r.status = .cancelled ∨ status = .cancelled then r else { r with status }

/-- What a command does. -/
def exec (s : Setting) (w : World) (ε : Env) : (c : Cmd) → World × Resp c
  | .findOffer _ => (w, ε.offer)
  | .findWorker _ => (w, ε.worker)
  | .countUnpaidPenalties _ => (w, ε.unpaidPenalties)
  | .getPenaltyHardBlockDays => (w, ε.hardBlockDays)
  | .countOldPenalties _ => (w, ε.oldPenalties)
  | .findPair jobOfferId workerId => (w, w.pair jobOfferId workerId)
  | .getFees => (w, s.maxDailyApplications)
  | .checkAnswers _ => (w, ε.answersRefused)
  | .dateNow => (w, w.now)
  | .countToday workerId since =>
    (w, w.applications.countP (Application.countedToday workerId since))
  | .insert jobOfferId workerId =>
    if ¬ ε.offer.any fun o => o.recruits && !o.deleted then (w, .closed)
    else if (w.pair jobOfferId workerId).any Application.indexed then (w, .taken)
    else
      let row : Application := { jobOfferId, workerId, createdAt := w.now }
      ({ w with applications := w.applications ++ [row] }, .row w.applications.length)
  | .findApplication id => (w, (w.applications[id]?).bind fun r => ε.offer.map fun o => (r, o))
  | .cancel id cancelledBy =>
    match cancelRow w.applications id cancelledBy with
    | some applications => ({ w with applications }, true)
    | none => (w, false)
  | .reject id =>
    match rejectRow w.applications id with
    | some applications => ({ w with applications }, true)
    | none => (w, false)
  | .progress id status =>
    ({ w with applications := Table.update w.applications id (Application.progressed status) }, ())
  | .archive id =>
    ({ w with applications := Table.update w.applications id fun r => { r with deleted := true } },
      ())
  | .restore id =>
    ({ w with applications := Table.update w.applications id fun r => { r with deleted := false } },
      ())
  | .elapse milliseconds => ({ w with now := w.now + milliseconds }, ())

/-! ### Operations -/

/-- An operation of this service. -/
abbrev Prog (α : Type) := Op Resp Exn α

/-- Issues one call. -/
def issue (c : Cmd) : Prog (Resp c) := Op.cmd c

def refuse {α : Type} (message : String) : Prog α := throw ⟨message⟩

/-- `assertKycVerified`. -/
def assertKycVerified : VerificationStatus → Prog Unit
  | .verified => return
  | .rejected => refuse "Votre vérification d'identité a été refusée. Contactez le support pour régulariser votre situation."
  | .pending => refuse "Votre profil est en cours de vérification. Vous recevrez une notification dès qu'elle sera terminée."

/-- The offer and the worker admit an application. -/
def assertOpen (jobOffer : Option Offer) (worker : Option Worker) (workerId : ℕ) : Prog Unit :=
  match jobOffer.filter fun o => !o.deleted && !o.employerDeleted, worker with
  | none, _ => refuse "Offre non trouvée"
  | _, none => refuse "Profil worker non trouvé"
  | some o, some p =>
    if p.status ≠ .active then refuse "Votre compte doit être actif pour postuler"
    else if p.isWorker = false then refuse "Seuls les workers peuvent postuler aux offres"
    else do
      assertKycVerified p.verificationStatus
      if o.recruits = false then refuse "Cette offre n'est plus disponible"
      else if o.employerId = workerId then
        refuse "Vous ne pouvez pas postuler à votre propre offre"
      else return

/-- No penalty is unpaid. -/
def assertNoPenalty (workerId : ℕ) : Prog Unit := do
  let unpaid ← issue (.countUnpaidPenalties workerId)
  if 0 < unpaid then
    let hardBlockDays ← issue .getPenaltyHardBlockDays
    let old ← issue (.countOldPenalties workerId)
    if 0 < old then
      refuse s!"🚨 Votre compte est bloqué : vous avez des pénalités impayées depuis plus de {hardBlockDays} jour(s). Réglez-les pour postuler à nouveau."
    else
      refuse "Vous avez des pénalités impayées. Veuillez les payer afin de pouvoir postuler à nouveau."
  else return

/-- The rows of the pair admit another application. -/
def assertMayReapply (jobOfferId workerId : ℕ) : Prog Unit := do
  let existing ← issue (.findPair jobOfferId workerId)
  match reapplyDecision existing with
  | .blockedActive => refuse "Vous avez déjà postulé à cette offre"
  | .blockedSelfCancelled =>
    refuse "Vous avez annulé cette candidature. Vous ne pouvez plus postuler à cette offre."
  | .allow => return

/-- The day has room for another application. -/
def assertUnderDailyLimit (workerId maxDailyApplications : ℕ) : Prog Unit := do
  let now ← issue .dateNow
  let todayCount ← issue (.countToday workerId (startOfBusinessDay now))
  if maxDailyApplications ≤ todayCount then
    refuse s!"Vous avez atteint votre limite de {maxDailyApplications} candidatures aujourd'hui. Réessayez demain."
  else return

def create (jobOfferId workerId : ℕ) : Prog Unit := do
  let jobOffer ← issue (.findOffer jobOfferId)
  let worker ← issue (.findWorker workerId)
  assertOpen jobOffer worker workerId
  assertNoPenalty workerId
  assertMayReapply jobOfferId workerId
  let maxDailyApplications ← issue .getFees
  match ← issue (.checkAnswers jobOfferId) with
  | some message => refuse message
  | none =>
    assertUnderDailyLimit workerId maxDailyApplications
    match ← issue (.insert jobOfferId workerId) with
    | .row _ => return
    | .closed => refuse "Cette offre n'est plus disponible"
    | .taken => refuse "P2002"

/-- A hire that may be undone: the offer closed around it. -/
def isReversibleHire (r : Application) (o : Offer) : Bool :=
  r.status = .ended && o.employmentType.closesOnFill

def cancel (applicationId workerId : ℕ) : Prog Unit := do
  match ← issue (.findApplication applicationId) with
  | none => refuse "Candidature non trouvée"
  | some (r, o) =>
    if r.workerId ≠ workerId then refuse "Vous ne pouvez annuler que vos propres candidatures"
    else if r.status ∉ [.accepted, .pending, .viewed, .waitingPayment] ∧
        isReversibleHire r o = false then
      refuse "Cette candidature ne peut plus être annulée"
    else
      let now ← issue .dateNow
      if r.status = .accepted ∧ o.scheduledAt.any fun t => t ≤ now then
        refuse "Cette mission a déjà débuté, vous ne pouvez plus annuler votre candidature"
      else
        let _ ← issue .getFees
        if ← issue (.cancel applicationId .worker) then return
        else refuse "Cette candidature est déjà annulée"

def cancelAcceptedByEmployer (applicationId employerId : ℕ) : Prog Unit := do
  match ← issue (.findApplication applicationId) with
  | none => refuse "Candidature non trouvée"
  | some (r, o) =>
    if o.employerId ≠ employerId then refuse "Vous n'êtes pas l'employeur de cette offre"
    else if r.status ∉ [.accepted, .waitingPayment] ∧ isReversibleHire r o = false then
      refuse "Seule une candidature acceptée ou en attente de paiement peut être annulée ici"
    else if ← issue (.cancel applicationId .employer) then return
    else refuse "Cette candidature est déjà annulée"

def reject (applicationId employerId : ℕ) : Prog Unit := do
  match ← issue (.findApplication applicationId) with
  | none => refuse "Candidature non trouvée"
  | some (r, o) =>
    if o.employerId ≠ employerId then refuse "Vous n'êtes pas l'employeur de cette offre"
    else if r.status ∉ [.pending, .viewed] then refuse "Cette candidature n'est plus en attente"
    else if ← issue (.reject applicationId) then return
    else refuse "P2002"

inductive Request
  | create (jobOfferId workerId : ℕ)
  | cancel (applicationId workerId : ℕ)
  | cancelAcceptedByEmployer (applicationId employerId : ℕ)
  | reject (applicationId employerId : ℕ)
  | timeout (applicationId : ℕ)
  | progress (applicationId : ℕ) (status : ApplicationStatus)
  | archive (applicationId : ℕ)
  | restore (applicationId : ℕ)
  | elapse (milliseconds : ℕ)

def handler : Request → Prog Unit
  | .create jobOfferId workerId => create jobOfferId workerId
  | .cancel applicationId workerId => cancel applicationId workerId
  | .cancelAcceptedByEmployer applicationId employerId =>
    cancelAcceptedByEmployer applicationId employerId
  | .reject applicationId employerId => reject applicationId employerId
  | .timeout applicationId => do let _ ← issue (.cancel applicationId .system)
  | .progress applicationId status => issue (.progress applicationId status)
  | .archive applicationId => issue (.archive applicationId)
  | .restore applicationId => issue (.restore applicationId)
  | .elapse milliseconds => issue (.elapse milliseconds)

/-- The applications with everything that writes them. -/
def service (s : Setting) : Service World Cmd Resp Request Env Exn where
  exec w _ c ε := some (exec s w ε c)
  handler := handler

end Rabotka.Applying
