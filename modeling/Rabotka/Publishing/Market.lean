import Rabotka.Lib.Service
import Rabotka.Publishing.Drafts
import Rabotka.Subscriptions.Schema

/-!
# Publishing

`create` and `republish` put an offer on the market and charge it to the running period of the
business: the charge, the write and what gives the charge back are calls of their own. Profiles,
plans, periods and offers are named by their positions.

Who is a business, the plans and their limits do not change (`Setting`); what is read of an
employer's account and the instant are chosen by the environment, and periods are opened and
revised while calls are in progress. A call that throws changes nothing.
-/

namespace Rabotka.Publishing

open Async
open Hiring (EmploymentType JobOfferStatus)
open Subscriptions (SubscriptionStatus)

/-! ### Tables -/

/-- What is read of a plan. -/
structure Plan where
  name : String := ""
  activeOffersLimit : Option ℕ
  priorityVisibility : Bool := false
  deriving DecidableEq

structure Period where
  businessId : ℕ
  planId : ℕ
  status : SubscriptionStatus := .active
  startsAt : ℤ
  endsAt : ℤ
  offersPublished : ℕ := 0
  deriving DecidableEq

/-- The period is running at this instant. -/
def Period.covers (p : Period) (now : ℤ) : Bool :=
  p.status.isRunning && p.startsAt ≤ now && now < p.endsAt

/-- What does not change during a run. -/
structure Setting where
  /-- The business behind each profile. -/
  profiles : List (Option ℕ)
  plans : List Plan
  detectContacts : String → Bool := fun _ => false

/-- `businessOf`. -/
def Setting.businessOf (s : Setting) (profileId : ℕ) : Option ℕ := (s.profiles[profileId]?).join

/-- `active_offers_limit` of the plan of a period. -/
def Setting.limit (s : Setting) (p : Period) : Option ℕ :=
  (s.plans[p.planId]?).bind Plan.activeOffersLimit

structure World where
  now : ℤ := 0
  periods : List Period := []
  offers : List JobOffer := []
  questions : List (ℕ × QuestionRow) := []
  deriving DecidableEq

/-! ### Calls -/

inductive AccountStatus
  | pendingActivation | active | suspended | banned
  deriving DecidableEq

inductive VerificationStatus
  | pending | verified | rejected
  deriving DecidableEq

/-- A profile, as the two requests read it. -/
structure Employer where
  status : AccountStatus := .active
  isEmployer : Bool := true
  reliabilityScore : Option ℤ := none
  verificationStatus : VerificationStatus := .verified
  deriving DecidableEq

/-- What is read of the configured fees. -/
structure Fees where
  reliabilityScoreMin : ℤ := 0
  penaltyHardBlockDays : ℕ := 3
  deriving DecidableEq

/-- What the environment chooses at a call. -/
structure Env where
  employer : Option Employer := some {}
  fees : Fees := {}
  unpaidPenalties : ℕ := 0
  activeOffers : ℕ := 0
  reference : String := ""
  deriving DecidableEq

/-- What a request publishes. -/
inductive Publication
  | create (dto : CreateJobOfferDto)
  | republish (id : ℕ) (scheduledAt : SentDate)
  deriving DecidableEq

/-- An answer ends a request of a profile. -/
inductive Cmd
  | findEmployer (profileId : ℕ)
  | getFees
  | countUnpaidPenalties (profileId : ℕ)
  | businessOf (profileId : ℕ)
  | dateNow
  | current (businessId : ℕ) (now : ℤ)
  | countActiveOffers (businessId : ℕ)
  | runningPeriods (businessId : ℕ) (now : ℤ)
  | findOffer (id : ℕ)
  | charge (periodId : ℕ) (quota : Option ℕ)
  | release (periodId : ℕ)
  | createOffer (row : String → JobOffer)
  | createQuestions (offerId : ℕ) (questions : List QuestionRow)
  | updateOffer (id : ℕ) (scheduledAt : ℤ) (priorityUntil : Option ℤ)
  | answer (profileId : ℕ) (publication : Publication) (outcome : Except Exn ℕ)
  | elapse (milliseconds : ℕ)
  | openPeriod (period : Period)
  | revisePeriod (id : ℕ) (status : SubscriptionStatus) (startsAt endsAt : ℤ)

abbrev Resp : Cmd → Type
  | .findEmployer _ => Option Employer
  | .getFees => Fees
  | .countUnpaidPenalties _ => ℕ
  | .businessOf _ => Option ℕ
  | .dateNow => ℤ
  | .current _ _ => Option (ℕ × Period)
  | .countActiveOffers _ => ℕ
  | .runningPeriods _ _ => List Period
  | .findOffer _ => Option JobOffer
  | .charge _ _ => Bool
  | .createOffer _ => Option (ℕ × JobOffer)
  | .updateOffer _ _ _ => Option JobOffer
  | _ => Unit

/-- The running periods of a business, by their start. -/
def runningPeriods (w : World) (businessId : ℕ) (p : Period → Bool) : List (ℕ × Period) :=
  (Table.findMany w.periods fun _ r => r.businessId = businessId && r.status.isRunning && p r)
    |>.mergeSort fun a b => a.2.startsAt ≤ b.2.startsAt

/-- One offer more, where the quota has room for it. -/
def Period.hasRoom (quota : Option ℕ) (p : Period) : Bool :=
  quota.all fun q => p.offersPublished < q

/-- One offer more is charged. -/
def Period.chargeOffer (p : Period) : Period := { p with offersPublished := p.offersPublished + 1 }

/-- A charge is given back; never below zero. -/
def Period.releaseOffer (p : Period) : Period := { p with offersPublished := p.offersPublished - 1 }

/-- A period is cancelled, shortened or moved. -/
def Period.revise (status : SubscriptionStatus) (startsAt endsAt : ℤ) (p : Period) : Period :=
  { p with status, startsAt, endsAt }

/-- An offer is on the market again. -/
def JobOffer.reopen (scheduledAt : ℤ) (priorityUntil : Option ℤ) (o : JobOffer) : JobOffer :=
  { o with scheduledAt := some scheduledAt, status := .active, priorityUntil }

/-- What a command does. -/
def exec (s : Setting) (w : World) (ε : Env) : (c : Cmd) → World × Resp c
  | .findEmployer _ => (w, ε.employer)
  | .getFees => (w, ε.fees)
  | .countUnpaidPenalties _ => (w, ε.unpaidPenalties)
  | .businessOf profileId => (w, s.businessOf profileId)
  | .dateNow => (w, w.now)
  | .current businessId now => (w, (runningPeriods w businessId fun p => p.covers now).getLast?)
  | .countActiveOffers _ => (w, ε.activeOffers)
  | .runningPeriods businessId now =>
    (w, (runningPeriods w businessId fun p => now < p.endsAt).map Prod.snd)
  | .findOffer id => (w, w.offers[id]?)
  | .charge periodId quota =>
    match Table.claim w.periods periodId (Period.hasRoom quota) Period.chargeOffer with
    | some periods => ({ w with periods }, true)
    | none => (w, false)
  | .release periodId =>
    ({ w with periods := Table.update w.periods periodId Period.releaseOffer }, ())
  | .createOffer row =>
    if w.offers.any fun o => o.reference = ε.reference then (w, none)
    else ({ w with offers := w.offers ++ [row ε.reference] },
      some (w.offers.length, row ε.reference))
  | .createQuestions offerId questions =>
    ({ w with questions := w.questions ++ questions.map fun q => (offerId, q) }, ())
  | .updateOffer id scheduledAt priorityUntil =>
    let offers := Table.update w.offers id (JobOffer.reopen scheduledAt priorityUntil)
    ({ w with offers }, offers[id]?)
  | .answer _ _ _ => (w, ())
  | .elapse milliseconds => ({ w with now := w.now + milliseconds }, ())
  | .openPeriod period =>
    ({ w with periods := w.periods ++ [{ period with offersPublished := 0 }] }, ())
  | .revisePeriod id status startsAt endsAt =>
    ({ w with periods := Table.update w.periods id (Period.revise status startsAt endsAt) }, ())

/-- A charge takes effect where the period is there and has room. -/
theorem exec_charge (s : Setting) (w : World) (ε : Env) (id : ℕ) (quota : Option ℕ) :
    (∃ r, w.periods[id]? = some r ∧ r.hasRoom quota = true ∧ exec s w ε (.charge id quota) =
      ({ w with periods := Table.update w.periods id Period.chargeOffer }, true)) ∨
    exec s w ε (.charge id quota) = (w, false) := by
  simp only [exec]
  cases hclaim : Table.claim w.periods id (Period.hasRoom quota) Period.chargeOffer with
  | none => exact .inr rfl
  | some periods =>
    obtain ⟨r, hr, hroom, rfl⟩ := Table.claim_eq_some.1 hclaim
    exact .inl ⟨r, hr, hroom, by rw [Table.update_of_some hr]⟩

/-- An offer is inserted where its reference is new. -/
theorem exec_createOffer (s : Setting) (w : World) (ε : Env) (row : String → JobOffer) :
    exec s w ε (.createOffer row) = ({ w with offers := w.offers ++ [row ε.reference] },
      some (w.offers.length, row ε.reference)) ∨ exec s w ε (.createOffer row) = (w, none) := by
  simp only [exec]
  split
  · exact .inr rfl
  · exact .inl rfl

/-- An offer that is there is written. -/
theorem exec_updateOffer (s : Setting) (w : World) (ε : Env) (id : ℕ) (scheduledAt : ℤ)
    (priorityUntil : Option ℤ) :
    (∃ o, w.offers[id]? = some o ∧ exec s w ε (.updateOffer id scheduledAt priorityUntil) =
      ({ w with offers := Table.update w.offers id (JobOffer.reopen scheduledAt priorityUntil) },
        some (o.reopen scheduledAt priorityUntil))) ∨
    w.offers[id]? = none ∧ exec s w ε (.updateOffer id scheduledAt priorityUntil) = (w, none) := by
  simp only [exec]
  cases ho : w.offers[id]? with
  | none =>
    rw [Table.update_of_none ho, ho]
    exact .inr ⟨rfl, rfl⟩
  | some o =>
    have hrow : (Table.update w.offers id (JobOffer.reopen scheduledAt priorityUntil))[id]? =
        some (o.reopen scheduledAt priorityUntil) := by
      simp [Table.getElem?_update, ho]
    rw [hrow]
    exact .inl ⟨o, rfl, rfl⟩

/-! ### Operations -/

/-- An operation of this service. -/
abbrev Prog (α : Type) := Op Resp Exn α

/-- Issues one call. -/
def issue (c : Cmd) : Prog (Resp c) := Op.cmd c

def refuse {α : Type} (message : String) : Prog α := throw ⟨message⟩

/-- A check that throws. -/
def check {α : Type} : Except Exn α → Prog α
  | .ok a => return a
  | .error e => throw e

/-- `NO_PLAN_TO_PUBLISH`. -/
def noPlanToPublish : String :=
  "Choisissez une formule depuis votre espace, rubrique « Abonnement », pour publier vos offres."

def noOfferLeft (planName : String) (activeOffersLimit : Option ℕ) : String :=
  let n := activeOffersLimit.getD 0
  let plural := if 1 < n then "s" else ""
  s!"Votre formule {planName} permet de publier {n} offre{plural} par période, déjà publiée{plural}. Passez à une formule supérieure pour en publier davantage, ou attendez la prochaine période."

/-- `MIN_HOURS_FROM_NOW`, in milliseconds. -/
def minFromNow : ℤ := 4 * 60 * 60 * 1000

/-- `REFERENCE_MAX_ATTEMPTS`. -/
def referenceMaxAttempts : ℕ := 5

variable (s : Setting)

def planName (p : Period) : String := ((s.plans[p.planId]?).map Plan.name).getD ""

/-- The period covering now. -/
def current (businessId : ℕ) : Prog (Option (ℕ × Period)) := do
  let now ← issue .dateNow
  issue (.current businessId now)

def assertCanPublishOffer (employerProfileId : ℕ) : Prog Unit := do
  match ← issue (.businessOf employerProfileId) with
  | none => return
  | some businessId =>
    let sub ← current businessId
    let _ ← issue (.countActiveOffers businessId)
    match sub with
    | none => refuse noPlanToPublish
    | some (_, p) =>
      if (s.limit p).any fun quota => quota - p.offersPublished = 0 then
        refuse (noOfferLeft (planName s p) (s.limit p))
      else return

/-- The end of the continuous run of priority periods covering now. -/
def priorityEnd (now : ℤ) (periods : List Period) : Option ℤ :=
  let visible := fun p : Period => ((s.plans[p.planId]?).map Plan.priorityVisibility).getD false
  match periods with
  | [] => none
  | first :: later =>
    if visible first = false ∨ now < first.startsAt then none
    else
      let rec extend (stop : ℤ) : List Period → ℤ
        | [] => stop
        | p :: ps =>
          if visible p = false ∨ stop < p.startsAt then stop else extend (max stop p.endsAt) ps
      some (extend first.endsAt later)

def priorityUntil (employerProfileId : ℕ) : Prog (Option ℤ) := do
  match ← issue (.businessOf employerProfileId) with
  | none => return none
  | some businessId =>
    let now ← issue .dateNow
    let periods ← issue (.runningPeriods businessId now)
    return priorityEnd s now periods

/-- One offer charged to the running period; none for an employer that is no business. -/
def consumeOffer (employerProfileId : ℕ) : Prog (Option ℕ) := do
  match ← issue (.businessOf employerProfileId) with
  | none => return none
  | some businessId =>
    match ← current businessId with
    | none => refuse noPlanToPublish
    | some (periodId, p) =>
      if ← issue (.charge periodId (s.limit p)) then return some periodId
      else refuse (noOfferLeft (planName s p) (s.limit p))

/-- Gives the charge back if the program throws. -/
def orRelease {α : Type} (charged : Option ℕ) (op : Prog α) : Prog α :=
  tryCatch op fun e =>
    match charged with
    | none => throw e
    | some periodId => do
      issue (.release periodId)
      throw e

/-- Inserts the offer under a new reference, `attempts` times at most. -/
def insertOffer (row : String → JobOffer) : ℕ → Prog ℕ
  | 0 => refuse "Impossible de générer une référence unique pour l'offre"
  | attempts + 1 => do
    match ← issue (.createOffer row) with
    | some (id, _) => return id
    | none => insertOffer row attempts

def saveOffer (row : String → JobOffer) (questions : List QuestionRow) : Prog ℕ := do
  let id ← insertOffer row referenceMaxAttempts
  if questions ≠ [] then
    issue (.createQuestions id questions)
    return id
  else return id

/-- `assertKycVerified`. -/
def assertKycVerified : VerificationStatus → Prog Unit
  | .verified => return
  | .rejected => refuse "Votre vérification d'identité a été refusée. Contactez le support pour régulariser votre situation."
  | .pending => refuse "Votre profil est en cours de vérification. Vous recevrez une notification dès qu'elle sera terminée."

/-- The employer, if its account may publish. -/
def assertAccount (employer : Option Employer) (isNew : Bool) : Prog Employer :=
  match employer with
  | none => refuse "Employeur introuvable"
  | some e =>
    if e.status ≠ .active then refuse "Le profil doit être actif pour publier des offres"
    else if isNew ∧ e.isEmployer = false then
      refuse "Seuls les employeurs peuvent publier des offres d'emploi"
    else do
      assertKycVerified e.verificationStatus
      return e

/-- The penalties do not keep the employer from publishing. -/
def assertNotBlocked (employerId : ℕ) (e : Employer) : Prog Unit := do
  let fees ← issue .getFees
  if e.reliabilityScore.getD 100 ≤ fees.reliabilityScoreMin then
    refuse "Votre compte est pénalisé. Vous ne pouvez pas publier d'offres pour le moment."
  else
    let unpaid ← issue (.countUnpaidPenalties employerId)
    if 0 < unpaid then
      refuse s!"🚨 Votre compte est bloqué : vous avez des pénalités impayées depuis plus de {fees.penaltyHardBlockDays} jour(s). Réglez-les pour publier une offre."
    else return

/-- The date is far enough ahead. -/
def assertAhead (scheduledAt : Option ℤ) : Prog Unit := do
  let now ← issue .dateNow
  if scheduledAt.any fun t => t < now + minFromNow then
    refuse "La date doit être au moins 4 heures dans le futur"
  else return

/-- The instant of a date that can be read. -/
def SentDate.instant : SentDate → Option ℤ
  | .at t => some t
  | .unreadable => none

def create (employerId : ℕ) (dto : CreateJobOfferDto) : Prog ℕ := do
  let employer ← assertAccount (← issue (.findEmployer employerId)) true
  assertNotBlocked employerId employer
  check (validateCreateDto dto)
  let questions ← check (normalizeQuestions s.detectContacts dto.questions)
  assertCanPublishOffer s employerId
  let priority ← priorityUntil s employerId
  let scheduledAt := dto.scheduledAt.bind SentDate.instant
  assertAhead scheduledAt
  let charged ← consumeOffer s employerId
  orRelease charged (saveOffer (dto.baseData employerId scheduledAt priority) questions)

/-- What is checked of an offer before it is republished. -/
def assertExpired (offer : Option JobOffer) (actorProfileId : ℕ) : Prog JobOffer :=
  match offer with
  | none => refuse "Offre d'emploi introuvable"
  | some o =>
    if o.deleted then refuse "Offre d'emploi introuvable"
    else if o.employerId ≠ actorProfileId then refuse "Non autorisé à modifier cette offre"
    else return o

def reopenOffer (id : ℕ) (scheduledAt : ℤ) (priority : Option ℤ) : Prog ℕ := do
  match ← issue (.updateOffer id scheduledAt priority) with
  | some _ => return id
  | none => refuse "P2025"

def republish (id actorProfileId : ℕ) (scheduledAt : SentDate) : Prog ℕ := do
  let offer ← issue (.findOffer id)
  let actor ← issue (.findEmployer actorProfileId)
  let offer ← assertExpired offer actorProfileId
  let _ ← assertAccount actor false
  if offer.status ≠ .expired then refuse "Seule une offre expirée peut être republiée"
  else
    assertCanPublishOffer s actorProfileId
    let priority ← priorityUntil s actorProfileId
    match scheduledAt with
    | .unreadable => refuse "Date invalide"
    | .at t =>
      assertAhead (some t)
      let charged ← consumeOffer s actorProfileId
      orRelease charged (reopenOffer id t priority)

/-- The operation behind a request. -/
def publish (profileId : ℕ) : Publication → Prog ℕ
  | .create dto => create s profileId dto
  | .republish id scheduledAt => republish s id profileId scheduledAt

/-- A request is answered with what the operation returns or throws. -/
def respond (profileId : ℕ) (publication : Publication) : Prog Unit := do
  let outcome ← tryCatch (do return Except.ok (← publish s profileId publication))
    fun e => return Except.error e
  issue (.answer profileId publication outcome)

inductive Request
  | publish (profileId : ℕ) (publication : Publication)
  | elapse (milliseconds : ℕ)
  | openPeriod (period : Period)
  | revisePeriod (id : ℕ) (status : SubscriptionStatus) (startsAt endsAt : ℤ)

def handler : Request → Prog Unit
  | .publish profileId publication => respond s profileId publication
  | .elapse milliseconds => issue (.elapse milliseconds)
  | .openPeriod period => issue (.openPeriod period)
  | .revisePeriod id status startsAt endsAt => issue (.revisePeriod id status startsAt endsAt)

/-- The market with everything that publishes on it. -/
def service : Service World Cmd Resp Request Env Exn where
  exec w _ c ε := some (exec s w ε c)
  handler := handler s

end Rabotka.Publishing
