import Rabotka.Hiring.Schema
import Rabotka.Lib.ReadCommitted
import Rabotka.Lib.Service
import Rabotka.Subscriptions.Schema

/-!
# Quota units

The tables and statements by which contact unlocks draw on the quota of a subscription period:
the counter `unlocks_used` of the period, one usage row for each unit, the unlock attempts that
are covered by a unit, and the writes that start, end and move periods. The statements run at
READ COMMITTED, inside a transaction or outside one, and read the clock and the configured fees
from the environment.

The counter and the usage rows say the same thing twice. `Db.used` is what the counter of a
period says and `Db.held` how many of its units are not given back.
-/

namespace Rabotka.Quotas

open Subscriptions

/-- What a unit covers: an unlock attempt, or a contact record of the business's own search. -/
inductive Target
  | attempt (id : ℕ)
  | contactRecord (id : ℕ)
  deriving DecidableEq

/-- A unit that was used; no two rows have the same target. -/
structure BusinessQuotaUsage where
  subscriptionId : ℕ
  target : Target
  released : Bool
  deriving DecidableEq

/-- The database. The identifier of an attempt is drawn before its row is written, so it stands
beside the row. -/
structure Db where
  periods : Subscriptions.Db
  usages : List BusinessQuotaUsage
  offers : List Hiring.JobOffer
  applications : List Hiring.Application
  attempts : List (ℕ × Hiring.ContactUnlockAttempt)

/-- The environment: the instant of the clock and `getContactUnlockFees`. -/
structure Env where
  now : ℕ
  employerFeeFcfa : ℕ
  workerFeeFcfa : ℕ
  expiryHours : ℕ

inductive Exn
  | notFound (message : String)
  | uniqueViolation
  | subscription (e : Subscriptions.Exn)
  | error (message : String)

/-- The columns of a period that an update may set; nothing sets the counter, the plan or the
business. -/
structure PeriodData where
  status : Option SubscriptionStatus := none
  startsAt : Option ℤ := none
  endsAt : Option ℤ := none
  grantedBy : Option (Option ℕ) := none
  expiredNotifiedAt : Option ℤ := none

/-- The row after an update. -/
def PeriodData.set (data : PeriodData) (r : Subscription) : Subscription :=
  { r with
    status := data.status.getD r.status
    startsAt := data.startsAt.getD r.startsAt
    endsAt := data.endsAt.getD r.endsAt
    grantedBy := data.grantedBy.getD r.grantedBy
    expiredNotifiedAt := data.expiredNotifiedAt.or r.expiredNotifiedAt }

/-! ### Statements -/

inductive Stmt
  | businessOf (profileId : ℕ)
  | current (businessId : ℕ)
  | increment (id : ℕ) (quota : Option ℕ)
  | createUsage (id : ℕ) (target : Target)
  | findUsage (target : Target)
  | releaseUsage (id : ℕ) (target : Target)
  | decrement (id : ℕ)
  | findAttempt (applicationId : ℕ)
  | findApplication (id : ℕ)
  | findOffer (id : ℕ)
  | getContactUnlockFees
  | createAttempt (id : ℕ) (x : Hiring.ContactUnlockAttempt)
  | findPlan (id : ℕ)
  | findPeriods (p : Subscription → Bool) (orderBy : Subscription → ℤ)
  | runningPeriod (businessId : ℕ) (now : ℤ)
  | updatePeriod (id : ℕ) (data : PeriodData)
  | updatePeriods (p : Subscription → Bool) (data : PeriodData)
  | createPeriod (r : Subscription)

/-- The answers. A conditional write says whether it found its row, an insert whether its key was
free, and a write to the periods whether it kept their constraints. The current period comes with
its plan's quota. -/
abbrev Answer : Stmt → Type
  | .businessOf _ => Option ℕ
  | .current _ => Option (ℕ × Option ℕ)
  | .increment _ _ => Bool
  | .createUsage _ _ => Bool
  | .findUsage _ => Option BusinessQuotaUsage
  | .releaseUsage _ _ => Bool
  | .decrement _ => Unit
  | .findAttempt _ => Option (ℕ × Hiring.ContactUnlockAttempt)
  | .findApplication _ => Option Hiring.Application
  | .findOffer _ => Option Hiring.JobOffer
  | .getContactUnlockFees => Env
  | .createAttempt _ _ => Bool
  | .findPlan _ => Option Plan
  | .findPeriods _ _ => List (ℕ × Subscription)
  | .runningPeriod _ _ => Option (ℕ × Subscription × Plan)
  | .updatePeriod _ _ => Except Exn Unit
  | .updatePeriods _ _ => Except Exn Unit
  | .createPeriod _ => Except Exn Unit

inductive Write
  | increment (id : ℕ)
  | decrement (id : ℕ)
  | createUsage (u : BusinessQuotaUsage)
  | releaseUsage (id : ℕ) (target : Target)
  | createAttempt (id : ℕ) (x : Hiring.ContactUnlockAttempt)
  | updatePeriod (id : ℕ) (data : PeriodData)
  | createPeriod (r : Subscription)

inductive Lock
  | period (id : ℕ)
  | usage (target : Target)
  | application (id : ℕ)
  | paymentRequest (id : Option ℕ)
  deriving DecidableEq

namespace Db

/-- The counter of a period. -/
def used (db : Db) (id : ℕ) : ℤ :=
  ((db.periods.subscriptions[id]?).map Subscription.unlocksUsed).getD 0

/-- The usage rows of a period that are not given back. -/
def held (db : Db) (id : ℕ) : ℕ :=
  db.usages.countP fun u => u.subscriptionId = id ∧ u.released = false

/-- The usage row of a target. -/
def usage (db : Db) (target : Target) : Option BusinessQuotaUsage :=
  db.usages.find? fun u => u.target = target

/-- The plan of a period. -/
def planOf (db : Db) (id : ℕ) : Option Plan := do
  let r ← db.periods.subscriptions[id]?
  db.periods.plans[r.planId]?

/-- `current` of a business, with the quota of its plan. -/
def current (db : Db) (businessId : ℕ) (now : ℤ) : Option (ℕ × Option ℕ) := do
  let (id, _) ← db.periods.current businessId now
  let plan ← db.planOf id
  pure (id, plan.unlocksPerPeriod)

/-- Changes the counter of a period. -/
def count (db : Db) (id : ℕ) (n : ℤ) : Db :=
  { db with
    periods := { db.periods with
      subscriptions := Table.update db.periods.subscriptions id fun r =>
        { r with unlocksUsed := r.unlocksUsed + n } } }

def apply (db : Db) : Write → Db
  | .increment id => db.count id 1
  | .decrement id => db.count id (-1)
  | .createUsage u => { db with usages := db.usages ++ [u] }
  | .releaseUsage id target =>
    { db with
      usages := db.usages.map fun u =>
        if u.subscriptionId = id ∧ u.target = target then { u with released := true } else u }
  | .createAttempt id x => { db with attempts := db.attempts ++ [(id, x)] }
  | .updatePeriod id data =>
    { db with
      periods := { db.periods with
        subscriptions := Table.update db.periods.subscriptions id data.set } }
  | .createPeriod r =>
    { db with
      periods := { db.periods with
        -- the default of the column
        subscriptions := db.periods.subscriptions ++ [{ r with unlocksUsed := 0 }] } }

end Db

/-- A write to the periods, where the written table keeps its constraints. -/
def checked (written : Except Subscriptions.Exn Subscriptions.Db) (writes : List Write)
    (locks : List Lock) : Option (Except Exn Unit × List Write × List Lock) :=
  match written with
  | .ok _ => some (.ok (), writes, locks)
  | .error e => some (.error (.subscription e), [], [])

def engine : ReadCommitted.Engine Db Write Lock Stmt Env Answer where
  apply := Db.apply
  run db c ε :=
    match c with
    | .businessOf p => some (db.periods.businessOf p, [], [])
    | .current b => some (db.current b ε.now, [], [])
    | .increment id quota =>
      if id < db.periods.subscriptions.length ∧ quota.all (fun q => db.used id < q) then
        some (true, [.increment id], [.period id])
      else some (false, [], [])
    | .createUsage id target =>
      if db.usage target = none then
        some (true, [.createUsage ⟨id, target, false⟩], [.usage target])
      else some (false, [], [])
    | .findUsage target => some (db.usage target, [], [])
    | .releaseUsage id target =>
      if db.usage target = some ⟨id, target, false⟩ then
        some (true, [.releaseUsage id target], [.usage target])
      else some (false, [], [])
    | .decrement id =>
      if 0 < db.used id then some ((), [.decrement id], [.period id]) else some ((), [], [])
    | .findAttempt a => some (db.attempts.find? fun x => x.2.applicationId = a, [], [])
    | .findApplication a => some (db.applications[a]?, [], [])
    | .findOffer o => some (db.offers[o]?, [], [])
    | .getContactUnlockFees => some (ε, [], [])
    | .createAttempt id x =>
      if db.attempts.any fun y => y.1 = id ∨ y.2.applicationId = x.applicationId then
        some (false, [], [])
      else some (true, [.createAttempt id x], [.application x.applicationId])
    | .findPlan id => some (db.periods.plans[id]?, [], [])
    | .findPeriods p orderBy => some (db.periods.find p orderBy, [], [])
    | .runningPeriod b now => some (Subscriptions.runningPeriod db.periods b now, [], [])
    | .updatePeriod id data =>
      checked (db.periods.updateSubscription id data.set) [.updatePeriod id data] [.period id]
    | .updatePeriods p data =>
      let ids := (Table.findMany db.periods.subscriptions fun _ => p).map Prod.fst
      checked (db.periods.updateSubscriptions (fun _ => p) data.set)
        (ids.map fun id => .updatePeriod id data) (ids.map .period)
    | .createPeriod r =>
      checked (db.periods.createSubscription { r with unlocksUsed := 0 }) [.createPeriod r]
        [.paymentRequest r.paymentRequestId]

abbrev Store := ReadCommitted.Store Db Write Lock

abbrev Cmd := ReadCommitted.Cmd Stmt

abbrev Resp : Cmd → Type := ReadCommitted.Resp Answer

end Rabotka.Quotas

/-!
## Operations on quota units

`consumeUnlock`, `consumeDirectUnlock` and `releaseUnlock`, in a transaction of their caller or
outside one, `initiateUnlock` and `refundEmployerSide` around them, and `createPeriod` and
`startQueuedNow`, statement by statement. The wallet credit of a refund, the priority of the
offers and the messages are left out.
-/

namespace Rabotka.Quotas

open Async Subscriptions

/-- An operation of this service. -/
abbrev Prog (α : Type) := Op Resp Exn α

/-- Issues one statement. -/
def query (c : Stmt) : Prog (Answer c) := ReadCommitted.query c

/-- A refused write throws. -/
def orThrow : Except Exn Unit → Prog Unit
  | .ok () => pure ()
  | .error e => throw e

/-- An insert whose key is taken throws. -/
def orDuplicate (created : Bool) : Prog Unit :=
  if created then pure () else throw .uniqueViolation

/-! ### Units -/

def consume (employerProfileId : ℕ) (target : Target) : Prog Bool := do
  match ← query (.businessOf employerProfileId) with
  | none => return false
  | some businessId =>
    match ← query (.current businessId) with
    | none => return false
    | some (id, quota) =>
      if !(← query (.increment id quota)) then return false
      orDuplicate (← query (.createUsage id target))
      return true

def consumeUnlock (employerProfileId attemptId : ℕ) : Prog Bool :=
  consume employerProfileId (.attempt attemptId)

def consumeDirectUnlock (employerProfileId contactRecordId : ℕ) : Prog Bool :=
  consume employerProfileId (.contactRecord contactRecordId)

def releaseUnlock (attemptId : ℕ) : Prog Bool := do
  match ← query (.findUsage (.attempt attemptId)) with
  | none => return false
  | some usage =>
    if usage.released then return false
    if !(← query (.releaseUsage usage.subscriptionId usage.target)) then return false
    query (.decrement usage.subscriptionId)
    return true

/-- `refundEmployerSide`: the francs that are refunded, none where a unit is given back. -/
def refundEmployerSide (attemptId employerAmount : ℕ) : Prog ℕ := do
  if ← releaseUnlock attemptId then return 0
  return employerAmount

/-! ### Unlock attempts -/

/-- When a new attempt expires. -/
def unlockExpiry (now expiryHours : ℕ) (scheduledAt : Option ℕ) : ℕ :=
  let hour := 60 * 60 * 1000
  let configWindow := now + expiryHours * hour
  let minExpiry := now + 2 * hour
  let preferred := match scheduledAt with
    | some t => if t - 2 * hour < configWindow then t - 2 * hour else configWindow
    | none => configWindow
  if minExpiry < preferred then preferred else minExpiry

/-- The row that `initiateUnlock` creates. -/
def newAttempt (applicationId employerId : ℕ) (app : Hiring.Application)
    (offer : Hiring.JobOffer) (fees : Env) (coveredByPlan : Bool) :
    Hiring.ContactUnlockAttempt :=
  let employerAlreadyPaid := offer.coversEmployer || coveredByPlan
  { applicationId
    jobOfferId := app.jobOfferId
    workerId := app.workerId
    employerId
    status := if employerAlreadyPaid then .pendingWorker else .pendingBoth
    employerPaid := employerAlreadyPaid
    workerPaid := false
    employerAmount := if coveredByPlan then 0 else fees.employerFeeFcfa
    workerAmount := fees.workerFeeFcfa
    expiresAt := unlockExpiry fees.now fees.expiryHours offer.scheduledAt }

/-- The end of `initiateUnlock`: the row is created, and where that throws outside a transaction
the unit is given back. -/
def createAttempt (inTransaction : Bool) (attemptId : ℕ) (x : Hiring.ContactUnlockAttempt)
    (coveredByPlan : Bool) : Prog Unit :=
  tryCatch (do orDuplicate (← query (.createAttempt attemptId x)))
    fun e => do
      if coveredByPlan && !inTransaction then
        tryCatch (do let _ ← releaseUnlock attemptId) fun _ => pure ()
      throw e

/-- `initiateUnlock`, in a transaction of its caller or not; `attemptId` is what `randomUUID`
returns. -/
def initiateUnlock (inTransaction : Bool) (applicationId employerId attemptId : ℕ) :
    Prog Unit := do
  match ← query (.findAttempt applicationId) with
  | some _ => return
  | none =>
    match ← query (.findApplication applicationId) with
    | none => throw (.notFound "Candidature introuvable")
    | some app =>
      match ← query (.findOffer app.jobOfferId) with
      | none => throw (.notFound "Offre introuvable")
      | some offer =>
        if offer.deleted then throw (.notFound "Offre introuvable")
        let fees ← query .getContactUnlockFees
        let coveredByPlan ← if offer.coversEmployer then pure false
          else consumeUnlock employerId attemptId
        let x := newAttempt applicationId employerId app offer fees coveredByPlan
        createAttempt inTransaction attemptId x coveredByPlan

/-! ### Periods -/

/-- Moves queued periods, one after the other. -/
def moveQueued (shift : ℤ) (queued : List (ℕ × Subscription)) : Prog Unit :=
  queued.forM fun (id, q) => do
    orThrow (← query (.updatePeriod id
      { startsAt := some (q.startsAt + shift), endsAt := some (q.endsAt + shift) }))

/-- Where a running trial is in the way of a paid plan, it is cancelled. -/
def cancelTrial (businessId : ℕ) (now : ℤ) : Prog Unit := do
  let trials ← query (.findPeriods (fun r => r.businessId = businessId ∧ r.status = .trial ∧
    now < r.endsAt) fun _ => 0)
  match trials.head? with
  | none => return
  | some (id, trial) =>
    orThrow (← query (.updatePeriod id
      { status := some .cancelled
        endsAt := some (if trial.startsAt < now then now else trial.endsAt)
        expiredNotifiedAt := some now }))

/-- The branch of `createPeriod` that ends the running period today. -/
def replacePeriod (businessId planId : ℕ) (plan : Plan) (period : BillingPeriod)
    (origin : Origin) (now : ℤ) (id : ℕ) (running : Subscription) (runningPlan : Plan) :
    Prog Unit := do
  let upgrade := isUpgrade runningPlan plan
  let stop := if upgrade then upgradedEnd now running runningPlan plan period
    else periodEnd now period
  let ended : PeriodData := if upgrade then
      { status := some .expired, endsAt := some now, expiredNotifiedAt := some now }
    else
      { status := some .cancelled, grantedBy := some origin.grantedBy, endsAt := some now,
        expiredNotifiedAt := some now }
  orThrow (← query (.updatePeriod id ended))
  let queued ← query (.findPeriods (fun r => r.businessId = businessId ∧ r.status = .active ∧
    running.endsAt ≤ r.startsAt) fun _ => 0)
  moveQueued (stop - running.endsAt) queued
  orThrow (← query (.createPeriod
    { businessId, planId, status := .active, billingPeriod := period, startsAt := now,
      endsAt := stop, paymentRequestId := origin.paymentRequestId,
      grantedBy := origin.grantedBy }))

/-- The branch of `createPeriod` that queues the period. -/
def queuePeriod (businessId planId : ℕ) (period : BillingPeriod) (origin : Origin) (now : ℤ) :
    Prog Unit := do
  let latest ← query (.findPeriods (fun r => r.businessId = businessId ∧ r.status = .active ∧
    now < r.endsAt) fun r => -r.endsAt)
  let starts := nextPeriodStart now (latest.head?.map fun x => x.2.endsAt)
  orThrow (← query (.createPeriod
    { businessId, planId, status := .active, billingPeriod := period, startsAt := starts,
      endsAt := periodEnd starts period, paymentRequestId := origin.paymentRequestId,
      grantedBy := origin.grantedBy }))

def createPeriod (businessId planId : ℕ) (period : BillingPeriod) (origin : Origin) (now : ℤ) :
    Prog Unit := do
  match ← query (.findPlan planId) with
  | none => return
  | some plan =>
    if plan.deleted && origin.paymentRequestId.isNone then return
    ReadCommitted.transaction do
      cancelTrial businessId now
      match ← query (.runningPeriod businessId now) with
      | some (id, running, runningPlan) =>
        if isUpgrade runningPlan plan || origin.replaceRunning then
          replacePeriod businessId planId plan period origin now id running runningPlan
        else queuePeriod businessId planId period origin now
      | none => queuePeriod businessId planId period origin now

def startQueuedNow (businessId subscriptionId : ℕ) (now : ℤ) : Prog Unit :=
  ReadCommitted.transaction do
    let queued ← query (.findPeriods (fun r => r.businessId = businessId ∧ r.status = .active ∧
      now < r.startsAt) Subscription.startsAt)
    match queued with
    | [] => throw (.notFound "Aucune formule à venir à démarrer.")
    | (id, next) :: later =>
      if id ≠ subscriptionId then
        throw (.notFound (if queued.any fun q => q.1 = subscriptionId
          then "Commencez d’abord la formule qui suit directement la vôtre."
          else "Aucune formule à venir à démarrer."))
      orThrow (← query (.updatePeriods (fun r => r.businessId = businessId ∧
        r.status.isRunning ∧ r.startsAt ≤ now ∧ now < r.endsAt)
        { status := some .expired, endsAt := some now, expiredNotifiedAt := some now }))
      let stop := periodEnd now next.billingPeriod
      moveQueued (stop - next.endsAt) later
      orThrow (← query (.updatePeriod id { startsAt := some now, endsAt := some stop }))

/-! ### Requests -/

/-- A call that a caller's transaction may also contain. -/
inductive Call
  | consumeUnlock (employerProfileId attemptId : ℕ)
  | consumeDirectUnlock (employerProfileId contactRecordId : ℕ)
  | releaseUnlock (attemptId : ℕ)
  | refundEmployerSide (attemptId employerAmount : ℕ)
  | initiateUnlock (applicationId employerId attemptId : ℕ)

def Call.perform (inTransaction : Bool) : Call → Prog Unit
  | .consumeUnlock p a => do let _ ← Quotas.consumeUnlock p a
  | .consumeDirectUnlock p r => do let _ ← Quotas.consumeDirectUnlock p r
  | .releaseUnlock a => do let _ ← Quotas.releaseUnlock a
  | .refundEmployerSide a amount => do let _ ← Quotas.refundEmployerSide a amount
  | .initiateUnlock application employer a =>
    Quotas.initiateUnlock inTransaction application employer a

/-- A request: one call on its own, a transaction that contains calls, or a change of
periods. -/
inductive Request
  | call (c : Call)
  | inTransaction (cs : List Call)
  | createPeriod (businessId planId : ℕ) (period : BillingPeriod) (origin : Origin) (now : ℤ)
  | startQueuedNow (businessId subscriptionId : ℕ) (now : ℤ)

def handler : Request → Prog Unit
  | .call c => c.perform false
  | .inTransaction cs => ReadCommitted.transaction (cs.forM (Call.perform true))
  | .createPeriod b planId period origin now => createPeriod b planId period origin now
  | .startQueuedNow b id now => startQueuedNow b id now

/-- The service. -/
def service : Service Store Cmd Resp Request Env Exn where
  exec s i c ε := s.exec engine i c ε
  handler := handler

end Rabotka.Quotas
