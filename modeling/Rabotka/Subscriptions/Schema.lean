import Mathlib.Data.List.Sort
import Mathlib.Data.Rat.Floor
import Rabotka.Lib.Calendar
import Rabotka.Lib.Table

/-!
# Business subscriptions

The tables of the business plans: the plans with their prices and quotas, the periods a business
has had, has or has queued, and the quota units that contact unlocks have used. Instants are
milliseconds. A write that would leave a period without a length, a negative counter, a second
trial or a second period for one payment is refused, as the constraints of the tables demand.

The pricing and date rules come first, as `subscription-rules` has them.
-/

namespace Rabotka.Subscriptions

inductive SubscriptionStatus
  | trial | active | expired | cancelled
  deriving DecidableEq

/-- `RUNNING`. -/
def SubscriptionStatus.isRunning : SubscriptionStatus → Bool
  | .trial | .active => true
  | _ => false

inductive BillingPeriod
  | trial | monthly | annual
  deriving DecidableEq

structure Plan where
  code : String
  monthlyPriceFcfa : ℤ
  annualPriceFcfa : ℤ
  unlocksPerPeriod : Option ℕ
  isActive : Bool
  deleted : Bool
  deriving DecidableEq

structure Subscription where
  businessId : ℕ
  planId : ℕ
  status : SubscriptionStatus
  billingPeriod : BillingPeriod
  startsAt : ℤ
  endsAt : ℤ
  unlocksUsed : ℤ := 0
  paymentRequestId : Option ℕ := none
  grantedBy : Option ℕ := none
  expiredNotifiedAt : Option ℤ := none
  deriving DecidableEq

/-- What is read of a payment request. -/
structure PaymentRequest where
  profileId : ℕ
  isBusinessSubscription : Bool
  isApproved : Bool
  businessPlanId : Option ℕ
  businessBillingPeriod : Option BillingPeriod
  deriving DecidableEq

/-- What is read of a profile: whether it is a business, and which one. -/
structure Profile where
  isBusiness : Bool
  business : Option ℕ
  deriving DecidableEq

/-- `getBusinessSubscriptionSettings`. -/
structure Settings where
  trialDays : ℕ
  trialPlanCode : Option String

/-! ### The rules -/

/-- The end of a period that starts at `start`. -/
def periodEnd (start : ℤ) (period : BillingPeriod) (trialDays : ℕ := 0) : ℤ :=
  match period with
  | .trial => start + trialDays * (24 * 60 * 60 * 1000)
  | .annual => Calendar.addMonthsClamped start 12
  | .monthly => Calendar.addMonthsClamped start 1

/-- When a new period starts. -/
def nextPeriodStart (now : ℤ) (latestEnd : Option ℤ) : ℤ :=
  match latestEnd with
  | some e => if now < e then e else now
  | none => now

/-- The price of a period for a plan. -/
def priceFor (plan : Plan) : BillingPeriod → ℤ
  | .annual => plan.annualPriceFcfa
  | .monthly => plan.monthlyPriceFcfa
  | .trial => 0

/-- A move to a dearer plan, by monthly price. -/
def isUpgrade (current next : Plan) : Bool :=
  current.monthlyPriceFcfa < next.monthlyPriceFcfa

/-- `Math.round`: to the nearest integer, halves upwards. -/
def mathRound (x : ℚ) : ℤ := ⌊x + 1 / 2⌋

/-- The money that an upgrade counts for the rest of a period: its list price over its whole
span. -/
def credit (now : ℤ) (running : Subscription) (plan : Plan) : ℚ :=
  priceFor plan running.billingPeriod * (running.endsAt - now) / (running.endsAt - running.startsAt)

/-- The end of the period that an upgrade starts now. -/
def upgradedEnd (now : ℤ) (running : Subscription) (plan next : Plan) (period : BillingPeriod) :
    ℤ :=
  let stop := periodEnd now period
  let priceNew := priceFor next period
  if running.endsAt - running.startsAt ≤ 0 ∨ running.endsAt - now ≤ 0 ∨
      priceFor plan running.billingPeriod ≤ 0 ∨ priceNew ≤ 0 then stop
  else stop + mathRound (credit now running plan / priceNew * (stop - now : ℤ))

/-! ### The database -/

structure Db where
  plans : List Plan
  subscriptions : List Subscription
  profiles : List Profile
  requests : List PaymentRequest
  settings : Settings

inductive Exn
  | badRequest (message : String)
  | notFound (message : String)
  | conflict (message : String)
  | constraint (name : String)
  deriving DecidableEq

namespace Db

/-- `findMany` with `orderBy`; the first element is what `findFirst` returns. -/
def find (db : Db) (p : Subscription → Bool) (orderBy : Subscription → ℤ) :
    List (ℕ × Subscription) :=
  (Table.findMany db.subscriptions fun _ => p).insertionSort fun x y =>
    orderBy x.2 ≤ orderBy y.2

/-- A written table, where it keeps the constraints on its rows. -/
def withSubscriptions (db : Db) (rows : List Subscription) : Except Exn Db :=
  if ∀ r ∈ rows, r.startsAt < r.endsAt then .ok { db with subscriptions := rows }
  else .error (.constraint "business_subscriptions_period_check")

def updateSubscription (db : Db) (id : ℕ) (f : Subscription → Subscription) : Except Exn Db :=
  db.withSubscriptions (Table.update db.subscriptions id f)

def updateSubscriptions (db : Db) (p : ℕ → Subscription → Bool) (f : Subscription → Subscription) :
    Except Exn Db :=
  db.withSubscriptions (Table.updateMany db.subscriptions p f)

/-- The new row is the last one. -/
def createSubscription (db : Db) (r : Subscription) : Except Exn Db :=
  if r.billingPeriod = .trial ∧
      db.subscriptions.any fun q => q.businessId = r.businessId ∧ q.billingPeriod = .trial then
    .error (.constraint "business_subscriptions_one_trial")
  else if r.paymentRequestId.isSome ∧
      db.subscriptions.any fun q => q.paymentRequestId = r.paymentRequestId then
    .error (.constraint "business_subscriptions_payment_request_id_key")
  else db.withSubscriptions (db.subscriptions ++ [r])

/-- The business behind a profile. -/
def businessOf (db : Db) (profileId : ℕ) : Option ℕ := do
  let profile ← db.profiles[profileId]?
  if profile.isBusiness then profile.business else none

/-- The period covering now. -/
def current (db : Db) (businessId : ℕ) (now : ℤ) : Option (ℕ × Subscription) :=
  (db.find (fun r => r.businessId = businessId ∧ r.status.isRunning ∧ r.startsAt ≤ now ∧
    now < r.endsAt) fun r => -r.startsAt).head?

end Db

end Rabotka.Subscriptions

/-!
## The lifecycle of subscription periods

The operations that start, end, cancel and move the periods of a business, each on the database
it finds. A transaction ends with the new database or with an exception and the old one; the
operations that write outside a transaction (`deletePlan`, `sweep`) keep what they have written.
Messages, reminders and the priority of the offers are left out.
-/

namespace Rabotka.Subscriptions

/-- Who a new period comes from. -/
structure Origin where
  paymentRequestId : Option ℕ := none
  grantedBy : Option ℕ := none
  replaceRunning : Bool := false

/-- Where a running trial is in the way of a paid plan, it is cancelled. -/
def cancelTrial (db : Db) (businessId : ℕ) (now : ℤ) : Except Exn Db :=
  match (db.find (fun r => r.businessId = businessId ∧ r.status = .trial ∧ now < r.endsAt)
    fun _ => 0).head? with
  | none => .ok db
  | some (id, trial) =>
    db.updateSubscription id fun r =>
      { r with
        status := .cancelled
        endsAt := if trial.startsAt < now then now else trial.endsAt
        expiredNotifiedAt := some now }

/-- The running paid period, with its plan. -/
def runningPeriod (db : Db) (businessId : ℕ) (now : ℤ) : Option (ℕ × Subscription × Plan) := do
  let (id, running) ← (db.find (fun r => r.businessId = businessId ∧ r.status = .active ∧
    r.startsAt ≤ now ∧ now < r.endsAt) fun r => -r.startsAt).head?
  let plan ← db.plans[running.planId]?
  pure (id, running, plan)

/-- Moves queued periods, one after the other. -/
def moveQueued (shift : ℤ) : List (ℕ × Subscription) → Db → Except Exn Db
  | [], db => .ok db
  | (id, q) :: queued, db => do
    let db ← db.updateSubscription id fun r =>
      { r with startsAt := q.startsAt + shift, endsAt := q.endsAt + shift }
    moveQueued shift queued db

/-- The branch of `createPeriod` that ends the running period today. -/
def replacePeriod (db : Db) (businessId planId : ℕ) (plan : Plan) (period : BillingPeriod)
    (origin : Origin) (now : ℤ) (id : ℕ) (running : Subscription) (runningPlan : Plan) :
    Except Exn Db := do
  let upgrade := isUpgrade runningPlan plan
  let stop := if upgrade then upgradedEnd now running runningPlan plan period
    else periodEnd now period
  let db ← db.updateSubscription id fun r =>
    if upgrade then
      { r with status := .expired, endsAt := now, expiredNotifiedAt := some now }
    else
      { r with
        status := .cancelled
        grantedBy := origin.grantedBy
        endsAt := now
        expiredNotifiedAt := some now }
  let queued := db.find (fun r => r.businessId = businessId ∧ r.status = .active ∧
    running.endsAt ≤ r.startsAt) fun _ => 0
  let db ← moveQueued (stop - running.endsAt) queued db
  db.createSubscription
    { businessId, planId, status := .active, billingPeriod := period, startsAt := now,
      endsAt := stop, paymentRequestId := origin.paymentRequestId, grantedBy := origin.grantedBy }

/-- The branch of `createPeriod` that queues the period. -/
def queuePeriod (db : Db) (businessId planId : ℕ) (period : BillingPeriod) (origin : Origin)
    (now : ℤ) : Except Exn Db :=
  let latest := (db.find (fun r => r.businessId = businessId ∧ r.status = .active ∧
    now < r.endsAt) fun r => -r.endsAt).head?
  let starts := nextPeriodStart now (latest.map fun x => x.2.endsAt)
  db.createSubscription
    { businessId, planId, status := .active, billingPeriod := period, startsAt := starts,
      endsAt := periodEnd starts period, paymentRequestId := origin.paymentRequestId,
      grantedBy := origin.grantedBy }

/-- The transaction of `createPeriod`. -/
def insertPeriod (db : Db) (businessId planId : ℕ) (plan : Plan) (period : BillingPeriod)
    (origin : Origin) (now : ℤ) : Except Exn Db := do
  let db ← cancelTrial db businessId now
  match runningPeriod db businessId now with
  | some (id, running, runningPlan) =>
    if isUpgrade runningPlan plan || origin.replaceRunning then
      replacePeriod db businessId planId plan period origin now id running runningPlan
    else queuePeriod db businessId planId period origin now
  | none => queuePeriod db businessId planId period origin now

/-- `createPeriod`: `none` where the plan is not granted. The created row is the last one. -/
def createPeriod (db : Db) (businessId planId : ℕ) (period : BillingPeriod) (origin : Origin)
    (now : ℤ) : Except Exn (Option Db) :=
  match db.plans[planId]? with
  | none => .ok none
  | some plan =>
    if plan.deleted ∧ origin.paymentRequestId = none then .ok none
    else (insertPeriod db businessId planId plan period origin now).map some

/-- `endWithQueue`. -/
def endWithQueue (db : Db) (businessId subscriptionId : ℕ) (adminUserId : Option ℕ) (now : ℤ) :
    Except Exn Db :=
  match db.subscriptions[subscriptionId]? with
  | none => .error (.notFound "Période introuvable ou déjà terminée.")
  | some sub =>
    if sub.businessId ≠ businessId ∨ sub.status.isRunning = false then
      .error (.notFound "Période introuvable ou déjà terminée.")
    else do
      let db ← db.updateSubscription subscriptionId fun r =>
        { r with
          status := .cancelled
          grantedBy := adminUserId
          endsAt := if sub.startsAt < now then now else r.endsAt
          expiredNotifiedAt := some now }
      db.updateSubscriptions
        (fun id r => r.businessId = businessId ∧ r.status.isRunning ∧ sub.startsAt < r.startsAt ∧
          id ≠ subscriptionId)
        fun r =>
          { r with
            status := .cancelled
            grantedBy := adminUserId
            expiredNotifiedAt := some now }

/-- The transaction of `startQueuedNow`. -/
def startQueued (db : Db) (businessId subscriptionId : ℕ) (now : ℤ) : Except Exn Db :=
  let queued := db.find (fun r => r.businessId = businessId ∧ r.status = .active ∧
    now < r.startsAt) Subscription.startsAt
  match queued with
  | [] => .error (.notFound "Aucune formule à venir à démarrer.")
  | (id, next) :: later =>
    if id ≠ subscriptionId then
      .error (.notFound (if queued.any fun q => q.1 = subscriptionId
        then "Commencez d’abord la formule qui suit directement la vôtre."
        else "Aucune formule à venir à démarrer."))
    else do
      let db ← db.updateSubscriptions
        (fun _ r => r.businessId = businessId ∧ r.status.isRunning ∧ r.startsAt ≤ now ∧
          now < r.endsAt)
        fun r => { r with status := .expired, endsAt := now, expiredNotifiedAt := some now }
      let stop := periodEnd now next.billingPeriod
      let db ← moveQueued (stop - next.endsAt) later db
      db.updateSubscription id fun r => { r with startsAt := now, endsAt := stop }

/-! ### The operations -/

/-- The database after a transaction: what it has written, or nothing. -/
def committed (db : Db) (o : Except Exn Db) : Db × Except Exn Unit :=
  match o with
  | .ok db' => (db', .ok ())
  | .error e => (db, .error e)

def startTrial (db : Db) (businessId : ℕ) (now : ℤ) : Db × Except Exn Unit :=
  if db.settings.trialDays = 0 then (db, .ok ())
  else
    let plan := db.settings.trialPlanCode.bind fun code =>
      Table.findFirst db.plans fun p => p.code = code
    match plan with
    | none => (db, .ok ())
    | some (planId, plan) =>
      if !plan.isActive then (db, .ok ())
      else if db.subscriptions.any fun r => r.businessId = businessId then (db, .ok ())
      else
        match db.createSubscription
          { businessId, planId, status := .trial, billingPeriod := .trial, startsAt := now,
            endsAt := periodEnd now .trial db.settings.trialDays } with
        | .ok db' => (db', .ok ())
        -- the one-trial index: a concurrent approval already started it
        | .error (.constraint "business_subscriptions_one_trial") => (db, .ok ())
        | .error e => (db, .error e)

def activateFromPayment (db : Db) (paymentRequestId : ℕ) (now : ℤ) : Db × Except Exn Unit :=
  match db.requests[paymentRequestId]? with
  | none => (db, .ok ())
  | some request =>
    if !request.isBusinessSubscription || !request.isApproved then (db, .ok ())
    else
      match request.businessPlanId, request.businessBillingPeriod with
      | some planId, some period =>
        match db.businessOf request.profileId with
        | none => (db, .ok ())
        | some businessId =>
          if db.subscriptions.any fun r => r.paymentRequestId = some paymentRequestId then
            (db, .ok ())
          else
            match createPeriod db businessId planId period
              { paymentRequestId := some paymentRequestId } now with
            | .ok (some db') => (db', .ok ())
            | .ok none => (db, .ok ())
            | .error e => (db, .error e)
      | _, _ => (db, .ok ())

def grantByAdmin (db : Db) (businessId planId : ℕ) (period : BillingPeriod)
    (adminUserId : Option ℕ) (startNow : Bool) (now : ℤ) : Db × Except Exn Unit :=
  if period = .trial then
    (db, .error (.badRequest "Choisissez une période mensuelle ou annuelle."))
  else
    match createPeriod db businessId planId period
      { grantedBy := adminUserId, replaceRunning := startNow } now with
    | .ok (some db') => (db', .ok ())
    | .ok none => (db, .error (.notFound "Formule introuvable."))
    | .error e => (db, .error e)

def cancelByAdmin (db : Db) (businessId subscriptionId : ℕ) (adminUserId : Option ℕ) (now : ℤ) :
    Db × Except Exn Unit :=
  committed db (endWithQueue db businessId subscriptionId adminUserId now)

def startQueuedNow (db : Db) (businessId subscriptionId : ℕ) (now : ℤ) : Db × Except Exn Unit :=
  committed db (startQueued db businessId subscriptionId now)

/-- The earliest period of each business in a list of periods. -/
def firstPerBusiness : List (ℕ × Subscription) → List (ℕ × ℕ)
  | [] => []
  | (id, r) :: periods =>
    (r.businessId, id) :: (firstPerBusiness periods).filter fun x => x.1 ≠ r.businessId

/-- The loop of `deletePlan`, the `k`-th business at the instant `clock k`. -/
def endAll (adminUserId : Option ℕ) (clock : ℕ → ℤ) : ℕ → List (ℕ × ℕ) → Db → Db × Except Exn Unit
  | _, [], db => (db, .ok ())
  | k, (businessId, subscriptionId) :: rest, db =>
    match endWithQueue db businessId subscriptionId adminUserId (clock k) with
    | .ok db' => endAll adminUserId clock (k + 1) rest db'
    | .error e => (db, .error e)

def deletePlan (db : Db) (planId : ℕ) (adminUserId : Option ℕ) (clock : ℕ → ℤ) :
    Db × Except Exn Unit :=
  match db.plans[planId]? with
  | none => (db, .error (.notFound "Formule introuvable."))
  | some plan =>
    if plan.deleted then (db, .error (.notFound "Formule introuvable."))
    else if db.settings.trialPlanCode = some plan.code then
      (db, .error (.conflict ("Cette formule sert à l'essai gratuit : choisissez une autre " ++
        "formule d'essai dans les réglages avant de la supprimer.")))
    else
      let db := { db with
        plans := Table.update db.plans planId fun p => { p with deleted := true, isActive := false } }
      let periods := db.find (fun r => r.planId = planId ∧ r.status.isRunning) Subscription.startsAt
      endAll adminUserId clock 0 (firstPerBusiness periods) db

/-- The expiry of one period by `sweep`, unless it was handled meanwhile. -/
def expirePeriod (now : ℤ) (db : Db) (id : ℕ) : Db :=
  { db with
    subscriptions := (Table.claim db.subscriptions id (fun r => r.expiredNotifiedAt.isNone)
      fun r => { r with status := .expired, expiredNotifiedAt := some now }).getD
        db.subscriptions }

/-- The loop of `sweep`. -/
def expireAll (now : ℤ) (lapsed : List (ℕ × Subscription)) (db : Db) : Db :=
  lapsed.foldl (fun db x => expirePeriod now db x.1) db

def sweep (db : Db) (now : ℤ) : Db :=
  expireAll now (Table.findMany db.subscriptions fun _ r =>
    r.status.isRunning ∧ r.endsAt ≤ now ∧ r.expiredNotifiedAt = none) db

/-- An operation, at the instant it runs; `elsewhere` is what other services do to the tables
that are read here. -/
inductive Operation
  | startTrial (businessId : ℕ) (now : ℤ)
  | activateFromPayment (paymentRequestId : ℕ) (now : ℤ)
  | grantByAdmin (businessId planId : ℕ) (period : BillingPeriod) (adminUserId : Option ℕ)
      (startNow : Bool) (now : ℤ)
  | cancelByAdmin (businessId subscriptionId : ℕ) (adminUserId : Option ℕ) (now : ℤ)
  | startQueuedNow (businessId subscriptionId : ℕ) (now : ℤ)
  | deletePlan (planId : ℕ) (adminUserId : Option ℕ) (clock : ℕ → ℤ)
  | sweep (now : ℤ)
  | elsewhere (plans : List Plan) (profiles : List Profile) (requests : List PaymentRequest)
      (settings : Settings) (now : ℤ)

/-- The instants at which an operation reads the clock. -/
def Operation.clock : Operation → ℕ → ℤ
  | .startTrial _ now | .activateFromPayment _ now | .grantByAdmin _ _ _ _ _ now
  | .cancelByAdmin _ _ _ now | .startQueuedNow _ _ now | .sweep now
  | .elsewhere _ _ _ _ now => fun _ => now
  | .deletePlan _ _ clock => clock

def Operation.perform (db : Db) : Operation → Db
  | .startTrial b now => (Subscriptions.startTrial db b now).1
  | .activateFromPayment id now => (Subscriptions.activateFromPayment db id now).1
  | .grantByAdmin b planId period admin startNow now =>
    (Subscriptions.grantByAdmin db b planId period admin startNow now).1
  | .cancelByAdmin b id admin now => (Subscriptions.cancelByAdmin db b id admin now).1
  | .startQueuedNow b id now => (Subscriptions.startQueuedNow db b id now).1
  | .deletePlan planId admin clock => (Subscriptions.deletePlan db planId admin clock).1
  | .sweep now => Subscriptions.sweep db now
  | .elsewhere plans profiles requests settings _ => { db with plans, profiles, requests, settings }

/-- Operations one after the other. -/
def sequence (db : Db) (ops : List Operation) : Db :=
  ops.foldl Operation.perform db

end Rabotka.Subscriptions
