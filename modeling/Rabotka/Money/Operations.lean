import Rabotka.Money.Steps

/-!
# The money operations

The methods of `WalletService`, `PaymentRequestService`, `PollPaymentStatusProcessor`,
`MobileMoneyPayoutService.settle` and `ReferralService.settleForReferee`, statement by
statement, as operations over the steps of `Steps`. Between two steps of one operation any
step of another may happen.

Notifications, logs and invoices are left out, and so is the delivery of an unlocked contact
after a settled payment, which moves no money. `payUnlock` is here for what it does to the
wallets when it is paid with credit; the unlock itself is the environment's.
-/

namespace Rabotka.Money

open Async

/-- An operation of the money services. -/
abbrev Prog (α : Type) := Op Resp Exn α

/-- Issues one step. -/
def issue (c : Cmd) : Prog (Resp c) := Op.cmd c

/-- Throws what a transaction threw. -/
def orThrow {α : Type} : Except Exn α → Prog α
  | .ok a => pure a
  | .error e => throw e

/-! ### Wallets -/

/-- `getOrCreateSystemWallet` and `getOrCreateMobileMoneyWallet`: the oldest wallet of the
kind, created when there is none. -/
def getOrCreateSharedWallet (ownerType : WalletOwnerType) : Prog ℕ := do
  match ← issue (.findSharedWallet ownerType) with
  | some walletId => pure walletId
  | none => issue (.createSharedWallet ownerType)

def getOrCreateProfileWallet (profileId : ℕ) : Prog ℕ :=
  issue (.upsertProfileWallet profileId)

def creditProfileWallet (profileId : ℕ) (amount : ℚ) (type : CreditType)
    (referenceType : ReferenceType) (referenceId : Option ℕ) : Prog Unit := do
  if amount ≤ 0 then throw (.badRequest "Credit amount must be positive")
  let walletId ← getOrCreateProfileWallet profileId
  issue (.credit walletId type amount referenceType referenceId)

/-- Alias for automated refunds. -/
def refundProfileWallet (profileId : ℕ) (amount : ℚ) (type : CreditType)
    (referenceType : ReferenceType) (referenceId : Option ℕ) : Prog Unit :=
  creditProfileWallet profileId amount type referenceType referenceId

def debitProfileWallet (profileId : ℕ) (amount : ℚ) (type : DebitType)
    (referenceType : ReferenceType) (referenceId : Option ℕ) : Prog Unit := do
  let walletId ← getOrCreateProfileWallet profileId
  orThrow (← issue (.debit walletId type amount referenceType referenceId))

def debitProfileAndCreditSystem (profileId : ℕ) (amount : ℚ) (debitType : DebitType)
    (creditType : CreditType) (referenceType : ReferenceType) (referenceId : ℕ) :
    Prog Unit := do
  let profileWallet ← getOrCreateProfileWallet profileId
  let systemWallet ← getOrCreateSharedWallet .system
  orThrow (← issue (.debitAndCredit profileWallet systemWallet amount debitType creditType
    referenceType referenceId))

def grantWelcomeCredit (profileId : ℕ) (isWorker : Bool) : Prog Unit := do
  match ← issue (.findProfile profileId) with
  | none => throw (.notFound "Profil introuvable")
  | some profile =>
    if profile.whatsappActivationBonusGranted then return
    if profile.isBusiness then return
    let credits ← issue .getWelcomeCredits
    let amount := if isWorker then credits.1.1 else credits.1.2
    let walletId ← getOrCreateProfileWallet profileId
    issue (.grantWelcomeCredit profileId walletId amount)

/-! ### Penalties -/

def payPenaltyFromWallet (penaltyId profileId : ℕ) : Prog Unit := do
  match ← issue (.findPenalty penaltyId) with
  | none => throw (.notFound "Pénalité introuvable")
  | some penalty =>
    if penalty.profileId ≠ profileId then throw (.notFound "Pénalité introuvable")
    let amount := Decimal.value penalty.amount
    let profileWallet ← getOrCreateProfileWallet profileId
    let systemWallet ← getOrCreateSharedWallet .system
    let blockThreshold ← issue .getBillingBlockThreshold
    orThrow (← issue (.payPenaltyFromWallet penaltyId profileId profileWallet systemWallet
      amount blockThreshold))
    issue (.createApprovedRequest profileId amount none)

def confirmPenaltyPaymentManually (penaltyId profileId : ℕ) (paymentMethod : PaymentMethod) :
    Prog Unit := do
  match ← issue (.findPenalty penaltyId) with
  | none => throw (.notFound "Pénalité introuvable")
  | some penalty =>
    if penalty.profileId ≠ profileId then throw (.notFound "Pénalité introuvable")
    if penalty.paid then throw (.badRequest "Cette pénalité a déjà été réglée")
    let amount := Decimal.value penalty.amount
    let systemWallet ← getOrCreateSharedWallet .system
    orThrow (← issue (.confirmPenaltyPaymentManually penaltyId profileId systemWallet amount
      paymentMethod))
    issue (.createApprovedRequest profileId amount none)

/-- The amount of a list of penalties. -/
def totalAmount (unpaid : List (ℕ × Penalty)) : ℤ :=
  (unpaid.map fun p => p.2.amount).sum

def payAllPenaltiesWithWallet (profileId : ℕ) : Prog Unit := do
  let unpaid ← issue (.findUnpaid profileId)
  if unpaid = [] then throw (.badRequest "Aucune pénalité impayée")
  let total := Decimal.value (totalAmount unpaid)
  debitProfileAndCreditSystem profileId total ⟨.penaltyDebit, rfl⟩ ⟨.creditPenalty, rfl⟩
    .penaltyBatch profileId
  let blockThreshold ← issue .getBillingBlockThreshold
  issue (.markPenaltiesPaid (unpaid.map Prod.fst) profileId total blockThreshold)
  issue (.createApprovedRequest profileId total none)

/-! ### Payment requests -/

def assertPenaltiesStillOwed (r : PaymentRequest) : Prog Unit := do
  if r.isPenaltyRequest ∧ r.penaltyIds ≠ [] then
    let stillOwed ← issue (.countOwed r.penaltyIds r.profileId)
    if stillOwed ≠ r.penaltyIds.length then
      throw (.badRequest
        "Vos pénalités ont changé depuis la création de ce paiement. Relancez le règlement depuis l’application.")

def assertOperatorMatchesGateway (operator phone : String) : Prog Unit := do
  orThrow (← issue (.assertOperatorMatchesGateway operator phone))

/-- The gateway call of `initiatePayment`; when it throws, the claim is reverted so that the
user can retry. -/
def gatewayInitiate (id : ℕ) (amount : ℚ) : Prog (Option ℕ) :=
  tryCatch (do orThrow (← issue (.gatewayInitiate id amount))) fun e => do
    issue (.revertToPending id)
    throw e

def initiatePayment (activeGateway : String) (token : ℕ) (phone operator : String) :
    Prog Unit := do
  match ← issue (.findRequestByToken token) with
  | none => throw (.notFound "Demande de paiement introuvable")
  | some (id, request) =>
    if request.amount = none then
      throw (.badRequest "Montant non défini pour cette demande")
    assertPenaltiesStillOwed request
    assertOperatorMatchesGateway operator phone
    let locked ← issue (.claimForProcessing id phone operator)
    if !locked then
      throw (.badRequest "Cette demande n'est pas en attente de paiement")
    let amount := Decimal.value (request.amount.getD 0)
    let gatewayRef ← gatewayInitiate id amount
    issue (.storeGatewayRef id activeGateway gatewayRef)
    match gatewayRef with
    | none => pure ()
    | some ref =>
      issue (.addJob
        { requestId := id
          gatewayRef := ref
          attempt := 1
          maxAttempts := 24
          profileId := request.profileId
          amount
          requestType := request.requestType })

def submitPayment (token : ℕ) : Prog Unit := do
  match ← issue (.findRequestByToken token) with
  | none => throw (.notFound "Demande de paiement introuvable")
  | some (id, request) =>
    if request.status ≠ .pending then
      throw (.badRequest "Cette demande n'est pas en attente")
    issue (.submit id)

/-- `Math.round`. -/
def mathRound (x : ℚ) : ℤ := ⌊x + 1 / 2⌋

/-- Whether the gateway settled something other than what was asked. -/
def settlementMismatch (request : PaymentRequest) (settled : PaymentReport) : Bool :=
  let expected := mathRound (Decimal.value (request.amount.getD 0))
  let amountOff := settled.amount.any fun a => mathRound a ≠ expected
  let currencyOff := settled.currency.any fun c => c ≠ .xaf ∧ c ≠ .xof
  amountOff || currencyOff

def persistApprovedPayment (id : ℕ) (request : PaymentRequest)
    (context : PaymentProcessingContext) (transactionId : Option ℕ) : Prog Bool := do
  let systemWallet ← getOrCreateSharedWallet .system
  let mobileMoneyWallet ← getOrCreateSharedWallet .mobileMoney
  issue (.persistApproved id request context transactionId systemWallet mobileMoneyWallet)

/-- Errors are logged and dropped. -/
def swallow (x : Prog Unit) : Prog Unit :=
  tryCatch x fun _ => pure ()

def handlePenaltyPostPayment (request : PaymentRequest) : Prog Unit := do
  if request.isPenaltyRequest then
    swallow do
      let blockThreshold ← issue .getBillingBlockThreshold
      issue (.settlePricedPenalties request blockThreshold)

def handleWalletTopUpPostPayment (id : ℕ) (request : PaymentRequest)
    (context : PaymentProcessingContext) : Prog Unit := do
  if request.requestType = some .walletTopUp then
    swallow (creditProfileWallet request.profileId context.amount ⟨.topUpCredit, rfl⟩
      .paymentRequest id)

def processSuccessfulPayment (id : ℕ) (request : PaymentRequest)
    (transactionId : Option ℕ) : Prog Unit := do
  let context := buildPaymentProcessingContext request
  let claimed ← persistApprovedPayment id request context transactionId
  if claimed then
    handlePenaltyPostPayment request
    handleWalletTopUpPostPayment id request context

def persistFailedPayment (request : PaymentRequest) : Prog Unit :=
  swallow (issue (.recordFailure (failedPaymentType request) request.profileId
    (Decimal.value (request.amount.getD 0))))

def handlePaymentCallback : Prog Unit := do
  let (gatewayRef, report) ← issue .verifyCallback
  match gatewayRef with
  | none => return
  | some ref =>
    match ← issue (.findRequestByRef ref) with
    | none => return
    | some (id, request) =>
      if !request.status.isOpen then return
      match report.status with
      | .completed =>
        if settlementMismatch request report then return
        processSuccessfulPayment id request report.transactionId
      | .failed | .cancelled =>
        let claimed ← issue (.rejectOpen id report.transactionId)
        if claimed then persistFailedPayment request
      | .pending => return

def processApprovedPaymentById (id : ℕ) (settled : PaymentReport) : Prog Unit := do
  match ← issue (.findRequest id) with
  | none => return
  | some request =>
    if !request.status.isOpen then return
    if settlementMismatch request settled then return
    processSuccessfulPayment id request settled.transactionId

/-- `MAX_POLL_ATTEMPTS`. -/
def maxPollAttempts : ℕ := 48

/-- The poller's `recordFailure`. -/
def recordPollFailure (job : PollJob) : Prog Unit :=
  swallow (issue (.recordFailure (resolvePaymentType job.requestType false false)
    job.profileId job.amount))

/-- `PollPaymentStatusProcessor.process`. -/
def pollPaymentStatus (job : PollJob) : Prog Unit := do
  issue (.takeJob job)
  let report ← issue (.gatewayStatus job.gatewayRef)
  match report.status with
  | .completed => processApprovedPaymentById job.requestId report
  | .failed | .cancelled =>
    let rejected ← issue (.rejectPolled job.requestId job.gatewayRef report.transactionId)
    if rejected then recordPollFailure job
  | .pending =>
    if job.attempt < min job.maxAttempts maxPollAttempts then
      issue (.addJob { job with attempt := job.attempt + 1 })
    else
      let reverted ← issue (.revertPolled job.requestId job.gatewayRef)
      if reverted then recordPollFailure job

/-! ### Unlocks, fees, withdrawals, payouts and referrals -/

/-- `payUnlock` with credit, as the wallets see it: when the unlock cannot be committed the
debit is refunded. -/
def payUnlockWithCredit (attemptId profileId : ℕ) (amount : ℤ) : Prog Unit := do
  let amount := Decimal.value amount
  debitProfileAndCreditSystem profileId amount ⟨.contactUnlockDebit, rfl⟩
    ⟨.contactUnlockPayment, rfl⟩ .contactUnlockAttempt attemptId
  issue (.createApprovedRequest profileId amount attemptId)
  issue (.createUnlockPayment profileId amount)
  tryCatch (do orThrow (← issue (.commitPayUnlock attemptId profileId))) fun e => do
    swallow (refundProfileWallet profileId amount ⟨.contactUnlockCreditConversion, rfl⟩
      .contactUnlockAttempt attemptId)
    throw e

def recordRegistrationPayment (profileId : ℕ) (amount : ℤ) : Prog Unit := do
  let systemWallet ← getOrCreateSharedWallet .system
  issue (.recordRegistrationPayment systemWallet profileId amount)

def recordJobPostingPayment (jobOfferId employerId : ℕ) (amount : ℤ) : Prog Unit := do
  let systemWallet ← getOrCreateSharedWallet .system
  issue (.recordJobPostingPayment systemWallet jobOfferId employerId amount)

def recordMobileMoneyWithdrawal (amount : ℚ) (description reference : Option String) :
    Prog Unit := do
  let walletId ← getOrCreateSharedWallet .mobileMoney
  orThrow (← issue (.recordMobileMoneyWithdrawal walletId amount description reference))

/-- `MobileMoneyPayoutService.settle`, with the read and the gateway's answer it starts
from. -/
def settlePayout (payoutId : ℕ) : Prog Unit := do
  match ← issue (.findPayout payoutId) with
  | none => return
  | some payout =>
    match ← issue (.payoutStatus payoutId) with
    | .completed =>
      let walletId ← getOrCreateSharedWallet .mobileMoney
      issue (.settlePayout payoutId walletId payout)
    | .failed => issue (.failPayout payoutId)
    | .pending => return

def settleForReferee (refereeId : ℕ) : Prog Unit := do
  match ← issue (.qualifyForSettlement refereeId) with
  | none => return
  | some gate =>
    let referrerWallet ← getOrCreateProfileWallet gate.referrerId
    let refereeWallet ← getOrCreateProfileWallet refereeId
    issue (.settleReferral gate.referralId referrerWallet refereeWallet gate.referrerAmount
      gate.refereeAmount)

/-! ### The service -/

inductive Request
  | initiatePayment (activeGateway : String) (token : ℕ) (phone operator : String)
  | submitPayment (token : ℕ)
  | handlePaymentCallback
  | pollPaymentStatus (job : PollJob)
  | processApprovedPaymentById (id : ℕ) (settled : PaymentReport)
  | creditProfileWallet (profileId : ℕ) (amount : ℚ) (type : CreditType)
      (referenceType : ReferenceType) (referenceId : Option ℕ)
  | debitProfileWallet (profileId : ℕ) (amount : ℚ) (type : DebitType)
      (referenceType : ReferenceType) (referenceId : Option ℕ)
  | grantWelcomeCredit (profileId : ℕ) (isWorker : Bool)
  | payPenaltyFromWallet (penaltyId profileId : ℕ)
  | confirmPenaltyPaymentManually (penaltyId profileId : ℕ) (paymentMethod : PaymentMethod)
  | payAllPenaltiesWithWallet (profileId : ℕ)
  | payUnlockWithCredit (attemptId profileId : ℕ) (amount : ℤ)
  | recordRegistrationPayment (profileId : ℕ) (amount : ℤ)
  | recordJobPostingPayment (jobOfferId employerId : ℕ) (amount : ℤ)
  | recordMobileMoneyWithdrawal (amount : ℚ) (description reference : Option String)
  | settlePayout (payoutId : ℕ)
  | settleForReferee (refereeId : ℕ)

def handler : Request → Prog Unit
  | .initiatePayment activeGateway token phone operator =>
    initiatePayment activeGateway token phone operator
  | .submitPayment token => submitPayment token
  | .handlePaymentCallback => handlePaymentCallback
  | .pollPaymentStatus job => pollPaymentStatus job
  | .processApprovedPaymentById id settled => processApprovedPaymentById id settled
  | .creditProfileWallet profileId amount type referenceType referenceId =>
    creditProfileWallet profileId amount type referenceType referenceId
  | .debitProfileWallet profileId amount type referenceType referenceId =>
    debitProfileWallet profileId amount type referenceType referenceId
  | .grantWelcomeCredit profileId isWorker => grantWelcomeCredit profileId isWorker
  | .payPenaltyFromWallet penaltyId profileId => payPenaltyFromWallet penaltyId profileId
  | .confirmPenaltyPaymentManually penaltyId profileId paymentMethod =>
    confirmPenaltyPaymentManually penaltyId profileId paymentMethod
  | .payAllPenaltiesWithWallet profileId => payAllPenaltiesWithWallet profileId
  | .payUnlockWithCredit attemptId profileId amount =>
    payUnlockWithCredit attemptId profileId amount
  | .recordRegistrationPayment profileId amount => recordRegistrationPayment profileId amount
  | .recordJobPostingPayment jobOfferId employerId amount =>
    recordJobPostingPayment jobOfferId employerId amount
  | .recordMobileMoneyWithdrawal amount description reference =>
    recordMobileMoneyWithdrawal amount description reference
  | .settlePayout payoutId => settlePayout payoutId
  | .settleForReferee refereeId => settleForReferee refereeId

/-- The money services. -/
def service : Service Store Cmd Resp Request Env Exn := ⟨exec, handler⟩

end Rabotka.Money
