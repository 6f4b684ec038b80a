import Rabotka.Lib.Service
import Rabotka.Money.Schema

/-!
# The atomic steps of the money services

`Cmd` lists the atomic steps the money services take: single queries, transactions, calls to
the payment gateway, and the poll queue. `exec` gives them their meaning on the store.

What the code does not decide is the environment's: the gateway's answers and the references
it issues, the configured fees and welcome credits, whether the operator of a payment is
accepted, the qualification of a referral, and whether the unlock that a wallet debit pays
for can be committed.
-/

namespace Rabotka.Money

/-- What the gateway reports about a payment. -/
inductive GatewayStatus
  | pending | completed | failed | cancelled
  deriving DecidableEq

inductive Currency
  | xaf | xof | other
  deriving DecidableEq

/-- A verified report: its status, and the settled amount and currency when the gateway
gives them. -/
structure PaymentReport where
  status : GatewayStatus
  transactionId : Option ℕ := none
  amount : Option ℚ := none
  currency : Option Currency := none
  deriving DecidableEq

/-- A reference the gateway issued, and the request it was issued for. -/
structure Deposit where
  ref : ℕ
  requestId : ℕ
  deriving DecidableEq

structure PollJob where
  requestId : ℕ
  gatewayRef : ℕ
  attempt : ℕ
  maxAttempts : ℕ
  profileId : ℕ
  amount : ℚ
  requestType : Option PaymentRequestType
  deriving DecidableEq

/-- The database, what the gateway has issued, and the poll queue; a job stays in the queue
because it may be delivered more than once. -/
structure Store where
  db : Db
  deposits : List Deposit
  jobs : List PollJob

/-- A type of ledger row that adds to its wallet. -/
abbrev CreditType := { t : WalletTransactionType // t.isDebit = false }

/-- A type of ledger row that takes from its wallet. -/
abbrev DebitType := { t : WalletTransactionType // t.isDebit = true }

/-- What `qualifyForSettlement` and `computeReferralPayout` settle on: whole francs for each
side. -/
structure ReferralGate where
  referralId : ℕ
  referrerId : ℕ
  referrerAmount : ℕ
  refereeAmount : ℕ

/-- The atomic steps. -/
inductive Cmd
  | findRequestByToken (token : ℕ)
  | findRequestByRef (ref : ℕ)
  | findRequest (id : ℕ)
  | countOwed (penaltyIds : List ℕ) (profileId : ℕ)
  | findPenalty (penaltyId : ℕ)
  | findUnpaid (profileId : ℕ)
  | findProfile (profileId : ℕ)
  | findPayout (payoutId : ℕ)
  | getBillingBlockThreshold
  | getWelcomeCredits
  | qualifyForSettlement (refereeId : ℕ)
  | assertOperatorMatchesGateway (operator phone : String)
  | upsertProfileWallet (profileId : ℕ)
  | findSharedWallet (ownerType : WalletOwnerType)
  | createSharedWallet (ownerType : WalletOwnerType)
  | gatewayInitiate (externalId : ℕ) (amount : ℚ)
  | gatewayStatus (ref : ℕ)
  | verifyCallback
  | payoutStatus (payoutId : ℕ)
  | addJob (job : PollJob)
  | takeJob (job : PollJob)
  | claimForProcessing (id : ℕ) (phone operator : String)
  | revertToPending (id : ℕ)
  | storeGatewayRef (id : ℕ) (gateway : String) (ref : Option ℕ)
  | submit (id : ℕ)
  | rejectOpen (id : ℕ) (transactionId : Option ℕ)
  | rejectPolled (id ref : ℕ) (transactionId : Option ℕ)
  | revertPolled (id ref : ℕ)
  | recordFailure (type : PaymentType) (profileId : ℕ) (amount : ℚ)
  | persistApproved (id : ℕ) (r : PaymentRequest) (context : PaymentProcessingContext)
      (transactionId : Option ℕ) (systemWallet mobileMoneyWallet : ℕ)
  | settlePricedPenalties (r : PaymentRequest) (blockThreshold : ℕ)
  | credit (walletId : ℕ) (type : CreditType) (amount : ℚ) (referenceType : ReferenceType)
      (referenceId : Option ℕ)
  | debit (walletId : ℕ) (type : DebitType) (amount : ℚ) (referenceType : ReferenceType)
      (referenceId : Option ℕ)
  | debitAndCredit (profileWallet systemWallet : ℕ) (amount : ℚ) (debitType : DebitType)
      (creditType : CreditType) (referenceType : ReferenceType) (referenceId : ℕ)
  | grantWelcomeCredit (profileId walletId : ℕ) (amount : ℚ)
  | payPenaltyFromWallet (penaltyId profileId profileWallet systemWallet : ℕ) (amount : ℚ)
      (blockThreshold : ℕ)
  | confirmPenaltyPaymentManually (penaltyId profileId systemWallet : ℕ) (amount : ℚ)
      (paymentMethod : PaymentMethod)
  | markPenaltiesPaid (penaltyIds : List ℕ) (profileId : ℕ) (totalAmount : ℚ)
      (blockThreshold : ℕ)
  | createApprovedRequest (profileId : ℕ) (amount : ℚ) (contactUnlockAttemptId : Option ℕ)
  | createUnlockPayment (profileId : ℕ) (amount : ℚ)
  | commitPayUnlock (attemptId profileId : ℕ)
  | recordRegistrationPayment (systemWallet profileId : ℕ) (amount : ℤ)
  | recordJobPostingPayment (systemWallet jobOfferId employerId : ℕ) (amount : ℤ)
  | recordMobileMoneyWithdrawal (walletId : ℕ) (amount : ℚ)
      (description reference : Option String)
  | settlePayout (payoutId walletId : ℕ) (payout : MobileMoneyPayout)
  | failPayout (payoutId : ℕ)
  | settleReferral (referralId referrerWallet refereeWallet referrerAmount refereeAmount : ℕ)

/-- The answers. -/
abbrev Resp : Cmd → Type
  | .findRequestByToken _ | .findRequestByRef _ => Option (ℕ × PaymentRequest)
  | .findRequest _ => Option PaymentRequest
  | .countOwed _ _ => ℕ
  | .findPenalty _ => Option Penalty
  | .findUnpaid _ => List (ℕ × Penalty)
  | .findProfile _ => Option Profile
  | .findPayout _ => Option MobileMoneyPayout
  | .getBillingBlockThreshold => ℕ
  | .getWelcomeCredits => { c : ℚ × ℚ // 0 < c.1 ∧ 0 < c.2 }
  | .qualifyForSettlement _ => Option ReferralGate
  | .assertOperatorMatchesGateway _ _ => Except Exn Unit
  | .upsertProfileWallet _ => ℕ
  | .findSharedWallet _ => Option ℕ
  | .createSharedWallet _ => ℕ
  | .gatewayInitiate _ _ => Except Exn (Option ℕ)
  | .gatewayStatus _ => PaymentReport
  | .verifyCallback => Option ℕ × PaymentReport
  | .payoutStatus _ => PayoutStatus
  | .claimForProcessing _ _ _ => Bool
  | .rejectOpen _ _ | .rejectPolled _ _ _ | .revertPolled _ _ => Bool
  | .persistApproved _ _ _ _ _ _ => Bool
  | .debit _ _ _ _ _ | .debitAndCredit _ _ _ _ _ _ _ => Except Exn Unit
  | .payPenaltyFromWallet _ _ _ _ _ _ => Except Exn Unit
  | .confirmPenaltyPaymentManually _ _ _ _ _ => Except Exn Unit
  | .commitPayUnlock _ _ => Except Exn Unit
  | .recordMobileMoneyWithdrawal _ _ _ _ => Except Exn Unit
  | _ => Unit

/-- The environment's choices; most steps leave it none and ignore this. -/
inductive Env
  | unit
  | threshold (blockThreshold : ℕ)
  | credits (worker employer : ℚ) (h : 0 < worker ∧ 0 < employer)
  | gate (g : Option ReferralGate)
  | outcome (r : Except Exn Unit)
  | issue (r : Except Exn (Option ℕ))
  | report (ref : Option ℕ) (r : PaymentReport)
  | payout (status : PayoutStatus)
  | row (token createdAt : ℕ)

/-! ### Execution -/

/-- The store after the database has been written. -/
def Store.withDb (s : Store) (db : Db) : Store := { s with db }

@[simp]
theorem Store.withDb_db (s : Store) (db : Db) : (s.withDb db).db = db := rfl

/-- A guarded write: the answer is whether it matched. -/
def Store.matched (s : Store) : Option Db → Store × Bool
  | some db => (s.withDb db, true)
  | none => (s, false)

theorem Store.matched_fst (s : Store) (o : Option Db) :
    (s.matched o).1 = s.withDb (o.getD s.db) := by
  cases o <;> rfl

/-- A transaction that may throw: it is rolled back then. -/
def Store.commit (s : Store) : Except Exn Db → Store × Except Exn Unit
  | .ok db => (s.withDb db, .ok ())
  | .error e => (s, .error e)

theorem Store.commit_fst (s : Store) (o : Except Exn Db) :
    (s.commit o).1 = s.withDb (o.toOption.getD s.db) := by
  cases o <;> rfl

/-- `stillPolledBy`: the only row a poll may still write. -/
def stillPolledBy (ref : ℕ) (r : PaymentRequest) : Bool :=
  r.status = .processing && r.gatewayPaymentRef = some ref

/-- One atomic step. The process that takes it does not matter to the store. -/
def exec (s : Store) (_pid : ℕ) (c : Cmd) (ε : Env) : Option (Store × Resp c) :=
  match c with
  | .findRequestByToken token =>
    some (s, Table.findFirst s.db.requests fun r => r.token = token)
  | .findRequestByRef ref =>
    some (s, Table.findFirst s.db.requests fun r => r.gatewayPaymentRef = some ref)
  | .findRequest id => some (s, s.db.requests[id]?)
  | .countOwed penaltyIds profileId =>
    some (s, (Table.findMany s.db.penalties fun i p =>
      i ∈ penaltyIds && p.profileId = profileId && p.owed).length)
  | .findPenalty penaltyId => some (s, s.db.penalties[penaltyId]?)
  | .findUnpaid profileId =>
    some (s, Table.findMany s.db.penalties fun _ p => p.profileId = profileId && p.owed)
  | .findProfile profileId => some (s, s.db.profiles[profileId]?)
  | .findPayout payoutId => some (s, s.db.payouts[payoutId]?)
  | .getBillingBlockThreshold =>
    match ε with
    | .threshold n => some (s, n)
    | _ => none
  | .getWelcomeCredits =>
    match ε with
    | .credits worker employer h => some (s, ⟨(worker, employer), h⟩)
    | _ => none
  | .qualifyForSettlement _ =>
    match ε with
    | .gate g => some (s, g)
    | _ => none
  | .assertOperatorMatchesGateway _ _ =>
    match ε with
    | .outcome r => some (s, r)
    | _ => none
  | .upsertProfileWallet profileId =>
    let (db, walletId) := s.db.upsertProfileWallet profileId
    some (s.withDb db, walletId)
  | .findSharedWallet ownerType => some (s, s.db.findSharedWallet ownerType)
  | .createSharedWallet ownerType =>
    let (db, walletId) := s.db.createSharedWallet ownerType
    some (s.withDb db, walletId)
  | .gatewayInitiate externalId _ =>
    match ε with
    | .issue (.ok (some ref)) =>
      -- a reference names one deposit
      if s.deposits.any fun d => d.ref = ref then none
      else some ({ s with deposits := ⟨ref, externalId⟩ :: s.deposits }, .ok (some ref))
    | .issue r => some (s, r)
    | _ => none
  | .gatewayStatus _ =>
    match ε with
    | .report _ r => some (s, r)
    | _ => none
  | .verifyCallback =>
    match ε with
    | .report ref r => some (s, (ref, r))
    | _ => none
  | .payoutStatus _ =>
    match ε with
    | .payout status => some (s, status)
    | _ => none
  | .addJob job => some ({ s with jobs := job :: s.jobs }, ())
  | .takeJob job => if job ∈ s.jobs then some (s, ()) else none
  | .claimForProcessing id phone operator =>
    some (s.matched (s.db.claimRequest id (fun r => r.status = .pending) fun r =>
      { r with status := .processing, phone, operator }))
  | .revertToPending id =>
    some ((s.matched (s.db.claimRequest id (fun r => r.status = .processing) fun r =>
      { r with status := .pending, phone := none, operator := none })).1, ())
  | .storeGatewayRef id gateway ref =>
    some (s.withDb (s.db.updateRequest id fun r =>
      { r with gateway := some gateway, gatewayPaymentRef := ref }), ())
  | .submit id =>
    some (s.withDb (s.db.updateRequest id fun r => { r with status := .submitted }), ())
  | .rejectOpen id transactionId =>
    some (s.matched (s.db.claimRequest id (fun r => r.status.isOpen) fun r =>
      Db.withTx transactionId { r with status := .rejected }))
  | .rejectPolled id ref transactionId =>
    some (s.matched (s.db.claimRequest id (stillPolledBy ref) fun r =>
      Db.withTx transactionId { r with status := .rejected }))
  | .revertPolled id ref =>
    some (s.matched (s.db.claimRequest id (stillPolledBy ref) fun r =>
      { r with status := .pending }))
  | .recordFailure type profileId amount =>
    some (s.withDb (s.db.recordFailure type profileId amount), ())
  | .persistApproved id r context transactionId systemWallet mobileMoneyWallet =>
    some (s.matched (s.db.persistApprovedPayment id r context transactionId systemWallet
      mobileMoneyWallet))
  | .settlePricedPenalties r blockThreshold =>
    some (s.withDb (s.db.settlePricedPenalties r blockThreshold), ())
  | .credit walletId type amount referenceType referenceId =>
    some (s.withDb (s.db.credit walletId type amount referenceType referenceId), ())
  | .debit walletId type amount referenceType referenceId =>
    some (s.commit (s.db.debit walletId type amount referenceType referenceId
      "Solde insuffisant dans votre portefeuille"))
  | .debitAndCredit profileWallet systemWallet amount debitType creditType referenceType
      referenceId =>
    some (s.commit (s.db.debitAndCredit profileWallet systemWallet amount debitType creditType
      referenceType referenceId))
  | .grantWelcomeCredit profileId walletId amount =>
    some (s.withDb (s.db.grantWelcomeCredit profileId walletId amount), ())
  | .payPenaltyFromWallet penaltyId profileId profileWallet systemWallet amount blockThreshold =>
    some (s.commit (s.db.payPenaltyFromWallet penaltyId profileId profileWallet systemWallet
      amount blockThreshold))
  | .confirmPenaltyPaymentManually penaltyId profileId systemWallet amount paymentMethod =>
    some (s.commit (s.db.confirmPenaltyPaymentManually penaltyId profileId systemWallet amount
      paymentMethod))
  | .markPenaltiesPaid penaltyIds profileId totalAmount blockThreshold =>
    some (s.withDb (s.db.markPenaltiesPaid penaltyIds profileId totalAmount blockThreshold), ())
  | .createApprovedRequest profileId amount contactUnlockAttemptId =>
    match ε with
    | .row token createdAt =>
      some (s.withDb (s.db.createApprovedRequest profileId token createdAt amount
        contactUnlockAttemptId), ())
    | _ => none
  | .createUnlockPayment profileId amount =>
    some (s.withDb (s.db.createPayment .contactUnlock profileId amount .wallet .completed
      .walletUnlock), ())
  | .commitPayUnlock _ _ =>
    match ε with
    | .outcome r => some (s, r)
    | _ => none
  | .recordRegistrationPayment systemWallet profileId amount =>
    some (s.withDb (s.db.recordRegistrationPayment systemWallet profileId
      (Decimal.value amount)), ())
  | .recordJobPostingPayment systemWallet jobOfferId employerId amount =>
    some (s.withDb (s.db.recordJobPostingPayment systemWallet jobOfferId employerId
      (Decimal.value amount)), ())
  | .recordMobileMoneyWithdrawal walletId amount description reference =>
    some (s.commit (s.db.recordMobileMoneyWithdrawal walletId amount description reference))
  | .settlePayout payoutId walletId payout =>
    some ((s.matched (s.db.settlePayout payoutId walletId payout)).1, ())
  | .failPayout payoutId =>
    some ((s.matched (s.db.failPayout payoutId)).1, ())
  | .settleReferral referralId referrerWallet refereeWallet referrerAmount refereeAmount =>
    some ((s.matched (s.db.settleReferral referralId referrerWallet refereeWallet
      referrerAmount refereeAmount)).1, ())

end Rabotka.Money
