import Rabotka.Lib.Decimal
import Rabotka.Lib.Table

/-!
# The money tables

Profiles, penalties, payment requests, wallets with their transactions, payments, mobile
money payouts and referrals, as far as the payment services read and write them. Stored
amounts are whole hundredths of a franc (`DECIMAL(10, 2)` and `DECIMAL(12, 2)` columns);
an identifier is the position of the row in its table. Of the timestamps only what the code
compares is kept: the creation instants, and whether `paid_at` and `deleted_at` are set.

`WalletTransactionType.isDebit` is the rule by which readers of the ledger sign a row: the
sign is implied by its type, no column stores it.
-/

namespace Rabotka.Money

/-! ### Enumerations -/

inductive PaymentRequestStatus
  | pending | processing | submitted | approved | rejected
  deriving DecidableEq

/-- `status: { notIn: [APPROVED, REJECTED] }`. -/
def PaymentRequestStatus.isOpen : PaymentRequestStatus → Bool
  | .approved | .rejected => false
  | _ => true

inductive PaymentRequestType
  | walletTopUp | businessSubscription | contactUnlock | recommendationContact | penaltyBatch
  | penaltyResolution
  deriving DecidableEq

inductive PaymentType
  | registration | jobPosting | penalty | contactUnlock | walletTopUp | businessSubscription
  deriving DecidableEq

inductive PaymentMethod
  | mobileMoney | card | wallet | other
  deriving DecidableEq

inductive PaymentStatus
  | pending | completed | failed
  deriving DecidableEq

inductive BillingStatus
  | clear | pendingPayment | blocked
  deriving DecidableEq

inductive WalletOwnerType
  | system | profile | mobileMoney
  deriving DecidableEq

inductive WalletTransactionType
  | creditPenalty | creditCommission | creditRegistration | creditJobPosting | welcomeCredit
  | manualCredit | contactUnlockDebit | contactUnlockPayment | contactUnlockCreditConversion
  | penaltyDebit | mobileMoneyCredit | mobileMoneyWithdrawal | topUpCredit | referralCredit
  deriving DecidableEq

/-- The types whose rows take money out of their wallet. -/
def WalletTransactionType.isDebit : WalletTransactionType → Bool
  | .contactUnlockDebit | .penaltyDebit | .mobileMoneyWithdrawal => true
  | _ => false

inductive PayoutStatus
  | pending | completed | failed
  deriving DecidableEq

inductive ReferralStatus
  | pending | qualifiedOnHold | rewarded | capped | forfeited
  deriving DecidableEq

/-! ### Rows -/

structure Profile where
  isBusiness : Bool
  whatsappActivationBonusGranted : Bool
  billingStatus : BillingStatus
  deriving DecidableEq

structure Penalty where
  profileId : ℕ
  amount : ℤ
  createdAt : ℕ
  paid : Bool
  deleted : Bool
  deriving DecidableEq

/-- `paid_at: null, deleted_at: null`. -/
def Penalty.owed (p : Penalty) : Bool := !p.paid && !p.deleted

structure PaymentRequest where
  profileId : ℕ
  token : ℕ
  status : PaymentRequestStatus
  amount : Option ℤ
  createdAt : ℕ
  requestType : Option PaymentRequestType
  contactUnlockAttemptId : Option ℕ
  penaltyIds : List ℕ
  phone : Option String
  operator : Option String
  gateway : Option String
  gatewayPaymentRef : Option ℕ
  gatewayTxId : Option ℕ
  deriving DecidableEq

structure Wallet where
  ownerType : WalletOwnerType
  profileId : Option ℕ
  balance : ℤ
  deriving DecidableEq

/-- `reference_type`, with the parts that the code joins into one text. -/
inductive ReferenceType
  | none
  | paymentRequest
  | paymentRequestVia (gateway operator : Option String)
  | penalty
  | penaltyBatch
  | profile
  | jobOffer
  | contactUnlockAttempt
  | withdrawal (reference description : Option String)
  | payout (gateway : String)
  | referralReferrer
  | referralReferee
  deriving DecidableEq

structure WalletTransaction where
  walletId : ℕ
  type : WalletTransactionType
  amount : ℤ
  referenceType : ReferenceType
  referenceId : Option ℕ
  deriving DecidableEq

/-- `payment.description`, one constructor for each text template. -/
inductive PaymentDescription
  | ofRequest
  | failedRequest
  | penaltyViaWallet (penaltyId : ℕ)
  | penaltyConfirmed (penaltyId : ℕ)
  | penaltiesViaWallet (count : ℕ)
  | walletUnlock
  | registration (profileId : ℕ)
  | jobPosting (jobOfferId : ℕ)
  deriving DecidableEq

structure Payment where
  type : PaymentType
  profileId : ℕ
  amount : ℤ
  paymentMethod : PaymentMethod
  status : PaymentStatus
  description : PaymentDescription
  deriving DecidableEq

structure MobileMoneyPayout where
  amount : ℤ
  status : PayoutStatus
  gateway : String
  deriving DecidableEq

structure Referral where
  status : ReferralStatus
  deriving DecidableEq

/-- The database. -/
structure Db where
  profiles : List Profile
  penalties : List Penalty
  requests : List PaymentRequest
  wallets : List Wallet
  transactions : List WalletTransaction
  payments : List Payment
  payouts : List MobileMoneyPayout
  referrals : List Referral

/-! ### The parts of a row that no operation writes -/

/-- What a penalty is, as opposed to whether it is settled. -/
def Penalty.terms (p : Penalty) : ℕ × ℤ × ℕ := (p.profileId, p.amount, p.createdAt)

/-- What a payment request asks for, as opposed to how far it got. -/
structure Terms where
  profileId : ℕ
  token : ℕ
  amount : Option ℤ
  createdAt : ℕ
  requestType : Option PaymentRequestType
  contactUnlockAttemptId : Option ℕ
  penaltyIds : List ℕ
  deriving DecidableEq

def PaymentRequest.terms (r : PaymentRequest) : Terms where
  profileId := r.profileId
  token := r.token
  amount := r.amount
  createdAt := r.createdAt
  requestType := r.requestType
  contactUnlockAttemptId := r.contactUnlockAttemptId
  penaltyIds := r.penaltyIds

/-- Whose wallet it is. -/
def Wallet.owner (w : Wallet) : WalletOwnerType × Option ℕ := (w.ownerType, w.profileId)

namespace Db

/-- `db'` may come after `db`: every penalty, payment request and wallet is still there,
on the same terms. -/
structure Grows (db db' : Db) : Prop where
  penalties : Table.Grows Penalty.terms db.penalties db'.penalties
  requests : Table.Grows PaymentRequest.terms db.requests db'.requests
  wallets : Table.Grows Wallet.owner db.wallets db'.wallets

theorem Grows.refl (db : Db) : db.Grows db :=
  ⟨.refl _ _, .refl _ _, .refl _ _⟩

/-- Nothing happens to the rows when the three tables stay as they are. -/
theorem Grows.of_eq {db db' : Db} (hp : db'.penalties = db.penalties)
    (hr : db'.requests = db.requests) (hw : db'.wallets = db.wallets) : db.Grows db' := by
  refine ⟨?_, ?_, ?_⟩
  · rw [hp]; exact .refl _ _
  · rw [hr]; exact .refl _ _
  · rw [hw]; exact .refl _ _

theorem Grows.trans {db db' db'' : Db} (h : db.Grows db') (h' : db'.Grows db'') : db.Grows db'' :=
  ⟨h.penalties.trans h'.penalties, h.requests.trans h'.requests, h.wallets.trans h'.wallets⟩

end Db

end Rabotka.Money

/-!
## The money transactions

The atomic steps of the wallet, payment request, payout and referral services, each as a
function of the database. A `prisma.$transaction` is one function, written as the
composition of its statements; where one of its statements throws, the function returns the
exception and the database is rolled back by its caller.

Amounts arrive as exact numbers and are rounded where a column is written, exactly as the
statements do it: `createTransaction` rounds the amount, `incrementBalance` rounds the new
balance.
-/

namespace Rabotka.Money

/-- The exceptions of the services, with their texts. -/
inductive Exn
  | badRequest (message : String)
  | notFound (message : String)
  | error (message : String)

/-- What kind of payment a request produces (`resolvePaymentType`). -/
def resolvePaymentType (requestType : Option PaymentRequestType)
    (isContactUnlock isRecommendationContact : Bool) : PaymentType :=
  if isContactUnlock || isRecommendationContact then .contactUnlock
  else
    match requestType with
    | some .walletTopUp => .walletTopUp
    | some .businessSubscription => .businessSubscription
    | some .contactUnlock | some .recommendationContact => .contactUnlock
    | some .penaltyBatch | some .penaltyResolution => .penalty
    | none => .penalty

/-- What settling a request will book (`PaymentProcessingContext`). -/
structure PaymentProcessingContext where
  amount : ℚ
  isContactUnlock : Bool
  isRecommendationContact : Bool
  paymentType : PaymentType

/-- The type of the row by which the system wallet receives the payment. -/
def PaymentProcessingContext.systemRowType (context : PaymentProcessingContext) :
    WalletTransactionType :=
  if context.isContactUnlock || context.isRecommendationContact then .contactUnlockPayment
  else .creditPenalty

/-- `buildPaymentProcessingContext`. -/
def buildPaymentProcessingContext (r : PaymentRequest) : PaymentProcessingContext :=
  let isContactUnlock :=
    decide (r.requestType = some .contactUnlock) || r.contactUnlockAttemptId.isSome
  let isRecommendationContact := decide (r.requestType = some .recommendationContact)
  { amount := Decimal.value (r.amount.getD 0)
    isContactUnlock
    isRecommendationContact
    paymentType := resolvePaymentType r.requestType isContactUnlock isRecommendationContact }

/-- The payment type `persistFailedPayment` files a failed request under. -/
def failedPaymentType (r : PaymentRequest) : PaymentType :=
  resolvePaymentType r.requestType (decide (r.requestType = some .contactUnlock) ||
      decide (r.requestType = some .recommendationContact) || r.contactUnlockAttemptId.isSome)
    false

/-- Penalty requests are the ones whose settlement clears penalties. -/
def PaymentRequest.isPenaltyRequest (r : PaymentRequest) : Bool :=
  r.requestType = some .penaltyBatch || r.requestType = some .penaltyResolution

namespace Db

/-! ### Statements -/

/-- `walletTransaction.create`. -/
def createTransaction (db : Db) (walletId : ℕ) (type : WalletTransactionType) (amount : ℚ)
    (referenceType : ReferenceType) (referenceId : Option ℕ) : Db :=
  { db with
    transactions := db.transactions ++
      [{ walletId, type, amount := Decimal.column amount, referenceType, referenceId }] }

/-- `wallet.update` with `balance: { increment: amount }`. -/
def incrementBalance (db : Db) (walletId : ℕ) (amount : ℚ) : Db :=
  { db with
    wallets := Table.update db.wallets walletId fun w =>
      { w with balance := Decimal.increment w.balance amount } }

/-- `wallet.updateMany` where the balance covers the amount, decrementing it. -/
def decrementIfCovered (db : Db) (walletId : ℕ) (amount : ℚ) : Option Db :=
  (Table.claim db.wallets walletId (fun w => amount ≤ Decimal.value w.balance) fun w =>
    { w with balance := Decimal.increment w.balance (-amount) }).map fun wallets =>
      { db with wallets }

/-- `payment.create`. -/
def createPayment (db : Db) (type : PaymentType) (profileId : ℕ) (amount : ℚ)
    (paymentMethod : PaymentMethod) (status : PaymentStatus)
    (description : PaymentDescription) : Db :=
  { db with
    payments := db.payments ++
      [{ type, profileId, amount := Decimal.column amount, paymentMethod, status,
         description }] }

/-- The wallet found first, in creation order, among those of an owner type that belong to
no profile. -/
def findSharedWallet (db : Db) (ownerType : WalletOwnerType) : Option ℕ :=
  (Table.findFirst db.wallets fun w => w.ownerType = ownerType ∧ w.profileId = none).map Prod.fst

/-- `wallet.create` for an owner type. -/
def createSharedWallet (db : Db) (ownerType : WalletOwnerType) : Db × ℕ :=
  ({ db with wallets := db.wallets ++ [{ ownerType, profileId := none, balance := 0 }] },
    db.wallets.length)

/-- `getOrCreateProfileWallet`: one upsert. -/
def upsertProfileWallet (db : Db) (profileId : ℕ) : Db × ℕ :=
  match Table.findFirst db.wallets fun w => w.ownerType = .profile ∧ w.profileId = profileId with
  | some (walletId, _) => (db, walletId)
  | none =>
    ({ db with
        wallets := db.wallets ++ [{ ownerType := .profile, profileId, balance := 0 }] },
      db.wallets.length)

/-- `recomputeBillingStatus`: CLEAR, BLOCKED or PENDING_PAYMENT, from what is still
unpaid. -/
def recomputeBillingStatus (db : Db) (profileId blockThreshold : ℕ) : Db :=
  let stillUnpaid :=
    (Table.findMany db.penalties fun _ p => p.profileId = profileId ∧ p.owed).length
  let billingStatus : BillingStatus :=
    if stillUnpaid = 0 then .clear
    else if blockThreshold ≤ stillUnpaid then .blocked
    else .pendingPayment
  { db with
    profiles := Table.update db.profiles profileId fun p => { p with billingStatus } }

/-- `penalty.updateMany` on one penalty that is still owed, setting `paid_at`. -/
def claimPenalty (db : Db) (penaltyId : ℕ) : Option Db :=
  (Table.claim db.penalties penaltyId Penalty.owed fun p => { p with paid := true }).map
    fun penalties => { db with penalties }

/-! ### Wallet transactions -/

/-- The ledger row and the balance change of a credit. -/
def credit (db : Db) (walletId : ℕ) (type : WalletTransactionType) (amount : ℚ)
    (referenceType : ReferenceType) (referenceId : Option ℕ) : Db :=
  (db.createTransaction walletId type amount referenceType referenceId).incrementBalance
    walletId amount

/-- The transaction of `debitProfileWallet`. -/
def debit (db : Db) (walletId : ℕ) (type : WalletTransactionType) (amount : ℚ)
    (referenceType : ReferenceType) (referenceId : Option ℕ) (message : String) :
    Except Exn Db :=
  match db.decrementIfCovered walletId amount with
  | none => .error (.badRequest message)
  | some db => .ok (db.createTransaction walletId type amount referenceType referenceId)

/-- The transaction of `debitProfileAndCreditSystem`. -/
def debitAndCredit (db : Db) (profileWallet systemWallet : ℕ) (amount : ℚ)
    (debitType creditType : WalletTransactionType) (referenceType : ReferenceType)
    (referenceId : ℕ) : Except Exn Db :=
  match db.debit profileWallet debitType amount referenceType referenceId
    "Solde insuffisant dans votre portefeuille" with
  | .error e => .error e
  | .ok db => .ok (db.credit systemWallet creditType amount referenceType referenceId)

/-- The transaction of `grantWelcomeCredit`: the flag is claimed at commit time. -/
def grantWelcomeCredit (db : Db) (profileId walletId : ℕ) (amount : ℚ) : Db :=
  match Table.claim db.profiles profileId (fun p => !p.whatsappActivationBonusGranted) fun p =>
    { p with whatsappActivationBonusGranted := true } with
  | none => db
  | some profiles =>
    { db with profiles }.credit walletId .welcomeCredit amount .profile profileId

/-- The transaction of `payPenaltyFromWallet`. -/
def payPenaltyFromWallet (db : Db) (penaltyId profileId profileWallet systemWallet : ℕ)
    (amount : ℚ) (blockThreshold : ℕ) : Except Exn Db :=
  match db.claimPenalty penaltyId with
  | none => .error (.badRequest "Cette pénalité a déjà été réglée")
  | some db =>
    match db.debit profileWallet .penaltyDebit amount .penalty penaltyId
      "Solde insuffisant pour régler cette pénalité" with
    | .error e => .error e
    | .ok db =>
      let db := db.credit systemWallet .creditPenalty amount .penalty penaltyId
      let db := db.createPayment .penalty profileId amount .wallet .completed
        (.penaltyViaWallet penaltyId)
      .ok (db.recomputeBillingStatus profileId blockThreshold)

/-- The transaction of `confirmPenaltyPaymentManually`: the claim comes last, and rolls
everything back when the penalty has been settled meanwhile. -/
def confirmPenaltyPaymentManually (db : Db) (penaltyId profileId systemWallet : ℕ)
    (amount : ℚ) (paymentMethod : PaymentMethod) : Except Exn Db :=
  let db := db.createPayment .penalty profileId amount paymentMethod .completed
    (.penaltyConfirmed penaltyId)
  let db := db.credit systemWallet .creditPenalty amount .penalty penaltyId
  match db.claimPenalty penaltyId with
  | none => .error (.badRequest "Cette pénalité a déjà été réglée")
  | some db => .ok db

/-- The second transaction of `payAllPenaltiesWithWallet`, after the debit: every listed
penalty is marked paid whatever its state is by now. -/
def markPenaltiesPaid (db : Db) (penaltyIds : List ℕ) (profileId : ℕ) (totalAmount : ℚ)
    (blockThreshold : ℕ) : Db :=
  let db := { db with
    penalties := Table.updateMany db.penalties (fun i _ => i ∈ penaltyIds) fun p =>
      { p with paid := true } }
  let db := db.createPayment .penalty profileId totalAmount .wallet .completed
    (.penaltiesViaWallet penaltyIds.length)
  db.recomputeBillingStatus profileId blockThreshold

/-- The transaction of `recordRegistrationPayment`. -/
def recordRegistrationPayment (db : Db) (systemWallet profileId : ℕ) (amount : ℚ) : Db :=
  (db.createPayment .registration profileId amount .other .completed
    (.registration profileId)).credit systemWallet .creditRegistration amount .profile profileId

/-- The transaction of `recordJobPostingPayment`. -/
def recordJobPostingPayment (db : Db) (systemWallet jobOfferId employerId : ℕ) (amount : ℚ) : Db :=
  (db.createPayment .jobPosting employerId amount .other .completed
    (.jobPosting jobOfferId)).credit systemWallet .creditJobPosting amount .jobOffer jobOfferId

/-! ### Payment requests -/

/-- `paymentRequest.create` of a request that was settled otherwise: it is born APPROVED and
carries no request type. -/
def createApprovedRequest (db : Db) (profileId token createdAt : ℕ) (amount : ℚ)
    (contactUnlockAttemptId : Option ℕ) : Db :=
  { db with
    requests := db.requests ++
      [{ profileId, token, status := .approved, amount := Decimal.column amount, createdAt,
         requestType := none, contactUnlockAttemptId, penaltyIds := [], phone := none,
         operator := none, gateway := none, gatewayPaymentRef := none,
         gatewayTxId := none }] }

/-- `paymentRequest.updateMany` on one request whose status satisfies `p`. -/
def claimRequest (db : Db) (id : ℕ) (p : PaymentRequest → Bool)
    (f : PaymentRequest → PaymentRequest) : Option Db :=
  (Table.claim db.requests id p f).map fun requests => { db with requests }

/-- `paymentRequest.update` on one request, whatever its status. -/
def updateRequest (db : Db) (id : ℕ) (f : PaymentRequest → PaymentRequest) : Db :=
  { db with requests := Table.update db.requests id f }

/-- The gateway's transaction id is written only when there is one. -/
def withTx (transactionId : Option ℕ) (r : PaymentRequest) : PaymentRequest :=
  { r with gatewayTxId := transactionId.or r.gatewayTxId }

/-- The penalties a penalty request pays for: those it was priced for, or, for a request
older than that column, those that existed when it was created. -/
def pricedPenalties (r : PaymentRequest) (i : ℕ) (p : Penalty) : Bool :=
  p.profileId = r.profileId && p.owed &&
    (if r.penaltyIds = [] then p.createdAt ≤ r.createdAt else i ∈ r.penaltyIds)

/-- The transaction of `handlePenaltyPostPayment`. -/
def settlePricedPenalties (db : Db) (r : PaymentRequest) (blockThreshold : ℕ) : Db :=
  { db with
    penalties := Table.updateMany db.penalties (pricedPenalties r) fun p =>
      { p with paid := true } }.recomputeBillingStatus r.profileId blockThreshold

/-- The transaction of `persistApprovedPayment`: `none` when another thread settled the
request first. -/
def persistApprovedPayment (db : Db) (id : ℕ) (r : PaymentRequest)
    (context : PaymentProcessingContext) (transactionId : Option ℕ)
    (systemWallet mobileMoneyWallet : ℕ) : Option Db :=
  (db.claimRequest id (fun r => r.status.isOpen) fun r =>
    withTx transactionId { r with status := .approved }).map fun db =>
      let db := db.createPayment context.paymentType r.profileId context.amount .mobileMoney
        .completed .ofRequest
      let db := db.credit systemWallet context.systemRowType context.amount .paymentRequest id
      db.credit mobileMoneyWallet .mobileMoneyCredit context.amount
        (.paymentRequestVia r.gateway r.operator) id

/-- The FAILED payment row of `persistFailedPayment` and of the poller's `recordFailure`. -/
def recordFailure (db : Db) (type : PaymentType) (profileId : ℕ) (amount : ℚ) : Db :=
  db.createPayment type profileId amount .mobileMoney .failed .failedRequest

/-! ### Withdrawals, payouts and referrals -/

/-- The transaction of `recordMobileMoneyWithdrawal`. -/
def recordMobileMoneyWithdrawal (db : Db) (walletId : ℕ) (amount : ℚ)
    (description reference : Option String) : Except Exn Db :=
  db.debit walletId .mobileMoneyWithdrawal amount (.withdrawal reference description) none
    "Solde insuffisant dans le portefeuille Mobile Money"

/-- The COMPLETED transaction of `MobileMoneyPayoutService.settle`: the money has left, so
the ledger records it whatever its balance. -/
def settlePayout (db : Db) (payoutId walletId : ℕ) (payout : MobileMoneyPayout) : Option Db :=
  (Table.claim db.payouts payoutId (fun p => p.status = .pending) fun p =>
    { p with status := .completed }).map fun payouts =>
      ({ db with payouts }.incrementBalance walletId (-Decimal.value payout.amount)).createTransaction
        walletId .mobileMoneyWithdrawal (Decimal.value payout.amount) (.payout payout.gateway)
        payoutId

/-- The FAILED statement of `MobileMoneyPayoutService.settle`. -/
def failPayout (db : Db) (payoutId : ℕ) : Option Db :=
  (Table.claim db.payouts payoutId (fun p => p.status = .pending) fun p =>
    { p with status := .failed }).map fun payouts => { db with payouts }

/-- The transaction of `settleForReferee`: the claim, then one credit for each side. -/
def settleReferral (db : Db) (referralId referrerWallet refereeWallet : ℕ)
    (referrerAmount refereeAmount : ℤ) : Option Db :=
  (Table.claim db.referrals referralId
    (fun r => r.status = .pending || r.status = .qualifiedOnHold) fun r =>
      { r with status := .rewarded }).map fun referrals =>
        ({ db with referrals }.credit referrerWallet .referralCredit referrerAmount
          .referralReferrer referralId).credit refereeWallet .referralCredit refereeAmount
          .referralReferee referralId

end Db

end Rabotka.Money
