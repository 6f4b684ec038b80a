import Rabotka.Hiring.Schema
import Rabotka.Lib.Faulty

/-!
# Wallets and the records of an unlock payment

The tables that paying for a contact unlock from a wallet reads and writes, and the operations of
the wallet service and of the invoice service that it calls. A row's identifier is its position in
its table; amounts are hundredths of a franc and instants are milliseconds.

Every statement that goes to the database is a call with a name of its own (`Site`), which may
throw; the name of a call in a loop carries the row that the round is about. The beginning of a
transaction fails like its first statement, and a unique key that is taken is a call that throws.
-/

namespace Rabotka.Unlocking

open Faulty
open Hiring (JobOffer Application ContactUnlockAttempt)

/-! ### Tables -/

inductive WalletOwner
  | system
  | user (id : ℕ)
  | profile (id : ℕ)
  | mobileMoney
  deriving DecidableEq

structure Wallet where
  owner : WalletOwner
  balance : ℕ
  deriving DecidableEq

inductive WalletTransactionType
  | creditPenalty | creditCommission | creditRegistration | creditJobPosting | welcomeCredit
  | manualCredit | contactUnlockDebit | contactUnlockPayment | contactUnlockCreditConversion
  | penaltyDebit | mobileMoneyCredit | mobileMoneyWithdrawal | topUpCredit | referralCredit
  deriving DecidableEq

/-- A row whose `reference_type` is `contact_unlock_attempt`. -/
structure WalletTransaction where
  walletId : ℕ
  type : WalletTransactionType
  amount : ℕ
  referenceId : ℕ
  deriving DecidableEq

inductive PaymentRequestStatus
  | pending | processing | submitted | approved | rejected
  deriving DecidableEq

inductive PaymentRequestType
  | penaltyBatch | penaltyResolution | contactUnlock | recommendationContact | walletTopUp
  | businessSubscription
  deriving DecidableEq

structure PaymentRequest where
  profileId : ℕ
  token : ℕ
  status : PaymentRequestStatus
  amount : ℕ
  paymentReference : Option ℕ
  contactUnlockAttemptId : Option ℕ
  requestType : Option PaymentRequestType
  deriving DecidableEq

inductive PaymentType
  | registration | jobPosting | penalty | contactUnlock | walletTopUp | businessSubscription
  deriving DecidableEq

inductive PaymentMethod
  | mobileMoney | card | wallet | other
  deriving DecidableEq

inductive PaymentStatus
  | pending | completed | failed | refunded
  deriving DecidableEq

structure Payment where
  type : PaymentType
  profileId : ℕ
  amount : ℕ
  method : PaymentMethod
  transactionId : ℕ
  status : PaymentStatus
  deriving DecidableEq

/-- An invoice with the reason `CONTACT_UNLOCK`. -/
structure Invoice where
  profileId : ℕ
  paymentRequestId : Option ℕ
  amount : ℕ
  relatedEntityId : ℕ
  deriving DecidableEq

structure Profile where
  billingBlocked : Bool
  deriving DecidableEq

structure Penalty where
  profileId : ℕ
  paid : Bool
  deleted : Bool
  appliedAt : ℤ
  deriving DecidableEq

/-- A row of the contact ledger with the origin `MISSION`. -/
structure ContactRecord where
  employerId : ℕ
  workerId : ℕ
  amount : ℕ
  jobOfferId : ℕ
  applicationId : ℕ
  contactUnlockAttemptId : ℕ
  deriving DecidableEq

/-- The database, with the one setting that is read. -/
structure Db where
  profiles : List Profile
  penalties : List Penalty
  offers : List JobOffer
  applications : List Application
  attempts : List ContactUnlockAttempt
  wallets : List Wallet
  walletTransactions : List WalletTransaction
  paymentRequests : List PaymentRequest
  payments : List Payment
  invoices : List Invoice
  contactRecords : List ContactRecord
  penaltyHardBlockDays : ℕ
  deriving DecidableEq

/-- The owner's balance; a wallet that does not exist yet will be made with nothing on it. -/
def Db.balance (db : Db) (owner : WalletOwner) : ℕ :=
  ((db.wallets.find? fun w => w.owner = owner).map Wallet.balance).getD 0

/-! ### Calls -/

/-- The calls of one payment. -/
inductive Site
  -- the checks
  | findAttempt | findProfile | getPenaltyHardBlockDays | countPenalties | findOffer
  -- the debit
  | upsertPayerWallet | findSystemWallet | createSystemWallet
  | decrementPayer | createDebit | incrementSystem | createCredit | commitDebit
  -- the records of the payment
  | createRequest | createPayment | findInvoice | createInvoice
  -- the payment for one attempt
  | findJob | payAttempt | rereadAttempt
  -- the payment for a job with several places
  | payJob | findPending | payPending (attemptId : ℕ) | findTrigger
  -- the applications that follow, and the contact ledger
  | findApplications | acceptApplications | closeFilled (jobOfferId : ℕ)
  | findUnlocked | upsertRecord (attemptId : ℕ) | invalidateRecords (attemptId : ℕ)
  -- the refund
  | upsertRefundedWallet | createRefund | incrementRefunded | commitRefund
  deriving DecidableEq

/-- A program of the unlock service. -/
abbrev Op (α : Type) := Prog Site Db α

/-! ### The wallet service -/

/-- `prisma.wallet.upsert` with nothing to update. -/
def Db.upsertWallet (db : Db) (owner : WalletOwner) : ℕ × Db :=
  match db.wallets.findIdx? fun w => w.owner = owner with
  | some id => (id, db)
  | none => (db.wallets.length, { db with wallets := db.wallets ++ [{ owner, balance := 0 }] })

def Db.createWalletTransaction (db : Db) (walletId : ℕ) (type : WalletTransactionType)
    (amount referenceId : ℕ) : Db :=
  { db with
    walletTransactions := db.walletTransactions ++ [{ walletId, type, amount, referenceId }] }

def Db.incrementBalance (db : Db) (walletId amount : ℕ) : Db :=
  { db with
    wallets := Table.update db.wallets walletId fun w => { w with balance := w.balance + amount } }

def getOrCreateProfileWallet (site : Site) (profileId : ℕ) : Op ℕ :=
  call site fun db => db.upsertWallet (.profile profileId)

def getOrCreateSystemWallet : Op ℕ := do
  match ← read .findSystemWallet fun db => db.wallets.findIdx? fun w => w.owner = .system with
  | some id => return id
  | none =>
    call .createSystemWallet fun db =>
      (db.wallets.length, { db with wallets := db.wallets ++ [{ owner := .system, balance := 0 }] })

/-- The update of the payer's wallet: it counts the rows on which the amount is left. -/
def decrementBalance (walletId amount : ℕ) : Op Bool :=
  call .decrementPayer fun db =>
    match Table.claim db.wallets walletId (fun w => amount ≤ w.balance)
      fun w => { w with balance := w.balance - amount } with
    | some wallets => (true, { db with wallets })
    | none => (false, db)

def debitProfileAndCreditSystem (profileId amount : ℕ)
    (debitType creditType : WalletTransactionType) (referenceId : ℕ) : Op Unit := do
  let profileWallet ← getOrCreateProfileWallet .upsertPayerWallet profileId
  let systemWallet ← getOrCreateSystemWallet
  atomically do
    if ← decrementBalance profileWallet amount then
      write .createDebit fun db =>
        db.createWalletTransaction profileWallet debitType amount referenceId
      write .incrementSystem fun db => db.incrementBalance systemWallet amount
      write .createCredit fun db =>
        db.createWalletTransaction systemWallet creditType amount referenceId
      write .commitDebit id
    else refuse "Solde insuffisant dans votre portefeuille"

def creditProfileWallet (profileId amount : ℕ) (type : WalletTransactionType)
    (referenceId : ℕ) : Op Unit :=
  if amount ≤ 0 then refuse "Credit amount must be positive"
  else do
    let wallet ← getOrCreateProfileWallet .upsertRefundedWallet profileId
    atomically do
      write .createRefund fun db => db.createWalletTransaction wallet type amount referenceId
      write .incrementRefunded fun db => db.incrementBalance wallet amount
      write .commitRefund id

def refundProfileWallet (profileId amount : ℕ) (type : WalletTransactionType)
    (referenceId : ℕ) : Op Unit :=
  creditProfileWallet profileId amount type referenceId

/-! ### The invoice service -/

/-- `InvoiceService.create`, for the invoice of a payment request. -/
def createInvoice (profileId paymentRequestId amount relatedEntityId : ℕ) : Op Unit :=
  if amount ≤ 0 then refuse "Invoice amount must be positive"
  else do
    let existing ← read .findInvoice fun db =>
      db.invoices.find? fun invoice => invoice.paymentRequestId = some paymentRequestId
    match existing with
    | some _ => return
    | none =>
      write .createInvoice fun db =>
        { db with
          invoices := db.invoices ++
            [{ profileId, paymentRequestId := some paymentRequestId, amount, relatedEntityId }] }

end Rabotka.Unlocking
