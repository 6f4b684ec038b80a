import Rabotka.Lib.Service
import Rabotka.Money.Schema
import Rabotka.Referrals.Payout

/-!
# Referrals and what their settlement reads

The referrals, the profiles of the referrers, the payment requests that can trigger a settlement,
and the profile wallets with their transactions. Stored amounts are whole hundredths of a franc,
and the identifier of a row is its position; the statuses are those of the money services.

`exec` is what each call of a settlement does. The transaction that claims a referral and writes
its two credits is one call. Beside them stand the calls of the rest of the system: the status of
a profile changes, a payment request appears, a wallet is topped up.
-/

namespace Rabotka.Referrals

open Money

/-! ### Rows -/

inductive AccountStatus
  | pendingActivation | active | suspended | banned
  deriving DecidableEq

inductive VerificationStatus
  | pending | verified | rejected
  deriving DecidableEq

/-- `settlement_note`, with the numbers that the code formats into it. -/
inductive Note
  | shortfall (base : ℚ) (total : ℤ)
  | nothingConfigured
  | referrerGone
  | holdExpired
  | onHold
  | atCap (rewarded max : ℕ)
  deriving DecidableEq

/-- A referral; `amounts` are those of the referrer and the referee, in francs. -/
structure Referral where
  referrerId : ℕ
  refereeId : ℕ
  createdAt : ℤ
  status : ReferralStatus
  qualifyingPaymentRequestId : Option ℕ
  amounts : Option (ℤ × ℤ)
  settlementNote : Option Note
  deriving DecidableEq

/-- `status: { in: [PENDING, QUALIFIED_ON_HOLD] }`. -/
def Referral.isOpen (r : Referral) : Bool :=
  r.status = .pending || r.status = .qualifiedOnHold

structure Profile where
  status : AccountStatus
  verificationStatus : VerificationStatus
  deleted : Bool
  deriving DecidableEq

structure PaymentRequest where
  profileId : ℕ
  createdAt : ℤ
  status : PaymentRequestStatus
  requestType : Option PaymentRequestType
  contactUnlockAttemptId : Option ℕ
  amount : Option ℕ
  deleted : Bool
  deriving DecidableEq

/-- A wallet of a profile. -/
structure Wallet where
  profileId : ℕ
  balance : ℤ
  deriving DecidableEq

structure WalletTransaction where
  walletId : ℕ
  type : WalletTransactionType
  amount : ℤ
  referenceType : ReferenceType
  referenceId : Option ℕ
  deleted : Bool
  deriving DecidableEq

/-- The database. -/
structure Db where
  referrals : List Referral
  profiles : List Profile
  payments : List PaymentRequest
  wallets : List Wallet
  transactions : List WalletTransaction

/-! ### Reading -/

/-- `HOLD_EXPIRY_DAYS`, in milliseconds. -/
def holdExpiryMs : ℤ := 90 * 24 * 60 * 60 * 1000

/-- A payment that `qualifyForSettlement` selects. -/
def PaymentRequest.qualifies (p : PaymentRequest) (refereeId : ℕ) : Bool :=
  p.profileId = refereeId && p.status = .approved && !p.deleted &&
    (p.requestType = some .contactUnlock || p.requestType = some .recommendationContact ||
      p.contactUnlockAttemptId.isSome)

namespace Db

/-- The oldest of the payments that qualify. -/
def firstQualifying (db : Db) (refereeId : ℕ) : Option (ℕ × PaymentRequest) :=
  ((Table.findMany db.payments fun _ p => p.qualifies refereeId).mergeSort
    fun x y => x.2.createdAt ≤ y.2.createdAt).head?

def findWallet (db : Db) (profileId : ℕ) : Option ℕ :=
  (Table.findFirst db.wallets fun w => w.profileId = profileId).map Prod.fst

/-- What was topped up into a wallet, in hundredths. -/
def topUps (db : Db) (walletId : ℕ) : ℤ :=
  Table.sumBy (fun _ t => if t.walletId = walletId ∧ t.type = .topUpCredit ∧ !t.deleted
    then t.amount else 0) db.transactions

def countRewarded (db : Db) (referrerId : ℕ) : ℕ :=
  (Table.findMany db.referrals fun _ r => r.referrerId = referrerId ∧ r.status = .rewarded).length

/-- The referral is still open. -/
def isOpen (db : Db) (id : ℕ) : Bool :=
  (db.referrals[id]?).any Referral.isOpen

end Db

/-! ### Writing -/

/-- One of the two credits of a settlement, in francs. -/
structure Credit where
  walletId : ℕ
  amount : ℤ
  referenceType : ReferenceType
  deriving DecidableEq

/-- What a settlement writes into the referral. -/
structure Outcome where
  status : ReferralStatus
  qualifyingPaymentRequestId : ℕ
  amounts : Option (ℤ × ℤ)
  settlementNote : Option Note
  deriving DecidableEq

def Referral.settle (r : Referral) (o : Outcome) : Referral :=
  { r with
    status := o.status
    qualifyingPaymentRequestId := some o.qualifyingPaymentRequestId
    amounts := o.amounts.or r.amounts
    settlementNote := o.settlementNote }

/-- The row of a credit of the referral `id`. -/
def Credit.row (c : Credit) (id : ℕ) : WalletTransaction where
  walletId := c.walletId
  type := .referralCredit
  amount := 100 * c.amount
  referenceType := c.referenceType
  referenceId := some id
  deleted := false

namespace Db

/-- `referral.updateMany` on an open referral. -/
def settleReferral (db : Db) (id : ℕ) (o : Outcome) : Db :=
  { db with referrals := Table.update db.referrals id fun r => r.settle o }

/-- One round of the loop over the credits. -/
def credit (db : Db) (id : ℕ) (c : Credit) : Db :=
  { db with
    transactions := db.transactions ++ [c.row id]
    wallets := Table.update db.wallets c.walletId fun w =>
      { w with balance := w.balance + 100 * c.amount } }

end Db

/-! ### Calls -/

inductive Cmd
  | findByReferee (refereeId : ℕ)
  | findQualifying (refereeId : ℕ)
  | findWallet (profileId : ℕ)
  | sumTopUps (walletId : ℕ)
  | findReferrer (profileId : ℕ)
  | getReferralCredits
  | countRewarded (referrerId : ℕ)
  | now
  | close (id : ℕ) (o : Outcome)
  | getOrCreateProfileWallet (profileId : ℕ)
  | reward (id : ℕ) (o : Outcome) (credits : List Credit)
  | setProfile (id : ℕ) (p : Profile)
  | addPayment (p : PaymentRequest)
  | topUp (walletId amount : ℕ)

/-- The answers; `close` and `reward` answer whether they claimed the referral. -/
abbrev Resp : Cmd → Type
  | .findByReferee _ => Option (ℕ × Referral)
  | .findQualifying _ => Option (ℕ × PaymentRequest)
  | .findWallet _ => Option ℕ
  | .sumTopUps _ => ℤ
  | .findReferrer _ => Option Profile
  | .getReferralCredits => ReferralCredits
  | .countRewarded _ => ℕ
  | .now => ℤ
  | .close _ _ | .reward _ _ _ => Bool
  | .getOrCreateProfileWallet _ => ℕ
  | _ => Unit

/-- What the environment decides: the instant and the configuration. -/
structure Env where
  now : ℤ
  credits : ReferralCredits

/-- What a call does. -/
def exec (db : Db) (ε : Env) : (c : Cmd) → Option (Db × Resp c)
  | .findByReferee refereeId =>
    some (db, Table.findFirst db.referrals fun r => r.refereeId = refereeId)
  | .findQualifying refereeId => some (db, db.firstQualifying refereeId)
  | .findWallet profileId => some (db, db.findWallet profileId)
  | .sumTopUps walletId => some (db, db.topUps walletId)
  | .findReferrer profileId => some (db, db.profiles[profileId]?)
  | .getReferralCredits => some (db, ε.credits)
  | .countRewarded referrerId => some (db, db.countRewarded referrerId)
  | .now => some (db, ε.now)
  | .close id o =>
    if db.isOpen id then some (db.settleReferral id o, true) else some (db, false)
  | .getOrCreateProfileWallet profileId =>
    match db.findWallet profileId with
    | some id => some (db, id)
    | none => some ({ db with wallets := db.wallets ++ [⟨profileId, 0⟩] }, db.wallets.length)
  | .reward id o credits =>
    if db.isOpen id then some (credits.foldl (fun db c => db.credit id c)
      (db.settleReferral id o), true)
    else some (db, false)
  | .setProfile id p => some ({ db with profiles := db.profiles.set id p }, ())
  | .addPayment p => some ({ db with payments := db.payments ++ [p] }, ())
  | .topUp walletId amount =>
    some ({ db with
      transactions := db.transactions ++
        [⟨walletId, .topUpCredit, amount, .none, none, false⟩]
      wallets := Table.update db.wallets walletId fun w =>
        { w with balance := w.balance + amount } }, ())

end Rabotka.Referrals

/-!
## Settling referrals

`settleForReferee` with its gate `qualifyForSettlement`, call by call, as the payment hook, the
KYC hook and the summary screen start it. The KYC hook settles the held referrals of a referrer
one after the other, each in a `settleForReferee` of its own. Mails, caches and logs are left
out.
-/

namespace Rabotka.Referrals

open Async Money

/-- What a failing call throws. -/
structure Exn where
  message : String
  deriving DecidableEq

/-- An operation of this service. -/
abbrev Prog (α : Type) := Op Resp Exn α

/-- Issues one call. -/
def issue (c : Cmd) : Prog (Resp c) := Op.cmd c

/-- The outcome of the gate, where it lets a referral through. -/
structure Qualification where
  referralId : ℕ
  referrerId : ℕ
  qualifyingPaymentRequestId : ℕ
  realMoneyBaseFcfa : ℚ
  credits : ReferralCredits

def lifetimeTopUpFcfa (profileId : ℕ) : Prog ℚ := do
  match ← issue (.findWallet profileId) with
  | none => return 0
  | some walletId =>
    let sum ← issue (.sumTopUps walletId)
    return Decimal.value sum

def close (referralId : ℕ) (status : ReferralStatus) (qualifyingPaymentRequestId : ℕ)
    (note : Note) (amounts : Option (ℤ × ℤ)) : Prog Unit := do
  let _ ← issue (.close referralId
    { status, qualifyingPaymentRequestId, amounts, settlementNote := some note })

/-- The base of a settlement. -/
def realMoneyBase (refereeId : ℕ) (qualifying : PaymentRequest) : Prog ℚ := do
  let amount := Decimal.value (qualifying.amount.getD 0 : ℕ)
  if qualifying.requestType = none then
    let topUps ← lifetimeTopUpFcfa refereeId
    return min amount topUps
  else return amount

/-- The referrer must be active and verified; an account that was not for too long forfeits. -/
def checkReferrer (referralId : ℕ) (referral : Referral) (qualifyingId : ℕ) : Prog Bool := do
  match ← issue (.findReferrer referral.referrerId) with
  | none =>
    close referralId .forfeited qualifyingId .referrerGone none
    return false
  | some referrer =>
    if referrer.deleted || referrer.status = .banned then
      close referralId .forfeited qualifyingId .referrerGone none
      return false
    if referrer.status = .active && referrer.verificationStatus = .verified then return true
    let now ← issue .now
    if holdExpiryMs < now - referral.createdAt then
      close referralId .forfeited qualifyingId .holdExpired none
      return false
    close referralId .qualifiedOnHold qualifyingId .onHold none
    return false

/-- The referrer is below the cap. -/
def checkCap (referralId : ℕ) (referral : Referral) (qualifyingId : ℕ)
    (credits : ReferralCredits) : Prog Bool := do
  match credits.maxRewardedPerReferrer with
  | none => return true
  | some max =>
    let rewardedCount ← issue (.countRewarded referral.referrerId)
    if max ≤ rewardedCount then
      close referralId .capped qualifyingId (.atCap rewardedCount max) none
      return false
    return true

def qualifyForSettlement (refereeId : ℕ) : Prog (Option Qualification) := do
  match ← issue (.findByReferee refereeId) with
  | none => return none
  | some (referralId, referral) =>
    if !referral.isOpen then return none
    match ← issue (.findQualifying refereeId) with
    | none => return none
    | some (qualifyingId, qualifying) =>
      let base ← realMoneyBase refereeId qualifying
      if !(← checkReferrer referralId referral qualifyingId) then return none
      let credits ← issue .getReferralCredits
      if !(← checkCap referralId referral qualifyingId credits) then return none
      return some
        { referralId
          referrerId := referral.referrerId
          qualifyingPaymentRequestId := qualifyingId
          realMoneyBaseFcfa := base
          credits }

/-- The two credits, in the order of their wallets. -/
def creditsOf (referrerWallet refereeWallet : ℕ) (payout : ReferralPayout) : List Credit :=
  let referrer : Credit := ⟨referrerWallet, payout.referrerAmount, .referralReferrer⟩
  let referee : Credit := ⟨refereeWallet, payout.refereeAmount, .referralReferee⟩
  if referrerWallet ≤ refereeWallet then [referrer, referee] else [referee, referrer]

/-- `settleForReferee` on a referral that the gate lets through. -/
def settleQualified (refereeId : ℕ) (gate : Qualification) : Prog Unit := do
  let payout := computeReferralPayout gate.realMoneyBaseFcfa gate.credits
  if payout.shortfall then
    close gate.referralId .capped gate.qualifyingPaymentRequestId
      (.shortfall gate.realMoneyBaseFcfa payout.totalPayout) none
    return
  if payout.totalPayout = 0 then
    close gate.referralId .rewarded gate.qualifyingPaymentRequestId .nothingConfigured (some (0, 0))
    return
  let referrerWallet ← issue (.getOrCreateProfileWallet gate.referrerId)
  let refereeWallet ← issue (.getOrCreateProfileWallet refereeId)
  let _ ← issue (.reward gate.referralId
    { status := .rewarded
      qualifyingPaymentRequestId := gate.qualifyingPaymentRequestId
      amounts := some (payout.referrerAmount, payout.refereeAmount)
      settlementNote := none } (creditsOf referrerWallet refereeWallet payout))

def settleForReferee (refereeId : ℕ) : Prog Unit := do
  match ← qualifyForSettlement refereeId with
  | none => return
  | some gate => settleQualified refereeId gate

/-! ### The service -/

/-- A settlement, or a step of the rest of the system. -/
inductive Request
  | settleForReferee (refereeId : ℕ)
  | setProfile (id : ℕ) (p : Profile)
  | addPayment (p : PaymentRequest)
  | topUp (walletId amount : ℕ)

def handler : Request → Prog Unit
  | .settleForReferee refereeId => Referrals.settleForReferee refereeId
  | .setProfile id p => issue (.setProfile id p)
  | .addPayment p => issue (.addPayment p)
  | .topUp walletId amount => issue (.topUp walletId amount)

/-- The settlements, whatever else happens. -/
def service : Service Db Cmd Resp Request Env Exn where
  exec db _ c ε := exec db ε c
  handler := handler

end Rabotka.Referrals
