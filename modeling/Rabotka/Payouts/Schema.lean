import Rabotka.Lib.Table

/-!
# Payouts and the gateway that executes them

The payouts of the administrators, the mobile-money wallets with the withdrawals that settled
payouts wrote, and on the other side the transfers of the gateway. Stored amounts are whole
hundredths of a franc; the identifier of a row is its position. A transfer is named by the
identifier that `randomUUID` drew for it, and from then on it has a row, so that identifiers are
positions here too; until the request reaches the gateway the row is `unsent`.

The gateway executes a transfer or gives it up in a step of its own, and it is honest: it
answers COMPLETED only for a transfer that it has executed, and FAILED only for one that it has
given up and will never execute. It may always fail to answer, or to say how a transfer ended.
-/

namespace Rabotka.Payouts

/-! ### Rows -/

inductive PayoutStatus
  | pending | completed | failed
  deriving DecidableEq

/-- A text, with the numbers that the code formats into it. -/
inductive Message
  | text (s : String)
  | ledgerBalance (balance : ℤ)
  | gatewayBalance (label : String) (live : ℚ) (currency : String)
  deriving DecidableEq

inductive Exn
  | badRequest (message : Message)
  | conflict (message : String)
  | notFound (message : String)
  | serviceUnavailable (message : String)
  | error (message : Message)
  deriving DecidableEq

/-- `err.message`. -/
def Exn.message : Exn → Message
  | .badRequest m | .error m => m
  | .conflict s | .notFound s | .serviceUnavailable s => .text s

structure MobileMoneyPayout where
  clientRequestId : ℕ
  createdAt : ℤ
  amount : ℤ
  currency : String
  operator : String
  country : String
  gateway : String
  status : PayoutStatus
  gatewayRef : Option ℕ
  gatewayTxId : Option ℕ
  failureReason : Option Message
  deriving DecidableEq

/-- A wallet of the mobile-money kind. -/
structure Wallet where
  balance : ℤ
  deriving DecidableEq

/-- A `MOBILE_MONEY_WITHDRAWAL` that refers to a payout. -/
structure Withdrawal where
  walletId : ℕ
  amount : ℤ
  gateway : String
  referenceId : ℕ
  deriving DecidableEq

/-- How far the gateway is with a transfer. -/
inductive Progress
  | unsent | open | executed | failed
  deriving DecidableEq

structure Transfer where
  externalId : ℕ
  amount : ℤ
  progress : Progress
  deriving DecidableEq

/-- The database and the gateway. -/
structure World where
  wallets : List Wallet
  withdrawals : List Withdrawal
  payouts : List MobileMoneyPayout
  transfers : List Transfer

/-! ### The gateway's interface -/

/-- A network of the gateway. -/
structure Operator where
  code : String
  country : Option String
  currency : Option String
  deriving DecidableEq

structure GatewayMetadata where
  key : String
  label : String
  deriving DecidableEq

structure GatewayBalance where
  currency : String
  balance : ℚ
  deriving DecidableEq

/-- The `status` texts of the gateway's answers. -/
inductive PawapayStatus
  | accepted | duplicateIgnored | rejected | notFound | completed | failed | other
  deriving DecidableEq

/-- What an answer says about a payout under `data`. -/
structure PayoutData where
  status : PawapayStatus
  providerTransactionId : Option ℕ
  failureCode : String
  deriving DecidableEq

structure Body where
  status : PawapayStatus
  failureCode : String
  data : PayoutData
  deriving DecidableEq

structure PawapayResponse where
  status : ℕ
  body : Option Body
  deriving DecidableEq

structure PayoutStatusResult where
  status : PayoutStatus
  transactionId : Option ℕ
  failureReason : Option String
  deriving DecidableEq

/-- How `checkPayoutStatus` reads an answer. -/
def PawapayResponse.payoutStatus (res : PawapayResponse) : PayoutStatusResult :=
  match res.body with
  | none => ⟨.pending, none, none⟩
  | some body =>
    if res.status ≠ 200 then ⟨.pending, none, none⟩
    else if body.status = .notFound then ⟨.failed, none, some "NOT_FOUND"⟩
    else if body.data.status = .completed then
      ⟨.completed, body.data.providerTransactionId, none⟩
    else if body.data.status = .failed then
      ⟨.failed, none,
        if body.data.failureCode = "" then none else some body.data.failureCode⟩
    else ⟨.pending, none, none⟩

/-- How `initiatePayout` reads an answer: the transfer was refused. -/
def PawapayResponse.isRefusal (res : PawapayResponse) : Bool :=
  res.status < 500 && !(res.body.any fun b => b.status = .accepted || b.status = .duplicateIgnored)

/-- An answer the gateway can give about a transfer. -/
def PawapayResponse.isHonest (res : PawapayResponse) (t : Transfer) : Bool :=
  match res.payoutStatus.status with
  | .pending => true
  | .completed => t.progress = .executed
  | .failed => t.progress = .failed

/-! ### Commands -/

inductive Cmd
  | findByClientRequestId (clientRequestId : ℕ)
  | findById (id : ℕ)
  | findByGatewayRef (ref : ℕ)
  | findStale
  | findPage (status : Option PayoutStatus) (skip take : ℕ)
  | activePayoutGateway
  | activeOperators
  | getBalances (country : String)
  | findMobileMoneyWallet
  | createMobileMoneyWallet
  | createPayout (row : MobileMoneyPayout)
  | findOperator (operator currency : String)
  | randomUUID (externalId : ℕ) (amount : ℤ)
  | postPayout (ref : ℕ)
  | setGatewayRef (id ref : ℕ)
  | markFailed (id : ℕ) (failureReason : Message)
  | getPayout (ref : ℕ)
  | claimCompleted (id : ℕ) (gatewayTxId : Option ℕ) (w : Withdrawal)
  | claimFailed (id : ℕ) (failureReason : Message)
  | execute (ref : ℕ)
  | giveUp (ref : ℕ)

/-- The answers. `activePayoutGateway` is `none` where the active gateway sends no payouts, and
`createPayout` where the client request id is taken. -/
abbrev Resp : Cmd → Type
  | .findByClientRequestId _ | .findByGatewayRef _ => Option (ℕ × MobileMoneyPayout)
  | .findById _ => Option MobileMoneyPayout
  | .findStale | .findPage _ _ _ => List (ℕ × MobileMoneyPayout)
  | .activePayoutGateway => Option GatewayMetadata
  | .activeOperators => List Operator
  | .getBalances _ => List GatewayBalance
  | .findMobileMoneyWallet => Option (ℕ × Wallet)
  | .createMobileMoneyWallet => ℕ × Wallet
  | .createPayout _ => Option ℕ
  | .findOperator _ _ => Bool
  | .randomUUID _ _ => ℕ
  | .postPayout _ => Option PawapayResponse
  | .getPayout _ => PawapayResponse
  | .claimCompleted _ _ _ | .claimFailed _ _ => Bool
  | _ => Unit

/-- What the environment decides: the instant, the answers of the gateway, and whether a request
that got no answer has arrived. -/
structure Env where
  now : ℤ := 0
  gateway : Option GatewayMetadata := none
  operators : List Operator := []
  balances : List GatewayBalance := []
  supported : Bool := false
  response : Option PawapayResponse := none

namespace World

def findPayout (w : World) (p : MobileMoneyPayout → Bool) : Option (ℕ × MobileMoneyPayout) :=
  Table.findFirst w.payouts p

/-- `RECONCILE_AFTER_MS`. -/
def reconcileAfterMs : ℤ := 30000

/-- `RECONCILE_BATCH`. -/
def reconcileBatch : ℕ := 5

/-- Pending payouts with a reference, the oldest first. -/
def stale (w : World) (now : ℤ) : List (ℕ × MobileMoneyPayout) :=
  ((Table.findMany w.payouts fun _ r => r.status = .pending ∧ r.gatewayRef.isSome ∧
    r.createdAt < now - reconcileAfterMs).mergeSort
      fun x y => x.2.createdAt ≤ y.2.createdAt).take reconcileBatch

def updatePayout (w : World) (id : ℕ) (f : MobileMoneyPayout → MobileMoneyPayout) : World :=
  { w with payouts := Table.update w.payouts id f }

/-- Moves a transfer on from where `p` holds. -/
def advance (w : World) (ref : ℕ) (p : Progress → Bool) (after : Progress) : World :=
  { w with
    transfers := Table.update w.transfers ref fun t =>
      if p t.progress then { t with progress := after } else t }

/-- The transaction of `settle`: the payout is claimed, the ledger debited and the withdrawal
recorded. -/
def complete (w : World) (id : ℕ) (gatewayTxId : Option ℕ) (withdrawal : Withdrawal) : World :=
  { w with
    payouts := Table.update w.payouts id fun r => { r with status := .completed, gatewayTxId }
    wallets := Table.update w.wallets withdrawal.walletId fun x =>
      { x with balance := x.balance - withdrawal.amount }
    withdrawals := w.withdrawals ++ [withdrawal] }

/-- The payout is still PENDING. -/
def isPending (w : World) (id : ℕ) : Bool :=
  (w.payouts[id]?).any fun r => r.status = .pending

end World

/-- What a command does. -/
def exec (w : World) (ε : Env) : (c : Cmd) → Option (World × Resp c)
  | .findByClientRequestId k => some (w, w.findPayout fun r => r.clientRequestId = k)
  | .findById id => some (w, w.payouts[id]?)
  | .findByGatewayRef ref => some (w, w.findPayout fun r => r.gatewayRef = some ref)
  | .findStale => some (w, w.stale ε.now)
  | .findPage status skip take =>
    some (w, (((Table.findMany w.payouts fun _ r => status.all (r.status = ·)).reverse).drop
      skip).take take)
  | .activePayoutGateway => some (w, ε.gateway)
  | .activeOperators => some (w, ε.operators)
  | .getBalances _ => some (w, ε.balances)
  | .findMobileMoneyWallet => some (w, (w.wallets[0]?).map fun x => (0, x))
  | .createMobileMoneyWallet =>
    some ({ w with wallets := w.wallets ++ [⟨0⟩] }, w.wallets.length, ⟨0⟩)
  | .createPayout row =>
    if w.payouts.any fun r => r.clientRequestId = row.clientRequestId then some (w, none)
    else
      -- the defaults of the columns
      some ({ w with
        payouts := w.payouts ++ [{ row with
          createdAt := ε.now, status := .pending, gatewayRef := none, gatewayTxId := none,
          failureReason := none }] }, some w.payouts.length)
  | .findOperator _ _ => some (w, ε.supported)
  | .randomUUID externalId amount =>
    some ({ w with transfers := w.transfers ++ [⟨externalId, amount, .unsent⟩] },
      w.transfers.length)
  | .postPayout ref =>
    some (w.advance ref (· = .unsent)
      (if ε.response.any PawapayResponse.isRefusal then .failed else .open), ε.response)
  | .setGatewayRef id ref =>
    some (w.updatePayout id fun r => { r with gatewayRef := some ref }, ())
  | .markFailed id reason =>
    some (w.updatePayout id fun r =>
      { r with status := .failed, failureReason := some reason }, ())
  | .getPayout ref => do
    let res ← ε.response
    let t ← w.transfers[ref]?
    if res.isHonest t then some (w, res) else none
  | .claimCompleted id gatewayTxId withdrawal =>
    if w.isPending id then some (w.complete id gatewayTxId withdrawal, true)
    else some (w, false)
  | .claimFailed id reason =>
    if w.isPending id then
      some (w.updatePayout id fun r =>
        { r with status := .failed, failureReason := some reason }, true)
    else some (w, false)
  | .execute ref => some (w.advance ref (· = .open) .executed, ())
  | .giveUp ref => some (w.advance ref (fun p => p = .unsent || p = .open) .failed, ())

end Rabotka.Payouts
