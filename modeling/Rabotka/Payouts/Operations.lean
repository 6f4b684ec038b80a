import Rabotka.Lib.Decimal
import Rabotka.Lib.RelyGuarantee
import Rabotka.Lib.Tagged
import Rabotka.Payouts.Schema

/-!
# Sending and settling payouts

`MobileMoneyPayoutService` call by call: `send`, `refresh`, `handleCallback` and `list`, on
`initiatePayout` and `checkPayoutStatus` of the gateway. The transaction of `settle` is one
call. The steps of the gateway itself, which executes a transfer or gives it up, are requests
of their own, so that they fall anywhere between the calls of the service. The audit trail,
phone numbers, notes and the mapping of rows to items are left out.
-/

namespace Rabotka.Payouts

open Async Decimal

/-- An operation of this service. -/
abbrev Prog (α : Type) := Op Resp Exn α

/-- Issues one call. -/
def issue (c : Cmd) : Prog (Resp c) := Op.cmd c

/-! ### The gateway -/

/-- `REJECTION_MESSAGES`. -/
def rejectionMessages : List (String × String) :=
  [("INVALID_PHONE_NUMBER", "Numéro de téléphone invalide."),
    ("INVALID_PAYER_FORMAT", "Numéro de téléphone invalide."),
    ("PROVIDER_TEMPORARILY_UNAVAILABLE",
      "L'opérateur est momentanément indisponible. Réessayez dans quelques minutes."),
    ("AMOUNT_OUT_OF_BOUNDS", "Ce montant n'est pas accepté par l'opérateur."),
    ("INVALID_AMOUNT", "Montant invalide."),
    ("INVALID_PROVIDER", "Opérateur non pris en charge.")]

def PawapayResponse.rejectionMessage (res : PawapayResponse) : String :=
  let code := (res.body.map Body.failureCode).getD ""
  let shown := if code = "" then s!"HTTP {res.status}" else code
  (rejectionMessages.lookup code).getD s!"Transfert refusé par l'opérateur ({shown})."

/-- `initiatePayout`: the reference of the transfer, unless the gateway refused it. Where the
request throws or the gateway is in trouble, the transfer may have been taken. -/
def initiatePayout (amount : ℤ) (currency : String) (externalId : ℕ) (operator : String) :
    Prog ℕ := do
  if !(← issue (.findOperator operator currency)) then
    throw (.badRequest (.text "Opérateur non pris en charge."))
  let payoutId ← issue (.randomUUID externalId amount)
  match ← tryCatch (issue (.postPayout payoutId)) (fun _ => pure none) with
  | none => return payoutId
  | some res =>
    if res.isRefusal then throw (.badRequest (.text res.rejectionMessage))
    return payoutId

def checkPayoutStatus (gatewayRef : ℕ) : Prog PayoutStatusResult :=
  tryCatch (do
      let res ← issue (.getPayout gatewayRef)
      return res.payoutStatus)
    fun _ => pure ⟨.pending, none, none⟩

/-! ### Settling -/

/-- The wallet, and its balance as it was read. -/
def getOrCreateMobileMoneyWallet : Prog (ℕ × Wallet) := do
  match ← issue .findMobileMoneyWallet with
  | some wallet => return wallet
  | none => issue .createMobileMoneyWallet

/-- `settle` on the row `payout` that was read before. -/
def settle (id : ℕ) (payout : MobileMoneyPayout) (result : PayoutStatusResult) : Prog Unit := do
  match result.status with
  | .completed =>
    let wallet ← getOrCreateMobileMoneyWallet
    let _ ← issue (.claimCompleted id result.transactionId
      { walletId := wallet.1, amount := payout.amount, gateway := payout.gateway,
        referenceId := id })
  | .failed =>
    let _ ← issue (.claimFailed id (.text (result.failureReason.getD "FAILED")))
  | .pending => return

def load (id : ℕ) : Prog MobileMoneyPayout := do
  match ← issue (.findById id) with
  | some payout => return payout
  | none => throw (.notFound "Paiement sortant introuvable.")

def refresh (id : ℕ) : Prog MobileMoneyPayout := do
  let payout ← load id
  match payout.status, payout.gatewayRef with
  | .pending, some ref =>
    let result ← checkPayoutStatus ref
    settle id payout result
    load id
  | _, _ => load id

/-- `handleCallback`; only the reference is read from the payload. -/
def handleCallback (ref : Option ℕ) : Prog Unit := do
  match ref with
  | none => return
  | some ref =>
    match ← issue (.findByGatewayRef ref) with
    | none => return
    | some (id, payout) =>
      if payout.status ≠ .pending then return
      let result ← checkPayoutStatus ref
      settle id payout result

/-- One round of `reconcileStale`. -/
def reconcile (x : ℕ × MobileMoneyPayout) : Prog PUnit :=
  tryCatch (do
      match x.2.gatewayRef with
      | none => return
      | some ref =>
        let result ← checkPayoutStatus ref
        settle x.1 x.2 result)
    fun _ => pure ()

def reconcileStale : Prog Unit := do
  let stale ← issue .findStale
  stale.forM reconcile

def list (status : Option PayoutStatus) (skip take : ℕ) :
    Prog (List (ℕ × MobileMoneyPayout)) := do
  reconcileStale
  issue (.findPage status skip take)

/-! ### Sending -/

structure SendPayoutInput where
  clientRequestId : ℕ
  amount : ℚ
  confirmAmount : ℚ
  operator : String

/-- The text after the last `_`. -/
def countryOfOperator (code : String) : String :=
  ((code.splitOn "_").getLast?).getD code

/-- `operator.country`, else what its code says. -/
def Operator.countryOrCode (o : Operator) : String :=
  o.country.getD (countryOfOperator o.code)

/-- The ledger and the gateway's balance cover the amount, given in francs. -/
def checkBalances (gateway : GatewayMetadata) (country currency : String) (amount : ℤ) :
    Prog Unit := do
  let ledger ← getOrCreateMobileMoneyWallet
  if ledger.2.balance < 100 * amount then
    throw (.badRequest (.ledgerBalance ledger.2.balance))
  let balances ← tryCatch (issue (.getBalances country)) fun _ =>
    throw (.serviceUnavailable "Impossible de lire le solde du moyen de paiement. Réessayez.")
  let live := ((balances.filter fun b => b.currency = currency).map GatewayBalance.balance).sum
  if live < amount then
    throw (.badRequest (.gatewayBalance gateway.label live currency))

/-- The transfer is requested and its reference written; whatever throws here marks the payout
FAILED. -/
def requestTransfer (id : ℕ) (amount : ℤ) (currency operator : String) : Prog Unit :=
  tryCatch (do
      let ref ← initiatePayout amount currency id operator
      issue (.setGatewayRef id ref))
    fun e => do
      issue (.markFailed id e.message)
      throw (match e with
        | .badRequest m => .badRequest m
        | e => .badRequest e.message)

/-- `send` from the insertion on. -/
def createAndRequest (row : MobileMoneyPayout) : Prog MobileMoneyPayout := do
  match ← issue (.createPayout row) with
  | none =>
    match ← issue (.findByClientRequestId row.clientRequestId) with
    | some payout => return payout.2
    | none => throw (.notFound "Paiement sortant introuvable.")
  | some id =>
    requestTransfer id row.amount row.currency row.operator
    load id

/-- The row that `send` inserts; the remaining columns are defaults. -/
def newPayout (clientRequestId : ℕ) (amount : ℤ) (currency : String) (operator : Operator)
    (gateway : GatewayMetadata) : MobileMoneyPayout where
  clientRequestId := clientRequestId
  createdAt := 0
  amount := 100 * amount
  currency := currency
  operator := operator.code
  country := operator.countryOrCode
  gateway := gateway.key
  status := .pending
  gatewayRef := none
  gatewayTxId := none
  failureReason := none

/-- `send` where no payout has the client request id yet. -/
def sendNew (input : SendPayoutInput) : Prog MobileMoneyPayout := do
  let amount := mathRound input.amount
  if amount ≤ 0 then throw (.badRequest (.text "Montant invalide."))
  if mathRound input.confirmAmount ≠ amount then
    throw (.badRequest (.text "Le montant de confirmation ne correspond pas."))
  match ← issue .activePayoutGateway with
  | none =>
    throw (.conflict "Le moyen de paiement actif ne permet pas d'envoyer de l'argent.")
  | some gateway =>
    let operators ← issue .activeOperators
    match operators.find? fun o => o.code = input.operator with
    | none => throw (.badRequest (.text ("Opérateur invalide pour " ++ gateway.label ++ ".")))
    | some operator =>
      let currency := operator.currency.getD "XAF"
      checkBalances gateway operator.countryOrCode currency amount
      createAndRequest (newPayout input.clientRequestId amount currency operator gateway)

def send (input : SendPayoutInput) : Prog MobileMoneyPayout := do
  match ← issue (.findByClientRequestId input.clientRequestId) with
  | some existing => return existing.2
  | none => sendNew input

/-! ### The service -/

/-- A request, or a step of the gateway. -/
inductive Request
  | send (input : SendPayoutInput)
  | refresh (id : ℕ)
  | handleCallback (ref : Option ℕ)
  | list (status : Option PayoutStatus) (skip take : ℕ)
  | execute (ref : ℕ)
  | giveUp (ref : ℕ)

def handler : Request → Prog Unit
  | .send input => do let _ ← Payouts.send input
  | .refresh id => do let _ ← Payouts.refresh id
  | .handleCallback ref => Payouts.handleCallback ref
  | .list status skip take => do let _ ← Payouts.list status skip take
  | .execute ref => issue (.execute ref)
  | .giveUp ref => issue (.giveUp ref)

/-- The service and its gateway. -/
def service : Service World Cmd Resp Request Env Exn where
  exec w _ c ε := exec w ε c
  handler := handler

end Rabotka.Payouts

/-!
## The rules that payouts keep

`Sound` is what holds of the payouts, the transfers and the withdrawals between any two calls:
a payout has at most one transfer, a FAILED payout has none that can still be executed, a
COMPLETED one has been executed, and exactly the COMPLETED ones are debited, once. `Keeps` is
the discipline behind it. A payout without a reference is in the hands of the operation that
created it, the only one that asks for its transfer, writes its reference or marks it FAILED;
once the reference is written, anyone who was told how the transfer ended may settle it.
-/

namespace Rabotka.Payouts

/-! ### What holds between two calls -/

/-- The debit of a payout. -/
def MobileMoneyPayout.withdrawal (r : MobileMoneyPayout) (id : ℕ) : Withdrawal where
  walletId := 0
  amount := r.amount
  gateway := r.gateway
  referenceId := id

namespace World

/-- The debits of a payout. -/
def withdrawalsOf (w : World) (id : ℕ) : List Withdrawal :=
  w.withdrawals.filter fun x => x.referenceId = id

/-- The balance of the ledger, in hundredths. -/
def ledger (w : World) : ℤ :=
  ((w.wallets[0]?).map Wallet.balance).getD 0

/-- What the payouts of a status add up to. -/
def total (w : World) (s : PayoutStatus) : ℤ :=
  Table.sumBy (fun _ r => if r.status = s then r.amount else 0) w.payouts

/-- No transfer of the payout can still be executed, and none has been. -/
def Void (w : World) (id : ℕ) : Prop :=
  ∀ (t : ℕ) (a : Transfer), w.transfers[t]? = some a → a.externalId = id → a.progress = .failed

/-- The payout has its reference, or it has no transfer. -/
def Handed (w : World) (id : ℕ) : Prop :=
  (∃ r : MobileMoneyPayout, w.payouts[id]? = some r ∧ r.gatewayRef.isSome) ∨ w.Void id

end World

/-- What holds of one payout. -/
structure Fits (w : World) (id : ℕ) (r : MobileMoneyPayout) : Prop where
  amount : 0 < r.amount
  reference : ∀ t, r.gatewayRef = some t → ∃ a, w.transfers[t]? = some a ∧ a.externalId = id
  completed : r.status = .completed → ∃ t a, r.gatewayRef = some t ∧
    w.transfers[t]? = some a ∧ a.progress = .executed
  failed : r.status = .failed → w.Void id
  debits : w.withdrawalsOf id = if r.status = .completed then [r.withdrawal id] else []

/-- What holds of payouts, transfers and withdrawals. -/
structure Sound (w : World) : Prop where
  fits : ∀ (id : ℕ) (r : MobileMoneyPayout), w.payouts[id]? = some r → Fits w id r
  requests : ∀ (p q : ℕ) (r s : MobileMoneyPayout), w.payouts[p]? = some r →
    w.payouts[q]? = some s → r.clientRequestId = s.clientRequestId → p = q
  transfers : ∀ (t : ℕ) (a : Transfer), w.transfers[t]? = some a →
    ∃ r : MobileMoneyPayout, w.payouts[a.externalId]? = some r ∧ r.amount = a.amount
  unique : ∀ (t u : ℕ) (a b : Transfer), w.transfers[t]? = some a → w.transfers[u]? = some b →
    a.externalId = b.externalId → t = u
  withdrawals : ∀ x ∈ w.withdrawals, x.referenceId < w.payouts.length
  wallet : w.payouts ≠ [] → w.wallets ≠ []

/-! ### Ownership -/

/-- Which operation created which payout. -/
abbrev Story := List (ℕ × ℕ)

def record (h : Story) (i : ℕ) : (c : Cmd) → Resp c → Story
  | .createPayout _, some id => (i, id) :: h
  | _, _ => h

/-- The world with the story so far. -/
abbrev State := World × Story

/-- The payout is in the hands of the operation that created it. -/
def Held (i id : ℕ) (r : MobileMoneyPayout) (x : State) : Prop :=
  (i, id) ∈ x.2 ∧ x.1.payouts[id]? = some r ∧ r.status = .pending ∧ r.gatewayRef = none

/-- The payout has its reference, and its transfer has come this far. -/
def Told (id : ℕ) (r : MobileMoneyPayout) (progress : Progress) (x : State) : Prop :=
  ∃ (s : MobileMoneyPayout) (t : ℕ) (a : Transfer), x.1.payouts[id]? = some s ∧
    s.withdrawal id = r.withdrawal id ∧ s.gatewayRef = some t ∧ x.1.transfers[t]? = some a ∧
    a.progress = progress

/-- When a call may be issued. -/
def Pre (i : ℕ) : Cmd → State → Prop
  | .createPayout row, x => 0 < row.amount ∧ x.1.wallets ≠ []
  | .randomUUID id amount, x => ∃ r, Held i id r x ∧ r.amount = amount ∧
      ∀ (t : ℕ) (a : Transfer), x.1.transfers[t]? = some a → a.externalId ≠ id
  | .postPayout ref, x => ∃ a, x.1.transfers[ref]? = some a ∧ (i, a.externalId) ∈ x.2
  | .setGatewayRef id ref, x => ∃ r, Held i id r x ∧
      ∃ a, x.1.transfers[ref]? = some a ∧ a.externalId = id
  | .markFailed id _, x => ∃ r, Held i id r x ∧ x.1.Void id
  | .claimCompleted id _ v, x => ∃ r, Told id r .executed x ∧ v = r.withdrawal id
  | .claimFailed id _, x => ∃ r, Told id r .failed x
  | _, _ => True

/-- What stays the same of a payout, whatever happens. -/
def RowLe (r s : MobileMoneyPayout) : Prop :=
  s.amount = r.amount ∧ s.gateway = r.gateway ∧ ∀ t, r.gatewayRef = some t → s.gatewayRef = some t

/-- What stays the same of a transfer, whatever happens. -/
def TransferLe (a b : Transfer) : Prop :=
  b.externalId = a.externalId ∧ (a.progress = .executed → b.progress = .executed) ∧
    (a.progress = .failed → b.progress = .failed)

/-- What stays the same of a payout in the hands of another operation. -/
structure Spared (w v : World) (id : ℕ) : Prop where
  row : ∀ r, w.payouts[id]? = some r → r.gatewayRef = none → v.payouts[id]? = some r
  transfers : ∀ (t : ℕ) (b : Transfer), v.transfers[t]? = some b → b.externalId = id →
    ∃ a, w.transfers[t]? = some a ∧
      (a.progress = .unsent → b.progress = .unsent ∨ b.progress = .failed)

/-- Rows are kept, whoever acts. -/
structure Kept (w v : World) : Prop where
  payouts : Table.Evolves RowLe w.payouts v.payouts
  transfers : Table.Evolves TransferLe w.transfers v.transfers
  wallets : w.wallets.length ≤ v.wallets.length

/-- What the other operations do to the world. -/
structure Rely (i : ℕ) (x y : State) : Prop where
  kept : Kept x.1 y.1
  own : Tagged.of y.2 i = Tagged.of x.2 i
  spared : ∀ id, (i, id) ∈ x.2 → Spared x.1 y.1 id

/-- Every payout has one creator, and what nobody of this run created was handed over
before. -/
structure Owned (x : State) : Prop where
  bound : ∀ i id, (i, id) ∈ x.2 → id < x.1.payouts.length
  unique : ∀ i j id, (i, id) ∈ x.2 → (j, id) ∈ x.2 → i = j
  handed : ∀ id < x.1.payouts.length, (∀ i, (i, id) ∉ x.2) → x.1.Handed id

/-! ### The relations are preorders -/

theorem RowLe.refl (r : MobileMoneyPayout) : RowLe r r :=
  ⟨rfl, rfl, fun _ h => h⟩

theorem RowLe.trans {r s u : MobileMoneyPayout} (h : RowLe r s) (h' : RowLe s u) : RowLe r u :=
  ⟨h'.1.trans h.1, h'.2.1.trans h.2.1, fun t ht => h'.2.2 t (h.2.2 t ht)⟩

theorem TransferLe.refl (a : Transfer) : TransferLe a a :=
  ⟨rfl, id, id⟩

theorem TransferLe.trans {a b c : Transfer} (h : TransferLe a b) (h' : TransferLe b c) :
    TransferLe a c :=
  ⟨h'.1.trans h.1, fun ha => h'.2.1 (h.2.1 ha), fun ha => h'.2.2 (h.2.2 ha)⟩

theorem Kept.refl (w : World) : Kept w w :=
  ⟨.refl RowLe.refl _, .refl TransferLe.refl _, le_rfl⟩

theorem Kept.trans {w v u : World} (h : Kept w v) (h' : Kept v u) : Kept w u :=
  ⟨h.payouts.trans RowLe.trans h'.payouts, h.transfers.trans TransferLe.trans h'.transfers,
    h.wallets.trans h'.wallets⟩

theorem Spared.refl (w : World) (id : ℕ) : Spared w w id :=
  ⟨fun _ hr _ => hr, fun _ b hb _ => ⟨b, hb, .inl⟩⟩

theorem Spared.trans {w v u : World} {id : ℕ} (hkept : Kept v u) (h : Spared w v id)
    (h' : Spared v u id) : Spared w u id := by
  refine ⟨fun r hr hnone => h'.row r (h.row r hr hnone) hnone, fun t c hc hid => ?_⟩
  obtain ⟨b, hb, hbc⟩ := h'.transfers t c hc hid
  obtain ⟨c', hc', hle⟩ := hkept.transfers t b hb
  obtain rfl := Option.some.inj (hc.symm.trans hc')
  obtain ⟨a, ha, hab⟩ := h.transfers t b hb (hle.1.symm.trans hid)
  refine ⟨a, ha, fun hunsent => ?_⟩
  rcases hab hunsent with hb' | hb'
  · exact hbc hb'
  · exact .inr (hle.2.2 hb')

theorem Rely.refl (i : ℕ) (x : State) : Rely i x x :=
  ⟨.refl _, rfl, fun _ _ => .refl _ _⟩

theorem Rely.mem {i id : ℕ} {x y : State} (h : Rely i x y) : (i, id) ∈ y.2 ↔ (i, id) ∈ x.2 := by
  rw [← Tagged.mem_of, ← Tagged.mem_of, h.own]

theorem Rely.trans {i : ℕ} {x y z : State} (h : Rely i x y) (h' : Rely i y z) : Rely i x z :=
  ⟨h.kept.trans h'.kept, h'.own.trans h.own, fun id hid =>
    (h.spared id hid).trans h'.kept (h'.spared id (h.mem.2 hid))⟩

/-! ### What the others leave alone -/

variable {i id : ℕ} {r : MobileMoneyPayout} {x y : State} {w v : World}

/-- Without new transfers, what is void stays void. -/
theorem Spared.void (hkept : Kept w v) (h : Spared w v id) (hvoid : w.Void id) : v.Void id := by
  intro t b hb hid
  obtain ⟨a, ha, -⟩ := h.transfers t b hb hid
  obtain ⟨b', hb', hle⟩ := hkept.transfers t a ha
  obtain rfl := Option.some.inj (hb.symm.trans hb')
  exact hle.2.2 (hvoid t a ha (hle.1.symm.trans hid))

theorem Spared.handed (hkept : Kept w v) (h : Spared w v id) (hhanded : w.Handed id) :
    v.Handed id := by
  rcases hhanded with ⟨r, hr, href⟩ | hvoid
  · obtain ⟨s, hs, hle⟩ := hkept.payouts id r hr
    obtain ⟨t, ht⟩ := Option.isSome_iff_exists.1 href
    exact .inl ⟨s, hs, Option.isSome_iff_exists.2 ⟨t, hle.2.2 t ht⟩⟩
  · exact .inr (h.void hkept hvoid)

theorem Held.rely (h : Rely i x y) (hheld : Held i id r x) : Held i id r y :=
  ⟨h.mem.2 hheld.1, (h.spared id hheld.1).row r hheld.2.1 hheld.2.2.2, hheld.2.2⟩

/-- A transfer that has ended stays as it is. -/
theorem Told.kept {progress : Progress} (hfinal : progress = .executed ∨ progress = .failed)
    (h : Kept x.1 y.1) (htold : Told id r progress x) : Told id r progress y := by
  obtain ⟨s, t, a, hs, hw, href, ha, hprogress⟩ := htold
  obtain ⟨s', hs', hle⟩ := h.payouts id s hs
  obtain ⟨a', ha', hle'⟩ := h.transfers t a ha
  refine ⟨s', t, a', hs', ?_, hle.2.2 t href, ha', ?_⟩
  · rw [← hw, MobileMoneyPayout.withdrawal, hle.1, hle.2.1, MobileMoneyPayout.withdrawal]
  · rcases hfinal with rfl | rfl
    · exact hle'.2.1 hprogress
    · exact hle'.2.2 hprogress

end Rabotka.Payouts
