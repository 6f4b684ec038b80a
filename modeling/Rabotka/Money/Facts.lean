import Rabotka.Money.Operations

/-!
# What a money operation knows and owes

What an operation has read stays true as far as no step ever changes it: a wallet keeps its
owner, a penalty and a payment request keep their terms. And where the books are balanced in
two steps, the history `Debts` records what the operation in between still has to book:
`charges` is money taken from a profile for penalties that are not marked paid yet,
`bookings` is money credited to the system wallet for which no payment row is written yet.

`Pre` collects what the operations know and owe when they take each of their money steps.
-/

namespace Rabotka.Money

open Async List

/-! ### What stays true -/

namespace Db

/-- The wallet exists and belongs to `o`. -/
def Owner (db : Db) (walletId : ℕ) (o : WalletOwnerType × Option ℕ) : Prop :=
  ∃ w, db.wallets[walletId]? = some w ∧ w.owner = o

/-- The penalty exists on the terms of `p`. -/
def HasPenalty (db : Db) (penaltyId : ℕ) (p : Penalty) : Prop :=
  ∃ q, db.penalties[penaltyId]? = some q ∧ q.terms = p.terms

/-- The payment request exists on the terms of `r`. -/
def HasRequest (db : Db) (id : ℕ) (r : PaymentRequest) : Prop :=
  ∃ q, db.requests[id]? = some q ∧ q.terms = r.terms

theorem Owner.lt {db : Db} {w : ℕ} {o : WalletOwnerType × Option ℕ} (h : db.Owner w o) :
    w < db.wallets.length := by
  obtain ⟨x, hx, -⟩ := h
  exact (List.getElem?_eq_some_iff.1 hx).1

end Db

/-- A fact about the database that no step can invalidate. -/
def Persistent (F : Db → Prop) : Prop :=
  ∀ db db', db.Grows db' → F db → F db'

theorem persistent_const (p : Prop) : Persistent fun _ => p :=
  fun _ _ _ h => h

theorem Persistent.and {F G : Db → Prop} (hF : Persistent F) (hG : Persistent G) :
    Persistent fun db => F db ∧ G db :=
  fun db db' hdb h => ⟨hF db db' hdb h.1, hG db db' hdb h.2⟩

theorem Persistent.forall {ι : Sort*} {F : ι → Db → Prop} (h : ∀ x, Persistent (F x)) :
    Persistent fun db => ∀ x, F x db :=
  fun db db' hdb hs x => h x db db' hdb (hs x)

theorem persistent_owner (w : ℕ) (o : WalletOwnerType × Option ℕ) :
    Persistent fun db => db.Owner w o := by
  rintro db db' hdb ⟨x, hx, hown⟩
  obtain ⟨y, hy, hkey⟩ := hdb.wallets w x hx
  exact ⟨y, hy, hkey.trans hown⟩

theorem persistent_hasPenalty (id : ℕ) (p : Penalty) : Persistent fun db => db.HasPenalty id p := by
  rintro db db' hdb ⟨x, hx, hterms⟩
  obtain ⟨y, hy, hkey⟩ := hdb.penalties id x hx
  exact ⟨y, hy, hkey.trans hterms⟩

theorem persistent_hasRequest (id : ℕ) (r : PaymentRequest) :
    Persistent fun db => db.HasRequest id r := by
  rintro db db' hdb ⟨x, hx, hterms⟩
  obtain ⟨y, hy, hkey⟩ := hdb.requests id x hx
  exact ⟨y, hy, hkey.trans hterms⟩

/-! ### What an operation still has to book -/

/-- Money taken by process `pid` from a profile for penalties it has not marked paid yet. -/
structure Charge where
  pid : ℕ
  profileId : ℕ
  amount : ℤ

/-- What the operations in progress still have to book. -/
structure Debts where
  charges : List Charge
  bookings : List (ℕ × ℤ)

namespace Debts

/-- The charges of process `i`: whose money, and how much. -/
def chargesOf (h : Debts) (i : ℕ) : List (ℕ × ℤ) :=
  (h.charges.filter fun c => c.pid = i).map fun c => (c.profileId, c.amount)

/-- The open bookings of process `i`. -/
def bookingsOf (h : Debts) (i : ℕ) : List ℤ :=
  (h.bookings.filter fun b => b.1 = i).map Prod.snd

/-- What a step does to the debts: a debit in favour of the system wallet and the settlement
of a penalty request open one, marking the penalties and writing the payment close it. -/
def record (h : Debts) (i : ℕ) (c : Cmd) (r : Resp c) : Debts :=
  match c, r with
  | .debitAndCredit _ _ amount debitType _ _ referenceId, .ok _ =>
    { charges :=
        if debitType.1 = .penaltyDebit then
          ⟨i, referenceId, Decimal.column amount⟩ :: h.charges
        else h.charges
      bookings := (i, Decimal.column amount) :: h.bookings }
  | .persistApproved _ r _ _ _ _, true =>
    if r.isPenaltyRequest then
      { h with charges := ⟨i, r.profileId, r.amount.getD 0⟩ :: h.charges }
    else h
  | .settlePricedPenalties _ _, _ => { h with charges := h.charges.filter fun c => c.pid ≠ i }
  | .markPenaltiesPaid _ _ _ _, _ =>
    { charges := h.charges.filter fun c => c.pid ≠ i
      bookings := h.bookings.filter fun b => b.1 ≠ i }
  | .createUnlockPayment _ _, _ => { h with bookings := h.bookings.filter fun b => b.1 ≠ i }
  | _, _ => h

/-- What is closed for one process is taken off the whole. -/
theorem sum_close {α : Type} (l : List α) (q : α → Bool) (f : α → ℤ) :
    ((l.filter fun a => !q a).map f).sum + ((l.filter q).map f).sum = (l.map f).sum := by
  induction l with
  | nil => rfl
  | cons a l ih =>
    cases hq : q a
    · simp only [hq, Bool.not_false, filter_cons, if_true, map_cons, sum_cons]
      simp only [Bool.false_eq_true, if_false]
      omega
    · simp only [hq, Bool.not_true, filter_cons, Bool.false_eq_true, if_false, if_true,
        map_cons, sum_cons]
      omega

/-- A step changes nobody else's debts. -/
theorem record_of_ne (h : Debts) {i j : ℕ} (hij : j ≠ i) (c : Cmd) (r : Resp c) :
    (h.record i c r).chargesOf j = h.chargesOf j ∧
      (h.record i c r).bookingsOf j = h.bookingsOf j := by
  have hfilter : ∀ {α : Type} (l : List α) (f : α → ℕ),
      (l.filter fun x => f x ≠ i).filter (fun x => f x = j) = l.filter fun x => f x = j := by
    intro α l f
    rw [filter_filter]
    refine filter_congr fun x _ => ?_
    by_cases hx : f x = j <;> simp [hx, hij]
  cases c with
  | debitAndCredit pw sw amount dt ct rt rid =>
    cases r with
    | error e => exact ⟨rfl, rfl⟩
    | ok u =>
      simp only [record]
      split <;> simp [chargesOf, bookingsOf, hij.symm]
  | persistApproved id q context tx sw mw =>
    cases r with
    | false => exact ⟨rfl, rfl⟩
    | true =>
      simp only [record]
      split <;> simp [chargesOf, bookingsOf, hij.symm]
  | settlePricedPenalties | markPenaltiesPaid | createUnlockPayment =>
    simp only [record, chargesOf, bookingsOf, hfilter, and_self]
  | _ => exact ⟨rfl, rfl⟩

end Debts

/-! ### What an operation knows and owes at a step -/

/-- Process `i` has exactly these debts, unless faults may have cut it short. -/
def Owes (faults : Bool) (i : ℕ) (charges : List (ℕ × ℤ)) (bookings : List ℤ)
    (x : Store × Debts) : Prop :=
  faults = false → x.2.chargesOf i = charges ∧ x.2.bookingsOf i = bookings

/-- The reference types of the rows that settle a payment request. -/
def ReferenceType.settles : ReferenceType → Bool
  | .paymentRequest | .paymentRequestVia _ _ => true
  | _ => false

/-- What the operations know when they take a money step. -/
def Pre (faults : Bool) (i : ℕ) (c : Cmd) (x : Store × Debts) : Prop :=
  match c with
  | .persistApproved id r context _ systemWallet mobileMoneyWallet =>
    x.1.db.HasRequest id r ∧ context = buildPaymentProcessingContext r ∧
      x.1.db.Owner systemWallet (.system, none) ∧
      x.1.db.Owner mobileMoneyWallet (.mobileMoney, none) ∧ Owes faults i [] [] x
  | .settlePricedPenalties r _ =>
    r.isPenaltyRequest ∧ (∃ id, x.1.db.HasRequest id r) ∧
      Owes faults i [(r.profileId, r.amount.getD 0)] [] x
  | .credit walletId _ amount _ _ => 0 < amount ∧ ∃ p, x.1.db.Owner walletId (.profile, p)
  | .debit walletId _ _ _ _ => ∃ p, x.1.db.Owner walletId (.profile, p)
  | .debitAndCredit profileWallet systemWallet amount debitType _ referenceType referenceId =>
    (∃ a, amount = Decimal.value a) ∧ referenceType.settles = false ∧ (∃ p, x.1.db.Owner profileWallet (.profile, some p) ∧
      (debitType.1 = .penaltyDebit → p = referenceId)) ∧
      x.1.db.Owner systemWallet (.system, none) ∧ Owes faults i [] [] x
  | .grantWelcomeCredit _ walletId amount => 0 < amount ∧ ∃ p, x.1.db.Owner walletId (.profile, p)
  | .payPenaltyFromWallet penaltyId profileId profileWallet systemWallet amount _ =>
    (∃ p, x.1.db.HasPenalty penaltyId p ∧ p.profileId = profileId ∧
      amount = Decimal.value p.amount) ∧ x.1.db.Owner profileWallet (.profile, some profileId) ∧
      x.1.db.Owner systemWallet (.system, none)
  | .confirmPenaltyPaymentManually penaltyId profileId systemWallet amount _ =>
    (∃ p, x.1.db.HasPenalty penaltyId p ∧ p.profileId = profileId ∧
      amount = Decimal.value p.amount) ∧ x.1.db.Owner systemWallet (.system, none)
  | .markPenaltiesPaid penaltyIds profileId total _ =>
    (∃ unpaid : List (ℕ × Penalty), unpaid.map Prod.fst = penaltyIds ∧ penaltyIds.Nodup ∧
      (∀ p ∈ unpaid, x.1.db.HasPenalty p.1 p.2 ∧ p.2.profileId = profileId) ∧
      total = Decimal.value (totalAmount unpaid)) ∧
      Owes faults i [(profileId, Decimal.column total)] [Decimal.column total] x
  | .createUnlockPayment _ amount =>
    (∃ a, amount = Decimal.value a) ∧ Owes faults i [] [Decimal.column amount] x
  | .recordRegistrationPayment systemWallet _ _ => x.1.db.Owner systemWallet (.system, none)
  | .recordJobPostingPayment systemWallet _ _ _ => x.1.db.Owner systemWallet (.system, none)
  | .recordMobileMoneyWithdrawal walletId _ _ _ => x.1.db.Owner walletId (.mobileMoney, none)
  | .settlePayout _ walletId _ => x.1.db.Owner walletId (.mobileMoney, none)
  | .settleReferral _ referrerWallet refereeWallet _ _ =>
    (∃ p, x.1.db.Owner referrerWallet (.profile, p)) ∧ ∃ p, x.1.db.Owner refereeWallet (.profile, p)
  | _ => True

/-- The money services with the history of open debts. -/
abbrev tracked : Service (Store × Debts) Cmd Resp Request Env Exn :=
  service.withHistory Debts.record

/-- Calls may throw on their own account only if `faults`. -/
def faultGuard (faults : Bool) : Guard Store Cmd Request Env := fun _ v =>
  match v with
  | .fault _ _ => faults
  | _ => true

end Rabotka.Money
