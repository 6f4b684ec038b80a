import Rabotka.Money.Penalties
import Rabotka.Money.Settlement

/-!
# The income of the platform

The system wallet against the payments. Every step that credits the system wallet records a
COMPLETED payment of the same amount, in the same transaction or, for a fee paid from a
profile wallet, a step later; so the wallet grows by the COMPLETED payments.
But that is *all* of them: the approval of a top-up credits the system
wallet too, although the deposit is the customer's money and is booked as income a second time
when it is spent on a fee (`topUp_booked_twice`).

`income_booked_once`: in every run in which no top-up of a non-zero amount is approved, the
system wallet grows by the COMPLETED payments that are not top-ups.
-/

namespace Rabotka.Money

open Async List

/-! ### The two sides -/

/-- A COMPLETED payment of something that the platform earns. -/
def Payment.isIncome (y : Payment) : Bool :=
  y.status = .completed && y.type ≠ .walletTopUp

/-- A COMPLETED deposit of a customer. -/
def Payment.isTopUp (y : Payment) : Bool :=
  y.status = .completed && y.type = .walletTopUp

namespace Db

/-- What the system wallet holds. -/
def systemWeight (x : Wallet) : ℤ :=
  if x.owner = (.system, none) then x.balance else 0

def systemBalance (db : Db) : ℤ := Table.sumBy (fun _ => systemWeight) db.wallets

def income (db : Db) : ℤ := ((db.payments.filter Payment.isIncome).map Payment.amount).sum

def topUps (db : Db) : ℤ := ((db.payments.filter Payment.isTopUp).map Payment.amount).sum

end Db

/-- The open bookings of all processes. -/
def Debts.booked (h : Debts) : ℤ := (h.bookings.map Prod.snd).sum

/-- Closing the bookings of a process takes them off what is booked. -/
theorem Debts.booked_close (h : Debts) (i : ℕ) {a : ℤ} (hbk : h.bookingsOf i = [a])
    (charges : List Charge) :
    (⟨charges, h.bookings.filter fun b => b.1 ≠ i⟩ : Debts).booked + a = h.booked := by
  have hclose := Debts.sum_close h.bookings (fun b => b.1 = i) Prod.snd
  rw [show (h.bookings.filter fun b => b.1 = i).map Prod.snd = [a] from hbk] at hclose
  simpa [booked] using hclose

/-! ### What a step brings in -/

/-- What a step credits to the system wallet. -/
def Cmd.brings (c : Cmd) (r : Resp c) : ℤ :=
  match c, r with
  | .persistApproved _ _ context _ _ _, true => Decimal.column context.amount
  | .debitAndCredit _ _ amount _ _ _ _, .ok _ => Decimal.column amount
  | .payPenaltyFromWallet _ _ _ _ amount _, .ok _ => Decimal.column amount
  | .confirmPenaltyPaymentManually _ _ _ amount _, .ok _ => Decimal.column amount
  | .recordRegistrationPayment _ _ amount, _ => amount
  | .recordJobPostingPayment _ _ _ amount, _ => amount
  | _, _ => 0

namespace Db

variable {db db' : Db}

/-- Changing a wallet that keeps its owner changes the system balance by what it changes in a
system wallet. -/
theorem systemBalance_update {w o} {f : Wallet → Wallet} {d : ℤ} (hw : db.Owner w o)
    (hdb : db'.wallets = Table.update db.wallets w f) (howner : ∀ x, (f x).owner = x.owner)
    (hf : o = (.system, none) → ∀ x, (f x).balance = x.balance + d) :
    db'.systemBalance = db.systemBalance + if o = (.system, none) then d else 0 := by
  obtain ⟨x, hx, rfl⟩ := hw
  rw [systemBalance, hdb, Table.update_of_some hx, Table.sumBy_set hx, systemBalance]
  by_cases hsystem : x.owner = (.system, none)
  · simp only [systemWeight, howner, hsystem, if_true, hf hsystem x]
    ring
  · simp [systemWeight, howner, hsystem]

/-- An exact credit to the system wallet is what it brings in. -/
theorem systemBalance_credit {w type amount rt rid} (hw : db.Owner w (.system, none))
    (hamount : Exact amount) :
    (db.credit w type amount rt rid).systemBalance = db.systemBalance + Decimal.column amount := by
  obtain ⟨a, rfl⟩ := hamount
  have hupdate : (db.credit w type (Decimal.value a) rt rid).systemBalance = _ :=
    systemBalance_update (d := a) hw rfl (fun _ => rfl)
      fun _ x => Decimal.increment_value x.balance a
  simpa using hupdate

/-- A credit to another wallet brings nothing in. -/
theorem systemBalance_credit_of_ne {w o type amount rt rid} (hw : db.Owner w o)
    (ho : o ≠ (.system, none)) :
    (db.credit w type amount rt rid).systemBalance = db.systemBalance := by
  have hupdate : (db.credit w type amount rt rid).systemBalance = _ :=
    systemBalance_update (d := 0) hw rfl (fun _ => rfl) fun h => absurd h ho
  simpa [ho] using hupdate

/-- Taking from another wallet takes nothing from the system wallet. -/
theorem systemBalance_incrementBalance_of_ne {w o} (amount : ℚ) (hw : db.Owner w o)
    (ho : o ≠ (.system, none)) :
    (db.incrementBalance w amount).systemBalance = db.systemBalance := by
  have hupdate : (db.incrementBalance w amount).systemBalance = _ :=
    systemBalance_update (d := 0) hw rfl (fun _ => rfl) fun h => absurd h ho
  simpa [ho] using hupdate

theorem systemBalance_of_debit {w o type amount rt rid m} (hw : db.Owner w o)
    (ho : o ≠ (.system, none)) (h : db.debit w type amount rt rid m = .ok db') :
    db'.systemBalance = db.systemBalance := by
  obtain ⟨d, hd, rfl⟩ := debit_eq_ok.1 h
  obtain ⟨wallets, hclaim, rfl⟩ := Option.map_eq_some_iff.1 hd
  obtain ⟨x, hx, -, rfl⟩ := Table.claim_eq_some.1 hclaim
  rw [← systemBalance_incrementBalance_of_ne (-amount) hw ho, systemBalance, systemBalance,
    incrementBalance, Table.update_of_some hx]
  rfl

end Db

/-- The system balance, against movements of the other wallets. -/
theorem systemBalance_rules (b : ℤ) :
    WalletRules (fun k => k.owner ≠ (.system, none)) (fun _ => True)
      (fun db => db.systemBalance = b) where
  congr h hw _ := by rw [← h, Db.systemBalance, Db.systemBalance, hw]
  credit h hw ho _ _ := (Db.systemBalance_credit_of_ne hw ho).trans h
  debit h hw ho _ _ hd := (Db.systemBalance_of_debit hw ho hd).trans h
  payout h hw ho _ _ := (Db.systemBalance_incrementBalance_of_ne _ hw ho).trans h
  wallets {db} new h hnew := by
    rw [← h]
    refine Table.sumBy_append_of_zero fun _ x hx => ?_
    simp [Db.systemWeight, hnew x hx]

section Step

variable {x : Store × Debts} {t : Store} {i : ℕ} {c : Cmd} {ε : Env} {r : Resp c}

/-- The steps that write to the system wallet. -/
def Cmd.paysSystem : Cmd → Bool
  | .persistApproved _ _ _ _ _ _ | .debitAndCredit _ _ _ _ _ _ _
  | .payPenaltyFromWallet _ _ _ _ _ _ | .confirmPenaltyPaymentManually _ _ _ _ _
  | .recordRegistrationPayment _ _ _ | .recordJobPostingPayment _ _ _ _ => true
  | _ => false

/-- The other steps write no row of the system wallet. -/
theorem owner_ne_system_of_writes (hc : c.paysSystem = false) {k : RowKind} (h : c.Writes k) :
    k.owner ≠ (.system, none) := by
  intro howner
  cases c <;> simp only [Cmd.Writes] at h
  case credit | debit | settleReferral =>
    rw [howner] at h
    cases h.1
  case grantWelcomeCredit | recordMobileMoneyWithdrawal | settlePayout =>
    rw [h] at howner
    cases congrArg Prod.fst howner
  all_goals cases hc

/-- **What a step brings in** is what it adds to the system balance. -/
theorem systemBalance_of_exec (hpre : Pre false i c x) (h : exec x.1 i c ε = some (t, r)) :
    t.db.systemBalance = x.1.db.systemBalance + c.brings r := by
  cases hc : c.paysSystem with
  | false =>
    have hzero : c.brings r = 0 := by
      cases c <;> first | rfl | cases hc
    rw [hzero, add_zero]
    exact (systemBalance_rules _).exec hpre (fun _ => owner_ne_system_of_writes hc)
      (fun _ _ _ _ => trivial) h rfl
  | true =>
  cases c <;> simp only [Cmd.paysSystem, Bool.false_eq_true] at hc
  all_goals simp only [exec, Option.some.injEq] at h
  case persistApproved id q context tx sw mw =>
    obtain ⟨-, rfl, hsw, hmw, -⟩ := hpre
    obtain ⟨-, rfl, rfl⟩ | ⟨db, hdb, rfl, rfl⟩ := Store.matched_cases h
    · exact (add_zero _).symm
    · obtain ⟨d, hd, rfl⟩ := Db.persistApprovedPayment_eq_some.1 hdb
      have hgd : x.1.db.Grows d := Db.grows_of_claimRequest hd fun _ => rfl
      obtain ⟨requests, -, rfl⟩ := Option.map_eq_some_iff.1 hd
      exact (Db.systemBalance_credit_of_ne
          (((hmw.mono hgd).mono (Db.grows_createPayment _)).mono (Db.grows_credit _)) (by simp)).trans
        (Db.systemBalance_credit ((hsw.mono hgd).mono (Db.grows_createPayment _)) (exact_value _))
  case debitAndCredit pw sw amount dt ct rt rid =>
    obtain ⟨hamount, -, ⟨p, hpw, -⟩, hsw, -⟩ := hpre
    obtain ⟨e, rfl, rfl⟩ | ⟨db, hdb, rfl, rfl⟩ := Store.commit_cases h
    · exact (add_zero _).symm
    · obtain ⟨d, hd, rfl⟩ := Db.debitAndCredit_eq_ok.1 hdb
      rw [Store.withDb_db, Db.systemBalance_credit (hsw.mono (Db.grows_of_debit hd)) hamount,
        Db.systemBalance_of_debit hpw (by simp) hd]
      rfl
  case payPenaltyFromWallet id p pw sw amount n =>
    obtain ⟨⟨q, -, -, hamount⟩, hpw, hsw⟩ := hpre
    obtain ⟨e, rfl, rfl⟩ | ⟨db, hdb, rfl, rfl⟩ := Store.commit_cases h
    · exact (add_zero _).symm
    · obtain ⟨d, hd, e, he, rfl⟩ := Db.payPenaltyFromWallet_eq_ok.1 hdb
      have hgd := Db.grows_of_claimPenalty hd
      have hcredit : (e.credit sw .creditPenalty amount .penalty id).systemBalance = _ :=
        Db.systemBalance_credit ((hsw.mono hgd).mono (Db.grows_of_debit he)) ⟨_, hamount⟩
      rw [Db.systemBalance_of_debit (hpw.mono hgd) (by simp) he] at hcredit
      have hclaim : d.systemBalance = x.1.db.systemBalance := by
        rw [Db.systemBalance, (Db.frame_of_claimPenalty hd).2.2.1, Db.systemBalance]
      rw [hclaim] at hcredit
      exact hcredit
  case confirmPenaltyPaymentManually id p sw amount m =>
    obtain ⟨⟨q, -, -, hamount⟩, hsw⟩ := hpre
    obtain ⟨e, rfl, rfl⟩ | ⟨db, hdb, rfl, rfl⟩ := Store.commit_cases h
    · exact (add_zero _).symm
    · have hclaim := Db.confirmPenaltyPaymentManually_eq_ok.1 hdb
      rw [Store.withDb_db, Db.systemBalance, (Db.frame_of_claimPenalty hclaim).2.2.1]
      exact Db.systemBalance_credit (hsw.mono (Db.grows_createPayment _)) ⟨_, hamount⟩
  case recordRegistrationPayment | recordJobPostingPayment =>
    obtain rfl := congrArg Prod.fst h
    refine (Db.systemBalance_credit (Db.Owner.mono hpre (Db.grows_createPayment _))
      (exact_value _)).trans ?_
    rw [Decimal.column_value]
    rfl

/-! ### The books -/

theorem income_of_exec (h : exec x.1 i c ε = some (t, r)) : t.db.income = x.1.db.income +
      (((c.paymentsOf r).filter Payment.isIncome).map Payment.amount).sum := by
  rw [Db.income, payments_of_exec h, filter_append, map_append, sum_append]
  rfl

theorem topUps_of_exec (h : exec x.1 i c ε = some (t, r)) : t.db.topUps = x.1.db.topUps +
      (((c.paymentsOf r).filter Payment.isTopUp).map Payment.amount).sum := by
  rw [Db.topUps, payments_of_exec h, filter_append, map_append, sum_append]
  rfl

/-- **The books of one step.** What it brings in is booked by a payment, as income or as a
top-up, now or as an open booking. -/
theorem income_books_of_exec (hpre : Pre false i c x) (h : exec x.1 i c ε = some (t, r)) :
    c.brings r + x.2.booked =
      (((c.paymentsOf r).filter Payment.isIncome).map Payment.amount).sum +
        (((c.paymentsOf r).filter Payment.isTopUp).map Payment.amount).sum +
        (x.2.record i c r).booked := by
  cases c
  case debitAndCredit pw sw amount dt ct rt rid =>
    cases r with
    | error e => simp [Cmd.brings, Cmd.paymentsOf, Debts.record]
    | ok u => simp [Cmd.brings, Cmd.paymentsOf, Debts.record, Debts.booked]
  case persistApproved id q context tx sw mw =>
    cases r with
    | false => simp [Cmd.brings, Cmd.paymentsOf, Debts.record]
    | true =>
      have hbooked : (x.2.record i (.persistApproved id q context tx sw mw) true).booked =
          x.2.booked := by
        simp only [Debts.record]
        split <;> rfl
      rw [hbooked]
      by_cases htype : context.paymentType = .walletTopUp
      · simp [Cmd.brings, Cmd.paymentsOf, Payment.isIncome, Payment.isTopUp, htype]
      · simp [Cmd.brings, Cmd.paymentsOf, Payment.isIncome, Payment.isTopUp, htype]
  case payPenaltyFromWallet | confirmPenaltyPaymentManually =>
    cases r with
    | error e => simp [Cmd.brings, Cmd.paymentsOf, Debts.record]
    | ok u =>
      simp [Cmd.brings, Cmd.paymentsOf, Debts.record, Payment.isIncome, Payment.isTopUp]
  case markPenaltiesPaid ids p total n =>
    obtain ⟨-, howes⟩ := hpre
    have hclose := Debts.booked_close x.2 i (howes rfl).2 (x.2.charges.filter fun c => c.pid ≠ i)
    simp [Cmd.brings, Cmd.paymentsOf, Debts.record, Payment.isIncome, Payment.isTopUp, ← hclose]
    omega
  case createUnlockPayment p amount =>
    obtain ⟨-, howes⟩ := hpre
    have hclose := Debts.booked_close x.2 i (howes rfl).2 x.2.charges
    simp [Cmd.brings, Cmd.paymentsOf, Debts.record, Payment.isIncome, Payment.isTopUp, ← hclose]
    omega
  case recordRegistrationPayment | recordJobPostingPayment | recordFailure =>
    simp [Cmd.brings, Cmd.paymentsOf, Debts.record, Payment.isIncome, Payment.isTopUp]
  all_goals simp [Cmd.brings, Cmd.paymentsOf, Debts.record, Debts.booked]

end Step

/-! ### Runs -/

/-- Since the state `db₀`, the system wallet has grown by the COMPLETED payments of all types
and the open bookings. -/
def BooksBalance (db₀ : Db) (x : Store × Debts) : Prop :=
  x.1.db.systemBalance - db₀.systemBalance =
    x.1.db.income - db₀.income + (x.1.db.topUps - db₀.topUps) + x.2.booked

theorem booksBalance_of_exec {db₀ : Db} {x : Store × Debts} {t : Store} {i : ℕ} {c : Cmd}
    {ε : Env} {r : Resp c} (hx : BooksBalance db₀ x) (hpre : Pre false i c x)
    (h : exec x.1 i c ε = some (t, r)) : BooksBalance db₀ (t, x.2.record i c r) := by
  have hstep := income_books_of_exec hpre h
  have hsystem := systemBalance_of_exec hpre h
  have hincome := income_of_exec h
  have htopUps := topUps_of_exec h
  simp only [BooksBalance] at hx ⊢
  omega

/-- Calls do not throw on their own account, and no top-up of a non-zero amount is
approved. -/
def approvesNoTopUp : Guard Store Cmd Request Env := fun s v =>
  match v with
  | .fault _ _ => false
  | .step _ (.persistApproved id _ context _ _ _) _ =>
    decide (context.paymentType = .walletTopUp) && decide (Decimal.column context.amount ≠ 0) →
      (s.db.requests[id]?).all fun q => !q.status.isOpen
  | _ => true

/-- Only the approval of a top-up books one. -/
theorem topUps_of_exec_of_guard {s t : Store} {i : ℕ} {c : Cmd} {ε : Env} {r : Resp c}
    (hg : approvesNoTopUp s (.step i c ε)) (h : exec s i c ε = some (t, r)) :
    t.db.topUps = s.db.topUps := by
  have hbooked := topUps_of_exec (x := (s, ⟨[], []⟩)) h
  suffices hzero : (((c.paymentsOf r).filter Payment.isTopUp).map Payment.amount).sum = 0 by
    rw [hbooked, hzero, add_zero]
  cases c
  case persistApproved id q context tx sw mw =>
    cases r with
    | false => rfl
    | true =>
      have hopen := persistApproved_answer h
      by_cases htype : context.paymentType = .walletTopUp
      · have hamount : Decimal.column context.amount = 0 := by
          by_contra hne
          simp only [approvesNoTopUp, htype, hne, decide_true, Bool.and_self, ne_eq,
            not_false_eq_true, forall_const, decide_eq_true_eq] at hg
          cases hq : s.db.requests[id]? <;> simp_all
        simp [Cmd.paymentsOf, Payment.isTopUp, htype, hamount]
      · simp [Cmd.paymentsOf, Payment.isTopUp, htype]
  case payPenaltyFromWallet | confirmPenaltyPaymentManually => cases r <;> rfl
  all_goals rfl

/-- **Every franc is booked as income once**, in every run in which no top-up is approved: when
nothing is in progress, the system wallet has grown by the COMPLETED payments since the start
that are not top-ups. -/
theorem income_booked_once {s₀ : Store} (hrows : s₀.db.RowsHaveWallets)
    {c : Config Store Resp Exn} {as : List (Act Request Env Exn)}
    (h : c ∈ service.run approvesNoTopUp (service.idle s₀) as) (hq : c.Quiescent) :
    c.store.db.systemBalance - s₀.db.systemBalance = c.store.db.income - s₀.db.income := by
  have hguard : ∀ s v, approvesNoTopUp s v → faultGuard false s v := by
    intro s v hv
    cases v with
    | fault => cases hv
    | _ => rfl
  have h₀ : BooksBalance s₀.db (s₀, ⟨[], []⟩) ∧ s₀.db.topUps = s₀.db.topUps :=
    ⟨by simp [BooksBalance, Debts.booked], rfl⟩
  obtain ⟨d, ⟨hd, htopUps⟩, hidle⟩ := money_run
    (J := fun x => BooksBalance s₀.db x ∧ x.1.db.topUps = s₀.db.topUps) hguard
    (fun x i c ε t r _ hx hpre hg hexec => ⟨booksBalance_of_exec hx.1 hpre hexec,
      (topUps_of_exec_of_guard hg hexec).trans hx.2⟩) h hrows h₀
  rw [BooksBalance, Debts.booked, (hidle rfl hq).2, htopUps] at hd
  simpa using hd

/-! ### A top-up, spent on a fee -/

/-- A profile that owes a penalty of 1000 francs has asked for a top-up of 1000 francs. -/
def topUpToPay : Store :=
  { topUpRequested with
    db := { topUpRequested.db with penalties := [⟨0, 100000, 0, false, false⟩] } }

/-- The top-up is paid and credited, then the penalty is paid from the wallet. -/
def topUpSpent : List (Act Request Env Exn) :=
  initiatedBy 0 7 ++ completedBy 1 7 ++ [.step 1 .unit, .step 1 .unit] ++
    [.spawn (.payPenaltyFromWallet 0 0), .step 2 .unit, .step 2 .unit, .step 2 .unit,
     .step 2 (.threshold 3), .step 2 .unit, .step 2 (.row 1 0)]

theorem income_booked_once_penalties : ∃ c ∈ service.run approvesNoTopUp (service.idle onePenalty)
        (readsUnpaid 0 ++ paysUnpaid 0 0),
      c.Quiescent ∧ c.store.db.systemBalance - onePenalty.db.systemBalance =
        c.store.db.income - onePenalty.db.income := by
  have hrun : (service.run approvesNoTopUp (service.idle onePenalty)
      (readsUnpaid 0 ++ paysUnpaid 0 0)).any fun c => decide c.Quiescent := by
    decide +kernel
  obtain ⟨c, hc, hq⟩ := (Option.any_eq_true _ _).1 hrun
  have hquiet : c.Quiescent := of_decide_eq_true hq
  exact ⟨c, hc, hquiet, income_booked_once (Db.rowsHaveWallets_of_nil rfl) hc hquiet⟩

/-- The system wallet receives the same thousand francs twice: as the top-up and as the
penalty. -/
theorem topUp_booked_twice : topUpToPay.db.RowsHaveWallets ∧
    ∃ c ∈ service.run (faultGuard false) (service.idle topUpToPay) topUpSpent,
      c.Quiescent ∧ c.store.db.systemBalance - topUpToPay.db.systemBalance = 200000 ∧
        c.store.db.income - topUpToPay.db.income = 100000 := by
  refine ⟨Db.rowsHaveWallets_of_nil rfl, ?_⟩
  have hrun : (service.run (faultGuard false) (service.idle topUpToPay) topUpSpent).map
      (fun c => (decide c.Quiescent, c.store.db.systemBalance - topUpToPay.db.systemBalance,
        c.store.db.income - topUpToPay.db.income)) = some (true, 200000, 100000) := by
    decide +kernel
  obtain ⟨c, hc, heq⟩ := Option.map_eq_some_iff.1 hrun
  simp only [Prod.mk.injEq, decide_eq_true_eq] at heq
  exact ⟨c, hc, heq⟩

end Rabotka.Money
