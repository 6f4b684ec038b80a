import Rabotka.Money.Requests
import Rabotka.Money.WalletRules

/-!
# What the steps add to the payments and do to the penalties

`Cmd.paymentsOf c r` is the payment rows that the step `c` writes when its answer is `r`, and
`Cmd.marks c r` is the penalties that it marks paid. As with the payment requests, every step of
the money services does exactly this.
-/

namespace Rabotka.Money

/-- The payment rows a step writes. -/
def Cmd.paymentsOf (c : Cmd) (r : Resp c) : List Payment :=
  match c, r with
  | .persistApproved _ q context _ _ _, true =>
    [⟨context.paymentType, q.profileId, Decimal.column context.amount, .mobileMoney, .completed,
      .ofRequest⟩]
  | .payPenaltyFromWallet id p _ _ amount _, .ok _ =>
    [⟨.penalty, p, Decimal.column amount, .wallet, .completed, .penaltyViaWallet id⟩]
  | .confirmPenaltyPaymentManually id p _ amount m, .ok _ =>
    [⟨.penalty, p, Decimal.column amount, m, .completed, .penaltyConfirmed id⟩]
  | .markPenaltiesPaid ids p total _, _ =>
    [⟨.penalty, p, Decimal.column total, .wallet, .completed, .penaltiesViaWallet ids.length⟩]
  | .recordFailure type p amount, _ =>
    [⟨type, p, Decimal.column amount, .mobileMoney, .failed, .failedRequest⟩]
  | .createUnlockPayment p amount, _ =>
    [⟨.contactUnlock, p, Decimal.column amount, .wallet, .completed, .walletUnlock⟩]
  | .recordRegistrationPayment _ p a, _ =>
    [⟨.registration, p, Decimal.column (Decimal.value a), .other, .completed, .registration p⟩]
  | .recordJobPostingPayment _ o p a, _ =>
    [⟨.jobPosting, p, Decimal.column (Decimal.value a), .other, .completed, .jobPosting o⟩]
  | _, _ => []

/-- The penalties a step marks paid. -/
def Cmd.marks (c : Cmd) (r : Resp c) (id : ℕ) (p : Penalty) : Bool :=
  match c, r with
  | .payPenaltyFromWallet j _ _ _ _ _, .ok _ => j = id
  | .confirmPenaltyPaymentManually j _ _ _ _, .ok _ => j = id
  | .markPenaltiesPaid ids _ _ _, _ => id ∈ ids
  | .settlePricedPenalties q _, _ => Db.pricedPenalties q id p
  | _, _ => false

/-- A claimed penalty was owed and is paid. -/
theorem Db.penalty_of_claimPenalty {db db' : Db} {j : ℕ} (h : db.claimPenalty j = some db')
    (id : ℕ) : db'.penalties[id]? =
      (db.penalties[id]?).map fun p => if j = id then { p with paid := true } else p := by
  obtain ⟨penalties, hclaim, rfl⟩ := Option.map_eq_some_iff.1 h
  obtain ⟨p, hp, howed, rfl⟩ := Table.claim_eq_some.1 hclaim
  have hupdate := Table.getElem?_update db.penalties j (fun p => { p with paid := true }) id
  rwa [Table.update_of_some hp] at hupdate

/-- **A step, payment by payment.** -/
theorem payments_of_exec {s t : Store} {i : ℕ} {c : Cmd} {ε : Env} {r : Resp c}
    (h : exec s i c ε = some (t, r)) : t.db.payments = s.db.payments ++ c.paymentsOf r := by
  by_cases hc : c.movesMoney = true
  swap
  · have hnil : c.paymentsOf r = [] := by
      cases c <;> first | rfl | exact absurd rfl hc
    rw [hnil, List.append_nil]
    exact (exec_frame h (by simpa using hc)).payments
  cases c <;> simp only [Cmd.movesMoney, Bool.false_eq_true] at hc
  all_goals simp only [exec, Option.some.injEq] at h
  case persistApproved id q context tx sw mw =>
    obtain ⟨-, rfl, rfl⟩ | ⟨db, hdb, rfl, rfl⟩ := Store.matched_cases h
    · exact (List.append_nil _).symm
    · obtain ⟨d, hd, rfl⟩ := Db.persistApprovedPayment_eq_some.1 hdb
      obtain ⟨requests, -, rfl⟩ := Option.map_eq_some_iff.1 hd
      rfl
  case payPenaltyFromWallet id p pw sw amount n =>
    obtain ⟨e, rfl, rfl⟩ | ⟨db, hdb, rfl, rfl⟩ := Store.commit_cases h
    · exact (List.append_nil _).symm
    · obtain ⟨d, hd, e, he, rfl⟩ := Db.payPenaltyFromWallet_eq_ok.1 hdb
      have hpay : e.payments = s.db.payments :=
        (Db.frame_of_debit he).2.1.trans (Db.frame_of_claimPenalty hd).2.1
      exact congrArg (· ++ _) hpay
  case confirmPenaltyPaymentManually id p sw amount m =>
    obtain ⟨e, rfl, rfl⟩ | ⟨db, hdb, rfl, rfl⟩ := Store.commit_cases h
    · exact (List.append_nil _).symm
    · exact (Db.frame_of_claimPenalty (Db.confirmPenaltyPaymentManually_eq_ok.1 hdb)).2.1
  case debit | recordMobileMoneyWithdrawal =>
    obtain rfl : (s.commit _).1 = t := congrArg Prod.fst h
    exact Store.commit_induction (P := fun db => db.payments = s.db.payments ++ [])
      (List.append_nil _).symm fun _ hdb => by rw [List.append_nil, (Db.frame_of_debit hdb).2.1]
  case debitAndCredit =>
    obtain rfl : (s.commit _).1 = t := congrArg Prod.fst h
    refine Store.commit_induction (P := fun db => db.payments = s.db.payments ++ [])
      (List.append_nil _).symm fun db hdb => ?_
    obtain ⟨d, hd, rfl⟩ := Db.debitAndCredit_eq_ok.1 hdb
    have hpay : d.payments = s.db.payments := (Db.frame_of_debit hd).2.1
    rw [List.append_nil, ← hpay]
    rfl
  case settlePayout | settleReferral =>
    obtain rfl : (s.matched _).1 = t := congrArg Prod.fst h
    refine Store.matched_induction (P := fun db => db.payments = s.db.payments ++ [])
      (List.append_nil _).symm fun db hdb => ?_
    obtain ⟨_, -, rfl⟩ := Option.map_eq_some_iff.1 hdb
    exact (List.append_nil _).symm
  case grantWelcomeCredit =>
    obtain rfl := congrArg Prod.fst h
    simp only [Store.withDb, Db.grantWelcomeCredit]
    split <;> exact (List.append_nil _).symm
  case credit | settlePricedPenalties =>
    obtain rfl := congrArg Prod.fst h
    exact (List.append_nil _).symm
  case markPenaltiesPaid | recordFailure | createUnlockPayment | recordRegistrationPayment
      | recordJobPostingPayment =>
    obtain rfl := congrArg Prod.fst h
    rfl

/-- **A step, penalty by penalty.** -/
theorem penalty_of_exec {s t : Store} {i : ℕ} {c : Cmd} {ε : Env} {r : Resp c}
    (h : exec s i c ε = some (t, r)) (id : ℕ) :
    t.db.penalties[id]? =
      (s.db.penalties[id]?).map fun p => if c.marks r id p then { p with paid := true } else p := by
  have hsame : ∀ {l : List Penalty}, l = s.db.penalties →
      l[id]? = (s.db.penalties[id]?).map fun p => p := fun hl => by simp [hl]
  by_cases hc : c.movesMoney = true
  swap
  · have hnone : ∀ p, c.marks r id p = false := by
      intro p
      cases c <;> first | rfl | exact absurd rfl hc
    simp only [hnone, Bool.false_eq_true, if_false]
    exact hsame (exec_frame h (by simpa using hc)).penalties
  cases c <;> simp only [Cmd.movesMoney, Bool.false_eq_true] at hc
  all_goals simp only [exec, Option.some.injEq] at h
  case persistApproved =>
    obtain rfl : (s.matched _).1 = t := congrArg Prod.fst h
    refine hsame (Store.matched_induction (P := fun db => db.penalties = s.db.penalties) rfl
      fun db hdb => ?_)
    obtain ⟨d, hd, rfl⟩ := Db.persistApprovedPayment_eq_some.1 hdb
    obtain ⟨requests, -, rfl⟩ := Option.map_eq_some_iff.1 hd
    rfl
  case payPenaltyFromWallet j p pw sw amount n =>
    obtain ⟨e, rfl, rfl⟩ | ⟨db, hdb, rfl, rfl⟩ := Store.commit_cases h
    · exact hsame rfl
    · obtain ⟨d, hd, e, he, rfl⟩ := Db.payPenaltyFromWallet_eq_ok.1 hdb
      have hpen : e.penalties = d.penalties := (Db.frame_of_debit he).2.2
      have hrow := (congrArg (·[id]?) hpen).trans (Db.penalty_of_claimPenalty hd id)
      exact hrow.trans (Option.map_congr fun q _ => by simp [Cmd.marks])
  case confirmPenaltyPaymentManually j p sw amount m =>
    obtain ⟨e, rfl, rfl⟩ | ⟨db, hdb, rfl, rfl⟩ := Store.commit_cases h
    · exact hsame rfl
    · have hrow := Db.penalty_of_claimPenalty (Db.confirmPenaltyPaymentManually_eq_ok.1 hdb) id
      exact hrow.trans (Option.map_congr fun q _ => by simp [Cmd.marks])
  case markPenaltiesPaid | settlePricedPenalties =>
    obtain rfl := congrArg Prod.fst h
    exact Table.getElem?_updateMany _ _ _ _
  case debit | recordMobileMoneyWithdrawal =>
    obtain rfl : (s.commit _).1 = t := congrArg Prod.fst h
    exact hsame (Store.commit_induction (P := fun db => db.penalties = s.db.penalties) rfl
      fun _ hdb => (Db.frame_of_debit hdb).2.2)
  case debitAndCredit =>
    obtain rfl : (s.commit _).1 = t := congrArg Prod.fst h
    refine hsame (Store.commit_induction (P := fun db => db.penalties = s.db.penalties) rfl
      fun db hdb => ?_)
    obtain ⟨d, hd, rfl⟩ := Db.debitAndCredit_eq_ok.1 hdb
    exact (Db.frame_of_debit hd).2.2
  case settlePayout | settleReferral =>
    obtain rfl : (s.matched _).1 = t := congrArg Prod.fst h
    refine hsame (Store.matched_induction (P := fun db => db.penalties = s.db.penalties) rfl
      fun db hdb => ?_)
    obtain ⟨_, -, rfl⟩ := Option.map_eq_some_iff.1 hdb
    rfl
  case grantWelcomeCredit =>
    obtain rfl := congrArg Prod.fst h
    simp only [Store.withDb, Db.grantWelcomeCredit]
    split <;> exact hsame rfl
  case credit | recordFailure | createUnlockPayment | recordRegistrationPayment
      | recordJobPostingPayment =>
    obtain rfl := congrArg Prod.fst h
    exact hsame rfl

end Rabotka.Money

/-!
## Selections of ledger rows

The rows of a kind — say, what the system wallet received for a payment request — and how
the primitive movements change such a selection: `rows_credit` and `rows_of_debit` append the
new row if it is of the kind, and `rows_of_exec` says that a step leaves a selection alone
when it writes no row of that kind (`Cmd.Writes`).
-/

namespace Rabotka.Money

namespace Db

variable {db db' : Db}

/-- Whose wallet it is, if there is such a wallet. -/
def ownerOf (db : Db) (w : ℕ) : Option (WalletOwnerType × Option ℕ) :=
  (db.wallets[w]?).map Wallet.owner

theorem owner_iff {w : ℕ} {o : WalletOwnerType × Option ℕ} :
    db.Owner w o ↔ db.ownerOf w = some o := by
  simp [Owner, ownerOf, Option.map_eq_some_iff]

theorem Grows.ownerOf_eq (h : db.Grows db') {w : ℕ} (hw : w < db.wallets.length) :
    db'.ownerOf w = db.ownerOf w := by
  obtain ⟨y, hy, hkey⟩ := h.wallets w _ (List.getElem?_eq_getElem hw)
  simp [ownerOf, hy, hkey, List.getElem?_eq_getElem hw]

/-- The kind of a row. -/
def kindOf (db : Db) (t : WalletTransaction) : Option RowKind :=
  (db.ownerOf t.walletId).map fun o => ⟨o, t.type, t.referenceType, t.referenceId⟩

/-- The rows of a kind. -/
def rows (db : Db) (p : RowKind → Bool) : List WalletTransaction :=
  db.transactions.filter fun t => (db.kindOf t).any p

variable {p : RowKind → Bool}

/-- New wallets and new balances do not change what a row is. -/
theorem rows_congr (hrows : db.RowsHaveWallets) (hdb : db.Grows db')
    (ht : db'.transactions = db.transactions) : db'.rows p = db.rows p := by
  unfold rows
  rw [ht]
  refine List.filter_congr fun t hmem => ?_
  simp only [kindOf, hdb.ownerOf_eq (hrows t hmem)]

theorem rows_createTransaction {w o type amount rt rid} (hw : db.Owner w o) :
    (db.createTransaction w type amount rt rid).rows p = db.rows p ++
      if p ⟨o, type, rt, rid⟩ then [⟨w, type, Decimal.column amount, rt, rid⟩] else [] := by
  have hkind : ∀ t, (db.createTransaction w type amount rt rid).kindOf t = db.kindOf t :=
    fun _ => rfl
  unfold rows
  simp only [hkind]
  simp only [createTransaction, List.filter_append]
  congr 1
  simp [kindOf, owner_iff.1 hw, List.filter_singleton]

theorem rows_credit {w o type amount rt rid} (hrows : db.RowsHaveWallets) (hw : db.Owner w o) :
    (db.credit w type amount rt rid).rows p = db.rows p ++
      if p ⟨o, type, rt, rid⟩ then [⟨w, type, Decimal.column amount, rt, rid⟩] else [] := by
  rw [← rows_createTransaction hw]
  exact rows_congr (hrows.createTransaction hw) (grows_incrementBalance _) rfl

theorem rows_of_debit {w o type amount rt rid m} (hrows : db.RowsHaveWallets)
    (hw : db.Owner w o) (h : db.debit w type amount rt rid m = .ok db') :
    db'.rows p = db.rows p ++
      if p ⟨o, type, rt, rid⟩ then [⟨w, type, Decimal.column amount, rt, rid⟩] else [] := by
  obtain ⟨d, hd, rfl⟩ := debit_eq_ok.1 h
  have hgrows := grows_of_decrementIfCovered hd
  rw [rows_createTransaction (hw.mono hgrows),
    rows_congr hrows hgrows (transactions_of_decrementIfCovered hd)]

end Db

/-- A selection to which no movement adds. -/
theorem rows_rules (p : RowKind → Bool) (l : List WalletTransaction) :
    WalletRules (fun k => p k = false) (fun _ => True)
      (fun db => db.RowsHaveWallets ∧ db.rows p = l) where
  congr {db db'} h hw ht := by
    refine ⟨h.1.mono (by rw [hw]) ht, ?_⟩
    rw [← h.2]
    simp only [Db.rows, Db.kindOf, Db.ownerOf, hw, ht]
  credit h hw hk _ _ := ⟨h.1.credit hw, by simp [Db.rows_credit h.1 hw, hk, h.2]⟩
  debit h hw hk _ _ hd := ⟨h.1.debit hw hd, by simp [Db.rows_of_debit h.1 hw hd, hk, h.2]⟩
  payout {db w type amount rt rid} h hw hk _ _ := by
    have hgrows : db.Grows (db.incrementBalance w (-amount)) := Db.grows_incrementBalance db
    have hrows := h.1.mono hgrows.wallets.length_le rfl
    refine ⟨hrows.createTransaction (hw.mono hgrows), ?_⟩
    rw [Db.rows_createTransaction (hw.mono hgrows), Db.rows_congr h.1 hgrows rfl, h.2]
    simp [hk]
  wallets {db} new h _ := by
    have hgrows : db.Grows { db with wallets := db.wallets ++ new } :=
      ⟨.refl _ _, .refl _ _, .append _ _ _⟩
    exact ⟨h.1.mono hgrows.wallets.length_le rfl, (Db.rows_congr h.1 hgrows rfl).trans h.2⟩

/-- **Frame for ledger rows.** A step that writes no row of a kind leaves that selection
alone. -/
theorem rows_of_exec {faults : Bool} {x : Store × Debts} {t : Store} {i : ℕ} {c : Cmd}
    {ε : Env} {r : Resp c} {p : RowKind → Bool} (hrows : x.1.db.RowsHaveWallets)
    (hpre : Pre faults i c x) (hc : ∀ k, c.Writes k → p k = false)
    (h : exec x.1 i c ε = some (t, r)) : t.db.rows p = x.1.db.rows p :=
  ((rows_rules p _).exec hpre hc (fun _ _ _ _ => trivial) h ⟨hrows, rfl⟩).2

end Rabotka.Money
