import Rabotka.Money.Facts
import Rabotka.Money.Frame

/-!
# The wallets change in four ways only

Every money step changes the wallets and the ledger through a few primitive movements:
`credit`, the covered `debit`, the payout that the ledger records whatever its balance, and
the creation of an empty wallet. `WalletRules P` says that a property of the wallets and the
ledger is kept by each of them, and `WalletRules.exec` that it is then kept by every step of
the money services. Each movement carries what is known of it: who owns the wallet, that the
row's type has the sign of the movement, and how exact the amount is.

`Cmd.Writes` says which ledger rows a step may write, so that a property about some rows only
needs its rules for the others.
-/

namespace Rabotka.Money

/-- The amount is a whole number of hundredths. -/
def Exact (amount : ℚ) : Prop := ∃ a, amount = Decimal.value a

theorem exact_value (a : ℤ) : Exact (Decimal.value a) := ⟨a, rfl⟩

/-- A debit whose amount the caller chose freely: from which wallet, and how much. -/
def Cmd.freeDebit : Cmd → Option (ℕ × ℚ)
  | .debit w _ amount _ _ => some (w, amount)
  | .recordMobileMoneyWithdrawal w amount _ _ => some (w, amount)
  | _ => none

/-- The balance of the wallet covers the amount. -/
def Db.covers (db : Db) (w : ℕ) (amount : ℚ) : Bool :=
  (db.wallets[w]?).any fun x => amount ≤ Decimal.value x.balance

/-- A kind of ledger row: whose wallet, of which type, with which reference. -/
structure RowKind where
  owner : WalletOwnerType × Option ℕ
  type : WalletTransactionType
  referenceType : ReferenceType
  referenceId : Option ℕ

/-- The step may write a ledger row of the kind `k`. -/
def Cmd.Writes (c : Cmd) (k : RowKind) : Prop :=
  match c with
  | .persistApproved id r context _ _ _ =>
    k.referenceId = some id ∧ (k.owner = (.system, none) ∧ k.referenceType = .paymentRequest ∧
          k.type = context.systemRowType ∨
        k.owner = (.mobileMoney, none) ∧ k.type = .mobileMoneyCredit ∧
          k.referenceType = .paymentRequestVia r.gateway r.operator)
  | .credit _ type _ rt rid =>
    k.owner.1 = .profile ∧ k.type = type.1 ∧ k.referenceType = rt ∧ k.referenceId = rid
  | .debit _ type _ rt rid =>
    k.owner.1 = .profile ∧ k.type = type.1 ∧ k.referenceType = rt ∧ k.referenceId = rid
  | .debitAndCredit _ _ _ debitType creditType rt rid =>
    k.referenceType = rt ∧ k.referenceId = some rid ∧ (k.owner.1 = .profile ∧ k.type = debitType.1 ∨
        k.owner = (.system, none) ∧ k.type = creditType.1)
  | .grantWelcomeCredit p _ _ =>
    k = ⟨(.profile, k.owner.2), .welcomeCredit, .profile, some p⟩
  | .payPenaltyFromWallet id p _ _ _ _ =>
    k = ⟨(.profile, some p), .penaltyDebit, .penalty, some id⟩ ∨
      k = ⟨(.system, none), .creditPenalty, .penalty, some id⟩
  | .confirmPenaltyPaymentManually id _ _ _ _ =>
    k = ⟨(.system, none), .creditPenalty, .penalty, some id⟩
  | .recordRegistrationPayment _ p _ =>
    k = ⟨(.system, none), .creditRegistration, .profile, some p⟩
  | .recordJobPostingPayment _ o _ _ =>
    k = ⟨(.system, none), .creditJobPosting, .jobOffer, some o⟩
  | .recordMobileMoneyWithdrawal _ _ d rf =>
    k = ⟨(.mobileMoney, none), .mobileMoneyWithdrawal, .withdrawal rf d, none⟩
  | .settlePayout id _ payout =>
    k = ⟨(.mobileMoney, none), .mobileMoneyWithdrawal, .payout payout.gateway, some id⟩
  | .settleReferral id _ _ _ _ =>
    k.owner.1 = .profile ∧ k.type = .referralCredit ∧ k.referenceId = some id ∧
      (k.referenceType = .referralReferrer ∨ k.referenceType = .referralReferee)
  | _ => False

/-- `P` is kept by every primitive movement of the wallets that writes rows of the kinds
`row`; free amounts of debits satisfy `ok`. -/
structure WalletRules (row : RowKind → Prop) (ok : ℚ → Prop) (P : Db → Prop) : Prop where
  congr : ∀ {db db' : Db}, P db → db'.wallets = db.wallets →
    db'.transactions = db.transactions → P db'
  credit : ∀ {db : Db} {w o type amount rt rid}, P db → db.Owner w o →
    row ⟨o, type, rt, rid⟩ → type.isDebit = false →
    (Exact amount ∧ o.1 ≠ .profile ∨ 0 ≤ amount ∧ o.1 = .profile) →
    P (db.credit w type amount rt rid)
  debit : ∀ {db db' : Db} {w o type amount rt rid m}, P db → db.Owner w o →
    row ⟨o, type, rt, rid⟩ → type.isDebit = true → (Exact amount ∨ ok amount) →
    db.debit w type amount rt rid m = .ok db' → P db'
  payout : ∀ {db : Db} {w type amount rt rid}, P db → db.Owner w (.mobileMoney, none) →
    row ⟨(.mobileMoney, none), type, rt, rid⟩ → type.isDebit = true → Exact amount →
    P ((db.incrementBalance w (-amount)).createTransaction w type amount rt rid)
  wallets : ∀ {db : Db} (new : List Wallet), P db → (∀ w ∈ new, w.balance = 0) →
    P { db with wallets := db.wallets ++ new }

namespace Db

variable {db db' : Db}

theorem covers_of_debit {w type amount rt rid m}
    (h : db.debit w type amount rt rid m = .ok db') : db.covers w amount := by
  obtain ⟨d, hd, -⟩ := debit_eq_ok.1 h
  obtain ⟨wallets, hclaim, -⟩ := Option.map_eq_some_iff.1 hd
  obtain ⟨x, hx, hcovered, -⟩ := Table.claim_eq_some.1 hclaim
  simpa [covers, hx] using hcovered

theorem Owner.mono {w o} (h : db.Owner w o) (hdb : db.Grows db') : db'.Owner w o :=
  persistent_owner w o db db' hdb h

end Db

namespace WalletRules

variable {row : RowKind → Prop} {ok : ℚ → Prop} {P : Db → Prop} (hP : WalletRules row ok P)
include hP

variable {db db' : Db}

theorem sameMoney (h : db.SameMoney db') (hdb : P db) : P db' := by
  obtain ⟨new, hw, hnew⟩ := h.wallets
  exact hP.congr (hP.wallets new hdb hnew) hw h.transactions

theorem debitAndCredit {pw sw amount rt rid p} {dt : DebitType} {ct : CreditType}
    (hdb : P db) (hpw : db.Owner pw p) (hsw : db.Owner sw (.system, none))
    (hrow : row ⟨p, dt.1, rt, some rid⟩) (hrow' : row ⟨(.system, none), ct.1, rt, some rid⟩)
    (hamount : Exact amount)
    (h : db.debitAndCredit pw sw amount dt.1 ct.1 rt rid = .ok db') : P db' := by
  obtain ⟨d, hd, rfl⟩ := Db.debitAndCredit_eq_ok.1 h
  exact hP.credit (hP.debit hdb hpw hrow dt.2 (.inl hamount) hd)
    (hsw.mono (Db.grows_of_debit hd)) hrow' ct.2 (.inl ⟨hamount, nofun⟩)

theorem payPenaltyFromWallet {id p pw sw amount n} (hdb : P db)
    (hpw : db.Owner pw (.profile, some p)) (hsw : db.Owner sw (.system, none))
    (hrow : row ⟨(.profile, some p), .penaltyDebit, .penalty, some id⟩)
    (hrow' : row ⟨(.system, none), .creditPenalty, .penalty, some id⟩) (hamount : Exact amount)
    (h : db.payPenaltyFromWallet id p pw sw amount n = .ok db') : P db' := by
  obtain ⟨d, hd, e, he, rfl⟩ := Db.payPenaltyFromWallet_eq_ok.1 h
  obtain ⟨-, -, hw, ht⟩ := Db.frame_of_claimPenalty hd
  have hgd := Db.grows_of_claimPenalty hd
  have hPe : P e := hP.debit (hP.congr hdb hw ht) (hpw.mono hgd) hrow rfl (.inl hamount) he
  have hswe : e.Owner sw (.system, none) := (hsw.mono hgd).mono (Db.grows_of_debit he)
  have hcredit : P (e.credit sw .creditPenalty amount .penalty id) :=
    hP.credit hPe hswe hrow' rfl (.inl ⟨hamount, nofun⟩)
  exact hP.congr hcredit rfl rfl

theorem confirmPenaltyPaymentManually {id p sw amount m} (hdb : P db)
    (hsw : db.Owner sw (.system, none))
    (hrow : row ⟨(.system, none), .creditPenalty, .penalty, some id⟩) (hamount : Exact amount)
    (h : db.confirmPenaltyPaymentManually id p sw amount m = .ok db') : P db' := by
  obtain ⟨-, -, hw, ht⟩ := Db.frame_of_claimPenalty (Db.confirmPenaltyPaymentManually_eq_ok.1 h)
  refine hP.congr (hP.credit ?_ (hsw.mono (Db.grows_createPayment _)) hrow rfl
    (.inl ⟨hamount, nofun⟩)) hw ht
  exact hP.congr hdb rfl rfl

theorem persistApprovedPayment {id r tx sw mw} (hdb : P db)
    (hsw : db.Owner sw (.system, none)) (hmw : db.Owner mw (.mobileMoney, none))
    (hrow : ∀ k, Cmd.Writes (.persistApproved id r (buildPaymentProcessingContext r) tx sw mw) k →
      row k)
    (h : db.persistApprovedPayment id r (buildPaymentProcessingContext r) tx sw mw =
      some db') : P db' := by
  obtain ⟨d, hd, rfl⟩ := Db.persistApprovedPayment_eq_some.1 h
  have hgd : db.Grows d := Db.grows_of_claimRequest hd fun _ => rfl
  obtain ⟨requests, -, rfl⟩ := Option.map_eq_some_iff.1 hd
  have hexact : Exact (buildPaymentProcessingContext r).amount := exact_value _
  refine hP.credit (hP.credit (hP.congr hdb rfl rfl)
    ((hsw.mono hgd).mono (Db.grows_createPayment _)) (hrow _ ⟨rfl, .inl ⟨rfl, rfl, rfl⟩⟩) ?_
    (.inl ⟨hexact, nofun⟩)) (((hmw.mono hgd).mono (Db.grows_createPayment _)).mono (Db.grows_credit _))
    (hrow _ ⟨rfl, .inr ⟨rfl, rfl, rfl⟩⟩) rfl (.inl ⟨hexact, nofun⟩)
  unfold PaymentProcessingContext.systemRowType
  split <;> rfl

theorem grantWelcomeCredit {db : Db} {p w amount o} (hdb : P db)
    (hw : db.Owner w (.profile, o)) (hrow : row ⟨(.profile, o), .welcomeCredit, .profile, some p⟩)
    (hamount : 0 < amount) : P (db.grantWelcomeCredit p w amount) := by
  unfold Db.grantWelcomeCredit
  split
  · exact hdb
  · rename_i profiles _
    have hgd : db.Grows { db with profiles } := .of_eq rfl rfl rfl
    exact hP.credit (hP.congr hdb rfl rfl) (hw.mono hgd) hrow rfl (.inr ⟨hamount.le, rfl⟩)

theorem settlePayout {id w payout} (hdb : P db) (hw : db.Owner w (.mobileMoney, none))
    (hrow : row ⟨(.mobileMoney, none), .mobileMoneyWithdrawal, .payout payout.gateway, some id⟩)
    (h : db.settlePayout id w payout = some db') : P db' := by
  obtain ⟨payouts, -, rfl⟩ := Option.map_eq_some_iff.1 h
  have hgd : db.Grows { db with payouts } := .of_eq rfl rfl rfl
  exact hP.payout (hP.congr hdb rfl rfl) (hw.mono hgd) hrow rfl (exact_value _)

theorem settleReferral {id w w' : ℕ} {a a' : ℕ} {p p'} (hdb : P db)
    (hw : db.Owner w (.profile, p)) (hw' : db.Owner w' (.profile, p'))
    (hrow : ∀ k, Cmd.Writes (.settleReferral id w w' a a') k → row k)
    (h : db.settleReferral id w w' a a' = some db') : P db' := by
  obtain ⟨referrals, -, rfl⟩ := Option.map_eq_some_iff.1 h
  have hgd : db.Grows { db with referrals } := .of_eq rfl rfl rfl
  have ha : (0 : ℚ) ≤ ((a : ℤ) : ℚ) := by exact_mod_cast a.zero_le
  have ha' : (0 : ℚ) ≤ ((a' : ℤ) : ℚ) := by exact_mod_cast a'.zero_le
  exact hP.credit (hP.credit (hP.congr hdb rfl rfl) (hw.mono hgd)
      (hrow _ ⟨rfl, rfl, rfl, .inl rfl⟩) rfl (.inr ⟨ha, rfl⟩))
    ((hw'.mono hgd).mono (Db.grows_credit _)) (hrow _ ⟨rfl, rfl, rfl, .inr rfl⟩) rfl (.inr ⟨ha', rfl⟩)

/-- **Wallet rule.** A property kept by the primitive movements is kept by every step. -/
theorem exec {faults : Bool} {x : Store × Debts} {t : Store} {i : ℕ} {c : Cmd} {ε : Env}
    {r : Resp c} (hpre : Pre faults i c x) (hrow : ∀ k, c.Writes k → row k)
    (hfree : ∀ w a, c.freeDebit = some (w, a) → x.1.db.covers w a → ok a)
    (h : Money.exec x.1 i c ε = some (t, r)) (hx : P x.1.db) : P t.db := by
  by_cases hc : c.movesMoney = true
  swap
  · exact hP.sameMoney (exec_frame h (by simpa using hc)) hx
  cases c <;> simp only [Cmd.movesMoney, Bool.false_eq_true] at hc
  all_goals
    simp only [Money.exec, Option.some.injEq] at h
    obtain ⟨rfl, -⟩ := Prod.mk.inj h
  case persistApproved =>
    obtain ⟨-, rfl, hsw, hmw, -⟩ := hpre
    exact Store.matched_induction hx fun _ => hP.persistApprovedPayment hx hsw hmw hrow
  case settlePricedPenalties => exact hP.congr hx rfl rfl
  case credit w type amount rt rid =>
    obtain ⟨hamount, p, hw⟩ := hpre
    exact hP.credit hx hw (hrow _ ⟨rfl, rfl, rfl, rfl⟩) type.2 (.inr ⟨hamount.le, rfl⟩)
  case debit w type amount rt rid =>
    obtain ⟨p, hw⟩ := hpre
    exact Store.commit_induction hx fun _ hd =>
      hP.debit hx hw (hrow _ ⟨rfl, rfl, rfl, rfl⟩) type.2
        (.inr (hfree w amount rfl (Db.covers_of_debit hd))) hd
  case debitAndCredit =>
    obtain ⟨hamount, -, ⟨p, hpw, -⟩, hsw, -⟩ := hpre
    exact Store.commit_induction hx fun _ => hP.debitAndCredit hx hpw hsw
      (hrow _ ⟨rfl, rfl, .inl ⟨rfl, rfl⟩⟩) (hrow _ ⟨rfl, rfl, .inr ⟨rfl, rfl⟩⟩) hamount
  case grantWelcomeCredit =>
    obtain ⟨hamount, p, hw⟩ := hpre
    exact hP.grantWelcomeCredit hx hw (hrow _ rfl) hamount
  case payPenaltyFromWallet =>
    obtain ⟨⟨p, -, -, hamount⟩, hpw, hsw⟩ := hpre
    exact Store.commit_induction hx fun _ => hP.payPenaltyFromWallet hx hpw hsw
      (hrow _ (.inl rfl)) (hrow _ (.inr rfl)) ⟨_, hamount⟩
  case confirmPenaltyPaymentManually =>
    obtain ⟨⟨p, -, -, hamount⟩, hsw⟩ := hpre
    exact Store.commit_induction hx fun _ =>
      hP.confirmPenaltyPaymentManually hx hsw (hrow _ rfl) ⟨_, hamount⟩
  case markPenaltiesPaid | recordFailure | createUnlockPayment => exact hP.congr hx rfl rfl
  case recordRegistrationPayment | recordJobPostingPayment =>
    exact hP.credit (hP.congr hx rfl rfl) (Db.Owner.mono hpre (Db.grows_createPayment _))
      (hrow _ rfl) rfl (.inl ⟨exact_value _, (by simp)⟩)
  case recordMobileMoneyWithdrawal w amount d rf =>
    exact Store.commit_induction hx fun _ hd =>
      hP.debit hx hpre (hrow _ rfl) rfl (.inr (hfree w amount rfl (Db.covers_of_debit hd))) hd
  case settlePayout =>
    exact Store.matched_induction hx fun _ => hP.settlePayout hx hpre (hrow _ rfl)
  case settleReferral =>
    obtain ⟨⟨p, hw⟩, q, hw'⟩ := hpre
    exact Store.matched_induction hx fun _ => hP.settleReferral hx hw hw' hrow

end WalletRules

/-! ### Every ledger row belongs to a wallet -/

namespace Db

variable {db db' : Db}

/-- Every ledger row belongs to a wallet. -/
def RowsHaveWallets (db : Db) : Prop :=
  ∀ t ∈ db.transactions, t.walletId < db.wallets.length

theorem rowsHaveWallets_of_nil (h : db.transactions = []) : db.RowsHaveWallets := by
  simp [RowsHaveWallets, h]

theorem RowsHaveWallets.mono (h : db.RowsHaveWallets)
    (hw : db.wallets.length ≤ db'.wallets.length) (ht : db'.transactions = db.transactions) :
    db'.RowsHaveWallets := by
  intro t hmem
  rw [ht] at hmem
  exact (h t hmem).trans_le hw

theorem RowsHaveWallets.createTransaction (h : db.RowsHaveWallets) {w o type amount rt rid}
    (hw : db.Owner w o) : (db.createTransaction w type amount rt rid).RowsHaveWallets := by
  intro t hmem
  rcases List.mem_append.1 hmem with hmem | hmem
  · exact h t hmem
  · obtain rfl := List.mem_singleton.1 hmem
    exact hw.lt

theorem RowsHaveWallets.credit (h : db.RowsHaveWallets) {w o type amount rt rid}
    (hw : db.Owner w o) : (db.credit w type amount rt rid).RowsHaveWallets :=
  (h.createTransaction hw).mono (grows_incrementBalance _).wallets.length_le rfl

theorem transactions_of_decrementIfCovered {w amount}
    (h : db.decrementIfCovered w amount = some db') : db'.transactions = db.transactions := by
  obtain ⟨wallets, -, rfl⟩ := Option.map_eq_some_iff.1 h
  rfl

theorem RowsHaveWallets.debit (h : db.RowsHaveWallets) {w o type amount rt rid m}
    (hw : db.Owner w o) (hdebit : db.debit w type amount rt rid m = .ok db') :
    db'.RowsHaveWallets := by
  obtain ⟨d, hd, rfl⟩ := debit_eq_ok.1 hdebit
  have hgrows := grows_of_decrementIfCovered hd
  exact (h.mono hgrows.wallets.length_le
    (transactions_of_decrementIfCovered hd)).createTransaction (hw.mono hgrows)

end Db

theorem rowsHaveWallets_rules : WalletRules (fun _ => True) (fun _ => True) Db.RowsHaveWallets where
  congr h hw ht := h.mono (by rw [hw]) ht
  credit h hw _ _ _ := h.credit hw
  debit h hw _ _ _ hdebit := h.debit hw hdebit
  payout {db w type amount rt rid} h hw _ _ _ := by
    have hgrows : db.Grows (db.incrementBalance w (-amount)) := db.grows_incrementBalance
    exact (h.mono hgrows.wallets.length_le rfl).createTransaction (hw.mono hgrows)
  wallets new h _ := h.mono (by simp) rfl

end Rabotka.Money
