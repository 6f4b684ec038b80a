import Rabotka.Money.Steps

/-!
# What no money step does

Two frame facts about the steps of the money services. `exec_grows`: penalties, payment
requests and wallets are never removed, and the terms they were created on never change, so
what an operation has read of them stays true. `exec_frame`: only the steps marked by
`Cmd.movesMoney` write to the ledger, the payments and the penalties; all the others at most
create an empty wallet or move a payment request to another status.
-/

namespace Rabotka.Money

open List

namespace Db

variable (db : Db)

/-! ### Growth, statement by statement -/

theorem grows_createTransaction {w type amount rt rid} :
    db.Grows (db.createTransaction w type amount rt rid) :=
  .of_eq rfl rfl rfl

theorem grows_createPayment {type p amount m st d} :
    db.Grows (db.createPayment type p amount m st d) :=
  .of_eq rfl rfl rfl

theorem grows_incrementBalance {w amount} : db.Grows (db.incrementBalance w amount) :=
  ⟨.refl _ _, .refl _ _, .update fun _ => rfl⟩

theorem grows_updateRequest {id f} (hf : ∀ r, PaymentRequest.terms (f r) = r.terms) :
    db.Grows (db.updateRequest id f) :=
  ⟨.refl _ _, .update hf, .refl _ _⟩

theorem grows_credit {w type amount rt rid} : db.Grows (db.credit w type amount rt rid) :=
  db.grows_createTransaction.trans (grows_incrementBalance _)

theorem grows_createSharedWallet {o} : db.Grows (db.createSharedWallet o).1 :=
  ⟨.refl _ _, .refl _ _, .append _ _ _⟩

theorem grows_upsertProfileWallet {p} : db.Grows (db.upsertProfileWallet p).1 := by
  unfold upsertProfileWallet
  split
  · exact .refl db
  · exact ⟨.refl _ _, .refl _ _, .append _ _ _⟩

theorem grows_createApprovedRequest {p token createdAt amount a} :
    db.Grows (db.createApprovedRequest p token createdAt amount a) :=
  ⟨.refl _ _, .append _ _ _, .refl _ _⟩

theorem grows_markPenaltiesPaid {ids p total n} : db.Grows (db.markPenaltiesPaid ids p total n) :=
  ⟨.updateMany fun _ => rfl, .refl _ _, .refl _ _⟩

theorem grows_settlePricedPenalties {r n} : db.Grows (db.settlePricedPenalties r n) :=
  ⟨.updateMany fun _ => rfl, .refl _ _, .refl _ _⟩

variable {db} {db' : Db}

theorem grows_of_decrementIfCovered {w amount} (h : db.decrementIfCovered w amount = some db') :
    db.Grows db' := by
  obtain ⟨wallets, hw, rfl⟩ := Option.map_eq_some_iff.1 h
  exact ⟨.refl _ _, .refl _ _, .claim hw fun _ => rfl⟩

theorem grows_of_claimPenalty {id} (h : db.claimPenalty id = some db') : db.Grows db' := by
  obtain ⟨penalties, hp, rfl⟩ := Option.map_eq_some_iff.1 h
  exact ⟨.claim hp fun _ => rfl, .refl _ _, .refl _ _⟩

theorem grows_of_claimRequest {id p f} (h : db.claimRequest id p f = some db')
    (hf : ∀ r, PaymentRequest.terms (f r) = r.terms) : db.Grows db' := by
  obtain ⟨requests, hr, rfl⟩ := Option.map_eq_some_iff.1 h
  exact ⟨.refl _ _, .claim hr hf, .refl _ _⟩

/-! ### Inversion of the transactions that may throw or lose a race -/

theorem debit_eq_ok {w type amount rt rid m} : db.debit w type amount rt rid m = .ok db' ↔
      ∃ d, db.decrementIfCovered w amount = some d ∧
        d.createTransaction w type amount rt rid = db' := by
  unfold debit
  cases db.decrementIfCovered w amount <;> simp

theorem debitAndCredit_eq_ok {pw sw amount dt ct rt rid} :
    db.debitAndCredit pw sw amount dt ct rt rid = .ok db' ↔
      ∃ d, db.debit pw dt amount rt rid "Solde insuffisant dans votre portefeuille" = .ok d ∧
        d.credit sw ct amount rt rid = db' := by
  unfold debitAndCredit
  cases db.debit pw dt amount rt rid "Solde insuffisant dans votre portefeuille" <;> simp

theorem payPenaltyFromWallet_eq_ok {id p pw sw amount n} :
    db.payPenaltyFromWallet id p pw sw amount n = .ok db' ↔ ∃ d, db.claimPenalty id = some d ∧
        ∃ e, d.debit pw .penaltyDebit amount .penalty id
          "Solde insuffisant pour régler cette pénalité" = .ok e ∧
        ((e.credit sw .creditPenalty amount .penalty id).createPayment .penalty p amount .wallet
          .completed (.penaltyViaWallet id)).recomputeBillingStatus p n = db' := by
  unfold payPenaltyFromWallet
  cases db.claimPenalty id with
  | none => simp
  | some d =>
    cases hd : d.debit pw .penaltyDebit amount .penalty id
      "Solde insuffisant pour régler cette pénalité" <;> simp [hd]

theorem confirmPenaltyPaymentManually_eq_ok {id p sw amount m} :
    db.confirmPenaltyPaymentManually id p sw amount m = .ok db' ↔
      ((db.createPayment .penalty p amount m .completed (.penaltyConfirmed id)).credit sw
        .creditPenalty amount .penalty id).claimPenalty id = some db' := by
  simp only [confirmPenaltyPaymentManually]
  cases ((db.createPayment .penalty p amount m .completed (.penaltyConfirmed id)).credit sw
    .creditPenalty amount .penalty id).claimPenalty id <;> simp

theorem persistApprovedPayment_eq_some {id r context tx sw mw} :
    db.persistApprovedPayment id r context tx sw mw = some db' ↔
      ∃ d, db.claimRequest id (fun r => r.status.isOpen)
          (fun r => withTx tx { r with status := .approved }) = some d ∧
        ((d.createPayment context.paymentType r.profileId context.amount .mobileMoney .completed
            .ofRequest).credit sw context.systemRowType context.amount .paymentRequest id).credit
          mw .mobileMoneyCredit context.amount (.paymentRequestVia r.gateway r.operator) id =
          db' := by
  simp [persistApprovedPayment, Option.map_eq_some_iff]

/-- A debit writes to the wallets and the ledger only. -/
theorem frame_of_debit {w type amount rt rid m} (h : db.debit w type amount rt rid m = .ok db') :
    db'.requests = db.requests ∧ db'.payments = db.payments ∧ db'.penalties = db.penalties := by
  obtain ⟨d, hd, rfl⟩ := debit_eq_ok.1 h
  obtain ⟨wallets, -, rfl⟩ := Option.map_eq_some_iff.1 hd
  exact ⟨rfl, rfl, rfl⟩

/-- A claim of a penalty writes to that penalty only. -/
theorem frame_of_claimPenalty {id} (h : db.claimPenalty id = some db') :
    db'.requests = db.requests ∧ db'.payments = db.payments ∧
      db'.wallets = db.wallets ∧ db'.transactions = db.transactions := by
  obtain ⟨penalties, -, rfl⟩ := Option.map_eq_some_iff.1 h
  exact ⟨rfl, rfl, rfl, rfl⟩

theorem grows_of_debit {w type amount rt rid m}
    (h : db.debit w type amount rt rid m = .ok db') : db.Grows db' := by
  obtain ⟨d, hd, rfl⟩ := debit_eq_ok.1 h
  exact (grows_of_decrementIfCovered hd).trans d.grows_createTransaction

theorem grows_of_debitAndCredit {pw sw amount dt ct rt rid}
    (h : db.debitAndCredit pw sw amount dt ct rt rid = .ok db') : db.Grows db' := by
  obtain ⟨d, hd, rfl⟩ := debitAndCredit_eq_ok.1 h
  exact (grows_of_debit hd).trans d.grows_credit

theorem grows_of_payPenaltyFromWallet {id p pw sw amount n}
    (h : db.payPenaltyFromWallet id p pw sw amount n = .ok db') : db.Grows db' := by
  obtain ⟨d, hd, e, he, rfl⟩ := payPenaltyFromWallet_eq_ok.1 h
  exact (((grows_of_claimPenalty hd).trans (grows_of_debit he)).trans e.grows_credit).trans
    (.of_eq rfl rfl rfl)

theorem grows_of_confirmPenaltyPaymentManually {id p sw amount m}
    (h : db.confirmPenaltyPaymentManually id p sw amount m = .ok db') : db.Grows db' :=
  (Grows.trans (db.grows_createPayment) (grows_credit _)).trans
    (grows_of_claimPenalty (confirmPenaltyPaymentManually_eq_ok.1 h))

theorem grows_of_persistApprovedPayment {id r context tx sw mw}
    (h : db.persistApprovedPayment id r context tx sw mw = some db') : db.Grows db' := by
  obtain ⟨d, hd, rfl⟩ := persistApprovedPayment_eq_some.1 h
  exact (((grows_of_claimRequest hd fun _ => rfl).trans (grows_createPayment _)).trans
    (grows_credit _)).trans (grows_credit _)

theorem grows_grantWelcomeCredit (db : Db) {p w amount} :
    db.Grows (db.grantWelcomeCredit p w amount) := by
  unfold grantWelcomeCredit
  split
  · exact .refl db
  · rename_i profiles _
    have hdb : db.Grows { db with profiles } := .of_eq rfl rfl rfl
    exact hdb.trans (grows_credit _)

theorem grows_of_settlePayout {id w payout} (h : db.settlePayout id w payout = some db') :
    db.Grows db' := by
  obtain ⟨payouts, -, rfl⟩ := Option.map_eq_some_iff.1 h
  have hdb : db.Grows { db with payouts } := .of_eq rfl rfl rfl
  exact (hdb.trans (grows_incrementBalance _)).trans (grows_createTransaction _)

theorem grows_of_failPayout {id} (h : db.failPayout id = some db') : db.Grows db' := by
  obtain ⟨payouts, -, rfl⟩ := Option.map_eq_some_iff.1 h
  exact .of_eq rfl rfl rfl

theorem grows_of_settleReferral {id w w' a a'}
    (h : db.settleReferral id w w' a a' = some db') : db.Grows db' := by
  obtain ⟨referrals, -, rfl⟩ := Option.map_eq_some_iff.1 h
  have hdb : db.Grows { db with referrals } := .of_eq rfl rfl rfl
  exact (hdb.trans (grows_credit _)).trans (grows_credit _)

end Db

/-! ### Growth of the store -/

/-- `t` may come after `s`. -/
structure Store.Grows (s t : Store) : Prop where
  db : s.db.Grows t.db
  deposits : s.deposits ⊆ t.deposits
  jobs : s.jobs ⊆ t.jobs

theorem Store.Grows.refl (s : Store) : s.Grows s :=
  ⟨.refl _, List.Subset.refl _, List.Subset.refl _⟩

theorem Store.Grows.trans {s t u : Store} (h : s.Grows t) (h' : t.Grows u) : s.Grows u :=
  ⟨h.db.trans h'.db, List.Subset.trans h.deposits h'.deposits, List.Subset.trans h.jobs h'.jobs⟩

variable {s : Store}

theorem Store.grows_withDb {db : Db} (h : s.db.Grows db) : s.Grows (s.withDb db) :=
  ⟨h, List.Subset.refl _, List.Subset.refl _⟩

variable {o : Option Db}

theorem Store.grows_matched (h : ∀ db, o = some db → s.db.Grows db) : s.Grows (s.matched o).1 := by
  cases o with
  | none => exact .refl s
  | some db => exact grows_withDb (h db rfl)

theorem Store.grows_commit {o : Except Exn Db}
    (h : ∀ db, o = .ok db → s.db.Grows db) : s.Grows (s.commit o).1 := by
  cases o with
  | error e => exact .refl s
  | ok db => exact grows_withDb (h db rfl)

/-- **Growth.** No step removes a row or changes the terms it was created on. -/
theorem exec_grows {s t : Store} {i : ℕ} {c : Cmd} {ε : Env} {r : Resp c}
    (h : exec s i c ε = some (t, r)) : s.Grows t := by
  cases c <;> simp only [exec, Option.some.injEq] at h
  case getBillingBlockThreshold | getWelcomeCredits | qualifyForSettlement
      | assertOperatorMatchesGateway | gatewayStatus | verifyCallback | payoutStatus
      | commitPayUnlock =>
    split at h <;> cases h
    exact .refl s
  case gatewayInitiate =>
    split at h
    · split at h <;> cases h
      exact ⟨.refl _, subset_cons_self _ _, List.Subset.refl _⟩
    · cases h
      exact .refl s
    · cases h
  case createApprovedRequest =>
    split at h <;> cases h
    exact Store.grows_withDb (Db.grows_createApprovedRequest _)
  case takeJob =>
    split at h <;> cases h
    exact .refl s
  all_goals obtain ⟨rfl, -⟩ := Prod.mk.inj h
  case findRequestByToken | findRequestByRef | findRequest | countOwed | findPenalty
      | findUnpaid | findProfile | findPayout | findSharedWallet =>
    exact .refl s
  case upsertProfileWallet => exact Store.grows_withDb (Db.grows_upsertProfileWallet _)
  case createSharedWallet => exact Store.grows_withDb (Db.grows_createSharedWallet _)
  case addJob => exact ⟨.refl _, List.Subset.refl _, subset_cons_self _ _⟩
  case claimForProcessing | revertToPending | rejectOpen | rejectPolled | revertPolled =>
    exact Store.grows_matched fun _ hdb => Db.grows_of_claimRequest hdb fun _ => rfl
  case storeGatewayRef | submit =>
    exact Store.grows_withDb (Db.grows_updateRequest _ fun _ => rfl)
  case recordFailure | createUnlockPayment =>
    exact Store.grows_withDb (Db.grows_createPayment _)
  case persistApproved => exact Store.grows_matched fun _ => Db.grows_of_persistApprovedPayment
  case settlePricedPenalties => exact Store.grows_withDb (Db.grows_settlePricedPenalties _)
  case credit => exact Store.grows_withDb (Db.grows_credit _)
  case debit => exact Store.grows_commit fun _ => Db.grows_of_debit
  case debitAndCredit => exact Store.grows_commit fun _ => Db.grows_of_debitAndCredit
  case grantWelcomeCredit => exact Store.grows_withDb (Db.grows_grantWelcomeCredit _)
  case payPenaltyFromWallet => exact Store.grows_commit fun _ => Db.grows_of_payPenaltyFromWallet
  case confirmPenaltyPaymentManually =>
    exact Store.grows_commit fun _ => Db.grows_of_confirmPenaltyPaymentManually
  case markPenaltiesPaid => exact Store.grows_withDb (Db.grows_markPenaltiesPaid _)
  case recordRegistrationPayment | recordJobPostingPayment =>
    exact Store.grows_withDb ((Db.grows_createPayment _).trans (Db.grows_credit _))
  case recordMobileMoneyWithdrawal => exact Store.grows_commit fun _ => Db.grows_of_debit
  case settlePayout => exact Store.grows_matched fun _ => Db.grows_of_settlePayout
  case failPayout => exact Store.grows_matched fun _ => Db.grows_of_failPayout
  case settleReferral => exact Store.grows_matched fun _ => Db.grows_of_settleReferral

/-! ### The steps that move no money -/

/-- The steps that write to the ledger, the payments or the penalties. -/
def Cmd.movesMoney : Cmd → Bool
  | .persistApproved _ _ _ _ _ _ | .settlePricedPenalties _ _ | .credit _ _ _ _ _
  | .debit _ _ _ _ _ | .debitAndCredit _ _ _ _ _ _ _ | .grantWelcomeCredit _ _ _
  | .payPenaltyFromWallet _ _ _ _ _ _ | .confirmPenaltyPaymentManually _ _ _ _ _
  | .markPenaltiesPaid _ _ _ _ | .recordFailure _ _ _ | .createUnlockPayment _ _
  | .recordRegistrationPayment _ _ _ | .recordJobPostingPayment _ _ _ _
  | .recordMobileMoneyWithdrawal _ _ _ _ | .settlePayout _ _ _ | .settleReferral _ _ _ _ _ =>
    true
  | _ => false

/-- The money tables are as before, up to new empty wallets. -/
structure Db.SameMoney (db db' : Db) : Prop where
  transactions : db'.transactions = db.transactions
  payments : db'.payments = db.payments
  penalties : db'.penalties = db.penalties
  wallets : ∃ new : List Wallet, db'.wallets = db.wallets ++ new ∧ ∀ w ∈ new, w.balance = 0

theorem Db.SameMoney.refl (db : Db) : db.SameMoney db :=
  ⟨rfl, rfl, rfl, [], (append_nil _).symm, by simp⟩

theorem Db.sameMoney_of_claimRequest {db db' : Db} {id p f}
    (h : db.claimRequest id p f = some db') : db.SameMoney db' := by
  obtain ⟨requests, -, rfl⟩ := Option.map_eq_some_iff.1 h
  exact ⟨rfl, rfl, rfl, [], (append_nil _).symm, by simp⟩

theorem Store.sameMoney_matched
    (h : ∀ db, o = some db → s.db.SameMoney db) : s.db.SameMoney (s.matched o).1.db := by
  cases o with
  | none => exact .refl _
  | some db => exact h db rfl

/-- **Frame.** Only the steps of `Cmd.movesMoney` change the money tables. -/
theorem exec_frame {s t : Store} {i : ℕ} {c : Cmd} {ε : Env} {r : Resp c}
    (h : exec s i c ε = some (t, r)) (hc : c.movesMoney = false) : s.db.SameMoney t.db := by
  cases c <;> simp only [exec, Option.some.injEq] at h
  case getBillingBlockThreshold | getWelcomeCredits | qualifyForSettlement
      | assertOperatorMatchesGateway | gatewayStatus | verifyCallback | payoutStatus
      | commitPayUnlock =>
    split at h <;> cases h
    exact .refl _
  case gatewayInitiate =>
    split at h
    · split at h <;> cases h
      exact .refl _
    · cases h
      exact .refl _
    · cases h
  case createApprovedRequest =>
    split at h <;> cases h
    exact ⟨rfl, rfl, rfl, [], (append_nil _).symm, by simp⟩
  case takeJob =>
    split at h <;> cases h
    exact .refl _
  all_goals obtain ⟨rfl, -⟩ := Prod.mk.inj h
  case findRequestByToken | findRequestByRef | findRequest | countOwed | findPenalty
      | findUnpaid | findProfile | findPayout | findSharedWallet | addJob =>
    exact .refl _
  case upsertProfileWallet p =>
    simp only [Store.withDb, Db.upsertProfileWallet]
    split
    · exact .refl _
    · exact ⟨rfl, rfl, rfl, _, rfl, by simp⟩
  case createSharedWallet => exact ⟨rfl, rfl, rfl, _, rfl, by simp⟩
  case claimForProcessing | revertToPending | rejectOpen | rejectPolled | revertPolled =>
    exact Store.sameMoney_matched fun _ => Db.sameMoney_of_claimRequest
  case storeGatewayRef | submit =>
    exact ⟨rfl, rfl, rfl, [], (append_nil _).symm, by simp⟩
  case failPayout =>
    refine Store.sameMoney_matched fun db hdb => ?_
    obtain ⟨payouts, -, rfl⟩ := Option.map_eq_some_iff.1 hdb
    exact ⟨rfl, rfl, rfl, [], (append_nil _).symm, by simp⟩
  all_goals cases hc

/-! ### The money steps that may lose a race -/

/-- A guarded write matched nothing, or it wrote. -/
theorem Store.matched_cases {s t : Store} {r : Bool} (h : s.matched o = (t, r)) :
    (o = none ∧ t = s ∧ r = false) ∨ ∃ db, o = some db ∧ t = s.withDb db ∧ r = true := by
  cases o with
  | none => exact .inl ⟨rfl, (congrArg Prod.fst h).symm, (congrArg Prod.snd h).symm⟩
  | some db => exact .inr ⟨db, rfl, (congrArg Prod.fst h).symm, (congrArg Prod.snd h).symm⟩

/-- A transaction was rolled back, or it wrote. -/
theorem Store.commit_cases {s t : Store} {o : Except Exn Db} {r : Except Exn Unit}
    (h : s.commit o = (t, r)) :
    (∃ e, t = s ∧ r = .error e) ∨ ∃ db, o = .ok db ∧ t = s.withDb db ∧ r = .ok () := by
  cases o with
  | error e => exact .inl ⟨e, (congrArg Prod.fst h).symm, (congrArg Prod.snd h).symm⟩
  | ok db => exact .inr ⟨db, rfl, (congrArg Prod.fst h).symm, (congrArg Prod.snd h).symm⟩

/-- What a guarded write does to a property of the database. -/
theorem Store.matched_induction {P : Db → Prop} (h₀ : P s.db)
    (h : ∀ db, o = some db → P db) : P (s.matched o).1.db := by
  cases o with
  | none => exact h₀
  | some db => exact h db rfl

/-- What a transaction that may be rolled back does to a property of the database. -/
theorem Store.commit_induction {P : Db → Prop} {o : Except Exn Db} (h₀ : P s.db)
    (h : ∀ db, o = .ok db → P db) : P (s.commit o).1.db := by
  cases o with
  | error e => exact h₀
  | ok db => exact h db rfl

end Rabotka.Money
