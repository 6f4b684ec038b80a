import Rabotka.Money.Discipline

/-!
# The ledger explains every balance

A wallet is audited when its balance is what its ledger rows add up to, a row counting
negatively when its type is a debit. Balance and row are written from the same number, but
each is rounded on its own: the row rounds the amount, the balance rounds the sum. The lemmas
on fixed-point columns say when these agree, and the only amounts for which they do not are
the half hundredths that a withdrawal may be asked for (`half_centime_withdrawn`).

`wallets_audited`: in every run in which no such amount is debited, every wallet stays audited
and no profile wallet is overdrawn.
-/

namespace Rabotka.Money

open Async

/-- What a ledger row adds to its wallet. -/
def WalletTransaction.signed (t : WalletTransaction) : ℤ :=
  if t.type.isDebit then -t.amount else t.amount

namespace Db

variable {db db' : Db}

/-- What the ledger rows of a wallet add up to. -/
def ledger (db : Db) (w : ℕ) : ℤ :=
  ((db.transactions.filter fun t => t.walletId = w).map WalletTransaction.signed).sum

/-- Every balance is explained by the ledger, and no profile wallet is overdrawn. -/
structure Audited (db : Db) : Prop where
  balance : ∀ (w : ℕ) (x : Wallet), db.wallets[w]? = some x → x.balance = db.ledger w
  nonneg : ∀ (w : ℕ) (x : Wallet), db.wallets[w]? = some x → x.ownerType = .profile → 0 ≤ x.balance

/-- A new row adds to the ledger of its wallet only. -/
theorem ledger_of_append {t : WalletTransaction} (h : db'.transactions = db.transactions ++ [t])
    (w : ℕ) : db'.ledger w = db.ledger w + if t.walletId = w then t.signed else 0 := by
  rw [ledger, h]
  rcases eq_or_ne t.walletId w with rfl | hne
  · simp [ledger]
  · simp [ledger, hne]

/-- A wallet without rows has an empty ledger. -/
theorem ledger_eq_zero (hrows : db.RowsHaveWallets) {w : ℕ} (hw : db.wallets.length ≤ w) :
    db.ledger w = 0 := by
  have hnil : (db.transactions.filter fun t => t.walletId = w) = [] := by
    refine List.filter_eq_nil_iff.2 fun t ht => ?_
    have hlt := hrows t ht
    simp only [decide_eq_true_eq]
    omega
  rw [ledger, hnil]
  rfl

/-- **One movement.** When a wallet and its ledger move by the same amount and the wallet, if
it is a profile's, stays covered, every wallet stays audited. -/
theorem Audited.move (h : db.Audited) {w : ℕ} {f : Wallet → Wallet} {δ : ℤ}
    (hw : ∀ w', db'.wallets[w']? = (db.wallets[w']?).map fun x => if w = w' then f x else x)
    (hl : ∀ w', db'.ledger w' = db.ledger w' + if w = w' then δ else 0)
    (hf : ∀ x, db.wallets[w]? = some x → (f x).ownerType = x.ownerType ∧
      (f x).balance = x.balance + δ ∧ (x.ownerType = .profile → 0 ≤ x.balance + δ)) :
    db'.Audited := by
  refine ⟨fun w' y hy => ?_, fun w' y hy hprofile => ?_⟩
  · rw [hw] at hy
    obtain ⟨x, hx, rfl⟩ := Option.map_eq_some_iff.1 hy
    rw [hl]
    rcases eq_or_ne w w' with rfl | hne
    · simp only [if_true, (hf x hx).2.1, h.balance w x hx]
    · simp only [hne, if_false, add_zero, h.balance w' x hx]
  · rw [hw] at hy
    obtain ⟨x, hx, rfl⟩ := Option.map_eq_some_iff.1 hy
    rcases eq_or_ne w w' with rfl | hne
    · obtain ⟨howner, hbalance, hcovered⟩ := hf x hx
      simp only [if_true] at hprofile ⊢
      rw [hbalance]
      exact hcovered (howner ▸ hprofile)
    · simp only [hne, if_false] at hprofile ⊢
      exact h.nonneg w' x hx hprofile

/-- A credit moves its wallet by the rounded amount: the amount is exact, or it adds to a
balance that is not negative. -/
theorem Audited.credit (h : db.Audited) {w o type amount rt rid} (hw : db.Owner w o)
    (htype : type.isDebit = false)
    (hamount : Exact amount ∧ o.1 ≠ .profile ∨ 0 ≤ amount ∧ o.1 = .profile) :
    (db.credit w type amount rt rid).Audited := by
  refine h.move (w := w) (δ := Decimal.column amount)
    (f := fun x => { x with balance := Decimal.increment x.balance amount })
    (fun w' => Table.getElem?_update _ _ _ _) (fun w' => ?_) fun x hx => ⟨rfl, ?_⟩
  · have hledger : (db.credit w type amount rt rid).ledger w' = db.ledger w' + _ :=
      ledger_of_append rfl w'
    simpa [WalletTransaction.signed, htype] using hledger
  · obtain ⟨x', hx', rfl⟩ := hw
    obtain rfl : x = x' := Option.some.inj (hx.symm.trans hx')
    rcases hamount with ⟨⟨a, rfl⟩, hne⟩ | ⟨hnn, hprofile⟩
    · rw [Decimal.increment_value, Decimal.column_value]
      exact ⟨rfl, fun hp => absurd hp hne⟩
    · have hbalance := h.nonneg w x hx hprofile
      rw [Decimal.increment_of_nonneg hbalance hnn]
      exact ⟨rfl, fun _ => add_nonneg hbalance (Decimal.column_nonneg hnn)⟩

/-- A covered debit moves its wallet by the rounded amount unless the amount is a positive
half hundredth. -/
theorem Audited.debit (h : db.Audited) {w type amount rt rid m} (htype : type.isDebit = true)
    (hamount : Exact amount ∨ ¬ (0 ≤ amount ∧ Decimal.IsHalf amount))
    (hdebit : db.debit w type amount rt rid m = .ok db') : db'.Audited := by
  obtain ⟨d, hd, rfl⟩ := debit_eq_ok.1 hdebit
  obtain ⟨wallets, hclaim, rfl⟩ := Option.map_eq_some_iff.1 hd
  obtain ⟨x, hx, hcovered, rfl⟩ := Table.claim_eq_some.1 hclaim
  have hcov : amount ≤ Decimal.value x.balance := of_decide_eq_true hcovered
  have hmove : Decimal.increment x.balance (-amount) = x.balance + -Decimal.column amount := by
    rw [← sub_eq_add_neg]
    rcases hamount with ⟨a, rfl⟩ | hhalf
    · rw [Decimal.increment_neg_value, Decimal.column_value]
    · exact (Decimal.increment_neg_eq_iff hcov).2 hhalf
  refine h.move (w := w) (δ := -Decimal.column amount)
    (f := fun x => { x with balance := Decimal.increment x.balance (-amount) })
    (fun w' => ?_) (fun w' => ?_) fun y hy => ⟨rfl, ?_⟩
  · have hupdate := Table.getElem?_update db.wallets w
      (fun x => { x with balance := Decimal.increment x.balance (-amount) }) w'
    rwa [Table.update_of_some hx] at hupdate
  · refine (@ledger_of_append db _ _ rfl w').trans ?_
    simp [WalletTransaction.signed, htype]
  · obtain rfl : x = y := Option.some.inj (hx.symm.trans hy)
    exact ⟨hmove, fun _ => hmove ▸ Decimal.increment_neg_nonneg hcov⟩

/-- A payout moves its wallet, which is no profile's, by the exact amount. -/
theorem Audited.payout (h : db.Audited) {w type amount rt rid}
    (hw : db.Owner w (.mobileMoney, none)) (htype : type.isDebit = true)
    (hamount : Exact amount) :
    ((db.incrementBalance w (-amount)).createTransaction w type amount rt rid).Audited := by
  obtain ⟨a, rfl⟩ := hamount
  refine h.move (w := w) (δ := -a)
    (f := fun x => { x with balance := Decimal.increment x.balance (-Decimal.value a) })
    (fun w' => Table.getElem?_update _ _ _ _) (fun w' => ?_) fun x hx => ⟨rfl, ?_⟩
  · refine (@ledger_of_append db _ _ rfl w').trans ?_
    simp [WalletTransaction.signed, htype]
  · obtain ⟨x', hx', howner⟩ := hw
    obtain rfl : x = x' := Option.some.inj (hx.symm.trans hx')
    refine ⟨Decimal.increment_neg_value _ _, fun hp => ?_⟩
    rw [show x.ownerType = .mobileMoney from congrArg Prod.fst howner] at hp
    cases hp

/-- New wallets are empty. -/
theorem Audited.wallets (h : db.Audited) (hrows : db.RowsHaveWallets) {new : List Wallet}
    (hnew : ∀ w ∈ new, w.balance = 0) :
    ({ db with wallets := db.wallets ++ new } : Db).Audited := by
  have hcases : ∀ {w x}, (db.wallets ++ new)[w]? = some x →
      db.wallets[w]? = some x ∨ db.wallets.length ≤ w ∧ x.balance = 0 := by
    intro w x hx
    rcases lt_or_ge w db.wallets.length with hlt | hge
    · rw [List.getElem?_append_left hlt] at hx
      exact .inl hx
    · rw [List.getElem?_append_right hge] at hx
      exact .inr ⟨hge, hnew x (List.mem_of_getElem? hx)⟩
  refine ⟨fun w x hx => ?_, fun w x hx hp => ?_⟩
  · rcases hcases hx with hold | ⟨hge, hzero⟩
    · exact h.balance w x hold
    · rw [hzero]
      exact (ledger_eq_zero hrows hge).symm
  · rcases hcases hx with hold | ⟨-, hzero⟩
    · exact h.nonneg w x hold hp
    · exact hzero.ge

end Db

/-- Auditing is kept by each movement of the wallets, free debits not being positive half
hundredths. -/
theorem audited_rules :
    WalletRules (fun _ => True) (fun amount => ¬ (0 ≤ amount ∧ Decimal.IsHalf amount))
      (fun db => db.Audited ∧ db.RowsHaveWallets) where
  congr {db db'} h hw ht := by
    have hledger : ∀ w, db'.ledger w = db.ledger w := fun w => by simp [Db.ledger, ht]
    refine ⟨⟨fun w x hx => ?_, fun w x hx => ?_⟩, h.2.mono (by rw [hw]) ht⟩
    · rw [hledger]
      exact h.1.balance w x (hw ▸ hx)
    · exact h.1.nonneg w x (hw ▸ hx)
  credit h hw _ htype hamount := ⟨h.1.credit hw htype hamount, h.2.credit hw⟩
  debit h hw _ htype hamount hd := ⟨h.1.debit htype hamount hd, h.2.debit hw hd⟩
  payout h hw hrow htype hamount := ⟨h.1.payout hw htype hamount,
    rowsHaveWallets_rules.payout h.2 hw hrow htype hamount⟩
  wallets new h hnew := ⟨h.1.wallets h.2 hnew, h.2.mono (by simp) rfl⟩

/-! ### Runs -/

/-- No covered debit asks for a positive amount halfway between two hundredths. -/
def noHalfCentime : Guard Store Cmd Request Env := fun s v =>
  match v with
  | .step _ c _ =>
    c.freeDebit.all fun d =>
      !(s.db.covers d.1 d.2 && decide (0 ≤ d.2) && decide (Decimal.IsHalf d.2))
  | _ => true

theorem audited_of_exec {x : Store × Debts} {t : Store} {i : ℕ} {c : Cmd} {ε : Env} {r : Resp c}
    (hx : x.1.db.Audited ∧ x.1.db.RowsHaveWallets) (hpre : Pre true i c x)
    (hg : noHalfCentime x.1 (.step i c ε)) (h : exec x.1 i c ε = some (t, r)) :
    t.db.Audited ∧ t.db.RowsHaveWallets := by
  refine audited_rules.exec hpre (fun _ _ => trivial) (fun w amount hfree hcovers hhalf => ?_) h hx
  simp [noHalfCentime, hfree, hcovers, hhalf.1, hhalf.2] at hg

/-- **The ledger explains every balance**, in every run without half hundredths. -/
theorem wallets_audited {s₀ : Store} (h₀ : s₀.db.Audited) (hrows : s₀.db.RowsHaveWallets)
    {c : Config Store Resp Exn} {as : List (Act Request Env Exn)}
    (h : c ∈ service.run noHalfCentime (service.idle s₀) as) : c.store.db.Audited := by
  have hguard : ∀ s v, noHalfCentime s v → faultGuard true s v := by
    intro s v _
    cases v <;> rfl
  obtain ⟨d, hd, -⟩ := money_run (J := fun x => x.1.db.Audited ∧ x.1.db.RowsHaveWallets) hguard
    (fun x i c ε t r _ hx hpre hg hexec => audited_of_exec hx hpre hg hexec) h hrows ⟨h₀, hrows⟩
  exact hd.1

/-! ### Half a centime -/

/-- The mobile-money wallet holds one franc that it has received. -/
def oneFranc : Store where
  db :=
    { profiles := []
      penalties := []
      requests := []
      wallets := [⟨.mobileMoney, none, 100⟩]
      transactions := [⟨0, .mobileMoneyCredit, 100, .paymentRequestVia none none, some 0⟩]
      payments := []
      payouts := []
      referrals := [] }
  deposits := []
  jobs := []

theorem oneFranc_audited : oneFranc.db.Audited ∧ oneFranc.db.RowsHaveWallets := by
  refine ⟨⟨fun w x hx => ?_, fun w x hx hp => ?_⟩, by simp [Db.RowsHaveWallets, oneFranc]⟩
  · cases w with
    | zero =>
      obtain rfl := Option.some.inj hx
      decide
    | succ w => cases hx
  · cases w with
    | zero =>
      obtain rfl := Option.some.inj hx
      cases hp
    | succ w => cases hx

/-- A withdrawal is recorded. -/
def withdrawn (amount : ℚ) : List (Act Request Env Exn) :=
  [.spawn (.recordMobileMoneyWithdrawal amount none none), .step 0 .unit, .step 0 .unit]

theorem quarter_withdrawn :
    ∃ c ∈ service.run noHalfCentime (service.idle oneFranc) (withdrawn (1 / 4)),
      c.store.db.Audited := by
  have hrun : (service.run noHalfCentime (service.idle oneFranc) (withdrawn (1 / 4))).isSome := by
    decide +kernel
  obtain ⟨c, hc⟩ := Option.isSome_iff_exists.1 hrun
  exact ⟨c, hc, wallets_audited oneFranc_audited.1 oneFranc_audited.2 hc⟩

/-- Withdrawing half a centime writes a row of one centime and leaves the balance as it was. -/
theorem half_centime_withdrawn : oneFranc.db.Audited ∧ oneFranc.db.RowsHaveWallets ∧
    ∃ c ∈ service.run Guard.all (service.idle oneFranc) (withdrawn (1 / 200)),
      c.Quiescent ∧ ¬ c.store.db.Audited := by
  refine ⟨oneFranc_audited.1, oneFranc_audited.2, ?_⟩
  have hrun : (service.run Guard.all (service.idle oneFranc) (withdrawn (1 / 200))).map
      (fun c => (decide c.Quiescent, c.store.db.wallets, c.store.db.ledger 0)) =
        some (true, [⟨.mobileMoney, none, 100⟩], 99) := by
    decide +kernel
  obtain ⟨c, hc, heq⟩ := Option.map_eq_some_iff.1 hrun
  simp only [Prod.mk.injEq, decide_eq_true_eq] at heq
  obtain ⟨hq, hwallets, hledger⟩ := heq
  refine ⟨c, hc, hq, fun h => ?_⟩
  have hbalance := h.balance 0 ⟨.mobileMoney, none, 100⟩ (by rw [hwallets]; rfl)
  rw [hledger] at hbalance
  cases hbalance

end Rabotka.Money
