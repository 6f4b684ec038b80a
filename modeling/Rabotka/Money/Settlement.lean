import Rabotka.Money.Discipline
import Rabotka.Money.Records

/-!
# A payment request is settled once

`persistApprovedPayment` claims the request with a status predicate, so as long as an
APPROVED request stays APPROVED it is settled at most once. Every write of a status is
guarded in this way except one: `submitPayment` writes SUBMITTED by identifier alone, on the
strength of a PENDING status it read earlier. A payment that was approved in between is
reopened, and the next report of the same deposit credits it a second time
(`submitted_settled_twice`).

`settled_once` is the positive side: in every run of the money services in which each write
of `submitPayment` finds its request not APPROVED, whatever the gateway answers, the system
wallet and the mobile-money wallet get the amount at most once each, and APPROVED is final.
-/

namespace Rabotka.Money

open Async

/-! ### What a settlement leaves behind -/

/-- A row by which a wallet of the kind `o` receives the payment of a request. -/
def settlementKind (o : WalletOwnerType) (id : ℕ) (k : RowKind) : Bool :=
  k.owner.1 = o && k.referenceType.settles && k.referenceId = some id

namespace Db

/-- What the wallets of the kind `o` have received for a request. -/
def settlementRows (db : Db) (o : WalletOwnerType) (id : ℕ) : List WalletTransaction :=
  db.rows (settlementKind o id)

/-- The system wallet and the mobile-money wallet have received the amount of the request at
most once each, and only if it is APPROVED. -/
structure SettledOnce (db : Db) (id : ℕ) : Prop where
  atMostOnce : ∀ o, o ≠ .profile → (db.settlementRows o id).length ≤ 1
  amount : ∀ o, o ≠ .profile → ∀ t ∈ db.settlementRows o id,
    ∃ r, db.requests[id]? = some r ∧ t.amount = r.amount.getD 0
  approved : ∀ o, o ≠ .profile → db.settlementRows o id ≠ [] → db.approved id

end Db

/-- Every SUBMITTED write finds a request that is not APPROVED. -/
def submitsOpen : Guard Store Cmd Request Env := fun s v =>
  match v with
  | .step _ (.submit id) _ => !s.db.approved id
  | _ => true

/-- A SUBMITTED write that the guard admits finds a request that is not APPROVED. -/
theorem approved_of_step {s t : Store} {i : ℕ} {c : Cmd} {ε : Env} {r : Resp c} {id : ℕ}
    (h : exec s i c ε = some (t, r)) (hg : submitsOpen s (.step i c ε)) (ha : s.db.approved id) :
    t.db.approved id := by
  refine approved_of_exec h ?_ ha
  rintro rfl
  simp [submitsOpen, ha] at hg

/-! ### Settling adds one row to each of the two wallets -/

variable {context : PaymentProcessingContext} {db db' : Db} {r : PaymentRequest}

/-- A settlement is the claim and the payment row, then one credit for each wallet. -/
theorem credits_of_persistApproved {j : ℕ}
    {tx : Option ℕ} {sw mw : ℕ}
    (h : db.persistApprovedPayment j r context tx sw mw = some db') :
    ∃ e : Db, db.Grows e ∧ e.wallets = db.wallets ∧ e.transactions = db.transactions ∧
      db' = (e.credit sw context.systemRowType context.amount .paymentRequest j).credit
        mw .mobileMoneyCredit context.amount (.paymentRequestVia r.gateway r.operator) j := by
  obtain ⟨d, hd, rfl⟩ := Db.persistApprovedPayment_eq_some.1 h
  have hgrows : db.Grows d := Db.grows_of_claimRequest hd fun _ => rfl
  obtain ⟨requests, -, rfl⟩ := Option.map_eq_some_iff.1 hd
  exact ⟨_, hgrows.trans (Db.grows_createPayment _), rfl, rfl, rfl⟩

/-- What a settlement adds to the rows of a kind. -/
theorem rows_of_persistApproved {j : ℕ}
    {tx : Option ℕ} {sw mw : ℕ} {p : RowKind → Bool}
    (hrows : db.RowsHaveWallets) (hsw : db.Owner sw (.system, none))
    (hmw : db.Owner mw (.mobileMoney, none))
    (h : db.persistApprovedPayment j r context tx sw mw = some db') :
    db'.rows p = db.rows p ++
        (if p ⟨(.system, none), context.systemRowType, .paymentRequest, some j⟩ then
          [⟨sw, context.systemRowType, Decimal.column context.amount, .paymentRequest, some j⟩]
        else []) ++
        if p ⟨(.mobileMoney, none), .mobileMoneyCredit,
            .paymentRequestVia r.gateway r.operator, some j⟩ then
          [⟨mw, .mobileMoneyCredit, Decimal.column context.amount,
            .paymentRequestVia r.gateway r.operator, some j⟩] else [] := by
  obtain ⟨e, hgrows, hw, ht, rfl⟩ := credits_of_persistApproved h
  have hrowse : e.RowsHaveWallets := hrows.mono (by rw [hw]) ht
  have hswe := hsw.mono hgrows
  rw [Db.rows_credit (hrowse.credit hswe) ((hmw.mono hgrows).mono (Db.grows_credit _)),
    Db.rows_credit hrowse hswe, Db.rows_congr hrows hgrows ht]

/-- A settlement gives each of the two wallets one row for its own request and none for any
other. -/
theorem settlementRows_of_persistApproved {id j : ℕ}
    {tx : Option ℕ} {sw mw : ℕ} {o : WalletOwnerType}
    (hrows : db.RowsHaveWallets) (hsw : db.Owner sw (.system, none))
    (hmw : db.Owner mw (.mobileMoney, none))
    (h : db.persistApprovedPayment j r context tx sw mw = some db') :
    ∃ new, db'.settlementRows o id = db.settlementRows o id ++ new ∧
      (j ≠ id → new = []) ∧ new.length ≤ 1 ∧
      ∀ t ∈ new, t.amount = Decimal.column context.amount := by
  have heq := rows_of_persistApproved (p := settlementKind o id) hrows hsw hmw h
  refine ⟨_, heq.trans (List.append_assoc _ _ _), ?_⟩
  rcases eq_or_ne j id with rfl | hne
  · cases o <;> simp [settlementKind, ReferenceType.settles]
  · simp [settlementKind, hne]

/-! ### The invariant -/

/-- Steps that leave the rows of a request alone keep it settled at most once. -/
theorem Db.SettledOnce.of_rows {id : ℕ} (h : db.SettledOnce id)
    (hdb : db.Grows db') (ha : db.approved id → db'.approved id)
    (hr : ∀ o, o ≠ .profile → db'.settlementRows o id = db.settlementRows o id) :
    db'.SettledOnce id where
  atMostOnce o ho := by rw [hr o ho]; exact h.atMostOnce o ho
  amount o ho t ht := by
    rw [hr o ho] at ht
    obtain ⟨r, hreq, hamount⟩ := h.amount o ho t ht
    obtain ⟨r', hreq', hterms⟩ := hdb.requests id r hreq
    have hsame : r'.amount = r.amount := congrArg Terms.amount hterms
    exact ⟨r', hreq', by rw [hamount, hsame]⟩
  approved o ho hne := ha (h.approved o ho (by rwa [hr o ho] at hne))

/-- Only a settlement of the request itself writes its settlement rows. -/
theorem not_settlementKind_of_writes {faults : Bool} {i id : ℕ} {o : WalletOwnerType}
    (ho : o ≠ .profile) {c : Cmd} {x : Store × Debts} (hpre : Pre faults i c x)
    (hc : ∀ q context tx sw mw, c ≠ .persistApproved id q context tx sw mw)
    {k : RowKind} (h : c.Writes k) : settlementKind o id k = false := by
  by_contra hk
  simp only [settlementKind, Bool.not_eq_false, Bool.and_eq_true, decide_eq_true_eq] at hk
  obtain ⟨⟨howner, hsettles⟩, hid⟩ := hk
  have hprofile : k.owner.1 ≠ .profile := by rwa [howner]
  cases c <;> simp only [Cmd.Writes] at h
  case persistApproved j r context tx sw mw =>
    obtain rfl : j = id := Option.some.inj (h.1.symm.trans hid)
    exact hc r context tx sw mw rfl
  case credit | debit | settleReferral => exact hprofile h.1
  case debitAndCredit =>
    rw [h.1, hpre.2.1] at hsettles
    cases hsettles
  case payPenaltyFromWallet =>
    rcases h with rfl | rfl <;> cases hsettles
  all_goals
    rw [h] at hsettles
    cases hsettles

/-- One step keeps a request settled at most once. -/
theorem settledOnce_step {faults : Bool} {x : Store × Debts} {t : Store} {i id : ℕ} {c : Cmd}
    {ε : Env} {r : Resp c} (hrows : x.1.db.RowsHaveWallets) (h : x.1.db.SettledOnce id)
    (hpre : Pre faults i c x) (hg : submitsOpen x.1 (.step i c ε))
    (hexec : exec x.1 i c ε = some (t, r)) : t.db.SettledOnce id := by
  have hgrows : x.1.db.Grows t.db := (Store.grows_of_step (i := i) hexec).db
  have happ : x.1.db.approved id → t.db.approved id := approved_of_step hexec hg
  by_cases hc : ∃ q context tx sw mw, c = .persistApproved id q context tx sw mw
  swap
  · push Not at hc
    exact h.of_rows hgrows happ fun o ho =>
      rows_of_exec hrows hpre (fun k => not_settlementKind_of_writes ho hpre hc) hexec
  obtain ⟨q, context, tx, sw, mw, rfl⟩ := hc
  obtain ⟨hq, rfl, hsw, hmw, -⟩ := hpre
  simp only [exec, Option.some.injEq] at hexec
  cases hd : x.1.db.persistApprovedPayment id q (buildPaymentProcessingContext q) tx sw mw with
  | none =>
    rw [hd] at hexec
    obtain ⟨rfl, -⟩ := Prod.mk.inj hexec
    exact h
  | some db =>
    rw [hd] at hexec
    obtain ⟨rfl, -⟩ := Prod.mk.inj hexec
    obtain ⟨d, hclaimed, hcredits⟩ := Db.persistApprovedPayment_eq_some.1 hd
    obtain ⟨requests, hclaim, hreqs⟩ := Option.map_eq_some_iff.1 hclaimed
    obtain ⟨r, hr, hopen, rfl⟩ := Table.claim_eq_some.1 hclaim
    subst hreqs
    -- the claim found the request open, so nothing had been received for it
    have hnone : ∀ o, o ≠ .profile → x.1.db.settlementRows o id = [] := by
      intro o ho
      by_contra hne
      obtain ⟨r', hr', hstatus⟩ := Db.approved_iff.1 (h.approved o ho hne)
      obtain rfl : r = r' := Option.some.inj (hr.symm.trans hr')
      exact ne_approved_of_isOpen hopen hstatus
    have hreq : db.requests[id]? = some (Db.withTx tx { r with status := .approved }) := by
      rw [← hcredits]
      exact List.getElem?_set_self (List.getElem?_eq_some_iff.1 hr).1
    have hamount : (Db.withTx tx { r with status := .approved }).amount = q.amount := by
      obtain ⟨q', hq', hterms⟩ := hq
      obtain rfl : r = q' := Option.some.inj (hr.symm.trans hq')
      exact congrArg Terms.amount hterms
    have hnew : ∀ o, ∃ new, db.settlementRows o id = x.1.db.settlementRows o id ++ new ∧
        (id ≠ id → new = []) ∧ new.length ≤ 1 ∧
        ∀ t ∈ new, t.amount = Decimal.column (buildPaymentProcessingContext q).amount :=
      fun o => settlementRows_of_persistApproved hrows hsw hmw hd
    refine ⟨fun o ho => ?_, fun o ho t ht => ?_, fun o ho _ => Db.approved_iff.2 ⟨_, hreq, rfl⟩⟩
    · obtain ⟨new, heq, -, hlen, -⟩ := hnew o
      rw [Store.withDb_db, heq, hnone o ho]
      exact hlen
    · obtain ⟨new, heq, -, -, hall⟩ := hnew o
      rw [Store.withDb_db, heq, hnone o ho] at ht
      refine ⟨_, hreq, ?_⟩
      rw [hall t ht, hamount]
      exact Decimal.column_value _

/-! ### Runs -/

/-- **A payment request is settled once.** In every run in which each write of
`submitPayment` finds its request not APPROVED, the two wallets receive the amount of a
request at most once, and an APPROVED request stays APPROVED. -/
theorem settled_once {s₀ : Store} {id : ℕ} (h₀ : s₀.db.SettledOnce id)
    (hrows : s₀.db.RowsHaveWallets) {c₁ c₂ : Config Store Resp Exn}
    {as bs : List (Act Request Env Exn)} (h₁ : c₁ ∈ service.run submitsOpen (service.idle s₀) as)
    (h₂ : c₂ ∈ service.run submitsOpen c₁ bs) :
    c₂.store.db.SettledOnce id ∧ (c₁.store.db.approved id → c₂.store.db.approved id) := by
  refine ⟨?_, fun happ => ?_⟩
  · have hrun : c₂ ∈ service.run submitsOpen (service.idle s₀) (as ++ bs) :=
      (service.mem_run_append _).2 ⟨c₁, h₁, h₂⟩
    have hguard : ∀ s v, submitsOpen s v → faultGuard true s v := by
      intro s v _
      cases v <;> rfl
    obtain ⟨d, hd, -⟩ := money_run (J := fun x => x.1.db.SettledOnce id) hguard
      (fun x i c ε t r hx hJ hpre hg hexec => settledOnce_step hx hJ hpre hg hexec)
      hrun hrows h₀
    exact hd
  · refine service.run_induction submitsOpen h₂ (P := fun c => c.store.db.approved id) happ ?_
    rintro d d' hd (hspawn | ⟨i, ε, cmd, k, h, s, r, -, hg, hexec⟩ | _)
    · exact hd
    · exact approved_of_step hexec hg hd
    · exact hd

/-! ### One top-up, reported twice -/

theorem Db.settledOnce_of_nil {db : Db} (h : db.transactions = []) (id : ℕ) :
    db.SettledOnce id := by
  have hnil : ∀ o, db.settlementRows o id = [] := fun o => by
    simp [Db.settlementRows, Db.rows, h]
  refine ⟨fun o _ => ?_, fun o _ t ht => ?_, fun o _ hne => absurd (hnil o) hne⟩
  · simp [hnil o]
  · simp [hnil o] at ht

/-- One profile that asked to top up its wallet by 1000 francs. -/
def topUpRequested : Store where
  db :=
    { profiles := [⟨false, false, .clear⟩]
      penalties := []
      requests :=
        [{ profileId := 0, token := 0, status := .pending, amount := some 100000,
           createdAt := 0, requestType := some .walletTopUp, contactUnlockAttemptId := none,
           penaltyIds := [], phone := none, operator := none, gateway := none,
           gatewayPaymentRef := none, gatewayTxId := none }]
      wallets := [⟨.system, none, 0⟩, ⟨.mobileMoney, none, 0⟩, ⟨.profile, some 0, 0⟩]
      transactions := []
      payments := []
      payouts := []
      referrals := [] }
  deposits := []
  jobs := []

/-- Operation `i` starts the payment of the request and the gateway answers with a
reference. -/
def initiatedBy (i ref : ℕ) : List (Act Request Env Exn) :=
  [.spawn (.initiatePayment "gateway" 0 "phone" "operator"), .step i .unit,
   .step i (.outcome (.ok ())), .step i .unit, .step i (.issue (.ok (some ref))),
   .step i .unit, .step i .unit]

/-- Operation `i` handles the report that the deposit `ref` is COMPLETED, to the end. -/
def completedBy (i ref : ℕ) : List (Act Request Env Exn) :=
  [.spawn .handlePaymentCallback, .step i (.report (some ref) { status := .completed }),
   .step i .unit, .step i .unit, .step i .unit, .step i .unit]

/-- Operation 2 handles the same report again. -/
def completedAgain : List (Act Request Env Exn) :=
  [.spawn .handlePaymentCallback, .step 2 (.report (some 7) { status := .completed }),
   .step 2 .unit]

theorem settled_once_reported_twice : ∃ c₁ ∈ service.run submitsOpen (service.idle topUpRequested)
        (initiatedBy 0 7 ++ completedBy 1 7),
    ∃ c₂ ∈ service.run submitsOpen c₁ completedAgain,
      c₂.store.db.SettledOnce 0 ∧ (c₁.store.db.approved 0 → c₂.store.db.approved 0) := by
  have hrun : ((service.run submitsOpen (service.idle topUpRequested)
      (initiatedBy 0 7 ++ completedBy 1 7)).bind fun c₁ =>
        service.run submitsOpen c₁ completedAgain).isSome := by
    decide +kernel
  obtain ⟨c₂, hc₂⟩ := Option.isSome_iff_exists.1 hrun
  obtain ⟨c₁, h₁, h₂⟩ := Option.bind_eq_some_iff.1 hc₂
  exact ⟨c₁, h₁, c₂, h₂, settled_once (Db.settledOnce_of_nil rfl 0)
    (Db.rowsHaveWallets_of_nil rfl) h₁ h₂⟩

/-- `submitPayment` reads PENDING, the payment is made and approved, then it writes
SUBMITTED, and the deposit is reported again. -/
def submitRace : List (Act Request Env Exn) :=
  [.spawn (.submitPayment 0), .step 0 .unit] ++ initiatedBy 1 7 ++ completedBy 2 7 ++
    [.step 0 .unit] ++ completedBy 3 7

/-- The money that the wallets of a kind have received for a request. -/
def received (o : WalletOwnerType) (id : ℕ) (c : Config Store Resp Exn) : List ℤ :=
  (c.store.db.settlementRows o id).map WalletTransaction.amount

/-- The stale SUBMITTED write lets one deposit be credited twice. -/
theorem submitted_settled_twice :
    topUpRequested.db.SettledOnce 0 ∧ topUpRequested.db.RowsHaveWallets ∧
    ∃ c ∈ service.run Guard.all (service.idle topUpRequested) submitRace,
      received .system 0 c = [100000, 100000] ∧
      received .mobileMoney 0 c = [100000, 100000] ∧ ¬ c.store.db.SettledOnce 0 := by
  refine ⟨Db.settledOnce_of_nil rfl 0, Db.rowsHaveWallets_of_nil rfl, ?_⟩
  have hrun : (service.run Guard.all (service.idle topUpRequested) submitRace).map
      (fun c => (received .system 0 c, received .mobileMoney 0 c)) =
        some ([100000, 100000], [100000, 100000]) := by
    decide +kernel
  obtain ⟨c, hc, hreceived⟩ := Option.map_eq_some_iff.1 hrun
  obtain ⟨hsystem, hmobile⟩ := Prod.mk.inj hreceived
  refine ⟨c, hc, hsystem, hmobile, fun h => ?_⟩
  have hlen : (received .system 0 c).length ≤ 1 := by
    rw [received, List.length_map]
    exact h.atMostOnce .system (by decide)
  rw [hsystem] at hlen
  exact absurd hlen (by decide)

end Rabotka.Money
