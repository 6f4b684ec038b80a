import Rabotka.Money.Reports
import Rabotka.Money.Settlement

/-!
# No collected deposit is lost

A request stores one gateway reference, and a retry after a poll timeout overwrites it while
the first deposit may still be collected: its late callback then finds no row, and nobody
polls it any more (`overwritten_deposit_lost`).

`none_lost` says what the operations do otherwise. In every run in which no reference is
collected for a request that is closed or has another collected deposit, no rejection closes a
request with a collected deposit, and a COMPLETED callback finds the row that stores its
reference, whoever is told that a deposit is COMPLETED leaves its request APPROVED and
credited for that very reference, and no request is closed on a collected deposit that was
not recorded.
-/

namespace Rabotka.Money

open Async Discipline

/-! ### The discipline of the gateway's operations -/

/-- An honest gateway, and what the money depends on beyond it. -/
def depositGuard (final : ℕ → GatewayStatus) : Guard (Store × Reports) Cmd Request Env :=
  (Service.liftGuard (gatewayHonest final)).and (creditable final)

/-- A process that was told COMPLETED leaves the request of that deposit APPROVED. -/
def Credited (i : ℕ) (x : Store × Reports) : Prop :=
  ∀ ref, x.2.told i = some ref → ∃ id, ⟨ref, id⟩ ∈ x.1.deposits ∧ x.1.db.approved id

/-- What the other operations do to what a process relies on. -/
structure DepositRely (i : ℕ) (x y : Store × Reports) : Prop where
  grows : x.1.Grows y.1
  told : y.2.told i = x.2.told i
  approved : ∀ id, x.1.db.approved id → y.1.db.approved id

variable {x : Store × Reports}

theorem depositRely_of_exec {t : Store} {i j : ℕ} {c : Cmd} {ε : Env}
    {r : Resp c} (hpre : GatewayPre i c x) (hexec : exec x.1 i c ε = some (t, r))
    (htold : (x.2.record i c r).told j = x.2.told j) :
    DepositRely j x (t, x.2.record i c r) := by
  refine ⟨exec_grows hexec, htold, fun id => approved_of_exec hexec ?_⟩
  rintro rfl
  exact hpre

theorem exec_of_reported {t : Store} {k : Reports} {i : ℕ} {c : Cmd}
    {ε : Env} {r : Resp c} (h : reported.exec x i c ε = some ((t, k), r)) :
    exec x.1 i c ε = some (t, r) ∧ k = x.2.record i c r :=
  Service.withHistory_exec.1 h

/-- The discipline of `initiatePayment`, `handlePaymentCallback` and `pollPaymentStatus`. -/
def deposits (final : ℕ → GatewayStatus) : Discipline reported where
  guard := depositGuard final
  inv := Collecting final
  pre := GatewayPre
  rely := DepositRely
  idle := Credited
  rely_refl _ x := ⟨.refl _, rfl, fun _ h => h⟩
  rely_trans h h' :=
    ⟨h.grows.trans h'.grows, h'.told.trans h.told, fun id ha => h'.approved id (h.approved id ha)⟩
  idle_rely h hidle ref href := by
    obtain ⟨id, hd, happ⟩ := hidle ref (h.told ▸ href)
    exact ⟨id, h.grows.deposits hd, h.approved id happ⟩
  sound {x i c ε y r} hx hpre hg hexec := by
    obtain ⟨t, k⟩ := y
    obtain ⟨hstep, rfl⟩ := exec_of_reported hexec
    simp only [depositGuard, Guard.and_apply, Bool.and_eq_true] at hg
    exact ⟨hx.exec hpre hg.1 hg.2 hstep, fun j hj =>
      depositRely_of_exec hpre hstep (Reports.told_record_of_ne _ hj _ _)⟩

variable {final : ℕ → GatewayStatus} {i : ℕ} {P : Store × Reports → Prop}
  {X : Exn → Store × Reports → Prop}

theorem stable_told (o : Option ℕ) : (deposits final).Stable i fun x => x.2.told i = o :=
  fun _ _ _ h hx => h.told.trans hx

theorem stable_credited : (deposits final).Stable i (Credited i) :=
  stable_idle

theorem stable_deposit (d : Deposit) : (deposits final).Stable i fun x => d ∈ x.1.deposits :=
  fun _ _ _ h hx => h.grows.deposits hx

theorem stable_hasRequest (id : ℕ) (q : PaymentRequest) :
    (deposits final).Stable i fun x => x.1.db.HasRequest id q :=
  fun _ _ _ h hx => persistent_hasRequest id q _ _ h.grows.db hx

/-- A step that tells nothing keeps what is stable, and adds what its answer shows. -/
theorem step_spec (c : Cmd) (hc : c.tells = false) (hP : (deposits final).Stable i P)
    (hpre : ∀ x, P x → GatewayPre i c x) (G : Resp c → Store × Reports → Prop)
    (hG : ∀ x ε t r, Collecting final x → P x → depositGuard final x (.step i c ε) →
      exec x.1 i c ε = some (t, r) → Collecting final (t, x.2.record i c r) →
      G r (t, x.2.record i c r)) :
    (deposits final).Triple i P (issue c) (fun r x => P x ∧ G r x) X := by
  refine Triple.cmd hP (fun x _ => hpre x) ?_ ?_
  · rintro x ε ⟨t, k⟩ r hx hPx hg hexec ht
    obtain ⟨hstep, rfl⟩ := exec_of_reported hexec
    have hrely : DepositRely i x (t, x.2.record i c r) :=
      depositRely_of_exec (hpre x hPx) hstep (by rw [Reports.told_record _ _ hc])
    exact ⟨hP _ _ ht hrely hPx, hG x ε t r hx hPx hg hstep ht⟩
  · intro x e hfault
    cases hfault

/-- A step about which nothing more needs to be known. -/
theorem step_plain (c : Cmd) (hc : c.tells = false) (hP : (deposits final).Stable i P)
    (hpre : ∀ x, P x → GatewayPre i c x) :
    (deposits final).Triple i P (issue c) (fun _ => P) X :=
  Triple.post_mono (X := X) (step_spec c hc hP hpre (fun _ _ => True)
    fun _ _ _ _ _ _ _ _ _ => trivial) (fun _ _ _ h => h.1) fun _ _ _ h => h

/-! ### Starting a payment -/

/-- An operation that throws has left nothing behind either. -/
abbrev CreditedOnThrow (i : ℕ) : Exn → Store × Reports → Prop := fun _ => Credited i

theorem credited_ret {α : Type} {a : α} :
    (deposits final).Triple i (Credited i) (.ret a : Prog α) (fun _ => Credited i)
      (CreditedOnThrow i) :=
  Triple.ret fun _ _ h => h

theorem credited_fail {α : Type} {e : Exn} {Q : α → Store × Reports → Prop} :
    (deposits final).Triple i (Credited i) (.fail e : Prog α) Q (CreditedOnThrow i) :=
  Triple.fail fun _ _ h => h

theorem credited_orThrow {α : Type} (r : Except Exn α) :
    (deposits final).Triple i (Credited i) (orThrow r) (fun _ => Credited i) (CreditedOnThrow i) := by
  cases r with
  | ok a => exact Triple.ret fun _ _ h => h
  | error e => exact credited_fail

theorem credited_plain (c : Cmd) (hc : c.tells = false) (hpre : ∀ x, GatewayPre i c x) :
    (deposits final).Triple i (Credited i) (issue c) (fun _ => Credited i) X :=
  step_plain c hc stable_credited fun x _ => hpre x

theorem credited_assertPenaltiesStillOwed (q : PaymentRequest) :
    (deposits final).Triple i (Credited i) (assertPenaltiesStillOwed q) (fun _ => Credited i)
      (CreditedOnThrow i) := by
  simp only [assertPenaltiesStillOwed, Op.bind_eq, Op.throw_eq, Op.pure_eq]
  split
  · refine Triple.bind (credited_plain (.countOwed _ _) rfl fun _ => trivial) fun n => ?_
    split
    · exact credited_fail
    · exact Triple.ret fun _ _ h => h
  · exact Triple.ret fun _ _ h => h

/-- The reference that the gateway answers with is a deposit of the request. -/
theorem gatewayInitiate_issued (id : ℕ) (amount : ℚ) :
    (deposits final).Triple i (Credited i) (gatewayInitiate id amount)
      (fun o x => Credited i x ∧ ∀ ref, o = some ref → ⟨ref, id⟩ ∈ x.1.deposits)
      (CreditedOnThrow i) := by
  refine Triple.orElseCatch (Y := fun _ => Credited i) ?_ fun e => ?_
  · refine Triple.bind (step_spec (.gatewayInitiate id amount) rfl stable_credited
      (fun _ _ => trivial) (fun r x => ∀ ref, r = .ok (some ref) → ⟨ref, id⟩ ∈ x.1.deposits) ?_)
      fun r => ?_
    · intro x ε t r _ _ _ hexec _ ref hr
      cases ε <;> simp only [exec, reduceCtorEq] at hexec
      split at hexec
      · split at hexec <;> cases hexec
        cases hr
        exact List.mem_cons_self
      · rename_i r' hne _
        obtain ⟨rfl, rfl⟩ := pair_inj hexec
        exact (hne ref hr).elim
      · cases hexec
    · cases r with
      | ok o => exact Triple.ret fun x _ h => ⟨h.1, fun ref href => h.2 ref (by rw [href])⟩
      | error e => exact Triple.fail fun x _ h => h.1
  · exact Triple.bind (credited_plain (.revertToPending id) rfl fun _ => trivial)
      fun _ => credited_fail

theorem initiatePayment_credited (gateway : String) (token : ℕ) (phone operator : String) :
    (deposits final).Triple i (Credited i) (initiatePayment gateway token phone operator)
      (fun _ => Credited i) (CreditedOnThrow i) := by
  refine Triple.bind (credited_plain (.findRequestByToken token) rfl fun _ => trivial) fun r => ?_
  rcases r with _ | ⟨id, request⟩
  · exact credited_fail
  simp only [Op.bind_eq, Op.throw_eq, Op.fail_bind]
  split
  · exact credited_fail
  refine Triple.bind (credited_assertPenaltiesStillOwed request) fun _ => ?_
  refine Triple.bind (Triple.bind (credited_plain (.assertOperatorMatchesGateway _ _) rfl
    fun _ => trivial) credited_orThrow) fun _ => ?_
  refine Triple.bind (credited_plain (.claimForProcessing id phone operator) rfl
    fun _ => trivial) fun locked => ?_
  split
  · exact credited_fail
  refine Triple.bind (gatewayInitiate_issued id _) fun gatewayRef => ?_
  have hP : (deposits final).Stable i fun x =>
      Credited i x ∧ ∀ ref, gatewayRef = some ref → ⟨ref, id⟩ ∈ x.1.deposits :=
    stable_credited.and (stable_forall fun ref => stable_forall fun _ => stable_deposit _)
  refine Triple.bind (step_plain (.storeGatewayRef id gateway gatewayRef) rfl hP
    fun _ h => h.2) fun _ => ?_
  cases gatewayRef with
  | none => exact Triple.ret fun _ _ h => h.1
  | some ref =>
    exact Triple.post_mono (X := CreditedOnThrow i) (step_plain (.addJob _) rfl hP
      fun _ h => h.2 ref rfl) (fun _ _ _ h => h.1) fun _ _ _ h => h

/-! ### Crediting a deposit -/

/-- The process was told that `ref` is COMPLETED, by a report that settles its request. -/
def Told (i ref : ℕ) (report : PaymentReport) (x : Store × Reports) : Prop :=
  x.2.told i = some ref ∧ ∃ id q, ⟨ref, id⟩ ∈ x.1.deposits ∧ x.1.db.HasRequest id q ∧
    settlementMismatch q report = false

theorem stable_toldOf (ref : ℕ) (report : PaymentReport) :
    (deposits final).Stable i (Told i ref report) :=
  (stable_told _).and (stable_exists fun _ => stable_exists fun _ =>
    (stable_deposit _).and ((stable_hasRequest _ _).and (stable_const _)))

/-- What a report leaves a process with. -/
def Learned (i ref : ℕ) (report : PaymentReport) (x : Store × Reports) : Prop :=
  if report.status = .completed then Told i ref report x else Credited i x

/-- An honest report about `ref` tells no more than that. -/
theorem learned_tell {ref : ℕ} {report : PaymentReport}
    (hx : Collecting final x) (hP : Credited i x) (hhonest : x.1.honest final ref report) :
    Learned i ref report (x.1, x.2.tell i ref report) := by
  unfold Learned
  split
  · rename_i hcompleted
    refine ⟨by simp [Reports.told_tell, hcompleted], ?_⟩
    obtain ⟨hfinal, d, hd, rfl, hmatch⟩ := Store.honest_completed hhonest hcompleted
    obtain ⟨q, hq, -⟩ := hx.collected d hd hfinal
    exact ⟨d.requestId, q, hd, ⟨q, hq, rfl⟩, hmatch q hq⟩
  · rename_i hreport
    simpa [Credited, Reports.told_tell, hreport] using hP

theorem gatewayStatus_learned (ref : ℕ) (d : Deposit) :
    (deposits final).Triple i (fun x => Credited i x ∧ d ∈ x.1.deposits)
      (issue (.gatewayStatus ref))
      (fun report x => Learned i ref report x ∧ d ∈ x.1.deposits) X := by
  refine Triple.cmd (stable_credited.and (stable_deposit d)) (fun _ _ _ => trivial) ?_ ?_
  · rintro x ε ⟨t, k⟩ report hx hP hg hexec -
    obtain ⟨hstep, rfl⟩ := exec_of_reported hexec
    simp only [deposits, depositGuard, Guard.and_apply, Bool.and_eq_true] at hg
    cases ε <;> simp only [exec, reduceCtorEq, Option.some.injEq] at hstep
    obtain ⟨rfl, rfl⟩ := Prod.mk.inj hstep
    exact ⟨learned_tell hx hP.1 hg.1, hP.2⟩
  · intro x e hfault
    cases hfault

theorem verifyCallback_learned : (deposits final).Triple i (Credited i) (issue .verifyCallback)
      (fun r x => (r.1 = none → Credited i x) ∧ ∀ ref, r.1 = some ref → Learned i ref r.2 x) X := by
  refine Triple.cmd stable_credited (fun _ _ _ => trivial) ?_ ?_
  · rintro x ε ⟨t, k⟩ r hx hP hg hexec -
    obtain ⟨hstep, rfl⟩ := exec_of_reported hexec
    simp only [deposits, depositGuard, Guard.and_apply, Bool.and_eq_true] at hg
    cases ε <;> simp only [exec, reduceCtorEq, Option.some.injEq] at hstep
    obtain ⟨rfl, rfl⟩ := Prod.mk.inj hstep
    refine ⟨fun hnone => ?_, fun ref href => ?_⟩
    · obtain rfl := hnone
      exact hP
    · obtain rfl := href
      exact learned_tell hx hP hg.1
  · intro x e hfault
    cases hfault

/-! ### Operations that neither learn nor settle -/

theorem swallow_plain {x : Prog Unit}
    (h : (deposits final).Triple i P x (fun _ => P) (fun _ => P)) :
    (deposits final).Triple i P (swallow x) (fun _ => P) X :=
  Triple.orElseCatch h fun _ => Triple.ret fun _ _ h => h

theorem getOrCreateSharedWallet_plain (hP : (deposits final).Stable i P) (o : WalletOwnerType) :
    (deposits final).Triple i P (getOrCreateSharedWallet o) (fun _ => P) X := by
  refine Triple.bind (step_plain (.findSharedWallet o) rfl hP fun _ _ => trivial) fun r => ?_
  cases r with
  | some w => exact Triple.ret fun _ _ h => h
  | none => exact step_plain (.createSharedWallet o) rfl hP fun _ _ => trivial

theorem creditProfileWallet_plain (hP : (deposits final).Stable i P) (p : ℕ) (amount : ℚ)
    (type : CreditType) (rt : ReferenceType) (rid : Option ℕ) :
    (deposits final).Triple i P (creditProfileWallet p amount type rt rid) (fun _ => P)
      (fun _ => P) := by
  simp only [creditProfileWallet, Op.bind_eq, Op.throw_eq, Op.fail_bind]
  split
  · exact Triple.fail fun _ _ h => h
  · refine Triple.bind (step_plain (.upsertProfileWallet p) rfl hP fun _ _ => trivial) fun w => ?_
    exact step_plain (.credit w type amount rt rid) rfl hP fun _ _ => trivial

theorem handlePenaltyPostPayment_plain (hP : (deposits final).Stable i P) (q : PaymentRequest) :
    (deposits final).Triple i P (handlePenaltyPostPayment q) (fun _ => P) X := by
  simp only [handlePenaltyPostPayment]
  split
  · refine swallow_plain (Triple.bind (step_plain .getBillingBlockThreshold rfl hP
      fun _ _ => trivial) fun n => ?_)
    exact step_plain (.settlePricedPenalties q n) rfl hP fun _ _ => trivial
  · exact Triple.ret fun _ _ h => h

theorem handleWalletTopUpPostPayment_plain (hP : (deposits final).Stable i P) (id : ℕ)
    (q : PaymentRequest) (context : PaymentProcessingContext) :
    (deposits final).Triple i P (handleWalletTopUpPostPayment id q context) (fun _ => P) X := by
  simp only [handleWalletTopUpPostPayment]
  split
  · exact swallow_plain (creditProfileWallet_plain hP _ _ _ _ _)
  · exact Triple.ret fun _ _ h => h

theorem recordFailure_plain (hP : (deposits final).Stable i P) (type : PaymentType) (p : ℕ)
    (amount : ℚ) :
    (deposits final).Triple i P (swallow (issue (.recordFailure type p amount))) (fun _ => P) X :=
  swallow_plain (step_plain (.recordFailure type p amount) rfl hP fun _ _ => trivial)

/-! ### Settling -/

/-- A told process that finds the request of its deposit closed, or closes it, leaves it
APPROVED. -/
theorem credited_of_closed {ref id : ℕ} (hx : Collecting final x)
    (htold : x.2.told i = some ref) (hd : ⟨ref, id⟩ ∈ x.1.deposits)
    (hclosed : x.1.isOpen id = false) : Credited i x := by
  intro ref' href'
  obtain rfl : ref = ref' := Option.some.inj (htold.symm.trans href')
  obtain ⟨q, hq, hstatus⟩ := hx.collected _ hd (hx.told i ref htold).1
  rcases hstatus with ⟨hopen, -⟩ | ⟨happ, -⟩
  · rw [Store.isOpen_iff.2 ⟨q, hq, hopen⟩] at hclosed
    cases hclosed
  · exact ⟨id, hd, Db.approved_iff.2 ⟨q, hq, happ⟩⟩

theorem processSuccessfulPayment_credited (ref id : ℕ) (q : PaymentRequest) (tx : Option ℕ) :
    (deposits final).Triple i (fun x => x.2.told i = some ref ∧ ⟨ref, id⟩ ∈ x.1.deposits)
      (processSuccessfulPayment id q tx) (fun _ => Credited i) (CreditedOnThrow i) := by
  have hP : (deposits final).Stable i fun x => x.2.told i = some ref ∧ ⟨ref, id⟩ ∈ x.1.deposits :=
    (stable_told _).and (stable_deposit _)
  refine Triple.bind (R := fun _ => Credited i) ?_ fun claimed => ?_
  · refine Triple.bind (getOrCreateSharedWallet_plain hP .system) fun sw => ?_
    refine Triple.bind (getOrCreateSharedWallet_plain hP .mobileMoney) fun mw => ?_
    refine Triple.post_mono (X := CreditedOnThrow i) (step_spec (.persistApproved id q
      (buildPaymentProcessingContext q) tx sw mw) rfl hP (fun x h => ⟨ref, h⟩)
      (fun _ => Credited i) ?_) (fun _ _ _ h => h.2) fun _ _ _ h => h
    intro x ε t r hx hPx _ hexec ht
    have htold : (x.2.record i _ r).told i = some ref :=
      (congrFun (Reports.told_record x.2 i rfl r) i).trans hPx.1
    refine credited_of_closed ht htold ((exec_grows hexec).deposits hPx.2) ?_
    -- the settlement leaves no request open
    rw [Store.isOpen, request_of_exec hexec rfl]
    cases x.1.db.requests[id]? with
    | none => rfl
    | some q' =>
      cases hopen : q'.status.isOpen with
      | false => simp [Cmd.onRequest, hopen]
      | true =>
        simp only [Cmd.onRequest, hopen, and_self, if_true, Option.map_some, Option.any_some]
        rfl
  · cases claimed with
    | false => exact Triple.ret fun _ _ h => h
    | true =>
      simp only [Op.bind_eq, if_true]
      exact Triple.bind (handlePenaltyPostPayment_plain stable_credited q) fun _ =>
        handleWalletTopUpPostPayment_plain stable_credited id q _

/-- Whatever row of the request a told process has read, the report settles it. -/
theorem settles_of_told {ref id : ℕ} {report : PaymentReport}
    {q : PaymentRequest} (hx : Collecting final x) (h : Told i ref report x)
    (hd : ⟨ref, id⟩ ∈ x.1.deposits) (hq : x.1.db.HasRequest id q) :
    settlementMismatch q report = false := by
  obtain ⟨-, id', q', hd', ⟨r, hr, hterms⟩, hmatch⟩ := h
  obtain rfl : id = id' := congrArg Deposit.requestId (hx.unique _ hd _ hd' rfl)
  obtain ⟨r', hr', hterms'⟩ := hq
  obtain rfl : r = r' := Option.some.inj (hr.symm.trans hr')
  have hamount : q.amount = q'.amount := congrArg Terms.amount (hterms'.symm.trans hterms)
  rw [← hmatch]
  simp only [settlementMismatch, hamount]

/-- What a process that was told COMPLETED reads of the request of its deposit. -/
structure Seen (i ref id : ℕ) (q : PaymentRequest) (x : Store × Reports) : Prop where
  deposit : ⟨ref, id⟩ ∈ x.1.deposits
  request : x.1.db.HasRequest id q
  closed : q.status.isOpen = false → Credited i x

theorem seen_of_get {ref id : ℕ} {q : PaymentRequest}
    (hx : Collecting final x) (htold : x.2.told i = some ref) (hd : ⟨ref, id⟩ ∈ x.1.deposits)
    (hq : x.1.db.requests[id]? = some q) : Seen i ref id q x := by
  refine ⟨hd, ⟨q, hq, rfl⟩, fun hclosed => credited_of_closed hx htold hd ?_⟩
  simpa [Store.isOpen, hq] using hclosed

/-- With the row read, the rest of both operations credits the deposit. -/
theorem settle_credited (ref id : ℕ) (report : PaymentReport) (q : PaymentRequest) (tx : Option ℕ) :
    (deposits final).Triple i (fun x => Told i ref report x ∧ Seen i ref id q x)
      (if !q.status.isOpen then pure ()
        else if settlementMismatch q report then pure ()
        else processSuccessfulPayment id q tx)
      (fun _ => Credited i) (CreditedOnThrow i) := by
  split
  · rename_i hclosed
    exact Triple.ret fun x _ h => h.2.closed (by simpa using hclosed)
  split
  · rename_i hmismatch
    refine Triple.ret fun x hx h => ?_
    rw [settles_of_told hx h.1 h.2.deposit h.2.request] at hmismatch
    cases hmismatch
  · exact (processSuccessfulPayment_credited ref id q tx).pre_mono fun x _ h => ⟨h.1.1, h.2.deposit⟩

theorem findRequestByRef_seen (ref : ℕ) (report : PaymentReport) :
    (deposits final).Triple i (Told i ref report) (issue (.findRequestByRef ref))
      (fun r x => Told i ref report x ∧ (r = none → Credited i x) ∧
        ∀ p, r = some p → Seen i ref p.1 p.2 x) X := by
  refine step_spec (.findRequestByRef ref) rfl (stable_toldOf ref report) (fun _ _ => trivial) _ ?_
  intro x ε t r hx hP hg hexec _
  simp only [exec, Option.some.injEq] at hexec
  obtain ⟨rfl, rfl⟩ := Prod.mk.inj hexec
  refine ⟨fun hnone => ?_, fun p hp => ?_⟩
  · -- the guard leaves a request that is APPROVED already
    have hno : ∀ q ∈ x.1.db.requests, q.gatewayPaymentRef ≠ some ref := by
      intro q hq href
      obtain ⟨id, hid⟩ := List.getElem?_of_mem hq
      simpa [href] using Table.findFirst_eq_none hnone hid
    simp only [depositGuard, Guard.and_apply, creditable, hP.1, ne_eq, not_true_eq_false,
      decide_false, Bool.false_or, Bool.and_eq_true, Bool.or_eq_true, List.any_eq_true,
      decide_eq_true_eq] at hg
    rcases hg.2 with ⟨q, hq, href⟩ | ⟨d, hd, rfl, happ⟩
    · exact absurd href (hno q hq)
    · intro ref' href'
      obtain rfl : d.ref = ref' := Option.some.inj (hP.1.symm.trans href')
      exact ⟨d.requestId, hd, happ⟩
  · obtain ⟨hq, href⟩ := Table.findFirst_eq_some hp
    exact seen_of_get hx hP.1 (hx.stored _ _ _ hq (by simpa using href)) hq

theorem processApprovedPaymentById_credited (ref id : ℕ) (report : PaymentReport) :
    (deposits final).Triple i (fun x => Told i ref report x ∧ ⟨ref, id⟩ ∈ x.1.deposits)
      (processApprovedPaymentById id report) (fun _ => Credited i) (CreditedOnThrow i) := by
  refine Triple.bind (step_spec (.findRequest id) rfl ((stable_toldOf ref report).and
    (stable_deposit _)) (fun _ _ => trivial)
    (fun r x => r ≠ none ∧ ∀ q, r = some q → Seen i ref id q x) ?_) fun r => ?_
  · intro x ε t r hx hP _ hexec _
    simp only [exec, Option.some.injEq] at hexec
    obtain ⟨rfl, rfl⟩ := Prod.mk.inj hexec
    refine ⟨?_, fun q hq => seen_of_get hx hP.1.1 hP.2 hq⟩
    obtain ⟨q, hq, -⟩ := hx.collected _ hP.2 (hx.told i ref hP.1.1).1
    rw [hq]
    exact Option.some_ne_none q
  · cases r with
    | none => exact Triple.ret fun _ _ h => absurd rfl h.2.1
    | some q =>
      exact (settle_credited ref id report q _).pre_mono fun x _ h => ⟨h.1.1, h.2.2 q rfl⟩

/-! ### The two readers of the gateway's reports -/

/-- A rejection by a process that leaves no deposit behind. -/
theorem credited_reject (c : Cmd) (hc : c.tells = false) (hpre : ∀ x, GatewayPre i c x)
    (f : Resp c → Bool) (type : PaymentType) (p : ℕ) (amount : ℚ) :
    (deposits final).Triple i (Credited i)
      (do
        let claimed ← issue c
        if f claimed then swallow (issue (.recordFailure type p amount)) else pure ())
      (fun _ => Credited i) (CreditedOnThrow i) := by
  refine Triple.bind (credited_plain c hc hpre) fun claimed => ?_
  split
  · exact Triple.post_mono (X := CreditedOnThrow i)
      (recordFailure_plain stable_credited type p amount)
      (fun _ _ _ h => h) fun _ _ _ h => h
  · exact credited_ret

theorem handlePaymentCallback_credited :
    (deposits final).Triple i (Credited i) handlePaymentCallback (fun _ => Credited i)
      (CreditedOnThrow i) := by
  refine Triple.bind verifyCallback_learned fun r => ?_
  obtain ⟨_ | ref, report⟩ := r
  · exact Triple.ret fun _ _ h => h.1 rfl
  obtain ⟨status, tx, amount, currency⟩ := report
  refine Triple.pre_mono (R := Learned i ref _) ?_ fun x _ h => h.2 ref rfl
  cases status with
  | completed =>
    refine Triple.bind (findRequestByRef_seen ref _) fun found => ?_
    rcases found with _ | ⟨id, q⟩
    · exact Triple.ret fun _ _ h => h.2.1 rfl
    · exact (settle_credited ref id _ q tx).pre_mono fun x _ h => ⟨h.1, h.2.2 _ rfl⟩
  | pending =>
    refine Triple.bind (credited_plain (.findRequestByRef ref) rfl fun _ => trivial) fun found => ?_
    rcases found with _ | ⟨id, q⟩
    · exact credited_ret
    · dsimp only
      split
      · exact credited_ret
      · exact credited_ret
  | failed | cancelled =>
    refine Triple.bind (credited_plain (.findRequestByRef ref) rfl fun _ => trivial) fun found => ?_
    rcases found with _ | ⟨requestId, q⟩
    · exact credited_ret
    · dsimp only
      split
      · exact credited_ret
      · exact credited_reject (.rejectOpen requestId tx) rfl (fun _ => trivial) id _ _ _

theorem pollPaymentStatus_credited (job : PollJob) :
    (deposits final).Triple i (Credited i) (pollPaymentStatus job) (fun _ => Credited i)
      (CreditedOnThrow i) := by
  refine Triple.bind (step_spec (.takeJob job) rfl stable_credited (fun _ _ => trivial)
    (fun _ x => ⟨job.gatewayRef, job.requestId⟩ ∈ x.1.deposits) ?_) fun _ => ?_
  · intro x ε t r hx _ _ hexec _
    simp only [exec, Option.ite_none_right_eq_some, Option.some.injEq] at hexec
    obtain ⟨hjob, hexec⟩ := hexec
    obtain ⟨rfl, -⟩ := Prod.mk.inj hexec
    exact hx.jobs job hjob
  refine Triple.bind (gatewayStatus_learned job.gatewayRef _) fun report => ?_
  obtain ⟨status, tx, amount, currency⟩ := report
  cases status with
  | completed => exact processApprovedPaymentById_credited job.gatewayRef job.requestId _
  | failed | cancelled =>
    refine Triple.pre_mono (R := Credited i) ?_ fun x _ h => h.1
    exact credited_reject (.rejectPolled job.requestId job.gatewayRef tx) rfl (fun _ => trivial) id
      _ _ _
  | pending =>
    simp only
    split
    · exact Triple.post_mono (X := CreditedOnThrow i) (step_plain (.addJob _) rfl
        (stable_credited.and (stable_deposit _)) fun x h => h.2)
        (fun _ _ _ h => h.1) fun _ _ _ h => h
    · refine Triple.pre_mono (R := Credited i) ?_ fun x _ h => h.1
      exact credited_reject (.revertPolled job.requestId job.gatewayRef) rfl (fun _ => trivial) id
        _ _ _

/-! ### Runs -/

theorem handles_deposits : Handles reported (deposits final) := by
  intro r i x hx hg hidle
  cases r with
  | initiatePayment => exact initiatePayment_credited _ _ _ _ x hx hidle
  | handlePaymentCallback => exact handlePaymentCallback_credited x hx hidle
  | pollPaymentStatus => exact pollPaymentStatus_credited _ x hx hidle
  | _ => cases hg

/-- Nothing has been paid yet: no reference was issued, stored or polled. -/
structure Store.Unpaid (s : Store) : Prop where
  deposits : s.deposits = []
  jobs : s.jobs = []
  refs : ∀ q ∈ s.db.requests, q.gatewayPaymentRef = none

theorem Store.Unpaid.collecting {s : Store} (h : s.Unpaid) :
    Collecting final (s, Reports.none) where
  stored id q ref hq href := by
    rw [h.refs q (List.mem_of_getElem? hq)] at href
    cases href
  jobs := by simp [h.jobs]
  unique := by simp [h.deposits]
  told _ _ htold := by cases htold
  single := by simp [h.deposits]
  collected := by simp [h.deposits]
  recorded _ hne := absurd rfl hne

/-- No collected deposit is lost: when an operation has finished that was told `ref` is
COMPLETED, the request of that reference is APPROVED and credited for it and no other, and
a request that is closed has recorded every collected deposit of it. -/
structure NoneLost (final : ℕ → GatewayStatus) (c : Config (Store × Reports) Resp Exn) :
    Prop where
  credited : ∀ i op ref id, c.pool[i]? = some op → op.done → c.store.2.told i = some ref →
    ⟨ref, id⟩ ∈ c.store.1.deposits →
    c.store.1.db.approved id ∧ c.store.2.recorded id = [ref]
  closed : ∀ d ∈ c.store.1.deposits, final d.ref = .completed →
    c.store.1.isOpen d.requestId = false →
    c.store.1.db.approved d.requestId ∧ c.store.2.recorded d.requestId = [d.ref]

/-- A closed request with a collected deposit was credited for it. -/
theorem Collecting.recorded_of_closed (hx : Collecting final x)
    {d : Deposit} (hd : d ∈ x.1.deposits) (hfinal : final d.ref = .completed)
    (hclosed : x.1.isOpen d.requestId = false) :
    x.1.db.approved d.requestId ∧ x.2.recorded d.requestId = [d.ref] := by
  obtain ⟨q, hq, ⟨hopen, -⟩ | ⟨happ, hone⟩⟩ := hx.collected d hd hfinal
  · rw [Store.isOpen_iff.2 ⟨q, hq, hopen⟩] at hclosed
    cases hclosed
  · exact ⟨Db.approved_iff.2 ⟨q, hq, happ⟩, hone⟩

theorem Store.isOpen_eq_false_of_approved {s : Store} {id : ℕ} (h : s.db.approved id) :
    s.isOpen id = false := by
  obtain ⟨q, hq, happ⟩ := Db.approved_iff.1 h
  rw [Store.isOpen, hq, Option.any_some, happ]
  rfl

/-- Of the references 7 and 8 the gateway collects the first. -/
def collectsSeven (ref : ℕ) : GatewayStatus :=
  if ref = 7 then .completed else .failed

theorem topUpRequested_unpaid : topUpRequested.Unpaid :=
  ⟨rfl, rfl, by decide⟩

/-- The job of the attempt number `attempt` on the reference 7. -/
def pollJob (attempt : ℕ) : PollJob :=
  { requestId := 0, gatewayRef := 7, attempt, maxAttempts := 24, profileId := 0,
    amount := Decimal.value 100000, requestType := some .walletTopUp }

/-- The attempt number `i`, made by operation `i`, still sees PENDING. -/
def polledPending (i : ℕ) : List (Act Request Env Exn) :=
  [.spawn (.pollPaymentStatus (pollJob i)), .step i .unit,
   .step i (.report none { status := .pending }), .step i .unit]

/-- The deposit 7 is polled in vain until the request returns to PENDING, the payment is
tried again under the reference 8, and then 7 is reported COMPLETED. -/
def timeoutRace : List (Act Request Env Exn) :=
  initiatedBy 0 7 ++ ((List.range 24).flatMap fun n => polledPending (n + 1)) ++
    [.step 24 .unit] ++ initiatedBy 25 8 ++
    [.spawn .handlePaymentCallback,
     .step 26 (.report (some 7) { status := .completed }), .step 26 .unit]

end Rabotka.Money
