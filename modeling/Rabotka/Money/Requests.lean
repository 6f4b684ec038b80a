import Rabotka.Money.Frame

/-!
# How the steps change a payment request

`Cmd.onRequest c id` is what the step `c` makes of the row `id` of the payment requests, and
`request_of_exec` that every step of the money services does exactly this to every row. What
a step can do to a status or to a stored reference is then read off one definition.
-/

namespace Rabotka.Money

/-- What a step makes of the row `id` of the payment requests. -/
def Cmd.onRequest (c : Cmd) (id : ℕ) (q : PaymentRequest) : PaymentRequest :=
  match c with
  | .claimForProcessing j phone operator =>
    if j = id ∧ q.status = .pending then { q with status := .processing, phone, operator } else q
  | .revertToPending j =>
    if j = id ∧ q.status = .processing then
      { q with status := .pending, phone := none, operator := none }
    else q
  | .storeGatewayRef j gateway ref =>
    if j = id then { q with gateway := some gateway, gatewayPaymentRef := ref } else q
  | .submit j => if j = id then { q with status := .submitted } else q
  | .rejectOpen j tx =>
    if j = id ∧ q.status.isOpen then Db.withTx tx { q with status := .rejected } else q
  | .rejectPolled j ref tx =>
    if j = id ∧ stillPolledBy ref q then Db.withTx tx { q with status := .rejected } else q
  | .revertPolled j ref =>
    if j = id ∧ stillPolledBy ref q then { q with status := .pending } else q
  | .persistApproved j _ _ tx _ _ =>
    if j = id ∧ q.status.isOpen then Db.withTx tx { q with status := .approved } else q
  | _ => q

/-! ### The steps that write no request -/

namespace Db

theorem requests_upsertProfileWallet (db : Db) (p : ℕ) :
    (db.upsertProfileWallet p).1.requests = db.requests := by
  unfold upsertProfileWallet
  split <;> rfl

theorem requests_grantWelcomeCredit (db : Db) (p w : ℕ) (amount : ℚ) :
    (db.grantWelcomeCredit p w amount).requests = db.requests := by
  unfold grantWelcomeCredit
  split <;> rfl

/-- A conditional write to one request, row by row. -/
theorem getElem?_claimRequest (db : Db) (j : ℕ) (p : PaymentRequest → Bool)
    (f : PaymentRequest → PaymentRequest) (id : ℕ) :
    ((db.claimRequest j p f).getD db).requests[id]? =
      (db.requests[id]?).map fun q => if j = id ∧ p q then f q else q := by
  rw [← Table.getElem?_claim, claimRequest]
  cases Table.claim db.requests j p f <;> rfl

/-- Settling a request writes to it what claiming it does. -/
theorem requests_persistApprovedPayment (db : Db) {id r context tx sw mw} :
    ((db.persistApprovedPayment id r context tx sw mw).getD db).requests =
      ((db.claimRequest id (fun r => r.status.isOpen) fun r =>
        withTx tx { r with status := .approved }).getD db).requests := by
  unfold persistApprovedPayment
  cases db.claimRequest id (fun r => r.status.isOpen) fun r =>
    withTx tx { r with status := .approved } <;> rfl

end Db

/-- The step settles a payment request. -/
def Cmd.isSettlement : Cmd → Bool
  | .persistApproved _ _ _ _ _ _ => true
  | _ => false

variable {s t : Store}

/-- The money steps other than a settlement do not touch the requests. -/
theorem requests_of_movesMoney {i : ℕ} {c : Cmd} {ε : Env} {r : Resp c}
    (h : exec s i c ε = some (t, r)) (hc : c.movesMoney = true) (hp : c.isSettlement = false) :
    t.db.requests = s.db.requests := by
  cases c <;> simp only [Cmd.movesMoney, Bool.false_eq_true] at hc
  case persistApproved => cases hp
  all_goals
    simp only [exec, Option.some.injEq] at h
    obtain ⟨rfl, -⟩ := Prod.mk.inj h
  case settlePricedPenalties | credit | markPenaltiesPaid | recordFailure | createUnlockPayment
      | recordRegistrationPayment | recordJobPostingPayment => rfl
  case grantWelcomeCredit => exact Db.requests_grantWelcomeCredit _ _ _ _
  case debit | recordMobileMoneyWithdrawal =>
    exact Store.commit_induction (P := fun db => db.requests = s.db.requests) rfl
      fun _ hdb => (Db.frame_of_debit hdb).1
  case debitAndCredit =>
    refine Store.commit_induction (P := fun db => db.requests = s.db.requests) rfl fun db hdb => ?_
    obtain ⟨d, hd, rfl⟩ := Db.debitAndCredit_eq_ok.1 hdb
    have hreq : d.requests = s.db.requests := (Db.frame_of_debit hd).1
    exact hreq
  case payPenaltyFromWallet =>
    refine Store.commit_induction (P := fun db => db.requests = s.db.requests) rfl fun db hdb => ?_
    obtain ⟨d, hd, e, he, rfl⟩ := Db.payPenaltyFromWallet_eq_ok.1 hdb
    have hreq : e.requests = s.db.requests :=
      (Db.frame_of_debit he).1.trans (Db.frame_of_claimPenalty hd).1
    exact hreq
  case confirmPenaltyPaymentManually =>
    refine Store.commit_induction (P := fun db => db.requests = s.db.requests) rfl fun db hdb => ?_
    exact (Db.frame_of_claimPenalty (Db.confirmPenaltyPaymentManually_eq_ok.1 hdb)).1
  case settlePayout | settleReferral =>
    refine Store.matched_induction (P := fun db => db.requests = s.db.requests) rfl fun db hdb => ?_
    obtain ⟨_, -, rfl⟩ := Option.map_eq_some_iff.1 hdb
    rfl

/-! ### One row -/

/-- The step does not create a request. -/
def Cmd.createsNoRequest : Cmd → Bool
  | .createApprovedRequest _ _ _ => false
  | _ => true

/-- **A step, request by request.** -/
theorem request_of_exec {i : ℕ} {c : Cmd} {ε : Env} {r : Resp c}
    (h : exec s i c ε = some (t, r)) (hc : c.createsNoRequest = true) (id : ℕ) :
    t.db.requests[id]? = (s.db.requests[id]?).map (c.onRequest id) := by
  have hsame : ∀ {l : List PaymentRequest}, l = s.db.requests →
      l[id]? = (s.db.requests[id]?).map fun q => q := fun hl => by simp [hl]
  by_cases hmoney : c.movesMoney = true ∧ c.isSettlement = false
  · obtain ⟨hmoney, hset⟩ := hmoney
    have hid : c.onRequest id = fun q => q := by
      cases c
      case persistApproved => cases hset
      all_goals first | rfl | cases hmoney
    rw [hid]
    exact hsame (requests_of_movesMoney h hmoney hset)
  cases c <;> simp only [exec, Option.some.injEq] at h
  case createApprovedRequest => cases hc
  case getBillingBlockThreshold | getWelcomeCredits | qualifyForSettlement
      | assertOperatorMatchesGateway | gatewayStatus | verifyCallback | payoutStatus
      | commitPayUnlock =>
    split at h <;> cases h
    exact hsame rfl
  case gatewayInitiate =>
    split at h
    · split at h <;> cases h
      exact hsame rfl
    · cases h
      exact hsame rfl
    · cases h
  case takeJob =>
    split at h <;> cases h
    exact hsame rfl
  all_goals try exact absurd ⟨rfl, rfl⟩ hmoney
  case persistApproved =>
    obtain rfl : (s.matched _).1 = t := congrArg Prod.fst h
    rw [Store.matched_fst, Store.withDb_db, Db.requests_persistApprovedPayment]
    exact Db.getElem?_claimRequest _ _ _ _ _
  case claimForProcessing | revertToPending | rejectOpen | rejectPolled | revertPolled =>
    obtain rfl : (s.matched _).1 = t := congrArg Prod.fst h
    rw [Store.matched_fst, Store.withDb_db, Db.getElem?_claimRequest]
    exact Option.map_congr fun q _ => by simp [Cmd.onRequest]
  all_goals obtain ⟨rfl, -⟩ := Prod.mk.inj h
  case findRequestByToken | findRequestByRef | findRequest | countOwed | findPenalty
      | findUnpaid | findProfile | findPayout | findSharedWallet | addJob
      | createSharedWallet => exact hsame rfl
  case upsertProfileWallet => exact hsame (Db.requests_upsertProfileWallet _ _)
  case storeGatewayRef | submit => exact Table.getElem?_update _ _ _ _
  case failPayout =>
    refine hsame (Store.matched_induction (P := fun db => db.requests = s.db.requests) rfl
      fun db hdb => ?_)
    obtain ⟨payouts, -, rfl⟩ := Option.map_eq_some_iff.1 hdb
    rfl

/-- A request that exists goes through the step. -/
theorem request_of_exec_of_some {i : ℕ} {c : Cmd} {ε : Env} {r : Resp c}
    (h : exec s i c ε = some (t, r)) {id : ℕ} {q : PaymentRequest}
    (hq : s.db.requests[id]? = some q) : t.db.requests[id]? = some (c.onRequest id q) := by
  cases hc : c.createsNoRequest with
  | true => rw [request_of_exec h hc, hq, Option.map_some]
  | false =>
    cases c <;> simp only [Cmd.createsNoRequest, Bool.true_eq_false] at hc
    simp only [exec] at h
    split at h <;> cases h
    exact (List.getElem?_append_left (List.getElem?_eq_some_iff.1 hq).1).trans hq

/-- A settlement answers whether it found the request open. -/
theorem persistApproved_answer {i id sw mw : ℕ} {q context tx} {ε : Env}
    {r : Bool} (h : exec s i (.persistApproved id q context tx sw mw) ε = some (t, r)) :
    r = (s.db.requests[id]?).any fun q => q.status.isOpen := by
  simp only [exec, Option.some.injEq, Db.persistApprovedPayment, Db.claimRequest] at h
  cases hc : Table.claim s.db.requests id (fun r => r.status.isOpen) fun r =>
      Db.withTx tx { r with status := .approved } with
  | none =>
    rw [hc] at h
    obtain rfl : false = r := congrArg Prod.snd h
    have hclosed := Table.claim_eq_none.1 hc
    cases hq : s.db.requests[id]? with
    | none => rfl
    | some q => simpa using hclosed q hq
  | some l =>
    rw [hc] at h
    obtain rfl : true = r := congrArg Prod.snd h
    obtain ⟨q, hq, hopen, -⟩ := Table.claim_eq_some.1 hc
    simp [hq, hopen]

/-! ### The gateway's references and the poll queue -/

/-- What a step does to the references and the queue: a gateway call issues a reference, and
a job is added. -/
inductive QueueStep (s t : Store) : Cmd → Env → Prop
  | same {c : Cmd} {ε : Env} : t.deposits = s.deposits → t.jobs = s.jobs → QueueStep s t c ε
  | issue {id : ℕ} {amount : ℚ} {ref : ℕ} : (∀ d ∈ s.deposits, d.ref ≠ ref) →
      t = { s with deposits := ⟨ref, id⟩ :: s.deposits } →
      QueueStep s t (.gatewayInitiate id amount) (.issue (.ok (some ref)))
  | addJob {job : PollJob} {ε : Env} : t = { s with jobs := job :: s.jobs } →
      QueueStep s t (.addJob job) ε

theorem queueStep_of_exec {i : ℕ} {c : Cmd} {ε : Env} {r : Resp c}
    (h : exec s i c ε = some (t, r)) : QueueStep s t c ε := by
  cases c <;> simp only [exec, Option.some.injEq] at h
  case getBillingBlockThreshold | getWelcomeCredits | qualifyForSettlement
      | assertOperatorMatchesGateway | gatewayStatus | verifyCallback | payoutStatus
      | commitPayUnlock | takeJob | createApprovedRequest =>
    split at h <;> cases h
    exact .same rfl rfl
  case gatewayInitiate =>
    split at h
    · split at h <;> cases h
      rename_i hfresh
      exact .issue (by simpa using hfresh) rfl
    · cases h
      exact .same rfl rfl
    · cases h
  case addJob =>
    obtain rfl := congrArg Prod.fst h
    exact .addJob rfl
  case claimForProcessing | revertToPending | rejectOpen | rejectPolled | revertPolled
      | persistApproved | settlePayout | failPayout | settleReferral =>
    obtain rfl : (s.matched _).1 = t := congrArg Prod.fst h
    rw [Store.matched_fst]
    exact .same rfl rfl
  case debit | debitAndCredit | payPenaltyFromWallet | confirmPenaltyPaymentManually
      | recordMobileMoneyWithdrawal =>
    obtain rfl : (s.commit _).1 = t := congrArg Prod.fst h
    rw [Store.commit_fst]
    exact .same rfl rfl
  all_goals
    obtain rfl := congrArg Prod.fst h
    exact .same rfl rfl

/-! ### APPROVED is final -/

/-- The request is APPROVED. -/
def Db.approved (db : Db) (id : ℕ) : Bool :=
  (db.requests[id]?).any fun r => r.status = .approved

theorem Db.approved_iff {db : Db} {id : ℕ} :
    db.approved id = true ↔ ∃ r, db.requests[id]? = some r ∧ r.status = .approved := by
  simp [approved, Option.any_eq_true]

theorem ne_approved_of_isOpen {q : PaymentRequest} (h : q.status.isOpen) :
    q.status ≠ .approved := by
  intro heq
  rw [heq] at h
  cases h

/-- Only a SUBMITTED write can take a request out of APPROVED. -/
theorem onRequest_status_of_approved {c : Cmd} {id : ℕ} {q : PaymentRequest}
    (hq : q.status = .approved) (hc : c ≠ .submit id) :
    (c.onRequest id q).status = .approved := by
  cases c
  case submit j =>
    have hne : j ≠ id := fun h => hc (by rw [h])
    simpa [Cmd.onRequest, hne] using hq
  case storeGatewayRef =>
    simp only [Cmd.onRequest]
    split <;> exact hq
  all_goals simp [Cmd.onRequest, hq, stillPolledBy, PaymentRequestStatus.isOpen]

/-- **APPROVED is final** as long as no SUBMITTED write finds an APPROVED request. -/
theorem approved_of_exec {i : ℕ} {c : Cmd} {ε : Env} {r : Resp c} {id : ℕ}
    (h : exec s i c ε = some (t, r)) (hc : c ≠ .submit id) (ha : s.db.approved id) :
    t.db.approved id := by
  obtain ⟨q, hq, hstatus⟩ := Db.approved_iff.1 ha
  exact Db.approved_iff.2 ⟨_, request_of_exec_of_some h hq, onRequest_status_of_approved hstatus hc⟩

end Rabotka.Money
