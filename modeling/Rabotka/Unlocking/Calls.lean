import Rabotka.Unlocking.Debit

/-!
# The calls after the debit

The calls that a payment makes once its debit has gone through, as lists that are computed from the
database (`recordCalls`, `settleCalls`): the payment throws when one of them does and at no other
time (`makes_settle`, `route_recordPayment`). None of this code takes a payment request back
(`keeps_settle`), nor does the refund, which never hides the error it answers (`triple_refund`).
-/

namespace Rabotka.Unlocking

open Faulty List
open Hiring (ContactUnlockAttempt)

variable {s t : Db} {amount profileId attemptId triggerId : ℕ} {draw : Draw}
  {attempt : ContactUnlockAttempt} {isEmployer isWorker useCredit : Bool} {fails : Site → Bool}

/-! ### The applications that follow -/

/-- The calls by which applications are accepted after an unlock. -/
def acceptCalls (db : Db) (applicationIds : List ℕ) : List Site :=
  if applicationIds = [] then []
  else
    .findApplications :: .acceptApplications :: (db.jobsOf applicationIds).map .closeFilled

theorem route_accept (s : Db) (applicationIds : List ℕ) :
    ∃ t, Route fails (markApplicationAcceptedAfterUnlock applicationIds) s
      (acceptCalls s applicationIds) () t := by
  unfold markApplicationAcceptedAfterUnlock acceptCalls
  split_ifs
  · exact ⟨s, .pure _ _⟩
  · have hloop : ∀ (jobOfferIds : List ℕ) (t : Db), Route fails (jobOfferIds.forM fun jobOfferId =>
        write (.closeFilled jobOfferId) fun db => db.closeFilled jobOfferId) t
        (jobOfferIds.map .closeFilled) ()
        (jobOfferIds.foldl (fun db jobOfferId => db.closeFilled jobOfferId) t) := by
      intro jobOfferIds t
      rw [map_eq_flatMap]
      exact .forM (fun jobOfferId db => .call _ _ db) jobOfferIds t
    exact ⟨_, .read_bind (a := s.jobsOf applicationIds) rfl (.bind (.call _ _ _) (hloop _ _))⟩

/-- The contact ledger throws nothing. -/
theorem route_records (s : Db) (attemptIds : List ℕ) :
    ∃ t, Route fails (recordUnlockedContactsByIds attemptIds) s
      (if attemptIds = [] then [] else [.findUnlocked]) () t := by
  unfold recordUnlockedContactsByIds
  split_ifs
  · exact ⟨s, .pure _ _⟩
  · have hloop : ∀ (rows : List (ℕ × ContactUnlockAttempt)) (t : Db), ∃ u, Route fails
        (rows.forM fun row => recordUnlockedContact row.1 row.2) t [] () u := by
      intro rows t
      have hrows := @Route.forM _ _ _ fails (fun row : ℕ × ContactUnlockAttempt =>
        recordUnlockedContact row.1 row.2) (fun _ => []) _ (fun row db => .swallow _ db) rows t
      rw [flatMap_eq_nil_iff.2 fun _ _ => rfl] at hrows
      exact ⟨_, hrows⟩
    obtain ⟨u, hu⟩ := hloop (Table.findMany s.attempts fun id _ => id ∈ attemptIds) s
    exact ⟨u, .read_bind rfl hu⟩

/-! ### The updates of the attempts -/

/-- The calls of a payment for one attempt. -/
def commitCalls (db : Db) (attempt : ContactUnlockAttempt) (isEmployer isWorker : Bool) :
    List Site :=
  .payAttempt :: .rereadAttempt ::
    if statusOfPaid (if isEmployer then true else attempt.employerPaid)
        (if isWorker then true else attempt.workerPaid) = .unlocked then
      acceptCalls db [attempt.applicationId]
    else []

theorem applicationId_paySide (newStatus : Hiring.ContactUnlockStatus) (a : ContactUnlockAttempt) :
    (paySide isEmployer newStatus a).applicationId = a.applicationId := by
  unfold paySide
  split <;> rfl

theorem makes_commit (hfound : s.attempts[attemptId]? = some attempt)
    (hunpaid : sideUnpaid isEmployer attempt = true) :
    Makes fails (commitStandardPerAttemptPayUnlock attemptId attempt isEmployer isWorker) s
      (commitCalls s attempt isEmployer isWorker) := by
  unfold commitStandardPerAttemptPayUnlock commitCalls
  simp only
  generalize statusOfPaid (if isEmployer then true else attempt.employerPaid)
    (if isWorker then true else attempt.workerPaid) = newStatus
  obtain ⟨attempts, hclaim⟩ : ∃ attempts, Table.claim s.attempts attemptId (sideUnpaid isEmployer)
      (paySide isEmployer newStatus) = some attempts :=
    ⟨_, Table.claim_eq_some.2 ⟨attempt, hfound, hunpaid, rfl⟩⟩
  have hpaid : s.payAttempt attemptId isEmployer newStatus = (true, { s with attempts }) := by
    rw [Db.payAttempt, hclaim]
  have hupdated : attempts[attemptId]? = some (paySide isEmployer newStatus attempt) := by
    rw [claim_update hclaim, Table.getElem?_update, hfound, Option.map_some, if_pos rfl]
  refine .call_bind hpaid ?_
  rw [if_neg (by decide)]
  refine .read_bind (a := some (paySide isEmployer newStatus attempt)) hupdated ?_
  by_cases hlast : newStatus = .unlocked
  · obtain ⟨t, ht⟩ := @route_accept fails { s with attempts } [attempt.applicationId]
    simp only [hlast, if_true, applicationId_paySide]
    refine (Makes.bind ht ?_).of_eq (append_nil _)
    unfold recordUnlockedContact
    exact .swallow_bind fun t => .pure _ t
  · simp only [hlast, if_false]
    exact .pure _ _

/-- The applications that a payment for the whole job unlocks. -/
def unlockedApplications (db : Db) (trigger : ContactUnlockAttempt) : List ℕ :=
  (((db.pendingAttempts trigger.jobOfferId).filter fun a => a.2.workerPaid).map
    fun a => a.2.applicationId) ++ if trigger.workerPaid then [trigger.applicationId] else []

/-- The calls of a payment for the whole job. -/
def cascadeCalls (db : Db) (trigger : ContactUnlockAttempt) : List Site :=
  let pending := db.pendingAttempts trigger.jobOfferId
  .payJob :: .findPending :: (pending.map (fun a => .payPending a.1) ++
    ((if trigger.workerPaid then [.findTrigger] else []) ++
      (acceptCalls db (unlockedApplications db trigger).eraseDups ++
        if trigger.workerPaid ∨ (pending.filter fun a => a.2.workerPaid) ≠ [] then [.findUnlocked]
        else [])))

theorem applications_payPending (pending : List (ℕ × ContactUnlockAttempt)) (s : Db) :
    (pending.foldl (fun db a => db.payPending a) s).applications = s.applications := by
  induction pending generalizing s with
  | nil => rfl
  | cons a pending ih => rw [foldl_cons, ih]; rfl

/-- The updates leave every attempt to its application. -/
theorem applicationId_payPending (pending : List (ℕ × ContactUnlockAttempt)) (s : Db) (id : ℕ) :
    ((pending.foldl (fun db a => db.payPending a) s).attempts[id]?).map
        ContactUnlockAttempt.applicationId =
      (s.attempts[id]?).map ContactUnlockAttempt.applicationId := by
  induction pending generalizing s with
  | nil => rfl
  | cons a pending ih =>
    rw [foldl_cons, ih, Db.payPending, Table.getElem?_update, Option.map_map]
    congr 1
    funext r
    simp only [Function.comp_apply]
    split <;> rfl

theorem acceptCalls_congr (h : t.applications = s.applications) (applicationIds : List ℕ) :
    acceptCalls t applicationIds = acceptCalls s applicationIds := by
  unfold acceptCalls Db.jobsOf
  rw [h]

theorem makes_cascade (hfound : s.attempts[triggerId]? = some attempt) :
    Makes fails (handleMultiPersonEmployerPay triggerId attempt) s (cascadeCalls s attempt) := by
  unfold handleMultiPersonEmployerPay cascadeCalls unlockedApplications
  simp only
  generalize hpending : s.pendingAttempts attempt.jobOfferId = pending
  refine .call_bind rfl (.read_bind (a := pending) hpending ?_)
  have hloop := @Route.forM _ _ _ fails (fun a : ℕ × ContactUnlockAttempt =>
    write (.payPending a.1) fun db => db.payPending a) (fun a => [.payPending a.1])
    (fun a db => db.payPending a) (fun a db => .call _ _ db) pending (s.payJob attempt.jobOfferId)
  rw [← map_eq_flatMap] at hloop
  refine Makes.bind hloop ?_
  generalize hafter : pending.foldl (fun db a => db.payPending a) (s.payJob attempt.jobOfferId) =
    after
  have happlications : after.applications = s.applications := by
    rw [← hafter, applications_payPending]
    rfl
  have hend : ∀ (applicationIds newlyUnlocked : List ℕ) (r : PayUnlockResult),
      Makes fails (do
        markApplicationAcceptedAfterUnlock applicationIds
        recordUnlockedContactsByIds newlyUnlocked
        return r) after (acceptCalls s applicationIds ++
          if newlyUnlocked = [] then [] else [.findUnlocked]) := by
    intro applicationIds newlyUnlocked r
    obtain ⟨t, ht⟩ := @route_accept fails after applicationIds
    obtain ⟨u, hu⟩ := @route_records fails t newlyUnlocked
    rw [acceptCalls_congr happlications] at ht
    refine .bind ht ?_
    exact (Makes.bind hu (.pure r u)).of_eq (append_nil _)
  by_cases hworker : attempt.workerPaid = true
  · simp only [hworker, if_true, true_or, cons_append, nil_append]
    have happlication : (after.attempts[triggerId]?).map ContactUnlockAttempt.applicationId =
        some attempt.applicationId := by
      rw [← hafter, applicationId_payPending]
      exact congrArg (Option.map ContactUnlockAttempt.applicationId) hfound
    refine .read_bind rfl ?_
    rw [happlication]
    refine (hend _ _ _).of_eq ?_
    rw [if_neg]
    · rfl
    · intro hnil
      split_ifs at hnil with hmem
      · rw [hnil] at hmem
        exact not_mem_nil hmem
      · exact append_ne_nil_of_right_ne_nil _ (cons_ne_nil _ _) hnil
  · simp only [hworker, Bool.false_eq_true, if_false, false_or, nil_append, append_nil]
    refine (hend _ _ _).of_eq ?_
    simp only [map_eq_nil_iff, ne_eq, ite_not]

/-! ### Payment requests stay -/

section Keeps

variable {requests : List PaymentRequest}

variable (fails requests) in
/-- The program leaves the payment requests alone. -/
def Keeps {α : Type} (m : Op α) : Prop :=
  Triple fails (fun s => s.paymentRequests = requests) m
    (fun _ s => s.paymentRequests = requests) (fun s => s.paymentRequests = requests)

theorem keeps_closeFilled (jobOfferId : ℕ) : Keeps fails requests
    (write (.closeFilled jobOfferId) fun db => db.closeFilled jobOfferId) := by
  refine .keep fun s hs => ?_
  simp only [Db.closeFilled]
  split
  · exact hs
  · split_ifs <;> exact hs

theorem keeps_accept (applicationIds : List ℕ) :
    Keeps fails requests (markApplicationAcceptedAfterUnlock applicationIds) := by
  unfold markApplicationAcceptedAfterUnlock
  split_ifs
  · exact .pure fun _ hs => hs
  · exact .bind (.keep fun _ hs => hs) fun _ => .bind (.keep fun _ hs => hs) fun _ =>
      .forM fun jobOfferId _ => keeps_closeFilled jobOfferId

theorem keeps_record (attemptId : ℕ) (attempt : ContactUnlockAttempt) :
    Keeps fails requests (recordUnlockedContact attemptId attempt) := by
  refine .swallow (.bind (.keep fun s hs => ?_) fun _ => .keep fun _ hs => hs)
  simp only
  split_ifs <;> exact hs

theorem keeps_records (attemptIds : List ℕ) :
    Keeps fails requests (recordUnlockedContactsByIds attemptIds) := by
  unfold recordUnlockedContactsByIds
  split_ifs
  · exact .pure fun _ hs => hs
  · exact .bind (.keep fun _ hs => hs) fun rows => .forM fun row _ => keeps_record row.1 row.2

theorem keeps_commit (attemptId : ℕ) (attempt : ContactUnlockAttempt)
    (isEmployer isWorker : Bool) : Keeps fails requests
      (commitStandardPerAttemptPayUnlock attemptId attempt isEmployer isWorker) := by
  unfold commitStandardPerAttemptPayUnlock
  simp only
  generalize statusOfPaid (if isEmployer then true else attempt.employerPaid)
    (if isWorker then true else attempt.workerPaid) = newStatus
  refine .bind (.keep fun s hs => ?_) fun paid => ?_
  · simp only [Db.payAttempt]
    split <;> exact hs
  by_cases hpaid : paid = false
  · rw [if_pos hpaid]
    exact .refuse fun _ hs => hs
  rw [if_neg hpaid]
  refine .bind (.keep fun _ hs => hs) fun row => ?_
  cases row with
  | none => exact .refuse fun _ hs => hs
  | some updated =>
    simp only
    split_ifs
    · exact .bind (keeps_accept _) fun _ => .bind (keeps_record _ _) fun _ => .pure fun _ hs => hs
    · exact .pure fun _ hs => hs

theorem keeps_cascade (triggerId : ℕ) (trigger : ContactUnlockAttempt) :
    Keeps fails requests (handleMultiPersonEmployerPay triggerId trigger) := by
  refine .bind (.keep fun _ hs => hs) fun _ => .bind (.keep fun _ hs => hs) fun pending =>
    .bind (.forM fun a _ => .keep fun _ hs => hs) fun _ => ?_
  split_ifs
  · exact .bind (.keep fun _ hs => hs) fun row => .bind (keeps_accept _) fun _ =>
      .bind (keeps_records _) fun _ => .pure fun _ hs => hs
  · exact .bind (keeps_accept _) fun _ => .bind (keeps_records _) fun _ => .pure fun _ hs => hs

theorem keeps_credit (type : WalletTransactionType) (referenceId : ℕ) :
    Keeps fails requests (creditProfileWallet profileId amount type referenceId) := by
  unfold creditProfileWallet
  split_ifs
  · exact .refuse fun _ hs => hs
  refine .bind (.keep fun s hs => ?_) fun wallet => ?_
  · simp only [Db.upsertWallet]
    split <;> exact hs
  · exact .atomically (.bind (.keep fun _ hs => hs) fun _ => .bind (.keep fun _ hs => hs) fun _ =>
      .keep fun _ hs => hs) fun _ hs => hs

/-- The refund never hides the error. -/
theorem triple_refund (e : Thrown Site) : Triple fails (fun s => s.paymentRequests = requests)
      (refundAndRethrow useCredit attemptId profileId amount e) (fun _ _ => False)
      (fun s => s.paymentRequests = requests) := by
  unfold refundAndRethrow
  cases useCredit with
  | true => exact .bind (.swallow (keeps_credit _ _)) fun _ => .rethrow fun _ hs => hs
  | false => exact .rethrow fun _ hs => hs

theorem keeps_settle (attemptId profileId : ℕ) (attempt : ContactUnlockAttempt)
    (useCredit : Bool) (amount : ℕ) (isEmployer isWorker : Bool) : Keeps fails requests
      (settle attemptId profileId attempt useCredit amount isEmployer isWorker) := by
  have hrescue : ∀ {m : Op PayUnlockResult}, Keeps fails requests m → Keeps fails requests
      (rescue m (refundAndRethrow useCredit attemptId profileId amount)) := fun hm =>
    .rescue hm fun e => (triple_refund e).mono (fun _ hs => hs) (fun _ _ hs => hs.elim)
      fun _ hs => hs
  unfold settle
  split_ifs
  · refine .bind (.keep fun _ hs => hs) fun jobOffer => ?_
    split_ifs
    · exact hrescue (keeps_cascade _ _)
    · exact hrescue (keeps_commit _ _ _ _)
  · exact hrescue (keeps_commit _ _ _ _)

end Keeps

/-! ### The calls after the debit -/

/-- The calls that record a payment. -/
def recordCalls (db : Db) : List Site :=
  .createRequest :: .createPayment :: .findInvoice ::
    if (db.invoices.any fun i => i.paymentRequestId = some db.paymentRequests.length) then []
    else [.createInvoice]

/-- The calls that carry out what was paid for. -/
def settleCalls (db : Db) (attempt : ContactUnlockAttempt) (isEmployer isWorker : Bool) :
    List Site :=
  if isEmployer then
    .findJob ::
      if 1 < ((db.offers[attempt.jobOfferId]?).map Hiring.JobOffer.quantity).getD 1 then
        cascadeCalls db attempt
      else commitCalls db attempt isEmployer isWorker
  else commitCalls db attempt isEmployer isWorker

/-- The calls of a payment after its debit. -/
def laterCalls (db : Db) (attempt : ContactUnlockAttempt) (profileId : ℕ) : List Site :=
  recordCalls db ++
    settleCalls db attempt (sidesOf attempt profileId).1 (sidesOf attempt profileId).2

theorem refund_throws (e : Thrown Site) (s : Db) :
    ∃ e' t, refundAndRethrow useCredit attemptId profileId amount e fails s = (.error e', t) := by
  have htriple : Triple fails (fun t => t.paymentRequests = s.paymentRequests)
      (refundAndRethrow useCredit attemptId profileId amount e) (fun _ _ => False)
      (fun t => t.paymentRequests = s.paymentRequests) := triple_refund e
  exact htriple.throws rfl

theorem makes_settle (hfound : s.attempts[attemptId]? = some attempt)
    (hunpaid : sideUnpaid isEmployer attempt = true) :
    Makes fails (settle attemptId profileId attempt useCredit amount isEmployer isWorker) s
      (settleCalls s attempt isEmployer isWorker) := by
  have hrefund : ∀ e t, ∃ e' u,
      refundAndRethrow useCredit attemptId profileId amount e fails t = (.error e', u) :=
    refund_throws
  have hcommit : Makes fails (rescue
      (commitStandardPerAttemptPayUnlock attemptId attempt isEmployer isWorker)
      (refundAndRethrow useCredit attemptId profileId amount)) s
      (commitCalls s attempt isEmployer isWorker) :=
    (makes_commit hfound hunpaid).rescue hrefund
  unfold settle settleCalls
  split_ifs with hemployer hplaces
  · refine .read_bind rfl ?_
    rw [if_pos hplaces]
    exact (makes_cascade hfound).rescue hrefund
  · refine .read_bind rfl ?_
    rw [if_neg hplaces]
    exact hcommit
  · exact hcommit

/-- The records fail only with their calls, where there is an amount to make an invoice for. -/
theorem route_recordPayment (hamount : 0 < amount) (s : Db) :
    ∃ t, Route fails (recordWalletUnlockPayment attemptId profileId amount draw) s (recordCalls s)
        () t ∧
      t.attempts = s.attempts ∧ t.offers = s.offers ∧ t.applications = s.applications := by
  have hnot : ¬amount ≤ 0 := hamount.not_ge
  unfold recordWalletUnlockPayment createInvoice recordCalls
  simp only [hnot, if_false]
  cases hexisting : s.invoices.find? fun i =>
      i.paymentRequestId = some s.paymentRequests.length with
  | some invoice =>
    have hany : (s.invoices.any fun i => i.paymentRequestId = some s.paymentRequests.length) =
        true := by
      have hrequest := find?_some hexisting
      exact any_eq_true.2 ⟨invoice, mem_of_find?_eq_some hexisting, hrequest⟩
    rw [if_pos hany]
    exact ⟨_, .call_bind rfl (.call_bind rfl (.read_bind hexisting (.pure _ _))), rfl, rfl, rfl⟩
  | none =>
    have hany : ¬(s.invoices.any fun i => i.paymentRequestId = some s.paymentRequests.length) =
        true := by
      rw [any_eq_true]
      rintro ⟨invoice, hmem, hrequest⟩
      exact find?_eq_none.1 hexisting invoice hmem hrequest
    rw [if_neg hany]
    exact ⟨_, .call_bind rfl (.call_bind rfl (.read_bind hexisting (.call _ _ _))), rfl, rfl, rfl⟩

end Rabotka.Unlocking
