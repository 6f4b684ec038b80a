import Rabotka.Unlocking.Calls

/-!
# What a failed payment leaves behind

A payment from the wallet is a row of separate transactions: the debit, the payment request, the
payment, the invoice, and the updates of attempts, offers and applications. What a throw leaves
behind depends on where it comes. Up to the debit's commit nothing has moved (`triple_admission`,
`triple_debit`). From then on the money is the system's, and the only thing that later code takes
back is the payer's share of it, for the last part alone: the system wallet keeps the amount, and
the approved request and the completed payment stay (`triple_rest`).

`failed_unlock_moves_nothing_iff` says when a payment that throws has moved nothing: unless the
money moves, always; and if it moves, when no call after the debit throws.
-/

namespace Rabotka.Unlocking

open Faulty List
open Hiring (ContactUnlockAttempt)

variable {db s t u : Db} {amount profileId attemptId triggerId : ℕ} {now : ℤ} {draw : Draw}
  {attempt : ContactUnlockAttempt} {isEmployer isWorker useCredit : Bool} {fails : Site → Bool}

/-! ### What may not move -/

/-- The approved payment requests for an attempt. -/
def Db.approvedRequests (db : Db) (attemptId : ℕ) : List PaymentRequest :=
  db.paymentRequests.filter fun r =>
    r.contactUnlockAttemptId = some attemptId && r.status = .approved

/-- The completed payments with the reference of an approved request for the attempt. -/
def Db.completedPayments (db : Db) (attemptId : ℕ) : List Payment :=
  db.payments.filter fun p => p.status = .completed &&
    (db.approvedRequests attemptId).any fun r => r.paymentReference = some p.transactionId

/-- The two paid flags of an attempt. -/
def Db.paidFlags (db : Db) (attemptId : ℕ) : Option (Bool × Bool) :=
  (db.attempts[attemptId]?).map fun a => (a.employerPaid, a.workerPaid)

/-- The `employer_unlock_paid` of the attempt's job. -/
def Db.jobPaid (db : Db) (attemptId : ℕ) : Option Bool := do
  let attempt ← db.attempts[attemptId]?
  let offer ← db.offers[attempt.jobOfferId]?
  return offer.employerUnlockPaid

/-- Nothing has moved between the two databases for the attempt and the payer. -/
structure Unmoved (attemptId profileId : ℕ) (db t : Db) : Prop where
  payer : t.balance (.profile profileId) = db.balance (.profile profileId)
  system : t.balance .system = db.balance .system
  requests : t.approvedRequests attemptId = db.approvedRequests attemptId
  payments : t.completedPayments attemptId = db.completedPayments attemptId
  flags : t.paidFlags attemptId = db.paidFlags attemptId
  job : t.jobPaid attemptId = db.jobPaid attemptId

/-- The debit goes through: the checks let the payment pass, the payer has the amount, and no call
throws up to the debit's commit. -/
structure Moves (db : Db) (attemptId profileId : ℕ) (now : ℤ) (fails : Site → Bool)
    (attempt : ContactUnlockAttempt) : Prop where
  admits : Admits db attemptId profileId now attempt
  funds : amountOf attempt profileId ≤ db.balance (.profile profileId)
  answered : ∀ x ∈ admitCalls ++ db.debitCalls, fails x = false

/-- The calls that throw leave nothing half done: if the debit goes through, no call after it
throws, or, where there is nothing to pay, the first one does. -/
def Spared (db : Db) (attemptId profileId : ℕ) (now : ℤ) (fails : Site → Bool) : Prop :=
  ∀ attempt, Moves db attemptId profileId now fails attempt →
    if amountOf attempt profileId = 0 then fails .createRequest = true
    else ∀ x ∈ laterCalls db attempt profileId, fails x = false

theorem unmoved_of_balanced {b : WalletOwner → ℕ} (h : Balanced db b t)
    (hpayer : b (.profile profileId) = db.balance (.profile profileId))
    (hsystem : b .system = db.balance .system) : Unmoved attemptId profileId db t where
  payer := (h.balance _).trans hpayer
  system := (h.balance _).trans hsystem
  requests := by rw [Db.approvedRequests, h.elsewhere.paymentRequests]; rfl
  payments := by
    rw [Db.completedPayments, Db.approvedRequests, h.elsewhere.paymentRequests,
      h.elsewhere.payments]
    rfl
  flags := by rw [Db.paidFlags, h.elsewhere.attempts]; rfl
  job := by rw [Db.jobPaid, h.elsewhere.attempts, h.elsewhere.offers]; rfl

/-- There is an approved request more for the attempt. -/
def Requested (attemptId : ℕ) (db t : Db) : Prop :=
  ∃ r : PaymentRequest, (r.contactUnlockAttemptId = some attemptId ∧ r.status = .approved) ∧
    t.paymentRequests = db.paymentRequests ++ [r]

theorem Requested.not_unmoved (h : Requested attemptId db t) :
    ¬Unmoved attemptId profileId db t := by
  obtain ⟨r, ⟨hattempt, hstatus⟩, hrequests⟩ := h
  intro hunmoved
  have happroved : t.approvedRequests attemptId = db.approvedRequests attemptId ++ [r] := by
    unfold Db.approvedRequests
    rw [hrequests, filter_append]
    simp [hattempt, hstatus]
  have hsame := hunmoved.requests
  rw [happroved] at hsame
  exact cons_ne_nil r [] (append_right_eq_self.1 hsame)

/-- From the creation of the request on there is a request more, and nothing to pay never gets
further than the invoice. -/
theorem triple_recordPayment (hanswered : fails .createRequest = false) :
    Triple fails (fun s => s.paymentRequests = db.paymentRequests)
      (recordWalletUnlockPayment attemptId profileId amount draw)
      (fun _ t => Requested attemptId db t ∧ 0 < amount) (Requested attemptId db) := by
  refine .bind (Q := fun _ t => Requested attemptId db t) (.answered hanswered fun s hs => ?_)
    fun request => ?_
  · let r : PaymentRequest :=
      { profileId
        token := draw.token
        status := .approved
        amount
        paymentReference := some draw.paymentReference
        contactUnlockAttemptId := some attemptId
        requestType := none }
    exact ⟨r, ⟨rfl, rfl⟩, congrArg (fun requests => requests ++ [r]) hs⟩
  refine .bind (.keep fun _ hs => hs) fun _ => ?_
  unfold createInvoice
  split_ifs with hamount
  · exact .refuse fun _ hs => hs
  refine .bind (Q := fun _ t => Requested attemptId db t) (.keep fun _ hs => hs) fun existing => ?_
  have hpos := Nat.pos_of_ne_zero fun h => hamount h.le
  cases existing with
  | some invoice => exact .pure fun _ hs => ⟨hs, hpos⟩
  | none => exact .call (fun _ hs => hs) fun _ hs _ => ⟨hs, hpos⟩

theorem triple_rest (hanswered : fails .createRequest = false) :
    Triple fails (fun s => s.paymentRequests = db.paymentRequests)
      (do
        recordWalletUnlockPayment attemptId profileId amount draw
        settle attemptId profileId attempt useCredit amount isEmployer isWorker)
      (fun _ _ => 0 < amount) (Requested attemptId db) := by
  refine .bind (triple_recordPayment hanswered) fun _ => .assuming fun hpos => ?_
  intro s hs
  obtain ⟨r, hr, hrequests⟩ := hs
  have hkeeps : Triple fails (fun s => s.paymentRequests = db.paymentRequests ++ [r])
      (settle attemptId profileId attempt useCredit amount isEmployer isWorker)
      (fun _ _ => 0 < amount) (Requested attemptId db) :=
    (keeps_settle _ _ _ _ _ _ _).mono (fun _ h => h) (fun _ _ _ => hpos) fun _ h => ⟨r, hr, h⟩
  exact hkeeps s hrequests

/-- Where there is something to pay, the rest of a payment throws when one of its calls does. -/
theorem makes_rest (h : Admits db attemptId profileId now attempt)
    (hamount : 0 < amountOf attempt profileId) (ht : Elsewhere db t) :
    Makes fails (do
        recordWalletUnlockPayment attemptId profileId (amountOf attempt profileId) draw
        settle attemptId profileId attempt useCredit (amountOf attempt profileId)
          (sidesOf attempt profileId).1 (sidesOf attempt profileId).2) t
      (laterCalls db attempt profileId) := by
  obtain ⟨u, hrecord, hattempts, hoffers, happlications⟩ := @route_recordPayment _ profileId
    attemptId draw fails hamount t
  have hunpaid : sideUnpaid (sidesOf attempt profileId).1 attempt = true := by
    unfold sideUnpaid sidesOf
    by_cases hside : attempt.employerId = profileId
    · simp [hside, h.employerUnpaid hside]
    · simp [hside, h.workerUnpaid (h.party.resolve_left hside)]
  have hsettle := @makes_settle u (amountOf attempt profileId) profileId attemptId attempt
    (sidesOf attempt profileId).1 (sidesOf attempt profileId).2 useCredit fails
    (by rw [hattempts, ht.attempts, h.found]) hunpaid
  refine (Makes.bind hrecord hsettle).of_eq ?_
  have hrecordCalls : recordCalls t = recordCalls db := by
    unfold recordCalls
    rw [ht.invoices, ht.paymentRequests]
  have hcommit : ∀ isEmployer isWorker, commitCalls u attempt isEmployer isWorker =
      commitCalls db attempt isEmployer isWorker := fun isEmployer isWorker => by
    unfold commitCalls
    rw [acceptCalls_congr (happlications.trans ht.applications)]
  have hcascade : cascadeCalls u attempt = cascadeCalls db attempt := by
    unfold cascadeCalls unlockedApplications Db.pendingAttempts
    simp only [hattempts.trans ht.attempts, acceptCalls_congr (happlications.trans ht.applications)]
  unfold laterCalls settleCalls
  rw [hrecordCalls, hcommit, hcascade, hoffers, ht.offers]

/-! ### The payment -/

/-- What a payment does after its debit. -/
def afterDebit (attemptId profileId : ℕ) (attempt : ContactUnlockAttempt) (draw : Draw) :
    Op PayUnlockResult := do
  recordWalletUnlockPayment attemptId profileId (amountOf attempt profileId) draw
  settle attemptId profileId attempt true (amountOf attempt profileId)
    (sidesOf attempt profileId).1 (sidesOf attempt profileId).2

theorem afterDebit_of_fails (h : fails .createRequest = true) :
    afterDebit attemptId profileId attempt draw fails t = (.error (.failed .createRequest), t) :=
  bind_of_error (bind_of_error (call_of_fails h t))

theorem payUnlock_of_admitted (hadmission : admitPayment attemptId profileId now fails db =
    (.ok (some (attempt, sidesOf attempt profileId)), t)) :
    payUnlock attemptId profileId true now draw fails db = (do
      debitProfileAndCreditSystem profileId (amountOf attempt profileId) .contactUnlockDebit
        .contactUnlockPayment attemptId
      afterDebit attemptId profileId attempt draw) fails t :=
  bind_of_ok hadmission

/-- Where the debit goes through, the rest starts from the moved balances. -/
theorem payUnlock_of_moves (h : Moves db attemptId profileId now fails attempt) :
    ∃ t, Balanced db (moved db.balance profileId (amountOf attempt profileId)) t ∧
      payUnlock attemptId profileId true now draw fails db =
        afterDebit attemptId profileId attempt draw fails t := by
  have hadmission := (route_admission h.admits).returns fun x hx =>
    h.answered x (mem_append_left _ hx)
  obtain ⟨t, hroute⟩ := @route_debit db _ profileId attemptId fails .contactUnlockDebit
    .contactUnlockPayment h.funds
  have hdebit := hroute.returns fun x hx => h.answered x (mem_append_right _ hx)
  refine ⟨t, ((triple_debit _ _).of_ok rfl hdebit).1, ?_⟩
  rw [payUnlock_of_admitted hadmission]
  exact bind_of_ok hdebit

/-- A payment that throws has moved nothing, unless its debit went through. -/
theorem unmoved_of_not_moves (h : ∀ attempt, ¬Moves db attemptId profileId now fails attempt)
    {e : Thrown Site} (herror : payUnlock attemptId profileId true now draw fails db =
      (.error e, t)) : Unmoved attemptId profileId db t := by
  cases hadmission : admitPayment attemptId profileId now fails db with
  | mk outcome s =>
    rcases outcome with e' | r
    · have hs := triple_admission.of_error rfl hadmission
      have hrun : payUnlock attemptId profileId true now draw fails db = (.error e', s) :=
        bind_of_error hadmission
      obtain ⟨-, rfl⟩ := Prod.mk.inj (herror.symm.trans hrun)
      rw [hs]
      exact unmoved_of_balanced (.refl db) rfl rfl
    obtain ⟨rfl, hadmits⟩ := triple_admission.of_ok rfl hadmission
    cases r with
    | none =>
      have hrun : payUnlock attemptId profileId true now draw fails s =
          (.ok { attemptId, status := .unlocked, newlyUnlocked := [] }, s) :=
        bind_of_ok hadmission
      exact nomatch (Prod.mk.inj (herror.symm.trans hrun)).1
    | some x =>
      obtain ⟨attempt, sides⟩ := x
      have hsides : sides = sidesOf attempt profileId := (hadmits _ rfl).2
      obtain ⟨hadmits, -⟩ := hadmits _ rfl
      subst hsides
      have hchecked := (route_admission hadmits).answered hadmission
      rw [payUnlock_of_admitted hadmission] at herror
      cases hdebit : debitProfileAndCreditSystem profileId (amountOf attempt profileId)
          .contactUnlockDebit .contactUnlockPayment attemptId fails s with
      | mk outcome u =>
        cases outcome with
        | error e' =>
          obtain ⟨-, rfl⟩ := Prod.mk.inj (herror.symm.trans (bind_of_error hdebit))
          exact unmoved_of_balanced ((triple_debit _ _).of_error rfl hdebit) rfl rfl
        | ok a =>
          -- then the debit went through
          obtain ⟨-, hfunds⟩ := (triple_debit _ _).of_ok rfl hdebit
          obtain ⟨v, hroute⟩ := @route_debit s _ profileId attemptId fails .contactUnlockDebit
            .contactUnlockPayment hfunds
          refine absurd ⟨hadmits, hfunds, fun x hx => ?_⟩ (h attempt)
          exact (mem_append.1 hx).elim (hchecked x) (hroute.answered hdebit x)

/-- **When a failed wallet-funded unlock moves nothing.** For every attempt, payer and state, and
whichever calls throw: a payment that throws leaves the balances, the records of the payment and
the flags as they were if and only if the debit does not go through, or no call after it throws
(with nothing to pay, if the first one does). -/
theorem failed_unlock_moves_nothing_iff (db : Db) (attemptId profileId : ℕ) (now : ℤ) (draw : Draw)
    (fails : Site → Bool) :
    (∀ e t, payUnlock attemptId profileId true now draw fails db = (.error e, t) →
      Unmoved attemptId profileId db t) ↔ Spared db attemptId profileId now fails := by
  constructor
  · intro hunmoved attempt hmoves
    obtain ⟨t, ht, hrun⟩ := @payUnlock_of_moves _ _ _ _ draw _ _ hmoves
    -- a throw after the request was created has left it
    have hleft : ∀ e u, afterDebit attemptId profileId attempt draw fails t = (.error e, u) →
        fails .createRequest = true := by
      intro e u hthrown
      by_contra hanswered
      have hrequested := (triple_rest (Bool.eq_false_iff.2 hanswered)).of_error
        ht.elsewhere.paymentRequests hthrown
      exact hrequested.not_unmoved (hunmoved e u (hrun.trans hthrown))
    split_ifs with hamount
    · -- with nothing to pay the rest cannot return
      by_contra hanswered
      cases hrest : afterDebit attemptId profileId attempt draw fails t with
      | mk outcome u =>
        cases outcome with
        | error e => exact hanswered (hleft e u hrest)
        | ok a =>
          have hpos := (triple_rest (Bool.eq_false_iff.2 hanswered)).of_ok
            ht.elsewhere.paymentRequests hrest
          exact hpos.ne' hamount
    · intro x hx
      by_contra hfails
      obtain ⟨e, u, hthrown⟩ := (makes_rest hmoves.admits (Nat.pos_of_ne_zero hamount)
        ht.elsewhere).throws_iff.2 ⟨x, hx, eq_true_of_ne_false hfails⟩
      -- the debit was the last thing that happened, and nobody makes it good
      have hfirst := hleft e u hthrown
      have hpayer := (hunmoved _ _ (hrun.trans (afterDebit_of_fails hfirst))).payer
      rw [ht.balance, moved_profile] at hpayer
      have hfunds := hmoves.funds
      omega
  · intro hspared e t herror
    by_cases hmoves : ∃ attempt, Moves db attemptId profileId now fails attempt
    · obtain ⟨attempt, hmoves⟩ := hmoves
      obtain ⟨u, hu, hrun⟩ := @payUnlock_of_moves _ _ _ _ draw _ _ hmoves
      rw [hrun] at herror
      have hspared := hspared attempt hmoves
      split_ifs at hspared with hamount
      · rw [afterDebit_of_fails hspared] at herror
        obtain ⟨-, rfl⟩ := Prod.mk.inj herror
        rw [hamount] at hu
        exact unmoved_of_balanced hu (moved_zero _) (moved_zero _)
      · obtain ⟨x, hx, hfails⟩ := (makes_rest hmoves.admits (Nat.pos_of_ne_zero hamount)
          hu.elsewhere).throws_iff.1 ⟨e, t, herror⟩
        rw [hspared x hx] at hfails
        cases hfails
    · exact unmoved_of_not_moves (fun attempt h => hmoves ⟨attempt, h⟩) herror

/-- An employer with 600 francs, and a worker's application to their offer of two places, whose
unlock costs the employer 500. -/
def sample : Db where
  profiles := [⟨false⟩, ⟨false⟩]
  penalties := []
  offers := [⟨0, 2, .partiallyFilled, false, .mission, none, false⟩]
  applications := [⟨0, 1, .waitingPayment, none, none⟩]
  attempts := [⟨0, 0, 1, 0, .pendingBoth, false, false, 50000, 10000, 0⟩]
  wallets := [⟨.system, 0⟩, ⟨.profile 0, 60000⟩]
  walletTransactions := []
  paymentRequests := []
  payments := []
  invoices := []
  contactRecords := []
  penaltyHardBlockDays := 3

/-- The search for the waiting attempts throws: the employer has the 500 francs back, and the system
wallet, the approved request, the completed payment and the job keep them. -/
theorem failed_unlock_moves : ∃ t, payUnlock 0 0 true 0 ⟨1, 2⟩ (fun x => x = .findPending) sample =
      (.error (.failed .findPending), t) ∧
    (t.balance (.profile 0) = 60000 ∧ t.balance .system = 50000 ∧
      (t.approvedRequests 0).length = 1 ∧ (t.completedPayments 0).length = 1 ∧
      t.jobPaid 0 = some true ∧ t.paidFlags 0 = some (false, false)) ∧
    ¬Unmoved 0 0 sample t := by
  refine ⟨(payUnlock 0 0 true 0 ⟨1, 2⟩ (fun x => x = .findPending) sample).2, rfl, by decide, ?_⟩
  intro h
  exact absurd h.system (by decide)

end Rabotka.Unlocking
