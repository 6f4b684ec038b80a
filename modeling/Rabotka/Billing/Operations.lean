import Rabotka.Hiring.Schema
import Rabotka.Lib.Serial
import Rabotka.Money.Operations

/-!
# Penalties and the billing status

The operations of `PenaltyService`, `WalletService`, `PaymentRequestService` and
`ApplicationService` that create, settle, archive or restore penalties and then write the
billing status of the profile, one after the other: each is a function of the database and of
the instant at which it runs. The operations of the money services are the ones of
`Money.Operations`, run alone.

Three rules for the status are in use. `recomputeBillingStatus`, `syncBillingStatus` and the
settlement of a payment request compare what is unpaid with the threshold; the administrators'
operations know CLEAR and PENDING_PAYMENT only; and a penalty created by hand sets
PENDING_PAYMENT whatever is unpaid. Notifications, logs and caches are left out, and so is what
a cancellation does to the offer, the assignment and the reliability score.
-/

namespace Rabotka.Billing

open Money

/-- The exceptions of these services. -/
inductive Exn
  | ofMoney (e : Money.Exn)
  | forbidden (message : String)
  | conflict (message : String)

/-- `NotFoundException`. -/
def Exn.notFound (message : String) : Exn := .ofMoney (.notFound message)

/-- `BadRequestException`. -/
def Exn.badRequest (message : String) : Exn := .ofMoney (.badRequest message)

/-- The configuration that `getFees` returns, as far as it is read here. -/
structure Fees where
  billingBlockThreshold : ℕ
  lateCancellationPenaltyFcfa : ℚ
  cancellationThresholdHours : ℚ

/-- An application, with what is read of its offer. `penaltyId` is the penalty that refers to
the application; the reference is unique. -/
structure Application where
  workerId : ℕ
  employerId : ℕ
  status : Hiring.ApplicationStatus
  scheduledAt : Option ℕ
  employmentType : Hiring.EmploymentType
  penaltyId : Option ℕ
  deriving DecidableEq

/-- The stores of the money services and the applications. -/
structure Desk where
  money : Store
  applications : List Application

/-- The database of the money services. -/
abbrev Desk.db (d : Desk) : Db := d.money.db

def Desk.withDb (d : Desk) (db : Db) : Desk := { d with money := d.money.withDb db }

/-! ### The rules -/

/-- How many penalties satisfy `p`. -/
def countPenalties (db : Db) (p : ℕ → Penalty → Bool) : ℕ :=
  (Table.findMany db.penalties p).length

/-- `penalty.count` with `paid_at: null, deleted_at: null`. -/
def unpaidCount (db : Db) (profileId : ℕ) : ℕ :=
  countPenalties db fun _ p => p.profileId = profileId ∧ p.owed

/-- `profile.update` of the billing status. -/
def setBillingStatus (db : Db) (profileId : ℕ) (billingStatus : BillingStatus) : Db :=
  { db with profiles := Table.update db.profiles profileId fun p => { p with billingStatus } }

/-- CLEAR or PENDING_PAYMENT from what is unpaid: the rule of `confirmPenaltyPaymentByAdmin`,
`deletePenalty` and `resyncBillingStatus`. -/
def resyncOne (db : Db) (profileId : ℕ) : Db :=
  setBillingStatus db profileId (if unpaidCount db profileId = 0 then .clear else .pendingPayment)

def resyncBillingStatus (db : Db) (ids : List ℕ) : Db :=
  ids.dedup.foldl resyncOne db

/-- `syncBillingStatus` of the application service. -/
def syncBillingStatus (fees : Fees) (db : Db) (workerId : ℕ) : Db :=
  let count := unpaidCount db workerId
  let newStatus : BillingStatus :=
    if count = 0 then .clear
    else if fees.billingBlockThreshold ≤ count then .blocked
    else .pendingPayment
  setBillingStatus db workerId newStatus

/-! ### The operations -/

/-- `penalty.create`; a profile that does not exist violates the foreign key. -/
def createPenalty (db : Db) (profileId : ℕ) (amount : ℚ) (now : ℕ) : Option Db :=
  if profileId < db.profiles.length then
    some { db with
      penalties := db.penalties ++
        [{ profileId, amount := Decimal.column amount, createdAt := now, paid := false,
           deleted := false }] }
  else none

/-- The checks of `createPenaltyByAdmin` on the application it names. -/
def checkApplication (d : Desk) (profileId : ℕ) : Option ℕ → Except Exn Unit
  | none => .ok ()
  | some applicationId =>
    match d.applications[applicationId]? with
    | none => .error (.notFound "Candidature introuvable")
    | some application =>
      if application.workerId ≠ profileId ∧ application.employerId ≠ profileId then
        .error (.badRequest "Cette candidature n'est pas associée à ce profil")
      else if application.penaltyId.isSome then
        .error (.conflict "Une pénalité existe déjà pour cette candidature")
      else .ok ()

/-- The new penalty refers to the application. -/
def linkPenalty (d : Desk) (penaltyId : ℕ) : Option ℕ → Desk
  | none => d
  | some applicationId =>
    { d with
      applications := Table.update d.applications applicationId fun a =>
        { a with penaltyId := some penaltyId } }

def createPenaltyByAdmin (now : ℕ) (profileId : ℕ) (applicationId : Option ℕ) (amount : ℚ)
    (d : Desk) : Desk × Except Exn Unit :=
  match checkApplication d profileId applicationId with
  | .error e => (d, .error e)
  | .ok () =>
    match createPenalty d.db profileId amount now with
    | none => (d, .error (.ofMoney (.error "Foreign key constraint violated")))
    | some db =>
      let d := linkPenalty (d.withDb db) d.db.penalties.length applicationId
      (d.withDb (setBillingStatus d.db profileId .pendingPayment), .ok ())

/-- The status of a worker's cancellation. -/
def isCancellable (a : Application) : Bool :=
  a.status = .accepted || a.status = .pending || a.status = .viewed ||
    a.status = .waitingPayment || (a.status = .ended && a.employmentType.closesOnFill)

/-- Less than the threshold before the start of the mission. -/
def isLateCancellation (fees : Fees) (now : ℕ) (a : Application) : Bool :=
  a.scheduledAt.any fun scheduledAt =>
    ((scheduledAt : ℚ) - now) / (60 * 60 * 1000) < fees.cancellationThresholdHours

/-- A late cancellation by a worker who had committed. -/
def appliesPenalty (fees : Fees) (now : ℕ) (a : Application) : Bool :=
  isLateCancellation fees now a && (a.status = .accepted || a.status = .waitingPayment)

/-- `penalty.upsert` by application: a penalty that exists stays as it is. -/
def upsertPenalty (fees : Fees) (now applicationId : ℕ) (a : Application) (d : Desk) :
    Option Desk :=
  match a.penaltyId with
  | some _ => some d
  | none =>
    (createPenalty d.db a.workerId fees.lateCancellationPenaltyFcfa now).map fun db =>
      linkPenalty (d.withDb db) d.db.penalties.length (some applicationId)

/-- `cancel`, the worker's own cancellation. -/
def cancel (fees : Fees) (now applicationId workerId : ℕ) (d : Desk) : Desk × Except Exn Unit :=
  match d.applications[applicationId]? with
  | none => (d, .error (.notFound "Candidature non trouvée"))
  | some a =>
    if a.workerId ≠ workerId then
      (d, .error (.forbidden "Vous ne pouvez annuler que vos propres candidatures"))
    else if !isCancellable a then
      (d, .error (.badRequest "Cette candidature ne peut plus être annulée"))
    else if a.scheduledAt.any (· ≤ now) && a.status = .accepted then
      (d, .error (.badRequest
        "Cette mission a déjà débuté, vous ne pouvez plus annuler votre candidature"))
    else
      let cancelled (d : Desk) : Desk :=
        { d with
          applications := Table.update d.applications applicationId fun a =>
            { a with status := .cancelled } }
      if appliesPenalty fees now a then
        match upsertPenalty fees now applicationId a d with
        | none => (d, .error (.ofMoney (.error "Foreign key constraint violated")))
        | some d => (cancelled (d.withDb (syncBillingStatus fees d.db workerId)), .ok ())
      else (cancelled d, .ok ())

/-- What the environment answers to a money operation that runs at the instant `now`. -/
def answer (fees : Fees) (now : ℕ) : Cmd → Env
  | .getBillingBlockThreshold => .threshold fees.billingBlockThreshold
  | .createApprovedRequest _ _ _ => .row now now
  | _ => .unit

/-- A money operation, run alone. -/
def runMoney (fees : Fees) (now : ℕ) (op : Prog Unit) (d : Desk) : Desk × Except Exn Unit :=
  let o := op.alone (fun s c => exec s 0 c (answer fees now c)) (.error "refused") d.money
  ({ d with money := o.1 }, o.2.mapError Exn.ofMoney)

def confirmPenaltyPaymentByAdmin (fees : Fees) (now penaltyId : ℕ) (d : Desk) :
    Desk × Except Exn Unit :=
  match d.db.penalties[penaltyId]? with
  | none => (d, .error (.notFound "Pénalité introuvable"))
  | some penalty =>
    if penalty.paid then (d, .error (.badRequest "Cette pénalité a déjà été réglée"))
    else
      match runMoney fees now
        (confirmPenaltyPaymentManually penaltyId penalty.profileId .other) d with
      | (d, .error e) => (d, .error e)
      | (d, .ok ()) => (d.withDb (resyncOne d.db penalty.profileId), .ok ())

def deletePenalty (id : ℕ) (d : Desk) : Desk × Except Exn Unit :=
  match d.db.penalties[id]? with
  | none => (d, .error (.notFound "Pénalité introuvable"))
  | some penalty =>
    if penalty.deleted then (d, .error (.notFound "Pénalité introuvable"))
    else if penalty.paid then
      (d, .error (.badRequest "Impossible de supprimer une pénalité déjà réglée"))
    else
      let db := { d.db with
        penalties := Table.update d.db.penalties id fun p => { p with deleted := true } }
      (d.withDb (resyncOne db penalty.profileId), .ok ())

/-- The penalties that a bulk deletion archives: those that are still owed. -/
def affected (db : Db) (ids : List ℕ) : List (ℕ × Penalty) :=
  Table.findMany db.penalties fun i p => i ∈ ids ∧ p.owed

/-- `penalty.updateMany` setting `deleted_at`. -/
def archivePenalties (db : Db) (ids : List ℕ) : Db :=
  { db with
    penalties := Table.updateMany db.penalties (fun i _ => i ∈ ids) fun p =>
      { p with deleted := true } }

def bulkSoftDeletePenalties (ids : List ℕ) (d : Desk) : Desk :=
  let rows := affected d.db ids
  let db := archivePenalties d.db (rows.map Prod.fst)
  d.withDb (resyncBillingStatus db (rows.map (·.2.profileId)))

/-- `resyncBillingForPenalties`. -/
def resyncBillingForPenalties (db : Db) (penaltyIds : List ℕ) : Db :=
  resyncBillingStatus db
    ((Table.findMany db.penalties fun i _ => i ∈ penaltyIds).map (·.2.profileId))

/-- `ArchiveService.restore` on penalties. -/
def restorePenalties (db : Db) (ids : List ℕ) : Db :=
  { db with
    penalties := Table.updateMany db.penalties (fun i p => i ∈ ids ∧ p.deleted) fun p =>
      { p with deleted := false } }

/-- `bulkRestore` of the administrators' controller: the archived rows come back, then the
billing follows. -/
def bulkRestore (ids : List ℕ) (d : Desk) : Desk :=
  d.withDb (resyncBillingForPenalties (restorePenalties d.db ids) ids)

/-- `markPenaltiesPaid` of the application service. -/
def markPenaltiesPaid (fees : Fees) (workerId : ℕ) (d : Desk) : Desk :=
  if unpaidCount d.db workerId = 0 then d
  else
    let db := { d.db with
      penalties := Table.updateMany d.db.penalties
        (fun _ p => p.profileId = workerId ∧ p.owed) fun p => { p with paid := true } }
    d.withDb (syncBillingStatus fees db workerId)

/-! ### Sequences -/

inductive Operation
  | createPenaltyByAdmin (profileId : ℕ) (applicationId : Option ℕ) (amount : ℚ)
  | cancel (applicationId workerId : ℕ)
  | payPenaltyFromWallet (penaltyId profileId : ℕ)
  | payAllPenaltiesWithWallet (profileId : ℕ)
  | confirmPenaltyPaymentByAdmin (penaltyId : ℕ)
  | deletePenalty (id : ℕ)
  | bulkSoftDeletePenalties (ids : List ℕ)
  | bulkRestore (ids : List ℕ)
  | markPenaltiesPaid (workerId : ℕ)
  | handlePenaltyPostPayment (request : PaymentRequest)

/-- The store after an operation that ran at the instant `now`, whether it returned or
threw. -/
def perform (fees : Fees) (now : ℕ) (d : Desk) : Operation → Desk
  | .createPenaltyByAdmin profileId applicationId amount =>
    (createPenaltyByAdmin now profileId applicationId amount d).1
  | .cancel applicationId workerId => (cancel fees now applicationId workerId d).1
  | .payPenaltyFromWallet penaltyId profileId =>
    (runMoney fees now (payPenaltyFromWallet penaltyId profileId) d).1
  | .payAllPenaltiesWithWallet profileId =>
    (runMoney fees now (payAllPenaltiesWithWallet profileId) d).1
  | .confirmPenaltyPaymentByAdmin penaltyId =>
    (confirmPenaltyPaymentByAdmin fees now penaltyId d).1
  | .deletePenalty id => (deletePenalty id d).1
  | .bulkSoftDeletePenalties ids => bulkSoftDeletePenalties ids d
  | .bulkRestore ids => bulkRestore ids d
  | .markPenaltiesPaid workerId => markPenaltiesPaid fees workerId d
  | .handlePenaltyPostPayment request =>
    (runMoney fees now (handlePenaltyPostPayment request) d).1

/-- A sequence of operations, each at its instant. -/
def sequence (fees : Fees) (d : Desk) (calls : List (ℕ × Operation)) : Desk :=
  calls.foldl (fun d call => perform fees call.1 d call.2) d

end Rabotka.Billing

/-!
## The two billing rules

What the billing status of a profile should be is a function of how many of its penalties are
unpaid (`dueStatus`); a database in which every profile has its due status is `Synced`. The
administrators' rule agrees with it below the threshold and nowhere else
(`shortStatus_eq_dueStatus_iff`), and that difference is carried through the three ways in which
an operation writes statuses: from the due status of one profile (`Recomputed`), with the short
rule (`synced_resyncBillingStatus_iff`), or with PENDING_PAYMENT outright.
-/

namespace Rabotka.Billing

open Money

/-- The status that `k` unpaid penalties make. -/
def dueStatus (n k : ℕ) : BillingStatus :=
  if k = 0 then .clear else if n ≤ k then .blocked else .pendingPayment

/-- The status the administrators' operations write. -/
def shortStatus (k : ℕ) : BillingStatus :=
  if k = 0 then .clear else .pendingPayment

/-- Below the threshold the two rules agree, and from there on they do not. -/
theorem shortStatus_eq_dueStatus_iff {n k : ℕ} (hn : 1 ≤ n) :
    shortStatus k = dueStatus n k ↔ k < n := by
  unfold shortStatus dueStatus
  by_cases hk : k = 0
  · simp [hk]
    omega
  · by_cases hnk : n ≤ k
    · simp [hk, hnk]
    · simp [hk, hnk]
      omega

/-- Every profile is CLEAR exactly when nothing is unpaid, and BLOCKED exactly from the threshold
on. -/
def Synced (n : ℕ) (db : Db) : Prop :=
  ∀ (p : ℕ) (profile : Profile), db.profiles[p]? = some profile →
    (profile.billingStatus = .clear ↔ unpaidCount db p = 0) ∧
      (profile.billingStatus = .blocked ↔ n ≤ unpaidCount db p)

/-- With a threshold of at least one, that is one equation for each profile. -/
theorem synced_iff {n : ℕ} {db : Db} (hn : 1 ≤ n) :
    Synced n db ↔ ∀ p profile, db.profiles[p]? = some profile →
      profile.billingStatus = dueStatus n (unpaidCount db p) := by
  refine forall₃_congr fun p profile hp => ?_
  unfold dueStatus
  by_cases hk : unpaidCount db p = 0
  · have hnk : ¬ n ≤ 0 := by omega
    cases hs : profile.billingStatus <;> simp [hk, hnk]
  · by_cases hnk : n ≤ unpaidCount db p
    · cases hs : profile.billingStatus <;> simp [hk, hnk]
    · cases hs : profile.billingStatus <;> simp [hk, hnk]

/-- Every penalty belongs to a profile. -/
def ForeignKeys (db : Db) : Prop :=
  ∀ (i : ℕ) (r : Penalty), db.penalties[i]? = some r → r.profileId < db.profiles.length

variable {n p q : ℕ} {db db' e : Db}

/-! ### Writing a status -/

@[simp]
theorem penalties_setBillingStatus (db : Db) (p : ℕ) (s : BillingStatus) :
    (setBillingStatus db p s).penalties = db.penalties := rfl

@[simp]
theorem unpaidCount_setBillingStatus (db : Db) (p : ℕ) (s : BillingStatus) (q : ℕ) :
    unpaidCount (setBillingStatus db p s) q = unpaidCount db q := rfl

theorem getElem?_setBillingStatus (db : Db) (p : ℕ) (s : BillingStatus) (q : ℕ) :
    (setBillingStatus db p s).profiles[q]? =
      (db.profiles[q]?).map fun x => if p = q then { x with billingStatus := s } else x :=
  Table.getElem?_update _ _ _ _

theorem unpaidCount_congr (h : db'.penalties = db.penalties) (q : ℕ) :
    unpaidCount db' q = unpaidCount db q := by
  unfold unpaidCount countPenalties
  rw [h]

/-- One more unpaid penalty. -/
theorem unpaidCount_createPenalty {amount : ℚ} {now : ℕ}
    (h : createPenalty db p amount now = some e) (q : ℕ) :
    unpaidCount e q = unpaidCount db q + if p = q then 1 else 0 := by
  obtain ⟨-, he⟩ := Option.ite_none_right_eq_some.1 h
  obtain rfl := Option.some.inj he
  unfold unpaidCount countPenalties
  rw [Table.findMany_concat, List.length_append]
  by_cases hpq : p = q <;> simp [hpq, Penalty.owed]

/-- One unpaid penalty less. -/
theorem unpaidCount_update {id : ℕ} {r : Penalty} {f : Penalty → Penalty}
    (hr : db.penalties[id]? = some r) (howed : r.owed) (hf : (f r).owed = false)
    (h : e.penalties = Table.update db.penalties id f) (q : ℕ) :
    unpaidCount e q + (if r.profileId = q then 1 else 0) = unpaidCount db q := by
  have hsum : (unpaidCount e q : ℤ) = unpaidCount db q - if r.profileId = q then 1 else 0 := by
    unfold unpaidCount countPenalties
    rw [h, Table.update_of_some hr, Table.length_findMany, Table.sumBy_set hr,
      Table.length_findMany]
    by_cases hq : r.profileId = q <;> simp [hq, howed, hf]
  split_ifs at hsum ⊢ <;> omega

theorem recomputeBillingStatus_eq (db : Db) (p n : ℕ) :
    db.recomputeBillingStatus p n = setBillingStatus db p (dueStatus n (unpaidCount db p)) := rfl

/-- Row by row, the short rule over a list of profiles. -/
theorem getElem?_resyncBillingStatus (db : Db) (ids : List ℕ) (q : ℕ) :
    (resyncBillingStatus db ids).profiles[q]? = (db.profiles[q]?).map fun x =>
      if q ∈ ids then { x with billingStatus := shortStatus (unpaidCount db q) } else x := by
  have hfold : ∀ (l : List ℕ) (e : Db), (l.foldl resyncOne e).profiles[q]? =
      (e.profiles[q]?).map fun x =>
        if q ∈ l then { x with billingStatus := shortStatus (unpaidCount e q) } else x := by
    intro l
    induction l with
    | nil => simp
    | cons p l ih =>
      intro e
      have hcount : unpaidCount (resyncOne e p) q = unpaidCount e q := rfl
      rw [List.foldl_cons, ih, hcount, resyncOne, getElem?_setBillingStatus, Option.map_map]
      congr 1
      funext x
      by_cases hpq : p = q
      · subst hpq
        by_cases hl : p ∈ l <;> simp [hl, shortStatus]
      · have hqp : ¬ q = p := fun h => hpq h.symm
        by_cases hl : q ∈ l <;> simp [hl, hpq, hqp]
  rw [resyncBillingStatus, hfold]
  simp only [List.mem_dedup]

theorem penalties_resyncBillingStatus (db : Db) (ids : List ℕ) :
    (resyncBillingStatus db ids).penalties = db.penalties := by
  have hfold : ∀ (l : List ℕ) (e : Db), (l.foldl resyncOne e).penalties = e.penalties := by
    intro l
    induction l with
    | nil => simp
    | cons p l ih =>
      intro e
      rw [List.foldl_cons, ih]
      rfl
  exact hfold _ _

/-! ### Keeping the database synced -/

/-- Writing the due status of one profile, where the counts of the others are left alone. -/
theorem synced_setBillingStatus (hn : 1 ≤ n) (hs : Synced n db)
    (hprofiles : e.profiles = db.profiles)
    (hothers : ∀ q, q ≠ p → unpaidCount e q = unpaidCount db q) :
    Synced n (setBillingStatus e p (dueStatus n (unpaidCount e p))) := by
  rw [synced_iff hn] at hs ⊢
  intro q profile hq
  rw [getElem?_setBillingStatus, hprofiles] at hq
  obtain ⟨profile₀, hrow, rfl⟩ := Option.map_eq_some_iff.1 hq
  rw [unpaidCount_setBillingStatus]
  by_cases hpq : p = q
  · subst hpq
    rw [if_pos rfl]
  · rw [if_neg hpq, hothers q fun h => hpq h.symm]
    exact hs q profile₀ hrow

/-- The status of every profile follows what is unpaid: where the counts of the others are left
alone, writing the short status to the profiles of `ids` is right exactly when each of them is
below the threshold. -/
theorem synced_resyncBillingStatus_iff {ids : List ℕ} (hn : 1 ≤ n) (hs : Synced n db)
    (hprofiles : e.profiles = db.profiles)
    (hothers : ∀ q, q ∉ ids → unpaidCount e q = unpaidCount db q) :
    Synced n (resyncBillingStatus e ids) ↔
      ∀ q ∈ ids, q < db.profiles.length → unpaidCount e q < n := by
  have hcount : ∀ q, unpaidCount (resyncBillingStatus e ids) q = unpaidCount e q :=
    unpaidCount_congr (penalties_resyncBillingStatus e ids)
  rw [synced_iff hn] at hs ⊢
  constructor
  · intro h q hq hlt
    have hrow : (resyncBillingStatus e ids).profiles[q]? = some
        { db.profiles[q] with billingStatus := shortStatus (unpaidCount e q) } := by
      rw [getElem?_resyncBillingStatus, hprofiles, List.getElem?_eq_getElem hlt]
      simp [hq]
    have heq := h q _ hrow
    rw [hcount] at heq
    exact (shortStatus_eq_dueStatus_iff hn).1 heq
  · intro h q profile hq
    rw [getElem?_resyncBillingStatus, hprofiles] at hq
    obtain ⟨profile₀, hrow, rfl⟩ := Option.map_eq_some_iff.1 hq
    rw [hcount]
    by_cases hmem : q ∈ ids
    · rw [if_pos hmem]
      have hlt := h q hmem (List.getElem?_eq_some_iff.1 hrow).1
      exact (shortStatus_eq_dueStatus_iff hn).2 hlt
    · rw [if_neg hmem, hothers q hmem]
      exact hs q profile₀ hrow

/-- The short rule for a single profile. -/
theorem synced_resyncOne_iff (hn : 1 ≤ n) (hs : Synced n db) (hprofiles : e.profiles = db.profiles)
    (hothers : ∀ q, q ≠ p → unpaidCount e q = unpaidCount db q) (hp : p < db.profiles.length) :
    Synced n (resyncOne e p) ↔ unpaidCount e p < n := by
  have hiff : Synced n (resyncBillingStatus e [p]) ↔ _ :=
    synced_resyncBillingStatus_iff hn hs hprofiles fun q hq => hothers q (by simpa using hq)
  have hone : resyncBillingStatus e [p] = resyncOne e p := rfl
  rw [hone] at hiff
  rw [hiff]
  simp [hp]

/-- `db'` comes from `db` by changing penalties of the profile `p` and writing its due status. -/
structure Recomputed (n p : ℕ) (db db' : Db) : Prop where
  rows : ∃ f : ℕ → Penalty → Penalty, (∀ i, db'.penalties[i]? = (db.penalties[i]?).map (f i)) ∧
    ∀ i r, db.penalties[i]? = some r →
      (f i r).profileId = r.profileId ∧ (r.profileId ≠ p → f i r = r)
  profiles : db'.profiles = (setBillingStatus db p (dueStatus n (unpaidCount db' p))).profiles

/-- The counts of the other profiles are left alone. -/
theorem Recomputed.unpaidCount_of_ne (h : Recomputed n p db db') (hq : q ≠ p) :
    unpaidCount db' q = unpaidCount db q := by
  obtain ⟨f, hmap, hf⟩ := h.rows
  unfold unpaidCount countPenalties
  rw [Table.length_findMany_of_map hmap]
  refine Table.length_findMany_congr fun i r hr => ?_
  obtain ⟨hprofile, hsame⟩ := hf i r hr
  by_cases hrp : r.profileId = p
  · have hne : r.profileId ≠ q := fun h => hq (h.symm.trans hrp)
    simp [hprofile, hne]
  · rw [hsame hrp]

theorem Recomputed.synced (hn : 1 ≤ n) (h : Recomputed n p db db') (hs : Synced n db) :
    Synced n db' := by
  have hset : Synced n (setBillingStatus { db' with profiles := db.profiles } p
      (dueStatus n (unpaidCount db' p))) :=
    synced_setBillingStatus hn hs rfl fun q hq => h.unpaidCount_of_ne hq
  intro q profile hq
  rw [h.profiles] at hq
  exact hset q profile hq

/-- Penalties keep their profiles where the rows keep their references. -/
theorem ForeignKeys.of_map {f : ℕ → Penalty → Penalty} (h : ForeignKeys db)
    (hprofiles : db'.profiles.length = db.profiles.length)
    (hmap : ∀ i, db'.penalties[i]? = (db.penalties[i]?).map (f i))
    (hf : ∀ i r, db.penalties[i]? = some r → (f i r).profileId = r.profileId) :
    ForeignKeys db' := by
  intro i r hr
  rw [hmap] at hr
  obtain ⟨r₀, hr₀, rfl⟩ := Option.map_eq_some_iff.1 hr
  rw [hprofiles, hf i r₀ hr₀]
  exact h i r₀ hr₀

theorem length_setBillingStatus (db : Db) (p : ℕ) (s : BillingStatus) :
    (setBillingStatus db p s).profiles.length = db.profiles.length := by
  unfold setBillingStatus Table.update
  cases db.profiles[p]? with
  | none => rfl
  | some r => exact List.length_set

theorem Recomputed.foreignKeys (h : Recomputed n p db db') (hfk : ForeignKeys db) :
    ForeignKeys db' := by
  obtain ⟨f, hmap, hf⟩ := h.rows
  refine hfk.of_map ?_ hmap fun i r hr => (hf i r hr).1
  rw [h.profiles, length_setBillingStatus]

theorem length_resyncBillingStatus (db : Db) (ids : List ℕ) :
    (resyncBillingStatus db ids).profiles.length = db.profiles.length := by
  have hfold : ∀ (l : List ℕ) (e : Db),
      (l.foldl resyncOne e).profiles.length = e.profiles.length := by
    intro l
    induction l with
    | nil => simp
    | cons p l ih =>
      intro e
      rw [List.foldl_cons, ih]
      exact length_setBillingStatus _ _ _
  exact hfold _ _

end Rabotka.Billing
