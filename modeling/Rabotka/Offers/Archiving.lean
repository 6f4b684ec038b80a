import Rabotka.Lib.Table

/-!
# Archiving an offer and bringing it back

An employer's deletion rejects the waiting applicants of the offer and deletes the offer and its
live applications at one instant; a restore recognises them by that instant. An archived employer's
open offers are archived with the profile, and restored with it, in the same way.

The deletion and the restore look at `deletedAt`, the rejection of the waiting applicants does not:
an application that was deleted while waiting is rejected too, and reported as closed. That is the
only way in which the operations are not exact (`archive_exact_iff`).
-/

namespace Rabotka.Offers.Archiving

open Table List

inductive JobOfferStatus
  | active | partiallyFilled | filled | inProgress | completed | cancelled | expired
  deriving DecidableEq

inductive ApplicationStatus
  | pending | viewed | waitingPayment | accepted | rejected | cancelled | started | «end»
  deriving DecidableEq

inductive AssignmentStatus
  | confirmed | completed | noShow | cancelledByWorker | cancelledByEmployer
  deriving DecidableEq

inductive RejectionSource
  | employer | autoFill
  deriving DecidableEq

structure JobOffer where
  employerId : ℕ
  status : JobOfferStatus
  deletedAt : Option ℤ
  deriving DecidableEq

structure Application where
  jobOfferId : ℕ
  status : ApplicationStatus
  rejectedAt : Option ℤ
  rejectionSource : Option RejectionSource
  deletedAt : Option ℤ
  deriving DecidableEq

structure Assignment where
  jobOfferId : ℕ
  status : AssignmentStatus
  deriving DecidableEq

structure Db where
  offers : List JobOffer
  applications : List Application
  assignments : List Assignment
  deriving DecidableEq

/-! ### The code -/

inductive Refusal
  | notFound (message : String)
  | forbidden (message : String)
  | badRequest (message : String)
  deriving DecidableEq

def employerDeletableJobOfferStatuses : List JobOfferStatus := [.active, .expired]

def employerDeleteBlockingApplicationStatuses : List ApplicationStatus :=
  [.waitingPayment, .accepted, .started, .end]

def employerDeleteBlockingAssignmentStatuses : List AssignmentStatus := [.confirmed, .completed]

/-- The applicants of an offer still in some statuses are rejected; the ids of those rejected. -/
def rejectWaitingApplicants (applications : List Application) (jobOfferId : ℕ)
    (statuses : List ApplicationStatus) (now : ℤ) : List Application × List ℕ :=
  let leftovers := findMany applications fun _ a =>
    a.jobOfferId = jobOfferId ∧ a.status ∈ statuses
  if leftovers = [] then (applications, [])
  else
    let ids := leftovers.map Prod.fst
    (updateMany applications (fun i _ => i ∈ ids) fun a =>
      { a with status := .rejected, rejectedAt := some now, rejectionSource := some .autoFill }, ids)

/-- `deleteByEmployer`, with the instants at which its two times are read; the second component is
whom it reports as closed. -/
def deleteByEmployer (db : Db) (id actorProfileId : ℕ) (rejectedAt now : ℤ) :
    Except Refusal (Db × List ℕ) :=
  match (db.offers[id]?).filter fun o => o.deletedAt = none with
  | none => .error (.notFound "Offre introuvable")
  | some offer =>
    if offer.employerId ≠ actorProfileId then
      .error (.forbidden "Vous n'êtes pas l'employeur de cette offre")
    else if offer.status ∉ employerDeletableJobOfferStatuses then
      .error (.badRequest
        "Cette offre ne peut plus être supprimée car elle est en cours ou terminée.")
    else
      let engagedApplications := findMany db.applications fun _ a => a.jobOfferId = id
        ∧ a.deletedAt = none ∧ a.status ∈ employerDeleteBlockingApplicationStatuses
      let engagedAssignments := findMany db.assignments fun _ a => a.jobOfferId = id
        ∧ a.status ∈ employerDeleteBlockingAssignmentStatuses
      if engagedApplications.length > 0 ∨ engagedAssignments.length > 0 then
        .error (.badRequest
          "Impossible de supprimer : un candidat est déjà engagé sur cette offre.")
      else
        let closed := rejectWaitingApplicants db.applications id [.pending, .viewed] rejectedAt
        .ok ({ db with
          applications := updateMany closed.1
            (fun _ a => a.jobOfferId = id ∧ a.deletedAt = none) fun a =>
              { a with deletedAt := some now }
          offers := update db.offers id fun o => { o with deletedAt := some now } }, closed.2)

/-- When each of these offers was deleted, for the archived ones. -/
def archivedAt (db : Db) (ids : List ℕ) : List (ℕ × ℤ) :=
  ids.filterMap fun id => (db.offers[id]?).bind fun o => o.deletedAt.map fun at' => (id, at')

/-- `archiveService.restore('jobs', ids)`. -/
def restore (offers : List JobOffer) (ids : List ℕ) : List JobOffer :=
  updateMany offers (fun i o => i ∈ ids ∧ o.deletedAt ≠ none) fun o => { o with deletedAt := none }

/-- The applications that were deleted with each of these offers come back. -/
def restoreApplicationsDeletedWith (applications : List Application) (offers : List (ℕ × ℤ)) :
    List Application :=
  offers.foldl (fun applications offer =>
    updateMany applications
      (fun _ a => a.jobOfferId = offer.1 ∧ a.deletedAt = some offer.2) fun a =>
        { a with deletedAt := none }) applications

/-- The restore of offers: the instants are read before it clears them. -/
def bulkRestore (db : Db) (ids : List ℕ) : Db :=
  let archived := archivedAt db ids
  { db with
    offers := restore db.offers ids
    applications := restoreApplicationsDeletedWith db.applications archived }

/-- The loop over the offers of `bulkSoftDeleteByAdmin`; `clock` is read once for each offer. -/
def rejectEach (clock : ℕ → ℤ) : List ℕ → List Application → List Application × List ℕ
  | [], applications => (applications, [])
  | id :: ids, applications =>
    let closed := rejectWaitingApplicants applications id [.pending, .viewed] (clock id)
    let rest := rejectEach clock ids closed.1
    (rest.1, closed.2 ++ rest.2)

/-- The offers are archived, then their waiting applicants rejected. -/
def bulkSoftDeleteByAdmin (db : Db) (ids : List ℕ) (instant : ℤ) (clock : ℕ → ℤ) : Db × List ℕ :=
  if ids = [] then (db, [])
  else
    let closed := rejectEach clock ids db.applications
    ({ db with
      offers := updateMany db.offers (fun i o => i ∈ ids ∧ o.deletedAt = none) fun o =>
        { o with deletedAt := some instant }
      applications := closed.1 }, closed.2)

/-- The recruiting offers of these employers, which go with them. -/
def recruitingOffers (db : Db) (ids : List ℕ) : List ℕ :=
  (findMany db.offers fun _ o => o.employerId ∈ ids ∧ o.deletedAt = none
    ∧ o.status ∈ [JobOfferStatus.active, JobOfferStatus.partiallyFilled]).map Prod.fst

def archiveOffersOfArchivedEmployers (db : Db) (ids : List ℕ) (instant : ℤ) (clock : ℕ → ℤ) :
    Db × List ℕ :=
  bulkSoftDeleteByAdmin db (recruitingOffers db ids) instant clock

/-- The offers archived together with each of these employers come back. -/
def restoreOffersOfRestoredEmployers (db : Db) (restored : List (ℕ × ℤ)) : Db :=
  { db with
    offers := restored.foldl (fun offers r =>
      updateMany offers (fun _ o => o.employerId = r.1 ∧ o.deletedAt = some r.2) fun o =>
        { o with deletedAt := none }) db.offers }

/-! ### What is to be exact -/

/-- The applicant still waits for an answer. -/
def Waiting (a : Application) : Prop :=
  a.status = .pending ∨ a.status = .viewed

instance (a : Application) : Decidable (Waiting a) := inferInstanceAs (Decidable (_ ∨ _))

/-- Exactly the live waiting applications of these offers are rejected and reported, and no field of
an application that was already deleted changes. -/
structure ClosedExactly (db db' : Db) (closed : List ℕ) (ofOffer : ℕ → Prop) : Prop where
  nodup : closed.Nodup
  mem_closed : ∀ i, i ∈ closed ↔ ∃ a, db.applications[i]? = some a ∧ ofOffer a.jobOfferId
    ∧ a.deletedAt = none ∧ Waiting a
  rejected : ∀ (i : ℕ) (a a' : Application), db.applications[i]? = some a →
    db'.applications[i]? = some a' → i ∈ closed → a'.status = .rejected
  others : ∀ (i : ℕ) (a a' : Application), db.applications[i]? = some a →
    db'.applications[i]? = some a' → i ∉ closed → a'.status = a.status
  deleted : ∀ (i : ℕ) (a : Application), db.applications[i]? = some a → a.deletedAt ≠ none →
    db'.applications[i]? = some a

/-- The deletions of applications are those of the other database. -/
def SameDeletions (db db' : Db) : Prop :=
  db'.applications.map Application.deletedAt = db.applications.map Application.deletedAt

/-- No application of these offers was deleted while it was waiting. -/
def NoneDeletedWaiting (db : Db) (ofOffer : ℕ → Prop) : Prop :=
  ∀ (i : ℕ) (a : Application), db.applications[i]? = some a → ofOffer a.jobOfferId →
    a.deletedAt ≠ none → ¬ Waiting a

/-- The offer is archived with its employer. -/
def GoesWith (db : Db) (ids : List ℕ) (j : ℕ) : Prop :=
  ∃ o, db.offers[j]? = some o ∧ o.employerId ∈ ids ∧ o.deletedAt = none
    ∧ (o.status = .active ∨ o.status = .partiallyFilled)

/-- The offers that went with the employers who come back are live again, all others stay as they
are. -/
def OffersBack (db : Db) (ids restored : List ℕ) (instant : ℤ) (db'' : Db) : Prop :=
  ∀ (j : ℕ) (o : JobOffer), db.offers[j]? = some o → db''.offers[j]? = some
    (if (o.employerId ∈ ids ∧ o.deletedAt = none
        ∧ (o.status = .active ∨ o.status = .partiallyFilled)) ∧ o.employerId ∉ restored then
      { o with deletedAt := some instant } else o)

/-! ### The rejection, row by row -/

variable {db db' : Db} {applications : List Application} {closed : List ℕ} {ofOffer : ℕ → Prop}
  {i id : ℕ}

/-- What the rejection writes. -/
def reject (now : ℤ) (a : Application) : Application :=
  { a with status := .rejected, rejectedAt := some now, rejectionSource := some .autoFill }

theorem waiting_iff {a : Application} :
    a.status ∈ [ApplicationStatus.pending, .viewed] ↔ Waiting a := by
  simp [Waiting]

theorem mem_rejectWaitingApplicants {now : ℤ} :
    i ∈ (rejectWaitingApplicants applications id [.pending, .viewed] now).2
      ↔ ∃ a, applications[i]? = some a ∧ a.jobOfferId = id ∧ Waiting a := by
  have hmem : i ∈ (findMany applications fun _ a =>
        a.jobOfferId = id ∧ a.status ∈ [ApplicationStatus.pending, .viewed]).map Prod.fst
      ↔ ∃ a, applications[i]? = some a ∧ a.jobOfferId = id ∧ Waiting a := by
    rw [mem_map]
    constructor
    · rintro ⟨x, hx, rfl⟩
      obtain ⟨hrow, hp⟩ := mem_findMany.mp hx
      rw [decide_eq_true_eq, waiting_iff] at hp
      exact ⟨x.2, hrow, hp⟩
    · rintro ⟨a, hrow, ha⟩
      refine ⟨(i, a), mem_findMany.mpr ⟨hrow, ?_⟩, rfl⟩
      rw [decide_eq_true_eq, waiting_iff]
      exact ha
  rw [rejectWaitingApplicants]
  split_ifs with hnil
  · rw [hnil] at hmem
    exact hmem
  · exact hmem

theorem nodup_rejectWaitingApplicants {statuses : List ApplicationStatus} {now : ℤ} :
    (rejectWaitingApplicants applications id statuses now).2.Nodup := by
  rw [rejectWaitingApplicants]
  split_ifs
  · exact nodup_nil
  · exact nodup_findMany _ _

/-- The rejection takes the waiting applications of the offer, deleted or not. -/
theorem getElem?_rejectWaitingApplicants (now : ℤ) (i : ℕ) :
    (rejectWaitingApplicants applications id [.pending, .viewed] now).1[i]?
      = (applications[i]?).map fun a =>
        if a.jobOfferId = id ∧ Waiting a then reject now a else a := by
  have hmem := @mem_rejectWaitingApplicants applications i id now
  rw [rejectWaitingApplicants] at hmem ⊢
  cases hrow : applications[i]? with
  | none =>
    split_ifs
    · exact hrow
    · rw [getElem?_updateMany, hrow, Option.map_none, Option.map_none]
  | some a =>
    rw [hrow] at hmem
    simp only [Option.some.injEq, exists_eq_left'] at hmem
    split_ifs at hmem ⊢ with hnil
    · rw [hrow, Option.map_some, if_neg (hmem.not.mp not_mem_nil)]
    · rw [getElem?_updateMany, hrow, Option.map_some, Option.map_some]
      simp only [decide_eq_true_eq, hmem]
      rfl

theorem not_waiting_reject (now : ℤ) (a : Application) : ¬ Waiting (reject now a) := by
  simp [Waiting, reject]

theorem getElem?_rejectEach (clock : ℕ → ℤ) (ids : List ℕ) (applications : List Application)
    (i : ℕ) :
    (rejectEach clock ids applications).1[i]? = (applications[i]?).map fun a =>
      if a.jobOfferId ∈ ids ∧ Waiting a then reject (clock a.jobOfferId) a else a := by
  induction ids generalizing applications with
  | nil => simp [rejectEach]
  | cons id ids ih =>
    rw [rejectEach, ih, getElem?_rejectWaitingApplicants, Option.map_map]
    congr 1
    funext a
    simp only [Function.comp_apply, mem_cons]
    by_cases hid : a.jobOfferId = id <;> by_cases hwaiting : Waiting a
    · simp [hid, hwaiting, not_waiting_reject]
    all_goals simp [hid, hwaiting]

theorem mem_rejectEach (clock : ℕ → ℤ) (ids : List ℕ) (applications : List Application) :
    i ∈ (rejectEach clock ids applications).2
      ↔ ∃ a, applications[i]? = some a ∧ a.jobOfferId ∈ ids ∧ Waiting a := by
  induction ids generalizing applications with
  | nil => simp [rejectEach]
  | cons id ids ih =>
    rw [rejectEach, mem_append, ih, mem_rejectWaitingApplicants, getElem?_rejectWaitingApplicants]
    cases applications[i]? with
    | none => simp
    | some a =>
      simp only [Option.map_some, Option.some.injEq, exists_eq_left', mem_cons]
      by_cases hid : a.jobOfferId = id <;> by_cases hwaiting : Waiting a
      · simp [hid, hwaiting]
      all_goals simp [hid, hwaiting]

theorem nodup_rejectEach (clock : ℕ → ℤ) (ids : List ℕ) (applications : List Application) :
    (rejectEach clock ids applications).2.Nodup := by
  induction ids generalizing applications with
  | nil => exact nodup_nil
  | cons id ids ih =>
    rw [rejectEach, nodup_append]
    refine ⟨nodup_rejectWaitingApplicants, ih _, fun i hi j hj hij => ?_⟩
    subst hij
    -- Whoever was rejected for the first offer no longer waits.
    obtain ⟨a, hrow, ha⟩ := mem_rejectWaitingApplicants.mp hi
    obtain ⟨b, hrow', -, hb⟩ := (mem_rejectEach clock ids _).mp hj
    rw [getElem?_rejectWaitingApplicants, hrow, Option.map_some, if_pos ha] at hrow'
    exact not_waiting_reject _ a (Option.some.inj hrow' ▸ hb)

/-- Rejecting is exact only if no waiting application is deleted. -/
theorem closedExactly_iff {f : Application → Application}
    (hrow : ∀ i : ℕ, db'.applications[i]? = (db.applications[i]?).map f) (hnodup : closed.Nodup)
    (hmem : ∀ i : ℕ, i ∈ closed
      ↔ ∃ a, db.applications[i]? = some a ∧ ofOffer a.jobOfferId ∧ Waiting a)
    (hrejected : ∀ a, ofOffer a.jobOfferId → Waiting a → (f a).status = .rejected)
    (hkept : ∀ a, ¬ (ofOffer a.jobOfferId ∧ Waiting a) →
      (f a).status = a.status ∧ (a.deletedAt ≠ none → f a = a)) :
    ClosedExactly db db' closed ofOffer ↔ NoneDeletedWaiting db ofOffer := by
  constructor
  · intro h i a ha hoffer hdeleted hwaiting
    have hsame := h.deleted i a ha hdeleted
    rw [hrow, ha, Option.map_some] at hsame
    have hstatus := hrejected a hoffer hwaiting
    rw [Option.some.inj hsame] at hstatus
    rcases hwaiting with hpending | hviewed
    · exact nomatch hstatus.symm.trans hpending
    · exact nomatch hstatus.symm.trans hviewed
  · intro h
    have hlive : ∀ (i : ℕ) (a : Application), db.applications[i]? = some a → i ∈ closed →
        a.deletedAt = none := by
      intro i a ha hi
      obtain ⟨b, hb, hoffer, hwaiting⟩ := (hmem i).mp hi
      obtain rfl := Option.some.inj (ha.symm.trans hb)
      by_contra hdeleted
      exact h i a ha hoffer hdeleted hwaiting
    have houtside : ∀ (i : ℕ) (a : Application), db.applications[i]? = some a → i ∉ closed →
        ¬ (ofOffer a.jobOfferId ∧ Waiting a) :=
      fun i a ha hi hboth => hi ((hmem i).mpr ⟨a, ha, hboth⟩)
    refine ⟨hnodup, fun i => ⟨fun hi => ?_, fun ⟨a, ha, hoffer, _, hwaiting⟩ => ?_⟩,
      fun i a a' ha ha' hi => ?_, fun i a a' ha ha' hi => ?_, fun i a ha hdeleted => ?_⟩
    · obtain ⟨a, ha, hoffer, hwaiting⟩ := (hmem i).mp hi
      exact ⟨a, ha, hoffer, hlive i a ha hi, hwaiting⟩
    · exact (hmem i).mpr ⟨a, ha, hoffer, hwaiting⟩
    · obtain ⟨b, hb, hoffer, hwaiting⟩ := (hmem i).mp hi
      obtain rfl := Option.some.inj (ha.symm.trans hb)
      rw [hrow, ha, Option.map_some] at ha'
      rw [← Option.some.inj ha']
      exact hrejected a hoffer hwaiting
    · rw [hrow, ha, Option.map_some] at ha'
      rw [← Option.some.inj ha']
      exact (hkept a (houtside i a ha hi)).1
    · have hi : i ∉ closed := fun hi => hdeleted (hlive i a ha hi)
      rw [hrow, ha, Option.map_some, (hkept a (houtside i a ha hi)).2 hdeleted]

/-! ### The restore, row by row -/

theorem getElem?_restoreApplicationsDeletedWith (instant : ℤ) (i : ℕ) :
    (restoreApplicationsDeletedWith applications [(id, instant)])[i]?
      = (applications[i]?).map fun a =>
        if a.jobOfferId = id ∧ a.deletedAt = some instant then { a with deletedAt := none }
        else a := by
  rw [restoreApplicationsDeletedWith, foldl_cons, foldl_nil, getElem?_updateMany]
  simp only [decide_eq_true_eq]

theorem getElem?_restoreOffers (instant : ℤ) (restored : List ℕ) (db : Db) (j : ℕ) :
    (restoreOffersOfRestoredEmployers db (restored.map fun e => (e, instant))).offers[j]?
      = (db.offers[j]?).map fun o =>
        if o.employerId ∈ restored ∧ o.deletedAt = some instant then { o with deletedAt := none }
        else o := by
  simp only [restoreOffersOfRestoredEmployers]
  generalize db.offers = offers
  induction restored generalizing offers with
  | nil => simp
  | cons e restored ih =>
    rw [map_cons, foldl_cons, ih, getElem?_updateMany, Option.map_map]
    congr 1
    funext o
    simp only [Function.comp_apply, decide_eq_true_eq, mem_cons]
    by_cases he : o.employerId = e <;> by_cases hdeleted : o.deletedAt = some instant
    all_goals simp [he, hdeleted]

theorem mem_recruitingOffers {ids : List ℕ} {j : ℕ} :
    j ∈ recruitingOffers db ids ↔ GoesWith db ids j := by
  rw [recruitingOffers, mem_map]
  constructor
  · rintro ⟨x, hx, rfl⟩
    obtain ⟨hrow, hp⟩ := mem_findMany.mp hx
    rw [decide_eq_true_eq] at hp
    exact ⟨x.2, hrow, hp.1, hp.2.1, by simpa using hp.2.2⟩
  · rintro ⟨o, hrow, hemployer, hlive, hstatus⟩
    refine ⟨(j, o), mem_findMany.mpr ⟨hrow, ?_⟩, rfl⟩
    rw [decide_eq_true_eq]
    exact ⟨hemployer, hlive, by simpa using hstatus⟩

theorem archiveOffers_eq (db : Db) (ids : List ℕ) (instant : ℤ) (clock : ℕ → ℤ) :
    archiveOffersOfArchivedEmployers db ids instant clock
      = ({ db with
          offers := updateMany db.offers
            (fun i o => i ∈ recruitingOffers db ids ∧ o.deletedAt = none) fun o =>
              { o with deletedAt := some instant }
          applications := (rejectEach clock (recruitingOffers db ids) db.applications).1 },
        (rejectEach clock (recruitingOffers db ids) db.applications).2) := by
  rw [archiveOffersOfArchivedEmployers, bulkSoftDeleteByAdmin]
  split_ifs with hnil
  · rw [hnil]
    have hoffers : updateMany db.offers (fun i o => i ∈ ([] : List ℕ) ∧ o.deletedAt = none)
        (fun o => { o with deletedAt := some instant }) = db.offers := by
      refine ext_getElem? fun i => ?_
      rw [getElem?_updateMany]
      simp
    rw [hoffers]
    rfl
  · rfl

variable {actorProfileId : ℕ} {rejectedAt now : ℤ}

/-- What a successful deletion leaves. -/
theorem deleteByEmployer_eq
    (h : deleteByEmployer db id actorProfileId rejectedAt now = .ok (db', closed)) :
    (∃ o, db.offers[id]? = some o ∧ o.deletedAt = none)
      ∧ db'.offers = update db.offers id (fun o => { o with deletedAt := some now })
      ∧ db'.applications = updateMany
          (rejectWaitingApplicants db.applications id [.pending, .viewed] rejectedAt).1
          (fun _ a => a.jobOfferId = id ∧ a.deletedAt = none)
          (fun a => { a with deletedAt := some now })
      ∧ closed = (rejectWaitingApplicants db.applications id [.pending, .viewed] rejectedAt).2 := by
  rw [deleteByEmployer] at h
  cases hoffer : (db.offers[id]?).filter fun o => o.deletedAt = none with
  | none =>
    rw [hoffer] at h
    exact nomatch h
  | some o =>
    obtain ⟨hrow, hlive⟩ := Option.filter_eq_some_iff.mp hoffer
    rw [hoffer] at h
    dsimp only at h
    split_ifs at h
    simp only [Except.ok.injEq, Prod.mk.injEq] at h
    obtain ⟨rfl, rfl⟩ := h
    exact ⟨⟨o, hrow, of_decide_eq_true hlive⟩, rfl, rfl, rfl⟩

/-! ### Exactness -/

/-- A deletion by the employer is exact about whom it rejects if nobody was deleted while
waiting, -/
theorem closedExactly_deleteByEmployer
    (h : deleteByEmployer db id actorProfileId rejectedAt now = .ok (db', closed)) :
    ClosedExactly db db' closed (· = id) ↔ NoneDeletedWaiting db (· = id) := by
  obtain ⟨-, -, happlications, rfl⟩ := deleteByEmployer_eq h
  refine closedExactly_iff (f := fun a =>
      let b := if a.jobOfferId = id ∧ Waiting a then reject rejectedAt a else a
      if b.jobOfferId = id ∧ b.deletedAt = none then { b with deletedAt := some now } else b)
    (fun i => ?_) nodup_rejectWaitingApplicants (fun i => mem_rejectWaitingApplicants)
    (fun a hoffer hwaiting => ?_) fun a hnot => ?_
  · rw [happlications, getElem?_updateMany, getElem?_rejectWaitingApplicants, Option.map_map]
    simp only [decide_eq_true_eq]
    rfl
  · simp only [hoffer, hwaiting, and_self, if_true]
    split_ifs <;> rfl
  · simp only [hnot, if_false]
    refine ⟨by split_ifs <;> rfl, fun hdeleted => ?_⟩
    rw [if_neg fun hboth => hdeleted hboth.2]

/-- and the restore undoes its deletions, whoever was rejected. -/
theorem bulkRestore_deleteByEmployer
    (h : deleteByEmployer db id actorProfileId rejectedAt now = .ok (db', closed))
    (hother : ∀ a ∈ db.applications, a.jobOfferId = id → a.deletedAt ≠ some now) :
    SameDeletions db (bulkRestore db' [id]) ∧ (bulkRestore db' [id]).offers = db.offers := by
  obtain ⟨⟨o, ho, hlive⟩, hoffers, happlications, -⟩ := deleteByEmployer_eq h
  have harchived : archivedAt db' [id] = [(id, now)] := by
    simp [archivedAt, hoffers, getElem?_update, ho]
  constructor
  · refine ext_getElem? fun i => ?_
    rw [getElem?_map, getElem?_map, bulkRestore, harchived,
      getElem?_restoreApplicationsDeletedWith, happlications, getElem?_updateMany,
      getElem?_rejectWaitingApplicants]
    cases hrow : db.applications[i]? with
    | none => rfl
    | some a =>
      have hnow := hother a (mem_of_getElem? hrow)
      simp only [Option.map_some, decide_eq_true_eq]
      by_cases hoffer : a.jobOfferId = id
      · have hdeleted := hnow hoffer
        by_cases hwaiting : Waiting a <;> cases hat : a.deletedAt <;> simp_all [reject]
      · simp [hoffer]
  · refine ext_getElem? fun j => ?_
    rw [bulkRestore, restore, getElem?_updateMany, hoffers, getElem?_update]
    cases hrow : db.offers[j]? with
    | none => rfl
    | some o' =>
      simp only [Option.map_some, mem_singleton, decide_eq_true_eq]
      rcases eq_or_ne j id with rfl | hj
      · obtain rfl := Option.some.inj (ho.symm.trans hrow)
        simp [← hlive]
      · simp [hj, hj.symm]

/-- The same for the offers of archived employers, -/
theorem closedExactly_archiveOffers (db : Db) (ids : List ℕ) (instant : ℤ) (clock : ℕ → ℤ) :
    ClosedExactly db (archiveOffersOfArchivedEmployers db ids instant clock).1
        (archiveOffersOfArchivedEmployers db ids instant clock).2 (GoesWith db ids)
      ↔ NoneDeletedWaiting db (GoesWith db ids) := by
  rw [archiveOffers_eq]
  refine closedExactly_iff (f := fun a =>
      if a.jobOfferId ∈ recruitingOffers db ids ∧ Waiting a then reject (clock a.jobOfferId) a
      else a)
    (fun i => getElem?_rejectEach clock _ _ i) (nodup_rejectEach clock _ _) (fun i => ?_)
    (fun a hoffer hwaiting => ?_) fun a hnot => ?_
  · rw [mem_rejectEach]
    simp only [mem_recruitingOffers]
  · rw [if_pos ⟨mem_recruitingOffers.mpr hoffer, hwaiting⟩]
    rfl
  · rw [if_neg fun hboth => hnot ⟨mem_recruitingOffers.mp hboth.1, hboth.2⟩]
    exact ⟨rfl, fun _ => rfl⟩

/-- whose restore finds the offers that went with the employers who come back. -/
theorem restoreOffers_archiveOffers {ids restored : List ℕ} {instant : ℤ} {clock : ℕ → ℤ}
    (hother : ∀ o ∈ db.offers, o.deletedAt ≠ some instant) :
    SameDeletions db (restoreOffersOfRestoredEmployers
        (archiveOffersOfArchivedEmployers db ids instant clock).1
        (restored.map fun e => (e, instant)))
      ∧ OffersBack db ids restored instant (restoreOffersOfRestoredEmployers
        (archiveOffersOfArchivedEmployers db ids instant clock).1
        (restored.map fun e => (e, instant))) := by
  rw [archiveOffers_eq]
  constructor
  · refine ext_getElem? fun i => ?_
    rw [getElem?_map, getElem?_map]
    simp only [restoreOffersOfRestoredEmployers]
    rw [getElem?_rejectEach]
    cases db.applications[i]? with
    | none => rfl
    | some a =>
      simp only [Option.map_some, Option.some.injEq]
      split_ifs <;> rfl
  · intro j o hrow
    have hnow := hother o (mem_of_getElem? hrow)
    have hgoes : j ∈ recruitingOffers db ids ↔ o.employerId ∈ ids ∧ o.deletedAt = none
        ∧ (o.status = .active ∨ o.status = .partiallyFilled) := by
      rw [mem_recruitingOffers, GoesWith, hrow]
      simp
    rw [getElem?_restoreOffers]
    simp only
    rw [getElem?_updateMany, hrow]
    simp only [Option.map_some, decide_eq_true_eq, hgoes, Option.some.injEq]
    by_cases hwent : o.employerId ∈ ids ∧ o.deletedAt = none
        ∧ (o.status = .active ∨ o.status = .partiallyFilled)
    · obtain ⟨hemployer, hlive, hstatus⟩ := hwent
      by_cases hback : o.employerId ∈ restored
      · simp [hemployer, hlive, hstatus, hback]
        rw [← hlive]
      · simp [hemployer, hlive, hstatus, hback]
    · simp only [hwent, hnow, false_and, and_false, if_false]

/-- Archiving and restoring are exact, for an offer that its employer deletes as for the offers that
go with their employers, if and only if no application of theirs was deleted while waiting. -/
theorem archive_exact_iff (db : Db) :
    (∀ (id actorProfileId : ℕ) (rejectedAt now : ℤ) (db' : Db) (closed : List ℕ),
      deleteByEmployer db id actorProfileId rejectedAt now = .ok (db', closed) →
      (∀ a ∈ db.applications, a.jobOfferId = id → a.deletedAt ≠ some now) →
      (ClosedExactly db db' closed (· = id) ∧ SameDeletions db (bulkRestore db' [id])
          ∧ (bulkRestore db' [id]).offers = db.offers
        ↔ NoneDeletedWaiting db (· = id)))
    ∧ ∀ (ids restored : List ℕ) (instant : ℤ) (clock : ℕ → ℤ) (db' db'' : Db) (closed : List ℕ),
      archiveOffersOfArchivedEmployers db ids instant clock = (db', closed) →
      restoreOffersOfRestoredEmployers db' (restored.map fun e => (e, instant)) = db'' →
      (∀ o ∈ db.offers, o.deletedAt ≠ some instant) →
      (ClosedExactly db db' closed (GoesWith db ids) ∧ SameDeletions db db''
          ∧ OffersBack db ids restored instant db''
        ↔ NoneDeletedWaiting db (GoesWith db ids)) := by
  refine ⟨fun id actorProfileId rejectedAt now db' closed h hother => ?_,
    fun ids restored instant clock db' db'' closed h h' hother => ?_⟩
  · rw [closedExactly_deleteByEmployer h]
    exact and_iff_left (bulkRestore_deleteByEmployer h hother)
  · have hclosed := closedExactly_archiveOffers db ids instant clock
    have hback := @restoreOffers_archiveOffers db ids restored instant clock hother
    rw [h] at hclosed hback
    rw [← h', hclosed]
    exact and_iff_left hback

/-- A live applicant is rejected and deleted with the offer; one deleted earlier stays. -/
theorem archive_exact_one : ∃ db db' : Db, ∃ closed : List ℕ,
    deleteByEmployer db 0 7 9 10 = .ok (db', closed) ∧ ClosedExactly db db' closed (· = 0) := by
  have h : deleteByEmployer ⟨[⟨7, .active, none⟩],
      [⟨0, .viewed, none, none, none⟩, ⟨0, .rejected, some 3, some .employer, some 4⟩], []⟩ 0 7 9 10
      = .ok (⟨[⟨7, .active, some 10⟩], [⟨0, .rejected, some 9, some .autoFill, some 10⟩,
        ⟨0, .rejected, some 3, some .employer, some 4⟩], []⟩, [0]) := by decide
  have hnone : NoneDeletedWaiting ⟨[⟨7, .active, none⟩], [⟨0, .viewed, none, none, none⟩,
      ⟨0, .rejected, some 3, some .employer, some 4⟩], []⟩ (· = 0) := by
    intro i a ha _ hdeleted hwaiting
    have hmem := mem_of_getElem? ha
    simp only [mem_cons, not_mem_nil, or_false] at hmem
    rcases hmem with rfl | rfl
    · exact hdeleted rfl
    · exact absurd hwaiting (by decide)
  refine ⟨_, _, _, h, (((archive_exact_iff _).1 0 7 9 10 _ _ h ?_).mpr hnone).1⟩
  decide

/-- An applicant who was deleted while waiting is rejected and reported all the same. -/
theorem deleted_applicant_rejected : ∃ db db' : Db, deleteByEmployer db 0 7 9 10 = .ok (db', [0])
      ∧ (∀ a ∈ db.applications, a.jobOfferId = 0 → a.deletedAt = some 4)
      ∧ ¬ ClosedExactly db db' [0] (· = 0) := by
  refine ⟨⟨[⟨7, .active, none⟩], [⟨0, .pending, none, none, some 4⟩], []⟩,
    ⟨[⟨7, .active, some 10⟩], [⟨0, .rejected, some 9, some .autoFill, some 4⟩], []⟩,
    by decide, by decide, fun h => ?_⟩
  obtain ⟨a, ha, -, hlive, -⟩ := (h.mem_closed 0).mp (by decide)
  obtain rfl := Option.some.inj ha
  exact nomatch hlive

end Rabotka.Offers.Archiving
