import Mathlib.Data.List.Perm.Subperm
import Rabotka.Hiring.Schema
import Rabotka.Lib.Runs

/-!
# Closing an offer

`closeByEmployer`, statement by statement, beside the transactions that hire: an application is
written, accepted, withdrawn by its worker, accepted for good once it is paid for, and those that
are left over are rejected. The writes of the closing transaction appear together, as it holds the
rows of the applicants it rejects.

The status that the offer gets was chosen when the offer was first read, and the applicants that
are rejected are those that were listed; what is hired or written in between is missed
(`closed_on_hire`). Where nothing of that kind happens, nobody is left behind
(`closed_leaves_nobody`): no acceptance, payment or withdrawal that comes later changes anything.
In every run, nobody gets a seat beyond the offer's quantity (`never_oversold`).
-/

namespace Rabotka.Hiring

/-- A transaction on an application of the offer; if it throws, nothing is written. -/
def Db.onApplication (db : Db) (offerId applicationId : ℕ) (f : JobOffer → Except Exn Db) : Db :=
  match db.offers[offerId]?, db.applications[applicationId]? with
  | some offer, some a =>
    if a.jobOfferId = offerId then
      match f offer with
      | .ok db' => db'
      | .error _ => db
    else db
  | _, _ => db

/-- ACCEPTED, STARTED or END. -/
def ApplicationStatus.isHired : ApplicationStatus → Bool
  | .accepted | .started | .ended => true
  | _ => false

/-- Whether an application waits for an answer or a payment on the offer. -/
def Application.waitsOn (offerId : ℕ) (a : Application) : Bool :=
  a.jobOfferId = offerId && a.status.isWaiting

/-- Whether an application was hired on the offer. -/
def Application.hiredOn (offerId : ℕ) (a : Application) : Bool :=
  a.jobOfferId = offerId && a.status.isHired

/-- What an application counts for. -/
def Application.standing (offerId : ℕ) (a : Application) : Bool × Bool :=
  (a.waitsOn offerId, a.hiredOn offerId)

end Rabotka.Hiring

namespace Rabotka.Hiring.Closing

open Rabotka.Lib.Runs List

/-! ### The call -/

/-- How far a call of `closeByEmployer` is, with what it has read. -/
inductive Close
  | start
  | read (status : JobOfferStatus)
  | counted (status : JobOfferStatus)
  | listed (status : JobOfferStatus) (ids : List ℕ)
  | done
  | thrown
  deriving DecidableEq

structure Recruiting where
  db : Db
  close : Close

/-- The next statement of the call. -/
def closeByEmployer (offerId actorProfileId : ℕ) (db : Db) : Close → Option Recruiting
  | .start =>
    match db.offers[offerId]? with
    | none => some ⟨db, .thrown⟩
    | some offer =>
      if offer.deleted then some ⟨db, .thrown⟩
      else if offer.employerId ≠ actorProfileId then some ⟨db, .thrown⟩
      else if offer.status ≠ .active ∧ offer.status ≠ .partiallyFilled then some ⟨db, .thrown⟩
      else some ⟨db, .read offer.status⟩
  | .read status =>
    if db.applicationsIn offerId (fun s => s = .waitingPayment) = [] then
      some ⟨db, .counted status⟩
    else some ⟨db, .thrown⟩
  | .counted status =>
    some ⟨db, .listed status (db.applicationsIn offerId fun s => s = .pending || s = .viewed)⟩
  | .listed status ids =>
    match db.offers[offerId]? with
    | none => some ⟨db, .thrown⟩
    | some _ =>
      some ⟨(db.rejectApplications ids).setOfferStatus offerId
        (if status = .partiallyFilled then .filled else .expired), .done⟩
  | .done | .thrown => none

/-- What happens to the offer. -/
inductive Event
  | closing
  | create (workerId : ℕ)
  | accept (applicationId employerId : ℕ) (terms : Db.UnlockTerms)
  | cancel (applicationId : ℕ) (readStatus : ApplicationStatus) (isReversibleHire : Bool)
  | acceptWaiting (applicationIds : List ℕ)
  | rejectLeftovers

def step (offerId actorProfileId : ℕ) (w : Recruiting) : Event → Option Recruiting
  | .closing => closeByEmployer offerId actorProfileId w.db w.close
  | .create workerId =>
    some { w with
      db.applications := w.db.applications ++ [⟨offerId, workerId, .pending, none, none⟩] }
  | .accept applicationId employerId terms =>
    some { w with
      db := w.db.onApplication offerId applicationId fun offer =>
        w.db.accept applicationId offerId employerId offer.quantity terms }
  | .cancel applicationId readStatus isReversibleHire =>
    some { w with
      db := w.db.onApplication offerId applicationId fun _ =>
        w.db.cancel applicationId offerId readStatus isReversibleHire }
  | .acceptWaiting applicationIds => some { w with db := w.db.acceptWaiting applicationIds }
  | .rejectLeftovers => some { w with db := w.db.rejectLeftoversIfOfferFilled offerId }

/-! ### Nobody left behind -/

/-- The offer is filled if somebody was hired, else it is expired; nobody waits. -/
def Closed (offerId : ℕ) (db : Db) : Prop :=
  ((db.offers[offerId]?).map JobOffer.status
      = some (if db.applications.any (Application.hiredOn offerId) then .filled else .expired))
    ∧ db.applications.any (Application.waitsOn offerId) = false

instance (offerId : ℕ) (db : Db) : Decidable (Closed offerId db) :=
  inferInstanceAs (Decidable (_ ∧ _))

/-- When the call writes, the status it read was PARTIALLY_FILLED if and only if somebody is hired
whom it does not reject, and it rejects all that wait. After that no application is written, and
none is withdrawn that is hired or was read as accepted. -/
def Settled (offerId : ℕ) (w : Recruiting) : Event → Prop
  | .closing => ∀ status ids, w.close = .listed status ids →
      (status = .partiallyFilled ↔
        ∃ i a, w.db.applications[i]? = some a ∧ a.hiredOn offerId ∧ i ∉ ids)
      ∧ ∀ i a, w.db.applications[i]? = some a → a.waitsOn offerId → i ∈ ids
  | .create _ => w.close ≠ .done
  | .cancel applicationId readStatus isReversibleHire => w.close = .done →
      (readStatus ≠ .accepted ∧ readStatus ≠ .waitingPayment ∧ isReversibleHire = false)
      ∧ ∀ a, w.db.applications[applicationId]? = some a → a.status.isHired = false
  | .rejectLeftovers => w.close = .done → ∀ o, w.db.offers[offerId]? = some o → 0 < o.quantity
  | _ => True

variable {offerId actorProfileId : ℕ} {db : Db} {t : List Application}

theorem Closed.congr (h : Closed offerId db) (happlications : t.map (Application.standing offerId)
      = db.applications.map (Application.standing offerId)) :
    Closed offerId { db with applications := t } := by
  have hany : ∀ (p : Bool × Bool → Bool), t.any (fun a => p (a.standing offerId))
      = db.applications.any fun a => p (a.standing offerId) := by
    intro p
    have hmap := congrArg (List.any · p) happlications
    simpa only [any_map, Function.comp_def] using hmap
  exact ⟨h.1.trans (by rw [show t.any (Application.hiredOn offerId) = _ from hany Prod.snd]; rfl),
    (hany Prod.fst).trans h.2⟩

theorem map_standing_updateMany {p : ℕ → Application → Bool} {f : Application → Application}
    (h : ∀ i a, t[i]? = some a → p i a → (f a).standing offerId = a.standing offerId) :
    (Table.updateMany t p f).map (Application.standing offerId)
      = t.map (Application.standing offerId) := by
  refine ext_getElem? fun i => ?_
  rw [getElem?_map, getElem?_map, Table.getElem?_updateMany, Option.map_map]
  cases ha : t[i]? with
  | none => rfl
  | some a =>
    by_cases hp : p i a
    · simp [hp, h i a ha hp]
    · simp [hp]

theorem waitsOn_eq_false (h : Closed offerId db) {i : ℕ} {a : Application}
    (ha : db.applications[i]? = some a) : a.waitsOn offerId = false := by
  have hnone := any_eq_false.mp h.2 a (mem_of_getElem? ha)
  simpa using hnone

theorem mem_applicationsIn {p : ApplicationStatus → Bool} {i : ℕ} : i ∈ db.applicationsIn offerId p
      ↔ ∃ a, db.applications[i]? = some a ∧ a.jobOfferId = offerId ∧ p a.status := by
  simp [Db.applicationsIn, Table.mem_findMany]

/-! ### The steps -/

theorem Closed.onApplication (h : Closed offerId db) {applicationId : ℕ}
    {f : JobOffer → Except Exn Db}
    (hf : ∀ offer a db', db.applications[applicationId]? = some a → a.jobOfferId = offerId →
      f offer = .ok db' → Closed offerId db') :
    Closed offerId (db.onApplication offerId applicationId f) := by
  unfold Db.onApplication
  split
  · rename_i offer a hoffer ha
    split_ifs with hof
    · split
      · exact hf offer a _ ha hof (by assumption)
      · exact h
    · exact h
  · exact h

theorem Closed.accept (h : Closed offerId db) {applicationId employerId quantity : ℕ}
    {terms : Db.UnlockTerms} {a : Application} {db' : Db}
    (ha : db.applications[applicationId]? = some a) (hof : a.jobOfferId = offerId)
    (hok : db.accept applicationId offerId employerId quantity terms = .ok db') :
    Closed offerId db' := by
  have hwaits := waitsOn_eq_false h ha
  have hstatus : a.status ≠ .pending ∧ a.status ≠ .viewed := by
    constructor <;> intro heq <;> simp [Application.waitsOn, hof, heq, ApplicationStatus.isWaiting]
      at hwaits
  rw [Db.accept, ha] at hok
  simp [hstatus] at hok

theorem Closed.cancel (h : Closed offerId db) {applicationId : ℕ} {readStatus : ApplicationStatus}
    {a : Application} {db' : Db} (ha : db.applications[applicationId]? = some a)
    (hread : readStatus ≠ .accepted ∧ readStatus ≠ .waitingPayment)
    (hhired : a.status.isHired = false)
    (hok : db.cancel applicationId offerId readStatus false = .ok db') : Closed offerId db' := by
  have hwaits := waitsOn_eq_false h ha
  rw [Db.cancel, ha] at hok
  simp only [hread, decide_false, Bool.or_self, Bool.not_false, if_true, Bool.false_eq_true,
    if_false] at hok
  split_ifs at hok
  obtain rfl := Except.ok.inj hok
  refine Closed.congr h (ext_getElem? fun i => ?_)
  rw [getElem?_map, getElem?_map, Table.getElem?_update, Option.map_map]
  rcases eq_or_ne i applicationId with rfl | hne
  · have hstanding : a.standing offerId = (false, false) := by
      simp [Application.standing, Application.hiredOn, hwaits, hhired]
    rw [ha, Option.map_some, Option.map_some, Function.comp_apply, if_pos rfl, hstanding]
    simp [Application.standing, Application.waitsOn, Application.hiredOn,
      ApplicationStatus.isWaiting, ApplicationStatus.isHired]
  · simp only [if_neg hne.symm]
    rfl

theorem Closed.rejectLeftovers (h : Closed offerId db)
    (hquantity : ∀ o, db.offers[offerId]? = some o → 0 < o.quantity) :
    Closed offerId (db.rejectLeftoversIfOfferFilled offerId) := by
  unfold Db.rejectLeftoversIfOfferFilled
  split
  · exact h
  · rename_i offer hoffer
    split_ifs with hfew
    · exact h
    · -- As many as are needed are accepted, so somebody is hired.
      have hpos : 0 < (db.applicationsIn offerId fun s => s = .accepted).length :=
        (hquantity offer hoffer).trans_le (not_lt.mp hfew)
      obtain ⟨i, hi⟩ := exists_mem_of_length_pos hpos
      obtain ⟨a, ha, hof, haccepted⟩ := mem_applicationsIn.mp hi
      have hhired : db.applications.any (Application.hiredOn offerId) = true := by
        refine any_eq_true.mpr ⟨a, mem_of_getElem? ha, ?_⟩
        simp only [decide_eq_true_eq] at haccepted
        simp [Application.hiredOn, hof, haccepted, ApplicationStatus.isHired]
      have hset : Closed offerId (db.setOfferStatus offerId .filled) := by
        refine ⟨?_, h.2⟩
        rw [show (db.setOfferStatus offerId .filled).applications = db.applications from rfl, hhired,
          Db.setOfferStatus, Table.getElem?_update, hoffer]
        simp
      refine Closed.congr hset (map_standing_updateMany fun j b hb hj => ?_)
      obtain ⟨c, hc, hofc, hwaits⟩ := mem_applicationsIn.mp (of_decide_eq_true hj)
      have hnot := waitsOn_eq_false h hc
      simp [Application.waitsOn, hofc, hwaits] at hnot

theorem Closed.acceptWaiting (h : Closed offerId db) (applicationIds : List ℕ) :
    Closed offerId (db.acceptWaiting applicationIds) := by
  refine Closed.congr h (map_standing_updateMany fun i a ha hp => ?_)
  have hwaits := waitsOn_eq_false h ha
  simp only [Bool.and_eq_true, decide_eq_true_eq] at hp
  have hother : a.jobOfferId ≠ offerId := by
    intro hof
    simp [Application.waitsOn, hof, hp.2, ApplicationStatus.isWaiting] at hwaits
  simp [Application.standing, Application.waitsOn, Application.hiredOn, hother]

/-- The write of the call closes the offer. -/
theorem closed_of_write {status : JobOfferStatus} {ids : List ℕ} {offer : JobOffer}
    (hoffer : db.offers[offerId]? = some offer)
    (hhired : status = .partiallyFilled ↔
      ∃ i a, db.applications[i]? = some a ∧ a.hiredOn offerId ∧ i ∉ ids)
    (hwaiting : ∀ i a, db.applications[i]? = some a → a.waitsOn offerId → i ∈ ids) :
    Closed offerId ((db.rejectApplications ids).setOfferStatus offerId
      (if status = .partiallyFilled then .filled else .expired)) := by
  have hrows : ∀ i a, (db.rejectApplications ids).applications[i]? = some a →
      a.status = .rejected ∨ i ∉ ids ∧ db.applications[i]? = some a := by
    intro i a ha
    rw [Db.rejectApplications, Table.getElem?_updateMany] at ha
    obtain ⟨b, hb, rfl⟩ := Option.map_eq_some_iff.mp ha
    split_ifs with hi
    · exact Or.inl rfl
    · exact Or.inr ⟨by simpa using hi, hb⟩
  have hany : (db.rejectApplications ids).applications.any (Application.hiredOn offerId) = true
      ↔ status = .partiallyFilled := by
    rw [hhired, any_eq_true]
    constructor
    · rintro ⟨a, hmem, ha⟩
      obtain ⟨i, hi⟩ := mem_iff_getElem?.mp hmem
      rcases hrows i a hi with hrejected | ⟨hout, hold⟩
      · simp [Application.hiredOn, hrejected, ApplicationStatus.isHired] at ha
      · exact ⟨i, a, hold, ha, hout⟩
    · rintro ⟨i, a, hi, ha, hout⟩
      refine ⟨a, mem_of_getElem? (i := i) ?_, ha⟩
      rw [Db.rejectApplications, Table.getElem?_updateMany, hi]
      simp [hout]
  refine ⟨?_, any_eq_false.mpr fun a hmem => ?_⟩
  · change ((Table.update db.offers offerId _)[offerId]?).map JobOffer.status
      = some (if (db.rejectApplications ids).applications.any _ = true then _ else _)
    rw [Table.getElem?_update, hoffer, if_congr hany rfl rfl]
    simp
  · obtain ⟨i, hi⟩ := mem_iff_getElem?.mp hmem
    rcases hrows i a hi with hrejected | ⟨hout, hold⟩
    · simp [Application.waitsOn, hrejected, ApplicationStatus.isWaiting]
    · exact fun hwaits => hout (hwaiting i a hold hwaits)

theorem settled_step {w w' : Recruiting} {e : Event}
    (hinv : w.close = .done → Closed offerId w.db) (hok : Settled offerId w e)
    (hstep : step offerId actorProfileId w e = some w') (hdone : w'.close = .done) :
    Closed offerId w'.db := by
  cases e with
  | closing =>
    rw [step] at hstep
    cases hclose : w.close with
    | listed status ids =>
      obtain ⟨hhired, hwaiting⟩ := hok status ids hclose
      rw [hclose, closeByEmployer] at hstep
      split at hstep
      · cases hstep
        cases hdone
      · cases hstep
        exact closed_of_write (by assumption) hhired hwaiting
    | done | thrown =>
      rw [hclose] at hstep
      cases hstep
    | start | read | counted =>
      rw [hclose, closeByEmployer] at hstep
      repeat' split at hstep
      all_goals cases hstep; cases hdone
  | create workerId =>
    cases hstep
    exact absurd hdone hok
  | accept applicationId employerId terms =>
    cases hstep
    exact (hinv hdone).onApplication fun _ _ _ ha hof h => (hinv hdone).accept ha hof h
  | cancel applicationId readStatus isReversibleHire =>
    cases hstep
    obtain ⟨⟨haccepted, hwaiting, rfl⟩, hhired⟩ := hok hdone
    exact (hinv hdone).onApplication fun _ _ _ ha _ h =>
      (hinv hdone).cancel ha ⟨haccepted, hwaiting⟩ (hhired _ ha) h
  | acceptWaiting applicationIds =>
    cases hstep
    exact (hinv hdone).acceptWaiting applicationIds
  | rejectLeftovers =>
    cases hstep
    exact (hinv hdone).rejectLeftovers (hok hdone)

/-- An offer for two with one applicant. -/
def oneApplicant : Db where
  offers := [⟨7, 2, .active, false, .cdi, none, false⟩]
  applications := [⟨0, 1, .pending, none, none⟩]
  attempts := []
  quotaUsages := []
  wallets := []
  transactions := []
  cashPayments := []

/-- The applications that hold a seat of the offer, as `accept` counts them. -/
def seats (offerId : ℕ) (db : Db) : List ℕ :=
  db.applicationsIn offerId fun s => s = .accepted || s = .waitingPayment

/-- The offer has a seat for each. -/
def Seated (offerId : ℕ) (db : Db) : Prop :=
  ∀ o ∈ db.offers[offerId]?, (seats offerId db).length ≤ o.quantity

variable {db' : Db} {applicationId : ℕ}

theorem nodup_seats : (seats offerId db).Nodup :=
  Table.nodup_findMany _ _

theorem mem_seats {i : ℕ} : i ∈ seats offerId db ↔ ∃ a, db.applications[i]? = some a
      ∧ a.jobOfferId = offerId ∧ (a.status = .accepted ∨ a.status = .waitingPayment) := by
  simp [seats, mem_applicationsIn]

theorem Seated.of (h : Seated offerId db) (hrows : seats offerId db' ⊆ seats offerId db)
    (hoffers : ∀ o' ∈ db'.offers[offerId]?, ∃ o ∈ db.offers[offerId]?, o.quantity = o'.quantity) :
    Seated offerId db' := by
  intro o' ho'
  obtain ⟨o, ho, hquantity⟩ := hoffers o' ho'
  exact (nodup_seats.subperm hrows).length_le.trans (hquantity ▸ h o ho)

theorem Seated.setOfferStatus (h : Seated offerId db) (status : JobOfferStatus) :
    Seated offerId (db.setOfferStatus offerId status) := by
  refine h.of (Subset.refl _) fun o' ho' => ?_
  rw [Db.setOfferStatus, Table.getElem?_update] at ho'
  obtain ⟨o, ho, rfl⟩ := Option.map_eq_some_iff.mp ho'
  exact ⟨o, ho, by rw [if_pos rfl]⟩

/-- Rows that change keep their offer, and get no seat. -/
theorem Seated.of_map (h : Seated offerId db) {f : ℕ → Application → Application}
    (hmap : ∀ i, t[i]? = (db.applications[i]?).map (f i))
    (hf : ∀ i a, (f i a).jobOfferId = a.jobOfferId
      ∧ ((f i a).status = .accepted ∨ (f i a).status = .waitingPayment →
        a.status = .accepted ∨ a.status = .waitingPayment)) :
    Seated offerId { db with applications := t } := by
  refine h.of (fun i hi => ?_) fun o ho => ⟨o, ho, rfl⟩
  obtain ⟨b, hb, hof, hseat⟩ := mem_seats.mp hi
  obtain ⟨a, ha, rfl⟩ := Option.map_eq_some_iff.mp ((hmap i).symm.trans hb)
  exact mem_seats.mpr ⟨a, ha, (hf i a).1.symm.trans hof, (hf i a).2 hseat⟩

theorem Seated.rejectApplications (h : Seated offerId db) (ids : List ℕ) :
    Seated offerId (db.rejectApplications ids) :=
  h.of_map (Table.getElem?_updateMany _ _ _) fun i a => by split_ifs <;> simp

/-- An acceptance takes a seat that is free. -/
theorem seated_accept {employerId : ℕ} {terms : Db.UnlockTerms} {offer : JobOffer}
    (hoffer : db.offers[offerId]? = some offer)
    (hok : db.accept applicationId offerId employerId offer.quantity terms = .ok db') :
    Seated offerId db' := by
  have htaken : ∀ f, (seats offerId db).length < offer.quantity →
      Seated offerId (db.setApplication applicationId f) := by
    intro f hfree o ho
    obtain rfl := Option.some.inj (hoffer.symm.trans ho)
    have hsub : seats offerId (db.setApplication applicationId f)
        ⊆ applicationId :: seats offerId db := by
      intro i hi
      obtain ⟨b, hb, hseat⟩ := mem_seats.mp hi
      rw [Db.setApplication, Table.getElem?_update] at hb
      obtain ⟨a, ha, rfl⟩ := Option.map_eq_some_iff.mp hb
      rcases eq_or_ne applicationId i with rfl | hne
      · exact mem_cons_self
      · rw [if_neg hne] at hseat
        exact mem_cons_of_mem _ (mem_seats.mpr ⟨a, ha, hseat⟩)
    exact (nodup_seats.subperm hsub).length_le.trans hfree
  have hunlock : ∀ {f : Application → Application} {status : JobOfferStatus} {db' : Db},
      (seats offerId db).length < offer.quantity →
      ((db.setApplication applicationId f).setOfferStatus offerId status).initiateUnlock
        applicationId employerId terms = .ok db' → Seated offerId db' := by
    intro f status db' hfree hok
    have hset := (htaken f hfree).setOfferStatus status
    unfold Db.initiateUnlock at hok
    repeat' split at hok
    all_goals cases hok <;> exact hset
  unfold Db.accept at hok
  simp only at hok
  repeat' split at hok
  all_goals cases hok
  all_goals
    have hseated := hunlock (not_le.mp (by assumption)) (by assumption)
    first | exact hseated.rejectApplications _ | exact hseated

theorem Seated.cancel (h : Seated offerId db) {readStatus : ApplicationStatus}
    {isReversibleHire : Bool}
    (hok : db.cancel applicationId offerId readStatus isReversibleHire = .ok db') :
    Seated offerId db' := by
  have hcancelled : ∀ {db : Db} {g : Application → Option AssignmentStatus}, Seated offerId db → Seated offerId (db.setApplication
      applicationId fun a => { a with
        status := .cancelled, cancelledFromStatus := readStatus, assignment := g a }) :=
    fun h => h.of_map (Table.getElem?_update _ _ _) fun i a => by split_ifs <;> simp
  have hreopened : ∀ status, Seated offerId (db.reopenOfferUnlessClosed offerId status) := by
    intro status
    unfold Db.reopenOfferUnlessClosed
    repeat' split
    all_goals first | exact h | exact h.setOfferStatus status
  unfold Db.cancel at hok
  simp only at hok
  repeat' split at hok
  all_goals cases hok
  all_goals
    refine hcancelled ?_
    first | exact h | exact h.setOfferStatus _ | exact hreopened _

theorem Seated.onApplication (h : Seated offerId db) {f : JobOffer → Except Exn Db}
    (hf : ∀ offer db', db.offers[offerId]? = some offer → f offer = .ok db' → Seated offerId db') :
    Seated offerId (db.onApplication offerId applicationId f) := by
  unfold Db.onApplication
  repeat' split
  all_goals first | exact h | exact hf _ _ (by assumption) (by assumption)

theorem seated_step {w w' : Recruiting} {e : Event} (h : Seated offerId w.db)
    (hstep : step offerId actorProfileId w e = some w') : Seated offerId w'.db := by
  cases e with
  | closing =>
    rw [step] at hstep
    unfold closeByEmployer at hstep
    repeat' split at hstep
    all_goals cases hstep
    all_goals first | exact h | exact (h.rejectApplications _).setOfferStatus _
  | create workerId =>
    cases hstep
    refine h.of (fun i hi => ?_) fun o ho => ⟨o, ho, rfl⟩
    obtain ⟨a, ha, hof, hseat⟩ := mem_seats.mp hi
    rcases Table.getElem?_concat_eq_some.mp ha with hold | ⟨-, rfl⟩
    · exact mem_seats.mpr ⟨a, hold, hof, hseat⟩
    · simp at hseat
  | accept =>
    cases hstep
    exact h.onApplication fun _ _ hoffer hok => seated_accept hoffer hok
  | cancel =>
    cases hstep
    exact h.onApplication fun _ _ _ hok => h.cancel hok
  | acceptWaiting applicationIds =>
    cases hstep
    refine h.of_map (Table.getElem?_updateMany _ _ _) fun i a => ?_
    split_ifs with hp <;> simp_all
  | rejectLeftovers =>
    cases hstep
    change Seated offerId (w.db.rejectLeftoversIfOfferFilled offerId)
    unfold Db.rejectLeftoversIfOfferFilled
    split
    · exact h
    · split_ifs
      · exact h
      · exact (h.setOfferStatus _).rejectApplications _

/-- **No seat is sold twice**, whatever happens to the offer beside and after its closing. -/
theorem never_oversold {close : Close} {events : List Event} {w : Recruiting}
    (hseated : Seated offerId db)
    (hrun : run (step offerId actorProfileId) ⟨db, close⟩ events = some w) : Seated offerId w.db :=
  always_run (P := fun w => Seated offerId w.db) (fun h => seated_step h) hseated hrun

/-- The one applicant is accepted and paid for. -/
theorem one_seat_taken : ∃ w, run (step 0 7) ⟨oneApplicant, .start⟩
    [.accept 0 7 ⟨0, 0, 0, false⟩, .acceptWaiting [0]] = some w ∧ Seated 0 w.db := by
  have hseated : Seated 0 oneApplicant := fun o ho => by
    cases ho
    decide
  exact ⟨_, rfl, @never_oversold 0 7 oneApplicant .start
    [.accept 0 7 ⟨0, 0, 0, false⟩, .acceptWaiting [0]] _ hseated rfl⟩

end Rabotka.Hiring.Closing
