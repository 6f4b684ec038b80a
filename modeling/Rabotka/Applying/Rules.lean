import Rabotka.Lib.Trace
import Rabotka.Applying.Applications

/-!
# What a call has read of the pair and of the day

An application is inserted after two reads: the rows of the pair, and how many applications the
worker has made in the day. In orderly runs the rule admits nothing because of what is archived,
what was inserted since the two reads does not change what they have said, and an application is
cancelled once.
-/

namespace Rabotka.Applying

open Async Trace Contract List
open Publishing (Exn)

/-- A step of this service. -/
abbrev Step := Entry World Resp

/-- The steps of a run. -/
abbrev Log := Trace World Resp

/-- The table with its steps. -/
abbrev State := Traced World Resp

variable {s : Setting} {i jobOfferId workerId : ℕ} {w : World} {x : State} {e : Step} {l : Log}

/-! ### Orderly runs -/

/-- Archived or not, the application has ended, and not by its worker's choice. -/
def Application.free (r : Application) : Bool :=
  r.status = .cancelled && r.cancelledBy ≠ some .worker

/-- How many rows there were when the step read those of a pair. -/
def pairRead : Step → Option ℕ
  | ⟨_, w, .findPair _ _, _⟩ => some w.applications.length
  | _ => none

/-- How many rows there were when the step counted those of the day, and what it counted. -/
def dayRead : Step → Option (ℕ × ℕ)
  | ⟨_, w, .countToday _ _, n⟩ => some (w.applications.length, n)
  | _ => none

/-- Of the pair, nothing inserted since the process has read its rows is cancelled by the worker. -/
def pairStands (w : World) (l : Log) (jobOfferId workerId : ℕ) : Bool :=
  (l.findSome? pairRead).all fun k => (w.applications.drop k).all fun r =>
    !(r.isOf jobOfferId workerId && r.cancelledBy = some .worker)

/-- The worker's application is of this day. -/
def Application.ofDay (workerId : ℕ) (day : ℤ) (r : Application) : Bool :=
  r.workerId = workerId && startOfBusinessDay r.createdAt = day

/-- What was inserted for the worker today since the process has counted fits into what was left. -/
def dayStands (s : Setting) (w : World) (l : Log) (workerId : ℕ) : Bool :=
  (l.findSome? dayRead).all fun z => z.2 + (w.applications.drop z.1).countP
    (Application.ofDay workerId (startOfBusinessDay w.now)) < s.maxDailyApplications

/-- The rule admits an application, and a day has room for one, archived applications apart or
not; what was inserted since does not change this; and an application is cancelled once. -/
def orderly (s : Setting) : Guard State Cmd Request Env
  | x, .step _ (.findPair jobOfferId workerId) _ =>
    reapplyDecision (x.1.pair jobOfferId workerId) ≠ .allow ||
      (x.1.pair jobOfferId workerId).all Application.free
  | x, .step _ (.countToday workerId since) _ =>
    s.maxDailyApplications ≤ x.1.applications.countP (Application.countedToday workerId since) ||
      x.1.applications.all fun r => !(r.workerId = workerId && since ≤ r.createdAt && r.deleted)
  | x, .step i (.insert jobOfferId workerId) _ =>
    pairStands x.1 (own x.2 i) jobOfferId workerId && dayStands s x.1 (own x.2 i) workerId
  | x, .step _ (.cancel id _) _ =>
    (x.1.applications[id]?).all fun r => !r.indexed || r.cancelledBy = none
  | _, _ => true

/-! ### What a call knows -/

/-- The command leaves the table as it is. -/
def Cmd.isRead : Cmd → Bool
  | .insert _ _ | .cancel _ _ | .reject _ | .progress _ _ | .archive _ | .restore _
  | .elapse _ => false
  | _ => true

/-- The process has read the rows of the pair: each is free. -/
def PairRead (jobOfferId workerId : ℕ) (l : Log) : Prop :=
  ∃ e ∈ l, l.findSome? pairRead = some e.store.applications.length ∧
    ∀ r ∈ e.store.pair jobOfferId workerId, r.free = true

/-- The process has counted the applications of the day: there is room for one more. -/
def DayRead (s : Setting) (workerId : ℕ) (l : Log) : Prop :=
  ∃ e ∈ l, ∃ n, ∃ z ∈ l, l.findSome? dayRead = some (e.store.applications.length, n) ∧
    n < s.maxDailyApplications ∧ e.store.applications.countP (fun r =>
      r.workerId = workerId && startOfBusinessDay z.store.now ≤ r.createdAt) = n

/-- The process has only read. -/
def Reading (l : Log) : Prop := ∀ e ∈ l, e.cmd.isRead = true

/-- When process `i` may issue a command. -/
def Pre (s : Setting) (i : ℕ) : Cmd → State → Prop
  | .insert jobOfferId workerId, x => Reading (own x.2 i) ∧
      PairRead jobOfferId workerId (own x.2 i) ∧ DayRead s workerId (own x.2 i)
  | _, _ => True

/-- What the operations keep to. -/
def contract (s : Setting) : Contract (service s) where
  inv _ := True
  pre := Pre s
  sound _ _ _ := trivial

/-- From `P` the program leads to `Q`. The assertions are about the steps of the process. -/
abbrev Spec (s : Setting) {α : Type} (i : ℕ) (P : Log → Prop) (op : Prog α) (Q : α → Log → Prop) :
    Prop :=
  ((contract s).disciplineUnder (orderly s)).Triple i (Own i P) op (fun a => Own i (Q a))
    fun _ _ => True

variable {P : Log → Prop}

theorem call_spec {c : Cmd} {Q : Resp c → Log → Prop}
    (hpre : ∀ x : State, P (own x.2 i) → Pre s i c x)
    (hstep : ∀ (x : State) (ε : Env) (l : Log), orderly s x (.step i c ε) → P l →
      Q (exec s x.1 ε c).2 (⟨i, x.1, c, (exec s x.1 ε c).2⟩ :: l)) :
    Spec s i P (issue c) Q := by
  refine Discipline.Triple.post_mono (Contract.triple_own (X := fun _ _ => True)
    (fun x _ h => hpre x h) (fun x ε w r _ h hg hexec => ?_) fun _ _ _ _ => trivial)
    (fun _ _ _ h => h) fun _ _ _ _ => trivial
  obtain ⟨rfl, rfl⟩ := pair_inj hexec
  exact hstep x ε _ hg h

/-- A call of which nothing is asked, and that takes nothing away from what is known. -/
theorem plain_spec {c : Cmd} (hpre : ∀ x : State, Pre s i c x)
    (hP : ∀ (w : World) (r : Resp c) (l : Log), P l → P (⟨i, w, c, r⟩ :: l)) :
    Spec s i P (issue c) fun _ => P :=
  call_spec (fun x _ => hpre x) fun x _ l _ h => hP x.1 _ l h

theorem refuse_spec {α : Type} {message : String} {Q : α → Log → Prop} :
    Spec s i P (refuse message) Q := .fail fun _ _ _ => trivial

theorem Reading.cons (h : Reading l) (he : e.cmd.isRead = true) : Reading (e :: l) := by
  intro z hz
  rcases mem_cons.1 hz with rfl | hz
  · exact he
  · exact h z hz

theorem PairRead.cons (h : PairRead jobOfferId workerId l) (he : pairRead e = none) :
    PairRead jobOfferId workerId (e :: l) := by
  obtain ⟨z, hz, hlast, hfree⟩ := h
  refine ⟨z, mem_cons_of_mem _ hz, ?_, hfree⟩
  rwa [findSome?_cons, he]

/-! ### The calls keep to it -/

/-- A read that is neither of the two. -/
theorem read_spec {c : Cmd} (hc : c.isRead = true)
    (hP : ∀ (w : World) (r : Resp c) (l : Log), P l → P (⟨i, w, c, r⟩ :: l)) :
    Spec s i (fun l => Reading l ∧ P l) (issue c) fun _ l => Reading l ∧ P l := by
  refine plain_spec (fun x => ?_) fun w r l h => ⟨h.1.cons hc, hP w r l h.2⟩
  cases c with
  | insert jobOfferId workerId => cases hc
  | _ => trivial

theorem assertKycVerified_spec {status : Publishing.VerificationStatus} :
    Spec s i P (assertKycVerified status) fun _ => P := by
  cases status with
  | verified => exact .ret fun _ _ h => h
  | pending | rejected => exact refuse_spec

theorem assertOpen_spec {jobOffer : Option Offer} {worker : Option Worker} :
    Spec s i P (assertOpen jobOffer worker workerId) fun _ => P := by
  unfold assertOpen
  split
  · exact refuse_spec
  · exact refuse_spec
  · split
    · exact refuse_spec
    · split
      · exact refuse_spec
      · refine .bind assertKycVerified_spec fun _ => ?_
        split
        · exact refuse_spec
        · split
          · exact refuse_spec
          · exact .ret fun _ _ h => h

theorem assertNoPenalty_spec : Spec s i Reading (assertNoPenalty workerId) fun _ => Reading := by
  refine .bind (plain_spec (c := .countUnpaidPenalties workerId) (fun _ => trivial)
    fun _ _ _ h => h.cons rfl) fun unpaid => ?_
  dsimp only
  split
  · refine .bind (plain_spec (c := .getPenaltyHardBlockDays) (fun _ => trivial)
      fun _ _ _ h => h.cons rfl) fun days => ?_
    refine .bind (plain_spec (c := .countOldPenalties workerId) (fun _ => trivial)
      fun _ _ _ h => h.cons rfl) fun old => ?_
    dsimp only
    split
    · exact refuse_spec
    · exact refuse_spec
  · exact .ret fun _ _ h => h

theorem assertMayReapply_spec : Spec s i Reading (assertMayReapply jobOfferId workerId)
    fun _ l => Reading l ∧ PairRead jobOfferId workerId l := by
  refine .bind (R := fun rows => Own i fun l => Reading l ∧
    (reapplyDecision rows = .allow → PairRead jobOfferId workerId l))
    (call_spec (c := .findPair jobOfferId workerId) (fun _ _ => trivial) fun x ε l hg h => ?_)
    fun rows => ?_
  · refine ⟨h.cons rfl, fun hallow => ⟨_, mem_cons_self, rfl, fun r hr => ?_⟩⟩
    simp only [orderly, Bool.or_eq_true, decide_eq_true_eq] at hg
    exact all_eq_true.1 (hg.resolve_left fun hne => hne hallow) r hr
  · split
    · exact refuse_spec
    · exact refuse_spec
    · rename_i hallow
      exact .ret fun _ _ h => ⟨h.1, h.2 hallow⟩

/-- Where none of the day is archived, all of the day are counted. -/
theorem countP_countedToday {since : ℤ} (h : (w.applications.all fun r =>
      !(r.workerId = workerId && since ≤ r.createdAt && r.deleted)) = true) :
    w.applications.countP (Application.countedToday workerId since) =
      w.applications.countP fun r => r.workerId = workerId && since ≤ r.createdAt := by
  refine countP_congr fun r hr => ?_
  have hnot := all_eq_true.1 h r hr
  cases hdeleted : r.deleted with
  | false => simp [Application.countedToday, hdeleted]
  | true =>
    simp only [hdeleted, Bool.and_true, Bool.not_eq_true'] at hnot
    simp [Application.countedToday, hdeleted, hnot]

theorem assertUnderDailyLimit_spec : Spec s i (fun l => Reading l ∧ PairRead jobOfferId workerId l)
      (assertUnderDailyLimit workerId s.maxDailyApplications)
      fun _ l => Reading l ∧ PairRead jobOfferId workerId l ∧ DayRead s workerId l := by
  refine .bind (R := fun now => Own i fun l => (Reading l ∧ PairRead jobOfferId workerId l) ∧
    ∃ z ∈ l, now = z.store.now) (call_spec (c := .dateNow) (fun _ _ => trivial)
      fun x ε l _ h => ⟨⟨h.1.cons rfl, h.2.cons rfl⟩, _, mem_cons_self, rfl⟩) fun now => ?_
  refine .bind (R := fun n => Own i fun l => (Reading l ∧ PairRead jobOfferId workerId l) ∧
    (n < s.maxDailyApplications → DayRead s workerId l))
    (call_spec (c := .countToday workerId (startOfBusinessDay now)) (fun _ _ => trivial)
      fun x ε l hg h => ?_) fun n => ?_
  · obtain ⟨⟨hreading, hpair⟩, z, hz, rfl⟩ := h
    refine ⟨⟨hreading.cons rfl, hpair.cons rfl⟩, fun hn => ?_⟩
    simp only [orderly, Bool.or_eq_true, decide_eq_true_eq] at hg
    refine ⟨_, mem_cons_self, _, z, mem_cons_of_mem _ hz, rfl, hn, ?_⟩
    exact (countP_countedToday (hg.resolve_left (not_le.2 hn))).symm
  · dsimp only
    split
    · exact refuse_spec
    · rename_i hn
      exact .ret fun _ _ h => ⟨h.1.1, h.1.2, h.2 (not_le.1 hn)⟩

theorem getFees_spec (hP : ∀ (w : World) (r : ℕ) (l : Log), P l → P (⟨i, w, .getFees, r⟩ :: l)) :
    Spec s i P (issue .getFees) fun n l => n = s.maxDailyApplications ∧ P l :=
  call_spec (c := .getFees) (fun _ _ => trivial) fun x _ l _ h => ⟨rfl, hP x.1 _ l h⟩

theorem create_spec : Spec s i Reading (create jobOfferId workerId) fun _ _ => True := by
  refine .bind (plain_spec (c := .findOffer jobOfferId) (fun _ => trivial)
    fun _ _ _ h => h.cons rfl) fun jobOffer => ?_
  refine .bind (plain_spec (c := .findWorker workerId) (fun _ => trivial)
    fun _ _ _ h => h.cons rfl) fun worker => ?_
  refine .bind assertOpen_spec fun _ => ?_
  refine .bind assertNoPenalty_spec fun _ => ?_
  refine .bind assertMayReapply_spec fun _ => ?_
  refine .bind (getFees_spec fun _ _ _ h => ⟨h.1.cons rfl, h.2.cons rfl⟩) fun limit => ?_
  rintro x hx ⟨rfl, hknown⟩
  refine (?_ : Spec s i (fun l => Reading l ∧ PairRead jobOfferId workerId l) _ _) x hx hknown
  refine .bind (read_spec (c := .checkAnswers jobOfferId) rfl fun _ _ _ h => h.cons rfl)
    fun refused => ?_
  split
  · exact refuse_spec
  · refine .bind assertUnderDailyLimit_spec fun _ => ?_
    refine .bind (R := fun _ => Own i fun _ => True) (call_spec (c := .insert jobOfferId workerId)
      (fun _ h => h) fun _ _ _ _ _ => trivial) fun inserted => ?_
    split
    · exact .ret fun _ _ h => h
    · exact refuse_spec
    · exact refuse_spec

/-- A call of which nothing is asked. -/
theorem free_spec {c : Cmd} (hpre : ∀ x : State, Pre s i c x) :
    Spec s i (fun _ => True) (issue c) fun _ _ => True :=
  plain_spec hpre fun _ _ _ h => h

theorem cancel_spec {applicationId : ℕ} :
    Spec s i (fun _ => True) (cancel applicationId workerId) fun _ _ => True := by
  refine .bind (free_spec (c := .findApplication applicationId) fun _ => trivial) fun found => ?_
  split
  · exact refuse_spec
  · split
    · exact refuse_spec
    · split
      · exact refuse_spec
      · refine .bind (free_spec (c := .dateNow) fun _ => trivial) fun now => ?_
        dsimp only
        split
        · exact refuse_spec
        · refine .bind (free_spec (c := .getFees) fun _ => trivial) fun _ => ?_
          refine .bind (free_spec (c := .cancel applicationId .worker) fun _ => trivial)
            fun done => ?_
          split
          · exact .ret fun _ _ h => h
          · exact refuse_spec

theorem cancelAcceptedByEmployer_spec {applicationId employerId : ℕ} :
    Spec s i (fun _ => True) (cancelAcceptedByEmployer applicationId employerId)
      fun _ _ => True := by
  refine .bind (free_spec (c := .findApplication applicationId) fun _ => trivial) fun found => ?_
  split
  · exact refuse_spec
  · split
    · exact refuse_spec
    · split
      · exact refuse_spec
      · refine .bind (free_spec (c := .cancel applicationId .employer) fun _ => trivial)
          fun done => ?_
        split
        · exact .ret fun _ _ h => h
        · exact refuse_spec

theorem reject_spec {applicationId employerId : ℕ} :
    Spec s i (fun _ => True) (reject applicationId employerId) fun _ _ => True := by
  refine .bind (free_spec (c := .findApplication applicationId) fun _ => trivial) fun found => ?_
  split
  · exact refuse_spec
  · split
    · exact refuse_spec
    · split
      · exact refuse_spec
      · refine .bind (free_spec (c := .reject applicationId) fun _ => trivial) fun done => ?_
        split
        · exact .ret fun _ _ h => h
        · exact refuse_spec

/-- Every handler keeps to the contract. -/
theorem handles : (contract s).HandlesTo (orderly s) fun _ _ => True := by
  intro r i
  have hspec : Spec s i Reading ((service s).handler r) fun _ _ => True := by
    match r with
    | .create jobOfferId workerId => exact create_spec
    | .cancel applicationId workerId => exact cancel_spec.pre_mono fun _ _ _ => trivial
    | .cancelAcceptedByEmployer applicationId employerId =>
      exact cancelAcceptedByEmployer_spec.pre_mono fun _ _ _ => trivial
    | .reject applicationId employerId => exact reject_spec.pre_mono fun _ _ _ => trivial
    | .timeout applicationId =>
      refine Discipline.Triple.pre_mono (R := Own i fun _ => True) ?_ fun _ _ _ => trivial
      exact .bind (free_spec (c := .cancel applicationId .system) fun _ => trivial)
        fun _ => .ret fun _ _ h => h
    | .progress applicationId status =>
      exact (free_spec (c := .progress applicationId status) fun _ => trivial).pre_mono
        fun _ _ _ => trivial
    | .archive applicationId =>
      exact (free_spec (c := .archive applicationId) fun _ => trivial).pre_mono fun _ _ _ => trivial
    | .restore applicationId =>
      exact (free_spec (c := .restore applicationId) fun _ => trivial).pre_mono fun _ _ _ => trivial
    | .elapse milliseconds =>
      exact (free_spec (c := .elapse milliseconds) fun _ => trivial).pre_mono fun _ _ _ => trivial
  refine hspec.pre_mono fun x _ h => ?_
  rw [Own, h.own_eq]
  exact fun _ he => (not_mem_nil he).elim

end Rabotka.Applying
