import Rabotka.Missions.Schema

/-!
# The completion reward

How often a worker's reliability score changes when the end of one mission is confirmed over and
over. A call that gets past the checks sets the assignment to COMPLETED before the reward reads
it, and END is among the statuses that get past the checks, so every such call rewards the
worker (`score_perform`): the calls iterate the effect of one reward on the score. The reward is
therefore earned at most once, and not at all by a worker who failed to show up, exactly under
the condition of `rewarded_once_iff`.
-/

namespace Rabotka.Missions

open Async Hiring List

/-- The calls that confirm the end of a mission. -/
inductive Call
  | markCompletedByWorker
  | completeAndRateByWorker (score : ℚ)

/-- The state after a call on the application `a` by the worker `w` at the instant `now`,
whether it returned or threw. -/
def perform (fees : Fees) (a w now : ℕ) (db : Db) : Call → Db
  | .markCompletedByWorker => (markCompletedByWorker fees now db a w).1
  | .completeAndRateByWorker score => (completeAndRateByWorker fees now db a w score).1

/-- The worker's reliability score, as the reward reads it. -/
def scoreOf (db : Db) (w : ℕ) : ℤ :=
  ((db.profiles[w]?).bind Profile.reliabilityScore).getD 100

/-- How many calls of a sequence change the worker's score. -/
def rewards (fees : Fees) (a w : ℕ) : Db → List (ℕ × Call) → ℕ
  | _, [] => 0
  | db, (now, call) :: calls =>
    let db' := perform fees a w now db call
    (if scoreOf db' w = scoreOf db w then 0 else 1) + rewards fees a w db' calls

/-- The call gets past the checks. -/
def accepts (a w now : ℕ) (db : Db) : Call → Bool
  | .markCompletedByWorker => (checkCompletion now db a w).isOk
  | .completeAndRateByWorker score => isStars score && (checkCompletion now db a w).isOk

/-- How many calls of a sequence get past the checks when they run. -/
def accepted (fees : Fees) (a w : ℕ) : Db → List (ℕ × Call) → ℕ
  | _, [] => 0
  | db, (now, call) :: calls =>
    (if accepts a w now db call then 1 else 0) +
      accepted fees a w (perform fees a w now db call) calls

/-- What one reward makes of a score. -/
def Fees.reward (fees : Fees) (score : ℤ) : ℤ :=
  if fees.completionScoreReward = 0 then score
  else fees.clamp (score + fees.completionScoreReward)

/-- The assignment is NO_SHOW. -/
def noShow (db : Db) (a : ℕ) : Prop :=
  (db.findAssignment a).map Assignment.status = some .noShow

instance (db : Db) (a : ℕ) : Decidable (noShow db a) :=
  inferInstanceAs (Decidable (_ = _))

/-! ### Owners -/

/-- The applications keep their workers and offers, and the offers their employers. -/
structure SameOwners (h h' : Hiring.Db) : Prop where
  applications : ∀ i : ℕ, (h'.applications[i]?).map (fun a => (a.workerId, a.jobOfferId)) =
    (h.applications[i]?).map fun a => (a.workerId, a.jobOfferId)
  offers : ∀ i : ℕ, (h'.offers[i]?).map JobOffer.employerId = (h.offers[i]?).map JobOffer.employerId

/-- Nobody applies to an offer of their own. -/
def NotOwn (h : Hiring.Db) : Prop :=
  ∀ (i : ℕ) (application : Application) (offer : JobOffer),
    h.applications[i]? = some application → h.offers[application.jobOfferId]? = some offer →
      offer.employerId ≠ application.workerId

theorem SameOwners.refl (h : Hiring.Db) : SameOwners h h :=
  ⟨fun _ => rfl, fun _ => rfl⟩

theorem SameOwners.trans {h h' h'' : Hiring.Db} (hs : SameOwners h h')
    (hs' : SameOwners h' h'') : SameOwners h h'' :=
  ⟨fun i => (hs'.applications i).trans (hs.applications i),
    fun i => (hs'.offers i).trans (hs.offers i)⟩

theorem SameOwners.notOwn {h h' : Hiring.Db} (hs : SameOwners h h') (hown : NotOwn h) :
    NotOwn h' := by
  intro i application' offer' ha' ho'
  have happ := hs.applications i
  rw [ha', Option.map_some, eq_comm, Option.map_eq_some_iff] at happ
  obtain ⟨application, ha, heq⟩ := happ
  obtain ⟨hworker, hoffer⟩ := Prod.mk.inj heq
  have hoff := hs.offers application'.jobOfferId
  rw [ho', Option.map_some, eq_comm, Option.map_eq_some_iff] at hoff
  obtain ⟨offer, ho, hemployer⟩ := hoff
  rw [← hemployer, ← hworker]
  rw [← hoffer] at ho
  exact hown i application offer ha ho

theorem sameOwners_setApplication (h : Hiring.Db) (i : ℕ) {f : Application → Application}
    (hf : ∀ a, (f a).workerId = a.workerId ∧ (f a).jobOfferId = a.jobOfferId) :
    SameOwners h (h.setApplication i f) := by
  refine ⟨fun j => ?_, fun _ => rfl⟩
  simp only [Hiring.Db.setApplication, Table.getElem?_update, Option.map_map]
  congr 1
  funext a
  by_cases hij : i = j <;> simp [hij, hf]

theorem sameOwners_closeOfferIfAllWorkersDone (h : Hiring.Db) (offerId : ℕ) :
    SameOwners h (h.closeOfferIfAllWorkersDone offerId) := by
  unfold Hiring.Db.closeOfferIfAllWorkersDone
  split
  · exact .refl h
  · dsimp only
    split
    · exact .refl h
    · refine ⟨fun j => ?_, fun j => ?_⟩
      · simp only [Hiring.Db.rejectApplications, Hiring.Db.setOfferStatus,
          Table.getElem?_updateMany, Option.map_map]
        congr 1
        funext a
        dsimp only [Function.comp]
        split <;> rfl
      · simp only [Hiring.Db.rejectApplications, Hiring.Db.setOfferStatus,
          Table.getElem?_update, Option.map_map]
        congr 1
        funext o
        dsimp only [Function.comp]
        split <;> rfl

/-! ### Ratings by the worker -/

/-- What a rating of the employer leaves alone: the hiring tables and all reliability scores. -/
def frame (db : Db) : Hiring.Db × List (Option ℤ) :=
  (db.hiring, db.profiles.map Profile.reliabilityScore)

/-- The frame is `F`, and what the transaction has written so far keeps frames. -/
def Kept (F : Hiring.Db × List (Option ℤ)) (s : Store) : Prop :=
  frame s.db = F ∧ ∀ u, s.session 0 = some u → ∀ d, frame (engine.applyAll d u.writes) = frame d

/-- The triples of operations that run alone. -/
abbrev Runs (fees : Fees) {α : Type} (P : Store → Prop) (op : Prog α) (Q : α → Store → Prop)
    (X : Exn → Store → Prop) : Prop :=
  op.Serial (fun (s : Store) c => s.exec engine 0 c fees) (.error "refused") P Q X

variable {fees : Fees} {F : Hiring.Db × List (Option ℤ)}

/-- A statement whose writes keep frames. -/
theorem query_kept {c : Stmt} (hc : ∀ d a ws ls, engine.run d c fees = some (a, ws, ls) →
      ∀ d', frame (engine.applyAll d' ws) = frame d') :
    Runs fees (Kept F) (query c) (fun _ => Kept F) (fun _ => Kept F) := by
  refine .cmd (fun s t r hs hexec => ?_) fun s hs _ => hs
  obtain ⟨ws, ls, hrun, -, ⟨u, hu, rfl⟩ | ⟨hnone, rfl⟩⟩ := ReadCommitted.Store.exec_stmt hexec
  · refine ⟨hs.1, fun v hv d => ?_⟩
    rw [ReadCommitted.Store.session_put_self, Option.some.injEq] at hv
    subst hv
    rw [ReadCommitted.Engine.applyAll_append, hc _ _ _ _ hrun, hs.2 u hu]
  · refine ⟨?_, hs.2⟩
    rw [hc _ _ _ _ hrun]
    exact hs.1

theorem transaction_kept {body : Prog Unit}
    (hbody : Runs fees (Kept F) body (fun _ => Kept F) (fun _ => Kept F)) :
    Runs fees (Kept F) (ReadCommitted.transaction body) (fun _ => Kept F) (fun _ => Kept F) := by
  refine .bind (R := fun _ => Kept F) (.cmd (fun s t r hs hexec => ?_) fun s hs _ => hs) fun _ => ?_
  · obtain ⟨-, rfl⟩ := ReadCommitted.Store.exec_begin hexec
    refine ⟨hs.1, fun v hv d => ?_⟩
    rw [ReadCommitted.Store.session_put_self, Option.some.injEq] at hv
    subst hv
    rfl
  refine .orElseCatch (Y := fun _ => Kept F) ?_ fun e => ?_
  · refine .bind hbody fun _ => ?_
    refine .bind (R := fun _ => Kept F) (.cmd (fun s t r hs hexec => ?_) fun s hs _ => hs)
      fun _ => .ret fun _ h => h
    obtain ⟨u, hu, rfl⟩ := ReadCommitted.Store.exec_commit hexec
    refine ⟨(hs.2 u hu _).trans hs.1, fun v hv => ?_⟩
    have hnone : (s.close 0).session 0 = none := ReadCommitted.Store.session_close_self s 0
    exact absurd (hnone.symm.trans hv) (by simp)
  · refine .bind (R := fun _ => Kept F) (.cmd (fun s t r hs hexec => ?_) fun s hs _ => hs)
      fun _ => .fail fun _ h => h
    obtain rfl := ReadCommitted.Store.exec_rollback hexec
    refine ⟨hs.1, fun v hv => ?_⟩
    simp at hv

theorem frame_upsertRating (d : Db) (r : Rating) : frame (d.upsertRating r) = frame d := by
  unfold Db.upsertRating
  split <;> rfl

theorem frame_updateAggregate (d : Db) (p : ℕ) (avg : Option ℚ) (count : ℕ) :
    frame (d.apply (.updateAggregate p avg count)) = frame d := by
  have hscores : (Table.update d.profiles p fun x =>
        { x with ratingAvg := avg, ratingCount := count }).map Profile.reliabilityScore =
      d.profiles.map Profile.reliabilityScore := by
    apply ext_getElem?
    intro i
    rw [getElem?_map, Table.getElem?_update, getElem?_map, Option.map_map]
    congr 1
    funext x
    dsimp only [Function.comp]
    split <;> rfl
  exact congrArg (Prod.mk d.hiring) hscores

/-- A rating that is not the employer's keeps every score. -/
theorem storeRating_kept {r : Rating} :
    Runs fees (Kept F) (storeRating r false) (fun _ => Kept F) (fun _ => Kept F) := by
  refine transaction_kept ?_
  refine .bind (query_kept fun d a ws ls hrun d' => ?_) fun existing => ?_
  · obtain ⟨-, rfl, -⟩ : _ ∧ ws = [] ∧ _ := by simpa [engine, eq_comm] using hrun
    rfl
  refine .bind (query_kept fun d a ws ls hrun d' => ?_) fun _ => ?_
  · obtain ⟨rfl, -⟩ : ws = [.upsertRating r] ∧ _ := by simpa [engine, eq_comm] using hrun
    exact frame_upsertRating d' r
  refine .bind (query_kept fun d a ws ls hrun d' => ?_) fun rows => ?_
  · obtain ⟨-, rfl, -⟩ : _ ∧ ws = [] ∧ _ := by simpa [engine, eq_comm] using hrun
    rfl
  refine .bind (query_kept fun d a ws ls hrun d' => ?_) fun _ => .ret fun _ h => h
  obtain ⟨rfl, -⟩ : ws = [.updateAggregate r.rateeId (ratingAvg rows) rows.length] ∧ _ := by
    simpa [engine, eq_comm] using hrun
  exact frame_updateAggregate d' _ _ _

/-- The worker's rating of the employer changes no score and no hiring table. -/
theorem frame_rateAlone {db : Db} {a w : ℕ} {score : ℚ} (hown : NotOwn db.hiring)
    (hworker : ∀ x, db.findAssignment a = some x → x.workerId = w) :
    frame (rateAlone fees db a w score).1 = frame db := by
  have hrun : Runs fees (fun s => s = ReadCommitted.Store.ofDb db)
      (rateAssignment a w score) (fun _ => Kept (frame db)) (fun _ => Kept (frame db)) := by
    have hkept : ∀ s : Store, s = ReadCommitted.Store.ofDb db → Kept (frame db) s := by
      rintro s rfl
      exact ⟨rfl, fun u hu => by simp at hu⟩
    unfold rateAssignment
    by_cases hstars : isStars score
    swap
    · simp only [hstars]
      exact .fail hkept
    simp only [hstars]
    refine .bind (R := fun o s => s = ReadCommitted.Store.ofDb db ∧ o = db.findAssignment a)
      (.cmd (fun s t r hs hexec => ?_) fun s hs _ => hkept s hs) fun o => ?_
    · subst hs
      obtain ⟨ws, ls, hrun, -, ⟨u, hu, rfl⟩ | ⟨hnone, rfl⟩⟩ :=
        ReadCommitted.Store.exec_stmt hexec
      · simp at hu
      · obtain ⟨rfl, hrest⟩ := pair_inj hrun
        obtain ⟨rfl, rfl⟩ := Prod.mk.inj hrest
        exact ⟨rfl, rfl⟩
    refine .of_fact fun ho => ?_
    cases o with
    | none => exact .fail hkept
    | some x =>
      have hx := hworker x ho.symm
      have hemployer : x.employerId ≠ w := by
        obtain ⟨application, ha, status, -, offer, hoffer, hrow⟩ :=
          Db.findAssignment_eq_some.1 ho.symm
        rw [← hx, ← hrow]
        exact hown a application offer ha hoffer
      by_cases hstatus : x.status = .completed
      · simpa [hx, hemployer, hstatus] using storeRating_kept.pre_mono hkept
      · have hfail : Runs fees (fun s => s = ReadCommitted.Store.ofDb db)
            (.fail (.badRequest "La mission n'est pas encore terminée") : Prog Unit)
            (fun _ => Kept (frame db)) (fun _ => Kept (frame db)) := .fail hkept
        simpa [hx, hemployer, hstatus] using hfail
  have hend := hrun _ rfl
  unfold rateAlone
  generalize (rateAssignment a w score).alone _ _ _ = o at hend ⊢
  obtain ⟨t, e | u⟩ := o
  · exact hend.1
  · exact hend.1

theorem scoreOf_of_frame {db db' : Db} (h : frame db' = frame db) (w : ℕ) :
    scoreOf db' w = scoreOf db w := by
  have hscores : db'.profiles.map Profile.reliabilityScore =
      db.profiles.map Profile.reliabilityScore := congrArg Prod.snd h
  have hrow : (db'.profiles[w]?).map Profile.reliabilityScore =
      (db.profiles[w]?).map Profile.reliabilityScore := by
    rw [← getElem?_map, ← getElem?_map, hscores]
  unfold scoreOf
  cases hw' : db'.profiles[w]? <;> cases hw : db.profiles[w]? <;> simp_all

/-! ### One call -/

variable {db : Db} {a w now : ℕ}

/-- The checks let a call through only on the worker's own application. -/
theorem checkCompletion_eq_ok {x : Application × JobOffer}
    (h : checkCompletion now db a w = .ok x) :
    db.hiring.applications[a]? = some x.1 ∧ db.hiring.offers[x.1.jobOfferId]? = some x.2 ∧
      x.1.workerId = w := by
  unfold checkCompletion at h
  cases ha : db.hiring.applications[a]? with
  | none => simp [ha] at h
  | some application =>
    cases ho : db.hiring.offers[application.jobOfferId]? with
    | none => simp [ha, ho] at h
    | some offer =>
      simp only [ha, ho] at h
      split_ifs at h with hworker
      obtain rfl := Except.ok.inj h
      exact ⟨rfl, ho, by simpa using hworker⟩

/-- One reward, where the assignment does not say NO_SHOW. -/
theorem scoreOf_rewardCompletion (hw : w < db.profiles.length) (hshow : ¬ noShow db a) :
    scoreOf (rewardCompletion fees db a w) w = fees.reward (scoreOf db w) := by
  unfold rewardCompletion Fees.reward
  split_ifs with hzero hnoShow
  · rfl
  · exact absurd hnoShow hshow
  · dsimp only
    split_ifs with hsame
    · exact hsame.symm
    · simp [scoreOf, Db.updateProfile, Table.getElem?_update, getElem?_eq_getElem hw]

/-- The reward changes no owner. -/
theorem hiring_rewardCompletion (db : Db) (a w : ℕ) :
    (rewardCompletion fees db a w).hiring = db.hiring := by
  unfold rewardCompletion
  split_ifs
  · rfl
  · rfl
  · dsimp only
    split_ifs <;> rfl

theorem length_rewardCompletion (db : Db) (a w : ℕ) :
    (rewardCompletion fees db a w).profiles.length = db.profiles.length := by
  unfold rewardCompletion
  split_ifs
  · rfl
  · rfl
  · dsimp only
    split_ifs
    · rfl
    · simp only [Db.updateProfile, Table.update]
      split <;> simp

/-- What a call keeps for the next one: the worker's profile exists, and nobody works for
themselves. -/
structure Sound (w : ℕ) (db : Db) : Prop where
  profile : w < db.profiles.length
  notOwn : NotOwn db.hiring

/-- Confirming the end of a mission rewards the worker whenever the call gets past the checks:
by the time the reward reads the assignment it is COMPLETED. -/
theorem markCompletedByWorker_spec (hs : Sound w db) :
    Sound w (markCompletedByWorker fees now db a w).1 ∧
      scoreOf (markCompletedByWorker fees now db a w).1 w =
        if (checkCompletion now db a w).isOk then fees.reward (scoreOf db w)
        else scoreOf db w := by
  unfold markCompletedByWorker
  cases hcheck : checkCompletion now db a w with
  | error e => exact ⟨hs, rfl⟩
  | ok x =>
    obtain ⟨ha, ho, -⟩ := checkCompletion_eq_ok hcheck
    dsimp only
    set completed : Db := { db with
      hiring := db.hiring.setApplication a fun y =>
        { y with
          status := if x.1.status = .ended then y.status else .ended
          assignment := some .completed } } with hcompleted
    have happ : completed.hiring.applications[a]? = some { x.1 with
        status := if x.1.status = .ended then x.1.status else .ended
        assignment := some .completed } := by
      simp [hcompleted, Hiring.Db.setApplication, Table.getElem?_update, ha]
    have hshow : ¬ noShow completed a := by
      have hfind : completed.findAssignment a = some ⟨.completed, x.1.workerId, x.2.employerId⟩ :=
        Db.findAssignment_eq_some.2 ⟨_, happ, _, rfl, x.2, ho, rfl⟩
      simp [noShow, hfind]
    refine ⟨⟨?_, ?_⟩, ?_⟩
    · rw [length_rewardCompletion]
      exact hs.profile
    · have howners := (sameOwners_setApplication db.hiring a
        (f := fun y => { y with
          status := if x.1.status = .ended then y.status else .ended
          assignment := some .completed }) fun _ => ⟨rfl, rfl⟩).trans
        (sameOwners_closeOfferIfAllWorkersDone _ x.1.jobOfferId)
      rw [hiring_rewardCompletion]
      exact howners.notOwn hs.notOwn
    · exact scoreOf_rewardCompletion hs.profile hshow

/-- Confirming the end of a mission gives the application to its worker. -/
theorem findAssignment_markCompletedByWorker {x : Assignment}
    (hok : (checkCompletion now db a w).isOk)
    (hx : (markCompletedByWorker fees now db a w).1.findAssignment a = some x) :
    x.workerId = w := by
  cases hcheck : checkCompletion now db a w with
  | error e => simp [hcheck, Except.isOk, Except.toBool] at hok
  | ok y =>
    obtain ⟨ha, -, hworker⟩ := checkCompletion_eq_ok hcheck
    have howners := (sameOwners_setApplication db.hiring a
      (f := fun z => { z with
        status := if y.1.status = .ended then z.status else .ended
        assignment := some .completed }) fun _ => ⟨rfl, rfl⟩).trans
      (sameOwners_closeOfferIfAllWorkersDone _ y.1.jobOfferId)
    obtain ⟨application, happ, status, -, offer, -, rfl⟩ := Db.findAssignment_eq_some.1 hx
    simp only [markCompletedByWorker, hcheck, hiring_rewardCompletion] at happ
    have hrow := howners.applications a
    rw [happ, ha] at hrow
    simp only [Option.map_some, Option.some.injEq, Prod.mk.injEq] at hrow
    rw [hrow.1, hworker]

/-- **Step lemma.** A call that gets past the checks rewards the worker, and no other call
changes the score. -/
theorem perform_spec (hs : Sound w db) (call : Call) : Sound w (perform fees a w now db call) ∧
      scoreOf (perform fees a w now db call) w =
        if accepts a w now db call then fees.reward (scoreOf db w) else scoreOf db w := by
  cases call with
  | markCompletedByWorker => exact markCompletedByWorker_spec hs
  | completeAndRateByWorker score =>
    simp only [perform, completeAndRateByWorker, accepts]
    by_cases hstars : isStars score
    swap
    · simp [hstars, hs]
    simp only [hstars, Bool.not_true, Bool.false_eq_true, if_false, Bool.true_and]
    obtain ⟨hs', hscore⟩ : Sound w (markCompletedByWorker fees now db a w).1 ∧ _ :=
      markCompletedByWorker_spec hs
    rw [← hscore]
    have hworker : (checkCompletion now db a w).isOk → ∀ x,
        (markCompletedByWorker fees now db a w).1.findAssignment a = some x → x.workerId = w :=
      fun hok x => findAssignment_markCompletedByWorker hok
    have hresult : (markCompletedByWorker fees now db a w).2 = .ok () →
        (checkCompletion now db a w).isOk := by
      unfold markCompletedByWorker
      cases checkCompletion now db a w with
      | error e => exact fun h => nomatch h
      | ok y => exact fun _ => rfl
    generalize markCompletedByWorker fees now db a w = o at hs' hworker hresult ⊢
    obtain ⟨db', e | u⟩ := o
    · exact ⟨hs', rfl⟩
    · dsimp only
      split_ifs with hnone
      · exact ⟨hs', rfl⟩
      · have hframe : frame (rateAlone fees db' a w score).1 = frame db' :=
          frame_rateAlone hs'.notOwn fun x => hworker (hresult rfl) x
        refine ⟨⟨?_, ?_⟩, scoreOf_of_frame hframe w⟩
        · have hlen := congrArg (fun F => F.2.length) hframe
          simp only [frame, length_map] at hlen
          rw [hlen]
          exact hs'.profile
        · have hhiring := congrArg Prod.fst hframe
          simp only [frame] at hhiring
          rw [hhiring]
          exact hs'.notOwn

/-! ### Sequences of calls -/

/-- Calls that do not get past the checks, and calls after a reward without effect, change
nothing. -/
theorem rewards_eq_zero (hs : Sound w db) (calls : List (ℕ × Call))
    (h : accepted fees a w db calls = 0 ∨ fees.reward (scoreOf db w) = scoreOf db w) :
    rewards fees a w db calls = 0 := by
  induction calls generalizing db with
  | nil => rfl
  | cons c calls ih =>
    obtain ⟨now, call⟩ := c
    obtain ⟨hs', hscore⟩ : Sound w (perform fees a w now db call) ∧ _ := perform_spec hs call
    simp only [accepted] at h
    have hsame : scoreOf (perform fees a w now db call) w = scoreOf db w := by
      rw [hscore]
      split_ifs with haccepts
      · rcases h with h | h
        · simp [haccepts] at h
        · exact h
      · rfl
    simp only [rewards, hsame, if_true, Nat.zero_add]
    refine ih hs' (h.imp (fun h => ?_) fun h => ?_)
    · omega
    · rw [hsame]
      exact h

/-- The first call that gets past the checks earns a reward that has an effect. -/
theorem rewards_pos (hs : Sound w db) (calls : List (ℕ × Call))
    (h : accepted fees a w db calls ≠ 0) (heff : fees.reward (scoreOf db w) ≠ scoreOf db w) :
    rewards fees a w db calls ≠ 0 := by
  induction calls generalizing db with
  | nil => exact absurd rfl h
  | cons c calls ih =>
    obtain ⟨now, call⟩ := c
    obtain ⟨hs', hscore⟩ : Sound w (perform fees a w now db call) ∧ _ := perform_spec hs call
    simp only [accepted] at h
    simp only [rewards]
    by_cases haccepts : accepts a w now db call
    · rw [if_pos haccepts] at hscore
      rw [hscore, if_neg heff]
      omega
    · rw [if_neg haccepts] at hscore h
      rw [hscore, if_pos rfl, Nat.zero_add]
      refine ih hs' (by omega) ?_
      rw [hscore]
      exact heff

/-- At most one reward has an effect exactly when at most one call gets past the checks or a
second reward has none. -/
theorem rewards_le_one_iff (hs : Sound w db) (calls : List (ℕ × Call)) :
    rewards fees a w db calls ≤ 1 ↔ accepted fees a w db calls ≤ 1 ∨
      fees.reward (fees.reward (scoreOf db w)) = fees.reward (scoreOf db w) := by
  by_cases heff : fees.reward (scoreOf db w) = scoreOf db w
  · refine iff_of_true ?_ (.inr (by rw [heff, heff]))
    rw [rewards_eq_zero hs calls (.inr heff)]
    omega
  induction calls generalizing db with
  | nil => exact iff_of_true (Nat.zero_le 1) (.inl (Nat.zero_le 1))
  | cons c calls ih =>
    obtain ⟨now, call⟩ := c
    obtain ⟨hs', hscore⟩ : Sound w (perform fees a w now db call) ∧ _ := perform_spec hs call
    simp only [rewards, accepted]
    by_cases haccepts : accepts a w now db call
    · rw [if_pos haccepts] at hscore
      rw [hscore, if_neg heff, if_pos haccepts]
      have hzero : rewards fees a w (perform fees a w now db call) calls = 0 ↔
          accepted fees a w (perform fees a w now db call) calls = 0 ∨
            fees.reward (fees.reward (scoreOf db w)) = fees.reward (scoreOf db w) := by
        rw [← hscore]
        constructor
        · intro hzero
          by_contra hnot
          rw [not_or] at hnot
          exact rewards_pos hs' calls hnot.1 hnot.2 hzero
        · exact rewards_eq_zero hs' calls
      constructor
      · intro hle
        exact (hzero.1 (by omega)).imp (fun h => by omega) id
      · intro h
        have h0 := hzero.2 (h.imp (fun h => by omega) id)
        omega
    · rw [if_neg haccepts] at hscore
      rw [hscore, if_pos rfl, if_neg haccepts, Nat.zero_add, Nat.zero_add]
      have hrest := ih hs' (by rw [hscore]; exact heff)
      rwa [hscore] at hrest

/-- **The reward is earned at most once, and never by a no-show**, exactly when at most one call
gets past the checks (or a second reward has no effect on the score), and none does where the
worker failed to show up (or the reward has no effect at all). -/
theorem rewarded_once_iff (hs : Sound w db) (calls : List (ℕ × Call)) :
    (rewards fees a w db calls ≤ 1 ∧ (noShow db a → rewards fees a w db calls = 0)) ↔
      (accepted fees a w db calls ≤ 1 ∨
        fees.reward (fees.reward (scoreOf db w)) = fees.reward (scoreOf db w)) ∧
      (noShow db a → accepted fees a w db calls = 0 ∨
        fees.reward (scoreOf db w) = scoreOf db w) := by
  have hzero : rewards fees a w db calls = 0 ↔
      accepted fees a w db calls = 0 ∨ fees.reward (scoreOf db w) = scoreOf db w := by
    constructor
    · intro hzero
      by_contra hnot
      rw [not_or] at hnot
      exact rewards_pos hs calls hnot.1 hnot.2 hzero
    · exact rewards_eq_zero hs calls
  rw [rewards_le_one_iff hs calls, hzero]

/-- The default configuration. -/
def defaultFees : Fees where
  reliabilityScoreMin := 50
  completionScoreReward := 1
  ratingScoreDeltas := fun score =>
    if score = 1 then -4 else if score = 2 then -2 else if score = 4 then 1
    else if score = 5 then 3 else 0

/-- A started mission of the worker 1 with the score 90 for the employer 0, with the given
assignment status. -/
def startedMission (status : AssignmentStatus) : Db where
  hiring := {
    offers := [{ employerId := 0, quantity := 1, status := .inProgress,
                 employerUnlockPaid := false, employmentType := .mission, scheduledAt := none,
                 deleted := false }]
    applications := [{ jobOfferId := 0, workerId := 1, status := .started,
                       cancelledFromStatus := none, assignment := some status }]
    attempts := [], quotaUsages := [], wallets := [], transactions := [], cashPayments := [] }
  profiles := [⟨some 100, none, 0⟩, ⟨some 90, none, 0⟩]
  ratings := []

theorem startedMission_sound (status : AssignmentStatus) : Sound 1 (startedMission status) := by
  refine ⟨by simp [startedMission], fun i application offer ha ho => ?_⟩
  obtain rfl := mem_singleton.1 (mem_of_getElem? ha)
  obtain rfl := mem_singleton.1 (mem_of_getElem? ho)
  exact Nat.zero_ne_one

/-- A worker who confirms once is rewarded once. -/
theorem rewarded_once_confirmed :
    rewards defaultFees 0 1 (startedMission .confirmed) [(0, .markCompletedByWorker)] ≤ 1 ∧
      (noShow (startedMission .confirmed) 0 →
        rewards defaultFees 0 1 (startedMission .confirmed) [(0, .markCompletedByWorker)] = 0) :=
  (rewarded_once_iff (startedMission_sound _) _).2 ⟨.inl (by decide), fun h => by revert h; decide⟩

/-- A worker who failed to show up and confirms twice is rewarded twice. -/
theorem noShow_rewarded_twice : noShow (startedMission .noShow) 0 ∧
    rewards defaultFees 0 1 (startedMission .noShow)
      [(0, .markCompletedByWorker), (1, .completeAndRateByWorker 5)] = 2 := by
  decide +kernel

end Rabotka.Missions
