import Rabotka.Hiring.Schema
import Rabotka.Lib.ReadCommitted
import Rabotka.Lib.Serial
import Rabotka.Lib.Service

/-!
# Missions, ratings and reliability scores

The tables behind the end of a mission: the hiring tables with the applications and their
assignments, the ratings that the two sides of an assignment give each other, and of each
profile the reliability score and the aggregate of the ratings it received. An assignment is
named by its application, which has at most one.

`engine` is what the statements of `rateAssignment` do, each on the state its transaction sees:
a rating is locked by its rater and assignment, the unique key of the table, and a profile by
its identifier. The average of integer scores is kept as an exact number.
-/

namespace Rabotka.Missions

open Hiring

structure Profile where
  reliabilityScore : Option ℤ
  ratingAvg : Option ℚ
  ratingCount : ℕ
  deriving DecidableEq

structure Rating where
  raterId : ℕ
  rateeId : ℕ
  assignmentId : ℕ
  score : ℤ
  deriving DecidableEq

/-- The database. -/
structure Db where
  hiring : Hiring.Db
  profiles : List Profile
  ratings : List Rating

/-- What is read of an assignment and its offer. -/
structure Assignment where
  status : AssignmentStatus
  workerId : ℕ
  employerId : ℕ
  deriving DecidableEq

/-- The configuration that `getFees` returns, as far as it is read here. -/
structure Fees where
  reliabilityScoreMin : ℤ
  completionScoreReward : ℤ
  ratingScoreDeltas : ℤ → ℤ

/-- `RELIABILITY_SCORE_MAX`. -/
def reliabilityScoreMax : ℤ := 100

/-- A score after a change, between the configured minimum and the maximum. -/
def Fees.clamp (fees : Fees) (score : ℤ) : ℤ :=
  max fees.reliabilityScoreMin (min reliabilityScoreMax score)

namespace Db

/-- `assignment.findUnique`, with the employer of the offer. -/
def findAssignment (db : Db) (id : ℕ) : Option Assignment := do
  let application ← db.hiring.applications[id]?
  let status ← application.assignment
  let offer ← db.hiring.offers[application.jobOfferId]?
  pure { status, workerId := application.workerId, employerId := offer.employerId }

theorem findAssignment_eq_some {db : Db} {id : ℕ} {x : Assignment} : db.findAssignment id = some x ↔
      ∃ application, db.hiring.applications[id]? = some application ∧
        ∃ status, application.assignment = some status ∧
          ∃ offer, db.hiring.offers[application.jobOfferId]? = some offer ∧
            ⟨status, application.workerId, offer.employerId⟩ = x := by
  simp [findAssignment, Option.bind_eq_some_iff]

/-- There is a rating by this rater for this assignment. -/
def isRated (db : Db) (raterId assignmentId : ℕ) : Bool :=
  db.ratings.any fun r => r.raterId = raterId ∧ r.assignmentId = assignmentId

/-- The ratings that a profile received. -/
def ratingsOf (db : Db) (rateeId : ℕ) : List Rating :=
  db.ratings.filter fun r => r.rateeId = rateeId

/-- `rating.upsert` on the unique pair of rater and assignment. -/
def upsertRating (db : Db) (r : Rating) : Db :=
  if db.isRated r.raterId r.assignmentId then
    { db with
      ratings := db.ratings.map fun q =>
        if q.raterId = r.raterId ∧ q.assignmentId = r.assignmentId then
          { q with score := r.score }
        else q }
  else { db with ratings := db.ratings ++ [r] }

def updateProfile (db : Db) (id : ℕ) (f : Profile → Profile) : Db :=
  { db with profiles := Table.update db.profiles id f }

end Db

/-- `_avg` of the scores. -/
def ratingAvg (rows : List Rating) : Option ℚ :=
  if rows = [] then none else some ((rows.map Rating.score).sum / rows.length)

/-! ### Statements -/

inductive Stmt
  | findAssignment (assignmentId : ℕ)
  | findRating (raterId assignmentId : ℕ)
  | upsertRating (r : Rating)
  | aggregateRatings (rateeId : ℕ)
  | updateAggregate (rateeId : ℕ) (ratingAvg : Option ℚ) (ratingCount : ℕ)
  | getFees
  | findReliability (profileId : ℕ)
  | updateReliability (profileId : ℕ) (reliabilityScore : ℤ)

/-- The answers. An aggregate is answered with the rows it ranges over. -/
abbrev Answer : Stmt → Type
  | .findAssignment _ => Option Assignment
  | .findRating _ _ => Bool
  | .aggregateRatings _ => List Rating
  | .getFees => Fees
  | .findReliability _ => Option ℤ
  | _ => Unit

inductive Write
  | upsertRating (r : Rating)
  | updateAggregate (rateeId : ℕ) (ratingAvg : Option ℚ) (ratingCount : ℕ)
  | updateReliability (profileId : ℕ) (reliabilityScore : ℤ)

inductive Lock
  | rating (raterId assignmentId : ℕ)
  | profile (id : ℕ)
  deriving DecidableEq

def Db.apply (db : Db) : Write → Db
  | .upsertRating r => db.upsertRating r
  | .updateAggregate p ratingAvg ratingCount =>
    db.updateProfile p fun x => { x with ratingAvg, ratingCount }
  | .updateReliability p score =>
    db.updateProfile p fun x => { x with reliabilityScore := some score }

/-- The fees are the environment's; everything else is read from the state. -/
def engine : ReadCommitted.Engine Db Write Lock Stmt Fees Answer where
  apply := Db.apply
  run db c fees :=
    match c with
    | .findAssignment id => some (db.findAssignment id, [], [])
    | .findRating rater a => some (db.isRated rater a, [], [])
    | .upsertRating r => some ((), [.upsertRating r], [.rating r.raterId r.assignmentId])
    | .aggregateRatings p => some (db.ratingsOf p, [], [])
    | .updateAggregate p avg count =>
      some ((), [.updateAggregate p avg count], [.profile p])
    | .getFees => some (fees, [], [])
    | .findReliability p => some ((db.profiles[p]?).bind Profile.reliabilityScore, [], [])
    | .updateReliability p score => some ((), [.updateReliability p score], [.profile p])

abbrev Store := ReadCommitted.Store Db Write Lock

abbrev Cmd := ReadCommitted.Cmd Stmt

abbrev Resp : Cmd → Type := ReadCommitted.Resp Answer

end Rabotka.Missions

/-!
## Completing and rating missions

`rateAssignment` statement by statement, in its transaction, as an operation that others may
interleave with; and `markCompletedByWorker` and `completeAndRateByWorker` one call after the
other, on the transaction of the hiring services followed by the completion reward.
Notifications, the re-indexing of the worker and the direction stored with a rating are left
out.
-/

namespace Rabotka.Missions

open Async Hiring

inductive Exn
  | badRequest (message : String)
  | notFound (message : String)
  | forbidden (message : String)
  | error (message : String)

/-- An operation of this service. -/
abbrev Prog (α : Type) := Op Resp Exn α

/-- Issues one statement. -/
def query (c : Stmt) : Prog (Answer c) := ReadCommitted.query c

/-- A number of stars. -/
def isStars (score : ℚ) : Bool :=
  score.isInt && 1 ≤ score && score ≤ 5

/-- `applyRatingToReliability`. -/
def applyRatingToReliability (workerProfileId : ℕ) (score : ℤ) : Prog Unit := do
  let fees ← query .getFees
  let delta := fees.ratingScoreDeltas score
  if delta = 0 then return
  let worker ← query (.findReliability workerProfileId)
  let currentScore := worker.getD 100
  let nextScore := fees.clamp (currentScore + delta)
  if nextScore ≠ currentScore then
    query (.updateReliability workerProfileId nextScore)

/-- The transaction of `rateAssignment`. -/
def storeRating (r : Rating) (isEmployer : Bool) : Prog Unit :=
  ReadCommitted.transaction do
    let existing ← query (.findRating r.raterId r.assignmentId)
    query (.upsertRating r)
    let rows ← query (.aggregateRatings r.rateeId)
    query (.updateAggregate r.rateeId (ratingAvg rows) rows.length)
    if isEmployer && !existing then
      applyRatingToReliability r.rateeId r.score

def rateAssignment (assignmentId raterProfileId : ℕ) (score : ℚ) : Prog Unit := do
  if !isStars score then throw (.badRequest "La note doit être comprise entre 1 et 5.")
  match ← query (.findAssignment assignmentId) with
  | none => throw (.notFound "Mission introuvable")
  | some assignment =>
    let isWorker : Bool := assignment.workerId = raterProfileId
    let isEmployer : Bool := assignment.employerId = raterProfileId
    if !isWorker && !isEmployer then
      throw (.forbidden "Vous n'êtes pas autorisé à évaluer cette mission")
    if assignment.status ≠ .completed then
      throw (.badRequest "La mission n'est pas encore terminée")
    let rateeId := if isWorker then assignment.employerId else assignment.workerId
    storeRating
      { raterId := raterProfileId, rateeId, assignmentId, score := score.num } isEmployer

/-- A request to rate a mission. -/
structure RateRequest where
  assignmentId : ℕ
  raterProfileId : ℕ
  score : ℚ

/-- The rating service. -/
def service : Service Store Cmd Resp RateRequest Fees Exn where
  exec s i c fees := s.exec engine i c fees
  handler r := rateAssignment r.assignmentId r.raterProfileId r.score

/-! ### Completion -/

/-- `rewardCompletion`: the reward of a worker who did not fail to show up. -/
def rewardCompletion (fees : Fees) (db : Db) (applicationId workerId : ℕ) : Db :=
  if fees.completionScoreReward = 0 then db
  else if (db.findAssignment applicationId).map Assignment.status = some .noShow then db
  else
    let currentScore := ((db.profiles[workerId]?).bind Profile.reliabilityScore).getD 100
    let rewardedScore := fees.clamp (currentScore + fees.completionScoreReward)
    if rewardedScore = currentScore then db
    else db.updateProfile workerId fun p => { p with reliabilityScore := some rewardedScore }

/-- The checks of `markCompletedByWorker` before its transaction. -/
def checkCompletion (now : ℕ) (db : Db) (applicationId workerId : ℕ) :
    Except Exn (Application × JobOffer) :=
  match db.hiring.applications[applicationId]? with
  | none => .error (.notFound "Candidature introuvable")
  | some application =>
    match db.hiring.offers[application.jobOfferId]? with
    | none => .error (.notFound "Candidature introuvable")
    | some offer =>
      if application.workerId ≠ workerId then
        .error (.forbidden "Cette mission n'est pas la vôtre")
      else if offer.employmentType ≠ .mission then
        .error (.badRequest ("Un contrat de type " ++ offer.employmentType.label ++
          " ne se termine pas comme une mission ponctuelle."))
      else if application.status ≠ .accepted ∧ application.status ≠ .started ∧
          application.status ≠ .ended then
        .error (.badRequest "Cette mission ne peut pas être marquée comme terminée")
      else if application.status = .accepted ∧ offer.scheduledAt.any (fun t => now < t) then
        .error (.badRequest
          "La mission n'a pas encore commencé : vous pourrez la terminer après son début.")
      else .ok (application, offer)

/-- `markCompletedByWorker` at the instant `now`. The assignment is written first, so that the
reward reads it as the transaction left it. -/
def markCompletedByWorker (fees : Fees) (now : ℕ) (db : Db) (applicationId workerId : ℕ) :
    Db × Except Exn Unit :=
  match checkCompletion now db applicationId workerId with
  | .error e => (db, .error e)
  | .ok (application, _) =>
    let completed : Db :=
      { db with
        hiring := db.hiring.setApplication applicationId fun a =>
          { a with
            status := if application.status = .ended then a.status else .ended
            assignment := some .completed } }
    let rewarded := rewardCompletion fees completed applicationId workerId
    ({ rewarded with
        hiring := rewarded.hiring.closeOfferIfAllWorkersDone application.jobOfferId }, .ok ())

/-- A rating with nothing else running. -/
def rateAlone (fees : Fees) (db : Db) (assignmentId raterProfileId : ℕ) (score : ℚ) :
    Db × Except Exn Unit :=
  let o := (rateAssignment assignmentId raterProfileId score).alone
    (fun (s : Store) c => s.exec engine 0 c fees) (.error "refused")
    (ReadCommitted.Store.ofDb db)
  (o.1.db, o.2)

def completeAndRateByWorker (fees : Fees) (now : ℕ) (db : Db) (applicationId workerId : ℕ)
    (score : ℚ) : Db × Except Exn Unit :=
  if !isStars score then
    (db, .error (.badRequest "La note doit être comprise entre 1 et 5."))
  else
    match markCompletedByWorker fees now db applicationId workerId with
    | (db, .error e) => (db, .error e)
    | (db, .ok ()) =>
      if (db.findAssignment applicationId).isNone then
        (db, .error (.badRequest "Aucune mission associée à cette candidature"))
      else rateAlone fees db applicationId workerId score

end Rabotka.Missions
