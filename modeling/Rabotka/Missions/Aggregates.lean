import Rabotka.Lib.RelyGuarantee
import Rabotka.Missions.Ratings

/-!
# Exact aggregates

The rating service checked against a discipline: every transaction that commits has stored one
rating of the other side of its assignment, the aggregate of the rows it read, and at most a
change of the reliability score of the same person. From this each commit keeps the aggregates
exact and moves a score only for an assignment that was not rated by its employer before.
-/

namespace Rabotka.Missions

open Async List

/-! ### The contract -/

/-- What a process may rely on: its transaction, what is noted of it and the assignments stay,
and so does whether the ratings it has locked are there. -/
structure RatingRely (i : ℕ) (s t : Store × Notes) : Prop where
  session : t.1.session i = s.1.session i
  current : t.2.current i = s.2.current i
  hiring : t.1.db.hiring = s.1.db.hiring
  isRated : ∀ k a, s.1.Holds i (.rating k a) → t.1.db.isRated k a = s.1.db.isRated k a

/-- What a transaction has done when it commits. -/
structure Ready (i : ℕ) (s : Store × Notes) (r : Rating) (ws : List Write) : Prop where
  session : ∃ locks, s.1.session i = some ⟨.upsertRating r ::
    .updateAggregate r.rateeId (ratingAvg (s.2.current i).rows) (s.2.current i).rows.length :: ws,
    locks⟩
  writes : ∀ w ∈ ws, ∃ score, w = .updateReliability r.rateeId score
  rateeId : (s.2.current i).rateeId = r.rateeId
  wellRated : s.1.db.WellRated r
  scored : (s.2.current i).scored → (s.2.current i).assignmentId = r.assignmentId ∧
    isEmployersRating s.1.db r ∧ s.1.db.isRated r.raterId r.assignmentId = false

/-- When a process may issue a command. -/
def RatingPre (i : ℕ) (s : Store × Notes) : Cmd → Prop
  | .commit => ∃ r ws, Ready i s r ws
  | .stmt (.upsertRating _) => ∃ u, s.1.session i = some u
  | .stmt (.updateAggregate _ _ _) => ∃ u, s.1.session i = some u
  | .stmt (.updateReliability _ _) => ∃ u, s.1.session i = some u
  | _ => True

/-- The invariant of the store. -/
structure RatingInv (s : Store × Notes) : Prop where
  exclusive : s.1.Exclusive
  covered : s.1.Covered engine observe
  wellRated : ∀ q ∈ s.1.db.ratings, s.1.db.WellRated q

variable {s t : Store × Notes}

theorem exec_tracked {i : ℕ} {c : Cmd} {fees : Fees} {a : Resp c} :
    tracked.exec s i c fees = some (t, a) ↔
      s.1.exec engine i c fees = some (t.1, a) ∧ t.2 = s.2.record i c a :=
  Service.withHistory_exec

/-- Only a commit changes the database. -/
theorem db_of_exec {s t : Store} {i : ℕ} {n : Notes} {c : Cmd} {fees : Fees} {a : Resp c}
    (hpre : RatingPre i (s, n) c) (hc : c ≠ .commit)
    (hexec : s.exec engine i c fees = some (t, a)) : t.db = s.db := by
  cases c with
  | begin =>
    obtain ⟨-, rfl⟩ := ReadCommitted.Store.exec_begin hexec
    rfl
  | commit => exact (hc rfl).elim
  | rollback =>
    obtain rfl := ReadCommitted.Store.exec_rollback hexec
    rfl
  | stmt c =>
    obtain ⟨writes, locks, hrun, -, ⟨u, -, rfl⟩ | ⟨hnone, rfl⟩⟩ :=
      ReadCommitted.Store.exec_stmt hexec
    · rfl
    -- outside a transaction the service only reads
    · cases c with
      | upsertRating | updateAggregate | updateReliability =>
        obtain ⟨u, hu⟩ := hpre
        exact absurd (hnone.symm.trans hu) (by simp)
      | _ =>
        obtain ⟨-, hrest⟩ := pair_inj hrun
        obtain ⟨rfl, -⟩ := Prod.mk.inj hrest
        rfl

/-! ### What a commit does -/

/-- Updates of profiles leave the ratings alone. -/
theorem ratings_applyAll {ws : List Write} (d : Db) {p : ℕ}
    (hws : ∀ w ∈ ws, ∃ score, w = .updateReliability p score) :
    (engine.applyAll d ws).ratings = d.ratings := by
  induction ws generalizing d with
  | nil => rfl
  | cons w ws ih =>
    obtain ⟨score, rfl⟩ := hws w mem_cons_self
    rw [ReadCommitted.Engine.applyAll_cons, ih _ fun w hw => hws w (mem_cons_of_mem _ hw)]
    rfl

/-- Changes of a score leave the aggregates alone, and the other profiles altogether. -/
theorem profiles_applyAll {ws : List Write} (d : Db) {p : ℕ}
    (hws : ∀ w ∈ ws, ∃ score, w = .updateReliability p score) (q : ℕ) :
    ((engine.applyAll d ws).profiles[q]?).map (fun x => (x.ratingAvg, x.ratingCount)) =
      (d.profiles[q]?).map fun x => (x.ratingAvg, x.ratingCount) := by
  induction ws generalizing d with
  | nil => rfl
  | cons w ws ih =>
    obtain ⟨score, rfl⟩ := hws w mem_cons_self
    rw [ReadCommitted.Engine.applyAll_cons, ih _ fun w hw => hws w (mem_cons_of_mem _ hw)]
    change ((Table.update d.profiles p _)[q]?).map _ = _
    rw [Table.getElem?_update, Option.map_map]
    congr 1
    funext x
    dsimp only [Function.comp]
    split_ifs <;> rfl

/-- The database after the commit of a transaction that is `Ready`. -/
def Db.committed (d : Db) (r : Rating) (rows : List Rating) (ws : List Write) : Db :=
  engine.applyAll d (.upsertRating r ::
    .updateAggregate r.rateeId (ratingAvg rows) rows.length :: ws)

section Committed

variable {d : Db} {r : Rating} {rows : List Rating} {ws : List Write}
  (hws : ∀ w ∈ ws, ∃ score, w = .updateReliability r.rateeId score)

theorem hiring_committed (d : Db) (r : Rating) (rows : List Rating) (ws : List Write) :
    (d.committed r rows ws).hiring = d.hiring :=
  hiring_applyAll _ _

include hws in
theorem ratings_committed : (d.committed r rows ws).ratings = (d.upsertRating r).ratings := by
  rw [Db.committed, ReadCommitted.Engine.applyAll_cons, ReadCommitted.Engine.applyAll_cons,
    ratings_applyAll _ hws]
  rfl

include hws in
theorem ratingsOf_committed (p : ℕ) :
    (d.committed r rows ws).ratingsOf p = (d.upsertRating r).ratingsOf p := by
  rw [Db.ratingsOf, ratings_committed hws, Db.ratingsOf]

include hws in
theorem isRated_committed (k a : ℕ) : (d.committed r rows ws).isRated k a =
      (d.isRated k a || decide (r.raterId = k ∧ r.assignmentId = a)) := by
  rw [Db.isRated, ratings_committed hws, ← Db.isRated, isRated_upsertRating]

include hws in
/-- The aggregate of the rated person is the one that was written, the others keep theirs. -/
theorem aggregate_committed (p : ℕ) :
    ((d.committed r rows ws).profiles[p]?).map (fun x => (x.ratingAvg, x.ratingCount)) =
      (d.profiles[p]?).map fun x =>
        if r.rateeId = p then (ratingAvg rows, rows.length) else (x.ratingAvg, x.ratingCount) := by
  rw [Db.committed, ReadCommitted.Engine.applyAll_cons, ReadCommitted.Engine.applyAll_cons,
    profiles_applyAll _ hws]
  change ((Table.update (d.upsertRating r).profiles r.rateeId _)[p]?).map _ = _
  rw [Table.getElem?_update, Option.map_map, profiles_upsertRating]
  congr 1
  funext x
  dsimp only [Function.comp]
  split_ifs <;> rfl

include hws in
/-- **A commit keeps the aggregates exact**, where the rows it aggregated are the ratings the
person has after it. -/
theorem exact_committed (hd : d.Exact) (hwell : d.WellRated r)
    (hall : ∀ q ∈ d.ratings, d.WellRated q)
    (hrows : (d.committed r rows ws).ratingsOf r.rateeId = rows) :
    (d.committed r rows ws).Exact := by
  intro p x hx
  have haggregate : ((d.committed r rows ws).profiles[p]?).map
      (fun x => (x.ratingAvg, x.ratingCount)) = _ := aggregate_committed hws p
  rw [hx, Option.map_some] at haggregate
  obtain ⟨y, hy, hyx⟩ := Option.map_eq_some_iff.1 haggregate.symm
  rcases eq_or_ne r.rateeId p with rfl | hne
  · rw [if_pos rfl] at hyx
    obtain ⟨havg, hcount⟩ := Prod.mk.inj hyx
    rw [hrows, ← hcount, ← havg]
    exact ⟨rfl, rfl⟩
  · rw [if_neg hne] at hyx
    obtain ⟨havg, hcount⟩ := Prod.mk.inj hyx
    rw [ratingsOf_committed hws, ratingsOf_upsertRating_of_ne hwell hall hne, ← hcount, ← havg]
    exact hd p y hy

end Committed

/-! ### The discipline -/

/-- The commit of a transaction that is `Ready`. -/
theorem exec_commit_ready {s t : Store} {n : Notes} {i : ℕ} {fees : Fees} {r : Rating}
    {ws : List Write} {a : Unit} (hready : Ready i (s, n) r ws)
    (hexec : s.exec engine i .commit fees = some (t, a)) :
    t.db = s.db.committed r (n.current i).rows ws ∧ s.view engine i = t.db := by
  obtain ⟨locks, hsession⟩ := hready.session
  obtain ⟨u, hu, rfl⟩ := ReadCommitted.Store.exec_commit hexec
  obtain rfl := Option.some.inj (hu.symm.trans hsession)
  refine ⟨rfl, ?_⟩
  rw [ReadCommitted.Store.view, hsession]

theorem RatingInv.exec {i : ℕ} {c : Cmd} {fees : Fees} {a : Resp c}
    (hs : RatingInv s) (hpre : RatingPre i s c)
    (hexec : s.1.exec engine i c fees = some (t.1, a)) : RatingInv t := by
  refine ⟨hs.exclusive.exec hexec, hs.covered.exec engine_protects hexec, ?_⟩
  by_cases hc : c = .commit
  · subst hc
    obtain ⟨r, ws, hready⟩ := hpre
    obtain ⟨hdb, -⟩ := exec_commit_ready hready hexec
    intro q hq
    rw [hdb, ratings_committed hready.writes] at hq
    obtain ⟨x, hx, hqx⟩ := wellRated_upsertRating hready.wellRated hs.wellRated hq
    refine ⟨x, ?_, hqx⟩
    rw [hdb, findAssignment_congr (hiring_committed _ _ _ _)]
    exact hx
  · rw [db_of_exec hpre hc hexec]
    exact hs.wellRated

theorem ratingRely_of_exec {i j : ℕ} {c : Cmd} {fees : Fees} {a : Resp c}
    (hs : RatingInv s) (hpre : RatingPre i s c)
    (hexec : s.1.exec engine i c fees = some (t.1, a)) (hnotes : t.2 = s.2.record i c a)
    (hj : j ≠ i) : RatingRely j s t where
  session := ReadCommitted.Store.session_of_exec hexec hj
  current := by rw [hnotes, Notes.record_of_ne hj]
  hiring := by
    by_cases hc : c = .commit
    · subst hc
      obtain ⟨r, ws, hready⟩ := hpre
      rw [(exec_commit_ready hready hexec).1, hiring_committed]
    · rw [db_of_exec hpre hc hexec]
  isRated k b hheld := by
    have hobs := ReadCommitted.Store.observed_of_exec engine_protects hs.covered hs.exclusive hexec
      hj hheld
    exact (Prod.mk.inj hobs).1

theorem RatingRely.holds {i : ℕ} (h : RatingRely i s t) {k : Lock}
    (hk : s.1.Holds i k) : t.1.Holds i k :=
  hk.of_session h.session

/-- The contract of the rating service. -/
def ratingService : Discipline tracked where
  guard := undisturbed
  inv := RatingInv
  pre i c s := RatingPre i s c
  rely := RatingRely
  idle _ _ := True
  rely_refl _ _ := ⟨rfl, rfl, rfl, fun _ _ _ => rfl⟩
  rely_trans h h' :=
    ⟨h'.session.trans h.session, h'.current.trans h.current, h'.hiring.trans h.hiring,
      fun k a hk => (h'.isRated k a (h.holds hk)).trans (h.isRated k a hk)⟩
  idle_rely _ _ := trivial
  sound hs hpre _ hexec := by
    obtain ⟨hstep, hnotes⟩ := exec_tracked.1 hexec
    exact ⟨hs.exec hpre hstep, fun j hj => ratingRely_of_exec hs hpre hstep hnotes hj⟩

/-! ### The program -/

/-- A transaction that has stored the rating `r`, and whose first lookup of it was right. -/
structure Stored (i : ℕ) (r : Rating) (isEmployer : Bool) (ws : List Write) (tr : Track)
    (s : Store × Notes) : Prop where
  session : ∃ locks, s.1.session i = some ⟨.upsertRating r :: ws, locks⟩ ∧
    Lock.rating r.raterId r.assignmentId ∈ locks
  current : s.2.current i = tr
  wellRated : s.1.db.WellRated r
  employers : isEmployersRating s.1.db r = isEmployer
  first : tr.first → isEmployer → s.1.db.isRated r.raterId r.assignmentId = false

theorem wellRated_congr {d d' : Db} (h : d'.hiring = d.hiring) {r : Rating}
    (hr : d.WellRated r) : d'.WellRated r := by
  obtain ⟨x, hx, hratee⟩ := hr
  exact ⟨x, (findAssignment_congr h _).trans hx, hratee⟩

theorem isEmployersRating_congr {d d' : Db} (h : d'.hiring = d.hiring) (r : Rating) :
    isEmployersRating d' r = isEmployersRating d r := by
  rw [isEmployersRating, findAssignment_congr h, isEmployersRating]

variable {i : ℕ} {r : Rating} {isEmployer : Bool} {ws : List Write} {tr : Track}

/-- Nothing is promised of an operation that throws. -/
abbrev Anything : Exn → Store × Notes → Prop := fun _ _ => True

theorem stable_stored : ratingService.Stable i (Stored i r isEmployer ws tr) := by
  intro s t _ hrely hs
  obtain ⟨locks, hsession, hmem⟩ := hs.session
  refine ⟨⟨locks, hrely.session.trans hsession, hmem⟩, hrely.current.trans hs.current,
    wellRated_congr hrely.hiring hs.wellRated,
    (isEmployersRating_congr hrely.hiring r).trans hs.employers, fun hfirst hemployer => ?_⟩
  rw [hrely.isRated _ _ ⟨_, hsession, hmem⟩]
  exact hs.first hfirst hemployer

/-- A statement of the transaction, with the writes `writes`, that is noted as `f`. -/
theorem stored_query (c : Stmt) (writes : List Write) (f : Answer c → Track)
    (hpre : ∀ s, (∃ u, s.1.session i = some u) → RatingPre i s (.stmt c))
    (hrun : ∀ d fees a writes' locks, engine.run d c fees = some (a, writes', locks) →
      writes' = writes)
    (hnote : ∀ (n : Notes) (a : Answer c), n.current i = tr →
      (n.record i (.stmt c) a).current i = f a)
    (hfirst : ∀ a, (f a).first = tr.first) :
    ratingService.Triple i (Stored i r isEmployer ws tr) (query c)
      (fun a => Stored i r isEmployer (ws ++ writes) (f a)) Anything := by
  refine Discipline.Triple.cmd stable_stored (fun s _ hs => ?_) ?_ fun _ _ _ _ _ => trivial
  · obtain ⟨locks, hsession, -⟩ := hs.session
    exact hpre s ⟨_, hsession⟩
  intro s fees t a _ hs _ hexec _
  obtain ⟨hstep, hnotes⟩ := exec_tracked.1 hexec
  obtain ⟨locks, hsession, hmem⟩ := hs.session
  obtain ⟨writes', locks', hwrites, -, ⟨u, hu, ht⟩ | ⟨hnone, -⟩⟩ :=
    ReadCommitted.Store.exec_stmt hstep
  · obtain rfl := Option.some.inj (hu.symm.trans hsession)
    obtain rfl := hrun _ _ _ _ _ hwrites
    have hdb : t.1.db = s.1.db := by rw [ht, ReadCommitted.Store.put_db]
    refine ⟨⟨locks ++ locks', ?_, mem_append_left _ hmem⟩, ?_, ?_, ?_, ?_⟩
    · rw [ht, ReadCommitted.Store.session_put_self]
      rfl
    · rw [hnotes, hnote _ _ hs.current]
    · rw [hdb]
      exact hs.wellRated
    · rw [hdb]
      exact hs.employers
    · rw [hdb, hfirst]
      exact hs.first
  · exact absurd (hnone.symm.trans hsession) (by simp)

/-- A transaction that has done all but commit. -/
def Finished (i : ℕ) (r : Rating) (isEmployer : Bool) (s : Store × Notes) : Prop :=
  ∃ tr ws, Stored i r isEmployer
      (.updateAggregate r.rateeId (ratingAvg tr.rows) tr.rows.length :: ws) tr s ∧
    (∀ w ∈ ws, ∃ score, w = .updateReliability r.rateeId score) ∧
    tr.rateeId = r.rateeId ∧
    (tr.scored → tr.assignmentId = r.assignmentId ∧ isEmployer ∧ tr.first)

theorem stable_finished : ratingService.Stable i (Finished i r isEmployer) :=
  Discipline.stable_exists fun _ => Discipline.stable_exists fun _ =>
    stable_stored.and (Discipline.stable_const _)

theorem Finished.ready {s : Store × Notes} (h : Finished i r isEmployer s) :
    ∃ ws, Ready i s r ws := by
  obtain ⟨tr, ws, hstored, hws, hratee, hscored⟩ := h
  obtain ⟨locks, hsession, -⟩ := hstored.session
  refine ⟨ws, ⟨locks, ?_⟩, hws, ?_, hstored.wellRated, fun h => ?_⟩
  · rw [hstored.current]
    exact hsession
  · rw [hstored.current]
    exact hratee
  · rw [hstored.current] at h ⊢
    obtain ⟨hassignment, hemployer, hfirst⟩ := hscored h
    exact ⟨hassignment, hstored.employers.trans hemployer, hstored.first hfirst hemployer⟩

/-- The transaction moves the score of the rated person or leaves it. -/
theorem applyRating_finished (hratee : tr.rateeId = r.rateeId)
    (hassignment : tr.assignmentId = r.assignmentId) (hscored : tr.scored = false)
    (hfirst : isEmployer ∧ tr.first) (score : ℤ) :
    ratingService.Triple i
      (Stored i r isEmployer [.updateAggregate r.rateeId (ratingAvg tr.rows) tr.rows.length] tr)
      (applyRatingToReliability r.rateeId score) (fun _ => Finished i r isEmployer) Anything := by
  have hkept : ∀ s, Stored i r isEmployer
      [.updateAggregate r.rateeId (ratingAvg tr.rows) tr.rows.length] tr s →
      Finished i r isEmployer s := by
    intro s hs
    refine ⟨tr, [], hs, fun w hw => absurd hw (by simp), hratee, fun h => ?_⟩
    rw [hscored] at h
    cases h
  refine Discipline.Triple.bind (stored_query .getFees [] (fun _ => tr) (fun _ _ => trivial)
    (fun _ _ _ _ _ h => ?_) (fun _ _ h => h) fun _ => rfl) fun fees => ?_
  · exact ((Prod.mk.inj (pair_inj h).2).1).symm
  rw [append_nil]
  dsimp only
  split
  · exact Discipline.Triple.ret fun s _ hs => hkept s hs
  refine Discipline.Triple.bind (stored_query (.findReliability _) [] (fun _ => tr)
    (fun _ _ => trivial) (fun _ _ _ _ _ h => ?_) (fun _ _ h => h) fun _ => rfl) fun worker => ?_
  · exact ((Prod.mk.inj (pair_inj h).2).1).symm
  rw [append_nil]
  split
  · generalize fees.clamp _ = nextScore
    refine Discipline.Triple.post_mono (X := Anything)
      (stored_query (.updateReliability r.rateeId nextScore)
        [.updateReliability r.rateeId nextScore] (fun _ => { tr with scored := true })
        (fun _ h => h) (fun _ _ _ _ _ h => ?_) (fun n _ h => ?_) fun _ => rfl)
      (fun _ s _ hs => ?_) fun _ _ _ h => h
    · exact ((Prod.mk.inj (pair_inj h).2).1).symm
    · rw [Notes.record, Notes.set_self, h]
    · refine ⟨{ tr with scored := true }, [_], hs, fun w hw => ?_, hratee, fun _ => ⟨hassignment, hfirst⟩⟩
      obtain rfl := mem_singleton.1 hw
      exact ⟨_, rfl⟩
  · exact Discipline.Triple.ret fun s _ hs => hkept s hs

/-- The lookup and the storing of a rating. -/
def Opened (i : ℕ) (r : Rating) (isEmployer : Bool) (tr : Track) (s : Store × Notes) : Prop :=
  (∃ locks, s.1.session i = some ⟨[], locks⟩) ∧ s.2.current i = tr ∧ s.1.db.WellRated r ∧
    isEmployersRating s.1.db r = isEmployer

theorem stable_opened : ratingService.Stable i (Opened i r isEmployer tr) := by
  rintro s t - hrely ⟨⟨locks, hsession⟩, hcurrent, hwell, hemployer⟩
  exact ⟨⟨locks, hrely.session.trans hsession⟩, hrely.current.trans hcurrent,
    wellRated_congr hrely.hiring hwell,
    (isEmployersRating_congr hrely.hiring r).trans hemployer⟩

/-- The rating goes to the other side, and comes from the employer or not. -/
def Known (r : Rating) (isEmployer : Bool) (s : Store × Notes) : Prop :=
  s.1.db.WellRated r ∧ isEmployersRating s.1.db r = isEmployer

theorem stable_known : ratingService.Stable i (Known r isEmployer) := by
  rintro s t - hrely ⟨hwell, hemployer⟩
  exact ⟨wellRated_congr hrely.hiring hwell,
    (isEmployersRating_congr hrely.hiring r).trans hemployer⟩

theorem begin_opened : ratingService.Triple i (Known r isEmployer) (ReadCommitted.issue .begin)
      (fun _ => Opened i r isEmployer {}) Anything := by
  refine Discipline.Triple.cmd stable_known (fun _ _ _ => trivial) ?_ fun _ _ _ _ _ => trivial
  rintro s fees t a - ⟨hwell, hemployer⟩ - hexec -
  obtain ⟨hstep, hnotes⟩ := exec_tracked.1 hexec
  obtain ⟨-, ht⟩ := ReadCommitted.Store.exec_begin hstep
  have hdb : t.1.db = s.1.db := by rw [ht, ReadCommitted.Store.put_db]
  refine ⟨⟨[], ?_⟩, ?_, ?_, ?_⟩
  · rw [ht, ReadCommitted.Store.session_put_self]
  · rw [hnotes]
    exact Notes.set_self _ _ _
  · rwa [hdb]
  · rwa [hdb]

theorem findRating_opened : ratingService.Triple i (Opened i r isEmployer {})
      (query (.findRating r.raterId r.assignmentId))
      (fun existing => Opened i r isEmployer
        { raterId := r.raterId, assignmentId := r.assignmentId, first := !existing })
      Anything := by
  refine Discipline.Triple.cmd stable_opened (fun _ _ _ => trivial) ?_ fun _ _ _ _ _ => trivial
  rintro s fees t a - ⟨⟨locks, hsession⟩, hcurrent, hwell, hemployer⟩ - hexec -
  obtain ⟨hstep, hnotes⟩ := exec_tracked.1 hexec
  obtain ⟨writes, locks', hrun, -, ⟨u, hu, ht⟩ | ⟨hnone, -⟩⟩ := ReadCommitted.Store.exec_stmt hstep
  · obtain rfl := Option.some.inj (hu.symm.trans hsession)
    obtain ⟨-, hrest⟩ := pair_inj hrun
    obtain ⟨rfl, -⟩ := Prod.mk.inj hrest
    have hdb : t.1.db = s.1.db := by rw [ht, ReadCommitted.Store.put_db]
    refine ⟨⟨locks ++ locks', ?_⟩, ?_, ?_, ?_⟩
    · rw [ht, ReadCommitted.Store.session_put_self]
      rfl
    · rw [hnotes, Notes.record, Notes.set_self, hcurrent]
    · rwa [hdb]
    · rwa [hdb]
  · exact absurd (hnone.symm.trans hsession) (by simp)

/-- The rating is stored while nobody else holds its key; one that was read as missing is still
missing, as far as the employer's ratings go. -/
theorem upsertRating_stored :
    ratingService.Triple i (Opened i r isEmployer tr) (query (.upsertRating r))
      (fun _ => Stored i r isEmployer [] tr) Anything := by
  refine Discipline.Triple.cmd stable_opened (fun s _ hs => ?_) ?_ fun _ _ _ _ _ => trivial
  · obtain ⟨⟨locks, hsession⟩, -⟩ := hs
    exact ⟨_, hsession⟩
  rintro s fees t a - ⟨⟨locks, hsession⟩, hcurrent, hwell, hemployer⟩ hguard hexec -
  obtain ⟨hstep, hnotes⟩ := exec_tracked.1 hexec
  obtain ⟨writes, locks', hrun, -, ⟨u, hu, ht⟩ | ⟨hnone, -⟩⟩ := ReadCommitted.Store.exec_stmt hstep
  · obtain rfl := Option.some.inj (hu.symm.trans hsession)
    obtain ⟨-, hrest⟩ := pair_inj hrun
    obtain ⟨rfl, rfl⟩ := Prod.mk.inj hrest
    have hdb : t.1.db = s.1.db := by rw [ht, ReadCommitted.Store.put_db]
    have hview : s.1.view engine i = s.1.db := by
      rw [ReadCommitted.Store.view, hsession]
      rfl
    refine ⟨⟨locks ++ [.rating r.raterId r.assignmentId], ?_,
      mem_append_right _ mem_cons_self⟩, ?_, ?_, ?_, ?_⟩
    · rw [ht, ReadCommitted.Store.session_put_self]
      rfl
    · rw [hnotes]
      exact hcurrent
    · rwa [hdb]
    · rwa [hdb]
    · intro hfirst hemployed
      change undisturbed s (.step i (.stmt (.upsertRating r)) fees) = true at hguard
      simp only [undisturbed, hcurrent, hfirst, hemployer, hemployed, hview, Bool.and_self,
        Bool.true_and, Bool.not_eq_true'] at hguard
      rwa [hdb]
  · exact absurd (hnone.symm.trans hsession) (by simp)

/-- What is noted of a transaction that has aggregated. -/
def Track.rated (r : Rating) (existing : Bool) (rows : List Rating) : Track where
  raterId := r.raterId
  assignmentId := r.assignmentId
  first := !existing
  rateeId := r.rateeId
  rows := rows

theorem storeRating_obeys :
    ratingService.Triple i (Known r isEmployer) (storeRating r isEmployer) (fun _ _ => True)
      Anything := by
  refine Discipline.Triple.bind begin_opened fun _ => ?_
  refine Discipline.Triple.orElseCatch (Y := Anything) (Discipline.Triple.bind
    (R := fun _ => Finished i r isEmployer) ?_ fun _ => ?_) fun e => ?_
  · refine Discipline.Triple.bind findRating_opened fun existing => ?_
    refine Discipline.Triple.bind upsertRating_stored fun _ => ?_
    refine Discipline.Triple.bind (stored_query (.aggregateRatings r.rateeId) []
      (fun rows => .rated r existing rows) (fun _ _ => trivial) (fun _ _ _ _ _ h => ?_)
      (fun n rows h => ?_) fun _ => rfl) fun rows => ?_
    · exact ((Prod.mk.inj (pair_inj h).2).1).symm
    · rw [Notes.record, Notes.set_self, h]
      rfl
    refine Discipline.Triple.bind (stored_query (.updateAggregate r.rateeId _ _)
      [.updateAggregate r.rateeId (ratingAvg rows) rows.length]
      (fun _ => .rated r existing rows) (fun _ h => h) (fun _ _ _ _ _ h => ?_)
      (fun n _ h => h) fun _ => rfl) fun _ => ?_
    · exact ((Prod.mk.inj (pair_inj h).2).1).symm
    split
    · rename_i hscore
      rw [Bool.and_eq_true] at hscore
      have hfirst : isEmployer = true ∧ (Track.rated r existing rows).first = true := hscore
      exact applyRating_finished rfl rfl rfl hfirst _
    · refine Discipline.Triple.ret fun s _ hs => ⟨.rated r existing rows, [], hs,
        fun w hw => absurd hw (by simp), rfl, fun h => ?_⟩
      cases h
  · refine Discipline.Triple.bind (R := fun _ _ => True) (Discipline.Triple.cmd stable_finished
      (fun s _ hs => ?_) (fun _ _ _ _ _ _ _ _ _ => trivial) fun _ _ _ _ _ => trivial) fun _ =>
        Discipline.Triple.ret fun _ _ _ => trivial
    obtain ⟨ws, hready⟩ := hs.ready
    exact ⟨r, ws, hready⟩
  · refine Discipline.Triple.bind (R := fun _ _ => True) (Discipline.Triple.cmd
      (Discipline.stable_const True) (fun _ _ _ => trivial) (fun _ _ _ _ _ _ _ _ _ => trivial)
      fun _ _ _ _ _ => trivial) fun _ => Discipline.Triple.fail fun _ _ _ => trivial

/-- The assignment that the service finds stays what it is. -/
theorem findAssignment_found (a : ℕ) :
    ratingService.Triple i (fun _ => True) (query (.findAssignment a))
      (fun o s => ∀ x, o = some x → s.1.db.findAssignment a = some x) Anything := by
  refine Discipline.Triple.cmd (Discipline.stable_const True) (fun _ _ _ => trivial) ?_
    fun _ _ _ _ _ => trivial
  rintro s fees t o - - - hexec - x rfl
  obtain ⟨hstep, -⟩ := exec_tracked.1 hexec
  obtain ⟨writes, locks, hrun, -, hcases⟩ := ReadCommitted.Store.exec_stmt hstep
  obtain ⟨hanswer, hrest⟩ := pair_inj hrun
  obtain ⟨rfl, -⟩ := Prod.mk.inj hrest
  have hdb : t.1.db = s.1.db := by
    obtain ⟨u, -, ht⟩ | ⟨-, ht⟩ := hcases
    · rw [ht, ReadCommitted.Store.put_db]
    · rw [ht]
      rfl
  have hhiring : (s.1.view engine i).hiring = s.1.db.hiring := by
    unfold ReadCommitted.Store.view
    split
    · exact hiring_applyAll _ _
    · rfl
  rw [hdb, ← hanswer, findAssignment_congr hhiring]

theorem rateAssignment_obeys (a raterId : ℕ) (score : ℚ) :
    ratingService.Triple i (fun _ => True) (rateAssignment a raterId score) (fun _ _ => True)
      Anything := by
  unfold rateAssignment
  simp only [Op.bind_eq, Op.throw_eq]
  split
  · exact Discipline.Triple.fail fun _ _ _ => trivial
  refine Discipline.Triple.bind (findAssignment_found a) fun o => ?_
  cases o with
  | none => exact Discipline.Triple.fail fun _ _ _ => trivial
  | some x =>
    dsimp only
    split
    · exact Discipline.Triple.fail fun _ _ _ => trivial
    split
    · exact Discipline.Triple.fail fun _ _ _ => trivial
    refine Discipline.Triple.pre_mono storeRating_obeys fun s _ hfound => ?_
    have hx := hfound x rfl
    refine ⟨⟨x, hx, ?_⟩, ?_⟩
    · simp [Assignment.counterparty]
    · simp [isEmployersRating, hx]

/-- Every request keeps to the discipline. -/
theorem handles_ratings : Discipline.Handles tracked ratingService :=
  fun r i s hs _ _ => rateAssignment_obeys (i := i) r.assignmentId r.raterProfileId r.score s hs
    trivial

end Rabotka.Missions
