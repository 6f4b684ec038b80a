import Rabotka.Interests.Recommendations

/-!
# What is recommended is new

The three sources are merged into the first job of each id (`merged_eq`), of which the ranking only
changes the scores and the order. So `recommend` returns distinct jobs within the limit, fewer only
if the sources offer fewer, in the order of scores from zero to one.

`exploit` and `explore` ask the store to leave out what the worker has seen. `fallback` asks with
the filter of a worker who has seen nothing, so a job that the worker has seen comes back through
it (`seen_job_recommended`) unless enough other jobs come before it
(`recommends_new_iff`).
-/

namespace Rabotka.Interests.Recommending

open Lib.Distinct List

/-! ### Scores -/

/-- A half-life does not raise a score, and leaves it positive. -/
theorem decay_mem_unit {x halfLife : ℝ} (hx : 0 ≤ x) (hhalf : 0 ≤ halfLife) :
    0 ≤ Real.exp (-Real.log 2 * x / halfLife) ∧ Real.exp (-Real.log 2 * x / halfLife) ≤ 1 := by
  refine ⟨(Real.exp_pos _).le, Real.exp_le_one_iff.mpr ?_⟩
  have hlog : 0 ≤ Real.log 2 := Real.log_nonneg (by norm_num)
  rw [neg_mul, neg_div, neg_nonpos]
  exact div_nonneg (mul_nonneg hlog hx) hhalf

theorem haversineKm_nonneg (a b : Coordinates) : 0 ≤ haversineKm a b := by
  have hradius : (0 : ℝ) ≤ 2 * earthRadiusKm := by norm_num [earthRadiusKm]
  exact mul_nonneg hradius (Real.arcsin_nonneg.mpr (Real.sqrt_nonneg _))

theorem proximityScore_mem_unit {d : ℝ} (hd : 0 ≤ d) :
    0 ≤ proximityScore d ∧ proximityScore d ≤ 1 :=
  decay_mem_unit hd (by norm_num [halfLifeKm])

theorem urgencyScore_mem_unit (scheduledAt now : ℤ) :
    0 ≤ urgencyScore scheduledAt now ∧ urgencyScore scheduledAt now ≤ 1 :=
  decay_mem_unit (le_max_left 0 _) (by norm_num [urgencyHalfLifeHours])

/-- A score between the least and the greatest one is normalized into the unit interval. -/
theorem normalized_mem_unit {x low high : ℝ} (hlow : low ≤ x) (hhigh : x ≤ high) :
    0 ≤ (x - low) / (if high - low = 0 then 1 else high - low)
      ∧ (x - low) / (if high - low = 0 then 1 else high - low) ≤ 1 := by
  split_ifs with h
  · have hx : x - low = 0 := by linarith
    rw [hx, zero_div]
    exact ⟨le_rfl, zero_le_one⟩
  · have hpos : 0 < high - low := lt_of_le_of_ne (by linarith) (Ne.symm h)
    exact ⟨div_nonneg (by linarith) hpos.le, (div_le_one hpos).mpr (by linarith)⟩

variable {r : RecommendedJob}

/-- The combined score of a job is in the unit interval if its normalized one is. -/
theorem combinedScore_mem_unit (env : Environment) {minScore scoreRange : ℝ}
    (h : 0 ≤ (r.score - minScore) / scoreRange ∧ (r.score - minScore) / scoreRange ≤ 1) :
    0 ≤ combinedScore env minScore scoreRange r ∧ combinedScore env minScore scoreRange r ≤ 1 := by
  have hweights : ∀ {a b c : ℝ}, (0 ≤ a ∧ a ≤ 1) → (0 ≤ b ∧ b ≤ 1) → (0 ≤ c ∧ c ≤ 1) →
      0 ≤ 0.5 * a + 0.3 * b + 0.2 * c ∧ 0.5 * a + 0.3 * b + 0.2 * c ≤ 1 := by
    rintro a b c ⟨ha₀, ha₁⟩ ⟨hb₀, hb₁⟩ ⟨hc₀, hc₁⟩
    constructor <;> linarith
  refine hweights h ?_ ?_
  · split
    · exact proximityScore_mem_unit (haversineKm_nonneg _ _)
    · norm_num
  · split
    · exact urgencyScore_mem_unit _ _
    · norm_num

/-- The scores after ranking are in the unit interval. -/
theorem score_mem_of_mem_rerank {env : Environment} {results : List RecommendedJob}
    (h : r ∈ rerank env results) : 0 ≤ r.score ∧ r.score ≤ 1 := by
  rw [rerank] at h
  split_ifs at h with hnil
  · rw [length_eq_zero_iff.mp hnil] at h
    exact nomatch h
  · rw [mem_mergeSort, mem_map] at h
    obtain ⟨job, hjob, rfl⟩ := h
    have hscore : job.score ∈ results.map RecommendedJob.score := mem_map_of_mem hjob
    have hne := ne_nil_of_mem hscore
    refine combinedScore_mem_unit env (normalized_mem_unit ?_ ?_)
    · rw [min?_eq_some_min hne]
      exact min_le_of_mem hscore
    · rw [max?_eq_some_max hne]
      exact le_max_of_mem hscore

/-- The ranking goes by score. -/
theorem pairwise_rerank (env : Environment) (results : List RecommendedJob) :
    (rerank env results).Pairwise fun a b => b.score ≤ a.score := by
  rw [rerank]
  split_ifs with hnil
  · rw [length_eq_zero_iff.mp hnil]
    exact List.Pairwise.nil
  · have hsorted := @List.pairwise_mergeSort _
      (fun a b : RecommendedJob => decide (b.score ≤ a.score))
      (fun a b c hab hbc => by
        rw [decide_eq_true_eq] at hab hbc ⊢
        exact hbc.trans hab)
      (fun a b => by
        rw [Bool.or_eq_true, decide_eq_true_eq, decide_eq_true_eq]
        exact le_total _ _)
    exact (hsorted _).imp fun h => of_decide_eq_true h

/-- The ranking keeps the jobs. -/
theorem rerank_perm (env : Environment) (results : List RecommendedJob) :
    ((rerank env results).map RecommendedJob.jobId).Perm
      (results.map RecommendedJob.jobId) := by
  rw [rerank]
  split_ifs with hnil
  · exact Perm.refl _
  · refine ((mergeSort_perm _ _).map _).trans ?_
    rw [map_map]
    exact Perm.refl _

/-! ### Merging -/

/-- A list of jobs with their ids. -/
def Merged.of (out : List RecommendedJob) : Merged := ⟨out.map RecommendedJob.jobId, out⟩

/-- One job of `mergeUnique`. -/
theorem addNew_eq (out : List RecommendedJob) (r : RecommendedJob) :
    (if r.jobId ∈ (Merged.of out).seen then Merged.of out
      else ⟨(Merged.of out).seen ++ [r.jobId], (Merged.of out).out ++ [r]⟩)
      = Merged.of (addNew RecommendedJob.jobId out r) := by
  by_cases h : r.jobId ∈ out.map RecommendedJob.jobId
  · rw [addNew_of_mem h]
    exact if_pos h
  · rw [addNew_of_not_mem h]
    refine (if_neg h).trans ?_
    simp [Merged.of]

/-- Without a cap the first job of each id is kept. -/
theorem mergeUnique_none (items out : List RecommendedJob) : mergeUnique none items (Merged.of out)
      = Merged.of (items.foldl (addNew RecommendedJob.jobId) out) := by
  induction items generalizing out with
  | nil => rfl
  | cons r items ih =>
    rw [foldl_cons, ← ih, ← addNew_eq, mergeUnique]
    split_ifs
    · rfl
    · rfl

/-- With a cap the loop stops early, and only with that many jobs. -/
theorem mergeUnique_some (n : ℕ) (items out : List RecommendedJob) :
    ∃ read rest, items = read ++ rest ∧ (mergeUnique (some n) items (Merged.of out)).out
        = read.foldl (addNew RecommendedJob.jobId) out
      ∧ (rest = [] ∨ n ≤ (read.foldl (addNew RecommendedJob.jobId) out).length) := by
  induction items generalizing out with
  | nil => exact ⟨[], [], rfl, rfl, Or.inl rfl⟩
  | cons r items ih =>
    have hnext := addNew_eq out r
    obtain ⟨read, rest, rfl, hout, hrest⟩ := ih (addNew RecommendedJob.jobId out r)
    rw [mergeUnique]
    by_cases hmem : r.jobId ∈ (Merged.of out).seen
    · rw [if_pos hmem] at hnext ⊢
      rw [hnext]
      exact ⟨r :: read, rest, rfl, hout, hrest⟩
    · rw [if_neg hmem] at hnext ⊢
      rw [hnext]
      dsimp only
      split_ifs with hfull
      · exact ⟨[r], read ++ rest, rfl, rfl, Or.inr hfull⟩
      · exact ⟨r :: read, rest, rfl, hout, hrest⟩

/-- The cap makes no difference to the jobs that are kept. -/
theorem take_mergeUnique_some (n : ℕ) (items out : List RecommendedJob) :
    (mergeUnique (some n) items (Merged.of out)).out.take n
      = (items.foldl (addNew RecommendedJob.jobId) out).take n := by
  obtain ⟨read, rest, rfl, hout, hrest⟩ := mergeUnique_some n items out
  rw [hout, foldl_append]
  rcases hrest with rfl | hfull
  · rfl
  · obtain ⟨more, hmore⟩ := prefix_foldl_addNew RecommendedJob.jobId
      (read.foldl (addNew RecommendedJob.jobId) out) rest
    rw [← hmore, take_append_of_le_length hfull]

/-! ### What is offered -/

/-- What the three sources offer. -/
noncomputable def offered (env : Environment) (profile : UserInterestProfile) (limit : ℕ) :
    List RecommendedJob :=
  exploited env profile limit ++ explored env profile limit ++ fallback env limit

/-- The ids that they offer. -/
noncomputable def offeredIds (env : Environment) (profile : UserInterestProfile) (limit : ℕ) :
    List JobId :=
  (offered env profile limit).map RecommendedJob.jobId

variable {env : Environment} {profile : UserInterestProfile} {limit : ℕ}

/-- A worker with a signal is recommended the first job of each id, cut to the limit and ranked. -/
theorem recommend_eq (hsignals : 1 ≤ profile.totalSignals) : recommend env (some profile) limit
      = rerank env
        (((offered env profile limit).foldl (addNew RecommendedJob.jobId) []).take limit) := by
  have hwarm : ¬ profile.totalSignals < warmThreshold := not_lt.mpr hsignals
  have hnil : ({} : Merged) = Merged.of [] := rfl
  rw [recommend, if_neg hwarm]
  dsimp only
  rw [hnil, mergeUnique_none, mergeUnique_none, take_mergeUnique_some, offered, foldl_append,
    foldl_append]

/-- The ids of the recommended jobs are the first different ones. -/
theorem ids_recommend (hsignals : 1 ≤ profile.totalSignals) :
    ((recommend env (some profile) limit).map RecommendedJob.jobId).Perm
      ((offeredIds env profile limit).eraseDups.take limit) := by
  have hkeys := map_foldl_addNew RecommendedJob.jobId (offered env profile limit) []
  rw [foldl_nil, map_nil, append_nil] at hkeys
  rw [recommend_eq hsignals]
  refine (rerank_perm _ _).trans ?_
  rw [List.map_take, hkeys, offeredIds]

/-! ### What was seen -/

theorem not_mem_of_nonEmpty {α : Type} {l : List α} {x : α}
    (h : ∀ l' ∈ nonEmpty l, x ∉ l') : x ∉ l := by
  rw [nonEmpty] at h
  split_ifs at h with hnil
  · rw [length_eq_zero_iff.mp hnil]
    exact not_mem_nil
  · exact h l rfl

/-- A search for jobs that are not seen returns none that is. -/
theorem Environment.Consistent.unseen (henv : env.Consistent) {positive negative : List (List ℚ)}
    {seen : List JobId} {categories : List String} {n : ℕ} {hits : List Hit}
    (hhits : env.recommendDense positive negative (buildJobFilter seen categories) n = some hits) :
    ∀ hit ∈ hits, hit.id ∉ seen := by
  intro hit hhit
  obtain ⟨⟨-, hjobs, -⟩, hid⟩ := henv.dense hhits hit hhit
  rw [hid]
  exact not_mem_of_nonEmpty hjobs

theorem unseen_exploit (henv : env.Consistent)
    (h : r ∈ exploited env profile limit) : r.jobId ∉ profile.seenJobIds := by
  rw [exploited, exploit] at h
  split_ifs at h
  · exact nomatch h
  · dsimp only at h
    split at h
    · rename_i hhits
      obtain ⟨hit, hhit, rfl⟩ := mem_map.mp h
      exact henv.unseen hhits hit hhit
    · exact nomatch h

theorem unseen_exploreByDb (henv : env.Consistent) {categories : List String}
    {seen : List JobId} {n : ℕ} (h : r ∈ exploreByDb env categories seen n) :
    r.jobId ∉ seen := by
  obtain ⟨id, hid, rfl⟩ := mem_map.mp h
  have hfound := (env.shuffle.perm _).subset (mem_of_mem_take hid)
  exact not_mem_of_nonEmpty (henv.offers hfound)

theorem unseen_explore (henv : env.Consistent)
    (h : r ∈ explored env profile limit) : r.jobId ∉ profile.seenJobIds := by
  rw [explored] at h
  split_ifs at h
  · rw [explore] at h
    split_ifs at h
    · exact nomatch h
    · exact unseen_exploreByDb henv h
    · dsimp only at h
      split at h
      · rename_i hhits
        obtain ⟨hit, hhit, rfl⟩ := mem_map.mp h
        exact henv.unseen hhits hit ((env.shuffle.perm _).subset (mem_of_mem_take hhit))
      · exact unseen_exploreByDb henv h
  · exact nomatch h

/-! ### The recommendation -/

/-- What a recommendation should be: within the limit, without repetition and without a job that
the worker has seen, in the order of scores from zero to one, and short of the limit only if fewer
different jobs are offered. -/
structure Recommends (env : Environment) (profile : UserInterestProfile) (limit : ℕ)
    (jobs : List RecommendedJob) : Prop where
  length_le : jobs.length ≤ limit
  nodup : (jobs.map RecommendedJob.jobId).Nodup
  unseen : ∀ r ∈ jobs, r.jobId ∉ profile.seenJobIds
  score_mem : ∀ r ∈ jobs, 0 ≤ r.score ∧ r.score ≤ 1
  sorted : jobs.Pairwise fun a b => b.score ≤ a.score
  full : jobs.length < limit → (offeredIds env profile limit).toFinset.card < limit

/-- Every seen job that the profile search finds comes after enough other jobs: those of the other
two sources and those found before it are `limit` different ones. -/
def SeenComeLate (env : Environment) (profile : UserInterestProfile) (limit : ℕ) : Prop :=
  ∀ before r after, fallback env limit = before ++ r :: after → r.jobId ∈ profile.seenJobIds →
    limit ≤ ((exploited env profile limit ++ explored env profile limit ++ before).map
      RecommendedJob.jobId).toFinset.card

/-- A seen job is among the first different ones only through the profile search. -/
theorem seen_take_iff (henv : env.Consistent) :
    (∀ id ∈ (offeredIds env profile limit).eraseDups.take limit, id ∉ profile.seenJobIds)
      ↔ SeenComeLate env profile limit := by
  constructor
  · intro h before r after hsplit hseen
    by_contra hfew
    refine h r.jobId (mem_take_eraseDups_iff.mpr ⟨_, after.map RecommendedJob.jobId, ?_,
      not_le.mp hfew⟩) hseen
    rw [offeredIds, offered, hsplit]
    simp
  · intro h id hid hseen
    obtain ⟨before, after, hsplit, hfew⟩ := mem_take_eraseDups_iff.mp hid
    obtain ⟨first, rest, hoffered, rfl, hrest⟩ := map_eq_append_iff.mp hsplit
    obtain ⟨r, last, rfl, rfl, rfl⟩ := map_eq_cons_iff.mp hrest
    rw [offered] at hoffered
    have hlate : ∀ found, first = exploited env profile limit ++ explored env profile limit ++ found →
        fallback env limit = found ++ r :: last → False := by
      rintro found rfl hfound
      exact absurd hfew (not_lt.mpr (h found r last hfound hseen))
    rcases append_eq_append_iff.mp hoffered with ⟨found, hfirst, hfound⟩ | ⟨own, hown, hlast⟩
    · exact hlate found hfirst hfound
    · rcases own with _ | ⟨own, more⟩
      · exact hlate [] (by rw [hown, append_nil, append_nil]) hlast.symm
      · have hmem : r ∈ exploited env profile limit ++ explored env profile limit := by
          rw [hown, (List.cons.inj hlast).1]
          simp
        rcases mem_append.mp hmem with hr | hr
        · exact unseen_exploit henv hr hseen
        · exact unseen_explore henv hr hseen

/-- Everything but the news of the jobs holds of every recommendation. -/
theorem recommends_iff_unseen (hsignals : 1 ≤ profile.totalSignals) :
    Recommends env profile limit (recommend env (some profile) limit)
      ↔ ∀ id ∈ (offeredIds env profile limit).eraseDups.take limit, id ∉ profile.seenJobIds := by
  have hids : ((recommend env (some profile) limit).map RecommendedJob.jobId).Perm
      ((offeredIds env profile limit).eraseDups.take limit) := ids_recommend hsignals
  have hlength := hids.length_eq
  rw [length_map, length_take, length_eraseDups] at hlength
  constructor
  · intro h id hid
    obtain ⟨r, hr, rfl⟩ := mem_map.mp (hids.mem_iff.mpr hid)
    exact h.unseen r hr
  · intro h
    exact
      { length_le := hlength.trans_le (min_le_left _ _)
        nodup := hids.nodup_iff.mpr ((Lib.Trim.nodup_eraseDups _).sublist (take_sublist _ _))
        unseen := fun r hr => h _ (hids.mem_iff.mp (mem_map_of_mem hr))
        score_mem := fun r hr => by
          rw [recommend_eq hsignals] at hr
          exact score_mem_of_mem_rerank hr
        sorted := by
          rw [recommend_eq hsignals]
          exact pairwise_rerank _ _
        full := fun hshort => by omega }

/-- **What is recommended is new, distinct and within the limit** if and only if the jobs that the
worker has seen come late in the answer of the profile search; all but the first of these holds in
any case. -/
theorem recommends_new_iff (env : Environment) (henv : env.Consistent)
    (profile : UserInterestProfile) (hsignals : 1 ≤ profile.totalSignals) (limit : ℕ) :
    Recommends env profile limit (recommend env (some profile) limit)
      ↔ SeenComeLate env profile limit :=
  (recommends_iff_unseen hsignals).trans (seen_take_iff henv)

/-! ### Two workers -/

/-- A job as the store has it. -/
def storedJob (id : JobId) (score : ℝ) : Hit := ⟨id, score, ⟨id, "ACTIVE", "cleaning"⟩⟩

/-- A store in which the dense searches fail and the search for the words of the profile finds
one job. -/
def wordsOnly (id : JobId) : Environment where
  recommendDense := fun _ _ _ _ => none
  searchHybridWithFilter := fun _ filter _ =>
    if filter = buildJobFilter [] [] then some [storedJob id 1] else none
  findOffers := fun _ _ => []
  worker := some { description := some "cleaner" }
  offer := fun _ => none
  shuffle := ⟨fun l => l, fun _ => Perm.refl _⟩
  now := 0

theorem wordsOnly_consistent (id : JobId) : (wordsOnly id).Consistent where
  dense := fun h => nomatch h
  hybrid := by
    intro text filter limit hits h hit hhit
    have hfilter : filter = buildJobFilter [] [] := by
      by_contra hne
      have hnone : (none : Option (List Hit)) = some hits := by
        rw [← h]
        exact (if_neg hne).symm
      exact nomatch hnone
    subst hfilter
    obtain rfl : [storedJob id 1] = hits := Option.some.inj h
    obtain rfl := mem_singleton.mp hhit
    exact ⟨⟨rfl, by rintro _ ⟨⟩, by rintro _ ⟨⟩⟩, rfl⟩
  offers := fun h => nomatch h

/-- A worker who has seen one job. -/
def seenOne : UserInterestProfile where
  positiveVectors := [[1, 0]]
  seenJobIds := ["job-old"]
  totalSignals := 1

theorem fallback_wordsOnly (id : JobId) (limit : ℕ) :
    fallback (wordsOnly id) limit = [⟨id, 1, .fallback⟩] := by
  have htext : ¬ queryText { description := some "cleaner" } = "" := by decide
  rw [fallback]
  change (if queryText { description := some "cleaner" } = "" then [] else _) = _
  rw [if_neg htext]
  rfl

/-- The job that the worker has seen is recommended again. -/
theorem seen_job_recommended :
    ¬ ∀ (env : Environment) (profile : UserInterestProfile) (limit : ℕ), env.Consistent →
      1 ≤ profile.totalSignals →
        Recommends env profile limit (recommend env (some profile) limit) := by
  intro h
  have hnew := (recommends_iff_unseen le_rfl).mp
    (h (wordsOnly "job-old") seenOne 1 (wordsOnly_consistent _) le_rfl)
  refine hnew "job-old" (mem_take_eraseDups_iff.mpr ⟨[], [], ?_, by decide⟩) (by decide)
  rw [offeredIds, offered, fallback_wordsOnly]
  rfl

/-- One that the worker has not seen is recommended. -/
theorem new_job_recommended :
    Recommends (wordsOnly "job-new") seenOne 1 (recommend (wordsOnly "job-new") (some seenOne) 1) :=
  (recommends_new_iff (wordsOnly "job-new") (wordsOnly_consistent _) seenOne le_rfl 1).mpr (by
    intro before r after hsplit hseen
    have hr : r ∈ fallback (wordsOnly "job-new") 1 := by
      rw [hsplit]
      simp
    rw [fallback_wordsOnly, mem_singleton] at hr
    rw [hr] at hseen
    exact absurd hseen (by decide))

end Rabotka.Interests.Recommending
