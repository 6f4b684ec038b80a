import Mathlib.Analysis.SpecialFunctions.Log.Basic
import Mathlib.Analysis.SpecialFunctions.Trigonometric.Inverse
import Rabotka.Lib.Distinct
import Rabotka.Lib.Text

/-!
# Recommended jobs

`recommend` asks three sources for jobs: the vector search near what the worker liked (`exploit`),
a shuffled pool of jobs in other categories (`explore`), and the search for the words of the
profile (`fallback`). What they return is merged without repetition, cut to the limit and ranked
again by similarity, distance and urgency.

The vector store, the rows of the database and the random order are the `Environment`. A search
that throws is `none`. The scores are real numbers, and the functions of `Math` are the real ones.
-/

namespace Rabotka.Interests.Recommending

/-! ### The scores -/

/-- A row's `latitude` and `longitude`; a latitude is one. -/
structure Place where
  latitude : Option ℝ := none
  longitude : Option ℝ := none
  latitude_mem : ∀ l ∈ latitude, |l| ≤ 90 := by simp

structure Coordinates where
  lat : ℝ
  lng : ℝ
  lat_mem : |lat| ≤ 90

/-- The coordinates, if the row has both. -/
def Place.coordinates (p : Place) : Option Coordinates :=
  match h : p.latitude, p.longitude with
  | some lat, some lng => some ⟨lat, lng, p.latitude_mem lat h⟩
  | _, _ => none

noncomputable section

/-- `EARTH_RADIUS_KM`. -/
def earthRadiusKm : ℝ := 6371

def toRad (deg : ℝ) : ℝ := deg * Real.pi / 180

/-- The square of half the chord between two points of the unit sphere. -/
def halfChordSq (a b : Coordinates) : ℝ :=
  let sinDLat := Real.sin (toRad (b.lat - a.lat) / 2)
  let sinDLng := Real.sin (toRad (b.lng - a.lng) / 2)
  sinDLat * sinDLat + Real.cos (toRad a.lat) * Real.cos (toRad b.lat) * sinDLng * sinDLng

def haversineKm (a b : Coordinates) : ℝ :=
  2 * earthRadiusKm * Real.arcsin (Real.sqrt (halfChordSq a b))

/-- The default of `halfLifeKm`. -/
def halfLifeKm : ℝ := 5

def proximityScore (distanceKm : ℝ) : ℝ :=
  Real.exp (-Real.log 2 * distanceKm / halfLifeKm)

/-- `URGENCY_HALF_LIFE_HOURS`. -/
def urgencyHalfLifeHours : ℝ := 48

/-- `urgencyScore`, at the default half-life; times are milliseconds. -/
def urgencyScore (scheduledAt now : ℤ) : ℝ :=
  let hoursUntil : ℝ := max 0 ((scheduledAt - now : ℤ) / (1000 * 60 * 60))
  Real.exp (-Real.log 2 * hoursUntil / urgencyHalfLifeHours)

end

/-! ### The sources -/

abbrev JobId := String

/-- `UserInterestProfile`. -/
structure UserInterestProfile where
  positiveVectors : List (List ℚ) := []
  negativeVectors : List (List ℚ) := []
  categories : List String := []
  seenJobIds : List JobId := []
  totalSignals : ℕ := 0

/-- The `source` of a recommended job. -/
inductive Source where
  | interest
  | explore
  | fallback
  deriving DecidableEq

structure RecommendedJob where
  jobId : JobId
  score : ℝ
  source : Source

/-- The payload of an indexed job, as far as a filter reads it. -/
structure JobPayload where
  jobOfferId : JobId
  status : String
  categoryName : String
  deriving DecidableEq

/-- A point that a vector search returns. -/
structure Hit where
  id : JobId
  score : ℝ
  payload : JobPayload

/-- The filter of a vector search: `must` have a status, `must_not` be one of the jobs or of the
categories. -/
structure JobFilter where
  status : String
  mustNotJobs : Option (List JobId)
  mustNotCategories : Option (List String)
  deriving DecidableEq

/-- A point passes a filter. -/
def JobFilter.Accepts (f : JobFilter) (p : JobPayload) : Prop :=
  p.status = f.status ∧ (∀ jobs ∈ f.mustNotJobs, p.jobOfferId ∉ jobs)
    ∧ ∀ categories ∈ f.mustNotCategories, p.categoryName ∉ categories

/-- The `where` of `exploreByDb`; the worker is fixed. -/
structure OfferWhere where
  status : String
  idNotIn : Option (List JobId)
  categoryNotIn : Option (List String)
  deriving DecidableEq

/-- The profile row, as far as `fallback` and `rerank` read it. -/
structure WorkerRow where
  description : Option String := none
  category : Option String := none
  categories : List String := []
  place : Place := {}

structure OfferRow where
  place : Place := {}
  scheduledAt : Option ℤ := none

/-- The order in which `toSorted(() => Math.random() - 0.5)` leaves a list. -/
structure Shuffle where
  run : {α : Type} → List α → List α
  perm : ∀ {α : Type} (l : List α), (run l).Perm l

/-- What a call of `recommend` meets: the searches of the vector store, the rows that it reads, the
two random orders and the clock. -/
structure Environment where
  recommendDense : List (List ℚ) → List (List ℚ) → JobFilter → ℕ → Option (List Hit)
  searchHybridWithFilter : String → JobFilter → ℕ → Option (List Hit)
  findOffers : OfferWhere → ℕ → List JobId
  worker : Option WorkerRow
  offer : JobId → Option OfferRow
  shuffle : Shuffle
  now : ℤ

/-- The searches keep to the filter that they are given. A job is indexed under its own id. -/
structure Environment.Consistent (env : Environment) : Prop where
  dense : ∀ {positive negative filter limit hits},
    env.recommendDense positive negative filter limit = some hits →
      ∀ hit ∈ hits, filter.Accepts hit.payload ∧ hit.id = hit.payload.jobOfferId
  hybrid : ∀ {text filter limit hits}, env.searchHybridWithFilter text filter limit = some hits →
      ∀ hit ∈ hits, filter.Accepts hit.payload ∧ hit.id = hit.payload.jobOfferId
  offers : ∀ {cond take id}, id ∈ env.findOffers cond take → ∀ ids ∈ cond.idNotIn, id ∉ ids

/-- A list, unless it is empty. -/
def nonEmpty {α : Type} (l : List α) : Option (List α) :=
  if l.length = 0 then none else some l

def buildJobFilter (seenJobIds : List JobId) (excludeCategories : List String) : JobFilter where
  status := "ACTIVE"
  mustNotJobs := nonEmpty seenJobIds
  mustNotCategories := nonEmpty excludeCategories

def Hit.toJob (source : Source) (r : Hit) : RecommendedJob :=
  ⟨r.id, r.score, source⟩

def exploit (env : Environment) (positiveVectors negativeVectors : List (List ℚ))
    (seenJobIds : List JobId) (limit : ℕ) : List RecommendedJob :=
  if positiveVectors.length = 0 then []
  else
    let filter := buildJobFilter seenJobIds []
    match env.recommendDense positiveVectors negativeVectors filter limit with
    | some results => results.map (Hit.toJob .interest)
    | none => []

/-- `EXPLORE_POOL_FACTOR`. -/
def explorePoolFactor : ℕ := 5

/-- `MIN_PREFETCH`. -/
def minPrefetch : ℕ := 20

noncomputable def exploreByDb (env : Environment) (knownCategories : List String)
    (seenJobIds : List JobId) (limit : ℕ) : List RecommendedJob :=
  let jobs := env.findOffers
    ⟨"ACTIVE", nonEmpty seenJobIds, nonEmpty knownCategories⟩ (limit * explorePoolFactor)
  ((env.shuffle.run jobs).take limit).map fun id => ⟨id, 0, .explore⟩

/-- `blendVectors`: the mean of the vectors. -/
def blendVectors (vectors : List (List ℚ)) : List ℚ :=
  let dim := (vectors.head?.map List.length).getD 384
  (List.range dim).map fun i => (vectors.map fun v => v.getD i 0).sum / vectors.length

noncomputable def explore (env : Environment) (positiveVectors : List (List ℚ))
    (knownCategories : List String) (seenJobIds : List JobId) (limit requestedLimit : ℕ) :
    List RecommendedJob :=
  if limit = 0 then []
  else if positiveVectors.length = 0 then exploreByDb env knownCategories seenJobIds limit
  else
    let filter := buildJobFilter seenJobIds knownCategories
    let poolSize := max (requestedLimit * explorePoolFactor) minPrefetch
    match env.recommendDense [blendVectors positiveVectors] [] filter poolSize with
    | some results => ((env.shuffle.run results).take limit).map (Hit.toJob .explore)
    | none => exploreByDb env knownCategories seenJobIds limit

/-- The words of a profile that `fallback` searches for. -/
def queryText (worker : WorkerRow) : String :=
  let parts := [worker.category.getD ""] ++ worker.categories ++ [worker.description.getD ""]
  Text.slice (" ".intercalate (parts.filter (· ≠ ""))) 500

def fallback (env : Environment) (limit : ℕ) : List RecommendedJob :=
  match env.worker with
  | none => []
  | some worker =>
    if queryText worker = "" then []
    else
      -- Only the status is asked for here, whatever the worker has seen.
      let filter := buildJobFilter [] []
      match env.searchHybridWithFilter (queryText worker) filter limit with
      | some results => results.map (Hit.toJob .fallback)
      | none => []

/-! ### Merging and ranking -/

/-- The `seen` and `out` of `mergeUnique`. -/
structure Merged where
  seen : List JobId := []
  out : List RecommendedJob := []

def mergeUnique (cap : Option ℕ) : List RecommendedJob → Merged → Merged
  | [], m => m
  | r :: items, m =>
    if r.jobId ∈ m.seen then mergeUnique cap items m
    else
      let next : Merged := ⟨m.seen ++ [r.jobId], m.out ++ [r]⟩
      match cap with
      | some n => if n ≤ next.out.length then next else mergeUnique cap items next
      | none => mergeUnique cap items next

noncomputable section

/-- The score that `rerank` gives a job. -/
def combinedScore (env : Environment) (minScore scoreRange : ℝ) (r : RecommendedJob) : ℝ :=
  let offer := env.offer r.jobId
  let normalizedQdrant := (r.score - minScore) / scoreRange
  let workerCoords := env.worker.bind fun w => w.place.coordinates
  let prox :=
    match workerCoords, offer.bind fun o => o.place.coordinates with
    | some a, some b => proximityScore (haversineKm a b)
    | _, _ => 0.5
  let urgency :=
    match offer.bind OfferRow.scheduledAt with
    | some scheduledAt => urgencyScore scheduledAt env.now
    | none => 0.5
  0.5 * normalizedQdrant + 0.3 * prox + 0.2 * urgency

def rerank (env : Environment) (results : List RecommendedJob) : List RecommendedJob :=
  if results.length = 0 then results
  else
    let scores := results.map RecommendedJob.score
    let minScore := scores.min?.getD 0
    let maxScore := scores.max?.getD 0
    let scoreRange := if maxScore - minScore = 0 then 1 else maxScore - minScore
    let ranked := results.map fun r => { r with score := combinedScore env minScore scoreRange r }
    ranked.mergeSort fun a b => decide (b.score ≤ a.score)

/-- `WARM_THRESHOLD`. -/
def warmThreshold : ℕ := 1

/-- `HOT_THRESHOLD`. -/
def hotThreshold : ℕ := 5

/-- `HOT_EXPLOIT_RATIO` and `WARM_EXPLOIT_RATIO`, in tenths. -/
def exploitTenths (signals : ℕ) : ℕ := if hotThreshold ≤ signals then 7 else 4

/-- `Math.round(limit * exploitRatio)`. -/
def exploitCount (signals limit : ℕ) : ℕ := (limit * exploitTenths signals + 5) / 10

/-- What `exploit` returns to `recommend`. -/
def exploited (env : Environment) (profile : UserInterestProfile) (limit : ℕ) :
    List RecommendedJob :=
  exploit env profile.positiveVectors profile.negativeVectors profile.seenJobIds
    (exploitCount profile.totalSignals limit)

/-- What `explore` returns to `recommend`. -/
def explored (env : Environment) (profile : UserInterestProfile) (limit : ℕ) :
    List RecommendedJob :=
  let exploreCount := limit - exploitCount profile.totalSignals limit
  if 0 < exploreCount then
    explore env profile.positiveVectors profile.categories profile.seenJobIds exploreCount limit
  else []

def recommend (env : Environment) (profile : Option UserInterestProfile) (limit : ℕ) :
    List RecommendedJob :=
  match profile with
  | none => fallback env limit
  | some profile =>
    if profile.totalSignals < warmThreshold then fallback env limit
    else
      let merged := mergeUnique none (exploited env profile limit) {}
      let merged := mergeUnique none (explored env profile limit) merged
      let merged := mergeUnique (some limit) (fallback env limit) merged
      rerank env (merged.out.take limit)

end

end Rabotka.Interests.Recommending
