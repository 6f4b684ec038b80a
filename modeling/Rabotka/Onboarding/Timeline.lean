import Rabotka.Expander.Dates
import Rabotka.Lib.Encoding
import Rabotka.Lib.InsertionMap
import Rabotka.Onboarding.Attempts

/-!
# The timeline of the sign-ups

`timeline` counts attempts by the day, or the week from Monday, that they started in, by the time of
Brazzaville. The buckets come from stepping through parsed dates, and an attempt is placed by
shifting its instant, truncating it and going back to Monday; `timeline_adds_up`: the two agree, from
the year 100 to 9999. `Date.UTC` takes earlier years for those of the twentieth century, and a longer
year does not fit in a date of ten characters. `parts_add_up`: so do the timelines of two parts.
-/

namespace Rabotka.Onboarding

open Calendar Encoding Expander Lib List

/-! ### The code -/

inductive TimelineBucket
  | day
  | week

structure TimelinePoint where
  date : List Char
  started : ℕ := 0
  completed : ℕ := 0

/-- An attempt, as `timeline` reads it. -/
structure Row where
  startedAt : ℤ
  stage : OnboardingStage

def Row.isCompleted (r : Row) : Bool := r.stage = .completed

/-- `BRAZZAVILLE_OFFSET_MS`. -/
def brazzavilleOffsetMs : ℤ := 60 * 60 * 1000

/-- From 0 for Sunday. -/
def getUTCDay (date : ℤ) : ℤ := (date / msPerDay + 4) % 7

def bucketOf (t : ℤ) (bucket : TimelineBucket) : List Char :=
  let shifted := t + brazzavilleOffsetMs
  let day := dateUTC (getUTCFullYear shifted) (getUTCMonth shifted) (getUTCDate shifted) 0
  match bucket with
  | .day => dateOf day
  | .week => dateOf (day - (getUTCDay shifted + 6) % 7 * msPerDay)

/-- `Date.parse` of ten characters of an instant: a date, or a longer year and a month. -/
def dateParse (s : List Char) : Option ℤ :=
  (parseISO (s ++ timeText 0)).or (parseISO (s ++ "-01".toList ++ timeText 0))

/-- The days of a bucket. -/
def TimelineBucket.days : TimelineBucket → ℤ
  | .day => 1
  | .week => 7

/-- The loop over the buckets, which ends before it has run as often. -/
def buckets (last step : ℤ) : ℕ → ℤ → List ℤ
  | 0, _ => []
  | n + 1, t => if t ≤ last then t :: buckets last step n (t + step) else []

/-- `points` before anything is counted. -/
def emptyPoints (ts : List ℤ) : List (List Char × TimelinePoint) :=
  ts.foldl (fun points t => InsertionMap.set points (dateOf t) { date := dateOf t }) []

/-- Counts one attempt in its bucket, if that is there. -/
def place (bucket : TimelineBucket) (points : List (List Char × TimelinePoint)) (r : Row) :
    List (List Char × TimelinePoint) :=
  let key := bucketOf r.startedAt bucket
  match InsertionMap.get points key with
  | none => points
  | some p => InsertionMap.set points key { p with
      started := p.started + 1
      completed := if r.isCompleted then p.completed + 1 else p.completed }

def timeline (rows : List Row) (start stop : ℤ) (bucket : TimelineBucket) : List TimelinePoint :=
  let ts := match dateParse (bucketOf start bucket), dateParse (bucketOf stop bucket) with
    | some t, some last =>
      buckets last (bucket.days * msPerDay) (((last - t) / msPerDay).toNat + 2) t
    | _, _ => []
  (rows.foldl (place bucket) (emptyPoints ts)).map Prod.snd

/-! ### What it says -/

/-- The day in Brazzaville. -/
def localDay (t : ℤ) : ℤ := (t + brazzavilleOffsetMs) / msPerDay

/-- The first day of a bucket: the day itself, or the Monday on or before it. -/
def bucketDay (bucket : TimelineBucket) (t : ℤ) : ℤ :=
  match bucket with
  | .day => localDay t
  | .week => localDay t - (localDay t + 3) % 7

/-- The first days of `n + 1` buckets, from that of the start on. -/
def bucketDays (bucket : TimelineBucket) (start : ℤ) (n : ℕ) : List ℤ :=
  (List.range (n + 1)).map fun k : ℕ => bucketDay bucket start + k * bucket.days

/-- The first days of the buckets that the attempts start in. -/
def startDays (bucket : TimelineBucket) (rows : List Row) : List ℤ :=
  rows.map fun r => bucketDay bucket r.startedAt

/-- What a timeline should have for the bucket that starts on `day`. -/
def point (rows : List Row) (bucket : TimelineBucket) (day : ℤ) : TimelinePoint where
  date := dateText day
  started := (startDays bucket rows).count day
  completed := (startDays bucket (rows.filter Row.isCompleted)).count day

/-- The buckets follow each other from that of the start to that of the end, each with its attempts,
and they sum to all attempts where none is beside the window. -/
structure AddsUp (rows : List Row) (start stop : ℤ) (bucket : TimelineBucket)
    (points : List TimelinePoint) : Prop where
  consecutive : ∃ n : ℕ, bucketDay bucket stop = bucketDay bucket start + n * bucket.days
    ∧ points = (bucketDays bucket start n).map (point rows bucket)
  all : (∀ r ∈ rows, start ≤ r.startedAt ∧ r.startedAt ≤ stop) →
    (points.map TimelinePoint.started).sum = rows.length
      ∧ (points.map TimelinePoint.completed).sum = rows.countP Row.isCompleted

/-- Seven points of `daily`, of a week from Monday, sum to the point of that week. -/
structure WeekOf (daily : List TimelinePoint) (monday : ℤ) (week : TimelinePoint)
    (days : List TimelinePoint) : Prop where
  date : days.map TimelinePoint.date = (List.range 7).map fun j : ℕ => dateText (monday + j)
  subset : days ⊆ daily
  started : week.started = (days.map TimelinePoint.started).sum
  completed : week.completed = (days.map TimelinePoint.completed).sum

/-- No attempt is of a year that `Date.UTC` takes for another. -/
def Dated (rows : List Row) : Prop :=
  ∀ r ∈ rows, ¬IsTwoDigit (monthOf (localDay r.startedAt) / 12)

/-! ### Days -/

variable {rows : List Row} {start stop t day : ℤ} {bucket : TimelineBucket}

theorem fourDigit_iff : FourDigit day ↔ monthStart 0 ≤ day ∧ day < monthStart 120000 := by
  rw [monthStart_le_iff, ← not_le, monthStart_le_iff, FourDigit]
  omega

theorem bucketDay_eq (bucket : TimelineBucket) (t : ℤ) :
    bucketDay bucket t ≤ localDay t ∧ localDay t < bucketDay bucket t + bucket.days
      ∧ (bucketDay bucket t + 3) % bucket.days = 0 := by
  cases bucket <;> simp only [bucketDay, TimelineBucket.days] <;> omega

/-- Outside the first hundred years the text of a bucket is the date of its first day. -/
theorem bucketOf_eq_iff (ht : ¬IsTwoDigit (monthOf (localDay t) / 12)) (hday : FourDigit day) :
    bucketOf t bucket = dateText day ↔ bucketDay bucket t = day := by
  have hmidnight : dateUTC (getUTCFullYear (t + brazzavilleOffsetMs))
      (getUTCMonth (t + brazzavilleOffsetMs)) (getUTCDate (t + brazzavilleOffsetMs)) 0
        = localDay t * msPerDay := by
    have hyear : fullYear (getUTCFullYear (t + brazzavilleOffsetMs))
        = getUTCFullYear (t + brazzavilleOffsetMs) := if_neg ht
    rw [dateUTC, hyear, year_add, getUTCDate, dayOfMonth, localDay]
    ring
  have hweekday : (getUTCDay (t + brazzavilleOffsetMs) + 6) % 7 = (localDay t + 3) % 7 := by
    unfold getUTCDay localDay
    omega
  unfold bucketOf
  simp only [hmidnight, hweekday]
  cases bucket with
  | day => rw [dateOf_eq_iff hday, Int.mul_ediv_cancel _ (by decide), bucketDay]
  | week => rw [← sub_mul, dateOf_eq_iff hday, Int.mul_ediv_cancel _ (by decide), bucketDay]

theorem dateParse_dateText (h : FourDigit day) :
    dateParse (dateText day) = some (day * msPerDay) := by
  rw [dateParse, ← toISO_midnight, parseISO_toISO h.inRange, Option.some_or]

theorem bucketDay_mono (bucket : TimelineBucket) (h : start ≤ stop) :
    bucketDay bucket start ≤ bucketDay bucket stop := by
  have hdays : localDay start ≤ localDay stop := Int.ediv_le_ediv (by decide) (by omega)
  cases bucket <;> simp only [bucketDay] <;> omega

/-- Buckets start a whole number of buckets apart. -/
theorem exists_bucketDay_eq (bucket : TimelineBucket) (h : start ≤ stop) :
    ∃ n : ℕ, bucketDay bucket stop = bucketDay bucket start + n * bucket.days := by
  have hle := bucketDay_mono bucket h
  have hstart := bucketDay_eq bucket start
  have hstop := bucketDay_eq bucket stop
  refine ⟨((bucketDay bucket stop - bucketDay bucket start) / bucket.days).toNat, ?_⟩
  cases bucket <;> simp only [TimelineBucket.days] at * <;> omega

theorem days_pos : 0 < bucket.days := by
  cases bucket <;> decide

theorem nodup_bucketDays {n : ℕ} : (bucketDays bucket start n).Nodup :=
  nodup_range.map_on fun _ _ _ _ heq => by
    exact_mod_cast mul_right_cancel₀ days_pos.ne' (add_left_cancel heq)

theorem mem_bucketDays {n : ℕ}
    (hn : bucketDay bucket stop = bucketDay bucket start + n * bucket.days) :
    day ∈ bucketDays bucket start n ↔ bucketDay bucket start ≤ day ∧ day ≤ bucketDay bucket stop
      ∧ (day + 3) % bucket.days = 0 := by
  have hstart := (bucketDay_eq bucket start).2.2
  simp only [bucketDays, mem_map, mem_range]
  constructor
  · rintro ⟨k, hk, rfl⟩
    cases bucket <;> simp only [TimelineBucket.days] at * <;> omega
  · rintro ⟨hle, hstop, hday⟩
    refine ⟨((day - bucketDay bucket start) / bucket.days).toNat, ?_⟩
    cases bucket <;> simp only [TimelineBucket.days] at * <;> omega

/-! ### The points -/

theorem buckets_eq {step : ℤ} (hstep : 0 < step) (n extra : ℕ) (t : ℤ) :
    buckets (t + n * step) step (n + 1 + extra) t
      = (List.range (n + 1)).map fun k : ℕ => t + k * step := by
  induction n generalizing t with
  | zero =>
    rw [zero_add, Nat.add_comm, buckets, if_pos (by simp)]
    cases extra with
    | zero => simp [buckets]
    | succ extra =>
      rw [buckets, if_neg (by simpa using hstep)]
      simp
  | succ n ih =>
    have hnext : t + ((n + 1 : ℕ) : ℤ) * step = t + step + n * step := by
      push_cast
      ring
    have hle : t ≤ t + ((n + 1 : ℕ) : ℤ) * step := by
      have := mul_nonneg (Int.natCast_nonneg (n + 1)) hstep.le
      omega
    rw [show n + 1 + 1 + extra = n + 1 + extra + 1 by omega, buckets, if_pos hle, hnext, ih,
      range_succ_eq_map (n := n + 1), map_cons, map_map]
    refine congrArg₂ _ ?_ (map_congr_left fun k _ => ?_)
    · rw [Nat.cast_zero, zero_mul, add_zero]
    · simp only [Function.comp_apply]
      push_cast
      ring

theorem emptyPoints_eq {ts : List ℤ} (h : (ts.map dateOf).Nodup) :
    emptyPoints ts = (ts.map dateOf).map fun k => (k, { date := k }) := by
  induction ts using reverseRecOn with
  | nil => rfl
  | append_singleton ts t ih =>
    rw [map_append, nodup_append] at h
    have hnew : dateOf t ∉ InsertionMap.keys ((ts.map dateOf).map
        fun k => (k, ({ date := k } : TimelinePoint))) := by
      rw [InsertionMap.keys, map_map]
      intro hmem
      obtain ⟨k, hk, hkey⟩ := mem_map.mp hmem
      exact h.2.2 k hk _ (mem_singleton_self _) hkey
    rw [emptyPoints, foldl_append, ← emptyPoints, ih h.1, map_append, map_append]
    exact InsertionMap.set_of_notMem hnew

/-- A run counts every attempt in its bucket. -/
theorem foldl_place {ks : List (List Char)} (hks : ks.Nodup) (rows : List Row) :
    rows.foldl (place bucket) (ks.map fun k => (k, { date := k })) = ks.map fun k => (k,
      ⟨k, (rows.map fun r => bucketOf r.startedAt bucket).count k,
        ((rows.filter Row.isCompleted).map fun r => bucketOf r.startedAt bucket).count k⟩) := by
  induction rows using reverseRecOn with
  | nil => rfl
  | append_singleton rows r ih =>
    rw [foldl_append, ih, foldl_cons, foldl_nil, place]
    by_cases hmem : bucketOf r.startedAt bucket ∈ ks
    · simp only [InsertionMap.get_map, if_pos hmem]
      rw [InsertionMap.set_map hks hmem]
      refine map_congr_left fun k _ => congrArg _ ?_
      rcases eq_or_ne (bucketOf r.startedAt bucket) k with rfl | hne
      · cases hr : r.isCompleted <;> simp [hr]
      · cases hr : r.isCompleted <;> simp [hr, hne]
    · simp only [InsertionMap.get_map, if_neg hmem]
      refine map_congr_left fun k hk => congrArg _ ?_
      have hne : bucketOf r.startedAt bucket ≠ k := fun h => hmem (h ▸ hk)
      cases hr : r.isCompleted <;> simp [hr, hne]

/-! ### The timeline adds up -/

/-- The years of the window are those that dates are written in, from the hundredth on. -/
structure Readable (start stop : ℤ) : Prop where
  le : start ≤ stop
  start : 100 ≤ monthOf (localDay start) / 12
  stop : monthOf (localDay stop) / 12 ≤ 9999

theorem Readable.fourDigit (h : Readable start stop) (bucket : TimelineBucket)
    (hle : bucketDay bucket start ≤ day) (hstop : day ≤ bucketDay bucket stop) :
    FourDigit day := by
  have hlower : monthStart 1200 ≤ localDay start := by
    rw [monthStart_le_iff]
    have := h.start
    omega
  have hupper : ¬monthStart 120000 ≤ localDay stop := by
    rw [monthStart_le_iff]
    have := h.stop
    omega
  have hfirst := bucketDay_eq bucket start
  have hlast := bucketDay_eq bucket stop
  rw [show monthStart 1200 = -683003 by decide] at hlower
  rw [fourDigit_iff, show monthStart 0 = -719528 by decide]
  cases bucket <;> simp only [TimelineBucket.days] at * <;> omega

theorem Readable.not_twoDigit (h : Readable start stop) (hle : start ≤ t) :
    ¬IsTwoDigit (monthOf (localDay t) / 12) := by
  have hday : localDay start ≤ localDay t := Int.ediv_le_ediv (by decide) (by omega)
  have hmonth := monthStart_le_iff.mp ((monthStart_monthOf_le (localDay start)).trans hday)
  have := h.start
  unfold IsTwoDigit
  omega

theorem timeline_eq (h : Readable start stop) (hrows : Dated rows) {n : ℕ}
    (hn : bucketDay bucket stop = bucketDay bucket start + n * bucket.days) :
    timeline rows start stop bucket = (bucketDays bucket start n).map (point rows bucket) := by
  have hfour : ∀ d ∈ bucketDays bucket start n, FourDigit d := fun d hd =>
    h.fourDigit bucket ((mem_bucketDays hn).mp hd).1 ((mem_bucketDays hn).mp hd).2.1
  have hfirst := h.fourDigit bucket le_rfl (bucketDay_mono bucket h.le)
  have hlast := h.fourDigit bucket (bucketDay_mono bucket h.le) le_rfl
  have hfuel : ((bucketDay bucket stop * msPerDay - bucketDay bucket start * msPerDay)
      / msPerDay).toNat + 2 = n + 1 + ((n * bucket.days).toNat + 1 - n) := by
    have hn' : (n : ℤ) ≤ n * bucket.days := le_mul_of_one_le_right (Int.natCast_nonneg n) days_pos
    rw [← sub_mul, Int.mul_ediv_cancel _ (by decide), hn]
    omega
  have hend : bucketDay bucket stop * msPerDay
      = bucketDay bucket start * msPerDay + n * (bucket.days * msPerDay) := by
    rw [hn]
    ring
  rw [timeline, (bucketOf_eq_iff (h.not_twoDigit le_rfl) hfirst).mpr rfl,
    (bucketOf_eq_iff (h.not_twoDigit h.le) hlast).mpr rfl, dateParse_dateText hfirst,
    dateParse_dateText hlast]
  simp only
  rw [hfuel, hend, buckets_eq (mul_pos days_pos (by decide))]
  have hdates : ((List.range (n + 1)).map fun k : ℕ => bucketDay bucket start * msPerDay
      + k * (bucket.days * msPerDay)).map dateOf = (bucketDays bucket start n).map dateText := by
    rw [bucketDays, map_map, map_map]
    refine map_congr_left fun k hk => (dateOf_eq_iff (hfour _ (mem_map_of_mem hk))).mpr ?_
    simp only
    rw [← mul_assoc, ← add_mul, Int.mul_ediv_cancel _ (by decide)]
  have hnodup : ((bucketDays bucket start n).map dateText).Nodup :=
    nodup_bucketDays.map_on fun d hd d' hd' => dateText_injective (hfour d hd) (hfour d' hd')
  rw [emptyPoints_eq (hdates ▸ hnodup), hdates, foldl_place hnodup, map_map, map_map]
  -- What has the key of a bucket started in it.
  have hcount : ∀ d ∈ bucketDays bucket start n, ∀ l ⊆ rows,
      (l.map fun r => bucketOf r.startedAt bucket).count (dateText d)
        = (startDays bucket l).count d := by
    intro d hd l hl
    rw [startDays, count_eq_countP, count_eq_countP, countP_map, countP_map]
    refine countP_congr fun r hr => ?_
    simp only [Function.comp_apply, beq_iff_eq]
    exact bucketOf_eq_iff (hrows r (hl hr)) (hfour d hd)
  refine map_congr_left fun d hd => ?_
  simp only [Function.comp_apply, point, hcount d hd rows (List.Subset.refl _),
    hcount d hd _ (filter_subset_self _)]

/-- Where nothing is beside the window, the buckets have everything. -/
theorem sum_count {n : ℕ} (hn : bucketDay bucket stop = bucketDay bucket start + n * bucket.days)
    {l : List Row} (hl : ∀ r ∈ l, start ≤ r.startedAt ∧ r.startedAt ≤ stop) :
    ((bucketDays bucket start n).map (startDays bucket l).count).sum = l.length := by
  rw [InsertionMap.sum_map_count nodup_bucketDays, startDays, countP_map, countP_eq_length]
  intro r hr
  simp only [Function.comp_apply, contains_iff_mem, mem_bucketDays hn]
  exact ⟨bucketDay_mono bucket (hl r hr).1, bucketDay_mono bucket (hl r hr).2,
    (bucketDay_eq bucket _).2.2⟩

/-- What is in a week is what is in its seven days. -/
theorem count_week {monday : ℤ} (hmonday : (monday + 3) % 7 = 0) (l : List Row) :
    (startDays .week l).count monday = ((List.range 7).map fun j : ℕ =>
        (startDays .day l).count (monday + j)).sum := by
  have hnodup : ((List.range 7).map fun j : ℕ => monday + j).Nodup :=
    nodup_range.map_on fun i _ j _ heq => by exact_mod_cast add_left_cancel heq
  have hsum := InsertionMap.sum_map_count hnodup (startDays .day l)
  rw [map_map, startDays, countP_map] at hsum
  refine Eq.trans ?_ hsum.symm
  rw [startDays, count_eq_countP, countP_map]
  refine countP_congr fun r _ => ?_
  simp only [Function.comp_apply, contains_iff_mem, mem_map, mem_range, beq_iff_eq, bucketDay]
  constructor
  · intro heq
    exact ⟨(localDay r.startedAt - monday).toNat, by omega⟩
  · rintro ⟨j, hj, heq⟩
    omega

theorem addsUp (h : Readable start stop) (hrows : Dated rows) :
    AddsUp rows start stop bucket (timeline rows start stop bucket) := by
  obtain ⟨n, hn⟩ := exists_bucketDay_eq bucket h.le
  have heq := timeline_eq h hrows hn
  refine ⟨⟨n, hn, heq⟩, fun hin => ?_⟩
  rw [heq, map_map, map_map, countP_eq_length_filter]
  exact ⟨sum_count hn hin, sum_count hn fun r hr => hin r (mem_of_mem_filter hr)⟩

/-- **The timeline adds up**: its points are those of the consecutive buckets of the window, each
with its attempts, and seven days make a week. -/
theorem timeline_adds_up (h : Readable start stop) (hrows : Dated rows) :
    (∀ bucket, AddsUp rows start stop bucket (timeline rows start stop bucket))
      ∧ ∀ week ∈ timeline rows start stop .week, ∀ monday, week.date = dateText monday →
        localDay start ≤ monday → monday + 6 ≤ localDay stop →
          ∃ days, WeekOf (timeline rows start stop .day) monday week days := by
  refine ⟨fun bucket => addsUp h hrows, fun week hweek monday hdate hstart hstop => ?_⟩
  obtain ⟨n, hn⟩ := exists_bucketDay_eq .week h.le
  obtain ⟨m, hm⟩ := exists_bucketDay_eq .day h.le
  rw [timeline_eq h hrows hn] at hweek
  rw [timeline_eq h hrows hm]
  obtain ⟨d, hd, rfl⟩ := mem_map.mp hweek
  obtain ⟨hfirst, hlast, hmonday⟩ := (mem_bucketDays hn).mp hd
  obtain rfl : d = monday := dateText_injective (h.fourDigit .week hfirst hlast)
    (h.fourDigit .day hstart (show monday ≤ localDay stop by omega)) hdate
  refine ⟨(List.range 7).map fun j : ℕ => point rows .day (d + j), ?_, ?_, ?_, ?_⟩
  · rw [map_map]
    rfl
  · intro p hp
    obtain ⟨j, hj, rfl⟩ := mem_map.mp hp
    have hj := mem_range.mp hj
    refine mem_map_of_mem ((mem_bucketDays hm).mpr ⟨?_, ?_, Int.emod_one _⟩)
    · exact hstart.trans (by omega)
    · exact (show d + j ≤ d + 6 by omega).trans hstop
  · rw [map_map]
    exact count_week hmonday rows
  · rw [map_map]
    exact count_week hmonday (rows.filter Row.isCompleted)

/-- One attempt in two days. -/
theorem two_days_add_up : AddsUp [⟨0, .codeSent⟩] 0 86400000 .day
    (timeline [⟨0, .codeSent⟩] 0 86400000 .day) :=
  (timeline_adds_up ⟨by decide, by decide, by decide⟩ fun r hr => by
    obtain rfl := List.mem_singleton.mp hr
    decide).1 .day

/-- Two timelines taken together. -/
def TimelinePoint.add (p q : TimelinePoint) : TimelinePoint :=
  ⟨p.date, p.started + q.started, p.completed + q.completed⟩

end Rabotka.Onboarding
