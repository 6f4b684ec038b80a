import Rabotka.Hiring.Schema
import Rabotka.Lib.Encoding
import Rabotka.Lib.InsertionMap

/-!
# The chart of a business

The daily series of `computeBusinessStats` beside its totals: the period is a window of instants,
from `days` days before now until now, and the series has a point for each of the last `days` days,
the day of now included. So the day the period starts on has no point, unless nothing of it belongs
to the period; what happened on it after the start is in the totals only.

`addsUp_iff`: the chart adds up if and only if nothing of the period happened on its first day, and
the years of the days have four digits, as the date of a point is cut after ten characters.
`missing_is_first_day`: nothing else is missing.
-/

namespace Rabotka.Business

open Encoding Rabotka.Lib List
open Hiring (ApplicationStatus)

/-! ### The code -/

/-- `DAY_MS`. -/
abbrev dayMs : ℤ := Calendar.msPerDay

structure Window where
  start : ℤ
  stop : ℤ

def within (d : Option ℤ) (w : Window) : Bool :=
  d.any fun t => w.start ≤ t && t < w.stop

structure StatsApplication where
  status : ApplicationStatus
  createdAt : ℤ
  acceptedAt : Option ℤ

/-- `HIRED_STATUSES`. -/
def hiredStatuses : List ApplicationStatus := [.accepted, .waitingPayment, .started, .ended]

def isHired (a : StatsApplication) : Bool :=
  a.acceptedAt.isSome && hiredStatuses.contains a.status

/-- `dayKey`. -/
def dayKey (t : ℤ) : List Char := dateOf t

structure Point where
  date : List Char
  applications : ℕ
  hires : ℕ
  deriving DecidableEq

/-- The loop over the days, which ends after a number of them. -/
def seriesDays (stop : ℤ) : ℕ → ℤ → List ℤ
  | 0, _ => []
  | n + 1, t => if t ≤ stop then t :: seriesDays stop n (t + dayMs) else []

/-- `index` and `series` before anything is counted. -/
def emptySeries (days : List ℤ) : List (List Char × ℕ) × List Point :=
  days.foldl (fun x t =>
    (InsertionMap.set x.1 (dayKey t) x.2.length, x.2 ++ [⟨dayKey t, 0, 0⟩])) ([], [])

/-- Counts one event on its day, if the series has it. -/
def bump (index : List (List Char × ℕ)) (f : Point → Point) (series : List Point)
    (key : List Char) : List Point :=
  match InsertionMap.get index key with
  | none => series
  | some i => series.modify i f

/-- The applications received in the period. -/
def received (now : ℤ) (days : ℕ) (applications : List StatsApplication) : List ℤ :=
  (applications.filter fun a => within (some a.createdAt) ⟨now - days * dayMs, now⟩).map
    StatsApplication.createdAt

/-- The hires of the period, by when they were accepted. -/
def hires (now : ℤ) (days : ℕ) (applications : List StatsApplication) : List ℤ :=
  (applications.filter fun a => isHired a && within a.acceptedAt ⟨now - days * dayMs, now⟩).map
    fun a => a.acceptedAt.getD 0

/-- The part of the answer that counts by day, with its totals. -/
structure Chart where
  series : List Point
  received : ℕ
  hires : ℕ
  deriving DecidableEq

def computeBusinessStats (now : ℤ) (days : ℕ) (applications : List StatsApplication) : Chart :=
  let empty := emptySeries (seriesDays now (days + 1) (now - days * dayMs + dayMs))
  let counted := ((received now days applications).map dayKey).foldl
    (bump empty.1 fun p => { p with applications := p.applications + 1 }) empty.2
  { series := ((hires now days applications).map dayKey).foldl
      (bump empty.1 fun p => { p with hires := p.hires + 1 }) counted
    received := (received now days applications).length
    hires := (hires now days applications).length }

/-! ### The series -/

theorem seriesDays_eq (stop : ℤ) (n : ℕ) : seriesDays stop (n + 1) (stop - n * dayMs + dayMs)
      = (List.range n).map fun k : ℕ => stop - n * dayMs + (k + 1) * dayMs := by
  induction n with
  | zero =>
    rw [seriesDays, if_neg]
    · rfl
    · have hpos : 0 < dayMs := by decide
      simp only [Nat.cast_zero]
      omega
  | succ n ih =>
    have hstart : stop - ((n + 1 : ℕ) : ℤ) * dayMs + dayMs = stop - n * dayMs := by
      push_cast
      ring
    have hnonneg : (0 : ℤ) ≤ n * dayMs := mul_nonneg (Int.natCast_nonneg n) (by decide)
    rw [hstart, seriesDays, if_pos (by omega), ih, range_succ_eq_map, map_cons, map_map]
    refine congrArg₂ _ ?_ (map_congr_left fun k _ => ?_)
    · push_cast
      ring
    · simp only [Function.comp_apply]
      push_cast
      ring

/-- The number of the `k`-th day of the series. -/
def dayAt (now : ℤ) (days k : ℕ) : ℤ := now / dayMs - days + 1 + k

theorem day_eq (now : ℤ) (days k : ℕ) :
    (now - days * dayMs + (k + 1) * dayMs) / dayMs = dayAt now days k := by
  rw [show now - days * dayMs + (k + 1) * dayMs = now + (-(days : ℤ) + (k + 1)) * dayMs by ring,
    Int.add_mul_ediv_right _ _ (by decide), dayAt]
  ring

/-- The keys of the series. -/
def keys (now : ℤ) (days : ℕ) : List (List Char) :=
  (List.range days).map fun k : ℕ => dayKey (now - days * dayMs + (k + 1) * dayMs)

theorem emptySeries_eq (ts : List ℤ) :
    (emptySeries ts).2 = (ts.map dayKey).map (fun k => ⟨k, 0, 0⟩) ∧
      ((ts.map dayKey).Nodup → ∀ k i,
        InsertionMap.get (emptySeries ts).1 k = some i ↔ (ts.map dayKey)[i]? = some k) := by
  induction ts using reverseRecOn with
  | nil => exact ⟨rfl, fun _ k i => iff_of_false (by simp [emptySeries]) (by simp)⟩
  | append_singleton ts t ih =>
    obtain ⟨hseries, hindex⟩ := ih
    have hfold : emptySeries (ts ++ [t]) = (InsertionMap.set (emptySeries ts).1 (dayKey t)
        (emptySeries ts).2.length, (emptySeries ts).2 ++ [⟨dayKey t, 0, 0⟩]) := by
      simp [emptySeries, foldl_append]
    have hlength : (emptySeries ts).2.length = (ts.map dayKey).length := by
      rw [hseries, length_map]
    rw [hfold, map_append, map_append, ← hseries]
    refine ⟨rfl, fun hnodup k i => ?_⟩
    obtain ⟨hnodup, -, hnew⟩ := nodup_append.mp hnodup
    rw [InsertionMap.get_set, hlength, getElem?_append, map_singleton]
    rcases eq_or_ne (dayKey t) k with rfl | hne
    · rw [if_pos rfl]
      split_ifs with hi
      · refine iff_of_false (fun h => ?_) fun h => ?_
        · exact absurd (Option.some.inj h) hi.ne'
        · exact hnew _ (mem_of_getElem? h) _ (mem_singleton_self _) rfl
      · rw [Option.some.injEq, getElem?_singleton]
        split_ifs with hzero
        · exact iff_of_true (by omega) rfl
        · exact iff_of_false (by omega) (by simp)
    · rw [if_neg hne, hindex hnodup]
      split_ifs with hi
      · rfl
      · refine iff_of_false (fun h => hi (List.getElem?_eq_some_iff.mp h).1) ?_
        rw [getElem?_singleton]
        split_ifs <;> simp [hne]

section Bump

variable {index : List (List Char × ℕ)} {ks : List (List Char)} {f : Point → Point}
  (hindex : ∀ k i, InsertionMap.get index k = some i ↔ ks[i]? = some k)

include hindex in
theorem bump_map (g : List Char → Point) (k : List Char) :
    bump index f (ks.map g) k = ks.map fun l => if k = l then f (g l) else g l := by
  refine ext_getElem? fun j => ?_
  rw [bump]
  cases hget : InsertionMap.get index k with
  | none =>
    rw [getElem?_map, getElem?_map]
    cases hj : ks[j]? with
    | none => rfl
    | some l =>
      have hne : k ≠ l := fun h => by
        rw [(hindex k j).mpr (h ▸ hj)] at hget
        cases hget
      simp [hne]
  | some i =>
    rw [getElem?_modify, getElem?_map, getElem?_map]
    cases hj : ks[j]? with
    | none => rfl
    | some l =>
      have hiff : i = j ↔ k = l := by
        constructor
        · rintro rfl
          exact Option.some.inj (((hindex k i).mp hget).symm.trans hj)
        · rintro rfl
          exact Option.some.inj (hget.symm.trans ((hindex k j).mpr hj))
      simp [hiff]

include hindex in
/-- A run counts each event on its day. -/
theorem foldl_bump_map (l : List (List Char)) (g : List Char → Point) :
    l.foldl (bump index f) (ks.map g) = ks.map fun k => f^[l.count k] (g k) := by
  induction l generalizing g with
  | nil => rfl
  | cons x l ih =>
    rw [foldl_cons, bump_map hindex, ih]
    refine map_congr_left fun k _ => ?_
    rw [count_cons]
    rcases eq_or_ne x k with rfl | hne
    · simp
    · simp [hne]

end Bump

/-- Counting keeps the dates. -/
theorem map_date_foldl_bump {index : List (List Char × ℕ)} {f : Point → Point}
    (hf : ∀ p, (f p).date = p.date) (l : List (List Char)) (series : List Point) :
    (l.foldl (bump index f) series).map Point.date = series.map Point.date := by
  induction l generalizing series with
  | nil => rfl
  | cons x l ih =>
    rw [foldl_cons, ih, bump]
    split
    · rfl
    · refine ext_getElem? fun j => ?_
      rw [getElem?_map, getElem?_map, getElem?_modify]
      cases series[j]? with
      | none => rfl
      | some p =>
        simp only [Option.map_some, Option.map_eq_map]
        split_ifs
        · rw [hf]
        · rfl

theorem map_date_series (now : ℤ) (days : ℕ) (applications : List StatsApplication) :
    (computeBusinessStats now days applications).series.map Point.date = keys now days := by
  rw [computeBusinessStats, seriesDays_eq]
  simp only
  rw [map_date_foldl_bump, map_date_foldl_bump, (emptySeries_eq _).1, map_map, map_map, map_map]
  · rfl
  · exact fun _ => rfl
  · exact fun _ => rfl

theorem series_eq {now : ℤ} {days : ℕ} (hnodup : (keys now days).Nodup)
    (applications : List StatsApplication) :
    (computeBusinessStats now days applications).series = (keys now days).map fun k =>
      ⟨k, ((received now days applications).map dayKey).count k,
        ((hires now days applications).map dayKey).count k⟩ := by
  have hkeys : ((List.range days).map fun k : ℕ =>
      now - days * dayMs + (k + 1) * dayMs).map dayKey = keys now days := by
    rw [map_map]
    rfl
  have hempty := emptySeries_eq ((List.range days).map fun k : ℕ =>
    now - days * dayMs + (k + 1) * dayMs)
  rw [hkeys] at hempty
  have happlications : ∀ (n : ℕ) (p : Point),
      (fun p : Point => { p with applications := p.applications + 1 })^[n] p
        = { p with applications := p.applications + n } := by
    intro n
    induction n with
    | zero => exact fun _ => rfl
    | succ n ih => exact fun p => (ih _).trans (by simp [Nat.add_comm, Nat.add_left_comm])
  have hhires : ∀ (n : ℕ) (p : Point), (fun p : Point => { p with hires := p.hires + 1 })^[n] p
        = { p with hires := p.hires + n } := by
    intro n
    induction n with
    | zero => exact fun _ => rfl
    | succ n ih => exact fun p => (ih _).trans (by simp [Nat.add_comm, Nat.add_left_comm])
  rw [computeBusinessStats, seriesDays_eq]
  simp only
  rw [hempty.1, foldl_bump_map (hempty.2 hnodup), foldl_bump_map (hempty.2 hnodup)]
  exact map_congr_left fun k _ => by rw [happlications, hhires]; simp

/-! ### When the chart adds up -/

/-- The points are those of the last days, in their order; each has what was received and accepted
on its day, and they sum to the totals. -/
structure AddsUp (now : ℤ) (days : ℕ) (list : List StatsApplication) (chart : Chart) : Prop where
  dates : chart.series.map Point.date = (List.range days).map fun k => dateText (dayAt now days k)
  applications : ∀ p ∈ chart.series,
    p.applications = ((received now days list).map fun t => dateText (t / dayMs)).count p.date
  hires : ∀ p ∈ chart.series,
    p.hires = ((Business.hires now days list).map fun t => dateText (t / dayMs)).count p.date
  received_eq : (chart.series.map Point.applications).sum = chart.received
  hires_eq : (chart.series.map Point.hires).sum = chart.hires

/-- The years of the days have four digits, and nothing of the period happened on the day it starts
on. -/
def Covered (now : ℤ) (days : ℕ) (applications : List StatsApplication) : Prop :=
  (∀ k < days, FourDigit (dayAt now days k))
    ∧ ∀ t ∈ received now days applications ++ hires now days applications,
      t / dayMs ≠ (now - days * dayMs) / dayMs

variable {now : ℤ} {days : ℕ} {applications : List StatsApplication}

theorem mem_window {t : ℤ} (h : t ∈ received now days applications ++ hires now days applications) :
    now - days * dayMs ≤ t ∧ t < now := by
  rcases mem_append.mp h with h | h
  · obtain ⟨a, ha, rfl⟩ := mem_map.mp h
    have hin := (mem_filter.mp ha).2
    simpa [within] using hin
  · obtain ⟨a, ha, rfl⟩ := mem_map.mp h
    have hin := (mem_filter.mp ha).2
    rw [Bool.and_eq_true] at hin
    cases hd : a.acceptedAt with
    | none => simp [within, hd] at hin
    | some t => simpa [within, hd] using hin.2

theorem keys_eq (hyears : ∀ k < days, FourDigit (dayAt now days k)) :
    keys now days = (List.range days).map fun k => dateText (dayAt now days k) := by
  rw [keys]
  refine map_congr_left fun k hk => ?_
  have hday := day_eq now days k
  rw [dayKey, ← hday]
  exact (dateOf_eq_dateText_iff _).mpr (hday ▸ hyears k (mem_range.mp hk))

theorem nodup_keys (hyears : ∀ k < days, FourDigit (dayAt now days k)) : (keys now days).Nodup := by
  rw [keys_eq hyears]
  refine nodup_range.map_on fun i hi j hj heq => ?_
  have hday := dateText_injective (hyears i (mem_range.mp hi)) (hyears j (mem_range.mp hj)) heq
  simp only [dayAt] at hday
  omega

/-- An event of the period has a point if and only if it is not on the first day. -/
theorem dayKey_mem_keys (hyears : ∀ k < days, FourDigit (dayAt now days k)) {t : ℤ}
    (ht : now - days * dayMs ≤ t ∧ t < now) :
    dayKey t ∈ keys now days ↔ t / dayMs ≠ (now - days * dayMs) / dayMs := by
  have hpos : 0 < dayMs := by decide
  have hfirst : (now - days * dayMs) / dayMs = now / dayMs - days := by
    rw [sub_eq_add_neg, ← neg_mul, Int.add_mul_ediv_right _ _ hpos.ne', ← sub_eq_add_neg]
  have hlower := Int.ediv_le_ediv hpos ht.1
  have hupper := Int.ediv_le_ediv hpos ht.2.le
  rw [keys_eq hyears, mem_map, hfirst]
  rw [hfirst] at hlower
  constructor
  · rintro ⟨k, hk, heq⟩ hday
    have hk' := (dateOf_eq_iff (hyears k (mem_range.mp hk))).mp heq.symm
    change t / dayMs = _ at hk'
    simp only [dayAt] at hk'
    omega
  · intro hne
    obtain ⟨k, hk⟩ := Int.eq_ofNat_of_zero_le
      (show 0 ≤ t / dayMs - (now / dayMs - days + 1) by omega)
    have hlt : k < days := by omega
    refine ⟨k, mem_range.mpr hlt, ((dateOf_eq_iff (hyears k hlt)).mpr ?_).symm⟩
    change t / dayMs = _
    simp only [dayAt]
    omega

/-- The counts by key are those by day. -/
theorem count_dayKey (hyears : ∀ k < days, FourDigit (dayAt now days k)) {key : List Char}
    (hkey : key ∈ keys now days) (ts : List ℤ) :
    (ts.map dayKey).count key = (ts.map fun t => dateText (t / dayMs)).count key := by
  rw [keys_eq hyears] at hkey
  obtain ⟨k, hk, rfl⟩ := mem_map.mp hkey
  have hyear := hyears k (mem_range.mp hk)
  rw [count_eq_countP, count_eq_countP, countP_map, countP_map]
  refine countP_congr fun t _ => ?_
  simp only [Function.comp_apply, beq_iff_eq]
  refine (dateOf_eq_iff hyear).trans ⟨fun h => congrArg dateText h, fun h => ?_⟩
  by_cases ht : FourDigit (t / dayMs)
  · exact dateText_injective ht hyear h
  · have hlength := congrArg List.length h
    rw [length_dateText.1 hyear, length_dateText.2 ht] at hlength
    cases hlength

/-- **The chart of a business adds up if and only if nothing of the period happened on the day it
starts on**, and the years have four digits. -/
theorem addsUp_iff (now : ℤ) (days : ℕ) (applications : List StatsApplication) :
    AddsUp now days applications (computeBusinessStats now days applications)
      ↔ Covered now days applications := by
  have hyears : AddsUp now days applications (computeBusinessStats now days applications) →
      ∀ k < days, FourDigit (dayAt now days k) := by
    intro h k hk
    have hdates := (map_date_series now days applications).symm.trans h.dates
    rw [keys] at hdates
    have hdate := map_inj_left.mp hdates k (mem_range.mpr hk)
    rw [← day_eq] at hdate ⊢
    exact (dateOf_eq_dateText_iff _).mp hdate
  have hsum : (∀ k < days, FourDigit (dayAt now days k)) → ∀ ts : List ℤ,
      ((keys now days).map fun k => (ts.map dayKey).count k).sum = ts.length
        ↔ ∀ t ∈ ts, dayKey t ∈ keys now days := by
    intro hyears ts
    rw [InsertionMap.sum_map_count (nodup_keys hyears), ← length_map (f := dayKey),
      countP_eq_length, forall_mem_map]
    simp only [contains_iff_mem]
  constructor
  · intro h
    have hdigits := hyears h
    have hseries := series_eq (nodup_keys hdigits) applications
    have hreceived := h.received_eq
    have hhires := h.hires_eq
    rw [hseries, map_map] at hreceived hhires
    refine ⟨hdigits, fun t ht => (dayKey_mem_keys hdigits (mem_window ht)).mp ?_⟩
    rcases mem_append.mp ht with ht | ht
    · exact (hsum hdigits _).mp hreceived t ht
    · exact (hsum hdigits _).mp hhires t ht
  · rintro ⟨hdigits, hfirst⟩
    have hseries := series_eq (nodup_keys hdigits) applications
    have hmem : ∀ t ∈ received now days applications ++ hires now days applications,
        dayKey t ∈ keys now days := fun t ht =>
      (dayKey_mem_keys hdigits (mem_window ht)).mpr (hfirst t ht)
    refine ⟨(map_date_series now days applications).trans (keys_eq hdigits), ?_, ?_, ?_, ?_⟩
    · rw [hseries]
      intro p hp
      obtain ⟨k, hk, rfl⟩ := mem_map.mp hp
      exact count_dayKey hdigits hk _
    · rw [hseries]
      intro p hp
      obtain ⟨k, hk, rfl⟩ := mem_map.mp hp
      exact count_dayKey hdigits hk _
    · rw [hseries, map_map]
      exact (hsum hdigits _).mpr fun t ht => hmem t (mem_append_left _ ht)
    · rw [hseries, map_map]
      exact (hsum hdigits _).mpr fun t ht => hmem t (mem_append_right _ ht)

/-- An application received at six in the evening of the day a week before is in the total, and in
no point. -/
theorem first_day_dropped : ¬AddsUp (7 * dayMs + 43200000) 7 [⟨.pending, 64800000, none⟩]
      (computeBusinessStats (7 * dayMs + 43200000) 7 [⟨.pending, 64800000, none⟩]) :=
  fun h => absurd h.received_eq (by decide +kernel)

/-- With what happened on the day the period starts on, the points sum to the totals. -/
structure AccountsFor (now : ℤ) (days : ℕ) (list : List StatsApplication) (chart : Chart) :
    Prop where
  received : (chart.series.map Point.applications).sum + (received now days list).countP
    (fun t => t / dayMs = (now - days * dayMs) / dayMs) = chart.received
  hires : (chart.series.map Point.hires).sum + (hires now days list).countP
    (fun t => t / dayMs = (now - days * dayMs) / dayMs) = chart.hires

/-- **What the points leave out is what happened on the day the period starts on**, and nothing
else. -/
theorem missing_is_first_day (hyears : ∀ k < days, FourDigit (dayAt now days k))
    (applications : List StatsApplication) :
    AccountsFor now days applications (computeBusinessStats now days applications) := by
  have hsum : ∀ ts ⊆ received now days applications ++ hires now days applications,
      ((keys now days).map fun k => (ts.map dayKey).count k).sum
        + ts.countP (fun t => t / dayMs = (now - days * dayMs) / dayMs) = ts.length := by
    intro ts hts
    rw [InsertionMap.sum_map_count (nodup_keys hyears), List.countP_map,
      List.length_eq_countP_add_countP ((keys now days).contains ∘ dayKey)]
    refine congrArg _ (List.countP_congr fun t ht => ?_)
    have hmem := dayKey_mem_keys hyears (mem_window (hts ht))
    simp [hmem]
  have hseries := series_eq (nodup_keys hyears) applications
  constructor
  · rw [hseries, List.map_map]
    exact hsum _ (List.subset_append_left _ _)
  · rw [hseries, List.map_map]
    exact hsum _ (List.subset_append_right _ _)

/-- The application that no point has is one of the first day. -/
theorem missing_first_day : AccountsFor (7 * dayMs + 43200000) 7 [⟨.pending, 64800000, none⟩]
      (computeBusinessStats (7 * dayMs + 43200000) 7 [⟨.pending, 64800000, none⟩]) :=
  missing_is_first_day (by decide +kernel) _

end Rabotka.Business
