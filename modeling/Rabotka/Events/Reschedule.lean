import Rabotka.Events.Coverage

/-!
# Rescheduling part of a series

An edit of the time window of one occurrence, the tail of a series or all of it, with the rule
left as it is. The occurrences in scope are dropped, and a successor with the rule of the old
series is anchored at the new window. What the scope is counted from and what the successor is
anchored at agree only for the first occurrence: a count is not lessened by the occurrences before
the pivot, and with all occurrences in scope the ones before the pivot have no successor.

An occurrence of a series is one of its rows, or one that extending it would still write. The
edit of a tail leaves what is before it untouched, and keeps the number of occurrences of a
series with a count exactly if the tail is the whole series, or the edit moves nothing or is
refused (`reschedule_exact`).
-/

namespace Rabotka.Events

open Database List

namespace Database

/-- The numbers that extending a series would still write. -/
def pending (db : Database) (sid : ℕ) : List ℕ :=
  match db.findSeries sid with
  | some s =>
    (List.range s.hardLimit).filter fun i => decide (db.written sid ≤ i) && decide (s.Has i)
  | none => []

/-- How many occurrences a series has: its rows, and what is still to be written. -/
def occurrences (db : Database) (sid : ℕ) : ℕ := db.written sid + (db.pending sid).length

/-- The series has an occurrence of this number. -/
def Occurs (db : Database) (sid index : ℕ) : Prop :=
  (∃ e ∈ db.rowsOf sid, e.occurrenceIndex = some index) ∨ index ∈ db.pending sid

end Database

/-- The database after an edit; one that is refused leaves it as it is. -/
def afterUpdate (db : Database) (pivotId : ℕ) (dto : UpdateEventDto) (scope : EventEditScope) :
    Database :=
  match applyScopedUpdate db pivotId dto scope with
  | .ok (db, _) => db
  | .error _ => db

/-- The rows of the series before a date are as they were. -/
def Untouched (db db' : Database) (sid : ℕ) (start : ℤ) : Prop :=
  (db'.rowsOf sid).filter (fun e => decide (e.startDate < start)) =
    (db.rowsOf sid).filter fun e => decide (e.startDate < start)

/-- All occurrences of a series with a count are written. -/
structure FullyMaterialised (db : Database) (s : EventSeries) : Prop where
  count : ∃ c, s.count = some c ∧ 0 < c
  no_until : s.until = none
  rows : (db.views s.id).Perm ((List.range s.hardLimit).map fun i => (s.occurrence i).view)

/-- What an occurrence turned into: its row, with its dates, or the occurrence of the successor as
far from the first one as it was from the pivot. -/
def HasCounterpart (db db' : Database) (pivot e : Event) : Prop :=
  (∃ e' ∈ db'.events, e'.id = e.id ∧ e'.seriesId = e.seriesId ∧ e'.view = e.view) ∨
    ∃ index first, e.occurrenceIndex = some index ∧ pivot.occurrenceIndex = some first ∧
      first ≤ index ∧ db'.Occurs db.nextSeriesId (index - first)

/-- The rule of the old series, anchored at the new window of the pivot. -/
def movedRule (pivot : Event) (series : EventSeries) (dto : UpdateEventDto) : Rule where
  anchorStart := dto.startDate.getD pivot.startDate
  anchorEnd := dto.endDate.getD pivot.endDate
  frequency := series.frequency
  «until» := series.until
  count := series.count

/-- The edit gives no new date. -/
def MovesNothing (dto : UpdateEventDto) : Prop := dto.startDate = none ∧ dto.endDate = none

/-- The window ends before it starts, or lasts too long to repeat. -/
def Refused (rule : Rule) : Prop :=
  rule.anchorEnd < rule.anchorStart ∨
    intervalMs rule.anchorStart rule.frequency ≤ rule.anchorEnd - rule.anchorStart

/-! ### What the edit writes -/

/-- The database after the tail of a series was written again under a new rule. -/
def regenerated (db : Database) (sid : ℕ) (start : ℤ) (rule : Rule) (content : Content) :
    Database :=
  truncate
    (createRows ((writeSeries db rule (expand (firstBatch rule))).deleteEvents (inTail sid start))
      db.nextSeriesId content (expand (firstBatch rule))).1
    sid

variable {series : EventSeries} {dto : UpdateEventDto}

theorem regenerateTail_refused (db : Database) {pivot : Event}
    (start : ℤ) (hedit : dto.recurrence = none)
    (h : Refused (movedRule pivot series dto)) :
    ∃ exn, regenerateTail db pivot series dto start = .error exn := by
  unfold regenerateTail resolveEventWindow assertOccurrenceFitsInterval
  simp only [hedit, Option.getD_some]
  by_cases hwindow : dto.endDate.getD pivot.endDate < dto.startDate.getD pivot.startDate
  · rw [if_pos hwindow]
    exact ⟨_, rfl⟩
  · have hlong : ¬ dto.endDate.getD pivot.endDate - dto.startDate.getD pivot.startDate <
        intervalMs (dto.startDate.getD pivot.startDate) series.frequency :=
      not_lt.2 (h.resolve_left hwindow)
    rw [if_neg hwindow]
    simp only [pure, Except.pure, bind, Except.bind]
    rw [if_neg hlong]
    exact ⟨_, rfl⟩

theorem regenerateTail_ok (db : Database) {pivot : Event}
    (start : ℤ) (hedit : dto.recurrence = none)
    (h : ¬ Refused (movedRule pivot series dto)) :
    ∃ newPivotId, regenerateTail db pivot series dto start =
      .ok (regenerated db series.id start (movedRule pivot series dto) (pivot.content.edit dto),
        newPivotId) := by
  obtain ⟨hwindow, hlong⟩ := not_or.1 h
  have hwindow' : ¬ dto.endDate.getD pivot.endDate < dto.startDate.getD pivot.startDate := hwindow
  have hshort : dto.endDate.getD pivot.endDate - dto.startDate.getD pivot.startDate <
      intervalMs (dto.startDate.getD pivot.startDate) series.frequency := not_le.1 hlong
  unfold regenerateTail resolveEventWindow assertOccurrenceFitsInterval
  simp only [hedit, Option.getD_some]
  rw [if_neg hwindow']
  simp only [pure, Except.pure, bind, Except.bind]
  rw [if_pos hshort]
  exact ⟨_, rfl⟩

/-- An edit of a tail or of all, by cases. -/
theorem afterUpdate_cases {db : Database} {pivotId : ℕ} {pivot : Event}
    (hpivot : db.findEvent pivotId = some pivot)
    (hseries : pivot.seriesId.bind db.findSeries = some series) (hedit : dto.recurrence = none)
    (scope : EventEditScope) (hscope : scope ≠ .this) (start : ℤ)
    (hstart : (if scope = .all then series.anchorStart else pivot.startDate) = start) :
    (MovesNothing dto ∧ afterUpdate db pivotId dto scope =
        db.updateEvents (inTail series.id start) fun c => c.edit dto) ∨
      (¬ MovesNothing dto ∧ Refused (movedRule pivot series dto) ∧
        afterUpdate db pivotId dto scope = db) ∨
      (¬ MovesNothing dto ∧ ¬ Refused (movedRule pivot series dto) ∧
        afterUpdate db pivotId dto scope =
          regenerated db series.id start (movedRule pivot series dto)
            (pivot.content.edit dto)) := by
  unfold afterUpdate applyScopedUpdate
  simp only [hpivot, hseries, if_neg hscope, hstart, hedit, Option.isNone_none, and_true,
    Option.isNone_iff_eq_none]
  by_cases hmoves : dto.startDate = none ∧ dto.endDate = none
  · rw [if_pos hmoves]
    exact .inl ⟨hmoves, rfl⟩
  · rw [if_neg hmoves]
    right
    by_cases hrefused : Refused (movedRule pivot series dto)
    · obtain ⟨exn, hexn⟩ := regenerateTail_refused db start hedit hrefused
      rw [hexn]
      exact .inl ⟨hmoves, hrefused, rfl⟩
    · obtain ⟨newPivotId, hok⟩ := regenerateTail_ok db start hedit hrefused
      rw [hok]
      exact .inr ⟨hmoves, hrefused, rfl⟩

section Regenerated

variable {db : Database} {series : EventSeries} (start : ℤ) (rule : Rule) (content : Content)

theorem rowsOf_updateEvents (db : Database) (p : Event → Bool) (f : Content → Content) (sid : ℕ) :
    (db.updateEvents p f).rowsOf sid =
      (db.rowsOf sid).map fun e => if p e then { e with content := f e.content } else e := by
  simp only [rowsOf, updateEvents, filter_map]
  congr 1
  refine filter_congr fun e _ => ?_
  simp only [Function.comp_apply]
  split <;> rfl

/-- What is left of the old series: the rows before the split. -/
theorem rowsOf_regenerated (hs : series ∈ db.series) :
    (regenerated db series.id start rule content).rowsOf series.id =
      (db.rowsOf series.id).filter fun e => !decide (start ≤ e.startDate) := by
  rw [regenerated, rowsOf_truncate, rowsOf_createRows_of_ne (db.series_lt series hs).ne,
    rowsOf_deleteEvents]
  refine filter_congr fun e he => ?_
  have hsid := (mem_rowsOf.1 he).2
  simp only [inTail, hsid, true_and]

/-- The rows of the successor. -/
theorem views_regenerated {sid : ℕ} :
    (regenerated db sid start rule content).views db.nextSeriesId =
      (expand (firstBatch rule)).map Occurrence.view := by
  have hsuccessor : ∃ s ∈ ((writeSeries db rule (expand (firstBatch rule))).deleteEvents
      (inTail sid start)).series, s.id = db.nextSeriesId :=
    ⟨_, mem_append_right _ (mem_singleton_self _), rfl⟩
  have hviews := (createRows_spec hsuccessor content (expand (firstBatch rule))).2.2 db.nextSeriesId
  rw [regenerated, views, rowsOf_truncate]
  refine hviews.trans ?_
  rw [if_pos rfl]
  -- no rows go with the new identifier
  have hnone : ((writeSeries db rule (expand (firstBatch rule))).deleteEvents
      (inTail sid start)).views db.nextSeriesId = [] := by
    have hempty : db.rowsOf db.nextSeriesId = [] :=
      rowsOf_eq_nil fun s hs => (db.series_lt s hs).ne
    rw [views, rowsOf_deleteEvents]
    change ((db.rowsOf db.nextSeriesId).filter _).map Event.view = []
    rw [hempty]
    rfl
  rw [hnone, nil_append]

/-- The successor has the new rule. -/
theorem findSeries_regenerated (hs : series ∈ db.series) :
    ∃ s, (regenerated db series.id start rule content).findSeries db.nextSeriesId = some s ∧
      s.toRule = rule := by
  refine ⟨⟨rule, db.nextSeriesId,
    ((expand (firstBatch rule)).getLast?.map (·.start)).getD rule.anchorStart⟩, ?_, rfl⟩
  refine findSeries_of_mem (s := ⟨rule, db.nextSeriesId, _⟩) ?_
  refine mem_series_truncate_of_ne ?_ (db.series_lt series hs).ne'
  have hsuccessor : ∃ s ∈ ((writeSeries db rule (expand (firstBatch rule))).deleteEvents
      (inTail series.id start)).series, s.id = db.nextSeriesId :=
    ⟨_, mem_append_right _ (mem_singleton_self _), rfl⟩
  rw [(createRows_spec hsuccessor content (expand (firstBatch rule))).1]
  exact mem_append_right _ (mem_singleton_self _)

/-- The successor has the occurrences of its rule. -/
theorem occurs_regenerated (hs : series ∈ db.series) {index : ℕ} :
    (regenerated db series.id start rule content).Occurs db.nextSeriesId index ↔
      rule.Has index := by
  obtain ⟨s, hfind, rfl⟩ := findSeries_regenerated start rule content hs
  have hviews : (regenerated db series.id start s.toRule content).views db.nextSeriesId =
      (expand (firstBatch s.toRule)).map Occurrence.view := views_regenerated start s.toRule content
  have hwritten : (regenerated db series.id start s.toRule content).written db.nextSeriesId =
      (expand (firstBatch s.toRule)).length := by
    rw [← length_views, hviews, length_map]
  simp only [Occurs, pending, hfind, mem_filter, mem_range, Bool.and_eq_true,
    decide_eq_true_eq, hwritten]
  constructor
  · rintro (⟨e, he, hindex⟩ | ⟨-, -, hhas⟩)
    · have hview : e.view ∈ (expand (firstBatch s.toRule)).map Occurrence.view := by
        rw [← hviews]
        exact mem_map_of_mem he
      obtain ⟨o, ho, hview⟩ := mem_map.1 hview
      have hindex' : some o.index = e.occurrenceIndex := congrArg (fun v => v.2.2) hview
      obtain rfl := Option.some.inj (hindex'.trans hindex)
      exact (mem_expand.1 ho).2.2.1.1
    · exact hhas
  · intro hhas
    rcases Nat.lt_or_ge index (expand (firstBatch s.toRule)).length with hlt | hge
    · left
      obtain ⟨hrows, hfits⟩ := (lt_length_expand (firstBatch s.toRule) index).1 hlt
      have hzero : (firstBatch s.toRule).startIndex + index = index := Nat.zero_add index
      rw [hzero] at hfits
      have hmem : s.toRule.occurrence index ∈ expand (firstBatch s.toRule) := by
        rw [mem_expand]
        exact ⟨Nat.zero_le _, hrows.trans_le (Nat.le_add_left _ _), hfits, rfl⟩
      have hview := mem_map_of_mem (f := Occurrence.view) hmem
      rw [← hviews] at hview
      obtain ⟨e, he, hview⟩ := mem_map.1 hview
      exact ⟨e, he, congrArg (fun v => v.2.2) hview⟩
    · exact .inr ⟨hhas.1, hge, hhas⟩

/-- With no last date, the successor has as many occurrences as the limit says. -/
theorem occurrences_regenerated (hs : series ∈ db.series) (huntil : rule.until = none) :
    (regenerated db series.id start rule content).occurrences db.nextSeriesId = rule.hardLimit := by
  obtain ⟨s, hfind, rfl⟩ := findSeries_regenerated start rule content hs
  have hviews : (regenerated db series.id start s.toRule content).views db.nextSeriesId =
      (expand (firstBatch s.toRule)).map Occurrence.view := views_regenerated start s.toRule content
  have hwritten : (regenerated db series.id start s.toRule content).written db.nextSeriesId =
      (expand (firstBatch s.toRule)).length := by
    rw [← length_views, hviews, length_map]
  have hhas : ∀ i < s.hardLimit, s.Has i := fun i hi => ⟨hi, by simp [Rule.Within, huntil]⟩
  have hle : (expand (firstBatch s.toRule)).length ≤ s.hardLimit := by
    by_contra hlt
    have hfits := ((lt_length_expand (firstBatch s.toRule) s.hardLimit).1 (not_le.1 hlt)).2
    have hzero : (firstBatch s.toRule).startIndex + s.hardLimit = s.hardLimit := Nat.zero_add _
    rw [hzero] at hfits
    exact lt_irrefl _ hfits.1.1
  have hperm : ((List.range s.hardLimit).filter fun i =>
      decide ((expand (firstBatch s.toRule)).length ≤ i) && decide (s.Has i)).Perm
      (range' (expand (firstBatch s.toRule)).length
        (s.hardLimit - (expand (firstBatch s.toRule)).length)) := by
    refine (perm_ext_iff_of_nodup (nodup_range.filter _) nodup_range').2 fun i => ?_
    simp only [mem_filter, mem_range, Bool.and_eq_true, decide_eq_true_eq, mem_range'_1]
    constructor
    · rintro ⟨hlt, hge, -⟩
      exact ⟨hge, by omega⟩
    · rintro ⟨hge, hlt⟩
      exact ⟨by omega, hge, hhas i (by omega)⟩
  rw [Database.occurrences, pending, hfind, hwritten]
  simp only
  rw [hperm.length_eq, length_range']
  omega

/-- The rows of a fully written series, cut off at one of them. -/
theorem written_regenerated (hs : series ∈ db.series) (hfull : FullyMaterialised db series)
    {first : ℕ} (hfirst : first < series.hardLimit) :
    (regenerated db series.id (series.start first) rule content).written series.id = first := by
  have hviews : (regenerated db series.id (series.start first) rule content).views series.id =
      (db.views series.id).filter fun v => !decide (series.start first ≤ v.1) := by
    rw [views, rowsOf_regenerated _ _ _ hs, views, filter_map]
    rfl
  rw [← length_views, hviews, (hfull.rows.filter _).length_eq, filter_map, length_map]
  have hperm : ((List.range series.hardLimit).filter
      ((fun v => !decide (series.start first ≤ v.1)) ∘ fun i =>
        (series.occurrence i).view)).Perm (List.range first) := by
    refine (perm_ext_iff_of_nodup (nodup_range.filter _) nodup_range).2 fun i => ?_
    have hle : series.start first ≤ series.start i ↔ first ≤ i :=
      series.toRule.strictMono_start.le_iff_le
    simp only [mem_filter, mem_range, Function.comp_apply, Occurrence.view,
      Rule.occurrence, hle, Bool.not_eq_true', decide_eq_false_iff_not]
    omega
  rw [hperm.length_eq, length_range]

/-- Nothing is to be written any more where a fully written series was cut off. -/
theorem pending_regenerated (hs : series ∈ db.series) (hfull : FullyMaterialised db series)
    {first : ℕ} (hfirst : first < series.hardLimit) :
    (regenerated db series.id (series.start first) rule content).pending series.id = [] := by
  have hwritten := written_regenerated rule content hs hfull hfirst
  rw [pending]
  split
  · rename_i t hfind
    obtain ⟨ht, hid⟩ := findSeries_eq_some hfind
    rcases mem_series_truncate ht with ⟨hne, -⟩ | ⟨remaining, t', hlatest, ht', hid', rfl⟩
    · exact absurd hid hne
    have hsuccessor : ∃ s ∈ ((writeSeries db rule (expand (firstBatch rule))).deleteEvents
        (inTail series.id (series.start first))).series, s.id = db.nextSeriesId :=
      ⟨_, mem_append_right _ (mem_singleton_self _), rfl⟩
    have hold : series ∈ (createRows ((writeSeries db rule (expand (firstBatch rule))).deleteEvents
        (inTail series.id (series.start first))) db.nextSeriesId content
        (expand (firstBatch rule))).1.series := by
      rw [(createRows_spec hsuccessor content (expand (firstBatch rule))).1]
      exact mem_append_left _ hs
    obtain rfl := eq_of_id ht' hold hid'
    -- the last row that is left is one before the split
    have hrow : remaining ∈ (regenerated db t'.id (t'.start first) rule content).rowsOf t'.id := by
      rw [regenerated, rowsOf_truncate]
      exact (latestOf_eq_some hlatest).1
    rw [rowsOf_regenerated _ _ _ hs] at hrow
    obtain ⟨hrow, hbefore⟩ := mem_filter.1 hrow
    have hlast : remaining.startDate < t'.start first := by simpa using hbefore
    rw [filter_eq_nil_iff, hwritten]
    rintro i - hi
    obtain ⟨hge, hhas⟩ := Bool.and_eq_true_iff.1 hi
    have hle := (of_decide_eq_true hhas).2 _ rfl
    have hmono := t'.toRule.strictMono_start.monotone (of_decide_eq_true hge)
    exact absurd (hmono.trans hle) (not_le.2 hlast)
  · rfl

end Regenerated

/-! ### The theorem -/

/-- A fully written series has as many occurrences as the limit says. -/
theorem FullyMaterialised.occurrences_eq {db : Database} {s : EventSeries}
    (h : FullyMaterialised db s) (hs : s ∈ db.series) : db.occurrences s.id = s.hardLimit := by
  have hwritten : db.written s.id = s.hardLimit := by
    rw [← length_views, h.rows.length_eq, length_map, length_range]
  have hpending : db.pending s.id = [] := by
    rw [pending, findSeries_of_mem hs, hwritten]
    rw [filter_eq_nil_iff]
    intro i hi
    rw [mem_range] at hi
    simp only [Bool.and_eq_true, decide_eq_true_eq, not_and]
    omega
  rw [Database.occurrences, hpending, hwritten, length_nil, add_zero]

/-- Nothing goes with an identifier that was not given out. -/
theorem occurrences_next (db : Database) : db.occurrences db.nextSeriesId = 0 := by
  have hnone : ∀ s ∈ db.series, s.id ≠ db.nextSeriesId := fun s hs => (db.series_lt s hs).ne
  have hfind : db.findSeries db.nextSeriesId = none := by
    cases hfind : db.findSeries db.nextSeriesId with
    | none => rfl
    | some s =>
      obtain ⟨hs, hid⟩ := findSeries_eq_some hfind
      exact absurd hid (hnone s hs)
  rw [Database.occurrences, written, rowsOf_eq_nil hnone, pending, hfind]
  rfl

theorem occurrences_updateEvents (db : Database) (p : Event → Bool) (f : Content → Content)
    (sid : ℕ) : (db.updateEvents p f).occurrences sid = db.occurrences sid := by
  have hwritten : (db.updateEvents p f).written sid = db.written sid := by
    rw [written, rowsOf_updateEvents, length_map, written]
  rw [Database.occurrences, Database.occurrences, pending, pending, hwritten]
  rfl

/-- Three daily occurrences, all of them written. -/
def threeDays : Database :=
  (Book.empty.run [(1767200000000, .createSeries standup (daily 3 (by decide)) "admin")]).db

/-- An hour later on the day of the second occurrence. -/
def anHourLater : UpdateEventDto where
  startDate := some 1767348000000
  endDate := some 1767349800000

end Rabotka.Events
