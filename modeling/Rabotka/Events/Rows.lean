import Rabotka.Events.Schema

/-!
# The rows of a series

What each statement and each function does to the rows of a series, seen as the occurrences they
stand for: `views` are the dates and the number of each row in creation order. Extending a series
is given in closed form: `topUp` is what is appended to it, and `ensureMaterialised_spec` says
that the call appends to each stale series its `topUp` and changes nothing else.
-/

namespace Rabotka.Events

open List

/-- The dates and the number of a row. -/
def Event.view (e : Event) : ℤ × ℤ × Option ℕ := (e.startDate, e.endDate, e.occurrenceIndex)

/-- The row of an occurrence. -/
def Occurrence.view (o : Occurrence) : ℤ × ℤ × Option ℕ := (o.start, o.end, some o.index)

theorem latest_eq_none {rows : List Event} : latest rows = none ↔ rows = [] := by
  cases rows with
  | nil => simp [latest]
  | cons e rows =>
    simp only [latest, reduceCtorEq, iff_false]
    split
    · split <;> simp
    · simp

theorem latest_eq_some {rows : List Event} {e : Event} (h : latest rows = some e) :
    e ∈ rows ∧ ∀ e' ∈ rows, e'.startDate ≤ e.startDate := by
  induction rows generalizing e with
  | nil => cases h
  | cons first rows ih =>
    simp only [latest] at h
    split at h
    · rename_i later hlater
      obtain ⟨hmem, hmax⟩ := ih hlater
      split at h
      · rename_i hlt
        obtain rfl := Option.some.inj h
        refine ⟨mem_cons_of_mem _ hmem, ?_⟩
        rintro e' (_ | ⟨_, he'⟩)
        · exact hlt.le
        · exact hmax e' he'
      · rename_i hge
        obtain rfl := Option.some.inj h
        refine ⟨mem_cons_self, ?_⟩
        rintro e' (_ | ⟨_, he'⟩)
        · exact le_rfl
        · exact (hmax e' he').trans (not_lt.1 hge)
    · rename_i hnone
      obtain rfl := Option.some.inj h
      rw [latest_eq_none.1 hnone]
      simp

variable {db : Database} {sid : ℕ} {s : EventSeries}

namespace Database

/-- The rows of a series, as occurrences. -/
def views (db : Database) (sid : ℕ) : List (ℤ × ℤ × Option ℕ) := (db.rowsOf sid).map Event.view

@[simp]
theorem mem_rowsOf {e : Event} : e ∈ db.rowsOf sid ↔ e ∈ db.events ∧ e.seriesId = some sid := by
  simp [rowsOf]

theorem findEvent_eq_some {id : ℕ} {e : Event} (h : db.findEvent id = some e) :
    e ∈ db.events ∧ e.id = id :=
  ⟨mem_of_find?_eq_some h, by simpa using find?_some h⟩

theorem findSeries_eq_some {id : ℕ} (h : db.findSeries id = some s) : s ∈ db.series ∧ s.id = id :=
  ⟨mem_of_find?_eq_some h, by simpa using find?_some h⟩

theorem findSeries_of_mem (hs : s ∈ db.series) : db.findSeries s.id = some s := by
  cases hfind : db.findSeries s.id with
  | none =>
    have hnone := find?_eq_none.1 hfind s hs
    simp at hnone
  | some t =>
    obtain ⟨ht, hid⟩ := findSeries_eq_some hfind
    rw [inj_on_of_nodup_map db.nodup_series ht hs hid]

/-- Two series are the same if their identifiers are. -/
theorem eq_of_id {s t : EventSeries} (hs : s ∈ db.series) (ht : t ∈ db.series)
    (h : s.id = t.id) : s = t :=
  inj_on_of_nodup_map db.nodup_series hs ht h

theorem rowsOf_eq_nil (h : ∀ s ∈ db.series, s.id ≠ sid) : db.rowsOf sid = [] := by
  refine eq_nil_iff_forall_not_mem.2 fun e he => ?_
  obtain ⟨he, hsid⟩ := mem_rowsOf.1 he
  obtain ⟨s, hs, hid⟩ := db.owned e he sid hsid
  exact h s hs hid

theorem latestOf_eq_none : db.latestOf sid = none ↔ db.rowsOf sid = [] :=
  latest_eq_none

theorem latestOf_eq_some {e : Event} (h : db.latestOf sid = some e) :
    e ∈ db.rowsOf sid ∧ ∀ e' ∈ db.rowsOf sid, e'.startDate ≤ e.startDate :=
  latest_eq_some h

/-! ### Statements -/

theorem series_createEvent (db : Database) (seriesId occurrenceIndex : Option ℕ)
    (content : Content) (startDate endDate : ℤ) :
    (db.createEvent seriesId occurrenceIndex content startDate endDate).series = db.series ∧
      (db.createEvent seriesId occurrenceIndex content startDate endDate).nextSeriesId =
        db.nextSeriesId := by
  unfold createEvent
  split <;> exact ⟨rfl, rfl⟩

theorem views_createEvent_none (db : Database) (occurrenceIndex : Option ℕ)
    (content : Content) (startDate endDate : ℤ) (sid : ℕ) :
    (db.createEvent none occurrenceIndex content startDate endDate).views sid = db.views sid := by
  rw [createEvent, dif_pos (by simp)]
  simp [views, rowsOf]

theorem views_createEvent (h : ∃ s ∈ db.series, s.id = sid)
    (occurrenceIndex : Option ℕ) (content : Content) (startDate endDate : ℤ) (sid' : ℕ) :
    (db.createEvent (some sid) occurrenceIndex content startDate endDate).views sid' =
      db.views sid' ++ if sid' = sid then [(startDate, endDate, occurrenceIndex)] else [] := by
  rw [createEvent, dif_pos (by simpa using h)]
  rcases eq_or_ne sid' sid with rfl | hne
  · simp [views, rowsOf, Event.view]
  · simp [views, rowsOf, hne, hne.symm]

theorem rowsOf_deleteEvents (db : Database) (p : Event → Bool) (sid : ℕ) :
    (db.deleteEvents p).rowsOf sid = (db.rowsOf sid).filter fun e => !p e := by
  simp only [rowsOf, deleteEvents, filter_filter]
  exact filter_congr fun e _ => Bool.and_comm _ _

theorem rowsOf_deleteSeries (db : Database) (sid : ℕ) {sid' : ℕ} (hne : sid' ≠ sid) :
    (db.deleteSeries sid).rowsOf sid' = db.rowsOf sid' := by
  simp only [rowsOf, deleteSeries, filter_filter]
  refine filter_congr fun e _ => ?_
  rcases eq_or_ne e.seriesId (some sid') with h | h
  · simp [h, hne]
  · simp [h]

theorem mem_series_deleteSeries :
    s ∈ (db.deleteSeries sid).series ↔ s ∈ db.series ∧ s.id ≠ sid := by
  simp [deleteSeries]

theorem series_updateSeries (db : Database) (sid : ℕ) (f : EventSeries → EventSeries)
    (hf : ∀ s, (f s).id = s.id) :
    (db.updateSeries sid f hf).series = db.series.map fun s => if s.id = sid then f s else s := rfl

end Database

open Database

/-! ### Writing rows -/

/-- The rows of the occurrences are appended to their series. -/
theorem createRows_spec (h : ∃ s ∈ db.series, s.id = sid)
    (content : Content) (occurrences : List Occurrence) :
    (createRows db sid content occurrences).1.series = db.series ∧
      (createRows db sid content occurrences).1.nextSeriesId = db.nextSeriesId ∧
      ∀ sid', (createRows db sid content occurrences).1.views sid' =
        db.views sid' ++ if sid' = sid then occurrences.map Occurrence.view else [] := by
  suffices hfold : ∀ x : Database × ℕ, (∃ s ∈ x.1.series, s.id = sid) →
      (occurrences.foldl (createRow sid content) x).1.series = x.1.series ∧
        (occurrences.foldl (createRow sid content) x).1.nextSeriesId = x.1.nextSeriesId ∧
        ∀ sid', (occurrences.foldl (createRow sid content) x).1.views sid' =
          x.1.views sid' ++ if sid' = sid then occurrences.map Occurrence.view else [] from
    hfold (db, 0) h
  intro x hx
  induction occurrences generalizing x with
  | nil => simp
  | cons o occurrences ih =>
    obtain ⟨hseries, hnext⟩ :=
      series_createEvent x.1 (some sid) (some o.index) content o.start o.end
    have hx' : ∃ s ∈ (createRow sid content x o).1.series, s.id = sid := by
      rw [createRow, hseries]
      exact hx
    obtain ⟨hseries', hnext', hviews⟩ := ih (createRow sid content x o) hx'
    rw [foldl_cons]
    refine ⟨hseries'.trans hseries, hnext'.trans hnext, fun sid' => ?_⟩
    rw [hviews, createRow, views_createEvent hx, append_assoc]
    split <;> rfl

/-- The rows of the other series stay as they are. -/
theorem rowsOf_createRows_of_ne {sid sid' : ℕ} (hne : sid' ≠ sid)
    (content : Content) (occurrences : List Occurrence) :
    (createRows db sid content occurrences).1.rowsOf sid' = db.rowsOf sid' := by
  suffices hfold : ∀ x : Database × ℕ,
      (occurrences.foldl (createRow sid content) x).1.rowsOf sid' = x.1.rowsOf sid' from
    hfold (db, 0)
  intro x
  induction occurrences generalizing x with
  | nil => rfl
  | cons o occurrences ih =>
    rw [foldl_cons, ih, createRow, Database.createEvent]
    split
    · simp [rowsOf, hne.symm]
    · rfl

/-! ### Extending -/

theorem Database.length_views (db : Database) (sid : ℕ) :
    (db.views sid).length = db.written sid := length_map _

/-- What extending a series up to a date appends to it, given how many rows there are. -/
def topUp (written : ℕ) (series : EventSeries) (upTo : ℤ) : List Occurrence :=
  if series.count.any (fun count => decide (count ≤ written)) ∨ written = 0 then []
  else expand ⟨series.toRule, upTo, maxMaterialisedPerRequest, written⟩

/-- The row of the series after these occurrences were appended. -/
def EventSeries.extended (series : EventSeries) (occurrences : List Occurrence) : EventSeries :=
  match occurrences.getLast? with
  | some last => { series with materialisedUntil := last.start }
  | none => series

theorem EventSeries.extended_id (series : EventSeries) (occurrences : List Occurrence) :
    (series.extended occurrences).id = series.id := by
  unfold extended
  split <;> rfl

theorem extendSeries_spec (hs : s ∈ db.series) (upTo : ℤ) :
    (extendSeries db s upTo).series = db.series.map (fun t =>
          if t.id = s.id then t.extended (topUp (db.written s.id) s upTo) else t) ∧
      (extendSeries db s upTo).nextSeriesId = db.nextSeriesId ∧
      ∀ sid, (extendSeries db s upTo).views sid = db.views sid ++
          if sid = s.id then (topUp (db.written s.id) s upTo).map Occurrence.view else [] := by
  have hsame : topUp (db.written s.id) s upTo = [] → db.series = db.series.map (fun t =>
          if t.id = s.id then t.extended (topUp (db.written s.id) s upTo) else t) ∧
        db.nextSeriesId = db.nextSeriesId ∧
        ∀ sid, db.views sid = db.views sid ++
          if sid = s.id then (topUp (db.written s.id) s upTo).map Occurrence.view else [] := by
    intro hnil
    simp [hnil, EventSeries.extended]
  unfold extendSeries
  split
  · rename_i hcount
    exact hsame (by simp only [topUp, hcount, true_or, if_true])
  · rename_i hcount
    split
    · rename_i last template hlast htemplate
      have hrows : db.written s.id ≠ 0 := by
        rw [written, Ne, length_eq_zero_iff, ← latestOf_eq_none, htemplate]
        simp
      have htop : topUp (db.written s.id) s upTo = expand (nextBatch db s upTo) := by
        rw [topUp, if_neg (not_or.2 ⟨hcount, hrows⟩)]
        rfl
      obtain ⟨hseries, hnext, hviews⟩ := createRows_spec ⟨s, hs, rfl⟩ template.content
        (expand (nextBatch db s upTo))
      rw [htop]
      refine ⟨?_, hnext, hviews⟩
      rw [series_updateSeries, hseries]
      simp only [EventSeries.extended, hlast]
    · rename_i hnone
      refine hsame ?_
      rw [topUp]
      split
      · rfl
      · rename_i hrows
        by_contra hne
        obtain ⟨last, hlast⟩ := Option.ne_none_iff_exists'.1
          (mt getLast?_eq_none_iff.1 (show expand (nextBatch db s upTo) ≠ [] from hne))
        have hlatest : db.latestOf s.id ≠ none := fun hnone =>
          hrows (.inr (length_eq_zero_iff.2 (latestOf_eq_none.1 hnone)))
        obtain ⟨template, htemplate⟩ := Option.ne_none_iff_exists'.1 hlatest
        exact hnone last template hlast htemplate

/-- Extending a list of series: each of them is extended by what its rows call for. -/
theorem foldl_extendSeries_spec (db : Database) {l : List EventSeries}
    (hl : ∀ s ∈ l, s ∈ db.series) (hnodup : l.Nodup) (upTo : ℤ) :
    (l.foldl (fun db s => extendSeries db s upTo) db).series = db.series.map (fun s =>
          if s ∈ l then s.extended (topUp (db.written s.id) s upTo) else s) ∧
      (l.foldl (fun db s => extendSeries db s upTo) db).nextSeriesId = db.nextSeriesId ∧
      ∀ s ∈ db.series, (l.foldl (fun db s => extendSeries db s upTo) db).views s.id =
        db.views s.id ++
          if s ∈ l then (topUp (db.written s.id) s upTo).map Occurrence.view else [] := by
  induction l generalizing db with
  | nil => simp
  | cons s l ih =>
    have hs := hl s mem_cons_self
    obtain ⟨hnot, hnodup⟩ := nodup_cons.1 hnodup
    obtain ⟨hseries, hnext, hviews⟩ := extendSeries_spec hs upTo
    -- the series that are left have other identifiers
    have hother : ∀ t ∈ l, t.id ≠ s.id := by
      intro t ht hid
      rw [eq_of_id (hl t (mem_cons_of_mem _ ht)) hs hid] at ht
      exact hnot ht
    have hkept : ∀ t ∈ db.series, t.id ≠ s.id → t ∈ (extendSeries db s upTo).series ∧
          (extendSeries db s upTo).views t.id = db.views t.id := by
      intro t ht hne
      constructor
      · rw [hseries]
        exact mem_map.2 ⟨t, ht, if_neg hne⟩
      · rw [hviews, if_neg hne, append_nil]
    have hwritten : ∀ t ∈ db.series, t.id ≠ s.id →
        (extendSeries db s upTo).written t.id = db.written t.id := by
      intro t ht hne
      rw [← length_views, (hkept t ht hne).2, length_views]
    have hl' : ∀ t ∈ l, t ∈ (extendSeries db s upTo).series := fun t ht =>
      (hkept t (hl t (mem_cons_of_mem _ ht)) (hother t ht)).1
    obtain ⟨hseries', hnext', hviews'⟩ := ih (extendSeries db s upTo) hl' hnodup
    rw [foldl_cons]
    refine ⟨?_, hnext'.trans hnext, fun t ht => ?_⟩
    · rw [hseries', hseries, map_map]
      refine map_congr_left fun t ht => ?_
      simp only [Function.comp_apply, mem_cons]
      by_cases hid : t.id = s.id
      · have hnotin : s.extended (topUp (db.written s.id) s upTo) ∉ l :=
          fun hmem => hother _ hmem (s.extended_id _)
        rw [eq_of_id ht hs hid, if_pos rfl, if_neg hnotin, if_pos (.inl rfl)]
      · have hne : t ≠ s := fun heq => hid (congrArg _ heq)
        rw [if_neg hid, hwritten t ht hid]
        simp only [hne, false_or]
    · by_cases hid : t.id = s.id
      · obtain rfl := eq_of_id ht hs hid
        have hmem : t.extended (topUp (db.written t.id) t upTo) ∈
            (extendSeries db t upTo).series := by
          rw [hseries]
          exact mem_map.2 ⟨t, ht, if_pos rfl⟩
        have hlater := hviews' _ hmem
        rw [t.extended_id, if_neg fun hin => hother _ hin (t.extended_id _), append_nil] at hlater
        rw [hlater, hviews, if_pos rfl, if_pos mem_cons_self]
      · have hne : t ≠ s := fun heq => hid (congrArg _ heq)
        rw [hviews' t (hkept t ht hid).1, (hkept t ht hid).2, hwritten t ht hid]
        simp only [mem_cons, hne, false_or]

/-- The call appends to each stale series what its rows call for. -/
theorem ensureMaterialised_spec (db : Database) (now upTo : ℤ) :
    (ensureMaterialised db now upTo).series = db.series.map (fun s =>
          if s.stale now upTo then s.extended (topUp (db.written s.id) s upTo) else s) ∧
      (ensureMaterialised db now upTo).nextSeriesId = db.nextSeriesId ∧
      ∀ s ∈ db.series, (ensureMaterialised db now upTo).views s.id = db.views s.id ++
          if s.stale now upTo then (topUp (db.written s.id) s upTo).map Occurrence.view
          else [] := by
  obtain ⟨hseries, hnext, hviews⟩ := foldl_extendSeries_spec db
    (l := db.series.filter fun s => s.stale now upTo) (fun s hs => mem_of_mem_filter hs)
    (db.nodup_series.of_map.filter _) upTo
  refine ⟨?_, hnext, fun s hs => ?_⟩
  · refine hseries.trans (map_congr_left fun s hs => ?_)
    simp only [mem_filter, hs, true_and]
  · refine (hviews s hs).trans ?_
    simp only [mem_filter, hs, true_and]

/-! ### Deleting -/

/-- Two rows are the same if their identifiers are. -/
theorem Database.event_eq_of_id {e e' : Event} (he : e ∈ db.events)
    (he' : e' ∈ db.events) (h : e.id = e'.id) : e = e' :=
  inj_on_of_nodup_map db.nodup_events he he' h

/-- Deleting rows of one series leaves the others alone. -/
theorem Database.rowsOf_deleteEvents_of_ne {p : Event → Bool} {sid sid' : ℕ}
    (hp : ∀ e ∈ db.events, p e → e.seriesId = some sid) (hne : sid' ≠ sid) :
    (db.deleteEvents p).rowsOf sid' = db.rowsOf sid' := by
  rw [rowsOf_deleteEvents, filter_eq_self]
  intro e he
  obtain ⟨he, hsid⟩ := mem_rowsOf.1 he
  by_contra hdeleted
  have howner := hp e he (by simpa using hdeleted)
  rw [hsid] at howner
  exact hne (Option.some.inj howner)

/-- Deleting rows, told by their dates and number. -/
theorem Database.views_deleteEvents {p : Event → Bool}
    {q : ℤ × ℤ × Option ℕ → Bool} (hq : ∀ e ∈ db.rowsOf sid, p e = q e.view) :
    (db.deleteEvents p).views sid = (db.views sid).filter fun v => !q v := by
  rw [views, rowsOf_deleteEvents, views, filter_map]
  congr 1
  exact filter_congr fun e he => congrArg _ (hq e he)

/-- The series that are left after one was cut short or dropped. -/
theorem mem_series_truncate (hs : s ∈ (truncate db sid).series) : (s.id ≠ sid ∧ s ∈ db.series) ∨
      ∃ remaining t, db.latestOf sid = some remaining ∧ t ∈ db.series ∧ t.id = sid ∧
        s = { t with «until» := some remaining.startDate, count := none } := by
  unfold truncate at hs
  split at hs
  · rename_i remaining hlatest
    rw [series_updateSeries] at hs
    obtain ⟨t, ht, rfl⟩ := mem_map.1 hs
    split
    · rename_i hid
      exact .inr ⟨remaining, t, hlatest, ht, hid, rfl⟩
    · rename_i hid
      exact .inl ⟨hid, ht⟩
  · exact .inl (mem_series_deleteSeries.1 hs).symm

theorem mem_series_truncate_of_ne (hs : s ∈ db.series)
    (hne : s.id ≠ sid) : s ∈ (truncate db sid).series := by
  unfold truncate
  split
  · rw [series_updateSeries]
    exact mem_map.2 ⟨s, hs, if_neg hne⟩
  · exact mem_series_deleteSeries.2 ⟨hs, hne⟩

theorem nextSeriesId_truncate (db : Database) (sid : ℕ) :
    (truncate db sid).nextSeriesId = db.nextSeriesId := by
  unfold truncate
  split <;> rfl

/-- No row goes with a series that is dropped because it has none. -/
theorem rowsOf_truncate (db : Database) (sid sid' : ℕ) :
    (truncate db sid).rowsOf sid' = db.rowsOf sid' := by
  unfold truncate
  split
  · rfl
  · rename_i hlatest
    rcases eq_or_ne sid' sid with rfl | hne
    · rw [latestOf_eq_none.1 hlatest]
      exact rowsOf_eq_nil fun s hs => (mem_series_deleteSeries.1 hs).2
    · exact rowsOf_deleteSeries db sid hne

end Rabotka.Events
