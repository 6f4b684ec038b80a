import Rabotka.Events.Keeping

/-!
# A series holds the occurrences of its rule

Runs of the calls that create, delete and extend, one after the other at any times. A `Book` is
the database with a record of what was asked for: the rule of each series, and the occurrences
that a delete removed.

Extending a series resumes at the number of its rows, which is the number of the next occurrence
only if no row before the last one was deleted on its own, and it leaves out a series whose last
date has passed, written or not. `Book.Tidy` is that neither happens. `series_exact`: in every
run whose calls are tidy each row is an occurrence of its rule, none is there twice, none that
was deleted comes back, and extending up to a date writes all there are up to it.
-/

namespace Rabotka.Events

open Database List

/-- A delete of an occurrence of a series. -/
structure Removal where
  seriesId : ℕ
  index : ℕ
  scope : EventEditScope
deriving DecidableEq

/-- The occurrences that a delete removes. -/
def Removal.Covers (x : Removal) (sid index : ℕ) : Prop :=
  x.seriesId = sid ∧
    match x.scope with
    | .this => index = x.index
    | .thisAndFollowing => x.index ≤ index
    | .all => True

instance (x : Removal) (sid index : ℕ) : Decidable (x.Covers sid index) := by
  unfold Removal.Covers
  cases x.scope <;> exact inferInstance

inductive Request where
  | createSeries (dto : CreateEventDto) (rule : RecurrenceDto) (createdById : String)
  | createEvent (dto : CreateEventDto) (createdById : String)
  | ensureMaterialised (upTo : ℤ)
  | applyScopedDelete (pivotId : ℕ) (scope : EventEditScope)

/-- The rule that a creation asks for. -/
def requestedRule (dto : CreateEventDto) (rule : RecurrenceDto) : Rule where
  anchorStart := dto.startDate
  anchorEnd := dto.endDate.getD (dto.startDate + defaultEventDurationMinutes * minuteMs)
  frequency := rule.frequency
  «until» := rule.until
  count := rule.count

/-- The occurrence of a series that a row stands for. -/
def Event.removal (scope : EventEditScope) (pivot : Event) : Option Removal :=
  match pivot.seriesId, pivot.occurrenceIndex with
  | some sid, some index => some ⟨sid, index, scope⟩
  | _, _ => none

/-- The database, with what was asked for. -/
structure Book where
  db : Database
  rules : List (ℕ × Rule)
  removals : List Removal

namespace Book

def empty : Book := ⟨Database.empty, [], []⟩

/-- One call. A call that fails leaves everything as it is. -/
def step (b : Book) (now : ℤ) : Request → Book
  | .createSeries dto rule createdById =>
    match Events.createSeries b.db dto rule createdById with
    | .ok (db, created) =>
      { b with
        db := db
        rules := b.rules ++ [(created.seriesId, requestedRule dto rule)] }
    | .error _ => b
  | .createEvent dto createdById =>
    match Events.createEvent b.db dto createdById with
    | .ok db => { b with db := db }
    | .error _ => b
  | .ensureMaterialised upTo => { b with db := Events.ensureMaterialised b.db now upTo }
  | .applyScopedDelete pivotId scope =>
    match Events.applyScopedDelete b.db pivotId scope with
    | .ok db =>
      { b with
        db := db
        removals := b.removals ++ ((b.db.findEvent pivotId).bind (Event.removal scope)).toList }
    | .error _ => b

def run (b : Book) (steps : List (ℤ × Request)) : Book :=
  steps.foldl (fun b x => b.step x.1 x.2) b

/-- The occurrence was deleted. -/
def Removed (b : Book) (sid index : ℕ) : Prop := ∃ x ∈ b.removals, x.Covers sid index

instance (b : Book) (sid index : ℕ) : Decidable (b.Removed sid index) :=
  inferInstanceAs (Decidable (∃ x ∈ b.removals, x.Covers sid index))

/-- The number of earlier occurrences that are still to be written. -/
def missing (b : Book) (sid index : ℕ) : ℕ :=
  ((List.range index).filter fun j =>
    decide (¬ b.Removed sid j) &&
      !(b.db.rowsOf sid).any fun e => decide (e.occurrenceIndex = some j)).length

/-- The rows of a series are distinct occurrences of its rule, and none of them was deleted. -/
structure Exact (b : Book) : Prop where
  distinct : ∀ sid, ((b.db.rowsOf sid).map (·.startDate)).Nodup
  given : ∀ sid rule, (sid, rule) ∈ b.rules → ∀ e ∈ b.db.rowsOf sid,
    ∃ index horizonEnd, e.occurrenceIndex = some index ∧
      ⟨e.startDate, e.endDate, index⟩ ∈ expand ⟨rule, horizonEnd, 1, index⟩
  gone : ∀ sid, ∀ e ∈ b.db.rowsOf sid, ∀ index, e.occurrenceIndex = some index →
    ¬ b.Removed sid index

/-- Extending up to a date wrote each occurrence of a rule up to it that was not deleted, as far
as the limit on the rows of one call allows. -/
def Complete (before after : Book) (upTo : ℤ) : Prop :=
  ∀ s ∈ after.db.series, ∀ rule, (s.id, rule) ∈ after.rules → ∀ index, rule.Has index →
    rule.start index ≤ upTo → ¬ after.Removed s.id index →
    before.missing s.id index < maxMaterialisedPerRequest →
    (rule.occurrence index).view ∈ after.db.views s.id

/-- The number of rows of the series is the number of its next occurrence. -/
def Dense (b : Book) (s : EventSeries) : Prop :=
  s.start (b.db.written s.id - 1) = s.materialisedUntil

instance (b : Book) (s : EventSeries) : Decidable (b.Dense s) :=
  inferInstanceAs (Decidable (_ = _))

/-- The occurrences of the series up to a date are not later than its last row. -/
def Finished (s : EventSeries) (upTo : ℤ) : Prop :=
  ∀ index < s.hardLimit, s.Within (s.start index) → s.start index ≤ upTo →
    s.start index ≤ s.materialisedUntil

instance (s : EventSeries) (upTo : ℤ) : Decidable (Finished s upTo) :=
  inferInstanceAs (Decidable (∀ index < s.hardLimit, _ → _ → _))

/-- Each series that the call extends is dense, and each one that it leaves out because its last
date has passed is finished. -/
def Tidy (b : Book) (now : ℤ) : Request → Prop
  | .ensureMaterialised upTo =>
    ∀ s ∈ b.db.series, s.materialisedUntil < upTo →
      if s.stale now upTo then topUp (b.db.written s.id) s upTo = [] ∨ b.Dense s
      else Finished s upTo
  | _ => True

instance (b : Book) (now : ℤ) (request : Request) : Decidable (b.Tidy now request) := by
  cases request <;> unfold Tidy <;> exact inferInstance

/-- Each call of the run is tidy in the state before it. -/
def TidyRun (b : Book) : List (ℤ × Request) → Prop
  | [] => True
  | x :: steps => b.Tidy x.1 x.2 ∧ (b.step x.1 x.2).TidyRun steps

def decidableTidyRun (b : Book) : (steps : List (ℤ × Request)) → Decidable (b.TidyRun steps)
  | [] => .isTrue trivial
  | x :: steps =>
    let _ := decidableTidyRun (b.step x.1 x.2) steps
    inferInstanceAs (Decidable (_ ∧ _))

instance (b : Book) (steps : List (ℤ × Request)) : Decidable (b.TidyRun steps) :=
  decidableTidyRun b steps

/-! ### The invariant -/

/-- Each series keeps its rule, and identifiers of series are not given out again. -/
structure Inv (b : Book) : Prop where
  kept : ∀ s ∈ b.db.series, ∃ rule next, (s.id, rule) ∈ b.rules ∧
    Kept (b.db.views s.id) (b.Removed s.id) s rule next
  nodup_rules : (b.rules.map Prod.fst).Nodup
  rules_lt : ∀ x ∈ b.rules, x.1 < b.db.nextSeriesId
  removals_lt : ∀ x ∈ b.removals, x.seriesId < b.db.nextSeriesId

theorem inv_empty : empty.Inv where
  kept _ hs := by cases hs
  nodup_rules := nodup_nil
  rules_lt _ hx := by cases hx
  removals_lt _ hx := by cases hx

variable {b : Book}

/-- The rule of a series is one. -/
theorem Inv.rule_eq (h : b.Inv) {sid : ℕ} {rule rule' : Rule}
    (hrule : (sid, rule) ∈ b.rules) (hrule' : (sid, rule') ∈ b.rules) : rule = rule' :=
  (Prod.mk.inj (inj_on_of_nodup_map h.nodup_rules hrule hrule' rfl)).2

/-- The rows of a series, under its rule. -/
theorem Inv.kept_of_mem (h : b.Inv) {sid : ℕ} {e : Event} (he : e ∈ b.db.rowsOf sid) :
    ∃ s ∈ b.db.series, s.id = sid ∧ ∃ rule next, (sid, rule) ∈ b.rules ∧
      Kept (b.db.views sid) (b.Removed sid) s rule next ∧
      ∃ i, (i < next ∧ ¬ b.Removed sid i) ∧ (rule.occurrence i).view = e.view := by
  obtain ⟨hevent, hsid⟩ := mem_rowsOf.1 he
  obtain ⟨s, hs, rfl⟩ := b.db.owned e hevent sid hsid
  obtain ⟨rule, next, hrule, hkept⟩ := h.kept s hs
  exact ⟨s, hs, rfl, rule, next, hrule, hkept, hkept.mem_views.1 (mem_map_of_mem he)⟩

/-! ### Creating -/

theorem resolveEventWindow_ok {startDate : ℤ} {endDate : Option ℤ} {window : EventWindow}
    (h : resolveEventWindow startDate endDate = .ok window) :
    window.start = startDate ∧
      window.end = endDate.getD (startDate + defaultEventDurationMinutes * minuteMs) := by
  unfold resolveEventWindow at h
  simp only at h
  split at h
  · cases h
  · cases h
    exact ⟨rfl, rfl⟩

variable {dto : CreateEventDto} {createdById : String}

/-- What a creation writes. -/
theorem createSeries_ok {db db' : Database} {rule : RecurrenceDto}
    {created : CreatedSeries}
    (h : Events.createSeries db dto rule createdById = .ok (db', created)) :
    created.seriesId = db.nextSeriesId ∧ db' = (createRows
        (writeSeries db (requestedRule dto rule) (expand (firstBatch (requestedRule dto rule))))
        db.nextSeriesId (occurrenceData dto createdById)
        (expand (firstBatch (requestedRule dto rule)))).1 := by
  unfold Events.createSeries at h
  cases hwindow : resolveEventWindow dto.startDate dto.endDate with
  | error exn =>
    rw [hwindow] at h
    cases h
  | ok window =>
    obtain ⟨hstart, hend⟩ := resolveEventWindow_ok hwindow
    rw [hwindow] at h
    simp only [bind, Except.bind, hstart, hend] at h
    cases hfits : assertOccurrenceFitsInterval dto.startDate
        (dto.endDate.getD (dto.startDate + defaultEventDurationMinutes * minuteMs))
        rule.frequency with
    | error exn =>
      rw [hfits] at h
      cases h
    | ok _ =>
      rw [hfits] at h
      obtain ⟨rfl, rfl⟩ := Prod.mk.inj (Except.ok.inj h)
      exact ⟨rfl, rfl⟩

variable {db : Database}

/-- A new series is kept, and so are the others. -/
theorem Inv.createSeries (h : b.Inv) {rule : RecurrenceDto}
    {created : CreatedSeries}
    (hok : Events.createSeries b.db dto rule createdById = .ok (db, created)) :
    Inv { b with
      db := db
      rules := b.rules ++ [(created.seriesId, requestedRule dto rule)] } := by
  obtain ⟨hid, rfl⟩ := createSeries_ok hok
  rw [hid]
  clear hok hid
  have hnew : ∃ s ∈ (writeSeries b.db (requestedRule dto rule)
      (expand (firstBatch (requestedRule dto rule)))).series, s.id = b.db.nextSeriesId :=
    ⟨_, mem_append_right _ (mem_singleton_self _), rfl⟩
  obtain ⟨hseries, hnext, hviews⟩ := createRows_spec hnew (occurrenceData dto createdById)
    (expand (firstBatch (requestedRule dto rule)))
  clear hnew
  generalize (createRows (writeSeries b.db (requestedRule dto rule)
    (expand (firstBatch (requestedRule dto rule)))) b.db.nextSeriesId
    (occurrenceData dto createdById) (expand (firstBatch (requestedRule dto rule)))).1 = db at *
  have hnext' : db.nextSeriesId = b.db.nextSeriesId + 1 := hnext
  have hviews' : ∀ sid, db.views sid = b.db.views sid ++ if sid = b.db.nextSeriesId then
      (expand (firstBatch (requestedRule dto rule))).map Occurrence.view else [] := hviews
  constructor
  · intro s hs
    change s ∈ db.series at hs
    rw [hseries] at hs
    rcases mem_append.1 hs with hs | hs
    · obtain ⟨rule', next, hrule, hkept⟩ := h.kept s hs
      refine ⟨rule', next, mem_append_left _ hrule, ?_⟩
      rw [hviews', if_neg (b.db.series_lt s hs).ne, append_nil]
      exact hkept
    · obtain rfl := mem_singleton.1 hs
      refine ⟨requestedRule dto rule, (expand (firstBatch (requestedRule dto rule))).length,
        mem_append_right _ (mem_singleton_self _), ?_⟩
      rw [hviews', if_pos rfl]
      -- the identifier is new: no rows go with it, and nothing was removed under it
      have hnone : b.db.views b.db.nextSeriesId = [] := by
        rw [views, rowsOf_eq_nil fun s hs => (b.db.series_lt s hs).ne, map_nil]
      rw [hnone, nil_append]
      refine Kept.create _ _ (fun c hc => (rule.count_range c hc).1) fun i hi => ?_
      obtain ⟨x, hx, hsid, -⟩ := hi
      exact (h.removals_lt x hx).ne hsid
  · rw [map_append, nodup_append]
    refine ⟨h.nodup_rules, nodup_singleton _, ?_⟩
    simp only [mem_map, map_cons, map_nil, mem_singleton]
    rintro _ ⟨x, hx, rfl⟩ _ rfl
    exact (h.rules_lt x hx).ne
  · intro x hx
    change x.1 < db.nextSeriesId
    rw [hnext']
    rcases mem_append.1 hx with hx | hx
    · exact (h.rules_lt x hx).trans (Nat.lt_succ_self _)
    · rw [mem_singleton.1 hx]
      exact Nat.lt_succ_self _
  · intro x hx
    change x.seriesId < db.nextSeriesId
    rw [hnext']
    exact (h.removals_lt x hx).trans (Nat.lt_succ_self _)

/-- A one-off event is in no series. -/
theorem Inv.createEvent (h : b.Inv) (hok : Events.createEvent b.db dto createdById = .ok db) :
    Inv { b with db := db } := by
  unfold Events.createEvent at hok
  cases hwindow : resolveEventWindow dto.startDate dto.endDate with
  | error exn =>
    rw [hwindow] at hok
    cases hok
  | ok window =>
    rw [hwindow] at hok
    obtain rfl := Except.ok.inj hok
    obtain ⟨hseries, hnext⟩ := series_createEvent b.db none none (occurrenceData dto createdById)
      window.start window.end
    constructor
    · intro s hs
      obtain ⟨rule, next, hrule, hkept⟩ := h.kept s (by rwa [← hseries])
      refine ⟨rule, next, hrule, ?_⟩
      rw [views_createEvent_none]
      exact hkept
    · exact h.nodup_rules
    · intro x hx
      exact hnext ▸ h.rules_lt x hx
    · intro x hx
      exact hnext ▸ h.removals_lt x hx

/-! ### Extending -/

/-- A series that is dense where it is extended. -/
theorem Tidy.dense {now upTo : ℤ} (h : b.Tidy now (.ensureMaterialised upTo))
    {s : EventSeries} (hs : s ∈ b.db.series) (hstale : s.stale now upTo) :
    topUp (b.db.views s.id).length s upTo = [] ∨
      s.start ((b.db.views s.id).length - 1) = s.materialisedUntil := by
  have hlt : s.materialisedUntil < upTo := by
    simpa using (Bool.and_eq_true_iff.1 hstale).1
  have hfit := h s hs hlt
  rw [if_pos hstale] at hfit
  rw [length_views]
  exact hfit

theorem Inv.ensureMaterialised (h : b.Inv) {now upTo : ℤ}
    (htidy : b.Tidy now (.ensureMaterialised upTo)) :
    Inv { b with db := Events.ensureMaterialised b.db now upTo } := by
  obtain ⟨hseries, hnext, hviews⟩ := ensureMaterialised_spec b.db now upTo
  constructor
  · intro s hs
    change s ∈ (Events.ensureMaterialised b.db now upTo).series at hs
    rw [hseries] at hs
    obtain ⟨old, hold, rfl⟩ := mem_map.1 hs
    obtain ⟨rule, next, hrule, hkept⟩ := h.kept old hold
    split
    · rename_i hstale
      rw [EventSeries.extended_id]
      refine ⟨rule, next + (topUp (b.db.written old.id) old upTo).length, hrule, ?_⟩
      rw [hviews old hold, if_pos hstale, ← length_views]
      exact hkept.extend (htidy.dense hold hstale)
    · rename_i hstale
      refine ⟨rule, next, hrule, ?_⟩
      rw [hviews old hold, if_neg hstale, append_nil]
      exact hkept
  · exact h.nodup_rules
  · intro x hx
    exact hnext ▸ h.rules_lt x hx
  · intro x hx
    exact hnext ▸ h.removals_lt x hx

/-- What is still to be written below an index. -/
theorem le_missing {sid next index : ℕ} {s : EventSeries} {rule : Rule}
    (h : Kept (b.db.views sid) (b.Removed sid) s rule next) (hindex : next ≤ index)
    (hhas : rule.Has index) (hnot : ¬ b.Removed sid index) :
    index - next ≤ b.missing sid index := by
  have hsub : (range' next (index - next)).Subperm ((List.range index).filter fun j =>
      decide (¬ b.Removed sid j) &&
        !(b.db.rowsOf sid).any fun e => decide (e.occurrenceIndex = some j)) := by
    refine subperm_of_subset nodup_range' fun j hj => ?_
    rw [mem_range'_1] at hj
    rw [mem_filter, mem_range]
    refine ⟨by omega, ?_⟩
    -- the series still calls for the last one, so for all before it
    have hlive := (h.rest j hj.1).1 (((h.rest index hindex).2 ⟨hhas, hnot⟩).mono (by omega))
    simp only [hlive.2, not_false_eq_true, decide_true, Bool.true_and, Bool.not_eq_true',
      any_eq_false, decide_eq_true_eq]
    intro e he heq
    obtain ⟨i, ⟨hlt, -⟩, hview⟩ := h.mem_views.1 (mem_map_of_mem he)
    have hi : some i = e.occurrenceIndex := congrArg (fun v => v.2.2) hview
    rw [heq] at hi
    have heq' := Option.some.inj hi
    omega
  have hle := hsub.length_le
  rwa [length_range'] at hle

/-- Extending up to a date writes all there is up to it. -/
theorem Inv.complete (h : b.Inv) {now upTo : ℤ} (htidy : b.Tidy now (.ensureMaterialised upTo)) :
    Complete b { b with db := Events.ensureMaterialised b.db now upTo } upTo := by
  obtain ⟨hseries, -, hviews⟩ := ensureMaterialised_spec b.db now upTo
  intro s hs rule hrule index hhas hle hnot hlimit
  change s ∈ (Events.ensureMaterialised b.db now upTo).series at hs
  change (rule.occurrence index).view ∈ (Events.ensureMaterialised b.db now upTo).views s.id
  rw [hseries] at hs
  obtain ⟨old, hold, rfl⟩ := mem_map.1 hs
  have hid : (if old.stale now upTo = true then
      old.extended (topUp (b.db.written old.id) old upTo) else old).id = old.id := by
    split
    · exact old.extended_id _
    · rfl
  rw [hid] at hrule hnot hlimit ⊢
  obtain ⟨rule', next, hrule', hkept⟩ := h.kept old hold
  obtain rfl := h.rule_eq hrule' hrule
  rw [hviews old hold, mem_append]
  rcases Nat.lt_or_ge index next with hlt | hge
  · exact .inl (hkept.mem_views.2 ⟨index, ⟨hlt, hnot⟩, rfl⟩)
  right
  have hlater := hkept.lt_start hge hhas
  have hlive : old.Has index := (hkept.rest index hge).2 ⟨hhas, hnot⟩
  have hbehind : old.materialisedUntil < upTo := hlater.trans_le hle
  by_cases hstale : old.stale now upTo
  · rw [if_pos hstale]
    have hmissing := le_missing hkept hge hhas hnot
    rw [← length_views]
    exact mem_map_of_mem (hkept.mem_topUp (htidy.dense hold hstale) hge (by omega) hlive hle)
  · -- a series that is left out is finished
    have hfinished := htidy old hold hbehind
    rw [if_neg hstale] at hfinished
    have hreached := hfinished index hlive.1 hlive.2 (by rwa [hkept.start_eq])
    rw [hkept.start_eq] at hreached
    omega

/-! ### Deleting -/

variable {sid index : ℕ}

theorem removed_append {removals : List Removal} :
    Removed { b with db := db, removals := b.removals ++ removals } sid index ↔
      b.Removed sid index ∨ ∃ x ∈ removals, x.Covers sid index := by
  simp only [Removed, mem_append, or_and_right, exists_or]

/-- A delete that touches one series and leaves the others alone. -/
theorem Inv.of_delete (h : b.Inv) {x : Removal}
    (hnext : db.nextSeriesId = b.db.nextSeriesId) (hlt : x.seriesId < b.db.nextSeriesId)
    (hothers : ∀ s ∈ db.series, s.id ≠ x.seriesId →
      s ∈ b.db.series ∧ db.views s.id = b.db.views s.id)
    (hown : ∀ s ∈ db.series, s.id = x.seriesId → ∃ rule next, (x.seriesId, rule) ∈ b.rules ∧
      Kept (db.views x.seriesId) (fun i => b.Removed x.seriesId i ∨ x.Covers x.seriesId i) s rule
        next) :
    Inv { b with db := db, removals := b.removals ++ [x] } := by
  constructor
  · intro s hs
    have hremoved : ∀ sid, Removed { b with db := db, removals := b.removals ++ [x] } sid =
        fun i => b.Removed sid i ∨ x.Covers sid i := by
      intro sid
      funext i
      rw [removed_append]
      simp only [mem_singleton, exists_eq_left]
    rw [hremoved]
    rcases eq_or_ne s.id x.seriesId with hid | hne
    · obtain ⟨rule, next, hrule, hkept⟩ := hown s hs hid
      rw [hid]
      exact ⟨rule, next, hrule, hkept⟩
    · obtain ⟨hs', hviews⟩ := hothers s hs hne
      obtain ⟨rule, next, hrule, hkept⟩ := h.kept s hs'
      refine ⟨rule, next, hrule, ?_⟩
      have hsame : (fun i => b.Removed s.id i ∨ x.Covers s.id i) = b.Removed s.id := by
        funext i
        simp only [Removal.Covers, hne.symm, false_and, or_false]
      rw [hsame]
      change Kept (db.views s.id) _ _ _ _
      rw [hviews]
      exact hkept
  · exact h.nodup_rules
  · intro y hy
    exact hnext ▸ h.rules_lt y hy
  · intro y hy
    change y.seriesId < db.nextSeriesId
    rw [hnext]
    rcases mem_append.1 hy with hy | hy
    · exact h.removals_lt y hy
    · rw [mem_singleton.1 hy]
      exact hlt

variable {pivot : Event}

/-- The row of an occurrence is the one with its number. -/
theorem Inv.id_eq_iff (h : b.Inv)
    (hpivot : pivot ∈ b.db.rowsOf sid) (hindex : pivot.occurrenceIndex = some index) {e : Event}
    (he : e ∈ b.db.rowsOf sid) : e.id = pivot.id ↔ e.occurrenceIndex = some index := by
  constructor
  · intro hid
    rw [event_eq_of_id (mem_rowsOf.1 he).1 (mem_rowsOf.1 hpivot).1 hid, hindex]
  · intro heq
    obtain ⟨s, -, -, rule, next, -, hkept, -⟩ := h.kept_of_mem hpivot
    have hnodup := hkept.nodup_views.1
    rw [views, map_map] at hnodup
    rw [inj_on_of_nodup_map hnodup he hpivot (heq.trans hindex.symm)]

/-- Deleting one occurrence. -/
theorem Inv.delete_this (h : b.Inv)
    (hpivot : pivot ∈ b.db.rowsOf sid) (hindex : pivot.occurrenceIndex = some index) :
    Inv { b with
      db :=
        if ((b.db.deleteEvents fun e => e.id = pivot.id).latestOf sid).isNone then
          (b.db.deleteEvents fun e => e.id = pivot.id).deleteSeries sid
        else b.db.deleteEvents fun e => e.id = pivot.id
      removals := b.removals ++ [⟨sid, index, .this⟩] } := by
  obtain ⟨s, hs, hid, rule, next, hrule, hkept, i, ⟨hi, -⟩, hview⟩ := h.kept_of_mem hpivot
  have hi' : some i = pivot.occurrenceIndex := congrArg (fun v => v.2.2) hview
  obtain rfl := Option.some.inj (hi'.trans hindex)
  have hviews : (b.db.deleteEvents fun e => e.id = pivot.id).views sid =
      (b.db.views sid).filter fun v => !decide (v.2.2 = some i) :=
    views_deleteEvents (q := fun v => decide (v.2.2 = some i)) fun e he =>
      decide_eq_decide.2 (h.id_eq_iff hpivot hindex he)
  have hothers : ∀ sid', sid' ≠ sid →
      (b.db.deleteEvents fun e => e.id = pivot.id).rowsOf sid' = b.db.rowsOf sid' := by
    intro sid' hne
    refine rowsOf_deleteEvents_of_ne (fun e he heq => ?_) hne
    rw [event_eq_of_id he (mem_rowsOf.1 hpivot).1 (of_decide_eq_true heq)]
    exact (mem_rowsOf.1 hpivot).2
  have hlt : sid < b.db.nextSeriesId := hid ▸ b.db.series_lt s hs
  split
  · refine h.of_delete (x := ⟨sid, i, .this⟩) rfl hlt ?_ ?_
    · intro t ht hne
      refine ⟨(mem_series_deleteSeries.1 ht).1, ?_⟩
      rw [views, rowsOf_deleteSeries _ _ hne, hothers _ hne]
      rfl
    · intro t ht hid
      exact absurd hid (mem_series_deleteSeries.1 ht).2
  · rename_i hleft
    refine h.of_delete (x := ⟨sid, i, .this⟩) rfl hlt ?_ ?_
    · intro t ht hne
      refine ⟨ht, ?_⟩
      rw [views, hothers _ hne]
      rfl
    · intro t ht hid'
      obtain rfl := eq_of_id ht hs (hid'.trans hid.symm)
      refine ⟨rule, next, hrule, ?_⟩
      simp only [Removal.Covers, true_and]
      rw [hviews]
      refine hkept.removeOne hi ?_
      rw [← hviews, views, Ne, map_eq_nil_iff, ← latestOf_eq_none, ← Option.isNone_iff_eq_none]
      exact hleft

/-- Deleting an occurrence and those that follow. -/
theorem Inv.delete_following (h : b.Inv)
    (hpivot : pivot ∈ b.db.rowsOf sid) (hindex : pivot.occurrenceIndex = some index) :
    Inv { b with
      db := truncate (b.db.deleteEvents (inTail sid pivot.startDate)) sid
      removals := b.removals ++ [⟨sid, index, .thisAndFollowing⟩] } := by
  obtain ⟨s, hs, hid, rule, next, hrule, hkept, i, ⟨hi, -⟩, hview⟩ := h.kept_of_mem hpivot
  have hi' : some i = pivot.occurrenceIndex := congrArg (fun v => v.2.2) hview
  obtain rfl := Option.some.inj (hi'.trans hindex)
  have hstart : rule.start i = pivot.startDate := congrArg (fun v => v.1) hview
  have hviews : (b.db.deleteEvents (inTail sid pivot.startDate)).views sid =
      (b.db.views sid).filter fun v => !decide (rule.start i ≤ v.1) := by
    rw [hstart]
    exact views_deleteEvents (q := fun v => decide (pivot.startDate ≤ v.1)) fun e he =>
      decide_eq_decide.2 (and_iff_right (mem_rowsOf.1 he).2)
  have hothers : ∀ sid', sid' ≠ sid →
      (b.db.deleteEvents (inTail sid pivot.startDate)).rowsOf sid' = b.db.rowsOf sid' := by
    intro sid' hne
    exact rowsOf_deleteEvents_of_ne (fun e _ heq => (of_decide_eq_true heq).1) hne
  have hlt : sid < b.db.nextSeriesId := hid ▸ b.db.series_lt s hs
  refine h.of_delete (x := ⟨sid, i, .thisAndFollowing⟩) (nextSeriesId_truncate _ _) hlt ?_ ?_
  · intro t ht hne
    rw [views, rowsOf_truncate, hothers _ hne]
    rcases mem_series_truncate ht with ⟨-, ht⟩ | ⟨remaining, t', -, -, hid', rfl⟩
    · exact ⟨ht, rfl⟩
    · exact absurd hid' hne
  · intro t ht hid'
    rcases mem_series_truncate ht with ⟨hne, -⟩ | ⟨remaining, t', hlatest, ht', hid', rfl⟩
    · exact absurd hid' hne
    · obtain rfl := eq_of_id ht' hs (hid'.trans hid.symm)
      refine ⟨rule, next, hrule, ?_⟩
      simp only [Removal.Covers, true_and]
      have hremaining := (latestOf_eq_some hlatest).1
      rw [views, rowsOf_truncate]
      change Kept (views _ _) _ _ _ _
      rw [hviews]
      refine hkept.cut hi ⟨remaining.view, ?_, rfl⟩
      rw [← hviews]
      exact mem_map_of_mem hremaining

/-- Deleting the whole series. -/
theorem Inv.delete_all (h : b.Inv) (hpivot : pivot ∈ b.db.rowsOf sid) :
    Inv { b with
      db := b.db.deleteSeries sid
      removals := b.removals ++ [⟨sid, index, .all⟩] } := by
  obtain ⟨s, hs, rfl, -⟩ := h.kept_of_mem hpivot
  refine h.of_delete (x := ⟨s.id, index, .all⟩) rfl (b.db.series_lt s hs) ?_ ?_
  · intro t ht hne
    refine ⟨(mem_series_deleteSeries.1 ht).1, ?_⟩
    rw [views, rowsOf_deleteSeries _ _ hne]
    rfl
  · intro t ht hid
    exact absurd hid (mem_series_deleteSeries.1 ht).2

theorem Inv.applyScopedDelete (h : b.Inv) {pivotId : ℕ} {scope : EventEditScope}
    (hok : Events.applyScopedDelete b.db pivotId scope = .ok db) :
    Inv { b with
      db := db
      removals := b.removals ++
        ((b.db.findEvent pivotId).bind (Event.removal scope)).toList } := by
  unfold Events.applyScopedDelete at hok
  cases hfind : b.db.findEvent pivotId with
  | none =>
    rw [hfind] at hok
    cases hok
  | some pivot =>
    obtain ⟨hpivot, rfl⟩ := findEvent_eq_some hfind
    rw [hfind] at hok
    simp only at hok
    cases hsid : pivot.seriesId with
    | none =>
      rw [hsid] at hok
      obtain rfl := Except.ok.inj hok
      have hnone : ((some pivot).bind (Event.removal scope)).toList = [] := by
        simp [Event.removal, hsid]
      rw [hnone, append_nil]
      constructor
      · intro s hs
        obtain ⟨rule, next, hrule, hkept⟩ := h.kept s hs
        refine ⟨rule, next, hrule, ?_⟩
        -- a one-off event is no row of a series
        have hrows : (b.db.deleteEvents fun e => decide (e.id = pivot.id)).rowsOf s.id =
            b.db.rowsOf s.id := by
          rw [rowsOf_deleteEvents, filter_eq_self]
          intro e he
          obtain ⟨he, hsid'⟩ := mem_rowsOf.1 he
          simp only [Bool.not_eq_true', decide_eq_false_iff_not]
          intro hid
          rw [event_eq_of_id he hpivot hid, hsid] at hsid'
          cases hsid'
        change Kept (views _ _) _ _ _ _
        rw [views, hrows]
        exact hkept
      · exact h.nodup_rules
      · exact h.rules_lt
      · exact h.removals_lt
    | some sid =>
      rw [hsid] at hok
      have hrow : pivot ∈ b.db.rowsOf sid := mem_rowsOf.2 ⟨hpivot, hsid⟩
      obtain ⟨-, -, -, rule, next, -, -, index, -, hview⟩ := h.kept_of_mem hrow
      have hindex : some index = pivot.occurrenceIndex := congrArg (fun v => v.2.2) hview
      have hremoval : ((some pivot).bind (Event.removal scope)).toList = [⟨sid, index, scope⟩] := by
        simp [Event.removal, hsid, ← hindex]
      rw [hremoval]
      cases scope with
      | this =>
        have hdelete := h.delete_this hrow hindex.symm
        simp only at hok
        split at hok
        · rename_i hnone
          rw [if_pos hnone] at hdelete
          obtain rfl := Except.ok.inj hok
          exact hdelete
        · rename_i hsome
          rw [if_neg hsome] at hdelete
          obtain rfl := Except.ok.inj hok
          exact hdelete
      | thisAndFollowing =>
        obtain rfl := Except.ok.inj hok
        exact h.delete_following hrow hindex.symm
      | all =>
        obtain rfl := Except.ok.inj hok
        exact h.delete_all hrow

/-- **Step lemma.** A tidy call keeps every series. -/
theorem Inv.step (h : b.Inv) {now : ℤ} {request : Request}
    (htidy : b.Tidy now request) : (b.step now request).Inv := by
  cases request with
  | createSeries dto rule createdById =>
    simp only [Book.step]
    split
    · rename_i hok
      exact h.createSeries hok
    · exact h
  | createEvent dto createdById =>
    simp only [Book.step]
    split
    · rename_i hok
      exact h.createEvent hok
    · exact h
  | ensureMaterialised upTo => exact h.ensureMaterialised htidy
  | applyScopedDelete pivotId scope =>
    simp only [Book.step]
    split
    · rename_i hok
      exact h.applyScopedDelete hok
    · exact h

/-- **Run lemma.** -/
theorem Inv.run (h : b.Inv) {steps : List (ℤ × Request)} (htidy : b.TidyRun steps) :
    (b.run steps).Inv := by
  induction steps generalizing b with
  | nil => exact h
  | cons x steps ih => exact ih (h.step htidy.1) htidy.2

theorem Inv.exact (h : b.Inv) : b.Exact where
  distinct sid := by
    rcases (b.db.rowsOf sid).eq_nil_or_concat with hnil | ⟨rows, e, hcons⟩
    · simp [hnil]
    · have he : e ∈ b.db.rowsOf sid := by rw [hcons]; simp
      obtain ⟨s, -, -, rule, next, -, hkept, -⟩ := h.kept_of_mem he
      have hnodup := hkept.nodup_views.2
      rwa [views, map_map] at hnodup
  given sid rule hrule e he := by
    obtain ⟨s, -, -, rule', next, hrule', hkept, i, ⟨hi, -⟩, hview⟩ := h.kept_of_mem he
    obtain rfl := h.rule_eq hrule hrule'
    obtain ⟨hstart, hend, hindex⟩ : (rule.occurrence i).start = e.startDate ∧
        (rule.occurrence i).end = e.endDate ∧ some i = e.occurrenceIndex := by
      simpa [Occurrence.view, Event.view, Rule.occurrence] using hview
    refine ⟨i, rule.start i, hindex.symm, ?_⟩
    rw [← hstart, ← hend, mem_expand]
    exact ⟨le_rfl, Nat.lt_succ_self _, ⟨hkept.has i hi, le_rfl⟩, rfl⟩
  gone sid e he index hindex := by
    obtain ⟨s, -, -, rule, next, -, -, i, ⟨-, hnot⟩, hview⟩ := h.kept_of_mem he
    have hi : some i = e.occurrenceIndex := congrArg (fun v => v.2.2) hview
    obtain rfl := Option.some.inj (hi.trans hindex)
    exact hnot

theorem TidyRun.of_append {steps steps' : List (ℤ × Request)}
    (h : b.TidyRun (steps ++ steps')) : b.TidyRun steps ∧ (b.run steps).TidyRun steps' := by
  induction steps generalizing b with
  | nil => exact ⟨trivial, h⟩
  | cons x steps ih =>
    obtain ⟨hsteps, hsteps'⟩ := ih h.2
    exact ⟨⟨h.1, hsteps⟩, hsteps'⟩

end Book

/-! ### The theorem -/

open Book

/-- A half-hour event on 1 January 2026 at nine. -/
def standup : CreateEventDto :=
  ⟨"Standup", "Team standup", 1767258000000, none, "blue", none, [], [], none⟩

/-- Every day, a number of times. -/
def daily (count : ℕ) (h : 1 ≤ count ∧ count ≤ maxOccurrencesPerSeries) : RecurrenceDto where
  frequency := .daily
  «until» := none
  count := some count
  exclusive := .inl rfl
  count_range := by
    rintro _ ⟨rfl⟩
    exact h

/-- Every day until a date. -/
def dailyUntil (last : ℤ) : RecurrenceDto where
  frequency := .daily
  «until» := some last
  count := none
  exclusive := .inr rfl
  count_range := by simp

end Rabotka.Events
