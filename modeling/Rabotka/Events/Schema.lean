import Rabotka.Events.Recurrence

/-!
# Events and series

The two tables of the calendar. An event is one row; a row that belongs to a series also carries
the number of the occurrence it is. A `Database` carries its constraints with it: identifiers are
unique and never given out again, and a row belongs to a series that is there. Each operation of
this file is one statement on the tables, and `rowsOf` says what it does to the rows of a series.
-/

namespace Rabotka.Events

inductive DeliveryChannel where
  | email
  | whatsapp
  | inApp
  | all
deriving DecidableEq

/-- The fields that every occurrence of a series shares. -/
structure Content where
  title : String
  description : String
  color : String
  channel : DeliveryChannel
  location : Option String
  createdById : String
  profiles : List String
  assignedUsers : List String
deriving DecidableEq

/-- A row of `events`. -/
structure Event where
  id : ℕ
  content : Content
  startDate : ℤ
  endDate : ℤ
  /-- None for a one-off event. -/
  seriesId : Option ℕ
  occurrenceIndex : Option ℕ
deriving DecidableEq

/-- A row of `event_series`. -/
structure EventSeries extends Rule where
  id : ℕ
  materialisedUntil : ℤ
deriving DecidableEq

/-- The row with the latest start date. -/
def latest : List Event → Option Event
  | [] => none
  | e :: rows =>
    match latest rows with
    | some later => if e.startDate < later.startDate then some later else some e
    | none => some e

/-- The tables, with their keys. -/
structure Database where
  events : List Event
  series : List EventSeries
  nextEventId : ℕ
  nextSeriesId : ℕ
  nodup_events : (events.map (·.id)).Nodup
  events_lt : ∀ e ∈ events, e.id < nextEventId
  nodup_series : (series.map (·.id)).Nodup
  series_lt : ∀ s ∈ series, s.id < nextSeriesId
  owned : ∀ e ∈ events, ∀ sid ∈ e.seriesId, ∃ s ∈ series, s.id = sid

namespace Database

/-- Nothing was ever created. -/
def empty : Database where
  events := []
  series := []
  nextEventId := 1
  nextSeriesId := 1
  nodup_events := List.nodup_nil
  events_lt := by simp
  nodup_series := List.nodup_nil
  series_lt := by simp
  owned := by simp

/-- The rows of a series, in creation order. -/
def rowsOf (db : Database) (sid : ℕ) : List Event :=
  db.events.filter fun e => e.seriesId = some sid

/-- `event.count` of a series. -/
def written (db : Database) (sid : ℕ) : ℕ := (db.rowsOf sid).length

def findEvent (db : Database) (id : ℕ) : Option Event := db.events.find? fun e => e.id = id

def findSeries (db : Database) (id : ℕ) : Option EventSeries := db.series.find? fun s => s.id = id

/-- The row of a series with the latest start date. -/
def latestOf (db : Database) (sid : ℕ) : Option Event :=
  latest (db.rowsOf sid)

/-! ### Statements -/

/-- `event.create`; the row is refused if the series it names is not there. -/
def createEvent (db : Database) (seriesId : Option ℕ) (occurrenceIndex : Option ℕ)
    (content : Content) (startDate endDate : ℤ) : Database :=
  if h : ∀ sid ∈ seriesId, ∃ s ∈ db.series, s.id = sid then
    { db with
      events := db.events ++
        [⟨db.nextEventId, content, startDate, endDate, seriesId, occurrenceIndex⟩]
      nextEventId := db.nextEventId + 1
      nodup_events := by
        rw [List.map_append, List.nodup_append]
        refine ⟨db.nodup_events, List.nodup_singleton _, ?_⟩
        simp only [List.mem_map, List.map_cons, List.map_nil, List.mem_singleton]
        rintro _ ⟨e, he, rfl⟩ _ rfl
        exact (db.events_lt e he).ne
      events_lt := by
        intro e he
        rcases List.mem_append.1 he with he | he
        · exact (db.events_lt e he).trans (Nat.lt_succ_self _)
        · rw [List.mem_singleton.1 he]
          exact Nat.lt_succ_self _
      owned := by
        intro e he
        rcases List.mem_append.1 he with he | he
        · exact db.owned e he
        · rw [List.mem_singleton.1 he]
          exact h }
  else db

/-- `event.deleteMany`. -/
def deleteEvents (db : Database) (p : Event → Bool) : Database :=
  { db with
    events := db.events.filter fun e => !p e
    nodup_events := db.nodup_events.sublist (List.filter_sublist.map _)
    events_lt := fun e he => db.events_lt e (List.mem_of_mem_filter he)
    owned := fun e he => db.owned e (List.mem_of_mem_filter he) }

/-- `event.updateMany` of the shared fields. -/
def updateEvents (db : Database) (p : Event → Bool) (f : Content → Content) : Database :=
  let set : Event → Event := fun e => if p e then { e with content := f e.content } else e
  have hid : ∀ e, (set e).id = e.id ∧ (set e).seriesId = e.seriesId := by
    intro e
    simp only [set]
    split <;> exact ⟨rfl, rfl⟩
  { db with
    events := db.events.map set
    nodup_events := by
      have hids : (db.events.map set).map (·.id) = db.events.map (·.id) := by
        rw [List.map_map]
        exact List.map_congr_left fun e _ => (hid e).1
      rw [hids]
      exact db.nodup_events
    events_lt := by
      intro e he
      obtain ⟨old, hold, rfl⟩ := List.mem_map.1 he
      rw [(hid old).1]
      exact db.events_lt old hold
    owned := by
      intro e he sid hsid
      obtain ⟨old, hold, rfl⟩ := List.mem_map.1 he
      rw [(hid old).2] at hsid
      exact db.owned old hold sid hsid }

/-- `eventSeries.create`. The identifier is the next one. -/
def createSeries (db : Database) (rule : Rule) (materialisedUntil : ℤ) : Database :=
  { db with
    series := db.series ++ [⟨rule, db.nextSeriesId, materialisedUntil⟩]
    nextSeriesId := db.nextSeriesId + 1
    nodup_series := by
      rw [List.map_append, List.nodup_append]
      refine ⟨db.nodup_series, List.nodup_singleton _, ?_⟩
      simp only [List.mem_map, List.map_cons, List.map_nil, List.mem_singleton]
      rintro _ ⟨s, hs, rfl⟩ _ rfl
      exact (db.series_lt s hs).ne
    series_lt := by
      intro s hs
      rcases List.mem_append.1 hs with hs | hs
      · exact (db.series_lt s hs).trans (Nat.lt_succ_self _)
      · rw [List.mem_singleton.1 hs]
        exact Nat.lt_succ_self _
    owned := by
      intro e he sid hsid
      obtain ⟨s, hs, hid⟩ := db.owned e he sid hsid
      exact ⟨s, List.mem_append_left _ hs, hid⟩ }

/-- `eventSeries.update` of one row, whose identifier stays. -/
def updateSeries (db : Database) (sid : ℕ) (f : EventSeries → EventSeries)
    (hf : ∀ s, (f s).id = s.id := by intro s; rfl) : Database :=
  let set : EventSeries → EventSeries := fun s => if s.id = sid then f s else s
  have hid : ∀ s, (set s).id = s.id := by
    intro s
    simp only [set]
    split
    · exact hf s
    · rfl
  { db with
    series := db.series.map set
    nodup_series := by
      have hids : (db.series.map set).map (·.id) = db.series.map (·.id) := by
        rw [List.map_map]
        exact List.map_congr_left fun s _ => hid s
      rw [hids]
      exact db.nodup_series
    series_lt := by
      intro s hs
      obtain ⟨old, hold, rfl⟩ := List.mem_map.1 hs
      rw [hid]
      exact db.series_lt old hold
    owned := by
      intro e he sid' hsid
      obtain ⟨s, hs, hs'⟩ := db.owned e he sid' hsid
      exact ⟨set s, List.mem_map_of_mem hs, (hid s).trans hs'⟩ }

/-- `eventSeries.delete`; the foreign key takes the rows with it. -/
def deleteSeries (db : Database) (sid : ℕ) : Database :=
  { db with
    events := db.events.filter fun e => !decide (e.seriesId = some sid)
    series := db.series.filter fun s => !decide (s.id = sid)
    nodup_events := db.nodup_events.sublist (List.filter_sublist.map _)
    events_lt := fun e he => db.events_lt e (List.mem_of_mem_filter he)
    nodup_series := db.nodup_series.sublist (List.filter_sublist.map _)
    series_lt := fun s hs => db.series_lt s (List.mem_of_mem_filter hs)
    owned := by
      intro e he sid' hsid
      obtain ⟨he, hother⟩ := List.mem_filter.1 he
      obtain ⟨s, hs, rfl⟩ := db.owned e he sid' hsid
      refine ⟨s, List.mem_filter.2 ⟨hs, ?_⟩, rfl⟩
      have hne : e.seriesId ≠ some sid := by simpa using hother
      simpa using fun heq : s.id = sid => hne (heq ▸ hsid) }

end Database

end Rabotka.Events

/-!
## Series of events

`EventSeriesService`: creating a series, changing or deleting one occurrence, the tail or all of
it, and extending the series far enough for a window that someone looks at. Each function is one
transaction on the tables, or fails and leaves them as they are. The template of the rows is
carried along; their dates come from `expand`.
-/

namespace Rabotka.Events

inductive Exn where
  | badRequest (message : String)
  | notFound (message : String)
deriving DecidableEq

/-- `EventEditScope`. -/
inductive EventEditScope where
  | this
  | thisAndFollowing
  | all
deriving DecidableEq

/-- `RecurrenceDto`, with its checks: one end condition at most, and a count that the ceiling
allows. -/
structure RecurrenceDto where
  frequency : RecurrenceFrequency
  «until» : Option ℤ
  count : Option ℕ
  exclusive : «until» = none ∨ count = none
  count_range : ∀ c ∈ count, 1 ≤ c ∧ c ≤ maxOccurrencesPerSeries

structure CreateEventDto where
  title : String
  description : String
  startDate : ℤ
  endDate : Option ℤ
  color : String
  location : Option String
  profileIds : List String
  userIds : List String
  channel : Option DeliveryChannel

/-- What an edit leaves out stays as it is. -/
structure UpdateEventDto where
  title : Option String := none
  description : Option String := none
  startDate : Option ℤ := none
  endDate : Option ℤ := none
  color : Option String := none
  location : Option String := none
  profileIds : Option (List String) := none
  userIds : Option (List String) := none
  channel : Option DeliveryChannel := none
  recurrence : Option RecurrenceDto := none

/-- `CreatedSeries`. -/
structure CreatedSeries where
  masterId : ℕ
  seriesId : ℕ
  occurrenceCount : ℕ
deriving DecidableEq

/-! ### Windows -/

def defaultEventDurationMinutes : ℤ := 30

def minuteMs : ℤ := 60000

structure EventWindow where
  start : ℤ
  «end» : ℤ
deriving DecidableEq

/-- `resolveEventWindow`. -/
def resolveEventWindow (startDate : ℤ) (endDate : Option ℤ) : Except Exn EventWindow :=
  let «end» := endDate.getD (startDate + defaultEventDurationMinutes * minuteMs)
  if «end» < startDate then throw (.badRequest "An event cannot end before it starts")
  else pure ⟨startDate, «end»⟩

/-- `FREQUENCY_WORDS`: how a frequency reads in an error message. -/
def frequencyWords : RecurrenceFrequency → String × String
  | .daily => ("daily", "a day")
  | .weekly => ("weekly", "a week")
  | .monthly => ("monthly", "a month")
  | .yearly => ("yearly", "a year")

/-- `assertOccurrenceFitsInterval`: an occurrence is over when the next one starts. -/
def assertOccurrenceFitsInterval (anchorStart anchorEnd : ℤ) (frequency : RecurrenceFrequency) :
    Except Exn Unit :=
  if anchorEnd - anchorStart < intervalMs anchorStart frequency then pure ()
  else
    let (adverb, period) := frequencyWords frequency
    throw (.badRequest ("An event that repeats " ++ adverb ++
      " must finish before it repeats, so it can last at most " ++ period ++ ". " ++
      "Shorten the event's end date — to make the repetition itself never stop, " ++
      "leave the recurrence without an \"until\" or a \"count\"."))

/-! ### Creating -/

/-- `occurrenceData`. -/
def occurrenceData (dto : CreateEventDto) (createdById : String) : Content where
  title := dto.title
  description := dto.description
  color := dto.color
  channel := dto.channel.getD .email
  location := dto.location
  createdById := createdById
  profiles := dto.profileIds
  assignedUsers := dto.userIds

/-- How much of a rule is written at once: up to its end, or a year ahead. -/
def firstBatch (rule : Rule) : ExpandInput where
  toRule := rule
  horizonEnd := rule.until.getD (openEndedHorizon rule.anchorStart)
  maxRows := maxMaterialisedPerRequest

/-- The row of an occurrence. The number that is carried along is the identifier of the row of the
first occurrence. -/
def createRow (sid : ℕ) (content : Content) (x : Database × ℕ) (o : Occurrence) : Database × ℕ :=
  (x.1.createEvent (some sid) (some o.index) content o.start o.end,
    if o.index = 0 then x.1.nextEventId else x.2)

/-- The rows of the occurrences, one `create` at a time. -/
def createRows (db : Database) (sid : ℕ) (content : Content) (occurrences : List Occurrence) :
    Database × ℕ :=
  occurrences.foldl (createRow sid content) (db, 0)

/-- The new row of `event_series`: `materialised_until` is how far its rows reach. -/
def writeSeries (db : Database) (rule : Rule) (occurrences : List Occurrence) : Database :=
  db.createSeries rule ((occurrences.getLast?.map (·.start)).getD rule.anchorStart)

def createSeries (db : Database) (dto : CreateEventDto) (rule : RecurrenceDto)
    (createdById : String) : Except Exn (Database × CreatedSeries) := do
  let window ← resolveEventWindow dto.startDate dto.endDate
  assertOccurrenceFitsInterval window.start window.end rule.frequency
  let rule := ⟨window.start, window.end, rule.frequency, rule.until, rule.count⟩
  let occurrences := expand (firstBatch rule)
  let sid := db.nextSeriesId
  let (db, masterId) :=
    createRows (writeSeries db rule occurrences) sid (occurrenceData dto createdById) occurrences
  pure (db, ⟨masterId, sid, occurrences.length⟩)

/-- `EventService.create` of an event that does not repeat. -/
def createEvent (db : Database) (dto : CreateEventDto) (createdById : String) :
    Except Exn Database := do
  let window ← resolveEventWindow dto.startDate dto.endDate
  pure (db.createEvent none none (occurrenceData dto createdById) window.start window.end)

/-! ### Changing -/

/-- The fields of an occurrence with the edit applied. -/
def Content.edit (content : Content) (dto : UpdateEventDto) : Content :=
  { content with
    title := dto.title.getD content.title
    description := dto.description.getD content.description
    color := dto.color.getD content.color
    channel := dto.channel.getD content.channel
    location := dto.location.or content.location
    profiles := dto.profileIds.getD content.profiles
    assignedUsers := dto.userIds.getD content.assignedUsers }

/-- The rows of a series from a date on. -/
def inTail (sid : ℕ) (start : ℤ) (e : Event) : Bool :=
  decide (e.seriesId = some sid ∧ start ≤ e.startDate)

/-- What is left of a series ends where the split began; a series with nothing left is dropped. -/
def truncate (db : Database) (sid : ℕ) : Database :=
  match db.latestOf sid with
  | some remaining =>
    db.updateSeries sid fun s => { s with «until» := some remaining.startDate, count := none }
  | none => db.deleteSeries sid

/-- `regenerateTail`: drops the occurrences from `start` on and writes them again under a new
series, from the new dates and the new rule. -/
def regenerateTail (db : Database) (pivot : Event) (series : EventSeries) (dto : UpdateEventDto)
    (start : ℤ) : Except Exn (Database × ℕ) := do
  let template := pivot.content.edit dto
  let window ← resolveEventWindow (dto.startDate.getD pivot.startDate)
    (some (dto.endDate.getD pivot.endDate))
  let rule : Rule :=
    match dto.recurrence with
    | some rule => ⟨window.start, window.end, rule.frequency, rule.until, rule.count⟩
    | none => ⟨window.start, window.end, series.frequency, series.until, series.count⟩
  assertOccurrenceFitsInterval window.start window.end rule.frequency
  let occurrences := expand (firstBatch rule)
  let successor := db.nextSeriesId
  let db := (writeSeries db rule occurrences).deleteEvents (inTail series.id start)
  let (db, newPivotId) := createRows db successor template occurrences
  pure (truncate db series.id, newPivotId)

def applyScopedUpdate (db : Database) (pivotId : ℕ) (dto : UpdateEventDto)
    (scope : EventEditScope) : Except Exn (Database × ℕ) :=
  match db.findEvent pivotId with
  | none => throw (.notFound "Event not found")
  | some pivot =>
    match pivot.seriesId.bind db.findSeries with
    | none => pure (db, pivotId)
    | some series =>
      if scope = .this then pure (db, pivotId)
      else
        let start := if scope = .all then series.anchorStart else pivot.startDate
        if dto.startDate.isNone ∧ dto.endDate.isNone ∧ dto.recurrence.isNone then
          -- the rows stay where they are and only their contents change
          pure (db.updateEvents (inTail series.id start) fun c => c.edit dto, pivotId)
        else regenerateTail db pivot series dto start

/-! ### Deleting -/

def applyScopedDelete (db : Database) (pivotId : ℕ) (scope : EventEditScope) :
    Except Exn Database :=
  match db.findEvent pivotId with
  | none => throw (.notFound "Event not found")
  | some pivot =>
    match pivot.seriesId with
    | none => pure (db.deleteEvents fun e => e.id = pivotId)
    | some sid =>
      match scope with
      | .all => pure (db.deleteSeries sid)
      | .thisAndFollowing => pure (truncate (db.deleteEvents (inTail sid pivot.startDate)) sid)
      | .this =>
        let db := db.deleteEvents fun e => e.id = pivotId
        if (db.latestOf sid).isNone then pure (db.deleteSeries sid) else pure db

/-! ### Extending -/

/-- The rest of a rule from the number of rows on, up to a date. -/
def nextBatch (db : Database) (series : EventSeries) (upTo : ℤ) : ExpandInput where
  toRule := series.toRule
  horizonEnd := upTo
  maxRows := maxMaterialisedPerRequest
  startIndex := db.written series.id

/-- The series that the window goes beyond and whose last date is still to come. -/
def EventSeries.stale (series : EventSeries) (now upTo : ℤ) : Bool :=
  decide (series.materialisedUntil < upTo) && series.until.all fun last => decide (now < last)

/-- `extendSeries`. -/
def extendSeries (db : Database) (series : EventSeries) (upTo : ℤ) : Database :=
  if series.count.any fun count => decide (count ≤ db.written series.id) then db
  else
    match (expand (nextBatch db series upTo)).getLast?, db.latestOf series.id with
    | some last, some template =>
      (createRows db series.id template.content (expand (nextBatch db series upTo))).1
        |>.updateSeries series.id fun s => { s with materialisedUntil := last.start }
    | _, _ => db

def ensureMaterialised (db : Database) (now upTo : ℤ) : Database :=
  (db.series.filter fun s => s.stale now upTo).foldl
    (fun db series => extendSeries db series upTo) db

end Rabotka.Events
