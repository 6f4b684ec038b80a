import Mathlib
import Rabotka.Lib.Keyset
import Rabotka.Offers.Feed

/-!
# Every open offer once

The condition that the query writes out over three columns is the order of positions: the
closing date with undated offers last, the creation the other way round, then the identifier
(`keyset_some`). So following the cursors is a walk over the pages of a keyset (`follow_eq`), and
what is known of those tells when the feed is exact.
-/

namespace Rabotka.Offers

open List

/-! ### The cursor says where its row is -/

def JobOffer.cursor (jo : JobOffer) : OpenSlotsCursor := ⟨jo.scheduledAt, jo.createdAt, jo.id⟩

theorem noBar_of_isDigit {c : Char} (h : c.isDigit = true) : c ≠ '|' := by
  rintro rfl
  exact absurd h (by decide)

theorem noBar_writeFields {format : List (Char × ℕ)} {ns : List ℕ} (h : ∀ x ∈ format, x.1 ≠ '|') :
    '|' ∉ Encoding.writeFields format ns := by
  fun_induction Encoding.writeFields format ns with
  | case1 c k format n ns ih =>
    rw [mem_cons, mem_append, not_or, not_or]
    exact ⟨(h _ (mem_cons_self ..)).symm,
      fun hc => noBar_of_isDigit (Encoding.isDigit_pad _ hc) rfl,
      ih fun x hx => h x (mem_cons_of_mem _ hx)⟩
  | case2 => simp

theorem noBar_toISO (t : ℤ) : '|' ∉ Encoding.toISO t := by
  unfold Encoding.toISO
  rw [mem_append, not_or]
  refine ⟨?_, noBar_writeFields (by decide)⟩
  have hpad : ∀ {k n}, '|' ∉ Encoding.pad k n := fun hc =>
    noBar_of_isDigit (Encoding.isDigit_pad _ hc) rfl
  unfold Encoding.yearText
  split
  · exact hpad
  · rw [mem_cons, not_or]
    refine ⟨?_, hpad⟩
    split <;> decide

theorem noBar_uuid {id : String} (h : IsUuid id) : '|' ∉ id.toList := by
  intro hc
  rcases h.2 _ hc with h | h
  · exact absurd h (by decide)
  · exact absurd h (by decide)

theorem toISO_ne_nil (t : ℤ) : Encoding.toISO t ≠ [] := by
  unfold Encoding.toISO
  refine append_ne_nil_of_right_ne_nil _ ?_
  simp [Encoding.format, Encoding.writeFields]

/-- Three parts without a bar are read back. -/
theorem splitOn_bars {a b c : List Char} (ha : '|' ∉ a) (hb : '|' ∉ b) (hc : '|' ∉ c) :
    (a ++ '|' :: (b ++ '|' :: c)).splitOn '|' = [a, b, c] := by
  have hjoin : a ++ '|' :: (b ++ '|' :: c) = ['|'].intercalate [a, b, c] := by simp
  rw [hjoin, splitOn_intercalate '|' (by simp [ha, hb, hc]) (by simp)]

theorem encodeText_ne {s : String} (h : s ≠ "") : Encoding.encodeText s ≠ "" := by
  intro hempty
  have hback := Encoding.decodeText_encodeText s
  have hnone : Encoding.encodeText "" = "" := by decide +kernel
  rw [hempty, ← hnone, Encoding.decodeText_encodeText] at hback
  exact h (Option.some.inj hback).symm

/-- Decoding undoes encoding. -/
theorem decode_encode (jo : JobOffer) :
    decodeOpenSlotsCursor (some (encodeOpenSlotsCursor jo)) = some jo.cursor := by
  obtain ⟨closing, hclosing⟩ :
      ∃ l : List Char, l = ((jo.scheduledAt.map Encoding.toISO).getD []) := ⟨_, rfl⟩
  have hraw : (((jo.scheduledAt.map iso).getD "") ++ "|" ++ iso jo.createdAt ++ "|" ++
      jo.id).toList =
      closing ++ '|' :: (Encoding.toISO jo.createdAt ++ '|' :: jo.id.toList) := by
    have hfirst : ((jo.scheduledAt.map iso).getD "").toList = closing := by
      rw [hclosing]
      cases jo.scheduledAt <;> simp [iso]
    simp only [String.toList_append, hfirst, iso, String.toList_ofList, append_assoc]
    rfl
  have hne : ((jo.scheduledAt.map iso).getD "") ++ "|" ++ iso jo.createdAt ++ "|" ++ jo.id ≠
      "" := by
    intro hempty
    rw [hempty] at hraw
    simp at hraw
  have hnoBar : '|' ∉ closing := by
    rw [hclosing]
    cases jo.scheduledAt with
    | none => exact not_mem_nil
    | some t => exact noBar_toISO t
  have hid : jo.id.toList ≠ [] := by
    intro hempty
    have hlength := jo.uuid.1
    rw [hempty] at hlength
    cases hlength
  have hscheduled : readScheduledAt closing = some jo.scheduledAt := by
    unfold readScheduledAt
    cases ht : jo.scheduledAt with
    | none =>
      rw [hclosing, ht]
      rfl
    | some t =>
      rw [hclosing, ht, Option.map_some, Option.getD_some, if_neg (toISO_ne_nil t),
        Encoding.parseISO_toISO (jo.scheduledInRange t ht)]
      rfl
  unfold decodeOpenSlotsCursor encodeOpenSlotsCursor
  rw [Option.filter_some, if_pos (by simpa using encodeText_ne hne), Option.bind_eq_bind,
    Option.bind_some, Encoding.decodeText_encodeText, Option.bind_eq_bind, Option.bind_some, hraw,
    splitOn_bars hnoBar (noBar_toISO _) (noBar_uuid jo.uuid)]
  simp only
  rw [hscheduled, Encoding.parseISO_toISO jo.createdInRange, String.ofList_toList]
  simp [toISO_ne_nil, hid, JobOffer.cursor]

/-! ### The order of the query -/

/-- The closing date, none being the last. -/
def closing : Option ℤ → WithTop ℤ
  | none => ⊤
  | some t => (t : WithTop ℤ)

/-- The key of the order: the closing date, and the creation, the latest being the first. -/
def JobOffer.key (jo : JobOffer) : WithTop ℤ ×ₗ ℤᵒᵈ :=
  toLex (closing jo.scheduledAt, OrderDual.toDual jo.createdAt)

theorem orderBy_iff {a b : JobOffer} : orderBy a b ↔ a.key ≤ b.key := by
  unfold orderBy JobOffer.key
  rw [Prod.Lex.toLex_le_toLex, OrderDual.toDual_le_toDual]
  cases a.scheduledAt with
  | none | some =>
    cases b.scheduledAt with
    | none | some => simp [closing]

/-- The position that a cursor says. -/
def OpenSlotsCursor.position (c : OpenSlotsCursor) : (WithTop ℤ ×ₗ ℤᵒᵈ) ×ₗ String :=
  toLex (toLex (closing c.scheduledAt, OrderDual.toDual c.createdAt), c.id)

/-- The cursor of a position. -/
def ofPosition (p : (WithTop ℤ ×ₗ ℤᵒᵈ) ×ₗ String) : OpenSlotsCursor :=
  ⟨(ofLex (ofLex p).1).1, OrderDual.ofDual (ofLex (ofLex p).1).2, (ofLex p).2⟩

theorem position_ofPosition (p : (WithTop ℤ ×ₗ ℤᵒᵈ) ×ₗ String) : (ofPosition p).position = p := by
  obtain ⟨⟨s, c⟩, id⟩ := p
  cases s <;> rfl

theorem ofPosition_position (c : OpenSlotsCursor) : ofPosition c.position = c := by
  obtain ⟨s, c, id⟩ := c
  cases s <;> rfl

/-- The condition of the query is that the row comes after the position of the cursor. -/
theorem keyset_some {c : OpenSlotsCursor} {jo : JobOffer} :
    keyset (some c) jo = true ↔ c.position < toLex (jo.key, jo.id) := by
  obtain ⟨s, created, id⟩ := c
  unfold OpenSlotsCursor.position JobOffer.key
  rw [Prod.Lex.toLex_lt_toLex, Prod.Lex.toLex_lt_toLex]
  cases s with
  | none =>
    cases hjo : jo.scheduledAt with
    | none => simp [keyset, closing, hjo, @eq_comm _ created jo.createdAt]
    | some t => simp [keyset, closing, hjo]
  | some s =>
    cases hjo : jo.scheduledAt with
    | none => simp [keyset, closing, hjo]
    | some t =>
      simp [keyset, closing, hjo, @eq_comm _ created jo.createdAt, @eq_comm _ s t, or_assoc,
        and_assoc]

/-! ### Following the cursors -/

section Follow

variable (db : Database) (minScheduledAt : ℤ) (excludeWorkerId : Option String)

/-- The rows of the feed with their positions. -/
def feed : Keyset.Rows JobOffer (WithTop ℤ ×ₗ ℤᵒᵈ) String where
  rows := db.offers.filter (openSlot db minScheduledAt excludeWorkerId)
  key := JobOffer.key
  tie := JobOffer.id
  nodup := db.ids.sublist (filter_sublist.map _)

variable {db minScheduledAt excludeWorkerId} {answer : Answer} {limit : ℕ}
  {score : Option (JobOffer → ℚ)}

/-- The rows after a position are those the query asks for at its cursor. -/
theorem after_feed (c : Option OpenSlotsCursor) :
    (feed db minScheduledAt excludeWorkerId).after (c.map OpenSlotsCursor.position) =
      db.offers.filter fun jo =>
        openSlot db minScheduledAt excludeWorkerId jo && keyset c jo := by
  unfold Keyset.Rows.after
  have hrows : (feed db minScheduledAt excludeWorkerId).rows =
      db.offers.filter (openSlot db minScheduledAt excludeWorkerId) := rfl
  rw [hrows, filter_filter]
  refine filter_congr fun jo _ => ?_
  rw [Bool.and_comm]
  congr 1
  cases c with
  | none => rfl
  | some c =>
    rw [Option.map_some, Option.all_some, Bool.eq_iff_iff, decide_eq_true_eq]
    exact keyset_some.symm

/-- The database as a reader of positions. -/
def reader (answer : Answer) (p : Option ((WithTop ℤ ×ₗ ℤᵒᵈ) ×ₗ String)) : List JobOffer :=
  answer (p.map ofPosition)

theorem reads_reader (h : Answers db minScheduledAt excludeWorkerId answer) :
    (feed db minScheduledAt excludeWorkerId).Reads (reader answer) := by
  intro p
  have hp : (p.map ofPosition).map OpenSlotsCursor.position = p := by
    rw [Option.map_map]
    cases p with
    | none => rfl
    | some p => exact congrArg some (position_ofPosition p)
  have hafter := @after_feed db minScheduledAt excludeWorkerId (p.map ofPosition)
  rw [hp] at hafter
  refine ⟨hafter ▸ (h (p.map ofPosition)).1, (h (p.map ofPosition)).2.imp orderBy_iff.1⟩

theorem display_perm (slice : List JobOffer) : (display score slice).Perm slice := by
  unfold display
  split
  · exact Perm.refl _
  · exact mergeSort_perm _ _

theorem reader_position (cursor : Option OpenSlotsCursor) :
    reader answer (cursor.map OpenSlotsCursor.position) = answer cursor := by
  unfold reader
  rw [Option.map_map]
  cases cursor with
  | none => rfl
  | some c => exact congrArg (fun c => answer (some c)) (ofPosition_position c)

/-- The limit of the query takes nothing from a page. -/
theorem pageOf_take (rows : List JobOffer) :
    pageOf score limit (rows.take (limit + 1)) = pageOf score limit rows := by
  unfold pageOf
  rw [length_take]
  by_cases hmore : limit < rows.length
  · rw [if_pos (by omega), if_pos hmore, take_take, Nat.min_eq_left (by omega)]
  · rw [if_neg (by omega), if_neg hmore, take_of_length_le (by omega)]

/-- Following the cursors is walking over the pages of the feed. -/
theorem follow_eq (n : ℕ) (cursor : Option String) : follow answer score limit n cursor =
      ((feed db minScheduledAt excludeWorkerId).walk (reader answer) limit n
        ((decodeOpenSlotsCursor cursor).map OpenSlotsCursor.position)).map
          (List.map (display score)) := by
  induction n generalizing cursor with
  | zero => rfl
  | succ n ih =>
    rw [follow, Keyset.Rows.walk, reader_position, findActive, queryOpenSlots, pageOf_take]
    generalize answer (decodeOpenSlotsCursor cursor) = rows
    unfold pageOf
    by_cases hmore : limit < rows.length
    · rw [if_pos hmore, if_pos hmore]
      cases hlast : (rows.take limit).getLast? with
      | none => rfl
      | some jo =>
        have hnext := ih (some (encodeOpenSlotsCursor jo))
        rw [decode_encode] at hnext
        simp only [Option.map_some, hnext, Option.map_map]
        rfl
    · rw [if_neg hmore, if_neg hmore]
      rfl

end Follow

/-! ### The feed is exact -/

/-- The offers a worker should be shown. -/
def Wanted (db : Database) (minScheduledAt : ℤ) (excludeWorkerId : Option String)
    (jo : JobOffer) : Prop :=
  jo.deletedAt = none ∧ (jo.status = .active ∨ jo.status = .partiallyFilled) ∧
    (∀ t ∈ jo.scheduledAt, minScheduledAt < t) ∧ (acceptedCount db jo : ℤ) < jo.quantity ∧
    ∀ worker ∈ excludeWorkerId, ∀ a ∈ db.applications, a.jobOfferId = jo.id → a.workerId ≠ worker

instance (db : Database) (minScheduledAt : ℤ) (excludeWorkerId : Option String) :
    DecidablePred (Wanted db minScheduledAt excludeWorkerId) := fun _ => by
  unfold Wanted
  infer_instance

/-- However the database orders offers with the same dates, following the cursors ends, and the
pages list every wanted offer exactly once and no other, as many as are counted. -/
def Exact (db : Database) (minScheduledAt : ℤ) (excludeWorkerId : Option String)
    (score : Option (JobOffer → ℚ)) (limit : ℕ) : Prop :=
  ∀ answer, Answers db minScheduledAt excludeWorkerId answer →
    ∃ n pages, follow answer score limit n none = some pages ∧
      pages.flatten.Perm (db.offers.filter (Wanted db minScheduledAt excludeWorkerId)) ∧
      pages.flatten.length = countOpenOffers db minScheduledAt excludeWorkerId

variable {db : Database} {minScheduledAt : ℤ} {excludeWorkerId : Option String}
  {score : Option (JobOffer → ℚ)} {limit : ℕ}

theorem openSlot_iff {jo : JobOffer} : openSlot db minScheduledAt excludeWorkerId jo = true ∧
    jo.deletedAt = none ↔ Wanted db minScheduledAt excludeWorkerId jo := by
  have hdate : (jo.scheduledAt.all fun t => decide (minScheduledAt < t)) = true ↔
      ∀ t ∈ jo.scheduledAt, minScheduledAt < t := by
    rw [Option.all_eq_true]
    simp
  have hworker : notApplied db excludeWorkerId jo = true ↔ ∀ worker ∈ excludeWorkerId,
      ∀ a ∈ db.applications, a.jobOfferId = jo.id → a.workerId ≠ worker := by
    unfold notApplied
    cases excludeWorkerId <;> simp
  unfold openSlot Wanted
  rw [Bool.and_eq_true, Bool.and_eq_true, Bool.and_eq_true, hdate, hworker, Bool.or_eq_true,
    decide_eq_true_eq, decide_eq_true_eq, decide_eq_true_eq]
  tauto

theorem flatten_map_display (pages : List (List JobOffer)) :
    (pages.map (display score)).flatten.Perm pages.flatten := by
  induction pages with
  | nil => exact Perm.refl _
  | cons page pages ih => exact (display_perm page).append ih

/-- A reader of positions as the database. -/
theorem answers_of_reads {read : Option ((WithTop ℤ ×ₗ ℤᵒᵈ) ×ₗ String) → List JobOffer}
    (h : (feed db minScheduledAt excludeWorkerId).Reads read) :
    Answers db minScheduledAt excludeWorkerId fun c => read (c.map OpenSlotsCursor.position) := by
  intro c
  have hread := h (c.map OpenSlotsCursor.position)
  rw [after_feed] at hread
  exact ⟨hread.1, hread.2.imp orderBy_iff.2⟩

theorem reader_answer (read : Option ((WithTop ℤ ×ₗ ℤᵒᵈ) ×ₗ String) → List JobOffer) :
    reader (fun c => read (c.map OpenSlotsCursor.position)) = read := by
  funext p
  cases p with
  | none => rfl
  | some p => exact congrArg (fun q => read (some q)) (position_ofPosition p)

/-- The open offers in the order of the feed, those with the same dates by identifier. -/
def inOrder (db : Database) (minScheduledAt : ℤ) (excludeWorkerId : Option String) :
    List JobOffer :=
  (feed db minScheduledAt excludeWorkerId).readBy JobOffer.id none

theorem inOrder_perm : (inOrder db minScheduledAt excludeWorkerId).Perm
    (db.offers.filter (openSlot db minScheduledAt excludeWorkerId)) := by
  refine (Keyset.Rows.readBy_perm _ _).trans (Perm.of_eq ?_)
  have hall := @after_feed db minScheduledAt excludeWorkerId none
  rw [Option.map_none] at hall
  rw [hall]
  exact filter_congr fun jo _ => Bool.and_true _

/-- The feed is exact if and only if no archived offer is among the open ones, and no page but
the last ends with an offer that shares its closing date and its creation with another one. The
cursor of an offer always says where it is. -/
theorem open_offers_exact (hlimit : 1 ≤ limit) :
    (Exact db minScheduledAt excludeWorkerId score limit ↔
      (∀ jo ∈ db.offers, openSlot db minScheduledAt excludeWorkerId jo = true →
        jo.deletedAt = none) ∧
      (feed db minScheduledAt excludeWorkerId).Parted limit
        (inOrder db minScheduledAt excludeWorkerId)) ∧
    ∀ jo : JobOffer, decodeOpenSlotsCursor (some (encodeOpenSlotsCursor jo)) = some jo.cursor := by
  have hall : ((feed db minScheduledAt excludeWorkerId).after none).Perm
      (inOrder db minScheduledAt excludeWorkerId) := (Keyset.Rows.readBy_perm _ _).symm
  have hsorted : (feed db minScheduledAt excludeWorkerId).Sorted
      (inOrder db minScheduledAt excludeWorkerId) := Keyset.Rows.sorted_readBy
  -- what a reader of positions walks over is what the feed shows
  have hwalk : ∀ {read n pages}, (feed db minScheduledAt excludeWorkerId).Reads read →
      follow (fun c => read (c.map OpenSlotsCursor.position)) score limit n none = some pages →
      ∃ walked, (feed db minScheduledAt excludeWorkerId).walk read limit n none = some walked ∧
        pages.flatten.Perm walked.flatten := by
    intro read n pages hread hfollow
    rw [@follow_eq db minScheduledAt excludeWorkerId, reader_answer] at hfollow
    obtain ⟨walked, hwalked, rfl⟩ := Option.map_eq_some_iff.1 hfollow
    exact ⟨walked, hwalked, flatten_map_display walked⟩
  have hcount : (inOrder db minScheduledAt excludeWorkerId).length =
      countOpenOffers db minScheduledAt excludeWorkerId := inOrder_perm.length_eq
  refine ⟨⟨fun h => ?_, fun ⟨harchived, hparted⟩ answer hanswer => ?_⟩, decode_encode⟩
  · -- the earlier identifier first: every open offer is listed, so it is wanted
    have hwanted : (inOrder db minScheduledAt excludeWorkerId).Perm
        (db.offers.filter (Wanted db minScheduledAt excludeWorkerId)) := by
      obtain ⟨n, pages, hfollow, hlisted, -⟩ :=
        h _ (answers_of_reads (Keyset.Rows.reads_readBy JobOffer.id))
      obtain ⟨walked, hwalked, hperm⟩ := hwalk (Keyset.Rows.reads_readBy _) hfollow
      obtain ⟨walked', hwalked', hperm'⟩ :=
        Keyset.Rows.walk_ascending hlimit (Nat.lt_succ_self _) hall hsorted
      obtain rfl := Keyset.Rows.walk_unique hwalked hwalked'
      exact hperm'.symm.trans (hperm.symm.trans hlisted)
    refine ⟨fun jo hjo hopen => ?_, ?_⟩
    · have hmem : jo ∈ inOrder db minScheduledAt excludeWorkerId :=
        inOrder_perm.mem_iff.2 (mem_filter.2 ⟨hjo, hopen⟩)
      have hmem := (mem_filter.1 (hwanted.mem_iff.1 hmem)).2
      exact (openSlot_iff.2 (of_decide_eq_true hmem)).2
    · -- the later identifier first: nothing is repeated or left out at the end of a page
      obtain ⟨n, pages, hfollow, hlisted, -⟩ :=
        h _ (answers_of_reads (Keyset.Rows.reads_readBy fun a => OrderDual.toDual a.id))
      obtain ⟨walked, hwalked, hperm⟩ := hwalk (Keyset.Rows.reads_readBy _) hfollow
      exact Keyset.Rows.parted_of_walk hlimit hwalked hall hsorted
        (hperm.symm.trans (hlisted.trans hwanted.symm))
  · obtain ⟨walked, hwalked, hperm⟩ := Keyset.Rows.walk_perm (reads_reader hanswer) hlimit
      (Nat.lt_succ_self _) hall hsorted hparted
    refine ⟨(inOrder db minScheduledAt excludeWorkerId).length.succ,
      walked.map (display score), ?_, ?_, ?_⟩
    · rw [@follow_eq db minScheduledAt excludeWorkerId]
      exact congrArg (Option.map _) hwalked
    · refine (flatten_map_display walked).trans (hperm.trans (inOrder_perm.trans ?_))
      refine Perm.of_eq (filter_congr fun jo hjo => ?_)
      rw [Bool.eq_iff_iff, decide_eq_true_eq, ← openSlot_iff]
      exact ⟨fun hopen => ⟨hopen, harchived jo hjo hopen⟩, fun hopen => hopen.1⟩
    · rw [← hcount]
      exact ((flatten_map_display walked).trans hperm).length_eq

/-! ### Two offers with the same dates -/

def firstId : String := "00000000-0000-4000-8000-000000000001"

def secondId : String := "00000000-0000-4000-8000-000000000002"

theorem isUuid_of_all {id : String} (hlength : id.toList.length = 36)
    (hall : (id.toList.all fun c => c.isAlphanum || c == '-') = true) : IsUuid id := by
  refine ⟨hlength, fun c hc => ?_⟩
  have hchar := all_eq_true.1 hall c hc
  rwa [Bool.or_eq_true, beq_iff_eq] at hchar

theorem isUuid_firstId : IsUuid firstId :=
  isUuid_of_all (by decide +kernel) (by decide +kernel)

theorem isUuid_secondId : IsUuid secondId :=
  isUuid_of_all (by decide +kernel) (by decide +kernel)

/-- An undated offer with one seat, created a few milliseconds after the start of 1970. -/
def sampleOffer (id : String) (h : IsUuid id) (deletedAt : Option ℤ) (created : Fin 10) :
    JobOffer where
  id := id
  scheduledAt := none
  createdAt := created
  quantity := 1
  status := .active
  deletedAt := deletedAt
  uuid := h
  scheduledInRange := fun _ h => by cases h
  createdInRange := by unfold Encoding.InRange; omega

/-- Two such offers. -/
def sampleDatabase (deletedAt : Option ℤ) (created : Fin 10) : Database where
  offers := [sampleOffer firstId isUuid_firstId none 0,
    sampleOffer secondId isUuid_secondId deletedAt created]
  applications := []
  ids := by
    change [firstId, secondId].Nodup
    decide +kernel

/-- With different instants of creation, and one offer a page, the feed is exact. -/
theorem open_offers_exact_distinct : Exact (sampleDatabase none 1) 0 none none 1 := by
  refine (open_offers_exact le_rfl).1.2 ⟨fun jo hjo _ => ?_, fun i a _ _ ha b hb hkey => ?_⟩
  · simp only [sampleDatabase, mem_cons, not_mem_nil, or_false] at hjo
    rcases hjo with rfl | rfl <;> rfl
  · have hmem : ∀ {jo}, jo ∈ inOrder (sampleDatabase none 1) 0 none →
        jo = sampleOffer firstId isUuid_firstId none 0 ∨
          jo = sampleOffer secondId isUuid_secondId none 1 := fun h => by
      simpa [sampleDatabase] using (mem_filter.1 (inOrder_perm.mem_iff.1 h)).1
    have hcreated : b.createdAt = a.createdAt := congrArg (fun k => (ofLex k).2) hkey
    rcases hmem (mem_of_getElem? ha) with rfl | rfl <;> rcases hmem hb with rfl | rfl
    · rfl
    · exact absurd hcreated (by decide)
    · exact absurd hcreated (by decide)
    · rfl

/-- The later identifier first. -/
def sampleAnswer (db : Database) : Answer := fun c =>
  db.offers.reverse.filter fun jo => openSlot db 0 none jo && keyset c jo

theorem answers_sampleAnswer (deletedAt : Option ℤ) :
    Answers (sampleDatabase deletedAt 0) 0 none (sampleAnswer (sampleDatabase deletedAt 0)) := by
  refine fun c => ⟨(reverse_perm _).filter _, List.Pairwise.filter _ ?_⟩
  have hsame : ∀ a ∈ (sampleDatabase deletedAt 0).offers, a.scheduledAt = none ∧
      a.createdAt = 0 := by
    intro a ha
    simp only [sampleDatabase, mem_cons, not_mem_nil, or_false] at ha
    rcases ha with rfl | rfl <;> exact ⟨rfl, rfl⟩
  refine List.Pairwise.imp_of_mem (R := fun _ _ => True) (fun {a b} ha hb _ => ?_)
    (pairwise_of_forall fun _ _ => trivial)
  obtain ⟨hadate, hacreated⟩ := hsame a (mem_reverse.1 ha)
  obtain ⟨hbdate, hbcreated⟩ := hsame b (mem_reverse.1 hb)
  unfold orderBy
  rw [hadate, hbdate]
  exact (hacreated ▸ hbcreated).le

theorem firstId_lt_secondId : firstId < secondId := by decide +kernel

/-- What the database answers without a cursor, and after the second offer. -/
theorem sampleAnswer_none (deletedAt : Option ℤ) : sampleAnswer (sampleDatabase deletedAt 0) none =
      [sampleOffer secondId isUuid_secondId deletedAt 0,
        sampleOffer firstId isUuid_firstId none 0] := rfl

theorem sampleAnswer_second (deletedAt : Option ℤ) : sampleAnswer (sampleDatabase deletedAt 0)
      (some (sampleOffer secondId isUuid_secondId deletedAt 0).cursor) = [] := by
  refine filter_eq_nil_iff.2 fun jo hjo h => ?_
  have hlater := keyset_some.1 (Bool.and_eq_true_iff.1 h).2
  simp only [sampleDatabase, reverse_cons, reverse_nil, nil_append,
    cons_append, mem_cons, not_mem_nil, or_false] at hjo
  rcases hjo with rfl | rfl
  · exact lt_irrefl _ hlater
  · rcases Prod.Lex.toLex_lt_toLex.1 hlater with hkey | hid
    · exact lt_irrefl _ hkey
    · exact hid.2.not_gt firstId_lt_secondId

/-- Two offers created at the same instant, one offer a page: one of them is never shown if the
database puts the other one first. And an archived offer is shown. -/
theorem open_offers_inexact : ¬ Exact (sampleDatabase none 0) 0 none none 1 ∧
      ¬ Exact (sampleDatabase (some 5) 0) 0 none none 2 := by
  constructor
  · intro h
    obtain ⟨n, pages, hfollow, hlisted, -⟩ := h _ (answers_sampleAnswer none)
    have hsecond : ∀ m later, follow (sampleAnswer (sampleDatabase none 0)) none 1 m
        (some (encodeOpenSlotsCursor (sampleOffer secondId isUuid_secondId none 0))) =
          some later → later = [[]] := by
      intro m later hlater
      cases m with
      | zero => cases hlater
      | succ m =>
        rw [follow, findActive, queryOpenSlots, pageOf_take, decode_encode,
          sampleAnswer_second] at hlater
        exact (Option.some.inj hlater).symm
    have hpages : pages = [[sampleOffer secondId isUuid_secondId none 0], []] := by
      cases n with
      | zero => cases hfollow
      | succ n =>
        have hfirst : decodeOpenSlotsCursor none = none := rfl
        rw [follow, findActive, queryOpenSlots, pageOf_take, hfirst, sampleAnswer_none] at hfollow
        obtain ⟨later, hlater, rfl⟩ := Option.map_eq_some_iff.1 hfollow
        rw [hsecond n later hlater]
        rfl
    rw [hpages] at hlisted
    exact absurd hlisted.length_eq (by decide +kernel)
  · intro h
    obtain ⟨n, pages, hfollow, hlisted, -⟩ := h _ (answers_sampleAnswer (some 5))
    have hpages : pages = [[sampleOffer secondId isUuid_secondId (some 5) 0,
        sampleOffer firstId isUuid_firstId none 0]] := by
      cases n with
      | zero => cases hfollow
      | succ n =>
        have hfirst : decodeOpenSlotsCursor none = none := rfl
        rw [follow, findActive, queryOpenSlots, pageOf_take, hfirst, sampleAnswer_none] at hfollow
        exact (Option.some.inj hfollow).symm
    rw [hpages] at hlisted
    exact absurd hlisted.length_eq (by decide +kernel)

end Rabotka.Offers
