import Rabotka.Hiring.Schema
import Rabotka.Lib.Encoding

/-!
# The open offers feed

`findActive` lists the offers that still have a seat, page by page: `queryOpenSlots` asks for
those after a cursor in the order of their closing date, undated ones last, and of their
creation, the latest first. `countOpenOffers` counts them. Which of two offers with the same
dates comes first is the database's choice.

The cursor carries the identifier as well, and the next page starts after it, but the order of
the query does not mention it. So the feed shows every open offer exactly once just when no page
but the last ends with an offer that shares both dates with another one; and archived offers,
which no part of the query looks at, must not be among the open ones.
-/

namespace Rabotka.Offers

open Hiring (JobOfferStatus ApplicationStatus)

/-! ### Rows -/

/-- The text of an identifier. -/
def IsUuid (id : String) : Prop :=
  id.toList.length = 36 ∧ ∀ c ∈ id.toList, c.isAlphanum ∨ c = '-'

/-- A job offer, as far as the feed reads it. Instants are milliseconds that a date can be. -/
structure JobOffer where
  id : String
  scheduledAt : Option ℤ
  createdAt : ℤ
  quantity : ℤ
  status : JobOfferStatus
  deletedAt : Option ℤ
  uuid : IsUuid id
  scheduledInRange : ∀ t ∈ scheduledAt, Encoding.InRange t
  createdInRange : Encoding.InRange createdAt

structure Application where
  jobOfferId : String
  workerId : String
  status : ApplicationStatus
  deriving DecidableEq

/-- The two tables; identifiers are unique. -/
structure Database where
  offers : List JobOffer
  applications : List Application
  ids : (offers.map JobOffer.id).Nodup

/-! ### The cursor -/

structure OpenSlotsCursor where
  scheduledAt : Option ℤ
  createdAt : ℤ
  id : String
  deriving DecidableEq

/-- `toISOString`. -/
def iso (t : ℤ) : String := String.ofList (Encoding.toISO t)

/-- An empty first part says that there is no closing date. -/
def encodeOpenSlotsCursor (row : JobOffer) : String :=
  Encoding.encodeText (((row.scheduledAt.map iso).getD "") ++ "|" ++ iso row.createdAt ++ "|" ++
    row.id)

/-- `scheduledAt === '' ? null : new Date(scheduledAt)`, unless that is no date. -/
def readScheduledAt (s : List Char) : Option (Option ℤ) :=
  if s = [] then some none else (Encoding.parseISO s).map some

/-- A cursor that cannot be read counts as none. -/
def decodeOpenSlotsCursor (cursor : Option String) : Option OpenSlotsCursor := do
  let cursor ← cursor.filter (· ≠ "")
  let raw ← Encoding.decodeText cursor
  match raw.toList.splitOn '|' with
  | scheduledAt :: createdAt :: id :: _ =>
    guard (createdAt ≠ [] ∧ id ≠ [])
    let scheduled ← readScheduledAt scheduledAt
    let created ← Encoding.parseISO createdAt
    return ⟨scheduled, created, String.ofList id⟩
  | _ => none

/-! ### The query -/

/-- `COUNT(a.id) FILTER (WHERE a.status = 'ACCEPTED')`. -/
def acceptedCount (db : Database) (jo : JobOffer) : ℕ :=
  db.applications.countP fun a => a.jobOfferId = jo.id ∧ a.status = .accepted

/-- `NOT EXISTS (SELECT 1 FROM applications …)`, without a worker nothing. -/
def notApplied (db : Database) (excludeWorkerId : Option String) (jo : JobOffer) : Bool :=
  excludeWorkerId.all fun worker =>
    !db.applications.any fun a => a.jobOfferId = jo.id ∧ a.workerId = worker

/-- The conditions that the list and the count share. -/
def openSlot (db : Database) (minScheduledAt : ℤ) (excludeWorkerId : Option String)
    (jo : JobOffer) : Bool :=
  (jo.status = .active || jo.status = .partiallyFilled) &&
    (jo.scheduledAt.all fun t => minScheduledAt < t) && notApplied db excludeWorkerId jo &&
    decide ((acceptedCount db jo : ℤ) < jo.quantity)

/-- The condition on the position, in the words of the query. -/
def keyset (cursor : Option OpenSlotsCursor) (jo : JobOffer) : Bool :=
  match cursor with
  | none => true
  | some ⟨none, createdAt, id⟩ =>
    jo.scheduledAt.isNone && (jo.createdAt < createdAt || (jo.createdAt = createdAt && id < jo.id))
  | some ⟨some scheduledAt, createdAt, id⟩ =>
    match jo.scheduledAt with
    | none => true
    | some t => scheduledAt < t || (t = scheduledAt && jo.createdAt < createdAt) ||
        (t = scheduledAt && jo.createdAt = createdAt && id < jo.id)

/-- `ORDER BY jo.scheduled_at ASC NULLS LAST, jo.created_at DESC`. -/
def orderBy (a b : JobOffer) : Prop :=
  match a.scheduledAt, b.scheduledAt with
  | none, none => b.createdAt ≤ a.createdAt
  | some _, none => True
  | none, some _ => False
  | some s, some t => s < t ∨ s = t ∧ b.createdAt ≤ a.createdAt

/-- How the database answers the query at each cursor, before the limit. -/
abbrev Answer := Option OpenSlotsCursor → List JobOffer

/-- The answers are the rows the query asks for, in an order that `ORDER BY` permits. -/
def Answers (db : Database) (minScheduledAt : ℤ) (excludeWorkerId : Option String)
    (answer : Answer) : Prop :=
  ∀ cursor, (answer cursor).Perm (db.offers.filter fun jo =>
      openSlot db minScheduledAt excludeWorkerId jo && keyset cursor jo) ∧
    (answer cursor).Pairwise orderBy

def queryOpenSlots (answer : Answer) (take : ℕ) (cursor : Option OpenSlotsCursor) : List JobOffer :=
  (answer cursor).take take

/-- Without the optional category and city. -/
def countOpenOffers (db : Database) (minScheduledAt : ℤ) (excludeWorkerId : Option String) : ℕ :=
  (db.offers.filter (openSlot db minScheduledAt excludeWorkerId)).length

/-! ### The feed -/

structure Page where
  data : List JobOffer
  nextCursor : Option String

/-- The page for display: by score, if the worker's place or categories are known. -/
def display (score : Option (JobOffer → ℚ)) (slice : List JobOffer) : List JobOffer :=
  match score with
  | none => slice
  | some score => slice.mergeSort fun a b => decide (score b ≤ score a)

/-- The page of the rows that were read, one more than it shows if there are more. The cursor
comes from their order, before that of display. -/
def pageOf (score : Option (JobOffer → ℚ)) (limit : ℕ) (rows : List JobOffer) : Page :=
  if limit < rows.length then
    { data := display score (rows.take limit)
      nextCursor := (rows.take limit).getLast?.map encodeOpenSlotsCursor }
  else { data := display score rows, nextCursor := none }

def findActive (answer : Answer) (score : Option (JobOffer → ℚ)) (limit : ℕ)
    (cursor : Option String) : Page :=
  pageOf score limit (queryOpenSlots answer (limit + 1) (decodeOpenSlotsCursor cursor))

/-- The pages from a cursor on, if they come to an end within some number of pages. -/
def follow (answer : Answer) (score : Option (JobOffer → ℚ)) (limit : ℕ) :
    ℕ → Option String → Option (List (List JobOffer))
  | 0, _ => none
  | n + 1, cursor =>
    let page := findActive answer score limit cursor
    match page.nextCursor with
    | none => some [page.data]
    | some next => (follow answer score limit n (some next)).map (page.data :: ·)

end Rabotka.Offers
