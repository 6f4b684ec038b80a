import Rabotka.Lib.Runs
import Rabotka.Lib.Table

/-!
# In-app notifications

`createMany` writes the rows of a broadcast in one insert, and reads them back to announce them on
the socket and on the phones of their recipients: it knows them by their recipient, their type and
a creation time from one second before the call on. `create` writes one row and announces it.

The steps of the calls are taken in any order. Rows are numbered in the order of the inserts, and
remember the call which wrote them. Times are in milliseconds of the database's clock.
-/

namespace Rabotka.Notifying.InApp

open Table

/-- A row of type `T` with the rendered copy `C`. -/
structure Row (T C : Type*) where
  recipientId : ℕ
  type : T
  createdAt : ℤ
  copy : C
  call : ℕ
  deriving DecidableEq

/-- What a call tells a recipient about a row. -/
structure Announcement (C : Type*) where
  rowId : ℕ
  recipientId : ℕ
  copy : C
  call : ℕ
  deriving DecidableEq

/-- Where a call is: before its next step, or at its end. -/
inductive Call (T C : Type*)
  | inserting (recipientIds : List ℕ) (type : T) (copy : C) (writtenAfter : ℤ)
  | readingBack (recipientIds : List ℕ) (type : T) (writtenAfter : ℤ) (count : ℕ)
  | finished (count : ℕ)
  | creating (recipientId : ℕ) (type : T) (copy : C)
  | announcing (rowId : ℕ)
  | created (rowId : ℕ)
  | failed
  deriving DecidableEq

structure World (T C : Type*) where
  now : ℤ
  rows : List (Row T C) := []
  calls : List (Call T C) := []
  emitted : List (Announcement C) := []
  pushed : List (Announcement C) := []
  deriving DecidableEq

/-- Calls come in (those of `createMany` with what the application's clock reads then), time passes,
and a call takes its next step, or throws in it. -/
inductive Event (T C : Type*)
  | createMany (recipientIds : List ℕ) (type : T) (copy : C) (clock : ℤ)
  | create (recipientId : ℕ) (type : T) (copy : C)
  | wait (ms : ℕ)
  | take (i : ℕ)
  | throw (i : ℕ)

variable {T C : Type*} [DecidableEq T]

/-- The rows that `createMany` reads back. -/
def written (rows : List (Row T C)) (recipientIds : List ℕ) (type : T) (writtenAfter : ℤ) :
    List (ℕ × Row T C) :=
  findMany rows fun _ row =>
    row.recipientId ∈ recipientIds ∧ row.type = type ∧ writtenAfter ≤ row.createdAt

/-- Announces rows for the call `i`. -/
def announce (w : World T C) (i : ℕ) (rows : List (ℕ × Row T C)) : World T C :=
  let announcements := rows.map fun x => ⟨x.1, x.2.recipientId, x.2.copy, i⟩
  { w with emitted := w.emitted ++ announcements, pushed := w.pushed ++ announcements }

/-- The next step of the call `i`, and where it is then. -/
def next (w : World T C) (i : ℕ) : Call T C → Option (World T C × Call T C)
  | .inserting recipientIds type copy writtenAfter =>
    some ({ w with rows := w.rows ++ recipientIds.map fun id => ⟨id, type, w.now, copy, i⟩ },
      .readingBack recipientIds type writtenAfter recipientIds.length)
  | .readingBack recipientIds type writtenAfter count =>
    some (announce w i (written w.rows recipientIds type writtenAfter), .finished count)
  | .creating recipientId type copy =>
    some ({ w with rows := w.rows ++ [⟨recipientId, type, w.now, copy, i⟩] },
      .announcing w.rows.length)
  | .announcing rowId =>
    (w.rows[rowId]?).map fun row => (announce w i [(rowId, row)], .created rowId)
  | .finished _ | .created _ | .failed => none

/-- A call that waits for the database can throw. -/
def canThrow : Call T C → Bool
  | .inserting _ _ _ _ | .readingBack _ _ _ _ | .creating _ _ _ => true
  | .announcing _ | .finished _ | .created _ | .failed => false

def step (w : World T C) : Event T C → Option (World T C)
  | .createMany recipientIds type copy clock =>
    if recipientIds = [] then some { w with calls := w.calls ++ [.finished 0] }
    -- The two clocks differ by less than a second.
    else if |clock - w.now| < 1000 then
      some { w with calls := w.calls ++ [.inserting recipientIds type copy (clock - 1000)] }
    else none
  | .create recipientId type copy =>
    some { w with calls := w.calls ++ [.creating recipientId type copy] }
  | .wait ms => some { w with now := w.now + ms }
  | .take i => ((w.calls[i]?).bind (next w i)).map fun x => { x.1 with calls := w.calls.set i x.2 }
  | .throw i => ((w.calls[i]?).filter canThrow).map fun _ =>
    { w with calls := w.calls.set i .failed }

/-! ### What is promised -/

/-- Announcements go to the recipient of their row, with its copy. -/
def ToRecipient (w : World T C) : Prop :=
  ∀ a ∈ w.emitted ++ w.pushed, ∃ row, w.rows[a.rowId]? = some row
    ∧ a.recipientId = row.recipientId ∧ a.copy = row.copy

/-- A call of `createMany` that has finished has emitted all its rows. -/
def EmittedByCall (w : World T C) : Prop :=
  ∀ (i count : ℕ), w.calls[i]? = some (.finished count) → ∀ (id : ℕ) (row : Row T C),
    w.rows[id]? = some row → row.call = i → ∃ a ∈ w.emitted, a.rowId = id ∧ a.call = i

/-- No row is emitted twice, and none pushed twice. -/
def AtMostOnce (w : World T C) : Prop :=
  (w.emitted.map Announcement.rowId).Nodup ∧ (w.pushed.map Announcement.rowId).Nodup

/-- A call reads back its own rows only. -/
def ReadsOwn (w : World T C) : Event T C → Prop
  | .take i => ∀ recipientIds type writtenAfter count,
    w.calls[i]? = some (.readingBack recipientIds type writtenAfter count) →
    ∀ x ∈ written w.rows recipientIds type writtenAfter, x.2.call = i
  | _ => True

end Rabotka.Notifying.InApp
