import Rabotka.Lib.Runs

/-!
# Connected mailboxes

The row of one address of a business, the provider that issues tokens for it, and the calls that
use both: `withAccess`, which works on a row read before and refreshes its access token when that
is about to expire or is refused, `complete`, which connects the address again, and `disconnect`.

Refresh tokens are numbered in the order in which the provider issues them for this connection, and
it accepts the latest one only. Times are in milliseconds.
-/

namespace Rabotka.Mailbox

structure Row where
  id : ℕ
  refreshToken : ℕ
  accessToken : Option ℕ := none
  accessExpiresAt : Option ℕ := none
  expiredAt : Option ℕ := none
  deriving DecidableEq

/-- Where a call is: before its next step at the provider or in the database. -/
inductive Call
  | starting (box : Row)
  | refreshing (box : Row) (attempt : ℕ)
  | storing (box : Row) (attempt access expiresAt : ℕ) (refresh : Option ℕ)
  | calling (box : Row) (attempt access : ℕ)
  | touching (box : Row)
  | expiring (box : Row) (refused : Option ℕ)
  | exchanging
  | upserting (refresh access expiresAt : ℕ)
  | revoking (box : Row)
  | deleting (id : ℕ)
  | done
  deriving DecidableEq

/-- There is one row for the address at most; `issued` is the latest refresh token. -/
structure World where
  now : ℕ := 0
  row : Option Row := none
  nextId : ℕ := 0
  issued : ℕ := 0
  reads : List Row := []
  calls : List Call := []
  deriving DecidableEq

/-- What the provider answers, in a step that asks it. -/
structure Answer where
  access : ℕ := 0
  expiresAt : ℕ := 0
  /-- A refresh issues a new refresh token. -/
  rotates : Bool := false
  /-- The access token is refused. -/
  refuses : Bool := false
  deriving DecidableEq

/-- The row is read, calls come in (those of a mailbox with any row that was read), time passes, and
a call takes its next step, or throws in it. -/
inductive Event
  | read
  | withAccess (k : ℕ)
  | complete
  | disconnect (k : ℕ)
  | wait (ms : ℕ)
  | take (i : ℕ) (answer : Answer)
  | throw (i : ℕ)
  deriving DecidableEq

/-- `update` by id. -/
def updateRow (row : Option Row) (id : ℕ) (f : Row → Row) : Option Row :=
  row.map fun r => if r.id = id then f r else r

def hasRow (row : Option Row) (id : ℕ) : Bool := row.any fun r => r.id = id

/-- The access token of the row, unless it is about to expire. -/
def freshAccess (box : Row) (now : ℕ) : Option ℕ :=
  if box.accessExpiresAt.any fun t => now + 60000 < t then box.accessToken else none

/-- The next step of a call, and where the call is then. -/
def next (w : World) (answer : Answer) : Call → Option (World × Call)
  | .starting box =>
    if box.expiredAt.isSome then some (w, .done)
    else
      match freshAccess box w.now with
      | some access => some (w, .calling box 0 access)
      | none => some (w, .refreshing box 0)
  | .refreshing box attempt =>
    if box.refreshToken = w.issued then
      if answer.rotates then
        some ({ w with issued := w.issued + 1 },
          .storing box attempt answer.access answer.expiresAt (some (w.issued + 1)))
      else some (w, .storing box attempt answer.access answer.expiresAt none)
    else
      -- Without an access token, a refused refresh ends the loop in both attempts.
      some (w, .expiring box (some box.refreshToken))
  | .storing box attempt access expiresAt refresh =>
    if hasRow w.row box.id then
      some ({ w with row := updateRow w.row box.id fun r =>
          { r with
            accessToken := some access
            accessExpiresAt := some expiresAt
            refreshToken := refresh.getD r.refreshToken } },
        .calling box attempt access)
    else some (w, .done)
  | .calling box attempt _ =>
    if answer.refuses then
      if attempt = 1 then some (w, .expiring box none) else some (w, .refreshing box 1)
    else some (w, .touching box)
  | .touching _ => some (w, .done)
  | .expiring box _ =>
    some ({ w with row := updateRow w.row box.id fun r =>
      { r with expiredAt := some w.now, accessToken := none } }, .done)
  | .exchanging =>
    some ({ w with issued := w.issued + 1 },
      .upserting (w.issued + 1) answer.access answer.expiresAt)
  | .upserting refresh access expiresAt =>
    match w.row with
    | some r =>
      let row : Row := { r with
        refreshToken := refresh
        accessToken := some access
        accessExpiresAt := some expiresAt
        expiredAt := none }
      some ({ w with row := some row }, .done)
    | none =>
      some ({ w with
        row := some ⟨w.nextId, refresh, some access, some expiresAt, none⟩
        nextId := w.nextId + 1 }, .done)
  | .revoking box => some (w, .deleting box.id)
  | .deleting id => some ({ w with row := w.row.filter fun r => r.id ≠ id }, .done)
  | .done => none

/-- What becomes of a call whose next step throws; only revoking is allowed to. -/
def thrown : Call → Option Call
  | .revoking box => some (.deleting box.id)
  | .done => none
  | _ => some .done

def step (w : World) : Event → Option World
  | .read => w.row.map fun row => { w with reads := w.reads ++ [row] }
  | .withAccess k => (w.reads[k]?).map fun box => { w with calls := w.calls ++ [.starting box] }
  | .complete => some { w with calls := w.calls ++ [.exchanging] }
  | .disconnect k => (w.reads[k]?).map fun box => { w with calls := w.calls ++ [.revoking box] }
  | .wait ms => some { w with now := w.now + ms }
  | .take i answer => ((w.calls[i]?).bind (next w answer)).map fun x =>
    { x.1 with calls := w.calls.set i x.2 }
  | .throw i => ((w.calls[i]?).bind thrown).map fun c => { w with calls := w.calls.set i c }

/-! ### What is promised -/

/-- With no call in progress, the stored refresh token of an unexpired mailbox is the latest. -/
def Latest (w : World) : Prop :=
  (∀ c ∈ w.calls, c = .done) → ∀ row ∈ w.row, row.expiredAt = none → row.refreshToken = w.issued

/-- A mailbox is marked as expired only if the provider refused the refresh token that is stored. -/
def MarksRefused (w : World) : Event → Prop
  | .take i _ => ∀ box refused, w.calls[i]? = some (.expiring box refused) →
    ∀ row ∈ w.row, row.id = box.id → refused = some row.refreshToken
  | _ => True

/-- A refresh token that a call was given and has not written. -/
def unsaved : Call → Option ℕ
  | .storing _ _ _ _ refresh => refresh
  | .upserting refresh _ _ => some refresh
  | _ => none

def AllSaved (w : World) : Prop := ∀ c ∈ w.calls, unsaved c = none

/-- What may be asked of the provider in the next step of a call, and with which answer. -/
def MayAsk (w : World) (answer : Answer) : Call → Prop
  | .refreshing box _ =>
    AllSaved w ∧ ∀ row ∈ w.row, row.id = box.id → row.refreshToken = box.refreshToken
  | .exchanging => AllSaved w
  | .calling _ attempt _ => attempt = 1 → answer.refuses = false
  | _ => True

instance (w : World) : Decidable (AllSaved w) :=
  inferInstanceAs (Decidable (∀ c ∈ w.calls, unsaved c = none))

instance (w : World) (answer : Answer) : (c : Call) → Decidable (MayAsk w answer c)
  | .refreshing box _ => inferInstanceAs (Decidable (AllSaved w
      ∧ ∀ row ∈ w.row, row.id = box.id → row.refreshToken = box.refreshToken))
  | .exchanging => inferInstanceAs (Decidable (AllSaved w))
  | .calling _ attempt _ => inferInstanceAs (Decidable (attempt = 1 → answer.refuses = false))
  | .starting _ | .storing _ _ _ _ _ | .touching _ | .expiring _ _ | .upserting _ _ _
  | .revoking _ | .deleting _ | .done => isTrue trivial

/-- Nothing is issued while a token is not yet written, a refresh presents the token that is stored
(if the mailbox still is), a token is written once it is issued, and the access token of a second
attempt is accepted. -/
def Apart (w : World) : Event → Prop
  | .take i answer => ∀ c ∈ w.calls[i]?, MayAsk w answer c
  | .throw i => ∀ c ∈ w.calls[i]?, unsaved c = none
  | _ => True

instance (w : World) : (e : Event) → Decidable (Apart w e)
  | .take i answer => inferInstanceAs (Decidable (∀ c ∈ w.calls[i]?, MayAsk w answer c))
  | .throw i => inferInstanceAs (Decidable (∀ c ∈ w.calls[i]?, unsaved c = none))
  | .read | .withAccess _ | .complete | .disconnect _ | .wait _ => isTrue trivial

end Rabotka.Mailbox
