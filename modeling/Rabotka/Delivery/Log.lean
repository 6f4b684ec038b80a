import Mathlib.Data.Int.Notation
import Rabotka.Lib.Service

/-!
# The log of outbound messages

`begin` opens a row for a send, `markSent` and `markFailed` record what the provider answered, and
`applyStatus` applies a status webhook: it looks the row up, by the identifier that the provider
echoes or by the provider's own one, and then writes what has changed. Rows are named by their
position. Every method swallows its own failures.
-/

namespace Rabotka.Delivery

open Async

/-! ### Rows -/

inductive WhatsappDeliveryStatus
  | queued
  | sent
  | delivered
  | read
  | failed
  | received
  deriving DecidableEq

/-- `STATUS_RANK`: how far a status may advance the row. -/
def WhatsappDeliveryStatus.rank : WhatsappDeliveryStatus → ℕ
  | .queued => 0
  | .sent => 1
  | .delivered => 2
  | .read => 3
  | .failed => 4
  | .received => 0

inductive MessageDirection
  | inbound
  | outbound
  deriving DecidableEq

/-- `NormalizedError`. -/
structure NormalizedError where
  code : String
  providerCode : Option ℤ := none
  message : String
  deriving DecidableEq

structure WhatsappMessage where
  provider : String := "pending"
  providerMessageId : Option String := none
  direction : MessageDirection := .outbound
  toPhone : String
  status : WhatsappDeliveryStatus := .queued
  sentAt : Option ℕ := none
  deliveredAt : Option ℕ := none
  readAt : Option ℕ := none
  failedAt : Option ℕ := none
  errorCode : Option String := none
  errorProviderCode : Option ℤ := none
  errorMessage : Option String := none
  pricingCategory : Option String := none
  billable : Option Bool := none
  deriving DecidableEq

/-- `TimestampColumn`. -/
inductive TimestampColumn
  | sentAt
  | deliveredAt
  | readAt
  | failedAt
  deriving DecidableEq

def WhatsappMessage.stamp (row : WhatsappMessage) : TimestampColumn → Option ℕ
  | .sentAt => row.sentAt
  | .deliveredAt => row.deliveredAt
  | .readAt => row.readAt
  | .failedAt => row.failedAt

def WhatsappMessage.setStamp (row : WhatsappMessage) (t : ℕ) : TimestampColumn → WhatsappMessage
  | .sentAt => { row with sentAt := some t }
  | .deliveredAt => { row with deliveredAt := some t }
  | .readAt => { row with readAt := some t }
  | .failedAt => { row with failedAt := some t }

/-! ### Status webhooks -/

structure NormalizedPricing where
  category : Option String := none
  billable : Option Bool := none
  deriving DecidableEq

structure StatusEvent where
  providerMessageId : String
  status : String
  timestamp : ℕ
  error : Option NormalizedError := none
  internalMessageId : Option ℕ := none
  pricing : NormalizedPricing := {}
  deriving DecidableEq

def toDeliveryStatus : String → WhatsappDeliveryStatus
  | "sent" => .sent
  | "delivered" => .delivered
  | "read" => .read
  | _ => .failed

def timestampColumn : WhatsappDeliveryStatus → Option TimestampColumn
  | .sent => some .sentAt
  | .delivered => some .deliveredAt
  | .read => some .readAt
  | .failed => some .failedAt
  | _ => none

def truncate (value : String) (max : ℕ) : String :=
  if max < value.toList.length then String.ofList (value.toList.take (max - 1)) ++ "…" else value

/-- The columns that a status webhook writes. -/
structure StatusChanges where
  status : Option WhatsappDeliveryStatus := none
  stamp : Option (TimestampColumn × ℕ) := none
  pricingCategory : Option String := none
  billable : Option Bool := none
  error : Option NormalizedError := none
  providerMessageId : Option String := none
  deriving DecidableEq

def StatusChanges.isEmpty (c : StatusChanges) : Bool := c = {}

/-- What the webhook changes in the row that was read: the status only moves forward, and the
first stamp stays. -/
def changesFor (event : StatusEvent) (row : WhatsappMessage) : StatusChanges :=
  let next := toDeliveryStatus event.status
  { status := if row.status.rank < next.rank then some next else none
    stamp := (timestampColumn next).bind fun column =>
      if row.stamp column = none then some (column, event.timestamp) else none
    pricingCategory := event.pricing.category.filter (· ≠ "")
    billable := event.pricing.billable
    error := event.error
    providerMessageId :=
      if (row.providerMessageId.filter (· ≠ "")) = none && event.providerMessageId ≠ "" then
        some event.providerMessageId
      else none }

def WhatsappMessage.withError (row : WhatsappMessage) (e : NormalizedError) : WhatsappMessage :=
  { row with
    errorCode := some e.code
    errorProviderCode := e.providerCode
    errorMessage := some (truncate e.message 500) }

def StatusChanges.apply (c : StatusChanges) (row : WhatsappMessage) : WhatsappMessage :=
  let stamped := (c.stamp.map fun s => row.setStamp s.2 s.1).getD row
  let noted := (c.error.map stamped.withError).getD stamped
  { noted with
    status := c.status.getD row.status
    pricingCategory := c.pricingCategory.or row.pricingCategory
    billable := c.billable.or row.billable
    providerMessageId := c.providerMessageId.or row.providerMessageId }

@[simp]
theorem StatusChanges.status_apply (c : StatusChanges) (row : WhatsappMessage) :
    (c.apply row).status = c.status.getD row.status := rfl

/-! ### Calls -/

/-- What a send throws. -/
inductive Exn
  | whatsapp (error : NormalizedError)
  | error (message : String)
  deriving DecidableEq

/-- What the provider says about a message it accepted. -/
structure SendResult where
  providerMessageId : String
  provider : String
  deriving DecidableEq

structure World where
  messages : List WhatsappMessage := []
  deriving DecidableEq

inductive Cmd
  | create (toPhone : String)
  | sendMessage (logId : Option ℕ)
  | updateSent (id : ℕ) (result : SendResult)
  | updateFailed (id : ℕ) (provider : String) (error : Exn)
  | findById (event : StatusEvent) (id : ℕ)
  | findByProviderMessageId (event : StatusEvent)
  | update (id : ℕ) (changes : StatusChanges)

abbrev Resp : Cmd → Type
  | .create _ => ℕ
  | .sendMessage _ => Except Exn SendResult
  | .findById _ _ => Option WhatsappMessage
  | .findByProviderMessageId _ => Option (ℕ × WhatsappMessage)
  | _ => Bool

/-- The clock, and what the provider answers. -/
structure Env where
  now : ℕ := 0
  answer : Except Exn SendResult := .error (.error "unreachable")

/-- Another row has the provider's identifier. -/
def World.taken (w : World) (id : ℕ) (row : WhatsappMessage) : Bool :=
  row.providerMessageId.isSome && (List.range w.messages.length).any fun j =>
      j ≠ id && (w.messages[j]?).any fun r => r.providerMessageId = row.providerMessageId

/-- Writes a row, unless it is not there or the unique index on the provider's identifier refuses
it; whether it was written. -/
def World.write (w : World) (id : ℕ) (f : WhatsappMessage → WhatsappMessage) : World × Bool :=
  match w.messages[id]? with
  | none => (w, false)
  | some row =>
    if (f row).providerMessageId ≠ row.providerMessageId && w.taken id (f row) then (w, false)
    else ({ w with messages := w.messages.set id (f row) }, true)

/-- The columns that `markSent` writes. -/
def WhatsappMessage.markSent (row : WhatsappMessage) (result : SendResult) (now : ℕ) :
    WhatsappMessage :=
  { row with
    provider := result.provider
    providerMessageId := some result.providerMessageId
    status := .sent
    sentAt := some now }

/-- The columns that `markFailed` writes. -/
def WhatsappMessage.markFailed (row : WhatsappMessage) (provider : String) (error : Exn)
    (now : ℕ) : WhatsappMessage :=
  let e : NormalizedError := match error with
    | .whatsapp e => e
    | .error message => { code := "UNKNOWN", message }
  { row.withError e with provider, status := .failed, failedAt := some now }

def World.findByProviderMessageId (w : World) (providerMessageId : String) :
    Option (ℕ × WhatsappMessage) :=
  ((List.range w.messages.length).findSome? fun j =>
    (w.messages[j]?).bind fun r =>
      if r.providerMessageId = some providerMessageId then some (j, r) else none)

/-- What a command does. -/
def exec (w : World) (ε : Env) : (c : Cmd) → World × Resp c
  | .create toPhone =>
    ({ w with messages := w.messages ++ [{ toPhone }] }, w.messages.length)
  | .sendMessage _ => (w, ε.answer)
  | .updateSent id result => w.write id fun row => row.markSent result ε.now
  | .updateFailed id provider error => w.write id fun row => row.markFailed provider error ε.now
  | .findById _ id => (w, w.messages[id]?)
  | .findByProviderMessageId event => (w, w.findByProviderMessageId event.providerMessageId)
  | .update id changes => w.write id changes.apply

/-! ### Methods -/

/-- An operation of this service. -/
abbrev Prog (α : Type) := Op Resp Exn α

/-- Issues one call. -/
def issue (c : Cmd) : Prog (Resp c) := Op.cmd c

/-- A write that did not happen throws. -/
def stored (written : Bool) : Prog Unit :=
  if written then return () else throw (.error "constraint failed")

/-- `begin`: the identifier of the new row, or nothing when the insert failed. -/
def «begin» (toPhone : String) : Prog (Option ℕ) :=
  tryCatch (do
    let id ← issue (.create toPhone)
    return some id) fun _ => return none

def markSent (id : Option ℕ) (result : SendResult) : Prog Unit :=
  match id with
  | none => return
  | some id => tryCatch (do
      let written ← issue (.updateSent id result)
      stored written) fun _ => return

def markFailed (id : Option ℕ) (provider : String) (error : Exn) : Prog Unit :=
  match id with
  | none => return
  | some id => tryCatch (do
      let written ← issue (.updateFailed id provider error)
      stored written) fun _ => return

/-- The provider's answer; a refusal throws. -/
def send (logId : Option ℕ) : Prog SendResult := do
  match ← issue (.sendMessage logId) with
  | .ok result => return result
  | .error e => throw e

/-- `WhatsAppService.logged`: a send with its row. -/
def logged (provider toPhone : String) : Prog String := do
  let logId ← «begin» toPhone
  tryCatch (do
    let result ← send logId
    markSent logId result
    return result.providerMessageId) fun e => do
      markFailed logId provider e
      throw e

/-- The row by the provider's identifier. -/
def findByProvider (event : StatusEvent) : Prog (Option (ℕ × WhatsappMessage)) :=
  if event.providerMessageId = "" then return none else issue (.findByProviderMessageId event)

def findRow (event : StatusEvent) : Prog (Option (ℕ × WhatsappMessage)) := do
  match event.internalMessageId with
  | none => findByProvider event
  | some id =>
    match ← issue (.findById event id) with
    | some row => return some (id, row)
    | none => findByProvider event

def applyChanges (id : ℕ) (changes : StatusChanges) : Prog Unit := do
  if changes.isEmpty then return
  else
    let written ← issue (.update id changes)
    stored written

def applyStatus (event : StatusEvent) : Prog Unit :=
  tryCatch (do
    match ← findRow event with
    | none => return
    | some (id, row) => applyChanges id (changesFor event row)) fun _ => return

/-- What arrives: a message to be sent, or a status webhook. -/
inductive Request
  | send (provider toPhone : String)
  | status (event : StatusEvent)

def handler : Request → Prog Unit
  | .send provider toPhone => do let _ ← logged provider toPhone
  | .status event => applyStatus event

/-- The message log with everything that writes to it. -/
def service : Service World Cmd Resp Request Env Exn where
  exec w _ c ε := some (exec w ε c)
  handler := handler

end Rabotka.Delivery
