import Rabotka.Lib.Table
import Rabotka.Lib.Text

/-!
# Downloading an invoice

The owner and the team download an invoice as a document, filled from the newest template of its
kind and kept in a cache under the invoice and the template. The two calls build the data of the
document separately: they differ in the type of the profile, which one writes as it is stored and
the other as a label.

`served` lists the successful calls among some events: calls, losses of cache entries and changes of
template.
-/

namespace Rabotka.Invoices

open Table

inductive ProfileType
  | worker | employer
  deriving DecidableEq

inductive PaymentMethod
  | mobileMoney | card | wallet | other
  deriving DecidableEq

inductive InvoiceReason
  | contactUnlock | penalty | walletTopUp | businessSubscription | other
  deriving DecidableEq

inductive InvoiceStatus
  | pendingDownload | downloaded
  deriving DecidableEq

inductive DocumentCategory
  | agreement | contract | policy | invoice | report | other
  deriving DecidableEq

structure Business where
  name : String
  phone : Option String
  email : Option String
  taxId : Option String
  registrationNumber : Option String
  address : String
  city : Option String
  deleted : Bool
  deriving DecidableEq

structure Profile where
  firstName : String
  lastName : String
  email : Option String
  phone : String
  isBusiness : Bool
  business : Option Business
  profileType : ProfileType
  deriving DecidableEq

structure Payment where
  transactionId : String
  paymentMethod : PaymentMethod
  deriving DecidableEq

structure ContactUnlockAttempt where
  workerId : ℕ
  employerId : ℕ
  deriving DecidableEq

/-- An invoice with its own id as a text; `amount` is the text of its decimal number, and of the
payment request only the reference is read. -/
structure Invoice where
  id : String
  createdAt : ℤ
  profileId : ℕ
  amount : String
  reason : InvoiceReason
  relatedEntityType : Option String
  relatedEntityId : Option ℕ
  payment : Option ℕ
  paymentReference : Option String
  deriving DecidableEq

structure Document where
  category : DocumentCategory
  createdAt : ℤ
  file : ℕ
  deriving DecidableEq

/-- The content that no call here writes. -/
structure Db where
  profiles : List Profile
  payments : List Payment
  attempts : List ContactUnlockAttempt
  invoices : List Invoice
  deriving DecidableEq

abbrev Data := List (String × String)

/-- What the runtime and the document service do: dates and upper case, filling a template, and
whether the encoding of some bytes is the empty text. -/
structure Setting (Bytes : Type) where
  getFullYear : ℤ → String
  toLocaleDateString : ℤ → String
  toUpperCase : String → String
  fillDocumentTemplateAsPdf : ℕ → Data → Bytes
  isEmpty : Bytes → Bool

variable {Bytes : Type}

/-! ### The data of the document -/

def profileTypeName : ProfileType → String
  | .worker => "WORKER"
  | .employer => "EMPLOYER"

def profileTypeLabels : ProfileType → String
  | .worker => "Travailleur"
  | .employer => "Employeur"

def paymentMethodLabels : PaymentMethod → String
  | .mobileMoney => "Mobile Money"
  | .card => "Carte bancaire"
  | .wallet => "Crédit portefeuille"
  | .other => "Autre"

def reasonLabel : InvoiceReason → String
  | .contactUnlock => "Déverrouillage de contact"
  | .penalty => "Régularisation"
  | .walletTopUp => "Recharge de wallet"
  | .businessSubscription => "Abonnement Rabotka Business"
  | .other => "Autre"

/-- The organisation that a business account pays as. -/
def liveBusiness (profile : Profile) : Option Business :=
  if profile.isBusiness then profile.business.filter fun b => !b.deleted else none

/-- `a?.trim() || b`. -/
def trimmedOr (a : Option String) (b : Option String) : Option String :=
  (Text.trimmed a).or b

/-- Who the invoice is made out to. -/
def invoiceClient (profile : Profile) : Data :=
  let b := liveBusiness profile
  [("FIRST_NAME", (b.map Business.name).getD profile.firstName),
    ("LAST_NAME", if b.isSome then "" else profile.lastName),
    ("EMAIL", (trimmedOr (b.bind Business.email) profile.email).getD "-"),
    ("PHONE", (trimmedOr (b.bind Business.phone) (some profile.phone)).getD ""),
    ("BUSINESS_NAME", (b.map Business.name).getD "-"),
    ("BUSINESS_NIU", (b.bind Business.taxId).getD "-"),
    ("BUSINESS_RCCM", (b.bind Business.registrationNumber).getD "-"),
    ("BUSINESS_ADDRESS", match b with
      | none => "-"
      | some b => ", ".intercalate ([b.address, b.city.getD ""].filter (· ≠ ""))),
    ("ACCOUNT_HOLDER", Text.trim (profile.firstName ++ " " ++ profile.lastName))]

def invoiceRef (s : Setting Bytes) (id : String) (createdAt : ℤ) : String :=
  let short := s.toUpperCase (String.ofList ((id.toList.filter (· ≠ '-')).take 8))
  "RBT-" ++ s.getFullYear createdAt ++ "-" ++ short

def resolveRelatedEntity (db : Db) (relatedEntityType : Option String)
    (relatedEntityId : Option ℕ) (invoiceProfileId : ℕ) : String :=
  match relatedEntityId, relatedEntityType with
  | some id, some "worker" =>
    ((db.profiles[id]?).map fun p => p.firstName ++ " " ++ p.lastName).getD "-"
  | some id, some "contact_unlock_attempt" =>
    (((db.attempts[id]?).bind fun a =>
      db.profiles[if a.workerId = invoiceProfileId then a.employerId else a.workerId]?).map
        fun p => p.firstName ++ " " ++ p.lastName).getD "-"
  | _, _ => "-"

def resolvePaymentMethod (db : Db) (paymentReference : Option String) : String :=
  match paymentReference.filter (· ≠ "") with
  | none => ""
  | some reference =>
    ((db.payments.find? fun p => p.transactionId = reference).map fun p =>
      paymentMethodLabels p.paymentMethod).getD ""

/-- The data of an invoice, with what is to stand for the profile's type. -/
def data (s : Setting Bytes) (db : Db) (invoice : Invoice) (profile : Profile)
    (profileType : String) : Data :=
  let payment := invoice.payment.bind fun id => db.payments[id]?
  [("INVOICE_ID", invoiceRef s invoice.id invoice.createdAt),
    ("INVOICE_DATE", s.toLocaleDateString invoice.createdAt)]
  ++ invoiceClient profile ++
  [("PROFILE_TYPE", profileType),
    ("AMOUNT", invoice.amount),
    ("REASON", reasonLabel invoice.reason),
    ("PAYMENT_REF", ((payment.map Payment.transactionId).or invoice.paymentReference).getD ""),
    ("PAYMENT_METHOD", match payment with
      | some p => paymentMethodLabels p.paymentMethod
      | none => resolvePaymentMethod db invoice.paymentReference),
    ("RELATED_ENTITY", resolveRelatedEntity db invoice.relatedEntityType invoice.relatedEntityId
      invoice.profileId),
    ("GENERATED_DATE", s.toLocaleDateString invoice.createdAt)]

/-! ### The calls -/

inductive Error
  | notFound (message : String)
  | forbidden (message : String)
  deriving DecidableEq

/-- The documents (none for one that was deleted), the status column and the cache. -/
structure World (Bytes : Type) where
  documents : List (Option Document)
  statuses : List InvoiceStatus
  cache : ℕ → ℕ → Option Bytes

/-- `orderBy: { created_at: 'desc' }`, the first. -/
def newest (documents : List (ℕ × Document)) : Option (ℕ × Document) :=
  documents.foldl (fun best x =>
    match best with
    | none => some x
    | some b => if b.2.createdAt < x.2.createdAt then some x else some b) none

/-- The template for invoices, with its id. -/
def template (documents : List (Option Document)) : Option (ℕ × Document) :=
  newest ((findMany documents fun _ d => d.any fun d => d.category = .invoice).filterMap fun x =>
    x.2.map fun d => (x.1, d))

/-- What a call returns, and whether it had to build the document. -/
structure Reply (Bytes : Type) where
  buffer : Bytes
  filename : String
  built : Bool

/-- The part that the two calls share: the template, the cache, and the document. -/
def fromCacheOrBuilt (s : Setting Bytes) (db : Db) (w : World Bytes) (invoiceId : ℕ)
    (invoice : Invoice) (profile : Profile) (profileType : String) :
    Except Error (World Bytes × Reply Bytes) :=
  match template w.documents with
  | none => .error (.notFound "No INVOICE template found")
  | some (templateId, document) =>
    let filename := "facture_" ++ profile.lastName ++ "_" ++ Text.slice invoice.id 8 ++ ".pdf"
    match (w.cache invoiceId templateId).filter fun b => !s.isEmpty b with
    | some cached => .ok (w, ⟨cached, filename, false⟩)
    | none =>
      let buffer := s.fillDocumentTemplateAsPdf document.file
        (data s db invoice profile profileType)
      .ok ({ w with
        cache := Function.update w.cache invoiceId
          (Function.update (w.cache invoiceId) templateId (some buffer)) },
        ⟨buffer, filename, true⟩)

/-- `findUnique`, with the profile. -/
def findInvoice (db : Db) (invoiceId : ℕ) : Option (Invoice × Profile) :=
  (db.invoices[invoiceId]?).bind fun invoice =>
    (db.profiles[invoice.profileId]?).map fun profile => (invoice, profile)

def download (s : Setting Bytes) (db : Db) (w : World Bytes) (invoiceId requestingProfileId : ℕ) :
    Except Error (World Bytes × Reply Bytes) :=
  match findInvoice db invoiceId with
  | none => .error (.notFound "Invoice not found")
  | some (invoice, profile) =>
    if invoice.profileId ≠ requestingProfileId then
      .error (.forbidden "Not authorized to access this invoice")
    else
      match fromCacheOrBuilt s db w invoiceId invoice profile
        (profileTypeName profile.profileType) with
      | .error e => .error e
      | .ok (w, reply) =>
        if reply.built then
          .ok ({ w with statuses := update w.statuses invoiceId fun _ => .downloaded }, reply)
        else .ok (w, reply)

def downloadAsAdmin (s : Setting Bytes) (db : Db) (w : World Bytes) (invoiceId : ℕ) :
    Except Error (World Bytes × Reply Bytes) :=
  match findInvoice db invoiceId with
  | none => .error (.notFound "Invoice not found")
  | some (invoice, profile) =>
    fromCacheOrBuilt s db w invoiceId invoice profile (profileTypeLabels profile.profileType)

/-- `invalidatePdfCache`. -/
def invalidatePdfCache (cache : ℕ → ℕ → Option Bytes) (templateId : ℕ) :
    ℕ → ℕ → Option Bytes := fun invoiceId =>
  Function.update (cache invoiceId) templateId none

/-! ### Sequences of calls -/

/-- Which of the two calls. -/
inductive Side
  | owner | admin
  deriving DecidableEq

/-- A call, the loss of an entry of the cache, or a change of the templates. -/
inductive Event
  | download (invoiceId requestingProfileId : ℕ)
  | downloadAsAdmin (invoiceId : ℕ)
  | evict (invoiceId templateId : ℕ)
  | create (document : Document)
  | replaceFile (templateId file : ℕ)
  | setCategory (templateId : ℕ) (category : DocumentCategory)
  | delete (templateId : ℕ)

/-- The event leaves the database as it is, but for the status of an invoice. -/
def Event.isCall : Event → Bool
  | .download _ _ | .downloadAsAdmin _ | .evict _ _ => true
  | _ => false

/-- A successful call: for which invoice, on which side, and its reply. -/
structure Served (Bytes : Type) where
  invoiceId : ℕ
  side : Side
  reply : Reply Bytes

/-- One event, and the successful call if it is one. -/
def step (s : Setting Bytes) (db : Db) (w : World Bytes) :
    Event → World Bytes × Option (Served Bytes)
  | .download invoiceId requestingProfileId =>
    match download s db w invoiceId requestingProfileId with
    | .error _ => (w, none)
    | .ok (w', reply) => (w', some ⟨invoiceId, .owner, reply⟩)
  | .downloadAsAdmin invoiceId =>
    match downloadAsAdmin s db w invoiceId with
    | .error _ => (w, none)
    | .ok (w', reply) => (w', some ⟨invoiceId, .admin, reply⟩)
  | .evict invoiceId templateId =>
    ({ w with
      cache := Function.update w.cache invoiceId
        (Function.update (w.cache invoiceId) templateId none) }, none)
  | .create document => ({ w with documents := w.documents ++ [some document] }, none)
  | .replaceFile templateId file =>
    ({ w with
      documents := update w.documents templateId fun d => d.map fun d => { d with file }
      cache := invalidatePdfCache w.cache templateId }, none)
  | .setCategory templateId category =>
    ({ w with
      documents := update w.documents templateId fun d => d.map fun d => { d with category }
      cache := invalidatePdfCache w.cache templateId }, none)
  | .delete templateId =>
    ({ w with
      documents := update w.documents templateId fun _ => none
      cache := invalidatePdfCache w.cache templateId }, none)

/-- The state after some events. -/
def after (s : Setting Bytes) (db : Db) (w : World Bytes) : List Event → World Bytes
  | [] => w
  | e :: events => after s db (step s db w e).1 events

/-- The successful calls among some events. -/
def served (s : Setting Bytes) (db : Db) (w : World Bytes) : List Event → List (Served Bytes)
  | [] => []
  | e :: events => (step s db w e).2.toList ++ served s db (step s db w e).1 events

/-- All successful calls for an invoice return the same bytes. -/
def SameBytes (calls : List (Served Bytes)) : Prop :=
  ∀ x ∈ calls, ∀ y ∈ calls, x.invoiceId = y.invoiceId → x.reply.buffer = y.reply.buffer

/-- Whoever had to build the document of an invoice, it was on one side. -/
def BuiltOnOneSide (calls : List (Served Bytes)) : Prop :=
  ∀ x ∈ calls, ∀ y ∈ calls, x.invoiceId = y.invoiceId → x.reply.built = true →
    y.reply.built = true → x.side = y.side

end Rabotka.Invoices
