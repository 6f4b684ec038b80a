import Rabotka.Lib.Cascade
import Rabotka.Money.Schema

/-!
# The tables an archive is purged from

The rows that a purge reads, deletes or takes with it, in one list: every table from which a record
of money can be reached through the schema's cascades, every table whose rows name stored objects,
and those that keep a row from being purged. A foreign key cascades, except that of a contact
record to its offer, which is set to null.

Rows are named by their table and their number. Columns that no purge looks at are left out.
-/

namespace Rabotka.Archive

open Money (PaymentRequestStatus WalletTransactionType)

inductive Table
  | profile | user | jobOffer | application | assignment | contactUnlockAttempt | contactRecord
  | penalty | payment | paymentRequest | invoice | wallet | walletTransaction | log
  | kycDocument | kycVerificationImage | file | portfolioItem | portfolioImage | claim
  | claimComment | business | businessDocument | cvScreening | cvScreeningResume
  | externalApplication | other
  deriving DecidableEq

/-- Which row of which table. -/
structure Ref where
  table : Table
  id : ℕ
  deriving DecidableEq

/-- The name of a bucket: not empty and without a slash. -/
structure Bucket where
  name : String
  ne_empty : name ≠ ""
  slashless : '/' ∉ name.toList
  deriving DecidableEq

/-- Where an object is stored; in the default bucket if none is named. -/
structure StoredObject where
  key : String
  bucket : Option Bucket := none
  deriving DecidableEq

/-- The columns of a row. -/
inductive Data
  | profile (avatarUrl : Option String)
  | user
  | jobOffer (employerId : ℕ)
  | application (jobOfferId workerId : ℕ)
  | assignment (applicationId jobOfferId workerId : ℕ)
  | contactUnlockAttempt (applicationId jobOfferId workerId employerId : ℕ)
      (employerPaid workerPaid : Bool)
  | contactRecord (employerId workerId : ℕ) (jobOfferId : Option ℕ)
  | penalty (profileId : ℕ) (applicationId : Option ℕ) (paid : Bool)
  | payment (profileId : ℕ)
  | paymentRequest (profileId : ℕ) (status : PaymentRequestStatus)
  | invoice (profileId : ℕ) (paymentRequestId paymentId : Option ℕ)
  | wallet (userId profileId : Option ℕ)
  | walletTransaction (walletId : ℕ) (type : WalletTransactionType)
  | log (userId profileId : Option ℕ)
  | kycDocument (profileId : ℕ) (storageKey : Option String) (documentUrl : String)
  | kycVerificationImage (profileId : ℕ) (storageKey : Option String) (imageUrl : String)
  | file (profileId uploadedById : Option ℕ) (storageKey : String) (bucket : Option Bucket)
  | portfolioItem (profileId : ℕ)
  | portfolioImage (portfolioItemId : ℕ) (storageKey : Option String) (imageUrl : String)
  | claim (profileId : ℕ) (attachmentUrls : List String)
  | claimComment (claimId : ℕ) (attachmentUrls : List String)
  | business (profileId : ℕ)
  | businessDocument (businessId : ℕ) (storageKey : String)
  | cvScreening (businessId : ℕ)
  | cvScreeningResume (screeningId : ℕ) (storageKey : Option String)
      (storageBucket : Option Bucket)
  | externalApplication (jobOfferId : ℕ) (cvStorageKey : Option String)
      (cvStorageBucket : Option Bucket)
  /-- A row that hangs on none of these. -/
  | other (objects : List StoredObject)
  deriving DecidableEq

structure Row where
  id : ℕ
  /-- `deleted_at` is set. -/
  deleted : Bool := false
  data : Data
  deriving DecidableEq

def Data.table : Data → Table
  | .profile _ => .profile
  | .user => .user
  | .jobOffer _ => .jobOffer
  | .application _ _ => .application
  | .assignment _ _ _ => .assignment
  | .contactUnlockAttempt _ _ _ _ _ _ => .contactUnlockAttempt
  | .contactRecord _ _ _ => .contactRecord
  | .penalty _ _ _ => .penalty
  | .payment _ => .payment
  | .paymentRequest _ _ => .paymentRequest
  | .invoice _ _ _ => .invoice
  | .wallet _ _ => .wallet
  | .walletTransaction _ _ => .walletTransaction
  | .log _ _ => .log
  | .kycDocument _ _ _ => .kycDocument
  | .kycVerificationImage _ _ _ => .kycVerificationImage
  | .file _ _ _ _ => .file
  | .portfolioItem _ => .portfolioItem
  | .portfolioImage _ _ _ => .portfolioImage
  | .claim _ _ => .claim
  | .claimComment _ _ => .claimComment
  | .business _ => .business
  | .businessDocument _ _ => .businessDocument
  | .cvScreening _ => .cvScreening
  | .cvScreeningResume _ _ _ => .cvScreeningResume
  | .externalApplication _ _ _ => .externalApplication
  | .other _ => .other

def Row.ref (r : Row) : Ref := ⟨r.data.table, r.id⟩

/-- The foreign keys that cascade. -/
def Data.parents : Data → List Ref
  | .profile _ => []
  | .user => []
  | .jobOffer employerId => [⟨.profile, employerId⟩]
  | .application jobOfferId workerId => [⟨.jobOffer, jobOfferId⟩, ⟨.profile, workerId⟩]
  | .assignment applicationId jobOfferId workerId =>
    [⟨.application, applicationId⟩, ⟨.jobOffer, jobOfferId⟩, ⟨.profile, workerId⟩]
  | .contactUnlockAttempt applicationId jobOfferId workerId employerId _ _ =>
    [⟨.application, applicationId⟩, ⟨.jobOffer, jobOfferId⟩, ⟨.profile, workerId⟩,
      ⟨.profile, employerId⟩]
  | .contactRecord employerId workerId _ => [⟨.profile, employerId⟩, ⟨.profile, workerId⟩]
  | .penalty profileId applicationId _ =>
    ⟨.profile, profileId⟩ :: applicationId.toList.map (⟨.application, ·⟩)
  | .payment profileId => [⟨.profile, profileId⟩]
  | .paymentRequest profileId _ => [⟨.profile, profileId⟩]
  | .invoice profileId paymentRequestId paymentId =>
    ⟨.profile, profileId⟩ :: (paymentRequestId.toList.map (⟨.paymentRequest, ·⟩) ++
      paymentId.toList.map (⟨.payment, ·⟩))
  | .wallet userId profileId =>
    userId.toList.map (⟨.user, ·⟩) ++ profileId.toList.map (⟨.profile, ·⟩)
  | .walletTransaction walletId _ => [⟨.wallet, walletId⟩]
  | .log userId profileId =>
    userId.toList.map (⟨.user, ·⟩) ++ profileId.toList.map (⟨.profile, ·⟩)
  | .kycDocument profileId _ _ => [⟨.profile, profileId⟩]
  | .kycVerificationImage profileId _ _ => [⟨.profile, profileId⟩]
  | .file profileId uploadedById _ _ =>
    profileId.toList.map (⟨.profile, ·⟩) ++ uploadedById.toList.map (⟨.user, ·⟩)
  | .portfolioItem profileId => [⟨.profile, profileId⟩]
  | .portfolioImage portfolioItemId _ _ => [⟨.portfolioItem, portfolioItemId⟩]
  | .claim profileId _ => [⟨.profile, profileId⟩]
  | .claimComment claimId _ => [⟨.claim, claimId⟩]
  | .business profileId => [⟨.profile, profileId⟩]
  | .businessDocument businessId _ => [⟨.business, businessId⟩]
  | .cvScreening businessId => [⟨.business, businessId⟩]
  | .cvScreeningResume screeningId _ _ => [⟨.cvScreening, screeningId⟩]
  | .externalApplication jobOfferId _ _ => [⟨.jobOffer, jobOfferId⟩]
  | .other _ => []

/-- How far from a profile or a user the rows of a table hang at most. -/
def Table.rank : Table → ℕ
  | .profile | .user | .other => 0
  | .jobOffer | .contactRecord | .payment | .paymentRequest | .wallet | .log | .kycDocument
  | .kycVerificationImage | .file | .portfolioItem | .claim | .business => 1
  | .application | .invoice | .walletTransaction | .portfolioImage | .claimComment
  | .businessDocument | .cvScreening | .externalApplication => 2
  | .assignment | .contactUnlockAttempt | .penalty | .cvScreeningResume => 3

theorem rank_lt_of_mem_parents (d : Data) : ∀ q ∈ d.parents, q.table.rank < d.table.rank := by
  cases d <;> simp [Data.parents, Data.table, Table.rank, or_imp, forall_and]

theorem Table.rank_le (t : Table) : t.rank ≤ 3 := by
  cases t <;> decide

/-- The schema, as far as it cascades. -/
def schema : Cascade.Schema Row Ref where
  key := Row.ref
  parents r := r.data.parents
  rank r := r.data.table.rank
  rank_lt {q r} h := rank_lt_of_mem_parents r.data q.ref h

/-! ### Deleting -/

/-- The row is archived and is one of these. -/
def Row.isArchived (table : Table) (ids : List ℕ) (r : Row) : Bool :=
  r.data.table = table && decide (r.id ∈ ids) && r.deleted

/-- `SET NULL`: a contact record outlives its offer. -/
def Row.detach (gone : Ref → Bool) (r : Row) : Row :=
  match r.data with
  | .contactRecord employerId workerId (some jobOfferId) =>
    if gone ⟨.jobOffer, jobOfferId⟩ then
      { r with data := .contactRecord employerId workerId none }
    else r
  | _ => r

/-- What falls with the archived rows among these. -/
def falls (rows : List Row) (table : Table) (ids : List ℕ) : Row → Bool :=
  schema.falls rows (Row.isArchived table ids) 3

/-- The row that a reference names falls. -/
def gone (rows : List Row) (table : Table) (ids : List ℕ) (q : Ref) : Bool :=
  rows.any fun r => r.ref = q && falls rows table ids r

/-- `deleteMany` of the archived rows among these. -/
def deleteMany (rows : List Row) (table : Table) (ids : List ℕ) : List Row :=
  (schema.delete rows (Row.isArchived table ids) 3).map (Row.detach (gone rows table ids))

/-- What falls, along the schema. -/
abbrev Falls (rows : List Row) (table : Table) (ids : List ℕ) : Row → Prop :=
  schema.Falls rows (Row.isArchived table ids)

/-- What stays is what does not fall. -/
theorem mem_deleteMany {rows : List Row} {table : Table} {ids : List ℕ} {z : Row} :
    z ∈ deleteMany rows table ids ↔
      ∃ r ∈ rows, ¬ Falls rows table ids r ∧ r.detach (gone rows table ids) = z := by
  have hrank : ∀ r, schema.rank r ≤ 3 := fun r => Table.rank_le r.data.table
  rw [deleteMany, List.mem_map]
  constructor
  · rintro ⟨r, hr, rfl⟩
    obtain ⟨hmem, hfalls⟩ := (Cascade.Schema.mem_delete hrank).1 hr
    exact ⟨r, hmem, hfalls, rfl⟩
  · rintro ⟨r, hmem, hfalls, rfl⟩
    exact ⟨r, (Cascade.Schema.mem_delete hrank).2 ⟨hmem, hfalls⟩, rfl⟩

/-! ### Records of money -/

/-- Wallet movements that are real money, or spending it. -/
def moneyMoved : List WalletTransactionType :=
  [.topUpCredit, .mobileMoneyCredit, .mobileMoneyWithdrawal, .contactUnlockDebit,
    .contactUnlockPayment, .penaltyDebit]

/-- The row says that money has moved, or should have. -/
def Data.isRecord : Data → Bool
  | .payment _ => true
  | .invoice _ _ _ => true
  | .paymentRequest _ status => status = .approved
  | .walletTransaction _ type => type ∈ moneyMoved
  | .penalty _ _ paid => paid
  | .contactRecord _ _ _ => true
  | .contactUnlockAttempt _ _ _ _ employerPaid workerPaid => employerPaid || workerPaid
  | _ => false

end Rabotka.Archive

/-!
## What a profile leaves in storage

An object is stored under a key in a bucket. Rows name objects by their keys, or by a url that is
read back (`deriveKey`); before a profile is purged, the objects of its rows are collected
(`collectObjects`).

The parser of urls and the two decoders are those of the platform, and are given.
-/

namespace Rabotka.Archive

/-- What a url is parsed into; `signed` if it has a parameter `X-Amz-Signature`. -/
structure ParsedUrl where
  hostname : String
  pathname : String
  signed : Bool
  deriving DecidableEq

/-- How storage is set up, with the platform's `new URL`, `decodeURI` and `decodeURIComponent`;
nothing is answered where these throw. -/
structure Setting where
  publicBaseUrl : String
  publicBucket : Bucket
  kycBucket : Option Bucket
  parseUrl : String → Option ParsedUrl
  decodeURI : String → Option String
  decodeURIComponent : String → Option String

structure PurgeBlocker where
  label : String
  count : ℕ
  deriving DecidableEq

/-- What a call throws. -/
inductive Exn
  | conflict (blockers : List PurgeBlocker)
  | error (message : String)
  deriving DecidableEq

/-! ### Reading a url back -/

/-- `replace(/\/+$/, '')`. -/
def dropSlashes (s : String) : String :=
  String.ofList ((s.toList.reverse.dropWhile (· = '/')).reverse)

def uriError : Exn := .error "URI malformed"

/-- The bucket that a url names, and the key it has there; none if the url is not ours. -/
def deriveKey (s : Setting) (url : String) : Except Exn (Option StoredObject) :=
  let base := dropSlashes s.publicBaseUrl
  if base ≠ "" ∧ (base ++ "/").toList.isPrefixOf url.toList then
    match s.decodeURI (String.ofList (url.toList.drop (base.length + 1))) with
    | none => throw uriError
    | some path =>
      let key := String.ofList (path.toList.takeWhile (· ≠ '?'))
      return if key = "" then none else some { key }
  else
    match s.parseUrl url with
    | none => return none
    | some parsed =>
      if parsed.signed = false then return none
      else do
        let known := s.publicBucket :: s.kycBucket.toList
        let segments := (parsed.pathname.toList.splitOn '/').filter (· ≠ [])
        match ← segments.mapM fun segment =>
            ((s.decodeURIComponent (String.ofList segment)).elim (throw uriError) pure :
              Except Exn String) with
        | [] => return none
        | first :: rest =>
          -- virtual-hosted urls name the bucket in the host, path-style ones lead with it
          let label := String.ofList (parsed.hostname.toLower.toList.takeWhile (· ≠ '.'))
          match known.find? fun b => b.name = label with
          | some b => return some { key := "/".intercalate (first :: rest), bucket := some b }
          | none =>
            match known.find? fun b => b.name = first with
            | none => return some { key := "/".intercalate (first :: rest) }
            | some b =>
              return if rest = [] then none
                else some { key := "/".intercalate rest, bucket := some b }

/-- `/^https?:\/\//i`. -/
def isHttp (url : String) : Bool :=
  let l := url.toLower.toList
  "http://".toList.isPrefixOf l || "https://".toList.isPrefixOf l

/-- `url.includes(text)`. -/
def includes (url text : String) : Bool := url.toList.tails.any fun l => text.toList.isPrefixOf l

/-- What a stored url is still worth: only a legacy public one is. -/
def legacyKycUrl (storedUrl : String) : Option String :=
  if storedUrl = "" ∨ isHttp storedUrl = false ∨ includes storedUrl "X-Amz-Signature" then none
  else some storedUrl

/-! ### Collecting -/

/-- What is selected of a profile. -/
structure ProfileFiles where
  avatarUrl : Option String
  /-- Documents and verification images, by key and url. -/
  kyc : List (Option String × String)
  files : List String
  portfolioItems : List (List (Option String × String))
  /-- Claims about the profile, with their comments. -/
  claims : List (List String × List (List String))
  deriving DecidableEq

def profileFiles (rows : List Row) (p : Row) : ProfileFiles where
  avatarUrl := match p.data with
    | .profile avatarUrl => avatarUrl
    | _ => none
  kyc := rows.filterMap (fun r => match r.data with
      | .kycDocument profileId key url => if profileId = p.id then some (key, url) else none
      | _ => none) ++
    rows.filterMap fun r => match r.data with
      | .kycVerificationImage profileId key url =>
        if profileId = p.id then some (key, url) else none
      | _ => none
  files := rows.filterMap fun r => match r.data with
    | .file profileId _ key _ => if profileId = some p.id then some key else none
    | _ => none
  portfolioItems := rows.filterMap fun r => match r.data with
    | .portfolioItem profileId =>
      if profileId = p.id then
        some (rows.filterMap fun z => match z.data with
          | .portfolioImage portfolioItemId key url =>
            if portfolioItemId = r.id then some (key, url) else none
          | _ => none)
      else none
    | _ => none
  claims := rows.filterMap fun r => match r.data with
    | .claim profileId urls =>
      if profileId = p.id then
        some (urls, rows.filterMap fun z => match z.data with
          | .claimComment claimId urls => if claimId = r.id then some urls else none
          | _ => none)
      else none
    | _ => none

/-- The files of the archived profiles among these. -/
def findProfileFiles (rows : List Row) (profileIds : List ℕ) : List ProfileFiles :=
  (rows.filter (Row.isArchived .profile profileIds)).map (profileFiles rows)

/-- What each member of a list gives, one after the other. -/
def gather {α : Type} (f : α → Except Exn (List StoredObject)) :
    List α → Except Exn (List StoredObject)
  | [] => return []
  | a :: l => do return (← f a) ++ (← gather f l)

/-- A url that can be mapped back to one of our objects. -/
def fromUrl (s : Setting) (url : String) : Except Exn (List StoredObject) :=
  if url = "" then return [] else (deriveKey s url).map Option.toList

/-- An identity document: by its key in the private bucket, or by its legacy url. -/
def fromKyc (s : Setting) (d : Option String × String) : Except Exn (List StoredObject) :=
  match d.1.filter (· ≠ ""), s.kycBucket with
  | some key, some bucket => return [{ key, bucket := some bucket }]
  | some _, none => throw (.error "Neither storage.cloudflare.kyc_bucket_name (admin › configuration système) nor CLOUDFLARE_KYC_BUCKET_NAME is set. KYC documents must go to their own private bucket — refusing to upload identity documents to the public one.")
  | none, _ => gather (fromUrl s) (legacyKycUrl d.2).toList

/-- A picture: by its key, or by its url. -/
def fromImage (s : Setting) (d : Option String × String) : Except Exn (List StoredObject) :=
  match d.1.filter (· ≠ "") with
  | some key => return [{ key }]
  | none => fromUrl s d.2

/-- What is collected of a profile. -/
def collectProfile (s : Setting) (p : ProfileFiles) : Except Exn (List StoredObject) := do
  let avatar ← gather (fromUrl s) p.avatarUrl.toList
  let kyc ← gather (fromKyc s) p.kyc
  let portfolio ← gather (gather (fromImage s)) p.portfolioItems
  let claims ← gather (fun c => do
    return (← gather (fromUrl s) c.1) ++ (← gather (gather (fromUrl s)) c.2)) p.claims
  return avatar ++ kyc ++ p.files.map ({ key := · }) ++ portfolio ++ claims

/-- `${o.bucket ?? ''}/${o.key}`. -/
def StoredObject.id (o : StoredObject) : String := (o.bucket.elim "" Bucket.name) ++ "/" ++ o.key

/-- Each object once. -/
def distinct (seen : List String) : List StoredObject → List StoredObject
  | [] => []
  | o :: os => if o.id ∈ seen then distinct seen os else o :: distinct (o.id :: seen) os

/-- What is collected of the profiles. -/
def collectObjects (s : Setting) (profiles : List ProfileFiles) : Except Exn (List StoredObject) :=
  (gather (collectProfile s) profiles).map (distinct [])

end Rabotka.Archive
