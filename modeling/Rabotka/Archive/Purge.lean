import Rabotka.Lib.Trace
import Rabotka.Archive.Schema

/-!
# Purging archived rows

A purge counts what keeps the rows from being purged, lets its caller collect what it needs of
them, and deletes those that are archived (`purge`). What keeps a row is a table of relations for
every entity (`archiveRegistry`). The transaction sees at each statement what is committed then;
the counts are statements of their own, the deletion is one with all that falls with it, and comes
last, so that nothing has to be rolled back.

Everybody else inserts rows, whose parents must be there, and changes them.
-/

namespace Rabotka.Archive

open Async

inductive ArchiveEntity
  | profiles | users | jobs | applications | penalties | paymentRequests | walletTransactions
  deriving DecidableEq

/-- A relation whose presence keeps a row: the rows of the entity that a row of it belongs to. -/
structure Relation where
  label : String
  owners : List Row → Row → List ℕ

/-- Rows that may never be purged. -/
structure SelfBlocked where
  where_ : Data → Bool
  label : String

structure ArchiveConfig where
  model : Table
  relations : List Relation
  selfBlocked : Option SelfBlocked := none

/-! ### The registry -/

def payments : Relation where
  label := "paiements"
  owners _ r := match r.data with
    | .payment profileId => [profileId]
    | _ => []

def paymentRequests : Relation where
  label := "demandes de paiement"
  owners _ r := match r.data with
    | .paymentRequest profileId _ => [profileId]
    | _ => []

def invoices : Relation where
  label := "factures"
  owners _ r := match r.data with
    | .invoice profileId _ _ => [profileId]
    | _ => []

def contactRecordsAsEmployer : Relation where
  label := "contacts payés"
  owners _ r := match r.data with
    | .contactRecord employerId _ _ => [employerId]
    | _ => []

def contactRecordsAsWorker : Relation where
  label := "contacts payés (reçus)"
  owners _ r := match r.data with
    | .contactRecord _ workerId _ => [workerId]
    | _ => []

def unlockAttemptsAsEmployer : Relation where
  label := "déblocages de contact payés"
  owners _ r := match r.data with
    | .contactUnlockAttempt _ _ _ employerId employerPaid _ =>
      if employerPaid then [employerId] else []
    | _ => []

def unlockAttemptsAsWorker : Relation where
  label := "déblocages de contact payés"
  owners _ r := match r.data with
    | .contactUnlockAttempt _ _ workerId _ _ workerPaid => if workerPaid then [workerId] else []
    | _ => []

def paidPenalties : Relation where
  label := "pénalités payées"
  owners _ r := match r.data with
    | .penalty profileId _ paid => if paid then [profileId] else []
    | _ => []

/-- Money has moved on the wallet. -/
def hasMoved (rows : List Row) (walletId : ℕ) : Bool :=
  rows.any fun r => match r.data with
    | .walletTransaction walletId' type => walletId' = walletId && type ∈ moneyMoved
    | _ => false

def wallets : Relation where
  label := "mouvements d'argent sur le portefeuille"
  owners rows r := match r.data with
    | .wallet _ profileId => if hasMoved rows r.id then profileId.toList else []
    | _ => []

def logs : Relation where
  label := "entrées du journal d'audit"
  owners _ r := match r.data with
    | .log userId _ => userId.toList
    | _ => []

def applicationsOfJob : Relation where
  label := "candidatures"
  owners _ r := match r.data with
    | .application jobOfferId _ => [jobOfferId]
    | _ => []

def assignmentsOfJob : Relation where
  label := "missions"
  owners _ r := match r.data with
    | .assignment _ jobOfferId _ => [jobOfferId]
    | _ => []

def unlockAttemptsOfJob : Relation where
  label := "déverrouillages de contact"
  owners _ r := match r.data with
    | .contactUnlockAttempt _ jobOfferId _ _ _ _ => [jobOfferId]
    | _ => []

def contactRecordsOfJob : Relation where
  label := "contacts payés"
  owners _ r := match r.data with
    | .contactRecord _ _ jobOfferId => jobOfferId.toList
    | _ => []

def penaltiesOfApplication : Relation where
  label := "pénalités"
  owners _ r := match r.data with
    | .penalty _ applicationId _ => applicationId.toList
    | _ => []

def archiveRegistry : ArchiveEntity → ArchiveConfig
  | .profiles =>
    { model := .profile
      relations := [payments, paymentRequests, invoices, contactRecordsAsEmployer,
        contactRecordsAsWorker, unlockAttemptsAsEmployer, unlockAttemptsAsWorker, paidPenalties,
        wallets] }
  | .users => { model := .user, relations := [logs] }
  | .jobs =>
    { model := .jobOffer
      relations := [applicationsOfJob, assignmentsOfJob, unlockAttemptsOfJob,
        contactRecordsOfJob] }
  | .applications => { model := .application, relations := [penaltiesOfApplication] }
  | .penalties =>
    { model := .penalty
      relations := []
      selfBlocked := some
        { where_ := fun d => match d with
            | .penalty _ _ paid => paid
            | _ => false
          label := "pénalités déjà payées" } }
  | .paymentRequests =>
    { model := .paymentRequest
      relations := []
      selfBlocked := some
        { where_ := fun d => match d with
            | .paymentRequest _ status => status = .approved
            | _ => false
          label := "demandes de paiement approuvées" } }
  | .walletTransactions =>
    { model := .walletTransaction
      relations := []
      selfBlocked := some
        { where_ := fun _ => true, label := "écritures de portefeuille (jamais supprimables)" } }

/-! ### Calls -/

/-- The tables, and what is stored in which bucket. -/
structure World where
  rows : List Row := []
  objects : List (Bucket × String) := []
  deriving DecidableEq

/-- How many of these rows of a table are in a condition, in which they may be with others. -/
def count (rows : List Row) (model : Table) (ids : List ℕ) (q : List Row → Row → Bool) : ℕ :=
  rows.countP fun r => r.data.table = model && decide (r.id ∈ ids) && q rows r

/-- `[rel.field]: { some: rel.where }`. -/
def Relation.some (rel : Relation) (rows : List Row) (r : Row) : Bool :=
  rows.any fun z => r.id ∈ rel.owners rows z

def SelfBlocked.some (b : SelfBlocked) (_ : List Row) (r : Row) : Bool := b.where_ r.data

inductive Cmd
  | count (model : Table) (ids : List ℕ) (q : List Row → Row → Bool)
  | findProfileFiles (profileIds : List ℕ)
  | deleteMany (model : Table) (ids : List ℕ)
  | updateMany (model : Table) (ids : List ℕ)
  | deleteObject (o : StoredObject)
  | write (row : Row)

abbrev Resp : Cmd → Type
  | .count _ _ _ => ℕ
  | .findProfileFiles _ => List ProfileFiles
  | .deleteMany _ _ => ℕ
  | .updateMany _ _ => ℕ
  | .deleteObject _ => Unit
  | .write _ => Bool

/-- Where an object is. -/
def StoredObject.place (s : Setting) (o : StoredObject) : Bucket × String :=
  (o.bucket.getD s.publicBucket, o.key)

/-- The parents of the row are there. -/
def admits (rows : List Row) (row : Row) : Bool :=
  row.data.parents.all fun q => rows.any fun r => r.ref = q

/-- What a command does. -/
def exec (s : Setting) (w : World) : (c : Cmd) → World × Resp c
  | .count model ids q => (w, count w.rows model ids q)
  | .findProfileFiles profileIds => (w, findProfileFiles w.rows profileIds)
  | .deleteMany model ids =>
    ({ w with rows := deleteMany w.rows model ids }, w.rows.countP (Row.isArchived model ids))
  | .updateMany model ids =>
    ({ w with rows := w.rows.map fun r =>
        if r.isArchived model ids then { r with deleted := false } else r },
      w.rows.countP (Row.isArchived model ids))
  | .deleteObject o => ({ w with objects := w.objects.filter (· ≠ o.place s) }, ())
  | .write row =>
    if admits w.rows row then
      ({ w with rows := (w.rows.filter fun r => r.ref ≠ row.ref) ++ [row] }, true)
    else (w, false)

/-! ### Operations -/

/-- An operation of this service. -/
abbrev Prog (α : Type) := Op Resp Exn α

/-- Issues one call. -/
def issue (c : Cmd) : Prog (Resp c) := Op.cmd c

/-- Counts the relations, one after the other. -/
def countRelations (model : Table) (ids : List ℕ) : List Relation → Prog (List PurgeBlocker)
  | [] => return []
  | rel :: rels => do
    let n ← issue (.count model ids rel.some)
    let blockers ← countRelations model ids rels
    return ⟨rel.label, n⟩ :: blockers

/-- Adds to the count of a label, where there is something to add. -/
def tally (counts : List PurgeBlocker) (b : PurgeBlocker) : List PurgeBlocker :=
  if b.count = 0 then counts
  else if counts.any fun z => z.label = b.label then
    counts.map fun z => if z.label = b.label then { z with count := z.count + b.count } else z
  else counts ++ [b]

/-- Counts the rows that may never be purged. -/
def countSelf (config : ArchiveConfig) (ids : List ℕ) : Prog (List PurgeBlocker) :=
  match config.selfBlocked with
  | none => return []
  | some b => do
    let n ← issue (.count config.model ids b.some)
    return [⟨b.label, n⟩]

def countBlockers (entity : ArchiveEntity) (ids : List ℕ) : Prog (List PurgeBlocker) := do
  let config := archiveRegistry entity
  let own ← countSelf config ids
  let blockers ← countRelations config.model ids config.relations
  return (own ++ blockers).foldl tally []

structure PurgeResult where
  count : ℕ
  collected : List StoredObject := []
  deriving DecidableEq

/-- What a purge refuses to do. -/
def refuse {α : Type} (blockers : List PurgeBlocker) : Prog α := throw (.conflict blockers)

def purge (entity : ArchiveEntity) (ids : List ℕ)
    (collect : List ℕ → Prog (List StoredObject)) : Prog PurgeResult := do
  if ids = [] then return { count := 0 }
  else
    let blockers ← countBlockers entity ids
    if blockers ≠ [] then refuse blockers
    else
      let collected ← collect ids
      let count ← issue (.deleteMany (archiveRegistry entity).model ids)
      return { count, collected }

def restore (entity : ArchiveEntity) (ids : List ℕ) : Prog ℕ := do
  if ids = [] then return 0 else issue (.updateMany (archiveRegistry entity).model ids)

/-- `ProfileFilesService.collect`. -/
def collect (s : Setting) (profileIds : List ℕ) : Prog (List StoredObject) := do
  if profileIds = [] then return []
  else
    let profiles ← issue (.findProfileFiles profileIds)
    match collectObjects s profiles with
    | .ok objects => return objects
    | .error e => throw e

/-- `ProfileFilesService.remove`: an object that cannot be deleted is left. -/
def remove : List StoredObject → Prog Unit
  | [] => return
  | o :: objects => do
    try issue (.deleteObject o) catch _ => pure ()
    remove objects

/-- The profiles are purged, and then their files. -/
def bulkPurge (s : Setting) (ids : List ℕ) : Prog ℕ := do
  let result ← purge .profiles ids (collect s)
  remove result.collected
  return result.count

inductive Request
  | purge (entity : ArchiveEntity) (ids : List ℕ)
  | bulkPurge (ids : List ℕ)
  | restore (entity : ArchiveEntity) (ids : List ℕ)
  | write (row : Row)

def handler (s : Setting) : Request → Prog Unit
  | .purge entity ids => do let _ ← purge entity ids fun _ => return []
  | .bulkPurge ids => do let _ ← bulkPurge s ids
  | .restore entity ids => do let _ ← restore entity ids
  | .write row => do let _ ← issue (.write row)

/-- Purges, with everything that writes the rows. -/
def service (s : Setting) : Service World Cmd Resp Request Unit Exn where
  exec w _ c _ := some (exec s w c)
  handler := handler s

end Rabotka.Archive
