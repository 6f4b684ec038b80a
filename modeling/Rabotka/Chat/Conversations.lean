import Rabotka.Lib.Service
import Rabotka.Lib.Table
import Rabotka.Lib.Text

/-!
# Conversations

A worker and an employer share one conversation, opened from an application of the worker or
directly by either of them. The row keeps its parties and the application it is about, not who
started it. A direct conversation is inserted after a count: so many may be started in 24 hours.

Profiles, applications and conversations are named by their positions. The types of the profiles,
the parties of the applications and the configured number do not change (`Setting`); whether a row
is deleted, an account active, an application alive, messaging switched on and a plan running is
chosen by the environment at each read.
-/

namespace Rabotka.Chat

open Async Text

/-! ### Rows -/

inductive ProfileType
  | worker
  | employer
  deriving DecidableEq

inductive AccountStatus
  | pendingActivation
  | active
  | suspended
  | banned
  deriving DecidableEq

inductive ApplicationStatus
  | pending
  | viewed
  | waitingPayment
  | accepted
  | rejected
  | cancelled
  | started
  | «end»
  deriving DecidableEq

/-- `LIVE_APPLICATION_STATUSES`. -/
def liveApplicationStatuses : List ApplicationStatus :=
  [.pending, .viewed, .waitingPayment, .accepted, .started]

/-- Who applied, and to whose offer. -/
structure Application where
  workerId : ℕ
  employerId : ℕ
  deriving DecidableEq

/-- What does not change during a run. Only workers apply, and only employers publish offers. -/
structure Setting where
  profiles : List ProfileType
  applications : List Application
  maxNewConversations : Option String := none
  roles : ∀ a ∈ applications, profiles[a.workerId]? = some .worker ∧
    profiles[a.employerId]? = some .employer

structure Conversation where
  workerId : ℕ
  employerId : ℕ
  applicationId : Option ℕ
  createdAt : ℕ
  deriving DecidableEq

structure World where
  now : ℕ := 0
  conversations : List Conversation := []
  deriving DecidableEq

/-! ### The daily cap -/

/-- `DEFAULT_MAX_NEW_CONVERSATIONS`. -/
def defaultMaxNewConversations : ℕ := 20

/-- 24 hours, in milliseconds. -/
def dayMs : ℕ := 24 * 60 * 60 * 1000

/-- The digits at the start of a text, as a number. -/
def leadingNumber (l : List Char) : Option ℕ :=
  match l.takeWhile Char.isDigit with
  | [] => none
  | digits => some (digits.foldl (fun n c => 10 * n + (c.toNat - '0'.toNat)) 0)

/-- `Number.parseInt(raw, 10)` where it is finite and not negative. -/
def parseCount (raw : String) : Option ℕ :=
  let count := match raw.toList.dropWhile isSpace with
    | '-' :: l => (leadingNumber l).filter (· = 0)
    | '+' :: l => leadingNumber l
    | l => leadingNumber l
  -- what is rounded to 2 ^ 1024 is infinite
  count.filter (· < 2 ^ 1024 - 2 ^ 970)

/-- `maxNewConversationsPerDay`. -/
def Setting.cap (s : Setting) : ℕ :=
  (parseCount (s.maxNewConversations.getD (toString defaultMaxNewConversations))).getD
    defaultMaxNewConversations

/-! ### Calls -/

/-- The two requests that open a conversation. -/
inductive Opening
  | forApplication (applicationId actorId : ℕ)
  | withProfile (counterpartId actorId : ℕ)
  deriving DecidableEq

/-- What the environment chooses at a read. -/
structure Env where
  present : Bool := true
  account : AccountStatus := .active
  application : ApplicationStatus := .pending
  allowed : Bool := true
  deriving DecidableEq

/-- A profile, as it is read. -/
structure Profile where
  profileType : ProfileType
  status : AccountStatus
  deriving DecidableEq

/-- What an insert answers: the row, or which constraint refuses it. -/
inductive Inserted
  | row (id : ℕ) (conversation : Conversation)
  | taken
  | sameParties
  deriving DecidableEq

/-- An insert says which request it serves; the row does not keep it. A reply ends a request. -/
inductive Cmd
  | isEnabled
  | findApplication (id : ℕ)
  | findProfile (id : ℕ)
  | findPair (workerId employerId : ℕ)
  | assertCanMessage (profileId : ℕ)
  | dateNow
  | countDirect (since actorId : ℕ)
  | create (opening : Opening) (workerId employerId : ℕ) (applicationId : Option ℕ)
  | update (id applicationId : ℕ)
  | reply (opening : Opening) (id : ℕ)
  | elapse (milliseconds : ℕ)

abbrev Resp : Cmd → Type
  | .isEnabled => Bool
  | .findApplication _ => Option (Application × ApplicationStatus)
  | .findProfile _ => Option Profile
  | .findPair _ _ => Option (ℕ × Conversation)
  | .assertCanMessage _ => Bool
  | .dateNow => ℕ
  | .countDirect _ _ => ℕ
  | .create _ _ _ _ => Inserted
  | .update _ _ => Option Conversation
  | _ => Unit

/-- The conversation has these parties. -/
def Conversation.isOf (r : Conversation) (workerId employerId : ℕ) : Bool :=
  r.workerId = workerId && r.employerId = employerId

/-- The profile is a party of the conversation. -/
def Conversation.hasParty (r : Conversation) (profileId : ℕ) : Bool :=
  r.workerId = profileId || r.employerId = profileId

/-- What `assertUnderDailyCap` counts. -/
def Conversation.counted (since actorId : ℕ) (r : Conversation) : Bool :=
  r.applicationId = none && since ≤ r.createdAt && r.hasParty actorId

/-- What a command does. -/
def exec (s : Setting) (w : World) (ε : Env) : (c : Cmd) → World × Resp c
  | .isEnabled => (w, ε.allowed)
  | .findApplication id =>
    (w, if ε.present then (s.applications[id]?).map fun a => (a, ε.application) else none)
  | .findProfile id =>
    (w, if ε.present then (s.profiles[id]?).map fun t => ⟨t, ε.account⟩ else none)
  | .findPair workerId employerId =>
    (w, Table.findFirst w.conversations fun r => r.isOf workerId employerId)
  | .assertCanMessage _ => (w, ε.allowed)
  | .dateNow => (w, w.now)
  | .countDirect since actorId => (w, w.conversations.countP fun r => r.counted since actorId)
  | .create _ workerId employerId applicationId =>
    if workerId = employerId then (w, .sameParties)
    else if w.conversations.any fun r => r.isOf workerId employerId then (w, .taken)
    else
      let r : Conversation := { workerId, employerId, applicationId, createdAt := w.now }
      ({ w with conversations := w.conversations ++ [r] }, .row w.conversations.length r)
  | .update id applicationId =>
    let conversations := Table.update w.conversations id fun r =>
      { r with applicationId := some applicationId }
    ({ w with conversations }, conversations[id]?)
  | .reply _ _ => (w, ())
  | .elapse milliseconds => ({ w with now := w.now + milliseconds }, ())

/-! ### Operations -/

/-- What an operation throws. -/
structure Exn where
  message : String
  deriving DecidableEq

/-- An operation of this service. -/
abbrev Prog (α : Type) := Op Resp Exn α

/-- Issues one call. -/
def issue (c : Cmd) : Prog (Resp c) := Op.cmd c

def refuse {α : Type} (message : String) : Prog α := throw ⟨message⟩

/-- `assertCanMessage`: a business needs a plan. -/
def assertCanMessage (actorId : ℕ) : Prog Unit := do
  if ← issue (.assertCanMessage actorId) then return
  else refuse "Choisissez une formule depuis votre espace, rubrique « Abonnement », pour écrire aux candidats."

def createPair (opening : Opening) (workerId employerId : ℕ) (applicationId : Option ℕ) :
    Prog (ℕ × Conversation) := do
  match ← issue (.create opening workerId employerId applicationId) with
  | .row id r => return (id, r)
  | .sameParties => refuse "profile_conversations_distinct_parties"
  | .taken =>
    match ← issue (.findPair workerId employerId) with
    | some raced => return raced
    | none => refuse "P2002"

/-- The thread that the pair has, pointed at a live application. -/
def pointAt (applicationId : ℕ) (status : ApplicationStatus) (existing : ℕ × Conversation) :
    Prog (ℕ × Conversation) := do
  if existing.2.applicationId ≠ some applicationId ∧ status ∈ liveApplicationStatuses then
    match ← issue (.update existing.1 applicationId) with
    | some r => return (existing.1, r)
    | none => refuse "P2025"
  else return existing

def openForApplication (applicationId actorId : ℕ) : Prog (ℕ × Conversation) := do
  match ← issue (.findApplication applicationId) with
  | none => refuse "Candidature introuvable"
  | some (a, status) =>
    if actorId ≠ a.workerId ∧ actorId ≠ a.employerId then
      refuse "Cette candidature ne vous concerne pas"
    else
      match ← issue (.findPair a.workerId a.employerId) with
      | some existing => pointAt applicationId status existing
      | none =>
        if status ∉ liveApplicationStatuses then
          refuse "Cette candidature est terminée, la discussion ne peut pas commencer"
        else
          assertCanMessage actorId
          createPair (.forApplication applicationId actorId) a.workerId a.employerId
            (some applicationId)

def assertUnderDailyCap (s : Setting) (actorId : ℕ) : Prog Unit := do
  if s.cap = 0 then return
  else
    let now ← issue .dateNow
    let started ← issue (.countDirect (now - dayMs) actorId)
    if s.cap ≤ started then
      refuse "Vous avez ouvert trop de discussions aujourd’hui, réessayez demain"
    else return

/-- Who is the worker and who the employer, where the actor is of this type. -/
def roles (actorType : ProfileType) (counterpartId actorId : ℕ) : ℕ × ℕ :=
  if actorType = .employer then (counterpartId, actorId) else (actorId, counterpartId)

/-- The one thread of the pair, created within the cap if there is none. -/
def openPair (s : Setting) (counterpartId actorId : ℕ) (pair : ℕ × ℕ) :
    Prog (ℕ × Conversation) := do
  match ← issue (.findPair pair.1 pair.2) with
  | some existing => return existing
  | none =>
    assertCanMessage actorId
    assertUnderDailyCap s actorId
    createPair (.withProfile counterpartId actorId) pair.1 pair.2 none

def openWithProfile (s : Setting) (counterpartId actorId : ℕ) : Prog (ℕ × Conversation) := do
  if counterpartId = actorId then refuse "Vous ne pouvez pas vous écrire à vous-même"
  else
    let enabled ← issue .isEnabled
    if enabled = false then refuse "La messagerie est momentanément indisponible"
    else
      let actor ← issue (.findProfile actorId)
      let counterpart ← issue (.findProfile counterpartId)
      match actor, counterpart with
      | some actor, some counterpart =>
        if counterpart.status ≠ .active then refuse "Profil introuvable"
        else if actor.profileType = counterpart.profileType then
          refuse "Une discussion relie un employeur et un travailleur"
        else openPair s counterpartId actorId (roles actor.profileType counterpartId actorId)
      | _, _ => refuse "Profil introuvable"

/-- The handler of a request replies with the conversation. -/
def reply (opening : Opening) (found : Prog (ℕ × Conversation)) : Prog Unit := do
  let conversation ← found
  issue (.reply opening conversation.1)

inductive Request
  | opening (o : Opening)
  | elapse (milliseconds : ℕ)

def handler (s : Setting) : Request → Prog Unit
  | .opening (.forApplication applicationId actorId) =>
    reply (.forApplication applicationId actorId) (openForApplication applicationId actorId)
  | .opening (.withProfile counterpartId actorId) =>
    reply (.withProfile counterpartId actorId) (openWithProfile s counterpartId actorId)
  | .elapse milliseconds => issue (.elapse milliseconds)

/-- The conversations with everything that opens them. -/
def service (s : Setting) : Service World Cmd Resp Request Env Exn where
  exec w _ c ε := some (exec s w ε c)
  handler := handler s

end Rabotka.Chat
