import Rabotka.Lib.Service
import Rabotka.Lib.Table
import Rabotka.Lib.Text

/-!
# Interviews

A business proposes an interview, moves it or cancels it, the candidate answers through a private
link, and the day before both sides are reminded. Every operation reads the interview, checks it
and writes it by its identifier alone; a move resets the answer and the reminder and draws a new
link. Interviews are named by their position; the token of a link is a number that was not drawn
before, and stands for its hash too.

What other modules answer (whose business a profile runs, who the candidate is) is part of the
requests. The mails of an invitation, an answer and a cancellation are left out.
-/

namespace Rabotka.Interviews

open Async Text

/-! ### Rows -/

inductive InterviewMode
  | inPerson
  | video
  | phone
  deriving DecidableEq

inductive InterviewStatus
  | pending
  | confirmed
  | declined
  | rescheduleRequested
  | cancelled
  deriving DecidableEq

/-- What `slot` returns: the columns that a move writes. -/
structure Slot where
  startsAt : ℕ
  durationMinutes : ℕ
  mode : InterviewMode
  location : Option String
  message : Option String
  deriving DecidableEq

structure Interview extends Slot where
  businessId : ℕ
  jobTitle : String
  candidateName : String
  candidateEmail : Option String
  businessEmail : Option String
  status : InterviewStatus := .pending
  responseNote : Option String := none
  respondedAt : Option ℕ := none
  tokenHash : ℕ
  remindedAt : Option ℕ := none
  deriving DecidableEq

/-- The date and the place. -/
def Slot.whenWhere (s : Slot) : ℕ × ℕ × InterviewMode × Option String :=
  (s.startsAt, s.durationMinutes, s.mode, s.location)

/-- `INTERVIEW_DURATIONS`. -/
def interviewDurations : List ℕ := [15, 30, 45, 60, 90, 120]

/-- `MIN_LEAD_MS`. -/
def minLeadMs : ℕ := 15 * 60 * 1000

/-- `DAY_MS`. -/
def dayMs : ℕ := 24 * 60 * 60 * 1000

structure World where
  now : ℕ := 0
  serial : ℕ := 0
  interviews : List Interview := []
  deriving DecidableEq

/-! ### Requests -/

/-- What a business enters. -/
structure SlotInput where
  startsAt : Option ℕ
  durationMinutes : ℕ
  mode : InterviewMode
  location : Option String := none
  message : Option String := none
  deriving DecidableEq

/-- Who is invited, and for which job. -/
structure Candidate where
  name : String
  email : Option String
  businessEmail : Option String
  jobTitle : String
  deriving DecidableEq

/-- `InterviewAnswer`. -/
inductive InterviewAnswer
  | confirmed
  | declined
  | rescheduleRequested
  deriving DecidableEq

def InterviewAnswer.status : InterviewAnswer → InterviewStatus
  | .confirmed => .confirmed
  | .declined => .declined
  | .rescheduleRequested => .rescheduleRequested

/-- The two sides that are reminded. -/
inductive Side
  | candidate
  | business
  deriving DecidableEq

/-- `^https?:\/\/\S+$`, whatever the case. -/
def isVideoLink (s : String) : Bool :=
  let l := s.toList
  let lower := l.map Char.toLower
  let rest (n : ℕ) : Bool := (l.drop n).length ≠ 0 && (l.drop n).all fun c => !isSpace c
  ("http://".toList.isPrefixOf lower && rest 7) || ("https://".toList.isPrefixOf lower && rest 8)

/-- The slot of an input, or why it is refused. -/
def slot (now : ℕ) (input : SlotInput) : Except String Slot :=
  let location := trimmed input.location
  match input.startsAt with
  | none => .error "Choisissez une date à venir."
  | some startsAt =>
    if startsAt < now + minLeadMs then .error "Choisissez une date à venir."
    else if input.durationMinutes ∉ interviewDurations then
      .error "Durée non prise en charge."
    else if input.mode = .inPerson ∧ location = none then
      .error "Indiquez l’adresse de l’entretien."
    else if input.mode = .video ∧ !(location.any isVideoLink) then
      .error ("Collez le lien de la visio (Meet, Zoom, WhatsApp…), commençant par " ++ "https://")
    else .ok
      { startsAt, durationMinutes := input.durationMinutes, mode := input.mode
        location := location.map fun l => slice l 500
        message := ((input.message.map trim).map fun m => slice m 2000).filter (· ≠ "") }

/-! ### Calls -/

inductive Cmd
  | dateNow
  | create (businessId : ℕ) (candidate : Candidate) (slot : Slot)
  | findOwned (businessId id : ℕ)
  | findByToken (token : ℕ)
  | reschedule (id : ℕ) (slot : Slot)
  | cancel (id : ℕ)
  | answer (id : ℕ) (answer : InterviewAnswer) (note : Option String) (respondedAt : ℕ)
  | findDue (now : ℕ)
  | markReminded (id now : ℕ)
  | sendReminder (id : ℕ) (interview : Interview) (side : Side)
  | elapse (milliseconds : ℕ)

abbrev Resp : Cmd → Type
  | .dateNow => ℕ
  | .findOwned _ _ => Option Interview
  | .findByToken _ => Option (ℕ × Interview)
  | .findDue _ => List (ℕ × Interview)
  | .markReminded _ _ => Bool
  | _ => Unit

/-- The columns of a move. -/
def Interview.moved (r : Interview) (slot : Slot) (token : ℕ) : Interview :=
  { r with
    toSlot := slot, status := .pending, responseNote := none, respondedAt := none
    remindedAt := none, tokenHash := token }

/-- The columns of an answer. -/
def Interview.answered (r : Interview) (answer : InterviewAnswer) (note : Option String)
    (respondedAt : ℕ) : Interview :=
  { r with status := answer.status, responseNote := note, respondedAt := some respondedAt }

/-- A reminder of the interview is due. -/
def Interview.due (r : Interview) (now : ℕ) : Bool :=
  (r.status = .pending || r.status = .confirmed) && r.remindedAt = none && now < r.startsAt &&
    r.startsAt ≤ now + dayMs

/-- What a command does. -/
def exec (w : World) : (c : Cmd) → World × Resp c
  | .dateNow => (w, w.now)
  | .create businessId who slot =>
    ({ w with
      serial := w.serial + 1
      interviews := w.interviews ++ [{ slot with
        businessId, jobTitle := who.jobTitle, candidateName := who.name
        candidateEmail := who.email, businessEmail := who.businessEmail
        tokenHash := w.serial }] }, ())
  | .findOwned businessId id =>
    (w, (w.interviews[id]?).filter fun r => r.businessId = businessId)
  | .findByToken token => (w, Table.findFirst w.interviews fun r => r.tokenHash = token)
  | .reschedule id slot =>
    ({ w with
      serial := w.serial + 1
      interviews := Table.update w.interviews id fun r => r.moved slot w.serial }, ())
  | .cancel id =>
    ({ w with
      interviews := Table.update w.interviews id fun r => { r with status := .cancelled } }, ())
  | .answer id answer note respondedAt =>
    ({ w with
      interviews := Table.update w.interviews id fun r => r.answered answer note respondedAt }, ())
  | .findDue now => (w, (Table.findMany w.interviews fun _ r => r.due now).take 200)
  | .markReminded id now =>
    match Table.claim w.interviews id (fun r => r.remindedAt = none)
      fun r => { r with remindedAt := some now } with
    | none => (w, false)
    | some interviews => ({ w with interviews }, true)
  | .sendReminder _ _ _ => (w, ())
  | .elapse milliseconds => ({ w with now := w.now + milliseconds }, ())

/-! ### Operations -/

/-- What an operation throws. -/
structure Exn where
  message : String
  deriving DecidableEq

/-- An operation of this service. -/
abbrev Prog (α : Type) := Op Resp Exn α

/-- Issues one call. -/
def issue (c : Cmd) : Prog (Resp c) := Op.cmd c

def refuse {α : Type} (message : String) : Prog α := throw ⟨message⟩

/-- `slot`, at the instant of the call. -/
def readSlot (input : SlotInput) : Prog Slot := do
  let now ← issue .dateNow
  match slot now input with
  | .error message => refuse message
  | .ok s => return s

def create (businessId : ℕ) (candidate : Candidate) (input : SlotInput) : Prog Unit := do
  let s ← readSlot input
  issue (.create businessId candidate s)

def owned (businessId id : ℕ) : Prog Interview := do
  match ← issue (.findOwned businessId id) with
  | none => refuse "Entretien introuvable."
  | some interview => return interview

def reschedule (businessId id : ℕ) (input : SlotInput) : Prog Unit := do
  let interview ← owned businessId id
  if interview.status = .cancelled then refuse "Cet entretien est annulé."
  else
    let s ← readSlot input
    issue (.reschedule id s)

def cancel (businessId id : ℕ) : Prog Unit := do
  let interview ← owned businessId id
  if interview.status = .cancelled then return
  else issue (.cancel id)

/-- The note of an answer, without the white space around it. -/
def cleanNote (note : Option String) : Option String :=
  ((note.map trim).map fun n => slice n 1000).filter (· ≠ "")

def respond (token : ℕ) (answer : InterviewAnswer) (note : Option String) : Prog Unit := do
  match ← issue (.findByToken token) with
  | none => refuse "Invitation introuvable ou remplacée par une plus récente."
  | some (id, interview) =>
    if interview.status = .cancelled then refuse "Cet entretien a été annulé."
    else
      let now ← issue .dateNow
      if interview.startsAt < now then refuse "Cet entretien est passé."
      else if answer = .rescheduleRequested ∧ cleanNote note = none then
        refuse "Indiquez les moments qui vous conviennent."
      else
        let respondedAt ← issue .dateNow
        issue (.answer id answer (cleanNote note) respondedAt)

/-- The reminder of one interview goes to both sides. -/
def sendReminders (z : ℕ × Interview) : Prog Unit := do
  issue (.sendReminder z.1 z.2 .candidate)
  issue (.sendReminder z.1 z.2 .business)

def sendIf (z : ℕ × Interview) (marked : Bool) : Prog Unit :=
  if marked then sendReminders z else return

/-- One round of `remind`. -/
def remindOne (now : ℕ) (z : ℕ × Interview) : Prog Unit := do
  let marked ← issue (.markReminded z.1 now)
  sendIf z marked

def remind : Prog Unit := do
  let now ← issue .dateNow
  let due ← issue (.findDue now)
  due.forM (remindOne now)

inductive Request
  | create (businessId : ℕ) (candidate : Candidate) (input : SlotInput)
  | reschedule (businessId id : ℕ) (input : SlotInput)
  | cancel (businessId id : ℕ)
  | respond (token : ℕ) (answer : InterviewAnswer) (note : Option String)
  | remind
  | elapse (milliseconds : ℕ)

def handler : Request → Prog Unit
  | .create businessId candidate input => Interviews.create businessId candidate input
  | .reschedule businessId id input => Interviews.reschedule businessId id input
  | .cancel businessId id => Interviews.cancel businessId id
  | .respond token answer note => Interviews.respond token answer note
  | .remind => Interviews.remind
  | .elapse milliseconds => issue (.elapse milliseconds)

/-- The interviews with everything that touches them. -/
def service : Service World Cmd Resp Request Unit Exn where
  exec w _ c _ := some (exec w c)
  handler := handler

end Rabotka.Interviews
