import Rabotka.Hiring.Schema
import Rabotka.Lib.Text

/-!
# What an employer asks to publish

The terms of an offer and the questions it asks its candidates, as they are sent
(`CreateJobOfferDto`), and the checks they pass before anything is charged: `validateCreateDto` and
`normalizeQuestions`. Whether a text contains contacts is a parameter.
-/

namespace Rabotka.Publishing

open Hiring (EmploymentType JobOfferStatus)

/-- What an operation throws. -/
structure Exn where
  message : String
  deriving DecidableEq

/-! ### Questions -/

inductive OfferQuestionKind
  | yesNo
  | choice
  | shortText
  deriving DecidableEq

structure QuestionInput where
  kind : OfferQuestionKind
  label : String
  options : List String := []
  required : Option Bool := none
  knockout : Bool := false
  accepted : List String := []
  deriving DecidableEq

structure QuestionRow where
  kind : OfferQuestionKind
  label : String
  options : List String
  required : Bool
  knockout : Bool
  accepted : List String
  position : ℕ
  deriving DecidableEq

/-- `MAX_QUESTIONS`. -/
def maxQuestions : ℕ := 5

/-- `LABEL_MAX`. -/
def labelMax : ℕ := 140

/-- `OPTION_MAX`. -/
def optionMax : ℕ := 60

/-- `replace(/\s+/g, ' ')`. -/
def collapse : List Char → List Char
  | [] => []
  | c :: l =>
    if Text.isSpace c then
      match collapse l with
      | ' ' :: l' => ' ' :: l'
      | l' => ' ' :: l'
    else c :: collapse l

/-- The options of a choice, and which of them are accepted. -/
def choice (label : String) (q : QuestionInput) : Except Exn (List String × List String) := do
  let options := ((q.options.map Text.trim).filter (· ≠ "")).eraseDups
  if options.length < 2 ∨ 6 < options.length then
    throw ⟨s!"« {label} » : proposez de 2 à 6 réponses."⟩
  else if options.any fun o => optionMax < o.length then
    throw ⟨s!"Une réponse proposée fait {optionMax} caractères au plus."⟩
  else if q.knockout then
    let accepted := q.accepted.eraseDups.filter (· ∈ options)
    if accepted = [] ∨ accepted.length = options.length then
      throw ⟨s!"« {label} » : choisissez les réponses acceptées, sans les prendre toutes."⟩
    else return (options, accepted)
  else return (options, [])

/-- The options and the accepted answers of a question. -/
def answers (label : String) (q : QuestionInput) : Except Exn (List String × List String) :=
  match q.kind with
  | .choice => choice label q
  | .yesNo =>
    if q.knockout then
      match q.accepted with
      | "yes" :: _ => return ([], ["yes"])
      | "no" :: _ => return ([], ["no"])
      | _ => throw ⟨s!"« {label} » : indiquez la réponse attendue (oui ou non)."⟩
    else return ([], [])
  | .shortText =>
    if q.knockout then throw ⟨"Une réponse libre ne peut pas être éliminatoire."⟩
    else return ([], [])

variable (detectContacts : String → Bool)

def normalizeQuestion (position : ℕ) (q : QuestionInput) : Except Exn QuestionRow := do
  let label := String.ofList (collapse (Text.trim q.label).toList)
  if label.length < 3 ∨ labelMax < label.length then
    throw ⟨s!"Chaque question fait entre 3 et {labelMax} caractères."⟩
  else if detectContacts label then
    throw ⟨"Une question ne peut pas contenir de coordonnées."⟩
  else
    let (options, accepted) ← answers label q
    return {
      kind := q.kind
      label
      options
      required := q.knockout || q.required.getD true
      knockout := q.knockout
      accepted
      position }

/-- The questions, cleaned and checked, ready to store. -/
def normalizeQuestions (input : List QuestionInput) : Except Exn (List QuestionRow) :=
  if maxQuestions < input.length then throw ⟨s!"{maxQuestions} questions au plus par offre."⟩
  else input.zipIdx.mapM fun z => normalizeQuestion detectContacts z.2 z.1

/-! ### Terms -/

/-- A date as it is sent: an instant, or a text that is no date. -/
inductive SentDate
  | at (instant : ℤ)
  | unreadable
  deriving DecidableEq

structure CreateJobOfferDto where
  title : String
  description : String
  employmentType : Option EmploymentType := none
  scheduledAt : Option SentDate := none
  amount : Option ℤ := none
  address : Option String := none
  isRemote : Bool := false
  note : Option String := none
  quantity : Option ℤ := none
  questions : List QuestionInput := []
  deriving DecidableEq

/-- `isDatedMission`. -/
def isDatedMission (employmentType : Option EmploymentType) : Bool :=
  employmentType.all fun t => !t.closesOnFill

/-- The trimmed text has so many characters. -/
def fits (least most : ℕ) (text : String) : Bool :=
  least ≤ (Text.trim text).length && (Text.trim text).length ≤ most

def validateCreateDto (dto : CreateJobOfferDto) : Except Exn Unit :=
  if ¬ fits 5 100 dto.title then
    throw ⟨"Le titre doit contenir entre 5 et 100 caractères"⟩
  else if ¬ fits 20 1000 dto.description then
    throw ⟨"La description doit contenir entre 20 et 1000 caractères"⟩
  else if dto.scheduledAt = none then
    throw ⟨if isDatedMission dto.employmentType then "La date de la mission est requise"
      else "La date de clôture des candidatures est requise"⟩
  else if dto.scheduledAt = some .unreadable then throw ⟨"Format de date invalide"⟩
  else if dto.amount.any fun a => a < 1000 ∨ 1000000 < a then
    throw ⟨"Le montant doit être entre 1000 et 1000000 FCFA"⟩
  else if dto.address.any fun a => 0 < (Text.trim a).length ∧ (Text.trim a).length < 10 then
    throw ⟨"L'adresse doit contenir au moins 10 caractères"⟩
  else if dto.note.any fun n => 500 < n.length then
    throw ⟨"La note ne peut pas dépasser 500 caractères"⟩
  else if dto.quantity.any fun n => n < 1 ∨ 100 < n then
    throw ⟨"Le nombre de personnes doit être entre 1 et 100"⟩
  else return ()

/-! ### Offers -/

structure JobOffer where
  employerId : ℕ
  title : String := ""
  description : String := ""
  employmentType : EmploymentType := .mission
  scheduledAt : Option ℤ
  amount : Option ℤ := none
  isRemote : Bool := false
  address : Option String := none
  note : Option String := none
  quantity : ℤ := 1
  status : JobOfferStatus := .active
  priorityUntil : Option ℤ := none
  reference : String
  deleted : Bool := false
  deriving DecidableEq

/-- The row of a new offer, with its reference still to come. -/
def CreateJobOfferDto.baseData (dto : CreateJobOfferDto) (employerId : ℕ)
    (scheduledAt priorityUntil : Option ℤ) (reference : String) : JobOffer where
  employerId
  title := Text.trim dto.title
  description := Text.trim dto.description
  employmentType := dto.employmentType.getD .mission
  scheduledAt
  amount := dto.amount
  isRemote := dto.isRemote
  address := if dto.isRemote then none else Text.trimmed dto.address
  note := dto.note.map Text.trim
  quantity := dto.quantity.getD 1
  priorityUntil
  reference

end Rabotka.Publishing
