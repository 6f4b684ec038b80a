import Rabotka.Lib.InsertionMap
import Rabotka.Questions.Normalize

/-!
# The answers of a candidate

`checkAnswers` matches the answers of a candidate with the questions of an offer. A question is
answered by the trimmed text given for its id; one that is required needs an answer, and an answer
has to be allowed for its kind. A wrong answer to a knockout question is not refused, it is
flagged.

The check goes through the questions in order of position and stops at the first that fails, but
whether it fails, and what it returns otherwise, depends on the questions one by one
(`checkSorted_ok_iff`). Together with the normal form of the questions this says that knockout
questions decide exactly what they are meant to (`questions_decide_exactly`).
-/

namespace Rabotka.Questions

open Lib Lib.Trim List

variable {ι : Type} [DecidableEq ι]

/-! ### The code -/

/-- A question with its id. -/
structure StoredQuestion (ι : Type) extends QuestionRow where
  id : ι

/-- `AnswerInput`. -/
structure AnswerInput (ι : Type) where
  questionId : ι
  value : Units

/-- `AnswerRow`. -/
structure AnswerRow (ι : Type) where
  questionId : ι
  label : Units
  kind : OfferQuestionKind
  value : Units
  passed : Option Bool

/-- What `checkAnswers` returns. -/
structure Checked (ι : Type) where
  rows : List (AnswerRow ι)
  knockedOut : Bool

/-- `new Map(answers.map((a) => [a.questionId, a.value]))`. -/
def byId (answers : List (AnswerInput ι)) : List (ι × Units) :=
  answers.foldl (fun m a => InsertionMap.set m a.questionId a.value) []

/-- The trimmed text for a question, empty if there is none. -/
def valueOf (m : List (ι × Units)) (id : ι) : Units :=
  match InsertionMap.get m id with
  | some raw => trim isSpace raw
  | none => []

section Code

variable (detect : Units → Bool)

/-- What a short text has to be. -/
def checkShortText (label value : Units) : Except Message Unit :=
  if answerMax < value.length then throw ⟨"« ", label, " » : 300 caractères au plus."⟩
  else if detect value then
    throw ⟨"Votre réponse ne peut pas contenir de coordonnées (téléphone, e-mail, lien) : " ++
      "retirez-les.", [], ""⟩
  else pure ()

/-- What an answer has to be, by the kind of its question. -/
def checkValue (q : QuestionRow) (value : Units) : Except Message Unit :=
  if q.kind = .yesNo ∧ value ≠ yes ∧ value ≠ no then
    throw ⟨"« ", q.label, " » : répondez par oui ou par non."⟩
  else if q.kind = .choice ∧ value ∉ q.options then
    throw ⟨"« ", q.label, " » : choisissez une des réponses proposées."⟩
  else if q.kind = .shortText then checkShortText detect q.label value
  else pure ()

/-- The row of an answered question. -/
def StoredQuestion.row (q : StoredQuestion ι) (value : Units) : AnswerRow ι where
  questionId := q.id
  label := q.label
  kind := q.kind
  value := value
  passed := if q.knockout then some (decide (value ∈ q.accepted)) else none

/-- One turn of the loop of `checkAnswers`. -/
def checkQuestion (m : List (ι × Units)) (q : StoredQuestion ι) :
    Except Message (List (AnswerRow ι)) :=
  let value := valueOf m q.id
  if value = [] then
    if q.required then throw ⟨"Répondez à la question « ", q.label, " »."⟩ else pure []
  else do
    checkValue detect q.toQuestionRow value
    pure [q.row value]

/-- The loop of `checkAnswers`. -/
def checkSorted (m : List (ι × Units)) :
    List (StoredQuestion ι) → Except Message (List (AnswerRow ι))
  | [] => pure []
  | q :: questions => do
    let row ← checkQuestion detect m q
    let rows ← checkSorted m questions
    pure (row ++ rows)

/-- `[...questions].sort((a, b) => a.position - b.position)`. -/
def sortQuestions (questions : List (StoredQuestion ι)) : List (StoredQuestion ι) :=
  questions.mergeSort fun a b => decide (a.position ≤ b.position)

/-- `checkAnswers`. -/
def checkAnswers (questions : List (StoredQuestion ι)) (answers : Option (List (AnswerInput ι))) :
    Except Message (Checked ι) :=
  match answers with
  | none => pure ⟨[], false⟩
  | some answers =>
    if questions.length = 0 then pure ⟨[], false⟩
    else do
      let rows ← checkSorted detect (byId answers) (sortQuestions questions)
      pure ⟨rows, rows.any fun r => decide (r.passed = some false)⟩

end Code

/-! ### What is asked of an answer -/

variable {detect : Units → Bool}

/-- An answer is allowed for a question. -/
def Allowed (detect : Units → Bool) (q : QuestionRow) (value : Units) : Prop :=
  match q.kind with
  | .yesNo => value = yes ∨ value = no
  | .choice => value ∈ q.options
  | .shortText => value.length ≤ answerMax ∧ detect value = false

/-- A question is at fault: required without an answer, or answered by what is not allowed. -/
def AtFault (detect : Units → Bool) (m : List (ι × Units)) (q : StoredQuestion ι) : Prop :=
  if valueOf m q.id = [] then q.required = true
  else ¬Allowed detect q.toQuestionRow (valueOf m q.id)

theorem checkValue_ok_iff {q : QuestionRow} {value : Units} :
    checkValue detect q value = .ok () ↔ Allowed detect q value := by
  rw [checkValue]
  unfold Allowed
  cases hkind : q.kind with
  | yesNo =>
    simp only [true_and, false_and, if_false, reduceCtorEq]
    split_ifs with h
    · exact iff_of_false (fun he => nomatch he) fun hor => hor.elim h.1 h.2
    · exact iff_of_true rfl ((not_and_or.mp h).imp not_not.mp not_not.mp)
  | choice =>
    simp only [true_and, false_and, if_false, reduceCtorEq]
    split_ifs with h
    · exact iff_of_true rfl h
    · exact iff_of_false (fun he => nomatch he) h
  | shortText =>
    simp only [false_and, if_false, if_true, reduceCtorEq, checkShortText]
    split_ifs with hlong hdetect
    · exact iff_of_false (fun he => nomatch he) fun h => by omega
    · refine iff_of_false (fun he => nomatch he) fun h => ?_
      rw [h.2] at hdetect
      exact nomatch hdetect
    · exact iff_of_true rfl ⟨not_lt.mp hlong, Bool.eq_false_iff.mpr hdetect⟩

/-- The rows of the questions that are answered. -/
def rowsOf (m : List (ι × Units)) (questions : List (StoredQuestion ι)) : List (AnswerRow ι) :=
  (questions.filter fun q => decide (valueOf m q.id ≠ [])).map fun q => q.row (valueOf m q.id)

/-- One question: it fails if it is at fault, and gives its row if it is answered. -/
theorem checkQuestion_spec (detect : Units → Bool) (m : List (ι × Units)) (q : StoredQuestion ι) :
    (AtFault detect m q → ∃ e, checkQuestion detect m q = .error e)
      ∧ (¬AtFault detect m q → checkQuestion detect m q = .ok (rowsOf m [q])) := by
  simp only [checkQuestion, AtFault, rowsOf]
  split_ifs with hblank hrequired
  · exact ⟨fun _ => ⟨_, rfl⟩, fun h => absurd hrequired h⟩
  · refine ⟨fun h => absurd h hrequired, fun _ => ?_⟩
    simp [hblank, pure, Except.pure]
  · cases hcheck : checkValue detect q.toQuestionRow (valueOf m q.id) with
    | error e =>
      refine ⟨fun _ => ⟨e, rfl⟩, fun h => ?_⟩
      rw [not_not, ← checkValue_ok_iff, hcheck] at h
      exact nomatch h
    | ok u =>
      refine ⟨fun h => absurd (checkValue_ok_iff.mp hcheck) h, fun _ => ?_⟩
      simp [hblank, bind, Except.bind, pure, Except.pure]

/-- **The loop** fails exactly if a question is at fault, and gives the rows of the answered
questions otherwise. -/
theorem checkSorted_spec (detect : Units → Bool) (m : List (ι × Units))
    (questions : List (StoredQuestion ι)) :
    ((∃ q ∈ questions, AtFault detect m q) → ∃ e, checkSorted detect m questions = .error e)
      ∧ ((∀ q ∈ questions, ¬AtFault detect m q) →
        checkSorted detect m questions = .ok (rowsOf m questions)) := by
  induction questions with
  | nil => exact ⟨(fun ⟨_, hq, _⟩ => nomatch hq), fun _ => rfl⟩
  | cons q questions ih =>
    obtain ⟨hfault, hfine⟩ := checkQuestion_spec detect m q
    have hrows : rowsOf m (q :: questions) = rowsOf m [q] ++ rowsOf m questions := by
      rw [rowsOf, rowsOf, rowsOf, ← map_append, ← filter_append, singleton_append]
    rw [checkSorted]
    by_cases hq : AtFault detect m q
    · obtain ⟨e, he⟩ := hfault hq
      refine ⟨fun _ => ⟨e, by rw [he]; rfl⟩, fun h => absurd hq (h q mem_cons_self)⟩
    · rw [hfine hq]
      refine ⟨fun ⟨r, hr, hrfault⟩ => ?_, fun h => ?_⟩
      · have hmem : r ∈ questions :=
          (mem_cons.mp hr).resolve_left fun hrq => hq (hrq ▸ hrfault)
        obtain ⟨e, he⟩ := ih.1 ⟨r, hmem, hrfault⟩
        exact ⟨e, by simp [bind, Except.bind, he]⟩
      · rw [ih.2 fun r hr => h r (mem_cons_of_mem q hr), hrows]
        rfl

variable {questions : List (StoredQuestion ι)}

theorem checkSorted_ok_iff {m : List (ι × Units)}
    {rows : List (AnswerRow ι)} :
    checkSorted detect m questions = .ok rows
      ↔ (∀ q ∈ questions, ¬AtFault detect m q) ∧ rows = rowsOf m questions := by
  obtain ⟨hfault, hfine⟩ := checkSorted_spec detect m questions
  by_cases h : ∃ q ∈ questions, AtFault detect m q
  · obtain ⟨e, he⟩ := hfault h
    refine iff_of_false (fun hok => ?_) fun hall => ?_
    · rw [he] at hok
      exact nomatch hok
    · obtain ⟨q, hq, hqfault⟩ := h
      exact hall.1 q hq hqfault
  · have hall : ∀ q ∈ questions, ¬AtFault detect m q := fun q hq hqfault => h ⟨q, hq, hqfault⟩
    rw [hfine hall, Except.ok.injEq, and_iff_right hall]
    exact eq_comm

/-! ### The answers by question -/

/-- With distinct questions answered, a question has the value that was sent for it. -/
theorem get_byId {answers : List (AnswerInput ι)}
    (h : (answers.map AnswerInput.questionId).Nodup) {id : ι} {value : Units} :
    InsertionMap.get (byId answers) id = some value ↔ ⟨id, value⟩ ∈ answers := by
  rw [byId]
  have hfold : ∀ (m : List (ι × Units)), (∀ a ∈ answers, InsertionMap.get m a.questionId = none) →
      (InsertionMap.get (answers.foldl
          (fun m a => InsertionMap.set m a.questionId a.value) m) id = some value
        ↔ InsertionMap.get m id = some value ∨ ⟨id, value⟩ ∈ answers) := by
    intro m hm
    induction answers generalizing m with
    | nil => simp
    | cons a answers ih =>
      rw [map_cons, nodup_cons] at h
      have hnew : ∀ b ∈ answers,
          InsertionMap.get (InsertionMap.set m a.questionId a.value) b.questionId = none := by
        intro b hb
        have hne : a.questionId ≠ b.questionId := fun hab =>
          h.1 (hab ▸ mem_map_of_mem hb)
        rw [InsertionMap.get_set, if_neg hne]
        exact hm b (mem_cons_of_mem a hb)
      rw [foldl_cons, ih h.2 _ hnew, InsertionMap.get_set, mem_cons]
      have hold := hm a mem_cons_self
      by_cases hid : a.questionId = id
      · subst hid
        rw [if_pos rfl, hold, Option.some_inj]
        constructor
        · rintro (rfl | hmem)
          · exact Or.inr (Or.inl rfl)
          · exact Or.inr (Or.inr hmem)
        · rintro (hnone | heq | hmem)
          · cases hnone
          · exact Or.inl (congrArg AnswerInput.value heq).symm
          · exact Or.inr hmem
      · rw [if_neg hid]
        refine or_congr_right (or_iff_right fun heq => hid ?_).symm
        exact (congrArg AnswerInput.questionId heq).symm
  rw [hfold [] fun _ _ => rfl]
  simp

/-- The order of the answers does not matter. -/
theorem valueOf_perm {answers other : List (AnswerInput ι)} (hperm : other.Perm answers)
    (h : (answers.map AnswerInput.questionId).Nodup) (id : ι) :
    valueOf (byId other) id = valueOf (byId answers) id := by
  have hother : (other.map AnswerInput.questionId).Nodup :=
    (hperm.map AnswerInput.questionId).nodup_iff.mpr h
  have hget : InsertionMap.get (byId other) id = InsertionMap.get (byId answers) id :=
    Option.ext fun value => by
      rw [get_byId hother, get_byId h, hperm.mem_iff]
  rw [valueOf, valueOf, hget]

/-! ### The order of the questions -/

omit [DecidableEq ι] in
theorem sortQuestions_perm (questions : List (StoredQuestion ι)) :
    (sortQuestions questions).Perm questions :=
  mergeSort_perm _ _

omit [DecidableEq ι] in
/-- With distinct positions the questions stand in order of position. -/
theorem sorted_sortQuestions (h : (questions.map fun q => q.position).Nodup) :
    (sortQuestions questions).Pairwise fun a b => a.position < b.position := by
  have hle : (sortQuestions questions).Pairwise fun a b => a.position ≤ b.position :=
    (pairwise_mergeSort (fun _ _ _ hab hbc =>
        decide_eq_true ((of_decide_eq_true hab).trans (of_decide_eq_true hbc)))
      (fun a b => by simpa using le_total a.position b.position) _).imp
      fun hab => of_decide_eq_true hab
  have hne : (sortQuestions questions).Pairwise fun a b => a.position ≠ b.position :=
    pairwise_map.mp (((sortQuestions_perm questions).map _).nodup_iff.mpr h)
  exact (hle.and hne).imp fun hab => lt_of_le_of_ne hab.1 hab.2

/-- What `checkAnswers` returns for answers that were sent. -/
theorem checkAnswers_eq (detect : Units → Bool) (questions : List (StoredQuestion ι))
    (answers : List (AnswerInput ι)) :
    checkAnswers detect questions (some answers)
      = (checkSorted detect (byId answers) (sortQuestions questions)).map fun rows =>
          ⟨rows, rows.any fun r => decide (r.passed = some false)⟩ := by
  rw [checkAnswers]
  split_ifs with h
  · obtain rfl := length_eq_zero_iff.mp h
    have hnil : sortQuestions ([] : List (StoredQuestion ι)) = [] :=
      (sortQuestions_perm []).eq_nil
    rw [hnil]
    rfl
  · rfl

omit [DecidableEq ι] in
/-- A row is knocked out exactly if its question is a knockout question and its answer is not
accepted. -/
theorem row_passed_iff (q : StoredQuestion ι) (value : Units) :
    (q.row value).passed = some false ↔ q.knockout = true ∧ value ∉ q.accepted := by
  rw [StoredQuestion.row]
  cases q.knockout <;> simp

theorem any_rowsOf (m : List (ι × Units)) (questions : List (StoredQuestion ι)) :
    ((rowsOf m questions).any fun r => decide (r.passed = some false)) = true
      ↔ ∃ q ∈ questions, q.knockout = true ∧ valueOf m q.id ≠ [] ∧ valueOf m q.id ∉ q.accepted := by
  simp only [rowsOf, any_eq_true, mem_map, mem_filter, decide_eq_true_eq]
  constructor
  · rintro ⟨r, ⟨q, ⟨hq, hanswered⟩, rfl⟩, hpassed⟩
    obtain ⟨hknockout, hwrong⟩ := (row_passed_iff q _).mp hpassed
    exact ⟨q, hq, hknockout, hanswered, hwrong⟩
  · rintro ⟨q, hq, hknockout, hanswered, hwrong⟩
    exact ⟨_, ⟨q, ⟨hq, hanswered⟩, rfl⟩, (row_passed_iff q _).mpr ⟨hknockout, hwrong⟩⟩

/-! ### Questions that can be answered -/

/-- A text that passes as a short answer. -/
structure ShortAnswer (detect : Units → Bool) (text : Units) : Prop where
  trimmed : Trimmed isSpace text
  ne_nil : text ≠ []
  length_le : text.length ≤ answerMax
  undetected : detect text = false

/-- An answer that passes: an accepted one to a knockout question, any allowed one otherwise. -/
def passingAnswer (text : Units) (q : QuestionRow) : Units :=
  match q.kind with
  | .choice => if q.knockout then q.accepted.headD [] else q.options.headD []
  | .yesNo => if q.knockout then q.accepted.headD [] else yes
  | .shortText => text

theorem headD_mem {l : List Units} (h : l ≠ []) : l.headD [] ∈ l := by
  cases l with
  | nil => exact absurd rfl h
  | cons x l => exact mem_cons_self

/-- A question in normal form has an answer that is not blank, is allowed, and passes. -/
theorem passingAnswer_spec {q : QuestionRow} (hq : Clean detect q) {text : Units}
    (htext : ShortAnswer detect text) :
    Trimmed isSpace (passingAnswer text q) ∧ passingAnswer text q ≠ []
      ∧ Allowed detect q (passingAnswer text q)
      ∧ (q.knockout = true → passingAnswer text q ∈ q.accepted) := by
  have hyes : Trimmed isSpace yes ∧ yes ≠ [] :=
    ⟨trim_eq_self_iff.mp (by decide), by decide⟩
  have hno : Trimmed isSpace no ∧ no ≠ [] :=
    ⟨trim_eq_self_iff.mp (by decide), by decide⟩
  have hkind := hq.kind
  unfold CleanKind at hkind
  unfold passingAnswer Allowed
  cases hk : q.kind with
  | choice =>
    simp only [hk] at hkind
    obtain ⟨hoptions, -, hmin, -, haccepted⟩ := hkind
    dsimp only
    split_ifs at haccepted ⊢ with hknockout
    · obtain ⟨hoffered, -, hne, -⟩ := haccepted
      have hmem := headD_mem hne
      have ho := hoptions _ (hoffered _ hmem)
      exact ⟨ho.1, ho.2.1, hoffered _ hmem, fun _ => hmem⟩
    · have hne : q.options ≠ [] := fun h => by
        rw [h] at hmin
        exact absurd hmin (by decide)
      have hmem := headD_mem hne
      exact ⟨(hoptions _ hmem).1, (hoptions _ hmem).2.1, hmem, fun h => absurd h hknockout⟩
  | yesNo =>
    simp only [hk] at hkind
    dsimp only
    obtain ⟨-, haccepted⟩ := hkind
    split_ifs at haccepted ⊢ with hknockout
    · rcases haccepted with haccepted | haccepted <;> rw [haccepted]
      · exact ⟨hyes.1, hyes.2, Or.inl rfl, fun _ => mem_cons_self⟩
      · exact ⟨hno.1, hno.2, Or.inr rfl, fun _ => mem_cons_self⟩
    · exact ⟨hyes.1, hyes.2, Or.inl rfl, fun h => absurd h hknockout⟩
  | shortText =>
    simp only [hk] at hkind
    dsimp only
    refine ⟨htext.trimmed, htext.ne_nil, ⟨htext.length_le, htext.undetected⟩, fun h => ?_⟩
    rw [hkind.2.1] at h
    exact nomatch h

/-- **Questions in normal form can be answered** without being knocked out. -/
theorem exists_passing_answers (hclean : ∀ q ∈ questions, Clean detect q.toQuestionRow)
    (hids : (questions.map StoredQuestion.id).Nodup) {text : Units}
    (htext : ShortAnswer detect text) :
    ∃ answers : List (AnswerInput ι), (answers.map AnswerInput.questionId).Nodup
      ∧ ∃ out, checkAnswers detect questions (some answers) = .ok out ∧ out.knockedOut = false := by
  let answers : List (AnswerInput ι) :=
    questions.map fun q => ⟨q.id, passingAnswer text q.toQuestionRow⟩
  have hnodup : (answers.map AnswerInput.questionId).Nodup := by
    rw [map_map]
    exact hids
  have hvalue : ∀ q ∈ questions,
      valueOf (byId answers) q.id = passingAnswer text q.toQuestionRow := by
    intro q hq
    have hget : InsertionMap.get (byId answers) q.id = some (passingAnswer text q.toQuestionRow) :=
      (get_byId hnodup).mpr (mem_map.mpr ⟨q, hq, rfl⟩)
    rw [valueOf, hget]
    exact trim_eq_self_iff.mpr (passingAnswer_spec (hclean q hq) htext).1
  have hfine : ∀ q ∈ sortQuestions questions, ¬AtFault detect (byId answers) q := by
    intro q hq
    have hmem := (sortQuestions_perm questions).mem_iff.mp hq
    obtain ⟨-, hne, hallowed, -⟩ := passingAnswer_spec (hclean q hmem) htext
    rw [AtFault, hvalue q hmem, if_neg hne, not_not]
    exact hallowed
  have hsorted : checkSorted detect (byId answers) (sortQuestions questions)
      = .ok (rowsOf (byId answers) (sortQuestions questions)) :=
    checkSorted_ok_iff.mpr ⟨hfine, rfl⟩
  have hresult := checkAnswers_eq detect questions answers
  rw [hsorted] at hresult
  refine ⟨answers, hnodup, _, hresult, Bool.eq_false_iff.mpr fun hany => ?_⟩
  obtain ⟨q, hq, hknockout, -, hwrong⟩ := (any_rowsOf _ _).mp hany
  have hmem := (sortQuestions_perm questions).mem_iff.mp hq
  rw [hvalue q hmem] at hwrong
  exact hwrong ((passingAnswer_spec (hclean q hmem) htext).2.2.2 hknockout)

/-! ### What knockout questions decide -/

/-- Knockout questions decide exactly: questions that are accepted are in normal form and can be
answered; answers are refused exactly if a question is at fault; otherwise every answered question
has its row, in order of position, and the candidate is knocked out exactly by an answer to a
knockout question that is not accepted; and the order of the answers does not matter. -/
structure DecidesExactly (detect : Units → Bool) (ι : Type) [DecidableEq ι] : Prop where
  fixpoint : ∀ (input : List QuestionInput) (rows : List QuestionRow),
    normalizeQuestions detect input = .ok rows →
    normalizeQuestions detect (rows.map QuestionRow.toInput) = .ok rows
  answerable : ∀ (input : List QuestionInput) (rows : List QuestionRow)
    (questions : List (StoredQuestion ι)), normalizeQuestions detect input = .ok rows →
    (questions.map StoredQuestion.toQuestionRow).Perm rows →
    (questions.map StoredQuestion.id).Nodup →
    ∃ answers : List (AnswerInput ι), (answers.map AnswerInput.questionId).Nodup
      ∧ ∃ out, checkAnswers detect questions (some answers) = .ok out ∧ out.knockedOut = false
  throws_iff : ∀ (questions : List (StoredQuestion ι)) (answers : List (AnswerInput ι)),
    (∃ e, checkAnswers detect questions (some answers) = .error e)
      ↔ ∃ q ∈ questions, AtFault detect (byId answers) q
  returns : ∀ (questions : List (StoredQuestion ι)) (answers : List (AnswerInput ι))
    (out : Checked ι), (questions.map fun q => q.position).Nodup →
    checkAnswers detect questions (some answers) = .ok out →
    (∃ sorted : List (StoredQuestion ι), sorted.Perm questions
      ∧ (sorted.Pairwise fun a b => a.position < b.position)
      ∧ out.rows = rowsOf (byId answers) sorted)
    ∧ (out.knockedOut = true ↔ ∃ q ∈ questions, q.knockout = true
      ∧ valueOf (byId answers) q.id ≠ [] ∧ valueOf (byId answers) q.id ∉ q.accepted)
  order : ∀ (questions : List (StoredQuestion ι)) (answers other : List (AnswerInput ι)),
    (answers.map AnswerInput.questionId).Nodup → other.Perm answers →
    checkAnswers detect questions (some other) = checkAnswers detect questions (some answers)

/-- The loop depends on the values of the questions only. -/
theorem checkSorted_congr {m n : List (ι × Units)} (h : ∀ id, valueOf m id = valueOf n id)
    (questions : List (StoredQuestion ι)) :
    checkSorted detect m questions = checkSorted detect n questions := by
  induction questions with
  | nil => rfl
  | cons q questions ih => rw [checkSorted, checkSorted, ih, checkQuestion, checkQuestion, h]

/-- **Knockout questions decide exactly**, for every detection of contact details that lets some
short answer pass. -/
theorem questions_decide_exactly {text : Units} (htext : ShortAnswer detect text) :
    DecidesExactly detect ι where
  fixpoint _ _ h := normalizeQuestions_twice h
  answerable _ _ questions h hperm hids := by
    refine exists_passing_answers (fun q hq => ?_) hids htext
    exact (normalizeQuestions_spec h).1 _ (hperm.mem_iff.mp (mem_map_of_mem hq))
  throws_iff questions answers := by
    have hmem : (∃ q ∈ questions, AtFault detect (byId answers) q)
        ↔ ∃ q ∈ sortQuestions questions, AtFault detect (byId answers) q := by
      simp only [(sortQuestions_perm questions).mem_iff]
    rw [hmem, checkAnswers_eq]
    obtain ⟨hfault, hfine⟩ :=
      checkSorted_spec detect (byId answers) (sortQuestions questions)
    constructor
    · rintro ⟨e, he⟩
      by_contra hnone
      rw [hfine fun q hq hqfault => hnone ⟨q, hq, hqfault⟩] at he
      exact nomatch he
    · intro h
      obtain ⟨e, he⟩ := hfault h
      exact ⟨e, by rw [he]; rfl⟩
  returns questions answers out hpositions h := by
    rw [checkAnswers_eq] at h
    cases hsorted : checkSorted detect (byId answers) (sortQuestions questions) with
    | error e =>
      rw [hsorted] at h
      exact nomatch h
    | ok rows =>
      rw [hsorted] at h
      obtain rfl := (Except.ok.inj h).symm
      obtain rfl := (checkSorted_ok_iff.mp hsorted).2
      refine ⟨⟨sortQuestions questions, sortQuestions_perm questions,
        sorted_sortQuestions hpositions, rfl⟩, ?_⟩
      refine (any_rowsOf _ _).trans ?_
      simp only [(sortQuestions_perm questions).mem_iff]
  order questions answers other hnodup hperm := by
    rw [checkAnswers_eq, checkAnswers_eq, checkSorted_congr fun id => valueOf_perm hperm hnodup id]

/-- Where nothing is detected, any word will do. -/
theorem questions_decide_undetected : DecidesExactly (fun _ => false) ℕ :=
  @questions_decide_exactly ℕ _ _ (units "oui")
    ⟨trim_eq_self_iff.mp (by decide), by decide, by decide, rfl⟩

end Rabotka.Questions
