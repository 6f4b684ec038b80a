import Rabotka.Lib.Trim

/-!
# The questions of an offer

`normalizeQuestions` cleans and checks the questions a business asks its candidates, some of them
knockout questions, whose answer decides. Texts are lists of UTF-16 units; the detection of contact
details is a parameter.

A question that is accepted is in a normal form (`Clean`): its label and options are trimmed and
within bounds, and its accepted answers are some, but not all, of those it offers. Questions in
normal form are left as they are (`normalizeQuestions_of_clean`), so cleaning twice does nothing
more.
-/

namespace Rabotka.Questions

open Lib.Trim List

/-! ### The code -/

/-- A text, in UTF-16 units. -/
abbrev Units := List UInt16

inductive OfferQuestionKind
  | yesNo | choice | shortText
  deriving DecidableEq

def maxQuestions : ℕ := 5
def labelMax : ℕ := 140
def optionMax : ℕ := 60
def answerMax : ℕ := 300
def yes : Units := units "yes"
def no : Units := units "no"

/-- The message of a `BadRequestException`: a label between two fixed texts. -/
structure Message where
  before : String
  label : Units := []
  after : String := ""
  deriving DecidableEq

/-- `QuestionInput`. -/
structure QuestionInput where
  kind : OfferQuestionKind
  label : Option Units
  options : Option (List Units)
  required : Option Bool
  knockout : Option Bool
  accepted : Option (List Units)

/-- `QuestionRow`. -/
structure QuestionRow where
  kind : OfferQuestionKind
  label : Units
  options : List Units
  required : Bool
  knockout : Bool
  accepted : List Units
  position : ℕ
  deriving DecidableEq

/-- `q.label?.trim().replace(/\s+/g, ' ') ?? ''`. -/
def cleanLabel (label : Option Units) : Units :=
  (label.map fun text => collapse isSpace 32 false (trim isSpace text)).getD []

/-- `[...new Set(options.map((o) => o.trim()).filter(Boolean))]`. -/
def cleanOptions (options : List Units) : List Units :=
  ((options.map (trim isSpace)).filter fun o => !o.isEmpty).eraseDups

/-- The accepted answers of a choice: of those listed, the ones that are offered. -/
def cleanAccepted (options accepted : List Units) : List Units :=
  accepted.eraseDups.filter fun a => decide (a ∈ options)

/-- The options and the accepted answers of a choice. -/
def readChoice (label : Units) (knockout : Bool) (q : QuestionInput) :
    Except Message (List Units × List Units) :=
  let options := cleanOptions (q.options.getD [])
  if options.length < 2 ∨ 6 < options.length then
    throw ⟨"« ", label, " » : proposez de 2 à 6 réponses."⟩
  else if options.any fun o => decide (optionMax < o.length) then
    throw ⟨"Une réponse proposée fait 60 caractères au plus.", [], ""⟩
  else if knockout then
    let accepted := cleanAccepted options (q.accepted.getD [])
    if accepted.length = 0 ∨ accepted.length = options.length then
      throw ⟨"« ", label, " » : choisissez les réponses acceptées, sans les prendre toutes."⟩
    else pure (options, accepted)
  else pure (options, [])

/-- The expected answer of a question for yes or no. -/
def readYesNo (label : Units) (knockout : Bool) (q : QuestionInput) :
    Except Message (List Units × List Units) :=
  if knockout then
    match (q.accepted.getD []).head? with
    | none => throw ⟨"« ", label, " » : indiquez la réponse attendue (oui ou non)."⟩
    | some want =>
      if want ≠ yes ∧ want ≠ no then
        throw ⟨"« ", label, " » : indiquez la réponse attendue (oui ou non)."⟩
      else pure ([], [want])
  else pure ([], [])

/-- A free text cannot be a knockout question. -/
def readShortText (knockout : Bool) : Except Message (List Units × List Units) :=
  if knockout then throw ⟨"Une réponse libre ne peut pas être éliminatoire.", [], ""⟩
  else pure ([], [])

/-- The options and the accepted answers, by the kind of the question. -/
def readKind (label : Units) (knockout : Bool) (q : QuestionInput) :
    Except Message (List Units × List Units) :=
  match q.kind with
  | .choice => readChoice label knockout q
  | .yesNo => readYesNo label knockout q
  | .shortText => readShortText knockout

section Code

variable (detect : Units → Bool)

/-- One question of `normalizeQuestions`. -/
def normalizeQuestion (q : QuestionInput) (position : ℕ) : Except Message QuestionRow :=
  let label := cleanLabel q.label
  let knockout := q.knockout.getD false
  if label.length < 3 ∨ labelMax < label.length then
    throw ⟨"Chaque question fait entre 3 et 140 caractères.", [], ""⟩
  else if detect label then
    throw ⟨"Une question ne peut pas contenir de coordonnées.", [], ""⟩
  else do
    let (options, accepted) ← readKind label knockout q
    pure
      { kind := q.kind
        label := label
        options := options
        required := if knockout then true else q.required.getD true
        knockout := knockout
        accepted := accepted
        position := position }

/-- The questions from a position on. -/
def normalizeFrom : ℕ → List QuestionInput → Except Message (List QuestionRow)
  | _, [] => pure []
  | position, q :: input => do
    let row ← normalizeQuestion detect q position
    let rows ← normalizeFrom (position + 1) input
    pure (row :: rows)

/-- `normalizeQuestions`. -/
def normalizeQuestions (input : List QuestionInput) : Except Message (List QuestionRow) :=
  if maxQuestions < input.length then throw ⟨"5 questions au plus par offre.", [], ""⟩
  else normalizeFrom detect 0 input

end Code

/-- A row as it is given again. -/
def QuestionRow.toInput (q : QuestionRow) : QuestionInput where
  kind := q.kind
  label := some q.label
  options := some q.options
  required := some q.required
  knockout := some q.knockout
  accepted := some q.accepted

/-! ### The normal form -/

/-- The options and the accepted answers of a question in normal form, by its kind. -/
def CleanKind (kind : OfferQuestionKind) (knockout : Bool) (options accepted : List Units) : Prop :=
  match kind with
  | .choice =>
    (∀ o ∈ options, Trimmed isSpace o ∧ o ≠ [] ∧ o.length ≤ optionMax) ∧ options.Nodup
      ∧ 2 ≤ options.length ∧ options.length ≤ 6
      ∧ if knockout then
          (∀ a ∈ accepted, a ∈ options) ∧ accepted.Nodup ∧ accepted ≠ []
            ∧ accepted.length ≠ options.length
        else accepted = []
  | .yesNo => options = [] ∧ if knockout then accepted = [yes] ∨ accepted = [no] else accepted = []
  | .shortText => options = [] ∧ knockout = false ∧ accepted = []

/-- A question in normal form. -/
structure Clean (detect : Units → Bool) (q : QuestionRow) : Prop where
  label_clean : cleanLabel (some q.label) = q.label
  label_min : 3 ≤ q.label.length
  label_max : q.label.length ≤ labelMax
  undetected : detect q.label = false
  required : q.knockout = true → q.required = true
  kind : CleanKind q.kind q.knockout q.options q.accepted

/-- Cleaning a label twice does nothing more. -/
theorem cleanLabel_cleanLabel (label : Option Units) :
    cleanLabel (some (cleanLabel label)) = cleanLabel label := by
  cases label with
  | none => rfl
  | some text =>
    have htrimmed : Trimmed isSpace (collapse isSpace 32 false (trim isSpace text)) :=
      (trimmed_trim text).collapse
    simp only [cleanLabel, Option.map_some, Option.getD_some]
    rw [trim_eq_self_iff.mpr htrimmed, collapse_collapse (by decide)]

theorem mem_cleanOptions {options : List Units} {o : Units} (h : o ∈ cleanOptions options) :
    Trimmed isSpace o ∧ o ≠ [] := by
  rw [cleanOptions, mem_eraseDups, mem_filter, mem_map] at h
  obtain ⟨⟨raw, -, rfl⟩, hne⟩ := h
  exact ⟨trimmed_trim raw, by simpa using hne⟩

/-- Options in normal form are left as they are. -/
theorem cleanOptions_eq {options : List Units} (h : ∀ o ∈ options, Trimmed isSpace o ∧ o ≠ [])
    (hnodup : options.Nodup) : cleanOptions options = options := by
  have hmap : options.map (trim isSpace) = options := by
    conv_rhs => rw [← map_id options]
    exact map_congr_left fun o ho => trim_eq_self_iff.mpr (h o ho).1
  have hfilter : (options.filter fun o => !o.isEmpty) = options :=
    filter_eq_self.mpr fun o ho => by simpa using (h o ho).2
  rw [cleanOptions, hmap, hfilter, eraseDups_of_nodup hnodup]

/-- Accepted answers in normal form are left as they are. -/
theorem cleanAccepted_eq {options accepted : List Units} (h : ∀ a ∈ accepted, a ∈ options)
    (hnodup : accepted.Nodup) : cleanAccepted options accepted = accepted := by
  rw [cleanAccepted, eraseDups_of_nodup hnodup]
  exact filter_eq_self.mpr fun a ha => decide_eq_true (h a ha)

/-- What is read of a question is in normal form. -/
theorem cleanKind_of_readKind {label : Units} {knockout : Bool} {q : QuestionInput}
    {options accepted : List Units} (h : readKind label knockout q = .ok (options, accepted)) :
    CleanKind q.kind knockout options accepted := by
  rw [readKind] at h
  cases hkind : q.kind with
  | choice =>
    simp only [hkind, readChoice] at h
    have hoptions : ∀ o ∈ cleanOptions (q.options.getD []), Trimmed isSpace o ∧ o ≠ [] :=
      fun o ho => mem_cleanOptions ho
    have hnodup : (cleanOptions (q.options.getD [])).Nodup := nodup_eraseDups _
    split_ifs at h with hcount hlong hknockout haccepted
    · obtain ⟨rfl, rfl⟩ : cleanOptions (q.options.getD []) = options
          ∧ cleanAccepted (cleanOptions (q.options.getD [])) (q.accepted.getD []) = accepted := by
        simpa [pure, Except.pure] using h
      simp only [any_eq_true, decide_eq_true_eq, not_exists, not_and, not_lt] at hlong
      refine ⟨fun o ho => ⟨(hoptions o ho).1, (hoptions o ho).2, hlong o ho⟩, hnodup, by omega,
        by omega, ?_⟩
      rw [if_pos hknockout]
      refine ⟨fun a ha => ?_, ?_, ?_, fun hall => haccepted (Or.inr hall)⟩
      · exact of_decide_eq_true (mem_filter.mp ha).2
      · exact (nodup_eraseDups _).filter _
      · intro hnil
        exact haccepted (Or.inl (by rw [hnil]; rfl))
    · obtain ⟨rfl, rfl⟩ : cleanOptions (q.options.getD []) = options ∧ [] = accepted := by
        simpa [pure, Except.pure] using h
      simp only [any_eq_true, decide_eq_true_eq, not_exists, not_and, not_lt] at hlong
      refine ⟨fun o ho => ⟨(hoptions o ho).1, (hoptions o ho).2, hlong o ho⟩, hnodup, by omega,
        by omega, ?_⟩
      rw [if_neg hknockout]
  | yesNo =>
    simp only [hkind, readYesNo] at h
    split_ifs at h with hknockout
    · cases hwant : (q.accepted.getD []).head? with
      | none =>
        rw [hwant] at h
        exact nomatch h
      | some want =>
        rw [hwant] at h
        dsimp only at h
        split_ifs at h with hother
        obtain ⟨rfl, rfl⟩ : [] = options ∧ [want] = accepted := by
          simpa [pure, Except.pure] using h
        refine ⟨rfl, ?_⟩
        rw [if_pos hknockout]
        rcases not_and_or.mp hother with hyes | hno
        · exact Or.inl (by rw [not_not.mp hyes])
        · exact Or.inr (by rw [not_not.mp hno])
    · obtain ⟨rfl, rfl⟩ : [] = options ∧ [] = accepted := by simpa [pure, Except.pure] using h
      refine ⟨rfl, ?_⟩
      rw [if_neg hknockout]
  | shortText =>
    simp only [hkind, readShortText] at h
    split_ifs at h with hknockout
    obtain ⟨rfl, rfl⟩ : [] = options ∧ [] = accepted := by simpa [pure, Except.pure] using h
    exact ⟨rfl, by simpa using hknockout, rfl⟩

/-- A question in normal form is read as it is. -/
theorem readKind_of_cleanKind {q : QuestionRow}
    (h : CleanKind q.kind q.knockout q.options q.accepted) :
    readKind q.label q.knockout q.toInput = .ok (q.options, q.accepted) := by
  rw [readKind, QuestionRow.toInput]
  unfold CleanKind at h
  cases hkind : q.kind with
  | choice =>
    simp only [hkind] at h
    obtain ⟨hoptions, hnodup, hmin, hmax, haccepted⟩ := h
    have hclean : cleanOptions q.options = q.options :=
      cleanOptions_eq (fun o ho => ⟨(hoptions o ho).1, (hoptions o ho).2.1⟩) hnodup
    have hshort : (q.options.any fun o => decide (optionMax < o.length)) = false :=
      any_eq_false.mpr fun o ho => by simpa using (hoptions o ho).2.2
    simp only [readChoice, Option.getD_some, hclean]
    rw [if_neg (by omega), hshort, if_neg Bool.false_ne_true]
    cases hknockout : q.knockout with
    | false =>
      rw [hknockout, if_neg Bool.false_ne_true] at haccepted
      rw [haccepted]
      rfl
    | true =>
      rw [hknockout, if_pos rfl] at haccepted
      obtain ⟨hoffered, hanodup, hne, hall⟩ := haccepted
      have hlength : q.accepted.length ≠ 0 := fun h => hne (length_eq_zero_iff.mp h)
      rw [cleanAccepted_eq hoffered hanodup, if_pos rfl, if_neg (by tauto)]
      rfl
  | yesNo =>
    simp only [hkind] at h
    obtain ⟨hoptions, haccepted⟩ := h
    simp only [readYesNo, Option.getD_some, hoptions]
    cases hknockout : q.knockout with
    | false =>
      rw [hknockout, if_neg Bool.false_ne_true] at haccepted
      rw [haccepted]
      rfl
    | true =>
      rw [hknockout, if_pos rfl] at haccepted
      rcases haccepted with haccepted | haccepted <;> rw [haccepted] <;> rfl
  | shortText =>
    simp only [hkind] at h
    obtain ⟨hoptions, hknockout, haccepted⟩ := h
    rw [hoptions, hknockout, haccepted]
    rfl

section Run

variable {detect : Units → Bool}

/-- A question that is accepted is in normal form, at its position. -/
theorem clean_of_normalizeQuestion {q : QuestionInput} {position : ℕ} {row : QuestionRow}
    (h : normalizeQuestion detect q position = .ok row) :
    Clean detect row ∧ row.position = position := by
  simp only [normalizeQuestion] at h
  split_ifs at h with hlength hdetect hknockout
  · cases hread : readKind (cleanLabel q.label) (q.knockout.getD false) q with
    | error e =>
      rw [hread] at h
      exact nomatch h
    | ok read =>
      rw [hread] at h
      obtain rfl := (Except.ok.inj h).symm
      refine ⟨⟨cleanLabel_cleanLabel q.label, by dsimp only; omega, by dsimp only; omega,
        Bool.eq_false_iff.mpr hdetect, fun _ => rfl, cleanKind_of_readKind hread⟩, rfl⟩
  · cases hread : readKind (cleanLabel q.label) (q.knockout.getD false) q with
    | error e =>
      rw [hread] at h
      exact nomatch h
    | ok read =>
      rw [hread] at h
      obtain rfl := (Except.ok.inj h).symm
      refine ⟨⟨cleanLabel_cleanLabel q.label, by dsimp only; omega, by dsimp only; omega,
        Bool.eq_false_iff.mpr hdetect, fun hk => absurd hk hknockout,
        cleanKind_of_readKind hread⟩, rfl⟩

/-- A question in normal form is left as it is. -/
theorem normalizeQuestion_of_clean {q : QuestionRow} (h : Clean detect q) :
    normalizeQuestion detect q.toInput q.position = .ok q := by
  have hlabel : cleanLabel q.toInput.label = q.label := h.label_clean
  have hknockout : q.toInput.knockout.getD false = q.knockout := rfl
  have hmin := h.label_min
  have hmax := h.label_max
  have hrequired : (if q.knockout then true else q.required) = q.required := by
    split_ifs with hk
    · exact (h.required hk).symm
    · rfl
  simp only [normalizeQuestion, hlabel, hknockout, h.undetected, readKind_of_cleanKind h.kind]
  rw [if_neg (by omega), if_neg Bool.false_ne_true]
  change Except.ok _ = Except.ok q
  congr 1
  change QuestionRow.mk _ _ _ (if q.knockout then true else q.required) _ _ _ = q
  rw [hrequired]
  rfl

variable {rows : List QuestionRow} {input : List QuestionInput}

/-- The questions that are accepted from a position on. -/
theorem normalizeFrom_spec {position : ℕ} (h : normalizeFrom detect position input = .ok rows) :
    (∀ q ∈ rows, Clean detect q) ∧ rows.length = input.length
      ∧ rows.map QuestionRow.position = range' position rows.length := by
  induction input generalizing position rows with
  | nil =>
    obtain rfl := Except.ok.inj h
    exact ⟨(fun q hq => nomatch hq), rfl, rfl⟩
  | cons q input ih =>
    rw [normalizeFrom] at h
    cases hrow : normalizeQuestion detect q position with
    | error e =>
      rw [hrow] at h
      exact nomatch h
    | ok row =>
      cases hrest : normalizeFrom detect (position + 1) input with
      | error e =>
        rw [hrow] at h
        simp only [bind, Except.bind, hrest] at h
        exact nomatch h
      | ok rest =>
        rw [hrow] at h
        simp only [bind, Except.bind, hrest, pure, Except.pure] at h
        obtain rfl := Except.ok.inj h
        obtain ⟨hclean, hlength, hposition⟩ := ih hrest
        obtain ⟨hrowclean, hrowposition⟩ := clean_of_normalizeQuestion hrow
        refine ⟨forall_mem_cons.mpr ⟨hrowclean, hclean⟩, by simp [hlength], ?_⟩
        rw [map_cons, hposition, hrowposition, length_cons, List.range'_succ]

/-- Questions in normal form, at their positions, are left as they are. -/
theorem normalizeFrom_of_clean {position : ℕ} (hclean : ∀ q ∈ rows, Clean detect q)
    (hposition : rows.map QuestionRow.position = range' position rows.length) :
    normalizeFrom detect position (rows.map QuestionRow.toInput) = .ok rows := by
  induction rows generalizing position with
  | nil => rfl
  | cons q rows ih =>
    rw [map_cons, length_cons, List.range'_succ, List.cons.injEq] at hposition
    have hq := normalizeQuestion_of_clean (hclean q mem_cons_self)
    rw [hposition.1] at hq
    rw [map_cons, normalizeFrom, hq, ih (fun r hr => hclean r (mem_cons_of_mem q hr)) hposition.2]
    rfl

/-- What `normalizeQuestions` accepts. -/
theorem normalizeQuestions_spec (h : normalizeQuestions detect input = .ok rows) :
    (∀ q ∈ rows, Clean detect q) ∧ rows.length ≤ maxQuestions
      ∧ rows.map QuestionRow.position = range' 0 rows.length := by
  rw [normalizeQuestions] at h
  split_ifs at h with hcount
  obtain ⟨hclean, hlength, hposition⟩ := normalizeFrom_spec h
  exact ⟨hclean, by omega, hposition⟩

/-- **Cleaning twice does nothing more.** -/
theorem normalizeQuestions_twice (h : normalizeQuestions detect input = .ok rows) :
    normalizeQuestions detect (rows.map QuestionRow.toInput) = .ok rows := by
  obtain ⟨hclean, hlength, hposition⟩ := normalizeQuestions_spec h
  rw [normalizeQuestions, length_map, if_neg (by omega)]
  exact normalizeFrom_of_clean hclean hposition

end Run

end Rabotka.Questions
