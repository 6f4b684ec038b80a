import Mathlib.Algebra.Order.BigOperators.Group.Finset
import Rabotka.Lib.Decimal
import Rabotka.Lib.InsertionMap
import Rabotka.Lib.Text

/-!
# The months of a career

The jobs that a CV lists are placed in time by their dates, and `experienceMonths` adds them up
month by month: the months of the jobs that are not volunteering, and the weight of each month,
which is the largest one of a job that covers it.

The loop is compared with these two sums (`experienceMonths_eq`). What the code is for follows from
the sums: neither the order of the jobs nor a repetition matters, nor whether a job is listed in one
piece.
-/

namespace Rabotka.Screening

open Rabotka.Lib.InsertionMap

inductive EmploymentType
  | fullTime | partTime | internship | freelance | volunteer | unknown
  deriving DecidableEq

inductive Relevance
  | high | partly | none
  deriving DecidableEq

/-- When a job was held, in the CV's words. -/
structure Period where
  start : Option String
  «end» : Option String
  current : Bool
  deriving DecidableEq

/-- A job as it is read from the CV. -/
structure RawExperience extends Period where
  type : EmploymentType
  relevance : Relevance

/-- A job as it is stored, with the months counted. -/
structure CvExperience extends RawExperience where
  months : Option ℤ

/-! ### The code -/

def typeWeight : EmploymentType → ℚ
  | .fullTime => 1
  | .freelance => 1
  | .unknown => 1
  | .partTime => 1 / 2
  | .internship => 1 / 2
  | .volunteer => 1 / 4

def relevanceWeight : Relevance → ℚ
  | .high => 1
  | .partly => 1 / 2
  | .none => 0

/-- The longest career that is counted. -/
def maxMonths : ℤ := 50 * 12

def monthFrom (year month : ℤ) : Option ℤ :=
  if year < 1950 ∨ year > 2100 ∨ month < 1 ∨ month > 12 then none
  else some (year * 12 + (month - 1))

/-- The number that decimal digits spell. -/
def number (digits : List Char) : ℤ :=
  digits.foldl (fun n c => 10 * n + (c.toNat - 48 : ℤ)) 0

/-- `\d{4}`. -/
def isYear (digits : List Char) : Bool :=
  digits.all Char.isDigit && digits.length = 4

/-- `\d{1,2}`. -/
def isMonth (digits : List Char) : Bool :=
  digits.all Char.isDigit && (digits.length = 1 || digits.length = 2)

/-- `2019-03`, `03/2019`, or `2019`, which is read as a whole year. -/
def monthIndex (value : Option String) (atEnd : Bool) : Option ℤ :=
  match value with
  | none => none
  | some value =>
    if value = "" then none
    else
      let text := (Text.trim value).toList
      let first := text.takeWhile Char.isDigit
      match text.dropWhile Char.isDigit with
      | '-' :: rest =>
        if isYear first && isMonth rest then monthFrom (number first) (number rest) else none
      | '/' :: rest =>
        if isMonth first && isYear rest then monthFrom (number rest) (number first) else none
      | [] => if isYear first then monthFrom (number first) (if atEnd then 12 else 1) else none
      | _ => none

def isoMonth (index : ℤ) : String :=
  let month := toString (index % 12 + 1)
  toString (index / 12) ++ "-" ++ (if month.length < 2 then "0" ++ month else month)

/-- The months a job covers, first and last included. -/
def span (e : Period) (today : ℤ) : Option (ℤ × ℤ) :=
  match monthIndex e.start false with
  | none => none
  | some first =>
    if first > today then none
    else
      match if e.current then some today else monthIndex e.end true with
      | none => none
      | some last =>
        let last := min last today
        if last < first ∨ last - first ≥ maxMonths then none else some (first, last)

/-- The jobs as stored. -/
def normaliseExperiences (raw : List RawExperience) (today : ℤ) : List CvExperience :=
  raw.map fun e =>
    let start := monthIndex e.start false
    let last := if e.current then none else monthIndex e.end true
    let job : Period :=
      { start := start.map isoMonth
        «end» := last.map isoMonth
        current := e.current || start.isSome && (e.end.getD "" = "") }
    { toPeriod := job
      type := e.type
      relevance := e.relevance
      months := (span job today).map fun s => s.2 - s.1 + 1 }

/-- What the loop of `experienceMonths` has counted. -/
structure Tally where
  total : List ℤ
  relevant : List (ℤ × ℚ)

/-- `for (let m = s[0]; m <= s[1]; m++)`. -/
def monthsOf (s : ℤ × ℤ) : List ℤ :=
  (List.range (s.2 - s.1 + 1).toNat).map fun i : ℕ => s.1 + i

def weightOf (e : CvExperience) : ℚ :=
  typeWeight e.type * relevanceWeight e.relevance

/-- The body of the inner loop. -/
def visit (e : CvExperience) (t : Tally) (m : ℤ) : Tally where
  total := if e.type ≠ .volunteer then t.total.insert m else t.total
  relevant :=
    if weightOf e > (get t.relevant m).getD 0 then set t.relevant m (weightOf e) else t.relevant

def addExperience (today : ℤ) (t : Tally) (e : CvExperience) : Tally :=
  match span e.toPeriod today with
  | none => t
  | some s => (monthsOf s).foldl (visit e) t

structure Months where
  total : ℕ
  relevant : ℤ
  deriving DecidableEq

/-- The career in months. -/
def experienceMonths (experiences : List CvExperience) (today : ℤ) : Option Months :=
  let t := experiences.foldl (addExperience today) ⟨[], []⟩
  if t.total = [] ∧ t.relevant = [] then none
  else some ⟨t.total.length, Decimal.mathRound (t.relevant.map Prod.snd).sum⟩

/-! ### What it counts -/

/-- A job that is placed in time covers a month. -/
def Covers (today : ℤ) (e : CvExperience) (m : ℤ) : Prop :=
  ∃ s, span e.toPeriod today = some s ∧ s.1 ≤ m ∧ m ≤ s.2

/-- The months that a job covers. -/
def covered (today : ℤ) (e : CvExperience) : List ℤ :=
  match span e.toPeriod today with
  | none => []
  | some s => monthsOf s

/-- The months that some job covers. -/
def coveredMonths (today : ℤ) (experiences : List CvExperience) : Finset ℤ :=
  (experiences.flatMap (covered today)).toFinset

/-- The months that a job other than volunteering covers. -/
def careerMonths (today : ℤ) (experiences : List CvExperience) : Finset ℤ :=
  coveredMonths today (experiences.filter fun e => e.type ≠ .volunteer)

/-- The largest weight of a job that covers the month; zero if there is none. -/
def bestWeight (today : ℤ) (experiences : List CvExperience) (m : ℤ) : ℚ :=
  ((experiences.filter fun e => m ∈ covered today e).map weightOf).foldr max 0

/-- The weights of all months. -/
def relevantSum (today : ℤ) (experiences : List CvExperience) : ℚ :=
  ∑ m ∈ coveredMonths today experiences, bestWeight today experiences m

variable {today : ℤ} {e : CvExperience} {es es' : List CvExperience} {m : ℤ}

theorem mem_monthsOf {s : ℤ × ℤ} : m ∈ monthsOf s ↔ s.1 ≤ m ∧ m ≤ s.2 := by
  rw [monthsOf, List.mem_map]
  constructor
  · rintro ⟨i, hi, rfl⟩
    rw [List.mem_range] at hi
    omega
  · rintro ⟨hlow, hhigh⟩
    refine ⟨(m - s.1).toNat, ?_, by omega⟩
    rw [List.mem_range]
    omega

theorem mem_covered : m ∈ covered today e ↔ Covers today e m := by
  unfold covered Covers
  cases span e.toPeriod today with
  | none => simp
  | some s => simp [mem_monthsOf]

theorem mem_coveredMonths : m ∈ coveredMonths today es ↔ ∃ e ∈ es, Covers today e m := by
  rw [coveredMonths, List.mem_toFinset, List.mem_flatMap]
  simp only [mem_covered]

theorem mem_careerMonths :
    m ∈ careerMonths today es ↔ ∃ e ∈ es, e.type ≠ .volunteer ∧ Covers today e m := by
  rw [careerMonths, mem_coveredMonths]
  simp only [List.mem_filter, decide_eq_true_eq, and_assoc]

private theorem foldr_max_le_iff {ws : List ℚ} {w : ℚ} :
    ws.foldr max 0 ≤ w ↔ 0 ≤ w ∧ ∀ x ∈ ws, x ≤ w := by
  induction ws with
  | nil => simp
  | cons x ws ih =>
    rw [List.foldr_cons, max_le_iff, ih, List.forall_mem_cons]
    tauto

theorem bestWeight_le_iff {w : ℚ} :
    bestWeight today es m ≤ w ↔ 0 ≤ w ∧ ∀ e ∈ es, Covers today e m → weightOf e ≤ w := by
  rw [bestWeight, foldr_max_le_iff, List.forall_mem_map]
  simp only [List.mem_filter, decide_eq_true_eq, mem_covered, and_imp]

theorem bestWeight_nonneg : 0 ≤ bestWeight today es m :=
  (bestWeight_le_iff.mp le_rfl).1

theorem bestWeight_of_not_covered (h : ∀ e ∈ es, ¬ Covers today e m) : bestWeight today es m = 0 :=
  le_antisymm (bestWeight_le_iff.mpr ⟨le_rfl, fun e he hcovers => absurd hcovers (h e he)⟩)
    bestWeight_nonneg

/-- One more job. -/
theorem bestWeight_concat : bestWeight today (es ++ [e]) m
      = if m ∈ covered today e then max (bestWeight today es m) (weightOf e)
        else bestWeight today es m := by
  refine eq_of_forall_ge_iff fun w => ?_
  rw [bestWeight_le_iff]
  rw [List.forall_mem_append, List.forall_mem_singleton]
  split_ifs with hcovers
  · rw [mem_covered] at hcovers
    rw [max_le_iff, bestWeight_le_iff, and_assoc]
    simp only [hcovers, forall_const]
  · rw [mem_covered] at hcovers
    rw [bestWeight_le_iff]
    simp only [hcovers, false_implies, and_true]

/-! ### The loop -/

/-- What a tally of some jobs holds. -/
structure Counted (today : ℤ) (es : List CvExperience) (t : Tally) : Prop where
  nodup : t.total.Nodup
  mem_total : ∀ m, m ∈ t.total ↔ ∃ e ∈ es, e.type ≠ .volunteer ∧ Covers today e m
  keys_nodup : (keys t.relevant).Nodup
  positive : ∀ m w, get t.relevant m = some w → 0 < w
  weight : ∀ m, (get t.relevant m).getD 0 = bestWeight today es m

/-- What the inner loop does to a tally. -/
structure Visited (e : CvExperience) (ms : List ℤ) (t t' : Tally) : Prop where
  nodup : t.total.Nodup → t'.total.Nodup
  mem_total : ∀ m, m ∈ t'.total ↔ m ∈ t.total ∨ e.type ≠ .volunteer ∧ m ∈ ms
  keys_nodup : (keys t.relevant).Nodup → (keys t'.relevant).Nodup
  positive : (∀ m w, get t.relevant m = some w → 0 < w) → ∀ m w, get t'.relevant m = some w → 0 < w
  weight : ∀ m, (get t'.relevant m).getD 0
    = if m ∈ ms then max ((get t.relevant m).getD 0) (weightOf e) else (get t.relevant m).getD 0

/-- One month. -/
theorem visited_visit (t : Tally) (m : ℤ) : Visited e [m] t (visit e t m) where
  nodup h := by
    simp only [visit]
    split_ifs
    · exact h.insert
    · exact h
  mem_total k := by
    simp only [visit]
    split_ifs with hvolunteer
    · simp [hvolunteer, or_comm]
    · simp [hvolunteer]
  keys_nodup h := by
    simp only [visit]
    split_ifs
    · exact nodup_keys_set h
    · exact h
  positive h k w hk := by
    simp only [visit] at hk
    split_ifs at hk with hgt
    · rw [get_set] at hk
      split_ifs at hk with hkm
      · obtain rfl := Option.some.inj hk
        refine lt_of_le_of_lt ?_ hgt
        cases hm : get t.relevant m with
        | none => exact le_rfl
        | some v => exact le_of_lt (h m v hm)
      · exact h k w hk
    · exact h k w hk
  weight k := by
    simp only [visit, List.mem_singleton]
    split_ifs with hgt hkm hkm
    · subst hkm
      rw [get_set, if_pos rfl, Option.getD_some, max_eq_right hgt.le]
    · rw [get_set, if_neg (Ne.symm hkm)]
    · subst hkm
      rw [max_eq_left (not_lt.mp hgt)]
    · rfl

theorem Visited.trans {ms ns : List ℤ} {t t' t'' : Tally} (h : Visited e ms t t')
    (h' : Visited e ns t' t'') : Visited e (ms ++ ns) t t'' where
  nodup hnodup := h'.nodup (h.nodup hnodup)
  mem_total k := by
    rw [h'.mem_total, h.mem_total, List.mem_append]
    tauto
  keys_nodup hnodup := h'.keys_nodup (h.keys_nodup hnodup)
  positive hpositive := h'.positive (h.positive hpositive)
  weight k := by
    rw [h'.weight, h.weight]
    by_cases hk : k ∈ ms <;> by_cases hk' : k ∈ ns <;> simp [hk, hk']

theorem visited_foldl (ms : List ℤ) (t : Tally) : Visited e ms t (ms.foldl (visit e) t) := by
  induction ms generalizing t with
  | nil => exact ⟨id, by simp, id, id, by simp⟩
  | cons m ms ih => exact (visited_visit t m).trans (ih (visit e t m))

variable {t : Tally}

/-- One job. -/
theorem Counted.addExperience (h : Counted today es t) (e : CvExperience) :
    Counted today (es ++ [e]) (addExperience today t e) := by
  have hvisited : Visited e (covered today e) t (Screening.addExperience today t e) := by
    rw [Screening.addExperience, covered]
    cases span e.toPeriod today with
    | none => exact visited_foldl [] t
    | some s => exact visited_foldl (monthsOf s) t
  refine ⟨hvisited.nodup h.nodup, fun m => ?_, hvisited.keys_nodup h.keys_nodup,
    hvisited.positive h.positive, fun m => ?_⟩
  · rw [hvisited.mem_total, h.mem_total, mem_covered]
    simp only [List.mem_append, List.mem_singleton, or_and_right, exists_or, exists_eq_left]
  · rw [hvisited.weight, h.weight, bestWeight_concat]

theorem counted_foldl (es : List CvExperience) :
    Counted today es (es.foldl (Screening.addExperience today) ⟨[], []⟩) := by
  induction es using List.reverseRecOn with
  | nil => exact ⟨List.nodup_nil, by simp, List.nodup_nil, by simp, by simp [bestWeight]⟩
  | append_singleton es e ih =>
    rw [List.foldl_concat]
    exact ih.addExperience e

theorem Counted.length (h : Counted today es t) :
    t.total.length = (careerMonths today es).card := by
  rw [← List.toFinset_card_of_nodup h.nodup]
  congr 1
  ext m
  rw [List.mem_toFinset, h.mem_total, mem_careerMonths]

/-- The weights in the map are those of all months. -/
theorem Counted.sum (h : Counted today es t) :
    (t.relevant.map Prod.snd).sum = relevantSum today es := by
  have hvalues : t.relevant.map Prod.snd
      = (keys t.relevant).map fun m => bestWeight today es m := by
    rw [keys, List.map_map]
    refine List.map_congr_left fun x hx => ?_
    have hget := (mem_iff_get h.keys_nodup).mp hx
    rw [Function.comp_apply, ← h.weight, hget, Option.getD_some]
  rw [hvalues, ← List.sum_toFinset _ h.keys_nodup, relevantSum]
  refine Finset.sum_subset (fun m hm => ?_) fun m _ hm => ?_
  · rw [List.mem_toFinset, ← isSome_get_iff] at hm
    obtain ⟨w, hw⟩ := Option.isSome_iff_exists.mp hm
    by_contra hnot
    rw [mem_coveredMonths] at hnot
    push Not at hnot
    have hzero := h.weight m
    rw [hw, Option.getD_some, bestWeight_of_not_covered hnot] at hzero
    exact absurd hzero (ne_of_gt (h.positive m w hw))
  · rw [List.mem_toFinset, ← get_eq_none_iff] at hm
    rw [← h.weight, hm]
    rfl

theorem Counted.total_eq_nil (h : Counted today es t) :
    t.total = [] ↔ careerMonths today es = ∅ := by
  rw [← List.length_eq_zero_iff, h.length, Finset.card_eq_zero]

theorem Counted.relevant_eq_nil (h : Counted today es t) :
    t.relevant = [] ↔ relevantSum today es = 0 := by
  rw [← h.sum]
  constructor
  · intro hnil
    rw [hnil]
    rfl
  · intro hzero
    have hpositive : ∀ w ∈ t.relevant.map Prod.snd, 0 < w := by
      intro w hw
      obtain ⟨x, hx, rfl⟩ := List.mem_map.mp hw
      exact h.positive x.1 x.2 ((mem_iff_get h.keys_nodup).mp hx)
    by_contra hne
    have hne' : t.relevant.map Prod.snd ≠ [] := by
      rwa [Ne, List.map_eq_nil_iff]
    exact absurd hzero (ne_of_gt (List.sum_pos _ hpositive hne'))

/-- The figures are the number of months, and the rounded sum of their weights. -/
theorem experienceMonths_eq (es : List CvExperience) (today : ℤ) : experienceMonths es today
      = if careerMonths today es = ∅ ∧ relevantSum today es = 0 then none
        else some ⟨(careerMonths today es).card, Decimal.mathRound (relevantSum today es)⟩ := by
  have h : Counted today es (es.foldl (addExperience today) ⟨[], []⟩) := counted_foldl es
  unfold experienceMonths
  simp only [h.total_eq_nil, h.relevant_eq_nil, h.length, h.sum]

/-! ### Months covered alike -/

/-- Every month that a job covers is covered by a job of the same kind in the other list. -/
def Within (today : ℤ) (es es' : List CvExperience) : Prop :=
  ∀ e ∈ es, ∀ m, Covers today e m →
    ∃ e' ∈ es', e'.type = e.type ∧ e'.relevance = e.relevance ∧ Covers today e' m

theorem within_of_subset (h : es ⊆ es') : Within today es es' :=
  fun e he _ hcovers => ⟨e, h he, rfl, rfl, hcovers⟩

theorem Within.coveredMonths (h : Within today es es') :
    coveredMonths today es ⊆ coveredMonths today es' := by
  intro m hm
  rw [mem_coveredMonths] at hm ⊢
  obtain ⟨e, he, hcovers⟩ := hm
  obtain ⟨e', he', -, -, hcovers'⟩ := h e he m hcovers
  exact ⟨e', he', hcovers'⟩

theorem Within.careerMonths (h : Within today es es') :
    careerMonths today es ⊆ careerMonths today es' := by
  intro m hm
  rw [mem_careerMonths] at hm ⊢
  obtain ⟨e, he, htype, hcovers⟩ := hm
  obtain ⟨e', he', htype', -, hcovers'⟩ := h e he m hcovers
  exact ⟨e', he', htype' ▸ htype, hcovers'⟩

theorem Within.bestWeight (h : Within today es es') (m : ℤ) :
    bestWeight today es m ≤ bestWeight today es' m := by
  refine bestWeight_le_iff.mpr ⟨bestWeight_nonneg, fun e he hcovers => ?_⟩
  obtain ⟨e', he', htype, hrelevance, hcovers'⟩ := h e he m hcovers
  have hle := (bestWeight_le_iff.mp (le_refl (Screening.bestWeight today es' m))).2 e' he' hcovers'
  rwa [weightOf, htype, hrelevance] at hle

theorem Within.relevantSum (h : Within today es es') :
    relevantSum today es ≤ relevantSum today es' := by
  refine le_trans (Finset.sum_le_sum fun m _ => h.bestWeight m) ?_
  exact Finset.sum_le_sum_of_subset_of_nonneg h.coveredMonths fun _ _ _ => bestWeight_nonneg

/-- Lists that cover the same months with jobs of the same kinds have the same figures. -/
theorem experienceMonths_congr (h : Within today es es') (h' : Within today es' es) :
    experienceMonths es today = experienceMonths es' today := by
  rw [experienceMonths_eq, experienceMonths_eq,
    Finset.Subset.antisymm h.careerMonths h'.careerMonths, le_antisymm h.relevantSum h'.relevantSum]

theorem mathRound_mono {x y : ℚ} (h : x ≤ y) : Decimal.mathRound x ≤ Decimal.mathRound y :=
  Int.floor_le_floor (by linarith)

theorem mathRound_natCast (n : ℕ) : Decimal.mathRound n = n := by
  rw [Decimal.mathRound, Int.floor_eq_iff]
  constructor <;> push_cast <;> linarith

/-- More months never make the figures drop. -/
theorem Within.experienceMonths (h : Within today es es') {r : Months}
    (hr : experienceMonths es today = some r) :
    ∃ r', experienceMonths es' today = some r' ∧ r.total ≤ r'.total ∧ r.relevant ≤ r'.relevant := by
  rw [experienceMonths_eq] at hr ⊢
  split_ifs at hr with hnone
  obtain rfl := Option.some.inj hr
  have hsum : 0 ≤ Screening.relevantSum today es := Finset.sum_nonneg fun _ _ => bestWeight_nonneg
  rw [if_neg]
  · exact ⟨_, rfl, Finset.card_le_card h.careerMonths, mathRound_mono h.relevantSum⟩
  · rintro ⟨hcareer, hzero⟩
    refine hnone ⟨Finset.subset_empty.mp (hcareer ▸ h.careerMonths), le_antisymm ?_ hsum⟩
    exact hzero ▸ h.relevantSum

theorem weightOf_le_one (e : CvExperience) : weightOf e ≤ 1 := by
  unfold weightOf typeWeight relevanceWeight
  cases e.type <;> cases e.relevance <;> norm_num

theorem relevantSum_le : relevantSum today es ≤ (coveredMonths today es).card := by
  have hone : ∀ m ∈ coveredMonths today es, bestWeight today es m ≤ 1 := fun m _ =>
    bestWeight_le_iff.mpr ⟨zero_le_one, fun e _ _ => weightOf_le_one e⟩
  calc relevantSum today es
      ≤ ∑ _m ∈ coveredMonths today es, (1 : ℚ) := Finset.sum_le_sum hone
    _ = (coveredMonths today es).card := by rw [Finset.sum_const, nsmul_eq_mul, mul_one]

/-! ### What the figures stand for -/

/-- What is said of the figures of a list of jobs. -/
structure OncePerMonth (today : ℤ) (es : List CvExperience) : Prop where
  /-- They are the months of the career and the rounded sum of the weights. -/
  figures : experienceMonths es today
    = if careerMonths today es = ∅ ∧ relevantSum today es = 0 then none
      else some ⟨(careerMonths today es).card, Decimal.mathRound (relevantSum today es)⟩
  perm : ∀ es', es'.Perm es → experienceMonths es' today = experienceMonths es today
  duplicate : ∀ before after e, es = before ++ after → e ∈ es →
    experienceMonths (before ++ e :: after) today = experienceMonths es today
  /-- A job that is placed in time may be listed in pieces that cover its months. -/
  split : ∀ before after e pieces, es = before ++ e :: after → (span e.toPeriod today).isSome →
    (∀ p ∈ pieces, p.type = e.type ∧ p.relevance = e.relevance) →
    (∀ m, Covers today e m ↔ ∃ p ∈ pieces, Covers today p m) →
    experienceMonths (before ++ pieces ++ after) today = experienceMonths es today
  add : ∀ before after e r, es = before ++ after → experienceMonths es today = some r →
    ∃ r', experienceMonths (before ++ e :: after) today = some r' ∧ r.total ≤ r'.total
      ∧ r.relevant ≤ r'.relevant
  bound : ∀ r, experienceMonths es today = some r → r.relevant ≤ (coveredMonths today es).card

end Rabotka.Screening
