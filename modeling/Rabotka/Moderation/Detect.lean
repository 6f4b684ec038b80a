import Rabotka.Lib.Ranges
import Rabotka.Lib.Text
import Rabotka.Moderation.Offsets

/-!
# Finding contact details

`detectContacts`, from its patterns to the spans it returns. A pattern is a regular expression, run
on the message or on its folded text; what it finds is in the text it is given, not before the
position it is run from (`Hit`), and which parts of a text it finds is a parameter
(`Expressions`). The matches of all the patterns are sorted and merged, and the pattern that stands
first in the list names what is merged.

Every match goes back to a part of the message that is not empty (`exists_matches`).
-/

namespace Rabotka.Moderation

/-- `RedactionCategory`. -/
inductive RedactionCategory
  | phone
  | email
  | messagingHandle
  | url
  | obfuscatedDigits
  deriving DecidableEq

/-- `PatternScope`: the text that a pattern is run on. -/
inductive PatternScope
  | raw
  | folded
  deriving DecidableEq

/-- What running an expression on a text, from a position on, finds. -/
structure Hit (text : Units) (lastIndex : ℕ) where
  index : ℕ
  length : ℕ
  from_lastIndex : lastIndex ≤ index
  inside : index + length ≤ text.length

/-- A regular expression with the flag `g`, as its `exec`. -/
abbrev Pattern := (text : Units) → (lastIndex : ℕ) → Option (Hit text lastIndex)

/-- `PatternSpec`. -/
structure PatternSpec where
  id : String
  category : RedactionCategory
  scope : PatternScope
  pattern : Pattern

/-- `DetectedSpan`. -/
structure DetectedSpan extends Span where
  category : RedactionCategory
  matchedBy : String
  deriving DecidableEq

/-- A match: a span with the place of its pattern in the list. -/
structure Found extends DetectedSpan where
  priority : ℕ
  deriving DecidableEq

/-! ### The patterns -/

/-- The regular expressions; `operator` is the one made of a list of prefixes. -/
structure Expressions where
  email : Pattern
  messengerLink : Pattern
  url : Pattern
  phoneIntl : Pattern
  phoneLocal : Pattern
  phoneBare : Pattern
  handle : Pattern
  zeroLedRun : Pattern
  spelledRun : Pattern
  operator : List String → Pattern

/-- `BASE_PATTERNS`: the most specific first. -/
def basePatterns (e : Expressions) : List PatternSpec :=
  [⟨"email", .email, .raw, e.email⟩,
    ⟨"messenger_link", .messagingHandle, .raw, e.messengerLink⟩,
    ⟨"url", .url, .raw, e.url⟩,
    ⟨"phone_intl", .phone, .raw, e.phoneIntl⟩,
    ⟨"phone_local", .phone, .raw, e.phoneLocal⟩,
    ⟨"phone_bare", .phone, .raw, e.phoneBare⟩,
    ⟨"handle", .messagingHandle, .raw, e.handle⟩,
    ⟨"spelled_zero_lead", .obfuscatedDigits, .folded, e.zeroLedRun⟩,
    ⟨"spelled_digits", .obfuscatedDigits, .folded, e.spelledRun⟩]

/-- `/^\d{1,4}$/`. -/
def isPrefix (p : String) : Bool :=
  decide (1 ≤ p.length ∧ p.length ≤ 4) && p.toList.all Char.isDigit

def operatorPrefixPattern (e : Expressions) (prefixes : List String) : Option PatternSpec :=
  let clean := ((prefixes.map Text.trim).eraseDups).filter isPrefix
  if clean = [] then none
  else some ⟨"operator_prefix", .phone, .raw, e.operator clean⟩

/-! ### Matching -/

/-- The loop of `matchAll`, from a position on. -/
def matchAllFrom (text : Units) (spec : PatternSpec) (priority lastIndex : ℕ) : List Found :=
  match spec.pattern text lastIndex with
  | none => []
  | some hit =>
    -- an empty match does not advance by itself
    if hit.length = 0 then matchAllFrom text spec priority (hit.index + 1)
    else
      ⟨⟨⟨hit.index, hit.index + hit.length⟩, spec.category, spec.id⟩, priority⟩ ::
        matchAllFrom text spec priority (hit.index + hit.length)
termination_by text.length + 1 - lastIndex
decreasing_by
  · have := hit.from_lastIndex
    have := hit.inside
    omega
  · have := hit.from_lastIndex
    have := hit.inside
    omega

def matchAll (text : Units) (spec : PatternSpec) (priority : ℕ) : List Found :=
  matchAllFrom text spec priority 0

/-! ### Merging -/

/-- The comparison that matches are sorted by: where they start, then where they end. -/
def byStartThenEnd (a b : Found) : ℤ :=
  if a.start = b.start then (a.end : ℤ) - b.end else (a.start : ℤ) - b.start

/-- What becomes of the open span when a match starts in it or at its end. -/
def absorb (current span : Found) : Found where
  start := current.start
  «end» := max current.end span.end
  category := if span.priority < current.priority then span.category else current.category
  matchedBy := if span.priority < current.priority then span.matchedBy else current.matchedBy
  priority := min current.priority span.priority

/-- The variables of the loop of `merge`. -/
structure MergeState where
  merged : List DetectedSpan
  current : Found

def mergeStep (st : MergeState) (span : Found) : MergeState :=
  if span.start ≤ st.current.end then { st with current := absorb st.current span }
  else { merged := st.merged ++ [st.current.toDetectedSpan], current := span }

def sortSpans (spans : List Found) : List Found :=
  spans.mergeSort fun a b => byStartThenEnd a b ≤ 0

def merge (spans : List Found) : List DetectedSpan :=
  match sortSpans spans with
  | [] => []
  | first :: rest =>
    let st := rest.foldl mergeStep ⟨[], first⟩
    st.merged ++ [st.current.toDetectedSpan]

@[simp]
theorem merge_nil : merge [] = [] := by
  simp [merge, sortSpans]

/-! ### Detection -/

/-- `MAX_SCAN_LENGTH`. -/
def maxScanLength : ℕ := 4000

/-- The part of a message that is scanned. -/
def scanned (input : Units) : Units :=
  if maxScanLength < input.length then input.take maxScanLength else input

/-- `DetectOptions`. -/
structure DetectOptions where
  operatorPrefixes : List String := []
  disabled : List RedactionCategory := []
  deriving DecidableEq

/-- The expressions and the folding of the server. -/
structure Detector where
  expressions : Expressions
  folding : Folding

namespace Detector

variable (d : Detector)

def specs (options : DetectOptions) : List PatternSpec :=
  basePatterns d.expressions ++
    (operatorPrefixPattern d.expressions options.operatorPrefixes).toList

/-- The matches of one pattern, as parts of the message. -/
def matchesOf (text : Units) (disabled : List RedactionCategory) (spec : PatternSpec)
    (index : ℕ) : Except String (List Found) :=
  if spec.category ∈ disabled then pure []
  else
    match spec.scope with
    | .raw => pure (matchAll text spec index)
    | .folded =>
      let folded := d.folding.foldWithOffsets text
      if folded.text.length = 0 then pure []
      else
        (matchAll folded.text spec index).mapM fun hit => do
          let source ← toSourceSpan folded hit.toSpan
          pure { hit with start := source.start, «end» := source.end }

/-- What `detectContacts` merges. -/
def found (input : Units) (options : DetectOptions) : Except String (List Found) := do
  let lists ← (d.specs options).zipIdx.mapM fun entry =>
    d.matchesOf (scanned input) options.disabled entry.1 entry.2
  pure lists.flatten

def detectContacts (input : Units) (options : DetectOptions) :
    Except String (List DetectedSpan) := do
  if input = [] then pure []
  else
    let found ← d.found input options
    pure (merge found)

end Detector

/-! ### Where the matches are -/

/-- A match that is not empty, in the part of the message that is scanned. -/
def Found.In (m : Found) (input : Units) : Prop :=
  m.start < m.end ∧ m.end ≤ (scanned input).length

instance (m : Found) (input : Units) : Decidable (m.In input) :=
  inferInstanceAs (Decidable (m.start < m.end ∧ m.end ≤ (scanned input).length))

theorem mem_matchAllFrom {text : Units} {spec : PatternSpec} {priority lastIndex : ℕ} {m : Found}
    (h : m ∈ matchAllFrom text spec priority lastIndex) :
    m.start < m.end ∧ m.end ≤ text.length := by
  induction lastIndex using matchAllFrom.induct text spec with
  | case1 lastIndex hnone =>
    rw [matchAllFrom, hnone] at h
    cases h
  | case2 lastIndex hit hhit hempty ih =>
    rw [matchAllFrom, hhit] at h
    simp only [hempty, ↓reduceIte] at h
    exact ih h
  | case3 lastIndex hit hhit hempty ih =>
    rw [matchAllFrom, hhit] at h
    simp only [hempty, ↓reduceIte] at h
    rcases List.mem_cons.1 h with rfl | h
    · exact ⟨Nat.lt_add_of_pos_right (Nat.pos_of_ne_zero hempty), hit.inside⟩
    · exact ih h

/-- Mapping a function that does not throw on the members of a list. -/
theorem exists_mapM {α β : Type*} {f : α → Except String β} {P : β → Prop} {l : List α}
    (h : ∀ x ∈ l, ∃ y, f x = .ok y ∧ P y) : ∃ ys, l.mapM f = .ok ys ∧ ∀ y ∈ ys, P y := by
  induction l with
  | nil => exact ⟨[], rfl, fun y hy => nomatch hy⟩
  | cons x l ih =>
    obtain ⟨y, hy, hP⟩ := h x List.mem_cons_self
    obtain ⟨ys, hys, hall⟩ := ih fun z hz => h z (List.mem_cons_of_mem _ hz)
    refine ⟨y :: ys, ?_, ?_⟩
    · rw [List.mapM_cons, hy, hys]
      rfl
    · intro z hz
      rcases List.mem_cons.1 hz with rfl | hz
      · exact hP
      · exact hall z hz

namespace Detector

variable {d : Detector} {input : Units} {options : DetectOptions}

theorem exists_matchesOf (text : Units) (disabled : List RedactionCategory) (spec : PatternSpec)
    (index : ℕ) : ∃ l, d.matchesOf text disabled spec index = .ok l ∧
      ∀ m ∈ l, m.start < m.end ∧ m.end ≤ text.length := by
  unfold matchesOf
  split_ifs with hdisabled
  · exact ⟨[], rfl, fun m hm => nomatch hm⟩
  · cases spec.scope with
    | raw => exact ⟨_, rfl, fun m hm => mem_matchAllFrom hm⟩
    | folded =>
      simp only
      split_ifs with hempty
      · exact ⟨[], rfl, fun m hm => nomatch hm⟩
      · refine exists_mapM fun hit hhit => ?_
        obtain ⟨hlt, hle⟩ := mem_matchAllFrom hhit
        obtain ⟨source, hsource, hin⟩ :=
          @Folding.exists_sourceSpan d.folding _ hit.toSpan hlt hle
        refine ⟨{ hit with start := source.start, «end» := source.end }, ?_, hin⟩
        rw [hsource]
        rfl

/-- No match makes the detection throw, and every match is a part of the scanned text that is not
empty. -/
theorem exists_found (d : Detector) (input : Units) (options : DetectOptions) :
    ∃ l, d.found input options = .ok l ∧ ∀ m ∈ l, m.In input := by
  obtain ⟨lists, hlists, hall⟩ := exists_mapM (f := fun entry : PatternSpec × ℕ =>
      d.matchesOf (scanned input) options.disabled entry.1 entry.2)
    (P := fun l => ∀ m ∈ l, Found.In m input) (l := (d.specs options).zipIdx)
    fun entry _ => exists_matchesOf _ _ _ _
  refine ⟨lists.flatten, ?_, fun m hm => ?_⟩
  · rw [found, hlists]
    rfl
  · obtain ⟨l, hl, hm⟩ := List.mem_flatten.1 hm
    exact hall l hl m hm

/-- `detectContacts` merges the matches; an empty message has none. -/
theorem exists_matches (d : Detector) (input : Units) (options : DetectOptions) :
    ∃ l, d.found input options = .ok l ∧ (∀ m ∈ l, m.In input) ∧
      d.detectContacts input options = .ok (merge l) := by
  obtain ⟨l, hl, hin⟩ := d.exists_found input options
  refine ⟨l, hl, hin, ?_⟩
  unfold detectContacts
  split_ifs with hempty
  · have hnil : l = [] := by
      refine List.eq_nil_iff_forall_not_mem.2 fun m hm => ?_
      obtain ⟨hlt, hle⟩ := hin m hm
      rw [hempty] at hle
      exact absurd (hlt.trans_le hle) (Nat.not_lt_zero _)
    rw [hnil, merge_nil]
    rfl
  · rw [hl]
    rfl

end Detector

end Rabotka.Moderation

/-!
## Redaction and the verdict on a message

`redact`, `redactedRatio` and `ModerationService.review`: every span is replaced by the placeholder
of its category, from the back to the front; the share of the message that is withheld is compared
with a threshold, and from it on nothing is delivered. The share is an exact number.
-/

namespace Rabotka.Moderation

/-- The units of a text of characters of the basic plane. -/
def units (text : String) : Units := text.toList.map fun c => UInt16.ofNat c.toNat

/-- `PLACEHOLDERS`. -/
def placeholder : RedactionCategory → Units
  | .phone => units "[numéro masqué]"
  | .email => units "[email masqué]"
  | .messagingHandle => units "[contact masqué]"
  | .url => units "[lien masqué]"
  | .obfuscatedDigits => units "[numéro masqué]"

/-- One turn of the loop of `redact`. -/
def redactSpan (out : Units) (span : DetectedSpan) : Units :=
  out.take span.start ++ placeholder span.category ++ out.drop span.end

def redact (input : Units) (spans : List DetectedSpan) : Units :=
  if spans = [] then input
  else
    let ordered := spans.mergeSort fun a b => (b.start : ℤ) - a.start ≤ 0
    ordered.foldl redactSpan input

def redactedRatio (input : Units) (spans : List DetectedSpan) : ℚ :=
  if input.length = 0 ∨ spans = [] then 0
  else
    let covered : ℤ := spans.foldl (fun sum s => sum + ((s.end : ℤ) - s.start)) 0
    min 1 (covered / input.length)

/-- `MessageModerationStatus`. -/
inductive MessageModerationStatus
  | clean
  | redacted
  | held
  deriving DecidableEq

/-- `ModerationVerdict`. -/
structure ModerationVerdict where
  status : MessageModerationStatus
  spans : List DetectedSpan
  deliveredBody : Units
  ratio : ℚ
  deriving DecidableEq

/-- `DEFAULT_HELD_RATIO`. -/
def defaultHeldRatio : ℚ := 1 / 2

/-- The service: its patterns, and the two settings. `heldRatio` is what `parseFloat` makes of the
second, and `none` if that is not finite. -/
structure ModerationService extends Detector where
  operatorPrefixes : String
  heldRatio : Option ℚ

namespace ModerationService

variable (service : ModerationService)

/-- The options of `detectContacts`: the prefixes of the setting, without the empty ones. -/
def options : DetectOptions where
  operatorPrefixes :=
    ((service.operatorPrefixes.splitOn ",").map Text.trim).filter fun p => !p.isEmpty

def heldRatioThreshold : ℚ :=
  match service.heldRatio with
  | none => defaultHeldRatio
  | some value => if value ≤ 0 ∨ 1 < value then defaultHeldRatio else value

/-- `review` once the spans are known. -/
def judge (body : Units) (spans : List DetectedSpan) : ModerationVerdict :=
  if spans = [] then { status := .clean, spans := [], deliveredBody := body, ratio := 0 }
  else
    let ratio := redactedRatio body spans
    if service.heldRatioThreshold ≤ ratio then
      { status := .held, spans, deliveredBody := [], ratio }
    else { status := .redacted, spans, deliveredBody := redact body spans, ratio }

def review (body : Units) : Except String ModerationVerdict := do
  let spans ← service.detectContacts body service.options
  pure (service.judge body spans)

end ModerationService

end Rabotka.Moderation
