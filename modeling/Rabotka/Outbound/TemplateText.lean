import Mathlib.Data.List.Flatten
import Rabotka.Lib.Words
import Rabotka.Moderation.Normalize

/-!
# Text in a template variable

`sanitizeTemplateVariable` puts a text on one line, in eight passes: white space is trimmed, line
breaks are made alike, control and format characters are removed, runs of blanks become a space,
blank lines a middle dot, other line breaks a space, and what that makes is squeezed and trimmed
again. `flattenForTemplateVariable` empties a text of separators only, and `capTemplateVar` cuts a
long one.

Texts are UTF-16 units; a pattern with the `u` flag reads code points.
-/

namespace Rabotka.Outbound

open Lib.Trim Lib.Words
open Moderation (Units codePoints isHigh isLow)

/-! ### Characters -/

def tab : UInt16 := 9
def lineFeed : UInt16 := 10
def carriageReturn : UInt16 := 13
def space : UInt16 := 32
def middleDot : UInt16 := 0xB7
def ellipsis : UInt16 := 0x2026

/-- The number of a code point. -/
def pointValue : Units → ℕ
  | [x] => x.toNat
  | [high, low] => 0x10000 + (high.toNat - 0xD800) * 1024 + (low.toNat - 0xDC00)
  | _ => 0

/-- The code points of the classes `Cc` and `Cf`. -/
def controlRanges : List (ℕ × ℕ) :=
  [(0, 0x1F), (0x7F, 0x9F), (0xAD, 0xAD), (0x600, 0x605), (0x61C, 0x61C), (0x6DD, 0x6DD),
    (0x70F, 0x70F), (0x890, 0x891), (0x8E2, 0x8E2), (0x180E, 0x180E), (0x200B, 0x200F),
    (0x202A, 0x202E), (0x2060, 0x2064), (0x2066, 0x206F), (0xFEFF, 0xFEFF), (0xFFF9, 0xFFFB),
    (0x110BD, 0x110BD), (0x110CD, 0x110CD), (0x13430, 0x1343F), (0x1BCA0, 0x1BCA3),
    (0x1D173, 0x1D17A), (0xE0001, 0xE0001), (0xE0020, 0xE007F)]

/-- `/[\p{Cc}\p{Cf}]/u`. -/
def isControl (point : Units) : Bool :=
  controlRanges.any fun r => decide (r.1 ≤ pointValue point ∧ pointValue point ≤ r.2)

/-! ### The code -/

/-- The replacement of `/\r\n?/g` by a line feed; a line feed right after a carriage return belongs
to it. -/
def normalizeFrom : (afterReturn : Bool) → Units → Units
  | _, [] => []
  | afterReturn, x :: rest =>
    if x = carriageReturn then lineFeed :: normalizeFrom true rest
    else if x = lineFeed ∧ afterReturn = true then normalizeFrom false rest
    else x :: normalizeFrom false rest

def normalizeBreaks (text : Units) : Units :=
  normalizeFrom false text

/-- A code point that stays: not a control or format character, or one of the two spared. -/
def stays (point : Units) : Bool :=
  !isControl point || point == [lineFeed] || point == [tab]

/-- The replacement of `/[\p{Cc}\p{Cf}]/gu`. -/
def removeControls (text : Units) : Units :=
  ((codePoints text).filter stays).flatten

/-- `[ \t]`. -/
def isBlank (x : UInt16) : Bool :=
  x == space || x == tab

/-- `' · '`. -/
def separator : Units := [space, middleDot, space]

/-- The first three passes. -/
def cleaned (text : Units) : Units :=
  removeControls (normalizeBreaks (trim isSpace text))

/-- The next four: what becomes of blanks and line breaks. -/
def joined (text : Units) : Units :=
  let text := replaceRuns isBlank 0 [space] text
  let text := replaceRuns (· == lineFeed) 1 separator text
  let text := text.map fun x => if x = lineFeed then space else x
  replaceRuns (· == space) 1 [space] text

def sanitizeTemplateVariable (text : Units) : Units :=
  trim isSpace (joined (cleaned text))

/-- `[·\s]`. -/
def isFiller (x : UInt16) : Bool :=
  x == middleDot || isSpace x

def flattenForTemplateVariable (text : Units) : Units :=
  let flattened := sanitizeTemplateVariable text
  if flattened.all isFiller then [] else flattened

/-- `lastIndexOf` of one unit: none where it is `-1`. -/
def lastIndexOfUnit (x : UInt16) : Units → Option ℕ
  | [] => none
  | y :: l =>
    match lastIndexOfUnit x l with
    | some i => some (i + 1)
    | none => if y = x then some 0 else none

/-- The place of the last space, if it is in the last fifth of the budget. -/
def lateSpace (budget : ℕ) (hard : Units) : Option ℕ :=
  (lastIndexOfUnit space hard).filter fun i => decide (4 * budget ≤ 5 * i)

def capTemplateVar (text : Units) (max : ℕ) : Units :=
  if text.length ≤ max then text
  else
    let budget := max - 1
    let hard := text.take budget
    let cut :=
      match lateSpace budget hard with
      | some i => hard.take i
      | none => hard
    trimEnd isSpace cut ++ [ellipsis]

/-! ### What it is for -/

/-- `\n`, `\r` and the line and paragraph separators. -/
def isLineBreak (x : UInt16) : Bool :=
  x == lineFeed || x == carriageReturn || x == 0x2028 || x == 0x2029

/-- What a variable may be: one line without tabs, control and format characters, two spaces in a
row, or white space at an end. -/
structure Acceptable (text : Units) : Prop where
  noBreak : ∀ x ∈ text, isLineBreak x = false
  noTab : tab ∉ text
  noControl : ∀ c ∈ codePoints text, isControl c = false
  noDouble : NoDouble space text
  trimmed : Trimmed isSpace text

/-- The words of a text: its maximal runs without white space, less what is removed from them. -/
def wordsOf (text : Units) : List Units :=
  ((blocks isSpace text).2.map fun b => removeControls b.1).filter (· ≠ [])

/-- `sanitizeTemplateVariable` does its work: what it returns is acceptable and its own result, has
the words in order, and is the words of the cleaned text with what becomes of the gaps between them,
so that a separator stands only between two words. -/
structure Sanitized (text : Units) : Prop where
  idempotent : sanitizeTemplateVariable (sanitizeTemplateVariable text)
    = sanitizeTemplateVariable text
  acceptable : Acceptable (sanitizeTemplateVariable text)
  words : InOrder (wordsOf text) (sanitizeTemplateVariable text)
  between : sanitizeTemplateVariable text = core joined (blocks isSpace (cleaned text)).2

/-- `flattenForTemplateVariable` does: it empties the texts whose words are separators, and only
these. -/
structure Flattened (text : Units) : Prop where
  idempotent : flattenForTemplateVariable (flattenForTemplateVariable text)
    = flattenForTemplateVariable text
  empty_iff : flattenForTemplateVariable text = [] ↔ ∀ w ∈ wordsOf text, ∀ x ∈ w, x = middleDot

/-- What is kept of a text ends with the first half of a pair of surrogates. -/
def EndsInHalf (text capped : Units) : Prop :=
  ∃ kept high low rest, capped = kept ++ [high, ellipsis] ∧ text = kept ++ high :: low :: rest
    ∧ isHigh high = true ∧ isLow low = true

/-- `capTemplateVar` does: the result fits, is still its own sanitised text, and does not end in
half of a pair. -/
structure Capped (text : Units) (max : ℕ) : Prop where
  length_le : (capTemplateVar text max).length ≤ max
  fixed : sanitizeTemplateVariable (capTemplateVar text max) = capTemplateVar text max
  whole : ¬ EndsInHalf text (capTemplateVar text max)

/-! ### When it does -/

/-- The removal leaves no control or format character behind (none is made of the halves around a
removed one), no blank line stands before the first word or after the last one once the removed
characters are gone, and no line or paragraph separator between them. -/
structure Benign (text : Units) : Prop where
  removed : removeControls (cleaned text) = cleaned text
  first : ¬ [lineFeed, lineFeed] <:+: (blocks isSpace (cleaned text)).1
  last : ¬ [lineFeed, lineFeed] <:+: lastGap (blocks isSpace (cleaned text)).2
  noSeparator : ∀ x ∈ trim isSpace (cleaned text), x ≠ 0x2028 ∧ x ≠ 0x2029

/-- The text is cut at the budget, in the middle of a pair. -/
def CutsPair (text : Units) (max : ℕ) : Prop :=
  max < text.length ∧ lateSpace (max - 1) (text.take (max - 1)) = none
    ∧ ∃ kept high low rest, text = kept ++ high :: low :: rest ∧ kept.length + 2 = max
      ∧ isHigh high = true ∧ isLow low = true

end Rabotka.Outbound

/-!
## Sanitised template variables

The passes act on the words and gaps of a text. The first three leave its words, less what is
removed from them, with the gaps between them, unless something is removed at an end and uncovers
white space (`cleaned_eq`). The next four go through the words and join each gap
(`joined_render`): blanks and line breaks become one space, a blank line a separator. The last trim
takes a joined gap away at either end, except for a separator.

So `sanitizeTemplateVariable` does its work exactly on the texts of which the removal makes no new
format character, uncovers no blank line at an end, and which have no line separator between words;
and `capTemplateVar` where its cut is not inside a pair (`template_variable_iff`).
-/

namespace Rabotka.Outbound

open Lib.Trim Lib.Words
open Moderation (Units codePoints isHigh isLow flatten_codePoints codePoint_cases
  codePoint_ne_nil)

/-! ### Code points -/

/-- Two texts have the code points of both, unless a pair is made between them. -/
theorem codePoints_append {u v : Units}
    (h : ∀ x ∈ u.getLast?, ∀ y ∈ v.head?, (isHigh x && isLow y) = false) :
    codePoints (u ++ v) = codePoints u ++ codePoints v := by
  induction u using Rabotka.Moderation.codePoints.induct with
  | case1 => rfl
  | case2 x =>
    rcases v with _ | ⟨y, v⟩
    · rfl
    · have hpair : ¬ (isHigh x && isLow y) = true := by simp [h x rfl y rfl]
      change (if isHigh x && isLow y then _ else [x] :: codePoints (y :: v)) = _
      rw [if_neg hpair]
      rfl
  | case3 x y rest hpair ih =>
    rw [List.cons_append, List.cons_append, codePoints, codePoints, if_pos hpair, if_pos hpair,
      List.cons_append]
    rcases rest with _ | ⟨z, rest⟩
    · rfl
    · rw [ih fun a ha => h a (by simpa using ha)]
  | case4 x y rest hpair ih =>
    rw [List.cons_append, List.cons_append, codePoints, codePoints, if_neg hpair, if_neg hpair,
      List.cons_append, ← List.cons_append, ih fun a ha => h a (by simpa using ha)]

/-- No pair of surrogates is a control or format character. -/
def NoControlPair (text : Units) : Prop :=
  text.IsChain fun x y => isHigh x = true → isLow y = true → isControl [x, y] = false

variable {x : UInt16}

theorem isHigh_of_isLow (h : isLow x = true) : isHigh x = false := by
  simp only [isHigh, isLow, Bool.and_eq_true, decide_eq_true_eq, UInt16.le_iff_toNat_le,
    UInt16.reduceToNat, Bool.and_eq_false_iff, decide_eq_false_iff_not] at h ⊢
  omega

theorem isControl_surrogate (h : isHigh x = true ∨ isLow x = true) : isControl [x] = false := by
  have hrange : 0xD800 ≤ x.toNat ∧ x.toNat ≤ 0xDFFF := by
    rcases h with h | h <;>
      simp only [isHigh, isLow, Bool.and_eq_true, decide_eq_true_eq, UInt16.le_iff_toNat_le] at h <;>
      obtain ⟨hlow, hhigh⟩ := h <;>
      simp only [UInt16.reduceToNat] at hlow hhigh <;> omega
  rw [isControl, List.any_eq_false]
  intro r hr
  have hvalue : pointValue [x] = x.toNat := rfl
  rw [hvalue, decide_eq_true_eq, not_and, not_le]
  intro hle
  have hall : ∀ r ∈ controlRanges, r.2 < 0xD800 ∨ 0xDFFF < r.1 := by decide +kernel
  rcases hall r hr with h | h <;> omega

/-- What holds of the lone surrogates holds of all code points, if it does of the units and of the
pairs. -/
theorem forall_codePoints_iff {q : Units → Bool}
    (hq : ∀ x, isHigh x = true ∨ isLow x = true → q [x] = true) {text : Units} :
    (∀ c ∈ codePoints text, q c = true) ↔ (∀ x ∈ text, q [x] = true)
        ∧ text.IsChain fun x y => isHigh x = true → isLow y = true → q [x, y] = true := by
  induction text using Rabotka.Moderation.codePoints.induct with
  | case1 | case2 => simp [codePoints]
  | case3 x y rest hpair ih =>
    obtain ⟨hhigh, hlow⟩ := Bool.and_eq_true_iff.mp hpair
    rw [codePoints, if_pos hpair, List.forall_mem_cons, ih, List.forall_mem_cons,
      List.forall_mem_cons, List.isChain_cons_cons, List.isChain_cons]
    have hnext : ∀ z ∈ rest.head?, isHigh y = true → isLow z = true → q [y, z] = true := by
      intro z _ hyHigh
      rw [isHigh_of_isLow hlow] at hyHigh
      cases hyHigh
    constructor
    · rintro ⟨hc, hunits, hchain⟩
      exact ⟨⟨hq x (Or.inl hhigh), hq y (Or.inr hlow), hunits⟩, fun _ _ => hc, hnext, hchain⟩
    · rintro ⟨⟨-, -, hunits⟩, hc, -, hchain⟩
      exact ⟨hc hhigh hlow, hunits, hchain⟩
  | case4 x y rest hpair ih =>
    rw [codePoints, if_neg hpair, List.forall_mem_cons, ih, @List.forall_mem_cons _ _ x,
      List.isChain_cons_cons]
    have hne : isHigh x = true → isLow y = true → q [x, y] = true :=
      fun hx hy => absurd (by simp [hx, hy]) hpair
    constructor
    · rintro ⟨hx, hunits, hchain⟩
      exact ⟨⟨hx, hunits⟩, hne, hchain⟩
    · rintro ⟨⟨hx, hunits⟩, -, hchain⟩
      exact ⟨hx, hunits, hchain⟩

variable {text : Units}

/-- A text has no control character if none of its units and no pair is one. -/
theorem noControl_iff : (∀ c ∈ codePoints text, isControl c = false)
      ↔ (∀ x ∈ text, isControl [x] = false) ∧ NoControlPair text := by
  have h := @forall_codePoints_iff (fun c => !isControl c)
    (fun x hx => by rw [isControl_surrogate hx]; rfl) text
  simpa only [NoControlPair, Bool.not_eq_true'] using h

theorem stays_iff : (∀ c ∈ codePoints text, stays c = true)
      ↔ (∀ x ∈ text, stays [x] = true) ∧ NoControlPair text := by
  have h := @forall_codePoints_iff stays (fun x hx => by simp [stays, isControl_surrogate hx]) text
  have hpair : ∀ x y : UInt16, stays [x, y] = !isControl [x, y] := fun x y => by simp [stays]
  simpa only [NoControlPair, hpair, Bool.not_eq_true'] using h

theorem surrogate_false_of_isSpace (h : isSpace x = true) : isHigh x = false ∧ isLow x = false := by
  simp only [isSpace, isHigh, isLow, Bool.or_eq_true, Bool.and_eq_true, Bool.and_eq_false_iff,
    decide_eq_true_eq, decide_eq_false_iff_not, beq_iff_eq, UInt16.le_iff_toNat_le,
    ← UInt16.toNat_inj, UInt16.reduceToNat] at h ⊢
  omega

theorem removeControls_append {u v : Units}
    (h : ∀ x ∈ u.getLast?, ∀ y ∈ v.head?, (isHigh x && isLow y) = false) :
    removeControls (u ++ v) = removeControls u ++ removeControls v := by
  rw [removeControls, codePoints_append h, List.filter_append, List.flatten_append]
  rfl

/-- White space on either side keeps two texts apart. -/
theorem apart_of_isSpace {u v : Units}
    (h : (∀ x ∈ u.getLast?, isSpace x = true) ∨ ∀ y ∈ v.head?, isSpace y = true) :
    ∀ x ∈ u.getLast?, ∀ y ∈ v.head?, (isHigh x && isLow y) = false := by
  intro x hx y hy
  rcases h with h | h
  · rw [(surrogate_false_of_isSpace (h x hx)).1, Bool.false_and]
  · rw [(surrogate_false_of_isSpace (h y hy)).2, Bool.and_false]

theorem mem_of_mem_removeControls (h : x ∈ removeControls text) : x ∈ text := by
  obtain ⟨c, hc, hx⟩ := List.mem_flatten.mp h
  rw [← flatten_codePoints text]
  exact List.mem_flatten.mpr ⟨c, (List.mem_filter.mp hc).1, hx⟩

theorem stays_of_mem_removeControls (h : x ∈ removeControls text) : stays [x] = true := by
  obtain ⟨c, hc, hx⟩ := List.mem_flatten.mp h
  obtain ⟨hpoint, hstays⟩ := List.mem_filter.mp hc
  rcases codePoint_cases hpoint with ⟨y, rfl⟩ | ⟨high, low, rfl, hhigh, hlow⟩
  · rwa [List.mem_singleton.mp hx]
  · have hsurrogate : isHigh x = true ∨ isLow x = true := by
      rcases List.mem_pair.mp hx with rfl | rfl
      · exact Or.inl hhigh
      · exact Or.inr hlow
    simp [stays, isControl_surrogate hsurrogate]

theorem forall_of_flatten_filter {q : Units → Bool} {points : List Units}
    (hne : ∀ c ∈ points, c ≠ []) (h : (points.filter q).flatten = points.flatten) :
    ∀ c ∈ points, q c = true := by
  induction points with
  | nil => exact nofun
  | cons c points ih =>
    obtain ⟨hc, hrest⟩ := List.forall_mem_cons.mp hne
    rw [List.filter_cons, List.flatten_cons] at h
    split_ifs at h with hq
    · exact List.forall_mem_cons.mpr ⟨hq, ih hrest (List.append_cancel_left h)⟩
    · have hsub : ((points.filter q).flatten).Sublist points.flatten :=
        List.Sublist.flatten List.filter_sublist
      have hlength := hsub.length_le
      rw [h, List.length_append] at hlength
      have hpos := List.length_pos_of_ne_nil hc
      omega

/-- A text loses nothing if all its code points stay, -/
theorem removeControls_eq_self_iff :
    removeControls text = text ↔ ∀ c ∈ codePoints text, stays c = true := by
  constructor
  · intro h
    rw [← flatten_codePoints text] at h
    refine forall_of_flatten_filter (fun c hc => codePoint_ne_nil hc) (Eq.trans ?_ h)
    rw [removeControls, flatten_codePoints]
  · intro h
    rw [removeControls, List.filter_eq_self.mpr h, flatten_codePoints]

/-- and a text that has lost something can only lose what was made a pair by that. -/
theorem removeControls_removed_iff : removeControls (removeControls text) = removeControls text
      ↔ NoControlPair (removeControls text) := by
  rw [removeControls_eq_self_iff, stays_iff]
  exact and_iff_right fun x hx => stays_of_mem_removeControls hx

/-! ### Line breaks -/

/-- Neither of the two units that are made alike. -/
def IsPlain (x : UInt16) : Prop := x ≠ carriageReturn ∧ x ≠ lineFeed

theorem isPlain_of_isSpace (h : isSpace x = false) : IsPlain x := by
  constructor <;> rintro rfl <;> exact absurd h (by decide)

theorem normalizeFrom_append (hx : IsPlain x) (afterReturn : Bool) (u v : Units) :
    normalizeFrom afterReturn (u ++ x :: v)
      = normalizeFrom afterReturn u ++ x :: normalizeBreaks v := by
  induction u generalizing afterReturn with
  | nil =>
    change (if x = carriageReturn then _ else if x = lineFeed ∧ afterReturn = true then _
      else x :: normalizeFrom false v) = _
    rw [if_neg hx.1, if_neg fun h => hx.2 h.1]
    rfl
  | cons y u ih =>
    rw [List.cons_append, normalizeFrom, normalizeFrom, ih, ih]
    split_ifs <;> rfl

theorem normalizeBreaks_word {w : Units} (hw : ∀ x ∈ w, IsPlain x) (v : Units) :
    normalizeBreaks (w ++ v) = w ++ normalizeBreaks v := by
  induction w with
  | nil => rfl
  | cons x w ih =>
    rw [normalizeBreaks, List.cons_append, ← List.nil_append (x :: (w ++ v)),
      normalizeFrom_append (hw x List.mem_cons_self),
      ih fun y hy => hw y (List.mem_cons_of_mem _ hy)]
    rfl

theorem mem_of_mem_normalizeFrom {afterReturn : Bool} (h : x ∈ normalizeFrom afterReturn text) :
    x ≠ carriageReturn ∧ (x = lineFeed ∨ x ∈ text) := by
  induction text generalizing afterReturn with
  | nil => exact nomatch h
  | cons y text ih =>
    rw [normalizeFrom] at h
    split_ifs at h with hreturn hfeed
    · rcases List.mem_cons.mp h with rfl | h
      · exact ⟨by decide, Or.inl rfl⟩
      · exact (ih h).imp_right fun h => h.imp_right (List.mem_cons_of_mem _)
    · exact (ih h).imp_right fun h => h.imp_right (List.mem_cons_of_mem _)
    · rcases List.mem_cons.mp h with rfl | h
      · exact ⟨hreturn, Or.inr List.mem_cons_self⟩
      · exact (ih h).imp_right fun h => h.imp_right (List.mem_cons_of_mem _)

theorem normalizeBreaks_ne_nil (h : text ≠ []) : normalizeBreaks text ≠ [] := by
  obtain ⟨x, text, rfl⟩ := List.exists_cons_of_ne_nil h
  rw [normalizeBreaks, normalizeFrom]
  split_ifs with _ hfeed
  · exact List.cons_ne_nil _ _
  · exact absurd hfeed.2 (by decide)
  · exact List.cons_ne_nil _ _

theorem isSpace_normalizeBreaks {g : Units} (hg : ∀ x ∈ g, isSpace x = true) :
    ∀ x ∈ normalizeBreaks g, isSpace x = true := by
  intro x hx
  rcases (mem_of_mem_normalizeFrom hx).2 with rfl | hx
  · decide
  · exact hg x hx

variable {bs : Blocks UInt16} {text : Units}

/-- Line breaks are made alike within the gaps. -/
theorem normalizeBreaks_core (h : Spaced isSpace bs) :
    normalizeBreaks (core id bs) = core normalizeBreaks bs := by
  induction h with
  | nil => rfl
  | last hw _ =>
    have hword := normalizeBreaks_word (fun x hx => isPlain_of_isSpace (hw.2 x hx)) []
    rw [List.append_nil] at hword
    exact hword.trans (List.append_nil _)
  | @cons w g b bs hw _ _ hbs ih =>
    obtain ⟨⟨x, rest, hcore, hx⟩, -⟩ := core_ends id hbs.isWord (List.cons_ne_nil b bs)
    have hplain := isPlain_of_isSpace hx
    have hread : normalizeBreaks (x :: rest) = x :: normalizeBreaks rest :=
      normalizeBreaks_word (List.forall_mem_singleton.mpr hplain) rest
    rw [core, core, ← ih, hcore, List.append_assoc,
      normalizeBreaks_word fun x hx => isPlain_of_isSpace (hw.2 x hx), hread]
    change w ++ normalizeFrom false (g ++ x :: rest) = _
    rw [normalizeFrom_append hplain, ← List.append_assoc]
    rfl

/-- What the first passes make of a gap between words. -/
def cleanedGap (g : Units) : Units := removeControls (normalizeBreaks g)

/-- What they make of a text: its words, less what is removed, with the gaps between them. -/
theorem cleaned_eq (text : Units) : cleaned text
      = core cleanedGap ((blocks isSpace text).2.map fun b => (removeControls b.1, b.2)) := by
  obtain ⟨hgap, hspaced⟩ := blocks_spaced isSpace text
  have htrim : trim isSpace text = core id (blocks isSpace text).2 := by
    have hrender := trim_render hspaced hgap
    rwa [render_blocks] at hrender
  rw [cleaned, htrim, normalizeBreaks_core hspaced]
  generalize (blocks isSpace text).2 = bs at hspaced
  induction hspaced with
  | nil | last => rfl
  | @cons w g b bs _ hg hne hbs ih =>
    have hwhite := isSpace_normalizeBreaks hg
    have hnormalized := normalizeBreaks_ne_nil hne
    rw [core, List.map_cons, List.map_cons, core, ← List.map_cons (f := fun b : Units × Units =>
      (removeControls b.1, b.2)), ← ih, removeControls_append, removeControls_append]
    · rfl
    · exact apart_of_isSpace (Or.inr fun y hy => hwhite y (List.mem_of_mem_head? hy))
    · refine apart_of_isSpace (Or.inl fun y hy => hwhite y ?_)
      rw [List.getLast?_append_of_ne_nil _ hnormalized] at hy
      exact List.mem_of_getLast? hy

/-! ### Joining -/

theorem isSpace_of_isBlank (h : isBlank x = true) : isSpace x = true := by
  rw [isBlank, Bool.or_eq_true, beq_iff_eq, beq_iff_eq] at h
  rcases h with rfl | rfl <;> decide

theorem isSpace_of_beq {a : UInt16} (ha : isSpace a = true) (x : UInt16)
    (h : (x == a) = true) : isSpace x = true :=
  beq_iff_eq.mp h ▸ ha

/-- Blanks and line breaks are joined within the gaps. -/
theorem onGaps_joined : OnGaps isSpace joined := by
  have hfeed : OnGaps isSpace (List.map fun x : UInt16 => if x = lineFeed then space else x) :=
    onGaps_map fun x hx => if_neg fun h => absurd (h ▸ hx) (by decide)
  exact (onGaps_replaceRuns (isSpace_of_beq (by decide))).comp
    (hfeed.comp ((onGaps_replaceRuns (isSpace_of_beq (by decide))).comp
      (onGaps_replaceRuns fun _ => isSpace_of_isBlank)))

theorem isBlank_iff : isBlank x = true ↔ x = space ∨ x = tab := by
  rw [isBlank, Bool.or_eq_true, beq_iff_eq, beq_iff_eq]

/-- Joining brings nothing in but spaces and middle dots, and takes away line feeds and tabs. -/
theorem mem_of_mem_joined {l : Units} (h : x ∈ joined l) :
    x = space ∨ x = middleDot ∨ (x ∈ l ∧ x ≠ lineFeed ∧ x ≠ tab) := by
  rcases mem_of_mem_replaceRuns h with h | h
  · exact Or.inl (List.mem_singleton.mp h)
  · obtain ⟨y, hy, rfl⟩ := List.mem_map.mp h
    split_ifs with hfeed
    · exact Or.inl rfl
    · rcases mem_of_mem_replaceRuns hy with hsep | hy
      · rcases List.mem_cons.mp hsep with h | hsep
        · exact Or.inl h
        · exact (List.mem_pair.mp hsep).symm.imp_right Or.inl
      · by_cases hblank : isBlank y = true
        · exact Or.inl (List.mem_singleton.mp (mem_new_of_mem_replaceFrom hblank hy))
        · rw [isBlank_iff, not_or] at hblank
          exact Or.inr (Or.inr ⟨((mem_of_mem_replaceRuns hy).resolve_left fun h =>
            hblank.1 (List.mem_singleton.mp h)), hfeed, hblank.2⟩)

/-- What is neither blank nor a line feed stays. -/
theorem mem_joined {l : Units} (hblank : isBlank x = false) (hfeed : x ≠ lineFeed)
    (h : x ∈ l) : x ∈ joined l := by
  have hspace : x ≠ space := fun h => by rw [h] at hblank; exact absurd hblank (by decide)
  refine mem_replaceFrom (beq_false_of_ne hspace) (List.mem_map.mpr ⟨x, ?_, if_neg hfeed⟩)
  exact mem_replaceFrom (beq_false_of_ne hfeed) (mem_replaceFrom hblank h)

/-! ### Gaps -/

/-- A blank line becomes a separator, -/
theorem middleDot_mem_joined {g : Units} (h : [lineFeed, lineFeed] <:+: g) :
    middleDot ∈ joined g := by
  obtain ⟨u, v, rfl⟩ := h
  have hblank : ∀ (rest : Units), replaceRuns isBlank 0 [space] (u ++ [lineFeed, lineFeed] ++ rest)
      = replaceRuns isBlank 0 [space] u ++ [lineFeed, lineFeed]
        ++ replaceRuns isBlank 0 [space] rest := by
    intro rest
    rw [List.append_assoc, List.cons_append, replaceRuns, replaceFrom_append (by decide),
      List.singleton_append, ← List.nil_append (lineFeed :: rest), replaceRuns,
      replaceFrom_append (by decide)]
    simp [replaceRuns, replaceFrom, flush]
  refine mem_replaceFrom (by decide) (List.mem_map.mpr ⟨middleDot, ?_, by decide⟩)
  rw [hblank]
  exact mem_replaceRuns_of_run (by simp) (by simp) _ _ _ (by simp [separator])

/-- and nothing else in a gap does. -/
theorem isSpace_joined {g : Units} (hg : ∀ x ∈ g, isSpace x = true)
    (h : ¬ [lineFeed, lineFeed] <:+: g) : ∀ x ∈ joined g, isSpace x = true := by
  have hdouble : NoDouble lineFeed (replaceRuns isBlank 0 [space] g) :=
    (noDouble_of_not_part h).replaceRuns (by decide) (by decide) (by decide)
  have hpass : replaceRuns (· == lineFeed) 1 separator (replaceRuns isBlank 0 [space] g)
      = replaceRuns isBlank 0 [space] g := by
    refine replaceRuns_eq_self fun r hr hall => if_neg ?_
    exact Nat.not_lt.mpr (hdouble.length_le_one hr fun x hx => beq_iff_eq.mp (hall x hx))
  intro x hx
  rw [joined, hpass] at hx
  rcases mem_of_mem_replaceRuns hx with hx | hx
  · exact List.mem_singleton.mp hx ▸ by decide
  · obtain ⟨y, hy, rfl⟩ := List.mem_map.mp hx
    split_ifs
    · decide
    · rcases mem_of_mem_replaceRuns hy with hy | hy
      · exact List.mem_singleton.mp hy ▸ by decide
      · exact hg y hy

end Rabotka.Outbound
