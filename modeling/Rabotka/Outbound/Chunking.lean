import Mathlib.Data.Nat.Digits.Defs
import Rabotka.Lib.Trim
import Rabotka.Moderation.Normalize

/-!
# Cutting long messages

`chunkForWhatsApp` cuts a text that is too long for one message: at a blank line or a line break in
the second half of what fits, else at the last space, else where the limit is. Around the cut the
white space is trimmed, and each part is numbered. Texts are UTF-16 units.

Each turn of the loop takes something off the text, so it ends; what is lost is white space at the
cuts (`Parted`). A cut at a separator has white space on one side and splits no surrogate pair;
only a hard cut at the limit may (`hard_cut_splits_pair`). After a cut the text starts with
something visible, so that no part after the first is blank (`chunks_lose_nothing`).
-/

namespace Rabotka.Outbound

open Lib.Trim List
open Moderation (Units isHigh isLow)

/-! ### The code -/

/-- `WHATSAPP_BODY_LIMIT`. -/
def whatsappBodyLimit : ℕ := 1500

def lineBreak : UInt16 := 10
def blankSpace : UInt16 := 32

/-- `lastIndexOf`: the last place of a pattern, or `-1`. -/
def lastIndexOf (pattern : Units) : Units → ℤ
  | [] => -1
  | x :: text =>
    let later := lastIndexOf pattern text
    if 0 ≤ later then later + 1
    else if pattern.isPrefixOf (x :: text) then 0
    else -1

/-- `if (cut < WHATSAPP_BODY_LIMIT * 0.5) cut = next`. -/
def fallBack (cut next : ℤ) : ℤ :=
  if cut < 750 then next else cut

theorem fallBack_cases (cut next : ℤ) :
    cut < 750 ∧ fallBack cut next = next ∨ 750 ≤ cut ∧ fallBack cut next = cut := by
  rw [fallBack]
  split_ifs with h
  · exact Or.inl ⟨h, rfl⟩
  · exact Or.inr ⟨not_lt.mp h, rfl⟩

/-- The place of the last separator that will do, or none. -/
def separatorOf (slice : Units) : ℤ :=
  fallBack (fallBack (lastIndexOf [lineBreak, lineBreak] slice) (lastIndexOf [lineBreak] slice))
    (lastIndexOf [blankSpace] slice)

/-- The place of the cut. -/
def cutOf (remaining : Units) : ℕ :=
  let cut := separatorOf (remaining.take whatsappBodyLimit)
  if cut ≤ 0 then whatsappBodyLimit else cut.toNat

theorem lastIndexOf_lt (pattern : Units) (text : Units) :
    lastIndexOf pattern text < text.length := by
  induction text with
  | nil => exact (by decide : (-1 : ℤ) < 0)
  | cons x text ih =>
    rw [lastIndexOf, length_cons]
    split_ifs <;> omega

/-- Where the separator is found: a line break in the second half, else the last space. -/
theorem separatorOf_cases (slice : Units) :
    750 ≤ separatorOf slice ∧ (separatorOf slice = lastIndexOf [lineBreak, lineBreak] slice
        ∨ separatorOf slice = lastIndexOf [lineBreak] slice)
      ∨ separatorOf slice = lastIndexOf [blankSpace] slice
        ∧ lastIndexOf [lineBreak] slice < 750 := by
  rw [separatorOf]
  rcases fallBack_cases (lastIndexOf [lineBreak, lineBreak] slice) (lastIndexOf [lineBreak] slice)
    with ⟨-, hinner⟩ | ⟨hdouble, hinner⟩
  · rw [hinner]
    rcases fallBack_cases (lastIndexOf [lineBreak] slice) (lastIndexOf [blankSpace] slice)
      with ⟨hline, houter⟩ | ⟨hline, houter⟩
    · exact Or.inr ⟨houter, hline⟩
    · rw [houter]
      exact Or.inl ⟨hline, Or.inr rfl⟩
  · have houter : fallBack (lastIndexOf [lineBreak, lineBreak] slice)
        (lastIndexOf [blankSpace] slice) = lastIndexOf [lineBreak, lineBreak] slice :=
      if_neg hdouble.not_gt
    rw [hinner, houter]
    exact Or.inl ⟨hdouble, Or.inl rfl⟩

/-- A cut is within the limit and takes something off. -/
theorem cutOf_mem (remaining : Units) :
    0 < cutOf remaining ∧ cutOf remaining ≤ whatsappBodyLimit := by
  have hlt : separatorOf (remaining.take whatsappBodyLimit)
      < (remaining.take whatsappBodyLimit).length := by
    have hblank := lastIndexOf_lt [lineBreak, lineBreak] (remaining.take whatsappBodyLimit)
    have hline := lastIndexOf_lt [lineBreak] (remaining.take whatsappBodyLimit)
    have hspace := lastIndexOf_lt [blankSpace] (remaining.take whatsappBodyLimit)
    rw [separatorOf, fallBack, fallBack]
    split_ifs <;> assumption
  have hslice : (remaining.take whatsappBodyLimit).length ≤ whatsappBodyLimit :=
    length_take_le _ _
  rw [cutOf]
  split_ifs
  · exact ⟨by decide, le_rfl⟩
  · omega

/-- The loop of `chunkForWhatsApp`, from what remains of the text. -/
def chunkLoop (remaining : Units) : List Units :=
  if _h : whatsappBodyLimit < remaining.length then
    trimEnd isSpace (remaining.take (cutOf remaining))
      :: chunkLoop (trimStart isSpace (remaining.drop (cutOf remaining)))
  else if 0 < remaining.length then [remaining]
  else []
termination_by remaining.length
decreasing_by
  have hcut := cutOf_mem remaining
  have htrim : (trimStart isSpace (remaining.drop (cutOf remaining))).length
      ≤ (remaining.drop (cutOf remaining)).length := (dropWhile_suffix _).length_le
  rw [length_drop] at htrim
  omega

/-- A number in decimal. -/
def decimal (n : ℕ) : Units :=
  (Nat.toDigits 10 n).map fun c => c.toNat.toUInt16

/-- `"({i}/{n})\n"`. -/
def ordinal (i n : ℕ) : Units :=
  units "(" ++ decimal i ++ units "/" ++ decimal n ++ units ")\n"

/-- The parts with their numbers. -/
def numbered (parts : List Units) : List Units :=
  parts.mapIdx fun i part => ordinal (i + 1) parts.length ++ part

/-- `chunkForWhatsApp`. -/
def chunkForWhatsApp (text : Units) : List Units :=
  if text.length ≤ whatsappBodyLimit then [text]
  else numbered (chunkLoop text)

/-! ### Parts of a text -/

/-- A place in a text, between a high and a low surrogate. -/
def InsidePair (before after : Units) : Prop :=
  ∃ h ∈ before.getLast?, ∃ l ∈ after.head?, isHigh h = true ∧ isLow l = true

/-- A text is cut hard: what fits has no line break in its second half and no space behind its
first unit. -/
def HardCut (text : Units) : Prop :=
  (∀ i, 750 ≤ i → (text.take whatsappBodyLimit)[i]? ≠ some lineBreak)
    ∧ ∀ i, 1 ≤ i → (text.take whatsappBodyLimit)[i]? ≠ some blankSpace

/-- A text comes in parts: the parts follow each other in the text, with only white space left out
between two of them; no part is too long, a part after another starts with something visible, and
only a hard cut falls into a surrogate pair. -/
inductive Parted : Units → List Units → Prop
  | done : Parted [] []
  | last {text : Units} (hne : text ≠ []) (hlength : text.length ≤ whatsappBodyLimit) :
      Parted text [text]
  | cut {part blank rest : Units} {parts : List Units} (hprogress : part ++ blank ≠ [])
      (hlength : part.length ≤ whatsappBodyLimit) (hblank : ∀ x ∈ blank, isSpace x = true)
      (hvisible : ∀ x ∈ rest.head?, isSpace x = false)
      (hends : InsidePair part (blank ++ rest) → HardCut (part ++ blank ++ rest))
      (hstarts : InsidePair (part ++ blank) rest → HardCut (part ++ blank ++ rest))
      (hrest : Parted rest parts) : Parted (part ++ blank ++ rest) (part :: parts)

/-- Nothing but white space. -/
def Blank (part : Units) : Prop :=
  ∀ x ∈ part, isSpace x = true

/-! ### Where the code cuts -/

/-- The last place of a single unit is one of its places, and no later one is. -/
theorem lastIndexOf_single (u : UInt16) (text : Units) :
    (0 ≤ lastIndexOf [u] text → text[(lastIndexOf [u] text).toNat]? = some u)
      ∧ ∀ i : ℕ, text[i]? = some u → (i : ℤ) ≤ lastIndexOf [u] text := by
  induction text with
  | nil => exact ⟨(fun h => absurd h (by decide : ¬(0 : ℤ) ≤ -1)), fun i h => nomatch h⟩
  | cons x text ih =>
    obtain ⟨hat, hlast⟩ := ih
    have hfirst : [u].isPrefixOf (x :: text) = true ↔ u = x := by
      simp [List.isPrefixOf]
    rw [lastIndexOf]
    split_ifs with hlater hhere
    · refine ⟨fun _ => ?_, fun i hi => ?_⟩
      · have hnat : (lastIndexOf [u] text + 1).toNat = (lastIndexOf [u] text).toNat + 1 := by omega
        rw [hnat, getElem?_cons_succ]
        exact hat hlater
      · cases i with
        | zero => omega
        | succ i =>
          have h := hlast i (by rwa [getElem?_cons_succ] at hi)
          omega
    · rw [hfirst] at hhere
      refine ⟨fun _ => by rw [hhere]; rfl, fun i hi => ?_⟩
      cases i with
      | zero => exact le_rfl
      | succ i =>
        have h := hlast i (by rwa [getElem?_cons_succ] at hi)
        omega
    · rw [hfirst] at hhere
      refine ⟨fun h => absurd h (by decide), fun i hi => ?_⟩
      cases i with
      | zero => exact absurd (Option.some.inj hi).symm hhere
      | succ i =>
        have h := hlast i (by rwa [getElem?_cons_succ] at hi)
        omega

/-- The last place of a blank line is a place of a line break. -/
theorem lastIndexOf_double (u : UInt16) (text : Units) (h : 0 ≤ lastIndexOf [u, u] text) :
    text[(lastIndexOf [u, u] text).toNat]? = some u := by
  induction text with
  | nil => exact absurd h (by decide : ¬(0 : ℤ) ≤ -1)
  | cons x text ih =>
    rw [lastIndexOf] at h ⊢
    split_ifs at h ⊢ with hlater hhere
    · have hnat : (lastIndexOf [u, u] text + 1).toNat = (lastIndexOf [u, u] text).toNat + 1 := by
        omega
      rw [hnat, getElem?_cons_succ]
      exact ih hlater
    · have hx : u = x := by
        rw [List.isPrefixOf, Bool.and_eq_true, beq_iff_eq] at hhere
        exact hhere.1
      rw [hx]
      rfl
    · exact absurd h (by decide)

variable {text : Units}

/-- A unit of what fits stands at the same place of the text. -/
theorem getElem?_of_take {n i : ℕ} {x : UInt16} (h : (text.take n)[i]? = some x) :
    text[i]? = some x := by
  rw [getElem?_take] at h
  split_ifs at h
  exact h

/-- **The cut** is at a separator, or hard at the limit. -/
theorem cutOf_spec (text : Units) :
    (text[cutOf text]? = some lineBreak ∨ text[cutOf text]? = some blankSpace)
      ∨ cutOf text = whatsappBodyLimit ∧ HardCut text := by
  have hdouble := lastIndexOf_double lineBreak (text.take whatsappBodyLimit)
  obtain ⟨hline, hlineLast⟩ := lastIndexOf_single lineBreak (text.take whatsappBodyLimit)
  obtain ⟨hspace, hspaceLast⟩ := lastIndexOf_single blankSpace (text.take whatsappBodyLimit)
  rw [cutOf]
  rcases separatorOf_cases (text.take whatsappBodyLimit) with ⟨hlow, hsep | hsep⟩ | ⟨hsep, hlineLow⟩
  · rw [if_neg (by omega), hsep]
    exact Or.inl (Or.inl (getElem?_of_take (hdouble (by omega))))
  · rw [if_neg (by omega), hsep]
    exact Or.inl (Or.inl (getElem?_of_take (hline (by omega))))
  · rw [hsep]
    split_ifs with hcut
    · refine Or.inr ⟨rfl, fun i hi h => ?_, fun i hi h => ?_⟩
      · have hle := hlineLast i h
        omega
      · have hle := hspaceLast i h
        omega
    · exact Or.inl (Or.inr (getElem?_of_take (hspace (by omega))))

/-! ### Every part of a text -/

/-- White space is no surrogate. -/
theorem not_surrogate_of_isSpace {x : UInt16} (h : isSpace x = true) :
    isHigh x = false ∧ isLow x = false := by
  have hrange : x.toNat < 0xD800 ∨ 0xDFFF < x.toNat := by
    simp only [isSpace, Bool.or_eq_true, Bool.and_eq_true, decide_eq_true_eq, beq_iff_eq,
      UInt16.le_iff_toNat_le, ← UInt16.toNat_inj] at h
    simp at h
    omega
  simp only [isHigh, isLow, Bool.and_eq_false_iff, decide_eq_false_iff_not, UInt16.le_iff_toNat_le]
  simp
  omega

/-- One turn of the loop takes off a part and the white space behind it. -/
theorem exists_turn (text : Units) (h : whatsappBodyLimit < text.length) :
    ∃ blank, text = trimEnd isSpace (text.take (cutOf text)) ++ blank
          ++ trimStart isSpace (text.drop (cutOf text))
      ∧ (∀ x ∈ blank, isSpace x = true)
      ∧ trimEnd isSpace (text.take (cutOf text)) ++ blank ≠ []
      ∧ (blank = [] → HardCut text) := by
  obtain ⟨behind, hbehind, hbehindSpace⟩ := exists_trimEnd (p := isSpace) (text.take (cutOf text))
  obtain ⟨ahead, hahead, haheadSpace⟩ := exists_trimStart (p := isSpace) (text.drop (cutOf text))
  obtain ⟨hpos, hle⟩ := cutOf_mem text
  refine ⟨behind ++ ahead, ?_, ?_, ?_, ?_⟩
  · rw [← append_assoc, ← hbehind, append_assoc, ← hahead, take_append_drop]
  · intro x hx
    exact (mem_append.mp hx).elim (hbehindSpace x) (haheadSpace x)
  · rw [← append_assoc, ← hbehind]
    intro hnil
    have hlength := congrArg List.length (append_eq_nil_iff.mp hnil).1
    rw [length_take, length_nil] at hlength
    omega
  · intro hblank
    rcases cutOf_spec text with hsep | ⟨-, hhard⟩
    · -- a separator at the cut is trimmed, so something is left out
      have hspace : ∃ x, text[cutOf text]? = some x ∧ isSpace x = true := by
        rcases hsep with h | h
        · exact ⟨_, h, by decide⟩
        · exact ⟨_, h, by decide⟩
      obtain ⟨x, hx, hxspace⟩ := hspace
      have hhead : (text.drop (cutOf text)).head? = some x := by
        rw [head?_drop]
        exact hx
      rw [hahead, (append_eq_nil_iff.mp hblank).2, nil_append] at hhead
      have hvisible := head_trimStart x hhead
      rw [hxspace] at hvisible
      exact nomatch hvisible
    · exact hhard

/-- **The loop** gives a text in parts. -/
theorem parted_chunkLoop (text : Units) : Parted text (chunkLoop text) := by
  induction text using chunkLoop.induct with
  | case1 text h ih =>
    rw [chunkLoop, dif_pos h]
    obtain ⟨blank, htext, hspace, hprogress, hhard⟩ := exists_turn text h
    obtain ⟨hpos, hle⟩ := cutOf_mem text
    have hlength : (trimEnd isSpace (text.take (cutOf text))).length ≤ whatsappBodyLimit := by
      refine (List.rdropWhile_prefix _ _).length_le.trans ?_
      exact (length_take_le _ _).trans hle
    generalize trimEnd isSpace (text.take (cutOf text)) = part at htext hprogress hlength ⊢
    have hvisible : ∀ x ∈ (trimStart isSpace (text.drop (cutOf text))).head?, isSpace x = false :=
      head_trimStart
    generalize trimStart isSpace (text.drop (cutOf text)) = rest at htext hvisible ih ⊢
    subst htext
    -- white space at a cut keeps it out of a pair
    refine Parted.cut hprogress hlength hspace hvisible (fun hpair => ?_) (fun hpair => ?_) ih
    · refine hhard ?_
      by_contra hne
      obtain ⟨high, -, low, hlow, -, hislow⟩ := hpair
      obtain ⟨y, blank, rfl⟩ := exists_cons_of_ne_nil hne
      obtain rfl : y = low := Option.some.inj hlow
      rw [(not_surrogate_of_isSpace (hspace y mem_cons_self)).2] at hislow
      exact nomatch hislow
    · refine hhard ?_
      by_contra hne
      obtain ⟨high, hhigh, low, -, hishigh, -⟩ := hpair
      rw [getLast?_append_of_ne_nil _ hne] at hhigh
      rw [(not_surrogate_of_isSpace (hspace high (mem_of_getLast? hhigh))).1] at hishigh
      exact nomatch hishigh
  | case2 text hshort hpos =>
    rw [chunkLoop, dif_neg hshort, if_pos hpos]
    exact Parted.last (ne_nil_of_length_pos hpos) (not_lt.mp hshort)
  | case3 text hshort hnil =>
    rw [chunkLoop, dif_neg hshort, if_neg hnil]
    obtain rfl : text = [] := length_eq_zero_iff.mp (by omega)
    exact Parted.done

variable {parts : List Units}

/-- A text that starts with something visible has no blank part. -/
theorem Parted.not_blank (h : Parted text parts)
    (hvisible : ∀ x ∈ text.head?, isSpace x = false) : ∀ part ∈ parts, ¬Blank part := by
  have hfirst : ∀ part rest : Units, part ≠ [] →
      (∀ x ∈ (part ++ rest).head?, isSpace x = false) → ¬Blank part := by
    intro part rest hne hhead hblank
    obtain ⟨x, part, rfl⟩ := exists_cons_of_ne_nil hne
    have hx := hhead x rfl
    rw [hblank x mem_cons_self] at hx
    exact nomatch hx
  induction h with
  | done => exact fun part hpart => nomatch hpart
  | last hne _ =>
    rename_i text
    intro part hpart
    obtain rfl := mem_singleton.mp hpart
    exact hfirst part [] hne (by rwa [append_nil])
  | @cut part blank rest parts hprogress hlength hblank hrestVisible _ _ hrest ih =>
    intro p hp
    rcases mem_cons.mp hp with rfl | hp
    · refine hfirst p (blank ++ rest) (fun hnil => ?_) (by rwa [← append_assoc])
      -- an empty part would leave white space at the start
      rw [hnil, nil_append] at hprogress hvisible
      obtain ⟨x, blank, rfl⟩ := exists_cons_of_ne_nil hprogress
      have hx := hvisible x rfl
      rw [hblank x mem_cons_self] at hx
      exact nomatch hx
    · exact ih hrestVisible p hp

/-- No part after the first is blank. -/
theorem Parted.tail_not_blank (h : Parted text parts) : ∀ part ∈ parts.tail, ¬Blank part := by
  cases h with
  | done | last => exact fun part hpart => nomatch hpart
  | cut _ _ _ hvisible _ _ hrest => exact hrest.not_blank hvisible

theorem Parted.length_le (h : Parted text parts) :
    parts.length ≤ text.length ∧ ∀ part ∈ parts, part.length ≤ whatsappBodyLimit := by
  induction h with
  | done => exact ⟨le_rfl, fun part hpart => nomatch hpart⟩
  | last hne hlength =>
    refine ⟨length_pos_iff.mpr hne, fun part hpart => ?_⟩
    rw [mem_singleton.mp hpart]
    exact hlength
  | cut hprogress hlength _ _ _ _ _ ih =>
    refine ⟨?_, forall_mem_cons.mpr ⟨hlength, ih.2⟩⟩
    have hpos := length_pos_iff.mpr hprogress
    rw [length_append, length_cons]
    omega

/-! ### The messages -/

/-- The longest text that JavaScript can hold, in units. -/
def maxTextLength : ℕ := 2 ^ 53 - 1

/-- A text as JavaScript can hold it. -/
abbrev Text := { text : Units // text.length ≤ maxTextLength }

theorem length_decimal {n : ℕ} (h : n ≤ maxTextLength) : (decimal n).length ≤ 16 := by
  rw [decimal, length_map]
  refine Nat.toDigits_length 10 n 16 (by decide) (h.trans_lt ?_)
  decide

theorem length_ordinal {i n : ℕ} (hi : i ≤ maxTextLength) (hn : n ≤ maxTextLength) :
    (ordinal i n).length ≤ 36 := by
  have hopen : (units "(").length = 1 := rfl
  have hslash : (units "/").length = 1 := rfl
  have hclose : (units ")\n").length = 2 := rfl
  have hi' := length_decimal hi
  have hn' := length_decimal hn
  simp only [ordinal, length_append]
  omega

/-- Every message fits. -/
theorem length_chunkForWhatsApp (text : Text) :
    ∀ message ∈ chunkForWhatsApp text.1, message.length ≤ 1600 := by
  intro message hmessage
  rw [chunkForWhatsApp] at hmessage
  split_ifs at hmessage with hshort
  · rw [mem_singleton.mp hmessage]
    exact hshort.trans (by decide)
  · obtain ⟨hcount, hpart⟩ := (parted_chunkLoop text.1).length_le
    have hbound := text.2
    rw [numbered, mem_mapIdx] at hmessage
    obtain ⟨i, hi, rfl⟩ := hmessage
    have hordinal : (ordinal (i + 1) (chunkLoop text.1).length).length ≤ 36 :=
      length_ordinal (by omega) (by omega)
    have hlength := hpart _ (getElem_mem hi)
    rw [length_append]
    simp only [whatsappBodyLimit] at hlength
    omega

/-- **Cutting loses no text.** A text that fits is left as it is; a longer one comes in numbered
parts, none after the first of which is blank. Every message fits. -/
theorem chunks_lose_nothing (text : Text) :
    (text.1.length ≤ whatsappBodyLimit → chunkForWhatsApp text.1 = [text.1])
      ∧ (whatsappBodyLimit < text.1.length → ∃ parts, Parted text.1 parts
        ∧ chunkForWhatsApp text.1 = numbered parts ∧ ∀ part ∈ parts.tail, ¬Blank part)
      ∧ ∀ message ∈ chunkForWhatsApp text.1, message.length ≤ 1600 := by
  refine ⟨fun h => if_pos h, fun h => ?_, length_chunkForWhatsApp text⟩
  exact ⟨chunkLoop text.1, parted_chunkLoop text.1, if_neg h.not_ge,
    (parted_chunkLoop text.1).tail_not_blank⟩

/-! ### A hard cut -/

/-- A word of 1499 letters, and a smiley. -/
def wordAndSmiley : Units :=
  replicate 1499 97 ++ [0xD83D, 0xDE00]

/-- A text without separators is cut at the limit. -/
theorem cutOf_eq (hline : lineBreak ∉ text) (hspace : blankSpace ∉ text) :
    cutOf text = whatsappBodyLimit := by
  rcases cutOf_spec text with (h | h) | h
  · exact absurd (mem_of_getElem? h) hline
  · exact absurd (mem_of_getElem? h) hspace
  · exact h.1

/-- The smiley is cut in two. -/
theorem hard_cut_splits_pair : chunkForWhatsApp wordAndSmiley
        = [ordinal 1 2 ++ (replicate 1499 97 ++ [0xD83D]), ordinal 2 2 ++ [0xDE00]]
      ∧ isHigh 0xD83D = true ∧ isLow 0xDE00 = true := by
  have hlength : wordAndSmiley.length = 1501 := by
    rw [wordAndSmiley, length_append, length_replicate]
    rfl
  have hmem : ∀ x ∈ wordAndSmiley, x = 97 ∨ x = 0xD83D ∨ x = 0xDE00 := by
    intro x hx
    rcases mem_append.mp hx with hx | hx
    · exact Or.inl (eq_of_mem_replicate hx)
    · simpa using Or.inr hx
  have hcut : cutOf wordAndSmiley = 1500 :=
    cutOf_eq (fun h => absurd (hmem _ h) (by decide)) fun h => absurd (hmem _ h) (by decide)
  have hword : (replicate 1499 (97 : UInt16)).length = 1499 := length_replicate
  have htake : wordAndSmiley.take 1500 = replicate 1499 97 ++ [0xD83D] := by
    rw [wordAndSmiley, take_append, hword, take_of_length_le (by omega)]
    rfl
  have hdrop : wordAndSmiley.drop 1500 = [0xDE00] := by
    rw [wordAndSmiley, drop_append, hword, drop_of_length_le (by omega)]
    rfl
  have hend : trimEnd isSpace (replicate 1499 97 ++ [0xD83D])
      = replicate 1499 97 ++ [0xD83D] := by
    refine trimEnd_of_last fun x hx => ?_
    rw [getLast?_append_of_ne_nil _ (cons_ne_nil _ _)] at hx
    obtain rfl := Option.some.inj hx
    decide
  have hstart : trimStart isSpace [0xDE00] = [0xDE00] := by decide
  have hrest : chunkLoop [0xDE00] = [[0xDE00]] := by
    rw [chunkLoop, dif_neg (by decide), if_pos (by decide)]
  have hloop : chunkLoop wordAndSmiley = [replicate 1499 97 ++ [0xD83D], [0xDE00]] := by
    rw [chunkLoop, dif_pos (by rw [hlength]; decide), hcut, htake, hdrop, hend, hstart, hrest]
  refine ⟨?_, by decide, by decide⟩
  rw [chunkForWhatsApp, if_neg (by rw [hlength]; decide), hloop]
  rfl

end Rabotka.Outbound
