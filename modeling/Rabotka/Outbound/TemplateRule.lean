import Rabotka.Outbound.TemplateText

/-!
# The rule for template variables

What `sanitizeTemplateVariable` returns is the words of the cleaned text with the gaps between them
joined, exactly if no blank line stands at an end of the cleaned text (`between_iff`); and it is
then acceptable, exactly if the removal made no new format character and no line separator stands
between words (`acceptable_iff`). An acceptable text is its own result (`sanitize_fixed`).

`template_variable_iff` puts this together, with what `flattenForTemplateVariable` and
`capTemplateVar` make of the result.
-/

namespace Rabotka.Outbound

open Lib.Trim Lib.Words List
open Moderation (Units codePoints isHigh isLow)

variable {text : Units}

/-! ### Between the words -/

/-- The last trim takes away what is joined at the ends, if that is white. -/
theorem sanitize_eq (hne : (blocks isSpace (cleaned text)).2 ≠ []) : sanitizeTemplateVariable text
      = trimStart isSpace (joined (blocks isSpace (cleaned text)).1)
        ++ core joined (blocks isSpace (cleaned text)).2
        ++ trimEnd isSpace (joined (lastGap (blocks isSpace (cleaned text)).2)) := by
  have hspaced := (blocks_spaced isSpace (cleaned text)).2
  have hjoined := onGaps_joined (blocks isSpace (cleaned text)).1 _ hspaced.isWord
  rw [render_blocks, render_map_eq joined _ hne] at hjoined
  rw [sanitizeTemplateVariable, hjoined, trim_core joined hspaced.isWord hne]

/-- A gap at an end goes away unless it has a blank line. -/
theorem trimStart_joined_iff {g : Units} (hg : ∀ x ∈ g, isSpace x = true) :
    trimStart isSpace (joined g) = [] ↔ ¬ [lineFeed, lineFeed] <:+: g := by
  refine ⟨fun h hblank => ?_, fun h => trimStart_white (isSpace_joined hg h)⟩
  have hwhite := dropWhile_eq_nil_iff.mp h middleDot (middleDot_mem_joined hblank)
  exact absurd hwhite (by decide)

theorem trimEnd_joined_iff {g : Units} (hg : ∀ x ∈ g, isSpace x = true) :
    trimEnd isSpace (joined g) = [] ↔ ¬ [lineFeed, lineFeed] <:+: g := by
  refine ⟨fun h hblank => ?_, fun h => trimEnd_white (isSpace_joined hg h)⟩
  have hwhite := rdropWhile_eq_nil_iff.mp h middleDot (middleDot_mem_joined hblank)
  exact absurd hwhite (by decide)

theorem between_iff : sanitizeTemplateVariable text = core joined (blocks isSpace (cleaned text)).2
      ↔ ¬ [lineFeed, lineFeed] <:+: (blocks isSpace (cleaned text)).1
        ∧ ¬ [lineFeed, lineFeed] <:+: lastGap (blocks isSpace (cleaned text)).2 := by
  obtain ⟨hgap, hspaced⟩ := blocks_spaced isSpace (cleaned text)
  rcases eq_or_ne (blocks isSpace (cleaned text)).2 [] with hnil | hne
  · have hjoined := onGaps_joined (blocks isSpace (cleaned text)).1 _ hspaced.isWord
    rw [render_blocks, hnil, map_nil, render_nil] at hjoined
    rw [sanitizeTemplateVariable, hjoined, hnil, ← trimStart_joined_iff hgap]
    exact trim_eq_nil_iff.trans (and_iff_left (by decide)).symm
  · rw [sanitize_eq hne, ← trimStart_joined_iff hgap, ← trimEnd_joined_iff hspaced.lastGap_white]
    constructor
    · intro h
      have hlength := congrArg List.length h
      rw [length_append, length_append] at hlength
      exact ⟨eq_nil_of_length_eq_zero (by omega), eq_nil_of_length_eq_zero (by omega)⟩
    · rintro ⟨hstart, hend⟩
      rw [hstart, hend, nil_append, append_nil]

/-! ### Acceptable texts -/

variable {x : UInt16}

/-- What joining leaves alone is in the joined words as it was. -/
theorem mem_core_joined (hblank : isBlank x = false) (hfeed : x ≠ lineFeed)
    {bs : Blocks UInt16} (h : x ∈ core id bs) : x ∈ core joined bs := by
  induction bs with
  | nil => exact h
  | cons b bs ih =>
    rcases bs with _ | ⟨b', bs⟩
    · exact h
    · rw [core, mem_append, mem_append] at h ⊢
      exact h.imp (Or.imp_right (mem_joined hblank hfeed)) ih

theorem mem_of_mem_core_joined {bs : Blocks UInt16} (h : x ∈ core joined bs) :
    x = space ∨ x = middleDot ∨ x ∈ core id bs := by
  induction bs with
  | nil => exact nomatch h
  | cons b bs ih =>
    rcases bs with _ | ⟨b', bs⟩
    · exact Or.inr (Or.inr h)
    · rw [core, mem_append, mem_append] at h ⊢
      rcases h with (h | h) | h
      · exact Or.inr (Or.inr (Or.inl (Or.inl h)))
      · exact (mem_of_mem_joined h).imp_right (Or.imp_right fun h => Or.inl (Or.inr h.1))
      · exact (ih h).imp_right (Or.imp_right Or.inr)

theorem joined_ne_nil {g : Units} (h : g ≠ []) : joined g ≠ [] := by
  refine replaceRuns_ne_nil (cons_ne_nil _ _) fun hmap => ?_
  exact replaceRuns_ne_nil (cons_ne_nil _ _)
    (replaceRuns_ne_nil (cons_ne_nil _ _) h) (map_eq_nil_iff.mp hmap)

/-- White space and middle dots are not in a pair. -/
theorem apart_of_not_surrogate (h : isHigh x = false ∧ isLow x = false) (y : UInt16) :
    (isHigh x = true → isLow y = true → isControl [x, y] = false)
      ∧ (isHigh y = true → isLow x = true → isControl [y, x] = false) := by
  rw [h.1, h.2]
  exact ⟨nofun, fun _ => nofun⟩

theorem not_surrogate_joined {g : Units} (hg : ∀ x ∈ g, isSpace x = true) :
    ∀ x ∈ joined g, isHigh x = false ∧ isLow x = false := by
  intro x hx
  rcases mem_of_mem_joined hx with rfl | rfl | ⟨hx, -⟩
  · decide
  · decide
  · exact surrogate_false_of_isSpace (hg x hx)

/-- The pairs of the cleaned text are those of the joined words. -/
theorem noControlPair_core : NoControlPair (core joined (blocks isSpace (cleaned text)).2)
      ↔ NoControlPair (cleaned text) := by
  have hspaced := (blocks_spaced isSpace (cleaned text)).2
  have htrim : (trim isSpace (cleaned text)).IsChain _ ↔ NoControlPair (cleaned text) :=
    isChain_trim fun x hx => apart_of_not_surrogate (surrogate_false_of_isSpace hx)
  rw [← htrim, trim_eq_core, NoControlPair,
    isChain_core hspaced (fun _ => joined_ne_nil) fun g hg x hx =>
      apart_of_not_surrogate (not_surrogate_joined hg x hx),
    isChain_core hspaced (show ∀ g : Units, g ≠ [] → id g ≠ [] from fun _ h => h) fun g hg x hx =>
      apart_of_not_surrogate (surrogate_false_of_isSpace (hg x hx))]

/-- What becomes of a text is made of what is left of it. -/
theorem mem_of_mem_sanitize (h : x ∈ sanitizeTemplateVariable text) :
    x = space ∨ x = middleDot ∨ (x ∈ cleaned text ∧ x ≠ lineFeed ∧ x ≠ tab) :=
  mem_of_mem_joined ((trim_part _ _).subset h)

theorem ne_carriageReturn_of_mem_cleaned (h : x ∈ cleaned text) : x ≠ carriageReturn :=
  (mem_of_mem_normalizeFrom (mem_of_mem_removeControls h)).1

/-- A result between whose words only joined gaps stand is acceptable as far as its pairs and the
line separators are. -/
theorem acceptable_iff
    (h : sanitizeTemplateVariable text = core joined (blocks isSpace (cleaned text)).2) :
    Acceptable (sanitizeTemplateVariable text) ↔ removeControls (cleaned text) = cleaned text
        ∧ ∀ x ∈ trim isSpace (cleaned text), x ≠ 0x2028 ∧ x ≠ 0x2029 := by
  have hremoved : removeControls (cleaned text) = cleaned text
      ↔ NoControlPair (sanitizeTemplateVariable text) := by
    rw [h, noControlPair_core]
    exact removeControls_removed_iff
  rw [hremoved, trim_eq_core]
  constructor
  · intro hacc
    refine ⟨(noControl_iff.mp hacc.noControl).2, fun x hx => ?_⟩
    constructor <;> rintro rfl <;>
      exact absurd (hacc.noBreak _ (h ▸ mem_core_joined (by decide) (by decide) hx)) (by decide)
  · rintro ⟨hpairs, hseparator⟩
    refine ⟨fun x hx => ?_, fun hx => ?_, noControl_iff.mpr ⟨fun x hx => ?_, hpairs⟩,
      (noDouble_replaceRuns space _).part (trim_part _ _), trimmed_trim _⟩
    · rcases mem_of_mem_sanitize hx with rfl | rfl | ⟨hclean, hfeed, -⟩
      · decide
      · decide
      · have hreturn := ne_carriageReturn_of_mem_cleaned hclean
        rw [h] at hx
        rcases mem_of_mem_core_joined hx with rfl | rfl | hx
        · decide
        · decide
        · simp [isLineBreak, hfeed, hreturn, hseparator x hx]
    · rcases mem_of_mem_sanitize hx with h | h | h
      · exact absurd h (by decide)
      · exact absurd h (by decide)
      · exact h.2.2 rfl
    · rcases mem_of_mem_sanitize hx with rfl | rfl | ⟨hclean, hfeed, htab⟩
      · decide +kernel
      · decide +kernel
      · have hstays := stays_of_mem_removeControls hclean
        simpa [stays, hfeed, htab] using hstays

/-! ### Acceptable texts stay as they are -/

variable {s : Units}

theorem normalizeBreaks_eq_self (h : carriageReturn ∉ s) : normalizeBreaks s = s := by
  rw [normalizeBreaks]
  induction s with
  | nil => rfl
  | cons x s ih =>
    rw [mem_cons, not_or] at h
    rw [normalizeFrom, if_neg (Ne.symm h.1), if_neg (fun hx => by cases hx.2), ih h.2]

/-- A space that stands alone is replaced by itself. -/
theorem replaceRuns_space {q : UInt16 → Bool} {few : ℕ}
    (hq : ∀ x ∈ s, q x = true → x = space) (hdouble : NoDouble space s) :
    replaceRuns q few [space] s = s := by
  refine replaceRuns_eq_self fun r hr hall => ?_
  have hspace : ∀ x ∈ r, x = space := fun x hx => hq x (hr.subset hx) (hall x hx)
  have hlength := hdouble.length_le_one hr hspace
  rw [flush]
  split_ifs with hfew
  · rcases r with _ | ⟨x, _ | ⟨y, r⟩⟩
    · exact absurd hfew (Nat.not_lt_zero few)
    · rw [hspace x mem_cons_self]
    · simp at hlength
  · rfl

theorem sanitize_fixed (h : Acceptable s) : sanitizeTemplateVariable s = s := by
  have hfeed : lineFeed ∉ s := fun hx => absurd (h.noBreak _ hx) (by decide)
  have hreturn : carriageReturn ∉ s := fun hx => absurd (h.noBreak _ hx) (by decide)
  have hcleaned : cleaned s = s := by
    rw [cleaned, trim_eq_self_iff.mpr h.trimmed, normalizeBreaks_eq_self hreturn,
      removeControls_eq_self_iff]
    intro c hc
    simp [stays, h.noControl c hc]
  have hblank : ∀ x ∈ s, isBlank x = true → x = space := fun x hx hb =>
    (isBlank_iff.mp hb).resolve_right fun htab => h.noTab (htab ▸ hx)
  have hbreak : ∀ x ∈ s, (x == lineFeed) = false := fun x hx =>
    beq_false_of_ne fun h => hfeed (h ▸ hx)
  have hmap : s.map (fun x => if x = lineFeed then space else x) = s.map id :=
    map_congr_left fun x hx => if_neg (beq_eq_false_iff_ne.mp (hbreak x hx))
  have hjoined : joined s = s := by
    rw [joined, replaceRuns_space hblank h.noDouble, replaceRuns_of_forall hbreak, hmap, map_id]
    exact replaceRuns_space (fun x _ hx => beq_iff_eq.mp hx) h.noDouble
  rw [sanitizeTemplateVariable, hcleaned, hjoined, trim_eq_self_iff.mpr h.trimmed]

/-! ### Words -/

theorem isWord_of_mem_wordsOf {w : Units} (h : w ∈ wordsOf text) : IsWord isSpace w := by
  obtain ⟨hw, hne⟩ := mem_filter.mp h
  obtain ⟨b, hb, rfl⟩ := mem_map.mp hw
  refine ⟨of_decide_eq_true hne, fun x hx => ?_⟩
  exact ((blocks_spaced isSpace text).2.isWord b hb).2 x (mem_of_mem_removeControls hx)

/-- The words are left in order, whatever the gaps are. -/
theorem inOrder_sanitize (text : Units) :
    InOrder (wordsOf text) (sanitizeTemplateVariable text) := by
  have hword := fun w hw => @isWord_of_mem_wordsOf text w hw
  have hcleaned : InOrder (wordsOf text) (cleaned text) := by
    have hcore := inOrder_core cleanedGap
      ((blocks isSpace text).2.map fun b => (removeControls b.1, b.2))
    rw [← cleaned_eq, map_map] at hcore
    exact hcore.filter _
  refine InOrder.trim (.replaceRuns (.map (.replaceRuns (.replaceRuns hcleaned ?_) ?_) ?_) ?_) hword
  · exact fun w hw => (hword w hw).mono fun _ => isSpace_of_isBlank
  · exact fun w hw => (hword w hw).mono (isSpace_of_beq (by decide))
  · exact fun w hw x hx => if_neg fun h => absurd (h ▸ (hword w hw).2 x hx) (by decide)
  · exact fun w hw => (hword w hw).mono (isSpace_of_beq (by decide))

/-- `sanitizeTemplateVariable` does its work on the benign texts only. -/
theorem sanitized_iff (text : Units) : Sanitized text ↔ Benign text := by
  constructor
  · intro h
    obtain ⟨hfirst, hlast⟩ := between_iff.mp h.between
    obtain ⟨hremoved, hseparator⟩ := (acceptable_iff h.between).mp h.acceptable
    exact ⟨hremoved, hfirst, hlast, hseparator⟩
  · intro h
    have hbetween := between_iff.mpr ⟨h.first, h.last⟩
    have hacceptable := (acceptable_iff hbetween).mpr ⟨h.removed, h.noSeparator⟩
    exact ⟨sanitize_fixed hacceptable, hacceptable, inOrder_sanitize text, hbetween⟩

/-! ### Texts of separators -/

theorem isFiller_iff : isFiller x = true ↔ x = middleDot ∨ isSpace x = true := by
  rw [isFiller, Bool.or_eq_true, beq_iff_eq]

/-- What is left of a text: white space, and the words. -/
theorem mem_of_mem_cleaned (h : x ∈ cleaned text) :
    isSpace x = true ∨ ∃ w ∈ wordsOf text, x ∈ w := by
  rw [cleaned_eq] at h
  obtain ⟨_, hb, hx⟩ := mem_of_mem_core h
  obtain ⟨b, hblock, rfl⟩ := mem_map.mp hb
  rcases hx with hx | hx
  · refine Or.inr ⟨removeControls b.1, mem_filter.mpr ⟨mem_map_of_mem hblock, ?_⟩, hx⟩
    exact decide_eq_true (ne_nil_of_mem hx)
  · have hwhite := (blocks_spaced isSpace text).2.white b hblock
    exact Or.inl (isSpace_normalizeBreaks hwhite x (mem_of_mem_removeControls hx))

theorem flatten_eq_nil_iff :
    flattenForTemplateVariable text = [] ↔ ∀ w ∈ wordsOf text, ∀ x ∈ w, x = middleDot := by
  have hempty : flattenForTemplateVariable text = []
      ↔ ∀ x ∈ sanitizeTemplateVariable text, isFiller x = true := by
    rw [← all_eq_true, flattenForTemplateVariable]
    split_ifs with hall
    · exact iff_of_true rfl hall
    · refine iff_of_false (fun hnil => hall ?_) hall
      rw [hnil]
      rfl
  rw [hempty]
  constructor
  · intro h w hw x hx
    refine (isFiller_iff.mp (h x ((inOrder_sanitize text).mem hw hx))).resolve_right ?_
    rw [(isWord_of_mem_wordsOf hw).2 x hx]
    exact Bool.false_ne_true
  · intro h x hx
    rw [isFiller_iff]
    rcases mem_of_mem_sanitize hx with rfl | rfl | ⟨hx, -⟩
    · exact Or.inr (by decide)
    · exact Or.inl rfl
    · rcases mem_of_mem_cleaned hx with hx | ⟨w, hw, hx⟩
      · exact Or.inr hx
      · exact Or.inl (h w hw x hx)

/-- `flattenForTemplateVariable` does its work where `sanitizeTemplateVariable` does. -/
theorem flattened_of_sanitized (h : Sanitized text) : Flattened text := by
  refine ⟨?_, flatten_eq_nil_iff⟩
  by_cases hall : (sanitizeTemplateVariable text).all isFiller = true
  · have hnil : flattenForTemplateVariable text = [] := if_pos hall
    rw [hnil]
    decide
  · have hflat : flattenForTemplateVariable text = sanitizeTemplateVariable text := if_neg hall
    rw [hflat, flattenForTemplateVariable, h.idempotent]
    exact if_neg hall

/-! ### Cutting -/

theorem lastIndexOfUnit_spec {l : Units} {i : ℕ} (h : lastIndexOfUnit x l = some i) :
    ∃ rest, l.drop i = x :: rest := by
  induction l generalizing i with
  | nil => exact nomatch h
  | cons y l ih =>
    rw [lastIndexOfUnit] at h
    split at h
    · rename_i j hj
      obtain rfl := Option.some.inj h
      exact ih hj
    · split_ifs at h with hy
      obtain rfl := Option.some.inj h
      exact ⟨l, congrArg (· :: l) hy⟩

/-- Where a text is cut: at the budget, or before a space within it. -/
theorem capTemplateVar_cases {max : ℕ} (h : max < s.length) :
    ∃ cut rest, s = cut ++ rest ∧ cut.length ≤ max - 1
      ∧ capTemplateVar s max = trimEnd isSpace cut ++ [ellipsis]
      ∧ (lateSpace (max - 1) (s.take (max - 1)) = none ∧ cut = s.take (max - 1)
        ∨ lateSpace (max - 1) (s.take (max - 1)) ≠ none ∧ ∃ rest', rest = space :: rest') := by
  rw [capTemplateVar, if_neg (Nat.not_le.mpr h)]
  cases hlate : lateSpace (max - 1) (s.take (max - 1)) with
  | none =>
    refine ⟨s.take (max - 1), s.drop (max - 1), (take_append_drop _ s).symm,
      length_take_le _ s, ?_, Or.inl ⟨rfl, rfl⟩⟩
    simp only [hlate]
  | some i =>
    have hlast := Option.eq_some_of_filter_eq_some hlate
    obtain ⟨rest, hrest⟩ := lastIndexOfUnit_spec hlast
    refine ⟨(s.take (max - 1)).take i, space :: (rest ++ s.drop (max - 1)), ?_,
      (length_take_le' _ _).trans (length_take_le _ s), ?_, Or.inr ⟨nofun, _, rfl⟩⟩
    · rw [← cons_append, ← hrest, ← append_assoc, take_append_drop, take_append_drop]
    · simp only [hlate]

/-- A beginning of an acceptable text with the mark of a cut is acceptable. -/
theorem acceptable_cut {kept rest : Units} (h : Acceptable (kept ++ rest)) :
    Acceptable (kept ++ [ellipsis]) := by
  have hmem : ∀ x ∈ kept ++ [ellipsis], x ∈ kept ++ rest ∨ x = ellipsis := fun x hx =>
    (mem_append.mp hx).imp (mem_append_left rest) mem_singleton.mp
  obtain ⟨hunits, hpairs⟩ := noControl_iff.mp h.noControl
  refine ⟨fun x hx => ?_, fun hx => ?_, noControl_iff.mpr ⟨fun x hx => ?_, ?_⟩, ?_, ?_, ?_⟩
  · exact (hmem x hx).elim (h.noBreak x) fun hx => hx ▸ by decide
  · exact (hmem tab hx).elim h.noTab (by decide)
  · exact (hmem x hx).elim (hunits x) fun hx => hx ▸ by decide +kernel
  · refine isChain_append.mpr ⟨(isChain_append.mp hpairs).1, List.IsChain.singleton _, ?_⟩
    intro x _ y hy _ hlow
    rw [← Option.some.inj hy] at hlow
    exact absurd hlow (by decide)
  · refine isChain_append.mpr ⟨(isChain_append.mp h.noDouble).1, List.IsChain.singleton _, ?_⟩
    rintro x - y hy ⟨-, rfl⟩
    exact absurd (Option.some.inj hy) (by decide)
  · rcases kept with _ | ⟨x, kept⟩
    · rintro x hx
      rw [← Option.some.inj hx]
      decide
    · exact h.trimmed.head
  · intro x hx
    rw [getLast?_append_of_ne_nil _ (cons_ne_nil _ _)] at hx
    rw [← Option.some.inj hx]
    decide

theorem acceptable_capTemplateVar (h : Acceptable s) (max : ℕ) :
    Acceptable (capTemplateVar s max) := by
  by_cases hmax : s.length ≤ max
  · rwa [capTemplateVar, if_pos hmax]
  · obtain ⟨cut, rest, hs, -, hcap, -⟩ := capTemplateVar_cases (Nat.not_le.mp hmax)
    obtain ⟨white, hcut, -⟩ := @exists_trimEnd _ isSpace cut
    rw [hs, hcut, append_assoc] at h
    exact hcap ▸ acceptable_cut h

/-- A text that ends with a mark and goes on with a pair was cut in this pair. -/
theorem endsInHalf_iff {max : ℕ} (hmax : 2 ≤ max) :
    EndsInHalf s (capTemplateVar s max) ↔ CutsPair s max := by
  by_cases hlength : s.length ≤ max
  · refine iff_of_false ?_ fun h => Nat.not_lt.mpr hlength h.1
    rintro ⟨kept, high, low, rest, hcapped, hs, -, hlow⟩
    rw [capTemplateVar, if_pos hlength, hs] at hcapped
    obtain ⟨-, htail⟩ := List.cons.inj (append_cancel_left hcapped)
    rw [(List.cons.inj htail).1] at hlow
    exact absurd hlow (by decide)
  · rw [not_le] at hlength
    obtain ⟨cut, tail, hs, -, hcap, hcase⟩ := capTemplateVar_cases hlength
    obtain ⟨white, hcut, hwhite⟩ := @exists_trimEnd _ isSpace cut
    constructor
    · rintro ⟨kept, high, low, rest, hcapped, hpair, hhigh, hlow⟩
      have hnotSpace : isSpace low = false := Bool.eq_false_iff.mpr fun h =>
        Bool.false_ne_true ((surrogate_false_of_isSpace h).2.symm.trans hlow)
      have htrim : trimEnd isSpace cut = kept ++ [high] := by
        rw [hcap, append_cons kept high [ellipsis]] at hcapped
        exact append_cancel_right hcapped
      -- Nothing is trimmed off: the next unit is the other half.
      have hnext : white ++ tail = low :: rest := by
        rw [hs, hcut, htrim, append_assoc, append_assoc] at hpair
        exact (List.cons.inj (append_cancel_left hpair)).2
      have hwhiteNil : white = [] := by
        rcases white with _ | ⟨x, white⟩
        · rfl
        · have hx := hwhite x mem_cons_self
          rw [(List.cons.inj hnext).1, hnotSpace] at hx
          exact nomatch hx
      rw [hwhiteNil, nil_append] at hnext
      rw [hwhiteNil, append_nil, htrim] at hcut
      rcases hcase with ⟨hlate, htake⟩ | ⟨-, rest', htail⟩
      · refine ⟨hlength, hlate, kept, high, low, rest, hpair, ?_, hhigh, hlow⟩
        have hcount := congrArg List.length (hcut.symm.trans htake)
        rw [length_append, length_singleton, length_take] at hcount
        omega
      · rw [htail] at hnext
        rw [← (List.cons.inj hnext).1] at hlow
        exact absurd hlow (by decide)
    · rintro ⟨-, hlate, kept, high, low, rest, hpair, hkept, hhigh, hlow⟩
      rcases hcase with ⟨-, htake⟩ | ⟨hsome, -⟩
      · have hbudget : max - 1 = (kept ++ [high]).length := by
          rw [length_append, length_singleton]
          omega
        have hcutPair : cut = kept ++ [high] := by
          rw [htake, hbudget, hpair, append_cons kept high (low :: rest)]
          exact take_left
        have hlast : trimEnd isSpace cut = kept ++ [high] := by
          rw [hcutPair]
          refine trimEnd_of_last fun x hx => ?_
          rw [getLast?_append_of_ne_nil _ (cons_ne_nil _ _)] at hx
          rw [← Option.some.inj hx, Bool.eq_false_iff]
          exact fun h => Bool.false_ne_true ((surrogate_false_of_isSpace h).1.symm.trans hhigh)
        refine ⟨kept, high, low, rest, ?_, hpair, hhigh, hlow⟩
        rw [hcap, hlast, append_assoc]
        rfl
      · exact absurd hlate hsome

theorem length_capTemplateVar_le {max : ℕ} (hmax : 2 ≤ max) :
    (capTemplateVar s max).length ≤ max := by
  by_cases h : s.length ≤ max
  · rw [capTemplateVar, if_pos h]
    exact h
  · obtain ⟨cut, rest, -, hlength, hcap, -⟩ := capTemplateVar_cases (Nat.not_le.mp h)
    obtain ⟨white, hcut, -⟩ := @exists_trimEnd _ isSpace cut
    have htrim := congrArg List.length hcut
    rw [length_append] at htrim
    rw [hcap, length_append, length_singleton]
    omega

/-! ### The rule -/

/-- Template variables satisfy the provider's rule, exactly on the benign texts that are not cut in
a pair. -/
theorem template_variable_iff (text : Units) (max : ℕ) (hmax : 2 ≤ max) :
    (Sanitized text ∧ Flattened text ∧ Capped (sanitizeTemplateVariable text) max)
      ↔ Benign text ∧ ¬ CutsPair (sanitizeTemplateVariable text) max := by
  rw [sanitized_iff]
  constructor
  · rintro ⟨hbenign, -, hcapped⟩
    exact ⟨hbenign, fun hcut => hcapped.whole ((endsInHalf_iff hmax).mpr hcut)⟩
  · rintro ⟨hbenign, hcut⟩
    have hsanitized := (sanitized_iff text).mpr hbenign
    exact ⟨hbenign, flattened_of_sanitized hsanitized, length_capTemplateVar_le hmax,
      sanitize_fixed (acceptable_capTemplateVar hsanitized.acceptable max),
      fun hhalf => hcut ((endsInHalf_iff hmax).mp hhalf)⟩

/-- Two lines of text, cut at seven units, satisfy it. -/
theorem two_lines_acceptable :
    2 ≤ 7 ∧ (Sanitized (units "one\n\ntwo ") ∧ Flattened (units "one\n\ntwo ")
      ∧ Capped (sanitizeTemplateVariable (units "one\n\ntwo ")) 7) := by
  refine ⟨by decide, (template_variable_iff _ 7 (by decide)).mpr ⟨⟨?_, ?_, ?_, ?_⟩, fun h => ?_⟩⟩
  · decide +kernel
  · decide +kernel
  · decide +kernel
  · exact fun x hx => by
      have hall : (trim isSpace (cleaned (units "one\n\ntwo "))).all
          (fun x => x != 0x2028 && x != 0x2029) = true := by decide +kernel
      simpa using all_eq_true.mp hall x hx
  · exact absurd h.2.1 (by decide +kernel)

/-- A blank line after a zero-width space at the start becomes a separator before the first word. -/
theorem hidden_start_separated : sanitizeTemplateVariable [0x200B, 10, 10, 97] = [183, 32, 97]
      ∧ ¬ Sanitized [0x200B, 10, 10, 97] :=
  ⟨by decide +kernel, fun h => absurd h.between (by decide +kernel)⟩

end Rabotka.Outbound
