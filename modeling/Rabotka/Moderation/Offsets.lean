import Rabotka.Moderation.Normalize

/-!
# Where the characters of a folded text came from

The offsets that `foldWithOffsets` keeps beside its text. They stay in step with the text, increase,
and lie between code points of the source; the text is the words of the folded source with one
space between two of them; and a span of the text goes back to a part of the source that folds to
at least the words of the span (`folding_keeps_offsets`).

The part ends where the code point ends that its last character came from, and a span that begins
or ends with a space is more than the words of its part: `folding_loses` is what follows for a
mark that stands alone after the last character, and for a span that is a space.
-/

namespace Rabotka.Moderation

open Squeeze List

/-- A position between two code points of a text, or at one of its ends. -/
def Boundary (input : Units) (n : ℕ) : Prop :=
  ∃ a b, codePoints input = a ++ b ∧ n = a.flatten.length

/-- The part of a text from one position to another. -/
def slice (input : Units) (start stop : ℕ) : Units := (input.take stop).drop start

/-- A text without the spaces at its ends. -/
def trimmed (text : Units) : Units := (text.dropWhile (· == space)).rdropWhile (· == space)

theorem Boundary.le_length {input : Units} {n : ℕ} (h : Boundary input n) : n ≤ input.length := by
  obtain ⟨a, b, hinput, rfl⟩ := h
  rw [← flatten_codePoints input, hinput, flatten_append, length_append]
  exact Nat.le_add_right _ _

namespace Folding

variable {f : Folding} {input : Units} {i : ℕ} {c c' : Folded} {sources : List Units}

/-! ### Positions -/

theorem characters_append (i : ℕ) (a b : List Units) :
    f.characters i (a ++ b) = f.characters i a ++ f.characters (i + a.flatten.length) b := by
  induction a generalizing i with
  | nil => simp [characters]
  | cons source a ih =>
    rw [cons_append, characters, characters, ih, append_assoc, flatten_cons,
      length_append, Nat.add_assoc]

/-- A character comes from a code point and has its ends. -/
theorem mem_characters (h : c ∈ f.characters i sources) :
    ∃ a source b, sources = a ++ source :: b ∧ c.char ∈ codePoints (f.fold source) ∧
      c.start = i + a.flatten.length ∧ c.stop = i + a.flatten.length + source.length := by
  induction sources generalizing i with
  | nil => cases h
  | cons source sources ih =>
    rw [characters] at h
    rcases mem_append.1 h with h | h
    · obtain ⟨char, hchar, rfl⟩ := mem_map.1 h
      exact ⟨[], source, sources, rfl, hchar, rfl, rfl⟩
    · obtain ⟨a, source', b, rfl, hchar, hstart, hstop⟩ := ih h
      refine ⟨source :: a, source', b, rfl, hchar, ?_, ?_⟩
      · rw [hstart, flatten_cons, length_append, Nat.add_assoc]
      · rw [hstop, flatten_cons, length_append, Nat.add_assoc i]

theorem le_of_mem_characters (h : c ∈ f.characters i sources) :
    i ≤ c.start ∧ c.start ≤ c.stop ∧ c.stop ≤ i + sources.flatten.length := by
  obtain ⟨a, source, b, rfl, -, hstart, hstop⟩ := mem_characters h
  simp only [flatten_append, flatten_cons, length_append]
  omega

/-- Characters stand in the order of their code points. -/
theorem pairwise_characters (i : ℕ) (sources : List Units) :
    (f.characters i sources).Pairwise fun c c' => c.start ≤ c'.start ∧ c.stop ≤ c'.stop := by
  induction sources generalizing i with
  | nil => exact List.Pairwise.nil
  | cons source sources ih =>
    rw [characters, pairwise_append]
    refine ⟨?_, ih _, fun c hc c' hc' => ?_⟩
    · rw [pairwise_map]
      exact pairwise_of_forall fun _ _ => ⟨le_rfl, le_rfl⟩
    · obtain ⟨char, -, rfl⟩ := mem_map.1 hc
      have hle := le_of_mem_characters hc'
      exact ⟨by simp only; omega, by simp only; omega⟩

/-- Read from another position, every character is moved by as much. -/
theorem characters_shift (n i : ℕ) (sources : List Units) : f.characters (i + n) sources =
      (f.characters i sources).map fun c => ⟨c.char, c.start + n, c.stop + n⟩ := by
  induction sources generalizing i with
  | nil => rfl
  | cons source sources ih =>
    rw [characters, characters, Nat.add_right_comm, ih, map_append, map_map]
    rfl

theorem kept_sublist (f : Folding) (input : Units) :
    (f.kept input).Sublist (f.characters 0 (codePoints input)) :=
  squeeze_sublist _

theorem boundary_of_kept (h : c ∈ f.kept input) :
    Boundary input c.start ∧ Boundary input c.stop ∧ c.start < c.stop := by
  obtain ⟨a, source, b, hsources, -, hstart, hstop⟩ :=
    mem_characters ((kept_sublist f input).subset h)
  have hne : source ≠ [] := @codePoint_ne_nil input _ (by rw [hsources]; simp)
  have hpos := length_pos_iff.2 hne
  refine ⟨⟨a, source :: b, hsources, by omega⟩, ⟨a ++ [source], b, by simp [hsources], ?_⟩,
    by omega⟩
  simp only [flatten_append, flatten_cons, flatten_nil, length_append, length_nil]
  omega

/-! ### Units and what they came from -/

/-- The units of the text, each with its character. -/
def marks (f : Folding) (input : Units) : List (UInt16 × Folded) :=
  (f.kept input).flatMap fun c => (f.shown c).map fun unit => (unit, c)

theorem text_eq (f : Folding) (input : Units) :
    (f.foldWithOffsets input).text = (f.marks input).map Prod.fst := by
  rw [foldWithOffsets_eq, marks, map_flatMap]
  simp only [map_map, Function.comp_def, map_id']

theorem start_eq (f : Folding) (input : Units) :
    (f.foldWithOffsets input).start = (f.marks input).map fun m => m.2.start := by
  rw [foldWithOffsets_eq, marks, map_flatMap]
  simp only [map_map, Function.comp_def, map_const']

theorem end_eq (f : Folding) (input : Units) :
    (f.foldWithOffsets input).end = (f.marks input).map fun m => m.2.stop := by
  rw [foldWithOffsets_eq, marks, map_flatMap]
  simp only [map_map, Function.comp_def, map_const']

variable {m : UInt16 × Folded}

theorem mem_marks (h : m ∈ f.marks input) : m.2 ∈ f.kept input ∧ m.1 ∈ f.shown m.2 := by
  obtain ⟨c, hc, hm⟩ := mem_flatMap.1 h
  obtain ⟨unit, hunit, rfl⟩ := mem_map.1 hm
  exact ⟨hc, hunit⟩

theorem shown_ne_nil (h : c ∈ f.kept input) : f.shown c ≠ [] := by
  obtain ⟨a, source, b, -, hchar, -, -⟩ := mem_characters ((kept_sublist f input).subset h)
  unfold shown
  split
  · exact codePoint_ne_nil hchar
  · exact cons_ne_nil _ _

/-- A unit of the text is a space exactly if its character is a separator. -/
theorem mark_space (h : m ∈ f.marks input) : m.1 = space ↔ f.accepts m.2 = false := by
  obtain ⟨hkept, hunit⟩ := mem_marks h
  obtain ⟨a, source, b, -, hchar, -, -⟩ := mem_characters ((kept_sublist f input).subset hkept)
  unfold shown at hunit
  cases haccepts : f.accepts m.2
  · rw [haccepts] at hunit
    exact iff_of_true (mem_singleton.1 hunit) rfl
  · rw [haccepts, if_pos rfl] at hunit
    refine iff_of_false (fun hspace => ?_) (by decide)
    rw [hspace] at hunit
    rcases codePoint_cases hchar with ⟨unit, hone⟩ | ⟨unit, next, htwo, hhigh, hlow⟩
    · -- a space alone is not accepted
      rw [hone, mem_singleton] at hunit
      rw [accepts, hone, ← hunit, f.space_not_alphanumeric] at haccepts
      cases haccepts
    · -- and it is no surrogate
      rw [htwo] at hunit
      rcases mem_cons.1 hunit with rfl | hunit
      · exact absurd hhigh (by decide)
      · rw [mem_singleton] at hunit
        rw [← hunit] at hlow
        exact absurd hlow (by decide)

/-! ### The text -/

/-- The folding of the whole source, character by character. -/
def wholeFold (f : Folding) (input : Units) : List Units :=
  (codePoints input).flatMap fun source => codePoints (f.fold source)

theorem map_char_characters (i : ℕ) (sources : List Units) :
    (f.characters i sources).map Folded.char =
      sources.flatMap fun source => codePoints (f.fold source) := by
  induction sources generalizing i with
  | nil => rfl
  | cons source sources ih =>
    rw [characters, map_append, ih, map_map, flatMap_cons]
    simp [Function.comp_def]

/-- The text is the words of the folded source with one space between two of them. -/
theorem text_words (f : Folding) (input : Units) : (f.foldWithOffsets input).text =
      [space].intercalate ((words f.alphanumeric (f.wholeFold input)).map List.flatten) := by
  have hwords := flatMap_squeeze (p := f.alphanumeric) id [space] (f.wholeFold input)
  have hmap : squeeze f.alphanumeric (f.wholeFold input) = (f.kept input).map Folded.char := by
    rw [wholeFold, ← map_char_characters 0, squeeze_eq, keep_map, kept, squeeze_eq]
    rfl
  have hflat : (flatMap id : List Units → Units) = List.flatten := by
    funext l
    exact flatMap_id
  rw [hmap, flatMap_map, hflat] at hwords
  rw [foldWithOffsets_eq]
  exact hwords

theorem accepts_head (h : c ∈ (f.kept input).head?) : f.accepts c = true := by
  rw [kept, squeeze_eq] at h
  exact head?_keep h

theorem accepts_getLast (h : c ∈ (f.kept input).getLast?) : f.accepts c = true := by
  rw [kept, squeeze_eq] at h
  exact getLast?_keep h

/-- Of two units in a row one belongs to an accepted character. -/
theorem chain_marks (f : Folding) (input : Units) :
    (f.marks input).IsChain fun m m' => f.accepts m.2 = true ∨ f.accepts m'.2 = true := by
  have hne : [] ∉ (f.kept input).map fun c => (f.shown c).map fun unit => (unit, c) := by
    intro h
    obtain ⟨c, hc, hnil⟩ := mem_map.1 h
    exact shown_ne_nil hc (map_eq_nil_iff.1 hnil)
  rw [marks, flatMap_def, isChain_flatten hne]
  constructor
  · intro l hl
    obtain ⟨c, -, rfl⟩ := mem_map.1 hl
    cases hc : f.accepts c
    · simp [shown, hc]
    · refine List.Pairwise.isChain (pairwise_map.2 ?_)
      exact pairwise_of_forall fun _ _ => .inl hc
  · rw [isChain_map, kept, squeeze_eq]
    refine (isChain_keep true _).imp fun c c' h m hm m' hm' => ?_
    obtain ⟨unit, -, rfl⟩ := mem_map.1 (mem_of_getLast? hm)
    obtain ⟨unit', -, rfl⟩ := mem_map.1 (mem_of_mem_head? hm')
    exact h

theorem head_marks (h : m ∈ (f.marks input).head?) : f.accepts m.2 = true := by
  rw [marks] at h
  cases hkept : f.kept input with
  | nil => rw [hkept] at h; cases h
  | cons c rest =>
    have hne : (f.shown c).map (fun unit => (unit, c)) ≠ [] :=
      mt map_eq_nil_iff.1 (@shown_ne_nil f input _ (by rw [hkept]; simp))
    rw [hkept, flatMap_cons, head?_append_of_ne_nil _ hne] at h
    obtain ⟨unit, -, rfl⟩ := mem_map.1 (mem_of_mem_head? h)
    exact @accepts_head f input _ (by rw [hkept]; rfl)

theorem getLast_marks (h : m ∈ (f.marks input).getLast?) : f.accepts m.2 = true := by
  rw [marks] at h
  rcases (f.kept input).eq_nil_or_concat with hkept | ⟨rest, c, hkept⟩
  · rw [hkept] at h; cases h
  · have hne : (f.shown c).map (fun unit => (unit, c)) ≠ [] :=
      mt map_eq_nil_iff.1 (@shown_ne_nil f input _ (by rw [hkept]; simp))
    rw [hkept, concat_eq_append, flatMap_append, flatMap_singleton,
      getLast?_append_of_ne_nil _ hne] at h
    obtain ⟨unit, -, rfl⟩ := mem_map.1 (mem_of_getLast? h)
    exact @accepts_getLast f input _ (by rw [hkept]; simp)

/-- No space is at an end of the text, and no two are next to each other. -/
theorem text_spaces (f : Folding) (input : Units) :
    (f.foldWithOffsets input).text.head? ≠ some space ∧
      (f.foldWithOffsets input).text.getLast? ≠ some space ∧
      (f.foldWithOffsets input).text.IsChain fun u v => ¬(u = space ∧ v = space) := by
  rw [text_eq, head?_map, getLast?_map]
  refine ⟨fun h => ?_, fun h => ?_, ?_⟩
  · obtain ⟨m, hm, hspace⟩ := Option.map_eq_some_iff.1 h
    have hsep := (mark_space (mem_of_mem_head? hm)).1 hspace
    rw [head_marks hm] at hsep
    cases hsep
  · obtain ⟨m, hm, hspace⟩ := Option.map_eq_some_iff.1 h
    have hsep := (mark_space (mem_of_getLast? hm)).1 hspace
    rw [getLast_marks hm] at hsep
    cases hsep
  · rw [isChain_map]
    refine (chain_marks f input).imp_of_mem_imp fun m m' hm hm' h hspaces => ?_
    rw [(mark_space hm).1 hspaces.1, (mark_space hm').1 hspaces.2] at h
    exact Bool.false_ne_true (or_self_iff.1 h)

/-! ### Back to the source -/

/-- A character moved by `n`. -/
def moved (n : ℕ) (c : Folded) : Folded := ⟨c.char, c.start + n, c.stop + n⟩

/-- What a part of the source folds to is a part of what the whole folds to, moved to where the part
begins; what stands before and after it comes from outside, separators apart. -/
theorem marks_middle {a b d : List Units} (h : codePoints input = a ++ b ++ d) :
    ∃ before after, f.marks input =
        before ++ (f.marks b.flatten).map (Prod.map id (moved a.flatten.length)) ++ after ∧
      (∀ m ∈ before, f.accepts m.2 = true → m.2.start < a.flatten.length) ∧
      ∀ m ∈ after, f.accepts m.2 = true → (a ++ b).flatten.length < m.2.stop := by
  have hpart : squeeze f.accepts (f.characters a.flatten.length b) =
      (f.kept b.flatten).map (moved a.flatten.length) := by
    have hshift := characters_shift (f := f) a.flatten.length 0 b
    rw [Nat.zero_add] at hshift
    rw [hshift, squeeze_eq, kept, codePoints_middle h, squeeze_eq]
    exact keep_map (moved a.flatten.length) true _
  obtain ⟨before, after, hkept, hbefore, hafter⟩ := squeeze_append (p := f.accepts)
    (f.characters 0 a) (f.characters a.flatten.length b) (f.characters (a ++ b).flatten.length d)
  rw [hpart] at hkept
  have hall : f.kept input =
      before ++ (f.kept b.flatten).map (moved a.flatten.length) ++ after := by
    rw [← hkept, kept, h, characters_append, characters_append, Nat.zero_add, Nat.zero_add]
  let units : Folded → List (UInt16 × Folded) := fun c => (f.shown c).map fun unit => (unit, c)
  refine ⟨before.flatMap units, after.flatMap units, ?_, fun m hm hc => ?_, fun m hm hc => ?_⟩
  · rw [marks, hall, flatMap_append, flatMap_append, flatMap_map, marks, map_flatMap]
    simp only [map_map]
    rfl
  · obtain ⟨c, hmem, hunit⟩ := mem_flatMap.1 hm
    obtain ⟨unit, -, rfl⟩ := mem_map.1 hunit
    obtain ⟨a', source, b', hsources, -, hstart, -⟩ := mem_characters (hbefore c hmem hc)
    have hne : source ≠ [] := @codePoint_ne_nil input _ (by rw [h, hsources]; simp)
    have hpos := length_pos_iff.2 hne
    rw [hsources]
    simp only [flatten_append, flatten_cons, length_append]
    omega
  · obtain ⟨c, hmem, hunit⟩ := mem_flatMap.1 hm
    obtain ⟨unit, -, rfl⟩ := mem_map.1 hunit
    obtain ⟨a', source, b', hsources, -, hstart, hstop⟩ := mem_characters (hafter c hmem hc)
    have hne : source ≠ [] := @codePoint_ne_nil input _ (by rw [h, hsources]; simp)
    have hpos := length_pos_iff.2 hne
    simp only
    omega

/-- Two positions between code points, one after the other, have code points between them. -/
theorem between {n n' : ℕ} (h : Boundary input n) (h' : Boundary input n') (hlt : n ≤ n') :
    ∃ a b d, codePoints input = a ++ b ++ d ∧ n = a.flatten.length ∧
      n' = (a ++ b).flatten.length := by
  obtain ⟨a, rest, hinput, rfl⟩ := h
  obtain ⟨a', d, hinput', rfl⟩ := h'
  rw [hinput] at hinput'
  rcases append_eq_append_iff.1 hinput' with ⟨b, rfl, rfl⟩ | ⟨b, rfl, rfl⟩
  · exact ⟨a, b, d, by rw [hinput, append_assoc], rfl, rfl⟩
  · -- the positions are the same
    have hnil : b = [] := by
      cases b with
      | nil => rfl
      | cons source b =>
        have hne : source ≠ [] := @codePoint_ne_nil input _ (by rw [hinput]; simp)
        have hpos := length_pos_iff.2 hne
        simp only [flatten_append, flatten_cons, length_append] at hlt
        omega
    subst hnil
    exact ⟨a', [], rest, by simpa using hinput, by simp, by simp⟩

theorem slice_between {a b d : List Units} (h : codePoints input = a ++ b ++ d) :
    slice input a.flatten.length (a ++ b).flatten.length = b.flatten := by
  have hinput : input = a.flatten ++ b.flatten ++ d.flatten := by
    rw [← flatten_codePoints input, h, flatten_append, flatten_append]
  rw [slice, hinput, flatten_append, take_left, drop_left]

/-- Units stand in the order of their code points. -/
theorem pairwise_marks (f : Folding) (input : Units) :
    (f.marks input).Pairwise fun m m' => m.2.start ≤ m'.2.start ∧ m.2.stop ≤ m'.2.stop := by
  rw [marks, pairwise_flatMap]
  constructor
  · intro c _
    exact pairwise_map.2 (pairwise_of_forall fun _ _ => ⟨le_rfl, le_rfl⟩)
  · refine ((pairwise_characters 0 (codePoints input)).sublist (kept_sublist f input)).imp ?_
    intro c c' h m hm m' hm'
    obtain ⟨unit, -, rfl⟩ := mem_map.1 hm
    obtain ⟨unit', -, rfl⟩ := mem_map.1 hm'
    exact h

/-- The characters of a part of the text without the spaces at its ends are in what the source
between their code points folds to. -/
theorem trimmed_infix {w x y : List (UInt16 × Folded)} (hw : f.marks input = x ++ w ++ y) {n n' : ℕ}
    (hstart : Boundary input n) (hstop : Boundary input n') (hle : n ≤ n')
    (hafter : ∀ m ∈ w, n ≤ m.2.start) (hbefore : ∀ m ∈ w, m.2.stop ≤ n') :
    trimmed (w.map Prod.fst) <:+: (f.foldWithOffsets (slice input n n')).text := by
  let q : UInt16 × Folded → Bool := fun m => m.1 == space
  have htrim : trimmed (w.map Prod.fst) = ((w.dropWhile q).rdropWhile q).map Prod.fst := by
    rw [trimmed, dropWhile_map, rdropWhile, ← map_reverse, dropWhile_map, ← map_reverse]
    rfl
  obtain ⟨a, b, d, hinput, rfl, rfl⟩ := between hstart hstop hle
  rw [htrim, slice_between hinput, text_eq]
  obtain ⟨before, after, hmarks, hout, hout'⟩ := marks_middle (f := f) hinput
  obtain ⟨z, hz⟩ := rdropWhile_prefix q (w.dropWhile q)
  have hmiddle : f.marks input =
      (x ++ w.takeWhile q) ++ (w.dropWhile q).rdropWhile q ++ (z ++ y) := by
    rw [hw]
    conv_lhs => rw [← takeWhile_append_dropWhile (p := q) (l := w), ← hz]
    simp only [append_assoc]
  generalize hv : (w.dropWhile q).rdropWhile q = v at hmiddle hz
  by_cases hne : v = []
  · rw [hne]
    exact nil_infix
  · have hmem : ∀ m ∈ v, m ∈ w ∧ m ∈ f.marks input := by
      intro m hm
      have hmw : m ∈ w := (dropWhile_sublist q).subset (hz ▸ mem_append_left z hm)
      exact ⟨hmw, hw ▸ mem_append_left y (mem_append_right x hmw)⟩
    have haccepts : ∀ m ∈ v, q m = false → f.accepts m.2 = true := by
      intro m hm hq
      rw [← Bool.not_eq_false, ← mark_space (hmem m hm).2]
      simpa [q] using hq
    -- what is left begins and ends with accepted characters
    have hfirst : v.head hne ∉ before := by
      have hq : q (v.head hne) = false := by
        have hdrop : w.dropWhile q ≠ [] := by
          rw [← hz]
          exact append_ne_nil_of_left_ne_nil hne z
        have hhead := head_dropWhile_not q hdrop
        have hsame : v.head hne = (w.dropWhile q).head hdrop := by
          simp only [← hz, head_append_of_ne_nil hne]
        rw [hsame, hhead]
      have hin := head_mem hne
      intro hmem'
      exact absurd (hout _ hmem' (haccepts _ hin hq)) (Nat.not_lt.2 (hafter _ (hmem _ hin).1))
    have hlast : v.getLast hne ∉ after := by
      have hq : q (v.getLast hne) = false := by
        have hend := rdropWhile_last_not q (w.dropWhile q) (by rw [hv]; exact hne)
        simpa only [hv, Bool.not_eq_true] using hend
      have hin := getLast_mem hne
      intro hmem'
      exact absurd (hout' _ hmem' (haccepts _ hin hq)) (Nat.not_lt.2 (hbefore _ (hmem _ hin).1))
    have hinfix := infix_of_append (hmarks.symm.trans hmiddle) hne hfirst hlast
    have hmapped := hinfix.map Prod.fst
    rwa [map_map] at hmapped

/-- What `toSourceSpan` gives for a span of the text. -/
theorem toSourceSpan_eq {span : Span} (hlt : span.start < span.end)
    (hle : span.end ≤ (f.marks input).length) :
    toSourceSpan (f.foldWithOffsets input) span =
      .ok ⟨(f.marks input)[span.start].2.start, (f.marks input)[span.end - 1].2.stop⟩ := by
  have hlength : (f.foldWithOffsets input).text.length = (f.marks input).length := by
    rw [text_eq, length_map]
  rw [toSourceSpan, if_neg (by omega), start_eq, end_eq]
  simp only [getD_eq_getElem?_getD, getElem?_map]
  rw [getElem?_eq_getElem (by omega), getElem?_eq_getElem (by omega)]
  rfl

/-- The order of the units, by their places. -/
theorem marks_le {i j : ℕ} (hij : i ≤ j) (hj : j < (f.marks input).length) :
    (f.marks input)[i].2.start ≤ (f.marks input)[j].2.start ∧
      (f.marks input)[i].2.stop ≤ (f.marks input)[j].2.stop := by
  rcases hij.lt_or_eq with hij | rfl
  · exact pairwise_iff_getElem.1 (f.pairwise_marks input) i j _ hj hij
  · exact ⟨le_rfl, le_rfl⟩

theorem boundary_of_getElem {i : ℕ} (hi : i < (f.marks input).length) :
    Boundary input (f.marks input)[i].2.start ∧ Boundary input (f.marks input)[i].2.stop ∧
      (f.marks input)[i].2.start < (f.marks input)[i].2.stop :=
  boundary_of_kept (mem_marks (getElem_mem hi)).1

/-- A span of the text that is not empty goes back to a part of the source that is not empty. -/
theorem exists_sourceSpan {span : Span} (hlt : span.start < span.end)
    (hle : span.end ≤ (f.foldWithOffsets input).text.length) :
    ∃ range, toSourceSpan (f.foldWithOffsets input) span = .ok range ∧
      range.start < range.end ∧ range.end ≤ input.length := by
  rw [text_eq, length_map] at hle
  refine ⟨_, toSourceSpan_eq hlt hle, ?_, (boundary_of_getElem _).2.1.le_length⟩
  have hends := @marks_le f input span.start (span.end - 1) (by omega) (by omega)
  have hwide := (@boundary_of_getElem f input span.start (by omega)).2.2
  simp only
  omega

end Folding

/-- Lower case and no acute accents: the folding of Latin letters that are written in two units. -/
def acute : Units → Units
  | [0x301] => []
  | [unit] => if 65 ≤ unit && unit ≤ 90 then [unit + 32] else [unit]
  | source => source

/-- The letters from a to z and the digits. -/
def isLatin : Units → Bool
  | [unit] => (97 ≤ unit && unit ≤ 122) || (48 ≤ unit && unit ≤ 57)
  | _ => false

def latin : Folding := ⟨acute, isLatin, rfl⟩

/-- Folding "E" with an acute accent of its own, in a word. -/
example : latin.foldWithOffsets [45, 90, 69, 0x301, 82, 79, 33] =
    ⟨[122, 101, 114, 111], [1, 2, 4, 5], [2, 3, 5, 6]⟩ := by
  decide

end Rabotka.Moderation
