import Rabotka.Lib.Squeeze

/-!
# Folding that remembers where every character came from

`foldWithOffsets` and `toSourceSpan` of the moderation of messages. A text is a list of UTF-16
units; it is read code point by code point, every code point is folded on its own, and of what the
folding gives the letters and digits are kept and each run of other characters is one space. Beside
every unit of the result stand the start and the end, in the text, of the code point that it came
from.

The folding of one code point (decomposition, removal of marks, lower case) and the test for
letters and digits are parameters (`Folding`): any function will do for the first, and of the second
it matters only that a space is neither.
-/

namespace Rabotka.Moderation

open Squeeze

/-- A text, in UTF-16 units. -/
abbrev Units := List UInt16

def space : UInt16 := 32

def isHigh (unit : UInt16) : Bool := 0xD800 ≤ unit && unit ≤ 0xDBFF

def isLow (unit : UInt16) : Bool := 0xDC00 ≤ unit && unit ≤ 0xDFFF

/-- The code points of a text. A surrogate without its partner stands for itself. -/
def codePoints : Units → List Units
  | [] => []
  | [unit] => [[unit]]
  | unit :: next :: rest =>
    if isHigh unit && isLow next then [unit, next] :: codePoints rest
    else [unit] :: codePoints (next :: rest)

/-- What is done to one code point: `fold` decomposes it, removes its marks and makes it lower case,
and `alphanumeric` tells letters and digits, `/[\p{L}\p{N}]/u`. -/
structure Folding where
  fold : Units → Units
  alphanumeric : Units → Bool
  space_not_alphanumeric : alphanumeric [space] = false

/-- `FoldedText`: the text, and for every unit the start and the end of the code point it came
from. -/
structure FoldedText where
  text : Units
  start : List ℕ
  «end» : List ℕ
  deriving DecidableEq

/-- `Span`: half-open. -/
structure Span where
  start : ℕ
  «end» : ℕ
  deriving DecidableEq

/-- The variables of the loop of `foldWithOffsets`. -/
structure FoldState where
  out : List Units := []
  starts : List ℕ := []
  ends : List ℕ := []
  pendingSpace : Bool := false

namespace Folding

variable (f : Folding)

/-- One character of a folded code point, which stands at `i` and ends at `sourceEnd`. -/
def pushChar (i sourceEnd : ℕ) (st : FoldState) (char : Units) : FoldState :=
  if f.alphanumeric char then
    -- one entry for each unit of the character
    { out := st.out ++ [char]
      starts := st.starts ++ List.replicate char.length i
      ends := st.ends ++ List.replicate char.length sourceEnd
      pendingSpace := false }
  else if !st.pendingSpace && decide (0 < st.out.length) then
    { out := st.out ++ [[space]]
      starts := st.starts ++ [i]
      ends := st.ends ++ [sourceEnd]
      pendingSpace := true }
  else st

/-- The loop over the code points, from the one at `i` on. -/
def foldFrom : (i : ℕ) → FoldState → List Units → FoldState
  | _, st, [] => st
  | i, st, source :: sources =>
    let sourceEnd := i + source.length
    foldFrom sourceEnd ((codePoints (f.fold source)).foldl (f.pushChar i sourceEnd) st) sources

/-- The loop that takes away a trailing separator, for at most so many rounds. -/
def popSeparators : ℕ → FoldState → FoldState
  | 0, st => st
  | rounds + 1, st =>
    if st.out.getLast? = some [space] then
      popSeparators rounds
        { st with out := st.out.dropLast, starts := st.starts.dropLast, ends := st.ends.dropLast }
    else st

def foldWithOffsets (input : Units) : FoldedText :=
  let st := f.foldFrom 0 {} (codePoints input)
  let st := popSeparators st.out.length st
  { text := st.out.flatten, start := st.starts, «end» := st.ends }

end Folding

/-- `toSourceSpan`: a span of the folded text, back in the source. -/
def toSourceSpan (folded : FoldedText) (span : Span) : Except String Span :=
  if folded.text.length < span.end ∨ span.end ≤ span.start then
    throw ("Span [" ++ toString span.start ++ ", " ++ toString span.end ++
      ") is not inside a folded text of length " ++ toString folded.text.length)
  else pure ⟨folded.start.getD span.start 0, folded.end.getD (span.end - 1) 0⟩

/-! ### Code points -/

@[simp]
theorem flatten_codePoints (input : Units) : (codePoints input).flatten = input := by
  induction input using codePoints.induct with
  | case1 | case2 => rfl
  | case3 unit next rest hpair ih => rw [codePoints, if_pos hpair, List.flatten_cons, ih]; rfl
  | case4 unit next rest hpair ih => rw [codePoints, if_neg hpair, List.flatten_cons, ih]; rfl

/-- A code point is one unit, or a pair of surrogates. -/
theorem codePoint_cases {input point : Units} (h : point ∈ codePoints input) :
    (∃ unit, point = [unit]) ∨
      ∃ unit next, point = [unit, next] ∧ isHigh unit = true ∧ isLow next = true := by
  induction input using codePoints.induct with
  | case1 => cases h
  | case2 unit => exact .inl ⟨unit, List.mem_singleton.1 h⟩
  | case3 unit next rest hpair ih =>
    rw [codePoints, if_pos hpair] at h
    rcases List.mem_cons.1 h with rfl | h
    · exact .inr ⟨unit, next, rfl, by simpa using hpair⟩
    · exact ih h
  | case4 unit next rest hpair ih =>
    rw [codePoints, if_neg hpair] at h
    rcases List.mem_cons.1 h with rfl | h
    · exact .inl ⟨unit, rfl⟩
    · exact ih h

theorem codePoint_ne_nil {input point : Units} (h : point ∈ codePoints input) : point ≠ [] := by
  rcases codePoint_cases h with ⟨unit, rfl⟩ | ⟨unit, next, rfl, -⟩ <;> exact List.cons_ne_nil _ _

/-- The code points of a text that ends, or begins, between two code points of another. -/
theorem codePoints_of_append {input : Units} {a b : List Units} (h : codePoints input = a ++ b) :
    codePoints a.flatten = a ∧ codePoints b.flatten = b := by
  induction input using codePoints.induct generalizing a with
  | case1 =>
    obtain ⟨rfl, rfl⟩ := List.nil_eq_append_iff.1 h
    exact ⟨rfl, rfl⟩
  | case2 unit =>
    rcases List.cons_eq_append_iff.1 h with ⟨rfl, rfl⟩ | ⟨a, rfl, hrest⟩
    · exact ⟨rfl, rfl⟩
    · obtain ⟨rfl, rfl⟩ := List.nil_eq_append_iff.1 hrest
      exact ⟨rfl, rfl⟩
  | case3 unit next rest hpair ih =>
    rw [codePoints, if_pos hpair] at h
    rcases List.cons_eq_append_iff.1 h with ⟨rfl, rfl⟩ | ⟨a, rfl, hrest⟩
    · refine ⟨rfl, ?_⟩
      rw [List.flatten_cons, flatten_codePoints]
      exact if_pos hpair
    · obtain ⟨ha, hb⟩ := ih hrest
      refine ⟨?_, hb⟩
      rw [List.flatten_cons]
      change (if isHigh unit && isLow next then [unit, next] :: codePoints a.flatten else _) = _
      rw [if_pos hpair, ha]
  | case4 unit next rest hpair ih =>
    rw [codePoints, if_neg hpair] at h
    rcases List.cons_eq_append_iff.1 h with ⟨rfl, rfl⟩ | ⟨a, rfl, hrest⟩
    · refine ⟨rfl, ?_⟩
      rw [List.flatten_cons, flatten_codePoints]
      exact if_neg hpair
    · obtain ⟨ha, hb⟩ := ih hrest
      refine ⟨?_, hb⟩
      -- what follows the first unit is the beginning of what followed it before
      cases hflat : a.flatten with
      | nil =>
        rw [hflat] at ha
        rw [← ha, List.flatten_cons]
        rfl
      | cons next' rest' =>
        have hnext : next' = next := by
          have hwhole := congrArg List.flatten hrest
          rw [flatten_codePoints, List.flatten_append, hflat] at hwhole
          exact (List.cons_eq_cons.1 hwhole).1.symm
        rw [List.flatten_cons, hflat, hnext]
        change (if isHigh unit && isLow next then _ else [unit] :: codePoints (next :: rest')) = _
        rw [if_neg hpair, ← hnext, ← hflat, ha]

theorem codePoints_middle {input : Units} {a b c : List Units}
    (h : codePoints input = a ++ b ++ c) : codePoints b.flatten = b :=
  (codePoints_of_append ((codePoints_of_append h).1)).2

/-! ### What is read -/

/-- A character of a folded code point, with the start and the end of the code point. -/
structure Folded where
  char : Units
  start : ℕ
  stop : ℕ

namespace Folding

variable (f : Folding)

def accepts (c : Folded) : Bool := f.alphanumeric c.char

/-- What stands for a character in the text. -/
def shown (c : Folded) : Units := if f.accepts c then c.char else [space]

/-- The characters of the folded code points, from the position `i` on. -/
def characters : (i : ℕ) → List Units → List Folded
  | _, [] => []
  | i, source :: sources =>
    (codePoints (f.fold source)).map (fun char => ⟨char, i, i + source.length⟩) ++
      characters (i + source.length) sources

/-- The state of the loop that holds these characters. -/
def holding (kept : List Folded) (pendingSpace : Bool) : FoldState where
  out := kept.map f.shown
  starts := kept.flatMap fun c => List.replicate (f.shown c).length c.start
  ends := kept.flatMap fun c => List.replicate (f.shown c).length c.stop
  pendingSpace := pendingSpace

variable {f} {read : List Folded} {st : FoldState}

/-- The state of the loop after these characters. -/
def Reads (f : Folding) (read : List Folded) (st : FoldState) : Prop :=
  st = f.holding (scan f.accepts true read) st.pendingSpace ∧
    (st.pendingSpace || st.out.isEmpty) = after f.accepts true read

theorem Reads.push (h : f.Reads read st) (c : Folded) :
    f.Reads (read ++ [c]) (f.pushChar c.start c.stop st c.char) := by
  obtain ⟨hst, hgap⟩ := h
  have hout : st.out = (scan f.accepts true read).map f.shown := congrArg FoldState.out hst
  have hstarts : st.starts = _ := congrArg FoldState.starts hst
  have hends : st.ends = _ := congrArg FoldState.ends hst
  simp only [holding] at hstarts hends
  unfold Reads
  rw [scan_append, after_append, ← hgap]
  cases hc : f.accepts c
  · have hpush : ¬f.alphanumeric c.char = true := by rw [← accepts, hc]; exact Bool.false_ne_true
    cases hpending : st.pendingSpace || st.out.isEmpty
    · -- the first separator after a word
      have hroom : (!st.pendingSpace && decide (0 < st.out.length)) = true := by
        cases hsp : st.pendingSpace
        · rw [hsp, Bool.false_or] at hpending
          cases ho : st.out with
          | nil => rw [ho] at hpending; cases hpending
          | cons _ _ => simp
        · rw [hsp] at hpending; cases hpending
      rw [pushChar, if_neg hpush, if_pos hroom]
      simp [holding, scan, after, hc, shown, hout, hstarts, hends]
    · have hroom : ¬(!st.pendingSpace && decide (0 < st.out.length)) = true := by
        cases hsp : st.pendingSpace
        · rw [hsp, Bool.false_or, List.isEmpty_iff] at hpending
          simp [hpending]
        · simp
      rw [pushChar, if_neg hpush, if_neg hroom, hpending]
      refine ⟨?_, ?_⟩
      · simpa [scan, hc] using hst
      · simp [after, hc]
  · have hpush : f.alphanumeric c.char = true := hc
    rw [pushChar, if_pos hpush]
    simp [holding, scan, after, hc, shown, hout, hstarts, hends]

theorem Reads.foldl (h : f.Reads read st) (i sourceEnd : ℕ) (chars : List Units) :
    f.Reads (read ++ chars.map fun char => ⟨char, i, sourceEnd⟩)
      (chars.foldl (f.pushChar i sourceEnd) st) := by
  induction chars generalizing read st with
  | nil => simpa using h
  | cons char chars ih =>
    have hpush := ih (h.push ⟨char, i, sourceEnd⟩)
    rwa [List.append_assoc] at hpush

theorem Reads.foldFrom (h : f.Reads read st) (i : ℕ) (sources : List Units) :
    f.Reads (read ++ f.characters i sources) (f.foldFrom i st sources) := by
  induction sources generalizing read st i with
  | nil => simpa [characters, Folding.foldFrom] using h
  | cons source sources ih =>
    have hrest := ih (h.foldl i (i + source.length) (codePoints (f.fold source)))
      (i + source.length)
    rwa [List.append_assoc] at hrest

/-- The last loop takes away the separators at the end. -/
theorem popSeparators_holding (kept : List Folded) (pendingSpace : Bool) {rounds : ℕ}
    (h : kept.length ≤ rounds) :
    popSeparators rounds (f.holding kept pendingSpace) =
      f.holding (kept.rdropWhile fun c => !f.accepts c) pendingSpace := by
  induction rounds generalizing kept with
  | zero =>
    obtain rfl := List.eq_nil_of_length_eq_zero (Nat.le_zero.1 h)
    rfl
  | succ rounds ih =>
    cases kept using List.reverseRecOn with
    | nil => rfl
    | append_singleton kept c =>
      rw [List.length_append, List.length_singleton, Nat.add_le_add_iff_right] at h
      cases hc : f.accepts c
      · have hlast : (f.holding (kept ++ [c]) pendingSpace).out.getLast? = some [space] := by
          simp [holding, shown, hc]
        rw [popSeparators, if_pos hlast, List.rdropWhile_concat_pos _ _ _ (by simp [hc]),
          ← ih kept h]
        simp [holding, shown, hc]
      · have hlast : ¬(f.holding (kept ++ [c]) pendingSpace).out.getLast? = some [space] := by
          have hchar : f.alphanumeric c.char = true := hc
          simp only [holding, shown, hc, List.map_append, List.map_cons, List.map_nil,
            List.getLast?_concat, if_true, Option.some_inj]
          rintro hspace
          rw [hspace, f.space_not_alphanumeric] at hchar
          cases hchar
        rw [popSeparators, if_neg hlast, List.rdropWhile_concat_neg _ _ _ (by simp [hc])]

/-- What a text folds to, with where it came from. -/
def kept (f : Folding) (input : Units) : List Folded :=
  squeeze f.accepts (f.characters 0 (codePoints input))

/-- **What the loops compute.** -/
theorem foldWithOffsets_eq (input : Units) : f.foldWithOffsets input =
      { text := (f.kept input).flatMap f.shown
        start := (f.kept input).flatMap fun c => List.replicate (f.shown c).length c.start
        «end» := (f.kept input).flatMap fun c => List.replicate (f.shown c).length c.stop } := by
  have hinit : f.Reads [] {} := ⟨rfl, rfl⟩
  obtain ⟨hst, -⟩ := hinit.foldFrom 0 (codePoints input)
  rw [List.nil_append] at hst
  have hlength : (scan f.accepts true (f.characters 0 (codePoints input))).length ≤
      (f.foldFrom 0 {} (codePoints input)).out.length := by
    rw [hst]
    exact (List.length_map _).ge
  have hpop := popSeparators_holding (f := f) _
    (f.foldFrom 0 {} (codePoints input)).pendingSpace hlength
  rw [← hst] at hpop
  simp only [foldWithOffsets, hpop]
  rfl

end Folding

end Rabotka.Moderation
