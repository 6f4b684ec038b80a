import Rabotka.Lib.Text
import Mathlib.Algebra.Order.Ring.Unbundled.Rat

/-!
# Scanning text

The pieces regular expressions are made of, on lists of characters: a run of characters of a
class, a literal, white space, and all the matches of a pattern from the left. A piece answers
what it matched and what is left. Each class used here excludes what may follow it, so that
taking as many characters as there are is what a backtracking matcher ends with as well.

Then the numbers that text stands for, as the conversion `Number` reads them, with exact
fractions in place of doubles.
-/

namespace Scan

open List

variable {α : Type*}

/-! ### Pieces -/

/-- One or more characters of a class, as many as there are. -/
def oneOrMore (p : Char → Bool) (s : List Char) : Option (List Char × List Char) :=
  if s.takeWhile p = [] then none else some (s.takeWhile p, s.dropWhile p)

/-- What is left after a literal. -/
def literal (t s : List Char) : Option (List Char) :=
  if t.isPrefixOf s then some (s.drop t.length) else none

/-- What is left after any white space. -/
def spaces (s : List Char) : List Char := s.dropWhile Text.isSpace

/-- A line break, which `.` does not match. -/
def isLineTerminator (c : Char) : Bool := c.toNat ∈ [10, 13, 8232, 8233]

/-- The matches of a pattern from the left, none overlapping the one before. The number counts
the characters of the last match still to be passed. -/
def matchAll (pattern : List Char → Option (α × List Char)) : ℕ → List Char → List α
  | _, [] => []
  | k + 1, _ :: s => matchAll pattern k s
  | 0, c :: s =>
    match pattern (c :: s) with
    | some (a, rest) => a :: matchAll pattern (s.length - rest.length) s
    | none => matchAll pattern 0 s

theorem mem_of_oneOrMore {p : Char → Bool} {s w rest : List Char}
    (h : oneOrMore p s = some (w, rest)) {c : Char} (hc : c ∈ w) : c ∈ s := by
  unfold oneOrMore at h
  split at h
  · cases h
  · obtain ⟨rfl, -⟩ := Prod.mk.inj (Option.some.inj h)
    exact (List.takeWhile_prefix p).subset hc

theorem mem_of_literal {t s rest : List Char} (h : literal t s = some rest) {c : Char}
    (hc : c ∈ rest) : c ∈ s := by
  unfold literal at h
  split at h
  · rw [← Option.some.inj h] at hc
    exact mem_of_mem_drop hc
  · cases h

/-- A match is a match at some place of the text. -/
theorem exists_of_mem_matchAll {pattern : List Char → Option (α × List Char)} {a : α} {k : ℕ}
    {s : List Char} (h : a ∈ matchAll pattern k s) :
    ∃ t rest, t <:+ s ∧ pattern t = some (a, rest) := by
  induction s generalizing k with
  | nil => cases k <;> simp [matchAll] at h
  | cons c s ih =>
    have hlater : ∀ k, a ∈ matchAll pattern k s →
        ∃ t rest, t <:+ c :: s ∧ pattern t = some (a, rest) := by
      intro k hk
      obtain ⟨t, rest, ht, hp⟩ := ih hk
      exact ⟨t, rest, ht.trans (suffix_cons c s), hp⟩
    cases k with
    | succ k => exact hlater k h
    | zero =>
      rw [matchAll] at h
      split at h
      · rename_i b rest hp
        rcases mem_cons.1 h with rfl | h
        · exact ⟨c :: s, rest, suffix_refl _, hp⟩
        · exact hlater _ h
      · exact hlater 0 h

/-! ### A character more

What a piece does with a text that goes on with a character it does not match: the same, with
that character left over. -/

section Concat

variable {p : Char → Bool} {c : Char}

theorem takeWhile_concat (hc : p c = false) (s : List Char) :
    (s ++ [c]).takeWhile p = s.takeWhile p := by
  induction s with
  | nil => simp [hc]
  | cons a s ih =>
    rw [cons_append, takeWhile_cons, takeWhile_cons, ih]

theorem dropWhile_concat (hc : p c = false) (s : List Char) :
    (s ++ [c]).dropWhile p = s.dropWhile p ++ [c] := by
  induction s with
  | nil => simp [hc]
  | cons a s ih =>
    rw [cons_append, dropWhile_cons, dropWhile_cons, ih]
    split <;> rfl

theorem oneOrMore_concat (hc : p c = false) (s : List Char) :
    oneOrMore p (s ++ [c]) = (oneOrMore p s).map fun x => (x.1, x.2 ++ [c]) := by
  unfold oneOrMore
  rw [takeWhile_concat hc, dropWhile_concat hc]
  split <;> rfl

theorem literal_concat {t : List Char} (hc : c ∉ t) (s : List Char) :
    literal t (s ++ [c]) = (literal t s).map (· ++ [c]) := by
  unfold literal
  by_cases h : t <+: s
  · have hlonger : t <+: s ++ [c] := h.trans (prefix_append s [c])
    rw [if_pos (List.isPrefixOf_iff_prefix.2 hlonger), if_pos (List.isPrefixOf_iff_prefix.2 h),
      drop_append_of_le_length h.length_le]
    rfl
  · have hlonger : ¬ t <+: s ++ [c] := by
      intro hlonger
      rcases prefix_concat_iff.1 hlonger with rfl | h'
      · exact hc (mem_append_right _ (mem_singleton_self c))
      · exact h h'
    rw [if_neg fun h' => hlonger (List.isPrefixOf_iff_prefix.1 h'),
      if_neg fun h' => h (List.isPrefixOf_iff_prefix.1 h')]
    rfl

end Concat

theorem splitOn_cons {a c : Char} (hc : c ≠ a) (s : List Char) :
    ∃ l L, s.splitOn a = l :: L ∧ (c :: s).splitOn a = (c :: l) :: L := by
  obtain ⟨l, L, h⟩ := exists_cons_of_ne_nil (splitOn_ne_nil a s)
  refine ⟨l, L, h, ?_⟩
  rw [splitOn_cons_eq_if_modifyHead, if_neg (by simpa using hc), h]
  rfl

theorem splitOn_concat {a c : Char} (hc : c ≠ a) (s : List Char) :
    ∃ L l, s.splitOn a = L ++ [l] ∧ (s ++ [c]).splitOn a = L ++ [l ++ [c]] := by
  induction s with
  | nil =>
    refine ⟨[], [], splitOn_nil a, ?_⟩
    rw [nil_append, splitOn_eq_singleton (by simpa using hc.symm)]
    rfl
  | cons b s ih =>
    obtain ⟨L, l, hs, hsc⟩ := ih
    rw [cons_append, splitOn_cons_eq_if_modifyHead, splitOn_cons_eq_if_modifyHead, hs, hsc]
    split
    · exact ⟨[] :: L, l, rfl, rfl⟩
    · cases L with
      | nil => exact ⟨[], b :: l, rfl, rfl⟩
      | cons l' L => exact ⟨(b :: l') :: L, l, rfl, rfl⟩

/-- What does not depend on white space before and after a text does not depend on trimming. -/
theorem trim_invariant {f : List Char → α} (hcons : ∀ c s, Text.isSpace c = true → f (c :: s) = f s)
    (hconcat : ∀ c s, Text.isSpace c = true → f (s ++ [c]) = f s) (s : String) :
    f (Text.trim s).toList = f s.toList := by
  have hleft : ∀ s : List Char, f (s.dropWhile Text.isSpace) = f s := by
    intro s
    induction s with
    | nil => rfl
    | cons c s ih =>
      rw [dropWhile_cons]
      split
      · rename_i hc
        rw [ih, hcons c s hc]
      · rfl
  have hright : ∀ s : List Char, f (s.dropWhile Text.isSpace).reverse = f s.reverse := by
    intro s
    induction s with
    | nil => rfl
    | cons c s ih =>
      rw [dropWhile_cons]
      split
      · rename_i hc
        rw [ih, reverse_cons, hconcat c _ hc]
      · rfl
  rw [Text.trim, String.toList_ofList, hright, reverse_reverse, hleft]

/-! ### Numbers in text -/

/-- A number of the language. -/
inductive Number where
  | nan
  | infinite (negative : Bool)
  | finite (value : ℚ)
  deriving DecidableEq

/-- The value of a digit, letters being the digits from ten on. -/
def digit (c : Char) : ℕ :=
  if c.isDigit then c.toNat - '0'.toNat
  else if c.isLower then c.toNat - 'a'.toNat + 10 else c.toNat - 'A'.toNat + 10

def natural (radix : ℕ) (ds : List Char) : ℕ := ds.foldl (fun n c => radix * n + digit c) 0

/-- An unsigned integer in a radix. -/
def ofRadix (radix : ℕ) (ds : List Char) : Number :=
  if ds ≠ [] ∧ ds.all fun c => c.isAlphanum && digit c < radix then .finite (natural radix ds)
  else .nan

/-- An optional sign. -/
def signed : List Char → Bool × List Char
  | '-' :: s => (true, s)
  | '+' :: s => (false, s)
  | s => (false, s)

/-- The exponent after the digits, if there is nothing or a whole exponent there. -/
def exponent : List Char → Option ℤ
  | [] => some 0
  | c :: s =>
    let (negative, ds) := signed s
    if (c = 'e' ∨ c = 'E') ∧ ds ≠ [] ∧ ds.all Char.isDigit then
      some (if negative then -(natural 10 ds : ℤ) else natural 10 ds)
    else none

/-- A decimal, with an optional sign, fraction and exponent. -/
def ofDecimal (s : List Char) : Number :=
  let (negative, s) := signed s
  if s = "Infinity".toList then .infinite negative
  else
    let whole := s.takeWhile Char.isDigit
    let (fraction, s) := match s.dropWhile Char.isDigit with
      | '.' :: s => (s.takeWhile Char.isDigit, s.dropWhile Char.isDigit)
      | s => ([], s)
    match exponent s with
    | none => .nan
    | some e =>
      if whole ++ fraction = [] then .nan
      else
        let size : ℚ := natural 10 (whole ++ fraction) * (10 : ℚ) ^ (e - fraction.length)
        .finite (if negative then -size else size)

/-- `Number(text)`. -/
def Number.ofText (s : List Char) : Number :=
  match (Text.trim (String.ofList s)).toList with
  | [] => .finite 0
  | '0' :: c :: ds =>
    if c = 'x' ∨ c = 'X' then ofRadix 16 ds
    else if c = 'o' ∨ c = 'O' then ofRadix 8 ds
    else if c = 'b' ∨ c = 'B' then ofRadix 2 ds
    else ofDecimal ('0' :: c :: ds)
  | s => ofDecimal s

/-- `a < b`, false where either is not a number. -/
def Number.lt : Number → ℚ → Bool
  | .nan, _ => false
  | .infinite negative, _ => negative
  | .finite a, b => a < b

end Scan
