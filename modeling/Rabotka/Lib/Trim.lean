import Mathlib.Data.List.DropRight

/-!
# Trimming and collapsing

Texts as lists of units, with a predicate for the units that are white space.

* `trimStart`, `trimEnd`, `trim` take white space away at the ends; `trim_eq_self_iff` says which
  texts are their own trim.
* `collapse` replaces every run of white space by one separator; it does nothing twice
  (`collapse_collapse`), and a trimmed text stays trimmed (`Trimmed.collapse`).
* `eraseDups` keeps the first of equal elements; a list without repetitions is left as it is.

`isSpace` is the white space of JavaScript on UTF-16 units, for `trim` and `\s` alike.
-/

namespace Rabotka.Lib.Trim

open List

variable {α : Type*}

/-- White space and line ends, as UTF-16 units. -/
def isSpace (unit : UInt16) : Bool :=
  (9 ≤ unit && unit ≤ 13) || unit == 32 || unit == 160 || unit == 0x1680
    || (0x2000 ≤ unit && unit ≤ 0x200A) || unit == 0x2028 || unit == 0x2029 || unit == 0x202F
    || unit == 0x205F || unit == 0x3000 || unit == 0xFEFF

/-- The units of a text of the basic plane. -/
def units (s : String) : List UInt16 :=
  s.toList.map fun c => c.toNat.toUInt16

variable (p : α → Bool)

/-- `trimStart`. -/
def trimStart (l : List α) : List α :=
  l.dropWhile p

/-- `trimEnd`. -/
def trimEnd (l : List α) : List α :=
  l.rdropWhile p

/-- `trim`. -/
def trim (l : List α) : List α :=
  trimEnd p (trimStart p l)

/-- Neither end is white space. -/
structure Trimmed (l : List α) : Prop where
  head : ∀ x ∈ l.head?, p x = false
  last : ∀ x ∈ l.getLast?, p x = false

variable {p} {l : List α}

/-! ### Trimming -/

theorem head_trimStart : ∀ x ∈ (trimStart p l).head?, p x = false := by
  intro x hx
  have h := head?_dropWhile_not p l
  rw [trimStart] at hx
  rw [Option.mem_def.mp hx] at h
  simpa using h

theorem last_trimEnd : ∀ x ∈ (trimEnd p l).getLast?, p x = false := by
  intro x hx
  have hne : trimEnd p l ≠ [] := fun h => by rw [h] at hx; exact nomatch hx
  rw [getLast?_eq_getLast_of_ne_nil hne] at hx
  obtain rfl := Option.some.inj hx
  exact Bool.eq_false_iff.mpr (rdropWhile_last_not p l hne)

/-- What trimming the end leaves is a beginning, followed by white space. -/
theorem exists_trimEnd (l : List α) :
    ∃ blank, l = trimEnd p l ++ blank ∧ ∀ x ∈ blank, p x = true := by
  refine ⟨l.rtakeWhile p, ?_, fun x hx => mem_rtakeWhile_imp hx⟩
  rw [trimEnd, rdropWhile, List.rtakeWhile, ← reverse_append,
    takeWhile_append_dropWhile, reverse_reverse]

/-- What trimming the start leaves is an end, after white space. -/
theorem exists_trimStart (l : List α) :
    ∃ blank, l = blank ++ trimStart p l ∧ ∀ x ∈ blank, p x = true :=
  ⟨l.takeWhile p, takeWhile_append_dropWhile.symm, fun _ hx => mem_takeWhile_imp hx⟩

theorem trimStart_of_head (h : ∀ x ∈ l.head?, p x = false) : trimStart p l = l := by
  cases l with
  | nil => rfl
  | cons x l => exact dropWhile_cons_of_neg (by simp [h x rfl])

theorem trimEnd_of_last (h : ∀ x ∈ l.getLast?, p x = false) : trimEnd p l = l := by
  rcases eq_nil_or_concat l with rfl | ⟨l, x, rfl⟩
  · rfl
  · have hx : p x = false := h x (by simp)
    rw [concat_eq_append]
    exact rdropWhile_concat_neg p l x (by simp [hx])

/-- Trimming the end does not uncover white space at the start. -/
theorem head_trimEnd (h : ∀ x ∈ l.head?, p x = false) : ∀ x ∈ (trimEnd p l).head?, p x = false := by
  obtain ⟨blank, hl, -⟩ := exists_trimEnd (p := p) l
  intro x hx
  refine h x ?_
  rw [hl, head?_append, Option.mem_def.mp hx]
  rfl

theorem trimmed_trim (l : List α) : Trimmed p (trim p l) :=
  ⟨head_trimEnd head_trimStart, last_trimEnd⟩

/-- The texts that are their own trim. -/
theorem trim_eq_self_iff : trim p l = l ↔ Trimmed p l := by
  constructor
  · intro h
    rw [← h]
    exact trimmed_trim l
  · intro h
    rw [trim, trimStart_of_head h.head, trimEnd_of_last h.last]

/-! ### Collapsing -/

/-- Every run of white space becomes one separator; `gap` says that the run has been replaced. -/
def collapse (p : α → Bool) (sep : α) : (gap : Bool) → List α → List α
  | _, [] => []
  | gap, x :: l =>
    if p x then
      if gap then collapse p sep true l else sep :: collapse p sep true l
    else x :: collapse p sep false l

variable {sep : α}

theorem collapse_collapse (hsep : p sep = true) (gap : Bool) (l : List α) :
    collapse p sep gap (collapse p sep gap l) = collapse p sep gap l := by
  induction l generalizing gap with
  | nil => rfl
  | cons x l ih =>
    rw [collapse]
    split_ifs with hx hgap
    · subst hgap
      exact ih true
    · rw [collapse, if_pos hsep, if_neg hgap, ih true]
    · rw [collapse, if_neg hx, ih false]

/-- A last unit that is not white space stays the last one. -/
theorem getLast?_collapse {gap : Bool} {x : α} (hlast : l.getLast? = some x)
    (hx : p x = false) : (collapse p sep gap l).getLast? = some x := by
  induction l generalizing gap with
  | nil => exact nomatch hlast
  | cons y l ih =>
    cases l with
    | nil =>
      obtain rfl : y = x := by simpa using hlast
      rw [collapse, if_neg (by simp [hx])]
      rfl
    | cons z l =>
      have hrest : (z :: l).getLast? = some x := by rwa [getLast?_cons_cons] at hlast
      rw [collapse]
      split_ifs
      · exact ih hrest
      · rw [getLast?_cons, ih hrest]
        rfl
      · rw [getLast?_cons, ih hrest]
        rfl

/-- A trimmed text stays trimmed. -/
theorem Trimmed.collapse (h : Trimmed p l) : Trimmed p (Trim.collapse p sep false l) := by
  cases l with
  | nil => exact h
  | cons x l =>
    have hx : p x = false := h.head x rfl
    refine ⟨fun y hy => ?_, fun y hy => ?_⟩
    · rw [Trim.collapse, if_neg (by simp [hx])] at hy
      obtain rfl : x = y := by simpa using hy
      exact hx
    · obtain ⟨z, hz⟩ : ∃ z, (x :: l).getLast? = some z := by
        rw [getLast?_cons]
        exact ⟨_, rfl⟩
      have hcollapsed : (Trim.collapse p sep false (x :: l)).getLast? = some z :=
        getLast?_collapse hz (h.last z hz)
      rw [hcollapsed] at hy
      obtain rfl := Option.some.inj hy
      exact h.last _ hz

/-! ### Repetitions -/

/-- A list without repetitions is left as it is. -/
theorem eraseDups_of_nodup [BEq α] [LawfulBEq α] (h : l.Nodup) : l.eraseDups = l := by
  induction l with
  | nil => rfl
  | cons x l ih =>
    rw [nodup_cons] at h
    have hfilter : (l.filter fun y => !y == x) = l :=
      filter_eq_self.mpr fun y hy => by
        have hne : y ≠ x := fun hyx => h.1 (hyx ▸ hy)
        simp [hne]
    rw [eraseDups_cons, hfilter, ih h.2]

theorem nodup_eraseDups [BEq α] [LawfulBEq α] (l : List α) : l.eraseDups.Nodup := by
  induction hn : l.length using Nat.strong_induction_on generalizing l with
  | _ n ih =>
    cases l with
    | nil => exact nodup_nil
    | cons x l =>
      rw [eraseDups_cons, nodup_cons]
      refine ⟨fun hx => ?_, ih _ ?_ _ rfl⟩
      · simpa using mem_eraseDups.mp hx
      · rw [← hn, length_cons]
        exact Nat.lt_succ_of_le (length_filter_le _ l)

/-- Texts of UTF-16 code units are compared lawfully. -/
instance lawfulBEqUnits : LawfulBEq (List UInt16) := inferInstance

end Rabotka.Lib.Trim
