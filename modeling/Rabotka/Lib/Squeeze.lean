import Mathlib.Data.List.Chain
import Mathlib.Data.List.DropRight

/-!
# Squeezing runs of separators

A list is read from left to right; the elements that a predicate accepts are kept, and of each run
of others, the separators, only the first, and none at either end. `scan` is the reading before the
end of the list is known, in one of two states, after a word or in a gap; `squeeze` takes away the
separator that may be left at the end.

What remains is the words of the list with one separator between two of them (`flatMap_squeeze`),
and the words of a part of the list are a part of the words of the list (`squeeze_append`).
-/

namespace Squeeze

open List

variable {α β : Type*} (p : α → Bool)

/-- The elements that are kept while reading, in a gap or after a word. -/
def scan : (gap : Bool) → List α → List α
  | _, [] => []
  | gap, x :: l =>
    if p x then x :: scan false l
    else if gap then scan true l
    else x :: scan true l

/-- The state after reading. -/
def after (gap : Bool) (l : List α) : Bool := l.foldl (fun _ x => !p x) gap

/-- What is kept: a separator only if an element that is accepted still follows. -/
def keep : (gap : Bool) → List α → List α
  | _, [] => []
  | gap, x :: l =>
    if p x then x :: keep false l
    else if gap then keep true l
    else if l.any p then x :: keep true l
    else []

/-- The list with its runs of separators squeezed. -/
def squeeze (l : List α) : List α := (scan p true l).rdropWhile (fun x => !p x)

/-- The maximal runs of accepted elements. -/
def words (l : List α) : List (List α) := (l.splitOnP (fun x => !p x)).filter (fun w => !w.isEmpty)

variable {p} {x : α} {l a b c : List α} {gap : Bool}

/-! ### Reading -/

theorem scan_append (gap : Bool) (a b : List α) :
    scan p gap (a ++ b) = scan p gap a ++ scan p (after p gap a) b := by
  induction a generalizing gap with
  | nil => rfl
  | cons x a ih =>
    simp only [cons_append, scan, after, foldl_cons]
    cases hx : p x
    · cases gap
      · simp [ih, after]
      · simp [ih, after]
    · simp [ih, after]

theorem after_append (gap : Bool) (a b : List α) :
    after p gap (a ++ b) = after p (after p gap a) b :=
  foldl_append

theorem rdropWhile_cons (q : α → Bool) (x : α) (l : List α) : (x :: l).rdropWhile q =
      if l.rdropWhile q = [] ∧ q x = true then [] else x :: l.rdropWhile q := by
  induction l using reverseRecOn with
  | nil => simp [rdropWhile_singleton]
  | append_singleton l y ih =>
    rw [← cons_append]
    cases hy : q y
    · rw [rdropWhile_concat_neg _ _ _ (by simp [hy]), rdropWhile_concat_neg _ _ _ (by simp [hy])]
      simp
    · rw [rdropWhile_concat_pos _ _ _ hy, rdropWhile_concat_pos _ _ _ hy, ih]

theorem keep_eq_nil (h : l.any p = false) (gap : Bool) : keep p gap l = [] := by
  induction l generalizing gap with
  | nil => rfl
  | cons x l ih =>
    rw [any_cons, Bool.or_eq_false_iff] at h
    rw [keep, h.1, if_neg Bool.false_ne_true, ih h.2, h.2]
    cases gap <;> rfl

theorem keep_ne_nil (h : l.any p = true) (gap : Bool) : keep p gap l ≠ [] := by
  induction l generalizing gap with
  | nil => cases h
  | cons x l ih =>
    rw [keep]
    split
    · exact cons_ne_nil _ _
    · rename_i hx
      have hl : l.any p = true := by simpa [hx] using h
      split
      · exact ih hl true
      · exact cons_ne_nil _ _

theorem scan_rdropWhile (gap : Bool) (l : List α) :
    (scan p gap l).rdropWhile (fun x => !p x) = keep p gap l := by
  induction l generalizing gap with
  | nil => rfl
  | cons x l ih =>
    rw [scan, keep]
    cases hx : p x
    · cases gap
      · rw [if_neg Bool.false_ne_true, if_neg Bool.false_ne_true, if_neg Bool.false_ne_true,
          if_neg Bool.false_ne_true, rdropWhile_cons, ih, hx]
        cases hl : l.any p
        · simp [keep_eq_nil hl]
        · simp [keep_ne_nil hl]
      · exact ih true
    · rw [if_pos rfl, if_pos rfl, rdropWhile_cons, ih, hx]
      simp

theorem squeeze_eq (l : List α) : squeeze p l = keep p true l := scan_rdropWhile true l

/-! ### What is kept -/

theorem keep_sublist (gap : Bool) (l : List α) : (keep p gap l).Sublist l := by
  induction l generalizing gap with
  | nil => exact List.Sublist.refl _
  | cons x l ih =>
    rw [keep]
    split
    · exact (ih false).cons_cons x
    · split
      · exact (ih true).cons x
      · split
        · exact (ih true).cons_cons x
        · exact nil_sublist _

theorem squeeze_sublist (l : List α) : (squeeze p l).Sublist l :=
  squeeze_eq (p := p) l ▸ keep_sublist true l

/-- After a gap the first element that is kept is accepted. -/
theorem head?_keep (hx : x ∈ (keep p true l).head?) : p x = true := by
  induction l with
  | nil => cases hx
  | cons y l ih =>
    rw [keep] at hx
    split at hx
    · rename_i hy
      rw [head?_cons, Option.mem_some] at hx
      exact hx ▸ hy
    · exact ih hx

/-- The last element that is kept is accepted. -/
theorem getLast?_keep (hx : x ∈ (keep p gap l).getLast?) : p x = true := by
  induction l generalizing gap with
  | nil => cases hx
  | cons y l ih =>
    have hlast : ∀ gap, x ∈ (y :: keep p gap l).getLast? →
        x = y ∧ keep p gap l = [] ∨ x ∈ (keep p gap l).getLast? := by
      intro gap hx
      cases hk : keep p gap l with
      | nil => exact .inl ⟨by simpa [hk, eq_comm] using hx, rfl⟩
      | cons z k => exact .inr (by simpa [hk] using hx)
    rw [keep] at hx
    split at hx
    · rename_i hy
      rcases hlast _ hx with ⟨rfl, -⟩ | hx
      · exact hy
      · exact ih hx
    · split at hx
      · exact ih hx
      · split at hx
        · rename_i hl
          rcases hlast _ hx with ⟨-, hnil⟩ | hx
          · exact absurd hnil (keep_ne_nil hl true)
          · exact ih hx
        · cases hx

/-- No two separators are kept in a row. -/
theorem isChain_keep (gap : Bool) (l : List α) :
    (keep p gap l).IsChain fun x y => p x = true ∨ p y = true := by
  induction l generalizing gap with
  | nil => exact List.IsChain.nil
  | cons x l ih =>
    rw [keep]
    split
    · rename_i hx
      exact isChain_cons.2 ⟨fun y _ => .inl hx, ih false⟩
    · split
      · exact ih true
      · split
        · exact isChain_cons.2 ⟨fun y hy => .inr (head?_keep hy), ih true⟩
        · exact List.IsChain.nil

theorem keep_map {γ : Type*} (g : γ → α) (gap : Bool) (l : List γ) :
    keep p gap (l.map g) = (keep (fun y => p (g y)) gap l).map g := by
  induction l generalizing gap with
  | nil => rfl
  | cons y l ih =>
    have hany : (l.map g).any p = l.any fun y => p (g y) := any_map
    simp only [map_cons, keep, ih, hany]
    split
    · rfl
    · split
      · rfl
      · split <;> rfl

/-! ### Words -/

theorem exists_splitOnP (q : α → Bool) (l : List α) : ∃ w ws, l.splitOnP q = w :: ws :=
  exists_cons_of_ne_nil (splitOnP_ne_nil q l)

theorem splitOnP_of_accepted (hx : p x = true) {w : List α} {ws : List (List α)}
    (hsplit : l.splitOnP (fun x => !p x) = w :: ws) :
    (x :: l).splitOnP (fun x => !p x) = (x :: w) :: ws := by
  rw [splitOnP_cons_eq_if_modifyHead, hx, hsplit]
  rfl

theorem splitOnP_of_separator (hx : p x = false) :
    (x :: l).splitOnP (fun x => !p x) = [] :: l.splitOnP (fun x => !p x) := by
  rw [splitOnP_cons_eq_if_modifyHead, hx]
  rfl

theorem words_of_separator (hx : p x = false) : words p (x :: l) = words p l := by
  rw [words, splitOnP_of_separator hx]
  rfl

theorem words_eq_nil : words p l = [] ↔ l.any p = false := by
  induction l with
  | nil => exact iff_of_true rfl rfl
  | cons x l ih =>
    cases hx : p x
    · rw [words_of_separator hx, ih, any_cons, hx, Bool.false_or]
    · obtain ⟨w, ws, hsplit⟩ := exists_splitOnP (fun x => !p x) l
      rw [words, splitOnP_of_accepted hx hsplit]
      simp [hx]

theorem intercalate_append_cons (sep a w : List β) (ws : List (List β)) :
    sep.intercalate ((a ++ w) :: ws) = a ++ sep.intercalate (w :: ws) := by
  cases ws with
  | nil => rw [intercalate_singleton, intercalate_singleton]
  | cons v ws => rw [intercalate_cons_cons, intercalate_cons_cons]; simp

/-- **What is squeezed are the words with one separator between two of them.** Every accepted
element stands for a list `f x`, and every separator for `sep`. -/
theorem flatMap_squeeze (f : α → List β) (sep : List β) (l : List α) :
    (squeeze p l).flatMap (fun x => if p x then f x else sep) =
      sep.intercalate ((words p l).map (flatMap f)) := by
  rw [squeeze_eq]
  -- read after a word, the rest of the word comes first
  suffices hboth : (keep p true l).flatMap (fun x => if p x then f x else sep) =
        sep.intercalate ((words p l).map (flatMap f)) ∧
      ∀ w ws, l.splitOnP (fun x => !p x) = w :: ws →
        (keep p false l).flatMap (fun x => if p x then f x else sep) =
          sep.intercalate ((w :: ws.filter (fun w => !w.isEmpty)).map (flatMap f)) from
    hboth.1
  induction l with
  | nil =>
    refine ⟨rfl, fun w ws hsplit => ?_⟩
    obtain ⟨rfl, rfl⟩ : [] = w ∧ [] = ws := by simpa using hsplit
    rfl
  | cons x l ih =>
    obtain ⟨w, ws, hsplit⟩ := exists_splitOnP (fun x => !p x) l
    cases hx : p x
    · refine ⟨?_, fun v vs hsplit' => ?_⟩
      · rw [keep, hx, words_of_separator hx]
        exact ih.1
      · rw [splitOnP_of_separator hx] at hsplit'
        obtain ⟨rfl, rfl⟩ := cons_eq_cons.1 hsplit'
        change _ = sep.intercalate (flatMap f [] :: (words p l).map (flatMap f))
        rw [keep, hx, if_neg Bool.false_ne_true, if_neg Bool.false_ne_true]
        cases hl : l.any p
        · rw [words_eq_nil.2 hl]
          rfl
        · have hne : (words p l).map (flatMap f) ≠ [] := fun hnil => by
            rw [map_eq_nil_iff, words_eq_nil, hl] at hnil
            cases hnil
          rw [if_pos rfl, flatMap_cons, hx, ih.1, intercalate_cons_of_ne_nil hne]
          rfl
    · have hrest := ih.2 w ws hsplit
      have hword : (x :: keep p false l).flatMap (fun x => if p x then f x else sep) =
          sep.intercalate (((x :: w) :: ws.filter (fun w => !w.isEmpty)).map (flatMap f)) := by
        rw [flatMap_cons, hrest, hx, if_pos rfl, map_cons, map_cons,
          flatMap_cons, intercalate_append_cons]
      refine ⟨?_, fun v vs hsplit' => ?_⟩
      · rw [keep, hx, if_pos rfl, hword, words, splitOnP_of_accepted hx hsplit]
        rfl
      · rw [splitOnP_of_accepted hx hsplit] at hsplit'
        obtain ⟨rfl, rfl⟩ := cons_eq_cons.1 hsplit'
        rw [keep, hx, if_pos rfl, hword]

/-! ### Parts -/

/-- Reading a part first leaves what is kept of it, and after it nothing that is accepted but from
the rest. -/
theorem keep_append (gap : Bool) (b c : List α) :
    ∃ d, keep p gap (b ++ c) = keep p gap b ++ d ∧ ∀ x ∈ d, p x = true → x ∈ c := by
  induction b generalizing gap with
  | nil => exact ⟨keep p gap c, rfl, fun x hx _ => (keep_sublist gap c).subset hx⟩
  | cons x b ih =>
    rw [cons_append, keep, keep]
    split
    · obtain ⟨d, hd, hmem⟩ := ih false
      exact ⟨d, by rw [hd, cons_append], hmem⟩
    · rename_i hx
      split
      · exact ih true
      · rw [any_append]
        cases hb : b.any p
        · cases hc : c.any p
          · exact ⟨[], by simp, fun x hx => absurd hx (not_mem_nil)⟩
          · refine ⟨x :: keep p true (b ++ c), by simp, fun y hy hpy => ?_⟩
            -- no accepted element is left in the part
            rcases mem_cons.1 hy with rfl | hy
            · exact absurd hpy hx
            · rcases mem_append.1 ((keep_sublist true _).subset hy) with hy | hy
              · have hany := any_eq_true.2 ⟨y, hy, hpy⟩
                rw [hb] at hany
                cases hany
              · exact hy
        · obtain ⟨d, hd, hmem⟩ := ih true
          exact ⟨d, by simp [hd], hmem⟩

/-- What comes before a part leaves what is kept of it when it is read on its own. -/
theorem append_keep (gap : Bool) (a l : List α) :
    ∃ d, keep p gap (a ++ l) = d ++ keep p true l ∧ ∀ x ∈ d, p x = true → x ∈ a := by
  induction a generalizing gap with
  | nil =>
    cases gap
    · cases l with
      | nil => exact ⟨[], rfl, fun x hx => absurd hx (not_mem_nil)⟩
      | cons x l =>
        rw [nil_append, keep, keep]
        split
        · exact ⟨[], rfl, fun x hx => absurd hx (not_mem_nil)⟩
        · rename_i hx
          rw [if_neg Bool.false_ne_true, if_pos rfl]
          cases hl : l.any p
          · exact ⟨[], by simp [keep_eq_nil hl], fun x hx => absurd hx (not_mem_nil)⟩
          · refine ⟨[x], by simp, fun y hy hpy => ?_⟩
            rw [mem_singleton] at hy
            exact absurd (hy ▸ hpy) hx
    · exact ⟨[], rfl, fun x hx => absurd hx (not_mem_nil)⟩
  | cons x a ih =>
    rw [cons_append, keep]
    split
    · obtain ⟨d, hd, hmem⟩ := ih false
      refine ⟨x :: d, by rw [hd, cons_append], fun y hy hpy => ?_⟩
      rcases mem_cons.1 hy with rfl | hy
      · exact mem_cons_self
      · exact mem_cons_of_mem _ (hmem y hy hpy)
    · rename_i hx
      obtain ⟨d, hd, hmem⟩ := ih true
      have hmem' : ∀ y ∈ d, p y = true → y ∈ x :: a :=
        fun y hy hpy => mem_cons_of_mem _ (hmem y hy hpy)
      split
      · exact ⟨d, hd, hmem'⟩
      · cases hl : (a ++ l).any p
        · rw [any_append, Bool.or_eq_false_iff] at hl
          exact ⟨[], by simp [keep_eq_nil hl.2], fun x hx => absurd hx (not_mem_nil)⟩
        · refine ⟨x :: d, by simp [hd], fun y hy hpy => ?_⟩
          rcases mem_cons.1 hy with rfl | hy
          · exact absurd hpy hx
          · exact hmem' y hy hpy

/-- **The words of a part are a part of the words.** What stands before and after them comes from
outside, separators apart. -/
theorem squeeze_append (a b c : List α) : ∃ d e, squeeze p (a ++ b ++ c) = d ++ squeeze p b ++ e ∧
      (∀ x ∈ d, p x = true → x ∈ a) ∧ ∀ x ∈ e, p x = true → x ∈ c := by
  obtain ⟨d, hd, hbefore⟩ := append_keep (p := p) true a (b ++ c)
  obtain ⟨e, he, hafter⟩ := keep_append (p := p) true b c
  exact ⟨d, e, by rw [squeeze_eq, squeeze_eq, append_assoc, hd, he, append_assoc], hbefore, hafter⟩

/-- A part that begins after what stands before another and ends before what stands after it is a
part of the other. -/
theorem infix_of_append {d m e x v y : List α} (h : d ++ m ++ e = x ++ v ++ y) (hne : v ≠ [])
    (hfirst : v.head hne ∉ d) (hlast : v.getLast hne ∉ e) : v <:+: m := by
  rw [append_assoc, append_assoc] at h
  obtain ⟨x', hrest⟩ : ∃ x', m ++ e = x' ++ (v ++ y) := by
    rcases append_eq_append_iff.1 h with ⟨x', -, hrest⟩ | ⟨d', rfl, hrest⟩
    · exact ⟨x', hrest⟩
    · cases d' with
      | nil => exact ⟨[], hrest.symm⟩
      | cons z d' =>
        obtain ⟨w, v, rfl⟩ := exists_cons_of_ne_nil hne
        obtain ⟨rfl, -⟩ := cons_eq_cons.1 hrest
        exact absurd (mem_append_right x mem_cons_self) hfirst
  rw [← append_assoc] at hrest
  rcases append_eq_append_iff.1 hrest with ⟨v', hv, rfl⟩ | ⟨y', rfl, -⟩
  · rcases eq_or_ne v' [] with rfl | hne'
    · exact ⟨x', [], by rw [append_nil, hv, append_nil]⟩
    · have hend : v.getLast hne = v'.getLast hne' := by
        rw [← getLast_append_of_ne_nil (l := x') (by simp [hne]) hne,
          ← getLast_append_of_ne_nil (l := m) (by simp [hne']) hne']
        simp only [hv]
      exact absurd (mem_append_left y (hend ▸ getLast_mem hne')) hlast
  · exact ⟨x', y', rfl⟩

end Squeeze
