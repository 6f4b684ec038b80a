import Mathlib.Data.List.TakeWhile
import Rabotka.Lib.Replacing

/-!
# Rewriting a text word by word

A word of a text starts with a fixed beginning, the base, and goes on as long as the units are
allowed; `pieces` cuts a text into its words and the units between them, and `renderWith` puts it
together again, with something for every word.

* `renderWith_id_pieces`, `cut_pieces`: the pieces make up the text, and are cut as they should be.
* `Cut.rewriteAll_renderWith`: as words and what is put for them start with the base and are made
  of allowed units, replacing one word after another acts on every word of the text for itself.
* `Cut.renderWith_inj`: what was put for the words can be read off the text.
-/

namespace Rabotka.Lib.Rewriting

open Replacing List

variable {α : Type*} [DecidableEq α] {old new text : List α}

/-! ### Words of a text -/

/-- A piece of a text: a word, or a unit between words. -/
inductive Piece (α : Type*) where
  | other (x : α)
  | word (w : List α)

/-- The matches of the base with the allowed units behind it, and the units between; the first
units may be skipped. -/
def piecesFrom (base : List α) (allowed : α → Bool) : ℕ → List α → List (Piece α)
  | _, [] => []
  | k + 1, _ :: text => piecesFrom base allowed k text
  | 0, x :: text =>
    if base.isPrefixOf (x :: text) then
      let w := base ++ ((x :: text).drop base.length).takeWhile allowed
      .word w :: piecesFrom base allowed (w.length - 1) text
    else .other x :: piecesFrom base allowed 0 text

/-- The pieces of a text. -/
def pieces (base : List α) (allowed : α → Bool) (text : List α) : List (Piece α) :=
  piecesFrom base allowed 0 text

/-- The text of the pieces, with something put for every word. -/
def renderWith (f : List α → List α) : List (Piece α) → List α
  | [] => []
  | .other x :: rest => x :: renderWith f rest
  | .word w :: rest => f w ++ renderWith f rest

/-- The words among the pieces. -/
def words : List (Piece α) → List (List α)
  | [] => []
  | .other _ :: rest => words rest
  | .word w :: rest => w :: words rest

variable {base : List α} {allowed : α → Bool}

/-- A word, or what is put for one: it starts with the base and is made of allowed units. -/
structure IsWord (base : List α) (allowed : α → Bool) (w : List α) : Prop where
  base : base <+: w
  allowed : ∀ x ∈ w, allowed x = true

/-- No more units of a word follow. -/
def Stops (allowed : α → Bool) (rest : List (Piece α)) : Prop :=
  ∀ piece ∈ rest.head?, ∃ x, piece = .other x ∧ allowed x = false

/-- The words are cut as they should be: none starts at a unit between, and each goes on as far as
it can. -/
inductive Cut (base : List α) (allowed : α → Bool) : List (Piece α) → Prop
  | nil : Cut base allowed []
  | other {x rest} : ¬ base <+: x :: renderWith id rest → Cut base allowed rest →
      Cut base allowed (.other x :: rest)
  | word {w rest} : IsWord base allowed w → Stops allowed rest → Cut base allowed rest →
      Cut base allowed (.word w :: rest)

theorem piecesFrom_eq_drop (base : List α) (allowed : α → Bool) (k : ℕ) (text : List α) :
    piecesFrom base allowed k text = pieces base allowed (text.drop k) := by
  induction k generalizing text with
  | zero => rfl
  | succ k ih =>
    cases text with
    | nil => rfl
    | cons x text => exact ih text

/-- Where the base starts, a word is cut. -/
theorem pieces_append (hbase : base ≠ []) (rest : List α) : pieces base allowed (base ++ rest)
      = .word (base ++ rest.takeWhile allowed) :: pieces base allowed (rest.dropWhile allowed) := by
  obtain ⟨x, more, rfl⟩ := exists_cons_of_ne_nil hbase
  have hstarts : (x :: more).isPrefixOf (x :: (more ++ rest)) = true :=
    isPrefixOf_iff_prefix.mpr ⟨rest, rfl⟩
  have hsplit : more ++ rest = (more ++ rest.takeWhile allowed) ++ rest.dropWhile allowed := by
    rw [append_assoc, takeWhile_append_dropWhile]
  have hdrop : (more ++ rest).drop (more ++ rest.takeWhile allowed).length
      = rest.dropWhile allowed := by
    rw [hsplit, drop_left]
  have hbehind : (x :: (more ++ rest)).drop (x :: more).length = rest := drop_left
  rw [cons_append, pieces, piecesFrom, if_pos hstarts]
  dsimp only
  rw [hbehind, piecesFrom_eq_drop, cons_append, length_cons, Nat.add_sub_cancel, hdrop]

/-- Where it does not start, a unit is left. -/
theorem pieces_cons {x : α} (h : ¬ base <+: x :: text) :
    pieces base allowed (x :: text) = .other x :: pieces base allowed text := by
  rw [pieces, piecesFrom, if_neg fun hstarts => h (List.isPrefixOf_iff_prefix.mp hstarts)]
  rfl

/-- The pieces make up the text. -/
theorem renderWith_id_pieces (hbase : base ≠ []) (text : List α) :
    renderWith id (pieces base allowed text) = text := by
  induction text using occurrence_induction hbase with
  | nil => rfl
  | word rest ih =>
    rw [pieces_append hbase, renderWith, ih _ (dropWhile_suffix allowed), id,
      append_assoc, takeWhile_append_dropWhile]
  | other x text hnot ih => rw [pieces_cons hnot, renderWith, ih]

/-- The pieces are cut as they should be. -/
theorem cut_pieces (hbase : base ≠ []) (hallowed : ∀ x ∈ base, allowed x = true) (text : List α) :
    Cut base allowed (pieces base allowed text) := by
  induction text using occurrence_induction hbase with
  | nil => exact Cut.nil
  | word rest ih =>
    rw [pieces_append hbase]
    refine Cut.word ⟨prefix_append _ _, fun x hx => ?_⟩ ?_ (ih _ (dropWhile_suffix allowed))
    · rcases mem_append.mp hx with hx | hx
      · exact hallowed x hx
      · exact mem_takeWhile_imp hx
    · -- What stops the word is no first unit of the base.
      cases hrest : rest.dropWhile allowed with
      | nil => exact fun _ hpiece => nomatch hpiece
      | cons y later =>
        have hstop : allowed y = false := by
          have h := head?_dropWhile_not allowed rest
          rw [hrest] at h
          simpa using h
        have hnot : ¬ base <+: y :: later := by
          intro hstarts
          obtain ⟨x, more, rfl⟩ := exists_cons_of_ne_nil hbase
          obtain ⟨rfl, -⟩ := cons_prefix_cons.mp hstarts
          rw [hallowed x mem_cons_self] at hstop
          exact nomatch hstop
        rw [pieces_cons hnot]
        rintro piece hpiece
        exact ⟨y, (Option.some.inj hpiece).symm, hstop⟩
  | other x text hnot ih =>
    rw [pieces_cons hnot]
    refine Cut.other ?_ ih
    rwa [renderWith_id_pieces hbase]

variable {P : List (Piece α)}

omit [DecidableEq α] in
theorem renderWith_congr {f g : List α → List α}
    (h : ∀ w ∈ words P, f w = g w) : renderWith f P = renderWith g P := by
  induction P with
  | nil => rfl
  | cons piece P ih =>
    cases piece with
    | other x => rw [renderWith, renderWith, ih h]
    | word w =>
      rw [renderWith, renderWith, h w mem_cons_self, ih fun v hv => h v (mem_cons_of_mem w hv)]

/-! ### Rewriting word by word -/

/-- An occurrence does not go on behind what stops a word. -/
theorem replaceAll_append {w rest : List α} (hold : old ≠ [])
    (hallowed : ∀ x ∈ old, allowed x = true) (hstop : ∀ x ∈ rest.head?, allowed x = false) :
    replaceAll old new (w ++ rest) = replaceAll old new w ++ replaceAll old new rest := by
  induction w using occurrence_induction hold with
  | nil => rfl
  | word more ih =>
    rw [append_assoc, replaceAll_append_self hold, replaceAll_append_self hold,
      ih more suffix_rfl, append_assoc]
  | other x w hnot ih =>
    have hboth : ¬ old <+: x :: w ++ rest := by
      intro hstarts
      rcases prefix_or_prefix_of_prefix hstarts (prefix_append _ _) with hin | hout
      · exact hnot hin
      · -- The word would have to go on with what stops it.
        obtain ⟨more, rfl⟩ := hout
        rw [prefix_append_right_inj] at hstarts
        cases more with
        | nil => exact hnot (by rw [append_nil])
        | cons y more =>
          obtain ⟨later, rfl⟩ := hstarts
          have hy : allowed y = true := hallowed y (mem_append_right _ mem_cons_self)
          rw [hstop y rfl] at hy
          exact nomatch hy
    rw [cons_append] at hboth ⊢
    rw [replaceAll_cons hboth, replaceAll_cons hnot, ih, cons_append]

/-- What starts with the base still does, after a replacement of words. -/
theorem take_replaceAll (hold : old ≠ []) (hbase : base <+: old) (hnew : base <+: new) :
    ∀ (n : ℕ) (text : List α), n ≤ base.length → (replaceAll old new text).take n = text.take n
  | 0, _, _ => rfl
  | n + 1, [], _ => rfl
  | n + 1, x :: text, hn => by
    rcases replaceAll_cases old text x with ⟨rest, hrest⟩ | hnot
    · obtain ⟨moreOld, rfl⟩ := hbase
      obtain ⟨moreNew, rfl⟩ := hnew
      rw [hrest, replaceAll_append_self hold, append_assoc, append_assoc,
        take_append_of_le_length hn, take_append_of_le_length hn]
    · rw [replaceAll_cons hnot, take_succ_cons, take_succ_cons,
        take_replaceAll hold hbase hnew n text (by omega)]

theorem mem_replaceAll (hold : old ≠ []) {x : α} (h : x ∈ replaceAll old new text) :
    x ∈ new ∨ x ∈ text := by
  induction text using occurrence_induction hold with
  | nil => exact nomatch h
  | word rest ih =>
    rw [replaceAll_append_self hold] at h
    rcases mem_append.mp h with h | h
    · exact Or.inl h
    · exact (ih rest suffix_rfl h).imp_right (mem_append_right old)
  | other y text hnot ih =>
    rw [replaceAll_cons hnot] at h
    rcases mem_cons.mp h with rfl | h
    · exact Or.inr mem_cons_self
    · exact (ih h).imp_right (mem_cons_of_mem y)

variable {w : List α}

omit [DecidableEq α] in
theorem IsWord.ne_nil (h : IsWord base allowed w) (hbase : base ≠ []) : w ≠ [] := by
  rintro rfl
  exact hbase (prefix_nil.mp h.base)

theorem IsWord.replaceAll (hold : IsWord base allowed old) (hne : old ≠ [])
    (hnew : IsWord base allowed new) (hw : IsWord base allowed w) :
    IsWord base allowed (replaceAll old new w) where
  base := by
    have htake := take_replaceAll hne hold.base hnew.base base.length w le_rfl
    rw [prefix_iff_eq_take.mp hw.base |>.symm] at htake
    exact htake ▸ take_prefix _ _
  allowed x hx := (mem_replaceAll hne hx).elim (hnew.allowed x) (hw.allowed x)

/-- The steps replace words by what may be put for one. -/
def OfWords (base : List α) (allowed : α → Bool) (steps : List (List α × List α)) : Prop :=
  ∀ step ∈ steps, IsWord base allowed step.1 ∧ IsWord base allowed step.2

variable {steps : List (List α × List α)}

theorem IsWord.rewriteAll (hbase : base ≠ [])
    (hsteps : OfWords base allowed steps) (hw : IsWord base allowed w) :
    IsWord base allowed (rewriteAll steps w) := by
  induction steps generalizing w with
  | nil => exact hw
  | cons step steps ih =>
    obtain ⟨hold, hnew⟩ := hsteps step mem_cons_self
    exact ih (fun later hlater => hsteps later (mem_cons_of_mem _ hlater))
      (hold.replaceAll (hold.ne_nil hbase) hnew hw)

theorem IsWord.meant (hsteps : OfWords base allowed steps) (hw : IsWord base allowed w) :
    IsWord base allowed (meant steps w) := by
  rw [Replacing.meant]
  cases h : steps.lookup w with
  | none => exact hw
  | some new =>
    obtain ⟨before, after, rfl, -⟩ := lookup_eq_some_iff.mp h
    exact (hsteps (w, new) (mem_append_right _ mem_cons_self)).2

section Words

variable {f g : List α → List α} {P : List (Piece α)}

omit [DecidableEq α] in
theorem Stops.head_renderWith (h : Stops allowed P) :
    ∀ x ∈ (renderWith f P).head?, allowed x = false := by
  cases P with
  | nil => exact fun _ hx => nomatch hx
  | cons piece P =>
    obtain ⟨y, rfl, hy⟩ := h piece rfl
    rintro x hx
    obtain rfl := Option.some.inj hx
    exact hy

omit [DecidableEq α] in
theorem takeWhile_eq_nil {l : List α} (h : ∀ x ∈ l.head?, allowed x = false) :
    l.takeWhile allowed = [] := by
  cases l with
  | nil => rfl
  | cons x l => rw [takeWhile_cons, h x rfl, if_neg Bool.false_ne_true]

omit [DecidableEq α] in
/-- As far as the base goes, what is put for the words does not matter. -/
theorem Cut.take_renderWith (h : Cut base allowed P)
    (hf : ∀ w ∈ words P, IsWord base allowed (f w)) :
    ∀ n ≤ base.length, (renderWith f P).take n = (renderWith id P).take n := by
  induction h with
  | nil => exact fun _ _ => rfl
  | other _ _ ih =>
    intro n hn
    cases n with
    | zero => rfl
    | succ n =>
      rw [renderWith, renderWith, take_succ_cons, take_succ_cons, ih hf n (by omega)]
  | @word w rest hw _ _ _ =>
    intro n hn
    obtain ⟨more, hmore⟩ := (hf w mem_cons_self).base
    obtain ⟨later, hlater⟩ := hw.base
    rw [renderWith, renderWith, id, ← hmore, ← hlater, append_assoc, append_assoc,
      take_append_of_le_length hn, take_append_of_le_length hn]

/-- Replacing a word everywhere acts on every word of the text for itself. -/
theorem Cut.replaceAll_renderWith (h : Cut base allowed P) (hold : IsWord base allowed old)
    (hne : old ≠ []) (hf : ∀ w ∈ words P, IsWord base allowed (f w)) :
    replaceAll old new (renderWith f P) = renderWith (fun w => replaceAll old new (f w)) P := by
  induction h with
  | nil => rfl
  | @other x rest hnot hrest ih =>
    have hstill : ¬ old <+: x :: renderWith f rest := by
      intro hstarts
      have htake := Cut.take_renderWith (Cut.other hnot hrest) hf base.length le_rfl
      have hbase := prefix_iff_eq_take.mp (hold.base.trans hstarts)
      rw [renderWith, ← hbase] at htake
      exact hnot (htake ▸ take_prefix _ _)
    rw [renderWith, renderWith, replaceAll_cons hstill, ih hf]
  | word hw hstop hrest ih =>
    rw [renderWith, renderWith, replaceAll_append hne hold.allowed hstop.head_renderWith,
      ih fun v hv => hf v (mem_cons_of_mem _ hv)]

/-- One step after another acts on every word for itself. -/
theorem Cut.rewriteAll_renderWith (h : Cut base allowed P) (hbase : base ≠ [])
    (hsteps : OfWords base allowed steps)
    (hf : ∀ w ∈ words P, IsWord base allowed (f w)) :
    rewriteAll steps (renderWith f P) = renderWith (fun w => rewriteAll steps (f w)) P := by
  induction steps generalizing f with
  | nil => rfl
  | cons step steps ih =>
    obtain ⟨old, new⟩ := step
    obtain ⟨hold, hnew⟩ := hsteps (old, new) mem_cons_self
    have hne := hold.ne_nil hbase
    rw [rewriteAll_cons, h.replaceAll_renderWith hold hne hf]
    exact ih (fun later hlater => hsteps later (mem_cons_of_mem _ hlater))
      fun w hw => hold.replaceAll hne hnew (hf w hw)

omit [DecidableEq α] in
/-- What was put for the words can be read off the text. -/
theorem Cut.renderWith_inj (h : Cut base allowed P) (hf : ∀ w ∈ words P, IsWord base allowed (f w))
    (hg : ∀ w ∈ words P, IsWord base allowed (g w)) (heq : renderWith f P = renderWith g P) :
    ∀ w ∈ words P, f w = g w := by
  induction h with
  | nil => exact fun _ hw => nomatch hw
  | other _ _ ih => exact ih hf hg (List.cons.inj heq).2
  | @word v rest _ hstop _ ih =>
    rw [renderWith, renderWith] at heq
    have htake := congrArg (List.takeWhile allowed) heq
    rw [takeWhile_append_of_pos (hf v mem_cons_self).allowed,
      takeWhile_append_of_pos (hg v mem_cons_self).allowed] at htake
    rw [takeWhile_eq_nil hstop.head_renderWith, takeWhile_eq_nil hstop.head_renderWith,
      append_nil, append_nil] at htake
    rw [htake] at heq
    intro w hw
    rcases mem_cons.mp hw with rfl | hw
    · exact htake
    · exact ih (fun u hu => hf u (mem_cons_of_mem v hu))
        (fun u hu => hg u (mem_cons_of_mem v hu)) (append_cancel_left heq) w hw

end Words

/-! ### The words of a cut text -/

omit [DecidableEq α] in
theorem Cut.isWord (h : Cut base allowed P) : ∀ w ∈ words P, IsWord base allowed w := by
  induction h with
  | nil => exact fun _ hw => nomatch hw
  | other _ _ ih => exact ih
  | word hw _ _ ih =>
    intro v hv
    rcases mem_cons.mp hv with rfl | hv
    · exact hw
    · exact ih v hv

omit [DecidableEq α] in
/-- A word is somewhere in the text. -/
theorem infix_of_mem_words : ∀ w ∈ words P, w <:+: renderWith id P := by
  induction P with
  | nil => exact fun _ hw => nomatch hw
  | cons piece P ih =>
    intro w hw
    cases piece with
    | other x => exact (ih w hw).trans (suffix_cons x _).isInfix
    | word v =>
      rcases mem_cons.mp hw with rfl | hw
      · exact (prefix_append _ _).isInfix
      · exact (ih w hw).trans (suffix_append _ _).isInfix

end Rabotka.Lib.Rewriting
