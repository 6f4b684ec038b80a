import Mathlib.Data.List.Infix

/-!
# Replacing words in a text

Words are replaced wherever they occur, one word after another, each in the text as rewritten so
far (`rewriteAll`).

* `replaceAll` replaces every occurrence from left to right. What was put in is then there
  (`infix_replaceAll`), and if nothing else is, the text was the word (`eq_of_length_replaceAll`).
* `Fair.rewriteAll_eq_iff`: the steps leave for a word what is meant for it, if and only if no step
  finds its word inside another one. What is put in is not found in a word, and is of one length;
  a word once spoilt stays so, since what was put in last is in it (`Marked`).
-/

namespace Rabotka.Lib.Replacing

open List

variable {α : Type*} [DecidableEq α]

/-! ### Replacing one word -/

/-- Replacing every occurrence of `old`, from left to right; the first units may be skipped. -/
def replaceFrom (old new : List α) : ℕ → List α → List α
  | _, [] => []
  | k + 1, _ :: text => replaceFrom old new k text
  | 0, x :: text =>
    if old.isPrefixOf (x :: text) then new ++ replaceFrom old new (old.length - 1) text
    else x :: replaceFrom old new 0 text

/-- `text.split(old).join(new)`. -/
def replaceAll (old new text : List α) : List α :=
  replaceFrom old new 0 text

variable {old new text : List α}

theorem replaceFrom_eq_drop (old new : List α) (k : ℕ) (text : List α) :
    replaceFrom old new k text = replaceAll old new (text.drop k) := by
  induction k generalizing text with
  | zero => rfl
  | succ k ih =>
    cases text with
    | nil => rfl
    | cons x text => exact ih text

@[simp]
theorem replaceAll_nil (old new : List α) : replaceAll old new [] = [] :=
  rfl

/-- Where the word starts, it is replaced. -/
theorem replaceAll_append_self (hold : old ≠ []) (text : List α) :
    replaceAll old new (old ++ text) = new ++ replaceAll old new text := by
  obtain ⟨x, rest, rfl⟩ := exists_cons_of_ne_nil hold
  have hstarts : (x :: rest).isPrefixOf (x :: (rest ++ text)) = true :=
    isPrefixOf_iff_prefix.mpr ⟨text, rfl⟩
  rw [cons_append, replaceAll, replaceFrom, if_pos hstarts, replaceFrom_eq_drop,
    length_cons, Nat.add_sub_cancel, drop_left]

/-- Where it does not, the unit stays. -/
theorem replaceAll_cons {x : α} (h : ¬ old <+: x :: text) :
    replaceAll old new (x :: text) = x :: replaceAll old new text := by
  rw [replaceAll, replaceFrom, if_neg fun hstarts => h (List.isPrefixOf_iff_prefix.mp hstarts)]
  rfl

/-- The two cases of a text that is not empty. -/
theorem replaceAll_cases (old text : List α) (x : α) :
    (∃ rest, x :: text = old ++ rest) ∨ ¬ old <+: x :: text := by
  by_cases h : old <+: x :: text
  · obtain ⟨rest, hrest⟩ := h
    exact Or.inl ⟨rest, hrest.symm⟩
  · exact Or.inr h

/-- Induction along the occurrences of a word, from left to right. -/
theorem occurrence_induction {motive : List α → Prop} (hold : old ≠ []) (nil : motive [])
    (word : ∀ rest, (∀ later, later <:+ rest → motive later) → motive (old ++ rest))
    (other : ∀ x text, ¬ old <+: x :: text → motive text → motive (x :: text)) (text : List α) :
    motive text := by
  induction h : text.length using Nat.strong_induction_on generalizing text with
  | _ n ih =>
    subst h
    cases text with
    | nil => exact nil
    | cons x text =>
      rcases replaceAll_cases old text x with ⟨rest, hrest⟩ | hnot
      · refine hrest ▸ word rest fun later hlater => ih _ ?_ later rfl
        have hle := hlater.length_le
        have hpos := length_pos_iff.mpr hold
        rw [hrest, length_append]
        omega
      · exact other x text hnot (ih _ (Nat.lt_succ_self _) text rfl)

/-- Without an occurrence nothing changes. -/
theorem replaceAll_eq_self (h : ¬ old <:+: text) : replaceAll old new text = text := by
  induction text with
  | nil => rfl
  | cons x text ih =>
    rw [replaceAll_cons fun hstarts => h hstarts.isInfix,
      ih fun hoccurs => h (hoccurs.trans (suffix_cons x text).isInfix)]

/-- With one, what was put in is there. -/
theorem infix_replaceAll (hold : old ≠ []) (h : old <:+: text) :
    new <:+: replaceAll old new text := by
  induction text with
  | nil => exact absurd (infix_nil.mp h) hold
  | cons x text ih =>
    rcases replaceAll_cases old text x with ⟨rest, hrest⟩ | hnot
    · rw [hrest, replaceAll_append_self hold]
      exact (prefix_append _ _).isInfix
    · rw [replaceAll_cons hnot]
      have hlater : old <:+: text := (infix_cons_iff.mp h).resolve_left hnot
      exact (ih hlater).trans (suffix_cons x _).isInfix

theorem replaceAll_eq_nil (hold : old ≠ []) (hnew : new ≠ []) (h : replaceAll old new text = []) :
    text = [] := by
  cases text with
  | nil => rfl
  | cons x text =>
    rcases replaceAll_cases old text x with ⟨rest, hrest⟩ | hnot
    · rw [hrest, replaceAll_append_self hold] at h
      exact absurd (append_eq_nil_iff.mp h).1 hnew
    · rw [replaceAll_cons hnot] at h
      exact nomatch h

/-- If no more than what was put in comes out, the text was the word itself. -/
theorem eq_of_length_replaceAll (hold : old ≠ []) (hnew : new ≠ []) (h : old <:+: text)
    (hlength : (replaceAll old new text).length = new.length) : text = old := by
  induction text with
  | nil => exact absurd (infix_nil.mp h) hold
  | cons x text _ =>
    rcases replaceAll_cases old text x with ⟨rest, hrest⟩ | hnot
    · rw [hrest, replaceAll_append_self hold, length_append] at hlength
      have hempty : replaceAll old new rest = [] := eq_nil_of_length_eq_zero (by omega)
      rw [hrest, replaceAll_eq_nil hold hnew hempty, append_nil]
    · rw [replaceAll_cons hnot, length_cons] at hlength
      have hlater : old <:+: text := (infix_cons_iff.mp h).resolve_left hnot
      have hle : new.length ≤ (replaceAll old new text).length :=
        (infix_replaceAll hold hlater).length_le
      omega

/-! ### One step after another -/

/-- The steps, each on what the one before left. -/
def rewriteAll (steps : List (List α × List α)) (text : List α) : List α :=
  steps.foldl (fun text step => replaceAll step.1 step.2 text) text

@[simp]
theorem rewriteAll_nil (text : List α) : rewriteAll [] text = text :=
  rfl

@[simp]
theorem rewriteAll_cons (old new : List α) (steps : List (List α × List α)) (text : List α) :
    rewriteAll ((old, new) :: steps) text = rewriteAll steps (replaceAll old new text) :=
  rfl

/-- What is meant for a word: what its own step puts in. -/
def meant (steps : List (List α × List α)) (word : List α) : List α :=
  (steps.lookup word).getD word

@[simp]
theorem meant_nil (word : List α) : meant [] word = word :=
  rfl

theorem meant_cons_self (word new : List α) (steps : List (List α × List α)) :
    meant ((word, new) :: steps) word = new := by
  rw [meant, lookup_cons_self, Option.getD_some]

variable {word : List α}

theorem meant_cons_of_ne (steps : List (List α × List α)) (h : old ≠ word) :
    meant ((old, new) :: steps) word = meant steps word := by
  rw [meant, lookup_cons, beq_false_of_ne h.symm]
  rfl

/-- No step finds its word inside another word, or inside what was put for it. -/
def Apart (steps : List (List α × List α)) (word : List α) : Prop :=
  ∀ done old new todo, steps = done ++ (old, new) :: todo → old ≠ word → ¬ old <:+: meant done word

theorem apart_nil (word : List α) : Apart [] word :=
  fun done _ _ _ h => absurd h.symm (append_ne_nil_of_right_ne_nil done (cons_ne_nil _ _))

/-- A step with another word does not find it, and neither do the ones after it. -/
theorem apart_cons_of_ne {steps : List (List α × List α)} (h : old ≠ word) :
    Apart ((old, new) :: steps) word ↔ ¬ old <:+: word ∧ Apart steps word := by
  constructor
  · refine fun hall => ⟨hall [] old new steps rfl h, fun done old' new' todo hsteps hne => ?_⟩
    have hlater := hall ((old, new) :: done) old' new' todo (congrArg _ hsteps) hne
    rwa [meant_cons_of_ne done h] at hlater
  · rintro ⟨hhead, htail⟩ done old' new' todo hsteps hne
    cases done with
    | nil =>
      obtain ⟨hstep, -⟩ := List.cons.inj hsteps
      obtain rfl := (Prod.mk.inj hstep).1
      exact hhead
    | cons step done =>
      obtain ⟨rfl, hrest⟩ := List.cons.inj hsteps
      rw [meant_cons_of_ne done h]
      exact htail done old' new' todo hrest hne

/-- After a word's own step, the ones that follow do not find their words in what was put in. -/
theorem apart_cons_self {steps : List (List α × List α)} (hnodup : word ∉ steps.map Prod.fst) :
    Apart ((word, new) :: steps) word ↔ ∀ step ∈ steps, ¬ step.1 <:+: new := by
  constructor
  · intro hall step hstep
    obtain ⟨done, todo, rfl⟩ := append_of_mem hstep
    have hne : step.1 ≠ word := by
      rintro rfl
      exact hnodup (mem_map_of_mem hstep)
    have hlater := hall ((word, new) :: done) step.1 step.2 todo rfl hne
    rwa [meant_cons_self] at hlater
  · intro hall done old' new' todo hsteps hne
    cases done with
    | nil =>
      obtain ⟨hstep, -⟩ := List.cons.inj hsteps
      exact absurd (Prod.mk.inj hstep).1.symm hne
    | cons step done =>
      obtain ⟨rfl, hrest⟩ := List.cons.inj hsteps
      rw [meant_cons_self]
      exact hall (old', new') (hrest ▸ mem_append_right _ mem_cons_self)

/-- The steps replace words, each once, by new texts of one length that no word contains. -/
structure Fair (n : ℕ) (words : List (List α)) (steps : List (List α × List α)) : Prop where
  key : ∀ step ∈ steps, step.1 ∈ words
  nonempty : ∀ word ∈ words, word ≠ []
  pos : 0 < n
  length : ∀ step ∈ steps, step.2.length = n
  fresh : ∀ step ∈ steps, ∀ word ∈ words, ¬ step.2 <:+: word
  nodup : (steps.map Prod.fst).Nodup

/-- Something is in a text that is in no word. -/
def Marked (words : List (List α)) (text : List α) : Prop :=
  ∃ mark, mark <:+: text ∧ ∀ word ∈ words, ¬ mark <:+: word

omit [DecidableEq α] in
theorem Marked.not_mem {words : List (List α)} (h : Marked words text) : text ∉ words := by
  obtain ⟨mark, hmark, hfresh⟩ := h
  exact fun hmem => hfresh text hmem hmark

section Fair

variable {n : ℕ} {words : List (List α)} {steps : List (List α × List α)}

omit [DecidableEq α] in
theorem Fair.tail (F : Fair n words ((old, new) :: steps)) : Fair n words steps where
  key step hstep := F.key step (mem_cons_of_mem _ hstep)
  nonempty := F.nonempty
  pos := F.pos
  length step hstep := F.length step (mem_cons_of_mem _ hstep)
  fresh step hstep := F.fresh step (mem_cons_of_mem _ hstep)
  nodup := (nodup_cons.mp F.nodup).2

omit [DecidableEq α] in
theorem Fair.old_ne_nil (F : Fair n words ((old, new) :: steps)) : old ≠ [] :=
  F.nonempty old (F.key (old, new) mem_cons_self)

omit [DecidableEq α] in
theorem Fair.new_ne_nil (F : Fair n words ((old, new) :: steps)) : new ≠ [] := by
  rintro rfl
  exact F.pos.ne (F.length (old, []) mem_cons_self)

/-- A replacement leaves its mark. -/
theorem Fair.marked_replaceAll (F : Fair n words ((old, new) :: steps)) (h : old <:+: text) :
    Marked words (replaceAll old new text) :=
  ⟨new, infix_replaceAll F.old_ne_nil h, F.fresh (old, new) mem_cons_self⟩

/-- A marked text stays marked. -/
theorem Fair.marked_rewriteAll (F : Fair n words steps) (h : Marked words text) :
    Marked words (rewriteAll steps text) := by
  induction steps generalizing text with
  | nil => exact h
  | cons step steps ih =>
    obtain ⟨old, new⟩ := step
    rw [rewriteAll_cons]
    by_cases hoccurs : old <:+: text
    · exact ih F.tail (F.marked_replaceAll hoccurs)
    · rw [replaceAll_eq_self hoccurs]
      exact ih F.tail h

theorem rewriteAll_eq_self (h : ∀ step ∈ steps, ¬ step.1 <:+: text) :
    rewriteAll steps text = text := by
  induction steps with
  | nil => rfl
  | cons step steps ih =>
    rw [rewriteAll, foldl_cons, replaceAll_eq_self (h step mem_cons_self)]
    exact ih fun later hlater => h later (mem_cons_of_mem _ hlater)

/-- If a marked text ends as long as a single new text, no step found its word in it. -/
theorem Fair.untouched (F : Fair n words steps) (h : Marked words text)
    (hlength : (rewriteAll steps text).length = n) : ∀ step ∈ steps, ¬ step.1 <:+: text := by
  induction steps generalizing text with
  | nil => exact fun _ hstep => nomatch hstep
  | cons step steps ih =>
    obtain ⟨old, new⟩ := step
    rw [rewriteAll_cons] at hlength
    have hnot : ¬ old <:+: text := by
      intro hoccurs
      have hrest := ih F.tail (F.marked_replaceAll hoccurs) hlength
      rw [rewriteAll_eq_self hrest, ← F.length (old, new) mem_cons_self] at hlength
      have htext := eq_of_length_replaceAll F.old_ne_nil F.new_ne_nil hoccurs hlength
      exact h.not_mem (htext ▸ F.key (old, new) mem_cons_self)
    rw [replaceAll_eq_self hnot] at hlength
    intro later hlater
    rcases mem_cons.mp hlater with rfl | hlater
    · exact hnot
    · exact ih F.tail h hlength later hlater

theorem Fair.meant_cases (F : Fair n words steps) (word : List α) :
    meant steps word = word ∨ (meant steps word).length = n := by
  rw [meant]
  cases h : steps.lookup word with
  | none => exact Or.inl rfl
  | some new =>
    obtain ⟨before, after, hsteps, -⟩ := lookup_eq_some_iff.mp h
    exact Or.inr (F.length (word, new) (hsteps ▸ mem_append_right _ mem_cons_self))

/-- **The steps do for a word what is meant for it, if and only if no step finds its word inside
another one.** -/
theorem Fair.rewriteAll_eq_iff (F : Fair n words steps) (hword : word ∈ words) :
    rewriteAll steps word = meant steps word ↔ Apart steps word := by
  induction steps with
  | nil => exact iff_of_true rfl (apart_nil word)
  | cons step steps ih =>
    obtain ⟨old, new⟩ := step
    rw [rewriteAll_cons]
    by_cases hold : old = word
    · subst hold
      have hself : replaceAll old new old = new := by
        have h : replaceAll old new (old ++ []) = _ := replaceAll_append_self F.old_ne_nil []
        rwa [append_nil, replaceAll_nil, append_nil] at h
      rw [hself, meant_cons_self, apart_cons_self (nodup_cons.mp F.nodup).1]
      refine ⟨fun h => F.tail.untouched ?_ ?_, rewriteAll_eq_self⟩
      · exact hself ▸ F.marked_replaceAll infix_rfl
      · rw [h]
        exact F.length (old, new) mem_cons_self
    · rw [meant_cons_of_ne steps hold, apart_cons_of_ne hold]
      by_cases hoccurs : old <:+: word
      · -- The step spoils the word, and what is meant never comes back.
        refine iff_of_false (fun h => ?_) fun h => h.1 hoccurs
        have hmarked := F.marked_replaceAll hoccurs
        rcases F.tail.meant_cases word with hmeant | hmeant
        · refine (F.tail.marked_rewriteAll hmarked).not_mem ?_
          rwa [h.trans hmeant]
        · rw [← h] at hmeant
          rw [rewriteAll_eq_self (F.tail.untouched hmarked hmeant),
            ← F.length (old, new) mem_cons_self] at hmeant
          exact hold (eq_of_length_replaceAll F.old_ne_nil F.new_ne_nil hoccurs hmeant).symm
      · rw [replaceAll_eq_self hoccurs, ih F.tail]
        exact (and_iff_right hoccurs).symm

end Fair

end Rabotka.Lib.Replacing
