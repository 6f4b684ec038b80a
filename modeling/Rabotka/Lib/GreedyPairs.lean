import Rabotka.Lib.StablePairs

/-!
# Greedy pairings

Going through the candidates from the heaviest on, `keepFree` keeps each one of which neither side
is taken; equally heavy ones are taken in their order.

* `stable_greedy`: what is kept is a stable pairing of the candidates.
* `greedy_filter`: candidates that are not kept may be left out beforehand.
* `greedy_map`: the names of the sides do not matter.
-/

namespace Rabotka.Lib.StablePairs

open List

variable {P L R : Type*} {left : P → L} {right : P → R} {weight : P → ℚ}

/-! ### The heaviest first -/

/-- The candidates from the heaviest on; equally heavy ones stay in their order. -/
def heaviestFirst (weight : P → ℚ) (l : List P) : List P :=
  l.insertionSort fun p q => weight q ≤ weight p

theorem heaviestFirst_perm (l : List P) : (heaviestFirst weight l).Perm l :=
  perm_insertionSort _ l

theorem pairwise_heaviestFirst (weight : P → ℚ) (l : List P) :
    (heaviestFirst weight l).Pairwise fun p q => weight q ≤ weight p := by
  have htotal : Std.Total fun p q : P => weight q ≤ weight p := ⟨fun _ _ => le_total _ _⟩
  have htrans : IsTrans P fun p q => weight q ≤ weight p := ⟨fun _ _ _ h h' => h'.trans h⟩
  exact pairwise_insertionSort _ l

variable {l : List P}

theorem filter_orderedInsert (keep : P → Bool) (p : P)
    (hsorted : l.Pairwise fun p q => weight q ≤ weight p) :
    (l.orderedInsert (fun p q => weight q ≤ weight p) p).filter keep
      = if keep p then (l.filter keep).orderedInsert (fun p q => weight q ≤ weight p) p
        else l.filter keep := by
  induction l with
  | nil =>
    rw [orderedInsert_nil, filter_cons]
    rfl
  | cons q l ih =>
    obtain ⟨hfirst, hrest⟩ := pairwise_cons.mp hsorted
    by_cases hle : weight q ≤ weight p
    · rw [orderedInsert_cons, if_pos hle, filter_cons]
      split_ifs with hp
      · -- Everything that follows is lighter, so the place is the first.
        cases hkept : (q :: l).filter keep with
        | nil => rfl
        | cons first rest =>
          have hmem : first ∈ q :: l :=
            mem_of_mem_filter (hkept ▸ mem_cons_self : first ∈ (q :: l).filter keep)
          have hlighter : weight first ≤ weight p := by
            rcases mem_cons.mp hmem with rfl | hmem
            · exact hle
            · exact (hfirst first hmem).trans hle
          rw [orderedInsert_cons, if_pos hlighter]
      · rfl
    · rw [orderedInsert_cons, if_neg hle, filter_cons, ih hrest, filter_cons]
      split_ifs with hq hp hp
      · rw [orderedInsert_cons, if_neg hle]
      · rfl
      · rfl
      · rfl

/-- Leaving candidates out does not change the order of the others. -/
theorem filter_heaviestFirst (keep : P → Bool) (l : List P) :
    (heaviestFirst weight l).filter keep = heaviestFirst weight (l.filter keep) := by
  induction l with
  | nil => rfl
  | cons p l ih =>
    have hinsert := filter_orderedInsert keep p (pairwise_heaviestFirst weight l)
    rw [filter_cons]
    refine hinsert.trans ?_
    rw [ih]
    split_ifs <;> rfl

/-! ### Keeping what is free -/

variable [DecidableEq L] [DecidableEq R]

variable (left right) in
/-- The candidates of which neither side is taken, in their order. -/
def keepFree (usedLeft : List L) (usedRight : List R) : List P → List P
  | [] => []
  | p :: rest =>
    if left p ∈ usedLeft ∨ right p ∈ usedRight then keepFree usedLeft usedRight rest
    else p :: keepFree (left p :: usedLeft) (right p :: usedRight) rest

theorem keepFree_sublist (usedLeft : List L) (usedRight : List R) (l : List P) :
    (keepFree left right usedLeft usedRight l).Sublist l := by
  induction l generalizing usedLeft usedRight with
  | nil => exact List.Sublist.refl _
  | cons p rest ih =>
    rw [keepFree]
    split_ifs
    · exact (ih usedLeft usedRight).cons p
    · exact (ih _ _).cons_cons p

/-- What is kept uses no side that was taken. -/
theorem free_of_mem_keepFree {usedLeft : List L} {usedRight : List R} :
    ∀ p ∈ keepFree left right usedLeft usedRight l,
      left p ∉ usedLeft ∧ right p ∉ usedRight := by
  induction l generalizing usedLeft usedRight with
  | nil => exact fun _ hp => nomatch hp
  | cons q rest ih =>
    rw [keepFree]
    split_ifs with hused
    · exact ih
    · intro p hp
      rcases mem_cons.mp hp with rfl | hp
      · exact not_or.mp hused
      · obtain ⟨hl, hr⟩ := ih p hp
        exact ⟨fun h => hl (mem_cons_of_mem _ h), fun h => hr (mem_cons_of_mem _ h)⟩

theorem pairwise_keepFree (usedLeft : List L) (usedRight : List R) (l : List P) :
    (keepFree left right usedLeft usedRight l).Pairwise
      fun p q => left p ≠ left q ∧ right p ≠ right q := by
  induction l generalizing usedLeft usedRight with
  | nil => exact List.Pairwise.nil
  | cons p rest ih =>
    rw [keepFree]
    split_ifs
    · exact ih _ _
    · refine pairwise_cons.mpr ⟨fun q hq => ?_, ih _ _⟩
      obtain ⟨hl, hr⟩ := free_of_mem_keepFree q hq
      exact ⟨fun h => hl (h ▸ mem_cons_self), fun h => hr (h ▸ mem_cons_self)⟩

theorem apart_of_ne {p q : P} (hp : p ∈ keepFree left right [] [] l)
    (hq : q ∈ keepFree left right [] [] l) (hne : p ≠ q) : left p ≠ left q ∧ right p ≠ right q := by
  have hsymm : Std.Symm fun p q : P => left p ≠ left q ∧ right p ≠ right q :=
    ⟨fun _ _ h => ⟨h.1.symm, h.2.symm⟩⟩
  exact (pairwise_keepFree [] [] l).forall hp hq hne

/-- From the heaviest on, each candidate has a side taken before, or shares one with a kept
candidate that is at least as heavy. -/
theorem blocked_keepFree (usedLeft : List L) (usedRight : List R)
    (hsorted : l.Pairwise fun p q => weight q ≤ weight p) :
    ∀ p ∈ l, left p ∈ usedLeft ∨ right p ∈ usedRight
      ∨ ∃ q ∈ keepFree left right usedLeft usedRight l,
          (left q = left p ∨ right q = right p) ∧ weight p ≤ weight q := by
  induction l generalizing usedLeft usedRight with
  | nil => exact fun _ hp => nomatch hp
  | cons first rest ih =>
    obtain ⟨hfirst, hrest⟩ := pairwise_cons.mp hsorted
    intro p hp
    rw [keepFree]
    split_ifs with hused
    · rcases mem_cons.mp hp with rfl | hp
      · exact hused.imp_right Or.inl
      · exact ih usedLeft usedRight hrest p hp
    · rcases mem_cons.mp hp with rfl | hp
      · exact Or.inr (Or.inr ⟨p, mem_cons_self, Or.inl rfl, le_rfl⟩)
      · rcases ih (left first :: usedLeft) (right first :: usedRight) hrest p hp
          with hl | hr | ⟨q, hq, hshare⟩
        · rcases mem_cons.mp hl with heq | hl
          · exact Or.inr (Or.inr ⟨first, mem_cons_self, Or.inl heq.symm, hfirst p hp⟩)
          · exact Or.inl hl
        · rcases mem_cons.mp hr with heq | hr
          · exact Or.inr (Or.inr ⟨first, mem_cons_self, Or.inr heq.symm, hfirst p hp⟩)
          · exact Or.inr (Or.inl hr)
        · exact Or.inr (Or.inr ⟨q, mem_cons_of_mem _ hq, hshare⟩)

variable (left right weight) in
/-- What is kept, from the heaviest on. -/
def greedy (l : List P) : List P :=
  keepFree left right [] [] (heaviestFirst weight l)

/-- **Keeping what is free, from the heaviest on, gives a stable pairing.** -/
theorem stable_greedy [DecidableEq P] (l : List P) :
    Stable left right weight l.toFinset (greedy left right weight l).toFinset where
  once_left p hp q hq h := by
    by_contra hne
    exact (apart_of_ne (mem_toFinset.mp hp) (mem_toFinset.mp hq) hne).1 h
  once_right p hp q hq h := by
    by_contra hne
    exact (apart_of_ne (mem_toFinset.mp hp) (mem_toFinset.mp hq) hne).2 h
  sub p hp := mem_toFinset.mpr ((heaviestFirst_perm l).mem_iff.mp
    ((keepFree_sublist [] [] _).subset (mem_toFinset.mp hp)))
  blocked p hp := by
    have hblocked : left p ∈ ([] : List L) ∨ right p ∈ ([] : List R) ∨ _ :=
      blocked_keepFree [] [] (pairwise_heaviestFirst weight l) p
        ((heaviestFirst_perm l).mem_iff.mpr (mem_toFinset.mp hp))
    rcases hblocked with hl | hr | ⟨q, hq, hshare⟩
    · exact nomatch hl
    · exact nomatch hr
    · exact ⟨q, mem_toFinset.mpr hq, hshare⟩

theorem nodup_greedy (l : List P) : (greedy left right weight l).Nodup :=
  (pairwise_keepFree [] [] (heaviestFirst weight l)).imp fun h heq =>
    h.1 (congrArg left heq)

/-! ### Leaving out and renaming -/

theorem keepFree_filter (keep : P → Bool) (usedLeft : List L) (usedRight : List R) (l : List P)
    (hkeep : ∀ p ∈ keepFree left right usedLeft usedRight l, keep p = true) :
    keepFree left right usedLeft usedRight (l.filter keep)
      = keepFree left right usedLeft usedRight l := by
  induction l generalizing usedLeft usedRight with
  | nil => rfl
  | cons p l ih =>
    rw [keepFree] at hkeep ⊢
    split_ifs at hkeep ⊢ with hused
    · rw [filter_cons]
      split_ifs
      · rw [keepFree, if_pos hused, ih _ _ hkeep]
      · exact ih _ _ hkeep
    · rw [filter_cons, if_pos (hkeep p mem_cons_self), keepFree, if_neg hused,
        ih _ _ fun q hq => hkeep q (mem_cons_of_mem p hq)]

/-- **Candidates that are not kept may be left out beforehand.** -/
theorem greedy_filter (keep : P → Bool) (l : List P)
    (hkeep : ∀ p ∈ greedy left right weight l, keep p = true) :
    greedy left right weight (l.filter keep) = greedy left right weight l := by
  rw [greedy, ← filter_heaviestFirst, keepFree_filter keep [] [] _ hkeep, greedy]

theorem keepFree_map {τ : R → R} (hτ : Function.Injective τ) {rename : P → P}
    (hleft : ∀ p, left (rename p) = left p) (hright : ∀ p, right (rename p) = τ (right p))
    (usedLeft : List L) (usedRight : List R) (l : List P) :
    keepFree left right usedLeft (usedRight.map τ) (l.map rename)
      = (keepFree left right usedLeft usedRight l).map rename := by
  induction l generalizing usedLeft usedRight with
  | nil => rfl
  | cons p l ih =>
    have hmem : τ (right p) ∈ usedRight.map τ ↔ right p ∈ usedRight :=
      mem_map_of_injective hτ
    rw [map_cons, keepFree, keepFree, hleft, hright]
    by_cases hused : left p ∈ usedLeft ∨ right p ∈ usedRight
    · rw [if_pos hused, if_pos (hused.imp_right hmem.mpr), ih]
    · rw [if_neg hused, if_neg fun h => hused (h.imp_right hmem.mp), map_cons, ← ih, map_cons]

/-- **The names of the right sides do not matter.** -/
theorem greedy_map {τ : R → R} (hτ : Function.Injective τ) {rename : P → P}
    (hleft : ∀ p, left (rename p) = left p) (hright : ∀ p, right (rename p) = τ (right p))
    (hweight : ∀ p, weight (rename p) = weight p) (l : List P) :
    greedy left right weight (l.map rename) = (greedy left right weight l).map rename := by
  have hsort : heaviestFirst weight (l.map rename) = (heaviestFirst weight l).map rename := by
    refine (map_insertionSort _ _ rename l fun p _ q _ => ?_).symm
    rw [hweight, hweight]
  rw [greedy, hsort]
  exact keepFree_map hτ hleft hright [] [] _

end Rabotka.Lib.StablePairs
