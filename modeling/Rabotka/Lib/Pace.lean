import Mathlib.Data.Finset.Max
import Mathlib.Order.Interval.Finset.Nat
import Mathlib.Tactic.Linarith
import Mathlib.Tactic.Ring

/-!
# Paced days

Days that are picked one after the other, on average `f` in a period of `p` days since a start.
Where every day is picked on the first day it may be, no `p` consecutive days hold more than `f` of
them (`Paced.card_window_le`); a day that is picked late breaks this as soon as a later one is not.
-/

namespace Pace

variable {p s f d : ℕ} {D : Finset ℕ}

/-- How many days were picked before. -/
def before (D : Finset ℕ) (d : ℕ) : ℕ := (D.filter fun x => x < d).card

/-- The days `t`, …, `t + p - 1` that were picked. -/
def window (p t : ℕ) (D : Finset ℕ) : Finset ℕ := D.filter fun x => t ≤ x ∧ x < t + p

/-- A period holds no more days than it has. -/
theorem card_window_le_period (p t : ℕ) (D : Finset ℕ) : (window p t D).card ≤ p := by
  have hsubset : window p t D ⊆ Finset.Ico t (t + p) := fun d hd =>
    Finset.mem_Ico.2 (Finset.mem_filter.1 hd).2
  simpa using Finset.card_le_card hsubset

/-- Every day is picked when the number of days picked before it is due, and was not due the day
before. -/
structure Paced (p s f : ℕ) (D : Finset ℕ) : Prop where
  due : ∀ d ∈ D, (p * before D d : ℤ) ≤ (d - s) * f
  onTime : ∀ d ∈ D, ((d - 1 - s) * f : ℤ) < p * before D d

theorem paced_empty : Paced p s f ∅ := ⟨by simp, by simp⟩

theorem before_insert_of_le {x : ℕ} (h : x ≤ d) : before (insert d D) x = before D x := by
  rw [before, before, Finset.filter_insert, if_neg (not_lt.2 h)]

theorem before_of_lt (h : ∀ x ∈ D, x < d) : before D d = D.card := by
  rw [before, Finset.filter_true_of_mem h]

/-- The next day. -/
theorem Paced.insert_last (h : Paced p s f D) (hlast : ∀ x ∈ D, x < d)
    (hdue : (p * D.card : ℤ) ≤ (d - s) * f) (honTime : ((d - 1 - s) * f : ℤ) < p * D.card) :
    Paced p s f (insert d D) := by
  have hnew : before (insert d D) d = D.card :=
    (before_insert_of_le le_rfl).trans (before_of_lt hlast)
  constructor
  · intro x hx
    rcases Finset.mem_insert.1 hx with rfl | hx
    · rw [hnew]
      exact hdue
    · rw [before_insert_of_le (hlast x hx).le]
      exact h.due x hx
  · intro x hx
    rcases Finset.mem_insert.1 hx with rfl | hx
    · rw [hnew]
      exact honTime
    · rw [before_insert_of_le (hlast x hx).le]
      exact h.onTime x hx

/-- Between the first and the last picked day of a window lie all the others. -/
theorem before_add_card_le {t m M : ℕ} (hm : ∀ x ∈ window p t D, m ≤ x)
    (hM : ∀ x ∈ window p t D, x ≤ M) (hmem : M ∈ window p t D) (hle : m ≤ M) :
    before D m + (window p t D).card ≤ before D M + 1 := by
  have hdisjoint : Disjoint (D.filter fun x => x < m) ((window p t D).erase M) := by
    refine Finset.disjoint_left.2 fun x hx hx' => ?_
    exact absurd (Finset.mem_filter.1 hx).2 (not_lt.2 (hm x (Finset.mem_of_mem_erase hx')))
  have hsubset : (D.filter fun x => x < m) ∪ (window p t D).erase M ⊆ D.filter fun x => x < M := by
    intro x hx
    rcases Finset.mem_union.1 hx with hx | hx
    · obtain ⟨hxD, hlt⟩ := Finset.mem_filter.1 hx
      exact Finset.mem_filter.2 ⟨hxD, hlt.trans_le hle⟩
    · obtain ⟨hne, hxW⟩ := Finset.mem_erase.1 hx
      exact Finset.mem_filter.2 ⟨(Finset.mem_filter.1 hxW).1, lt_of_le_of_ne (hM x hxW) hne⟩
  have hcard := Finset.card_le_card hsubset
  rw [Finset.card_union_of_disjoint hdisjoint] at hcard
  have herase := Finset.card_erase_add_one hmem
  unfold before
  omega

/-- **Paced days keep to the period.** -/
theorem Paced.card_window_le (h : Paced p s f D) (t : ℕ) : (window p t D).card ≤ f := by
  rcases (window p t D).eq_empty_or_nonempty with hempty | hnonempty
  · rw [hempty]
    exact Nat.zero_le f
  set m := (window p t D).min' hnonempty with hm
  set M := (window p t D).max' hnonempty with hM
  have hmW : m ∈ window p t D := Finset.min'_mem _ _
  have hMW : M ∈ window p t D := Finset.max'_mem _ _
  obtain ⟨hmD, htm, -⟩ := Finset.mem_filter.1 hmW
  obtain ⟨hMD, -, hMt⟩ := Finset.mem_filter.1 hMW
  have hle : m ≤ M := Finset.min'_le _ _ hMW
  have hcount := before_add_card_le (fun x hx => Finset.min'_le _ x hx)
    (fun x hx => Finset.le_max' _ x hx) hMW hle
  have hdue := h.due M hMD
  have honTime := h.onTime m hmD
  -- the last day is due so late that the first one would have been late otherwise
  have hspan : (M : ℤ) - m + 1 ≤ p := by omega
  have hcount' : (before D m : ℤ) + (window p t D).card ≤ before D M + 1 := by exact_mod_cast hcount
  have hp : (0 : ℤ) ≤ p := Int.natCast_nonneg p
  have hf : (0 : ℤ) ≤ f := Int.natCast_nonneg f
  by_contra hgt
  have hgt' : (f : ℤ) + 1 ≤ (window p t D).card := by exact_mod_cast not_le.1 hgt
  have hbelow : (p : ℤ) * (before D m + f) ≤ p * before D M :=
    mul_le_mul_of_nonneg_left (by linarith) hp
  have hwide : ((M : ℤ) - m + 1) * f ≤ p * f := mul_le_mul_of_nonneg_right hspan hf
  have hsplit : ((M : ℤ) - s) * f = ((m : ℤ) - 1 - s) * f + ((M : ℤ) - m + 1) * f := by ring
  rw [mul_add] at hbelow
  linarith

end Pace
