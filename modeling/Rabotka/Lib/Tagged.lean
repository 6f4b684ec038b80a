import Mathlib.Data.Finset.Basic

/-!
# Entries of processes

A history variable often collects what the processes of a service still owe: a list of entries,
each tagged with the process that made it. `Tagged.of l i` is what process `i` has entered and
`Tagged.drop l i` is the list once process `i` has settled everything; a step of one process
leaves the entries of the others alone.
-/

namespace Tagged

variable {α : Type*} {l : List (ℕ × α)} {i j : ℕ} {a : α}

/-- The entries of process `i`. -/
def of (l : List (ℕ × α)) (i : ℕ) : List α :=
  (l.filter fun x => x.1 = i).map Prod.snd

/-- The entries of the other processes. -/
def drop (l : List (ℕ × α)) (i : ℕ) : List (ℕ × α) :=
  l.filter fun x => x.1 ≠ i

theorem mem_of : a ∈ of l i ↔ (i, a) ∈ l := by
  simp [of]

@[simp]
theorem of_nil (i : ℕ) : of ([] : List (ℕ × α)) i = [] := rfl

@[simp]
theorem of_cons_self (l : List (ℕ × α)) (i : ℕ) (a : α) : of ((i, a) :: l) i = a :: of l i := by
  simp [of]

theorem of_cons_of_ne (h : j ≠ i) (l : List (ℕ × α)) (a : α) : of ((i, a) :: l) j = of l j := by
  simp [of, h.symm]

@[simp]
theorem of_drop_self (l : List (ℕ × α)) (i : ℕ) : of (drop l i) i = [] := by
  simp [of, drop, List.filter_filter]

theorem of_drop_of_ne (h : j ≠ i) (l : List (ℕ × α)) : of (drop l i) j = of l j := by
  unfold of drop
  rw [List.filter_filter]
  congr 1
  refine List.filter_congr fun x _ => ?_
  by_cases hx : x.1 = j <;> simp [hx, h]

/-- Entering a list at once. -/
theorem of_map_append_self (l : List (ℕ × α)) (i : ℕ) (as : List α) :
    of (as.map (Prod.mk i) ++ l) i = as ++ of l i := by
  induction as with
  | nil => rfl
  | cons a as ih => simp [ih]

theorem of_map_append_of_ne (h : j ≠ i) (l : List (ℕ × α)) (as : List α) :
    of (as.map (Prod.mk i) ++ l) j = of l j := by
  induction as with
  | nil => rfl
  | cons a as ih =>
    rw [List.map_cons, List.cons_append, of_cons_of_ne h, ih]

theorem of_filter_ne_of_ne [DecidableEq α] (h : j ≠ i) (l : List (ℕ × α)) (a : α) :
    of (l.filter fun x => x ≠ (i, a)) j = of l j := by
  unfold of
  rw [List.filter_filter]
  congr 1
  refine List.filter_congr fun x _ => ?_
  by_cases hx : x.1 = j
  · have hne : x ≠ (i, a) := fun hxi => h (hx.symm.trans (congrArg Prod.fst hxi))
    simp [hx, hne]
  · simp [hx]

end Tagged
