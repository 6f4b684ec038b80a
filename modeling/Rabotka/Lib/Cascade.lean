import Mathlib.Data.List.Basic

/-!
# Deletions that cascade

The rows of a database, of all its tables, are one list. A row has a key and names its parents, the
keys of the rows it hangs on: where one of them is deleted, so is the row. Rows have ranks, and the
parents of a row have smaller ones.

`Falls t p` is what a deletion of the rows `p` takes with it, and `Schema.falls` computes it along
the ranks (`falls_iff`). A set of rows that contains those deleted and all that hang on its members
contains whatever falls (`Falls.subset`): this is the rule by which a row is shown to stay.
-/

namespace Cascade

variable {ρ κ : Type}

/-- How rows hang on each other. -/
structure Schema (ρ κ : Type) where
  key : ρ → κ
  parents : ρ → List κ
  rank : ρ → ℕ
  rank_lt : ∀ {q r}, key q ∈ parents r → rank q < rank r

namespace Schema

variable (S : Schema ρ κ) {t : List ρ} {p p' : ρ → Bool} {q r : ρ}

/-- A row falls if it is deleted, or if it hangs on a row that falls. -/
inductive Falls (t : List ρ) (p : ρ → Bool) : ρ → Prop
  | root {r : ρ} (hr : r ∈ t) (hp : p r) : Falls t p r
  | hangs {q r : ρ} (hr : r ∈ t) (hq : Falls t p q) (hkey : S.key q ∈ S.parents r) : Falls t p r

variable {S}

theorem Falls.mem (h : S.Falls t p r) : r ∈ t := by
  cases h with
  | root hr hp => exact hr
  | hangs hr hq hkey => exact hr

/-- Whatever falls is in every set that contains the rows deleted and what hangs on its members. -/
theorem Falls.subset {C : ρ → Prop} (h : S.Falls t p r) (hroot : ∀ r ∈ t, p r → C r)
    (hhangs : ∀ q r, q ∈ t → r ∈ t → C q → S.key q ∈ S.parents r → C r) : C r := by
  induction h with
  | root hr hp => exact hroot _ hr hp
  | hangs hr hq hkey ih => exact hhangs _ _ hq.mem hr ih hkey

/-- What falls is deleted itself, or hangs on a row that falls. -/
theorem falls_cases : S.Falls t p r ↔
    r ∈ t ∧ (p r ∨ ∃ q, S.Falls t p q ∧ S.key q ∈ S.parents r) := by
  constructor
  · intro h
    cases h with
    | root hr hp => exact ⟨hr, .inl hp⟩
    | hangs hr hq hkey => exact ⟨hr, .inr ⟨_, hq, hkey⟩⟩
  · rintro ⟨hr, hp | ⟨q, hq, hkey⟩⟩
    · exact .root hr hp
    · exact .hangs hr hq hkey

variable {n : ℕ}

/-- Nothing falls that ranks below the rows deleted. -/
theorem Falls.le_rank (h : S.Falls t p r) (hp : ∀ r ∈ t, p r → n ≤ S.rank r) : n ≤ S.rank r :=
  h.subset hp fun _ _ _ _ hq hkey => Nat.le_trans hq (Nat.le_of_lt (S.rank_lt hkey))

/-- Of the rows that rank as low as those deleted, no others fall. -/
theorem Falls.of_rank_le (h : S.Falls t p r) (hp : ∀ r ∈ t, p r → n ≤ S.rank r)
    (hr : S.rank r ≤ n) : p r := by
  obtain ⟨-, hpr | ⟨q, hq, hkey⟩⟩ := falls_cases.1 h
  · exact hpr
  · have hlt := S.rank_lt hkey
    have hle := hq.le_rank hp
    omega

/-! ### Computing what falls -/

variable [DecidableEq κ]

variable (S) in
/-- The row falls along at most `n` others. -/
def falls (t : List ρ) (p : ρ → Bool) : ℕ → ρ → Bool
  | 0, r => p r
  | n + 1, r => p r || t.any fun q => S.key q ∈ S.parents r && falls t p n q

theorem falls_of_root (hp : p r) : S.falls t p n r := by
  cases n with
  | zero => exact hp
  | succ n => simp [falls, hp]

theorem Falls.of_falls (hr : r ∈ t) (h : S.falls t p n r) : S.Falls t p r := by
  induction n generalizing r with
  | zero => exact .root hr h
  | succ n ih =>
    simp only [falls, Bool.or_eq_true, List.any_eq_true, Bool.and_eq_true, decide_eq_true_eq] at h
    rcases h with hp | ⟨q, hq, hkey, hfalls⟩
    · exact .root hr hp
    · exact .hangs hr (ih hq hfalls) hkey

theorem Falls.falls (h : S.Falls t p r) (hn : S.rank r ≤ n) : S.falls t p n r := by
  induction h generalizing n with
  | root hr hp => exact falls_of_root hp
  | @hangs q r hr hq hkey ih =>
    have hlt := S.rank_lt hkey
    obtain ⟨m, rfl⟩ : ∃ m, n = m + 1 := ⟨n - 1, by omega⟩
    have hq' := ih (n := m) (by omega)
    simp only [Schema.falls, Bool.or_eq_true, List.any_eq_true, Bool.and_eq_true,
      decide_eq_true_eq]
    exact .inr ⟨q, hq.mem, hkey, hq'⟩

/-- The computation finds what falls. -/
theorem falls_iff (hr : r ∈ t) (hn : S.rank r ≤ n) : S.falls t p n r ↔ S.Falls t p r :=
  ⟨.of_falls hr, fun h => h.falls hn⟩

variable (S) in
/-- `DELETE … WHERE p`, with what hangs on it. -/
def delete (t : List ρ) (p : ρ → Bool) (n : ℕ) : List ρ :=
  t.filter fun r => !S.falls t p n r

/-- The rows that stay are those that do not fall. -/
theorem mem_delete (hn : ∀ r, S.rank r ≤ n) : r ∈ S.delete t p n ↔ r ∈ t ∧ ¬ S.Falls t p r := by
  rw [delete, List.mem_filter]
  refine and_congr_right fun hr => ?_
  rw [← falls_iff hr (hn r), Bool.not_eq_true', Bool.not_eq_true]

end Schema

end Cascade
