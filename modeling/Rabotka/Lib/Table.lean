import Mathlib.Algebra.BigOperators.Group.List.Lemmas
import Mathlib.Tactic.Ring

/-!
# Database tables

A table is the list of its rows in creation order, and the identifier of a row is its
position: inserting appends, no operation removes a row, so identifiers are unique and
stay valid. The updates are the two shapes an object–relational mapper offers: `claim`, the
conditional update of one row that reports whether it matched, and `updateMany`, the update
of every row that satisfies a predicate.

Two notions about tables carry most invariants. `Evolves R t t'` says that every row of `t` is
still in `t'`, changed as `R` allows, so that what `R` keeps can be remembered across steps;
`Grows key t t'` is the case that a part of the row stays the same. `sumBy w t` adds up a weight
of the rows and their identifiers; its lemmas say by how much each update changes it.
-/

namespace Table

open List

variable {α κ : Type*}

/-! ### Updates -/

/-- `UPDATE … WHERE id = i AND p`: the updated table, `none` when no row matched. -/
def claim (t : List α) (i : ℕ) (p : α → Bool) (f : α → α) : Option (List α) :=
  match t[i]? with
  | some r => if p r then some (t.set i (f r)) else none
  | none => none

/-- `UPDATE … WHERE id = i`. -/
def update (t : List α) (i : ℕ) (f : α → α) : List α :=
  match t[i]? with
  | some r => t.set i (f r)
  | none => t

/-- `UPDATE … WHERE p`. -/
def updateMany (t : List α) (p : ℕ → α → Bool) (f : α → α) : List α :=
  t.mapIdx fun i r => if p i r then f r else r

/-- `SELECT … WHERE p`, with the identifiers. -/
def findMany (t : List α) (p : ℕ → α → Bool) : List (ℕ × α) :=
  (t.mapIdx Prod.mk).filter fun x => p x.1 x.2

/-- The first row that satisfies `p`, with its identifier. -/
def findFirst (t : List α) (p : α → Bool) : Option (ℕ × α) :=
  (findMany t fun _ => p).head?

variable {i : ℕ} {p : α → Bool} {f : α → α}

theorem claim_eq_some {t t' : List α} :
    claim t i p f = some t' ↔ ∃ r, t[i]? = some r ∧ p r ∧ t.set i (f r) = t' := by
  unfold claim
  cases t[i]? <;> simp

variable {t : List α}

theorem claim_eq_none : claim t i p f = none ↔ ∀ r, t[i]? = some r → p r = false := by
  unfold claim
  cases t[i]? <;> simp

variable {r : α}

theorem update_of_some (hr : t[i]? = some r) (f : α → α) : update t i f = t.set i (f r) := by
  simp [update, hr]

theorem update_of_none (hr : t[i]? = none) (f : α → α) : update t i f = t := by
  simp [update, hr]

/-- An update of one row, row by row. -/
theorem getElem?_update (t : List α) (i : ℕ) (f : α → α) (j : ℕ) :
    (update t i f)[j]? = (t[j]?).map fun r => if i = j then f r else r := by
  cases hr : t[i]? with
  | none =>
    rw [update_of_none hr]
    rcases eq_or_ne i j with rfl | hne
    · simp [hr]
    · simp [hne]
  | some r =>
    rw [update_of_some hr]
    rcases eq_or_ne i j with rfl | hne
    · simp only [hr, getElem?_set_self (List.getElem?_eq_some_iff.1 hr).1, Option.map_some,
        if_true]
    · simp [hne]

@[simp]
theorem length_update (t : List α) (i : ℕ) (f : α → α) : (update t i f).length = t.length := by
  unfold update
  cases t[i]? <;> simp

/-- A conditional update of one row, row by row. -/
theorem getElem?_claim (t : List α) (i : ℕ) (p : α → Bool) (f : α → α) (j : ℕ) :
    ((claim t i p f).getD t)[j]? = (t[j]?).map fun r => if i = j ∧ p r then f r else r := by
  cases hr : t[i]? with
  | none =>
    rcases eq_or_ne i j with rfl | hne
    · simp [claim, hr]
    · simp [claim, hr, hne]
  | some r =>
    have hi := (List.getElem?_eq_some_iff.1 hr).1
    rcases eq_or_ne i j with rfl | hne
    · cases hp : p r
      · simp only [claim, hr, hp, Option.map_some]
        simp [hr]
      · simp only [claim, hr, hp, if_true, Option.getD_some, getElem?_set_self hi,
          Option.map_some, and_self]
    · cases hp : p r
      · simp only [claim, hr, hp]
        simp [hne]
      · simp only [claim, hr, hp]
        simp [hne]

/-- An update of many rows, row by row. -/
theorem getElem?_updateMany (t : List α) (p : ℕ → α → Bool) (f : α → α) (j : ℕ) :
    (updateMany t p f)[j]? = (t[j]?).map fun r => if p j r then f r else r := by
  simp [updateMany]

/-- An insertion, row by row. -/
theorem getElem?_concat_eq_some {r s : α} :
    (t ++ [r])[i]? = some s ↔ t[i]? = some s ∨ i = t.length ∧ s = r := by
  rcases lt_trichotomy i t.length with hlt | rfl | hgt
  · simp [getElem?_append_left hlt, hlt.ne]
  · simp [eq_comm]
  · have hnone : t[i]? = none := getElem?_eq_none hgt.le
    have hout : (t ++ [r])[i]? = none := getElem?_eq_none (by simp; omega)
    simp [hnone, hout, hgt.ne']

theorem mem_findMany {p : ℕ → α → Bool} : (i, r) ∈ findMany t p ↔ t[i]? = some r ∧ p i r := by
  simp only [findMany, mem_filter, mem_mapIdx, Prod.mk.injEq]
  constructor
  · rintro ⟨⟨j, hj, rfl, rfl⟩, hp⟩
    exact ⟨getElem?_eq_getElem hj, hp⟩
  · rintro ⟨hr, hp⟩
    obtain ⟨hi, rfl⟩ := List.getElem?_eq_some_iff.1 hr
    exact ⟨⟨i, hi, rfl, rfl⟩, hp⟩

/-- A selection lists each row once. -/
theorem nodup_findMany (t : List α) (p : ℕ → α → Bool) : ((findMany t p).map Prod.fst).Nodup := by
  have hids : (t.mapIdx Prod.mk).map Prod.fst = List.range t.length := by
    apply ext_getElem <;> simp
  have hsub : ((findMany t p).map Prod.fst).Sublist ((t.mapIdx Prod.mk).map Prod.fst) :=
    filter_sublist.map _
  rw [hids] at hsub
  exact hsub.nodup nodup_range

theorem findFirst_eq_some (h : findFirst t p = some (i, r)) : t[i]? = some r ∧ p r :=
  mem_findMany.1 (mem_of_mem_head? h)

theorem findFirst_eq_none (h : findFirst t p = none) (hr : t[i]? = some r) : p r = false := by
  simp only [findFirst, head?_eq_none_iff] at h
  by_contra hp
  have hmem : (i, r) ∈ findMany t fun _ => p := mem_findMany.2 ⟨hr, by simpa using hp⟩
  simp [h] at hmem

/-! ### How rows change -/

/-- Every row of `t` is still in `t'`, changed as `R` allows. -/
def Evolves (R : α → α → Prop) (t t' : List α) : Prop :=
  ∀ (i : ℕ) (r : α), t[i]? = some r → ∃ r', t'[i]? = some r' ∧ R r r'

section Evolves

variable {R : α → α → Prop} {t t' t'' : List α}

theorem Evolves.refl (hR : ∀ r, R r r) (t : List α) : Evolves R t t :=
  fun _ r hr => ⟨r, hr, hR r⟩

theorem Evolves.trans (hR : ∀ {r s u}, R r s → R s u → R r u) (h : Evolves R t t')
    (h' : Evolves R t' t'') : Evolves R t t'' := by
  intro i r hr
  obtain ⟨r', hr', hrel⟩ := h i r hr
  obtain ⟨r'', hr'', hrel'⟩ := h' i r' hr'
  exact ⟨r'', hr'', hR hrel hrel'⟩

theorem Evolves.append (hR : ∀ r, R r r) (t u : List α) : Evolves R t (t ++ u) := by
  intro i r hr
  have hi : i < t.length := (List.getElem?_eq_some_iff.1 hr).1
  exact ⟨r, by rwa [getElem?_append_left hi], hR r⟩

/-- A table that was changed row by row. -/
theorem Evolves.of_map {f : ℕ → α → α} (h : ∀ i, t'[i]? = (t[i]?).map (f i))
    (hf : ∀ i r, R r (f i r)) : Evolves R t t' := by
  intro i r hr
  exact ⟨f i r, by rw [h, hr, Option.map_some], hf i r⟩

theorem Evolves.update (hR : ∀ r, R r r) {i : ℕ} {f : α → α} (hf : ∀ r, R r (f r)) :
    Evolves R t (Table.update t i f) := by
  refine .of_map (fun j => getElem?_update t i f j) fun j r => ?_
  split
  · exact hf r
  · exact hR r

theorem Evolves.updateMany (hR : ∀ r, R r r) {p : ℕ → α → Bool} {f : α → α}
    (hf : ∀ r, R r (f r)) : Evolves R t (Table.updateMany t p f) := by
  refine .of_map (fun j => getElem?_updateMany t p f j) fun j r => ?_
  split
  · exact hf r
  · exact hR r

theorem Evolves.claim (hR : ∀ r, R r r) {i : ℕ} {p : α → Bool} {f : α → α}
    (h : Table.claim t i p f = some t') (hf : ∀ r, R r (f r)) : Evolves R t t' := by
  obtain ⟨r, hr, -, rfl⟩ := claim_eq_some.1 h
  rw [← update_of_some hr]
  exact .update hR hf

theorem Evolves.length_le (h : Evolves R t t') : t.length ≤ t'.length := by
  by_contra hlt
  push Not at hlt
  obtain ⟨r', hr', -⟩ := h t'.length t[t'.length] (getElem?_eq_getElem hlt)
  simp at hr'

end Evolves

/-- Every row of `t` is in `t'` with the same `key`. -/
def Grows (key : α → κ) (t t' : List α) : Prop :=
  Evolves (fun r r' => key r' = key r) t t'

variable {key : α → κ} {t t' t'' : List α}

theorem Grows.refl (key : α → κ) (t : List α) : Grows key t t :=
  Evolves.refl (R := fun r r' => key r' = key r) (fun _ => rfl) t

theorem Grows.trans (h : Grows key t t') (h' : Grows key t' t'') : Grows key t t'' :=
  Evolves.trans (fun {_ _ _} h h' => h'.trans h) h h'

theorem Grows.append (key : α → κ) (t u : List α) : Grows key t (t ++ u) :=
  Evolves.append (R := fun r r' => key r' = key r) (fun _ => rfl) t u

theorem Grows.claim (h : Table.claim t i p f = some t')
    (hf : ∀ r, key (f r) = key r) : Grows key t t' :=
  Evolves.claim (R := fun r r' => key r' = key r) (fun _ => rfl) h hf

theorem Grows.update (hf : ∀ r, key (f r) = key r) : Grows key t (Table.update t i f) :=
  Evolves.update (R := fun r r' => key r' = key r) (fun _ => rfl) hf

theorem Grows.updateMany {p : ℕ → α → Bool} (hf : ∀ r, key (f r) = key r) :
    Grows key t (Table.updateMany t p f) :=
  Evolves.updateMany (R := fun r r' => key r' = key r) (fun _ => rfl) hf

theorem Grows.length_le (h : Grows key t t') : t.length ≤ t'.length :=
  Evolves.length_le h

/-- The old rows come first, with their keys. -/
theorem Grows.map_take (h : Grows key t t') : (t'.take t.length).map key = t.map key := by
  apply ext_getElem?
  intro i
  rw [getElem?_map, getElem?_map, getElem?_take]
  split
  · rename_i hi
    obtain ⟨r', hr', hkey⟩ := h i t[i] (getElem?_eq_getElem hi)
    rw [hr', getElem?_eq_getElem hi, Option.map_some, Option.map_some, hkey]
  · rename_i hi
    rw [getElem?_eq_none (not_lt.1 hi)]

/-! ### Sums over a table -/

/-- The sum of a weight over the rows of a table. -/
def sumBy (w : ℕ → α → ℤ) (t : List α) : ℤ :=
  (t.mapIdx w).sum

variable {w w' : ℕ → α → ℤ}

@[simp]
theorem sumBy_nil : sumBy w ([] : List α) = 0 := rfl

@[simp]
theorem sumBy_concat (t : List α) (r : α) : sumBy w (t ++ [r]) = sumBy w t + w t.length r := by
  simp [sumBy]

theorem sumBy_congr (h : ∀ i r, t[i]? = some r → w i r = w' i r) : sumBy w t = sumBy w' t := by
  unfold sumBy
  congr 1
  apply ext_getElem?
  intro i
  cases hr : t[i]? with
  | none => simp [hr]
  | some r => simp [hr, h i r hr]

/-- New rows without a weight do not count. -/
theorem sumBy_append_of_zero {u : List α} (hu : ∀ i, ∀ r ∈ u, w i r = 0) :
    sumBy w (t ++ u) = sumBy w t := by
  induction u using reverseRecOn with
  | nil => rw [append_nil]
  | append_singleton u r ih =>
    rw [← append_assoc, sumBy_concat, hu _ r (by simp), add_zero,
      ih fun i r' hr' => hu i r' (mem_append_left _ hr')]

/-- A sum over a table that was changed row by row. -/
theorem sumBy_of_map {f : ℕ → α → α} (h : ∀ i, t'[i]? = (t[i]?).map (f i)) :
    sumBy w t' = sumBy (fun i r => w i (f i r)) t := by
  unfold sumBy
  congr 1
  apply ext_getElem?
  intro i
  cases hr : t[i]? with
  | none | some => simp [h, hr]

theorem sumBy_eq_zero (h : ∀ i r, t[i]? = some r → w i r = 0) : sumBy w t = 0 := by
  have hzero : sumBy w t = sumBy (fun _ _ => 0) t := sumBy_congr h
  rw [hzero]
  simp [sumBy, mapIdx_eq_zipIdx_map]

theorem sumBy_nonneg (h : ∀ i r, t[i]? = some r → 0 ≤ w i r) : 0 ≤ sumBy w t := by
  induction t using reverseRecOn with
  | nil => exact le_rfl
  | append_singleton t r ih =>
    rw [sumBy_concat]
    refine add_nonneg (ih fun i s hs => h i s ?_) (h _ r (getElem?_concat_eq_some.2 (.inr ⟨rfl, rfl⟩)))
    exact getElem?_concat_eq_some.2 (.inl hs)

theorem sumBy_add : sumBy (fun i r => w i r + w' i r) t = sumBy w t + sumBy w' t := by
  induction t using reverseRecOn with
  | nil => rfl
  | append_singleton t r ih => simp only [sumBy_concat, ih]; ring

/-- Only the row `a` has a weight. -/
theorem sumBy_single {a : ℕ} (hr : t[a]? = some r) :
    sumBy (fun i r => if i = a then w i r else 0) t = w a r := by
  induction t using reverseRecOn with
  | nil => simp at hr
  | append_singleton t s ih =>
    rw [sumBy_concat]
    rcases lt_trichotomy a t.length with hlt | rfl | hgt
    · rw [getElem?_append_left hlt] at hr
      rw [ih hr, if_neg hlt.ne', add_zero]
    · obtain rfl : s = r := by simpa using hr
      rw [if_pos rfl, sumBy_eq_zero, zero_add]
      intro i r hi
      exact if_neg (List.getElem?_eq_some_iff.1 hi).1.ne
    · rw [getElem?_eq_none (by simp; omega)] at hr
      cases hr

/-- Overwriting a row exchanges its weight. -/
theorem sumBy_set (hr : t[i]? = some r) (r' : α) :
    sumBy w (t.set i r') = sumBy w t - w i r + w i r' := by
  have hset : sumBy w (t.set i r') =
      sumBy (fun j s => w j s + if j = i then w i r' - w j s else 0) t := by
    unfold sumBy
    congr 1
    apply ext_getElem?
    intro j
    rcases eq_or_ne i j with rfl | hne
    · simp [(List.getElem?_eq_some_iff.1 hr).1]
    · cases hj : t[j]? <;> simp [hne, hne.symm, hj]
  rw [hset, sumBy_add, sumBy_single (w := fun j s => w i r' - w j s) hr]
  ring

/-- A sum over a list of distinct identifiers, row by row. -/
theorem sumBy_mem {ids : List ℕ} (hids : ids.Nodup) {v : ℕ → ℤ}
    (hv : ∀ a ∈ ids, ∃ r, t[a]? = some r ∧ w a r = v a) :
    sumBy (fun i r => if i ∈ ids then w i r else 0) t = (ids.map v).sum := by
  induction ids with
  | nil => simpa using sumBy_eq_zero (w := fun _ _ => 0) fun _ _ _ => rfl
  | cons a ids ih =>
    obtain ⟨hnot, hids⟩ := nodup_cons.1 hids
    have hsplit : sumBy (fun i r => if i ∈ a :: ids then w i r else 0) t =
        sumBy (fun i r => if i = a then w i r else 0) t +
          sumBy (fun i r => if i ∈ ids then w i r else 0) t := by
      rw [← sumBy_add]
      refine sumBy_congr fun i r _ => ?_
      rcases eq_or_ne i a with rfl | hne
      · simp [hnot]
      · simp [hne]
    obtain ⟨r, hr, hwr⟩ := hv a mem_cons_self
    rw [hsplit, sumBy_single hr, ih hids fun b hb => hv b (mem_cons_of_mem a hb),
      map_cons, sum_cons, hwr]

/-! ### Counting rows -/

variable {p q : ℕ → α → Bool}

theorem findMany_concat (t : List α) (r : α) (p : ℕ → α → Bool) :
    findMany (t ++ [r]) p = findMany t p ++ if p t.length r then [(t.length, r)] else [] := by
  simp only [findMany, mapIdx_concat, filter_append]
  congr 1
  cases hp : p t.length r <;> simp [hp]

/-- Which rows a selection finds depends on what it looks at only. -/
theorem map_fst_findMany (t : List α) (key : α → κ) (p : ℕ → κ → Bool) :
    (findMany t fun i r => p i (key r)).map Prod.fst = (findMany (t.map key) p).map Prod.fst := by
  induction t using reverseRecOn with
  | nil => rfl
  | append_singleton t r ih =>
    rw [map_append, map_singleton, findMany_concat, findMany_concat, map_append,
      map_append, ih, length_map]
    cases p t.length (key r) <;> rfl

/-- A count is a sum of ones. -/
theorem length_findMany (t : List α) (p : ℕ → α → Bool) :
    ((findMany t p).length : ℤ) = sumBy (fun i r => if p i r then 1 else 0) t := by
  induction t using reverseRecOn with
  | nil => rfl
  | append_singleton t r ih =>
    rw [findMany_concat, length_append, sumBy_concat, Nat.cast_add, ih]
    cases hp : p t.length r <;> simp

theorem length_findMany_congr (h : ∀ i r, t[i]? = some r → p i r = q i r) :
    (findMany t p).length = (findMany t q).length := by
  have hsum : ((findMany t p).length : ℤ) = (findMany t q).length := by
    rw [length_findMany, length_findMany]
    exact sumBy_congr fun i r hr => by rw [h i r hr]
  exact_mod_cast hsum

/-- A count over a table that was changed row by row. -/
theorem length_findMany_of_map {f : ℕ → α → α} (h : ∀ i, t'[i]? = (t[i]?).map (f i))
    (p : ℕ → α → Bool) :
    (findMany t' p).length = (findMany t fun i r => p i (f i r)).length := by
  have hsum : ((findMany t' p).length : ℤ) = (findMany t fun i r => p i (f i r)).length := by
    rw [length_findMany, length_findMany, sumBy_of_map h]
  exact_mod_cast hsum

end Table
