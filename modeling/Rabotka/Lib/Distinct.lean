import Mathlib.Data.Finset.Card
import Rabotka.Lib.Trim

/-!
# Keeping the first of each key

A list that is filled one element at a time, leaving out what has the key of an element that is
there (`addNew`). The keys are the keys of the input without their repetitions
(`map_foldl_addNew`), a longer input only adds at the end (`prefix_foldl_addNew`), and a key is
among the first `n` exactly if fewer than `n` different ones come before it
(`mem_take_eraseDups_iff`).
-/

namespace Rabotka.Lib.Distinct

variable {α κ : Type*} [DecidableEq κ] {key : α → κ} {out xs ys : List α}

/-- Append an element whose key is new. -/
def addNew (key : α → κ) (out : List α) (x : α) : List α :=
  if key x ∈ out.map key then out else out ++ [x]

theorem addNew_of_mem {x : α} (h : key x ∈ out.map key) : addNew key out x = out := if_pos h

theorem addNew_of_not_mem {x : α} (h : key x ∉ out.map key) : addNew key out x = out ++ [x] :=
  if_neg h

/-- What is there stays in front. -/
theorem prefix_foldl_addNew (key : α → κ) (out xs : List α) :
    out <+: xs.foldl (addNew key) out := by
  induction xs generalizing out with
  | nil => exact List.prefix_rfl
  | cons x xs ih =>
    refine List.IsPrefix.trans ?_ (ih _)
    rw [addNew]
    split_ifs
    · exact List.prefix_rfl
    · exact List.prefix_append _ _

/-- Adding an element to a list changes what is left of it without repetitions as `addNew` does. -/
theorem eraseDups_snoc (l : List κ) (k : κ) :
    (l ++ [k]).eraseDups = if k ∈ l then l.eraseDups else l.eraseDups ++ [k] := by
  rw [List.eraseDups_append]
  split_ifs with h
  · simp [List.removeAll, h]
  · simp [List.removeAll, h, List.eraseDups_cons]

/-- The keys of the filled list. -/
theorem map_foldl_addNew (key : α → κ) (xs ys : List α) :
    (ys.foldl (addNew key) (xs.foldl (addNew key) [])).map key
      = (xs.map key ++ ys.map key).eraseDups := by
  rw [← List.foldl_append, ← List.map_append]
  generalize xs ++ ys = l
  induction l using List.reverseRecOn with
  | nil => rfl
  | append_singleton l x ih =>
    rw [List.foldl_append, List.foldl_cons, List.foldl_nil, List.map_append, List.map_cons,
      List.map_nil, eraseDups_snoc, ← ih]
    by_cases h : key x ∈ l.map key
    · have hmem : key x ∈ (l.foldl (addNew key) []).map key := by
        rw [ih]
        exact List.mem_eraseDups.mpr h
      rw [addNew_of_mem hmem, if_pos h]
    · have hmem : key x ∉ (l.foldl (addNew key) []).map key := by
        rw [ih]
        exact fun hx => h (List.mem_eraseDups.mp hx)
      rw [addNew_of_not_mem hmem, if_neg h, List.map_append, List.map_cons, List.map_nil]

/-! ### The first keys -/

/-- A list without its repetitions has as many elements as it has different ones. -/
theorem length_eraseDups (l : List κ) : l.eraseDups.length = l.toFinset.card := by
  rw [← List.toFinset_card_of_nodup (Trim.nodup_eraseDups l)]
  congr 1
  ext k
  simp [List.mem_eraseDups]

/-- A key is among the first `n` if and only if fewer than `n` different ones come before it. -/
theorem mem_take_eraseDups_iff {l : List κ} {k : κ} {n : ℕ} :
    k ∈ l.eraseDups.take n ↔ ∃ before after, l = before ++ k :: after
      ∧ before.toFinset.card < n := by
  constructor
  · intro h
    obtain ⟨before, after, rfl, hnew⟩ :=
      List.eq_append_cons_of_mem (List.mem_eraseDups.mp (List.mem_of_mem_take h))
    refine ⟨before, after, rfl, ?_⟩
    rw [← length_eraseDups]
    by_contra hn
    -- Cut before the key, the list does not have it.
    rw [List.eraseDups_append, List.take_append_of_le_length (not_lt.mp hn)] at h
    exact hnew (List.mem_eraseDups.mp (List.mem_of_mem_take h))
  · rintro ⟨before, after, rfl, hn⟩
    rw [← length_eraseDups] at hn
    rw [List.append_cons, List.eraseDups_append]
    refine List.mem_of_mem_take (i := (before ++ [k]).eraseDups.length) ?_
    rw [List.take_take]
    by_cases hmem : k ∈ before
    · rw [eraseDups_snoc, if_pos hmem, min_eq_left hn.le, List.take_append_of_le_length le_rfl,
        List.take_length]
      exact List.mem_eraseDups.mpr hmem
    · have hlength : (before ++ [k]).eraseDups.length ≤ n := by
        rw [eraseDups_snoc, if_neg hmem, List.length_append]
        exact hn
      rw [min_eq_left hlength, List.take_append_of_le_length le_rfl, List.take_length]
      exact List.mem_eraseDups.mpr (by simp)

end Rabotka.Lib.Distinct

/-!
## The first entries of a stable sort

What a list keeps when it is sorted and cut. A stable sort puts an entry before another where the
order says so or, among entries that tie, where it stood before it (`Ahead`). So an entry is among
the first `n` exactly if fewer than `n` entries are ahead of it (`mem_take_mergeSort_iff`).

How the entries stood is given by any relation `before` that holds along the list.
-/

namespace Rabotka.Lib.Ranked

open List

variable {α : Type*} {r : α → α → Prop} {l : List α} {x y : α} {n : ℕ}

/-- Two entries stand in one order or the other. -/
theorem pair_sublist_or (hx : x ∈ l) (hy : y ∈ l) (hne : x ≠ y) :
    [x, y].Sublist l ∨ [y, x].Sublist l := by
  induction l with
  | nil => exact nomatch hx
  | cons c l ih =>
    rcases mem_cons.mp hx with rfl | hx'
    · have hmem : y ∈ l := (mem_cons.mp hy).resolve_left hne.symm
      exact Or.inl ((singleton_sublist.mpr hmem).cons_cons x)
    · rcases mem_cons.mp hy with rfl | hy'
      · exact Or.inr ((singleton_sublist.mpr hx').cons_cons y)
      · exact (ih hx' hy').imp (fun h => h.cons c) fun h => h.cons c

/-- Without repetitions they do not stand in both. -/
theorem pair_sublist_asymm (hl : l.Nodup) (h : [x, y].Sublist l) : ¬ [y, x].Sublist l := by
  induction l with
  | nil => exact nomatch h
  | cons c l ih =>
    intro h'
    obtain ⟨hc, hl⟩ := nodup_cons.mp hl
    rcases sublist_cons_iff.mp h with h | ⟨r, hr, h⟩
    · rcases sublist_cons_iff.mp h' with h' | ⟨r, hr', -⟩
      · exact ih hl h h'
      · exact hc ((List.cons.inj hr').1 ▸ h.subset (by simp))
    · rcases sublist_cons_iff.mp h' with h' | ⟨r', hr', h'⟩
      · exact hc ((List.cons.inj hr).1 ▸ h'.subset (by simp))
      · have hxy : x = y := (List.cons.inj hr).1.trans (List.cons.inj hr').1.symm
        have hmem : y ∈ l := h.subset (by rw [← (List.cons.inj hr).2]; simp)
        exact hc ((List.cons.inj hr').1 ▸ hmem)

/-- In a list along which an asymmetric relation holds, the first `n` entries are those with fewer
than `n` related to them. -/
theorem mem_take_iff [DecidableRel r] (hl : l.Pairwise r) (hr : ∀ a b, r a b → ¬ r b a)
    (hx : x ∈ l) : x ∈ l.take n ↔ l.countP (fun y => r y x) < n := by
  obtain ⟨l₁, l₂, rfl⟩ := append_of_mem hx
  obtain ⟨-, hright, hcross⟩ := pairwise_append.mp hl
  have hbefore : ∀ y ∈ l₁, r y x := fun y hy => hcross y hy x mem_cons_self
  have hafter : ∀ y ∈ x :: l₂, ¬ r y x := by
    intro y hy
    rcases mem_cons.mp hy with rfl | hy
    · exact fun h => hr _ _ h h
    · exact hr _ _ ((pairwise_cons.mp hright).1 y hy)
  have hcount : (l₁ ++ x :: l₂).countP (fun y => r y x) = l₁.length := by
    rw [countP_append, countP_eq_length.mpr (by simpa using hbefore),
      countP_eq_zero.mpr (by simpa using hafter), Nat.add_zero]
  have hnotMem : x ∉ l₁ := fun h => hafter x mem_cons_self (hbefore x h)
  rw [hcount]
  rcases lt_or_ge l₁.length n with h | h
  · refine iff_of_true ?_ h
    rw [take_append, take_of_length_le h.le]
    obtain ⟨m, hm⟩ : ∃ m, n - l₁.length = m + 1 := ⟨n - l₁.length - 1, by omega⟩
    rw [hm, take_succ_cons]
    exact mem_append_right _ mem_cons_self
  · refine iff_of_false (fun hmem => hnotMem ?_) (not_lt.mpr h)
    rw [take_append_of_le_length h] at hmem
    exact mem_of_mem_take hmem

/-! ### Sorting -/

variable {le : α → α → Bool} {before : α → α → Prop}

/-- `x` goes before `y` in the sorted list. -/
def Ahead (le : α → α → Bool) (before : α → α → Prop) (x y : α) : Prop :=
  le y x = false ∨ le x y = true ∧ before x y

instance [DecidableRel before] : DecidableRel (Ahead le before) :=
  fun _ _ => inferInstanceAs (Decidable (_ ∨ _ ∧ _))

theorem Ahead.asymm (total : ∀ a b, le a b || le b a)
    (hbefore : ∀ a b, before a b → ¬ before b a) (h : Ahead le before x y) :
    ¬ Ahead le before y x := by
  have htotal := total x y
  rintro (h' | ⟨hle, hyx⟩)
  · rcases h with h | ⟨hle, -⟩
    · rw [h, h'] at htotal
      exact nomatch htotal
    · rw [h'] at hle
      exact nomatch hle
  · rcases h with h | ⟨-, hxy⟩
    · rw [h] at hle
      exact nomatch hle
    · exact hbefore _ _ hxy hyx

variable (trans : ∀ a b c, le a b → le b c → le a c) (total : ∀ a b, le a b || le b a)

include trans total

/-- The sorted list goes by the order, and by how the entries stood where they tie. -/
theorem pairwise_ahead_mergeSort (hl : l.Pairwise before) (hnodup : l.Nodup) :
    (l.mergeSort le).Pairwise (Ahead le before) := by
  have hperm := mergeSort_perm l le
  have hsorted : (l.mergeSort le).Nodup := hperm.nodup_iff.mpr hnodup
  refine pairwise_iff_forall_sublist.mpr fun {x y} hxy => ?_
  have hle : le x y = true :=
    (pairwise_mergeSort trans total l).forall_sublist hxy
  have hne : x ≠ y := hsorted.forall_sublist hxy
  rcases hlt : le y x with _ | _
  · exact Or.inl hlt
  · -- The two tie, so the other order in the list would be kept.
    refine Or.inr ⟨hle, ?_⟩
    have hx : x ∈ l := hperm.mem_iff.mp (hxy.subset (by simp))
    have hy : y ∈ l := hperm.mem_iff.mp (hxy.subset (by simp))
    rcases pair_sublist_or hx hy hne with h | h
    · exact hl.forall_sublist h
    · exact absurd (pair_sublist_mergeSort trans total hlt h) (pair_sublist_asymm hsorted hxy)

/-- An entry is kept by the cut if and only if fewer than `n` entries are ahead of it. -/
theorem mem_take_mergeSort_iff [DecidableRel before] (hbefore : ∀ a b, before a b → ¬ before b a)
    (hl : l.Pairwise before) (hnodup : l.Nodup) (hx : x ∈ l) :
    x ∈ (l.mergeSort le).take n ↔ l.countP (fun y => Ahead le before y x) < n := by
  have hperm := mergeSort_perm l le
  rw [mem_take_iff (pairwise_ahead_mergeSort trans total hl hnodup)
    (fun a b => Ahead.asymm total hbefore) (hperm.mem_iff.mpr hx), hperm.countP_eq]

end Rabotka.Lib.Ranked
