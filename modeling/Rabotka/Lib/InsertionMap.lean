import Mathlib.Algebra.BigOperators.Group.List.Basic
import Mathlib.Algebra.GroupWithZero.Nat
import Mathlib.Data.List.Induction
import Mathlib.Data.List.Lookmap
import Mathlib.Data.List.Nodup

/-!
# Maps that remember the order of insertion

A map as the list of its entries, in the order in which the keys were first set: setting a key that
is there changes its value in place, setting a new one appends it.

* `get_set`, `keys_set`: what setting a key does to the values and to the order.
* `nodup_keys_set`: a map never has a key twice.
* `perm_of_get_eq`: maps without repeated keys that answer alike have the same entries.
* `update`, `get_foldl_update`, `keys_foldl_update`: a run of updates, each of which computes the
  new value of a key from its old one.
-/

namespace Rabotka.Lib.InsertionMap

open List

variable {κ β : Type*} [DecidableEq κ]

/-- The value of a key. -/
def get : List (κ × β) → κ → Option β
  | [], _ => none
  | e :: m, k => if e.1 = k then some e.2 else get m k

/-- Set a key: in place if it is there, at the end otherwise. -/
def set : List (κ × β) → κ → β → List (κ × β)
  | [], k, v => [(k, v)]
  | e :: m, k, v => if e.1 = k then (k, v) :: m else e :: set m k v

/-- The keys, in the order of insertion. -/
def keys (m : List (κ × β)) : List κ :=
  m.map Prod.fst

variable {m n : List (κ × β)} {k l : κ} {v : β}

omit [DecidableEq κ] in
@[simp] theorem keys_nil : keys ([] : List (κ × β)) = [] := rfl

omit [DecidableEq κ] in
@[simp] theorem keys_cons (e : κ × β) : keys (e :: m) = e.1 :: keys m := rfl

@[simp] theorem get_nil (k : κ) : get ([] : List (κ × β)) k = none := rfl

/-- A key has a value exactly if it is there. -/
theorem get_eq_none_iff : get m k = none ↔ k ∉ keys m := by
  induction m with
  | nil => simp
  | cons e m ih =>
    rw [get, keys_cons, mem_cons]
    split_ifs with h
    · simp [h]
    · rw [ih]
      simp [Ne.symm h]

theorem isSome_get_iff : (get m k).isSome = true ↔ k ∈ keys m := by
  rw [← not_iff_not, Bool.not_eq_true, Option.isSome_eq_false_iff, Option.isNone_iff_eq_none,
    get_eq_none_iff]

/-- The value of a key is one of its entries. -/
theorem mem_of_get (h : get m k = some v) : (k, v) ∈ m := by
  induction m with
  | nil => exact nomatch h
  | cons e m ih =>
    rw [get] at h
    split_ifs at h with he
    · obtain rfl := Option.some.inj h
      rw [← he]
      exact mem_cons_self
    · exact mem_cons_of_mem _ (ih h)

/-- Without repeated keys the entries of a map are its values. -/
theorem mem_iff_get (hm : (keys m).Nodup) : (k, v) ∈ m ↔ get m k = some v := by
  refine ⟨fun h => ?_, mem_of_get⟩
  induction m with
  | nil => exact nomatch h
  | cons e m ih =>
    rw [keys_cons, nodup_cons] at hm
    rcases mem_cons.mp h with rfl | h
    · rw [get, if_pos rfl]
    · have hne : e.1 ≠ k := fun he =>
        hm.1 (he ▸ mem_map_of_mem (f := Prod.fst) h)
      rw [get, if_neg hne]
      exact ih hm.2 h

/-! ### Setting a key -/

theorem get_set : get (set m k v) l = if k = l then some v else get m l := by
  induction m with
  | nil => rfl
  | cons e m ih =>
    rw [set]
    split_ifs with he hkl hkl
    · rw [get, if_pos hkl]
    · rw [get, if_neg hkl, get, if_neg (he ▸ hkl)]
    · rw [get, if_neg (hkl ▸ he), ih, if_pos hkl]
    · rw [get, get, ih, if_neg hkl]

theorem keys_set : keys (set m k v) = if k ∈ keys m then keys m else keys m ++ [k] := by
  induction m with
  | nil => simp [set]
  | cons e m ih =>
    rw [set]
    split_ifs with he hk hk
    · rw [keys_cons, keys_cons, he]
    · exact absurd (by rw [keys_cons, he]; exact mem_cons_self) hk
    · have hmem : k ∈ keys m := (mem_cons.mp hk).resolve_left (Ne.symm he)
      rw [keys_cons, keys_cons, ih, if_pos hmem]
    · have hmem : k ∉ keys m := fun h => hk (mem_cons_of_mem _ h)
      rw [keys_cons, keys_cons, ih, if_neg hmem, cons_append]

/-- A map never gets a key twice. -/
theorem nodup_keys_set (h : (keys m).Nodup) : (keys (set m k v)).Nodup := by
  rw [keys_set]
  split_ifs with hk
  · exact h
  · rw [nodup_append]
    refine ⟨h, nodup_singleton k, fun a ha b hb => ?_⟩
    rw [mem_singleton] at hb
    rintro rfl
    exact hk (hb ▸ ha)

/-- The keys that were there keep their order. -/
theorem keys_prefix_set : keys m <+: keys (set m k v) := by
  rw [keys_set]
  split_ifs
  · exact prefix_rfl
  · exact prefix_append _ _

theorem set_of_notMem (h : k ∉ keys m) : set m k v = m ++ [(k, v)] := by
  induction m with
  | nil => rfl
  | cons e m ih =>
    rw [keys_cons, mem_cons, not_or] at h
    rw [set, if_neg (Ne.symm h.1), ih h.2, cons_append]

/-- A map that has a value for each of some keys. -/
theorem get_map {ks : List κ} {g : κ → β} :
    get (ks.map fun l => (l, g l)) k = if k ∈ ks then some (g k) else none := by
  induction ks with
  | nil => rfl
  | cons l ks ih =>
    rw [map_cons, get, ih]
    rcases eq_or_ne l k with rfl | hne
    · simp
    · simp [hne, hne.symm]

theorem set_map {ks : List κ} {g : κ → β} (hks : ks.Nodup) (hk : k ∈ ks) :
    set (ks.map fun l => (l, g l)) k v = ks.map fun l => (l, if k = l then v else g l) := by
  induction ks with
  | nil => exact absurd hk not_mem_nil
  | cons l ks ih =>
    obtain ⟨hl, hks⟩ := nodup_cons.mp hks
    rw [map_cons, map_cons, set]
    rcases eq_or_ne l k with rfl | hne
    · rw [if_pos rfl, if_pos rfl]
      refine congrArg _ (map_congr_left fun x hx => ?_)
      rw [if_neg fun h : l = x => hl (h ▸ hx)]
    · rw [if_neg hne, if_neg hne.symm, ih hks ((mem_cons.mp hk).resolve_left hne.symm)]

/-- Maps that answer alike have the same entries. -/
theorem perm_of_get_eq (hm : (keys m).Nodup) (hn : (keys n).Nodup)
    (h : ∀ k, get m k = get n k) : m.Perm n := by
  refine (perm_ext_iff_of_nodup hm.of_map hn.of_map).mpr fun e => ?_
  rw [mem_iff_get hm, mem_iff_get hn, h]

/-! ### Runs of updates -/

/-- Compute the new value of a key from its old one. -/
def update {γ : Type*} (f : Option β → γ → β) (m : List (κ × β)) (x : κ × γ) : List (κ × β) :=
  set m x.1 (f (get m x.1) x.2)

/-- The values given to a key, in their order. -/
def given {γ : Type*} (xs : List (κ × γ)) (k : κ) : List γ :=
  (xs.filter fun x => decide (x.1 = k)).map Prod.snd

variable {γ : Type*} {f : Option β → γ → β} {xs : List (κ × γ)}

theorem given_cons (x : κ × γ) :
    given (x :: xs) k = if x.1 = k then x.2 :: given xs k else given xs k := by
  rw [given, given]
  split_ifs with h
  · rw [filter_cons_of_pos (by simpa using h), map_cons]
  · rw [filter_cons_of_neg (by simpa using h)]

/-- The value of a key after a run, folded from its old value over what it was given. -/
theorem get_foldl_update : get (xs.foldl (update f) m) k
      = (given xs k).foldl (fun old x => some (f old x)) (get m k) := by
  induction xs generalizing m with
  | nil => rfl
  | cons x xs ih =>
    rw [foldl_cons, ih, update, get_set]
    by_cases hx : x.1 = k
    · rw [if_pos hx, given_cons, if_pos hx, foldl_cons, hx]
    · rw [if_neg hx, given_cons, if_neg hx]

theorem nodup_keys_foldl_update (h : (keys m).Nodup) : (keys (xs.foldl (update f) m)).Nodup := by
  induction xs generalizing m with
  | nil => exact h
  | cons x xs ih => exact ih (nodup_keys_set h)

/-- A run keeps the order of the keys that were there. -/
theorem keys_prefix_foldl_update : keys m <+: keys (xs.foldl (update f) m) := by
  induction xs generalizing m with
  | nil => exact prefix_rfl
  | cons x xs ih => exact keys_prefix_set.trans ih

/-- After a run exactly the old keys and the given ones are there. -/
theorem mem_keys_foldl_update :
    k ∈ keys (xs.foldl (update f) m) ↔ k ∈ keys m ∨ k ∈ xs.map Prod.fst := by
  induction xs generalizing m with
  | nil => simp
  | cons x xs ih =>
    have hset : k ∈ keys (set m x.1 (f (get m x.1) x.2)) ↔ k ∈ keys m ∨ k = x.1 := by
      rw [keys_set]
      split_ifs with h
      · exact ⟨Or.inl, fun hk => hk.elim id fun he => he ▸ h⟩
      · simp
    rw [foldl_cons, ih, update, hset, map_cons, mem_cons, or_assoc]

/-- The keys stand in the order in which they were first given. -/
theorem pairwise_keys_foldl_update (xs : List (κ × γ)) :
    (keys (xs.foldl (update f) [])).Pairwise fun k l =>
      (xs.map Prod.fst).idxOf k < (xs.map Prod.fst).idxOf l := by
  induction xs using reverseRecOn with
  | nil => exact List.Pairwise.nil
  | append_singleton xs x ih =>
    have hmem : ∀ k, k ∈ keys (xs.foldl (update f) []) ↔ k ∈ xs.map Prod.fst := fun k => by
      rw [mem_keys_foldl_update]
      simp
    have hold : (keys (xs.foldl (update f) [])).Pairwise fun k l =>
        ((xs ++ [x]).map Prod.fst).idxOf k < ((xs ++ [x]).map Prod.fst).idxOf l := by
      refine ih.imp_of_mem fun {k l} hk hl h => ?_
      rwa [map_append, idxOf_append_of_mem ((hmem k).mp hk), idxOf_append_of_mem ((hmem l).mp hl)]
    rw [foldl_append, foldl_cons, foldl_nil, update, keys_set]
    split_ifs with hx
    · exact hold
    · refine pairwise_append.mpr ⟨hold, pairwise_singleton _ _, fun k hk l hl => ?_⟩
      rw [mem_singleton.mp hl, map_append, idxOf_append_of_mem ((hmem k).mp hk),
        idxOf_append_of_notMem fun h => hx ((hmem _).mpr h)]
      exact Nat.lt_add_right _ (idxOf_lt_length_of_mem ((hmem k).mp hk))

/-! ### Counts -/

omit [DecidableEq κ] in
theorem sum_map_indicator [BEq κ] [LawfulBEq κ] {keys : List κ} (hkeys : keys.Nodup) (k : κ) :
    (keys.map fun l => if k == l then 1 else 0).sum = if keys.contains k then 1 else 0 := by
  induction keys with
  | nil => rfl
  | cons l keys ih =>
    obtain ⟨hl, hkeys⟩ := nodup_cons.mp hkeys
    rw [map_cons, sum_cons, ih hkeys]
    by_cases h : k = l
    · subst h
      simp [hl]
    · simp [h]

omit [DecidableEq κ] in
/-- The counts of some keys sum to the number of those that have one of them. -/
theorem sum_map_count [BEq κ] [LawfulBEq κ] {keys : List κ} (hkeys : keys.Nodup) (l : List κ) :
    (keys.map fun k => l.count k).sum = l.countP keys.contains := by
  induction l with
  | nil => simp
  | cons x l ih =>
    simp only [count_cons, sum_map_add, ih, sum_map_indicator hkeys x, countP_cons]

end Rabotka.Lib.InsertionMap
