import Mathlib.Data.List.Sort
import Mathlib.Data.Prod.Lex

/-!
# Keyset paging

Rows are read page by page in the order of a key, and a page is resumed after the position of
its last row: its key, and a second column that tells rows with the same key apart. The reader
may order rows with the same key as it likes, differently on every page.

Every walk over the pages ends. It reads every row exactly once whenever no page but the last
ends with a row whose key another row has (`walk_perm`), and only then, as a reader that puts
the later of such rows first shows (`parted_of_walk`).
-/

namespace Keyset

open List

variable {α K I : Type*} [LinearOrder K] [LinearOrder I]

/-- Rows with their two columns; the second one tells them apart. -/
structure Rows (α K I : Type*) where
  rows : List α
  key : α → K
  tie : α → I
  nodup : (rows.map tie).Nodup

namespace Rows

variable (R : Rows α K I)

/-- The position of a row: its key, then the second column. -/
def position (a : α) : K ×ₗ I := toLex (R.key a, R.tie a)

/-- The rows after a position; all of them without one. -/
def after (c : Option (K ×ₗ I)) : List α :=
  R.rows.filter fun a => c.all fun p => decide (p < R.position a)

/-- A reader answers with the rows after a position, in the order of their keys. -/
def Reads (answer : Option (K ×ₗ I) → List α) : Prop :=
  ∀ c, (answer c).Perm (R.after c) ∧ (answer c).Pairwise fun a b => R.key a ≤ R.key b

/-- The pages from a position on, if they come to an end within some number of pages. -/
def walk (answer : Option (K ×ₗ I) → List α) (limit : ℕ) :
    ℕ → Option (K ×ₗ I) → Option (List (List α))
  | 0, _ => none
  | n + 1, c =>
    if limit < (answer c).length then
      match ((answer c).take limit).getLast? with
      | none => some [(answer c).take limit]
      | some a => (walk answer limit n (some (R.position a))).map ((answer c).take limit :: ·)
    else some [answer c]

/-- No page but the last ends with a row whose key another row has. -/
def Parted (limit : ℕ) (D : List α) : Prop :=
  ∀ i a, 0 < i → i * limit < D.length → D[i * limit - 1]? = some a →
    ∀ b ∈ D, R.key b = R.key a → b = a

variable {R} {answer : Option (K ×ₗ I) → List α} {limit : ℕ} {a b : α}
  {c : Option (K ×ₗ I)} {D : List α}

theorem mem_after : a ∈ R.after c ↔ a ∈ R.rows ∧ ∀ p ∈ c, p < R.position a := by
  rw [after, mem_filter]
  cases c with
  | none | some => simp

omit [LinearOrder K] [LinearOrder I] in
theorem nodup_rows : R.rows.Nodup := Nodup.of_map _ R.nodup

omit [LinearOrder K] [LinearOrder I] in
theorem eq_of_tie (ha : a ∈ R.rows) (hb : b ∈ R.rows) (h : R.tie a = R.tie b) : a = b :=
  inj_on_of_nodup_map R.nodup ha hb h

theorem position_lt : R.position a < R.position b ↔
    R.key a < R.key b ∨ R.key a = R.key b ∧ R.tie a < R.tie b :=
  Prod.Lex.toLex_lt_toLex

theorem key_le_of_position_lt (h : R.position a < R.position b) : R.key a ≤ R.key b := by
  rcases position_lt.1 h with h | h
  · exact h.le
  · exact h.1.le

/-- The rows after a row that is itself after a position. -/
theorem after_of_mem (h : a ∈ R.after c) :
    R.after (some (R.position a)) = (R.after c).filter fun b => R.position a < R.position b := by
  rw [after, after, filter_filter]
  refine filter_congr fun b _ => ?_
  rw [Option.all_some, Bool.eq_iff_iff, Bool.and_eq_true, decide_eq_true_eq]
  refine ⟨fun hb => ⟨hb, ?_⟩, fun hb => hb.1⟩
  rw [Option.all_eq_true]
  intro p hp
  exact decide_eq_true ((mem_after.1 h).2 p (by simpa using hp) |>.trans hb)

/-! ### Sorted rows -/

/-- The rows in a given order of position. -/
def Sorted (R : Rows α K I) (D : List α) : Prop :=
  D.Pairwise fun a b => R.position a < R.position b

theorem Sorted.nodup (h : R.Sorted D) : D.Nodup :=
  List.Pairwise.imp (fun hlt heq => (heq ▸ hlt).false) h

/-- What is after the last row of a first page of sorted rows. -/
theorem Sorted.filter_eq_drop (h : R.Sorted D) (hlimit : 0 < limit) (ha : D[limit - 1]? = some a) :
    (D.filter fun b => R.position a < R.position b) = D.drop limit := by
  obtain ⟨hlt, hget⟩ := List.getElem?_eq_some_iff.1 ha
  have hpairs := pairwise_iff_getElem.1 h
  have hsplit := filter_append (p := fun b => decide (R.position a < R.position b))
    (D.take limit) (D.drop limit)
  rw [take_append_drop] at hsplit
  have hnone : (D.take limit).filter (fun b => R.position a < R.position b) = [] := by
    refine filter_eq_nil_iff.2 fun b hb => ?_
    rw [decide_eq_true_eq, not_lt]
    obtain ⟨i, hi, rfl⟩ := getElem_of_mem hb
    rw [getElem_take, ← hget]
    rw [length_take] at hi
    rcases Nat.lt_or_ge i (limit - 1) with hlater | hlast
    · exact (hpairs i (limit - 1) (by omega) hlt hlater).le
    · have hi' : i = limit - 1 := by omega
      subst hi'
      exact le_rfl
  have hall : (D.drop limit).filter (fun b => R.position a < R.position b) = D.drop limit := by
    refine filter_eq_self.2 fun b hb => ?_
    rw [decide_eq_true_eq]
    obtain ⟨i, hi, rfl⟩ := getElem_of_mem hb
    rw [getElem_drop, ← hget]
    rw [length_drop] at hi
    exact hpairs (limit - 1) (limit + i) hlt (by omega) (by omega)
  rw [hsplit, hnone, hall, nil_append]

omit [LinearOrder K] [LinearOrder I] in
/-- The rows after the first page. -/
theorem Parted.drop (h : R.Parted limit D) : R.Parted limit (D.drop limit) := by
  intro i a hi hlength ha b hb heq
  rw [length_drop] at hlength
  rw [getElem?_drop] at ha
  rcases Nat.eq_zero_or_pos limit with rfl | hlimit
  · exact h i a hi (by omega) (by simpa using ha) b (mem_of_mem_drop hb) heq
  · have hpos : 0 < i * limit := Nat.mul_pos hi hlimit
    have hindex : limit + (i * limit - 1) = (i + 1) * limit - 1 := by
      rw [Nat.succ_mul]
      omega
    refine h (i + 1) a (Nat.succ_pos i) ?_ (hindex ▸ ha) b (mem_of_mem_drop hb) heq
    rw [Nat.succ_mul]
    omega

variable {M : List α}

/-- Two orders of the same rows by key have the same keys at each place. -/
theorem key_getElem? (hperm : M.Perm D)
    (hM : M.Pairwise fun a b => R.key a ≤ R.key b) (hD : R.Sorted D) (i : ℕ) :
    M[i]?.map R.key = D[i]?.map R.key := by
  have hkeys : M.map R.key = D.map R.key := by
    refine (hperm.map R.key).eq_of_pairwise (fun a b _ _ => le_antisymm)
      (pairwise_map.2 hM) (pairwise_map.2 (hD.imp key_le_of_position_lt))
  rw [← getElem?_map, ← getElem?_map, hkeys]

/-- A first page, in any order of equal keys, has the rows it should have, and ends with the last
of them, when that row's key is its own. -/
theorem first_page (hperm : M.Perm D)
    (hM : M.Pairwise fun a b => R.key a ≤ R.key b) (hD : R.Sorted D) (hlimit : 0 < limit)
    (ha : D[limit - 1]? = some a) (halone : ∀ b ∈ D, R.key b = R.key a → b = a) :
    M[limit - 1]? = some a ∧ (M.take limit).Perm (D.take limit) := by
  have hkey := key_getElem? hperm hM hD (limit - 1)
  rw [ha, Option.map_some, Option.map_eq_some_iff] at hkey
  obtain ⟨b, hb, hbkey⟩ := hkey
  have hmem : b ∈ D := hperm.subset (mem_of_getElem? hb)
  obtain rfl := halone b hmem hbkey
  refine ⟨hb, ?_⟩
  have hnodup : M.Nodup := hperm.nodup_iff.2 hD.nodup
  have hlength : (M.take limit).length = (D.take limit).length := by
    rw [length_take, length_take, hperm.length_eq]
  refine List.Subperm.perm_of_length_le (subperm_of_subset
    (hnodup.sublist (take_sublist _ _)) fun x hx => ?_) hlength.ge
  -- a row before the last one has a smaller key, or is the last one
  have hxD : x ∈ D := hperm.subset (mem_of_mem_take hx)
  rcases mem_append.1 ((take_append_drop limit D).symm ▸ hxD) with hx' | hx'
  · exact hx'
  · rw [← hD.filter_eq_drop hlimit ha, mem_filter, decide_eq_true_eq] at hx'
    have hle : R.key x ≤ R.key b := by
      obtain ⟨i, hi, rfl⟩ := getElem_of_mem hx
      rw [getElem_take]
      rw [length_take] at hi
      obtain ⟨hlt, hget⟩ := List.getElem?_eq_some_iff.1 hb
      rw [← hget]
      rcases Nat.lt_or_ge i (limit - 1) with hlater | hlast
      · exact pairwise_iff_getElem.1 hM i (limit - 1) (by omega) hlt hlater
      · have hi' : i = limit - 1 := by omega
        subst hi'
        exact le_rfl
    have hge := key_le_of_position_lt hx'.2
    obtain rfl := halone x hxD (le_antisymm hle hge)
    exact absurd hx'.2 (lt_irrefl _)

theorem getLast?_take (hlimit : 0 < limit) (h : limit < M.length) :
    (M.take limit).getLast? = M[limit - 1]? := by
  rw [getLast?_eq_getElem?, length_take, Nat.min_eq_left h.le, getElem?_take,
    if_pos (Nat.sub_lt hlimit Nat.one_pos)]

/-- The rows after a position are read exactly once if every page with more to come has the
rows it should have and ends with the last of them. -/
theorem walk_perm_of {P : List α → Prop} (hreads : R.Reads answer) (hlimit : 0 < limit)
    (hdrop : ∀ D, P D → P (D.drop limit))
    (hfirst : ∀ c D a, (answer c).Perm D → R.Sorted D → P D → D[limit - 1]? = some a →
      limit < D.length →
        (answer c)[limit - 1]? = some a ∧ ((answer c).take limit).Perm (D.take limit))
    {n : ℕ} (hn : D.length < n) (hafter : (R.after c).Perm D) (hD : R.Sorted D) (hP : P D) :
    ∃ pages, R.walk answer limit n c = some pages ∧ pages.flatten.Perm D := by
  induction n generalizing c D with
  | zero => omega
  | succ n ih =>
    have hperm : (answer c).Perm D := (hreads c).1.trans hafter
    rw [walk]
    by_cases hmore : limit < (answer c).length
    · rw [if_pos hmore]
      have hlength : limit < D.length := hperm.length_eq ▸ hmore
      obtain ⟨a, ha⟩ : ∃ a, D[limit - 1]? = some a :=
        ⟨_, getElem?_eq_getElem (by omega)⟩
      obtain ⟨hlast, hpage⟩ := hfirst c D a hperm hD hP ha hlength
      rw [getLast?_take hlimit hmore, hlast]
      have hmem : a ∈ R.after c := hafter.mem_iff.2 (mem_of_getElem? ha)
      have hnext : (R.after (some (R.position a))).Perm (D.drop limit) := by
        rw [after_of_mem hmem, ← hD.filter_eq_drop hlimit ha]
        exact hafter.filter _
      obtain ⟨pages, hpages, hflatten⟩ := ih (by rw [length_drop]; omega) hnext
        (hD.sublist (drop_sublist _ _)) (hdrop D hP)
      refine ⟨(answer c).take limit :: pages, by simp only [hpages, Option.map_some], ?_⟩
      rw [flatten_cons, ← take_append_drop limit D]
      exact hpage.append hflatten
    · rw [if_neg hmore]
      exact ⟨[answer c], rfl, by simpa using hperm⟩

variable {n : ℕ}

/-- Any reader reads every row once if no page but the last ends with a row whose key another
row has. -/
theorem walk_perm (hreads : R.Reads answer) (hlimit : 0 < limit) (hn : D.length < n)
    (hafter : (R.after c).Perm D) (hD : R.Sorted D) (hparted : R.Parted limit D) :
    ∃ pages, R.walk answer limit n c = some pages ∧ pages.flatten.Perm D := by
  refine walk_perm_of hreads hlimit (fun D h => Parted.drop h)
    (fun c D a hperm hD hP ha hlength => ?_) hn hafter hD hparted
  exact first_page hperm (hreads c).2 hD hlimit ha
    (hP 1 a Nat.one_pos (by rwa [Nat.one_mul]) (by rwa [Nat.one_mul]))

omit [LinearOrder K] [LinearOrder I] in
/-- How many pages are allowed for makes no difference to those there are. -/
theorem walk_unique {n m : ℕ} {pages pages' : List (List α)}
    (h : R.walk answer limit n c = some pages) (h' : R.walk answer limit m c = some pages') :
    pages = pages' := by
  induction n generalizing m c pages pages' with
  | zero => cases h
  | succ n ih =>
    cases m with
    | zero => cases h'
    | succ m =>
      rw [walk] at h h'
      split at h
      · rw [if_pos ‹_›] at h'
        cases hlast : ((answer c).take limit).getLast? with
        | none =>
          rw [hlast] at h h'
          exact Option.some.inj (h.symm.trans h')
        | some a =>
          rw [hlast] at h h'
          obtain ⟨later, hlater, rfl⟩ := Option.map_eq_some_iff.1 h
          obtain ⟨later', hlater', rfl⟩ := Option.map_eq_some_iff.1 h'
          rw [ih hlater hlater']
      · rw [if_neg ‹_›] at h'
        exact Option.some.inj (h.symm.trans h')

variable {pages : List (List α)}

/-- Every row of a walk is after the position it starts from. -/
theorem mem_after_of_walk (hreads : R.Reads answer)
    (h : R.walk answer limit n c = some pages) (ha : a ∈ pages.flatten) : a ∈ R.after c := by
  induction n generalizing c pages with
  | zero => cases h
  | succ n ih =>
    rw [walk] at h
    split at h
    · split at h
      · obtain rfl := Option.some.inj h
        rw [flatten_singleton] at ha
        exact (hreads c).1.subset (mem_of_mem_take ha)
      · rename_i b hlast
        have hmem : b ∈ R.after c :=
          (hreads c).1.subset (mem_of_mem_take (mem_of_getLast? hlast))
        obtain ⟨later, hlater, rfl⟩ := Option.map_eq_some_iff.1 h
        rw [flatten_cons, mem_append] at ha
        rcases ha with ha | ha
        · exact (hreads c).1.subset (mem_of_mem_take ha)
        · have hafter := ih hlater ha
          rw [after_of_mem hmem] at hafter
          exact mem_of_mem_filter hafter
    · obtain rfl := Option.some.inj h
      rw [flatten_singleton] at ha
      exact (hreads c).1.subset ha

omit [LinearOrder K] [LinearOrder I] in
/-- A walk starts with the first row of the answer. -/
theorem head_mem_of_walk (hlimit : 0 < limit) {l : List α}
    (h : R.walk answer limit n c = some pages) (hanswer : answer c = a :: l) :
    a ∈ pages.flatten := by
  cases n with
  | zero => cases h
  | succ n =>
    have hfirst : a ∈ (answer c).take limit := by
      rw [hanswer]
      obtain ⟨k, rfl⟩ := Nat.exists_eq_succ_of_ne_zero hlimit.ne'
      exact mem_cons_self ..
    rw [walk] at h
    split at h
    · split at h
      · obtain rfl := Option.some.inj h
        rwa [flatten_singleton]
      · obtain ⟨later, -, rfl⟩ := Option.map_eq_some_iff.1 h
        rw [flatten_cons]
        exact mem_append_left _ hfirst
    · obtain rfl := Option.some.inj h
      rw [flatten_singleton, hanswer]
      exact mem_cons_self ..

/-! ### Two readers -/

variable (R)

/-- The rows in the order of a column beside the key. -/
def readBy {J : Type*} [LinearOrder J] (column : α → J) (c : Option (K ×ₗ I)) : List α :=
  (R.after c).mergeSort fun a b => decide (toLex (R.key a, column a) ≤ toLex (R.key b, column b))

variable {R}

theorem readBy_perm {J : Type*} [LinearOrder J] (column : α → J) (c : Option (K ×ₗ I)) :
    (R.readBy column c).Perm (R.after c) := mergeSort_perm _ _

theorem readBy_pairwise {J : Type*} [LinearOrder J] (column : α → J) (c : Option (K ×ₗ I)) :
    (R.readBy column c).Pairwise fun a b =>
      toLex (R.key a, column a) ≤ toLex (R.key b, column b) := by
  refine (pairwise_mergeSort (fun a b d hab hbd => ?_) (fun a b => ?_) _).imp of_decide_eq_true
  · exact decide_eq_true ((of_decide_eq_true hab).trans (of_decide_eq_true hbd))
  · rw [Bool.or_eq_true, decide_eq_true_eq, decide_eq_true_eq]
    exact le_total _ _

theorem reads_readBy {J : Type*} [LinearOrder J] (column : α → J) : R.Reads (R.readBy column) := by
  refine fun c => ⟨readBy_perm column c, (readBy_pairwise column c).imp fun hab => ?_⟩
  rcases Prod.Lex.toLex_le_toLex.1 hab with hab | hab
  · exact hab.le
  · exact hab.1.le

theorem sorted_readBy : R.Sorted (R.readBy R.tie c) := by
  have hnodup : (R.readBy R.tie c).Nodup :=
    (readBy_perm R.tie c).nodup_iff.2 (nodup_rows.filter _)
  refine ((readBy_pairwise R.tie c).and hnodup).imp_of_mem fun ha hb hab => ?_
  refine lt_of_le_of_ne hab.1 fun heq => hab.2 ?_
  exact eq_of_tie (mem_after.1 ((readBy_perm _ c).subset ha)).1
    (mem_after.1 ((readBy_perm _ c).subset hb)).1 (congrArg (fun p => (ofLex p).2) heq)

/-- A reader that puts the earlier of equal keys first reads every row once. -/
theorem walk_ascending (hlimit : 0 < limit) (hn : D.length < n)
    (hafter : (R.after c).Perm D) (hD : R.Sorted D) :
    ∃ pages, R.walk (R.readBy R.tie) limit n c = some pages ∧ pages.flatten.Perm D := by
  refine walk_perm_of (P := fun _ => True) (reads_readBy _) hlimit (fun _ _ => trivial)
    (fun c D a hperm hD _ ha _ => ?_) hn hafter hD trivial
  have hread : (R.readBy R.tie c).Pairwise fun a b => R.position a < R.position b := sorted_readBy
  have heq : R.readBy R.tie c = D := Perm.eq_of_pairwise
    (fun a b _ _ hab hba => absurd hba (lt_asymm hab)) hread hD hperm
  rw [heq]
  exact ⟨ha, Perm.refl _⟩

/-- What comes up to the last row of a first page and what comes after it. -/
theorem le_of_mem_take {r : α → α → Prop} (hrefl : ∀ a, r a a) {M : List α} (hM : M.Pairwise r)
    (ha : M[limit - 1]? = some a) (hb : b ∈ M.take limit) : r b a := by
  obtain ⟨hlt, hget⟩ := List.getElem?_eq_some_iff.1 ha
  obtain ⟨i, hi, rfl⟩ := getElem_of_mem hb
  rw [getElem_take]
  rw [length_take] at hi
  rcases Nat.lt_or_ge i (limit - 1) with hlater | hlast
  · exact hget ▸ pairwise_iff_getElem.1 hM i (limit - 1) (by omega) hlt hlater
  · have hi' : i = limit - 1 := by omega
    subst hi'
    exact hget ▸ hrefl _

theorem le_of_mem_drop {r : α → α → Prop} (hlimit : 0 < limit) (hM : M.Pairwise r)
    (ha : M[limit - 1]? = some a) (hb : b ∈ M.drop limit) : r a b := by
  obtain ⟨hlt, hget⟩ := List.getElem?_eq_some_iff.1 ha
  obtain ⟨i, hi, rfl⟩ := getElem_of_mem hb
  rw [getElem_drop]
  rw [length_drop] at hi
  exact hget ▸ pairwise_iff_getElem.1 hM (limit - 1) (limit + i) hlt (by omega) (by omega)

/-- The later of equal keys first. -/
def descending (R : Rows α K I) : Option (K ×ₗ I) → List α :=
  R.readBy fun a => OrderDual.toDual (R.tie a)

/-- The order of its rows. -/
def Precedes (R : Rows α K I) (a b : α) : Prop :=
  R.key a < R.key b ∨ R.key a = R.key b ∧ R.tie b ≤ R.tie a

theorem descending_perm : (R.descending c).Perm (R.after c) := readBy_perm _ c

theorem descending_pairwise : (R.descending c).Pairwise R.Precedes :=
  (readBy_pairwise (fun a => OrderDual.toDual (R.tie a)) c).imp fun hab =>
    (Prod.Lex.toLex_le_toLex.1 hab).imp_right fun h => ⟨h.1, OrderDual.toDual_le_toDual.1 h.2⟩

/-- If a reader that puts the later of equal keys first reads every row once, the last row of a
page with more to come has its key for its own. -/
theorem last_alone (hlimit : 0 < limit) {later : List (List α)}
    (ha : (R.descending c)[limit - 1]? = some a)
    (hlater : R.walk R.descending limit n (some (R.position a)) = some later)
    (hall : (((R.descending c).take limit) ++ later.flatten).Perm (R.after c)) :
    ∀ b ∈ R.after c, R.key b = R.key a → b = a := by
  have hnodup : (((R.descending c).take limit) ++ later.flatten).Nodup :=
    hall.nodup_iff.2 (nodup_rows.filter _)
  have hmem : a ∈ R.after c := descending_perm.subset (mem_of_getElem? ha)
  have hreads : R.Reads R.descending := reads_readBy _
  intro b hb hkey
  by_contra hne
  have htie : R.tie b ≠ R.tie a := fun h =>
    hne (eq_of_tie (mem_after.1 hb).1 (mem_after.1 hmem).1 h)
  rcases lt_or_gt_of_ne htie with hlt | hgt
  · -- an earlier one is on no page
    have hnever : b ∉ ((R.descending c).take limit) ++ later.flatten := by
      rw [mem_append]
      rintro (hpage | hrest)
      · rcases le_of_mem_take (fun _ => .inr ⟨rfl, le_rfl⟩) descending_pairwise ha hpage with h | h
        · exact h.ne hkey
        · exact h.2.not_gt hlt
      · rcases position_lt.1 ((mem_after.1 (mem_after_of_walk hreads hlater hrest)).2 _ rfl) with
          h | h
        · exact h.ne hkey.symm
        · exact h.2.not_gt hlt
    exact hnever (hall.mem_iff.2 hb)
  · -- a later one is still to come, so the next page starts with a row that was read before
    have hbnext : b ∈ R.after (some (R.position a)) := mem_after.2
      ⟨(mem_after.1 hb).1, fun p hp =>
        Option.some.inj hp ▸ position_lt.2 (.inr ⟨hkey.symm, hgt⟩)⟩
    have hbanswer := (descending_perm (c := some (R.position a))).mem_iff.2 hbnext
    cases hnext : R.descending (some (R.position a)) with
    | nil => exact not_mem_nil (hnext ▸ hbanswer)
    | cons d l =>
      have hdafter : d ∈ R.after (some (R.position a)) :=
        descending_perm.subset (hnext ▸ mem_cons_self ..)
      have hdb : R.Precedes d b ∨ d = b := by
        rw [hnext] at hbanswer
        rcases mem_cons.1 hbanswer with rfl | hbl
        · exact .inr rfl
        · exact .inl (rel_of_pairwise_cons (hnext ▸ descending_pairwise) hbl)
      have hdkey : R.key d = R.key a ∧ R.tie a < R.tie d := by
        have hge := key_le_of_position_lt ((mem_after.1 hdafter).2 _ rfl)
        rcases hdb with (h | h) | rfl
        · exact absurd (h.trans_eq hkey) hge.not_gt
        · exact ⟨h.1.trans hkey, hgt.trans_le h.2⟩
        · exact ⟨hkey, hgt⟩
      have hdc : d ∈ R.descending c := by
        rw [after_of_mem hmem] at hdafter
        exact descending_perm.mem_iff.2 (mem_of_mem_filter hdafter)
      have hpage : d ∈ (R.descending c).take limit := by
        rw [← take_append_drop limit (R.descending c), mem_append] at hdc
        rcases hdc with h | h
        · exact h
        · rcases le_of_mem_drop hlimit descending_pairwise ha h with h | h
          · exact absurd h hdkey.1.symm.not_lt
          · exact absurd h.2 hdkey.2.not_ge
      exact disjoint_of_nodup_append hnodup hpage (head_mem_of_walk hlimit hlater hnext)

/-- A reader that puts the later of equal keys first reads every row once only if no page but
the last ends with a row whose key another row has. -/
theorem parted_of_walk (hlimit : 0 < limit)
    (h : R.walk R.descending limit n c = some pages) (hafter : (R.after c).Perm D)
    (hD : R.Sorted D) (hall : pages.flatten.Perm D) : R.Parted limit D := by
  induction n generalizing c D pages with
  | zero => cases h
  | succ n ih =>
    have hperm : (R.descending c).Perm D := descending_perm.trans hafter
    rw [walk] at h
    by_cases hmore : limit < (R.descending c).length
    · rw [if_pos hmore, getLast?_take hlimit hmore] at h
      have hlength : limit < D.length := hperm.length_eq ▸ hmore
      obtain ⟨a, ha⟩ : ∃ a, (R.descending c)[limit - 1]? = some a :=
        ⟨_, getElem?_eq_getElem (by omega)⟩
      simp only [ha] at h
      obtain ⟨later, hlater, rfl⟩ := Option.map_eq_some_iff.1 h
      rw [flatten_cons] at hall
      have halone : ∀ b ∈ D, R.key b = R.key a → b = a := fun b hb =>
        last_alone hlimit ha hlater (hall.trans hafter.symm) b (hafter.mem_iff.2 hb)
      -- the same row ends the first page of the sorted rows
      have hlast : D[limit - 1]? = some a := by
        have hkey := key_getElem? hperm ((reads_readBy _ c).2) hD (limit - 1)
        rw [ha, Option.map_some, eq_comm, Option.map_eq_some_iff] at hkey
        obtain ⟨b, hb, hbkey⟩ := hkey
        rw [hb, halone b (mem_of_getElem? hb) hbkey]
      have hpage := (first_page hperm (reads_readBy _ c).2 hD hlimit hlast halone).2
      have hmem : a ∈ R.after c := descending_perm.subset (mem_of_getElem? ha)
      have hnext : (R.after (some (R.position a))).Perm (D.drop limit) := by
        rw [after_of_mem hmem, ← hD.filter_eq_drop hlimit hlast]
        exact hafter.filter _
      have hrest : later.flatten.Perm (D.drop limit) := by
        have hsplit : (D.take limit ++ later.flatten).Perm (D.take limit ++ D.drop limit) := by
          rw [take_append_drop]
          exact (hpage.symm.append_right _).trans hall
        exact (perm_append_left_iff _).1 hsplit
      have hlaterParted := ih hlater hnext (hD.sublist (drop_sublist _ _)) hrest
      intro i e hi hlengthi he b hb hkey
      obtain ⟨k, rfl⟩ := Nat.exists_eq_succ_of_ne_zero hi.ne'
      rcases Nat.eq_zero_or_pos k with rfl | hk
      · rw [Nat.one_mul, hlast] at he
        obtain rfl := Option.some.inj he
        exact halone b hb hkey
      · have hpos : limit ≤ k * limit := Nat.le_mul_of_pos_left limit hk
        rw [Nat.succ_mul] at hlengthi he
        have hindex : (D.drop limit)[k * limit - 1]? = some e := by
          rw [getElem?_drop, ← he]
          congr 1
          omega
        refine hlaterParted k e hk (by rw [length_drop]; omega) hindex b ?_ hkey
        -- what comes later has another key than the last row of the first page
        have hafter' : ∀ x ∈ D.drop limit, R.position a < R.position x := fun x hx => by
          rw [← hD.filter_eq_drop hlimit hlast, mem_filter, decide_eq_true_eq] at hx
          exact hx.2
        have he' := mem_of_getElem? hindex
        have hlt : R.key a < R.key e := by
          refine lt_of_le_of_ne (key_le_of_position_lt (hafter' e he')) fun heq => ?_
          obtain rfl := halone e (mem_of_mem_drop he') heq.symm
          exact lt_irrefl _ (hafter' e he')
        rw [← hD.filter_eq_drop hlimit hlast, mem_filter, decide_eq_true_eq]
        exact ⟨hb, position_lt.2 (.inl (hkey ▸ hlt))⟩
    · have hshort : D.length ≤ limit := hperm.length_eq ▸ not_lt.1 hmore
      intro i a hi hlength
      have hle : limit ≤ i * limit := Nat.le_mul_of_pos_left limit hi
      omega

end Rows

end Keyset
