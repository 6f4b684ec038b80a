import Mathlib.Tactic.Linarith
import Rabotka.Board.Reorder

/-!
# Columns as plain lists

A call of `reorderForAdmin` puts the claim in its slot with a position of its own and leaves the
other claims in their order (`Placed`), whether the position is new or the column is rebalanced.
Hence the columns evolve as plain lists under `move` (`column_reorder`), and so they do over any
sequence of calls (`columns_run`).
-/

namespace Rabotka.Board

open List

variable {board board' : List Claim} {id : ℕ} {s status : ClaimStatus}

/-! ### Where the claim lands -/

variable {k : ℕ}

/-- A midpoint, or a place past an end, is strictly between what is before and after. -/
theorem positionBetween_spec {positions : List ℚ} (hsorted : positions.Pairwise (· ≤ ·))
    {before after : Option ℚ} (hk : k ≤ positions.length)
    (hbefore : before = if 0 < k then positions[k - 1]? else none) (hafter : after = positions[k]?)
    (hgap : tooClose before after = false) :
    (∀ p ∈ positions.take k, p < positionBetween before after)
      ∧ ∀ p ∈ positions.drop k, positionBetween before after < p := by
  rw [pairwise_iff_getElem] at hsorted
  have hlow : ∀ p ∈ positions.take k, ∃ b, before = some b ∧ p ≤ b := by
    intro p hp
    obtain ⟨i, hi, rfl⟩ := getElem_of_mem hp
    rw [length_take] at hi
    have hlt : k - 1 < positions.length := by omega
    refine ⟨positions[k - 1], ?_, ?_⟩
    · rw [hbefore, if_pos (by omega), getElem?_eq_getElem hlt]
    · rw [getElem_take]
      rcases Nat.lt_or_ge i (k - 1) with hlt' | hge
      · exact hsorted i (k - 1) _ _ hlt'
      · have heq : i = k - 1 := by omega
        subst heq
        exact le_rfl
  have hhigh : ∀ p ∈ positions.drop k, ∃ a, after = some a ∧ a ≤ p := by
    intro p hp
    obtain ⟨i, hi, rfl⟩ := getElem_of_mem hp
    rw [length_drop] at hi
    have hlt : k < positions.length := by omega
    refine ⟨positions[k], ?_, ?_⟩
    · rw [hafter, getElem?_eq_getElem hlt]
    · rw [getElem_drop]
      rcases Nat.eq_zero_or_pos i with rfl | hpos
      · exact le_rfl
      · exact hsorted k (k + i) _ _ (by omega)
  have hpositive : (0 : ℚ) < positionGap := by norm_num [positionGap]
  have hmin : (0 : ℚ) < minPositionGap := by norm_num [minPositionGap]
  constructor
  · intro p hp
    obtain ⟨b, rfl, hle⟩ := hlow p hp
    cases after with
    | none => exact hle.trans_lt (lt_add_of_pos_right b hpositive)
    | some a =>
      simp only [tooClose, decide_eq_false_iff_not, not_lt] at hgap
      simp only [positionBetween]
      linarith
  · intro p hp
    obtain ⟨a, rfl, hle⟩ := hhigh p hp
    cases before with
    | none => exact (sub_lt_self a hpositive).trans_le hle
    | some b =>
      simp only [tooClose, decide_eq_false_iff_not, not_lt] at hgap
      simp only [positionBetween]
      linarith

/-- The rebalance, row by row: nothing happens outside the list, -/
theorem rebalance_other {ordered : List ℕ} {j : ℕ} (hj : j ∉ ordered) (i : ℕ) :
    (rebalance id status i ordered board)[j]? = board[j]? := by
  induction ordered generalizing i board with
  | nil => rfl
  | cons k ordered ih =>
    rw [mem_cons, not_or] at hj
    rw [rebalance, ih hj.2, Table.getElem?_update]
    simp only [Ne.symm hj.1, if_false, Option.map_id']

/-- and the claims of the list get their places. -/
theorem rebalance_row {ordered : List ℕ} (hnodup : ordered.Nodup) {n j : ℕ}
    (hj : ordered[n]? = some j) (i : ℕ) :
    (rebalance id status i ordered board)[j]? = (board[j]?).map fun c =>
      { c with
        position := ((i + n : ℕ) + 1) * positionGap
        status := if j = id then status else c.status } := by
  induction ordered generalizing i n board with
  | nil => exact nomatch hj
  | cons k ordered ih =>
    obtain ⟨hk, hrest⟩ := nodup_cons.mp hnodup
    rw [rebalance]
    cases n with
    | zero =>
      obtain rfl := Option.some.inj hj
      rw [rebalance_other hk, Table.getElem?_update]
      simp only [if_true, Nat.add_zero]
    | succ n =>
      rw [getElem?_cons_succ] at hj
      have hne : k ≠ j := fun heq => hk (heq ▸ mem_of_getElem? hj)
      rw [ih hrest hj, Table.getElem?_update]
      simp only [hne, if_false, Option.map_id']
      rw [Nat.add_right_comm, Nat.add_assoc]

/-- The slot that an index stands for. -/
def slotOf (board : List Claim) (id : ℕ) (status : ClaimStatus) (index : ℤ) : ℕ :=
  (max 0 (min index (siblings board id status).length)).toNat

theorem slotOf_le (index : ℤ) :
    slotOf board id status index ≤ (siblings board id status).length := by
  unfold slotOf
  omega

/-- What a call does: the claim is in the target column, in its slot and with a position of its own,
the rest of the board is as it was, and no positions that differed become equal. -/
structure Placed (board board' : List Claim) (id : ℕ) (status : ClaimStatus) (slot : ℕ) : Prop where
  row : ∀ j, ∃ q : ℚ, board'[j]? = (board[j]?).map fun c : Claim =>
    ({ c with position := q, status := if j = id then status else c.status } : Claim)
  other : ∀ j, j ≠ id → j ∉ siblings board id status → board'[j]? = board[j]?
  sorted : ((siblings board id status).insertIdx slot id).Pairwise (Before board')
  apart : ∀ j ∈ siblings board id status, posOf board' j ≠ posOf board' id
  kept : ∀ i ∈ siblings board id status, ∀ j ∈ siblings board id status,
    posOf board i ≠ posOf board j → posOf board' i ≠ posOf board' j

theorem insertIdx_eq {ids : List ℕ} (hk : k ≤ ids.length) :
    ids.insertIdx k id = ids.take k ++ id :: ids.drop k := by
  induction ids generalizing k with
  | nil =>
    obtain rfl := Nat.le_zero.mp hk
    rfl
  | cons a ids ih =>
    cases k with
    | zero => rfl
    | succ k =>
      rw [insertIdx_succ_cons, ih (Nat.le_of_succ_le_succ hk)]
      rfl

/-- A midpoint, or a place past an end. -/
theorem placed_update {c : Claim} {p : ℚ} (h : DistinctTimes board)
    (hc : board[id]? = some c) (hk : k ≤ (siblings board id status).length)
    (hlow : ∀ i ∈ (siblings board id status).take k, posOf board i < p)
    (hhigh : ∀ i ∈ (siblings board id status).drop k, p < posOf board i) :
    Placed board (Table.update board id fun c => { c with status, position := p }) id status k := by
  have hrow := Table.getElem?_update board id fun c => { c with status, position := p }
  have hother : ∀ j, j ≠ id →
      (Table.update board id fun c => { c with status, position := p })[j]? = board[j]? := by
    intro j hj
    rw [hrow]
    simp only [Ne.symm hj, if_false, Option.map_id']
  have hpos : ∀ j, j ≠ id →
      posOf (Table.update board id fun c => { c with status, position := p }) j = posOf board j :=
    fun j hj => by rw [posOf, hother j hj, posOf]
  have hself : posOf (Table.update board id fun c => { c with status, position := p }) id = p := by
    rw [posOf, hrow, hc]
    simp
  have hne : ∀ j ∈ siblings board id status, j ≠ id := by
    rintro j hj rfl
    exact not_mem_siblings hj
  generalize Table.update board id (fun c => { c with status, position := p }) = board' at *
  have hold : (siblings board id status).Pairwise (Before board') := by
    refine (pairwise_findMany h _).imp_of_mem fun {i j} hi hj hij => ?_
    have htime : ∀ l ∈ siblings board id status, timeOf board' l = timeOf board l :=
      fun l hl => by rw [timeOf, hother l (hne l hl), timeOf]
    rwa [Before, hpos i (hne i hi), hpos j (hne j hj), htime i hi, htime j hj]
  refine ⟨fun j => ?_, fun j hj _ => hother j hj, ?_, fun j hj => ?_, fun i hi j hj hij => ?_⟩
  · rcases eq_or_ne j id with rfl | hj
    · refine ⟨p, ?_⟩
      rw [hrow]
      simp
    · rw [hother j hj]
      cases hd : board[j]? with
      | none => exact ⟨0, rfl⟩
      | some d =>
        refine ⟨d.position, ?_⟩
        simp [hj]
  · rw [insertIdx_eq hk]
    rw [← take_append_drop k (siblings board id status)] at hold
    obtain ⟨htake, hdrop, hcross⟩ := pairwise_append.mp hold
    refine pairwise_append.mpr ⟨htake, pairwise_cons.mpr ⟨fun j hj => ?_, hdrop⟩, ?_⟩
    · refine Or.inl ?_
      rw [hself, hpos j (hne j (mem_of_mem_drop hj))]
      exact hhigh j hj
    · intro i hi j hj
      rcases mem_cons.mp hj with rfl | hj
      · refine Or.inl ?_
        rw [hself, hpos i (hne i (mem_of_mem_take hi))]
        exact hlow i hi
      · exact hcross i hi j hj
  · rw [hself, hpos j (hne j hj)]
    rw [← take_append_drop k (siblings board id status)] at hj
    rcases mem_append.mp hj with hj | hj
    · exact ne_of_lt (hlow j hj)
    · exact ne_of_gt (hhigh j hj)
  · rwa [hpos i (hne i hi), hpos j (hne j hj)]

/-- New positions for the whole column. -/
theorem placed_rebalance (h : DistinctTimes board) (hc : (board[id]?).isSome)
    (hk : k ≤ (siblings board id status).length) :
    Placed board (rebalance id status 0 ((siblings board id status).insertIdx k id) board) id status
      k := by
  have hnotMem : id ∉ siblings board id status := not_mem_siblings
  have hsiblings : (siblings board id status).Nodup := nodup_of_pairwise (pairwise_findMany h _)
  have hmem : ∀ j, j ∈ (siblings board id status).insertIdx k id
      ↔ j = id ∨ j ∈ siblings board id status := fun j => mem_insertIdx hk
  have hnodup : ((siblings board id status).insertIdx k id).Nodup := by
    rw [(perm_insertIdx id _ hk).nodup_iff]
    exact nodup_cons.mpr ⟨hnotMem, hsiblings⟩
  generalize hordered : (siblings board id status).insertIdx k id = ordered at *
  have hsome : ∀ j ∈ ordered, (board[j]?).isSome := by
    intro j hj
    rcases (hmem j).mp hj with rfl | hj
    · exact hc
    · obtain ⟨c, hrow, -⟩ := mem_siblings.mp hj
      rw [hrow]
      rfl
  have hpos : ∀ {n j : ℕ}, ordered[n]? = some j →
      posOf (rebalance id status 0 ordered board) j = ((n : ℚ) + 1) * positionGap := by
    intro n j hj
    obtain ⟨c, hrow⟩ := Option.isSome_iff_exists.mp (hsome j (mem_of_getElem? hj))
    rw [posOf, rebalance_row hnodup hj, hrow, Nat.zero_add]
    rfl
  have hpositive : (0 : ℚ) < positionGap := by norm_num [positionGap]
  have hincreasing : ∀ {m n i j : ℕ}, ordered[m]? = some i → ordered[n]? = some j → m < n →
      posOf (rebalance id status 0 ordered board) i
        < posOf (rebalance id status 0 ordered board) j := by
    intro m n i j hi hj hlt
    rw [hpos hi, hpos hj]
    have hcast : (m : ℚ) < n := by exact_mod_cast hlt
    exact mul_lt_mul_of_pos_right (by linarith) hpositive
  have hdiffer : ∀ i ∈ ordered, ∀ j ∈ ordered, i ≠ j → posOf (rebalance id status 0 ordered board) i
        ≠ posOf (rebalance id status 0 ordered board) j := by
    intro i hi j hj hij
    obtain ⟨m, hm⟩ := getElem?_of_mem hi
    obtain ⟨n, hn⟩ := getElem?_of_mem hj
    rcases lt_trichotomy m n with hlt | rfl | hgt
    · exact ne_of_lt (hincreasing hm hn hlt)
    · exact absurd (Option.some.inj (hm.symm.trans hn)) hij
    · exact ne_of_gt (hincreasing hn hm hgt)
  refine ⟨fun j => ?_, fun j hj hsib => ?_, ?_, fun j hj => ?_, fun i hi j hj hij => ?_⟩
  · by_cases hj : j ∈ ordered
    · obtain ⟨n, hn⟩ := getElem?_of_mem hj
      exact ⟨_, rebalance_row hnodup hn 0⟩
    · rw [rebalance_other hj]
      have hne : j ≠ id := fun heq => hj ((hmem j).mpr (Or.inl heq))
      cases hd : board[j]? with
      | none => exact ⟨0, rfl⟩
      | some d =>
        refine ⟨d.position, ?_⟩
        simp [hne]
  · exact rebalance_other (fun hmem' => ((hmem j).mp hmem').elim hj hsib) 0
  · rw [hordered, pairwise_iff_getElem]
    intro m n hm hn hlt
    exact Or.inl (hincreasing (getElem?_eq_getElem hm) (getElem?_eq_getElem hn) hlt)
  · exact hdiffer j ((hmem j).mpr (Or.inr hj)) id ((hmem id).mpr (Or.inl rfl))
      fun heq => hnotMem (heq ▸ hj)
  · exact hdiffer i ((hmem i).mpr (Or.inr hi)) j ((hmem j).mpr (Or.inr hj))
      fun heq => hij (congrArg (posOf board) heq)

/-- The transaction puts the claim in its slot. -/
theorem placed_reorder {index : ℤ} (h : DistinctTimes board)
    (hreorder : reorderForAdmin board id status index = some board') :
    Placed board board' id status (slotOf board id status index) := by
  rw [reorderForAdmin] at hreorder
  cases hc : board[id]? with
  | none =>
    rw [hc] at hreorder
    exact nomatch hreorder
  | some c =>
    rw [hc] at hreorder
    simp only at hreorder
    set listed := findMany board fun i c => c.status = status ∧ i ≠ id with hlisted
    have hlength : (siblings board id status).length = listed.length := length_map _
    have hslot : (max 0 (min index listed.length)).toNat = slotOf board id status index := by
      rw [slotOf, hlength]
    rw [hslot] at hreorder
    have hle : slotOf board id status index ≤ (siblings board id status).length := slotOf_le index
    generalize slotOf board id status index = slot at *
    obtain ⟨before, hbefore⟩ : ∃ before, before
        = if 0 < slot then (listed[slot - 1]?).map fun x => x.2.position else none := ⟨_, rfl⟩
    obtain ⟨after, hafter⟩ : ∃ after, after = (listed[slot]?).map fun x => x.2.position := ⟨_, rfl⟩
    rw [← hbefore, ← hafter] at hreorder
    cases hclose : tooClose before after with
    | true =>
      rw [hclose, if_pos rfl] at hreorder
      obtain rfl := Option.some.inj hreorder
      exact placed_rebalance h (by rw [hc]; rfl) hle
    | false =>
      rw [hclose, if_neg Bool.false_ne_true] at hreorder
      obtain rfl := Option.some.inj hreorder
      have hpositions : (siblings board id status).map (posOf board)
          = listed.map fun x => x.2.position := by
        rw [siblings, map_map]
        refine map_congr_left fun x hx => ?_
        exact posOf_of_some (mem_findMany.mp hx).1
      have hsorted : ((siblings board id status).map (posOf board)).Pairwise (· ≤ ·) := by
        rw [pairwise_map]
        exact (pairwise_findMany h _).imp fun hij => hij.elim le_of_lt fun h => le_of_eq h.1
      obtain ⟨hlow, hhigh⟩ := positionBetween_spec (k := slot) hsorted
        (by rwa [length_map]) (by rw [hpositions, hbefore, getElem?_map])
        (by rw [hpositions, hafter, getElem?_map]) hclose
      refine placed_update h hc hle (fun i hi => hlow _ ?_) fun i hi => hhigh _ ?_
      · rw [← List.map_take]
        exact mem_map_of_mem hi
      · rw [← map_drop]
        exact mem_map_of_mem hi

/-! ### One call on plain lists -/

variable {slot : ℕ}

theorem Placed.createdAt (h : Placed board board' id status slot) (j : ℕ) :
    (board'[j]?).map Claim.createdAt = (board[j]?).map Claim.createdAt := by
  obtain ⟨q, hrow⟩ := h.row j
  rw [hrow, Option.map_map]
  rfl

theorem Placed.times (h : Placed board board' id status slot) :
    board'.map Claim.createdAt = board.map Claim.createdAt := by
  refine ext_getElem? fun j => ?_
  rw [getElem?_map, getElem?_map]
  exact h.createdAt j

theorem Placed.length (h : Placed board board' id status slot) : board'.length = board.length := by
  have hlength := congrArg List.length h.times
  rwa [length_map, length_map] at hlength

theorem Placed.distinctTimes (h : Placed board board' id status slot)
    (hboard : DistinctTimes board) : DistinctTimes board' := by
  rwa [DistinctTimes, h.times]

/-- Who is in which column afterwards. -/
theorem Placed.mem_column (h : Placed board board' id status slot) (hid : id < board.length)
    {j : ℕ} : j ∈ column board' s ↔ if j = id then s = status else j ∈ column board s := by
  obtain ⟨q, hrow⟩ := h.row j
  rw [Board.mem_column, hrow]
  by_cases hj : j = id
  · subst hj
    rw [getElem?_eq_getElem hid, if_pos rfl]
    simp [eq_comm]
  · rw [if_neg hj, Board.mem_column]
    cases hd : board[j]? <;> simp [hj]

/-- The columns evolve as lists. -/
theorem Placed.column (h : Placed board board' id status slot) (hid : id < board.length)
    (hboard : DistinctTimes board) (hslot : slot ≤ ((column board status).erase id).length)
    (s : ClaimStatus) :
    column board' s = if s = status then ((column board s).erase id).insertIdx slot id
      else (column board s).erase id := by
  have hcolumn : (Board.column board' s).Pairwise (Before board') :=
    pairwise_findMany (h.distinctTimes hboard) _
  have hold : (Board.column board s).Pairwise (Before board) := pairwise_findMany hboard _
  have hnodup := nodup_of_pairwise hold
  split_ifs with hs
  · subst hs
    have hsorted := h.sorted
    rw [siblings_eq hboard] at hsorted
    refine eq_of_pairwise hcolumn hsorted fun j => ?_
    rw [h.mem_column hid, mem_insertIdx hslot, hnodup.mem_erase_iff]
    by_cases hj : j = id <;> simp [hj]
  · have hsame : ∀ j ∈ (Board.column board s).erase id, board'[j]? = board[j]? := by
      intro j hj
      obtain ⟨hne, hmem⟩ := hnodup.mem_erase_iff.mp hj
      refine h.other j hne fun hsib => ?_
      obtain ⟨c, hc, hstatus, -⟩ := mem_siblings.mp hsib
      obtain ⟨d, hd, hstatus'⟩ := Board.mem_column.mp hmem
      obtain rfl := Option.some.inj (hc.symm.trans hd)
      exact hs (hstatus'.symm.trans hstatus)
    have hrest : ((Board.column board s).erase id).Pairwise (Before board') := by
      refine (hold.sublist erase_sublist).imp_of_mem fun {i j} hi hj hij => ?_
      rwa [Before, posOf, posOf, timeOf, timeOf, hsame i hi, hsame j hj]
    refine eq_of_pairwise hcolumn hrest fun j => ?_
    rw [h.mem_column hid, hnodup.mem_erase_iff]
    by_cases hj : j = id <;> simp [hj, hs]

/-- One call. -/
theorem column_reorder {index : ℤ} (h : DistinctTimes board)
    (hreorder : reorderForAdmin board id status index = some board') :
    Board.column board' = move (Board.column board) id status index := by
  have hplaced := placed_reorder h hreorder
  have hid : id < board.length := by
    by_contra hge
    rw [reorderForAdmin, getElem?_eq_none (by omega)] at hreorder
    exact nomatch hreorder
  funext s
  rw [hplaced.column hid h (siblings_eq h ▸ slotOf_le index), move]
  by_cases hs : s = status
  · subst hs
    rw [if_pos rfl, if_pos rfl, slotOf, siblings_eq h]
    congr 1
    omega
  · rw [if_neg hs, if_neg hs]

/-! ### Positions of their own -/

/-- A claim that is not the moved one keeps its column. -/
theorem Placed.status_eq (h : Placed board board' id status slot) {j : ℕ} {c : Claim} (hj : j ≠ id)
    (hc : board'[j]? = some c) : ∃ d, board[j]? = some d ∧ d.status = c.status := by
  obtain ⟨q, hrow⟩ := h.row j
  rw [hc] at hrow
  obtain ⟨d, hd, hdc⟩ := Option.map_eq_some_iff.mp hrow.symm
  refine ⟨d, hd, ?_⟩
  rw [← hdc]
  simp only [hj, if_false]

/-- The claim that was moved has a position of its own, -/
theorem Placed.apart_self (h : Placed board board' id status slot) : Apart board' id := by
  intro i c d hc hd hstatus hne heq
  obtain ⟨q, hrow⟩ := h.row id
  rw [hc] at hrow
  obtain ⟨e, -, he⟩ := Option.map_eq_some_iff.mp hrow.symm
  have hc' : c.status = status := by
    rw [← he]
    simp only [if_true]
  obtain ⟨d', hd', hstatus'⟩ := h.status_eq hne hd
  refine h.apart i (mem_siblings.mpr ⟨d', hd', ?_, hne⟩) ?_
  · rw [hstatus', hstatus, hc']
  · rw [posOf_of_some hd, posOf_of_some hc, heq]

/-- and so has a claim that was moved earlier. -/
theorem Placed.apart_other (h : Placed board board' id status slot)
    (hapart : Apart board k) (hk : k ≠ id) : Apart board' k := by
  intro i c d hc hd hstatus hne heq
  obtain ⟨c', hc', hcstatus⟩ := h.status_eq hk hc
  rcases eq_or_ne i id with rfl | hi
  · -- The neighbour is the claim that has just been moved.
    obtain ⟨q, hrow⟩ := h.row i
    rw [hd] at hrow
    obtain ⟨e, -, he⟩ := Option.map_eq_some_iff.mp hrow.symm
    have hd' : d.status = status := by
      rw [← he]
      simp only [if_true]
    refine h.apart k (mem_siblings.mpr ⟨c', hc', ?_, hk⟩) ?_
    · rw [hcstatus, ← hstatus, hd']
    · rw [posOf_of_some hd, posOf_of_some hc, heq]
  · obtain ⟨d', hd', hdstatus⟩ := h.status_eq hi hd
    have hstatus' : d'.status = c'.status := by rw [hdstatus, hstatus, hcstatus]
    have hdiffer : posOf board i ≠ posOf board k := by
      rw [posOf_of_some hd', posOf_of_some hc']
      exact hapart i c' d' hc' hd' hstatus' hne
    by_cases hs : c'.status = status
    · refine h.kept i (mem_siblings.mpr ⟨d', hd', hstatus'.trans hs, hi⟩)
        k (mem_siblings.mpr ⟨c', hc', hs, hk⟩) hdiffer ?_
      rw [posOf_of_some hd, posOf_of_some hc, heq]
    · have hsame : ∀ {j : ℕ} {e : Claim}, j ≠ id → board[j]? = some e → e.status = c'.status →
          board'[j]? = board[j]? := by
        intro j e hj he hestatus
        refine h.other j hj fun hsib => ?_
        obtain ⟨e', he', hestatus', -⟩ := mem_siblings.mp hsib
        obtain rfl := Option.some.inj (he.symm.trans he')
        exact hs (hestatus.symm.trans hestatus')
      rw [hsame hk hc' rfl] at hc
      rw [hsame hi hd' hstatus'] at hd
      exact hapart i c d hc hd hstatus hne heq

/-! ### Whole runs -/

theorem run_cons (d : Drop) (drops : List Drop) : run board (d :: drops)
      = run ((reorderForAdmin board d.id d.status d.index).getD board) drops := rfl

/-- A call finds its claim exactly if the table has it. -/
theorem reorderForAdmin_isSome {index : ℤ} :
    (reorderForAdmin board id status index).isSome = decide (id < board.length) := by
  rw [reorderForAdmin]
  by_cases hid : id < board.length
  · rw [getElem?_eq_getElem hid]
    simp only [hid, decide_true]
    split_ifs <;> rfl
  · rw [getElem?_eq_none (by omega)]
    simp [hid]

/-- A claim that was moved keeps a position of its own. -/
theorem apart_run (drops : List Drop) (h : DistinctTimes board) (hapart : Apart board k) :
    Apart (run board drops) k := by
  induction drops generalizing board with
  | nil => exact hapart
  | cons d drops ih =>
    rw [run_cons]
    cases hreorder : reorderForAdmin board d.id d.status d.index with
    | none => exact ih h hapart
    | some board' =>
      have hplaced := placed_reorder h hreorder
      refine ih (hplaced.distinctTimes h) ?_
      rcases eq_or_ne k d.id with rfl | hk
      · exact hplaced.apart_self
      · exact hplaced.apart_other hapart hk

/-- On every board whose claims were created at different times, the columns after any calls are
those of the plain lists, and every claim that was moved has a position of its own in its column. -/
theorem columns_run (board : List Claim) (h : DistinctTimes board) (drops : List Drop) :
    column (run board drops) = runLists board.length (column board) drops
      ∧ ∀ d ∈ drops, d.id < board.length → Apart (run board drops) d.id := by
  induction drops generalizing board with
  | nil => exact ⟨rfl, fun d hd => nomatch hd⟩
  | cons d drops ih =>
    rw [run_cons, runLists, foldl_cons, ← runLists]
    have hsome := @reorderForAdmin_isSome board d.id d.status d.index
    cases hreorder : reorderForAdmin board d.id d.status d.index with
    | none =>
      rw [hreorder] at hsome
      have hid : ¬ d.id < board.length := of_decide_eq_false hsome.symm
      obtain ⟨hcolumns, hapart⟩ := ih board h
      rw [if_neg hid]
      refine ⟨hcolumns, fun e he hlt => ?_⟩
      rcases mem_cons.mp he with rfl | he
      · exact absurd hlt hid
      · exact hapart e he hlt
    | some board' =>
      rw [hreorder] at hsome
      have hid : d.id < board.length := of_decide_eq_true hsome.symm
      have hplaced := placed_reorder h hreorder
      obtain ⟨hcolumns, hapart⟩ := ih board' (hplaced.distinctTimes h)
      rw [hplaced.length, column_reorder h hreorder] at hcolumns
      rw [if_pos hid, Option.getD_some]
      refine ⟨hcolumns, fun e he hlt => ?_⟩
      rcases mem_cons.mp he with rfl | he
      · exact apart_run drops (hplaced.distinctTimes h) hplaced.apart_self
      · exact hapart e he (hplaced.length ▸ hlt)

/-- Three claims that were never dragged: the oldest goes to the top, then to the other column. -/
theorem columns_run_three :
    ∃ board : List Claim, column (run board [⟨0, .created, -1⟩, ⟨0, .completed, 7⟩]) .created
      = [2, 1] ∧ Apart (run board [⟨0, .created, -1⟩, ⟨0, .completed, 7⟩]) 0 := by
  refine ⟨[⟨.created, 0, 1⟩, ⟨.created, 0, 2⟩, ⟨.created, 0, 3⟩], ?_⟩
  obtain ⟨hcolumns, hapart⟩ := columns_run [⟨.created, 0, 1⟩, ⟨.created, 0, 2⟩, ⟨.created, 0, 3⟩]
    (by decide) [⟨0, .created, -1⟩, ⟨0, .completed, 7⟩]
  refine ⟨?_, hapart ⟨0, .created, -1⟩ mem_cons_self (by decide)⟩
  rw [hcolumns]
  decide +kernel

end Rabotka.Board
