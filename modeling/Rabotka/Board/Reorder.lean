import Mathlib.Data.List.Sort
import Rabotka.Lib.Table

/-!
# The board of claims

A column of the board lists the claims of one status, by position and then newest first.
`reorderForAdmin` moves a claim to a slot of a column: to the midpoint of its new neighbours, past
the last one, or, if the neighbours are too close, with new positions for the whole column.

On plain lists this is a removal and an insertion (`move`), whatever the positions are. Here is the
code, and that a column is determined by its claims and the order on them.
-/

namespace Rabotka.Board

open List

inductive ClaimStatus
  | created | inProgress | completed | rejected
  deriving DecidableEq

/-- A row; its identifier is its place in the table. -/
structure Claim where
  status : ClaimStatus
  position : ℚ
  createdAt : ℤ
  deriving DecidableEq

/-! ### The code -/

/-- `[{ position: 'asc' }, { created_at: 'desc' }]`. -/
def InOrder (x y : ℕ × Claim) : Prop :=
  x.2.position < y.2.position ∨ x.2.position = y.2.position ∧ y.2.createdAt ≤ x.2.createdAt

instance : DecidableRel InOrder := fun _ _ => inferInstanceAs (Decidable (_ ∨ _))

/-- `findMany` in board order. -/
def findMany (board : List Claim) (p : ℕ → Claim → Bool) : List (ℕ × Claim) :=
  (Table.findMany board p).insertionSort InOrder

/-- What `listForAdmin` lists for one status. -/
def column (board : List Claim) (status : ClaimStatus) : List ℕ :=
  (findMany board fun _ c => c.status = status).map Prod.fst

def positionGap : ℚ := 1000

def minPositionGap : ℚ := 1 / 1000000

/-- The loop of the rebalance, from the entry `i` on. -/
def rebalance (id : ℕ) (status : ClaimStatus) : (i : ℕ) → List ℕ → List Claim → List Claim
  | _, [], board => board
  | i, claimId :: ordered, board =>
    rebalance id status (i + 1) ordered (Table.update board claimId fun c =>
        { c with
          position := (i + 1) * positionGap
          status := if claimId = id then status else c.status })

/-- The place of a claim between two others. -/
def positionBetween : (before after : Option ℚ) → ℚ
  | some before, some after => (before + after) / 2
  | none, some after => after - positionGap
  | some before, none => before + positionGap
  | none, none => positionGap

/-- Both neighbours are there, and too close. -/
def tooClose : (before after : Option ℚ) → Bool
  | some before, some after => after - before < minPositionGap
  | _, _ => false

/-- The transaction of `reorderForAdmin`; none if the claim does not exist. -/
def reorderForAdmin (board : List Claim) (id : ℕ) (status : ClaimStatus) (index : ℤ) :
    Option (List Claim) :=
  match board[id]? with
  | none => none
  | some _ =>
    let siblings := findMany board fun i c => c.status = status ∧ i ≠ id
    let index := (max 0 (min index siblings.length)).toNat
    let before := if 0 < index then siblings[index - 1]?.map fun x => x.2.position else none
    let after := siblings[index]?.map fun x => x.2.position
    if tooClose before after then
      some (rebalance id status 0 ((siblings.map Prod.fst).insertIdx index id) board)
    else
      some (Table.update board id fun c =>
        { c with status, position := positionBetween before after })

/-! ### Plain lists -/

/-- A board without positions. -/
abbrev Columns := ClaimStatus → List ℕ

/-- A drop: the claim goes from its column and into the target column. -/
def move (columns : Columns) (id : ℕ) (status : ClaimStatus) (index : ℤ) : Columns := fun s =>
  let rest := (columns s).erase id
  if s = status then rest.insertIdx (min (max index 0) rest.length).toNat id else rest

/-- A call that an administrator makes. -/
structure Drop where
  id : ℕ
  status : ClaimStatus
  index : ℤ

/-- The board after some calls; a call for a missing claim changes nothing. -/
def run (board : List Claim) (drops : List Drop) : List Claim :=
  drops.foldl (fun board d => (reorderForAdmin board d.id d.status d.index).getD board) board

/-- The lists after the same calls, for a board of so many claims. -/
def runLists (size : ℕ) (columns : Columns) (drops : List Drop) : Columns :=
  drops.foldl (fun columns d => if d.id < size then move columns d.id d.status d.index else columns)
    columns

/-- No two claims were created at the same time. -/
def DistinctTimes (board : List Claim) : Prop :=
  (board.map Claim.createdAt).Nodup

instance (board : List Claim) : Decidable (DistinctTimes board) :=
  inferInstanceAs (Decidable (Nodup _))

/-- The claim shares its position with no other one of its column. -/
def Apart (board : List Claim) (id : ℕ) : Prop :=
  ∀ (i : ℕ) (c d : Claim), board[id]? = some c → board[i]? = some d → d.status = c.status → i ≠ id →
    d.position ≠ c.position

/-! ### Order on identifiers -/

/-- The position of a claim. -/
def posOf (board : List Claim) (i : ℕ) : ℚ := ((board[i]?).map Claim.position).getD 0

/-- When a claim was created. -/
def timeOf (board : List Claim) (i : ℕ) : ℤ := ((board[i]?).map Claim.createdAt).getD 0

/-- A claim stands before another one of its column. -/
def Before (board : List Claim) (i j : ℕ) : Prop :=
  posOf board i < posOf board j ∨ posOf board i = posOf board j ∧ timeOf board j < timeOf board i

variable {board board' : List Claim} {id : ℕ} {s status : ClaimStatus} {i : ℕ}

theorem posOf_of_some {c : Claim} (h : board[i]? = some c) : posOf board i = c.position := by
  rw [posOf, h]
  rfl

theorem timeOf_of_some {c : Claim} (h : board[i]? = some c) : timeOf board i = c.createdAt := by
  rw [timeOf, h]
  rfl

theorem not_before_self (i : ℕ) : ¬ Before board i i := by
  rintro (h | ⟨-, h⟩) <;> exact lt_irrefl _ h

theorem Before.asymm {i j : ℕ} (h : Before board i j) : ¬ Before board j i := by
  unfold Before at *
  rcases h with h | ⟨heq, h⟩
  · rintro (h' | ⟨heq', -⟩)
    · exact lt_asymm h h'
    · exact absurd heq' (ne_of_gt h)
  · rintro (h' | ⟨-, h'⟩)
    · exact absurd heq (ne_of_gt h')
    · exact lt_asymm h h'

theorem nodup_of_pairwise {ids : List ℕ} (h : ids.Pairwise (Before board)) : ids.Nodup := by
  refine h.imp ?_
  rintro i _ hij rfl
  exact not_before_self i hij

/-- A column is determined by what is in it. -/
theorem eq_of_pairwise {ids ids' : List ℕ} (h : ids.Pairwise (Before board))
    (h' : ids'.Pairwise (Before board)) (hmem : ∀ i, i ∈ ids ↔ i ∈ ids') : ids = ids' := by
  have hperm := (perm_ext_iff_of_nodup (nodup_of_pairwise h) (nodup_of_pairwise h')).mpr hmem
  exact hperm.eq_of_pairwise (fun _ _ _ _ hij hji => absurd hji hij.asymm) h h'

theorem DistinctTimes.eq_of_time (h : DistinctTimes board) {i j : ℕ} {c d : Claim}
    (hc : board[i]? = some c) (hd : board[j]? = some d) (heq : c.createdAt = d.createdAt) :
    i = j := by
  have hi : (board.map Claim.createdAt)[i]? = some c.createdAt := by rw [getElem?_map, hc]; rfl
  have hj : (board.map Claim.createdAt)[j]? = some c.createdAt := by
    rw [getElem?_map, hd, heq]
    rfl
  obtain ⟨hilt, -⟩ := List.getElem?_eq_some_iff.mp hi
  exact (getElem?_inj hilt h).mp (hi.trans hj.symm)

/-! ### What is listed -/

theorem mem_findMany {p : ℕ → Claim → Bool} {x : ℕ × Claim} :
    x ∈ findMany board p ↔ board[x.1]? = some x.2 ∧ p x.1 x.2 = true := by
  rw [findMany, mem_insertionSort]
  exact Table.mem_findMany

theorem mem_ids_findMany {p : ℕ → Claim → Bool} :
    i ∈ (findMany board p).map Prod.fst ↔ ∃ c, board[i]? = some c ∧ p i c = true := by
  rw [mem_map]
  constructor
  · rintro ⟨x, hx, rfl⟩
    exact ⟨x.2, mem_findMany.mp hx⟩
  · rintro ⟨c, hc⟩
    exact ⟨(i, c), mem_findMany.mpr hc, rfl⟩

/-- A list in board order is in order on its identifiers, as no two claims are of one time. -/
theorem pairwise_findMany (h : DistinctTimes board) (p : ℕ → Claim → Bool) :
    ((findMany board p).map Prod.fst).Pairwise (Before board) := by
  have htotal : Std.Total InOrder := ⟨fun x y => by
    unfold InOrder
    rcases lt_trichotomy x.2.position y.2.position with hlt | heq | hgt
    · exact Or.inl (Or.inl hlt)
    · exact (le_total y.2.createdAt x.2.createdAt).imp (fun hle => Or.inr ⟨heq, hle⟩)
        fun hle => Or.inr ⟨heq.symm, hle⟩
    · exact Or.inr (Or.inl hgt)⟩
  have htrans : IsTrans (ℕ × Claim) InOrder := ⟨fun x y z hxy hyz => by
    rcases hxy with hxy | ⟨hxy, hxt⟩ <;> rcases hyz with hyz | ⟨hyz, hyt⟩
    · exact Or.inl (hxy.trans hyz)
    · exact Or.inl (hyz ▸ hxy)
    · exact Or.inl (hxy ▸ hyz)
    · exact Or.inr ⟨hxy.trans hyz, hyt.trans hxt⟩⟩
  have hsorted : (findMany board p).Pairwise InOrder := pairwise_insertionSort _ _
  have hnodup : ((findMany board p).map Prod.fst).Nodup :=
    ((perm_insertionSort InOrder (Table.findMany board p)).map Prod.fst).nodup_iff.mpr
      (Table.nodup_findMany board p)
  rw [Nodup, pairwise_map] at hnodup
  rw [pairwise_map]
  refine (hsorted.and hnodup).imp_of_mem fun {x y} hx hy hxy => ?_
  obtain ⟨hxrow, -⟩ := mem_findMany.mp hx
  obtain ⟨hyrow, -⟩ := mem_findMany.mp hy
  rw [Before, posOf_of_some hxrow, posOf_of_some hyrow, timeOf_of_some hxrow, timeOf_of_some hyrow]
  refine hxy.1.imp_right fun ⟨heq, hle⟩ => ⟨heq, lt_of_le_of_ne hle fun htime => ?_⟩
  exact hxy.2 (h.eq_of_time hyrow hxrow htime).symm

theorem mem_column : i ∈ column board s ↔ ∃ c, board[i]? = some c ∧ c.status = s := by
  rw [column, mem_ids_findMany]
  simp only [decide_eq_true_eq]

/-- The other claims of the target column. -/
def siblings (board : List Claim) (id : ℕ) (status : ClaimStatus) : List ℕ :=
  (findMany board fun i c => c.status = status ∧ i ≠ id).map Prod.fst

theorem mem_siblings :
    i ∈ siblings board id status ↔ ∃ c, board[i]? = some c ∧ c.status = status ∧ i ≠ id := by
  rw [siblings, mem_ids_findMany]
  simp only [decide_eq_true_eq]

theorem not_mem_siblings : id ∉ siblings board id status := by
  rintro hmem
  obtain ⟨c, -, -, hne⟩ := mem_siblings.mp hmem
  exact hne rfl

theorem siblings_eq (h : DistinctTimes board) :
    siblings board id status = (column board status).erase id := by
  have hpairwise : (column board status).Pairwise (Before board) := pairwise_findMany h _
  refine eq_of_pairwise (pairwise_findMany h _) (hpairwise.sublist erase_sublist) fun i => ?_
  rw [(nodup_of_pairwise hpairwise).mem_erase_iff, mem_siblings, mem_column]
  constructor
  · exact fun ⟨c, hc, hstatus, hne⟩ => ⟨hne, c, hc, hstatus⟩
  · exact fun ⟨hne, c, hc, hstatus⟩ => ⟨c, hc, hstatus, hne⟩

end Rabotka.Board
