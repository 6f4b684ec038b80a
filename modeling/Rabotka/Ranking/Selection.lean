import Mathlib.Data.List.Induction
import Rabotka.Ranking.Quality

/-!
# Selecting from a ranked list

The three stages between a ranked list and what is shown.

* `diversifyByKeys` honours caps in a first pass and fills up with what they rejected. The first
  pass is the greedy one (`greedy`), cut at the target, and nothing is lost or doubled
  (`diversifyByKeys_diversified`).
* `epsilonGreedySelect` takes the best candidate or, now and then, one of the others. Whatever is
  drawn, it takes distinct positions, and the first ones if it never explores
  (`epsilonGreedySelect_explored`).
* `applyThreshold` keeps the candidates that pass, but never fewer than a floor. If fewer pass
  than the floor wants, it keeps the head of the list instead. The list is ordered by another
  score than the one tested, so a candidate that passes may stand behind the head and be dropped;
  the stage is right exactly when that does not happen (`selection_loses_nothing_iff`).
-/

namespace Rabotka.Ranking

open List

/-! ### Caps -/

section Caps

variable {α κ : Type*} [DecidableEq κ]

/-- A cap: at most `max` items with the same key; items without a key are not capped. -/
structure Cap (α κ : Type*) where
  key : α → Option κ
  max : ℤ

/-- The state of the loop of `diversifyByKeys`: a counter for each cap, the items taken and the
items put off. -/
structure DiversifyState (α κ : Type*) where
  counters : List (κ → ℕ)
  out : List α
  overflow : List α

/-- `caps.every(…)`. -/
def allowed (caps : List (Cap α κ)) (counters : List (κ → ℕ)) (item : α) : Bool :=
  (caps.zip counters).all fun c =>
    match c.1.key item with
    | none => true
    | some k => decide ((c.2 k : ℤ) < c.1.max)

/-- The counters after an item was taken. -/
def countItem (caps : List (Cap α κ)) (counters : List (κ → ℕ)) (item : α) : List (κ → ℕ) :=
  caps.zipWith (fun cap counter =>
    match cap.key item with
    | none => counter
    | some k => Function.update counter k (counter k + 1)) counters

/-- One turn of the loop. -/
def diversifyStep (caps : List (Cap α κ)) (targetTotal : ℤ) (s : DiversifyState α κ) (item : α) :
    DiversifyState α κ :=
  if targetTotal ≤ s.out.length then { s with overflow := s.overflow ++ [item] }
  else if allowed caps s.counters item then
    { s with
      counters := countItem caps s.counters item
      out := s.out ++ [item] }
  else { s with overflow := s.overflow ++ [item] }

/-- The backfill loop: items put off are added until the target is reached. -/
def backfill (targetTotal : ℤ) : List α → List α → List α
  | out, [] => out
  | out, item :: overflow =>
    if targetTotal ≤ out.length then out else backfill targetTotal (out ++ [item]) overflow

/-- `diversifyByKeys`. -/
def diversifyByKeys (items : List α) (caps : List (Cap α κ)) (targetTotal : ℤ) : List α :=
  let start : DiversifyState α κ := ⟨caps.map fun _ _ => 0, [], []⟩
  let s := items.foldl (diversifyStep caps targetTotal) start
  backfill targetTotal s.out s.overflow

/-! #### The greedy pass -/

/-- How many of the items have a key. -/
def countKey (cap : Cap α κ) (kept : List α) (k : κ) : ℕ :=
  kept.countP fun item => decide (cap.key item = some k)

/-- An item fits beside the items kept: no cap on it is used up. -/
def fits (caps : List (Cap α κ)) (kept : List α) (item : α) : Bool :=
  caps.all fun cap =>
    match cap.key item with
    | none => true
    | some k => decide ((countKey cap kept k : ℤ) < cap.max)

/-- One turn of the greedy pass. -/
def greedyStep (caps : List (Cap α κ)) (kept : List α) (item : α) : List α :=
  if fits caps kept item then kept ++ [item] else kept

/-- The greedy pass without a target: each item that fits is kept. -/
def greedy (caps : List (Cap α κ)) (items : List α) : List α :=
  items.foldl (greedyStep caps) []

theorem greedy_snoc (caps : List (Cap α κ)) (items : List α) (item : α) :
    greedy caps (items ++ [item]) = greedyStep caps (greedy caps items) item := by
  rw [greedy, foldl_append]
  rfl

/-- The counters that belong to a list of items taken. -/
def countersOf (caps : List (Cap α κ)) (out : List α) : List (κ → ℕ) :=
  caps.map fun cap => countKey cap out

/-- On its own counters the test of the code is that of the greedy pass. -/
theorem allowed_countersOf (caps : List (Cap α κ)) (out : List α) (item : α) :
    allowed caps (countersOf caps out) item = fits caps out item := by
  induction caps with
  | nil => rfl
  | cons cap caps ih =>
    simp only [allowed, countersOf, map_cons, zip_cons_cons, all_cons, fits] at ih ⊢
    rw [ih]

/-- Taking an item keeps the counters in step with the items taken. -/
theorem countItem_countersOf (caps : List (Cap α κ)) (out : List α) (item : α) :
    countItem caps (countersOf caps out) item = countersOf caps (out ++ [item]) := by
  induction caps with
  | nil => rfl
  | cons cap caps ih =>
    simp only [countItem, countersOf, map_cons, zipWith_cons_cons] at ih ⊢
    rw [ih]
    congr 1
    funext k
    cases hkey : cap.key item with
    | none => simp [countKey, hkey]
    | some l =>
      by_cases hkl : k = l
      · subst hkl
        simp [countKey, hkey]
      · simp [countKey, hkey, hkl, Ne.symm hkl]

/-- What the loop keeps: the items taken are those of the greedy pass, cut at the target, the
counters are in step with them, and every item was taken or put off. -/
structure Passed (caps : List (Cap α κ)) (targetTotal : ℤ) (items : List α)
    (s : DiversifyState α κ) : Prop where
  counters_eq : s.counters = countersOf caps s.out
  out_eq : s.out = (greedy caps items).take targetTotal.toNat
  perm : (s.out ++ s.overflow).Perm items

/-- **Step lemma.** A turn of the loop keeps the pass. -/
theorem Passed.step {caps : List (Cap α κ)} {targetTotal : ℤ} {items : List α}
    {s : DiversifyState α κ} (h : Passed caps targetTotal items s) (item : α) :
    Passed caps targetTotal (items ++ [item]) (diversifyStep caps targetTotal s item) := by
  have hlength : s.out.length = min targetTotal.toNat (greedy caps items).length := by
    rw [h.out_eq, length_take]
  have hput : (s.out ++ (s.overflow ++ [item])).Perm (items ++ [item]) := by
    rw [← append_assoc]
    exact h.perm.append_right [item]
  rw [diversifyStep]
  split_ifs with hfull hallowed
  · -- the target is reached, and what the pass adds is beyond the cut
    refine ⟨h.counters_eq, ?_, hput⟩
    have hcut : targetTotal.toNat ≤ (greedy caps items).length := by omega
    rw [greedy_snoc, greedyStep]
    split_ifs
    · rw [take_append_of_le_length hcut]
      exact h.out_eq
    · exact h.out_eq
  · -- below the target nothing has been cut so far
    have hshort : (greedy caps items).length < targetTotal.toNat := by omega
    have hout : s.out = greedy caps items := by
      rw [h.out_eq, take_of_length_le hshort.le]
    rw [h.counters_eq, allowed_countersOf] at hallowed
    refine ⟨?_, ?_, ?_⟩
    · dsimp only
      rw [h.counters_eq, countItem_countersOf]
    · dsimp only
      rw [greedy_snoc, greedyStep, ← hout, if_pos hallowed, take_of_length_le]
      rw [length_append, length_singleton, hout]
      exact hshort
    · dsimp only
      rw [append_assoc]
      exact (perm_append_comm.append_left s.out).trans hput
  · have hshort : (greedy caps items).length < targetTotal.toNat := by omega
    have hout : s.out = greedy caps items := by
      rw [h.out_eq, take_of_length_le hshort.le]
    rw [h.counters_eq, allowed_countersOf] at hallowed
    refine ⟨h.counters_eq, ?_, hput⟩
    rw [greedy_snoc, greedyStep, ← hout, if_neg hallowed]
    dsimp only
    rw [take_of_length_le]
    rw [hout]
    exact hshort.le

/-- **Run lemma.** -/
theorem passed_foldl (caps : List (Cap α κ)) (targetTotal : ℤ) (items : List α) :
    Passed caps targetTotal items
      (items.foldl (diversifyStep caps targetTotal) ⟨caps.map fun _ _ => 0, [], []⟩) := by
  induction items using reverseRecOn with
  | nil =>
    refine ⟨?_, by simp [greedy], by simp⟩
    exact map_congr_left fun cap _ => funext fun k => by simp [countKey]
  | append_singleton items item ih =>
    rw [foldl_append]
    exact ih.step item

theorem backfill_eq (targetTotal : ℤ) (out overflow : List α) : backfill targetTotal out overflow
      = out ++ overflow.take (targetTotal.toNat - out.length) := by
  induction overflow generalizing out with
  | nil => simp [backfill]
  | cons item overflow ih =>
    rw [backfill]
    split_ifs with h
    · have hzero : targetTotal.toNat - out.length = 0 := by omega
      rw [hzero, take_zero, append_nil]
    · have hsucc : targetTotal.toNat - out.length
          = (targetTotal.toNat - (out ++ [item]).length) + 1 := by
        rw [length_append, length_singleton]
        omega
      rw [ih, hsucc, take_succ_cons, append_assoc, singleton_append]

/-- What `diversifyByKeys` has to give: as many items as the target allows, none more often than
it was there, with all that a cap-respecting greedy pass takes, and others only if that pass alone
does not reach the target. -/
structure Diversified (items : List α) (caps : List (Cap α κ)) (targetTotal : ℤ)
    (out : List α) : Prop where
  length_eq : out.length = min targetTotal.toNat items.length
  subperm : out.Subperm items
  greedy_prefix : (greedy caps items).take targetTotal.toNat <+: out
  only_greedy : targetTotal.toNat ≤ (greedy caps items).length →
    out = (greedy caps items).take targetTotal.toNat

theorem diversifyByKeys_diversified (items : List α) (caps : List (Cap α κ)) (targetTotal : ℤ) :
    Diversified items caps targetTotal (diversifyByKeys items caps targetTotal) := by
  have h := passed_foldl caps targetTotal items
  simp only [diversifyByKeys]
  generalize items.foldl (diversifyStep caps targetTotal) ⟨caps.map fun _ _ => 0, [], []⟩ = s at h
  have hlength : s.out.length = min targetTotal.toNat (greedy caps items).length := by
    rw [h.out_eq, length_take]
  have hsum : s.out.length + s.overflow.length = items.length := by
    rw [← length_append]
    exact h.perm.length_eq
  rw [backfill_eq]
  refine ⟨?_, ?_, ?_, fun hfull => ?_⟩
  · rw [length_append, length_take]
    omega
  · exact (((take_sublist _ _).append_left s.out).subperm).trans h.perm.subperm
  · rw [← h.out_eq]
    exact prefix_append _ _
  · have hzero : targetTotal.toNat - s.out.length = 0 := by omega
    rw [hzero, take_zero, append_nil]
    exact h.out_eq

end Caps

/-! ### Exploration -/

section Exploration

variable {α : Type*} (score : α → ℚ)

/-- A stream of draws from the unit interval. -/
abbrev Draws := ℕ → Set.Ico (0 : ℚ) 1

/-- The loop over the tail: the position in the pool at which the target is used up, or the head
when it never is. -/
def tailPick : ℚ → ℕ → List α → ℕ
  | _, _, [] => 0
  | target, i, c :: tail =>
    let rest := target - max 0 (score c)
    if rest ≤ 0 then i + 1 else tailPick rest (i + 1) tail

/-- One round: the position that is picked in the pool, and how many draws that took. -/
def pickRound (eps : ℚ) (rng : Draws) (pool : List α) : ℕ × ℕ :=
  if (rng 0 : ℚ) < eps ∧ 1 < pool.length then
    let tail := pool.drop 1
    let total := (tail.map fun c => max 0 (score c)).sum
    if total ≤ 0 then (0, 1)
    else (tailPick score (rng 1 * total) 0 tail, 2)
  else (0, 1)

/-- The loop of `epsilonGreedySelect`, on the number of items still wanted. -/
def selectLoop (eps : ℚ) : ℕ → Draws → List α → List α
  | 0, _, _ => []
  | wanted + 1, rng, pool =>
    let round := pickRound score eps rng pool
    match pool[round.1]? with
    | none => []
    | some c =>
      c :: selectLoop eps wanted (fun i => rng (i + round.2)) (pool.eraseIdx round.1)

/-- `epsilonGreedySelect`. -/
def epsilonGreedySelect (ranked : List α) (count : ℤ) (epsilon : ℚ) (rng : Draws) : List α :=
  selectLoop score (clamp01 epsilon) count.toNat rng ranked

/-- The loop over the tail picks a position of the pool. -/
theorem tailPick_le (target : ℚ) (i : ℕ) (tail : List α) :
    tailPick score target i tail ≤ i + tail.length := by
  induction tail generalizing target i with
  | nil => exact Nat.zero_le _
  | cons c tail ih =>
    rw [tailPick, length_cons]
    split_ifs
    · omega
    · have h := ih (target - max 0 (score c)) (i + 1)
      omega

/-- A round picks a position of a pool that is not empty. -/
theorem pickRound_lt (eps : ℚ) (rng : Draws) {pool : List α} (h : pool ≠ []) :
    (pickRound score eps rng pool).1 < pool.length := by
  have hpos : 0 < pool.length := length_pos_iff.mpr h
  rw [pickRound]
  split_ifs with hexplore
  · dsimp only
    split_ifs
    · exact hpos
    · have hpick := tailPick_le score (rng 1 * ((pool.drop 1).map fun c => max 0 (score c)).sum) 0
        (pool.drop 1)
      rw [length_drop] at hpick
      dsimp only
      omega
  · exact hpos

/-- **Positions.** From a pool that lists items by position, the loop takes distinct ones of these
positions, as many as are wanted. -/
theorem selectLoop_map {ι : Type*} (item : ι → α) (eps : ℚ) (wanted : ℕ) (rng : Draws)
    (places : List ι) :
    ∃ picked : List ι, picked.Subperm places ∧ picked.length = min wanted places.length
      ∧ selectLoop score eps wanted rng (places.map item) = picked.map item := by
  induction wanted generalizing rng places with
  | zero => exact ⟨[], nil_subperm, by simp, rfl⟩
  | succ wanted ih =>
    rw [selectLoop]
    rcases eq_or_ne places [] with rfl | hne
    · exact ⟨[], nil_subperm, by simp, by simp⟩
    · have hlt : (pickRound score eps rng (places.map item)).1 < places.length := by
        have h : places.map item ≠ [] := by simpa using hne
        have hpick := pickRound_lt score eps rng h
        rwa [length_map] at hpick
      generalize pickRound score eps rng (places.map item) = round at hlt ⊢
      have hget : (places.map item)[round.1]? = some (item places[round.1]) := by
        rw [getElem?_map, getElem?_eq_getElem hlt, Option.map_some]
      obtain ⟨picked, hsub, hlength, heq⟩ :=
        ih (fun i => rng (i + round.2)) (places.eraseIdx round.1)
      refine ⟨places[round.1] :: picked, ?_, ?_, ?_⟩
      · exact ((subperm_cons places[round.1]).mpr hsub).trans
          (getElem_cons_eraseIdx_perm hlt).subperm
      · rw [length_cons, hlength, length_eraseIdx_of_lt hlt]
        omega
      · rw [hget]
        dsimp only
        rw [eraseIdx_map, heq, map_cons]

/-- Without exploration the loop takes the head of the list. -/
theorem selectLoop_zero (wanted : ℕ) (rng : Draws) (pool : List α) :
    selectLoop score 0 wanted rng pool = pool.take wanted := by
  induction wanted generalizing rng pool with
  | zero => rfl
  | succ wanted ih =>
    have hround : pickRound score 0 rng pool = (0, 1) :=
      if_neg fun h => (rng 0).2.1.not_gt h.1
    rw [selectLoop, hround]
    cases pool with
    | nil => rfl
    | cons c pool =>
      dsimp only [getElem?_cons_zero, eraseIdx_cons_zero]
      rw [ih, take_succ_cons]

/-- What `epsilonGreedySelect` has to give: items at distinct positions, as many as are wanted,
and the first ones if it never explores. -/
structure Explored (ranked : List α) (count : ℤ) (epsilon : ℚ) (out : List α) : Prop where
  positions : ∃ picked : List (Fin ranked.length), picked.Nodup
    ∧ picked.length = min count.toNat ranked.length ∧ out = picked.map ranked.get
  exploit : epsilon = 0 → out = ranked.take count.toNat

theorem epsilonGreedySelect_explored (ranked : List α) (count : ℤ) (epsilon : ℚ) (rng : Draws) :
    Explored ranked count epsilon (epsilonGreedySelect score ranked count epsilon rng) := by
  refine ⟨?_, ?_⟩
  · obtain ⟨picked, hsub, hlength, heq⟩ := selectLoop_map score ranked.get (clamp01 epsilon)
      count.toNat rng (List.finRange ranked.length)
    refine ⟨picked, ?_, ?_, ?_⟩
    · obtain ⟨l, hperm, hl⟩ := hsub
      exact hperm.nodup_iff.mp (hl.nodup (nodup_finRange _))
    · rwa [length_finRange] at hlength
    · rwa [map_get_finRange] at heq
  · rintro rfl
    have hclamp : clamp01 0 = 0 := clamp01_eq le_rfl zero_le_one
    rw [epsilonGreedySelect, hclamp]
    exact selectLoop_zero score count.toNat rng ranked

end Exploration

/-! ### The threshold -/

section Threshold

/-- A ranked candidate: its score, and the gate where one was set. -/
structure Ranked where
  score : ℚ
  gate : Option ℚ
  deriving DecidableEq

/-- `r.gate ?? r.score`. -/
def Ranked.tested (r : Ranked) : ℚ :=
  r.gate.getD r.score

/-- Does a candidate pass? -/
def Ranked.passes (minScore : ℚ) (r : Ranked) : Bool :=
  decide (minScore ≤ r.tested)

/-- The floor: what is to be kept in any case. -/
def keptFloor (ranked : List Ranked) (keepAtLeast : ℤ) : ℕ :=
  min keepAtLeast.toNat ranked.length

/-- `applyThreshold`. -/
def applyThreshold (ranked : List Ranked) (minScore : ℚ) (keepAtLeast : ℤ) : List Ranked :=
  let passing := ranked.filter (Ranked.passes minScore)
  let floor := keptFloor ranked keepAtLeast
  if floor ≤ passing.length then passing else ranked.take floor

/-- What `applyThreshold` has to give: every candidate that passes, and never fewer than the
floor. -/
structure Thresholded (ranked : List Ranked) (minScore : ℚ) (keepAtLeast : ℤ)
    (out : List Ranked) : Prop where
  keeps : (ranked.filter (Ranked.passes minScore)).Sublist out
  floor_le : min keepAtLeast.toNat ranked.length ≤ out.length

/-- The floor does not cut off a candidate that passes: enough candidates pass, or all that do
stand within the floor. -/
def FloorHarmless (ranked : List Ranked) (minScore : ℚ) (keepAtLeast : ℤ) : Prop :=
  keptFloor ranked keepAtLeast ≤ (ranked.filter (Ranked.passes minScore)).length
    ∨ ∀ r ∈ ranked.drop (keptFloor ranked keepAtLeast), r.tested < minScore

theorem applyThreshold_thresholded_iff (ranked : List Ranked) (minScore : ℚ) (keepAtLeast : ℤ) :
    Thresholded ranked minScore keepAtLeast (applyThreshold ranked minScore keepAtLeast)
      ↔ FloorHarmless ranked minScore keepAtLeast := by
  have hsplit : ranked.filter (Ranked.passes minScore)
      = (ranked.take (keptFloor ranked keepAtLeast)).filter (Ranked.passes minScore)
        ++ (ranked.drop (keptFloor ranked keepAtLeast)).filter (Ranked.passes minScore) := by
    rw [← filter_append, take_append_drop]
  have hbehind : (∀ r ∈ ranked.drop (keptFloor ranked keepAtLeast), r.tested < minScore)
      ↔ (ranked.drop (keptFloor ranked keepAtLeast)).filter (Ranked.passes minScore) = [] := by
    rw [filter_eq_nil_iff]
    exact forall₂_congr fun r _ => by simp [Ranked.passes]
  rw [FloorHarmless, hbehind, applyThreshold]
  split_ifs with hfloor
  · exact iff_of_true ⟨List.Sublist.refl _, hfloor⟩ (Or.inl hfloor)
  · have hlength : (ranked.take (keptFloor ranked keepAtLeast)).length
        = keptFloor ranked keepAtLeast := by
      rw [length_take]
      exact min_eq_left (min_le_right _ _)
    constructor
    · intro h
      right
      -- the candidates that pass fit into those of the head that pass
      have hsub : (ranked.filter (Ranked.passes minScore)).Sublist
          ((ranked.take (keptFloor ranked keepAtLeast)).filter (Ranked.passes minScore)) := by
        have h' := h.keeps.filter (Ranked.passes minScore)
        simpa only [filter_filter, Bool.and_self] using h'
      have hle := hsub.length_le
      rw [hsplit, length_append] at hle
      exact length_eq_zero_iff.mp (by omega)
    · rintro (hle | hnil)
      · exact absurd hle hfloor
      · refine ⟨?_, hlength.ge⟩
        rw [hsplit, hnil, append_nil]
        exact filter_sublist

end Threshold

/-! ### The pipeline -/

/-- **The selection loses and doubles nothing** exactly when the floor of the threshold does not
cut off a candidate that passes. The caps and the exploration never do. -/
theorem selection_loses_nothing_iff {α κ : Type*} [DecidableEq κ] (items : List α)
    (caps : List (Cap α κ)) (targetTotal : ℤ) (score : α → ℚ) (candidates : List α) (count : ℤ)
    (epsilon : ℚ) (rng : Draws) (ranked : List Ranked) (minScore : ℚ) (keepAtLeast : ℤ) :
    Diversified items caps targetTotal (diversifyByKeys items caps targetTotal)
        ∧ Explored candidates count epsilon (epsilonGreedySelect score candidates count epsilon rng)
        ∧ Thresholded ranked minScore keepAtLeast (applyThreshold ranked minScore keepAtLeast)
      ↔ FloorHarmless ranked minScore keepAtLeast := by
  rw [← applyThreshold_thresholded_iff]
  constructor
  · rintro ⟨_, _, h⟩
    exact h
  · intro h
    exact ⟨diversifyByKeys_diversified items caps targetTotal,
      epsilonGreedySelect_explored score candidates count epsilon rng, h⟩

/-- Three candidates; the last one fits less well but is the only one that passes. -/
def outranked : List Ranked :=
  [⟨9 / 10, some (1 / 10)⟩, ⟨8 / 10, some (2 / 10)⟩, ⟨3 / 10, some (8 / 10)⟩]

/-- With a floor of two the candidate that passes is dropped for two that do not. -/
theorem floor_drops_passing : ⟨3 / 10, some (8 / 10)⟩ ∈ outranked.filter (Ranked.passes (1 / 2))
      ∧ ⟨3 / 10, some (8 / 10)⟩ ∉ applyThreshold outranked (1 / 2) 2
      ∧ ¬Thresholded outranked (1 / 2) 2 (applyThreshold outranked (1 / 2) 2) := by
  have hpasses : ⟨3 / 10, some (8 / 10)⟩ ∈ outranked.filter (Ranked.passes (1 / 2)) := by
    decide +kernel
  have hdropped : ⟨3 / 10, some (8 / 10)⟩ ∉ applyThreshold outranked (1 / 2) 2 := by
    decide +kernel
  exact ⟨hpasses, hdropped, fun h => hdropped (h.keeps.subset hpasses)⟩

end Rabotka.Ranking
