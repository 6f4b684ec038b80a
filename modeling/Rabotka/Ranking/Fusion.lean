import Mathlib.Algebra.Order.BigOperators.Group.List
import Mathlib.Tactic.Linarith
import Rabotka.Lib.InsertionMap

/-!
# Rank fusion

`rrfFuse` merges ranked lists of ids by rank: each occurrence of an id adds its source's weight,
damped by its rank, to the score of the id, and one to its number of sources. Sources whose weight
is not positive are skipped.

The scores of an id are therefore sums over its occurrences (`get_tally`). Where no source that
counts repeats an id, an occurrence is a source, and the fusion is what it should be: each id
once, in order of score, independent of the order of the sources up to ties, respectful of
dominance, stable under sources that do not know an id, and with the right number of sources
(`Fused.Faithful`). A repeated id is counted as one more source, so the condition is exact
(`fuses_faithfully_iff`).
-/

namespace Rabotka.Ranking

open Lib List

variable {ι : Type*} [DecidableEq ι]

/-! ### The code -/

/-- A candidate source: its ids in rank order, and its weight. -/
structure Source (ι : Type*) where
  ids : List ι
  weight : Option ℚ

/-- `src.weight ?? 1`. -/
def Source.weighted (src : Source ι) : ℚ :=
  src.weight.getD 1

/-- What is accumulated for an id. -/
structure Tally where
  score : ℚ
  sources : ℕ
  deriving DecidableEq

/-- One row of the result. -/
structure Fused (ι : Type*) where
  id : ι
  score : ℚ
  sources : ℕ
  deriving DecidableEq

/-- The new tally of an id from its old one. -/
def Tally.add (prev : Option Tally) (amount : ℚ) : Tally :=
  ⟨(prev.getD ⟨0, 0⟩).score + amount, (prev.getD ⟨0, 0⟩).sources + 1⟩

/-- One turn of the inner loop, on an id and its rank. -/
def addHit (k weight : ℚ) (acc : List (ι × Tally)) (hit : ι × ℕ) : List (ι × Tally) :=
  InsertionMap.set acc hit.1 (Tally.add (InsertionMap.get acc hit.1) (weight / (k + hit.2 + 1)))

/-- One turn of the outer loop. -/
def addSource (k : ℚ) (acc : List (ι × Tally)) (src : Source ι) : List (ι × Tally) :=
  if src.weighted ≤ 0 then acc else src.ids.zipIdx.foldl (addHit k src.weighted) acc

/-- The accumulator after all sources. -/
def tally (sources : List (Source ι)) (k : ℚ) : List (ι × Tally) :=
  sources.foldl (addSource k) []

/-- The rows in the order of the accumulator. -/
def rows (sources : List (Source ι)) (k : ℚ) : List (Fused ι) :=
  (tally sources k).map fun e => ⟨e.1, e.2.score, e.2.sources⟩

/-- The order of the sort: by score, the higher one first. -/
def byScore (a b : Fused ι) : Bool :=
  decide (b.score ≤ a.score)

/-- `rrfFuse`. -/
def rrfFuse (sources : List (Source ι)) (k : ℚ) : List (Fused ι) :=
  (rows sources k).mergeSort byScore

/-! ### Scores as sums over occurrences -/

/-- The amounts that a source adds, in rank order. -/
def Source.hits (k : ℚ) (src : Source ι) : List (ι × ℚ) :=
  if src.weighted ≤ 0 then []
  else src.ids.zipIdx.map fun hit => (hit.1, src.weighted / (k + hit.2 + 1))

/-- The amounts that all sources add. -/
def allHits (k : ℚ) (sources : List (Source ι)) : List (ι × ℚ) :=
  sources.flatMap (Source.hits k)

/-- The loops are one run of updates. -/
theorem foldl_addSource (k : ℚ) (sources : List (Source ι)) (acc : List (ι × Tally)) :
    sources.foldl (addSource k) acc
      = (allHits k sources).foldl (InsertionMap.update Tally.add) acc := by
  rw [allHits, foldl_flatMap]
  refine congrArg (fun step => sources.foldl step acc) (funext fun m => funext fun src => ?_)
  rw [addSource, Source.hits]
  split_ifs
  · rfl
  · rw [foldl_map]
    rfl

/-- Folding the tally of an id adds up the amounts and counts them. -/
theorem foldl_add (amounts : List ℚ) (s : ℚ) (n : ℕ) :
    amounts.foldl (fun old x => some (Tally.add old x)) (some ⟨s, n⟩)
      = some ⟨s + amounts.sum, n + amounts.length⟩ := by
  induction amounts generalizing s n with
  | nil => simp
  | cons x amounts ih =>
    rw [foldl_cons, Tally.add, Option.getD_some, ih, sum_cons, length_cons,
      add_assoc, Nat.add_assoc, Nat.add_comm 1]

/-- The amounts that an id was given. -/
def given (k : ℚ) (sources : List (Source ι)) (id : ι) : List ℚ :=
  InsertionMap.given (allHits k sources) id

/-- **The tally of an id** is the sum and the number of the amounts it was given. -/
theorem get_tally (k : ℚ) (sources : List (Source ι)) (id : ι) :
    InsertionMap.get (tally sources k) id = if given k sources id = [] then none
        else some ⟨(given k sources id).sum, (given k sources id).length⟩ := by
  rw [tally, foldl_addSource, InsertionMap.get_foldl_update, InsertionMap.get_nil]
  change (given k sources id).foldl _ none = _
  cases h : given k sources id with
  | nil => rfl
  | cons x amounts =>
    rw [foldl_cons, if_neg (cons_ne_nil x amounts), sum_cons, length_cons]
    have hfirst : Tally.add none x = ⟨x, 1⟩ := by simp [Tally.add]
    rw [hfirst, foldl_add, Nat.add_comm 1]

theorem nodup_keys_tally (k : ℚ) (sources : List (Source ι)) :
    (InsertionMap.keys (tally sources k)).Nodup := by
  rw [tally, foldl_addSource]
  exact InsertionMap.nodup_keys_foldl_update nodup_nil

variable {sources : List (Source ι)} {k : ℚ}

/-- A row of the result, by its tally. -/
theorem mem_rrfFuse {r : Fused ι} : r ∈ rrfFuse sources k ↔ given k sources r.id ≠ []
      ∧ r.score = (given k sources r.id).sum ∧ r.sources = (given k sources r.id).length := by
  have hrow : r ∈ rrfFuse sources k ↔ (r.id, ⟨r.score, r.sources⟩) ∈ tally sources k := by
    rw [rrfFuse, (mergeSort_perm _ _).mem_iff, rows, mem_map]
    constructor
    · rintro ⟨e, he, rfl⟩
      exact he
    · intro h
      exact ⟨_, h, rfl⟩
  rw [hrow, InsertionMap.mem_iff_get (nodup_keys_tally k sources), get_tally]
  split_ifs with h
  · exact iff_of_false (fun hnone => nomatch hnone) fun hne => hne.1 h
  · rw [Option.some_inj, Tally.mk.injEq, and_iff_right h]
    exact and_congr eq_comm eq_comm

/-- The ids of the rows, in the order of the accumulator. -/
theorem map_id_rows (k : ℚ) (sources : List (Source ι)) :
    (rows sources k).map Fused.id = InsertionMap.keys (tally sources k) := by
  rw [rows, map_map]
  rfl

/-- Each id is returned once. -/
theorem nodup_ids_rrfFuse (k : ℚ) (sources : List (Source ι)) :
    ((rrfFuse sources k).map Fused.id).Nodup := by
  have hperm : ((rrfFuse sources k).map Fused.id).Perm (InsertionMap.keys (tally sources k)) := by
    rw [← map_id_rows]
    exact (mergeSort_perm _ _).map _
  exact hperm.nodup_iff.mpr (nodup_keys_tally k sources)

theorem byScore_trans {ι : Type*} (a b c : Fused ι) (hab : byScore a b = true)
    (hbc : byScore b c = true) : byScore a c = true :=
  decide_eq_true ((of_decide_eq_true hbc).trans (of_decide_eq_true hab))

theorem byScore_total {ι : Type*} (a b : Fused ι) : (byScore a b || byScore b a) = true := by
  rcases le_total a.score b.score with h | h
  · rw [Bool.or_eq_true]
    exact Or.inr (decide_eq_true h)
  · rw [Bool.or_eq_true]
    exact Or.inl (decide_eq_true h)

/-- The rows stand in order of score. -/
theorem sorted_rrfFuse (k : ℚ) (sources : List (Source ι)) :
    (rrfFuse sources k).Pairwise fun a b => b.score ≤ a.score :=
  (pairwise_mergeSort byScore_trans byScore_total _).imp fun h => of_decide_eq_true h

/-! ### The amounts of a source -/

/-- The amounts that one source gives an id. -/
def Source.gives (k : ℚ) (src : Source ι) (id : ι) : List ℚ :=
  InsertionMap.given (src.hits k) id

theorem given_eq_flatMap (k : ℚ) (sources : List (Source ι)) (id : ι) :
    given k sources id = sources.flatMap fun src => src.gives k id := by
  induction sources with
  | nil => rfl
  | cons src sources ih =>
    have hsplit : given k (src :: sources) id = src.gives k id ++ given k sources id := by
      rw [given, allHits, flatMap_cons, InsertionMap.given, filter_append, map_append]
      rfl
    rw [hsplit, ih, flatMap_cons]

variable {src : Source ι}

/-- A source that is skipped gives nothing. -/
theorem gives_of_skipped (h : src.weighted ≤ 0) (id : ι) : src.gives k id = [] := by
  rw [Source.gives, Source.hits, if_pos h]
  rfl

/-- A source that counts gives an amount for each occurrence. -/
theorem length_gives (h : 0 < src.weighted) (id : ι) :
    (src.gives k id).length = src.ids.count id := by
  rw [Source.gives, Source.hits, if_neg h.not_ge, InsertionMap.given, length_map,
    filter_map, length_map, ← countP_eq_length_filter]
  have hids : src.ids = src.ids.zipIdx.map Prod.fst :=
    (zipIdx_map_fst 0 src.ids).symm
  conv_rhs => rw [hids, List.count, countP_map]
  exact countP_congr fun x _ => by simp

/-- An amount is positive. -/
theorem gives_pos (hk : 0 < k) {id : ι} {x : ℚ} (hx : x ∈ src.gives k id) : 0 < x := by
  rw [Source.gives, Source.hits] at hx
  split_ifs at hx with hweight
  · exact nomatch hx
  · rw [InsertionMap.given, mem_map] at hx
    obtain ⟨e, he, rfl⟩ := hx
    obtain ⟨hit, -, rfl⟩ := mem_map.mp (mem_filter.mp he).1
    exact div_pos (not_le.mp hweight) (by positivity)

/-- A source that lists an id once gives the amount of its rank. -/
theorem gives_eq (h : 0 < src.weighted) (hnodup : src.ids.Nodup)
    {id : ι} (hid : id ∈ src.ids) :
    src.gives k id = [src.weighted / (k + src.ids.idxOf id + 1)] := by
  have hlength : (src.gives k id).length = 1 := by
    rw [length_gives h, count_eq_one_of_mem hnodup hid]
  obtain ⟨x, hx⟩ := length_eq_one_iff.mp hlength
  have hmem : src.weighted / (k + src.ids.idxOf id + 1) ∈ src.gives k id := by
    rw [Source.gives, Source.hits, if_neg h.not_ge, InsertionMap.given, mem_map]
    refine ⟨(id, src.weighted / (k + src.ids.idxOf id + 1)), ?_, rfl⟩
    rw [mem_filter]
    refine ⟨mem_map.mpr ⟨(id, src.ids.idxOf id), ?_, rfl⟩, decide_eq_true rfl⟩
    rw [mk_mem_zipIdx_iff_getElem?]
    exact getElem?_idxOf hid
  rw [hx, mem_singleton] at hmem
  rw [hx, hmem]

/-- A source that does not list an id gives it nothing. -/
theorem gives_of_not_mem {id : ι} (h : id ∉ src.ids) : src.gives k id = [] := by
  rcases le_or_gt src.weighted 0 with hw | hw
  · exact gives_of_skipped hw id
  · rw [← length_eq_zero_iff, length_gives hw, count_eq_zero]
    exact h

/-! ### What a fusion has to be -/

/-- One id stands before another in a list. -/
def Before (b a : ι) (l : List ι) : Prop :=
  [b, a].Sublist l

/-- A fusion is faithful: each id of the sources that count once, in order of score; the order of
the sources changes the order of ties only; who beats another in every source that lists the other
never scores lower; a further source that does not list an id does not lift it over another; and
the sources of an id are counted. -/
structure Faithful (sources : List (Source ι)) (k : ℚ) : Prop where
  ids_nodup : ((rrfFuse sources k).map Fused.id).Nodup
  mem_ids : ∀ id, id ∈ (rrfFuse sources k).map Fused.id
    ↔ ∃ src ∈ sources, 0 < src.weighted ∧ id ∈ src.ids
  sorted : (rrfFuse sources k).Pairwise fun a b => b.score ≤ a.score
  permuted : ∀ other : List (Source ι), other.Perm sources →
    (rrfFuse other k).Perm (rrfFuse sources k)
      ∧ (rrfFuse other k).map Fused.score = (rrfFuse sources k).map Fused.score
  dominates : ∀ x ∈ rrfFuse sources k, ∀ y ∈ rrfFuse sources k,
    (∀ src ∈ sources, 0 < src.weighted → y.id ∈ src.ids →
      x.id ∈ src.ids ∧ src.ids.idxOf x.id < src.ids.idxOf y.id) → y.score ≤ x.score
  appended : ∀ (src : Source ι) (a b : ι), a ∉ src.ids →
    Before b a ((rrfFuse sources k).map Fused.id) →
      Before b a ((rrfFuse (sources ++ [src]) k).map Fused.id)
  counted : ∀ r ∈ rrfFuse sources k,
    r.sources = sources.countP fun src => decide (0 < src.weighted ∧ r.id ∈ src.ids)

/-- No source that counts lists an id twice. -/
def Unrepeated (sources : List (Source ι)) : Prop :=
  ∀ src ∈ sources, 0 < src.weighted → src.ids.Nodup

/-! ### Members and counts -/

/-- An id is given something exactly if a source that counts lists it. -/
theorem given_ne_nil_iff {id : ι} :
    given k sources id ≠ [] ↔ ∃ src ∈ sources, 0 < src.weighted ∧ id ∈ src.ids := by
  rw [given_eq_flatMap, Ne, flatMap_eq_nil_iff, not_forall]
  refine exists_congr fun src => ?_
  rw [Classical.not_imp]
  refine and_congr_right fun _ => ?_
  rcases le_or_gt src.weighted 0 with hw | hw
  · exact iff_of_false (fun h => h (gives_of_skipped hw id)) fun h => h.1.not_ge hw
  · rw [← length_eq_zero_iff, length_gives hw, count_eq_zero, not_not]
    exact (and_iff_right hw).symm

theorem mem_ids_rrfFuse (k : ℚ) (sources : List (Source ι)) (id : ι) :
    id ∈ (rrfFuse sources k).map Fused.id ↔ ∃ src ∈ sources, 0 < src.weighted ∧ id ∈ src.ids := by
  rw [← given_ne_nil_iff (k := k), mem_map]
  constructor
  · rintro ⟨r, hr, rfl⟩
    exact (mem_rrfFuse.mp hr).1
  · intro h
    exact ⟨⟨id, (given k sources id).sum, (given k sources id).length⟩,
      mem_rrfFuse.mpr ⟨h, rfl, rfl⟩, rfl⟩

/-- The sources that list an id are at most its occurrences, and as many exactly if no source
that counts repeats it. -/
theorem countP_given (k : ℚ) (sources : List (Source ι)) (id : ι) :
    sources.countP (fun src => decide (0 < src.weighted ∧ id ∈ src.ids))
        ≤ (given k sources id).length
      ∧ ((given k sources id).length
          = sources.countP (fun src => decide (0 < src.weighted ∧ id ∈ src.ids))
        ↔ ∀ src ∈ sources, 0 < src.weighted → src.ids.count id ≤ 1) := by
  induction sources with
  | nil => simp [given, allHits, InsertionMap.given]
  | cons src sources ih =>
    rw [given_eq_flatMap] at ih ⊢
    rw [flatMap_cons, length_append, countP_cons, forall_mem_cons]
    rcases le_or_gt src.weighted 0 with hw | hw
    · rw [gives_of_skipped hw]
      simp only [hw.not_gt, false_and, decide_false, length_nil, Nat.zero_add,
        Bool.false_eq_true, if_false, Nat.add_zero, false_imp_iff, true_and]
      exact ih
    · rw [length_gives hw]
      simp only [hw, true_and, true_imp_iff, decide_eq_true_eq]
      have hcount : id ∈ src.ids ↔ 0 < src.ids.count id := count_pos_iff.symm
      simp only [hcount, ← ih.2]
      have hle := ih.1
      split_ifs <;> omega

/-- The sources of every id are counted exactly if no source that counts repeats an id. -/
theorem counted_iff (k : ℚ) (sources : List (Source ι)) : (∀ r ∈ rrfFuse sources k,
        r.sources = sources.countP fun src => decide (0 < src.weighted ∧ r.id ∈ src.ids))
      ↔ Unrepeated sources := by
  constructor
  · intro h src hsrc hw
    rw [nodup_iff_count_le_one]
    intro id
    by_cases hid : id ∈ src.ids
    · obtain ⟨r, hr, rfl⟩ := mem_map.mp ((mem_ids_rrfFuse k sources id).mpr ⟨src, hsrc, hw, hid⟩)
      have hlength : (given k sources r.id).length
          = sources.countP fun src => decide (0 < src.weighted ∧ r.id ∈ src.ids) :=
        (mem_rrfFuse.mp hr).2.2.symm.trans (h r hr)
      exact (countP_given k sources r.id).2.mp hlength src hsrc hw
    · rw [count_eq_zero_of_not_mem hid]
      exact Nat.zero_le 1
  · intro h r hr
    rw [(mem_rrfFuse.mp hr).2.2]
    exact (countP_given k sources r.id).2.mpr fun src hsrc hw =>
      nodup_iff_count_le_one.mp (h src hsrc hw) r.id

/-! ### Order of the sources, and dominance -/

/-- The rows do not depend on the order of the sources. -/
theorem rrfFuse_perm {sources other : List (Source ι)} (h : other.Perm sources) :
    (rrfFuse other k).Perm (rrfFuse sources k) := by
  have hgiven : ∀ id, (given k other id).Perm (given k sources id) := fun id =>
    ((h.flatMap_right (Source.hits k)).filter _).map _
  have htally : (tally other k).Perm (tally sources k) := by
    refine InsertionMap.perm_of_get_eq (nodup_keys_tally k other) (nodup_keys_tally k sources)
      fun id => ?_
    rw [get_tally, get_tally, (hgiven id).sum_eq, (hgiven id).length_eq]
    simp only [← length_eq_zero_iff, (hgiven id).length_eq]
  exact ((mergeSort_perm _ _).trans (htally.map _)).trans (mergeSort_perm _ _).symm

/-- Nor do the scores in their order. -/
theorem map_score_rrfFuse_perm {sources other : List (Source ι)} (h : other.Perm sources) :
    (rrfFuse other k).map Fused.score = (rrfFuse sources k).map Fused.score := by
  have hsorted : ∀ l : List (Source ι), ((rrfFuse l k).map Fused.score).Pairwise (· ≥ ·) := fun l =>
    pairwise_map.mpr (sorted_rrfFuse k l)
  exact ((rrfFuse_perm h).map _).eq_of_pairwise
    (fun a b _ _ hab hba => le_antisymm hba hab) (hsorted other) (hsorted sources)

/-- The score of an id, summed up by sources. -/
theorem sum_given (k : ℚ) (sources : List (Source ι)) (id : ι) :
    (given k sources id).sum = (sources.map fun src => (src.gives k id).sum).sum := by
  rw [given_eq_flatMap]
  induction sources with
  | nil => rfl
  | cons src sources ih => rw [flatMap_cons, sum_append, ih, map_cons, sum_cons]

theorem sum_gives_nonneg (hk : 0 < k) (src : Source ι) (id : ι) : 0 ≤ (src.gives k id).sum :=
  sum_nonneg fun _ hx => (gives_pos hk hx).le

variable {a b : ι}

/-- **Dominance**, source by source: the better rank gives the larger amount. -/
theorem score_le_of_dominates (hk : 0 < k) (hunrepeated : Unrepeated sources)
    (h : ∀ src ∈ sources, 0 < src.weighted → b ∈ src.ids →
      a ∈ src.ids ∧ src.ids.idxOf a < src.ids.idxOf b) :
    (given k sources b).sum ≤ (given k sources a).sum := by
  rw [sum_given, sum_given]
  refine sum_le_sum fun src hsrc => ?_
  by_cases hb : b ∈ src.ids
  · rcases le_or_gt src.weighted 0 with hw | hw
    · rw [gives_of_skipped hw, gives_of_skipped hw]
    · obtain ⟨ha, hrank⟩ := h src hsrc hw hb
      have hcast : (src.ids.idxOf a : ℚ) ≤ src.ids.idxOf b := by exact_mod_cast hrank.le
      rw [gives_eq hw (hunrepeated src hsrc hw) hb, gives_eq hw (hunrepeated src hsrc hw) ha,
        sum_singleton, sum_singleton]
      exact div_le_div_of_nonneg_left hw.le (by positivity) (by linarith)
  · rw [gives_of_not_mem hb]
    exact sum_gives_nonneg hk src a

/-! ### A further source -/

omit [DecidableEq ι] in
/-- Two members of a list stand in one order or the other. -/
theorem before_total {l : List ι} (ha : a ∈ l) (hb : b ∈ l) (hne : a ≠ b) :
    Before a b l ∨ Before b a l := by
  induction l with
  | nil => exact nomatch ha
  | cons c l ih =>
    rcases mem_cons.mp ha with rfl | ha'
    · have hmem : b ∈ l := (mem_cons.mp hb).resolve_left hne.symm
      exact Or.inl ((singleton_sublist.mpr hmem).cons_cons a)
    · rcases mem_cons.mp hb with rfl | hb'
      · exact Or.inr ((singleton_sublist.mpr ha').cons_cons b)
      · exact (ih ha' hb').imp (fun h => h.cons c) fun h => h.cons c

omit [DecidableEq ι] in
/-- Without repetitions they do not stand in both orders. -/
theorem before_asymm {l : List ι} (hl : l.Nodup) (h : Before a b l) : ¬Before b a l := by
  induction l with
  | nil => exact nomatch h
  | cons c l ih =>
    intro h'
    obtain ⟨hc, hl⟩ := nodup_cons.mp hl
    rcases sublist_cons_iff.mp h with h | ⟨r, hr, h⟩
    · rcases sublist_cons_iff.mp h' with h' | ⟨r, hr', -⟩
      · exact ih hl h h'
      · exact hc ((List.cons.inj hr').1 ▸ h.subset (by simp))
    · rcases sublist_cons_iff.mp h' with h' | ⟨r', hr', h'⟩
      · exact hc ((List.cons.inj hr).1 ▸ h'.subset (by simp))
      · have hab : a = b := (List.cons.inj hr).1.trans (List.cons.inj hr').1.symm
        have hmem : b ∈ l := h.subset (by rw [← (List.cons.inj hr).2]; simp)
        exact hc ((List.cons.inj hr').1 ▸ hmem)

omit [DecidableEq ι] in
/-- An order of ids is an order of rows. -/
theorem rows_of_before {l : List (Fused ι)} (h : Before b a (l.map Fused.id)) :
    ∃ y x : Fused ι, y.id = b ∧ x.id = a ∧ Before y x l := by
  obtain ⟨m, hm, heq⟩ := sublist_map_iff.mp h
  match m, heq with
  | [y, x], heq =>
    simp only [map_cons, map_nil, List.cons.injEq, and_true] at heq
    exact ⟨y, x, heq.1.symm, heq.2.symm, hm⟩

/-- An id that stands before another has at least its score. -/
theorem score_le_of_before (h : Before b a ((rrfFuse sources k).map Fused.id)) :
    (given k sources a).sum ≤ (given k sources b).sum := by
  obtain ⟨y, x, rfl, rfl, hyx⟩ := rows_of_before h
  have hle : x.score ≤ y.score :=
    rel_of_pairwise_cons ((sorted_rrfFuse k sources).sublist hyx) (by simp)
  rwa [(mem_rrfFuse.mp (hyx.subset (by simp))).2.1,
    (mem_rrfFuse.mp (hyx.subset (by simp) : y ∈ _)).2.1] at hle

/-- The sort is stable: with at least the score of the other, an id that was accumulated first
stays first. -/
theorem before_of_keys (hscore : (given k sources a).sum ≤ (given k sources b).sum)
    (h : Before b a (InsertionMap.keys (tally sources k))) :
    Before b a ((rrfFuse sources k).map Fused.id) := by
  rw [← map_id_rows] at h
  obtain ⟨y, x, rfl, rfl, hyx⟩ := rows_of_before h
  have hmem : ∀ r ∈ rows sources k, r.score = (given k sources r.id).sum := fun r hr =>
    (mem_rrfFuse.mp ((mergeSort_perm _ byScore).mem_iff.mpr hr)).2.1
  have hle : byScore y x = true := by
    refine decide_eq_true ?_
    rw [hmem x (hyx.subset (by simp)), hmem y (hyx.subset (by simp))]
    exact hscore
  exact (pair_sublist_mergeSort byScore_trans byScore_total hle hyx).map Fused.id

/-- A further source only adds to what an id is given. -/
theorem given_snoc (k : ℚ) (sources : List (Source ι)) (src : Source ι) (id : ι) :
    given k (sources ++ [src]) id = given k sources id ++ src.gives k id := by
  rw [given_eq_flatMap, given_eq_flatMap, flatMap_append]
  simp

/-- **A further source** that does not list an id never lifts it over another. Its score stays and
the other's does not fall; if they tie in the end they tied before, and what was accumulated first
is still accumulated first. -/
theorem before_append (hk : 0 < k)
    (ha : a ∉ src.ids) (h : Before b a ((rrfFuse sources k).map Fused.id)) :
    Before b a ((rrfFuse (sources ++ [src]) k).map Fused.id) := by
  have hmem : ∀ id ∈ (rrfFuse sources k).map Fused.id,
      id ∈ (rrfFuse (sources ++ [src]) k).map Fused.id := fun id hid => by
    obtain ⟨s, hs, hlisted⟩ := (mem_ids_rrfFuse k sources id).mp hid
    exact (mem_ids_rrfFuse k _ id).mpr ⟨s, mem_append_left _ hs, hlisted⟩
  have hb₀ : b ∈ (rrfFuse sources k).map Fused.id := h.subset (by simp)
  have ha₀ : a ∈ (rrfFuse sources k).map Fused.id := h.subset (by simp)
  have hne : b ≠ a := by
    rintro rfl
    exact before_asymm (nodup_ids_rrfFuse k sources) h h
  have hscore_a : (given k (sources ++ [src]) a).sum = (given k sources a).sum := by
    rw [given_snoc, gives_of_not_mem ha, append_nil]
  have hscore_b : (given k sources b).sum ≤ (given k (sources ++ [src]) b).sum := by
    rw [given_snoc, sum_append]
    exact le_add_of_nonneg_right (sum_gives_nonneg hk src b)
  have hold : (given k sources a).sum ≤ (given k sources b).sum := score_le_of_before h
  rcases before_total (hmem b hb₀) (hmem a ha₀) hne with hdone | hover
  · exact hdone
  · have hnew : (given k (sources ++ [src]) b).sum ≤ (given k (sources ++ [src]) a).sum :=
      score_le_of_before hover
    have htie : (given k sources b).sum ≤ (given k sources a).sum := by linarith
    have hkeys : ∀ id ∈ (rrfFuse sources k).map Fused.id,
        id ∈ InsertionMap.keys (tally sources k) := fun id hid => by
      rw [← map_id_rows]
      exact ((mergeSort_perm _ byScore).map Fused.id).mem_iff.mp hid
    rcases before_total (hkeys b hb₀) (hkeys a ha₀) hne with hfirst | hlater
    · have hprefix : InsertionMap.keys (tally sources k)
          <+: InsertionMap.keys (tally (sources ++ [src]) k) := by
        rw [tally, tally, foldl_append, foldl_addSource k [src]]
        exact InsertionMap.keys_prefix_foldl_update
      exact before_of_keys (by linarith) (hfirst.trans hprefix.sublist)
    · exact absurd (before_of_keys htie hlater) (before_asymm (nodup_ids_rrfFuse k sources) h)

/-- **Rank fusion is faithful** exactly when no source that counts lists an id twice. -/
theorem fuses_faithfully_iff (sources : List (Source ι)) (k : ℚ) (hk : 0 < k) :
    Faithful sources k ↔ Unrepeated sources := by
  constructor
  · intro h
    exact (counted_iff k sources).mp h.counted
  · intro h
    exact {
      ids_nodup := nodup_ids_rrfFuse k sources
      mem_ids := mem_ids_rrfFuse k sources
      sorted := sorted_rrfFuse k sources
      permuted := fun _ hperm => ⟨rrfFuse_perm hperm, map_score_rrfFuse_perm hperm⟩
      dominates := fun x hx y hy hdom => by
        rw [(mem_rrfFuse.mp hx).2.1, (mem_rrfFuse.mp hy).2.1]
        exact score_le_of_dominates hk h hdom
      appended := fun _ _ _ ha hbefore => before_append hk ha hbefore
      counted := (counted_iff k sources).mpr h }

/-- A source that lists one id twice. -/
def repeating : List (Source ℕ) :=
  [⟨[7, 7], none⟩]

/-- It is reported as two sources. -/
theorem repeated_id_counts_twice :
    (rrfFuse repeating 60).map Fused.sources = [2] ∧ ¬Faithful repeating 60 := by
  have hrows : rows repeating 60 = [⟨7, 1 / 61 + 1 / 62, 2⟩] := by
    decide +kernel
  have hfuse : rrfFuse repeating 60 = [⟨7, 1 / 61 + 1 / 62, 2⟩] := by
    rw [rrfFuse, hrows, mergeSort_singleton]
  refine ⟨by rw [hfuse]; rfl, fun h => ?_⟩
  have hcount := h.counted ⟨7, 1 / 61 + 1 / 62, 2⟩ (by rw [hfuse]; exact mem_singleton_self _)
  revert hcount
  decide

/-- Two sources without repetitions are fused faithfully. -/
theorem two_sources_fused : Faithful [⟨[1, 2], none⟩, ⟨[2, 3], some (1 / 2)⟩] 60 :=
  (fuses_faithfully_iff [⟨[1, 2], none⟩, ⟨[2, 3], some (1 / 2)⟩] 60 (by norm_num)).mpr
    (by simp [Unrepeated])

end Rabotka.Ranking
