import Rabotka.Identity.JaroWinkler
import Rabotka.Lib.Decimal
import Rabotka.Lib.GreedyPairs
import Rabotka.Lib.Trim

/-!
# Matching two names

`matchName` compares a claimed full name with the stored one, word by word. Pairs of words that are
similar enough are kept greedily, the most similar first, each word once; the score says how much
of the claimed name is matched, and how much of the stored one. The arithmetic is exact, and the
folding of the text is given.

The pairs kept are a stable pairing, so at least half as good as the best one, and names of the
same words in any order are the same (`matching_fair`). They are not the best pairing, and where
two words are equally similar to a third their order counts (`greedy_pairs_not_best`).
-/

namespace Rabotka.Identity

open Decimal Lib.StablePairs Lib.Trim List
open Moderation (Units)

/-! ### The code -/

/-- `WORD_FLOOR`. -/
def wordFloor : ℚ := 85 / 100

/-- `CLAIMED_WEIGHT`. -/
def claimedWeight : ℚ := 75 / 100

/-- A claimed word and a stored one, by their places. -/
structure Candidate where
  c : ℕ
  s : ℕ
  similarity : ℚ
  deriving DecidableEq

/-- Two words with their places, if they are similar enough. -/
def candidateOf (a b : Units × ℕ) : Option Candidate :=
  if wordFloor ≤ jaroWinkler a.1 b.1 then some ⟨a.2, b.2, jaroWinkler a.1 b.1⟩ else none

/-- The two loops that collect the candidates, over words with their places. -/
def candidatesOf (claimed stored : List (Units × ℕ)) : List Candidate :=
  claimed.flatMap fun a => stored.filterMap fun b => candidateOf a b

/-- `candidates`. -/
def candidates (claimed stored : List Units) : List Candidate :=
  candidatesOf claimed.zipIdx stored.zipIdx

/-- The candidates kept: sorted, then each one of which no word is used. -/
def keptPairs (claimed stored : List Units) : List Candidate :=
  greedy Candidate.c Candidate.s Candidate.similarity (candidates claimed stored)

/-- `bestPairs`. -/
def bestPairs (claimed stored : List Units) : List ℚ :=
  (keptPairs claimed stored).map Candidate.similarity

/-- `'strong' | 'partial' | 'none'`. -/
inductive NameMatchLevel where
  | strong | partly | none
  deriving DecidableEq

structure NameMatch where
  level : NameMatchLevel
  score : ℤ
  deriving DecidableEq

/-- `levelFor`. -/
def levelFor (score : ℤ) : NameMatchLevel :=
  if 90 ≤ score then .strong
  else if 75 ≤ score then .partly
  else .none

/-- What is rounded to the score: the coverage of either side, weighted. -/
def coverage (claimed stored : List Units) : ℚ :=
  100 * (claimedWeight * ((bestPairs claimed stored).sum / claimed.length)
    + (1 - claimedWeight) * min 1 ((bestPairs claimed stored).sum / stored.length))

/-- `matchName`, from the words of the names on. -/
def matchWords (claimed stored : List Units) : NameMatch :=
  if claimed.length = 0 ∨ stored.length = 0 then ⟨.none, 0⟩
  else ⟨levelFor (mathRound (coverage claimed stored)), mathRound (coverage claimed stored)⟩

structure FullName where
  firstName : Units
  lastName : Units

variable (foldText : Units → Units)

/-- `words`. -/
def words (name : Units) : List Units :=
  ((foldText name).splitOn 32).filter fun word => 0 < word.length

/-- The words of a full name, first and last name together. -/
def FullName.words (name : FullName) : List Units :=
  Identity.words foldText (name.firstName ++ 32 :: name.lastName)

/-- `matchName`. -/
def matchName (claimed stored : FullName) : NameMatch :=
  matchWords (claimed.words foldText) (stored.words foldText)

/-! ### The candidates -/

variable {claimed stored : List Units}

/-- A candidate is a pair of words that are similar enough. -/
theorem mem_candidates {x : Candidate} : x ∈ candidates claimed stored
      ↔ ∃ a b, claimed[x.c]? = some a ∧ stored[x.s]? = some b ∧ wordFloor ≤ jaroWinkler a b
        ∧ x.similarity = jaroWinkler a b := by
  rw [candidates, candidatesOf, mem_flatMap]
  constructor
  · rintro ⟨⟨a, c⟩, hc, hx⟩
    obtain ⟨⟨b, s⟩, hs, hx⟩ := mem_filterMap.mp hx
    rw [candidateOf, Option.ite_none_right_eq_some] at hx
    obtain ⟨hfloor, rfl⟩ := hx.imp_right Option.some.inj
    exact ⟨a, b, mem_zipIdx_iff_getElem?.mp hc, mem_zipIdx_iff_getElem?.mp hs, hfloor, rfl⟩
  · rintro ⟨a, b, hc, hs, hfloor, hsim⟩
    refine ⟨(a, x.c), mem_zipIdx_iff_getElem?.mpr hc, mem_filterMap.mpr
      ⟨(b, x.s), mem_zipIdx_iff_getElem?.mpr hs, ?_⟩⟩
    rw [candidateOf, if_pos hfloor, ← hsim]

/-- The word at a place. -/
def wordAt (l : List Units) (i : ℕ) : Units :=
  l.getD i []

theorem wordAt_eq {l : List Units} {i : ℕ} {a : Units} (h : l[i]? = some a) : wordAt l i = a := by
  rw [wordAt, getD_eq_getElem?_getD, h, Option.getD_some]

theorem getElem?_eq_wordAt {l : List Units} {i : ℕ} (h : i < l.length) :
    l[i]? = some (wordAt l i) := by
  rw [wordAt, getD_eq_getElem?_getD, getElem?_eq_getElem h, Option.getD_some]

/-- Every pair of words that are similar enough is a candidate. -/
theorem market (claimed stored : List Units) :
    Market Candidate.c Candidate.s Candidate.similarity (Finset.range claimed.length)
      (Finset.range stored.length) (wordAt claimed) (wordAt stored) jaroWinkler wordFloor
      (candidates claimed stored).toFinset where
  left_mem x hx := by
    obtain ⟨a, b, hc, -⟩ := mem_candidates.mp (mem_toFinset.mp hx)
    exact Finset.mem_range.mpr (List.getElem?_eq_some_iff.mp hc).1
  right_mem x hx := by
    obtain ⟨a, b, -, hs, -⟩ := mem_candidates.mp (mem_toFinset.mp hx)
    exact Finset.mem_range.mpr (List.getElem?_eq_some_iff.mp hs).1
  weight_eq x hx := by
    obtain ⟨a, b, hc, hs, -, hsim⟩ := mem_candidates.mp (mem_toFinset.mp hx)
    rw [wordAt_eq hc, wordAt_eq hs, hsim]
  floor_le x hx := by
    obtain ⟨a, b, -, -, hfloor, hsim⟩ := mem_candidates.mp (mem_toFinset.mp hx)
    rwa [hsim]
  complete c hc s hs hfloor :=
    ⟨⟨c, s, jaroWinkler (wordAt claimed c) (wordAt stored s)⟩, mem_toFinset.mpr
      (mem_candidates.mpr ⟨_, _, getElem?_eq_wordAt (Finset.mem_range.mp hc),
        getElem?_eq_wordAt (Finset.mem_range.mp hs), hfloor, rfl⟩), rfl, rfl⟩

/-- The kept pairs are a stable pairing of the candidates. -/
theorem stable_keptPairs (claimed stored : List Units) :
    Stable Candidate.c Candidate.s Candidate.similarity (candidates claimed stored).toFinset
      (keptPairs claimed stored).toFinset :=
  stable_greedy (candidates claimed stored)

theorem sum_bestPairs (claimed stored : List Units) :
    ∑ x ∈ (keptPairs claimed stored).toFinset, x.similarity = (bestPairs claimed stored).sum :=
  sum_toFinset _ (nodup_greedy _)

/-- The places of a word are as many as the word is in the list. -/
theorem card_wordAt (l : List Units) (word : Units) :
    ((Finset.range l.length).filter fun i => wordAt l i = word).card = l.count word := by
  have hmap : (List.range l.length).map (wordAt l) = l := by
    refine ext_getElem? fun i => ?_
    rw [getElem?_map]
    by_cases hi : i < l.length
    · rw [getElem?_range hi, Option.map_some, getElem?_eq_wordAt hi]
    · rw [getElem?_eq_none (by rw [length_range]; omega),
        getElem?_eq_none (not_lt.mp hi), Option.map_none]
  conv_rhs => rw [← hmap, List.count, countP_map]
  rw [Finset.card_def, Finset.filter_val, Finset.range_val, ← Multiset.countP_eq_card_filter]
  refine (Multiset.coe_countP _ _).trans (countP_congr fun i _ => ?_)
  simp

/-! ### The score -/

/-- The similarities add up to no more than there are words on either side. -/
theorem sum_bestPairs_le (claimed stored : List Units) :
    0 ≤ (bestPairs claimed stored).sum ∧ (bestPairs claimed stored).sum ≤ claimed.length
      ∧ (bestPairs claimed stored).sum ≤ stored.length := by
  have hM := market claimed stored
  have hK := stable_keptPairs claimed stored
  have hleft := hM.sum_le_card hK fun _ _ _ _ => jaroWinkler_le_one _ _
  have hright := hM.swap.sum_le_card hK.swap fun _ _ _ _ => jaroWinkler_le_one _ _
  rw [sum_bestPairs, Finset.card_range] at hleft hright
  refine ⟨?_, hleft, hright⟩
  rw [← sum_bestPairs]
  exact Finset.sum_nonneg fun x hx =>
    le_trans (by norm_num [wordFloor]) (hM.floor_le x (hK.sub hx))

/-- The coverage of either side is a share. -/
theorem coverage_mem (claimed stored : List Units) :
    0 ≤ coverage claimed stored ∧ coverage claimed stored ≤ 100 := by
  obtain ⟨hnonneg, hleft, hright⟩ := sum_bestPairs_le claimed stored
  have hclaimed : (bestPairs claimed stored).sum / claimed.length ≤ 1 :=
    div_le_one_of_le₀ hleft (Nat.cast_nonneg _)
  have hpos : 0 ≤ (bestPairs claimed stored).sum / claimed.length :=
    div_nonneg hnonneg (Nat.cast_nonneg _)
  have hmin : min 1 ((bestPairs claimed stored).sum / stored.length) ≤ 1 := min_le_left _ _
  have hminpos : 0 ≤ min 1 ((bestPairs claimed stored).sum / stored.length) :=
    le_min zero_le_one (div_nonneg hnonneg (Nat.cast_nonneg _))
  rw [coverage, claimedWeight]
  constructor <;> linarith

theorem mathRound_mono {x y : ℚ} (h : x ≤ y) : mathRound x ≤ mathRound y :=
  Int.floor_le_floor (by linarith)

theorem score_cases (claimed stored : List Units) :
    (claimed.length = 0 ∨ stored.length = 0) ∧ (matchWords claimed stored).score = 0
      ∨ (claimed.length ≠ 0 ∧ stored.length ≠ 0)
        ∧ (matchWords claimed stored).score = mathRound (coverage claimed stored) := by
  rw [matchWords]
  split_ifs with h
  · exact Or.inl ⟨h, rfl⟩
  · exact Or.inr ⟨not_or.mp h, rfl⟩

theorem score_mem (claimed stored : List Units) :
    0 ≤ (matchWords claimed stored).score ∧ (matchWords claimed stored).score ≤ 100 := by
  rcases score_cases claimed stored with ⟨-, hscore⟩ | ⟨-, hscore⟩
  · rw [hscore]
    decide
  · obtain ⟨hnonneg, hle⟩ := coverage_mem claimed stored
    rw [hscore]
    refine ⟨le_trans (by norm_num [mathRound]) (mathRound_mono hnonneg), ?_⟩
    exact (mathRound_mono hle).trans (by norm_num [mathRound])

/-- **Names of the same words, in any order, are the same name.** -/
theorem score_of_perm (h : claimed.Perm stored) (hne : claimed ≠ [])
    (hwords : ∀ word ∈ claimed, word ≠ []) :
    matchWords claimed stored = ⟨.strong, 100⟩ := by
  have hM := market claimed stored
  have hK := stable_keptPairs claimed stored
  have hsum : (bestPairs claimed stored).sum = claimed.length := by
    rw [← sum_bestPairs, hM.sum_eq_card hK (by norm_num [wordFloor]) (by norm_num [wordFloor])
      (fun _ _ _ _ => jaroWinkler_le_one _ _) (fun c hc => jaroWinkler_self ?_)
      (fun _ _ _ _ hone => eq_of_jaroWinkler_eq_one hone) fun word => ?_, Finset.card_range]
    · have hget := getElem?_eq_wordAt (Finset.mem_range.mp hc)
      exact hwords _ (mem_of_getElem? hget)
    · rw [card_wordAt, card_wordAt, h.count_eq]
  have hpos : (0 : ℚ) < claimed.length := by exact_mod_cast length_pos_iff.mpr hne
  have hcoverage : coverage claimed stored = 100 := by
    rw [coverage, hsum, ← h.length_eq, div_self hpos.ne', min_self, claimedWeight]
    norm_num
  have hlength : ¬ (claimed.length = 0 ∨ stored.length = 0) := by
    rw [← h.length_eq, or_self]
    exact fun h0 => hne (eq_nil_of_length_eq_zero h0)
  have hround : mathRound 100 = 100 := by norm_num [mathRound]
  rw [matchWords, if_neg hlength, hcoverage, hround]
  rfl

/-! ### The order of the words -/

/-- Two different words of one side are never equally similar to a word of the other. -/
structure NoTies (claimed stored : List Units) : Prop where
  ofStored : ∀ a ∈ claimed, ∀ b ∈ stored, ∀ b' ∈ stored, wordFloor ≤ jaroWinkler a b →
    jaroWinkler a b' = jaroWinkler a b → b' = b
  ofClaimed : ∀ b ∈ stored, ∀ a ∈ claimed, ∀ a' ∈ claimed, wordFloor ≤ jaroWinkler a b →
    jaroWinkler a' b = jaroWinkler a b → a' = a

theorem wordAt_mem {l : List Units} {i : ℕ} (h : i ∈ Finset.range l.length) : wordAt l i ∈ l :=
  mem_of_getElem? (getElem?_eq_wordAt (Finset.mem_range.mp h))

theorem NoTies.untied (h : NoTies claimed stored) :
    Untied (Finset.range claimed.length) (Finset.range stored.length) (wordAt claimed)
      (wordAt stored) jaroWinkler wordFloor where
  left _ hc _ hs _ hs' :=
    h.ofStored _ (wordAt_mem hc) _ (wordAt_mem hs) _ (wordAt_mem hs')
  right _ hs _ hc _ hc' :=
    h.ofClaimed _ (wordAt_mem hs) _ (wordAt_mem hc) _ (wordAt_mem hc')

/-- Without ties, the order of the words does not change what the similarities add up to. -/
theorem sum_bestPairs_of_perm (hties : NoTies claimed stored) {claimed' stored' : List Units}
    (hclaimed : claimed'.Perm claimed) (hstored : stored'.Perm stored) :
    (bestPairs claimed' stored').sum = (bestPairs claimed stored).sum := by
  have hM := market claimed stored
  have hK := stable_keptPairs claimed stored
  have hM' := market claimed' stored'
  have hK' := stable_keptPairs claimed' stored'
  rw [← sum_bestPairs, ← sum_bestPairs, hM.sum_eq hK, hM'.sum_eq hK',
    hM.kinds_eq hK hties.untied hM' hK' (fun word => ?_) fun word => ?_]
  · rw [card_wordAt, card_wordAt, hclaimed.count_eq]
  · rw [card_wordAt, card_wordAt, hstored.count_eq]

/-- The result depends on the words through the sum of the similarities and the numbers only. -/
theorem matchWords_congr {claimed' stored' : List Units}
    (hsum : (bestPairs claimed' stored').sum = (bestPairs claimed stored).sum)
    (hclaimed : claimed'.length = claimed.length) (hstored : stored'.length = stored.length) :
    matchWords claimed' stored' = matchWords claimed stored := by
  rw [matchWords, matchWords, coverage, coverage, hsum, hclaimed, hstored]

/-! ### Leaving a word out -/

/-- The place of a word in the longer list. -/
def unshift (j s : ℕ) : ℕ :=
  if s < j then s else s + 1

/-- A candidate, with the place of its stored word in the longer list. -/
def replaced (j : ℕ) (x : Candidate) : Candidate :=
  { x with s := unshift j x.s }

theorem replaced_c (j : ℕ) (x : Candidate) : (replaced j x).c = x.c :=
  rfl

theorem replaced_s (j : ℕ) (x : Candidate) : (replaced j x).s = unshift j x.s :=
  rfl

theorem replaced_similarity (j : ℕ) (x : Candidate) : (replaced j x).similarity = x.similarity :=
  rfl

theorem unshift_injective (j : ℕ) : Function.Injective (unshift j) := by
  intro s s' h
  rw [unshift, unshift] at h
  split_ifs at h <;> omega

/-- The words that stay, with their places in the longer list. -/
theorem map_unshift_zipIdx (l : List Units) (j : ℕ) :
    (l.eraseIdx j).zipIdx.map (fun b => (b.1, unshift j b.2)) = l.zipIdx.eraseIdx j := by
  refine ext_getElem? fun i => ?_
  rw [getElem?_map, getElem?_zipIdx, getElem?_eraseIdx, getElem?_eraseIdx,
    getElem?_zipIdx, getElem?_zipIdx, Option.map_map]
  split_ifs with hi
  · refine congrArg (fun g => Option.map g l[i]?) (funext fun w => ?_)
    simp [unshift, hi]
  · refine congrArg (fun g => Option.map g l[i + 1]?) (funext fun w => ?_)
    simp [unshift, hi]

theorem eraseIdx_zipIdx (l : List Units) (n j : ℕ) :
    (l.zipIdx n).eraseIdx j = (l.zipIdx n).filter fun b => b.2 != n + j := by
  induction l generalizing n j with
  | nil => rfl
  | cons w l ih =>
    rw [zipIdx_cons]
    cases j with
    | zero =>
      have hrest : (l.zipIdx (n + 1)).filter (fun b => b.2 != n) = l.zipIdx (n + 1) := by
        refine filter_eq_self.mpr fun b hb => ?_
        have hle := le_snd_of_mem_zipIdx hb
        simp only [bne_iff_ne]
        omega
      rw [eraseIdx_cons_zero, filter_cons_of_neg (by simp)]
      exact hrest.symm
    | succ j =>
      have hplace : n + (j + 1) = n + 1 + j := by omega
      rw [eraseIdx_cons_succ, filter_cons_of_pos (by simp), ih, hplace]

/-- Without a stored word, the candidates are those without it. -/
theorem map_candidates_eraseIdx (claimed stored : List Units) (j : ℕ) :
    (candidates claimed (stored.eraseIdx j)).map (replaced j)
      = (candidates claimed stored).filter fun x => x.s != j := by
  have hstays := (map_unshift_zipIdx stored j).trans (eraseIdx_zipIdx stored 0 j)
  rw [candidates, candidates, candidatesOf, candidatesOf, map_flatMap, filter_flatMap]
  refine flatMap_congr fun a _ => ?_
  rw [Nat.zero_add] at hstays
  rw [map_filterMap, filter_filterMap]
  calc (stored.eraseIdx j).zipIdx.filterMap
        (fun b => (candidateOf a b).map (replaced j))
      = ((stored.eraseIdx j).zipIdx.map fun b => (b.1, unshift j b.2)).filterMap
          (candidateOf a) := by
        rw [filterMap_map]
        refine filterMap_congr fun b _ => ?_
        rw [candidateOf, Function.comp_apply, candidateOf]
        split_ifs <;> rfl
    _ = stored.zipIdx.filterMap fun b => if b.2 != j then candidateOf a b else none := by
        rw [hstays, filterMap_filter]
    _ = stored.zipIdx.filterMap fun b => (candidateOf a b).filter fun x => x.s != j := by
        refine filterMap_congr fun b _ => ?_
        rw [candidateOf]
        split_ifs with hj hfloor hfloor
        · exact (Option.filter_some_pos (p := fun x : Candidate => x.s != j) hj).symm
        · rfl
        · exact (Option.filter_some_neg (p := fun x : Candidate => x.s != j)
            (Bool.eq_false_iff.mpr hj)).symm
        · rfl

/-- A stored word that is in no kept pair may be left out. -/
theorem bestPairs_eraseIdx {j : ℕ} (hfree : ∀ x ∈ keptPairs claimed stored, x.s ≠ j) :
    bestPairs claimed (stored.eraseIdx j) = bestPairs claimed stored := by
  have hsame : (keptPairs claimed (stored.eraseIdx j)).map (replaced j)
      = keptPairs claimed stored := by
    have hmap : greedy Candidate.c Candidate.s Candidate.similarity
        ((candidates claimed (stored.eraseIdx j)).map (replaced j))
          = (keptPairs claimed (stored.eraseIdx j)).map (replaced j) :=
      greedy_map (unshift_injective j) (replaced_c j) (replaced_s j) (replaced_similarity j) _
    rw [map_candidates_eraseIdx] at hmap
    refine hmap.symm.trans (greedy_filter _ _ fun x hx => ?_)
    exact bne_iff_ne.mpr (hfree x hx)
  rw [bestPairs, bestPairs, ← hsame, map_map]
  rfl

/-- **Leaving out a stored word that is not matched does not lower the score.** -/
theorem score_le_eraseIdx {j : ℕ} (hfree : ∀ x ∈ keptPairs claimed stored, x.s ≠ j) :
    (matchWords claimed stored).score ≤ (matchWords claimed (stored.eraseIdx j)).score := by
  have hbest := bestPairs_eraseIdx hfree
  obtain ⟨hnonneg, -, hle⟩ := sum_bestPairs_le claimed (stored.eraseIdx j)
  have hlength : (stored.eraseIdx j).length ≤ stored.length :=
    (eraseIdx_sublist stored j).length_le
  rcases score_cases claimed (stored.eraseIdx j) with ⟨hempty, hafter⟩ | ⟨⟨hclaimed, hpos⟩, hafter⟩
  · rcases score_cases claimed stored with ⟨-, hbefore⟩ | ⟨⟨hclaimed, -⟩, hbefore⟩
    · rw [hafter, hbefore]
    · -- Nothing is left, so nothing was matched.
      have hzero : (bestPairs claimed stored).sum = 0 := by
        rw [hempty.resolve_left hclaimed, Nat.cast_zero] at hle
        rw [← hbest]
        exact le_antisymm hle hnonneg
      rw [hafter, hbefore, coverage, hzero, zero_div, zero_div, min_eq_right zero_le_one]
      norm_num [mathRound]
  · have hbefore : (matchWords claimed stored).score = mathRound (coverage claimed stored) := by
      rcases score_cases claimed stored with ⟨hempty, -⟩ | ⟨-, hbefore⟩
      · omega
      · exact hbefore
    rw [hafter, hbefore]
    refine mathRound_mono ?_
    have hshare : (bestPairs claimed stored).sum / stored.length
        ≤ (bestPairs claimed stored).sum / (stored.eraseIdx j).length :=
      div_le_div_of_nonneg_left (hbest ▸ hnonneg)
        (by exact_mod_cast Nat.pos_of_ne_zero hpos) (by exact_mod_cast hlength)
    have hmin := min_le_min_left 1 hshare
    rw [coverage, coverage, hbest, claimedWeight]
    linarith

/-! ### Matching names -/

/-- What matching two names by their words promises. -/
structure FairMatching : Prop where
  /-- The pairs kept use no word twice, and every pair that is similar enough shares a word with a
  kept one that is at least as similar. -/
  pairs : ∀ claimed stored : List Units,
    Stable Candidate.c Candidate.s Candidate.similarity (candidates claimed stored).toFinset
      (keptPairs claimed stored).toFinset
  /-- No one-to-one pairing is more than twice as good. -/
  half : ∀ claimed stored : List Units, ∀ M ⊆ (candidates claimed stored).toFinset,
    Pairing Candidate.c Candidate.s M → ∑ x ∈ M, x.similarity ≤ 2 * (bestPairs claimed stored).sum
  bounded : ∀ claimed stored : FullName, 0 ≤ (matchName foldText claimed stored).score
      ∧ (matchName foldText claimed stored).score ≤ 100
  /-- The same words in any order are the same name. -/
  same : ∀ claimed stored : FullName, claimed.words foldText ≠ [] →
    (claimed.words foldText).Perm (stored.words foldText) →
      (matchName foldText claimed stored).score = 100
  /-- Where the first name ends does not matter. -/
  split : ∀ claimed claimed' stored stored' : FullName,
    claimed'.firstName ++ 32 :: claimed'.lastName = claimed.firstName ++ 32 :: claimed.lastName →
    stored'.firstName ++ 32 :: stored'.lastName = stored.firstName ++ 32 :: stored.lastName →
      matchName foldText claimed' stored' = matchName foldText claimed stored
  /-- Without ties, the order of the words does not matter. -/
  order : ∀ claimed claimed' stored stored' : FullName,
    NoTies (claimed.words foldText) (stored.words foldText) →
    (claimed'.words foldText).Perm (claimed.words foldText) →
    (stored'.words foldText).Perm (stored.words foldText) →
      matchName foldText claimed' stored' = matchName foldText claimed stored
  /-- Leaving out a stored word that is not matched does not lower the score. -/
  extra : ∀ (claimed stored stored' : FullName) (j : ℕ),
    (∀ x ∈ keptPairs (claimed.words foldText) (stored.words foldText), x.s ≠ j) →
    stored'.words foldText = (stored.words foldText).eraseIdx j →
      (matchName foldText claimed stored).score ≤ (matchName foldText claimed stored').score

theorem FullName.ne_nil_of_mem_words (name : FullName) :
    ∀ word ∈ name.words foldText, word ≠ [] := by
  intro word hword
  have hlength := (mem_filter.mp hword).2
  exact length_pos_iff.mp (of_decide_eq_true hlength)

/-- **Matching names is fair, whatever the text is folded to.** -/
theorem matching_fair : FairMatching foldText where
  pairs := stable_keptPairs
  half claimed stored M hM hpairing := by
    rw [← sum_bestPairs]
    exact (stable_keptPairs claimed stored).sum_le_two_mul (fun x hx =>
      le_trans (by norm_num [wordFloor]) ((market claimed stored).floor_le x hx)) hpairing hM
  bounded _ _ := score_mem _ _
  same claimed stored hne hperm := by
    rw [matchName, score_of_perm hperm hne (claimed.ne_nil_of_mem_words foldText)]
  split claimed claimed' stored stored' hclaimed hstored := by
    rw [matchName, matchName, FullName.words, FullName.words, FullName.words, FullName.words,
      hclaimed, hstored]
  order _ _ _ _ hties hclaimed hstored :=
    matchWords_congr (sum_bestPairs_of_perm hties hclaimed hstored) hclaimed.length_eq
      hstored.length_eq
  extra claimed stored stored' j hfree hwords := by
    rw [matchName, matchName, hwords]
    exact score_le_eraseIdx hfree

/-- **The greedy pairing is not the best, and depends on the order of the words.** For Luc Luca and
Luc Lucie it keeps the equal words only, though each of them is similar to the other one; Marie and
Maria are equally similar to Martin, and only Maria is similar to Martha. -/
theorem greedy_pairs_not_best :
    (∃ M ⊆ (candidates [units "luc", units "luca"] [units "luc", units "lucie"]).toFinset,
      Pairing Candidate.c Candidate.s M
        ∧ (bestPairs [units "luc", units "luca"] [units "luc", units "lucie"]).sum
          < ∑ x ∈ M, x.similarity)
      ∧ (matchName id ⟨units "marie", units "maria"⟩ ⟨units "martin", units "martha"⟩).score
        ≠ (matchName id ⟨units "maria", units "marie"⟩ ⟨units "martin", units "martha"⟩).score := by
  refine ⟨⟨{⟨0, 1, 68 / 75⟩, ⟨1, 0, 113 / 120⟩}, ?_, ?_, ?_⟩, ?_⟩
  · decide +kernel
  · exact ⟨by decide +kernel, by decide +kernel⟩
  · decide +kernel
  · decide +kernel

end Rabotka.Identity
