import Mathlib.Algebra.Order.Field.Basic
import Mathlib.Tactic.Ring
import Rabotka.Lib.StablePairs
import Rabotka.Moderation.Normalize

/-!
# Similarity of two words

`jaroWinkler` compares two words by the units they have in common near the same place, and rewards
a common beginning. Words are UTF-16 units, and the arithmetic is exact.

The similarity is at most one (`jaroWinkler_le_one`), one for a word and itself, and one for no
other pair (`eq_of_jaroWinkler_eq_one`): then every unit is matched, and none is out of order.

It does not matter which word goes first (`jaroWinkler_comm`): every place takes the first partner
that is free when its turn comes, from whichever side (`prompt_matchPairs`), and there is only one
such pairing. `jaroWinklerAt` is the code place by place; the scan of the common beginning is the
one part that looks past an end (`jaroWinklerAt_eq`).
-/

namespace Rabotka.Identity

open Lib.StablePairs List
open Moderation (Units)

/-! ### The code -/

/-- `window`. -/
def matchWindow (a b : Units) : ℕ :=
  max a.length b.length / 2 - 1

/-- The inner loop: the first place that is not matched yet and holds the unit. -/
def findFree (x : UInt16) (b : Units) (bMatched : List Bool) (start stop : ℕ) : Option ℕ :=
  (range' start (stop + 1 - start)).find? fun j =>
    bMatched[j]? == some false && b[j]? == some x

/-- The loop that fills `aMatched` and `bMatched`, from the `i`-th unit on. -/
def matchLoop (b : Units) (window : ℕ) : ℕ → Units → List Bool → List Bool × List Bool
  | _, [], bMatched => ([], bMatched)
  | i, x :: a, bMatched =>
    match findFree x b bMatched (i - window) (min (b.length - 1) (i + window)) with
    | none =>
      let rest := matchLoop b window (i + 1) a bMatched
      (false :: rest.1, rest.2)
    | some j =>
      let rest := matchLoop b window (i + 1) a (bMatched.set j true)
      (true :: rest.1, rest.2)

/-- `aMatched` and `bMatched` when the loop has ended. -/
def matchFlags (a b : Units) : List Bool × List Bool :=
  matchLoop b (matchWindow a b) 0 a (replicate b.length false)

/-- `matches`. -/
def matchCount (a b : Units) : ℕ :=
  (matchFlags a b).1.count true

/-- The matched units of a word, in their order. -/
def matchedUnits (a : Units) (flags : List Bool) : Units :=
  (a.zip flags).filterMap fun p => if p.2 then some p.1 else none

/-- `transpositions`: the places at which the matched units differ. -/
def transpositions (a b : Units) : ℕ :=
  ((matchedUnits a (matchFlags a b).1).zip (matchedUnits b (matchFlags a b).2)).countP
    fun p => p.1 != p.2

/-- `jaro`. -/
def jaro (a b : Units) : ℚ :=
  (matchCount a b / a.length + matchCount a b / b.length
    + (matchCount a b - transpositions a b / 2) / matchCount a b) / 3

/-- The length of the common beginning, up to a bound. -/
def commonPrefix : ℕ → Units → Units → ℕ
  | n + 1, x :: a, y :: b => if x = y then commonPrefix n a b + 1 else 0
  | _, _, _ => 0

/-- `jaroWinkler`. -/
def jaroWinkler (a b : Units) : ℚ :=
  if a = b then (if a = [] then 0 else 1)
  else if a = [] ∨ b = [] then 0
  else if matchCount a b = 0 then 0
  else jaro a b + commonPrefix 4 a b * (1 / 10) * (1 - jaro a b)

/-! ### The matches -/

theorem length_matchLoop (b : Units) (window i : ℕ) (a : Units) (bMatched : List Bool) :
    (matchLoop b window i a bMatched).1.length = a.length := by
  induction a generalizing i bMatched with
  | nil => rfl
  | cons x a ih =>
    rw [matchLoop]
    cases findFree x b bMatched (i - window) (min (b.length - 1) (i + window)) with
    | none => exact congrArg (· + 1) (ih (i + 1) bMatched)
    | some j => exact congrArg (· + 1) (ih (i + 1) (bMatched.set j true))

variable {bMatched : List Bool} {x : UInt16} {b : Units} {start stop j : ℕ}

/-- A match takes a place that was free. -/
theorem count_set_of_findFree (h : findFree x b bMatched start stop = some j) :
    (bMatched.set j true).count true = bMatched.count true + 1 := by
  have hfound := find?_some h
  rw [Bool.and_eq_true, beq_iff_eq] at hfound
  obtain ⟨hj, hfalse⟩ := List.getElem?_eq_some_iff.mp hfound.1
  rw [count_set hj, hfalse]
  rfl

theorem count_matchLoop (b : Units) (window i : ℕ) (a : Units) (bMatched : List Bool) :
    (matchLoop b window i a bMatched).2.length = bMatched.length
      ∧ (matchLoop b window i a bMatched).2.count true
        = bMatched.count true + (matchLoop b window i a bMatched).1.count true := by
  induction a generalizing i bMatched with
  | nil => exact ⟨rfl, rfl⟩
  | cons x a ih =>
    rw [matchLoop]
    cases hfound : findFree x b bMatched (i - window) (min (b.length - 1) (i + window)) with
    | none =>
      obtain ⟨hlength, hcount⟩ := ih (i + 1) bMatched
      refine ⟨hlength, hcount.trans ?_⟩
      rw [count_cons_of_ne (by decide)]
    | some j =>
      obtain ⟨hlength, hcount⟩ := ih (i + 1) (bMatched.set j true)
      refine ⟨hlength.trans (length_set ..), hcount.trans ?_⟩
      rw [count_set_of_findFree hfound, count_cons_self]
      omega

/-- There are as many flags as units, and as many matches on either side. -/
theorem matchFlags_spec (a b : Units) :
    (matchFlags a b).1.length = a.length ∧ (matchFlags a b).2.length = b.length
      ∧ (matchFlags a b).2.count true = matchCount a b := by
  obtain ⟨hlength, hcount⟩ :=
    count_matchLoop b (matchWindow a b) 0 a (replicate b.length false)
  refine ⟨length_matchLoop .., hlength.trans length_replicate, hcount.trans ?_⟩
  rw [count_replicate]
  exact Nat.zero_add _

theorem matchCount_le_left (a b : Units) : matchCount a b ≤ a.length :=
  (matchFlags_spec a b).1 ▸ count_le_length

theorem matchCount_le_right (a b : Units) : matchCount a b ≤ b.length := by
  obtain ⟨-, hlength, hcount⟩ := matchFlags_spec a b
  exact hcount ▸ hlength ▸ count_le_length

/-- If all are matched, the matched units are the word. -/
theorem matchedUnits_of_count {a : Units} {flags : List Bool} (hlength : flags.length = a.length)
    (hall : flags.count true = a.length) : matchedUnits a flags = a := by
  have htrue : flags = replicate a.length true := by
    rw [← hlength]
    exact eq_replicate_of_mem fun x hx =>
      (count_eq_length.mp (hall.trans hlength.symm) x hx).symm
  subst htrue
  clear hlength hall
  induction a with
  | nil => rfl
  | cons x a ih =>
    rw [length_cons, replicate_succ]
    exact congrArg (x :: ·) ih

/-! ### The similarity -/

theorem commonPrefix_le (n : ℕ) (a b : Units) : commonPrefix n a b ≤ n := by
  induction n generalizing a b with
  | zero => exact Nat.zero_le _
  | succ n ih =>
    cases a with
    | nil => exact Nat.zero_le _
    | cons x a =>
      cases b with
      | nil => exact Nat.zero_le _
      | cons y b =>
        rw [commonPrefix]
        split_ifs
        · exact Nat.succ_le_succ (ih a b)
        · exact Nat.zero_le _

variable {a b : Units}

/-- Each of the three parts is at most one. -/
theorem jaro_parts (hpos : 0 < matchCount a b) :
    (matchCount a b : ℚ) / a.length ≤ 1 ∧ (matchCount a b : ℚ) / b.length ≤ 1
      ∧ ((matchCount a b : ℚ) - transpositions a b / 2) / matchCount a b ≤ 1 := by
  have hm : (0 : ℚ) < matchCount a b := by exact_mod_cast hpos
  have hleft : (matchCount a b : ℚ) ≤ a.length := by exact_mod_cast matchCount_le_left a b
  have hright : (matchCount a b : ℚ) ≤ b.length := by exact_mod_cast matchCount_le_right a b
  have ht : (0 : ℚ) ≤ transpositions a b := Nat.cast_nonneg _
  refine ⟨(div_le_one (by linarith)).mpr hleft, (div_le_one (by linarith)).mpr hright,
    (div_le_one hm).mpr (by linarith)⟩

theorem jaro_le_one (hpos : 0 < matchCount a b) : jaro a b ≤ 1 := by
  obtain ⟨hleft, hright, horder⟩ := jaro_parts hpos
  rw [jaro]
  linarith

/-- If nothing is missing in the end, all units are matched and in order. -/
theorem eq_of_jaro_eq_one (hpos : 0 < matchCount a b) (h : jaro a b = 1) : a = b := by
  obtain ⟨hleft, hright, horder⟩ := jaro_parts hpos
  rw [jaro] at h
  have hm : (matchCount a b : ℚ) ≠ 0 := by exact_mod_cast hpos.ne'
  have ha : (matchCount a b : ℚ) / a.length = 1 := by linarith
  have hb : (matchCount a b : ℚ) / b.length = 1 := by linarith
  have ht : ((matchCount a b : ℚ) - transpositions a b / 2) / matchCount a b = 1 := by linarith
  have hma : matchCount a b = a.length := by exact_mod_cast eq_of_div_eq_one ha
  have hmb : matchCount a b = b.length := by exact_mod_cast eq_of_div_eq_one hb
  have hnone : transpositions a b = 0 := by
    have hsame := eq_of_div_eq_one ht
    have hzero : (transpositions a b : ℚ) = 0 := by linarith
    exact_mod_cast hzero
  obtain ⟨hlengthA, hlengthB, hcount⟩ := matchFlags_spec a b
  rw [transpositions, matchedUnits_of_count hlengthA hma,
    matchedUnits_of_count hlengthB (hcount.trans hmb), countP_eq_zero] at hnone
  refine ext_getElem (hma.symm.trans hmb) fun i hi hi' => ?_
  have hmem : (a[i], b[i]) ∈ a.zip b := by
    rw [← getElem_zip (h := by rw [length_zip]; omega)]
    exact getElem_mem _
  simpa using hnone _ hmem

theorem jaroWinkler_self {a : Units} (h : a ≠ []) : jaroWinkler a a = 1 := by
  rw [jaroWinkler, if_pos rfl, if_neg h]

/-- The reward for a common beginning takes less than half of what is missing. -/
theorem jaroWinkler_cases (a b : Units) : a = b ∨ jaroWinkler a b = 0 ∨ 0 < matchCount a b
      ∧ 1 - jaroWinkler a b = (1 - commonPrefix 4 a b / 10) * (1 - jaro a b) := by
  rw [jaroWinkler]
  split_ifs with heq hnil hempty hnone
  · exact Or.inl heq
  · exact Or.inl heq
  · exact Or.inr (Or.inl rfl)
  · exact Or.inr (Or.inl rfl)
  · refine Or.inr (Or.inr ⟨Nat.pos_of_ne_zero hnone, ?_⟩)
    ring

theorem prefix_share (a b : Units) : (0 : ℚ) < 1 - commonPrefix 4 a b / 10 := by
  have h : (commonPrefix 4 a b : ℚ) ≤ 4 := by exact_mod_cast commonPrefix_le 4 a b
  linarith

theorem jaroWinkler_le_one (a b : Units) : jaroWinkler a b ≤ 1 := by
  rcases jaroWinkler_cases a b with rfl | hzero | ⟨hpos, hmissing⟩
  · rw [jaroWinkler, if_pos rfl]
    split_ifs <;> norm_num
  · rw [hzero]
    norm_num
  · have h := mul_nonneg (prefix_share a b).le (sub_nonneg.mpr (jaro_le_one hpos))
    linarith

/-- Only a word itself is as similar as can be. -/
theorem eq_of_jaroWinkler_eq_one (h : jaroWinkler a b = 1) : a = b := by
  rcases jaroWinkler_cases a b with heq | hzero | ⟨hpos, hmissing⟩
  · exact heq
  · rw [hzero] at h
    exact absurd h zero_ne_one
  · rw [h, sub_self] at hmissing
    rcases mul_eq_zero.mp hmissing.symm with hshare | hjaro
    · exact absurd hshare (prefix_share a b).ne'
    · exact eq_of_jaro_eq_one hpos (sub_eq_zero.mp hjaro).symm

/-! ### The same pairs from either side -/

/-- The places that the loop pairs. -/
def matchPairs (b : Units) (window : ℕ) : ℕ → Units → List Bool → List (ℕ × ℕ)
  | _, [], _ => []
  | i, x :: a, bMatched =>
    match findFree x b bMatched (i - window) (min (b.length - 1) (i + window)) with
    | none => matchPairs b window (i + 1) a bMatched
    | some j => (i, j) :: matchPairs b window (i + 1) a (bMatched.set j true)

/-- Two places hold the same unit and are within the window. -/
def Within (a b : Units) (window i j : ℕ) : Prop :=
  (∃ x, a[i]? = some x ∧ b[j]? = some x) ∧ i ≤ j + window ∧ j ≤ i + window

/-- A place of what is left of `a`, from the `i`-th unit on, and a free one within the window. -/
def Open (b : Units) (window i : ℕ) (a : Units) (bMatched : List Bool) (k j : ℕ) : Prop :=
  i ≤ k ∧ (∃ x, a[k - i]? = some x ∧ b[j]? = some x) ∧ (k ≤ j + window ∧ j ≤ k + window)
    ∧ bMatched[j]? = some false

theorem findFree_eq_none
    (h : findFree x b bMatched start stop = none) (hstart : start ≤ j) (hstop : j ≤ stop)
    (hfree : bMatched[j]? = some false) : b[j]? ≠ some x := by
  have hnone := find?_range'_eq_none.mp h j hstart (by omega)
  intro hunit
  rw [hfree, hunit] at hnone
  simp at hnone

theorem findFree_eq_some (h : findFree x b bMatched start stop = some j) :
    (start ≤ j ∧ j ≤ stop) ∧ bMatched[j]? = some false ∧ b[j]? = some x
      ∧ ∀ k, start ≤ k → bMatched[k]? = some false → b[k]? = some x → j ≤ k := by
  obtain ⟨hj, hmem, hfirst⟩ := find?_range'_eq_some.mp h
  rw [Bool.and_eq_true, beq_iff_eq, beq_iff_eq] at hj
  rw [mem_range'_1] at hmem
  refine ⟨by omega, hj.1, hj.2, fun k hk hfree hunit => ?_⟩
  by_contra hlt
  have hnot := hfirst k hk (by omega)
  rw [hfree, hunit] at hnot
  simp at hnot

theorem getElem?_set_true {l : List Bool} {j k : ℕ} (hj : l[j]? = some false) :
    ((l.set j true)[k]? = some false ↔ k ≠ j ∧ l[k]? = some false)
      ∧ ((l.set j true)[k]? = some true ↔ k = j ∨ l[k]? = some true) := by
  have hlength := (List.getElem?_eq_some_iff.mp hj).1
  rw [getElem?_set]
  rcases eq_or_ne j k with rfl | hne
  · simp [hlength]
  · simp [hne, hne.symm]

/-- What is left when the first unit has had its turn. -/
theorem open_cons {window i k j : ℕ} : Open b window i (x :: a) bMatched k j
      ↔ (k = i ∧ b[j]? = some x ∧ (i ≤ j + window ∧ j ≤ i + window) ∧ bMatched[j]? = some false)
        ∨ Open b window (i + 1) a bMatched k j := by
  constructor
  · rintro ⟨hik, ⟨y, ha, hb⟩, hwindow, hfree⟩
    rcases eq_or_lt_of_le hik with rfl | hlt
    · rw [Nat.sub_self] at ha
      cases ha
      exact Or.inl ⟨rfl, hb, hwindow, hfree⟩
    · refine Or.inr ⟨hlt, ⟨y, ?_, hb⟩, hwindow, hfree⟩
      rw [show k - i = k - (i + 1) + 1 by omega] at ha
      exact ha
  · rintro (⟨rfl, hb, hwindow, hfree⟩ | ⟨hik, ⟨y, ha, hb⟩, hwindow, hfree⟩)
    · exact ⟨le_rfl, ⟨x, by rw [Nat.sub_self]; rfl, hb⟩, hwindow, hfree⟩
    · refine ⟨by omega, ⟨y, ?_, hb⟩, hwindow, hfree⟩
      rw [show k - i = k - (i + 1) + 1 by omega]
      exact ha

/-- Each place takes the first partner that is still free when its turn comes. -/
theorem prompt_matchPairs (b : Units) (window i : ℕ) (a : Units) (bMatched : List Bool) :
    Prompt (Open b window i a bMatched) fun k j => (k, j) ∈ matchPairs b window i a bMatched := by
  induction a generalizing i bMatched with
  | nil =>
    refine ⟨fun h => absurd h not_mem_nil, fun h => absurd h not_mem_nil,
      fun h => absurd h not_mem_nil, ?_⟩
    rintro k j ⟨-, ⟨x, hx, -⟩, -⟩
    cases hx
  | cons x a ih =>
    rw [matchPairs]
    cases hfound : findFree x b bMatched (i - window) (min (b.length - 1) (i + window)) with
    | none =>
      have hopen : Open b window i (x :: a) bMatched = Open b window (i + 1) a bMatched := by
        funext k j
        rw [open_cons, eq_iff_iff, or_iff_right]
        rintro ⟨rfl, hb, hwindow, hfree⟩
        have hlength := (List.getElem?_eq_some_iff.mp hb).1
        exact findFree_eq_none hfound (by omega) (by omega) hfree hb
      rw [hopen]
      exact ih (i + 1) bMatched
    | some j₀ =>
      obtain ⟨hwindow, hfree, hunit, hfirst⟩ := findFree_eq_some hfound
      have hrest := ih (i + 1) (bMatched.set j₀ true)
      have hopen : ∀ {k j}, Open b window (i + 1) a (bMatched.set j₀ true) k j
          ↔ j ≠ j₀ ∧ Open b window (i + 1) a bMatched k j := by
        intro k j
        rw [Open, Open, (getElem?_set_true hfree).1]
        tauto
      have hlength := (List.getElem?_eq_some_iff.mp hunit).1
      refine ⟨?_, ?_, ?_, ?_⟩
      · intro k j h
        rw [open_cons]
        rcases mem_cons.mp h with heq | h
        · cases heq
          exact Or.inl ⟨rfl, hunit, by omega, hfree⟩
        · exact Or.inr (hopen.mp (hrest.sub h)).2
      · intro k j j' h h'
        rcases mem_cons.mp h with heq | h <;> rcases mem_cons.mp h' with heq' | h'
        · cases heq
          cases heq'
          rfl
        · cases heq
          exact absurd (hrest.sub h').1 (by omega)
        · cases heq'
          exact absurd (hrest.sub h).1 (by omega)
        · exact hrest.left h h'
      · intro k k' j h h'
        rcases mem_cons.mp h with heq | h <;> rcases mem_cons.mp h' with heq' | h'
        · cases heq
          cases heq'
          rfl
        · cases heq
          exact absurd rfl (hopen.mp (hrest.sub h')).1
        · cases heq'
          exact absurd rfl (hopen.mp (hrest.sub h)).1
        · exact hrest.right h h'
      · intro k j h hnot
        rw [mem_cons, not_or] at hnot
        rcases open_cons.mp h with ⟨rfl, hb, hnear, hj⟩ | hlater
        · have hle := hfirst j (by omega) hj hb
          rcases eq_or_lt_of_le hle with rfl | hlt
          · exact absurd rfl hnot.1
          · exact Or.inl ⟨j₀, hlt, mem_cons_self⟩
        · rcases eq_or_ne j j₀ with rfl | hne
          · exact Or.inr ⟨i, hlater.1, mem_cons_self⟩
          · rcases hrest.prompt (hopen.mpr ⟨hne, hlater⟩) hnot.2 with ⟨j', hlt, h'⟩ | ⟨k', hlt, h'⟩
            · exact Or.inl ⟨j', hlt, mem_cons_of_mem _ h'⟩
            · exact Or.inr ⟨k', hlt, mem_cons_of_mem _ h'⟩

/-- The flags say which places are paired. -/
theorem matchLoop_eq_true (b : Units) (window i : ℕ) (a : Units) (bMatched : List Bool) (k : ℕ) :
    ((matchLoop b window i a bMatched).1[k]? = some true
        ↔ ∃ j, (i + k, j) ∈ matchPairs b window i a bMatched)
      ∧ ((matchLoop b window i a bMatched).2[k]? = some true
        ↔ bMatched[k]? = some true ∨ ∃ j, (j, k) ∈ matchPairs b window i a bMatched) := by
  induction a generalizing i bMatched k with
  | nil => simp [matchLoop, matchPairs]
  | cons x a ih =>
    rw [matchLoop, matchPairs]
    cases hfound : findFree x b bMatched (i - window) (min (b.length - 1) (i + window)) with
    | none =>
      refine ⟨?_, (ih (i + 1) bMatched k).2⟩
      cases k with
      | zero =>
        refine iff_of_false (by simp) ?_
        rintro ⟨j, h⟩
        have hlater := ((prompt_matchPairs b window (i + 1) a bMatched).sub h).1
        omega
      | succ k =>
        rw [getElem?_cons_succ, (ih (i + 1) bMatched k).1, show i + 1 + k = i + (k + 1) by omega]
    | some j₀ =>
      obtain ⟨-, hfree, -⟩ := findFree_eq_some hfound
      constructor
      · cases k with
        | zero => exact iff_of_true rfl ⟨j₀, mem_cons_self⟩
        | succ k =>
          rw [getElem?_cons_succ, (ih (i + 1) (bMatched.set j₀ true) k).1,
            show i + 1 + k = i + (k + 1) by omega]
          simp
      · rw [(ih (i + 1) (bMatched.set j₀ true) k).2, (getElem?_set_true hfree).2]
        simp only [mem_cons, Prod.mk.injEq, exists_or, exists_eq_left]
        tauto

/-- The places that are paired are the same whichever word goes first. -/
theorem mem_matchPairs_comm (a b : Units) (i j : ℕ) :
    (j, i) ∈ matchPairs a (matchWindow b a) 0 b (replicate a.length false)
      ↔ (i, j) ∈ matchPairs b (matchWindow a b) 0 a (replicate b.length false) := by
  have hopen : ∀ a b : Units, Open b (matchWindow a b) 0 a (replicate b.length false)
      = Within a b (matchWindow a b) := by
    intro a b
    funext i j
    rw [Open, Within, Nat.sub_zero, eq_iff_iff]
    constructor
    · rintro ⟨-, hunit, hwindow, -⟩
      exact ⟨hunit, hwindow⟩
    · rintro ⟨⟨x, ha, hb⟩, hwindow⟩
      refine ⟨Nat.zero_le _, ⟨x, ha, hb⟩, hwindow, ?_⟩
      rw [getElem?_replicate, if_pos (List.getElem?_eq_some_iff.mp hb).1]
  have hswap : Within b a (matchWindow b a) = fun j i => Within a b (matchWindow a b) i j := by
    funext j i
    rw [matchWindow, max_comm, ← matchWindow, Within, Within, and_comm (a := j ≤ _)]
    simp only [and_comm]
  have hleft := prompt_matchPairs b (matchWindow a b) 0 a (replicate b.length false)
  have hright := prompt_matchPairs a (matchWindow b a) 0 b (replicate a.length false)
  rw [hopen] at hleft hright
  rw [hswap] at hright
  exact hright.swap.iff hleft i j

/-! ### Symmetry -/

theorem eq_of_flags {l l' : List Bool} (hlength : l.length = l'.length)
    (h : ∀ k : ℕ, l[k]? = some true ↔ l'[k]? = some true) : l = l' := by
  refine ext_getElem hlength fun k hk hk' => ?_
  have hflag := h k
  rw [getElem?_eq_getElem hk, getElem?_eq_getElem hk', Option.some.injEq,
    Option.some.injEq] at hflag
  exact Bool.eq_iff_iff.mpr hflag

/-- Each side gets the flags it gets when the other word goes first. -/
theorem matchFlags_comm (a b : Units) : (matchFlags b a).1 = (matchFlags a b).2 := by
  refine eq_of_flags ((matchFlags_spec b a).1.trans (matchFlags_spec a b).2.1.symm) fun j => ?_
  rw [matchFlags, matchFlags, (matchLoop_eq_true a _ 0 b _ j).1, (matchLoop_eq_true b _ 0 a _ j).2,
    Nat.zero_add, or_iff_right]
  · exact exists_congr fun i => mem_matchPairs_comm a b i j
  · rw [getElem?_replicate]
    split_ifs <;> simp

theorem matchCount_comm (a b : Units) : matchCount b a = matchCount a b := by
  rw [matchCount, matchFlags_comm]
  exact (matchFlags_spec a b).2.2

theorem transpositions_comm (a b : Units) : transpositions b a = transpositions a b := by
  rw [transpositions, transpositions, matchFlags_comm, ← matchFlags_comm b a, ← zip_swap,
    countP_map]
  exact countP_congr fun p _ => by simp [bne_iff_ne, ne_comm]

theorem jaro_comm (a b : Units) : jaro b a = jaro a b := by
  rw [jaro, jaro, matchCount_comm, transpositions_comm]
  ring

theorem commonPrefix_comm (n : ℕ) (a b : Units) : commonPrefix n b a = commonPrefix n a b := by
  induction n generalizing a b with
  | zero => rfl
  | succ n ih =>
    cases a with
    | nil => cases b <;> rfl
    | cons x a =>
      cases b with
      | nil => rfl
      | cons y b =>
        rw [commonPrefix, commonPrefix, ih]
        exact if_congr eq_comm rfl rfl

theorem jaroWinkler_comm (a b : Units) : jaroWinkler a b = jaroWinkler b a := by
  rw [jaroWinkler, jaroWinkler, matchCount_comm, jaro_comm, commonPrefix_comm]
  by_cases heq : a = b
  · rw [if_pos heq, if_pos heq.symm, heq]
  · rw [if_neg heq, if_neg (Ne.symm heq)]
    exact if_congr or_comm rfl rfl

/-! ### The least value -/

theorem length_matchedUnits {a : Units} {flags : List Bool} (h : flags.length = a.length) :
    (matchedUnits a flags).length = flags.count true := by
  induction a generalizing flags with
  | nil =>
    obtain rfl := length_eq_zero_iff.mp h
    rfl
  | cons x a ih =>
    cases flags with
    | nil => cases h
    | cons flag flags =>
      have hrest := ih (Nat.succ.inj h)
      cases flag
      · rw [count_cons_of_ne (by decide), ← hrest]
        rfl
      · rw [count_cons_self, ← hrest]
        rfl

theorem transpositions_le (a b : Units) : transpositions a b ≤ matchCount a b := by
  refine countP_le_length.trans ?_
  rw [length_zip, length_matchedUnits (matchFlags_spec a b).1]
  exact min_le_left _ _

theorem jaroWinkler_nonneg (a b : Units) : 0 ≤ jaroWinkler a b := by
  rw [jaroWinkler]
  split_ifs with heq hnil hempty hnone
  · exact le_rfl
  · exact zero_le_one
  · exact le_rfl
  · exact le_rfl
  · have hpos := Nat.pos_of_ne_zero hnone
    have ht : (transpositions a b : ℚ) ≤ matchCount a b := by
      exact_mod_cast transpositions_le a b
    have ht' : (0 : ℚ) ≤ transpositions a b := Nat.cast_nonneg _
    have hjaro : 0 ≤ jaro a b := by
      rw [jaro]
      have horder : (0 : ℚ) ≤ (matchCount a b - transpositions a b / 2) / matchCount a b :=
        div_nonneg (by linarith) (Nat.cast_nonneg _)
      positivity
    have hle := jaro_le_one hpos
    have hcommon : (0 : ℚ) ≤ commonPrefix 4 a b * (1 / 10) := by positivity
    exact add_nonneg hjaro (mul_nonneg hcommon (sub_nonneg.mpr hle))

/-! ### The places that are read -/

/-- Where a place past the end of a word, or of its flags, is read. -/
inductive PastEnd
  | window
  | transpositions
  | beginning
  deriving DecidableEq

/-- The unit or flag at a place. -/
def readAt {α : Type} (past : PastEnd) (l : List α) (i : ℕ) : Except PastEnd α :=
  match l[i]? with
  | some x => .ok x
  | none => .error past

/-- The inner loop, place by place. -/
def findFreeAt (x : UInt16) (b : Units) (bMatched : List Bool) : List ℕ → Except PastEnd (Option ℕ)
  | [] => .ok none
  | j :: js => do
    let matched ← readAt .window bMatched j
    if matched then findFreeAt x b bMatched js
    else
      let y ← readAt .window b j
      if x = y then .ok (some j) else findFreeAt x b bMatched js

/-- The outer loop. -/
def matchLoopAt (b : Units) (window : ℕ) :
    ℕ → Units → List Bool → Except PastEnd (List Bool × List Bool)
  | _, [], bMatched => .ok ([], bMatched)
  | i, x :: a, bMatched => do
    let start := i - window
    let stop := min (b.length - 1) (i + window)
    match ← findFreeAt x b bMatched (range' start (stop + 1 - start)) with
    | none =>
      let rest ← matchLoopAt b window (i + 1) a bMatched
      .ok (false :: rest.1, rest.2)
    | some j =>
      let rest ← matchLoopAt b window (i + 1) a (bMatched.set j true)
      .ok (true :: rest.1, rest.2)

/-- The scan for transpositions, over the units and flags of `a` and those of `b` from the `k`-th
on. Past the end of the flags the inner loop would not end. -/
def scanTranspositions : List (UInt16 × Bool) → List (UInt16 × Bool) → Except PastEnd ℕ
  | [], _ => .ok 0
  | (_, false) :: a, b => scanTranspositions a b
  | (x, true) :: a, b =>
    match b.dropWhile fun p => !p.2 with
    | [] => .error .transpositions
    | (y, _) :: b => do
      let rest ← scanTranspositions a b
      .ok (if x != y then rest + 1 else rest)

/-- The scan of the common beginning, which minds the end of `a` only. -/
def commonPrefixAt : ℕ → Units → Units → Except PastEnd ℕ
  | _ + 1, _ :: _, [] => .error .beginning
  | n + 1, x :: a, y :: b =>
    if x = y then do
      let rest ← commonPrefixAt n a b
      .ok (rest + 1)
    else .ok 0
  | _, _, _ => .ok 0

/-- `jaroWinkler`, which stops at a place past an end. -/
def jaroWinklerAt (a b : Units) : Except PastEnd ℚ :=
  if a = b then .ok (if a = [] then 0 else 1)
  else if a = [] ∨ b = [] then .ok 0
  else do
    let flags ← matchLoopAt b (matchWindow a b) 0 a (replicate b.length false)
    let matched := flags.1.count true
    if matched = 0 then .ok 0
    else
      let swapped ← scanTranspositions (a.zip flags.1) (b.zip flags.2)
      let common ← commonPrefixAt 4 a b
      let jaro : ℚ :=
        (matched / a.length + matched / b.length + (matched - swapped / 2) / matched) / 3
      .ok (jaro + common * (1 / 10) * (1 - jaro))

theorem findFreeAt_eq
    (hlength : bMatched.length = b.length) {js : List ℕ} (hjs : ∀ j ∈ js, j < b.length) :
    findFreeAt x b bMatched js
      = .ok (js.find? fun j => bMatched[j]? == some false && b[j]? == some x) := by
  induction js with
  | nil => rfl
  | cons j js ih =>
    have hj := hjs j mem_cons_self
    have hrest := ih fun k hk => hjs k (mem_cons_of_mem j hk)
    have hflag := getElem?_eq_getElem (hlength ▸ hj : j < bMatched.length)
    have hunit := getElem?_eq_getElem hj
    rw [findFreeAt, find?_cons, readAt, readAt, hflag, hunit, hrest]
    cases bMatched[j] with
    | true => rfl
    | false =>
      rcases eq_or_ne b[j] x with heq | hne
      · simp [heq, bind, Except.bind]
      · have hbeq : (b[j] == x) = false := beq_eq_false_iff_ne.mpr hne
        simp [hbeq, hne.symm, bind, Except.bind]

theorem matchLoopAt_eq (hb : b ≠ []) (window i : ℕ) (a : Units)
    (hlength : bMatched.length = b.length) :
    matchLoopAt b window i a bMatched = .ok (matchLoop b window i a bMatched) := by
  have hpos := length_pos_iff.mpr hb
  induction a generalizing i bMatched with
  | nil => rfl
  | cons x a ih =>
    have hfree : findFreeAt x b bMatched (range' (i - window)
        (min (b.length - 1) (i + window) + 1 - (i - window))) = .ok _ :=
      findFreeAt_eq hlength fun j hj => by
        rw [mem_range'_1] at hj
        omega
    rw [matchLoopAt, matchLoop, hfree, ← findFree]
    cases findFree x b bMatched (i - window) (min (b.length - 1) (i + window)) with
    | none => simp [bind, Except.bind, ih (i + 1) hlength]
    | some j => simp [bind, Except.bind, ih (i + 1) (length_set.trans hlength)]

/-- The matched units, from units with their flags. -/
def pick (l : List (UInt16 × Bool)) : Units :=
  l.filterMap fun p => if p.2 then some p.1 else none

theorem pick_dropWhile (l : List (UInt16 × Bool)) :
    pick l = ((l.dropWhile fun p => !p.2).head?.map Prod.fst).toList
      ++ pick (l.dropWhile fun p => !p.2).tail := by
  induction l with
  | nil => rfl
  | cons p l ih =>
    obtain ⟨x, flag⟩ := p
    cases flag
    · exact ih
    · rfl

theorem scanTranspositions_eq {a b : List (UInt16 × Bool)} (h : (pick a).length ≤ (pick b).length) :
    scanTranspositions a b = .ok (((pick a).zip (pick b)).countP fun p => p.1 != p.2) := by
  induction a generalizing b with
  | nil => rfl
  | cons p a ih =>
    obtain ⟨x, flag⟩ := p
    cases flag
    · exact ih h
    · have hpick := pick_dropWhile b
      have hcons : pick ((x, true) :: a) = x :: pick a := rfl
      rw [scanTranspositions, hcons]
      rw [hcons, length_cons] at h
      cases hdrop : b.dropWhile fun p => !p.2 with
      | nil =>
        rw [hpick, hdrop] at h
        exact absurd h (Nat.not_succ_le_zero _)
      | cons q b' =>
        rw [hdrop] at hpick
        have hrest : pick b = q.1 :: pick b' := hpick
        rw [hrest] at h ⊢
        simp only [ih (Nat.le_of_succ_le_succ h), bind, Except.bind, zip_cons_cons, countP_cons]
        split_ifs <;> rfl

theorem commonPrefixAt_eq (n : ℕ) (a b : Units) : commonPrefixAt n a b
      = if b.length < n ∧ b <+: a ∧ b ≠ a then .error .beginning else .ok (commonPrefix n a b) := by
  induction n generalizing a b with
  | zero => rw [if_neg fun h => absurd h.1 (Nat.not_lt_zero _)]; rfl
  | succ n ih =>
    cases a with
    | nil =>
      rw [if_neg fun h => h.2.2 (prefix_nil.mp h.2.1)]
      cases b <;> rfl
    | cons x a =>
      cases b with
      | nil => rw [if_pos ⟨Nat.succ_pos n, nil_prefix, by simp⟩]; rfl
      | cons y b =>
        have hcond : ((y :: b).length < n + 1 ∧ y :: b <+: x :: a ∧ y :: b ≠ x :: a)
            ↔ x = y ∧ b.length < n ∧ b <+: a ∧ b ≠ a := by
          rw [length_cons, Nat.add_lt_add_iff_right, cons_prefix_cons, ne_eq, List.cons.injEq]
          constructor
          · rintro ⟨hlt, ⟨rfl, hprefix⟩, hne⟩
            exact ⟨rfl, hlt, hprefix, fun h => hne ⟨rfl, h⟩⟩
          · rintro ⟨rfl, hlt, hprefix, hne⟩
            exact ⟨hlt, ⟨rfl, hprefix⟩, fun h => hne h.2⟩
        rw [commonPrefixAt, commonPrefix, if_congr hcond rfl rfl]
        by_cases heq : x = y
        · rw [if_pos heq, if_pos heq, ih, if_congr (and_iff_right heq) rfl rfl]
          split_ifs <;> rfl
        · rw [if_neg heq, if_neg heq, if_neg fun h => heq h.1]

/-- A common beginning is matched. -/
theorem matchCount_pos_of_isPrefix (hb : b ≠ []) (h : b <+: a) : 0 < matchCount a b := by
  obtain ⟨rest, rfl⟩ := h
  cases b with
  | nil => exact absurd rfl hb
  | cons x b =>
    have hfree : findFree x (x :: b) (replicate (x :: b).length false)
        (0 - matchWindow (x :: b ++ rest) (x :: b))
        (min ((x :: b).length - 1) (0 + matchWindow (x :: b ++ rest) (x :: b))) = some 0 := by
      rw [findFree, Nat.zero_sub, find?_range'_eq_some]
      refine ⟨by simp, ?_, fun j _ hj => absurd hj (Nat.not_lt_zero j)⟩
      rw [mem_range'_1]
      omega
    rw [matchCount, matchFlags, cons_append, matchLoop, ← cons_append, hfree]
    exact Nat.lt_of_lt_of_eq (Nat.succ_pos _) count_cons_self.symm

/-- Only the scan of the common beginning reads past an end, and it reads past the end of `b`. -/
theorem jaroWinklerAt_eq (a b : Units) :
    jaroWinklerAt a b = if b ≠ [] ∧ b.length < 4 ∧ b <+: a ∧ b ≠ a then .error .beginning
      else .ok (jaroWinkler a b) := by
  rw [jaroWinklerAt, jaroWinkler]
  by_cases heq : a = b
  · subst heq
    simp
  rw [if_neg heq, if_neg heq]
  by_cases hempty : a = [] ∨ b = []
  · rw [if_pos hempty, if_pos hempty, if_neg]
    rintro ⟨hb, -, hprefix, -⟩
    rcases hempty with rfl | rfl
    · exact hb (prefix_nil.mp hprefix)
    · exact hb rfl
  rw [if_neg hempty, if_neg hempty]
  have hb : b ≠ [] := fun h => hempty (Or.inr h)
  obtain ⟨hleft, hright, hcount⟩ := matchFlags_spec a b
  have hscan : scanTranspositions (a.zip (matchFlags a b).1) (b.zip (matchFlags a b).2)
      = .ok (transpositions a b) := by
    refine scanTranspositions_eq (le_of_eq ?_)
    exact (length_matchedUnits hleft).trans (hcount.symm.trans (length_matchedUnits hright).symm)
  rw [matchLoopAt_eq hb _ 0 a length_replicate, ← matchFlags]
  change (if matchCount a b = 0 then _ else _) = _
  by_cases hnone : matchCount a b = 0
  · rw [if_pos hnone, if_pos hnone, if_neg]
    rintro ⟨-, -, hprefix, -⟩
    exact (matchCount_pos_of_isPrefix hb hprefix).ne' hnone
  · rw [if_neg hnone, if_neg hnone, hscan, commonPrefixAt_eq]
    by_cases hpast : b.length < 4 ∧ b <+: a ∧ b ≠ a
    · rw [if_pos hpast, if_pos ⟨hb, hpast⟩]
      rfl
    · rw [if_neg hpast, if_neg fun h => hpast h.2]
      rfl

/-- **`jaroWinkler` is a symmetric similarity between 0 and 1.** It is 1 for a word and itself, and
only there. It reads no place past an end, except when `b` is a proper beginning of `a` of less
than four units: then the scan of the common beginning looks once behind the end of `b`, where
there is no unit, and ends. -/
theorem jaroWinkler_symmetric_similarity (a b : Units) :
    (jaroWinklerAt a b = if b ≠ [] ∧ b.length < 4 ∧ b <+: a ∧ b ≠ a then .error .beginning
      else .ok (jaroWinkler a b))
    ∧ (0 ≤ jaroWinkler a b ∧ jaroWinkler a b ≤ 1)
    ∧ (jaroWinkler a b = 1 ↔ a = b ∧ a ≠ [])
    ∧ jaroWinkler a b = jaroWinkler b a := by
  refine ⟨jaroWinklerAt_eq a b, ⟨jaroWinkler_nonneg a b, jaroWinkler_le_one a b⟩, ⟨fun h => ?_, ?_⟩,
    jaroWinkler_comm a b⟩
  · have heq := eq_of_jaroWinkler_eq_one h
    refine ⟨heq, ?_⟩
    rintro rfl
    rw [← heq, jaroWinkler, if_pos rfl, if_pos rfl] at h
    exact zero_ne_one h
  · rintro ⟨rfl, hne⟩
    exact jaroWinkler_self hne

/-- Comparing `ab` with `a` reads the second unit of `a`. -/
theorem jaroWinkler_reads_past_end : jaroWinklerAt [97, 98] [97] = .error .beginning := by
  decide +kernel

end Rabotka.Identity
