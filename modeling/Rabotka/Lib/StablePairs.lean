import Mathlib.Algebra.BigOperators.Ring.Finset
import Mathlib.Algebra.Order.BigOperators.Group.Finset
import Mathlib.Tactic.Linarith

/-!
# Stable pairings

Candidates join something on the left with something on the right, and have a weight. A pairing of
candidates is stable if each candidate shares a side with a pair that is at least as heavy.

* `Stable.sum_le_two_mul`: a stable pairing is at least half as heavy as any other.
* `Market.kinds_eq`: where the weight depends on the kinds of the two sides only, and candidates of
  one weight that share the kind of a side are of one kind, the kinds that a stable pairing keeps
  depend on nothing but how many there are of each kind on either side.
* `Market.sum_eq_card`: if both sides have the same kinds and only equal kinds weigh one, nothing
  is lost.
* `Prompt.iff`: if both sides are served in order, there is only one pairing, whichever side goes
  first.
-/

namespace Rabotka.Lib.StablePairs

open Finset

variable {P L R : Type*} (left : P → L) (right : P → R) (weight : P → ℚ)

/-! ### Pairings -/

/-- No side is used twice. -/
structure Pairing (K : Finset P) : Prop where
  once_left : ∀ p ∈ K, ∀ q ∈ K, left p = left q → p = q
  once_right : ∀ p ∈ K, ∀ q ∈ K, right p = right q → p = q

/-- A pairing of candidates, in which each candidate shares a side with a pair that is at least as
heavy. -/
structure Stable (cands K : Finset P) : Prop extends Pairing left right K where
  sub : K ⊆ cands
  blocked : ∀ p ∈ cands, ∃ q ∈ K, (left q = left p ∨ right q = right p) ∧ weight p ≤ weight q

variable {left right weight} [DecidableEq L] [DecidableEq R]

omit [DecidableEq R] in
theorem Pairing.card_left_le {M : Finset P} (h : Pairing left right M) (l : L) :
    #{p ∈ M | left p = l} ≤ 1 := by
  refine card_le_one.mpr fun p hp q hq => ?_
  rw [mem_filter] at hp hq
  exact h.once_left p hp.1 q hq.1 (hp.2.trans hq.2.symm)

omit [DecidableEq L] in
theorem Pairing.card_right_le {M : Finset P} (h : Pairing left right M) (r : R) :
    #{p ∈ M | right p = r} ≤ 1 := by
  refine card_le_one.mpr fun p hp q hq => ?_
  rw [mem_filter] at hp hq
  exact h.once_right p hp.1 q hq.1 (hp.2.trans hq.2.symm)

/-- **A stable pairing is at least half as heavy as any other.** Each pair of the other one is
charged to the pair that blocks it, and no pair is charged more than once for each side. -/
theorem Stable.sum_le_two_mul {cands K M : Finset P} (h : Stable left right weight cands K)
    (hpos : ∀ p ∈ cands, 0 ≤ weight p) (hM : Pairing left right M) (hsub : M ⊆ cands) :
    ∑ p ∈ M, weight p ≤ 2 * ∑ q ∈ K, weight q := by
  have hcharge : ∀ p ∈ M, weight p ≤ ∑ q ∈ K, ((if left q = left p then weight q else 0)
        + if right q = right p then weight q else 0) := by
    intro p hp
    obtain ⟨q, hq, hshare, hle⟩ := h.blocked p (hsub hp)
    have hnonneg : ∀ q ∈ K, 0 ≤ (if left q = left p then weight q else 0)
        + if right q = right p then weight q else 0 := by
      intro q hq
      have := hpos q (h.sub hq)
      split_ifs <;> linarith
    refine hle.trans (le_trans ?_ (single_le_sum hnonneg hq))
    have := hpos q (h.sub hq)
    rcases hshare with hl | hr
    · rw [if_pos hl]
      split_ifs <;> linarith
    · rw [if_pos hr]
      split_ifs <;> linarith
  have honce : ∀ q ∈ K, ∑ p ∈ M, ((if left q = left p then weight q else 0)
      + if right q = right p then weight q else 0) ≤ 2 * weight q := by
    intro q hq
    have := hpos q (h.sub hq)
    rw [sum_add_distrib, ← sum_filter, ← sum_filter, sum_const, sum_const, nsmul_eq_mul,
      nsmul_eq_mul]
    have hl : (#{p ∈ M | left q = left p} : ℚ) ≤ 1 := by
      simp only [eq_comm (a := left q)]
      exact_mod_cast hM.card_left_le (left q)
    have hr : (#{p ∈ M | right q = right p} : ℚ) ≤ 1 := by
      simp only [eq_comm (a := right q)]
      exact_mod_cast hM.card_right_le (right q)
    nlinarith
  calc ∑ p ∈ M, weight p
      ≤ ∑ p ∈ M, ∑ q ∈ K, ((if left q = left p then weight q else 0)
          + if right q = right p then weight q else 0) := sum_le_sum hcharge
    _ = ∑ q ∈ K, ∑ p ∈ M, ((if left q = left p then weight q else 0)
          + if right q = right p then weight q else 0) := sum_comm
    _ ≤ ∑ q ∈ K, 2 * weight q := sum_le_sum honce
    _ = 2 * ∑ q ∈ K, weight q := (mul_sum _ _ _).symm

/-! ### Pairings by kind -/

/-- The sides to pair: every pair of a left and a right side that is heavy enough is a candidate,
and its weight depends on the kinds of its sides only. -/
structure Market (left : P → L) (right : P → R) (weight : P → ℚ) (A : Finset L) (B : Finset R)
    {X Y : Type*} (f : L → X) (g : R → Y) (v : X → Y → ℚ) (floor : ℚ) (cands : Finset P) :
    Prop where
  left_mem : ∀ p ∈ cands, left p ∈ A
  right_mem : ∀ p ∈ cands, right p ∈ B
  weight_eq : ∀ p ∈ cands, weight p = v (f (left p)) (g (right p))
  floor_le : ∀ p ∈ cands, floor ≤ weight p
  complete : ∀ l ∈ A, ∀ r ∈ B, floor ≤ v (f l) (g r) → ∃ p ∈ cands, left p = l ∧ right p = r

section Kinds

variable {X Y : Type*} [DecidableEq P] [DecidableEq X] [DecidableEq Y] {A : Finset L}
  {B : Finset R} {f : L → X} {g : R → Y} {v : X → Y → ℚ} {floor : ℚ} {cands K : Finset P}

omit [DecidableEq L] [DecidableEq R] [DecidableEq P] [DecidableEq X] [DecidableEq Y] in
theorem Market.swap (hM : Market left right weight A B f g v floor cands) :
    Market right left weight B A g f (fun y x => v x y) floor cands where
  left_mem := hM.right_mem
  right_mem := hM.left_mem
  weight_eq := hM.weight_eq
  floor_le := hM.floor_le
  complete r hr l hl h := by
    obtain ⟨p, hp, hleft, hright⟩ := hM.complete l hl r hr h
    exact ⟨p, hp, hright, hleft⟩

omit [DecidableEq L] [DecidableEq R] [DecidableEq P] in
theorem Stable.swap (hK : Stable left right weight cands K) : Stable right left weight cands K where
  once_left := hK.once_right
  once_right := hK.once_left
  sub := hK.sub
  blocked p hp := by
    obtain ⟨q, hq, hshare, hle⟩ := hK.blocked p hp
    exact ⟨q, hq, hshare.symm, hle⟩

variable (left right f g v K) in
/-- The pairs of one kind. -/
def ofKind (x : X) (y : Y) : Finset P :=
  {p ∈ K | f (left p) = x ∧ g (right p) = y}

variable (left right f g v K) in
/-- The pairs with a left side of one kind that are heavier than those of a kind. -/
def heavier (x : X) (y : Y) : Finset P :=
  {p ∈ K | f (left p) = x ∧ v x y < v (f (left p)) (g (right p))}

omit [DecidableEq L] [DecidableEq R] [DecidableEq P] in
theorem ofKind_swap (x : X) (y : Y) : ofKind right left g f K y x = ofKind left right f g K x y :=
  filter_congr fun _ _ => and_comm

omit [DecidableEq L] [DecidableEq R] in
/-- The pairs of one kind and the heavier ones take different left sides of that kind. -/
theorem Market.card_left (hM : Market left right weight A B f g v floor cands)
    (hK : Stable left right weight cands K) (x : X) (y : Y) :
    #(ofKind left right f g K x y) + #(heavier left right f g v K x y) ≤ #{l ∈ A | f l = x} := by
  have hdisjoint : Disjoint (ofKind left right f g K x y) (heavier left right f g v K x y) := by
    refine disjoint_filter.mpr fun p _ hkind hheavy => ?_
    rw [hkind.1, hkind.2] at hheavy
    exact lt_irrefl _ hheavy.2
  rw [← card_union_of_disjoint hdisjoint]
  have hmem : ∀ p ∈ ofKind left right f g K x y ∪ heavier left right f g v K x y,
      p ∈ K ∧ f (left p) = x := by
    intro p hp
    rcases mem_union.mp hp with hp | hp
    · exact ⟨(mem_filter.mp hp).1, (mem_filter.mp hp).2.1⟩
    · exact ⟨(mem_filter.mp hp).1, (mem_filter.mp hp).2.1⟩
  refine card_le_card_of_injOn left (fun p hp => ?_) fun p hp q hq h => ?_
  · obtain ⟨hpK, hx⟩ := hmem p hp
    exact mem_filter.mpr ⟨hM.left_mem p (hK.sub hpK), hx⟩
  · exact hK.once_left p (hmem p hp).1 q (hmem q hq).1 h

omit [DecidableEq R] in
/-- If fewer are taken, a left side of the kind is in no pair that is as heavy. -/
theorem Market.exists_left (hM : Market left right weight A B f g v floor cands)
    (hK : Stable left right weight cands K) {x : X} {y : Y}
    (htie : ∀ r ∈ B, v x (g r) = v x y → g r = y)
    (hlt : #(ofKind left right f g K x y) + #(heavier left right f g v K x y)
      < #{l ∈ A | f l = x}) :
    ∃ l ∈ A, f l = x ∧ ∀ q ∈ K, left q = l → weight q < v x y := by
  have himage : #((ofKind left right f g K x y ∪ heavier left right f g v K x y).image left)
      < #{l ∈ A | f l = x} :=
    (card_image_le.trans (card_union_le _ _)).trans_lt hlt
  obtain ⟨l, hl, hfree⟩ := exists_mem_notMem_of_card_lt_card himage
  obtain ⟨hA, hx⟩ := mem_filter.mp hl
  refine ⟨l, hA, hx, fun q hq hleft => ?_⟩
  by_contra hnot
  refine hfree (mem_image.mpr ⟨q, ?_, hleft⟩)
  have hweight := hM.weight_eq q (hK.sub hq)
  rw [hleft, hx] at hweight
  rcases (hweight ▸ not_lt.mp hnot : v x y ≤ v x (g (right q))).lt_or_eq with hheavy | hsame
  · refine mem_union_right _ (mem_filter.mpr ⟨hq, ?_⟩)
    rw [hleft, hx]
    exact ⟨rfl, hheavy⟩
  · refine mem_union_left _ (mem_filter.mpr ⟨hq, ?_⟩)
    rw [hleft]
    exact ⟨hx, htie _ (hM.right_mem q (hK.sub hq)) hsame.symm⟩

/-- **Of each kind, a stable pairing keeps as many pairs as the heavier ones leave room for.** -/
theorem Market.card_kind (hM : Market left right weight A B f g v floor cands)
    (hK : Stable left right weight cands K) {x : X} {y : Y} (hfloor : floor ≤ v x y)
    (htieLeft : ∀ r ∈ B, v x (g r) = v x y → g r = y)
    (htieRight : ∀ l ∈ A, v (f l) y = v x y → f l = x) :
    #(ofKind left right f g K x y)
      = min (#{l ∈ A | f l = x} - #(heavier left right f g v K x y))
          (#{r ∈ B | g r = y} - #(heavier right left g f (fun y x => v x y) K y x)) := by
  have hleft := hM.card_left hK x y
  have hright := hM.swap.card_left hK.swap y x
  rw [ofKind_swap] at hright
  refine le_antisymm (le_min (by omega) (by omega)) ?_
  by_contra hnot
  obtain ⟨hroomLeft, hroomRight⟩ := lt_min_iff.mp (not_le.mp hnot)
  obtain ⟨l, hl, hx, hfreeLeft⟩ := hM.exists_left hK htieLeft (by omega)
  obtain ⟨r, hr, hy, hfreeRight⟩ := hM.swap.exists_left hK.swap htieRight
    (by rw [ofKind_swap]; omega)
  -- The two free sides make a candidate, which nothing blocks.
  obtain ⟨p, hp, hpl, hpr⟩ := hM.complete l hl r hr (by rwa [hx, hy])
  obtain ⟨q, hq, hshare, hle⟩ := hK.blocked p hp
  rw [hM.weight_eq p hp, hpl, hpr, hx, hy] at hle
  rcases hshare with hshare | hshare
  · exact (hfreeLeft q hq (hshare.trans hpl)).not_ge hle
  · exact (hfreeRight q hq (hshare.trans hpr)).not_ge hle

variable (left right f g K) in
/-- The kinds of the pairs, with repetitions. -/
def kindsOf : Multiset (X × Y) :=
  K.val.map fun p => (f (left p), g (right p))

omit [DecidableEq L] [DecidableEq R] [DecidableEq P] in
theorem count_kindsOf (x : X) (y : Y) :
    (kindsOf left right f g K).count (x, y) = #(ofKind left right f g K x y) := by
  rw [kindsOf, Multiset.count_map, ofKind, card_def, filter_val]
  refine congrArg Multiset.card (Multiset.filter_congr fun p _ => ?_)
  rw [eq_comm, Prod.mk.injEq]

omit [DecidableEq L] [DecidableEq R] [DecidableEq P] [DecidableEq Y] in
/-- The heavier pairs are counted among the heavier kinds. -/
theorem card_heavier (x : X) (y : Y) :
    #(heavier left right f g v K x y)
      = ((kindsOf left right f g K).filter fun z => v x y < v z.1 z.2).countP fun z => z.1 = x := by
  rw [Multiset.countP_filter, kindsOf, Multiset.countP_map, heavier, card_def, filter_val]

omit [DecidableEq L] [DecidableEq R] [DecidableEq P] [DecidableEq X] in
theorem card_heavier_swap (x : X) (y : Y) :
    #(heavier right left g f (fun y x => v x y) K y x)
      = ((kindsOf left right f g K).filter fun z => v x y < v z.1 z.2).countP fun z => z.2 = y := by
  rw [Multiset.countP_filter, kindsOf, Multiset.countP_map, heavier, card_def, filter_val]

omit [DecidableEq L] [DecidableEq R] [DecidableEq P] [DecidableEq X] [DecidableEq Y] in
theorem floor_le_of_mem_kindsOf (hM : Market left right weight A B f g v floor cands)
    (hK : Stable left right weight cands K) {z : X × Y} (hz : z ∈ kindsOf left right f g K) :
    (∃ l ∈ A, f l = z.1) ∧ (∃ r ∈ B, g r = z.2) ∧ floor ≤ v z.1 z.2 := by
  obtain ⟨p, hp, rfl⟩ := Multiset.mem_map.mp hz
  have hcand := hK.sub hp
  exact ⟨⟨left p, hM.left_mem p hcand, rfl⟩, ⟨right p, hM.right_mem p hcand, rfl⟩,
    hM.weight_eq p hcand ▸ hM.floor_le p hcand⟩

/-- Two candidates of one weight that share the kind of a side are of one kind. -/
structure Untied (A : Finset L) (B : Finset R) (f : L → X) (g : R → Y) (v : X → Y → ℚ)
    (floor : ℚ) : Prop where
  left : ∀ l ∈ A, ∀ r ∈ B, ∀ r' ∈ B, floor ≤ v (f l) (g r) →
    v (f l) (g r') = v (f l) (g r) → g r' = g r
  right : ∀ r ∈ B, ∀ l ∈ A, ∀ l' ∈ A, floor ≤ v (f l) (g r) →
    v (f l') (g r) = v (f l) (g r) → f l' = f l

/-- If there are as many of each kind, a kind that occurs on one side occurs on the other. -/
theorem exists_kind {S S' : Type*} {A : Finset S} {A' : Finset S'} {f : S → X} {f' : S' → X}
    (h : ∀ x, #{l ∈ A' | f' l = x} = #{l ∈ A | f l = x}) :
    ∀ l' ∈ A', ∃ l ∈ A, f l = f' l' := by
  intro l' hl'
  have hpos : 0 < #{l ∈ A | f l = f' l'} :=
    h (f' l') ▸ card_pos.mpr ⟨l', mem_filter.mpr ⟨hl', rfl⟩⟩
  obtain ⟨l, hl⟩ := card_pos.mp hpos
  exact ⟨l, mem_filter.mp hl⟩

theorem mem_union_of_count_ne {Z : Type*} [DecidableEq Z] {T T' : Multiset Z} {z : Z}
    (h : T'.count z ≠ T.count z) : z ∈ T'.toFinset ∪ T.toFinset := by
  by_contra hout
  rw [mem_union, Multiset.mem_toFinset, Multiset.mem_toFinset, not_or] at hout
  rw [Multiset.count_eq_zero.mpr hout.1, Multiset.count_eq_zero.mpr hout.2] at h
  exact h rfl

/-- **Without such ties, the kinds that are kept depend only on how many there are of each kind.**
At a heaviest kind that is kept unequally often, the heavier ones would have to differ. -/
theorem Market.kinds_eq (hM : Market left right weight A B f g v floor cands)
    (hK : Stable left right weight cands K) (htie : Untied A B f g v floor)
    {A' : Finset L} {B' : Finset R} {f' : L → X} {g' : R → Y} {weight' : P → ℚ}
    {cands' K' : Finset P} (hM' : Market left right weight' A' B' f' g' v floor cands')
    (hK' : Stable left right weight' cands' K')
    (hA : ∀ x, #{l ∈ A' | f' l = x} = #{l ∈ A | f l = x})
    (hB : ∀ y, #{r ∈ B' | g' r = y} = #{r ∈ B | g r = y}) :
    kindsOf left right f' g' K' = kindsOf left right f g K := by
  have hsomeA := exists_kind hA
  have hsomeB := exists_kind hB
  generalize hT : kindsOf left right f g K = T
  generalize hT' : kindsOf left right f' g' K' = T'
  have hmem : ∀ z ∈ T'.toFinset ∪ T.toFinset,
      (∃ l ∈ A, f l = z.1) ∧ (∃ r ∈ B, g r = z.2) ∧ floor ≤ v z.1 z.2 := by
    subst hT hT'
    intro z hz
    rcases mem_union.mp hz with hz | hz
    · obtain ⟨⟨l', hl', hx⟩, ⟨r', hr', hy⟩, hfloor⟩ :=
        floor_le_of_mem_kindsOf hM' hK' (Multiset.mem_toFinset.mp hz)
      obtain ⟨l, hl, hlx⟩ := hsomeA l' hl'
      obtain ⟨r, hr, hry⟩ := hsomeB r' hr'
      exact ⟨⟨l, hl, hlx.trans hx⟩, ⟨r, hr, hry.trans hy⟩, hfloor⟩
    · exact floor_le_of_mem_kindsOf hM hK (Multiset.mem_toFinset.mp hz)
  by_contra hne
  have hdiffer : ({z ∈ T'.toFinset ∪ T.toFinset | T'.count z ≠ T.count z}).Nonempty := by
    by_contra hnone
    refine hne (Multiset.ext.mpr fun z => ?_)
    by_contra hz
    exact hnone ⟨z, mem_filter.mpr ⟨mem_union_of_count_ne hz, hz⟩⟩
  obtain ⟨⟨x, y⟩, hz, hmax⟩ := exists_max_image _ (fun z => v z.1 z.2) hdiffer
  obtain ⟨hin, hcount⟩ := mem_filter.mp hz
  obtain ⟨⟨l, hl, hx⟩, ⟨r, hr, hy⟩, hfloor⟩ := hmem (x, y) hin
  obtain rfl : f l = x := hx
  obtain rfl : g r = y := hy
  -- Above this kind the two agree.
  have habove : (T'.filter fun z => v (f l) (g r) < v z.1 z.2)
      = T.filter fun z => v (f l) (g r) < v z.1 z.2 := by
    refine Multiset.ext.mpr fun z => ?_
    rw [Multiset.count_filter, Multiset.count_filter]
    split_ifs with hlt
    · by_contra hz'
      exact (hmax z (mem_filter.mpr ⟨mem_union_of_count_ne hz', hz'⟩)).not_gt hlt
    · rfl
  have hown := hM.card_kind hK hfloor (fun r' hr' => htie.left l hl r hr r' hr' hfloor)
    fun l' hl' => htie.right r hr l hl l' hl' hfloor
  have hother := hM'.card_kind hK' hfloor (fun r' hr' heq => by
      obtain ⟨r₁, hr₁, hsame⟩ := hsomeB r' hr'
      exact hsame ▸ htie.left l hl r hr r₁ hr₁ hfloor (hsame.symm ▸ heq))
    fun l' hl' heq => by
      obtain ⟨l₁, hl₁, hsame⟩ := hsomeA l' hl'
      exact hsame ▸ htie.right r hr l hl l₁ hl₁ hfloor (hsame.symm ▸ heq)
  rw [card_heavier, card_heavier_swap, hT, ← count_kindsOf, hT] at hown
  rw [card_heavier, card_heavier_swap, hT', ← count_kindsOf, hT', hA, hB, habove] at hother
  exact hcount (hother.trans hown.symm)

omit [DecidableEq L] [DecidableEq R] [DecidableEq P] [DecidableEq X] [DecidableEq Y] in
/-- If no pair weighs more than one, the pairs weigh no more than there are left sides. -/
theorem Market.sum_le_card (hM : Market left right weight A B f g v floor cands)
    (hK : Stable left right weight cands K)
    (hone : ∀ l ∈ A, ∀ r ∈ B, v (f l) (g r) ≤ 1) : ∑ p ∈ K, weight p ≤ #A := by
  have hcard : #K ≤ #A :=
    card_le_card_of_injOn left (fun p hp => hM.left_mem p (hK.sub hp))
      fun p hp q hq h => hK.once_left p hp q hq h
  have hweight : ∀ p ∈ K, weight p ≤ 1 := by
    intro p hp
    have hcand := hK.sub hp
    rw [hM.weight_eq p hcand]
    exact hone _ (hM.left_mem p hcand) _ (hM.right_mem p hcand)
  calc ∑ p ∈ K, weight p ≤ ∑ _p ∈ K, (1 : ℚ) := sum_le_sum hweight
    _ = #K := by rw [sum_const, nsmul_eq_mul, mul_one]
    _ ≤ #A := by exact_mod_cast hcard

/-- **If both sides have the same kinds, and only equal kinds weigh one, everything is paired with
its own kind.** -/
theorem Market.sum_eq_card {g : R → X} {v : X → X → ℚ}
    (hM : Market left right weight A B f g v floor cands)
    (hK : Stable left right weight cands K) (hnonneg : 0 ≤ floor) (hfloor : floor ≤ 1)
    (hle : ∀ l ∈ A, ∀ r ∈ B, v (f l) (g r) ≤ 1) (hself : ∀ l ∈ A, v (f l) (f l) = 1)
    (honly : ∀ l ∈ A, ∀ r ∈ B, v (f l) (g r) = 1 → f l = g r)
    (hcount : ∀ x, #{r ∈ B | g r = x} = #{l ∈ A | f l = x}) : ∑ p ∈ K, weight p = #A := by
  have hnone : ∀ p ∈ K, v (f (left p)) (g (right p)) ≤ 1 := fun p hp =>
    hle _ (hM.left_mem p (hK.sub hp)) _ (hM.right_mem p (hK.sub hp))
  have hkind : ∀ l ∈ A, #(ofKind left right f g K (f l) (f l)) = #{l' ∈ A | f l' = f l} := by
    intro l hl
    obtain ⟨r, hr, hgr⟩ := exists_kind (A := B) (f := g) (fun x => (hcount x).symm) l hl
    have hleft : #(heavier left right f g v K (f l) (f l)) = 0 := by
      refine card_eq_zero.mpr (filter_eq_empty_iff.mpr fun p hp h => ?_)
      rw [hself l hl] at h
      exact (hnone p hp).not_gt h.2
    have hright : #(heavier right left g f (fun y x => v x y) K (f l) (f l)) = 0 := by
      refine card_eq_zero.mpr (filter_eq_empty_iff.mpr fun p hp h => ?_)
      dsimp only at h
      rw [hself l hl] at h
      exact (hnone p hp).not_gt h.2
    have hcard := hM.card_kind hK (x := f l) (y := f l) (by rwa [hself l hl])
      (fun r' hr' h => (honly l hl r' hr' (h.trans (hself l hl))).symm)
      (fun l' hl' h => (honly l' hl' r hr (by rw [hgr, h, hself l hl])).trans hgr)
    rw [hleft, hright, hcount, Nat.sub_zero, min_self] at hcard
    exact hcard
  refine le_antisymm (hM.sum_le_card hK hle) ?_
  have hfiber : #{p ∈ K | f (left p) = g (right p)} = #A := by
    rw [card_eq_sum_card_fiberwise (f := fun p => f (left p)) (t := A.image f)
      fun p hp => mem_image_of_mem f (hM.left_mem p (hK.sub (mem_filter.mp hp).1)),
      card_eq_sum_card_fiberwise (f := f) (t := A.image f) fun l hl => mem_image_of_mem f hl]
    refine sum_congr rfl fun x hx => ?_
    obtain ⟨l, hl, rfl⟩ := mem_image.mp hx
    rw [← hkind l hl, ofKind, filter_filter]
    refine congrArg card (filter_congr fun p _ => ?_)
    constructor
    · rintro ⟨hsame, hx⟩
      exact ⟨hx, hsame ▸ hx⟩
    · rintro ⟨hx, hy⟩
      exact ⟨hx.trans hy.symm, hx⟩
  have hpos : ∀ p ∈ K, 0 ≤ weight p := fun p hp => hnonneg.trans (hM.floor_le p (hK.sub hp))
  calc (#A : ℚ) = ∑ p ∈ K with f (left p) = g (right p), weight p := by
        rw [← hfiber, card_eq_sum_ones, Nat.cast_sum]
        refine sum_congr rfl fun p hp => ?_
        obtain ⟨hpK, hsame⟩ := mem_filter.mp hp
        rw [hM.weight_eq p (hK.sub hpK), ← hsame, hself _ (hM.left_mem p (hK.sub hpK)),
          Nat.cast_one]
    _ ≤ ∑ p ∈ K, weight p :=
        sum_le_sum_of_subset_of_nonneg (filter_subset _ _) fun p hp _ => hpos p hp

omit [DecidableEq L] [DecidableEq R] [DecidableEq P] [DecidableEq X] [DecidableEq Y] in
/-- The weight of the pairs is that of their kinds. -/
theorem Market.sum_eq (hM : Market left right weight A B f g v floor cands)
    (hK : Stable left right weight cands K) :
    ∑ p ∈ K, weight p = ((kindsOf left right f g K).map fun z => v z.1 z.2).sum := by
  rw [kindsOf, Multiset.map_map]
  exact sum_congr rfl fun p hp => hM.weight_eq p (hK.sub hp)

end Kinds

/-! ### First come, first served -/

section Prompt

variable {α β : Type*} [LinearOrder α] [LinearOrder β]

/-- A pairing in which a place that could have been paired with another one has an earlier partner,
or the other one has. -/
structure Prompt (ok M : α → β → Prop) : Prop where
  sub : ∀ {i j}, M i j → ok i j
  left : ∀ {i j j'}, M i j → M i j' → j = j'
  right : ∀ {i i' j}, M i j → M i' j → i = i'
  prompt : ∀ {i j}, ok i j → ¬M i j → (∃ j' < j, M i j') ∨ ∃ i' < i, M i' j

variable {ok M N : α → β → Prop}

theorem Prompt.swap (h : Prompt ok M) : Prompt (fun j i => ok i j) fun j i => M i j :=
  ⟨h.sub, h.right, h.left, fun hok hnot => (h.prompt hok hnot).symm⟩

/-- If two such pairings agree on the earlier places, they agree on the next one. -/
theorem Prompt.imp (hM : Prompt ok M) (hN : Prompt ok N) {i : α} {j : β}
    (hearlier : ∀ i' < i, ∀ j, M i' j ↔ N i' j) (h : M i j) : N i j := by
  by_contra hnot
  rcases hN.prompt (hM.sub h) hnot with ⟨j', hlt, h'⟩ | ⟨i', hlt, h'⟩
  · -- The earlier partner in `N` is not the partner in `M`, so it has another one there.
    have hother : ¬M i j' := fun hj' => hlt.ne (hM.left hj' h)
    rcases hM.prompt (hN.sub h') hother with ⟨j'', hlt', h''⟩ | ⟨i', hlt', h''⟩
    · exact (hlt'.trans hlt).ne (hM.left h'' h)
    · exact hlt'.ne (hN.right ((hearlier i' hlt' j').mp h'') h')
  · exact hlt.ne (hM.right ((hearlier i' hlt j).mpr h') h)

/-- There is only one such pairing. -/
theorem Prompt.iff [WellFoundedLT α] (hM : Prompt ok M) (hN : Prompt ok N) (i : α) (j : β) :
    M i j ↔ N i j := by
  induction i using WellFoundedLT.induction generalizing j with
  | _ i ih =>
    exact ⟨hM.imp hN ih, hN.imp hM fun i' hlt j' => (ih i' hlt j').symm⟩

end Prompt

end Rabotka.Lib.StablePairs
