import Mathlib.Algebra.Order.Group.Defs

/-!
# Chains of periods

Periods `[start, end)` over an ordered group of instants, each under an identifier. A set of
periods is a `Chain` at the instant `now` if each of them is still to end, no two overlap, and
each that has not started yet starts exactly where another one ends: from `now` on there is no
gap and no overlap until the last end.

The operations on a chain are four. Time passes (`Chain.later`); the periods from some point on
are dropped (`Chain.of_downward`); a period is appended at the last end (`Chain.append`); and
everything up to the end of some period is replaced by one period from now on, with what came
after it moved to follow (`Chain.splice`).
-/

namespace Timeline

variable {ι τ : Type*} [LinearOrder τ]

/-- The periods from the instant `now` on. -/
structure Chain (now : τ) (P : ι → Option (τ × τ)) : Prop where
  lasts : ∀ {i s e}, P i = some (s, e) → s < e ∧ now < e
  disjoint : ∀ {i j s e s' e'}, P i = some (s, e) → P j = some (s', e') → i ≠ j → e ≤ s' ∨ e' ≤ s
  linked : ∀ {i s e}, P i = some (s, e) → now < s → ∃ j s', P j = some (s', s)

variable {now : τ} {P Q : ι → Option (τ × τ)}

theorem Chain.empty (h : ∀ i, P i = none) : Chain now P where
  lasts {i} _ _ hi := by
    rw [h i] at hi
    cases hi
  disjoint {i} _ _ _ _ _ hi := by
    rw [h i] at hi
    cases hi
  linked {i} _ _ hi := by
    rw [h i] at hi
    cases hi

/-- At most one period contains an instant. -/
theorem Chain.eq_of_contains (h : Chain now P) {i j : ι} {s e s' e' t : τ}
    (hi : P i = some (s, e)) (hj : P j = some (s', e')) (hs : s ≤ t) (he : t < e) (hs' : s' ≤ t)
    (he' : t < e') : i = j := by
  by_contra hne
  rcases h.disjoint hi hj hne with hle | hle
  · exact absurd (he.trans_le (hle.trans hs')) (lt_irrefl t)
  · exact absurd (he'.trans_le (hle.trans hs)) (lt_irrefl t)

/-- Some of the periods, with each one all that start before it. -/
theorem Chain.of_downward (h : Chain now P) (hsub : ∀ i p, Q i = some p → P i = some p)
    (hdown : ∀ i j s e s' e', Q i = some (s, e) → P j = some (s', e') → s' < s →
      Q j = some (s', e')) : Chain now Q where
  lasts hi := h.lasts (hsub _ _ hi)
  disjoint hi hj hne := h.disjoint (hsub _ _ hi) (hsub _ _ hj) hne
  linked hi hs := by
    obtain ⟨j, s', hj⟩ := h.linked (hsub _ _ hi) hs
    exact ⟨j, s', hdown _ _ _ _ _ _ hi hj (h.lasts hj).1⟩

/-- Time passes: the periods that have ended meanwhile are gone. -/
theorem Chain.later (h : Chain now P) {t : τ} (ht : now ≤ t)
    (hQ : ∀ i s e, Q i = some (s, e) ↔ P i = some (s, e) ∧ t < e) : Chain t Q where
  lasts hi := ⟨(h.lasts ((hQ _ _ _).1 hi).1).1, ((hQ _ _ _).1 hi).2⟩
  disjoint hi hj hne := h.disjoint ((hQ _ _ _).1 hi).1 ((hQ _ _ _).1 hj).1 hne
  linked hi hs := by
    obtain ⟨j, s', hj⟩ := h.linked ((hQ _ _ _).1 hi).1 (ht.trans_lt hs)
    exact ⟨j, s', (hQ _ _ _).2 ⟨hj, hs⟩⟩

/-- A new period after all the others, from the last end on. -/
theorem Chain.append [DecidableEq ι] (h : Chain now P) {k : ι} {start stop : τ} (hk : P k = none)
    (hstart : now < start → ∃ j s, P j = some (s, start))
    (hlast : ∀ i s e, P i = some (s, e) → e ≤ start) (hstop : start < stop) (hnow : now < stop)
    (hQ : ∀ i, Q i = if i = k then some (start, stop) else P i) : Chain now Q where
  lasts {i s e} hi := by
    rw [hQ] at hi
    split_ifs at hi
    · obtain ⟨rfl, rfl⟩ := Prod.mk.inj (Option.some.inj hi)
      exact ⟨hstop, hnow⟩
    · exact h.lasts hi
  disjoint {i j s e s' e'} hi hj hne := by
    rw [hQ] at hi hj
    split_ifs at hi hj with hik hjk hjk
    · exact absurd (hik.trans hjk.symm) hne
    · obtain ⟨rfl, rfl⟩ := Prod.mk.inj (Option.some.inj hi)
      exact .inr (hlast j s' e' hj)
    · obtain ⟨rfl, rfl⟩ := Prod.mk.inj (Option.some.inj hj)
      exact .inl (hlast i s e hi)
    · exact h.disjoint hi hj hne
  linked {i s e} hi hs := by
    have hlink : ∃ j s', P j = some (s', s) := by
      rw [hQ] at hi
      split_ifs at hi
      · obtain ⟨rfl, rfl⟩ := Prod.mk.inj (Option.some.inj hi)
        exact hstart hs
      · exact h.linked hi hs
    obtain ⟨j, s', hj⟩ := hlink
    have hne : j ≠ k := by
      rintro rfl
      rw [hk] at hj
      cases hj
    exact ⟨j, s', by rw [hQ, if_neg hne, hj]⟩

variable [AddCommGroup τ] [IsOrderedAddMonoid τ]

/-- What a splice makes of a period: the periods that start before `cut` go, the others move by
`shift`. -/
def moved (cut shift : τ) (p : τ × τ) : Option (τ × τ) :=
  if cut ≤ p.1 then some (p.1 + shift, p.2 + shift) else none

omit [IsOrderedAddMonoid τ] in
theorem moved_eq_some {cut shift s e : τ} {o : Option (τ × τ)}
    (h : o.bind (moved cut shift) = some (s, e)) :
    ∃ s₀ e₀, o = some (s₀, e₀) ∧ cut ≤ s₀ ∧ s = s₀ + shift ∧ e = e₀ + shift := by
  obtain ⟨⟨s₀, e₀⟩, ho, hp⟩ := Option.bind_eq_some_iff.1 h
  simp only [moved, Option.ite_none_right_eq_some, Option.some.injEq, Prod.mk.injEq] at hp
  obtain ⟨hcut, rfl, rfl⟩ := hp
  exact ⟨s₀, e₀, ho, hcut, rfl, rfl⟩

/-- One period from now on in the place of all that start before `cut`, the end of a period; what
comes after it moves along with its end. -/
theorem Chain.splice [DecidableEq ι] (h : Chain now P) {k m : ι} {cut shift start : τ}
    (hcut : P m = some (start, cut)) (hk : ∀ s e, P k = some (s, e) → s < cut)
    (hnow : now < cut + shift)
    (hQ : ∀ i, Q i = if i = k then some (now, cut + shift) else (P i).bind (moved cut shift)) :
    Chain now Q where
  lasts {i s e} hi := by
    rw [hQ] at hi
    split_ifs at hi
    · obtain ⟨rfl, rfl⟩ := Prod.mk.inj (Option.some.inj hi)
      exact ⟨hnow, hnow⟩
    · obtain ⟨s₀, e₀, hi₀, hle, rfl, rfl⟩ := moved_eq_some hi
      have hlt := (h.lasts hi₀).1
      exact ⟨add_lt_add_left hlt shift, hnow.trans (add_lt_add_left (hle.trans_lt hlt) shift)⟩
  disjoint {i j s e s' e'} hi hj hne := by
    rw [hQ] at hi hj
    split_ifs at hi hj with hik hjk hjk
    · exact absurd (hik.trans hjk.symm) hne
    · obtain ⟨rfl, rfl⟩ := Prod.mk.inj (Option.some.inj hi)
      obtain ⟨s₀, e₀, -, hle, rfl, rfl⟩ := moved_eq_some hj
      exact .inl (add_le_add_left hle shift)
    · obtain ⟨rfl, rfl⟩ := Prod.mk.inj (Option.some.inj hj)
      obtain ⟨s₀, e₀, -, hle, rfl, rfl⟩ := moved_eq_some hi
      exact .inr (add_le_add_left hle shift)
    · obtain ⟨s₀, e₀, hi₀, -, rfl, rfl⟩ := moved_eq_some hi
      obtain ⟨s₁, e₁, hj₀, -, rfl, rfl⟩ := moved_eq_some hj
      exact (h.disjoint hi₀ hj₀ hne).imp (fun hle => add_le_add_left hle shift)
        fun hle => add_le_add_left hle shift
  linked {i s e} hi hs := by
    rw [hQ] at hi
    split_ifs at hi
    · obtain ⟨rfl, -⟩ := Prod.mk.inj (Option.some.inj hi)
      exact absurd hs (lt_irrefl _)
    · obtain ⟨s₀, e₀, hi₀, hle, rfl, rfl⟩ := moved_eq_some hi
      obtain ⟨j, s₁, hj⟩ := h.linked hi₀ ((h.lasts hcut).2.trans_le hle)
      rcases le_or_gt cut s₁ with hafter | hbefore
      · have hjk : j ≠ k := by
          rintro rfl
          exact absurd (hafter.trans_lt (hk _ _ hj)) (lt_irrefl _)
        refine ⟨j, s₁ + shift, ?_⟩
        rw [hQ, if_neg hjk, hj, Option.bind_some, moved, if_pos hafter]
      -- the period before the cut that ends after it is the one that ends there
      · have hend : s₀ = cut := by
          rcases eq_or_ne j m with rfl | hne
          · exact (Prod.mk.inj (Option.some.inj (hj.symm.trans hcut))).2
          · rcases h.disjoint hj hcut hne with hle' | hle'
            · exact absurd ((h.lasts hcut).1.trans_le hle) (not_lt_of_ge hle')
            · exact absurd hbefore (not_lt_of_ge hle')
        exact ⟨k, now, by rw [hQ, if_pos rfl, hend]⟩

end Timeline
