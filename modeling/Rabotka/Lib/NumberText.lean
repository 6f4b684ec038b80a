import Mathlib.Data.Nat.Digits.Lemmas

/-!
# Numbers as decimal text

A finite number other than zero is given by its sign, its significant digits and the place of the
point, as `Number::toString` of ECMAScript takes them; `Finite.text` writes it in the shortest of
the usual forms, with an exponent where the point is far away.

The text determines the number (`Finite.text_inj`): it determines the digits before and behind the
point and the exponent, and these determine the value.
-/

namespace Rabotka.Lib.NumberText

open List

/-! ### Writing -/

/-- The units `0` to `9`. -/
def digitUnit (d : ℕ) : UInt16 :=
  UInt16.ofNat (48 + d)

def minus : UInt16 := 45
def plus : UInt16 := 43
def point : UInt16 := 46
def exponentUnit : UInt16 := 101

/-- The decimal digits, from the first on. -/
def digitsOf (n : ℕ) : List ℕ :=
  (Nat.digits 10 n).reverse

/-- The sign of an exponent, and its digits. -/
def exponentText (e : ℤ) : List UInt16 :=
  exponentUnit :: (if 0 ≤ e then plus else minus) :: (digitsOf e.natAbs).map digitUnit

/-- The digits before the point, those behind it, and the exponent if there is one. -/
structure Parts where
  whole : List ℕ
  fraction : List ℕ
  exponent : Option ℤ

/-- The text of the parts; without a fraction there is no point. -/
def Parts.text (p : Parts) : List UInt16 :=
  p.whole.map digitUnit ++ ((if p.fraction = [] then [] else point :: p.fraction.map digitUnit)
    ++ (p.exponent.map exponentText).getD [])

/-- The value of a list of digits. -/
def digitsValue (ds : List ℕ) : ℕ :=
  Nat.ofDigits 10 ds.reverse

/-- The value of the parts. -/
def Parts.value (p : Parts) : ℚ :=
  digitsValue (p.whole ++ p.fraction) * 10 ^ (p.exponent.getD 0 - p.fraction.length)

/-- A positive number `0.d₁…dₖ · 10ⁿ`, with the digits `d₁…dₖ` of a number that does not end in
zero. -/
structure Magnitude where
  significant : ℕ
  place : ℤ
  reduced : significant % 10 ≠ 0

/-- The number of significant digits. -/
def Magnitude.count (x : Magnitude) : ℕ :=
  (digitsOf x.significant).length

/-- The steps of `Number::toString`: the number as it is while the point is near, else with an
exponent. -/
def Magnitude.parts (x : Magnitude) : Parts :=
  let ds := digitsOf x.significant
  if x.count ≤ x.place ∧ x.place ≤ 21 then
    ⟨ds ++ replicate (x.place - x.count).toNat 0, [], none⟩
  else if 0 < x.place ∧ x.place ≤ 21 then ⟨ds.take x.place.toNat, ds.drop x.place.toNat, none⟩
  else if -6 < x.place ∧ x.place ≤ 0 then ⟨[0], replicate (-x.place).toNat 0 ++ ds, none⟩
  else ⟨ds.take 1, ds.drop 1, some (x.place - 1)⟩

/-- A finite number; zero has no sign. -/
inductive Finite where
  | zero
  | nonzero (negative : Bool) (x : Magnitude)

/-- `Number::toString` of a finite number. -/
def Finite.text : Finite → List UInt16
  | zero => [digitUnit 0]
  | nonzero negative x => (if negative then [minus] else []) ++ x.parts.text

/-! ### Digits -/

theorem digitsValue_digitsOf (n : ℕ) : digitsValue (digitsOf n) = n := by
  rw [digitsValue, digitsOf, reverse_reverse, Nat.ofDigits_digits]

theorem lt_of_mem_digitsOf {n d : ℕ} (h : d ∈ digitsOf n) : d < 10 :=
  Nat.digits_lt_base (by decide) (mem_reverse.mp h)

theorem digitsValue_append_zeros (ds : List ℕ) (k : ℕ) :
    digitsValue (ds ++ replicate k 0) = digitsValue ds * 10 ^ k := by
  rw [digitsValue, digitsValue, reverse_append, reverse_replicate, Nat.ofDigits_append,
    length_replicate, Nat.ofDigits_replicate_zero, Nat.zero_add, Nat.mul_comm]

theorem digitsValue_zeros_append (ds : List ℕ) (k : ℕ) :
    digitsValue (replicate k 0 ++ ds) = digitsValue ds := by
  rw [digitsValue, digitsValue, reverse_append, reverse_replicate, Nat.ofDigits_append,
    Nat.ofDigits_replicate_zero, Nat.mul_zero, Nat.add_zero]

theorem digitUnit_inj {d d' : ℕ} (hd : d < 10) (hd' : d' < 10) (h : digitUnit d = digitUnit d') :
    d = d' := by
  have hnat := congrArg UInt16.toNat h
  rw [digitUnit, digitUnit, UInt16.toNat_ofNat', UInt16.toNat_ofNat'] at hnat
  omega

theorem digitsOf_inj {n n' : ℕ} (h : digitsOf n = digitsOf n') : n = n' := by
  rw [← digitsValue_digitsOf n, h, digitsValue_digitsOf]

/-! ### Reading off the parts -/

/-- A text does not go on with a digit. -/
def NoDigit (r : List UInt16) : Prop :=
  ∀ u ∈ r.head?, ∀ d < 10, u ≠ digitUnit d

/-- A text does not go on with anything of a number. -/
structure Ends (r : List UInt16) : Prop where
  noDigit : NoDigit r
  noPoint : ∀ u ∈ r.head?, u ≠ point
  noExponent : ∀ u ∈ r.head?, u ≠ exponentUnit

theorem noDigit_cons {u : UInt16} (h : ∀ d < 10, u ≠ digitUnit d) (r : List UInt16) :
    NoDigit (u :: r) := by
  intro v hv
  obtain rfl := Option.some.inj hv
  exact h

theorem point_ne_digitUnit : ∀ d < 10, point ≠ digitUnit d := by
  decide

theorem exponentUnit_ne_digitUnit : ∀ d < 10, exponentUnit ≠ digitUnit d := by
  decide

variable {r r' : List UInt16}

/-- Digits can be read off, where no more of them follow. -/
theorem digits_append_inj {ds ds' : List ℕ} (hds : ∀ d ∈ ds, d < 10)
    (hds' : ∀ d ∈ ds', d < 10) (hr : NoDigit r) (hr' : NoDigit r')
    (h : ds.map digitUnit ++ r = ds'.map digitUnit ++ r') : ds = ds' ∧ r = r' := by
  induction ds generalizing ds' with
  | nil =>
    cases ds' with
    | nil => exact ⟨rfl, h⟩
    | cons d' ds' =>
      rw [map_nil, nil_append, map_cons, cons_append] at h
      exact absurd rfl (hr (digitUnit d') (h ▸ rfl) d' (hds' d' mem_cons_self))
  | cons d ds ih =>
    cases ds' with
    | nil =>
      rw [map_nil, nil_append, map_cons, cons_append] at h
      exact absurd rfl (hr' (digitUnit d) (h ▸ rfl) d (hds d mem_cons_self))
    | cons d' ds' =>
      obtain ⟨hunit, hrest⟩ := List.cons.inj h
      obtain ⟨rfl, rfl⟩ := ih (fun e he => hds e (mem_cons_of_mem d he))
        (fun e he => hds' e (mem_cons_of_mem d' he)) hrest
      have heq := digitUnit_inj (hds d mem_cons_self) (hds' d' mem_cons_self) hunit
      exact ⟨congrArg (· :: ds) heq, rfl⟩

theorem exponentText_inj {e e' : ℤ} (hr : NoDigit r) (hr' : NoDigit r')
    (h : exponentText e ++ r = exponentText e' ++ r') : e = e' ∧ r = r' := by
  rw [exponentText, exponentText] at h
  obtain ⟨hsign, hdigits⟩ := List.cons.inj (List.cons.inj h).2
  obtain ⟨hds, hrest⟩ := digits_append_inj (fun _ => lt_of_mem_digitsOf)
    (fun _ => lt_of_mem_digitsOf) hr hr' hdigits
  have habs := digitsOf_inj hds
  refine ⟨?_, hrest⟩
  split_ifs at hsign with hpos hpos' hpos'
  · omega
  · exact absurd hsign (by decide)
  · exact absurd hsign (by decide)
  · omega

/-- An exponent, or none, can be read off. -/
theorem exponent_append_inj {e e' : Option ℤ} (hr : Ends r) (hr' : Ends r')
    (h : (e.map exponentText).getD [] ++ r = (e'.map exponentText).getD [] ++ r') :
    e = e' ∧ r = r' := by
  cases e with
  | none =>
    cases e' with
    | none => exact ⟨rfl, h⟩
    | some e' => exact absurd rfl (hr.noExponent exponentUnit (congrArg List.head? h))
  | some e =>
    cases e' with
    | none => exact absurd rfl (hr'.noExponent exponentUnit (congrArg List.head? h.symm))
    | some e' =>
      obtain ⟨rfl, hrest⟩ := exponentText_inj hr.noDigit hr'.noDigit h
      exact ⟨rfl, hrest⟩

/-- What follows the fraction does not go on with a digit, nor with a point. -/
theorem exponent_append_head (e : Option ℤ) {r : List UInt16} (hr : Ends r) :
    NoDigit ((e.map exponentText).getD [] ++ r)
      ∧ ∀ u ∈ ((e.map exponentText).getD [] ++ r).head?, u ≠ point := by
  cases e with
  | none => exact ⟨hr.noDigit, hr.noPoint⟩
  | some e =>
    refine ⟨noDigit_cons exponentUnit_ne_digitUnit _, fun u hu => ?_⟩
    obtain rfl := Option.some.inj hu
    decide

/-- The digits of the parts are digits. -/
structure Parts.Digits (p : Parts) : Prop where
  whole : ∀ d ∈ p.whole, d < 10
  fraction : ∀ d ∈ p.fraction, d < 10

/-- **The parts can be read off the text.** -/
theorem Parts.text_inj {p q : Parts} (hp : p.Digits) (hq : q.Digits)
    (hr : Ends r) (hr' : Ends r') (h : p.text ++ r = q.text ++ r') : p = q ∧ r = r' := by
  obtain ⟨whole, fraction, e⟩ := p
  obtain ⟨whole', fraction', e'⟩ := q
  obtain ⟨hdigit, hpoint⟩ := exponent_append_head e hr
  obtain ⟨hdigit', hpoint'⟩ := exponent_append_head e' hr'
  simp only [text, append_assoc] at h
  obtain ⟨rfl, hrest⟩ := digits_append_inj hp.whole hq.whole
    (by split_ifs; exacts [hdigit, noDigit_cons point_ne_digitUnit _])
    (by split_ifs; exacts [hdigit', noDigit_cons point_ne_digitUnit _]) h
  have hfraction : fraction = fraction' ∧ (e.map exponentText).getD [] ++ r
      = (e'.map exponentText).getD [] ++ r' := by
    split_ifs at hrest with hnil hnil' hnil'
    · exact ⟨hnil.trans hnil'.symm, hrest⟩
    · exact absurd rfl (hpoint point (congrArg List.head? hrest))
    · exact absurd rfl (hpoint' point (congrArg List.head? hrest.symm))
    · exact digits_append_inj hp.fraction hq.fraction hdigit hdigit' (List.cons.inj hrest).2
  obtain ⟨rfl, htail⟩ := hfraction
  obtain ⟨rfl, rfl⟩ := exponent_append_inj hr hr' htail
  exact ⟨rfl, rfl⟩

/-! ### The value -/

theorem Magnitude.digits_parts (x : Magnitude) : x.parts.Digits := by
  have hds : ∀ d ∈ digitsOf x.significant, d < 10 := fun _ => lt_of_mem_digitsOf
  have hzero : ∀ k : ℕ, ∀ d ∈ replicate k 0, d < 10 := by
    intro k d hd
    rw [eq_of_mem_replicate hd]
    decide
  rw [parts]
  split_ifs
  · refine ⟨fun d hd => ?_, fun _ hd => nomatch hd⟩
    exact (mem_append.mp hd).elim (hds d) (hzero _ d)
  · exact ⟨fun d hd => hds d (mem_of_mem_take hd), fun d hd => hds d (mem_of_mem_drop hd)⟩
  · refine ⟨fun d hd => ?_, fun d hd => ?_⟩
    · rw [mem_singleton.mp hd]
      decide
    · exact (mem_append.mp hd).elim (hzero _ d) (hds d)
  · exact ⟨fun d hd => hds d (mem_of_mem_take hd), fun d hd => hds d (mem_of_mem_drop hd)⟩

theorem Magnitude.count_pos (x : Magnitude) : 0 < x.count := by
  refine length_pos_iff.mpr fun hnil => x.reduced ?_
  have hvalue := digitsValue_digitsOf x.significant
  rw [hnil] at hvalue
  rw [← hvalue]
  rfl

/-- However it is written, the value is the number. -/
theorem Magnitude.value_parts (x : Magnitude) :
    x.parts.value = x.significant * 10 ^ (x.place - x.count) := by
  have hds := digitsValue_digitsOf x.significant
  have hcount : x.count = (digitsOf x.significant).length := rfl
  have hpos := x.count_pos
  rw [parts]
  split_ifs with hnear hinside hsmall
  · have hexp : x.place - x.count = ((x.place - x.count).toNat : ℤ) :=
      (Int.toNat_of_nonneg (by omega)).symm
    rw [Parts.value, append_nil, digitsValue_append_zeros, hds, Option.getD_none,
      length_nil, hexp, zpow_natCast, Int.toNat_natCast]
    push_cast
    ring
  · have hexp : (0 : ℤ) - ((digitsOf x.significant).drop x.place.toNat).length
        = x.place - x.count := by
      rw [length_drop]
      omega
    rw [Parts.value, take_append_drop, hds, Option.getD_none, hexp]
  · have hzeros : [0] ++ (replicate (-x.place).toNat 0 ++ digitsOf x.significant)
        = replicate ((-x.place).toNat + 1) 0 ++ digitsOf x.significant := rfl
    have hexp : (0 : ℤ) - (replicate (-x.place).toNat 0 ++ digitsOf x.significant).length
        = x.place - x.count := by
      rw [length_append, length_replicate]
      omega
    rw [Parts.value, hzeros, digitsValue_zeros_append, hds, Option.getD_none, hexp]
  · have hexp : x.place - 1 - ((digitsOf x.significant).drop 1).length = x.place - x.count := by
      rw [length_drop]
      omega
    rw [Parts.value, take_append_drop, hds, Option.getD_some, hexp]

/-- The value determines the digits and the place of the point. -/
theorem eq_of_mul_zpow_eq {s s' : ℕ} {a b : ℤ} (hs : s % 10 ≠ 0) (hs' : s' % 10 ≠ 0)
    (h : (s : ℚ) * 10 ^ a = s' * 10 ^ b) : s = s' ∧ a = b := by
  wlog hle : a ≤ b generalizing s s' a b with hsymm
  · obtain ⟨hss, hab⟩ := hsymm hs' hs h.symm (not_le.mp hle).le
    exact ⟨hss.symm, hab.symm⟩
  obtain ⟨k, rfl⟩ := Int.exists_add_of_le hle
  have hpow : (10 : ℚ) ^ a ≠ 0 := zpow_ne_zero a (by norm_num)
  have hnat : s = s' * 10 ^ k := by
    rw [zpow_add₀ (by norm_num), mul_comm ((10 : ℚ) ^ a), ← mul_assoc] at h
    have hcancel := mul_right_cancel₀ hpow h
    rw [zpow_natCast] at hcancel
    exact_mod_cast hcancel
  cases k with
  | zero => exact ⟨by rw [hnat, pow_zero, mul_one], (add_zero a).symm⟩
  | succ k =>
    rw [hnat, pow_succ, ← mul_assoc, Nat.mul_mod_left] at hs
    exact absurd rfl hs

theorem Magnitude.eq_of_parts {x y : Magnitude} (h : x.parts = y.parts) : x = y := by
  have hvalue : x.parts.value = y.parts.value := by rw [h]
  rw [x.value_parts, y.value_parts] at hvalue
  obtain ⟨hsignificant, hplace⟩ := eq_of_mul_zpow_eq x.reduced y.reduced hvalue
  obtain ⟨s, n, hs⟩ := x
  obtain ⟨s', n', hs'⟩ := y
  obtain rfl : s = s' := hsignificant
  have hcount : (⟨s, n, hs⟩ : Magnitude).count = (⟨s, n', hs'⟩ : Magnitude).count := rfl
  obtain rfl : n = n' := by
    dsimp only at hplace
    omega
  rfl

/-- The parts of zero. -/
def zeroParts : Parts :=
  ⟨[0], [], none⟩

theorem Magnitude.parts_ne_zero (x : Magnitude) : x.parts ≠ zeroParts := by
  intro h
  have hvalue : x.parts.value = zeroParts.value := by rw [h]
  have hzero : zeroParts.value = 0 := by norm_num [zeroParts, Parts.value, digitsValue]
  rw [x.value_parts, hzero] at hvalue
  have hs : (x.significant : ℚ) = 0 :=
    (mul_eq_zero.mp hvalue).resolve_right (zpow_ne_zero _ (by norm_num))
  have hnat : x.significant = 0 := by exact_mod_cast hs
  exact x.reduced (by rw [hnat])

/-- A number starts with a digit, after its sign. -/
theorem Magnitude.head_text (x : Magnitude) (r : List UInt16) :
    ∃ d < 10, (x.parts.text ++ r).head? = some (digitUnit d) := by
  have hwhole : x.parts.whole ≠ [] := by
    have hpos := x.count_pos
    have hcount : x.count = (digitsOf x.significant).length := rfl
    intro hnil
    have hlength := congrArg List.length hnil
    rw [parts] at hlength
    split_ifs at hlength
    · rw [length_append] at hlength
      simp only [length_nil] at hlength
      omega
    · rw [length_take] at hlength
      simp only [length_nil] at hlength
      omega
    · rw [length_take] at hlength
      simp only [length_nil] at hlength
      omega
  obtain ⟨d, ds, hcons⟩ := exists_cons_of_ne_nil hwhole
  refine ⟨d, x.digits_parts.whole d (hcons ▸ mem_cons_self), ?_⟩
  rw [Parts.text, hcons]
  rfl

/-- **The text determines the number**, and where it ends. -/
theorem Finite.text_inj {x y : Finite} (hr : Ends r) (hr' : Ends r')
    (h : x.text ++ r = y.text ++ r') : x = y ∧ r = r' := by
  have hzero : zeroParts.Digits := ⟨by decide, by decide⟩
  have hminus : ∀ d < 10, minus ≠ digitUnit d := by decide
  cases x with
  | zero =>
    cases y with
    | zero => exact ⟨rfl, (List.cons.inj h).2⟩
    | nonzero negative y =>
      cases negative with
      | true => exact absurd (List.cons.inj h).1.symm (hminus 0 (by decide))
      | false =>
        obtain ⟨hparts, -⟩ := zeroParts.text_inj hzero y.digits_parts hr hr' h
        exact absurd hparts.symm y.parts_ne_zero
  | nonzero negative x =>
    cases y with
    | zero =>
      cases negative with
      | true => exact absurd (List.cons.inj h).1 (hminus 0 (by decide))
      | false =>
        obtain ⟨hparts, -⟩ := x.parts.text_inj x.digits_parts hzero hr hr' h
        exact absurd hparts x.parts_ne_zero
    | nonzero negative' y =>
      obtain ⟨d, hd, hhead⟩ := x.head_text r
      obtain ⟨d', hd', hhead'⟩ := y.head_text r'
      cases negative with
      | true =>
        cases negative' with
        | true =>
          obtain ⟨hparts, hrest⟩ :=
            x.parts.text_inj x.digits_parts y.digits_parts hr hr' (List.cons.inj h).2
          exact ⟨congrArg (nonzero true) (Magnitude.eq_of_parts hparts), hrest⟩
        | false =>
          have heq : some minus = some (digitUnit d') := (congrArg List.head? h).trans hhead'
          exact absurd (Option.some.inj heq) (hminus d' hd')
      | false =>
        cases negative' with
        | true =>
          have heq : some (digitUnit d) = some minus := hhead.symm.trans (congrArg List.head? h)
          exact absurd (Option.some.inj heq).symm (hminus d hd)
        | false =>
          obtain ⟨hparts, hrest⟩ :=
            x.parts.text_inj x.digits_parts y.digits_parts hr hr' h
          exact ⟨congrArg (nonzero false) (Magnitude.eq_of_parts hparts), hrest⟩

end Rabotka.Lib.NumberText
