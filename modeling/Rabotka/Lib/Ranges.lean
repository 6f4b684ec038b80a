import Mathlib

/-!
# Half-open ranges of positions

A list of things that each cover a half-open range of positions. `coalesce` fuses, in a list sorted
by where the ranges start, every range with those before it that it overlaps or touches: what it
covers is what the list covers, its ranges keep a distance, and it has every property of single
ranges that fusing keeps. `weave` is a text with the ranges of such a list replaced; replacing them
one by one from the back to the front comes to the same (`foldr_splice`).
-/

namespace Ranges

open List

variable {α β : Type*}

/-- Things with a range of positions, and how one is fused with another that starts in it or at its
end. -/
structure Fusion (α : Type*) where
  lo : α → ℕ
  hi : α → ℕ
  fuse : α → α → α
  lo_fuse : ∀ a b, lo (fuse a b) = lo a
  hi_fuse : ∀ a b, hi (fuse a b) = max (hi a) (hi b)

namespace Fusion

variable (F : Fusion α)

/-- The pass over the list: `current` is what is still open. -/
def coalesceFrom (current : α) : List α → List α
  | [] => [current]
  | x :: rest =>
    if F.lo x ≤ F.hi current then coalesceFrom (F.fuse current x) rest
    else current :: coalesceFrom x rest

def coalesce : List α → List α
  | [] => []
  | x :: rest => F.coalesceFrom x rest

/-- The order in which `coalesce` reads. -/
def Sorted (l : List α) : Prop := l.Pairwise fun a b => F.lo a ≤ F.lo b

/-- Every range ends before the next one starts, and no two touch. -/
def Apart (l : List α) : Prop := l.Pairwise fun a b => F.hi a < F.lo b

/-- Some range of the list has the position. -/
def Covers (l : List α) (n : ℕ) : Prop := ∃ a ∈ l, F.lo a ≤ n ∧ n < F.hi a

instance (l : List α) (n : ℕ) : Decidable (F.Covers l n) :=
  inferInstanceAs (Decidable (∃ a ∈ l, F.lo a ≤ n ∧ n < F.hi a))

variable {F} {a b current x : α} {l rest : List α} {n : ℕ}

@[simp]
theorem covers_nil : ¬F.Covers [] n := by
  simp [Covers]

@[simp]
theorem covers_cons : F.Covers (a :: l) n ↔ (F.lo a ≤ n ∧ n < F.hi a) ∨ F.Covers l n := by
  simp [Covers]

/-- The rule for the pass: what is true of all the ranges, and kept when one is fused with a later
one that overlaps or touches it, is true of all that come out. -/
theorem coalesceFrom_induction {P : α → Prop} (hsorted : F.Sorted (current :: rest))
    (hcurrent : P current) (hrest : ∀ x ∈ rest, P x)
    (hfuse : ∀ a b, P a → P b → F.lo a ≤ F.lo b → F.lo b ≤ F.hi a → P (F.fuse a b)) :
    ∀ d ∈ F.coalesceFrom current rest, P d := by
  induction rest generalizing current with
  | nil => simpa [coalesceFrom] using hcurrent
  | cons x rest ih =>
    obtain ⟨hle, htail⟩ := pairwise_cons.1 hsorted
    have hx := hle x mem_cons_self
    rw [coalesceFrom]
    split_ifs with htouch
    · refine ih ?_ (hfuse _ _ hcurrent (hrest x mem_cons_self) hx htouch)
        fun y hy => hrest y (mem_cons_of_mem _ hy)
      refine pairwise_cons.2 ⟨fun y hy => ?_, (pairwise_cons.1 htail).2⟩
      rw [F.lo_fuse]
      exact hle y (mem_cons_of_mem _ hy)
    · intro d hd
      rcases mem_cons.1 hd with rfl | hd
      · exact hcurrent
      · exact ih htail (hrest x mem_cons_self) (fun y hy => hrest y (mem_cons_of_mem _ hy)) d hd

theorem coalesce_induction {P : α → Prop} (hsorted : F.Sorted l) (hl : ∀ x ∈ l, P x)
    (hfuse : ∀ a b, P a → P b → F.lo a ≤ F.lo b → F.lo b ≤ F.hi a → P (F.fuse a b)) :
    ∀ d ∈ F.coalesce l, P d := by
  cases l with
  | nil => simp [coalesce]
  | cons x rest =>
    exact coalesceFrom_induction hsorted (hl x mem_cons_self)
      (fun y hy => hl y (mem_cons_of_mem _ hy)) hfuse

/-- Every range is taken up by one that comes out. -/
theorem coalesceFrom_absorbs {R : α → α → Prop} (hrefl : ∀ a, R a a)
    (hleft : ∀ a b x, R a x → R (F.fuse a b) x)
    (hright : ∀ a b, F.lo a ≤ F.lo b → R (F.fuse a b) b)
    (hsorted : F.Sorted (current :: rest)) (hx : R current x ∨ x ∈ rest) :
    ∃ d ∈ F.coalesceFrom current rest, R d x := by
  induction rest generalizing current with
  | nil =>
    rcases hx with hx | hx
    · exact ⟨current, by simp [coalesceFrom], hx⟩
    · cases hx
  | cons y rest ih =>
    obtain ⟨hle, htail⟩ := pairwise_cons.1 hsorted
    rw [coalesceFrom]
    split_ifs with htouch
    · refine ih ?_ ?_
      · refine pairwise_cons.2 ⟨fun z hz => ?_, (pairwise_cons.1 htail).2⟩
        rw [F.lo_fuse]
        exact hle z (mem_cons_of_mem _ hz)
      · rcases hx with hx | hx
        · exact .inl (hleft _ _ _ hx)
        · rcases mem_cons.1 hx with rfl | hx
          · exact .inl (hright _ _ (hle _ mem_cons_self))
          · exact .inr hx
    · rcases hx with hx | hx
      · exact ⟨current, mem_cons_self, hx⟩
      · have hnext : R y x ∨ x ∈ rest := by
          rcases mem_cons.1 hx with rfl | hx
          · exact .inl (hrefl _)
          · exact .inr hx
        obtain ⟨d, hd, hdx⟩ := ih htail hnext
        exact ⟨d, mem_cons_of_mem _ hd, hdx⟩

theorem coalesce_absorbs {R : α → α → Prop} (hrefl : ∀ a, R a a)
    (hleft : ∀ a b x, R a x → R (F.fuse a b) x)
    (hright : ∀ a b, F.lo a ≤ F.lo b → R (F.fuse a b) b) (hsorted : F.Sorted l) (hx : x ∈ l) :
    ∃ d ∈ F.coalesce l, R d x := by
  cases l with
  | nil => cases hx
  | cons y rest =>
    refine coalesceFrom_absorbs hrefl hleft hright hsorted ?_
    rcases mem_cons.1 hx with rfl | hx
    · exact .inl (hrefl _)
    · exact .inr hx

/-- Nothing that comes out starts before what was open. -/
theorem lo_le_of_mem_coalesceFrom (hsorted : F.Sorted (current :: rest)) :
    ∀ d ∈ F.coalesceFrom current rest, F.lo current ≤ F.lo d :=
  coalesceFrom_induction hsorted le_rfl (pairwise_cons.1 hsorted).1
    fun a b ha _ _ _ => by rwa [F.lo_fuse]

theorem apart_coalesceFrom (hsorted : F.Sorted (current :: rest)) :
    F.Apart (F.coalesceFrom current rest) := by
  induction rest generalizing current with
  | nil => exact pairwise_singleton _ _
  | cons x rest ih =>
    obtain ⟨hle, htail⟩ := pairwise_cons.1 hsorted
    rw [coalesceFrom]
    split_ifs with htouch
    · refine ih (pairwise_cons.2 ⟨fun y hy => ?_, (pairwise_cons.1 htail).2⟩)
      rw [F.lo_fuse]
      exact hle y (mem_cons_of_mem _ hy)
    · refine pairwise_cons.2 ⟨fun d hd => ?_, ih htail⟩
      exact (not_le.1 htouch).trans_le (lo_le_of_mem_coalesceFrom htail d hd)

theorem apart_coalesce (hsorted : F.Sorted l) : F.Apart (F.coalesce l) := by
  cases l with
  | nil => exact List.Pairwise.nil
  | cons x rest => exact apart_coalesceFrom hsorted

/-- Coalescing changes nothing about which positions are covered. -/
theorem covers_coalesce (hsorted : F.Sorted l) : F.Covers (F.coalesce l) n ↔ F.Covers l n := by
  constructor
  · rintro ⟨d, hd, hn⟩
    refine coalesce_induction (P := fun d => F.lo d ≤ n ∧ n < F.hi d → F.Covers l n) hsorted
      (fun x hx hn => ⟨x, hx, hn⟩) (fun a b ha hb hle htouch hn => ?_) d hd hn
    rw [F.lo_fuse, F.hi_fuse, lt_max_iff] at hn
    rcases hn with ⟨hlo, hhi | hhi⟩
    · exact ha ⟨hlo, hhi⟩
    · by_cases hin : n < F.hi a
      · exact ha ⟨hlo, hin⟩
      · exact hb ⟨by omega, hhi⟩
  · rintro ⟨x, hx, hn⟩
    obtain ⟨d, hd, hlo, hhi⟩ := coalesce_absorbs
      (R := fun d x => F.lo d ≤ F.lo x ∧ F.hi x ≤ F.hi d) (fun a => ⟨le_rfl, le_rfl⟩)
      (fun a b x h => by
        rw [F.lo_fuse, F.hi_fuse]
        exact ⟨h.1, h.2.trans (le_max_left _ _)⟩)
      (fun a b h => by
        rw [F.lo_fuse, F.hi_fuse]
        exact ⟨h, le_max_right _ _⟩) hsorted hx
    exact ⟨d, hd, by omega, by omega⟩

/-- Ranges that keep a distance and share a position are the same. -/
theorem Apart.eq_of_common (h : F.Apart l) (ha : a ∈ l) (hb : b ∈ l) (han : F.lo a ≤ n ∧ n < F.hi a)
    (hbn : F.lo b ≤ n ∧ n < F.hi b) : a = b := by
  induction l with
  | nil => cases ha
  | cons x l ih =>
    obtain ⟨hx, hl⟩ := pairwise_cons.1 h
    rcases mem_cons.1 ha with rfl | ha'
    · rcases mem_cons.1 hb with rfl | hb'
      · rfl
      · have := hx b hb'
        omega
    · rcases mem_cons.1 hb with rfl | hb'
      · have := hx a ha'
        omega
      · exact ih hl ha' hb'

/-! ### Replacing ranges -/

variable (F) (subst : α → List β)

/-- One range of a text replaced. -/
def splice (s : α) (input : List β) : List β :=
  input.take (F.lo s) ++ subst s ++ input.drop (F.hi s)

/-- The text from a position on, the part before each range in its turn and then what stands for
the range. -/
def weave (input : List β) : (start : ℕ) → List α → List β
  | start, [] => input.drop start
  | start, s :: rest =>
    (input.take (F.lo s)).drop start ++ subst s ++ weave input (F.hi s) rest

variable {F subst} {input other : List β} {start : ℕ}

/-- From the back to the front the positions of the ranges still to come stay valid. -/
theorem foldr_splice (hapart : F.Apart l) (hwf : ∀ s ∈ l, F.lo s ≤ F.hi s ∧ F.hi s ≤ input.length)
    (hstart : ∀ s ∈ l, start ≤ F.lo s) (hlen : start ≤ input.length) :
    l.foldr (F.splice subst) input = input.take start ++ F.weave subst input start l := by
  induction l generalizing start with
  | nil => simp [weave]
  | cons s rest ih =>
    obtain ⟨hs, hrest⟩ := pairwise_cons.1 hapart
    obtain ⟨hle, hend⟩ := hwf s mem_cons_self
    have htake : (input.take (F.hi s)).length = F.hi s := by
      rw [length_take, min_eq_left hend]
    have hsplit : input.take start ++ (input.take (F.lo s)).drop start = input.take (F.lo s) := by
      have h := take_append_drop start (input.take (F.lo s))
      rwa [take_take, min_eq_left (hstart s mem_cons_self)] at h
    rw [foldr_cons, ih hrest (fun t ht => hwf t (mem_cons_of_mem _ ht))
      (fun t ht => (hs t ht).le) hend, splice, weave]
    rw [take_append_of_le_length (by rw [htake]; exact hle), take_take, min_eq_left hle,
      drop_left' htake, ← append_assoc, ← append_assoc, hsplit]

/-- What is woven depends on the text outside of the ranges only. -/
theorem weave_congr (hapart : F.Apart l)
    (hwf : ∀ s ∈ l, F.lo s ≤ F.hi s) (hstart : ∀ s ∈ l, start ≤ F.lo s)
    (hother : ∀ n, start ≤ n → ¬F.Covers l n → other[n]? = input[n]?) :
    F.weave subst other start l = F.weave subst input start l := by
  induction l generalizing start with
  | nil =>
    refine ext_getElem? fun n => ?_
    rw [weave, weave, getElem?_drop, getElem?_drop]
    exact hother _ (Nat.le_add_right _ _) covers_nil
  | cons s rest ih =>
    obtain ⟨hs, hrest⟩ := pairwise_cons.1 hapart
    have hle := hwf s mem_cons_self
    have hbefore : ∀ n, n < F.lo s → ¬F.Covers (s :: rest) n := by
      rintro n hn ⟨t, ht, hlo, -⟩
      rcases mem_cons.1 ht with rfl | ht
      · omega
      · have := hs t ht
        omega
    have hpart : (other.take (F.lo s)).drop start = (input.take (F.lo s)).drop start := by
      refine ext_getElem? fun n => ?_
      rw [getElem?_drop, getElem?_drop, getElem?_take, getElem?_take]
      split_ifs with hn
      · exact hother _ (Nat.le_add_right _ _) (hbefore _ hn)
      · rfl
    rw [weave, weave, hpart, ih hrest (fun t ht => hwf t (mem_cons_of_mem _ ht))
      (fun t ht => (hs t ht).le)]
    intro n hn hcovers
    refine hother n ((hstart s mem_cons_self).trans (hle.trans hn)) fun h => ?_
    rcases covers_cons.1 h with h | h
    · omega
    · exact hcovers h

/-! ### Counting -/

variable (F) in
/-- The covered positions of a text of a given length. -/
def covered (l : List α) (size : ℕ) : Finset ℕ := (Finset.range size).filter (F.Covers l)

/-- As many positions are covered as the ranges are long, all together. -/
theorem card_covered {size : ℕ} (hapart : F.Apart l)
    (hwf : ∀ s ∈ l, F.lo s ≤ F.hi s ∧ F.hi s ≤ size) :
    (F.covered l size).card = (l.map fun s => F.hi s - F.lo s).sum := by
  induction l with
  | nil => simp [covered]
  | cons s rest ih =>
    obtain ⟨hs, hrest⟩ := pairwise_cons.1 hapart
    obtain ⟨hle, hend⟩ := hwf s mem_cons_self
    have hunion : F.covered (s :: rest) size =
        Finset.Ico (F.lo s) (F.hi s) ∪ F.covered rest size := by
      ext n
      simp only [covered, Finset.mem_filter, Finset.mem_range, covers_cons, Finset.mem_union,
        Finset.mem_Ico]
      constructor
      · rintro ⟨hn, h | h⟩
        · exact .inl h
        · exact .inr ⟨hn, h⟩
      · rintro (h | ⟨hn, h⟩)
        · exact ⟨by omega, .inl h⟩
        · exact ⟨hn, .inr h⟩
    have hdisjoint : Disjoint (Finset.Ico (F.lo s) (F.hi s)) (F.covered rest size) := by
      refine Finset.disjoint_left.2 fun n hn hcovered => ?_
      obtain ⟨t, ht, hlo, -⟩ := (Finset.mem_filter.1 hcovered).2
      have := hs t ht
      have := (Finset.mem_Ico.1 hn).2
      omega
    rw [hunion, Finset.card_union_of_disjoint hdisjoint, Nat.card_Ico,
      ih hrest fun t ht => hwf t (mem_cons_of_mem _ ht), map_cons, sum_cons]

end Fusion

end Ranges
