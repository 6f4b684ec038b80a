import Mathlib.Data.List.DropRight

/-!
# What was seen last

A history is a list, newest first. `recent` lists its distinct elements by their last occurrence,
and `window n` the `n` of them that occurred last: what a reader who wants the last `n` distinct
elements asks for.

`enter n` is what a bounded list in the order of first occurrence does with an element: one that is
listed stays where it is, one that is not goes to the end, and where there is no room the first one
is dropped. It keeps the window of the history if and only if, whenever it drops an element, this
is the one of the window that occurred longest ago (`enter_perm_window`).
-/

namespace Recency

open List

variable {α : Type*} [DecidableEq α] {n : ℕ} {a b : α} {l h : List α}

/-! ### The elements by their last occurrence -/

/-- The distinct elements of a history by their last occurrence, newest first. -/
def recent : List α → List α
  | [] => []
  | a :: h => a :: (recent h).erase a

/-- The `n` distinct elements that occurred last. -/
def window (n : ℕ) (h : List α) : List α := (recent h).take n

@[simp]
theorem recent_nil : recent ([] : List α) = [] := rfl

@[simp]
theorem recent_cons (a : α) (h : List α) : recent (a :: h) = a :: (recent h).erase a := rfl

@[simp]
theorem window_nil (n : ℕ) : window n ([] : List α) = [] := take_nil

theorem nodup_recent (h : List α) : (recent h).Nodup := by
  induction h with
  | nil => exact nodup_nil
  | cons a h ih => exact nodup_cons.2 ⟨ih.not_mem_erase, ih.erase a⟩

theorem nodup_window (n : ℕ) (h : List α) : (window n h).Nodup :=
  (nodup_recent h).sublist (take_sublist n _)

theorem length_window_le (n : ℕ) (h : List α) : (window n h).length ≤ n :=
  length_take_le n _

/-- An element of the window moves to its front. -/
theorem window_cons_of_mem (ha : a ∈ window n h) : (window n (a :: h)).Perm (window n h) := by
  have hsplit : (recent h).erase a = (window n h).erase a ++ (recent h).drop n := by
    conv_lhs => rw [← take_append_drop n (recent h)]
    exact erase_append_left _ ha
  have hlength : ((window n h).erase a).length + 1 = (window n h).length := by
    rw [length_erase_of_mem ha]
    have := length_pos_of_mem ha
    omega
  obtain ⟨m, rfl⟩ : ∃ m, n = m + 1 := by
    cases n with
    | zero => simp [window] at ha
    | succ m => exact ⟨m, rfl⟩
  rw [window, recent_cons, take_succ_cons, hsplit]
  have hle := length_window_le (m + 1) h
  rcases Nat.lt_or_ge (window (m + 1) h).length (m + 1) with hlt | hge
  · -- the window is the whole history
    have hnone : (recent h).drop (m + 1) = [] := by
      rw [window, length_take] at hlt
      exact drop_eq_nil_of_le (by omega)
    rw [hnone, append_nil, take_of_length_le (by omega)]
    exact (perm_cons_erase ha).symm
  · rw [take_append_of_le_length (by omega), take_of_length_le (by omega)]
    exact (perm_cons_erase ha).symm

/-- An element that is not in the window takes the place of the last one there. -/
theorem window_cons_of_notMem (ha : a ∉ window (n + 1) h) :
    window (n + 1) (a :: h) = a :: window n h := by
  have hsplit : (recent h).erase a = window (n + 1) h ++ ((recent h).drop (n + 1)).erase a := by
    conv_lhs => rw [← take_append_drop (n + 1) (recent h)]
    exact erase_append_right _ ha
  rw [window, recent_cons, take_succ_cons, hsplit]
  congr 1
  rcases Nat.lt_or_ge n (window (n + 1) h).length with hlt | hge
  · rw [take_append_of_le_length hlt.le, window, window, take_take, Nat.min_eq_left (Nat.le_succ n)]
  · have hshort : (recent h).length ≤ n := by
      rw [window, length_take] at hge
      omega
    rw [window, drop_eq_nil_of_le (by omega), erase_nil, append_nil, take_take,
      Nat.min_eq_left (Nat.le_succ n)]
    rfl

/-! ### The bounded list -/

/-- The list without repetitions, with the element at its end if it was not there, and without the
first ones if it is longer than `n`. -/
def enter (n : ℕ) (a : α) (l : List α) : List α := ((l ++ [a]).eraseDups).rtake n

theorem eraseDups_of_nodup (hl : l.Nodup) : l.eraseDups = l := by
  induction l with
  | nil => rfl
  | cons b l ih =>
    obtain ⟨hb, hl⟩ := nodup_cons.1 hl
    have hkeep : l.filter (fun c => !c == b) = l :=
      filter_eq_self.2 fun c hc => by simpa using ne_of_mem_of_not_mem hc hb
    rw [eraseDups_cons, hkeep, ih hl]

theorem eraseDups_concat (hl : l.Nodup) : (l ++ [a]).eraseDups = if a ∈ l then l else l ++ [a] := by
  rw [eraseDups_append, eraseDups_of_nodup hl]
  split
  · rename_i ha
    simp [removeAll, ha]
  · rename_i ha
    simp [removeAll, ha, eraseDups_cons]

/-- A listed element changes nothing. -/
theorem enter_of_mem (hl : l.Nodup) (hn : l.length ≤ n) (ha : a ∈ l) : enter n a l = l := by
  rw [enter, eraseDups_concat hl, if_pos ha, rtake, Nat.sub_eq_zero_of_le hn, drop_zero]

theorem enter_of_room (hl : l.Nodup) (hn : l.length < n) (ha : a ∉ l) : enter n a l = l ++ [a] := by
  rw [enter, eraseDups_concat hl, if_neg ha, rtake, length_append, length_singleton,
    Nat.sub_eq_zero_of_le hn, drop_zero]

/-- Where there is no room the first one is dropped. -/
theorem enter_of_full (hl : (b :: l).Nodup) (hn : (b :: l).length = n) (ha : a ∉ b :: l) :
    enter n a (b :: l) = l ++ [a] := by
  have hdrop : (b :: l ++ [a]).length - n = 1 := by
    rw [length_append, hn, length_singleton]
    omega
  rw [enter, eraseDups_concat hl, if_neg ha, rtake, hdrop]
  rfl

/-- What `enter` takes away is the first element of a full list. -/
theorem mem_enter_or (hl : l.Nodup) (hn : l.length ≤ n) (hb : b ∈ l) :
    b ∈ enter n a l ∨ l.length = n ∧ l.head? = some b := by
  by_cases ha : a ∈ l
  · exact .inl ((enter_of_mem hl hn ha).symm ▸ hb)
  · rcases hn.lt_or_eq with hlt | heq
    · rw [enter_of_room hl hlt ha]
      exact .inl (mem_append_left _ hb)
    · cases l with
      | nil => cases hb
      | cons c l =>
        rw [enter_of_full hl heq ha]
        rcases mem_cons.1 hb with rfl | hb
        · exact .inr ⟨heq, rfl⟩
        · exact .inl (mem_append_left _ hb)

/-! ### When the bounded list keeps the window -/

/-- What would be dropped is the element of the window that occurred longest ago. -/
def DropsOldest (n : ℕ) (a : α) (l h : List α) : Prop :=
  l.length < n ∨ a ∈ l ∨ l.head? = (window n h).getLast?

instance : Decidable (DropsOldest n a l h) := inferInstanceAs (Decidable (_ ∨ _ ∨ _))

/-- A full window without the element that occurred longest ago. -/
theorem window_eq_concat (hfull : (window (n + 1) h).length = n + 1) :
    ∃ c, window (n + 1) h = window n h ++ [c] := by
  have hlt : n < (recent h).length := by
    rw [window, length_take] at hfull
    omega
  exact ⟨(recent h)[n], take_succ_eq_append_getElem hlt⟩

/-- **The bounded list keeps the window** if and only if it drops what occurred longest ago. -/
theorem enter_perm_window (hl : l.Perm (window n h)) (hn : 0 < n) :
    (enter n a l).Perm (window n (a :: h)) ↔ DropsOldest n a l h := by
  have hnodup : l.Nodup := hl.nodup_iff.2 (nodup_window n h)
  have hlength : l.length ≤ n := hl.length_eq.le.trans (length_window_le n h)
  obtain ⟨m, rfl⟩ : ∃ m, n = m + 1 := ⟨n - 1, by omega⟩
  by_cases ha : a ∈ l
  · rw [enter_of_mem hnodup hlength ha]
    exact ⟨fun _ => .inr (.inl ha), fun _ => hl.trans (window_cons_of_mem (hl.mem_iff.1 ha)).symm⟩
  · have hw : window (m + 1) (a :: h) = a :: window m h :=
      window_cons_of_notMem fun hmem => ha (hl.mem_iff.2 hmem)
    rcases hlength.lt_or_eq with hlt | heq
    · rw [enter_of_room hnodup hlt ha, hw]
      refine ⟨fun _ => .inl hlt, fun _ => ?_⟩
      have hsame : window (m + 1) h = window m h := by
        have hshort : (window (m + 1) h).length < m + 1 := hl.length_eq ▸ hlt
        rw [window, length_take] at hshort
        rw [window, window, take_of_length_le (by omega), take_of_length_le (by omega)]
      exact (perm_append_singleton a l).trans ((hsame ▸ hl).cons a)
    · obtain ⟨c, hc⟩ := window_eq_concat (hl.length_eq.symm.trans heq)
      cases l with
      | nil => cases heq
      | cons b l =>
        rw [enter_of_full hnodup heq ha, hw, DropsOldest, hc]
        have hperm : (b :: l).Perm (c :: window m h) :=
          (hc ▸ hl).trans (perm_append_singleton c _)
        have hiff : (l ++ [a]).Perm (a :: window m h) ↔ l.Perm (window m h) :=
          ⟨fun hp => perm_cons a |>.1 ((perm_append_singleton a l).symm.trans hp),
            fun hp => (perm_append_singleton a l).trans (hp.cons a)⟩
        rw [hiff]
        constructor
        · intro hp
          have hcons : (b :: l).Perm (c :: l) := hperm.trans (hp.symm.cons c)
          have hbc : b = c := by
            by_contra hne
            have hb : b ∈ l :=
              (mem_cons.1 (hcons.mem_iff.1 mem_cons_self)).resolve_left hne
            exact (nodup_cons.1 hnodup).1 hb
          exact .inr (.inr (by simp [hbc]))
        · rintro (hlt | hmem | hhead)
          · exact absurd hlt (by omega)
          · exact absurd hmem ha
          · obtain rfl : b = c := by simpa using hhead
            exact (perm_cons b).1 hperm

end Recency
