import Rabotka.Events.Rows

/-!
# What a series holds

`Kept views removed s rule next`: the series `s` was created for `rule`, the occurrences below
`next` were written, and the rows are those of them that were not removed. What the series still
calls for from `next` on is what the rule has there and was not removed. Each operation on a
series keeps this: creating it, removing one row, cutting off the tail, and extending it where
the number of rows is the number `next`.
-/

namespace Rabotka.Events

open List

/-- The rows of a series are the first `next` occurrences of its rule, less the removed ones. -/
structure Kept (views : List (ℤ × ℤ × Option ℕ)) (removed : ℕ → Prop) (s : EventSeries)
    (rule : Rule) (next : ℕ) : Prop where
  same : s.anchorStart = rule.anchorStart ∧ s.anchorEnd = rule.anchorEnd ∧
    s.frequency = rule.frequency
  rows : ∃ idx : List ℕ, views = idx.map (fun i => (rule.occurrence i).view) ∧ idx.Nodup ∧
    ∀ i, i ∈ idx ↔ i < next ∧ ¬ removed i
  nonempty : 0 < next → views ≠ []
  has : ∀ i < next, rule.Has i
  rest : ∀ i, next ≤ i → (s.Has i ↔ rule.Has i ∧ ¬ removed i)
  reach : s.materialisedUntil = rule.start (next - 1)
  nothing : next = 0 → ¬ rule.Has 0
  count_pos : ∀ c ∈ s.count, 0 < c

namespace Kept

variable {views : List (ℤ × ℤ × Option ℕ)} {removed : ℕ → Prop} {s : EventSeries} {rule : Rule}
  {next : ℕ}

theorem start_eq (h : Kept views removed s rule next) (i : ℕ) : s.start i = rule.start i := by
  obtain ⟨hstart, -, hfreq⟩ := h.same
  simp only [Rule.start, hstart, hfreq]

theorem occurrence_eq (h : Kept views removed s rule next) (i : ℕ) :
    s.occurrence i = rule.occurrence i := by
  obtain ⟨hstart, hend, -⟩ := h.same
  simp only [Rule.occurrence, h.start_eq, hstart, hend]

theorem mem_views (h : Kept views removed s rule next) {v : ℤ × ℤ × Option ℕ} :
    v ∈ views ↔ ∃ i, (i < next ∧ ¬ removed i) ∧ (rule.occurrence i).view = v := by
  obtain ⟨idx, rfl, -, hmem⟩ := h.rows
  simp only [mem_map, hmem]

/-- There are no more rows than occurrences were written. -/
theorem length_le (h : Kept views removed s rule next) : views.length ≤ next := by
  obtain ⟨idx, rfl, hnodup, hmem⟩ := h.rows
  have hsub : idx ⊆ List.range next := fun i hi => mem_range.2 ((hmem i).1 hi).1
  have hle := (subperm_of_subset hnodup hsub).length_le
  rwa [length_range, ← length_map (f := fun i => (rule.occurrence i).view)] at hle

/-- No number is there twice, and no date. -/
theorem nodup_views (h : Kept views removed s rule next) :
    (views.map fun v => v.2.2).Nodup ∧ (views.map fun v => v.1).Nodup := by
  obtain ⟨idx, rfl, hnodup, -⟩ := h.rows
  rw [map_map, map_map]
  exact ⟨hnodup.map (Option.some_injective _), hnodup.map rule.strictMono_start.injective⟩

theorem next_pos (h : Kept views removed s rule next) (hne : views ≠ []) : 0 < next := by
  have hpos := length_pos_iff.2 hne
  exact hpos.trans_le h.length_le

/-- What was not written yet is later than everything that was. -/
theorem lt_start (h : Kept views removed s rule next) {i : ℕ} (hi : next ≤ i)
    (hhas : rule.Has i) : s.materialisedUntil < rule.start i := by
  have hpos : next ≠ 0 := fun hzero => h.nothing hzero (hhas.mono (Nat.zero_le i))
  rw [h.reach]
  exact rule.strictMono_start (by omega)

/-! ### Creating -/

/-- A new series. -/
theorem create (rule : Rule) (id : ℕ) (hcount : ∀ c ∈ rule.count, 0 < c)
    (hremoved : ∀ i, ¬ removed i) :
    Kept ((expand (firstBatch rule)).map Occurrence.view) removed
      ⟨rule, id, ((expand (firstBatch rule)).getLast?.map (·.start)).getD rule.anchorStart⟩ rule
      (expand (firstBatch rule)).length where
  same := ⟨rfl, rfl, rfl⟩
  rows := by
    refine ⟨List.range (expand (firstBatch rule)).length, ?_, nodup_range, fun i => ?_⟩
    · conv_lhs => rw [expand_eq]
      rw [map_map, range_eq_range']
      rfl
    · simp [hremoved]
  nonempty hpos := by
    simpa using length_pos_iff.1 hpos
  has i hi := by
    have hfits := ((lt_length_expand (firstBatch rule) i).1 hi).2
    have hzero : (firstBatch rule).startIndex + i = i := Nat.zero_add i
    rw [hzero] at hfits
    exact hfits.1
  rest i _ := by simp [hremoved]
  reach := by
    by_cases hnil : expand (firstBatch rule) = []
    · simp [hnil]
    · rw [getLast?_expand hnil]
      simp [firstBatch, Rule.occurrence]
  nothing hzero hhas := by
    have hnil := length_eq_zero_iff.1 hzero
    refine expand_eq_nil.1 hnil ⟨Nat.zero_lt_succ _, hhas, ?_⟩
    -- the first occurrence is not past the horizon
    have hwithin := hhas.2
    simp only [firstBatch, Rule.start_zero] at hwithin ⊢
    cases huntil : rule.until with
    | none => exact (lt_openEndedHorizon _).le
    | some last => exact hwithin last (by rw [huntil]; rfl)
  count_pos := hcount

/-! ### Removing -/

/-- The rows of some of the indexes. -/
theorem rows_filter (h : Kept views removed s rule next) (p : ℤ × ℤ × Option ℕ → Bool)
    (removed' : ℕ → Prop)
    (hp : ∀ i, i < next → ¬ removed i → (p (rule.occurrence i).view ↔ ¬ removed' i))
    (hremoved : ∀ i, removed i → removed' i) :
    ∃ idx : List ℕ, views.filter p = idx.map (fun i => (rule.occurrence i).view) ∧ idx.Nodup ∧
      ∀ i, i ∈ idx ↔ i < next ∧ ¬ removed' i := by
  obtain ⟨idx, rfl, hnodup, hmem⟩ := h.rows
  refine ⟨idx.filter fun i => p (rule.occurrence i).view, filter_map, hnodup.filter _, fun i => ?_⟩
  rw [mem_filter, hmem]
  constructor
  · rintro ⟨⟨hlt, hnot⟩, hi⟩
    exact ⟨hlt, (hp i hlt hnot).1 hi⟩
  · rintro ⟨hlt, hnot'⟩
    have hnot := mt (hremoved i) hnot'
    exact ⟨⟨hlt, hnot⟩, (hp i hlt hnot).2 hnot'⟩

variable {index : ℕ}

/-- One row is removed, and others are left. -/
theorem removeOne (h : Kept views removed s rule next) (hindex : index < next)
    (hleft : (views.filter fun v => !decide (v.2.2 = some index)) ≠ []) :
    Kept (views.filter fun v => !decide (v.2.2 = some index))
      (fun i => removed i ∨ i = index) s rule next where
  same := h.same
  rows := by
    refine h.rows_filter _ _ (fun i _ hnot => ?_) fun i => Or.inl
    simp [Occurrence.view, Rule.occurrence, hnot]
  nonempty _ := hleft
  has := h.has
  rest i hi := by
    have hne : i ≠ index := by omega
    simpa only [hne, or_false] using h.rest i hi
  reach := h.reach
  nothing := h.nothing
  count_pos := h.count_pos

/-- The rows from one on are removed, and others are left: the rule ends with the last of them. -/
theorem cut (h : Kept views removed s rule next) (hindex : index < next) {last : ℤ}
    (hlast : ∃ v ∈ views.filter (fun v => !decide (rule.start index ≤ v.1)), v.1 = last) :
    Kept (views.filter fun v => !decide (rule.start index ≤ v.1))
      (fun i => removed i ∨ index ≤ i) { s with «until» := some last, count := none } rule
      next where
  same := h.same
  rows := by
    refine h.rows_filter _ _ (fun i _ hnot => ?_) fun i => Or.inl
    have hle : rule.start index ≤ rule.start i ↔ index ≤ i := rule.strictMono_start.le_iff_le
    simp only [Occurrence.view, Rule.occurrence, hle, hnot, false_or, Bool.not_eq_true',
      decide_eq_false_iff_not]
  nonempty _ := by
    obtain ⟨v, hv, -⟩ := hlast
    exact ne_nil_of_mem hv
  has := h.has
  rest i hi := by
    obtain ⟨v, hv, rfl⟩ := hlast
    obtain ⟨j, ⟨hj, -⟩, rfl⟩ := h.mem_views.1 (mem_of_mem_filter hv)
    -- neither side holds: the rule is over, and the tail was removed
    have hlater : rule.start j < rule.start i := rule.strictMono_start (hj.trans_le hi)
    constructor
    · intro hhas
      have hle : s.start i ≤ rule.start j := hhas.2 _ rfl
      rw [h.start_eq] at hle
      omega
    · rintro ⟨-, hnot⟩
      exact absurd (.inr (by omega)) hnot
  reach := h.reach
  nothing := h.nothing
  count_pos := by simp

/-! ### Extending -/

variable {upTo : ℤ}

/-- Nothing is appended, or the number of rows is the number of the next occurrence. -/
theorem written_eq (h : Kept views removed s rule next)
    (hdense : s.start (views.length - 1) = s.materialisedUntil)
    (hne : topUp views.length s upTo ≠ []) : views.length = next := by
  have hwritten : views.length ≠ 0 := by
    intro hzero
    exact hne (by rw [topUp, if_pos (.inr hzero)])
  have hpos := h.next_pos (by rintro rfl; exact hwritten rfl)
  rw [h.reach, h.start_eq] at hdense
  have heq := rule.strictMono_start.injective hdense
  omega

/-- What is appended where the number of rows is the number of the next occurrence. -/
theorem topUp_eq (h : Kept views removed s rule next)
    (hdense : s.start (views.length - 1) = s.materialisedUntil)
    (hne : topUp views.length s upTo ≠ []) :
    topUp views.length s upTo = expand ⟨s.toRule, upTo, maxMaterialisedPerRequest, next⟩ ∧
      topUp views.length s upTo =
        (range' next (topUp views.length s upTo).length).map rule.occurrence := by
  have hexpand : topUp views.length s upTo =
      expand ⟨s.toRule, upTo, maxMaterialisedPerRequest, next⟩ := by
    rw [topUp] at hne ⊢
    split at hne
    · exact absurd rfl hne
    · rename_i hcond
      rw [if_neg hcond, h.written_eq hdense]
      rw [topUp, if_neg hcond]
      exact hne
  refine ⟨hexpand, ?_⟩
  have hocc : s.toRule.occurrence = rule.occurrence := funext h.occurrence_eq
  rw [hexpand]
  conv_lhs => rw [expand_eq]
  simp only [hocc]

/-- A series that still calls for an occurrence up to a date is not left as it is. -/
theorem topUp_ne_nil (h : Kept views removed s rule next)
    (hindex : next ≤ index) (hhas : s.Has index) (hle : rule.start index ≤ upTo) :
    topUp views.length s upTo ≠ [] := by
  have hwritten := h.length_le
  have hrule := ((h.rest index hindex).1 hhas).1
  rw [topUp]
  split
  · rename_i hcond
    rcases hcond with hcount | hzero
    · -- all that the count allows is written
      obtain ⟨hsome, hget⟩ := (Option.any_eq_true_iff_get _ _).1 hcount
      have hc := Option.get_mem hsome
      have hlec := of_decide_eq_true hget
      generalize s.count.get hsome = c at hc hlec
      have hpos := h.count_pos c hc
      have hlimit : s.hardLimit ≤ c := by
        rw [Option.mem_def] at hc
        simp only [Rule.hardLimit, hc]
        rw [if_neg (by omega)]
        exact min_le_left _ _
      have hlt := hhas.1
      omega
    · -- a series without rows has no occurrences
      have hnext : ¬ 0 < next := fun hpos => h.nonempty hpos (length_eq_zero_iff.1 hzero)
      exact absurd (hrule.mono (Nat.zero_le index)) (h.nothing (by omega))
  · rw [Ne, expand_eq_nil, not_not]
    refine ⟨Nat.zero_lt_succ _, hhas.mono (show views.length ≤ index by omega), ?_⟩
    have hmono := rule.strictMono_start.monotone (show views.length ≤ index by omega)
    change s.start views.length ≤ upTo
    rw [h.start_eq]
    exact hmono.trans hle

/-- What is appended reaches every occurrence up to the date, as far as the limit allows. -/
theorem mem_topUp (h : Kept views removed s rule next) (hdense : topUp views.length s upTo = [] ∨
      s.start (views.length - 1) = s.materialisedUntil) (hindex : next ≤ index)
    (hlimit : index < next + maxMaterialisedPerRequest) (hhas : s.Has index)
    (hle : rule.start index ≤ upTo) : rule.occurrence index ∈ topUp views.length s upTo := by
  have hne := h.topUp_ne_nil hindex hhas hle
  rw [(h.topUp_eq (hdense.resolve_left hne) hne).1, mem_expand]
  refine ⟨hindex, hlimit, ⟨hhas, ?_⟩, (h.occurrence_eq index).symm⟩
  exact (h.start_eq index).trans_le hle

/-- The series is extended. -/
theorem extend (h : Kept views removed s rule next)
    (hdense : topUp views.length s upTo = [] ∨ s.start (views.length - 1) = s.materialisedUntil) :
    Kept (views ++ (topUp views.length s upTo).map Occurrence.view) removed
      (s.extended (topUp views.length s upTo)) rule
      (next + (topUp views.length s upTo).length) := by
  by_cases hnil : topUp views.length s upTo = []
  · simpa [hnil, EventSeries.extended] using h
  replace hdense := hdense.resolve_left hnil
  obtain ⟨hexpand, hrange⟩ := h.topUp_eq hdense hnil
  have hpos := length_pos_iff.2 hnil
  have hfits : ∀ j < (topUp views.length s upTo).length, s.Has (next + j) := by
    intro j hj
    rw [hexpand, lt_length_expand] at hj
    exact hj.2.1
  have hrest : ∀ i, next ≤ i → i < next + (topUp views.length s upTo).length →
      rule.Has i ∧ ¬ removed i := by
    intro i hi hlt
    have hj := hfits (i - next) (by omega)
    rw [Nat.add_sub_cancel' hi] at hj
    exact (h.rest i hi).1 hj
  have hlast : s.extended (topUp views.length s upTo) =
      { s with
        materialisedUntil := rule.start (next + (topUp views.length s upTo).length - 1) } := by
    have hget := getLast?_expand (hexpand ▸ hnil)
    rw [← hexpand] at hget
    simp only [EventSeries.extended, hget, Rule.occurrence, h.start_eq]
  rw [hlast]
  generalize topUp views.length s upTo = new at *
  refine ⟨h.same, ?_, ?_, ?_, ?_, rfl, ?_, h.count_pos⟩
  · obtain ⟨idx, hviews, hnodup, hmem⟩ := h.rows
    refine ⟨idx ++ range' next new.length, ?_, ?_, fun i => ?_⟩
    · rw [map_append, ← hviews]
      conv_lhs => rw [hrange]
      rw [map_map]
      rfl
    · refine nodup_append.2 ⟨hnodup, nodup_range', ?_⟩
      intro i hi j hj
      have hlt := ((hmem i).1 hi).1
      rw [mem_range'_1] at hj
      omega
    · rw [mem_append, hmem, mem_range'_1]
      constructor
      · rintro (⟨hlt, hnot⟩ | ⟨hge, hlt⟩)
        · exact ⟨by omega, hnot⟩
        · exact ⟨hlt, (hrest i hge hlt).2⟩
      · rintro ⟨hlt, hnot⟩
        rcases Nat.lt_or_ge i next with hi | hi
        · exact .inl ⟨hi, hnot⟩
        · exact .inr ⟨hi, hlt⟩
  · intro _ hempty
    rw [append_eq_nil_iff, map_eq_nil_iff] at hempty
    exact hnil hempty.2
  · intro i hi
    rcases Nat.lt_or_ge i next with hlt | hge
    · exact h.has i hlt
    · exact (hrest i hge hi).1
  · intro i hi
    exact h.rest i (by omega)
  · intro hzero
    omega

end Kept

end Rabotka.Events
