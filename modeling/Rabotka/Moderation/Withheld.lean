import Rabotka.Moderation.Detect

/-!
# Redaction withholds what was detected

`merge` is the coalescing of ranges, read in the order of their starts (`merge_eq`), and `redact`
over spans that keep a distance puts the placeholders between the parts that no span covers
(`redact_eq`). So the spans cover what the matches cover, each has the name of a match of highest
priority inside it, and what is delivered depends on the characters outside of the spans only
(`redaction_exact`).
-/

namespace Rabotka.Moderation

open Ranges List

/-! ### Merging -/

/-- Matches as ranges. -/
def matching : Fusion Found where
  lo := fun m => m.start
  hi := fun m => m.end
  fuse := absorb
  lo_fuse := fun _ _ => rfl
  hi_fuse := fun _ _ => rfl

/-- Spans as ranges; two spans are never fused. -/
def spanning : Fusion DetectedSpan where
  lo := fun s => s.start
  hi := fun s => s.end
  fuse := fun a b => { a with «end» := max a.end b.end }
  lo_fuse := fun _ _ => rfl
  hi_fuse := fun _ _ => rfl

variable {found : List Found} {body : Units} {m : Found} {s : DetectedSpan}
  {spans : List DetectedSpan}

theorem foldl_mergeStep (merged : List DetectedSpan) (current : Found) (rest : List Found) :
    (rest.foldl mergeStep ⟨merged, current⟩).merged ++
        [(rest.foldl mergeStep ⟨merged, current⟩).current.toDetectedSpan] =
      merged ++ (matching.coalesceFrom current rest).map Found.toDetectedSpan := by
  induction rest generalizing merged current with
  | nil => rfl
  | cons span rest ih =>
    rw [foldl_cons, mergeStep, Fusion.coalesceFrom]
    change _ = merged ++ List.map _ (if span.start ≤ current.end then _ else _)
    split_ifs with htouch
    · exact ih merged (absorb current span)
    · rw [ih (merged ++ [current.toDetectedSpan]) span, map_cons, append_assoc]
      rfl

theorem merge_eq (found : List Found) :
    merge found = (matching.coalesce (sortSpans found)).map Found.toDetectedSpan := by
  unfold merge
  cases h : sortSpans found with
  | nil => rfl
  | cons first rest => exact foldl_mergeStep [] first rest

theorem byStartThenEnd_nonpos {a b : Found} : byStartThenEnd a b ≤ 0 ↔
    a.start < b.start ∨ (a.start = b.start ∧ a.end ≤ b.end) := by
  unfold byStartThenEnd
  split_ifs with h
  · rw [h]
    constructor <;> intro <;> omega
  · constructor <;> intro <;> omega

theorem sortSpans_sorted (found : List Found) : matching.Sorted (sortSpans found) := by
  have hsorted := @List.pairwise_mergeSort _ (fun a b => decide (byStartThenEnd a b ≤ 0))
    (fun a b c hab hbc => by
      simp only [decide_eq_true_eq, byStartThenEnd_nonpos] at *
      omega)
    (fun a b => by
      simp only [Bool.or_eq_true, decide_eq_true_eq, byStartThenEnd_nonpos]
      omega) found
  refine hsorted.imp fun h => ?_
  simp only [decide_eq_true_eq, byStartThenEnd_nonpos] at h
  simp only [matching]
  omega

theorem mem_sortSpans : m ∈ sortSpans found ↔ m ∈ found := mem_mergeSort

theorem mem_merge : s ∈ merge found ↔
    ∃ c ∈ matching.coalesce (sortSpans found), c.toDetectedSpan = s := by
  rw [merge_eq, mem_map]

theorem apart_merge (found : List Found) : spanning.Apart (merge found) := by
  rw [merge_eq]
  exact pairwise_map.2 (Fusion.apart_coalesce (sortSpans_sorted found))

theorem covers_map {l : List Found} {n : ℕ} :
    spanning.Covers (l.map Found.toDetectedSpan) n ↔ matching.Covers l n := by
  simp [Fusion.Covers, spanning, matching]

theorem covers_sortSpans {n : ℕ} :
    matching.Covers (sortSpans found) n ↔ matching.Covers found n := by
  simp only [Fusion.Covers, mem_sortSpans]

/-- The spans cover what the matches cover. -/
theorem covers_merge {n : ℕ} : spanning.Covers (merge found) n ↔ matching.Covers found n := by
  rw [merge_eq, covers_map, Fusion.covers_coalesce (sortSpans_sorted found), covers_sortSpans]

/-- What is merged keeps every property of single matches that `absorb` keeps. -/
theorem merge_induction {P : Found → Prop} (hfound : ∀ m ∈ found, P m)
    (habsorb : ∀ a b, P a → P b → a.start ≤ b.start → b.start ≤ a.end → P (absorb a b)) :
    ∀ c ∈ matching.coalesce (sortSpans found), P c :=
  Fusion.coalesce_induction (sortSpans_sorted found) (fun x hx => hfound x (mem_sortSpans.1 hx))
    habsorb

theorem bounds_merge {size : ℕ} (h : ∀ m ∈ found, m.start < m.end ∧ m.end ≤ size) :
    ∀ s ∈ merge found, s.start < s.end ∧ s.end ≤ size := by
  intro s hs
  obtain ⟨c, hc, rfl⟩ := mem_merge.1 hs
  refine merge_induction (P := fun c => c.start < c.end ∧ c.end ≤ size) h ?_ c hc
  intro a b ha hb hle htouch
  simp only [absorb]
  omega

/-- The open span has taken up a match, with a priority that is no lower. -/
def Absorbs (c m : Found) : Prop := c.start ≤ m.start ∧ m.end ≤ c.end ∧ c.priority ≤ m.priority

theorem exists_absorbs (hm : m ∈ found) :
    ∃ c ∈ matching.coalesce (sortSpans found), Absorbs c m := by
  refine Fusion.coalesce_absorbs (R := Absorbs) (fun a => ⟨le_rfl, le_rfl, le_rfl⟩)
    (fun a b x h => ?_) (fun a b h => ?_) (sortSpans_sorted found) (mem_sortSpans.2 hm)
  · obtain ⟨hstart, hend, hpriority⟩ := h
    exact ⟨hstart, hend.trans (le_max_left _ _), (min_le_left _ _).trans hpriority⟩
  · exact ⟨h, le_max_right _ _, min_le_right _ _⟩

/-- The open span has the name and the priority of a match inside it. -/
theorem exists_named : ∀ c ∈ matching.coalesce (sortSpans found),
    ∃ m ∈ found, (c.start ≤ m.start ∧ m.end ≤ c.end) ∧
      (c.category = m.category ∧ c.matchedBy = m.matchedBy) ∧ c.priority = m.priority := by
  refine merge_induction (fun m hm => ⟨m, hm, ⟨le_rfl, le_rfl⟩, ⟨rfl, rfl⟩, rfl⟩) ?_
  rintro a b ⟨x, hx, hxin, hxname, hxprio⟩ ⟨y, hy, hyin, hyname, hyprio⟩ hle -
  by_cases hlower : b.priority < a.priority
  · refine ⟨y, hy, ⟨hle.trans hyin.1, hyin.2.trans (le_max_right _ _)⟩, ?_, ?_⟩
    · simpa only [absorb, if_pos hlower] using hyname
    · rw [← hyprio]
      exact min_eq_right hlower.le
  · refine ⟨x, hx, ⟨hxin.1, hxin.2.trans (le_max_left _ _)⟩, ?_, ?_⟩
    · simpa only [absorb, if_neg hlower] using hxname
    · rw [← hxprio]
      exact min_eq_left (not_lt.1 hlower)

/-- A match inside a span gave the span its name, and no match inside it has a higher priority. -/
theorem exists_naming (h : ∀ m ∈ found, m.start < m.end) : ∀ s ∈ merge found,
    ∃ m ∈ found, (s.start ≤ m.start ∧ m.end ≤ s.end) ∧
      (s.category = m.category ∧ s.matchedBy = m.matchedBy) ∧
      ∀ m' ∈ found, s.start ≤ m'.start → m'.end ≤ s.end → m.priority ≤ m'.priority := by
  intro s hs
  obtain ⟨c, hc, rfl⟩ := mem_merge.1 hs
  obtain ⟨m, hm, hin, hname, hprio⟩ := exists_named c hc
  refine ⟨m, hm, hin, hname, fun m' hm' hstart hend => ?_⟩
  -- what has taken up the other match shares its first position with this span
  obtain ⟨c', hc', hstart', hend', hprio'⟩ := exists_absorbs hm'
  have hlt := h m' hm'
  have hsame : c = c' := Fusion.Apart.eq_of_common (F := matching) (n := m'.start)
    (Fusion.apart_coalesce (sortSpans_sorted found)) hc hc' ⟨hstart, hlt.trans_le hend⟩
    ⟨hstart', hlt.trans_le hend'⟩
  rw [← hprio, hsame]
  exact hprio'

/-! ### Redaction -/

/-- The text with every span replaced, in one pass from the front. -/
def woven (body : Units) (spans : List DetectedSpan) : Units :=
  spanning.weave (fun s => placeholder s.category) body 0 spans

/-- The spans of a message: each in the message and not empty, and no two touch. -/
def Spans (body : Units) (spans : List DetectedSpan) : Prop :=
  spanning.Apart spans ∧ ∀ s ∈ spans, s.start < s.end ∧ s.end ≤ body.length

theorem Spans.wf (h : Spans body spans) :
    ∀ s ∈ spans, spanning.lo s ≤ spanning.hi s ∧ spanning.hi s ≤ body.length :=
  fun s hs => ⟨(h.2 s hs).1.le, (h.2 s hs).2⟩

theorem spans_merge (h : ∀ m ∈ found, m.In body) : Spans body (merge found) := by
  have hle : (scanned body).length ≤ body.length := by
    unfold scanned
    split_ifs
    · exact length_take_le' _ _
    · exact le_rfl
  refine ⟨apart_merge found, fun s hs => ?_⟩
  obtain ⟨hlt, hend⟩ := bounds_merge h s hs
  exact ⟨hlt, hend.trans hle⟩

/-- Sorted by their starts from the last to the first, the spans are in the opposite order. -/
theorem ordered_eq_reverse (h : Spans body spans) :
    (spans.mergeSort fun a b => decide ((b.start : ℤ) - a.start ≤ 0)) = spans.reverse := by
  have hsorted := @List.pairwise_mergeSort _
    (fun a b : DetectedSpan => decide ((b.start : ℤ) - a.start ≤ 0))
    (fun a b c hab hbc => by
      simp only [decide_eq_true_eq] at *
      omega)
    (fun a b => by
      simp only [Bool.or_eq_true, decide_eq_true_eq]
      omega) spans
  have hreverse : spans.reverse.Pairwise fun a b => b.start < a.start := by
    rw [pairwise_reverse]
    exact (List.Pairwise.and_mem.1 h.1).imp fun ⟨ha, _, hlt⟩ => (h.2 _ ha).1.trans hlt
  refine Perm.eq_of_pairwise (fun a b ha hb hab hba => ?_) hsorted (hreverse.imp fun h => ?_)
    ((mergeSort_perm _ _).trans (reverse_perm _).symm)
  · -- two spans that start at the same place are the same
    replace ha := mem_mergeSort.1 ha
    replace hb := mem_reverse.1 hb
    simp only [decide_eq_true_eq] at hab hba
    have hsame : a.start = b.start := by omega
    exact h.1.eq_of_common (n := a.start) ha hb ⟨le_rfl, (h.2 a ha).1⟩
      ⟨hsame.ge, hsame ▸ (h.2 b hb).1⟩
  · simp only [decide_eq_true_eq]
    omega

/-- `redact` gives the parts that no span covers, with the placeholders between them. -/
theorem redact_eq (h : Spans body spans) : redact body spans = woven body spans := by
  unfold redact
  split_ifs with hempty
  · rw [hempty]
    rfl
  · have hfold := @Fusion.foldr_splice _ _ spanning _ (fun s => placeholder s.category) body 0 h.1 h.wf (fun _ _ => Nat.zero_le _) (Nat.zero_le _)
    simp only
    rw [ordered_eq_reverse h, foldl_reverse]
    rw [take_zero, nil_append] at hfold
    exact hfold

/-- Two messages that are the same outside of the spans are redacted to the same. -/
theorem redact_congr {other : Units} (h : Spans body spans) (hlength : other.length = body.length)
    (hother : ∀ n, ¬spanning.Covers spans n → other[n]? = body[n]?) :
    redact other spans = redact body spans := by
  have h' : Spans other spans := by
    unfold Spans
    rw [hlength]
    exact h
  rw [redact_eq h, redact_eq h']
  exact Fusion.weave_congr h.1 (fun s hs => (h.wf s hs).1) (fun _ _ => Nat.zero_le _)
    fun n _ hn => hother n hn

theorem foldl_covered (h : ∀ s ∈ spans, s.start ≤ s.end) (sum : ℤ) :
    spans.foldl (fun sum s => sum + ((s.end : ℤ) - s.start)) sum =
      sum + ((spans.map fun s => spanning.hi s - spanning.lo s).sum : ℕ) := by
  induction spans generalizing sum with
  | nil => simp
  | cons s rest ih =>
    have hle := h s mem_cons_self
    rw [foldl_cons, ih fun t ht => h t (mem_cons_of_mem _ ht), map_cons, sum_cons]
    simp only [spanning]
    omega

/-- The share that is withheld is the number of covered characters over the length. -/
theorem redactedRatio_eq (h : Spans body spans) : redactedRatio body spans =
    ((spanning.covered spans body.length).card : ℚ) / body.length := by
  have hcard := Fusion.card_covered h.1 h.wf
  have hle : (spanning.covered spans body.length).card ≤ body.length :=
    (Finset.card_filter_le _ _).trans_eq (Finset.card_range _)
  unfold redactedRatio
  split_ifs with hempty
  · rcases hempty with hempty | hempty
    · rw [hempty, Nat.cast_zero, div_zero]
    · rw [hcard, hempty]
      simp
  · simp only
    rw [foldl_covered fun s hs => (h.2 s hs).1.le, zero_add, ← hcard, Int.cast_natCast]
    refine min_eq_right (div_le_one_of_le₀ ?_ (Nat.cast_nonneg _))
    exact_mod_cast hle

/-! ### The whole -/

/-- What merging and redacting do with the matches found in a message. -/
structure ExactlyRedacted (body : Units) (found : List Found) : Prop where
  sorted : (merge found).Pairwise fun a b => a.start < b.start
  /-- The spans are disjoint and do not touch. -/
  apart : (merge found).Pairwise fun a b => a.end < b.start
  union : ∀ n, (∃ s ∈ merge found, s.start ≤ n ∧ n < s.end) ↔ ∃ m ∈ found, m.start ≤ n ∧ n < m.end
  /-- A match of highest priority inside a span names it. -/
  named : ∀ s ∈ merge found, ∃ m ∈ found, (s.start ≤ m.start ∧ m.end ≤ s.end) ∧
    (s.category = m.category ∧ s.matchedBy = m.matchedBy) ∧
    ∀ m' ∈ found, s.start ≤ m'.start → m'.end ≤ s.end → m.priority ≤ m'.priority
  redacted : redact body (merge found) = woven body (merge found)
  ratio : redactedRatio body (merge found) =
    (((Finset.range body.length).filter fun n => ∃ m ∈ found, m.start ≤ n ∧ n < m.end).card : ℚ) /
      body.length

/-- Nothing is delivered, or the parts outside of the spans with the placeholders: the same for
every message that is the same there. -/
def Withheld (body : Units) (verdict : ModerationVerdict) : Prop :=
  (verdict.status = .held ∧ verdict.deliveredBody = []) ∨
    (verdict.status = .redacted ∧ verdict.deliveredBody = woven body verdict.spans ∧
      ∀ other : Units, other.length = body.length →
        (∀ n, (∀ s ∈ verdict.spans, ¬(s.start ≤ n ∧ n < s.end)) → other[n]? = body[n]?) →
        redact other verdict.spans = verdict.deliveredBody)

theorem exactlyRedacted (h : ∀ m ∈ found, m.In body) : ExactlyRedacted body found := by
  have hspans := spans_merge h
  refine ⟨?_, hspans.1, fun n => covers_merge, exists_naming fun m hm => (h m hm).1,
    redact_eq hspans, ?_⟩
  · exact (List.Pairwise.and_mem.1 hspans.1).imp fun ⟨ha, _, hlt⟩ => (hspans.2 _ ha).1.trans hlt
  · rw [redactedRatio_eq hspans]
    congr 3
    exact Finset.filter_congr fun n _ => covers_merge

theorem withheld_judge (service : ModerationService) (h : Spans body spans)
    (hstatus : (service.judge body spans).status ≠ .clean) :
    Withheld body (service.judge body spans) := by
  unfold ModerationService.judge at hstatus ⊢
  split_ifs at hstatus ⊢ with hempty
  · exact absurd rfl hstatus
  · simp only
    split_ifs with hheld
    · exact .inl ⟨rfl, rfl⟩
    · refine .inr ⟨rfl, redact_eq h, fun other hlength hother => ?_⟩
      exact redact_congr h hlength fun n hn => hother n fun s hs hin => hn ⟨s, hs, hin⟩

end Rabotka.Moderation
