import Mathlib.Algebra.Order.Ring.Int
import Rabotka.Assistant.Allowance

/-!
# The allowance is daily

What a timely run keeps for a subject (`Inv`): on a day on which there was a count the counter is
that count and does not expire before midnight; a counter that is still to be armed does not expire
at all; and a turn leads to the answer that its count says. Each kind of step keeps it
(`Inv.step`), so the counts of a day are 1, 2, 3, …, and the limit is met exactly
(`allowance_daily`).
-/

namespace Rabotka.Assistant

open Async Volatile List

/-! ### What every step keeps -/

section Steps

variable {keyPrefix : String} {dailyLimit : Subject → ℤ} {w w' : World} {subject : Subject}
  {e : Event} {i : ℕ} {fate : Fate}

/-- The answer that a turn leads to. -/
def Turn.answer (dailyLimit : Subject → ℤ) (t : Turn) : Bool :=
  if t.fate = .answered then (t.used : ℤ) ≤ dailyLimit t.subject else true

/-- The call is before the reading of the clock, or before `EXPIRE`. -/
def Stage.Pending (stage : Stage) : Prop := stage = .arming ∨ ∃ n, stage = .expiring n

/-- What holds of a subject in a timely run. -/
structure Inv (keyPrefix : String) (dailyLimit : Subject → ℤ) (subject : Subject) (w : World) :
    Prop where
  past : ∀ t ∈ w.turns, t.time ≤ w.now
  /-- The counter of a day on which there was a count is that count, and lives on. -/
  cell : 0 < counted w.turns subject (dayOf w.now) → ∃ expiresAt, w.redis (subject.key keyPrefix) =
        some ⟨counted w.turns subject (dayOf w.now), expiresAt⟩ ∧
      ∀ t ∈ expiresAt, (dayOf w.now + 1) * dayMs ≤ t
  /-- Until it is armed, a counter does not expire; it is armed for the day on which it started,
  if it is counted with. -/
  pending : ∀ (i : ℕ) (stage : Stage), w.calls[i]? = some ⟨subject, stage⟩ → stage.Pending →
    ∃ v start, w.redis (subject.key keyPrefix) = some ⟨v + 1, none⟩ ∧ start ≤ w.now ∧
      (0 < counted w.turns subject (dayOf w.now) → dayOf start = dayOf w.now) ∧
      ∀ n, stage = .expiring n → ∃ read, start ≤ read ∧ read ≤ w.now ∧ n = secondsUntilMidnight read
  unique : ∀ (i j : ℕ) (stage stage' : Stage), w.calls[i]? = some ⟨subject, stage⟩ →
    w.calls[j]? = some ⟨subject, stage'⟩ → stage.Pending → stage'.Pending → i = j
  used : Trace.Every (fun t older => t.subject = subject → t.fate.runs →
    t.used = counted older subject (dayOf t.time) + 1) w.turns
  answers : ∀ t ∈ w.turns, t.subject = subject → ∃ stage, w.calls[t.call]? = some ⟨subject, stage⟩ ∧
    stage ≠ .counting ∧ (stage.Pending → t.fate = .answered ∧ t.used = 1) ∧
      ∀ within, stage = .answered within → within = t.answer dailyLimit

theorem not_pending_answered (within : Bool) : ¬ (Stage.answered within).Pending := by
  rintro (h | ⟨n, h⟩) <;> exact nomatch h

theorem not_pending_counting : ¬ Stage.counting.Pending := by
  rintro (h | ⟨n, h⟩) <;> exact nomatch h

theorem inv_start (now : ℕ) : Inv keyPrefix dailyLimit subject { now } where
  past := fun _ h => nomatch h
  cell := fun h => absurd h (by simp [counted])
  pending := fun _ _ h => by simp at h
  unique := fun _ _ _ _ h => by simp at h
  used := trivial
  answers := fun _ h => nomatch h

variable {turns : List Turn}

/-- No count has been made on a day that is still to come. -/
theorem counted_eq_zero {now day : ℕ} (h : ∀ t ∈ turns, t.time ≤ now)
    (hday : dayOf now < day) : counted turns subject day = 0 := by
  rw [counted, countP_eq_zero]
  intro t ht
  have := dayOf_mono (h t ht)
  simp only [decide_eq_true_eq]
  omega

theorem Inv.pass (h : Inv keyPrefix dailyLimit subject w) (ms : ℕ) :
    Inv keyPrefix dailyLimit subject { w with now := w.now + ms } := by
  have hle := dayOf_mono (Nat.le_add_right w.now ms)
  -- On a later day nothing has been counted yet.
  have hday : 0 < counted w.turns subject (dayOf (w.now + ms)) →
      dayOf (w.now + ms) = dayOf w.now := fun hpos => by
    by_contra hne
    have hlater : dayOf w.now < dayOf (w.now + ms) := lt_of_le_of_ne hle (Ne.symm hne)
    have hzero : counted w.turns subject (dayOf (w.now + ms)) = 0 :=
      counted_eq_zero h.past hlater
    omega
  refine
    { past := fun t ht => (h.past t ht).trans (Nat.le_add_right _ _)
      cell := fun hpos => ?_
      pending := fun i stage hi hstage => ?_
      unique := h.unique
      used := h.used
      answers := h.answers }
  · have heq := hday hpos
    dsimp only at hpos ⊢
    rw [heq] at hpos ⊢
    exact h.cell hpos
  · obtain ⟨v, start, hcell, hstart, hnow, hread⟩ := h.pending i stage hi hstage
    refine ⟨v, start, hcell, hstart.trans (Nat.le_add_right _ _), fun hpos => ?_, fun n hn => ?_⟩
    · have heq := hday hpos
      dsimp only at hpos ⊢
      rw [heq] at hpos ⊢
      exact hnow hpos
    · obtain ⟨read, hsr, hrn, heq⟩ := hread n hn
      exact ⟨read, hsr, hrn.trans (Nat.le_add_right _ _), heq⟩

theorem Inv.call (h : Inv keyPrefix dailyLimit subject w) {c : Call} (hc : ¬ c.stage.Pending) :
    Inv keyPrefix dailyLimit subject { w with calls := w.calls ++ [c] } := by
  have hold : ∀ (i : ℕ) (stage : Stage), (w.calls ++ [c])[i]? = some ⟨subject, stage⟩ →
      stage.Pending → w.calls[i]? = some ⟨subject, stage⟩ := by
    intro i stage hi hstage
    rw [getElem?_append] at hi
    split_ifs at hi
    · exact hi
    · rw [← (mem_singleton.mp (mem_of_getElem? hi))] at hc
      exact absurd hstage hc
  exact
    { past := h.past
      cell := h.cell
      pending := fun i stage hi hstage => h.pending i stage (hold i stage hi hstage) hstage
      unique := fun i j stage stage' hi hj hs hs' =>
        h.unique i j stage stage' (hold i stage hi hs) (hold j stage' hj hs') hs hs'
      used := h.used
      answers := fun t ht hsubject => by
        obtain ⟨stage, hstage, hrest⟩ := h.answers t ht hsubject
        exact ⟨stage, by rw [getElem?_append_left (List.getElem?_eq_some_iff.mp hstage).1]
                         exact hstage, hrest⟩ }

/-- A call that takes a step is the only one that does. -/
theorem getElem?_set_call {calls : List Call} {i j : ℕ} {old c d : Call}
    (hi : calls[i]? = some old) :
    (calls.set i c)[j]? = some d ↔ j = i ∧ d = c ∨ j ≠ i ∧ calls[j]? = some d := by
  obtain ⟨hlt, -⟩ := List.getElem?_eq_some_iff.mp hi
  rcases eq_or_ne j i with rfl | hne
  · simp [getElem?_set_self hlt, eq_comm]
  · simp [getElem?_set_ne hne.symm, hne]

/-- The clock is read. -/
theorem Inv.clock (h : Inv keyPrefix dailyLimit subject w) {s : Subject}
    (hi : w.calls[i]? = some ⟨s, .arming⟩) :
    Inv keyPrefix dailyLimit subject
      { w with calls := w.calls.set i ⟨s, .expiring (secondsUntilMidnight w.now)⟩ } := by
  have hold : ∀ (j : ℕ) (stage : Stage),
      (w.calls.set i ⟨s, .expiring (secondsUntilMidnight w.now)⟩)[j]? = some ⟨subject, stage⟩ →
      stage.Pending → ∃ stage', w.calls[j]? = some ⟨subject, stage'⟩ ∧ stage'.Pending ∧
        (j = i ∧ stage = .expiring (secondsUntilMidnight w.now) ∨ stage' = stage) := by
    intro j stage hj hstage
    rcases (getElem?_set_call hi).mp hj with ⟨rfl, heq⟩ | ⟨-, hj⟩
    · obtain ⟨rfl, rfl⟩ := Call.mk.inj heq
      exact ⟨.arming, hi, Or.inl rfl, Or.inl ⟨rfl, rfl⟩⟩
    · exact ⟨stage, hj, hstage, Or.inr rfl⟩
  exact
    { past := h.past
      cell := h.cell
      pending := fun j stage hj hstage => by
        obtain ⟨stage', hj', hstage', hcase⟩ := hold j stage hj hstage
        obtain ⟨v, start, hcell, hstart, hnow, hread⟩ := h.pending j stage' hj' hstage'
        refine ⟨v, start, hcell, hstart, hnow, fun n hn => ?_⟩
        rcases hcase with ⟨-, heq⟩ | rfl
        · exact ⟨w.now, hstart, le_rfl, Stage.expiring.inj (hn.symm.trans heq)⟩
        · exact hread n hn
      unique := fun j k stage stage' hj hk hs hs' => by
        obtain ⟨stage₁, hj', hs₁, -⟩ := hold j stage hj hs
        obtain ⟨stage₂, hk', hs₂, -⟩ := hold k stage' hk hs'
        exact h.unique j k stage₁ stage₂ hj' hk' hs₁ hs₂
      used := h.used
      answers := fun t ht hsubject => by
        obtain ⟨stage, hstage, hcounting, hpending, hanswer⟩ := h.answers t ht hsubject
        rcases eq_or_ne t.call i with hcall | hne
        · rw [hcall] at hstage ⊢
          rw [hi, Option.some_inj] at hstage
          obtain ⟨rfl, rfl⟩ := Call.mk.inj hstage
          exact ⟨_, (getElem?_set_call hi).mpr (Or.inl ⟨rfl, rfl⟩), by simp,
            fun _ => hpending (Or.inl rfl), by simp⟩
        · exact ⟨stage, (getElem?_set_call hi).mpr (Or.inr ⟨hne, hstage⟩), hcounting, hpending,
            hanswer⟩ }

/-- A count changes the key of its subject only. -/
theorem redis_count_of_ne {s : Subject} {k : String} (h : k ≠ s.key keyPrefix) :
    (w.count keyPrefix dailyLimit i s fate).redis k = w.redis k := by
  cases hruns : fate.runs with
  | false => simp only [World.count, hruns, Bool.false_eq_true, if_false]
  | true =>
    simp only [World.count, hruns, if_true]
    exact Store.incr_of_ne h

theorem counted_cons (t : Turn) (turns : List Turn) (day : ℕ) :
    counted (t :: turns) subject day = counted turns subject day +
      if t.subject = subject ∧ dayOf t.time = day ∧ t.fate.runs then 1 else 0 := by
  rw [counted, countP_cons, ← counted]
  congr 1
  simp

/-- The turn of another subject, or one that Redis did not see, leaves the counts. -/
theorem counted_cons_of_not {t : Turn} (h : t.subject = subject → t.fate.runs = false)
    (turns : List Turn) (day : ℕ) :
    counted (t :: turns) subject day = counted turns subject day := by
  have hnot : ¬ (t.subject = subject ∧ dayOf t.time = day ∧ t.fate.runs) := fun ⟨hs, _, hruns⟩ => by
    rw [h hs] at hruns
    exact nomatch hruns
  rw [counted_cons, if_neg hnot, Nat.add_zero]

/-- The timely count of a subject: one more than was counted on the day, in a counter that lives
on. If the counter had no expiry it is not the first. -/
theorem Inv.incr (h : Inv keyPrefix dailyLimit subject w)
    (htimely : (w.redis.read w.now (subject.key keyPrefix)).isSome →
      0 < counted w.turns subject (dayOf w.now)) :
    ∃ expiresAt, w.redis.incr w.now (subject.key keyPrefix) =
        (Function.update w.redis (subject.key keyPrefix)
          (some ⟨counted w.turns subject (dayOf w.now) + 1, expiresAt⟩),
          counted w.turns subject (dayOf w.now) + 1) ∧
      (∀ t ∈ expiresAt, (dayOf w.now + 1) * dayMs ≤ t) ∧
      (counted w.turns subject (dayOf w.now) = 0 → expiresAt = none) ∧
      ∀ v, w.redis (subject.key keyPrefix) = some ⟨v, none⟩ →
        expiresAt = none ∧ 0 < counted w.turns subject (dayOf w.now) := by
  cases hread : w.redis.read w.now (subject.key keyPrefix) with
  | none =>
    have hzero : counted w.turns subject (dayOf w.now) = 0 := by
      by_contra hne
      obtain ⟨expiresAt, hcell, hlives⟩ := h.cell (Nat.pos_of_ne_zero hne)
      cases expiresAt with
      | none => rw [Store.read_of_none hcell] at hread; exact nomatch hread
      | some t =>
        have hle := (lt_midnight w.now).le.trans (hlives t rfl)
        rw [Store.read_of_le hcell hle] at hread
        exact nomatch hread
    refine ⟨none, ?_, fun t ht => (nomatch ht), fun _ => rfl, fun v hv => ?_⟩
    · rw [Store.incr_of_none hread, hzero]
    · rw [Store.read_of_none hv] at hread
      exact nomatch hread
  | some c =>
    have hpos := htimely (by rw [hread]; rfl)
    obtain ⟨expiresAt, hcell, hlives⟩ := h.cell hpos
    have hread' : w.redis.read w.now (subject.key keyPrefix) =
        some ⟨counted w.turns subject (dayOf w.now), expiresAt⟩ := by
      cases expiresAt with
      | none => exact Store.read_of_none hcell
      | some t => exact Store.read_of_le hcell ((lt_midnight w.now).le.trans (hlives t rfl))
    refine ⟨expiresAt, Store.incr_of_some hread', hlives, fun hzero => absurd hzero hpos.ne',
      fun v hv => ⟨?_, hpos⟩⟩
    rw [hcell, Option.some_inj] at hv
    exact (Cell.mk.inj hv).2

/-- A turn of another subject leaves what holds of a subject. -/
theorem Inv.other (h : Inv keyPrefix dailyLimit subject w) {s : Subject} (hne : s ≠ subject)
    {stage stage' : Stage} (hi : w.calls[i]? = some ⟨s, stage⟩) {redis : Store String}
    (hredis : redis (subject.key keyPrefix) = w.redis (subject.key keyPrefix))
    (hturns : turns = w.turns ∨ ∃ t, turns = t :: w.turns ∧ t.subject = s ∧ t.time = w.now) :
    Inv keyPrefix dailyLimit subject
      { w with redis, calls := w.calls.set i ⟨s, stage'⟩, turns } := by
  have hcounted : ∀ day, counted turns subject day = counted w.turns subject day := fun day => by
    rcases hturns with rfl | ⟨t, rfl, ht, -⟩
    · rfl
    · exact counted_cons_of_not (fun heq => absurd (ht.symm.trans heq) hne) _ _
  have hcalls : ∀ (j : ℕ) (stage₁ : Stage), (w.calls.set i ⟨s, stage'⟩)[j]? =
      some ⟨subject, stage₁⟩ ↔ w.calls[j]? = some ⟨subject, stage₁⟩ := fun j stage₁ => by
    rw [getElem?_set_call hi]
    constructor
    · rintro (⟨-, heq⟩ | ⟨-, hj⟩)
      · exact absurd (Call.mk.inj heq).1.symm hne
      · exact hj
    · refine fun hj => Or.inr ⟨?_, hj⟩
      rintro rfl
      rw [hi, Option.some_inj] at hj
      exact hne (Call.mk.inj hj).1
  refine
    { past := fun t ht => ?_
      cell := ?_
      pending := ?_
      unique := fun j k stage₁ stage₂ hj hk => h.unique j k stage₁ stage₂ ((hcalls _ _).mp hj)
        ((hcalls _ _).mp hk)
      used := ?_
      answers := fun t ht hsubject => ?_ }
  · rcases hturns with rfl | ⟨t', rfl, -, htime⟩
    · exact h.past t ht
    · rcases mem_cons.mp ht with rfl | ht
      · exact htime.le
      · exact h.past t ht
  · simpa only [hcounted, hredis] using h.cell
  · simpa only [hcounted, hredis, hcalls] using h.pending
  · rcases hturns with rfl | ⟨t, rfl, ht, -⟩
    · exact h.used
    · exact ⟨fun heq => absurd (ht.symm.trans heq) hne, h.used⟩
  · have hmem : t ∈ w.turns := by
      rcases hturns with rfl | ⟨t', rfl, ht', -⟩
      · exact ht
      · rcases mem_cons.mp ht with rfl | ht
        · exact absurd (ht'.symm.trans hsubject) hne
        · exact ht
    obtain ⟨stage₁, hstage, hrest⟩ := h.answers t hmem hsubject
    exact ⟨stage₁, (hcalls _ _).mpr hstage, hrest⟩

/-- The count of a subject. -/
theorem Inv.count (h : Inv keyPrefix dailyLimit subject w)
    (hi : w.calls[i]? = some ⟨subject, .counting⟩)
    (htimely : w.timely keyPrefix (.command i fate)) :
    Inv keyPrefix dailyLimit subject (w.count keyPrefix dailyLimit i subject fate) := by
  -- No turn has been recorded for a call that has not counted.
  have hnew : ∀ t ∈ w.turns, t.subject = subject → t.call ≠ i := by
    rintro t ht hsubject rfl
    obtain ⟨stage, hstage, hcounting, -⟩ := h.answers t ht hsubject
    rw [hi, Option.some_inj] at hstage
    exact hcounting (Call.mk.inj hstage).2.symm
  have hanswers : ∀ (stage : Stage) (t' : Turn), t'.call = i → stage ≠ .counting →
      (stage.Pending → t'.fate = .answered ∧ t'.used = 1) →
      (∀ within, stage = .answered within → within = t'.answer dailyLimit) →
      ∀ t ∈ t' :: w.turns, t.subject = subject → ∃ stage',
        (w.calls.set i ⟨subject, stage⟩)[t.call]? = some ⟨subject, stage'⟩ ∧
        stage' ≠ .counting ∧ (stage'.Pending → t.fate = .answered ∧ t.used = 1) ∧
        ∀ within, stage' = .answered within → within = t.answer dailyLimit := by
    intro stage t' hcall hcounting hpending hanswer t ht hsubject
    rcases mem_cons.mp ht with rfl | ht
    · exact ⟨stage, (getElem?_set_call hi).mpr (Or.inl ⟨hcall, rfl⟩), hcounting, hpending, hanswer⟩
    · obtain ⟨stage', hstage, hrest⟩ := h.answers t ht hsubject
      exact ⟨stage', (getElem?_set_call hi).mpr (Or.inr ⟨hnew t ht hsubject, hstage⟩), hrest⟩
  have hpast : ∀ t' : Turn, t'.time = w.now → ∀ t ∈ t' :: w.turns, t.time ≤ w.now := by
    intro t' htime t ht
    rcases mem_cons.mp ht with rfl | ht
    · exact htime.le
    · exact h.past t ht
  -- What is pending after a step that leaves the call not pending was pending before.
  have hold : ∀ within (j : ℕ) (stage : Stage),
      (w.calls.set i ⟨subject, .answered within⟩)[j]? = some ⟨subject, stage⟩ → stage.Pending →
      w.calls[j]? = some ⟨subject, stage⟩ := by
    intro within j stage hj hstage
    rcases (getElem?_set_call hi).mp hj with ⟨-, heq⟩ | ⟨-, hj⟩
    · rw [(Call.mk.inj heq).2] at hstage
      exact absurd hstage (not_pending_answered within)
    · exact hj
  cases hruns : fate.runs with
  | false =>
    -- Redis did not count.
    have hfate : fate = .refused := by
      cases fate <;> first | rfl | exact nomatch hruns
    subst hfate
    have hcounted : ∀ day, counted (⟨i, subject, w.now, .refused, 0⟩ :: w.turns) subject day
        = counted w.turns subject day := counted_cons_of_not (fun _ => rfl) w.turns
    exact
      { past := hpast _ rfl
        cell := fun hpos => by
          simp only [World.count, hruns, Bool.false_eq_true, if_false, hcounted] at hpos ⊢
          exact h.cell hpos
        pending := fun j stage hj hstage => by
          simp only [World.count, hruns, Bool.false_eq_true, if_false, hcounted]
          exact h.pending j stage (hold _ j stage hj hstage) hstage
        unique := fun j k stage stage' hj hk hs hs' =>
          h.unique j k stage stage' (hold _ j stage hj hs) (hold _ k stage' hk hs') hs hs'
        used := ⟨fun _ hruns => (nomatch hruns), h.used⟩
        answers := hanswers _ _ rfl (by simp) (fun hs => absurd hs (not_pending_answered _))
          (by simp [Turn.answer]) }
  | true =>
    obtain ⟨expiresAt, hincr, hlives, hfirst, hforever⟩ := h.incr fun hsome => by
      rw [World.timely, hi] at htimely
      simpa [hruns, Option.isSome_iff_ne_none.mp hsome] using htimely
    generalize hn : counted w.turns subject (dayOf w.now) = n at hincr hfirst hforever
    obtain ⟨stage, hstage⟩ : ∃ stage : Stage, stage =
        if fate = .answered then
          if n + 1 = 1 then .arming else .answered ((n + 1 : ℕ) ≤ dailyLimit subject)
        else .answered true := ⟨_, rfl⟩
    have hcount : w.count keyPrefix dailyLimit i subject fate =
        { w with
          redis := Function.update w.redis (subject.key keyPrefix) (some ⟨n + 1, expiresAt⟩)
          calls := w.calls.set i ⟨subject, stage⟩
          turns := ⟨i, subject, w.now, fate, n + 1⟩ :: w.turns } := by
      simp only [World.count, hruns, if_true, hincr, hstage]
    have hpending : stage.Pending → stage = .arming ∧ fate = .answered ∧ n = 0 := by
      rw [hstage]
      split_ifs with hfate hone
      · exact fun _ => ⟨rfl, hfate, by omega⟩
      · exact fun hs => absurd hs (not_pending_answered _)
      · exact fun hs => absurd hs (not_pending_answered _)
    have hcounted : counted (⟨i, subject, w.now, fate, n + 1⟩ :: w.turns) subject (dayOf w.now) =
        n + 1 := by
      rw [counted_cons, if_pos ⟨rfl, rfl, hruns⟩, hn]
    have hself : Function.update w.redis (subject.key keyPrefix)
        (some (⟨n + 1, expiresAt⟩ : Cell)) (subject.key keyPrefix) = some ⟨n + 1, expiresAt⟩ :=
      Function.update_self ..
    rw [hcount]
    refine
      { past := hpast _ rfl
        cell := fun _ => ⟨expiresAt, by rw [hcounted]; exact hself, hlives⟩
        pending := fun j stage' hj hs => ?_
        unique := fun j k stage₁ stage₂ hj hk hs₁ hs₂ => ?_
        used := ⟨fun _ _ => by rw [hn], h.used⟩
        answers := hanswers _ _ rfl ?_ (fun hs => ?_) ?_ }
    · rcases (getElem?_set_call hi).mp hj with ⟨-, heq⟩ | ⟨-, hj⟩
      · obtain ⟨-, rfl⟩ := Call.mk.inj heq
        obtain ⟨harming, -, rfl⟩ := hpending hs
        refine ⟨0, w.now, ?_, le_rfl, fun _ => rfl, fun m hm => ?_⟩
        · rw [hfirst rfl] at hself
          simpa only [hfirst rfl] using hself
        · rw [harming] at hm
          exact nomatch hm
      · obtain ⟨v, start, hcell, hstart, hnow, hread⟩ := h.pending j stage' hj hs
        obtain ⟨hnone, hpos⟩ := hforever _ hcell
        refine ⟨n, start, ?_, hstart, fun _ => hnow (by rwa [hn]), hread⟩
        rw [hnone] at hself
        simpa only [hnone] using hself
    · -- While a call is pending, no other one counts the first.
      have halone : ∀ (j : ℕ) (stage' : Stage), j ≠ i → w.calls[j]? = some ⟨subject, stage'⟩ →
          stage'.Pending → ¬ stage.Pending := fun j stage' _ hj hs hs' => by
        obtain ⟨v, start, hcell, -⟩ := h.pending j stage' hj hs
        have hpos := (hforever _ hcell).2
        have hzero := (hpending hs').2.2
        omega
      rcases (getElem?_set_call hi).mp hj with ⟨hji, heq⟩ | ⟨hji, hj⟩ <;>
        rcases (getElem?_set_call hi).mp hk with ⟨hki, heq'⟩ | ⟨hki, hk⟩
      · rw [hji, hki]
      · rw [(Call.mk.inj heq).2] at hs₁
        exact absurd hs₁ (halone k stage₂ hki hk hs₂)
      · rw [(Call.mk.inj heq').2] at hs₂
        exact absurd hs₂ (halone j stage₁ hji hj hs₁)
      · exact h.unique j k stage₁ stage₂ hj hk hs₁ hs₂
    · rw [hstage]
      split_ifs <;> simp
    · obtain ⟨-, hfate, hzero⟩ := hpending hs
      exact ⟨hfate, by rw [hzero]⟩
    · intro within hwithin
      rw [hstage] at hwithin
      rw [Turn.answer]
      split_ifs at hwithin ⊢ with hfate hone
      · exact (Stage.answered.inj hwithin).symm
      · exact (Stage.answered.inj hwithin).symm

/-- The arming of the counter of a subject. -/
theorem Inv.expire (h : Inv keyPrefix dailyLimit subject w) (hlimit : 0 < dailyLimit subject)
    {seconds : ℕ} (hi : w.calls[i]? = some ⟨subject, .expiring seconds⟩) :
    Inv keyPrefix dailyLimit subject (w.expire keyPrefix dailyLimit i subject seconds fate) := by
  have hpending : (Stage.expiring seconds).Pending := Or.inr ⟨seconds, rfl⟩
  obtain ⟨v, start, hcell, hstart, hnow, hread⟩ := h.pending i _ hi hpending
  obtain ⟨read, hsr, hrn, hseconds⟩ := hread seconds rfl
  -- The call was the only one that was pending.
  have hnone : ∀ within (j : ℕ) (stage : Stage),
      (w.calls.set i ⟨subject, .answered within⟩)[j]? = some ⟨subject, stage⟩ →
      ¬ stage.Pending := by
    intro within j stage hj hs
    rcases (getElem?_set_call hi).mp hj with ⟨-, heq⟩ | ⟨hne, hj⟩
    · rw [(Call.mk.inj heq).2] at hs
      exact not_pending_answered within hs
    · exact hne (h.unique j i stage _ hj hi hs hpending)
  exact
    { past := h.past
      cell := fun hpos => by
        obtain ⟨expiresAt, hcell', hlives⟩ := h.cell hpos
        simp only [World.expire]
        split_ifs
        · rw [Store.pexpire_of_some (Store.read_of_none hcell)]
          refine ⟨some (w.now + seconds * 1000), ?_, fun t ht => ?_⟩
          · rw [Function.update_self]
            rw [hcell, Option.some_inj] at hcell'
            rw [(Cell.mk.inj hcell').1]
          · obtain rfl := Option.some.inj ht
            -- The clock was read on this very day.
            have hday : dayOf read = dayOf w.now := by
              have hle := dayOf_mono hsr
              have hle' := dayOf_mono hrn
              have heq := hnow hpos
              omega
            rw [← hday, hseconds]
            exact midnight_le_expiry hrn
        · exact ⟨expiresAt, hcell', hlives⟩
      pending := fun j stage hj hs => absurd hs (hnone _ j stage hj)
      unique := fun j k stage stage' hj _ hs => absurd hs (hnone _ j stage hj)
      used := h.used
      answers := fun t ht hsubject => by
        obtain ⟨stage, hstage, hcounting, hpend, hanswer⟩ := h.answers t ht hsubject
        rcases eq_or_ne t.call i with hcall | hne
        · rw [hcall] at hstage ⊢
          rw [hi, Option.some_inj] at hstage
          obtain ⟨-, rfl⟩ := Call.mk.inj hstage
          obtain ⟨hfate, hused⟩ := hpend hpending
          refine ⟨_, (getElem?_set_call hi).mpr (Or.inl ⟨rfl, rfl⟩), by simp,
            fun hs => absurd hs (not_pending_answered _), fun within hwithin => ?_⟩
          have hone : (1 : ℤ) ≤ dailyLimit subject := hlimit
          rw [← Stage.answered.inj hwithin, Turn.answer, if_pos hfate, hused, hsubject]
          simp [hone]
        · exact ⟨stage, (getElem?_set_call hi).mpr (Or.inr ⟨hne, hstage⟩), hcounting, hpend,
            hanswer⟩ }

/-- **What holds of a subject is kept by every timely step.** -/
theorem Inv.step (h : Inv keyPrefix dailyLimit subject w) (hlimit : 0 < dailyLimit subject)
    (htimely : w.timely keyPrefix e) (hstep : w' ∈ w.step keyPrefix dailyLimit e) :
    Inv keyPrefix dailyLimit subject w' := by
  cases e with
  | pass ms =>
    obtain rfl := Option.some.inj hstep
    exact h.pass ms
  | call s =>
    obtain rfl := Option.some.inj hstep
    refine h.call ?_
    dsimp only
    split_ifs
    · exact not_pending_answered _
    · exact not_pending_counting
  | clock i =>
    simp only [World.step, Option.mem_def] at hstep
    split at hstep
    · next s hi =>
      obtain rfl := Option.some.inj hstep
      exact h.clock hi
    · exact nomatch hstep
  | command i fate =>
    simp only [World.step, Option.mem_def] at hstep
    split at hstep
    · next s hi =>
      obtain rfl := Option.some.inj hstep
      rcases eq_or_ne s subject with rfl | hne
      · exact h.count hi htimely
      · have hkey := (Subject.key_injective keyPrefix).ne hne.symm
        have hredis : (w.count keyPrefix dailyLimit i s fate).redis (subject.key keyPrefix) =
            w.redis (subject.key keyPrefix) := redis_count_of_ne hkey
        exact h.other hne hi hredis (Or.inr ⟨_, rfl, rfl, rfl⟩)
    · next s seconds hi =>
      obtain rfl := Option.some.inj hstep
      rcases eq_or_ne s subject with rfl | hne
      · exact h.expire hlimit hi
      · have hkey := (Subject.key_injective keyPrefix).ne hne.symm
        refine h.other hne hi ?_ (Or.inl rfl)
        split_ifs
        · exact Store.pexpire_of_ne hkey
        · rfl
    · exact nomatch hstep

theorem Inv.run {events : List Event} (h : Inv keyPrefix dailyLimit subject w)
    (hlimit : 0 < dailyLimit subject) (htimely : w.timelyRun keyPrefix dailyLimit events)
    (hrun : w' ∈ w.run keyPrefix dailyLimit events) : Inv keyPrefix dailyLimit subject w' := by
  induction events generalizing w with
  | nil =>
    obtain rfl := Option.some.inj hrun
    exact h
  | cons e events ih =>
    obtain ⟨v, hv, hrun⟩ := Option.bind_eq_some_iff.mp hrun
    rw [World.timelyRun, Bool.and_eq_true] at htimely
    refine ih (h.step hlimit htimely.1 hv) ?_ hrun
    simpa only [hv, Option.all_some] using htimely.2

/-! ### The allowance -/

/-- Counts that go up by one are at most the limit as often as the limit says. -/
theorem length_within {day : ℕ} {limit : ℤ} (hlimit : 0 < limit)
    (hused : Trace.Every (fun t older => t.subject = subject → t.fate.runs →
      t.used = counted older subject (dayOf t.time) + 1) turns) :
    ((turns.countP fun t => t.subject = subject ∧ dayOf t.time = day ∧ t.fate.runs ∧
      (t.used : ℤ) ≤ limit : ℕ) : ℤ) ≤ min limit (counted turns subject day) := by
  induction turns with
  | nil => simp [counted, hlimit.le]
  | cons t turns ih =>
    have hle := ih hused.2
    rw [countP_cons, counted_cons]
    by_cases ht : t.subject = subject ∧ dayOf t.time = day ∧ t.fate.runs
    · have hcount := hused.1 ht.1 ht.2.2
      rw [ht.2.1] at hcount
      rw [if_pos ht]
      by_cases hwithin : (t.used : ℤ) ≤ limit
      · simp only [ht.1, ht.2.1, ht.2.2, hwithin]
        simp only [and_self, decide_true, if_true]
        omega
      · simp only [hwithin, and_false, decide_false, Bool.false_eq_true, if_false]
        omega
    · have hnot : ¬ (t.subject = subject ∧ dayOf t.time = day ∧ t.fate.runs ∧
          (t.used : ℤ) ≤ limit) := fun h => ht ⟨h.1, h.2.1, h.2.2.1⟩
      rw [if_neg ht]
      simp only [hnot, decide_false, Bool.false_eq_true, if_false]
      omega

theorem Inv.daily (h : Inv keyPrefix dailyLimit subject w) (hlimit : 0 < dailyLimit subject) :
    Daily dailyLimit subject w := by
  have hstage : ∀ t ∈ w.turns, t.subject = subject → ∀ within,
      w.stageOf t = some (.answered within) → within = t.answer dailyLimit := by
    intro t ht hsubject within hwithin
    obtain ⟨stage, hcall, -, -, hanswer⟩ := h.answers t ht hsubject
    rw [World.stageOf, hcall] at hwithin
    exact hanswer within (Option.some.inj hwithin)
  constructor
  · intro day
    have hle := (@length_within _ _ day _ hlimit h.used).trans (min_le_left _ _)
    refine le_trans ?_ hle
    rw [← countP_eq_length_filter]
    exact_mod_cast countP_mono_left fun t ht hwithin => by
      obtain ⟨hsubject, hday, hfate, hans⟩ := of_decide_eq_true hwithin
      have htrue := hstage t ht hsubject true hans
      rw [Turn.answer, if_pos hfate, hsubject] at htrue
      exact decide_eq_true ⟨hsubject, hday, by rw [hfate]; rfl, of_decide_eq_true htrue.symm⟩
  · intro t older hsuffix hsubject hlt within hwithin
    rw [hstage t (Trace.mem_of_suffix hsuffix) hsubject within hwithin, Turn.answer]
    split_ifs with hfate
    · have hused := Trace.every_iff.mp h.used t older hsuffix hsubject (by rw [hfate]; rfl)
      have hcounted : counted older subject (dayOf t.time) ≤ (older.filter fun t' =>
          t'.subject = subject ∧ dayOf t'.time = dayOf t.time).length := by
        rw [counted, ← countP_eq_length_filter]
        exact countP_mono_left fun t' _ ht' => by
          obtain ⟨hs, hday, -⟩ := of_decide_eq_true ht'
          exact decide_eq_true ⟨hs, hday⟩
      rw [decide_eq_true_iff, hused, hsubject]
      omega
    · rfl

/-- In every run in which no count that is the first of its day finds a counter, the allowance of
every phone and every profile is exactly daily. -/
theorem allowance_daily {start : ℕ} {events : List Event} (hlimit : 0 < dailyLimit subject)
    (htimely : World.timelyRun keyPrefix dailyLimit { now := start } events)
    (hrun : w ∈ World.run keyPrefix dailyLimit { now := start } events) :
    Daily dailyLimit subject w :=
  ((inv_start start).run hlimit htimely hrun).daily hlimit

end Steps

/-- A phone that is allowed one reply a day calls one second before midnight, and again one second
after. -/
def aroundMidnight (pause : ℕ) : List Event :=
  [.call (.phone "242"), .command 0 .answered, .clock 0, .command 0 .answered, .pass pause,
    .call (.phone "242"), .command 1 .answered]

/-- Two minutes later the counter is gone. -/
theorem daily_after_pause : ∃ w ∈ World.run "rabotka:dev:" (fun _ => 1) { now := 86399000 }
    (aroundMidnight 120000), Daily (fun _ => 1) (.phone "242") w :=
  ⟨_, rfl, allowance_daily (by decide) (by decide +kernel)
    (show _ ∈ World.run "rabotka:dev:" (fun _ => 1) { now := 86399000 } (aroundMidnight 120000)
      from rfl)⟩

/-- The counter of the last second outlives the day by most of a minute, and the first call of the
next day is refused. -/
theorem refused_after_midnight : ∃ w ∈ World.run "rabotka:dev:" (fun _ => 1) { now := 86399000 }
    (aroundMidnight 2000), ¬ Daily (fun _ => 1) (.phone "242") w := by
  refine ⟨_, rfl, fun h => ?_⟩
  have hfirst := h.first ⟨1, .phone "242", 86401000, .answered, 2⟩ _ (suffix_refl _) rfl
    (by decide +kernel) false (by decide +kernel)
  exact nomatch hfirst

end Rabotka.Assistant
