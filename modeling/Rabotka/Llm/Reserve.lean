import Rabotka.Llm.Invoke
import Mathlib.Order.MinMax

/-!
# The reserve of a failing call

The law of one call: it ends inside the turn, no attempt lasts longer than the cap or starts with
less than the minimum left, a failing call that could keep the reserve at its start keeps it, and a
provider is blamed only for what it did before the turn and the run were over.

All of it holds but for the retry. The guard before the pause asks that the pause and a minimum call
still fit; it does not ask for the reserve, and once the reserve no longer fits the budget releases
it. So a server error at the wrong moment lets the retry spend the reserve: `Squeezed` says when.
-/

namespace Rabotka.Llm

open List

variable {c : Config} {o : Options} {label : String}

/-! ### One attempt -/

theorem budgetFor_le_cap {now budget : ℕ} (h : budgetFor c o now = some budget) :
    budget ≤ c.cap o := by
  unfold budgetFor at h
  cases hd : o.deadline with
  | none => simp only [hd, Option.some.injEq] at h; omega
  | some deadline =>
    simp only [hd] at h
    split_ifs at h with hfits hmin
    · have := Option.some.inj h; omega
    · have := Option.some.inj h; omega

variable {deadline : Deadline}

/-- With a deadline the budget is part of what is left, and at least the minimum is left. -/
theorem budgetFor_remaining {now budget : ℕ}
    (hd : o.deadline = some deadline) (h : budgetFor c o now = some budget) :
    c.minCallMs ≤ deadline.remainingMs now ∧ budget ≤ deadline.remainingMs now := by
  simp only [budgetFor, hd] at h
  split_ifs at h with hfits hmin
  · have := Option.some.inj h; omega
  · have := Option.some.inj h; omega

variable {now : ℕ}

/-- A call that finds the reserve and a minimum call leaves the reserve alone. -/
theorem budgetFor_of_fits (hd : o.deadline = some deadline)
    (hfits : c.minCallMs + c.reserve o ≤ deadline.remainingMs now) :
    budgetFor c o now = some (min (c.cap o) (deadline.remainingMs now - c.reserve o)) := by
  simp only [budgetFor, hd, if_pos hfits]

/-- One that finds only a minimum call may spend all that is left. -/
theorem budgetFor_of_short (hd : o.deadline = some deadline)
    (hshort : ¬c.minCallMs + c.reserve o ≤ deadline.remainingMs now)
    (hmin : c.minCallMs ≤ deadline.remainingMs now) :
    budgetFor c o now = some (min (c.cap o) (deadline.remainingMs now)) := by
  simp only [budgetFor, hd, if_neg hshort, if_pos hmin]

variable {ending : Ending} {now budget time : ℕ} {aborts : List ℕ}

/-- The race is over within the budget and at the first abort, and an attempt that is stopped is
stopped by an abort. -/
theorem settle_spec (h : settle now budget aborts ending = some time) :
    now ≤ time ∧ time ≤ now + budget ∧ (∀ stop ∈ aborts, time ≤ max now stop) ∧
      (ending = .aborted → ∃ stop ∈ aborts, stop ≤ time) := by
  cases ending with
  | unbuilt err =>
    obtain rfl : now = time := Option.some.inj h
    exact ⟨le_rfl, Nat.le_add_right _ _, fun stop _ => le_max_left _ _, by simp⟩
  | answered | failed =>
    simp only [settle, Option.ite_none_right_eq_some, Option.some.injEq] at h
    obtain ⟨⟨hms, hstops⟩, rfl⟩ := h
    exact ⟨Nat.le_add_right _ _, Nat.add_le_add_left hms now, hstops, by simp⟩
  | timedOut =>
    simp only [settle, Option.ite_none_right_eq_some, Option.some.injEq] at h
    obtain ⟨hstops, rfl⟩ := h
    exact ⟨Nat.le_add_right _ _, le_rfl, hstops, by simp⟩
  | aborted =>
    obtain ⟨stop, hfind, rfl⟩ := Option.map_eq_some_iff.mp h
    have hp := find?_some hfind
    have hmem := mem_of_find?_eq_some hfind
    simp only [Bool.and_eq_true, decide_eq_true_eq, all_eq_true] at hp
    exact ⟨le_max_left _ _, hp.1, hp.2, fun _ => ⟨stop, hmem, le_max_right _ _⟩⟩

variable {tried : Tried}

/-- A call either finds no budget, or makes one attempt. -/
theorem callOnce_cases (h : callOnce c o label now ending = some tried) :
    (∃ err, err.candidates = [] ∧ tried = ⟨now, [], some ⟨true, err⟩⟩) ∨
    (∃ budget time, budgetFor c o now = some budget ∧
      settle now budget o.aborts ending = some time ∧
      tried = ⟨time, [⟨now, time, budget, ending⟩],
        (ending.thrown label budget).map (Thrown.mk false)⟩) := by
  unfold callOnce at h
  cases hb : budgetFor c o now with
  | none =>
    simp only [hb, Option.some.injEq] at h
    exact Or.inl ⟨_, rfl, h.symm⟩
  | some budget =>
    simp only [hb] at h
    obtain ⟨time, htime, rfl⟩ := Option.map_eq_some_iff.mp h
    exact Or.inr ⟨budget, time, rfl, htime, rfl⟩

/-- What is true of every attempt that is made. -/
structure Attempt.Sound (c : Config) (o : Options) (a : Attempt) : Prop where
  forward : a.startedAt ≤ a.endedAt
  within : a.endedAt ≤ a.startedAt + a.budget
  capped : a.budget ≤ c.cap o
  longEnough : ∀ deadline, o.deadline = some deadline →
    c.minCallMs ≤ deadline.remainingMs a.startedAt
  stopped : a.ending = .aborted → ∃ stop ∈ o.aborts, stop ≤ a.endedAt
  timedOut : a.ending = .timedOut → a.endedAt = a.startedAt + a.budget

theorem sound_of_settle (hb : budgetFor c o now = some budget)
    (h : settle now budget o.aborts ending = some time) :
    Attempt.Sound c o ⟨now, time, budget, ending⟩ := by
  obtain ⟨hforward, hwithin, -, hstopped⟩ := settle_spec h
  refine ⟨hforward, hwithin, budgetFor_le_cap hb,
    fun deadline hd => (budgetFor_remaining hd hb).1, hstopped, ?_⟩
  rintro rfl
  simp only [settle, Option.ite_none_right_eq_some, Option.some.injEq] at h
  exact h.2.symm

theorem callOnce_sound (h : callOnce c o label now ending = some tried) :
    ∀ a ∈ tried.attempts, a.Sound c o := by
  rcases callOnce_cases h with ⟨err, -, rfl⟩ | ⟨budget, time, hb, ht, rfl⟩
  · simp
  · intro a ha
    obtain rfl := mem_singleton.mp ha
    exact sound_of_settle hb ht

/-- A call that begins inside the turn ends inside it. -/
theorem callOnce_inTime
    (hd : o.deadline = some deadline) (h : callOnce c o label now ending = some tried) :
    now ≤ tried.endedAt ∧ tried.endedAt ≤ max now deadline.endsAt := by
  rcases callOnce_cases h with ⟨err, -, rfl⟩ | ⟨budget, time, hb, ht, rfl⟩
  · exact ⟨le_rfl, le_max_left _ _⟩
  · obtain ⟨hforward, hwithin, -, -⟩ := settle_spec ht
    have hleft := (budgetFor_remaining hd hb).2
    simp only [Deadline.remainingMs] at hleft
    exact ⟨hforward, by simp only; omega⟩

variable {thrown : Thrown}

/-- An error that is not the budget's comes from an attempt that ends at the same moment. -/
theorem callOnce_thrown
    (h : callOnce c o label now ending = some tried) (herr : tried.error = some thrown)
    (hown : thrown.deadlineExceeded = false) :
    ∃ a ∈ tried.attempts, a.endedAt = tried.endedAt ∧ ∀ ms, a.ending ≠ .answered ms := by
  rcases callOnce_cases h with ⟨err, -, rfl⟩ | ⟨budget, time, hb, ht, rfl⟩
  · obtain rfl := Option.some.inj herr
    simp at hown
  · refine ⟨_, mem_singleton_self _, rfl, ?_⟩
    rintro ms rfl
    simp [Ending.thrown] at herr

/-! ### The retry -/

variable {first second : Ending} {tries : ℕ}

/-- A call makes one try, or a second one after a server error that leaves room for the pause and a
minimum call. -/
theorem callWithRetry_cases (h : callWithRetry c o label now first second = some (tried, tries)) :
    callOnce c o label now first = some tried ∨
    ∃ one thrown two, callOnce c o label now first = some one ∧ one.error = some thrown ∧
      classifyLlmError thrown.err = .server ∧ skipsRetry c o one.endedAt = false ∧
      callOnce c o label (one.endedAt + c.retryBackoffMs) second = some two ∧
      tried = { two with attempts := one.attempts ++ two.attempts } := by
  obtain ⟨one, hone, h⟩ := Option.bind_eq_some_iff.mp h
  cases herr : one.error with
  | none =>
    simp only [herr, Option.some.injEq, Prod.mk.injEq] at h
    exact Or.inl (h.1 ▸ hone)
  | some thrown =>
    simp only [herr] at h
    split_ifs at h with hcls hskip
    · simp only [Option.some.injEq, Prod.mk.injEq] at h
      exact Or.inl (h.1 ▸ hone)
    · simp only [Option.some.injEq, Prod.mk.injEq] at h
      exact Or.inl (h.1 ▸ hone)
    · obtain ⟨tried', hretry, heq⟩ := Option.map_eq_some_iff.mp h
      simp only [Prod.mk.injEq] at heq
      obtain ⟨two, htwo, hmerge⟩ := Option.map_eq_some_iff.mp hretry
      refine Or.inr ⟨one, thrown, two, hone, herr, ?_, by simpa using hskip, htwo, ?_⟩
      · simpa [isRetryableInPlace] using hcls
      · rw [← heq.1, ← hmerge]

/-- The guard before the pause. -/
theorem guard_of_retry (hd : o.deadline = some deadline) (h : skipsRetry c o now = false) :
    c.retryBackoffMs + c.minCallMs ≤ deadline.remainingMs now := by
  simpa [skipsRetry, hd] using h

theorem callWithRetry_sound (h : callWithRetry c o label now first second = some (tried, tries)) :
    ∀ a ∈ tried.attempts, a.Sound c o := by
  rcases callWithRetry_cases h with hone | ⟨one, thrown, two, hone, -, -, -, htwo, rfl⟩
  · exact callOnce_sound hone
  · intro a ha
    rcases mem_append.mp ha with ha | ha
    · exact callOnce_sound hone a ha
    · exact callOnce_sound htwo a ha

/-- The pause and the retry fit in the turn. -/
theorem callWithRetry_inTime (hd : o.deadline = some deadline)
    (h : callWithRetry c o label now first second = some (tried, tries)) :
    tried.endedAt ≤ max now deadline.endsAt := by
  rcases callWithRetry_cases h with hone | ⟨one, thrown, two, hone, -, -, hguard, htwo, rfl⟩
  · exact (callOnce_inTime hd hone).2
  · have hend := (callOnce_inTime hd hone).2
    have hend' := (callOnce_inTime hd htwo).2
    have hleft := guard_of_retry hd hguard
    simp only [Deadline.remainingMs] at hleft
    simp only
    omega

theorem callWithRetry_thrown (h : callWithRetry c o label now first second = some (tried, tries))
    (herr : tried.error = some thrown) (hown : thrown.deadlineExceeded = false) :
    ∃ a ∈ tried.attempts, a.endedAt = tried.endedAt ∧ ∀ ms, a.ending ≠ .answered ms := by
  rcases callWithRetry_cases h with hone | ⟨one, _, two, -, -, -, -, htwo, rfl⟩
  · exact callOnce_thrown hone herr hown
  · obtain ⟨a, ha, hlast, hkind⟩ := callOnce_thrown htwo herr hown
    exact ⟨a, mem_append_right _ ha, hlast, hkind⟩

/-! ### The law -/

/-- The attempt failed, or used up its own budget. -/
def Attempt.AtFault (a : Attempt) : Prop :=
  match a.ending with
  | .unbuilt _ | .failed _ _ => True
  | .timedOut => a.endedAt = a.startedAt + a.budget
  | .answered _ | .aborted => False

/-- What is expected of a call that starts at `now`. A call that starts after the deadline ends at
once. -/
structure Law (c : Config) (o : Options) (now : ℕ) (out : Outcome) : Prop where
  inTime : ∀ deadline, o.deadline = some deadline → out.endedAt ≤ max now deadline.endsAt
  capped : ∀ a ∈ out.attempts, a.startedAt ≤ a.endedAt ∧ a.endedAt - a.startedAt ≤ c.cap o
  reserveKept : ∀ deadline, o.deadline = some deadline →
    c.minCallMs + c.reserve o ≤ deadline.remainingMs now → out.result ≠ .answered →
    c.reserve o ≤ deadline.remainingMs out.endedAt
  longEnough : ∀ deadline, o.deadline = some deadline → ∀ a ∈ out.attempts,
    c.minCallMs ≤ deadline.remainingMs a.startedAt
  blames : out.report = some .failure → ∃ a ∈ out.attempts, a.AtFault ∧
    ∀ stop ∈ o.aborts, a.endedAt < stop

/-- When and how the provider failed, where it did. -/
def Ending.failure (now : ℕ) : Ending → Option (ℕ × ErrorFacts)
  | .unbuilt err => some (now, err)
  | .failed ms err => some (now + ms, err)
  | .answered _ | .timedOut | .aborted => none

/-- The first attempt of a call that could keep the reserve meets a server error, at a moment when
the pause and a minimum call still fit, and after the pause the reserve fits with neither a minimum
call nor the cap; and nothing stops the call while the reserve is still left. -/
def Squeezed (c : Config) (o : Options) (now : ℕ) (first : Ending) : Prop :=
  ∃ deadline time err, o.deadline = some deadline ∧ first.failure now = some (time, err) ∧
    classifyLlmError err = .server ∧
    c.minCallMs + c.reserve o ≤ deadline.remainingMs now ∧
    c.retryBackoffMs + c.minCallMs ≤ deadline.remainingMs time ∧
    deadline.remainingMs (time + c.retryBackoffMs) < c.reserve o + min c.minCallMs (c.cap o) ∧
    ∀ stop ∈ o.aborts, deadline.endsAt < c.reserve o + max (time + c.retryBackoffMs) stop

/-- Only the provider's own failure is a server error. -/
theorem failure_of_server
    {err : ErrorFacts} (ht : settle now budget aborts ending = some time)
    (herr : ending.thrown label budget = some err) (hcls : classifyLlmError err = .server) :
    ending.failure now = some (time, err) := by
  cases ending with
  | unbuilt err' =>
    obtain rfl : now = time := Option.some.inj ht
    obtain rfl := Option.some.inj herr
    rfl
  | answered ms => simp [Ending.thrown] at herr
  | failed ms err' =>
    simp only [settle, Option.ite_none_right_eq_some, Option.some.injEq] at ht
    obtain rfl := Option.some.inj herr
    simp only [Ending.failure, ht.2]
  | timedOut | aborted =>
    obtain rfl := Option.some.inj herr
    exact absurd hcls (classify_ne_server rfl)

/-- A first try that could keep the reserve keeps it. -/
theorem callOnce_reserve (hd : o.deadline = some deadline)
    (hfits : c.minCallMs + c.reserve o ≤ deadline.remainingMs now)
    (h : callOnce c o label now ending = some tried) :
    c.reserve o ≤ deadline.remainingMs tried.endedAt := by
  rcases callOnce_cases h with ⟨err, -, rfl⟩ | ⟨budget, time, hb, ht, rfl⟩
  · simp only
    omega
  · obtain ⟨-, hwithin, -, -⟩ := settle_spec ht
    have hbudget := Option.some.inj ((budgetFor_of_fits hd hfits).symm.trans hb)
    simp only [Deadline.remainingMs] at hfits hbudget ⊢
    omega

/-- So does a retry that is not squeezed. -/
theorem retry_reserve {time : ℕ} {second : Ending} {two : Tried} (hd : o.deadline = some deadline)
    (hguard : c.retryBackoffMs + c.minCallMs ≤ deadline.remainingMs time)
    (hroom : c.reserve o + min c.minCallMs (c.cap o)
        ≤ deadline.remainingMs (time + c.retryBackoffMs) ∨
      ∃ stop ∈ o.aborts, c.reserve o + max (time + c.retryBackoffMs) stop ≤ deadline.endsAt)
    (h : callOnce c o label (time + c.retryBackoffMs) second = some two) :
    c.reserve o ≤ deadline.remainingMs two.endedAt := by
  by_cases hfits : c.minCallMs + c.reserve o ≤ deadline.remainingMs (time + c.retryBackoffMs)
  · exact callOnce_reserve hd hfits h
  · have hmin : c.minCallMs ≤ deadline.remainingMs (time + c.retryBackoffMs) := by
      clear hroom
      simp only [Deadline.remainingMs] at hguard ⊢
      omega
    have hbudget := budgetFor_of_short hd hfits hmin
    rcases callOnce_cases h with ⟨err, -, rfl⟩ | ⟨budget, ended, hb, ht, rfl⟩
    · -- no budget was found, which the guard excludes
      simp only [callOnce, hbudget] at h
      obtain ⟨ended, -, heq⟩ := Option.map_eq_some_iff.mp h
      simp at heq
    · obtain ⟨-, hwithin, hstops, -⟩ := settle_spec ht
      have hbudget' := Option.some.inj (hbudget.symm.trans hb)
      rcases hroom with hroom | ⟨stop, hmem, hstop⟩
      · simp only [Deadline.remainingMs] at hroom hfits hmin hbudget' ⊢
        omega
      · have hended := hstops stop hmem
        simp only [Deadline.remainingMs]
        omega

/-- A call that is not squeezed keeps the reserve. -/
theorem callWithRetry_reserve (hd : o.deadline = some deadline)
    (hfits : c.minCallMs + c.reserve o ≤ deadline.remainingMs now)
    (hfree : ¬Squeezed c o now first)
    (h : callWithRetry c o label now first second = some (tried, tries)) :
    c.reserve o ≤ deadline.remainingMs tried.endedAt := by
  rcases callWithRetry_cases h with hone | ⟨one, thrown, two, hone, herr, hcls, hguard, htwo, rfl⟩
  · exact callOnce_reserve hd hfits hone
  · have hleft := guard_of_retry hd hguard
    refine @retry_reserve _ _ label _ _ second two hd hleft ?_ htwo
    rcases callOnce_cases hone with ⟨err, hnone, rfl⟩ | ⟨budget, time, -, ht, rfl⟩
    · obtain rfl := Option.some.inj herr
      exact absurd hcls (classify_ne_server hnone)
    · obtain ⟨err, hthrown, rfl⟩ := Option.map_eq_some_iff.mp herr
      have hfailure := failure_of_server ht hthrown hcls
      by_contra hnot
      push Not at hnot
      exact hfree ⟨deadline, time, err, hd, hfailure, hcls, hfits, hleft, hnot⟩

/-! ### The report -/

@[simp]
theorem conclude_endedAt (now : ℕ) (tried : Tried) (tries : ℕ) :
    (conclude o now tried tries).endedAt = tried.endedAt := by
  unfold conclude
  cases tried.error with
  | none => rfl
  | some thrown => simp only; split_ifs <;> rfl

@[simp]
theorem conclude_attempts (now : ℕ) (tried : Tried) (tries : ℕ) :
    (conclude o now tried tries).attempts = tried.attempts := by
  unfold conclude
  cases tried.error with
  | none => rfl
  | some thrown => simp only; split_ifs <;> rfl

/-- A call that throws does not answer. -/
theorem conclude_ne_answered
    (h : tried.error = some thrown) : (conclude o now tried tries).result ≠ .answered := by
  simp only [conclude, h]
  split_ifs <;> simp

theorem before_of_any {moment : Option ℕ} (h : moment.any (· ≤ now) = false) :
    ∀ stop ∈ moment, now < stop := by
  rintro stop rfl
  simpa using h

/-- Past the turn's end, its disposal or the run's cancel, nothing is the provider's fault. -/
theorem lt_aborts_of_not_deadlineCaused (h : deadlineCaused o thrown now = false) :
    thrown.deadlineExceeded = false ∧ ∀ stop ∈ o.aborts, now < stop := by
  unfold deadlineCaused at h
  split_ifs at h with hown hcancelled
  refine ⟨by simpa using hown, ?_⟩
  have hrun := before_of_any (by simpa [Options.cancelled] using hcancelled)
  intro stop hstop
  unfold Options.aborts at hstop
  cases hd : o.deadline with
  | none =>
    simp only [hd, nil_append, Option.mem_toList] at hstop
    exact hrun stop hstop
  | some deadline =>
    simp only [hd, Bool.or_eq_false_iff, Deadline.causedAbort, decide_eq_false_iff_not, not_le] at h
    simp only [hd, cons_append, mem_cons, mem_append, Option.mem_toList] at hstop
    rcases hstop with rfl | hstop | hstop
    · exact h.1.1
    · exact before_of_any h.1.2 stop hstop
    · exact hrun stop hstop

theorem conclude_failure (h : (conclude o now tried tries).report = some .failure) :
    ∃ thrown, tried.error = some thrown ∧ thrown.deadlineExceeded = false ∧
      ∀ stop ∈ o.aborts, tried.endedAt < stop := by
  unfold conclude at h
  cases herr : tried.error with
  | none => simp [herr] at h
  | some thrown =>
    simp only [herr] at h
    by_cases hcaused : deadlineCaused o thrown tried.endedAt = true
    · simp [hcaused] at h
    · exact ⟨thrown, rfl, lt_aborts_of_not_deadlineCaused (by simpa using hcaused)⟩

/-- An attempt that ended before every abort without an answer is the provider's fault. -/
theorem atFault_of_sound {a : Attempt} (hsound : a.Sound c o)
    (hkind : ∀ ms, a.ending ≠ .answered ms) (hbefore : ∀ stop ∈ o.aborts, a.endedAt < stop) :
    a.AtFault := by
  unfold Attempt.AtFault
  cases hending : a.ending with
  | unbuilt | failed => trivial
  | answered ms => exact absurd hending (hkind ms)
  | timedOut => exact hsound.timedOut hending
  | aborted =>
    obtain ⟨stop, hmem, hle⟩ := hsound.stopped hending
    exact absurd (hbefore stop hmem) (not_lt.mpr hle)

/-- **The law of one call**, for a first attempt that does not squeeze the retry. -/
theorem law_of_not_squeezed {out : Outcome} (hfree : ¬Squeezed c o now first)
    (h : invokeWith c o label now first second = some out) : Law c o now out := by
  obtain ⟨⟨tried, tries⟩, htried, rfl⟩ := Option.map_eq_some_iff.mp h
  have hsound := callWithRetry_sound htried
  refine ⟨?_, ?_, ?_, ?_, ?_⟩
  · intro deadline hd
    rw [conclude_endedAt]
    exact callWithRetry_inTime hd htried
  · intro a ha
    rw [conclude_attempts] at ha
    obtain ⟨hforward, hwithin, hcapped, -, -, -⟩ := hsound a ha
    exact ⟨hforward, by omega⟩
  · intro deadline hd hfits _
    rw [conclude_endedAt]
    exact callWithRetry_reserve hd hfits hfree htried
  · intro deadline hd a ha
    rw [conclude_attempts] at ha
    exact (hsound a ha).longEnough deadline hd
  · intro hreport
    obtain ⟨thrown, herr, hown, hbefore⟩ := conclude_failure hreport
    obtain ⟨a, ha, hlast, hkind⟩ := callWithRetry_thrown htried herr hown
    rw [← hlast] at hbefore
    rw [conclude_attempts]
    exact ⟨a, ha, atFault_of_sound (hsound a ha) hkind hbefore, hbefore⟩

/-! ### The squeezed retry -/

/-- The latest moment at which an attempt can end. -/
def latest (now budget : ℕ) (aborts : List ℕ) : ℕ :=
  aborts.foldr (fun stop time => min (max now stop) time) (now + budget)

theorem latest_le (now budget : ℕ) (aborts : List ℕ) :
    now ≤ latest now budget aborts ∧ latest now budget aborts ≤ now + budget ∧
      ∀ stop ∈ aborts, latest now budget aborts ≤ max now stop := by
  induction aborts with
  | nil => exact ⟨Nat.le_add_right _ _, le_rfl, by simp⟩
  | cons stop aborts ih =>
    obtain ⟨hforward, hwithin, hstops⟩ := ih
    simp only [latest, foldr_cons] at hforward hwithin hstops ⊢
    refine ⟨le_min (le_max_left _ _) hforward, (min_le_right _ _).trans hwithin, ?_⟩
    intro other hother
    rcases mem_cons.mp hother with rfl | hother
    · exact min_le_left _ _
    · exact (min_le_right _ _).trans (hstops other hother)

/-- It is the end of the budget or the moment of an abort. -/
theorem latest_eq (now budget : ℕ) (aborts : List ℕ) : latest now budget aborts = now + budget ∨
      ∃ stop ∈ aborts, latest now budget aborts = max now stop := by
  induction aborts with
  | nil => exact Or.inl rfl
  | cons stop aborts ih =>
    simp only [latest, foldr_cons] at ih ⊢
    rcases min_choice (max now stop)
        (aborts.foldr (fun stop time => min (max now stop) time) (now + budget)) with hmin | hmin
    · exact Or.inr ⟨stop, mem_cons_self, hmin⟩
    · rw [hmin]
      rcases ih with ih | ⟨other, hmem, ih⟩
      · exact Or.inl ih
      · exact Or.inr ⟨other, mem_cons_of_mem _ hmem, ih⟩

/-- An error with nothing to tell it by. -/
def plainError : ErrorFacts := ⟨false, "", "", "", []⟩

/-- A provider can fail at the latest moment. -/
theorem settle_latest (now budget : ℕ) (aborts : List ℕ) :
    settle now budget aborts (.failed (latest now budget aborts - now) plainError) =
      some (latest now budget aborts) := by
  obtain ⟨hforward, hwithin, hstops⟩ := latest_le now budget aborts
  have hend : now + (latest now budget aborts - now) = latest now budget aborts := by omega
  simp only [settle, hend]
  exact if_pos ⟨by omega, hstops⟩

/-- A failing attempt that can take place ends at the moment of its failure and throws its error. -/
theorem settle_of_failure
    {err : ErrorFacts} (hfailure : ending.failure now = some (time, err))
    (h : (settle now budget aborts ending).isSome) :
    settle now budget aborts ending = some time ∧ ending.thrown label budget = some err := by
  cases ending with
  | unbuilt err' =>
    simp only [Ending.failure, Option.some.injEq, Prod.mk.injEq] at hfailure
    simp [settle, Ending.thrown, hfailure]
  | answered | timedOut | aborted => simp [Ending.failure] at hfailure
  | failed ms err' =>
    simp only [Ending.failure, Option.some.injEq, Prod.mk.injEq] at hfailure
    obtain ⟨ended, hended⟩ := Option.isSome_iff_exists.mp h
    have hsettle := hended
    simp only [settle, Option.ite_none_right_eq_some, Option.some.injEq] at hended
    rw [hsettle, ← hended.2, hfailure.1]
    exact ⟨rfl, congrArg some hfailure.2⟩

theorem callOnce_of_thrown {err : ErrorFacts}
    (hb : budgetFor c o now = some budget) (ht : settle now budget o.aborts ending = some time)
    (herr : ending.thrown label budget = some err) :
    callOnce c o label now ending =
      some ⟨time, [⟨now, time, budget, ending⟩], some ⟨false, err⟩⟩ := by
  simp [callOnce, hb, ht, herr]

/-- A server error that leaves room is tried again. -/
theorem callWithRetry_of_retry {one two : Tried} (hone : callOnce c o label now first = some one)
    (herr : one.error = some thrown) (hcls : classifyLlmError thrown.err = .server)
    (hguard : skipsRetry c o one.endedAt = false)
    (htwo : callOnce c o label (one.endedAt + c.retryBackoffMs) second = some two) :
    callWithRetry c o label now first second =
      some ({ two with attempts := one.attempts ++ two.attempts }, 2) := by
  simp [callWithRetry, hone, herr, isRetryableInPlace, hcls, hguard, retry, htwo]

/-- A retry that is squeezed can fail with less than the reserve left. -/
theorem exists_of_squeezed {first : Ending}
    (hfirst : ∀ budget, budgetFor c o now = some budget → (settle now budget o.aborts first).isSome)
    (h : Squeezed c o now first) :
    ∃ second out, invokeWith c o label now first second = some out ∧ ¬Law c o now out := by
  obtain ⟨deadline, time, err, hd, hfailure, hcls, hfits, hleft, hshort, hstops⟩ := h
  have hb := budgetFor_of_fits hd hfits
  obtain ⟨ht, hthrown⟩ := @settle_of_failure label _ _ _ _ _ _ hfailure (hfirst _ hb)
  have hone := callOnce_of_thrown hb ht hthrown
  have hguard : skipsRetry c o time = false := by simpa [skipsRetry, hd] using hleft
  -- the second attempt has no reserve to keep, and may last as long as it can
  have hnot : ¬c.minCallMs + c.reserve o ≤ deadline.remainingMs (time + c.retryBackoffMs) := by
    omega
  have hmin : c.minCallMs ≤ deadline.remainingMs (time + c.retryBackoffMs) := by
    simp only [Deadline.remainingMs] at hleft ⊢
    omega
  have hb' := budgetFor_of_short hd hnot hmin
  have hlatest := latest_eq (time + c.retryBackoffMs)
    (min (c.cap o) (deadline.remainingMs (time + c.retryBackoffMs))) o.aborts
  have htwo := @callOnce_of_thrown c o label _ _ _ _ _ hb' (settle_latest _ _ _) rfl
  have htried := callWithRetry_of_retry hone rfl hcls hguard htwo
  refine ⟨_, _, by rw [invokeWith, htried]; rfl, ?_⟩
  intro hlaw
  have hkept := hlaw.reserveKept deadline hd hfits (conclude_ne_answered rfl)
  simp only [conclude_endedAt] at hkept
  rcases hlatest with hlatest | ⟨stop, hmem, hlatest⟩
  · rw [hlatest] at hkept
    simp only [Deadline.remainingMs] at hkept hshort hmin
    omega
  · have hstop := hstops stop hmem
    rw [hlatest] at hkept
    simp only [Deadline.remainingMs] at hkept hshort hmin
    omega

/-! ### When the law holds -/

/-- **The law holds of every end of a call exactly when its first attempt does not squeeze the
retry.** -/
theorem law_iff_not_squeezed (c : Config) (o : Options) (label : String) (now : ℕ) (first : Ending)
    (hfirst : ∀ budget, budgetFor c o now = some budget →
      (settle now budget o.aborts first).isSome) :
    (∀ second out, invokeWith c o label now first second = some out → Law c o now out) ↔
      ¬Squeezed c o now first := by
  constructor
  · intro hlaw hsqueezed
    obtain ⟨second, out, hout, hnot⟩ := @exists_of_squeezed c o label now first hfirst hsqueezed
    exact hnot (hlaw second out hout)
  · intro hfree second out hout
    exact law_of_not_squeezed hfree hout

/-- The settings as shipped. -/
def shipped : Config := ⟨12000, 250, 7000, 1500⟩

/-- A turn that has ten seconds left. -/
def tenSeconds : Options := ⟨none, none, some ⟨10000, none⟩, none⟩

def serverError : ErrorFacts := ⟨false, "internal error", "Error", "", [500]⟩

/-- A server error at once leaves both the reserve and a call. -/
theorem law_iff_not_squeezed_at_once :
    (∀ second out, invokeWith shipped tenSeconds "google:gemini" 0 (.failed 0 serverError) second =
      some out → Law shipped tenSeconds 0 out) ↔
    ¬Squeezed shipped tenSeconds 0 (.failed 0 serverError) :=
  law_iff_not_squeezed shipped tenSeconds "google:gemini" 0 (.failed 0 serverError) (by
      intro budget hb
      have hb' : budget = 3000 := by
        have h : budgetFor shipped tenSeconds 0 = some 3000 := by decide
        exact Option.some.inj (hb.symm.trans h)
      rw [hb']
      decide)

/-- A server error after 2900 ms is tried again after the pause, with 6850 ms to spend. The retry
fails 6000 ms later, and the next provider finds 850 ms. -/
theorem retry_spends_reserve :
    ∃ out, invokeWith shipped tenSeconds "google:gemini" 0 (.failed 2900 serverError)
        (.failed 6000 serverError) = some out ∧
      out.result = .exhausted .server ∧ out.report = some .failure ∧
      shipped.minCallMs + shipped.reserve tenSeconds ≤ (Deadline.mk 10000 none).remainingMs 0 ∧
      (Deadline.mk 10000 none).remainingMs out.endedAt = 850 ∧ ¬Law shipped tenSeconds 0 out := by
  refine ⟨⟨9150, [⟨0, 2900, 3000, .failed 2900 serverError⟩,
    ⟨3150, 9150, 6850, .failed 6000 serverError⟩], 2, .exhausted .server, some .failure⟩,
    by decide +kernel, rfl, rfl, by decide, rfl, ?_⟩
  intro hlaw
  have hkept := hlaw.reserveKept ⟨10000, none⟩ rfl (by decide) (by simp)
  revert hkept
  decide

end Rabotka.Llm
