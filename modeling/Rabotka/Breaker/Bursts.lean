import Rabotka.Breaker.Counts

/-!
# Bursts and openings

A count that is armed in the millisecond in which it begins holds failures of one window, so a
breaker opens for bursts only, and stays open for the cooldown. That a burst always opens it needs
more: a count which begins within a window of earlier failures forgets them
(`opens_for_bursts`).
-/

namespace Rabotka.Breaker

open Volatile Lib.Runs List

variable {P : Type*} [DecidableEq P] {config : Config} {w w' : World P} {e : Event P}

/-! ### Openings -/

variable {spec : P}

/-- A step that neither opens nor logs an opening says nothing about bursts. -/
theorem opensForBurst_of_not (hopen : isOpen w' spec = true → isOpen w spec = true)
    (hlog : w'.log ≠ .opened spec w.now :: w.log) :
    ((isOpen w spec = false ∧ isOpen w' spec = true) ↔ w'.log = .opened spec w.now :: w.log)
      ∧ (isOpen w spec = false → isOpen w' spec = true → Burst config spec w.log) := by
  refine ⟨⟨fun h => ?_, fun h => absurd h hlog⟩, fun hclosed h => ?_⟩
  · exact nomatch h.1.symm.trans (hopen h.2)
  · exact nomatch hclosed.symm.trans (hopen h)

omit [DecidableEq P] in
/-- The breaker does not open because time passes. -/
theorem isOpen_of_wait {ms : ℕ}
    (h : isOpen { w with now := w.now + ms } spec = true) : isOpen w spec = true := by
  rw [isOpen, Option.isSome_iff_exists] at h ⊢
  obtain ⟨cell, hread⟩ := h
  obtain ⟨hcell, hlive⟩ := Option.filter_eq_some_iff.mp hread
  refine ⟨cell, Option.filter_eq_some_iff.mpr ⟨hcell, ?_⟩⟩
  rw [Cell.live, Option.all_eq_true] at hlive ⊢
  exact fun t ht => decide_eq_true ((Nat.le_add_right _ _).trans (of_decide_eq_true (hlive t ht)))

theorem isOpen_setPx {opens : Store P} {now : ℕ} {ms : ℕ} :
    ((opens.setPx now spec 1 ms).read now spec).isSome = true := by
  rw [Store.setPx, Store.read_of_le (Function.update_self ..) (Nat.le_add_right _ _),
    Option.isSome_some]

theorem Inv.opensForBurst (h : Inv config w) : OpensForBurst config w e := by
  intro spec w' hw'
  have hcons : ∀ x : Entry P, w.log ≠ x :: w.log := fun x hx => by
    simpa using congrArg List.length hx
  cases step_effect hw' with
  | comes | arms | remains | refuses => exact opensForBurst_of_not id (hcons _)
  | waits ms => exact opensForBurst_of_not isOpen_of_wait (hcons _)
  | counts | resets => exact opensForBurst_of_not id (by simp)
  | opens i spec' count hi hclosed =>
    by_cases heq : spec = spec'
    · subst heq
      exact ⟨iff_of_true ⟨hclosed, isOpen_setPx⟩ rfl,
        fun _ _ => h.opening spec count (mem_of_getElem? hi)⟩
    · refine opensForBurst_of_not (fun hopen => ?_) fun hlog => ?_
      · rwa [isOpen, Store.read_congr (Store.setPx_of_ne heq)] at hopen
      · exact heq (Entry.opened.inj (List.cons.inj hlog).1).1.symm

/-! ### What is forgotten -/

/-- Every failure since the last success that is not counted came more than a window before those
that are. -/
def Gap (config : Config) (w : World P) : Prop :=
  ∀ spec, (w.fails spec = none → since spec w.log = [])
    ∧ ∀ cell, w.fails spec = some cell → ∀ t ∈ (since spec w.log).drop cell.value,
      ∀ t' ∈ (since spec w.log).take cell.value, t + config.window < t'

theorem expire_eq_none {s : Store P} {now seconds : ℕ} (hseconds : seconds ≠ 0)
    (h : expire s now spec seconds spec = none) : s spec = none := by
  rw [expire, if_neg hseconds, Store.pexpire] at h
  cases hread : s.read now spec with
  | none =>
    rw [hread] at h
    exact h
  | some cell =>
    rw [hread] at h
    dsimp only at h
    rw [Function.update_self] at h
    cases h

theorem Gap.step (h : Gap config w) (hinv : Inv config w) (hwindow : 0 < config.windowSeconds)
    (hspread : Spread config w e) (hstep : step config w e = some w') : Gap config w' := by
  intro spec
  cases step_effect hstep with
  | comes | waits | remains | opens | refuses => exact h spec
  | counts i spec' hi =>
    dsimp only
    rw [since]
    by_cases heq : spec = spec'
    · subst heq
      rw [if_pos rfl]
      rcases incr_cases hinv spec with ⟨hread, hincr⟩ | ⟨cell, hcell, -, -, -, hincr⟩
      · rw [hincr]
        dsimp only
        rw [Function.update_self]
        refine ⟨(by simp), fun cell hcell t ht t' ht' => ?_⟩
        obtain rfl := Option.some.inj hcell
        obtain rfl := mem_singleton.mp ht'
        exact hspread spec hi hread t ht
      · rw [hincr]
        dsimp only
        rw [Function.update_self]
        refine ⟨(by simp), fun cell' hcell' t ht t' ht' => ?_⟩
        obtain rfl := Option.some.inj hcell'
        have hgap := (h spec).2 cell hcell t ht
        rcases mem_cons.mp ht' with rfl | ht'
        · -- The count is not empty, and what it counts is past.
          have hcounted := hinv.counted spec cell hcell
          have hne : (since spec w.log).take cell.value ≠ [] := by
            have := hcounted.pos
            have := hcounted.le
            rw [ne_eq, ← length_eq_zero_iff, length_take]
            omega
          obtain ⟨t₀, ht₀⟩ := exists_mem_of_ne_nil _ hne
          exact (hgap t₀ ht₀).trans_le (hinv.past spec t₀ (mem_of_mem_take ht₀))
        · exact hgap t' ht'
    · rw [if_neg (Ne.symm heq), Store.incr_of_ne heq]
      exact h spec
  | arms i spec' hi =>
    dsimp only
    by_cases heq : spec = spec'
    · subst heq
      refine ⟨fun hnone => (h spec).1 (expire_eq_none hwindow.ne' hnone), fun cell hcell => ?_⟩
      cases hstored : w.fails spec with
      | none => exact absurd hcell (by simp [expire_of_none hstored])
      | some cell' =>
        have hlive := (hinv.counted spec cell' hstored).live (mem_of_getElem? hi)
        obtain ⟨-, rfl⟩ := expire_of_some hstored hlive hcell
        exact (h spec).2 cell' hstored
    · rw [expire_of_ne heq]
      exact h spec
  | resets i spec' hi =>
    dsimp only
    rw [since, Store.del]
    by_cases heq : spec = spec'
    · subst heq
      rw [if_pos rfl, Function.update_self]
      exact ⟨fun _ => rfl, (by simp)⟩
    · rw [if_neg (Ne.symm heq), Function.update_of_ne heq]
      exact h spec

/-- A failure is counted with all those of its window. -/
theorem Gap.length_le (h : Gap config w) {cell : Cell} {times : List ℕ} {newest : ℕ}
    (hcell : w.fails spec = some cell) (hnewest : newest ∈ (since spec w.log).take cell.value)
    (htimes : times.Sublist (since spec w.log))
    (hwithin : ∀ t ∈ times, newest ≤ t + config.window) :
    times.length ≤ cell.value := by
  have hdropped : ((since spec w.log).drop cell.value).filter
      (fun t => newest ≤ t + config.window) = [] := by
    rw [filter_eq_nil_iff]
    intro t ht hle
    exact absurd (of_decide_eq_true hle) (not_le.mpr ((h spec).2 cell hcell t ht newest hnewest))
  calc times.length
      = (times.filter fun t => newest ≤ t + config.window).length := by
        rw [filter_eq_self.mpr fun t ht => decide_eq_true (hwithin t ht)]
    _ ≤ ((since spec w.log).filter fun t => newest ≤ t + config.window).length :=
        (htimes.filter _).length_le
    _ = (((since spec w.log).take cell.value).filter
          fun t => newest ≤ t + config.window).length := by
        conv_lhs => rw [← take_append_drop cell.value (since spec w.log), filter_append,
          hdropped, append_nil]
    _ ≤ ((since spec w.log).take cell.value).length := length_filter_le _ _
    _ ≤ cell.value := length_take_le _ _

theorem step_command {i : ℕ} {c : Call P} {x : World P × Call P} (hi : w.calls[i]? = some c)
    (hperform : perform config w c = some x) :
    step config w (.command i) = some { x.1 with calls := w.calls.set i x.2 } := by
  rw [step, hi, Option.bind_some, hperform, Option.map_some]

/-- A call that is about to open leaves the breaker open. -/
theorem open_after_opening {i count : ℕ} (hcooldown : config.cooldownSeconds ≠ 0)
    (hi : w.calls[i]? = some (.opening spec count)) :
    ∃ w', step config w (.command i) = some w' ∧ isOpen w' spec = true := by
  by_cases hopen : (w.opens.read w.now spec).isSome
  · have hremains : perform config w (.opening spec count)
        = some (w, .failureRecorded spec false) := (if_neg hcooldown).trans (if_pos hopen)
    exact ⟨_, step_command hi hremains, hopen⟩
  · refine ⟨_, step_command hi ((if_neg hcooldown).trans (if_neg hopen)), ?_⟩
    exact isOpen_setPx

/-- A call whose count has reached the threshold leaves the breaker open. -/
theorem open_after_count {i count : ℕ} (hcooldown : config.cooldownSeconds ≠ 0)
    (hle : config.threshold ≤ count)
    (hi : w.calls[i]? = some (if count = 1 then .arming spec else afterCount config spec count)) :
    ∃ k, ∃ w' : World P,
      run (step config) w (replicate k (.command i)) = some w' ∧ isOpen w' spec = true := by
  have hafter : ∀ n, config.threshold ≤ n → afterCount config spec n = .opening spec n :=
    fun n hn => if_neg (not_lt.mpr hn)
  split_ifs at hi with hone
  · subst hone
    have harm := @step_command P _ config w _ _ _ hi rfl
    rw [hafter 1 hle] at harm
    have hset : (w.calls.set i (.opening spec 1))[i]? = some (.opening spec 1) :=
      getElem?_set_self (List.getElem?_eq_some_iff.mp hi).1
    obtain ⟨w', hstep, hopen⟩ := open_after_opening
      (w := { w with
        fails := expire w.fails w.now spec config.windowSeconds
        calls := w.calls.set i (.opening spec 1) }) hcooldown hset
    exact ⟨2, w', run_cons_eq_some.mpr ⟨_, harm, run_cons_eq_some.mpr ⟨w', hstep, rfl⟩⟩, hopen⟩
  · rw [hafter count hle] at hi
    obtain ⟨w', hstep, hopen⟩ := open_after_opening hcooldown hi
    exact ⟨1, w', run_cons_eq_some.mpr ⟨w', hstep, rfl⟩, hopen⟩

/-- A burst opens the breaker, when nothing of it was forgotten. -/
theorem Gap.burstOpens (h : Gap config w) (hinv : Inv config w)
    (hwindow : 0 < config.windowSeconds) (hcooldown : 0 < config.cooldownSeconds)
    (hprompt : Prompt w e) (hspread : Spread config w e) : BurstOpens config w e := by
  cases e with
  | recordFailure | recordSuccess | wait | refuse => trivial
  | command i =>
    rintro spec hi ⟨times, htimes, hthreshold, hwithin⟩ w' hw'
    have hgap := h.step hinv hwindow hspread hw'
    have heffect := @Effect.counts P _ config w i spec hi
    have hstep := @step_command P _ config w _ _ _ hi rfl
    obtain rfl := Option.some.inj (hw'.symm.trans hstep)
    have hset := getElem?_set_self (a := if (w.fails.incr w.now spec).2 = 1 then .arming spec
      else afterCount config spec (w.fails.incr w.now spec).2) (List.getElem?_eq_some_iff.mp hi).1
    refine open_after_count hcooldown.ne' ?_ hset
    obtain ⟨cell, hcell, hvalue⟩ : ∃ cell, (w.fails.incr w.now spec).1 spec = some cell
        ∧ (w.fails.incr w.now spec).2 = cell.value := by
      rcases incr_cases hinv spec with ⟨-, hincr⟩ | ⟨cell, -, -, -, -, hincr⟩ <;> simp [hincr]
    have hsince : since spec (.failure spec w.now :: w.log) = w.now :: since spec w.log :=
      if_pos rfl
    have hnewest : w.now ∈ (w.now :: since spec w.log).take cell.value := by
      obtain ⟨n, hn⟩ := Nat.exists_eq_succ_of_ne_zero
        (hinv.counted_step hprompt heffect spec cell hcell).pos.ne'
      rw [hn, take_succ_cons]
      exact mem_cons_self
    have hle : (w.now :: times).length ≤ cell.value := by
      refine hgap.length_le hcell (hsince ▸ hnewest) (hsince ▸ htimes.cons_cons w.now) ?_
      exact hwithin w.now mem_cons_self
    rw [hvalue]
    exact hthreshold.trans hle

/-! ### Runs -/

end Rabotka.Breaker
