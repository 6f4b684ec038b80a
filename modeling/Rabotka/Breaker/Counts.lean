import Rabotka.Breaker.Service

/-!
# Counts of failures

What one step does (`step_effect`), and what holds after each: a count that is armed in the
millisecond in which it begins stands for the latest failures since the last success, all within
one window (`Counted`); a call is about to open the breaker only after a burst; and the key of the
breaker exists exactly during the cooldown after an opening.
-/

namespace Rabotka.Breaker

open Volatile List

variable {P : Type*} [DecidableEq P] {config : Config} {w w' : World P} {e : Event P}

/-! ### Steps -/

/-- What a step does. -/
inductive Effect (config : Config) (w : World P) : Event P → World P → Prop
  | comes (e : Event P) (c : Call P) (hc : ∃ spec, c = .counting spec ∨ c = .resetting spec) :
    Effect config w e { w with calls := w.calls ++ [c] }
  | waits (ms : ℕ) : Effect config w (.wait ms) { w with now := w.now + ms }
  | counts (i : ℕ) (spec : P) (hi : w.calls[i]? = some (.counting spec)) :
    Effect config w (.command i)
      { w with
        fails := (w.fails.incr w.now spec).1
        log := .failure spec w.now :: w.log
        calls := w.calls.set i (if (w.fails.incr w.now spec).2 = 1 then .arming spec
          else afterCount config spec (w.fails.incr w.now spec).2) }
  | arms (i : ℕ) (spec : P) (hi : w.calls[i]? = some (.arming spec)) :
    Effect config w (.command i)
      { w with
        fails := expire w.fails w.now spec config.windowSeconds
        calls := w.calls.set i (afterCount config spec 1) }
  | remains (i : ℕ) (spec : P) (count : ℕ) (hi : w.calls[i]? = some (.opening spec count))
    (hopen : config.cooldownSeconds = 0 ∨ isOpen w spec = true) :
    Effect config w (.command i) { w with calls := w.calls.set i (.failureRecorded spec false) }
  | opens (i : ℕ) (spec : P) (count : ℕ) (hi : w.calls[i]? = some (.opening spec count))
    (hclosed : isOpen w spec = false) :
    Effect config w (.command i)
      { w with
        opens := w.opens.setPx w.now spec 1 config.cooldown
        log := .opened spec w.now :: w.log
        calls := w.calls.set i (.failureRecorded spec true) }
  | resets (i : ℕ) (spec : P) (hi : w.calls[i]? = some (.resetting spec)) :
    Effect config w (.command i)
      { w with
        fails := w.fails.del spec
        log := .success spec w.now :: w.log
        calls := w.calls.set i (.successRecorded spec) }
  | refuses (i : ℕ) (c c' : Call P) (hi : w.calls[i]? = some c) (hc : refused c = some c') :
    Effect config w (.refuse i) { w with calls := w.calls.set i c' }

theorem step_effect (h : step config w e = some w') : Effect config w e w' := by
  cases e with
  | recordFailure spec =>
    obtain rfl := Option.some.inj h
    exact .comes _ _ ⟨spec, Or.inl rfl⟩
  | recordSuccess spec =>
    obtain rfl := Option.some.inj h
    exact .comes _ _ ⟨spec, Or.inr rfl⟩
  | wait ms =>
    obtain rfl := Option.some.inj h
    exact .waits ms
  | refuse i =>
    obtain ⟨c', hc', rfl⟩ := Option.map_eq_some_iff.mp h
    obtain ⟨c, hi, hc⟩ := Option.bind_eq_some_iff.mp hc'
    exact .refuses i c c' hi hc
  | command i =>
    obtain ⟨x, hx, rfl⟩ := Option.map_eq_some_iff.mp h
    obtain ⟨c, hi, hc⟩ := Option.bind_eq_some_iff.mp hx
    cases c with
    | counting spec =>
      obtain rfl := Option.some.inj hc
      exact .counts i spec hi
    | arming spec =>
      obtain rfl := Option.some.inj hc
      exact .arms i spec hi
    | opening spec count =>
      rw [perform] at hc
      split_ifs at hc with hzero hopen
      · obtain rfl := Option.some.inj hc
        exact .remains i spec count hi (Or.inl hzero)
      · obtain rfl := Option.some.inj hc
        exact .remains i spec count hi (Or.inr hopen)
      · obtain rfl := Option.some.inj hc
        exact .opens i spec count hi (Bool.eq_false_iff.mpr hopen)
    | resetting spec =>
      obtain rfl := Option.some.inj hc
      exact .resets i spec hi
    | failureRecorded | successRecorded => exact nomatch hc

omit [DecidableEq P] in
/-- A call that is changed neither from nor into `c` leaves it where it was. -/
theorem mem_set_iff {calls : List (Call P)} {i : ℕ} {c from' into : Call P}
    (hi : calls[i]? = some from') (hfrom : c ≠ from') (hinto : c ≠ into) :
    c ∈ calls.set i into ↔ c ∈ calls := by
  simp only [mem_iff_getElem?]
  refine exists_congr fun j => ?_
  rcases eq_or_ne i j with rfl | hne
  · rw [getElem?_set_self (List.getElem?_eq_some_iff.mp hi).1, hi]
    exact ⟨fun h => absurd (Option.some.inj h).symm hinto,
      fun h => absurd (Option.some.inj h).symm hfrom⟩
  · rw [getElem?_set_ne hne]

omit [DecidableEq P] in
theorem mem_of_mem_set {calls : List (Call P)} {i : ℕ} {c into : Call P}
    (h : c ∈ calls.set i into) (hinto : c ≠ into) : c ∈ calls :=
  (mem_or_eq_of_mem_set h).resolve_right hinto

/-! ### Counts -/

/-- What a count stands for: the latest failures since the last success, of one window from the
first of them on. As long as it has no time to live, a call is about to give it one, and that is in
the millisecond of its first failure. -/
structure Counted (window now : ℕ) (times : List ℕ) (armed : Prop) (cell : Cell) : Prop where
  pos : 0 < cell.value
  le : cell.value ≤ times.length
  begun : ∃ first ≤ now, (∀ t ∈ times.take cell.value, first ≤ t) ∧ (armed → first = now)
    ∧ ∀ last, cell.expiresAt = some last →
      last = first + window ∧ ∀ t ∈ times.take cell.value, t ≤ last
  armed : cell.expiresAt = none → armed

section Counted

variable {window now now' : ℕ} {times : List ℕ} {armed armed' : Prop} {cell : Cell}

/-- The failures that are counted lie within one window. -/
theorem Counted.within (h : Counted window now times armed cell) (hpast : ∀ t ∈ times, t ≤ now) :
    Within window (times.take cell.value) := by
  obtain ⟨first, -, hfirst, hnow, hlast⟩ := h.begun
  intro x hx y hy
  have hy' := hfirst y hy
  cases hexpires : cell.expiresAt with
  | none =>
    have hx' := hpast x (mem_of_mem_take hx)
    have := hnow (h.armed hexpires)
    omega
  | some last =>
    obtain ⟨rfl, hle⟩ := hlast last hexpires
    exact (hle x hx).trans (Nat.add_le_add_right hy' _)

theorem Counted.congr (h : Counted window now times armed cell) (harmed : armed ↔ armed') :
    Counted window now times armed' cell := by
  obtain ⟨first, hle, hfirst, hnow, hlast⟩ := h.begun
  exact ⟨h.pos, h.le, ⟨first, hle, hfirst, fun ha => hnow (harmed.mpr ha), hlast⟩,
    fun he => harmed.mp (h.armed he)⟩

/-- Time passes once the count is armed. -/
theorem Counted.wait (h : Counted window now times armed cell) (harmed : ¬armed)
    (hle : now ≤ now') :
    Counted window now' times armed cell := by
  obtain ⟨first, hfirst, hall, -, hlast⟩ := h.begun
  exact ⟨h.pos, h.le, ⟨first, hfirst.trans hle, hall, fun ha => absurd ha harmed, hlast⟩, h.armed⟩

/-- A new count. -/
theorem Counted.one (harmed : armed) : Counted window now (now :: times) armed ⟨1, none⟩ := by
  refine ⟨Nat.one_pos, Nat.succ_le_succ (Nat.zero_le _), ⟨now, le_rfl, fun t ht => ?_, fun _ => rfl,
    fun last h => nomatch h⟩, fun _ => harmed⟩
  exact (mem_singleton.mp ht).ge

/-- One more. -/
theorem Counted.incr (h : Counted window now times armed cell) (hlive : cell.live now = true) :
    Counted window now (now :: times) armed ⟨cell.value + 1, cell.expiresAt⟩ := by
  obtain ⟨first, hle, hfirst, hnow, hlast⟩ := h.begun
  refine ⟨Nat.succ_pos _, Nat.succ_le_succ h.le, ⟨first, hle, ?_, hnow, fun last he => ?_⟩, h.armed⟩
  · intro t ht
    rcases mem_cons.mp ht with rfl | ht
    · exact hle
    · exact hfirst t ht
  · obtain ⟨heq, hall⟩ := hlast last he
    refine ⟨heq, fun t ht => ?_⟩
    rcases mem_cons.mp ht with rfl | ht
    · rw [Cell.live, he] at hlive
      exact of_decide_eq_true hlive
    · exact hall t ht

/-- A count that is to be armed exists. -/
theorem Counted.live (h : Counted window now times armed cell) (harmed : armed) :
    cell.live now = true := by
  obtain ⟨first, -, -, hnow, hlast⟩ := h.begun
  cases hexpires : cell.expiresAt with
  | none => rw [Cell.live, hexpires, Option.all_none]
  | some last =>
    rw [Cell.live, hexpires, Option.all_some, decide_eq_true_eq, (hlast last hexpires).1,
      hnow harmed]
    exact Nat.le_add_right _ _

/-- The window is armed. -/
theorem Counted.arm (h : Counted window now times armed cell) (harmed : armed)
    (hpast : ∀ t ∈ times, t ≤ now) :
    Counted window now times armed' ⟨cell.value, some (now + window)⟩ := by
  obtain ⟨first, hle, hfirst, hnow, -⟩ := h.begun
  obtain rfl := hnow harmed
  refine ⟨h.pos, h.le, ⟨first, le_rfl, hfirst, fun _ => rfl, fun last he => ?_⟩,
    fun he => nomatch he⟩
  refine ⟨(Option.some.inj he).symm, fun t ht => ?_⟩
  rw [← Option.some.inj he]
  exact (hpast t (mem_of_mem_take ht)).trans (Nat.le_add_right _ _)

end Counted

/-! ### The invariant -/

structure Inv (config : Config) (w : World P) : Prop where
  past : ∀ spec, ∀ t ∈ since spec w.log, t ≤ w.now
  counted : ∀ spec cell, w.fails spec = some cell →
    Counted config.window w.now (since spec w.log) (.arming spec ∈ w.calls) cell
  arming : ∀ spec, .arming spec ∈ w.calls → config.threshold ≤ 1 → Burst config spec w.log
  opening : ∀ spec count, .opening spec count ∈ w.calls → Burst config spec w.log
  openCell : ∀ spec cell, w.opens spec = some cell →
    ∃ time, .opened spec time ∈ w.log ∧ cell.expiresAt = some (time + config.cooldown)
  openLog : ∀ spec time, .opened spec time ∈ w.log → time + config.cooldown < w.now
    ∨ ∃ value, w.opens spec = some ⟨value, some (time + config.cooldown)⟩

variable {spec : P}

omit [DecidableEq P] in
theorem Burst.cons [DecidableEq P] {log : List (Entry P)} (x : Entry P)
    (h : Burst config spec log) : Burst config spec (x :: log) := by
  obtain ⟨later, earlier, rfl, htimes⟩ := h
  exact ⟨x :: later, earlier, rfl, htimes⟩

/-- A count that has reached the threshold is a burst. -/
theorem burst_of_counted {log : List (Entry P)} {now : ℕ} {armed : Prop} {cell : Cell}
    (h : Counted config.window now (since spec log) armed cell)
    (hpast : ∀ t ∈ since spec log, t ≤ now) (hle : config.threshold ≤ cell.value) :
    Burst config spec log := by
  refine ⟨[], log, rfl, (since spec log).take cell.value, take_sublist _ _, ?_, h.within hpast⟩
  rw [length_take]
  exact le_min hle (hle.trans h.le)

theorem inv_fresh (now : ℕ) : Inv config (World.fresh now : World P) where
  past := fun _ _ h => nomatch h
  counted := fun _ _ h => nomatch h
  arming := fun _ h => nomatch h
  opening := fun _ _ h => nomatch h
  openCell := fun _ _ h => nomatch h
  openLog := fun _ _ h => nomatch h

omit [DecidableEq P] in
/-- Only a first count arms. -/
theorem afterCount_ne_arming (spec spec' : P) (count : ℕ) :
    Call.arming spec ≠ afterCount config spec' count := by
  unfold afterCount
  split_ifs <;> exact nofun

theorem Inv.past_step (h : Inv config w) (heffect : Effect config w e w') :
    ∀ spec, ∀ t ∈ since spec w'.log, t ≤ w'.now := by
  intro spec t ht
  cases heffect with
  | comes | arms | remains | opens | refuses => exact h.past spec t ht
  | waits ms => exact (h.past spec t ht).trans (Nat.le_add_right _ _)
  | counts i spec' hi =>
    rw [since] at ht
    split_ifs at ht
    · rcases mem_cons.mp ht with rfl | ht
      · exact le_rfl
      · exact h.past spec t ht
    · exact h.past spec t ht
  | resets i spec' hi =>
    rw [since] at ht
    split_ifs at ht
    · exact nomatch ht
    · exact h.past spec t ht

omit [DecidableEq P] in
/-- A call that is refused does not arm then. -/
theorem refused_ne_arming {c c' : Call P} (h : refused c = some c') (spec : P) :
    Call.arming spec ≠ c' := by
  cases c with
  | failureRecorded | successRecorded => exact nomatch h
  | counting | arming | opening | resetting => exact Option.some.inj h ▸ nofun

variable {now seconds : ℕ}

theorem expire_of_ne {s : Store P} {spec spec' : P} (hne : spec ≠ spec') :
    expire s now spec' seconds spec = s spec := by
  unfold expire
  split_ifs
  · exact Function.update_of_ne hne _ _
  · exact Store.pexpire_of_ne hne

theorem expire_of_none {s : Store P} (h : s spec = none) :
    expire s now spec seconds spec = none := by
  unfold expire
  split_ifs
  · exact Function.update_self ..
  · rw [Store.pexpire, Store.read, h]
    exact h

/-- A key that exists after `EXPIRE` has its time to live. -/
theorem expire_of_some {s : Store P} {cell cell' : Cell}
    (h : s spec = some cell) (hlive : cell.live now = true)
    (hcell : expire s now spec seconds spec = some cell') :
    seconds ≠ 0 ∧ cell' = ⟨cell.value, some (now + 1000 * seconds)⟩ := by
  unfold expire at hcell
  split_ifs at hcell with hzero
  · rw [Store.del, Function.update_self] at hcell
    exact nomatch hcell
  · have hread : s.read now spec = some cell := by
      rw [Store.read, h, Option.filter_some, if_pos hlive]
    rw [Store.pexpire_of_some hread, Function.update_self] at hcell
    exact ⟨hzero, (Option.some.inj hcell).symm⟩

/-- The count after a failure. -/
theorem incr_cases (h : Inv config w) (spec : P) :
    (w.fails.read w.now spec = none ∧ w.fails.incr w.now spec
        = (Function.update w.fails spec (some ⟨1, none⟩), 1))
      ∨ ∃ cell, w.fails spec = some cell ∧ cell.live w.now = true ∧ 1 < cell.value + 1
        ∧ w.fails.read w.now spec = some cell
        ∧ w.fails.incr w.now spec
          = (Function.update w.fails spec (some ⟨cell.value + 1, cell.expiresAt⟩),
            cell.value + 1) := by
  cases hread : w.fails.read w.now spec with
  | none => exact Or.inl ⟨rfl, Store.incr_of_none hread⟩
  | some cell =>
    obtain ⟨hcell, hlive⟩ := Option.filter_eq_some_iff.mp hread
    exact Or.inr ⟨cell, hcell, hlive, Nat.succ_lt_succ (h.counted spec cell hcell).pos, rfl,
      Store.incr_of_some hread⟩

theorem Inv.counted_step (h : Inv config w) (hprompt : Prompt w e)
    (heffect : Effect config w e w') : ∀ spec cell, w'.fails spec = some cell →
      Counted config.window w'.now (since spec w'.log) (.arming spec ∈ w'.calls) cell := by
  intro spec cell hcell
  cases heffect with
  | comes e c hc =>
    refine (h.counted spec cell hcell).congr ?_
    obtain ⟨spec', rfl | rfl⟩ := hc <;> simp
  | waits ms =>
    refine (h.counted spec cell hcell).wait (fun hmem => ?_) (Nat.le_add_right _ _)
    obtain ⟨i, hi⟩ := mem_iff_getElem?.mp hmem
    exact hprompt i spec hi
  | counts i spec' hi =>
    dsimp only at hcell ⊢
    rw [since]
    rcases incr_cases h spec' with ⟨-, hincr⟩ | ⟨cell', hcell', hlive, hlt, -, hincr⟩
    · rw [hincr] at hcell
      dsimp only at hcell
      rw [Function.update_apply] at hcell
      rw [hincr, if_pos rfl]
      by_cases heq : spec = spec'
      · subst heq
        rw [if_pos rfl] at hcell ⊢
        obtain rfl := Option.some.inj hcell
        exact Counted.one (mem_set (List.getElem?_eq_some_iff.mp hi).1 _)
      · rw [if_neg heq] at hcell
        rw [if_neg (Ne.symm heq)]
        exact (h.counted spec cell hcell).congr (mem_set_iff hi (by simp) (by simpa)).symm
    · rw [hincr] at hcell
      dsimp only at hcell
      rw [Function.update_apply] at hcell
      rw [hincr, if_neg hlt.ne']
      have harming : .arming spec ∈ w.calls.set i (afterCount config spec' (cell'.value + 1))
          ↔ .arming spec ∈ w.calls :=
        mem_set_iff hi (by simp) (afterCount_ne_arming spec spec' _)
      by_cases heq : spec = spec'
      · subst heq
        rw [if_pos rfl] at hcell ⊢
        obtain rfl := Option.some.inj hcell
        exact ((h.counted spec cell' hcell').incr hlive).congr harming.symm
      · rw [if_neg heq] at hcell
        rw [if_neg (Ne.symm heq)]
        exact (h.counted spec cell hcell).congr harming.symm
  | arms i spec' hi =>
    by_cases heq : spec = spec'
    · subst heq
      have harming := mem_of_getElem? hi
      cases hstored : w.fails spec with
      | none => exact absurd hcell (by simp [expire_of_none hstored])
      | some cell' =>
        have hcounted := h.counted spec cell' hstored
        obtain ⟨-, rfl⟩ := expire_of_some hstored (hcounted.live harming) hcell
        exact hcounted.arm harming (h.past spec)
    · dsimp only at hcell
      rw [expire_of_ne heq] at hcell
      exact (h.counted spec cell hcell).congr
        (mem_set_iff hi (by simpa) (afterCount_ne_arming spec spec' 1)).symm
  | remains i spec' count hi hopen =>
    exact (h.counted spec cell hcell).congr (mem_set_iff hi (by simp) (by simp)).symm
  | opens i spec' count hi hclosed =>
    exact (h.counted spec cell hcell).congr (mem_set_iff hi (by simp) (by simp)).symm
  | resets i spec' hi =>
    dsimp only at hcell ⊢
    rw [Store.del, Function.update_apply] at hcell
    split_ifs at hcell with hne
    rw [since, if_neg (Ne.symm hne)]
    exact (h.counted spec cell hcell).congr (mem_set_iff hi (by simp) (by simp)).symm
  | refuses i c c' hi hc =>
    refine (h.counted spec cell hcell).congr (mem_set_iff hi ?_ (refused_ne_arming hc spec)).symm
    exact fun heq => hprompt spec (heq ▸ hi)

/-- A count that reaches the threshold is a burst. -/
theorem Inv.burst_of_incr (h : Inv config w) {i : ℕ} (hi : w.calls[i]? = some (.counting spec))
    (hle : config.threshold ≤ (w.fails.incr w.now spec).2) :
    Burst config spec (.failure spec w.now :: w.log) := by
  have heffect := @Effect.counts P _ config w i spec hi
  have hvalue : (w.fails.incr w.now spec).1 spec
      = some ⟨(w.fails.incr w.now spec).2, ((w.fails.incr w.now spec).1 spec).bind Cell.expiresAt⟩
      := by
    rcases incr_cases h spec with ⟨-, hincr⟩ | ⟨cell, -, -, -, -, hincr⟩ <;> simp [hincr]
  exact burst_of_counted (h.counted_step (e := .command i) trivial heffect spec _ hvalue)
    (h.past_step heffect spec) hle

omit [DecidableEq P] in
theorem afterCount_eq_opening {spec spec' : P} {count count' : ℕ}
    (h : Call.opening spec count' = afterCount config spec' count) :
    spec = spec' ∧ config.threshold ≤ count := by
  unfold afterCount at h
  split_ifs at h with hlt
  exact ⟨(Call.opening.inj h).1, not_lt.mp hlt⟩

theorem Inv.arming_step (h : Inv config w) (heffect : Effect config w e w') :
    ∀ spec, .arming spec ∈ w'.calls → config.threshold ≤ 1 → Burst config spec w'.log := by
  intro spec hmem hle
  cases heffect with
  | comes e c hc =>
    rcases mem_append.mp hmem with hmem | hmem
    · exact h.arming spec hmem hle
    · obtain ⟨spec', rfl | rfl⟩ := hc <;> simp at hmem
  | waits ms => exact h.arming spec hmem hle
  | counts i spec' hi =>
    rcases mem_or_eq_of_mem_set hmem with hmem | heq
    · exact (h.arming spec hmem hle).cons _
    · split_ifs at heq with hone
      · obtain rfl := Call.arming.inj heq
        exact h.burst_of_incr hi (hone ▸ hle)
      · exact absurd heq (afterCount_ne_arming _ _ _)
  | arms i spec' hi =>
    exact h.arming spec (mem_of_mem_set hmem (afterCount_ne_arming _ _ _)) hle
  | remains i spec' count hi hopen =>
    exact h.arming spec (mem_of_mem_set hmem (by simp)) hle
  | opens i spec' count hi hclosed =>
    exact (h.arming spec (mem_of_mem_set hmem (by simp)) hle).cons _
  | resets i spec' hi => exact (h.arming spec (mem_of_mem_set hmem (by simp)) hle).cons _
  | refuses i c c' hi hc =>
    exact h.arming spec (mem_of_mem_set hmem (refused_ne_arming hc spec)) hle

omit [DecidableEq P] in
theorem refused_ne_opening {c c' : Call P} (h : refused c = some c') (spec : P) (count : ℕ) :
    Call.opening spec count ≠ c' := by
  cases c with
  | failureRecorded | successRecorded => exact nomatch h
  | counting | arming | opening | resetting => exact Option.some.inj h ▸ nofun

theorem Inv.opening_step (h : Inv config w) (heffect : Effect config w e w') :
    ∀ spec count, .opening spec count ∈ w'.calls → Burst config spec w'.log := by
  intro spec count hmem
  cases heffect with
  | comes e c hc =>
    rcases mem_append.mp hmem with hmem | hmem
    · exact h.opening spec count hmem
    · obtain ⟨spec', rfl | rfl⟩ := hc <;> simp at hmem
  | waits ms => exact h.opening spec count hmem
  | counts i spec' hi =>
    rcases mem_or_eq_of_mem_set hmem with hmem | heq
    · exact (h.opening spec count hmem).cons _
    · split_ifs at heq with hone
      obtain ⟨rfl, hle⟩ := afterCount_eq_opening heq
      exact h.burst_of_incr hi hle
  | arms i spec' hi =>
    rcases mem_or_eq_of_mem_set hmem with hmem | heq
    · exact h.opening spec count hmem
    · obtain ⟨rfl, hle⟩ := afterCount_eq_opening heq
      exact h.arming spec (mem_of_getElem? hi) hle
  | remains i spec' count' hi hopen =>
    exact h.opening spec count (mem_of_mem_set hmem (by simp))
  | opens i spec' count' hi hclosed =>
    exact (h.opening spec count (mem_of_mem_set hmem (by simp))).cons _
  | resets i spec' hi => exact (h.opening spec count (mem_of_mem_set hmem (by simp))).cons _
  | refuses i c c' hi hc =>
    exact h.opening spec count (mem_of_mem_set hmem (refused_ne_opening hc spec count))

theorem Inv.openCell_step (h : Inv config w) (heffect : Effect config w e w') :
    ∀ spec cell, w'.opens spec = some cell →
      ∃ time, .opened spec time ∈ w'.log ∧ cell.expiresAt = some (time + config.cooldown) := by
  intro spec cell hcell
  cases heffect with
  | comes | waits | arms | remains | refuses => exact h.openCell spec cell hcell
  | counts | resets =>
    obtain ⟨time, hmem, hexpires⟩ := h.openCell spec cell hcell
    exact ⟨time, mem_cons_of_mem _ hmem, hexpires⟩
  | opens i spec' count hi hclosed =>
    dsimp only at hcell ⊢
    by_cases heq : spec = spec'
    · subst heq
      rw [Store.setPx, Function.update_self] at hcell
      obtain rfl := Option.some.inj hcell
      exact ⟨w.now, mem_cons_self, rfl⟩
    · rw [Store.setPx_of_ne heq] at hcell
      obtain ⟨time, hmem, hexpires⟩ := h.openCell spec cell hcell
      exact ⟨time, mem_cons_of_mem _ hmem, hexpires⟩

/-- The breaker is open for the cooldown after an opening. -/
theorem Inv.openForCooldown (h : Inv config w) : OpenForCooldown config w := by
  intro spec
  rw [isOpen, Option.isSome_iff_exists]
  constructor
  · rintro ⟨cell, hread⟩
    obtain ⟨hcell, hlive⟩ := Option.filter_eq_some_iff.mp hread
    obtain ⟨time, hmem, hexpires⟩ := h.openCell spec cell hcell
    rw [Cell.live, hexpires] at hlive
    exact ⟨time, hmem, of_decide_eq_true hlive⟩
  · rintro ⟨time, hmem, hle⟩
    rcases h.openLog spec time hmem with hlt | ⟨value, hcell⟩
    · exact absurd hlt (not_lt.mpr hle)
    · exact ⟨_, Store.read_of_le hcell hle⟩

theorem Inv.openLog_step (h : Inv config w) (heffect : Effect config w e w') :
    ∀ spec time, .opened spec time ∈ w'.log → time + config.cooldown < w'.now
      ∨ ∃ value, w'.opens spec = some ⟨value, some (time + config.cooldown)⟩ := by
  intro spec time hmem
  cases heffect with
  | comes | arms | remains | refuses => exact h.openLog spec time hmem
  | waits ms =>
    exact (h.openLog spec time hmem).imp_left fun hlt => hlt.trans_le (Nat.le_add_right _ _)
  | counts | resets => exact h.openLog spec time ((mem_cons.mp hmem).resolve_left (by simp))
  | opens i spec' count hi hclosed =>
    dsimp only at hmem ⊢
    by_cases heq : spec = spec'
    · subst heq
      rcases mem_cons.mp hmem with heq | hmem
      · obtain ⟨-, rfl⟩ := Entry.opened.inj heq
        exact Or.inr ⟨1, by rw [Store.setPx, Function.update_self]⟩
      · -- The breaker was closed, so an earlier opening is past its cooldown.
        left
        by_contra hnot
        have hopen := (h.openForCooldown spec).mpr ⟨time, hmem, not_lt.mp hnot⟩
        rw [hclosed] at hopen
        cases hopen
    · rw [Store.setPx_of_ne heq]
      refine h.openLog spec time (mem_of_ne_of_mem (fun hopened => heq ?_) hmem)
      exact (Entry.opened.inj hopened).1

/-- One step. -/
theorem Inv.step (h : Inv config w) (hprompt : Prompt w e) (hstep : step config w e = some w') :
    Inv config w' :=
  have heffect := step_effect hstep
  ⟨h.past_step heffect, h.counted_step hprompt heffect, h.arming_step heffect,
    h.opening_step heffect, h.openCell_step heffect, h.openLog_step heffect⟩

end Rabotka.Breaker
