import Mathlib.Order.Nat

/-!
# Runs of a step function

A system takes one event after the other, each of which may be impossible in the state it meets.

* `run`: the state after some events.
* `Along`: each event meets a condition on the state before it.
* `inv_run`: what such events keep holds after a run of them.
* `along_of_inv`: what it tells about a step is true of each step.
-/

namespace Rabotka.Lib.Runs

variable {W E : Type*} (step : W → E → Option W) (ok : W → E → Prop)

/-- The state after some events; none if one of them cannot happen. -/
def run (w : W) : List E → Option W
  | [] => some w
  | e :: events => (step w e).bind fun w' => run w' events

/-- Each event meets the condition in the state before it. -/
def Along (w : W) : List E → Prop
  | [] => True
  | e :: events => ok w e ∧ ∀ w' ∈ step w e, Along w' events

instance Along.decidable [∀ w e, Decidable (ok w e)] :
    (events : List E) → (w : W) → Decidable (Along step ok w events)
  | [], _ => isTrue trivial
  | e :: events, w =>
    have : DecidablePred fun w' => Along step ok w' events := Along.decidable events
    inferInstanceAs (Decidable (ok w e ∧ ∀ w' ∈ step w e, Along step ok w' events))

variable {step ok} {w w' : W} {e : E} {events later : List E} {P : W → Prop}

theorem run_cons_eq_some :
    run step w (e :: events) = some w' ↔ ∃ v, step w e = some v ∧ run step v events = some w' :=
  Option.bind_eq_some_iff

/-- The rule for invariants. -/
theorem inv_run (hstep : ∀ {w e w'}, P w → ok w e → step w e = some w' → P w') (hw : P w)
    (hok : Along step ok w events) (hrun : run step w events = some w') : P w' := by
  induction events generalizing w with
  | nil => exact Option.some.inj hrun ▸ hw
  | cons e events ih =>
    obtain ⟨v, hv, hrun⟩ := run_cons_eq_some.mp hrun
    exact ih (hstep hw hok.1 hv) (hok.2 v hv) hrun

/-- What every step keeps holds after every run. -/
theorem always_run (hstep : ∀ {w e w'}, P w → step w e = some w' → P w') (hw : P w)
    (hrun : run step w events = some w') : P w' := by
  induction events generalizing w with
  | nil => exact Option.some.inj hrun ▸ hw
  | cons e events ih =>
    obtain ⟨v, hv, hrun⟩ := run_cons_eq_some.mp hrun
    exact ih (hstep hw hv) hrun

/-- What an invariant tells about each step holds along a run. -/
theorem along_of_inv {holds : W → E → Prop}
    (hstep : ∀ {w e w'}, P w → ok w e → step w e = some w' → P w')
    (hholds : ∀ {w e}, P w → ok w e → holds w e) (hw : P w) (hok : Along step ok w events) :
    Along step holds w events := by
  induction events generalizing w with
  | nil => trivial
  | cons e events ih =>
    exact ⟨hholds hw hok.1, fun v hv => ih (hstep hw hok.1 hv) (hok.2 v hv)⟩

theorem along_and {ok' : W → E → Prop} (h : Along step ok w events)
    (h' : Along step ok' w events) : Along step (fun w e => ok w e ∧ ok' w e) w events := by
  induction events generalizing w with
  | nil => trivial
  | cons e events ih => exact ⟨⟨h.1, h'.1⟩, fun v hv => ih (h.2 v hv) (h'.2 v hv)⟩

/-! ### Calls in progress -/

section Calls

variable {C : Type*} {calls : List C} {i j : ℕ} {c d : C}

/-- A call elsewhere, or the one that was changed. -/
theorem getElem?_set_cases (h : (calls.set i c)[j]? = some d) :
    (i = j ∧ d = c) ∨ (i ≠ j ∧ calls[j]? = some d) := by
  rcases eq_or_ne i j with rfl | hne
  · have hlt : i < calls.length := by
      have := (List.getElem?_eq_some_iff.mp h).1
      rwa [List.length_set] at this
    rw [List.getElem?_set_self hlt] at h
    exact Or.inl ⟨rfl, (Option.some.inj h).symm⟩
  · rw [List.getElem?_set_ne hne] at h
    exact Or.inr ⟨hne, h⟩

/-- A call that was there, or the one that came in. -/
theorem getElem?_append_cases (h : (calls ++ [c])[j]? = some d) :
    calls[j]? = some d ∨ (j = calls.length ∧ d = c) := by
  rcases lt_or_ge j calls.length with hlt | hge
  · rw [List.getElem?_append_left hlt] at h
    exact Or.inl h
  · rw [List.getElem?_append_right hge] at h
    have hzero : j - calls.length = 0 := by
      have := (List.getElem?_eq_some_iff.mp h).1
      rw [List.length_singleton] at this
      omega
    rw [hzero] at h
    exact Or.inr ⟨by omega, (Option.some.inj h).symm⟩

end Calls

end Rabotka.Lib.Runs
