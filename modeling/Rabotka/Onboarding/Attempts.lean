import Rabotka.Lib.Runs

/-!
# How far a sign-up got

The row that is kept of one contact's sign-up, and the calls that record it. Each call reads the row
and writes it in a later step; nobody waits for the calls, so that any other may write between the
two. `codeSent` creates the row, starts it over if it read it completed, and counts another code
otherwise; a report moves the stage on if it is further than the one it read. Names, the notes of
the team and the times of the start and of the last activity are left out.

* `furthest_recorded`: the row tells the truth, and its stage never moves backwards, in every run
  whose reports find a row and compare with the stage read as they would with the one stored.
* `nothing_invented`: what the row never claims, whatever the order of the calls.
* `report_moves_back`: two screens reported at once, the earlier one written last.
-/

namespace Rabotka.Onboarding

open Lib.Runs

/-- Each stage is a screen further than the one before it. -/
inductive OnboardingStage
  | codeSent
  | phoneVerified
  | documents
  | confirmation
  | completed
  deriving DecidableEq

/-- The place in `STAGE_ORDER`. -/
def OnboardingStage.order : OnboardingStage → ℕ
  | .codeSent => 0
  | .phoneVerified => 1
  | .documents => 2
  | .confirmation => 3
  | .completed => 4

def isFurther (next current : OnboardingStage) : Bool := current.order < next.order

structure OnboardingAttempt where
  stage : OnboardingStage := .codeSent
  codeSends : ℕ := 1
  phoneVerifiedAt : Option ℕ := none
  completedAt : Option ℕ := none
  profileId : Option ℕ := none

/-- The stages the app reports itself. -/
inductive ReportableStage
  | documents
  | confirmation

/-- `phoneVerified`, `reached` and `completed`. -/
inductive Report
  | phoneVerified (now : ℕ)
  | reached (stage : ReportableStage)
  | completed (profileId now : ℕ)

def Report.stage : Report → OnboardingStage
  | .phoneVerified _ => .phoneVerified
  | .reached .documents => .documents
  | .reached .confirmation => .confirmation
  | .completed _ _ => .completed

/-- What a report writes beside the stage. -/
def Report.data (a : OnboardingAttempt) : Report → OnboardingAttempt
  | .phoneVerified now => { a with phoneVerifiedAt := some now }
  | .reached _ => a
  | .completed profileId now => { a with completedAt := some now, profileId := some profileId }

/-- The write of `advance` after it read the stage `existing`. -/
def OnboardingAttempt.advance (a : OnboardingAttempt) (r : Report) (existing : OnboardingStage) :
    OnboardingAttempt :=
  if isFurther r.stage existing then { r.data a with stage := r.stage } else r.data a

/-- The update of `codeSent`: a completed attempt starts over. -/
def OnboardingAttempt.codeSent (a : OnboardingAttempt) (existing : Option OnboardingStage) :
    OnboardingAttempt :=
  if existing = some .completed then {} else { a with codeSends := a.codeSends + 1 }

/-- A call between its steps. -/
inductive Call
  | sending (existing : Option OnboardingStage)
  /-- Another call created the row first. -/
  | colliding
  | advancing (report : Report) (existing : OnboardingStage)
  | done

/-- The row and the calls. Beside them, which no call reads: the stages reported and the codes sent
since the attempt started or started over. -/
structure World where
  row : Option OnboardingAttempt := none
  calls : List Call := []
  reported : List OnboardingStage := []
  sent : ℕ := 0

inductive Event
  /-- A call reads. -/
  | codeSent
  | report (report : Report)
  /-- The call at `i` writes. -/
  | write (i : ℕ)

/-- A code was sent, as the call that read `existing` writes it. -/
def World.send (w : World) (i : ℕ) (a : OnboardingAttempt) (existing : Option OnboardingStage) :
    World where
  row := some (a.codeSent existing)
  calls := w.calls.set i .done
  reported := if existing = some .completed then [] else w.reported
  sent := if existing = some .completed then 1 else w.sent + 1

def World.write (w : World) (i : ℕ) : Call → World
  | .sending none => match w.row with
    | none => { w with row := some {}, calls := w.calls.set i .done, sent := w.sent + 1 }
    | some _ => { w with calls := w.calls.set i .colliding }
  | .sending (some existing) => match w.row with
    | none => w
    | some a => w.send i a (some existing)
  | .colliding => match w.row with
    | none => w
    | some a => w.send i a none
  | .advancing r existing => match w.row with
    | none => w
    | some a => { w with
        row := some (a.advance r existing)
        calls := w.calls.set i .done
        reported := r.stage :: w.reported }
  | .done => w

def step (w : World) : Event → Option World
  | .codeSent => some { w with calls := w.calls ++ [.sending (w.row.map OnboardingAttempt.stage)] }
  | .report r => match w.row with
    | none => some { w with reported := r.stage :: w.reported }
    | some a => some { w with calls := w.calls ++ [.advancing r a.stage] }
  | .write i => (w.calls[i]?).map (w.write i)

/-! ### The furthest stage -/

/-- The place of the furthest of some stages. -/
def furthest (stages : List OnboardingStage) : ℕ := (stages.map OnboardingStage.order).foldr max 0

/-- An attempt is as far as was reported, with as many codes as were sent. -/
structure OnboardingAttempt.Records (a : OnboardingAttempt) (reported : List OnboardingStage)
    (sent : ℕ) : Prop where
  stage : a.stage.order = furthest reported
  codeSends : a.codeSends = sent
  completedAt : a.completedAt.isSome = true ↔ a.stage = .completed
  profileId : a.profileId.isSome = true ↔ a.stage = .completed

/-- The row, if there is one, is what was reported and sent. -/
def Recorded (w : World) : Prop :=
  match w.row with
  | none => w.reported = [] ∧ w.sent = 0
  | some a => a.Records w.reported w.sent

/-- A step leaves the stage where it is, or moves it on, or starts the attempt over. -/
def Forward (w : World) (e : Event) : Prop :=
  (∃ i, e = .write i ∧ w.calls[i]? = some (.sending (some .completed)))
    ∨ ∀ w' ∈ step w e, ∀ a ∈ w.row, ∀ a' ∈ w'.row, a.stage.order ≤ a'.stage.order

/-- A report finds a row; it is written as further than the stage it read only if it is not behind
the one stored, and as no further only if it is not ahead of it. -/
def Current (w : World) : Event → Prop
  | .codeSent => True
  | .report _ => w.row ≠ none
  | .write i => ∀ r existing, w.calls[i]? = some (.advancing r existing) → ∀ a ∈ w.row,
      if isFurther r.stage existing then ¬isFurther a.stage r.stage
      else ¬isFurther r.stage a.stage

variable {w w' : World} {a : OnboardingAttempt} {r : Report} {existing : OnboardingStage}

theorem eq_completed_iff {s : OnboardingStage} : s = .completed ↔ 4 ≤ s.order := by
  cases s <;> decide

theorem stage_data : (r.data a).stage = a.stage := by
  cases r <;> rfl

theorem order_advance (h : if isFurther r.stage existing then ¬isFurther a.stage r.stage
      else ¬isFurther r.stage a.stage) :
    (a.advance r existing).stage.order = max r.stage.order a.stage.order := by
  unfold OnboardingAttempt.advance
  split_ifs at h ⊢ with hfurther
  · rw [isFurther, decide_eq_true_eq, not_lt] at h
    exact (max_eq_left h).symm
  · rw [isFurther, decide_eq_true_eq, not_lt] at h
    rw [stage_data, max_eq_right h]

theorem isSome_data : ((r.data a).completedAt.isSome = true
      ↔ r.stage = .completed ∨ a.completedAt.isSome = true)
    ∧ ((r.data a).profileId.isSome = true ↔ r.stage = .completed ∨ a.profileId.isSome = true) := by
  rcases r with _ | ⟨_ | _⟩ | _ <;> simp [Report.data, Report.stage]

/-- A report sets what belongs to a completed attempt exactly when the attempt becomes one. -/
theorem completed_advance
    (hstage : (a.advance r existing).stage.order = max r.stage.order a.stage.order)
    (hcompleted : a.completedAt.isSome = true ↔ a.stage = .completed)
    (hprofile : a.profileId.isSome = true ↔ a.stage = .completed) :
    ((a.advance r existing).completedAt.isSome = true ↔ (a.advance r existing).stage = .completed)
      ∧ ((a.advance r existing).profileId.isSome = true
        ↔ (a.advance r existing).stage = .completed) := by
  have hdata : (a.advance r existing).completedAt = (r.data a).completedAt
      ∧ (a.advance r existing).profileId = (r.data a).profileId := by
    unfold OnboardingAttempt.advance
    split_ifs <;> exact ⟨rfl, rfl⟩
  have hiff : r.stage = .completed ∨ a.stage = .completed
      ↔ (a.advance r existing).stage = .completed := by
    simp only [eq_completed_iff, hstage]
    omega
  rw [hdata.1, hdata.2, isSome_data.1, isSome_data.2, hcompleted, hprofile]
  exact ⟨hiff, hiff⟩

theorem codeSends_advance : (a.advance r existing).codeSends = a.codeSends := by
  unfold OnboardingAttempt.advance
  cases r <;> split_ifs <;> rfl

/-- A code sent starts the row over, or counts. -/
theorem Recorded.send (h : a.Records w.reported w.sent) (i : ℕ)
    (existing : Option OnboardingStage) : Recorded (w.send i a existing) := by
  unfold World.send OnboardingAttempt.codeSent
  split_ifs
  · exact ⟨rfl, rfl, by decide, by decide⟩
  · exact ⟨h.stage, congrArg (· + 1) h.codeSends, h.completedAt, h.profileId⟩

theorem recorded_step {e : Event} (h : Recorded w) (hok : Current w e)
    (hstep : step w e = some w') : Recorded w' := by
  cases e with
  | codeSent =>
    cases hstep
    exact h
  | report r =>
    obtain ⟨_ | a, calls, reported, sent⟩ := w
    · exact absurd rfl hok
    · cases hstep
      exact h
  | write i =>
    obtain ⟨c, hc, rfl⟩ := Option.map_eq_some_iff.mp hstep
    obtain ⟨_ | a, calls, reported, sent⟩ := w
    · rcases c with (_ | existing) | _ | ⟨r, existing⟩ | _
      · obtain ⟨rfl, rfl⟩ : reported = [] ∧ sent = 0 := h
        exact ⟨rfl, rfl, by decide, by decide⟩
      all_goals exact h
    · rcases c with (_ | existing) | _ | ⟨r, existing⟩ | _
      · exact h
      · exact .send h i _
      · exact .send h i _
      · have hstage := order_advance (hok r existing hc a rfl)
        have hcompleted := completed_advance hstage h.completedAt h.profileId
        exact ⟨hstage.trans (by rw [h.stage]; rfl), codeSends_advance.trans h.codeSends,
          hcompleted.1, hcompleted.2⟩
      · exact h

theorem forward_step {e : Event} (hok : Current w e) : Forward w e := by
  by_cases hrestart : ∃ i, e = .write i ∧ w.calls[i]? = some (.sending (some .completed))
  · exact Or.inl hrestart
  refine Or.inr fun w' hstep a ha a' ha' => ?_
  obtain ⟨row, calls, reported, sent⟩ := w
  cases ha
  cases e with
  | codeSent | report =>
    cases hstep
    cases ha'
    exact le_rfl
  | write i =>
    obtain ⟨c, hc, rfl⟩ := Option.map_eq_some_iff.mp hstep
    rcases c with (_ | existing) | _ | ⟨r, existing⟩ | _ <;> cases ha'
    · exact le_rfl
    · have hne : some existing ≠ some OnboardingStage.completed := fun h =>
        hrestart ⟨i, rfl, h ▸ hc⟩
      rw [OnboardingAttempt.codeSent, if_neg hne]
    · exact le_rfl
    · rw [order_advance (hok r existing hc a rfl)]
      exact le_max_right _ _
    · exact le_rfl

/-- **The row of a sign-up tells how far it got**: its stage is the furthest reported and never moves
backwards, in every run whose reports are current. -/
theorem furthest_recorded {events : List Event} (hcurrent : Along step Current {} events) :
    Along step Forward {} events ∧ ∀ w ∈ run step {} events, Recorded w := by
  have hstart : Recorded {} := ⟨rfl, rfl⟩
  exact ⟨along_of_inv (P := fun _ => True) (fun _ _ _ => trivial) (fun _ hok => forward_step hok)
    trivial hcurrent, fun _ hrun => inv_run recorded_step hstart hcurrent hrun⟩

/-- A code is sent and the account is made. -/
theorem sign_up_recorded :
    Along step Forward {} [.codeSent, .write 0, .report (.completed 7 4), .write 1]
      ∧ ∀ w ∈ run step {} [.codeSent, .write 0, .report (.completed 7 4), .write 1], Recorded w := by
  refine furthest_recorded ⟨trivial, fun w hw => ?_⟩
  cases hw
  refine ⟨fun _ _ h => (by cases h), fun w hw => ?_⟩
  cases hw
  refine ⟨fun h => (by cases h), fun w hw => ?_⟩
  cases hw
  refine ⟨fun _ _ h _ ha => ?_, fun _ _ => trivial⟩
  cases h
  cases ha
  decide

/-- Both screens are reported after the code was sent, and the earlier one is written last. -/
theorem report_moves_back : ∃ w ∈ run step {} [.codeSent, .write 0, .report (.reached .documents),
    .report (.reached .confirmation), .write 2, .write 1], ¬Recorded w :=
  ⟨_, rfl, fun h => absurd h.stage (by decide)⟩

/-! ### Without a condition -/

/-- An attempt is no further than was reported and has as many codes as were sent; a completed one
knows its account, and the account and the time are known together. -/
structure OnboardingAttempt.Sound (a : OnboardingAttempt) (reported : List OnboardingStage)
    (sent : ℕ) : Prop where
  stage : a.stage.order ≤ furthest reported
  codeSends : a.codeSends = sent
  completed : a.stage = .completed → a.completedAt.isSome = true
  together : a.completedAt.isSome = a.profileId.isSome

/-- The row, if there is one, is sound. -/
def Sound (w : World) : Prop :=
  match w.row with
  | none => w.sent = 0
  | some a => a.Sound w.reported w.sent

theorem OnboardingAttempt.Sound.advance {reported : List OnboardingStage} {sent : ℕ}
    (h : a.Sound reported sent) (r : Report) (existing : OnboardingStage) :
    (a.advance r existing).Sound (r.stage :: reported) sent := by
  have hstage : a.stage.order ≤ max r.stage.order (furthest reported) :=
    h.stage.trans (le_max_right _ _)
  refine ⟨?_, codeSends_advance.trans h.codeSends, ?_, ?_⟩ <;>
    unfold OnboardingAttempt.advance <;> split_ifs
  · exact le_max_left _ _
  · rwa [stage_data]
  · exact fun hr => isSome_data.1.mpr (Or.inl hr)
  · exact fun hr => isSome_data.1.mpr (Or.inr (h.completed (stage_data ▸ hr)))
  all_goals
    cases r with
    | completed => rfl
    | phoneVerified | reached => exact h.together

theorem Sound.send (h : a.Sound w.reported w.sent) (i : ℕ) (existing : Option OnboardingStage) :
    Sound (w.send i a existing) := by
  unfold World.send OnboardingAttempt.codeSent
  split_ifs
  · exact ⟨le_rfl, rfl, fun h => (by cases h), rfl⟩
  · exact ⟨h.stage, congrArg (· + 1) h.codeSends, h.completed, h.together⟩

theorem sound_step {e : Event} (h : Sound w) (hstep : step w e = some w') : Sound w' := by
  cases e with
  | codeSent =>
    cases hstep
    exact h
  | report r =>
    obtain ⟨_ | a, calls, reported, sent⟩ := w <;> cases hstep <;> exact h
  | write i =>
    obtain ⟨c, hc, rfl⟩ := Option.map_eq_some_iff.mp hstep
    obtain ⟨_ | a, calls, reported, sent⟩ := w
    · rcases c with (_ | existing) | _ | ⟨r, existing⟩ | _
      · obtain rfl : sent = 0 := h
        exact ⟨Nat.zero_le _, rfl, fun h => (by cases h), rfl⟩
      all_goals exact h
    · rcases c with (_ | existing) | _ | ⟨r, existing⟩ | _
      · exact h
      · exact .send h i _
      · exact .send h i _
      · exact h.advance r existing
      · exact h

end Rabotka.Onboarding
