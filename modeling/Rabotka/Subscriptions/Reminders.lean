import Rabotka.Subscriptions.Schema

/-!
# Renewal reminders

`dueReminder` and the reminder pass of the sweep. Of the configured lead times, in days, the
smallest that the remaining time has fallen under is due, unless a reminder went out when the
remaining time was already that short; the time of the last reminder is all that a period keeps.

A lead time that is due after a reminder is one that the remaining time at that reminder was still
above, and the lead time announced then was not; so lead times only go down (`reminders_once`).
-/

namespace Rabotka.Subscriptions

open List

/-- The days from an instant to the end. -/
def daysLeft (endsAt now : ℤ) : ℚ := ((endsAt - now : ℤ) : ℚ) / (24 * 60 * 60 * 1000)

def dueReminder (now endsAt : ℤ) (reminderDays : List ℚ) (remindedAt : Option ℤ) : Option ℚ :=
  let msLeft := endsAt - now
  if msLeft ≤ 0 then none
  else
    let sorted := reminderDays.mergeSort fun a b => a - b ≤ 0
    match sorted.find? fun d => daysLeft endsAt now ≤ d with
    | none => none
    | some due =>
      match remindedAt with
      | none => some due
      | some sent => if daysLeft endsAt sent ≤ due then none else some due

/-! ### The sweeps -/

/-- A sweep that comes to a period: the lead time it announces, and the time of the last reminder
from then on. -/
def remind (endsAt : ℤ) (reminderDays : List ℚ) (remindedAt : Option ℤ) (now : ℤ) :
    Option ℚ × Option ℤ :=
  match dueReminder now endsAt reminderDays remindedAt with
  | none => (none, remindedAt)
  | some due => (some due, some now)

/-- The lead times that sweeps announce, one after the other. -/
def announced (endsAt : ℤ) (reminderDays : List ℚ) : Option ℤ → List ℤ → List ℚ
  | _, [] => []
  | remindedAt, now :: times =>
    let (due, remindedAt) := remind endsAt reminderDays remindedAt now
    due.toList ++ announced endsAt reminderDays remindedAt times

/-- A period with the time of its last reminder. -/
structure Reminded extends Subscription where
  remindedAt : Option ℤ := none
  deriving DecidableEq

/-- The rows that the reminder pass reads and does not skip: running, and no period of the business
queued behind. -/
def Reminded.renews (rows : List Reminded) (now : ℤ) (row : Reminded) : Bool :=
  (row.status.isRunning && decide (row.startsAt ≤ now) && decide (now < row.endsAt)) &&
    (rows.countP fun r =>
      decide (r.businessId = row.businessId) && decide (r.status = .active) &&
        decide (row.endsAt ≤ r.startsAt)) == 0

/-- What the reminder pass of one sweep does with one row, and the lead time it announces. The
update is conditional on the time that was read. -/
def sweepRow (rows : List Reminded) (now : ℤ) (reminderDays : List ℚ) (row : Reminded) :
    Reminded × Option ℚ :=
  if row.renews rows now then
    match dueReminder now row.endsAt reminderDays row.remindedAt with
    | none => (row, none)
    | some due => ({ row with remindedAt := some now }, some due)
  else (row, none)

variable {endsAt now : ℤ} {reminderDays : List ℚ} {remindedAt : Option ℤ} {due : ℚ}

/-- What a due lead time is: configured, reached, and not reached yet at the last reminder. -/
theorem dueReminder_spec (h : dueReminder now endsAt reminderDays remindedAt = some due) :
    due ∈ reminderDays ∧ daysLeft endsAt now ≤ due ∧
      ∀ sent ∈ remindedAt, due < daysLeft endsAt sent := by
  unfold dueReminder at h
  simp only at h
  split_ifs at h with hleft
  cases hfind : (reminderDays.mergeSort fun a b => decide (a - b ≤ 0)).find?
      fun d => decide (daysLeft endsAt now ≤ d) with
  | none =>
    rw [hfind] at h
    cases h
  | some d =>
    rw [hfind] at h
    have hmem : d ∈ reminderDays := mem_mergeSort.1 (mem_of_find?_eq_some hfind)
    have hreached : daysLeft endsAt now ≤ d := by simpa using find?_some hfind
    cases remindedAt with
    | none =>
      obtain rfl := Option.some_inj.1 h
      exact ⟨hmem, hreached, fun sent hsent => nomatch hsent⟩
    | some sent =>
      simp only at h
      split_ifs at h with hsent
      obtain rfl := Option.some_inj.1 h
      refine ⟨hmem, hreached, fun sent' hsent' => ?_⟩
      obtain rfl := Option.mem_some_iff.1 hsent'
      exact not_le.1 hsent

/-- Before the first reminder, a lead time is due as soon as one is reached. -/
theorem exists_due (hnow : now < endsAt) {d : ℚ} (hd : d ∈ reminderDays)
    (hreached : daysLeft endsAt now ≤ d) :
    ∃ due, dueReminder now endsAt reminderDays none = some due := by
  unfold dueReminder
  simp only
  rw [if_neg (by omega)]
  have hsome : ((reminderDays.mergeSort fun a b => decide (a - b ≤ 0)).find?
      fun d => decide (daysLeft endsAt now ≤ d)).isSome :=
    find?_isSome.2 ⟨d, mem_mergeSort.2 hd, decide_eq_true hreached⟩
  obtain ⟨due, hdue⟩ := Option.isSome_iff_exists.1 hsome
  exact ⟨due, by rw [hdue]⟩

/-! ### Sequences of sweeps -/

/-- One sweep: nothing, or a lead time that is due, and its own time is kept. -/
theorem remind_cases : remind endsAt reminderDays remindedAt now = (none, remindedAt) ∨
      ∃ due, dueReminder now endsAt reminderDays remindedAt = some due ∧
        remind endsAt reminderDays remindedAt now = (some due, some now) := by
  unfold remind
  cases dueReminder now endsAt reminderDays remindedAt with
  | none => exact .inl rfl
  | some due => exact .inr ⟨due, rfl, rfl⟩

theorem announced_cons (times : List ℤ) : announced endsAt reminderDays remindedAt (now :: times) =
      (remind endsAt reminderDays remindedAt now).1.toList ++
        announced endsAt reminderDays (remind endsAt reminderDays remindedAt now).2 times := rfl

/-- What is announced is configured, and was not reached at the last reminder before. -/
theorem mem_announced {times : List ℤ} (h : due ∈ announced endsAt reminderDays remindedAt times) :
    due ∈ reminderDays ∧ ∀ sent ∈ remindedAt, due < daysLeft endsAt sent := by
  induction times generalizing remindedAt with
  | nil => cases h
  | cons now times ih =>
    rw [announced_cons] at h
    rcases @remind_cases endsAt now reminderDays remindedAt with hnone | ⟨d, hdue, hsome⟩
    · rw [hnone, Option.toList_none, nil_append] at h
      exact ih h
    · obtain ⟨hd, hreached, hsent⟩ := dueReminder_spec hdue
      rw [hsome, Option.toList_some] at h
      rcases mem_append.1 h with h | h
      · obtain rfl := mem_singleton.1 h
        exact ⟨hd, hsent⟩
      · obtain ⟨hmem, hlast⟩ := ih h
        -- below what remained at this sweep, which is below the lead time of this sweep
        have hlt := hlast now rfl
        exact ⟨hmem, fun sent hs => (hlt.trans_le hreached).trans (hsent sent hs)⟩

/-- The lead times announced by sweeps go down. -/
theorem pairwise_announced (remindedAt : Option ℤ) (times : List ℤ) :
    (announced endsAt reminderDays remindedAt times).Pairwise fun a b => b < a := by
  induction times generalizing remindedAt with
  | nil => exact List.Pairwise.nil
  | cons now times ih =>
    rw [announced_cons]
    rcases @remind_cases endsAt now reminderDays remindedAt with hnone | ⟨d, hdue, hsome⟩
    · rw [hnone]
      exact ih _
    · rw [hsome]
      refine pairwise_cons.2 ⟨fun due h => ?_, ih _⟩
      exact ((mem_announced h).2 now rfl).trans_le (dueReminder_spec hdue).2.1

/-- With a last reminder before it, a sequence of sweeps may announce nothing; without one, the
first sweep that reaches a lead time announces one. -/
theorem announced_ne_nil {before : List ℤ} (hnow : now < endsAt) {d : ℚ} (hd : d ∈ reminderDays)
    (hreached : daysLeft endsAt now ≤ d) :
    announced endsAt reminderDays none (before ++ [now]) ≠ [] := by
  induction before with
  | nil =>
    obtain ⟨due, hdue⟩ := exists_due hnow hd hreached
    rw [nil_append, announced_cons, remind, hdue]
    exact cons_ne_nil _ _
  | cons t before ih =>
    rw [cons_append, announced_cons]
    rcases @remind_cases endsAt t reminderDays none with hnone | ⟨due, -, hsome⟩
    · rw [hnone]
      exact ih
    · rw [hsome]
      exact cons_ne_nil _ _

/-- A table that a sweep comes to, with one of its rows. -/
structure Visit where
  rows : List Reminded
  row : Reminded
  now : ℤ

/-- **Each renewal reminder goes out at most once.** Along any sweeps the announced lead times are
configured ones and go down, and a sweep before the end that has reached a lead time announces one,
unless an earlier sweep did. -/
theorem reminders_once (endsAt : ℤ) (reminderDays : List ℚ) (times : List ℤ) :
    (announced endsAt reminderDays none times).Pairwise (fun a b => b < a) ∧
      (∀ due ∈ announced endsAt reminderDays none times, due ∈ reminderDays) ∧
      ∀ before now later, times = before ++ now :: later → now < endsAt →
        (∃ d ∈ reminderDays, daysLeft endsAt now ≤ d) →
          announced endsAt reminderDays none (before ++ [now]) ≠ [] := by
  refine ⟨pairwise_announced none times, fun due h => (mem_announced h).1, ?_⟩
  rintro before now later - hnow ⟨d, hd, hreached⟩
  exact announced_ne_nil hnow hd hreached

end Rabotka.Subscriptions
