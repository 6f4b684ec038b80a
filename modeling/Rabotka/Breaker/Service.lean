import Rabotka.Lib.Runs
import Rabotka.Lib.Volatile

/-!
# Circuit breaker

A provider whose calls fail is skipped for a while. Its failures are counted under one key, which
expires a window after the count began and is deleted on a success; when the count reaches the
threshold, another key is set for the cooldown, and while it exists the breaker is open.

The commands of the calls take effect one at a time, in any order, and each of them can fail.
Times are in milliseconds. The log of what was recorded is not in the store: the statements about
the breaker are in terms of it.
-/

namespace Rabotka.Breaker

open Volatile

structure Config where
  threshold : ℕ
  windowSeconds : ℕ
  cooldownSeconds : ℕ
  deriving DecidableEq

variable {P : Type*} [DecidableEq P]

/-- Where a call for a provider is: before its next command, or at its end. -/
inductive Call (P : Type*)
  | counting (spec : P)
  | arming (spec : P)
  | opening (spec : P) (count : ℕ)
  | failureRecorded (spec : P) (opened : Bool)
  | resetting (spec : P)
  | successRecorded (spec : P)
  deriving DecidableEq

/-- What took effect, and when. -/
inductive Entry (P : Type*)
  | failure (spec : P) (time : ℕ)
  | success (spec : P) (time : ℕ)
  | opened (spec : P) (time : ℕ)
  deriving DecidableEq

/-- The log has the latest entry first. -/
structure World (P : Type*) where
  now : ℕ
  fails : Store P
  opens : Store P
  calls : List (Call P)
  log : List (Entry P)

/-- Nothing has happened yet. -/
def World.fresh (now : ℕ) : World P := ⟨now, Store.empty, Store.empty, [], []⟩

/-- Calls come in, time passes, and the next command of a call takes effect or fails. -/
inductive Event (P : Type*)
  | recordFailure (spec : P)
  | recordSuccess (spec : P)
  | wait (ms : ℕ)
  | command (i : ℕ)
  | refuse (i : ℕ)
  deriving DecidableEq

variable (config : Config)

def Config.window : ℕ := 1000 * config.windowSeconds

def Config.cooldown : ℕ := 1000 * config.cooldownSeconds

/-- `EXPIRE`, which deletes the key when there is no time left. -/
def expire (s : Store P) (now : ℕ) (spec : P) (seconds : ℕ) : Store P :=
  if seconds = 0 then s.del spec else s.pexpire now spec (1000 * seconds)

/-- `count < this.threshold`. -/
def afterCount (spec : P) (count : ℕ) : Call P :=
  if count < config.threshold then .failureRecorded spec false else .opening spec count

/-- The next command of a call takes effect. -/
def perform (w : World P) : Call P → Option (World P × Call P)
  | .counting spec =>
    let (fails, count) := w.fails.incr w.now spec
    some ({ w with fails, log := .failure spec w.now :: w.log },
      if count = 1 then .arming spec else afterCount config spec count)
  | .arming spec =>
    some ({ w with fails := expire w.fails w.now spec config.windowSeconds },
      afterCount config spec 1)
  | .opening spec _ =>
    -- Without a time to live the store refuses the command.
    if config.cooldownSeconds = 0 then some (w, .failureRecorded spec false)
    else if (w.opens.read w.now spec).isSome then some (w, .failureRecorded spec false)
    else
      some ({ w with
          opens := w.opens.setPx w.now spec 1 (1000 * config.cooldownSeconds)
          log := .opened spec w.now :: w.log },
        .failureRecorded spec true)
  | .resetting spec =>
    some ({ w with fails := w.fails.del spec, log := .success spec w.now :: w.log },
      .successRecorded spec)
  | .failureRecorded _ _ => none
  | .successRecorded _ => none

/-- What a call answers when its command fails. -/
def refused : Call P → Option (Call P)
  | .counting spec | .arming spec | .opening spec _ => some (.failureRecorded spec false)
  | .resetting spec => some (.successRecorded spec)
  | .failureRecorded _ _ => none
  | .successRecorded _ => none

def step (w : World P) : Event P → Option (World P)
  | .recordFailure spec => some { w with calls := w.calls ++ [.counting spec] }
  | .recordSuccess spec => some { w with calls := w.calls ++ [.resetting spec] }
  | .wait ms => some { w with now := w.now + ms }
  | .command i => ((w.calls[i]?).bind (perform config w)).map fun x =>
    { x.1 with calls := w.calls.set i x.2 }
  | .refuse i => ((w.calls[i]?).bind refused).map fun c => { w with calls := w.calls.set i c }

def isOpen (w : World P) (spec : P) : Bool := (w.opens.read w.now spec).isSome

/-! ### Bursts -/

/-- The times of the failures since the last success, the latest first. -/
def since (spec : P) : List (Entry P) → List ℕ
  | [] => []
  | .failure spec' time :: log => if spec' = spec then time :: since spec log else since spec log
  | .success spec' _ :: log => if spec' = spec then [] else since spec log
  | .opened _ _ :: log => since spec log

/-- No two times are more than a window apart. -/
def Within (window : ℕ) (times : List ℕ) : Prop := ∀ x ∈ times, ∀ y ∈ times, x ≤ y + window

instance (window : ℕ) (times : List ℕ) : Decidable (Within window times) :=
  inferInstanceAs (Decidable (∀ x ∈ times, ∀ y ∈ times, x ≤ y + window))

/-- At some point, as many failures as the threshold lay within one window with no success in
between. -/
def Burst (spec : P) (log : List (Entry P)) : Prop :=
  ∃ later earlier, log = later ++ earlier ∧ ∃ times, times.Sublist (since spec earlier)
    ∧ config.threshold ≤ times.length ∧ Within config.window times

/-- A step opens the breaker for a burst only, and the log says when it does. -/
def OpensForBurst (w : World P) (e : Event P) : Prop :=
  ∀ spec, ∀ w' ∈ step config w e,
    ((isOpen w spec = false ∧ isOpen w' spec = true) ↔ w'.log = .opened spec w.now :: w.log)
      ∧ (isOpen w spec = false → isOpen w' spec = true → Burst config spec w.log)

/-- The breaker is open for the cooldown after each opening, and at no other time. -/
def OpenForCooldown (w : World P) : Prop :=
  ∀ spec, isOpen w spec = true ↔ ∃ time, .opened spec time ∈ w.log ∧ w.now ≤ time + config.cooldown

/-- A failure that completes a burst leaves the breaker open, after the other commands of its call
have taken effect. -/
def BurstOpens (w : World P) : Event P → Prop
  | .command i => ∀ spec : P, w.calls[i]? = some (.counting spec) →
    (∃ times, times.Sublist (since spec w.log) ∧ config.threshold ≤ times.length + 1
      ∧ Within config.window (w.now :: times)) →
    ∀ w' ∈ step config w (.command i), ∃ k, ∃ w'' : World P,
      Lib.Runs.run (step config) w' (List.replicate k (.command i)) = some w''
        ∧ isOpen w'' spec = true
  | _ => True

/-- The window of a new count is armed at once. -/
def Prompt (w : World P) : Event P → Prop
  | .wait _ => ∀ (i : ℕ) (spec : P), w.calls[i]? ≠ some (.arming spec)
  | .refuse i => ∀ spec : P, w.calls[i]? ≠ some (.arming spec)
  | _ => True

/-- A new count does not begin within a window of an earlier failure that no success followed. -/
def Spread (w : World P) : Event P → Prop
  | .command i => ∀ spec : P, w.calls[i]? = some (.counting spec) →
    w.fails.read w.now spec = none → ∀ time ∈ since spec w.log, time + config.window < w.now
  | _ => True

end Rabotka.Breaker
