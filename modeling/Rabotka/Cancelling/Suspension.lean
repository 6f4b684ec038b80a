import Mathlib.Data.Rat.Floor
import Rabotka.Cancelling.Penalty

/-!
# Suspension for repeated cancellations, and its preview

`suspendIfRepeatedCancellations` suspends a worker at the configured number of their own
cancellations within a window that ends now, and `cancellationSuspensionPreview` says beforehand
whether one more cancellation will. Both count with the same query, the preview before the
cancellation is recorded and the rule after.

Each takes its own reading of the clock. If nothing that was counted leaves the window between the
two readings, and the new cancellation is still in it at the second one, they agree for every
configuration that the settings accept (`preview_agrees_unmoved`); at one instant that is always so
(`unmoved_same`). A cancellation that leaves the window in between is counted by the preview only
(`window_moves_on`).
-/

namespace Rabotka.Cancelling.Repeated

open Hiring List

/-! ### The tables -/

/-- `ApplicationCancelledBy`. -/
inductive CancelledBy
  | worker | employer | system
  deriving DecidableEq

inductive AccountStatus
  | pendingActivation | active | suspended | banned
  deriving DecidableEq

inductive SuspensionSource
  | admin | unpaidPenalties | repeatedCancellations
  deriving DecidableEq

/-- A row of the applications, as far as cancellations are counted. -/
structure Row where
  id : ℕ
  workerId : ℕ
  status : ApplicationStatus
  cancelledBy : Option CancelledBy
  cancelledFromStatus : Option ApplicationStatus
  cancelledAt : Option ℤ
  deriving DecidableEq

/-- `"{count} annulations en {windowDays} jours"`. -/
structure Reason where
  count : ℕ
  windowDays : Number
  deriving DecidableEq

/-- What a profile says of its suspension. -/
structure Profile where
  status : AccountStatus
  suspensionReason : Option Reason
  suspendedAt : Option ℤ
  suspensionSource : Option SuspensionSource
  deriving DecidableEq

/-- The tables. The applications have a primary key. -/
structure Db where
  applications : List Row
  profiles : ℕ → Profile
  ids_nodup : (applications.map Row.id).Nodup

/-- `getFees`, as far as the rule reads it. -/
structure Fees where
  cancellationSuspensionCount : Number
  cancellationSuspensionWindowDays : Number

/-- What the settings accept for a key of `POSITIVE_INT_KEYS`: a finite number above zero. -/
def isAccepted : Number → Bool
  | .finite value => decide (0 < value)
  | _ => false

/-! ### The count -/

/-- `SUSPENSION_COUNTED_CANCEL_STATUSES`. -/
def suspensionCountedCancelStatuses : List ApplicationStatus :=
  [.pending, .viewed, .accepted, .waitingPayment, .ended]

def countsTowardSuspension (fromStatus : ApplicationStatus) : Bool :=
  decide (fromStatus ∈ suspensionCountedCancelStatuses)

def dayMs : ℚ := 24 * 60 * 60 * 1000

/-- The largest time value of a date. -/
def maxTime : ℚ := 8640000000000000

/-- Truncation towards zero. -/
def truncate (x : ℚ) : ℤ :=
  if 0 ≤ x then ⌊x⌋ else ⌈x⌉

/-- `new Date(now - windowDays * DAY_MS)`; there is none for a time value out of range. -/
def windowStart (now : ℤ) : Number → Option ℤ
  | .finite windowDays =>
    let time : ℚ := now - windowDays * dayMs
    if |time| ≤ maxTime then some (truncate time) else none
  | _ => none

/-- The `where` of the count. -/
def Row.isCounted (workerId : ℕ) (start : ℤ) (r : Row) : Bool :=
  decide (r.workerId = workerId) && decide (r.cancelledBy = some .worker)
    && r.cancelledFromStatus.any countsTowardSuspension
    && r.cancelledAt.any fun cancelledAt => decide (start ≤ cancelledAt)

/-- `countCountedCancellations`; the query throws on an invalid date. -/
def countCountedCancellations (db : Db) (workerId : ℕ) (windowDays : Number) (now : ℤ) : Option ℕ :=
  (windowStart now windowDays).map fun start => db.applications.countP (Row.isCounted workerId start)

/-! ### The rule -/

/-- `updateMany` on the profile, for accounts that are active: the tables, and how many changed. -/
def suspendActive (db : Db) (workerId : ℕ) (reason : Reason) (now : ℤ) : Db × ℕ :=
  if (db.profiles workerId).status = .active then
    ({ db with
        profiles := Function.update db.profiles workerId
          ⟨.suspended, some reason, some now, some .repeatedCancellations⟩ }, 1)
  else (db, 0)

/-- `suspendIfRepeatedCancellations`: nothing if the count throws, otherwise the tables and whether
this call suspended the account. -/
def suspendIfRepeatedCancellations (db : Db) (workerId : ℕ) (fromStatus : ApplicationStatus)
    (fees : Fees) (now : ℤ) : Option (Db × Bool) :=
  let threshold := fees.cancellationSuspensionCount
  let windowDays := fees.cancellationSuspensionWindowDays
  if !countsTowardSuspension fromStatus then some (db, false)
  else if !threshold.above 0 || !windowDays.above 0 then some (db, false)
  else do
    let count ← countCountedCancellations db workerId windowDays now
    if threshold.above count then pure (db, false)
    else
      let (db, changed) := suspendActive db workerId ⟨count, windowDays⟩ now
      if changed = 0 then pure (db, false)
      else pure (db, true)

/-- What the transaction of `cancel` writes to a row of its application. -/
def Row.cancel (now : ℤ) (r : Row) : Row :=
  { r with
    status := .cancelled
    cancelledBy := some .worker
    cancelledFromStatus := some r.status
    cancelledAt := some now }

/-- The transaction of `cancel`, as far as cancellations are counted. -/
def recordCancellation (db : Db) (applicationId : ℕ) (now : ℤ) : Db where
  applications := db.applications.map fun r => if r.id = applicationId then r.cancel now else r
  profiles := db.profiles
  ids_nodup := by
    have hids : (db.applications.map fun r =>
        if r.id = applicationId then r.cancel now else r).map Row.id
          = db.applications.map Row.id := by
      rw [map_map]
      refine map_congr_left fun r _ => ?_
      by_cases h : r.id = applicationId <;> simp [h, Row.cancel]
    rw [hids]
    exact db.ids_nodup

/-! ### The preview -/

/-- `Number(x) || 0`. -/
def orZero : Number → Number
  | .nan => .finite 0
  | n => n

/-- `Number.isFinite(x) ? x : 0`. -/
def finiteOrZero : Number → ℚ
  | .finite value => value
  | _ => 0

/-- What `cancellationSuspensionOutlook` returns. -/
structure Outlook where
  afterThis : ℕ
  wouldSuspend : Bool
  remaining : Option ℚ
  deriving DecidableEq

def cancellationSuspensionOutlook (priorInWindow : ℕ) (counts : Bool) (threshold : Number) :
    Outlook :=
  let threshold := finiteOrZero threshold
  let afterThis := priorInWindow + if counts then 1 else 0
  if threshold ≤ 0 then ⟨afterThis, false, none⟩
  else ⟨afterThis, counts && decide (threshold ≤ afterThis), some (max 0 (threshold - afterThis))⟩

/-- What `cancellationSuspensionPreview` returns. -/
structure Preview where
  countsTowardSuspension : Bool
  committed : Bool
  cancellationsInWindow : ℕ
  suspensionThreshold : Number
  windowDays : Number
  wouldSuspend : Bool
  remainingBeforeSuspension : Option ℚ

/-- `cancellationSuspensionPreview`; nothing if the count throws. -/
def cancellationSuspensionPreview (db : Db) (fees : Fees) (applicationId workerId : ℕ) (now : ℤ) :
    Option Preview := do
  let app := db.applications.find? fun r => decide (r.id = applicationId)
  let threshold := orZero fees.cancellationSuspensionCount
  let windowDays := orZero fees.cancellationSuspensionWindowDays
  let counts := app.any fun r =>
    decide (r.workerId = workerId) && Repeated.countsTowardSuspension r.status
  let prior ← if threshold.above 0 && windowDays.above 0 then
      countCountedCancellations db workerId windowDays now
    else some 0
  let outlook := cancellationSuspensionOutlook prior counts threshold
  pure
    { countsTowardSuspension := counts
      committed := app.any fun r =>
        decide (r.workerId = workerId) && isCommittedCancellation r.status
      cancellationsInWindow := prior
      suspensionThreshold := threshold
      windowDays := windowDays
      wouldSuspend := outlook.wouldSuspend
      remainingBeforeSuspension := outlook.remaining }

/-! ### The window -/

theorem truncate_mono {x y : ℚ} (h : x ≤ y) : truncate x ≤ truncate y := by
  rw [truncate, truncate]
  split_ifs with hx hy hy
  · exact Int.floor_mono h
  · exact absurd (hx.trans h) hy
  · have hceil : ⌈x⌉ ≤ 0 := Int.ceil_le.mpr (by exact_mod_cast (not_le.mp hx).le)
    exact hceil.trans (Int.floor_nonneg.mpr hy)
  · exact Int.ceil_mono h

/-- A window that reaches back starts no later than now. -/
theorem truncate_le {x : ℚ} {n : ℤ} (h : x ≤ n) : truncate x ≤ n := by
  rw [truncate]
  split_ifs
  · exact_mod_cast (Int.floor_le x).trans h
  · exact Int.ceil_le.mpr h

/-- Later windows start later. -/
theorem windowStart_mono {before now start start' : ℤ} {windowDays : Number} (h : before ≤ now)
    (hs : windowStart before windowDays = some start)
    (hs' : windowStart now windowDays = some start') : start ≤ start' := by
  cases windowDays with
  | finite w =>
    simp only [windowStart, Option.ite_none_right_eq_some, Option.some_inj] at hs hs'
    rw [← hs.2, ← hs'.2]
    have hcast : (before : ℚ) ≤ now := by exact_mod_cast h
    exact truncate_mono (by linarith)
  | _ => exact nomatch hs

/-- A positive window holds the present. -/
theorem windowStart_le {now start : ℤ} {w : ℚ} (hw : 0 < w)
    (hs : windowStart now (.finite w) = some start) : start ≤ now := by
  simp only [windowStart, Option.ite_none_right_eq_some, Option.some_inj] at hs
  rw [← hs.2]
  refine truncate_le ?_
  have hdays : 0 ≤ w * dayMs := mul_nonneg hw.le (by norm_num [dayMs])
  linarith

/-- Between the preview and the rule nothing that counts moves: no cancellation of the worker
leaves the window, and the one recorded in between is in it when the rule counts. -/
def Unmoved (db : Db) (workerId : ℕ) (windowDays : Number) (previewed recorded ruled : ℤ) : Prop :=
  match windowStart previewed windowDays, windowStart ruled windowDays with
  | some start, some start' => start' ≤ recorded
    ∧ ∀ r ∈ db.applications, r.isCounted workerId start = true → r.isCounted workerId start' = true
  | none, none => True
  | _, _ => False

/-- At one instant nothing moves. -/
theorem unmoved_same (db : Db) (workerId : ℕ) {w : ℚ} (hw : 0 < w) (now : ℤ) :
    Unmoved db workerId (.finite w) now now now := by
  rw [Unmoved]
  cases hs : windowStart now (.finite w) with
  | none => trivial
  | some start => exact ⟨windowStart_le hw hs, fun _ _ h => h⟩

/-! ### Counting before and after -/

/-- A change of the one row with a key, from a row that is not counted to one that is, adds one. -/
theorem countP_map_row {l : List Row} {p : Row → Bool} {f : Row → Row} {r : Row}
    (hids : (l.map Row.id).Nodup) (hr : r ∈ l) (hbefore : p r = false) (hafter : p (f r) = true)
    (hother : ∀ s : Row, s.id ≠ r.id → f s = s) : (l.map f).countP p = l.countP p + 1 := by
  induction l with
  | nil => exact nomatch hr
  | cons s l ih =>
    rw [map_cons, nodup_cons] at hids
    rcases mem_cons.mp hr with rfl | hr
    · have hrest : l.map f = l := by
        conv_rhs => rw [← map_id l]
        refine map_congr_left fun s hs => hother s fun h => hids.1 ?_
        rw [← h]
        exact mem_map_of_mem hs
      rw [map_cons, hrest, countP_cons_of_pos hafter, countP_cons_of_neg (by simp [hbefore])]
    · have hne : s.id ≠ r.id := fun h => hids.1 (h ▸ mem_map_of_mem hr)
      rw [map_cons, hother s hne, countP_cons, countP_cons, ih hids.2 hr]
      omega

variable {db : Db} {fees : Fees} {workerId : ℕ} {previewed recorded ruled : ℤ} {r : Row}

/-- **The count after** a cancellation that counts is one more than the count before, if nothing
moved in between. -/
theorem count_recorded {start start' : ℤ} (hr : r ∈ db.applications)
    (hworker : r.workerId = workerId) (hfresh : r.cancelledBy ≠ some .worker)
    (hcounts : countsTowardSuspension r.status = true) (hle : start ≤ start')
    (hrecorded : start' ≤ recorded)
    (hkept : ∀ s ∈ db.applications, s.isCounted workerId start = true →
      s.isCounted workerId start' = true) :
    (recordCancellation db r.id recorded).applications.countP (Row.isCounted workerId start')
      = db.applications.countP (Row.isCounted workerId start) + 1 := by
  have hsame : db.applications.countP (Row.isCounted workerId start)
      = db.applications.countP (Row.isCounted workerId start') := by
    refine countP_congr fun s hs => ⟨hkept s hs, fun h => ?_⟩
    simp only [Row.isCounted, Bool.and_eq_true, Option.any_eq_true, decide_eq_true_eq] at h ⊢
    obtain ⟨hcause, cancelledAt, hat, hlater⟩ := h
    exact ⟨hcause, cancelledAt, hat, hle.trans hlater⟩
  rw [hsame]
  refine countP_map_row db.ids_nodup hr ?_ ?_ fun s hs => if_neg hs
  · simp [Row.isCounted, hfresh]
  · simp [Row.isCounted, Row.cancel, hworker, hcounts, hrecorded]

/-! ### The rule and its preview -/

/-- The application behind a key. -/
theorem find_eq (hr : r ∈ db.applications) :
    db.applications.find? (fun s => decide (s.id = r.id)) = some r := by
  have hids := db.ids_nodup
  generalize db.applications = l at hr hids
  induction l with
  | nil => exact nomatch hr
  | cons s l ih =>
    rw [map_cons, nodup_cons] at hids
    rcases mem_cons.mp hr with rfl | hr
    · exact find?_cons_of_pos (decide_eq_true rfl)
    · have hne : s.id ≠ r.id := fun h => hids.1 (h ▸ mem_map_of_mem hr)
      rw [find?_cons_of_neg (by simpa using hne)]
      exact ih hr hids.2

/-- A setting that is accepted is a positive number. -/
theorem finite_of_isAccepted {n : Number} (h : isAccepted n = true) :
    ∃ value : ℚ, n = .finite value ∧ 0 < value := by
  cases n with
  | finite value => exact ⟨value, rfl, of_decide_eq_true h⟩
  | _ => exact nomatch h

/-- The preview, for accepted settings. -/
theorem preview_wouldSuspend {threshold w : ℚ} (hthreshold : 0 < threshold) (hw : 0 < w)
    (hr : r ∈ db.applications) (hworker : r.workerId = workerId) :
    (∃ p, cancellationSuspensionPreview db ⟨.finite threshold, .finite w⟩ r.id workerId previewed
        = some p ∧ p.wouldSuspend = true)
      ↔ countsTowardSuspension r.status = true
        ∧ ∃ start, windowStart previewed (.finite w) = some start
          ∧ threshold ≤ (db.applications.countP (Row.isCounted workerId start) : ℚ) + 1 := by
  have hpositive : ((Number.finite threshold).above 0 && (Number.finite w).above 0) = true := by
    simp [Number.above, hthreshold, hw]
  simp only [cancellationSuspensionPreview, orZero, hpositive, if_true, find_eq hr,
    Option.any_some, hworker, decide_true, Bool.true_and, countCountedCancellations,
    cancellationSuspensionOutlook, finiteOrZero, hthreshold.not_ge, if_false]
  cases hs : windowStart previewed (.finite w) with
  | none => simp
  | some start =>
    cases hcounts : countsTowardSuspension r.status with
    | false | true => simp

/-- The rule, for accepted settings and an account that is active. -/
theorem rule_suspends {threshold w : ℚ} (hthreshold : 0 < threshold) (hw : 0 < w)
    (hactive : (db.profiles workerId).status = .active) (fromStatus : ApplicationStatus) :
    (∃ after, suspendIfRepeatedCancellations db workerId fromStatus
          ⟨.finite threshold, .finite w⟩ ruled = some (after, true)
        ∧ (after.profiles workerId).status = .suspended)
      ↔ countsTowardSuspension fromStatus = true
        ∧ ∃ start, windowStart ruled (.finite w) = some start
          ∧ threshold ≤ (db.applications.countP (Row.isCounted workerId start) : ℚ) := by
  have hpositive : (!(Number.finite threshold).above 0 || !(Number.finite w).above 0) = false := by
    simp [Number.above, hthreshold, hw]
  simp only [suspendIfRepeatedCancellations, hpositive, Bool.false_eq_true, if_false,
    countCountedCancellations]
  cases hcounts : countsTowardSuspension fromStatus with
  | false => simp
  | true =>
    cases hs : windowStart ruled (.finite w) with
    | none => simp
    | some start =>
      by_cases hbelow : (db.applications.countP (Row.isCounted workerId start) : ℚ) < threshold
      · simp [Number.above, hbelow, hbelow.not_ge]
      · simp [Number.above, hbelow, not_lt.mp hbelow, suspendActive, hactive]

/-- **The preview agrees with the rule** for every worker who is active, every past and every
accepted configuration: if nothing moves between the preview, the cancellation and the rule, the
preview says that this cancellation would suspend the worker exactly if it does. -/
theorem preview_agrees_unmoved (hcount : isAccepted fees.cancellationSuspensionCount = true)
    (hwindow : isAccepted fees.cancellationSuspensionWindowDays = true)
    (hr : r ∈ db.applications) (hworker : r.workerId = workerId)
    (hfresh : r.cancelledBy ≠ some .worker)
    (hactive : (db.profiles workerId).status = .active) (horder : previewed ≤ ruled)
    (hunmoved : Unmoved db workerId fees.cancellationSuspensionWindowDays previewed recorded
      ruled) :
    (∃ p, cancellationSuspensionPreview db fees r.id workerId previewed = some p
        ∧ p.wouldSuspend = true)
      ↔ ∃ after, suspendIfRepeatedCancellations (recordCancellation db r.id recorded) workerId
          r.status fees ruled = some (after, true)
        ∧ (after.profiles workerId).status = .suspended := by
  obtain ⟨count, window⟩ := fees
  obtain ⟨threshold, rfl, hthreshold⟩ := finite_of_isAccepted hcount
  obtain ⟨w, rfl, hw⟩ := finite_of_isAccepted hwindow
  have hactive' : ((recordCancellation db r.id recorded).profiles workerId).status = .active :=
    hactive
  rw [preview_wouldSuspend hthreshold hw hr hworker, rule_suspends hthreshold hw hactive' r.status]
  refine and_congr_right fun hcounts => ?_
  rw [Unmoved] at hunmoved
  cases hs : windowStart previewed (.finite w) with
  | none =>
    cases hs' : windowStart ruled (.finite w) with
    | none => simp
    | some start' =>
      rw [hs, hs'] at hunmoved
      exact hunmoved.elim
  | some start =>
    cases hs' : windowStart ruled (.finite w) with
    | none =>
      rw [hs, hs'] at hunmoved
      exact hunmoved.elim
    | some start' =>
      rw [hs, hs'] at hunmoved
      have hcounted := count_recorded hr hworker hfresh hcounts (windowStart_mono horder hs hs')
        hunmoved.1 hunmoved.2
      simp only [Option.some_inj, exists_eq_left', hcounted, Nat.cast_add, Nat.cast_one]

/-! ### When the window moves on -/

/-- A worker with one mission left, who cancelled another at instant zero. -/
def oneBehind : Db where
  applications :=
    [⟨1, 7, .cancelled, some .worker, some .accepted, some 0⟩,
      ⟨2, 7, .accepted, none, none, none⟩]
  profiles := fun _ => ⟨.active, none, none, none⟩
  ids_nodup := by decide

/-- Two cancellations within thirty days. -/
def twoInThirtyDays : Fees where
  cancellationSuspensionCount := .finite 2
  cancellationSuspensionWindowDays := .finite 30

/-- Thirty days after the first cancellation the preview still counts it; a millisecond later the
rule does not. -/
theorem window_moves_on :
    (cancellationSuspensionPreview oneBehind twoInThirtyDays 2 7 2592000000).map
        Preview.wouldSuspend = some true
      ∧ (suspendIfRepeatedCancellations (recordCancellation oneBehind 2 2592000001) 7 .accepted
        twoInThirtyDays 2592000001).map Prod.snd = some false := by
  constructor <;> decide +kernel

/-- At one instant the preview of that cancellation comes true. -/
theorem preview_comes_true :
    (∃ p, cancellationSuspensionPreview oneBehind twoInThirtyDays 2 7 2592000000 = some p
        ∧ p.wouldSuspend = true)
      ↔ ∃ after, suspendIfRepeatedCancellations (recordCancellation oneBehind 2 2592000000) 7
          .accepted twoInThirtyDays 2592000000 = some (after, true)
        ∧ (after.profiles 7).status = .suspended :=
  preview_agrees_unmoved (r := ⟨2, 7, .accepted, none, none, none⟩) (by decide +kernel)
    (by decide +kernel) (by decide) rfl (by decide) rfl le_rfl
    (unmoved_same oneBehind 7 (by norm_num) 2592000000)

end Rabotka.Cancelling.Repeated
