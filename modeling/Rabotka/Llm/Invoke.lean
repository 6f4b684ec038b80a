import Mathlib.Data.List.Basic
import Mathlib.Data.Int.Notation

/-!
# One provider, inside a turn's time

A turn of the assistant has a deadline. A call to a provider takes its budget from what is left of
the turn, less a reserve for the provider after it, and a server error earns it one retry after a
pause. What an attempt comes to, and how long it takes, is the provider's: a call is given an
`Ending` for each of its two attempts, and is `none` where the attempts cannot end so.

Times are in milliseconds. Building a client takes no time, timers fire on time, and what happens
at the moment of a cancel counts as after it.
-/

namespace Rabotka.Llm

/-! ### Errors -/

inductive ErrorClass
  | rateLimit
  | server
  | transport
  | providerUnusable
  | fatal
  deriving DecidableEq

/-- What the classifier reads of an error: whether its type is one of a programmer's mistakes, its
message in lower case, its name and its code, and the integers found where a status may stand. -/
structure ErrorFacts where
  programmer : Bool
  message : String
  name : String
  code : String
  candidates : List ℤ
  deriving DecidableEq

/-- `message.includes(text)`. -/
def includes (message text : String) : Bool :=
  message.toList.tails.any fun rest => text.toList.isPrefixOf rest

def statusOf (err : ErrorFacts) : Option ℤ :=
  err.candidates.find? fun n => 100 ≤ n && n < 600

def transportCodes : List String :=
  ["ECONNRESET", "ECONNREFUSED", "ETIMEDOUT", "ENOTFOUND", "EAI_AGAIN", "EPIPE",
    "ERR_SOCKET_CONNECTION_TIMEOUT", "UND_ERR_CONNECT_TIMEOUT", "UND_ERR_HEADERS_TIMEOUT"]

def contentBlock : List String :=
  ["content filter", "content_filter", "content management policy", "safety",
    "prohibited_content", "blocklist", "responsible ai", "recitation"]

def rateLimitText : List String := ["rate limit", "rate_limit", "quota", "too many requests"]

def timeoutText : List String := ["timeout", "timed out", "aborted", "abort"]

def incompatibleText : List String :=
  ["only supports types", "complex message types", "unsupported message type",
    "does not support tool", "tools are not supported"]

/-- The rules of the classifier that come after the status. -/
def classifyByText (err : ErrorFacts) : ErrorClass :=
  if incompatibleText.any (includes err.message) then .providerUnusable
  else if err.code ∈ transportCodes then .transport
  else if err.name = "AbortError" ∨ err.name = "TimeoutError" then .transport
  else if timeoutText.any (includes err.message) then .transport
  else if rateLimitText.any (includes err.message) then .rateLimit
  else .transport

def classifyLlmError (err : ErrorFacts) : ErrorClass :=
  if err.programmer then .fatal
  else if contentBlock.any (includes err.message) then .fatal
  else
    match statusOf err with
    | none => classifyByText err
    | some status =>
      if status = 429 then .rateLimit
      else if 500 ≤ status then .server
      else if status = 408 then .transport
      else if status = 401 ∨ status = 403 ∨ status = 404 then .providerUnusable
      else if 400 ≤ status then .fatal
      else classifyByText err

def isRetryableInPlace (cls : ErrorClass) : Bool := cls = .server

def shouldTripBreaker (cls : ErrorClass) : Bool := cls ≠ .fatal

theorem classifyByText_ne_server (err : ErrorFacts) : classifyByText err ≠ .server := by
  unfold classifyByText
  split_ifs <;> simp

/-- Without a status an error is never a server error. -/
theorem classify_ne_server {err : ErrorFacts} (h : err.candidates = []) :
    classifyLlmError err ≠ .server := by
  have hstatus : statusOf err = none := by simp [statusOf, h]
  unfold classifyLlmError
  rw [hstatus]
  split_ifs
  · simp
  · simp
  · exact classifyByText_ne_server err

/-! ### The turn -/

structure Config where
  defaultTimeoutMs : ℕ
  retryBackoffMs : ℕ
  fallbackReserveMs : ℕ
  minCallMs : ℕ
  deriving DecidableEq

/-- A turn's deadline. It is disposed when the turn finishes, which aborts what still runs. -/
structure Deadline where
  endsAt : ℕ
  disposedAt : Option ℕ
  deriving DecidableEq

/-- `cancelledAt` is when the signal of the run aborts, if it does. -/
structure Options where
  timeoutMs : Option ℕ
  reserveMs : Option ℕ
  deadline : Option Deadline
  cancelledAt : Option ℕ
  deriving DecidableEq

def Deadline.remainingMs (deadline : Deadline) (now : ℕ) : ℕ := deadline.endsAt - now

def Deadline.causedAbort (deadline : Deadline) (now : ℕ) : Bool :=
  deadline.endsAt ≤ now || deadline.disposedAt.any (· ≤ now)

def Options.cancelled (o : Options) (now : ℕ) : Bool := o.cancelledAt.any (· ≤ now)

/-- The moments at which the turn or the run stops a call. -/
def Options.aborts (o : Options) : List ℕ :=
  (match o.deadline with
    | none => []
    | some deadline => deadline.endsAt :: deadline.disposedAt.toList) ++ o.cancelledAt.toList

variable (c : Config) (o : Options) (label : String)

/-- The cap of one attempt. -/
def Config.cap : ℕ := o.timeoutMs.getD c.defaultTimeoutMs

def Config.reserve : ℕ := o.reserveMs.getD c.fallbackReserveMs

/-- `none` where the budget throws. What is left less the reserve may be negative in the source, so
that it is compared with the reserve on the other side. -/
def budgetFor (now : ℕ) : Option ℕ :=
  match o.deadline with
  | none => some (c.cap o)
  | some deadline =>
    let remaining := deadline.remainingMs now
    if c.minCallMs + c.reserve o ≤ remaining then
      some (min (c.cap o) (remaining - c.reserve o))
    else if c.minCallMs ≤ remaining then
      some (min (c.cap o) remaining)
    else
      none

/-! ### Attempts -/

/-- What an attempt comes to: the client cannot be built or cannot bind the tools, the provider
answers or fails after some time, the attempt's own timer fires, or the turn or the run stops it. -/
inductive Ending
  | unbuilt (err : ErrorFacts)
  | answered (ms : ℕ)
  | failed (ms : ℕ) (err : ErrorFacts)
  | timedOut
  | aborted
  deriving DecidableEq

def timeoutError (budget : ℕ) : ErrorFacts :=
  ⟨false, label ++ " timed out after " ++ toString budget ++ "ms", "TimeoutError", "", []⟩

def abortError : ErrorFacts :=
  ⟨false, label ++ " aborted before it finished", "AbortError", "", []⟩

def deadlineError (remaining minCallMs : ℕ) : ErrorFacts :=
  ⟨false, "no budget left for a model call (" ++ toString remaining ++ "ms remains, " ++
    toString minCallMs ++ "ms is the floor)", "LlmDeadlineExceededError", "", []⟩

/-- The moment at which the first of the racing promises settles, where it can be the ending's: the
provider's outcome comes no later than the timer and no later than any abort, and an abort that came
before the attempt began stops it at its beginning. -/
def settle (now budget : ℕ) (aborts : List ℕ) : Ending → Option ℕ
  | .unbuilt _ => some now
  | .answered ms | .failed ms _ =>
    if ms ≤ budget ∧ ∀ time ∈ aborts, now + ms ≤ max now time then some (now + ms) else none
  | .timedOut =>
    if ∀ time ∈ aborts, now + budget ≤ max now time then some (now + budget) else none
  | .aborted =>
    (aborts.find? fun time =>
      max now time ≤ now + budget && aborts.all fun other => max now time ≤ max now other).map
        (max now)

/-- The error that an attempt throws. -/
def Ending.thrown (budget : ℕ) : Ending → Option ErrorFacts
  | .unbuilt err => some err
  | .answered _ => none
  | .failed _ err => some err
  | .timedOut => some (timeoutError label budget)
  | .aborted => some (abortError label)

structure Attempt where
  startedAt : ℕ
  endedAt : ℕ
  budget : ℕ
  ending : Ending
  deriving DecidableEq

/-- An error, and whether it is the one that says that the turn is out of time. -/
structure Thrown where
  deadlineExceeded : Bool
  err : ErrorFacts
  deriving DecidableEq

/-- Where a call stands: the moment, the attempts made, and what it throws. -/
structure Tried where
  endedAt : ℕ
  attempts : List Attempt
  error : Option Thrown
  deriving DecidableEq

def callOnce (now : ℕ) (ending : Ending) : Option Tried :=
  match budgetFor c o now with
  | none =>
    let remaining := (o.deadline.map fun deadline => deadline.remainingMs now).getD 0
    some ⟨now, [], some ⟨true, deadlineError remaining c.minCallMs⟩⟩
  | some budget =>
    (settle now budget o.aborts ending).map fun time =>
      ⟨time, [⟨now, time, budget, ending⟩], (ending.thrown label budget).map (Thrown.mk false)⟩

/-- Too little of the turn is left for the pause and a retry. -/
def skipsRetry (now : ℕ) : Bool :=
  match o.deadline with
  | none => false
  | some deadline => deadline.remainingMs now < c.retryBackoffMs + c.minCallMs

/-- The retry, after its pause. -/
def retry (one : Tried) (second : Ending) : Option Tried :=
  (callOnce c o label (one.endedAt + c.retryBackoffMs) second).map fun two =>
    { two with attempts := one.attempts ++ two.attempts }

/-- The second part of the result is the number of tries in the telemetry, which counts a try that
finds no budget too. -/
def callWithRetry (now : ℕ) (first second : Ending) : Option (Tried × ℕ) :=
  (callOnce c o label now first).bind fun one =>
    match one.error with
    | none => some (one, 1)
    | some thrown =>
      if !isRetryableInPlace (classifyLlmError thrown.err) then some (one, 1)
      else if skipsRetry c o one.endedAt then some (one, 1)
      else (retry c o label one second).map fun two => (two, 2)

/-! ### The call -/

def deadlineTieMs : ℕ := 2

/-- The turn's or the run's end is why the call failed. -/
def deadlineCaused (thrown : Thrown) (now : ℕ) : Bool :=
  if thrown.deadlineExceeded then true
  else if o.cancelled now then true
  else
    match o.deadline with
    | none => false
    | some deadline =>
      deadline.causedAbort now || decide (deadline.remainingMs now ≤ deadlineTieMs)

inductive Result
  | answered
  | deadlineExceeded
  | fatal
  | exhausted (cls : ErrorClass)
  deriving DecidableEq

/-- What the breaker of the provider is told. -/
inductive Report
  | success (latencyMs : ℕ)
  | failure
  deriving DecidableEq

structure Outcome where
  endedAt : ℕ
  attempts : List Attempt
  tries : ℕ
  result : Result
  report : Option Report
  deriving DecidableEq

/-- What `invokeWith` makes of the tries. -/
def conclude (now : ℕ) (tried : Tried) (tries : ℕ) : Outcome :=
  match tried.error with
  | none => ⟨tried.endedAt, tried.attempts, tries, .answered, some (.success (tried.endedAt - now))⟩
  | some thrown =>
    let cls := classifyLlmError thrown.err
    if deadlineCaused o thrown tried.endedAt then
      ⟨tried.endedAt, tried.attempts, tries, .deadlineExceeded, none⟩
    else
      ⟨tried.endedAt, tried.attempts, tries, if cls = .fatal then .fatal else .exhausted cls,
        if shouldTripBreaker cls then some .failure else none⟩

def invokeWith (now : ℕ) (first second : Ending) : Option Outcome :=
  (callWithRetry c o label now first second).map fun tried => conclude o now tried.1 tried.2

end Rabotka.Llm
