import Rabotka.Lib.Volatile
import Rabotka.Lib.RelyGuarantee
import Rabotka.Lib.Table
import Rabotka.Lib.Tagged

/-!
# Inbound messages and the queue that carries them

The jobs of the inbound queue, the two kinds of keys of `IdempotencyService` (the marker of a
message that was handled, and the lock of one that is being handled), and the outbound queue
that takes the replies. The identifier of a job is its position in the queue.

A job is waiting, in the hands of an attempt, or done: the queue runs a job again until an
attempt returns normally, and it takes a job back from an attempt whose worker died. What the
conversation answers is the environment's choice.
-/

namespace Rabotka.Inbound

/-! ### Jobs -/

structure WhatsAppInboundJobData where
  phone : String
  text : String
  messageSid : Option String
  deriving DecidableEq

inductive JobStatus
  | waiting
  | active (attempt : ℕ)
  | completed
  deriving DecidableEq

structure Job where
  data : WhatsAppInboundJobData
  status : JobStatus
  deriving DecidableEq

/-- A reply as `parseReplyToJob` reads it. -/
inductive WhatsAppSend
  | text (text : String)
  | media (mediaUrl : String) (caption : Option String)
  | template (templateKey : String) (contentVariables : List (String × String))
  | cta (body : String)
  deriving DecidableEq

/-- What `handleIncomingMessage` returns. A reply that is empty, or that `parseReplyToJob`
drops, is `none`. -/
structure ConversationResult where
  profileId : Option String
  replies : List (Option WhatsAppSend)
  deriving DecidableEq

/-- A job of the outbound queue: one reply, or a sequence of several. -/
structure WhatsAppOutboundJobData where
  phone : String
  profileId : Option String
  replyToMessageId : Option String
  messages : List WhatsAppSend
  deriving DecidableEq

/-! ### Keys -/

/-- `INBOUND_TTL_SECONDS`. -/
def inboundTtlSeconds : ℕ := 604800

/-- `IN_FLIGHT_TTL_SECONDS`. -/
def inFlightTtlSeconds : ℕ := 120

/-- The keys of a message. -/
inductive Key
  | inboundKey (providerMessageId : String)
  | inFlightKey (providerMessageId : String)
  deriving DecidableEq

/-- The queues and the keys; `dead` holds the attempts whose worker died. -/
structure World where
  now : ℕ
  keys : Expiring.Keys Key Unit
  jobs : List Job
  outbound : List WhatsAppOutboundJobData
  dead : List ℕ

namespace World

def has (w : World) (k : Key) : Bool :=
  (w.keys.get w.now k).isSome

/-- Puts a job into another state. -/
def setStatus (w : World) (job : ℕ) (status : JobStatus) : World :=
  { w with jobs := Table.update w.jobs job fun j => { j with status } }

/-- The queue takes back what a dead attempt was working on. -/
def kill (w : World) (attempt : ℕ) : World :=
  { w with
    dead := attempt :: w.dead
    jobs := Table.updateMany w.jobs (fun _ j => j.status = .active attempt)
      fun j => { j with status := .waiting } }

end World

/-! ### Calls -/

inductive Cmd
  | has (key : Key)
  | claim (key : Key) (ttlSeconds : ℕ)
  | release (key : Key)
  | handleIncomingMessage (phone text : String)
  | addJob (job : WhatsAppOutboundJobData)
  | take (job : ℕ)
  | complete (job : ℕ)
  | fail (job : ℕ)
  | enqueue (data : WhatsAppInboundJobData)
  | elapse (seconds : ℕ)
  | die (attempt : ℕ)

abbrev Resp : Cmd → Type
  | .has _ | .claim _ _ => Bool
  | .handleIncomingMessage _ _ => ConversationResult
  | .take _ => WhatsAppInboundJobData
  | _ => Unit

/-- What the environment decides. -/
structure Env where
  result : ConversationResult := ⟨none, []⟩

/-- What a call of the attempt `i` does. A dead attempt makes no calls, and the queue hands out
waiting jobs only. -/
def exec (w : World) (i : ℕ) (ε : Env) (c : Cmd) : Option (World × Resp c) :=
  if i ∈ w.dead then none
  else match c with
  | .has key => some (w, w.has key)
  | .claim key ttlSeconds =>
    if w.has key then some (w, false)
    else some ({ w with keys := w.keys.put key () (some (w.now + ttlSeconds)) }, true)
  | .release key => some ({ w with keys := w.keys.del key }, ())
  | .handleIncomingMessage _ _ => some (w, ε.result)
  | .addJob job => some ({ w with outbound := w.outbound ++ [job] }, ())
  | .take job =>
    match w.jobs[job]? with
    | some j => if j.status = .waiting then some (w.setStatus job (.active i), j.data) else none
    | none => none
  | .complete job => some (w.setStatus job .completed, ())
  | .fail job => some (w.setStatus job .waiting, ())
  | .enqueue data => some ({ w with jobs := w.jobs ++ [⟨data, .waiting⟩] }, ())
  | .elapse seconds => some ({ w with now := w.now + seconds }, ())
  | .die attempt => some (w.kill attempt, ())

end Rabotka.Inbound

/-!
## Handling inbound messages

`WhatsAppInboundProcessor.process` with its `handle`, and the queue around it: an attempt takes
a job, processes it, and hands it back, done or to be run again. Webhooks, the passing of time
and the death of workers are requests of their own, so that they fall anywhere between the
calls. Logs and counters are left out.
-/

namespace Rabotka.Inbound

open Async

/-- What a failing call throws. -/
structure Exn where
  message : String
  deriving DecidableEq

/-- An operation of this service. -/
abbrev Prog (α : Type) := Op Resp Exn α

/-- Issues one call. -/
def issue (c : Cmd) : Prog (Resp c) := Op.cmd c

/-- `try … finally`. -/
def andFinally (op cleanup : Prog Unit) : Prog Unit := do
  let thrown ← tryCatch (do op; return none) fun e => return some e
  cleanup
  match thrown with
  | none => return
  | some e => throw e

/-- The replies that are sent. -/
def ConversationResult.sends (result : ConversationResult) : List WhatsAppSend :=
  result.replies.filterMap id

/-- One job for all replies, where there are any. -/
def enqueueReplies (data : WhatsAppInboundJobData) (result : ConversationResult) : Prog Unit :=
  if result.sends = [] then return
  else issue (.addJob
    { phone := data.phone
      profileId := result.profileId
      replyToMessageId := data.messageSid
      messages := result.sends })

def markHandled : Option String → Prog Unit
  | none => return
  | some messageSid => do
    let _ ← issue (.claim (.inboundKey messageSid) inboundTtlSeconds)

def handle (data : WhatsAppInboundJobData) : Prog Unit := do
  let result ← issue (.handleIncomingMessage data.phone data.text)
  enqueueReplies data result
  markHandled data.messageSid

def process (data : WhatsAppInboundJobData) : Prog Unit := do
  match data.messageSid with
  | none => handle data
  | some messageSid =>
    if ← issue (.has (.inboundKey messageSid)) then return
    if !(← issue (.claim (.inFlightKey messageSid) inFlightTtlSeconds)) then return
    andFinally (handle data) (issue (.release (.inFlightKey messageSid)))

/-- An attempt of a job; where it throws, the queue runs the job again. -/
def attempt (job : ℕ) : Prog Unit := do
  let data ← issue (.take job)
  tryCatch (do
      process data
      issue (.complete job))
    fun _ => issue (.fail job)

/-! ### The service -/

/-- An attempt of the queue, or a step of the rest of the system. -/
inductive Request
  | attempt (job : ℕ)
  | enqueue (data : WhatsAppInboundJobData)
  | elapse (seconds : ℕ)
  | die (attempt : ℕ)

def handler : Request → Prog Unit
  | .attempt job => Inbound.attempt job
  | .enqueue data => issue (.enqueue data)
  | .elapse seconds => issue (.elapse seconds)
  | .die attempt => issue (.die attempt)

/-- The inbound queue with its attempts. -/
def service : Service World Cmd Resp Request Env Exn where
  exec w i c ε := exec w i ε c
  handler := handler

end Rabotka.Inbound

/-!
## What attempts owe to each other

The story of a run records which attempts hold the lock of a message, which messages were
handled, which attempts have handled a message and not marked it yet, and which attempts gave
way to another one. `orderly` is the guard under which this story stays in step with the keys:

* an attempt that wins the lock finds no other attempt running on the message, and the message
  was not marked since it looked;
* an attempt that gives way finds the lock in the hands of a running attempt;
* no marker has expired when it is looked for;
* between the enqueue of the replies and the marker, the worker does not die and the marker does
  not fail.
-/

namespace Rabotka.Inbound

open Async

/-! ### The story of a run -/

structure Story where
  holders : List (ℕ × String) := []
  handled : List String := []
  unmarked : List (ℕ × String) := []
  deferred : List (ℕ × String) := []

namespace Story

/-- The attempt has handled the messages: `handleIncomingMessage` is completed and the replies
are enqueued. -/
def finish (h : Story) (i : ℕ) (sids : List String) : Story :=
  { h with
    handled := sids ++ h.handled
    unmarked := sids.map (Prod.mk i) ++ h.unmarked }

/-- The attempt is about to start, or has come to its end. -/
def leave (h : Story) (i : ℕ) : Story :=
  { h with
    holders := Tagged.drop h.holders i
    deferred := Tagged.drop h.deferred i }

end Story

def record (h : Story) (i : ℕ) : (c : Cmd) → Resp c → Story
  | .take _, _ | .complete _, _ | .fail _, _ => h.leave i
  | .claim (.inFlightKey messageSid) _, won =>
    if won then { h with holders := (i, messageSid) :: h.holders }
    else { h with deferred := (i, messageSid) :: h.deferred }
  | .claim (.inboundKey _) _, _ => { h with unmarked := Tagged.drop h.unmarked i }
  | .release (.inFlightKey messageSid), _ =>
    { h with holders := h.holders.filter fun z => z ≠ (i, messageSid) }
  | .handleIncomingMessage _ _, result =>
    if result.sends = [] then h.finish i (Tagged.of h.holders i) else h
  | .addJob job, _ => h.finish i job.replyToMessageId.toList
  | _, _ => h

/-- The world with its story. -/
abbrev State := World × Story

/-- The service with its story. -/
def tracked : Service State Cmd Resp Request Env Exn := service.withHistory record

/-- The attempt has the lock of the message, has not released it, and is not dead. -/
def State.Running (x : State) (i : ℕ) (messageSid : String) : Prop :=
  (i, messageSid) ∈ x.2.holders ∧ i ∉ x.1.dead

/-- Some attempt is running on the message. -/
def State.isRunning (x : State) (messageSid : String) : Bool :=
  x.2.holders.any fun z => z.2 = messageSid && z.1 ∉ x.1.dead

theorem State.isRunning_iff {x : State} {messageSid : String} :
    x.isRunning messageSid ↔ ∃ i, x.Running i messageSid := by
  simp only [isRunning, List.any_eq_true, Bool.and_eq_true, decide_eq_true_eq, Running]
  constructor
  · rintro ⟨⟨i, sid⟩, hmem, rfl, hdead⟩
    exact ⟨i, hmem, hdead⟩
  · rintro ⟨i, hmem, hdead⟩
    exact ⟨(i, messageSid), hmem, rfl, hdead⟩

/-- The condition on a run; see the head of this module. -/
def orderly : Guard State Cmd Request Env
  | x, .step _ (.claim (.inFlightKey messageSid) _) _ =>
    if x.1.has (.inFlightKey messageSid) then x.isRunning messageSid
    else !x.isRunning messageSid && (x.1.keys (.inboundKey messageSid)).isNone
  | x, .step _ (.has key) _ => (x.1.keys key).all fun e => e.live x.1.now
  | x, .step _ (.die attempt) _ => (Tagged.of x.2.unmarked attempt).isEmpty
  | _, .fault _ (.claim (.inboundKey _) _) => false
  | _, _ => true

/-! ### What holds between two calls -/

variable {i k job : ℕ} {messageSid : String} {data : WhatsAppInboundJobData}
  {w v : World} {x y : State} {ε : Env}

/-- The attempt `i` is working on the job. -/
def Runs (i job : ℕ) (data : WhatsAppInboundJobData) (w : World) : Prop :=
  w.jobs[job]? = some ⟨data, .active i⟩

/-- The queue still has a job for the message, and its attempt has not given way. -/
def Pending (messageSid : String) (x : State) : Prop :=
  ∃ (job : ℕ) (j : Job), x.1.jobs[job]? = some j ∧ j.data.messageSid = some messageSid ∧
    j.status ≠ .completed ∧ ∀ i, j.status = .active i → (i, messageSid) ∉ x.2.deferred

/-- The invariant. -/
structure Inv (x : State) : Prop where
  unique : ∀ i k messageSid, x.Running i messageSid → x.Running k messageSid → i = k
  runs : ∀ i messageSid, x.Running i messageSid → (i, messageSid) ∉ x.2.deferred ∧
    ∃ job data, Runs i job data x.1 ∧ data.messageSid = some messageSid
  unmarked : ∀ z ∈ x.2.unmarked, x.Running z.1 z.2
  marked : ∀ messageSid ∈ x.2.handled, (∃ i, (i, messageSid) ∈ x.2.unmarked) ∨
    (x.1.keys (.inboundKey messageSid)).isSome
  handled : ∀ messageSid, (x.1.keys (.inboundKey messageSid)).isSome → messageSid ∈ x.2.handled
  once : x.2.handled.Nodup
  pending : ∀ (job : ℕ) (j : Job) (messageSid : String), x.1.jobs[job]? = some j →
    j.data.messageSid = some messageSid → messageSid ∈ x.2.handled ∨ Pending messageSid x

/-- When the attempt `i` may issue a call, as long as it is not dead. -/
def Pre (i : ℕ) : Cmd → State → Prop
  | .take _, x => Tagged.of x.2.unmarked i = []
  | .claim (.inFlightKey messageSid) _, x => Tagged.of x.2.holders i = [] ∧
      Tagged.of x.2.deferred i = [] ∧
      ∃ job data, Runs i job data x.1 ∧ data.messageSid = some messageSid
  | .claim (.inboundKey messageSid) _, x => messageSid ∈ x.2.handled ∧
      ∀ s ∈ Tagged.of x.2.unmarked i, s = messageSid
  | .release (.inFlightKey _), x => Tagged.of x.2.unmarked i = []
  | .release (.inboundKey _), _ => False
  | .handleIncomingMessage _ _, x => (Tagged.of x.2.holders i).Nodup ∧
      ∀ s ∈ Tagged.of x.2.holders i, s ∉ x.2.handled
  | .addJob job, x => ∀ s, job.replyToMessageId = some s →
      s ∈ Tagged.of x.2.holders i ∧ s ∉ x.2.handled
  | .complete job, x => Tagged.of x.2.unmarked i = [] ∧ ∃ data, Runs i job data x.1 ∧
      ∀ s, data.messageSid = some s → s ∈ x.2.handled ∨ s ∈ Tagged.of x.2.deferred i
  | .fail job, x => Tagged.of x.2.unmarked i = [] ∧ ∃ data, Runs i job data x.1
  | _, _ => True

/-- What the others leave alone while the attempt `i` lives. -/
structure Spares (i : ℕ) (x y : State) : Prop where
  holders : Tagged.of y.2.holders i = Tagged.of x.2.holders i
  unmarked : Tagged.of y.2.unmarked i = Tagged.of x.2.unmarked i
  deferred : Tagged.of y.2.deferred i = Tagged.of x.2.deferred i
  jobs : ∀ job data, Runs i job data x.1 → Runs i job data y.1
  fresh : ∀ s ∈ Tagged.of x.2.holders i, s ∉ x.2.handled → s ∉ y.2.handled

/-- What the other attempts do between two calls of the attempt `i`. -/
structure Rely (i : ℕ) (x y : State) : Prop where
  dead : i ∈ x.1.dead → i ∈ y.1.dead
  handled : ∀ s ∈ x.2.handled, s ∈ y.2.handled
  spares : i ∉ y.1.dead → Spares i x y

theorem Spares.refl (i : ℕ) (x : State) : Spares i x x :=
  ⟨rfl, rfl, rfl, fun _ _ h => h, fun _ _ h => h⟩

theorem Rely.refl (i : ℕ) (x : State) : Rely i x x :=
  ⟨id, fun _ h => h, fun _ => .refl i x⟩

theorem Rely.trans {z : State} (h : Rely i x y) (h' : Rely i y z) : Rely i x z := by
  refine ⟨fun hd => h'.dead (h.dead hd), fun s hs => h'.handled s (h.handled s hs), fun hz => ?_⟩
  have hxy := h.spares fun hy => hz (h'.dead hy)
  have hyz := h'.spares hz
  exact ⟨hyz.holders.trans hxy.holders, hyz.unmarked.trans hxy.unmarked,
    hyz.deferred.trans hxy.deferred, fun job data hr => hyz.jobs job data (hxy.jobs job data hr),
    fun s hs hfresh => hyz.fresh s (hxy.holders ▸ hs) (hxy.fresh s hs hfresh)⟩

/-! ### Steps -/

/-- The step keeps the invariant and spares the others. -/
def Keeps (i : ℕ) (x y : State) : Prop :=
  Inv y ∧ ∀ k, k ≠ i → Rely k x y

theorem Keeps.refl (h : Inv x) (i : ℕ) : Keeps i x x :=
  ⟨h, fun k _ => .refl k x⟩

/-- A step that touches neither the story nor the jobs nor the markers. -/
theorem Keeps.of_same (h : Inv x) (hstory : y.2 = x.2) (hdead : y.1.dead = x.1.dead)
    (hjobs : y.1.jobs = x.1.jobs)
    (hkeys : ∀ s, (y.1.keys (.inboundKey s)).isSome = (x.1.keys (.inboundKey s)).isSome) :
    Keeps i x y := by
  obtain ⟨w, story⟩ := x
  obtain ⟨v, story'⟩ := y
  obtain ⟨now, keys, jobs, outbound, dead⟩ := w
  obtain ⟨now', keys', jobs', outbound', dead'⟩ := v
  dsimp only at hstory hdead hjobs hkeys
  subst hstory hdead hjobs
  refine ⟨⟨h.unique, h.runs, h.unmarked, ?_, ?_, h.once, h.pending⟩,
    fun k _ => ⟨id, fun _ h => h, fun _ => ⟨rfl, rfl, rfl, fun _ _ h => h, fun _ _ h => h⟩⟩⟩
  · intro s hs
    exact (h.marked s hs).imp_right fun hsome => (hkeys s).trans hsome
  · intro s hs
    exact h.handled s ((hkeys s).symm.trans hs)

/-- A job that another attempt is working on is not touched by a step on `job`. -/
theorem Runs.update {j : ℕ} {f : Job → Job} (h : Runs k j data w)
    (hother : ∀ r, w.jobs[job]? = some r → r.status = .active k → f r = r) :
    (Table.update w.jobs job f)[j]? = some ⟨data, .active k⟩ := by
  rw [Table.getElem?_update, h, Option.map_some]
  split
  · rename_i hj
    subst hj
    rw [hother _ h rfl]
  · rfl

end Rabotka.Inbound
