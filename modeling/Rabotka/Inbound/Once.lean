import Rabotka.Inbound.Calls
import Rabotka.Lib.Serial

/-!
# Messages are handled once

In every orderly run, whatever attempts, webhooks, deaths of workers and the passing of time do to
each other, a message is handled at most once, and as long as it is not handled the queue has a
job for it that has not returned; an attempt of that job that nobody disturbs handles it
(`messages_handled_once`).

`messages_mishandled` shows what happens otherwise. An attempt that looked for the marker before
another one set it wins the lock afterwards and handles the message again; so does an attempt that
wins the lock after it expired under a slow one. And a job that is run again while the lock of its
dead attempt is still there returns normally, and the message is lost.
-/

namespace Rabotka.Inbound

open Async Expiring

variable {job : ℕ} {messageSid : String} {data : WhatsAppInboundJobData} {w : World}

/-- What a run has made of the messages. -/
structure HandledOnce (x : State) : Prop where
  once : ∀ messageSid, x.2.handled.count messageSid ≤ 1
  kept : ∀ (job : ℕ) (j : Job) (messageSid : String), x.1.jobs[job]? = some j →
    j.data.messageSid = some messageSid → messageSid ∈ x.2.handled ∨
      ∃ (job' : ℕ) (j' : Job), x.1.jobs[job']? = some j' ∧
        j'.data.messageSid = some messageSid ∧ j'.status ≠ .completed

/-- The replies of an attempt, as one job of the outbound queue. -/
def replies (data : WhatsAppInboundJobData) (result : ConversationResult) :
    List WhatsAppOutboundJobData :=
  if result.sends = [] then []
  else [⟨data.phone, result.profileId, data.messageSid, result.sends⟩]

/-- The attempt `i` with nothing else running, to which the conversation answers `result`. -/
def attempted (w : World) (i : ℕ) (result : ConversationResult) (job : ℕ) : World :=
  ((attempt job).alone (fun w c => exec w i ⟨result⟩ c) ⟨"refused"⟩ w).1

/-- A waiting job of a message that is neither marked nor locked is handled by its next
attempt, if nothing disturbs it. -/
def Recovers (w : World) : Prop :=
  ∀ (i job : ℕ) (j : Job) (messageSid : String) (result : ConversationResult), i ∉ w.dead →
    w.jobs[job]? = some j → j.status = .waiting → j.data.messageSid = some messageSid →
    w.has (.inboundKey messageSid) = false → w.has (.inFlightKey messageSid) = false →
    (attempted w i result job).outbound = w.outbound ++ replies j.data result ∧
      (attempted w i result job).has (.inboundKey messageSid)

/-- What is put for some seconds can be read. -/
theorem has_put {ttl : ℕ} {k : Key} (httl : 0 < ttl) :
    World.has { w with keys := w.keys.put k () (some (w.now + ttl)) } k := by
  have hget : (w.keys.put k () (some (w.now + ttl))).get w.now k = some () :=
    Keys.get_eq_some.2 ⟨_, Keys.put_self _ _ _ _, by simp [Entry.live, httl], rfl⟩
  simp [World.has, hget]

theorem has_congr {v : World} {k : Key} (hkeys : v.keys k = w.keys k) (hnow : v.now = w.now) :
    v.has k = w.has k := by
  simp only [World.has, Keys.get, hkeys, hnow]

theorem recovers (w : World) : Recovers w := by
  intro i job j messageSid result halive hj hwaiting hsid hunmarked hunlocked
  set ex : World → (c : Cmd) → Option (World × Resp c) := fun w c => exec w i ⟨result⟩ c with hex
  -- the worlds after each call
  set w₁ := w.setStatus job (.active i) with hw₁
  set w₂ : World :=
    { w₁ with
      keys := w₁.keys.put (.inFlightKey messageSid) () (some (w₁.now + inFlightTtlSeconds)) }
    with hw₂
  set w₃ : World := { w₂ with outbound := w₂.outbound ++ replies j.data result } with hw₃
  set w₄ : World :=
    { w₃ with
      keys := w₃.keys.put (.inboundKey messageSid) () (some (w₃.now + inboundTtlSeconds)) }
    with hw₄
  set w₅ : World := { w₄ with keys := w₄.keys.del (.inFlightKey messageSid) } with hw₅
  have hmark₁ : w₁.has (.inboundKey messageSid) = false := hunmarked
  have hlock₁ : w₁.has (.inFlightKey messageSid) = false := hunlocked
  have hmark₃ : w₃.has (.inboundKey messageSid) = false :=
    (has_congr (v := w₃) (w := w₁) (put_lock w₁.keys messageSid messageSid
      (some (w₁.now + inFlightTtlSeconds))) rfl).trans hmark₁
  have halive₁ : i ∉ w₁.dead := halive
  have htake : ex w (.take job) = some (w₁, j.data) := by
    simp [hex, exec, halive, hj, hwaiting, hw₁]
  have hhas : ex w₁ (.has (.inboundKey messageSid)) = some (w₁, false) := by
    simp [hex, exec, halive₁, hmark₁]
  have hlock : ex w₁ (.claim (.inFlightKey messageSid) inFlightTtlSeconds) = some (w₂, true) := by
    simp [hex, exec, halive₁, hlock₁, hw₂]
  have hanswer : ex w₂ (.handleIncomingMessage j.data.phone j.data.text) = some (w₂, result) := by
    simp [hex, exec, hw₂, halive₁]
  have hmark : ex w₃ (.claim (.inboundKey messageSid) inboundTtlSeconds) = some (w₄, true) := by
    have halive₃ : i ∉ w₃.dead := halive
    simp [hex, exec, halive₃, hmark₃, hw₄]
  have hrelease : ex w₄ (.release (.inFlightKey messageSid)) = some (w₅, ()) := by
    have halive₄ : i ∉ w₄.dead := halive
    simp [hex, exec, halive₄, hw₅]
  have hcomplete : ex w₅ (.complete job) = some (w₅.setStatus job .completed, ()) := by
    have halive₅ : i ∉ w₅.dead := halive
    simp [hex, exec, halive₅]
  -- the parts of the attempt
  have hreplies : (enqueueReplies j.data result).alone ex ⟨"refused"⟩ w₂ = (w₃, .ok ()) := by
    unfold enqueueReplies
    by_cases hnone : result.sends = []
    · simp [hnone, Op.alone, hw₃, replies]
    · simp [hnone, issue, Op.cmd, Op.alone, hex, exec, hw₃, hw₂, halive₁, replies]
  have hhandle : (handle j.data).alone ex ⟨"refused"⟩ w₂ = (w₄, .ok ()) := by
    refine (Op.alone_cmd_bind _ _ hanswer _).trans ?_
    refine (Op.alone_bind_of_ok _ _ hreplies _).trans ?_
    rw [hsid]
    exact Op.alone_cmd_bind _ _ hmark _
  have hprocess : (process j.data).alone ex ⟨"refused"⟩ w₁ = (w₅, .ok ()) := by
    simp only [process, hsid]
    refine (Op.alone_cmd_bind _ _ hhas _).trans ?_
    refine (Op.alone_cmd_bind _ _ hlock _).trans ?_
    refine (Op.alone_bind_of_ok _ _ (a := none) (t := w₄) ?_ _).trans
      (Op.alone_cmd_bind _ _ hrelease _)
    exact Op.alone_orElseCatch_of_ok _ _ (Op.alone_bind_of_ok _ _ hhandle _) _
  have hattempt : attempted w i result job = w₅.setStatus job .completed := by
    have hrun : (attempt job).alone ex ⟨"refused"⟩ w = (w₅.setStatus job .completed, .ok ()) := by
      refine (Op.alone_cmd_bind _ _ htake _).trans ?_
      refine Op.alone_orElseCatch_of_ok _ _ ?_ _
      refine (Op.alone_bind_of_ok _ _ hprocess _).trans ?_
      simp [issue, Op.cmd, Op.alone, hcomplete]
    exact congrArg Prod.fst hrun
  rw [hattempt]
  refine ⟨rfl, ?_⟩
  have hkeys : (w₅.setStatus job .completed).keys (.inboundKey messageSid) =
      w₄.keys (.inboundKey messageSid) := del_lock w₄.keys messageSid messageSid
  exact (has_congr hkeys rfl).trans (has_put (w := w₃) (by decide))

/-! ### Every run -/

/-- Nothing has been handled yet, and no attempt is running. -/
structure Start (w : World) : Prop where
  waiting : ∀ (job : ℕ) (j : Job), w.jobs[job]? = some j → j.status = .waiting
  unmarked : ∀ messageSid, w.keys (.inboundKey messageSid) = none

theorem Start.inv (h : Start w) : Inv (w, {}) := by
  refine ⟨fun i k s hi => ?_, fun i s hi => ?_, fun z hz => ?_, fun s hs => ?_, fun s hs => ?_,
    List.nodup_nil, fun job j s hj hs => .inr ⟨job, j, hj, hs, ?_, ?_⟩⟩
  · cases hi.1
  · cases hi.1
  · cases hz
  · cases hs
  · simp [h.unmarked] at hs
  · simp [h.waiting job j hj]
  · intro i hi
    rw [h.waiting job j hj] at hi
    cases hi

/-- **Messages are handled once**: in every orderly run a message is handled at most once, and
as long as it is not handled the queue has a job for it that has not returned. A waiting job of a
message that is neither marked nor locked is handled by its next attempt. -/
theorem messages_handled_once {acts : List (Act Request Env Exn)} {c : Config State Resp Exn}
    (hw : Start w) (hrun : c ∈ tracked.run orderly (tracked.idle (w, {})) acts) :
    HandledOnce c.store ∧ Recovers c.store.1 := by
  have hwf := Discipline.wf_of_mem_run (D := discipline) handles hrun
    (Discipline.wf_idle hw.inv fun _ => .inr rfl)
  have hinv : Inv c.store := hwf.inv
  refine ⟨⟨fun s => List.nodup_iff_count_le_one.1 hinv.once s, fun job j s hj hs => ?_⟩, recovers _⟩
  refine (hinv.pending job j s hj hs).imp_right ?_
  rintro ⟨job', j', hj', hs', hopen, -⟩
  exact ⟨job', j', hj', hs', hopen⟩

/-! ### One message that is delivered twice -/

/-- Two jobs carry the same message. -/
def twoDeliveries : World where
  now := 1000
  keys := Keys.empty
  jobs := List.replicate 2 ⟨⟨"242", "/start", some "wamid"⟩, .waiting⟩
  outbound := []
  dead := []

/-- The conversation answers with one text. -/
def welcome : Env := ⟨⟨none, [some (.text "Bienvenue")]⟩⟩

/-- `n` calls of the attempt `i`. -/
def calls (i n : ℕ) : List (Act Request Env Exn) :=
  List.replicate n (.step i welcome)

/-- The first attempt throws while it holds the lock, and the second delivery gives way to it;
the queue runs the first job again. -/
def deliveredTwice : List (Act Request Env Exn) :=
  [.spawn (.attempt 0)] ++ calls 0 3 ++ [.spawn (.attempt 1)] ++ calls 1 4 ++
    [.fault 0 ⟨"database"⟩] ++ calls 0 2 ++ [.spawn (.attempt 0)] ++ calls 2 8

theorem messages_handled_once_twice :
    ∃ c ∈ tracked.run orderly (tracked.idle (twoDeliveries, {})) deliveredTwice,
      c.Quiescent ∧ c.store.1.outbound.length = 1 ∧ HandledOnce c.store ∧ Recovers c.store.1 := by
  have hrun : (tracked.run orderly (tracked.idle (twoDeliveries, {})) deliveredTwice).map
      (fun c => (decide c.Quiescent, c.store.1.outbound.length)) = some (true, 1) := by
    decide +kernel
  obtain ⟨c, hc, heq⟩ := Option.map_eq_some_iff.1 hrun
  obtain ⟨hquiet, hlength⟩ := Prod.mk.inj heq
  refine ⟨c, hc, of_decide_eq_true hquiet, hlength, messages_handled_once ⟨?_, fun _ => rfl⟩ hc⟩
  intro job j hj
  rw [List.eq_of_mem_replicate (List.mem_of_getElem? hj)]

/-- The second attempt has looked for the marker before the first one sets it, and wins the lock
after the first one has released it. -/
def lookedTooEarly : List (Act Request Env Exn) :=
  [.spawn (.attempt 0), .spawn (.attempt 1)] ++ calls 1 2 ++ calls 0 8 ++ calls 1 6

/-- The lock expires while the first attempt is still waiting for the conversation. -/
def lockExpired : List (Act Request Env Exn) :=
  [.spawn (.attempt 0)] ++ calls 0 3 ++ [.spawn (.elapse 121), .step 1 {}, .spawn (.attempt 1)] ++
    calls 2 8 ++ calls 0 5

/-- The worker dies while it holds the lock, and the job is run again before the lock expires. -/
def workerDied : List (Act Request Env Exn) :=
  [.spawn (.attempt 0), .spawn (.attempt 1)] ++ calls 0 3 ++ calls 1 4 ++
    [.spawn (.die 0), .step 2 {}, .spawn (.attempt 0)] ++ calls 3 4

/-- **What goes wrong otherwise.** In the first two runs the message is handled twice; in the
third all jobs have returned and the message was never handled. -/
theorem messages_mishandled :
    (tracked.run Guard.all (tracked.idle (twoDeliveries, {})) lookedTooEarly).map
        (fun c => (decide c.Quiescent, c.store.2.handled, c.store.1.outbound.length)) =
        some (true, ["wamid", "wamid"], 2) ∧
      (tracked.run Guard.all (tracked.idle (twoDeliveries, {})) lockExpired).map
        (fun c => (decide c.Quiescent, c.store.2.handled, c.store.1.outbound.length)) =
        some (true, ["wamid", "wamid"], 2) ∧
      (tracked.run Guard.all (tracked.idle (twoDeliveries, {})) workerDied).map
        (fun c => (c.store.1.jobs.map Job.status, c.store.2.handled, c.store.1.outbound)) =
        some ([.completed, .completed], [], []) := by
  decide +kernel

end Rabotka.Inbound
