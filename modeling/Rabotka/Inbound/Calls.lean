import Rabotka.Inbound.Steps

/-!
# An attempt from its start to its end

What an attempt knows at each of its calls: it has just started, it holds the lock of a message
that was not handled yet, it has handled the message and not marked it, or it may return, since
the message was handled or another attempt is running on it. Each program is followed call by
call; a dead attempt makes no calls.
-/

namespace Rabotka.Inbound

open Async Expiring

variable {i job : ℕ} {messageSid : String} {data : WhatsAppInboundJobData} {w : World}
  {x y : State} {α : Type}

/-! ### Assertions of an attempt -/

/-- The triples of this service. -/
abbrev Spec (i : ℕ) (P : State → Prop) (op : Prog α) (Q : α → State → Prop)
    (X : Exn → State → Prop) : Prop :=
  discipline.Triple i P op Q X

/-- As long as the attempt lives. -/
def Alive (i : ℕ) (P : State → Prop) (x : State) : Prop :=
  i ∈ x.1.dead ∨ P x

/-- An assertion that the others keep. -/
def Lasting (i : ℕ) (P : State → Prop) : Prop :=
  ∀ x y : State, Spares i x y → (∀ s ∈ x.2.handled, s ∈ y.2.handled) → P x → P y

/-- The attempt works on the job, and whatever it has handled is marked. -/
structure Working (i job : ℕ) (data : WhatsAppInboundJobData) (x : State) : Prop where
  runs : Runs i job data x.1
  unmarked : Tagged.of x.2.unmarked i = []

theorem lasting_working (i job : ℕ) (data : WhatsAppInboundJobData) :
    Lasting i (Working i job data) :=
  fun _ _ h _ hx => ⟨h.jobs job data hx.runs, h.unmarked.trans hx.unmarked⟩

/-- The attempt has just started. -/
structure Fresh (i job : ℕ) (data : WhatsAppInboundJobData) (x : State) : Prop
    extends Working i job data x where
  holders : Tagged.of x.2.holders i = []
  deferred : Tagged.of x.2.deferred i = []

theorem lasting_fresh (i job : ℕ) (data : WhatsAppInboundJobData) : Lasting i (Fresh i job data) :=
  fun x y h hh hx => ⟨lasting_working i job data x y h hh hx.toWorking,
    h.holders.trans hx.holders, h.deferred.trans hx.deferred⟩

/-- The attempt holds the lock of its message, which was not handled yet. -/
structure Holding (i job : ℕ) (data : WhatsAppInboundJobData) (x : State) : Prop
    extends Working i job data x where
  holders : Tagged.of x.2.holders i = data.messageSid.toList
  fresh : ∀ s ∈ data.messageSid.toList, s ∉ x.2.handled

theorem lasting_holding (i job : ℕ) (data : WhatsAppInboundJobData) :
    Lasting i (Holding i job data) :=
  fun x y h hh hx => ⟨lasting_working i job data x y h hh hx.toWorking, h.holders.trans hx.holders,
    fun s hs => h.fresh s (hx.holders.symm ▸ hs) (hx.fresh s hs)⟩

/-- The attempt has handled its message and is about to mark it. -/
structure Finished (i job : ℕ) (data : WhatsAppInboundJobData) (x : State) : Prop where
  runs : Runs i job data x.1
  unmarked : Tagged.of x.2.unmarked i = data.messageSid.toList
  handled : ∀ s ∈ data.messageSid.toList, s ∈ x.2.handled

theorem lasting_finished (i job : ℕ) (data : WhatsAppInboundJobData) :
    Lasting i (Finished i job data) :=
  fun _ _ h hh hx => ⟨h.jobs job data hx.runs, h.unmarked.trans hx.unmarked,
    fun s hs => hh s (hx.handled s hs)⟩

/-- The attempt may return: its message was handled, or it gave way. -/
structure Settled (i job : ℕ) (data : WhatsAppInboundJobData) (x : State) : Prop
    extends Working i job data x where
  settled : ∀ s, data.messageSid = some s → s ∈ x.2.handled ∨ s ∈ Tagged.of x.2.deferred i

theorem lasting_settled (i job : ℕ) (data : WhatsAppInboundJobData) :
    Lasting i (Settled i job data) :=
  fun x y h hh hx => ⟨lasting_working i job data x y h hh hx.toWorking,
    fun s hs => (hx.settled s hs).imp (hh s) fun hmem => h.deferred.symm ▸ hmem⟩

/-! ### Calls -/

/-- Only living attempts make calls. -/
theorem exec_alive {c : Cmd} {ε : Env} {v : World} {a : Resp c}
    (h : exec w i ε c = some (v, a)) : i ∉ w.dead := by
  intro hd
  simp [exec, hd] at h

/-- One call of a living attempt. -/
theorem call_spec {c : Cmd} {P X : State → Prop} {Q : Resp c → State → Prop} (hP : Lasting i P)
    (hpre : ∀ x, Inv x → P x → Pre i c x)
    (hstep : ∀ x y ε a, Inv x → Inv y → P x → orderly x (.step i c ε) →
      exec x.1 i ε c = some (y.1, a) → y.2 = record x.2 i c a → Q a y)
    (hfault : ∀ x, orderly x (.fault i c) → P x → X x) :
    Spec i (Alive i P) (issue c) (fun a => Alive i (Q a)) (fun _ => Alive i X) := by
  refine .cmd (fun x y _ hrely hx => ?_) (fun x hx hPx halive => ?_)
    (fun x ε y a hx hPx hguard hexec hy => ?_)
    fun x _ hguard _ hPx => hPx.imp_right (hfault x hguard)
  · by_cases hd : i ∈ y.1.dead
    · exact .inl hd
    · exact .inr (hP x y (hrely.spares hd) hrely.handled
        (hx.resolve_left fun hx => hd (hrely.dead hx)))
  · exact hpre x hx (hPx.resolve_left halive)
  · obtain ⟨hcall, hstory⟩ := Service.withHistory_exec.1 hexec
    have hcall : exec x.1 i ε c = some (y.1, a) := hcall
    exact .inr (hstep x y ε a hx hy (hPx.resolve_left (exec_alive hcall)) hguard hcall hstory)

/-- The queue hands the attempt its job. -/
theorem take_spec : Spec i (Alive i fun x => Tagged.of x.2.unmarked i = []) (issue (.take job))
    (fun data => Alive i (Fresh i job data))
    (fun _ => Alive i fun x => Tagged.of x.2.unmarked i = []) := by
  refine call_spec (c := .take job) (fun x y h _ hx => h.unmarked.trans hx) (fun _ _ hx => hx)
    (fun x y ε data _ _ hx _ hexec hstory => ?_) fun _ _ hx => hx
  simp only [exec, exec_alive hexec, if_false] at hexec
  split at hexec
  · rename_i r hr
    split at hexec
    · obtain ⟨hworld, rfl⟩ := pair_inj hexec
      refine ⟨⟨?_, by rw [hstory]; exact hx⟩, ?_, ?_⟩
      · rw [← hworld, Runs, World.setStatus, Table.getElem?_update, hr]
        simp
      · rw [hstory]
        exact Tagged.of_drop_self _ _
      · rw [hstory]
        exact Tagged.of_drop_self _ _
    · cases hexec
  · cases hexec

/-- The conversation answers. Where there is nothing to send, the message is handled. -/
theorem handleIncomingMessage_spec {phone text : String} :
    Spec i (Alive i (Holding i job data)) (issue (.handleIncomingMessage phone text))
      (fun result => Alive i fun x => if result.sends = [] then Finished i job data x
        else Holding i job data x) (fun _ => Alive i (Working i job data)) := by
  refine call_spec (c := .handleIncomingMessage phone text) (lasting_holding i job data)
    (fun x _ hx => ⟨?_, ?_⟩) (fun x y ε result _ _ hx _ hexec hstory => ?_)
    fun _ _ hx => hx.toWorking
  · rw [hx.holders]
    cases data.messageSid <;> simp
  · rw [hx.holders]
    exact hx.fresh
  · simp only [exec, exec_alive hexec, if_false] at hexec
    obtain ⟨hworld, rfl⟩ := pair_inj hexec
    simp only [record] at hstory
    split
    · rename_i hnone
      rw [if_pos hnone] at hstory
      refine ⟨hworld ▸ hx.runs, ?_, fun s hs => ?_⟩
      · rw [hstory, Story.finish, Tagged.of_map_append_self, hx.unmarked, List.append_nil,
          hx.holders]
      · rw [hstory]
        exact List.mem_append_left _ (hx.holders.symm ▸ hs)
    · rename_i hsome
      rw [if_neg hsome] at hstory
      obtain rfl : x = y := Prod.ext hworld hstory.symm
      exact hx

/-- The replies are enqueued. -/
theorem addJob_spec {o : WhatsAppOutboundJobData} (ho : o.replyToMessageId = data.messageSid) :
    Spec i (Alive i (Holding i job data)) (issue (.addJob o))
      (fun _ => Alive i (Finished i job data)) (fun _ => Alive i (Working i job data)) := by
  refine call_spec (c := .addJob o) (lasting_holding i job data) (fun x _ hx s hs => ?_)
    (fun x y ε result _ _ hx _ hexec hstory => ?_) fun _ _ hx => hx.toWorking
  · have hmem : s ∈ data.messageSid.toList := by simp [← ho, hs]
    exact ⟨hx.holders.symm ▸ hmem, hx.fresh s hmem⟩
  · simp only [exec, exec_alive hexec, if_false] at hexec
    have hworld := (pair_inj hexec).1
    refine ⟨hworld ▸ hx.runs, ?_, fun s hs => ?_⟩
    · rw [hstory]
      simp only [record, Story.finish, Tagged.of_map_append_self, hx.unmarked, List.append_nil, ho]
    · rw [hstory]
      exact List.mem_append_left _ (ho.symm ▸ hs)

/-- The message is marked. -/
theorem mark_spec (hsid : data.messageSid = some messageSid) :
    Spec i (Alive i (Finished i job data))
      (issue (.claim (.inboundKey messageSid) inboundTtlSeconds))
      (fun _ => Alive i (Settled i job data)) (fun _ => Alive i (Working i job data)) := by
  refine call_spec (c := .claim (.inboundKey messageSid) inboundTtlSeconds)
    (lasting_finished i job data) (fun x _ hx => ⟨hx.handled _ (by simp [hsid]), ?_⟩)
    (fun x y ε result _ _ hx _ hexec hstory => ?_) fun _ hguard => by cases hguard
  · rw [hx.unmarked, hsid]
    simp
  · have hjobs : y.1.jobs = x.1.jobs := by
      simp only [exec, exec_alive hexec, if_false] at hexec
      split at hexec <;> rw [← (pair_inj hexec).1]
    have hruns : Runs i job data y.1 := by
      rw [Runs, hjobs]
      exact hx.runs
    refine ⟨⟨hruns, ?_⟩, fun s hs => .inl ?_⟩
    · rw [hstory]
      exact Tagged.of_drop_self _ _
    · rw [hstory]
      exact hx.handled s (by simp [hs])

/-! ### Programs -/

theorem Finished.settled (h : Finished i job data x) (hnone : data.messageSid = none) :
    Settled i job data x :=
  ⟨⟨h.runs, by rw [h.unmarked, hnone]; rfl⟩, fun s hs => by simp [hnone] at hs⟩

theorem handle_spec : Spec i (Alive i (Holding i job data)) (handle data)
    (fun _ => Alive i (Settled i job data)) (fun _ => Alive i (Working i job data)) := by
  refine .bind handleIncomingMessage_spec fun result => ?_
  refine .bind (R := fun _ => Alive i (Finished i job data)) ?_ fun _ => ?_
  · unfold enqueueReplies
    by_cases hnone : result.sends = []
    · simp only [hnone, if_true]
      exact .ret fun _ _ hx => hx
    · simp only [hnone, if_false]
      exact addJob_spec rfl
  · cases hsid : data.messageSid with
    | none => exact .ret fun x _ hx => hx.imp_right fun h => h.settled hsid
    | some messageSid => exact .bind (mark_spec hsid) fun _ => .ret fun _ _ hx => hx

/-- The lock is let go of, whatever the attempt has to say. -/
theorem release_spec {P : State → Prop} (hP : Lasting i P)
    (hworking : ∀ x, P x → Tagged.of x.2.unmarked i = [])
    (hkeeps : ∀ x y : State, P x → y.1.jobs = x.1.jobs → y.2.unmarked = x.2.unmarked →
      y.2.handled = x.2.handled → y.2.deferred = x.2.deferred → P y) :
    Spec i (Alive i P) (issue (.release (.inFlightKey messageSid))) (fun _ => Alive i P)
      (fun _ => Alive i P) := by
  refine call_spec (c := .release (.inFlightKey messageSid)) hP (fun x _ hx => hworking x hx)
    (fun x y ε _ _ _ hx _ hexec hstory => ?_) fun _ _ hx => hx
  simp only [exec, exec_alive hexec, if_false] at hexec
  have hworld := (pair_inj hexec).1
  refine hkeeps x y hx (by rw [← hworld]) ?_ ?_ ?_ <;> rw [hstory] <;> rfl

theorem releaseWorking_spec : Spec i (Alive i (Working i job data))
    (issue (.release (.inFlightKey messageSid))) (fun _ => Alive i (Working i job data))
    (fun _ => Alive i (Working i job data)) := by
  refine release_spec (lasting_working i job data) (fun x hx => hx.unmarked)
    fun x y hx hjobs hunmarked _ _ => ⟨?_, hunmarked ▸ hx.unmarked⟩
  rw [Runs, hjobs]
  exact hx.runs

theorem releaseSettled_spec : Spec i (Alive i (Settled i job data))
    (issue (.release (.inFlightKey messageSid))) (fun _ => Alive i (Settled i job data))
    (fun _ => Alive i (Settled i job data)) := by
  refine release_spec (lasting_settled i job data) (fun x hx => hx.unmarked)
    fun x y hx hjobs hunmarked hhandled hdeferred => ⟨⟨?_, hunmarked ▸ hx.unmarked⟩, ?_⟩
  · rw [Runs, hjobs]
    exact hx.runs
  · rw [hhandled, hdeferred]
    exact hx.settled

theorem process_spec : Spec i (Alive i (Fresh i job data)) (process data)
    (fun _ => Alive i (Settled i job data)) (fun _ => Alive i (Working i job data)) := by
  unfold process
  cases hsid : data.messageSid with
  | none =>
    refine handle_spec.pre_mono fun x _ hx => hx.imp_right fun h => ⟨h.toWorking, ?_, ?_⟩
    · rw [h.holders, hsid]
      rfl
    · simp [hsid]
  | some messageSid =>
    refine .bind (R := fun seen => Alive i fun x => Fresh i job data x ∧
      (seen = true → messageSid ∈ x.2.handled)) ?_ fun seen => ?_
    · refine call_spec (c := .has (.inboundKey messageSid)) (lasting_fresh i job data)
        (fun _ _ _ => trivial) (fun x y ε seen hx _ hfresh _ hexec hstory => ?_)
        fun _ _ hx => hx.toWorking
      simp only [exec, exec_alive hexec, if_false] at hexec
      obtain ⟨hworld, rfl⟩ := pair_inj hexec
      obtain rfl : x = y := Prod.ext hworld hstory.symm
      refine ⟨hfresh, fun hseen => hx.handled messageSid ?_⟩
      obtain ⟨u, hu⟩ := Option.isSome_iff_exists.1 hseen
      obtain ⟨e, he, -⟩ := Keys.get_eq_some.1 hu
      simp [he]
    cases seen with
    | true =>
      simp only [if_true]
      refine .ret fun x _ hx => hx.imp_right fun h => ⟨h.1.toWorking, fun s hs => .inl ?_⟩
      obtain rfl := Option.some.inj (hsid.symm.trans hs)
      exact h.2 trivial
    | false =>
      simp only [Bool.false_eq_true, if_false]
      refine .pre_mono (R := Alive i (Fresh i job data)) ?_ fun _ _ hx => hx.imp_right fun h => h.1
      refine .bind (R := fun won => Alive i fun x => if won then Holding i job data x
        else Settled i job data x) ?_ fun won => ?_
      · refine call_spec (c := .claim (.inFlightKey messageSid) inFlightTtlSeconds)
          (lasting_fresh i job data) (fun x _ hx => ⟨hx.holders, hx.deferred, job, data,
            hx.runs, hsid⟩) (fun x y ε won hx _ hfresh hguard hexec hstory => ?_)
          fun _ _ hx => hx.toWorking
        simp only [exec, exec_alive hexec, if_false] at hexec
        split at hexec
        · obtain ⟨hworld, rfl⟩ := pair_inj hexec
          simp only [record, Bool.false_eq_true, if_false] at hstory ⊢
          refine ⟨⟨hworld ▸ hfresh.runs, by rw [hstory]; exact hfresh.unmarked⟩,
            fun s hs => .inr ?_⟩
          obtain rfl := Option.some.inj (hsid.symm.trans hs)
          rw [hstory]
          simp
        · rename_i hfree
          obtain ⟨hworld, rfl⟩ := pair_inj hexec
          have hwin : State.isRunning x messageSid = false ∧
              x.1.keys (.inboundKey messageSid) = none := by
            simpa [orderly, hfree] using hguard
          have hnew := (Keeps.win (w := x.1) (h := x.2) hx ⟨hfresh.holders, hfresh.deferred, job,
            data, hfresh.runs, hsid⟩ hwin.1 hwin.2).2
          simp only [record, if_true] at hstory ⊢
          refine ⟨⟨?_, by rw [hstory]; exact hfresh.unmarked⟩, ?_, fun s hs => ?_⟩
          · rw [← hworld]
            exact hfresh.runs
          · rw [hstory, Tagged.of_cons_self, hfresh.holders, hsid]
            rfl
          · obtain rfl : s = messageSid := by simpa [hsid] using hs
            rw [hstory]
            exact hnew
      cases won with
      | false =>
        simp only [Bool.not_false, Bool.false_eq_true, if_true, if_false]
        exact .ret fun _ _ hx => hx
      | true =>
        simp only [Bool.not_true, Bool.false_eq_true, if_true, if_false]
        refine .bind (R := fun thrown => Alive i fun x =>
          thrown.elim (Settled i job data x) fun _ => Working i job data x) ?_ fun thrown => ?_
        · refine .orElseCatch (Y := fun _ => Alive i (Working i job data)) ?_
            fun e => .ret fun _ _ hx => hx
          exact .bind handle_spec fun _ => .ret fun _ _ hx => hx
        · cases thrown with
          | none =>
            refine .bind (releaseSettled_spec.post_mono (fun _ _ _ hx => hx)
              fun _ _ _ hx => hx.imp_right Settled.toWorking) fun _ => .ret fun _ _ hx => hx
          | some e => exact .bind releaseWorking_spec fun _ => .fail fun _ _ hx => hx

theorem attempt_spec : Spec i (Alive i fun x => Tagged.of x.2.unmarked i = []) (attempt job)
    (fun _ => Alive i fun x => Tagged.of x.2.unmarked i = [])
    (fun _ => Alive i fun x => Tagged.of x.2.unmarked i = []) := by
  refine .bind take_spec fun data => ?_
  refine .orElseCatch (Y := fun _ => Alive i (Working i job data)) ?_ fun _ => ?_
  · refine .bind process_spec fun _ => ?_
    refine call_spec (c := .complete job) (lasting_settled i job data)
      (fun x _ hx => ⟨hx.unmarked, data, hx.runs, hx.settled⟩)
      (fun x y ε _ _ _ hx _ _ hstory => ?_) fun _ _ hx => hx.toWorking
    rw [hstory]
    exact hx.unmarked
  · refine call_spec (c := .fail job) (lasting_working i job data)
      (fun x _ hx => ⟨hx.unmarked, data, hx.runs⟩) (fun x y ε _ _ _ hx _ _ hstory => ?_)
      fun _ _ hx => hx.unmarked
    rw [hstory]
    exact hx.unmarked

theorem handles : Discipline.Handles tracked discipline := by
  have hother : ∀ {i : ℕ} {c : Cmd}, (∀ x, Pre i c x) → (∀ h a, record h i c a = h) →
      Spec i (Alive i fun x => Tagged.of x.2.unmarked i = []) (issue c)
        (fun _ => Alive i fun x => Tagged.of x.2.unmarked i = [])
        (fun _ => Alive i fun x => Tagged.of x.2.unmarked i = []) := by
    intro i c hpre hrecord
    refine call_spec (fun x y h _ hx => h.unmarked.trans hx) (fun x _ _ => hpre x)
      (fun x y ε a _ _ hx _ _ hstory => ?_) fun _ _ hx => hx
    rw [hstory, hrecord]
    exact hx
  intro request i x hx _ hidle
  cases request with
  | attempt job => exact attempt_spec x hx hidle
  | enqueue data => exact hother (c := .enqueue data) (fun _ => trivial) (fun _ _ => rfl) x hx hidle
  | elapse seconds =>
    exact hother (c := .elapse seconds) (fun _ => trivial) (fun _ _ => rfl) x hx hidle
  | die attempt => exact hother (c := .die attempt) (fun _ => trivial) (fun _ _ => rfl) x hx hidle

end Rabotka.Inbound
