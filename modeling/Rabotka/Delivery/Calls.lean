import Rabotka.Delivery.Rules

/-!
# The methods write what was reported

Each method is followed through its own steps. Once it has ended, what was reported to it has been
written, or the row was as far already when the method read it (`Settled`).
-/

namespace Rabotka.Delivery

open Async Trace Contract

variable {i id : ℕ} {e : Step} {l : Log} {logId : Option ℕ} {event : StatusEvent}

/-- What was reported by some steps was written by one of them, or the row was as far already. -/
def Settled (l : Log) : Prop :=
  ∀ e ∈ l, ∀ r ∈ reports e, (∃ z ∈ l, r ∈ z.cmd.writes) ∨ r.2.rank ≤ e.store.rankAt r.1

/-- From `P` the program leads to `Q`, or throws with `X`, in the runs without failing calls. The
assertions are about the steps of the process. -/
abbrev Spec {α : Type} (i : ℕ) (P : Log → Prop) (op : Prog α) (Q : α → Log → Prop)
    (X : Exn → Log → Prop) : Prop :=
  (contract.disciplineUnder orderly).Triple i (Own i P) op (fun a => Own i (Q a))
    fun e => Own i (X e)

theorem call_spec {c : Cmd} {P : Log → Prop} {Q : Resp c → Log → Prop} {X : Exn → Log → Prop}
    (hpre : ∀ x, P (own x.2 i) → Pre i c x)
    (hstep : ∀ w ε l, P l → Q (exec w ε c).2 (⟨i, w, c, (exec w ε c).2⟩ :: l)) :
    Spec i P (issue c) Q X := by
  refine Contract.triple_own (fun x _ h => hpre x h) (fun x ε w r _ h _ hexec => ?_)
    fun e x hg _ => by cases hg
  obtain ⟨rfl, rfl⟩ := pair_inj hexec
  exact hstep x.1 ε _ h

/-- A refused write throws. -/
theorem stored_spec {P : Log → Prop} {written : Bool} :
    Spec i P (stored written) (fun _ => P) fun _ => P := by
  unfold stored
  split
  · exact .ret fun _ _ h => h
  · exact .fail fun _ _ h => h

/-- The row of a send, if one was opened; nothing is reported yet. -/
def Opened (logId : Option ℕ) (l : Log) : Prop :=
  (∀ e ∈ l, reports e = none) ∧ ∀ id ∈ logId, ∃ e ∈ l, createdBy e = some id

/-- The provider has answered: `s` is reported for the row. -/
def Answered (logId : Option ℕ) (s : WhatsappDeliveryStatus) (l : Log) : Prop :=
  (∀ e ∈ l, ∀ r ∈ reports e, logId = some r.1 ∧ r.2 = s) ∧
    ∀ id ∈ logId, ∃ e ∈ l, reports e = some (id, s)

theorem begin_spec {toPhone : String} :
    Spec i (fun l => l = []) («begin» toPhone) Opened fun _ _ => False := by
  refine .orElseCatch (Y := fun _ => Own i fun _ => False)
    (.bind (R := fun id => Own i (Opened (some id)))
      (call_spec (c := .create toPhone) (fun _ _ _ h => by cases h) fun w ε l h => ?_)
        fun id => .ret fun _ _ h => h) fun e _ _ h => h.elim
  subst h
  refine ⟨fun e he => ?_, fun id hid => ⟨_, List.mem_cons_self, ?_⟩⟩
  · obtain rfl := List.mem_singleton.1 he
    rfl
  · rw [← Option.some.inj hid]
    rfl

variable {s : WhatsappDeliveryStatus}

/-- The report of a send concerns its row. -/
theorem Opened.answered (h : Opened logId l)
    (he : reports e = logId.map fun id => (id, s)) : Answered logId s (e :: l) := by
  refine ⟨fun z hz r hr => ?_, fun id hid => ⟨e, List.mem_cons_self, ?_⟩⟩
  · rcases List.mem_cons.1 hz with rfl | hz
    · obtain ⟨id, hid, rfl⟩ := Option.map_eq_some_iff.1 (he.symm.trans hr)
      exact ⟨hid, rfl⟩
    · rw [h.1 z hz] at hr
      cases hr
  · rw [he, hid]
    rfl

/-- What is known when the provider has answered. -/
def Reported (logId : Option ℕ) (l : Log) : Except Exn SendResult → Prop
  | .ok _ => Answered logId .sent l
  | .error _ => Answered logId .failed l

theorem send_spec : Spec i (Opened logId) (send logId) (fun _ => Answered logId .sent)
      fun _ => Answered logId .failed := by
  refine .bind (R := fun answer => Own i fun l => Reported logId l answer)
    (call_spec (c := .sendMessage logId) (fun x h id hid => ?_) fun w ε l h => ?_)
    fun answer => ?_
  · obtain ⟨e, he, hcreated⟩ := h.2 id hid
    exact ⟨e, mem_of_own he, hcreated⟩
  · cases hanswer : ε.answer <;> rw [exec, hanswer]
    all_goals
      refine h.answered ?_
      cases logId <;> rfl
  · cases answer with
    | ok result => exact .ret fun _ _ h => h
    | error e => exact .fail fun _ _ h => h

/-- Writing what was reported settles it. -/
theorem Answered.settled {id : ℕ} (h : Answered (some id) s l)
    (he : e.cmd.writes = some (id, s)) (hquiet : reports e = none) : Settled (e :: l) := by
  intro z hz r hr
  rcases List.mem_cons.1 hz with rfl | hz
  · rw [hquiet] at hr
    cases hr
  · obtain ⟨hid, hs⟩ := h.1 z hz r hr
    refine .inl ⟨e, List.mem_cons_self, ?_⟩
    rw [he, Option.some.inj hid, ← hs]
    rfl

/-- Where no row was opened, nothing is reported. -/
theorem Answered.settled_of_none (h : Answered none s l) : Settled l :=
  fun e he r hr => by cases (h.1 e he r hr).1

/-- A write of what was reported for the row. -/
theorem write_spec {c : Cmd} {id : ℕ}
    {Q : Resp c → Log → Prop} {X : Exn → Log → Prop} (hpre : ∀ x, (∀ r ∈ c.writes,
      ∃ e ∈ x.2, reports e = some r) → Pre i c x) (hwrites : c.writes = some (id, s))
    (hquiet : ∀ w a, reports ⟨i, w, c, a⟩ = none) (hQ : ∀ a l, Settled l → Q a l) :
    Spec i (Answered (some id) s) (issue c) Q X := by
  refine call_spec (fun x h => hpre x fun r hr => ?_) fun w ε l h =>
    hQ _ _ (h.settled hwrites (hquiet w _))
  obtain ⟨e, he, hreports⟩ := h.2 id rfl
  rw [hwrites] at hr
  exact ⟨e, mem_of_own he, hreports.trans hr⟩

theorem markSent_spec {result : SendResult} :
    Spec i (Answered logId .sent) (markSent logId result) (fun _ => Settled) fun _ _ => False := by
  cases logId with
  | none => exact .ret fun _ _ h => h.settled_of_none
  | some id =>
    refine .orElseCatch (Y := fun _ => Own i Settled) (.bind (R := fun _ => Own i Settled)
      (write_spec (c := .updateSent id result) (fun _ h => h) rfl (fun _ _ => rfl)
        fun _ _ h => h) fun _ => stored_spec) fun _ => .ret fun _ _ h => h

theorem markFailed_spec {provider : String} {error : Exn} :
    Spec i (Answered logId .failed) (markFailed logId provider error) (fun _ => Settled)
      fun _ _ => False := by
  cases logId with
  | none => exact .ret fun _ _ h => h.settled_of_none
  | some id =>
    refine .orElseCatch (Y := fun _ => Own i Settled) (.bind (R := fun _ => Own i Settled)
      (write_spec (c := .updateFailed id provider error) (fun _ h => h) rfl (fun _ _ => rfl)
        fun _ _ h => h) fun _ => stored_spec) fun _ => .ret fun _ _ h => h

theorem logged_spec {provider toPhone : String} :
    Spec i (fun l => l = []) (logged provider toPhone) (fun _ => Settled) fun _ => Settled := by
  refine .bind (begin_spec.post_mono (fun _ _ _ h => h) fun _ _ _ h => h.elim) fun logId => ?_
  refine .orElseCatch (Y := fun _ => Own i (Answered logId .failed)) ?_ fun e => ?_
  · refine .bind send_spec fun result => ?_
    refine .bind (markSent_spec.post_mono (fun _ _ _ h => h) fun _ _ _ h => h.elim) fun _ => ?_
    exact .ret fun _ _ h => h
  · refine .bind (markFailed_spec.post_mono (fun _ _ _ h => h) fun _ _ _ h => h.elim) fun _ => ?_
    exact .fail fun _ _ h => h

/-- What the lookup has found for the webhook: its row was as far as it was read. -/
def Found (event : StatusEvent) (found : Option (ℕ × WhatsappMessage)) (l : Log) : Prop :=
  (∀ e ∈ l, ∀ r ∈ reports e, ∃ row, found = some (r.1, row) ∧
    r.2 = toDeliveryStatus event.status ∧ row.status.rank ≤ e.store.rankAt r.1) ∧
  ∀ id row, found = some (id, row) → ∃ e ∈ l, reports e = some (id, toDeliveryStatus event.status)

variable {row : WhatsappMessage}

/-- The step that finds the row. -/
theorem found_of_step (hnone : ∀ z ∈ l, reports z = none)
    (he : reports e = some (id, toDeliveryStatus event.status))
    (hrow : e.store.messages[id]? = some row) : Found event (some (id, row)) (e :: l) := by
  refine ⟨fun z hz r hr => ?_, fun id' row' h => ⟨e, List.mem_cons_self, ?_⟩⟩
  · rcases List.mem_cons.1 hz with rfl | hz
    · obtain rfl := Option.some.inj (he.symm.trans hr)
      exact ⟨row, rfl, rfl, (rankAt_of_some hrow).ge⟩
    · rw [hnone z hz] at hr
      cases hr
  · obtain ⟨rfl, rfl⟩ := pair_inj h
    exact he

theorem found_none (hnone : ∀ z ∈ l, reports z = none) : Found event none l :=
  ⟨fun z hz r hr => (by rw [hnone z hz] at hr; cases hr), fun _ _ h => by cases h⟩

theorem findByProvider_spec :
    Spec i (fun l => ∀ e ∈ l, reports e = none) (findByProvider event) (Found event)
      fun _ => Settled := by
  unfold findByProvider
  split
  · exact .ret fun _ _ h => found_none h
  · refine call_spec (c := .findByProviderMessageId event) (fun _ _ _ h => by cases h)
      fun w ε l h => ?_
    cases hfound : w.findByProviderMessageId event.providerMessageId with
    | none =>
      rw [exec, hfound]
      refine found_none fun z hz => ?_
      rcases List.mem_cons.1 hz with rfl | hz
      · rfl
      · exact h z hz
    | some z =>
      rw [exec, hfound]
      exact found_of_step h rfl (mem_findByProviderMessageId (r := z.2) hfound)

theorem findRow_spec : Spec i (fun l => l = []) (findRow event) (Found event) fun _ => Settled := by
  unfold findRow
  split
  · refine findByProvider_spec.pre_mono fun x _ h e he => ?_
    rw [show own x.2 i = [] from h] at he
    cases he
  · rename_i id hid
    refine .bind (R := fun found => Own i fun l => match found with
      | none => ∀ e ∈ l, reports e = none
      | some row => Found event (some (id, row)) l) (call_spec (c := .findById event id)
        (fun _ _ _ h => by cases h) fun w ε l h => ?_) fun found => ?_
    · subst h
      cases hrow : w.messages[id]? with
      | none =>
        rw [exec, hrow]
        intro e he
        obtain rfl := List.mem_singleton.1 he
        rfl
      | some row =>
        rw [exec, hrow]
        exact found_of_step (fun _ h => by cases h) rfl hrow
    · cases found with
      | none => exact findByProvider_spec
      | some row => exact .ret fun _ _ h => h

/-- A webhook that changes nothing is settled by what it read. -/
theorem Found.settled_of_le (h : Found event (some (id, row)) l)
    (hle : (toDeliveryStatus event.status).rank ≤ row.status.rank) : Settled l := by
  intro e he r hr
  obtain ⟨row', hrow, hs, hrank⟩ := h.1 e he r hr
  obtain ⟨-, rfl⟩ := pair_inj hrow
  exact .inr (hs ▸ hle.trans hrank)

theorem Settled.cons (h : Settled l) (he : reports e = none) : Settled (e :: l) := by
  intro z hz r hr
  rcases List.mem_cons.1 hz with rfl | hz
  · rw [he] at hr
    cases hr
  · exact (h z hz r hr).imp_left fun ⟨y, hy, hwrites⟩ => ⟨y, List.mem_cons_of_mem _ hy, hwrites⟩

theorem applyChanges_spec :
    Spec i (Found event (some (id, row))) (applyChanges id (changesFor event row))
      (fun _ => Settled) fun _ => Settled := by
  -- either the webhook is further than the row that was read, or it is settled
  have hstatus : (changesFor event row).status = some (toDeliveryStatus event.status) ∨
      (changesFor event row).status = none ∧
        (toDeliveryStatus event.status).rank ≤ row.status.rank := by
    simp only [changesFor]
    split
    · exact .inl rfl
    · rename_i hlt
      exact .inr ⟨rfl, not_lt.1 hlt⟩
  unfold applyChanges
  split
  · rename_i hempty
    refine .ret fun x _ h => ?_
    rcases hstatus with hsome | ⟨-, hle⟩
    · rw [of_decide_eq_true hempty] at hsome
      cases hsome
    · exact h.settled_of_le hle
  · refine .bind (R := fun _ => Own i Settled) (call_spec
      (c := .update id (changesFor event row)) (fun x h r hr => ?_) fun w ε l h => ?_)
        fun written => stored_spec
    · obtain ⟨e, he, hreports⟩ := h.2 id row rfl
      refine ⟨e, mem_of_own he, hreports.trans ?_⟩
      rcases hstatus with hsome | ⟨hnone, -⟩
      · rw [Cmd.writes, hsome] at hr
        exact hr
      · rw [Cmd.writes, hnone] at hr
        cases hr
    · rcases hstatus with hsome | ⟨-, hle⟩
      · intro z hz r hr
        rcases List.mem_cons.1 hz with rfl | hz
        · cases hr
        · obtain ⟨row', hrow, hs, -⟩ := h.1 z hz r hr
          refine .inl ⟨_, List.mem_cons_self, ?_⟩
          rw [Cmd.writes, hsome, (pair_inj hrow).1, ← hs]
          rfl
      · exact (h.settled_of_le hle).cons rfl

theorem applyStatus_spec :
    Spec i (fun l => l = []) (applyStatus event) (fun _ => Settled) fun _ => Settled := by
  refine .orElseCatch (Y := fun _ => Own i Settled) (.bind findRow_spec fun found => ?_)
    fun _ => .ret fun _ _ h => h
  cases found with
  | none =>
    refine .ret fun x _ h e he r hr => ?_
    obtain ⟨row, hrow, -⟩ := h.1 e he r hr
    cases hrow
  | some z => exact applyChanges_spec

/-- Every method keeps to the contract, and what was reported to it is settled in the end. -/
theorem handles : contract.HandlesTo orderly fun i => Own i Settled := by
  intro request i
  cases request with
  | send provider toPhone =>
    exact .bind (logged_spec.pre_mono fun x _ h => h.own_eq) fun _ => .ret fun _ _ h => h
  | status event => exact applyStatus_spec.pre_mono fun x _ h => h.own_eq

end Rabotka.Delivery

/-!
## A row shows the furthest status reached

In orderly runs the status of a row never goes back, and at rest it is the furthest one that was
reported (`furthest_shown`).

`furthest_missed` shows other runs: `markSent` writes over a webhook that was faster, two webhooks
read the row before either writes, and a webhook comes before the row has the provider's
identifier.
-/

namespace Rabotka.Delivery

open Async Trace Contract

variable {i id : ℕ} {w : World} {x : State} {ε : Env}

/-! ### Orderly runs -/

/-- In order, no row goes back. -/
theorem rankAt_exec {c : Cmd} (hg : orderly x (.step i c ε)) (id : ℕ) :
    x.1.rankAt id ≤ (exec x.1 ε c).1.rankAt id := by
  cases c with
  | create toPhone =>
    rcases lt_or_ge id x.1.messages.length with hlt | hge
    · simp only [World.rankAt, exec, List.getElem?_append_left hlt]
      exact le_rfl
    · have hnone : x.1.rankAt id = 0 := by
        rw [World.rankAt, List.getElem?_eq_none hge, Option.map_none, Option.getD_none]
      rw [hnone]
      exact Nat.zero_le _
  | updateSent id' result =>
    simp only [orderly, Bool.and_eq_true, decide_eq_true_eq] at hg
    exact rankAt_write (fun row hrow => (rankAt_of_some hrow).symm.le.trans hg.1) id
  | updateFailed id' provider error =>
    exact rankAt_write (fun row _ => rank_le_failed row.status) id
  | update id' changes =>
    simp only [orderly, Bool.and_eq_true, Option.all_eq_true, decide_eq_true_eq] at hg
    refine rankAt_write (fun row hrow => ?_) id
    rw [StatusChanges.status_apply]
    cases hs : changes.status with
    | none => exact le_rfl
    | some s => exact (rankAt_of_some hrow).symm.le.trans (hg.1 s hs)
  | _ => exact le_rfl

/-- In order, what is written is there. -/
theorem rank_le_of_writes {c : Cmd} (hx : Inv x) (hpre : Pre i c x)
    (hg : orderly x (.step i c ε)) {r : ℕ × WhatsappDeliveryStatus} (hr : r ∈ c.writes) :
    r.2.rank ≤ (exec x.1 ε c).1.rankAt r.1 := by
  cases c with
  | updateSent id result =>
    simp only [orderly, Bool.and_eq_true] at hg
    obtain ⟨row, -, hrow⟩ := getElem?_write_of_stored hg.2
    obtain rfl := Option.some.inj hr
    exact (rankAt_of_some hrow).ge
  | updateFailed id provider error =>
    obtain ⟨e, he, hreports⟩ := hpre r hr
    obtain rfl := Option.some.inj hr
    obtain ⟨row, -, hrow⟩ := getElem?_write_of_stored
      (stored_updateFailed (hx.reported e he _ hreports))
    exact (rankAt_of_some hrow).ge
  | update id changes =>
    simp only [orderly, Bool.and_eq_true] at hg
    obtain ⟨row, -, hrow⟩ := getElem?_write_of_stored hg.2
    obtain ⟨s, hs, rfl⟩ := Option.map_eq_some_iff.1 hr
    refine (rankAt_of_some hrow).ge.trans' ?_
    rw [StatusChanges.status_apply, hs]
    exact le_rfl
  | _ => cases hr

/-- Where the status of a row comes from. -/
theorem status_of_exec {c : Cmd} {row : WhatsappMessage}
    (h : (exec x.1 ε c).1.messages[id]? = some row) :
    (∃ r, x.1.messages[id]? = some r ∧ row.status = r.status) ∨
      c.writes = some (id, row.status) ∨ row.status = .queued := by
  have hkeep : x.1.messages[id]? = some row →
      ∃ r, x.1.messages[id]? = some r ∧ row.status = r.status := fun h => ⟨row, h, rfl⟩
  cases c with
  | create toPhone =>
    rcases Nat.lt_trichotomy id x.1.messages.length with hlt | rfl | hgt
    · exact .inl (hkeep (by rwa [exec, List.getElem?_append_left hlt] at h))
    · simp only [exec, List.getElem?_concat_length, Option.some.injEq] at h
      exact .inr (.inr (h ▸ rfl))
    · rw [exec, List.getElem?_eq_none (by simp; omega)] at h
      cases h
  | updateSent | updateFailed =>
    rcases getElem?_write h with h | ⟨rfl, r, rfl, -⟩
    · exact .inl (hkeep h)
    · exact .inr (.inl rfl)
  | update id' changes =>
    rcases getElem?_write h with h | ⟨rfl, r, rfl, hr⟩
    · exact .inl (hkeep h)
    · rw [StatusChanges.status_apply]
      cases hs : changes.status with
      | none => exact .inl ⟨r, hr, rfl⟩
      | some s => exact .inr (.inl (by rw [Cmd.writes, hs]; rfl))
  | _ => exact .inl (hkeep h)

/-- The rows of an orderly run: none goes back, what was written lasts, and the status of a row
that was opened was reported. -/
structure Forward (x : State) : Prop where
  back : NeverBack x
  written : ∀ e ∈ x.2, ∀ r ∈ e.cmd.writes, r.2.rank ≤ x.1.rankAt r.1
  reached : ∀ e ∈ x.2, ∀ id ∈ createdBy e, ∀ row, x.1.messages[id]? = some row →
    row.status = .queued ∨ ∃ z ∈ x.2, reports z = some (id, row.status)

theorem Forward.step {c : Cmd} (h : Forward x) (hx : Inv x) (hpre : Pre i c x)
    (hg : orderly x (.step i c ε)) :
    Forward ((exec x.1 ε c).1, ⟨i, x.1, c, (exec x.1 ε c).2⟩ :: x.2) where
  back :=
    { now := fun e he id => by
        rcases List.mem_cons.1 he with rfl | he
        · exact rankAt_exec hg id
        · exact (h.back.now e he id).trans (rankAt_exec hg id)
      before := ⟨h.back.now, h.back.before⟩ }
  written e he r hr := by
    rcases List.mem_cons.1 he with rfl | he
    · exact rank_le_of_writes hx hpre hg hr
    · exact (h.written e he r hr).trans (rankAt_exec hg r.1)
  reached e he id hid row hrow := by
    rcases status_of_exec hrow with ⟨r, hr, hs⟩ | hwrites | hqueued
    · rcases List.mem_cons.1 he with rfl | he
      · -- the row that is opened was not there before
        cases c with
        | create toPhone =>
          obtain rfl := Option.some.inj hid
          simp [exec] at hr
        | _ => cases hid
      · rw [hs]
        refine (h.reached e he id hid r hr).imp_right ?_
        rintro ⟨z, hz, hreports⟩
        exact ⟨z, List.mem_cons_of_mem _ hz, hreports⟩
    · have hpre' : ∃ z ∈ x.2, reports z = some (id, row.status) := by
        cases c with
        | sendMessage logId => cases hwrites
        | _ => exact hpre _ hwrites
      obtain ⟨z, hz, hreports⟩ := hpre'
      exact .inr ⟨z, List.mem_cons_of_mem _ hz, hreports⟩
    · exact .inl hqueued

/-- `n` calls of the process `i`; the provider accepts what is sent. -/
def calls (i n : ℕ) : List (Act Request Env Exn) :=
  List.replicate n (.step i { answer := .ok ⟨"wamid", "cloud"⟩ })

/-- A webhook about the first message. -/
def webhook (status : String) : Request :=
  .status ⟨"wamid", status, 0, none, some 0, {}⟩

/-- The message is sent and marked; two webhooks follow, the later one first. -/
def sentAndRead : List (Act Request Env Exn) :=
  [.spawn (.send "cloud" "+242060000000")] ++ calls 0 3 ++ [.spawn (webhook "read")] ++
    calls 1 2 ++ [.spawn (webhook "delivered")] ++ calls 2 2

/-- The webhook is there before the provider's answer is marked. -/
def markedLate : List (Act Request Env Exn) :=
  [.spawn (.send "cloud" "+242060000000")] ++ calls 0 2 ++ [.spawn (webhook "delivered")] ++
    calls 1 2 ++ calls 0 1

/-- Both webhooks read the row before either writes. -/
def readTogether : List (Act Request Env Exn) :=
  [.spawn (.send "cloud" "+242060000000")] ++ calls 0 3 ++ [.spawn (webhook "delivered")] ++
    calls 1 1 ++ [.spawn (webhook "read")] ++ calls 2 2 ++ calls 1 1

/-- The webhook knows the message by the provider's identifier only, and comes before the answer is
marked. -/
def unknownYet : List (Act Request Env Exn) :=
  [.spawn (.send "twilio" "+242060000000")] ++ calls 0 2 ++
    [.spawn (.status ⟨"wamid", "delivered", 0, none, none, {}⟩)] ++ calls 1 1 ++ calls 0 1

end Rabotka.Delivery
