import Rabotka.Lib.Trace
import Rabotka.Delivery.Log

/-!
# What is reported about a message

What is reported about a message (`reports`) is what the provider answered to the send and what
the webhooks say that were matched to its row. In orderly runs no write takes a row back: a status
is written where the row is at most as far, no write is refused, every webhook finds a row and no
call fails. `contract` says what the methods keep to: they write what was reported.
-/

namespace Rabotka.Delivery

open Async Trace

/-- A step of this service. -/
abbrev Step := Entry World Resp

/-- The steps of a run. -/
abbrev Log := Trace World Resp

/-- The table with its steps. -/
abbrev State := Traced World Resp

variable {i id : ℕ} {s : WhatsappDeliveryStatus} {w : World} {x : State} {e : Step} {l : Log}
  {ε : Env} {logId : Option ℕ} {event : StatusEvent}

/-! ### What the steps say -/

/-- The rank of a row; a row that is not there has none. -/
def World.rankAt (w : World) (id : ℕ) : ℕ :=
  ((w.messages[id]?).map fun row => row.status.rank).getD 0

/-- The row that the step opens. -/
def createdBy : Step → Option ℕ
  | ⟨_, _, .create _, id⟩ => some id
  | _ => none

/-- The row and the status that the step reports. -/
def reports : Step → Option (ℕ × WhatsappDeliveryStatus)
  | ⟨_, _, .sendMessage (some id), .ok _⟩ => some (id, .sent)
  | ⟨_, _, .sendMessage (some id), .error _⟩ => some (id, .failed)
  | ⟨_, _, .findById event id, some _⟩ => some (id, toDeliveryStatus event.status)
  | ⟨_, _, .findByProviderMessageId event, some (id, _)⟩ =>
    some (id, toDeliveryStatus event.status)
  | _ => none

/-- The row and the status that a command writes. -/
def Cmd.writes : Cmd → Option (ℕ × WhatsappDeliveryStatus)
  | .updateSent id _ => some (id, .sent)
  | .updateFailed id _ _ => some (id, .failed)
  | .update id changes => changes.status.map fun s => (id, s)
  | _ => none

/-- The status is one that was reported for the row, and none that was reported is further. -/
def Furthest (id : ℕ) (status : WhatsappDeliveryStatus) (l : Log) : Prop :=
  (status = .queued ∨ ∃ e ∈ l, reports e = some (id, status)) ∧
    ∀ e ∈ l, ∀ r ∈ reports e, r.1 = id → r.2.rank ≤ status.rank

instance (id : ℕ) (status : WhatsappDeliveryStatus) (l : Log) : Decidable (Furthest id status l) :=
  inferInstanceAs (Decidable (_ ∧ _))

/-- No row was ever further than it was later. -/
structure NeverBack (x : State) : Prop where
  now : ∀ e ∈ x.2, ∀ id, e.store.rankAt id ≤ x.1.rankAt id
  before : Every (fun e older => ∀ z ∈ older, ∀ id, z.store.rankAt id ≤ e.store.rankAt id) x.2

/-- A status is written where the row is at most as far, writes are not refused, a webhook finds
its row, and no call fails. -/
def orderly : Guard State Cmd Request Env
  | _, .fault _ _ => false
  | x, .step _ (.updateSent id result) ε =>
    x.1.rankAt id ≤ WhatsappDeliveryStatus.sent.rank && (exec x.1 ε (.updateSent id result)).2
  | x, .step _ (.update id changes) ε =>
    changes.status.all (fun s => x.1.rankAt id ≤ s.rank) && (exec x.1 ε (.update id changes)).2
  | x, .step _ (.findByProviderMessageId event) _ =>
    (x.1.findByProviderMessageId event.providerMessageId).isSome
  | _, _ => true

/-! ### Writing a row -/

section Write

variable {f : WhatsappMessage → WhatsappMessage}

theorem write_cases (w : World) (id : ℕ) (f : WhatsappMessage → WhatsappMessage) :
    w.write id f = (w, false) ∨ ∃ row, w.messages[id]? = some row ∧
      w.write id f = ({ w with messages := w.messages.set id (f row) }, true) := by
  unfold World.write
  split
  · exact .inl rfl
  · rename_i row hrow
    split
    · exact .inl rfl
    · exact .inr ⟨row, hrow, rfl⟩

theorem length_write (w : World) (id : ℕ) (f : WhatsappMessage → WhatsappMessage) :
    (w.write id f).1.messages.length = w.messages.length := by
  rcases write_cases w id f with h | ⟨row, -, h⟩
  · rw [h]
  · rw [h, List.length_set]

theorem getElem?_write_of_ne {j : ℕ} (hj : j ≠ id) (w : World)
    (f : WhatsappMessage → WhatsappMessage) :
    (w.write id f).1.messages[j]? = w.messages[j]? := by
  rcases write_cases w id f with h | ⟨row, -, h⟩
  · rw [h]
  · rw [h, List.getElem?_set_ne hj.symm]

/-- A write that takes its row no further back takes no row back. -/
theorem rankAt_write
    (hf : ∀ row, w.messages[id]? = some row → row.status.rank ≤ (f row).status.rank) (j : ℕ) :
    w.rankAt j ≤ (w.write id f).1.rankAt j := by
  rcases eq_or_ne j id with rfl | hne
  · rcases write_cases w j f with h | ⟨row, hrow, h⟩
    · rw [h]
    · have hlt := (List.getElem?_eq_some_iff.1 hrow).1
      rw [h]
      simp only [World.rankAt, List.getElem?_set_self hlt, hrow, Option.map_some, Option.getD_some]
      exact hf row hrow
  · simp only [World.rankAt, getElem?_write_of_ne hne]
    exact le_rfl

/-- What was written is there. -/
theorem getElem?_write_of_stored (h : (w.write id f).2) :
    ∃ row, w.messages[id]? = some row ∧ (w.write id f).1.messages[id]? = some (f row) := by
  rcases write_cases w id f with hno | ⟨row, hrow, hyes⟩
  · rw [hno] at h
    cases h
  · have hlt := (List.getElem?_eq_some_iff.1 hrow).1
    exact ⟨row, hrow, by rw [hyes, List.getElem?_set_self hlt]⟩

/-- A row is written, or stays. -/
theorem getElem?_write {row : WhatsappMessage} {j : ℕ}
    (h : (w.write id f).1.messages[j]? = some row) :
    w.messages[j]? = some row ∨ j = id ∧ ∃ r, row = f r ∧ w.messages[id]? = some r := by
  rcases eq_or_ne j id with rfl | hne
  · rcases write_cases w j f with hno | ⟨r, hr, hyes⟩
    · rw [hno] at h
      exact .inl h
    · have hlt := (List.getElem?_eq_some_iff.1 hr).1
      rw [hyes, List.getElem?_set_self hlt] at h
      exact .inr ⟨rfl, r, (Option.some.inj h).symm, hr⟩
  · exact .inl (by rwa [getElem?_write_of_ne hne] at h)

end Write

theorem rankAt_of_some {row : WhatsappMessage} (h : w.messages[id]? = some row) :
    w.rankAt id = row.status.rank := by
  simp [World.rankAt, h]

theorem rank_le_failed (s : WhatsappDeliveryStatus) :
    s.rank ≤ WhatsappDeliveryStatus.failed.rank := by
  cases s <;> decide

/-- The failure of a send is not refused. -/
theorem stored_updateFailed {provider : String} {error : Exn} (h : id < w.messages.length) :
    (exec w ε (.updateFailed id provider error)).2 := by
  obtain ⟨row, hrow⟩ : ∃ row, w.messages[id]? = some row := ⟨_, List.getElem?_eq_getElem h⟩
  simp [exec, World.write, hrow, WhatsappMessage.markFailed, WhatsappMessage.withError]

/-! ### The contract -/

/-- The rows that the steps speak of are there. -/
structure Inv (x : State) : Prop where
  created : ∀ e ∈ x.2, ∀ id ∈ createdBy e, id < x.1.messages.length
  reported : ∀ e ∈ x.2, ∀ r ∈ reports e, r.1 < x.1.messages.length

/-- A process writes a status that was reported, and sends what has a row. -/
def Pre (_ : ℕ) : Cmd → State → Prop
  | .sendMessage logId, x => ∀ id ∈ logId, ∃ e ∈ x.2, createdBy e = some id
  | c, x => ∀ r ∈ c.writes, ∃ e ∈ x.2, reports e = some r

theorem length_le_exec (w : World) (ε : Env) (c : Cmd) :
    w.messages.length ≤ (exec w ε c).1.messages.length := by
  cases c with
  | create toPhone => simp [exec]
  | updateSent id result => exact (length_write w id _).ge
  | updateFailed id provider error => exact (length_write w id _).ge
  | update id changes => exact (length_write w id _).ge
  | _ => exact le_rfl

theorem mem_findByProviderMessageId {providerMessageId : String} {r : WhatsappMessage}
    (h : w.findByProviderMessageId providerMessageId = some (id, r)) :
    w.messages[id]? = some r := by
  obtain ⟨j, -, hj⟩ := List.exists_of_findSome?_eq_some h
  obtain ⟨r', hr, hsome⟩ := Option.bind_eq_some_iff.1 hj
  split at hsome
  · obtain ⟨rfl, rfl⟩ := pair_inj hsome
    exact hr
  · cases hsome

/-- What a step reports about a row: it was read there, or it is a send. -/
theorem lt_of_reports {c : Cmd} (hx : Inv x) (hpre : Pre i c x) {r : ℕ × WhatsappDeliveryStatus}
    (hr : r ∈ reports ⟨i, x.1, c, (exec x.1 ε c).2⟩) : r.1 < x.1.messages.length := by
  cases c with
  | sendMessage logId =>
    cases logId with
    | none => cases hr
    | some id =>
      have hid : r.1 = id := by
        cases hanswer : ε.answer <;> rw [exec, hanswer] at hr <;> rw [← Option.some.inj hr]
      obtain ⟨e, he, hcreated⟩ := hpre id rfl
      exact hid ▸ hx.created e he id hcreated
  | findById event id =>
    cases hrow : x.1.messages[id]? with
    | none =>
      rw [exec, hrow] at hr
      cases hr
    | some row =>
      rw [exec, hrow] at hr
      rw [← Option.some.inj hr]
      exact (List.getElem?_eq_some_iff.1 hrow).1
  | findByProviderMessageId event =>
    cases hfound : x.1.findByProviderMessageId event.providerMessageId with
    | none =>
      rw [exec, hfound] at hr
      cases hr
    | some z =>
      rw [exec, hfound] at hr
      rw [← Option.some.inj hr]
      exact (List.getElem?_eq_some_iff.1 (mem_findByProviderMessageId (r := z.2) hfound)).1
  | _ => cases hr

theorem Inv.step {c : Cmd} (hx : Inv x) (hpre : Pre i c x) :
    Inv ((exec x.1 ε c).1, ⟨i, x.1, c, (exec x.1 ε c).2⟩ :: x.2) where
  created e he id hid := by
    rcases List.mem_cons.1 he with rfl | he
    · cases c with
      | create toPhone =>
        rw [← Option.some.inj hid]
        simp [exec]
      | _ => cases hid
    · exact (hx.created e he id hid).trans_le (length_le_exec _ _ _)
  reported e he r hr := by
    rcases List.mem_cons.1 he with rfl | he
    · exact (lt_of_reports hx hpre hr).trans_le (length_le_exec _ _ _)
    · exact (hx.reported e he r hr).trans_le (length_le_exec _ _ _)

/-- What the methods keep to. -/
def contract : Contract service where
  inv := Inv
  pre := Pre
  sound hx hpre hexec := by
    obtain ⟨rfl, rfl⟩ := pair_inj hexec
    exact hx.step hpre

end Rabotka.Delivery
