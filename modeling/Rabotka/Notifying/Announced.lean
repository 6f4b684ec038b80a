import Rabotka.Notifying.InApp

/-!
# Announcing each notification once

Whatever the order of the steps, announcements go to the recipients of their rows, and a broadcast
that finishes has announced all its rows: the clock of the application is less than a second ahead
of the database's. A row is announced at most once as long as no call reads back the rows of
another (`announced_once`).
-/

namespace Rabotka.Notifying.InApp

open Table Lib.Runs List

variable {T C : Type*} [DecidableEq T] {w w' : World T C} {e : Event T C}

/-! ### Steps -/

/-- What a step does. -/
inductive Effect (w : World T C) : Event T C → World T C → Prop
  | comes (e : Event T C) (c : Call T C) (hc : c = .finished 0
      ∨ (∃ ids type copy writtenAfter, c = .inserting ids type copy writtenAfter
        ∧ writtenAfter ≤ w.now)
      ∨ ∃ id type copy, c = .creating id type copy) :
    Effect w e { w with calls := w.calls ++ [c] }
  | waits (ms : ℕ) : Effect w (.wait ms) { w with now := w.now + ms }
  | inserts (i : ℕ) (ids : List ℕ) (type : T) (copy : C) (writtenAfter : ℤ)
      (hi : w.calls[i]? = some (.inserting ids type copy writtenAfter)) :
    Effect w (.take i)
      { w with
        rows := w.rows ++ ids.map fun id => ⟨id, type, w.now, copy, i⟩
        calls := w.calls.set i (.readingBack ids type writtenAfter ids.length) }
  | readsBack (i : ℕ) (ids : List ℕ) (type : T) (writtenAfter : ℤ) (count : ℕ)
      (hi : w.calls[i]? = some (.readingBack ids type writtenAfter count)) :
    Effect w (.take i)
      { announce w i (written w.rows ids type writtenAfter) with
        calls := w.calls.set i (.finished count) }
  | creates (i id : ℕ) (type : T) (copy : C)
      (hi : w.calls[i]? = some (.creating id type copy)) :
    Effect w (.take i)
      { w with
        rows := w.rows ++ [⟨id, type, w.now, copy, i⟩]
        calls := w.calls.set i (.announcing w.rows.length) }
  | announces (i id : ℕ) (row : Row T C) (hi : w.calls[i]? = some (.announcing id))
      (hrow : w.rows[id]? = some row) :
    Effect w (.take i)
      { announce w i [(id, row)] with calls := w.calls.set i (.created id) }
  | throws (i : ℕ) (c : Call T C) (hi : w.calls[i]? = some c) (hc : canThrow c = true) :
    Effect w (.throw i) { w with calls := w.calls.set i .failed }

theorem step_effect (h : step w e = some w') : Effect w e w' := by
  cases e with
  | createMany ids type copy clock =>
    rw [step] at h
    split_ifs at h with hnil hclock
    · obtain rfl := Option.some.inj h
      exact .comes _ _ (Or.inl rfl)
    · obtain rfl := Option.some.inj h
      have hlt := (abs_lt.mp hclock).2
      exact .comes _ _ (Or.inr (Or.inl ⟨ids, type, copy, clock - 1000, rfl, by omega⟩))
  | create id type copy =>
    obtain rfl := Option.some.inj h
    exact .comes _ _ (Or.inr (Or.inr ⟨id, type, copy, rfl⟩))
  | wait ms =>
    obtain rfl := Option.some.inj h
    exact .waits ms
  | take i =>
    obtain ⟨x, hx, rfl⟩ := Option.map_eq_some_iff.mp h
    obtain ⟨c, hi, hc⟩ := Option.bind_eq_some_iff.mp hx
    cases c with
    | inserting ids type copy writtenAfter =>
      obtain rfl := Option.some.inj hc
      exact .inserts i ids type copy writtenAfter hi
    | readingBack ids type writtenAfter count =>
      obtain rfl := Option.some.inj hc
      exact .readsBack i ids type writtenAfter count hi
    | creating id type copy =>
      obtain rfl := Option.some.inj hc
      exact .creates i id type copy hi
    | announcing id =>
      obtain ⟨row, hrow, rfl⟩ := Option.map_eq_some_iff.mp hc
      exact .announces i id row hi hrow
    | finished | created | failed => exact nomatch hc
  | throw i =>
    obtain ⟨c, hc, rfl⟩ := Option.map_eq_some_iff.mp h
    exact .throws i c (Option.filter_eq_some_iff.mp hc).1 (Option.filter_eq_some_iff.mp hc).2

/-! ### Rows and their calls -/

/-- What the call which wrote a row knows of it. -/
def Knows (id : ℕ) (row : Row T C) : Call T C → Prop
  | .inserting _ _ _ _ | .creating _ _ _ => False
  | .readingBack ids type writtenAfter _ =>
    row.recipientId ∈ ids ∧ row.type = type ∧ writtenAfter ≤ row.createdAt
  | .announcing id' => id = id'
  | .finished _ | .created _ | .failed => True

structure Inv (w : World T C) : Prop where
  pushed : w.pushed = w.emitted
  rows : ∀ (id : ℕ) (row : Row T C), w.rows[id]? = some row →
    ∃ c, w.calls[row.call]? = some c ∧ Knows id row c
  begun : ∀ (i : ℕ) (ids : List ℕ) (type : T) (copy : C) (writtenAfter : ℤ),
    w.calls[i]? = some (.inserting ids type copy writtenAfter) → writtenAfter ≤ w.now
  toRecipient : ToRecipient w
  emittedByCall : EmittedByCall w

omit [DecidableEq T] in
theorem inv_start (now : ℤ) : Inv ({ now } : World T C) where
  pushed := rfl
  rows _ _ h := by simp at h
  begun _ _ _ _ _ h := by simp at h
  toRecipient _ h := by simp at h
  emittedByCall _ _ h := by simp at h

omit [DecidableEq T] in
/-- A row that is added, or was there. -/
theorem getElem?_rows_cases {rows new : List (Row T C)} {id : ℕ} {row : Row T C}
    (h : (rows ++ new)[id]? = some row) :
    rows[id]? = some row ∨ (rows.length ≤ id ∧ row ∈ new) := by
  rcases lt_or_ge id rows.length with hlt | hge
  · rw [getElem?_append_left hlt] at h
    exact Or.inl h
  · rw [getElem?_append_right hge] at h
    exact Or.inr ⟨hge, mem_of_getElem? h⟩

omit [DecidableEq T] in
/-- New rows do not change what announcements are about. -/
theorem ToRecipient.append {new : List (Row T C)} {calls : List (Call T C)} (h : ToRecipient w) :
    ToRecipient { w with rows := w.rows ++ new, calls } := by
  intro a ha
  obtain ⟨row, hrow, hsame⟩ := h a ha
  exact ⟨row, by rw [getElem?_append_left (List.getElem?_eq_some_iff.mp hrow).1, hrow], hsame⟩

variable {i : ℕ}

omit [DecidableEq T] in
/-- Announcements are about rows that are there. -/
theorem ToRecipient.announce {found : List (ℕ × Row T C)} {calls : List (Call T C)}
    (h : ToRecipient w) (hfound : ∀ x ∈ found, w.rows[x.1]? = some x.2) :
    ToRecipient { announce w i found with calls } := by
  intro a ha
  have hnew : ∀ a ∈ found.map (fun x => (⟨x.1, x.2.recipientId, x.2.copy, i⟩ : Announcement C)),
      ∃ row, w.rows[a.rowId]? = some row ∧ a.recipientId = row.recipientId ∧ a.copy = row.copy := by
    intro a ha
    obtain ⟨x, hx, rfl⟩ := mem_map.mp ha
    exact ⟨x.2, hfound x hx, rfl, rfl⟩
  rcases mem_append.mp ha with ha | ha
  · rcases mem_append.mp ha with ha | ha
    · exact h a (mem_append_left _ ha)
    · exact hnew a ha
  · rcases mem_append.mp ha with ha | ha
    · exact h a (mem_append_right _ ha)
    · exact hnew a ha

omit [DecidableEq T] in
/-- Rows stay known while a call that knows nothing of them changes into any other. -/
theorem Inv.rows_set (h : Inv w) {c c' : Call T C} (hi : w.calls[i]? = some c)
    (hc : ∀ id row, Knows id row c → Knows id row c') (id : ℕ) (row : Row T C)
    (hrow : w.rows[id]? = some row) :
    ∃ d, (w.calls.set i c')[row.call]? = some d ∧ Knows id row d := by
  obtain ⟨d, hd, hknows⟩ := h.rows id row hrow
  rcases eq_or_ne i row.call with rfl | hne
  · rw [hi] at hd
    obtain rfl := Option.some.inj hd
    exact ⟨c', getElem?_set_self (List.getElem?_eq_some_iff.mp hi).1, hc id row hknows⟩
  · exact ⟨d, by rw [getElem?_set_ne hne, hd], hknows⟩

theorem Inv.rows_step (h : Inv w) (heffect : Effect w e w') (id : ℕ) (row : Row T C)
    (hrow : w'.rows[id]? = some row) : ∃ c, w'.calls[row.call]? = some c ∧ Knows id row c := by
  cases heffect with
  | comes e c hc =>
    obtain ⟨d, hd, hknows⟩ := h.rows id row hrow
    exact ⟨d, by rw [getElem?_append_left (List.getElem?_eq_some_iff.mp hd).1, hd], hknows⟩
  | waits ms => exact h.rows id row hrow
  | inserts i ids type copy writtenAfter hi =>
    rcases getElem?_rows_cases hrow with hrow | ⟨-, hmem⟩
    · exact h.rows_set hi (fun _ _ hk => hk.elim) id row hrow
    · obtain ⟨recipientId, hid, rfl⟩ := mem_map.mp hmem
      exact ⟨_, getElem?_set_self (List.getElem?_eq_some_iff.mp hi).1, hid, rfl,
        h.begun i ids type copy writtenAfter hi⟩
  | readsBack i ids type writtenAfter count hi =>
    exact h.rows_set hi (by intros; trivial) id row hrow
  | creates i recipientId type copy hi =>
    rcases getElem?_append_cases hrow with hrow | ⟨rfl, rfl⟩
    · exact h.rows_set hi (fun _ _ hk => hk.elim) id row hrow
    · exact ⟨_, getElem?_set_self (List.getElem?_eq_some_iff.mp hi).1, rfl⟩
  | announces i id' row' hi hrow' => exact h.rows_set hi (by intros; trivial) id row hrow
  | throws i c hi hc => exact h.rows_set hi (by intros; trivial) id row hrow

theorem Inv.begun_step (h : Inv w) (heffect : Effect w e w') (j : ℕ) (ids : List ℕ) (type : T)
    (copy : C) (writtenAfter : ℤ)
    (hj : w'.calls[j]? = some (.inserting ids type copy writtenAfter)) : writtenAfter ≤ w'.now := by
  cases heffect with
  | comes e c hc =>
    rcases getElem?_append_cases hj with hj | ⟨-, rfl⟩
    · exact h.begun j ids type copy writtenAfter hj
    · rcases hc with hc | ⟨ids', type', copy', after', hc, hle⟩ | ⟨id, type', copy', hc⟩
      · exact nomatch hc
      · exact (Call.inserting.inj hc).2.2.2 ▸ hle
      · exact nomatch hc
  | waits ms => exact (h.begun j ids type copy writtenAfter hj).trans (by dsimp only; omega)
  | inserts | readsBack | creates | announces | throws =>
    exact h.begun j ids type copy writtenAfter ((getElem?_set_cases hj).resolve_left (by simp)).2

theorem Inv.toRecipient_step (h : Inv w) (heffect : Effect w e w') : ToRecipient w' := by
  cases heffect with
  | comes | waits | throws => exact h.toRecipient
  | inserts | creates => exact h.toRecipient.append
  | readsBack i ids type writtenAfter count hi =>
    exact h.toRecipient.announce fun x hx => (mem_findMany.mp hx).1
  | announces i id row hi hrow =>
    refine h.toRecipient.announce fun x hx => ?_
    obtain rfl := mem_singleton.mp hx
    exact hrow

/-- What a finished call has emitted. -/
theorem Inv.emittedByCall_step (h : Inv w) (heffect : Effect w e w') : EmittedByCall w' := by
  intro j count hj id row hrow hcall
  cases heffect with
  | comes e c hc =>
    rcases getElem?_append_cases hj with hj | ⟨rfl, -⟩
    · exact h.emittedByCall j count hj id row hrow hcall
    · -- The new call has no rows.
      obtain ⟨d, hd, -⟩ := h.rows id row hrow
      exact absurd (List.getElem?_eq_some_iff.mp hd).1 (by rw [hcall]; exact lt_irrefl _)
  | waits ms => exact h.emittedByCall j count hj id row hrow hcall
  | inserts i ids type copy writtenAfter hi =>
    obtain ⟨hne, hj⟩ := (getElem?_set_cases hj).resolve_left (by simp)
    rcases getElem?_rows_cases hrow with hrow | ⟨-, hmem⟩
    · exact h.emittedByCall j count hj id row hrow hcall
    · obtain ⟨recipientId, hid, rfl⟩ := mem_map.mp hmem
      exact absurd hcall hne
  | creates i recipientId type copy hi =>
    obtain ⟨hne, hj⟩ := (getElem?_set_cases hj).resolve_left (by simp)
    rcases getElem?_append_cases hrow with hrow | ⟨-, rfl⟩
    · exact h.emittedByCall j count hj id row hrow hcall
    · exact absurd hcall hne
  | readsBack i ids type writtenAfter count' hi =>
    rcases getElem?_set_cases hj with ⟨rfl, -⟩ | ⟨-, hj⟩
    · subst hcall
      obtain ⟨d, hd, hknows⟩ := h.rows id row hrow
      rw [hi] at hd
      obtain rfl := Option.some.inj hd
      have hfound : (id, row) ∈ written w.rows ids type writtenAfter :=
        mem_findMany.mpr ⟨hrow, decide_eq_true hknows⟩
      exact ⟨_, mem_append_right _ (mem_map_of_mem hfound), rfl, rfl⟩
    · obtain ⟨a, ha, hid⟩ := h.emittedByCall j count hj id row hrow hcall
      exact ⟨a, mem_append_left _ ha, hid⟩
  | announces i id' row' hi hrow' =>
    obtain ⟨-, hj⟩ := (getElem?_set_cases hj).resolve_left (by simp)
    obtain ⟨a, ha, hid⟩ := h.emittedByCall j count hj id row hrow hcall
    exact ⟨a, mem_append_left _ ha, hid⟩
  | throws i c hi hc =>
    obtain ⟨-, hj⟩ := (getElem?_set_cases hj).resolve_left (by simp)
    exact h.emittedByCall j count hj id row hrow hcall

theorem Inv.step (h : Inv w) (hstep : step w e = some w') : Inv w' :=
  have heffect := step_effect hstep
  { pushed := by
      cases heffect with
      | readsBack | announces => exact congrArg (· ++ _) h.pushed
      | comes | waits | inserts | creates | throws => exact h.pushed
    rows := h.rows_step heffect
    begun := h.begun_step heffect
    toRecipient := h.toRecipient_step heffect
    emittedByCall := h.emittedByCall_step heffect }

/-! ### Announcing once -/

/-- The call has announced what it had to. -/
def Over : Call T C → Prop
  | .finished _ | .created _ => True
  | _ => False

/-- Announcements come from the calls which wrote the rows, once those are over. -/
structure Once (w : World T C) : Prop where
  own : ∀ (i id : ℕ), w.calls[i]? = some (.announcing id) →
    ∃ row, w.rows[id]? = some row ∧ row.call = i
  sameCall : ∀ a ∈ w.emitted, ∃ row, w.rows[a.rowId]? = some row ∧ row.call = a.call
  ended : ∀ a ∈ w.emitted, ∃ c, w.calls[a.call]? = some c ∧ Over c
  nodup : (w.emitted.map Announcement.rowId).Nodup

omit [DecidableEq T] in
theorem once_start (now : ℤ) : Once ({ now } : World T C) where
  own _ _ h := by simp at h
  sameCall _ h := by simp at h
  ended _ h := by simp at h
  nodup := nodup_nil

omit [DecidableEq T] in
/-- A call that is not over has announced nothing. -/
theorem Once.call_ne (h : Once w) {c : Call T C} (hi : w.calls[i]? = some c) (hc : ¬Over c)
    {a : Announcement C} (ha : a ∈ w.emitted) : i ≠ a.call := by
  rintro rfl
  obtain ⟨d, hd, hover⟩ := h.ended a ha
  rw [hi] at hd
  exact hc (Option.some.inj hd ▸ hover)

omit [DecidableEq T] in
/-- A step of a call that is not over, which announces nothing. -/
theorem Once.silent (h : Once w) {c c' : Call T C} (hi : w.calls[i]? = some c)
    (hc : ¬Over c) {new : List (Row T C)}
    (hc' : ∀ id, c' = .announcing id → ∃ row, (w.rows ++ new)[id]? = some row ∧ row.call = i) :
    Once { w with rows := w.rows ++ new, calls := w.calls.set i c' } := by
  have hkept : ∀ {id : ℕ} {row : Row T C}, w.rows[id]? = some row →
      (w.rows ++ new)[id]? = some row := fun hrow => by
    rw [getElem?_append_left (List.getElem?_eq_some_iff.mp hrow).1, hrow]
  refine ⟨fun j id hj => ?_, fun a ha => ?_, fun a ha => ?_, h.nodup⟩
  · rcases getElem?_set_cases hj with ⟨rfl, hc⟩ | ⟨-, hj⟩
    · exact hc' id hc.symm
    · obtain ⟨row, hrow, hcall⟩ := h.own j id hj
      exact ⟨row, hkept hrow, hcall⟩
  · obtain ⟨row, hrow, hcall⟩ := h.sameCall a ha
    exact ⟨row, hkept hrow, hcall⟩
  · obtain ⟨d, hd, hover⟩ := h.ended a ha
    exact ⟨d, by rw [getElem?_set_ne (h.call_ne hi hc ha), hd], hover⟩

omit [DecidableEq T] in
/-- A call announces its own rows. -/
theorem Once.announce (h : Once w) {c c' : Call T C} (hi : w.calls[i]? = some c)
    (hc : ¬Over c) (hc' : Over c') {found : List (ℕ × Row T C)}
    (hfound : ∀ x ∈ found, w.rows[x.1]? = some x.2 ∧ x.2.call = i)
    (hnodup : (found.map Prod.fst).Nodup) :
    Once { announce w i found with calls := w.calls.set i c' } := by
  have hlt := (List.getElem?_eq_some_iff.mp hi).1
  refine ⟨fun j id hj => ?_, fun a ha => ?_, fun a ha => ?_, ?_⟩
  · rcases getElem?_set_cases hj with ⟨rfl, rfl⟩ | ⟨-, hj⟩
    · exact absurd hc' fun hover => hover
    · exact h.own j id hj
  · rcases mem_append.mp ha with ha | ha
    · exact h.sameCall a ha
    · obtain ⟨x, hx, rfl⟩ := mem_map.mp ha
      exact ⟨x.2, (hfound x hx).1, (hfound x hx).2⟩
  · rcases mem_append.mp ha with ha | ha
    · obtain ⟨d, hd, hover⟩ := h.ended a ha
      refine ⟨d, ?_, hover⟩
      dsimp only
      rw [getElem?_set_ne (h.call_ne hi hc ha), hd]
    · obtain ⟨x, hx, rfl⟩ := mem_map.mp ha
      exact ⟨c', getElem?_set_self hlt, hc'⟩
  · have hids : (found.map fun x => (⟨x.1, x.2.recipientId, x.2.copy, i⟩ : Announcement C)).map
        Announcement.rowId = found.map Prod.fst := by
      rw [map_map]
      rfl
    show ((w.emitted ++ _).map _).Nodup
    rw [map_append, hids]
    refine nodup_append'.mpr ⟨h.nodup, hnodup, ?_⟩
    intro id hold hnew
    obtain ⟨a, ha, rfl⟩ := mem_map.mp hold
    obtain ⟨x, hx, hxid⟩ := mem_map.mp hnew
    -- A row that was announced was announced by its own call, which is over.
    obtain ⟨row, hrow, hcall⟩ := h.sameCall a ha
    rw [← hxid, (hfound x hx).1] at hrow
    obtain rfl := Option.some.inj hrow
    exact h.call_ne hi hc ha ((hfound x hx).2.symm.trans hcall)

theorem Once.step (h : Once w) (hown : ReadsOwn w e) (hstep : step w e = some w') : Once w' := by
  cases step_effect hstep with
  | comes e c hc =>
    have hkept : ∀ {j : ℕ} {d : Call T C}, w.calls[j]? = some d → (w.calls ++ [c])[j]? = some d :=
      fun hd => by rw [getElem?_append_left (List.getElem?_eq_some_iff.mp hd).1, hd]
    refine ⟨fun j id hj => ?_, h.sameCall, fun a ha => ?_, h.nodup⟩
    · rcases getElem?_append_cases hj with hj | ⟨-, rfl⟩
      · exact h.own j id hj
      · rcases hc with hc | ⟨ids, type, copy, writtenAfter, hc, -⟩ | ⟨id', type, copy, hc⟩
        all_goals exact nomatch hc
    · obtain ⟨d, hd, hover⟩ := h.ended a ha
      exact ⟨d, hkept hd, hover⟩
  | waits ms => exact ⟨h.own, h.sameCall, h.ended, h.nodup⟩
  | inserts i ids type copy writtenAfter hi => exact h.silent hi id (fun id hid => nomatch hid)
  | readsBack i ids type writtenAfter count hi =>
    refine h.announce hi id (by trivial) (fun x hx => ⟨(mem_findMany.mp hx).1, ?_⟩)
      (nodup_findMany _ _)
    exact hown ids type writtenAfter count hi x hx
  | creates i recipientId type copy hi =>
    refine h.silent hi id fun id hid => ?_
    obtain rfl := Call.announcing.inj hid
    exact ⟨_, getElem?_concat_eq_some.mpr (Or.inr ⟨rfl, rfl⟩), rfl⟩
  | announces i id row hi hrow =>
    obtain ⟨row', hrow', hcall⟩ := h.own i id hi
    refine h.announce hi (fun hover => hover) (by trivial) (fun x hx => ?_) (nodup_singleton _)
    obtain rfl := mem_singleton.mp hx
    exact ⟨hrow, Option.some.inj (hrow'.symm.trans hrow) ▸ hcall⟩
  | throws i c hi hc =>
    have hover : ¬Over c := by
      cases c with
      | finished | created => exact nomatch hc
      | inserting | readingBack | failed => exact id
      | creating | announcing => exact fun hover => hover
    have hsilent : Once { w with rows := w.rows ++ [], calls := w.calls.set i .failed } :=
      h.silent hi hover fun id hid => nomatch hid
    rwa [append_nil] at hsilent

/-! ### Runs -/

/-- In every run, announcements go to the recipients of their rows, and a call of `createMany` that
has finished has emitted all its rows; if no call reads back the rows of another, every row is
emitted and pushed at most once. -/
theorem announced_once {now : ℤ} {events : List (Event T C)}
    (hrun : run step { now } events = some w) :
    ToRecipient w ∧ EmittedByCall w ∧ (Along step ReadsOwn { now } events → AtMostOnce w) := by
  have hinv := always_run Inv.step (inv_start now) hrun
  refine ⟨hinv.toRecipient, hinv.emittedByCall, fun hown => ?_⟩
  have honce := inv_run Once.step (once_start now) hown hrun
  exact ⟨honce.nodup, hinv.pushed ▸ honce.nodup⟩

/-- A broadcast to two recipients. -/
theorem broadcast_announced : ∃ w : World ℕ ℕ,
    run step { now := 0 } [.createMany [7, 8] 1 2 300, .take 0, .take 0] = some w
      ∧ w.emitted = [⟨0, 7, 2, 0⟩, ⟨1, 8, 2, 0⟩] ∧ AtMostOnce w := by
  have hrun : run step ({ now := 0 } : World ℕ ℕ) [.createMany [7, 8] 1 2 300, .take 0, .take 0]
      = some ⟨0, [⟨7, 1, 0, 2, 0⟩, ⟨8, 1, 0, 2, 0⟩], [.finished 2],
        [⟨0, 7, 2, 0⟩, ⟨1, 8, 2, 0⟩], [⟨0, 7, 2, 0⟩, ⟨1, 8, 2, 0⟩]⟩ := by decide
  have hown : Along step ReadsOwn ({ now := 0 } : World ℕ ℕ)
      [.createMany [7, 8] 1 2 300, .take 0, .take 0] := by
    refine ⟨trivial, fun w hw => ?_⟩
    obtain rfl := Option.some.inj hw
    refine ⟨fun ids type writtenAfter count hi => (nomatch hi), fun w hw => ?_⟩
    obtain rfl := Option.some.inj hw
    refine ⟨fun ids type writtenAfter count hi => ?_, fun w hw => trivial⟩
    obtain ⟨rfl, rfl, rfl, rfl⟩ := Call.readingBack.inj (Option.some.inj hi)
    decide
  exact ⟨_, hrun, rfl, (announced_once hrun).2.2 hown⟩

/-- Two broadcasts to one recipient within a second: the second announces the first row again. -/
theorem second_broadcast_announces_again : ∃ w : World ℕ ℕ,
    run step { now := 0 } [.createMany [7] 1 2 0, .take 0, .take 0, .wait 500,
      .createMany [7] 1 3 500, .take 1, .take 1] = some w
      ∧ w.emitted = [⟨0, 7, 2, 0⟩, ⟨0, 7, 2, 1⟩, ⟨1, 7, 3, 1⟩] ∧ ¬ AtMostOnce w := by
  refine ⟨_, rfl, by decide, fun h => absurd h.1 (by decide)⟩

end Rabotka.Notifying.InApp
