import Rabotka.Lib.Trace
import Rabotka.Interviews.Schedule

/-!
# What an operation has seen

An operation that writes has read the interview before (`seen`), and the facts about its steps say
what it knows then. In orderly runs what it has read still holds when it writes: a move and an
answer find the interview not cancelled, an answer and a reminder's mark find the slot that was
read, and no cancellation or refusal is written while a reminder is under way.
-/

namespace Rabotka.Interviews

open Async Trace Contract List

/-- A step of this service. -/
abbrev Step := Entry World Resp

/-- The steps of a run. -/
abbrev Log := Trace World Resp

/-- The table with its steps. -/
abbrev State := Traced World Resp

variable {i id t : ℕ} {w : World} {x : State} {e : Step} {l : Log} {side : Side}

/-! ### What the steps say -/

/-- What the step reads of the interview. -/
def reads (id : ℕ) : Step → Option Interview
  | ⟨_, _, .findOwned _ id', some r⟩ => if id' = id then some r else none
  | ⟨_, _, .findByToken _, some (id', r)⟩ => if id' = id then some r else none
  | ⟨_, _, .findDue _, due⟩ => (due.find? fun z => z.1 = id).map Prod.snd
  | _ => none

/-- What was last read of the interview. -/
def seen (id : ℕ) (l : Log) : Option Interview := l.findSome? (reads id)

/-- The step marks the interview as reminded. -/
def marks (id : ℕ) : Step → Bool
  | ⟨_, _, .markReminded id' _, true⟩ => id' = id
  | _ => false

/-- The step marks the slot with the token `t` as reminded. -/
def marksSlot (id t : ℕ) (e : Step) : Bool :=
  marks id e && (e.store.interviews[id]?).any fun r => r.tokenHash = t

/-- The step sends a reminder of the interview to the side. -/
def sends (id : ℕ) (side : Side) : Step → Bool
  | ⟨_, _, .sendReminder id' _ side', _⟩ => id' = id && side' = side
  | _ => false

/-- The step sends a reminder of the slot with the token `t` to the side. -/
def reminds (id : ℕ) (side : Side) (t : ℕ) : Step → Bool
  | ⟨_, _, .sendReminder id' r side', _⟩ => id' = id && side' = side && r.tokenHash = t
  | _ => false

/-- A reminder of the interview is under way: it is marked, and the business has not got its mail
yet. -/
def sending (id : ℕ) (l : Log) : Bool :=
  l.any fun e => marks id e && !l.any fun z => z.proc = e.proc && sends id .business z

/-- The interview satisfies `p`. -/
def World.has (w : World) (id : ℕ) (p : Interview → Bool) : Bool := (w.interviews[id]?).any p

def isCancelled (r : Interview) : Bool := r.status = .cancelled

/-- The interview is off: it is cancelled or declined. -/
def isOff (r : Interview) : Bool := r.status = .cancelled || r.status = .declined

/-- What an operation that writes has read still holds. -/
def orderly : Guard State Cmd Request Unit
  | x, .step _ (.reschedule id _) _ => !x.1.has id isCancelled
  | x, .step _ (.cancel id) _ => !sending id x.2
  | x, .step i (.answer id answer _ _) _ => !x.1.has id isCancelled &&
      (seen id (own x.2 i)).all (fun s => x.1.has id fun r => r.whenWhere = s.whenWhere) &&
      (answer ≠ .declined || !sending id x.2)
  | x, .step i (.markReminded id _) _ => x.1.has id (fun r => r.remindedAt ≠ none) ||
      x.1.has id (fun r => !isOff r && (seen id (own x.2 i)).all fun s => r.tokenHash = s.tokenHash)
  | _, .fault _ (.sendReminder _ _ _) => false
  | _, _ => true

/-! ### What an operation knows when it writes -/

/-- The interview is marked by this process, as it was read, and the business has no mail yet. -/
def Marked (id : ℕ) (r : Interview) (l : Log) : Prop :=
  (∃ e ∈ l, marksSlot id r.tokenHash e) ∧ l.countP (sends id .business) = 0

/-- The candidate has read the interview. -/
def Asked (i id : ℕ) (l : Log) : Prop :=
  ∃ r w token, seen id l = some r ∧ (⟨i, w, .findByToken token, some (id, r)⟩ : Step) ∈ l

/-- When process `i` may issue a command. -/
def Pre (i : ℕ) : Cmd → State → Prop
  | .answer id _ _ _, x => Asked i id (own x.2 i)
  | .markReminded id _, x => (∃ r, seen id (own x.2 i) = some r) ∧
      (own x.2 i).countP (marks id) = 0 ∧ ∀ side, (own x.2 i).countP (sends id side) = 0
  | .sendReminder id r side, x => Marked id r (own x.2 i) ∧
      (own x.2 i).countP (sends id side) = 0
  | _, _ => True

/-- What the operations keep to. -/
def contract : Contract service where
  inv _ := True
  pre := Pre
  sound _ _ _ := trivial

/-- From `P` the program leads to `Q`. The assertions are about the steps of the process. -/
abbrev Spec {α : Type} (i : ℕ) (P : Log → Prop) (op : Prog α) (Q : α → Log → Prop) : Prop :=
  (contract.disciplineUnder orderly).Triple i (Own i P) op (fun a => Own i (Q a)) fun _ _ => True

variable {P : Log → Prop}

theorem call_spec {c : Cmd} {Q : Resp c → Log → Prop}
    (hpre : ∀ x : State, P (own x.2 i) → Pre i c x)
    (hstep : ∀ (x : State), orderly x (.step i c ()) → P (own x.2 i) →
      Q (exec x.1 c).2 (⟨i, x.1, c, (exec x.1 c).2⟩ :: own x.2 i)) :
    Spec i P (issue c) Q := by
  refine Discipline.Triple.post_mono (Contract.triple_own (X := fun _ _ => True)
    (fun x _ h => hpre x h) (fun x ε w r _ h hg hexec => ?_) fun _ _ _ _ => trivial)
    (fun _ _ _ h => h) fun _ _ _ _ => trivial
  obtain ⟨rfl, rfl⟩ := pair_inj hexec
  exact hstep x hg h

/-- A call of which nothing is asked. -/
theorem plain_spec {c : Cmd} (hpre : ∀ x : State, Pre i c x) : Spec i P (issue c) fun _ _ => True :=
  call_spec (fun x _ => hpre x) fun _ _ _ => trivial

theorem refuse_spec {α : Type} {message : String} {Q : α → Log → Prop} :
    Spec i P (refuse message) Q := .fail fun _ _ _ => trivial

/-! ### Moves, cancellations and answers -/

variable {input : SlotInput}

theorem readSlot_spec : Spec i P (readSlot input) fun _ _ => True := by
  refine .bind (plain_spec (c := .dateNow) fun _ => trivial) fun now => ?_
  split
  · exact refuse_spec
  · exact .ret fun _ _ _ => trivial

variable {businessId : ℕ}

theorem create_spec {candidate : Candidate}
    : Spec i P (create businessId candidate input) fun _ _ => True :=
  .bind readSlot_spec fun s => plain_spec (c := .create businessId candidate s) fun _ => trivial

theorem owned_spec : Spec i P (owned businessId id) fun _ _ => True := by
  refine .bind (plain_spec (c := .findOwned businessId id) fun _ => trivial) fun found => ?_
  split
  · exact refuse_spec
  · exact .ret fun _ _ _ => trivial

theorem reschedule_spec : Spec i P (reschedule businessId id input) fun _ _ => True := by
  refine .bind owned_spec fun interview => ?_
  split
  · exact refuse_spec
  · exact .bind readSlot_spec fun s => plain_spec (c := .reschedule id s) fun _ => trivial

theorem cancel_spec : Spec i P (cancel businessId id) fun _ _ => True := by
  refine .bind owned_spec fun interview => ?_
  split
  · exact .ret fun _ _ _ => trivial
  · exact plain_spec (c := .cancel id) fun _ => trivial

/-- A step that reads nothing of an interview leaves what was seen of it. -/
theorem seen_cons (h : reads id e = none) : seen id (e :: l) = seen id l := by
  rw [seen, findSome?_cons, h]
  rfl

theorem Asked.cons (h : Asked i id l) (he : reads id e = none) : Asked i id (e :: l) := by
  obtain ⟨r, w, token, hseen, hmem⟩ := h
  exact ⟨r, w, token, (seen_cons he).trans hseen, mem_cons_of_mem _ hmem⟩

theorem respond_spec {token : ℕ} {answer : InterviewAnswer} {note : Option String} :
    Spec i (fun _ => True) (respond token answer note) fun _ _ => True := by
  refine .bind (R := fun found => Own i fun l => ∀ z, found = some z → Asked i z.1 l)
    (call_spec (c := .findByToken token) (fun _ _ => trivial) fun x _ _ z hfound => ?_)
      fun found => ?_
  · refine ⟨z.2, x.1, token, ?_, ?_⟩
    · rw [seen, findSome?_cons, hfound]
      simp [reads]
    · rw [← hfound]
      exact mem_cons_self
  · split
    · exact refuse_spec
    · rename_i id r
      split
      · exact refuse_spec
      · refine .bind (R := fun _ => Own i (Asked i id)) (call_spec (c := .dateNow)
          (fun _ _ => trivial) fun x _ h => (h (id, r) rfl).cons rfl) fun now => ?_
        split
        · exact refuse_spec
        · split
          · exact refuse_spec
          · refine .bind (R := fun _ => Own i (Asked i id)) (call_spec (c := .dateNow)
              (fun _ _ => trivial) fun x _ h => h.cons rfl) fun respondedAt => ?_
            exact call_spec (c := .answer id answer (cleanNote note) respondedAt)
              (fun _ h => h) fun _ _ _ => trivial

/-! ### Reminders -/

/-- What is due was read, and nothing was done yet for what is left of it. -/
def Waiting (due rest : List (ℕ × Interview)) (l : Log) : Prop :=
  (∀ id, seen id l = (due.find? fun z => z.1 = id).map Prod.snd) ∧
    ∀ z ∈ rest, l.countP (marks z.1) = 0 ∧ ∀ side, l.countP (sends z.1 side) = 0

/-- Nothing was sent for the interview. -/
theorem countP_sends_cons {id : ℕ} (h : sends id side e = false) :
    (e :: l).countP (sends id side) = l.countP (sends id side) :=
  countP_cons_of_neg (by simp [h])

variable {due rest : List (ℕ × Interview)}

/-- A step about another interview leaves the rest waiting. -/
theorem Waiting.cons (h : Waiting due rest l)
    (hreads : ∀ id, reads id e = none) (hmarks : ∀ z ∈ rest, marks z.1 e = false)
    (hsends : ∀ z ∈ rest, ∀ side, sends z.1 side e = false) : Waiting due rest (e :: l) := by
  refine ⟨fun id => (seen_cons (hreads id)).trans (h.1 id), fun z hz => ⟨?_, fun side => ?_⟩⟩
  · rw [countP_cons_of_neg (by simp [hmarks z hz])]
    exact (h.2 z hz).1
  · rw [countP_sends_cons (hsends z hz side)]
    exact (h.2 z hz).2 side

variable {z : ℕ × Interview}

theorem Waiting.tail (h : Waiting due (z :: rest) l) : Waiting due rest l :=
  ⟨h.1, fun y hy => h.2 y (mem_cons_of_mem _ hy)⟩

/-- In order, the slot that is marked is the one that was read. -/
theorem marksSlot_of_orderly {r : Interview} {now : ℕ}
    (hg : orderly x (.step i (.markReminded id now) ())) (hseen : seen id (own x.2 i) = some r)
    (hmarked : (exec x.1 (.markReminded id now)).2 = true) :
    marksSlot id r.tokenHash ⟨i, x.1, .markReminded id now, true⟩ ∧
      x.1.has id (fun r => !isOff r) := by
  -- the mark is set where there was none
  simp only [exec] at hmarked
  split at hmarked
  · cases hmarked
  · rename_i interviews hclaim
    obtain ⟨row, hrow, hnull, -⟩ := Table.claim_eq_some.1 hclaim
    simp only [orderly, World.has, hrow, Option.any_some, hseen, Option.all_some] at hg
    simp only [of_decide_eq_true hnull, ne_eq, not_true_eq_false, decide_false, Bool.false_or,
      Bool.and_eq_true, decide_eq_true_eq] at hg
    refine ⟨?_, ?_⟩
    · simp [marksSlot, marks, hrow, hg.2]
    · simp only [World.has, hrow, Option.any_some, hg.1]

theorem sendReminders_spec (hz : ∀ y ∈ rest, y.1 ≠ z.1) :
    Spec i (fun l => Waiting due rest l ∧ Marked z.1 z.2 l ∧
      l.countP (sends z.1 .candidate) = 0) (sendReminders z) fun _ => Waiting due rest := by
  have hother : ∀ (w : World) (side : Side), ∀ y ∈ rest, ∀ side',
      sends y.1 side' (⟨i, w, .sendReminder z.1 z.2 side, ()⟩ : Step) = false :=
    fun w side y hy side' => by simp [sends, (hz y hy).symm]
  refine .bind (R := fun _ => Own i fun l => Waiting due rest l ∧ Marked z.1 z.2 l)
    (call_spec (c := .sendReminder z.1 z.2 .candidate) (fun x h => ⟨h.2.1, h.2.2⟩)
      fun x _ h => ⟨h.1.cons (fun _ => rfl) (fun _ _ => rfl) (hother _ _), ?_, ?_⟩) fun _ => ?_
  · obtain ⟨e, he, hmarks⟩ := h.2.1.1
    exact ⟨e, mem_cons_of_mem _ he, hmarks⟩
  · rw [countP_sends_cons (by simp [sends])]
    exact h.2.1.2
  · exact call_spec (c := .sendReminder z.1 z.2 .business) (fun x h => ⟨h.2, h.2.2⟩)
      fun x _ h => h.1.cons (fun _ => rfl) (fun _ _ => rfl) (hother _ _)

theorem remindOne_spec {now : ℕ} (hdue : (due.find? fun y => y.1 = z.1).map Prod.snd = some z.2)
    (hz : ∀ y ∈ rest, y.1 ≠ z.1) :
    Spec i (Waiting due (z :: rest)) (remindOne now z) fun _ => Waiting due rest := by
  refine .bind (R := fun marked => Own i fun l => Waiting due rest l ∧ (marked = true →
    Marked z.1 z.2 l ∧ l.countP (sends z.1 .candidate) = 0))
    (call_spec (c := .markReminded z.1 now) (fun x h => ?_) fun x hg h => ⟨?_, fun hmarked => ?_⟩)
      fun marked => ?_
  · exact ⟨⟨z.2, (h.1 z.1).trans hdue⟩, h.2 z mem_cons_self⟩
  · refine h.tail.cons (fun _ => rfl) (fun y hy => ?_) fun _ _ _ => rfl
    unfold marks
    split
    · rename_i heq
      simp only [Entry.mk.injEq, Cmd.markReminded.injEq] at heq
      simpa [heq.2.2.1.1] using (hz y hy).symm
    · rfl
  · refine ⟨⟨⟨_, mem_cons_self, ?_⟩, ?_⟩, ?_⟩
    · rw [hmarked]
      exact (marksSlot_of_orderly hg ((h.1 z.1).trans hdue) hmarked).1
    · rw [countP_sends_cons rfl]
      exact (h.2 z mem_cons_self).2 .business
    · rw [countP_sends_cons rfl]
      exact (h.2 z mem_cons_self).2 .candidate
  · cases marked with
    | true => exact (sendReminders_spec hz).pre_mono fun x _ h => ⟨h.1, h.2 rfl⟩
    | false => exact .ret fun x _ h => h.1

/-- Where identifiers differ, a member is found by its own. -/
theorem find?_of_mem {due : List (ℕ × Interview)} (hnodup : (due.map Prod.fst).Nodup)
    (hz : z ∈ due) :
    (due.find? fun y => y.1 = z.1).map Prod.snd = some z.2 := by
  have hsome : (due.find? fun y => y.1 = z.1).isSome :=
    find?_isSome.2 ⟨z, hz, by simp⟩
  obtain ⟨y, hy⟩ := Option.isSome_iff_exists.1 hsome
  have hid : y.1 = z.1 := by simpa using find?_some hy
  obtain rfl : y = z := inj_on_of_nodup_map hnodup (mem_of_find?_eq_some hy) hz hid
  rw [hy, Option.map_some]

/-- The rounds of `remind` for what is left. -/
theorem remindAll_spec {due : List (ℕ × Interview)} {now : ℕ} (hnodup : (due.map Prod.fst).Nodup) :
    ∀ rest, (∀ z ∈ rest, z ∈ due) → (rest.map Prod.fst).Nodup →
      Spec i (Waiting due rest) (rest.forM (remindOne now)) fun _ => Waiting due [] := by
  intro rest
  induction rest with
  | nil => exact fun _ _ _ _ h => h
  | cons z rest ih =>
    intro hmem hrest
    obtain ⟨hz, hrest⟩ := nodup_cons.1 hrest
    change (contract.disciplineUnder orderly).Triple i _ ((remindOne now z).bind fun _ =>
      rest.forM (remindOne now)) _ _
    refine .bind (remindOne_spec (find?_of_mem hnodup (hmem z mem_cons_self))
      fun y hy heq => hz (mem_map.2 ⟨y, hy, heq⟩)) fun _ => ?_
    exact ih (fun y hy => hmem y (mem_cons_of_mem _ hy)) hrest

theorem remind_spec : Spec i (fun l => l = []) remind fun _ _ => True := by
  refine .bind (R := fun _ => Own i fun l => ∀ e ∈ l, ∃ w t, e = (⟨i, w, .dateNow, t⟩ : Step))
    (call_spec (c := .dateNow) (fun _ _ => trivial) fun x _ h e he => ?_) fun now => ?_
  · rw [h] at he
    exact ⟨x.1, x.1.now, mem_singleton.1 he⟩
  refine .bind (R := fun due => Own i fun l => (due.map Prod.fst).Nodup ∧ Waiting due due l)
    (call_spec (c := .findDue now) (fun _ _ => trivial) fun x _ h => ?_) fun due => ?_
  · have hquiet : ∀ e ∈ own x.2 i, (∀ id, reads id e = none) ∧ (∀ id, marks id e = false) ∧
        ∀ id side, sends id side e = false := by
      intro e he
      obtain ⟨w, t, rfl⟩ := h e he
      exact ⟨fun _ => rfl, fun _ => rfl, fun _ _ => rfl⟩
    refine ⟨(Table.nodup_findMany _ _).sublist ((take_sublist _ _).map _), fun id => ?_,
      fun z _ => ⟨?_, fun side => ?_⟩⟩
    · -- before the interviews that are due, nothing was read
      have hnone : seen id (own x.2 i) = none :=
        findSome?_eq_none_iff.2 fun e he => (hquiet e he).1 id
      rw [seen, findSome?_cons]
      simp only [reads]
      cases (List.find? (fun z => decide (z.1 = id)) (exec x.1 (.findDue now)).2).map Prod.snd with
      | none => exact hnone
      | some r => rfl
    · rw [countP_cons_of_neg (by simp [marks])]
      exact countP_eq_zero.2 fun e he => by simp [(hquiet e he).2.1 z.1]
    · rw [countP_sends_cons rfl]
      exact countP_eq_zero.2 fun e he => by simp [(hquiet e he).2.2 z.1 side]
  · rintro x hx ⟨hnodup, hwaiting⟩
    exact ((remindAll_spec hnodup due (fun _ h => h) hnodup).post_mono (fun _ _ _ _ => trivial)
      fun _ _ _ h => h) x hx hwaiting

end Rabotka.Interviews
