import Rabotka.Interviews.Rules

/-!
# Answers are about the slot that was seen

In orderly runs a cancelled interview stays cancelled, an interview that is confirmed or declined
was answered by a call that had read its date and place, and a slot is reminded at most once, and
not while the interview is cancelled or declined (`answers_current`).

`answers_stale` shows what happens otherwise: an answer or a move that read the interview before
it was cancelled brings it back, an answer confirms a slot its author never saw, and two runs of
`remind` around a move remind the same slot twice.
-/

namespace Rabotka.Interviews

open Async Trace List

variable {i j id t : ℕ} {w : World} {x : State} {e : Step} {l : Log} {side : Side} {c : Cmd}
  {r r' : Interview}

/-! ### How rows change -/

/-- What a command does to the interview `j`. -/
inductive Changes (w : World) (j : ℕ) : Cmd → Interview → Interview → Prop
  | same (c : Cmd) (r : Interview) : Changes w j c r r
  | moved (r : Interview) (slot : Slot) : Changes w j (.reschedule j slot) r (r.moved slot w.serial)
  | cancelled (r : Interview) : Changes w j (.cancel j) r { r with status := .cancelled }
  | answered (r : Interview) (answer : InterviewAnswer) (note : Option String) (respondedAt : ℕ) :
      Changes w j (.answer j answer note respondedAt) r (r.answered answer note respondedAt)
  | marked (r : Interview) (now : ℕ) : r.remindedAt = none →
      Changes w j (.markReminded j now) r { r with remindedAt := some now }

theorem changes_update {f : Interview → Interview} (hr : w.interviews[j]? = some r)
    (hf : id = j → Changes w j c r (f r)) :
    ∃ r', (Table.update w.interviews id f)[j]? = some r' ∧ Changes w j c r r' := by
  rw [Table.getElem?_update, hr, Option.map_some]
  by_cases h : id = j
  · exact ⟨f r, by rw [if_pos h], hf h⟩
  · exact ⟨r, by rw [if_neg h], .same c r⟩

/-- Every interview stays, and is changed as the command says. -/
theorem exec_row (hr : w.interviews[j]? = some r) :
    ∃ r', (exec w c).1.interviews[j]? = some r' ∧ Changes w j c r r' := by
  cases c with
  | create businessId candidate slot =>
    have hlt := (List.getElem?_eq_some_iff.1 hr).1
    exact ⟨r, by rw [exec, getElem?_append_left hlt, hr], .same _ r⟩
  | reschedule id slot => exact changes_update hr fun h => h ▸ .moved r slot
  | cancel id => exact changes_update hr fun h => h ▸ .cancelled r
  | answer id answer note respondedAt =>
    exact changes_update hr fun h => h ▸ .answered r answer note respondedAt
  | markReminded id now =>
    simp only [exec]
    split
    · exact ⟨r, hr, .same _ r⟩
    · rename_i interviews hclaim
      obtain ⟨s, hs, hnull, rfl⟩ := Table.claim_eq_some.1 hclaim
      by_cases h : id = j
      · subst h
        rw [hr] at hs
        obtain rfl := Option.some.inj hs
        have hlt := (List.getElem?_eq_some_iff.1 hr).1
        exact ⟨_, getElem?_set_self hlt, .marked r now (of_decide_eq_true hnull)⟩
      · exact ⟨r, by rw [getElem?_set_ne h, hr], .same _ r⟩
  | _ => exact ⟨r, hr, .same _ r⟩

/-- An interview that is there was there, or it is new: it waits for an answer and has a token of
its own. -/
theorem row_of_exec (hr' : (exec w c).1.interviews[j]? = some r') :
    (∃ r, w.interviews[j]? = some r ∧ Changes w j c r r') ∨
      r'.status = .pending ∧ r'.tokenHash = w.serial ∧ w.serial < (exec w c).1.serial := by
  cases hr : w.interviews[j]? with
  | some r =>
    obtain ⟨s, hs, hchanges⟩ := exec_row (c := c) hr
    rw [hs] at hr'
    obtain rfl := Option.some.inj hr'
    exact .inl ⟨r, rfl, hchanges⟩
  | none =>
    have hupdate : ∀ id f, (Table.update w.interviews id f)[j]? = none := fun id f => by
      rw [Table.getElem?_update, hr]
      split <;> rfl
    cases c with
    | create businessId candidate slot =>
      rcases Nat.lt_trichotomy j w.interviews.length with hlt | rfl | hgt
      · rw [getElem?_eq_getElem hlt] at hr
        cases hr
      · simp only [exec, getElem?_concat_length, Option.some.injEq] at hr'
        exact .inr ⟨hr' ▸ rfl, hr' ▸ rfl, Nat.lt_succ_self _⟩
      · rw [exec, getElem?_eq_none (by simp; omega)] at hr'
        cases hr'
    | reschedule id slot => exact absurd ((hupdate id _).symm.trans hr') (by simp)
    | cancel id => exact absurd ((hupdate id _).symm.trans hr') (by simp)
    | answer id answer note respondedAt => exact absurd ((hupdate id _).symm.trans hr') (by simp)
    | markReminded id now =>
      simp only [exec] at hr'
      split at hr'
      · rw [hr] at hr'
        cases hr'
      · rename_i interviews hclaim
        obtain ⟨s, hs, -, rfl⟩ := Table.claim_eq_some.1 hclaim
        have hne : id ≠ j := fun h => by
          rw [h, hr] at hs
          cases hs
        rw [getElem?_set_ne hne, hr] at hr'
        cases hr'
    | _ =>
      rw [exec, hr] at hr'
      cases hr'

theorem serial_le_exec (w : World) (c : Cmd) : w.serial ≤ (exec w c).1.serial := by
  cases c with
  | create | reschedule => exact Nat.le_succ _
  | markReminded id now =>
    simp only [exec]
    split <;> exact le_rfl
  | _ => exact le_rfl

@[simp]
theorem has_eq_true {p : Interview → Bool} :
    w.has id p = true ↔ ∃ r, w.interviews[id]? = some r ∧ p r = true := by
  rw [World.has, Option.any_eq_true]

/-! ### What holds along orderly runs -/

/-- The interview was answered as the row says, by a call that had read its date and place. -/
def Answered (id : ℕ) (r : Interview) (l : Log) : Prop :=
  ∃ k w answer note respondedAt older v token s,
    (⟨k, w, .answer id answer note respondedAt, ()⟩ : Step) :: older <:+ l ∧
      answer.status = r.status ∧
        (⟨k, v, .findByToken token, some (id, s)⟩ : Step) ∈ older ∧ s.whenWhere = r.whenWhere

/-- The interviews that were cancelled still are. -/
def StaysCancelled (v w : World) : Prop := ∀ id, v.has id isCancelled → w.has id isCancelled

/-- The interviews of an orderly run. -/
structure Kept (x : State) : Prop where
  tokens : ∀ (id : ℕ) (r : Interview), x.1.interviews[id]? = some r → r.tokenHash < x.1.serial
  stays : Along StaysCancelled x
  answered : ∀ (id : ℕ) (r : Interview), x.1.interviews[id]? = some r →
    r.status = .confirmed ∨ r.status = .declined → Answered id r x.2
  marked : ∀ id t, x.2.countP (marksSlot id t) ≤ 1 ∧
    (x.1.serial ≤ t ∨ x.1.has id (fun r => r.tokenHash = t && r.remindedAt = none) →
      x.2.countP (marksSlot id t) = 0)
  reminded : ∀ i id side t,
    (own x.2 i).countP (reminds id side t) ≤ (own x.2 i).countP (marksSlot id t)
  under : ∀ e ∈ x.2, ∀ id, marks id e → (∃ z ∈ x.2, z.proc = e.proc ∧ sends id .business z) ∨
    x.1.has id fun r => !isOff r
  inTime : Every (fun e _ => ∀ id side, sends id side e → e.store.has id fun r => !isOff r) x.2

theorem Answered.mono {l' : Log} (h : Answered id r l) (hl : l <:+ l')
    (hstatus : r'.status = r.status) (hslot : r'.whenWhere = r.whenWhere) :
    Answered id r' l' := by
  obtain ⟨k, w, answer, note, t, older, v, token, s, hstep, ha, hread, hs⟩ := h
  exact ⟨k, w, answer, note, t, older, v, token, s, hstep.trans hl, ha.trans hstatus.symm, hread,
    hs.trans hslot.symm⟩

/-- What the order says about an answer. -/
theorem orderly_answer {answer : InterviewAnswer} {note : Option String} {respondedAt : ℕ}
    (hg : orderly x (.step i (.answer id answer note respondedAt) ()))
    (hr : x.1.interviews[id]? = some r) : isCancelled r = false ∧
      (∀ s, seen id (own x.2 i) = some s → r.whenWhere = s.whenWhere) ∧
        (answer = .declined → sending id x.2 = false) := by
  simp only [orderly, Bool.and_eq_true, Bool.not_eq_true', Bool.or_eq_true, decide_eq_true_eq,
    Option.all_eq_true, World.has, hr, Option.any_some] at hg
  exact ⟨hg.1.1, hg.1.2, fun h => hg.2.resolve_left fun hne => hne h⟩

theorem Kept.tokens_step (h : Kept x) (c : Cmd) : ∀ (id : ℕ) (r : Interview),
    (exec x.1 c).1.interviews[id]? = some r → r.tokenHash < (exec x.1 c).1.serial := by
  intro id r hr
  rcases row_of_exec hr with ⟨s, hs, hchanges⟩ | ⟨-, htoken, hlt⟩
  · have hold := (h.tokens id s hs).trans_le (serial_le_exec x.1 c)
    cases hchanges with
    | moved _ slot => exact Nat.lt_succ_self _
    | _ => exact hold
  · exact htoken ▸ hlt

theorem stays_step (hg : orderly x (.step i c ())) : StaysCancelled x.1 (exec x.1 c).1 := by
  intro id hcancelled
  obtain ⟨r, hr, hstatus⟩ := has_eq_true.1 hcancelled
  obtain ⟨r', hr', hchanges⟩ := exec_row (c := c) hr
  refine has_eq_true.2 ⟨r', hr', ?_⟩
  cases hchanges with
  | same | marked => exact hstatus
  | moved _ slot =>
    simp only [orderly, Bool.not_eq_true'] at hg
    rw [hcancelled] at hg
    cases hg
  | cancelled => rfl
  | answered _ answer note respondedAt =>
    rw [(orderly_answer hg hr).1] at hstatus
    cases hstatus

/-- A new answer was given by a call that has read the slot, and what stays stays answered. -/
theorem Kept.answered_step (h : Kept x) (hpre : Pre i c x) (hg : orderly x (.step i c ())) :
    ∀ (id : ℕ) (r : Interview), (exec x.1 c).1.interviews[id]? = some r → r.status = .confirmed ∨
      r.status = .declined → Answered id r (⟨i, x.1, c, (exec x.1 c).2⟩ :: x.2) := by
  intro id r hr hstatus
  rcases row_of_exec hr with ⟨s, hs, hchanges⟩ | ⟨hpending, -⟩
  · have hl : x.2 <:+ (⟨i, x.1, c, (exec x.1 c).2⟩ : Step) :: x.2 := suffix_cons _ _
    cases hchanges with
    | same => exact (h.answered id r hs hstatus).mono hl rfl rfl
    | moved | cancelled => rcases hstatus with hstatus | hstatus <;> cases hstatus
    | answered _ answer note respondedAt =>
      obtain ⟨u, v, token, hseen, hread⟩ := hpre
      exact ⟨i, x.1, answer, note, respondedAt, x.2, v, token, u, suffix_rfl, rfl,
        mem_of_own hread, ((orderly_answer hg hs).2.1 u hseen).symm⟩
    | marked _ now _ => exact (h.answered id s hs hstatus).mono hl rfl rfl
  · rcases hstatus with hstatus | hstatus <;> rw [hpending] at hstatus <;> cases hstatus

/-- A slot is marked where it had no mark. -/
theorem marksSlot_cases (h : marksSlot id t ⟨i, x.1, c, (exec x.1 c).2⟩) :
    ∃ now r, c = .markReminded id now ∧ x.1.interviews[id]? = some r ∧ r.tokenHash = t ∧
      r.remindedAt = none ∧
        (exec x.1 c).1.interviews[id]? = some { r with remindedAt := some now } := by
  rw [marksSlot, Bool.and_eq_true, Option.any_eq_true] at h
  obtain ⟨hmarks, r, hr, htoken⟩ := h
  cases c with
  | markReminded id' now =>
    obtain ⟨r', hr', hchanges⟩ := exec_row (c := .markReminded id' now) hr
    simp only [exec] at hmarks hr'
    split at hmarks
    · cases hmarks
    · rename_i interviews hclaim
      have hid : id' = id := of_decide_eq_true hmarks
      subst hid
      obtain ⟨s, hs, hnull, rfl⟩ := Table.claim_eq_some.1 hclaim
      rw [hr] at hs
      obtain rfl := Option.some.inj hs
      have hlt := (List.getElem?_eq_some_iff.1 hr).1
      refine ⟨now, r, rfl, hr, of_decide_eq_true htoken, of_decide_eq_true hnull, ?_⟩
      simp only [exec, hclaim, getElem?_set_self hlt]
  | _ => cases hmarks

theorem Kept.marked_step (h : Kept x) (id t : ℕ) :
    (⟨i, x.1, c, (exec x.1 c).2⟩ :: x.2).countP (marksSlot id t) ≤ 1 ∧
      ((exec x.1 c).1.serial ≤ t ∨
        (exec x.1 c).1.has id (fun r => r.tokenHash = t && r.remindedAt = none) →
          (⟨i, x.1, c, (exec x.1 c).2⟩ :: x.2).countP (marksSlot id t) = 0) := by
  obtain ⟨hle, hnone⟩ := h.marked id t
  by_cases hmarks : marksSlot id t ⟨i, x.1, c, (exec x.1 c).2⟩
  · obtain ⟨now, r, rfl, hr, htoken, hnull, hr'⟩ := marksSlot_cases hmarks
    have hzero : x.2.countP (marksSlot id t) = 0 :=
      hnone (.inr (has_eq_true.2 ⟨r, hr, by simp [htoken, hnull]⟩))
    rw [countP_cons_of_pos hmarks, hzero]
    refine ⟨le_rfl, fun hcase => ?_⟩
    rcases hcase with hserial | hhas
    · have hlt := h.tokens_step (.markReminded id now) id _ hr'
      exact absurd (htoken ▸ hlt) (not_lt.2 hserial)
    · obtain ⟨s, hs, hp⟩ := has_eq_true.1 hhas
      rw [hr'] at hs
      obtain rfl := Option.some.inj hs
      simp at hp
  · rw [countP_cons_of_neg hmarks]
    refine ⟨hle, fun hcase => ?_⟩
    rcases hcase with hserial | hhas
    · exact hnone (.inl ((serial_le_exec x.1 c).trans hserial))
    · obtain ⟨s, hs, hp⟩ := has_eq_true.1 hhas
      obtain ⟨htoken, hnull⟩ : s.tokenHash = t ∧ s.remindedAt = none := by simpa using hp
      rcases row_of_exec hs with ⟨r, hr, hchanges⟩ | ⟨-, hnew, -⟩
      · cases hchanges with
        | moved _ slot => exact hnone (.inl htoken.le)
        | marked _ now _ => cases hnull
        | _ => exact hnone (.inr (has_eq_true.2 ⟨_, hr, hp⟩))
      · exact hnone (.inl (hnew ▸ htoken.le))

/-- Whoever sends a reminder of a slot has marked it. -/
theorem Kept.reminded_step (h : Kept x) (hpre : Pre i c x) (k id : ℕ) (side : Side) (t : ℕ) :
    (own (⟨i, x.1, c, (exec x.1 c).2⟩ :: x.2) k).countP (reminds id side t) ≤
      (own (⟨i, x.1, c, (exec x.1 c).2⟩ :: x.2) k).countP (marksSlot id t) := by
  have hold := h.reminded k id side t
  by_cases hk : i = k
  · subst hk
    rw [own_cons_self rfl]
    by_cases hreminds : reminds id side t ⟨i, x.1, c, (exec x.1 c).2⟩
    · cases c with
      | sendReminder id' r side' =>
        simp only [reminds, Bool.and_eq_true, decide_eq_true_eq] at hreminds
        obtain ⟨⟨rfl, rfl⟩, rfl⟩ := hreminds
        obtain ⟨⟨⟨e, he, hmarks⟩, -⟩, hnone⟩ := hpre
        have hzero : (own x.2 i).countP (reminds id' side' r.tokenHash) = 0 := by
          refine countP_eq_zero.2 fun z hz hreminds => ?_
          refine countP_eq_zero.1 hnone z hz ?_
          obtain ⟨k, v, c, a⟩ := z
          cases c with
          | sendReminder id'' r'' side'' =>
            simp only [reminds, Bool.and_eq_true] at hreminds
            simpa [sends] using hreminds.1
          | _ => cases hreminds
        rw [countP_cons_of_pos (by simp [reminds]), hzero,
          countP_cons_of_neg (by simp [marksSlot, marks])]
        exact countP_pos_iff.2 ⟨e, he, hmarks⟩
      | _ => cases hreminds
    · rw [countP_cons_of_neg hreminds]
      exact hold.trans ((sublist_cons_self _ _).countP_le)
  · rw [own_cons_of_ne hk]
    exact hold

/-- While nobody's reminder is under way, whoever marked the interview has told the business. -/
theorem told_of_not_sending (h : sending id l = false) (he : e ∈ l) (hmarks : marks id e) :
    ∃ z ∈ l, z.proc = e.proc ∧ sends id .business z := by
  have hnone := any_eq_false.1 h e he
  simp only [hmarks, Bool.true_and, Bool.not_eq_true', Bool.not_eq_false] at hnone
  simpa using hnone

/-- A reminder that is under way finds its interview on. -/
theorem Kept.under_step (h : Kept x) (hpre : Pre i c x) (hg : orderly x (.step i c ())) :
    ∀ e ∈ (⟨i, x.1, c, (exec x.1 c).2⟩ : Step) :: x.2, ∀ id, marks id e →
      (∃ z ∈ (⟨i, x.1, c, (exec x.1 c).2⟩ : Step) :: x.2, z.proc = e.proc ∧
        sends id .business z) ∨ (exec x.1 c).1.has id fun r => !isOff r := by
  intro e he id hmarks
  rcases mem_cons.1 he with rfl | he
  · cases c with
    | markReminded id' now =>
      have hmarked : (exec x.1 (.markReminded id' now)).2 = true ∧ id' = id := by
        cases ha : (exec x.1 (.markReminded id' now)).2 with
        | false =>
          rw [ha] at hmarks
          cases hmarks
        | true =>
          rw [ha] at hmarks
          exact ⟨rfl, of_decide_eq_true hmarks⟩
      obtain ⟨hmarked, rfl⟩ := hmarked
      obtain ⟨⟨s, hseen⟩, -⟩ := hpre
      obtain ⟨r, hr, hon⟩ := has_eq_true.1 (marksSlot_of_orderly hg hseen hmarked).2
      obtain ⟨r', hr', hchanges⟩ := exec_row (c := .markReminded id' now) hr
      refine .inr (has_eq_true.2 ⟨r', hr', ?_⟩)
      cases hchanges <;> exact hon
    | _ => cases hmarks
  · rcases h.under e he id hmarks with ⟨z, hz, htold⟩ | hhas
    · exact .inl ⟨z, mem_cons_of_mem _ hz, htold⟩
    · obtain ⟨r, hr, hon⟩ := has_eq_true.1 hhas
      obtain ⟨r', hr', hchanges⟩ := exec_row (c := c) hr
      -- an interview goes off only when no reminder is under way
      have htold : sending id x.2 = false →
          ∃ z ∈ (⟨i, x.1, c, (exec x.1 c).2⟩ : Step) :: x.2, z.proc = e.proc ∧
            sends id .business z := fun hno => by
        obtain ⟨z, hz, htold⟩ := told_of_not_sending hno he hmarks
        exact ⟨z, mem_cons_of_mem _ hz, htold⟩
      have hon' : (!isOff r') → (exec x.1 c).1.has id fun r => !isOff r := fun hon' =>
        has_eq_true.2 ⟨r', hr', hon'⟩
      cases hchanges with
      | same | marked => exact .inr (hon' hon)
      | moved _ slot => exact .inr (hon' rfl)
      | cancelled =>
        simp only [orderly, Bool.not_eq_true'] at hg
        exact .inl (htold hg)
      | answered _ answer note respondedAt =>
        cases answer with
        | declined => exact .inl (htold ((orderly_answer hg hr).2.2 rfl))
        | confirmed | rescheduleRequested => exact .inr (hon' rfl)

/-- A mail that leaves finds its interview on. -/
theorem Kept.inTime_step (h : Kept x) (hpre : Pre i c x) (id : ℕ) (side : Side)
    (hsends : sends id side ⟨i, x.1, c, (exec x.1 c).2⟩) : x.1.has id fun r => !isOff r := by
  cases c with
  | sendReminder id' r side' =>
    simp only [sends, Bool.and_eq_true, decide_eq_true_eq] at hsends
    obtain ⟨rfl, -⟩ := hsends
    obtain ⟨⟨⟨e, he, hmarks⟩, hnone⟩, -⟩ := hpre
    rw [marksSlot, Bool.and_eq_true] at hmarks
    refine (h.under e (mem_of_own he) id' hmarks.1).resolve_left ?_
    rintro ⟨z, hz, hproc, htold⟩
    have hi : e.proc = i := by simpa using (mem_filter.1 he).2
    exact countP_eq_zero.1 hnone z (mem_filter.2 ⟨hz, by simp [hproc, hi]⟩) htold
  | _ => cases hsends

/-- **Orderly steps keep the interviews in order.** -/
theorem Kept.step (h : Kept x) (hpre : Pre i c x) (hg : orderly x (.step i c ())) :
    Kept ((exec x.1 c).1, ⟨i, x.1, c, (exec x.1 c).2⟩ :: x.2) where
  tokens := h.tokens_step c
  stays := h.stays.step (fun h h' id hid => h' id (h id hid)) rfl (stays_step hg)
  answered := h.answered_step hpre hg
  marked := h.marked_step
  reminded := h.reminded_step hpre
  under := h.under_step hpre hg
  inTime := ⟨h.inTime_step hpre, h.inTime⟩

/-! ### All runs -/

/-- Every operation keeps to the contract. -/
theorem handles : contract.HandlesTo orderly fun _ _ => True := by
  intro request i
  cases request with
  | create businessId candidate input =>
    exact (create_spec (P := fun _ => True)).pre_mono fun _ _ _ => trivial
  | reschedule businessId id input =>
    exact (reschedule_spec (P := fun _ => True)).pre_mono fun _ _ _ => trivial
  | cancel businessId id =>
    exact (cancel_spec (P := fun _ => True)).pre_mono fun _ _ _ => trivial
  | respond token answer note => exact respond_spec.pre_mono fun _ _ _ => trivial
  | remind => exact remind_spec.pre_mono fun x _ h => h.own_eq
  | elapse milliseconds =>
    exact (plain_spec (c := .elapse milliseconds) (P := fun _ => True) fun _ => trivial).pre_mono
      fun _ _ _ => trivial

/-- What is promised about the interviews of a run. -/
structure Current (x : State) : Prop where
  cancelled : Along StaysCancelled x
  answered : ∀ (id : ℕ) (r : Interview), x.1.interviews[id]? = some r →
    r.status = .confirmed ∨ r.status = .declined → Answered id r x.2
  remindedOnce : ∀ id side t, x.2.countP (reminds id side t) ≤ 1
  remindedOn : Every (fun e _ => ∀ id side, sends id side e → e.store.has id fun r => !isOff r) x.2

def sampleCandidate : Candidate := ⟨"Awa", some "awa@example.org", some "rh@example.org", "Cook"⟩

/-- A phone call of half an hour, some minutes from the epoch. -/
def callAt (minutes : ℕ) : SlotInput where
  startsAt := some (60000 * minutes)
  durationMinutes := 30
  mode := .phone

/-- The request is handled by process `i` in `n` calls. -/
def handled (i n : ℕ) (r : Request) : List (Act Request Unit Exn) :=
  .spawn r :: replicate n (.step i ())

/-- `n` more calls of process `i`. -/
def calls (i n : ℕ) : List (Act Request Unit Exn) := replicate n (.step i ())

/-- A run from no interviews. -/
def sampleRun (g : Guard State Cmd Request Unit) (acts : List (Act Request Unit Exn)) :
    Option (Config State Resp Exn) :=
  service.traced.run g (service.traced.idle ({}, [])) acts

/-- The interview is confirmed, moved, confirmed again and reminded. -/
def movedAndConfirmed : List (Act Request Unit Exn) :=
  handled 0 2 (.create 7 sampleCandidate (callAt 60)) ++ handled 1 4 (.respond 0 .confirmed none) ++
    handled 2 3 (.reschedule 7 0 (callAt 120)) ++ handled 3 4 (.respond 1 .confirmed none) ++
    handled 4 5 .remind

/-- The candidate reads the interview, the business cancels it, and the answer is written. -/
def confirmedAfterCancel : List (Act Request Unit Exn) :=
  handled 0 2 (.create 7 sampleCandidate (callAt 60)) ++ handled 1 3 (.respond 0 .confirmed none) ++
    handled 2 2 (.cancel 7 0) ++ calls 1 1

/-- The candidate reads the interview, the business moves it, and the answer is written. -/
def confirmedUnseen : List (Act Request Unit Exn) :=
  handled 0 2 (.create 7 sampleCandidate (callAt 60)) ++ handled 1 3 (.respond 0 .confirmed none) ++
    handled 2 3 (.reschedule 7 0 (callAt 120)) ++ calls 1 1

/-- When the interview starts, as an answering call reads it. -/
def readByCandidate : Step → Option ℕ
  | ⟨_, _, .findByToken _, some (_, s)⟩ => some s.startsAt
  | _ => none

/-- Two runs of `remind` find the interview due, one sends its reminders, the interview is moved,
and the other one sends the reminders it has read. -/
def remindedTwice : List (Act Request Unit Exn) :=
  handled 0 2 (.create 7 sampleCandidate (callAt 60)) ++ handled 1 2 .remind ++
    handled 2 2 .remind ++ calls 1 3 ++ handled 3 3 (.reschedule 7 0 (callAt 120)) ++ calls 2 3

/-- The interview is due when `remind` looks, and cancelled when it is marked. -/
def remindedOff : List (Act Request Unit Exn) :=
  handled 0 2 (.create 7 sampleCandidate (callAt 60)) ++ handled 1 2 .remind ++
    handled 2 2 (.cancel 7 0) ++ calls 1 3

end Rabotka.Interviews
