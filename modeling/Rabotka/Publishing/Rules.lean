import Rabotka.Lib.Trace
import Rabotka.Publishing.Market

/-!
# What a call of the market has done

The effects of a call are its writes and its answer (`effects`). In orderly runs a charge finds its
period running, a republished offer is still expired when it is written, and neither the questions
of an offer nor the return of a charge are refused. A call that returns there has charged one offer
to a running period and put one offer on the market, and one that throws has given its charge back
(`handles`).
-/

namespace Rabotka.Publishing

open Async Trace Contract List

/-- A step of this service. -/
abbrev Step := Entry World Resp

/-- The steps of a run. -/
abbrev Log := Trace World Resp

/-- The tables with their steps. -/
abbrev State := Traced World Resp

variable {s : Setting} {i profileId businessId : ℕ} {x : State} {e : Step} {l : Log}
  {charged : Option ℕ}

/-! ### Effects -/

/-- What a step has done: an offer is charged to a period as it was found, the charge is given
back, an offer is inserted, asks its questions or is opened again as it was found, and a request is
answered. -/
inductive Effect
  | charged (periodId : ℕ) (found : Period) (now : ℤ)
  | released (periodId : ℕ)
  | inserted (id : ℕ) (row : JobOffer)
  | asked (offerId : ℕ) (questions : List QuestionRow)
  | reopened (id : ℕ) (found : JobOffer)
  | answered (publication : Publication) (outcome : Except Exn ℕ)
  deriving DecidableEq

def effect : Step → Option Effect
  | ⟨_, w, .charge id _, true⟩ => (w.periods[id]?).map fun p => .charged id p w.now
  | ⟨_, _, .release id, _⟩ => some (.released id)
  | ⟨_, _, .createOffer _, some (id, row)⟩ => some (.inserted id row)
  | ⟨_, _, .createQuestions id questions, _⟩ => some (.asked id questions)
  | ⟨_, w, .updateOffer id _ _, _⟩ => (w.offers[id]?).map (.reopened id)
  | ⟨_, _, .answer _ publication outcome, _⟩ => some (.answered publication outcome)
  | _ => none

/-- The effects of the steps, in their order. -/
def effects (l : Log) : List Effect := (l.filterMap effect).reverse

@[simp]
theorem effects_nil : effects [] = [] := rfl

theorem effects_cons (e : Step) (l : Log) : effects (e :: l) = effects l ++ (effect e).toList := by
  cases h : effect e with
  | none | some => simp [effects, h]

theorem effects_cons_none (h : effect e = none) : effects (e :: l) = effects l := by
  rw [effects_cons, h]
  simp

theorem mem_effects {v : Effect} : v ∈ effects l ↔ ∃ e ∈ l, effect e = some v := by
  simp [effects]

theorem countP_effects (q : Effect → Bool) :
    (effects l).countP q = l.countP fun e => (effect e).any q := by
  rw [effects, countP_reverse, countP_filterMap]
  refine countP_congr fun e _ => ?_
  cases effect e <;> rfl

/-! ### Orderly runs -/

/-- A charge finds its period running, an offer is opened again from being expired, and neither
the questions of an offer nor the return of a charge are refused. -/
def orderly : Guard State Cmd Request Env
  | x, .step _ (.charge id quota) _ =>
    (x.1.periods[id]?).all fun p => !p.hasRoom quota || p.covers x.1.now
  | x, .step _ (.updateOffer id _ _) _ => (x.1.offers[id]?).all fun o => o.status = .expired
  | _, .fault _ (.createQuestions _ _) => false
  | _, .fault _ (.release _) => false
  | _, _ => true

/-! ### What a call knows -/

/-- These steps have seen the period, and this was so. -/
def Sighted (p : Period → Prop) (id : ℕ) (l : Log) : Prop :=
  ∃ e ∈ l, ∃ r, e.store.periods[id]? = some r ∧ p r

theorem Sighted.cons {p : Period → Prop} {id : ℕ} (h : Sighted p id l) (e : Step) :
    Sighted p id (e :: l) := by
  obtain ⟨z, hz, hr⟩ := h
  exact ⟨z, mem_cons_of_mem _ hz, hr⟩

theorem Sighted.mono {p q : Period → Prop} {id : ℕ} (h : Sighted p id l)
    (hpq : ∀ r, p r → q r) : Sighted q id l := by
  obtain ⟨e, he, r, hr, hp⟩ := h
  exact ⟨e, he, r, hr, hpq r hp⟩

/-- What the call of a profile has been charged: one offer on a period that was running and is its
business's; nothing if the profile is no business. -/
def Charged (s : Setting) (profileId : ℕ) (charged : Option ℕ) (paid : List Effect) (l : Log) :
    Prop :=
  match charged with
  | none => s.businessOf profileId = none ∧ paid = []
  | some id => ∃ b, s.businessOf profileId = some b ∧ Sighted (fun p => p.businessId = b) id l ∧
      ∃ r now, paid = [.charged id r now] ∧ r.covers now

theorem Charged.cons {paid : List Effect} (h : Charged s profileId charged paid l) (e : Step) :
    Charged s profileId charged paid (e :: l) := by
  cases charged with
  | none => exact h
  | some id =>
    obtain ⟨b, hb, hsighted, hpaid⟩ := h
    exact ⟨b, hb, hsighted.cons e, hpaid⟩

/-- What is put on the market for a request that returns: one offer with all its questions, or the
expired offer that was asked for. -/
def Placed (s : Setting) (profileId : ℕ) (publication : Publication) (id : ℕ)
    (placed : List Effect) : Prop :=
  match publication with
  | .create dto => ∃ row questions, normalizeQuestions s.detectContacts dto.questions = .ok questions ∧
      row.employerId = profileId ∧ row.status = .active ∧
        placed = .inserted id row :: if questions = [] then [] else [.asked id questions]
  | .republish offerId _ => id = offerId ∧
      ∃ found : JobOffer, found.status = .expired ∧ placed = [.reopened id found]

/-- A call that returns has charged one offer and put one on the market. -/
def Returned (s : Setting) (profileId : ℕ) (publication : Publication) (id : ℕ) (l : Log) : Prop :=
  ∃ charged paid placed, Charged s profileId charged paid l ∧
    Placed s profileId publication id placed ∧ effects l = paid ++ placed

/-- A call that throws has done nothing, or has given its charge back. -/
def Thrown (l : Log) : Prop :=
  effects l = [] ∨ ∃ id r now, effects l = [.charged id r now, .released id]

/-- The effects of a call before its answer. -/
def Settled (s : Setting) (profileId : ℕ) (publication : Publication) (outcome : Except Exn ℕ)
    (l : Log) : Prop :=
  match outcome with
  | .ok id => Returned s profileId publication id l
  | .error _ => Thrown l

/-- When process `i` may issue a command. -/
def Pre (s : Setting) (i : ℕ) : Cmd → State → Prop
  | .charge id quota, x => Sighted (fun p => quota = s.limit p) id (own x.2 i)
  | .release id, x => ∃ r now, effects (own x.2 i) = [.charged id r now]
  | .answer profileId publication outcome, x =>
    Settled s profileId publication outcome (own x.2 i)
  | _, _ => True

/-- What the operations keep to. -/
def contract (s : Setting) : Contract (service s) where
  inv _ := True
  pre := Pre s
  sound _ _ _ := trivial

/-- From `P` the program leads to `Q`, and to `X` if it throws. The assertions are about the steps
of the process. -/
abbrev Spec (s : Setting) {α : Type} (i : ℕ) (P : Log → Prop) (op : Prog α) (Q : α → Log → Prop)
    (X : Log → Prop) : Prop :=
  ((contract s).disciplineUnder orderly).Triple i (Own i P) op (fun a => Own i (Q a))
    fun _ => Own i X

/-- Nothing has been done yet. -/
def Idle (l : Log) : Prop := effects l = []

/-! ### Rules for single calls -/

theorem call_spec {c : Cmd} {P X : Log → Prop} {Q : Resp c → Log → Prop}
    (hpre : ∀ x : State, P (own x.2 i) → Pre s i c x)
    (hstep : ∀ (x : State) (ε : Env) (l : Log), orderly x (.step i c ε) → P l →
      Q (exec s x.1 ε c).2 (⟨i, x.1, c, (exec s x.1 ε c).2⟩ :: l))
    (hfault : ∀ (x : State) (l : Log), orderly x (.fault i c) → P l → X l) :
    Spec s i P (issue c) Q X := by
  refine Contract.triple_own (X := fun _ => X) (fun x _ h => hpre x h)
    (fun x ε w r _ h hg hexec => ?_) fun _ x hg h => hfault x _ hg h
  obtain ⟨rfl, rfl⟩ := pair_inj hexec
  exact hstep x ε _ hg h

/-- A call without an effect, before anything has been done. -/
theorem read_spec {c : Cmd} (hpre : ∀ x : State, Pre s i c x)
    (heffect : ∀ (w : World) (r : Resp c), effect ⟨i, w, c, r⟩ = none) :
    Spec s i Idle (issue c) (fun _ => Idle) Idle :=
  call_spec (fun x _ => hpre x) (fun _ _ _ _ h => (effects_cons_none (heffect _ _)).trans h)
    fun _ _ _ h => h

theorem refuse_spec {α : Type} {P : Log → Prop} {message : String} {Q : α → Log → Prop} :
    Spec s i P (refuse message) Q P := .fail fun _ _ h => h

theorem check_spec {α : Type} {P : Log → Prop} {outcome : Except Exn α} :
    Spec s i P (check outcome) (fun a l => P l ∧ outcome = .ok a) P := by
  cases outcome with
  | ok a => exact .ret fun _ _ h => ⟨h, rfl⟩
  | error e => exact .fail fun _ _ h => h

/-! ### What is checked before the charge -/

theorem businessOf_spec : Spec s i Idle (issue (.businessOf profileId))
    (fun found l => Idle l ∧ found = s.businessOf profileId) Idle :=
  call_spec (fun _ _ => trivial)
    (fun _ _ _ _ h => ⟨(effects_cons_none rfl).trans h, rfl⟩) fun _ _ _ h => h

theorem mem_runningPeriods {w : World} {p : Period → Bool} {id : ℕ} {r : Period}
    (h : (id, r) ∈ runningPeriods w businessId p) :
    w.periods[id]? = some r ∧ r.businessId = businessId := by
  rw [runningPeriods, mem_mergeSort] at h
  obtain ⟨hr, hp⟩ := Table.mem_findMany.1 h
  simp only [Bool.and_eq_true, decide_eq_true_eq] at hp
  exact ⟨hr, hp.1.1⟩

theorem current_spec : Spec s i Idle (current businessId)
    (fun found l => Idle l ∧ ∀ id p, found = some (id, p) →
      Sighted (fun r => r = p ∧ r.businessId = businessId) id l) Idle := by
  refine .bind (read_spec (c := .dateNow) (fun _ => trivial) fun _ _ => rfl) fun now => ?_
  refine call_spec (c := .current businessId now) (fun _ _ => trivial) (fun x ε l _ h => ?_)
    fun _ _ _ h => h
  refine ⟨(effects_cons_none rfl).trans h, fun id p hfound => ?_⟩
  obtain ⟨hr, hb⟩ := mem_runningPeriods (mem_of_getLast? hfound)
  exact ⟨_, mem_cons_self, p, hr, rfl, hb⟩

theorem assertCanPublishOffer_spec :
    Spec s i Idle (assertCanPublishOffer s profileId) (fun _ => Idle) Idle := by
  refine .bind businessOf_spec fun found => ?_
  split
  · exact .ret fun _ _ h => h.1
  · refine .bind (current_spec.pre_mono fun _ _ h => h.1) fun sub => ?_
    refine .bind ((read_spec (c := .countActiveOffers _) (fun _ => trivial)
      fun _ _ => rfl).pre_mono fun _ _ h => h.1) fun _ => ?_
    split
    · exact refuse_spec
    · split
      · exact refuse_spec
      · exact .ret fun _ _ h => h

theorem priorityUntil_spec : Spec s i Idle (priorityUntil s profileId) (fun _ => Idle) Idle := by
  refine .bind businessOf_spec fun found => ?_
  split
  · exact .ret fun _ _ h => h.1
  · refine .bind ((read_spec (c := .dateNow) (fun _ => trivial) fun _ _ => rfl).pre_mono
      fun _ _ h => h.1) fun now => ?_
    exact .bind (read_spec (c := .runningPeriods _ now) (fun _ => trivial) fun _ _ => rfl)
      fun periods => .ret fun _ _ h => h

theorem assertKycVerified_spec {status : VerificationStatus} :
    Spec s i Idle (assertKycVerified status) (fun _ => Idle) Idle := by
  cases status with
  | verified => exact .ret fun _ _ h => h
  | pending | rejected => exact refuse_spec

theorem assertAccount_spec {employer : Option Employer} {isNew : Bool} :
    Spec s i Idle (assertAccount employer isNew) (fun _ => Idle) Idle := by
  cases employer with
  | none => exact refuse_spec
  | some e =>
    unfold assertAccount
    dsimp only
    split
    · exact refuse_spec
    · split
      · exact refuse_spec
      · exact .bind assertKycVerified_spec fun _ => .ret fun _ _ h => h

theorem assertNotBlocked_spec {e : Employer} :
    Spec s i Idle (assertNotBlocked profileId e) (fun _ => Idle) Idle := by
  refine .bind (read_spec (c := .getFees) (fun _ => trivial) fun _ _ => rfl) fun fees => ?_
  dsimp only
  split
  · exact refuse_spec
  · refine .bind (read_spec (c := .countUnpaidPenalties profileId) (fun _ => trivial)
      fun _ _ => rfl) fun unpaid => ?_
    dsimp only
    split
    · exact refuse_spec
    · exact .ret fun _ _ h => h

theorem assertAhead_spec {scheduledAt : Option ℤ} :
    Spec s i Idle (assertAhead scheduledAt) (fun _ => Idle) Idle := by
  refine .bind (read_spec (c := .dateNow) (fun _ => trivial) fun _ _ => rfl) fun now => ?_
  dsimp only
  split
  · exact refuse_spec
  · exact .ret fun _ _ h => h

/-! ### The charge -/

/-- The call has done nothing but pay. -/
def Owes (s : Setting) (profileId : ℕ) (charged : Option ℕ) (l : Log) : Prop :=
  Charged s profileId charged (effects l) l

theorem Owes.cons (h : Owes s profileId charged l) (he : effect e = none) :
    Owes s profileId charged (e :: l) := by
  unfold Owes
  rw [effects_cons_none he]
  exact Charged.cons h e

theorem charge_spec {id : ℕ} {p : Period} (hb : s.businessOf profileId = some businessId) :
    Spec s i (fun l => Idle l ∧ Sighted (fun r => r = p ∧ r.businessId = businessId) id l)
      (issue (.charge id (s.limit p)))
      (fun done l => if done = true then Owes s profileId (some id) l else Idle l) Idle := by
  refine call_spec (fun x h => h.2.mono fun r hr => by rw [hr.1]) (fun x ε l hg h => ?_)
    fun _ _ _ h => h.1
  obtain ⟨r, hr, hroom, hexec⟩ | hexec := exec_charge s x.1 ε id (s.limit p)
  · rw [hexec]
    simp only [orderly] at hg
    rw [hr, Option.all_some, hroom] at hg
    have heffects : effects (⟨i, x.1, .charge id (s.limit p), true⟩ :: l) =
        [.charged id r x.1.now] := by
      rw [effects_cons, h.1]
      simp [effect, hr]
    refine (if_pos rfl).mpr ⟨businessId, hb, ?_, r, x.1.now, heffects, by simpa using hg⟩
    exact (h.2.mono fun r hr => hr.2).cons _
  · rw [hexec]
    exact (if_neg Bool.false_ne_true).mpr ((effects_cons_none rfl).trans h.1)

theorem consumeOffer_spec : Spec s i Idle (consumeOffer s profileId)
    (fun charged => Owes s profileId charged) Idle := by
  refine .bind businessOf_spec fun found => ?_
  split
  · exact .ret fun _ _ h => ⟨h.2.symm, h.1⟩
  · rename_i b
    rintro x hx ⟨hidle, hb⟩
    refine (?_ : Spec s i Idle _ _ _) x hx hidle
    refine .bind current_spec fun sub => ?_
    split
    · exact .fail fun _ _ h => h.1
    · rename_i id p
      refine .bind ((charge_spec hb.symm).pre_mono fun _ _ h => ⟨h.1, h.2 id p rfl⟩) fun done => ?_
      cases done with
      | true => exact .ret fun _ _ h => h
      | false => exact refuse_spec

/-! ### What follows the charge -/

/-- The charge is given back where the program that follows it throws. -/
theorem orRelease_spec {α : Type} {op : Prog α} {Q : α → Log → Prop}
    (hop : Spec s i (Owes s profileId charged) op Q (Owes s profileId charged)) :
    Spec s i (Owes s profileId charged) (orRelease charged op) Q Thrown := by
  refine .orElseCatch hop fun e => ?_
  cases charged with
  | none => exact .fail fun _ _ h => .inl h.2
  | some id =>
    refine .bind (R := fun _ => Own i Thrown) (call_spec (c := .release id) (fun x h => ?_)
      (fun x ε l _ h => ?_) fun _ _ hg _ => nomatch hg) fun _ => .fail fun _ _ h => h
    · obtain ⟨b, -, -, r, now, heffects, -⟩ := h
      exact ⟨r, now, heffects⟩
    · obtain ⟨b, -, -, r, now, heffects, -⟩ := h
      refine .inr ⟨id, r, now, ?_⟩
      rw [effects_cons, heffects]
      rfl

theorem insertOffer_spec {row : String → JobOffer} (n : ℕ) :
    Spec s i (Owes s profileId charged) (insertOffer row n)
      (fun id l => ∃ paid reference, Charged s profileId charged paid l ∧
        effects l = paid ++ [.inserted id (row reference)]) (Owes s profileId charged) := by
  induction n with
  | zero => exact refuse_spec
  | succ n ih =>
    refine .bind (R := fun found => Own i fun l => found.elim (Owes s profileId charged l) fun x =>
        ∃ paid reference, Charged s profileId charged paid l ∧
          effects l = paid ++ [.inserted x.1 (row reference)])
      (call_spec (c := .createOffer row) (fun _ _ => trivial) (fun x ε l _ h => ?_)
        fun _ _ _ h => h) fun found => ?_
    · obtain hexec | hexec := exec_createOffer s x.1 ε row
      · rw [hexec]
        refine ⟨effects l, ε.reference, Charged.cons h _, ?_⟩
        rw [effects_cons]
        rfl
      · rw [hexec]
        exact h.cons rfl
    · cases found with
      | some found => exact .ret fun _ _ h => h
      | none => exact ih

theorem saveOffer_spec {row : String → JobOffer} {questions : List QuestionRow} :
    Spec s i (Owes s profileId charged) (saveOffer row questions)
      (fun id l => ∃ paid reference, Charged s profileId charged paid l ∧ effects l = paid ++
        .inserted id (row reference) :: if questions = [] then [] else [.asked id questions])
      (Owes s profileId charged) := by
  refine .bind (insertOffer_spec referenceMaxAttempts) fun id => ?_
  dsimp only
  split
  · rename_i hsome
    refine .bind (call_spec (c := .createQuestions id questions) (fun _ _ => trivial)
      (fun x ε l _ h => ?_) fun _ _ hg _ => nomatch hg) fun _ => .ret fun _ _ h => h
    obtain ⟨paid, reference, hcharged, heffects⟩ := h
    refine ⟨paid, reference, hcharged.cons _, ?_⟩
    rw [effects_cons, heffects]
    simp [effect]
  · rename_i hnone
    refine .ret fun _ _ h => ?_
    obtain ⟨paid, reference, hcharged, heffects⟩ := h
    exact ⟨paid, reference, hcharged, by rw [heffects, if_pos (not_not.1 hnone)]⟩

theorem reopenOffer_spec {id : ℕ} {scheduledAt : ℤ} {priority : Option ℤ} :
    Spec s i (Owes s profileId charged) (reopenOffer id scheduledAt priority)
      (fun id' l => id' = id ∧ ∃ paid found, Charged s profileId charged paid l ∧
        found.status = .expired ∧ effects l = paid ++ [.reopened id found])
      (Owes s profileId charged) := by
  refine .bind (R := fun row => Own i fun l => row.elim (Owes s profileId charged l) fun _ =>
      ∃ paid found, Charged s profileId charged paid l ∧ found.status = .expired ∧
        effects l = paid ++ [.reopened id found])
    (call_spec (c := .updateOffer id scheduledAt priority) (fun _ _ => trivial)
      (fun x ε l hg h => ?_) fun _ _ _ h => h) fun row => ?_
  · obtain ⟨found, hfound, hexec⟩ | ⟨hnone, hexec⟩ :=
      exec_updateOffer s x.1 ε id scheduledAt priority
    · rw [hexec]
      simp only [orderly, hfound, Option.all_some, decide_eq_true_eq] at hg
      refine ⟨effects l, found, Charged.cons h _, hg, ?_⟩
      rw [effects_cons]
      simp [effect, hfound]
    · rw [hexec]
      exact h.cons (by simp [effect, hnone])
  · cases row with
    | none => exact refuse_spec
    | some row => exact .ret fun _ _ h => ⟨rfl, h⟩

/-! ### The two requests -/

theorem Thrown.of_idle (h : Idle l) : Thrown l := .inl h

/-- What goes wrong before the charge has done nothing. -/
theorem Spec.thrown {α : Type} {P : Log → Prop} {op : Prog α} {Q : α → Log → Prop}
    (h : Spec s i P op Q Idle) : Spec s i P op Q Thrown :=
  h.post_mono (fun _ _ _ h => h) fun _ _ _ h => .of_idle h

theorem create_spec {dto : CreateJobOfferDto} :
    Spec s i Idle (create s profileId dto) (Returned s profileId (.create dto)) Thrown := by
  unfold create
  generalize validateCreateDto dto = checked
  generalize hnormalized : normalizeQuestions s.detectContacts dto.questions = normalized
  refine .bind (read_spec (c := .findEmployer profileId) (fun _ => trivial) fun _ _ => rfl).thrown
    fun found => ?_
  refine .bind assertAccount_spec.thrown fun employer => ?_
  refine .bind assertNotBlocked_spec.thrown fun _ => ?_
  refine .bind check_spec.thrown fun _ => ?_
  refine Discipline.Triple.pre_mono (?_ : Spec s i Idle _ _ _) fun _ _ h => h.1
  refine .bind check_spec.thrown fun questions => ?_
  rintro x hx ⟨hidle, hquestions⟩
  refine (?_ : Spec s i Idle _ _ _) x hx hidle
  refine .bind assertCanPublishOffer_spec.thrown fun _ => ?_
  refine .bind priorityUntil_spec.thrown fun priority => ?_
  refine .bind assertAhead_spec.thrown fun _ => ?_
  refine .bind consumeOffer_spec.thrown fun charged => ?_
  refine (orRelease_spec saveOffer_spec).post_mono (fun id x _ h => ?_) fun _ _ _ h => h
  obtain ⟨paid, reference, hcharged, heffects⟩ := h
  exact ⟨charged, paid, _, hcharged, ⟨_, questions, hnormalized.trans hquestions, rfl, rfl, rfl⟩,
    heffects⟩

theorem assertExpired_spec {offer : Option JobOffer} :
    Spec s i Idle (assertExpired offer profileId) (fun _ => Idle) Idle := by
  cases offer with
  | none => exact refuse_spec
  | some o =>
    unfold assertExpired
    dsimp only
    split
    · exact refuse_spec
    · split
      · exact refuse_spec
      · exact .ret fun _ _ h => h

theorem republish_spec {id : ℕ} {scheduledAt : SentDate} :
    Spec s i Idle (republish s id profileId scheduledAt)
      (Returned s profileId (.republish id scheduledAt)) Thrown := by
  refine .bind (read_spec (c := .findOffer id) (fun _ => trivial) fun _ _ => rfl).thrown
    fun found => ?_
  refine .bind (read_spec (c := .findEmployer profileId) (fun _ => trivial) fun _ _ => rfl).thrown
    fun actor => ?_
  refine .bind assertExpired_spec.thrown fun offer => ?_
  refine .bind assertAccount_spec.thrown fun _ => ?_
  dsimp only
  split
  · exact refuse_spec.thrown
  · refine .bind assertCanPublishOffer_spec.thrown fun _ => ?_
    refine .bind priorityUntil_spec.thrown fun priority => ?_
    cases scheduledAt with
    | unreadable => exact refuse_spec.thrown
    | «at» t =>
      refine .bind assertAhead_spec.thrown fun _ => ?_
      refine .bind consumeOffer_spec.thrown fun charged => ?_
      refine (orRelease_spec reopenOffer_spec).post_mono (fun id' x _ h => ?_) fun _ _ _ h => h
      obtain ⟨rfl, paid, found, hcharged, hexpired, heffects⟩ := h
      exact ⟨charged, paid, _, hcharged, ⟨rfl, found, hexpired, rfl⟩, heffects⟩

theorem respond_spec {publication : Publication} :
    Spec s i Idle (respond s profileId publication) (fun _ _ => True) fun _ => True := by
  have hpublish : Spec s i Idle (publish s profileId publication)
      (Returned s profileId publication) Thrown := by
    cases publication with
    | create dto => exact create_spec
    | republish id scheduledAt => exact republish_spec
  refine .bind (R := fun outcome => Own i (Settled s profileId publication outcome))
    (.orElseCatch (.bind hpublish fun id => .ret fun _ _ h => h) fun e => .ret fun _ _ h => h)
    fun outcome => ?_
  exact call_spec (c := .answer profileId publication outcome) (fun _ h => h)
    (fun _ _ _ _ _ => trivial) fun _ _ _ _ => trivial

/-- Every handler keeps to the contract. -/
theorem handles : (contract s).HandlesTo orderly fun _ _ => True := by
  intro r i
  have hspec : Spec s i Idle ((service s).handler r) (fun _ _ => True) fun _ => True := by
    match r with
    | .publish profileId publication => exact respond_spec
    | .elapse milliseconds =>
      exact call_spec (c := .elapse milliseconds) (fun _ _ => trivial) (fun _ _ _ _ _ => trivial)
        fun _ _ _ _ => trivial
    | .openPeriod period =>
      exact call_spec (c := .openPeriod period) (fun _ _ => trivial) (fun _ _ _ _ _ => trivial)
        fun _ _ _ _ => trivial
    | .revisePeriod id status startsAt endsAt =>
      exact call_spec (c := .revisePeriod id status startsAt endsAt) (fun _ _ => trivial)
        (fun _ _ _ _ _ => trivial) fun _ _ _ _ => trivial
  refine hspec.pre_mono fun x _ h => ?_
  rw [Own, h.own_eq]
  rfl

end Rabotka.Publishing
