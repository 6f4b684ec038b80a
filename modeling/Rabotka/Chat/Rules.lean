import Rabotka.Lib.Trace
import Rabotka.Chat.Conversations

/-!
# Who started what

The rows do not say who started them; the steps do (`origins`). In orderly runs every count sees
what the profile itself has started: the conversations of the last 24 hours that it is a party of
and that have no application are those it started directly, and between the count of a call and
its insert no other call of the profile inserts one.
-/

namespace Rabotka.Chat

open Async Trace Contract List

/-- A step of this service. -/
abbrev Step := Entry World Resp

/-- The steps of a run. -/
abbrev Log := Trace World Resp

/-- The table with its steps. -/
abbrev State := Traced World Resp

variable {s : Setting} {i a id : ℕ} {w v : World} {x : State} {e : Step} {l : Log} {o : Opening}

/-! ### What the steps say -/

/-- Who starts the conversation, if it is direct. -/
def Opening.starter : Opening → Option ℕ
  | .forApplication _ _ => none
  | .withProfile _ actorId => some actorId

/-- A conversation as it was inserted, with the profile that started it directly. -/
structure Origin where
  workerId : ℕ
  employerId : ℕ
  createdAt : ℕ
  startedBy : Option ℕ
  deriving DecidableEq

/-- What the step inserts. -/
def origin : Step → Option Origin
  | ⟨_, _, .create o _ _ _, .row _ r⟩ => some ⟨r.workerId, r.employerId, r.createdAt, o.starter⟩
  | _ => none

/-- The conversations in the order of their inserts. -/
def origins (l : Log) : List Origin := (l.filterMap origin).reverse

theorem origins_cons (e : Step) (l : Log) : origins (e :: l) = origins l ++ (origin e).toList := by
  cases h : origin e with
  | none | some => simp [origins, h]

/-- The profile started the conversation directly, at `since` or later. -/
def Origin.since (since actorId : ℕ) (o : Origin) : Bool :=
  o.startedBy = some actorId && since ≤ o.createdAt

/-- The profile started the conversation directly, between the two instants. -/
def Origin.within (start stop actorId : ℕ) (o : Origin) : Bool :=
  o.since start actorId && o.createdAt ≤ stop

/-- The row that the step finds or inserts. -/
def reports : Step → Option (ℕ × Conversation)
  | ⟨_, _, .findPair _ _, found⟩ => found
  | ⟨_, _, .create _ _ _ _, .row id r⟩ => some (id, r)
  | _ => none

/-- The step is the count of process `i`. -/
def counts (i : ℕ) : Step → Bool
  | ⟨j, _, .countDirect _ _, _⟩ => j = i
  | _ => false

/-- Since the count of process `i`, the profile has started no conversation. -/
def quietSinceCount (i actorId : ℕ) (l : Log) : Bool :=
  (l.takeWhile fun e => !counts i e).all fun e => (origin e).all fun o => o.startedBy ≠ some actorId

/-- The rows that a count is about are those the profile started directly. -/
def countsItsOwn (since actorId : ℕ) (x : State) : Bool :=
  (x.1.conversations.zip (origins x.2)).all fun z => z.1.counted since actorId = z.2.since since actorId

/-- Counts are right, and they still are at the insert they are made for. -/
def orderly (s : Setting) : Guard State Cmd Request Env
  | x, .step _ (.countDirect since actorId) _ => countsItsOwn since actorId x
  | x, .step i (.create (.withProfile _ actorId) workerId employerId _) _ => s.cap = 0 ||
      x.1.conversations.any (fun r => r.isOf workerId employerId) || quietSinceCount i actorId x.2
  | _, _ => true

/-! ### What a call knows -/

/-- The request asks for the conversation of these parties. -/
def Opening.Concerns (s : Setting) (o : Opening) (workerId employerId : ℕ) : Prop :=
  match o with
  | .forApplication id _ =>
    ∃ a, s.applications[id]? = some a ∧ a.workerId = workerId ∧ a.employerId = employerId
  | .withProfile counterpartId actorId => (workerId = counterpartId ∧ employerId = actorId) ∨
      workerId = actorId ∧ employerId = counterpartId

/-- They are a worker and an employer. -/
def Setting.Roles (s : Setting) (workerId employerId : ℕ) : Prop :=
  s.profiles[workerId]? = some .worker ∧ s.profiles[employerId]? = some .employer

/-- The instant is 24 hours before one at which the process has looked at the clock. -/
def DayBefore (i since : ℕ) (l : Log) : Prop :=
  ∃ w : World, since = w.now - dayMs ∧ (⟨i, w, .dateNow, w.now⟩ : Step) ∈ l

/-- The process has counted less than the cap. -/
def Counted (s : Setting) (i a : ℕ) (l : Log) : Prop :=
  ∃ v since n, l.find? (counts i) = some ⟨i, v, .countDirect since a, n⟩ ∧ n < s.cap ∧
    DayBefore i since l

/-- The process has read the conversation that the request asks for. -/
def Found (s : Setting) (o : Opening) (id : ℕ) (l : Log) : Prop :=
  ∃ e ∈ l, ∃ r, reports e = some (id, r) ∧ o.Concerns s r.workerId r.employerId

/-- When process `i` may issue a command. -/
def Pre (s : Setting) (i : ℕ) : Cmd → State → Prop
  | .create o workerId employerId _, x => o.Concerns s workerId employerId ∧
      s.Roles workerId employerId ∧ ∀ a, o.starter = some a → s.cap = 0 ∨ Counted s i a (own x.2 i)
  | .countDirect since _, x => DayBefore i since (own x.2 i)
  | .reply o id, x => Found s o id (own x.2 i)
  | _, _ => True

/-- What the operations keep to. -/
def contract (s : Setting) : Contract (service s) where
  inv _ := True
  pre := Pre s
  sound _ _ _ := trivial

/-- From `P` the program leads to `Q`. The assertions are about the steps of the process. -/
abbrev Spec (s : Setting) {α : Type} (i : ℕ) (P : Log → Prop) (op : Prog α) (Q : α → Log → Prop) :
    Prop :=
  ((contract s).disciplineUnder (orderly s)).Triple i (Own i P) op (fun a => Own i (Q a))
    fun _ _ => True

variable {P : Log → Prop}

theorem call_spec {c : Cmd} {Q : Resp c → Log → Prop}
    (hpre : ∀ x : State, P (own x.2 i) → Pre s i c x)
    (hstep : ∀ (w : World) (ε : Env) (l : Log), (∀ z ∈ l, z.proc = i) → P l →
      Q (exec s w ε c).2 (⟨i, w, c, (exec s w ε c).2⟩ :: l)) :
    Spec s i P (issue c) Q := by
  refine Discipline.Triple.post_mono (Contract.triple_own (X := fun _ _ => True)
    (fun x _ h => hpre x h) (fun x ε w r _ h _ hexec => ?_) fun _ _ _ _ => trivial)
    (fun _ _ _ h => h) fun _ _ _ _ => trivial
  obtain ⟨rfl, rfl⟩ := pair_inj hexec
  exact hstep x.1 ε _ (fun z hz => of_decide_eq_true (mem_filter.1 hz).2) h

/-- A call of which nothing is asked, and that takes nothing away from what is known. -/
theorem plain_spec {c : Cmd} (hpre : ∀ x : State, Pre s i c x)
    (hP : ∀ (w : World) (r : Resp c) (l : Log), P l → P (⟨i, w, c, r⟩ :: l)) :
    Spec s i P (issue c) fun _ => P :=
  call_spec (fun x _ => hpre x) fun w _ l _ h => hP w _ l h

theorem refuse_spec {α : Type} {message : String} {Q : α → Log → Prop} :
    Spec s i P (refuse message) Q := .fail fun _ _ _ => trivial

/-! ### The calls keep to it -/

theorem Found.cons (h : Found s o id l) (e : Step) : Found s o id (e :: l) := by
  obtain ⟨z, hz, r, hr, hconcerns⟩ := h
  exact ⟨z, mem_cons_of_mem _ hz, r, hr, hconcerns⟩

variable {workerId employerId : ℕ}

theorem Conversation.isOf_iff {r : Conversation} :
    r.isOf workerId employerId ↔ r.workerId = workerId ∧ r.employerId = employerId := by
  simp [Conversation.isOf]

/-- A conversation that is found by its parties. -/
theorem findPair_spec
    (hP : ∀ (w : World) r l, P l → P (⟨i, w, .findPair workerId employerId, r⟩ :: l))
    (ho : o.Concerns s workerId employerId) :
    Spec s i P (issue (.findPair workerId employerId)) fun found l => P l ∧
      ∀ z, found = some z → Found s o z.1 l := by
  refine call_spec (fun _ _ => trivial) fun w ε l _ h => ⟨hP w _ l h, fun z hz => ?_⟩
  refine ⟨_, mem_cons_self, z.2, hz, ?_⟩
  obtain ⟨hrow, hparties⟩ := Table.findFirst_eq_some hz
  obtain ⟨rfl, rfl⟩ := Conversation.isOf_iff.1 hparties
  exact ho

theorem createPair_spec {applicationId : Option ℕ}
    (ho : o.Concerns s workerId employerId) (hroles : s.Roles workerId employerId) :
    Spec s i (fun l => ∀ a, o.starter = some a → s.cap = 0 ∨ Counted s i a l)
      (createPair o workerId employerId applicationId) fun z l => Found s o z.1 l := by
  refine .bind (R := fun r => Own i fun l => ∀ id row, r = .row id row → Found s o id l)
    (call_spec (c := .create o workerId employerId applicationId) (fun _ h => ⟨ho, hroles, h⟩)
      fun w ε l _ _ id row hrow => ?_) fun r => ?_
  · refine ⟨_, mem_cons_self, row, ?_, ?_⟩
    · rw [hrow]
      rfl
    · simp only [exec] at hrow
      split at hrow
      · cases hrow
      · split at hrow
        · cases hrow
        · obtain ⟨-, rfl⟩ := Inserted.row.inj hrow
          exact ho
  · split
    · exact .ret fun x _ h => h _ _ rfl
    · exact refuse_spec
    · refine .bind ((findPair_spec (P := fun _ => True) (fun _ _ _ _ => trivial) ho).pre_mono
        fun _ _ _ => trivial) fun found => ?_
      split
      · exact .ret fun x _ h => h.2 _ rfl
      · exact refuse_spec

theorem assertCanMessage_spec {actorId : ℕ} :
    Spec s i (fun _ => True) (assertCanMessage actorId) fun _ _ => True := by
  refine .bind (plain_spec (c := .assertCanMessage actorId) (fun _ => trivial)
    fun _ _ _ _ => trivial) fun allowed => ?_
  split
  · exact .ret fun _ _ h => h
  · exact refuse_spec

theorem pointAt_spec {applicationId : ℕ} {status : ApplicationStatus}
    {existing : ℕ × Conversation} :
    Spec s i (Found s o existing.1) (pointAt applicationId status existing)
      fun z l => Found s o z.1 l := by
  unfold pointAt
  split
  · refine .bind (plain_spec (c := .update existing.1 applicationId) (fun _ => trivial)
      fun _ _ _ h => h.cons _) fun updated => ?_
    split
    · exact .ret fun _ _ h => h
    · exact refuse_spec
  · exact .ret fun _ _ h => h

theorem openForApplication_spec {applicationId actorId : ℕ} :
    Spec s i (fun _ => True) (openForApplication applicationId actorId)
      fun z l => Found s (.forApplication applicationId actorId) z.1 l := by
  refine .bind (R := fun found => Own i fun _ => ∀ z, found = some z →
    s.applications[applicationId]? = some z.1) (call_spec (c := .findApplication applicationId)
      (fun _ _ => trivial) fun w ε l _ _ z hz => ?_) fun found => ?_
  · simp only [exec] at hz
    split at hz
    · obtain ⟨a, ha, rfl⟩ := Option.map_eq_some_iff.1 hz
      exact ha
    · cases hz
  · split
    · exact refuse_spec
    · rename_i a status
      split
      · exact refuse_spec
      · rintro x hx hfound
        have ha : s.applications[applicationId]? = some a := hfound (a, status) rfl
        have ho : (Opening.forApplication applicationId actorId).Concerns s a.workerId
            a.employerId := ⟨a, ha, rfl, rfl⟩
        have hroles : s.Roles a.workerId a.employerId :=
          s.roles a (mem_of_getElem? ha)
        refine (?_ : Spec s i (fun _ => True) _ _) x hx trivial
        refine .bind (findPair_spec (fun _ _ _ h => h) ho) fun found => ?_
        split
        · exact pointAt_spec.pre_mono fun x _ h => h.2 _ rfl
        · split
          · exact refuse_spec
          · refine .bind (assertCanMessage_spec.pre_mono fun _ _ _ => trivial) fun _ => ?_
            exact (createPair_spec ho hroles).pre_mono fun _ _ _ a h => by cases h

theorem assertUnderDailyCap_spec {actorId : ℕ} :
    Spec s i (fun _ => True) (assertUnderDailyCap s actorId)
      fun _ l => s.cap = 0 ∨ Counted s i actorId l := by
  unfold assertUnderDailyCap
  split
  · rename_i hcap
    exact .ret fun _ _ _ => .inl hcap
  · refine .bind (R := fun now => Own i (DayBefore i (now - dayMs)))
      (call_spec (c := .dateNow) (fun _ _ => trivial) fun w ε l _ _ =>
        ⟨w, rfl, mem_cons_self⟩) fun now => ?_
    refine .bind (R := fun n => Own i fun l => n < s.cap → Counted s i actorId l)
      (call_spec (c := .countDirect (now - dayMs) actorId) (fun _ h => h)
        fun w ε l _ h hn => ?_) fun n => ?_
    · obtain ⟨v, hv, hmem⟩ := h
      exact ⟨w, _, _, by simp [counts], hn, v, hv, mem_cons_of_mem _ hmem⟩
    · split
      · exact refuse_spec
      · rename_i hn
        exact .ret fun _ _ h => .inr (h (not_le.1 hn))

variable {counterpartId actorId : ℕ}

theorem openPair_spec {pair : ℕ × ℕ}
    (ho : (Opening.withProfile counterpartId actorId).Concerns s pair.1 pair.2)
    (hroles : s.Roles pair.1 pair.2) :
    Spec s i (fun _ => True) (openPair s counterpartId actorId pair)
      fun z l => Found s (.withProfile counterpartId actorId) z.1 l := by
  refine .bind (findPair_spec (fun _ _ _ h => h) ho) fun found => ?_
  split
  · exact .ret fun x _ h => h.2 _ rfl
  · refine .bind (assertCanMessage_spec.pre_mono fun _ _ _ => trivial) fun _ => ?_
    refine .bind assertUnderDailyCap_spec fun _ => ?_
    exact (createPair_spec ho hroles).pre_mono fun x _ h a ha => Option.some.inj ha ▸ h

/-- The type of a profile that is read. -/
theorem findProfile_spec {profileId : ℕ} {P : Prop} :
    Spec s i (fun _ => P) (issue (.findProfile profileId)) fun found _ => P ∧
      ∀ p, found = some p → s.profiles[profileId]? = some p.profileType := by
  refine call_spec (fun _ _ => trivial) fun w ε l _ h => ⟨h, fun p hp => ?_⟩
  simp only [exec] at hp
  split at hp
  · obtain ⟨t, ht, rfl⟩ := Option.map_eq_some_iff.1 hp
    exact ht
  · cases hp

theorem concerns_roles {t : ProfileType} :
    (Opening.withProfile counterpartId actorId).Concerns s (roles t counterpartId actorId).1
      (roles t counterpartId actorId).2 := by
  cases t with
  | worker => exact .inr ⟨rfl, rfl⟩
  | employer => exact .inl ⟨rfl, rfl⟩

/-- Where the types differ, one is the worker and the other the employer. -/
theorem roles_of_ne {t t' : ProfileType}
    (hactor : s.profiles[actorId]? = some t) (hcounterpart : s.profiles[counterpartId]? = some t')
    (hne : t ≠ t') :
    s.Roles (roles t counterpartId actorId).1 (roles t counterpartId actorId).2 := by
  cases t with
  | worker =>
    cases t' with
    | worker => exact absurd rfl hne
    | employer => exact ⟨hactor, hcounterpart⟩
  | employer =>
    cases t' with
    | worker => exact ⟨hcounterpart, hactor⟩
    | employer => exact absurd rfl hne

theorem openWithProfile_spec : Spec s i (fun _ => True) (openWithProfile s counterpartId actorId)
      fun z l => Found s (.withProfile counterpartId actorId) z.1 l := by
  unfold openWithProfile
  split
  · exact refuse_spec
  · refine .bind (plain_spec (c := .isEnabled) (fun _ => trivial) fun _ _ _ h => h)
      fun enabled => ?_
    dsimp only
    split
    · exact refuse_spec
    · refine .bind findProfile_spec fun actor => ?_
      refine .bind findProfile_spec fun counterpart => ?_
      split
      · rename_i actor counterpart
        split
        · exact refuse_spec
        · split
          · exact refuse_spec
          · rename_i hne
            rintro x hx ⟨⟨-, hactor⟩, hcounterpart⟩
            exact openPair_spec concerns_roles
              (roles_of_ne (hactor actor rfl) (hcounterpart counterpart rfl) hne) x hx trivial
      · exact refuse_spec

theorem reply_spec {found : Prog (ℕ × Conversation)}
    (h : Spec s i (fun _ => True) found fun z l => Found s o z.1 l) :
    Spec s i (fun _ => True) (reply o found) fun _ _ => True :=
  .bind h fun z => call_spec (c := .reply o z.1) (fun _ h => h) fun _ _ _ _ _ => trivial

/-- Every handler keeps to the contract. -/
theorem handles : (contract s).HandlesTo (orderly s) fun _ _ => True := by
  intro r i
  have hspec : Spec s i (fun _ => True) ((service s).handler r) fun _ _ => True := by
    match r with
    | .opening (.forApplication applicationId actorId) => exact reply_spec openForApplication_spec
    | .opening (.withProfile counterpartId actorId) => exact reply_spec openWithProfile_spec
    | .elapse milliseconds =>
      exact plain_spec (c := .elapse milliseconds) (fun _ => trivial) fun _ _ _ h => h
  exact hspec.pre_mono fun _ _ _ => trivial

end Rabotka.Chat
