import Rabotka.Lib.Volatile
import Rabotka.Lib.Trace

/-!
# Telling workers of a new offer

`JobNotificationService.notifyForOffer`: the workers ranked for an offer are told of it by a few
runners that share a cursor, each of them one worker at a time. A worker who has a marker for the
offer is left out, one whose cooldown is claimed is left out too, and the claim is released if
nothing was sent.

Every Redis command, every send and every read is one call, and each can fail, which changes
nothing; a run of the job that stops half way is one that takes no more calls. The settings but the
cooldown, the offer and the ranking are what the environment answers. A marker outlives the runs;
a claim lasts for the cooldown, in milliseconds.
-/

namespace Rabotka.Notifying

open Async Expiring

/-- `NOTIFY_CONCURRENCY`. -/
def notifyConcurrency : ℕ := 5

/-- `NotifyOutcome`. -/
structure NotifyOutcome where
  ranked : ℕ := 0
  sent : ℕ := 0
  skippedCooldown : ℕ := 0
  skippedAlreadySent : ℕ := 0
  failed : ℕ := 0
  deriving DecidableEq

/-- The ways in which the turn of one worker ends. -/
inductive Ending
  | sent
  | skippedCooldown
  | skippedAlreadySent
  | failed
  deriving DecidableEq

def NotifyOutcome.add (o : NotifyOutcome) : Ending → NotifyOutcome
  | .sent => { o with sent := o.sent + 1 }
  | .skippedCooldown => { o with skippedCooldown := o.skippedCooldown + 1 }
  | .skippedAlreadySent => { o with skippedAlreadySent := o.skippedAlreadySent + 1 }
  | .failed => { o with failed := o.failed + 1 }

/-- A run of the job in memory: its offer, the workers ranked for it, how far the cursor is, how
many runners share it, and the counts. -/
structure Job where
  offerId : ℕ
  ranked : List ℕ
  cursor : ℕ := 0
  runners : ℕ := 0
  outcome : NotifyOutcome := {}
  deriving DecidableEq

/-- The clock, the two kinds of keys in Redis, and the runs of jobs. -/
structure World where
  now : ℕ := 0
  sent : ℕ × ℕ → Bool := fun _ => false
  cooldown : Keys ℕ Unit := Keys.empty
  jobs : List Job := []

/-- `status` of an offer, as far as notifying tells. -/
inductive OfferStatus
  | active
  | partiallyFilled
  | other
  deriving DecidableEq

structure Offer where
  status : OfferStatus
  deleted : Bool
  deriving DecidableEq

/-- `NOTIFIABLE_STATUSES`, and not deleted. -/
def Offer.isNotifiable (offer : Offer) : Bool :=
  !offer.deleted && decide (offer.status ∈ [.active, .partiallyFilled])

/-! ### Calls -/

/-- `start`, `join`, `take` and `count` are steps on the memory of the server; `ring` is the bell,
which is all there is where WhatsApp is switched off (`alone`). -/
inductive Cmd
  | isEnabled
  | findOffer (offerId : ℕ)
  | rank (offerId : ℕ)
  | start (offerId : ℕ) (ranked : List ℕ)
  | join (job : ℕ)
  | take (job : ℕ)
  | exists (offerId workerId : ℕ)
  | claim (workerId : ℕ)
  | allows
  | send (offerId workerId : ℕ)
  | release (workerId : ℕ)
  | mark (offerId workerId : ℕ)
  | count (job : ℕ) (ending : Ending)
  | ring (offerId workerId : ℕ) (alone : Bool)
  | record (offerId workerId : ℕ)
  | pass (ms : ℕ)

abbrev Resp : Cmd → Type
  | .isEnabled => Bool
  | .findOffer _ => Option Offer
  | .rank _ => List ℕ
  | .join _ => ℕ
  | .take _ => Option ℕ
  | .exists _ _ => Bool
  | .claim _ => Bool
  | .allows => Bool
  | .send _ _ => Bool
  | _ => Unit

/-- What the environment chooses at a call. -/
structure Env where
  enabled : Bool := true
  offer : Option Offer := some ⟨.active, false⟩
  ranked : List ℕ := []
  allowed : Bool := true
  delivered : Bool := true
  deriving DecidableEq

def World.updateJob (w : World) (job : ℕ) (f : Job → Job) : World :=
  { w with jobs := w.jobs.modify job f }

variable (cooldownMinutes : ℕ)

/-- How long a claim lasts. -/
def window : ℕ := cooldownMinutes * 60 * 1000

/-- What a command does. -/
def exec (w : World) (ε : Env) : (c : Cmd) → Option (World × Resp c)
  | .isEnabled => some (w, ε.enabled)
  | .findOffer _ => some (w, ε.offer)
  | .rank _ => some (w, ε.ranked)
  | .start offerId ranked =>
    some ({ w with jobs := w.jobs ++
      [{ offerId, ranked, outcome := { ranked := ranked.length } }] }, ())
  | .join job =>
    match w.jobs[job]? with
    | none => none
    | some j =>
      if j.runners < min notifyConcurrency j.ranked.length then
        some (w.updateJob job fun j => { j with runners := j.runners + 1 }, j.offerId)
      else none
  | .take job =>
    match w.jobs[job]?.bind fun j => j.ranked[j.cursor]? with
    | none => some (w, none)
    | some worker => some (w.updateJob job fun j => { j with cursor := j.cursor + 1 }, some worker)
  | .exists offerId workerId => some (w, w.sent (offerId, workerId))
  | .claim workerId =>
    if (w.cooldown.get w.now workerId).isSome then some (w, false)
    else
      some ({ w with
        cooldown := w.cooldown.put workerId () (some (w.now + window cooldownMinutes)) }, true)
  | .allows => some (w, ε.allowed)
  | .send _ _ => some (w, ε.delivered)
  | .release workerId => some ({ w with cooldown := w.cooldown.del workerId }, ())
  | .mark offerId workerId =>
    some ({ w with sent := Function.update w.sent (offerId, workerId) true }, ())
  | .count job ending =>
    some (w.updateJob job fun j => { j with outcome := j.outcome.add ending }, ())
  | .ring _ _ _ => some (w, ())
  | .record _ _ => some (w, ())
  | .pass ms => some ({ w with now := w.now + ms }, ())

/-! ### Operations -/

/-- What a call throws. -/
structure Exn where
  message : String
  deriving DecidableEq

/-- An operation of this service. -/
abbrev Prog (α : Type) := Op Resp Exn α

/-- Issues one call. -/
def issue (c : Cmd) : Prog (Resp c) := Op.cmd c

/-- Reads the offer and the ranking, and puts a run of the job into memory; its runners are requests
of their own. -/
def notifyForOffer (offerId : ℕ) : Prog Unit := do
  if ← issue .isEnabled then
    match ← issue (.findOffer offerId) with
    | none => return
    | some offer =>
      if offer.isNotifiable then
        let ranked ← issue (.rank offerId)
        if ranked = [] then return else issue (.start offerId ranked)
      else return
  else return

/-- The claim of the cooldown, if there is one. -/
def claimCooldown (workerId : ℕ) : Prog Bool :=
  if 0 < cooldownMinutes then issue (.claim workerId) else return true

/-- Whether the recommendation was sent; the bell alone carries it where WhatsApp is off. -/
def sendOrRing (offerId workerId : ℕ) (viaWhatsApp : Bool) : Prog Bool :=
  if viaWhatsApp then tryCatch (issue (.send offerId workerId)) fun _ => return false
  else return true

/-- What follows a send. -/
def settle (job offerId workerId : ℕ) (viaWhatsApp : Bool) : Prog Unit := do
  issue (.count job .sent)
  issue (.mark offerId workerId)
  issue (.ring offerId workerId !viaWhatsApp)
  tryCatch (issue (.record offerId workerId)) fun _ => return

/-- What follows a send that failed. -/
def giveUp (job workerId : ℕ) : Prog Unit := do
  issue (.count job .failed)
  if 0 < cooldownMinutes then issue (.release workerId) else return

def notifyOne (job offerId workerId : ℕ) : Prog Unit := do
  if ← issue (.exists offerId workerId) then issue (.count job .skippedAlreadySent)
  else if ← claimCooldown cooldownMinutes workerId then
    let viaWhatsApp ← issue .allows
    let sent ← sendOrRing offerId workerId viaWhatsApp
    if sent then settle job offerId workerId viaWhatsApp else giveUp cooldownMinutes job workerId
  else issue (.count job .skippedCooldown)

/-- A runner of the pool, for at most so many workers. -/
def turns (job offerId : ℕ) : ℕ → Prog Unit
  | 0 => return
  | n + 1 => do
    match ← issue (.take job) with
    | none => return
    | some workerId =>
      notifyOne cooldownMinutes job offerId workerId
      turns job offerId n

def runner (job n : ℕ) : Prog Unit := do
  let offerId ← issue (.join job)
  turns cooldownMinutes job offerId n

inductive Request
  | notify (offerId : ℕ)
  | runner (job n : ℕ)
  | pass (ms : ℕ)
  deriving DecidableEq

def handler : Request → Prog Unit
  | .notify offerId => notifyForOffer offerId
  | .runner job n => runner cooldownMinutes job n
  | .pass ms => issue (.pass ms)

/-- Redis, the memory and the clock with everything that changes them. -/
def service : Service World Cmd Resp Request Env Exn where
  exec w _ c ε := exec cooldownMinutes w ε c
  handler := handler cooldownMinutes

end Rabotka.Notifying

/-!
## The calls of notifying

A worker is told of an offer by a send that is delivered, or by the bell alone. What the steps of
one process say: it has looked for the marker of a pair and found none (`NotFound`), and since it
has claimed a cooldown it has neither told the worker nor released the claim (`Clean`). Every
operation sends under the first and, with a cooldown, under the second; it releases a claim under
which it has told nobody (`Pre`).
-/

namespace Rabotka.Notifying

open Async Trace Contract

/-- A step of this service. -/
abbrev Step := Entry World Resp

/-- The steps of a run. -/
abbrev Log := Trace World Resp

/-- Redis and the memory with the steps. -/
abbrev State := Traced World Resp

variable {cooldownMinutes : ℕ} {i job offerId workerId : ℕ} {x : State} {l : Log} {e : Step}

/-! ### What the steps say -/

/-- The step tells a worker of an offer. -/
def toldOf : Step → Option (ℕ × ℕ)
  | ⟨_, _, .send offerId workerId, delivered⟩ =>
    if delivered then some (offerId, workerId) else none
  | ⟨_, _, .ring offerId workerId alone, _⟩ => if alone then some (offerId, workerId) else none
  | _ => none

/-- The step tells the worker. -/
def Tells (workerId : ℕ) (e : Step) : Prop := (toldOf e).map Prod.snd = some workerId

instance : DecidablePred (Tells workerId) := fun _ => inferInstanceAs (Decidable (_ = _))

/-- Who has claimed the cooldown of the worker by the step, and when. -/
def claimed (workerId : ℕ) : Step → Option (ℕ × ℕ)
  | ⟨i, w, .claim v, granted⟩ => if v = workerId ∧ granted = true then some (i, w.now) else none
  | _ => none

/-- The step releases the cooldown of the worker. -/
def Releases (workerId : ℕ) (e : Step) : Prop := e.cmd = .release workerId

/-- The last claim of the cooldown of the worker. -/
def lastClaim (workerId : ℕ) (l : Log) : Option (ℕ × ℕ) := l.findSome? (claimed workerId)

/-- The steps since the last claim. -/
def sinceClaim (workerId : ℕ) (l : Log) : Log := l.takeWhile fun e => (claimed workerId e).isNone

/-- What a look for the marker of the pair has found. -/
def looked (offerId workerId : ℕ) : Step → Option Bool
  | ⟨_, _, .exists o v, found⟩ => if o = offerId ∧ v = workerId then some found else none
  | _ => none

/-- The last look for the marker of the pair has found none. -/
def NotFound (offerId workerId : ℕ) (l : Log) : Prop :=
  l.findSome? (looked offerId workerId) = some false

/-- Since the last claim the worker has not been told. -/
def Untold (workerId : ℕ) (l : Log) : Prop := ∀ e ∈ sinceClaim workerId l, ¬Tells workerId e

/-- And the claim has not been released. -/
def Clean (workerId : ℕ) (l : Log) : Prop :=
  ∀ e ∈ sinceClaim workerId l, ¬Tells workerId e ∧ ¬Releases workerId e

/-! ### What the operations keep to -/

variable (cooldownMinutes)

/-- What a process has done when it tells a worker of an offer. -/
def Ready (offerId workerId : ℕ) (l : Log) : Prop :=
  NotFound offerId workerId l ∧ (0 < cooldownMinutes → Clean workerId l)

/-- When process `i` may issue a command, as far as its own steps say. -/
def Pre : Cmd → Log → Prop
  | .send offerId workerId, l => Ready cooldownMinutes offerId workerId l
  | .ring offerId workerId alone, l => alone = true → Ready cooldownMinutes offerId workerId l
  | .release workerId, l => 0 < cooldownMinutes ∧ Untold workerId l
  | .claim _, _ => 0 < cooldownMinutes
  | _, _ => True

/-- What the operations keep to. -/
def contract : Contract (service cooldownMinutes) where
  inv _ := True
  pre i c x := Pre cooldownMinutes c (own x.2 i)
  sound _ _ _ := trivial

/-- From `P` the program leads to `Q`, in all runs. The assertions are about the steps of the
process. -/
abbrev Spec {α : Type} (i : ℕ) (P : Log → Prop) (op : Prog α) (Q : α → Log → Prop)
    (X : Log → Prop := fun _ => True) : Prop :=
  (contract cooldownMinutes).discipline.Triple i (Own i P) op (fun a => Own i (Q a))
    fun _ => Own i X

variable {cooldownMinutes}

theorem call_spec {c : Cmd} {P : Log → Prop} {Q : Resp c → Log → Prop}
    (hpre : ∀ l, P l → Pre cooldownMinutes c l)
    (hstep : ∀ (w w' : World) (ε : Env) (r : Resp c) (l : Log), P l →
      exec cooldownMinutes w ε c = some (w', r) → Q r (⟨i, w, c, r⟩ :: l)) :
    Spec cooldownMinutes i P (issue c) Q P :=
  Contract.triple_own (g := Guard.all) (X := fun _ => P) (fun _ _ h => hpre _ h)
    (fun x ε w r _ h _ hexec => hstep x.1 w ε r _ h hexec) fun _ _ _ h => h

/-- What is promised if the program throws may be forgotten. -/
theorem Spec.forget {α : Type} {P X : Log → Prop} {op : Prog α} {Q : α → Log → Prop}
    (h : Spec cooldownMinutes i P op Q X) : Spec cooldownMinutes i P op Q :=
  h.post_mono (fun _ _ _ h => h) fun _ _ _ _ => trivial

/-- A call that needs nothing and says nothing. -/
theorem free_spec {c : Cmd} (hpre : ∀ l, Pre cooldownMinutes c l) :
    Spec cooldownMinutes i (fun _ => True) (issue c) fun _ _ => True :=
  (call_spec (fun l _ => hpre l) fun _ _ _ _ _ _ _ => trivial).forget

theorem sinceClaim_cons (h : claimed workerId e = none) :
    sinceClaim workerId (e :: l) = e :: sinceClaim workerId l := by
  unfold sinceClaim
  rw [List.takeWhile_cons, h]
  rfl

theorem NotFound.cons (h : NotFound offerId workerId l) (he : looked offerId workerId e = none) :
    NotFound offerId workerId (e :: l) := by
  rwa [NotFound, List.findSome?_cons, he]

theorem Untold.cons (h : Untold workerId l) (hclaim : claimed workerId e = none)
    (htells : ¬Tells workerId e) : Untold workerId (e :: l) := by
  intro z hz
  rw [sinceClaim_cons hclaim] at hz
  rcases List.mem_cons.1 hz with rfl | hz
  · exact htells
  · exact h z hz

theorem Clean.cons (h : Clean workerId l) (hclaim : claimed workerId e = none)
    (htells : ¬Tells workerId e) (hreleases : ¬Releases workerId e) : Clean workerId (e :: l) := by
  intro z hz
  rw [sinceClaim_cons hclaim] at hz
  rcases List.mem_cons.1 hz with rfl | hz
  · exact ⟨htells, hreleases⟩
  · exact h z hz

theorem Clean.untold (h : Clean workerId l) : Untold workerId l := fun z hz => (h z hz).1

/-- A step that looks for nothing, claims, tells and releases nothing. -/
theorem Ready.cons (h : Ready cooldownMinutes offerId workerId l)
    (hlook : looked offerId workerId e = none) (hclaim : claimed workerId e = none)
    (htells : ¬Tells workerId e) (hreleases : ¬Releases workerId e) :
    Ready cooldownMinutes offerId workerId (e :: l) :=
  ⟨h.1.cons hlook, fun hpos => (h.2 hpos).cons hclaim htells hreleases⟩

/-! ### One worker -/

theorem claimCooldown_spec :
    Spec cooldownMinutes i (NotFound offerId workerId) (claimCooldown cooldownMinutes workerId)
      fun granted l => granted = true → Ready cooldownMinutes offerId workerId l := by
  unfold claimCooldown
  split
  · rename_i hpos
    refine (call_spec (c := .claim workerId) (Q := fun granted l => granted = true →
      Ready cooldownMinutes offerId workerId l) (fun _ _ => hpos)
      fun w w' ε r l h _ hgranted => ?_).forget
    subst hgranted
    refine ⟨h.cons rfl, fun _ z hz => ?_⟩
    simp [sinceClaim, claimed] at hz
  · rename_i hzero
    exact .ret fun _ _ h _ => ⟨h, fun hpos => absurd hpos hzero⟩

/-- A send that is not delivered, or throws, leaves the worker untold. -/
theorem sendOrRing_spec {viaWhatsApp : Bool} :
    Spec cooldownMinutes i (Ready cooldownMinutes offerId workerId)
      (sendOrRing offerId workerId viaWhatsApp) fun sent l =>
        (sent = true → viaWhatsApp = false → Ready cooldownMinutes offerId workerId l) ∧
          (sent = false → 0 < cooldownMinutes → Untold workerId l) := by
  unfold sendOrRing
  split
  · rename_i hvia
    refine Discipline.Triple.orElseCatch (call_spec (c := .send offerId workerId)
      (Q := fun sent l => (sent = true → viaWhatsApp = false →
        Ready cooldownMinutes offerId workerId l) ∧
          (sent = false → 0 < cooldownMinutes → Untold workerId l)) (fun _ h => h)
      fun w w' ε r l h _ => ?_) fun _ => .ret fun _ _ h => ?_
    · refine ⟨fun _ hoff => absurd (hoff.symm.trans hvia) (by decide), fun hsent hpos => ?_⟩
      subst hsent
      exact (h.2 hpos).untold.cons rfl (by simp [Tells, toldOf])
    · exact ⟨(fun hsent => nomatch hsent), fun _ hpos => (h.2 hpos).untold⟩
  · exact .ret fun _ _ h => ⟨fun _ _ => h, fun hsent => nomatch hsent⟩

theorem settle_spec {viaWhatsApp : Bool} : Spec cooldownMinutes i
      (fun l => viaWhatsApp = false → Ready cooldownMinutes offerId workerId l)
      (settle job offerId workerId viaWhatsApp) fun _ _ => True := by
  have hplain : ∀ (c : Cmd) (w : World) (r : Resp c) (l : Log),
      (c = .count job .sent ∨ c = .mark offerId workerId) →
      Ready cooldownMinutes offerId workerId l →
        Ready cooldownMinutes offerId workerId (⟨i, w, c, r⟩ :: l) := by
    rintro c w r l (rfl | rfl) h <;>
      exact h.cons rfl rfl (by simp [Tells, toldOf]) nofun
  refine .bind (call_spec (c := .count job .sent)
    (Q := fun _ l => viaWhatsApp = false → Ready cooldownMinutes offerId workerId l)
    (fun _ _ => trivial)
    fun w w' ε r l h _ hoff => hplain _ w r l (.inl rfl) (h hoff)).forget fun _ => ?_
  refine .bind (call_spec (c := .mark offerId workerId)
    (Q := fun _ l => viaWhatsApp = false → Ready cooldownMinutes offerId workerId l)
    (fun _ _ => trivial)
    fun w w' ε r l h _ hoff => hplain _ w r l (.inr rfl) (h hoff)).forget fun _ => ?_
  refine .bind (call_spec (c := .ring offerId workerId !viaWhatsApp) (Q := fun _ _ => True)
    (fun l h halone => h (by simpa using halone)) fun _ _ _ _ _ _ _ => trivial).forget fun _ => ?_
  exact Discipline.Triple.orElseCatch (Y := fun _ => Own i fun _ => True)
    (free_spec (c := .record offerId workerId) fun _ => trivial) fun _ => .ret fun _ _ _ => trivial

theorem giveUp_spec : Spec cooldownMinutes i (fun l => 0 < cooldownMinutes → Untold workerId l)
      (giveUp cooldownMinutes job workerId) fun _ _ => True := by
  refine .bind (call_spec (c := .count job .failed)
    (Q := fun _ l => 0 < cooldownMinutes → Untold workerId l) (fun _ _ => trivial)
    fun w w' ε r l h _ hpos => (h hpos).cons rfl (by simp [Tells, toldOf])).forget fun _ => ?_
  split
  · rename_i hpos
    exact (call_spec (c := .release workerId) (fun l h => ⟨hpos, h hpos⟩)
      fun _ _ _ _ _ _ _ => trivial).forget
  · exact .ret fun _ _ _ => trivial

theorem notifyOne_spec :
    Spec cooldownMinutes i (fun _ => True) (notifyOne cooldownMinutes job offerId workerId)
      fun _ _ => True := by
  refine .bind (call_spec (c := .exists offerId workerId)
    (Q := fun found l => found = false → NotFound offerId workerId l) (fun _ _ => trivial)
    fun w w' ε r l _ _ hfound => ?_).forget fun found => ?_
  · rw [NotFound, List.findSome?_cons, looked, if_pos ⟨rfl, rfl⟩, hfound]
  · dsimp only
    split
    · exact Discipline.Triple.pre_mono
        (free_spec (c := .count job .skippedAlreadySent) fun _ => trivial) fun _ _ _ => trivial
    · rename_i hfound
      refine .bind (Discipline.Triple.pre_mono claimCooldown_spec
        fun _ _ h => h (by simpa using hfound)) fun granted => ?_
      dsimp only
      split
      · rename_i hgranted
        refine .bind (call_spec (c := .allows) (Q := fun _ l =>
          Ready cooldownMinutes offerId workerId l) (fun _ _ => trivial)
          fun w w' ε r l h _ => (h hgranted).cons rfl rfl (by simp [Tells, toldOf]) nofun).forget
            fun viaWhatsApp => ?_
        refine .bind sendOrRing_spec fun sent => ?_
        split
        · rename_i hsent
          exact settle_spec.pre_mono fun _ _ h => h.1 hsent
        · rename_i hsent
          exact giveUp_spec.pre_mono fun _ _ h => h.2 (by simpa using hsent)
      · exact Discipline.Triple.pre_mono
          (free_spec (c := .count job .skippedCooldown) fun _ => trivial) fun _ _ _ => trivial

theorem turns_spec (n : ℕ) :
    Spec cooldownMinutes i (fun _ => True) (turns cooldownMinutes job offerId n)
      fun _ _ => True := by
  induction n with
  | zero => exact .ret fun _ _ _ => trivial
  | succ n ih =>
    refine .bind (free_spec (c := .take job) fun _ => trivial) fun taken => ?_
    cases taken with
    | none => exact .ret fun _ _ _ => trivial
    | some workerId => exact .bind notifyOne_spec fun _ => ih

theorem notifyForOffer_spec :
    Spec cooldownMinutes i (fun _ => True) (notifyForOffer offerId) fun _ _ => True := by
  refine .bind (free_spec (c := .isEnabled) fun _ => trivial) fun enabled => ?_
  split
  · refine .bind (free_spec (c := .findOffer offerId) fun _ => trivial) fun offer => ?_
    cases offer with
    | none => exact .ret fun _ _ _ => trivial
    | some offer =>
      dsimp only
      split
      · refine .bind (free_spec (c := .rank offerId) fun _ => trivial) fun ranked => ?_
        dsimp only
        split
        · exact .ret fun _ _ _ => trivial
        · exact free_spec fun _ => trivial
      · exact .ret fun _ _ _ => trivial
  · exact .ret fun _ _ _ => trivial

/-- Every handler keeps to the contract. -/
theorem handles : (contract cooldownMinutes).Handles := by
  intro r i
  match r with
  | .notify offerId => exact notifyForOffer_spec.pre_mono fun _ _ _ => trivial
  | .runner job n =>
    refine Discipline.Triple.pre_mono (R := Own i fun _ => True) ?_ fun _ _ _ => trivial
    exact .bind (free_spec (c := .join job) fun _ => trivial) fun _ => turns_spec n
  | .pass ms =>
    exact Discipline.Triple.pre_mono (free_spec (c := .pass ms) fun _ => trivial)
      fun _ _ _ => trivial

end Rabotka.Notifying
