import Rabotka.Inbound.Schema

/-!
# Every call keeps the rules

One lemma for each kind of call: the lock is won or given up, a message is handled or marked, the
queue hands out a job or takes it back. Together they make up the contract `discipline` between
the attempts.
-/

namespace Rabotka.Inbound

open Async Expiring List

variable {i k job : ℕ} {messageSid : String} {data : WhatsAppInboundJobData}
  {w v : World} {x y : State} {ε : Env} {h h' : Story}

/-- One thing after the other. -/
theorem Keeps.trans {z : State} (h : Keeps i x y) (h' : Keeps i y z) : Keeps i x z :=
  ⟨h'.1, fun k hk => (h.2 k hk).trans (h'.2 k hk)⟩

/-! ### The lock -/

/-- An attempt wins the lock of a message that nobody is running on and that is not marked. -/
theorem Keeps.win (hx : Inv (w, h)) (hpre : Pre i (.claim (.inFlightKey messageSid) 0) (w, h))
    (hfree : State.isRunning (w, h) messageSid = false)
    (hmark : w.keys (.inboundKey messageSid) = none) :
    Keeps i (w, h) (w, { h with holders := (i, messageSid) :: h.holders }) ∧
      messageSid ∉ h.handled := by
  obtain ⟨-, hdeferred, job, data, hruns, hsid⟩ := hpre
  have hnobody : ∀ k, ¬ State.Running (w, h) k messageSid := by
    intro k hk
    rw [State.isRunning_iff.2 ⟨k, hk⟩] at hfree
    cases hfree
  have hnew : messageSid ∉ h.handled := by
    intro hmem
    rcases hx.marked messageSid hmem with ⟨k, hk⟩ | hsome
    · exact hnobody k (hx.unmarked _ hk)
    · simp [hmark] at hsome
  have hrun : ∀ a s, State.Running (w, { h with holders := (i, messageSid) :: h.holders }) a s →
      a = i ∧ s = messageSid ∨ State.Running (w, h) a s := by
    rintro a s ⟨ha, hda⟩
    rcases mem_cons.1 ha with ha | ha
    · exact .inl (Prod.mk.inj ha)
    · exact .inr ⟨ha, hda⟩
  refine ⟨⟨⟨?_, ?_, ?_, hx.marked, hx.handled, hx.once, hx.pending⟩, fun k hk => ⟨id,
    fun _ h => h, fun _ => ⟨Tagged.of_cons_of_ne hk _ _, rfl, rfl, fun _ _ h => h,
      fun _ _ h => h⟩⟩⟩, hnew⟩
  · intro a b s ha hb
    rcases hrun a s ha with ⟨hai, has⟩ | ha' <;> rcases hrun b s hb with ⟨hbi, hbs⟩ | hb'
    · exact hai.trans hbi.symm
    · exact absurd (has ▸ hb') (hnobody b)
    · exact absurd (hbs ▸ ha') (hnobody a)
    · exact hx.unique a b s ha' hb'
  · intro a s ha
    rcases hrun a s ha with ⟨rfl, rfl⟩ | ha
    · refine ⟨fun hmem => ?_, job, data, hruns, hsid⟩
      have hmem := Tagged.mem_of.2 hmem
      dsimp only at hmem hdeferred
      simp [hdeferred] at hmem
    · exact hx.runs a s ha
  · intro z hz
    have hrunning := hx.unmarked z hz
    exact ⟨mem_cons_of_mem _ hrunning.1, hrunning.2⟩

/-- An attempt gives way to one that is running. -/
theorem Keeps.giveWay (hx : Inv (w, h)) (hpre : Pre i (.claim (.inFlightKey messageSid) 0) (w, h))
    (htaken : State.isRunning (w, h) messageSid) :
    Keeps i (w, h) (w, { h with deferred := (i, messageSid) :: h.deferred }) := by
  obtain ⟨hnone, -⟩ := hpre
  obtain ⟨k, hk⟩ := State.isRunning_iff.1 htaken
  have hholds : ∀ s, ¬ (i, s) ∈ h.holders := by
    intro s hs
    have hmem := Tagged.mem_of.2 hs
    dsimp only at hmem hnone
    simp [hnone] at hmem
  refine ⟨⟨hx.unique, ?_, hx.unmarked, hx.marked, hx.handled, hx.once, ?_⟩, fun a ha => ⟨id,
    fun _ h => h, fun _ => ⟨rfl, rfl, Tagged.of_cons_of_ne ha _ _, fun _ _ h => h, fun _ _ h => h⟩⟩⟩
  · intro a s ha
    obtain ⟨hd, hjob⟩ := hx.runs a s ha
    refine ⟨fun hmem => ?_, hjob⟩
    rcases mem_cons.1 hmem with heq | hmem
    · exact hholds s ((Prod.mk.inj heq).1 ▸ ha.1)
    · exact hd hmem
  · intro j r s hr hs
    -- the witness is the job of the attempt that is running, or the old one
    rcases hx.pending j r s hr hs with hdone | ⟨j', r', hr', hs', hopen, hfresh⟩
    · exact .inl hdone
    refine .inr ?_
    by_cases heq : s = messageSid
    · subst heq
      obtain ⟨hd, p, d, hruns', hd'⟩ := hx.runs k s hk
      refine ⟨p, _, hruns', hd', by simp, fun a ha hmem => ?_⟩
      obtain rfl : k = a := by simpa using ha
      rcases mem_cons.1 hmem with hki | hmem
      · exact hholds s ((Prod.mk.inj hki).1 ▸ hk.1)
      · exact hd hmem
    · refine ⟨j', r', hr', hs', hopen, fun a ha hmem => ?_⟩
      rcases mem_cons.1 hmem with hmem | hmem
      · exact heq (Prod.mk.inj hmem).2
      · exact hfresh a ha hmem

/-- Fewer holders: whoever has not marked what it has handled is still one of them. -/
theorem Keeps.dropHolders {l : List (ℕ × String)} (hx : Inv (w, h))
    (hpre : Tagged.of h.unmarked i = []) (hsub : ∀ z ∈ l, z ∈ h.holders)
    (hkeep : ∀ z ∈ h.holders, z.1 ≠ i → z ∈ l)
    (hof : ∀ k, k ≠ i → Tagged.of l k = Tagged.of h.holders k) :
    Keeps i (w, h) (w, { h with holders := l }) := by
  refine ⟨⟨fun a b s ha hb => hx.unique a b s ⟨hsub _ ha.1, ha.2⟩ ⟨hsub _ hb.1, hb.2⟩,
    fun a s ha => hx.runs a s ⟨hsub _ ha.1, ha.2⟩, ?_, hx.marked, hx.handled, hx.once,
    hx.pending⟩, fun k hk => ⟨id, fun _ h => h, fun _ => ⟨hof k hk, rfl, rfl,
      fun _ _ h => h, fun _ _ h => h⟩⟩⟩
  intro z hz
  have hrunning := hx.unmarked z hz
  refine ⟨hkeep z hrunning.1 fun heq => ?_, hrunning.2⟩
  have hmem : z.2 ∈ Tagged.of h.unmarked i := Tagged.mem_of.2 (heq ▸ hz)
  simp [hpre] at hmem

/-! ### Handling -/

/-- The holder of messages that were not handled yet has handled them. -/
theorem Keeps.finish {sids : List String} (hx : Inv (w, h)) (halive : i ∉ w.dead)
    (hheld : ∀ s ∈ sids, s ∈ Tagged.of h.holders i) (hnew : ∀ s ∈ sids, s ∉ h.handled)
    (hnodup : sids.Nodup) : Keeps i (w, h) (w, h.finish i sids) := by
  have hrunning : ∀ s ∈ sids, State.Running (w, h) i s :=
    fun s hs => ⟨Tagged.mem_of.1 (hheld s hs), halive⟩
  refine ⟨⟨hx.unique, hx.runs, ?_, ?_, ?_, ?_, ?_⟩, fun k hk => ⟨id,
    fun s hs => mem_append_right _ hs, fun hkd =>
      ⟨rfl, Tagged.of_map_append_of_ne hk _ _, rfl, fun _ _ h => h, fun s hs hfresh hmem => ?_⟩⟩⟩
  · intro z hz
    rcases mem_append.1 hz with hz | hz
    · obtain ⟨s, hs, rfl⟩ := mem_map.1 hz
      exact hrunning s hs
    · exact hx.unmarked z hz
  · intro s hs
    rcases mem_append.1 hs with hs | hs
    · exact .inl ⟨i, mem_append_left _ (mem_map_of_mem hs)⟩
    · rcases hx.marked s hs with ⟨a, ha⟩ | hsome
      · exact .inl ⟨a, mem_append_right _ ha⟩
      · exact .inr hsome
  · exact fun s hs => mem_append_right _ (hx.handled s hs)
  · exact nodup_append.2 ⟨hnodup, hx.once, fun a ha b hb heq => hnew a ha (heq ▸ hb)⟩
  · intro j r s hr hs
    exact (hx.pending j r s hr hs).imp_left fun hdone => mem_append_right _ hdone
  · rcases mem_append.1 hmem with hmem | hmem
    · exact hk (hx.unique k i s ⟨Tagged.mem_of.1 hs, hkd⟩ (hrunning s hmem))
    · exact hfresh hmem

/-- The attempt marks what it has handled. -/
theorem Keeps.mark (hx : Inv (w, h)) (hhandled : messageSid ∈ h.handled)
    (hown : ∀ s ∈ Tagged.of h.unmarked i, s = messageSid) (hdead : v.dead = w.dead)
    (hjobs : v.jobs = w.jobs) (hset : (v.keys (.inboundKey messageSid)).isSome)
    (hkeys : ∀ s, s ≠ messageSid → v.keys (.inboundKey s) = w.keys (.inboundKey s)) :
    Keeps i (w, h) (v, { h with unmarked := Tagged.drop h.unmarked i }) := by
  obtain ⟨now, keys, jobs, outbound, dead⟩ := w
  obtain ⟨now', keys', jobs', outbound', dead'⟩ := v
  dsimp only at hdead hjobs hset hkeys
  subst hdead hjobs
  refine ⟨⟨hx.unique, hx.runs, fun z hz => hx.unmarked z (mem_filter.1 hz).1, ?_, ?_,
    hx.once, hx.pending⟩, fun k hk => ⟨id, fun _ h => h, fun _ => ⟨rfl,
      Tagged.of_drop_of_ne hk _, rfl, fun _ _ h => h, fun _ _ h => h⟩⟩⟩
  · intro s hs
    by_cases heq : s = messageSid
    · exact .inr (heq ▸ hset)
    rcases hx.marked s hs with ⟨a, ha⟩ | hsome
    · refine .inl ⟨a, mem_filter.2 ⟨ha, decide_eq_true fun hai => heq (hown s ?_)⟩⟩
      exact Tagged.mem_of.2 (hai ▸ ha)
    · exact .inr ((congrArg Option.isSome (hkeys s heq)).trans hsome)
  · intro s hs
    by_cases heq : s = messageSid
    · exact heq ▸ hhandled
    · dsimp only at hs
      rw [hkeys s heq] at hs
      exact hx.handled s hs

/-! ### The queue -/

/-- The queue puts a job into another state. The job keeps its message, and where the job was
all that is left of it, it is still waiting or the message is handled. -/
theorem Keeps.requeue {f : Job → Job} (hx : Inv (w, h)) (hdata : ∀ r, (f r).data = r.data)
    (hholders : ∀ s, (i, s) ∉ h.holders)
    (hother : ∀ r, w.jobs[job]? = some r → ∀ k, k ≠ i → r.status = .active k → f r = r)
    (hopen : ∀ r s, w.jobs[job]? = some r → r.data.messageSid = some s → s ∉ h.handled →
      (∀ k, r.status = .active k → (k, s) ∉ h.deferred) → r.status ≠ .completed →
      (f r).status ≠ .completed ∧ ∀ k, (f r).status = .active k → (k, s) ∉ h.deferred) :
    Keeps i (w, h) ({ w with jobs := Table.update w.jobs job f }, h) := by
  have hrow : ∀ (j : ℕ) (r : Job), (Table.update w.jobs job f)[j]? = some r →
      ∃ q, w.jobs[j]? = some q ∧ q.data = r.data ∧ (j = job ∧ r = f q ∨ j ≠ job ∧ r = q) := by
    intro j r hr
    rw [Table.getElem?_update] at hr
    obtain ⟨q, hq, rfl⟩ := Option.map_eq_some_iff.1 hr
    rcases eq_or_ne j job with rfl | hj
    · exact ⟨q, hq, by simp [hdata], .inl ⟨rfl, by simp⟩⟩
    · have hjob : ¬ job = j := fun h => hj h.symm
      exact ⟨q, hq, by simp [hjob], .inr ⟨hj, by simp [hjob]⟩⟩
  have hruns : ∀ k, k ≠ i → ∀ j d, Runs k j d w →
      Runs k j d { w with jobs := Table.update w.jobs job f } :=
    fun k hk j d hd => Runs.update hd fun r hr hstatus => hother r hr k hk hstatus
  refine ⟨⟨hx.unique, ?_, hx.unmarked, hx.marked, hx.handled, hx.once, ?_⟩, fun k hk => ⟨id,
    fun _ h => h, fun _ => ⟨rfl, rfl, rfl, hruns k hk, fun _ _ h => h⟩⟩⟩
  · intro a s ha
    obtain ⟨hd, p, d, hp, hs⟩ := hx.runs a s ha
    refine ⟨hd, p, d, hruns a (fun heq => ?_) p d hp, hs⟩
    exact hholders s (heq ▸ ha.1)
  · intro j r s hr hs
    obtain ⟨q, hq, hqd, -⟩ := hrow j r hr
    by_cases hdone : s ∈ h.handled
    · exact .inl hdone
    obtain ⟨j', r', hr', hs', hopen', hfresh⟩ :=
      (hx.pending j q s hq (hqd.symm ▸ hs)).resolve_left hdone
    refine .inr ?_
    rcases eq_or_ne j' job with rfl | hj
    · obtain ⟨hstill, hnew⟩ := hopen r' s hr' hs' hdone hfresh hopen'
      refine ⟨j', f r', ?_, (hdata r').symm ▸ hs', hstill, hnew⟩
      dsimp only
      rw [Table.getElem?_update, hr']
      simp
    · have hjob : ¬ job = j' := fun h => hj h.symm
      refine ⟨j', r', ?_, hs', hopen', hfresh⟩
      dsimp only
      rw [Table.getElem?_update, hr']
      simp [hjob]

/-- Whether an attempt gave way does not matter once it is over. -/
theorem Keeps.dropDeferred (hx : Inv (w, h)) :
    Keeps i (w, h) (w, { h with deferred := Tagged.drop h.deferred i }) := by
  have hsub : ∀ z ∈ Tagged.drop h.deferred i, z ∈ h.deferred :=
    fun z hz => (mem_filter.1 hz).1
  refine ⟨⟨hx.unique, fun a s ha => ?_, hx.unmarked, hx.marked, hx.handled, hx.once,
    fun j r s hr hs => ?_⟩, fun k hk => ⟨id, fun _ h => h, fun _ => ⟨rfl, rfl,
      Tagged.of_drop_of_ne hk _, fun _ _ h => h, fun _ _ h => h⟩⟩⟩
  · exact (hx.runs a s ha).imp_left fun hd hmem => hd (hsub _ hmem)
  · rcases hx.pending j r s hr hs with hdone | ⟨j', r', hr', hs', hopen, hfresh⟩
    · exact .inl hdone
    · exact .inr ⟨j', r', hr', hs', hopen, fun a ha hmem => hfresh a ha (hsub _ hmem)⟩

/-- The end of an attempt, or its start, takes it off the list of holders. -/
theorem Keeps.dropMine (hx : Inv (w, h)) (hpre : Tagged.of h.unmarked i = []) :
    Keeps i (w, h) (w, { h with holders := Tagged.drop h.holders i }) :=
  .dropHolders hx hpre (fun _ hz => (mem_filter.1 hz).1)
    (fun _ hz hne => mem_filter.2 ⟨hz, decide_eq_true hne⟩)
    fun _ hk => Tagged.of_drop_of_ne hk _

theorem not_mem_drop {l : List (ℕ × String)} (s : String) : (i, s) ∉ Tagged.drop l i := by
  simp [Tagged.drop]

/-- The queue hands out a job. -/
theorem Keeps.take (hx : Inv (w, h)) (hpre : Tagged.of h.unmarked i = []) {r : Job}
    (hr : w.jobs[job]? = some r) (hstatus : r.status = .waiting) :
    Keeps i (w, h) (w.setStatus job (.active i), h.leave i) := by
  have hholders := Keeps.dropMine hx hpre
  have hdeferred := Keeps.dropDeferred (i := i) hholders.1
  refine (hholders.trans hdeferred).trans (.requeue hdeferred.1 (fun _ => rfl)
    (fun s => not_mem_drop s) (fun q hq k _ hk => ?_) fun q s _ _ _ _ _ => ⟨by simp, ?_⟩)
  · obtain rfl := Option.some.inj (hr.symm.trans hq)
    rw [hstatus] at hk
    cases hk
  · intro k hk
    obtain rfl : i = k := by simpa using hk
    exact not_mem_drop s

/-- An attempt hands its job back. -/
theorem Keeps.handBack {status : JobStatus} (hx : Inv (w, h))
    (hpre : Tagged.of h.unmarked i = []) (hruns : Runs i job data w)
    (hstatus : ∀ k, status ≠ .active k)
    (hdone : status = .completed → ∀ s, data.messageSid = some s →
      s ∈ h.handled ∨ s ∈ Tagged.of h.deferred i) :
    Keeps i (w, h) (w.setStatus job status, h.leave i) := by
  have hholders := Keeps.dropMine hx hpre
  have hqueue : Keeps i (w, { h with holders := Tagged.drop h.holders i })
      (w.setStatus job status, { h with holders := Tagged.drop h.holders i }) := by
    refine .requeue hholders.1 (fun _ => rfl) (fun s => not_mem_drop s)
      (fun q hq k hk hactive => ?_) fun q s hq hs hnew hfresh hopen => ⟨?_, ?_⟩
    · obtain rfl := Option.some.inj (hruns.symm.trans hq)
      exact absurd (by simpa using hactive) (Ne.symm hk)
    · obtain rfl := Option.some.inj (hruns.symm.trans hq)
      intro hcompleted
      rcases hdone hcompleted s hs with hmem | hmem
      · exact hnew hmem
      · exact hfresh i rfl (Tagged.mem_of.1 hmem)
    · exact fun k hk => absurd hk (hstatus k)
  exact (hholders.trans hqueue).trans (.dropDeferred hqueue.1)

/-- A worker dies, and the queue takes back its job. -/
theorem Keeps.die {attempt : ℕ} (hx : Inv (w, h)) (hguard : Tagged.of h.unmarked attempt = []) :
    Keeps i (w, h) (w.kill attempt, h) := by
  have hrow : ∀ j : ℕ, (w.kill attempt).jobs[j]? = (w.jobs[j]?).map fun r : Job =>
      if r.status = .active attempt then { r with status := .waiting } else r := by
    intro j
    simp only [World.kill, Table.getElem?_updateMany, decide_eq_true_eq]
  have hrun : ∀ a s, State.Running (w.kill attempt, h) a s →
      a ≠ attempt ∧ State.Running (w, h) a s := by
    rintro a s ⟨ha, hd⟩
    simp only [World.kill, mem_cons, not_or] at hd
    exact ⟨hd.1, ha, hd.2⟩
  have hruns : ∀ k, k ≠ attempt → ∀ j d, Runs k j d w → Runs k j d (w.kill attempt) := by
    intro k hk j d hd
    unfold Runs at hd ⊢
    rw [hrow, hd]
    simp [hk]
  refine ⟨⟨?_, ?_, ?_, hx.marked, hx.handled, hx.once, ?_⟩, fun k hk => ⟨mem_cons_of_mem _,
    fun _ h => h, fun hd => ⟨rfl, rfl, rfl, hruns k ?_, fun _ _ h => h⟩⟩⟩
  · exact fun a b s ha hb => hx.unique a b s (hrun a s ha).2 (hrun b s hb).2
  · intro a s ha
    obtain ⟨hne, hrunning⟩ := hrun a s ha
    obtain ⟨hd, p, d, hp, hs⟩ := hx.runs a s hrunning
    exact ⟨hd, p, d, hruns a hne p d hp, hs⟩
  · intro z hz
    have hrunning := hx.unmarked z hz
    refine ⟨hrunning.1, fun hmem => ?_⟩
    rcases mem_cons.1 hmem with heq | hmem
    · have hown : z.2 ∈ Tagged.of h.unmarked attempt := Tagged.mem_of.2 (heq ▸ hz)
      simp [hguard] at hown
    · exact hrunning.2 hmem
  · intro j r s hr hs
    rw [hrow] at hr
    obtain ⟨q, hq, rfl⟩ := Option.map_eq_some_iff.1 hr
    have hqs : q.data.messageSid = some s := by split at hs <;> exact hs
    rcases hx.pending j q s hq hqs with hdone | ⟨j', r', hr', hs', hopen, hfresh⟩
    · exact .inl hdone
    refine .inr ⟨j', _, (hrow j').trans (congrArg _ hr'), ?_, ?_, ?_⟩
    · dsimp only
      split <;> exact hs'
    · dsimp only
      split
      · simp
      · exact hopen
    · dsimp only
      split
      · intro a ha
        cases ha
      · exact hfresh
  · simp only [World.kill, mem_cons, not_or] at hd
    exact hd.1

/-- A webhook brings a job. -/
theorem Keeps.enqueue (hx : Inv (w, h)) :
    Keeps i (w, h) ({ w with jobs := w.jobs ++ [⟨data, .waiting⟩] }, h) := by
  have hrow : ∀ (j : ℕ) (r : Job), w.jobs[j]? = some r →
      (w.jobs ++ [(⟨data, .waiting⟩ : Job)])[j]? = some r := fun j r hr => by
    rw [getElem?_append_left (List.getElem?_eq_some_iff.1 hr).1]
    exact hr
  refine ⟨⟨hx.unique, ?_, hx.unmarked, hx.marked, hx.handled, hx.once, ?_⟩, fun k hk => ⟨id,
    fun _ h => h, fun _ => ⟨rfl, rfl, rfl, fun j d hd => hrow j _ hd, fun _ _ h => h⟩⟩⟩
  · intro a s ha
    obtain ⟨hd, p, d, hp, hs⟩ := hx.runs a s ha
    exact ⟨hd, p, d, hrow p _ hp, hs⟩
  · intro j r s hr hs
    rcases Table.getElem?_concat_eq_some.1 hr with hold | ⟨rfl, rfl⟩
    · rcases hx.pending j r s hold hs with hdone | ⟨j', r', hr', hrest⟩
      · exact .inl hdone
      · exact .inr ⟨j', r', hrow j' r' hr', hrest⟩
    · refine .inr ⟨_, _, hr, hs, by simp, fun a ha => ?_⟩
      cases ha

/-! ### Every call -/

/-- Locks and markers are different keys. -/
theorem put_lock (keys : Keys Key Unit) (s s' : String) (t : Option ℕ) :
    keys.put (.inFlightKey s) () t (.inboundKey s') = keys (.inboundKey s') :=
  Keys.put_of_ne (fun h => by cases h) _ _ _

theorem del_lock (keys : Keys Key Unit) (s s' : String) :
    keys.del (.inFlightKey s) (.inboundKey s') = keys (.inboundKey s') :=
  Keys.del_of_ne (fun h => by cases h) _

/-- **Step lemma.** A call under its precondition keeps the invariant and spares the others. -/
theorem step_spec {c : Cmd} {a : Resp c} (hx : Inv x) (hpre : i ∉ x.1.dead → Pre i c x)
    (hguard : orderly x (.step i c ε)) (hexec : tracked.exec x i c ε = some (y, a)) :
    Keeps i x y := by
  obtain ⟨hcall, hstory⟩ := Service.withHistory_exec.1 hexec
  clear hexec
  have hexec : exec x.1 i ε c = some (y.1, a) := hcall
  clear hcall
  unfold exec at hexec
  split at hexec
  · cases hexec
  rename_i halive
  have hpre := hpre halive
  obtain ⟨w, h⟩ := x
  obtain ⟨v, h'⟩ := y
  dsimp only at hexec hstory halive
  subst hstory
  cases c with
  | has key =>
    obtain ⟨rfl, -⟩ := pair_inj hexec
    exact .refl hx i
  | claim key ttlSeconds =>
    cases key with
    | inFlightKey messageSid =>
      dsimp only at hexec
      split at hexec
      · rename_i htaken
        obtain ⟨rfl, rfl⟩ := pair_inj hexec
        have hrunning : State.isRunning (w, h) messageSid := by
          simpa only [orderly, htaken, if_true] using hguard
        exact .giveWay hx hpre hrunning
      · rename_i hfree
        obtain ⟨rfl, rfl⟩ := pair_inj hexec
        have hwin : State.isRunning (w, h) messageSid = false ∧
            w.keys (.inboundKey messageSid) = none := by
          simpa [orderly, hfree] using hguard
        have hkeeps := (Keeps.win hx hpre hwin.1 hwin.2).1
        refine hkeeps.trans (.of_same hkeeps.1 rfl rfl rfl fun s => ?_)
        exact congrArg Option.isSome (put_lock w.keys messageSid s (some (w.now + ttlSeconds)))
    | inboundKey messageSid =>
      obtain ⟨hhandled, hown⟩ := hpre
      dsimp only at hexec
      split at hexec
      · rename_i hset
        obtain ⟨rfl, -⟩ := pair_inj hexec
        refine .mark hx hhandled hown rfl rfl ?_ fun _ _ => rfl
        obtain ⟨u, hu⟩ := Option.isSome_iff_exists.1 hset
        obtain ⟨e, he, -⟩ := Keys.get_eq_some.1 hu
        simp [he]
      · obtain ⟨rfl, -⟩ := pair_inj hexec
        exact .mark hx hhandled hown rfl rfl (by simp) fun s hs =>
          Keys.put_of_ne (by simpa using hs) _ _ _
  | release key =>
    cases key with
    | inboundKey messageSid => exact absurd hpre id
    | inFlightKey messageSid =>
      obtain ⟨rfl, -⟩ := pair_inj hexec
      have hkeeps : Keeps i (w, h)
          (w, { h with holders := h.holders.filter fun z => z ≠ (i, messageSid) }) := by
        refine .dropHolders hx hpre (fun z hz => (mem_filter.1 hz).1) (fun z hz hne => ?_)
          fun k hk => Tagged.of_filter_ne_of_ne hk _ _
        exact mem_filter.2 ⟨hz, decide_eq_true fun heq => hne (congrArg Prod.fst heq)⟩
      refine hkeeps.trans (.of_same hkeeps.1 rfl rfl rfl fun s => ?_)
      exact congrArg Option.isSome (del_lock w.keys messageSid s)
  | handleIncomingMessage phone text =>
    obtain ⟨rfl, rfl⟩ := pair_inj hexec
    simp only [record]
    split
    · exact .finish hx halive (fun _ h => h) hpre.2 hpre.1
    · exact .refl hx i
  | addJob o =>
    obtain ⟨rfl, -⟩ := pair_inj hexec
    have hkeeps : Keeps i (w, h) (w, h.finish i o.replyToMessageId.toList) := by
      refine .finish hx halive (fun s hs => (hpre s ?_).1) (fun s hs => (hpre s ?_).2) ?_
      · simpa using hs
      · simpa using hs
      · cases o.replyToMessageId <;> simp
    exact hkeeps.trans (.of_same hkeeps.1 rfl rfl rfl fun _ => rfl)
  | take job =>
    dsimp only at hexec
    split at hexec
    · rename_i r hr
      split at hexec
      · rename_i hstatus
        obtain ⟨rfl, -⟩ := pair_inj hexec
        exact .take hx hpre hr hstatus
      · cases hexec
    · cases hexec
  | complete job =>
    obtain ⟨rfl, -⟩ := pair_inj hexec
    obtain ⟨hnone, data, hruns, hdone⟩ := hpre
    exact .handBack hx hnone hruns (by simp) fun _ => hdone
  | fail job =>
    obtain ⟨rfl, -⟩ := pair_inj hexec
    obtain ⟨hnone, data, hruns⟩ := hpre
    exact .handBack hx hnone hruns (by simp) fun h => by cases h
  | enqueue data =>
    obtain ⟨rfl, -⟩ := pair_inj hexec
    exact .enqueue hx
  | elapse seconds =>
    obtain ⟨rfl, -⟩ := pair_inj hexec
    exact .of_same hx rfl rfl rfl fun _ => rfl
  | die attempt =>
    obtain ⟨rfl, -⟩ := pair_inj hexec
    exact .die hx (List.isEmpty_iff.1 hguard)

/-- The contract between the attempts. -/
def discipline : Discipline tracked where
  guard := orderly
  inv := Inv
  pre i c x := i ∉ x.1.dead → Pre i c x
  rely := Rely
  idle i x := i ∈ x.1.dead ∨ Tagged.of x.2.unmarked i = []
  rely_refl := Rely.refl
  rely_trans := Rely.trans
  idle_rely {i x y} h hidle := by
    by_cases hd : i ∈ y.1.dead
    · exact .inl hd
    · refine .inr ((h.spares hd).unmarked.trans (hidle.resolve_left fun hx => hd (h.dead hx)))
  sound := step_spec

end Rabotka.Inbound
