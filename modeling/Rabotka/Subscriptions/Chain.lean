import Rabotka.Lib.Timeline
import Rabotka.Subscriptions.Writes

/-!
# The periods of a business form a chain

`Sound` is the invariant of the periods of one business at one instant: those still to end are a
chain, and a trial among them is the only one. Each branch of each operation is one of the ways to
change a chain: a purchase appends, an upgrade or a start-now splices, a cancellation drops the
tail, and time passing or the sweep drop what has ended.
-/

namespace Rabotka.Subscriptions

open Timeline

/-- A period of the business `b` that runs or is queued, and ends after `now`. -/
abbrev Live (b : ℕ) (now : ℤ) (r : Subscription) : Prop :=
  r.businessId = b ∧ r.status.isRunning ∧ now < r.endsAt

/-- The periods of a business that are still to end. -/
def periods (rows : List Subscription) (b : ℕ) (now : ℤ) (i : ℕ) : Option (ℤ × ℤ) :=
  (rows[i]?).bind fun r => if Live b now r then some (r.startsAt, r.endsAt) else none

theorem periods_eq_some {rows : List Subscription} {b i : ℕ} {now s e : ℤ} :
    periods rows b now i = some (s, e) ↔
      ∃ r, rows[i]? = some r ∧ Live b now r ∧ r.startsAt = s ∧ r.endsAt = e := by
  simp only [periods, Option.bind_eq_some_iff, Option.ite_none_right_eq_some, Option.some.injEq,
    Prod.mk.injEq]

/-- The invariant of the periods of the business `b`. -/
structure Sound (rows : List Subscription) (b : ℕ) (now : ℤ) : Prop where
  chain : Chain now (periods rows b now)
  trial : ∀ {i r}, rows[i]? = some r → r.businessId = b → r.status = .trial → now < r.endsAt →
    ∀ {j p}, periods rows b now j = some p → j = i

/-- No trial of the business `b` is still to end. -/
def NoTrial (rows : List Subscription) (b : ℕ) (now : ℤ) : Prop :=
  ∀ (i : ℕ) (r : Subscription), rows[i]? = some r → r.businessId = b → r.status = .trial →
    r.endsAt ≤ now

variable {rows rows' : List Subscription} {b : ℕ} {now : ℤ} {db db' : Db}

theorem Sound.of_noTrial (hchain : Chain now (periods rows b now)) (htrial : NoTrial rows b now) :
    Sound rows b now where
  chain := hchain
  trial hr hb hstatus hnow := absurd (htrial _ _ hr hb hstatus) (not_le_of_gt hnow)

theorem Sound.later {t : ℤ} (h : Sound rows b now) (ht : now ≤ t) : Sound rows b t where
  chain := by
    refine h.chain.later ht fun i s e => ?_
    rw [periods_eq_some, periods_eq_some]
    constructor
    · rintro ⟨r, hr, ⟨hb, hrunning, hend⟩, rfl, rfl⟩
      exact ⟨⟨r, hr, ⟨hb, hrunning, ht.trans_lt hend⟩, rfl, rfl⟩, hend⟩
    · rintro ⟨⟨r, hr, ⟨hb, hrunning, -⟩, rfl, rfl⟩, hend⟩
      exact ⟨r, hr, ⟨hb, hrunning, hend⟩, rfl, rfl⟩
  trial {i r} hr hb hstatus hend {j p} hj := by
    obtain ⟨s, e⟩ := p
    obtain ⟨q, hq, ⟨hqb, hrunning, hqend⟩, -, -⟩ := periods_eq_some.1 hj
    exact h.trial hr hb hstatus (ht.trans_lt hend)
      (periods_eq_some.2 ⟨q, hq, ⟨hqb, hrunning, ht.trans_lt hqend⟩, rfl, rfl⟩)

/-! ### The other businesses -/

/-- The two tables have the same rows of the business `b`. -/
def SameFor (b : ℕ) (rows rows' : List Subscription) : Prop :=
  ∀ (i : ℕ) (r : Subscription), r.businessId = b → (rows'[i]? = some r ↔ rows[i]? = some r)

theorem SameFor.trans {rows'' : List Subscription} (h : SameFor b rows rows')
    (h' : SameFor b rows' rows'') : SameFor b rows rows'' :=
  fun i r hr => (h' i r hr).trans (h i r hr)

theorem SameFor.sound (h : SameFor b rows rows') (hs : Sound rows b now) : Sound rows' b now := by
  have hperiods : periods rows' b now = periods rows b now := by
    funext i
    refine Option.ext fun p => ?_
    obtain ⟨s, e⟩ := p
    rw [periods_eq_some, periods_eq_some]
    constructor
    · rintro ⟨r, hr, ⟨hb, hrest⟩, heq⟩
      exact ⟨r, (h i r hb).1 hr, ⟨hb, hrest⟩, heq⟩
    · rintro ⟨r, hr, ⟨hb, hrest⟩, heq⟩
      exact ⟨r, (h i r hb).2 hr, ⟨hb, hrest⟩, heq⟩
  refine ⟨hperiods ▸ hs.chain, fun {i r} hr hb hstatus hend {j p} hj => ?_⟩
  rw [hperiods] at hj
  exact hs.trial ((h i r hb).1 hr) hb hstatus hend hj

variable {g : ℕ → Subscription → Subscription}

/-- A write that touches no row of the business. -/
theorem Rewrites.sameFor (h : Rewrites g db db')
    (hbusiness : ∀ i r, (g i r).businessId = r.businessId)
    (hg : ∀ i r, db.subscriptions[i]? = some r → r.businessId = b → g i r = r) :
    SameFor b db.subscriptions db'.subscriptions := by
  intro i r hr
  rw [h.row]
  constructor
  · intro hmap
    obtain ⟨q, hq, rfl⟩ := Option.map_eq_some_iff.1 hmap
    rw [hbusiness] at hr
    rw [hq, hg i q hq hr]
  · intro hi
    rw [hi, Option.map_some, hg i r hi hr]

variable {r : Subscription}

theorem sameFor_append (hr : r.businessId ≠ b) : SameFor b rows (rows ++ [r]) := by
  intro i q hq
  constructor
  · intro hi
    rcases lt_trichotomy i rows.length with hlt | rfl | hgt
    · rwa [List.getElem?_append_left hlt] at hi
    · obtain rfl : r = q := by simpa using hi
      exact (hr hq).elim
    · rw [List.getElem?_eq_none (by simp; omega)] at hi
      cases hi
  · intro hi
    rw [List.getElem?_append_left (List.getElem?_eq_some_iff.1 hi).1]
    exact hi

/-! ### Appending a row -/

/-- The periods with one more row. -/
theorem periods_append (hr : r.businessId = b ∧ r.status.isRunning)
    (hend : now < r.endsAt) (i : ℕ) :
    periods (rows ++ [r]) b now i =
      if i = rows.length then some (r.startsAt, r.endsAt) else periods rows b now i := by
  unfold periods
  rcases lt_trichotomy i rows.length with hlt | rfl | hgt
  · rw [List.getElem?_append_left hlt, if_neg hlt.ne]
  · simp [hr.1, hr.2, hend]
  · have hnone : (rows ++ [r])[i]? = none := List.getElem?_eq_none (by simp; omega)
    have hnone' : rows[i]? = none := List.getElem?_eq_none (by omega)
    rw [hnone, hnone', if_neg (by omega)]

theorem noTrial_append (h : NoTrial rows b now) (hr : r.status ≠ .trial) :
    NoTrial (rows ++ [r]) b now := by
  intro i q hi hb hstatus
  rcases lt_trichotomy i rows.length with hlt | rfl | hgt
  · rw [List.getElem?_append_left hlt] at hi
    exact h i q hi hb hstatus
  · obtain rfl : r = q := by simpa using hi
    exact (hr hstatus).elim
  · rw [List.getElem?_eq_none (by simp; omega)] at hi
    cases hi

theorem periods_length (rows : List Subscription) (b : ℕ) (now : ℤ) :
    periods rows b now rows.length = none := by
  simp [periods]

/-! ### Creating a period -/

/-- Cancelling the trial leaves a chain without trials. -/
theorem cancelTrial_sound (hchecked : Checked db.subscriptions)
    (hs : Sound db.subscriptions b now) (h : cancelTrial db b now = .ok db') :
    Checked db'.subscriptions ∧ Chain now (periods db'.subscriptions b now) ∧
      NoTrial db'.subscriptions b now ∧ db'.plans = db.plans := by
  unfold cancelTrial at h
  split at h
  · rename_i hnone
    obtain rfl := Except.ok.inj h
    refine ⟨hchecked, hs.chain, fun i r hr hb hstatus => ?_, rfl⟩
    have hmatch := find_none hnone hr
    simpa [hb, hstatus] using hmatch
  · rename_i id trial hfound
    obtain ⟨hrow, hmatch, -⟩ := find_head hfound
    simp only [Bool.decide_and, Bool.and_eq_true, decide_eq_true_eq] at hmatch
    have hwrite := rewrites_update h
    have hnone : ∀ i s e, periods db'.subscriptions b now i ≠ some (s, e) := by
      intro i s e hi
      obtain ⟨r, hr, ⟨hb, hrunning, hend⟩, -, -⟩ := periods_eq_some.1 hi
      rw [hwrite.row] at hr
      obtain ⟨q, hq, rfl⟩ := Option.map_eq_some_iff.1 hr
      rcases eq_or_ne id i with rfl | hne
      · simp [SubscriptionStatus.isRunning] at hrunning
      · rw [if_neg hne] at hb hrunning hend
        exact hne (hs.trial hrow hmatch.1 hmatch.2.1 hmatch.2.2
          (periods_eq_some.2 ⟨q, hq, ⟨hb, hrunning, hend⟩, rfl, rfl⟩)).symm
    refine ⟨hwrite.checked, .empty fun i => ?_, fun i r hr hb hstatus => ?_, hwrite.plans⟩
    · refine Option.eq_none_iff_forall_ne_some.2 fun p => ?_
      exact hnone i p.1 p.2
    · by_contra hend
      exact hnone i r.startsAt r.endsAt (periods_eq_some.2
        ⟨r, hr, ⟨hb, by rw [hstatus]; rfl, not_le.1 hend⟩, rfl, rfl⟩)

/-- What is left of the periods when those from `cut` on move and the earlier ones end. -/
theorem periods_spliced {cut shift : ℤ} {k : ℕ}
    (h : Rewrites g db db') (hchecked : Checked db.subscriptions) (hnow : now < cut + shift)
    (hg : ∀ i r, i ≠ k → db.subscriptions[i]? = some r →
      (Live b now r ∧ cut ≤ r.startsAt ∧ g i r = r.move shift) ∨
        ((Live b now r → r.startsAt < cut) ∧ ¬ Live b now (g i r))) {i : ℕ} (hi : i ≠ k) :
    periods db'.subscriptions b now i =
      (periods db.subscriptions b now i).bind (moved cut shift) := by
  unfold periods
  rw [h.row]
  cases hr : db.subscriptions[i]? with
  | none => rfl
  | some r =>
    rw [Option.map_some, Option.bind_some, Option.bind_some]
    rcases hg i r hi hr with ⟨hlive, hcut, hmove⟩ | ⟨hbefore, hdead⟩
    · have hlater : now < r.endsAt + shift := by
        have hlasts := hchecked.get hr
        omega
      rw [hmove, if_pos hlive, if_pos ⟨hlive.1, hlive.2.1, hlater⟩, Option.bind_some, moved,
        if_pos hcut]
      rfl
    · rw [if_neg hdead]
      split_ifs with hlive
      · have hlt : r.startsAt < cut := hbefore hlive
        rw [Option.bind_some, moved, if_neg (not_le_of_gt hlt)]
      · rfl

/-- A period of `b` that counts is a trial still to end or a paid one. -/
theorem NoTrial.active (h : NoTrial rows b now) {i : ℕ}
    (hr : rows[i]? = some r) (hlive : Live b now r) : r.status = .active := by
  cases hstatus : r.status with
  | trial => exact absurd (h i r hr hlive.1 hstatus) (not_le_of_gt hlive.2.2)
  | active => rfl
  | expired | cancelled =>
    have hrunning := hlive.2.1
    rw [hstatus] at hrunning
    cases hrunning

theorem NoTrial.rewrites (h : NoTrial db.subscriptions b now) (hw : Rewrites g db db')
    (hg : ∀ i r, db.subscriptions[i]? = some r → (g i r).status = .trial → g i r = r) :
    NoTrial db'.subscriptions b now := by
  intro i r hr hb hstatus
  rw [hw.row] at hr
  obtain ⟨q, hq, rfl⟩ := Option.map_eq_some_iff.1 hr
  have hsame := hg i q hq hstatus
  rw [hsame] at hb hstatus ⊢
  exact h i q hq hb hstatus

variable {period : BillingPeriod}

/-- **An upgrade or a start-now splices the chain** at the end of the running period. -/
theorem replacePeriod_chain {planId id : ℕ} {plan runningPlan : Plan}
    {origin : Origin} {running : Subscription} (hchecked : Checked db.subscriptions)
    (hchain : Chain now (periods db.subscriptions b now)) (htrial : NoTrial db.subscriptions b now)
    (hrow : db.subscriptions[id]? = some running) (hb : running.businessId = b)
    (hactive : running.status = .active) (hstarted : running.startsAt ≤ now)
    (hends : now < running.endsAt)
    (h : replacePeriod db b planId plan period origin now id running runningPlan = .ok db') :
    Chain now (periods db'.subscriptions b now) ∧ NoTrial db'.subscriptions b now := by
  obtain ⟨d₁, hd₁, h⟩ := bind_eq_ok.1 h
  obtain ⟨d₂, hd₂, h⟩ := bind_eq_ok.1 h
  obtain ⟨hcreated, rfl⟩ := createSubscription_eq_ok h
  dsimp only at hd₁ hd₂ hcreated ⊢
  generalize hstop : (if isUpgrade runningPlan plan = true then
    upgradedEnd now running runningPlan plan period else periodEnd now period) = stop at *
  obtain ⟨stopped, hstopped, hd₁⟩ : ∃ stopped : Subscription → Subscription,
      (∀ r, (stopped r).status.isRunning = false) ∧ db.updateSubscription id stopped = .ok d₁ := by
    refine ⟨_, fun r => ?_, hd₁⟩
    split <;> rfl
  have hw₁ := rewrites_update hd₁
  have hw : Rewrites (fun i r => if id = i then stopped r else
      if r.businessId = b ∧ r.status = .active ∧ running.endsAt ≤ r.startsAt then
        r.move (stop - running.endsAt) else r) db d₂ := by
    refine (hw₁.comp (rewrites_moveFound hw₁.checked hd₂)).congr fun i r _ => ?_
    rcases eq_or_ne id i with rfl | hne
    · have hactive : (stopped r).status ≠ .active := fun hstatus => by
        have hrunning := hstopped r
        rw [hstatus] at hrunning
        cases hrunning
      simp [hactive]
    · simp [hne]
  have hlasts : now < stop := hcreated _ (List.mem_append_right _ List.mem_cons_self)
  have hrunning : periods db.subscriptions b now id = some (running.startsAt, running.endsAt) :=
    periods_eq_some.2 ⟨running, hrow, ⟨hb, by rw [hactive]; rfl, hends⟩, rfl, rfl⟩
  have hcut : now < running.endsAt + (stop - running.endsAt) := by omega
  -- of the rows there were, the queued ones move and the running one ends
  have hspliced : ∀ i ≠ d₂.subscriptions.length, periods d₂.subscriptions b now i =
      (periods db.subscriptions b now i).bind (moved running.endsAt (stop - running.endsAt)) := by
    intro i hi
    refine periods_spliced hw hchecked hcut (fun i r hi hr => ?_) hi
    rcases eq_or_ne id i with rfl | hne
    · obtain rfl := Option.some.inj (hr.symm.trans hrow)
      rw [if_pos rfl]
      exact .inr ⟨fun _ => hchecked.get hr, fun hlive => by simpa [hstopped] using hlive.2.1⟩
    · rw [if_neg hne]
      have hlasts' := hchecked.get hr
      by_cases hqueued : r.businessId = b ∧ r.status = .active ∧ running.endsAt ≤ r.startsAt
      · rw [if_pos hqueued]
        exact .inl ⟨⟨hqueued.1, by rw [hqueued.2.1]; rfl, by omega⟩, hqueued.2.2, rfl⟩
      · rw [if_neg hqueued]
        have hbefore : Live b now r → r.startsAt < running.endsAt := by
          intro hlive
          by_contra hle
          exact hqueued ⟨hlive.1, htrial.active hr hlive, not_lt.1 hle⟩
        refine .inr ⟨hbefore, fun hlive => ?_⟩
        have hlt := hbefore hlive
        have hend := hlive.2.2
        rcases hchain.disjoint (periods_eq_some.2 ⟨r, hr, hlive, rfl, rfl⟩) hrunning hne.symm
          with hle | hle <;> omega
  refine ⟨?_, noTrial_append (htrial.rewrites hw fun i r _ hstatus => ?_) (by simp)⟩
  · refine hchain.splice (k := d₂.subscriptions.length) hrunning (fun s e hk => ?_) hcut fun i => ?_
    · rw [hw.length, periods_length] at hk
      cases hk
    · rw [periods_append ⟨rfl, rfl⟩ hlasts]
      split_ifs with hi
      · rw [add_sub_cancel]
      · exact hspliced i hi
  · split_ifs at hstatus ⊢ with hid hqueued
    · have hrun := hstopped r
      rw [hstatus] at hrun
      cases hrun
    · rw [Subscription.move, hqueued.2.1] at hstatus
      cases hstatus
    · rfl

/-- **A purchase appends** at the last end. -/
theorem queuePeriod_chain {planId : ℕ} {origin : Origin}
    (hchain : Chain now (periods db.subscriptions b now)) (htrial : NoTrial db.subscriptions b now)
    (h : queuePeriod db b planId period origin now = .ok db') :
    Chain now (periods db'.subscriptions b now) ∧ NoTrial db'.subscriptions b now := by
  obtain ⟨hcreated, rfl⟩ := createSubscription_eq_ok h
  have hlasts := hcreated _ (List.mem_append_right _ List.mem_cons_self)
  dsimp only at hlasts ⊢
  generalize hlatest : (db.find (fun r => r.businessId = b ∧ r.status = .active ∧ now < r.endsAt)
    fun r => -r.endsAt).head? = latest at *
  have hstart : now ≤ nextPeriodStart now (latest.map fun x => x.2.endsAt) := by
    unfold nextPeriodStart
    split
    · split <;> omega
    · exact le_rfl
  generalize hstarts : nextPeriodStart now (latest.map fun x => x.2.endsAt) = start at *
  refine ⟨hchain.append (periods_length _ _ _) (fun hlater => ?_) (fun i s e hi => ?_) hlasts
    (hstart.trans_lt hlasts) fun i => ?_, noTrial_append htrial (by simp)⟩
  -- a period that starts later starts where the last one ends
  · cases latest with
    | none =>
      rw [← hstarts] at hlater
      exact absurd hlater (lt_irrefl _)
    | some x =>
      obtain ⟨hx, hmatch, -⟩ := find_head hlatest
      simp only [Bool.decide_and, Bool.and_eq_true, decide_eq_true_eq] at hmatch
      have hend : start = x.2.endsAt := by
        rw [← hstarts]
        exact if_pos hmatch.2.2
      exact ⟨x.1, x.2.startsAt, periods_eq_some.2
        ⟨x.2, hx, ⟨hmatch.1, by rw [hmatch.2.1]; rfl, hmatch.2.2⟩, rfl, hend.symm⟩⟩
  · obtain ⟨r, hr, hlive, -, rfl⟩ := periods_eq_some.1 hi
    have hmatch : r.businessId = b ∧ r.status = .active ∧ now < r.endsAt :=
      ⟨hlive.1, htrial.active hr hlive, hlive.2.2⟩
    cases latest with
    | none =>
      have hnone := find_none hlatest hr
      exact absurd hmatch (of_decide_eq_false hnone)
    | some x =>
      obtain ⟨hx, hxmatch, hlast⟩ := find_head hlatest
      simp only [Bool.decide_and, Bool.and_eq_true, decide_eq_true_eq] at hxmatch
      have hend : start = x.2.endsAt := by
        rw [← hstarts]
        exact if_pos hxmatch.2.2
      have hle := hlast i r hr (decide_eq_true hmatch)
      omega
  · exact periods_append ⟨rfl, rfl⟩ (hstart.trans_lt hlasts) i

/-- What `runningPeriod` finds. -/
theorem runningPeriod_eq_some {id : ℕ} {running : Subscription} {plan : Plan}
    (h : runningPeriod db b now = some (id, running, plan)) :
    db.subscriptions[id]? = some running ∧ running.businessId = b ∧ running.status = .active ∧
      running.startsAt ≤ now ∧ now < running.endsAt ∧ db.plans[running.planId]? = some plan := by
  simp only [runningPeriod, Option.bind_eq_bind, Option.bind_eq_some_iff, Prod.exists,
    Option.pure_def, Option.some.injEq, Prod.mk.injEq] at h
  obtain ⟨i, r, hfound, q, hplan, rfl, rfl, rfl⟩ := h
  obtain ⟨hr, hmatch, -⟩ := find_head hfound
  simp only [Bool.decide_and, Bool.and_eq_true, decide_eq_true_eq] at hmatch
  exact ⟨hr, hmatch.1, hmatch.2.1, hmatch.2.2.1, hmatch.2.2.2, hplan⟩

theorem insertPeriod_sound {planId : ℕ} {plan : Plan} {origin : Origin}
    (hchecked : Checked db.subscriptions) (hs : Sound db.subscriptions b now)
    (h : insertPeriod db b planId plan period origin now = .ok db') :
    Sound db'.subscriptions b now := by
  obtain ⟨d, hd, h⟩ := bind_eq_ok.1 h
  obtain ⟨hchecked, hchain, htrial, -⟩ := cancelTrial_sound hchecked hs hd
  have hdone : Chain now (periods db'.subscriptions b now) ∧ NoTrial db'.subscriptions b now := by
    cases hrunning : runningPeriod d b now with
    | none =>
      rw [hrunning] at h
      exact queuePeriod_chain hchain htrial h
    | some x =>
      obtain ⟨id, running, runningPlan⟩ := x
      rw [hrunning] at h
      obtain ⟨hrow, hb, hactive, hstarted, hends, -⟩ := runningPeriod_eq_some hrunning
      dsimp only at h
      split at h
      · exact replacePeriod_chain hchecked hchain htrial hrow hb hactive hstarted hends h
      · exact queuePeriod_chain hchain htrial h
  exact .of_noTrial hdone.1 hdone.2

end Rabotka.Subscriptions
