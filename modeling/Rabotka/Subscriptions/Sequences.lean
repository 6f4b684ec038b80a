import Mathlib
import Rabotka.Subscriptions.Periods

/-!
# Every sequence of operations keeps the chains

The operations of the service, each from the transactions it runs, and the main result: after any
sequence of operations at instants that do not go back, the periods of every business that are
still to end form a chain (`periods_form_chain`).
-/

namespace Rabotka.Subscriptions

open Timeline List

variable {rows rows' : List Subscription} {b : ℕ} {now : ℤ} {db db' : Db}

/-! ### The trial -/

theorem createTrial_valid {r : Subscription} (hv : Valid db.subscriptions r.startsAt)
    (hnew : ∀ q ∈ db.subscriptions, q.businessId ≠ r.businessId) (htrial : r.status = .trial)
    (h : db.createSubscription r = .ok db') : Valid db'.subscriptions r.startsAt := by
  obtain ⟨hchecked, rfl⟩ := createSubscription_eq_ok h
  have hlasts := hchecked r (mem_append_right _ mem_cons_self)
  refine ⟨hchecked, fun b => ?_⟩
  rcases eq_or_ne r.businessId b with rfl | hne
  swap
  · exact (sameFor_append hne).sound (hv.sound b)
  have hnone : ∀ i, periods db.subscriptions r.businessId r.startsAt i = none := by
    intro i
    refine Option.eq_none_iff_forall_ne_some.2 fun p hp => ?_
    obtain ⟨q, hq, hlive, -⟩ := periods_eq_some.1 (show _ = some (p.1, p.2) from hp)
    exact hnew q (mem_of_getElem? hq) hlive.1
  have hrunning : r.businessId = r.businessId ∧ r.status.isRunning := ⟨rfl, by rw [htrial]; rfl⟩
  have hperiods : ∀ i, periods (db.subscriptions ++ [r]) r.businessId r.startsAt i = _ :=
    periods_append hrunning hlasts
  have honly : ∀ j p, periods (db.subscriptions ++ [r]) r.businessId r.startsAt j = some p →
      j = db.subscriptions.length := by
    intro j p hj
    rw [hperiods] at hj
    by_contra hj'
    rw [if_neg hj', hnone] at hj
    cases hj
  refine ⟨?_, fun {i q} hq hb hstatus hend {j p} hj => ?_⟩
  · refine (Chain.empty hnone).append (k := db.subscriptions.length) (hnone _)
      (fun hlate => absurd hlate (lt_irrefl _)) (fun i s e hi => ?_) hlasts hlasts hperiods
    rw [hnone] at hi
    cases hi
  · have hi := honly i (q.startsAt, q.endsAt)
      (periods_eq_some.2 ⟨q, hq, ⟨hb, by rw [hstatus]; rfl, hend⟩, rfl, rfl⟩)
    rw [honly j p hj, hi]

theorem startTrial_valid (hv : Valid db.subscriptions now) (b : ℕ) :
    Valid (startTrial db b now).1.subscriptions now := by
  unfold startTrial
  split
  · exact hv
  dsimp only
  split
  · exact hv
  split
  · exact hv
  split
  · exact hv
  rename_i planId plan _ _ hany
  cases hcreate : db.createSubscription
      { businessId := b, planId, status := .trial, billingPeriod := .trial, startsAt := now,
        endsAt := periodEnd now .trial db.settings.trialDays } with
  | ok d =>
    refine createTrial_valid hv (fun q hq hqb => hany ?_) rfl hcreate
    exact any_eq_true.2 ⟨q, hq, decide_eq_true hqb⟩
  | error e => split <;> simp_all

/-! ### The sweep -/

/-- The only rows that are different have ended, and only their status and notice are. -/
def Lapses (now : ℤ) (rows rows' : List Subscription) : Prop :=
  ∀ i : ℕ, ∃ f : Subscription → Subscription, rows'[i]? = (rows[i]?).map f ∧
    ∀ r, f r = r ∨ r.endsAt ≤ now ∧ ∃ notified,
      f r = { r with status := .expired, expiredNotifiedAt := notified }

theorem Lapses.refl (now : ℤ) (rows : List Subscription) : Lapses now rows rows :=
  fun i => ⟨id, by rw [Option.map_id, id], fun r => .inl rfl⟩

theorem Lapses.trans {rows'' : List Subscription} (h : Lapses now rows rows')
    (h' : Lapses now rows' rows'') : Lapses now rows rows'' := by
  intro i
  obtain ⟨f, hf, hfr⟩ := h i
  obtain ⟨g, hg, hgr⟩ := h' i
  refine ⟨g ∘ f, by rw [hg, hf, Option.map_map], fun r => ?_⟩
  rcases hfr r with hr | ⟨hend, notified, hr⟩
  · rw [Function.comp, hr]
    exact hgr r
  · rw [Function.comp, hr]
    refine .inr ⟨hend, ?_⟩
    rcases hgr { r with status := .expired, expiredNotifiedAt := notified } with
      hr' | ⟨-, notified', hr'⟩
    · exact ⟨notified, hr'⟩
    · exact ⟨notified', hr'⟩

theorem Lapses.row {i : ℕ} {r : Subscription} (h : Lapses now rows rows')
    (hr : rows'[i]? = some r) :
    ∃ q, rows[i]? = some q ∧ q.startsAt = r.startsAt ∧ q.endsAt = r.endsAt ∧
      (q = r ∨ r.endsAt ≤ now ∧ r.status = .expired) := by
  obtain ⟨f, hf, hfr⟩ := h i
  rw [hf] at hr
  obtain ⟨q, hq, rfl⟩ := Option.map_eq_some_iff.1 hr
  refine ⟨q, hq, ?_⟩
  rcases hfr q with hr | ⟨hend, notified, hr⟩
  · rw [hr]
    exact ⟨rfl, rfl, .inl rfl⟩
  · rw [hr]
    exact ⟨rfl, rfl, .inr ⟨hend, rfl⟩⟩

theorem Lapses.sameFor_live (h : Lapses now rows rows') (b i : ℕ) (r : Subscription)
    (hlive : Live b now r) : rows'[i]? = some r ↔ rows[i]? = some r := by
  have hend := hlive.2.2
  constructor
  · intro hr
    obtain ⟨q, hq, -, -, rfl | ⟨hle, -⟩⟩ := h.row hr
    · exact hq
    · omega
  · intro hr
    obtain ⟨f, hf, hfr⟩ := h i
    rw [hf, hr, Option.map_some]
    rcases hfr r with heq | ⟨hle, -⟩
    · rw [heq]
    · omega

theorem Lapses.valid (h : Lapses now rows rows') (hv : Valid rows now) : Valid rows' now := by
  refine ⟨fun r hr => ?_, fun b => ?_⟩
  · obtain ⟨i, hi⟩ := getElem?_of_mem hr
    obtain ⟨q, hq, hstart, hend, -⟩ := h.row hi
    rw [← hstart, ← hend]
    exact hv.checked.get hq
  · have hperiods : periods rows' b now = periods rows b now := by
      funext i
      refine Option.ext fun p => ?_
      obtain ⟨s, e⟩ := p
      rw [periods_eq_some, periods_eq_some]
      constructor
      · rintro ⟨r, hr, hlive, heq⟩
        exact ⟨r, (h.sameFor_live b i r hlive).1 hr, hlive, heq⟩
      · rintro ⟨r, hr, hlive, heq⟩
        exact ⟨r, (h.sameFor_live b i r hlive).2 hr, hlive, heq⟩
    have hs := hv.sound b
    refine ⟨hperiods ▸ hs.chain, fun {i r} hr hb hstatus hend {j p} hj => ?_⟩
    rw [hperiods] at hj
    have hlive : Live b now r := ⟨hb, by rw [hstatus]; rfl, hend⟩
    exact hs.trial ((h.sameFor_live b i r hlive).1 hr) hb hstatus hend hj

theorem expireAll_lapses {lapsed : List (ℕ × Subscription)}
    (h : ∀ x ∈ lapsed, ∃ r, db.subscriptions[x.1]? = some r ∧ r.endsAt ≤ now) :
    Lapses now db.subscriptions (expireAll now lapsed db).subscriptions := by
  induction lapsed generalizing db with
  | nil => exact .refl _ _
  | cons x lapsed ih =>
    obtain ⟨q, hq, hend⟩ := h x mem_cons_self
    have hrow : ∀ j : ℕ, (expirePeriod now db x.1).subscriptions[j]? = _ :=
      Table.getElem?_claim db.subscriptions x.1 (fun r => r.expiredNotifiedAt.isNone)
        fun r => { r with status := .expired, expiredNotifiedAt := some now }
    have hstep : Lapses now db.subscriptions (expirePeriod now db x.1).subscriptions := by
      intro i
      refine ⟨fun r => if x.1 = i ∧ r.expiredNotifiedAt.isNone ∧ r.endsAt ≤ now then
        { r with status := .expired, expiredNotifiedAt := some now } else r, ?_, fun r => ?_⟩
      · rw [hrow]
        cases hr : db.subscriptions[i]? with
        | none => rfl
        | some r =>
          rw [Option.map_some, Option.map_some]
          rcases eq_or_ne x.1 i with rfl | hne
          · obtain rfl := Option.some.inj (hr.symm.trans hq)
            simp [hend]
          · simp [hne]
      · dsimp only
        split_ifs with hcond
        · exact .inr ⟨hcond.2.2, some now, rfl⟩
        · exact .inl rfl
    refine hstep.trans (ih fun y hy => ?_)
    obtain ⟨r, hr, hrend⟩ := h y (mem_cons_of_mem _ hy)
    rw [hrow, hr]
    refine ⟨_, rfl, ?_⟩
    dsimp only
    split_ifs
    · exact hrend
    · exact hrend

theorem sweep_valid (hv : Valid db.subscriptions now) : Valid (sweep db now).subscriptions now := by
  refine (expireAll_lapses fun x hx => ?_).valid hv
  obtain ⟨hr, hmatch⟩ := Table.mem_findMany.1 hx
  exact ⟨x.2, hr, (of_decide_eq_true hmatch).2.1⟩

/-! ### Sequences -/

theorem committed_valid {o : Except Exn Db} (hv : Valid db.subscriptions now)
    (h : ∀ d, o = .ok d → Valid d.subscriptions now) :
    Valid (committed db o).1.subscriptions now := by
  cases o with
  | ok d => exact h d rfl
  | error e => exact hv

theorem activateFromPayment_valid (hv : Valid db.subscriptions now) (id : ℕ) :
    Valid (activateFromPayment db id now).1.subscriptions now := by
  unfold activateFromPayment
  split
  · exact hv
  split
  · exact hv
  split
  · split
    · exact hv
    split
    · exact hv
    split
    · rename_i d hcreate
      exact createPeriod_valid hv hcreate
    · exact hv
    · exact hv
  · exact hv

theorem grantByAdmin_valid (hv : Valid db.subscriptions now) (b planId : ℕ)
    (period : BillingPeriod) (admin : Option ℕ) (startNow : Bool) :
    Valid (grantByAdmin db b planId period admin startNow now).1.subscriptions now := by
  unfold grantByAdmin
  split
  · exact hv
  split
  · rename_i d hcreate
    exact createPeriod_valid hv hcreate
  · exact hv
  · exact hv

/-- The businesses of a deleted plan, one after the other. -/
theorem endAll_valid {admin : Option ℕ} {clock : ℕ → ℤ} (hclock : Monotone clock) {k : ℕ}
    {ids : List (ℕ × ℕ)} (hv : Valid db.subscriptions (clock k)) :
    ∃ k', Valid (endAll admin clock k ids db).1.subscriptions (clock k') := by
  induction ids generalizing db k with
  | nil => exact ⟨k, hv⟩
  | cons x ids ih =>
    obtain ⟨b, id⟩ := x
    unfold endAll
    split
    · rename_i d hend
      exact ih ((endWithQueue_valid hv hend).later (hclock (Nat.le_succ k)))
    · exact ⟨k, hv⟩

theorem deletePlan_valid {clock : ℕ → ℤ} (hclock : Monotone clock)
    (hv : Valid db.subscriptions (clock 0)) (planId : ℕ) (admin : Option ℕ) :
    ∃ k, Valid (deletePlan db planId admin clock).1.subscriptions (clock k) := by
  unfold deletePlan
  split
  · exact ⟨0, hv⟩
  split
  · exact ⟨0, hv⟩
  split
  · exact ⟨0, hv⟩
  exact endAll_valid hclock hv

/-- **Every operation keeps the invariant.** -/
theorem perform_valid {op : Operation} (hclock : Monotone op.clock)
    (hv : Valid db.subscriptions (op.clock 0)) :
    ∃ k, Valid (op.perform db).subscriptions (op.clock k) := by
  cases op with
  | startTrial b now => exact ⟨0, startTrial_valid hv b⟩
  | activateFromPayment id now => exact ⟨0, activateFromPayment_valid hv id⟩
  | grantByAdmin b planId period admin startNow now =>
    exact ⟨0, grantByAdmin_valid hv b planId period admin startNow⟩
  | cancelByAdmin b id admin now =>
    exact ⟨0, committed_valid hv fun d hd => endWithQueue_valid hv hd⟩
  | startQueuedNow b id now =>
    exact ⟨0, committed_valid hv fun d hd => startQueued_valid hv hd⟩
  | deletePlan planId admin clock => exact deletePlan_valid hclock hv planId admin
  | sweep now => exact ⟨0, sweep_valid hv⟩
  | elsewhere plans profiles requests settings now => exact ⟨0, hv⟩

/-- The instants do not go back, within an operation or from one to the next. -/
def Ordered (start : ℤ) : List Operation → Prop
  | [] => True
  | op :: ops => Monotone op.clock ∧ start ≤ op.clock 0 ∧ ∀ k, Ordered (op.clock k) ops

theorem sequence_valid {start : ℤ} {ops : List Operation} (hops : Ordered start ops)
    (hv : Valid db.subscriptions start) (hstart : start ≤ now)
    (hnow : ∀ op ∈ ops, ∀ k, op.clock k ≤ now) :
    Valid (sequence db ops).subscriptions now := by
  induction ops generalizing db start with
  | nil => exact hv.later hstart
  | cons op ops ih =>
    obtain ⟨hclock, hle, hrest⟩ := hops
    obtain ⟨k, hv'⟩ := perform_valid hclock (hv.later hle)
    exact ih (hrest k) hv' (hnow op mem_cons_self k) fun op hop => hnow op (mem_cons_of_mem _ hop)

/-- The periods of a business that end after `now` are a gap-free chain: no two overlap, at most
one contains `now`, and each that starts later starts where another one ends. -/
structure PeriodsChain (rows : List Subscription) (b : ℕ) (now : ℤ) : Prop where
  disjoint : ∀ (i j : ℕ) (r q : Subscription), rows[i]? = some r → rows[j]? = some q → i ≠ j →
    Live b now r → Live b now q → r.endsAt ≤ q.startsAt ∨ q.endsAt ≤ r.startsAt
  covers : ∀ (i j : ℕ) (r q : Subscription), rows[i]? = some r → rows[j]? = some q →
    Live b now r → Live b now q → r.startsAt ≤ now → q.startsAt ≤ now → i = j
  linked : ∀ (i : ℕ) (r : Subscription), rows[i]? = some r → Live b now r → now < r.startsAt →
    ∃ (j : ℕ) (q : Subscription), j ≠ i ∧ rows[j]? = some q ∧ Live b now q ∧ q.endsAt = r.startsAt

theorem Sound.periodsChain (h : Sound rows b now) : PeriodsChain rows b now where
  disjoint i j r q hr hq hne hrlive hqlive :=
    h.chain.disjoint (periods_eq_some.2 ⟨r, hr, hrlive, rfl, rfl⟩)
      (periods_eq_some.2 ⟨q, hq, hqlive, rfl, rfl⟩) hne
  covers i j r q hr hq hrlive hqlive hrs hqs :=
    h.chain.eq_of_contains (periods_eq_some.2 ⟨r, hr, hrlive, rfl, rfl⟩)
      (periods_eq_some.2 ⟨q, hq, hqlive, rfl, rfl⟩) hrs hrlive.2.2 hqs hqlive.2.2
  linked i r hr hlive hlate := by
    have hi := periods_eq_some.2 ⟨r, hr, hlive, rfl, rfl⟩
    obtain ⟨j, s, hj⟩ := h.chain.linked hi hlate
    obtain ⟨q, hq, hqlive, -, hend⟩ := periods_eq_some.1 hj
    refine ⟨j, q, ?_, hq, hqlive, hend⟩
    rintro rfl
    have hlasts := (h.chain.lasts hj).1
    obtain ⟨rfl, -⟩ := Prod.mk.inj (Option.some.inj (hj.symm.trans hi))
    exact absurd hlasts (lt_irrefl _)

/-- **The periods of every business form a gap-free chain**, after every sequence of operations
at instants that do not go back, at the last of these instants and at any later one. -/
theorem periods_form_chain {start : ℤ} {ops : List Operation} (hnone : db.subscriptions = [])
    (hops : Ordered start ops) (hstart : start ≤ now)
    (hnow : ∀ op ∈ ops, ∀ k, op.clock k ≤ now) (b : ℕ) :
    PeriodsChain (sequence db ops).subscriptions b now := by
  have hv : Valid db.subscriptions start := by
    rw [hnone]
    refine ⟨fun r hr => absurd hr (by simp), fun b => ⟨.empty fun i => by simp [periods], ?_⟩⟩
    intro i r hr
    simp at hr
  exact ((sequence_valid hops hv hstart hnow).sound b).periodsChain

/-! ### An example -/

/-- Two plans, and an approved payment for a month of each. -/
def twoPlans : Db where
  plans := [
    { code := "starter", monthlyPriceFcfa := 1000, annualPriceFcfa := 10000,
      unlocksPerPeriod := some 5, isActive := true, deleted := false },
    { code := "pro", monthlyPriceFcfa := 2000, annualPriceFcfa := 20000,
      unlocksPerPeriod := none, isActive := true, deleted := false }]
  subscriptions := []
  profiles := [⟨true, some 0⟩]
  requests := [⟨0, true, true, some 0, some .monthly⟩, ⟨0, true, true, some 0, some .annual⟩,
    ⟨0, true, true, some 1, some .monthly⟩]
  settings := { trialDays := 14, trialPlanCode := some "starter" }

/-- A trial, a month that replaces it, a year queued, and an upgrade that moves the queue. -/
def upgradeWithQueue : List Operation :=
  [.startTrial 0 0, .activateFromPayment 0 1000, .activateFromPayment 1 2000,
    .activateFromPayment 2 1000000, .sweep 1000001]

/-- After the upgrade the year still follows: a period starts now and one where it ends. -/
theorem upgradeWithQueue_chain :
    PeriodsChain (sequence twoPlans upgradeWithQueue).subscriptions 0 1000001 := by
  refine periods_form_chain rfl ?_ (by decide : (0 : ℤ) ≤ 1000001) (fun op hop k => ?_) 0
  · refine ⟨monotone_const, ?_, fun _ => ⟨monotone_const, ?_, fun _ => ⟨monotone_const, ?_,
      fun _ => ⟨monotone_const, ?_, fun _ => ⟨monotone_const, ?_, fun _ => trivial⟩⟩⟩⟩⟩ <;>
      simp [Operation.clock]
  · simp only [upgradeWithQueue, mem_cons, not_mem_nil, or_false] at hop
    obtain rfl | rfl | rfl | rfl | rfl := hop <;> simp [Operation.clock]

end Rabotka.Subscriptions
