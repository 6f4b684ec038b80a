import Rabotka.Subscriptions.Sequences

/-!
# The money in an upgrade

An upgrade turns what is left of the running period into time on the new plan. `Account` follows
the money through a sequence of upgrades: `paid` is what stands behind the running period, its
price and whatever earlier upgrades have credited to it, and what is left of it at some instant
is worth a share of that in proportion to the time left.

`upgradedEnd` counts the list price over the whole span of the running period instead (`credit`),
and the two differ once an earlier upgrade has lengthened it. `upgrades_conserve`: as long as they
agree to half a millisecond's worth, every upgrade conserves the money to within a millisecond's
worth. Where they differ, money can be lost, as in `second_upgrade_loses`.
-/

namespace Rabotka.Subscriptions

open List

/-! ### The value of time -/

/-- What is left of a period at the instant `now` is worth, of the money behind it. -/
def worth (paid : ℚ) (r : Subscription) (now : ℤ) : ℚ :=
  paid * (r.endsAt - now) / (r.endsAt - r.startsAt)

/-- A millisecond of a period that starts at `start`, at the price of the plan. -/
def msWorth (plan : Plan) (period : BillingPeriod) (start : ℤ) : ℚ :=
  priceFor plan period / (periodEnd start period - start)

/-- The time from `start` to `stop`, at the price of the plan. -/
def valueAtRate (plan : Plan) (period : BillingPeriod) (start stop : ℤ) : ℚ :=
  msWorth plan period start * (stop - start)

/-- The money behind the running period of a business. -/
structure Account where
  db : Db
  id : ℕ
  paid : ℚ

/-- A paid or granted period. -/
structure Purchase where
  planId : ℕ
  period : BillingPeriod
  origin : Origin
  now : ℤ

/-- An upgrade of the running period by `createPeriod`, at an instant inside it. -/
def upgrade (b : ℕ) (a : Account) (p : Purchase) : Option Account := do
  let (id, running, plan) ← runningPeriod a.db b p.now
  let next ← a.db.plans[p.planId]?
  if id = a.id ∧ running.startsAt < p.now ∧ isUpgrade plan next then
    match createPeriod a.db b p.planId p.period p.origin p.now with
    | .ok (some db) => do
      let created ← db.subscriptions.getLast?
      pure { db, id := db.subscriptions.length - 1,
             paid := valueAtRate next p.period p.now created.endsAt }
    | _ => none
  else none

/-- **The law.** The new period is worth its price and what was left of the old one, to within a
millisecond's worth. -/
def Conserves (a : Account) (p : Purchase) (a' : Account) : Prop :=
  ∀ running next, a.db.subscriptions[a.id]? = some running → a.db.plans[p.planId]? = some next →
    |a'.paid - (priceFor next p.period + worth a.paid running p.now)| ≤
      msWorth next p.period p.now

/-- Every upgrade of the sequence conserves the money. -/
def Conserved (b : ℕ) (a : Account) : List Purchase → Prop
  | [] => True
  | p :: ps => ∀ a', upgrade b a p = some a' → Conserves a p a' ∧ Conserved b a' ps

/-- What an upgrade does not count of the money behind the running period. -/
def uncounted (a : Account) (running : Subscription) (plan : Plan) (now : ℤ) : ℚ :=
  worth a.paid running now - credit now running plan

/-- The money behind the running period is what the upgrade counts, to half a millisecond's
worth. -/
def Counts (a : Account) (p : Purchase) : Prop :=
  ∀ running plan next, a.db.subscriptions[a.id]? = some running →
    a.db.plans[running.planId]? = some plan → a.db.plans[p.planId]? = some next →
    |uncounted a running plan p.now| ≤ msWorth next p.period p.now / 2

/-- Every upgrade of the sequence finds it so. -/
def Counted (b : ℕ) (a : Account) : List Purchase → Prop
  | [] => True
  | p :: ps => Counts a p ∧ ∀ a', upgrade b a p = some a' → Counted b a' ps

/-! ### One upgrade -/

/-- Rounding moves by half a millisecond at most. -/
theorem mathRound_sub_le (x : ℚ) : |(mathRound x : ℚ) - x| ≤ 1 / 2 := by
  have hle : (mathRound x : ℚ) ≤ x + 1 / 2 := Int.floor_le _
  have hlt : x + 1 / 2 < mathRound x + 1 := Int.lt_floor_add_one _
  rw [abs_le]
  constructor <;> linarith

variable {period : BillingPeriod}

theorem periodEnd_gt (h : period ≠ .trial) (start : ℤ) : start < periodEnd start period := by
  cases period with
  | trial => exact (h rfl).elim
  | monthly | annual => exact Calendar.lt_addMonthsClamped (by decide) start

variable {running : Subscription}

/-- The end of an upgrade is worth the new price and the credit, up to rounding. -/
theorem valueAtRate_upgradedEnd {now : ℤ} {plan next : Plan}
    (hspan : running.startsAt < running.endsAt)
    (hleft : now < running.endsAt) (hold : 0 < priceFor plan running.billingPeriod)
    (hnew : 0 < priceFor next period) (hperiod : period ≠ .trial) :
    ∃ δ : ℚ, |δ| ≤ 1 / 2 ∧ valueAtRate next period now (upgradedEnd now running plan next period) =
        priceFor next period + credit now running plan + δ * msWorth next period now := by
  have hend := periodEnd_gt hperiod now
  generalize hstop : periodEnd now period = stop at *
  have hspanNew : (0 : ℚ) < stop - now := by
    have hcast : ((now : ℤ) : ℚ) < stop := by exact_mod_cast hend
    linarith
  have hprice : (0 : ℚ) < priceFor next period := by exact_mod_cast hnew
  refine ⟨_, mathRound_sub_le (credit now running plan / priceFor next period *
    (stop - now : ℤ)), ?_⟩
  have hbranch : ¬ (running.endsAt - running.startsAt ≤ 0 ∨ running.endsAt - now ≤ 0 ∨
      priceFor plan running.billingPeriod ≤ 0 ∨ priceFor next period ≤ 0) := by
    omega
  unfold valueAtRate msWorth upgradedEnd
  simp only [hstop, if_neg hbranch]
  generalize mathRound _ = n
  push_cast
  field_simp
  ring

/-- The running period stays what it is while the trial is looked for: there is none beside it. -/
theorem cancelTrial_of_running {db db' : Db} {b id : ℕ} {now : ℤ}
    {plan : Plan} (hs : Sound db.subscriptions b now)
    (hrunning : runningPeriod db b now = some (id, running, plan))
    (h : cancelTrial db b now = .ok db') : db' = db := by
  obtain ⟨hrow, hb, hactive, -, hends, -⟩ := runningPeriod_eq_some hrunning
  unfold cancelTrial at h
  split at h
  · exact (Except.ok.inj h).symm
  · rename_i id' trial hfound
    obtain ⟨htrial, hmatch, -⟩ := find_head hfound
    simp only [Bool.decide_and, Bool.and_eq_true, decide_eq_true_eq] at hmatch
    have hid := hs.trial htrial hmatch.1 hmatch.2.1 hmatch.2.2 (periods_eq_some.2
      ⟨running, hrow, ⟨hb, by rw [hactive]; rfl, hends⟩, rfl, rfl⟩)
    rw [hid] at hrow
    obtain rfl := Option.some.inj (hrow.symm.trans htrial)
    rw [hactive] at hmatch
    exact absurd hmatch.2.1 (by simp)

/-- The period that an upgrade creates. -/
theorem replacePeriod_created {db db' : Db} {b planId id : ℕ} {plan runningPlan : Plan}
    {origin : Origin} {now : ℤ}
    (hupgrade : isUpgrade runningPlan plan)
    (h : replacePeriod db b planId plan period origin now id running runningPlan = .ok db') :
    db'.plans = db.plans ∧ ∃ created, db'.subscriptions.getLast? = some created ∧
      created.billingPeriod = period ∧ created.startsAt = now ∧
      created.endsAt = upgradedEnd now running runningPlan plan period := by
  obtain ⟨d₁, hd₁, h⟩ := bind_eq_ok.1 h
  obtain ⟨d₂, hd₂, h⟩ := bind_eq_ok.1 h
  obtain ⟨-, rfl⟩ := createSubscription_eq_ok h
  refine ⟨?_, _, getLast?_concat .., rfl, rfl, if_pos hupgrade⟩
  exact (rewrites_moveFound (rewrites_update hd₁).checked hd₂).plans.trans
    (rewrites_update hd₁).plans

/-- What an upgrade does. -/
theorem upgrade_eq_some {b : ℕ} {a a' : Account} {p : Purchase} {t : ℤ}
    (hv : Valid a.db.subscriptions t) (ht : t ≤ p.now) (h : upgrade b a p = some a') :
    ∃ running plan next created, runningPeriod a.db b p.now = some (a.id, running, plan) ∧
      a.db.plans[p.planId]? = some next ∧ a'.db.plans = a.db.plans ∧
      Valid a'.db.subscriptions p.now ∧ a'.db.subscriptions[a'.id]? = some created ∧
      created.billingPeriod = p.period ∧ created.startsAt = p.now ∧
      a'.paid = valueAtRate next p.period p.now (upgradedEnd p.now running plan next p.period) := by
  simp only [upgrade, Option.bind_eq_bind, Option.bind_eq_some_iff, Prod.exists] at h
  obtain ⟨id, running, plan, hrunning, next, hnext, h⟩ := h
  split at h
  swap
  · cases h
  rename_i hguard
  obtain ⟨rfl, -, hupgrade⟩ := hguard
  split at h
  swap
  · cases h
  rename_i db hcreate
  have hvalid := createPeriod_valid (hv.later ht) hcreate
  unfold createPeriod at hcreate
  rw [hnext] at hcreate
  dsimp only at hcreate
  split at hcreate
  · cases hcreate
  obtain ⟨db₁, hinsert, rfl⟩ : ∃ d, insertPeriod a.db b p.planId next p.period p.origin p.now =
      .ok d ∧ d = db := by
    cases hinsert : insertPeriod a.db b p.planId next p.period p.origin p.now with
    | error e =>
      rw [hinsert] at hcreate
      cases hcreate
    | ok d =>
      rw [hinsert] at hcreate
      exact ⟨d, rfl, Option.some.inj (Except.ok.inj hcreate)⟩
  obtain ⟨d, hd, hinsert⟩ := bind_eq_ok.1 hinsert
  obtain rfl := cancelTrial_of_running ((hv.later ht).sound b) hrunning hd
  rw [hrunning] at hinsert
  simp only [hupgrade, Bool.true_or, if_true] at hinsert
  obtain ⟨hplans, created, hlast, hperiod, hstarts, hends⟩ := replacePeriod_created hupgrade hinsert
  simp only [hlast, Option.bind_some, Option.pure_def, Option.some.injEq] at h
  subst h
  refine ⟨running, plan, next, created, hrunning, hnext, hplans, hvalid, ?_, hperiod, hstarts, ?_⟩
  · rw [← hlast, getLast?_eq_getElem?]
  · rw [hends]

/-! ### Sequences of upgrades -/

/-- A plan has a price. -/
def Plan.Priced (plan : Plan) : Prop :=
  0 < plan.monthlyPriceFcfa ∧ 0 < plan.annualPriceFcfa

theorem Plan.Priced.priceFor_pos {plan : Plan} (h : plan.Priced)
    (hperiod : period ≠ .trial) : 0 < priceFor plan period := by
  cases period with
  | trial => exact (hperiod rfl).elim
  | monthly => exact h.1
  | annual => exact h.2

/-- The running period is a paid one, and the plans have prices. -/
structure Account.Paid (a : Account) : Prop where
  plans : ∀ plan ∈ a.db.plans, plan.Priced
  period : ∀ r, a.db.subscriptions[a.id]? = some r → r.billingPeriod ≠ .trial

/-- What an upgrade makes of the money, exactly: the price, what was left, what it does not count
of that, and the rounding. -/
theorem upgrade_value {b : ℕ} {a a' : Account} {p : Purchase} {t : ℤ} (ha : a.Paid)
    (hv : Valid a.db.subscriptions t) (ht : t ≤ p.now) (hperiod : p.period ≠ .trial)
    (h : upgrade b a p = some a') :
    ∃ running plan next, a.db.subscriptions[a.id]? = some running ∧
      a.db.plans[running.planId]? = some plan ∧ a.db.plans[p.planId]? = some next ∧
      0 < msWorth next p.period p.now ∧ ∃ δ : ℚ, |δ| ≤ 1 / 2 ∧
        a'.paid - (priceFor next p.period + worth a.paid running p.now) =
          δ * msWorth next p.period p.now - uncounted a running plan p.now := by
  obtain ⟨running, plan, next, created, hrunning, hnext, -, -, -, -, -, hpaid⟩ :=
    upgrade_eq_some hv ht h
  obtain ⟨hrow, -, -, -, hends, hplan⟩ := runningPeriod_eq_some hrunning
  have hnew : 0 < priceFor next p.period :=
    (ha.plans next (mem_of_getElem? hnext)).priceFor_pos hperiod
  obtain ⟨δ, hδ, hvalue⟩ := valueAtRate_upgradedEnd (hv.checked.get hrow) hends
    ((ha.plans plan (mem_of_getElem? hplan)).priceFor_pos (ha.period _ hrow)) hnew hperiod
  refine ⟨running, plan, next, hrow, hplan, hnext, ?_, δ, hδ, ?_⟩
  · have hgt : ((p.now : ℤ) : ℚ) < periodEnd p.now p.period := by
      exact_mod_cast periodEnd_gt hperiod p.now
    have hprice : (0 : ℚ) < priceFor next p.period := by exact_mod_cast hnew
    unfold msWorth
    exact div_pos hprice (by linarith)
  · rw [hpaid, hvalue, uncounted]
    ring

/-- **An upgrade that counts all of the money conserves it.** -/
theorem conserves_of_counts {b : ℕ} {a a' : Account} {p : Purchase} {t : ℤ} (ha : a.Paid)
    (hv : Valid a.db.subscriptions t) (ht : t ≤ p.now) (hperiod : p.period ≠ .trial)
    (hcounts : Counts a p) (h : upgrade b a p = some a') : Conserves a p a' := by
  obtain ⟨running, plan, next, hrow, hplan, hnext, hms, δ, hδ, hvalue⟩ :=
    upgrade_value ha hv ht hperiod h
  intro running' next' hrow' hnext'
  obtain rfl := Option.some.inj (hrow'.symm.trans hrow)
  obtain rfl := Option.some.inj (hnext'.symm.trans hnext)
  have hlost := hcounts _ _ _ hrow hplan hnext
  rw [hvalue]
  have hround : |δ * msWorth next' p.period p.now| ≤ msWorth next' p.period p.now / 2 := by
    rw [abs_mul, abs_of_pos hms]
    nlinarith
  rw [abs_le] at hround hlost ⊢
  constructor <;> linarith

/-- The instants of the purchases do not go back. -/
def Forward (t : ℤ) : List Purchase → Prop
  | [] => True
  | p :: ps => t ≤ p.now ∧ Forward p.now ps

/-- **Upgrading loses nothing paid**, along every sequence of upgrades each of which finds what is
left of the running period to be worth what `upgradedEnd` counts. -/
theorem upgrades_conserve {b : ℕ} {a : Account} {ps : List Purchase} {t : ℤ} (ha : a.Paid)
    (hv : Valid a.db.subscriptions t) (hforward : Forward t ps)
    (hperiods : ∀ p ∈ ps, p.period ≠ .trial) (hcounted : Counted b a ps) : Conserved b a ps := by
  induction ps generalizing a t with
  | nil => trivial
  | cons p ps ih =>
    intro a' h
    have hperiod := hperiods p mem_cons_self
    refine ⟨conserves_of_counts ha hv hforward.1 hperiod hcounted.1 h, ?_⟩
    obtain ⟨-, -, -, created, -, -, hplans, hvalid, hcreated, hbilling, -⟩ :=
      upgrade_eq_some hv hforward.1 h
    refine ih ⟨?_, fun r hr => ?_⟩ hvalid hforward.2
      (fun q hq => hperiods q (mem_cons_of_mem p hq)) (hcounted.2 a' h)
    · rw [hplans]
      exact ha.plans
    · obtain rfl := Option.some.inj (hr.symm.trans hcreated)
      rw [hbilling]
      exact hperiod

/-! ### Two upgrades in a row -/

/-- Three plans, each twice as dear as the one before. -/
def threePlans : Db :=
  { twoPlans with
    plans := twoPlans.plans ++ [{
      code := "max", monthlyPriceFcfa := 4000, annualPriceFcfa := 40000,
      unlocksPerPeriod := none, isActive := true, deleted := false }] }

/-- A month of the first plan, paid on 1 January 1970. -/
def firstMonth : Account where
  db := sequence threePlans [.activateFromPayment 0 0]
  id := 0
  paid := 1000

/-- The upgrade to the second plan in the middle of the month. -/
def toPro : Purchase where
  planId := 1
  period := .monthly
  origin := {}
  now := 31 * 12 * 60 * 60 * 1000

/-- The upgrade to the third plan an hour later. -/
def toMax : Purchase where
  planId := 2
  period := .monthly
  origin := {}
  now := 31 * 12 * 60 * 60 * 1000 + 60 * 60 * 1000

theorem firstMonth_row : firstMonth.db.subscriptions = [
    { businessId := 0, planId := 0, status := .active, billingPeriod := .monthly, startsAt := 0,
      endsAt := 31 * 24 * 60 * 60 * 1000, paymentRequestId := some 0 }] := by
  decide +kernel

theorem firstMonth_valid : Valid firstMonth.db.subscriptions 0 := by
  refine sequence_valid ⟨monotone_const, le_rfl, fun _ => trivial⟩
    (⟨fun r hr => ?_, fun b => ⟨.empty fun i => ?_, ?_⟩⟩ : Valid threePlans.subscriptions 0)
    le_rfl fun op hop k => ?_
  · exact absurd hr (by simp [threePlans, twoPlans])
  · simp [periods, threePlans, twoPlans]
  · intro i r hr
    simp [threePlans, twoPlans] at hr
  · obtain rfl := mem_singleton.1 hop
    exact le_rfl

theorem firstMonth_paid : firstMonth.Paid where
  plans plan hplan := by
    have hplans : firstMonth.db.plans = threePlans.plans := by decide +kernel
    rw [hplans] at hplan
    simp only [threePlans, twoPlans, cons_append, nil_append, mem_cons,
      not_mem_nil, or_false] at hplan
    obtain rfl | rfl | rfl := hplan <;> constructor <;> decide
  period r hr := by
    rw [firstMonth_row] at hr
    obtain rfl := mem_singleton.1 (mem_of_getElem? hr)
    decide

/-- The first upgrade conserves the money. -/
theorem upgrades_conserve_first : Conserved 0 firstMonth [toPro] := by
  refine upgrades_conserve (t := 0) firstMonth_paid firstMonth_valid ⟨by decide, trivial⟩
    (fun p hp => ?_) ⟨?_, fun _ _ => trivial⟩
  · obtain rfl := mem_singleton.1 hp
    decide
  · intro running plan next hrow hplan hnext
    rw [firstMonth_row] at hrow
    obtain rfl := mem_singleton.1 (mem_of_getElem? hrow)
    have hplan' : firstMonth.db.plans[0]? = threePlans.plans[0]? := by decide +kernel
    have hnext' : firstMonth.db.plans[1]? = threePlans.plans[1]? := by decide +kernel
    obtain rfl := Option.some.inj ((hplan'.symm.trans hplan))
    obtain rfl := Option.some.inj ((hnext'.symm.trans hnext))
    decide +kernel

/-- **The second upgrade loses money.** It counts 2000 francs over a period that 2500 francs stand
behind, so that what was left is worth about 500 francs more than what it becomes. -/
theorem second_upgrade_loses : Valid firstMonth.db.subscriptions 0 ∧ firstMonth.Paid ∧
      ¬ Conserved 0 firstMonth [toPro, toMax] := by
  refine ⟨firstMonth_valid, firstMonth_paid, fun hconserved => ?_⟩
  have hrun : ((upgrade 0 firstMonth toPro).bind fun a₁ => (upgrade 0 a₁ toMax).bind fun a₂ =>
      (a₁.db.subscriptions[a₁.id]?).bind fun running => (a₁.db.plans[toMax.planId]?).map
        fun next => decide (|a₂.paid - (priceFor next .monthly + worth a₁.paid running toMax.now)| ≤
          msWorth next .monthly toMax.now)) = some false := by
    decide +kernel
  obtain ⟨a₁, h₁, hrun⟩ := Option.bind_eq_some_iff.1 hrun
  obtain ⟨a₂, h₂, hrun⟩ := Option.bind_eq_some_iff.1 hrun
  obtain ⟨running, hrow, hrun⟩ := Option.bind_eq_some_iff.1 hrun
  obtain ⟨next, hnext, hlost⟩ := Option.map_eq_some_iff.1 hrun
  have hlaw := ((hconserved a₁ h₁).2 a₂ h₂).1 running next hrow hnext
  exact absurd hlaw (of_decide_eq_false hlost)

end Rabotka.Subscriptions
