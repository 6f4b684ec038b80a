import Rabotka.Quotas.Calls

/-!
# Quota units under concurrency

`units_exact`: in every run in which the second statement of a use or a release never fails
outside a transaction, no counter is ever above its plan's quota or negative, no attempt or
contact record holds two units, and the counter of every period that no operation is halfway
through equals its usage rows that are not released. `attempt_counted_twice` is a run that leaves
the condition: on its own, a second use for the same attempt moves the counter and then fails on
the usage row.
-/

namespace Rabotka.Quotas

open Async List

/-- Every counter equals the rows of its period and is within the quota. -/
structure Db.Settled (d : Db) : Prop where
  unique : d.Unique
  exact : ∀ k, d.used k = d.held k
  quota : ∀ k q, d.quotaOf k = some q → d.used k ≤ q

/-- Some operation is halfway through a use or a release of a unit of the period. -/
def InProgress (c : Config (Store × Owed) Resp Exn) (k : ℕ) : Prop :=
  ∃ i op, c.pool[i]? = some op ∧ op.done = false ∧ k ∈ Tagged.of c.store.2 i

/-- What is to hold of the counters and the usage rows. -/
structure UnitsExact (c : Config (Store × Owed) Resp Exn) : Prop where
  nonneg : ∀ k, 0 ≤ c.store.1.db.used k
  quota : ∀ k q, c.store.1.db.quotaOf k = some q → c.store.1.db.used k ≤ q
  once : ∀ t, c.store.1.db.usages.countP (fun u => u.target = t ∧ u.released = false) ≤ 1
  exact : ∀ k, ¬ InProgress c k → c.store.1.db.used k = c.store.1.db.held k

theorem Db.Unique.countP_le_one {d : Db} (h : d.Unique) (t : Target) :
    d.usages.countP (fun u => u.target = t ∧ u.released = false) ≤ 1 := by
  have hle : d.usages.countP (fun u => u.target = t ∧ u.released = false) ≤
      d.usages.countP fun u => u.target = t := by
    refine countP_mono_left fun u _ hu => ?_
    rw [decide_eq_true_eq] at hu ⊢
    exact hu.1
  have hcount : d.usages.countP (fun u => u.target = t) =
      (d.usages.map BusinessQuotaUsage.target).count t := by
    rw [List.count, countP_map]
    refine countP_congr fun u _ => ?_
    simp
  rw [hcount] at hle
  exact hle.trans (nodup_iff_count_le_one.1 h t)

/-- **Counters and usage rows agree**, in every state of every run in which the second statement
of a use or a release never fails outside a transaction. -/
theorem units_exact {db : Db} (hdb : db.Settled) {acts : List (Act Request Env Exn)}
    {c : Config (Store × Owed) Resp Exn}
    (hrun : c ∈ tracked.run recordsUsage (tracked.idle (.ofDb db, [])) acts) : UnitsExact c := by
  have hstart : Sound (.ofDb db, []) := by
    refine ⟨ReadCommitted.Store.exclusive_ofDb db, hdb.unique, fun i u hu => ?_, fun k => ?_,
      hdb.quota⟩
    · rw [ReadCommitted.Store.session_ofDb] at hu
      cases hu
    · exact (hdb.exact k).trans (add_zero _).symm
  have hwf : quotaService.WF c := Discipline.wf_of_mem_run handles_quotas hrun
    (Discipline.wf_idle hstart fun i => ⟨rfl, rfl⟩)
  have hs : Sound c.store := hwf.inv
  refine ⟨fun k => ?_, hs.quota, hs.unique.countP_le_one, fun k hk => ?_⟩
  · have hdrift := hs.drift k
    omega
  · have hnone : outside c.store.1 c.store.2 k = 0 := by
      refine countP_eq_zero.2 fun x hx hmatch => hk ?_
      obtain ⟨-, hxk⟩ := of_decide_eq_true hmatch
      have hmem : k ∈ Tagged.of c.store.2 x.1 := by
        rw [← hxk]
        exact Tagged.mem_of.2 hx
      -- a process that has finished, or has not started, owes nothing
      have hidle : ∀ h : quotaService.idle x.1 c.store, False := fun h => by
        rw [h.2] at hmem
        cases hmem
      rcases lt_or_ge x.1 c.pool.length with hlt | hge
      · have hop := getElem?_eq_getElem hlt
        cases hdone : (c.pool.get ⟨x.1, hlt⟩).done
        · exact ⟨x.1, _, hop, hdone, hmem⟩
        · exact (hidle (hwf.idle_of_done hop hdone)).elim
      · exact (hidle (hwf.idle x.1 hge)).elim
    rw [hs.drift k, hnone]
    rfl

/-! ### A period with five units -/

/-- A business in the middle of a period with five units, and an accepted candidate. -/
def fiveUnits : Db where
  periods := {
    plans := [
      { code := "starter", monthlyPriceFcfa := 1000, annualPriceFcfa := 10000,
        unlocksPerPeriod := some 5, isActive := true, deleted := false }]
    subscriptions := [
      { businessId := 0, planId := 0, status := .active, billingPeriod := .monthly,
        startsAt := 0, endsAt := 100 }]
    profiles := [⟨true, some 0⟩]
    requests := []
    settings := ⟨14, none⟩ }
  usages := []
  offers := [
    { employerId := 0, quantity := 1, status := .active, employerUnlockPaid := false,
      employmentType := .mission, scheduledAt := none, deleted := false }]
  applications := [
    { jobOfferId := 0, workerId := 1, status := .waitingPayment, cancelledFromStatus := none,
      assignment := some .confirmed }]
  attempts := []

theorem fiveUnits_settled : fiveUnits.Settled := by
  have hzero : ∀ k, fiveUnits.used k = 0 := by
    intro k
    cases k <;> simp [Db.used, fiveUnits]
  refine ⟨nodup_nil, fun k => ?_, fun k q _ => ?_⟩
  · rw [hzero]
    rfl
  · rw [hzero]
    exact Int.natCast_nonneg q

/-- `n` steps of process `i` in the middle of the period. -/
def steps (i n : ℕ) : List (Act Request Env Exn) :=
  replicate n (.step i ⟨10, 500, 500, 48⟩)

/-- An attempt on its own and a contact record in a transaction, statement by statement in turn;
the attempt's unit is given back in between. -/
def usedInTurn : List (Act Request Env Exn) :=
  [.spawn (.call (.initiateUnlock 0 0 7)), .spawn (.inTransaction [.consumeDirectUnlock 0 3]),
    .spawn (.call (.releaseUnlock 7))] ++
    steps 0 6 ++ steps 1 3 ++ steps 0 3 ++ steps 1 1 ++ steps 2 1 ++ steps 1 2 ++ steps 2 2

/-- A unit of the search remains, and the one of the attempt is back. -/
theorem units_exact_in_turn :
    ∃ c ∈ tracked.run recordsUsage (tracked.idle (.ofDb fiveUnits, [])) usedInTurn,
      c.Quiescent ∧ c.store.1.db.used 0 = 1 ∧ UnitsExact c := by
  have hrun : (tracked.run recordsUsage (tracked.idle (.ofDb fiveUnits, [])) usedInTurn).map
      (fun c => (decide c.Quiescent, c.store.1.db.used 0)) = some (true, 1) := by
    decide +kernel
  obtain ⟨c, hc, heq⟩ := Option.map_eq_some_iff.1 hrun
  simp only [Prod.mk.injEq, decide_eq_true_eq] at heq
  exact ⟨c, hc, heq.1, heq.2, units_exact fiveUnits_settled hc⟩

/-- Two uses for the same attempt, one after the other, outside transactions. -/
def usedTwice : List (Act Request Env Exn) :=
  .spawn (.call (.consumeUnlock 0 7)) :: steps 0 4 ++
    .spawn (.call (.consumeUnlock 0 7)) :: steps 1 4

/-- The second use moves the counter, and its usage row is refused. -/
theorem attempt_counted_twice : fiveUnits.Settled ∧
    ∃ c ∈ tracked.run .all (tracked.idle (.ofDb fiveUnits, [])) usedTwice,
      c.Quiescent ∧ c.store.1.db.used 0 = 2 ∧ c.store.1.db.held 0 = 1 ∧ ¬ UnitsExact c := by
  refine ⟨fiveUnits_settled, ?_⟩
  have hrun : (tracked.run .all (tracked.idle (.ofDb fiveUnits, [])) usedTwice).map
      (fun c => (decide c.Quiescent, c.store.1.db.used 0, c.store.1.db.held 0)) =
        some (true, 2, 1) := by
    decide +kernel
  obtain ⟨c, hc, heq⟩ := Option.map_eq_some_iff.1 hrun
  simp only [Prod.mk.injEq, decide_eq_true_eq] at heq
  obtain ⟨hquiet, hused, hheld⟩ := heq
  refine ⟨c, hc, hquiet, hused, hheld, fun h => ?_⟩
  have hdone : ¬ InProgress c 0 := by
    rintro ⟨i, op, hop, hdone, -⟩
    rw [hquiet op (mem_of_getElem? hop)] at hdone
    cases hdone
  have hexact := h.exact 0 hdone
  rw [hused, hheld] at hexact
  exact absurd hexact (by decide)

end Rabotka.Quotas
