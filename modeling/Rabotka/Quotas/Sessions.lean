import Rabotka.Lib.Tagged
import Rabotka.Quotas.Accounts

/-!
# Units between two statements

Using a unit takes two statements and so does giving one back. Between the two the counter of the
period is ahead of its usage rows by one, which is noted as owed by the process (`record`). Inside
a transaction nobody else sees this; outside one the committed database is ahead by exactly what
is owed by the processes that have no transaction open.

The condition on the interleaving, `recordsUsage`, is that the second of the two statements never
fails outside a transaction.
-/

namespace Rabotka.Quotas

open Async List

/-! ### What is owed -/

/-- The periods whose counter a process has moved ahead of the usage rows. -/
abbrev Owed := List (ℕ × ℕ)

def record (n : Owed) (i : ℕ) (c : Cmd) (a : Resp c) : Owed :=
  match c, a with
  | .stmt (.increment id _), true => (i, id) :: n
  | .stmt (.createUsage _ _), true => Tagged.drop n i
  | .stmt (.releaseUsage id _), true => (i, id) :: n
  | .stmt (.decrement _), _ => Tagged.drop n i
  | .rollback, _ => Tagged.drop n i
  | _, _ => n

/-- The service, with what its processes owe. -/
def tracked : Service (Store × Owed) Cmd Resp Request Env Exn :=
  service.withHistory record

/-- The condition on the interleaving: outside a transaction the usage row of a unit that was
just counted is not there yet, and neither its insert nor the decrement after a release throws. A
rollback takes effect even where the client does not hear of it. -/
def recordsUsage : Guard (Store × Owed) Cmd Request Env := fun s v =>
  match v with
  | .step i (.stmt (.createUsage _ target)) _ =>
    (s.1.session i).isSome || (s.1.db.usage target).isNone
  | .fault i (.stmt (.createUsage _ _)) => (s.1.session i).isSome
  | .fault i (.stmt (.decrement _)) => (s.1.session i).isSome
  | .fault _ .rollback => false
  | _ => true

/-- What the processes without a transaction owe to a period. -/
def outside (s : Store) (n : Owed) (k : ℕ) : ℕ :=
  n.countP fun x => (s.session x.1).isNone ∧ x.2 = k

section Owed

variable {s t : Store} {n n' : Owed} {i j : ℕ}

theorem of_record_of_ne (h : j ≠ i) (n : Owed) (c : Cmd) (a : Resp c) :
    Tagged.of (record n i c a) j = Tagged.of n j := by
  unfold record
  split
  all_goals first
    | rfl
    | exact Tagged.of_drop_of_ne h n
    | exact Tagged.of_cons_of_ne h n _

/-- The entries of one process among those of all. -/
theorem outside_eq (s : Store) (n : Owed) (i k : ℕ) :
    outside s n k = outside s (Tagged.drop n i) k +
      if (s.session i).isNone then (Tagged.of n i).count k else 0 := by
  induction n with
  | nil => simp [outside, Tagged.drop]
  | cons x n ih =>
    obtain ⟨j, m⟩ := x
    simp only [outside] at ih ⊢
    rw [countP_cons, ih]
    rcases eq_or_ne j i with rfl | hne
    · rw [Tagged.of_cons_self, count_cons]
      have hdrop : Tagged.drop ((j, m) :: n) j = Tagged.drop n j := by simp [Tagged.drop]
      rw [hdrop]
      by_cases hnone : (s.session j).isNone <;> by_cases hm : m = k <;> simp [hnone, hm, add_assoc]
    · rw [Tagged.of_cons_of_ne hne.symm]
      have hdrop : Tagged.drop ((j, m) :: n) i = (j, m) :: Tagged.drop n i := by
        simp [Tagged.drop, hne]
      rw [hdrop, countP_cons]
      exact add_right_comm _ _ _

theorem drop_record (n : Owed) (i : ℕ) (c : Cmd) (a : Resp c) :
    Tagged.drop (record n i c a) i = Tagged.drop n i := by
  unfold record
  split
  all_goals simp [Tagged.drop]

/-- What the others owe outside transactions stays the same in a step. -/
theorem outside_drop (h : ∀ j ≠ i, t.session j = s.session j) (n : Owed) (c : Cmd) (a : Resp c)
    (k : ℕ) : outside t (Tagged.drop (record n i c a) i) k = outside s (Tagged.drop n i) k := by
  rw [drop_record, outside, outside]
  refine countP_congr fun x hx => ?_
  have hne : x.1 ≠ i := of_decide_eq_true (mem_filter.1 hx).2
  rw [h x.1 hne]

end Owed

/-! ### Locks -/

/-- A write leaves what a lock protects alone. -/
def Write.Spares (w : Write) : Lock → Prop
  | .period id => w.used id = 0
  | .usage t => w.target ≠ some t
  | _ => True

/-- What a lock protects: the counter of a period, or the usage row of a target. -/
def observe : Lock → Db → ℤ × Option BusinessQuotaUsage
  | .period id, d => (d.used id, none)
  | .usage t, d => (0, d.usage t)
  | _, _ => (0, none)

theorem observe_applyAll {ws : List Write} {k : Lock} (d : Db) (h : ∀ w ∈ ws, w.Spares k) :
    observe k (engine.applyAll d ws) = observe k d := by
  induction ws generalizing d with
  | nil => rfl
  | cons w ws ih =>
    rw [ReadCommitted.Engine.applyAll_cons, ih _ fun v hv => h v (mem_cons_of_mem _ hv)]
    have hw := h w mem_cons_self
    cases k with
    | period id => exact Prod.ext (used_apply_of_zero d hw) rfl
    | usage t => exact Prod.ext rfl (usage_apply_of_ne hw)
    | _ => rfl

/-! ### What a statement writes -/

/-- The quota of a period's plan. -/
def Db.quotaOf (d : Db) (id : ℕ) : Option ℕ :=
  (d.planOf id).bind Subscriptions.Plan.unlocksPerPeriod

/-- How the owed units of a process change with a statement it issues. -/
def Stmt.owes (own : List ℕ) : (c : Stmt) → Answer c → List ℕ
  | .increment id _, true => id :: own
  | .createUsage _ _, true => []
  | .releaseUsage id _, true => id :: own
  | .decrement _, _ => []
  | _, _ => own

theorem of_record_stmt (n : Owed) (i : ℕ) (c : Stmt) (a : Answer c) :
    Tagged.of (record n i (.stmt c) a) i = c.owes (Tagged.of n i) a := by
  cases c with
  | increment | createUsage | releaseUsage => cases a <;> simp [record, Stmt.owes]
  | decrement id => simp [record, Stmt.owes]
  | _ => rfl

/-- When a process that owes `own` may issue a statement, on the state it sees. -/
def Stmt.Ready (own : List ℕ) (d : Db) : Stmt → Prop
  | .createUsage id _ => own = [id]
  | .decrement id => own = [id] ∧ 0 < d.used id
  | _ => True

/-- What the writes of a statement amount to. -/
structure Stmt.Effect (d : Db) (c : Stmt) (own own' : List ℕ) (ws : List Write)
    (locks : List Lock) : Prop where
  fits : Fits d ws
  spares : ∀ w ∈ ws, ∀ k ∉ locks, w.Spares k
  owed : ∀ k, usedBy ws k - heldBy ws k = (own'.count k : ℤ) - own.count k
  /-- Only a covered increment raises a counter. -/
  counts : ∀ k, 0 < usedBy ws k →
    ∃ quota, c = .increment k quota ∧ usedBy ws k = 1 ∧ ∀ q ∈ quota, d.used k < q

theorem Stmt.Effect.of_nil {d : Db} {c : Stmt} {own : List ℕ} {locks : List Lock} :
    c.Effect d own own [] locks where
  fits := trivial
  spares w hw := absurd hw not_mem_nil
  owed k := by simp [usedBy, heldBy]
  counts k h := absurd h (by simp [usedBy])

/-- Writes that touch no counter and no usage row. -/
theorem Stmt.Effect.of_uncounted {d : Db} {c : Stmt} {own : List ℕ} {ws : List Write}
    {locks : List Lock} (h : ∀ w ∈ ws, w.isCounted = false) : c.Effect d own own ws locks := by
  have hzero : ∀ w ∈ ws, ∀ k, w.used k = 0 ∧ w.held k = 0 ∧ w.target = none := by
    intro w hw k
    have hw' := h w hw
    cases w <;> first | exact ⟨rfl, rfl, rfl⟩ | cases hw'
  have hused : ∀ k, usedBy ws k = 0 := fun k => sum_eq_zero fun x hx => by
    obtain ⟨w, hw, rfl⟩ := mem_map.1 hx
    exact (hzero w hw k).1
  have hheld : ∀ k, heldBy ws k = 0 := fun k => sum_eq_zero fun x hx => by
    obtain ⟨w, hw, rfl⟩ := mem_map.1 hx
    exact (hzero w hw k).2.1
  refine ⟨.of_uncounted h, fun w hw k _ => ?_, fun k => ?_, fun k hk => ?_⟩
  · cases k with
    | period id => exact (hzero w hw id).1
    | usage t => simp [Write.Spares, (hzero w hw 0).2.2]
    | _ => trivial
  · rw [hused, hheld, sub_zero, sub_self]
  · rw [hused] at hk
    exact absurd hk (lt_irrefl 0)

/-- A single write, under the lock of what it changes. -/
theorem Stmt.Effect.of_one {d : Db} {c : Stmt} {own own' : List ℕ} {w : Write} {key : Lock}
    (hfits : w.Fits d) (hused : ∀ id, .period id ≠ key → w.used id = 0)
    (htarget : ∀ t, w.target = some t → .usage t = key)
    (howed : ∀ k, w.used k - w.held k = (own'.count k : ℤ) - own.count k)
    (hcounts : ∀ k, 0 < w.used k →
      ∃ quota, c = .increment k quota ∧ w.used k = 1 ∧ ∀ q ∈ quota, d.used k < q) :
    c.Effect d own own' [w] [key] := by
  have hsum : ∀ k, usedBy [w] k = w.used k := fun k => by simp [usedBy]
  refine ⟨⟨hfits, trivial⟩, fun v hv k hk => ?_, fun k => ?_, fun k hk => ?_⟩
  · obtain rfl := mem_singleton.1 hv
    rw [mem_singleton] at hk
    cases k with
    | period id => exact hused id hk
    | usage t => exact fun h => hk (htarget t h)
    | _ => trivial
  · rw [hsum, ← howed, heldBy, map_singleton, sum_singleton]
  · rw [hsum] at hk ⊢
    exact hcounts k hk

theorem uncounted_of_checked {written : Except Subscriptions.Exn Subscriptions.Db}
    {ws ws' : List Write} {locks locks' : List Lock} {a : Except Exn Unit}
    (h : checked written ws locks = some (a, ws', locks'))
    (hws : ∀ w ∈ ws, w.isCounted = false) : ∀ w ∈ ws', w.isCounted = false := by
  cases written with
  | ok _ =>
    obtain ⟨-, rfl, -⟩ := triple_inj h
    exact hws
  | error _ =>
    obtain ⟨-, rfl, -⟩ := triple_inj h
    exact fun w hw => by cases hw

/-- **What each statement writes.** -/
theorem engine_effect {d : Db} {c : Stmt} {ε : Env} {a : Answer c} {own : List ℕ}
    {ws : List Write} {locks : List Lock} (hrun : engine.run d c ε = some (a, ws, locks))
    (hready : c.Ready own d) : c.Effect d own (c.owes own a) ws locks := by
  cases c with
  | increment id quota =>
    simp only [engine] at hrun
    split_ifs at hrun with hmatch
    · obtain ⟨rfl, rfl, rfl⟩ := triple_inj hrun
      refine .of_one hmatch.1 (fun k hne => if_neg fun h : id = k => hne (h ▸ rfl))
        (fun _ h => by cases h) (fun k => ?_) fun k hk => ?_
      · simp only [Write.used, Write.held, Stmt.owes, count_cons, beq_iff_eq]
        push_cast
        omega
      · have hid : id = k := by
          by_contra hne
          simp [Write.used, hne] at hk
        subst hid
        refine ⟨quota, rfl, if_pos rfl, fun q hq => ?_⟩
        have hall := hmatch.2
        rw [Option.mem_def.1 hq] at hall
        exact of_decide_eq_true hall
    · obtain ⟨rfl, rfl, rfl⟩ := triple_inj hrun
      exact .of_nil
  | createUsage id target =>
    obtain rfl : own = [id] := hready
    simp only [engine] at hrun
    split_ifs at hrun with hmatch
    · obtain ⟨rfl, rfl, rfl⟩ := triple_inj hrun
      refine .of_one ⟨hmatch, rfl⟩ (fun _ _ => rfl) (fun _ h => by cases h; rfl) (fun k => ?_)
        fun k hk => absurd hk (lt_irrefl 0)
      simp only [Write.used, Write.held, Stmt.owes, count_cons, count_nil, beq_iff_eq]
      push_cast
      omega
    · obtain ⟨rfl, rfl, rfl⟩ := triple_inj hrun
      exact .of_nil
  | releaseUsage id target =>
    simp only [engine] at hrun
    split_ifs at hrun with hmatch
    · obtain ⟨rfl, rfl, rfl⟩ := triple_inj hrun
      refine .of_one hmatch (fun _ _ => rfl) (fun _ h => by cases h; rfl) (fun k => ?_)
        fun k hk => absurd hk (lt_irrefl 0)
      simp only [Write.used, Write.held, Stmt.owes, count_cons, beq_iff_eq]
      push_cast
      omega
    · obtain ⟨rfl, rfl, rfl⟩ := triple_inj hrun
      exact .of_nil
  | decrement id =>
    obtain ⟨rfl, hpos⟩ := hready
    simp only [engine, if_pos hpos] at hrun
    obtain ⟨rfl, rfl, rfl⟩ := triple_inj hrun
    have hid : id < d.periods.subscriptions.length := by
      by_contra hge
      simp [Db.used, getElem?_eq_none (not_lt.1 hge)] at hpos
    refine .of_one hid (fun k hne => if_neg fun h : id = k => hne (h ▸ rfl))
      (fun _ h => by cases h) (fun k => ?_) fun k hk => ?_
    · simp only [Write.used, Write.held, Stmt.owes, count_cons, count_nil, beq_iff_eq]
      push_cast
      omega
    · simp only [Write.used] at hk
      split_ifs at hk <;> omega
  | createAttempt id x =>
    have huncounted : ∀ w ∈ ws, w.isCounted = false := by
      intro w hw
      simp only [engine] at hrun
      split_ifs at hrun
      · obtain ⟨-, rfl, -⟩ := triple_inj hrun
        cases hw
      · obtain ⟨-, rfl, -⟩ := triple_inj hrun
        obtain rfl := mem_singleton.1 hw
        rfl
    exact .of_uncounted huncounted
  | updatePeriod id data | createPeriod r =>
    refine .of_uncounted (uncounted_of_checked hrun fun w hw => ?_)
    obtain rfl := mem_singleton.1 hw
    rfl
  | updatePeriods p data =>
    refine .of_uncounted (uncounted_of_checked hrun fun w hw => ?_)
    obtain ⟨id, -, rfl⟩ := mem_map.1 hw
    rfl
  | _ =>
    obtain ⟨rfl, rfl, rfl⟩ := triple_inj hrun
    exact .of_nil

end Rabotka.Quotas
