import Rabotka.Quotas.Books
import Rabotka.Subscriptions.Writes

/-!
# The quota operations keep to the books

A triple for every operation of the quota service, in a transaction of its caller or outside one.
The assertions say whether the process has a transaction open and what it owes: a call starts and
ends owing nothing, and where it throws it owes nothing either, unless it is in a transaction,
which the exception then rolls back.
-/

namespace Rabotka.Quotas

open Async Subscriptions List

/-! ### Assertions -/

/-- A process in a transaction of unlock calls or outside one, and what it owes. -/
structure Unlocking (i : ℕ) (tx : Bool) (own : List ℕ) (s : Store × Owed) : Prop where
  session : (s.1.session i).isSome = tx
  owed : Tagged.of s.2 i = own
  plain : ∀ u, s.1.session i = some u → ∀ w ∈ u.writes, w.isPeriod = false

/-- A process in a transaction that may have written periods, or outside one. -/
def Changing (i : ℕ) (tx : Bool) (s : Store × Owed) : Prop :=
  (s.1.session i).isSome = tx ∧ Tagged.of s.2 i = []

/-- A process that throws owes nothing, unless a rollback is to come. -/
def Thrown (i : ℕ) (tx : Bool) (s : Store × Owed) : Prop :=
  (s.1.session i).isSome = tx ∧ (tx = false → Tagged.of s.2 i = [])

/-- A period that is committed, with its quota. -/
def Known (id : ℕ) (quota : Option ℕ) (s : Store × Owed) : Prop :=
  id < s.1.db.periods.subscriptions.length ∧ s.1.db.quotaOf id = quota

/-- A statement that writes periods. -/
def Stmt.isPeriod : Stmt → Bool
  | .updatePeriod _ _ | .updatePeriods _ _ | .createPeriod _ => true
  | _ => false

section Specs

variable {i : ℕ} {tx : Bool} {own : List ℕ} {P : Store × Owed → Prop}

theorem Unlocking.changing {s : Store × Owed} (h : Unlocking i tx [] s) : Changing i tx s :=
  ⟨h.session, h.owed⟩

theorem Unlocking.thrown {s : Store × Owed} (h : Unlocking i tx [] s) : Thrown i tx s :=
  ⟨h.session, fun _ => h.owed⟩

theorem stable_unlocking : quotaService.Stable i (Unlocking i tx own) := by
  intro s t _ hst h
  refine ⟨?_, hst.owed.trans h.owed, fun u hu => h.plain u (hst.session.symm.trans hu)⟩
  rw [hst.session]
  exact h.session

theorem stable_changing : quotaService.Stable i (Changing i tx) := by
  intro s t _ hst h
  refine ⟨?_, hst.owed.trans h.2⟩
  rw [hst.session]
  exact h.1

theorem stable_thrown : quotaService.Stable i (Thrown i tx) := by
  intro s t _ hst h
  refine ⟨?_, fun htx => hst.owed.trans (h.2 htx)⟩
  rw [hst.session]
  exact h.1

theorem stable_knownPeriod {id : ℕ} {quota : Option ℕ} : quotaService.Stable i (Known id quota) :=
  fun _ _ _ hst h => ⟨h.1.trans_le hst.length, (hst.quotaOf id h.1).trans h.2⟩

/-! ### Statements -/

theorem engine_plain {d : Db} {c : Stmt} {ε : Env} {a : Answer c} {ws : List Write}
    {locks : List Lock} (hrun : engine.run d c ε = some (a, ws, locks))
    (hc : c.isPeriod = false) : ∀ w ∈ ws, w.isPeriod = false := by
  have hsplit : ∀ (p : Prop) [Decidable p] (o o' : Answer c × List Write × List Lock),
      (if p then some o else some o') = some (a, ws, locks) → ws = o.2.1 ∨ ws = o'.2.1 := by
    intro p _ o o' h
    split_ifs at h
    · exact .inl (congrArg (·.2.1) (Option.some.inj h)).symm
    · exact .inr (congrArg (·.2.1) (Option.some.inj h)).symm
  intro w hw
  cases c with
  | increment | createUsage | releaseUsage | decrement =>
    rcases hsplit _ _ _ hrun with rfl | rfl
    · obtain rfl := mem_singleton.1 hw
      rfl
    · cases hw
  | createAttempt id x =>
    rcases hsplit _ _ _ hrun with rfl | rfl
    · cases hw
    · obtain rfl := mem_singleton.1 hw
      rfl
  | updatePeriod | updatePeriods | createPeriod => cases hc
  | _ =>
    obtain ⟨-, rfl, -⟩ := triple_inj hrun
    cases hw

/-- What a statement does to the transaction of its process. -/
theorem session_of_stmt {s t : Store × Owed} {c : Stmt} {ε : Env} {a : Answer c}
    (hexec : tracked.exec s i (.stmt c) ε = some (t, a)) :
    ∃ ws locks, engine.run (s.1.view engine i) c ε = some (a, ws, locks) ∧
      (t.1.session i).isSome = (s.1.session i).isSome ∧
      Tagged.of t.2 i = c.owes (Tagged.of s.2 i) a ∧
      ∀ u, t.1.session i = some u → ∃ v, s.1.session i = some v ∧ u.writes = v.writes ++ ws := by
  obtain ⟨hstep, hnotes⟩ := exec_tracked.1 hexec
  obtain ⟨ws, locks, hrun, -, ⟨v, hv, ht⟩ | ⟨hnone, ht⟩⟩ := ReadCommitted.Store.exec_stmt hstep
  · refine ⟨ws, locks, hrun, ?_, ?_, fun u hu => ⟨v, hv, ?_⟩⟩
    · rw [ht, ReadCommitted.Store.session_put_self, hv]
      rfl
    · rw [hnotes, of_record_stmt]
    · rw [ht, ReadCommitted.Store.session_put_self] at hu
      obtain rfl := Option.some.inj hu
      rfl
  · refine ⟨ws, locks, hrun, ?_, ?_, fun u hu => ?_⟩
    · rw [ht]
      rfl
    · rw [hnotes, of_record_stmt]
    · rw [ht] at hu
      exact absurd (hnone.symm.trans hu) (by simp)

/-- A statement of an unlock call; `R` is what it makes known besides. -/
theorem query_spec (c : Stmt) (own : List ℕ) {R : Answer c → Store × Owed → Prop}
    (hc : c.isPeriod = false) (hP : ∀ s, P s → Unlocking i tx own s)
    (hstable : quotaService.Stable i P) (hpre : ∀ s, P s → Pre i s (.stmt c))
    (hfault : ∀ s, P s → recordsUsage s (.fault i (.stmt c)) → tx = false → own = [])
    (hR : ∀ s ε t a, P s → recordsUsage s (.step i (.stmt c) ε) →
      tracked.exec s i (.stmt c) ε = some (t, a) → R a t) :
    quotaService.Triple i P (query c) (fun a s => Unlocking i tx (c.owes own a) s ∧ R a s)
      (fun _ => Thrown i tx) := by
  refine Discipline.Triple.cmd hstable (fun s _ h => hpre s h)
    (fun s ε t a _ h hg hexec _ => ⟨?_, hR s ε t a h hg hexec⟩) (fun s e hg _ h => ?_)
  · have hs := hP s h
    obtain ⟨ws, locks, hrun, hsome, howed, hwrites⟩ := session_of_stmt hexec
    refine ⟨hsome.trans hs.session, ?_, fun u hu w hw => ?_⟩
    · rw [howed, hs.owed]
    · obtain ⟨v, hv, huv⟩ := hwrites u hu
      rw [huv] at hw
      rcases mem_append.1 hw with hw | hw
      · exact hs.plain v hv w hw
      · exact engine_plain hrun hc w hw
  · have hs := hP s h
    exact ⟨hs.session, fun htx => hs.owed.trans (hfault s h hg htx)⟩

/-- A statement that asks for nothing, of a process that owes nothing. -/
theorem query_plain (c : Stmt) (hc : c.isPeriod = false)
    (hpre : ∀ s, Unlocking i tx [] s → Pre i s (.stmt c)) :
    quotaService.Triple i (Unlocking i tx []) (query c)
      (fun a => Unlocking i tx (c.owes [] a)) (fun _ => Thrown i tx) :=
  (query_spec c [] (R := fun _ _ => True) hc (fun _ h => h) stable_unlocking hpre
    (fun _ _ _ _ => rfl) fun _ _ _ _ _ _ _ => trivial).post_mono (fun _ _ _ h => h.1)
    fun _ _ _ h => h

/-- A statement of a change of periods. -/
theorem query_changing (c : Stmt) (hpre : ∀ s, Changing i tx s → Pre i s (.stmt c))
    (howes : ∀ a, c.owes [] a = []) :
    quotaService.Triple i (Changing i tx) (query c) (fun _ => Changing i tx)
      (fun _ => Thrown i tx) := by
  refine Discipline.Triple.cmd stable_changing (fun s _ h => hpre s h)
    (fun s ε t a _ h _ hexec _ => ?_) (fun s e _ _ h => ⟨h.1, fun _ => h.2⟩)
  obtain ⟨ws, locks, -, hsome, howed, -⟩ := session_of_stmt hexec
  refine ⟨hsome.trans h.1, ?_⟩
  rw [howed, h.2, howes]

/-- Writes that are not to the periods leave their number alone. -/
theorem length_applyAll {d : Db} {ws : List Write} (h : ∀ w ∈ ws, w.isPeriod = false) :
    (engine.applyAll d ws).periods.subscriptions.length = d.periods.subscriptions.length := by
  induction ws generalizing d with
  | nil => rfl
  | cons w ws ih =>
    have hw := h w mem_cons_self
    have hlength : (d.apply w).periods.subscriptions.length = d.periods.subscriptions.length := by
      cases w with
      | increment id | decrement id => simp [Db.apply, Db.count]
      | updatePeriod id data => simp [Db.apply]
      | createPeriod r => cases hw
      | _ => rfl
    exact (ih fun v hv => h v (mem_cons_of_mem _ hv)).trans hlength

variable {now : ℤ}

theorem current_eq_some {d : Db} {businessId id : ℕ} {quota : Option ℕ}
    (h : d.current businessId now = some (id, quota)) :
    id < d.periods.subscriptions.length ∧ d.quotaOf id = quota := by
  obtain ⟨⟨id', r⟩, hcurrent, hrest⟩ := Option.bind_eq_some_iff.1 h
  obtain ⟨plan, hplan, hpair⟩ := Option.bind_eq_some_iff.1 hrest
  obtain ⟨rfl, rfl⟩ := pair_inj hpair
  obtain ⟨hrow, -⟩ := mem_find.1 (mem_of_mem_head? hcurrent)
  refine ⟨(List.getElem?_eq_some_iff.1 hrow).1, ?_⟩
  rw [Db.quotaOf, hplan]
  rfl

/-- The current period is committed, and its plan stays. -/
theorem current_spec {businessId : ℕ} :
    quotaService.Triple i (Unlocking i tx []) (query (.current businessId))
      (fun a s => Unlocking i tx [] s ∧ ∀ id quota, a = some (id, quota) → Known id quota s)
      (fun _ => Thrown i tx) := by
  refine query_spec (.current businessId) [] rfl (fun _ h => h) stable_unlocking
    (fun _ _ => trivial) (fun _ _ _ _ => rfl) fun s ε t a h _ hexec id quota ha => ?_
  obtain ⟨hstep, -⟩ := exec_tracked.1 hexec
  obtain ⟨ws, locks, hrun, -, hcase⟩ := ReadCommitted.Store.exec_stmt hstep
  obtain ⟨hanswer, rfl, -⟩ := triple_inj hrun
  -- the statement writes nothing, and the transaction has written no periods
  have hdb : t.1.db = s.1.db := by
    rcases hcase with ⟨u, -, ht⟩ | ⟨-, ht⟩ <;> rw [ht] <;> rfl
  obtain ⟨hlt, hquota⟩ := current_eq_some (hanswer.trans ha)
  unfold ReadCommitted.Store.view at hlt hquota
  rw [Known, hdb]
  cases hu : s.1.session i with
  | none =>
    simp only [hu] at hlt hquota
    exact ⟨hlt, hquota⟩
  | some u =>
    simp only [hu] at hlt hquota
    rw [length_applyAll (h.plain u hu)] at hlt
    rw [quotaOf_applyAll u.writes hlt] at hquota
    exact ⟨hlt, hquota⟩

/-! ### Units -/

/-- The usage row of a unit that was just counted: outside a transaction it is created. -/
theorem createUsage_spec {id : ℕ} {target : Target} :
    quotaService.Triple i (Unlocking i tx [id]) (query (.createUsage id target))
      (fun created s => Unlocking i tx (Stmt.owes [id] (.createUsage id target) created) s ∧
        (tx = false → created = true))
      (fun _ => Thrown i tx) := by
  refine query_spec (.createUsage id target) [id] rfl (fun _ h => h) stable_unlocking
    (fun _ h => h.owed) (fun s h hg htx => ?_) fun s ε t a h hg hexec htx => ?_
  · have hsome : (s.1.session i).isSome = true := hg
    rw [h.session, htx] at hsome
    cases hsome
  · have hsession := h.session
    rw [htx, Option.isSome_eq_false_iff, Option.isNone_iff_eq_none] at hsession
    obtain ⟨hstep, -⟩ := exec_tracked.1 hexec
    obtain ⟨ws, locks, hrun, -⟩ := ReadCommitted.Store.exec_stmt hstep
    have hfree : s.1.db.usage target = none := by
      simpa [recordsUsage, hsession] using hg
    simp only [ReadCommitted.Store.view, hsession, engine, hfree, if_true] at hrun
    exact (congrArg Prod.fst (Option.some.inj hrun)).symm

theorem consume_spec {p : ℕ} {target : Target} :
    quotaService.Triple i (Unlocking i tx []) (consume p target)
      (fun _ => Unlocking i tx []) (fun _ => Thrown i tx) := by
  refine Discipline.Triple.bind (query_plain (.businessOf p) rfl fun _ _ => trivial)
    fun business => ?_
  cases business with
  | none => exact Discipline.Triple.ret fun _ _ h => h
  | some businessId =>
    refine Discipline.Triple.bind current_spec fun period => ?_
    cases period with
    | none => exact Discipline.Triple.ret fun _ _ h => h.1
    | some x =>
      obtain ⟨id, quota⟩ := x
      have hcount : quotaService.Triple i (fun s => Unlocking i tx [] s ∧ Known id quota s)
          (query (.increment id quota))
          (fun counted s => Unlocking i tx (Stmt.owes [] (.increment id quota) counted) s ∧ True)
          (fun _ => Thrown i tx) :=
        query_spec (.increment id quota) [] rfl (fun _ h => h.1)
          (stable_unlocking.and stable_knownPeriod) (fun _ h => h.2) (fun _ _ _ _ => rfl)
          fun _ _ _ _ _ _ _ => trivial
      refine Discipline.Triple.bind (hcount.pre_mono fun s _ h => ⟨h.1, h.2 id quota rfl⟩)
        fun counted => ?_
      cases counted with
      | false => exact Discipline.Triple.ret fun _ _ h => h.1
      | true =>
        refine Discipline.Triple.bind (createUsage_spec.pre_mono fun _ _ h => h.1) fun created => ?_
        cases created with
        | true => exact Discipline.Triple.ret fun _ _ h => h.1
        | false =>
          refine Discipline.Triple.fail fun s _ h => ⟨h.1.session, fun htx => ?_⟩
          cases h.2 htx

theorem releaseUnlock_spec {a : ℕ} : quotaService.Triple i (Unlocking i tx []) (releaseUnlock a)
      (fun _ => Unlocking i tx []) (fun _ => Thrown i tx) := by
  refine Discipline.Triple.bind (query_plain (.findUsage (.attempt a)) rfl fun _ _ => trivial)
    fun found => ?_
  cases found with
  | none => exact Discipline.Triple.ret fun _ _ h => h
  | some usage =>
    dsimp only
    split_ifs with hreleased
    · exact Discipline.Triple.ret fun _ _ h => h
    refine Discipline.Triple.bind (query_plain
      (.releaseUsage usage.subscriptionId usage.target) rfl fun _ _ => trivial) fun released => ?_
    cases released with
    | false => exact Discipline.Triple.ret fun _ _ h => h
    | true =>
      have hdecrement : quotaService.Triple i (Unlocking i tx [usage.subscriptionId])
          (query (.decrement usage.subscriptionId)) (fun _ s => Unlocking i tx [] s ∧ True)
          (fun _ => Thrown i tx) := by
        refine query_spec (.decrement usage.subscriptionId) [usage.subscriptionId] rfl
          (fun _ h => h) stable_unlocking (fun _ h => h.owed) (fun s h hg htx => ?_)
          fun _ _ _ _ _ _ _ => trivial
        have hsome : (s.1.session i).isSome = true := hg
        rw [h.session, htx] at hsome
        cases hsome
      exact Discipline.Triple.bind hdecrement fun _ => Discipline.Triple.ret fun _ _ h => h.1

theorem refundEmployerSide_spec {a amount : ℕ} :
    quotaService.Triple i (Unlocking i tx []) (refundEmployerSide a amount)
      (fun _ => Unlocking i tx []) (fun _ => Thrown i tx) := by
  refine Discipline.Triple.bind releaseUnlock_spec fun released => ?_
  cases released <;> exact Discipline.Triple.ret fun _ _ h => h

theorem createAttempt_spec {a : ℕ} {x : Hiring.ContactUnlockAttempt} {coveredByPlan : Bool} :
    quotaService.Triple i (Unlocking i tx []) (createAttempt tx a x coveredByPlan)
      (fun _ => Unlocking i tx []) (fun _ => Thrown i tx) := by
  -- a refused or failed insert leaves the process owing nothing
  refine Discipline.Triple.orElseCatch (Y := fun _ => Unlocking i tx []) ?_ fun e => ?_
  · refine Discipline.Triple.bind (R := fun _ => Unlocking i tx []) (Discipline.Triple.cmd
      stable_unlocking (fun _ _ _ => trivial) (fun s ε t created hinv h hg hexec ht => ?_)
      fun _ _ _ _ h => h) fun created => ?_
    · have hplain := query_plain (.createAttempt a x) rfl (fun _ _ => trivial) s hinv h
      exact (hplain s hinv (quotaService.rely_refl i s)).2.2 ε t created hg hexec ht
    · cases created with
      | true => exact Discipline.Triple.ret fun _ _ h => h
      | false => exact Discipline.Triple.fail fun _ _ h => h
  · by_cases hback : (coveredByPlan && !tx) = true
    · simp only [hback, if_true]
      have htx : tx = false := by
        cases tx <;> simp at hback ⊢
      refine Discipline.Triple.bind (R := fun _ => Thrown i tx) ?_ fun _ =>
        Discipline.Triple.fail fun _ _ h => h
      refine Discipline.Triple.orElseCatch (Y := fun _ => Thrown i tx) ?_ fun _ =>
        Discipline.Triple.ret fun _ _ h => h
      exact Discipline.Triple.bind releaseUnlock_spec fun _ =>
        Discipline.Triple.ret fun _ _ h => h.thrown
    · simp only [hback]
      exact Discipline.Triple.fail fun _ _ h => h.thrown

theorem initiateUnlock_spec {application employer a : ℕ} :
    quotaService.Triple i (Unlocking i tx []) (initiateUnlock tx application employer a)
      (fun _ => Unlocking i tx []) (fun _ => Thrown i tx) := by
  have hthrow : ∀ e : Exn, quotaService.Triple i (Unlocking i tx []) (throw e : Prog Unit)
      (fun _ => Unlocking i tx []) (fun _ => Thrown i tx) :=
    fun e => Discipline.Triple.fail fun _ _ h => h.thrown
  refine Discipline.Triple.bind (query_plain (.findAttempt application) rfl fun _ _ => trivial)
    fun existing => ?_
  cases existing with
  | some x => exact Discipline.Triple.ret fun _ _ h => h
  | none =>
    refine Discipline.Triple.bind (query_plain (.findApplication application) rfl
      fun _ _ => trivial) fun found => ?_
    cases found with
    | none => exact hthrow _
    | some app =>
      refine Discipline.Triple.bind (query_plain (.findOffer app.jobOfferId) rfl
        fun _ _ => trivial) fun found => ?_
      cases found with
      | none => exact hthrow _
      | some offer =>
        by_cases hdeleted : offer.deleted
        · simp only [hdeleted, if_true]
          exact hthrow _
        simp only [hdeleted, Bool.false_eq_true, if_false]
        refine Discipline.Triple.bind (query_plain .getContactUnlockFees rfl fun _ _ => trivial)
          fun fees => ?_
        by_cases hcovers : offer.coversEmployer
        · simp only [hcovers, if_true]
          exact createAttempt_spec
        · simp only [hcovers, Bool.false_eq_true, if_false]
          exact Discipline.Triple.bind consume_spec fun _ => createAttempt_spec

/-- A call, in a transaction of its caller or outside one. -/
theorem perform_spec (call : Call) : quotaService.Triple i (Unlocking i tx []) (call.perform tx)
      (fun _ => Unlocking i tx []) (fun _ => Thrown i tx) := by
  cases call with
  | consumeUnlock | consumeDirectUnlock =>
    exact Discipline.Triple.bind consume_spec fun _ => Discipline.Triple.ret fun _ _ h => h
  | releaseUnlock a =>
    exact Discipline.Triple.bind releaseUnlock_spec fun _ => Discipline.Triple.ret fun _ _ h => h
  | refundEmployerSide a amount =>
    exact Discipline.Triple.bind refundEmployerSide_spec fun _ =>
      Discipline.Triple.ret fun _ _ h => h
  | initiateUnlock application employer a => exact initiateUnlock_spec

/-! ### Transactions -/

theorem begin_spec :
    quotaService.Triple i (quotaService.idle i) (ReadCommitted.issue .begin : Prog Unit)
      (fun _ => Unlocking i true []) (fun _ => quotaService.idle i) := by
  refine Discipline.Triple.cmd Discipline.stable_idle (fun s _ h => h.2)
    (fun s ε t a _ h _ hexec _ => ?_) fun _ _ _ _ h => h
  obtain ⟨hstep, hnotes⟩ := exec_tracked.1 hexec
  obtain ⟨-, ht⟩ := ReadCommitted.Store.exec_begin hstep
  have hsession : t.1.session i = some ⟨[], []⟩ := by
    rw [ht, ReadCommitted.Store.session_put_self]
  refine ⟨?_, ?_, fun u hu w hw => ?_⟩
  · rw [hsession]
    rfl
  · rw [hnotes]
    exact h.2
  · obtain rfl := Option.some.inj (hu.symm.trans hsession)
    cases hw

theorem commit_spec :
    quotaService.Triple i (Changing i true) (ReadCommitted.issue .commit : Prog Unit)
      (fun _ => quotaService.idle i) (fun _ => Thrown i true) := by
  refine Discipline.Triple.cmd stable_changing (fun s _ h => h.2)
    (fun s ε t a _ h _ hexec _ => ?_) fun _ _ _ _ h => ⟨h.1, fun _ => h.2⟩
  obtain ⟨hstep, hnotes⟩ := exec_tracked.1 hexec
  obtain ⟨u, -, ht⟩ := ReadCommitted.Store.exec_commit hstep
  refine ⟨?_, ?_⟩
  · rw [ht]
    exact ReadCommitted.Store.session_close_self s.1 i
  · rw [hnotes]
    exact h.2

theorem rollback_spec :
    quotaService.Triple i (Thrown i true) (ReadCommitted.issue .rollback : Prog Unit)
      (fun _ => quotaService.idle i) (fun _ => quotaService.idle i) := by
  refine Discipline.Triple.cmd stable_thrown (fun s _ h => Option.isSome_iff_exists.1 h.1)
    (fun s ε t a _ _ _ hexec _ => ?_) fun _ _ hg => nomatch hg
  obtain ⟨hstep, hnotes⟩ := exec_tracked.1 hexec
  have ht := ReadCommitted.Store.exec_rollback hstep
  refine ⟨?_, ?_⟩
  · rw [ht]
    exact ReadCommitted.Store.session_close_self s.1 i
  · rw [hnotes]
    exact Tagged.of_drop_self _ _

theorem transaction_spec {body : Prog Unit}
    (hbody : quotaService.Triple i (Unlocking i true []) body (fun _ => Changing i true)
      (fun _ => Thrown i true)) :
    quotaService.Triple i (quotaService.idle i) (ReadCommitted.transaction body)
      (fun _ => quotaService.idle i) (fun _ => quotaService.idle i) := by
  refine Discipline.Triple.bind begin_spec fun _ => ?_
  refine Discipline.Triple.orElseCatch (Y := fun _ => Thrown i true) ?_ fun e => ?_
  · exact Discipline.Triple.bind hbody fun _ => Discipline.Triple.bind commit_spec fun _ =>
      Discipline.Triple.ret fun _ _ h => h
  · exact Discipline.Triple.bind rollback_spec fun _ => Discipline.Triple.fail fun _ _ h => h

/-! ### Periods -/

/-- A statement of a change of periods, and what follows it. -/
theorem bind_changing {c : Stmt} {f : Answer c → Prog Unit} {Q : Unit → Store × Owed → Prop}
    (hpre : ∀ s, Changing i tx s → Pre i s (.stmt c)) (howes : ∀ a, c.owes [] a = [])
    (hf : ∀ a, quotaService.Triple i (Changing i tx) (f a) Q fun _ => Thrown i tx) :
    quotaService.Triple i (Changing i tx) ((query c).bind f) Q fun _ => Thrown i tx :=
  Discipline.Triple.bind (query_changing c hpre howes) hf

theorem orThrow_spec {o : Except Exn Unit} :
    quotaService.Triple i (Changing i tx) (orThrow o) (fun _ => Changing i tx)
      (fun _ => Thrown i tx) := by
  cases o with
  | ok _ => exact Discipline.Triple.ret fun _ _ h => h
  | error e => exact Discipline.Triple.fail fun _ _ h => ⟨h.1, fun _ => h.2⟩

theorem moveQueued_spec {shift : ℤ} {queued : List (ℕ × Subscription)} :
    quotaService.Triple i (Changing i tx) (moveQueued shift queued)
      (fun _ => Changing i tx) (fun _ => Thrown i tx) :=
  Discipline.Triple.forM fun _ _ =>
    bind_changing (fun _ _ => trivial) (fun _ => rfl) fun _ => orThrow_spec

theorem cancelTrial_spec {b : ℕ} : quotaService.Triple i (Changing i tx) (cancelTrial b now)
      (fun _ => Changing i tx) (fun _ => Thrown i tx) := by
  refine bind_changing (fun _ _ => trivial) (fun _ => rfl) fun trials => ?_
  cases trials.head? with
  | none => exact Discipline.Triple.ret fun _ _ h => h
  | some x => exact bind_changing (fun _ _ => trivial) (fun _ => rfl) fun _ => orThrow_spec

variable {period : BillingPeriod}

theorem replacePeriod_spec {b planId : ℕ} {plan : Plan}
    {origin : Origin} {id : ℕ} {running : Subscription} {runningPlan : Plan} :
    quotaService.Triple i (Changing i tx)
      (replacePeriod b planId plan period origin now id running runningPlan)
      (fun _ => Changing i tx) (fun _ => Thrown i tx) := by
  refine bind_changing (fun _ _ => trivial) (fun _ => rfl) fun _ => ?_
  refine Discipline.Triple.bind orThrow_spec fun _ => ?_
  refine bind_changing (fun _ _ => trivial) (fun _ => rfl) fun queued => ?_
  refine Discipline.Triple.bind moveQueued_spec fun _ => ?_
  exact bind_changing (fun _ _ => trivial) (fun _ => rfl) fun _ => orThrow_spec

theorem queuePeriod_spec {b planId : ℕ} {origin : Origin} :
    quotaService.Triple i (Changing i tx) (queuePeriod b planId period origin now)
      (fun _ => Changing i tx) (fun _ => Thrown i tx) :=
  bind_changing (fun _ _ => trivial) (fun _ => rfl) fun _ =>
    bind_changing (fun _ _ => trivial) (fun _ => rfl) fun _ => orThrow_spec

theorem createPeriod_spec {b planId : ℕ} {origin : Origin} :
    quotaService.Triple i (quotaService.idle i) (createPeriod b planId period origin now)
      (fun _ => quotaService.idle i) (fun _ => quotaService.idle i) := by
  have hidle : ∀ s, quotaService.idle i s ↔ Changing i false s := by
    intro s
    exact and_congr_left fun _ => by simp
  refine Discipline.Triple.bind (R := fun _ => quotaService.idle i) ?_ fun found => ?_
  · exact ((query_changing (.findPlan planId) (fun _ _ => trivial) fun _ => rfl).pre_mono
      fun s _ h => (hidle s).1 h).post_mono (fun _ s _ h => (hidle s).2 h)
      fun _ s _ h => (hidle s).2 ⟨h.1, h.2 rfl⟩
  cases found with
  | none => exact Discipline.Triple.ret fun _ _ h => h
  | some plan =>
    dsimp only
    split_ifs with hdeleted
    · exact Discipline.Triple.ret fun _ _ h => h
    refine transaction_spec (Discipline.Triple.pre_mono ?_ fun _ _ h => h.changing)
    refine Discipline.Triple.bind cancelTrial_spec fun _ => ?_
    refine bind_changing (fun _ _ => trivial) (fun _ => rfl) fun running => ?_
    cases running with
    | none => exact queuePeriod_spec
    | some x =>
      dsimp only
      split_ifs with hreplace
      · exact replacePeriod_spec
      · exact queuePeriod_spec

theorem startQueuedNow_spec {b id : ℕ} :
    quotaService.Triple i (quotaService.idle i) (startQueuedNow b id now)
      (fun _ => quotaService.idle i) (fun _ => quotaService.idle i) := by
  refine transaction_spec (Discipline.Triple.pre_mono ?_ fun _ _ h => h.changing)
  have hthrow : ∀ e : Exn, quotaService.Triple i (Changing i true) (throw e : Prog Unit)
      (fun _ => Changing i true) (fun _ => Thrown i true) :=
    fun e => Discipline.Triple.fail fun _ _ h => ⟨h.1, fun _ => h.2⟩
  refine bind_changing (fun _ _ => trivial) (fun _ => rfl) fun queued => ?_
  cases queued with
  | nil => exact hthrow _
  | cons x later =>
    dsimp only
    by_cases hid : x.1 = id
    swap
    · simp only [ne_eq, hid, not_false_eq_true, if_true]
      exact hthrow _
    simp only [ne_eq, hid, not_true_eq_false, if_false]
    refine bind_changing (fun _ _ => trivial) (fun _ => rfl) fun _ => ?_
    refine Discipline.Triple.bind orThrow_spec fun _ => ?_
    refine Discipline.Triple.bind moveQueued_spec fun _ => ?_
    exact bind_changing (fun _ _ => trivial) (fun _ => rfl) fun _ => orThrow_spec

/-! ### The service -/

/-- Every request keeps to the books. -/
theorem handles_quotas : Discipline.Handles tracked quotaService := by
  intro r i s hs _ hidle
  have hstart : ∀ s, quotaService.idle i s → Unlocking i false [] s := by
    intro s h
    refine ⟨by rw [h.1]; rfl, h.2, fun u hu => ?_⟩
    rw [h.1] at hu
    cases hu
  have hend : ∀ s, Thrown i false s → quotaService.idle i s := by
    intro s h
    exact ⟨Option.isNone_iff_eq_none.1 (Option.isSome_eq_false_iff.1 h.1), h.2 rfl⟩
  cases r with
  | call c =>
    exact (((perform_spec c).pre_mono fun s _ h => hstart s h).post_mono
      (fun _ s _ h => hend s h.thrown) fun _ s _ h => hend s h) s hs hidle
  | inTransaction cs =>
    refine transaction_spec ((Discipline.Triple.forM fun c _ => perform_spec c).post_mono
      (fun _ _ _ h => h.changing) fun _ _ _ h => h) s hs hidle
  | createPeriod b planId period origin now => exact createPeriod_spec s hs hidle
  | startQueuedNow b id now => exact startQueuedNow_spec s hs hidle

end Specs

end Rabotka.Quotas
