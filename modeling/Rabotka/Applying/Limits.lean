import Rabotka.Applying.Rules

/-!
# A worker applies once, within the limit of the day, and never after walking away

In orderly runs that start without applications no two that are not cancelled are of one pair, no
application is made to an offer that its worker has walked away from, no day has more than its
limit, and the index refuses an application that the rule admits only where another operation has
come between (`applications_kept`).

`applications_lost` shows what happens otherwise: the rule does not see what is archived and the
index does, and both reads come before the offer is locked.
-/

namespace Rabotka.Applying

open Async Trace List

variable {s : Setting} {i jobOfferId workerId : ℕ} {w v : World} {x : State} {ε : Env} {e : Step}
  {l : Log} {c : Cmd}

/-! ### What is promised -/

/-- The worker of the pair walks away from an application that is not archived. -/
def walks (jobOfferId workerId : ℕ) : Step → Bool
  | ⟨_, w, .cancel id .worker, true⟩ =>
    (w.applications[id]?).any fun r => r.isOf jobOfferId workerId && !r.deleted
  | _ => false

/-- The step puts an application of the pair into the table. -/
def inserts (jobOfferId workerId : ℕ) : Step → Bool
  | ⟨_, _, .insert o w, .row _⟩ => o = jobOfferId && w = workerId
  | _ => false

/-- The index refuses the application of the step. -/
def refuses : Step → Bool
  | ⟨_, _, .insert _ _, .taken⟩ => true
  | _ => false

/-- No two rows of the index are of one pair. -/
def Unique (w : World) : Prop :=
  ∀ (a b : ℕ) (r r' : Application), w.applications[a]? = some r → w.applications[b]? = some r' →
    r.isOf r'.jobOfferId r'.workerId → r.indexed → r'.indexed → a = b

/-- What is promised about a run. -/
structure Limited (s : Setting) (x : State) : Prop where
  unique : Unique x.1
  never : Every (fun e older => ∀ jobOfferId workerId, inserts jobOfferId workerId e →
    ∀ z ∈ older, walks jobOfferId workerId z = false) x.2
  days : ∀ workerId day,
    x.1.applications.countP (Application.ofDay workerId day) ≤ s.maxDailyApplications
  accepted : Every (fun e older => refuses e → alone older e.proc = false) x.2

/-! ### What one step changes -/

/-- A row stays that of its pair and of its time, and who has cancelled it stays. -/
structure Application.Keeps (r r' : Application) : Prop where
  jobOfferId : r'.jobOfferId = r.jobOfferId
  workerId : r'.workerId = r.workerId
  createdAt : r'.createdAt = r.createdAt
  cancelledBy : r.cancelledBy ≠ none → r'.cancelledBy = r.cancelledBy

theorem Application.Keeps.refl (r : Application) : r.Keeps r := ⟨rfl, rfl, rfl, fun _ => rfl⟩

theorem Application.Keeps.trans {r r' r'' : Application} (h : r.Keeps r') (h' : r'.Keeps r'') :
    r.Keeps r'' where
  jobOfferId := h'.jobOfferId.trans h.jobOfferId
  workerId := h'.workerId.trans h.workerId
  createdAt := h'.createdAt.trans h.createdAt
  cancelledBy hne := by
    have heq := h.cancelledBy hne
    exact (h'.cancelledBy (by rwa [heq])).trans heq

theorem Application.Keeps.isOf {r r' : Application} (h : r.Keeps r') :
    r'.isOf jobOfferId workerId = r.isOf jobOfferId workerId := by
  rw [Application.isOf, Application.isOf, h.jobOfferId, h.workerId]

/-- A cancelled row says by whom, and no row is of a time to come. -/
structure Application.Sound (now : ℤ) (r : Application) : Prop where
  stamped : r.status = .cancelled → r.cancelledBy ≠ none
  past : r.createdAt ≤ now

/-- A step leaves the table, inserts a row or changes one. -/
inductive Changes (w : World) : Cmd → World → Prop
  | still {c : Cmd} : Changes w c w
  | inserted {jobOfferId workerId : ℕ}
      (hfree : ∀ r ∈ w.pair jobOfferId workerId, r.indexed = false) :
      Changes w (.insert jobOfferId workerId)
        { w with applications := w.applications ++ [{ jobOfferId, workerId, createdAt := w.now }] }
  | updated {c : Cmd} {id : ℕ} {f : Application → Application} (hc : c.isRead = false)
      (hkeeps : ∀ r, w.applications[id]? = some r → r.Keeps (f r))
      (hstamped : ∀ r, (f r).status = .cancelled → (f r).cancelledBy ≠ none ∨ r.status = .cancelled)
      (hindexed : ∀ r, w.applications[id]? = some r → (f r).indexed → r.indexed ∨
        ∀ r' ∈ w.applications, r'.isOf r.jobOfferId r.workerId → r'.indexed = false) :
      Changes w c { w with applications := Table.update w.applications id f }
  | elapsed {milliseconds : ℕ} :
      Changes w (.elapse milliseconds) { w with now := w.now + milliseconds }

/-- A cancellation finds the application or answers that it does not. -/
theorem exec_cancel (s : Setting) (w : World) (ε : Env) (id : ℕ)
    (cancelledBy : ApplicationCancelledBy) :
    (∃ r, w.applications[id]? = some r ∧ r.indexed ∧ exec s w ε (.cancel id cancelledBy) =
      ({ w with applications := Table.update w.applications id (.cancelled cancelledBy) }, true)) ∨
    exec s w ε (.cancel id cancelledBy) = (w, false) := by
  cases hrow : cancelRow w.applications id cancelledBy with
  | none => exact .inr (by simp [exec, hrow])
  | some t =>
    obtain ⟨r, hr, hindexed, rfl⟩ := Table.claim_eq_some.1 hrow
    refine .inl ⟨r, hr, hindexed, ?_⟩
    rw [Table.update_of_some hr]
    simp [exec, hrow]

/-- A rejection is written where the index admits it. -/
theorem exec_reject (s : Setting) (w : World) (ε : Env) (id : ℕ) :
    (∃ r, w.applications[id]? = some r ∧ (r.indexed ∨ ∀ r' ∈ w.applications,
        r'.isOf r.jobOfferId r.workerId → r'.indexed = false) ∧ exec s w ε (.reject id) =
      ({ w with applications := Table.update w.applications id fun r =>
        { r with status := .rejected } }, true)) ∨
    exec s w ε (.reject id) = (w, false) := by
  cases hrow : rejectRow w.applications id with
  | none => exact .inr (by simp [exec, hrow])
  | some t =>
    obtain ⟨r, hr, hmay, rfl⟩ := Table.claim_eq_some.1 hrow
    refine .inl ⟨r, hr, ?_, ?_⟩
    · refine (Bool.or_eq_true _ _ ▸ hmay).imp_right fun hnone r' hr' hof => ?_
      have hnot := any_eq_false.1 (Bool.not_eq_true' _ ▸ hnone) r' hr'
      simpa [hof] using hnot
    · rw [Table.update_of_some hr]
      simp [exec, hrow]

theorem exec_insert (s : Setting) (w : World) (ε : Env) (jobOfferId workerId : ℕ) :
    exec s w ε (.insert jobOfferId workerId) = (w, .closed) ∨
    ((w.pair jobOfferId workerId).any Application.indexed ∧
      exec s w ε (.insert jobOfferId workerId) = (w, .taken)) ∨
    ((∀ r ∈ w.pair jobOfferId workerId, r.indexed = false) ∧
      exec s w ε (.insert jobOfferId workerId) =
        ({ w with applications := w.applications ++
          [{ jobOfferId, workerId, createdAt := w.now }] }, .row w.applications.length)) := by
  by_cases hopen : ε.offer.any fun o => o.recruits && !o.deleted
  · by_cases hany : (w.pair jobOfferId workerId).any Application.indexed
    · exact .inr (.inl ⟨hany, by simp [exec, hopen, hany]⟩)
    · refine .inr (.inr ⟨fun r hr => ?_, by simp only [exec, hopen, hany]; rfl⟩)
      simpa using any_eq_false.1 (Bool.eq_false_iff.2 hany) r hr
  · exact .inl (by simp only [exec, hopen]; rfl)

theorem changes_exec (hg : orderly s x (.step i c ε)) : Changes x.1 c (exec s x.1 ε c).1 := by
  cases c with
  | insert jobOfferId workerId =>
    obtain hexec | ⟨-, hexec⟩ | ⟨hfree, hexec⟩ := exec_insert s x.1 ε jobOfferId workerId
    · rw [hexec]
      exact .still
    · rw [hexec]
      exact .still
    · rw [hexec]
      exact .inserted hfree
  | cancel id cancelledBy =>
    obtain ⟨r, hr, hindexed, hexec⟩ | hexec := exec_cancel s x.1 ε id cancelledBy
    · rw [hexec]
      refine .updated rfl (fun r' hr' => ⟨rfl, rfl, rfl, fun hne => ?_⟩) (fun _ _ => .inl nofun)
        fun r' _ hnot => ?_
      · obtain rfl := Option.some.inj (hr.symm.trans hr')
        simp only [orderly, hr, Option.all_some, hindexed, Bool.not_true, Bool.false_or,
          decide_eq_true_eq] at hg
        exact absurd hg hne
      · simp [Application.indexed, Application.cancelled] at hnot
    · rw [hexec]
      exact .still
  | reject id =>
    obtain ⟨r, hr, hmay, hexec⟩ | hexec := exec_reject s x.1 ε id
    · rw [hexec]
      refine .updated rfl (fun _ _ => ⟨rfl, rfl, rfl, fun _ => rfl⟩) (fun _ h => by cases h)
        fun r' hr' _ => ?_
      obtain rfl := Option.some.inj (hr.symm.trans hr')
      exact hmay
    · rw [hexec]
      exact .still
  | progress id status =>
    refine .updated rfl (fun r _ => ?_) (fun r h => ?_) fun r _ h => ?_
    · unfold Application.progressed
      split
      · exact .refl r
      · exact ⟨rfl, rfl, rfl, fun _ => rfl⟩
    · unfold Application.progressed at h
      split at h
      · exact .inr h
      · rename_i hnot
        exact absurd (.inr h) hnot
    · unfold Application.progressed at h
      split at h
      · exact .inl h
      · rename_i hnot
        exact .inl (by simpa [Application.indexed] using fun hc => hnot (.inl hc))
  | archive | restore =>
    exact .updated rfl (fun _ _ => ⟨rfl, rfl, rfl, fun _ => rfl⟩) (fun _ h => .inr h)
      fun _ _ h => .inl h
  | elapse milliseconds => exact .elapsed
  | _ => exact .still

/-- Later tables have the rows of earlier ones, and their time is later. -/
def Later (w v : World) : Prop :=
  Table.Evolves Application.Keeps w.applications v.applications ∧ w.now ≤ v.now

theorem Later.trans {w v u : World} (h : Later w v) (h' : Later v u) : Later w u :=
  ⟨h.1.trans Application.Keeps.trans h'.1, h.2.trans h'.2⟩

theorem Changes.later (h : Changes w c v) : Later w v := by
  cases h with
  | still => exact ⟨.refl .refl _, le_rfl⟩
  | inserted hfree => exact ⟨.append .refl _ _, le_rfl⟩
  | @updated _ id f hc hkeeps hstamped hindexed =>
    refine ⟨fun j r hr => ⟨_, by rw [Table.getElem?_update, hr, Option.map_some], ?_⟩, le_rfl⟩
    split
    · rename_i hid
      exact hkeeps r (hid ▸ hr)
    · exact .refl r
  | elapsed => exact ⟨.refl .refl _, by simp⟩

theorem Changes.sound (h : Changes w c v) (hw : ∀ r ∈ w.applications, r.Sound w.now) :
    ∀ r ∈ v.applications, r.Sound v.now := by
  cases h with
  | still => exact hw
  | inserted hfree =>
    intro r hr
    rcases mem_append.1 hr with hr | hr
    · exact hw r hr
    · obtain rfl := mem_singleton.1 hr
      exact ⟨nofun, le_rfl⟩
  | @updated _ id f hc hkeeps hstamped hindexed =>
    intro r hr
    obtain ⟨j, hj⟩ := mem_iff_getElem?.1 hr
    rw [Table.getElem?_update] at hj
    obtain ⟨r, hrow, rfl⟩ := Option.map_eq_some_iff.1 hj
    have hold := hw r (mem_of_getElem? hrow)
    split
    · rename_i hid
      have hkeep := hkeeps r (hid ▸ hrow)
      refine ⟨fun hc => ?_, hkeep.createdAt ▸ hold.past⟩
      rcases hstamped r hc with hne | hc
      · exact hne
      · rw [hkeep.cancelledBy (hold.stamped hc)]
        exact hold.stamped hc
    · exact hold
  | elapsed => exact fun r hr => ⟨(hw r hr).stamped, (hw r hr).past.trans (by simp)⟩

theorem isOf_iff {r r' : Application} : r.isOf r'.jobOfferId r'.workerId ↔
    r.jobOfferId = r'.jobOfferId ∧ r.workerId = r'.workerId := by
  simp [Application.isOf]

/-- The index holds. -/
theorem Changes.unique (h : Changes w c v) (hw : Unique w) : Unique v := by
  cases h with
  | still | elapsed => exact hw
  | @inserted jobOfferId workerId hfree =>
    have hout : ∀ (b : ℕ) r', w.applications[b]? = some r' → jobOfferId = r'.jobOfferId →
        workerId = r'.workerId → r'.indexed → False := by
      rintro b r' hb rfl rfl hindexed
      have hmem : r' ∈ w.pair r'.jobOfferId r'.workerId :=
        mem_filter.2 ⟨mem_of_getElem? hb, isOf_iff.2 ⟨rfl, rfl⟩⟩
      rw [hfree r' hmem] at hindexed
      cases hindexed
    intro a b r r' ha hb hof hr hr'
    obtain ⟨ho, hworker⟩ := isOf_iff.1 hof
    rcases Table.getElem?_concat_eq_some.1 ha with ha | ⟨rfl, rfl⟩
    · rcases Table.getElem?_concat_eq_some.1 hb with hb | ⟨rfl, rfl⟩
      · exact hw a b r r' ha hb hof hr hr'
      · exact (hout a r ha ho.symm hworker.symm hr).elim
    · rcases Table.getElem?_concat_eq_some.1 hb with hb | ⟨rfl, rfl⟩
      · exact (hout b r' hb ho hworker hr').elim
      · rfl
  | @updated _ id f hc hkeeps hstamped hindexed =>
    -- the changed row is in the index only if it was, or if nothing else of its pair is
    have hother : ∀ (a b : ℕ) r r', a = id → b ≠ id → w.applications[a]? = some r →
        w.applications[b]? = some r' → r.isOf r'.jobOfferId r'.workerId → (f r).indexed →
        r'.indexed → False := by
      rintro a b r r' rfl hne ha hb hof hr hr'
      rcases hindexed r ha hr with hr | hnone
      · exact hne (hw a b r r' ha hb hof hr hr').symm
      · obtain ⟨ho, hworker⟩ := isOf_iff.1 hof
        rw [hnone r' (mem_of_getElem? hb) (isOf_iff.2 ⟨ho.symm, hworker.symm⟩)] at hr'
        cases hr'
    intro a b r r' ha hb hof hr hr'
    rw [Table.getElem?_update] at ha hb
    obtain ⟨r, hrow, rfl⟩ := Option.map_eq_some_iff.1 ha
    obtain ⟨r', hrow', rfl⟩ := Option.map_eq_some_iff.1 hb
    by_cases hida : id = a
    · rw [if_pos hida] at hof hr
      have hkeep := hkeeps r (hida ▸ hrow)
      by_cases hidb : id = b
      · exact hida.symm.trans hidb
      · rw [if_neg hidb] at hof hr'
        rw [hkeep.isOf] at hof
        exact (hother a b r r' hida.symm (Ne.symm hidb) hrow hrow' hof hr hr').elim
    · rw [if_neg hida] at hof hr
      by_cases hidb : id = b
      · rw [if_pos hidb] at hof hr'
        have hkeep := hkeeps r' (hidb ▸ hrow')
        rw [hkeep.jobOfferId, hkeep.workerId] at hof
        obtain ⟨ho, hworker⟩ := isOf_iff.1 hof
        exact (hother b a r' r hidb.symm (Ne.symm hida) hrow' hrow
          (isOf_iff.2 ⟨ho.symm, hworker.symm⟩) hr' hr).elim
      · rw [if_neg hidb] at hof hr'
        exact hw a b r r' hrow hrow' hof hr hr'

/-! ### What holds along orderly runs -/

theorem startOfBusinessDay_mono {t t' : ℤ} (h : t ≤ t') :
    startOfBusinessDay t ≤ startOfBusinessDay t' := by
  have hdiv := Int.ediv_le_ediv (by decide : 0 < dayMs) (Int.add_le_add_right h offsetMs)
  have hmul := Int.mul_le_mul_of_nonneg_right hdiv (by decide : 0 ≤ dayMs)
  exact Int.sub_le_sub_right hmul _

theorem startOfBusinessDay_le (t : ℤ) : startOfBusinessDay t ≤ t := by
  have hmul := Int.ediv_mul_le (t + offsetMs) (by decide : dayMs ≠ 0)
  rw [startOfBusinessDay]
  omega

/-- The row that the worker cancels in the step. -/
def walk : Step → Option ℕ
  | ⟨_, _, .cancel id .worker, true⟩ => some id
  | _ => none

theorem walk_of_walks (h : walks jobOfferId workerId e) :
    ∃ id r, walk e = some id ∧ e.store.applications[id]? = some r ∧ r.isOf jobOfferId workerId := by
  unfold walks at h
  split at h
  · rename_i w id
    cases hr : w.applications[id]? with
    | none => simp [hr] at h
    | some r =>
      rw [hr, Option.any_some, Bool.and_eq_true] at h
      exact ⟨id, r, rfl, hr, h.1⟩
  · cases h

/-- What every store of the run keeps, and what its steps have made of it. -/
structure Kept (s : Setting) (x : State) : Prop where
  later : Along Later x
  sound : ∀ r ∈ x.1.applications, r.Sound x.1.now
  sounds : ∀ e ∈ x.2, ∀ r ∈ e.store.applications, r.Sound e.store.now
  unique : Unique x.1
  walked : ∀ e ∈ x.2, ∀ id, walk e = some id →
    ∃ r, x.1.applications[id]? = some r ∧ r.cancelledBy = some .worker
  never : Every (fun e older => ∀ jobOfferId workerId, inserts jobOfferId workerId e →
    ∀ z ∈ older, walks jobOfferId workerId z = false) x.2
  days : ∀ workerId day,
    x.1.applications.countP (Application.ofDay workerId day) ≤ s.maxDailyApplications
  still : ∀ i, alone x.2 i → Reading (own x.2 i) → ∀ e ∈ own x.2 i, e.store = x.1
  accepted : Every (fun e older => refuses e → alone older e.proc = false) x.2

/-- Of the pair, the worker has cancelled nothing. -/
theorem Kept.never_step (h : Kept s x) (hread : PairRead jobOfferId workerId (own x.2 i))
    (hstands : pairStands x.1 (own x.2 i) jobOfferId workerId) :
    ∀ z ∈ x.2, walks jobOfferId workerId z = false := by
  intro z hz
  refine Bool.eq_false_iff.2 fun hwalks => ?_
  obtain ⟨id, r, hwalk, hr, hof⟩ := walk_of_walks hwalks
  obtain ⟨r', hr', hworker⟩ := h.walked z hz id hwalk
  obtain ⟨e, he, hlast, hfree⟩ := hread
  obtain ⟨r'', hr'', hkeep⟩ := (h.later.now z hz).1 id r hr
  obtain rfl := Option.some.inj (hr'.symm.trans hr'')
  rw [← hkeep.isOf] at hof
  rcases lt_or_ge id e.store.applications.length with hlt | hge
  · -- the row was there when the pair was read: cancelled, and by somebody else
    have hold : e.store.applications[id]? = some e.store.applications[id] :=
      getElem?_eq_getElem hlt
    set r₀ := e.store.applications[id] with hr₀
    obtain ⟨r₁, hr₁, hkeep₀⟩ := (h.later.now e (mem_of_own he)).1 id r₀ hold
    obtain rfl := Option.some.inj (hr'.symm.trans hr₁)
    have hmem := mem_of_getElem? hold
    have hfree₀ := hfree r₀ (mem_filter.2 ⟨hmem, hkeep₀.isOf ▸ hof⟩)
    simp only [Application.free, Bool.and_eq_true, decide_eq_true_eq] at hfree₀
    have hstamped := (h.sounds e (mem_of_own he) r₀ hmem).stamped hfree₀.1
    exact hfree₀.2 ((hkeep₀.cancelledBy hstamped).symm.trans hworker)
  · simp only [pairStands, hlast, Option.all_some] at hstands
    have hmem : r' ∈ x.1.applications.drop e.store.applications.length := by
      refine mem_of_getElem? (i := id - e.store.applications.length) ?_
      rwa [getElem?_drop, Nat.add_sub_cancel' hge]
    have hnot := all_eq_true.1 hstands r' hmem
    simp [hof, hworker] at hnot

/-- The day has room for one more. -/
theorem Kept.days_step (h : Kept s x) (hread : DayRead s workerId (own x.2 i))
    (hstands : dayStands s x.1 (own x.2 i) workerId) :
    x.1.applications.countP (Application.ofDay workerId (startOfBusinessDay x.1.now)) <
      s.maxDailyApplications := by
  obtain ⟨e, he, n, z, hz, hlast, -, hn⟩ := hread
  simp only [dayStands, hlast, Option.all_some, decide_eq_true_eq] at hstands
  obtain ⟨hgrows, -⟩ := h.later.now e (mem_of_own he)
  have hnow : startOfBusinessDay z.store.now ≤ startOfBusinessDay x.1.now :=
    startOfBusinessDay_mono (h.later.now z (mem_of_own hz)).2
  set k := e.store.applications.length
  have hkeys : (x.1.applications.take k).map (fun r => (r.workerId, r.createdAt)) =
      e.store.applications.map fun r => (r.workerId, r.createdAt) := by
    refine Table.Grows.map_take fun id r hr => ?_
    obtain ⟨r', hr', hkeep⟩ := hgrows id r hr
    exact ⟨r', hr', Prod.ext hkeep.workerId hkeep.createdAt⟩
  have htake : (x.1.applications.take k).countP
      (Application.ofDay workerId (startOfBusinessDay x.1.now)) ≤ n := by
    have hcount := congrArg (List.countP fun z : ℕ × ℤ =>
      z.1 = workerId && startOfBusinessDay z.2 = startOfBusinessDay x.1.now) hkeys
    rw [countP_map, countP_map] at hcount
    refine hcount.le.trans (hn ▸ countP_mono_left fun r _ hr => ?_)
    simp only [Function.comp_apply, Bool.and_eq_true, decide_eq_true_eq] at hr ⊢
    exact ⟨hr.1, hnow.trans (hr.2 ▸ startOfBusinessDay_le _)⟩
  calc x.1.applications.countP (Application.ofDay workerId (startOfBusinessDay x.1.now))
      = (x.1.applications.take k).countP (Application.ofDay workerId (startOfBusinessDay x.1.now)) +
        (x.1.applications.drop k).countP
          (Application.ofDay workerId (startOfBusinessDay x.1.now)) := by
        rw [← countP_append, take_append_drop]
    _ ≤ n + (x.1.applications.drop k).countP
          (Application.ofDay workerId (startOfBusinessDay x.1.now)) := Nat.add_le_add_right htake _
    _ < s.maxDailyApplications := hstands

theorem exec_isRead (hc : c.isRead = true) : (exec s w ε c).1 = w := by
  cases c with
  | insert | cancel | reject | progress | archive | restore | elapse => cases hc
  | _ => rfl

/-- A walk leaves its row cancelled by the worker. -/
theorem walk_exec {id : ℕ} (h : walk ⟨i, w, c, (exec s w ε c).2⟩ = some id) :
    ∃ r, (exec s w ε c).1.applications[id]? = some r ∧ r.cancelledBy = some .worker := by
  cases c with
  | cancel id' cancelledBy =>
    obtain ⟨r, hr, -, hexec⟩ | hexec := exec_cancel s w ε id' cancelledBy
    · rw [hexec] at h ⊢
      cases cancelledBy with
      | worker =>
        obtain rfl := Option.some.inj h
        refine ⟨r.cancelled .worker, ?_, rfl⟩
        rw [Table.getElem?_update, hr, Option.map_some, if_pos rfl]
      | employer | system => cases h
    · rw [hexec] at h
      cases cancelledBy with
      | worker | employer | system => cases h
  | _ => cases h

theorem eq_of_inserts {r : Resp c} (h : inserts jobOfferId workerId ⟨i, w, c, r⟩) :
    c = .insert jobOfferId workerId := by
  cases c with
  | insert jobOfferId' workerId' =>
    cases r with
    | row id =>
      simp only [inserts, Bool.and_eq_true, decide_eq_true_eq] at h
      rw [h.1, h.2]
    | closed | taken => cases h
  | _ => cases h

theorem exists_of_refuses {r : Resp c} (h : refuses ⟨i, w, c, r⟩) :
    ∃ jobOfferId workerId, c = .insert jobOfferId workerId ∧ HEq r Inserted.taken := by
  cases c with
  | insert jobOfferId workerId =>
    cases r with
    | row | closed => cases h
    | taken => exact ⟨_, _, rfl, HEq.rfl⟩
  | _ => cases h

/-- How many applications a day has grows with an insertion only. -/
theorem Changes.days (h : Changes w c v) {n : ℕ} (hw : ∀ workerId day,
      w.applications.countP (Application.ofDay workerId day) ≤ n)
    (hroom : ∀ jobOfferId workerId, c = .insert jobOfferId workerId → w.applications.countP
      (Application.ofDay workerId (startOfBusinessDay w.now)) < n) (workerId : ℕ) (day : ℤ) :
    v.applications.countP (Application.ofDay workerId day) ≤ n := by
  cases h with
  | still | elapsed => exact hw workerId day
  | @inserted jobOfferId workerId' hfree =>
    rw [countP_append, countP_singleton]
    split
    · rename_i hof
      simp only [Application.ofDay, Bool.and_eq_true, decide_eq_true_eq] at hof
      obtain ⟨rfl, rfl⟩ := hof
      exact hroom jobOfferId workerId' rfl
    · exact hw workerId day
  | @updated _ id f hc hkeeps hstamped hindexed =>
    have hkeys : (Table.update w.applications id f).map (fun r => (r.workerId, r.createdAt)) =
        w.applications.map fun r => (r.workerId, r.createdAt) := by
      apply ext_getElem?
      intro j
      rw [getElem?_map, getElem?_map, Table.getElem?_update, Option.map_map]
      refine Option.map_congr fun r hr => ?_
      rw [Function.comp_apply]
      split
      · rename_i hid
        have hkeep := hkeeps r (hid ▸ hr)
        exact Prod.ext hkeep.workerId hkeep.createdAt
      · rfl
    have hcount := congrArg (List.countP fun z : ℕ × ℤ =>
      z.1 = workerId && startOfBusinessDay z.2 = day) hkeys
    rw [countP_map, countP_map] at hcount
    exact hcount.le.trans (hw workerId day)

/-- Where all rows of the pair are free, the index refuses nothing. -/
theorem Kept.accepted_step (h : Kept s x) (hpre : Pre s i c x)
    (hrefuses : refuses ⟨i, x.1, c, (exec s x.1 ε c).2⟩) : alone x.2 i = false := by
  refine Bool.eq_false_iff.2 fun halone => ?_
  obtain ⟨jobOfferId, workerId, rfl, htaken⟩ := exists_of_refuses hrefuses
  obtain ⟨hreading, ⟨e, he, -, hfree⟩, -⟩ := hpre
  rw [h.still i halone hreading e he] at hfree
  obtain hexec | ⟨hany, hexec⟩ | ⟨-, hexec⟩ := exec_insert s x.1 ε jobOfferId workerId
  · rw [hexec] at htaken
    cases htaken
  · obtain ⟨r, hr, hindexed⟩ := any_eq_true.1 hany
    have hcancelled := hfree r hr
    simp only [Application.free, Application.indexed, Bool.and_eq_true, decide_eq_true_eq]
      at hcancelled hindexed
    exact hindexed hcancelled.1
  · rw [hexec] at htaken
    cases htaken

/-- A call that nobody disturbs and that has only read has read this table. -/
theorem Kept.still_step (h : Kept s x) (j : ℕ)
    (halone : alone (⟨i, x.1, c, (exec s x.1 ε c).2⟩ :: x.2) j)
    (hreading : Reading (own (⟨i, x.1, c, (exec s x.1 ε c).2⟩ :: x.2) j)) :
    ∀ e ∈ own (⟨i, x.1, c, (exec s x.1 ε c).2⟩ :: x.2) j, e.store = (exec s x.1 ε c).1 := by
  by_cases hij : i = j
  · rw [own_cons_self hij] at hreading ⊢
    rw [alone_cons_self hij] at halone
    have hread := hreading _ mem_cons_self
    rw [exec_isRead hread]
    intro e he
    rcases mem_cons.1 he with rfl | he
    · rfl
    · exact h.still j halone (fun z hz => hreading z (mem_cons_of_mem _ hz)) e he
  · intro e he
    rw [own_cons_of_ne hij] at he
    have hother := (alone_cons_of_ne (e := ⟨i, x.1, c, (exec s x.1 ε c).2⟩) hij _).1 halone
    have hproc : e.proc = j := by simpa using (mem_filter.1 he).2
    exact absurd hproc (hother e (mem_of_own he))

theorem Kept.step (h : Kept s x) (hpre : Pre s i c x) (hg : orderly s x (.step i c ε)) :
    Kept s ((exec s x.1 ε c).1, ⟨i, x.1, c, (exec s x.1 ε c).2⟩ :: x.2) := by
  have hchanges := changes_exec hg
  exact
    { later := h.later.step Later.trans rfl hchanges.later
      sound := hchanges.sound h.sound
      sounds := fun e he => by
        rcases mem_cons.1 he with rfl | he
        · exact h.sound
        · exact h.sounds e he
      unique := hchanges.unique h.unique
      walked := fun e he id hwalk => by
        rcases mem_cons.1 he with rfl | he
        · exact walk_exec hwalk
        · obtain ⟨r, hr, hworker⟩ := h.walked e he id hwalk
          obtain ⟨r', hr', hkeep⟩ := hchanges.later.1 id r hr
          exact ⟨r', hr', (hkeep.cancelledBy (by simp [hworker])).trans hworker⟩
      never := ⟨fun jobOfferId workerId hinserts => by
        obtain rfl := eq_of_inserts hinserts
        obtain ⟨-, hread, -⟩ := hpre
        simp only [orderly, Bool.and_eq_true] at hg
        exact h.never_step hread hg.1, h.never⟩
      days := hchanges.days h.days fun jobOfferId workerId hc => by
        subst hc
        obtain ⟨-, -, hread⟩ := hpre
        simp only [orderly, Bool.and_eq_true] at hg
        exact h.days_step hread hg.2
      still := h.still_step
      accepted := ⟨h.accepted_step hpre, h.accepted⟩ }

/-- **A worker applies once, within the limit of the day, and never after walking away.** In every
orderly run that starts without applications, no two rows that are not cancelled are of one pair,
no application is made after a walk from the same offer, no worker has more than the limit in a day,
and the index refuses an application only where another operation has taken a step since its call
began. -/
theorem applications_kept {now : ℤ} {acts : List (Act Request Env Publishing.Exn)}
    {c : Config State Resp Publishing.Exn}
    (hrun : c ∈ (service s).traced.run (orderly s) ((service s).traced.idle ({ now }, [])) acts) :
    Limited s c.store := by
  have hstep : ∀ (x : State) i cmd (ε : Env) v r, True → Kept s x → Pre s i cmd x →
      orderly s x (.step i cmd ε) → (service s).exec x.1 i cmd ε = some (v, r) →
        Kept s (v, ⟨i, x.1, cmd, r⟩ :: x.2) := by
    intro x i cmd ε v r _ hJ hpre hg hexec
    obtain ⟨rfl, rfl⟩ := pair_inj hexec
    exact hJ.step hpre hg
  have hstart : Kept s ({ now }, []) :=
    { later := along_nil _
      sound := fun r hr => (not_mem_nil hr).elim
      sounds := fun e he => (not_mem_nil he).elim
      unique := fun a b r r' ha => by simp at ha
      walked := fun e he => (not_mem_nil he).elim
      never := trivial
      days := by simp
      still := fun i _ _ e he => (not_mem_nil he).elim
      accepted := trivial }
  obtain ⟨⟨-, hkept⟩, -⟩ := Contract.obeys_of_mem_run handles
    (fun _ => Discipline.stable_const True) (fun _ _ h => h) hstep hrun trivial hstart
  exact ⟨hkept.unique, hkept.never, hkept.days, hkept.accepted⟩

/-! ### One worker -/

/-- `n` more calls of process `i`. -/
def calls (i n : ℕ) : List (Act Request Env Publishing.Exn) := replicate n (.step i {})

/-- A request that is served alone, in at most `n` calls of process `i`. -/
def serves (i n : ℕ) (r : Request) : List (Act Request Env Publishing.Exn) :=
  .spawn r :: calls i n

/-- A run without applications at first. -/
def sampleRun (limit : ℕ) (g : Setting → Guard State Cmd Request Env)
    (acts : List (Act Request Env Publishing.Exn)) :
    Option (Config State Resp Publishing.Exn) :=
  (service ⟨limit⟩).traced.run (g ⟨limit⟩) ((service ⟨limit⟩).traced.idle ({}, [])) acts

/-- What the insertions have answered, newest first, and whether nobody has disturbed their call. -/
def answers : Log → List (Inserted × Bool)
  | [] => []
  | ⟨i, _, .insert _ _, r⟩ :: older => (r, alone older i) :: answers older
  | _ :: older => answers older

/-- The applications with who has cancelled them, and what the insertions have answered. -/
structure Outcome where
  rows : List (ℕ × Hiring.ApplicationStatus × Option ApplicationCancelledBy)
  answers : List (Inserted × Bool)
  deriving DecidableEq

def outcome (x : State) : Outcome where
  rows := x.1.applications.map fun r => (r.jobOfferId, r.status, r.cancelledBy)
  answers := answers x.2

/-- A worker applies, is accepted and let go, applies again, and finds the day full. -/
def appliesAgain : List (Act Request Env Publishing.Exn) :=
  serves 0 9 (.create 0 1) ++ serves 1 1 (.progress 0 .accepted) ++
    serves 2 2 (.cancelAcceptedByEmployer 0 0) ++ serves 3 9 (.create 0 1) ++
    serves 4 8 (.create 7 1)

theorem applications_kept_appliesAgain : ∃ c ∈ sampleRun 2 orderly appliesAgain,
    outcome c.store = ⟨[(0, .cancelled, some .employer), (0, .pending, none)],
      [(.row 1, true), (.row 0, true)]⟩ ∧ Limited ⟨2⟩ c.store := by
  have hrun : (sampleRun 2 orderly appliesAgain).map (fun c => outcome c.store) =
      some ⟨[(0, .cancelled, some .employer), (0, .pending, none)],
        [(.row 1, true), (.row 0, true)]⟩ := by
    decide +kernel
  obtain ⟨c, hc, houtcome⟩ := Option.map_eq_some_iff.1 hrun
  exact ⟨c, hc, houtcome, applications_kept hc⟩

/-- An application is archived while it is pending, and its worker applies again. -/
def archivedPending : List (Act Request Env Publishing.Exn) :=
  serves 0 9 (.create 0 1) ++ serves 1 1 (.archive 0) ++ serves 2 9 (.create 0 1)

/-- The worker walks away, the application is archived, and the worker applies again. -/
def archivedWalk : List (Act Request Env Publishing.Exn) :=
  serves 0 9 (.create 0 1) ++ serves 1 4 (.cancel 0 1) ++ serves 2 1 (.archive 0) ++
    serves 3 9 (.create 0 1)

/-- Two calls apply at once, and the worker walks away from the first before the second. -/
def walkBetween : List (Act Request Env Publishing.Exn) :=
  serves 0 4 (.create 0 1) ++ serves 1 9 (.create 0 1) ++ serves 2 4 (.cancel 0 1) ++ calls 0 5

/-- Two calls apply to two offers at once. -/
def twoOffers : List (Act Request Env Publishing.Exn) :=
  serves 0 8 (.create 0 1) ++ serves 1 9 (.create 7 1) ++ calls 0 1

/-- The day's application is archived, and the worker applies to another offer. -/
def archivedDay : List (Act Request Env Publishing.Exn) :=
  serves 0 9 (.create 0 1) ++ serves 1 1 (.archive 0) ++ serves 2 9 (.create 7 1)

/-- **What goes wrong otherwise.** The index refuses an application that the rule admits,
undisturbed; twice a worker applies again after walking away; and twice there are two applications
in a day that has room for one. -/
theorem applications_lost :
    (sampleRun 9 (fun _ => Guard.all) archivedPending).map (fun c => outcome c.store) =
      some ⟨[(0, .pending, none)], [(.taken, true), (.row 0, true)]⟩ ∧
    (sampleRun 9 (fun _ => Guard.all) archivedWalk).map (fun c => outcome c.store) =
      some ⟨[(0, .cancelled, some .worker), (0, .pending, none)],
        [(.row 1, true), (.row 0, true)]⟩ ∧
    (sampleRun 9 (fun _ => Guard.all) walkBetween).map (fun c => outcome c.store) =
      some ⟨[(0, .cancelled, some .worker), (0, .pending, none)],
        [(.row 1, false), (.row 0, true)]⟩ ∧
    (sampleRun 1 (fun _ => Guard.all) twoOffers).map (fun c => outcome c.store) =
      some ⟨[(7, .pending, none), (0, .pending, none)], [(.row 1, false), (.row 0, true)]⟩ ∧
    (sampleRun 1 (fun _ => Guard.all) archivedDay).map (fun c => outcome c.store) =
      some ⟨[(0, .pending, none), (7, .pending, none)], [(.row 1, true), (.row 0, true)]⟩ := by
  decide +kernel

end Rabotka.Applying
