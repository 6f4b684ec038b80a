import Rabotka.Lib.RelyGuarantee
import Rabotka.Quotas.Sessions

/-!
# The books of the quota

The invariant of the quota service: usage rows are unique, the writes of every open transaction
are in order (`InOrder`), no counter is above the quota of its plan, in the committed database or
in what a transaction sees, and each committed counter exceeds the rows of its period by what the
processes outside transactions owe. `sound_of_exec` is the step lemma. A step either leaves the
database as it is (`Sound.keep`) or publishes writes that fit (`Sound.publish`).
-/

namespace Rabotka.Quotas

open Async List

/-! ### Quotas stay -/

theorem quotaOf_apply {d : Db} {k : ℕ} (w : Write) (hk : k < d.periods.subscriptions.length) :
    (d.apply w).quotaOf k = d.quotaOf k := by
  unfold Db.quotaOf Db.planOf
  cases w with
  | createPeriod r => simp only [Db.apply, getElem?_append_left hk]
  | increment id | decrement id | updatePeriod id data =>
    simp only [Db.apply, Db.count, Table.getElem?_update, getElem?_eq_getElem hk,
      Option.map_some, Option.bind_eq_bind, Option.bind_some]
    split_ifs <;> rfl
  | _ => rfl

theorem quotaOf_applyAll {d : Db} {k : ℕ} (ws : List Write)
    (hk : k < d.periods.subscriptions.length) :
    (engine.applyAll d ws).quotaOf k = d.quotaOf k := by
  induction ws generalizing d with
  | nil => rfl
  | cons w ws ih =>
    exact (ih (hk.trans_le (length_le_apply d w))).trans (quotaOf_apply w hk)

/-! ### The invariant -/

/-- The writes of an open transaction, of a process that owes `own`. -/
structure InOrder (d : Db) (own : List ℕ) (u : ReadCommitted.Session Write Lock) : Prop where
  fits : Fits d u.writes
  spares : ∀ w ∈ u.writes, ∀ k ∉ u.locks, w.Spares k
  owed : ∀ k, usedBy u.writes k - heldBy u.writes k = own.count k
  quota : ∀ k q, d.quotaOf k = some q → d.used k + usedBy u.writes k ≤ q
  /-- Only periods that are committed are drawn on. -/
  raises : ∀ k, d.periods.subscriptions.length ≤ k → usedBy u.writes k ≤ 0

structure Sound (s : Store × Owed) : Prop where
  exclusive : s.1.Exclusive
  unique : s.1.db.Unique
  sessions : ∀ i u, s.1.session i = some u → InOrder s.1.db (Tagged.of s.2 i) u
  drift : ∀ k, s.1.db.used k = s.1.db.held k + outside s.1 s.2 k
  quota : ∀ k q, s.1.db.quotaOf k = some q → s.1.db.used k ≤ q

theorem Sound.covered {s : Store × Owed} (hs : Sound s) : s.1.Covered engine observe :=
  fun i u hu d _ hk => observe_applyAll d fun w hw => (hs.sessions i u hu).spares w hw _ hk

theorem engine_protects : ReadCommitted.Store.Protects engine observe := by
  intro d c ε a writes locks hrun d' k hk
  refine observe_applyAll d' fun w hw => ?_
  -- what a statement locks does not depend on what is owed
  have hspares : ∀ w ∈ writes, ∀ k ∉ locks, w.Spares k := by
    cases c with
    | createUsage id target =>
      have hready : Stmt.Ready [id] d (.createUsage id target) := rfl
      exact (engine_effect hrun hready).spares
    | decrement id =>
      by_cases hpos : 0 < d.used id
      · have hready : Stmt.Ready [id] d (.decrement id) := ⟨rfl, hpos⟩
        exact (engine_effect hrun hready).spares
      · simp only [engine, if_neg hpos] at hrun
        obtain ⟨-, rfl, -⟩ := triple_inj hrun
        exact fun w hw => absurd hw not_mem_nil
    | _ => exact (@engine_effect d _ ε a [] writes locks hrun trivial).spares
  exact hspares w hw k hk

/-- When a process may issue a command. -/
def Pre (i : ℕ) (s : Store × Owed) : Cmd → Prop
  | .begin => Tagged.of s.2 i = []
  | .commit => Tagged.of s.2 i = []
  | .rollback => ∃ u, s.1.session i = some u
  | .stmt (.increment id quota) =>
    id < s.1.db.periods.subscriptions.length ∧ s.1.db.quotaOf id = quota
  | .stmt (.createUsage id _) => Tagged.of s.2 i = [id]
  | .stmt (.decrement id) => Tagged.of s.2 i = [id]
  | _ => True

/-- The others keep a process's transaction, what it owes, and the quotas there are. -/
structure Rely (i : ℕ) (s t : Store × Owed) : Prop where
  session : t.1.session i = s.1.session i
  owed : Tagged.of t.2 i = Tagged.of s.2 i
  length : s.1.db.periods.subscriptions.length ≤ t.1.db.periods.subscriptions.length
  quotaOf : ∀ k, k < s.1.db.periods.subscriptions.length → t.1.db.quotaOf k = s.1.db.quotaOf k

/-! ### Steps -/

section Step

variable {s : Store × Owed} {t : Store} {n : Owed} {i : ℕ}

/-- What a process sees of a counter is at least what it owes to the period. -/
theorem Sound.owed_le_view (hs : Sound s) (i k : ℕ) :
    ((Tagged.of s.2 i).count k : ℤ) ≤ (s.1.view engine i).used k := by
  have hdrift := hs.drift k
  have hsplit := outside_eq s.1 s.2 i k
  unfold ReadCommitted.Store.view
  cases hu : s.1.session i with
  | none =>
    rw [hu] at hsplit
    simp only [Option.isNone_none, if_true] at hsplit ⊢
    omega
  | some u =>
    have hin := hs.sessions i u hu
    have hheld := held_applyAll hin.fits hs.unique k
    have howed := hin.owed k
    dsimp only
    rw [used_applyAll hin.fits]
    omega

/-- **A step that leaves the database as it is.** -/
theorem Sound.keep (hs : Sound s) (hexclusive : t.Exclusive) (hdb : t.db = s.1.db)
    (hothers : ∀ j ≠ i, t.session j = s.1.session j)
    (howed : ∀ j ≠ i, Tagged.of n j = Tagged.of s.2 j)
    (hsession : ∀ u, t.session i = some u → InOrder s.1.db (Tagged.of n i) u)
    (houtside : ∀ k, outside t n k = outside s.1 s.2 k) : Sound (t, n) where
  exclusive := hexclusive
  unique := by
    rw [hdb]
    exact hs.unique
  sessions j u hu := by
    rw [hdb]
    rcases eq_or_ne j i with rfl | hne
    · exact hsession u hu
    · rw [howed j hne]
      exact hs.sessions j u ((hothers j hne).symm.trans hu)
  drift k := by
    rw [hdb, houtside]
    exact hs.drift k
  quota := by
    rw [hdb]
    exact hs.quota

/-- **A step that publishes writes.** What the other transactions have locked stays, so their
writes remain in order. -/
theorem Sound.publish {ws : List Write} (hs : Sound s) (hexclusive : t.Exclusive)
    (hdb : t.db = engine.applyAll s.1.db ws) (hfits : Fits s.1.db ws) (hnone : t.session i = none)
    (hothers : ∀ j ≠ i, t.session j = s.1.session j)
    (howed : ∀ j ≠ i, Tagged.of n j = Tagged.of s.2 j)
    (hkept : ∀ j ≠ i, ∀ k, s.1.Holds j k → observe k t.db = observe k s.1.db)
    (hquota : ∀ k q, s.1.db.quotaOf k = some q → s.1.db.used k + usedBy ws k ≤ q)
    (hraises : ∀ k, s.1.db.periods.subscriptions.length ≤ k → usedBy ws k ≤ 0)
    (houtside : ∀ k, (outside t n k : ℤ) =
      outside s.1 s.2 k + (usedBy ws k - heldBy ws k)) : Sound (t, n) := by
  have hused : ∀ k, t.db.used k = s.1.db.used k + usedBy ws k := fun k => by
    rw [hdb, used_applyAll hfits]
  have hlength : s.1.db.periods.subscriptions.length ≤ t.db.periods.subscriptions.length := by
    rw [hdb]
    exact length_le_applyAll _ _
  have hnew : ∀ k, s.1.db.periods.subscriptions.length ≤ k → s.1.db.used k = 0 := fun k hk => by
    simp [Db.used, getElem?_eq_none hk]
  have hwithin : ∀ k q, t.db.quotaOf k = some q → t.db.used k ≤ q := by
    intro k q hq
    rw [hused]
    rcases lt_or_ge k s.1.db.periods.subscriptions.length with hlt | hge
    · rw [hdb, quotaOf_applyAll ws hlt] at hq
      exact hquota k q hq
    · have hle := hraises k hge
      rw [hnew k hge]
      omega
  refine ⟨hexclusive, ?_, fun j u hu => ?_, fun k => ?_, hwithin⟩
  · rw [hdb]
    exact unique_applyAll hfits hs.unique
  · have hne : j ≠ i := by
      rintro rfl
      rw [hnone] at hu
      cases hu
    have hu' : s.1.session j = some u := (hothers j hne).symm.trans hu
    have hin := hs.sessions j u hu'
    have hlocked : ∀ k ∈ u.locks, observe k t.db = observe k s.1.db :=
      fun k hk => hkept j hne k ⟨u, hu', hk⟩
    refine ⟨hin.fits.later hlength fun w hw a ha => ?_, hin.spares, fun k => ?_,
      fun k q hq => ?_, fun k hk => hin.raises k (hlength.trans hk)⟩
    · have hmem : Lock.usage a ∈ u.locks := by
        by_contra hnot
        exact hin.spares w hw _ hnot ha
      exact congrArg Prod.snd (hlocked _ hmem)
    · rw [howed j hne]
      exact hin.owed k
    · rcases lt_or_ge k s.1.db.periods.subscriptions.length with hlt | hge
      · by_cases hmem : Lock.period k ∈ u.locks
        · have hsame : t.db.used k = s.1.db.used k := congrArg Prod.fst (hlocked _ hmem)
          rw [hdb, quotaOf_applyAll ws hlt] at hq
          rw [hsame]
          exact hin.quota k q hq
        -- a counter that the transaction has not locked it does not change
        · have hzero : usedBy u.writes k = 0 := sum_eq_zero fun x hx => by
            obtain ⟨w, hw, rfl⟩ := mem_map.1 hx
            exact hin.spares w hw _ hmem
          rw [hzero, add_zero]
          exact hwithin k q hq
      · have hle := hin.raises k hge
        have htop := hwithin k q hq
        change t.db.used k + usedBy u.writes k ≤ q
        omega
  · have hheld : (t.db.held k : ℤ) = s.1.db.held k + heldBy ws k := by
      rw [hdb, held_applyAll hfits hs.unique]
    have hdrift := hs.drift k
    have hout := houtside k
    rw [hused]
    change _ = (t.db.held k : ℤ) + (outside t n k : ℤ)
    omega

end Step

theorem exec_tracked {s t : Store × Owed} {i : ℕ} {c : Cmd} {ε : Env} {a : Resp c} :
    tracked.exec s i c ε = some (t, a) ↔
      s.1.exec engine i c ε = some (t.1, a) ∧ t.2 = record s.2 i c a :=
  Service.withHistory_exec

theorem Sound.ready {s : Store × Owed} {i : ℕ} {c : Stmt} (hs : Sound s)
    (hpre : Pre i s (.stmt c)) : c.Ready (Tagged.of s.2 i) (s.1.view engine i) := by
  cases c with
  | createUsage id target => exact hpre
  | decrement id =>
    have howed : Tagged.of s.2 i = [id] := hpre
    have hle := hs.owed_le_view i id
    rw [howed, count_singleton_self] at hle
    refine ⟨howed, ?_⟩
    omega
  | _ => trivial

/-- A statement raises a counter only for a period that exists, and within its quota. -/
theorem Sound.raise {s : Store × Owed} {i : ℕ} {c : Stmt} {own' : List ℕ} {ws : List Write}
    {locks : List Lock} (hpre : Pre i s (.stmt c))
    (heffect : c.Effect (s.1.view engine i) (Tagged.of s.2 i) own' ws locks) {k : ℕ}
    (hk : 0 < usedBy ws k) :
    k < s.1.db.periods.subscriptions.length ∧
      ∀ q, s.1.db.quotaOf k = some q → (s.1.view engine i).used k + usedBy ws k ≤ q := by
  obtain ⟨quota, rfl, hone, hquota⟩ := heffect.counts k hk
  obtain ⟨hlt, hof⟩ := hpre
  refine ⟨hlt, fun q hq => ?_⟩
  have hless := hquota q (Option.mem_def.2 (hof.symm.trans hq))
  omega

/-- **Step lemma.** -/
theorem sound_of_exec {s t : Store × Owed} {i : ℕ} {c : Cmd} {ε : Env} {a : Resp c}
    (hs : Sound s) (hpre : Pre i s c) (hexec : tracked.exec s i c ε = some (t, a)) :
    Sound t := by
  obtain ⟨hstep, hnotes⟩ := exec_tracked.1 hexec
  obtain ⟨t, n⟩ := t
  obtain rfl : n = record s.2 i c a := hnotes
  have hexclusive := hs.exclusive.exec hstep
  have hothers : ∀ j ≠ i, t.session j = s.1.session j :=
    fun j hne => ReadCommitted.Store.session_of_exec hstep hne
  have howed : ∀ j ≠ i, Tagged.of (record s.2 i c a) j = Tagged.of s.2 j :=
    fun j hne => of_record_of_ne hne _ _ _
  have hkept : ∀ j ≠ i, ∀ k, s.1.Holds j k → observe k t.db = observe k s.1.db :=
    fun j hne k hk => ReadCommitted.Store.observed_of_exec engine_protects hs.covered
      hs.exclusive hstep hne hk
  have hdrop := outside_drop hothers s.2 c a
  have hbefore := outside_eq s.1 s.2 i
  have hafter := outside_eq t (record s.2 i c a) i
  cases c with
  | begin =>
    obtain ⟨hnone, rfl⟩ := ReadCommitted.Store.exec_begin hstep
    have hown : Tagged.of s.2 i = [] := hpre
    refine hs.keep hexclusive rfl hothers howed (fun u hu => ?_) fun k => ?_
    · rw [ReadCommitted.Store.session_put_self] at hu
      obtain rfl := Option.some.inj hu
      refine ⟨trivial, fun w hw => absurd hw not_mem_nil, fun k => ?_, fun k q hq => ?_,
        fun k _ => le_rfl⟩
      · change (0 : ℤ) - 0 = (Tagged.of s.2 i).count k
        rw [hown]
        rfl
      · rw [usedBy, map_nil, sum_nil, add_zero]
        exact hs.quota k q hq
    · rw [hafter, hbefore, hdrop, ReadCommitted.Store.session_put_self]
      simp [hown]
  | commit =>
    obtain ⟨u, hu, rfl⟩ := ReadCommitted.Store.exec_commit hstep
    have hown : Tagged.of s.2 i = [] := hpre
    have hin := hs.sessions i u hu
    have hnone : ({ s.1.close i with db := engine.applyAll s.1.db u.writes } : Store).session i =
        none := ReadCommitted.Store.session_close_self s.1 i
    refine hs.publish hexclusive rfl hin.fits hnone hothers howed hkept hin.quota hin.raises
      fun k => ?_
    have hin_owed := hin.owed k
    rw [hown] at hin_owed
    have hsame : Tagged.of (record s.2 i .commit a) i = [] := hown
    rw [hafter, hbefore, hdrop, hsame, hown, hin_owed]
    simp
  | rollback =>
    obtain rfl := ReadCommitted.Store.exec_rollback hstep
    obtain ⟨u, hu⟩ := hpre
    have hnone := ReadCommitted.Store.session_close_self s.1 i
    refine hs.keep hexclusive rfl hothers howed (fun v hv => ?_) fun k => ?_
    · rw [hnone] at hv
      cases hv
    · have hsettled : Tagged.of (record s.2 i .rollback a) i = [] := Tagged.of_drop_self _ _
      rw [hafter, hbefore, hdrop, hsettled, hu]
      simp
  | stmt c =>
    obtain ⟨ws, locks, hrun, -, ⟨u, hu, rfl⟩ | ⟨hnone, rfl⟩⟩ :=
      ReadCommitted.Store.exec_stmt hstep
    · have heffect := engine_effect hrun (hs.ready hpre)
      have hin := hs.sessions i u hu
      have hview : s.1.view engine i = engine.applyAll s.1.db u.writes := by
        simp [ReadCommitted.Store.view, hu]
      have hraise := fun k => Sound.raise (k := k) hpre heffect
      rw [hview] at heffect hraise
      refine hs.keep hexclusive rfl hothers howed (fun v hv => ?_) fun k => ?_
      · rw [ReadCommitted.Store.session_put_self] at hv
        obtain rfl := Option.some.inj hv
        refine ⟨fits_append.2 ⟨hin.fits, heffect.fits⟩, fun w hw k hk => ?_, fun k => ?_,
          fun k q hq => ?_, fun k hk => ?_⟩
        · rw [mem_append, not_or] at hk
          rcases mem_append.1 hw with hw | hw
          · exact hin.spares w hw k hk.1
          · exact heffect.spares w hw k hk.2
        · have hold := hin.owed k
          have hnew := heffect.owed k
          rw [of_record_stmt, usedBy_append, heldBy_append]
          omega
        · have hold := hin.quota k q hq
          rw [usedBy_append]
          by_cases hpos : 0 < usedBy ws k
          · have hle := (hraise k hpos).2 q hq
            rw [used_applyAll hin.fits] at hle
            omega
          · omega
        · have hold := hin.raises k hk
          have hno : ¬ 0 < usedBy ws k := fun hpos => absurd (hraise k hpos).1 (not_lt.2 hk)
          rw [usedBy_append]
          omega
      · rw [hafter, hbefore, hdrop, ReadCommitted.Store.session_put_self, hu]
        simp
    · have heffect := engine_effect hrun (hs.ready hpre)
      have hraise := fun k => Sound.raise (k := k) hpre heffect
      have hview : s.1.view engine i = s.1.db := by
        simp [ReadCommitted.Store.view, hnone]
      rw [hview] at heffect hraise
      refine hs.publish hexclusive rfl heffect.fits hnone hothers howed hkept (fun k q hq => ?_)
        (fun k hk => ?_) fun k => ?_
      · have hold := hs.quota k q hq
        by_cases hpos : 0 < usedBy ws k
        · exact (hraise k hpos).2 q hq
        · omega
      · exact not_lt.1 fun hpos => absurd (hraise k hpos).1 (not_lt.2 hk)
      · have howed_i := heffect.owed k
        have hnone' : ({ s.1 with db := engine.applyAll s.1.db ws } : Store).session i = none :=
          hnone
        rw [hafter, hbefore, hdrop, of_record_stmt, hnone, hnone', howed_i]
        simp only [Option.isNone_none, if_true]
        push_cast
        ring

/-- What the others may rely on. -/
theorem rely_of_exec {s t : Store × Owed} {i j : ℕ} {c : Cmd} {ε : Env} {a : Resp c}
    (hexec : tracked.exec s i c ε = some (t, a)) (hne : j ≠ i) : Rely j s t := by
  obtain ⟨hstep, hnotes⟩ := exec_tracked.1 hexec
  obtain ⟨ws, hws⟩ := ReadCommitted.Store.exists_writes_of_exec hstep
  refine ⟨ReadCommitted.Store.session_of_exec hstep hne, ?_, ?_, fun k hk => ?_⟩
  · rw [hnotes, of_record_of_ne hne]
  · rw [hws]
    exact length_le_applyAll _ _
  · rw [hws, quotaOf_applyAll ws hk]

/-- The quota service checked against its books. -/
def quotaService : Discipline tracked where
  guard := recordsUsage
  inv := Sound
  pre := fun i c s => Pre i s c
  rely := Rely
  idle i s := s.1.session i = none ∧ Tagged.of s.2 i = []
  rely_refl _ _ := ⟨rfl, rfl, le_rfl, fun _ _ => rfl⟩
  rely_trans h h' := ⟨h'.session.trans h.session, h'.owed.trans h.owed, h.length.trans h'.length,
    fun k hk => (h'.quotaOf k (hk.trans_le h.length)).trans (h.quotaOf k hk)⟩
  idle_rely h hidle := ⟨h.session.trans hidle.1, h.owed.trans hidle.2⟩
  sound hs hpre _ hexec := ⟨sound_of_exec hs hpre hexec, fun _ hne => rely_of_exec hexec hne⟩

end Rabotka.Quotas
