import Rabotka.Archive.Relations

/-!
# A purge destroys no record of money

In orderly runs a deletion takes no payment, no invoice, no approved request, no movement of money,
no paid penalty, no contact record and no paid attempt with it, and no live row of its table
(`purge_keeps`). A run is orderly if what a purge has counted as absent is still absent when it
deletes, and if the archived rows have none of the relations that the registry does not name
(`unnamed`).

`purge_loses` shows what happens otherwise.
-/

namespace Rabotka.Archive

open Async Trace Contract List

/-- A step of this service. -/
abbrev Step := Entry World Resp

/-- The steps of a run. -/
abbrev Log := Trace World Resp

/-- The tables with their steps. -/
abbrev State := Traced World Resp

variable {s : Setting} {i : ℕ} {rows : List Row} {model : Table} {ids : List ℕ} {r : Row}
  {entity : ArchiveEntity} {n : ℕ}

/-! ### Orderly runs -/

/-- What the step has counted as absent is absent. -/
def stillNone (rows : List Row) : Step → Bool
  | ⟨_, _, .count model ids q, n⟩ => n ≠ 0 || count rows model ids q = 0
  | _ => true

/-- The archived rows among these have no relation that the registry does not name. -/
def allNamed (rows : List Row) (model : Table) (ids : List ℕ) : Bool :=
  (unnamed model).all fun rel =>
    count rows model ids (fun rows r => r.deleted && rel.some rows r) = 0

/-- What a purge has counted as absent is absent when it deletes, and so is what it does not
count. -/
def orderly : Guard State Cmd Request Unit
  | x, .step i (.deleteMany model ids) _ =>
    (own x.2 i).all (stillNone x.1.rows) && allNamed x.1.rows model ids
  | _, _ => true

/-! ### What a purge has counted -/

/-- The process has counted this. -/
def Counted (model : Table) (ids : List ℕ) (q : List Row → Row → Bool) (n : ℕ) (l : Log) : Prop :=
  ∃ j w, (⟨j, w, .count model ids q, n⟩ : Step) ∈ l

/-- The process has counted nothing that keeps these. -/
structure CountedNone (entity : ArchiveEntity) (ids : List ℕ) (l : Log) : Prop where
  relations : ∀ rel ∈ (archiveRegistry entity).relations,
    Counted (archiveRegistry entity).model ids rel.some 0 l
  self : ∀ b ∈ (archiveRegistry entity).selfBlocked,
    Counted (archiveRegistry entity).model ids b.some 0 l

/-- When process `i` may issue a command. -/
def Pre (i : ℕ) : Cmd → State → Prop
  | .deleteMany model ids, x =>
    ∃ entity, model = (archiveRegistry entity).model ∧ CountedNone entity ids (own x.2 i)
  | _, _ => True

/-- What the operations keep to. -/
def contract (s : Setting) : Contract (service s) where
  inv _ := True
  pre := Pre
  sound _ _ _ := trivial

/-- From `P` the program leads to `Q`. The assertions are about the steps of the process. -/
abbrev Spec (s : Setting) {α : Type} (i : ℕ) (P : Log → Prop) (op : Prog α) (Q : α → Log → Prop) :
    Prop :=
  ((contract s).disciplineUnder orderly).Triple i (Own i P) op (fun a => Own i (Q a))
    fun _ _ => True

/-- An assertion that further steps keep. -/
def Lasts (P : Log → Prop) : Prop := ∀ e l, P l → P (e :: l)

variable {P : Log → Prop}

theorem call_spec {c : Cmd} {Q : Resp c → Log → Prop}
    (hpre : ∀ x : State, P (own x.2 i) → Pre i c x)
    (hstep : ∀ (w : World) (l : Log), P l → Q (exec s w c).2 (⟨i, w, c, (exec s w c).2⟩ :: l)) :
    Spec s i P (issue c) Q := by
  refine Discipline.Triple.post_mono (Contract.triple_own (X := fun _ _ => True)
    (fun x _ h => hpre x h) (fun x ε w r _ h _ hexec => ?_) fun _ _ _ _ => trivial)
    (fun _ _ _ h => h) fun _ _ _ _ => trivial
  obtain ⟨rfl, rfl⟩ := pair_inj hexec
  exact hstep x.1 _ h

/-- A call of which nothing is asked. -/
theorem plain_spec {c : Cmd} (hpre : ∀ x : State, Pre i c x) (hP : Lasts P) :
    Spec s i P (issue c) fun _ => P :=
  call_spec (fun x _ => hpre x) fun _ _ h => hP _ _ h

variable {q : List Row → Row → Bool}

theorem count_spec (hP : Lasts P) :
    Spec s i P (issue (.count model ids q)) fun n l => P l ∧ Counted model ids q n l :=
  call_spec (c := .count model ids q) (fun _ _ => trivial) fun w _ h =>
    ⟨hP _ _ h, i, w, mem_cons_self⟩

theorem lasts_counted : Lasts (Counted model ids q n) :=
  fun _ _ ⟨j, w, h⟩ => ⟨j, w, mem_cons_of_mem _ h⟩

theorem Lasts.and {P Q : Log → Prop} (hP : Lasts P) (hQ : Lasts Q) : Lasts fun l => P l ∧ Q l :=
  fun e l h => ⟨hP e l h.1, hQ e l h.2⟩

theorem countRelations_spec {rels : List Relation} (hP : Lasts P) :
    Spec s i P (countRelations model ids rels) fun blockers l => P l ∧
      ((∀ b ∈ blockers, b.count = 0) → ∀ rel ∈ rels, Counted model ids rel.some 0 l) := by
  induction rels generalizing P with
  | nil => exact .ret fun _ _ h => ⟨h, fun _ _ hrel => (not_mem_nil hrel).elim⟩
  | cons rel rels ih =>
    refine .bind (count_spec hP) fun n => ?_
    refine .bind (ih (hP.and lasts_counted)) fun blockers => ?_
    refine .ret fun _ _ h => ⟨h.1.1, fun hzero rel' hrel' => ?_⟩
    rcases mem_cons.1 hrel' with rfl | hrel'
    · obtain rfl : n = 0 := hzero _ mem_cons_self
      exact h.1.2
    · exact h.2 (fun b hb => hzero b (mem_cons_of_mem _ hb)) rel' hrel'

theorem countSelf_spec {config : ArchiveConfig} :
    Spec s i (fun _ => True) (countSelf config ids) fun blockers l =>
      (∀ b ∈ blockers, b.count = 0) →
        ∀ b ∈ config.selfBlocked, Counted config.model ids b.some 0 l := by
  unfold countSelf
  split
  · rename_i hnone
    exact .ret fun _ _ _ _ b hb => by simp [hnone] at hb
  · rename_i b hsome
    refine .bind (count_spec (P := fun _ => True) fun _ _ h => h) fun n => ?_
    refine .ret fun _ _ h hzero b' hb' => ?_
    obtain rfl := Option.some.inj (hsome.symm.trans hb')
    obtain rfl : n = 0 := hzero _ (mem_singleton_self _)
    exact h.2

/-- Where nothing is tallied, there was nothing to count. -/
theorem foldl_tally_eq_nil {blockers counts : List PurgeBlocker}
    (h : blockers.foldl tally counts = []) : counts = [] ∧ ∀ b ∈ blockers, b.count = 0 := by
  induction blockers generalizing counts with
  | nil => exact ⟨h, fun _ hb => (not_mem_nil hb).elim⟩
  | cons b blockers ih =>
    obtain ⟨hnil, hzero⟩ := ih h
    unfold tally at hnil
    split at hnil
    · rename_i hb
      refine ⟨hnil, fun b' hb' => ?_⟩
      rcases mem_cons.1 hb' with rfl | hb'
      · exact hb
      · exact hzero b' hb'
    · split at hnil
      · rename_i hany
        rw [map_eq_nil_iff.1 hnil] at hany
        cases hany
      · simp at hnil

theorem countBlockers_spec : Spec s i (fun _ => True) (countBlockers entity ids)
    fun blockers l => blockers = [] → CountedNone entity ids l := by
  refine .bind countSelf_spec fun self => ?_
  refine .bind (countRelations_spec fun e l h hzero b hb => lasts_counted _ _ (h hzero b hb))
    fun blockers => ?_
  refine .ret fun _ _ h hnil => ?_
  obtain ⟨-, hzero⟩ := foldl_tally_eq_nil hnil
  exact ⟨h.2 fun b hb => hzero b (mem_append_right _ hb),
    h.1 fun b hb => hzero b (mem_append_left _ hb)⟩

theorem lasts_countedNone : Lasts (CountedNone entity ids) := fun _ _ h =>
  ⟨fun rel hrel => lasts_counted _ _ (h.relations rel hrel),
    fun b hb => lasts_counted _ _ (h.self b hb)⟩

/-- A purge deletes where it has counted nothing, whatever its caller collects. -/
theorem purge_spec {collect : List ℕ → Prog (List StoredObject)}
    (hcollect : ∀ P : Log → Prop, Lasts P → Spec s i P (collect ids) fun _ => P) :
    Spec s i (fun _ => True) (purge entity ids collect) fun _ _ => True := by
  unfold purge
  split
  · exact .ret fun _ _ h => h
  · refine .bind countBlockers_spec fun blockers => ?_
    dsimp only
    split
    · exact .fail fun _ _ _ => trivial
    · rename_i hnil
      refine Discipline.Triple.pre_mono (R := Own i (CountedNone entity ids)) ?_
        fun x _ h => h (not_not.1 hnil)
      refine .bind (hcollect _ lasts_countedNone) fun collected => ?_
      refine .bind (call_spec (c := .deleteMany (archiveRegistry entity).model ids)
        (Q := fun _ _ => True) (fun x h => ⟨entity, rfl, h⟩) fun _ _ _ => trivial) fun n => ?_
      exact .ret fun _ _ h => h

theorem collect_spec (hP : Lasts P) : Spec s i P (collect s ids) fun _ => P := by
  unfold collect
  split
  · exact .ret fun _ _ h => h
  · refine .bind (plain_spec (c := .findProfileFiles ids) (fun _ => trivial) hP) fun profiles => ?_
    split
    · exact .ret fun _ _ h => h
    · exact .fail fun _ _ _ => trivial

theorem remove_spec {objects : List StoredObject} :
    Spec s i (fun _ => True) (remove objects) fun _ _ => True := by
  induction objects with
  | nil => exact .ret fun _ _ h => h
  | cons o objects ih =>
    refine .bind (Q := fun _ _ => True) (R := fun _ => Own i fun _ => True) ?_ fun _ => ih
    exact .orElseCatch (Y := fun _ _ => True) (plain_spec (P := fun _ => True)
      (c := .deleteObject o) (fun _ => trivial) fun _ _ h => h) fun e => .ret fun _ _ h => h

theorem bulkPurge_spec : Spec s i (fun _ => True) (bulkPurge s ids) fun _ _ => True := by
  refine .bind (purge_spec fun P hP => collect_spec hP) fun result => ?_
  exact .bind remove_spec fun _ => .ret fun _ _ h => h

/-- Every handler keeps to the contract. -/
theorem handles : (contract s).HandlesTo orderly fun _ _ => True := by
  intro r i
  have hspec : Spec s i (fun _ => True) ((service s).handler r) fun _ _ => True := by
    match r with
    | .purge entity ids =>
      exact .bind (purge_spec fun _ _ => .ret fun _ _ h => h) fun _ => .ret fun _ _ h => h
    | .bulkPurge ids => exact .bind bulkPurge_spec fun _ => .ret fun _ _ h => h
    | .restore entity ids =>
      refine .bind (R := fun _ => Own i fun _ => True) ?_ fun _ => .ret fun _ _ h => h
      unfold restore
      split
      · exact .ret fun _ _ h => h
      · exact plain_spec (c := .updateMany (archiveRegistry entity).model ids)
          (fun _ => trivial) fun _ _ h => h
    | .write row =>
      exact .bind (plain_spec (P := fun _ => True) (c := .write row) (fun _ => trivial)
        fun _ _ h => h) fun _ => .ret fun _ _ h => h
  exact hspec.pre_mono fun _ _ _ => trivial

/-! ### What orderly runs keep -/

/-- What is counted as absent concerns no row that is purged. -/
theorem not_some_of_count_eq_zero (h : count rows model ids q = 0)
    (hr : r ∈ rows) (harchived : r.isArchived model ids) : q rows r = false := by
  simp only [count, countP_eq_zero] at h
  simp only [Row.isArchived, Bool.and_eq_true] at harchived
  simpa [harchived.1.1, harchived.1.2] using h r hr

theorem not_mem_owners {rel : Relation} {z : Row} (h : rel.some rows r = false) (hz : z ∈ rows) :
    r.id ∉ rel.owners rows z := by
  intro hmem
  have hsome : rel.some rows r = true := any_eq_true.2 ⟨z, hz, decide_eq_true hmem⟩
  rw [h] at hsome
  cases hsome

/-- In orderly runs the rows that are deleted have no relations. -/
theorem clear_of_orderly {x : State} (hcounted : CountedNone entity ids (own x.2 i))
    (hg : orderly x (.step i (.deleteMany (archiveRegistry entity).model ids) ())) :
    Clear x.1.rows entity ids := by
  simp only [orderly, Bool.and_eq_true, all_eq_true] at hg
  obtain ⟨hstill, hnamed⟩ := hg
  have hzero : ∀ q, Counted (archiveRegistry entity).model ids q 0 (own x.2 i) →
      count x.1.rows (archiveRegistry entity).model ids q = 0 := by
    rintro q ⟨j, w, hmem⟩
    simpa [stillNone] using hstill _ hmem
  refine ⟨?_, fun b hb r hr harchived => ?_⟩
  · rintro rel hrel n ⟨r, hr, harchived, href⟩ z hz
    obtain rfl : r.id = n := congrArg Ref.id href
    refine not_mem_owners ?_ hz
    rcases mem_append.1 hrel with hrel | hrel
    · exact not_some_of_count_eq_zero (hzero _ (hcounted.relations rel hrel)) hr harchived
    · have hnone := not_some_of_count_eq_zero (q := fun rows r => r.deleted && rel.some rows r)
        (of_decide_eq_true (all_eq_true.1 hnamed rel hrel)) hr harchived
      simp only [Row.isArchived, Bool.and_eq_true] at harchived
      simpa [harchived.2] using hnone
  · exact not_some_of_count_eq_zero (hzero _ (hcounted.self b hb)) hr harchived

/-- **A purge destroys no record of money.** In every orderly run, from any tables, each deletion
of a purge leaves every record of money and every live row of its table where it is. -/
theorem purge_keeps {w₀ : World} {acts : List (Act Request Unit Exn)}
    {c : Config State Resp Exn}
    (hrun : c ∈ (service s).traced.run orderly ((service s).traced.idle (w₀, [])) acts) :
    Every (fun e _ => ∀ model ids, e.cmd = .deleteMany model ids →
      Keeps e.store.rows model ids) c.store.2 := by
  have hstep : ∀ (x : State) i cmd (ε : Unit) v r, True →
      Every (fun e _ => ∀ model ids, e.cmd = .deleteMany model ids →
        Keeps e.store.rows model ids) x.2 → Pre i cmd x → orderly x (.step i cmd ε) →
      (service s).exec x.1 i cmd ε = some (v, r) →
        Every (fun e _ => ∀ model ids, e.cmd = .deleteMany model ids →
          Keeps e.store.rows model ids) (⟨i, x.1, cmd, r⟩ :: x.2 : Log) := by
    intro x i cmd ε v r _ hJ hpre hg _
    refine ⟨?_, hJ⟩
    rintro model ids rfl
    obtain ⟨entity, rfl, hcounted⟩ := hpre
    exact (clear_of_orderly hcounted hg).keeps
  obtain ⟨⟨-, hkept⟩, -⟩ := Contract.obeys_of_mem_run handles
    (fun _ => Discipline.stable_const True) (fun _ _ h => h) hstep hrun trivial trivial
  exact hkept

/-! ### A few rows -/

def sampleBucket : Bucket := ⟨"rabotka", by decide, by decide⟩

/-- Nothing is served under a url. -/
def sampleSetting : Setting where
  publicBaseUrl := ""
  publicBucket := sampleBucket
  kycBucket := none
  parseUrl _ := none
  decodeURI := some
  decodeURIComponent := some

/-- `n` more calls of process `i`. -/
def calls (i n : ℕ) : List (Act Request Unit Exn) := replicate n (.step i ())

/-- A request that is served alone, in `n` calls of process `i`. -/
def serves (i n : ℕ) (r : Request) : List (Act Request Unit Exn) := .spawn r :: calls i n

/-- A run from these rows. -/
def sampleRun (g : Guard State Cmd Request Unit) (rows : List Row)
    (acts : List (Act Request Unit Exn)) : Option (Config State Resp Exn) :=
  (service sampleSetting).traced.run g ((service sampleSetting).traced.idle ({ rows }, [])) acts

/-- The rows that are left. -/
def left (c : Config State Resp Exn) : List Ref := c.store.1.rows.map Row.ref

/-- An archived profile with a welcome credit, and a live one that has paid. -/
def twoProfiles : List Row :=
  [{ id := 0, deleted := true, data := .profile none },
    { id := 0, data := .wallet none (some 0) },
    { id := 0, data := .walletTransaction 0 .welcomeCredit },
    { id := 1, data := .profile none }]

/-- The archived profile is purged, while the other one pays. -/
def purgesOne : List (Act Request Unit Exn) :=
  serves 0 4 (.purge .profiles [0]) ++ serves 1 1 (.write { id := 0, data := .payment 1 }) ++
    calls 0 6

theorem purge_keeps_purgesOne : ∃ c ∈ sampleRun orderly twoProfiles purgesOne,
    left c = [⟨.profile, 1⟩, ⟨.payment, 0⟩] ∧
      Every (fun e _ => ∀ model ids, e.cmd = .deleteMany model ids →
        Keeps e.store.rows model ids) c.store.2 := by
  have hrun : (sampleRun orderly twoProfiles purgesOne).map left =
      some [⟨.profile, 1⟩, ⟨.payment, 0⟩] := by
    decide +kernel
  obtain ⟨c, hc, hleft⟩ := Option.map_eq_some_iff.1 hrun
  exact ⟨c, hc, hleft, purge_keeps hc⟩

/-- An archived application, with an attempt for which its worker has paid. -/
def paidApplication : List Row :=
  [{ id := 0, data := .profile none },
    { id := 1, data := .profile none },
    { id := 0, data := .jobOffer 0 },
    { id := 0, deleted := true, data := .application 0 1 },
    { id := 0, data := .contactUnlockAttempt 0 0 1 0 false true }]

/-- An archived employer, with a penalty that a worker has paid. -/
def archivedEmployer : List Row :=
  [{ id := 0, deleted := true, data := .profile none },
    { id := 1, data := .profile none },
    { id := 0, data := .jobOffer 0 },
    { id := 0, data := .application 0 1 },
    { id := 0, data := .penalty 1 (some 0) true }]

/-- An archived user whose wallet has been topped up. -/
def archivedUser : List Row :=
  [{ id := 0, deleted := true, data := .user },
    { id := 0, data := .wallet (some 0) none },
    { id := 0, data := .walletTransaction 0 .topUpCredit }]

/-- An archived request that was rejected, with an invoice. -/
def invoicedRequest : List Row :=
  [{ id := 0, data := .profile none },
    { id := 0, deleted := true, data := .paymentRequest 0 .rejected },
    { id := 0, data := .invoice 0 (some 0) none }]

/-- The archived profile pays after its payments were counted. -/
def paysMeanwhile : List (Act Request Unit Exn) :=
  serves 0 9 (.purge .profiles [0]) ++ serves 1 1 (.write { id := 0, data := .payment 0 }) ++
    calls 0 1

/-- **What goes wrong otherwise.** A paid attempt falls with an application, a paid penalty with the
employer, a movement of money with a user, an invoice with a rejected request, and a payment is made
between its count and the deletion. -/
theorem purge_loses :
    (sampleRun Guard.all paidApplication (serves 0 2 (.purge .applications [0]))).map
      left = some [⟨.profile, 0⟩, ⟨.profile, 1⟩, ⟨.jobOffer, 0⟩] ∧
    (sampleRun Guard.all archivedEmployer (serves 0 10 (.purge .profiles [0]))).map left =
      some [⟨.profile, 1⟩] ∧
    (sampleRun Guard.all archivedUser (serves 0 2 (.purge .users [0]))).map left = some [] ∧
    (sampleRun Guard.all invoicedRequest (serves 0 2 (.purge .paymentRequests [0]))).map left =
      some [⟨.profile, 0⟩] ∧
    (sampleRun Guard.all twoProfiles paysMeanwhile).map left = some [⟨.profile, 1⟩] := by
  decide +kernel

end Rabotka.Archive
