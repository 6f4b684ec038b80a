import Rabotka.Billing.Payments

/-!
# The billing status over a sequence of operations

Whatever operations run one after the other, the billing status of every profile is the one its
unpaid penalties make exactly as long as the operations that do not know BLOCKED keep below the
threshold (`synced_iff_withinThreshold`). `two_penalties_not_blocked` is the shortest sequence
that leaves that range: with a threshold of two, two penalties created by hand leave the profile
in PENDING_PAYMENT.
-/

namespace Rabotka.Billing

open Money List

/-- What the operations without BLOCKED need of the database they find: none of the profiles
whose status they write keeps as many unpaid penalties as the threshold. -/
def Operation.WithinThreshold (n : ℕ) (d : Desk) : Operation → Prop
  | .createPenaltyByAdmin p applicationId _ =>
    checkApplication d p applicationId = .ok () → p < d.db.profiles.length →
      unpaidCount d.db p + 1 < n
  | .confirmPenaltyPaymentByAdmin id | .deletePenalty id =>
    ∀ r, d.db.penalties[id]? = some r → r.owed → unpaidCount d.db r.profileId ≤ n
  | .bulkSoftDeletePenalties ids =>
    ∀ i r, d.db.penalties[i]? = some r → i ∈ ids → r.owed →
      countPenalties d.db (fun j r' => r'.profileId = r.profileId ∧ r'.owed ∧ j ∉ ids) < n
  | .bulkRestore ids =>
    ∀ i r, d.db.penalties[i]? = some r → i ∈ ids → countPenalties d.db (fun j r' =>
        r'.profileId = r.profileId ∧ !r'.paid ∧ (!r'.deleted ∨ j ∈ ids)) < n
  | _ => True

variable {fees : Fees} {now : ℕ} {d : Desk} {n p : ℕ} {db : Db}

/-! ### What an operation leaves -/

/-- Only the penalties and the profiles matter. -/
theorem Same.synced_iff {s : Store} (h : Same db s) : Synced n s.db ↔ Synced n db := by
  unfold Synced
  simp only [h.2, h.unpaidCount]

theorem Same.foreignKeys {s : Store} (h : Same db s) (hfk : ForeignKeys db) : ForeignKeys s.db := by
  unfold ForeignKeys
  rw [h.1, h.2]
  exact hfk

theorem SameOrRecomputed.synced {s : Store} (hn : 1 ≤ n) (h : SameOrRecomputed n p db s)
    (hs : Synced n db) : Synced n s.db :=
  h.elim (fun h => h.synced_iff.2 hs) fun h => h.synced hn hs

theorem SameOrRecomputed.foreignKeys {s : Store} (h : SameOrRecomputed n p db s)
    (hfk : ForeignKeys db) : ForeignKeys s.db :=
  h.elim (fun h => h.foreignKeys hfk) fun h => h.foreignKeys hfk

/-- The store after a money operation that ends the same way whether it returns or throws. -/
theorem runMoney_store {op : Prog Unit} {Q : Store → Prop}
    (h : Runs fees now (Same d.db) op (fun _ => Q) (fun _ => Q)) :
    Q (runMoney fees now op d).1.money := by
  have hrun := h d.money ⟨rfl, rfl⟩
  unfold runMoney
  generalize op.alone _ _ d.money = o at hrun ⊢
  obtain ⟨t, e | a⟩ := o
  · exact hrun
  · exact hrun

/-- What every operation is to do with a synced database: keep it synced exactly when it is
within the threshold, and keep the references valid. -/
def Meets (n : ℕ) (d : Desk) (op : Operation) (d' : Desk) : Prop :=
  (Synced n d'.db ↔ op.WithinThreshold n d) ∧ ForeignKeys d'.db

variable {op : Operation}

/-- An operation that changed neither the penalties nor the profiles. -/
theorem meets_of_same {d' : Desk} (hfk : ForeignKeys d.db)
    (hs : Synced n d.db) (h : Same d.db d'.money) (hop : op.WithinThreshold n d) :
    Meets n d op d' :=
  ⟨iff_of_true (h.synced_iff.2 hs) hop, h.foreignKeys hfk⟩

/-- A payment that recomputes the status. -/
theorem meets_of_sameOrRecomputed {d' : Desk} (hn : 1 ≤ n)
    (hfk : ForeignKeys d.db) (hs : Synced n d.db) (h : SameOrRecomputed n p d.db d'.money)
    (hop : op.WithinThreshold n d) : Meets n d op d' :=
  ⟨iff_of_true (h.synced hn hs) hop, h.foreignKeys hfk⟩

/-- The links between applications and penalties are not part of the database. -/
@[simp]
theorem linkPenalty_db (d : Desk) (id : ℕ) (a : Option ℕ) : (linkPenalty d id a).db = d.db := by
  cases a <;> rfl

theorem foreignKeys_createPenalty {e : Db} {amount : ℚ} (hfk : ForeignKeys db)
    (h : createPenalty db p amount now = some e) : ForeignKeys e := by
  obtain ⟨hp, he⟩ := Option.ite_none_right_eq_some.1 h
  obtain rfl := Option.some.inj he
  intro i r hr
  rcases lt_or_ge i db.penalties.length with hi | hi
  · rw [getElem?_append_left hi] at hr
    exact hfk i r hr
  · rw [getElem?_append_right hi] at hr
    obtain rfl := mem_singleton.1 (mem_of_getElem? hr)
    exact hp

theorem ForeignKeys.setBillingStatus {s : BillingStatus} (h : ForeignKeys db) :
    ForeignKeys (setBillingStatus db p s) := by
  unfold ForeignKeys
  rw [length_setBillingStatus, penalties_setBillingStatus]
  exact h

theorem ForeignKeys.resyncBillingStatus {ids : List ℕ} (h : ForeignKeys db) :
    ForeignKeys (resyncBillingStatus db ids) := by
  unfold ForeignKeys
  rw [length_resyncBillingStatus, penalties_resyncBillingStatus]
  exact h

/-! ### One operation -/

theorem createPenaltyByAdmin_meets {a : Option ℕ} {amount : ℚ} (hn : 1 ≤ n)
    (hfk : ForeignKeys d.db) (hs : Synced n d.db) :
    Meets n d (.createPenaltyByAdmin p a amount) (createPenaltyByAdmin now p a amount d).1 := by
  unfold createPenaltyByAdmin
  cases hcheck : checkApplication d p a with
  | error e =>
    exact meets_of_same hfk hs ⟨rfl, rfl⟩ fun h => nomatch hcheck.symm.trans h
  | ok u =>
    cases hcreate : createPenalty d.db p amount now with
    | none =>
      refine meets_of_same hfk hs ⟨rfl, rfl⟩ fun _ hp => ?_
      simp [createPenalty, hp] at hcreate
    | some e =>
      have hcount := unpaidCount_createPenalty hcreate
      have hkeys := foreignKeys_createPenalty hfk hcreate
      obtain ⟨hp, he⟩ := Option.ite_none_right_eq_some.1 hcreate
      have hprofiles : e.profiles = d.db.profiles := by
        obtain rfl := Option.some.inj he
        rfl
      have hself : unpaidCount e p = unpaidCount d.db p + 1 := by simp [hcount]
      -- PENDING_PAYMENT is what the short rule would write
      have hshort : setBillingStatus e p .pendingPayment = resyncOne e p := by
        rw [resyncOne, if_neg (by omega)]
      have hiff := synced_resyncOne_iff hn hs hprofiles (fun q hq => by simp [hcount, hq.symm]) hp
      refine ⟨?_, ?_⟩
      · simp only [linkPenalty_db]
        change Synced n (setBillingStatus e p .pendingPayment) ↔ _
        rw [hshort, hiff, hself]
        exact ⟨fun h _ _ => h, fun h => h hcheck hp⟩
      · simp only [linkPenalty_db]
        exact ForeignKeys.setBillingStatus hkeys

theorem cancel_meets {applicationId workerId : ℕ} (hn : 1 ≤ fees.billingBlockThreshold)
    (hfk : ForeignKeys d.db) (hs : Synced fees.billingBlockThreshold d.db) :
    Meets fees.billingBlockThreshold d (.cancel applicationId workerId)
      (cancel fees now applicationId workerId d).1 := by
  have hsame : ∀ d' : Desk, d'.money = d.money →
      Meets fees.billingBlockThreshold d (.cancel applicationId workerId) d' := fun d' h =>
    meets_of_same hfk hs (by rw [h]; exact ⟨rfl, rfl⟩) trivial
  unfold cancel
  cases ha : d.applications[applicationId]? with
  | none => exact hsame _ rfl
  | some a =>
    dsimp only
    split_ifs with hworker hopen hstarted hlate
    · exact hsame _ rfl
    · exact hsame _ rfl
    · exact hsame _ rfl
    · unfold upsertPenalty
      cases hpenalty : a.penaltyId with
      | some id =>
        have hdue := synced_setBillingStatus hn hs rfl (p := workerId) fun q _ => rfl
        exact ⟨iff_of_true hdue trivial, hfk.setBillingStatus⟩
      | none =>
        cases hcreate : createPenalty d.db a.workerId fees.lateCancellationPenaltyFcfa now with
        | none => exact hsame _ rfl
        | some e =>
          have hcount := unpaidCount_createPenalty hcreate
          have hkeys := foreignKeys_createPenalty hfk hcreate
          obtain ⟨hp, he⟩ := Option.ite_none_right_eq_some.1 hcreate
          have hprofiles : e.profiles = d.db.profiles := by
            obtain rfl := Option.some.inj he
            rfl
          have hown : a.workerId = workerId := by simpa using hworker
          have hdue := synced_setBillingStatus (p := workerId) hn hs hprofiles
            fun q hq => by simp [hcount, hown, hq.symm]
          exact ⟨iff_of_true hdue trivial, ForeignKeys.setBillingStatus hkeys⟩
    · exact hsame _ rfl

/-- Settling or archiving one penalty that is owed, and the short rule for its profile. -/
theorem meets_resyncOne {d' : Desk} {e : Db} {id : ℕ} {r : Penalty}
    {f : Penalty → Penalty} (hn : 1 ≤ n) (hfk : ForeignKeys d.db) (hs : Synced n d.db)
    (hr : d.db.penalties[id]? = some r) (howed : r.owed) (hf : (f r).owed = false)
    (hprofile : ∀ r, (f r).profileId = r.profileId)
    (hpenalties : e.penalties = Table.update d.db.penalties id f)
    (hprofiles : e.profiles = d.db.profiles) (hd : d'.db = resyncOne e r.profileId)
    (hop : op.WithinThreshold n d ↔ unpaidCount d.db r.profileId ≤ n) : Meets n d op d' := by
  have hcount := unpaidCount_update hr howed hf hpenalties
  have hiff := synced_resyncOne_iff hn hs hprofiles
    (fun q hq => by simpa [hq.symm] using hcount q) (hfk id r hr)
  have hself := hcount r.profileId
  rw [if_pos rfl] at hself
  refine ⟨?_, ?_⟩
  · rw [hd, hiff, hop]
    omega
  · rw [hd]
    refine ForeignKeys.setBillingStatus (hfk.of_map (by rw [hprofiles])
      (fun i => by rw [hpenalties]; exact Table.getElem?_update _ _ _ _) fun i r _ => ?_)
    split
    · exact hprofile r
    · rfl

theorem deletePenalty_meets {id : ℕ} (hn : 1 ≤ n) (hfk : ForeignKeys d.db)
    (hs : Synced n d.db) : Meets n d (.deletePenalty id) (deletePenalty id d).1 := by
  have hsame : (∀ r, d.db.penalties[id]? = some r → r.owed = false) →
      Meets n d (.deletePenalty id) d := fun h =>
    meets_of_same hfk hs ⟨rfl, rfl⟩ fun r hr howed => by simp [h r hr] at howed
  unfold deletePenalty
  cases hr : d.db.penalties[id]? with
  | none => exact hsame fun r h => nomatch hr.symm.trans h
  | some penalty =>
    have hrow : ∀ r, d.db.penalties[id]? = some r → r = penalty := fun r h =>
      Option.some.inj (h.symm.trans hr)
    dsimp only
    split_ifs with hdeleted hpaid
    · exact hsame fun r h => by simp [hrow r h, Penalty.owed, hdeleted]
    · exact hsame fun r h => by simp [hrow r h, Penalty.owed, hpaid]
    · have howed : penalty.owed := by simp [Penalty.owed, hdeleted, hpaid]
      refine meets_resyncOne (f := fun p => { p with deleted := true })
        (e := { d.db with
          penalties := Table.update d.db.penalties id fun p => { p with deleted := true } })
        hn hfk hs hr howed (by simp [Penalty.owed]) (fun _ => rfl) rfl rfl rfl
        ⟨fun h => h _ hr howed, ?_⟩
      intro h r hr' _
      rwa [hrow r hr']

theorem confirmPenaltyPaymentByAdmin_meets {id : ℕ} (hn : 1 ≤ n) (hfk : ForeignKeys d.db)
    (hs : Synced n d.db) :
    Meets n d (.confirmPenaltyPaymentByAdmin id)
      (confirmPenaltyPaymentByAdmin fees now id d).1 := by
  have hnone : ∀ d' : Desk, Same d.db d'.money →
      (∀ r, d.db.penalties[id]? = some r → r.owed = false) →
      Meets n d (.confirmPenaltyPaymentByAdmin id) d' := fun d' hsame h =>
    meets_of_same hfk hs hsame fun r hr howed => by simp [h r hr] at howed
  unfold confirmPenaltyPaymentByAdmin
  cases hr : d.db.penalties[id]? with
  | none => exact hnone d ⟨rfl, rfl⟩ fun r h => nomatch hr.symm.trans h
  | some penalty =>
    have hrow : ∀ r, d.db.penalties[id]? = some r → r = penalty := fun r h =>
      Option.some.inj (h.symm.trans hr)
    by_cases hpaid : penalty.paid
    · simp only [hpaid, if_true]
      exact hnone d ⟨rfl, rfl⟩ fun r h => by simp [hrow r h, Penalty.owed, hpaid]
    · simp only [hpaid]
      have hrun := (confirmPenaltyPaymentManually_runs hr : Runs fees now (Same d.db)
        (confirmPenaltyPaymentManually id penalty.profileId .other) _ _) d.money ⟨rfl, rfl⟩
      unfold runMoney
      generalize (confirmPenaltyPaymentManually id penalty.profileId .other).alone _ _ d.money = o
        at hrun ⊢
      obtain ⟨t, e | a⟩ := o
      · exact hnone _ hrun.1 fun r h => by rw [hrow r h]; exact hrun.2
      · obtain ⟨⟨hpenalties, hprofiles⟩, howed⟩ := hrun
        refine meets_resyncOne (f := fun p => { p with paid := true }) (e := t.db) hn hfk hs hr
          howed (by simp [Penalty.owed]) (fun _ => rfl) hpenalties hprofiles rfl
          ⟨fun h => h _ hr howed, ?_⟩
        intro h r hr' _
        rwa [hrow r hr']

/-- Changing many penalties of some profiles, and the short rule for those profiles. -/
theorem meets_resyncBillingStatus {d' : Desk} {e : Db} {ps : List ℕ}
    {f : ℕ → Penalty → Penalty} (hn : 1 ≤ n) (hfk : ForeignKeys d.db) (hs : Synced n d.db)
    (hmap : ∀ i, e.penalties[i]? = (d.db.penalties[i]?).map (f i))
    (hprofile : ∀ i r, (f i r).profileId = r.profileId)
    (hothers : ∀ i r, d.db.penalties[i]? = some r → r.profileId ∉ ps → f i r = r)
    (hprofiles : e.profiles = d.db.profiles) (hd : d'.db = resyncBillingStatus e ps)
    (hop : op.WithinThreshold n d ↔
      ∀ q ∈ ps, q < d.db.profiles.length → unpaidCount e q < n) : Meets n d op d' := by
  have hcount : ∀ q, q ∉ ps → unpaidCount e q = unpaidCount d.db q := by
    intro q hq
    unfold unpaidCount countPenalties
    rw [Table.length_findMany_of_map hmap]
    refine Table.length_findMany_congr fun i r hr => ?_
    by_cases hrq : r.profileId = q
    · rw [hothers i r hr (by rwa [hrq])]
    · simp [hprofile, hrq]
  refine ⟨?_, ?_⟩
  · rw [hd, synced_resyncBillingStatus_iff hn hs hprofiles hcount, hop]
  · rw [hd]
    exact (hfk.of_map (by rw [hprofiles]) hmap fun i r _ => hprofile i r).resyncBillingStatus

theorem bulkSoftDeletePenalties_meets {ids : List ℕ} (hn : 1 ≤ n) (hfk : ForeignKeys d.db)
    (hs : Synced n d.db) :
    Meets n d (.bulkSoftDeletePenalties ids) (bulkSoftDeletePenalties ids d) := by
  have hmem : ∀ i r, d.db.penalties[i]? = some r →
      (i ∈ (affected d.db ids).map Prod.fst ↔ i ∈ ids ∧ r.owed) := by
    intro i r hr
    rw [mem_map]
    constructor
    · rintro ⟨⟨j, r'⟩, hj, rfl⟩
      obtain ⟨hr', hsel⟩ := Table.mem_findMany.1 hj
      obtain rfl : r = r' := Option.some.inj (hr.symm.trans hr')
      exact of_decide_eq_true hsel
    · intro h
      exact ⟨(i, r), Table.mem_findMany.2 ⟨hr, decide_eq_true h⟩, rfl⟩
  have hprofiles : ∀ q, q ∈ (affected d.db ids).map (·.2.profileId) ↔
      ∃ i r, d.db.penalties[i]? = some r ∧ i ∈ ids ∧ r.owed ∧ r.profileId = q := by
    intro q
    rw [mem_map]
    constructor
    · rintro ⟨⟨i, r⟩, hi, rfl⟩
      obtain ⟨hr, hsel⟩ := Table.mem_findMany.1 hi
      obtain ⟨hids, howed⟩ := of_decide_eq_true hsel
      exact ⟨i, r, hr, hids, howed, rfl⟩
    · rintro ⟨i, r, hr, hids, howed, rfl⟩
      exact ⟨(i, r), Table.mem_findMany.2 ⟨hr, decide_eq_true ⟨hids, howed⟩⟩, rfl⟩
  have hmap := Table.getElem?_updateMany d.db.penalties
    (fun i _ => i ∈ (affected d.db ids).map Prod.fst) fun p => { p with deleted := true }
  have hcount : ∀ q, unpaidCount (archivePenalties d.db ((affected d.db ids).map Prod.fst)) q =
      countPenalties d.db fun j r => r.profileId = q ∧ r.owed ∧ j ∉ ids := by
    intro q
    unfold unpaidCount countPenalties archivePenalties
    rw [Table.length_findMany_of_map hmap]
    refine Table.length_findMany_congr fun i r hr => ?_
    by_cases hi : i ∈ (affected d.db ids).map Prod.fst
    · have hids := ((hmem i r hr).1 hi).1
      simp only [hi, decide_true, if_true]
      simp [Penalty.owed, hids]
    · have hids : i ∈ ids → r.owed = false := fun h =>
        Bool.eq_false_iff.2 fun howed => hi ((hmem i r hr).2 ⟨h, howed⟩)
      simp only [hi, decide_false, Bool.false_eq_true, if_false]
      by_cases h : i ∈ ids <;> simp [h, hids]
  refine meets_resyncBillingStatus hn hfk hs
    (e := archivePenalties d.db ((affected d.db ids).map Prod.fst)) hmap
    (fun i r => ?_) (fun i r hr hq => ?_) rfl rfl ?_
  · split <;> rfl
  · rw [if_neg]
    intro hi
    obtain ⟨hids, howed⟩ := (hmem i r hr).1 (of_decide_eq_true hi)
    exact hq ((hprofiles _).2 ⟨i, r, hr, hids, howed, rfl⟩)
  · simp only [hcount, hprofiles]
    constructor
    · rintro h q ⟨i, r, hr, hids, howed, rfl⟩ -
      exact h i r hr hids howed
    · intro h i r hr hids howed
      exact h _ ⟨i, r, hr, hids, howed, rfl⟩ (hfk i r hr)

theorem bulkRestore_meets {ids : List ℕ} (hn : 1 ≤ n) (hfk : ForeignKeys d.db)
    (hs : Synced n d.db) : Meets n d (.bulkRestore ids) (bulkRestore ids d) := by
  have hmap := Table.getElem?_updateMany d.db.penalties (fun i p => i ∈ ids ∧ p.deleted)
    fun p => { p with deleted := false }
  have hprofiles : ∀ q, q ∈ (Table.findMany (restorePenalties d.db ids).penalties
        fun i _ => i ∈ ids).map (·.2.profileId) ↔
      ∃ i r, d.db.penalties[i]? = some r ∧ i ∈ ids ∧ r.profileId = q := by
    intro q
    rw [mem_map]
    constructor
    · rintro ⟨⟨i, r⟩, hi, rfl⟩
      obtain ⟨hr, hsel⟩ := Table.mem_findMany.1 hi
      rw [restorePenalties, hmap] at hr
      obtain ⟨r₀, hr₀, rfl⟩ := Option.map_eq_some_iff.1 hr
      refine ⟨i, r₀, hr₀, of_decide_eq_true hsel, ?_⟩
      dsimp only
      split <;> rfl
    · rintro ⟨i, r, hr, hids, rfl⟩
      refine ⟨(i, _), Table.mem_findMany.2
        ⟨by rw [restorePenalties, hmap, hr]; rfl, decide_eq_true hids⟩, ?_⟩
      dsimp only
      split <;> rfl
  have hcount : ∀ q, unpaidCount (restorePenalties d.db ids) q = countPenalties d.db fun j r =>
        r.profileId = q ∧ !r.paid ∧ (!r.deleted ∨ j ∈ ids) := by
    intro q
    unfold unpaidCount countPenalties restorePenalties
    rw [Table.length_findMany_of_map hmap]
    refine Table.length_findMany_congr fun i r hr => ?_
    by_cases hi : i ∈ ids <;> cases hdel : r.deleted <;> simp [hi, hdel, Penalty.owed]
  refine meets_resyncBillingStatus hn hfk hs (e := restorePenalties d.db ids) hmap
    (fun i r => ?_) (fun i r hr hq => ?_) rfl rfl ?_
  · split <;> rfl
  · rw [if_neg]
    intro hi
    exact hq ((hprofiles _).2 ⟨i, r, hr, (of_decide_eq_true hi).1, rfl⟩)
  · simp only [hcount, hprofiles]
    constructor
    · rintro h q ⟨i, r, hr, hids, rfl⟩ -
      exact h i r hr hids
    · intro h i r hr hids
      exact h _ ⟨i, r, hr, hids, rfl⟩ (hfk i r hr)

theorem markPenaltiesPaid_meets {workerId : ℕ} (hn : 1 ≤ fees.billingBlockThreshold)
    (hfk : ForeignKeys d.db) (hs : Synced fees.billingBlockThreshold d.db) :
    Meets fees.billingBlockThreshold d (.markPenaltiesPaid workerId)
      (markPenaltiesPaid fees workerId d) := by
  unfold markPenaltiesPaid
  split_ifs with hnone
  · exact meets_of_same hfk hs ⟨rfl, rfl⟩ trivial
  · refine meets_of_sameOrRecomputed (p := workerId) hn hfk hs (.inr ?_) trivial
    have howed : ∀ (i : ℕ) (r : Penalty), d.db.penalties[i]? = some r →
        decide (r.profileId = workerId ∧ r.owed) → r.profileId = workerId :=
      fun i r _ hsel => (of_decide_eq_true hsel).1
    exact recomputed_updateMany howed rfl rfl

/-- **Step lemma.** -/
theorem perform_meets (hn : 1 ≤ fees.billingBlockThreshold)
    (hfk : ForeignKeys d.db) (hs : Synced fees.billingBlockThreshold d.db) :
    Meets fees.billingBlockThreshold d op (perform fees now d op) := by
  cases op with
  | createPenaltyByAdmin p a amount => exact createPenaltyByAdmin_meets hn hfk hs
  | cancel a w => exact cancel_meets hn hfk hs
  | payPenaltyFromWallet id p =>
    exact meets_of_sameOrRecomputed hn hfk hs (runMoney_store payPenaltyFromWallet_runs) trivial
  | payAllPenaltiesWithWallet p =>
    exact meets_of_sameOrRecomputed hn hfk hs (runMoney_store payAllPenaltiesWithWallet_runs)
      trivial
  | confirmPenaltyPaymentByAdmin id => exact confirmPenaltyPaymentByAdmin_meets hn hfk hs
  | deletePenalty id => exact deletePenalty_meets hn hfk hs
  | bulkSoftDeletePenalties ids => exact bulkSoftDeletePenalties_meets hn hfk hs
  | bulkRestore ids => exact bulkRestore_meets hn hfk hs
  | markPenaltiesPaid w => exact markPenaltiesPaid_meets hn hfk hs
  | handlePenaltyPostPayment r =>
    exact meets_of_sameOrRecomputed hn hfk hs (runMoney_store handlePenaltyPostPayment_runs)
      trivial

/-! ### Sequences -/

/-- **The billing status is a function of the unpaid penalties as long as the threshold is not
reached by hand.** From a synced database, every operation of a sequence leaves it synced exactly
when every operation that does not know BLOCKED was within the threshold when it ran. -/
theorem synced_iff_withinThreshold (hn : 1 ≤ fees.billingBlockThreshold)
    (hfk : ForeignKeys d.db) (hs : Synced fees.billingBlockThreshold d.db)
    (calls : List (ℕ × Operation)) :
    (∀ k, Synced fees.billingBlockThreshold (sequence fees d (calls.take k)).db) ↔
      ∀ (k now : ℕ) (op : Operation), calls[k]? = some (now, op) →
        op.WithinThreshold fees.billingBlockThreshold (sequence fees d (calls.take k)) := by
  induction calls generalizing d with
  | nil =>
    refine iff_of_true (fun k => ?_) fun k now op h => ?_
    · rw [take_nil]
      exact hs
    · simp at h
  | cons call calls ih =>
    obtain ⟨now, op⟩ := call
    obtain ⟨hiff, hkeys⟩ : Meets fees.billingBlockThreshold d op (perform fees now d op) :=
      perform_meets hn hfk hs
    constructor
    · intro h k now' op' hk
      have hfirst : Synced fees.billingBlockThreshold (perform fees now d op).db := h 1
      cases k with
      | zero =>
        obtain ⟨rfl, rfl⟩ : now = now' ∧ op = op' := by simpa using hk
        exact hiff.1 hfirst
      | succ k => exact (ih hkeys hfirst).1 (fun k => h (k + 1)) k now' op' hk
    · intro h k
      have hfirst := hiff.2 (h 0 now op rfl)
      cases k with
      | zero => exact hs
      | succ k => exact (ih hkeys hfirst).2 (fun k now' op' hk => h (k + 1) now' op' hk) k

/-- A desk with one profile that owes nothing. -/
def newProfile : Desk where
  money := {
    db := {
      profiles := [{ isBusiness := false, whatsappActivationBonusGranted := false,
                     billingStatus := .clear }]
      penalties := [], requests := [], wallets := [], transactions := [], payments := []
      payouts := [], referrals := [] }
    deposits := []
    jobs := [] }
  applications := []

/-- The default configuration. -/
def defaultFees : Fees where
  billingBlockThreshold := 2
  lateCancellationPenaltyFcfa := 5000
  cancellationThresholdHours := 4

theorem newProfile_synced : Synced 2 newProfile.db := by
  rw [synced_iff (by decide)]
  intro p profile hp
  obtain rfl := mem_singleton.1 (mem_of_getElem? hp)
  rfl

theorem newProfile_foreignKeys : ForeignKeys newProfile.db :=
  fun i r h => by simp [newProfile, Desk.db] at h

/-- A penalty created by hand and confirmed by hand: below the threshold throughout. -/
theorem one_penalty_synced : Synced 2 (sequence defaultFees newProfile
    [(0, .createPenaltyByAdmin 0 none 500), (1, .confirmPenaltyPaymentByAdmin 0)]).db := by
  have hn : 1 ≤ defaultFees.billingBlockThreshold := by decide
  refine (synced_iff_withinThreshold hn newProfile_foreignKeys newProfile_synced
    [(0, .createPenaltyByAdmin 0 none 500), (1, .confirmPenaltyPaymentByAdmin 0)]).2
    (fun k now op hk => ?_) 2
  rcases k with _ | _ | k
  · obtain ⟨rfl, rfl⟩ : 0 = now ∧ _ = op := by simpa using hk
    exact fun _ _ => by decide
  · obtain ⟨rfl, rfl⟩ : 1 = now ∧ _ = op := by simpa using hk
    intro r hr _
    have hprofile : r.profileId = 0 := by
      obtain rfl := mem_singleton.1 (mem_of_getElem? hr)
      rfl
    rw [hprofile]
    decide
  · simp at hk

/-- With a threshold of two, the second penalty created by hand leaves the profile in
PENDING_PAYMENT. -/
theorem two_penalties_not_blocked : Synced 2 newProfile.db ∧
    ¬ Synced 2 (sequence defaultFees newProfile
      [(0, .createPenaltyByAdmin 0 none 500), (1, .createPenaltyByAdmin 0 none 500)]).db := by
  refine ⟨newProfile_synced, fun h => ?_⟩
  have hblocked := (h 0 _ rfl).2.2 (by decide)
  cases hblocked

end Rabotka.Billing
