import Rabotka.Billing.Operations
import Rabotka.Money.Frame

/-!
# Penalty payments run alone

What the operations of the money services do to the penalties and the billing statuses when
nothing else runs. Paying from the wallet, paying everything and settling a payment request
leave the penalties and the statuses of a database alone or recompute the status of one
profile; confirming a payment by hand marks one penalty paid and leaves the status to its
caller.
-/

namespace Rabotka.Billing

open Async Money

/-- The penalties and the profiles are those of `db`. -/
def Same (db : Db) (s : Store) : Prop :=
  s.db.penalties = db.penalties ∧ s.db.profiles = db.profiles

/-- The penalties and the profiles are those of `db`, or the status of `p` was recomputed. -/
def SameOrRecomputed (n p : ℕ) (db : Db) (s : Store) : Prop :=
  Same db s ∨ Recomputed n p db s.db

/-- The triples of money operations that run alone at the instant `now`. -/
abbrev Runs (fees : Fees) (now : ℕ) {α : Type} (P : Store → Prop) (op : Prog α)
    (Q : α → Store → Prop) (X : Money.Exn → Store → Prop) : Prop :=
  op.Serial (fun s c => exec s 0 c (answer fees now c)) (.error "refused") P Q X

variable {fees : Fees} {now : ℕ} {db : Db}

/-- Rewriting the profiles and the penalties by those of an equal database. -/
theorem Same.unpaidCount {s : Store} (h : Same db s) (p : ℕ) :
    unpaidCount s.db p = unpaidCount db p :=
  unpaidCount_congr h.1 p

variable {X : Money.Exn → Store → Prop}

/-- A step that changes neither the penalties nor the profiles. -/
theorem issue_same {c : Cmd} (hsome : ∀ s, exec s 0 c (answer fees now c) ≠ none)
    (h : ∀ s t r, exec s 0 c (answer fees now c) = some (t, r) →
      t.db.penalties = s.db.penalties ∧ t.db.profiles = s.db.profiles) :
    Runs fees now (Same db) (issue c) (fun _ => Same db) X := by
  refine .cmd (fun s t r hs hexec => ?_) fun s _ hnone => absurd hnone (hsome s)
  obtain ⟨hpenalties, hprofiles⟩ := h s t r hexec
  exact ⟨hpenalties.trans hs.1, hprofiles.trans hs.2⟩

variable {P : Store → Prop}

/-- A query of which the answer is kept. -/
theorem issue_read {c : Cmd} {Q : Resp c → Prop}
    (hsome : ∀ s, exec s 0 c (answer fees now c) ≠ none)
    (h : ∀ s t r, P s → exec s 0 c (answer fees now c) = some (t, r) → t = s ∧ Q r) :
    Runs fees now P (issue c) (fun r s => P s ∧ Q r) X := by
  refine .cmd (fun s t r hs hexec => ?_) fun s _ hnone => absurd hnone (hsome s)
  obtain ⟨rfl, hr⟩ := h s t r hs hexec
  exact ⟨hs, hr⟩

theorem getOrCreateProfileWallet_same {p : ℕ} :
    Runs fees now (Same db) (getOrCreateProfileWallet p) (fun _ => Same db) X := by
  refine issue_same (fun s h => by simp [exec] at h) fun s t r hexec => ?_
  simp only [exec, Option.some.injEq, Prod.mk.injEq] at hexec
  obtain ⟨rfl, -⟩ := hexec
  rw [Store.withDb_db, Db.upsertProfileWallet]
  split <;> exact ⟨rfl, rfl⟩

theorem getOrCreateSharedWallet_same {o : WalletOwnerType} :
    Runs fees now (Same db) (getOrCreateSharedWallet o) (fun _ => Same db) X := by
  refine .bind (R := fun _ => Same db) (issue_same (fun s h => nomatch h) fun s t r hexec => ?_)
    fun found => ?_
  · obtain ⟨rfl, -⟩ := pair_inj hexec
    exact ⟨rfl, rfl⟩
  · cases found with
    | some walletId => exact .ret fun _ h => h
    | none =>
      refine issue_same (fun s h => nomatch h) fun s t r hexec => ?_
      obtain ⟨rfl, -⟩ := pair_inj hexec
      exact ⟨rfl, rfl⟩

/-- The row of a request that was settled otherwise. -/
theorem createApprovedRequest_runs
    (hP : ∀ s t : Store, t.db.penalties = s.db.penalties → t.db.profiles = s.db.profiles →
      P s → P t) {p : ℕ} {amount : ℚ} {a : Option ℕ} :
    Runs fees now P (issue (.createApprovedRequest p amount a)) (fun _ => P) X := by
  refine .cmd (fun s t r hs hexec => ?_) fun s _ hnone => nomatch hnone
  obtain ⟨rfl, -⟩ := pair_inj hexec
  exact hP s _ rfl rfl hs

/-- What a transaction threw is thrown. -/
theorem orThrow_runs {o : Except Money.Exn Unit} (hX : ∀ e s, o = .error e → P s → X e s) :
    Runs fees now P (orThrow o) (fun _ s => P s ∧ o = .ok ()) X := by
  cases o with
  | ok u => exact .ret fun s hs => ⟨hs, rfl⟩
  | error e => exact .fail fun s hs => hX e s rfl hs

theorem sameOrRecomputed_of_eq {n p : ℕ} {s t : Store}
    (hpenalties : t.db.penalties = s.db.penalties) (hprofiles : t.db.profiles = s.db.profiles)
    (h : SameOrRecomputed n p db s) : SameOrRecomputed n p db t := by
  rcases h with hsame | hrec
  · exact .inl ⟨hpenalties.trans hsame.1, hprofiles.trans hsame.2⟩
  · obtain ⟨f, hmap, hf⟩ := hrec.rows
    refine .inr ⟨⟨f, fun i => by rw [hpenalties]; exact hmap i, hf⟩, ?_⟩
    rw [hprofiles, hrec.profiles]
    simp only [unpaidCount_congr hpenalties]

/-! ### Transactions -/

/-- Marking penalties of `p` paid and recomputing its status. -/
theorem recomputed_updateMany {n p : ℕ} {e : Db} {sel : ℕ → Penalty → Bool}
    (hsel : ∀ i r, db.penalties[i]? = some r → sel i r → r.profileId = p)
    (hpenalties : e.penalties = Table.updateMany db.penalties sel fun r => { r with paid := true })
    (hprofiles : e.profiles = db.profiles) :
    Recomputed n p db (e.recomputeBillingStatus p n) := by
  refine ⟨⟨fun i r => if sel i r then { r with paid := true } else r, fun i => ?_,
    fun i r hr => ?_⟩, ?_⟩
  · have hrow := Table.getElem?_updateMany db.penalties sel (fun r => { r with paid := true }) i
    rw [← hpenalties] at hrow
    exact hrow
  · cases hsr : sel i r
    · simp [hsr]
    · simp [hsr, hsel i r hr hsr]
  · rw [recomputeBillingStatus_eq]
    simp only [setBillingStatus, hprofiles]
    rfl

/-- The transaction of `payPenaltyFromWallet` recomputes the status of the profile. -/
theorem recomputed_of_payPenaltyFromWallet {n id p pw sw : ℕ} {amount : ℚ} {e e' : Db}
    {r : Penalty} (hr : db.penalties[id]? = some r) (hp : r.profileId = p)
    (hpenalties : e.penalties = db.penalties) (hprofiles : e.profiles = db.profiles)
    (h : e.payPenaltyFromWallet id p pw sw amount n = .ok e') : Recomputed n p db e' := by
  obtain ⟨d, hd, d', hd', rfl⟩ := Db.payPenaltyFromWallet_eq_ok.1 h
  obtain ⟨rows, hclaim, rfl⟩ := Option.map_eq_some_iff.1 hd
  obtain ⟨w, hw, rfl⟩ := Db.debit_eq_ok.1 hd'
  obtain ⟨wallets, -, rfl⟩ := Option.map_eq_some_iff.1 hw
  refine ⟨⟨fun i r => if id = i ∧ r.owed then { r with paid := true } else r, fun i => ?_,
    fun i r' hr' => ?_⟩, ?_⟩
  · have hrow := Table.getElem?_claim e.penalties id Penalty.owed
      (fun r => { r with paid := true }) i
    rw [hclaim, hpenalties] at hrow
    exact hrow
  · by_cases hid : id = i ∧ r'.owed
    · obtain ⟨rfl, howed⟩ := hid
      obtain rfl : r = r' := Option.some.inj (hr.symm.trans hr')
      simp [howed, hp]
    · simp [hid]
  · rw [recomputeBillingStatus_eq]
    simp only [setBillingStatus, ← hprofiles]
    rfl

/-! ### Operations -/

theorem debitProfileAndCreditSystem_same {p id : ℕ} {amount : ℚ} {dt : DebitType}
    {ct : CreditType} {rt : ReferenceType} :
    Runs fees now (Same db) (debitProfileAndCreditSystem p amount dt ct rt id)
      (fun _ => Same db) (fun _ => Same db) := by
  refine .bind (R := fun _ => Same db) getOrCreateProfileWallet_same fun pw => ?_
  refine .bind (R := fun _ => Same db) getOrCreateSharedWallet_same fun sw => ?_
  refine .bind (R := fun _ => Same db) (issue_same (fun s h => nomatch h) fun s t r hexec => ?_)
    fun o => ?_
  · obtain rfl : (s.commit (s.db.debitAndCredit pw sw amount dt ct rt id)).1 = t :=
      congrArg Prod.fst (Option.some.inj hexec)
    cases hd : s.db.debitAndCredit pw sw amount dt ct rt id with
    | error e => exact ⟨rfl, rfl⟩
    | ok d =>
      obtain ⟨d', hd', rfl⟩ := Db.debitAndCredit_eq_ok.1 hd
      obtain ⟨w, hw, rfl⟩ := Db.debit_eq_ok.1 hd'
      obtain ⟨wallets, -, rfl⟩ := Option.map_eq_some_iff.1 hw
      exact ⟨rfl, rfl⟩
  · cases o with
    | ok u => exact .ret fun _ h => h
    | error e => exact .fail fun _ h => h

/-- The step that a run's threshold comes from. -/
theorem getBillingBlockThreshold_runs : Runs fees now P (issue .getBillingBlockThreshold)
      (fun n s => P s ∧ n = fees.billingBlockThreshold) X :=
  issue_read (fun s h => nomatch h) fun s t r hs hexec => by
    obtain ⟨rfl, rfl⟩ := pair_inj hexec
    exact ⟨rfl, rfl⟩

/-- Reading a penalty. -/
theorem findPenalty_runs {id : ℕ} : Runs fees now (Same db) (issue (.findPenalty id))
      (fun o s => Same db s ∧ o = db.penalties[id]?) X :=
  issue_read (fun s h => nomatch h) fun s t r hs hexec => by
    obtain ⟨rfl, rfl⟩ := pair_inj hexec
    exact ⟨rfl, by rw [hs.1]⟩

theorem payPenaltyFromWallet_runs {id p : ℕ} : Runs fees now (Same db) (payPenaltyFromWallet id p)
      (fun _ => SameOrRecomputed fees.billingBlockThreshold p db)
      (fun _ => SameOrRecomputed fees.billingBlockThreshold p db) := by
  refine .bind findPenalty_runs fun o => ?_
  cases o with
  | none => exact .fail fun s hs => .inl hs.1
  | some penalty =>
    by_cases hp : penalty.profileId = p
    swap
    · simp only [ne_eq, hp, not_false_eq_true, if_true]
      exact .fail fun s hs => .inl hs.1
    simp only [ne_eq, hp, not_true_eq_false, if_false]
    refine .of_fact fun hrow => ?_
    refine .bind (R := fun _ => Same db) getOrCreateProfileWallet_same fun pw => ?_
    refine .bind (R := fun _ => Same db) getOrCreateSharedWallet_same fun sw => ?_
    refine .bind getBillingBlockThreshold_runs fun n => ?_
    refine .bind (R := fun _ => SameOrRecomputed fees.billingBlockThreshold p db)
      (.cmd (fun s t r hs hexec => ?_) fun s _ hnone => nomatch hnone) fun o => ?_
    · obtain ⟨hs, rfl⟩ := hs
      obtain rfl : (s.commit (s.db.payPenaltyFromWallet id p pw sw
          (Decimal.value penalty.amount) fees.billingBlockThreshold)).1 = t :=
        congrArg Prod.fst (Option.some.inj hexec)
      cases hd : s.db.payPenaltyFromWallet id p pw sw (Decimal.value penalty.amount)
        fees.billingBlockThreshold with
      | error e => exact .inl hs
      | ok d =>
        exact .inr (recomputed_of_payPenaltyFromWallet hrow.symm hp hs.1 hs.2 hd)
    · refine .bind (orThrow_runs fun _ _ _ h => h) fun _ => ?_
      exact (createApprovedRequest_runs fun _ _ => sameOrRecomputed_of_eq).pre_mono fun s hs => hs.1

theorem payAllPenaltiesWithWallet_runs {p : ℕ} :
    Runs fees now (Same db) (payAllPenaltiesWithWallet p)
      (fun _ => SameOrRecomputed fees.billingBlockThreshold p db)
      (fun _ => SameOrRecomputed fees.billingBlockThreshold p db) := by
  refine .bind (issue_read (Q := fun l => l = Table.findMany db.penalties fun _ r =>
      r.profileId = p && r.owed) (fun s h => nomatch h) fun s t r hs hexec => ?_) fun unpaid => ?_
  · obtain ⟨rfl, rfl⟩ := pair_inj hexec
    exact ⟨rfl, by rw [hs.1]⟩
  refine .of_fact fun hunpaid => ?_
  by_cases hnil : unpaid = []
  · simp only [hnil, if_true]
    exact .fail fun s hs => .inl hs
  simp only [hnil, if_false]
  refine .bind (R := fun _ => Same db)
    (debitProfileAndCreditSystem_same.post_mono (fun _ _ h => h) fun _ _ h => .inl h) fun _ => ?_
  refine .bind getBillingBlockThreshold_runs fun n => ?_
  refine .bind (R := fun _ => SameOrRecomputed fees.billingBlockThreshold p db)
    (.cmd (fun s t r hs hexec => ?_) fun s _ hnone => nomatch hnone) fun o => ?_
  · obtain ⟨⟨hpenalties, hprofiles⟩, rfl⟩ := hs
    obtain ⟨rfl, -⟩ := pair_inj hexec
    -- the listed penalties were read as unpaid ones of the profile
    have hlisted : ∀ i r, db.penalties[i]? = some r → decide (i ∈ unpaid.map Prod.fst) →
        r.profileId = p := by
      intro i r hr hmem
      obtain ⟨⟨j, r'⟩, hj, hij⟩ := List.mem_map.1 (of_decide_eq_true hmem)
      obtain rfl : j = i := hij
      rw [hunpaid, Table.mem_findMany] at hj
      obtain rfl : r = r' := Option.some.inj (hr.symm.trans hj.1)
      simp only [Bool.and_eq_true, decide_eq_true_eq] at hj
      exact hj.2.1
    exact .inr (recomputed_updateMany hlisted (by rw [← hpenalties]; rfl) hprofiles)
  · exact createApprovedRequest_runs fun _ _ => sameOrRecomputed_of_eq

theorem handlePenaltyPostPayment_runs {request : PaymentRequest} :
    Runs fees now (Same db) (handlePenaltyPostPayment request)
      (fun _ => SameOrRecomputed fees.billingBlockThreshold request.profileId db)
      (fun _ => SameOrRecomputed fees.billingBlockThreshold request.profileId db) := by
  by_cases hkind : request.isPenaltyRequest
  swap
  · simp only [handlePenaltyPostPayment, hkind]
    exact .ret fun s hs => .inl hs
  simp only [handlePenaltyPostPayment, hkind, if_true]
  refine .orElseCatch (Y := fun _ => Same db) ?_ fun e => .ret fun s hs => .inl hs
  refine .bind getBillingBlockThreshold_runs fun n => ?_
  refine .cmd (fun s t r hs hexec => ?_) fun s _ hnone => nomatch hnone
  obtain ⟨⟨hpenalties, hprofiles⟩, rfl⟩ := hs
  obtain ⟨rfl, -⟩ := pair_inj hexec
  have hpriced : ∀ i r, db.penalties[i]? = some r → Db.pricedPenalties request i r →
      r.profileId = request.profileId := by
    intro i r _ hsel
    simp only [Db.pricedPenalties, Bool.and_eq_true, decide_eq_true_eq] at hsel
    exact hsel.1.1
  exact .inr (recomputed_updateMany hpriced (by rw [← hpenalties]) hprofiles)

/-- One penalty was marked paid, and the statuses are as they were. -/
def Confirmed (id : ℕ) (db : Db) (s : Store) : Prop :=
  s.db.penalties = Table.update db.penalties id (fun r => { r with paid := true }) ∧
    s.db.profiles = db.profiles

/-- Confirming by hand succeeds exactly on a penalty that is still owed. -/
theorem confirmPenaltyPaymentManually_runs {id : ℕ} {penalty : Penalty} {m : PaymentMethod}
    (hr : db.penalties[id]? = some penalty) :
    Runs fees now (Same db) (confirmPenaltyPaymentManually id penalty.profileId m)
      (fun _ s => Confirmed id db s ∧ penalty.owed)
      (fun _ s => Same db s ∧ penalty.owed = false) := by
  refine .bind findPenalty_runs fun o => ?_
  refine .of_fact fun ho => ?_
  obtain rfl : o = some penalty := ho.trans hr
  simp only [ne_eq, not_true_eq_false, if_false]
  by_cases hpaid : penalty.paid
  · simp only [hpaid, if_true]
    exact .fail fun s hs => ⟨hs, by simp [Penalty.owed, hpaid]⟩
  simp only [hpaid]
  refine .bind (R := fun _ => Same db) getOrCreateSharedWallet_same fun sw => ?_
  refine .bind (R := fun o s => (o = .ok () ∧ Confirmed id db s ∧ penalty.owed) ∨
      ((∃ e, o = .error e) ∧ Same db s ∧ penalty.owed = false))
    (.cmd (fun s t r hs hexec => ?_) fun s _ hnone => by cases hnone) fun o => ?_
  · have hcommit : s.commit (s.db.confirmPenaltyPaymentManually id penalty.profileId sw
        (Decimal.value penalty.amount) m) = (t, r) := Option.some.inj hexec
    have hrow : s.db.penalties[id]? = some penalty := by rw [hs.1]; exact hr
    cases hd : s.db.confirmPenaltyPaymentManually id penalty.profileId sw
        (Decimal.value penalty.amount) m with
    | error e =>
      rw [hd] at hcommit
      obtain ⟨rfl, rfl⟩ := Prod.mk.inj hcommit
      refine .inr ⟨⟨e, rfl⟩, hs, ?_⟩
      -- the claim is the only statement that can throw
      by_contra howed
      have howed' : penalty.owed = true := by simpa using howed
      simp [Db.confirmPenaltyPaymentManually, Db.claimPenalty, Db.credit, Db.createPayment,
        Db.createTransaction, Db.incrementBalance, Table.claim, hrow, howed'] at hd
    | ok d =>
      rw [hd] at hcommit
      obtain ⟨rfl, rfl⟩ := Prod.mk.inj hcommit
      obtain ⟨rows, hclaim, rfl⟩ := Option.map_eq_some_iff.1
        (Db.confirmPenaltyPaymentManually_eq_ok.1 hd)
      obtain ⟨r, hr', howed, rfl⟩ := Table.claim_eq_some.1 hclaim
      obtain rfl : penalty = r := Option.some.inj (hrow.symm.trans hr')
      refine .inl ⟨rfl, ⟨?_, hs.2⟩, howed⟩
      rw [Table.update_of_some hr, ← hs.1]
      rfl
  · cases o with
    | error e => exact .fail fun s hs => hs.elim (fun h => by cases h.1) fun h => h.2
    | ok u =>
      refine .bind (R := fun _ s => Confirmed id db s ∧ penalty.owed)
        (.ret fun s hs => hs.elim (fun h => h.2) fun h => by obtain ⟨⟨e, he⟩, -⟩ := h; cases he)
          fun _ => ?_
      exact createApprovedRequest_runs fun s t hp hq h =>
        ⟨⟨hp.trans h.1.1, hq.trans h.1.2⟩, h.2⟩

end Rabotka.Billing
