import Rabotka.Lib.RelyGuarantee
import Rabotka.Money.WalletRules

/-!
# How the money operations keep out of each other's way

The money operations checked once against a rely–guarantee discipline, for every property of
the money services to use. Each operation has a specification here that says with which
facts and debts it ends, and `handles` collects them: whatever else runs, an operation takes
each of its steps under the precondition `Pre`, and if its calls do not throw on their own
account it ends with nothing left to book.
-/

namespace Rabotka.Money

open Async Discipline

theorem Store.grows_of_step {s t : Store} {i : ℕ} {c : Cmd} {ε : Env} {r : Resp c}
    (h : service.exec s i c ε = some (t, r)) : s.Grows t :=
  @exec_grows s t i c ε r h

/-- The discipline of the money services; calls may throw on their own account only if
`faults`. -/
def money (faults : Bool) : Discipline tracked where
  guard := Service.liftGuard (faultGuard faults)
  inv x := x.1.db.RowsHaveWallets
  pre := Pre faults
  rely i x y := x.1.db.Grows y.1.db ∧
    y.2.chargesOf i = x.2.chargesOf i ∧ y.2.bookingsOf i = x.2.bookingsOf i
  idle i := Owes faults i [] []
  rely_refl _ x := ⟨.refl _, rfl, rfl⟩
  rely_trans h h' := ⟨h.1.trans h'.1, h'.2.1.trans h.2.1, h'.2.2.trans h.2.2⟩
  idle_rely h hidle hf := ⟨h.2.1.trans (hidle hf).1, h.2.2.trans (hidle hf).2⟩
  sound hinv hpre _ hexec := by
    obtain ⟨hstep, hrecord⟩ := Service.withHistory_exec.1 hexec
    refine ⟨rowsHaveWallets_rules.exec hpre (fun _ _ => trivial) (fun _ _ _ _ => trivial)
      hstep hinv, fun j hj => ?_⟩
    rw [hrecord]
    exact ⟨(Store.grows_of_step hstep).db, Debts.record_of_ne _ hj _ _⟩

variable {faults : Bool} {i : ℕ} {F : Db → Prop}

/-- What a process knows and what it owes. -/
def Knows (faults : Bool) (i : ℕ) (F : Db → Prop) (charges : List (ℕ × ℤ))
    (bookings : List ℤ) (x : Store × Debts) : Prop :=
  F x.1.db ∧ Owes faults i charges bookings x

/-- An operation that throws has booked everything, unless it was cut short. -/
abbrev Booked (faults : Bool) (i : ℕ) : Exn → Store × Debts → Prop :=
  fun _ => Owes faults i [] []

theorem stable_knows (hF : Persistent F) {ch bk} :
    (money faults).Stable i (Knows faults i F ch bk) := by
  rintro x y - ⟨hdb, hch, hbk⟩ ⟨hFx, hx⟩
  exact ⟨hF _ _ hdb hFx, fun hf => ⟨hch.trans (hx hf).1, hbk.trans (hx hf).2⟩⟩

/-! ### The rule for one step -/

/-- One step: it needs its precondition, and it adds what its answer tells and what it opens
or closes. -/
theorem issue_spec (c : Cmd) {ch bk} (ch' : Resp c → List (ℕ × ℤ)) (bk' : Resp c → List ℤ)
    (hF : Persistent F) (G : Resp c → Db → Prop)
    (hpre : ∀ x, Knows faults i F ch bk x → Pre faults i c x)
    (hG : ∀ s ε t r, F s.db → exec s i c ε = some (t, r) → G r t.db)
    (hrec : ∀ h r, Debts.chargesOf h i = ch → Debts.bookingsOf h i = bk →
      (h.record i c r).chargesOf i = ch' r ∧ (h.record i c r).bookingsOf i = bk' r) :
    (money faults).Triple i (Knows faults i F ch bk) (issue c)
      (fun r => Knows faults i (fun db => F db ∧ G r db) (ch' r) (bk' r))
      (Booked faults i) := by
  refine Triple.cmd (stable_knows hF) (fun x _ => hpre x) ?_ ?_
  · intro x ε y r _ hx _ hexec _
    obtain ⟨hstep, hrecord⟩ := Service.withHistory_exec.1 hexec
    refine ⟨⟨hF _ _ (Store.grows_of_step hstep).db hx.1, hG _ ε _ r hx.1 hstep⟩, fun hf => ?_⟩
    rw [hrecord]
    exact hrec x.2 r (hx.2 hf).1 (hx.2 hf).2
  · intro x e hfault _ _ hf
    rw [hf] at hfault
    cases hfault

/-- A step that neither opens nor closes a debt. -/
theorem issue_quiet (c : Cmd) {ch bk} (hq : (fun h => Debts.record h i c) = fun h _ => h)
    (hF : Persistent F) (G : Resp c → Db → Prop)
    (hpre : ∀ x, Knows faults i F ch bk x → Pre faults i c x)
    (hG : ∀ s ε t r, F s.db → exec s i c ε = some (t, r) → G r t.db) :
    (money faults).Triple i (Knows faults i F ch bk) (issue c)
      (fun r => Knows faults i (fun db => F db ∧ G r db) ch bk) (Booked faults i) :=
  issue_spec c _ _ hF G hpre hG fun h r hch hbk => by
    rw [congrFun (congrFun hq h) r]
    exact ⟨hch, hbk⟩

/-- A step about which nothing more needs to be known. -/
theorem issue_plain (c : Cmd) {ch bk} (hq : (fun h => Debts.record h i c) = fun h _ => h)
    (hF : Persistent F) (hpre : ∀ x, Knows faults i F ch bk x → Pre faults i c x) :
    (money faults).Triple i (Knows faults i F ch bk) (issue c)
      (fun _ => Knows faults i F ch bk) (Booked faults i) :=
  Triple.post_mono (issue_quiet c hq hF (fun _ _ => True) hpre fun _ _ _ _ _ _ => trivial)
    (fun _ _ _ h => ⟨h.1.1, h.2⟩) fun _ _ _ h => h

/-- A step that needs nothing. -/
theorem issue_free (c : Cmd) {ch bk} (hq : (fun h => Debts.record h i c) = fun h _ => h)
    (hpre : Pre faults i c = fun _ => True) (hF : Persistent F) :
    (money faults).Triple i (Knows faults i F ch bk) (issue c)
      (fun _ => Knows faults i F ch bk) (Booked faults i) :=
  issue_plain c hq hF fun _ _ => hpre ▸ trivial

/-- The end of an operation that has booked everything. -/
theorem knows_idle {α : Type} {a : α} :
    (money faults).Triple i (Knows faults i F [] []) (.ret a : Prog α)
      (fun _ => Owes faults i [] []) (Booked faults i) :=
  Triple.ret fun _ _ h => h.2

theorem throw_idle {α : Type} {e : Exn} {Q : α → Store × Debts → Prop} :
    (money faults).Triple i (Knows faults i F [] []) (.fail e : Prog α) Q (Booked faults i) :=
  Triple.fail fun _ _ h => h.2

/-- Forgetting what is known. -/
theorem owes_of_knows {op : Prog Unit} (h : (money faults).Triple i (Knows faults i F [] []) op
      (fun _ => Knows faults i F [] []) (Booked faults i)) :
    (money faults).Triple i (Knows faults i F [] []) op (fun _ => Owes faults i [] [])
      (Booked faults i) :=
  Triple.post_mono h (fun _ _ _ h => h.2) fun _ _ _ h => h

/-- Without debts before, the operation leaves none. -/
abbrev Settles (faults : Bool) (i : ℕ) (op : Prog Unit) : Prop :=
  (money faults).Triple i (Knows faults i (fun _ => True) [] []) op
    (fun _ => Owes faults i [] []) (Booked faults i)

/-! ### Wallets -/

theorem getOrCreateSharedWallet_spec (hF : Persistent F) (o : WalletOwnerType) {ch bk} :
    (money faults).Triple i (Knows faults i F ch bk) (getOrCreateSharedWallet o)
      (fun w => Knows faults i (fun db => F db ∧ db.Owner w (o, none)) ch bk)
      (Booked faults i) := by
  refine Triple.bind (issue_quiet (.findSharedWallet o) rfl hF
    (fun r db => ∀ w, r = some w → db.Owner w (o, none)) (fun _ _ => trivial) ?_) fun r => ?_
  · intro s ε t r _ hexec w hr
    obtain ⟨rfl, rfl⟩ := pair_inj hexec
    simp only [Db.findSharedWallet, Option.map_eq_some_iff, Prod.exists, exists_and_right,
      exists_eq_right] at hr
    obtain ⟨x, hx⟩ := hr
    obtain ⟨hx, hp⟩ := Table.findFirst_eq_some hx
    simp only [Bool.decide_and, Bool.and_eq_true, decide_eq_true_eq] at hp
    exact ⟨x, hx, Prod.ext hp.1 hp.2⟩
  · cases r with
    | some w => exact Triple.ret fun x _ h => ⟨⟨h.1.1, h.1.2 w rfl⟩, h.2⟩
    | none =>
      refine Triple.pre_mono (issue_quiet (.createSharedWallet o) rfl hF
        (fun w db => db.Owner w (o, none)) (fun _ _ => trivial) ?_) fun x _ h => ⟨h.1.1, h.2⟩
      intro s ε t w _ hexec
      obtain ⟨rfl, rfl⟩ := pair_inj hexec
      exact ⟨_, List.getElem?_concat_length, rfl⟩

theorem getOrCreateProfileWallet_spec (hF : Persistent F) (p : ℕ) {ch bk} :
    (money faults).Triple i (Knows faults i F ch bk) (getOrCreateProfileWallet p)
      (fun w => Knows faults i (fun db => F db ∧ db.Owner w (.profile, some p)) ch bk)
      (Booked faults i) := by
  refine issue_quiet (.upsertProfileWallet p) rfl hF
    (fun w db => db.Owner w (.profile, some p)) (fun _ _ => trivial) ?_
  intro s ε t w _ hexec
  simp only [exec, Option.some.injEq] at hexec
  obtain ⟨rfl, rfl⟩ := Prod.mk.inj hexec
  unfold Store.withDb Db.upsertProfileWallet
  split
  · rename_i w x hx
    obtain ⟨hx, hp⟩ := Table.findFirst_eq_some hx
    simp only [Bool.decide_and, Bool.and_eq_true, decide_eq_true_eq] at hp
    exact ⟨x, hx, Prod.ext hp.1 hp.2⟩
  · exact ⟨_, List.getElem?_concat_length, rfl⟩

theorem creditProfileWallet_spec (hF : Persistent F) (p : ℕ) (amount : ℚ) (type : CreditType)
    (rt : ReferenceType) (rid : Option ℕ) :
    (money faults).Triple i (Knows faults i F [] []) (creditProfileWallet p amount type rt rid)
      (fun _ => Knows faults i F [] []) (Booked faults i) := by
  simp only [creditProfileWallet, Op.bind_eq, Op.throw_eq, Op.fail_bind]
  split
  · exact throw_idle
  · rename_i hamount
    refine Triple.bind (getOrCreateProfileWallet_spec hF p) fun w => ?_
    refine Triple.post_mono (issue_plain (.credit w type amount rt rid) rfl
      (hF.and (persistent_owner _ _)) ?_)
      (fun _ _ _ h => ⟨h.1.1, h.2⟩) fun _ _ _ h => h
    exact fun x h => ⟨by simpa using hamount, some p, h.1.2⟩

/-- A transaction that was rolled back ends the operation. -/
theorem orThrow_spec {α : Type} (r : Except Exn α) :
    (money faults).Triple i (Knows faults i F [] []) (orThrow r)
      (fun _ => Knows faults i F [] []) (Booked faults i) := by
  cases r with
  | ok a => exact Triple.ret fun _ _ h => h
  | error e => exact throw_idle

theorem debitProfileWallet_spec (p : ℕ) (amount : ℚ) (type : DebitType) (rt : ReferenceType)
    (rid : Option ℕ) :
    Settles faults i (debitProfileWallet p amount type rt rid) := by
  refine Triple.bind (getOrCreateProfileWallet_spec (persistent_const _) p) fun w => ?_
  refine Triple.bind (issue_plain (.debit w type amount rt rid) rfl
    ((persistent_const _).and (persistent_owner _ _)) fun x h => ⟨some p, h.1.2⟩) fun r => ?_
  exact Triple.post_mono (orThrow_spec r) (fun _ _ _ h => h.2) fun _ _ _ h => h

theorem debitProfileAndCreditSystem_spec (hF : Persistent F) (p : ℕ) (a : ℤ) (dt : DebitType)
    (ct : CreditType) (rt : ReferenceType) (rid : ℕ) (hrt : rt.settles = false)
    (hdt : dt.1 = .penaltyDebit → p = rid) :
    (money faults).Triple i (Knows faults i F [] [])
      (debitProfileAndCreditSystem p (Decimal.value a) dt ct rt rid)
      (fun _ => Knows faults i F (if dt.1 = .penaltyDebit then [(rid, a)] else []) [a])
      (Booked faults i) := by
  refine Triple.bind (getOrCreateProfileWallet_spec hF p) fun pw => ?_
  refine Triple.bind (getOrCreateSharedWallet_spec (hF.and (persistent_owner _ _)) .system)
    fun sw => ?_
  refine Triple.bind (issue_spec (.debitAndCredit pw sw (Decimal.value a) dt ct rt rid)
    (fun r : Except Exn Unit => if r.isOk ∧ dt.1 = .penaltyDebit then [(rid, a)] else [])
    (fun r : Except Exn Unit => if r.isOk then [a] else [])
    ((hF.and (persistent_owner _ _)).and (persistent_owner _ _)) (fun _ _ => True) ?_
    (fun _ _ _ _ _ _ => trivial) ?_) fun r => ?_
  · exact fun x h => ⟨exact_value a, hrt, ⟨p, h.1.1.2, hdt⟩, h.1.2, h.2⟩
  · intro h r hch hbk
    cases r with
    | error e => simpa [Debts.record, Except.isOk, Except.toBool] using ⟨hch, hbk⟩
    | ok u =>
      simp only [Debts.record, Decimal.column_value, Debts.chargesOf, Debts.bookingsOf] at *
      split <;> simp [Except.isOk, Except.toBool, *]
  · cases r with
    | ok u =>
      refine Triple.ret fun x _ h => ⟨h.1.1.1.1, ?_⟩
      simpa [Except.isOk, Except.toBool] using h.2
    | error e => exact Triple.fail fun x _ h => by simpa [Except.isOk, Except.toBool] using h.2

theorem grantWelcomeCredit_spec (p : ℕ) (isWorker : Bool) :
    Settles faults i (grantWelcomeCredit p isWorker) := by
  refine Triple.bind (issue_free (.findProfile p) rfl rfl (persistent_const _)) fun profile => ?_
  cases profile with
  | none => exact throw_idle
  | some profile =>
    dsimp only
    split
    · exact knows_idle
    split
    · exact knows_idle
    refine Triple.bind (issue_free .getWelcomeCredits rfl rfl (persistent_const _))
      fun credits => ?_
    refine Triple.bind (getOrCreateProfileWallet_spec (persistent_const _) p) fun w => ?_
    refine Triple.post_mono (issue_plain (.grantWelcomeCredit p w _) rfl
      ((persistent_const _).and (persistent_owner _ _)) fun x h => ⟨?_, some p, h.1.2⟩)
      (fun _ _ _ h => h.2) fun _ _ _ h => h
    have hpos := credits.2
    split
    · exact hpos.1
    · exact hpos.2

/-! ### Penalties -/

/-- Reading a penalty tells its terms for good. -/
theorem findPenalty_spec (penaltyId : ℕ) :
    (money faults).Triple i (Knows faults i (fun _ => True) [] []) (issue (.findPenalty penaltyId))
      (fun r => Knows faults i (fun db => True ∧ ∀ p, r = some p → db.HasPenalty penaltyId p) [] [])
      (Booked faults i) := by
  refine issue_quiet (.findPenalty penaltyId) rfl (persistent_const _)
    (fun r db => ∀ p, r = some p → db.HasPenalty penaltyId p) (fun _ _ => trivial) ?_
  intro s ε t r _ hexec p hr
  obtain ⟨rfl, rfl⟩ := pair_inj hexec
  exact ⟨p, hr, rfl⟩

theorem payPenaltyFromWallet_spec (penaltyId p : ℕ) :
    Settles faults i (payPenaltyFromWallet penaltyId p) := by
  refine Triple.bind (findPenalty_spec penaltyId) fun r => ?_
  cases r with
  | none => exact throw_idle
  | some penalty =>
    simp only [Op.bind_eq, Op.throw_eq, Op.fail_bind]
    split
    · exact throw_idle
    rename_i hp
    refine Triple.pre_mono (R := Knows faults i (fun db => db.HasPenalty penaltyId penalty) [] [])
      ?_ fun x _ h => ⟨h.1.2 penalty rfl, h.2⟩
    have hF := persistent_hasPenalty penaltyId penalty
    refine Triple.bind (getOrCreateProfileWallet_spec hF p) fun pw => ?_
    have hF' := hF.and (persistent_owner pw (.profile, some p))
    refine Triple.bind (getOrCreateSharedWallet_spec hF' .system) fun sw => ?_
    have hF'' := hF'.and (persistent_owner sw (.system, none))
    refine Triple.bind (issue_free .getBillingBlockThreshold rfl rfl hF'') fun n => ?_
    refine Triple.bind (issue_plain (.payPenaltyFromWallet penaltyId p pw sw
      (Decimal.value penalty.amount) n) rfl hF'' fun x h => ?_) fun r => ?_
    · exact ⟨⟨penalty, h.1.1.1, by simpa using hp, rfl⟩, h.1.1.2, h.1.2⟩
    · refine Triple.bind (orThrow_spec r) fun _ => owes_of_knows ?_
      exact issue_free (.createApprovedRequest _ _ _) rfl rfl hF''

theorem confirmPenaltyPaymentManually_spec (penaltyId p : ℕ) (m : PaymentMethod) :
    Settles faults i (confirmPenaltyPaymentManually penaltyId p m) := by
  refine Triple.bind (findPenalty_spec penaltyId) fun r => ?_
  cases r with
  | none => exact throw_idle
  | some penalty =>
    simp only [Op.bind_eq, Op.throw_eq, Op.fail_bind]
    split
    · exact throw_idle
    rename_i hp
    split
    · exact throw_idle
    refine Triple.pre_mono (R := Knows faults i (fun db => db.HasPenalty penaltyId penalty) [] [])
      ?_ fun x _ h => ⟨h.1.2 penalty rfl, h.2⟩
    have hF := persistent_hasPenalty penaltyId penalty
    refine Triple.bind (getOrCreateSharedWallet_spec hF .system) fun sw => ?_
    have hF' := hF.and (persistent_owner sw (.system, none))
    refine Triple.bind (issue_plain (.confirmPenaltyPaymentManually penaltyId p sw
      (Decimal.value penalty.amount) m) rfl hF' fun x h => ?_) fun r => ?_
    · exact ⟨⟨penalty, h.1.1, by simpa using hp, rfl⟩, h.1.2⟩
    · refine Triple.bind (orThrow_spec r) fun _ => owes_of_knows ?_
      exact issue_free (.createApprovedRequest _ _ _) rfl rfl hF'

/-- A process without other debts closes what it owes by marking the penalties and writing
the payment. -/
theorem payAllPenaltiesWithWallet_spec (p : ℕ) :
    Settles faults i (payAllPenaltiesWithWallet p) := by
  refine Triple.bind (issue_quiet (.findUnpaid p) rfl (persistent_const _)
    (fun unpaid db => (unpaid.map Prod.fst).Nodup ∧
      ∀ q ∈ unpaid, db.HasPenalty q.1 q.2 ∧ q.2.profileId = p) (fun _ _ => trivial) ?_)
    fun unpaid => ?_
  · intro s ε t r _ hexec
    obtain ⟨rfl, rfl⟩ := pair_inj hexec
    refine ⟨Table.nodup_findMany _ _, fun q hq => ?_⟩
    obtain ⟨hq, hp⟩ := Table.mem_findMany.1 hq
    exact ⟨⟨q.2, hq, rfl⟩, by simp at hp; exact hp.1⟩
  simp only [Op.bind_eq, Op.throw_eq, Op.fail_bind]
  split
  · exact throw_idle
  have hF : Persistent fun db => True ∧ (unpaid.map Prod.fst).Nodup ∧
      ∀ q ∈ unpaid, db.HasPenalty q.1 q.2 ∧ q.2.profileId = p :=
    (persistent_const _).and ((persistent_const _).and (.forall fun q => .forall fun _ =>
      (persistent_hasPenalty _ _).and (persistent_const _)))
  refine Triple.bind (debitProfileAndCreditSystem_spec hF p (totalAmount unpaid) _ _ _ p rfl
    fun _ => rfl) fun _ => ?_
  refine Triple.bind (issue_free .getBillingBlockThreshold rfl rfl hF) fun n => ?_
  refine Triple.bind (issue_spec (.markPenaltiesPaid (unpaid.map Prod.fst) p
    (Decimal.value (totalAmount unpaid)) n) (fun _ => []) (fun _ => []) hF (fun _ _ => True)
    (fun x h => ?_) (fun _ _ _ _ _ _ => trivial) ?_) fun _ => ?_
  · exact ⟨⟨unpaid, rfl, h.1.2.1, h.1.2.2, rfl⟩, by simpa using h.2⟩
  · intro h _ _ _
    simp [Debts.record, Debts.chargesOf, Debts.bookingsOf]
  · exact owes_of_knows (issue_free (.createApprovedRequest _ _ _) rfl rfl
      (hF.and (persistent_const _)))

/-! ### Payment requests -/

/-- Reading a request by the reference it stores tells its terms for good. -/
theorem findRequestByRef_spec (ref : ℕ) :
    (money faults).Triple i (Knows faults i (fun _ => True) [] []) (issue (.findRequestByRef ref))
      (fun r => Knows faults i (fun db => True ∧ ∀ q, r = some q → db.HasRequest q.1 q.2) [] [])
      (Booked faults i) := by
  refine issue_quiet (.findRequestByRef ref) rfl (persistent_const _)
    (fun r db => ∀ q, r = some q → db.HasRequest q.1 q.2) (fun _ _ => trivial) ?_
  intro s ε t r _ hexec q hq
  obtain ⟨rfl, rfl⟩ := pair_inj hexec
  exact ⟨q.2, (Table.findFirst_eq_some hq).1, rfl⟩

theorem assertPenaltiesStillOwed_spec (hF : Persistent F) (r : PaymentRequest) :
    (money faults).Triple i (Knows faults i F [] []) (assertPenaltiesStillOwed r)
      (fun _ => Knows faults i F [] []) (Booked faults i) := by
  simp only [assertPenaltiesStillOwed, Op.bind_eq, Op.throw_eq, Op.pure_eq]
  split
  · refine Triple.bind (issue_free (.countOwed _ _) rfl rfl hF) fun n => ?_
    split
    · exact throw_idle
    · exact Triple.ret fun _ _ h => h
  · exact Triple.ret fun _ _ h => h

theorem assertOperatorMatchesGateway_spec (hF : Persistent F) (operator phone : String) :
    (money faults).Triple i (Knows faults i F [] []) (assertOperatorMatchesGateway operator phone)
      (fun _ => Knows faults i F [] []) (Booked faults i) :=
  Triple.bind (issue_free (.assertOperatorMatchesGateway operator phone) rfl rfl hF) orThrow_spec

theorem gatewayInitiate_spec (hF : Persistent F) (id : ℕ) (amount : ℚ) :
    (money faults).Triple i (Knows faults i F [] []) (gatewayInitiate id amount)
      (fun _ => Knows faults i F [] []) (Booked faults i) := by
  refine Triple.orElseCatch (Y := fun _ => Knows faults i (fun _ => True) [] []) ?_ fun e => ?_
  · refine Triple.bind (R := fun _ => Knows faults i F [] [])
      (Triple.post_mono (issue_free (.gatewayInitiate id amount) rfl rfl hF) (fun _ _ _ h => h)
        fun _ _ _ h => ⟨trivial, h⟩) fun r => ?_
    exact Triple.post_mono (orThrow_spec r) (fun _ _ _ h => h) fun _ _ _ h => ⟨trivial, h⟩
  · exact Triple.bind (issue_free (.revertToPending id) rfl rfl (persistent_const _))
      fun _ => throw_idle

theorem initiatePayment_spec (gateway : String) (token : ℕ) (phone operator : String) :
    Settles faults i (initiatePayment gateway token phone operator) := by
  refine Triple.bind (issue_free (.findRequestByToken token) rfl rfl (persistent_const _))
    fun r => ?_
  rcases r with _ | ⟨id, request⟩
  · exact throw_idle
  have hF : Persistent fun _ => True := persistent_const _
  simp only [Op.bind_eq, Op.throw_eq, Op.fail_bind]
  split
  · exact throw_idle
  refine Triple.bind (assertPenaltiesStillOwed_spec hF request) fun _ => ?_
  refine Triple.bind (assertOperatorMatchesGateway_spec hF operator phone) fun _ => ?_
  refine Triple.bind (issue_free (.claimForProcessing id phone operator) rfl rfl hF)
    fun locked => ?_
  split
  · exact throw_idle
  refine Triple.bind (gatewayInitiate_spec hF id _) fun gatewayRef => ?_
  refine Triple.bind (issue_free (.storeGatewayRef id gateway gatewayRef) rfl rfl hF) fun _ => ?_
  cases gatewayRef with
  | none => exact knows_idle
  | some ref =>
    exact owes_of_knows (issue_free (.addJob _) rfl rfl hF)

theorem submitPayment_spec (token : ℕ) : Settles faults i (submitPayment token) := by
  refine Triple.bind (issue_free (.findRequestByToken token) rfl rfl (persistent_const _))
    fun r => ?_
  rcases r with _ | ⟨id, request⟩
  · exact throw_idle
  simp only [Op.bind_eq, Op.throw_eq, Op.fail_bind]
  split
  · exact throw_idle
  · exact owes_of_knows (issue_free (.submit id) rfl rfl (persistent_const _))

theorem swallow_spec {x : Prog Unit} {P : Store × Debts → Prop}
    (hx : (money faults).Triple i P x (fun _ => Owes faults i [] []) (Booked faults i)) :
    (money faults).Triple i P (swallow x) (fun _ => Owes faults i [] []) (Booked faults i) :=
  Triple.orElseCatch hx fun _ => Triple.ret fun _ _ h => h

theorem knows_of_owes {x : Store × Debts} (h : Owes faults i [] [] x) :
    Knows faults i (fun _ => True) [] [] x :=
  ⟨trivial, h⟩

theorem handlePenaltyPostPayment_spec (id : ℕ) (r : PaymentRequest) : (money faults).Triple i
      (Knows faults i (fun db => db.HasRequest id r)
        (if r.isPenaltyRequest then [(r.profileId, r.amount.getD 0)] else []) [])
      (handlePenaltyPostPayment r) (fun _ => Owes faults i [] []) (Booked faults i) := by
  simp only [handlePenaltyPostPayment]
  split
  · rename_i hr
    have hF := persistent_hasRequest id r
    refine swallow_spec (Triple.bind (issue_free .getBillingBlockThreshold rfl rfl hF) fun n => ?_)
    refine Triple.post_mono (issue_spec (.settlePricedPenalties r n) (fun _ => []) (fun _ => [])
      hF (fun _ _ => True) (fun x h => ⟨hr, ⟨id, h.1⟩, h.2⟩) (fun _ _ _ _ _ _ => trivial) ?_)
      (fun _ _ _ h => h.2) fun _ _ _ h => h
    intro h _ _ hbk
    exact ⟨by simp [Debts.record, Debts.chargesOf], hbk⟩
  · exact knows_idle

theorem handleWalletTopUpPostPayment_spec (id : ℕ) (r : PaymentRequest)
    (context : PaymentProcessingContext) :
    Settles faults i (handleWalletTopUpPostPayment id r context) := by
  simp only [handleWalletTopUpPostPayment]
  split
  · exact swallow_spec (owes_of_knows (creditProfileWallet_spec (persistent_const _) _ _ _ _ _))
  · exact knows_idle

/-- A settlement opens the charge of a penalty request and closes it. -/
theorem processSuccessfulPayment_spec (id : ℕ) (r : PaymentRequest) (tx : Option ℕ) :
    (money faults).Triple i (Knows faults i (fun db => db.HasRequest id r) [] [])
      (processSuccessfulPayment id r tx) (fun _ => Owes faults i [] []) (Booked faults i) := by
  have hF := persistent_hasRequest id r
  refine Triple.bind (R := fun claimed : Bool => Knows faults i (fun db => db.HasRequest id r)
    (if claimed ∧ r.isPenaltyRequest then [(r.profileId, r.amount.getD 0)] else []) []) ?_
    fun claimed => ?_
  · refine Triple.bind (getOrCreateSharedWallet_spec hF .system) fun sw => ?_
    have hF' := hF.and (persistent_owner sw (.system, none))
    refine Triple.bind (getOrCreateSharedWallet_spec hF' .mobileMoney) fun mw => ?_
    refine Triple.post_mono (issue_spec
      (.persistApproved id r (buildPaymentProcessingContext r) tx sw mw)
      (fun claimed : Bool =>
        if claimed ∧ r.isPenaltyRequest then [(r.profileId, r.amount.getD 0)] else [])
      (fun _ => []) (hF'.and (persistent_owner mw (.mobileMoney, none))) (fun _ _ => True)
      (fun x h => ⟨h.1.1.1, rfl, h.1.1.2, h.1.2, h.2⟩) (fun _ _ _ _ _ _ => trivial) ?_)
      (fun _ _ _ h => ⟨h.1.1.1.1, h.2⟩) fun _ _ _ h => h
    intro h claimed hch hbk
    cases claimed with
    | false => simpa [Debts.record] using ⟨hch, hbk⟩
    | true =>
      simp only [Debts.record, Debts.chargesOf, Debts.bookingsOf] at *
      split <;> simp [*]
  · cases claimed with
    | false => exact Triple.ret fun _ _ h => by simpa using h.2
    | true =>
      simp only [Op.bind_eq, true_and, if_true]
      refine Triple.bind (handlePenaltyPostPayment_spec id r) fun _ => ?_
      exact (handleWalletTopUpPostPayment_spec id r _).pre_mono fun _ _ h => knows_of_owes h

theorem persistFailedPayment_spec (r : PaymentRequest) :
    Settles faults i (persistFailedPayment r) :=
  swallow_spec (owes_of_knows (issue_free (.recordFailure _ _ _) rfl rfl (persistent_const _)))

theorem handlePaymentCallback_spec : Settles faults i handlePaymentCallback := by
  refine Triple.bind (issue_free .verifyCallback rfl rfl (persistent_const _)) fun r => ?_
  obtain ⟨ref, report⟩ := r
  cases ref with
  | none => exact knows_idle
  | some ref =>
    refine Triple.bind (findRequestByRef_spec ref) fun r => ?_
    rcases r with _ | ⟨id, request⟩
    · exact knows_idle
    dsimp only
    split
    · exact knows_idle
    have hreject : (money faults).Triple i
        (Knows faults i (fun db => True ∧ ∀ q, some (id, request) = some q →
          db.HasRequest q.1 q.2) [] [])
        (do
          let claimed ← issue (.rejectOpen id report.transactionId)
          if claimed then persistFailedPayment request else pure ())
        (fun _ => Owes faults i [] []) (Booked faults i) := by
      refine Triple.pre_mono (R := Knows faults i (fun _ => True) [] []) ?_
        fun _ _ h => knows_of_owes h.2
      refine Triple.bind (issue_free (.rejectOpen id report.transactionId) rfl rfl
        (persistent_const _))
        fun claimed => ?_
      split
      · exact persistFailedPayment_spec request
      · exact knows_idle
    split
    · split
      · exact knows_idle
      · exact (processSuccessfulPayment_spec id request _).pre_mono fun _ _ h => ⟨h.1.2 _ rfl, h.2⟩
    · exact hreject
    · exact hreject
    · exact knows_idle

theorem processApprovedPaymentById_spec (id : ℕ) (settled : PaymentReport) :
    Settles faults i (processApprovedPaymentById id settled) := by
  refine Triple.bind (issue_quiet (.findRequest id) rfl (persistent_const _)
    (fun r db => ∀ q, r = some q → db.HasRequest id q) (fun _ _ => trivial) ?_) fun r => ?_
  · intro s ε t r _ hexec q hq
    obtain ⟨rfl, rfl⟩ := pair_inj hexec
    exact ⟨q, hq, rfl⟩
  cases r with
  | none => exact knows_idle
  | some request =>
    dsimp only
    split
    · exact knows_idle
    split
    · exact knows_idle
    · exact (processSuccessfulPayment_spec id request _).pre_mono fun _ _ h => ⟨h.1.2 _ rfl, h.2⟩

theorem recordPollFailure_spec (job : PollJob) : Settles faults i (recordPollFailure job) :=
  swallow_spec (owes_of_knows (issue_free (.recordFailure _ _ _) rfl rfl (persistent_const _)))

theorem pollPaymentStatus_spec (job : PollJob) : Settles faults i (pollPaymentStatus job) := by
  have hF : Persistent fun _ => True := persistent_const _
  refine Triple.bind (issue_free (.takeJob job) rfl rfl hF) fun _ => ?_
  refine Triple.bind (issue_free (.gatewayStatus job.gatewayRef) rfl rfl hF) fun report => ?_
  have hreject : Settles faults i (do
        let rejected ← issue (.rejectPolled job.requestId job.gatewayRef report.transactionId)
        if rejected then recordPollFailure job else pure ()) := by
    refine Triple.bind (issue_free (.rejectPolled _ _ _) rfl rfl hF) fun rejected => ?_
    split
    · exact recordPollFailure_spec job
    · exact knows_idle
  split
  · exact processApprovedPaymentById_spec _ _
  · exact hreject
  · exact hreject
  · split
    · exact owes_of_knows (issue_free (.addJob _) rfl rfl hF)
    · refine Triple.bind (issue_free (.revertPolled _ _) rfl rfl hF) fun reverted => ?_
      split
      · exact recordPollFailure_spec job
      · exact knows_idle

/-! ### Unlocks, fees, withdrawals, payouts and referrals -/

theorem payUnlockWithCredit_spec (attemptId p : ℕ) (a : ℤ) :
    Settles faults i (payUnlockWithCredit attemptId p a) := by
  have hF : Persistent fun _ => True := persistent_const _
  refine Triple.bind (debitProfileAndCreditSystem_spec hF p a _ _ _ attemptId rfl
    fun h => by cases h) fun _ => ?_
  refine Triple.bind (issue_free (.createApprovedRequest _ _ _) rfl rfl hF) fun _ => ?_
  refine Triple.bind (issue_spec (.createUnlockPayment p (Decimal.value a)) (fun _ => [])
    (fun _ => []) hF (fun _ _ => True) (fun x h => ⟨exact_value a, by simpa using h.2⟩)
    (fun _ _ _ _ _ _ => trivial) ?_) fun _ => ?_
  · intro h _ hch _
    exact ⟨hch, by simp [Debts.record, Debts.bookingsOf]⟩
  refine Triple.orElseCatch (Y := Booked faults i) ?_ fun e => ?_
  · exact Triple.bind (issue_free (.commitPayUnlock attemptId p) rfl rfl
      (hF.and (persistent_const _)))
      fun r => owes_of_knows (orThrow_spec r)
  · refine Triple.pre_mono (R := Knows faults i (fun _ => True) [] []) ?_
      fun _ _ h => knows_of_owes h
    refine Triple.bind (swallow_spec (owes_of_knows (creditProfileWallet_spec hF _ _ _ _ _)))
      fun _ => ?_
    exact Triple.fail fun _ _ h => h

theorem recordRegistrationPayment_spec (p : ℕ) (a : ℤ) :
    Settles faults i (recordRegistrationPayment p a) := by
  refine Triple.bind (getOrCreateSharedWallet_spec (persistent_const _) .system) fun sw => ?_
  exact owes_of_knows (issue_plain (.recordRegistrationPayment sw p a) rfl
    ((persistent_const _).and (persistent_owner _ _)) fun _ h => h.1.2)

theorem recordJobPostingPayment_spec (o p : ℕ) (a : ℤ) :
    Settles faults i (recordJobPostingPayment o p a) := by
  refine Triple.bind (getOrCreateSharedWallet_spec (persistent_const _) .system) fun sw => ?_
  exact owes_of_knows (issue_plain (.recordJobPostingPayment sw o p a) rfl
    ((persistent_const _).and (persistent_owner _ _)) fun _ h => h.1.2)

theorem recordMobileMoneyWithdrawal_spec (amount : ℚ) (d rf : Option String) :
    Settles faults i (recordMobileMoneyWithdrawal amount d rf) := by
  refine Triple.bind (getOrCreateSharedWallet_spec (persistent_const _) .mobileMoney) fun w => ?_
  exact Triple.bind (issue_plain (.recordMobileMoneyWithdrawal w amount d rf) rfl
    ((persistent_const _).and (persistent_owner _ _)) fun _ h => h.1.2)
    fun r => owes_of_knows (orThrow_spec r)

theorem settlePayout_spec (payoutId : ℕ) : Settles faults i (settlePayout payoutId) := by
  have hF : Persistent fun _ => True := persistent_const _
  refine Triple.bind (issue_free (.findPayout payoutId) rfl rfl hF) fun r => ?_
  cases r with
  | none => exact knows_idle
  | some payout =>
    refine Triple.bind (issue_free (.payoutStatus payoutId) rfl rfl hF) fun status => ?_
    cases status with
    | pending => exact knows_idle
    | failed =>
      exact owes_of_knows (issue_free (.failPayout payoutId) rfl rfl hF)
    | completed =>
      refine Triple.bind (getOrCreateSharedWallet_spec hF .mobileMoney) fun w => ?_
      exact owes_of_knows (issue_plain (.settlePayout payoutId w payout) rfl
        (hF.and (persistent_owner _ _)) fun _ h => h.1.2)

theorem settleForReferee_spec (refereeId : ℕ) : Settles faults i (settleForReferee refereeId) := by
  have hF : Persistent fun _ => True := persistent_const _
  refine Triple.bind (issue_free (.qualifyForSettlement refereeId) rfl rfl hF) fun r => ?_
  cases r with
  | none => exact knows_idle
  | some gate =>
    refine Triple.bind (getOrCreateProfileWallet_spec hF gate.referrerId) fun w => ?_
    have hF' := hF.and (persistent_owner w (.profile, some gate.referrerId))
    refine Triple.bind (getOrCreateProfileWallet_spec hF' refereeId) fun w' => ?_
    exact owes_of_knows (issue_plain (.settleReferral _ w w' _ _) rfl
      (hF'.and (persistent_owner _ _)) fun _ h => ⟨⟨_, h.1.1.2⟩, _, h.1.2⟩)

/-! ### All together -/

/-- **The money operations obey their discipline.** -/
theorem handles (faults : Bool) : Handles tracked (money faults) := by
  intro r i s hs _ hidle
  have hknows : Knows faults i (fun _ => True) [] [] s := knows_of_owes hidle
  cases r with
  | initiatePayment => exact initiatePayment_spec _ _ _ _ s hs hknows
  | submitPayment => exact submitPayment_spec _ s hs hknows
  | handlePaymentCallback => exact handlePaymentCallback_spec s hs hknows
  | pollPaymentStatus => exact pollPaymentStatus_spec _ s hs hknows
  | processApprovedPaymentById => exact processApprovedPaymentById_spec _ _ s hs hknows
  | creditProfileWallet =>
    exact owes_of_knows (creditProfileWallet_spec (persistent_const _) _ _ _ _ _) s hs hknows
  | debitProfileWallet => exact debitProfileWallet_spec _ _ _ _ _ s hs hknows
  | grantWelcomeCredit => exact grantWelcomeCredit_spec _ _ s hs hknows
  | payPenaltyFromWallet => exact payPenaltyFromWallet_spec _ _ s hs hknows
  | confirmPenaltyPaymentManually =>
    exact confirmPenaltyPaymentManually_spec _ _ _ s hs hknows
  | payAllPenaltiesWithWallet => exact payAllPenaltiesWithWallet_spec _ s hs hknows
  | payUnlockWithCredit => exact payUnlockWithCredit_spec _ _ _ s hs hknows
  | recordRegistrationPayment => exact recordRegistrationPayment_spec _ _ s hs hknows
  | recordJobPostingPayment => exact recordJobPostingPayment_spec _ _ _ s hs hknows
  | recordMobileMoneyWithdrawal => exact recordMobileMoneyWithdrawal_spec _ _ _ s hs hknows
  | settlePayout => exact settlePayout_spec _ s hs hknows
  | settleForReferee => exact settleForReferee_spec _ s hs hknows

/-- No process owes anything: nobody's books are open. -/
theorem Debts.eq_nil {h : Debts} (hch : ∀ i, h.chargesOf i = []) (hbk : ∀ i, h.bookingsOf i = []) :
    h.charges = [] ∧ h.bookings = [] := by
  constructor
  · refine List.eq_nil_iff_forall_not_mem.2 fun c hc => ?_
    have hmem : (c.profileId, c.amount) ∈ h.chargesOf c.pid :=
      List.mem_map.2 ⟨c, by simpa using hc, rfl⟩
    simp [hch] at hmem
  · refine List.eq_nil_iff_forall_not_mem.2 fun b hb => ?_
    have hmem : b.2 ∈ h.bookingsOf b.1 := List.mem_map.2 ⟨b, by simpa using hb, rfl⟩
    simp [hbk] at hmem

/-- **Run rule of the money services.** What every step keeps, given what the operations know
and owe when they take it, holds in every state reached; and when the calls did not throw on
their own account, nothing is left to book once nothing is in progress. -/
theorem money_run {g : Guard Store Cmd Request Env}
    (hg : ∀ s v, g s v → faultGuard faults s v) {J : Store × Debts → Prop}
    (hJ : ∀ x i c ε t r, x.1.db.RowsHaveWallets → J x → Pre faults i c x →
      g x.1 (.step i c ε) → exec x.1 i c ε = some (t, r) → J (t, x.2.record i c r))
    {s : Store} {c : Config Store Resp Exn} {as : List (Act Request Env Exn)}
    (h : c ∈ service.run g (service.idle s) as) (hrows : s.db.RowsHaveWallets)
    (h₀ : J (s, ⟨[], []⟩)) :
    ∃ d, J (c.store, d) ∧ (faults = false → c.Quiescent → d.charges = [] ∧ d.bookings = []) := by
  obtain ⟨d, hd⟩ := Service.exists_history Debts.record h ⟨[], []⟩
  have hwf : (money faults).WF (Service.withStory (service.idle s) (⟨[], []⟩ : Debts)) :=
    wf_idle (S := tracked) hrows fun i _ => ⟨rfl, rfl⟩
  have hkeep : ∀ x i c ε t r, (money faults).inv x → J x → (money faults).pre i c x →
      Service.liftGuard g x (.step i c ε) → tracked.exec x i c ε = some (t, r) → J t := by
    rintro x i c ε ⟨t, k⟩ r hx hJx hpre hgx hexec
    obtain ⟨hstep, hrecord⟩ := Service.withHistory_exec.1 hexec
    obtain rfl : k = x.2.record i c r := hrecord
    exact hJ x i c ε t r hx hJx hpre hgx hstep
  obtain ⟨hwf', hJ'⟩ := inv_of_mem_run (handles faults) (fun x v => hg x.1 v) hkeep hd hwf h₀
  refine ⟨d, hJ', fun hf hq => ?_⟩
  have hidle := hwf'.idle_of_quiescent hq
  exact Debts.eq_nil (fun i => (hidle i hf).1) fun i => (hidle i hf).2

end Rabotka.Money
