import Rabotka.Money.Discipline
import Rabotka.Money.Records

/-!
# Each penalty is charged once

What was taken from a profile for its penalties — debits of its wallets, approved penalty
requests, manual confirmations — against the amounts of the penalties marked paid. Both sides
move in one transaction in `payPenaltyFromWallet` and `confirmPenaltyPaymentManually`; in
`payAllPenaltiesWithWallet` and in a penalty request the money moves first and the penalties
are marked later, from a list read or priced earlier, whatever has happened to them in
between. Two such payments of the same penalties both take the money
(`penalties_charged_twice`).

`charged_once`: when nothing is in progress the two sides have grown by the same amount, in
every run in which the penalties that these two marking steps list are still unpaid.
-/

namespace Rabotka.Money

open Async List

/-! ### The two sides -/

/-- A row by which a wallet of the profile pays for penalties. -/
def penaltyDebitOf (p : ℕ) (k : RowKind) : Bool :=
  k.owner = (.profile, some p) && k.type = .penaltyDebit

/-- A payment of the profile that an admin confirmed by hand. -/
def Payment.confirms (p : ℕ) (y : Payment) : Bool :=
  y.profileId = p && match y.description with
    | .penaltyConfirmed _ => true
    | _ => false

namespace Db

/-- What the wallets of the profile have paid for penalties. -/
def walletPaid (db : Db) (p : ℕ) : ℤ :=
  ((db.rows (penaltyDebitOf p)).map WalletTransaction.amount).sum

/-- An approved penalty request of the profile counts with its amount. -/
def mobileWeight (p : ℕ) (q : PaymentRequest) : ℤ :=
  if q.isPenaltyRequest ∧ q.profileId = p ∧ q.status = .approved then q.amount.getD 0 else 0

/-- What the profile has paid for penalties by mobile money. -/
def mobilePaid (db : Db) (p : ℕ) : ℤ :=
  Table.sumBy (fun _ => mobileWeight p) db.requests

/-- What the profile has paid for penalties otherwise. -/
def confirmedPaid (db : Db) (p : ℕ) : ℤ :=
  ((db.payments.filter (Payment.confirms p)).map Payment.amount).sum

/-- What was taken from the profile for its penalties. -/
def taken (db : Db) (p : ℕ) : ℤ := db.walletPaid p + db.mobilePaid p + db.confirmedPaid p

/-- The amounts of the penalties of the profile that are marked paid. -/
def cleared (db : Db) (p : ℕ) : ℤ :=
  Table.sumBy (fun _ q => if q.profileId = p ∧ q.paid then q.amount else 0) db.penalties

/-- The amount of a penalty. -/
def amountOf (db : Db) (penaltyId : ℕ) : ℤ :=
  ((db.penalties[penaltyId]?).map Penalty.amount).getD 0

/-- The penalty requests ask for what the penalties they were priced for amount to. -/
def Priced (db : Db) : Prop :=
  ∀ q ∈ db.requests, q.isPenaltyRequest → q.penaltyIds ≠ [] → q.penaltyIds.Nodup ∧
    (∀ a ∈ q.penaltyIds, a < db.penalties.length) ∧
    q.amount.getD 0 = (q.penaltyIds.map db.amountOf).sum

end Db

/-- What the open charges take from the profile. -/
def Debts.charged (h : Debts) (p : ℕ) : ℤ :=
  (h.charges.map fun c => if c.profileId = p then c.amount else 0).sum

/-- The operations that pay penalties run without their calls throwing on their own account,
besides any others that neither take `PENALTY_DEBIT` money nor reopen requests; and the two
marking steps find the penalties they list unpaid. A request without a list is held to what
it would clear. -/
def marksUnpaid : Guard Store Cmd Request Env := fun s v =>
  match v with
  | .fault _ _ => false
  | .step _ (.submit _) _ => false
  | .step _ (.debit _ type _ _ _) _ => type.1 ≠ .penaltyDebit
  | .step _ (.markPenaltiesPaid ids _ _ _) _ =>
    ids.all fun id => (s.db.penalties[id]?).any fun p => !p.paid
  | .step _ (.settlePricedPenalties q _) _ =>
    if q.penaltyIds = [] then
      Table.sumBy (fun i p => if Db.pricedPenalties q i p then p.amount else 0) s.db.penalties =
        q.amount.getD 0
    else
      q.penaltyIds.all fun id =>
        (s.db.penalties[id]?).any fun p => p.profileId = q.profileId && p.owed
  | _ => true

/-! ### What a step takes -/

/-- What a step takes from the wallets of the profile for its penalties. -/
def Cmd.takesByWallet (p : ℕ) (c : Cmd) (r : Resp c) : ℤ :=
  match c, r with
  | .debitAndCredit _ _ amount debitType _ _ referenceId, .ok _ =>
    if debitType.1 = .penaltyDebit ∧ referenceId = p then Decimal.column amount else 0
  | .payPenaltyFromWallet _ p' _ _ amount _, .ok _ => if p' = p then Decimal.column amount else 0
  | _, _ => 0

/-- What a step takes by approving a penalty request. -/
def Cmd.takesByRequest (p : ℕ) (c : Cmd) (r : Resp c) : ℤ :=
  match c, r with
  | .persistApproved _ q _ _ _ _, true =>
    if q.isPenaltyRequest ∧ q.profileId = p then q.amount.getD 0 else 0
  | _, _ => 0

/-- What a step takes by a manual confirmation. -/
def Cmd.takesByHand (p : ℕ) (c : Cmd) (r : Resp c) : ℤ :=
  (((c.paymentsOf r).filter (Payment.confirms p)).map Payment.amount).sum

theorem confirmedPaid_of_exec {s t : Store} {i : ℕ} {c : Cmd} {ε : Env} {r : Resp c} (p : ℕ)
    (h : exec s i c ε = some (t, r)) :
    t.db.confirmedPaid p = s.db.confirmedPaid p + c.takesByHand p r := by
  rw [Db.confirmedPaid, payments_of_exec h, filter_append, map_append, sum_append]
  rfl

/-- No step but an approval or a SUBMITTED write changes what a request counts. -/
theorem mobileWeight_onRequest {c : Cmd} (hset : c.isSettlement = false)
    (hsubmit : ∀ id, c ≠ .submit id) (p id : ℕ) (q : PaymentRequest) :
    Db.mobileWeight p (c.onRequest id q) = Db.mobileWeight p q := by
  cases c
  case submit j => exact absurd rfl (hsubmit j)
  case persistApproved => cases hset
  case claimForProcessing | revertToPending =>
    simp only [Cmd.onRequest]
    split
    · rename_i h
      simp [Db.mobileWeight, h.2]
    · rfl
  case rejectOpen =>
    simp only [Cmd.onRequest]
    split
    · rename_i h
      simp [Db.mobileWeight, ne_approved_of_isOpen h.2, Db.withTx]
    · rfl
  case rejectPolled | revertPolled =>
    simp only [Cmd.onRequest]
    split
    · rename_i h
      have hproc : q.status = .processing := by
        have hpolled := h.2
        simp only [stillPolledBy, Bool.and_eq_true, decide_eq_true_eq] at hpolled
        exact hpolled.1
      simp [Db.mobileWeight, hproc, Db.withTx]
    · rfl
  case storeGatewayRef =>
    simp only [Cmd.onRequest]
    split <;> rfl
  all_goals rfl

section Step

variable {x : Store × Debts} {t : Store} {i : ℕ} {c : Cmd} {ε : Env} {r : Resp c}

theorem mobilePaid_of_exec (p : ℕ) (hpre : Pre false i c x)
    (hg : marksUnpaid x.1 (.step i c ε)) (h : exec x.1 i c ε = some (t, r)) :
    t.db.mobilePaid p = x.1.db.mobilePaid p + c.takesByRequest p r := by
  cases hset : c.isSettlement with
  | true =>
    cases c <;> simp only [Cmd.isSettlement, Bool.false_eq_true] at hset
    case persistApproved id q context tx sw mw =>
      obtain ⟨⟨q', hq', hterms⟩, -⟩ := hpre
      have hq : q'.isPenaltyRequest = q.isPenaltyRequest ∧ q'.profileId = q.profileId ∧
          q'.amount = q.amount := by
        refine ⟨?_, congrArg Terms.profileId hterms, congrArg Terms.amount hterms⟩
        simp only [PaymentRequest.isPenaltyRequest, show q'.requestType = q.requestType from
          congrArg Terms.requestType hterms]
      have hr := persistApproved_answer h
      have hrows := Table.sumBy_of_map (w := fun _ => Db.mobileWeight p)
        fun j => request_of_exec h rfl j
      rw [Db.mobilePaid, hrows]
      cases hopen : q'.status.isOpen with
      | false =>
        rw [hq', Option.any_some, hopen] at hr
        subst hr
        refine (Table.sumBy_congr fun j q'' hq'' => ?_).trans (add_zero _).symm
        rcases eq_or_ne id j with rfl | hne
        · obtain rfl : q' = q'' := Option.some.inj (hq'.symm.trans hq'')
          simp [Cmd.onRequest, hopen]
        · simp [Cmd.onRequest, hne]
      | true =>
        rw [hq', Option.any_some, hopen] at hr
        subst hr
        have hsplit : Table.sumBy (fun j q'' => Db.mobileWeight p
              (Cmd.onRequest (.persistApproved id q context tx sw mw) j q'')) x.1.db.requests =
            Table.sumBy (fun j q'' => Db.mobileWeight p q'' +
              if j = id then Db.mobileWeight p { q'' with status := .approved } else 0)
              x.1.db.requests := by
          refine Table.sumBy_congr fun j q'' hq'' => ?_
          rcases eq_or_ne j id with rfl | hne
          · obtain rfl : q' = q'' := Option.some.inj (hq'.symm.trans hq'')
            simp [Cmd.onRequest, hopen, Db.mobileWeight, ne_approved_of_isOpen hopen, Db.withTx,
              PaymentRequest.isPenaltyRequest]
          · simp [Cmd.onRequest, hne.symm, hne]
        rw [hsplit, Table.sumBy_add, Table.sumBy_single hq', Db.mobilePaid]
        simp only [Db.mobileWeight, Cmd.takesByRequest, and_true, hq.2.1, hq.2.2, ← hq.1]
        rfl
  | false =>
    have hzero : c.takesByRequest p r = 0 := by
      cases c <;> first | rfl | cases hset
    rw [hzero, add_zero]
    cases hc : c.createsNoRequest with
    | true =>
      have hsubmit : ∀ id, c ≠ .submit id := by
        rintro id rfl
        cases hg
      rw [Db.mobilePaid, Table.sumBy_of_map fun j => request_of_exec h hc j]
      exact Table.sumBy_congr fun j q _ => mobileWeight_onRequest hset hsubmit p j q
    | false =>
      cases c <;> simp only [Cmd.createsNoRequest, Bool.true_eq_false] at hc
      simp only [exec] at h
      split at h <;> cases h
      simp [Db.mobilePaid, Store.withDb, Db.createApprovedRequest, Db.mobileWeight,
        PaymentRequest.isPenaltyRequest]

/-- Only debits for penalties write rows that pay for penalties. -/
theorem not_penaltyDebitOf_of_writes (p : ℕ) (hg : marksUnpaid x.1 (.step i c ε))
    (hand : ∀ pw sw amount dt ct rt rid, dt.1 = .penaltyDebit →
      c ≠ .debitAndCredit pw sw amount dt ct rt rid)
    (hpay : ∀ id p' pw sw amount n, c ≠ .payPenaltyFromWallet id p' pw sw amount n)
    {k : RowKind} (h : c.Writes k) : penaltyDebitOf p k = false := by
  by_contra hk
  simp only [penaltyDebitOf, Bool.not_eq_false, Bool.and_eq_true, decide_eq_true_eq] at hk
  obtain ⟨howner, htype⟩ := hk
  have hcredit : ∀ type : CreditType, k.type = type.1 → False := by
    intro type heq
    have hsign := type.2
    rw [← heq, htype] at hsign
    cases hsign
  cases c <;> simp only [Cmd.Writes] at h
  case debit w type amount rt rid =>
    simp [marksUnpaid, ← h.2.1, htype] at hg
  case debitAndCredit pw sw amount dt ct rt rid =>
    rcases h.2.2 with ⟨-, hdt⟩ | ⟨-, hct⟩
    · exact hand pw sw amount dt ct rt rid (hdt.symm.trans htype) rfl
    · exact hcredit ct hct
  case payPenaltyFromWallet => exact hpay _ _ _ _ _ _ rfl
  case credit type _ _ _ => exact hcredit _ h.2.1
  case persistApproved id q context tx sw mw =>
    rcases h.2 with ⟨ho, -⟩ | ⟨ho, -⟩
    · rw [ho] at howner
      cases howner
    · rw [ho] at howner
      cases howner
  case settleReferral =>
    rw [htype] at h
    cases h.2.1
  all_goals
    rw [h] at htype
    cases htype

theorem walletPaid_of_exec (p : ℕ) (hrows : x.1.db.RowsHaveWallets) (hpre : Pre false i c x)
    (hg : marksUnpaid x.1 (.step i c ε)) (h : exec x.1 i c ε = some (t, r)) :
    t.db.walletPaid p = x.1.db.walletPaid p + c.takesByWallet p r := by
  by_cases hand : ∃ pw sw amount dt ct rt rid, dt.1 = .penaltyDebit ∧
      c = .debitAndCredit pw sw amount dt ct rt rid
  · obtain ⟨pw, sw, amount, dt, ct, rt, rid, hdt, rfl⟩ := hand
    obtain ⟨-, -, ⟨p', hpw, hp'⟩, hsw, -⟩ := hpre
    obtain rfl := hp' hdt
    simp only [exec, Option.some.injEq] at h
    obtain ⟨e, rfl, rfl⟩ | ⟨db, hdb, rfl, rfl⟩ := Store.commit_cases h
    · exact (add_zero _).symm
    · obtain ⟨d, hd, rfl⟩ := Db.debitAndCredit_eq_ok.1 hdb
      have hrowsd := hrows.debit hpw hd
      have hgd := Db.grows_of_debit hd
      rw [Db.walletPaid, Store.withDb_db, Db.rows_credit hrowsd (hsw.mono hgd),
        Db.rows_of_debit hrows hpw hd]
      rcases eq_or_ne p' p with rfl | hne
      · simp [penaltyDebitOf, Cmd.takesByWallet, hdt, Db.walletPaid]
      · simp [penaltyDebitOf, Cmd.takesByWallet, hdt, Db.walletPaid, hne]
  push Not at hand
  by_cases hpay : ∃ id p' pw sw amount n, c = .payPenaltyFromWallet id p' pw sw amount n
  · obtain ⟨id, p', pw, sw, amount, n, rfl⟩ := hpay
    obtain ⟨-, hpw, hsw⟩ := hpre
    simp only [exec, Option.some.injEq] at h
    obtain ⟨e, rfl, rfl⟩ | ⟨db, hdb, rfl, rfl⟩ := Store.commit_cases h
    · exact (add_zero _).symm
    · obtain ⟨d, hd, e, he, rfl⟩ := Db.payPenaltyFromWallet_eq_ok.1 hdb
      obtain ⟨-, -, hw, ht⟩ := Db.frame_of_claimPenalty hd
      have hgd := Db.grows_of_claimPenalty hd
      have hge := Db.grows_of_debit he
      have hrowsd : d.RowsHaveWallets := hrows.mono (by rw [hw]) ht
      have hrowse := hrowsd.debit (hpw.mono hgd) he
      have hsame : (((e.credit sw .creditPenalty amount .penalty id).createPayment .penalty p'
          amount .wallet .completed (.penaltyViaWallet id)).recomputeBillingStatus p' n).rows
          (penaltyDebitOf p) = (e.credit sw .creditPenalty amount .penalty id).rows
          (penaltyDebitOf p) := rfl
      rw [Db.walletPaid, Store.withDb_db, hsame,
        Db.rows_credit hrowse ((hsw.mono hgd).mono hge), Db.rows_of_debit hrowsd (hpw.mono hgd) he,
        Db.rows_congr hrows hgd ht]
      rcases eq_or_ne p' p with rfl | hne
      · simp [penaltyDebitOf, Cmd.takesByWallet, Db.walletPaid]
      · simp [penaltyDebitOf, Cmd.takesByWallet, Db.walletPaid, hne]
  push Not at hpay
  have hzero : c.takesByWallet p r = 0 := by
    cases c
    case debitAndCredit pw sw amount dt ct rt rid =>
      cases r
      · rfl
      · exact if_neg fun hdt => hand pw sw amount dt ct rt rid hdt.1 rfl
    case payPenaltyFromWallet => exact absurd rfl (hpay _ _ _ _ _ _)
    all_goals rfl
  rw [hzero, add_zero, Db.walletPaid, Db.walletPaid,
    rows_of_exec hrows hpre (fun k => not_penaltyDebitOf_of_writes p hg hand hpay) h]

/-- What a step marks paid for the profile. -/
def Db.marked (db : Db) (p : ℕ) (c : Cmd) (r : Resp c) : ℤ :=
  Table.sumBy (fun j q => if c.marks r j q ∧ q.paid = false ∧ q.profileId = p then q.amount else 0)
    db.penalties

theorem cleared_of_exec (p : ℕ) (h : exec x.1 i c ε = some (t, r)) :
    t.db.cleared p = x.1.db.cleared p + x.1.db.marked p c r := by
  rw [Db.cleared, Table.sumBy_of_map fun j => penalty_of_exec h j, Db.cleared, Db.marked,
    ← Table.sumBy_add]
  refine Table.sumBy_congr fun j q _ => ?_
  by_cases hm : c.marks r j q
  · cases hpaid : q.paid <;> by_cases hp : q.profileId = p <;> simp [hm, hp]
  · simp [hm]

variable {db : Db}

/-- A list of unpaid penalties of one profile clears the sum of their amounts. -/
theorem Db.sum_marked {p p' : ℕ} {ids : List ℕ} (hids : ids.Nodup) {v : ℕ → ℤ}
    (hv : ∀ a ∈ ids, ∃ q, db.penalties[a]? = some q ∧ q.profileId = p' ∧ q.paid = false ∧
      q.amount = v a) :
    Table.sumBy (fun j q => if j ∈ ids ∧ q.paid = false ∧ q.profileId = p then q.amount else 0)
      db.penalties = if p' = p then (ids.map v).sum else 0 := by
  split
  · rename_i hp
    rw [← Table.sumBy_mem (t := db.penalties) (w := fun _ q => q.amount) hids fun a ha => by
      obtain ⟨q, hq, -, -, hamount⟩ := hv a ha
      exact ⟨q, hq, hamount⟩]
    refine Table.sumBy_congr fun j q hq => ?_
    by_cases hj : j ∈ ids
    · obtain ⟨q', hq', hprofile, hpaid, -⟩ := hv j hj
      obtain rfl : q = q' := Option.some.inj (hq.symm.trans hq')
      simp [hj, hpaid, hprofile, hp]
    · simp [hj]
  · rename_i hp
    refine Table.sumBy_eq_zero fun j q hq => if_neg fun hj => ?_
    obtain ⟨q', hq', hprofile, -⟩ := hv j hj.1
    obtain rfl : q = q' := Option.some.inj (hq.symm.trans hq')
    exact hp (hprofile.symm.trans hj.2.2)

/-- Closing the charges of a process takes them off what is charged. -/
theorem Debts.charged_close (h : Debts) (i p : ℕ) {p' : ℕ} {a : ℤ}
    (hch : h.chargesOf i = [(p', a)]) (bookings : List (ℕ × ℤ)) :
    (⟨h.charges.filter fun c => c.pid ≠ i, bookings⟩ : Debts).charged p +
      (if p' = p then a else 0) = h.charged p := by
  have hone : ((h.charges.filter fun c => c.pid = i).map fun c =>
      if c.profileId = p then c.amount else 0) = [if p' = p then a else 0] := by
    have hmap := congrArg (List.map fun b : ℕ × ℤ => if b.1 = p then b.2 else 0) hch
    simpa [chargesOf, map_map, Function.comp_def] using hmap
  have hclose := Debts.sum_close h.charges (fun c => c.pid = i) fun c =>
    if c.profileId = p then c.amount else 0
  rw [hone] at hclose
  simpa [charged] using hclose

theorem Db.marked_eq_zero (p : ℕ) (hc : ∀ j q, c.marks r j q = false) : db.marked p c r = 0 :=
  Table.sumBy_eq_zero fun j q _ => if_neg fun h => by simp [hc] at h

/-- A penalty whose payment went through was owed. -/
theorem Db.owed_of_claimPenalty {db db' : Db} {id : ℕ} (h : db.claimPenalty id = some db') :
    ∃ q, db.penalties[id]? = some q ∧ q.paid = false := by
  obtain ⟨penalties, hclaim, -⟩ := Option.map_eq_some_iff.1 h
  obtain ⟨q, hq, howed, -⟩ := Table.claim_eq_some.1 hclaim
  refine ⟨q, hq, ?_⟩
  simp only [Penalty.owed, Bool.and_eq_true, Bool.not_eq_true'] at howed
  exact howed.1

/-- What one claimed penalty clears. -/
theorem Db.marked_single {p p' id : ℕ} {q q' : Penalty} {amount : ℚ}
    (hc : ∀ j u, c.marks r j u = decide (id = j)) (hq : db.penalties[id]? = some q)
    (hpaid : q.paid = false) (hq' : db.HasPenalty id q') (hprofile : q'.profileId = p')
    (hamount : amount = Decimal.value q'.amount) :
    db.marked p c r = if p' = p then Decimal.column amount else 0 := by
  obtain ⟨q'', hq'', hterms⟩ := hq'
  obtain rfl : q = q'' := Option.some.inj (hq.symm.trans hq'')
  have hp : q.profileId = p' := (congrArg Prod.fst hterms).trans hprofile
  have ha : q.amount = q'.amount := congrArg (·.2.1) hterms
  have hsum := Db.sum_marked (p := p) (nodup_singleton id) (v := fun _ => q.amount)
    fun a ha => ⟨q, by rwa [mem_singleton.1 ha], hp, hpaid, rfl⟩
  simp only [mem_singleton, map_cons, map_nil, sum_cons, sum_nil, add_zero] at hsum
  rw [hamount, Decimal.column_value, ← ha, ← hsum, marked]
  exact Table.sumBy_congr fun j _ _ => by simp only [hc, decide_eq_true_eq, @eq_comm _ id j]

/-- What a list that was read earlier clears while it is still unpaid. -/
theorem Db.marked_of_read {p p' : ℕ} {unpaid : List (ℕ × Penalty)}
    (hc : ∀ j u, c.marks r j u = decide (j ∈ unpaid.map Prod.fst))
    (hids : (unpaid.map Prod.fst).Nodup)
    (hread : ∀ u ∈ unpaid, db.HasPenalty u.1 u.2 ∧ u.2.profileId = p')
    (hunpaid : ∀ a ∈ unpaid.map Prod.fst, ∃ q, db.penalties[a]? = some q ∧ q.paid = false) :
    db.marked p c r = if p' = p then totalAmount unpaid else 0 := by
  have hrow : ∀ u ∈ unpaid, ∃ q, db.penalties[u.1]? = some q ∧ q.profileId = p' ∧
      q.paid = false ∧ q.amount = u.2.amount := by
    intro u hu
    obtain ⟨⟨q, hq, hterms⟩, hp⟩ := hread u hu
    obtain ⟨q', hq', hpaid⟩ := hunpaid u.1 (mem_map_of_mem hu)
    obtain rfl : q = q' := Option.some.inj (hq.symm.trans hq')
    exact ⟨q, hq, (congrArg Prod.fst hterms).trans hp, hpaid, congrArg (·.2.1) hterms⟩
  have hv : ∀ a ∈ unpaid.map Prod.fst, ∃ q, db.penalties[a]? = some q ∧ q.profileId = p' ∧
      q.paid = false ∧ q.amount = db.amountOf a := by
    intro a ha
    obtain ⟨u, hu, rfl⟩ := mem_map.1 ha
    obtain ⟨q, hq, hp, hpaid, -⟩ := hrow u hu
    exact ⟨q, hq, hp, hpaid, by simp [Db.amountOf, hq]⟩
  have htotal : ((unpaid.map Prod.fst).map db.amountOf).sum = totalAmount unpaid := by
    rw [totalAmount, map_map]
    congr 1
    refine map_congr_left fun u hu => ?_
    obtain ⟨q, hq, -, -, hamount⟩ := hrow u hu
    simp [Db.amountOf, hq, hamount]
  rw [← htotal, ← Db.sum_marked hids hv, marked]
  simp only [hc, decide_eq_true_eq]

/-- The penalties a request was priced for clear its amount, when they are all still owed. -/
theorem Db.marked_of_priced {p n : ℕ} {q : PaymentRequest} (hpriced : db.Priced)
    (hq : ∃ id, db.HasRequest id q) (hreq : q.isPenaltyRequest)
    (hg : if q.penaltyIds = [] then
        Table.sumBy (fun i u => if pricedPenalties q i u then u.amount else 0) db.penalties =
          q.amount.getD 0
      else ∀ id ∈ q.penaltyIds, ∃ u, db.penalties[id]? = some u ∧ u.profileId = q.profileId ∧
        u.owed) :
    db.marked p (.settlePricedPenalties q n) () =
      if q.profileId = p then q.amount.getD 0 else 0 := by
  have hmarks : db.marked p (.settlePricedPenalties q n) () =
      Table.sumBy (fun j u => if q.profileId = p then
        if pricedPenalties q j u then u.amount else 0 else 0) db.penalties := by
    refine Table.sumBy_congr fun j u _ => ?_
    simp only [Cmd.marks]
    by_cases hm : pricedPenalties q j u
    · have hu := hm
      simp only [pricedPenalties, Penalty.owed, Bool.and_eq_true, decide_eq_true_eq,
        Bool.not_eq_true'] at hu
      simp [hm, hu.1.1, hu.1.2.1]
    · simp [hm]
  rw [hmarks]
  split at hg
  · rename_i hnil
    split
    · simpa using hg
    · exact Table.sumBy_eq_zero fun _ _ _ => rfl
  · rename_i hne
    obtain ⟨id, q', hq', hterms⟩ := hq
    have hids : q'.penaltyIds = q.penaltyIds := congrArg Terms.penaltyIds hterms
    have htype : q'.requestType = q.requestType := congrArg Terms.requestType hterms
    obtain ⟨hnodup, -, hamount⟩ := hpriced q' (mem_of_getElem? hq')
      (by rwa [PaymentRequest.isPenaltyRequest, htype]) (by rwa [hids])
    rw [hids] at hnodup hamount
    rw [← show q'.amount = q.amount from congrArg Terms.amount hterms, hamount]
    split
    · rw [← Table.sumBy_mem (t := db.penalties) (w := fun _ u => u.amount) hnodup fun a ha => by
        obtain ⟨u, hu, -⟩ := hg a ha
        exact ⟨u, hu, by simp [amountOf, hu]⟩]
      refine Table.sumBy_congr fun j u hu => ?_
      by_cases hj : j ∈ q.penaltyIds
      · obtain ⟨u', hu', hprofile, howed⟩ := hg j hj
        obtain rfl : u = u' := Option.some.inj (hu.symm.trans hu')
        simp [pricedPenalties, hj, hprofile, howed, hne]
      · simp [pricedPenalties, hj, hne]
    · exact Table.sumBy_eq_zero fun _ _ _ => rfl

/-- **The books of one step.** What it takes and what it leaves open to charge balance what
it marks. -/
theorem books_of_exec (p : ℕ) (hpriced : x.1.db.Priced) (hpre : Pre false i c x)
    (hg : marksUnpaid x.1 (.step i c ε)) (h : exec x.1 i c ε = some (t, r)) :
    c.takesByWallet p r + c.takesByRequest p r + c.takesByHand p r + x.2.charged p =
      x.1.db.marked p c r + (x.2.record i c r).charged p := by
  cases c
  case debitAndCredit pw sw amount dt ct rt rid =>
    rw [Db.marked_eq_zero p fun _ _ => by cases r <;> rfl]
    cases r with
    | error e => simp [Cmd.takesByWallet, Cmd.takesByRequest, Cmd.takesByHand, Cmd.paymentsOf,
        Debts.record]
    | ok u =>
      by_cases hdt : dt.1 = .penaltyDebit
      · rcases eq_or_ne rid p with rfl | hne
        · simp [Cmd.takesByWallet, Cmd.takesByRequest, Cmd.takesByHand, Cmd.paymentsOf,
            Debts.record, hdt, Debts.charged]
        · simp [Cmd.takesByWallet, Cmd.takesByRequest, Cmd.takesByHand, Cmd.paymentsOf,
            Debts.record, hdt, Debts.charged, hne]
      · simp [Cmd.takesByWallet, Cmd.takesByRequest, Cmd.takesByHand, Cmd.paymentsOf,
          Debts.record, hdt, Debts.charged]
  case persistApproved id q context tx sw mw =>
    rw [Db.marked_eq_zero p fun _ _ => by cases r <;> rfl]
    cases r with
    | false => simp [Cmd.takesByWallet, Cmd.takesByRequest, Cmd.takesByHand, Cmd.paymentsOf,
        Debts.record]
    | true =>
      by_cases hq : q.isPenaltyRequest
      · rcases eq_or_ne q.profileId p with rfl | hne
        · simp [Cmd.takesByWallet, Cmd.takesByRequest, Cmd.takesByHand, Cmd.paymentsOf,
            Debts.record, hq, Debts.charged, Payment.confirms]
        · simp [Cmd.takesByWallet, Cmd.takesByRequest, Cmd.takesByHand, Cmd.paymentsOf,
            Debts.record, hq, Debts.charged, Payment.confirms, hne]
      · simp [Cmd.takesByWallet, Cmd.takesByRequest, Cmd.takesByHand, Cmd.paymentsOf,
          Debts.record, hq, Debts.charged, Payment.confirms]
  case payPenaltyFromWallet id p' pw sw amount n =>
    cases r with
    | error e =>
      rw [Db.marked_eq_zero p fun _ _ => rfl]
      simp [Cmd.takesByWallet, Cmd.takesByRequest, Cmd.takesByHand, Cmd.paymentsOf, Debts.record]
    | ok u =>
      obtain ⟨⟨q', hq', hprofile, hamount⟩, -⟩ := hpre
      simp only [exec, Option.some.injEq] at h
      obtain ⟨_, -, hr⟩ | ⟨db, hdb, -, -⟩ := Store.commit_cases h
      · cases hr
      · obtain ⟨d, hd, -⟩ := Db.payPenaltyFromWallet_eq_ok.1 hdb
        obtain ⟨q, hq, hpaid⟩ := Db.owed_of_claimPenalty hd
        rw [Db.marked_single (fun _ _ => rfl) hq hpaid hq' hprofile hamount]
        simp [Cmd.takesByWallet, Cmd.takesByRequest, Cmd.takesByHand, Cmd.paymentsOf,
          Debts.record, Payment.confirms]
  case confirmPenaltyPaymentManually id p' sw amount m =>
    cases r with
    | error e =>
      rw [Db.marked_eq_zero p fun _ _ => rfl]
      simp [Cmd.takesByWallet, Cmd.takesByRequest, Cmd.takesByHand, Cmd.paymentsOf, Debts.record]
    | ok u =>
      obtain ⟨⟨q', hq', hprofile, hamount⟩, -⟩ := hpre
      simp only [exec, Option.some.injEq] at h
      obtain ⟨_, -, hr⟩ | ⟨db, hdb, -, -⟩ := Store.commit_cases h
      · cases hr
      · obtain ⟨q, hq, hpaid⟩ :=
          Db.owed_of_claimPenalty (Db.confirmPenaltyPaymentManually_eq_ok.1 hdb)
        replace hq : x.1.db.penalties[id]? = some q := hq
        rw [Db.marked_single (fun _ _ => rfl) hq hpaid hq' hprofile hamount]
        rcases eq_or_ne p' p with rfl | hne
        · simp [Cmd.takesByWallet, Cmd.takesByRequest, Cmd.takesByHand, Cmd.paymentsOf,
            Debts.record, Payment.confirms]
        · simp [Cmd.takesByWallet, Cmd.takesByRequest, Cmd.takesByHand, Cmd.paymentsOf,
            Debts.record, Payment.confirms, hne]
  case markPenaltiesPaid ids p' total n =>
    obtain ⟨⟨unpaid, rfl, hids, hread, rfl⟩, howes⟩ := hpre
    have hunpaid : ∀ a ∈ unpaid.map Prod.fst, ∃ q, x.1.db.penalties[a]? = some q ∧
        q.paid = false := by
      intro a ha
      have hall := all_eq_true.1 hg a ha
      obtain ⟨q, hq, hpaid⟩ := (Option.any_eq_true _ _).1 hall
      exact ⟨q, hq, by simpa using hpaid⟩
    rw [Db.marked_of_read (fun _ _ => rfl) hids hread hunpaid]
    have hclose := Debts.charged_close x.2 i p (howes rfl).1 (x.2.bookings.filter fun b => b.1 ≠ i)
    rw [Decimal.column_value] at hclose
    simp only [Cmd.takesByWallet, Cmd.takesByRequest, Cmd.takesByHand, Cmd.paymentsOf,
      Debts.record, ← hclose]
    simp [Payment.confirms]
    omega
  case settlePricedPenalties q n =>
    obtain ⟨hreq, hhas, howes⟩ := hpre
    have hmarked := Db.marked_of_priced (p := p) (n := n) hpriced hhas hreq (by
      simp only [marksUnpaid] at hg
      split
      · simpa [*] using hg
      · rename_i hne
        simp only [hne, if_false] at hg
        intro id hid
        obtain ⟨u, hu, hown⟩ := (Option.any_eq_true _ _).1 (all_eq_true.1 hg id hid)
        exact ⟨u, hu, by simpa using hown⟩)
    rw [hmarked]
    have hclose := Debts.charged_close x.2 i p (howes rfl).1 x.2.bookings
    simp only [Cmd.takesByWallet, Cmd.takesByRequest, Cmd.takesByHand, Cmd.paymentsOf,
      Debts.record, ← hclose]
    simp
    omega
  case recordFailure | createUnlockPayment | recordRegistrationPayment
      | recordJobPostingPayment =>
    rw [Db.marked_eq_zero p fun _ _ => rfl]
    simp [Cmd.takesByWallet, Cmd.takesByRequest, Cmd.takesByHand, Cmd.paymentsOf, Debts.record,
      Payment.confirms, Debts.charged]
  all_goals
    rw [Db.marked_eq_zero p fun _ _ => rfl]
    simp [Cmd.takesByWallet, Cmd.takesByRequest, Cmd.takesByHand, Cmd.paymentsOf, Debts.record]

/-- No step changes what a penalty request was priced for. -/
theorem priced_of_exec (hpriced : x.1.db.Priced) (h : exec x.1 i c ε = some (t, r)) :
    t.db.Priced := by
  have hgrows := (exec_grows h).db
  intro q hq hreq hne
  obtain ⟨id, hid⟩ := getElem?_of_mem hq
  cases hq₀ : x.1.db.requests[id]? with
  | none =>
    cases hc : c.createsNoRequest with
    | true =>
      rw [request_of_exec h hc, hq₀] at hid
      cases hid
    | false =>
      cases c <;> simp only [Cmd.createsNoRequest, Bool.true_eq_false] at hc
      simp only [exec] at h
      split at h <;> cases h
      rcases mem_append.1 hq with hold | hnew
      · exact hpriced q hold hreq hne
      · obtain rfl := mem_singleton.1 hnew
        cases hreq
  | some q₀ =>
    obtain ⟨q', hq', hterms⟩ := hgrows.requests id q₀ hq₀
    obtain rfl : q = q' := Option.some.inj (hid.symm.trans hq')
    have hids : q.penaltyIds = q₀.penaltyIds := congrArg Terms.penaltyIds hterms
    have htype : q.requestType = q₀.requestType := congrArg Terms.requestType hterms
    have hamount : q.amount = q₀.amount := congrArg Terms.amount hterms
    obtain ⟨hnodup, hall, hsum⟩ := hpriced q₀ (mem_of_getElem? hq₀)
      (by rwa [PaymentRequest.isPenaltyRequest, ← htype]) (by rwa [← hids])
    rw [hids, hamount]
    refine ⟨hnodup, fun a ha => (hall a ha).trans_le hgrows.penalties.length_le, ?_⟩
    rw [hsum]
    congr 1
    refine map_congr_left fun a ha => ?_
    obtain ⟨u, hu, hkey⟩ := hgrows.penalties a _ (getElem?_eq_getElem (hall a ha))
    have hsame : u.amount = (x.1.db.penalties.get ⟨a, hall a ha⟩).amount :=
      congrArg (·.2.1) hkey
    simp [Db.amountOf, hu, hsame, getElem?_eq_getElem (hall a ha)]

/-- The invariant: since the state `db₀`, as much was taken from the profile as was marked
paid for it or is still open to charge. -/
structure ChargedOnce (db₀ : Db) (p : ℕ) (x : Store × Debts) : Prop where
  books : x.1.db.taken p - db₀.taken p = x.1.db.cleared p - db₀.cleared p + x.2.charged p
  priced : x.1.db.Priced

theorem chargedOnce_of_exec {db₀ : Db} {p : ℕ} (hrows : x.1.db.RowsHaveWallets)
    (hx : ChargedOnce db₀ p x) (hpre : Pre false i c x) (hg : marksUnpaid x.1 (.step i c ε))
    (h : exec x.1 i c ε = some (t, r)) : ChargedOnce db₀ p (t, x.2.record i c r) := by
  refine ⟨?_, priced_of_exec hx.priced h⟩
  have hstep := books_of_exec p hx.priced hpre hg h
  have hwallet := walletPaid_of_exec p hrows hpre hg h
  have hmobile := mobilePaid_of_exec p hpre hg h
  have hhand := confirmedPaid_of_exec p h
  have hcleared := cleared_of_exec p h
  have hbooks := hx.books
  simp only [Db.taken] at hbooks ⊢
  omega

end Step

/-! ### Runs -/

/-- **Each penalty is charged once.** When nothing is in progress, what was taken from the
profile for its penalties since the start is what the penalties marked paid since then amount
to. -/
theorem charged_once {s₀ : Store} (p : ℕ) (hrows : s₀.db.RowsHaveWallets)
    (hpriced : s₀.db.Priced) {c : Config Store Resp Exn} {as : List (Act Request Env Exn)}
    (h : c ∈ service.run marksUnpaid (service.idle s₀) as) (hq : c.Quiescent) :
    c.store.db.taken p - s₀.db.taken p = c.store.db.cleared p - s₀.db.cleared p := by
  have hguard : ∀ s v, marksUnpaid s v → faultGuard false s v := by
    intro s v hv
    cases v with
    | fault => cases hv
    | _ => rfl
  have h₀ : ChargedOnce s₀.db p (s₀, ⟨[], []⟩) := ⟨by simp [Debts.charged], hpriced⟩
  obtain ⟨d, hd, hidle⟩ := money_run hguard
    (fun x i c ε t r hrows hx hpre hg hexec => chargedOnce_of_exec hrows hx hpre hg hexec)
    h hrows h₀
  have hbooks := hd.books
  rw [Debts.charged, (hidle rfl hq).1] at hbooks
  simpa using hbooks

/-! ### Two payments of one penalty -/

/-- A profile with 500 francs in its wallet and one penalty of 100 francs. -/
def onePenalty : Store where
  db :=
    { profiles := [⟨false, false, .pendingPayment⟩]
      penalties := [⟨0, 10000, 0, false, false⟩]
      requests := []
      wallets := [⟨.system, none, 0⟩, ⟨.profile, some 0, 50000⟩]
      transactions := []
      payments := []
      payouts := []
      referrals := [] }
  deposits := []
  jobs := []

/-- Operation `i` reads the unpaid penalties and finds the two wallets. -/
def readsUnpaid (i : ℕ) : List (Act Request Env Exn) :=
  [.spawn (.payAllPenaltiesWithWallet 0), .step i .unit, .step i .unit, .step i .unit]

/-- Operation `i` debits, marks the penalties and records the payment. -/
def paysUnpaid (i token : ℕ) : List (Act Request Env Exn) :=
  [.step i .unit, .step i (.threshold 3), .step i .unit, .step i (.row token 0)]

theorem charged_once_alone :
    ∃ c ∈ service.run marksUnpaid (service.idle onePenalty) (readsUnpaid 0 ++ paysUnpaid 0 0),
      c.Quiescent ∧ c.store.db.taken 0 - onePenalty.db.taken 0 =
        c.store.db.cleared 0 - onePenalty.db.cleared 0 := by
  have hrun : (service.run marksUnpaid (service.idle onePenalty)
      (readsUnpaid 0 ++ paysUnpaid 0 0)).any fun c => decide c.Quiescent := by
    decide +kernel
  obtain ⟨c, hc, hq⟩ := (Option.any_eq_true _ _).1 hrun
  have hquiet : c.Quiescent := of_decide_eq_true hq
  exact ⟨c, hc, hquiet, charged_once 0 (Db.rowsHaveWallets_of_nil rfl)
    (by simp [Db.Priced, onePenalty]) hc hquiet⟩

/-- Two payments of all penalties that read the same list both take the money. -/
theorem penalties_charged_twice : onePenalty.db.RowsHaveWallets ∧ onePenalty.db.Priced ∧
    ∃ c ∈ service.run (faultGuard false) (service.idle onePenalty)
        (readsUnpaid 0 ++ readsUnpaid 1 ++ paysUnpaid 0 0 ++ paysUnpaid 1 1),
      c.Quiescent ∧ c.store.db.taken 0 - onePenalty.db.taken 0 = 20000 ∧
        c.store.db.cleared 0 - onePenalty.db.cleared 0 = 10000 := by
  refine ⟨Db.rowsHaveWallets_of_nil rfl, by simp [Db.Priced, onePenalty], ?_⟩
  have hrun : (service.run (faultGuard false) (service.idle onePenalty)
      (readsUnpaid 0 ++ readsUnpaid 1 ++ paysUnpaid 0 0 ++ paysUnpaid 1 1)).map
      (fun c => (decide c.Quiescent, c.store.db.taken 0 - onePenalty.db.taken 0,
        c.store.db.cleared 0 - onePenalty.db.cleared 0)) = some (true, 20000, 10000) := by
    decide +kernel
  obtain ⟨c, hc, heq⟩ := Option.map_eq_some_iff.1 hrun
  simp only [Prod.mk.injEq, decide_eq_true_eq] at heq
  exact ⟨c, hc, heq⟩

end Rabotka.Money
