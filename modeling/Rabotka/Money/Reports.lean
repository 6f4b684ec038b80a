import Rabotka.Money.Operations
import Rabotka.Money.Requests

/-!
# What the gateway has collected, and what the requests show of it

The gateway gives every reference it issues a final status, `final ref`; a deposit is
*collected* when that is COMPLETED. The history `Reports` remembers which reference each
process was told to be COMPLETED, and which references each request was credited for.

`gatewayHonest` is what the gateway promises: its reports agree with `final`, and a COMPLETED
one names a reference it has issued and settles the amount that was asked. `creditable` is
what the money depends on beyond that: no reference is collected for a request that is closed
or has another collected deposit, no request with a collected deposit is rejected, and a
COMPLETED callback finds the row that stores its reference. `deposits` is the discipline of
the three operations that deal with the gateway under these two conditions.
-/

namespace Rabotka.Money

open Async List

/-! ### History -/

/-- The reference each process was told to be COMPLETED, and the references that each request
was credited for. -/
structure Reports where
  told : ℕ → Option ℕ
  recorded : ℕ → List ℕ

namespace Reports

def none : Reports := ⟨fun _ => .none, fun _ => []⟩

def tell (h : Reports) (i ref : ℕ) (report : PaymentReport) : Reports :=
  if report.status = .completed then { h with told := Function.update h.told i (some ref) } else h

/-- Both ways by which a process learns of a COMPLETED deposit, and the settlement that
credits it. -/
def record (h : Reports) (i : ℕ) (c : Cmd) (r : Resp c) : Reports :=
  match c, r with
  | .verifyCallback, (some ref, report) => h.tell i ref report
  | .gatewayStatus ref, report => h.tell i ref report
  | .persistApproved id _ _ _ _ _, true =>
    { h with recorded := Function.update h.recorded id (h.recorded id ++ (h.told i).toList) }
  | _, _ => h

end Reports

/-- The money services with the history of reports. -/
abbrev reported : Service (Store × Reports) Cmd Resp Request Env Exn :=
  service.withHistory Reports.record

/-! ### What the gateway promises, and what the money depends on -/

/-- The request is there and not closed. -/
def Store.isOpen (s : Store) (id : ℕ) : Bool :=
  (s.db.requests[id]?).any fun q => q.status.isOpen

/-- A deposit of the request is collected. -/
def Store.collected (final : ℕ → GatewayStatus) (s : Store) (id : ℕ) : Bool :=
  s.deposits.any fun d => d.requestId = id && final d.ref = .completed

/-- A report that is not PENDING gives the final status, and a COMPLETED one settles what was
asked for a reference that was issued. -/
def Store.honest (final : ℕ → GatewayStatus) (s : Store) (ref : ℕ) (report : PaymentReport) :
    Bool :=
  report.status = .pending ||
    report.status = final ref && (report.status ≠ .completed ||
      s.deposits.any fun d => d.ref = ref &&
        (s.db.requests[d.requestId]?).all fun q => !settlementMismatch q report)

/-- Only the gateway's three operations run, their calls do not throw on their own account,
and the gateway's reports are honest. -/
def gatewayHonest (final : ℕ → GatewayStatus) : Guard Store Cmd Request Env := fun s v =>
  match v with
  | .spawn (.initiatePayment _ _ _ _) | .spawn .handlePaymentCallback
  | .spawn (.pollPaymentStatus _) => true
  | .spawn _ => false
  | .fault _ _ => false
  | .step _ .verifyCallback (.report (some ref) report) => s.honest final ref report
  | .step _ (.gatewayStatus ref) (.report _ report) => s.honest final ref report
  | _ => true

/-- A collected reference is issued only for an open request without another one; a rejection
closes no request with a collected deposit; and a process that was told COMPLETED finds the
row that stores the reference, or a request that is APPROVED already. -/
def creditable (final : ℕ → GatewayStatus) : Guard (Store × Reports) Cmd Request Env := fun x v =>
  match v with
  | .step _ (.gatewayInitiate id _) (.issue (.ok (some ref))) =>
    final ref ≠ .completed || (x.1.isOpen id && !x.1.collected final id)
  | .step _ (.rejectOpen id _) _ => !(x.1.isOpen id && x.1.collected final id)
  | .step _ (.rejectPolled id ref _) _ =>
    !((x.1.db.requests[id]?).any (stillPolledBy ref) && x.1.collected final id)
  | .step i (.findRequestByRef ref) _ =>
    x.2.told i ≠ some ref || (x.1.db.requests.any fun q => q.gatewayPaymentRef = some ref) ||
      x.1.deposits.any fun d => d.ref = ref && x.1.db.approved d.requestId
  | _ => true

/-! ### The invariant -/

variable (final : ℕ → GatewayStatus)

/-- Stored references and polled ones were issued for their request, and a collected deposit
is the only one of a request that is open, or APPROVED on account of that deposit. -/
structure Collecting (x : Store × Reports) : Prop where
  stored : ∀ id q ref, x.1.db.requests[id]? = some q → q.gatewayPaymentRef = some ref →
    ⟨ref, id⟩ ∈ x.1.deposits
  jobs : ∀ job ∈ x.1.jobs, ⟨job.gatewayRef, job.requestId⟩ ∈ x.1.deposits
  unique : ∀ d ∈ x.1.deposits, ∀ d' ∈ x.1.deposits, d.ref = d'.ref → d = d'
  told : ∀ i ref, x.2.told i = some ref → final ref = .completed ∧ ∃ id, ⟨ref, id⟩ ∈ x.1.deposits
  single : ∀ d ∈ x.1.deposits, ∀ d' ∈ x.1.deposits, final d.ref = .completed →
    final d'.ref = .completed → d.requestId = d'.requestId → d = d'
  collected : ∀ d ∈ x.1.deposits, final d.ref = .completed →
    ∃ q, x.1.db.requests[d.requestId]? = some q ∧ (q.status.isOpen ∧ x.2.recorded d.requestId = [] ∨
        q.status = .approved ∧ x.2.recorded d.requestId = [d.ref])
  recorded : ∀ id, x.2.recorded id ≠ [] →
    ∃ d ∈ x.1.deposits, d.requestId = id ∧ final d.ref = .completed

variable {final}

theorem Store.collected_iff {s : Store} {id : ℕ} : s.collected final id = true ↔
      ∃ d ∈ s.deposits, d.requestId = id ∧ final d.ref = .completed := by
  simp [collected, any_eq_true]

theorem Store.isOpen_iff {s : Store} {id : ℕ} :
    s.isOpen id = true ↔ ∃ q, s.db.requests[id]? = some q ∧ q.status.isOpen := by
  simp [isOpen, Option.any_eq_true]

/-- The steps of the gateway's operations, with what is known of the references in them. -/
def GatewayPre (i : ℕ) (c : Cmd) (x : Store × Reports) : Prop :=
  match c with
  | .storeGatewayRef id _ ref => ∀ r, ref = some r → ⟨r, id⟩ ∈ x.1.deposits
  | .addJob job => ⟨job.gatewayRef, job.requestId⟩ ∈ x.1.deposits
  | .persistApproved id _ _ _ _ _ => ∃ ref, x.2.told i = some ref ∧ ⟨ref, id⟩ ∈ x.1.deposits
  | .submit _ | .createApprovedRequest _ _ _ => False
  | _ => True

/-! ### One step -/

/-- The step by which a process may be told of a COMPLETED deposit. -/
def Cmd.tells : Cmd → Bool
  | .verifyCallback | .gatewayStatus _ => true
  | _ => false

theorem Reports.told_tell (h : Reports) (i ref : ℕ) (report : PaymentReport) (j : ℕ) :
    (h.tell i ref report).told j =
      if j = i ∧ report.status = .completed then some ref else h.told j := by
  unfold tell
  split
  · rcases eq_or_ne j i with rfl | hne
    · simp [*]
    · simp [hne]
  · simp [*]

theorem Reports.told_record_of_ne (h : Reports) {i j : ℕ} (hij : j ≠ i) (c : Cmd) (r : Resp c) :
    (h.record i c r).told j = h.told j := by
  cases c with
  | verifyCallback =>
    obtain ⟨_ | ref, report⟩ := r
    · rfl
    · simp [record, told_tell, hij]
  | gatewayStatus ref => simp [record, told_tell, hij]
  | persistApproved => cases r <;> rfl
  | _ => rfl

theorem Reports.told_record (h : Reports) (i : ℕ) {c : Cmd} (hc : c.tells = false)
    (r : Resp c) : (h.record i c r).told = h.told := by
  cases c with
  | verifyCallback | gatewayStatus => cases hc
  | persistApproved => cases r <;> rfl
  | _ => rfl

theorem Reports.recorded_record (h : Reports) (i : ℕ) {c : Cmd} {id : ℕ}
    (hc : ∀ q context tx sw mw, c ≠ .persistApproved id q context tx sw mw) (r : Resp c) :
    (h.record i c r).recorded id = h.recorded id := by
  cases c with
  | verifyCallback =>
    obtain ⟨_ | ref, report⟩ := r
    · rfl
    · simp only [record, tell]
      split <;> rfl
  | gatewayStatus ref =>
    simp only [record, tell]
    split <;> rfl
  | persistApproved j =>
    have hne : id ≠ j := fun h => hc _ _ _ _ _ (by rw [h])
    cases r
    · rfl
    · simp [record, hne]
  | _ => rfl

/-- A step that is neither a rejection nor a settlement leaves an open request open. -/
theorem onRequest_isOpen {c : Cmd} {id : ℕ} {q : PaymentRequest} (hq : q.status.isOpen)
    (hopen : ∀ tx, c ≠ .rejectOpen id tx)
    (hpolled : ∀ ref tx, stillPolledBy ref q → c ≠ .rejectPolled id ref tx)
    (hset : ∀ r context tx sw mw, c ≠ .persistApproved id r context tx sw mw) :
    (c.onRequest id q).status.isOpen := by
  cases c
  case claimForProcessing | revertToPending | storeGatewayRef | submit | revertPolled =>
    simp only [Cmd.onRequest]
    split
    · first | rfl | exact hq
    · exact hq
  case rejectOpen j tx =>
    have hne : j ≠ id := fun h => hopen tx (by rw [h])
    simpa [Cmd.onRequest, hne] using hq
  case rejectPolled j ref tx =>
    have hne : ¬ (j = id ∧ stillPolledBy ref q) := fun h => hpolled ref tx h.2 (by rw [h.1])
    simpa [Cmd.onRequest, hne] using hq
  case persistApproved j r context tx sw mw =>
    have hne : j ≠ id := fun h => hset r context tx sw mw (by rw [h])
    simpa [Cmd.onRequest, hne] using hq
  all_goals exact hq

/-- A step stores only the reference it is given. -/
theorem onRequest_ref {c : Cmd} {id : ℕ} {q : PaymentRequest} :
    (c.onRequest id q).gatewayPaymentRef = q.gatewayPaymentRef ∨
      ∃ gateway ref, c = .storeGatewayRef id gateway ref ∧
        (c.onRequest id q).gatewayPaymentRef = ref := by
  cases c
  case claimForProcessing | revertToPending | submit | revertPolled | rejectOpen | rejectPolled
      | persistApproved =>
    simp only [Cmd.onRequest]
    split <;> exact .inl rfl
  case storeGatewayRef j gateway ref =>
    simp only [Cmd.onRequest]
    split
    · rename_i h
      exact .inr ⟨gateway, ref, by rw [h], rfl⟩
    · exact .inl rfl
  all_goals exact .inl rfl

/-- What a COMPLETED report of an honest gateway tells. -/
theorem Store.honest_completed {s : Store} {ref : ℕ} {report : PaymentReport}
    (h : s.honest final ref report) (hreport : report.status = .completed) :
    final ref = .completed ∧ ∃ d ∈ s.deposits, d.ref = ref ∧
      ∀ q, s.db.requests[d.requestId]? = some q → settlementMismatch q report = false := by
  simp only [honest, hreport, reduceCtorEq, decide_false, Bool.false_or, ne_eq, not_true_eq_false,
    Bool.and_eq_true, decide_eq_true_eq, any_eq_true, Option.all_eq_true,
    Bool.not_eq_true'] at h
  obtain ⟨hfinal, d, hd, hdref, hall⟩ := h
  exact ⟨hfinal.symm, d, hd, hdref, hall⟩

/-- Whoever is told COMPLETED is told of a collected deposit. -/
theorem told_of_exec {x : Store × Reports} {t : Store} {i j : ℕ} {c : Cmd} {ε : Env} {r : Resp c}
    (hhonest : gatewayHonest final x.1 (.step i c ε)) (hexec : exec x.1 i c ε = some (t, r))
    {ref : ℕ} (h : (x.2.record i c r).told j = some ref) :
    x.2.told j = some ref ∨ final ref = .completed ∧ ∃ id, ⟨ref, id⟩ ∈ x.1.deposits := by
  have htell : ∀ {ref' : ℕ} {report : PaymentReport}, x.1.honest final ref' report →
      (x.2.tell i ref' report).told j = some ref →
      x.2.told j = some ref ∨ final ref = .completed ∧ ∃ id, ⟨ref, id⟩ ∈ x.1.deposits := by
    intro ref' report hhon htold
    rw [Reports.told_tell] at htold
    split at htold
    · rename_i hcompleted
      obtain rfl := Option.some.inj htold
      obtain ⟨hfinal, d, hd, rfl, -⟩ := Store.honest_completed hhon hcompleted.2
      exact .inr ⟨hfinal, d.requestId, hd⟩
    · exact .inl htold
  cases hc : c.tells with
  | false => exact .inl (by rwa [Reports.told_record _ _ hc] at h)
  | true =>
    cases c <;> simp only [Cmd.tells, Bool.false_eq_true] at hc
    case verifyCallback =>
      cases ε <;> simp only [exec, reduceCtorEq, Option.some.injEq] at hexec
      obtain ⟨rfl, rfl⟩ := Prod.mk.inj hexec
      rename_i ref' report
      cases ref' with
      | none => exact .inl h
      | some ref' => exact htell hhonest h
    case gatewayStatus =>
      cases ε <;> simp only [exec, reduceCtorEq, Option.some.injEq] at hexec
      obtain ⟨rfl, rfl⟩ := Prod.mk.inj hexec
      exact htell hhonest h

namespace Collecting

variable {x : Store × Reports} {t : Store} {i : ℕ} {c : Cmd} {ε : Env} {r : Resp c}

theorem createsNoRequest (hpre : GatewayPre i c x) : c.createsNoRequest = true := by
  cases c <;> first | rfl | exact hpre.elim

/-- The one collected deposit of a request keeps it open until it is credited for it. -/
theorem collected_of_exec (hx : Collecting final x) (hpre : GatewayPre i c x)
    (hg : creditable final x (.step i c ε)) (hexec : exec x.1 i c ε = some (t, r))
    {d : Deposit} (hd : d ∈ x.1.deposits) (hfinal : final d.ref = .completed) :
    ∃ q, t.db.requests[d.requestId]? = some q ∧
      (q.status.isOpen ∧ (x.2.record i c r).recorded d.requestId = [] ∨
        q.status = .approved ∧ (x.2.record i c r).recorded d.requestId = [d.ref]) := by
  obtain ⟨q, hq, hstatus⟩ := hx.collected d hd hfinal
  refine ⟨_, request_of_exec_of_some hexec hq, ?_⟩
  have hcollected : x.1.collected final d.requestId = true :=
    Store.collected_iff.2 ⟨d, hd, rfl, hfinal⟩
  by_cases hset : ∃ q' context tx sw mw, c = .persistApproved d.requestId q' context tx sw mw
  · obtain ⟨q', context, tx, sw, mw, rfl⟩ := hset
    obtain ⟨ref, htold, href⟩ := hpre
    have hr : r = q.status.isOpen := by rw [persistApproved_answer hexec, hq]; rfl
    rcases hstatus with ⟨hopen, hnil⟩ | ⟨happ, hone⟩
    · obtain ⟨hcompleted, -⟩ := hx.told i ref htold
      have hsame : ref = d.ref :=
        congrArg Deposit.ref (hx.single _ href _ hd hcompleted hfinal rfl)
      rw [hopen] at hr
      subst hr
      right
      simp [Cmd.onRequest, hopen, Db.withTx, Reports.record, hnil, htold, hsame]
    · have hclosed : q.status.isOpen = false := by rw [happ]; rfl
      rw [hclosed] at hr
      subst hr
      right
      exact ⟨by simpa [Cmd.onRequest, hclosed] using happ, hone⟩
  · push Not at hset
    rw [Reports.recorded_record _ _ hset]
    rcases hstatus with ⟨hopen, hnil⟩ | ⟨happ, hone⟩
    · refine .inl ⟨onRequest_isOpen hopen ?_ ?_ hset, hnil⟩
      · rintro tx rfl
        have hisOpen : x.1.isOpen d.requestId = true := Store.isOpen_iff.2 ⟨q, hq, hopen⟩
        simp [creditable, hisOpen, hcollected] at hg
      · rintro ref tx hpolled rfl
        simp [creditable, hq, hpolled, hcollected] at hg
    · refine .inr ⟨onRequest_status_of_approved happ ?_, hone⟩
      rintro rfl
      exact hpre

/-- **One step** of the gateway's operations keeps the deposits in order. -/
theorem exec (hx : Collecting final x) (hpre : GatewayPre i c x)
    (hhonest : gatewayHonest final x.1 (.step i c ε)) (hg : creditable final x (.step i c ε))
    (hexec : Money.exec x.1 i c ε = some (t, r)) :
    Collecting final (t, x.2.record i c r) := by
  have hgrows := exec_grows hexec
  have hcollected := fun d hd hfinal => hx.collected_of_exec hpre hg hexec (d := d) hd hfinal
  have hstored : ∀ id q ref, t.db.requests[id]? = some q → q.gatewayPaymentRef = some ref →
      ⟨ref, id⟩ ∈ t.deposits := by
    intro id q' ref hq' href
    rw [request_of_exec hexec (createsNoRequest hpre)] at hq'
    obtain ⟨q, hq, rfl⟩ := Option.map_eq_some_iff.1 hq'
    rcases @onRequest_ref c id q with hsame | ⟨gateway, ref', rfl, hnew⟩
    · exact hgrows.deposits (hx.stored id q ref hq (hsame ▸ href))
    · exact hgrows.deposits (hpre ref (hnew.symm.trans href))
  have htold : ∀ j ref, (x.2.record i c r).told j = some ref →
      final ref = .completed ∧ ∃ id, ⟨ref, id⟩ ∈ t.deposits := by
    intro j ref h
    have hissued : final ref = .completed ∧ ∃ id, ⟨ref, id⟩ ∈ x.1.deposits :=
      (told_of_exec hhonest hexec h).elim (hx.told j ref) id
    exact ⟨hissued.1, hissued.2.imp fun _ hd => hgrows.deposits hd⟩
  have hrecorded : ∀ id, (x.2.record i c r).recorded id ≠ [] →
      ∃ d ∈ t.deposits, d.requestId = id ∧ final d.ref = .completed := by
    intro id hne
    by_cases hset : ∃ q' context tx sw mw, c = .persistApproved id q' context tx sw mw
    · obtain ⟨q', context, tx, sw, mw, rfl⟩ := hset
      obtain ⟨ref, htoldi, href⟩ := hpre
      exact ⟨_, hgrows.deposits href, rfl, (hx.told i ref htoldi).1⟩
    · push Not at hset
      rw [Reports.recorded_record _ _ hset] at hne
      obtain ⟨d, hd, hdid⟩ := hx.recorded id hne
      exact ⟨d, hgrows.deposits hd, hdid⟩
  cases queueStep_of_exec hexec with
  | same hdep hjobs =>
    exact {
      stored := hstored
      jobs := fun job hjob => hgrows.deposits (hx.jobs job (hjobs ▸ hjob))
      unique := by simpa only [hdep] using hx.unique
      told := htold
      single := by simpa only [hdep] using hx.single
      collected := fun d hd => hcollected d (hdep ▸ hd)
      recorded := hrecorded }
  | addJob ht =>
    subst ht
    exact {
      stored := hstored
      jobs := by
        intro job hjob
        rcases mem_cons.1 hjob with rfl | hjob
        · exact hpre
        · exact hx.jobs job hjob
      unique := hx.unique
      told := htold
      single := hx.single
      collected := hcollected
      recorded := hrecorded }
  | @issue id amount ref hfresh ht =>
    subst ht
    -- the guard makes a collected reference the first one of an open request
    have hfirst : final ref = .completed → x.1.isOpen id = true ∧
        ∀ d ∈ x.1.deposits, d.requestId = id → final d.ref ≠ .completed := by
      intro hfinal
      simp only [creditable, hfinal, ne_eq, not_true_eq_false, decide_false, Bool.false_or,
        Bool.and_eq_true, Bool.not_eq_true'] at hg
      refine ⟨hg.1, fun d hd hid hcomp => ?_⟩
      have htrue : x.1.collected final id = true := Store.collected_iff.2 ⟨d, hd, hid, hcomp⟩
      simp [htrue] at hg
    exact {
      stored := hstored
      jobs := fun job hjob => hgrows.deposits (hx.jobs job hjob)
      unique := by
        intro d hd d' hd' href
        rcases mem_cons.1 hd with rfl | hd <;> rcases mem_cons.1 hd' with rfl | hd'
        · rfl
        · exact absurd href.symm (hfresh d' hd')
        · exact absurd href (hfresh d hd)
        · exact hx.unique d hd d' hd' href
      told := htold
      single := by
        intro d hd d' hd' hfinal hfinal' hid
        rcases mem_cons.1 hd with rfl | hd <;> rcases mem_cons.1 hd' with rfl | hd'
        · rfl
        · exact absurd hfinal' ((hfirst hfinal).2 d' hd' hid.symm)
        · exact absurd hfinal ((hfirst hfinal').2 d hd hid)
        · exact hx.single d hd d' hd' hfinal hfinal' hid
      collected := by
        intro d hd hfinal
        rcases mem_cons.1 hd with rfl | hd
        · obtain ⟨hopen, hnone⟩ := hfirst hfinal
          obtain ⟨q, hq, hstatus⟩ := Store.isOpen_iff.1 hopen
          refine ⟨q, hq, .inl ⟨hstatus, ?_⟩⟩
          rw [Reports.recorded_record _ _ (by simp)]
          by_contra hne
          obtain ⟨d, hd, hid, hcomp⟩ := hx.recorded _ hne
          exact hnone d hd hid hcomp
        · exact hcollected d hd hfinal
      recorded := hrecorded }

end Collecting

end Rabotka.Money
