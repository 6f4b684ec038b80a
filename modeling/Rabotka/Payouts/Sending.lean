import Rabotka.Payouts.Calls

/-!
# Sending keeps the discipline

From the insertion of its row until the reference is written, a payout is in the hands of the
operation that sends it. `initiatePayout` throws only where no transfer can have been taken: it
never drew an identifier, or the gateway refused. So the payout that `send` marks FAILED has no
transfer, unless the write of the reference itself throws, which the guard excludes.
-/

namespace Rabotka.Payouts

open Async Decimal

variable {i id ref : ℕ} {r : MobileMoneyPayout} {x y : State} {K : ℤ} {α : Type}

/-! ### A payout in the hands of its creator -/

/-- What the operation has created besides the payout `id` is handed over. -/
def Rest (i id : ℕ) (x : State) : Prop :=
  ∀ p, (i, p) ∈ x.2 → p ≠ id → x.1.Handed p

/-- The operation holds the payout `r`, and no other. -/
def Holds (i id : ℕ) (r : MobileMoneyPayout) (x : State) : Prop :=
  Rest i id x ∧ Held i id r x

/-- The payout has no transfer yet. -/
def NoTransfer (id : ℕ) (x : State) : Prop :=
  ∀ (t : ℕ) (a : Transfer), x.1.transfers[t]? = some a → a.externalId ≠ id

/-- The transfer was drawn for the payout and has not been requested. -/
def Drawn (id ref : ℕ) (x : State) : Prop :=
  ∃ a, x.1.transfers[ref]? = some a ∧ a.externalId = id ∧
    (a.progress = .unsent ∨ a.progress = .failed)

/-- The transfer belongs to the payout. -/
def Belongs (id ref : ℕ) (x : State) : Prop :=
  ∃ a, x.1.transfers[ref]? = some a ∧ a.externalId = id

/-- The other payouts stay handed over where they are spared. -/
theorem Rest.step (h : Rest i id x) (hstory : y.2 = x.2) (hkept : Kept x.1 y.1)
    (hspared : ∀ p, p ≠ id → Spared x.1 y.1 p) : Rest i id y := by
  intro p hp hne
  rw [hstory] at hp
  exact (hspared p hne).handed hkept (h p hp hne)

/-- With the payout itself everything is handed over. -/
theorem Rest.idle (h : Rest i id x) (hid : x.1.Handed id) : Idle i x := by
  intro p hp
  rcases eq_or_ne p id with rfl | hne
  · exact hid
  · exact h p hp hne

theorem stable_holds : (discipline K).Stable i (Holds i id r) := by
  intro x y _ hrely hx
  refine ⟨fun p hp hne => ?_, hx.2.rely hrely⟩
  have hmem := hrely.mem.1 hp
  exact (hrely.spared p hmem).handed hrely.kept (hx.1 p hmem hne)

theorem stable_noTransfer : (discipline K).Stable i fun x => Holds i id r x ∧ NoTransfer id x := by
  refine fun x y hy hrely hx => ⟨stable_holds x y hy hrely hx.1, fun t b hb hid => ?_⟩
  obtain ⟨a, ha, -⟩ := (hrely.spared id hx.1.2.1).transfers t b hb hid
  obtain ⟨b', hb', hle⟩ := hrely.kept.transfers t a ha
  obtain rfl := Option.some.inj (hb.symm.trans hb')
  exact hx.2 t a ha (hle.1.symm.trans hid)

theorem stable_drawn : (discipline K).Stable i fun x => Holds i id r x ∧ Drawn id ref x := by
  rintro x y hy hrely ⟨hholds, a, ha, hid, hprogress⟩
  refine ⟨stable_holds x y hy hrely hholds, ?_⟩
  obtain ⟨b, hb, hle⟩ := hrely.kept.transfers ref a ha
  refine ⟨b, hb, hle.1.trans hid, ?_⟩
  obtain ⟨a', ha', hstep⟩ :=
    (hrely.spared id hholds.2.1).transfers ref b hb (hle.1.trans hid)
  obtain rfl := Option.some.inj (ha.symm.trans ha')
  rcases hprogress with hunsent | hfailed
  · exact hstep hunsent
  · exact .inr (hle.2.2 hfailed)

theorem stable_belongs : (discipline K).Stable i fun x => Holds i id r x ∧ Belongs id ref x := by
  rintro x y hy hrely ⟨hholds, a, ha, hid⟩
  obtain ⟨b, hb, hle⟩ := hrely.kept.transfers ref a ha
  exact ⟨stable_holds x y hy hrely hholds, b, hb, hle.1.trans hid⟩

theorem stable_void : (discipline K).Stable i fun x => Holds i id r x ∧ x.1.Void id :=
  fun x y hy hrely hx => ⟨stable_holds x y hy hrely hx.1,
    (hrely.spared id hx.1.2.1).void hrely.kept hx.2⟩

theorem NoTransfer.void (h : NoTransfer id x) : x.1.Void id :=
  fun t a ha hid => absurd hid (h t a ha)

/-- The transfer of the payout is the only one. -/
theorem Belongs.void (hx : Inv K x) {a : Transfer} (ha : x.1.transfers[ref]? = some a)
    (hid : a.externalId = id) (hfailed : a.progress = .failed) : x.1.Void id := by
  intro t b hb hext
  obtain rfl := hx.sound.unique t ref b a hb ha (hext.trans hid.symm)
  obtain rfl := Option.some.inj (ha.symm.trans hb)
  exact hfailed

/-! ### The transfer -/

/-- The request: a refusal is final, and after anything else the transfer may be under way. -/
theorem postPayout_spec :
    Spec K i (fun x => Holds i id r x ∧ Drawn id ref x) (issue (.postPayout ref))
      (fun o x => Holds i id r x ∧ Belongs id ref x ∧
        (o.any PawapayResponse.isRefusal → x.1.Void id))
      (fun _ x => Holds i id r x ∧ Drawn id ref x) := by
  refine .cmd (D := discipline K) (c := .postPayout ref) stable_drawn (fun x _ hx => ?_)
    (fun x ε y o hx hPx hguard hexec hy => ?_) fun _ _ _ _ hx => hx
  · obtain ⟨hholds, a, ha, hid, -⟩ := hx
    exact ⟨a, ha, hid ▸ hholds.2.1⟩
  · obtain ⟨⟨hrest, hmem, hr, hheld⟩, a, ha, hid, hprogress⟩ := hPx
    have hstep := step_spec (c := .postPayout ref) hx ⟨a, ha, hid ▸ hmem⟩ hguard hexec
    obtain ⟨hexec, hstory⟩ := Service.withHistory_exec.1 hexec
    obtain ⟨hworld, rfl⟩ := pair_inj hexec
    have hrest' : Rest i id y := by
      refine hrest.step hstory hstep.kept fun p hp => ?_
      rw [← hworld]
      refine spared_advance fun b hb hext _ => ?_
      obtain rfl := Option.some.inj (ha.symm.trans hb)
      exact absurd (hext.symm.trans hid) hp
    obtain rfl : y = (x.1.advance ref (· = .unsent)
        (if ε.response.any PawapayResponse.isRefusal then .failed else .open), x.2) :=
      Prod.ext hworld.symm hstory
    have hrow := Table.getElem?_update x.1.transfers ref (fun t =>
      if t.progress = .unsent then
        { t with progress :=
            if ε.response.any PawapayResponse.isRefusal then .failed else .open }
      else t) ref
    rw [ha, Option.map_some, if_pos rfl] at hrow
    refine ⟨⟨hrest', hmem, hr, hheld⟩, ⟨_, by simpa [World.advance] using hrow, ?_⟩,
      fun hrefused => Belongs.void hy (by simpa [World.advance] using hrow) ?_ ?_⟩
    · split <;> exact hid
    · split <;> exact hid
    · rcases hprogress with hunsent | hfailed
      · rw [if_pos hunsent, if_pos hrefused]
      · rw [if_neg (by simp [hfailed])]
        exact hfailed

/-- What `initiatePayout` leaves: the reference of the payout's transfer, or, where it throws,
no transfer that could be executed. -/
theorem initiatePayout_spec {currency operator : String} :
    Spec K i (fun x => Holds i id r x ∧ NoTransfer id x)
      (initiatePayout r.amount currency id operator)
      (fun ref x => Holds i id r x ∧ Belongs id ref x)
      (fun _ x => Holds i id r x ∧ x.1.Void id) := by
  unfold initiatePayout
  refine .bind (R := fun _ x => Holds i id r x ∧ NoTransfer id x) ?_ fun supported => ?_
  · exact (read_spec (c := .findOperator operator currency) stable_noTransfer
      (fun _ _ _ _ h => (pair_inj h).1.symm) (fun _ _ _ => rfl)
      fun _ _ => trivial).post_mono (fun _ _ _ hx => hx.1) fun _ _ _ hx => ⟨hx.1, hx.2.void⟩
  cases supported with
  | false => exact .fail fun _ _ hx => ⟨hx.1, hx.2.void⟩
  | true =>
    simp only [Bool.not_true, Bool.false_eq_true, if_false]
    refine .bind (R := fun ref x => Holds i id r x ∧ Drawn id ref x) ?_ fun ref => ?_
    · refine .cmd (D := discipline K) (c := .randomUUID id r.amount) stable_noTransfer
        (fun x _ hx => ⟨r, hx.1.2, rfl, hx.2⟩) (fun x ε y a hx hPx hguard hexec _ => ?_)
        fun _ _ _ _ hx => ⟨hx.1, hx.2.void⟩
      have hstep := step_spec (c := .randomUUID id r.amount) hx ⟨r, hPx.1.2, rfl, hPx.2⟩ hguard
        hexec
      obtain ⟨hexec, hstory⟩ := Service.withHistory_exec.1 hexec
      obtain ⟨hworld, rfl⟩ := pair_inj hexec
      obtain rfl : y = ({ x.1 with
          transfers := x.1.transfers ++ [⟨id, r.amount, .unsent⟩] }, x.2) :=
        Prod.ext hworld.symm hstory
      refine ⟨⟨hPx.1.1.step rfl hstep.kept fun p hp => ⟨fun _ hs _ => hs, fun t b hb hid => ?_⟩,
        hPx.1.2⟩, _, List.getElem?_concat_length, rfl, .inl rfl⟩
      rcases Table.getElem?_concat_eq_some.1 hb with hb | ⟨-, rfl⟩
      · exact ⟨b, hb, .inl⟩
      · exact absurd hid.symm hp
    · refine .bind (R := fun o x => Holds i id r x ∧ Belongs id ref x ∧
        (o.any PawapayResponse.isRefusal → x.1.Void id)) ?_ fun o => ?_
      · refine .orElseCatch postPayout_spec fun _ => .ret fun x _ hx => ?_
        obtain ⟨hholds, a, ha, hid, -⟩ := hx
        exact ⟨hholds, ⟨a, ha, hid⟩, fun h => by simp at h⟩
      · cases o with
        | none => exact .ret fun _ _ hx => ⟨hx.1, hx.2.1⟩
        | some res =>
          by_cases hrefusal : res.isRefusal
          · simp only [hrefusal, if_true]
            exact .fail fun _ _ hx => ⟨hx.1, hx.2.2 hrefusal⟩
          · simp only [hrefusal]
            exact .ret fun _ _ hx => ⟨hx.1, hx.2.1⟩

/-- The reference is written, or the payout is marked FAILED and has no transfer. -/
theorem requestTransfer_spec {currency operator : String} :
    Spec K i (fun x => Holds i id r x ∧ NoTransfer id x)
      (requestTransfer id r.amount currency operator) (fun _ => Idle i) (fun _ => Idle i) := by
  refine .orElseCatch (Y := fun _ x => Holds i id r x ∧ x.1.Void id) ?_ fun e => ?_
  · refine .bind initiatePayout_spec fun ref => ?_
    refine .cmd (D := discipline K) (c := .setGatewayRef id ref) stable_belongs
      (fun x _ hx => ⟨r, hx.1.2, hx.2⟩) (fun x ε y a hx hPx hguard hexec _ => ?_)
      fun _ _ hguard _ _ => by cases hguard
    have hstep := step_spec (c := .setGatewayRef id ref) hx ⟨r, hPx.1.2, hPx.2⟩ hguard hexec
    obtain ⟨⟨hrest, -, hr, -⟩, -⟩ := hPx
    obtain ⟨hexec, hstory⟩ := Service.withHistory_exec.1 hexec
    obtain ⟨hworld, -⟩ := pair_inj hexec
    have hrest' : Rest i id y := by
      refine hrest.step hstory hstep.kept fun p hp => ?_
      rw [← hworld]
      exact spared_write hp rfl rfl
    refine hrest'.idle (.inl ⟨{ r with gatewayRef := some ref }, ?_, rfl⟩)
    simp [← hworld, World.updatePayout, Table.getElem?_update, hr]
  · refine .bind (R := fun _ => Idle i) ?_ fun _ => .fail fun _ _ hx => hx
    refine .cmd (D := discipline K) (c := .markFailed id e.message) stable_void
      (fun x _ hx => ⟨r, hx.1.2, hx.2⟩) (fun x ε y a hx hPx hguard hexec _ => ?_)
      fun _ _ _ _ hx => hx.1.1.idle (.inr hx.2)
    have hstep := step_spec (c := .markFailed id e.message) hx ⟨r, hPx.1.2, hPx.2⟩ hguard hexec
    obtain ⟨hexec, hstory⟩ := Service.withHistory_exec.1 hexec
    obtain ⟨hworld, -⟩ := pair_inj hexec
    have hrest' : Rest i id y := by
      refine hPx.1.1.step hstory hstep.kept fun p hp => ?_
      rw [← hworld]
      exact spared_write hp rfl rfl
    refine hrest'.idle (.inr ?_)
    rw [← hworld]
    exact hPx.2

/-! ### The whole of `send` -/

/-- What the insertion leaves: nothing, where the request id is taken, else the new payout. -/
def Inserted (i : ℕ) (row : MobileMoneyPayout) : Option ℕ → State → Prop
  | none, x => Idle i x
  | some id, x => ∃ r : MobileMoneyPayout, r.amount = row.amount ∧ Holds i id r x ∧
      NoTransfer id x

theorem createPayout_spec {row : MobileMoneyPayout} (hamount : 0 < row.amount) :
    Spec K i (fun x => Idle i x ∧ HasWallet x) (issue (.createPayout row)) (Inserted i row)
      (fun _ => Idle i) := by
  have hlast : Lasting i fun x => Idle i x ∧ HasWallet x :=
    lasting_idle.and lasting_hasWallet
  refine .cmd (D := discipline K) (c := .createPayout row) hlast.stable
    (fun x _ hx => ⟨hamount, List.length_pos_iff.1 hx.2⟩)
    (fun x ε y a hx hPx hguard hexec _ => ?_) fun _ _ _ _ hx => hx.1
  have hstep := step_spec (c := .createPayout row) hx ⟨hamount, List.length_pos_iff.1 hPx.2⟩
    hguard hexec
  obtain ⟨hexec, hstory⟩ := Service.withHistory_exec.1 hexec
  change exec x.1 ε (.createPayout row) = some (y.1, a) at hexec
  simp only [exec] at hexec
  split at hexec
  · obtain ⟨hworld, rfl⟩ := pair_inj hexec
    obtain rfl : y = x := Prod.ext hworld.symm hstory
    exact hPx.1
  · obtain ⟨hworld, rfl⟩ := pair_inj hexec
    obtain rfl : y = ({ x.1 with payouts := x.1.payouts ++ [{ row with
        createdAt := ε.now, status := .pending, gatewayRef := none, gatewayTxId := none,
        failureReason := none }] }, (i, x.1.payouts.length) :: x.2) :=
      Prod.ext hworld.symm hstory
    refine ⟨{ row with
        createdAt := ε.now, status := .pending, gatewayRef := none, gatewayTxId := none,
        failureReason := none }, rfl, ⟨fun p hp hne => ?_, List.mem_cons_self,
      List.getElem?_concat_length, rfl, rfl⟩, fun t a ha hid => ?_⟩
    · have hmem : (i, p) ∈ x.2 := (List.mem_cons.1 hp).resolve_left fun h => hne (Prod.mk.inj h).2
      have hlt := hx.owned.bound i p hmem
      have hspared : Spared x.1 { x.1 with payouts := x.1.payouts ++ [{ row with
          createdAt := ε.now, status := .pending, gatewayRef := none, gatewayTxId := none,
          failureReason := none }] } p :=
        ⟨fun s hs _ => by rwa [List.getElem?_append_left hlt], fun t b hb _ => ⟨b, hb, .inl⟩⟩
      exact hspared.handed hstep.kept (hPx.1 p hmem)
    · obtain ⟨s, hs, -⟩ := hx.sound.transfers t a ha
      rw [hid] at hs
      simp at hs

theorem createAndRequest_spec {row : MobileMoneyPayout} (hamount : 0 < row.amount) :
    Spec K i (fun x => Idle i x ∧ HasWallet x) (createAndRequest row) (fun _ => Idle i)
      (fun _ => Idle i) := by
  refine .bind (createPayout_spec hamount) fun o => ?_
  cases o with
  | none =>
    refine .bind (R := fun _ => Idle i) ?_ fun o => ?_
    · exact skip_spec (c := .findByClientRequestId row.clientRequestId) lasting_idle
        (fun _ _ _ => rfl) fun _ _ => trivial
    · cases o with
      | none => exact .fail fun _ _ hx => hx
      | some z => exact .ret fun _ _ hx => hx
  | some id =>
    rintro x hx ⟨r, hamount, hholds⟩
    have hrequest : Spec K i (fun x => Holds i id r x ∧ NoTransfer id x)
        (requestTransfer id row.amount row.currency row.operator) (fun _ => Idle i)
        (fun _ => Idle i) := hamount ▸ requestTransfer_spec
    replace hrequest := hrequest x hx hholds
    refine Discipline.Obeys.bind hx hrequest fun _ => ?_
    exact (load_spec lasting_idle.stable).post_mono (fun _ _ _ hx => hx.1) fun _ _ _ hx => hx

theorem checkBalances_spec {gateway : GatewayMetadata} {country currency : String} {amount : ℤ} :
    Spec K i (Idle i) (checkBalances gateway country currency amount)
      (fun _ x => Idle i x ∧ HasWallet x) (fun _ => Idle i) := by
  have hlast : Lasting i fun x => Idle i x ∧ HasWallet x :=
    lasting_idle.and lasting_hasWallet
  unfold checkBalances
  refine .bind (getOrCreateMobileMoneyWallet_spec lasting_idle) fun ledger => ?_
  by_cases hledger : ledger.2.balance < 100 * amount
  · simp only [hledger, if_true]
    exact .fail fun _ _ hx => hx.1
  simp only [hledger, if_false]
  refine .bind (R := fun _ x => Idle i x ∧ HasWallet x) ?_ fun balances => ?_
  · exact .orElseCatch (Y := fun _ x => Idle i x ∧ HasWallet x)
      (skip_spec (c := .getBalances country) hlast (fun _ _ _ => rfl) fun _ _ => trivial)
      fun _ => .fail fun _ _ hx => hx.1
  · split
    · exact .fail fun _ _ hx => hx.1
    · exact .ret fun _ _ hx => hx

theorem sendNew_spec {input : SendPayoutInput} :
    Spec K i (Idle i) (sendNew input) (fun _ => Idle i) (fun _ => Idle i) := by
  have hfail : ∀ e, Spec K i (Idle i) (.fail e : Prog MobileMoneyPayout) (fun _ => Idle i)
      (fun _ => Idle i) := fun e => .fail fun _ _ hx => hx
  unfold sendNew
  dsimp only
  by_cases hamount : mathRound input.amount ≤ 0
  · simp only [hamount, if_true]
    exact hfail _
  by_cases hconfirm : mathRound input.confirmAmount = mathRound input.amount
  swap
  · simp only [hamount, hconfirm, ne_eq, not_false_eq_true, if_true, if_false]
    exact hfail _
  simp only [hamount, hconfirm, ne_eq, not_true_eq_false, if_false]
  refine .bind (R := fun _ => Idle i) (skip_spec (c := .activePayoutGateway) lasting_idle
    (fun _ _ _ => rfl) fun _ _ => trivial) fun gateway => ?_
  cases gateway with
  | none => exact hfail _
  | some gateway =>
    refine .bind (R := fun _ => Idle i) (skip_spec (c := .activeOperators) lasting_idle
      (fun _ _ _ => rfl) fun _ _ => trivial) fun operators => ?_
    cases operators.find? fun o => o.code = input.operator with
    | none => exact hfail _
    | some operator =>
      refine .bind checkBalances_spec fun _ => createAndRequest_spec ?_
      simp only [newPayout]
      omega

theorem send_spec {input : SendPayoutInput} :
    Spec K i (Idle i) (send input) (fun _ => Idle i) (fun _ => Idle i) := by
  refine .bind (R := fun _ => Idle i) (skip_spec (c := .findByClientRequestId _) lasting_idle
    (fun _ _ _ => rfl) fun _ _ => trivial) fun o => ?_
  cases o with
  | none => exact sendNew_spec
  | some z => exact .ret fun _ _ hx => hx

/-! ### Every request -/

/-- The requests of the service and the steps of the gateway. -/
theorem handles (K : ℤ) : Discipline.Handles (service.withHistory record) (discipline K) := by
  intro request i x hx _ hidle
  have hspec : Spec K i (Idle i) (handler request) (fun _ => Idle i) (fun _ => Idle i) := by
    cases request with
    | send input => exact .bind send_spec fun _ => .ret fun _ _ hx => hx
    | refresh id => exact .bind (refresh_spec lasting_idle) fun _ => .ret fun _ _ hx => hx
    | handleCallback ref => exact handleCallback_spec lasting_idle ref
    | list status skip take => exact .bind (list_spec lasting_idle) fun _ => .ret fun _ _ hx => hx
    | execute | giveUp => exact skip_spec lasting_idle (fun _ _ _ => rfl) fun _ _ => trivial
  exact hspec x hx hidle

end Rabotka.Payouts
