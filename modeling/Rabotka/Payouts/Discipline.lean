import Rabotka.Payouts.Steps

/-!
# The discipline of the payout service

`step_spec` says what one call does when it is issued under its precondition: the world stays
sound, the payouts in other hands are spared, and the ledger moves by exactly what becomes
COMPLETED. `discipline` is the contract between the operations that follows from it. It holds
under the guard `coversPending`: the ledger covers each new payout together with the ones that
are still PENDING, and the write of a reference does not throw.
-/

namespace Rabotka.Payouts

open Async

variable {i id ref : ℕ} {r : MobileMoneyPayout} {x y : State} {w v : World} {K : ℤ} {ε : Env}

/-- The ledger covers each new payout together with the PENDING ones, and no write of a
reference throws. -/
def coversPending : Guard World Cmd Request Env
  | w, .step _ (.createPayout row) _ =>
    w.payouts.any (fun r => r.clientRequestId = row.clientRequestId) ||
      w.total .pending + row.amount ≤ w.ledger
  | _, .fault _ (.setGatewayRef _ _) => false
  | _, _ => true

/-- What holds between two calls: `K` is what the ledger and the COMPLETED payouts add up to. -/
structure Inv (K : ℤ) (x : State) : Prop where
  sound : Sound x.1
  owned : Owned x
  covered : x.1.total .pending ≤ x.1.ledger
  books : x.1.ledger + x.1.total .completed = K

/-- What a call of the operation `i` does. -/
structure Stepped (i : ℕ) (x y : State) : Prop where
  sound : Sound y.1
  kept : Kept x.1 y.1
  spared : ∀ id < x.1.payouts.length, (i, id) ∉ x.2 → Spared x.1 y.1 id
  covered : y.1.total .pending ≤ y.1.ledger
  books : y.1.ledger + y.1.total .completed = x.1.ledger + x.1.total .completed
  story : y.2 = x.2 ∧ y.1.payouts.length = x.1.payouts.length ∨
    y.2 = (i, x.1.payouts.length) :: x.2 ∧ y.1.payouts.length = x.1.payouts.length + 1

/-- A call that only reads. -/
theorem Stepped.of_eq (h : Inv K x) (hworld : y.1 = x.1) (hstory : y.2 = x.2) : Stepped i x y := by
  obtain rfl : y = x := Prod.ext hworld hstory
  exact ⟨h.sound, .refl _, fun _ _ _ => .refl _ _, h.covered, rfl, .inl ⟨rfl, rfl⟩⟩

/-- A row that is written where it stays or becomes something other than COMPLETED. -/
theorem Stepped.write {f : MobileMoneyPayout → MobileMoneyPayout} (h : Inv K x)
    (hr : x.1.payouts[id]? = some r) (hown : (i, id) ∈ x.2 ∨ r.gatewayRef.isSome)
    (hpending : r.status = .pending) (hstatus : (f r).status ≠ .completed)
    (hrequest : (f r).clientRequestId = r.clientRequestId) (hle : RowLe r (f r))
    (hfits : Fits (x.1.updatePayout id f) id (f r)) (hworld : y.1 = x.1.updatePayout id f)
    (hstory : y.2 = x.2) : Stepped i x y := by
  obtain rfl : y = (x.1.updatePayout id f, x.2) := Prod.ext hworld hstory
  have hpos := (h.sound.fits id r hr).amount
  have hamount := hle.1
  refine ⟨h.sound.write hr rfl rfl le_rfl (fun _ _ => rfl) h.sound.withdrawals hrequest hamount
      hfits, kept_write hr rfl rfl le_rfl hle, fun p _ hp => ?_, ?_, ?_,
    .inl ⟨rfl, Table.length_update _ _ _⟩⟩
  · rcases hown with hown | href
    · exact spared_write (fun hid => hp (hid ▸ hown)) rfl rfl
    · exact spared_write_of_ref (v := x.1.updatePayout id f) hr href rfl rfl p
  · have htotal := total_write (w := x.1) (v := x.1.updatePayout id f) hr rfl .pending
    have hcovered := h.covered
    have hledger : (x.1.updatePayout id f).ledger = x.1.ledger := rfl
    rw [if_pos hpending] at htotal
    dsimp only
    rw [hledger, htotal]
    split <;> omega
  · have htotal := total_write (w := x.1) (v := x.1.updatePayout id f) hr rfl .completed
    have hledger : (x.1.updatePayout id f).ledger = x.1.ledger := rfl
    rw [hpending, if_neg (by decide), if_neg hstatus] at htotal
    dsimp only
    rw [hledger, htotal]
    omega

/-- A transfer that moves on. -/
theorem Stepped.advance {q : Progress → Bool} {after : Progress} (h : Inv K x)
    (hq : q .executed = false ∧ q .failed = false)
    (hspared : ∀ p, (i, p) ∉ x.2 → ∀ a, x.1.transfers[ref]? = some a → a.externalId = p →
      q .unsent → after = .failed)
    (hworld : y.1 = x.1.advance ref q after) (hstory : y.2 = x.2) : Stepped i x y := by
  obtain rfl : y = (x.1.advance ref q after, x.2) := Prod.ext hworld hstory
  exact ⟨h.sound.advance hq, kept_advance hq, fun p _ hp => spared_advance (hspared p hp),
    h.covered, rfl, .inl ⟨rfl, rfl⟩⟩

/-! ### One call -/

/-- The insertion of a payout that the ledger covers. -/
theorem Stepped.insert (h : Inv K x) (hwallets : x.1.wallets ≠ [])
    (hamount : 0 < r.amount) (hpending : r.status = .pending)
    (hnone : r.gatewayRef = none)
    (hnew : ∀ s ∈ x.1.payouts, s.clientRequestId ≠ r.clientRequestId)
    (hguard : x.1.total .pending + r.amount ≤ x.1.ledger)
    (hworld : y.1 = { x.1 with payouts := x.1.payouts ++ [r] })
    (hstory : y.2 = (i, x.1.payouts.length) :: x.2) : Stepped i x y := by
  obtain rfl : y = ({ x.1 with payouts := x.1.payouts ++ [r] },
    (i, x.1.payouts.length) :: x.2) := Prod.ext hworld hstory
  have htotal : ∀ s, ({ x.1 with payouts := x.1.payouts ++ [r] } : World).total s =
      x.1.total s + if PayoutStatus.pending = s then r.amount else 0 := by
    intro s
    simp only [World.total, Table.sumBy_concat, hpending]
  refine ⟨h.sound.insert hwallets hamount hpending hnone hnew,
    ⟨.append RowLe.refl _ _, .refl TransferLe.refl _, le_rfl⟩, fun p hp _ => ?_, ?_, ?_,
    .inr ⟨rfl, List.length_append⟩⟩
  · exact ⟨fun s hs _ => by rwa [List.getElem?_append_left hp], fun t b hb _ => ⟨b, hb, .inl⟩⟩
  · rw [htotal, if_pos rfl]
    exact hguard
  · rw [htotal, if_neg (by decide), add_zero]
    rfl

/-- The identifier of a transfer is drawn. -/
theorem Stepped.draw {amount : ℤ} (h : Inv K x) (hheld : Held i id r x)
    (hamount : r.amount = amount)
    (hnone : ∀ (t : ℕ) (a : Transfer), x.1.transfers[t]? = some a → a.externalId ≠ id)
    (hworld : y.1 = { x.1 with transfers := x.1.transfers ++ [⟨id, amount, .unsent⟩] })
    (hstory : y.2 = x.2) : Stepped i x y := by
  obtain rfl : y = ({ x.1 with transfers := x.1.transfers ++ [⟨id, amount, .unsent⟩] }, x.2) :=
    Prod.ext hworld hstory
  obtain ⟨hmem, hr, hpending, -⟩ := hheld
  refine ⟨h.sound.draw hr hpending hamount hnone,
    ⟨.refl RowLe.refl _, .append TransferLe.refl _ _, le_rfl⟩, fun p _ hp => ?_, h.covered, rfl,
    .inl ⟨rfl, rfl⟩⟩
  refine ⟨fun s hs _ => hs, fun t b hb hid => ?_⟩
  rcases Table.getElem?_concat_eq_some.1 hb with hb | ⟨-, rfl⟩
  · exact ⟨b, hb, .inl⟩
  · exact absurd (hid ▸ hmem) hp

/-- The claim of a payout whose transfer was executed, with its debit. -/
theorem Stepped.complete {tx : Option ℕ} (h : Inv K x) (htold : Told id r .executed x)
    (hpending : x.1.isPending id) (hworld : y.1 = x.1.complete id tx (r.withdrawal id))
    (hstory : y.2 = x.2) : Stepped i x y := by
  obtain rfl : y = (x.1.complete id tx (r.withdrawal id), x.2) := Prod.ext hworld hstory
  obtain ⟨s, t, a, hs, hw, href, ha, hexecuted⟩ := htold
  rw [World.isPending, hs, Option.any_some, decide_eq_true_eq] at hpending
  have hne : x.1.payouts ≠ [] := fun hnil => by simp [hnil] at hs
  have hwallets := h.sound.wallet hne
  have hledger : (x.1.complete id tx (s.withdrawal id)).ledger = x.1.ledger - s.amount :=
    ledger_complete rfl hwallets
  have htotal := total_write (w := x.1) (v := x.1.complete id tx (s.withdrawal id)) hs
    (f := fun r => { r with status := .completed, gatewayTxId := tx }) rfl
  have hpend : (x.1.complete id tx (s.withdrawal id)).total .pending =
      x.1.total .pending - s.amount := by
    simpa [hpending] using htotal .pending
  have hdone : (x.1.complete id tx (s.withdrawal id)).total .completed =
      x.1.total .completed + s.amount := by
    simpa [hpending] using htotal .completed
  have hcovered := h.covered
  rw [← hw]
  refine ⟨h.sound.complete hs hpending href ha hexecuted,
    kept_write hs rfl rfl (by simp [World.complete]) ⟨rfl, rfl, fun _ h => h⟩, fun p _ _ =>
      spared_write_of_ref (v := x.1.complete id tx (s.withdrawal id)) hs
        (by rw [href]; rfl) rfl rfl p, ?_, ?_,
    .inl ⟨rfl, Table.length_update _ _ _⟩⟩
  · dsimp only
    rw [hledger, hpend]
    omega
  · dsimp only
    rw [hledger, hdone]
    omega

/-- **Step lemma.** What a call does that is issued under its precondition. -/
theorem step_spec {c : Cmd} {a : Resp c} (h : Inv K x) (hpre : Pre i c x)
    (hguard : coversPending x.1 (.step i c ε))
    (hexec : (service.withHistory record).exec x i c ε = some (y, a)) : Stepped i x y := by
  obtain ⟨hexec, hstory⟩ := Service.withHistory_exec.1 hexec
  have hexec : exec x.1 ε c = some (y.1, a) := hexec
  cases c with
  | findByClientRequestId _ | findById _ | findByGatewayRef _ | findStale | findPage _ _ _
  | activePayoutGateway | activeOperators | getBalances _ | findMobileMoneyWallet
  | findOperator _ _ =>
    exact .of_eq h (pair_inj hexec).1.symm hstory
  | getPayout ref =>
    simp only [exec, Option.bind_eq_bind, Option.bind_eq_some_iff] at hexec
    obtain ⟨res, -, t, -, hif⟩ := hexec
    split at hif
    · exact .of_eq h (pair_inj hif).1.symm hstory
    · cases hif
  | createMobileMoneyWallet =>
    obtain ⟨hworld, -⟩ := pair_inj hexec
    obtain rfl : y = ({ x.1 with wallets := x.1.wallets ++ [⟨0⟩] }, x.2) :=
      Prod.ext hworld.symm hstory
    refine ⟨h.sound.addWallet _, ⟨.refl RowLe.refl _, .refl TransferLe.refl _, ?_⟩,
      fun _ _ _ => ⟨fun _ hr _ => hr, fun _ b hb _ => ⟨b, hb, .inl⟩⟩, ?_, ?_, .inl ⟨rfl, rfl⟩⟩
    · simp
    · rw [ledger_addWallet]
      exact h.covered
    · rw [ledger_addWallet]
      rfl
  | createPayout row =>
    obtain ⟨hamount, hwallets⟩ := hpre
    simp only [coversPending, Bool.or_eq_true, decide_eq_true_eq] at hguard
    simp only [exec] at hexec
    split at hexec
    · obtain ⟨hworld, rfl⟩ := pair_inj hexec
      exact .of_eq h hworld.symm hstory
    · rename_i hnew
      obtain ⟨hworld, rfl⟩ := pair_inj hexec
      refine .insert (r := { row with
          createdAt := ε.now, status := .pending, gatewayRef := none, gatewayTxId := none,
          failureReason := none }) h hwallets hamount rfl rfl (fun s hs hsame => hnew ?_)
        (hguard.resolve_left hnew) hworld.symm hstory
      exact List.any_eq_true.2 ⟨s, hs, by simpa using hsame⟩
  | randomUUID id amount =>
    obtain ⟨r, hheld, hamount, hnone⟩ := hpre
    exact .draw h hheld hamount hnone (pair_inj hexec).1.symm hstory
  | postPayout ref =>
    obtain ⟨a, ha, hmem⟩ := hpre
    refine .advance h ⟨rfl, rfl⟩ (fun p hp b hb hid _ => ?_) (pair_inj hexec).1.symm hstory
    obtain rfl := Option.some.inj (ha.symm.trans hb)
    exact absurd (hid ▸ hmem) hp
  | setGatewayRef id ref =>
    obtain ⟨r, ⟨hmem, hr, hpending, hnone⟩, a, ha, hid⟩ := hpre
    have hfits := h.sound.fits id r hr
    refine .write h hr (.inl hmem) hpending (by simp [hpending]) rfl
      ⟨rfl, rfl, fun t ht => by simp [hnone] at ht⟩ ?_
      (pair_inj hexec).1.symm hstory
    refine ⟨hfits.amount, fun t ht => ⟨a, ?_, hid⟩, fun hdone => ?_, hfits.failed, hfits.debits⟩
    · obtain rfl := Option.some.inj ht
      exact ha
    · exact absurd (hpending.symm.trans hdone) (by decide)
  | markFailed id reason =>
    obtain ⟨r, ⟨hmem, hr, hpending, hnone⟩, hvoid⟩ := hpre
    have hfits := h.sound.fits id r hr
    refine .write h hr (.inl hmem) hpending (by simp) rfl ⟨rfl, rfl, fun _ ht => ht⟩ ?_
      (pair_inj hexec).1.symm hstory
    have hdebits := hfits.debits
    rw [hpending] at hdebits
    exact ⟨hfits.amount, hfits.reference, fun hdone => by simp at hdone, fun _ => hvoid, hdebits⟩
  | claimCompleted id tx v =>
    obtain ⟨r, htold, rfl⟩ := hpre
    simp only [exec] at hexec
    split at hexec
    · rename_i hpending
      exact .complete h htold hpending (pair_inj hexec).1.symm hstory
    · exact .of_eq h (pair_inj hexec).1.symm hstory
  | claimFailed id reason =>
    obtain ⟨r, s, t, a, hs, -, href, ha, hfailed⟩ := hpre
    simp only [exec] at hexec
    split at hexec
    · rename_i hpending
      rw [World.isPending, hs, Option.any_some, decide_eq_true_eq] at hpending
      have hfits := h.sound.fits id s hs
      refine .write h hs (.inr (by rw [href]; rfl)) hpending (by simp) rfl
        ⟨rfl, rfl, fun _ ht => ht⟩ ?_ (pair_inj hexec).1.symm hstory
      have hdebits := hfits.debits
      rw [hpending] at hdebits
      refine ⟨hfits.amount, hfits.reference, fun hdone => by simp at hdone, fun _ => ?_, hdebits⟩
      -- the transfer behind the reference is the only one
      intro u b hb hid
      obtain ⟨a', ha', hid'⟩ := hfits.reference t href
      obtain rfl := Option.some.inj (ha.symm.trans ha')
      obtain rfl := h.sound.unique t u a b ha hb (hid'.trans hid.symm)
      obtain rfl := Option.some.inj (ha.symm.trans hb)
      exact hfailed
    · exact .of_eq h (pair_inj hexec).1.symm hstory
  | execute ref =>
    exact .advance h ⟨rfl, rfl⟩ (fun _ _ _ _ _ hb => by cases hb) (pair_inj hexec).1.symm hstory
  | giveUp ref =>
    exact .advance h ⟨rfl, rfl⟩ (fun _ _ _ _ _ _ => rfl) (pair_inj hexec).1.symm hstory

/-! ### The contract -/

theorem Stepped.inv (h : Inv K x) (hstep : Stepped i x y) : Inv K y := by
  refine ⟨hstep.sound, ?_, hstep.covered, hstep.books.trans h.books⟩
  rcases hstep.story with ⟨hstory, hlen⟩ | ⟨hstory, hlen⟩
  · refine ⟨fun j p hp => ?_, fun j k p hj hk => ?_, fun p hp hnone => ?_⟩
    · rw [hlen]
      exact h.owned.bound j p (hstory ▸ hp)
    · exact h.owned.unique j k p (hstory ▸ hj) (hstory ▸ hk)
    · rw [hlen] at hp
      rw [hstory] at hnone
      exact (hstep.spared p hp (hnone i)).handed hstep.kept (h.owned.handed p hp hnone)
  · refine ⟨fun j p hp => ?_, fun j k p hj hk => ?_, fun p hp hnone => ?_⟩
    · rw [hstory, List.mem_cons, Prod.mk.injEq] at hp
      rcases hp with ⟨-, rfl⟩ | hp
      · omega
      · have hlt := h.owned.bound j p hp
        omega
    · rw [hstory, List.mem_cons, Prod.mk.injEq] at hj hk
      -- the new payout was nobody's before
      rcases hj with ⟨rfl, rfl⟩ | hj <;> rcases hk with ⟨rfl, hk⟩ | hk
      · rfl
      · exact absurd (h.owned.bound k _ hk) (lt_irrefl _)
      · exact absurd (hk ▸ h.owned.bound j p hj) (lt_irrefl _)
      · exact h.owned.unique j k p hj hk
    · simp only [hstory, List.mem_cons, Prod.mk.injEq, not_or] at hnone
      have hne : p ≠ x.1.payouts.length := fun hp => (hnone i).1 ⟨rfl, hp⟩
      have hlt : p < x.1.payouts.length := by omega
      exact (hstep.spared p hlt (hnone i).2).handed hstep.kept
        (h.owned.handed p hlt fun j => (hnone j).2)

theorem Stepped.rely {j : ℕ} (h : Inv K x) (hstep : Stepped i x y) (hj : j ≠ i) : Rely j x y := by
  refine ⟨hstep.kept, ?_, fun p hp => ?_⟩
  · rcases hstep.story with ⟨hstory, -⟩ | ⟨hstory, -⟩
    · rw [hstory]
    · rw [hstory, Tagged.of_cons_of_ne hj]
  · exact hstep.spared p (h.owned.bound j p hp) fun hi => hj (h.owned.unique j i p hp hi)

/-- What an operation owes to the others: its payouts are handed over. -/
def Idle (i : ℕ) (x : State) : Prop :=
  ∀ id, (i, id) ∈ x.2 → x.1.Handed id

theorem Idle.rely (h : Rely i x y) (hidle : Idle i x) : Idle i y := by
  intro id hid
  have hmem := h.mem.1 hid
  exact (h.spared id hmem).handed h.kept (hidle id hmem)

/-- The contract of the service. -/
def discipline (K : ℤ) : Discipline (service.withHistory record) where
  guard := Service.liftGuard coversPending
  inv := Inv K
  pre := Pre
  rely := Rely
  idle := Idle
  rely_refl := Rely.refl
  rely_trans h h' := h.trans h'
  idle_rely h := Idle.rely h
  sound h hpre hguard hexec :=
    have hstep := step_spec h hpre hguard hexec
    ⟨hstep.inv h, fun _ hj => hstep.rely h hj⟩

end Rabotka.Payouts
