import Rabotka.Payouts.Discipline

/-!
# The operations keep the discipline

Each operation of the service is followed call by call. `settle` needs to know how the transfer
ended, which `checkPayoutStatus` has from the honest gateway. `send` creates a payout and keeps
it in its hands until the reference is written, or until it is certain that the gateway refused
the transfer or never heard of it; only then does it mark the payout FAILED.
-/

namespace Rabotka.Payouts

open Async

variable {i id ref : ℕ} {r : MobileMoneyPayout} {x y : State} {K : ℤ} {α : Type}

/-- The triples of this service. -/
abbrev Spec (K : ℤ) (i : ℕ) (P : State → Prop) (op : Prog α) (Q : α → State → Prop)
    (X : Exn → State → Prop) : Prop :=
  (discipline K).Triple i P op Q X

/-! ### Assertions that last -/

/-- An assertion that is kept wherever the payouts in the operation's hands are spared: by the
other operations, and by all calls of its own that anyone may issue. -/
def Lasting (i : ℕ) (P : State → Prop) : Prop :=
  ∀ x y : State, Rely i x y → P x → P y

variable {P R : State → Prop}

theorem Lasting.stable (h : Lasting i P) : (discipline K).Stable i P :=
  fun x y _ hrely hx => h x y hrely hx

theorem Lasting.and (h : Lasting i P) (h' : Lasting i R) : Lasting i fun x => P x ∧ R x :=
  fun x y hrely hx => ⟨h x y hrely hx.1, h' x y hrely hx.2⟩

theorem lasting_idle : Lasting i (Idle i) :=
  fun _ _ hrely hx => hx.rely hrely

/-- There is a mobile-money wallet. -/
def HasWallet (x : State) : Prop :=
  0 < x.1.wallets.length

theorem lasting_hasWallet : Lasting i HasWallet :=
  fun _ _ hrely hx => hx.trans_le hrely.kept.wallets

/-- The payout `r` has the reference `ref`. -/
def HasRef (ref : ℕ) (z : ℕ × MobileMoneyPayout) (x : State) : Prop :=
  ∃ s : MobileMoneyPayout, x.1.payouts[z.1]? = some s ∧
    s.withdrawal z.1 = z.2.withdrawal z.1 ∧ s.gatewayRef = some ref

theorem lasting_hasRef (z : ℕ × MobileMoneyPayout) : Lasting i (HasRef ref z) := by
  rintro x y hrely ⟨s, hs, hw, href⟩
  obtain ⟨s', hs', hle⟩ := hrely.kept.payouts z.1 s hs
  refine ⟨s', hs', ?_, hle.2.2 ref href⟩
  rw [← hw, MobileMoneyPayout.withdrawal, hle.1, hle.2.1, MobileMoneyPayout.withdrawal]

/-- The transfer of the payout ended as the gateway said. -/
def Ended (z : ℕ × MobileMoneyPayout) : PayoutStatus → State → Prop
  | .completed, x => Told z.1 z.2 .executed x
  | .failed, x => Told z.1 z.2 .failed x
  | .pending, _ => True

theorem lasting_ended (z : ℕ × MobileMoneyPayout) (s : PayoutStatus) : Lasting i (Ended z s) := by
  intro x y hrely hx
  cases s with
  | pending => trivial
  | completed => exact Told.kept (.inl rfl) hrely.kept hx
  | failed => exact Told.kept (.inr rfl) hrely.kept hx

/-! ### Single calls -/

/-- A call that anyone may issue spares all payouts in anybody's hands. -/
theorem rely_of_anyone {c : Cmd} {ε : Env} {a : Resp c} (hc : ∀ h i a, record h i c a = h)
    (hx : Inv K x) (hpre : ∀ j, Pre j c x) (hguard : coversPending x.1 (.step i c ε))
    (hexec : (service.withHistory record).exec x i c ε = some (y, a)) : Rely i x y := by
  obtain ⟨hexec, hstory⟩ := Service.withHistory_exec.1 hexec
  have hother : (service.withHistory record).exec x (i + 1) c ε = some (y, a) :=
    Service.withHistory_exec.2 ⟨hexec, by rw [hstory, hc, hc]⟩
  have hguard' : coversPending x.1 (.step (i + 1) c ε) := by cases c <;> exact hguard
  exact (step_spec hx (hpre (i + 1)) hguard' hother).rely hx (by omega)

/-- A call that anyone may issue keeps what lasts. -/
theorem call_spec {c : Cmd} (hP : Lasting i P) (hc : ∀ h i a, record h i c a = h)
    (hpre : ∀ x, Inv K x → P x → ∀ j, Pre j c x) :
    Spec K i P (issue c) (fun _ => P) (fun _ => P) :=
  .cmd hP.stable (fun x hx hPx => hpre x hx hPx i) (fun x _ y _ hx hPx hguard hexec _ =>
      hP x y (rely_of_anyone hc hx (hpre x hx hPx) hguard hexec) hPx)
    fun _ _ _ _ hPx => hPx

/-- The call changes nothing. -/
def Reads (c : Cmd) : Prop :=
  ∀ w ε v a, exec w ε c = some (v, a) → v = w

/-- A call that only reads answers from the state it finds. -/
theorem read_spec {c : Cmd} (hP : (discipline K).Stable i P) (hreads : Reads c)
    (hc : ∀ h i a, record h i c a = h) (hpre : ∀ x j, Pre j c x) :
    Spec K i P (issue c) (fun a x => P x ∧ ∃ ε, exec x.1 ε c = some (x.1, a)) (fun _ => P) := by
  refine .cmd hP (fun x _ _ => hpre x i) (fun x ε y a _ hPx _ hexec _ => ?_) fun _ _ _ _ hPx => hPx
  obtain ⟨hexec, hstory⟩ := Service.withHistory_exec.1 hexec
  have hexec : exec x.1 ε c = some (y.1, a) := hexec
  have hworld := hreads _ _ _ _ hexec
  obtain rfl : y = x := Prod.ext hworld (hstory.trans (hc _ _ _))
  exact ⟨hPx, ε, hexec⟩

/-- The answer of a reading call says nothing that is needed. -/
theorem skip_spec {c : Cmd} (hP : Lasting i P) (hc : ∀ h i a, record h i c a = h)
    (hpre : ∀ x j, Pre j c x) : Spec K i P (issue c) (fun _ => P) (fun _ => P) :=
  call_spec hP hc fun x _ _ => hpre x

/-! ### Settling -/

theorem findMobileMoneyWallet_spec (hP : Lasting i P) : Spec K i P (issue .findMobileMoneyWallet)
      (fun a x => P x ∧ (a = none → x.1.wallets = []) ∧ ∀ z, a = some z → z.1 = 0 ∧ HasWallet x)
      (fun _ => P) := by
  refine (read_spec (c := .findMobileMoneyWallet) hP.stable
    (fun _ _ _ _ h => (pair_inj h).1.symm) (fun _ _ _ => rfl)
    fun _ _ => trivial).post_mono (fun a x _ hx => ⟨hx.1, ?_⟩) fun _ _ _ hx => hx
  obtain ⟨ε, hexec⟩ := hx.2
  obtain rfl := (pair_inj hexec).2
  constructor
  · intro hnone
    simpa using hnone
  · intro z hz
    obtain ⟨b, hb, rfl⟩ := Option.map_eq_some_iff.1 hz
    exact ⟨rfl, (List.getElem?_eq_some_iff.1 hb).1⟩

theorem getOrCreateMobileMoneyWallet_spec (hP : Lasting i P) :
    Spec K i P getOrCreateMobileMoneyWallet (fun _ x => P x ∧ HasWallet x) (fun _ => P) := by
  refine .bind (R := fun a x => P x ∧ (a.isSome → HasWallet x)) ?_ fun a => ?_
  · refine (findMobileMoneyWallet_spec hP).post_mono (fun a x _ hx => ⟨hx.1, fun ha => ?_⟩)
      fun _ _ _ hx => hx
    obtain ⟨z, hz⟩ := Option.isSome_iff_exists.1 ha
    exact (hx.2.2 z hz).2
  · cases a with
    | some wallet => exact .ret fun x _ hx => ⟨hx.1, hx.2 rfl⟩
    | none =>
      refine .pre_mono (R := P) ?_ fun _ _ hx => hx.1
      have hpre : ∀ (x : State) j, Pre j .createMobileMoneyWallet x := fun _ _ => trivial
      refine .cmd (D := discipline K) (c := .createMobileMoneyWallet) hP.stable
        (fun x _ _ => hpre x i) (fun x ε y a hx hPx hguard hexec _ => ?_) fun _ _ _ _ hPx => hPx
      have hrely : Rely i x y := rely_of_anyone (c := .createMobileMoneyWallet)
        (fun _ _ _ => rfl) hx (hpre x) hguard hexec
      have hworld := (Prod.mk.inj (Option.some.inj (Service.withHistory_exec.1 hexec).1)).1
      refine ⟨hP x y hrely hPx, ?_⟩
      unfold HasWallet
      rw [← hworld]
      simp

/-- Where there is a wallet, the oldest one is returned. -/
theorem ledgerWallet_spec (hP : Lasting i P) (hwallet : ∀ x, Inv K x → P x → HasWallet x) :
    Spec K i P getOrCreateMobileMoneyWallet (fun a x => P x ∧ a.1 = 0) (fun _ => P) := by
  refine .bind (findMobileMoneyWallet_spec hP) fun a => ?_
  cases a with
  | some wallet => exact .ret fun x _ hx => ⟨hx.1, (hx.2.2 wallet rfl).1⟩
  | none =>
    intro x hx hPx
    have hpos : 0 < x.1.wallets.length := hwallet x hx hPx.1
    simp [hPx.2.1 rfl] at hpos

theorem Told.hasWallet {progress : Progress} (hx : Inv K x) (h : Told id r progress x) :
    HasWallet x := by
  obtain ⟨s, t, a, hs, -⟩ := h
  refine List.length_pos_iff.2 (hx.sound.wallet fun hnil => ?_)
  simp [hnil] at hs

/-- Settling keeps what lasts. -/
theorem settle_spec {result : PayoutStatusResult} (hP : Lasting i P) :
    Spec K i (fun x => P x ∧ Ended (id, r) result.status x) (settle id r result)
      (fun _ => P) (fun _ => P) := by
  unfold settle
  cases hstatus : result.status with
  | pending => exact .ret fun _ _ hx => hx.1
  | failed =>
    have hlast : Lasting i fun x => P x ∧ Ended (id, r) .failed x :=
      hP.and (lasting_ended (id, r) .failed)
    refine .bind (R := fun _ x => P x ∧ Ended (id, r) .failed x) ?_ fun _ => .ret fun _ _ hx => hx.1
    exact (call_spec (c := .claimFailed id _) hlast (fun _ _ _ => rfl)
      fun x _ hx _ => ⟨r, hx.2⟩).post_mono (fun _ _ _ hx => hx) fun _ _ _ hx => hx.1
  | completed =>
    have hlast : Lasting i fun x => P x ∧ Ended (id, r) .completed x :=
      hP.and (lasting_ended (id, r) .completed)
    refine .bind ((ledgerWallet_spec hlast fun x hx hPx => Told.hasWallet hx hPx.2).post_mono
      (fun _ _ _ hx => hx) fun _ _ _ hx => hx.1) fun wallet => ?_
    have hlast' : Lasting i fun x => (P x ∧ Ended (id, r) .completed x) ∧ wallet.1 = 0 :=
      hlast.and fun _ _ _ h => h
    refine .bind (R := fun _ x => (P x ∧ Ended (id, r) .completed x) ∧ wallet.1 = 0) ?_
      fun _ => .ret fun _ _ hx => hx.1.1
    refine (call_spec (c := .claimCompleted id _ _) hlast' (fun _ _ _ => rfl)
      fun x _ hx _ => ⟨r, hx.1.2, ?_⟩).post_mono (fun _ _ _ hx => hx) fun _ _ _ hx => hx.1.1
    rw [MobileMoneyPayout.withdrawal, hx.2]

/-- The gateway is honest about the transfer behind the reference. -/
theorem checkPayoutStatus_spec (hP : Lasting i P)
    (href : ∀ x, Inv K x → P x → HasRef ref (id, r) x) {X : Exn → State → Prop} :
    Spec K i P (checkPayoutStatus ref) (fun result x => P x ∧ Ended (id, r) result.status x) X := by
  refine .orElseCatch (Y := fun _ => P) ?_ fun _ => .ret fun _ _ hx => ⟨hx, trivial⟩
  refine .bind (R := fun res x => P x ∧ Ended (id, r) res.payoutStatus.status x) ?_
    fun res => .ret fun _ _ hx => hx
  refine (read_spec (c := .getPayout ref) hP.stable (fun w ε v a h => ?_) (fun _ _ _ => rfl)
    fun _ _ => trivial).post_mono (fun res x hx hPx => ⟨hPx.1, ?_⟩) fun _ _ _ hx => hx
  · simp only [exec, Option.bind_eq_bind, Option.bind_eq_some_iff] at h
    obtain ⟨res, -, t, -, hif⟩ := h
    split at hif
    · exact (pair_inj hif).1.symm
    · cases hif
  · obtain ⟨hPx, ε, hexec⟩ := hPx
    obtain ⟨s, hs, hw, hsref⟩ := href x hx hPx
    simp only [exec, Option.bind_eq_bind, Option.bind_eq_some_iff] at hexec
    obtain ⟨res', -, a, ha, hif⟩ := hexec
    split at hif
    · rename_i hhonest
      obtain rfl := (pair_inj hif).2
      unfold PawapayResponse.isHonest at hhonest
      cases hstatus : res'.payoutStatus.status with
      | pending => trivial
      | completed | failed =>
        rw [hstatus] at hhonest
        exact ⟨s, ref, a, hs, hw, hsref, ha, by simpa using hhonest⟩
    · cases hif

/-- A payout whose reference is known is checked and settled. -/
theorem checkAndSettle_spec (hP : Lasting i P) : Spec K i (fun x => P x ∧ HasRef ref (id, r) x)
      (do let result ← checkPayoutStatus ref
          settle id r result) (fun _ => P) (fun _ => P) :=
  .bind (checkPayoutStatus_spec (hP.and (lasting_hasRef (id, r))) fun _ _ hx => hx.2)
    fun _ => (settle_spec hP).pre_mono fun _ _ hx => ⟨hx.1.1, hx.2⟩

theorem load_spec (hP : (discipline K).Stable i P) :
    Spec K i P (load id) (fun a x => P x ∧ ∀ ref, a.gatewayRef = some ref →
      HasRef ref (id, a) x) (fun _ => P) := by
  refine .bind (R := fun a x => P x ∧ a = x.1.payouts[id]?) ?_ fun a => ?_
  · refine (read_spec (c := .findById id) hP
      (fun _ _ _ _ h => (pair_inj h).1.symm) (fun _ _ _ => rfl)
      fun _ _ => trivial).post_mono (fun a x _ hx => ⟨hx.1, ?_⟩) fun _ _ _ hx => hx
    obtain ⟨ε, hexec⟩ := hx.2
    exact (pair_inj hexec).2.symm
  · cases a with
    | none => exact .fail fun _ _ hx => hx.1
    | some payout =>
      exact .ret fun _ _ hx => ⟨hx.1, fun ref href => ⟨payout, hx.2.symm, rfl, href⟩⟩

theorem refresh_spec (hP : Lasting i P) : Spec K i P (refresh id) (fun _ => P) (fun _ => P) := by
  have hload : Spec K i P (load id) (fun _ => P) (fun _ => P) :=
    (load_spec hP.stable).post_mono (fun _ _ _ hx => hx.1) fun _ _ _ hx => hx
  refine .bind (load_spec hP.stable) fun payout => ?_
  split
  · rename_i ref hstatus href
    refine .pre_mono (R := fun x => P x ∧ HasRef ref (id, payout) x) ?_
      fun _ _ hx => ⟨hx.1, hx.2 ref href⟩
    have hlast : Lasting i fun x => P x ∧ HasRef ref (id, payout) x :=
      hP.and (lasting_hasRef (id, payout))
    refine .bind (checkPayoutStatus_spec hlast fun _ _ hx => hx.2) fun result => ?_
    refine .bind (R := fun _ => P) ?_ fun _ => hload
    exact (settle_spec hP).pre_mono fun _ _ hx => ⟨hx.1.1, hx.2⟩
  · exact hload.pre_mono fun _ _ hx => hx.1

theorem handleCallback_spec (hP : Lasting i P) (o : Option ℕ) :
    Spec K i P (handleCallback o) (fun _ => P) (fun _ => P) := by
  cases o with
  | none => exact .ret fun _ _ hx => hx
  | some ref =>
    refine .bind (R := fun a x => P x ∧ ∀ z, a = some z → HasRef ref z x) ?_ fun a => ?_
    · refine (read_spec (c := .findByGatewayRef ref) hP.stable
        (fun _ _ _ _ h => (pair_inj h).1.symm) (fun _ _ _ => rfl)
        fun _ _ => trivial).post_mono (fun a x _ hx => ⟨hx.1, fun z hz => ?_⟩) fun _ _ _ hx => hx
      obtain ⟨ε, hexec⟩ := hx.2
      obtain rfl := (pair_inj hexec).2
      obtain ⟨hrow, href⟩ := Table.findFirst_eq_some hz
      exact ⟨z.2, hrow, rfl, by simpa using href⟩
    · cases a with
      | none => exact .ret fun _ _ hx => hx.1
      | some z =>
        obtain ⟨id, payout⟩ := z
        by_cases hstatus : payout.status = .pending
        · simp only [hstatus, ne_eq, not_true_eq_false, if_false]
          exact (checkAndSettle_spec hP).pre_mono fun _ _ hx => ⟨hx.1, hx.2 _ rfl⟩
        · simp only [hstatus, ne_eq, not_false_eq_true, if_true]
          exact .ret fun _ _ hx => hx.1

/-- A round of the reconciliation, whatever it throws. -/
theorem reconcile_spec (hP : Lasting i P) (z : ℕ × MobileMoneyPayout)
    (href : ∀ x, P x → ∀ ref, z.2.gatewayRef = some ref → HasRef ref z x) :
    Spec K i P (reconcile z) (fun _ => P) (fun _ => P) := by
  refine .orElseCatch (Y := fun _ => P) ?_ fun _ => .ret fun _ _ hx => hx
  cases hz : z.2.gatewayRef with
  | none => exact .ret fun _ _ hx => hx
  | some ref => exact (checkAndSettle_spec hP).pre_mono fun x _ hx => ⟨hx, href x hx ref hz⟩

theorem reconcileStale_spec (hP : Lasting i P) :
    Spec K i P reconcileStale (fun _ => P) (fun _ => P) := by
  refine .bind (R := fun l x => P x ∧ ∀ z ∈ l, ∀ ref, z.2.gatewayRef = some ref →
    HasRef ref z x) ?_ fun l => ?_
  · refine (read_spec (c := .findStale) hP.stable
      (fun _ _ _ _ h => (pair_inj h).1.symm) (fun _ _ _ => rfl)
      fun _ _ => trivial).post_mono (fun l x _ hx => ⟨hx.1, fun z hz ref href => ?_⟩)
      fun _ _ _ hx => hx
    obtain ⟨ε, hexec⟩ := hx.2
    obtain rfl := (pair_inj hexec).2
    have hmem := (List.mergeSort_perm _ _).mem_iff.1 (List.mem_of_mem_take hz)
    exact ⟨z.2, (Table.mem_findMany.1 hmem).1, rfl, href⟩
  · have hlast : Lasting i fun x => P x ∧ ∀ z ∈ l, ∀ ref, z.2.gatewayRef = some ref →
        HasRef ref z x := by
      refine hP.and fun x y hrely hx z hz ref href => ?_
      exact lasting_hasRef z x y hrely (hx z hz ref href)
    refine (Discipline.Triple.forM fun z hz => ?_).post_mono (fun _ _ _ hx => hx.1)
      fun _ _ _ hx => hx
    exact (reconcile_spec hlast z fun x hx => hx.2 z hz).post_mono (fun _ _ _ hx => hx)
      fun _ _ _ hx => hx.1

theorem list_spec {status : Option PayoutStatus} {skip take : ℕ} (hP : Lasting i P) :
    Spec K i P (list status skip take) (fun _ => P) (fun _ => P) :=
  .bind (reconcileStale_spec hP) fun _ => skip_spec hP (fun _ _ _ => rfl) fun _ _ => trivial

end Rabotka.Payouts
