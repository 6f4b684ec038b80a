import Rabotka.Payouts.Operations

/-!
# What one call does

`step_spec`: a call that is issued under its precondition keeps the world sound, leaves the
payouts in the hands of other operations alone, and moves the ledger by exactly what it makes
COMPLETED. Behind it stand one lemma for each kind of change: a transfer that moves on, a
payout whose row is written, a payout that is settled, and the two insertions.
-/

namespace Rabotka.Payouts

open List

variable {i id ref : ℕ} {r : MobileMoneyPayout} {x y : State} {w v : World}
variable {q : Progress → Bool} {after : Progress} {f : MobileMoneyPayout → MobileMoneyPayout}

/-! ### Facts about one payout -/

/-- Only the transfers and the debits of the payout matter. -/
theorem Fits.congr (h : Fits w id r) (htransfers : v.transfers = w.transfers)
    (hdebits : v.withdrawalsOf id = w.withdrawalsOf id) : Fits v id r where
  amount := h.amount
  reference := by rw [htransfers]; exact h.reference
  completed := by rw [htransfers]; exact h.completed
  failed hr := by
    have hvoid := h.failed hr
    unfold World.Void at hvoid ⊢
    rwa [htransfers]
  debits := by rw [hdebits]; exact h.debits

/-- A sound world is unchanged as far as the wallets are not concerned. -/
theorem Sound.addWallet (h : Sound w) (a : Wallet) :
    Sound { w with wallets := w.wallets ++ [a] } where
  fits id r hr := (h.fits id r hr).congr rfl rfl
  requests := h.requests
  transfers := h.transfers
  unique := h.unique
  withdrawals := h.withdrawals
  wallet _ := by simp

theorem ledger_addWallet (w : World) :
    ({ w with wallets := w.wallets ++ [⟨0⟩] } : World).ledger = w.ledger := by
  unfold World.ledger
  cases h : w.wallets with
  | nil | cons => rfl

/-! ### A transfer moves on -/

/-- The rows after a transfer has moved on. -/
theorem advance_cases {t : ℕ} {b : Transfer} (h : (w.advance ref q after).transfers[t]? = some b) :
    ∃ a, w.transfers[t]? = some a ∧ b.externalId = a.externalId ∧ b.amount = a.amount ∧
      (b = a ∨ t = ref ∧ q a.progress ∧ b.progress = after) := by
  simp only [World.advance, Table.getElem?_update, Option.map_eq_some_iff] at h
  obtain ⟨a, ha, rfl⟩ := h
  refine ⟨a, ha, ?_⟩
  by_cases ht : ref = t
  · by_cases hbefore : q a.progress
    · simp [ht, hbefore]
    · simp [ht, hbefore]
  · simp [ht]

/-- A transfer that has not ended may move on. -/
theorem kept_advance (hq : q .executed = false ∧ q .failed = false) :
    Kept w (w.advance ref q after) := by
  refine ⟨.refl RowLe.refl _, .update TransferLe.refl fun a => ?_, le_rfl⟩
  split
  · rename_i hbefore
    refine ⟨rfl, fun ha => ?_, fun ha => ?_⟩
    · simp [ha, hq.1] at hbefore
    · simp [ha, hq.2] at hbefore
  · exact .refl a

theorem Sound.advance (hq : q .executed = false ∧ q .failed = false) (h : Sound w) :
    Sound (w.advance ref q after) where
  fits id r hr := by
    have hr : w.payouts[id]? = some r := hr
    have hfits := h.fits id r hr
    have hkept : Kept w (w.advance ref q after) := kept_advance hq
    refine ⟨hfits.amount, fun t ht => ?_, fun hdone => ?_, fun hfailed => ?_, hfits.debits⟩
    · obtain ⟨a, ha, hid⟩ := hfits.reference t ht
      obtain ⟨b, hb, hle⟩ := hkept.transfers t a ha
      exact ⟨b, hb, hle.1.trans hid⟩
    · obtain ⟨t, a, ht, ha, hexecuted⟩ := hfits.completed hdone
      obtain ⟨b, hb, hle⟩ := hkept.transfers t a ha
      exact ⟨t, b, ht, hb, hle.2.1 hexecuted⟩
    · intro t b hbt hid
      obtain ⟨a, ha, hext, -, rfl | ⟨-, hbefore, -⟩⟩ := advance_cases hbt
      · exact hfits.failed hfailed t b ha hid
      · -- what has not ended cannot belong to a payout that FAILED
        have hvoid := hfits.failed hfailed t a ha (hext.symm.trans hid)
        simp [hvoid, hq.2] at hbefore
  requests := h.requests
  transfers t b hbt := by
    obtain ⟨a, ha, hext, hamount, -⟩ := advance_cases hbt
    rw [hext, hamount]
    exact h.transfers t a ha
  unique t u b c hbt hcu hid := by
    obtain ⟨a, ha, hext, -⟩ := advance_cases hbt
    obtain ⟨a', ha', hext', -⟩ := advance_cases hcu
    exact h.unique t u a a' ha ha' (by rw [← hext, ← hext', hid])
  withdrawals := h.withdrawals
  wallet := h.wallet

/-- Only a request for the transfer takes it from `unsent` to anything but `failed`. -/
theorem spared_advance
    (h : ∀ a, w.transfers[ref]? = some a → a.externalId = id → q .unsent → after = .failed) :
    Spared w (w.advance ref q after) id := by
  refine ⟨fun _ hr _ => hr, fun t b hb hid => ?_⟩
  obtain ⟨a, ha, hext, -, rfl | ⟨rfl, hbefore, hafter⟩⟩ := advance_cases hb
  · exact ⟨b, ha, .inl⟩
  · refine ⟨a, ha, fun hunsent => .inr ?_⟩
    rw [hafter]
    exact h a ha (hext.symm.trans hid) (hunsent ▸ hbefore)

/-! ### A row is written -/

/-- The rows after one of them is written. -/
theorem update_cases {p : ℕ} {s : MobileMoneyPayout} (hr : w.payouts[id]? = some r)
    (h : (Table.update w.payouts id f)[p]? = some s) :
    p = id ∧ s = f r ∨ p ≠ id ∧ w.payouts[p]? = some s := by
  rw [Table.getElem?_update] at h
  rcases eq_or_ne p id with rfl | hne
  · rw [hr, Option.map_some, if_pos rfl, Option.some.injEq] at h
    exact .inl ⟨rfl, h.symm⟩
  · have hid : ¬ id = p := fun hid => hne hid.symm
    simp only [if_neg hid, Option.map_id'] at h
    exact .inr ⟨hne, h⟩

/-- Writing a row that keeps its request id and amount. The debits of the other payouts must not
change. -/
theorem Sound.write (h : Sound w) (hr : w.payouts[id]? = some r)
    (hv : v.payouts = Table.update w.payouts id f) (htransfers : v.transfers = w.transfers)
    (hwallets : w.wallets.length ≤ v.wallets.length)
    (hdebits : ∀ p ≠ id, v.withdrawalsOf p = w.withdrawalsOf p)
    (hbound : ∀ x ∈ v.withdrawals, x.referenceId < w.payouts.length)
    (hrequest : (f r).clientRequestId = r.clientRequestId) (hamount : (f r).amount = r.amount)
    (hfits : Fits v id (f r)) : Sound v where
  fits p s hs := by
    rw [hv] at hs
    rcases update_cases hr hs with ⟨rfl, rfl⟩ | ⟨hne, hs⟩
    · exact hfits
    · exact (h.fits p s hs).congr htransfers (hdebits p hne)
  requests p q s u hs hu hsame := by
    rw [hv] at hs hu
    rcases update_cases hr hs with ⟨rfl, rfl⟩ | ⟨-, hs'⟩ <;>
      rcases update_cases hr hu with ⟨rfl, rfl⟩ | ⟨-, hu'⟩
    · rfl
    · exact h.requests p q r u hr hu' (hrequest.symm.trans hsame)
    · exact h.requests p q s r hs' hr (hsame.trans hrequest)
    · exact h.requests p q s u hs' hu' hsame
  transfers t a ha := by
    rw [htransfers] at ha
    obtain ⟨s, hs, hsame⟩ := h.transfers t a ha
    rw [hv, Table.getElem?_update, hs]
    refine ⟨_, rfl, ?_⟩
    split
    · rename_i hid
      subst hid
      obtain rfl := Option.some.inj (hr.symm.trans hs)
      exact hamount.trans hsame
    · exact hsame
  unique := by rw [htransfers]; exact h.unique
  withdrawals x hx := by
    rw [hv, Table.length_update]
    exact hbound x hx
  wallet _ := by
    have hne : w.payouts ≠ [] := fun hnil => by simp [hnil] at hr
    have hpos := length_pos_iff.2 (h.wallet hne)
    exact length_pos_iff.1 (hpos.trans_le hwallets)

/-- What writing one row does to the totals. -/
theorem total_write (hr : w.payouts[id]? = some r)
    (hv : v.payouts = Table.update w.payouts id f) (s : PayoutStatus) :
    v.total s = w.total s - (if r.status = s then r.amount else 0) +
      if (f r).status = s then (f r).amount else 0 := by
  unfold World.total
  rw [hv, Table.update_of_some hr, Table.sumBy_set hr]

/-- The other rows stay, and so do all transfers. -/
theorem spared_write {p : ℕ} (hp : p ≠ id)
    (hv : v.payouts = Table.update w.payouts id f) (htransfers : v.transfers = w.transfers) :
    Spared w v p := by
  refine ⟨fun s hs _ => ?_, fun t b hb _ => ⟨b, htransfers ▸ hb, .inl⟩⟩
  rw [hv, Table.getElem?_update, hs, Option.map_some, if_neg hp.symm]

/-- A row with its reference is nobody's. -/
theorem spared_write_of_ref (hr : w.payouts[id]? = some r) (href : r.gatewayRef.isSome)
    (hv : v.payouts = Table.update w.payouts id f) (htransfers : v.transfers = w.transfers)
    (p : ℕ) : Spared w v p := by
  rcases eq_or_ne p id with rfl | hp
  · refine ⟨fun s hs hnone => ?_, fun t b hb _ => ⟨b, htransfers ▸ hb, .inl⟩⟩
    obtain rfl := Option.some.inj (hr.symm.trans hs)
    simp [hnone] at href
  · exact spared_write hp hv htransfers

theorem kept_write (hr : w.payouts[id]? = some r)
    (hv : v.payouts = Table.update w.payouts id f) (htransfers : v.transfers = w.transfers)
    (hwallets : w.wallets.length ≤ v.wallets.length) (hle : RowLe r (f r)) : Kept w v := by
  refine ⟨fun p s hs => ?_, by rw [htransfers]; exact .refl TransferLe.refl _, hwallets⟩
  rw [hv, Table.getElem?_update, hs]
  refine ⟨_, rfl, ?_⟩
  split
  · rename_i hid
    subst hid
    obtain rfl := Option.some.inj (hr.symm.trans hs)
    exact hle
  · exact .refl s

/-! ### The insertions -/

/-- Inserting a payout whose request id is new. -/
theorem Sound.insert (h : Sound w) (hwallets : w.wallets ≠ []) (hamount : 0 < r.amount)
    (hpending : r.status = .pending) (hnone : r.gatewayRef = none)
    (hnew : ∀ s ∈ w.payouts, s.clientRequestId ≠ r.clientRequestId) :
    Sound { w with payouts := w.payouts ++ [r] } where
  fits p s hs := by
    rcases Table.getElem?_concat_eq_some.1 hs with hs | ⟨rfl, rfl⟩
    · exact (h.fits p s hs).congr rfl rfl
    · have hempty : w.withdrawalsOf w.payouts.length = [] := by
        refine filter_eq_nil_iff.2 fun x hx => ?_
        have hlt := h.withdrawals x hx
        simp only [decide_eq_true_eq]
        omega
      exact ⟨hamount, by simp [hnone], by simp [hpending], by simp [hpending],
        by simpa [hpending, World.withdrawalsOf] using hempty⟩
  requests p q s u hs hu hsame := by
    rcases Table.getElem?_concat_eq_some.1 hs with hs' | ⟨hp, rfl⟩ <;>
      rcases Table.getElem?_concat_eq_some.1 hu with hu' | ⟨hq, rfl⟩
    · exact h.requests p q s u hs' hu' hsame
    · exact absurd hsame (hnew s (mem_of_getElem? hs'))
    · exact absurd hsame.symm (hnew u (mem_of_getElem? hu'))
    · exact hp.trans hq.symm
  transfers t a ha := by
    obtain ⟨s, hs, hsame⟩ := h.transfers t a ha
    exact ⟨s, by rwa [getElem?_append_left (List.getElem?_eq_some_iff.1 hs).1], hsame⟩
  unique := h.unique
  withdrawals x hx := by
    have hlt := h.withdrawals x hx
    rw [length_append]
    omega
  wallet _ := hwallets

/-- A new transfer for a payout that is still PENDING and has none. -/
theorem Sound.draw {amount : ℤ} (h : Sound w) (hr : w.payouts[id]? = some r)
    (hpending : r.status = .pending) (hamount : r.amount = amount)
    (hnone : ∀ (t : ℕ) (a : Transfer), w.transfers[t]? = some a → a.externalId ≠ id) :
    Sound { w with transfers := w.transfers ++ [⟨id, amount, .unsent⟩] } where
  fits p s hs := by
    have hfits := h.fits p s hs
    have hkeep : ∀ (t : ℕ) (a : Transfer), w.transfers[t]? = some a →
        (w.transfers ++ [⟨id, amount, .unsent⟩])[t]? = some a := by
      intro t a ha
      rwa [getElem?_append_left (List.getElem?_eq_some_iff.1 ha).1]
    refine ⟨hfits.amount, fun t ht => ?_, fun hdone => ?_, fun hfailed => ?_, hfits.debits⟩
    · obtain ⟨a, ha, hid⟩ := hfits.reference t ht
      exact ⟨a, hkeep t a ha, hid⟩
    · obtain ⟨t, a, ht, ha, hexecuted⟩ := hfits.completed hdone
      exact ⟨t, a, ht, hkeep t a ha, hexecuted⟩
    · intro t a ha hid
      rcases Table.getElem?_concat_eq_some.1 ha with ha | ⟨-, rfl⟩
      · exact hfits.failed hfailed t a ha hid
      · obtain rfl : p = id := hid.symm
        obtain rfl := Option.some.inj (hr.symm.trans hs)
        exact absurd (hpending.symm.trans hfailed) (by decide)
  requests := h.requests
  transfers t a ha := by
    rcases Table.getElem?_concat_eq_some.1 ha with ha | ⟨-, rfl⟩
    · exact h.transfers t a ha
    · exact ⟨r, hr, hamount⟩
  unique t u a b ha hb hid := by
    rcases Table.getElem?_concat_eq_some.1 ha with ha' | ⟨ht, rfl⟩ <;>
      rcases Table.getElem?_concat_eq_some.1 hb with hb' | ⟨hu, rfl⟩
    · exact h.unique t u a b ha' hb' hid
    · exact absurd hid (hnone t a ha')
    · exact absurd hid.symm (hnone u b hb')
    · exact ht.trans hu.symm
  withdrawals := h.withdrawals
  wallet := h.wallet

/-! ### Settling -/

/-- The transaction of `settle` on a PENDING payout whose transfer was executed. -/
theorem Sound.complete {t : ℕ} {a : Transfer} {tx : Option ℕ} (h : Sound w)
    (hr : w.payouts[id]? = some r) (hpending : r.status = .pending)
    (href : r.gatewayRef = some t) (ha : w.transfers[t]? = some a)
    (hexecuted : a.progress = .executed) : Sound (w.complete id tx (r.withdrawal id)) := by
  have hfits := h.fits id r hr
  have hdebits : ∀ p, (w.complete id tx (r.withdrawal id)).withdrawalsOf p =
      w.withdrawalsOf p ++ if p = id then [r.withdrawal id] else [] := by
    intro p
    simp only [World.withdrawalsOf, World.complete, filter_append]
    congr 1
    by_cases hp : p = id
    · subst hp
      simp [MobileMoneyPayout.withdrawal]
    · have hid : ¬ id = p := fun hid => hp hid.symm
      simp [MobileMoneyPayout.withdrawal, hp, hid]
  have hlen : id < w.payouts.length := (List.getElem?_eq_some_iff.1 hr).1
  refine h.write hr (f := fun r => { r with status := .completed, gatewayTxId := tx }) rfl rfl
    (by simp [World.complete]) (fun p hp => ?_) (fun x hx => ?_) rfl rfl ?_
  · rw [hdebits, if_neg hp, append_nil]
  · rcases mem_append.1 hx with hx | hx
    · exact h.withdrawals x hx
    · obtain rfl := mem_singleton.1 hx
      exact hlen
  · refine ⟨hfits.amount, hfits.reference, fun _ => ⟨t, a, href, ha, hexecuted⟩,
      fun hfailed => absurd hfailed (by simp), ?_⟩
    rw [hdebits, hfits.debits, if_pos rfl, hpending]
    rfl

theorem ledger_complete {tx : Option ℕ} {b : Withdrawal} (hb : b.walletId = 0)
    (hwallets : w.wallets ≠ []) : (w.complete id tx b).ledger = w.ledger - b.amount := by
  obtain ⟨x, l, hl⟩ := exists_cons_of_ne_nil hwallets
  have hfirst : w.wallets[0]? = some x := by simp [hl]
  simp only [World.ledger, World.complete, hb, Table.getElem?_update, hfirst, Option.map_some,
    if_true, Option.getD_some]

end Rabotka.Payouts
