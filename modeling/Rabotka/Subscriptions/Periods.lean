import Rabotka.Subscriptions.Chain

/-!
# The transactions keep every chain

`Valid` is the invariant of the whole table: its constraints hold and the periods of every business
are sound. Creating a period, ending one with its queue and starting the next one now each keep
it: they write only rows of their business, and make of its periods one of the changes of a chain.
-/

namespace Rabotka.Subscriptions

/-- The invariant of the table: its constraints hold and the periods of every business are
sound. -/
structure Valid (rows : List Subscription) (now : ℤ) : Prop where
  checked : Checked rows
  sound : ∀ b, Sound rows b now

variable {rows rows' : List Subscription} {b b' : ℕ} {now : ℤ} {db db' : Db}

theorem Valid.later {t : ℤ} (h : Valid rows now) (ht : now ≤ t) : Valid rows t :=
  ⟨h.checked, fun b => (h.sound b).later ht⟩

/-! ### Creating a period leaves the other businesses alone -/

theorem sameFor_update {id : ℕ} {q : Subscription} {f : Subscription → Subscription}
    (hq : db.subscriptions[id]? = some q) (hb : q.businessId ≠ b)
    (hf : ∀ r, (f r).businessId = r.businessId) (h : db.updateSubscription id f = .ok db') :
    SameFor b db.subscriptions db'.subscriptions := by
  refine (rewrites_update h).sameFor (fun i r => ?_) fun i r hr hrb => ?_
  · split
    · exact hf r
    · rfl
  · rw [if_neg]
    rintro rfl
    obtain rfl := Option.some.inj (hr.symm.trans hq)
    exact hb hrb

theorem cancelTrial_other (hne : b' ≠ b) (h : cancelTrial db b now = .ok db') :
    SameFor b' db.subscriptions db'.subscriptions := by
  unfold cancelTrial at h
  split at h
  · obtain rfl := Except.ok.inj h
    exact fun _ _ _ => Iff.rfl
  · rename_i id trial hfound
    obtain ⟨hrow, hmatch, -⟩ := find_head hfound
    simp only [Bool.decide_and, Bool.and_eq_true, decide_eq_true_eq] at hmatch
    refine sameFor_update hrow ?_ (fun r => ?_) h
    · rw [hmatch.1]
      exact hne.symm
    · rfl

theorem moveFound_other {shift : ℤ} {p : Subscription → Bool} {o : Subscription → ℤ}
    (hdb : Checked db.subscriptions) (hp : ∀ r, p r → r.businessId ≠ b)
    (h : moveQueued shift (db.find p o) db = .ok db') :
    SameFor b db.subscriptions db'.subscriptions := by
  refine (rewrites_moveFound hdb h).sameFor (fun i r => ?_) fun i r _ hrb => ?_
  · split <;> rfl
  · exact if_neg fun hpr => hp r hpr hrb

variable {period : BillingPeriod} {origin : Origin} {planId : ℕ}

theorem insertPeriod_other {plan : Plan}
    (hne : b' ≠ b) (h : insertPeriod db b planId plan period origin now = .ok db') :
    SameFor b' db.subscriptions db'.subscriptions := by
  have hqueue : ∀ d : Db, queuePeriod d b planId period origin now = .ok db' →
      SameFor b' d.subscriptions db'.subscriptions := by
    intro d hd
    obtain ⟨-, rfl⟩ := createSubscription_eq_ok hd
    exact sameFor_append hne.symm
  obtain ⟨d, hd, h⟩ := bind_eq_ok.1 h
  refine (cancelTrial_other hne hd).trans ?_
  cases hrunning : runningPeriod d b now with
  | none =>
    rw [hrunning] at h
    exact hqueue d h
  | some x =>
    obtain ⟨id, running, runningPlan⟩ := x
    rw [hrunning] at h
    obtain ⟨hrow, hb, -⟩ := runningPeriod_eq_some hrunning
    dsimp only at h
    split at h
    · obtain ⟨d₁, hd₁, h⟩ := bind_eq_ok.1 h
      obtain ⟨d₂, hd₂, h⟩ := bind_eq_ok.1 h
      obtain ⟨-, rfl⟩ := createSubscription_eq_ok h
      have hended := sameFor_update (b := b') hrow (by rw [hb]; exact hne.symm)
        (fun r => by split <;> rfl) hd₁
      have hmoved := moveFound_other (b := b') (rewrites_update hd₁).checked (fun r hr => by
        simp only [Bool.decide_and, Bool.and_eq_true, decide_eq_true_eq] at hr
        rw [hr.1]
        exact hne.symm) hd₂
      exact (hended.trans hmoved).trans (sameFor_append hne.symm)
    · exact hqueue d h

theorem insertPeriod_checked {plan : Plan}
    (h : insertPeriod db b planId plan period origin now = .ok db') : Checked db'.subscriptions := by
  have hqueue : ∀ d : Db, queuePeriod d b planId period origin now = .ok db' →
      Checked db'.subscriptions := by
    intro d hd
    obtain ⟨hchecked, rfl⟩ := createSubscription_eq_ok hd
    exact hchecked
  obtain ⟨d, hd, h⟩ := bind_eq_ok.1 h
  split at h
  · split at h
    · obtain ⟨d₁, hd₁, h⟩ := bind_eq_ok.1 h
      obtain ⟨d₂, hd₂, h⟩ := bind_eq_ok.1 h
      obtain ⟨hchecked, rfl⟩ := createSubscription_eq_ok h
      exact hchecked
    · exact hqueue d h
  · exact hqueue d h

theorem insertPeriod_valid {plan : Plan} (hv : Valid db.subscriptions now)
    (h : insertPeriod db b planId plan period origin now = .ok db') :
    Valid db'.subscriptions now := by
  refine ⟨insertPeriod_checked h, fun b' => ?_⟩
  rcases eq_or_ne b' b with rfl | hne
  · exact insertPeriod_sound hv.checked (hv.sound b') h
  · exact (insertPeriod_other hne h).sound (hv.sound b')

theorem createPeriod_valid (hv : Valid db.subscriptions now)
    (h : createPeriod db b planId period origin now = .ok (some db')) :
    Valid db'.subscriptions now := by
  unfold createPeriod at h
  split at h
  · cases h
  · split at h
    · cases h
    · rename_i plan _ _
      cases hinsert : insertPeriod db b planId plan period origin now with
      | error e =>
        rw [hinsert] at h
        cases h
      | ok d =>
        rw [hinsert] at h
        obtain rfl : d = db' := Option.some.inj (Except.ok.inj h)
        exact insertPeriod_valid hv hinsert

/-! ### Ending periods -/

/-- **A cancellation drops the tail.** -/
theorem endWithQueue_valid {id : ℕ} {admin : Option ℕ} (hv : Valid db.subscriptions now)
    (h : endWithQueue db b id admin now = .ok db') : Valid db'.subscriptions now := by
  unfold endWithQueue at h
  split at h
  · cases h
  rename_i sub hsub
  split at h
  · cases h
  rename_i hguard
  rw [not_or, not_not] at hguard
  obtain ⟨hsubb, -⟩ := hguard
  obtain ⟨d, hd, h⟩ := bind_eq_ok.1 h
  obtain ⟨ended, hended, hendedb, hd⟩ : ∃ ended : Subscription → Subscription,
      (∀ r, (ended r).status = .cancelled) ∧ (∀ r, (ended r).businessId = r.businessId) ∧
        db.updateSubscription id ended = .ok d := by
    refine ⟨_, fun r => ?_, fun r => ?_, hd⟩ <;> rfl
  obtain ⟨dropped, hdropped, hdroppedb, h⟩ : ∃ dropped : Subscription → Subscription,
      (∀ r, (dropped r).status = .cancelled) ∧ (∀ r, (dropped r).businessId = r.businessId) ∧
        d.updateSubscriptions (fun i r => r.businessId = b ∧ r.status.isRunning ∧
          sub.startsAt < r.startsAt ∧ i ≠ id) dropped = .ok db' := by
    refine ⟨_, fun r => ?_, fun r => ?_, h⟩ <;> rfl
  have hw : Rewrites (fun i r => if id = i then ended r else
      if r.businessId = b ∧ r.status.isRunning ∧ sub.startsAt < r.startsAt then dropped r else r)
      db db' := by
    refine ((rewrites_update hd).comp (rewrites_updateMany h)).congr fun i r _ => ?_
    rcases eq_or_ne id i with rfl | hne
    · simp
    · simp [hne, hne.symm]
  refine ⟨hw.checked, fun b' => ?_⟩
  rcases eq_or_ne b' b with rfl | hne
  swap
  · refine (hw.sameFor (fun i r => ?_) fun i r hr hrb => ?_).sound (hv.sound b')
    · split_ifs
      · exact hendedb r
      · exact hdroppedb r
      · rfl
    · rw [if_neg, if_neg]
      · rintro ⟨hrb', -⟩
        exact hne (hrb.symm.trans hrb')
      · rintro rfl
        obtain rfl := Option.some.inj (hr.symm.trans hsub)
        exact hne (hrb.symm.trans hsubb)
  -- a row that still counts is an old one that starts no later than the ended period
  have hkept : ∀ (i : ℕ) (r : Subscription), db'.subscriptions[i]? = some r →
      r.businessId = b' → r.status.isRunning →
      db.subscriptions[i]? = some r ∧ r.startsAt ≤ sub.startsAt := by
    intro i r hr hrb hrunning
    rw [hw.row] at hr
    obtain ⟨q, hq, rfl⟩ := Option.map_eq_some_iff.1 hr
    split_ifs at hrb hrunning ⊢ with hid hdrop
    · rw [hended] at hrunning
      cases hrunning
    · rw [hdropped] at hrunning
      cases hrunning
    · refine ⟨hq, ?_⟩
      by_contra hlt
      exact hdrop ⟨hrb, hrunning, not_le.1 hlt⟩
  have hold : ∀ i s e, periods db'.subscriptions b' now i = some (s, e) →
      periods db.subscriptions b' now i = some (s, e) ∧ s ≤ sub.startsAt := by
    intro i s e hi
    obtain ⟨r, hr, hlive, rfl, rfl⟩ := periods_eq_some.1 hi
    obtain ⟨hr', hle⟩ := hkept i r hr hlive.1 hlive.2.1
    exact ⟨periods_eq_some.2 ⟨r, hr', hlive, rfl, rfl⟩, hle⟩
  have hs := hv.sound b'
  refine ⟨hs.chain.of_downward (fun i p hi => (hold i p.1 p.2 hi).1) ?_, ?_⟩
  · intro i j s e s' e' hi hj hlt
    obtain ⟨-, hle⟩ := hold i s e hi
    obtain ⟨r, hr, hlive, rfl, rfl⟩ := periods_eq_some.1 hj
    refine periods_eq_some.2 ⟨r, ?_, hlive, rfl, rfl⟩
    rw [hw.row, hr, Option.map_some, if_neg, if_neg]
    · rintro ⟨-, -, hafter⟩
      omega
    · rintro rfl
      obtain rfl := Option.some.inj (hr.symm.trans hsub)
      omega
  · intro i r hr hrb hstatus hend j p hj
    obtain ⟨hr', -⟩ := hkept i r hr hrb (by rw [hstatus]; rfl)
    exact hs.trial hr' hrb hstatus hend (hold j p.1 p.2 hj).1

/-! ### Starting the next period -/

/-- A queued period of the business, waiting to start. -/
abbrev Waiting (b : ℕ) (now : ℤ) (r : Subscription) : Prop :=
  r.businessId = b ∧ r.status = .active ∧ now < r.startsAt

/-- What `startQueued` does to each row. -/
theorem startQueued_rewrites {id : ℕ} (h : startQueued db b id now = .ok db') :
    ∃ next stop, db.subscriptions[id]? = some next ∧ Waiting b now next ∧
      (∀ (i : ℕ) (r : Subscription), db.subscriptions[i]? = some r → Waiting b now r →
        next.startsAt ≤ r.startsAt) ∧
      Rewrites (fun i r => if id = i then { r with startsAt := now, endsAt := stop }
        else if Waiting b now r then r.move (stop - next.endsAt)
        else if r.businessId = b ∧ r.status.isRunning ∧ r.startsAt ≤ now ∧ now < r.endsAt then
          { r with status := .expired, endsAt := now, expiredNotifiedAt := some now }
        else r) db db' := by
  unfold startQueued at h
  generalize hqueued : db.find (fun r => r.businessId = b ∧ r.status = .active ∧
    now < r.startsAt) Subscription.startsAt = queued at h
  cases queued with
  | nil => cases h
  | cons x later =>
    obtain ⟨id', next⟩ := x
    dsimp only at h
    split at h
    · cases h
    rename_i hid
    obtain rfl := not_not.1 hid
    obtain ⟨d₁, hd₁, h⟩ := bind_eq_ok.1 h
    obtain ⟨d₂, hd₂, h⟩ := bind_eq_ok.1 h
    obtain ⟨hnext, hmatch, hfirst⟩ := find_head (x := (id', next)) (congrArg List.head? hqueued)
    have hnodup : ((db.find (fun r => decide (Waiting b now r)) Subscription.startsAt).map
      Prod.fst).Nodup := nodup_find
    have hmem : ∀ (i : ℕ) (r : Subscription), db.subscriptions[i]? = some r → id' ≠ i →
        (i ∈ later.map Prod.fst ↔ Waiting b now r) := by
      intro i r hr hne
      have hall := mem_ids_find (p := fun r => decide (Waiting b now r))
        (o := Subscription.startsAt) hr
      rw [hqueued, List.map_cons, List.mem_cons, or_iff_right hne.symm, decide_eq_true_eq] at hall
      exact hall
    rw [hqueued, List.map_cons, List.nodup_cons] at hnodup
    have hw₁ := rewrites_updateMany hd₁
    have hw₂ := rewrites_moveQueued hw₁.checked hnodup.2 (fun x hx => ?_) hd₂
    · refine ⟨next, periodEnd now next.billingPeriod, hnext, of_decide_eq_true hmatch,
        fun i r hr hwaiting => hfirst i r hr (decide_eq_true hwaiting), ?_⟩
      refine ((hw₁.comp hw₂).comp (rewrites_update h)).congr fun i r hr => ?_
      rcases eq_or_ne id' i with rfl | hne
      · obtain rfl := Option.some.inj (hr.symm.trans hnext)
        have hlate : ¬ r.startsAt ≤ now := not_le_of_gt (of_decide_eq_true hmatch).2.2
        simp [hnodup.1, hlate]
      · simp only [if_neg hne, decide_eq_true_eq]
        by_cases hwaiting : Waiting b now r
        · have hlate : ¬ (r.businessId = b ∧ r.status.isRunning ∧ r.startsAt ≤ now ∧
              now < r.endsAt) := fun hrunning => by
            have hstart := hwaiting.2.2
            omega
          rw [if_pos ((hmem i r hr hne).2 hwaiting), if_neg hlate, if_pos hwaiting]
        · rw [if_neg (mt (hmem i r hr hne).1 hwaiting), if_neg hwaiting]
    · obtain ⟨hx', hwaiting⟩ := mem_find.1 (hqueued ▸ List.mem_cons_of_mem _ hx)
      have hwaiting' := of_decide_eq_true hwaiting
      refine ⟨x.2, ?_, rfl, rfl⟩
      rw [hw₁.row, hx', Option.map_some, if_neg]
      intro hrunning
      have hrunning' := of_decide_eq_true hrunning
      omega

/-- **Starting the next period now splices the chain** at its end. -/
theorem startQueued_valid {id : ℕ} (hv : Valid db.subscriptions now)
    (h : startQueued db b id now = .ok db') : Valid db'.subscriptions now := by
  obtain ⟨next, stop, hnext, hwaiting, hfirst, hw⟩ := startQueued_rewrites h
  refine ⟨hw.checked, fun b' => ?_⟩
  rcases eq_or_ne b' b with rfl | hne
  swap
  · refine (hw.sameFor (fun i r => ?_) fun i r hr hrb => ?_).sound (hv.sound b')
    · split_ifs <;> rfl
    · rw [if_neg, if_neg, if_neg]
      · exact fun hrunning => hne (hrb.symm.trans hrunning.1)
      · exact fun hwaiting' => hne (hrb.symm.trans hwaiting'.1)
      · rintro rfl
        obtain rfl := Option.some.inj (hr.symm.trans hnext)
        exact hne (hrb.symm.trans hwaiting.1)
  have hs := hv.sound b'
  have hlasts := hv.checked.get hnext
  have hlive : Live b' now next := by
    refine ⟨hwaiting.1, by rw [hwaiting.2.1]; rfl, ?_⟩
    have hstart := hwaiting.2.2
    omega
  have hfound : periods db.subscriptions b' now id = some (next.startsAt, next.endsAt) :=
    periods_eq_some.2 ⟨next, hnext, hlive, rfl, rfl⟩
  -- a trial would be alone, but the next period is queued
  have htrial : NoTrial db.subscriptions b' now := by
    intro i r hr hb hstatus
    by_contra hend
    have hid := hs.trial hr hb hstatus (not_le.1 hend) hfound
    rw [hid] at hnext
    obtain rfl := Option.some.inj (hr.symm.trans hnext)
    rw [hwaiting.2.1] at hstatus
    cases hstatus
  have hstarted := hw.row id
  rw [hnext, Option.map_some, if_pos rfl] at hstarted
  have hstop : now < stop := hw.checked.get hstarted
  have hcut : now < next.endsAt + (stop - next.endsAt) := by omega
  refine .of_noTrial ?_ (htrial.rewrites hw fun i r hr hstatus => ?_)
  · refine hs.chain.splice (k := id) hfound (fun s e hk => ?_) hcut fun i => ?_
    · obtain ⟨rfl, -⟩ := Prod.mk.inj (Option.some.inj (hk.symm.trans hfound))
      exact hlasts
    split_ifs with hi
    · subst hi
      rw [add_sub_cancel]
      exact periods_eq_some.2 ⟨_, hstarted, ⟨hlive.1, hlive.2.1, hstop⟩, rfl, rfl⟩
    refine periods_spliced hw hv.checked hcut (fun i r hi hr => ?_) hi
    rw [if_neg hi.symm]
    have hrlasts := hv.checked.get hr
    by_cases hqueued : Waiting b' now r
    · rw [if_pos hqueued]
      have hrlive : Live b' now r := by
        refine ⟨hqueued.1, by rw [hqueued.2.1]; rfl, ?_⟩
        have hstart := hqueued.2.2
        omega
      have hafter := hfirst i r hr hqueued
      refine .inl ⟨hrlive, ?_, rfl⟩
      rcases hs.chain.disjoint (periods_eq_some.2 ⟨r, hr, hrlive, rfl, rfl⟩) hfound hi
        with hle | hle
      · omega
      · exact hle
    · rw [if_neg hqueued]
      have hearly : Live b' now r → r.startsAt ≤ now := by
        intro hrlive
        by_contra hlate
        exact hqueued ⟨hrlive.1, htrial.active hr hrlive, not_le.1 hlate⟩
      refine .inr ⟨fun hrlive => ?_, fun hrlive => ?_⟩
      · have hle := hearly hrlive
        have hstart := hwaiting.2.2
        omega
      · split_ifs at hrlive with hrunning
        · exact absurd hrlive.2.1 (by simp [SubscriptionStatus.isRunning])
        · exact hrunning ⟨hrlive.1, hrlive.2.1, hearly hrlive, hrlive.2.2⟩
  · split_ifs at hstatus ⊢ with hid hqueued hrunning
    · subst hid
      obtain rfl := Option.some.inj (hr.symm.trans hnext)
      exact absurd (hwaiting.2.1.symm.trans hstatus) (by simp)
    · rw [Subscription.move, hqueued.2.1] at hstatus
      cases hstatus
    · rfl

end Rabotka.Subscriptions
