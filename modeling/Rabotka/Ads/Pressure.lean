import Rabotka.Ads.Steps
import Rabotka.Lib.Pace

/-!
# How often an advertisement goes out

On a day with a successful delivery at most `maxReach` profiles are reached, each at most once per
channel, and failed deliveries change nothing about what a later run sends. Where no batch is left
over from an earlier day, the days with a successful delivery number at most `maxFrequencyPerWeek`
in any seven consecutive ones (`pressure_bounded`): a batch that is sent on the day it is due comes
a week after the one that many batches before (`Pace.Paced`).

`pressure_unbounded` shows what happens otherwise: batches that a pause has left over go out on
consecutive days.
-/

namespace Rabotka.Ads

open Async Pace List

variable {i id : ℕ} {w : World} {ε : Env} {c : Cmd} {ad ad' : Advertisement} {x : State}
  {e : Step} {l : Log} {m : Message} {bundle : Bundle}

/-! ### Deliveries -/

/-- The messages of the advertisement that were sent. -/
def deliveries (id : ℕ) (l : Log) : List Message :=
  (l.flatMap messages).filter fun m => m.sentAt.isSome && m.advertisementId = id

/-- The message was sent on this day. -/
def Message.onDay (day : ℕ) (m : Message) : Bool := m.sentAt.any fun t => dayOf t = day

/-- The days with a successful delivery. -/
def deliveryDays (id : ℕ) (l : Log) : Finset ℕ :=
  ((deliveries id l).filterMap fun m => m.sentAt.map dayOf).toFinset

/-- The profiles that were reached on a day. -/
def reached (id day : ℕ) (l : Log) : Finset ℕ :=
  (((deliveries id l).filter (Message.onDay day)).map Message.profileId).toFinset

/-- The message reached the profile on the channel on this day. -/
def Message.reaches (day profileId : ℕ) (channel : Channel) (m : Message) : Bool :=
  m.onDay day && m.profileId = profileId && m.channel = channel

/-- The tables without the rows of failed deliveries. -/
def World.withoutFailures (w : World) : World :=
  { w with logs := w.logs.filter fun r => r.sentAt.isSome }

/-- What is promised about the pressure of the advertisements. -/
structure Bounded (x : State) : Prop where
  weekly : ∀ (id : ℕ) (ad : Advertisement) (bundle : Bundle), x.1.ads[id]? = some ad →
    x.1.bundles[ad.bundleId]? = some bundle →
      ∀ t, (window 7 t (deliveryDays id x.2)).card ≤ bundle.maxFrequencyPerWeek
  daily : ∀ (id : ℕ) (ad : Advertisement) (bundle : Bundle), x.1.ads[id]? = some ad →
    x.1.bundles[ad.bundleId]? = some bundle → ∀ day, (reached id day x.2).card ≤ bundle.maxReach
  once : ∀ id day p channel, (deliveries id x.2).countP (Message.reaches day p channel) ≤ 1
  unskipped : ∀ ε, sentBy x.1 ε = sentBy x.1.withoutFailures ε

/-- The values of a bundle and the start of an advertisement stay as they are once something was
sent, and no batch is left over from an earlier day. -/
def steady : Guard State Cmd Cmd Env
  | x, .step _ (.update id dto) _ => (x.1.ads[id]?).all fun ad => ad.status = .draft ||
      ((ad.updated dto).startDate = ad.startDate && (ad.updated dto).bundleId = ad.bundleId)
  | x, .step _ (.updateBundle id dto) _ =>
      (x.1.bundles[id]?).all (fun bundle => (bundle.updated dto).toTerms = bundle.toTerms) ||
        x.1.logs.all fun r => (x.1.ads[r.advertisementId]?).all fun ad => ad.bundleId ≠ id
  | x, .step _ .dispatch _ => x.1.activate.activeAds.all fun z =>
      (x.1.bundles[z.2.bundleId]?).all fun bundle =>
        !isDispatchDue x.1.activate z.1 z.2 bundle.toTerms || 7 ≤ bundle.maxFrequencyPerWeek ||
          expectedBatches z.2.startDate bundle.maxFrequencyPerWeek (x.1.today - 1) ≤
            (sentDays x.1.logs z.1).card
  | _, _ => true

/-! ### Rows and messages -/

theorem mem_sentDays {logs : List DeliveryLog} {day : ℕ} : day ∈ sentDays logs id ↔
    ∃ r ∈ logs, r.advertisementId = id ∧ r.status = .sent ∧ r.sentAt.map dayOf = some day := by
  simp [sentDays, and_assoc]

theorem mem_deliveryDays {day : ℕ} : day ∈ deliveryDays id l ↔
    ∃ m ∈ deliveries id l, m.sentAt.map dayOf = some day := by
  simp [deliveryDays]

theorem mem_deliveries : m ∈ deliveries id l ↔
    m ∈ l.flatMap messages ∧ m.advertisementId = id ∧ m.sentAt.isSome := by
  simp [deliveries, and_comm]

/-- The log holds the messages of the run. -/
def Logged (x : State) : Prop :=
  ∀ r, r ∈ x.1.logs ↔ ∃ m ∈ x.2.flatMap messages, m.log = r

theorem Logged.sentDays_eq (h : Logged x) (id : ℕ) : sentDays x.1.logs id = deliveryDays id x.2 := by
  ext day
  rw [mem_sentDays, mem_deliveryDays]
  constructor
  · rintro ⟨r, hr, hid, hstatus, hday⟩
    obtain ⟨m, hm, rfl⟩ := (h r).1 hr
    obtain ⟨t, ht, -⟩ := Option.map_eq_some_iff.1 hday
    exact ⟨m, mem_deliveries.2 ⟨hm, hid, Option.isSome_iff_exists.2 ⟨t, ht⟩⟩, hday⟩
  · rintro ⟨m, hm, hday⟩
    obtain ⟨hmem, hid, hsent⟩ := mem_deliveries.1 hm
    exact ⟨m.log, (h _).2 ⟨m, hmem, rfl⟩, hid, by simp [Message.log, hsent], hday⟩

theorem logs_change {f : Advertisement → Except String Advertisement} :
    (w.change id f).1.logs = w.logs := by
  unfold World.change
  split
  · rfl
  · split <;> rfl

/-- Only a dispatch writes to the log. -/
theorem logs_exec : (exec w ε c).1.logs =
    w.logs ++ (messages ⟨i, w, c, (exec w ε c).2⟩).map Message.log := by
  cases c with
  | create | updateBundle =>
    simp only [exec]
    split <;> simp [messages]
  | dispatch => rw [messages, exec, runDispatch_eq]
  | createBundle | elapse => simp [exec, messages]
  | lifecycle => simp [exec, messages, runLifecycle, World.complete, World.activate]
  | _ => simp [exec, messages, logs_change]

theorem Logged.step (h : Logged x) :
    Logged ((exec x.1 ε c).1, ⟨i, x.1, c, (exec x.1 ε c).2⟩ :: x.2) := by
  intro r
  rw [logs_exec (i := i), mem_append, h r, flatMap_cons]
  simp only [mem_append, mem_map]
  constructor
  · rintro (⟨m, hm, rfl⟩ | ⟨m, hm, rfl⟩)
    · exact ⟨m, .inr hm, rfl⟩
    · exact ⟨m, .inl hm, rfl⟩
  · rintro ⟨m, hm | hm, rfl⟩
    · exact .inr ⟨m, hm, rfl⟩
    · exact .inl ⟨m, hm, rfl⟩

/-- Failed deliveries make no difference to what is sent of an advertisement. -/
theorem dispatchOne_withoutFailures (h : ∀ r ∈ w.logs, r.status = .sent → r.sentAt.isSome)
    (z : ℕ × Advertisement) :
    dispatchOne { w with logs := w.logs.filter fun r => r.sentAt.isSome } ε z =
      dispatchOne w ε z := by
  set v : World := { w with logs := w.logs.filter fun r => r.sentAt.isSome } with hv
  have hsince : ∀ t, v.logs.filter (fun r => r.advertisementId = z.1 && r.sentSince t) =
      w.logs.filter fun r => r.advertisementId = z.1 && r.sentSince t := fun t => by
    rw [hv, filter_filter]
    refine filter_congr fun r _ => ?_
    cases hr : r.sentAt <;> simp [DeliveryLog.sentSince, hr]
  have hany : ∀ t, v.logs.any (fun r => r.advertisementId = z.1 && r.sentSince t) =
      w.logs.any fun r => r.advertisementId = z.1 && r.sentSince t := fun t => by
    rw [hv, any_filter]
    refine congrArg w.logs.any (funext fun r => ?_)
    cases hr : r.sentAt <;> simp [DeliveryLog.sentSince, hr]
  have hdays : sentDays v.logs z.1 = sentDays w.logs z.1 := by
    ext day
    rw [mem_sentDays, mem_sentDays]
    refine exists_congr fun r => ⟨fun hr => ⟨(mem_filter.1 hr.1).1, hr.2⟩, fun hr => ?_⟩
    exact ⟨mem_filter.2 ⟨hr.1, h r hr.1 hr.2.2.1⟩, hr.2⟩
  have hdue : ∀ terms, isDispatchDue v z.1 z.2 terms = isDispatchDue w z.1 z.2 terms :=
    fun terms => by
      simp only [isDispatchDue]
      rw [hany, hdays]
      rfl
  have hrecipients : ∀ terms profiles,
      resolveRecipients v z.1 terms profiles = resolveRecipients w z.1 terms profiles :=
    fun terms profiles => by
      simp only [resolveRecipients]
      rw [hsince]
      rfl
  unfold dispatchOne dispatchAd
  simp only [hdue, hrecipients]
  rfl

theorem Logged.status (h : Logged x) : ∀ r ∈ x.1.logs, r.status = .sent → r.sentAt.isSome := by
  intro r hr hstatus
  obtain ⟨m, -, rfl⟩ := (h r).1 hr
  by_contra hnone
  have hnot : m.sentAt.isSome = false := by simpa [Message.log] using hnone
  simp [Message.log, hnot] at hstatus

theorem Logged.sentBy_withoutFailures (h : Logged x) (ε : Env) :
    sentBy x.1 ε = sentBy x.1.withoutFailures ε := by
  refine flatMap_congr fun z _ => ?_
  exact (dispatchOne_withoutFailures (w := x.1.activate) h.status z).symm

/-! ### What holds along steady runs -/

/-- The pressure of one advertisement. -/
structure Within (startDate : ℕ) (terms : Terms) (id : ℕ) (l : Log) : Prop where
  paced : terms.maxFrequencyPerWeek < 7 →
    Paced 7 startDate terms.maxFrequencyPerWeek (deliveryDays id l)
  daily : ∀ day, (reached id day l).card ≤ terms.maxReach

/-- The deliveries of a steady run. -/
structure Measured (x : State) : Prop where
  logged : Logged x
  known : x.1.Known
  past : ∀ m ∈ x.2.flatMap messages, ∀ t, m.sentAt = some t → t ≤ x.1.now
  unsent : ∀ id, (∀ ad, x.1.ads[id]? = some ad → ad.status = .draft) →
    ∀ m ∈ x.2.flatMap messages, m.advertisementId ≠ id
  within : ∀ (id : ℕ) (ad : Advertisement) (bundle : Bundle), x.1.ads[id]? = some ad →
    x.1.bundles[ad.bundleId]? = some bundle → Within ad.startDate bundle.toTerms id x.2
  once : ∀ id day p channel, (deliveries id x.2).countP (Message.reaches day p channel) ≤ 1

theorem deliveries_cons (id : ℕ) (e : Step) (l : Log) : deliveries id (e :: l) =
    ((messages e).filter fun m => m.sentAt.isSome && m.advertisementId = id) ++
      deliveries id l := by
  simp [deliveries]

variable {terms : Terms}

theorem within_of_unsent {startDate : ℕ} (h : deliveries id l = []) :
    Within startDate terms id l where
  paced _ := by
    have hnone : deliveryDays id l = ∅ := by simp [deliveryDays, h]
    rw [hnone]
    exact paced_empty
  daily day := by simp [reached, h]

theorem deliveries_eq_nil (h : ∀ m ∈ l.flatMap messages, m.advertisementId ≠ id) :
    deliveries id l = [] :=
  filter_eq_nil_iff.2 fun m hm => by simp [h m hm]

/-- A step that sends nothing of the advertisement. -/
theorem Within.congr {startDate : ℕ} (h : Within startDate terms id l)
    (hsame : deliveries id (e :: l) = deliveries id l) : Within startDate terms id (e :: l) where
  paced hf := by
    have hdays : deliveryDays id (e :: l) = deliveryDays id l := by
      rw [deliveryDays, hsame, deliveryDays]
    rw [hdays]
    exact h.paced hf
  daily day := by
    rw [reached, hsame]
    exact h.daily day

/-- What a dispatch delivers of an advertisement, if it delivers anything. -/
theorem delivered_cases (id : ℕ) (hsent : (messages ⟨i, w, c, (exec w ε c).2⟩).filter
      (fun m => m.sentAt.isSome && m.advertisementId = id) ≠ []) :
    c = .dispatch ∧ ∃ ad bundle, w.activate.ads[id]? = some ad ∧ ad.status = .active ∧
      w.bundles[ad.bundleId]? = some bundle ∧ isDispatchDue w.activate id ad bundle.toTerms ∧
        (messages ⟨i, w, c, (exec w ε c).2⟩).filter
          (fun m => m.sentAt.isSome && m.advertisementId = id) =
            (dispatchAd w.activate ε id ad bundle.toTerms).filter fun m => m.sentAt.isSome := by
  obtain ⟨m, hm⟩ := exists_mem_of_ne_nil _ hsent
  obtain ⟨hmem, hcond⟩ := mem_filter.1 hm
  obtain ⟨rfl, hsentBy⟩ := messages_exec hmem
  obtain ⟨-, hid⟩ := Bool.and_eq_true .. ▸ hcond
  obtain rfl : m.advertisementId = id := of_decide_eq_true hid
  obtain ⟨ad, bundle, had, hactive, hbundle, hdue, -⟩ := mem_sentBy hsentBy
  refine ⟨rfl, ad, bundle, had, hactive, hbundle, hdue, ?_⟩
  have hone := filter_flatMap_dispatchOne (w := w.activate) (ε := ε) (Table.nodup_findMany _ _)
    (Table.mem_findMany.2 ⟨had, decide_eq_true hactive⟩ : (m.advertisementId, ad) ∈
      w.activate.activeAds)
  have hbundle' : w.activate.bundles[ad.bundleId]? = some bundle := hbundle
  rw [← filter_filter, messages, exec, runDispatch_eq]
  refine congrArg (List.filter fun m => m.sentAt.isSome) (hone.trans ?_)
  rw [dispatchOne]
  simp only [hbundle', hdue, if_true]

/-- Where an advertisement is due, its deliveries are of earlier days. -/
theorem Measured.lt_today (h : Measured x)
    (hdue : isDispatchDue x.1.activate id ad terms) (hm : m ∈ deliveries id x.2) {t : ℕ}
    (ht : m.sentAt = some t) : dayOf t < x.1.today := by
  obtain ⟨hmem, hid, -⟩ := mem_deliveries.1 hm
  have hlog : m.log ∈ x.1.activate.logs := (h.logged _).2 ⟨m, hmem, rfl⟩
  have htoday : x.1.activate.today = x.1.today := rfl
  rw [isDispatchDue, htoday, Bool.and_eq_true, Bool.and_eq_true, Bool.not_eq_true'] at hdue
  have hnot := any_eq_false.1 hdue.1.2 m.log hlog
  have hlt : t < x.1.today * dayMs := by
    refine not_le.1 fun hle => hnot ?_
    rw [Bool.and_eq_true]
    refine ⟨decide_eq_true hid, ?_⟩
    rw [DeliveryLog.sentSince, Message.log, ht, Option.any_some, decide_eq_true_eq]
    exact hle
  exact Nat.div_lt_of_lt_mul (Nat.mul_comm _ _ ▸ hlt)

/-- An advertisement that something was sent of keeps its start and its terms. -/
theorem Measured.steady_row (h : Measured x) (hg : steady x (.step i c ε))
    (had' : (exec x.1 ε c).1.ads[id]? = some ad')
    (hbundle' : (exec x.1 ε c).1.bundles[ad'.bundleId]? = some bundle) :
    deliveries id x.2 = [] ∨ ∃ ad bundle₀, x.1.ads[id]? = some ad ∧
      x.1.bundles[ad.bundleId]? = some bundle₀ ∧ ad'.startDate = ad.startDate ∧
        bundle.toTerms = bundle₀.toTerms := by
  by_cases hnone : ∀ m ∈ x.2.flatMap messages, m.advertisementId ≠ id
  · exact .inl (deliveries_eq_nil hnone)
  rcases ad_of_exec had' with ⟨ad, had, hchanges⟩ | ⟨hid, -⟩
  · refine .inr ?_
    have hsame : ad'.startDate = ad.startDate ∧ ad'.bundleId = ad.bundleId := by
      cases hchanges with
      | updated dto _ heditable hcheck =>
        simp only [steady, had, Option.all_some, Bool.or_eq_true, Bool.and_eq_true,
          decide_eq_true_eq] at hg
        rcases hg with hdraft | hsame
        · refine absurd (h.unsent id fun ad₁ had₁ => ?_) hnone
          rw [had] at had₁
          exact Option.some.inj had₁ ▸ hdraft
        · exact hsame
      | _ => exact ⟨rfl, rfl⟩
    obtain ⟨bundle₀, hbundle₀⟩ := h.known id ad had
    refine ⟨ad, bundle₀, had, hbundle₀, hsame.1, ?_⟩
    rw [hsame.2] at hbundle'
    obtain ⟨bundle₁, hbundle₁, hcase⟩ := exec_bundle (ε := ε) (c := c) hbundle₀
    rw [hbundle'] at hbundle₁
    obtain rfl := Option.some.inj hbundle₁
    rcases hcase with rfl | ⟨dto, rfl, rfl⟩
    · rfl
    · simp only [steady, hbundle₀, Option.all_some, Bool.or_eq_true, decide_eq_true_eq] at hg
      rcases hg with hterms | hunused
      · exact hterms
      · -- something was sent of an advertisement in the bundle
        refine absurd (fun m hm hmid => ?_) hnone
        have hlog : m.log ∈ x.1.logs := (h.logged _).2 ⟨m, hm, rfl⟩
        have hother := all_eq_true.1 hunused _ hlog
        have hrow : x.1.ads[m.log.advertisementId]? = some ad := by rwa [← hmid] at had
        rw [hrow] at hother
        simp at hother
  · refine absurd (h.unsent id fun ad₁ had₁ => ?_) hnone
    rw [hid, getElem?_eq_none le_rfl] at had₁
    cases had₁

theorem onDay_of_mem_dispatchAd {day : ℕ} (hm : m ∈ dispatchAd w ε id ad terms)
    (hday : m.onDay day) : day = w.today := by
  obtain ⟨t, ht, hdayOf⟩ := Option.any_eq_true _ _ |>.1 hday
  rw [← of_decide_eq_true hdayOf, (mem_dispatchAd hm).2 t ht]
  rfl

/-- On the day of the run, the advertisement had not been delivered. -/
theorem Measured.filter_onDay (h : Measured x) (hdue : isDispatchDue x.1.activate id ad terms) :
    (deliveries id x.2).filter (Message.onDay x.1.today) = [] := by
  refine filter_eq_nil_iff.2 fun m hm hday => ?_
  obtain ⟨t, ht, hdayOf⟩ := Option.any_eq_true _ _ |>.1 hday
  exact absurd (of_decide_eq_true hdayOf) (h.lt_today hdue hm ht).ne

/-- A run that delivers adds its day. -/
theorem deliveryDays_insert {new : List Message}
    (hnew : deliveries id (e :: l) = new.filter (fun m => m.sentAt.isSome) ++ deliveries id l)
    {day : ℕ} (hday : ∀ m ∈ new, ∀ t, m.sentAt = some t → dayOf t = day)
    (hsome : new.filter (fun m => m.sentAt.isSome) ≠ []) :
    deliveryDays id (e :: l) = insert day (deliveryDays id l) := by
  ext d
  rw [Finset.mem_insert, mem_deliveryDays, mem_deliveryDays, hnew]
  constructor
  · rintro ⟨m, hm, hd⟩
    rcases mem_append.1 hm with hm | hm
    · obtain ⟨t, ht, rfl⟩ := Option.map_eq_some_iff.1 hd
      exact .inl (hday m (mem_filter.1 hm).1 t ht)
    · exact .inr ⟨m, hm, hd⟩
  · rintro (rfl | ⟨m, hm, hd⟩)
    · obtain ⟨m, hm⟩ := exists_mem_of_ne_nil _ hsome
      obtain ⟨hmem, hsent⟩ := mem_filter.1 hm
      obtain ⟨t, ht⟩ := Option.isSome_iff_exists.1 hsent
      exact ⟨m, mem_append_left _ hm, by rw [ht, Option.map_some, hday m hmem t ht]⟩
    · exact ⟨m, mem_append_right _ hm, hd⟩

/-- A dispatch in order finds no batch left over. -/
theorem onTime_of_steady (hg : steady x (.step i .dispatch ε))
    (had : x.1.activate.ads[id]? = some ad) (hactive : ad.status = .active)
    (hbundle : x.1.bundles[ad.bundleId]? = some bundle)
    (hdue : isDispatchDue x.1.activate id ad bundle.toTerms)
    (hfew : bundle.maxFrequencyPerWeek < 7) :
    expectedBatches ad.startDate bundle.maxFrequencyPerWeek (x.1.today - 1) ≤
      (sentDays x.1.logs id).card := by
  simp only [steady, all_eq_true] at hg
  have hone := hg (id, ad) (Table.mem_findMany.2 ⟨had, decide_eq_true hactive⟩)
  rw [hbundle, Option.all_some, hdue, Bool.not_true, Bool.false_or, Bool.or_eq_true] at hone
  rcases hone with hmany | hexpected
  · exact absurd (of_decide_eq_true hmany) (not_le.2 hfew)
  · exact of_decide_eq_true hexpected

theorem Measured.within_step (h : Measured x) (hg : steady x (.step i c ε)) :
    ∀ (id : ℕ) (ad : Advertisement) (bundle : Bundle), (exec x.1 ε c).1.ads[id]? = some ad →
      (exec x.1 ε c).1.bundles[ad.bundleId]? = some bundle →
        Within ad.startDate bundle.toTerms id (⟨i, x.1, c, (exec x.1 ε c).2⟩ :: x.2) := by
  intro id ad' bundle' had' hbundle'
  by_cases hsent : (messages ⟨i, x.1, c, (exec x.1 ε c).2⟩).filter
      (fun m => m.sentAt.isSome && m.advertisementId = id) = []
  · have hsame : deliveries id (⟨i, x.1, c, (exec x.1 ε c).2⟩ :: x.2) = deliveries id x.2 := by
      rw [deliveries_cons, hsent, nil_append]
    rcases h.steady_row hg had' hbundle' with hnone | ⟨ad, bundle, had, hbundle, hstart, hterms⟩
    · exact within_of_unsent (hsame.trans hnone)
    · rw [hstart, hterms]
      exact (h.within id ad bundle had hbundle).congr hsame
  · obtain ⟨rfl, ad, bundle, had, hactive, hbundle, hdue, hnew⟩ := delivered_cases id hsent
    have hcons : deliveries id (⟨i, x.1, .dispatch, (exec x.1 ε .dispatch).2⟩ :: x.2) =
        (dispatchAd x.1.activate ε id ad bundle.toTerms).filter (fun m => m.sentAt.isSome) ++
          deliveries id x.2 := by
      rw [deliveries_cons, hnew]
    rw [exec, runDispatch_eq] at had' hbundle'
    have heq : ad = ad' := Option.some.inj (had.symm.trans had')
    subst heq
    have heq : bundle = bundle' := Option.some.inj (hbundle.symm.trans hbundle')
    subst heq
    obtain ⟨ad₀, had₀, hchanges⟩ := activate_cases had
    have hkept : ad.startDate = ad₀.startDate ∧ ad.bundleId = ad₀.bundleId := by
      cases hchanges .dispatch <;> exact ⟨rfl, rfl⟩
    have hold : Within ad.startDate bundle.toTerms id x.2 := by
      rw [hkept.1]
      exact h.within id ad₀ bundle had₀ (hkept.2 ▸ hbundle)
    constructor
    · intro hfew
      have hdays : deliveryDays id (⟨i, x.1, .dispatch, (exec x.1 ε .dispatch).2⟩ :: x.2) =
          insert x.1.today (deliveryDays id x.2) := by
        refine deliveryDays_insert hcons (fun m hm t ht => ?_) (hnew ▸ hsent)
        rw [(mem_dispatchAd hm).2 t ht]
        rfl
      have hcard : (sentDays x.1.logs id).card = (deliveryDays id x.2).card := by
        rw [h.logged.sentDays_eq]
      have honTime := onTime_of_steady hg had hactive hbundle hdue hfew
      have hbehind : ((sentDays x.1.logs id).card : ℤ) <
          expectedBatches ad.startDate bundle.maxFrequencyPerWeek x.1.today := by
        have hthird := (Bool.and_eq_true _ _ ▸ hdue).2
        exact of_decide_eq_true hthird
      rw [hcard, expectedBatches] at honTime hbehind
      rw [hdays]
      refine (hold.paced hfew).insert_last (fun d hd => ?_) ?_ ?_
      · obtain ⟨m, hm, hday⟩ := mem_deliveryDays.1 hd
        obtain ⟨t, ht, rfl⟩ := Option.map_eq_some_iff.1 hday
        exact h.lt_today hdue hm ht
      · generalize ((x.1.today : ℤ) - ad.startDate) * bundle.maxFrequencyPerWeek = n at *
        omega
      · generalize ((x.1.today : ℤ) - 1 - ad.startDate) * bundle.maxFrequencyPerWeek = n at *
        omega
    · intro day
      rw [reached, hcons, filter_append]
      by_cases hday : day = x.1.today
      · subst hday
        rw [h.filter_onDay hdue, append_nil]
        have hrecipients : ((((dispatchAd x.1.activate ε id ad bundle.toTerms).filter
            fun m => m.sentAt.isSome).filter (Message.onDay x.1.today)).map
              Message.profileId).toFinset ⊆
            ((resolveRecipients x.1.activate id bundle.toTerms (ε.profiles id)).map
              Profile.id).toFinset := by
          intro p hp
          obtain ⟨m, hm, rfl⟩ := mem_map.1 (mem_toFinset.1 hp)
          obtain ⟨q, hq, hqid⟩ :=
            (mem_dispatchAd (mem_filter.1 (mem_filter.1 hm).1).1).1
          exact mem_toFinset.2 (mem_map.2 ⟨q, hq, hqid.symm⟩)
        refine (Finset.card_le_card hrecipients).trans ((toFinset_card_le _).trans ?_)
        rw [length_map]
        exact length_take_le _ _
      · have hnone : ((dispatchAd x.1.activate ε id ad bundle.toTerms).filter
            fun m => m.sentAt.isSome).filter (Message.onDay day) = [] := by
          refine filter_eq_nil_iff.2 fun m hm hon => hday ?_
          exact onDay_of_mem_dispatchAd (mem_filter.1 hm).1 hon
        rw [hnone, nil_append]
        exact hold.daily day

theorem Measured.once_step (h : Measured x) (hvalid : ε.valid x.1) (id day p : ℕ)
    (channel : Channel) : (deliveries id (⟨i, x.1, c, (exec x.1 ε c).2⟩ :: x.2)).countP
      (Message.reaches day p channel) ≤ 1 := by
  have hold := h.once id day p channel
  rw [deliveries_cons, countP_append]
  by_cases hsent : (messages ⟨i, x.1, c, (exec x.1 ε c).2⟩).filter
      (fun m => m.sentAt.isSome && m.advertisementId = id) = []
  · rw [hsent, countP_nil, Nat.zero_add]
    exact hold
  · obtain ⟨rfl, ad, bundle, had, hactive, hbundle, hdue, hnew⟩ := delivered_cases id hsent
    rw [hnew]
    by_cases hday : day = x.1.today
    · subst hday
      -- the day of the run: nothing before, and nobody twice
      have hbefore : (deliveries id x.2).countP (Message.reaches x.1.today p channel) = 0 := by
        refine countP_eq_zero.2 fun m hm hreaches => ?_
        rw [Message.reaches, Bool.and_eq_true, Bool.and_eq_true] at hreaches
        exact filter_eq_nil_iff.1 (h.filter_onDay hdue) m hm hreaches.1.1
      obtain ⟨ad₀, had₀, -⟩ := activate_cases had
      have hdrawn : ((ε.profiles id).map Profile.id).Nodup := of_decide_eq_true
        (all_eq_true.1 hvalid id (mem_range.2 (List.getElem?_eq_some_iff.1 had₀).1))
      rw [hbefore, Nat.add_zero]
      refine (filter_sublist.countP_le).trans ?_
      have honce : ((dispatchAd x.1.activate ε id ad bundle.toTerms).map
          fun m => (m.profileId, m.channel)).Nodup := nodup_dispatchAd hdrawn
      have hcount := nodup_iff_count_le_one.1 honce (p, channel)
      rw [List.count, countP_map] at hcount
      refine (countP_mono_left fun m _ hreaches => ?_).trans hcount
      simp only [Message.reaches, Bool.and_eq_true, decide_eq_true_eq] at hreaches
      simp [hreaches.1.2, hreaches.2]
    · have hnone : ((dispatchAd x.1.activate ε id ad bundle.toTerms).filter
          fun m => m.sentAt.isSome).countP (Message.reaches day p channel) = 0 := by
        refine countP_eq_zero.2 fun m hm hreaches => hday ?_
        rw [Message.reaches, Bool.and_eq_true, Bool.and_eq_true] at hreaches
        exact onDay_of_mem_dispatchAd (mem_filter.1 hm).1 hreaches.1.1
      rw [hnone, Nat.zero_add]
      exact hold

theorem Measured.past_step (h : Measured x) :
    ∀ m ∈ (⟨i, x.1, c, (exec x.1 ε c).2⟩ :: x.2 : Log).flatMap messages, ∀ t,
      m.sentAt = some t → t ≤ (exec x.1 ε c).1.now := by
  intro m hm t ht
  refine le_trans ?_ now_le_exec
  rw [flatMap_cons] at hm
  rcases mem_append.1 hm with hm | hm
  · obtain ⟨-, hsentBy⟩ := messages_exec hm
    obtain ⟨ad, bundle, -, -, -, -, hmem⟩ := mem_sentBy hsentBy
    exact ((mem_dispatchAd hmem).2 t ht).le
  · exact h.past m hm t ht

/-- Nothing is sent of a draft. -/
theorem Measured.unsent_step (h : Measured x) (id : ℕ)
    (hdraft : ∀ ad, (exec x.1 ε c).1.ads[id]? = some ad → ad.status = .draft) :
    ∀ m ∈ (⟨i, x.1, c, (exec x.1 ε c).2⟩ :: x.2 : Log).flatMap messages,
      m.advertisementId ≠ id := by
  intro m hm hid
  rw [flatMap_cons] at hm
  rcases mem_append.1 hm with hm | hm
  · obtain ⟨rfl, hsentBy⟩ := messages_exec hm
    obtain ⟨ad, bundle, had, hactive, -⟩ := mem_sentBy hsentBy
    rw [hid] at had
    have hstatus := hdraft ad (by rw [exec, runDispatch_eq]; exact had)
    rw [hactive] at hstatus
    cases hstatus
  · refine h.unsent id (fun ad had => ?_) m hm hid
    obtain ⟨ad', had', hchanges⟩ := exec_ad (ε := ε) (c := c) had
    have hstatus := hdraft ad' had'
    cases hchanges with
    | same | updated | paid => exact hstatus
    | _ => cases hstatus

theorem Measured.step (h : Measured x) (hg : steady x (.step i c ε)) (hvalid : ε.valid x.1) :
    Measured ((exec x.1 ε c).1, ⟨i, x.1, c, (exec x.1 ε c).2⟩ :: x.2) where
  logged := h.logged.step
  known := known_exec h.known
  past := h.past_step
  unsent := h.unsent_step
  within := h.within_step hg
  once := h.once_step hvalid

/-- **An advertiser's pressure is bounded.** In every steady run the days with a successful delivery
of an advertisement number at most `maxFrequencyPerWeek` in any seven consecutive days, on each of
them at most `maxReach` profiles are reached, each at most once per channel, and what the next run
sends does not depend on failed deliveries. -/
theorem pressure_bounded {now : ℕ} {acts : List (Act Cmd Env Empty)}
    {c : Config State Resp Empty}
    (hrun : c ∈ service.traced.run steady (service.traced.idle ({ now }, [])) acts) :
    Bounded c.store := by
  have hstart : Measured (({ now } : World), []) :=
    { logged := by simp [Logged]
      known := fun id ad h => by simp at h
      past := by simp
      unsent := by simp
      within := by simp
      once := by simp [deliveries] }
  have hmeasured : Measured c.store :=
    kept_of_mem_run (fun _ _ _ _ h hg hvalid => h.step hg hvalid) hrun hstart
  refine ⟨fun id ad bundle had hbundle t => ?_, fun id ad bundle had hbundle =>
    (hmeasured.within id ad bundle had hbundle).daily, hmeasured.once,
      hmeasured.logged.sentBy_withoutFailures⟩
  rcases lt_or_ge bundle.maxFrequencyPerWeek 7 with hfew | hmany
  · exact ((hmeasured.within id ad bundle had hbundle).paced hfew).card_window_le t
  · exact (card_window_le_period 7 t _).trans hmany

/-! ### Once a week -/

/-- A bundle for the inbox, once a week. -/
def weeklyBundle : Bundle where
  maxReach := 10
  maxFrequencyPerWeek := 1
  allowedChannels := [.inApp]
  maxDurationDays := 30

/-- An advertisement for four weeks from the first day is paid and approved. -/
def approvedWeekly : List Cmd :=
  [.createBundle weeklyBundle,
    .create { bundleId := 0, title := "Opening", description := "The shop opens on Monday.",
              startDate := dayMs, endDate := 29 * dayMs, dispatchTime := some ⟨0, 0⟩ },
    .confirmPayment 0, .submit 0, .approve 0]

/-- A run from no advertisements, each request at once, with one profile. -/
def runWeekly (g : Guard State Cmd Cmd Env) (requests : List Cmd) :
    Option (Config State Resp Empty) :=
  service.traced.run g (service.traced.idle ({}, []))
    ((approvedWeekly ++ requests).mapIdx fun i c =>
      [.spawn c, .step i { profiles := fun _ => [{ id := 0 }] }]).flatten

theorem pressure_bounded_weekly :
    ∃ c ∈ runWeekly steady [.elapse dayMs, .dispatch, .elapse (7 * dayMs), .dispatch],
      deliveryDays 0 c.store.2 = {1, 8} ∧ Bounded c.store := by
  have hrun : (runWeekly steady [.elapse dayMs, .dispatch, .elapse (7 * dayMs), .dispatch]).map
      (fun c => deliveryDays 0 c.store.2) = some {1, 8} := by
    decide +kernel
  obtain ⟨c, hc, hdays⟩ := Option.map_eq_some_iff.1 hrun
  exact ⟨c, hc, hdays, pressure_bounded hc⟩

/-- After the first batch the advertisement is paused for three weeks. -/
def pausedForWeeks : List Cmd :=
  [.elapse dayMs, .dispatch, .pause 0, .elapse (21 * dayMs), .resume 0, .dispatch, .elapse dayMs,
    .dispatch, .elapse dayMs, .dispatch]

/-- **What goes wrong otherwise.** An advertisement of a weekly bundle goes out on three consecutive
days. -/
theorem pressure_unbounded : (runWeekly Guard.all pausedForWeeks).map (fun c =>
    (c.store.1.bundles.map fun b => b.maxFrequencyPerWeek,
      (window 7 22 (deliveryDays 0 c.store.2)).card)) = some ([1], 3) := by
  decide +kernel

end Rabotka.Ads
