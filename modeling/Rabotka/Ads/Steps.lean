import Rabotka.Lib.Trace
import Rabotka.Ads.Campaigns

/-!
# What a step does

The cases in which an operation changes an advertisement, and what a dispatch sends: the messages
of each active advertisement do not depend on those of the others (`runDispatch_eq`).
-/

namespace Rabotka.Ads

open Async List

/-- A step of this service. -/
abbrev Step := Entry World Resp

/-- The steps of a run. -/
abbrev Log := Trace World Resp

/-- The tables with their steps. -/
abbrev State := Traced World Resp

variable {i j id : ℕ} {w v : World} {ε : Env} {c : Cmd} {ad ad' : Advertisement} {m : Message}

/-! ### Advertisements -/

/-- What a command does to the advertisement `id`. -/
inductive Changes (w : World) (id : ℕ) : Cmd → Advertisement → Advertisement → Prop
  | same (c : Cmd) (ad : Advertisement) : Changes w id c ad ad
  | updated (dto : UpdateAdvertisementDto) (ad : Advertisement) : ad.status ∈ editableStatuses →
      checkUpdate w.bundles dto ad = .ok () → Changes w id (.update id dto) ad (ad.updated dto)
  | paid (ad : Advertisement) :
      Changes w id (.confirmPayment id) ad { ad with paymentStatus := .paid }
  | submitted (ad : Advertisement) : ad.status = .draft → ad.paymentStatus = .paid →
      Changes w id (.submit id) ad { ad with status := .pendingReview }
  | paused (ad : Advertisement) : ad.status = .active →
      Changes w id (.pause id) ad { ad with status := .paused }
  | resumed (ad : Advertisement) : ad.status = .paused →
      Changes w id (.resume id) ad { ad with status := .approved }
  | cancelled (ad : Advertisement) : Changes w id (.cancel id) ad { ad with status := .cancelled }
  | approved (ad : Advertisement) : ad.status = .pendingReview →
      Changes w id (.approve id) ad { ad with status := .approved }
  | rejected (reason : String) (ad : Advertisement) : ad.status = .pendingReview →
      Changes w id (.reject id reason) ad
        { ad with status := .rejected, rejectionReason := some reason }
  | activated (c : Cmd) (ad : Advertisement) : ad.status = .approved → ad.startDate ≤ w.today →
      Changes w id c ad { ad with status := .active }
  | completed (ad : Advertisement) : ad.status = .approved ∨ ad.status = .active →
      Changes w id .lifecycle ad { ad with status := .completed }

variable {f : Advertisement → Except String Advertisement}

theorem change_other (h : j ≠ id) : (w.change id f).1.ads[j]? = w.ads[j]? := by
  unfold World.change
  split
  · rfl
  · split
    · rfl
    · exact getElem?_set_ne h.symm

/-- An operation on the advertisement changes it as it says, or not at all. -/
theorem change_self (hr : w.ads[id]? = some ad) :
    ((w.change id f).1.ads[id]? = some ad ∧ ∃ message, (w.change id f).2 = .error message) ∨
      ∃ ad', f ad = .ok ad' ∧ (w.change id f).1.ads[id]? = some ad' ∧
        (w.change id f).2 = .ok () := by
  cases hf : f ad with
  | error message =>
    simp only [World.change, hr, hf]
    exact .inl ⟨trivial, message, rfl⟩
  | ok ad' =>
    simp only [World.change, hr, hf]
    exact .inr ⟨ad', rfl, getElem?_set_self (List.getElem?_eq_some_iff.1 hr).1, trivial⟩

theorem changes_change
    (hr : w.ads[j]? = some ad) (hf : ∀ ad', id = j → f ad = .ok ad' → Changes w j c ad ad') :
    ∃ ad', (w.change id f).1.ads[j]? = some ad' ∧ Changes w j c ad ad' := by
  by_cases h : id = j
  · subst h
    rcases change_self (f := f) hr with ⟨hsame, -⟩ | ⟨ad', hok, hnew, -⟩
    · exact ⟨ad, hsame, .same c ad⟩
    · exact ⟨ad', hnew, hf ad' rfl hok⟩
  · exact ⟨ad, (change_other (Ne.symm h)).trans hr, .same c ad⟩

/-- An operation that is refused in one case. -/
theorem changes_if {p : Prop} [Decidable p]
    {message : String} (hf : f ad = if p then .error message else .ok ad')
    (hr : w.ads[j]? = some ad) (h : id = j → ¬ p → Changes w j c ad ad') :
    ∃ ad', (w.change id f).1.ads[j]? = some ad' ∧ Changes w j c ad ad' := by
  refine changes_change hr fun ad₁ hid hok => ?_
  rw [hf] at hok
  split at hok
  · cases hok
  · rename_i hp
    exact Except.ok.inj hok ▸ h hid hp

theorem getElem?_activate (w : World) (id : ℕ) : w.activate.ads[id]? = (w.ads[id]?).map fun a =>
      if a.status = .approved && a.startDate ≤ w.today then { a with status := .active } else a :=
  Table.getElem?_updateMany _ _ _ _

/-- An active advertisement was active, or it is approved and has begun. -/
theorem activate_cases (hr : w.activate.ads[id]? = some ad') :
    ∃ ad, w.ads[id]? = some ad ∧ ∀ c, Changes w id c ad ad' := by
  rw [getElem?_activate, Option.map_eq_some_iff] at hr
  obtain ⟨ad, had, rfl⟩ := hr
  refine ⟨ad, had, fun c => ?_⟩
  split
  · rename_i hstarted
    rw [Bool.and_eq_true, decide_eq_true_eq, decide_eq_true_eq] at hstarted
    exact .activated c ad hstarted.1 hstarted.2
  · exact .same c ad

theorem exec_activate (hr : w.ads[id]? = some ad) :
    ∃ ad', w.activate.ads[id]? = some ad' ∧ ∀ c, Changes w id c ad ad' := by
  have hnew : w.activate.ads[id]? = some _ := (getElem?_activate w id).trans (by rw [hr]; rfl)
  obtain ⟨ad₀, had₀, hchanges⟩ := activate_cases hnew
  rw [hr] at had₀
  obtain rfl := Option.some.inj had₀
  exact ⟨_, hnew, hchanges⟩

theorem ads_dispatchAll (ε : Env) (w : World) (l : List (ℕ × Advertisement)) :
    (dispatchAll ε w l).1.ads = w.ads ∧ (dispatchAll ε w l).1.bundles = w.bundles ∧
      (dispatchAll ε w l).1.now = w.now := by
  induction l generalizing w with
  | nil => exact ⟨rfl, rfl, rfl⟩
  | cons z l ih => exact ih _

/-- Every advertisement stays, and is changed as the command says. -/
theorem exec_ad (hr : w.ads[j]? = some ad) :
    ∃ ad', (exec w ε c).1.ads[j]? = some ad' ∧ Changes w j c ad ad' := by
  cases c with
  | create dto =>
    simp only [exec]
    split
    · exact ⟨ad, hr, .same _ ad⟩
    · exact ⟨ad, by rw [getElem?_append_left (List.getElem?_eq_some_iff.1 hr).1, hr],
        .same _ ad⟩
  | update id dto =>
    refine changes_change hr fun ad' h hok => ?_
    simp only [update, bind, Except.bind, pure, Except.pure] at hok
    split at hok
    · cases hok
    · rename_i heditable
      split at hok
      · cases hok
      · rename_i hcheck
        obtain rfl := Except.ok.inj hok
        exact h ▸ .updated dto ad (not_not.1 heditable) hcheck
  | confirmPayment id => exact changes_if rfl hr fun h _ => h ▸ .paid ad
  | submit id =>
    refine changes_change hr fun ad' h hok => ?_
    simp only [submit] at hok
    split at hok
    · cases hok
    · rename_i hdraft
      split at hok
      · cases hok
      · rename_i hpaid
        obtain rfl := Except.ok.inj hok
        exact h ▸ .submitted ad (not_not.1 hdraft) (not_not.1 hpaid)
  | pause id => exact changes_if rfl hr fun h hp => h ▸ .paused ad (not_not.1 hp)
  | resume id => exact changes_if rfl hr fun h hp => h ▸ .resumed ad (not_not.1 hp)
  | cancel id => exact changes_if rfl hr fun h _ => h ▸ .cancelled ad
  | approve id => exact changes_if rfl hr fun h hp => h ▸ .approved ad (not_not.1 hp)
  | reject id reason => exact changes_if rfl hr fun h hp => h ▸ .rejected reason ad (not_not.1 hp)
  | createBundle | elapse => exact ⟨ad, hr, .same _ ad⟩
  | updateBundle id dto =>
    simp only [exec]
    split <;> exact ⟨ad, hr, .same _ ad⟩
  | lifecycle =>
    obtain ⟨ad', had', hchanges⟩ := exec_activate hr
    have hcomplete : (runLifecycle w).ads[j]? = (w.activate.ads[j]?).map fun a =>
        if a.status = .active && a.endDate < w.activate.today then { a with status := .completed }
        else a := Table.getElem?_updateMany _ _ _ _
    rw [had', Option.map_some] at hcomplete
    refine ⟨_, hcomplete, ?_⟩
    split
    · rename_i hover
      rw [Bool.and_eq_true, decide_eq_true_eq, decide_eq_true_eq] at hover
      cases hchanges .lifecycle with
      | same => exact .completed ad (.inr hover.1)
      | activated _ _ happroved _ => exact .completed ad (.inl happroved)
      | completed _ _ => cases hover.1
    · exact hchanges .lifecycle
  | dispatch =>
    obtain ⟨ad', had', hchanges⟩ := exec_activate hr
    refine ⟨ad', ?_, hchanges .dispatch⟩
    rw [exec, runDispatch, (ads_dispatchAll ε w.activate w.activate.activeAds).1]
    exact had'

theorem create_ok {dto : CreateAdvertisementDto} (h : create w.bundles dto = .ok ad) :
    ad.status = .draft ∧ ad.paymentStatus = .unpaid ∧
      ∃ bundle, w.bundles[ad.bundleId]? = some bundle := by
  simp only [create, bind, Except.bind, pure, Except.pure] at h
  split at h
  · cases h
  · rename_i bundle hbundle
    split at h
    · cases h
    · obtain rfl := Except.ok.inj h
      refine ⟨rfl, rfl, bundle, ?_⟩
      simp only [requireBundle] at hbundle
      split at hbundle
      · cases hbundle
      · rename_i b hb
        split at hbundle
        · exact Except.ok.inj hbundle ▸ hb
        · cases hbundle

theorem length_change : (w.change id f).1.ads.length = w.ads.length := by
  unfold World.change
  split
  · rfl
  · split
    · rfl
    · exact length_set

theorem length_activate : w.activate.ads.length = w.ads.length := by
  simp [World.activate, Table.updateMany]

/-- An advertisement that is there was there, or it is a new draft. -/
theorem ad_of_exec (hr : (exec w ε c).1.ads[j]? = some ad') :
    (∃ ad, w.ads[j]? = some ad ∧ Changes w j c ad ad') ∨
      j = w.ads.length ∧ ∃ dto, c = .create dto ∧ create w.bundles dto = .ok ad' := by
  cases hold : w.ads[j]? with
  | some ad =>
    obtain ⟨ad₁, hnew, hchanges⟩ := exec_ad (ε := ε) (c := c) hold
    rw [hr] at hnew
    exact .inl ⟨ad, rfl, Option.some.inj hnew ▸ hchanges⟩
  | none =>
    have hlt := (List.getElem?_eq_some_iff.1 hr).1
    have hge := List.getElem?_eq_none_iff.1 hold
    have hsame : (exec w ε c).1.ads.length = w.ads.length →
        (∃ ad, none = some ad ∧ Changes w j c ad ad') ∨
          j = w.ads.length ∧ ∃ dto, c = .create dto ∧ create w.bundles dto = .ok ad' :=
      fun h => absurd hlt (not_lt.2 (h ▸ hge))
    cases c with
    | create dto =>
      simp only [exec] at hr hlt
      split at hr
      · rw [hold] at hr
        cases hr
      · rename_i ad hok
        have hj : j = w.ads.length := by
          simp only [hok, length_append, length_singleton] at hlt
          omega
        subst hj
        rw [getElem?_concat_length] at hr
        exact .inr ⟨rfl, dto, rfl, Option.some.inj hr ▸ hok⟩
    | createBundle | elapse => exact hsame rfl
    | updateBundle id dto =>
      refine hsame ?_
      simp only [exec]
      split <;> rfl
    | lifecycle => exact hsame (by simp [exec, runLifecycle, World.complete, length_activate,
        Table.updateMany])
    | dispatch => exact hsame (by rw [exec, runDispatch, (ads_dispatchAll _ _ _).1,
        length_activate])
    | _ => exact hsame length_change

/-! ### Bundles -/

theorem bundles_change : (w.change id f).1.bundles = w.bundles := by
  unfold World.change
  split
  · rfl
  · split <;> rfl

/-- Every bundle stays, and only `updateBundle` changes it. -/
theorem exec_bundle {bundle : Bundle} (hr : w.bundles[j]? = some bundle) :
    ∃ bundle', (exec w ε c).1.bundles[j]? = some bundle' ∧
      (bundle' = bundle ∨ ∃ dto, c = .updateBundle j dto ∧ bundle' = bundle.updated dto) := by
  cases c with
  | create dto =>
    simp only [exec]
    split <;> exact ⟨bundle, hr, .inl rfl⟩
  | createBundle b =>
    exact ⟨bundle, by rw [exec, getElem?_append_left (List.getElem?_eq_some_iff.1 hr).1, hr],
      .inl rfl⟩
  | updateBundle id dto =>
    simp only [exec]
    split
    · exact ⟨bundle, hr, .inl rfl⟩
    · rename_i b hb
      by_cases h : id = j
      · subst h
        rw [hr] at hb
        obtain rfl := Option.some.inj hb
        exact ⟨_, getElem?_set_self (List.getElem?_eq_some_iff.1 hr).1, .inr ⟨dto, rfl, rfl⟩⟩
      · exact ⟨bundle, (getElem?_set_ne h).trans hr, .inl rfl⟩
  | lifecycle | elapse => exact ⟨bundle, hr, .inl rfl⟩
  | dispatch =>
    refine ⟨bundle, ?_, .inl rfl⟩
    rw [exec, runDispatch, (ads_dispatchAll _ _ _).2.1]
    exact hr
  | _ => exact ⟨bundle, by rw [exec, bundles_change, hr], .inl rfl⟩

/-- Every advertisement has a bundle. -/
def World.Known (w : World) : Prop := ∀ (id : ℕ) (ad : Advertisement), w.ads[id]? = some ad →
  ∃ bundle, w.bundles[ad.bundleId]? = some bundle

theorem known_exec (h : w.Known) : (exec w ε c).1.Known := by
  intro id ad' hr
  have hstays : ∀ k : ℕ, (∃ bundle, w.bundles[k]? = some bundle) →
      ∃ bundle, (exec w ε c).1.bundles[k]? = some bundle := by
    rintro k ⟨bundle, hbundle⟩
    obtain ⟨bundle', hbundle', -⟩ := exec_bundle (ε := ε) (c := c) hbundle
    exact ⟨bundle', hbundle'⟩
  rcases ad_of_exec hr with ⟨ad, had, hchanges⟩ | ⟨-, dto, -, hok⟩
  · have hknown := hstays _ (h id ad had)
    cases hchanges with
    | updated dto _ heditable hcheck =>
      refine hstays _ ?_
      by_cases hnew : dto.bundleId.any (· ≠ ad.bundleId)
      · rw [checkUpdate, if_pos hnew] at hcheck
        simp only [requireBundle, bind, Except.bind] at hcheck
        simp only [Advertisement.updated]
        split at hcheck
        · cases hcheck
        · rename_i hrequire
          split at hrequire
          · cases hrequire
          · rename_i bundle hbundle
            exact ⟨bundle, hbundle⟩
      · have hsame : (ad.updated dto).bundleId = ad.bundleId := by
          cases hb : dto.bundleId with
          | none => simp [Advertisement.updated, hb]
          | some k =>
            have hk : k = ad.bundleId := by simpa [hb] using hnew
            simp [Advertisement.updated, hb, hk]
        rw [hsame]
        exact h id ad had
    | _ => exact hknown
  · exact hstays _ (create_ok hok).2.2

theorem now_change : (w.change id f).1.now = w.now := by
  unfold World.change
  split
  · rfl
  · split <;> rfl

theorem now_le_exec : w.now ≤ (exec w ε c).1.now := by
  cases c with
  | create | updateBundle =>
    simp only [exec]
    split <;> exact le_rfl
  | dispatch =>
    rw [exec, runDispatch, (ads_dispatchAll _ _ _).2.2]
    exact le_rfl
  | elapse milliseconds => exact Nat.le_add_right _ _
  | createBundle | lifecycle => exact le_rfl
  | _ => exact now_change.ge

/-! ### Dispatches -/

variable {z : ℕ × Advertisement}

/-- What is sent of an advertisement depends on its own rows of the log only. -/
theorem dispatchOne_congr {extra : List DeliveryLog} (h : ∀ r ∈ extra, r.advertisementId ≠ z.1) :
    dispatchOne { w with logs := w.logs ++ extra } ε z = dispatchOne w ε z := by
  have hany : extra.any (fun r => r.advertisementId = z.1 && r.sentSince (w.today * dayMs)) =
      false := any_eq_false.2 fun r hr => by simp [h r hr]
  have hsince : extra.filter (fun r => r.advertisementId = z.1 && r.sentSince (w.today * dayMs)) =
      [] := filter_eq_nil_iff.2 fun r hr => by simp [h r hr]
  have hsent : extra.filter (fun r => r.advertisementId = z.1 && r.status = .sent) = [] :=
    filter_eq_nil_iff.2 fun r hr => by simp [h r hr]
  have hdue : ∀ terms, isDispatchDue { w with logs := w.logs ++ extra } z.1 z.2 terms =
      isDispatchDue w z.1 z.2 terms := fun terms => by
    simp only [isDispatchDue, World.today, sentDays, any_append, filter_append] at *
    rw [hany, hsent, Bool.or_false, append_nil]
    rfl
  have hrecipients : ∀ terms profiles,
      resolveRecipients { w with logs := w.logs ++ extra } z.1 terms profiles =
        resolveRecipients w z.1 terms profiles := fun terms profiles => by
    simp only [resolveRecipients, World.today, filter_append] at *
    rw [hsince, append_nil]
    rfl
  unfold dispatchOne dispatchAd
  simp only [hdue, hrecipients]

theorem id_of_mem_dispatchOne (h : m ∈ dispatchOne w ε z) : m.advertisementId = z.1 := by
  unfold dispatchOne at h
  split at h
  · cases h
  · split at h
    · obtain ⟨p, -, hm⟩ := mem_flatMap.1 h
      obtain ⟨channel, -, rfl⟩ := mem_map.1 hm
      rfl
    · cases h

/-- The messages of a dispatch, as if each advertisement were sent alone. -/
theorem dispatchAll_eq (l : List (ℕ × Advertisement)) (hl : (l.map Prod.fst).Nodup) :
    dispatchAll ε w l = ({ w with
      logs := w.logs ++ (l.flatMap (dispatchOne w ε)).map Message.log },
        l.flatMap (dispatchOne w ε)) := by
  induction l generalizing w with
  | nil => simp [dispatchAll]
  | cons z l ih =>
    obtain ⟨hz, hl⟩ := nodup_cons.1 hl
    have hother : l.flatMap (dispatchOne
        { w with logs := w.logs ++ (dispatchOne w ε z).map Message.log } ε) =
          l.flatMap (dispatchOne w ε) := by
      refine flatMap_congr fun y hy => dispatchOne_congr fun r hr => ?_
      obtain ⟨m, hm, rfl⟩ := mem_map.1 hr
      have hne : y.1 ≠ z.1 := fun h => hz (mem_map.2 ⟨y, hy, h⟩)
      exact fun h => hne (h.symm.trans (id_of_mem_dispatchOne hm))
    rw [dispatchAll, ih hl]
    simp only [hother, flatMap_cons, map_append, append_assoc]

/-- What a dispatch sends. -/
def sentBy (w : World) (ε : Env) : List Message :=
  w.activate.activeAds.flatMap (dispatchOne w.activate ε)

theorem runDispatch_eq (ε : Env) (w : World) : runDispatch ε w =
    ({ w.activate with logs := w.logs ++ (sentBy w ε).map Message.log }, sentBy w ε) :=
  dispatchAll_eq _ (Table.nodup_findMany _ _)

/-- A message is of an active advertisement that is due, to a recipient of it. -/
theorem mem_sentBy (h : m ∈ sentBy w ε) : ∃ ad bundle, w.activate.ads[m.advertisementId]? = some ad ∧
    ad.status = .active ∧ w.bundles[ad.bundleId]? = some bundle ∧
      isDispatchDue w.activate m.advertisementId ad bundle.toTerms ∧
        m ∈ dispatchAd w.activate ε m.advertisementId ad bundle.toTerms := by
  obtain ⟨⟨id, ad⟩, had, hm⟩ := mem_flatMap.1 h
  obtain rfl : m.advertisementId = id := id_of_mem_dispatchOne hm
  obtain ⟨hrow, hactive⟩ := Table.mem_findMany.1 had
  unfold dispatchOne at hm
  split at hm
  · cases hm
  · rename_i bundle hbundle
    split at hm
    · rename_i hdue
      exact ⟨ad, bundle, hrow, of_decide_eq_true hactive, hbundle, hdue, hm⟩
    · cases hm

/-- The messages of one advertisement among those of several. -/
theorem filter_flatMap_dispatchOne {l : List (ℕ × Advertisement)} (hl : (l.map Prod.fst).Nodup)
    (hz : z ∈ l) :
    (l.flatMap (dispatchOne w ε)).filter (fun m => m.advertisementId = z.1) =
      dispatchOne w ε z := by
  have hother : ∀ y : ℕ × Advertisement, y.1 ≠ z.1 →
      (dispatchOne w ε y).filter (fun m => m.advertisementId = z.1) = [] := fun y hy =>
    filter_eq_nil_iff.2 fun m hm => by simpa [id_of_mem_dispatchOne hm] using hy
  have hself : (dispatchOne w ε z).filter (fun m => m.advertisementId = z.1) = dispatchOne w ε z :=
    filter_eq_self.2 fun m hm => by simpa using id_of_mem_dispatchOne hm
  induction l with
  | nil => cases hz
  | cons y l ih =>
    obtain ⟨hy, hl⟩ := nodup_cons.1 hl
    rw [flatMap_cons, filter_append]
    rcases mem_cons.1 hz with rfl | hz
    · have hnone : (l.flatMap (dispatchOne w ε)).filter (fun m => m.advertisementId = z.1) = [] :=
        filter_eq_nil_iff.2 fun m hm => by
          obtain ⟨u, hu, hmu⟩ := mem_flatMap.1 hm
          have hne : u.1 ≠ z.1 := fun h => hy (mem_map.2 ⟨u, hu, h⟩)
          simpa [id_of_mem_dispatchOne hmu] using hne
      rw [hself, hnone, append_nil]
    · rw [hother y fun h => hy (mem_map.2 ⟨z, hz, h.symm⟩), nil_append, ih hl hz]

/-- A message of a dispatch goes to a recipient, at the instant of the run if it goes out. -/
theorem mem_dispatchAd {terms : Terms} (h : m ∈ dispatchAd w ε id ad terms) :
    (∃ p ∈ resolveRecipients w id terms (ε.profiles id), m.profileId = p.id) ∧
      ∀ t, m.sentAt = some t → t = w.now := by
  obtain ⟨p, hp, hm⟩ := mem_flatMap.1 h
  obtain ⟨channel, -, rfl⟩ := mem_map.1 hm
  refine ⟨⟨p, hp, rfl⟩, fun t ht => ?_⟩
  split at ht
  · exact (Option.some.inj ht).symm
  · cases ht

/-- No profile gets two messages of a dispatch on one channel. -/
theorem nodup_dispatchAd {terms : Terms} (h : ((ε.profiles id).map Profile.id).Nodup) :
    ((dispatchAd w ε id ad terms).map fun m => (m.profileId, m.channel)).Nodup := by
  have hrecipients : ((resolveRecipients w id terms (ε.profiles id)).map Profile.id).Nodup :=
    h.sublist (((take_sublist _ _).trans filter_sublist).map _)
  have hchannels : ∀ p, (deliverableChannels (normalizeChannels terms.allowedChannels) p).Nodup :=
    fun p => Nodup.filter _ (nodup_reverse.2 (nodup_dedup _))
  have hmap : (dispatchAd w ε id ad terms).map (fun m => (m.profileId, m.channel)) =
      (resolveRecipients w id terms (ε.profiles id)).flatMap fun p =>
        (deliverableChannels (normalizeChannels terms.allowedChannels) p).map fun channel =>
          (p.id, channel) := by
    simp [dispatchAd, map_flatMap, Function.comp_def]
  rw [hmap, nodup_flatMap]
  refine ⟨fun p _ => (hchannels p).map fun a b hab => (Prod.mk.inj hab).2, ?_⟩
  refine (pairwise_map.1 hrecipients).imp fun hne => ?_
  refine disjoint_left.2 fun a ha hb => ?_
  obtain ⟨channel, -, rfl⟩ := mem_map.1 ha
  obtain ⟨channel', -, heq⟩ := mem_map.1 hb
  exact hne (Prod.mk.inj heq).1.symm

/-- The messages that a step sends. -/
def messages : Step → List Message
  | ⟨_, _, .dispatch, sent⟩ => sent
  | _ => []

theorem messages_exec (h : m ∈ messages ⟨i, w, c, (exec w ε c).2⟩) :
    c = .dispatch ∧ m ∈ sentBy w ε := by
  cases c with
  | dispatch =>
    refine ⟨rfl, ?_⟩
    rwa [messages, exec, runDispatch_eq] at h
  | _ => cases h

/-! ### Runs -/

/-- What the operations keep to: nothing is asked of a single command. -/
def contract : Contract service where
  inv _ := True
  pre _ _ _ := True
  sound _ _ _ := trivial

theorem handles (g : Guard State Cmd Cmd Env) : contract.HandlesTo g fun _ _ => True := by
  intro c i
  have hspec : (contract.disciplineUnder g).Triple i (fun _ => True) (service.handler c)
      (fun _ _ => True) fun _ _ => True :=
    .bind (.cmd (Discipline.stable_const True) (fun _ _ _ => trivial)
      (fun _ _ _ _ _ _ _ _ _ => trivial) fun _ _ _ _ _ => trivial) fun _ =>
        .ret fun _ _ h => h
  exact hspec.pre_mono fun _ _ _ => trivial

/-- What holds at the start and is kept by every admitted step holds along every run. -/
theorem kept_of_mem_run {g : Guard State Cmd Cmd Env} {J : State → Prop}
    (hJ : ∀ x i c ε, J x → g x (.step i c ε) → ε.valid x.1 →
      J ((exec x.1 ε c).1, ⟨i, x.1, c, (exec x.1 ε c).2⟩ :: x.2))
    {s : World} {acts : List (Act Cmd Env Empty)} {c : Config State Resp Empty}
    (hrun : c ∈ service.traced.run g (service.traced.idle (s, [])) acts) (h₀ : J (s, [])) :
    J c.store := by
  have hstep : ∀ (x : State) i cmd ε v r, True → J x → True → g x (.step i cmd ε) →
      service.exec x.1 i cmd ε = some (v, r) → J (v, ⟨i, x.1, cmd, r⟩ :: x.2) := by
    intro x i cmd ε v r _ hx _ hg hexec
    obtain ⟨hvalid, hexec⟩ := Option.ite_none_right_eq_some.1 hexec
    obtain ⟨rfl, rfl⟩ := pair_inj hexec
    exact hJ x i cmd ε hx hg hvalid
  exact (Contract.obeys_of_mem_run (handles g) (fun _ => Discipline.stable_const True)
    (fun _ _ h => h) hstep hrun trivial h₀).1.2

end Rabotka.Ads
