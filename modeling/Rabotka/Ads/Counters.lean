import Rabotka.Ads.Clicks

/-!
# The counters match

Between two calls `total_opened` lags behind the deliveries by the dismissals that have set
`opened_at` and not yet counted (`owed`); `total_clicks` never lags, as a click counts in one
transaction. A click that commits on the row it has read adds one opening exactly if it opens the
delivery. Two clicks that have read the same unopened row both add one.
-/

namespace Rabotka.Ads.Clicks

open Table List

variable {w w' : World} {c c' : Call} {e : Event} {i : ℕ} {sent : Bool}

/-! ### Sums -/

/-- The openings that a call still has to count. -/
def owed (deliveries : List Delivery) (id : ℕ) : Call → ℤ
  | .looking deliveryId =>
    if deliveries[deliveryId]?.any fun d => d.advertisementId = id then 1 else 0
  | .counting advertisementId => if advertisementId = id then 1 else 0
  | _ => 0

def openings (id : ℕ) (d : Delivery) : ℤ :=
  if d.advertisementId = id ∧ d.openedAt.isSome then 1 else 0

def clicks (id : ℕ) (l : TrackedLink) : ℤ := if l.advertisementId = id then l.clickCount else 0

theorem sumBy_openings (id : ℕ) (t : List Delivery) : sumBy (fun _ => openings id) t =
      t.countP fun d => d.advertisementId = id ∧ d.openedAt.isSome := by
  induction t using reverseRecOn with
  | nil => rfl
  | append_singleton t d ih =>
    rw [sumBy_concat, ih, countP_append, countP_singleton, openings]
    split_ifs <;> simp_all

theorem sumBy_clicks (id : ℕ) (t : List TrackedLink) : sumBy (fun _ => clicks id) t =
      (((t.filter fun l => l.advertisementId = id).map TrackedLink.clickCount).sum : ℕ) := by
  induction t using reverseRecOn with
  | nil => rfl
  | append_singleton t l ih =>
    rw [sumBy_concat, ih, filter_append, map_append, sum_append, clicks]
    split_ifs with h <;> simp [h]

/-! ### What every step keeps -/

/-- What a call knows of the tables. -/
def Sound (w : World) : Call → Prop
  | .reading link advertisementId deliveryLogId _
  | .committing link advertisementId deliveryLogId _ _ _ =>
    ∃ l, w.links[link]? = some l ∧ l.advertisementId = advertisementId ∧
      l.deliveryLogId = deliveryLogId
  | .looking deliveryId => ∃ d, w.deliveries[deliveryId]? = some d
  | .counting advertisementId => advertisementId < w.ads.length
  | .tracking deliveryLogId advertisementId _ =>
    ∃ d, w.deliveries[deliveryLogId]? = some d ∧ d.advertisementId = advertisementId
  | _ => True

/-- The rows refer to rows, the calls know what they know, and the counters lag behind by what is
owed. -/
structure Inv (w : World) : Prop where
  link : ∀ (id : ℕ) l, w.links[id]? = some l → ∃ d, w.deliveries[l.deliveryLogId]? = some d ∧
    d.advertisementId = l.advertisementId
  delivery : ∀ (id : ℕ) d, w.deliveries[id]? = some d → d.advertisementId < w.ads.length
  sound : ∀ (i : ℕ) c, w.calls[i]? = some c → Sound w c
  opened : ∀ (id : ℕ) a, w.ads[id]? = some a →
    (a.totalOpened : ℤ) + sumBy (fun _ => owed w.deliveries id) w.calls =
      sumBy (fun _ => openings id) w.deliveries
  clicked : ∀ (id : ℕ) a, w.ads[id]? = some a →
    (a.totalClicks : ℤ) = sumBy (fun _ => clicks id) w.links

/-- Rows stay, with what they refer to. -/
structure Extends (w w' : World) : Prop where
  ads : w'.ads.length = w.ads.length
  deliveries : Grows Delivery.advertisementId w.deliveries w'.deliveries
  links : Grows (fun l => (l.advertisementId, l.deliveryLogId)) w.links w'.links

theorem Extends.refl (w : World) : Extends w w := ⟨rfl, .refl _ _, .refl _ _⟩

theorem Sound.extend (h : Sound w c) (hw : Extends w w') : Sound w' c := by
  have hlink : ∀ link advertisementId deliveryLogId : ℕ,
      (∃ l : TrackedLink, w.links[link]? = some l ∧ l.advertisementId = advertisementId ∧
        l.deliveryLogId = deliveryLogId) →
      ∃ l : TrackedLink, w'.links[link]? = some l ∧ l.advertisementId = advertisementId ∧
        l.deliveryLogId = deliveryLogId := by
    rintro link _ _ ⟨l, hl, rfl, rfl⟩
    obtain ⟨l', hl', hkey⟩ := hw.links link l hl
    exact ⟨l', hl', (Prod.mk.inj hkey).1, (Prod.mk.inj hkey).2⟩
  cases c with
  | reading | committing => exact hlink _ _ _ h
  | looking deliveryId =>
    obtain ⟨d, hd⟩ := h
    obtain ⟨d', hd', -⟩ := hw.deliveries deliveryId d hd
    exact ⟨d', hd'⟩
  | counting advertisementId =>
    rw [Sound, hw.ads]
    exact h
  | tracking deliveryLogId advertisementId urls =>
    obtain ⟨d, hd, rfl⟩ := h
    obtain ⟨d', hd', hkey⟩ := hw.deliveries deliveryLogId d hd
    exact ⟨d', hd', hkey⟩
  | finding | seeing | sending | done => trivial

/-- What a sound call owes does not change. -/
theorem owed_extend (h : Sound w c) (hw : Extends w w') (id : ℕ) :
    owed w'.deliveries id c = owed w.deliveries id c := by
  cases c with
  | looking deliveryId =>
    obtain ⟨d, hd⟩ := h
    obtain ⟨d', hd', hkey⟩ := hw.deliveries deliveryId d hd
    simp only [owed, hd, hd', Option.any_some, hkey]
  | finding | reading | committing | seeing | counting | sending | tracking | done => rfl

/-- **A step of a call** keeps the invariant if the new rows refer to rows, the call knows what it
knows, and the counters of an advertisement go up by what the openings and clicks do, less what the
call owes from now on. -/
theorem Inv.of_next (h : Inv w) (w' : World) (hi : w.calls[i]? = some c) (hcalls : w'.calls = w.calls)
    (hw : Extends w w') (hsound : Sound w' c')
    (hlink : ∀ (id : ℕ) l, w'.links[id]? = some l → ∃ d, w'.deliveries[l.deliveryLogId]? = some d ∧
      d.advertisementId = l.advertisementId)
    (hdelivery : ∀ (id : ℕ) d, w'.deliveries[id]? = some d → d.advertisementId < w.ads.length)
    (hads : ∀ (id : ℕ) a', w'.ads[id]? = some a' → ∃ a, w.ads[id]? = some a ∧
      (a'.totalOpened : ℤ) - a.totalOpened + owed w'.deliveries id c' - owed w.deliveries id c =
        sumBy (fun _ => openings id) w'.deliveries - sumBy (fun _ => openings id) w.deliveries ∧
      (a'.totalClicks : ℤ) - a.totalClicks =
        sumBy (fun _ => clicks id) w'.links - sumBy (fun _ => clicks id) w.links) :
    Inv { w' with calls := w'.calls.set i c' } where
  link := hlink
  delivery := by
    dsimp only
    rw [hw.ads]
    exact hdelivery
  sound j d hj := by
    dsimp only at hj
    have hnext : Sound w' d := by
      rcases eq_or_ne i j with rfl | hne
      · rw [hcalls, getElem?_set_self (List.getElem?_eq_some_iff.mp hi).1, Option.some_inj] at hj
        rwa [← hj]
      · rw [hcalls, getElem?_set_ne hne] at hj
        exact (h.sound j d hj).extend hw
    exact hnext.extend ⟨rfl, .refl _ _, .refl _ _⟩
  opened id a' ha' := by
    obtain ⟨a, ha, hopened, -⟩ := hads id a' ha'
    have hold := h.opened id a ha
    have hsame : sumBy (fun _ => owed w'.deliveries id) w.calls =
        sumBy (fun _ => owed w.deliveries id) w.calls :=
      sumBy_congr fun j d hj => owed_extend (h.sound j d hj) hw id
    have hnow : owed w'.deliveries id c = owed w.deliveries id c :=
      owed_extend (h.sound i c hi) hw id
    dsimp only
    rw [hcalls, sumBy_set hi, hsame, hnow]
    omega
  clicked id a' ha' := by
    obtain ⟨a, ha, -, hclicked⟩ := hads id a' ha'
    have hold := h.clicked id a ha
    dsimp only
    omega

/-- A step of a call that leaves the tables and owes what it owed. -/
theorem Inv.of_same (h : Inv w) (hi : w.calls[i]? = some c) (hsound : Sound w c')
    (howed : ∀ id, owed w.deliveries id c' = owed w.deliveries id c) :
    Inv { w with calls := w.calls.set i c' } :=
  h.of_next w hi rfl (.refl w) hsound h.link h.delivery fun id a ha =>
    ⟨a, ha, by rw [howed]; ring, by ring⟩

/-- A delivery that is changed without its advertisement. -/
theorem Inv.link_of_grows (h : Inv w) {deliveries : List Delivery}
    (hgrows : Grows Delivery.advertisementId w.deliveries deliveries) (id : ℕ) (l : TrackedLink)
    (hl : w.links[id]? = some l) : ∃ d, deliveries[l.deliveryLogId]? = some d ∧
      d.advertisementId = l.advertisementId := by
  obtain ⟨d, hd, hkey⟩ := h.link id l hl
  obtain ⟨d', hd', hkey'⟩ := hgrows l.deliveryLogId d hd
  exact ⟨d', hd', hkey'.trans hkey⟩

/-- What a table has at a place after one row was set. -/
theorem getElem?_set_some {α : Type*} {t : List α} {i j : ℕ} {r r' s : α} (hr : t[i]? = some r) :
    (t.set i r')[j]? = some s ↔ j = i ∧ s = r' ∨ j ≠ i ∧ t[j]? = some s := by
  obtain ⟨hlt, -⟩ := List.getElem?_eq_some_iff.mp hr
  rcases eq_or_ne j i with rfl | hne
  · simp [getElem?_set_self hlt, eq_comm]
  · simp [getElem?_set_ne hne.symm, hne]

theorem grows_set {d : Delivery} (hd : w.deliveries[i]? = some d) (d' : Delivery)
    (hkey : d'.advertisementId = d.advertisementId) :
    Grows Delivery.advertisementId w.deliveries (w.deliveries.set i d') := by
  intro j r hr
  rcases eq_or_ne j i with rfl | hne
  · rw [hd, Option.some_inj] at hr
    subst hr
    exact ⟨d', (getElem?_set_some hd).mpr (Or.inl ⟨rfl, rfl⟩), hkey⟩
  · exact ⟨r, (getElem?_set_some hd).mpr (Or.inr ⟨hne, hr⟩), rfl⟩

theorem Inv.delivery_set (h : Inv w) {d d' : Delivery} (hd : w.deliveries[i]? = some d)
    (hkey : d'.advertisementId = d.advertisementId) (id : ℕ) (r : Delivery)
    (hr : (w.deliveries.set i d')[id]? = some r) : r.advertisementId < w.ads.length := by
  rcases (getElem?_set_some hd).mp hr with ⟨-, rfl⟩ | ⟨-, hr⟩
  · rw [hkey]
    exact h.delivery i d hd
  · exact h.delivery id r hr

/-! ### Each command -/

/-- The advertisement of a sum over the deliveries, after one of them has changed. -/
theorem sumBy_openings_set {d : Delivery} (hd : w.deliveries[i]? = some d) (d' : Delivery)
    (id : ℕ) :
    sumBy (fun _ => openings id) (w.deliveries.set i d') -
      sumBy (fun _ => openings id) w.deliveries = openings id d' - openings id d := by
  rw [sumBy_set hd]
  ring

/-- **A click counts** what it does to the row, if it still finds it as it has read it. -/
theorem Inv.commit (h : Inv w) {link advertisementId deliveryLogId now : ℕ}
    {isFirstClick isFirstOpen : Bool}
    (hi : w.calls[i]? =
      some (.committing link advertisementId deliveryLogId now isFirstClick isFirstOpen))
    (hopen : ∀ d, w.deliveries[deliveryLogId]? = some d → isFirstOpen → d.openedAt = none) :
    Inv { w.commit link advertisementId deliveryLogId now isFirstClick isFirstOpen with
      calls := (w.commit link advertisementId deliveryLogId now isFirstClick
        isFirstOpen).calls.set i .done } := by
  obtain ⟨l, hl, rfl, rfl⟩ := h.sound i _ hi
  obtain ⟨d, hd, hkey⟩ := h.link link l hl
  have hlt := h.delivery _ d hd
  obtain ⟨a, ha⟩ : ∃ a, w.ads[l.advertisementId]? = some a :=
    ⟨_, getElem?_eq_getElem (hkey ▸ hlt)⟩
  have hopened := hopen d hd
  simp only [World.commit, hl, ha, hd]
  generalize hl' : ({ l with clickCount := l.clickCount + 1, lastClickedAt := some now } :
    TrackedLink) = l'
  generalize hd' : ({ d with
    clickedAt := if isFirstClick then some now else d.clickedAt
    openedAt := if isFirstOpen then some now else d.openedAt } : Delivery) = d'
  generalize ha' : (⟨if isFirstOpen then a.totalOpened + 1 else a.totalOpened,
    a.totalClicks + 1⟩ : Totals) = a'
  have hkey' : d'.advertisementId = d.advertisementId := by rw [← hd']
  have hgrows := grows_set hd d' hkey'
  have hlinks : Grows (fun l => (l.advertisementId, l.deliveryLogId)) w.links
      (w.links.set link l') := by
    intro j r hr
    rcases eq_or_ne j link with rfl | hne
    · rw [hl, Option.some_inj] at hr
      subst hr
      exact ⟨_, (getElem?_set_some hl).mpr (Or.inl ⟨rfl, rfl⟩), by rw [← hl']⟩
    · exact ⟨r, (getElem?_set_some hl).mpr (Or.inr ⟨hne, hr⟩), rfl⟩
  refine h.of_next { w with
      links := w.links.set link l'
      ads := w.ads.set l.advertisementId a'
      deliveries := w.deliveries.set l.deliveryLogId d' } hi rfl ⟨length_set, hgrows, hlinks⟩
    trivial (fun j r hr => ?_) (h.delivery_set hd hkey') fun j r hr => ?_
  · rcases (getElem?_set_some hl).mp hr with ⟨-, rfl⟩ | ⟨-, hr⟩
    · rw [← hl']
      exact ⟨_, (getElem?_set_some hd).mpr (Or.inl ⟨rfl, rfl⟩), hkey'.trans hkey⟩
    · exact h.link_of_grows hgrows j r hr
  · have hclicks : sumBy (fun _ => clicks j) (w.links.set link l') -
        sumBy (fun _ => clicks j) w.links = if l.advertisementId = j then 1 else 0 := by
      rw [sumBy_set hl, ← hl']
      simp only [clicks]
      split_ifs <;> push_cast <;> ring
    have hdelta : openings j d' - openings j d =
        if l.advertisementId = j ∧ isFirstOpen then 1 else 0 := by
      rw [← hd']
      simp only [openings, hkey]
      cases isFirstOpen with
      | false => simp
      | true => simp [hopened rfl]
    dsimp only
    rw [sumBy_openings_set hd, hclicks, hdelta]
    rcases (getElem?_set_some ha).mp hr with ⟨rfl, rfl⟩ | ⟨hne, hr⟩
    · refine ⟨a, ha, ?_, ?_⟩
      · rw [← ha']
        cases isFirstOpen <;> simp [owed]
      · rw [← ha']
        simp
    · exact ⟨r, hr, by simp [owed, hne.symm], by simp [hne.symm]⟩

/-- **A dismissal opens** a delivery, and owes the count. -/
theorem Inv.see (h : Inv w) {profileId deliveryId : ℕ} {d : Delivery}
    (hi : w.calls[i]? = some (.seeing profileId deliveryId))
    (hd : w.deliveries[deliveryId]? = some d) (hsee : d.canBeSeen profileId) :
    Inv { w with
      deliveries := w.deliveries.set deliveryId { d with openedAt := some w.now }
      calls := w.calls.set i (.looking deliveryId) } := by
  have hnone : d.openedAt = none := (of_decide_eq_true hsee).2.2
  have hgrows := grows_set hd { d with openedAt := some w.now } rfl
  have hnew : (w.deliveries.set deliveryId { d with openedAt := some w.now })[deliveryId]? =
      some { d with openedAt := some w.now } := (getElem?_set_some hd).mpr (Or.inl ⟨rfl, rfl⟩)
  refine h.of_next { w with
      deliveries := w.deliveries.set deliveryId { d with openedAt := some w.now } } hi rfl
    ⟨rfl, hgrows, .refl _ _⟩ ⟨_, hnew⟩ (h.link_of_grows hgrows) (h.delivery_set hd rfl)
    fun j a ha => ⟨a, ha, ?_, by ring⟩
  rw [sumBy_openings_set hd]
  simp only [owed, hnew, Option.any_some, decide_eq_true_eq, openings, hnone, Option.isSome_some,
    Option.isSome_none, and_true, Bool.false_eq_true, and_false, if_false]
  ring

/-- The dismissal counts what it owes. -/
theorem Inv.payOff (h : Inv w) {advertisementId : ℕ}
    (hi : w.calls[i]? = some (.counting advertisementId)) :
    Inv { w with
      ads := Table.update w.ads advertisementId fun a => { a with totalOpened := a.totalOpened + 1 }
      calls := w.calls.set i .done } := by
  refine h.of_next { w with ads := Table.update w.ads advertisementId fun a =>
      { a with totalOpened := a.totalOpened + 1 } } hi rfl
    ⟨Table.length_update _ _ _, .refl _ _, .refl _ _⟩ trivial h.link h.delivery fun j a' ha' => ?_
  rw [Table.getElem?_update] at ha'
  obtain ⟨a, ha, rfl⟩ := Option.map_eq_some_iff.mp ha'
  refine ⟨a, ha, ?_, ?_⟩
  · simp only [owed]
    split_ifs <;> push_cast <;> ring
  · split_ifs <;> ring

/-- A delivery is created unopened. -/
theorem Inv.create (h : Inv w) {advertisementId profileId : ℕ} {channel : Channel}
    {urls : List String}
    (hi : w.calls[i]? = some (.sending advertisementId profileId channel urls))
    (had : advertisementId < w.ads.length) :
    Inv { w with
      deliveries := w.deliveries ++ [⟨advertisementId, profileId, channel, .failed, none, none, none⟩]
      calls := w.calls.set i (.tracking w.deliveries.length advertisementId urls) } := by
  have hgrows : Grows Delivery.advertisementId w.deliveries
      (w.deliveries ++ [⟨advertisementId, profileId, channel, .failed, none, none, none⟩]) := .append _ _ _
  refine h.of_next { w with
      deliveries := w.deliveries ++ [⟨advertisementId, profileId, channel, .failed, none, none, none⟩] } hi rfl
    ⟨rfl, hgrows, .refl _ _⟩ ⟨_, getElem?_concat_length, rfl⟩ (h.link_of_grows hgrows)
    (fun j d hd => ?_) fun j a ha => ⟨a, ha, ?_, by ring⟩
  · rcases Table.getElem?_concat_eq_some.mp hd with hd | ⟨-, rfl⟩
    · exact h.delivery j d hd
    · exact had
  · rw [sumBy_concat]
    simp [owed, openings]

/-- A link is created without clicks. -/
theorem Inv.track (h : Inv w) {deliveryLogId advertisementId : ℕ} {url : String}
    {urls : List String}
    (hi : w.calls[i]? = some (.tracking deliveryLogId advertisementId (url :: urls))) :
    Inv { w with
      links := w.links ++ [⟨advertisementId, deliveryLogId, url, 0, none⟩]
      calls := w.calls.set i (.tracking deliveryLogId advertisementId urls) } := by
  have hsound := h.sound i _ hi
  refine h.of_next { w with
      links := w.links ++ [⟨advertisementId, deliveryLogId, url, 0, none⟩] } hi rfl
    ⟨rfl, .refl _ _, .append _ _ _⟩ hsound (fun j l hl => ?_) h.delivery
    fun j a ha => ⟨a, ha, by simp [owed], ?_⟩
  · rcases Table.getElem?_concat_eq_some.mp hl with hl | ⟨-, rfl⟩
    · exact h.link j l hl
    · exact hsound
  · rw [sumBy_concat]
    simp [clicks]

/-- The message was sent, or not. -/
theorem Inv.note (h : Inv w) {deliveryLogId advertisementId : ℕ}
    (hi : w.calls[i]? = some (.tracking deliveryLogId advertisementId [])) :
    Inv { w with
      deliveries := Table.update w.deliveries deliveryLogId fun d =>
        if sent then { d with status := .sent, sentAt := some w.now } else d
      calls := w.calls.set i .done } := by
  have hkey : ∀ d : Delivery, (if sent then { d with status := .sent, sentAt := some w.now }
      else d : Delivery).advertisementId = d.advertisementId := fun d => by split_ifs <;> rfl
  have hopenings : ∀ id (d : Delivery), openings id (if sent then
      { d with status := .sent, sentAt := some w.now } else d) = openings id d := fun id d => by
    split_ifs <;> rfl
  have hgrows : Grows Delivery.advertisementId w.deliveries (Table.update w.deliveries
      deliveryLogId fun d => if sent then { d with status := .sent, sentAt := some w.now } else d) :=
    .update hkey
  refine h.of_next { w with deliveries := Table.update w.deliveries deliveryLogId fun d =>
      if sent then { d with status := .sent, sentAt := some w.now } else d } hi rfl
    ⟨rfl, hgrows, .refl _ _⟩ trivial (h.link_of_grows hgrows) (fun j d hd => ?_)
    fun j a ha => ⟨a, ha, ?_, by ring⟩
  · rw [Table.getElem?_update] at hd
    obtain ⟨d', hd', rfl⟩ := Option.map_eq_some_iff.mp hd
    split_ifs
    · exact h.delivery j d' hd'
    · exact h.delivery j d' hd'
    · exact h.delivery j d' hd'
  · rw [sumBy_of_map fun j => Table.getElem?_update _ _ _ _]
    have hsame : ∀ (k : ℕ) (d : Delivery), openings j (if deliveryLogId = k then
        (if sent then { d with status := .sent, sentAt := some w.now } else d) else d) =
        openings j d := fun k d => by
      split_ifs <;> rfl
    simp only [hsame, owed]
    ring

/-! ### Runs -/

theorem inv_start (ads : ℕ) : Inv { ads := replicate ads {} } where
  link := fun _ _ h => by simp at h
  delivery := fun _ _ h => by simp at h
  sound := fun _ _ h => by simp at h
  opened := fun id a h => by
    obtain ⟨-, rfl⟩ := mem_replicate.mp (mem_of_getElem? h)
    rfl
  clicked := fun id a h => by
    obtain ⟨-, rfl⟩ := mem_replicate.mp (mem_of_getElem? h)
    rfl

theorem Inv.pass (h : Inv w) (ms : ℕ) : Inv { w with now := w.now + ms } :=
  ⟨h.link, h.delivery, fun i c hc => (h.sound i c hc).extend ⟨rfl, .refl _ _, .refl _ _⟩,
    h.opened, h.clicked⟩

/-- A call comes in. -/
theorem Inv.arrive (h : Inv w) (hsound : Sound w c) (howed : ∀ id, owed w.deliveries id c = 0) :
    Inv { w with calls := w.calls ++ [c] } where
  link := h.link
  delivery := h.delivery
  sound j d hj := by
    have hsame : Extends w { w with calls := w.calls ++ [c] } := ⟨rfl, .refl _ _, .refl _ _⟩
    rcases Table.getElem?_concat_eq_some.mp hj with hj | ⟨-, rfl⟩
    · exact (h.sound j d hj).extend hsame
    · exact hsound.extend hsame
  opened id a ha := by
    dsimp only
    rw [sumBy_concat, howed, add_zero]
    exact h.opened id a ha
  clicked := h.clicked

/-- The row that an undisturbed click commits on is as the click has read it. -/
theorem of_undisturbed {link advertisementId deliveryLogId now : ℕ}
    {isFirstClick isFirstOpen : Bool}
    (hi : w.calls[i]? =
      some (.committing link advertisementId deliveryLogId now isFirstClick isFirstOpen))
    (h : w.undisturbed (.take i sent)) (d : Delivery)
    (hd : w.deliveries[deliveryLogId]? = some d) :
    (isFirstClick → d.clickedAt = none) ∧ (isFirstOpen → d.openedAt = none) := by
  simp only [World.undisturbed, hi, hd, Option.all_some, Bool.and_eq_true, Bool.or_eq_true,
    Bool.not_eq_true', Option.isNone_iff_eq_none] at h
  exact ⟨fun hf => h.1.resolve_left (by simp [hf]), fun hf => h.2.resolve_left (by simp [hf])⟩

/-- A command that is carried out undisturbed keeps the invariant. -/
theorem Inv.take (h : Inv w) (hundisturbed : w.undisturbed (.take i sent))
    (hi : w.calls[i]? = some c) {v : World} (hnext : w.next sent c = some (v, c')) :
    Inv { v with calls := v.calls.set i c' } := by
  cases c with
  | finding hash =>
    cases hl : w.links[hash]? with
    | none =>
      simp only [World.next, hl, Option.some.injEq, Prod.mk.injEq] at hnext
      obtain ⟨rfl, rfl⟩ := hnext
      exact h.of_same hi trivial fun _ => rfl
    | some l =>
      simp only [World.next, hl, Option.some.injEq, Prod.mk.injEq] at hnext
      obtain ⟨rfl, rfl⟩ := hnext
      exact h.of_same hi ⟨l, hl, rfl, rfl⟩ fun _ => rfl
  | reading link advertisementId deliveryLogId now =>
    simp only [World.next, Option.some.injEq, Prod.mk.injEq] at hnext
    obtain ⟨rfl, rfl⟩ := hnext
    have hknown := h.sound i _ hi
    exact h.of_same hi hknown fun _ => rfl
  | committing link advertisementId deliveryLogId now isFirstClick isFirstOpen =>
    simp only [World.next, Option.some.injEq, Prod.mk.injEq] at hnext
    obtain ⟨rfl, rfl⟩ := hnext
    exact h.commit hi fun d hd => (of_undisturbed hi hundisturbed d hd).2
  | seeing profileId deliveryId =>
    cases hd : w.deliveries[deliveryId]? with
    | none =>
      simp only [World.next, hd, Option.some.injEq, Prod.mk.injEq] at hnext
      obtain ⟨rfl, rfl⟩ := hnext
      exact h.of_same hi trivial fun _ => rfl
    | some d =>
      simp only [World.next, hd] at hnext
      split_ifs at hnext with hsee <;>
        simp only [Option.some.injEq, Prod.mk.injEq] at hnext <;> obtain ⟨rfl, rfl⟩ := hnext
      · exact h.see hi hd hsee
      · exact h.of_same hi trivial fun _ => rfl
  | looking deliveryId =>
    obtain ⟨d, hd⟩ := h.sound i _ hi
    simp only [World.next, hd, Option.some.injEq, Prod.mk.injEq] at hnext
    obtain ⟨rfl, rfl⟩ := hnext
    exact h.of_same hi (h.delivery deliveryId d hd) fun id => by simp [owed, hd]
  | counting advertisementId =>
    simp only [World.next, Option.some.injEq, Prod.mk.injEq] at hnext
    obtain ⟨rfl, rfl⟩ := hnext
    exact h.payOff hi
  | sending advertisementId profileId channel urls =>
    simp only [World.next] at hnext
    split_ifs at hnext with had <;>
      simp only [Option.some.injEq, Prod.mk.injEq] at hnext <;> obtain ⟨rfl, rfl⟩ := hnext
    · exact h.create hi had
    · exact h.of_same hi trivial fun _ => rfl
  | tracking deliveryLogId advertisementId urls =>
    cases urls with
    | nil =>
      simp only [World.next, Option.some.injEq, Prod.mk.injEq] at hnext
      obtain ⟨rfl, rfl⟩ := hnext
      exact h.note hi
    | cons url urls =>
      simp only [World.next, Option.some.injEq, Prod.mk.injEq] at hnext
      obtain ⟨rfl, rfl⟩ := hnext
      exact h.track hi
  | done => exact nomatch hnext

theorem Inv.step (h : Inv w) (hundisturbed : w.undisturbed e) (hstep : w' ∈ w.step e) : Inv w' := by
  cases e with
  | pass ms =>
    obtain rfl := Option.some.inj hstep
    exact h.pass ms
  | click | markSeen | sendOnChannel =>
    obtain rfl := Option.some.inj hstep
    exact h.arrive trivial fun _ => rfl
  | take i sent =>
    obtain ⟨⟨v, c'⟩, hnext, rfl⟩ := Option.map_eq_some_iff.mp hstep
    obtain ⟨c, hi, hnext⟩ := Option.bind_eq_some_iff.mp hnext
    exact h.take hundisturbed hi hnext
  | throw i =>
    simp only [World.step, Option.mem_def] at hstep
    split at hstep
    · exact nomatch hstep
    · exact nomatch hstep
    · next c _ hi =>
      obtain rfl := Option.some.inj hstep
      refine h.of_same hi trivial fun id => ?_
      -- A call that owes a count does not throw.
      cases c with
      | looking | counting => simp [World.undisturbed, hi] at hundisturbed
      | finding | reading | committing | seeing | sending | tracking | done => rfl

/-- A delivery keeps its first times. -/
def Keeps (d d' : Delivery) : Prop :=
  (∀ t, d.openedAt = some t → d'.openedAt = some t) ∧
    ∀ t, d.clickedAt = some t → d'.clickedAt = some t

theorem keeps_refl (d : Delivery) : Keeps d d := ⟨fun _ h => h, fun _ h => h⟩

theorem Keeps.trans {d d' d'' : Delivery} (h : Keeps d d') (h' : Keeps d' d'') : Keeps d d'' :=
  ⟨fun t ht => h'.1 t (h.1 t ht), fun t ht => h'.2 t (h.2 t ht)⟩

theorem evolves_set {d d' : Delivery} (hd : w.deliveries[i]? = some d) (hkeeps : Keeps d d') :
    Evolves Keeps w.deliveries (w.deliveries.set i d') := by
  intro j r hr
  rcases eq_or_ne j i with rfl | hne
  · rw [hd, Option.some_inj] at hr
    subst hr
    exact ⟨d', (getElem?_set_some hd).mpr (Or.inl ⟨rfl, rfl⟩), hkeeps⟩
  · exact ⟨r, (getElem?_set_some hd).mpr (Or.inr ⟨hne, hr⟩), keeps_refl r⟩

/-- **First times stay** in an undisturbed step. -/
theorem step_keeps (hundisturbed : w.undisturbed e) (hstep : w' ∈ w.step e) :
    Evolves Keeps w.deliveries w'.deliveries := by
  have hsame := Evolves.refl keeps_refl w.deliveries
  cases e with
  | pass | click | markSeen | sendOnChannel =>
    obtain rfl := Option.some.inj hstep
    exact hsame
  | throw i =>
    simp only [World.step, Option.mem_def] at hstep
    split at hstep
    · exact nomatch hstep
    · exact nomatch hstep
    · obtain rfl := Option.some.inj hstep
      exact hsame
  | take i sent =>
    obtain ⟨⟨v, c'⟩, hnext, rfl⟩ := Option.map_eq_some_iff.mp hstep
    obtain ⟨c, hi, hnext⟩ := Option.bind_eq_some_iff.mp hnext
    change Evolves Keeps w.deliveries v.deliveries
    unfold World.next at hnext
    split at hnext
    · split at hnext <;> obtain ⟨rfl, rfl⟩ := Async.pair_inj hnext <;> exact hsame
    · obtain ⟨rfl, rfl⟩ := Async.pair_inj hnext
      exact hsame
    · obtain ⟨rfl, rfl⟩ := Async.pair_inj hnext
      unfold World.commit
      split
      · next l a d hl ha hd =>
        obtain ⟨hclick, hopen⟩ := of_undisturbed hi hundisturbed d hd
        refine evolves_set hd ⟨fun t ht => ?_, fun t ht => ?_⟩
        · dsimp only
          split_ifs with hf
          · rw [hopen hf] at ht
            exact nomatch ht
          · exact ht
        · dsimp only
          split_ifs with hf
          · rw [hclick hf] at ht
            exact nomatch ht
          · exact ht
      · exact hsame
    · split at hnext
      · next d hd =>
        split_ifs at hnext with hsee <;>
          obtain ⟨rfl, rfl⟩ := Async.pair_inj hnext
        · refine evolves_set hd ⟨fun t ht => ?_, fun t ht => ht⟩
          rw [(of_decide_eq_true hsee).2.2] at ht
          exact nomatch ht
        · exact hsame
      · obtain ⟨rfl, rfl⟩ := Async.pair_inj hnext
        exact hsame
    · split at hnext <;> obtain ⟨rfl, rfl⟩ := Async.pair_inj hnext <;> exact hsame
    · obtain ⟨rfl, rfl⟩ := Async.pair_inj hnext
      exact hsame
    · split_ifs at hnext <;> obtain ⟨rfl, rfl⟩ := Async.pair_inj hnext
      · exact .append keeps_refl _ _
      · exact hsame
    · obtain ⟨rfl, rfl⟩ := Async.pair_inj hnext
      exact hsame
    · obtain ⟨rfl, rfl⟩ := Async.pair_inj hnext
      refine .update keeps_refl fun d => ?_
      split_ifs <;> exact keeps_refl d
    · exact nomatch hnext

theorem Inv.run {events : List Event} (h : Inv w) (hundisturbed : w.undisturbedRun events)
    (hrun : w' ∈ w.run events) : Inv w' ∧ Evolves Keeps w.deliveries w'.deliveries := by
  induction events generalizing w with
  | nil =>
    obtain rfl := Option.some.inj hrun
    exact ⟨h, .refl keeps_refl _⟩
  | cons e events ih =>
    obtain ⟨v, hv, hrun⟩ := Option.bind_eq_some_iff.mp hrun
    rw [World.undisturbedRun, Bool.and_eq_true] at hundisturbed
    obtain ⟨hinv, hevolves⟩ := ih (h.step hundisturbed.1 hv)
      (by simpa only [hv, Option.all_some] using hundisturbed.2) hrun
    exact ⟨hinv, (step_keeps hundisturbed.1 hv).trans Keeps.trans hevolves⟩

theorem Inv.matches (h : Inv w) (hidle : w.Idle) : w.Matches := by
  intro id a ha
  have howed : sumBy (fun _ => owed w.deliveries id) w.calls = 0 :=
    sumBy_eq_zero fun i c hi => by
      rw [hidle c (mem_of_getElem? hi)]
      rfl
  have hopened := h.opened id a ha
  have hclicked := h.clicked id a ha
  rw [howed, add_zero, sumBy_openings] at hopened
  rw [sumBy_clicks] at hclicked
  exact ⟨by exact_mod_cast hopened, by exact_mod_cast hclicked⟩

/-- In every run in which clicks commit on the rows they have read and no dismissal loses its
count, the counters match whenever no call is in progress, and the first opening and the first
click of a delivery stay. -/
theorem counters_match {ads : ℕ} {events later : List Event}
    (hrun : w ∈ World.run { ads := replicate ads {} } events)
    (hundisturbed : World.undisturbedRun { ads := replicate ads {} } events)
    (hrun' : w' ∈ w.run later) (hundisturbed' : w.undisturbedRun later) :
    (w'.Idle → w'.Matches) ∧ w.KeepsFirst w' := by
  obtain ⟨hinv, -⟩ := (inv_start ads).run hundisturbed hrun
  obtain ⟨hinv', hkeeps⟩ := hinv.run hundisturbed' hrun'
  exact ⟨hinv'.matches, hkeeps⟩

/-- An advertisement is delivered with one link. -/
def delivered : List Event :=
  [.sendOnChannel 0 7 .inApp ["https://rabotka.ci"], .take 0 true, .take 0 true, .take 0 true]

/-- A click is followed by a dismissal, which finds the delivery opened. -/
theorem click_then_dismissal : ∃ w ∈ World.run { ads := replicate 1 {} } (delivered ++
      [.click 0, .take 1 true, .take 1 true, .take 1 true, .markSeen 7 0, .take 2 true]),
      (w.Idle → w.Matches) ∧ w.KeepsFirst w :=
  ⟨_, rfl, counters_match (show _ ∈ World.run { ads := replicate 1 {} } (delivered ++
    [.click 0, .take 1 true, .take 1 true, .take 1 true, .markSeen 7 0, .take 2 true]) from rfl)
    (by decide +kernel) (show _ ∈ World.run _ [] from rfl) rfl⟩

/-- Two clicks read the unopened delivery before either of them counts, and both count an
opening. -/
theorem two_clicks_count_twice : ∃ w ∈ World.run { ads := replicate 1 {} } (delivered ++
      [.click 0, .click 0, .take 1 true, .take 1 true, .take 2 true, .take 2 true, .take 1 true,
        .take 2 true]), w.Idle ∧ ¬ w.Matches := by
  refine ⟨_, rfl, by unfold World.Idle; decide +kernel, fun h => ?_⟩
  have hopened := (h 0 ⟨2, 2⟩ (by decide +kernel)).1
  exact absurd hopened (by decide +kernel)

end Rabotka.Ads.Clicks
