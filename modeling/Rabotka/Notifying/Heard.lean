import Rabotka.Notifying.Jobs

/-!
# A worker hears of an offer once, and not too often

In orderly runs a look for a marker finds it if the worker was told, and nobody else tells the pair
between a look and the send; a send is made at the instant of its claim, which is the last one of
the worker's cooldown; a claim is released by who made it; and one that refuses another has led to a
message already. Then nobody is told of an offer twice, two messages to one worker are a cooldown
apart, and nobody is left out by a claim unless told less than a cooldown before (`workers_heard`).

What carries the distance is that a claim under which a worker was told stays until it expires
(`Steady.spaced`). `workers_pestered` shows what happens otherwise: a run stops before it marks, a
send is slow, a run stops between its claim and its send.
-/

namespace Rabotka.Notifying

open Async Trace Expiring List

variable {cooldownMinutes : ℕ} {i j offerId workerId : ℕ} {x : State} {l : Log} {e : Step}
  {w : World} {ε : Env} {c : Cmd} {r : Resp c}

/-! ### Orderly runs -/

/-- The steps since process `i` has looked for the marker of the pair. -/
def sinceLook (i offerId workerId : ℕ) (l : Log) : Log :=
  l.takeWhile fun e => !(decide (e.proc = i) && (looked offerId workerId e).isSome)

variable (cooldownMinutes) in
/-- Process `i` tells a worker at the instant of its claim, the last one, and nobody has told the
pair since it looked. -/
def mayTell (i offerId workerId : ℕ) (x : State) : Bool :=
  (decide (cooldownMinutes = 0) || decide (lastClaim workerId x.2 = some (i, x.1.now))) &&
    (sinceLook i offerId workerId x.2).all fun e => toldOf e ≠ some (offerId, workerId)

variable (cooldownMinutes) in
/-- The condition of the runs in which everybody is told in order. -/
def orderly : Guard State Cmd Request Env
  | x, .step _ (.exists offerId workerId) _ =>
    x.1.sent (offerId, workerId) || x.2.all fun e => toldOf e ≠ some (offerId, workerId)
  | x, .step _ (.claim workerId) _ =>
    (x.1.cooldown.get x.1.now workerId).isNone ||
      (sinceClaim workerId x.2).any fun e => Tells workerId e
  | x, .step i (.send offerId workerId) ε =>
    !ε.delivered || mayTell cooldownMinutes i offerId workerId x
  | x, .step i (.ring offerId workerId alone) _ =>
    !alone || mayTell cooldownMinutes i offerId workerId x
  | x, .step i (.release workerId) _ => (lastClaim workerId x.2).map Prod.fst = some i
  | _, _ => true

/-- A step that tells finds that it may, and its process is ready. -/
theorem mayTell_of_told (hpre : Pre cooldownMinutes c (own x.2 i))
    (hg : orderly cooldownMinutes x (.step i c ε))
    (hexec : exec cooldownMinutes x.1 ε c = some (w, r))
    (htold : toldOf ⟨i, x.1, c, r⟩ = some (offerId, workerId)) :
    mayTell cooldownMinutes i offerId workerId x = true ∧
      Ready cooldownMinutes offerId workerId (own x.2 i) := by
  cases c with
  | send o v =>
    obtain ⟨rfl, rfl⟩ := pair_inj hexec
    simp only [toldOf, Option.ite_none_right_eq_some, Option.some.injEq, Prod.mk.injEq] at htold
    obtain ⟨hdelivered, rfl, rfl⟩ := htold
    refine ⟨?_, hpre⟩
    simpa [orderly, hdelivered] using hg
  | ring o v alone =>
    simp only [toldOf, Option.ite_none_right_eq_some, Option.some.injEq, Prod.mk.injEq] at htold
    obtain ⟨halone, rfl, rfl⟩ := htold
    refine ⟨?_, hpre halone⟩
    simpa [orderly, halone] using hg
  | _ => cases htold

theorem exists_told (h : Tells workerId e) : ∃ offerId, toldOf e = some (offerId, workerId) := by
  obtain ⟨pair, hpair, rfl⟩ := Option.map_eq_some_iff.1 h
  exact ⟨pair.1, hpair⟩

/-! ### Told once -/

/-- What a step says of the pairs told before: none that it looks for in vain, and not its own. -/
def OnceBefore (e : Step) (older : Log) : Prop :=
  ∀ offerId workerId, looked offerId workerId e = some false ∨ toldOf e = some (offerId, workerId) →
    ∀ e' ∈ older, toldOf e' ≠ some (offerId, workerId)

/-- A look tells nobody. -/
theorem toldOf_of_looked {found : Bool} (h : looked offerId workerId e = some found) :
    toldOf e = none := by
  obtain ⟨proc, s, cmd, resp⟩ := e
  cases cmd with
  | «exists» o v => rfl
  | _ => cases h

/-- Where nobody tells the pair since the look of a process that found no marker, nobody has told it
at all. -/
theorem untold_of_notFound (h : Every OnceBefore l) (hlook : NotFound offerId workerId (own l i))
    (hsince : ∀ e ∈ sinceLook i offerId workerId l, toldOf e ≠ some (offerId, workerId)) :
    ∀ e ∈ l, toldOf e ≠ some (offerId, workerId) := by
  induction l with
  | nil => simp
  | cons z l ih =>
    by_cases hown : z.proc = i ∧ (looked offerId workerId z).isSome
    · -- the look itself: nobody was told before it
      have hz : looked offerId workerId z = some false := by
        rw [NotFound, own_cons_self hown.1, findSome?_cons] at hlook
        obtain ⟨found, hfound⟩ := Option.isSome_iff_exists.1 hown.2
        rwa [hfound] at hlook ⊢
      intro e he
      rcases mem_cons.1 he with rfl | he
      · rw [toldOf_of_looked hz]
        simp
      · exact h.1 offerId workerId (.inl hz) e he
    · have hsince' : sinceLook i offerId workerId (z :: l) =
          z :: sinceLook i offerId workerId l := by
        rw [sinceLook, takeWhile_cons, if_pos]
        · rfl
        · rw [Bool.not_eq_true', Bool.eq_false_iff]
          simpa using hown
      have hlook' : NotFound offerId workerId (own l i) := by
        by_cases hproc : z.proc = i
        · rw [own_cons_self hproc, NotFound, findSome?_cons] at hlook
          have hnone : looked offerId workerId z = none := by
            simpa [hproc] using hown
          rwa [hnone] at hlook
        · rwa [own_cons_of_ne hproc] at hlook
      rw [hsince'] at hsince
      intro e he
      rcases mem_cons.1 he with rfl | he
      · exact hsince e mem_cons_self
      · exact ih h.2 hlook' (fun e he => hsince e (mem_cons_of_mem _ he)) e he

theorem OnceBefore.step (h : Every OnceBefore x.2) (hpre : Pre cooldownMinutes c (own x.2 i))
    (hg : orderly cooldownMinutes x (.step i c ε))
    (hexec : exec cooldownMinutes x.1 ε c = some (w, r)) : OnceBefore ⟨i, x.1, c, r⟩ x.2 := by
  rintro offerId workerId (hlook | htold)
  · cases c with
    | «exists» o v =>
      obtain ⟨rfl, rfl⟩ := pair_inj hexec
      simp only [looked, Option.ite_none_right_eq_some, Option.some.injEq] at hlook
      obtain ⟨⟨rfl, rfl⟩, hnone⟩ := hlook
      simpa [orderly, hnone] using hg
    | _ => cases hlook
  · obtain ⟨hmay, hready⟩ := mayTell_of_told hpre hg hexec htold
    simp only [mayTell, Bool.and_eq_true] at hmay
    exact untold_of_notFound h hready.1 (by simpa using hmay.2)

/-! ### A cooldown apart -/

variable (cooldownMinutes) in
/-- The claims in Redis, with a cooldown. -/
structure Steady (x : State) : Prop where
  /-- What is in Redis is the last claim. -/
  claims : ∀ v en, x.1.cooldown v = some en → ∃ c, lastClaim v x.2 = some c ∧
    en.expiresAt = some (c.2 + window cooldownMinutes)
  kept : ∀ v c, lastClaim v x.2 = some c →
    (∃ en, x.1.cooldown v = some en) ∨ ∃ e ∈ sinceClaim v x.2, Releases v e
  /-- Since a claim only its process tells the worker, at its instant, or releases it. -/
  under : ∀ v, ∀ e ∈ sinceClaim v x.2, Tells v e ∨ Releases v e →
    ∃ c, lastClaim v x.2 = some c ∧ e.proc = c.1 ∧ (Tells v e → e.store.now = c.2)
  /-- Under an earlier claim the worker was told a cooldown before the last one. -/
  earlier : ∀ v, ∀ e ∈ x.2, Tells v e → e ∈ sinceClaim v x.2 ∨
    ∃ c, lastClaim v x.2 = some c ∧ e.store.now + window cooldownMinutes ≤ c.2
  /-- A claim under which the worker was told stays. -/
  spaced : ∀ v, ∀ e ∈ sinceClaim v x.2, Tells v e → ∃ en, x.1.cooldown v = some en
  past : ∀ v c, lastClaim v x.2 = some c → c.2 ≤ x.1.now

/-- Between the last claim and now the steps of its process are its steps since then. -/
theorem own_sinceClaim {c : ℕ × ℕ} (h : lastClaim workerId l = some c) :
    own (sinceClaim workerId l) c.1 = sinceClaim workerId (own l c.1) := by
  induction l with
  | nil => rfl
  | cons z l ih =>
    rw [lastClaim, findSome?_cons] at h
    cases hz : claimed workerId z with
    | none =>
      rw [hz] at h
      rw [sinceClaim_cons hz]
      by_cases hproc : z.proc = c.1
      · rw [own_cons_self hproc, own_cons_self hproc, sinceClaim_cons hz, ih h]
      · rw [own_cons_of_ne hproc, own_cons_of_ne hproc, ih h]
    | some d =>
      rw [hz] at h
      obtain rfl : d = c := Option.some_inj.1 h
      have hproc : z.proc = d.1 := by
        obtain ⟨proc, s, cmd, resp⟩ := z
        cases cmd with
        | claim v =>
          simp only [claimed, Option.ite_none_right_eq_some, Option.some.injEq] at hz
          rw [← hz.2]
        | _ => cases hz
      have hnil : ∀ l', sinceClaim workerId (z :: l') = [] := fun l' => by
        rw [sinceClaim, takeWhile_cons, hz]
        rfl
      rw [hnil, own_cons_self hproc, hnil]
      rfl

/-- Nobody has told the worker under the last claim, if its process has not. -/
theorem Steady.untold (h : Steady cooldownMinutes x)
    (hclaim : (lastClaim workerId x.2).map Prod.fst = some i) (hown : Untold workerId (own x.2 i)) :
    Untold workerId x.2 := by
  obtain ⟨c, hc, rfl⟩ := Option.map_eq_some_iff.1 hclaim
  intro e he htells
  obtain ⟨d, hd, hproc, -⟩ := h.under workerId e he (.inl htells)
  obtain rfl : c = d := Option.some_inj.1 (hc.symm.trans hd)
  have hmem : e ∈ own (sinceClaim workerId x.2) c.1 := mem_filter.2 ⟨he, by simpa using hproc⟩
  rw [own_sinceClaim hc] at hmem
  exact hown e hmem htells

/-- And it has not been released, if its process has not. -/
theorem Steady.unreleased (h : Steady cooldownMinutes x) {c : ℕ × ℕ}
    (hc : lastClaim workerId x.2 = some c) (hown : Clean workerId (own x.2 c.1)) :
    ∀ e ∈ sinceClaim workerId x.2, ¬Releases workerId e := by
  intro e he hreleases
  obtain ⟨d, hd, hproc, -⟩ := h.under workerId e he (.inr hreleases)
  obtain rfl : c = d := Option.some_inj.1 (hc.symm.trans hd)
  have hmem : e ∈ own (sinceClaim workerId x.2) c.1 := mem_filter.2 ⟨he, by simpa using hproc⟩
  rw [own_sinceClaim hc] at hmem
  exact (hown e hmem).2 hreleases

/-- A worker is told a cooldown after everything that was told before. -/
theorem Steady.apart (h : Steady cooldownMinutes x) (hpos : 0 < cooldownMinutes)
    (hmay : mayTell cooldownMinutes i offerId workerId x = true)
    (hready : Ready cooldownMinutes offerId workerId (own x.2 i)) :
    ∀ e ∈ x.2, Tells workerId e → e.store.now + window cooldownMinutes ≤ x.1.now := by
  simp only [mayTell, Bool.and_eq_true, Bool.or_eq_true, decide_eq_true_eq] at hmay
  have hclaim := hmay.1.resolve_left hpos.ne'
  intro e he htells
  rcases h.earlier workerId e he htells with hsince | ⟨c, hc, hle⟩
  · exact absurd htells (h.untold (by rw [hclaim]; rfl) (hready.2 hpos).untold e hsince)
  · obtain rfl : (i, x.1.now) = c := Option.some_inj.1 (hclaim.symm.trans hc)
    exact hle

/-- A claim that is refused is refused by one under which the worker was told. -/
theorem Steady.refused (h : Steady cooldownMinutes x)
    (hg : orderly cooldownMinutes x (.step i (.claim workerId) ε))
    (hlive : (x.1.cooldown.get x.1.now workerId).isSome) :
    ∃ e ∈ x.2, Tells workerId e ∧ x.1.now < e.store.now + window cooldownMinutes := by
  have hany : (sinceClaim workerId x.2).any fun e => decide (Tells workerId e) := by
    simpa [orderly, Option.isNone_iff_eq_none, Option.isSome_iff_ne_none.1 hlive] using hg
  obtain ⟨e, he, htells⟩ := any_eq_true.1 hany
  replace htells := of_decide_eq_true htells
  obtain ⟨v, hv⟩ := Option.isSome_iff_exists.1 hlive
  obtain ⟨en, hen, hlt, -⟩ := Keys.get_eq_some.1 hv
  obtain ⟨c, hc, hexpires⟩ := h.claims workerId en hen
  obtain ⟨d, hd, -, hnow⟩ := h.under workerId e he (.inl htells)
  obtain rfl : c = d := Option.some_inj.1 (hc.symm.trans hd)
  refine ⟨e, (takeWhile_sublist _).subset he, htells, ?_⟩
  rw [hnow htells]
  exact Entry.lt_of_live hlt hexpires

theorem lastClaim_cons (h : claimed workerId e = none) :
    lastClaim workerId (e :: l) = lastClaim workerId l := by
  rw [lastClaim, findSome?_cons, h]
  rfl

/-- A step that claims and releases nothing, and tells only under its claim. -/
theorem Steady.cons (h : Steady cooldownMinutes x) (hclaim : ∀ v, claimed v e = none)
    (hreleases : ∀ v, ¬Releases v e) (hcooldown : w.cooldown = x.1.cooldown)
    (hnow : x.1.now ≤ w.now)
    (htells : ∀ v, Tells v e → (∃ c, lastClaim v x.2 = some c ∧ e.proc = c.1 ∧ e.store.now = c.2) ∧
      ∃ en, x.1.cooldown v = some en) : Steady cooldownMinutes (w, e :: x.2) := by
  refine ⟨fun v en hen => ?_, fun v c hc => ?_, fun v z hz hact => ?_, fun v z hz hz' => ?_,
    fun v z hz hz' => ?_, fun v c hc => ?_⟩ <;>
    simp only [lastClaim_cons (hclaim v), sinceClaim_cons (hclaim v), hcooldown] at *
  · exact h.claims v en hen
  · rcases h.kept v c hc with hen | ⟨z, hz, hrel⟩
    · exact .inl hen
    · exact .inr ⟨z, mem_cons_of_mem _ hz, hrel⟩
  · rcases mem_cons.1 hz with rfl | hz
    · obtain ⟨⟨c, hc, hproc, hat⟩, -⟩ := htells v (hact.resolve_right (hreleases v))
      exact ⟨c, hc, hproc, fun _ => hat⟩
    · exact h.under v z hz hact
  · rcases mem_cons.1 hz with rfl | hz
    · exact .inl mem_cons_self
    · exact (h.earlier v z hz hz').imp_left (mem_cons_of_mem _)
  · rcases mem_cons.1 hz with rfl | hz
    · exact (htells v hz').2
    · exact h.spaced v z hz hz'
  · exact (h.past v c hc).trans hnow

theorem Steady.release (h : Steady cooldownMinutes x)
    (hpre : Pre cooldownMinutes (.release workerId) (own x.2 i))
    (hg : orderly cooldownMinutes x (.step i (.release workerId) ε))
    (hcooldown : w.cooldown = x.1.cooldown.del workerId) (hnow : w.now = x.1.now) :
    Steady cooldownMinutes (w, ⟨i, x.1, .release workerId, ()⟩ :: x.2) := by
  have hclaim : (lastClaim workerId x.2).map Prod.fst = some i := by simpa [orderly] using hg
  have huntold := h.untold hclaim hpre.2
  have hnone : ∀ v, claimed v ⟨i, x.1, .release workerId, ()⟩ = none := fun _ => rfl
  refine ⟨fun v en hen => ?_, fun v c hc => ?_, fun v z hz hact => ?_, fun v z hz hz' => ?_,
    fun v z hz hz' => ?_, fun v c hc => ?_⟩ <;>
    simp only [lastClaim_cons (hnone v), sinceClaim_cons (hnone v), hcooldown, hnow] at *
  · exact h.claims v en (Keys.of_del hen).2
  · by_cases hv : v = workerId
    · subst hv
      exact .inr ⟨_, mem_cons_self, rfl⟩
    · rcases h.kept v c hc with ⟨en, hen⟩ | ⟨z, hz, hrel⟩
      · exact .inl ⟨en, by rwa [Keys.del_of_ne hv]⟩
      · exact .inr ⟨z, mem_cons_of_mem _ hz, hrel⟩
  · rcases mem_cons.1 hz with rfl | hz
    · have hv : workerId = v := by
        rcases hact with htells | hrel
        · cases htells
        · exact Cmd.release.inj hrel
      subst hv
      obtain ⟨c, hc, hproc⟩ := Option.map_eq_some_iff.1 hclaim
      exact ⟨c, hc, hproc.symm, fun htells => by cases htells⟩
    · exact h.under v z hz hact
  · rcases mem_cons.1 hz with rfl | hz
    · cases hz'
    · exact (h.earlier v z hz hz').imp_left (mem_cons_of_mem _)
  · rcases mem_cons.1 hz with rfl | hsince
    · cases hz'
    · by_cases hv : v = workerId
      · subst hv
        exact absurd hz' (huntold z hsince)
      · rw [Keys.del_of_ne hv]
        exact h.spaced v z hsince hz'
  · exact h.past v c hc

theorem Steady.claim (h : Steady cooldownMinutes x)
    (hfree : x.1.cooldown.get x.1.now workerId = none)
    (hcooldown : w.cooldown =
      x.1.cooldown.put workerId () (some (x.1.now + window cooldownMinutes)))
    (hnow : w.now = x.1.now) :
    Steady cooldownMinutes (w, ⟨i, x.1, .claim workerId, true⟩ :: x.2) := by
  set e : Step := ⟨i, x.1, .claim workerId, true⟩ with he
  have hself : claimed workerId e = some (i, x.1.now) := if_pos ⟨rfl, rfl⟩
  have hother : ∀ v, v ≠ workerId → claimed v e = none := fun v hv => if_neg fun h => hv h.1.symm
  have hlast : lastClaim workerId (e :: x.2) = some (i, x.1.now) := by
    rw [lastClaim, findSome?_cons, hself]
  have hsince : sinceClaim workerId (e :: x.2) = [] := by
    rw [sinceClaim, takeWhile_cons, hself]
    rfl
  refine ⟨fun v en hen => ?_, fun v c hc => ?_, fun v z hz hact => ?_, fun v z hz hz' => ?_,
    fun v z hz hz' => ?_, fun v c hc => ?_⟩ <;> simp only [hcooldown, hnow] at * <;>
    by_cases hv : v = workerId
  · subst hv
    rw [Keys.put_self] at hen
    obtain rfl := Option.some_inj.1 hen
    exact ⟨_, hlast, rfl⟩
  · rw [Keys.put_of_ne hv] at hen
    rw [lastClaim_cons (hother v hv)]
    exact h.claims v en hen
  · subst hv
    exact .inl ⟨_, Keys.put_self _ _ _ _⟩
  · rw [lastClaim_cons (hother v hv)] at hc
    rw [Keys.put_of_ne hv, sinceClaim_cons (hother v hv)]
    rcases h.kept v c hc with hen | ⟨z, hz, hrel⟩
    · exact .inl hen
    · exact .inr ⟨z, mem_cons_of_mem _ hz, hrel⟩
  · subst hv
    rw [hsince] at hz
    cases hz
  · rw [sinceClaim_cons (hother v hv)] at hz
    rw [lastClaim_cons (hother v hv)]
    rcases mem_cons.1 hz with rfl | hz
    · rcases hact with htells | hrel
      · cases htells
      · cases hrel
    · exact h.under v z hz hact
  · subst hv
    rw [hlast]
    refine .inr ⟨_, rfl, ?_⟩
    rcases mem_cons.1 hz with rfl | hz
    · cases hz'
    · rcases h.earlier v z hz hz' with hunder | ⟨c, hc, hle⟩
      · -- the claim under which the worker was told has expired
        obtain ⟨en, hen⟩ := h.spaced v z hunder hz'
        obtain ⟨c, hc, hexpires⟩ := h.claims v en hen
        obtain ⟨d, hd, -, hat⟩ := h.under v z hunder (.inl hz')
        obtain rfl : c = d := Option.some_inj.1 (hc.symm.trans hd)
        have hdead := Keys.get_eq_none.1 hfree en hen
        rw [Entry.live, hexpires, Option.all_some, decide_eq_false_iff_not, not_lt] at hdead
        rwa [hat hz']
      · exact hle.trans (h.past v c hc)
  · rw [sinceClaim_cons (hother v hv), lastClaim_cons (hother v hv)]
    rcases mem_cons.1 hz with rfl | hz
    · cases hz'
    · exact (h.earlier v z hz hz').imp_left (mem_cons_of_mem _)
  · subst hv
    rw [hsince] at hz
    cases hz
  · rw [sinceClaim_cons (hother v hv)] at hz
    rw [Keys.put_of_ne hv]
    rcases mem_cons.1 hz with rfl | hz
    · cases hz'
    · exact h.spaced v z hz hz'
  · subst hv
    rw [hlast] at hc
    obtain rfl := Option.some_inj.1 hc
    exact le_rfl
  · rw [lastClaim_cons (hother v hv)] at hc
    exact h.past v c hc

/-- A step that claims and releases nothing. -/
theorem Steady.plain (h : Steady cooldownMinutes x) (hpos : 0 < cooldownMinutes)
    (hpre : Pre cooldownMinutes c (own x.2 i)) (hg : orderly cooldownMinutes x (.step i c ε))
    (hexec : exec cooldownMinutes x.1 ε c = some (w, r))
    (hclaim : ∀ v, claimed v (⟨i, x.1, c, r⟩ : Step) = none) (hreleases : ∀ v, c ≠ .release v)
    (hcooldown : w.cooldown = x.1.cooldown) (hnow : x.1.now ≤ w.now) :
    Steady cooldownMinutes (w, ⟨i, x.1, c, r⟩ :: x.2) := by
  refine h.cons hclaim hreleases hcooldown hnow fun v htells => ?_
  obtain ⟨offerId, htold⟩ := exists_told htells
  obtain ⟨hmay, hready⟩ := mayTell_of_told hpre hg hexec htold
  simp only [mayTell, Bool.and_eq_true, Bool.or_eq_true, decide_eq_true_eq] at hmay
  have hlast := hmay.1.resolve_left hpos.ne'
  refine ⟨⟨_, hlast, rfl, rfl⟩, (h.kept v _ hlast).resolve_right ?_⟩
  rintro ⟨e, he, hrel⟩
  exact h.unreleased hlast (hready.2 hpos) e he hrel

theorem Steady.step (h : Steady cooldownMinutes x) (hpos : 0 < cooldownMinutes)
    (hpre : Pre cooldownMinutes c (own x.2 i)) (hg : orderly cooldownMinutes x (.step i c ε))
    (hexec : exec cooldownMinutes x.1 ε c = some (w, r)) :
    Steady cooldownMinutes (w, ⟨i, x.1, c, r⟩ :: x.2) := by
  cases c with
  | claim workerId =>
    rw [exec] at hexec
    split_ifs at hexec with hlive
    · obtain ⟨rfl, rfl⟩ := pair_inj hexec
      exact h.plain hpos hpre hg (by rw [exec, if_pos hlive]) (fun v => if_neg (by simp)) nofun rfl
        le_rfl
    · obtain ⟨rfl, rfl⟩ := pair_inj hexec
      exact h.claim (Option.not_isSome_iff_eq_none.1 hlive) rfl rfl
  | release workerId =>
    obtain ⟨rfl, rfl⟩ := pair_inj hexec
    exact h.release hpre hg rfl rfl
  | join job =>
    have hsame : w.cooldown = x.1.cooldown ∧ w.now = x.1.now := by
      simp only [exec] at hexec
      split at hexec
      · cases hexec
      · split_ifs at hexec
        obtain ⟨rfl, rfl⟩ := pair_inj hexec
        exact ⟨rfl, rfl⟩
    exact h.plain hpos hpre hg hexec (fun _ => rfl) nofun hsame.1 hsame.2.ge
  | take job =>
    have hsame : w.cooldown = x.1.cooldown ∧ w.now = x.1.now := by
      simp only [exec] at hexec
      split at hexec <;> obtain ⟨rfl, rfl⟩ := pair_inj hexec <;>
        exact ⟨rfl, rfl⟩
    exact h.plain hpos hpre hg hexec (fun _ => rfl) nofun hsame.1 hsame.2.ge
  | pass ms =>
    obtain ⟨rfl, rfl⟩ := pair_inj hexec
    exact h.plain hpos hpre hg rfl (fun _ => rfl) nofun rfl (Nat.le_add_right _ _)
  | _ =>
    obtain ⟨rfl, rfl⟩ := pair_inj hexec
    exact h.plain hpos hpre hg rfl (fun _ => rfl) nofun rfl le_rfl

/-! ### What is promised -/

variable (cooldownMinutes) in
/-- What is promised of the steps of a run. -/
structure Heard (l : Log) : Prop where
  /-- No worker is told of an offer twice. -/
  once : Every (fun e older => ∀ offerId workerId, toldOf e = some (offerId, workerId) →
    ∀ e' ∈ older, toldOf e' ≠ some (offerId, workerId)) l
  /-- What a worker is told is a cooldown apart. -/
  apart : 0 < cooldownMinutes → Every (fun e older => ∀ workerId, Tells workerId e →
    ∀ e' ∈ older, Tells workerId e' → e'.store.now + window cooldownMinutes ≤ e.store.now) l
  /-- A worker who is left out by a claim was told something less than a cooldown before. -/
  held : Every (fun e older => ∀ workerId i w, e = ⟨i, w, .claim workerId, false⟩ →
    ∃ e' ∈ older, Tells workerId e' ∧ w.now < e'.store.now + window cooldownMinutes) l

variable (cooldownMinutes) in
/-- What the proof keeps along a run. -/
structure Kept (x : State) : Prop where
  onceBefore : Every OnceBefore x.2
  steady : 0 < cooldownMinutes → Steady cooldownMinutes x
  heard : Heard cooldownMinutes x.2

theorem Kept.step (h : Kept cooldownMinutes x) (hpre : Pre cooldownMinutes c (own x.2 i))
    (hg : orderly cooldownMinutes x (.step i c ε))
    (hexec : exec cooldownMinutes x.1 ε c = some (w, r)) :
    Kept cooldownMinutes (w, ⟨i, x.1, c, r⟩ :: x.2) := by
  have hbefore := OnceBefore.step h.onceBefore hpre hg hexec
  refine ⟨⟨hbefore, h.onceBefore⟩, fun hpos => (h.steady hpos).step hpos hpre hg hexec,
    ⟨fun o v htold => hbefore o v (.inr htold), h.heard.once⟩,
    fun hpos => ⟨fun v htells => ?_, h.heard.apart hpos⟩, ⟨fun v j w' heq => ?_, h.heard.held⟩⟩
  · obtain ⟨offerId, htold⟩ := exists_told htells
    obtain ⟨hmay, hready⟩ := mayTell_of_told hpre hg hexec htold
    exact (h.steady hpos).apart hpos hmay hready
  · obtain ⟨rfl, rfl, hrest⟩ := Entry.mk.inj heq
    obtain ⟨rfl, hr⟩ := hrest
    obtain rfl := eq_of_heq hr
    refine (h.steady hpre).refused hg ?_
    rw [exec] at hexec
    split_ifs at hexec with hlive
    · exact hlive
    · cases hexec

/-- A run of the service from an empty Redis, with a cooldown of one minute. -/
def sampleRun (g : Guard State Cmd Request Env) (acts : List (Act Request Env Exn)) :
    Option (Config State Resp Exn) :=
  (service 1).traced.run g ((service 1).traced.idle ({}, [])) acts

/-- `n` more calls of process `i`; the worker 7 is ranked for every offer. -/
def calls (i n : ℕ) : List (Act Request Env Exn) := replicate n (.step i { ranked := [7] })

/-- Process `i` puts a run for the offer into memory, and process `i + 1` is a runner of it that
takes `n` calls. -/
def tells (i job offerId n : ℕ) : List (Act Request Env Exn) :=
  .spawn (.notify offerId) :: calls i 4 ++ .spawn (.runner job 2) :: calls (i + 1) n

/-- Process `i` lets time pass. -/
def waits (i ms : ℕ) : List (Act Request Env Exn) := .spawn (.pass ms) :: calls i 1

/-- What was told, the last thing first, with the times. -/
def told (l : Log) : List ((ℕ × ℕ) × ℕ) :=
  l.filterMap fun e => (toldOf e).map fun pair => (pair, e.store.now)

/-- The workers whom a claim has left out. -/
def leftOut (l : Log) : List ℕ :=
  l.filterMap fun e =>
    match e with
    | ⟨_, _, .claim workerId, granted⟩ => if granted = false then some workerId else none
    | _ => none

/-- The worker is told of one offer, left out for another, and told of it a minute later. -/
def tellsTwo : List (Act Request Env Exn) :=
  tells 0 0 0 11 ++ tells 2 1 1 6 ++ waits 4 60000 ++ tells 5 2 1 11

/-- A runner stops between its send and the marker, and the job is run again a minute later. -/
def stopsUnmarked : List (Act Request Env Exn) :=
  tells 0 0 0 6 ++ waits 2 60000 ++ tells 3 1 0 6

/-- A send takes almost as long as its claim lasts, and another offer claims right after that. -/
def sendsSlowly : List (Act Request Env Exn) :=
  tells 0 0 0 5 ++ waits 2 59999 ++ calls 1 1 ++ waits 3 1 ++ tells 4 1 1 6

/-- A runner stops between its claim and its send, and the job is run again to its end. -/
def stopsUnsent : List (Act Request Env Exn) :=
  tells 0 0 0 4 ++ tells 2 1 0 6

theorem mem_told {z : (ℕ × ℕ) × ℕ} (h : z ∈ told l) :
    ∃ e ∈ l, toldOf e = some z.1 ∧ e.store.now = z.2 := by
  obtain ⟨e, he, hz⟩ := mem_filterMap.1 h
  obtain ⟨pair, hpair, rfl⟩ := Option.map_eq_some_iff.1 hz
  exact ⟨e, he, hpair, rfl⟩

/-- What was told: no pair twice, and a worker's a cooldown apart. -/
theorem Heard.pairwise_told (h : Heard cooldownMinutes l) (hpos : 0 < cooldownMinutes) :
    (told l).Pairwise fun a b => a.1 ≠ b.1 ∧
      (a.1.2 = b.1.2 → b.2 + window cooldownMinutes ≤ a.2) := by
  induction l with
  | nil => exact List.Pairwise.nil
  | cons e l ih =>
    have hrest := ih ⟨h.once.2, fun hpos => (h.apart hpos).2, h.held.2⟩
    rw [told, filterMap_cons]
    cases htold : toldOf e with
    | none => exact hrest
    | some pair =>
      refine pairwise_cons.2 ⟨fun b hb => ?_, hrest⟩
      obtain ⟨e', he', htold', hat⟩ := mem_told hb
      refine ⟨fun hsame => ?_, fun hsame => ?_⟩
      · exact h.once.1 pair.1 pair.2 htold e' he' (htold'.trans (congrArg some hsame.symm))
      · rw [← hat]
        refine (h.apart hpos).1 pair.2 (by rw [Tells, htold]; rfl) e' he' ?_
        rw [Tells, htold', Option.map_some, ← hsame]

/-- Where somebody is left out by a claim, somebody was told. -/
theorem Heard.told_ne_nil (h : Heard cooldownMinutes l) {workerId : ℕ}
    (hleft : workerId ∈ leftOut l) : told l ≠ [] := by
  obtain ⟨e, he, hrefused⟩ := mem_filterMap.1 hleft
  split at hrefused
  · rename_i i w v granted
    split_ifs at hrefused with hgranted
    subst hgranted
    obtain ⟨older, hsuffix⟩ := exists_suffix_of_mem he
    obtain ⟨e', he', htells, -⟩ := every_iff.1 h.held _ _ hsuffix v i w rfl
    obtain ⟨offerId, htold⟩ := exists_told htells
    have hmem : ((offerId, v), e'.store.now) ∈ told l :=
      mem_filterMap.2 ⟨e', hsuffix.subset (mem_cons_of_mem _ he'), by rw [htold]; rfl⟩
    exact ne_nil_of_mem hmem
  · cases hrefused

end Rabotka.Notifying
