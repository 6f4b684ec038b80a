import Rabotka.OAuth.Rules

/-!
# Every step keeps the rules

`Ran e w` lists what the steps do: a step that only reads, or one of the steps that write. From
it `Inv.step` derives, for each kind of step, that the facts behind the keys stay true. `contract` puts this
together with what the processes keep to.
-/

namespace Rabotka.OAuth

open Async Trace Expiring List

variable {i k id code accessToken : ℕ} {e : Step} {l : Log} {w w' : World} {x : State} {ε : Env}

/-! ### What the steps do -/

/-- The command leaves the world alone. -/
def Cmd.reads : Cmd → Bool
  | .dateNow | .getInteraction _ | .getAccessToken _ | .resolveSessionProfile | .sendOtp _
  | .verifyOtpAndGetProfile _ _ _ | .findApp _ | .findProfile _ | .findAuthorization _ _
  | .findAuthorizationById _ => true
  | _ => false

/-- The step was taken and left the world `w`. -/
inductive Ran : Step → World → Prop
  | read (e : Step) : e.cmd.reads → Ran e e.store
  | lookup i w clientId : Ran ⟨i, w, .findAppByClientId clientId, w.appByClientId clientId⟩ w
  | begin i w r : Ran ⟨i, w, .setInteraction r, w.serial⟩
      { w with
        serial := w.serial + 1
        interactions :=
          w.interactions.put w.serial r (some (w.after interactionTtlSeconds)) }
  | keep i w id next why : Ran ⟨i, w, .keepInteraction id next why, ()⟩ (w.keepInteraction id next)
  | drop i w id why : Ran ⟨i, w, .delInteraction id why, ()⟩
      { w with interactions := w.interactions.del id }
  | mint i w id grant : Ran ⟨i, w, .setCode id grant, w.serial⟩
      { w with
        serial := w.serial + 1
        codes := w.codes.put w.serial grant (some (w.after authCodeTtlSeconds)) }
  | miss i w code : Ran ⟨i, w, .getAndDeleteCode code, none⟩ w
  | consume i w code grant : w.codes.get w.now code = some grant →
      Ran ⟨i, w, .getAndDeleteCode code, some grant⟩ { w with codes := w.codes.del code }
  | grant i w code record : Ran ⟨i, w, .setAccessToken code record, w.serial⟩
      { w with
        serial := w.serial + 1
        accessTokens :=
          w.accessTokens.put w.serial record (some (w.after accessTokenTtlSeconds)) }
  | dropToken i w accessToken : Ran ⟨i, w, .delAccessToken accessToken, ()⟩
      { w with accessTokens := w.accessTokens.del accessToken }
  | consent i w appId profileId sub scopes : Ran
      ⟨i, w, .upsertAuthorization appId profileId sub scopes,
        (w.consentRows appId profileId sub scopes).2⟩
      (w.upsertAuthorization appId profileId sub scopes)
  | sendTokens i w dto response : Ran ⟨i, w, .sendTokens dto response, ()⟩ w
  | sendClaims i w accessToken claims : Ran ⟨i, w, .sendClaims accessToken claims, ()⟩ w
  | addProfile i w profile : Ran ⟨i, w, .addProfile profile, ()⟩
      { w with profiles := w.profiles ++ [profile] }
  | changeProfile i w id profile : Ran ⟨i, w, .changeProfile id profile, ()⟩
      { w with profiles := Table.update w.profiles id fun _ => profile }
  | registerApp i w app : (∀ a ∈ w.apps, a.clientId ≠ app.clientId) →
      Ran ⟨i, w, .registerApp app, ()⟩ { w with apps := w.apps ++ [app] }
  | updateApp i w id changes : Ran ⟨i, w, .updateApp id changes, ()⟩
      { w with apps := Table.update w.apps id changes.apply }
  | removeApp i w id : Ran ⟨i, w, .removeApp id, ()⟩ (w.removeApp id)
  | revoke i w id : Ran ⟨i, w, .revokeAuthorization id, ()⟩ (w.revokeAuthorization id)
  | elapse i w milliseconds : Ran ⟨i, w, .elapse milliseconds, ()⟩
      { w with now := w.now + milliseconds }

/-- **Inversion of a command.** -/
theorem ran_of_exec {c : Cmd} {a : Resp c} (h : exec w ε c = some (w', a)) :
    Ran ⟨i, w, c, a⟩ w' := by
  cases c <;> simp only [exec, Option.some.injEq, Prod.mk.injEq] at h
  case setInteraction r =>
    obtain ⟨rfl, rfl⟩ := h
    exact .begin i w r
  case keepInteraction id next why =>
    obtain ⟨rfl, -⟩ := h
    exact .keep i w id next why
  case delInteraction id why =>
    obtain ⟨rfl, -⟩ := h
    exact .drop i w id why
  case setCode id grant =>
    obtain ⟨rfl, rfl⟩ := h
    exact .mint i w id grant
  case getAndDeleteCode code =>
    split at h
    · obtain ⟨rfl, rfl⟩ := pair_inj h
      exact .miss i w code
    · rename_i grant hget
      obtain ⟨rfl, rfl⟩ := pair_inj h
      exact .consume i w code grant hget
  case setAccessToken code record =>
    obtain ⟨rfl, rfl⟩ := h
    exact .grant i w code record
  case delAccessToken accessToken =>
    obtain ⟨rfl, -⟩ := h
    exact .dropToken i w accessToken
  case upsertAuthorization appId profileId sub scopes =>
    obtain ⟨rfl, rfl⟩ := h
    exact .consent i w appId profileId sub scopes
  case sendTokens dto response =>
    obtain ⟨rfl, -⟩ := h
    exact .sendTokens i w dto response
  case sendClaims accessToken claims =>
    obtain ⟨rfl, -⟩ := h
    exact .sendClaims i w accessToken claims
  case addProfile profile =>
    obtain ⟨rfl, -⟩ := h
    exact .addProfile i w profile
  case changeProfile id profile =>
    obtain ⟨rfl, -⟩ := h
    exact .changeProfile i w id profile
  case registerApp app =>
    split at h
    · cases h
    · rename_i hnew
      obtain ⟨rfl, -⟩ := pair_inj h
      exact .registerApp i w app (by simpa using hnew)
  case updateApp id changes =>
    obtain ⟨rfl, -⟩ := h
    exact .updateApp i w id changes
  case removeApp id =>
    obtain ⟨rfl, -⟩ := h
    exact .removeApp i w id
  case revokeAuthorization id =>
    obtain ⟨rfl, -⟩ := h
    exact .revoke i w id
  case elapse milliseconds =>
    obtain ⟨rfl, -⟩ := h
    exact .elapse i w milliseconds
  case findAppByClientId clientId =>
    obtain ⟨rfl, rfl⟩ := h
    exact .lookup i w clientId
  all_goals
    obtain ⟨rfl, rfl⟩ := h
    exact .read ⟨i, w, _, _⟩ rfl

/-- The rows of the applications stay, with their client and their world. -/
theorem Ran.apps (h : Ran e w') :
    Table.Grows (fun a : OAuthApp => (a.clientId, a.isSandbox)) e.store.apps w'.apps := by
  cases h with
  | registerApp i w app hnew => exact .append _ _ _
  | updateApp | removeApp => exact .update fun _ => rfl
  | _ => exact .refl _ _

/-- A step that reads draws nothing, and redeems nothing. -/
theorem quiet_of_reads (h : e.cmd.reads) :
    (∀ n, ¬ Draws e n) ∧ ∀ code, consumes code e = false ∧ redeems code e = false := by
  obtain ⟨i, w, c, a⟩ := e
  cases c
  all_goals first
    | exact ⟨fun _ hn => hn, fun _ => ⟨rfl, rfl⟩⟩
    | cases h

/-- A lookup finds what is there. -/
theorem Ran.found (h : Ran e w') : match e with
    | ⟨_, w, .findAppByClientId clientId, found⟩ => found = w.appByClientId clientId
    | _ => True := by
  cases h with
  | read e hreads =>
    obtain ⟨i, w, c, a⟩ := e
    cases c <;> trivial
  | lookup i w clientId => rfl
  | _ => trivial

/-- Numbers are drawn once. -/
theorem Ran.serial (h : Ran e w') :
    e.store.serial ≤ w'.serial ∧ ∀ n, Draws e n → n = e.store.serial ∧ n < w'.serial := by
  cases h with
  | read e hreads => exact ⟨le_rfl, fun n hn => ((quiet_of_reads hreads).1 n hn).elim⟩
  | begin | mint => exact ⟨Nat.le_succ _, fun n hn => ⟨hn.symm, hn ▸ Nat.lt_succ_self _⟩⟩
  | grant i w code record =>
    exact ⟨Nat.le_succ _, fun n hn => ⟨hn.symm, hn ▸ Nat.lt_succ_self _⟩⟩
  | _ => exact ⟨le_rfl, fun _ hn => hn.elim⟩

/-! ### The invariant -/

variable {crypto : Crypto}

/-- The records of the interactions stay genuine. -/
theorem Inv.interactions_step (h : Ran e w') (hx : Inv (e.store, l))
    (hpre : Pre crypto e.proc e.cmd (e.store, l)) :
    ∀ id z, w'.interactions id = some z → Genuine id z.value (e :: l) := by
  have hold : ∀ id z, e.store.interactions id = some z → Genuine id z.value (e :: l) :=
    fun id z hz => (hx.interactions id z hz).mono (suffix_cons e l)
  cases h with
  | begin i w r =>
    intro id z hz
    rcases eq_or_ne id w.serial with rfl | hne
    · obtain rfl := Option.some.inj ((Keys.put_self _ _ _ _).symm.trans hz)
      have hbegun : Begun w.serial r (⟨i, w, .setInteraction r, w.serial⟩ :: l) :=
        ⟨i, w, l, suffix_rfl, hpre⟩
      exact ⟨⟨r, hbegun, rfl⟩, fun s hs => .inl ⟨r, hbegun, hs⟩⟩
    · exact hold id z ((Keys.put_of_ne hne _ _ _).symm.trans hz)
  | keep i w id next why =>
    intro id' z hz
    rcases eq_or_ne id' id with rfl | hne
    · obtain rfl := Option.some.inj ((Keys.put_self _ _ _ _).symm.trans hz)
      cases why with
      | sent => exact Genuine.mono hpre (suffix_cons _ l)
      | counted => exact hpre.1.mono (suffix_cons _ l)
      | accepted phone otp =>
        obtain ⟨⟨r, hr, hterms⟩, ⟨s, hs, hproved⟩, -⟩ := hpre
        refine (hr.mono (suffix_cons _ l)).progress hterms fun s' hs' => ?_
        obtain rfl : s' = s := Option.some.inj (hs'.symm.trans hs)
        exact .inr ⟨i, w, next, phone, otp, l, suffix_rfl, hs, hproved⟩
    · exact hold id' z ((Keys.put_of_ne hne _ _ _).symm.trans hz)
  | drop i w id why => exact fun id' z hz => hold id' z (Keys.of_del hz).2
  | _ => exact hold

/-- The codes stay minted. -/
theorem Inv.codes_step (h : Ran e w') (hx : Inv (e.store, l))
    (hpre : Pre crypto e.proc e.cmd (e.store, l)) :
    ∀ code z, w'.codes code = some z → Minted code z.value (e :: l) := by
  have hold : ∀ code z, e.store.codes code = some z → Minted code z.value (e :: l) :=
    fun code z hz => (hx.codes code z hz).mono (suffix_cons e l)
  cases h with
  | mint i w id grant =>
    intro code z hz
    rcases eq_or_ne code w.serial with rfl | hne
    · obtain rfl := Option.some.inj ((Keys.put_self _ _ _ _).symm.trans hz)
      exact ⟨i, w, id, l, suffix_rfl, hpre.1⟩
    · exact hold code z ((Keys.put_of_ne hne _ _ _).symm.trans hz)
  | consume i w code grant hget => exact fun code' z hz => hold code' z (Keys.of_del hz).2
  | _ => exact hold

/-- The access tokens stay granted. -/
theorem Inv.tokens_step (h : Ran e w') (hx : Inv (e.store, l)) :
    ∀ accessToken z, w'.accessTokens accessToken = some z →
      ∃ i w code, (⟨i, w, .setAccessToken code z.value, accessToken⟩ : Step) ∈ e :: l := by
  have hold : ∀ accessToken z, e.store.accessTokens accessToken = some z →
      ∃ i w code, (⟨i, w, .setAccessToken code z.value, accessToken⟩ : Step) ∈ e :: l := by
    intro accessToken z hz
    obtain ⟨i, w, code, hmem⟩ := hx.tokens accessToken z hz
    exact ⟨i, w, code, mem_cons_of_mem _ hmem⟩
  cases h with
  | grant i w code record =>
    intro accessToken z hz
    rcases eq_or_ne accessToken w.serial with rfl | hne
    · obtain rfl := Option.some.inj ((Keys.put_self _ _ _ _).symm.trans hz)
      exact ⟨i, w, code, mem_cons_self⟩
    · exact hold accessToken z ((Keys.put_of_ne hne _ _ _).symm.trans hz)
  | dropToken i w accessToken => exact fun token z hz => hold token z (Keys.of_del hz).2
  | _ => exact hold

/-- Applications that were found stay, with their client and their world. -/
theorem Inv.apps_step (h : Ran e w') (hx : Inv (e.store, l)) :
    ∀ i appId app, Looked i appId app (e :: l) → ∃ a : OAuthApp, w'.apps[appId]? = some a ∧
      a.clientId = app.clientId ∧ a.isSandbox = app.isSandbox := by
  rintro i appId app ⟨hdeleted, w, hmem⟩
  have hrow : ∃ a : OAuthApp, e.store.apps[appId]? = some a ∧ a.clientId = app.clientId ∧
      a.isSandbox = app.isSandbox := by
    rcases mem_cons.1 hmem with rfl | hmem
    · exact ⟨app, (Table.findFirst_eq_some h.found.symm).1, rfl, rfl⟩
    · exact hx.apps i appId app ⟨hdeleted, w, hmem⟩
  obtain ⟨a, ha, hclient, hsandbox⟩ := hrow
  obtain ⟨b, hb, hkey⟩ := h.apps appId a ha
  exact ⟨b, hb, (congrArg Prod.fst hkey).trans hclient, (congrArg Prod.snd hkey).trans hsandbox⟩

/-- A code is taken at most once. -/
theorem Inv.spent_step (h : Ran e w') (hx : Inv (e.store, l)) :
    ∀ code, (e :: l).countP (consumes code) ≤ 1 ∧
      ((w'.codes code).isSome → (e :: l).countP (consumes code) = 0) ∧
        (w'.serial ≤ code → (e :: l).countP (consumes code) = 0) := by
  intro code
  obtain ⟨hle, hstored, hnew⟩ := hx.spent code
  have hquiet : consumes code e = false →
      (e :: l).countP (consumes code) = l.countP (consumes code) := fun he =>
    countP_cons_of_neg (by simp [he])
  have hsame : consumes code e = false → w'.codes = e.store.codes →
      (e :: l).countP (consumes code) ≤ 1 ∧
        ((w'.codes code).isSome → (e :: l).countP (consumes code) = 0) ∧
          (w'.serial ≤ code → (e :: l).countP (consumes code) = 0) := fun he hcodes => by
    rw [hquiet he, hcodes]
    exact ⟨hle, hstored, fun hserial => hnew (h.serial.1.trans hserial)⟩
  cases h with
  | read e hreads => exact hsame ((quiet_of_reads hreads).2 code).1 rfl
  | mint i w id grant =>
    rw [hquiet rfl]
    refine ⟨hle, fun hsome => ?_, fun hserial => hnew ((Nat.le_succ _).trans hserial)⟩
    rcases eq_or_ne code w.serial with rfl | hne
    · exact hnew le_rfl
    · exact hstored ((congrArg Option.isSome (Keys.put_of_ne hne w.codes grant _)).symm.trans hsome)
  | consume i w code' grant hget =>
    rcases eq_or_ne code code' with rfl | hne
    · -- the code was there, so nobody has taken it before
      obtain ⟨z, hz, -⟩ := Keys.get_eq_some.1 hget
      have hzero := hstored (by simp [hz])
      rw [countP_cons_of_pos (by simp [consumes]), hzero]
      refine ⟨le_rfl, fun hsome => ?_, fun hserial => ?_⟩
      · simp at hsome
      · obtain ⟨k, v, id, older, hsuffix, -⟩ := hx.codes code z hz
        exact absurd (hx.drawn _ (mem_of_suffix hsuffix) code rfl) (not_lt.2 hserial)
    · rw [hquiet (by simp [consumes, hne.symm])]
      exact ⟨hle, fun hsome => hstored ((congrArg Option.isSome
        (Keys.del_of_ne hne w.codes)).symm.trans hsome), hnew⟩
  | _ => exact hsame rfl rfl

/-- A process answers no more redemptions of a code than it has taken it. -/
theorem Inv.redeemed_step (h : Ran e w') (hx : Inv (e.store, l))
    (hpre : Pre crypto e.proc e.cmd (e.store, l)) (i code : ℕ) :
    (own (e :: l) i).countP (redeems code) ≤ (own (e :: l) i).countP (consumes code) := by
  have hold := hx.redeemed i code
  by_cases hi : e.proc = i
  · rw [own_cons_self hi]
    have hquiet : redeems code e = false → (e :: own l i).countP (redeems code) ≤
        (e :: own l i).countP (consumes code) := fun he => by
      rw [countP_cons_of_neg (by simp [he])]
      exact hold.trans ((sublist_cons_self e _).countP_le)
    cases h with
    | read e hreads => exact hquiet ((quiet_of_reads hreads).2 code).2
    | sendTokens k w dto response =>
      subst hi
      obtain ⟨hnone, grant, a, hbacked, -⟩ := hpre
      obtain ⟨v, hv⟩ := hbacked.holds.2
      by_cases hcode : dto.code = code
      · subst hcode
        have htaken : 0 < (own l k).countP (consumes dto.code) :=
          countP_pos_iff.2 ⟨_, mem_filter.2 ⟨hv, by simp⟩, by simp [consumes]⟩
        rw [countP_cons_of_pos (by simp [redeems]), hnone, countP_cons_of_neg (by simp [consumes])]
        exact htaken
      · exact hquiet (by simp [redeems, hcode])
    | _ => exact hquiet rfl
  · rw [own_cons_of_ne hi]
    exact hold

/-- **The invariant is kept.** -/
theorem Inv.step (h : Ran e w') (hx : Inv (e.store, l))
    (hpre : Pre crypto e.proc e.cmd (e.store, l)) : Inv (w', e :: l) where
  interactions := hx.interactions_step h hpre
  codes := hx.codes_step h hpre
  tokens := hx.tokens_step h
  apps := hx.apps_step h
  drawn z hz n hn := by
    rcases mem_cons.1 hz with rfl | hz
    · exact (h.serial.2 n hn).2
    · exact (hx.drawn z hz n hn).trans_le h.serial.1
  once z hz u hu n hzn hun := by
    -- a new number is larger than the old ones
    have hnew : ∀ v ∈ l, Draws v n → ¬ Draws e n := fun v hv hvn hen =>
      absurd (hx.drawn v hv n hvn) ((h.serial.2 n hen).1 ▸ lt_irrefl _)
    rcases mem_cons.1 hz with hze | hz <;> rcases mem_cons.1 hu with hue | hu
    · exact hze.trans hue.symm
    · exact absurd (hze ▸ hzn) (hnew u hu hun)
    · exact absurd (hue ▸ hun) (hnew z hz hzn)
    · exact hx.once z hz u hu n hzn hun
  spent := hx.spent_step h
  redeemed := hx.redeemed_step h hpre

/-- The contract of the endpoints. -/
def contract (crypto : Crypto) : Contract (service crypto) where
  inv := Inv
  pre := Pre crypto
  sound {_ i _ _ _ _} hx hpre hexec := hx.step (ran_of_exec (i := i) hexec) hpre

end Rabotka.OAuth
