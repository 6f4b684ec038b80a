import Rabotka.OAuth.Steps

/-!
# The endpoints keep to the contract

Each program is followed call by call. What a call learns is a fact about the steps, which lasts
(`Lasting`), or a fact about the world that holds as long as nobody disturbs the process
(`Undisturbed`). `handles` collects the endpoints.
-/

namespace Rabotka.OAuth

open Async Trace Expiring Text List

variable {crypto : Crypto} {i id appId profileId code accessToken : ℕ} {app : OAuthApp}
  {r interaction : OAuthInteraction} {grant : AuthorizationCodeGrant} {s : Subject}
  {phone otp clientId : String} {F G : Log → Prop} {α : Type}

/-! ### Calls -/

/-- The triples of this service. -/
abbrev Spec (crypto : Crypto) (i : ℕ) (P : State → Prop) (op : Prog α) (Q : α → State → Prop)
    (X : Exn → State → Prop) : Prop :=
  (contract crypto).discipline.Triple i P op Q X

/-- Nothing is promised where an endpoint throws. -/
abbrev anyway : Exn → State → Prop := fun _ _ => True

/-- A fact about the steps that a longer run keeps. -/
def Lasting (F : Log → Prop) : Prop :=
  ∀ l l', l <:+ l' → F l → F l'

theorem lasting_true : Lasting fun _ => True := fun _ _ _ h => h

theorem Lasting.and (hF : Lasting F) (hG : Lasting G) : Lasting fun l => F l ∧ G l :=
  fun l l' hl h => ⟨hF l l' hl h.1, hG l l' hl h.2⟩

theorem lasting_genuine (id : ℕ) (r : OAuthInteraction) : Lasting (Genuine id r) :=
  fun _ _ hl h => h.mono hl

/-- A call whose process knows facts about the steps only. -/
theorem call_spec {c : Cmd} {Q : Resp c → Log → Prop} (hF : Lasting F)
    (hpre : ∀ x, Inv x → F x.2 → Pre crypto i c x)
    (hstep : ∀ x ε w a, Inv x → F x.2 → exec x.1 ε c = some (w, a) → Q a (⟨i, x.1, c, a⟩ :: x.2)) :
    Spec crypto i (fun x => F x.2) (issue c) (fun a x => Q a x.2) fun _ x => F x.2 :=
  Contract.triple_cmd (Contract.stable_trace hF) hpre
    (fun x ε w a hx hF hexec _ => hstep x ε w a hx hF hexec) fun _ _ _ h => h

/-- A call that needs nothing and of whose answer nothing is remembered. -/
theorem plain_spec {c : Cmd} (hF : Lasting F) (hpre : ∀ x, Inv x → F x.2 → Pre crypto i c x) :
    Spec crypto i (fun x => F x.2) (issue c) (fun _ x => F x.2) fun _ x => F x.2 :=
  call_spec (F := F) hF hpre fun _ _ _ _ _ h _ => hF _ _ (suffix_cons _ _) h

theorem seconds_spec (hF : Lasting F) :
    Spec crypto i (fun x => F x.2) seconds (fun _ x => F x.2) fun _ x => F x.2 :=
  .bind (plain_spec (c := .dateNow) hF fun _ _ _ => trivial) fun _ => .ret fun _ _ h => h

/-- What is read is genuine. -/
theorem require_spec (hF : Lasting F) :
    Spec crypto i (fun x => F x.2) (require id) (fun r x => F x.2 ∧ Genuine id r x.2)
      fun _ x => F x.2 := by
  refine .bind (R := fun found (x : State) => F x.2 ∧ ∀ r, found = some r → Genuine id r x.2)
    (call_spec (c := .getInteraction id) (F := F)
      (Q := fun found l => F l ∧ ∀ r, found = some r → Genuine id r l) hF (fun _ _ _ => trivial)
      fun x ε w a hx h hexec => ?_) fun found => ?_
  · obtain ⟨-, rfl⟩ := pair_inj hexec
    refine ⟨hF _ _ (suffix_cons _ _) h, fun r hr => ?_⟩
    obtain ⟨z, hz, -, rfl⟩ := Keys.get_eq_some.1 hr
    exact (hx.interactions id z hz).mono (suffix_cons _ _)
  · cases found with
    | none => exact .fail fun x _ h => h.1
    | some r => exact .ret fun x _ h => ⟨h.1, h.2 r rfl⟩

/-- A write of the interaction. -/
theorem patch_spec {changes : OAuthInteraction → OAuthInteraction} {p : Patch} (hF : Lasting F)
    (hpre : ∀ r x, Inv x → F x.2 → Genuine id r x.2 →
      Pre crypto i (.keepInteraction id (changes r) p) x) :
    Spec crypto i (fun x => F x.2) (patch id changes p) (fun _ x => F x.2) fun _ x => F x.2 := by
  refine .bind (require_spec (F := F) hF) fun r => ?_
  have hboth : Lasting fun l => F l ∧ Genuine id r l := hF.and (lasting_genuine id r)
  exact (plain_spec (F := fun l => F l ∧ Genuine id r l) hboth
    fun x hx h => hpre r x hx h.1 h.2).post_mono (fun _ _ _ h => h.1)
    fun _ _ _ h => h.1

/-! ### Authorize -/

/-- The session of the browser, as the process has resolved it. -/
def Session (i : ℕ) (existing : Option ℕ) (l : Log) : Prop :=
  ∀ p, existing = some p → ∃ w, (⟨i, w, .resolveSessionProfile, some p⟩ : Step) ∈ l

theorem lasting_session (i : ℕ) (existing : Option ℕ) : Lasting (Session i existing) :=
  fun _ _ hl h p hp => (h p hp).imp fun _ hw => hl.mem hw

/-- The lookup of an application: it was found, and as long as nobody disturbs the process the row
is as it was. -/
theorem findByClientId_spec {P : State → Prop} (hP : (contract crypto).discipline.Stable i P)
    (hkeep : ∀ x found, P x → P (x.1, ⟨i, x.1, .findAppByClientId clientId, found⟩ :: x.2)) :
    Spec crypto i P (findByClientId clientId)
      (fun found x => P x ∧ ∀ appId app, found = some (appId, app) →
        Looked i appId app x.2 ∧ app.clientId = clientId ∧
          Undisturbed i (fun x => x.1.apps[appId]? = some app) x) fun _ => P := by
  unfold findByClientId
  split
  · exact .ret fun x _ h => ⟨h, fun _ _ hfound => by cases hfound⟩
  · refine Contract.triple_cmd hP (fun _ _ _ => trivial) (fun x ε w found _ h hexec _ => ?_)
      fun _ _ _ h => h
    obtain ⟨rfl, rfl⟩ := pair_inj hexec
    refine ⟨hkeep x _ h, fun appId app hfound => ?_⟩
    obtain ⟨hrow, hmatch⟩ := Table.findFirst_eq_some hfound
    obtain ⟨rfl, hdeleted⟩ := of_decide_eq_true hmatch
    refine ⟨⟨hdeleted, x.1, ?_⟩, rfl, undisturbed_of_step rfl hrow⟩
    rw [← hfound]
    exact mem_cons_self

variable {query : AuthorizeRequest} {scopes : List String}

/-- The scopes that pass the checks are among the allowed ones. -/
theorem mem_allowed_of_checkRequest {redirectUri : String}
    (h : checkRequest app redirectUri query = .ok scopes) :
    ∀ scope ∈ scopes, scope ∈ app.allowedScopes := by
  have hgranted : scopes = grantableScopes app (parseScopes query.scope) := by
    simp only [checkRequest, checkRequest.fail] at h
    repeat' split at h
    all_goals cases h
    rfl
  intro scope hscope
  rw [hgranted] at hscope
  exact of_decide_eq_true (mem_filter.1 hscope).2

/-- The process found the application active and the redirect URI registered. -/
def Registered (i appId : ℕ) (app : OAuthApp) (redirectUri : String) (l : Log) : Prop :=
  Looked i appId app l ∧ app.status = .active ∧ redirectUri ∈ app.redirectUris

theorem lasting_registered (i appId : ℕ) (app : OAuthApp) (redirectUri : String) :
    Lasting (Registered i appId app redirectUri) :=
  fun _ _ hl h => h.imp_left fun hlooked => hlooked.mono hl

theorem openInteraction_spec {redirectUri : String}
    {existing : Option ℕ}
    (hscopes : ∀ scope ∈ scopes, scope ∈ app.allowedScopes) :
    Spec crypto i (fun x => Session i existing x.2 ∧ Registered i appId app redirectUri x.2)
      (openInteraction appId app redirectUri scopes query existing) (fun _ _ => True) anyway := by
  have hlast : Lasting fun l => Session i existing l ∧ Registered i appId app redirectUri l :=
    (lasting_session i existing).and (lasting_registered i appId app redirectUri)
  refine .bind (R := fun _ (x : State) =>
    Session i existing x.2 ∧ Registered i appId app redirectUri x.2) ?_ fun authTime => ?_
  · unfold sessionTime
    split
    · exact .ret fun _ _ h => h
    · exact .bind ((seconds_spec hlast).post_mono (fun _ _ _ h => h) fun _ _ _ _ => trivial)
        fun _ => .ret fun _ _ h => h
  · refine (plain_spec (c := .setInteraction _) hlast fun x _ h => ?_).post_mono
      (fun _ _ _ _ => trivial) fun _ _ _ _ => trivial
    obtain ⟨hsession, hlooked, hstatus, huri⟩ := h
    refine ⟨⟨app, hlooked, hstatus, rfl, huri, hscopes, rfl⟩, fun s hs => ?_, rfl⟩
    obtain ⟨p, hp, rfl⟩ := Option.map_eq_some_iff.1 hs
    split at hp
    · cases hp
    · obtain ⟨w, hw⟩ := hsession p hp
      exact ⟨p, w, rfl, hw⟩

theorem beginAuthorization_spec {existing : Option ℕ} :
    Spec crypto i (fun x => Session i existing x.2) (beginAuthorization query existing)
      (fun _ _ => True) anyway := by
  unfold beginAuthorization
  split
  · exact .fail fun _ _ _ => trivial
  · exact .fail fun _ _ _ => trivial
  · refine .bind ((findByClientId_spec (Contract.stable_trace (lasting_session i existing))
      fun x _ h => lasting_session i existing _ _ (suffix_cons _ _) h).post_mono
        (fun _ _ _ h => h) fun _ _ _ _ => trivial) fun found => ?_
    split
    · exact .fail fun _ _ _ => trivial
    · rename_i appId app
      split
      · exact .fail fun _ _ _ => trivial
      · rename_i hactive
        split
        · exact .fail fun _ _ _ => trivial
        · rename_i redirectUri _
          split
          · exact .fail fun _ _ _ => trivial
          · rename_i huri
            split
            · exact .fail fun _ _ _ => trivial
            · rename_i scopes hscopes
              refine (openInteraction_spec (mem_allowed_of_checkRequest hscopes)).pre_mono
                fun x _ h => ⟨h.1, (h.2 appId app rfl).1, not_not.1 hactive, ?_⟩
              have hregistered : isRegisteredRedirectUri redirectUri app.redirectUris = true := by
                simpa using huri
              simp only [isRegisteredRedirectUri, Bool.and_eq_true, decide_eq_true_eq]
                at hregistered
              exact hregistered.2

theorem authorize_spec :
    Spec crypto i (fun _ => True) (authorize query) (fun _ _ => True) anyway := by
  refine .bind (R := fun existing (x : State) => Session i existing x.2) ?_
    fun existing => beginAuthorization_spec
  unfold sessionProfile
  split
  · exact .ret fun _ _ _ _ hp => by cases hp
  · refine (call_spec (c := .resolveSessionProfile) (F := fun _ => True) lasting_true
      (fun _ _ _ => trivial) fun x ε w a _ _ _ p hp => ?_).post_mono (fun _ _ _ h => h)
        fun _ _ _ _ => trivial
    subst hp
    exact ⟨x.1, mem_cons_self⟩

/-! ### The consent screen -/

/-- A program that only reads promises nothing and needs nothing. -/
theorem consentContext_spec :
    Spec crypto i (fun _ => True) (consentContext id) (fun _ _ => True) anyway := by
  have hread : ∀ {c : Cmd}, (∀ x, Pre crypto i c x) →
      Spec crypto i (fun _ => True) (issue c) (fun _ _ => True) anyway := fun {c} hpre =>
    plain_spec (c := c) (F := fun _ => True) lasting_true fun x _ _ => hpre x
  refine .bind ((require_spec (F := fun _ => True) lasting_true).post_mono
    (fun _ _ _ _ => trivial) fun _ _ _ _ => trivial) fun interaction => ?_
  refine .bind (hread (c := .findApp interaction.appId) fun _ => trivial) fun found => ?_
  split
  · exact .fail fun _ _ _ => trivial
  · dsimp only
    split
    · exact .ret fun _ _ _ => trivial
    · exact .ret fun _ _ _ => trivial
    · rename_i profileId _
      refine .bind (hread (c := .findProfile profileId) fun _ => trivial) fun row => ?_
      split
      · exact .ret fun _ _ _ => trivial
      · refine .bind (R := fun _ _ => True) ?_ fun _ => .ret fun _ _ _ => trivial
        refine .bind (hread (c := .findAuthorization interaction.appId profileId)
          fun _ => trivial) fun standing => ?_
        split
        · exact .ret fun _ _ _ => trivial
        · exact .ret fun _ _ _ => trivial

/-! ### One-time codes -/

theorem recordFailedOtp_spec :
    Spec crypto i (fun _ => True) (recordFailedOtp id) (fun _ _ => True) anyway := by
  refine .bind ((require_spec (F := fun _ => True) lasting_true).post_mono
    (fun _ _ _ h => h.2) fun _ _ _ _ => trivial) fun current => ?_
  have hlast := lasting_genuine id current
  dsimp only
  split
  · exact .bind ((plain_spec (c := .delInteraction id .burned) (F := Genuine id current) hlast
      fun _ _ h => ⟨current, h⟩).post_mono (fun _ _ _ _ => trivial) fun _ _ _ _ => trivial)
        fun _ => .fail fun _ _ _ => trivial
  · rename_i hfew
    refine .bind ((patch_spec (p := .counted) (F := Genuine id current) hlast
      fun r x _ _ hr => ?_).post_mono (fun _ _ _ _ => trivial) fun _ _ _ _ => trivial)
        fun _ => .ret fun _ _ _ => trivial
    exact ⟨hr.progress rfl hr.2, not_le.1 hfew⟩

theorem answerWrongCode_spec :
    Spec crypto i (fun _ => True) (answerWrongCode id) (fun _ _ => True) anyway :=
  .bind recordFailedOtp_spec fun _ => .fail fun _ _ _ => trivial

theorem lasting_proved (i id : ℕ) (s : Subject) (phone otp : String) :
    Lasting (Proved i id s phone otp) :=
  fun _ _ hl h => h.mono hl

theorem acceptCode_spec :
    Spec crypto i (fun x => Proved i id s phone otp x.2) (acceptCode id s phone otp)
      (fun _ _ => True) anyway := by
  refine .bind ((seconds_spec (F := Proved i id s phone otp) (lasting_proved _ _ _ _ _)).post_mono
    (fun _ _ _ h => h) fun _ _ _ _ => trivial) fun authTime => ?_
  refine .bind ((patch_spec (p := .accepted phone otp) (F := Proved i id s phone otp)
    (lasting_proved _ _ _ _ _) fun r x _ hproved hr => ?_).post_mono
      (fun _ _ _ _ => trivial) fun _ _ _ _ => trivial) fun _ => consentContext_spec
  exact ⟨⟨r, hr, rfl⟩, ⟨s, rfl, hproved⟩, rfl⟩

theorem sendOtp_spec {dtoPhone : String} :
    Spec crypto i (fun _ => True) (sendOtp id dtoPhone) (fun _ _ => True) anyway := by
  refine .bind ((require_spec (F := fun _ => True) lasting_true).post_mono
    (fun _ _ _ h => h.2) fun _ _ _ _ => trivial) fun interaction => ?_
  have hlast := lasting_genuine id interaction
  refine .bind (R := fun _ (x : State) => Genuine id interaction x.2) ?_ fun sent => ?_
  · unfold sendCode
    dsimp only
    split
    · exact .ret fun _ _ h => h
    · split
      · exact .ret fun _ _ h => h
      · exact .orElseCatch (plain_spec (c := .sendOtp _) (F := Genuine id interaction) hlast
          fun _ _ _ => trivial) fun _ => .ret fun _ _ h => h
  · split
    · refine .bind ((patch_spec (p := .sent) (F := Genuine id interaction) hlast
        fun r x hx hi hr => ?_).post_mono (fun _ _ _ _ => trivial) fun _ _ _ _ => trivial)
          fun _ => .ret fun _ _ _ => trivial
      -- the scopes that are written back are those of the interaction
      have hterms : interaction.terms.scopes = r.terms.scopes := by rw [hx.terms_eq hi hr]
      have hscopes : interaction.scopes = r.scopes := hterms
      refine hr.progress ?_ hr.2
      simp only [OAuthInteraction.terms, hscopes]
    · exact .ret fun _ _ _ => trivial

theorem requireAuthenticatableProfile_spec (hF : Lasting F) :
    Spec crypto i (fun x => F x.2) (requireAuthenticatableProfile profileId) (fun _ x => F x.2)
      anyway := by
  refine .bind ((plain_spec (c := .findProfile profileId) hF fun _ _ _ => trivial).post_mono
    (fun _ _ _ h => h) fun _ _ _ _ => trivial) fun found => ?_
  split
  · split
    · exact .ret fun _ _ h => h
    · exact .fail fun _ _ _ => trivial
  · exact .fail fun _ _ _ => trivial

theorem verifyOtp_spec {dtoPhone : String} :
    Spec crypto i (fun _ => True) (verifyOtp id dtoPhone otp) (fun _ _ => True) anyway := by
  refine .bind ((require_spec (F := fun _ => True) lasting_true).post_mono
    (fun _ _ _ _ => trivial) fun _ _ _ _ => trivial) fun interaction => ?_
  dsimp only
  split
  · exact .fail fun _ _ _ => trivial
  · split
    · split
      · exact answerWrongCode_spec
      · rename_i user huser
        exact acceptCode_spec.pre_mono fun _ _ _ => .inr ⟨user, huser, rfl⟩
    · refine .bind (R := fun verified (x : State) => ∀ p, verified = some p →
        Proved i id (.profile p) (trim dtoPhone) otp x.2) ?_ fun verified => ?_
      · refine .orElseCatch (Y := anyway) ((call_spec (F := fun _ => True)
          (c := .verifyOtpAndGetProfile id (trim dtoPhone) otp)
          (Q := fun verified l => ∀ p, verified = some p →
            Proved i id (.profile p) (trim dtoPhone) otp l) lasting_true
          (fun _ _ _ => trivial) fun x ε w verified _ _ _ p hp => ?_).post_mono
            (fun _ _ _ h => h) fun _ _ _ _ => trivial) fun _ => .ret fun _ _ _ _ hp => by cases hp
        subst hp
        exact .inl ⟨p, x.1, rfl, mem_cons_self⟩
      · split
        · exact answerWrongCode_spec.pre_mono fun _ _ _ => trivial
        · rename_i profileId
          have hlast := lasting_proved i id (.profile profileId) (trim dtoPhone) otp
          exact .bind ((requireAuthenticatableProfile_spec hlast).pre_mono
            fun _ _ h => h profileId rfl) fun _ => acceptCode_spec

/-! ### Consent -/

/-- The process has taken a step. -/
def Acted (i : ℕ) (l : Log) : Prop := ∃ e ∈ l, e.proc = i

/-- The application is the one that began the interaction. -/
structure Agrees (app : OAuthApp) (r : OAuthInteraction) : Prop where
  clientId : app.clientId = r.clientId
  isSandbox : app.isSandbox = r.sandbox

/-- The row of the application of an interaction. -/
theorem Inv.agrees {x : State} (hx : Inv x) (h : Genuine id r x.2)
    (happ : x.1.apps[r.appId]? = some app) : Agrees app r := by
  obtain ⟨r₀, ⟨k, w, older, hstep, hopens⟩, hterms⟩ := h.exists_begun
  obtain ⟨app₀, hlooked, -, hclient, -, -, hsandbox⟩ := hopens.app
  obtain ⟨a, ha, haclient, hasandbox⟩ :=
    hx.apps k r₀.appId app₀ (hlooked.mono ((suffix_cons _ _).trans hstep))
  have happId : r.terms.appId = r₀.terms.appId := by rw [hterms]
  have hclientId : r.terms.clientId = r₀.terms.clientId := by rw [hterms]
  have hworld : r.terms.sandbox = r₀.terms.sandbox := by rw [hterms]
  simp only [OAuthInteraction.terms] at happId hclientId hworld
  rw [happId, ha] at happ
  obtain rfl := Option.some.inj happ
  exact ⟨haclient.trans (hclient.trans hclientId.symm),
    hasandbox.trans (hsandbox.trans hworld.symm)⟩

theorem requireActiveApp_spec :
    Spec crypto i (fun x => Genuine id r x.2) (requireActiveApp r.appId r)
      (fun app x => (Genuine id r x.2 ∧ Acted i x.2) ∧ Agrees app r) anyway := by
  refine .bind ((call_spec (c := .findApp r.appId) (F := Genuine id r)
    (Q := fun found l => (Genuine id r l ∧ Acted i l) ∧ ∀ app, found = some app → Agrees app r)
    (lasting_genuine id r) (fun _ _ _ => trivial) fun x ε w found hx h hexec => ?_).post_mono
      (fun _ _ _ h => h) fun _ _ _ _ => trivial) fun found => ?_
  · obtain ⟨-, rfl⟩ := pair_inj hexec
    refine ⟨⟨h.mono (suffix_cons _ _), _, mem_cons_self, rfl⟩, fun app happ => ?_⟩
    exact hx.agrees h (Option.filter_eq_some_iff.1 happ).1
  · split
    · split
      · exact .ret fun _ _ h => ⟨h.1, h.2 _ rfl⟩
      · exact .fail fun _ _ _ => trivial
    · exact .fail fun _ _ _ => trivial

theorem pairwiseSalt_spec {P : State → Prop} :
    Spec crypto i P (pairwiseSalt crypto) (fun _ => P) anyway := by
  unfold pairwiseSalt
  split
  · split
    · exact .fail fun _ _ _ => trivial
    · exact .ret fun _ _ h => h
  · exact .fail fun _ _ _ => trivial

/-- The row that records a consent. -/
theorem getElem?_consentRows (w : World) (appId profileId : ℕ) (sub : String)
    (scopes : List String) : ∃ row : OAuthAuthorization,
    (w.consentRows appId profileId sub scopes).1[(w.consentRows appId profileId sub scopes).2]? =
      some row ∧ row.appId = appId ∧ row.profileId = profileId ∧ row.revokedAt = none := by
  unfold World.consentRows
  split
  · rename_i a row hfound
    obtain ⟨hrow, hmatch⟩ := Table.findFirst_eq_some hfound
    obtain ⟨rfl, rfl⟩ := of_decide_eq_true hmatch
    refine ⟨{ row with scopes, revokedAt := none }, ?_, rfl, rfl, rfl⟩
    simp [Table.getElem?_update, hrow]
  · exact ⟨_, getElem?_concat_length, rfl, rfl, rfl⟩

theorem recordConsent_spec :
    Spec crypto i (fun x => Genuine id r x.2) (recordConsent crypto appId profileId r)
      (fun _ x => Genuine id r x.2 ∧
        Undisturbed i (Consented i appId (.profile profileId) r.scopes) x) anyway := by
  have hread : ∀ {c : Cmd}, (∀ x, Pre crypto i c x) →
      Spec crypto i (fun x => Genuine id r x.2) (issue c) (fun _ x => Genuine id r x.2) anyway :=
    fun {c} hpre => (plain_spec (c := c) (F := Genuine id r) (lasting_genuine id r)
      fun x _ _ => hpre x).post_mono (fun _ _ _ h => h) fun _ _ _ _ => trivial
  refine .bind (hread (c := .findProfile profileId) fun _ => trivial) fun found => ?_
  split
  · exact .fail fun _ _ _ => trivial
  · split
    · exact .fail fun _ _ _ => trivial
    · refine .bind pairwiseSalt_spec fun salt => ?_
      refine .bind (hread (c := .findAuthorization appId profileId) fun _ => trivial)
        fun existing => ?_
      refine .bind (R := fun _ x => Genuine id r x.2 ∧
        Undisturbed i (Consented i appId (.profile profileId) r.scopes) x)
        (Contract.triple_cmd (Contract.stable_trace (lasting_genuine id r))
          (fun _ _ _ => trivial) (fun x ε w a hx h hexec _ => ?_) fun _ _ _ _ => trivial)
        fun _ => .ret fun _ _ h => h
      obtain ⟨rfl, rfl⟩ := pair_inj hexec
      refine ⟨h.mono (suffix_cons _ _), undisturbed_of_step rfl fun p hp => ?_⟩
      obtain rfl : profileId = p := by simpa using hp
      obtain ⟨row, hrow, happ, hprofile, hrevoked⟩ := getElem?_consentRows x.1 appId profileId
        (derivePairwiseSub crypto appId (.profile profileId) salt) _
      refine ⟨_, row, hrow, happ, hprofile, hrevoked,
        since_of_head ⟨rfl, i, x.1, appId, profileId, _, _, rfl, fun scope hscope => ?_⟩⟩
      -- what is written contains what was asked for
      split
      · split
        · exact mem_eraseDups.2 (mem_append_right _ hscope)
        · exact hscope
      · exact hscope

/-- Reading does not touch a consent. -/
theorem Consented.read {e : Step} {w : World} {l : Log}
    (h : Consented i appId s scopes (w, l)) (he : ∀ a, ¬ Withdraws a e) :
    Consented i appId s scopes (w, e :: l) := by
  intro p hp
  obtain ⟨a, row, hrow, happ, hprofile, hrevoked, hstands⟩ := h p hp
  exact ⟨a, row, hrow, happ, hprofile, hrevoked, hstands.cons (he a)⟩

theorem mintCode_spec (hsubject : r.profileId = some s) (hagrees : Agrees app r)
    (hworld : s.isSandbox = app.isSandbox) :
    Spec crypto i (fun x => Genuine id r x.2 ∧
        Undisturbed i (Consented i r.appId s r.scopes) x) (mintCode id app s r)
      (fun _ _ => True) anyway := by
  have hstable : (contract crypto).discipline.Stable i fun x => Genuine id r x.2 ∧
      Undisturbed i (Consented i r.appId s r.scopes) x :=
    (Contract.stable_trace (lasting_genuine id r)).and Contract.stable_undisturbed
  refine .bind (R := fun _ x => Genuine id r x.2 ∧
    Undisturbed i (Consented i r.appId s r.scopes) x) ?_ fun authTime => ?_
  · unfold authTimeOf
    split
    · exact .ret fun _ _ h => h
    · refine .bind (R := fun _ x => Genuine id r x.2 ∧
        Undisturbed i (Consented i r.appId s r.scopes) x) (Contract.triple_cmd hstable
          (fun _ _ _ => trivial) (fun x ε w a hx h hexec _ => ?_) fun _ _ _ _ => trivial)
        fun _ => .ret fun _ _ h => h
      obtain ⟨rfl, -⟩ := pair_inj hexec
      refine ⟨h.1.mono (suffix_cons _ _), h.2.step rfl fun hconsented => ?_⟩
      exact hconsented.read fun a hw => by
        rcases hw with hw | ⟨_, _, hw⟩
        · cases hw
        · cases hw
  · refine .bind (R := fun _ (x : State) => Genuine id r x.2) (Contract.triple_cmd hstable
      (fun x hx h => ⟨⟨r, h.1, hsubject, rfl, hagrees.clientId, rfl, rfl, rfl, rfl,
        hworld.trans hagrees.isSandbox⟩, h.2⟩)
      (fun x ε w a hx h _ _ => h.1.mono (suffix_cons _ _)) fun _ _ _ _ => trivial)
      fun code => ?_
    exact .bind ((plain_spec (c := .delInteraction id .approved) (F := Genuine id r)
      (lasting_genuine id r) fun _ _ h => ⟨r, h⟩).post_mono (fun _ _ _ _ => trivial)
        fun _ _ _ _ => trivial) fun _ => .ret fun _ _ _ => trivial

theorem approve_spec :
    Spec crypto i (fun _ => True) (approve crypto id) (fun _ _ => True) anyway := by
  refine .bind ((require_spec (F := fun _ => True) lasting_true).post_mono
    (fun _ _ _ h => h.2) fun _ _ _ _ => trivial) fun r => ?_
  split
  · exact .fail fun _ _ _ => trivial
  · rename_i subject hsubject
    refine .bind requireActiveApp_spec fun app => ?_
    dsimp only
    split
    · exact .fail fun _ _ _ => trivial
    · rename_i hworld
      rintro x hx ⟨h, hagrees⟩
      have hmint : ∀ s, r.profileId = some s → s.isSandbox = app.isSandbox →
          Spec crypto i (fun x => Genuine id r x.2 ∧
            Undisturbed i (Consented i r.appId s r.scopes) x)
            (mintCode id app s r) (fun _ _ => True) anyway :=
        fun _ hs hw => mintCode_spec hs hagrees hw
      refine (?_ : Spec crypto i (fun x => Genuine id r x.2 ∧ Acted i x.2) _ _ _) x hx h
      split
      · rename_i name
        split
        · exact .fail fun _ _ _ => trivial
        · refine .bind pairwiseSalt_spec fun _ => (hmint _ hsubject (not_not.1 hworld)).pre_mono
            fun x _ h => ⟨h.1, h.2, fun _ p hp => by cases hp⟩
      · rename_i profileId
        exact .bind (recordConsent_spec.pre_mono fun _ _ h => h.1)
          fun _ => hmint _ hsubject (not_not.1 hworld)

theorem deny_spec : Spec crypto i (fun _ => True) (deny id) (fun _ _ => True) anyway := by
  refine .bind ((require_spec (F := fun _ => True) lasting_true).post_mono
    (fun _ _ _ h => h.2) fun _ _ _ _ => trivial) fun r => ?_
  exact .bind ((plain_spec (c := .delInteraction id .denied) (F := Genuine id r)
    (lasting_genuine id r) fun _ _ h => ⟨r, h⟩).post_mono (fun _ _ _ _ => trivial)
      fun _ _ _ _ => trivial) fun _ => .ret fun _ _ _ => trivial

end Rabotka.OAuth
