import Rabotka.Lib.Trace
import Rabotka.OAuth.Operations

/-!
# What stands behind a grant

The facts about the steps of a run that the endpoints hand on to each other: an interaction was
begun for a registered redirect URI and for scopes the application may have, a subject was
authenticated in it, a code was minted for what the interaction says. A fact that holds of the
steps so far holds of all longer runs, so a process may remember it.

`Inv` ties the keys to these facts, and `Pre` says what a process knows when it issues a command.
-/

namespace Rabotka.OAuth

open Async Trace

/-- A step of this service. -/
abbrev Step := Entry World Resp

/-- The steps of a run. -/
abbrev Log := Trace World Resp

/-- The world with its steps. -/
abbrev State := Traced World Resp

variable {i k appId id code accessToken profileId : ℕ} {app : OAuthApp}
  {r r' next : OAuthInteraction} {grant : AuthorizationCodeGrant} {s : Subject}
  {phone otp : String} {l l' : Log} {w w' : World} {x y : State} {e : Step}

/-! ### Facts about the steps -/

/-- The terms of an interaction: everything but the progress of the login. -/
def OAuthInteraction.terms (r : OAuthInteraction) : OAuthInteraction :=
  { r with profileId := none, authTime := none, pendingPhone := none, otpAttempts := 0 }

/-- The process found the application among those that were not removed. -/
def Looked (i appId : ℕ) (app : OAuthApp) (l : Log) : Prop :=
  app.deletedAt = none ∧
    ∃ w, (⟨i, w, .findAppByClientId app.clientId, some (appId, app)⟩ : Step) ∈ l

/-- The process may open the interaction: it found the application active, with the redirect URI
registered and the scopes allowed, and a subject comes from the session of a browser. -/
structure Opens (i : ℕ) (r : OAuthInteraction) (l : Log) : Prop where
  app : ∃ app, Looked i r.appId app l ∧ app.status = .active ∧ app.clientId = r.clientId ∧
    r.redirectUri ∈ app.redirectUris ∧ (∀ scope ∈ r.scopes, scope ∈ app.allowedScopes) ∧
    app.isSandbox = r.sandbox
  session : ∀ s, r.profileId = some s →
    ∃ p w, s = .profile p ∧ (⟨i, w, .resolveSessionProfile, some p⟩ : Step) ∈ l
  attempts : r.otpAttempts = 0

/-- The interaction was begun with the record. -/
def Begun (id : ℕ) (r : OAuthInteraction) (l : Log) : Prop :=
  ∃ i w older, (⟨i, w, .setInteraction r, id⟩ : Step) :: older <:+ l ∧ Opens i r older

/-- The process has seen the subject give the right code in the interaction. -/
def Proved (i id : ℕ) (s : Subject) (phone otp : String) (l : Log) : Prop :=
  (∃ p w, s = .profile p ∧ (⟨i, w, .verifyOtpAndGetProfile id phone otp, some p⟩ : Step) ∈ l) ∨
  ∃ user, sandboxVerifyOtp phone otp = some user ∧ s = .sandbox user.id

/-- The subject was authenticated in the interaction: it was begun in the session of the subject,
or the subject gave the right code. -/
def Authenticated (id : ℕ) (s : Subject) (l : Log) : Prop :=
  (∃ r, Begun id r l ∧ r.profileId = some s) ∨
  ∃ i w next phone otp older,
    (⟨i, w, .keepInteraction id next (.accepted phone otp), ()⟩ : Step) :: older <:+ l ∧
      next.profileId = some s ∧ Proved i id s phone otp older

/-- A record that the interaction may have: its terms are those it was begun with, and its subject
was authenticated in it. -/
def Genuine (id : ℕ) (r : OAuthInteraction) (l : Log) : Prop :=
  (∃ r₀, Begun id r₀ l ∧ r.terms = r₀.terms) ∧ ∀ s, r.profileId = some s → Authenticated id s l

/-- The grant says what the interaction says, and its subject is of the world of the
application. -/
def Approved (id : ℕ) (grant : AuthorizationCodeGrant) (l : Log) : Prop :=
  ∃ r, Genuine id r l ∧ r.profileId = some grant.profileId ∧ grant.appId = r.appId ∧
    grant.clientId = r.clientId ∧ grant.redirectUri = r.redirectUri ∧ grant.scopes = r.scopes ∧
    grant.codeChallenge = r.codeChallenge ∧ grant.nonce = r.nonce ∧
    grant.profileId.isSandbox = r.sandbox

/-- The code was minted for a grant that an interaction stands behind. -/
def Minted (code : ℕ) (grant : AuthorizationCodeGrant) (l : Log) : Prop :=
  ∃ i w id older, (⟨i, w, .setCode id grant, code⟩ : Step) :: older <:+ l ∧ Approved id grant older

/-! ### Facts last -/

theorem Looked.mono (h : Looked i appId app l) (hl : l <:+ l') : Looked i appId app l' :=
  h.imp_right fun ⟨w, hw⟩ => ⟨w, hl.mem hw⟩

theorem Begun.mono (h : Begun id r l) (hl : l <:+ l') : Begun id r l' := by
  obtain ⟨i, w, older, hstep, hopens⟩ := h
  exact ⟨i, w, older, hstep.trans hl, hopens⟩

theorem Proved.mono (h : Proved i id s phone otp l) (hl : l <:+ l') : Proved i id s phone otp l' :=
  h.imp_left fun ⟨p, w, hp, hw⟩ => ⟨p, w, hp, hl.mem hw⟩

theorem Authenticated.mono (h : Authenticated id s l) (hl : l <:+ l') : Authenticated id s l' := by
  rcases h with ⟨r, hr, hs⟩ | ⟨i, w, next, phone, otp, older, hstep, hs, hproved⟩
  · exact .inl ⟨r, hr.mono hl, hs⟩
  · exact .inr ⟨i, w, next, phone, otp, older, hstep.trans hl, hs, hproved⟩

theorem Genuine.mono (h : Genuine id r l) (hl : l <:+ l') : Genuine id r l' := by
  obtain ⟨⟨r₀, hr₀, hterms⟩, hsubject⟩ := h
  exact ⟨⟨r₀, hr₀.mono hl, hterms⟩, fun s hs => (hsubject s hs).mono hl⟩

theorem Minted.mono (h : Minted code grant l) (hl : l <:+ l') : Minted code grant l' := by
  obtain ⟨i, w, id, older, hstep, happroved⟩ := h
  exact ⟨i, w, id, older, hstep.trans hl, happroved⟩

/-- The progress of the login does not touch the terms. -/
theorem Genuine.progress (h : Genuine id r l) (hterms : next.terms = r.terms)
    (hsubject : ∀ s, next.profileId = some s → Authenticated id s l) : Genuine id next l := by
  obtain ⟨⟨r₀, hr₀, hr⟩, -⟩ := h
  exact ⟨⟨r₀, hr₀, hterms.trans hr⟩, hsubject⟩

theorem Genuine.exists_begun (h : Genuine id r l) : ∃ r₀, Begun id r₀ l ∧ r.terms = r₀.terms :=
  h.1

/-! ### Consents -/

/-- The step records that a profile consents to the scopes. -/
def Consents (authorizationId : ℕ) (scopes : List String) (e : Step) : Prop :=
  ∃ k w appId profileId sub held,
    e = ⟨k, w, .upsertAuthorization appId profileId sub held, authorizationId⟩ ∧
      ∀ scope ∈ scopes, scope ∈ held

/-- The step withdraws the consent: it is revoked, or its application is removed. -/
def Withdraws (authorizationId : ℕ) (e : Step) : Prop :=
  e.cmd = .revokeAuthorization authorizationId ∨
    ∃ a, e.store.authorizations[authorizationId]? = some a ∧ e.cmd = .removeApp a.appId

/-- The consent of the process has not been withdrawn since. -/
def Stands (k authorizationId : ℕ) (scopes : List String) (l : Log) : Prop :=
  Since (fun e : Step => e.proc = k ∧ Consents authorizationId scopes e)
    (Withdraws authorizationId) l

/-! ### Steps of a redemption -/

/-- The step takes the code out of the store. -/
def consumes (code : ℕ) : Step → Bool
  | ⟨_, _, .getAndDeleteCode c, some _⟩ => c = code
  | _ => false

/-- The step answers a redemption of the code. -/
def redeems (code : ℕ) : Step → Bool
  | ⟨_, _, .sendTokens dto _, _⟩ => dto.code = code
  | _ => false

/-- The process has taken the code, and it was minted for the grant. -/
def Holds (i code : ℕ) (grant : AuthorizationCodeGrant) (l : Log) : Prop :=
  Minted code grant l ∧ ∃ w, (⟨i, w, .getAndDeleteCode code, some grant⟩ : Step) ∈ l

theorem Holds.mono (h : Holds i code grant l) (hl : l <:+ l') : Holds i code grant l' :=
  ⟨h.1.mono hl, h.2.imp fun _ hw => hl.mem hw⟩

/-- What is known about a subject: the synthetic user, or the row the process has read. -/
def Source (i : ℕ) (s : Subject) (profile : ClaimSourceProfile) (l : Log) : Prop :=
  match s with
  | .sandbox name => claimSource name = some profile
  | .profile p => ∃ w row, (⟨i, w, .findProfile p, some row⟩ : Step) ∈ l ∧
      row.toClaimSourceProfile = profile

theorem Source.mono {profile : ClaimSourceProfile} (h : Source i s profile l) (hl : l <:+ l') :
    Source i s profile l' := by
  cases s with
  | sandbox name => exact h
  | profile p =>
    obtain ⟨w, row, hmem, hrow⟩ := h
    exact ⟨w, row, hl.mem hmem, hrow⟩

/-- The tokens that answer a request are those of a grant: the code was minted for it, the
verifier matches its challenge and the redirect URI is its own; the ID token says what the
application may know about the subject, and so does the access token. -/
structure Backed (crypto : Crypto) (i : ℕ) (dto : TokenRequest) (response : TokenResponse)
    (grant : AuthorizationCodeGrant) (l : Log) : Prop where
  holds : Holds i dto.code grant l
  verifier : verifyCodeChallenge crypto dto.codeVerifier grant.codeChallenge
  redirectUri : dto.redirectUri = grant.redirectUri
  client : dto.clientId = grant.clientId
  audience : response.idToken.audience = grant.clientId
  nonce : response.idToken.nonce = grant.nonce
  scope : response.scope = grant.scopes
  claims : ∃ profile sub, response.idToken.claims = buildClaims profile grant.scopes sub ∧
    Source i grant.profileId profile l
  accessToken : ∃ w a, (⟨i, w, .setAccessToken dto.code
    { authorizationId := a, profileId := grant.profileId, clientId := grant.clientId
      scopes := grant.scopes }, response.accessToken⟩ : Step) ∈ l

theorem Backed.mono {crypto : Crypto} {dto : TokenRequest} {response : TokenResponse}
    (h : Backed crypto i dto response grant l) (hl : l <:+ l') :
    Backed crypto i dto response grant l' :=
  { h with
    holds := h.holds.mono hl
    claims := h.claims.imp fun _ => Exists.imp fun _ => And.imp_right fun hs => hs.mono hl
    accessToken := h.accessToken.imp fun _ => Exists.imp fun _ hmem => hl.mem hmem }

/-! ### What a call has seen -/

/-- The consent of a profile for the application is in its row, and the consent of the process
stands. The consent of a synthetic user is not written down. -/
def Consented (i appId : ℕ) (s : Subject) (scopes : List String) (x : State) : Prop :=
  ∀ p, s = .profile p → ∃ (a : ℕ) (row : OAuthAuthorization),
    x.1.authorizations[a]? = some row ∧ row.appId = appId ∧ row.profileId = p ∧
      row.revokedAt = none ∧ Stands i a scopes x.2

/-- The application of a partner is in service. -/
def InService (clientId : String) (w : World) : Prop :=
  ∃ (a : ℕ) (app : OAuthApp), w.apps[a]? = some app ∧ app.clientId = clientId ∧
    app.status = .active ∧ app.deletedAt = none

/-- The consent of a profile for the application is in force. -/
def InForce (authorizationId : Option ℕ) (appId p : ℕ) (w : World) : Prop :=
  ∃ (a : ℕ) (row : OAuthAuthorization), authorizationId = some a ∧
    w.authorizations[a]? = some row ∧ row.appId = appId ∧ row.profileId = p ∧ row.revokedAt = none

/-- What `token` has checked: the application is in service, and for a profile its consent is in
force and it is not archived. -/
structure Checked (grant : AuthorizationCodeGrant) (authorizationId : Option ℕ) (w : World) :
    Prop where
  app : InService grant.clientId w
  consent : ∀ p, grant.profileId = .profile p → InForce authorizationId grant.appId p w
  profile : ∀ p, grant.profileId = .profile p →
    ∃ row : Profile, w.profiles[p]? = some row ∧ row.deletedAt = none

/-- What `resolveUserinfo` has checked for a profile: the token is stored, and its consent and the
application of the consent are in force. -/
def Resolved (accessToken : ℕ) (claims : OidcClaims) (record : AccessTokenRecord) (w : World) :
    Prop :=
  w.accessTokens.get w.now accessToken = some record ∧
    ∀ p, record.profileId = .profile p → ∃ a row app profile, record.authorizationId = some a ∧
      w.authorizationById a = some (row, app, profile) ∧ row.revokedAt = none ∧
        app.deletedAt = none ∧ app.status = .active ∧
          claims = buildClaims profile.toClaimSourceProfile record.scopes row.pairwiseSub

/-! ### The invariant and the contract -/

/-- The number was drawn by the step. -/
def Draws (e : Step) (n : ℕ) : Prop :=
  match e with
  | ⟨_, _, .setInteraction _, id⟩ => id = n
  | ⟨_, _, .setCode _ _, code⟩ => code = n
  | ⟨_, _, .setAccessToken _ _, accessToken⟩ => accessToken = n
  | _ => False

/-- The invariant. -/
structure Inv (x : State) : Prop where
  interactions : ∀ id e, x.1.interactions id = some e → Genuine id e.value x.2
  codes : ∀ code e, x.1.codes code = some e → Minted code e.value x.2
  tokens : ∀ accessToken e, x.1.accessTokens accessToken = some e →
    ∃ i w code, (⟨i, w, .setAccessToken code e.value, accessToken⟩ : Step) ∈ x.2
  apps : ∀ i appId app, Looked i appId app x.2 → ∃ a : OAuthApp, x.1.apps[appId]? = some a ∧
    a.clientId = app.clientId ∧ a.isSandbox = app.isSandbox
  drawn : ∀ e ∈ x.2, ∀ n, Draws e n → n < x.1.serial
  once : ∀ e ∈ x.2, ∀ z ∈ x.2, ∀ n, Draws e n → Draws z n → e = z
  spent : ∀ code, x.2.countP (consumes code) ≤ 1 ∧
    ((x.1.codes code).isSome → x.2.countP (consumes code) = 0) ∧
      (x.1.serial ≤ code → x.2.countP (consumes code) = 0)
  redeemed : ∀ i code, (own x.2 i).countP (redeems code) ≤ (own x.2 i).countP (consumes code)

/-- What is said about an interaction agrees on its terms. -/
theorem Inv.terms_eq (hx : Inv x) (h : Genuine id r x.2) (h' : Genuine id r' x.2) :
    r.terms = r'.terms := by
  obtain ⟨r₀, ⟨i, w, older, hstep, -⟩, hr⟩ := h.exists_begun
  obtain ⟨r₁, ⟨k, v, older', hstep', -⟩, hr'⟩ := h'.exists_begun
  have heq := hx.once _ (mem_of_suffix hstep) _ (mem_of_suffix hstep') id rfl rfl
  have hsame : r₀ = r₁ := by simpa using congrArg Entry.cmd heq
  rw [hr, hr', hsame]

/-- When process `i` may issue a command. -/
def Pre (crypto : Crypto) (i : ℕ) : Cmd → State → Prop
  | .setInteraction r, x => Opens i r x.2
  | .keepInteraction id next (.accepted phone otp), x =>
    (∃ r, Genuine id r x.2 ∧ next.terms = r.terms) ∧
      (∃ s, next.profileId = some s ∧ Proved i id s phone otp x.2) ∧ next.otpAttempts = 0
  | .keepInteraction id next .counted, x => Genuine id next x.2 ∧ next.otpAttempts < maxOtpAttempts
  | .keepInteraction id next .sent, x => Genuine id next x.2
  | .delInteraction id _, x => ∃ r, Genuine id r x.2
  | .setCode id grant, x => Approved id grant x.2 ∧
      Undisturbed i (Consented i grant.appId grant.profileId grant.scopes) x
  | .setAccessToken code record, x => ∃ grant, Holds i code grant x.2 ∧
      record.profileId = grant.profileId ∧ record.clientId = grant.clientId ∧
        record.scopes = grant.scopes ∧
          Undisturbed i (fun x => Checked grant record.authorizationId x.1) x
  | .sendTokens dto response, x => (own x.2 i).countP (redeems dto.code) = 0 ∧
      ∃ grant a, Backed crypto i dto response grant x.2 ∧
        Undisturbed i (fun x => Checked grant a x.1) x
  | .sendClaims accessToken claims, x => ∃ record,
      (∃ w, (⟨i, w, .getAccessToken accessToken, some record⟩ : Step) ∈ x.2) ∧
        Undisturbed i (fun x => Resolved accessToken claims record x.1) x
  | .addProfile _, x | .changeProfile _ _, x | .registerApp _, x | .updateApp _ _, x
  | .removeApp _, x | .revokeAuthorization _, x | .elapse _, x => Contract.Fresh i x
  | _, _ => True

end Rabotka.OAuth
