import Rabotka.Lib.Service
import Rabotka.OAuth.Schema

/-!
# Authorize, log in, consent, redeem

The endpoints of "Login with Rabotka": `authorize` opens an interaction, `sendOtp` and `verifyOtp`
authenticate a profile in it, `approve` and `deny` end it, `token` exchanges the code for tokens
and `userinfo` resolves an access token. A controller that returns tokens or claims sends them,
which is a call of its own (`sendTokens`, `sendClaims`); the cookie of a session, the log lines
and the `last_used_at` of a consent are left out.
-/

namespace Rabotka.OAuth

open Async Text

/-- `OAuthError`, with the redirect URI it is delivered to. -/
structure OAuthError where
  code : String
  description : String
  status : ℕ := 400
  redirectUri : Option String := none
  state : Option String := none
  deriving DecidableEq

/-- What an endpoint throws. -/
inductive Exn
  | oauth (error : OAuthError)
  | error (message : String)
  deriving DecidableEq

/-- An operation of this service. -/
abbrev Prog (α : Type) := Op Resp Exn α

/-- Issues one call. -/
def issue (c : Cmd) : Prog (Resp c) := Op.cmd c

def refuse {α : Type} (code description : String) (status : ℕ := 400)
    (redirectUri state : Option String := none) : Prog α :=
  throw (.oauth { code, description, status, redirectUri, state })

/-! ### Interactions -/

/-- `OAuthInteractionService.require`. -/
def require (id : ℕ) : Prog OAuthInteraction := do
  match ← issue (.getInteraction id) with
  | some interaction => return interaction
  | none =>
    refuse "interaction_required"
      "Cette session de connexion a expiré. Relancez la connexion depuis l’application."

/-- `OAuthInteractionService.patch`: reads the record again and writes it back. -/
def patch (id : ℕ) (changes : OAuthInteraction → OAuthInteraction) (why : Patch) :
    Prog Unit := do
  let current ← require id
  issue (.keepInteraction id (changes current) why)

def recordFailedOtp (id : ℕ) : Prog ℕ := do
  let current ← require id
  let attempts := current.otpAttempts + 1
  if maxOtpAttempts ≤ attempts then
    issue (.delInteraction id .burned)
    refuse "access_denied" "Trop de codes incorrects. Relancez la connexion depuis l’application."
  else
    patch id (fun r => { r with otpAttempts := attempts }) .counted
    return maxOtpAttempts - attempts

/-! ### Authorize -/

/-- The query of an `authorize` request. -/
structure AuthorizeRequest where
  clientId : Option String := none
  redirectUri : Option String := none
  responseType : Option String := none
  scope : Option String := none
  state : Option String := none
  nonce : Option String := none
  codeChallenge : Option String := none
  codeChallengeMethod : Option String := none
  prompt : Option String := none

def findByClientId (clientId : String) : Prog (Option (ℕ × OAuthApp)) :=
  if clientId = "" then return none else issue (.findAppByClientId clientId)

/-- The checks of an `authorize` request whose redirect URI is trusted; the scopes it may have. -/
def checkRequest (app : OAuthApp) (redirectUri : String) (query : AuthorizeRequest) :
    Except OAuthError (List String) :=
  let requested := parseScopes query.scope
  let unknown := requested.filter fun s => s ∉ supportedScopes
  let granted := grantableScopes app requested
  let refused := requested.filter fun s => s ∉ granted
  if query.responseType ≠ some "code" then
    fail "unsupported_response_type" "Only response_type=code is supported."
  else if query.codeChallengeMethod ≠ some "S256" then
    fail "invalid_request" "code_challenge_method=S256 is required (PKCE is mandatory)."
  else if !isValidCodeChallenge query.codeChallenge then
    fail "invalid_request" ("code_challenge must be the base64url-encoded SHA-256 of your " ++
      "code_verifier (43 characters).")
  else if "openid" ∉ requested then
    fail "invalid_scope" "The openid scope is required."
  else if unknown ≠ [] then
    fail "invalid_scope" ("Unknown scope: " ++ ", ".intercalate unknown)
  else if refused ≠ [] then
    fail "invalid_scope"
      ("This application is not permitted to request: " ++ ", ".intercalate refused)
  else .ok granted
where
  fail (code description : String) : Except OAuthError (List String) :=
    .error { code, description, redirectUri := some redirectUri, state := query.state }

/-- Seconds since the epoch. -/
def seconds : Prog ℕ := do
  let now ← issue .dateNow
  return now / 1000

/-- `auth_time` of a reused session. -/
def sessionTime : Option ℕ → Prog (Option ℕ)
  | none => return none
  | some _ => do
    let t ← seconds
    return some t

/-- Opens an interaction; a sandbox application never starts from the session of a browser. -/
def openInteraction (appId : ℕ) (app : OAuthApp) (redirectUri : String) (scopes : List String)
    (query : AuthorizeRequest) (existingProfileId : Option ℕ) : Prog ℕ := do
  let profileId := if app.isSandbox then none else existingProfileId
  let authTime ← sessionTime profileId
  issue (.setInteraction
    { appId, clientId := app.clientId, redirectUri, scopes, state := query.state
      nonce := query.nonce, codeChallenge := query.codeChallenge.getD ""
      sandbox := app.isSandbox, profileId := profileId.map Subject.profile, authTime })

def beginAuthorization (query : AuthorizeRequest) (existingProfileId : Option ℕ) : Prog ℕ := do
  match query.clientId with
  | none | some "" => refuse "invalid_request" "client_id is required."
  | some clientId =>
    match ← findByClientId clientId with
    | none => unauthorized
    | some (appId, app) =>
      if app.status ≠ .active then unauthorized
      else match query.redirectUri with
        | none => unregistered
        | some redirectUri =>
          if !isRegisteredRedirectUri redirectUri app.redirectUris then unregistered
          else match checkRequest app redirectUri query with
            | .error e => throw (.oauth e)
            | .ok scopes => openInteraction appId app redirectUri scopes query existingProfileId
where
  unauthorized : Prog ℕ := refuse "unauthorized_client"
    "Cette application n'est pas autorisée à utiliser « Connexion avec Rabotka »."
  unregistered : Prog ℕ := refuse "invalid_request"
    "L'URI de redirection ne correspond à aucune URI enregistrée pour cette application."

/-- The profile of the browser's session, unless the partner wants the user challenged again. -/
def sessionProfile (query : AuthorizeRequest) : Prog (Option ℕ) :=
  if query.prompt = some "login" then return none else issue .resolveSessionProfile

def authorize (query : AuthorizeRequest) : Prog ℕ := do
  let profileId ← sessionProfile query
  beginAuthorization query profileId

/-! ### The consent screen -/

structure ConsentProfile where
  firstName : String
  lastName : String
  phoneHint : String
  avatarUrl : Option String

structure ConsentContext where
  name : String
  description : String
  logoUrl : Option String
  scopes : List String
  profile : Option ConsentProfile
  alreadyGranted : Bool

def consentProfile (p : ClaimSourceProfile) : ConsentProfile :=
  { firstName := p.firstName, lastName := p.lastName, phoneHint := maskPhone p.phone
    avatarUrl := p.avatarUrl }

def hasStandingGrant (appId profileId : ℕ) (requestedScopes : List String) : Prog Bool := do
  match ← issue (.findAuthorization appId profileId) with
  | none => return false
  | some (_, authorization) =>
    return authorization.revokedAt = none && requestedScopes.all (· ∈ authorization.scopes)

def consentContext (id : ℕ) : Prog ConsentContext := do
  let interaction ← require id
  match ← issue (.findApp interaction.appId) with
  | none => throw (.error "No OAuthApp found")
  | some app =>
    let context (profile : Option ConsentProfile) (alreadyGranted : Bool) : ConsentContext :=
      { name := app.name, description := app.description, logoUrl := app.logoUrl
        scopes := interaction.scopes, profile, alreadyGranted }
    match interaction.profileId with
    | none => return context none false
    | some (.sandbox name) => return context ((claimSource name).map consentProfile) false
    | some (.profile profileId) =>
      match ← issue (.findProfile profileId) with
      | none => return context none false
      | some profile =>
        let granted ← hasStandingGrant interaction.appId profileId interaction.scopes
        return context (some (consentProfile profile.toClaimSourceProfile)) granted

/-! ### One-time codes -/

/-- Sends a code to the number, unless it is one of the other world; whether it was sent. A
sandbox number gets no message. -/
def sendCode (sandbox : Bool) (phone : String) : Prog Bool :=
  let sandboxUser := findUserByPhone phone
  if sandbox then return sandboxUser.isSome
  else if sandboxUser.isSome then return false
  else tryCatch (issue (.sendOtp phone)) fun _ => return false

def sendOtp (id : ℕ) (dtoPhone : String) : Prog Bool := do
  let interaction ← require id
  let phone := trim dtoPhone
  if ← sendCode interaction.sandbox phone then
    patch id (fun r => { r with pendingPhone := some phone, scopes := interaction.scopes }) .sent
    return true
  else return false

/-- A wrong code is counted and answered. -/
def answerWrongCode (id : ℕ) : Prog ConsentContext := do
  let attemptsLeft ← recordFailedOtp id
  let plural := if 1 < attemptsLeft then "s" else ""
  refuse "access_denied" s!"Code incorrect. Il vous reste {attemptsLeft} tentative{plural}." 401

/-- The interaction has its subject. -/
def acceptCode (id : ℕ) (subject : Subject) (phone otp : String) : Prog ConsentContext := do
  let authTime ← seconds
  patch id (fun r =>
    { r with
      profileId := some subject, authTime := some authTime, pendingPhone := none
      otpAttempts := 0 }) (.accepted phone otp)
  consentContext id

def requireAuthenticatableProfile (profileId : ℕ) : Prog Unit := do
  match ← issue (.findProfile profileId) with
  | some profile =>
    if canAuthenticateToPartner profile.status then return
    else denied
  | none => denied
where
  denied : Prog Unit := refuse "access_denied"
    "Ce compte ne peut pas être utilisé pour se connecter à une application partenaire." 403

def verifyOtp (id : ℕ) (dtoPhone otp : String) : Prog ConsentContext := do
  let interaction ← require id
  let phone := trim dtoPhone
  if interaction.pendingPhone ≠ some phone then
    refuse "invalid_request" "Demandez un nouveau code pour ce numéro."
  else if interaction.sandbox then
    match sandboxVerifyOtp phone otp with
    | none => answerWrongCode id
    | some user => acceptCode id (.sandbox user.id) phone otp
  else
    match ← tryCatch (issue (.verifyOtpAndGetProfile id phone otp)) fun _ => return none with
    | none => answerWrongCode id
    | some profileId => do
      requireAuthenticatableProfile profileId
      acceptCode id (.profile profileId) phone otp

/-! ### Consent -/

/-- Where the browser goes, with the parameters that are appended. -/
structure Redirect where
  redirectTo : String
  code : Option ℕ := none
  error : Option String := none
  errorDescription : Option String := none
  state : Option String

def requireActiveApp (appId : ℕ) (interaction : OAuthInteraction) : Prog OAuthApp := do
  match ← issue (.findApp appId) with
  | some app => if app.status = .active then return app else unauthorized
  | none => unauthorized
where
  unauthorized : Prog OAuthApp :=
    refuse "unauthorized_client" "Cette application n'est plus autorisée." 400
      (some interaction.redirectUri) interaction.state

def pairwiseSalt (crypto : Crypto) : Prog String :=
  match crypto.pairwiseSalt with
  | some salt => if salt = "" then throw (.error "OIDC_PAIRWISE_SALT is not set") else return salt
  | none => throw (.error "OIDC_PAIRWISE_SALT is not set")

/-- Records that the profile consents, in the row of the application and the profile. -/
def recordConsent (crypto : Crypto) (appId profileId : ℕ) (interaction : OAuthInteraction) :
    Prog Unit := do
  let denied : Prog Unit := refuse "access_denied"
    "Ce compte ne peut pas être utilisé pour se connecter à une application partenaire." 403
    (some interaction.redirectUri) interaction.state
  match ← issue (.findProfile profileId) with
  | none => denied
  | some profile =>
    if !canAuthenticateToPartner profile.status then denied
    else
      let salt ← pairwiseSalt crypto
      let pairwiseSub := derivePairwiseSub crypto appId (.profile profileId) salt
      let existing ← issue (.findAuthorization appId profileId)
      let scopes := match existing with
        | some (_, a) =>
          if a.revokedAt = none then unionScopes a.scopes interaction.scopes
          else interaction.scopes
        | none => interaction.scopes
      let _ ← issue (.upsertAuthorization appId profileId pairwiseSub scopes)

/-- `auth_time` of the interaction, or now. -/
def authTimeOf : Option ℕ → Prog ℕ
  | some t => return t
  | none => seconds

/-- Mints the code for what was consented to, and drops the interaction. -/
def mintCode (id : ℕ) (app : OAuthApp) (subject : Subject) (interaction : OAuthInteraction) :
    Prog Redirect := do
  let authTime ← authTimeOf interaction.authTime
  let code ← issue (.setCode id
    { appId := interaction.appId, clientId := app.clientId, profileId := subject
      redirectUri := interaction.redirectUri, scopes := interaction.scopes
      codeChallenge := interaction.codeChallenge, nonce := interaction.nonce, authTime })
  issue (.delInteraction id .approved)
  return { redirectTo := interaction.redirectUri, code := some code, state := interaction.state }

def approve (crypto : Crypto) (id : ℕ) : Prog Redirect := do
  let interaction ← require id
  match interaction.profileId with
  | none =>
    refuse "login_required" "Authentifiez-vous avant de valider le partage." 401
  | some subject =>
    let app ← requireActiveApp interaction.appId interaction
    let denied : Prog Redirect := refuse "access_denied"
      "Ce compte ne peut pas être utilisé pour se connecter à cette application." 403
      (some interaction.redirectUri) interaction.state
    if subject.isSandbox ≠ app.isSandbox then denied
    else match subject with
      | .sandbox name =>
        -- the consent of a synthetic user is not written down
        if (claimSource name).isNone then denied
        else
          let _ ← pairwiseSalt crypto
          mintCode id app subject interaction
      | .profile profileId =>
        recordConsent crypto interaction.appId profileId interaction
        mintCode id app subject interaction

def deny (id : ℕ) : Prog Redirect := do
  let interaction ← require id
  issue (.delInteraction id .denied)
  return { redirectTo := interaction.redirectUri, error := some "access_denied"
           errorDescription := some "L'utilisateur a refusé le partage."
           state := interaction.state }

def consent (crypto : Crypto) (id : ℕ) (decision : Bool) : Prog Redirect :=
  if decision then approve crypto id else deny id

/-! ### Tokens -/

def authenticateClient (crypto : Crypto) (clientId clientSecret : String) :
    Prog (ℕ × OAuthApp) := do
  match ← findByClientId clientId with
  | none => failure
  | some (appId, app) =>
    if app.status ≠ .active then failure
    else if clientSecret = "" then failure
    else if clientSecretMatches crypto clientSecret app.clientSecretHash then
      return (appId, app)
    else match app.previousSecretHash, app.previousSecretExpiresAt with
      | some hash, some expiresAt =>
        let now ← issue .dateNow
        if hash ≠ "" && now < expiresAt && clientSecretMatches crypto clientSecret hash then
          return (appId, app)
        else failure
      | _, _ => failure
where
  failure : Prog (ℕ × OAuthApp) := refuse "invalid_client" "Client authentication failed." 401

def invalidGrant {α : Type} : Prog α :=
  refuse "invalid_grant" "The authorization code is invalid, expired, or has already been used."

/-- The consent a code stands on: its row, and the subject the application sees. -/
def authorizationFor (crypto : Crypto) (grant : AuthorizationCodeGrant) :
    Prog (Option ℕ × String) :=
  match grant.profileId with
  | .sandbox name =>
    if (claimSource name).isNone then invalidGrant
    else do
      let salt ← pairwiseSalt crypto
      return (none, derivePairwiseSub crypto grant.appId grant.profileId salt)
  | .profile profileId => do
    match ← issue (.findAuthorization grant.appId profileId) with
    | none => invalidGrant
    | some (id, a) => if a.revokedAt = none then return (some id, a.pairwiseSub) else invalidGrant

def loadClaimSource : Subject → Prog (Option ClaimSourceProfile)
  | .sandbox name => return claimSource name
  | .profile profileId => do
    match ← issue (.findProfile profileId) with
    | none => return none
    | some profile => return some profile.toClaimSourceProfile

def token (crypto : Crypto) (dto : TokenRequest) : Prog TokenResponse := do
  let (_, app) ← authenticateClient crypto dto.clientId dto.clientSecret
  match ← issue (.getAndDeleteCode dto.code) with
  | none => invalidGrant
  | some grant =>
    if grant.clientId ≠ app.clientId then invalidGrant
    else if grant.redirectUri ≠ dto.redirectUri then invalidGrant
    else if !verifyCodeChallenge crypto dto.codeVerifier grant.codeChallenge then invalidGrant
    else if grant.profileId.isSandbox ≠ app.isSandbox then invalidGrant
    else
      let (authorizationId, sub) ← authorizationFor crypto grant
      match ← loadClaimSource grant.profileId with
      | none => invalidGrant
      | some profile =>
        let idToken : IdToken :=
          { claims := buildClaims profile grant.scopes sub, audience := app.clientId
            nonce := grant.nonce, authTime := grant.authTime }
        let accessToken ← issue (.setAccessToken dto.code
          { authorizationId, profileId := grant.profileId, clientId := app.clientId
            scopes := grant.scopes })
        return { accessToken, expiresIn := accessTokenTtlSeconds, idToken, scope := grant.scopes }

def invalidToken {α : Type} : Prog α :=
  refuse "invalid_token" "The access token is expired, revoked, or invalid." 401

/-- The token goes too: whatever invalidated it stays. -/
def dropToken (accessToken : ℕ) : Prog OidcClaims := do
  issue (.delAccessToken accessToken)
  invalidToken

def resolveUserinfo (crypto : Crypto) (accessToken : ℕ) : Prog OidcClaims := do
  match ← issue (.getAccessToken accessToken) with
  | none => invalidToken
  | some record =>
    match record.profileId with
    | .sandbox name =>
      match ← findByClientId record.clientId with
      | none => dropToken accessToken
      | some (appId, app) =>
        if app.status ≠ .active || !app.isSandbox then dropToken accessToken
        else match claimSource name with
          | none => dropToken accessToken
          | some source => do
            let salt ← pairwiseSalt crypto
            return buildClaims source record.scopes
              (derivePairwiseSub crypto appId record.profileId salt)
    | .profile _ =>
      match record.authorizationId with
      | none => dropToken accessToken
      | some id =>
        match ← issue (.findAuthorizationById id) with
        | none => dropToken accessToken
        | some (a, app, profile) =>
          if a.revokedAt ≠ none || app.deletedAt ≠ none || app.status ≠ .active then
            dropToken accessToken
          else return buildClaims profile.toClaimSourceProfile record.scopes a.pairwiseSub

def revoke (crypto : Crypto) (clientId clientSecret : String) (accessToken : ℕ) :
    Prog Unit := do
  let _ ← authenticateClient crypto clientId clientSecret
  issue (.delAccessToken accessToken)

/-! ### The service -/

/-- What arrives at the endpoints, and what goes on around them. -/
inductive Request
  | authorize (query : AuthorizeRequest)
  | context (id : ℕ)
  | sendOtp (id : ℕ) (phone : String)
  | verifyOtp (id : ℕ) (phone otp : String)
  | consent (id : ℕ) (decision : Bool)
  | token (dto : TokenRequest)
  | userinfo (accessToken : ℕ)
  | revoke (clientId clientSecret : String) (accessToken : ℕ)
  | addProfile (profile : Profile)
  | changeProfile (id : ℕ) (profile : Profile)
  | registerApp (app : OAuthApp)
  | updateApp (id : ℕ) (changes : AppChanges)
  | removeApp (id : ℕ)
  | revokeAuthorization (id : ℕ)
  | elapse (milliseconds : ℕ)

def handler (crypto : Crypto) : Request → Prog Unit
  | .authorize query => do let _ ← OAuth.authorize query
  | .context id => do let _ ← consentContext id
  | .sendOtp id phone => do let _ ← OAuth.sendOtp id phone
  | .verifyOtp id phone otp => do let _ ← OAuth.verifyOtp id phone otp
  | .consent id decision => do let _ ← OAuth.consent crypto id decision
  | .token dto => do
    let response ← OAuth.token crypto dto
    issue (.sendTokens dto response)
  | .userinfo accessToken => do
    let claims ← resolveUserinfo crypto accessToken
    issue (.sendClaims accessToken claims)
  | .revoke clientId clientSecret accessToken =>
    OAuth.revoke crypto clientId clientSecret accessToken
  | .addProfile profile => issue (.addProfile profile)
  | .changeProfile id profile => issue (.changeProfile id profile)
  | .registerApp app => issue (.registerApp app)
  | .updateApp id changes => issue (.updateApp id changes)
  | .removeApp id => issue (.removeApp id)
  | .revokeAuthorization id => issue (.revokeAuthorization id)
  | .elapse milliseconds => issue (.elapse milliseconds)

/-- The endpoints with everything around them. -/
def service (crypto : Crypto) : Service World Cmd Resp Request Env Exn where
  exec w _ c ε := exec w ε c
  handler := handler crypto

end Rabotka.OAuth
