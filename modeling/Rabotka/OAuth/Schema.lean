import Rabotka.Lib.Volatile
import Rabotka.Lib.Table
import Rabotka.Lib.Text

/-!
# Partner applications, consents and the keys of a login

The tables behind "Login with Rabotka" (partner applications, profiles, consents) and the three
kinds of keys it keeps for a while: the interaction of a browser, the authorization code it ends
with, and the access token a partner gets for the code. Identifiers of rows are positions, and
what `randomBytes` draws is a number that was not drawn before. Instants are milliseconds.

The commands are the single statements and key operations of the services. What the rest of the
platform answers (whose session a browser has, whether a code was sent or was right) is the
environment's choice. `addProfile` to `elapse` are what goes on around the logins: administrators
edit applications, consents are withdrawn, profiles change, time passes.
-/

namespace Rabotka.OAuth

open Expiring

/-! ### Rows -/

inductive OAuthAppStatus
  | active
  | suspended
  deriving DecidableEq

structure OAuthApp where
  name : String
  description : String
  logoUrl : Option String := none
  clientId : String
  clientSecretHash : String
  previousSecretHash : Option String := none
  previousSecretExpiresAt : Option ℕ := none
  redirectUris : List String
  allowedScopes : List String
  status : OAuthAppStatus := .active
  isSandbox : Bool := false
  deletedAt : Option ℕ := none
  deriving DecidableEq

inductive AccountStatus
  | pendingActivation
  | active
  | suspended
  | banned
  deriving DecidableEq

inductive VerificationStatus
  | pending
  | verified
  | rejected
  deriving DecidableEq

/-- The columns the claim builder reads. -/
structure ClaimSourceProfile where
  firstName : String
  lastName : String
  phone : String
  email : Option String := none
  avatarUrl : Option String := none
  city : Option String := none
  countryCode : Option String := none
  status : AccountStatus := .active
  verificationStatus : VerificationStatus := .pending
  verifiedAt : Option ℕ := none
  deriving DecidableEq

structure Profile extends ClaimSourceProfile where
  deletedAt : Option ℕ := none
  deriving DecidableEq

/-- A consent; there is one row for an application and a profile. -/
structure OAuthAuthorization where
  appId : ℕ
  profileId : ℕ
  pairwiseSub : String
  scopes : List String
  revokedAt : Option ℕ := none
  deriving DecidableEq

/-! ### Keys -/

/-- Who logs in: a profile, or one of the synthetic users, whose identifiers start with
`sandbox:`. -/
inductive Subject
  | profile (id : ℕ)
  | sandbox (name : String)
  deriving DecidableEq

structure OAuthInteraction where
  appId : ℕ
  clientId : String
  redirectUri : String
  scopes : List String
  state : Option String
  nonce : Option String
  codeChallenge : String
  sandbox : Bool
  profileId : Option Subject
  authTime : Option ℕ
  pendingPhone : Option String := none
  otpAttempts : ℕ := 0
  deriving DecidableEq

structure AuthorizationCodeGrant where
  appId : ℕ
  clientId : String
  profileId : Subject
  redirectUri : String
  scopes : List String
  codeChallenge : String
  nonce : Option String
  authTime : ℕ
  deriving DecidableEq

/-- What an access token resolves to. There is no row behind the consent of a synthetic user. -/
structure AccessTokenRecord where
  authorizationId : Option ℕ
  profileId : Subject
  clientId : String
  scopes : List String
  deriving DecidableEq

/-- `INTERACTION_TTL_SECONDS`. -/
def interactionTtlSeconds : ℕ := 600

/-- `AUTH_CODE_TTL_SECONDS`. -/
def authCodeTtlSeconds : ℕ := 60

/-- `ACCESS_TOKEN_TTL_SECONDS`. -/
def accessTokenTtlSeconds : ℕ := 3600

/-- `MAX_OTP_ATTEMPTS`. -/
def maxOtpAttempts : ℕ := 5

structure World where
  now : ℕ := 0
  serial : ℕ := 0
  apps : List OAuthApp := []
  profiles : List Profile := []
  authorizations : List OAuthAuthorization := []
  interactions : Keys ℕ OAuthInteraction := Keys.empty
  codes : Keys ℕ AuthorizationCodeGrant := Keys.empty
  accessTokens : Keys ℕ AccessTokenRecord := Keys.empty

/-! ### Answers to partners -/

inductive ClaimValue
  | text (value : String)
  | flag (value : Bool)
  | instant (value : ℕ)
  | null
  deriving DecidableEq

abbrev OidcClaims := List (String × ClaimValue)

structure IdToken where
  claims : OidcClaims
  audience : String
  nonce : Option String
  authTime : ℕ
  deriving DecidableEq

/-- What a partner's backend sends to redeem a code. -/
structure TokenRequest where
  clientId : String
  clientSecret : String
  code : ℕ
  redirectUri : String
  codeVerifier : String
  deriving DecidableEq

structure TokenResponse where
  accessToken : ℕ
  expiresIn : ℕ
  idToken : IdToken
  scope : List String
  deriving DecidableEq

/-! ### Calls -/

/-- Which write of an interaction it is. -/
inductive Patch
  | sent
  | counted
  | accepted (phone otp : String)
  deriving DecidableEq

/-- Which removal of an interaction it is. -/
inductive Ending
  | approved
  | denied
  | burned
  deriving DecidableEq

/-- What an administrator edits. `is_sandbox` and `client_id` are not among it. -/
structure AppChanges where
  status : Option OAuthAppStatus := none
  redirectUris : Option (List String) := none
  allowedScopes : Option (List String) := none
  clientSecretHash : Option String := none
  previousSecret : Option (Option String × Option ℕ) := none

inductive Cmd
  | dateNow
  | setInteraction (interaction : OAuthInteraction)
  | getInteraction (id : ℕ)
  | keepInteraction (id : ℕ) (next : OAuthInteraction) (patch : Patch)
  | delInteraction (id : ℕ) (ending : Ending)
  | setCode (interactionId : ℕ) (grant : AuthorizationCodeGrant)
  | getAndDeleteCode (code : ℕ)
  | setAccessToken (code : ℕ) (record : AccessTokenRecord)
  | getAccessToken (token : ℕ)
  | delAccessToken (token : ℕ)
  | resolveSessionProfile
  | sendOtp (phone : String)
  | verifyOtpAndGetProfile (interactionId : ℕ) (phone otp : String)
  | findAppByClientId (clientId : String)
  | findApp (id : ℕ)
  | findProfile (id : ℕ)
  | findAuthorization (appId profileId : ℕ)
  | findAuthorizationById (id : ℕ)
  | upsertAuthorization (appId profileId : ℕ) (pairwiseSub : String) (scopes : List String)
  | sendTokens (dto : TokenRequest) (response : TokenResponse)
  | sendClaims (token : ℕ) (claims : OidcClaims)
  | addProfile (profile : Profile)
  | changeProfile (id : ℕ) (profile : Profile)
  | registerApp (app : OAuthApp)
  | updateApp (id : ℕ) (changes : AppChanges)
  | removeApp (id : ℕ)
  | revokeAuthorization (id : ℕ)
  | elapse (milliseconds : ℕ)

abbrev Resp : Cmd → Type
  | .dateNow | .setInteraction _ | .setCode _ _ | .setAccessToken _ _ => ℕ
  | .getInteraction _ => Option OAuthInteraction
  | .getAndDeleteCode _ => Option AuthorizationCodeGrant
  | .getAccessToken _ => Option AccessTokenRecord
  | .resolveSessionProfile | .verifyOtpAndGetProfile _ _ _ => Option ℕ
  | .sendOtp _ => Bool
  | .findAppByClientId _ => Option (ℕ × OAuthApp)
  | .findApp _ => Option OAuthApp
  | .findProfile _ => Option Profile
  | .findAuthorization _ _ => Option (ℕ × OAuthAuthorization)
  | .findAuthorizationById _ => Option (OAuthAuthorization × OAuthApp × Profile)
  | .upsertAuthorization _ _ _ _ => ℕ
  | _ => Unit

/-- What the rest of the platform decides. -/
structure Env where
  session : Option ℕ := none
  sent : Bool := true
  verified : Option ℕ := none

def AppChanges.apply (c : AppChanges) (app : OAuthApp) : OAuthApp :=
  { app with
    status := c.status.getD app.status
    redirectUris := c.redirectUris.getD app.redirectUris
    allowedScopes := c.allowedScopes.getD app.allowedScopes
    clientSecretHash := c.clientSecretHash.getD app.clientSecretHash
    previousSecretHash := (c.previousSecret.map Prod.fst).getD app.previousSecretHash
    previousSecretExpiresAt := (c.previousSecret.map Prod.snd).getD app.previousSecretExpiresAt }

namespace World

variable (w : World)

/-- The instant after some seconds. -/
def after (seconds : ℕ) : ℕ := w.now + 1000 * seconds

/-- The application of a `client_id`, unless it was removed. -/
def appByClientId (clientId : String) : Option (ℕ × OAuthApp) :=
  Table.findFirst w.apps fun a => a.clientId = clientId ∧ a.deletedAt = none

def authorizationOf (appId profileId : ℕ) : Option (ℕ × OAuthAuthorization) :=
  Table.findFirst w.authorizations fun a => a.appId = appId ∧ a.profileId = profileId

/-- A consent with the rows it belongs to. -/
def authorizationById (id : ℕ) : Option (OAuthAuthorization × OAuthApp × Profile) :=
  match w.authorizations[id]? with
  | none => none
  | some a =>
    match w.apps[a.appId]?, w.profiles[a.profileId]? with
    | some app, some profile => some (a, app, profile)
    | _, _ => none

/-- The consents with the row of the application and the profile rewritten, or made where it is
missing, and the identifier of the row. -/
def consentRows (appId profileId : ℕ) (pairwiseSub : String) (scopes : List String) :
    List OAuthAuthorization × ℕ :=
  match w.authorizationOf appId profileId with
  | some (id, _) =>
    (Table.update w.authorizations id fun a => { a with scopes, revokedAt := none }, id)
  | none =>
    (w.authorizations ++ [{ appId, profileId, pairwiseSub, scopes }], w.authorizations.length)

/-- Records a consent. -/
def upsertAuthorization (appId profileId : ℕ) (pairwiseSub : String) (scopes : List String) :
    World :=
  { w with authorizations := (w.consentRows appId profileId pairwiseSub scopes).1 }

/-- Takes an application and all consents behind it out of service. -/
def removeApp (id : ℕ) : World :=
  { w with
    apps := Table.update w.apps id fun a =>
      { a with deletedAt := some w.now, status := .suspended }
    authorizations := Table.updateMany w.authorizations
      (fun _ a => a.appId = id ∧ a.revokedAt = none) fun a =>
        { a with revokedAt := some w.now } }

def revokeAuthorization (id : ℕ) : World :=
  { w with
    authorizations :=
      Table.update w.authorizations id fun a => { a with revokedAt := some w.now } }

/-- `SET … KEEPTTL`: a missing key gets no expiry. -/
def keepInteraction (id : ℕ) (next : OAuthInteraction) : World :=
  { w with interactions := w.interactions.put id next (w.interactions.expiry w.now id) }

end World

/-- What a command does. -/
def exec (w : World) (ε : Env) : (c : Cmd) → Option (World × Resp c)
  | .dateNow => some (w, w.now)
  | .setInteraction interaction =>
    some ({ w with
      serial := w.serial + 1
      interactions :=
        w.interactions.put w.serial interaction (some (w.after interactionTtlSeconds)) },
      w.serial)
  | .getInteraction id => some (w, w.interactions.get w.now id)
  | .keepInteraction id next _ => some (w.keepInteraction id next, ())
  | .delInteraction id _ => some ({ w with interactions := w.interactions.del id }, ())
  | .setCode _ grant =>
    some ({ w with
      serial := w.serial + 1
      codes := w.codes.put w.serial grant (some (w.after authCodeTtlSeconds)) }, w.serial)
  | .getAndDeleteCode code =>
    match w.codes.get w.now code with
    | none => some (w, none)
    | some grant => some ({ w with codes := w.codes.del code }, some grant)
  | .setAccessToken _ record =>
    some ({ w with
      serial := w.serial + 1
      accessTokens := w.accessTokens.put w.serial record (some (w.after accessTokenTtlSeconds)) },
      w.serial)
  | .getAccessToken token => some (w, w.accessTokens.get w.now token)
  | .delAccessToken token => some ({ w with accessTokens := w.accessTokens.del token }, ())
  | .resolveSessionProfile => some (w, ε.session)
  | .sendOtp _ => some (w, ε.sent)
  | .verifyOtpAndGetProfile _ _ _ => some (w, ε.verified)
  | .findAppByClientId clientId => some (w, w.appByClientId clientId)
  | .findApp id => some (w, (w.apps[id]?).filter fun a => a.deletedAt = none)
  | .findProfile id => some (w, (w.profiles[id]?).filter fun p => p.deletedAt = none)
  | .findAuthorization appId profileId => some (w, w.authorizationOf appId profileId)
  | .findAuthorizationById id => some (w, w.authorizationById id)
  | .upsertAuthorization appId profileId pairwiseSub scopes =>
    some (w.upsertAuthorization appId profileId pairwiseSub scopes,
      (w.consentRows appId profileId pairwiseSub scopes).2)
  | .sendTokens _ _ | .sendClaims _ _ => some (w, ())
  | .addProfile profile => some ({ w with profiles := w.profiles ++ [profile] }, ())
  | .changeProfile id profile =>
    some ({ w with profiles := Table.update w.profiles id fun _ => profile }, ())
  | .registerApp app =>
    if w.apps.any (fun a => a.clientId = app.clientId) then none
    else some ({ w with apps := w.apps ++ [app] }, ())
  | .updateApp id changes =>
    some ({ w with apps := Table.update w.apps id changes.apply }, ())
  | .removeApp id => some (w.removeApp id, ())
  | .revokeAuthorization id => some (w.revokeAuthorization id, ())
  | .elapse milliseconds => some ({ w with now := w.now + milliseconds }, ())

end Rabotka.OAuth

/-!
## Claims, scopes and synthetic users

The pure parts of a login: which claims a set of scopes entitles a partner to, the synthetic
users of sandbox applications, and the checks of redirect URIs, code challenges and client
secrets. The hash functions and encodings are those of the platform's crypto library, a
parameter `Crypto`.
-/

namespace Rabotka.OAuth

open Text

/-! ### Text -/

/-- The unreserved characters. -/
def isUnreserved (c : Char) : Bool :=
  c.isAlphanum || c ∈ ['-', '.', '_', '~']

/-! ### Scopes -/

/-- `SUPPORTED_SCOPES`. -/
def supportedScopes : List String :=
  ["openid", "profile", "phone", "email", "rabotka:verification", "rabotka:location"]

def parseScopes : Option String → List String
  | none => []
  | some scope =>
    (((scope.toList.splitOnP isSpace).map String.ofList).filter fun s => s ≠ "").eraseDups

/-- What this application may have of what it asks for. -/
def grantableScopes (app : OAuthApp) (requested : List String) : List String :=
  requested.filter fun s => s ∈ app.allowedScopes

/-- Union with what was granted before. -/
def unionScopes (held requested : List String) : List String :=
  (held ++ requested).eraseDups

/-! ### Redirect URIs and code challenges -/

def isRegisteredRedirectUri (requested : String) (registered : List String) : Bool :=
  requested ≠ "" && requested ∈ registered

def isValidCodeChallenge : Option String → Bool
  | none => false
  | some challenge => challenge.toList.length = 43 && challenge.toList.all isUnreserved

/-- The hash function, its encodings, and the configured salt. -/
structure Crypto where
  sha256 : String → List UInt8
  toHex : List UInt8 → String
  ofHex : String → List UInt8
  toBase64url : List UInt8 → String
  ofBase64url : String → List UInt8
  pairwiseSalt : Option String

section Crypto

variable (crypto : Crypto)

def verifyCodeChallenge (verifier storedChallenge : String) : Bool :=
  (43 ≤ verifier.toList.length && verifier.toList.length ≤ 128 &&
    verifier.toList.all isUnreserved) &&
  crypto.sha256 verifier = crypto.ofBase64url storedChallenge

def hashClientSecret (secret : String) : String :=
  crypto.toHex (crypto.sha256 secret)

def clientSecretMatches (presented storedHash : String) : Bool :=
  crypto.ofHex (hashClientSecret crypto presented) = crypto.ofHex storedHash

/-- The identifier of a subject, as it is hashed. -/
def Subject.toText : Subject → String
  | .profile id => toString id
  | .sandbox name => "sandbox:" ++ name

def derivePairwiseSub (appId : ℕ) (profileId : Subject) (salt : String) : String :=
  crypto.toBase64url (crypto.sha256 (toString appId ++ ":" ++ profileId.toText ++ ":" ++ salt))

end Crypto

/-! ### Claims -/

def canAuthenticateToPartner (status : AccountStatus) : Bool :=
  status ≠ .banned

def maskPhone (phone : String) : String :=
  "••" ++ String.ofList (phone.toList.drop (phone.toList.length - 2))

def AccountStatus.toText : AccountStatus → String
  | .pendingActivation => "PENDING_ACTIVATION"
  | .active => "ACTIVE"
  | .suspended => "SUSPENDED"
  | .banned => "BANNED"

def orNull : Option String → ClaimValue
  | none => .null
  | some value => .text value

/-- The claims of one scope. -/
def scopeClaims (profile : ClaimSourceProfile) : String → OidcClaims
  | "profile" =>
    [("given_name", .text profile.firstName), ("family_name", .text profile.lastName),
      ("name", .text (trim (profile.firstName ++ " " ++ profile.lastName))),
      ("picture", orNull profile.avatarUrl)]
  | "phone" => [("phone_number", .text profile.phone), ("phone_number_verified", .flag true)]
  | "email" =>
    match profile.email with
    | none => []
    | some email =>
      if email = "" then [] else [("email", .text email), ("email_verified", .flag false)]
  | "rabotka:verification" =>
    [("rabotka_verified", .flag (profile.verificationStatus = .verified)),
      ("rabotka_verified_at", (profile.verifiedAt.map ClaimValue.instant).getD .null),
      ("rabotka_account_status", .text profile.status.toText)]
  | "rabotka:location" =>
    [("city", orNull profile.city), ("country_code", orNull profile.countryCode)]
  | _ => []

/-- The claims a set of granted scopes entitles a partner to see. -/
def buildClaims (profile : ClaimSourceProfile) (scopes : List String) (sub : String) : OidcClaims :=
  ("sub", .text sub) ::
    (["profile", "phone", "email", "rabotka:verification", "rabotka:location"].filter
      fun s => s ∈ scopes).flatMap (scopeClaims profile)

/-! ### Synthetic users -/

/-- `SANDBOX_OTP`. -/
def sandboxOtp : String := "111111"

structure SandboxUser extends ClaimSourceProfile where
  id : String

/-- `SANDBOX_USERS`. -/
def sandboxUsers : List SandboxUser :=
  [{ id := "verified"
     firstName := "Rabotka"
     lastName := "Sandbox"
     phone := "+242061111111"
     email := some "sandbox-verified@sandbox.rabotka.work"
     city := some "Brazzaville"
     countryCode := some "CG"
     verificationStatus := .verified
     verifiedAt := some 1767225600000 },
   { id := "unverified"
     firstName := "Rabotka"
     lastName := "Sandbox"
     phone := "+242061111112"
     email := some "sandbox-unverified@sandbox.rabotka.work"
     city := some "Brazzaville"
     countryCode := some "CG" }]

def Subject.isSandbox : Subject → Bool
  | .profile _ => false
  | .sandbox _ => true

def findUserByPhone (phone : String) : Option SandboxUser :=
  let normalized := (String.ofList (phone.toList.filter fun c => !isSpace c)).toLower
  if normalized = "" then none else sandboxUsers.find? fun user => user.phone = normalized

def sandboxVerifyOtp (phone otp : String) : Option SandboxUser :=
  match findUserByPhone phone with
  | none => none
  | some user => if otp = sandboxOtp then some user else none

def claimSource (name : String) : Option ClaimSourceProfile :=
  (sandboxUsers.find? fun user => user.id = name).map SandboxUser.toClaimSourceProfile

end Rabotka.OAuth
