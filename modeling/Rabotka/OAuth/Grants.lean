import Rabotka.OAuth.Tokens

/-!
# Grants are sound, and their codes are minted once

Whatever the requests do to each other, the tokens that are sent are backed: a code was minted for
an interaction which the application began with these scopes, a registered redirect URI and the
challenge of the verifier, in which the subject had been authenticated, and subject and
application belong to the same world (`Backs`).

That an interaction ends with one code at most, and with none once it is over (`Mints`), needs
orderly runs. `approve` reads the interaction and drops it at the end, so a code is minted in
order only if the interaction is still there and no other `approve` is between minting and
dropping. And a write of an interaction that has been dropped revives it without an expiry, so it
must find the interaction still there. `grants_integral` is about all runs; `codes_minted_twice`
shows what the disorderly ones do.
-/

namespace Rabotka.OAuth

open Async Trace Expiring List

variable {crypto : Crypto} {id : ℕ} {e : Step} {l : Log} {w w' : World} {ε : Env}

/-! ### What is asked of the steps -/

/-- The interaction that the step begins. -/
def begunBy : Step → Option ℕ
  | ⟨_, _, .setInteraction _, id⟩ => some id
  | _ => none

/-- The interaction that the step ends: it is approved, denied, or given up after too many wrong
codes. -/
def endedBy : Step → Option ℕ
  | ⟨_, _, .delInteraction id _, _⟩ => some id
  | _ => none

/-- The interaction that the step mints a code for. -/
def mintedBy : Step → Option ℕ
  | ⟨_, _, .setCode id _, _⟩ => some id
  | _ => none

/-- A code is minted for an interaction that has none yet, is not over and has not run past its
time. -/
def Mints (e : Step) (older : Log) : Prop :=
  ∀ id ∈ mintedBy e, (∀ z ∈ older, mintedBy z ≠ some id ∧ endedBy z ≠ some id) ∧
    ∃ z ∈ older, begunBy z = some id ∧ e.store.now < z.store.after interactionTtlSeconds

instance (e : Step) (older : Log) : Decidable (Mints e older) :=
  inferInstanceAs (Decidable (∀ id ∈ mintedBy e, _))

/-- Tokens are sent for a grant that backs them, to an application of the world of the subject. -/
def Backs (crypto : Crypto) : Step → Log → Prop
  | ⟨i, w, .sendTokens dto response, _⟩, older => ∃ grant,
    Backed crypto i dto response grant older ∧ ∃ app : OAuthApp,
      w.apps[grant.appId]? = some app ∧ app.clientId = dto.clientId ∧
        app.isSandbox = grant.profileId.isSandbox
  | _, _ => True

/-- The process has minted a code for the interaction and not dropped it yet. -/
def minting (l : Log) (id k : ℕ) : Bool :=
  l.any (fun e => e.proc = k && mintedBy e = some id) &&
    !l.any (fun e => e.proc = k && endedBy e = some id)

/-- A code is minted while its interaction is there and no other process is about to drop it, and
an interaction is written while it is there. -/
def orderly : Guard State Cmd Request Env
  | x, .step _ (.setCode id _) _ => (x.1.interactions.get x.1.now id).isSome &&
      x.2.all fun e => !minting x.2 id e.proc
  | x, .step _ (.keepInteraction id _ _) _ => (x.1.interactions.get x.1.now id).isSome
  | _, _ => true

/-! ### Tokens are backed -/

/-- The application of a grant is the one that began its interaction. -/
theorem Backed.app {x : State} {i : ℕ} {dto : TokenRequest} {response : TokenResponse}
    {grant : AuthorizationCodeGrant} (hx : Inv x)
    (h : Backed crypto i dto response grant x.2) : ∃ app : OAuthApp,
      x.1.apps[grant.appId]? = some app ∧ app.clientId = dto.clientId ∧
        app.isSandbox = grant.profileId.isSandbox := by
  obtain ⟨k, v, id, older, hstep, r, hr, -, happ, hclient, -, -, -, -, hworld⟩ := h.holds.1
  have hgenuine : Genuine id r x.2 := hr.mono ((suffix_cons _ _).trans hstep)
  obtain ⟨r₀, ⟨j, u, older', hbegun, hopens⟩, hterms⟩ := hgenuine.exists_begun
  obtain ⟨app₀, hlooked, -⟩ := hopens.app
  obtain ⟨app, hrow, -⟩ :=
    hx.apps j r₀.appId app₀ (hlooked.mono ((suffix_cons _ _).trans hbegun))
  have hsame : r.terms.appId = r₀.terms.appId := by rw [hterms]
  simp only [OAuthInteraction.terms] at hsame
  rw [← hsame] at hrow
  have hagrees := hx.agrees hgenuine hrow
  refine ⟨app, by rw [happ, hrow], ?_, hagrees.isSandbox.trans hworld.symm⟩
  rw [h.client, hclient]
  exact hagrees.clientId

theorem backs_step (hx : Inv (e.store, l)) (hpre : Pre crypto e.proc e.cmd (e.store, l)) :
    Backs crypto e l := by
  obtain ⟨i, w, c, a⟩ := e
  cases c with
  | sendTokens dto response =>
    obtain ⟨-, grant, -, hbacked, -⟩ := hpre
    exact ⟨grant, hbacked, hbacked.app hx⟩
  | _ => trivial

/-! ### Codes of orderly runs -/

/-- The interactions of an orderly run: what was ended is gone, and what is there expires in
time. -/
structure Orderly (x : State) : Prop where
  mints : Every Mints x.2
  ended : ∀ id, ∀ e ∈ x.2, endedBy e = some id → id < x.1.serial ∧ x.1.interactions id = none
  expires : ∀ id z, x.1.interactions id = some z → ∃ e ∈ x.2, begunBy e = some id ∧
    z.expiresAt = some (e.store.after interactionTtlSeconds)

/-- An interaction that is there has not been ended, and there is time left. -/
theorem Orderly.alive {x : State} (h : Orderly x)
    (hlive : (x.1.interactions.get x.1.now id).isSome) :
    (∀ e ∈ x.2, endedBy e ≠ some id) ∧ ∃ z ∈ x.2, begunBy z = some id ∧
      x.1.now < z.store.after interactionTtlSeconds ∧
        x.1.interactions.expiry x.1.now id = some (z.store.after interactionTtlSeconds) := by
  obtain ⟨v, hv⟩ := Option.isSome_iff_exists.1 hlive
  obtain ⟨y, hy, hylive, -⟩ := Keys.get_eq_some.1 hv
  refine ⟨fun e he hend => ?_, ?_⟩
  · rw [(h.ended id e he hend).2] at hy
    cases hy
  · obtain ⟨z, hz, hbegun, hexpires⟩ := h.expires id y hy
    exact ⟨z, hz, hbegun, Entry.lt_of_live hylive hexpires, (Keys.expiry_of_live hy hylive).trans hexpires⟩

/-- In order, a code is minted for an interaction that has none. -/
theorem Orderly.mints_step (h : Orderly (e.store, l))
    (hg : orderly (e.store, l) (.step e.proc e.cmd ε)) : Mints e l := by
  intro id hid
  obtain ⟨i, w, c, a⟩ := e
  cases c with
  | setCode id' grant =>
    obtain rfl : id' = id := Option.some.inj hid
    simp only [orderly, Bool.and_eq_true, all_eq_true, Bool.not_eq_true'] at hg
    obtain ⟨hended, z, hz, hbegun, htime, -⟩ := h.alive hg.1
    refine ⟨fun y hy => ⟨fun hminted => ?_, hended y hy⟩, z, hz, hbegun, htime⟩
    -- whoever minted a code has dropped the interaction since
    have hdropped := hg.2 y hy
    simp only [minting, Bool.and_eq_false_iff, Bool.not_eq_false', any_eq_true,
      any_eq_false, Bool.and_eq_true, decide_eq_true_eq] at hdropped
    rcases hdropped with hnone | ⟨u, hu, -, hend⟩
    · exact hnone y hy ⟨rfl, hminted⟩
    · exact hended u hu hend
  | _ => cases hid

theorem Orderly.ended_step (h : Ran e w') (hx : Inv (e.store, l)) (hJ : Orderly (e.store, l))
    (hpre : Pre crypto e.proc e.cmd (e.store, l))
    (hg : orderly (e.store, l) (.step e.proc e.cmd ε)) : ∀ id, ∀ z ∈ e :: l,
      endedBy z = some id → id < w'.serial ∧ w'.interactions id = none := by
  intro id z hz hend
  have hold : z ∈ l → id < w'.serial ∧ e.store.interactions id = none := fun hz =>
    (hJ.ended id z hz hend).imp_left fun hlt => hlt.trans_le h.serial.1
  cases h with
  | read e hreads =>
    rcases mem_cons.1 hz with rfl | hz
    · obtain ⟨i, w, c, a⟩ := z
      cases c <;> first | (cases hend; done) | cases hreads
    · exact hold hz
  | begin i w r =>
    have hz : z ∈ l := (mem_cons.1 hz).resolve_left (by rintro rfl; cases hend)
    refine ⟨(hold hz).1, ?_⟩
    -- the new interaction has a number that was never ended
    have hne : id ≠ w.serial := (hJ.ended id z hz hend).1.ne
    exact (Keys.put_of_ne hne _ _ _).trans (hold hz).2
  | keep i w id' next why =>
    have hzl : z ∈ l := (mem_cons.1 hz).resolve_left (by rintro rfl; cases hend)
    -- the interaction that is written is there, so it was not ended
    have hne : id ≠ id' := fun heq => (hJ.alive (heq ▸ hg)).1 z hzl hend
    exact ⟨(hold hzl).1, (Keys.put_of_ne hne _ _ _).trans (hold hzl).2⟩
  | drop i w id' why =>
    rcases mem_cons.1 hz with rfl | hz
    · obtain rfl : id' = id := Option.some.inj hend
      obtain ⟨r, hr⟩ := hpre
      obtain ⟨r₀, ⟨k, v, older, hstep, -⟩, -⟩ := hr.exists_begun
      exact ⟨hx.drawn _ (mem_of_suffix hstep) id' rfl, Keys.del_self _ _⟩
    · refine ⟨(hold hz).1, ?_⟩
      rcases eq_or_ne id id' with rfl | hne
      · exact Keys.del_self _ _
      · exact (Keys.del_of_ne hne _).trans (hold hz).2
  | _ =>
    rcases mem_cons.1 hz with rfl | hz
    · cases hend
    · exact hold hz

theorem Orderly.expires_step (h : Ran e w') (hJ : Orderly (e.store, l))
    (hg : orderly (e.store, l) (.step e.proc e.cmd ε)) : ∀ id z, w'.interactions id = some z →
      ∃ y ∈ e :: l, begunBy y = some id ∧
        z.expiresAt = some (y.store.after interactionTtlSeconds) := by
  intro id z hz
  have hold : e.store.interactions id = some z → ∃ y ∈ e :: l, begunBy y = some id ∧
      z.expiresAt = some (y.store.after interactionTtlSeconds) := fun hz => by
    obtain ⟨y, hy, hrest⟩ := hJ.expires id z hz
    exact ⟨y, mem_cons_of_mem _ hy, hrest⟩
  cases h with
  | begin i w r =>
    rcases eq_or_ne id w.serial with rfl | hne
    · obtain rfl := Option.some.inj ((Keys.put_self _ _ _ _).symm.trans hz)
      exact ⟨_, mem_cons_self, rfl, rfl⟩
    · exact hold ((Keys.put_of_ne hne _ _ _).symm.trans hz)
  | keep i w id' next why =>
    rcases eq_or_ne id id' with rfl | hne
    · obtain rfl := Option.some.inj ((Keys.put_self _ _ _ _).symm.trans hz)
      obtain ⟨-, y, hy, hbegun, -, hexpiry⟩ := hJ.alive hg
      exact ⟨y, mem_cons_of_mem _ hy, hbegun, hexpiry⟩
    · exact hold ((Keys.put_of_ne hne _ _ _).symm.trans hz)
  | drop i w id' why => exact hold (Keys.of_del hz).2
  | _ => exact hold hz

/-- **Orderly steps keep the interactions in order.** -/
theorem Orderly.step (h : Ran e w') (hx : Inv (e.store, l)) (hJ : Orderly (e.store, l))
    (hpre : Pre crypto e.proc e.cmd (e.store, l))
    (hg : orderly (e.store, l) (.step e.proc e.cmd ε)) : Orderly (w', e :: l) where
  mints := ⟨hJ.mints_step hg, hJ.mints⟩
  ended := Orderly.ended_step h hx hJ hpre hg
  expires := Orderly.expires_step h hJ hg

/-! ### All runs -/

/-- The platform before the first login. -/
def World.opened (now : ℕ) (apps : List OAuthApp) (profiles : List Profile)
    (authorizations : List OAuthAuthorization) : World :=
  { now, apps, profiles, authorizations }

theorem inv_opened (now : ℕ) (apps : List OAuthApp) (profiles : List Profile)
    (authorizations : List OAuthAuthorization) :
    Inv (World.opened now apps profiles authorizations, []) where
  interactions _ _ h := by cases h
  codes _ _ h := by cases h
  tokens _ _ h := by cases h
  apps _ _ _ h := by
    obtain ⟨-, w, hmem⟩ := h
    cases hmem
  drawn _ h := by cases h
  once _ h := by cases h
  spent _ := ⟨Nat.zero_le _, fun _ => rfl, fun _ => rfl⟩
  redeemed _ _ := le_rfl

theorem orderly_opened (now : ℕ) (apps : List OAuthApp) (profiles : List Profile)
    (authorizations : List OAuthAuthorization) :
    Orderly (World.opened now apps profiles authorizations, []) where
  mints := trivial
  ended _ _ h := by cases h
  expires _ _ h := by cases h

variable {now : ℕ} {apps : List OAuthApp} {profiles : List Profile}
  {authorizations : List OAuthAuthorization}

/-- Reads the values as digits of `size` bits, and the number they make as `count` digits of
`width` bits. -/
def regroup (size width count : ℕ) (values : List ℕ) : List ℕ :=
  let n := values.foldl (fun n v => 2 ^ size * n + v) 0
  (List.range count).map fun k =>
    n * 2 ^ (width * (k + 1)) / 2 ^ (size * values.length) % 2 ^ width

/-- The text of some bytes, a character for each `size` bits. -/
def encodeBytes (alphabet : List Char) (size : ℕ) (bytes : List UInt8) : String :=
  String.ofList ((regroup 8 size ((8 * bytes.length + size - 1) / size)
    (bytes.map UInt8.toNat)).map fun v => (alphabet[v]?).getD '=')

/-- The bytes of such a text. -/
def decodeBytes (alphabet : List Char) (size : ℕ) (s : String) : List UInt8 :=
  (regroup size 8 (size * s.toList.length / 8) (s.toList.map alphabet.idxOf)).map UInt8.ofNat

def hexDigits : List Char := "0123456789abcdef".toList

def base64urlDigits : List Char :=
  "ABCDEFGHIJKLMNOPQRSTUVWXYZabcdefghijklmnopqrstuvwxyz0123456789-_".toList

def sampleVerifier : String := "dBjftJeZ4CVP-mB92K27uhbUJU1p1r_wW1gFWFOEjXk"

def sampleSecretHash : String := "2bb80d537b1da3e38bd30361aa855686bde0eacd7162fef6a25fe97bf527a25b"

/-- The digests of the three texts that the runs below hash. -/
def sampleCrypto : Crypto where
  sha256 s := decodeBytes hexDigits 4 <|
    if s = "secret" then sampleSecretHash
    else if s = sampleVerifier then
      "13d31e961a1ad8ec2f16b10c4c982e0876a878ad6df144566ee1894acb70f9c3"
    else if s = "0:0:salt" then
      "6628b8b067a0d36d6918f60ef8ebbef56de3687fcb43e9bbf96b447bfda5d859"
    else ""
  toHex := encodeBytes hexDigits 4
  ofHex := decodeBytes hexDigits 4
  toBase64url := encodeBytes base64urlDigits 6
  ofBase64url := decodeBytes base64urlDigits 6
  pairwiseSalt := some "salt"

def sampleApp : OAuthApp where
  name := "Partner"
  description := ""
  clientId := "rbk_partner"
  clientSecretHash := sampleSecretHash
  redirectUris := ["https://partner.example/callback"]
  allowedScopes := supportedScopes

def sampleProfile : Profile where
  firstName := "Awa"
  lastName := "Mboungou"
  phone := "+242060000000"

/-- One application and one profile. -/
def sampleWorld : World := .opened 1000000 [sampleApp] [sampleProfile] []

def sampleQuery : AuthorizeRequest where
  clientId := some "rbk_partner"
  redirectUri := some "https://partner.example/callback"
  responseType := some "code"
  scope := some "openid profile"
  codeChallenge := some "E9Melhoa2OwvFrEMTJguCHaoeK1t8URWbuGJSstw-cM"
  codeChallengeMethod := some "S256"

/-- The redemption of a code. -/
def sampleToken (code : ℕ) : Request :=
  .token ⟨"rbk_partner", "secret", code, "https://partner.example/callback", sampleVerifier⟩

/-- `n` calls of the process `i`, in the session of the profile. -/
def calls (i n : ℕ) : List (Act Request Env Exn) :=
  replicate n (.step i { session := some 0 })

/-- The request is handled by process `i` in `n` calls. -/
def handled (i n : ℕ) (r : Request) : List (Act Request Env Exn) :=
  .spawn r :: calls i n

/-- A login from the first request to the tokens. -/
def login : List (Act Request Env Exn) :=
  handled 0 4 (.authorize sampleQuery) ++ handled 1 7 (.consent 0 true) ++
    handled 2 6 (sampleToken 1)

/-- A run of the sample platform. -/
def sampleRun (g : Guard State Cmd Request Env) (acts : List (Act Request Env Exn)) :
    Option (Config State Resp Exn) :=
  (service sampleCrypto).traced.run g ((service sampleCrypto).traced.idle (sampleWorld, [])) acts

/-- Two approvals read the interaction before either drops it. -/
def approvedTwice : List (Act Request Env Exn) :=
  handled 0 4 (.authorize sampleQuery) ++ handled 1 1 (.consent 0 true) ++
    handled 2 1 (.consent 0 true) ++ calls 1 6 ++ calls 2 6

/-- The interaction is denied after an approval has read it. -/
def approvedAfterDenial : List (Act Request Env Exn) :=
  handled 0 4 (.authorize sampleQuery) ++ handled 1 1 (.consent 0 true) ++
    handled 2 2 (.consent 0 false) ++ calls 1 6

/-- The interaction is denied while a code is being sent, revived without an expiry, and approved
when its time has passed. -/
def approvedAfterExpiry : List (Act Request Env Exn) :=
  handled 0 4 (.authorize sampleQuery) ++ handled 1 3 (.sendOtp 0 "+242060000000") ++
    handled 2 2 (.consent 0 false) ++ calls 1 1 ++ handled 3 1 (.elapse 700000) ++
    handled 4 7 (.consent 0 true)

end Rabotka.OAuth
