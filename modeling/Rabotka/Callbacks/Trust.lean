import Rabotka.Callbacks.Checks

/-!
# What an accepted callback stands for

A callback that the verifier accepts rebuilds a base the gateway signed, within the permitted
skew, and two accepted callbacks with the same signature headers agree on the first value of
every covered component, and on the body as soon as the digest is covered. Nothing in the code
asks that it is.
-/

namespace Rabotka.Callbacks

open Scan List

variable {Key : Type} {R : Runtime Key} {G : Gateway Key} {now : ℕ} {c c' : SignedCallback}

/-! ### What was signed -/

namespace SignedCallback

variable (R)

def input (c : SignedCallback) : Option ParsedInput :=
  parseSignatureInput R (c.header "signature-input")

/-- The covered components. -/
def covered (c : SignedCallback) : List String :=
  ((c.input R).map ParsedInput.components).getD []

/-- The base the verifier rebuilds. -/
def base (c : SignedCallback) : Option String :=
  (c.input R).bind fun input => signatureBase input (c.valueOf R)

def created (c : SignedCallback) : Number :=
  ((c.input R).map fun input => input.numberOf "created").getD .nan

/-- All the values of a component, up to surrounding white space and the case of the method and
the authority: more than one where a header is repeated. -/
def values (c : SignedCallback) (component : String) : List String :=
  List.map Text.trim <|
    match component with
    | "@method" => [R.toUpperCase c.method]
    | "@authority" => [R.toLowerCase c.authority]
    | "@path" => [c.path]
    | _ => ((c.headers component).map HeaderValue.values).getD []

end SignedCallback

/-- A component that has a value has it first. -/
theorem values_eq {component value : String} (h : c.valueOf R component = some value) :
    c.values R component = Text.trim value :: (c.values R component).tail := by
  unfold SignedCallback.valueOf at h
  unfold SignedCallback.values
  split at h
  · rw [Option.some.inj h]; rfl
  · rw [Option.some.inj h]; rfl
  · rw [Option.some.inj h]; rfl
  · rename_i hmethod hauthority hpath
    split at h
    · cases h
    · split at h
      · cases h
      · rename_i hsome
        obtain rfl := Option.some.inj h
        rw [SignedCallback.header] at hsome ⊢
        cases hvalues : ((c.headers component).map HeaderValue.values).getD [] with
        | nil => exact absurd (by rw [hvalues]; rfl) hsome
        | cons v vs => simp

/-- What the signature of an accepted callback vouches for, next to another accepted callback
with the same signature headers. -/
structure Vouched (R : Runtime Key) (G : Gateway Key) (now : ℕ) (c c' : SignedCallback) : Prop where
  covered : "content-digest" ∈ c.covered R
  recent : ∃ base signature created, c.base R = some base ∧ (base, signature) ∈ G.produced ∧
    c.created R = .finite created ∧ |((now / 1000 : ℕ) : ℚ) - created| < MAX_SKEW_SECONDS
  body : c'.rawBody = c.rawBody
  agree : ∀ component ∈ c.covered R, c'.values R component = c.values R component

/-- Of two accepted callbacks with the same signature headers the first is vouched for, next to
the second, exactly when the digest of the body is among the covered components, the signature
is not at the very end of the permitted skew, and the values of repeated covered headers beyond
the first are the same. -/
theorem callback_trusted {now' : ℕ} (hR : R.Sound G) (h : Accepted R G now c)
    (h' : Accepted R G now' c') (hc : c.Unbroken) (hc' : c'.Unbroken)
    (hinput : c'.header "signature-input" = c.header "signature-input")
    (hsignature : c'.header "signature" = c.header "signature") :
    Vouched R G now c c' ↔ "content-digest" ∈ c.covered R ∧
        (∀ created, c.created R = .finite created →
          |((now / 1000 : ℕ) : ℚ) - created| ≠ MAX_SKEW_SECONDS) ∧
        ∀ component ∈ c.covered R, (c'.values R component).tail = (c.values R component).tail := by
  obtain ⟨s, hs, hproduced⟩ := h.signed hR
  obtain ⟨s', hs', hproduced'⟩ := h'.signed hR
  obtain ⟨body, hbody, hdigest, hparsed, hlabel, hfresh, hbase⟩ := precheck_ok hs
  obtain ⟨body', hbody', hdigest', hparsed', hlabel', -, hbase'⟩ := precheck_ok hs'
  -- one signature input, one signature, and so one base
  have hsame : s'.input = s.input := by
    rw [hinput, hparsed] at hparsed'
    exact (Option.some.inj hparsed').symm
  have hbytes : s'.signature = s.signature := by
    rw [hsignature, hsame, hlabel] at hlabel'
    exact (Option.some.inj hlabel').symm
  have hbases : s'.base = s.base := hR.one_base (hbytes ▸ hproduced') hproduced
  rw [hsame, hbases] at hbase'
  obtain ⟨hcomponents, hraw⟩ := unbroken_input hR (hc.header _) hparsed
  have hvalues := values_of_base hR hc hc' hcomponents hraw hbase hbase'
  have hread : c.input R = some s.input := hparsed
  have hcovered : c.covered R = s.input.components := by
    rw [SignedCallback.covered, hread]
    rfl
  have hcreated : c.created R = s.input.numberOf "created" := by
    rw [SignedCallback.created, hread]
    rfl
  constructor
  · intro hvouched
    refine ⟨hvouched.covered, fun created hat heq => ?_, fun component hmem => ?_⟩
    · obtain ⟨-, -, created', -, -, hat', hrecent⟩ := hvouched.recent
      obtain rfl : created = created' := by
        rw [hat] at hat'
        exact Number.finite.inj hat'
      exact hrecent.ne heq
    · rw [hvouched.agree component hmem]
  · rintro ⟨hdigested, hskew, htails⟩
    refine ⟨hdigested, ?_, ?_, fun component hmem => ?_⟩
    · obtain ⟨created, hat, hage⟩ := checkFreshness_ok hfresh
      refine ⟨s.base, s.signature, created, ?_, hproduced, hcreated.trans hat, ?_⟩
      · rw [SignedCallback.base, hread]
        exact hbase
      · exact lt_of_le_of_ne hage (hskew created (hcreated.trans hat))
    · -- the digest is covered, and it is of one body
      obtain ⟨value, value', hvalue, hvalue', htrim⟩ := hvalues _ (hcovered ▸ hdigested)
      have hheader : ∀ {d : SignedCallback} {v}, d.valueOf R "content-digest" = some v →
          v = d.header "content-digest" := by
        intro d v hv
        simp only [SignedCallback.valueOf, String.reduceEq, imp_self] at hv
        split at hv
        · cases hv
        · split at hv
          · cases hv
          · exact (Option.some.inj hv).symm
      rw [hbody, hbody', body_unique hR ?_ hdigest hdigest']
      rw [← hheader hvalue, ← hheader hvalue', htrim]
    · obtain ⟨value, value', hvalue, hvalue', htrim⟩ := hvalues _ (hcovered ▸ hmem)
      rw [values_eq hvalue, values_eq hvalue', htrim, htails component hmem]

/-! ### Two signatures -/

def sextet (c : Char) : ℕ :=
  if c.isUpper then c.toNat - 65
  else if c.isLower then c.toNat - 71
  else if c.isDigit then c.toNat + 4
  else if c = '+' then 62 else 63

/-- Base64 with padding, four characters at a time. -/
def sampleBase64 : List Char → Bytes
  | a :: b :: c :: d :: s =>
    let n := ((sextet a * 64 + sextet b) * 64 + sextet c) * 64 + sextet d
    let three := [UInt8.ofNat (n / 65536), UInt8.ofNat (n / 256 % 256), UInt8.ofNat (n % 256)]
    if c = '=' then three.take 1
    else if d = '=' then three.take 2 else three ++ sampleBase64 s
  | _ => []

def ascii (s : String) : Bytes := s.toList.map fun c => UInt8.ofNat c.toNat

def firstBody : Bytes := ascii "\x7b\"depositId\":\"dep-1\"\x7d"

def secondBody : Bytes := ascii "\x7b\"depositId\":\"dep-2\"\x7d"

def firstDigest : String := "SHuDjaLp2u9+Ikc0hVdZKWYMWQ7ien2oc61Yl9jGsRw="

def secondDigest : String := "4bn4ptcCH8wJB14/lE7qdkGVLmsBfi1Ujfl1GwftwTE="

/-- SHA-256 of the two bodies; what it is of others does not matter. -/
def sampleDigest (body : Bytes) : Bytes :=
  if body = firstBody then sampleBase64 firstDigest.toList
  else if body = secondBody then sampleBase64 secondDigest.toList
  else body ++ replicate 64 0

def sampleParams : String := ";alg=\"ecdsa-p256-sha256\";keyid=\"K:1\";created=1700000000;" ++
  "expires=1700000060"

/-- The signature of the method and a cookie, without the digest. -/
def uncoveredSignature : String :=
  "MEUCIGpOgMIc2HCTyntU2zjRrZyla744MaFNvuLUjUWUHsMTAiEAmEUigZ2J2YFJvHFmEiXpf/ruPfd+Lv5rEwvtRgrF" ++
  "+/8="

/-- The signature of the method, the path and the digest. -/
def coveredSignature : String :=
  "MEYCIQCtpJTkriKMkZXo1y6rRKhI6TR6NtULwK37abWts8Y95QIhAPYNQ3TyY3g6OkgW7u8JjjU6PbThAzJLxSj6aIjj" ++
  "E4fR"

def sampleProduced : List (String × Bytes) :=
  [("\"@method\": POST\n\"set-cookie\": a=1\n" ++
      "\"@signature-params\": (\"@method\" \"set-cookie\")" ++ sampleParams,
      sampleBase64 uncoveredSignature.toList),
    ("\"@method\": POST\n\"@path\": /pay\n\"content-digest\": sha-256=:" ++ firstDigest ++
      ":\n\"@signature-params\": (\"@method\" \"@path\" \"content-digest\")" ++ sampleParams,
      sampleBase64 coveredSignature.toList)]

/-- The one key is on P-256, and the signatures are in DER. -/
def sampleRuntime : Runtime Unit where
  toUpperCase := id
  toLowerCase := id
  digest _ := sampleDigest
  base64 s := sampleBase64 s.toList
  createPublicKey _ := some ()
  verify a _ o base signature :=
    some (a = .sha256 ∧ o = .der ∧ (base, signature) ∈ sampleProduced)

def sampleGateway : Gateway Unit where
  keys := Set.univ
  produced := {x | x ∈ sampleProduced}

theorem sampleRuntime_sound : sampleRuntime.Sound sampleGateway where
  digest_injective _ a b h := by
    have hone : (sampleBase64 firstDigest.toList).length = 32 := by decide +kernel
    have htwo : (sampleBase64 secondDigest.toList).length = 32 := by decide +kernel
    have hne : sampleBase64 firstDigest.toList ≠ sampleBase64 secondDigest.toList := by
      decide +kernel
    have hlong : ∀ c : Bytes, (c ++ replicate 64 (0 : UInt8)).length ≠ 32 := by
      intro c
      rw [length_append, length_replicate]
      omega
    change sampleDigest a = sampleDigest b at h
    unfold sampleDigest at h
    by_cases ha : a = firstBody
    · by_cases hb : b = firstBody
      · rw [ha, hb]
      · rw [if_pos ha, if_neg hb] at h
        split at h
        · exact absurd h hne
        · exact absurd (h ▸ hone) (hlong b)
    · by_cases hb : b = firstBody
      · rw [if_neg ha, if_pos hb] at h
        split at h
        · exact absurd h.symm hne
        · exact absurd (h ▸ hone) (hlong a)
      · rw [if_neg ha, if_neg hb] at h
        by_cases ha' : a = secondBody
        · by_cases hb' : b = secondBody
          · rw [ha', hb']
          · rw [if_pos ha', if_neg hb'] at h
            exact absurd (h ▸ htwo) (hlong b)
        · by_cases hb' : b = secondBody
          · rw [if_neg ha', if_pos hb'] at h
            exact absurd (h ▸ htwo) (hlong a)
          · rw [if_neg ha', if_neg hb'] at h
            exact append_cancel_right h
  genuine _ h := (of_decide_eq_true (Option.some.inj h)).2.2
  one_base {base base' signature} h h' := by
    have hall : ∀ x ∈ sampleProduced, ∀ y ∈ sampleProduced, x.2 = y.2 → x.1 = y.1 := by
      decide +kernel
    exact hall _ h _ h' rfl
  upper_unbroken h := h
  lower_unbroken h := h

def sampleReply : Reply := ⟨some [⟨some "K:1", some "-----BEGIN PUBLIC KEY-----"⟩], 0⟩

/-- A callback with these covered components and headers. -/
def sampleCallback (components : String) (signature : String) (digest : String)
    (cookies : List String) (body : Bytes) : SignedCallback where
  method := "POST"
  authority := "api.rabotka.test"
  path := "/pay"
  headers name := List.lookup name
    [("signature-input", .one ("sig-pp=(" ++ components ++ ")" ++ sampleParams)),
      ("signature", .one ("sig-pp=:" ++ signature ++ ":")),
      ("signature-date", .one "2023-11-14T22:13:20.000Z"),
      ("content-digest", .one ("sha-256=:" ++ digest ++ ":")),
      ("set-cookie", .several cookies)]
  rawBody := some body

def covered : SignedCallback :=
  sampleCallback "\"@method\" \"@path\" \"content-digest\"" coveredSignature firstDigest []
    firstBody

/-- As the gateway sent it. -/
def uncovered : SignedCallback :=
  sampleCallback "\"@method\" \"set-cookie\"" uncoveredSignature firstDigest ["a=1", "b=1"]
    firstBody

/-- With another body, its digest and another second cookie. -/
def forged : SignedCallback :=
  sampleCallback "\"@method\" \"set-cookie\"" uncoveredSignature secondDigest ["a=1", "b=2"]
    secondBody

theorem accepted_of_verify {now : ℕ} {c : SignedCallback}
    (h : (Verifier.verify sampleRuntime {} now sampleReply sampleReply c).1 = .ok ()) :
    Accepted sampleRuntime sampleGateway now c :=
  ⟨[], sampleReply, sampleReply, fun _ h => (not_mem_nil h).elim,
    fun _ _ _ _ => Set.mem_univ _, fun _ _ _ _ => Set.mem_univ _, h⟩

theorem unbroken_sampleCallback {components signature digest : String} {cookies : List String}
    {body : Bytes} (h : ∀ v ∈ ["sig-pp=(" ++ components ++ ")" ++ sampleParams,
      "sig-pp=:" ++ signature ++ ":", "2023-11-14T22:13:20.000Z",
      "sha-256=:" ++ digest ++ ":"] ++ cookies, '\n' ∉ v.toList) :
    (sampleCallback components signature digest cookies body).Unbroken := by
  have hmethod : '\n' ∉ "POST".toList := by decide
  have hauthority : '\n' ∉ "api.rabotka.test".toList := by decide
  have hpath : '\n' ∉ "/pay".toList := by decide
  refine ⟨hmethod, hauthority, hpath, ?_⟩
  intro name value hvalue v hv
  refine h v ?_
  obtain ⟨l, r, hlist, -⟩ := lookup_eq_some_iff.1 hvalue
  have hmem : (name, value) ∈ [("signature-input", HeaderValue.one
      ("sig-pp=(" ++ components ++ ")" ++ sampleParams)),
      ("signature", .one ("sig-pp=:" ++ signature ++ ":")),
      ("signature-date", .one "2023-11-14T22:13:20.000Z"),
      ("content-digest", .one ("sha-256=:" ++ digest ++ ":")), ("set-cookie", .several cookies)] :=
    hlist ▸ mem_append_right _ (mem_cons_self ..)
  simp only [mem_cons, Prod.mk.injEq, not_mem_nil, or_false] at hmem
  rcases hmem with ⟨-, rfl⟩ | ⟨-, rfl⟩ | ⟨-, rfl⟩ | ⟨-, rfl⟩ | ⟨-, rfl⟩
  · simp [mem_singleton.1 hv]
  · simp [mem_singleton.1 hv]
  · simp [mem_singleton.1 hv]
  · simp [mem_singleton.1 hv]
  · exact mem_append_right _ hv

/-- A callback whose digest is covered, twice: it is vouched for. -/
theorem callback_trusted_covered :
    Vouched sampleRuntime sampleGateway 1700000030000 covered covered := by
  have haccepted : Accepted sampleRuntime sampleGateway 1700000030000 covered :=
    accepted_of_verify (by decide +kernel)
  have hunbroken : covered.Unbroken := unbroken_sampleCallback (by decide +kernel)
  refine (callback_trusted sampleRuntime_sound haccepted haccepted hunbroken hunbroken rfl
    rfl).2 ⟨by decide +kernel, fun created hcreated => ?_, fun _ _ => rfl⟩
  obtain rfl : created = 1700000000 := by
    have hnumber : covered.created sampleRuntime = .finite 1700000000 := by decide +kernel
    rw [hnumber] at hcreated
    exact (Number.finite.inj hcreated).symm
  decide +kernel

theorem accepted_uncovered : Accepted sampleRuntime sampleGateway 1699999700000 uncovered :=
  accepted_of_verify (by decide +kernel)

theorem accepted_forged : Accepted sampleRuntime sampleGateway 1700000030000 forged :=
  accepted_of_verify (by decide +kernel)

/-- A signature that does not cover the digest goes with any body, it is accepted when it is
exactly as old as is permitted, and of a repeated header only the first value is signed. -/
theorem callback_untrusted : sampleRuntime.Sound sampleGateway ∧
      Accepted sampleRuntime sampleGateway 1699999700000 uncovered ∧
      Accepted sampleRuntime sampleGateway 1700000030000 forged ∧
      uncovered.Unbroken ∧ forged.Unbroken ∧
      forged.header "signature-input" = uncovered.header "signature-input" ∧
      forged.header "signature" = uncovered.header "signature" ∧
      "content-digest" ∉ uncovered.covered sampleRuntime ∧
      forged.rawBody ≠ uncovered.rawBody ∧
      uncovered.created sampleRuntime = .finite (1699999700000 / 1000 + MAX_SKEW_SECONDS) ∧
      "set-cookie" ∈ uncovered.covered sampleRuntime ∧
      forged.values sampleRuntime "set-cookie" ≠ uncovered.values sampleRuntime "set-cookie" := by
  refine ⟨sampleRuntime_sound, accepted_uncovered, accepted_forged,
    unbroken_sampleCallback (by decide +kernel), unbroken_sampleCallback (by decide +kernel),
    by decide +kernel, by decide +kernel, by decide +kernel, by decide +kernel, by decide +kernel,
    by decide +kernel, by decide +kernel⟩

end Rabotka.Callbacks
