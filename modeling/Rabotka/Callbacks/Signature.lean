import Mathlib
import Rabotka.Lib.Scan

/-!
# The signature of a payment callback

What `PawapaySignatureVerifier` does with a callback: the digest of the body, the two signature
headers, the age, the base that was signed, and the key. The cryptography, the decoding of
base64 and the mapping of letter case are the runtime's, a parameter.
-/

namespace Rabotka.Callbacks

open Scan List

abbrev Bytes := List UInt8

inductive Hash where
  | sha256 | sha384 | sha512
  deriving DecidableEq

/-- How `verify` is told to read a key and a signature. -/
inductive KeyOptions where
  | ieeeP1363 | der | pss | plain
  deriving DecidableEq

/-- The functions of the runtime. -/
structure Runtime (Key : Type) where
  toUpperCase : String → String
  toLowerCase : String → String
  /-- `createHash(algorithm).update(body).digest()`. -/
  digest : Hash → Bytes → Bytes
  /-- `Buffer.from(text, 'base64')`. -/
  base64 : String → Bytes
  /-- Nothing where the text is not a valid key. -/
  createPublicKey : String → Option Key
  /-- Nothing where it throws. -/
  verify : Hash → Key → KeyOptions → String → Bytes → Option Bool

variable {Key : Type} (R : Runtime Key)

/-! ### The callback -/

/-- The value of a header: a string, or the strings of a repeated one. -/
inductive HeaderValue where
  | one (value : String)
  | several (values : List String)
  deriving DecidableEq

structure SignedCallback where
  method : String
  authority : String
  path : String
  headers : String → Option HeaderValue
  rawBody : Option Bytes

def HeaderValue.values : HeaderValue → List String
  | .one v => [v]
  | .several vs => vs

/-- A repeated header counts with its first value. -/
def SignedCallback.header (c : SignedCallback) (name : String) : String :=
  (((c.headers name).map HeaderValue.values).getD []).headD ""

def MAX_SKEW_SECONDS : ℕ := 5 * 60

def KEYS_TTL_MS : ℕ := 60 * 60 * 1000

def UNKNOWN_KEY_REFRESH_MS : ℕ := 60 * 1000

/-! ### The digest of the body -/

/-- The quotation mark. -/
def quote : Char := Char.ofNat 34

def isDigestChar (c : Char) : Bool := c.isAlphanum || c = '-'

def isLabelChar (c : Char) : Bool := c.isAlphanum || c = '-' || c = '_'

/-- `^\s*(name)=:([^:]*):\s*$`, the shape of a digest and of a signature. -/
def labelled (p : Char → Bool) (part : List Char) : Option (String × String) := do
  let (name, s) ← oneOrMore p (spaces part)
  let s ← literal "=:".toList s
  let text := s.takeWhile (· ≠ ':')
  let s ← literal ":".toList (s.dropWhile (· ≠ ':'))
  guard (s.all Text.isSpace)
  return (String.ofList name, String.ofList text)

theorem not_digestChar {c : Char} (hc : Text.isSpace c = true) : isDigestChar c = false := by
  simp only [Text.isSpace, Bool.or_eq_true, Bool.and_eq_true, decide_eq_true_eq,
    mem_cons, not_mem_nil, or_false] at hc
  simp only [isDigestChar, Char.isAlphanum, Char.isAlpha, Char.isUpper, Char.isLower,
    Char.isDigit, Bool.or_eq_false_iff, Bool.and_eq_false_iff, decide_eq_false_iff_not,
    UInt32.le_iff_toNat_le, ge_iff_le]
  have hval : c.val.toNat = c.toNat := rfl
  have hne : c ≠ '-' := by
    rintro rfl
    simp at hc
  refine ⟨⟨⟨?_, ?_⟩, ?_⟩, by simpa using hne⟩ <;> · rw [hval]; simp; omega

theorem labelled_cons {p : Char → Bool} {c : Char} (hc : Text.isSpace c = true)
    (part : List Char) : labelled p (c :: part) = labelled p part := by
  have hspaces : spaces (c :: part) = spaces part := by
    rw [spaces, dropWhile_cons, if_pos hc]
    rfl
  rw [labelled, labelled, hspaces]

theorem labelled_concat {p : Char → Bool} {c : Char} (hc : Text.isSpace c = true)
    (hp : p c = false) (part : List Char) : labelled p (part ++ [c]) = labelled p part := by
  have hcolon : c ≠ ':' := by
    rintro rfl
    simp [Text.isSpace] at hc
  have hequals : c ≠ '=' := by
    rintro rfl
    simp [Text.isSpace] at hc
  have hname : (oneOrMore p (spaces (part ++ [c]))) =
      (oneOrMore p (spaces part)).map fun x => (x.1, x.2 ++ [c]) := by
    rw [spaces, spaces, dropWhile_append]
    split
    · -- nothing but white space: there is no name in either
      rename_i hnone
      rw [List.isEmpty_iff] at hnone
      rw [dropWhile_cons, if_pos hc, dropWhile_nil, hnone]
      rfl
    · exact oneOrMore_concat hp _
  rw [labelled, labelled, hname]
  cases oneOrMore p (spaces part) with
  | none => rfl
  | some x =>
    obtain ⟨name, s⟩ := x
    simp only [Option.map_some, Option.bind_eq_bind, Option.bind_some]
    rw [literal_concat (by simp [hcolon, hequals])]
    cases literal "=:".toList s with
    | none => rfl
    | some s =>
      simp only [Option.map_some, Option.bind_some]
      rw [dropWhile_append]
      cases hrest : s.dropWhile (· ≠ ':') with
      | nil =>
        -- no closing colon, with the white space or without it
        simp [hcolon, literal]
      | cons d rest =>
        have hsplit := takeWhile_append_dropWhile (p := fun x => decide (x ≠ ':')) (l := s)
        have hlength : (s.takeWhile (· ≠ ':')).length ≠ s.length := by
          intro h
          have := congrArg List.length hsplit
          rw [length_append, hrest, length_cons] at this
          omega
        rw [takeWhile_append, if_neg hlength, isEmpty_cons, if_neg Bool.false_ne_true,
          literal_concat (by simpa using hcolon)]
        cases literal ":".toList (d :: rest) with
        | none => rfl
        | some rest =>
          have hall : (rest ++ [c]).all Text.isSpace = rest.all Text.isSpace := by
            rw [all_append, all_cons, hc, all_nil, Bool.and_true, Bool.and_true]
          simp only [Option.map_some, Option.bind_some, hall]

/-- The table of supported digests. As every object, it has a `constructor`, which is no name
of an algorithm. -/
def DIGESTS (name : String) : Except String (Option Hash) :=
  match name with
  | "sha-256" => .ok (some .sha256)
  | "sha-512" => .ok (some .sha512)
  | "constructor" => .error "TypeError"
  | _ => .ok none

/-- How many digests of a supported kind there are, all of them the body's. -/
def checkedDigests (body : Bytes) : List (List Char) → Except String ℕ
  | [] => .ok 0
  | part :: parts =>
    match labelled isDigestChar part with
    | none => checkedDigests body parts
    | some (name, text) => do
      match ← DIGESTS (R.toLowerCase name) with
      | none => checkedDigests body parts
      | some algorithm =>
        if R.base64 text ≠ R.digest algorithm body then throw "content digest mismatch"
        return (← checkedDigests body parts) + 1

def checkDigest (header : String) (body : Bytes) : Except String Unit := do
  if (← checkedDigests R body (header.toList.splitOn ',')) = 0 then
    throw "no supported content digest"

/-! ### The signature headers -/

/-- The value of a signature parameter. -/
inductive Param where
  | text (value : String)
  | number (value : Number)
  deriving DecidableEq

structure ParsedInput where
  label : String
  components : List String
  params : List (String × Param)
  raw : String
  deriving DecidableEq

/-- A parameter, given several times, has its last value. -/
def ParsedInput.param (input : ParsedInput) (name : String) : Option Param :=
  input.params.reverse.lookup name

/-- Whether another labelled list starts here: `\s*[A-Za-z0-9_-]+=\(`. -/
def startsInput (s : List Char) : Bool :=
  ((oneOrMore isLabelChar (spaces s)).bind fun x => literal "=(".toList x.2).isSome

/-- The first of the labelled lists of a `Signature-Input` header. -/
def firstInput : List Char → List Char
  | [] => []
  | c :: s => if c = ',' ∧ startsInput s then [] else c :: firstInput s

/-- `"([^"]+)"`. -/
def component (s : List Char) : Option (List Char × List Char) := do
  let s ← literal [quote] s
  let (name, s) ← oneOrMore (· ≠ quote) s
  return (name, ← literal [quote] s)

/-- `"([^"]*)"`. -/
def quotedText (s : List Char) : Option (Param × List Char) := do
  let s ← literal [quote] s
  let rest ← literal [quote] (s.dropWhile (· ≠ quote))
  return (.text (String.ofList (s.takeWhile (· ≠ quote))), rest)

/-- `-?\d+`. -/
def integer (s : List Char) : Option (Param × List Char) := do
  let sign := if s.head? = some '-' then ['-'] else []
  let (ds, rest) ← oneOrMore Char.isDigit (s.drop sign.length)
  return (.number (Number.ofText (sign ++ ds)), rest)

/-- `;\s*([a-z0-9-]+)=("([^"]*)"|-?\d+)`, in any case. -/
def parameter (s : List Char) : Option ((String × Param) × List Char) := do
  let s ← literal ";".toList s
  let (name, s) ← oneOrMore isDigestChar (spaces s)
  let s ← literal "=".toList s
  let (value, s) ← (quotedText s).or (integer s)
  return ((R.toLowerCase (String.ofList name), value), s)

def parseSignatureInput (header : String) : Option ParsedInput := do
  let (label, s) ← oneOrMore isLabelChar (spaces (firstInput header.toList))
  let raw ← literal "=".toList s
  let s ← literal "(".toList raw
  let rest ← literal ")".toList (s.dropWhile (· ≠ ')'))
  guard (rest.all fun c => !isLineTerminator c)
  return { label := String.ofList label
           components := (matchAll component 0 (s.takeWhile (· ≠ ')'))).map fun name =>
             R.toLowerCase (String.ofList name)
           params := matchAll (parameter R) 0 rest
           raw := Text.trim (String.ofList raw) }

def parseSignature (header label : String) : Option Bytes :=
  (((header.toList.splitOn ',').filterMap (labelled isLabelChar)).lookup label).map R.base64

/-! ### The age of the signature -/

/-- `Number(params[name])`. -/
def ParsedInput.numberOf (input : ParsedInput) (name : String) : Number :=
  match input.param name with
  | none => .nan
  | some (.text s) => Number.ofText s.toList
  | some (.number n) => n

/-- The moment is in seconds. -/
def checkFreshness (input : ParsedInput) (now : ℕ) : Except String Unit := do
  match input.numberOf "created" with
  | .finite created =>
    if (MAX_SKEW_SECONDS : ℚ) < |(now : ℚ) - created| then
      throw "signature too old or from the future"
  | _ => throw "signature too old or from the future"
  if input.param "expires" ≠ none ∧ (input.numberOf "expires").lt now then
    throw "signature expired"

/-! ### The base that was signed -/

/-- What a component stands for in this callback; nothing where it is not there. (A header
every object has, such as `constructor`, is refused too, by a failing `trim`.) -/
def SignedCallback.valueOf (c : SignedCallback) (component : String) : Option String :=
  match component with
  | "@method" => some (R.toUpperCase c.method)
  | "@authority" => some (R.toLowerCase c.authority)
  | "@path" => some c.path
  | _ =>
    if component.toList.head? = some '@' then none
    else if c.header component = "" then none else some (c.header component)

/-- A line of the base. -/
def line (component value : String) : String :=
  "\"" ++ component ++ "\": " ++ Text.trim value

def signatureBase (input : ParsedInput) (valueOf : String → Option String) : Option String := do
  let lines ← input.components.mapM fun component => (valueOf component).map (line component)
  return "\n".intercalate (lines ++ ["\"@signature-params\": " ++ input.raw])

/-! ### The key -/

/-- What the verifier remembers: the keys by their id and when they were fetched, and when it
last fetched them for an unknown id. -/
structure Verifier (Key : Type) where
  keys : Option (List (String × Key) × ℕ) := none
  lastUnknownKeyRefresh : ℕ := 0

structure KeyItem where
  id : Option String
  key : Option String

/-- The answer to a fetch of the keys, nothing where it failed, and the moment it is there. -/
structure Reply where
  list : Option (List KeyItem)
  «at» : ℕ

/-- The valid keys of an answer; of two with one id the last counts. -/
def byId (list : List KeyItem) : List (String × Key) :=
  (list.filterMap fun item => do
    let id ← item.id.filter (· ≠ "")
    let key ← item.key.filter (· ≠ "")
    return (id, ← R.createPublicKey key)).reverse

def Verifier.loadKeys (v : Verifier Key) (reply : Reply) : Verifier Key :=
  match reply.list with
  | none => v
  | some list => { v with keys := some (byId R list, reply.at) }

def Verifier.find (v : Verifier Key) (id : String) : Option Key :=
  v.keys.bind fun x => x.1.lookup id

/-- The keys are fetched when they are old. The moment after that goes with the result. -/
def Verifier.refreshed (v : Verifier Key) (now : ℕ) (first : Reply) : Verifier Key × ℕ :=
  if v.keys.any fun x => now - x.2 < KEYS_TTL_MS then (v, now) else (v.loadKeys R first, first.at)

/-- The keys are fetched once more, though not often, for an id that is not among them. -/
def Verifier.findAgain (v : Verifier Key) (now : ℕ) (second : Reply) (id : String) :
    Option Key × Verifier Key :=
  if UNKNOWN_KEY_REFRESH_MS < now - v.lastUnknownKeyRefresh then
    let v' := { v with lastUnknownKeyRefresh := now }.loadKeys R second
    (v'.find id, v')
  else (none, v)

def Verifier.publicKey (v : Verifier Key) (now : ℕ) (first second : Reply) (id : String) :
    Option Key × Verifier Key :=
  let x := v.refreshed R now first
  match x.1.find id with
  | some key => (some key, x.1)
  | none => x.1.findAgain R x.2 second id

def verifySignature (alg : String) (key : Key) (base : String) (signature : Bytes) : Bool :=
  match alg with
  | "ecdsa-p256-sha256" =>
    [KeyOptions.ieeeP1363, .der].any fun o => (R.verify .sha256 key o base signature).getD false
  | "ecdsa-p384-sha384" =>
    [KeyOptions.ieeeP1363, .der].any fun o => (R.verify .sha384 key o base signature).getD false
  | "rsa-pss-sha512" => (R.verify .sha512 key .pss base signature).getD false
  | "rsa-v1_5-sha256" => (R.verify .sha256 key .plain base signature).getD false
  | _ => false

/-! ### Verifying a callback -/

/-- What is left to check of a callback once its key is known. -/
structure Signed where
  input : ParsedInput
  signature : Bytes
  base : String
  deriving DecidableEq

def missingHeaders (c : SignedCallback) : List String :=
  ["signature", "signature-input", "signature-date", "content-digest"].filter fun name =>
    c.header name = ""

/-- The checks before the key is looked up, at a moment in milliseconds. -/
def precheck (now : ℕ) (c : SignedCallback) : Except String Signed := do
  if missingHeaders c ≠ [] then
    throw (if (missingHeaders c).length = 4 then
        "unsigned callback — enable \"Sign all callbacks\" in the pawaPay dashboard"
      else "missing signature headers: " ++ ", ".intercalate (missingHeaders c))
  let some body := c.rawBody | throw "raw body unavailable"
  checkDigest R (c.header "content-digest") body
  let some input := parseSignatureInput R (c.header "signature-input")
    | throw "malformed Signature-Input"
  let some signature := parseSignature R (c.header "signature") input.label
    | throw "malformed Signature"
  checkFreshness input (now / 1000)
  let some base := signatureBase input (c.valueOf R) | throw "signed component missing"
  return ⟨input, signature, base⟩

/-- `String(value)`, for the whole numbers a parameter may be. -/
def Param.toText : Param → String
  | .text s => s
  | .number (.finite n) => toString n.num
  | .number _ => "NaN"

/-- The last check, of the signature itself. -/
def Signed.verify (s : Signed) (key : Option Key) (id : String) : Except String Unit :=
  match key with
  | none => .error ("unknown key " ++ id)
  | some key =>
    let alg := ((s.input.param "alg").map Param.toText).getD ""
    if verifySignature R alg key s.base s.signature then .ok ()
    else .error "signature does not verify"

def Verifier.verify (v : Verifier Key) (now : ℕ) (first second : Reply) (c : SignedCallback) :
    Except String Unit × Verifier Key :=
  match precheck R now c with
  | .error reason => (.error reason, v)
  | .ok s =>
    match s.input.param "keyid" with
    | none => (.error "unknown key undefined", v)
    | some (.number n) => (.error ("unknown key " ++ (Param.number n).toText), v)
    | some (.text id) => (s.verify R (v.publicKey R now first second id).1 id,
        (v.publicKey R now first second id).2)

end Rabotka.Callbacks
