import Rabotka.Lib.Percent
import Rabotka.Lib.Trim

/-!
# Object keys and their URLs

`getUrl` writes the public URL of an object; `deriveKey` reads a key back from a URL, either one
under the public base or a signed one, whose bucket leads the path or the host name.

URLs are UTF-16 units; keys are well-formed texts. The URL parser is a parameter, of which the code
reads the host name, the path and whether a parameter is there.
-/

namespace Rabotka.Storage

open Lib.Percent Lib.Trim

/-- A text, in UTF-16 units. -/
abbrev Units := List UInt16

def slash : UInt16 := 47
def question : UInt16 := 63
def dot : UInt16 := 46

/-! ### The language -/

/-- What stands for itself in `encodeURIComponent`. -/
def isUnescaped (c : Char) : Bool :=
  c.isAlphanum || "-_.!~*'()".toList.contains c

/-- What else stands for itself in `encodeURI`, and stays escaped in `decodeURI`. -/
def uriReserved : String := ";/?:@&=+$,#"

def encodeURI (text : List Char) : Units :=
  encode (fun c => isUnescaped c || uriReserved.toList.contains c) text

def encodeURIComponent (text : List Char) : Units :=
  encode isUnescaped text

/-- None where it throws. -/
def decodeURI (text : Units) : Option Units :=
  decode (fun x => (units uriReserved).contains x) text

/-- None where it throws. -/
def decodeURIComponent (text : Units) : Option Units :=
  decode (fun _ => false) text

/-- `toLowerCase`, on a host name, which is ASCII. -/
def toLowerCase (host : Units) : Units :=
  host.map fun x => if 65 ≤ x ∧ x ≤ 90 then x + 32 else x

/-- A `URL`, as far as it is read. -/
structure ParsedUrl where
  hostname : Units
  pathname : Units
  /-- `searchParams.has('X-Amz-Signature')`. -/
  hasSignature : Bool
  deriving DecidableEq

/-- `new URL(url)`: none where it throws. -/
abbrev UrlParser := Units → Option ParsedUrl

/-- The error that decoding throws. -/
structure URIError where
  deriving DecidableEq

/-! ### The code -/

/-- `replace(/\/+$/, '')`. -/
def stripSlashes (text : Units) : Units :=
  text.rdropWhile (· == slash)

/-- `getUrl` with public access: none where it throws for want of a base. -/
def getPublicUrl (publicBaseUrl : Units) (key : List Char) : Option Units :=
  let normalizedBase := stripSlashes (trim isSpace publicBaseUrl)
  if normalizedBase = [] then none
  else some (normalizedBase ++ slash :: encodeURI key)

/-- `setting`, which gives `deriveKey` the same configured value. -/
def setting (value : Units) : Units :=
  trim isSpace value

structure DerivedKey where
  key : Units
  bucket : Option Units
  deriving DecidableEq

/-- The test for a URL under the public base. -/
def isUnder (base url : Units) : Bool :=
  base != [] && (base ++ [slash]).isPrefixOf url

/-- The bucket names, without blank ones. -/
def knownBuckets (buckets : List Units) : List Units :=
  (buckets.map (trim isSpace)).filter (· ≠ [])

/-- `segments.map(decodeURIComponent)`. -/
def decodeSegments : List Units → Option (List Units)
  | [] => some []
  | s :: rest =>
    match decodeURIComponent s, decodeSegments rest with
    | some s, some rest => some (s :: rest)
    | _, _ => none

/-- The segments of a path that are not empty. -/
def segmentsOf (pathname : Units) : List Units :=
  (pathname.splitOn slash).filter (· ≠ [])

/-- The first label of a host name. -/
def firstLabelOf (hostname : Units) : Units :=
  ((toLowerCase hostname).splitOn dot).headD []

/-- What a signed URL names, by the first label of its host and the segments of its path. -/
def readSegments (known : List Units) (firstLabel : Units) : List Units → Option DerivedKey
  | [] => none
  | first :: rest =>
    if firstLabel ∈ known then some ⟨[slash].intercalate (first :: rest), some firstLabel⟩
    else if first ∈ known then
      if rest = [] then none else some ⟨[slash].intercalate rest, some first⟩
    else some ⟨[slash].intercalate (first :: rest), none⟩

def deriveKey (parse : UrlParser) (url publicBaseUrl : Units) (buckets : List Units) :
    Except URIError (Option DerivedKey) :=
  let base := stripSlashes publicBaseUrl
  if isUnder base url then
    match decodeURI (url.drop (base.length + 1)) with
    | none => .error {}
    | some text =>
      let key := (text.splitOn question).headD []
      .ok (if key = [] then none else some ⟨key, none⟩)
  else
    match parse url with
    | none => .ok none
    | some parsed =>
      -- only a signed URL is read this way
      if parsed.hasSignature then
        match decodeSegments (segmentsOf parsed.pathname) with
        | none => .error {}
        | some segments =>
          .ok (readSegments (knownBuckets buckets) (firstLabelOf parsed.hostname) segments)
      else .ok none

/-! ### Keys and signed URLs -/

/-- A key: no segment is empty, a dot or two dots. -/
structure ObjectKey where
  text : List Char
  plain : ∀ s ∈ text.splitOn '/', s ≠ [] ∧ s ≠ ['.'] ∧ s ≠ ['.', '.']

/-- The segments of a key. -/
def ObjectKey.segments (key : ObjectKey) : List (List Char) :=
  key.text.splitOn '/'

/-- The name of a host or a bucket: labels in lower case, between dots. -/
structure DottedName where
  labels : List (List Char)
  nonempty : labels ≠ []
  plain : ∀ l ∈ labels, l ≠ [] ∧ ∀ c ∈ l, c.toNat < 0x80 ∧ c.isUpper = false ∧ c ≠ '.'

/-- A name as it is written. -/
def DottedName.text (name : DottedName) : List Char :=
  ['.'].intercalate name.labels

/-- The host of a bucket. -/
def DottedName.onHost (bucket host : DottedName) : DottedName where
  labels := bucket.labels ++ host.labels
  nonempty := List.append_ne_nil_of_left_ne_nil bucket.nonempty _
  plain := fun l hl => (List.mem_append.mp hl).elim (bucket.plain l) (host.plain l)

/-- A path of encoded segments. -/
def path (segments : List (List Char)) : Units :=
  segments.flatMap fun s => slash :: encodeURIComponent s

/-- A URL with a host, a path of encoded segments and a query. -/
def signedUrl (host : DottedName) (segments : List (List Char)) (query : Units) : Units :=
  units "https://" ++ utf16 host.text ++ path segments ++ question :: query

/-- The signed path-style URL of an object. -/
def pathStyleUrl (host bucket : DottedName) (query : Units) (key : ObjectKey) : Units :=
  signedUrl host (bucket.text :: key.segments) query

/-- The signed virtual-hosted URL of an object. -/
def virtualHostedUrl (host bucket : DottedName) (query : Units) (key : ObjectKey) : Units :=
  signedUrl (bucket.onHost host) key.segments query

/-- The parser reads such a URL as the standard says: its path needs no escapes and has no dot
segments, its host is in lower case, and the query has a signature. -/
def ReadsSigned (parse : UrlParser) (host : DottedName) (segments : List (List Char))
    (query : Units) : Prop :=
  parse (signedUrl host segments query) = some ⟨utf16 host.text, path segments, true⟩

instance (parse : UrlParser) (host : DottedName) (segments : List (List Char)) (query : Units) :
    Decidable (ReadsSigned parse host segments query) :=
  inferInstanceAs (Decidable (_ = _))

end Rabotka.Storage
