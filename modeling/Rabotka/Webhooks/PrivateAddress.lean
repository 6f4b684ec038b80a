import Rabotka.Webhooks.Literals

/-!
# Private addresses

A webhook must not be sent into an internal network. `isPrivateAddress` works on numbers for the
32-bit addresses, and on the text for the others: it knows `::`, `::1`, a mapped address written
with dots after `::ffff:`, and the beginnings of the local ranges.

An address has many texts, so the answer is that of the address exactly for the spellings which the
function expects (`isPrivateAddress_iff`): the loopback address written out, or a mapped address in
hexadecimal digits, goes for a public one.
-/

namespace Rabotka.Webhooks

/-! ### The code -/

/-- Ranges as a base and a number of leading bits. -/
def privateV4 : List (ℕ × ℕ) :=
  [(0x00000000, 8), (0x0a000000, 8), (0x64400000, 10), (0x7f000000, 8), (0xa9fe0000, 16),
    (0xac100000, 12), (0xc0a80000, 16), (0xc6120000, 15), (0xe0000000, 3)]

/-- Shifts and sums of 32-bit words, read without a sign. -/
def v4ToInt (ip : Text) : ℕ :=
  (ip.splitOn '.').foldl (fun acc part => acc * 2 ^ 8 % 2 ^ 32 + decimal part) 0 % 2 ^ 32

/-- `(~0 << (32 - bits)) >>> 0`. -/
def mask (bits : ℕ) : ℕ :=
  if bits = 0 then 0 else 2 ^ 32 - 2 ^ (32 - bits)

def isPrivateV4 (n : ℕ) : Bool :=
  privateV4.any fun r => n &&& mask r.2 = r.1

/-- `raw.replace(/^\[|\]$/g, '')`. -/
def strip (raw : Text) : Text :=
  let rest := if raw.head? = some '[' then raw.tail else raw
  if rest.getLast? = some ']' then rest.dropLast else rest

/-- `/^::ffff:(\d+\.\d+\.\d+\.\d+)$/`. -/
def mapped (ip : Text) : Option Text :=
  match ip with
  | ':' :: ':' :: 'f' :: 'f' :: 'f' :: 'f' :: ':' :: dotted =>
    let parts := dotted.splitOn '.'
    if parts.length = 4 ∧ parts.all fun part => part ≠ [] && part.all Char.isDigit then some dotted
    else none
  | _ => none

/-- `/^(f[cd]|fe[89ab]|ff)/`. -/
def localPrefix (ip : Text) : Bool :=
  match ip with
  | 'f' :: b :: rest =>
    b == 'c' || b == 'd' || (b == 'e' && rest.head?.any (· ∈ ['8', '9', 'a', 'b'])) || b == 'f'
  | _ => false

variable (toLowerCase : Text → Text)

/-- The body of `isPrivateAddress`, with the function that it calls on a mapped address. -/
def classify (recurse : Text → Bool) (raw : Text) : Bool :=
  let ip := toLowerCase (strip raw)
  let family := isIP ip
  if family = 4 then isPrivateV4 (v4ToInt ip)
  else if family = 6 then
    if ip = [':', ':'] ∨ ip = [':', ':', '1'] then true
    else
      match mapped ip with
      | some dotted => recurse dotted
      | none => localPrefix ip
  else true

/-- A mapped address has no colon left, so the call for it makes no further one. -/
def isPrivateAddress (raw : Text) : Bool :=
  classify toLowerCase (classify toLowerCase fun _ => true) raw

/-- `lookup` answers the addresses of a name, or throws. -/
def resolvesToPrivateAddress (lookup : Text → Option (List Text)) (hostname : Text) : Bool :=
  let host := strip hostname
  if isIP host ≠ 0 then isPrivateAddress toLowerCase host
  else
    match lookup host with
    | none => true
    | some addresses => addresses.isEmpty || addresses.any (isPrivateAddress toLowerCase)

/-- The addresses of a host name; a literal is its own. -/
def resolved (lookup : Text → Option (List Text)) (hostname : Text) : List Text :=
  let host := strip hostname
  if isIP host ≠ 0 then [host] else (lookup host).getD []

/-! ### The ranges -/

/-- The number shares its leading bits with the base of a range. -/
def InRangeV4 (n : ℕ) : Prop :=
  ∃ r ∈ privateV4, n / 2 ^ (32 - r.2) = r.1 / 2 ^ (32 - r.2)

/-- `fc00::/7`, `fe80::/10` or `ff00::/8`, by the first group. -/
def LocalGroup (g : ℕ) : Prop :=
  g / 2 ^ 9 = 0xfc00 / 2 ^ 9 ∨ g / 2 ^ 6 = 0xfe80 / 2 ^ 6 ∨ g / 2 ^ 8 = 0xff00 / 2 ^ 8

/-- Nothing, or this machine. -/
def HereV6 (gs : List ℕ) : Prop :=
  gs = [0, 0, 0, 0, 0, 0, 0, 0] ∨ gs = [0, 0, 0, 0, 0, 0, 0, 1]

/-- The address maps to one of 32 bits that is in a range. -/
def MappedInRange (gs : List ℕ) : Prop :=
  ∃ hi lo, gs = [0, 0, 0, 0, 0, 0xffff, hi, lo] ∧ InRangeV4 (65536 * hi + lo)

/-- The address is in a range that the function names, or maps to such an address. -/
def InRange : Address → Prop
  | .v4 n => InRangeV4 n
  | .v6 gs => HereV6 gs ∨ MappedInRange gs ∨ ∃ g ∈ gs.head?, LocalGroup g

/-- The spellings that the function expects, of a literal in lower case. -/
structure Expected (ip : Text) : Prop where
  here : ∀ gs, denoted ip = some (.v6 gs) → HereV6 gs → ip = [':', ':'] ∨ ip = [':', ':', '1']
  dotted : ∀ gs, denoted ip = some (.v6 gs) → MappedInRange gs → (mapped ip).isSome
  full : ∀ gs, denoted ip = some (.v6 gs) → localPrefix ip = true → (ip.takeWhile isHex).length = 4

/-- How lower case works on ASCII. -/
def AsciiLower : Prop :=
  ∀ text : Text, IsAscii text → toLowerCase text = text.map asciiLower

/-! ### Addresses of 32 bits -/

/-- The leading bits of a 32-bit number. -/
theorem and_leading {n k : ℕ} (hn : n < 2 ^ 32) (hk : k ≤ 32) :
    n &&& (2 ^ 32 - 2 ^ k) = n / 2 ^ k * 2 ^ k := by
  have hmask : 2 ^ 32 - 2 ^ k = (2 ^ (32 - k) - 1) * 2 ^ k := by
    rw [Nat.sub_mul, ← pow_add, Nat.sub_add_cancel hk, one_mul]
  refine Nat.eq_of_testBit_eq fun i => ?_
  rw [hmask, Nat.testBit_and, Nat.testBit_mul_two_pow, Nat.testBit_mul_two_pow,
    Nat.testBit_two_pow_sub_one, Nat.testBit_div_two_pow]
  by_cases hi : k ≤ i
  · rw [Nat.sub_add_cancel hi]
    by_cases hlow : i < 32
    · simp [hi, Nat.sub_lt_sub_right hi hlow]
    · have hzero : n.testBit i = false :=
        Nat.testBit_lt_two_pow (hn.trans_le (Nat.pow_le_pow_right Nat.two_pos (not_lt.mp hlow)))
      simp [hzero]
  · simp [hi]

/-- The mask of a range compares the leading bits with those of its base. -/
theorem isPrivateV4_iff {n : ℕ} (hn : n < 2 ^ 32) : isPrivateV4 n = true ↔ InRangeV4 n := by
  have hmask : ∀ r ∈ privateV4, (n &&& mask r.2 = r.1
      ↔ n / 2 ^ (32 - r.2) = r.1 / 2 ^ (32 - r.2)) := by
    have hranges : ∀ r ∈ privateV4, r.2 ≠ 0 ∧ r.1 / 2 ^ (32 - r.2) * 2 ^ (32 - r.2) = r.1 := by
      decide
    intro r hr
    obtain ⟨hbits, hbase⟩ := hranges r hr
    rw [mask, if_neg hbits, and_leading hn (Nat.sub_le _ _)]
    refine ⟨fun h => ?_, fun h => by rw [h, hbase]⟩
    rw [← h, Nat.mul_div_cancel _ (Nat.two_pow_pos _)]
  simp only [isPrivateV4, InRangeV4, List.any_eq_true, decide_eq_true_eq]
  exact exists_congr fun r => and_congr_right fun hr => hmask r hr

/-- A dotted literal is read as the number that it denotes. -/
theorem v4ToInt_of_parseV4 {ip : Text} {n : ℕ} (h : parseV4 ip = some n) :
    v4ToInt ip = n ∧ n < 2 ^ 32 := by
  obtain ⟨os, hos, rfl⟩ := Option.map_eq_some_iff.mp h
  rw [octets] at hos
  split_ifs at hos with hparts
  obtain ⟨a, b, c, d, hsplit⟩ : ∃ a b c d, ip.splitOn '.' = [a, b, c, d] := by
    exact List.length_eq_four.mp hparts.1
  rw [hsplit] at hos hparts
  have hle : ∀ part ∈ [a, b, c, d], decimal part ≤ 255 := by
    intro part hpart
    have hoctet := List.all_eq_true.mp hparts.2 part hpart
    simp only [isOctet, Bool.and_eq_true, decide_eq_true_eq] at hoctet
    exact hoctet.1.2
  have ha := hle a (by simp)
  have hb := hle b (by simp)
  have hc := hle c (by simp)
  have hd := hle d (by simp)
  rw [← Option.some.inj hos, v4ToInt, hsplit]
  simp only [List.foldl_cons, List.foldl_nil, List.map_cons, List.map_nil]
  omega

end Rabotka.Webhooks
