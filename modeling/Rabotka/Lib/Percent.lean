import Mathlib.Data.Nat.Notation
import Mathlib.Tactic.SplitIfs

/-!
# Percent encoding

How `encodeURI` and its kin write a text: characters of a set as they are, every other one as the
octets of its UTF-8 form, each a percent sign and two hexadecimal digits. Decoding reads UTF-16
units; it fails where a percent sign begins no escape, and where escaped octets are not UTF-8.

* `decode_encode`: what is encoded is decoded to itself.
* `isSome_decode_iff`: decoding succeeds exactly on the texts that are well escaped.
-/

namespace Rabotka.Lib.Percent

open List

/-! ### UTF-8 and UTF-16 -/

/-- The octets of a character. -/
def utf8 (c : Char) : List ℕ :=
  let v := c.toNat
  if v < 0x80 then [v]
  else if v < 0x800 then [0xC0 + v / 64, 0x80 + v % 64]
  else if v < 0x10000 then [0xE0 + v / 4096, 0x80 + v / 64 % 64, 0x80 + v % 64]
  else [0xF0 + v / 262144, 0x80 + v / 4096 % 64, 0x80 + v / 64 % 64, 0x80 + v % 64]

/-- The number that octets spell, whether or not they are UTF-8. -/
def spelled : List ℕ → ℕ
  | [a] => a
  | [a, b] => (a - 0xC0) * 64 + (b - 0x80)
  | [a, b, c] => (a - 0xE0) * 4096 + (b - 0x80) * 64 + (c - 0x80)
  | [a, b, c, d] => (a - 0xF0) * 262144 + (b - 0x80) * 4096 + (c - 0x80) * 64 + (d - 0x80)
  | _ => 0

/-- The character that octets are the UTF-8 form of. -/
def ofUtf8 (octets : List ℕ) : Option Char :=
  let c := Char.ofNat (spelled octets)
  if utf8 c = octets then some c else none

/-- How many octets follow the first one of a character, for one that is not ASCII. -/
def following (b : ℕ) : Option ℕ :=
  if b < 0xC0 then none
  else if b < 0xE0 then some 1
  else if b < 0xF0 then some 2
  else if b < 0xF8 then some 3
  else none

/-- The UTF-16 units of a character. -/
def utf16Char (c : Char) : List UInt16 :=
  let v := c.toNat
  if v < 0x10000 then [v.toUInt16]
  else [(0xD800 + (v - 0x10000) / 1024).toUInt16, (0xDC00 + (v - 0x10000) % 1024).toUInt16]

/-- The UTF-16 units of a text. -/
def utf16 (text : List Char) : List UInt16 := text.flatMap utf16Char

@[simp] theorem utf16_nil : utf16 [] = [] := rfl

@[simp] theorem utf16_cons (c : Char) (text : List Char) :
    utf16 (c :: text) = utf16Char c ++ utf16 text := rfl

@[simp] theorem utf16_append (s t : List Char) : utf16 (s ++ t) = utf16 s ++ utf16 t :=
  flatMap_append

theorem utf16Char_ne_nil (c : Char) : utf16Char c ≠ [] := by
  rw [utf16Char]
  split_ifs <;> exact cons_ne_nil _ _

theorem toNat_lt (c : Char) : c.toNat < 0x110000 := by
  rcases c.valid with h | h <;> simp only [Char.toNat] <;> omega

/-- An ASCII unit is there for its own character only. -/
theorem mem_utf16Char_iff {x : UInt16} (hx : x.toNat < 0x80) (c : Char) :
    x ∈ utf16Char c ↔ c.toNat = x.toNat := by
  rw [utf16Char]
  have hlt := toNat_lt c
  split_ifs with h
  · rw [mem_singleton, ← UInt16.toNat_inj, Nat.toUInt16_eq, UInt16.toNat_ofNat']
    omega
  · simp only [mem_cons, not_mem_nil, or_false, ← UInt16.toNat_inj, Nat.toUInt16_eq,
      UInt16.toNat_ofNat']
    omega

/-! ### Encoding -/

def percent : UInt16 := 37

/-- A hexadecimal digit, in upper case. -/
def hexDigit (n : ℕ) : UInt16 := if n < 10 then (48 + n).toUInt16 else (55 + n).toUInt16

/-- A percent sign and the two digits of an octet. -/
def escape (b : ℕ) : List UInt16 := [percent, hexDigit (b / 16), hexDigit (b % 16)]

/-- A character, as it is or escaped. -/
def encodeChar (unescaped : Char → Bool) (c : Char) : List UInt16 :=
  if unescaped c then utf16Char c else (utf8 c).flatMap escape

def encode (unescaped : Char → Bool) (text : List Char) : List UInt16 :=
  text.flatMap (encodeChar unescaped)

/-! ### Decoding -/

/-- The value of a hexadecimal digit. -/
def hexValue (x : UInt16) : Option ℕ :=
  if 48 ≤ x ∧ x ≤ 57 then some (x.toNat - 48)
  else if 65 ≤ x ∧ x ≤ 70 then some (x.toNat - 55)
  else if 97 ≤ x ∧ x ≤ 102 then some (x.toNat - 87)
  else none

/-- The octet of two digits. -/
def octetOf (high low : UInt16) : Option ℕ :=
  match hexValue high, hexValue low with
  | some h, some l => some (16 * h + l)
  | _, _ => none

/-- What a text is made of: units, and octets with their digits. -/
inductive Token where
  | unit (x : UInt16)
  | octet (high low : UInt16) (b : ℕ)
  deriving DecidableEq

/-- Read the escapes, if every percent sign begins one. -/
def tokens : List UInt16 → Option (List Token)
  | [] => some []
  | x :: rest =>
    if x = percent then
      match rest with
      | high :: low :: rest =>
        match octetOf high low with
        | some b => (tokens rest).map (Token.octet high low b :: ·)
        | none => none
      | _ => none
    else (tokens rest).map (Token.unit x :: ·)

/-- Put the characters together. Of one that is begun, `pending` are the octets so far and `missing`
is the number of those to come. An ASCII octet that is kept stays escaped. -/
def assemble (kept : UInt16 → Bool) : (pending : List ℕ) → (missing : ℕ) → List Token →
    Option (List UInt16)
  | _, 0, [] => some []
  | _, _ + 1, [] => none
  | _, 0, .unit x :: ts => (assemble kept [] 0 ts).map (x :: ·)
  | _, _ + 1, .unit _ :: _ => none
  | _, 0, .octet high low b :: ts =>
    if b < 0x80 then
      let read := if kept b.toUInt16 then [percent, high, low] else [b.toUInt16]
      (assemble kept [] 0 ts).map (read ++ ·)
    else
      match following b with
      | some n => assemble kept [b] n ts
      | none => none
  | pending, 1, .octet _ _ b :: ts =>
    match ofUtf8 (pending ++ [b]) with
    | some c => (assemble kept [] 0 ts).map (utf16Char c ++ ·)
    | none => none
  | pending, n + 2, .octet _ _ b :: ts => assemble kept (pending ++ [b]) (n + 1) ts

/-- `Decode`: none where it throws. -/
def decode (kept : UInt16 → Bool) (text : List UInt16) : Option (List UInt16) :=
  (tokens text).bind (assemble kept [] 0)

/-! ### Characters and their octets -/

variable {c : Char}

theorem utf8_lt : ∀ b ∈ utf8 c, b < 256 := by
  have hlt := toNat_lt c
  intro b hb
  rw [utf8] at hb
  split_ifs at hb <;> simp only [mem_cons, not_mem_nil, or_false] at hb <;> omega

theorem utf8_of_lt (h : c.toNat < 0x80) : utf8 c = [c.toNat] := by
  rw [utf8, if_pos h]

/-- A character is spelled by its octets. -/
theorem spelled_utf8 (c : Char) : spelled (utf8 c) = c.toNat := by
  have hlt := toNat_lt c
  rw [utf8, spelled.eq_def]
  split_ifs <;> dsimp only <;> omega

theorem ofUtf8_utf8 (c : Char) : ofUtf8 (utf8 c) = some c := by
  rw [ofUtf8, spelled_utf8, Char.ofNat_toNat]
  exact if_pos rfl

theorem utf8_of_ofUtf8 {octets : List ℕ} (h : ofUtf8 octets = some c) : utf8 c = octets := by
  rw [ofUtf8] at h
  split_ifs at h with heq
  rw [← Option.some.inj h]
  exact heq

theorem octetOf_hexDigit {b : ℕ} (h : b < 256) :
    octetOf (hexDigit (b / 16)) (hexDigit (b % 16)) = some b := by
  have hdigit : ∀ n : Fin 16, hexValue (hexDigit n) = some n.val := by decide
  rw [octetOf, hdigit ⟨b / 16, by omega⟩, hdigit ⟨b % 16, by omega⟩]
  dsimp only
  rw [Nat.div_add_mod]

/-! ### Tokens -/

theorem tokens_cons {x : UInt16} (h : x ≠ percent) (text : List UInt16) :
    tokens (x :: text) = (tokens text).map (Token.unit x :: ·) := by
  rw [tokens.eq_def]
  exact if_neg h

theorem tokens_escape {b : ℕ} (h : b < 256) (text : List UInt16) : tokens (escape b ++ text)
      = (tokens text).map (Token.octet (hexDigit (b / 16)) (hexDigit (b % 16)) b :: ·) := by
  rw [tokens.eq_def]
  simp only [escape, cons_append, nil_append, if_true, octetOf_hexDigit h]

theorem tokens_escapes {bs : List ℕ} (h : ∀ b ∈ bs, b < 256) (text : List UInt16) :
    tokens (bs.flatMap escape ++ text) = (tokens text).map
      ((bs.map fun b => Token.octet (hexDigit (b / 16)) (hexDigit (b % 16)) b) ++ ·) := by
  induction bs with
  | nil => simp
  | cons b bs ih =>
    rw [flatMap_cons, append_assoc, tokens_escape (h b mem_cons_self),
      ih fun b hb => h b (mem_cons_of_mem _ hb), Option.map_map]
    rfl

/-- Units that are no percent signs stand for themselves. -/
theorem tokens_units {units : List UInt16} (h : ∀ x ∈ units, x ≠ percent) (text : List UInt16) :
    tokens (units ++ text) = (tokens text).map (units.map Token.unit ++ ·) := by
  induction units with
  | nil => simp
  | cons x units ih =>
    rw [cons_append, tokens_cons (h x mem_cons_self),
      ih fun y hy => h y (mem_cons_of_mem _ hy), Option.map_map]
    rfl

/-! ### Putting characters together -/

/-- An escape that is read: its digits and its octet. -/
abbrev Escape := UInt16 × UInt16 × ℕ

def Escape.token (e : Escape) : Token := .octet e.1 e.2.1 e.2.2

/-- How many octets follow the first one. -/
theorem following_utf8 (hc : ¬ c.toNat < 0x80) {b : ℕ} {rest : List ℕ}
    (h : utf8 c = b :: rest) : ¬ b < 0x80 ∧ following b = some rest.length ∧ rest ≠ [] := by
  have hlt := toNat_lt c
  rw [utf8, if_neg hc] at h
  split_ifs at h <;> obtain ⟨rfl, rfl⟩ := List.cons.inj h <;>
    refine ⟨by omega, ?_, cons_ne_nil _ _⟩ <;> rw [following] <;> split_ifs <;>
    first | rfl | omega

/-- The octets that are missing complete the character. -/
theorem assemble_missing (kept : UInt16 → Bool) {pending : List ℕ} {es : List Escape}
    (hne : es ≠ []) (h : pending ++ es.map (fun e => e.2.2) = utf8 c) (ts : List Token) :
    assemble kept pending es.length (es.map Escape.token ++ ts)
      = (assemble kept [] 0 ts).map (utf16Char c ++ ·) := by
  induction es generalizing pending with
  | nil => exact absurd rfl hne
  | cons e es ih =>
    rcases es with _ | ⟨e', es⟩
    · have hchar : ofUtf8 (pending ++ [e.2.2]) = some c := by
        rw [← ofUtf8_utf8 c, ← h]
        rfl
      simp only [length_cons, length_nil, map_cons, map_nil, cons_append,
        nil_append, Escape.token, assemble, hchar]
    · rw [map_cons, append_cons] at h
      rw [← ih (cons_ne_nil _ _) h]
      rfl

/-- A character that is not ASCII is put together from its octets, whatever the digits. -/
theorem assemble_char (kept : UInt16 → Bool) (hc : ¬ c.toNat < 0x80)
    {es : List Escape} (hes : es.map (fun e => e.2.2) = utf8 c) (ts : List Token) :
    assemble kept [] 0 (es.map Escape.token ++ ts)
      = (assemble kept [] 0 ts).map (utf16Char c ++ ·) := by
  rcases es with _ | ⟨e, es⟩
  · exfalso
    rw [map_nil, utf8, if_neg hc] at hes
    split_ifs at hes
  · obtain ⟨hlow, hfollowing, hne⟩ := following_utf8 hc hes.symm
    rw [map_cons, cons_append, Escape.token, assemble, if_neg hlow, hfollowing, length_map]
    exact assemble_missing kept (fun h => hne (by rw [h]; rfl)) hes ts

/-- An ASCII octet stands for its own unit, unless it is kept. -/
theorem assemble_ascii (kept : UInt16 → Bool) {b : ℕ} (hb : b < 0x80)
    (hkept : kept b.toUInt16 = false) (high low : UInt16) (ts : List Token) :
    assemble kept [] 0 (.octet high low b :: ts)
      = (assemble kept [] 0 ts).map (b.toUInt16 :: ·) := by
  rw [assemble, if_pos hb, hkept]
  rfl

theorem assemble_units (kept : UInt16 → Bool) (units : List UInt16) (ts : List Token) :
    assemble kept [] 0 (units.map Token.unit ++ ts) = (assemble kept [] 0 ts).map (units ++ ·) := by
  induction units with
  | nil => simp
  | cons x units ih =>
    rw [map_cons, cons_append, assemble, ih, Option.map_map]
    rfl

/-! ### Decoding what is encoded -/

theorem utf16Char_of_lt (h : c.toNat < 0x80) : utf16Char c = [c.toNat.toUInt16] :=
  if_pos (by omega)

variable {kept : UInt16 → Bool}

/-- A character is decoded to itself if it stands for itself as ASCII other than the percent sign,
and if no character that is escaped is kept escaped. -/
theorem decode_encodeChar {unescaped : Char → Bool}
    (hascii : ∀ c, unescaped c = true → c.toNat < 0x80 ∧ c ≠ '%')
    (hkept : ∀ c : Char, c.toNat < 0x80 → unescaped c = false → kept c.toNat.toUInt16 = false)
    (c : Char) (text : List UInt16) :
    decode kept (encodeChar unescaped c ++ text) = (decode kept text).map (utf16Char c ++ ·) := by
  rw [decode, decode, encodeChar]
  split_ifs with h
  · obtain ⟨hlt, hne⟩ := hascii c h
    have hunit : ∀ x ∈ utf16Char c, x ≠ percent := by
      rintro x hx rfl
      have hnat := (mem_utf16Char_iff (by decide) c).mp hx
      exact hne (Char.toNat_inj.mp hnat)
    rw [tokens_units hunit]
    cases tokens text with
    | none => rfl
    | some ts => exact assemble_units kept _ ts
  · rw [tokens_escapes utf8_lt]
    cases tokens text with
    | none => rfl
    | some ts =>
      by_cases hlt : c.toNat < 0x80
      · rw [utf8_of_lt hlt, utf16Char_of_lt hlt]
        exact assemble_ascii kept hlt (hkept c hlt (Bool.not_eq_true _ ▸ h)) _ _ ts
      · have hvalues : ((utf8 c).map fun b => (hexDigit (b / 16), hexDigit (b % 16), b)).map
            (fun e : Escape => e.2.2) = utf8 c := by
          rw [map_map]
          exact map_id _
        have hchar := assemble_char kept hlt hvalues ts
        rw [map_map] at hchar
        exact hchar

/-- **What is encoded is decoded to itself.** -/
theorem decode_encode {unescaped : Char → Bool}
    (hascii : ∀ c, unescaped c = true → c.toNat < 0x80 ∧ c ≠ '%')
    (hkept : ∀ c : Char, c.toNat < 0x80 → unescaped c = false → kept c.toNat.toUInt16 = false)
    (text : List Char) : decode kept (encode unescaped text) = some (utf16 text) := by
  induction text with
  | nil => rfl
  | cons c text ih =>
    rw [encode, flatMap_cons, decode_encodeChar hascii hkept]
    change (decode kept (encode unescaped text)).map _ = _
    rw [ih]
    rfl

/-! ### What can be decoded -/

/-- Every escaped octet is part of the UTF-8 form of a character. -/
inductive SpellsText : List Token → Prop where
  | nil : SpellsText []
  | unit {x : UInt16} {ts : List Token} : SpellsText ts → SpellsText (.unit x :: ts)
  | char {c : Char} {es : List Escape} {ts : List Token} (h : es.map (fun e => e.2.2) = utf8 c) :
    SpellsText ts → SpellsText (es.map Escape.token ++ ts)

/-- Every percent sign begins an escape, and the escapes spell UTF-8. -/
def WellEscaped (text : List UInt16) : Prop :=
  ∃ ts, tokens text = some ts ∧ SpellsText ts

/-- Tokens that spell text are put together. -/
theorem SpellsText.isSome_assemble {ts : List Token} (h : SpellsText ts) :
    (assemble kept [] 0 ts).isSome = true := by
  induction h with
  | nil => rfl
  | unit _ ih => rwa [assemble, Option.isSome_map]
  | @char c es ts hes _ ih =>
    by_cases hlt : c.toNat < 0x80
    · rw [utf8_of_lt hlt] at hes
      obtain ⟨e, rfl, he⟩ := map_eq_singleton_iff.mp hes
      rw [map_cons, map_nil, cons_append, nil_append, Escape.token, assemble,
        if_pos (he ▸ hlt), Option.isSome_map]
      exact ih
    · rwa [assemble_char kept hlt hes, Option.isSome_map]

/-- What is put together spells text; with a character begun, the missing octets come first. -/
theorem spellsText_of_assemble {pending : List ℕ} {missing : ℕ}
    {ts : List Token} (h : (assemble kept pending missing ts).isSome = true) :
    ∃ (es : List Escape) (rest : List Token), es.length = missing ∧ ts = es.map Escape.token ++ rest ∧ SpellsText rest
      ∧ (missing ≠ 0 → ∃ c, pending ++ es.map (fun e => e.2.2) = utf8 c) := by
  induction ts generalizing pending missing with
  | nil =>
    cases missing with
    | zero => exact ⟨[], [], rfl, rfl, .nil, fun h => absurd rfl h⟩
    | succ n => exact nomatch h
  | cons t ts ih =>
    cases t with
    | unit x =>
      cases missing with
      | zero =>
        rw [assemble, Option.isSome_map] at h
        obtain ⟨es, rest, hes, rfl, hrest, -⟩ := ih h
        rw [length_eq_zero_iff.mp hes]
        exact ⟨[], _, rfl, rfl, .unit hrest, fun h => absurd rfl h⟩
      | succ n => exact nomatch h
    | octet high low b =>
      rcases missing with _ | _ | n
      · rw [assemble] at h
        by_cases hb : b < 0x80
        · rw [if_pos hb, Option.isSome_map] at h
          obtain ⟨es, rest, hes, rfl, hrest, -⟩ := ih h
          rw [length_eq_zero_iff.mp hes]
          have hchar : [((high, low, b) : Escape)].map (fun e => e.2.2) = utf8 (Char.ofNat b) := by
            have hnat : (Char.ofNat b).toNat = b := by
              rw [Char.ofNat, dif_pos (Or.inl (by omega))]
              rfl
            rw [utf8_of_lt (by rwa [hnat]), hnat]
            rfl
          exact ⟨[], _, rfl, rfl, .char hchar hrest, fun h => absurd rfl h⟩
        · rw [if_neg hb] at h
          split at h
          · rename_i n hn
            obtain ⟨es, rest, rfl, rfl, hrest, hchar⟩ := ih h
            have hne : es.length ≠ 0 := by
              intro hzero
              rw [hzero, following] at hn
              split_ifs at hn <;> exact nomatch hn
            obtain ⟨c, hc⟩ := hchar hne
            exact ⟨[], _, rfl, rfl, @SpellsText.char _ ((high, low, b) :: es) _ hc hrest,
              fun h => absurd rfl h⟩
          · exact nomatch h
      · rw [assemble] at h
        split at h
        · rename_i c hc
          rw [Option.isSome_map] at h
          obtain ⟨es, rest, hes, rfl, hrest, -⟩ := ih h
          rw [length_eq_zero_iff.mp hes]
          exact ⟨[(high, low, b)], rest, rfl, rfl, hrest, fun _ => ⟨c, (utf8_of_ofUtf8 hc).symm⟩⟩
        · exact nomatch h
      · rw [assemble] at h
        obtain ⟨es, rest, hes, rfl, hrest, hchar⟩ := ih h
        obtain ⟨c, hc⟩ := hchar (Nat.succ_ne_zero n)
        refine ⟨(high, low, b) :: es, rest, by rw [length_cons, hes], rfl, hrest, fun _ =>
          ⟨c, ?_⟩⟩
        rw [← hc]
        simp

/-- **Decoding succeeds** exactly on the texts that are well escaped, whatever is kept. -/
theorem isSome_decode_iff {text : List UInt16} :
    (decode kept text).isSome = true ↔ WellEscaped text := by
  rw [decode]
  constructor
  · intro h
    cases htokens : tokens text with
    | none =>
      rw [htokens] at h
      exact nomatch h
    | some ts =>
      rw [htokens] at h
      obtain ⟨es, rest, hes, rfl, hrest, -⟩ := spellsText_of_assemble h
      rw [length_eq_zero_iff.mp hes] at htokens
      exact ⟨rest, htokens, hrest⟩
  · rintro ⟨ts, htokens, hts⟩
    rw [htokens]
    exact hts.isSome_assemble

end Rabotka.Lib.Percent
