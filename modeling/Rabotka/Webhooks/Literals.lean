import Mathlib

/-!
# Address literals

The texts that denote an internet address, as `isIP` of the runtime accepts them, and the address
that each denotes: four numbers with dots, or eight groups of hexadecimal digits with colons, of
which one run of groups may be left out (`::`), the last two may be written as four numbers with
dots, and which a zone may follow.

A literal is ASCII, and denotes the same address in lower case (`denoted_lower`).
-/

namespace Rabotka.Webhooks

open List

abbrev Text := List Char

/-- A 32-bit address, or the eight groups of a 128-bit one. -/
inductive Address
  | v4 (n : ℕ)
  | v6 (groups : List ℕ)
  deriving DecidableEq

/-! ### Numbers -/

def isHex (c : Char) : Bool :=
  c.isDigit || ('a' ≤ c && c ≤ 'f') || ('A' ≤ c && c ≤ 'F')

def hexDigit (c : Char) : ℕ :=
  if c.isDigit then c.toNat - 48 else if 'a' ≤ c then c.toNat - 87 else c.toNat - 55

def decimal (digits : Text) : ℕ :=
  digits.foldl (fun n c => 10 * n + (c.toNat - 48)) 0

def hexadecimal (digits : Text) : ℕ :=
  digits.foldl (fun n c => 16 * n + hexDigit c) 0

/-- `25[0-5]|2[0-4]\d|1\d\d|[1-9]\d|\d`. -/
def isOctet (part : Text) : Bool :=
  part.all Char.isDigit && decimal part ≤ 255
    && (part.length = 1 || (part.length = 2 || part.length = 3) && part.head? ≠ some '0')

/-- `[0-9a-fA-F]{1,4}`. -/
def isGroup (part : Text) : Bool :=
  part.all isHex && 1 ≤ part.length && part.length ≤ 4

/-! ### Literals -/

/-- The four numbers of a dotted literal. -/
def octets (text : Text) : Option (List ℕ) :=
  let parts := text.splitOn '.'
  if parts.length = 4 ∧ parts.all isOctet then some (parts.map decimal) else none

def parseV4 (text : Text) : Option ℕ :=
  (octets text).map fun os => os.foldl (fun n o => 256 * n + o) 0

/-- Groups before an omission. -/
def groupsBefore (text : Text) : Option (List ℕ) :=
  if text = [] then some []
  else
    let parts := text.splitOn ':'
    if parts.all isGroup then some (parts.map hexadecimal) else none

/-- Groups at the end: the last part may have dots, and is then two groups. -/
def lastGroups : List Text → Option (List ℕ)
  | [] => some []
  | [part] =>
    if isGroup part then some [hexadecimal part]
    else (parseV4 part).map fun n => [n / 65536, n % 65536]
  | part :: parts =>
    if isGroup part then (lastGroups parts).map (hexadecimal part :: ·) else none

def groupsAfter (text : Text) : Option (List ℕ) :=
  if text = [] then some [] else lastGroups (text.splitOn ':')

/-- The text before and after the first `::`. -/
def cut : Text → Option (Text × Text)
  | [] => none
  | [_] => none
  | c :: d :: text =>
    if c = ':' ∧ d = ':' then some ([], text)
    else (cut (d :: text)).map fun x => (c :: x.1, x.2)

/-- `[0-9a-zA-Z-.:]`. -/
def isZoneChar (c : Char) : Bool :=
  c.isAlphanum || c == '-' || c == '.' || c == ':'

/-- `(?:%[0-9a-zA-Z-.:]{1,})?`, from the percent sign on. -/
def isZone (text : Text) : Bool :=
  text.isEmpty || (text.drop 1 ≠ [] && (text.drop 1).all isZoneChar)

/-- The eight groups; an omission stands for at least one. -/
def parseGroups (body : Text) : Option (List ℕ) :=
  match cut body with
  | none => (groupsAfter body).filter fun gs => gs.length = 8
  | some (before, after) =>
    (groupsBefore before).bind fun bs => (groupsAfter after).bind fun as' =>
      if bs.length + as'.length ≤ 7 then
        some (bs ++ replicate (8 - (bs.length + as'.length)) 0 ++ as')
      else none

def parseV6 (text : Text) : Option (List ℕ) :=
  if isZone (text.dropWhile (· ≠ '%')) then parseGroups (text.takeWhile (· ≠ '%')) else none

/-- The address that a text denotes. -/
def denoted (text : Text) : Option Address :=
  match parseV4 text with
  | some n => some (.v4 n)
  | none => (parseV6 text).map .v6

/-- `isIP`: the family of a literal, and zero for any other text. -/
def isIP (text : Text) : ℕ :=
  match denoted text with
  | none => 0
  | some (.v4 _) => 4
  | some (.v6 _) => 6

example : denoted "::ffff:7f00:1".toList = some (.v6 [0, 0, 0, 0, 0, 65535, 32512, 1]) := by
  decide +kernel

/-! ### Lower case -/

/-- An upper case letter becomes a lower case one. -/
def asciiLower (c : Char) : Char :=
  if 'A' ≤ c ∧ c ≤ 'Z' then Char.ofNat (c.toNat + 32) else c

theorem asciiLower_cases (c : Char) : asciiLower c = c
    ∨ ∃ n : Fin 26, c = Char.ofNat (65 + n) ∧ asciiLower c = Char.ofNat (97 + n) := by
  unfold asciiLower
  split_ifs with h
  · right
    have hlow : 65 ≤ c.toNat := h.1
    have hhigh : c.toNat ≤ 90 := h.2
    refine ⟨⟨c.toNat - 65, by omega⟩, ?_, ?_⟩
    · dsimp only
      rw [Nat.add_sub_cancel' hlow, Char.ofNat_toNat]
    · dsimp only
      congr 1
      omega
  · exact Or.inl rfl

/-- Whatever agrees on the letters of both cases does not see the case. -/
theorem apply_asciiLower {β : Type*} (f : Char → β)
    (hf : ∀ n : Fin 26, f (Char.ofNat (97 + n)) = f (Char.ofNat (65 + n))) (c : Char) :
    f (asciiLower c) = f c := by
  rcases asciiLower_cases c with h | ⟨n, hc, h⟩
  · rw [h]
  · rw [h, hf n, ← hc]

theorem isHex_asciiLower : ∀ c, isHex (asciiLower c) = isHex c :=
  apply_asciiLower isHex (by decide)

theorem hexDigit_asciiLower : ∀ c, hexDigit (asciiLower c) = hexDigit c :=
  apply_asciiLower hexDigit (by decide)

theorem isDigit_asciiLower : ∀ c, (asciiLower c).isDigit = c.isDigit :=
  apply_asciiLower Char.isDigit (by decide)

theorem isZoneChar_asciiLower : ∀ c, isZoneChar (asciiLower c) = isZoneChar c :=
  apply_asciiLower isZoneChar (by decide)

/-- Neither sign of a literal is a letter. -/
theorem asciiLower_eq_iff {sign : Char} (hsign : sign = '.' ∨ sign = ':' ∨ sign = '%' ∨ sign = '0')
    (c : Char) : asciiLower c = sign ↔ c = sign := by
  have h := apply_asciiLower (fun c => decide (c = sign))
    (by rcases hsign with rfl | rfl | rfl | rfl <;> decide) c
  simpa using h

theorem splitOn_map {f : Char → Char} {sign : Char} (hf : ∀ c, f c = sign ↔ c = sign)
    (text : Text) : (text.map f).splitOn sign = (text.splitOn sign).map (List.map f) := by
  induction text with
  | nil => rfl
  | cons c text ih =>
    rw [map_cons, splitOn_cons_eq_if_modifyHead, splitOn_cons_eq_if_modifyHead, ih]
    by_cases hc : c = sign
    · simp [hc, (hf sign).mpr rfl]
    · simp only [beq_iff_eq, hf, hc, if_false]
      cases text.splitOn sign <;> rfl

theorem isGroup_lower (part : Text) : isGroup (part.map asciiLower) = isGroup part := by
  simp only [isGroup, all_map, length_map, Function.comp_def, isHex_asciiLower]

theorem hexadecimal_lower (part : Text) : hexadecimal (part.map asciiLower) = hexadecimal part := by
  simp only [hexadecimal, foldl_map, hexDigit_asciiLower]

/-- Digits are not letters. -/
theorem map_asciiLower_of_digits {part : Text} (h : part.all Char.isDigit = true) :
    part.map asciiLower = part := by
  have hnot : ∀ n : Fin 26, (Char.ofNat (65 + n)).isDigit = false := by decide
  conv_rhs => rw [← map_id part]
  refine map_congr_left fun c hc => ?_
  rcases asciiLower_cases c with hsame | ⟨n, rfl, -⟩
  · exact hsame
  · exact absurd (all_eq_true.mp h _ hc) (Bool.eq_false_iff.mp (hnot n))

theorem isOctet_lower (part : Text) : isOctet (part.map asciiLower) = isOctet part := by
  cases h : part.all Char.isDigit with
  | true => rw [map_asciiLower_of_digits h]
  | false =>
    have hlower : (part.map asciiLower).all Char.isDigit = false := by
      simpa only [all_map, Function.comp_def, isDigit_asciiLower] using h
    simp only [isOctet, h, hlower, Bool.false_and]

theorem octets_lower (text : Text) : octets (text.map asciiLower) = octets text := by
  have hall : ((text.splitOn '.').map (List.map asciiLower)).all isOctet
      = (text.splitOn '.').all isOctet := by
    simp only [all_map, Function.comp_def, isOctet_lower]
  simp only [octets, splitOn_map (asciiLower_eq_iff (Or.inl rfl)), length_map, hall]
  split_ifs with h
  · rw [map_map]
    congr 1
    refine map_congr_left fun part hpart => ?_
    have hoctet := all_eq_true.mp h.2 part hpart
    simp only [isOctet, Bool.and_eq_true] at hoctet
    rw [Function.comp_apply, map_asciiLower_of_digits hoctet.1.1]
  · rfl

theorem parseV4_lower (text : Text) : parseV4 (text.map asciiLower) = parseV4 text := by
  rw [parseV4, octets_lower, parseV4]

theorem lastGroups_lower (parts : List Text) :
    lastGroups (parts.map (List.map asciiLower)) = lastGroups parts := by
  induction parts with
  | nil => rfl
  | cons part parts ih =>
    cases parts with
    | nil =>
      simp only [map_cons, map_nil, lastGroups, isGroup_lower, hexadecimal_lower, parseV4_lower]
    | cons next rest =>
      simp only [map_cons] at ih
      simp only [map_cons, lastGroups, isGroup_lower, hexadecimal_lower, ih]

theorem groupsAfter_lower (text : Text) : groupsAfter (text.map asciiLower) = groupsAfter text := by
  simp only [groupsAfter, map_eq_nil_iff,
    splitOn_map (asciiLower_eq_iff (Or.inr (Or.inl rfl))), lastGroups_lower]

theorem groupsBefore_lower (text : Text) :
    groupsBefore (text.map asciiLower) = groupsBefore text := by
  simp only [groupsBefore, map_eq_nil_iff,
    splitOn_map (asciiLower_eq_iff (Or.inr (Or.inl rfl))), all_map, Function.comp_def,
    isGroup_lower, map_map, hexadecimal_lower]

theorem cut_lower (text : Text) : cut (text.map asciiLower)
    = (cut text).map fun x => (x.1.map asciiLower, x.2.map asciiLower) := by
  induction text using cut.induct with
  | case1 | case2 => rfl
  | case3 c d text h =>
    obtain ⟨rfl, rfl⟩ := h
    rfl
  | case4 c d text h ih =>
    simp only [map_cons] at ih ⊢
    have hsigns : ∀ e, asciiLower e = ':' ↔ e = ':' := asciiLower_eq_iff (Or.inr (Or.inl rfl))
    rw [cut, if_neg (by rwa [hsigns, hsigns]), ih, cut, if_neg h, Option.map_map, Option.map_map]
    rfl

theorem parseGroups_lower (body : Text) : parseGroups (body.map asciiLower) = parseGroups body := by
  rw [parseGroups, cut_lower, parseGroups]
  cases cut body with
  | none => simp only [Option.map_none, groupsAfter_lower]
  | some x => simp only [Option.map_some, groupsAfter_lower, groupsBefore_lower]

theorem parseV6_lower (text : Text) : parseV6 (text.map asciiLower) = parseV6 text := by
  have hsign : (fun c => decide (c ≠ '%')) ∘ asciiLower = fun c => decide (c ≠ '%') := by
    funext c
    simp only [Function.comp_apply, ne_eq, asciiLower_eq_iff (Or.inr (Or.inr (Or.inl rfl))) c]
  have hzone : ∀ zone : Text, isZone (zone.map asciiLower) = isZone zone := by
    intro zone
    simp only [isZone, isEmpty_map, ← map_drop, ne_eq, map_eq_nil_iff, all_map,
      Function.comp_def, isZoneChar_asciiLower]
  simp only [parseV6, dropWhile_map, takeWhile_map, hsign, hzone, parseGroups_lower]

/-- A literal denotes the same address in lower case. -/
theorem denoted_lower (text : Text) : denoted (text.map asciiLower) = denoted text := by
  simp only [denoted, parseV4_lower, parseV6_lower]

/-! ### Characters -/

variable {text : Text}

/-- What is not a sign at which a text is split is in a part. -/
theorem mem_of_splitOn (sign : Char) {c : Char} (hc : c ∈ text) :
    c = sign ∨ ∃ part ∈ text.splitOn sign, c ∈ part := by
  induction text with
  | nil => exact nomatch hc
  | cons d text ih =>
    rw [splitOn_cons_eq_if_modifyHead]
    obtain ⟨part, parts, hparts⟩ := exists_cons_of_ne_nil (splitOn_ne_nil sign text)
    rw [hparts] at ih ⊢
    by_cases hd : d = sign
    · simp only [hd, beq_self_eq_true, if_true]
      rcases mem_cons.mp hc with rfl | hc
      · exact Or.inl hd
      · exact (ih hc).imp_right fun ⟨p, hp, hcp⟩ => ⟨p, mem_cons_of_mem _ hp, hcp⟩
    · simp only [beq_iff_eq, hd, if_false, modifyHead_cons]
      rcases mem_cons.mp hc with rfl | hc
      · exact Or.inr ⟨_, mem_cons_self, mem_cons_self⟩
      · refine (ih hc).imp_right fun ⟨p, hp, hcp⟩ => ?_
        rcases mem_cons.mp hp with rfl | hp
        · exact ⟨_, mem_cons_self, mem_cons_of_mem _ hcp⟩
        · exact ⟨p, mem_cons_of_mem _ hp, hcp⟩

/-- Every character is one that a zone may have, or a percent sign. -/
def Plain (text : Text) : Prop := ∀ c ∈ text, isZoneChar c = true ∨ c = '%'

theorem isZoneChar_of_isDigit {c : Char} (h : c.isDigit = true) : isZoneChar c = true := by
  simp only [isZoneChar, Char.isAlphanum, h, Bool.or_true, Bool.true_or]

theorem isZoneChar_of_isHex {c : Char} (h : isHex c = true) : isZoneChar c = true := by
  simp only [isHex, Bool.or_eq_true, Bool.and_eq_true, decide_eq_true_eq] at h
  simp only [isZoneChar, Char.isAlphanum, Char.isAlpha, Char.isUpper, Char.isLower,
    Bool.or_eq_true, Bool.and_eq_true, decide_eq_true_eq]
  rcases h with (h | ⟨hlow, hhigh⟩) | ⟨hlow, hhigh⟩
  · exact Or.inl (Or.inl (Or.inl (Or.inr h)))
  · have hle : c.toNat ≤ 102 := hhigh
    have hz : c.toNat ≤ 122 := by omega
    exact Or.inl (Or.inl (Or.inl (Or.inl (Or.inr ⟨hlow, hz⟩))))
  · have hle : c.toNat ≤ 70 := hhigh
    have hz : c.toNat ≤ 90 := by omega
    exact Or.inl (Or.inl (Or.inl (Or.inl (Or.inl ⟨hlow, hz⟩))))

theorem plain_of_splitOn (sign : Char) (hsign : isZoneChar sign = true)
    (h : ∀ part ∈ text.splitOn sign, Plain part) : Plain text := by
  intro c hc
  rcases mem_of_splitOn sign hc with rfl | ⟨part, hpart, hc⟩
  · exact Or.inl hsign
  · exact h part hpart c hc

theorem plain_of_isGroup {part : Text} (h : isGroup part = true) : Plain part := by
  simp only [isGroup, Bool.and_eq_true] at h
  exact fun c hc => Or.inl (isZoneChar_of_isHex (all_eq_true.mp h.1.1 c hc))

theorem plain_of_parseV4 {n : ℕ} (h : parseV4 text = some n) : Plain text := by
  obtain ⟨os, hos, -⟩ := Option.map_eq_some_iff.mp h
  rw [octets] at hos
  split_ifs at hos with hparts
  refine plain_of_splitOn '.' (by decide) fun part hpart c hc => ?_
  have hoctet := all_eq_true.mp hparts.2 part hpart
  simp only [isOctet, Bool.and_eq_true] at hoctet
  exact Or.inl (isZoneChar_of_isDigit (all_eq_true.mp hoctet.1.1 c hc))

variable {gs : List ℕ}

theorem plain_of_lastGroups {parts : List Text} (h : lastGroups parts = some gs) :
    ∀ part ∈ parts, Plain part := by
  induction parts generalizing gs with
  | nil => exact fun part hpart => nomatch hpart
  | cons first parts ih =>
    cases parts with
    | nil =>
      rw [lastGroups] at h
      intro part hpart
      obtain rfl := mem_singleton.mp hpart
      split_ifs at h with hgroup
      · exact plain_of_isGroup hgroup
      · obtain ⟨n, hn, -⟩ := Option.map_eq_some_iff.mp h
        exact plain_of_parseV4 hn
    | cons next rest =>
      rw [lastGroups] at h
      · split_ifs at h with hgroup
        obtain ⟨gs', hgs', -⟩ := Option.map_eq_some_iff.mp h
        intro part hpart
        rcases mem_cons.mp hpart with rfl | hpart
        · exact plain_of_isGroup hgroup
        · exact ih hgs' part hpart
      · exact nofun

theorem plain_of_groupsAfter (h : groupsAfter text = some gs) : Plain text := by
  rw [groupsAfter] at h
  split_ifs at h with hnil
  · exact hnil ▸ fun c hc => nomatch hc
  · exact plain_of_splitOn ':' (by decide) (plain_of_lastGroups h)

theorem plain_of_groupsBefore (h : groupsBefore text = some gs) : Plain text := by
  rw [groupsBefore] at h
  dsimp only at h
  split_ifs at h with hnil hparts
  · exact hnil ▸ fun c hc => nomatch hc
  · exact plain_of_splitOn ':' (by decide) fun part hpart =>
      plain_of_isGroup (all_eq_true.mp hparts part hpart)

theorem eq_of_cut {text before after : Text} (h : cut text = some (before, after)) :
    text = before ++ ':' :: ':' :: after := by
  induction text using cut.induct generalizing before with
  | case1 | case2 => exact nomatch h
  | case3 c d text hsigns =>
    obtain ⟨rfl, rfl⟩ := hsigns
    rw [cut, if_pos ⟨rfl, rfl⟩] at h
    obtain ⟨rfl, rfl⟩ := Prod.mk.inj (Option.some.inj h)
    rfl
  | case4 c d text hsigns ih =>
    rw [cut, if_neg hsigns] at h
    obtain ⟨x, hx, heq⟩ := Option.map_eq_some_iff.mp h
    obtain ⟨rfl, rfl⟩ := Prod.mk.inj heq
    rw [ih hx, cons_append]

theorem plain_of_parseGroups {body : Text} (h : parseGroups body = some gs) : Plain body := by
  rw [parseGroups] at h
  cases hcut : cut body with
  | none =>
    rw [hcut] at h
    exact plain_of_groupsAfter (Option.filter_eq_some_iff.mp h).1
  | some x =>
    rw [hcut] at h
    obtain ⟨bs, hbs, h⟩ := Option.bind_eq_some_iff.mp h
    obtain ⟨as', has, -⟩ := Option.bind_eq_some_iff.mp h
    rw [eq_of_cut hcut]
    intro c hc
    rw [mem_append, mem_cons, mem_cons] at hc
    rcases hc with hc | rfl | rfl | hc
    · exact plain_of_groupsBefore hbs c hc
    · exact Or.inl (by decide)
    · exact Or.inl (by decide)
    · exact plain_of_groupsAfter has c hc

/-- A zone begins with a percent sign. -/
theorem zone_cases (text : Text) : text.dropWhile (· ≠ '%') = []
    ∨ ∃ zone, text.dropWhile (· ≠ '%') = '%' :: zone := by
  cases h : text.dropWhile (· ≠ '%') with
  | nil => exact Or.inl rfl
  | cons c zone =>
    have hnot := head?_dropWhile_not (fun c => decide (c ≠ '%')) text
    rw [h] at hnot
    exact Or.inr ⟨zone, by simpa using hnot⟩

theorem plain_of_parseV6 (h : parseV6 text = some gs) : Plain text := by
  rw [parseV6] at h
  split_ifs at h with hzone
  intro c hc
  rw [← takeWhile_append_dropWhile (p := fun c => decide (c ≠ '%')) (l := text), mem_append] at hc
  rcases hc with hc | hc
  · exact plain_of_parseGroups h c hc
  · rcases zone_cases text with hnil | ⟨zone, hcons⟩
    · rw [hnil] at hc
      exact nomatch hc
    · rw [hcons] at hc hzone
      rcases mem_cons.mp hc with rfl | hc
      · exact Or.inr rfl
      · simp only [isZone, isEmpty_cons, Bool.false_or, drop_one, tail_cons,
          Bool.and_eq_true] at hzone
        exact Or.inl (all_eq_true.mp hzone.2 c hc)

/-- A literal has letters, digits and a few signs. -/
theorem plain_of_denoted {a : Address} (h : denoted text = some a) : Plain text := by
  rw [denoted] at h
  cases hv4 : parseV4 text with
  | some n => exact plain_of_parseV4 hv4
  | none =>
    rw [hv4] at h
    obtain ⟨gs, hgs, -⟩ := Option.map_eq_some_iff.mp h
    exact plain_of_parseV6 hgs

/-- Every character is ASCII. -/
def IsAscii (text : Text) : Prop := ∀ c ∈ text, c.toNat < 128

theorem Plain.isAscii (h : Plain text) : IsAscii text := by
  intro c hc
  rcases h c hc with hc | rfl
  · simp only [isZoneChar, Char.isAlphanum, Char.isAlpha, Char.isUpper, Char.isLower, Char.isDigit,
      Bool.or_eq_true, Bool.and_eq_true, decide_eq_true_eq, beq_iff_eq] at hc
    rcases hc with ((((⟨-, h⟩ | ⟨-, h⟩) | ⟨-, h⟩) | rfl) | rfl) | rfl
    · exact lt_of_le_of_lt (show c.toNat ≤ 90 from h) (by decide)
    · exact lt_of_le_of_lt (show c.toNat ≤ 122 from h) (by decide)
    · exact lt_of_le_of_lt (show c.toNat ≤ 57 from h) (by decide)
    all_goals decide
  · decide

end Rabotka.Webhooks
