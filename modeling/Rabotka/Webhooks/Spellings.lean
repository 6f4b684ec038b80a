import Rabotka.Webhooks.PrivateAddress

/-!
# Spellings of private addresses

For every literal, the answer of `isPrivateAddress` is that of the address exactly if the literal
is spelled as the function expects (`isPrivateAddress_iff`). Numbers with dots always are. A local
range shows in the first three of four digits; the omission of leading zeros can make a group that
is none look like one, and this machine and the mapped addresses are only known in one spelling.
-/

namespace Rabotka.Webhooks

open List

/-! ### First groups -/

theorem head?_splitOn (sign : Char) (text : Text) :
    (text.splitOn sign).head? = some (text.takeWhile (· ≠ sign)) := by
  induction text with
  | nil => rfl
  | cons c text ih =>
    rw [splitOn_cons_eq_if_modifyHead, takeWhile_cons]
    by_cases hc : c = sign
    · simp [hc]
    · simp [hc, ih]

/-- A longer stretch whose characters all pass a stricter test is the stretch of that test. -/
theorem takeWhile_eq_of_all {p q : Char → Bool} (hqp : ∀ c, q c = true → p c = true)
    {text : Text} (h : (text.takeWhile p).all q = true) :
    text.takeWhile q = text.takeWhile p := by
  induction text with
  | nil => rfl
  | cons c text ih =>
    by_cases hp : p c = true
    · rw [takeWhile_cons_of_pos hp, all_cons, Bool.and_eq_true] at h
      rw [takeWhile_cons_of_pos hp, takeWhile_cons_of_pos h.1, ih h.2]
    · rw [takeWhile_cons_of_neg hp, takeWhile_cons_of_neg (fun hq => hp (hqp c hq))]

/-- The digits at the start of a text are those of its first part, if that is a group. -/
theorem takeWhile_isHex {text first : Text}
    (hfirst : ((text.takeWhile (· ≠ '%')).splitOn ':').head? = some first)
    (hgroup : isGroup first = true) : text.takeWhile isHex = first := by
  rw [head?_splitOn, Option.some_inj, takeWhile_takeWhile] at hfirst
  subst hfirst
  refine takeWhile_eq_of_all (fun c hc => ?_) ?_
  · have hcolon : isHex ':' = false := by decide
    have hpercent : isHex '%' = false := by decide
    simp only [ne_eq, decide_not, Bool.not_eq_true', decide_eq_false_iff_not, decide_eq_true_eq]
    constructor
    · rintro rfl
      exact absurd hc (by rw [hcolon]; exact Bool.false_ne_true)
    · rintro rfl
      exact absurd hc (by rw [hpercent]; exact Bool.false_ne_true)
  · simp only [isGroup, Bool.and_eq_true] at hgroup
    exact hgroup.1.1

variable {gs : List ℕ}

/-- The first of several groups. -/
theorem head?_lastGroups {first next : Text} {rest : List Text}
    (h : lastGroups (first :: next :: rest) = some gs) :
    isGroup first = true ∧ gs.head? = some (hexadecimal first) := by
  rw [lastGroups] at h
  · split_ifs at h with hgroup
    obtain ⟨gs', -, rfl⟩ := Option.map_eq_some_iff.mp h
    exact ⟨hgroup, rfl⟩
  · simp

theorem length_lastGroups_singleton {part : Text}
    (h : lastGroups [part] = some gs) : gs.length ≤ 2 := by
  rw [lastGroups] at h
  split_ifs at h with hgroup
  · obtain rfl := Option.some.inj h
    simp
  · obtain ⟨n, -, rfl⟩ := Option.map_eq_some_iff.mp h
    simp

variable {ip : Text}

/-- An address begins with an omission, or with a group that is its first one. -/
theorem parseV6_start (h : parseV6 ip = some gs) :
    (gs.head? = some 0 ∧ ∃ rest, ip = ':' :: ':' :: rest) ∨ (isGroup (ip.takeWhile isHex) = true
        ∧ gs.head? = some (hexadecimal (ip.takeWhile isHex))) := by
  rw [parseV6] at h
  split_ifs at h
  rw [parseGroups] at h
  have happend := takeWhile_append_dropWhile (p := fun c => decide (c ≠ '%')) (l := ip)
  cases hcut : cut (ip.takeWhile (· ≠ '%')) with
  | none =>
    rw [hcut] at h
    obtain ⟨hafter, hlength⟩ := Option.filter_eq_some_iff.mp h
    right
    rw [groupsAfter] at hafter
    split_ifs at hafter with hnil
    · obtain rfl := Option.some.inj hafter
      simp at hlength
    · have hhead := head?_splitOn ':' (ip.takeWhile (· ≠ '%'))
      obtain ⟨first, rest, hparts⟩ := exists_cons_of_ne_nil
        (splitOn_ne_nil ':' (ip.takeWhile (· ≠ '%')))
      rw [hparts] at hafter
      cases rest with
      | nil =>
        have hle := length_lastGroups_singleton hafter
        have height : gs.length = 8 := by simpa using hlength
        omega
      | cons next rest =>
        obtain ⟨hgroup, hgs⟩ := head?_lastGroups hafter
        rw [takeWhile_isHex (by rw [hparts]; rfl) hgroup]
        exact ⟨hgroup, hgs⟩
  | some x =>
    obtain ⟨before, after⟩ := x
    rw [hcut] at h
    obtain ⟨bs, hbs, h⟩ := Option.bind_eq_some_iff.mp h
    obtain ⟨as', -, h⟩ := Option.bind_eq_some_iff.mp h
    split_ifs at h with hle
    obtain rfl := Option.some.inj h
    have hbody := eq_of_cut hcut
    rw [groupsBefore] at hbs
    dsimp only at hbs
    split_ifs at hbs with hnil hparts
    · left
      obtain rfl := Option.some.inj hbs
      rw [length_nil, Nat.zero_add] at hle
      rw [hnil, nil_append] at hbody
      rw [hbody] at happend
      refine ⟨?_, _, happend.symm⟩
      obtain ⟨k, hk⟩ : ∃ k, 8 - ([].length + as'.length) = k + 1 :=
        ⟨7 - as'.length, by rw [length_nil]; omega⟩
      rw [hk]
      rfl
    · right
      obtain rfl := Option.some.inj hbs
      have hhead : ((ip.takeWhile (· ≠ '%')).splitOn ':').head? = (before.splitOn ':').head? := by
        rw [hbody, splitOn_append_cons_self, head?_append_of_ne_nil _ (splitOn_ne_nil _ _)]
      obtain ⟨first, rest, hsplit⟩ := exists_cons_of_ne_nil (splitOn_ne_nil ':' before)
      rw [hsplit] at hhead hparts ⊢
      have hgroup := all_eq_true.mp hparts first mem_cons_self
      rw [takeWhile_isHex hhead hgroup]
      exact ⟨hgroup, rfl⟩


/-! ### Digits in lower case -/

/-- The digits of a group in lower case. -/
def lowerHex : Text :=
  ['0', '1', '2', '3', '4', '5', '6', '7', '8', '9', 'a', 'b', 'c', 'd', 'e', 'f']

theorem mem_lowerHex {c : Char} (hhex : isHex c = true) (hlower : asciiLower c = c) :
    c ∈ lowerHex := by
  have hdigits : ∀ n : Fin 10, Char.ofNat (48 + n) ∈ lowerHex := by decide
  have hletters : ∀ n : Fin 6, Char.ofNat (97 + n) ∈ lowerHex := by decide
  have hupper : ∀ n : Fin 26, asciiLower (Char.ofNat (65 + n)) ≠ Char.ofNat (65 + n) := by decide
  have hback : ∀ k, k ≤ c.toNat → Char.ofNat (k + (c.toNat - k)) = c := by
    intro k hk
    rw [Nat.add_sub_cancel' hk, Char.ofNat_toNat]
  simp only [isHex, Char.isDigit, Bool.or_eq_true, Bool.and_eq_true, decide_eq_true_eq] at hhex
  rcases hhex with (⟨hlow, hhigh⟩ | ⟨hlow, hhigh⟩) | ⟨hlow, hhigh⟩
  · have hlow : 48 ≤ c.toNat := hlow
    have hhigh : c.toNat ≤ 57 := hhigh
    rw [← hback 48 hlow]
    exact hdigits ⟨c.toNat - 48, by omega⟩
  · have hlow : 97 ≤ c.toNat := hlow
    have hhigh : c.toNat ≤ 102 := hhigh
    rw [← hback 97 hlow]
    exact hletters ⟨c.toNat - 97, by omega⟩
  · have hlow : 65 ≤ c.toNat := hlow
    have hhigh : c.toNat ≤ 70 := hhigh
    rw [← hback 65 hlow] at hlower
    exact absurd hlower (hupper ⟨c.toNat - 65, by omega⟩)

/-- In lower case, a digit is known by its value. -/
theorem hexDigit_inj (c : Char) (hc : c ∈ lowerHex) (d : Char) (hd : d ∈ lowerHex) :
    hexDigit c = hexDigit d ↔ c = d := by
  have hall : lowerHex.all (fun c => lowerHex.all fun d =>
      decide (hexDigit c = hexDigit d ↔ c = d)) = true := by decide
  exact of_decide_eq_true (all_eq_true.mp (all_eq_true.mp hall c hc) d hd)

theorem hexDigit_lt (c : Char) (hc : c ∈ lowerHex) : hexDigit c < 16 := by
  have hall : lowerHex.all (fun c => decide (hexDigit c < 16)) = true := by decide
  exact of_decide_eq_true (all_eq_true.mp hall c hc)

/-- Whether a group of four digits is local shows in its first three. -/
theorem localGroup_iff {a b c d : Char} (ha : a ∈ lowerHex) (hb : b ∈ lowerHex)
    (hc : c ∈ lowerHex) (hd : d ∈ lowerHex) :
    LocalGroup (hexadecimal [a, b, c, d]) ↔ localPrefix [a, b, c, d] = true := by
  have hf := hexDigit_inj a ha 'f' (by decide)
  have hc' := hexDigit_inj b hb 'c' (by decide)
  have hd' := hexDigit_inj b hb 'd' (by decide)
  have he := hexDigit_inj b hb 'e' (by decide)
  have hf' := hexDigit_inj b hb 'f' (by decide)
  have h8 := hexDigit_inj c hc '8' (by decide)
  have h9 := hexDigit_inj c hc '9' (by decide)
  have ha' := hexDigit_inj c hc 'a' (by decide)
  have hb' := hexDigit_inj c hc 'b' (by decide)
  have hlocal : localPrefix [a, b, c, d] = true ↔ a = 'f'
      ∧ (b = 'c' ∨ b = 'd' ∨ (b = 'e' ∧ (c = '8' ∨ c = '9' ∨ c = 'a' ∨ c = 'b')) ∨ b = 'f') := by
    by_cases h : a = 'f'
    · subst h
      simp [localPrefix, or_assoc]
    · simp [localPrefix, h]
  have hva : hexDigit 'f' = 15 := by decide
  have hvc : hexDigit 'c' = 12 := by decide
  have hvd : hexDigit 'd' = 13 := by decide
  have hve : hexDigit 'e' = 14 := by decide
  have hv8 : hexDigit '8' = 8 := by decide
  have hv9 : hexDigit '9' = 9 := by decide
  have hv10 : hexDigit 'a' = 10 := by decide
  have hv11 : hexDigit 'b' = 11 := by decide
  have hla := hexDigit_lt a ha
  have hlb := hexDigit_lt b hb
  have hlc := hexDigit_lt c hc
  have hld := hexDigit_lt d hd
  rw [hlocal, ← hf, ← hc', ← hd', ← he, ← hf', ← h8, ← h9, ← ha', ← hb', hva, hvc, hvd, hve, hv8,
    hv9, hv10, hv11]
  simp only [LocalGroup, hexadecimal, foldl_cons, foldl_nil]
  omega

/-- A shorter group is less than every local one. -/
theorem not_localGroup_of_short {g : Text} (hg : ∀ c ∈ g, c ∈ lowerHex) (hlength : g.length < 4) :
    ¬LocalGroup (hexadecimal g) := by
  have hlt : ∀ c ∈ g, hexDigit c < 16 := fun c hc => hexDigit_lt c (hg c hc)
  unfold LocalGroup
  match g, hlength with
  | [], _ => decide
  | [a], _ =>
    have ha := hlt a (by simp)
    simp only [hexadecimal, foldl_cons, foldl_nil]
    omega
  | [a, b], _ =>
    have ha := hlt a (by simp)
    have hb := hlt b (by simp)
    simp only [hexadecimal, foldl_cons, foldl_nil]
    omega
  | [a, b, c], _ =>
    have ha := hlt a (by simp)
    have hb := hlt b (by simp)
    have hc := hlt c (by simp)
    simp only [hexadecimal, foldl_cons, foldl_nil]
    omega

theorem localPrefix_iff : localPrefix ip = true ↔ ∃ b rest, ip = 'f' :: b :: rest
    ∧ (b = 'c' ∨ b = 'd' ∨ (b = 'e' ∧ ∃ c ∈ rest.head?, c ∈ ['8', '9', 'a', 'b']) ∨ b = 'f') := by
  constructor
  · intro h
    unfold localPrefix at h
    split at h
    · rename_i b rest
      refine ⟨b, rest, rfl, ?_⟩
      simpa only [Bool.or_eq_true, Bool.and_eq_true, beq_iff_eq, Option.any_eq_true,
        decide_eq_true_eq, or_assoc, Option.mem_def] using h
    · exact nomatch h
  · rintro ⟨b, rest, rfl, h⟩
    simpa only [localPrefix, Bool.or_eq_true, Bool.and_eq_true, beq_iff_eq, Option.any_eq_true,
      decide_eq_true_eq, or_assoc, Option.mem_def] using h

/-- What follows the digits is not looked at. -/
theorem localPrefix_takeWhile (ip : Text) : localPrefix (ip.takeWhile isHex) = localPrefix ip := by
  rw [Bool.eq_iff_iff, localPrefix_iff, localPrefix_iff]
  constructor
  · rintro ⟨b, rest, hip, h⟩
    refine ⟨b, rest ++ ip.dropWhile isHex, ?_, h.imp_right fun h => h.imp_right fun h => ?_⟩
    · rw [← cons_append, ← cons_append, ← hip, takeWhile_append_dropWhile]
    · refine h.imp_left fun ⟨hb, c, hc, hmem⟩ => ⟨hb, c, ?_, hmem⟩
      rw [Option.mem_def] at hc ⊢
      rw [head?_append, hc]
      rfl
  · rintro ⟨b, rest, rfl, h⟩
    have hf : isHex 'f' = true := by decide
    have hb : isHex b = true := by
      rcases h with rfl | rfl | ⟨rfl, -⟩ | rfl <;> decide
    refine ⟨b, rest.takeWhile isHex, ?_, h.imp_right fun h => h.imp_right fun h => ?_⟩
    · rw [takeWhile_cons_of_pos hf, takeWhile_cons_of_pos hb]
    · refine h.imp_left fun ⟨hb, c, hc, hmem⟩ => ⟨hb, c, ?_, hmem⟩
      have hhex : ['8', '9', 'a', 'b'].all isHex = true := by decide
      cases rest with
      | nil => exact nomatch hc
      | cons d rest =>
        obtain rfl : d = c := by simpa using hc
        rw [takeWhile_cons_of_pos (all_eq_true.mp hhex d hmem)]
        exact rfl

theorem hexadecimal_pos_of_local {g : Text} (hlength : g.length ≤ 4) (h : localPrefix g = true) :
    0 < hexadecimal g := by
  have hf : hexDigit 'f' = 15 := by decide
  obtain ⟨b, rest, rfl, -⟩ := localPrefix_iff.mp h
  match rest, hlength with
  | [], _ =>
    simp only [hexadecimal, foldl_cons, foldl_nil]
    omega
  | [c], _ =>
    simp only [hexadecimal, foldl_cons, foldl_nil]
    omega
  | [c, d], _ =>
    simp only [hexadecimal, foldl_cons, foldl_nil]
    omega

/-! ### Addresses of 128 bits -/

/-- The local ranges show in the text, in lower case and with all four digits. -/
theorem local_of_parseV6 (h : parseV6 ip = some gs) (hlower : ∀ c ∈ ip, asciiLower c = c) :
    (localPrefix ip = true → gs.head? ≠ some 0) ∧ ((∃ g ∈ gs.head?, LocalGroup g)
        ↔ localPrefix ip = true ∧ (ip.takeWhile isHex).length = 4) := by
  rcases parseV6_start h with ⟨hhead, rest, rfl⟩ | ⟨hgroup, hhead⟩
  · have hnone : ¬localPrefix (':' :: ':' :: rest) = true := by simp [localPrefix]
    refine ⟨fun hl => absurd hl hnone, ?_, fun hl => absurd hl.1 hnone⟩
    rintro ⟨g, hg, hl⟩
    rw [hhead, Option.mem_some_iff] at hg
    subst hg
    exact absurd hl (by unfold LocalGroup; decide)
  · rw [← localPrefix_takeWhile]
    have hmem : ∀ c ∈ ip.takeWhile isHex, c ∈ lowerHex := fun c hc =>
      mem_lowerHex (mem_takeWhile_imp hc) (hlower c ((List.takeWhile_prefix _).subset hc))
    generalize ip.takeWhile isHex = group at hgroup hhead hmem
    simp only [isGroup, Bool.and_eq_true, decide_eq_true_eq] at hgroup
    rw [hhead]
    constructor
    · intro hl hzero
      have hpos := hexadecimal_pos_of_local hgroup.2 hl
      rw [Option.some.inj hzero] at hpos
      exact absurd hpos (lt_irrefl 0)
    · simp only [Option.mem_some_iff, exists_eq_left']
      by_cases hfour : group.length = 4
      · obtain ⟨a, b, c, d, rfl⟩ := length_eq_four.mp hfour
        rw [localGroup_iff (hmem a (by simp)) (hmem b (by simp)) (hmem c (by simp))
          (hmem d (by simp))]
        simp
      · have hshort := not_localGroup_of_short hmem (lt_of_le_of_ne hgroup.2 hfour)
        exact ⟨fun hl => absurd hl hshort, fun hl => absurd hl.2 hfour⟩

/-- The text after `::ffff:`, when it is four numbers with dots. -/
theorem mapped_cases {ip dotted : Text} (h : mapped ip = some dotted) :
    ip = "::ffff:".toList ++ dotted ∧ '.' ∈ dotted ∧ ∀ c ∈ dotted, c = '.' ∨ c.isDigit = true := by
  unfold mapped at h
  split at h
  · rename_i text
    dsimp only at h
    split_ifs at h with hparts
    obtain rfl := Option.some.inj h
    refine ⟨rfl, ?_, fun c hc => ?_⟩
    · by_contra hnone
      rw [splitOn_eq_singleton hnone] at hparts
      exact absurd hparts.1 (by simp)
    · rcases mem_of_splitOn '.' hc with hdot | ⟨part, hpart, hc⟩
      · exact Or.inl hdot
      · have hall := all_eq_true.mp hparts.2 part hpart
        rw [Bool.and_eq_true] at hall
        exact Or.inr (all_eq_true.mp hall.2 c hc)
  · exact nomatch h

/-- Brackets are at the ends only. -/
theorem strip_of_not_bracket {text : Text} (hopen : '[' ∉ text) (hclose : ']' ∉ text) :
    strip text = text := by
  have hhead : text.head? ≠ some '[' := fun h => hopen (mem_of_mem_head? h)
  have hlast : text.getLast? ≠ some ']' := fun h => hclose (mem_of_mem_getLast? h)
  simp only [strip, if_neg hhead, if_neg hlast]

variable {a : Address}

/-- No literal has a bracket. -/
theorem strip_of_denoted {text : Text} (ha : denoted text = some a) : strip text = text := by
  have hplain := plain_of_denoted ha
  refine strip_of_not_bracket (fun h => ?_) fun h => ?_
  · exact absurd (hplain _ h) (by decide)
  · exact absurd (hplain _ h) (by decide)

/-- A mapped address written with dots. -/
theorem parseV6_of_mapped {ip dotted : Text} (hmapped : mapped ip = some dotted)
    (h : parseV6 ip = some gs) : ∃ n, parseV4 dotted = some n
      ∧ gs = [0, 0, 0, 0, 0, 0xffff, n / 65536, n % 65536] ∧ strip dotted = dotted := by
  obtain ⟨rfl, hdot, hchars⟩ := mapped_cases hmapped
  have hnot : ∀ c, c ≠ '.' → c.isDigit = false → c ∉ dotted := by
    intro c hne hdigit hc
    rcases hchars c hc with rfl | hc
    · exact hne rfl
    · exact absurd hc (Bool.eq_false_iff.mp hdigit)
  have hall : ∀ c ∈ "::ffff:".toList ++ dotted, decide (c ≠ '%') = true := by
    intro c hc
    have hstart : "::ffff:".toList.all (fun c => decide (c ≠ '%')) = true := by decide
    rcases mem_append.mp hc with hc | hc
    · exact all_eq_true.mp hstart c hc
    · exact decide_eq_true fun hp => hnot '%' (by decide) (by decide) (hp ▸ hc)
  have hsplit : ("ffff:".toList ++ dotted).splitOn ':' = ["ffff".toList, dotted] := by
    have hcolon : ':' ∉ dotted := hnot ':' (by decide) (by decide)
    show ("ffff".toList ++ ':' :: dotted).splitOn ':' = _
    rw [splitOn_append_cons_self_of_not_mem (by decide), splitOn_eq_singleton hcolon]
  have hgroup : isGroup dotted = false := by
    have hhex : isHex '.' = false := by decide
    simp only [isGroup, Bool.and_eq_false_iff]
    refine Or.inl (Or.inl (all_eq_false.mpr ⟨'.', hdot, ?_⟩))
    rw [hhex]
    exact Bool.false_ne_true
  rw [parseV6, takeWhile_eq_self_iff.mpr hall, dropWhile_eq_nil_iff.mpr hall,
    if_pos (by decide), parseGroups] at h
  have hcut : cut ("::ffff:".toList ++ dotted) = some ([], "ffff:".toList ++ dotted) := rfl
  rw [hcut] at h
  obtain ⟨bs, hbs, h⟩ := Option.bind_eq_some_iff.mp h
  obtain rfl : bs = [] := (Option.some.inj hbs).symm
  obtain ⟨as', has, h⟩ := Option.bind_eq_some_iff.mp h
  have hfirst : isGroup "ffff".toList = true := by decide
  rw [groupsAfter, if_neg (by simp), hsplit, lastGroups, if_pos hfirst, lastGroups,
    if_neg (by rw [hgroup]; exact Bool.false_ne_true)] at has
  · obtain ⟨tail, htail, rfl⟩ := Option.map_eq_some_iff.mp has
    obtain ⟨n, hn, rfl⟩ := Option.map_eq_some_iff.mp htail
    refine ⟨n, hn, ?_, strip_of_not_bracket (hnot _ (by decide) (by decide))
      (hnot _ (by decide) (by decide))⟩
    rw [if_pos (by simp)] at h
    exact (Option.some.inj h).symm
  · simp

/-! ### The answer -/

theorem parseV6_of_denoted (h : denoted ip = some (.v6 gs)) : parseV6 ip = some gs := by
  rw [denoted] at h
  cases hv4 : parseV4 ip with
  | some n =>
    rw [hv4] at h
    cases h
  | none =>
    rw [hv4] at h
    obtain ⟨gs', hgs', heq⟩ := Option.map_eq_some_iff.mp h
    rw [hgs', Address.v6.inj heq]

theorem parseV4_of_denoted {n : ℕ} (h : denoted ip = some (.v4 n)) : parseV4 ip = some n := by
  rw [denoted] at h
  cases hv4 : parseV4 ip with
  | some m =>
    rw [hv4] at h
    rw [Address.v4.inj (Option.some.inj h)]
  | none =>
    rw [hv4] at h
    obtain ⟨gs, -, heq⟩ := Option.map_eq_some_iff.mp h
    cases heq

/-- Neither this machine nor a mapped address has a first group. -/
theorem head?_eq_zero (h : HereV6 gs ∨ MappedInRange gs) : gs.head? = some 0 := by
  rcases h with (rfl | rfl) | ⟨hi, lo, rfl, -⟩ <;> rfl

theorem inRange_v6_of_mapped {n : ℕ} :
    InRange (.v6 [0, 0, 0, 0, 0, 0xffff, n / 65536, n % 65536]) ↔ InRangeV4 n := by
  constructor
  · rintro (h | ⟨hi, lo, h, hrange⟩ | ⟨g, hg, hl⟩)
    · rcases h with h | h <;> simp at h
    · obtain ⟨rfl, rfl⟩ : n / 65536 = hi ∧ n % 65536 = lo := by simpa using h
      rwa [Nat.div_add_mod] at hrange
    · rw [head?_cons, Option.mem_some_iff] at hg
      subst hg
      exact absurd hl (by unfold LocalGroup; decide)
  · intro h
    exact Or.inr (Or.inl ⟨_, _, rfl, by rwa [Nat.div_add_mod]⟩)

section

variable {toLowerCase : Text → Text} (hlow : AsciiLower toLowerCase)

include hlow

variable {raw : Text}

/-- A literal is read in lower case. -/
theorem lower_of_denoted (ha : denoted (strip raw) = some a) :
    toLowerCase (strip raw) = (strip raw).map asciiLower
      ∧ denoted ((strip raw).map asciiLower) = some a :=
  ⟨hlow _ (plain_of_denoted ha).isAscii, by rw [denoted_lower, ha]⟩

/-- A literal of 32 bits is in a range exactly if the address is. -/
theorem classify_v4 {recurse : Text → Bool} {n : ℕ} (hn : parseV4 (strip raw) = some n) :
    classify toLowerCase recurse raw = true ↔ InRangeV4 n := by
  have hdenoted : denoted (strip raw) = some (.v4 n) := by rw [denoted, hn]
  obtain ⟨hlower, hip⟩ := lower_of_denoted hlow hdenoted
  have hfamily : isIP ((strip raw).map asciiLower) = 4 := by rw [isIP, hip]
  rw [← parseV4_lower] at hn
  obtain ⟨hint, hlt⟩ := v4ToInt_of_parseV4 hn
  rw [classify, hlower, if_pos hfamily, hint, isPrivateV4_iff hlt]

/-- What the text of a literal of 128 bits decides. -/
theorem classify_v6 {recurse : Text → Bool} (hgs : denoted (strip raw) = some (.v6 gs)) :
    classify toLowerCase recurse raw = (decide ((strip raw).map asciiLower = [':', ':']
          ∨ (strip raw).map asciiLower = [':', ':', '1'])
        || match mapped ((strip raw).map asciiLower) with
          | some dotted => recurse dotted
          | none => localPrefix ((strip raw).map asciiLower)) := by
  obtain ⟨hlower, hip⟩ := lower_of_denoted hlow hgs
  have hfamily : isIP ((strip raw).map asciiLower) = 6 := by rw [isIP, hip]
  rw [classify, hlower, hfamily, if_neg (by decide), if_pos rfl]
  split_ifs with hhere
  · rw [decide_eq_true hhere, Bool.true_or]
  · cases mapped ((strip raw).map asciiLower) with
    | none | some => simp only [hhere, decide_false, Bool.false_or]

/-- A literal of 32 bits gets the answer of its address. -/
theorem isPrivateAddress_v4 {n : ℕ} (hn : denoted (strip raw) = some (.v4 n)) :
    isPrivateAddress toLowerCase raw = true ↔ InRange (.v4 n) :=
  classify_v4 hlow (parseV4_of_denoted hn)

/-- A literal of 128 bits gets the answer of its address exactly if its spelling is expected. -/
theorem isPrivateAddress_v6 (hgs : denoted (strip raw) = some (.v6 gs)) :
    (isPrivateAddress toLowerCase raw = true ↔ InRange (.v6 gs))
      ↔ Expected ((strip raw).map asciiLower) := by
  obtain ⟨-, hip⟩ := lower_of_denoted hlow hgs
  rw [isPrivateAddress, classify_v6 hlow hgs]
  have hlower : ∀ c ∈ (strip raw).map asciiLower, asciiLower c = c := by
    have hidem : ∀ c, asciiLower (asciiLower c) = asciiLower c :=
      apply_asciiLower asciiLower (by decide)
    intro c hc
    obtain ⟨d, -, rfl⟩ := mem_map.mp hc
    exact hidem d
  generalize (strip raw).map asciiLower = ip at hip hlower
  have hparsed := parseV6_of_denoted hip
  obtain ⟨hzero, hlocal⟩ := local_of_parseV6 hparsed hlower
  have hunique : ∀ {gs'}, denoted ip = some (.v6 gs') → gs' = gs := fun h =>
    Address.v6.inj (Option.some.inj (h.symm.trans hip))
  have hexpected : Expected ip ↔ (HereV6 gs → ip = [':', ':'] ∨ ip = [':', ':', '1'])
      ∧ (MappedInRange gs → (mapped ip).isSome)
      ∧ (localPrefix ip = true → (ip.takeWhile isHex).length = 4) := by
    constructor
    · exact fun h => ⟨h.here gs hip, h.dotted gs hip, h.full gs hip⟩
    · rintro ⟨hhere, hdotted, hfull⟩
      exact ⟨fun gs' h => hunique h ▸ hhere, fun gs' h => hunique h ▸ hdotted, fun _ _ => hfull⟩
  rw [hexpected]
  have hnotLocal : HereV6 gs ∨ MappedInRange gs → localPrefix ip = false := fun h =>
    Bool.eq_false_iff.mpr fun hl => hzero hl (head?_eq_zero h)
  by_cases hspelled : ip = [':', ':'] ∨ ip = [':', ':', '1']
  · have hhere : HereV6 gs := by
      rcases hspelled with rfl | rfl
      · exact Or.inl (hunique (by decide +kernel)).symm
      · exact Or.inr (hunique (by decide +kernel)).symm
    have hnotMapped : ¬MappedInRange gs := by
      rintro ⟨hi, lo, heq, -⟩
      rw [heq] at hhere
      rcases hhere with h | h <;> simp at h
    have hrange : InRange (.v6 gs) := Or.inl hhere
    simp [hspelled, hrange, hnotMapped, hnotLocal (Or.inl hhere)]
  rw [decide_eq_false hspelled, Bool.false_or]
  cases hmapped : mapped ip with
  | some dotted =>
    obtain ⟨n, hn, hgs', hstrip⟩ := parseV6_of_mapped hmapped hparsed
    have hzero' : localPrefix ip = false :=
      Bool.eq_false_iff.mpr fun hl => hzero hl (by rw [hgs']; rfl)
    have hnotHere : ¬HereV6 gs := by
      rw [hgs']
      rintro (h | h) <;> simp at h
    have hanswer : classify toLowerCase (fun _ => true) dotted = true ↔ InRange (.v6 gs) := by
      rw [hgs', inRange_v6_of_mapped]
      exact classify_v4 hlow (by rw [hstrip, hn])
    simp [hanswer, hzero', hnotHere]
  | none =>
    simp only [hspelled, Option.isSome_none, Bool.false_eq_true, imp_false]
    have hrange : InRange (.v6 gs) ↔ HereV6 gs ∨ MappedInRange gs
        ∨ (localPrefix ip = true ∧ (ip.takeWhile isHex).length = 4) := by
      rw [← hlocal]
      rfl
    rw [hrange]
    by_cases hhere : HereV6 gs
    · simp [hhere, hnotLocal (Or.inl hhere)]
    · by_cases hmap : MappedInRange gs
      · simp [hmap, hnotLocal (Or.inr hmap)]
      · simp only [hhere, hmap, false_or, not_false_eq_true, true_and]
        exact iff_self_and

/-- The answer for a literal is that of its address exactly if the spelling is expected. -/
theorem isPrivateAddress_iff (ha : denoted (strip raw) = some a) :
    (isPrivateAddress toLowerCase raw = true ↔ InRange a)
      ↔ Expected ((strip raw).map asciiLower) := by
  cases a with
  | v4 n =>
    refine iff_of_true (isPrivateAddress_v4 hlow ha) ?_
    have hnone : ∀ gs, denoted ((strip raw).map asciiLower) ≠ some (.v6 gs) := by
      intro gs h
      rw [denoted_lower, ha] at h
      exact nomatch h
    exact ⟨fun gs h => absurd h (hnone gs), fun gs h => absurd h (hnone gs),
      fun gs h => absurd h (hnone gs)⟩
  | v6 gs => exact isPrivateAddress_v6 hlow ha

/-- A host name is refused for one address in a range, if that one is spelled as expected. -/
theorem resolvesToPrivateAddress_of_inRange {lookup : Text → Option (List Text)}
    {hostname raw : Text} (hraw : raw ∈ resolved lookup hostname)
    (ha : denoted raw = some a) (hrange : InRange a) (hexpected : Expected (raw.map asciiLower)) :
    resolvesToPrivateAddress toLowerCase lookup hostname = true := by
  have hstrip := strip_of_denoted ha
  have hprivate : isPrivateAddress toLowerCase raw = true := by
    refine ((isPrivateAddress_iff hlow (by rwa [hstrip])).mpr ?_).mpr hrange
    rwa [hstrip]
  rw [resolved] at hraw
  rw [resolvesToPrivateAddress]
  split_ifs at hraw ⊢ with hliteral
  · rwa [← mem_singleton.mp hraw]
  · cases hlookup : lookup (strip hostname) with
    | none => rfl
    | some addresses =>
      rw [hlookup] at hraw
      have hmem : raw ∈ addresses := hraw
      dsimp only
      rw [any_eq_true.mpr ⟨raw, hmem, hprivate⟩, Bool.or_true]

end

/-- A literal gets the answer of its address exactly if its spelling is expected, and a host name
is refused if one of its addresses is in a range and in an expected spelling. -/
theorem refuses_expected_spellings {toLowerCase : Text → Text} (hlow : AsciiLower toLowerCase) :
    (∀ raw a, denoted (strip raw) = some a →
      ((isPrivateAddress toLowerCase raw = true ↔ InRange a)
        ↔ Expected ((strip raw).map asciiLower)))
    ∧ ∀ lookup hostname, (∃ raw ∈ resolved lookup hostname, ∃ a, denoted raw = some a
        ∧ InRange a ∧ Expected (raw.map asciiLower)) →
      resolvesToPrivateAddress toLowerCase lookup hostname = true :=
  ⟨fun _ _ ha => isPrivateAddress_iff hlow ha, fun _ _ ⟨_, hraw, _, ha, hrange, hexpected⟩ =>
    resolvesToPrivateAddress_of_inRange hlow hraw ha hrange hexpected⟩

/-- The loopback address is refused as `::1`. -/
theorem refuses_loopback : (isPrivateAddress (List.map asciiLower) "[::1]".toList = true
        ↔ InRange (.v6 [0, 0, 0, 0, 0, 0, 0, 1]))
      ↔ Expected ((strip "[::1]".toList).map asciiLower) :=
  (refuses_expected_spellings fun _ _ => rfl).1 "[::1]".toList _ (by decide +kernel)

/-- The loopback address written out goes for a public one, and so does a name which resolves to
it. -/
theorem loopback_written_out : ∃ raw a, denoted (strip raw) = some a ∧ InRange a
      ∧ isPrivateAddress (List.map asciiLower) raw = false
      ∧ (denoted (strip "::1".toList) = some a
        ∧ isPrivateAddress (List.map asciiLower) "::1".toList = true)
      ∧ resolvesToPrivateAddress (List.map asciiLower) (fun _ => some [raw]) "a.b".toList = false :=
  ⟨"0:0:0:0:0:0:0:1".toList, .v6 [0, 0, 0, 0, 0, 0, 0, 1], by decide +kernel, Or.inl (Or.inr rfl),
    by decide +kernel, by decide +kernel, by decide +kernel⟩

end Rabotka.Webhooks
