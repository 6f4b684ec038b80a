import Rabotka.Lib.Calendar
import Mathlib.Data.List.Basic

/-!
# Text of bytes and of instants

Base64 in the URL alphabet without padding, as the runtime writes bytes, and ISO 8601 instants,
as `toISOString` writes them and a date reads them back. Both readers undo their writers
(`decodeBytes_encodeBytes`, `parseISO_toISO`). The first ten characters of an instant are its date if
the year has four digits (`dateOf_eq_iff`).
-/

namespace Encoding

open List

/-! ### Base64 in the URL alphabet -/

def alphabet : List Char :=
  "ABCDEFGHIJKLMNOPQRSTUVWXYZabcdefghijklmnopqrstuvwxyz0123456789-_".toList

def letter (n : ℕ) : Char := alphabet.getD n 'A'

/-- The number of a letter; those of the other alphabet count too. -/
def sextet (c : Char) : Option ℕ :=
  if c = '+' then some 62 else if c = '/' then some 63
  else (alphabet.idxOf? c)

theorem sextet_letter {n : ℕ} (h : n < 64) : sextet (letter n) = some n := by
  have hall : ∀ k : Fin 64, sextet (letter k) = some (k : ℕ) := by decide +kernel
  exact hall ⟨n, h⟩

/-- Three bytes in four sextets, what is left over in as many as it needs. -/
def toSextets : List UInt8 → List ℕ
  | a :: b :: c :: s =>
    [a.toNat / 4, a.toNat % 4 * 16 + b.toNat / 16, b.toNat % 16 * 4 + c.toNat / 64,
      c.toNat % 64] ++ toSextets s
  | [a, b] => [a.toNat / 4, a.toNat % 4 * 16 + b.toNat / 16, b.toNat % 16 * 4]
  | [a] => [a.toNat / 4, a.toNat % 4 * 16]
  | [] => []

def ofSextets : List ℕ → List UInt8
  | p :: q :: r :: t :: s =>
    [UInt8.ofNat (p * 4 + q / 16), UInt8.ofNat (q % 16 * 16 + r / 4),
      UInt8.ofNat (r % 4 * 64 + t)] ++ ofSextets s
  | [p, q, r] => [UInt8.ofNat (p * 4 + q / 16), UInt8.ofNat (q % 16 * 16 + r / 4)]
  | [p, q] => [UInt8.ofNat (p * 4 + q / 16)]
  | _ => []

def encodeBytes (bytes : List UInt8) : List Char := (toSextets bytes).map letter

/-- What is no letter is left out. -/
def decodeBytes (s : List Char) : List UInt8 := ofSextets (s.filterMap sextet)

theorem toSextets_lt (bytes : List UInt8) : ∀ n ∈ toSextets bytes, n < 64 := by
  have hbyte := UInt8.toNat_lt
  fun_induction toSextets bytes with
  | case1 a b c s ih =>
    intro n hn
    have := hbyte a
    have := hbyte b
    have := hbyte c
    simp only [cons_append, nil_append, mem_cons] at hn
    rcases hn with rfl | rfl | rfl | rfl | hn
    · omega
    · omega
    · omega
    · omega
    · exact ih n hn
  | case2 a b =>
    intro n hn
    have := hbyte a
    have := hbyte b
    simp only [mem_cons, not_mem_nil, or_false] at hn
    rcases hn with rfl | rfl | rfl <;> omega
  | case3 a =>
    intro n hn
    have := hbyte a
    simp only [mem_cons, not_mem_nil, or_false] at hn
    rcases hn with rfl | rfl <;> omega
  | case4 => exact fun n hn => (not_mem_nil hn).elim

theorem ofNat_eq {a : UInt8} {n : ℕ} (h : n = a.toNat) : UInt8.ofNat n = a := by
  rw [h, UInt8.ofNat_toNat]

theorem ofSextets_toSextets (bytes : List UInt8) : ofSextets (toSextets bytes) = bytes := by
  have hbyte := UInt8.toNat_lt
  fun_induction toSextets bytes with
  | case1 a b c s ih =>
    have := hbyte a
    have := hbyte b
    have := hbyte c
    rw [cons_append, cons_append, cons_append, cons_append, nil_append,
      ofSextets, ih, ofNat_eq (a := a) (by omega), ofNat_eq (a := b) (by omega),
      ofNat_eq (a := c) (by omega)]
    rfl
  | case2 a b =>
    have := hbyte a
    have := hbyte b
    rw [ofSextets, ofNat_eq (a := a) (by omega), ofNat_eq (a := b) (by omega)]
  | case3 a =>
    have := hbyte a
    rw [ofSextets, ofNat_eq (a := a) (by omega)]
  | case4 => rfl

theorem decodeBytes_encodeBytes (bytes : List UInt8) : decodeBytes (encodeBytes bytes) = bytes := by
  have hletters : (encodeBytes bytes).filterMap sextet = toSextets bytes := by
    rw [encodeBytes, filterMap_map]
    have hsome : ∀ n ∈ toSextets bytes, (sextet ∘ letter) n = some n := fun n hn =>
      sextet_letter (toSextets_lt bytes n hn)
    rw [filterMap_congr hsome, filterMap_some]
  rw [decodeBytes, hletters, ofSextets_toSextets]

/-- `Buffer.from(text, 'utf8').toString('base64url')`. -/
def encodeText (s : String) : String := String.ofList (encodeBytes s.toByteArray.data.toList)

/-- `Buffer.from(text, 'base64url').toString('utf8')`, where that is text. -/
def decodeText (s : String) : Option String :=
  (ByteArray.utf8Decode? ⟨(decodeBytes s.toList).toArray⟩).map fun cs => String.ofList cs.toList

theorem decodeText_encodeText (s : String) : decodeText (encodeText s) = some s := by
  have hbytes : s.toByteArray = s.toList.utf8Encode := by
    rw [← String.toByteArray_ofList, String.ofList_toList]
  rw [decodeText, encodeText, String.toList_ofList, decodeBytes_encodeBytes, Array.toArray_toList,
    hbytes, utf8Decode?_utf8Encode, Option.map_some, toList_toArray, String.ofList_toList]

/-! ### Numbers of a fixed width -/

def digitChar (n : ℕ) : Char := Char.ofNat (48 + n % 10)

/-- The last `k` digits. -/
def pad : ℕ → ℕ → List Char
  | 0, _ => []
  | k + 1, n => pad k (n / 10) ++ [digitChar n]

/-- The value of digits. -/
def value (ds : List Char) : ℕ := ds.foldl (fun n c => 10 * n + (c.toNat - 48)) 0

theorem toNat_digitChar (n : ℕ) : (digitChar n).toNat = 48 + n % 10 := by
  have hall : ∀ k : Fin 10, (Char.ofNat (48 + k)).toNat = 48 + k := by decide
  exact hall ⟨n % 10, Nat.mod_lt n (by decide)⟩

theorem isDigit_digitChar (n : ℕ) : (digitChar n).isDigit = true := by
  have hall : ∀ k : Fin 10, (Char.ofNat (48 + k)).isDigit = true := by decide
  exact hall ⟨n % 10, Nat.mod_lt n (by decide)⟩

theorem length_pad (k n : ℕ) : (pad k n).length = k := by
  induction k generalizing n with
  | zero => rfl
  | succ k ih => rw [pad, length_append, ih, length_singleton]

theorem isDigit_pad {k n : ℕ} : ∀ c ∈ pad k n, c.isDigit = true := by
  induction k generalizing n with
  | zero => exact fun c hc => (not_mem_nil hc).elim
  | succ k ih =>
    intro c hc
    rw [pad, mem_append, mem_singleton] at hc
    rcases hc with hc | rfl
    · exact ih c hc
    · exact isDigit_digitChar n

theorem value_pad {k n : ℕ} (h : n < 10 ^ k) : value (pad k n) = n := by
  induction k generalizing n with
  | zero =>
    obtain rfl : n = 0 := by simpa using h
    rfl
  | succ k ih =>
    have hdiv : n / 10 < 10 ^ k := by
      rw [Nat.div_lt_iff_lt_mul (by decide), ← Nat.pow_succ]
      exact h
    have hprefix := ih hdiv
    rw [value] at hprefix
    rw [pad, value, foldl_append, hprefix, foldl_cons, foldl_nil, toNat_digitChar]
    omega

/-! ### Instants -/

/-- `k` digits. -/
def digits (k : ℕ) (s : List Char) : Option (ℕ × List Char) :=
  if (s.take k).length = k ∧ (s.take k).all Char.isDigit then some (value (s.take k), s.drop k)
  else none

def char (c : Char) : List Char → Option (List Char)
  | d :: s => if d = c then some s else none
  | [] => none

theorem digits_pad {k n : ℕ} (h : n < 10 ^ k) (s : List Char) :
    digits k (pad k n ++ s) = some (n, s) := by
  have htake : (pad k n ++ s).take k = pad k n := by
    rw [take_append_of_le_length (length_pad k n).ge, take_of_length_le (length_pad k n).le]
  have hdrop : (pad k n ++ s).drop k = s := drop_left' (length_pad k n)
  rw [digits, htake, hdrop, if_pos ⟨length_pad k n, all_eq_true.2 isDigit_pad⟩, value_pad h]

theorem char_cons (c : Char) (s : List Char) : char c (c :: s) = some s := if_pos rfl

/-- Four digits, or a sign and six. -/
def yearText (y : ℤ) : List Char :=
  if 0 ≤ y ∧ y ≤ 9999 then pad 4 y.toNat
  else (if 0 ≤ y then '+' else '-') :: pad 6 y.natAbs

def readYear (s : List Char) : Option (ℤ × List Char) :=
  match s with
  | '+' :: s => (digits 6 s).map fun x => ((x.1 : ℤ), x.2)
  | '-' :: s => (digits 6 s).map fun x => (-(x.1 : ℤ), x.2)
  | s => (digits 4 s).map fun x => ((x.1 : ℤ), x.2)

/-- Numbers of fixed widths, each after a separator, and a last letter. -/
def writeFields : List (Char × ℕ) → List ℕ → List Char
  | (c, k) :: format, n :: ns => c :: (pad k n ++ writeFields format ns)
  | _, _ => ['Z']

def readFields : List (Char × ℕ) → List Char → Option (List ℕ)
  | [], s => if s = ['Z'] then some [] else none
  | (c, k) :: format, s =>
    (char c s).bind fun s => (digits k s).bind fun x => (readFields format x.2).map (x.1 :: ·)

/-- The month, the day of the month, and the time of the day to a millisecond. -/
def format : List (Char × ℕ) := [('-', 2), ('-', 2), ('T', 2), (':', 2), (':', 2), ('.', 3)]

/-- `toISOString`, of an instant in milliseconds. -/
def toISO (t : ℤ) : List Char :=
  let day := t / Calendar.msPerDay
  let ms := (t % Calendar.msPerDay).toNat
  let month := Calendar.monthOf day
  yearText (month / 12) ++ writeFields format
    [(month % 12).toNat + 1, (day - Calendar.monthStart month).toNat + 1, ms / 3600000,
      ms / 60000 % 60, ms / 1000 % 60, ms % 1000]

/-- The instant of a year and these numbers, if there is one. -/
def instant (year : ℤ) : List ℕ → Option ℤ
  | [month, day, hour, minute, second, ms] =>
    let first := Calendar.monthStart (12 * year + (month - 1))
    let next := Calendar.monthStart (12 * year + month)
    if 1 ≤ month ∧ month ≤ 12 ∧ 1 ≤ day ∧ day ≤ next - first ∧ hour < 24 ∧ minute < 60 ∧
        second < 60 then
      some ((first + (day - 1)) * Calendar.msPerDay +
        (((hour * 60 + minute) * 60 + second) * 1000 + ms))
    else none
  | _ => none

/-- The instant that such a text says. -/
def parseISO (s : List Char) : Option ℤ :=
  (readYear s).bind fun x => (readFields format x.2).bind fun ns => instant x.1 ns

/-- The instants a date can be: a hundred million days about the start of 1970. -/
def InRange (t : ℤ) : Prop := -8640000000000000 ≤ t ∧ t ≤ 8640000000000000

theorem readYear_yearText {y : ℤ} (h : y.natAbs < 10 ^ 6) (s : List Char) :
    readYear (yearText y ++ s) = some (y, s) := by
  unfold yearText
  split
  · rename_i hshort
    have hread : digits 4 (pad 4 y.toNat ++ s) = some (y.toNat, s) := digits_pad (by omega) s
    -- the first character is a digit, so that the text starts with no sign
    obtain ⟨c, l, hpad⟩ : ∃ c l, pad 4 y.toNat = c :: l := ⟨_, _, rfl⟩
    have hdigit : c.isDigit = true := isDigit_pad c (hpad ▸ mem_cons_self ..)
    rw [hpad, cons_append] at hread ⊢
    unfold readYear
    split
    · rename_i heq
      rw [(List.cons.inj heq).1] at hdigit
      exact absurd hdigit (by decide)
    · rename_i heq
      rw [(List.cons.inj heq).1] at hdigit
      exact absurd hdigit (by decide)
    · rw [hread, Option.map_some, Int.toNat_of_nonneg hshort.1]
  · have hread : digits 6 (pad 6 y.natAbs ++ s) = some (y.natAbs, s) := digits_pad h s
    split
    · rw [cons_append, readYear, hread, Option.map_some, Int.natAbs_of_nonneg ‹_›]
    · rw [cons_append, readYear, hread, Option.map_some]
      have hneg : -(y.natAbs : ℤ) = y := by omega
      rw [hneg]

theorem readFields_writeFields {format : List (Char × ℕ)} {ns : List ℕ}
    (h : List.Forall₂ (fun x n => n < 10 ^ x.2) format ns) :
    readFields format (writeFields format ns) = some ns := by
  induction h with
  | nil => rfl
  | @cons x n format ns hn _ ih =>
    obtain ⟨c, k⟩ := x
    rw [writeFields, readFields, char_cons, Option.bind_some, digits_pad hn, Option.bind_some, ih,
      Option.map_some]

/-- The years of such instants have at most six digits. -/
theorem InRange.year {t : ℤ} (h : InRange t) :
    (Calendar.monthOf (t / Calendar.msPerDay) / 12).natAbs < 10 ^ 6 := by
  have hday : -100000000 ≤ t / Calendar.msPerDay ∧ t / Calendar.msPerDay ≤ 100000000 := by
    unfold InRange at h
    unfold Calendar.msPerDay
    omega
  have hle := Calendar.monthStart_monthOf_le (t / Calendar.msPerDay)
  have hlt := Calendar.lt_monthStart_monthOf (t / Calendar.msPerDay)
  generalize Calendar.monthOf (t / Calendar.msPerDay) = month at hle hlt ⊢
  have hupper : month < 12 * 999999 := by
    by_contra hlate
    have hmono := Calendar.monthStart_mono (not_lt.1 hlate)
    have hvalue : (100000000 : ℤ) < Calendar.monthStart (12 * 999999) := by decide
    omega
  have hlower : -(12 * 999999) < month := by
    by_contra hearly
    have hmono := Calendar.monthStart_mono (show month + 1 ≤ -(12 * 999999) + 1 by omega)
    have hvalue : Calendar.monthStart (-(12 * 999999) + 1) < -100000000 := by decide
    omega
  omega

/-- A month has at most 31 days. -/
theorem monthStart_succ_le (month : ℤ) :
    Calendar.monthStart (month + 1) ≤ Calendar.monthStart month + 31 := by
  have hyear := Calendar.marchStart_succ_le ((month - 2) / 12)
  unfold Calendar.monthStart
  rcases eq_or_ne ((month - 2) % 12) 11 with hlast | hlast
  · have hdiv : (month + 1 - 2) / 12 = (month - 2) / 12 + 1 := by omega
    have hmod : (month + 1 - 2) % 12 = 0 := by omega
    rw [hdiv, hmod, hlast]
    omega
  · have hdiv : (month + 1 - 2) / 12 = (month - 2) / 12 := by omega
    have hmod : (month + 1 - 2) % 12 = (month - 2) % 12 + 1 := by omega
    rw [hdiv, hmod]
    omega

/-- A date reads back the instant that it wrote. -/
theorem parseISO_toISO {t : ℤ} (h : InRange t) : parseISO (toISO t) = some t := by
  have hle := Calendar.monthStart_monthOf_le (t / Calendar.msPerDay)
  have hlt := Calendar.lt_monthStart_monthOf (t / Calendar.msPerDay)
  have hyear := h.year
  have hsplit := Int.mul_ediv_add_emod t Calendar.msPerDay
  have hms : 0 ≤ t % Calendar.msPerDay ∧ t % Calendar.msPerDay < 86400000 := by
    unfold Calendar.msPerDay
    omega
  have hlong := monthStart_succ_le (Calendar.monthOf (t / Calendar.msPerDay))
  unfold toISO parseISO
  simp only
  generalize Calendar.monthOf (t / Calendar.msPerDay) = month at *
  generalize t / Calendar.msPerDay = day at *
  have hmsnat : ((t % Calendar.msPerDay).toNat : ℤ) = t % Calendar.msPerDay :=
    Int.toNat_of_nonneg hms.1
  generalize (t % Calendar.msPerDay).toNat = ms at *
  have hfields : readFields format (writeFields format [(month % 12).toNat + 1,
      (day - Calendar.monthStart month).toNat + 1, ms / 3600000, ms / 60000 % 60,
      ms / 1000 % 60, ms % 1000]) = some [(month % 12).toNat + 1,
      (day - Calendar.monthStart month).toNat + 1, ms / 3600000, ms / 60000 % 60,
      ms / 1000 % 60, ms % 1000] := by
    refine readFields_writeFields ?_
    simp only [format, forall₂_cons, List.Forall₂.nil, and_true]
    omega
  rw [readYear_yearText hyear, Option.bind_some, hfields, Option.bind_some, instant]
  have hfirst : 12 * (month / 12) + ((((month % 12).toNat + 1 : ℕ) : ℤ) - 1) = month := by omega
  have hnext : 12 * (month / 12) + (((month % 12).toNat + 1 : ℕ) : ℤ) = month + 1 := by omega
  simp only [hfirst, hnext]
  rw [if_pos (by omega), ← hsplit, ← hmsnat]
  unfold Calendar.msPerDay
  congr 1
  omega

/-! ### Dates -/

/-- The date of a day. -/
def dateText (day : ℤ) : List Char :=
  let month := Calendar.monthOf day
  yearText (month / 12) ++ '-' :: (pad 2 ((month % 12).toNat + 1) ++
    '-' :: pad 2 ((day - Calendar.monthStart month).toNat + 1))

/-- `toISOString().slice(0, 10)`. -/
def dateOf (t : ℤ) : List Char := (toISO t).take 10

/-- The year of the day is written with four digits. -/
def FourDigit (day : ℤ) : Prop :=
  0 ≤ Calendar.monthOf day / 12 ∧ Calendar.monthOf day / 12 ≤ 9999

instance (day : ℤ) : Decidable (FourDigit day) := inferInstanceAs (Decidable (_ ∧ _))

/-- The time of the day, from the milliseconds since midnight. -/
def timeText (ms : ℕ) : List Char :=
  writeFields [('T', 2), (':', 2), (':', 2), ('.', 3)]
    [ms / 3600000, ms / 60000 % 60, ms / 1000 % 60, ms % 1000]

/-- An instant is written as the date of its day and the time. -/
theorem toISO_eq (t : ℤ) :
    toISO t = dateText (t / Calendar.msPerDay) ++ timeText (t % Calendar.msPerDay).toNat := by
  rw [toISO, dateText]
  simp only [format, timeText, writeFields, append_assoc, cons_append]

theorem toISO_midnight (day : ℤ) :
    toISO (day * Calendar.msPerDay) = dateText day ++ timeText 0 := by
  rw [toISO_eq, Int.mul_ediv_cancel _ (by decide), Int.mul_emod_left]
  rfl

theorem length_dateText {day : ℤ} :
    (FourDigit day → (dateText day).length = 10) ∧ (¬FourDigit day → (dateText day).length = 13) := by
  rw [dateText, FourDigit]
  simp only [length_append, length_cons, length_pad, yearText]
  constructor <;> intro h
  · rw [if_pos h, length_pad]
  · rw [if_neg h, length_cons, length_pad]

theorem FourDigit.inRange {day : ℤ} (h : FourDigit day) : InRange (day * Calendar.msPerDay) := by
  have hlower := Calendar.monthStart_mono (show 0 ≤ Calendar.monthOf day by have := h.1; omega)
  have hupper := Calendar.monthStart_mono
    (show Calendar.monthOf day + 1 ≤ 120000 by have := h.2; omega)
  have hle := Calendar.monthStart_monthOf_le day
  have hlt := Calendar.lt_monthStart_monthOf day
  rw [show Calendar.monthStart 0 = -719528 by decide] at hlower
  rw [show Calendar.monthStart 120000 = 2932897 by decide] at hupper
  unfold InRange Calendar.msPerDay
  omega

theorem dateText_injective {d d' : ℤ} (h : FourDigit d) (h' : FourDigit d')
    (heq : dateText d = dateText d') : d = d' := by
  have hread := parseISO_toISO h.inRange
  rw [toISO_midnight, heq, ← toISO_midnight, parseISO_toISO h'.inRange, Option.some.injEq] at hread
  exact (Int.eq_of_mul_eq_mul_right (by decide) hread).symm

/-- Ten characters hold a date of a year of four digits, and no other. -/
theorem dateOf_eq_dateText_iff (t : ℤ) :
    dateOf t = dateText (t / Calendar.msPerDay) ↔ FourDigit (t / Calendar.msPerDay) := by
  rw [dateOf, toISO_eq]
  constructor
  · intro h
    by_contra hlong
    have hlength := congrArg List.length h
    rw [length_dateText.2 hlong, length_take, length_append] at hlength
    omega
  · intro h
    rw [take_append_of_le_length (length_dateText.1 h).ge,
      take_of_length_le (length_dateText.1 h).le]

/-- Such a date tells its day from every other instant. -/
theorem dateOf_eq_iff {t d : ℤ} (hd : FourDigit d) :
    dateOf t = dateText d ↔ t / Calendar.msPerDay = d := by
  constructor
  · intro h
    by_cases ht : FourDigit (t / Calendar.msPerDay)
    · exact dateText_injective ht hd (((dateOf_eq_dateText_iff t).2 ht).symm.trans h)
    · -- Longer years start with a sign, and the others with a digit.
      exfalso
      have hhead := congrArg List.head? h
      unfold FourDigit at ht hd
      rw [dateOf, toISO_eq, dateText, yearText, if_neg ht, dateText, yearText, if_pos hd] at hhead
      simp only [cons_append, take_succ_cons, head?_cons] at hhead
      have hmem : (if 0 ≤ Calendar.monthOf (t / Calendar.msPerDay) / 12 then '+' else '-')
          ∈ pad 4 (Calendar.monthOf d / 12).toNat := by
        have hne : pad 4 (Calendar.monthOf d / 12).toNat ≠ [] := fun hnil => by
          have := congrArg List.length hnil
          rw [length_pad] at this
          cases this
        rw [head?_append_of_ne_nil _ hne] at hhead
        exact mem_of_head? hhead.symm
      have hdigit := isDigit_pad _ hmem
      split_ifs at hdigit <;> exact absurd hdigit (by decide)
  · rintro rfl
    exact (dateOf_eq_dateText_iff t).2 hd

end Encoding
