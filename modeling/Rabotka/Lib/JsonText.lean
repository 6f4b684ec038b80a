import Rabotka.Lib.NumberText

/-!
# JSON as text

`Json.text` writes a JSON value without spaces, with its fields in the order they have. The text
determines the value (`Json.text_inj`): strings end at the first quote that is not escaped
(`quote_inj`), numbers where nothing of a number follows, and arrays and objects at the bracket
that closes them (`bracket_inj`).
-/

namespace Rabotka.Lib.JsonText

open NumberText List

abbrev Units := List UInt16

/-! ### Strings -/

def quoteUnit : UInt16 := 34
def backslash : UInt16 := 92

/-- A hexadecimal digit, in lower case. -/
def hexUnit (d : ℕ) : UInt16 :=
  UInt16.ofNat (if d < 10 then 48 + d else 87 + d)

/-- `\uXXXX`. -/
def hexEscape (x : UInt16) : Units :=
  [backslash, 117, hexUnit (x.toNat / 4096), hexUnit (x.toNat / 256 % 16),
    hexUnit (x.toNat / 16 % 16), hexUnit (x.toNat % 16)]

/-- The letter of a short escape: `\b`, `\t`, `\n`, `\f`, `\r`, `\"` and `\\`. -/
def shortEscape (x : UInt16) : Option UInt16 :=
  if x = 8 then some 98 else if x = 9 then some 116 else if x = 10 then some 110
  else if x = 12 then some 102 else if x = 13 then some 114
  else if x = quoteUnit then some quoteUnit
  else if x = backslash then some backslash else none

/-- How a unit is escaped. -/
def escape (x : UInt16) : Units :=
  match shortEscape x with
  | some c => [backslash, c]
  | none => hexEscape x

/-- A high surrogate. -/
def isHigh (x : UInt16) : Bool :=
  0xD800 ≤ x && x ≤ 0xDBFF

/-- A low surrogate. -/
def isLow (x : UInt16) : Bool :=
  0xDC00 ≤ x && x ≤ 0xDFFF

/-- What must be escaped, apart from surrogates that are not in a pair. -/
def mustEscape (x : UInt16) : Bool :=
  x < 32 || x == quoteUnit || x == backslash

/-- The units of a string between the quotes. Surrogate pairs stay as they are, other surrogates
are escaped; `paired` says that the unit is the second one of a pair. -/
def quoteFrom : Bool → Units → Units
  | _, [] => []
  | true, x :: rest => x :: quoteFrom false rest
  | false, x :: rest =>
    if isHigh x && rest.head?.any isLow then x :: quoteFrom true rest
    else if mustEscape x || isHigh x || isLow x then escape x ++ quoteFrom false rest
    else x :: quoteFrom false rest

/-- `JSON.stringify` of a string. -/
def quote (s : Units) : Units :=
  quoteUnit :: quoteFrom false s ++ [quoteUnit]

/-- A text that stands for a string, unit by unit: as it is, or escaped. -/
inductive Quotes : Units → Units → Prop
  | nil : Quotes [] []
  | literal {x s t} : x ≠ quoteUnit → x ≠ backslash → Quotes s t → Quotes (x :: s) (x :: t)
  | escaped {x s t} : Quotes s t → Quotes (x :: s) (escape x ++ t)

theorem literal_ne {x : UInt16} (h : mustEscape x = false) : x ≠ quoteUnit ∧ x ≠ backslash := by
  rw [mustEscape, Bool.or_eq_false_iff, Bool.or_eq_false_iff] at h
  exact ⟨beq_eq_false_iff_ne.mp h.1.2, beq_eq_false_iff_ne.mp h.2⟩

theorem ne_of_isSurrogate {x : UInt16} (h : isHigh x = true ∨ isLow x = true) :
    x ≠ quoteUnit ∧ x ≠ backslash := by
  constructor
  · rintro rfl
    exact h.elim (by decide) (by decide)
  · rintro rfl
    exact h.elim (by decide) (by decide)

theorem quotes_quoteFrom (paired : Bool) (s : Units)
    (hpaired : paired = true → s.head?.any isLow = true) : Quotes s (quoteFrom paired s) := by
  induction s generalizing paired with
  | nil => cases paired <;> exact Quotes.nil
  | cons x s ih =>
    cases paired with
    | true =>
      obtain ⟨hquote, hbackslash⟩ := ne_of_isSurrogate (Or.inr (hpaired rfl) : _ ∨ isLow x = true)
      exact Quotes.literal hquote hbackslash (ih false fun h => nomatch h)
    | false =>
      rw [quoteFrom]
      split_ifs with hpair hescape
      · rw [Bool.and_eq_true] at hpair
        obtain ⟨hquote, hbackslash⟩ := ne_of_isSurrogate (Or.inl hpair.1 : isHigh x = true ∨ _)
        exact Quotes.literal hquote hbackslash (ih true fun _ => hpair.2)
      · exact Quotes.escaped (ih false fun h => nomatch h)
      · rw [Bool.not_eq_true, Bool.or_eq_false_iff, Bool.or_eq_false_iff] at hescape
        obtain ⟨hquote, hbackslash⟩ := literal_ne hescape.1.1
        exact Quotes.literal hquote hbackslash (ih false fun h => nomatch h)

/-! ### Reading strings -/

theorem hexUnit_inj {d d' : ℕ} (hd : d < 16) (hd' : d' < 16) (h : hexUnit d = hexUnit d') :
    d = d' := by
  have hnat := congrArg UInt16.toNat h
  rw [hexUnit, hexUnit, UInt16.toNat_ofNat', UInt16.toNat_ofNat'] at hnat
  split_ifs at hnat <;> omega

theorem hexEscape_inj {x y : UInt16} {t t' : Units} (h : hexEscape x ++ t = hexEscape y ++ t') :
    x = y ∧ t = t' := by
  simp only [hexEscape, cons_append, nil_append, List.cons.injEq, true_and] at h
  obtain ⟨h₁, h₂, h₃, h₄, ht⟩ := h
  have hx := x.toNat_lt
  have hy := y.toNat_lt
  have h₁ := hexUnit_inj (by omega) (by omega) h₁
  have h₂ := hexUnit_inj (by omega) (by omega) h₂
  have h₃ := hexUnit_inj (by omega) (by omega) h₃
  have h₄ := hexUnit_inj (by omega) (by omega) h₄
  exact ⟨UInt16.toNat_inj.mp (by omega), ht⟩

/-- The unit that a letter stands for in a short escape. -/
def unescaped (c : UInt16) : UInt16 :=
  if c = 98 then 8 else if c = 116 then 9 else if c = 110 then 10 else if c = 102 then 12
  else if c = 114 then 13 else c

theorem shortEscape_spec {x c : UInt16} (h : shortEscape x = some c) :
    unescaped c = x ∧ c ≠ 117 := by
  rw [shortEscape] at h
  split_ifs at h with h₁ h₂ h₃ h₄ h₅ h₆ h₇
  all_goals
    obtain rfl := Option.some.inj h
    subst x
    decide

/-- An escape determines its unit, and where it ends. -/
theorem escape_inj {x y : UInt16} {t t' : Units} (h : escape x ++ t = escape y ++ t') :
    x = y ∧ t = t' := by
  rw [escape, escape] at h
  cases hx : shortEscape x with
  | none =>
    cases hy : shortEscape y with
    | none =>
      rw [hx, hy] at h
      exact hexEscape_inj h
    | some c =>
      rw [hx, hy] at h
      exact absurd (List.cons.inj (List.cons.inj h).2).1.symm (shortEscape_spec hy).2
  | some c =>
    cases hy : shortEscape y with
    | none =>
      rw [hx, hy] at h
      exact absurd (List.cons.inj (List.cons.inj h).2).1 (shortEscape_spec hx).2
    | some c' =>
      rw [hx, hy] at h
      obtain ⟨rfl, ht⟩ := List.cons.inj (List.cons.inj h).2
      exact ⟨(shortEscape_spec hx).1.symm.trans (shortEscape_spec hy).1, ht⟩

theorem escape_eq_cons (x : UInt16) : ∃ t, escape x = backslash :: t := by
  rw [escape]
  cases shortEscape x with
  | none => exact ⟨_, rfl⟩
  | some c => exact ⟨[c], rfl⟩

/-- **A quoted text determines its string**, up to the quote that is not escaped. -/
theorem Quotes.inj {s s' t t' r r' : Units} (h : Quotes s t) (h' : Quotes s' t')
    (heq : t ++ quoteUnit :: r = t' ++ quoteUnit :: r') : s = s' ∧ r = r' := by
  induction h generalizing s' t' with
  | nil =>
    cases h' with
    | nil => exact ⟨rfl, (List.cons.inj heq).2⟩
    | literal hquote => exact absurd (List.cons.inj heq).1.symm hquote
    | @escaped y =>
      obtain ⟨u, hu⟩ := escape_eq_cons y
      rw [hu] at heq
      exact absurd (List.cons.inj heq).1 (by decide)
  | @literal x s t hquote hbackslash _ ih =>
    cases h' with
    | nil => exact absurd (List.cons.inj heq).1 hquote
    | literal _ _ h' =>
      obtain ⟨rfl, hrest⟩ := List.cons.inj heq
      obtain ⟨rfl, hr⟩ := ih h' hrest
      exact ⟨rfl, hr⟩
    | @escaped y =>
      obtain ⟨u, hu⟩ := escape_eq_cons y
      rw [hu] at heq
      exact absurd (List.cons.inj heq).1 hbackslash
  | @escaped x s t _ ih =>
    cases h' with
    | nil =>
      obtain ⟨u, hu⟩ := escape_eq_cons x
      rw [hu] at heq
      exact absurd (List.cons.inj heq).1 (by decide)
    | literal _ hbackslash =>
      obtain ⟨u, hu⟩ := escape_eq_cons x
      rw [hu] at heq
      exact absurd (List.cons.inj heq).1.symm hbackslash
    | escaped h' =>
      rw [append_assoc, append_assoc] at heq
      obtain ⟨rfl, hrest⟩ := escape_inj heq
      obtain ⟨rfl, hr⟩ := ih h' hrest
      exact ⟨rfl, hr⟩

theorem quote_inj {s s' r r' : Units} (h : quote s ++ r = quote s' ++ r') : s = s' ∧ r = r' := by
  rw [quote, quote, append_assoc, append_assoc] at h
  exact (quotes_quoteFrom false s fun h => nomatch h).inj
    (quotes_quoteFrom false s' fun h => nomatch h) (List.cons.inj h).2

/-! ### Brackets -/

def comma : UInt16 := 44
def colon : UInt16 := 58

/-- A text goes on with a comma or a closing bracket, or not at all. -/
def Stops (r : Units) : Prop :=
  ∀ u ∈ r.head?, u = comma ∨ u = 93 ∨ u = 125

/-- Parts between brackets, with commas. -/
def bracket (start stop : UInt16) (parts : List Units) : Units :=
  start :: [comma].intercalate parts ++ [stop]

/-- A part can be told from another one where a text stops. -/
def ToldApart (p q : Units) : Prop :=
  ∀ r r', Stops r → Stops r' → p ++ r = q ++ r' → p = q ∧ r = r'

/-- A part does not start as a text stops. -/
def Starts (p : Units) : Prop :=
  ∃ u ∈ p.head?, u ≠ comma ∧ u ≠ 93 ∧ u ≠ 125

theorem stops_nil : Stops [] :=
  fun _ hu => nomatch hu

theorem stops_cons {u : UInt16} (h : u = comma ∨ u = 93 ∨ u = 125) (r : Units) :
    Stops (u :: r) := by
  intro v hv
  obtain rfl := Option.some.inj hv
  exact h

/-- What follows the first part: the bracket that closes, or a comma and the other parts. -/
def afterFirst (stop : UInt16) (parts : List Units) (r : Units) : Units :=
  if parts = [] then stop :: r else comma :: ([comma].intercalate parts ++ stop :: r)

theorem intercalate_append (stop : UInt16) (p : Units) (parts : List Units) (r : Units) :
    [comma].intercalate (p :: parts) ++ stop :: r = p ++ afterFirst stop parts r := by
  cases parts with
  | nil => rw [intercalate_singleton, afterFirst, if_pos rfl]
  | cons q parts =>
    rw [intercalate_cons_cons, afterFirst, if_neg (cons_ne_nil _ _), append_assoc, append_assoc]
    rfl

variable {stop : UInt16}

theorem stops_afterFirst (hstop : stop = 93 ∨ stop = 125) (parts : List Units)
    (r : Units) : Stops (afterFirst stop parts r) := by
  rw [afterFirst]
  split_ifs
  · exact stops_cons (Or.inr hstop) r
  · exact stops_cons (Or.inl rfl) _

theorem comma_ne (hstop : stop = 93 ∨ stop = 125) : comma ≠ stop := by
  rcases hstop with rfl | rfl <;> decide

theorem Starts.ne_stop {p r r' : Units} (hp : Starts p)
    (hstop : stop = 93 ∨ stop = 125) : p ++ r ≠ stop :: r' := by
  obtain ⟨u, hu, -, hbracket, hbrace⟩ := hp
  obtain ⟨rest, rfl⟩ := head?_eq_some_iff.mp (Option.mem_def.mp hu)
  intro h
  obtain rfl : u = stop := (List.cons.inj h).1
  exact hstop.elim hbracket hbrace

/-- The parts can be read off up to the bracket that closes. -/
theorem intercalate_inj (hstop : stop = 93 ∨ stop = 125) {ps qs : List Units}
    (hps : ∀ p ∈ ps, Starts p) (hqs : ∀ q ∈ qs, Starts q)
    (hapart : ∀ p ∈ ps, ∀ q ∈ qs, ToldApart p q) {r r' : Units}
    (h : [comma].intercalate ps ++ stop :: r = [comma].intercalate qs ++ stop :: r') :
    ps = qs ∧ r = r' := by
  induction ps generalizing qs with
  | nil =>
    cases qs with
    | nil => exact ⟨rfl, (List.cons.inj h).2⟩
    | cons q qs =>
      rw [intercalate_append] at h
      exact absurd h.symm ((hqs q mem_cons_self).ne_stop hstop)
  | cons p ps ih =>
    cases qs with
    | nil =>
      rw [intercalate_append] at h
      exact absurd h ((hps p mem_cons_self).ne_stop hstop)
    | cons q qs =>
      rw [intercalate_append, intercalate_append] at h
      obtain ⟨rfl, hafter⟩ := hapart p mem_cons_self q mem_cons_self _ _
        (stops_afterFirst hstop ps r) (stops_afterFirst hstop qs r') h
      rw [afterFirst, afterFirst] at hafter
      have hrest : ps = qs ∧ r = r' := by
        split_ifs at hafter with hnil hnil' hnil'
        · exact ⟨hnil.trans hnil'.symm, (List.cons.inj hafter).2⟩
        · exact absurd (List.cons.inj hafter).1.symm (comma_ne hstop)
        · exact absurd (List.cons.inj hafter).1 (comma_ne hstop)
        · exact ih (fun p hp => hps p (mem_cons_of_mem _ hp))
            (fun q hq => hqs q (mem_cons_of_mem _ hq))
            (fun p hp q hq => hapart p (mem_cons_of_mem _ hp) q (mem_cons_of_mem _ hq))
            (List.cons.inj hafter).2
      exact ⟨congrArg (p :: ·) hrest.1, hrest.2⟩

/-- **Parts between brackets can be read off**, and where the brackets end. -/
theorem bracket_inj {start stop : UInt16} (hstop : stop = 93 ∨ stop = 125) {ps qs : List Units}
    (hps : ∀ p ∈ ps, Starts p) (hqs : ∀ q ∈ qs, Starts q)
    (hapart : ∀ p ∈ ps, ∀ q ∈ qs, ToldApart p q) {r r' : Units}
    (h : bracket start stop ps ++ r = bracket start stop qs ++ r') : ps = qs ∧ r = r' := by
  rw [bracket, bracket, append_assoc, append_assoc] at h
  exact intercalate_inj hstop hps hqs hapart (List.cons.inj h).2

/-! ### Values -/

/-- A JSON value; the fields of an object have an order. -/
inductive Json where
  | null
  | bool (b : Bool)
  | number (x : Finite)
  | string (s : Units)
  | array (items : List Json)
  | object (fields : List (Units × Json))

def nullText : Units := [110, 117, 108, 108]
def trueText : Units := [116, 114, 117, 101]
def falseText : Units := [102, 97, 108, 115, 101]

/-- A field: its name, a colon, its value. -/
def fieldText (name text : Units) : Units :=
  quote name ++ colon :: text

mutual

/-- The text of a value. -/
def Json.text : Json → Units
  | .null => nullText
  | .bool true => trueText
  | .bool false => falseText
  | .number x => x.text
  | .string s => quote s
  | .array items => bracket 91 93 (itemTexts items)
  | .object fields => bracket 123 125 (fieldTexts fields)

/-- The texts of the values in a list. -/
def itemTexts : List Json → List Units
  | [] => []
  | item :: items => item.text :: itemTexts items

/-- The texts of the fields in a list. -/
def fieldTexts : List (Units × Json) → List Units
  | [] => []
  | (name, value) :: fields => fieldText name value.text :: fieldTexts fields

end

theorem itemTexts_eq_map (items : List Json) : itemTexts items = items.map Json.text := by
  induction items with
  | nil => rfl
  | cons item items ih => rw [itemTexts, ih, map_cons]

theorem fieldTexts_eq_map (fields : List (Units × Json)) :
    fieldTexts fields = fields.map fun f => fieldText f.1 f.2.text := by
  induction fields with
  | nil => rfl
  | cons f fields ih => rw [fieldTexts, ih, map_cons]

/-- Induction over the values, with the items of an array and the fields of an object. -/
theorem Json.induct {motive : Json → Prop} (null : motive .null) (bool : ∀ b, motive (.bool b))
    (number : ∀ x, motive (.number x)) (string : ∀ s, motive (.string s))
    (array : ∀ items, (∀ j ∈ items, motive j) → motive (.array items))
    (object : ∀ fields, (∀ f ∈ fields, motive f.2) → motive (.object fields)) : ∀ j, motive j
  | .null => null
  | .bool b => bool b
  | .number x => number x
  | .string s => string s
  | .array items => array items fun j _ => induct null bool number string array object j
  | .object fields => object fields fun f _ => induct null bool number string array object f.2
decreasing_by
  · have := sizeOf_lt_of_mem ‹j ∈ items›
    simp only [Json.array.sizeOf_spec]
    omega
  · have := sizeOf_lt_of_mem ‹f ∈ fields›
    obtain ⟨name, value⟩ := f
    simp only [Json.object.sizeOf_spec, Prod.mk.sizeOf_spec] at this ⊢
    omega

/-! ### Reading values -/

/-- Which kind of value starts with a unit. -/
def headKind (u : UInt16) : ℕ :=
  if u = 110 then 0 else if u = 116 then 1 else if u = 102 then 2 else if u = quoteUnit then 3
  else if u = 91 then 4 else if u = 123 then 5 else 6

/-- The kinds of values, with `true` and `false` apart. -/
def Json.kind : Json → ℕ
  | .null => 0
  | .bool true => 1
  | .bool false => 2
  | .string _ => 3
  | .array _ => 4
  | .object _ => 5
  | .number _ => 6

/-- A number starts with a minus or a digit. -/
theorem head_number (x : Finite) :
    ∃ u, x.text.head? = some u ∧ (u = minus ∨ ∃ d < 10, u = digitUnit d) := by
  cases x with
  | zero => exact ⟨digitUnit 0, rfl, Or.inr ⟨0, by decide, rfl⟩⟩
  | nonzero negative x =>
    cases negative with
    | true => exact ⟨minus, rfl, Or.inl rfl⟩
    | false =>
      obtain ⟨d, hd, hhead⟩ := x.head_text []
      rw [append_nil] at hhead
      exact ⟨digitUnit d, hhead, Or.inr ⟨d, hd, rfl⟩⟩

/-- The first unit tells the kind, and is not where a text stops. -/
theorem Json.head_text (j : Json) :
    ∃ u, j.text.head? = some u ∧ headKind u = j.kind ∧ u ≠ comma ∧ u ≠ 93 ∧ u ≠ 125 := by
  cases j with
  | null => exact ⟨_, rfl, by decide⟩
  | bool b => cases b <;> exact ⟨_, rfl, by decide⟩
  | string s => exact ⟨_, rfl, (by decide : headKind quoteUnit = 3), by decide⟩
  | array items => exact ⟨_, rfl, (by decide : headKind 91 = 4), by decide⟩
  | object fields => exact ⟨_, rfl, (by decide : headKind 123 = 5), by decide⟩
  | number x =>
    obtain ⟨u, hhead, rfl | ⟨d, hd, rfl⟩⟩ := head_number x
    · exact ⟨minus, hhead, (by decide : headKind minus = 6), by decide⟩
    · have hdigit : ∀ d < 10, headKind (digitUnit d) = 6 ∧ digitUnit d ≠ comma
          ∧ digitUnit d ≠ 93 ∧ digitUnit d ≠ 125 := by decide
      exact ⟨digitUnit d, hhead, hdigit d hd⟩

theorem Json.starts_text (j : Json) : Starts j.text := by
  obtain ⟨u, hhead, -, hstarts⟩ := j.head_text
  exact ⟨u, hhead, hstarts⟩

theorem starts_fieldText (name text : Units) : Starts (fieldText name text) :=
  ⟨quoteUnit, rfl, by decide⟩

/-- Values of different kinds have different texts. -/
theorem Json.kind_eq {j j' : Json} {r r' : Units} (h : j.text ++ r = j'.text ++ r') :
    j.kind = j'.kind := by
  obtain ⟨u, hhead, hkind, -⟩ := j.head_text
  obtain ⟨u', hhead', hkind', -⟩ := j'.head_text
  obtain ⟨t, ht⟩ := head?_eq_some_iff.mp hhead
  obtain ⟨t', ht'⟩ := head?_eq_some_iff.mp hhead'
  rw [ht, ht'] at h
  rw [← hkind, ← hkind', (List.cons.inj h).1]

/-- Nothing of a number follows where a text stops. -/
theorem Stops.ends {r : Units} (h : Stops r) : Ends r := by
  have hcases : ∀ u : UInt16, u = comma ∨ u = 93 ∨ u = 125 →
      (∀ d < 10, u ≠ digitUnit d) ∧ u ≠ point ∧ u ≠ exponentUnit := by
    rintro u (rfl | rfl | rfl) <;> decide
  exact ⟨fun u hu => (hcases u (h u hu)).1, fun u hu => (hcases u (h u hu)).2.1,
    fun u hu => (hcases u (h u hu)).2.2⟩

theorem fieldText_inj {name name' text text' r r' : Units} (htext : ToldApart text text')
    (hr : Stops r) (hr' : Stops r') (h : fieldText name text ++ r = fieldText name' text' ++ r') :
    name = name' ∧ text = text' ∧ r = r' := by
  rw [fieldText, fieldText, append_assoc, append_assoc] at h
  obtain ⟨rfl, hvalue⟩ := quote_inj h
  obtain ⟨rfl, hrest⟩ := htext r r' hr hr' (List.cons.inj hvalue).2
  exact ⟨rfl, rfl, hrest⟩

/-- Lists with the same texts are equal, if the texts tell their members apart. -/
theorem eq_of_map_eq {α : Type*} {text : α → Units} {l l' : List α}
    (hinj : ∀ x ∈ l, ∀ y, text x = text y → x = y) (h : l.map text = l'.map text) : l = l' := by
  induction l generalizing l' with
  | nil => exact (map_eq_nil_iff.mp h.symm).symm
  | cons x l ih =>
    cases l' with
    | nil => exact nomatch h
    | cons y l' =>
      obtain ⟨hhead, htail⟩ := List.cons.inj h
      rw [hinj x mem_cons_self y hhead, ih (fun z hz => hinj z (mem_cons_of_mem x hz)) htail]

/-- **The text determines the value**, and where it ends, if the text that follows stops it. -/
theorem Json.text_append_inj (j : Json) : ∀ (j' : Json) (r r' : Units), Stops r → Stops r' →
    j.text ++ r = j'.text ++ r' → j = j' ∧ r = r' := by
  induction j using Json.induct with
  | null =>
    intro j' r r' _ _ h
    cases j' with
    | null => exact ⟨rfl, append_cancel_left h⟩
    | bool b => cases b <;> exact absurd (kind_eq h) (by decide)
    | _ => exact absurd (kind_eq h) (by simp [kind])
  | bool b =>
    intro j' r r' _ _ h
    cases j' with
    | bool b' =>
      have hkind := kind_eq h
      cases b <;> cases b'
      · exact ⟨rfl, append_cancel_left h⟩
      · exact absurd hkind (by decide)
      · exact absurd hkind (by decide)
      · exact ⟨rfl, append_cancel_left h⟩
    | _ => cases b <;> exact absurd (kind_eq h) (by simp [kind])
  | number x =>
    intro j' r r' hr hr' h
    cases j' with
    | number x' =>
      obtain ⟨rfl, hrest⟩ := Finite.text_inj hr.ends hr'.ends h
      exact ⟨rfl, hrest⟩
    | bool b => cases b <;> exact absurd (kind_eq h) (by simp [kind])
    | _ => exact absurd (kind_eq h) (by simp [kind])
  | string s =>
    intro j' r r' _ _ h
    cases j' with
    | string s' =>
      obtain ⟨rfl, hrest⟩ := quote_inj h
      exact ⟨rfl, hrest⟩
    | bool b => cases b <;> exact absurd (kind_eq h) (by simp [kind])
    | _ => exact absurd (kind_eq h) (by simp [kind])
  | array items ih =>
    intro j' r r' _ _ h
    cases j' with
    | array items' =>
      rw [text, text, itemTexts_eq_map, itemTexts_eq_map] at h
      have hstarts : ∀ items : List Json, ∀ p ∈ items.map Json.text, Starts p := by
        intro items p hp
        obtain ⟨item, -, rfl⟩ := mem_map.mp hp
        exact item.starts_text
      have hapart : ∀ p ∈ items.map Json.text, ∀ q ∈ items'.map Json.text, ToldApart p q := by
        intro p hp q hq r r' hr hr' h
        obtain ⟨item, hitem, rfl⟩ := mem_map.mp hp
        obtain ⟨item', -, rfl⟩ := mem_map.mp hq
        obtain ⟨rfl, hrest⟩ := ih item hitem item' r r' hr hr' h
        exact ⟨rfl, hrest⟩
      obtain ⟨hitems, hrest⟩ := bracket_inj (Or.inl rfl) (hstarts items) (hstarts items') hapart h
      refine ⟨congrArg Json.array (eq_of_map_eq (fun item hitem item' heq => ?_) hitems), hrest⟩
      exact (ih item hitem item' [] [] stops_nil stops_nil (congrArg (· ++ []) heq)).1
    | bool b => cases b <;> exact absurd (kind_eq h) (by simp [kind])
    | _ => exact absurd (kind_eq h) (by simp [kind])
  | object fields ih =>
    intro j' r r' _ _ h
    cases j' with
    | object fields' =>
      rw [text, text, fieldTexts_eq_map, fieldTexts_eq_map] at h
      have hstarts : ∀ fields : List (Units × Json),
          ∀ p ∈ fields.map fun f => fieldText f.1 f.2.text, Starts p := by
        intro fields p hp
        obtain ⟨f, -, rfl⟩ := mem_map.mp hp
        exact starts_fieldText f.1 f.2.text
      have htold : ∀ f ∈ fields, ∀ f' : Units × Json, ∀ r r', Stops r → Stops r' →
          fieldText f.1 f.2.text ++ r = fieldText f'.1 f'.2.text ++ r' → f = f' ∧ r = r' := by
        intro f hf f' r r' hr hr' h
        have hvalue : ToldApart f.2.text f'.2.text := by
          intro r r' hr hr' h
          obtain ⟨heq, hrest⟩ := ih f hf f'.2 r r' hr hr' h
          exact ⟨congrArg Json.text heq, hrest⟩
        obtain ⟨hname, htext, hrest⟩ := fieldText_inj hvalue hr hr' h
        have heq := (ih f hf f'.2 [] [] stops_nil stops_nil (congrArg (· ++ []) htext)).1
        exact ⟨Prod.ext hname heq, hrest⟩
      have hapart : ∀ p ∈ fields.map (fun f => fieldText f.1 f.2.text),
          ∀ q ∈ fields'.map (fun f => fieldText f.1 f.2.text), ToldApart p q := by
        intro p hp q hq r r' hr hr' h
        obtain ⟨f, hf, rfl⟩ := mem_map.mp hp
        obtain ⟨f', -, rfl⟩ := mem_map.mp hq
        obtain ⟨rfl, hrest⟩ := htold f hf f' r r' hr hr' h
        exact ⟨rfl, hrest⟩
      obtain ⟨hfields, hrest⟩ :=
        bracket_inj (Or.inr rfl) (hstarts fields) (hstarts fields') hapart h
      refine ⟨congrArg Json.object (eq_of_map_eq (fun f hf f' heq => ?_) hfields), hrest⟩
      exact (htold f hf f' [] [] stops_nil stops_nil (congrArg (· ++ []) heq)).1
    | bool b => cases b <;> exact absurd (kind_eq h) (by simp [kind])
    | _ => exact absurd (kind_eq h) (by simp [kind])

/-- **The text of a value determines the value.** -/
theorem Json.text_inj {j j' : Json} (h : j.text = j'.text) : j = j' :=
  (j.text_append_inj j' [] [] stops_nil stops_nil (congrArg (· ++ []) h)).1

end Rabotka.Lib.JsonText
