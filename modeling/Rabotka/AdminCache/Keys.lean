import Rabotka.Lib.JsonText
import Rabotka.Lib.Trim

/-!
# The keys of cached reads

`listKey` and `dashboardKey` hash what `stableStringify` writes the filters to: as JSON, without
undefined fields, the others in the order of their names. Filters are objects and arrays of
strings, numbers, booleans, null, undefined and dates.

The text says what JSON keeps of the canonical form of the filters (`stableStringify_eq`), and no
less, as the text of a JSON value determines the value. So filters share a key if and only if they
become equal when a date is written as an object without fields, and what is undefined or no finite
number as null (`keys_tell_filters_apart_iff`); two different dates always do (`dates_share_key`).
-/

namespace Rabotka.AdminCache.Keys

open Lib.JsonText Lib.NumberText Lib.Trim List

/-! ### Filters -/

/-- A number. -/
inductive Number where
  | nan
  | infinity (negative : Bool)
  | negativeZero
  | finite (x : Finite)

/-- A filter, or a part of one. A date is an object that holds an instant, or none if it is
invalid, and has no fields of its own. -/
inductive Value where
  | null
  | undefined
  | bool (b : Bool)
  | number (x : Number)
  | string (s : Units)
  | date (time : Option ℤ)
  | array (items : List Value)
  | object (fields : List (Units × Value))

def Value.isUndefined : Value → Bool
  | .undefined => true
  | _ => false

/-! ### The code -/

/-- The order of names, by their units. -/
def NameLe (a b : Units) : Prop :=
  a.map UInt16.toNat ≤ b.map UInt16.toNat

instance (a b : Units) : Decidable (NameLe a b) :=
  inferInstanceAs (Decidable (a.map UInt16.toNat ≤ b.map UInt16.toNat))

/-- `.sort(([a], [b]) => (a < b ? -1 : a > b ? 1 : 0))`. -/
def sortByName {α : Type*} (fields : List (Units × α)) : List (Units × α) :=
  fields.insertionSort fun f g => NameLe f.1 g.1

/-- `JSON.stringify` of a number. -/
def numberText : Number → Units
  | .nan => nullText
  | .infinity _ => nullText
  | .negativeZero => Finite.zero.text
  | .finite x => x.text

mutual

/-- `stableStringify`. The names alone decide the order of the fields, so that they are sorted when
their values are written. -/
def stableStringify : Value → Units
  | .null => nullText
  | .undefined => nullText
  | .bool true => trueText
  | .bool false => falseText
  | .number x => numberText x
  | .string s => quote s
  | .date _ => bracket 123 125 []
  | .array items => bracket 91 93 (stringifyItems items)
  | .object fields =>
    bracket 123 125 ((sortByName (stringifyFields fields)).map fun f => fieldText f.1 f.2)

/-- `value.map(stableStringify)`. -/
def stringifyItems : List Value → List Units
  | [] => []
  | item :: items => stableStringify item :: stringifyItems items

/-- The fields that are not undefined, with what their values are written to. -/
def stringifyFields : List (Units × Value) → List (Units × Units)
  | [] => []
  | (name, value) :: fields =>
    if value.isUndefined then stringifyFields fields
    else (name, stableStringify value) :: stringifyFields fields

end

variable (sha1 : Units → Units) (env entity : Units)

/-- `hashFilters`. -/
def hashFilters (filters : Value) : Units :=
  sha1 (stableStringify filters)

/-- `REDIS_KEY_PREFIX`. -/
def redisKeyPrefix : Units :=
  units "rabotka:" ++ env ++ units ":"

/-- `listKey`. -/
def listKey (filters : Value) : Units :=
  redisKeyPrefix env ++ units "admin:list:" ++ entity ++ units ":" ++ hashFilters sha1 filters

/-- `filters: unknown = {}`. -/
def givenFilters : Value → Value
  | .undefined => .object []
  | filters => filters

/-- `dashboardKey`. -/
def dashboardKey (scope : Units) (filters : Value) : Units :=
  redisKeyPrefix env ++ units "admin:dashboard:" ++ scope ++ units ":"
    ++ hashFilters sha1 (givenFilters filters)

/-! ### Equal filters -/

mutual

/-- A filter without its undefined fields, with the others in the order of their names; there is
one zero. -/
def canonical : Value → Value
  | .number .negativeZero => .number (.finite .zero)
  | .array items => .array (canonicalItems items)
  | .object fields => .object (sortByName (canonicalFields fields))
  | .null => .null
  | .undefined => .undefined
  | .bool b => .bool b
  | .number .nan => .number .nan
  | .number (.infinity negative) => .number (.infinity negative)
  | .number (.finite x) => .number (.finite x)
  | .string s => .string s
  | .date time => .date time

def canonicalItems : List Value → List Value
  | [] => []
  | item :: items => canonical item :: canonicalItems items

def canonicalFields : List (Units × Value) → List (Units × Value)
  | [] => []
  | (name, value) :: fields =>
    if value.isUndefined then canonicalFields fields
    else (name, canonical value) :: canonicalFields fields

end

/-- Filters are equal if they are after removing undefined fields, in any order of the fields. -/
def Same (v w : Value) : Prop :=
  canonical v = canonical w

mutual

/-- What JSON keeps of a filter: dates become empty objects, and what is undefined, or no finite
number, becomes null. -/
def kept : Value → Json
  | .null => .null
  | .undefined => .null
  | .bool b => .bool b
  | .number .nan => .null
  | .number (.infinity _) => .null
  | .number .negativeZero => .number .zero
  | .number (.finite x) => .number x
  | .string s => .string s
  | .date _ => .object []
  | .array items => .array (keptItems items)
  | .object fields => .object (keptFields fields)

def keptItems : List Value → List Json
  | [] => []
  | item :: items => kept item :: keptItems items

def keptFields : List (Units × Value) → List (Units × Json)
  | [] => []
  | (name, value) :: fields => (name, kept value) :: keptFields fields

end

/-! ### What the filters are written to -/

theorem map_sortByName {α β : Type*} (g : α → β) (fields : List (Units × α)) :
    (sortByName fields).map (fun f => (f.1, g f.2))
      = sortByName (fields.map fun f => (f.1, g f.2)) :=
  map_insertionSort _ _ _ fields fun _ _ _ _ => Iff.rfl

theorem keptFields_eq_map (fields : List (Units × Value)) :
    keptFields fields = fields.map fun f => (f.1, kept f.2) := by
  induction fields with
  | nil => rfl
  | cons f fields ih => rw [keptFields, ih, map_cons]

mutual

/-- **A filter is written to what JSON keeps of its canonical form.** -/
theorem stableStringify_eq : ∀ v, stableStringify v = (kept (canonical v)).text
  | .null => rfl
  | .undefined => rfl
  | .bool true => rfl
  | .bool false => rfl
  | .number .nan => rfl
  | .number (.infinity _) => rfl
  | .number .negativeZero => rfl
  | .number (.finite _) => rfl
  | .string _ => rfl
  | .date _ => rfl
  | .array items => by
    rw [stableStringify, stringifyItems_eq items]
    rfl
  | .object fields => by
    rw [stableStringify, stringifyFields_eq fields, canonical, kept, Json.text,
      fieldTexts_eq_map, keptFields_eq_map, map_map,
      ← map_sortByName (fun value => (kept value).text), map_map]
    rfl

theorem stringifyItems_eq : ∀ items,
    stringifyItems items = itemTexts (keptItems (canonicalItems items))
  | [] => rfl
  | item :: items => by
    rw [stringifyItems, stableStringify_eq item, stringifyItems_eq items]
    rfl

theorem stringifyFields_eq : ∀ fields,
    stringifyFields fields = (canonicalFields fields).map fun f => (f.1, (kept f.2).text)
  | [] => rfl
  | (name, value) :: fields => by
    rw [stringifyFields, canonicalFields, stringifyFields_eq fields]
    split_ifs
    · rfl
    · rw [stableStringify_eq value]
      rfl

end

/-- Two filters are written alike if JSON keeps the same of their canonical forms. -/
theorem stableStringify_eq_iff (v w : Value) :
    stableStringify v = stableStringify w ↔ kept (canonical v) = kept (canonical w) := by
  rw [stableStringify_eq, stableStringify_eq]
  exact ⟨Json.text_inj, congrArg Json.text⟩

/-! ### The keys -/

/-- The filters stay apart when dates become empty objects, and what is undefined or no finite
number becomes null. -/
def KeptApart (v w : Value) : Prop :=
  kept (canonical v) = kept (canonical w) → Same v w

/-- Equal keys are equal texts. -/
theorem hashFilters_eq_iff (hsha1 : Set.InjOn sha1 (Set.range stableStringify)) (v w : Value) :
    hashFilters sha1 v = hashFilters sha1 w ↔ kept (canonical v) = kept (canonical w) := by
  rw [← stableStringify_eq_iff]
  exact hsha1.eq_iff (Set.mem_range_self v) (Set.mem_range_self w)

/-- Equal filters are written alike, so that what can go wrong is that different ones are. -/
theorem iff_iff_keptApart (v w : Value) :
    (kept (canonical v) = kept (canonical w) ↔ Same v w) ↔ KeptApart v w :=
  ⟨fun h => h.mp, fun h => ⟨h, congrArg kept⟩⟩

/-- **Keys of one entity are equal exactly if the filters are, if and only if these stay apart**
when they are written as JSON. -/
theorem keys_tell_filters_apart_iff (hsha1 : Set.InjOn sha1 (Set.range stableStringify))
    (v w : Value) :
    ((listKey sha1 env entity v = listKey sha1 env entity w ↔ Same v w) ↔ KeptApart v w)
      ∧ ((dashboardKey sha1 env entity v = dashboardKey sha1 env entity w
          ↔ Same (givenFilters v) (givenFilters w))
        ↔ KeptApart (givenFilters v) (givenFilters w)) := by
  constructor
  · rw [listKey, listKey, append_right_inj, hashFilters_eq_iff sha1 hsha1]
    exact iff_iff_keptApart v w
  · rw [dashboardKey, dashboardKey, append_right_inj, hashFilters_eq_iff sha1 hsha1]
    exact iff_iff_keptApart _ _

/-- The filters `{ page: n }`. -/
def pageFilter (n : ℕ) (h : n % 10 ≠ 0) : Value :=
  .object [(units "page", .number (.finite (.nonzero false ⟨n, 1, h⟩)))]

/-- The SHA-1 of the texts of the first two pages; it takes the digests back to the texts, and
leaves every other text as it is. -/
def pageSha1 : Units ≃ Units :=
  (Equiv.swap (units "\x7b\"page\":1\x7d") (units "219e426073c3a5ba0ef51b628c63cce6eb05669f")).trans
    (Equiv.swap (units "\x7b\"page\":2\x7d") (units "51d87237d0142811e43bca3a072e4e0255579d70"))

example : stableStringify (pageFilter 2 (by decide)) = units "\x7b\"page\":2\x7d" := by decide

/-- The keys of two pages are equal exactly if the pages are. -/
theorem pages_keep_apart :
    listKey pageSha1 (units "test") (units "profiles") (pageFilter 1 (by decide))
        = listKey pageSha1 (units "test") (units "profiles") (pageFilter 2 (by decide))
      ↔ Same (pageFilter 1 (by decide)) (pageFilter 2 (by decide)) :=
  (keys_tell_filters_apart_iff pageSha1 (units "test") (units "profiles")
    pageSha1.injective.injOn _ _).1.mpr fun h => by
      have hfield := (Prod.mk.inj (List.cons.inj (Json.object.inj h)).1).2
      have hpage := congrArg Magnitude.significant (Finite.nonzero.inj (Json.number.inj hfield)).2
      exact absurd hpage (by decide : 1 ≠ 2)

/-- The filters `{ from: <date> }`. -/
def fromFilter (time : ℤ) : Value :=
  .object [(units "from", .date (some time))]

theorem instants_differ : ¬ Same (fromFilter 0) (fromFilter 86400000) := by
  intro h
  have hfield := (Prod.mk.inj (List.cons.inj (Value.object.inj h)).1).2
  exact absurd (Option.some.inj (Value.date.inj hfield)) (by decide : (0 : ℤ) ≠ 86400000)

/-- **Two dates share a key**, whatever is hashed, and so do an undefined element and null, and
what is no number and null. -/
theorem dates_share_key :
    (∀ (sha1 : Units → Units) (env entity : Units),
        listKey sha1 env entity (fromFilter 0) = listKey sha1 env entity (fromFilter 86400000))
      ∧ ¬ Same (fromFilter 0) (fromFilter 86400000)
      ∧ stableStringify (.array [.undefined]) = stableStringify (.array [.null])
      ∧ stableStringify (.number .nan) = stableStringify .null :=
  ⟨fun _ _ _ => rfl, instants_differ, rfl, rfl⟩

end Rabotka.AdminCache.Keys
