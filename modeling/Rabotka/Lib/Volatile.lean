import Mathlib.Order.Nat

/-!
# Counters with a time to live

A store of numbers whose keys may carry the millisecond at which they expire, with the commands of
such a store: reading, counting, asking for the time left, and setting it. A key exists up to and
including the millisecond it expires in, where the time left is nothing. Counting starts a missing
key at one, without a time to live, and leaves the time to live of one that is there.
-/

namespace Volatile

variable {K : Type*}

/-- A number, and the last millisecond it exists in. -/
structure Cell where
  value : ℕ
  expiresAt : Option ℕ
  deriving DecidableEq

/-- The cell exists at the time `now`. -/
def Cell.live (c : Cell) (now : ℕ) : Bool := c.expiresAt.all fun t => now ≤ t

theorem Cell.live_mk_some {v t now : ℕ} : (Cell.mk v (some t)).live now = true ↔ now ≤ t := by
  simp [Cell.live]

@[simp]
theorem Cell.live_mk_none {v now : ℕ} : (Cell.mk v none).live now = true := rfl

/-- The store. Cells that have expired may be left in it. -/
abbrev Store (K : Type*) := K → Option Cell

namespace Store

/-- No keys. -/
def empty : Store K := fun _ => none

/-- The cell that exists under a key. -/
def read (s : Store K) (now : ℕ) (k : K) : Option Cell := (s k).filter fun c => c.live now

/-- `GET`. -/
def get (s : Store K) (now : ℕ) (k : K) : Option ℕ := (s.read now k).map Cell.value

/-- `PTTL`: the milliseconds left, `-1` without a time to live, `-2` without a key. -/
def pttl (s : Store K) (now : ℕ) (k : K) : ℤ :=
  match s.read now k with
  | none => -2
  | some ⟨_, none⟩ => -1
  | some ⟨_, some t⟩ => t - now

section Write

variable [DecidableEq K]

/-- `INCR`, with its answer. -/
def incr (s : Store K) (now : ℕ) (k : K) : Store K × ℕ :=
  let c := (s.read now k).getD ⟨0, none⟩
  (Function.update s k (some { c with value := c.value + 1 }), c.value + 1)

/-- `PEXPIRE`. -/
def pexpire (s : Store K) (now : ℕ) (k : K) (ms : ℕ) : Store K :=
  match s.read now k with
  | none => s
  | some c => Function.update s k (some { c with expiresAt := some (now + ms) })

/-- `SET` with `PX`. -/
def setPx (s : Store K) (now : ℕ) (k : K) (v ms : ℕ) : Store K :=
  Function.update s k (some ⟨v, some (now + ms)⟩)

/-- `DEL`. -/
def del (s : Store K) (k : K) : Store K := Function.update s k none

end Write

variable {s : Store K} {now t v ms : ℕ} {k j : K} {c : Cell}

/-- A cell that is there for good. -/
theorem read_of_none (h : s k = some ⟨v, none⟩) : s.read now k = some ⟨v, none⟩ := by
  simp [read, h]

theorem read_of_le (h : s k = some ⟨v, some t⟩) (hle : now ≤ t) :
    s.read now k = some ⟨v, some t⟩ := by
  rw [read, h, Option.filter_some, if_pos (Cell.live_mk_some.2 hle)]

/-- A key is missing where its cell, if there is one, has expired. -/
theorem read_eq_none (h : ∀ c, s k = some c → ∃ t, c.expiresAt = some t ∧ t < now) :
    s.read now k = none := by
  rw [read, Option.filter_eq_none_iff]
  intro c hc
  obtain ⟨t, ht, hlt⟩ := h c hc
  simp [Cell.live, ht, hlt]

theorem pttl_of_none (h : s.read now k = none) : s.pttl now k = -2 := by rw [pttl, h]

theorem pttl_of_forever (h : s.read now k = some ⟨v, none⟩) : s.pttl now k = -1 := by rw [pttl, h]

theorem pttl_of_some (h : s.read now k = some ⟨v, some t⟩) : s.pttl now k = t - now := by
  rw [pttl, h]

theorem read_congr {s' : Store K} (h : s k = s' k) (now : ℕ) : s.read now k = s'.read now k := by
  rw [read, read, h]

variable [DecidableEq K]

theorem incr_of_none (h : s.read now k = none) :
    s.incr now k = (Function.update s k (some ⟨1, none⟩), 1) := by
  simp [incr, h]

theorem incr_of_some (h : s.read now k = some c) : s.incr now k =
      (Function.update s k (some ⟨c.value + 1, c.expiresAt⟩), c.value + 1) := by
  simp [incr, h]

theorem pexpire_of_some (h : s.read now k = some c) :
    s.pexpire now k ms = Function.update s k (some ⟨c.value, some (now + ms)⟩) := by
  simp [pexpire, h]

theorem incr_of_ne (h : j ≠ k) : (s.incr now k).1 j = s j := by simp [incr, h]

theorem pexpire_of_ne (h : j ≠ k) : s.pexpire now k ms j = s j := by
  unfold pexpire
  cases s.read now k <;> simp [h]

theorem setPx_of_ne (h : j ≠ k) : s.setPx now k v ms j = s j := by simp [setPx, h]

end Store

end Volatile

/-!
## Keys that expire

A key-value store whose entries may carry an instant at which they expire, as in-memory stores
offer it. `Keys K V` holds the keys of one kind. An expired entry is left where it is, and reads
as missing; `get` is what a reader sees at an instant, and `expired` says that there was an
entry once.
-/

namespace Expiring

variable {K V : Type*}

/-- A value, and the instant from which on it is gone. -/
structure Entry (V : Type*) where
  value : V
  expiresAt : Option ℕ
  deriving DecidableEq

/-- The entry can still be read. -/
def Entry.live (e : Entry V) (now : ℕ) : Bool :=
  e.expiresAt.all fun t => now < t

theorem Entry.lt_of_live {e : Entry V} {now t : ℕ} (h : e.live now) (ht : e.expiresAt = some t) :
    now < t := by
  simpa [live, ht] using h

/-- The keys of one kind. -/
abbrev Keys (K V : Type*) := K → Option (Entry V)

namespace Keys

/-- No keys. -/
def empty : Keys K V := fun _ => none

/-- What is read at the instant `now`. -/
def get (s : Keys K V) (now : ℕ) (k : K) : Option V :=
  ((s k).filter fun e => e.live now).map Entry.value

variable {s : Keys K V} {now : ℕ} {k j : K} {v : V}

theorem get_eq_some : s.get now k = some v ↔ ∃ e, s k = some e ∧ e.live now ∧ e.value = v := by
  simp only [get, Option.map_eq_some_iff, Option.filter_eq_some_iff, and_assoc]

theorem get_eq_none : s.get now k = none ↔ ∀ e, s k = some e → e.live now = false := by
  simp only [get, Option.map_eq_none_iff, Option.filter_eq_none_iff, Bool.not_eq_true]

variable [DecidableEq K]

/-- Writes an entry. -/
def put (s : Keys K V) (k : K) (v : V) (expiresAt : Option ℕ) : Keys K V :=
  Function.update s k (some ⟨v, expiresAt⟩)

/-- Removes an entry. -/
def del (s : Keys K V) (k : K) : Keys K V :=
  Function.update s k none

/-- The instant at which a key expires; a missing key has none. -/
def expiry (s : Keys K V) (now : ℕ) (k : K) : Option ℕ :=
  ((s k).filter fun e => e.live now).bind Entry.expiresAt

omit [DecidableEq K] in
/-- The instant at which a key that can be read expires. -/
theorem expiry_of_live {e : Entry V} (h : s k = some e) (hlive : e.live now) :
    s.expiry now k = e.expiresAt := by
  rw [expiry, h, Option.filter_some, if_pos hlive, Option.bind_some]

@[simp]
theorem put_self (s : Keys K V) (k : K) (v : V) (t : Option ℕ) : s.put k v t k = some ⟨v, t⟩ := by
  simp [put]

theorem put_of_ne (h : j ≠ k) (s : Keys K V) (v : V) (t : Option ℕ) : s.put k v t j = s j := by
  simp [put, h]

@[simp]
theorem del_self (s : Keys K V) (k : K) : s.del k k = none := by
  simp [del]

theorem del_of_ne (h : j ≠ k) (s : Keys K V) : s.del k j = s j := by
  simp [del, h]

/-- An entry that is left after a removal was there before. -/
theorem of_del {e : Entry V} (h : s.del k j = some e) : j ≠ k ∧ s j = some e := by
  rcases eq_or_ne j k with rfl | hne
  · simp at h
  · exact ⟨hne, by rwa [del_of_ne hne] at h⟩

end Keys

end Expiring
