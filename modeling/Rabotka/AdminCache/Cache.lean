import Rabotka.Lib.Trace

/-!
# The cache of admin reads

`AdminCacheService`: `wrap` answers from Redis what it finds there, and otherwise lets its loader
read the database and stores the result; `invalidate` drops every list of an entity and every
dashboard, by two scans at once, each of which deletes what a batch returns before it asks for the
next.

A value is what its loader read, and of each read the number of writes that the database had seen
(`version`). Every Redis command and every read of a loader is one call, and each can fail, which
changes nothing; `wrap` and the scans go on without Redis as the source does. A scan returns every
key that is there from its first batch to its last: `owed` are those that it has not returned yet.
Which of the two scans goes on is left open (`pick`), and so are the batches and the cursors.
-/

namespace Rabotka.AdminCache

open Async

/-- A key, of a list or of a dashboard; the filters are hashed. -/
inductive Key
  | list (entity filters : String)
  | dashboard (scope filters : String)
  deriving DecidableEq

/-- What a scan matches: the lists of an entity, or all dashboards. -/
inductive Pattern
  | list (entity : String)
  | dashboard
  deriving DecidableEq

def Pattern.matches : Pattern → Key → Bool
  | .list entity, .list entity' _ => decide (entity = entity')
  | .dashboard, .dashboard _ _ => true
  | _, _ => false

/-- The patterns that `invalidate` drops. -/
def patterns (entity : String) : List Pattern := [.list entity, .dashboard]

/-- What a loader gives: for each of its reads, how many writes the database had seen. -/
abbrev Value := List ℕ

/-- The database, as the number of writes it has seen, the keys in Redis, and what each process
that scans has still to be given. -/
structure World where
  version : ℕ := 0
  cache : List (Key × Value) := []
  owed : ℕ → Pattern → List Key := fun _ _ => []

def World.get (w : World) (key : Key) : Option Value :=
  (w.cache.find? fun z => z.1 = key).map Prod.snd

def World.set (w : World) (key : Key) (value : Value) : World :=
  { w with cache := (key, value) :: w.cache.filter fun z => z.1 ≠ key }

/-- Takes keys away: they are owed to nobody from then on. -/
def World.remove (w : World) (keys : List Key) : World :=
  { w with
    cache := w.cache.filter fun z => z.1 ∉ keys
    owed := fun i p => (w.owed i p).filter fun key => key ∉ keys }

/-- The keys that match. -/
def World.matching (w : World) (p : Pattern) : List Key :=
  (w.cache.map Prod.fst).filter p.matches

/-! ### Calls -/

/-- `answer` and `invalidated` are the ends of `wrap` and of an `invalidate` in which Redis did not
fail; the latter says which write it followed. -/
inductive Cmd
  | get (key : Key)
  | read
  | set (key : Key) (value : Value)
  | scan (pattern : Pattern) (cursor : ℕ)
  | del (keys : List Key)
  | pick
  | expire (key : Key)
  | write (entity : String)
  | answer (key : Key) (value : Value)
  | invalidated (entity : String) (version : ℕ)

abbrev Resp : Cmd → Type
  | .get _ => Option Value
  | .read => ℕ
  | .scan _ _ => ℕ × List Key
  | .pick => Bool
  | .write _ => ℕ
  | _ => Unit

/-- What the environment chooses at a call. -/
structure Env where
  cursor : ℕ := 0
  keys : List Key := []
  left : Bool := true
  deriving DecidableEq

/-- One batch of a scan of process `i`. A scan whose cursor comes back to 0 has returned everything
that it owed. -/
def World.scan (w : World) (i : ℕ) (p : Pattern) (cursor : ℕ) (ε : Env) :
    Option (World × (ℕ × List Key)) :=
  let before := if cursor = 0 then w.matching p else w.owed i p
  let owed := before.filter fun key => key ∉ ε.keys
  if ε.keys.all p.matches && (ε.cursor ≠ 0 || owed = []) then
    some ({ w with owed := Function.update w.owed i (Function.update (w.owed i) p owed) },
      (ε.cursor, ε.keys))
  else none

/-- What a command does. -/
def exec (w : World) (i : ℕ) (c : Cmd) (ε : Env) : Option (World × Resp c) :=
  match c with
  | .get key => some (w, w.get key)
  | .read => some (w, w.version)
  | .set key value => some (w.set key value, ())
  | .scan p cursor => w.scan i p cursor ε
  | .del keys => some (w.remove keys, ())
  | .pick => some (w, ε.left)
  | .expire key => some (w.remove [key], ())
  | .write _ => some ({ w with version := w.version + 1 }, w.version + 1)
  | .answer _ _ => some (w, ())
  | .invalidated _ _ => some (w, ())

/-! ### Operations -/

/-- What a call throws. -/
structure Exn where
  message : String
  deriving DecidableEq

/-- An operation of this service. -/
abbrev Prog (α : Type) := Op Resp Exn α

/-- Issues one call. -/
def issue (c : Cmd) : Prog (Resp c) := Op.cmd c

/-- A loader that reads so many times. -/
def loader : ℕ → Prog Value
  | 0 => return []
  | reads + 1 => do
    let version ← issue .read
    let rest ← loader reads
    return version :: rest

/-- Asks Redis: what it has, or nothing; `none` is a failure. -/
def lookup (key : Key) : Prog (Option (Option Value)) :=
  tryCatch (do return some (← issue (.get key))) fun _ => return none

def wrap (key : Key) (reads : ℕ) : Prog Unit := do
  match ← lookup key with
  | some (some hit) => issue (.answer key hit)
  | none => do
    let value ← loader reads
    issue (.answer key value)
  | some none => do
    let value ← loader reads
    tryCatch (issue (.set key value)) fun _ => return
    issue (.answer key value)

/-- Where one `deleteByPattern` is. -/
inductive Drop
  | scanning (cursor : ℕ)
  | deleting (keys : List Key) (next : ℕ)
  | done
  | failed
  deriving DecidableEq

def Drop.running : Drop → Bool
  | .scanning _ => true
  | .deleting _ _ => true
  | _ => false

/-- The end of a turn of the loop. -/
def Drop.turn (cursor : ℕ) : Drop := if cursor = 0 then .done else .scanning cursor

/-- The next call of one `deleteByPattern`. -/
def deleteByPattern (p : Pattern) : Drop → Prog Drop
  | .scanning cursor =>
    tryCatch (do
      let (next, keys) ← issue (.scan p cursor)
      return if 0 < keys.length then .deleting keys next else Drop.turn next) fun _ =>
        return .failed
  | .deleting keys next =>
    tryCatch (do
      issue (.del keys)
      return Drop.turn next) fun _ => return .failed
  | d => return d

/-- The two `deleteByPattern` of `invalidate`, for at most so many calls; whether both have come to
their end without a failure. -/
def deleteBoth (entity : String) : (calls : ℕ) → Drop → Drop → Prog Bool
  | 0, _, _ => return false
  | calls + 1, lists, dashboards =>
    if lists.running || dashboards.running then do
      let left ← issue .pick
      if lists.running && (left || !dashboards.running) then do
        let lists ← deleteByPattern (.list entity) lists
        deleteBoth entity calls lists dashboards
      else do
        let dashboards ← deleteByPattern .dashboard dashboards
        deleteBoth entity calls lists dashboards
    else return lists = .done ∧ dashboards = .done

/-- `invalidate`, for at most so many calls, after the write that made a version. -/
def invalidate (entity : String) (version calls : ℕ) : Prog Unit := do
  let complete ← deleteBoth entity calls (.scanning 0) (.scanning 0)
  if complete then issue (.invalidated entity version) else return

/-- A write with the `invalidate` that follows it. -/
def mutate (entity : String) (calls : ℕ) : Prog Unit := do
  let version ← issue (.write entity)
  invalidate entity version calls

inductive Request
  | wrap (key : Key) (reads : ℕ)
  | mutate (entity : String) (calls : ℕ)
  | expire (key : Key)
  deriving DecidableEq

def handler : Request → Prog Unit
  | .wrap key reads => wrap key reads
  | .mutate entity calls => mutate entity calls
  | .expire key => issue (.expire key)

/-- Redis and the database with everything that reads and writes them. -/
def service : Service World Cmd Resp Request Env Exn where
  exec := exec
  handler := handler

end Rabotka.AdminCache

/-!
## The calls of the admin cache

What the steps of one process say of its write and of its scans, and what every operation keeps to:
`wrap` answers what the cache or its own reads gave it, and `invalidate` comes to its end with both
scans through and every key that they returned deleted (`Pre`). `orderly` is the condition of the
runs in which the answers are fresh.
-/

namespace Rabotka.AdminCache

open Async Trace Contract

/-- A step of this service. -/
abbrev Step := Entry World Resp

/-- The steps of a run. -/
abbrev Log := Trace World Resp

/-- The cache with the steps. -/
abbrev State := Traced World Resp

variable {i j : ℕ} {x : State} {l : Log} {p q : Pattern} {key : Key} {value : Value}

/-! ### What the steps of a process say -/

/-- The version that a step made by writing. -/
def written : Step → Option ℕ
  | ⟨_, w, .write _, _⟩ => some (w.version + 1)
  | _ => none

/-- The version that a process made by its write. -/
def floor (l : Log) : ℕ := (l.findSome? written).getD 0

/-- The cursor that a batch of the scan came with. -/
def cursorShown (p : Pattern) : Step → Option ℕ
  | ⟨_, _, .scan q _, r⟩ => if q = p then some r.1 else none
  | _ => none

/-- The cursor that the last batch came with. -/
def lastCursor (p : Pattern) (l : Log) : Option ℕ := l.findSome? (cursorShown p)

/-- The process has begun to scan. -/
def Begun (p : Pattern) (l : Log) : Prop := (lastCursor p l).isSome

instance : Decidable (Begun p l) := inferInstanceAs (Decidable (_ = true))

/-- The keys that a process has been given by its scan and has not deleted since. -/
def pending (p : Pattern) : Log → List Key
  | [] => []
  | ⟨_, _, .scan q _, r⟩ :: l => if q = p then r.2 ++ pending p l else pending p l
  | ⟨_, _, .del keys, _⟩ :: l => (pending p l).filter fun key => key ∉ keys
  | _ :: l => pending p l

/-- No read was made before the version. -/
def Value.Since (version : ℕ) (value : Value) : Prop := ∀ v ∈ value, version ≤ v

instance {version : ℕ} : Decidable (value.Since version) :=
  inferInstanceAs (Decidable (∀ v ∈ value, version ≤ v))

/-- What a `set` does not store: a value with a read from before a write whose invalidate has begun
to scan for the key. -/
def setOrderly (l : Log) (key : Key) (value : Value) : Step → Bool
  | ⟨j, _, .scan p _, _⟩ => !p.matches key || decide (value.Since (floor (own l j)))
  | _ => true

/-- Every `set` finds that its value is not older than the writes whose invalidates are scanning, or
have scanned, for its key. -/
def orderly : Guard State Cmd Request Env
  | x, .step _ (.set key value) _ => x.2.all (setOrderly x.2 key value)
  | _, _ => true

/-! ### What the calls keep to -/

/-- Where the value of an answer comes from: the cache, or reads of the process. -/
def Sourced (key : Key) (value : Value) (l : Log) : Prop :=
  (∃ e ∈ l, ∃ w i, e = ⟨i, w, .get key, some value⟩) ∨
    ∀ v ∈ value, ∃ e ∈ l, ∃ w i, e = ⟨i, w, .read, v⟩

/-- When process `i` may issue a command, as far as its own steps say. -/
def Pre : Cmd → Log → Prop
  | .write _, l => l = []
  | .scan p cursor, l => cursor = 0 ∨ Begun p l
  | .answer key value, l => Sourced key value l
  | .invalidated entity version, l => version = floor l ∧
      ∀ p ∈ patterns entity, lastCursor p l = some 0 ∧ pending p l = []
  | _, _ => True

/-- What the operations keep to. -/
def contract : Contract service where
  inv _ := True
  pre i c x := Pre c (own x.2 i)
  sound _ _ _ := trivial

/-- From `P` the program leads to `Q`. The assertions are about the steps of the process. -/
abbrev Spec {α : Type} (i : ℕ) (P : Log → Prop) (op : Prog α) (Q : α → Log → Prop)
    (X : Log → Prop := fun _ => True) : Prop :=
  (contract.disciplineUnder orderly).Triple i (Own i P) op (fun a => Own i (Q a)) fun _ => Own i X

theorem call_spec {c : Cmd} {P : Log → Prop} {Q : Resp c → Log → Prop} (hpre : ∀ l, P l → Pre c l)
    (hstep : ∀ (w w' : World) (ε : Env) (r : Resp c) (l : Log), P l → exec w i c ε = some (w', r) →
      Q r (⟨i, w, c, r⟩ :: l)) :
    Spec i P (issue c) Q P :=
  Contract.triple_own (X := fun _ => P) (fun _ _ h => hpre _ h)
    (fun x ε w r _ h _ hexec => hstep x.1 w ε r _ h hexec) fun _ _ _ h => h

/-- What is promised if the program throws may be forgotten. -/
theorem Spec.forget {α : Type} {P X : Log → Prop} {op : Prog α} {Q : α → Log → Prop}
    (h : Spec i P op Q X) : Spec i P op Q :=
  h.post_mono (fun _ _ _ h => h) fun _ _ _ _ => trivial

/-- The last call of a program. -/
theorem final_spec {c : Cmd} {P : Log → Prop} (hpre : ∀ l, P l → Pre c l) :
    Spec i P (issue c) fun _ _ => True :=
  (call_spec hpre fun _ _ _ _ _ _ _ => trivial).forget

/-! ### Wrap -/

theorem lookup_spec : Spec i (fun l => l = []) (lookup key) fun found l =>
    ∀ hit, found = some (some hit) → Sourced key hit l := by
  refine Discipline.Triple.orElseCatch (Y := fun _ => Own i fun _ => True) ?_ fun _ =>
    .ret fun _ _ _ hit h => nomatch h
  refine .bind (call_spec (c := .get key) (Q := fun r l => ∀ hit, r = some hit →
    Sourced key hit l) (fun _ _ => trivial) fun w w' ε r l _ _ hit h => ?_).forget fun r =>
      .ret fun x _ h hit heq => h hit (Option.some_inj.1 heq)
  exact .inl ⟨_, List.mem_cons_self, w, i, by rw [h]⟩

/-- The process has read the version. -/
def HasRead (v : ℕ) (l : Log) : Prop := ∃ e ∈ l, ∃ w i, e = ⟨i, w, .read, v⟩

theorem HasRead.cons {v : ℕ} (h : HasRead v l) (e : Step) : HasRead v (e :: l) := by
  obtain ⟨z, hz, hread⟩ := h
  exact ⟨z, List.mem_cons_of_mem _ hz, hread⟩

/-- The reads of a loader, after others. -/
theorem loader_spec (reads : ℕ) (before : Value) :
    Spec i (fun l => ∀ v ∈ before, HasRead v l) (loader reads) fun value l =>
      ∀ v ∈ before ++ value, HasRead v l := by
  induction reads generalizing before with
  | zero => exact .ret fun _ _ h v hv => h v (by simpa using hv)
  | succ reads ih =>
    refine .bind (call_spec (c := .read) (Q := fun r l => ∀ v ∈ before ++ [r], HasRead v l)
      (fun _ _ => trivial) fun w w' ε r l h _ v hv => ?_).forget fun version => ?_
    · rcases List.mem_append.1 hv with hv | hv
      · exact (h v hv).cons _
      · obtain rfl := List.mem_singleton.1 hv
        exact ⟨_, List.mem_cons_self, w, i, rfl⟩
    · refine .bind (ih (before ++ [version])) fun rest => .ret fun x _ h v hv => h v ?_
      simpa using hv

/-- An answer from what was read. -/
theorem answer_spec : Spec i (fun l => ∀ v ∈ value, HasRead v l) (issue (.answer key value))
    fun _ _ => True :=
  final_spec fun _ h => .inr h

theorem wrap_spec (reads : ℕ) : Spec i (fun l => l = []) (wrap key reads) fun _ _ => True := by
  refine .bind lookup_spec fun found => ?_
  match found with
  | some (some hit) => exact final_spec fun l h => h hit rfl
  | none =>
    refine .bind (Discipline.Triple.pre_mono (loader_spec reads []) fun _ _ _ v h => nomatch h)
      fun loaded => answer_spec
  | some none =>
    refine .bind (Discipline.Triple.pre_mono (loader_spec reads []) fun _ _ _ v h => nomatch h)
      fun loaded => ?_
    refine .bind (R := fun _ => Own i fun l => ∀ v ∈ loaded, HasRead v l) ?_ fun _ => answer_spec
    refine Discipline.Triple.orElseCatch (call_spec (c := .set key loaded)
      (Q := fun _ l => ∀ v ∈ loaded, HasRead v l) (fun _ _ => trivial)
      fun w w' ε r l h _ v hv => (h v hv).cons _) fun _ => .ret fun _ _ h => h

/-! ### Invalidate -/

theorem pending_scan {w : World} {cursor : ℕ} {r : ℕ × List Key} :
    pending p (⟨i, w, .scan q cursor, r⟩ :: l) =
      if q = p then r.2 ++ pending p l else pending p l := rfl

theorem lastCursor_scan {w : World} {cursor : ℕ} {r : ℕ × List Key} :
    lastCursor p (⟨i, w, .scan q cursor, r⟩ :: l) =
      if q = p then some r.1 else lastCursor p l := by
  unfold lastCursor
  rw [List.findSome?_cons, cursorShown]
  split_ifs <;> rfl

/-- What is known of a `deleteByPattern`, by where it is. -/
def At (p : Pattern) (l : Log) : Drop → Prop
  | .scanning cursor => (cursor = 0 ∨ Begun p l) ∧ pending p l = []
  | .deleting keys next => lastCursor p l = some next ∧ ∀ key ∈ pending p l, key ∈ keys
  | .done => lastCursor p l = some 0 ∧ pending p l = []
  | .failed => True

/-- A step that is no batch of the scan, and gives the process no key of it. -/
theorem At.cons {d : Drop} {e : Step} (h : At p l d) (hcursor : cursorShown p e = none)
    (hpending : ∀ key ∈ pending p (e :: l), key ∈ pending p l) : At p (e :: l) d := by
  have hlast : lastCursor p (e :: l) = lastCursor p l := by
    rw [lastCursor, List.findSome?_cons, hcursor]
    rfl
  have hnil : pending p l = [] → pending p (e :: l) = [] := fun hnil =>
    List.eq_nil_iff_forall_not_mem.2 fun key hkey => by simpa [hnil] using hpending key hkey
  cases d with
  | scanning cursor => exact ⟨by rw [Begun, hlast]; exact h.1, hnil h.2⟩
  | deleting keys next => exact ⟨hlast.trans h.1, fun key hkey => h.2 key (hpending key hkey)⟩
  | done => exact ⟨hlast.trans h.1, hnil h.2⟩
  | failed => trivial

theorem At.turn (hlast : lastCursor p l = some j) (hpending : pending p l = []) :
    At p l (Drop.turn j) := by
  unfold Drop.turn
  split_ifs with h
  · exact ⟨h ▸ hlast, hpending⟩
  · exact ⟨.inr (by rw [Begun, hlast]; rfl), hpending⟩

/-- Neither scan nor the write of the process is concerned by the call. -/
theorem floor_cons {e : Step} (h : written e = none) : floor (e :: l) = floor l := by
  unfold floor
  rw [List.findSome?_cons, h]

variable {d d' : Drop} {version : ℕ}

/-- One `deleteByPattern` goes on, and the other one stays where it is. -/
theorem deleteByPattern_spec (hne : q ≠ p) :
    Spec i (fun l => (At p l d ∧ At q l d') ∧ version = floor l) (deleteByPattern p d)
      fun d l => (At p l d ∧ At q l d') ∧ version = floor l := by
  cases d with
  | scanning cursor =>
    refine Discipline.Triple.orElseCatch (Y := fun _ => Own i fun l =>
      (At p l (.scanning cursor) ∧ At q l d') ∧ version = floor l) ?_ fun _ =>
        .ret fun _ _ h => ⟨⟨trivial, h.1.2⟩, h.2⟩
    refine .bind (call_spec (c := .scan p cursor) (Q := fun r l => (lastCursor p l = some r.1 ∧
      pending p l = r.2 ∧ At q l d') ∧ version = floor l) (fun l h => h.1.1.1)
      fun w w' ε r l h _ => ?_) fun r => .ret fun x _ h => ?_
    · refine ⟨⟨?_, ?_, h.1.2.cons ?_ ?_⟩, ?_⟩
      · rw [lastCursor_scan, if_pos rfl]
      · rw [pending_scan, if_pos rfl, h.1.1.2, List.append_nil]
      · exact if_neg hne.symm
      · rw [pending_scan, if_neg hne.symm]
        exact fun _ h => h
      · rw [floor_cons rfl]
        exact h.2
    · refine ⟨⟨?_, h.1.2.2⟩, h.2⟩
      split_ifs with hkeys
      · exact ⟨h.1.1, fun key hkey => by rwa [h.1.2.1] at hkey⟩
      · refine At.turn h.1.1 ?_
        rw [h.1.2.1]
        exact List.length_eq_zero_iff.1 (Nat.eq_zero_of_not_pos hkeys)
  | deleting keys next =>
    refine Discipline.Triple.orElseCatch (Y := fun _ => Own i fun l =>
      (At p l (.deleting keys next) ∧ At q l d') ∧ version = floor l) ?_ fun _ =>
        .ret fun _ _ h => ⟨⟨trivial, h.1.2⟩, h.2⟩
    refine .bind (call_spec (c := .del keys) (Q := fun _ l => (lastCursor p l = some next ∧
      pending p l = [] ∧ At q l d') ∧ version = floor l) (fun _ _ => trivial)
      fun w w' ε r l h _ => ?_) fun r => .ret fun x _ h => ⟨⟨.turn h.1.1 h.1.2.1, h.1.2.2⟩, h.2⟩
    refine ⟨⟨h.1.1.1, ?_, h.1.2.cons rfl fun key hkey => List.mem_of_mem_filter hkey⟩, ?_⟩
    · refine List.filter_eq_nil_iff.2 fun key hkey => ?_
      simpa using h.1.1.2 key hkey
    · rw [floor_cons rfl]
      exact h.2
  | done | failed => exact .ret fun _ _ h => h

theorem deleteBoth_spec (entity : String) (calls : ℕ) (lists dashboards : Drop) :
    Spec i (fun l => (At (.list entity) l lists ∧ At .dashboard l dashboards) ∧ version = floor l)
      (deleteBoth entity calls lists dashboards) fun complete l =>
        complete = true → version = floor l ∧
          ∀ p ∈ patterns entity, lastCursor p l = some 0 ∧ pending p l = [] := by
  induction calls generalizing lists dashboards with
  | zero => exact .ret fun _ _ _ h => nomatch h
  | succ calls ih =>
    unfold deleteBoth
    split
    · refine .bind (call_spec (c := .pick) (Q := fun _ l =>
        (At (.list entity) l lists ∧ At .dashboard l dashboards) ∧ version = floor l)
        (fun _ _ => trivial) fun w w' ε r l h _ => ?_).forget fun left => ?_
      · exact ⟨⟨h.1.1.cons rfl fun _ h => h, h.1.2.cons rfl fun _ h => h⟩, h.2⟩
      · split
        · exact .bind (deleteByPattern_spec (by simp)) fun d => ih d dashboards
        · refine .bind (Discipline.Triple.pre_mono (deleteByPattern_spec (by simp))
            fun _ _ h => ⟨⟨h.1.2, h.1.1⟩, h.2⟩) fun d => ?_
          exact Discipline.Triple.pre_mono (ih lists d) fun _ _ h => ⟨⟨h.1.2, h.1.1⟩, h.2⟩
    · refine .ret fun x _ h hcomplete => ⟨h.2, fun p hp => ?_⟩
      obtain ⟨rfl, rfl⟩ : lists = .done ∧ dashboards = .done := by simpa using hcomplete
      rcases List.mem_cons.1 hp with rfl | hp
      · exact h.1.1
      · obtain rfl := List.mem_singleton.1 hp
        exact h.1.2

theorem mutate_spec (entity : String) (calls : ℕ) :
    Spec i (fun l => l = []) (mutate entity calls) fun _ _ => True := by
  refine .bind (call_spec (c := .write entity) (Q := fun version l =>
    (At (.list entity) l (.scanning 0) ∧ At .dashboard l (.scanning 0)) ∧ version = floor l)
    (fun _ h => h) fun w w' ε r l h hexec => ?_).forget fun version => ?_
  · obtain ⟨-, rfl⟩ := pair_inj hexec
    subst h
    exact ⟨⟨⟨.inl rfl, rfl⟩, ⟨.inl rfl, rfl⟩⟩, rfl⟩
  · refine .bind (deleteBoth_spec entity calls _ _) fun complete => ?_
    split
    · rename_i hcomplete
      exact final_spec fun l h => h hcomplete
    · exact .ret fun _ _ _ => trivial

/-- Every handler keeps to the contract. -/
theorem handles : contract.HandlesTo orderly fun _ _ => True := by
  intro r i
  match r with
  | .wrap key reads => exact (wrap_spec reads).pre_mono fun _ _ h => h.own_eq
  | .mutate entity calls => exact (mutate_spec entity calls).pre_mono fun _ _ h => h.own_eq
  | .expire key =>
    exact Discipline.Triple.pre_mono (final_spec (P := fun _ => True) fun _ _ => trivial)
      fun _ _ _ => trivial

end Rabotka.AdminCache
