import Mathlib.Data.List.Basic
import Rabotka.Lib.Op

/-!
# Transactions at READ COMMITTED

A database whose clients run statements inside or outside transactions. A statement sees what
is committed together with what its own transaction has written; the writes of other open
transactions are invisible until they commit. The rows a statement writes or locks stay locked
until its transaction ends, and a statement that needs a lock of another transaction waits: it
is not possible as long as the lock is held.

An `Engine` says what the statements of a particular schema do. Their effect is given as data,
a list of writes decided when the statement runs and applied to the committed database when its
transaction commits. `Store.exec` is the resulting step function. Two facts about it carry the
invariants: locks are exclusive (`Store.Exclusive`), and what a client holds a lock on, the
others do not change (`observed_of_exec`).
-/

namespace ReadCommitted

open Async List

variable {δ W κ Stmt Env : Type} {Answer : Stmt → Type}

/-- The statements of a schema: their answer, writes and locks on the state they see, and what
a write does. -/
structure Engine (δ W κ Stmt Env : Type) (Answer : Stmt → Type) where
  run : δ → (c : Stmt) → Env → Option (Answer c × List W × List κ)
  apply : δ → W → δ

/-- An open transaction. -/
structure Session (W κ : Type) where
  writes : List W
  locks : List κ

/-- The committed database and the open transactions, each under its client. -/
structure Store (δ W κ : Type) where
  db : δ
  sessions : List (ℕ × Session W κ)

/-- What a client issues. -/
inductive Cmd (Stmt : Type)
  | begin
  | commit
  | rollback
  | stmt (c : Stmt)

abbrev Resp (Answer : Stmt → Type) : Cmd Stmt → Type
  | .stmt c => Answer c
  | _ => Unit

/-- Applies writes in order. -/
def Engine.applyAll (E : Engine δ W κ Stmt Env Answer) (d : δ) (ws : List W) : δ :=
  ws.foldl E.apply d

@[simp]
theorem Engine.applyAll_nil (E : Engine δ W κ Stmt Env Answer) (d : δ) : E.applyAll d [] = d := rfl

@[simp]
theorem Engine.applyAll_cons (E : Engine δ W κ Stmt Env Answer) (d : δ) (w : W) (ws : List W) :
    E.applyAll d (w :: ws) = E.applyAll (E.apply d w) ws := rfl

theorem Engine.applyAll_append (E : Engine δ W κ Stmt Env Answer) (d : δ) (ws ws' : List W) :
    E.applyAll d (ws ++ ws') = E.applyAll (E.applyAll d ws) ws' :=
  foldl_append

namespace Store

/-- A database without open transactions. -/
def ofDb (d : δ) : Store δ W κ := ⟨d, []⟩

/-- The open transaction of client `i`. -/
def session (s : Store δ W κ) (i : ℕ) : Option (Session W κ) :=
  s.sessions.lookup i

/-- Ends the transaction of client `i`. -/
def close (s : Store δ W κ) (i : ℕ) : Store δ W κ :=
  { s with sessions := s.sessions.filter fun x => x.1 ≠ i }

/-- Sets the transaction of client `i`. -/
def put (s : Store δ W κ) (i : ℕ) (u : Session W κ) : Store δ W κ :=
  { s with sessions := (i, u) :: (s.close i).sessions }

/-- What client `i` sees. -/
def view (E : Engine δ W κ Stmt Env Answer) (s : Store δ W κ) (i : ℕ) : δ :=
  match s.session i with
  | some u => E.applyAll s.db u.writes
  | none => s.db

/-- Another client's transaction holds one of the locks. -/
def blocked [DecidableEq κ] (s : Store δ W κ) (i : ℕ) (ks : List κ) : Bool :=
  s.sessions.any fun x => x.1 ≠ i && x.2.locks.any (· ∈ ks)

/-- Client `i` holds the lock `k`. -/
def Holds (s : Store δ W κ) (i : ℕ) (k : κ) : Prop :=
  ∃ u, s.session i = some u ∧ k ∈ u.locks

/-- One step of client `i`. -/
def exec [DecidableEq κ] (E : Engine δ W κ Stmt Env Answer) (s : Store δ W κ) (i : ℕ)
    (c : Cmd Stmt) (ε : Env) : Option (Store δ W κ × Resp Answer c) :=
  match c with
  | .begin =>
    match s.session i with
    | some _ => none
    | none => some (s.put i ⟨[], []⟩, ())
  | .commit =>
    match s.session i with
    | some u => some ({ s.close i with db := E.applyAll s.db u.writes }, ())
    | none => none
  | .rollback => some (s.close i, ())
  | .stmt c =>
    match E.run (s.view E i) c ε with
    | none => none
    | some (answer, writes, locks) =>
      if s.blocked i locks then none
      else
        match s.session i with
        | some u => some (s.put i ⟨u.writes ++ writes, u.locks ++ locks⟩, answer)
        | none => some ({ s with db := E.applyAll s.db writes }, answer)

/-! ### Sessions -/

@[simp]
theorem session_ofDb (d : δ) (i : ℕ) : (ofDb d : Store δ W κ).session i = none := rfl

@[simp]
theorem close_db (s : Store δ W κ) (i : ℕ) : (s.close i).db = s.db := rfl

@[simp]
theorem put_db (s : Store δ W κ) (i : ℕ) (u : Session W κ) : (s.put i u).db = s.db := rfl

@[simp]
theorem session_withDb (s : Store δ W κ) (d : δ) (i : ℕ) :
    ({ s with db := d } : Store δ W κ).session i = s.session i := rfl

theorem lookup_filter_self (l : List (ℕ × Session W κ)) (i : ℕ) :
    (l.filter fun x => x.1 ≠ i).lookup i = none := by
  refine lookup_eq_none_iff.2 fun x hx => ?_
  have hne := of_decide_eq_true (mem_filter.1 hx).2
  exact bne_iff_ne.2 (Ne.symm hne)

theorem lookup_filter_ne {i j : ℕ} (h : j ≠ i) (l : List (ℕ × Session W κ)) :
    (l.filter fun x => x.1 ≠ i).lookup j = l.lookup j := by
  induction l with
  | nil => rfl
  | cons x l ih =>
    obtain ⟨k, u⟩ := x
    rcases eq_or_ne k i with rfl | hk
    · have hjk : (j == k) = false := beq_eq_false_iff_ne.2 h
      simpa [lookup_cons, hjk] using ih
    · simp only [filter_cons, ne_eq, hk, not_false_eq_true, decide_true, if_true, lookup_cons]
      rw [ih]

@[simp]
theorem session_close_self (s : Store δ W κ) (i : ℕ) : (s.close i).session i = none :=
  lookup_filter_self _ _

theorem session_close_of_ne {s : Store δ W κ} {i j : ℕ} (h : j ≠ i) :
    (s.close i).session j = s.session j :=
  lookup_filter_ne h _

@[simp]
theorem session_put_self (s : Store δ W κ) (i : ℕ) (u : Session W κ) :
    (s.put i u).session i = some u := by
  simp [session, put]

theorem session_put_of_ne {s : Store δ W κ} {i j : ℕ} (h : j ≠ i) (u : Session W κ) :
    (s.put i u).session j = s.session j := by
  have hji : (j == i) = false := beq_eq_false_iff_ne.2 h
  rw [session, put, lookup_cons, hji]
  exact session_close_of_ne h

/-- No two transactions hold the same lock. -/
def Exclusive (s : Store δ W κ) : Prop :=
  ∀ i j k, s.Holds i k → s.Holds j k → i = j

theorem exclusive_ofDb (d : δ) : (ofDb d : Store δ W κ).Exclusive := by
  rintro i j k ⟨u, hu, -⟩
  simp at hu

theorem Holds.of_session {s t : Store δ W κ} {i : ℕ} {k : κ} (h : t.session i = s.session i)
    (hs : s.Holds i k) : t.Holds i k := by
  obtain ⟨u, hu, hk⟩ := hs
  exact ⟨u, h.trans hu, hk⟩

/-! ### Inversion -/

variable [DecidableEq κ] {E : Engine δ W κ Stmt Env Answer} {s t : Store δ W κ} {i j : ℕ} {ε : Env}

theorem exec_begin {r : Unit} (h : s.exec E i .begin ε = some (t, r)) :
    s.session i = none ∧ t = s.put i ⟨[], []⟩ := by
  simp only [exec] at h
  split at h
  · cases h
  · rename_i hnone
    exact ⟨hnone, (pair_inj h).1.symm⟩

theorem exec_commit {r : Unit} (h : s.exec E i .commit ε = some (t, r)) :
    ∃ u, s.session i = some u ∧ t = { s.close i with db := E.applyAll s.db u.writes } := by
  simp only [exec] at h
  split at h
  · rename_i u hu
    exact ⟨u, hu, (pair_inj h).1.symm⟩
  · cases h

theorem exec_rollback {r : Unit} (h : s.exec E i .rollback ε = some (t, r)) : t = s.close i :=
  (pair_inj h).1.symm

/-- A statement waits for no lock, and its writes go to the transaction or, outside one, to the
database. -/
theorem exec_stmt {c : Stmt} {r : Answer c} (h : s.exec E i (.stmt c) ε = some (t, r)) :
    ∃ writes locks, E.run (s.view E i) c ε = some (r, writes, locks) ∧ s.blocked i locks = false ∧
      ((∃ u, s.session i = some u ∧ t = s.put i ⟨u.writes ++ writes, u.locks ++ locks⟩) ∨
        s.session i = none ∧ t = { s with db := E.applyAll s.db writes }) := by
  simp only [exec] at h
  cases hrun : E.run (s.view E i) c ε with
  | none => simp [hrun] at h
  | some o =>
    obtain ⟨answer, writes, locks⟩ := o
    simp only [hrun] at h
    cases hblocked : s.blocked i locks with
    | true => simp [hblocked] at h
    | false =>
      simp only [hblocked, Bool.false_eq_true, if_false] at h
      cases hsession : s.session i with
      | none =>
        simp only [hsession, Option.some.injEq, Prod.mk.injEq] at h
        obtain ⟨rfl, rfl⟩ := h
        exact ⟨writes, locks, rfl, hblocked, .inr ⟨rfl, rfl⟩⟩
      | some u =>
        simp only [hsession, Option.some.injEq, Prod.mk.injEq] at h
        obtain ⟨rfl, rfl⟩ := h
        exact ⟨writes, locks, rfl, hblocked, .inl ⟨u, rfl, rfl⟩⟩

variable {c : Cmd Stmt} {r : Resp Answer c}

/-- The database changes by applying writes. -/
theorem exists_writes_of_exec
    (h : s.exec E i c ε = some (t, r)) : ∃ ws, t.db = E.applyAll s.db ws := by
  cases c with
  | begin =>
    obtain ⟨-, rfl⟩ := exec_begin h
    exact ⟨[], rfl⟩
  | commit =>
    obtain ⟨u, -, rfl⟩ := exec_commit h
    exact ⟨u.writes, rfl⟩
  | rollback =>
    obtain rfl := exec_rollback h
    exact ⟨[], rfl⟩
  | stmt c =>
    obtain ⟨writes, locks, -, -, ⟨u, -, rfl⟩ | ⟨-, rfl⟩⟩ := exec_stmt h
    · exact ⟨[], rfl⟩
    · exact ⟨writes, rfl⟩

/-- A client leaves the transactions of the others alone. -/
theorem session_of_exec (h : s.exec E i c ε = some (t, r))
    (hne : j ≠ i) : t.session j = s.session j := by
  cases c with
  | begin =>
    obtain ⟨-, rfl⟩ := exec_begin h
    exact session_put_of_ne hne _
  | commit =>
    obtain ⟨u, -, rfl⟩ := exec_commit h
    exact session_close_of_ne hne
  | rollback =>
    obtain rfl := exec_rollback h
    exact session_close_of_ne hne
  | stmt c =>
    obtain ⟨writes, locks, -, -, ⟨u, -, rfl⟩ | ⟨-, rfl⟩⟩ := exec_stmt h
    · exact session_put_of_ne hne _
    · rfl

/-- Where no lock is held by another client. -/
theorem not_holds_of_blocked {ks : List κ} {k : κ} (h : s.blocked i ks = false) (hne : j ≠ i)
    (hk : k ∈ ks) : ¬ s.Holds j k := by
  rintro ⟨u, hu, hku⟩
  have hmem : (j, u) ∈ s.sessions := by
    simp only [session] at hu
    revert hu
    generalize s.sessions = l
    intro hu
    induction l with
    | nil => simp at hu
    | cons x l ih =>
      obtain ⟨a, v⟩ := x
      by_cases hja : j = a
      · subst hja
        simp only [lookup_cons, BEq.rfl, Option.some.injEq] at hu
        subst hu
        exact mem_cons_self
      · simp only [lookup_cons, beq_eq_false_iff_ne.2 hja] at hu
        exact mem_cons_of_mem _ (ih hu)
  have hblocked : s.blocked i ks = true := by
    unfold blocked
    refine any_eq_true.2 ⟨(j, u), hmem, ?_⟩
    simp only [ne_eq, hne, not_false_eq_true, decide_true, Bool.true_and]
    exact any_eq_true.2 ⟨k, hku, decide_eq_true hk⟩
  rw [h] at hblocked
  cases hblocked

/-! ### Locks -/

/-- A lock that a client holds after a step of client `i` was held before, or `i` has just
acquired it while nobody else held it. -/
theorem holds_of_exec {k : κ} (h : s.exec E i c ε = some (t, r)) (hk : t.Holds j k) :
    s.Holds j k ∨ j = i ∧ ∀ l, l ≠ i → ¬ s.Holds l k := by
  rcases eq_or_ne j i with rfl | hne
  swap
  · exact .inl (hk.of_session (session_of_exec h hne).symm)
  obtain ⟨u, hu, hku⟩ := hk
  cases c with
  | begin =>
    obtain ⟨-, rfl⟩ := exec_begin h
    simp only [session_put_self, Option.some.injEq] at hu
    subst hu
    simp at hku
  | commit =>
    obtain ⟨v, -, rfl⟩ := exec_commit h
    have hnone : (s.close j).session j = none := session_close_self s j
    exact absurd (hnone.symm.trans hu) (by simp)
  | rollback =>
    obtain rfl := exec_rollback h
    simp at hu
  | stmt c =>
    obtain ⟨writes, locks, -, hblocked, ⟨v, hv, rfl⟩ | ⟨hnone, rfl⟩⟩ := exec_stmt h
    · simp only [session_put_self, Option.some.injEq] at hu
      subst hu
      rcases mem_append.1 hku with hk | hk
      · exact .inl ⟨v, hv, hk⟩
      · exact .inr ⟨rfl, fun l hl => not_holds_of_blocked hblocked hl hk⟩
    · exact .inl ⟨u, hu, hku⟩

/-- Locks stay exclusive. -/
theorem Exclusive.exec (hs : s.Exclusive) (h : s.exec E i c ε = some (t, r)) : t.Exclusive := by
  intro a b k ha hb
  rcases holds_of_exec h ha with ha' | ⟨rfl, ha'⟩
  · rcases holds_of_exec h hb with hb' | ⟨rfl, hb'⟩
    · exact hs a b k ha' hb'
    · by_contra hne
      exact hb' a hne ha'
  · rcases holds_of_exec h hb with hb' | ⟨rfl, -⟩
    · by_contra hne
      exact ha' b (fun h => hne h.symm) hb'
    · rfl

/-! ### Rows under lock -/

variable {ρ : Type} {obs : κ → δ → ρ}

/-- The writes of a statement change only what it locks: `obs k` is what the lock `k`
protects. -/
def Protects (E : Engine δ W κ Stmt Env Answer) (obs : κ → δ → ρ) : Prop :=
  ∀ d c ε a writes locks, E.run d c ε = some (a, writes, locks) →
    ∀ d' k, k ∉ locks → obs k (E.applyAll d' writes) = obs k d'

/-- The writes of every open transaction change only what it has locked. -/
def Covered (E : Engine δ W κ Stmt Env Answer) (obs : κ → δ → ρ) (s : Store δ W κ) : Prop :=
  ∀ i u, s.session i = some u → ∀ d k, k ∉ u.locks → obs k (E.applyAll d u.writes) = obs k d

omit [DecidableEq κ] in
theorem covered_ofDb (obs : κ → δ → ρ) (d : δ) : (ofDb d : Store δ W κ).Covered E obs := by
  intro i u hu
  simp at hu

theorem Covered.exec
    (hE : Protects E obs) (hs : s.Covered E obs) (h : s.exec E i c ε = some (t, r)) :
    t.Covered E obs := by
  intro j u hu
  rcases eq_or_ne j i with rfl | hne
  swap
  · rw [session_of_exec h hne] at hu
    exact hs j u hu
  cases c with
  | begin =>
    obtain ⟨-, rfl⟩ := exec_begin h
    simp only [session_put_self, Option.some.injEq] at hu
    subst hu
    exact fun d k _ => rfl
  | commit =>
    obtain ⟨v, -, rfl⟩ := exec_commit h
    have hnone : (s.close j).session j = none := session_close_self s j
    exact absurd (hnone.symm.trans hu) (by simp)
  | rollback =>
    obtain rfl := exec_rollback h
    simp at hu
  | stmt c =>
    obtain ⟨writes, locks, hrun, -, ⟨v, hv, rfl⟩ | ⟨hnone, rfl⟩⟩ := exec_stmt h
    · simp only [session_put_self, Option.some.injEq] at hu
      subst hu
      intro d k hk
      rw [mem_append, not_or] at hk
      rw [Engine.applyAll_append, hE _ _ _ _ _ _ hrun _ k hk.2]
      exact hs j v hv d k hk.1
    · rw [session_withDb] at hu
      exact hs j u hu

/-- **What a client has locked, the others do not change.** -/
theorem observed_of_exec {k : κ}
    (hE : Protects E obs) (hcov : s.Covered E obs) (hexcl : s.Exclusive)
    (h : s.exec E i c ε = some (t, r)) (hne : j ≠ i) (hk : s.Holds j k) :
    obs k t.db = obs k s.db := by
  cases c with
  | begin =>
    obtain ⟨-, rfl⟩ := exec_begin h
    rfl
  | commit =>
    obtain ⟨u, hu, rfl⟩ := exec_commit h
    exact hcov i u hu s.db k fun hmem => hne (hexcl j i k hk ⟨u, hu, hmem⟩)
  | rollback =>
    obtain rfl := exec_rollback h
    rfl
  | stmt c =>
    obtain ⟨writes, locks, hrun, hblocked, ⟨v, hv, rfl⟩ | ⟨hnone, rfl⟩⟩ := exec_stmt h
    · rfl
    · exact hE _ _ _ _ _ _ hrun s.db k fun hmem => not_holds_of_blocked hblocked hne hmem hk

end Store

/-! ### Programs -/

variable {E α : Type}

/-- Issues one command. -/
def issue (c : Cmd Stmt) : Op (Resp Answer) E (Resp Answer c) := Op.cmd c

/-- A statement. -/
def query (c : Stmt) : Op (Resp Answer) E (Answer c) := issue (.stmt c)

/-- `$transaction`: the body between `begin` and `commit`; where it throws, the transaction is
rolled back and the exception passed on. -/
def transaction (body : Op (Resp Answer) E α) : Op (Resp Answer) E α := do
  issue .begin
  tryCatch (do
      let a ← body
      issue .commit
      pure a)
    fun e => do
      issue .rollback
      throw e

end ReadCommitted
