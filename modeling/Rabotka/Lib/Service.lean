import Mathlib.Data.List.Basic
import Rabotka.Lib.Op

/-!
# Services: interleaved runs of operations

A `Service` gives the commands of `Op` a meaning on a store and names the requests it
serves, each handled by an operation. A configuration is a store with the pool of all
operations started so far, and a run is a list of actions: a request arrives, an operation
takes its next call, or its next call throws without taking effect. Every interleaving of
any number of operations is a run, and an operation that is never scheduled again models a
crash.

What an action does to the outside world's choices (the answer of a third party, the
instant of a clock) is an environment value `ε` that the action carries; `exec` may reject
a choice by returning `none`.

Runs are executable, and they carry a `Guard`: a decidable condition on the store before
each event. `Guard.all` admits every run; a theorem about runs under a guard `g` is a
theorem about all runs whose events meet `g`.
-/

namespace Async

variable {σ Cmd Req Env E : Type} {Resp : Cmd → Type}

/-- A service over the store `σ`: process `i` executing the command `c` under the
environment's choice `ε` changes the store and gets an answer, and a request is handled by
an operation. -/
structure Service (σ Cmd : Type) (Resp : Cmd → Type) (Req Env E : Type) where
  exec : σ → ℕ → (c : Cmd) → Env → Option (σ × Resp c)
  handler : Req → Op Resp E Unit

/-- A store and the operations started so far; the index of an operation is its name. -/
structure Config (σ : Type) {Cmd : Type} (Resp : Cmd → Type) (E : Type) where
  store : σ
  pool : List (Op Resp E Unit)

/-- One scheduling decision: a request arrives, or operation `i` takes its call, or the
call of operation `i` throws `e`. -/
inductive Act (Req Env E : Type)
  | spawn (r : Req)
  | step (i : ℕ) (ε : Env)
  | fault (i : ℕ) (e : E)

/-- What a guard sees of an action. -/
inductive Event (Cmd Req Env : Type)
  | spawn (r : Req)
  | step (i : ℕ) (c : Cmd) (ε : Env)
  | fault (i : ℕ) (c : Cmd)

/-- A decidable condition on the store before an event. -/
abbrev Guard (σ Cmd Req Env : Type) := σ → Event Cmd Req Env → Bool

/-- The guard that admits every event. -/
def Guard.all : Guard σ Cmd Req Env := fun _ _ => true

@[simp]
theorem Guard.all_apply (s : σ) (v : Event Cmd Req Env) : (Guard.all s v : Bool) = true := rfl

/-- Both conditions hold. -/
def Guard.and (g g' : Guard σ Cmd Req Env) : Guard σ Cmd Req Env := fun s v => g s v && g' s v

@[simp]
theorem Guard.and_apply (g g' : Guard σ Cmd Req Env) (s : σ) (v : Event Cmd Req Env) :
    (g.and g') s v = (g s v && g' s v) := rfl

namespace Service

variable (S : Service σ Cmd Resp Req Env E) (g : Guard σ Cmd Req Env)

/-- The configuration in which nothing has been started on the store `s`. -/
def idle (_S : Service σ Cmd Resp Req Env E) (s : σ) : Config σ Resp E := ⟨s, []⟩

@[simp]
theorem idle_store (s : σ) : (S.idle s).store = s := rfl

@[simp]
theorem idle_pool (s : σ) : (S.idle s).pool = [] := rfl

/-- One action on a configuration, when it is possible and the guard admits it. -/
def act (c : Config σ Resp E) : Act Req Env E → Option (Config σ Resp E)
  | .spawn r =>
    if g c.store (.spawn r) then some ⟨c.store, c.pool ++ [S.handler r]⟩ else none
  | .step i ε =>
    match c.pool[i]? with
    | some (.call cmd k _) =>
      if g c.store (.step i cmd ε) then
        (S.exec c.store i cmd ε).map fun sr => ⟨sr.1, c.pool.set i (k sr.2)⟩
      else none
    | _ => none
  | .fault i e =>
    match c.pool[i]? with
    | some (.call cmd _ h) =>
      if g c.store (.fault i cmd) then some ⟨c.store, c.pool.set i (h e)⟩ else none
    | _ => none

/-- A run: the actions in order, `none` as soon as one is impossible. -/
def run (c : Config σ Resp E) : List (Act Req Env E) → Option (Config σ Resp E)
  | [] => some c
  | a :: as => (S.act g c a).bind fun c' => run c' as

/-- Everything one action can do. -/
inductive Act.Cases (c : Config σ Resp E) : Config σ Resp E → Prop
  | spawn (r : Req) : g c.store (.spawn r) → Act.Cases c ⟨c.store, c.pool ++ [S.handler r]⟩
  | step (i : ℕ) (ε : Env) (cmd : Cmd) (k : Resp cmd → Op Resp E Unit) (h : E → Op Resp E Unit)
      (s : σ) (r : Resp cmd) :
      c.pool[i]? = some (.call cmd k h) → g c.store (.step i cmd ε) →
      S.exec c.store i cmd ε = some (s, r) → Act.Cases c ⟨s, c.pool.set i (k r)⟩
  | fault (i : ℕ) (e : E) (cmd : Cmd) (k : Resp cmd → Op Resp E Unit) (h : E → Op Resp E Unit) :
      c.pool[i]? = some (.call cmd k h) → g c.store (.fault i cmd) →
      Act.Cases c ⟨c.store, c.pool.set i (h e)⟩

variable {c c' : Config σ Resp E}

/-- **Inversion of an action.** An action that is taken is an arrival, a call or a fault. -/
theorem act_cases {a : Act Req Env E} (h : c' ∈ S.act g c a) : Act.Cases S g c c' := by
  cases a with
  | spawn r =>
    simp only [act, Option.mem_def, Option.ite_none_right_eq_some, Option.some.injEq] at h
    obtain ⟨hg, rfl⟩ := h
    exact .spawn r hg
  | step i ε =>
    simp only [act, Option.mem_def] at h
    split at h
    · rename_i cmd k h' hop
      simp only [Option.ite_none_right_eq_some, Option.map_eq_some_iff, Prod.exists] at h
      obtain ⟨hg, s, r, hexec, rfl⟩ := h
      exact .step i ε cmd k h' s r hop hg hexec
    · cases h
  | fault i e =>
    simp only [act, Option.mem_def] at h
    split at h
    · rename_i cmd k h' hop
      simp only [Option.ite_none_right_eq_some, Option.some.injEq] at h
      obtain ⟨hg, rfl⟩ := h
      exact .fault i e cmd k h' hop hg
    · cases h

@[simp]
theorem run_nil (c : Config σ Resp E) : S.run g c [] = some c := rfl

variable {as : List (Act Req Env E)}

theorem mem_run_cons {a : Act Req Env E} :
    c' ∈ S.run g c (a :: as) ↔ ∃ d ∈ S.act g c a, c' ∈ S.run g d as := by
  simp [run, Option.mem_def, Option.bind_eq_some_iff]

/-- Runs compose. -/
theorem mem_run_append {as bs : List (Act Req Env E)} :
    c' ∈ S.run g c (as ++ bs) ↔ ∃ d ∈ S.run g c as, c' ∈ S.run g d bs := by
  induction as generalizing c with
  | nil => simp
  | cons a as ih =>
    simp only [List.cons_append, mem_run_cons, ih]
    constructor
    · rintro ⟨d, hd, e, he, hc⟩
      exact ⟨e, ⟨d, hd, he⟩, hc⟩
    · rintro ⟨e, ⟨d, hd, he⟩, hc⟩
      exact ⟨d, hd, e, he, hc⟩

/-- **Run rule.** What every admitted action preserves holds at the end of every run. -/
theorem run_induction {P : Config σ Resp E → Prop} (h : c' ∈ S.run g c as) (h₀ : P c)
    (hstep : ∀ d d', P d → Act.Cases S g d d' → P d') : P c' := by
  induction as generalizing c with
  | nil =>
    obtain rfl : c = c' := by simpa using h
    exact h₀
  | cons a as ih =>
    obtain ⟨d, hd, hc⟩ := (S.mem_run_cons g).1 h
    exact ih hc (hstep c d h₀ (S.act_cases g hd))

/-- A run under a guard is a run under every weaker guard. -/
theorem run_mono {g g' : Guard σ Cmd Req Env}
    (hle : ∀ s v, g s v → g' s v) (h : c' ∈ S.run g c as) :
    c' ∈ S.run g' c as := by
  induction as generalizing c with
  | nil => exact h
  | cons a as ih =>
    obtain ⟨d, hd, hc⟩ := (S.mem_run_cons g).1 h
    refine (S.mem_run_cons g').2 ⟨d, ?_, ih hc⟩
    cases a with
    | spawn r =>
      simp only [act, Option.mem_def, Option.ite_none_right_eq_some] at hd ⊢
      exact ⟨hle _ _ hd.1, hd.2⟩
    | step | fault =>
      simp only [act, Option.mem_def] at hd ⊢
      split at hd
      · simp only [Option.ite_none_right_eq_some] at hd ⊢
        exact ⟨hle _ _ hd.1, hd.2⟩
      · cases hd

/-! ### History variables -/

variable {H : Type}

/-- The service with a history variable: `upd` records what each call did, and nothing the
service does depends on it. -/
def withHistory (upd : H → ℕ → (c : Cmd) → Resp c → H) : Service (σ × H) Cmd Resp Req Env E where
  exec s i c ε := (S.exec s.1 i c ε).map fun tr => ((tr.1, upd s.2 i c tr.2), tr.2)
  handler := S.handler

/-- A guard that does not look at the history. -/
def liftGuard : Guard (σ × H) Cmd Req Env := fun s v => g s.1 v

/-- A configuration with a history. -/
def withStory (c : Config σ Resp E) (h : H) : Config (σ × H) Resp E :=
  ⟨(c.store, h), c.pool⟩

variable {S g}

theorem withHistory_exec {upd : H → ℕ → (c : Cmd) → Resp c → H} {s t : σ × H} {i : ℕ}
    {c : Cmd} {ε : Env} {r : Resp c} :
    (S.withHistory upd).exec s i c ε = some (t, r) ↔
      S.exec s.1 i c ε = some (t.1, r) ∧ t.2 = upd s.2 i c r := by
  simp only [withHistory, Option.map_eq_some_iff, Prod.mk.injEq]
  constructor
  · rintro ⟨⟨u, r'⟩, hexec, rfl, rfl⟩
    exact ⟨hexec, rfl⟩
  · rintro ⟨hexec, ht⟩
    exact ⟨(t.1, r), hexec, Prod.ext rfl ht.symm, rfl⟩

/-- Recording a history does not restrict the runs. -/
theorem exists_history (upd : H → ℕ → (c : Cmd) → Resp c → H) (hrun : c' ∈ S.run g c as) (h : H) :
    ∃ h', withStory c' h' ∈ (S.withHistory upd).run (liftGuard g) (withStory c h) as := by
  induction as generalizing c h with
  | nil =>
    obtain rfl : c = c' := by simpa using hrun
    exact ⟨h, rfl⟩
  | cons a as ih =>
    obtain ⟨d, hd, hc⟩ := (S.mem_run_cons g).1 hrun
    have hstep : ∃ k, withStory d k ∈ (S.withHistory upd).act (liftGuard g) (withStory c h) a := by
      cases a with
      | spawn r =>
        simp only [act, Option.mem_def, Option.ite_none_right_eq_some, Option.some.injEq] at hd
        obtain ⟨hg, rfl⟩ := hd
        exact ⟨h, if_pos hg⟩
      | step i ε =>
        simp only [act, Option.mem_def] at hd
        split at hd
        · rename_i cmd k h' hop
          simp only [Option.ite_none_right_eq_some, Option.map_eq_some_iff, Prod.exists] at hd
          obtain ⟨hg, s, r, hexec, rfl⟩ := hd
          refine ⟨upd h i cmd r, ?_⟩
          simp [act, withStory, hop, withHistory, hexec, liftGuard, hg]
        · cases hd
      | fault i e =>
        simp only [act, Option.mem_def] at hd
        split at hd
        · rename_i cmd k h' hop
          simp only [Option.ite_none_right_eq_some, Option.some.injEq] at hd
          obtain ⟨hg, rfl⟩ := hd
          exact ⟨h, by simp [act, withStory, hop, liftGuard, hg]⟩
        · cases hd
    obtain ⟨k, hk⟩ := hstep
    obtain ⟨h', hh'⟩ := ih hc k
    exact ⟨h', ((S.withHistory upd).mem_run_cons _).2 ⟨_, hk, hh'⟩⟩

end Service

/-- No operation is in progress. -/
def Config.Quiescent (c : Config σ Resp E) : Prop :=
  ∀ op ∈ c.pool, op.done = true

instance (c : Config σ Resp E) : Decidable c.Quiescent :=
  inferInstanceAs (Decidable (∀ op ∈ c.pool, op.done = true))

end Async
