import Mathlib.Order.Nat
import Rabotka.Lib.Service

/-!
# Rely–guarantee reasoning for interleaved operations

A `Discipline` for a service fixes a store invariant, the precondition `pre i c s` under
which process `i` may issue the command `c`, and for each process the relation `rely i`
that bounds what the other processes do to the store between two of its calls. Its one
proof obligation, `sound`, is about single commands: a command issued under its
precondition keeps the invariant and respects the rely relation of every other process.

A program is then checked against the discipline on its own, with no mention of the other
processes: `D.Obeys i Q X op s` says that every call `op` will issue from the store `s`,
whatever the others do in between, meets its precondition, and that `op` ends with `Q` or
throws with `X`. `D.Triple` is the Hoare-style form with one rule for each program
construct. `Discipline.wf_of_mem_run` puts the pieces together: if every handler obeys the
discipline, the invariant holds along every run, and so does the obligation `idle i` of
each process that has finished. `Discipline.inv_of_mem_run` is the rule a particular safety
property uses: programs are checked once, and a further invariant `J` only needs to be
preserved command by command.
-/

namespace Async

variable {σ Cmd Req Env E α β : Type} {Resp : Cmd → Type}

/-- The contract between the processes of a service. `idle i` is what process `i` owes to
the rest of the system when it is not running. -/
structure Discipline (S : Service σ Cmd Resp Req Env E) where
  guard : Guard σ Cmd Req Env
  inv : σ → Prop
  pre : ℕ → Cmd → σ → Prop
  rely : ℕ → σ → σ → Prop
  idle : ℕ → σ → Prop
  rely_refl : ∀ i s, rely i s s
  rely_trans : ∀ {i s t u}, rely i s t → rely i t u → rely i s u
  idle_rely : ∀ {i s t}, rely i s t → idle i s → idle i t
  sound : ∀ {s i c ε t r}, inv s → pre i c s → guard s (.step i c ε) →
    S.exec s i c ε = some (t, r) → inv t ∧ ∀ j, j ≠ i → rely j s t

namespace Discipline

variable {S : Service σ Cmd Resp Req Env E} (D : Discipline S) (i : ℕ)

/-- From the store `s`, whatever the other processes do between its calls, the operation
issues every call under its precondition, returns only with `Q` and throws only with `X`. -/
def Obeys (Q : α → σ → Prop) (X : E → σ → Prop) : Op Resp E α → σ → Prop
  | .ret a, s => Q a s
  | .fail e, s => X e s
  | .call c k h, s => ∀ t, D.inv t → D.rely i s t →
      D.pre i c t ∧ (D.guard t (.fault i c) → ∀ e, Obeys Q X (h e) t) ∧
      ∀ ε u r, D.guard t (.step i c ε) → S.exec t i c ε = some (u, r) → D.inv u → Obeys Q X (k r) u

/-- An assertion that the other processes cannot invalidate. -/
def Stable (P : σ → Prop) : Prop :=
  ∀ s t, D.inv t → D.rely i s t → P s → P t

/-- The Hoare-style form of `Obeys`. -/
def Triple (P : σ → Prop) (op : Op Resp E α) (Q : α → σ → Prop) (X : E → σ → Prop) : Prop :=
  ∀ s, D.inv s → P s → D.Obeys i Q X op s

variable {D i}

theorem Stable.and {P Q : σ → Prop} (hP : D.Stable i P) (hQ : D.Stable i Q) :
    D.Stable i fun s => P s ∧ Q s :=
  fun s t ht hst h => ⟨hP s t ht hst h.1, hQ s t ht hst h.2⟩

theorem stable_const (p : Prop) : D.Stable i fun _ => p :=
  fun _ _ _ _ h => h

theorem stable_idle : D.Stable i (D.idle i) :=
  fun _ _ _ hst h => D.idle_rely hst h

theorem stable_forall {ι : Sort*} {P : ι → σ → Prop} (h : ∀ x, D.Stable i (P x)) :
    D.Stable i fun s => ∀ x, P x s :=
  fun s t ht hst hs x => h x s t ht hst (hs x)

theorem stable_exists {ι : Sort*} {P : ι → σ → Prop} (h : ∀ x, D.Stable i (P x)) :
    D.Stable i fun s => ∃ x, P x s :=
  fun s t ht hst ⟨x, hs⟩ => ⟨x, h x s t ht hst hs⟩

/-! ### Structural rules -/

variable {op : Op Resp E α}

/-- The others' steps do not invalidate a pending obligation. -/
theorem Obeys.rely {Q : α → σ → Prop} {X : E → σ → Prop} {s t : σ}
    (hQ : ∀ a, D.Stable i (Q a)) (hX : ∀ e, D.Stable i (X e)) (ht : D.inv t)
    (hst : D.rely i s t) (h : D.Obeys i Q X op s) : D.Obeys i Q X op t := by
  cases op with
  | ret a => exact hQ a s t ht hst h
  | fail e => exact hX e s t ht hst h
  | call c k hh => exact fun u hu htu => h u hu (D.rely_trans hst htu)

/-- Obligations are monotone in what is promised. -/
theorem Obeys.mono {Q Q' : α → σ → Prop} {X X' : E → σ → Prop} {s : σ}
    (hs : D.inv s) (h : D.Obeys i Q X op s) (hQ : ∀ a s, D.inv s → Q a s → Q' a s)
    (hX : ∀ e s, D.inv s → X e s → X' e s) : D.Obeys i Q' X' op s := by
  induction op generalizing s with
  | ret a => exact hQ a s hs h
  | fail e => exact hX e s hs h
  | call c k hh ihk ihh =>
    intro t ht hst
    obtain ⟨hpre, hfault, hcont⟩ := h t ht hst
    exact ⟨hpre, fun hg e => ihh e ht (hfault hg e),
      fun ε u r hg hexec hu => ihk r hu (hcont ε u r hg hexec hu)⟩

variable {x : Op Resp E α}

theorem Obeys.bind {R : α → σ → Prop} {Q : β → σ → Prop} {X : E → σ → Prop}
    {f : α → Op Resp E β} {s : σ} (hs : D.inv s) (hx : D.Obeys i R X x s)
    (hf : ∀ a, D.Triple i (R a) (f a) Q X) : D.Obeys i Q X (x.bind f) s := by
  induction x generalizing s with
  | ret a => exact hf a s hs hx
  | fail e => exact hx
  | call c k h ihk ihh =>
    intro t ht hst
    obtain ⟨hpre, hfault, hcont⟩ := hx t ht hst
    exact ⟨hpre, fun hg e => ihh e ht (hfault hg e),
      fun ε u r hg hexec hu => ihk r hu (hcont ε u r hg hexec hu)⟩

theorem Obeys.orElseCatch {Q : α → σ → Prop} {X Y : E → σ → Prop}
    {g : E → Op Resp E α} {s : σ} (hs : D.inv s) (hx : D.Obeys i Q Y x s)
    (hg : ∀ e, D.Triple i (Y e) (g e) Q X) : D.Obeys i Q X (x.orElseCatch g) s := by
  induction x generalizing s with
  | ret a => exact hx
  | fail e => exact hg e s hs hx
  | call c k h ihk ihh =>
    intro t ht hst
    obtain ⟨hpre, hfault, hcont⟩ := hx t ht hst
    exact ⟨hpre, fun hg e => ihh e ht (hfault hg e),
      fun ε u r hg hexec hu => ihk r hu (hcont ε u r hg hexec hu)⟩

/-! ### One rule for each program construct -/

variable {P R : σ → Prop} {Q : α → σ → Prop} {X Y : E → σ → Prop}

theorem Triple.pre_mono (h : D.Triple i R op Q X)
    (hPR : ∀ s, D.inv s → P s → R s) : D.Triple i P op Q X :=
  fun s hs hP => h s hs (hPR s hs hP)

theorem Triple.post_mono {Q' : α → σ → Prop} {X' : E → σ → Prop}
    (h : D.Triple i P op Q X) (hQ : ∀ a s, D.inv s → Q a s → Q' a s)
    (hX : ∀ e s, D.inv s → X e s → X' e s) : D.Triple i P op Q' X' :=
  fun s hs hP => (h s hs hP).mono hs hQ hX

theorem Triple.ret {a : α} (h : ∀ s, D.inv s → P s → Q a s) : D.Triple i P (.ret a) Q X :=
  h

theorem Triple.fail {e : E} (h : ∀ s, D.inv s → P s → X e s) : D.Triple i P (.fail e) Q X :=
  h

theorem Triple.bind {P : σ → Prop} {R : α → σ → Prop} {Q : β → σ → Prop}
    {f : α → Op Resp E β} (hx : D.Triple i P x R X) (hf : ∀ a, D.Triple i (R a) (f a) Q X) :
    D.Triple i P (x.bind f) Q X :=
  fun s hs hP => (hx s hs hP).bind hs hf

theorem Triple.orElseCatch {g : E → Op Resp E α}
    (hx : D.Triple i P x Q Y) (hg : ∀ e, D.Triple i (Y e) (g e) Q X) :
    D.Triple i P (x.orElseCatch g) Q X :=
  fun s hs hP => (hx s hs hP).orElseCatch hs hg

/-- A single call: the assertion before it must be stable and imply the precondition. -/
theorem Triple.cmd {c : Cmd} {Q : Resp c → σ → Prop} (hP : D.Stable i P)
    (hpre : ∀ s, D.inv s → P s → D.pre i c s)
    (hstep : ∀ s ε t r, D.inv s → P s → D.guard s (.step i c ε) →
      S.exec s i c ε = some (t, r) → D.inv t → Q r t)
    (hfault : ∀ s e, D.guard s (.fault i c) → D.inv s → P s → X e s) :
    D.Triple i P (Op.cmd c) Q X := by
  intro s hs hPs t ht hst
  have hPt : P t := hP s t ht hst hPs
  exact ⟨hpre t ht hPt, fun hg e => hfault t e hg ht hPt,
    fun ε u r hg hexec hu => hstep t ε u r ht hPt hg hexec hu⟩

/-- A loop keeps an assertion that each of its rounds keeps. -/
theorem Triple.forM {ι : Type} {l : List ι} {f : ι → Op Resp E PUnit}
    (hf : ∀ a ∈ l, D.Triple i P (f a) (fun _ => P) X) :
    D.Triple i P (l.forM f) (fun _ => P) X := by
  induction l with
  | nil => exact fun s _ hP => hP
  | cons a l ih =>
    change D.Triple i P ((f a).bind fun _ => l.forM f) _ X
    exact (hf a List.mem_cons_self).bind fun _ =>
      ih fun b hb => hf b (List.mem_cons_of_mem a hb)

/-! ### From programs to runs -/

variable (D)

/-- A configuration in which every process keeps to the discipline. -/
structure WF (c : Config σ Resp E) : Prop where
  inv : D.inv c.store
  obeys : ∀ i op, c.pool[i]? = some op →
    D.Obeys i (fun _ => D.idle i) (fun _ => D.idle i) op c.store
  idle : ∀ i, c.pool.length ≤ i → D.idle i c.store

/-- Every handler obeys the discipline. -/
def Handles (S : Service σ Cmd Resp Req Env E) (D : Discipline S) : Prop :=
  ∀ r i s, D.inv s → D.guard s (.spawn r) → D.idle i s →
    D.Obeys i (fun _ => D.idle i) (fun _ => D.idle i) (S.handler r) s

variable {D}

theorem wf_idle {s : σ} (hs : D.inv s) (hidle : ∀ i, D.idle i s) : D.WF (S.idle s) where
  inv := hs
  obeys := by simp
  idle i _ := hidle i

/-- One action keeps every process within the discipline. -/
theorem WF.step (hD : Handles S D) {c c' : Config σ Resp E} (hc : D.WF c)
    (h : Service.Act.Cases S D.guard c c') : D.WF c' := by
  cases h with
  | spawn r hg =>
    refine ⟨hc.inv, fun i op hop => ?_, fun i hi => hc.idle i ?_⟩
    · rcases lt_trichotomy i c.pool.length with hlt | rfl | hgt
      · rw [List.getElem?_append_left hlt] at hop
        exact hc.obeys i op hop
      · obtain rfl : S.handler r = op := by simpa using hop
        exact hD r _ _ hc.inv hg (hc.idle _ le_rfl)
      · rw [List.getElem?_eq_none (by simp; omega)] at hop
        cases hop
    · simp only [List.length_append, List.length_singleton] at hi
      omega
  | step i ε cmd k h s r hop hg hexec =>
    have hobeys := hc.obeys i _ hop
    obtain ⟨hpre, -, hcont⟩ := hobeys c.store hc.inv (D.rely_refl i _)
    obtain ⟨hs, hrely⟩ := D.sound hc.inv hpre hg hexec
    have hi : i < c.pool.length := (List.getElem?_eq_some_iff.1 hop).1
    refine ⟨hs, fun j op hj => ?_, fun j hj => ?_⟩
    · rcases eq_or_ne i j with rfl | hne
      · simp only [List.getElem?_set_self hi, Option.some.injEq] at hj
        subst hj
        exact hcont ε s r hg hexec hs
      · rw [List.getElem?_set_ne hne] at hj
        exact (hc.obeys j op hj).rely (fun _ => stable_idle) (fun _ => stable_idle) hs
          (hrely j hne.symm)
    · rw [List.length_set] at hj
      exact D.idle_rely (hrely j (by omega)) (hc.idle j hj)
  | fault i e cmd k h hop hg =>
    have hobeys := hc.obeys i _ hop
    obtain ⟨-, hfault, -⟩ := hobeys c.store hc.inv (D.rely_refl i _)
    have hi : i < c.pool.length := (List.getElem?_eq_some_iff.1 hop).1
    refine ⟨hc.inv, fun j op hj => ?_, fun j hj => hc.idle j (by simpa using hj)⟩
    rcases eq_or_ne i j with rfl | hne
    · simp only [List.getElem?_set_self hi, Option.some.injEq] at hj
      subst hj
      exact hfault hg e
    · rw [List.getElem?_set_ne hne] at hj
      exact hc.obeys j op hj

/-- **Soundness.** If every handler obeys the discipline, every run keeps every process
within it. -/
theorem wf_of_mem_run (hD : Handles S D) {c c' : Config σ Resp E} {as : List (Act Req Env E)}
    (h : c' ∈ S.run D.guard c as) (hc : D.WF c) : D.WF c' :=
  S.run_induction D.guard h hc fun _ _ hd hstep => hd.step hD hstep

/-- A process that has finished has met its obligation. -/
theorem WF.idle_of_done {c : Config σ Resp E} (hc : D.WF c) {i : ℕ} {op : Op Resp E Unit}
    (hop : c.pool[i]? = some op) (hdone : op.done = true) : D.idle i c.store := by
  have hobeys := hc.obeys i op hop
  cases op with
  | ret | fail => exact hobeys
  | call cmd k h => cases hdone

/-- When nothing is in progress, every process has met its obligation. -/
theorem WF.idle_of_quiescent {c : Config σ Resp E} (hc : D.WF c) (hq : c.Quiescent) (i : ℕ) :
    D.idle i c.store := by
  rcases lt_or_ge i c.pool.length with hi | hi
  · exact hc.idle_of_done (List.getElem?_eq_getElem hi) (hq _ (List.getElem_mem hi))
  · exact hc.idle i hi

/-- **Relative invariance.** For a stronger guard `g`, a property that each command
preserves when it is issued under its precondition holds along every run. -/
theorem inv_of_mem_run (hD : Handles S D) {g : Guard σ Cmd Req Env}
    (hg : ∀ s v, g s v → D.guard s v) {J : σ → Prop}
    (hJ : ∀ s i c ε t r, D.inv s → J s → D.pre i c s → g s (.step i c ε) →
      S.exec s i c ε = some (t, r) → J t)
    {c c' : Config σ Resp E} {as : List (Act Req Env E)} (h : c' ∈ S.run g c as)
    (hc : D.WF c) (h₀ : J c.store) : D.WF c' ∧ J c'.store := by
  refine S.run_induction g h (P := fun d => D.WF d ∧ J d.store) ⟨hc, h₀⟩ ?_
  rintro d d' ⟨hd, hJd⟩ hcase
  refine ⟨hd.step hD ?_, ?_⟩
  · cases hcase with
    | spawn r hgr => exact .spawn r (hg _ _ hgr)
    | step i ε cmd k h s r hop hgr hexec => exact .step i ε cmd k h s r hop (hg _ _ hgr) hexec
    | fault i e cmd k h hop hgr => exact .fault i e cmd k h hop (hg _ _ hgr)
  · cases hcase with
    | spawn | fault => exact hJd
    | step i ε cmd k h s r hop hgr hexec =>
      obtain ⟨hpre, -, -⟩ := hd.obeys i _ hop d.store hd.inv (D.rely_refl i _)
      exact hJ _ i cmd ε _ r hd.inv hJd hpre hgr hexec

end Discipline

end Async
