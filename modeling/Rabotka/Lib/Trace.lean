import Rabotka.Lib.RelyGuarantee

/-!
# Services with a trace

`Service.traced` is a service that keeps the list of all steps of its run, newest first: which
process took the step, the store before it, the command and the answer. What a run did can then
be said about its trace, whatever the store has forgotten since.

A `Contract` is the discipline of a traced service whose processes rely on the trace only: between
two steps of a process the others add steps of their own (`Grown`), and where they add
none the store is as it was. So two kinds of assertions last: those that a longer trace keeps, and
those made as long as nobody has disturbed the process since its first step (`Undisturbed`).
`serial` is the guard of the runs in which no process is disturbed.

A process starts without steps (`Fresh`), and `Contract.inv_of_mem_run` is the rule for a safety
property: handlers are checked from a fresh start, and a further invariant only needs to be
preserved step by step.

`Every P l` says that each step met `P` together with the steps before it, and `Since p q l` that
no step was `q` since one that was `p`.
-/

namespace Async

open List

variable {σ Cmd Req Env E : Type} {Resp : Cmd → Type}

/-- One step of a run: who took it, the store before it, the command and its answer. -/
structure Entry (σ : Type) {Cmd : Type} (Resp : Cmd → Type) where
  proc : ℕ
  store : σ
  cmd : Cmd
  resp : Resp cmd

/-- The steps of a run, newest first. -/
abbrev Trace (σ : Type) {Cmd : Type} (Resp : Cmd → Type) := List (Entry σ Resp)

/-- A store together with the steps that led to it. -/
abbrev Traced (σ : Type) {Cmd : Type} (Resp : Cmd → Type) := σ × Trace σ Resp

/-- The service that keeps its trace. -/
def Service.traced (S : Service σ Cmd Resp Req Env E) :
    Service (Traced σ Resp) Cmd Resp Req Env E where
  exec x i c ε := (S.exec x.1 i c ε).map fun tr => ((tr.1, ⟨i, x.1, c, tr.2⟩ :: x.2), tr.2)
  handler := S.handler

@[simp]
theorem Service.traced_handler (S : Service σ Cmd Resp Req Env E) (r : Req) :
    S.traced.handler r = S.handler r := rfl

theorem Service.traced_exec {S : Service σ Cmd Resp Req Env E} {x y : Traced σ Resp} {i : ℕ}
    {c : Cmd} {ε : Env} {r : Resp c} :
    S.traced.exec x i c ε = some (y, r) ↔
      S.exec x.1 i c ε = some (y.1, r) ∧ y.2 = ⟨i, x.1, c, r⟩ :: x.2 := by
  simp only [traced, Option.map_eq_some_iff, Prod.mk.injEq]
  constructor
  · rintro ⟨⟨w, r'⟩, hexec, rfl, rfl⟩
    exact ⟨hexec, rfl⟩
  · rintro ⟨hexec, hy⟩
    exact ⟨(y.1, r), hexec, Prod.ext rfl hy.symm, rfl⟩

variable {x : Traced σ Resp}

namespace Trace

/-! ### Steps and the steps before them -/

section Lists

variable {α : Type*} {P Q : α → List α → Prop} {p q : α → Prop} {a : α} {l l' : List α}

/-- Each element meets `P` together with the elements behind it. -/
def Every (P : α → List α → Prop) : List α → Prop
  | [] => True
  | a :: l => P a l ∧ Every P l

@[simp]
theorem every_nil : Every P [] := trivial

@[simp]
theorem every_cons : Every P (a :: l) ↔ P a l ∧ Every P l := Iff.rfl

theorem every_iff : Every P l ↔ ∀ a older, a :: older <:+ l → P a older := by
  induction l with
  | nil => simp
  | cons b l ih =>
    rw [every_cons, ih]
    constructor
    · rintro ⟨hb, hl⟩ a older hsuffix
      rcases suffix_cons_iff.1 hsuffix with heq | hsuffix
      · obtain ⟨rfl, rfl⟩ := List.cons.inj heq
        exact hb
      · exact hl a older hsuffix
    · exact fun h => ⟨h b l suffix_rfl, fun a older hsuffix =>
        h a older (hsuffix.trans (suffix_cons b l))⟩

instance Every.decidable [∀ a l, Decidable (P a l)] : (l : List α) → Decidable (Every P l)
  | [] => isTrue trivial
  | a :: l => @instDecidableAnd (P a l) (Every P l) _ (Every.decidable l)

/-- An element that is in the list has some elements behind it. -/
theorem exists_suffix_of_mem (h : a ∈ l) : ∃ older, a :: older <:+ l := by
  obtain ⟨newer, older, rfl⟩ := append_of_mem h
  exact ⟨older, newer, rfl⟩

theorem mem_of_suffix {older : List α} (h : a :: older <:+ l) : a ∈ l :=
  h.mem mem_cons_self

/-- No element is `q` since one that is `p`. -/
def Since (p q : α → Prop) (l : List α) : Prop :=
  ∃ newer a older, l = newer ++ a :: older ∧ p a ∧ ∀ b ∈ newer, ¬ q b

theorem since_of_head (ha : p a) : Since p q (a :: l) :=
  ⟨[], a, l, rfl, ha, fun _ h => by cases h⟩

theorem Since.cons (h : Since p q l) (ha : ¬ q a) : Since p q (a :: l) := by
  obtain ⟨newer, b, older, rfl, hb, hnewer⟩ := h
  refine ⟨a :: newer, b, older, rfl, hb, fun c hc => ?_⟩
  rcases mem_cons.1 hc with rfl | hc
  · exact ha
  · exact hnewer c hc

end Lists

/-! ### Along a run -/

/-- The stores along the run are related, an earlier one to each later one. -/
structure Along (R : σ → σ → Prop) (x : Traced σ Resp) : Prop where
  now : ∀ e ∈ x.2, R e.store x.1
  before : Every (fun e older => ∀ z ∈ older, R z.store e.store) x.2

theorem along_nil {R : σ → σ → Prop} (s : σ) : Along R ((s, []) : Traced σ Resp) :=
  ⟨fun _ h => (not_mem_nil h).elim, trivial⟩

/-- A step relates the stores before it to the one after it. -/
theorem Along.step {R : σ → σ → Prop} {e : Entry σ Resp} {t : σ}
    (h : Along R x) (htrans : ∀ {s s' s''}, R s s' → R s' s'' → R s s'') (he : e.store = x.1)
    (hstep : R x.1 t) : Along R (t, e :: x.2) where
  now z hz := by
    rcases mem_cons.1 hz with rfl | hz
    · exact he ▸ hstep
    · exact htrans (h.now z hz) hstep
  before := ⟨fun z hz => he ▸ h.now z hz, h.before⟩

/-! ### Steps of a process -/

variable {i : ℕ} {e : Entry σ Resp} {l l' l'' : Trace σ Resp}

/-- The steps of process `i`. -/
def own (l : Trace σ Resp) (i : ℕ) : Trace σ Resp := l.filter fun e => e.proc = i

theorem own_cons_self (h : e.proc = i) (l : Trace σ Resp) : own (e :: l) i = e :: own l i := by
  simp [own, h]

theorem own_cons_of_ne (h : e.proc ≠ i) (l : Trace σ Resp) : own (e :: l) i = own l i := by
  simp [own, h]

theorem mem_of_own (h : e ∈ own l i) : e ∈ l := mem_of_mem_filter h

theorem mem_own_self (h : e ∈ l) : e ∈ own l e.proc := mem_filter.2 ⟨h, by simp⟩

/-- The trace has grown by steps of other processes than `i`. -/
def Grown (i : ℕ) (l l' : Trace σ Resp) : Prop :=
  ∃ new, l' = new ++ l ∧ ∀ e ∈ new, e.proc ≠ i

theorem Grown.refl (i : ℕ) (l : Trace σ Resp) : Grown i l l :=
  ⟨[], rfl, fun _ h => by cases h⟩

theorem Grown.cons (h : e.proc ≠ i) (l : Trace σ Resp) : Grown i l (e :: l) :=
  ⟨[e], rfl, fun _ he => by rwa [mem_singleton.1 he]⟩

theorem Grown.trans (h : Grown i l l') (h' : Grown i l' l'') : Grown i l l'' := by
  obtain ⟨new, rfl, hnew⟩ := h
  obtain ⟨new', rfl, hnew'⟩ := h'
  refine ⟨new' ++ new, (append_assoc _ _ _).symm, fun e he => ?_⟩
  exact (mem_append.1 he).elim (hnew' e) (hnew e)

theorem Grown.suffix (h : Grown i l l') : l <:+ l' := by
  obtain ⟨new, rfl, -⟩ := h
  exact suffix_append new l

theorem Grown.own_eq (h : Grown i l l') : own l' i = own l i := by
  obtain ⟨new, rfl, hnew⟩ := h
  have hnone : new.filter (fun e => e.proc = i) = [] :=
    filter_eq_nil_iff.2 fun e he => by simpa using hnew e he
  simp [own, filter_append, hnone]

/-- The steps of process `i` are the newest ones. -/
def alone (l : Trace σ Resp) (i : ℕ) : Bool :=
  (l.dropWhile fun e => e.proc = i).all fun e => e.proc ≠ i

theorem alone_cons_self (h : e.proc = i) (l : Trace σ Resp) : alone (e :: l) i = alone l i := by
  simp [alone, h]

theorem alone_cons_of_ne (h : e.proc ≠ i) (l : Trace σ Resp) :
    alone (e :: l) i = true ↔ ∀ z ∈ l, z.proc ≠ i := by
  simp [alone, h]

/-- Where the process has taken steps and they are the newest ones, the others have taken none
since. -/
theorem Grown.eq_of_alone (h : Grown i l l') (he : e ∈ l) (hproc : e.proc = i)
    (halone : alone l' i) : l' = l := by
  obtain ⟨new, rfl, hnew⟩ := h
  cases new with
  | nil => rfl
  | cons z new =>
    have hother := (alone_cons_of_ne (hnew z mem_cons_self) _).1 halone
    exact absurd hproc (hother e (mem_append_right _ he))

/-- The process has taken a step, and as long as nobody has disturbed it since its first one, `F`
holds. -/
def Undisturbed (i : ℕ) (F : Traced σ Resp → Prop) (x : Traced σ Resp) : Prop :=
  (∃ e ∈ x.2, e.proc = i) ∧ (alone x.2 i → F x)

theorem Undisturbed.mono {F F' : Traced σ Resp → Prop}
    (h : Undisturbed i F x) (hF : F x → F' x) : Undisturbed i F' x :=
  ⟨h.1, fun halone => hF (h.2 halone)⟩

/-- What a step of the process achieves by itself. -/
theorem undisturbed_of_step {F : Traced σ Resp → Prop} {w : σ} (hproc : e.proc = i)
    (hF : F (w, e :: l)) : Undisturbed i F (w, e :: l) :=
  ⟨⟨e, mem_cons_self, hproc⟩, fun _ => hF⟩

/-- The next step of the process. -/
theorem Undisturbed.step {F F' : Traced σ Resp → Prop} {w : σ}
    (h : Undisturbed i F x) (hproc : e.proc = i) (hF : F x → F' (w, e :: x.2)) :
    Undisturbed i F' (w, e :: x.2) :=
  ⟨⟨e, mem_cons_self, hproc⟩, fun halone =>
    hF (h.2 (by rwa [alone_cons_self hproc] at halone))⟩

/-- What holds of the steps of each process holds of all steps: where no process has taken more
steps of the kind `q` than of the kind `p`, there are not more of them. -/
theorem countP_le_of_own {p q : Entry σ Resp → Bool}
    (h : ∀ i, (own l i).countP q ≤ (own l i).countP p) : l.countP q ≤ l.countP p := by
  induction hn : l.length using Nat.strong_induction_on generalizing l with
  | _ n ih =>
  subst hn
  cases l with
  | nil => simp
  | cons e l =>
    set k : Trace σ Resp := (e :: l).filter fun z => !decide (z.proc = e.proc) with hk
    have hsplit : ∀ r : Entry σ Resp → Bool, (e :: l).countP r =
        (own (e :: l) e.proc).countP r + k.countP r := fun r =>
      countP_eq_countP_filter_add (e :: l) r fun z => decide (z.proc = e.proc)
    have hlt : k.length < (e :: l).length := by
      refine length_filter_lt_length_iff_exists.2 ⟨e, mem_cons_self, by simp⟩
    have hle : k.countP q ≤ k.countP p := by
      refine ih k.length hlt (fun i => ?_) rfl
      by_cases hi : i = e.proc
      · have hnone : own k i = [] := by
          refine filter_eq_nil_iff.2 fun z hz => ?_
          have hne := (mem_filter.1 hz).2
          simp only [Bool.not_eq_true', decide_eq_false_iff_not] at hne
          simpa [hi] using hne
        simp [hnone]
      · have hsame : own k i = own (e :: l) i := by
          unfold own
          rw [hk, filter_filter]
          refine filter_congr fun z _ => ?_
          by_cases hz : z.proc = i
          · simp [hz, hi]
          · simp [hz]
        rw [hsame]
        exact h i
    rw [hsplit q, hsplit p]
    exact Nat.add_le_add (h e.proc) hle

end Trace

/-! ### Contracts that rely on the trace -/

/-- What the processes of a traced service keep to: an invariant, and when a process may issue a
command; a command that is issued under its precondition keeps the invariant. -/
structure Contract (S : Service σ Cmd Resp Req Env E) where
  inv : Traced σ Resp → Prop
  pre : ℕ → Cmd → Traced σ Resp → Prop
  sound : ∀ {x i c ε w r}, inv x → pre i c x → S.exec x.1 i c ε = some (w, r) →
    inv (w, ⟨i, x.1, c, r⟩ :: x.2)

namespace Contract

variable {S : Service σ Cmd Resp Req Env E} (K : Contract S) {i : ℕ}

/-- The discipline of a contract in the runs under a guard: the others may do whatever shows in the
trace. -/
def disciplineUnder (g : Guard (Traced σ Resp) Cmd Req Env) : Discipline S.traced where
  guard := g
  inv := K.inv
  pre := K.pre
  rely i x y := Trace.Grown i x.2 y.2 ∧ (y.2 = x.2 → y.1 = x.1)
  idle _ _ := True
  rely_refl i x := ⟨.refl i x.2, fun _ => rfl⟩
  rely_trans {i x y z} hxy hyz := by
    refine ⟨hxy.1.trans hyz.1, fun h => ?_⟩
    have hy : y.2 = x.2 :=
      (hyz.1.suffix.eq_of_length_le (h ▸ hxy.1.suffix.length_le)).trans h
    exact (hyz.2 (h.trans hy.symm)).trans (hxy.2 hy)
  idle_rely _ h := h
  sound {x i c ε y r} hx hpre _ hexec := by
    obtain ⟨hcall, htrace⟩ := Service.traced_exec.1 hexec
    obtain ⟨w, l⟩ := y
    obtain rfl := htrace
    refine ⟨K.sound hx hpre hcall, fun j hj => ⟨.cons hj.symm _, fun h => ?_⟩⟩
    exact absurd (congrArg List.length h) (by simp)

/-- The discipline of a contract in all runs. -/
abbrev discipline : Discipline S.traced := K.disciplineUnder Guard.all

variable {K} {g : Guard (Traced σ Resp) Cmd Req Env} {P : Trace σ Resp → Prop}

/-- What a longer trace keeps, lasts. -/
theorem stable_trace (hP : ∀ l l', l <:+ l' → P l → P l') :
    (K.disciplineUnder g).Stable i fun x => P x.2 :=
  fun _ _ _ h hx => hP _ _ h.1.suffix hx

/-- What is said about the steps of the process lasts. -/
theorem stable_own : (K.disciplineUnder g).Stable i fun x => P (Trace.own x.2 i) :=
  fun _ _ _ h hx => (congrArg P h.1.own_eq).mpr hx

/-- What holds as long as the process is not disturbed, lasts. -/
theorem stable_undisturbed {F : Traced σ Resp → Prop} :
    (K.disciplineUnder g).Stable i (Trace.Undisturbed i F) := by
  rintro x y _ h ⟨⟨e, he, hproc⟩, hF⟩
  refine ⟨⟨e, h.1.suffix.mem he, hproc⟩, fun halone => ?_⟩
  have htrace := h.1.eq_of_alone he hproc halone
  obtain rfl : y = x := Prod.ext (h.2 htrace) htrace
  exact hF halone

/-- A single call in the runs under a guard. -/
theorem triple_cmd_under {c : Cmd} {P : Traced σ Resp → Prop}
    {Q : Resp c → Traced σ Resp → Prop} {X : E → Traced σ Resp → Prop}
    (hP : (K.disciplineUnder g).Stable i P) (hpre : ∀ x, K.inv x → P x → K.pre i c x)
    (hstep : ∀ x ε w r, K.inv x → P x → g x (.step i c ε) → S.exec x.1 i c ε = some (w, r) →
      K.inv (w, ⟨i, x.1, c, r⟩ :: x.2) → Q r (w, ⟨i, x.1, c, r⟩ :: x.2))
    (hfault : ∀ e x, g x (.fault i c) → K.inv x → P x → X e x) :
    (K.disciplineUnder g).Triple i P (Op.cmd c) Q X := by
  refine .cmd hP hpre (fun x ε y r hx hPx hg hexec hy => ?_) fun x e hg hx hPx =>
    hfault e x hg hx hPx
  obtain ⟨hcall, htrace⟩ := Service.traced_exec.1 hexec
  obtain ⟨w, l⟩ := y
  obtain rfl := htrace
  exact hstep x ε w r hx hPx hg hcall hy

/-- A single call. -/
theorem triple_cmd {c : Cmd} {P : Traced σ Resp → Prop}
    {Q : Resp c → Traced σ Resp → Prop} {X : E → Traced σ Resp → Prop}
    (hP : K.discipline.Stable i P) (hpre : ∀ x, K.inv x → P x → K.pre i c x)
    (hstep : ∀ x ε w r, K.inv x → P x → S.exec x.1 i c ε = some (w, r) →
      K.inv (w, ⟨i, x.1, c, r⟩ :: x.2) → Q r (w, ⟨i, x.1, c, r⟩ :: x.2))
    (hfault : ∀ e x, K.inv x → P x → X e x) :
    K.discipline.Triple i P (Op.cmd c) Q X :=
  triple_cmd_under hP hpre (fun x ε w r hx hPx _ => hstep x ε w r hx hPx) fun e x _ => hfault e x

/-- An assertion of process `i` about its own steps. -/
abbrev Own (i : ℕ) (P : Trace σ Resp → Prop) (x : Traced σ Resp) : Prop := P (Trace.own x.2 i)

/-- A single call, with assertions about the steps of the process. -/
theorem triple_own {c : Cmd} {Q : Resp c → Trace σ Resp → Prop}
    {X : E → Trace σ Resp → Prop}
    (hpre : ∀ x, K.inv x → P (Trace.own x.2 i) → K.pre i c x)
    (hstep : ∀ x ε w r, K.inv x → P (Trace.own x.2 i) → g x (.step i c ε) →
      S.exec x.1 i c ε = some (w, r) → Q r (⟨i, x.1, c, r⟩ :: Trace.own x.2 i))
    (hfault : ∀ e x, g x (.fault i c) → P (Trace.own x.2 i) → X e (Trace.own x.2 i)) :
    (K.disciplineUnder g).Triple i (Own i P) (Op.cmd c) (fun a => Own i (Q a))
      fun e => Own i (X e) := by
  refine triple_cmd_under stable_own hpre (fun x ε w r hx h hg hexec _ => ?_)
    fun e x hg _ h => hfault e x hg h
  have hown := hstep x ε w r hx h hg hexec
  rwa [← Trace.own_cons_self (rfl : (⟨i, x.1, c, r⟩ : Entry σ Resp).proc = i)] at hown

/-! ### From programs to runs -/

/-- The process has not taken a step. -/
def Fresh (i : ℕ) (x : Traced σ Resp) : Prop := ∀ e ∈ x.2, e.proc ≠ i

theorem Fresh.own_eq (h : Fresh i x) : Trace.own x.2 i = [] :=
  filter_eq_nil_iff.2 fun e he => by simpa using h e he

theorem stable_fresh : (K.disciplineUnder g).Stable i (Fresh i) := by
  rintro x y _ ⟨⟨new, hnew, hother⟩, -⟩ hx e he
  rw [hnew] at he
  exact (mem_append.1 he).elim (hother e) (hx e)

variable (K g) in
/-- In the runs under a guard every handler keeps to the contract from a fresh start, and ends
with `Q`. -/
def HandlesTo (Q : ℕ → Traced σ Resp → Prop) : Prop :=
  ∀ r i, (K.disciplineUnder g).Triple i (Fresh i) (S.handler r) (fun _ => Q i) fun _ => Q i

variable (K) in
/-- Every handler keeps to the contract from a fresh start. -/
def Handles : Prop := K.HandlesTo Guard.all fun _ _ => True

/-- **The rule for a run.** Where every handler keeps to the contract, the invariant holds along
every run, and with it every property that each admitted step preserves; every process keeps to
the contract until it ends with `Q`, and those that have not been started are fresh. -/
theorem obeys_of_mem_run {Q : ℕ → Traced σ Resp → Prop} (hK : K.HandlesTo g Q)
    (hQ : ∀ i, (K.disciplineUnder g).Stable i (Q i))
    {g' : Guard (Traced σ Resp) Cmd Req Env} (hg' : ∀ x v, g' x v → g x v)
    {J : Traced σ Resp → Prop}
    (hJ : ∀ x i c ε w r, K.inv x → J x → K.pre i c x → g' x (.step i c ε) →
      S.exec x.1 i c ε = some (w, r) → J (w, ⟨i, x.1, c, r⟩ :: x.2))
    {s : σ} {c : Config (Traced σ Resp) Resp E} {as : List (Act Req Env E)}
    (h : c ∈ S.traced.run g' (S.traced.idle (s, [])) as) (hinv : K.inv (s, []))
    (h₀ : J (s, [])) : (K.inv c.store ∧ J c.store) ∧ (∀ i op, c.pool[i]? = some op →
        (K.disciplineUnder g).Obeys i (fun _ => Q i) (fun _ => Q i) op c.store) ∧
      ∀ i, c.pool.length ≤ i → Fresh i c.store := by
  set D := K.disciplineUnder g with hD
  refine S.traced.run_induction g' h (P := fun d => (D.inv d.store ∧ J d.store) ∧
    (∀ i op, d.pool[i]? = some op → D.Obeys i (fun _ => Q i) (fun _ => Q i) op d.store) ∧
    ∀ i, d.pool.length ≤ i → Fresh i d.store)
    ⟨⟨hinv, h₀⟩, by simp, fun _ _ e he => by cases he⟩ ?_
  rintro d d' ⟨⟨hd, hJd⟩, hobeys, hfresh⟩ hcase
  cases hcase with
  | spawn r hg =>
    refine ⟨⟨hd, hJd⟩, fun i op hop => ?_, fun i hi => hfresh i ?_⟩
    · rcases lt_trichotomy i d.pool.length with hlt | rfl | hgt
      · rw [getElem?_append_left hlt] at hop
        exact hobeys i op hop
      · obtain rfl : S.handler r = op := by simpa using hop
        exact hK r _ _ hd (hfresh _ le_rfl)
      · rw [getElem?_eq_none (by simp; omega)] at hop
        cases hop
    · simp only [length_append, length_singleton] at hi
      omega
  | step i ε cmd k hh y r hop hg hexec =>
    obtain ⟨hpre, -, hcont⟩ := hobeys i _ hop d.store hd (D.rely_refl i _)
    obtain ⟨hy, hrely⟩ := D.sound hd hpre (hg' _ _ hg) hexec
    have hi : i < d.pool.length := (List.getElem?_eq_some_iff.1 hop).1
    obtain ⟨hcall, htrace⟩ := Service.traced_exec.1 hexec
    obtain ⟨w, l⟩ := y
    obtain rfl := htrace
    refine ⟨⟨hy, hJ _ i cmd ε w r hd hJd hpre hg hcall⟩, fun j op hj => ?_, fun j hj => ?_⟩
    · rcases eq_or_ne i j with rfl | hne
      · simp only [getElem?_set_self hi, Option.some.injEq] at hj
        subst hj
        exact hcont ε _ r (hg' _ _ hg) hexec hy
      · rw [getElem?_set_ne hne] at hj
        exact (hobeys j op hj).rely (fun _ => hQ j) (fun _ => hQ j) hy (hrely j hne.symm)
    · rw [length_set] at hj
      have hne : i ≠ j := by omega
      exact stable_fresh _ _ hy (hrely j hne.symm) (hfresh j hj)
  | fault i e cmd k hh hop hg =>
    obtain ⟨-, hfault, -⟩ := hobeys i _ hop d.store hd (D.rely_refl i _)
    have hi : i < d.pool.length := (List.getElem?_eq_some_iff.1 hop).1
    refine ⟨⟨hd, hJd⟩, fun j op hj => ?_, fun j hj => hfresh j (by simpa using hj)⟩
    rcases eq_or_ne i j with rfl | hne
    · simp only [getElem?_set_self hi, Option.some.injEq] at hj
      subst hj
      exact hfault (hg' _ _ hg) e
    · rw [getElem?_set_ne hne] at hj
      exact hobeys j op hj

/-- **Safety of a run.** Where every handler keeps to the contract, the invariant holds along every
run, and with it every property that each admitted step preserves. -/
theorem inv_of_mem_run (hK : K.Handles) {g : Guard (Traced σ Resp) Cmd Req Env}
    {J : Traced σ Resp → Prop}
    (hJ : ∀ x i c ε w r, K.inv x → J x → K.pre i c x → g x (.step i c ε) →
      S.exec x.1 i c ε = some (w, r) → J (w, ⟨i, x.1, c, r⟩ :: x.2))
    {s : σ} {c : Config (Traced σ Resp) Resp E} {as : List (Act Req Env E)}
    (h : c ∈ S.traced.run g (S.traced.idle (s, [])) as) (hinv : K.inv (s, []))
    (h₀ : J (s, [])) : K.inv c.store ∧ J c.store :=
  (obeys_of_mem_run hK (fun _ => Discipline.stable_const True) (fun _ _ _ => rfl) hJ h hinv h₀).1

/-- **At rest** every process that has taken a step has ended with `Q`. -/
theorem done_of_mem_run {Q : ℕ → Traced σ Resp → Prop} (hK : K.HandlesTo g Q)
    (hQ : ∀ i, (K.disciplineUnder g).Stable i (Q i)) {s : σ} {c : Config (Traced σ Resp) Resp E} {as : List (Act Req Env E)}
    (h : c ∈ S.traced.run g (S.traced.idle (s, [])) as) (hinv : K.inv (s, []))
    (hquiet : c.Quiescent) {e : Entry σ Resp} (he : e ∈ c.store.2) : Q e.proc c.store := by
  obtain ⟨⟨hc, -⟩, hobeys, hfresh⟩ := obeys_of_mem_run hK hQ (fun _ _ h => h) (J := fun _ => True)
    (fun _ _ _ _ _ _ _ _ _ _ _ => trivial) h hinv trivial
  rcases lt_or_ge e.proc c.pool.length with hlt | hge
  · have hop : c.pool[e.proc]? = some c.pool[e.proc] := getElem?_eq_getElem hlt
    have hdone := hquiet _ (getElem_mem hlt)
    have hends := hobeys e.proc _ hop
    cases hprog : c.pool[e.proc] with
    | ret | fail => rwa [hprog] at hends
    | call cmd k hh =>
      rw [hprog] at hdone
      cases hdone
  · exact absurd rfl (hfresh e.proc hge e he)

end Contract

end Async
