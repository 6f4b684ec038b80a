import Rabotka.Lib.Op

/-!
# Operations run alone

Where operations do not overlap, an operation is a function of the store: `Op.alone` takes its
calls one after the other, with nothing in between, and returns the store with the result or
the error. A call that the store refuses throws.

`Serial P op Q X` is the Hoare triple of such a run: from a store with `P` the operation ends
with `Q` of its result, or throws with `X`. It has one rule for each program construct, so a
program is checked by following its text.
-/

namespace Async.Op

variable {σ Cmd : Type} {Resp : Cmd → Type} {E α β : Type}
variable (exec : σ → (c : Cmd) → Option (σ × Resp c)) (refused : E)

/-- The operation from start to end on the store `s`; a call that `exec` refuses throws
`refused`. -/
def alone : Op Resp E α → σ → σ × Except E α
  | .ret a, s => (s, .ok a)
  | .fail e, s => (s, .error e)
  | .call c k h, s =>
    match exec s c with
    | some (t, r) => (k r).alone t
    | none => (h refused).alone s

/-- A sequence runs its second part on the store the first part leaves, unless that throws. -/
theorem alone_bind (x : Op Resp E α) (f : α → Op Resp E β) (s : σ) :
    (x.bind f).alone exec refused s =
      match x.alone exec refused s with
      | (t, .ok a) => (f a).alone exec refused t
      | (t, .error e) => (t, .error e) := by
  induction x generalizing s with
  | ret | fail => rfl
  | call c k h ihk ihh =>
    rw [call_bind, alone, alone]
    cases exec s c with
    | none => exact ihh refused s
    | some tr => exact ihk tr.2 tr.1

/-- `try … catch` runs the handler on the store the throwing part leaves. -/
theorem alone_orElseCatch (x : Op Resp E α) (g : E → Op Resp E α) (s : σ) :
    (x.orElseCatch g).alone exec refused s =
      match x.alone exec refused s with
      | (t, .ok a) => (t, .ok a)
      | (t, .error e) => (g e).alone exec refused t := by
  induction x generalizing s with
  | ret | fail => rfl
  | call c k h ihk ihh =>
    rw [call_orElseCatch, alone, alone]
    cases exec s c with
    | none => exact ihh refused s
    | some tr => exact ihk tr.2 tr.1

/-- A call at the head of a sequence. -/
theorem alone_cmd_bind {c : Cmd} {s t : σ} {a : Resp c} (h : exec s c = some (t, a))
    (k : Resp c → Op Resp E α) :
    ((Op.cmd c).bind k).alone exec refused s = (k a).alone exec refused t := by
  simp only [Op.cmd, call_bind, ret_bind, alone, h]

/-- An operation at the head of a sequence. -/
theorem alone_bind_of_ok {x : Op Resp E α} {a : α} {s t : σ}
    (h : x.alone exec refused s = (t, .ok a)) (f : α → Op Resp E β) :
    (x.bind f).alone exec refused s = (f a).alone exec refused t := by
  rw [alone_bind, h]

/-- A `try` whose body returns. -/
theorem alone_orElseCatch_of_ok {x : Op Resp E α} {a : α} {s t : σ}
    (h : x.alone exec refused s = (t, .ok a)) (g : E → Op Resp E α) :
    (x.orElseCatch g).alone exec refused s = (t, .ok a) := by
  rw [alone_orElseCatch, h]

/-! ### Triples -/

/-- What a run that ends with `o` has achieved. -/
def Outcome (Q : α → σ → Prop) (X : E → σ → Prop) : σ × Except E α → Prop
  | (t, .ok a) => Q a t
  | (t, .error e) => X e t

/-- From a store with `P`, the operation ends with `Q` or throws with `X`. -/
def Serial (P : σ → Prop) (op : Op Resp E α) (Q : α → σ → Prop) (X : E → σ → Prop) : Prop :=
  ∀ s, P s → Outcome Q X (op.alone exec refused s)

namespace Serial

variable {exec refused} {P R : σ → Prop} {Q : β → σ → Prop} {X Y : E → σ → Prop}

theorem ret {a : β} (h : ∀ s, P s → Q a s) : Serial exec refused P (.ret a) Q X :=
  h

theorem fail {e : E} (h : ∀ s, P s → X e s) : Serial exec refused P (.fail e) Q X :=
  h

variable {op : Op Resp E β}

theorem pre_mono (h : Serial exec refused R op Q X)
    (hPR : ∀ s, P s → R s) : Serial exec refused P op Q X :=
  fun s hs => h s (hPR s hs)

theorem post_mono {Q' : β → σ → Prop} (h : Serial exec refused P op Q Y)
    (hQ : ∀ a s, Q a s → Q' a s) (hX : ∀ e s, Y e s → X e s) :
    Serial exec refused P op Q' X := by
  intro s hs
  have hos := h s hs
  generalize op.alone exec refused s = o at hos ⊢
  obtain ⟨t, e | a⟩ := o
  · exact hX e t hos
  · exact hQ a t hos

/-- A fact that does not speak of the store may be used as a hypothesis. -/
theorem of_fact {p : Prop} (h : p → Serial exec refused P op Q X) :
    Serial exec refused (fun s => P s ∧ p) op Q X :=
  fun s hs => h hs.2 s hs.1

theorem bind {R : α → σ → Prop} {x : Op Resp E α} {f : α → Op Resp E β}
    (hx : Serial exec refused P x R X) (hf : ∀ a, Serial exec refused (R a) (f a) Q X) :
    Serial exec refused P (x.bind f) Q X := by
  intro s hs
  have hxs := hx s hs
  rw [alone_bind]
  generalize x.alone exec refused s = o at hxs ⊢
  obtain ⟨t, e | a⟩ := o
  · exact hxs
  · exact hf a t hxs

theorem orElseCatch {x : Op Resp E β} {g : E → Op Resp E β}
    (hx : Serial exec refused P x Q Y) (hg : ∀ e, Serial exec refused (Y e) (g e) Q X) :
    Serial exec refused P (x.orElseCatch g) Q X := by
  intro s hs
  have hxs := hx s hs
  rw [alone_orElseCatch]
  generalize x.alone exec refused s = o at hxs ⊢
  obtain ⟨t, e | a⟩ := o
  · exact hg e t hxs
  · exact hxs

/-- A single call, and the exception in its place where the store refuses it. -/
theorem cmd {c : Cmd} {Q : Resp c → σ → Prop}
    (hstep : ∀ s t r, P s → exec s c = some (t, r) → Q r t)
    (hrefused : ∀ s, P s → exec s c = none → X refused s) :
    Serial exec refused P (Op.cmd c) Q X := by
  intro s hs
  rw [Op.cmd, alone]
  cases h : exec s c with
  | none => exact hrefused s hs h
  | some tr => exact hstep s tr.1 tr.2 hs h

end Serial

end Async.Op
