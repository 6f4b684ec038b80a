import Mathlib.Logic.Basic

/-!
# Asynchronous operations over a shared store

An operation of a service is a sequence of calls on a shared store — a query, a
transaction, a request to a third party — with local computation in between. Each call is
atomic; between two calls of one operation any number of calls of other operations may
take effect. `Op Resp E α` is the syntax of such operations: a finished operation that
returned (`ret`) or threw (`fail`), or a pending call together with what the operation
does with the answer and what it does when the call itself throws.

The type is generic in the commands `Cmd`, their answers `Resp`, the errors `E` and the
result `α`; nothing here mentions a particular store. Its monad structure lets programs be
written in `do`-notation with `throw`, `try … catch` and `List.forM` loops, and all of
these operations are structural recursions, so programs compute.
-/

namespace Async

/-- A step has one outcome: the state and the answer are told by it. -/
theorem pair_inj {α β : Type*} {a c : α} {b d : β} (h : some (a, b) = some (c, d)) :
    a = c ∧ b = d :=
  Prod.mk.inj (Option.some.inj h)

theorem triple_inj {α β γ : Type*} {a d : α} {b e : β} {c f : γ}
    (h : some (a, b, c) = some (d, e, f)) : a = d ∧ b = e ∧ c = f :=
  ⟨(pair_inj h).1, Prod.mk.inj (pair_inj h).2⟩

variable {Cmd : Type} {Resp : Cmd → Type} {E α β : Type}

/-- An asynchronous operation: returned, threw, or waiting at the call `c` with the
continuation `k` for its answer and `h` for an error thrown by the call. -/
inductive Op (Resp : Cmd → Type) (E α : Type) : Type
  | ret (a : α) : Op Resp E α
  | fail (e : E) : Op Resp E α
  | call (c : Cmd) (k : Resp c → Op Resp E α) (h : E → Op Resp E α) : Op Resp E α

namespace Op

/-- The operation that issues the single call `c`; an error of the call is thrown. -/
def cmd (c : Cmd) : Op Resp E (Resp c) :=
  .call c .ret .fail

/-- Sequential composition: `f` continues where `x` returns, errors pass through. -/
def bind : Op Resp E α → (α → Op Resp E β) → Op Resp E β
  | .ret a, f => f a
  | .fail e, _ => .fail e
  | .call c k h, f => .call c (fun r => (k r).bind f) fun e => (h e).bind f

/-- `try x catch g`: where `x` throws `e`, the handler `g e` continues. -/
def orElseCatch : Op Resp E α → (E → Op Resp E α) → Op Resp E α
  | .ret a, _ => .ret a
  | .fail e, g => g e
  | .call c k h, g => .call c (fun r => (k r).orElseCatch g) fun e => (h e).orElseCatch g

instance : Monad (Op Resp E) where
  pure := .ret
  bind := Op.bind

instance : MonadExceptOf E (Op Resp E) where
  throw := .fail
  tryCatch := orElseCatch

/-- The operation has returned or thrown. -/
def done : Op Resp E α → Bool
  | .ret _ => true
  | .fail _ => true
  | .call _ _ _ => false

@[simp]
theorem done_ret (a : α) : (Op.ret a : Op Resp E α).done = true := rfl

@[simp]
theorem done_fail (e : E) : (Op.fail e : Op Resp E α).done = true := rfl

@[simp]
theorem done_call (c : Cmd) (k : Resp c → Op Resp E α) (h : E → Op Resp E α) :
    (Op.call c k h).done = false := rfl

/-! ### The monad operations on constructors -/

@[simp]
theorem pure_eq (a : α) : (pure a : Op Resp E α) = .ret a := rfl

@[simp]
theorem throw_eq (e : E) : (throw e : Op Resp E α) = .fail e := rfl

@[simp]
theorem bind_eq (x : Op Resp E α) (f : α → Op Resp E β) : x >>= f = x.bind f := rfl

@[simp]
theorem tryCatch_eq (x : Op Resp E α) (g : E → Op Resp E α) :
    tryCatch x g = x.orElseCatch g := rfl

@[simp]
theorem ret_bind (a : α) (f : α → Op Resp E β) : (Op.ret a).bind f = f a := rfl

@[simp]
theorem fail_bind (e : E) (f : α → Op Resp E β) : (Op.fail e).bind f = .fail e := rfl

@[simp]
theorem call_bind (c : Cmd) (k : Resp c → Op Resp E α) (h : E → Op Resp E α) (f : α → Op Resp E β) :
    (Op.call c k h).bind f = .call c (fun r => (k r).bind f) fun e => (h e).bind f := rfl

@[simp]
theorem ret_orElseCatch (a : α) (g : E → Op Resp E α) : (Op.ret a).orElseCatch g = .ret a := rfl

@[simp]
theorem fail_orElseCatch (e : E) (g : E → Op Resp E α) : (Op.fail e).orElseCatch g = g e := rfl

@[simp]
theorem call_orElseCatch (c : Cmd) (k : Resp c → Op Resp E α) (h : E → Op Resp E α)
    (g : E → Op Resp E α) :
    (Op.call c k h).orElseCatch g =
      .call c (fun r => (k r).orElseCatch g) fun e => (h e).orElseCatch g := rfl

/-- Sequencing is associative. -/
theorem bind_assoc {γ : Type} (x : Op Resp E α) (f : α → Op Resp E β) (g : β → Op Resp E γ) :
    (x.bind f).bind g = x.bind fun a => (f a).bind g := by
  induction x with
  | ret | fail => rfl
  | call c k h ihk ihh => simp only [call_bind, ihk, ihh]

end Op

end Async
