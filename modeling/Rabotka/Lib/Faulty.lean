import Mathlib.Data.List.Basic

/-!
# Programs whose calls may throw

A `Prog` runs alone on a store. Its calls have names, and which of the named calls throw is given
from outside, so that one program stands for its runs under every choice of failures. A call that
throws leaves the store as it is, and so does a transaction in which something throws
(`atomically`); but what a program did in earlier calls stays when it throws later, unless a
handler undoes it (`rescue`).

There are two ways to reason about such a program. `Triple` is a Hoare triple with a second
postcondition, for the store that the program leaves behind when it throws. `Route` is about one
store and lists the calls that the program makes from there when none of them throws: it then
returns a known answer in a known store, and it throws as soon as one of the listed calls does.
-/

namespace Faulty

/-- What a program throws: a refusal of its own, or the failure of one of its calls. -/
inductive Thrown (Site : Type)
  | refused (message : String)
  | failed (site : Site)
  deriving DecidableEq

/-- A program over the store `S`, given the calls that throw. -/
def Prog (Site S α : Type) : Type := (Site → Bool) → S → Except (Thrown Site) α × S

variable {Site S α β ι : Type}

namespace Prog

/-- What follows a program. -/
def bind (m : Prog Site S α) (f : α → Prog Site S β) : Prog Site S β := fun fails s =>
  match m fails s with
  | (.ok a, t) => f a fails t
  | (.error e, t) => (.error e, t)

instance : Monad (Prog Site S) where
  pure a := fun _ s => (.ok a, s)
  bind := bind

end Prog

/-- The call `x`, which has the effect `f` unless it throws. -/
def call (x : Site) (f : S → α × S) : Prog Site S α := fun fails s =>
  if fails x then (.error (.failed x), s) else (.ok (f s).1, (f s).2)

/-- A call that only reads. -/
def read (x : Site) (f : S → α) : Prog Site S α := call x fun s => (f s, s)

/-- A call that only writes. -/
def write (x : Site) (f : S → S) : Prog Site S Unit := call x fun s => ((), f s)

/-- Throws without a call. -/
def refuse (message : String) : Prog Site S α := fun _ s => (.error (.refused message), s)

/-- Throws what was caught. -/
def rethrow (e : Thrown Site) : Prog Site S α := fun _ s => (.error e, s)

/-- A transaction: nothing of it stays when it throws. -/
def atomically (m : Prog Site S α) : Prog Site S α := fun fails s =>
  match m fails s with
  | (.ok a, t) => (.ok a, t)
  | (.error e, _) => (.error e, s)

/-- `try … catch`: the handler starts from the store that the throw left. -/
def rescue (m : Prog Site S α) (h : Thrown Site → Prog Site S α) : Prog Site S α := fun fails s =>
  match m fails s with
  | (.ok a, t) => (.ok a, t)
  | (.error e, t) => h e fails t

/-- Whatever the program throws is dropped. -/
def swallow (m : Prog Site S Unit) : Prog Site S Unit := rescue m fun _ => pure ()

variable {fails : Site → Bool}

theorem bind_of_ok {m : Prog Site S α} {f : α → Prog Site S β} {s t : S}
    {a : α} (h : m fails s = (.ok a, t)) : (m >>= f) fails s = f a fails t := by
  change Prog.bind m f fails s = _
  rw [Prog.bind, h]

theorem bind_of_error {m : Prog Site S α} {f : α → Prog Site S β} {s t : S}
    {e : Thrown Site} (h : m fails s = (.error e, t)) : (m >>= f) fails s = (.error e, t) := by
  change Prog.bind m f fails s = _
  rw [Prog.bind, h]

variable {g : S → α × S}

theorem call_of_fails {x : Site} (h : fails x = true)
    (s : S) : call x g fails s = (.error (.failed x), s) := by
  rw [call, if_pos h]

/-! ### Triples -/

/-- The outcome of a run: an answer with `Q`, or a throw with `X`. -/
def Meets (Q : α → S → Prop) (X : S → Prop) : Except (Thrown Site) α × S → Prop
  | (.ok a, t) => Q a t
  | (.error _, t) => X t

variable {h : Thrown Site → Prog Site S α}

section Triples

variable (fails : Site → Bool)

/-- From `P` the program returns with `Q` or throws with `X`. -/
def Triple (P : S → Prop) (m : Prog Site S α) (Q : α → S → Prop) (X : S → Prop) : Prop :=
  ∀ s, P s → Meets Q X (m fails s)

variable {fails} {P P' X X' : S → Prop} {Q Q' : α → S → Prop} {R : β → S → Prop}
  {m : Prog Site S α} {f : α → Prog Site S β} {x : Site} {s t : S}

namespace Triple

theorem of_ok (h : Triple fails P m Q X) (hs : P s) {a : α} (hok : m fails s = (.ok a, t)) :
    Q a t := by
  have hmeets := h s hs
  rwa [hok] at hmeets

theorem of_error (h : Triple fails P m Q X) (hs : P s) {e : Thrown Site}
    (herror : m fails s = (.error e, t)) : X t := by
  have hmeets := h s hs
  rwa [herror] at hmeets

theorem pure {a : α} (h : ∀ s, P s → Q a s) : Triple fails P (pure a : Prog Site S α) Q X :=
  fun s hs => h s hs

theorem refuse {message : String} (h : ∀ s, P s → X s) :
    Triple fails P (refuse message : Prog Site S α) Q X :=
  fun s hs => h s hs

theorem rethrow {e : Thrown Site} (h : ∀ s, P s → X s) :
    Triple fails P (rethrow e : Prog Site S α) Q X :=
  fun s hs => h s hs

theorem bind (hm : Triple fails P m Q X) (hf : ∀ a, Triple fails (Q a) (f a) R X) :
    Triple fails P (m >>= f) R X := by
  intro s hs
  change Meets R X (Prog.bind m f fails s)
  rw [Prog.bind]
  split
  · rename_i a t heq
    exact hf a t (hm.of_ok hs heq)
  · rename_i e t heq
    exact hm.of_error hs heq

/-- A call that throws leaves the store as it is. -/
theorem call (hX : ∀ s, P s → X s) (hQ : ∀ s, P s → fails x = false → Q (g s).1 (g s).2) :
    Triple fails P (call x g) Q X := by
  intro s hs
  rw [Faulty.call]
  split
  · exact hX s hs
  · rename_i hx
    exact hQ s hs (Bool.eq_false_iff.2 hx)

/-- A call that is known not to throw. -/
theorem answered (hx : fails x = false)
    (hQ : ∀ s, P s → Q (g s).1 (g s).2) : Triple fails P (Faulty.call x g) Q X := by
  intro s hs
  rw [Faulty.call, if_neg (Bool.eq_false_iff.1 hx)]
  exact hQ s hs

theorem mono (hm : Triple fails P m Q X) (hP : ∀ s, P' s → P s) (hQ : ∀ a s, Q a s → Q' a s)
    (hX : ∀ s, X s → X' s) : Triple fails P' m Q' X' := by
  intro s hs
  cases h : m fails s with
  | mk outcome t =>
    cases outcome with
    | ok a => exact hQ a t (hm.of_ok (hP s hs) h)
    | error e => exact hX t (hm.of_error (hP s hs) h)

/-- A fact of the precondition that is not about the store is an assumption. -/
theorem assuming {c : Prop} (h : c → Triple fails P m Q X) :
    Triple fails (fun s => P s ∧ c) m Q X :=
  fun s hs => h hs.2 s hs.1

/-- What a transaction owes when it throws holds before it. -/
theorem atomically (hm : Triple fails P m Q X) (hX : ∀ s, P s → X' s) :
    Triple fails P (atomically m) Q X' := by
  intro s hs
  rw [Faulty.atomically]
  split
  · rename_i a t heq
    exact hm.of_ok hs heq
  · exact hX s hs

theorem rescue (hm : Triple fails P m Q X)
    (hh : ∀ e, Triple fails X (h e) Q X') : Triple fails P (rescue m h) Q X' := by
  intro s hs
  rw [Faulty.rescue]
  split
  · rename_i a t heq
    exact hm.of_ok hs heq
  · rename_i e t heq
    exact hh e t (hm.of_error hs heq)

/-- A program that cannot return throws. -/
theorem throws (h : Triple fails P m (fun _ _ => False) X) (hs : P s) :
    ∃ e t, m fails s = (.error e, t) := by
  cases hm : m fails s with
  | mk outcome t =>
    cases outcome with
    | ok a => exact (h.of_ok hs hm).elim
    | error e => exact ⟨e, t, rfl⟩

/-- A call that keeps an assertion. -/
theorem keep (h : ∀ s, P s → P (g s).2) : Triple fails P (Faulty.call x g) (fun _ => P) P :=
  call (fun _ hs => hs) fun s hs _ => h s hs

theorem swallow {m : Prog Site S Unit} (h : Triple fails P m (fun _ => P) P) :
    Triple fails P (swallow m) (fun _ => P) P :=
  rescue h fun _ => pure fun _ hs => hs

/-- The invariant of a loop. -/
theorem forM {g : ι → Prog Site S Unit} {l : List ι}
    (hg : ∀ b ∈ l, Triple fails P (g b) (fun _ => P) P) :
    Triple fails P (l.forM g) (fun _ => P) P := by
  induction l with
  | nil => exact pure fun _ h => h
  | cons b l ih =>
    exact bind (hg b List.mem_cons_self) fun _ => ih fun c hc => hg c (List.mem_cons_of_mem b hc)

end Triple

end Triples

/-! ### Routes -/

section Routes

variable (fails : Site → Bool)

/-- From `s` the program makes the calls `xs`: it comes to `a` in the store `t` if none of them
throws, and it throws if one does. -/
structure Route (m : Prog Site S α) (s : S) (xs : List Site) (a : α) (t : S) : Prop where
  returns : (∀ x ∈ xs, fails x = false) → m fails s = (.ok a, t)
  throws : (∃ x ∈ xs, fails x = true) → ∃ e u, m fails s = (.error e, u)

variable {fails} {m : Prog Site S α} {f : α → Prog Site S β} {s t u : S} {xs ys : List Site}
  {a : α} {b : β} {x : Site}

namespace Route

/-- It throws exactly when one of its calls does. -/
theorem throws_iff (h : Route fails m s xs a t) :
    (∃ e u, m fails s = (.error e, u)) ↔ ∃ x ∈ xs, fails x = true := by
  refine ⟨fun ⟨e, u, he⟩ => ?_, h.throws⟩
  by_contra hnone
  have hreturns := h.returns fun x hx => Bool.eq_false_iff.2 fun hfails => hnone ⟨x, hx, hfails⟩
  rw [he] at hreturns
  exact nomatch (Prod.mk.inj hreturns).1

/-- A program that returns has got an answer to every call. -/
theorem answered (h : Route fails m s xs a t) {a' : α} (hok : m fails s = (.ok a', u)) :
    ∀ x ∈ xs, fails x = false := by
  intro x hx
  by_contra hfails
  obtain ⟨e, v, he⟩ := h.throws ⟨x, hx, eq_true_of_ne_false hfails⟩
  rw [hok] at he
  exact nomatch (Prod.mk.inj he).1

theorem pure (a : α) (s : S) : Route fails (pure a : Prog Site S α) s [] a s :=
  ⟨fun _ => rfl, fun ⟨_, hx, _⟩ => nomatch hx⟩

theorem bind (hm : Route fails m s xs a t) (hf : Route fails (f a) t ys b u) :
    Route fails (m >>= f) s (xs ++ ys) b u := by
  have heq : (m >>= f) fails s = Prog.bind m f fails s := rfl
  refine ⟨fun hnone => ?_, fun ⟨x, hx, hfails⟩ => ?_⟩
  · rw [heq, Prog.bind, hm.returns fun x hx => hnone x (List.mem_append_left _ hx)]
    exact hf.returns fun x hx => hnone x (List.mem_append_right _ hx)
  · rw [heq, Prog.bind]
    by_cases hfirst : ∃ x ∈ xs, fails x = true
    · obtain ⟨e, u, he⟩ := hm.throws hfirst
      exact ⟨e, u, by rw [he]⟩
    · have hreturns := hm.returns fun x hx => Bool.eq_false_iff.2 fun h => hfirst ⟨x, hx, h⟩
      rw [hreturns]
      refine hf.throws ⟨x, (List.mem_append.1 hx).resolve_left fun h => hfirst ⟨x, h, hfails⟩,
        hfails⟩

theorem call (x : Site) (g : S → α × S) (s : S) : Route fails (call x g) s [x] (g s).1 (g s).2 := by
  refine ⟨fun hnone => ?_, fun ⟨y, hy, hfails⟩ => ⟨.failed x, s, ?_⟩⟩
  · rw [Faulty.call, hnone x (List.mem_singleton_self x)]
    rfl
  · rw [List.mem_singleton.1 hy] at hfails
    rw [Faulty.call, if_pos hfails]

theorem of_call (h : g s = (a, t)) (x : Site) : Route fails (Faulty.call x g) s [x] a t := by
  have hcall := @Route.call _ _ _ fails x g s
  rwa [h] at hcall

theorem call_bind (h : g s = (a, t)) (hf : Route fails (f a) t ys b u) :
    Route fails (Faulty.call x g >>= f) s (x :: ys) b u :=
  bind (of_call h x) hf

theorem read_bind {g : S → α} (h : g s = a) (hf : Route fails (f a) s ys b u) :
    Route fails (read x g >>= f) s (x :: ys) b u :=
  call_bind (g := fun s => (g s, s)) (congrArg (fun a => (a, s)) h) hf

theorem atomically (hm : Route fails m s xs a t) : Route fails (atomically m) s xs a t := by
  refine ⟨fun hnone => ?_, fun hsome => ?_⟩
  · rw [Faulty.atomically, hm.returns hnone]
  · obtain ⟨e, u, he⟩ := hm.throws hsome
    exact ⟨e, s, by rw [Faulty.atomically, he]⟩

/-- A handler that throws in its turn changes nothing of the route. -/
theorem rescue (hm : Route fails m s xs a t)
    (hh : ∀ e u, ∃ e' u', h e fails u = (.error e', u')) : Route fails (rescue m h) s xs a t := by
  refine ⟨fun hnone => ?_, fun hsome => ?_⟩
  · rw [Faulty.rescue, hm.returns hnone]
  · obtain ⟨e, u, he⟩ := hm.throws hsome
    obtain ⟨e', u', he'⟩ := hh e u
    exact ⟨e', u', by rw [Faulty.rescue, he]; exact he'⟩

/-- What is swallowed cannot throw. -/
theorem swallow (m : Prog Site S Unit) (s : S) :
    Route fails (swallow m) s [] () (swallow m fails s).2 := by
  refine ⟨fun _ => ?_, fun ⟨_, hx, _⟩ => nomatch hx⟩
  rw [Faulty.swallow, Faulty.rescue]
  cases m fails s with
  | mk outcome t => cases outcome <;> rfl

/-- A loop makes the calls of its rounds. -/
theorem forM {g : ι → Prog Site S Unit} {calls : ι → List Site} {step : ι → S → S}
    (hg : ∀ b s, Route fails (g b) s (calls b) () (step b s)) (l : List ι) (s : S) :
    Route fails (l.forM g) s (l.flatMap calls) () (l.foldl (fun s b => step b s) s) := by
  induction l generalizing s with
  | nil => exact pure () s
  | cons b l ih =>
    exact bind (hg b s) (ih (step b s))

end Route

variable (fails) in
/-- From `s` the program makes the calls `xs`, whatever it comes to. -/
def Makes (m : Prog Site S α) (s : S) (xs : List Site) : Prop := ∃ a t, Route fails m s xs a t

namespace Makes

theorem throws_iff (h : Makes fails m s xs) :
    (∃ e u, m fails s = (.error e, u)) ↔ ∃ x ∈ xs, fails x = true :=
  let ⟨_, _, hroute⟩ := h
  hroute.throws_iff

theorem pure (a : α) (s : S) : Makes fails (pure a : Prog Site S α) s [] :=
  ⟨a, s, .pure a s⟩

theorem bind (hm : Route fails m s xs a t) (hf : Makes fails (f a) t ys) :
    Makes fails (m >>= f) s (xs ++ ys) :=
  let ⟨b, u, hroute⟩ := hf
  ⟨b, u, hm.bind hroute⟩

theorem call_bind (h : g s = (a, t)) (hf : Makes fails (f a) t ys) :
    Makes fails (call x g >>= f) s (x :: ys) :=
  let ⟨b, u, hroute⟩ := hf
  ⟨b, u, .call_bind h hroute⟩

theorem read_bind {g : S → α} (h : g s = a) (hf : Makes fails (f a) s ys) :
    Makes fails (read x g >>= f) s (x :: ys) :=
  let ⟨b, u, hroute⟩ := hf
  ⟨b, u, .read_bind h hroute⟩

theorem of_eq (h : Makes fails m s xs) (hxs : xs = ys) : Makes fails m s ys :=
  hxs ▸ h

/-- What is swallowed adds no call that can throw. -/
theorem swallow_bind {m : Prog Site S Unit} {f : Unit → Prog Site S β}
    (hf : ∀ t, Makes fails (f ()) t ys) : Makes fails (swallow m >>= f) s ys :=
  bind (.swallow m s) (hf _)

theorem rescue (hm : Makes fails m s xs)
    (hh : ∀ e u, ∃ e' u', h e fails u = (.error e', u')) : Makes fails (rescue m h) s xs :=
  let ⟨a, t, hroute⟩ := hm
  ⟨a, t, hroute.rescue hh⟩

end Makes

end Routes

end Faulty
