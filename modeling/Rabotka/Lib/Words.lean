import Mathlib.Data.List.Chain
import Rabotka.Lib.Trim

/-!
# Words and gaps

A text as words, none of whose elements is white, with gaps of white elements before, between and
after them (`blocks`, `render_blocks`). What rewrites only white elements acts on each gap on its
own:

* `replaceRuns` replaces the maximal runs of a kind of elements that are longer than a bound, and
  goes through the words of a text whatever is in its gaps (`replaceRuns_render`).
* Trimming takes away the white ends of the outer gaps (`trim_render`); `core` is what is left if
  they are white, the words with what is made of the gaps between them.
* `InOrder`: words are found one after another in a text.
-/

namespace Rabotka.Lib.Words

open Trim List

variable {α : Type*}

/-! ### Words and gaps -/

/-- Words, each with the gap after it. -/
abbrev Blocks (α : Type*) := List (List α × List α)

/-- The text of a first gap and of words with their gaps. -/
def render (gap : List α) (bs : Blocks α) : List α :=
  gap ++ bs.flatMap fun b => b.1 ++ b.2

/-- The first gap of a text, and its words with their gaps. -/
def blocks (p : α → Bool) : List α → List α × Blocks α
  | [] => ([], [])
  | x :: l =>
    if p x then (x :: (blocks p l).1, (blocks p l).2)
    else
      match blocks p l with
      | ([], (w, g) :: bs) => ([], (x :: w, g) :: bs)
      | (g, bs) => ([], ([x], g) :: bs)

/-- A word is not empty and has no white element. -/
def IsWord (p : α → Bool) (w : List α) : Prop :=
  w ≠ [] ∧ ∀ x ∈ w, p x = false

/-- Words with white gaps, of which only the last may be empty. -/
inductive Spaced (p : α → Bool) : Blocks α → Prop where
  | nil : Spaced p []
  | last {w g : List α} : IsWord p w → (∀ x ∈ g, p x = true) → Spaced p [(w, g)]
  | cons {w g : List α} {b : List α × List α} {bs : Blocks α} : IsWord p w →
    (∀ x ∈ g, p x = true) → g ≠ [] → Spaced p (b :: bs) → Spaced p ((w, g) :: b :: bs)

variable {p : α → Bool} {l : List α} {bs : Blocks α} {gap : List α}

@[simp] theorem render_nil (gap : List α) : render gap [] = gap := append_nil gap

theorem render_cons (gap w g : List α) (bs : Blocks α) :
    render gap ((w, g) :: bs) = gap ++ w ++ render g bs := by
  simp [render]

theorem render_cons_gap (x : α) (gap : List α) (bs : Blocks α) :
    render (x :: gap) bs = x :: render gap bs := rfl

theorem render_blocks (p : α → Bool) (l : List α) : render (blocks p l).1 (blocks p l).2 = l := by
  induction l with
  | nil => rfl
  | cons x l ih =>
    rw [blocks]
    split_ifs
    · rw [render_cons_gap, ih]
    · split
      · rename_i w g bs heq
        rw [heq] at ih
        rw [render_cons] at ih ⊢
        exact congrArg (x :: ·) ih
      · rename_i g bs _ heq
        rw [heq] at ih
        rw [render_cons]
        exact congrArg (x :: ·) ih

theorem blocks_spaced (p : α → Bool) (l : List α) :
    (∀ x ∈ (blocks p l).1, p x = true) ∧ Spaced p (blocks p l).2 := by
  induction l with
  | nil => exact ⟨nofun, .nil⟩
  | cons x l ih =>
    rw [blocks]
    by_cases hx : p x = true
    · rw [if_pos hx]
      exact ⟨forall_mem_cons.mpr ⟨hx, ih.1⟩, ih.2⟩
    · rw [if_neg hx]
      rw [Bool.not_eq_true] at hx
      have hword : ∀ {w : List α}, (∀ y ∈ w, p y = false) → IsWord p (x :: w) := fun hw =>
        ⟨cons_ne_nil _ _, forall_mem_cons.mpr ⟨hx, hw⟩⟩
      split
      · rename_i w g bs heq
        rw [heq] at ih
        refine ⟨nofun, ?_⟩
        cases ih.2 with
        | last hw hg => exact .last (hword hw.2) hg
        | cons hw hg hne hbs => exact .cons (hword hw.2) hg hne hbs
      · rename_i g bs hshape heq
        rw [heq] at ih
        refine ⟨nofun, ?_⟩
        rcases bs with _ | ⟨⟨w, g'⟩, bs⟩
        · exact .last (hword nofun) ih.1
        · refine .cons (hword nofun) ih.1 (fun hg => ?_) ih.2
          rw [hg] at heq
          exact hshape w g' bs hg rfl

theorem Spaced.isWord (h : Spaced p bs) : ∀ b ∈ bs, IsWord p b.1 := by
  induction h with
  | nil => exact nofun
  | last hw _ => exact forall_mem_singleton.mpr hw
  | cons hw _ _ _ ih => exact forall_mem_cons.mpr ⟨hw, ih⟩

theorem Spaced.white (h : Spaced p bs) : ∀ b ∈ bs, ∀ x ∈ b.2, p x = true := by
  induction h with
  | nil => exact nofun
  | last _ hg => exact forall_mem_singleton.mpr hg
  | cons _ hg _ _ ih => exact forall_mem_cons.mpr ⟨hg, ih⟩

theorem IsWord.mono {q : α → Bool} {w : List α} (h : IsWord p w)
    (hq : ∀ x, q x = true → p x = true) : IsWord q w :=
  ⟨h.1, fun x hx => Bool.eq_false_iff.mpr fun hx' =>
    Bool.false_ne_true ((h.2 x hx).symm.trans (hq x hx'))⟩

/-! ### Replacing runs -/

/-- What stands for a run that has ended. -/
def flush (few : ℕ) (new run : List α) : List α :=
  if few < run.length then new else run

/-- Read on in a run. -/
def replaceFrom (p : α → Bool) (few : ℕ) (new : List α) : (run : List α) → List α → List α
  | run, [] => flush few new run
  | run, x :: l =>
    if p x then replaceFrom p few new (run ++ [x]) l
    else flush few new run ++ x :: replaceFrom p few new [] l

/-- Replace every maximal run of elements that `p` accepts, if it is longer than `few`. -/
def replaceRuns (p : α → Bool) (few : ℕ) (new l : List α) : List α :=
  replaceFrom p few new [] l

variable {few : ℕ} {new run : List α}

theorem flush_nil (few : ℕ) (new : List α) : flush few new [] = [] :=
  if_neg (Nat.not_lt_zero few)

@[simp] theorem replaceRuns_nil (p : α → Bool) (few : ℕ) (new : List α) :
    replaceRuns p few new [] = [] :=
  flush_nil few new

variable {x : α}

/-- An element of another kind ends a run. -/
theorem replaceFrom_append (hx : p x = false) (run u v : List α) :
    replaceFrom p few new run (u ++ x :: v)
      = replaceFrom p few new run u ++ x :: replaceRuns p few new v := by
  induction u generalizing run with
  | nil =>
    rw [nil_append, replaceFrom, replaceFrom, if_neg (by simp [hx])]
    rfl
  | cons y u ih =>
    rw [cons_append, replaceFrom, replaceFrom, ih, ih]
    split_ifs
    · rfl
    · rw [append_assoc]
      rfl

theorem replaceRuns_word {w : List α} (hw : ∀ x ∈ w, p x = false) (v : List α) :
    replaceRuns p few new (w ++ v) = w ++ replaceRuns p few new v := by
  induction w with
  | nil => rfl
  | cons x w ih =>
    rw [cons_append, replaceRuns, replaceFrom, if_neg (by simp [hw x mem_cons_self]), flush_nil]
    exact congrArg (x :: ·) (ih fun y hy => hw y (mem_cons_of_mem _ hy))

theorem replaceRuns_of_forall (h : ∀ x ∈ l, p x = false) : replaceRuns p few new l = l := by
  have hword : replaceRuns p few new (l ++ []) = l ++ replaceRuns p few new [] :=
    replaceRuns_word h []
  rwa [append_nil, replaceRuns_nil, append_nil] at hword

/-- Replacing goes through the words. -/
theorem replaceRuns_render (gap : List α) (h : ∀ b ∈ bs, IsWord p b.1) :
    replaceRuns p few new (render gap bs) = render (replaceRuns p few new gap)
        (bs.map fun b => (b.1, replaceRuns p few new b.2)) := by
  induction bs generalizing gap with
  | nil => simp
  | cons b bs ih =>
    obtain ⟨w, g⟩ := b
    obtain ⟨hne, hw⟩ := h (w, g) mem_cons_self
    obtain ⟨x, w, rfl⟩ := exists_cons_of_ne_nil hne
    rw [render_cons, append_assoc, cons_append, replaceRuns,
      replaceFrom_append (hw x mem_cons_self),
      replaceRuns_word fun y hy => hw y (mem_cons_of_mem _ hy),
      ih g fun b hb => h b (mem_cons_of_mem _ hb), map_cons, render_cons,
      append_assoc]
    rfl

/-- Mapping goes through the words, if it leaves them alone. -/
theorem map_render {f : α → α} (gap : List α) (h : ∀ b ∈ bs, ∀ x ∈ b.1, f x = x) :
    (render gap bs).map f = render (gap.map f) (bs.map fun b => (b.1, b.2.map f)) := by
  induction bs generalizing gap with
  | nil => simp
  | cons b bs ih =>
    rw [render_cons, map_append, map_append, ih _ fun b hb => h b
      (mem_cons_of_mem _ hb), map_congr_left (h b mem_cons_self), map_id',
      map_cons, render_cons]

/-- A rewriting that leaves the words alone and acts on each gap on its own. -/
def OnGaps (p : α → Bool) (f : List α → List α) : Prop :=
  ∀ (gap : List α) (bs : Blocks α), (∀ b ∈ bs, IsWord p b.1) →
    f (render gap bs) = render (f gap) (bs.map fun b => (b.1, f b.2))

theorem OnGaps.comp {f f' : List α → List α} (hf' : OnGaps p f') (hf : OnGaps p f) :
    OnGaps p (f' ∘ f) := by
  intro gap bs hbs
  have hwords : ∀ b ∈ bs.map (fun b => (b.1, f b.2)), IsWord p b.1 := forall_mem_map.mpr hbs
  rw [Function.comp_apply, hf gap bs hbs, hf' (f gap) _ hwords, map_map]
  rfl

/-- Replacing white runs is one, -/
theorem onGaps_replaceRuns {q : α → Bool} (hq : ∀ x, q x = true → p x = true) :
    OnGaps p (replaceRuns q few new) :=
  fun gap _ hbs => replaceRuns_render gap fun b hb => (hbs b hb).mono hq

/-- and so is mapping white elements. -/
theorem onGaps_map {f : α → α} (hf : ∀ x, p x = false → f x = x) : OnGaps p (List.map f) :=
  fun gap _ hbs => map_render gap fun b hb x hx => hf x ((hbs b hb).2 x hx)

theorem mem_of_mem_flush (h : x ∈ flush few new run) : x ∈ new ∨ x ∈ run := by
  rw [flush] at h
  split_ifs at h
  · exact Or.inl h
  · exact Or.inr h

theorem mem_of_mem_replaceFrom (h : x ∈ replaceFrom p few new run l) :
    x ∈ new ∨ x ∈ run ∨ x ∈ l := by
  induction l generalizing run with
  | nil => exact (mem_of_mem_flush h).imp_right Or.inl
  | cons y l ih =>
    rw [replaceFrom] at h
    split_ifs at h
    · rcases ih h with h | h | h
      · exact Or.inl h
      · rcases mem_append.mp h with h | h
        · exact Or.inr (Or.inl h)
        · exact Or.inr (Or.inr (mem_singleton.mp h ▸ mem_cons_self))
      · exact Or.inr (Or.inr (mem_cons_of_mem _ h))
    · rcases mem_append.mp h with h | h
      · exact (mem_of_mem_flush h).imp_right Or.inl
      · rcases mem_cons.mp h with rfl | h
        · exact Or.inr (Or.inr mem_cons_self)
        · rcases ih h with h | h | h
          · exact Or.inl h
          · exact nomatch h
          · exact Or.inr (Or.inr (mem_cons_of_mem _ h))

/-- Nothing comes in but what is put for runs. -/
theorem mem_of_mem_replaceRuns (h : x ∈ replaceRuns p few new l) : x ∈ new ∨ x ∈ l :=
  (mem_of_mem_replaceFrom h).imp_right fun h => h.resolve_left not_mem_nil

/-- What is of another kind stays. -/
theorem mem_replaceFrom (hx : p x = false) (h : x ∈ l) : x ∈ replaceFrom p few new run l := by
  obtain ⟨u, v, rfl⟩ := append_of_mem h
  rw [replaceFrom_append hx]
  simp

/-- If all runs are replaced, what is left of their kind is what is put for them. -/
theorem mem_new_of_mem_replaceFrom (hx : p x = true)
    (h : x ∈ replaceFrom p 0 new run l) : x ∈ new := by
  have hflush : ∀ {run : List α}, x ∈ flush 0 new run → x ∈ new := by
    intro run h
    rw [flush] at h
    split_ifs at h with hlength
    · exact h
    · rw [length_pos_iff, not_not] at hlength
      rw [hlength] at h
      exact nomatch h
  induction l generalizing run with
  | nil => exact hflush h
  | cons y l ih =>
    rw [replaceFrom] at h
    split_ifs at h with hy
    · exact ih h
    · rcases mem_append.mp h with h | h
      · exact hflush h
      · rcases mem_cons.mp h with rfl | h
        · exact absurd hx hy
        · exact ih h

/-- A text with something in it is not replaced by nothing. -/
theorem replaceRuns_ne_nil (hnew : new ≠ []) (h : l ≠ []) : replaceRuns p few new l ≠ [] := by
  have hflush : ∀ {run : List α}, run ≠ [] → flush few new run ≠ [] := by
    intro run hrun
    rw [flush]
    split_ifs
    · exact hnew
    · exact hrun
  have hfrom : ∀ {run : List α}, run ≠ [] ∨ l ≠ [] → replaceFrom p few new run l ≠ [] := by
    clear h
    induction l with
    | nil => exact fun h => hflush (h.resolve_right fun h => h rfl)
    | cons x l ih =>
      intro run _
      rw [replaceFrom]
      split_ifs
      · exact ih (Or.inl (by simp))
      · simp
  exact hfrom (Or.inr h)

/-- A text all of whose runs stand for themselves is left as it is. -/
theorem replaceRuns_eq_self
    (h : ∀ r : List α, r <:+: l → (∀ x ∈ r, p x = true) → flush few new r = r) :
    replaceRuns p few new l = l := by
  have hfrom : ∀ run : List α, (∀ x ∈ run, p x = true) →
      (∀ r : List α, r <:+: run ++ l → (∀ x ∈ r, p x = true) → flush few new r = r) →
        replaceFrom p few new run l = run ++ l := by
    clear h
    induction l with
    | nil =>
      intro run hrun h
      rw [append_nil] at h ⊢
      exact h run (infix_refl run) hrun
    | cons x l ih =>
      intro run hrun h
      rw [replaceFrom]
      split_ifs with hx
      · have hall : ∀ y ∈ run ++ [x], p y = true := fun y hy =>
          (mem_append.mp hy).elim (hrun y) fun hy => mem_singleton.mp hy ▸ hx
        rw [ih _ hall (by simpa using h), append_assoc, singleton_append]
      · rw [ih [] nofun fun r hr => h r (hr.trans ⟨run ++ [x], [], by simp⟩),
          h run ⟨[], x :: l, rfl⟩ hrun]
        rfl
  exact hfrom [] nofun h

/-! ### No element twice in a row -/

/-- No two adjacent elements are both `a`. -/
def NoDouble (a : α) (l : List α) : Prop :=
  l.IsChain fun x y => ¬ (x = a ∧ y = a)

theorem NoDouble.part {a : α} {r : List α} (h : NoDouble a l) (hr : r <:+: l) : NoDouble a r := by
  obtain ⟨u, v, rfl⟩ := hr
  exact (isChain_append.mp (isChain_append.mp h).1).2.1

theorem noDouble_of_not_part {a : α} (h : ¬ [a, a] <:+: l) : NoDouble a l := by
  induction l with
  | nil => exact List.IsChain.nil
  | cons x l ih =>
    refine isChain_cons.mpr ⟨?_, ih fun hr => h (hr.trans ⟨[x], [], by simp⟩)⟩
    rintro y hy ⟨rfl, rfl⟩
    obtain ⟨l, rfl⟩ := head?_eq_some_iff.mp hy
    exact h ⟨[], l, rfl⟩

/-- A run of such an element is a single one. -/
theorem NoDouble.length_le_one {a : α} {r : List α} (h : NoDouble a l) (hr : r <:+: l)
    (hall : ∀ x ∈ r, x = a) : r.length ≤ 1 := by
  have hchain := h.part hr
  rcases r with _ | ⟨x, _ | ⟨y, r⟩⟩
  · exact Nat.zero_le 1
  · exact le_rfl
  · rw [NoDouble, isChain_cons_cons] at hchain
    exact absurd ⟨hall x (by simp), hall y (by simp)⟩ hchain.1

/-- Replacing runs of an element by one of it leaves no two in a row. -/
theorem noDouble_replaceRuns [DecidableEq α] (a : α) (l : List α) :
    NoDouble a (replaceRuns (· == a) 1 [a] l) := by
  have hfrom : ∀ run : List α, NoDouble a (replaceFrom (· == a) 1 [a] run l) := by
    have hflush : ∀ run : List α, NoDouble a (flush 1 [a] run) := by
      intro run
      rw [flush, NoDouble]
      rcases run with _ | ⟨x, _ | ⟨y, run⟩⟩
      · exact List.IsChain.nil
      · exact List.IsChain.singleton x
      · rw [if_pos (by simp)]
        exact List.IsChain.singleton a
    induction l with
    | nil => exact hflush
    | cons x l ih =>
      intro run
      rw [replaceFrom]
      split_ifs with hx
      · exact ih _
      · have hne : x ≠ a := fun h => hx (beq_iff_eq.mpr h)
        refine isChain_append.mpr ⟨hflush run, isChain_cons.mpr ⟨?_, ih []⟩, ?_⟩
        · exact fun _ _ h => hne h.1
        · intro _ _ y hy h
          rw [head?_cons, Option.mem_some_iff] at hy
          exact hne (hy.trans h.2)
  exact hfrom []

theorem noDouble_of_not_mem {a : α} (h : a ∉ l) : NoDouble a l := by
  induction l with
  | nil => exact List.IsChain.nil
  | cons x l ih =>
    rw [mem_cons, not_or] at h
    exact isChain_cons.mpr ⟨fun _ _ hxy => h.1 hxy.1.symm, ih h.2⟩

section

variable {a : α} (hnew : new ≠ []) (hanew : a ∉ new)

include hanew in
theorem not_mem_flush (hrun : a ∉ run) : a ∉ flush few new run :=
  fun h => (mem_of_mem_flush h).elim hanew hrun

include hnew hanew in
/-- A run that has begun does not become `a`. -/
theorem head?_replaceFrom (ha : p a = false) (hne : run ≠ []) (hrun : a ∉ run) :
    (replaceFrom p few new run l).head? ≠ some a := by
  have hflush : ∀ {run rest : List α}, run ≠ [] → a ∉ run →
      (flush few new run ++ rest).head? ≠ some a := by
    intro run rest hne hrun h
    have hflushed : flush few new run ≠ [] := by
      rw [flush]
      split_ifs
      · exact hnew
      · exact hne
    rw [head?_append_of_ne_nil _ hflushed] at h
    exact not_mem_flush hanew hrun (mem_of_mem_head? h)
  induction l generalizing run with
  | nil => simpa [replaceFrom] using @hflush run [] hne hrun
  | cons x l ih =>
    rw [replaceFrom]
    split_ifs with hx
    · refine ih (by simp) fun h => ?_
      rcases mem_append.mp h with h | h
      · exact hrun h
      · rw [← mem_singleton.mp h, ha] at hx
        exact nomatch hx
    · exact hflush hne hrun

include hnew hanew in
/-- What is put for runs of others makes no two `a` in a row. -/
theorem NoDouble.replaceRuns (ha : p a = false) (h : NoDouble a l) :
    NoDouble a (replaceRuns p few new l) := by
  have hfrom : ∀ run : List α, a ∉ run → NoDouble a (replaceFrom p few new run l) := by
    induction l with
    | nil => exact fun run hrun => noDouble_of_not_mem (not_mem_flush hanew hrun)
    | cons x l ih =>
      intro run hrun
      have htail := ih (isChain_cons.mp h).2
      rw [replaceFrom]
      split_ifs with hx
      · refine htail _ fun hmem => ?_
        rcases mem_append.mp hmem with hmem | hmem
        · exact hrun hmem
        · rw [← mem_singleton.mp hmem, ha] at hx
          exact nomatch hx
      · refine isChain_append.mpr ⟨noDouble_of_not_mem (not_mem_flush hanew hrun),
          isChain_cons.mpr ⟨?_, htail [] not_mem_nil⟩, ?_⟩
        · rintro y hy ⟨rfl, rfl⟩
          rcases l with _ | ⟨z, l⟩
          · rw [replaceFrom, flush_nil] at hy
            exact nomatch hy
          · have hz : y ≠ z := fun hz =>
              (isChain_cons_cons.mp h).1 ⟨rfl, hz.symm⟩
            rw [replaceFrom] at hy
            split_ifs at hy
            · exact head?_replaceFrom hnew hanew ha (cons_ne_nil _ _)
                (fun hmem => hz (mem_singleton.mp hmem)) hy
            · rw [flush_nil] at hy
              exact hz (Option.some.inj hy).symm
        · rintro y hy z - ⟨rfl, -⟩
          exact not_mem_flush hanew hrun (mem_of_getLast? hy)
  exact hfrom [] not_mem_nil

end

/-- A run that is long enough is replaced. -/
theorem mem_replaceRuns_of_run {r : List α} (hr : ∀ x ∈ r, p x = true) (hfew : few < r.length)
    (u v : List α) : ∀ x ∈ new, x ∈ replaceRuns p few new (u ++ r ++ v) := by
  intro x hx
  have hend : ∀ (v run : List α), few < run.length → x ∈ replaceFrom p few new run v := by
    intro v
    induction v with
    | nil =>
      intro run hrun
      rwa [replaceFrom, flush, if_pos hrun]
    | cons y v ih =>
      intro run hrun
      rw [replaceFrom]
      split_ifs
      · exact ih _ (by rw [length_append]; omega)
      · rw [flush, if_pos hrun]
        exact mem_append_left _ hx
  have hread : ∀ (r run : List α), (∀ x ∈ r, p x = true) → few < run.length + r.length →
      x ∈ replaceFrom p few new run (r ++ v) := by
    intro r
    induction r with
    | nil => exact fun run _ hlength => hend v run hlength
    | cons y r ih =>
      intro run hr hlength
      rw [cons_append, replaceFrom, if_pos (hr y mem_cons_self)]
      refine ih _ (fun z hz => hr z (mem_cons_of_mem _ hz)) ?_
      rw [length_append, length_singleton]
      rw [length_cons] at hlength
      omega
  have hall : ∀ (u run : List α), x ∈ replaceFrom p few new run (u ++ (r ++ v)) := by
    intro u
    induction u with
    | nil => exact fun run => hread r run hr (by omega)
    | cons y u ih =>
      intro run
      rw [cons_append, replaceFrom]
      split_ifs
      · exact ih _
      · exact mem_append_right _ (mem_cons_of_mem _ (ih []))
  rw [append_assoc]
  exact hall u []

/-! ### Trimming -/

/-- The words, with what is made of the gaps between them. -/
def core (f : List α → List α) : Blocks α → List α
  | [] => []
  | [(w, _)] => w
  | (w, g) :: b :: bs => w ++ f g ++ core f (b :: bs)

/-- The gap after the last word. -/
def lastGap : Blocks α → List α
  | [] => []
  | [(_, g)] => g
  | _ :: b :: bs => lastGap (b :: bs)

theorem render_map_eq (f : List α → List α) (gap : List α) (hne : bs ≠ []) :
    render gap (bs.map fun b => (b.1, f b.2)) = gap ++ core f bs ++ f (lastGap bs) := by
  induction bs generalizing gap with
  | nil => exact absurd rfl hne
  | cons b bs ih =>
    rcases bs with _ | ⟨b', bs⟩
    · rw [map_cons, map_nil, render_cons, render_nil]
      rfl
    · rw [map_cons, render_cons, ih _ (cons_ne_nil _ _)]
      simp only [core, lastGap, append_assoc]

theorem mem_of_mem_core {f : List α → List α} (h : x ∈ core f bs) :
    ∃ b ∈ bs, x ∈ b.1 ∨ x ∈ f b.2 := by
  induction bs with
  | nil => exact nomatch h
  | cons b bs ih =>
    rcases bs with _ | ⟨b', bs⟩
    · exact ⟨b, mem_cons_self, Or.inl h⟩
    · rw [core, mem_append, mem_append] at h
      rcases h with h | h
      · exact ⟨b, mem_cons_self, h⟩
      · obtain ⟨c, hc, hx⟩ := ih h
        exact ⟨c, mem_cons_of_mem _ hc, hx⟩

theorem Spaced.lastGap_white (h : Spaced p bs) : ∀ x ∈ lastGap bs, p x = true := by
  induction h with
  | nil => exact nofun
  | last _ hg => exact hg
  | cons _ _ _ _ ih => exact ih

/-- Words begin and end without white. -/
theorem core_ends (f : List α → List α) (h : ∀ b ∈ bs, IsWord p b.1) (hne : bs ≠ []) :
    (∃ x rest, core f bs = x :: rest ∧ p x = false)
      ∧ ∃ init y, core f bs = init ++ [y] ∧ p y = false := by
  induction bs with
  | nil => exact absurd rfl hne
  | cons b bs ih =>
    obtain ⟨w, g⟩ := b
    obtain ⟨hw, hwhite⟩ := h (w, g) mem_cons_self
    rcases bs with _ | ⟨b', bs⟩
    · constructor
      · obtain ⟨x, rest, rfl⟩ := exists_cons_of_ne_nil hw
        exact ⟨x, rest, rfl, hwhite x mem_cons_self⟩
      · exact ⟨w.dropLast, w.getLast hw, (dropLast_append_getLast hw).symm,
          hwhite _ (getLast_mem hw)⟩
    · obtain ⟨-, init, y, hcore, hy⟩ := ih (fun b hb => h b (mem_cons_of_mem _ hb))
        (cons_ne_nil _ _)
      constructor
      · obtain ⟨x, rest, rfl⟩ := exists_cons_of_ne_nil hw
        exact ⟨x, _, rfl, hwhite x mem_cons_self⟩
      · refine ⟨w ++ f g ++ init, y, ?_, hy⟩
        rw [core, hcore]
        simp

theorem trimStart_append_cons (hx : p x = false) (u v : List α) :
    trimStart p (u ++ x :: v) = trimStart p u ++ x :: v := by
  induction u with
  | nil => simp [trimStart, hx]
  | cons y u ih =>
    rw [trimStart] at ih ⊢
    rw [trimStart, cons_append, dropWhile_cons, dropWhile_cons]
    split_ifs
    · exact ih
    · rfl

theorem trimEnd_append_cons {y : α} (hy : p y = false) (u v : List α) :
    trimEnd p (u ++ y :: v) = u ++ y :: trimEnd p v := by
  have hstart := trimStart_append_cons hy v.reverse u.reverse
  rw [trimStart, trimStart] at hstart
  rw [trimEnd, trimEnd, rdropWhile, rdropWhile, reverse_append, reverse_cons,
    append_assoc, singleton_append, hstart]
  simp

/-- Trimming works on the outer gaps. -/
theorem trim_core (f : List α → List α) (h : ∀ b ∈ bs, IsWord p b.1) (hne : bs ≠ [])
    (u v : List α) :
    trim p (u ++ core f bs ++ v) = trimStart p u ++ core f bs ++ trimEnd p v := by
  obtain ⟨⟨x, rest, hstart, hx⟩, init, y, hend, hy⟩ := core_ends f h hne
  rw [trim, append_assoc, hstart, cons_append, trimStart_append_cons hx,
    ← cons_append, ← hstart, hend, ← append_assoc, ← append_assoc,
    append_assoc _ [y], singleton_append, trimEnd_append_cons hy]
  simp

theorem trimStart_white (h : ∀ x ∈ l, p x = true) : trimStart p l = [] :=
  dropWhile_eq_nil_iff.mpr h

theorem trimEnd_white (h : ∀ x ∈ l, p x = true) : trimEnd p l = [] :=
  rdropWhile_eq_nil_iff.mpr h

theorem trim_eq_nil_iff : trim p l = [] ↔ trimStart p l = [] := by
  refine ⟨fun h => ?_, fun h => by rw [trim, h]; rfl⟩
  have hwhite := rdropWhile_eq_nil_iff.mp h
  refine eq_nil_iff_forall_not_mem.mpr fun x hx => ?_
  obtain ⟨y, rest, hy⟩ := exists_cons_of_ne_nil (ne_nil_of_mem hx)
  have hhead := head_trimStart y (Option.mem_def.mpr (congrArg List.head? hy))
  rw [hwhite y (by rw [hy]; exact mem_cons_self)] at hhead
  cases hhead

/-- The trim of a text is its words with the gaps between them. -/
theorem trim_render (h : Spaced p bs) (hgap : ∀ x ∈ gap, p x = true) :
    trim p (render gap bs) = core id bs := by
  rcases eq_or_ne bs [] with rfl | hne
  · rw [render_nil, trim, trimStart_white hgap]
    rfl
  · have hrender : render gap bs = gap ++ core id bs ++ lastGap bs := by
      have hmap := render_map_eq id gap hne
      have hid : bs.map (fun b => (b.1, id b.2)) = bs := map_id bs
      rwa [hid] at hmap
    rw [hrender]
    rw [trim_core id h.isWord hne, trimStart_white hgap, trimEnd_white h.lastGap_white,
      nil_append, append_nil]

theorem trim_eq_core (p : α → Bool) (l : List α) : trim p l = core id (blocks p l).2 := by
  obtain ⟨hgap, hspaced⟩ := blocks_spaced p l
  have htrim := trim_render hspaced hgap
  rwa [render_blocks] at htrim

/-- A trim is a part of the text. -/
theorem trim_part (p : α → Bool) (l : List α) : trim p l <:+: l := by
  obtain ⟨before, hbefore, -⟩ := @exists_trimStart _ p l
  obtain ⟨after, hafter, -⟩ := @exists_trimEnd _ p (trimStart p l)
  refine ⟨before, after, ?_⟩
  rw [append_assoc, trim, ← hafter, ← hbefore]

/-! ### Words in order -/

/-- The words are found one after another in the text. -/
inductive InOrder : List (List α) → List α → Prop where
  | nil (l : List α) : InOrder [] l
  | skip {ws : List (List α)} {l : List α} (x : α) : InOrder ws l → InOrder ws (x :: l)
  | word {ws : List (List α)} {l : List α} (w : List α) : InOrder ws l → InOrder (w :: ws) (w ++ l)

variable {ws : List (List α)}

theorem InOrder.append_left (h : InOrder ws l) (u : List α) : InOrder ws (u ++ l) := by
  induction u with
  | nil => exact h
  | cons x u ih => exact ih.skip x

theorem InOrder.mem (h : InOrder ws l) {w : List α} (hw : w ∈ ws) (hx : x ∈ w) : x ∈ l := by
  induction h with
  | nil l => exact nomatch hw
  | skip y _ ih => exact mem_cons_of_mem _ (ih hw)
  | word w' _ ih =>
    rcases mem_cons.mp hw with rfl | hw
    · exact mem_append_left _ hx
    · exact mem_append_right _ (ih hw)

/-- Words need not all be looked for. -/
theorem InOrder.filter (h : InOrder ws l) (q : List α → Bool) : InOrder (ws.filter q) l := by
  induction h with
  | nil l => exact .nil _
  | skip x _ ih => exact ih.skip x
  | word w _ ih =>
    rw [filter_cons]
    split_ifs
    · exact ih.word w
    · exact ih.append_left w

variable {R : α → α → Prop}

/-- Elements that do not matter make a chain, -/
theorem isChain_of_mem (h : ∀ x ∈ l, ∀ y, R x y) : l.IsChain R := by
  induction l with
  | nil => exact List.IsChain.nil
  | cons x l ih =>
    exact isChain_cons.mpr ⟨fun y _ => h x mem_cons_self y,
      ih fun y hy => h y (mem_cons_of_mem _ hy)⟩

/-- so a chain is one without the white at its ends, if white does not matter. -/
theorem isChain_trim (hR : ∀ x, p x = true → ∀ y, R x y ∧ R y x) :
    (trim p l).IsChain R ↔ l.IsChain R := by
  obtain ⟨before, hbefore, hwhiteBefore⟩ := @exists_trimStart _ p l
  obtain ⟨after, hafter, hwhiteAfter⟩ := @exists_trimEnd _ p (trimStart p l)
  have hl : l = before ++ (trim p l ++ after) := hbefore.trans (congrArg (before ++ ·) hafter)
  constructor
  · intro h
    rw [hl]
    refine isChain_append.mpr ⟨isChain_of_mem fun x hx y => (hR x (hwhiteBefore x hx) y).1,
      isChain_append.mpr ⟨h, isChain_of_mem fun x hx y => (hR x (hwhiteAfter x hx) y).1, ?_⟩, ?_⟩
    · exact fun x _ y hy => (hR y (hwhiteAfter y (mem_of_mem_head? hy)) x).2
    · exact fun x hx y _ => (hR x (hwhiteBefore x (mem_of_getLast? hx)) y).1
  · intro h
    rw [hl] at h
    exact (isChain_append.mp (isChain_append.mp h).2.1).1

/-- A chain over words with gaps is one over each word, if nothing in a gap matters to it. -/
theorem isChain_core {f : List α → List α} (h : Spaced p bs) (hf : ∀ g : List α, g ≠ [] → f g ≠ [])
    (hR : ∀ g : List α, (∀ x ∈ g, p x = true) → ∀ x ∈ f g, ∀ y, R x y ∧ R y x) :
    (core f bs).IsChain R ↔ ∀ b ∈ bs, b.1.IsChain R := by
  induction h with
  | nil => exact iff_of_true List.IsChain.nil nofun
  | last _ _ =>
    rw [forall_mem_singleton]
    rfl
  | @cons w g b bs hw hg hne _ ih =>
    rw [core, forall_mem_cons, ← ih, isChain_append, isChain_append]
    constructor
    · exact fun ⟨⟨hword, _, _⟩, hrest, _⟩ => ⟨hword, hrest⟩
    · refine fun ⟨hword, hrest⟩ =>
        ⟨⟨hword, isChain_of_mem fun x hx y => (hR g hg x hx y).1, ?_⟩, hrest, ?_⟩
      · exact fun x _ y hy => (hR g hg y (mem_of_mem_head? hy) x).2
      · intro x hx y _
        rw [getLast?_append_of_ne_nil _ (hf g hne)] at hx
        exact (hR g hg x (mem_of_getLast? hx) y).1

/-- The words of a text are in order in it. -/
theorem inOrder_core (f : List α → List α) (bs : Blocks α) :
    InOrder (bs.map Prod.fst) (core f bs) := by
  induction bs with
  | nil => exact .nil _
  | cons b bs ih =>
    obtain ⟨w, g⟩ := b
    rcases bs with _ | ⟨b', bs⟩
    · have hword := (InOrder.nil []).word w
      rwa [append_nil] at hword
    · rw [map_cons, core, append_assoc]
      exact (ih.append_left _).word w

theorem InOrder.replaceFrom (h : InOrder ws l) (hws : ∀ w ∈ ws, IsWord p w) (run : List α) :
    InOrder ws (replaceFrom p few new run l) := by
  induction h generalizing run with
  | nil l => exact .nil _
  | skip x _ ih =>
    rw [Words.replaceFrom]
    split_ifs
    · exact ih hws _
    · exact ((ih hws []).skip x).append_left _
  | @word ws l w _ ih =>
    obtain ⟨hne, hw⟩ := hws w mem_cons_self
    obtain ⟨x, w, rfl⟩ := exists_cons_of_ne_nil hne
    have hrest := ih (fun w hw => hws w (mem_cons_of_mem _ hw)) []
    have hread : Words.replaceFrom p few new run ([] ++ x :: (w ++ l)) = _ :=
      replaceFrom_append (hw x mem_cons_self) run [] (w ++ l)
    rw [nil_append] at hread
    rw [cons_append, hread, replaceRuns_word fun y hy => hw y (mem_cons_of_mem _ hy)]
    exact (hrest.word (x :: w)).append_left _

/-- Words stay in order when runs between them are replaced, -/
theorem InOrder.replaceRuns (h : InOrder ws l) (hws : ∀ w ∈ ws, IsWord p w) :
    InOrder ws (replaceRuns p few new l) :=
  h.replaceFrom hws []

/-- when elements outside them are mapped, -/
theorem InOrder.map {f : α → α} (h : InOrder ws l) (hws : ∀ w ∈ ws, ∀ x ∈ w, f x = x) :
    InOrder ws (l.map f) := by
  induction h with
  | nil l => exact .nil _
  | skip x _ ih => exact (ih hws).skip (f x)
  | word w _ ih =>
    rw [map_append, map_congr_left (hws w mem_cons_self), map_id']
    exact (ih fun w hw => hws w (mem_cons_of_mem _ hw)).word w

theorem InOrder.trimStart (h : InOrder ws l) (hws : ∀ w ∈ ws, IsWord p w) :
    InOrder ws (trimStart p l) := by
  induction h with
  | nil l => exact .nil _
  | skip x h ih =>
    rw [Trim.trimStart, dropWhile_cons]
    split_ifs
    · exact ih hws
    · exact h.skip x
  | @word ws l w h _ =>
    obtain ⟨hne, hw⟩ := hws w mem_cons_self
    obtain ⟨x, w, rfl⟩ := exists_cons_of_ne_nil hne
    have hstart := trimStart_append_cons (hw x mem_cons_self) [] (w ++ l)
    rw [nil_append] at hstart
    rw [cons_append, hstart]
    exact h.word (x :: w)

/-- No word is found in white. -/
theorem InOrder.eq_nil_of_white (h : InOrder ws l) (hws : ∀ w ∈ ws, IsWord p w)
    (hl : ∀ x ∈ l, p x = true) : ws = [] := by
  induction h with
  | nil l => rfl
  | skip x _ ih => exact ih hws fun y hy => hl y (mem_cons_of_mem _ hy)
  | word w _ _ =>
    obtain ⟨hne, hw⟩ := hws w mem_cons_self
    obtain ⟨x, w, rfl⟩ := exists_cons_of_ne_nil hne
    have hwhite := hl x mem_cons_self
    rw [hw x mem_cons_self] at hwhite
    exact nomatch hwhite

theorem InOrder.of_append_white {u v : List α} (h : InOrder ws (u ++ v))
    (hws : ∀ w ∈ ws, IsWord p w) (hv : ∀ x ∈ v, p x = true) : InOrder ws u := by
  generalize hl : u ++ v = l at h
  induction h generalizing u with
  | nil l => exact .nil _
  | @skip ws l x h ih =>
    rcases u with _ | ⟨y, u⟩
    · rw [nil_append] at hl
      rw [h.eq_nil_of_white hws fun y hy => hv y (hl ▸ mem_cons_of_mem _ hy)]
      exact .nil _
    · exact (ih hws (List.cons.inj hl).2).skip y
  | @word ws l w h ih =>
    have hrest : ∀ w ∈ ws, IsWord p w := fun w hw => hws w (mem_cons_of_mem _ hw)
    rcases append_eq_append_iff.mp hl with ⟨cut, hw, hv'⟩ | ⟨more, rfl, hl⟩
    · -- What is cut off a word would be white.
      have hcut : cut = [] := by
        refine eq_nil_iff_forall_not_mem.mpr fun x hx => ?_
        have hwhite := hv x (hv' ▸ mem_append_left _ hx)
        rw [(hws w mem_cons_self).2 x (hw ▸ mem_append_right _ hx)] at hwhite
        exact nomatch hwhite
      rw [hcut, append_nil] at hw
      rw [h.eq_nil_of_white hrest fun y hy => hv y (hv' ▸ mem_append_right _ hy), ← hw]
      have hword := (InOrder.nil []).word w
      rwa [append_nil] at hword
    · rw [append_assoc] at hl
      exact (ih hrest (append_cancel_left hl)).word w

/-- and when white is taken away at the ends. -/
theorem InOrder.trim (h : InOrder ws l) (hws : ∀ w ∈ ws, IsWord p w) : InOrder ws (trim p l) := by
  obtain ⟨white, happend, hwhite⟩ := @exists_trimEnd _ p (Trim.trimStart p l)
  have hstart := h.trimStart hws
  rw [happend] at hstart
  exact hstart.of_append_white hws hwhite

end Rabotka.Lib.Words
