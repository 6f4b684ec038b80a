import Rabotka.Quotas.Schema

/-!
# Counters and usage rows

What a list of writes does to the counter of a period and to the units it holds: it adds a fixed
number to each (`used_applyAll`, `held_applyAll`), provided that every write finds the rows it was
decided on (`Fits`). The writes of an open transaction keep fitting whatever the others commit,
since they depend on rows that the transaction has locked (`Fits.later`).
-/

namespace Rabotka.Quotas

open List

variable {d d' : Db} {w : Write} {ws ws' : List Write} {k : ℕ} {t : Target}

/-! ### The effect of a write -/

namespace Write

/-- By how much a write changes the counter of a period. -/
def used (id : ℕ) : Write → ℤ
  | .increment k => if k = id then 1 else 0
  | .decrement k => if k = id then -1 else 0
  | _ => 0

/-- By how much a write changes the number of units that a period holds. -/
def held (id : ℕ) : Write → ℤ
  | .createUsage u => if u.subscriptionId = id then 1 else 0
  | .releaseUsage k _ => if k = id then -1 else 0
  | _ => 0

/-- The usage row that a write concerns. -/
def target : Write → Option Target
  | .createUsage u => some u.target
  | .releaseUsage _ t => some t
  | _ => none

/-- A write to a counter or a usage row. -/
def isCounted : Write → Bool
  | .increment _ | .decrement _ | .createUsage _ | .releaseUsage _ _ => true
  | _ => false

/-- A write that adds no period and changes no plan. -/
def isPeriod : Write → Bool
  | .updatePeriod _ _ | .createPeriod _ => true
  | _ => false

/-- The write finds the rows it was decided on. -/
def Fits (d : Db) : Write → Prop
  | .increment id | .decrement id => id < d.periods.subscriptions.length
  | .createUsage u => d.usage u.target = none ∧ u.released = false
  | .releaseUsage id t => d.usage t = some ⟨id, t, false⟩
  | _ => True

end Write

/-- No two usage rows have the same target. -/
def Db.Unique (d : Db) : Prop := (d.usages.map BusinessQuotaUsage.target).Nodup

/-- By how much the writes change the counter of a period. -/
def usedBy (ws : List Write) (id : ℕ) : ℤ := (ws.map (Write.used id)).sum

/-- By how much the writes change the number of units that a period holds. -/
def heldBy (ws : List Write) (id : ℕ) : ℤ := (ws.map (Write.held id)).sum

theorem usedBy_append (ws ws' : List Write) (id : ℕ) :
    usedBy (ws ++ ws') id = usedBy ws id + usedBy ws' id := by
  simp [usedBy]

theorem heldBy_append (ws ws' : List Write) (id : ℕ) :
    heldBy (ws ++ ws') id = heldBy ws id + heldBy ws' id := by
  simp [heldBy]

/-- Every write finds the rows it was decided on, after those before it. -/
def Fits : Db → List Write → Prop
  | _, [] => True
  | d, w :: ws => w.Fits d ∧ Fits (d.apply w) ws

/-- Writes that concern neither counters nor usage rows fit everywhere. -/
theorem Fits.of_uncounted (h : ∀ w ∈ ws, w.isCounted = false) : Fits d ws := by
  induction ws generalizing d with
  | nil => trivial
  | cons w ws ih =>
    refine ⟨?_, ih fun v hv => h v (mem_cons_of_mem _ hv)⟩
    have hw := h w mem_cons_self
    cases w <;> trivial

/-! ### Counters -/

theorem used_count (d : Db) (id : ℕ) (n : ℤ) (k : ℕ) : (d.count id n).used k =
      d.used k + if id = k ∧ id < d.periods.subscriptions.length then n else 0 := by
  simp only [Db.used, Db.count, Table.getElem?_update, Option.map_map]
  rcases eq_or_ne id k with rfl | hne
  · by_cases hi : id < d.periods.subscriptions.length <;> simp [hi]
  · cases d.periods.subscriptions[k]? <;> simp [hne]

/-- The other counters stay. -/
theorem used_apply_of_zero (d : Db) (h : w.used k = 0) : (d.apply w).used k = d.used k := by
  cases w with
  | increment id =>
    have hne : id ≠ k := by simpa [Write.used] using h
    simp [Db.apply, used_count, hne]
  | decrement id =>
    have hne : id ≠ k := by simpa [Write.used] using h
    simp [Db.apply, used_count, hne]
  | updatePeriod id data =>
    simp only [Db.used, Db.apply, Table.getElem?_update, Option.map_map]
    congr 2
    funext r
    dsimp only [Function.comp]
    split_ifs <;> rfl
  | createPeriod r =>
    simp only [Db.used, Db.apply]
    rcases lt_trichotomy k d.periods.subscriptions.length with hlt | rfl | hgt
    · rw [getElem?_append_left hlt]
    · simp
    · have hnone : (d.periods.subscriptions ++ [{ r with unlocksUsed := 0 }])[k]? = none :=
        getElem?_eq_none (by simp; omega)
      rw [hnone, getElem?_eq_none (by omega)]
  | _ => rfl

theorem used_apply (h : w.Fits d) (k : ℕ) : (d.apply w).used k = d.used k + w.used k := by
  cases w with
  | increment id =>
    have hid : id < d.periods.subscriptions.length := h
    simp [Db.apply, used_count, Write.used, hid]
  | decrement id =>
    have hid : id < d.periods.subscriptions.length := h
    simp [Db.apply, used_count, Write.used, hid]
  | _ => exact (used_apply_of_zero d rfl).trans (add_zero _).symm

theorem length_le_apply (d : Db) (w : Write) :
    d.periods.subscriptions.length ≤ (d.apply w).periods.subscriptions.length := by
  cases w <;> simp [Db.apply, Db.count, Table.length_update]

/-! ### Usage rows -/

/-- What a write does to the row of a target. -/
def Write.onUsage (t : Target) (w : Write) (o : Option BusinessQuotaUsage) :
    Option BusinessQuotaUsage :=
  match w with
  | .createUsage u => o.or (if u.target = t then some u else none)
  | .releaseUsage id t' =>
    o.map fun u => if u.subscriptionId = id ∧ u.target = t' then { u with released := true } else u
  | _ => o

theorem usage_apply (d : Db) (w : Write) (t : Target) :
    (d.apply w).usage t = w.onUsage t (d.usage t) := by
  cases w with
  | createUsage u =>
    simp only [Db.usage, Db.apply, Write.onUsage, find?_append, find?_singleton,
      decide_eq_true_eq]
  | releaseUsage id t' =>
    simp only [Db.usage, Db.apply, Write.onUsage, find?_map]
    congr 1
    congr 1
    funext u
    dsimp only [Function.comp]
    split_ifs <;> rfl
  | _ => rfl

theorem usage_target (h : d.usage t = some u) : u.target = t := by
  have hfound := find?_some h
  exact of_decide_eq_true hfound

/-- The rows of other targets stay. -/
theorem usage_apply_of_ne (h : w.target ≠ some t) : (d.apply w).usage t = d.usage t := by
  rw [usage_apply]
  cases w with
  | createUsage u =>
    have hne : u.target ≠ t := fun he => h (congrArg some he)
    simp [Write.onUsage, hne]
  | releaseUsage id t' =>
    have hne : t ≠ t' := fun he => h (congrArg some he.symm)
    cases hu : d.usage t with
    | none => rfl
    | some u =>
      have htarget := usage_target hu
      simp [Write.onUsage, htarget, hne]
  | _ => rfl

theorem unique_apply (h : w.Fits d) (hd : d.Unique) : (d.apply w).Unique := by
  cases w with
  | createUsage u =>
    have hfresh : ∀ v ∈ d.usages, v.target ≠ u.target := by
      intro v hv
      simpa using find?_eq_none.1 h.1 v hv
    rw [Db.Unique, Db.apply, map_append, nodup_append]
    refine ⟨hd, nodup_singleton _, fun a ha b hb => ?_⟩
    obtain ⟨v, hv, rfl⟩ := mem_map.1 ha
    obtain rfl := mem_singleton.1 hb
    exact hfresh v hv
  | releaseUsage id t =>
    have hsame : (d.apply (.releaseUsage id t)).usages.map BusinessQuotaUsage.target =
        d.usages.map BusinessQuotaUsage.target := by
      simp only [Db.apply, map_map]
      refine map_congr_left fun u _ => ?_
      dsimp only [Function.comp]
      split_ifs <;> rfl
    rw [Db.Unique, hsame]
    exact hd
  | _ => exact hd

/-- Giving back the one row of a target takes one unit away. -/
theorem countP_release {l : List BusinessQuotaUsage} {id : ℕ}
    (hl : (l.map BusinessQuotaUsage.target).Nodup)
    (h : l.find? (fun u => u.target = t) = some ⟨id, t, false⟩) (k : ℕ) :
    ((l.map fun u => if u.subscriptionId = id ∧ u.target = t then { u with released := true }
        else u).countP (fun u => u.subscriptionId = k ∧ u.released = false) : ℤ) =
      l.countP (fun u => u.subscriptionId = k ∧ u.released = false) +
        if id = k then -1 else 0 := by
  induction l with
  | nil => simp at h
  | cons u l ih =>
    rw [map_cons, nodup_cons] at hl
    by_cases htarget : u.target = t
    · rw [find?_cons_of_pos (by simpa using htarget)] at h
      obtain rfl := Option.some.inj h
      -- no later row has this target
      have hrest : (l.map fun u => if u.subscriptionId = id ∧ u.target = t then
          { u with released := true } else u) = l := by
        refine (map_congr_left fun v hv => ?_).trans (map_id l)
        refine if_neg fun hvt => hl.1 ?_
        exact mem_map.2 ⟨v, hv, hvt.2⟩
      rw [map_cons, hrest, countP_cons, countP_cons]
      by_cases hk : id = k <;> simp [hk]
    · rw [find?_cons_of_neg (by simpa using htarget)] at h
      have hother : ¬ (u.subscriptionId = id ∧ u.target = t) := fun hu => htarget hu.2
      rw [map_cons, if_neg hother, countP_cons, countP_cons]
      push_cast
      rw [ih hl.2 h, add_right_comm]

theorem held_apply (h : w.Fits d) (hd : d.Unique) (k : ℕ) :
    ((d.apply w).held k : ℤ) = d.held k + w.held k := by
  cases w with
  | createUsage u =>
    obtain ⟨-, hfresh⟩ := h
    simp only [Db.held, Db.apply, Write.held, countP_append, countP_singleton]
    by_cases hk : u.subscriptionId = k <;> simp [hk, hfresh]
  | releaseUsage id t => exact countP_release hd h k
  | _ => exact (add_zero _).symm

/-! ### Lists of writes -/

theorem fits_append : Fits d (ws ++ ws') ↔ Fits d ws ∧ Fits (engine.applyAll d ws) ws' := by
  induction ws generalizing d with
  | nil => simp [Fits]
  | cons w ws ih =>
    rw [cons_append, Fits, ih, Fits, ReadCommitted.Engine.applyAll_cons, and_assoc]
    rfl

theorem used_applyAll (h : Fits d ws) (k : ℕ) :
    (engine.applyAll d ws).used k = d.used k + usedBy ws k := by
  induction ws generalizing d with
  | nil => simp [usedBy]
  | cons w ws ih =>
    rw [ReadCommitted.Engine.applyAll_cons]
    change (engine.applyAll (d.apply w) ws).used k = _
    rw [ih h.2, used_apply h.1, usedBy, usedBy, map_cons, sum_cons, add_assoc]

theorem unique_applyAll (h : Fits d ws) (hd : d.Unique) : (engine.applyAll d ws).Unique := by
  induction ws generalizing d with
  | nil => exact hd
  | cons w ws ih => exact ih h.2 (unique_apply h.1 hd)

theorem held_applyAll (h : Fits d ws) (hd : d.Unique) (k : ℕ) :
    ((engine.applyAll d ws).held k : ℤ) = d.held k + heldBy ws k := by
  induction ws generalizing d with
  | nil => simp [heldBy]
  | cons w ws ih =>
    rw [ReadCommitted.Engine.applyAll_cons]
    change ((engine.applyAll (d.apply w) ws).held k : ℤ) = _
    rw [ih h.2 (unique_apply h.1 hd), held_apply h.1 hd, heldBy, heldBy, map_cons,
      sum_cons, add_assoc]

theorem length_le_applyAll (d : Db) (ws : List Write) :
    d.periods.subscriptions.length ≤ (engine.applyAll d ws).periods.subscriptions.length := by
  induction ws generalizing d with
  | nil => exact le_rfl
  | cons w ws ih => exact (length_le_apply d w).trans (ih (d.apply w))

/-- Writes that fit go on to fit as long as no period disappears and the usage rows they concern
stay as they are. -/
theorem Fits.later (h : Fits d ws)
    (hlength : d.periods.subscriptions.length ≤ d'.periods.subscriptions.length)
    (husage : ∀ w ∈ ws, ∀ t, w.target = some t → d'.usage t = d.usage t) : Fits d' ws := by
  induction ws generalizing d d' with
  | nil => trivial
  | cons w ws ih =>
    refine ⟨?_, ih h.2 ?_ fun v hv t ht => ?_⟩
    · have hw := husage w mem_cons_self
      have hfits := h.1
      cases w with
      | increment | decrement => exact lt_of_lt_of_le hfits hlength
      | createUsage u => exact ⟨(hw u.target rfl).trans hfits.1, hfits.2⟩
      | releaseUsage id t => exact (hw t rfl).trans hfits
      | _ => trivial
    · cases w <;> simp only [Db.apply, Db.count, Table.length_update, length_append,
        length_singleton] <;> omega
    · rw [usage_apply, usage_apply, husage v (mem_cons_of_mem _ hv) t ht]

end Rabotka.Quotas
