import Rabotka.Subscriptions.Schema

/-!
# What the writes do

Row by row, what a query finds and what an accepted write leaves. Every operation is a few of
these, so its effect on a period is read off them and not from its text.
-/

namespace Rabotka.Subscriptions

open List

variable {db db' : Db} {rows : List Subscription}

/-- Every period lasts some time. -/
def Checked (rows : List Subscription) : Prop :=
  ∀ r ∈ rows, r.startsAt < r.endsAt

variable {r : Subscription}

theorem Checked.get {i : ℕ} (h : Checked rows) (hr : rows[i]? = some r) : r.startsAt < r.endsAt :=
  h r (mem_of_getElem? hr)

/-! ### Queries -/

section Find

variable {p : Subscription → Bool} {o : Subscription → ℤ}

theorem mem_find {x : ℕ × Subscription} :
    x ∈ db.find p o ↔ db.subscriptions[x.1]? = some x.2 ∧ p x.2 := by
  rw [Db.find, mem_insertionSort]
  exact Table.mem_findMany

theorem nodup_find : ((db.find p o).map Prod.fst).Nodup := by
  have hperm := (perm_insertionSort (fun x y => o x.2 ≤ o y.2)
    (Table.findMany db.subscriptions fun _ => p)).map Prod.fst
  exact hperm.nodup_iff.2 (Table.nodup_findMany _ _)

/-- The rows come in order. -/
theorem pairwise_find : (db.find p o).Pairwise fun x y => o x.2 ≤ o y.2 := by
  have : Std.Total fun x y : ℕ × Subscription => o x.2 ≤ o y.2 :=
    ⟨fun x y => le_total _ _⟩
  have : IsTrans (ℕ × Subscription) fun x y => o x.2 ≤ o y.2 :=
    ⟨fun x y z => le_trans⟩
  exact pairwise_insertionSort _ _

/-- The first row is one that matches, and none that matches comes before it. -/
theorem find_head {x : ℕ × Subscription} (h : (db.find p o).head? = some x) :
    db.subscriptions[x.1]? = some x.2 ∧ p x.2 ∧
      ∀ (i : ℕ) (r : Subscription), db.subscriptions[i]? = some r → p r → o x.2 ≤ o r := by
  obtain ⟨hx, hp⟩ := mem_find.1 (mem_of_mem_head? h)
  refine ⟨hx, hp, fun i r hr hpr => ?_⟩
  have hmem : (i, r) ∈ db.find p o := mem_find.2 ⟨hr, hpr⟩
  have hsorted : (db.find p o).Pairwise fun x y => o x.2 ≤ o y.2 := pairwise_find
  generalize db.find p o = l at *
  cases l with
  | nil => cases h
  | cons y l =>
    obtain rfl := Option.some.inj h
    rcases mem_cons.1 hmem with rfl | hmem
    · exact le_rfl
    · exact (pairwise_cons.1 hsorted).1 _ hmem

/-- No row matches. -/
theorem find_none (h : (db.find p o).head? = none) {i : ℕ}
    (hr : db.subscriptions[i]? = some r) : p r = false := by
  rw [head?_eq_none_iff] at h
  by_contra hp
  have hmem : (i, r) ∈ db.find p o := mem_find.2 ⟨hr, by simpa using hp⟩
  rw [h] at hmem
  cases hmem

end Find

/-! ### Accepted writes -/

theorem bind_eq_ok {α β : Type} {x : Except Exn α} {f : α → Except Exn β} {b : β} :
    x >>= f = .ok b ↔ ∃ a, x = .ok a ∧ f a = .ok b := by
  cases x with
  | error | ok => simp [bind, Except.bind]

theorem withSubscriptions_eq_ok : db.withSubscriptions rows = .ok db' ↔
      Checked rows ∧ db' = { db with subscriptions := rows } := by
  unfold Db.withSubscriptions Checked
  split
  · rename_i h
    rw [Except.ok.injEq]
    exact ⟨fun heq => ⟨h, heq.symm⟩, fun heq => heq.2.symm⟩
  · rename_i h
    constructor
    · intro heq
      cases heq
    · exact fun heq => (h heq.1).elim

/-- What an accepted write changed: each row of the table by `g`, and nothing else. -/
structure Rewrites (g : ℕ → Subscription → Subscription) (db db' : Db) : Prop where
  row : ∀ i, db'.subscriptions[i]? = (db.subscriptions[i]?).map (g i)
  checked : Checked db'.subscriptions
  plans : db'.plans = db.plans

theorem Rewrites.comp {g h : ℕ → Subscription → Subscription} {d : Db} (hg : Rewrites g db db')
    (hh : Rewrites h db' d) : Rewrites (fun i r => h i (g i r)) db d where
  row i := by
    rw [hh.row, hg.row, Option.map_map]
    rfl
  checked := hh.checked
  plans := hh.plans.trans hg.plans

theorem Rewrites.congr {g g' : ℕ → Subscription → Subscription} (h : Rewrites g db db')
    (hg : ∀ (i : ℕ) (r : Subscription), db.subscriptions[i]? = some r → g i r = g' i r) :
    Rewrites g' db db' where
  row i := by
    rw [h.row]
    cases hr : db.subscriptions[i]? with
    | none => rfl
    | some r => rw [Option.map_some, Option.map_some, hg i r hr]
  checked := h.checked
  plans := h.plans

theorem Rewrites.length {g : ℕ → Subscription → Subscription} (h : Rewrites g db db') :
    db'.subscriptions.length = db.subscriptions.length := by
  refine le_antisymm ?_ ?_
  · by_contra hlt
    have hrow := h.row db.subscriptions.length
    rw [getElem?_eq_none le_rfl, getElem?_eq_getElem (not_le.1 hlt)] at hrow
    cases hrow
  · by_contra hlt
    have hrow := h.row db'.subscriptions.length
    rw [getElem?_eq_none le_rfl, getElem?_eq_getElem (not_le.1 hlt)] at hrow
    cases hrow

theorem rewrites_update {id : ℕ} {f : Subscription → Subscription}
    (h : db.updateSubscription id f = .ok db') :
    Rewrites (fun i r => if id = i then f r else r) db db' := by
  obtain ⟨hchecked, rfl⟩ := withSubscriptions_eq_ok.1 h
  exact ⟨fun i => Table.getElem?_update _ _ _ _, hchecked, rfl⟩

theorem rewrites_updateMany {p : ℕ → Subscription → Bool} {f : Subscription → Subscription}
    (h : db.updateSubscriptions p f = .ok db') :
    Rewrites (fun i r => if p i r then f r else r) db db' := by
  obtain ⟨hchecked, rfl⟩ := withSubscriptions_eq_ok.1 h
  exact ⟨fun i => Table.getElem?_updateMany _ _ _ _, hchecked, rfl⟩

/-- A created row is the last one. -/
theorem createSubscription_eq_ok (h : db.createSubscription r = .ok db') :
    Checked (db.subscriptions ++ [r]) ∧
      db' = { db with subscriptions := db.subscriptions ++ [r] } := by
  unfold Db.createSubscription at h
  split at h
  · cases h
  split at h
  · cases h
  exact withSubscriptions_eq_ok.1 h

/-- A period moved in time. -/
def Subscription.move (shift : ℤ) (r : Subscription) : Subscription :=
  { r with startsAt := r.startsAt + shift, endsAt := r.endsAt + shift }

/-- The queued periods move, each by the same amount from where it was found. -/
theorem rewrites_moveQueued {shift : ℤ} {queued : List (ℕ × Subscription)}
    (hdb : Checked db.subscriptions) (hnodup : (queued.map Prod.fst).Nodup)
    (hfound : ∀ x ∈ queued, ∃ r, db.subscriptions[x.1]? = some r ∧ r.startsAt = x.2.startsAt ∧
      r.endsAt = x.2.endsAt)
    (h : moveQueued shift queued db = .ok db') :
    Rewrites (fun i r => if i ∈ queued.map Prod.fst then r.move shift else r) db db' := by
  induction queued generalizing db with
  | nil =>
    obtain rfl : db = db' := Except.ok.inj h
    exact ⟨fun i => by simp, hdb, rfl⟩
  | cons x queued ih =>
    obtain ⟨id, q⟩ := x
    rw [map_cons, nodup_cons] at hnodup
    obtain ⟨d, hd, hrest⟩ := bind_eq_ok.1 h
    have hwrite := rewrites_update hd
    have hrest' := ih hwrite.checked hnodup.2 (fun x hx => ?_) hrest
    · refine ⟨fun i => ?_, hrest'.checked, hrest'.plans.trans hwrite.plans⟩
      rw [(hwrite.comp hrest').row]
      cases hr : db.subscriptions[i]? with
      | none => rfl
      | some r =>
        rcases eq_or_ne id i with rfl | hne
        · obtain ⟨r₀, hr₀, hstart, hend⟩ := hfound _ mem_cons_self
          obtain rfl := Option.some.inj (hr.symm.trans hr₀)
          simp [hnodup.1, Subscription.move, hstart, hend]
        · simp only [Option.map_some, map_cons, mem_cons, hne.symm, false_or, if_neg hne]
    · obtain ⟨r, hr, hsame⟩ := hfound x (mem_cons_of_mem _ hx)
      have hne : id ≠ x.1 := by
        rintro rfl
        exact hnodup.1 (mem_map.2 ⟨x, hx, rfl⟩)
      exact ⟨r, by rw [hwrite.row, hr, Option.map_some, if_neg hne], hsame⟩

theorem mem_ids_find {p : Subscription → Bool} {o : Subscription → ℤ} {i : ℕ}
    (hr : db.subscriptions[i]? = some r) : i ∈ (db.find p o).map Prod.fst ↔ p r := by
  rw [mem_map]
  constructor
  · rintro ⟨x, hx, rfl⟩
    obtain ⟨hq, hmatch⟩ := mem_find.1 hx
    obtain rfl := Option.some.inj (hr.symm.trans hq)
    exact hmatch
  · exact fun hmatch => ⟨(i, r), mem_find.2 ⟨hr, hmatch⟩, rfl⟩

/-- The queue that is found moves. -/
theorem rewrites_moveFound {shift : ℤ} {p : Subscription → Bool} {o : Subscription → ℤ}
    (hdb : Checked db.subscriptions) (h : moveQueued shift (db.find p o) db = .ok db') :
    Rewrites (fun _ r => if p r then r.move shift else r) db db' := by
  refine (rewrites_moveQueued hdb nodup_find (fun x hx => ⟨x.2, (mem_find.1 hx).1, rfl, rfl⟩)
    h).congr fun i r hr => ?_
  rw [if_congr (mem_ids_find hr) rfl rfl]

end Rabotka.Subscriptions
