import Mathlib.Algebra.BigOperators.Ring.List
import Mathlib.Algebra.Group.Action.Defs
import Rabotka.Collaboration.Graph

/-!
# The links that are kept

The pairs with the minimum are kept exactly if fewer than `limit` of them are ahead (`kept_iff`).
A dropped pair is therefore weaker in collaborations or applications than a kept one unless the two
tie in both, and then it may have more contacts. The sums over the profiles are sums over the ends
of the kept edges (`get_totals`), so they agree with the totals.
-/

namespace Rabotka.Collaboration

open Lib List

variable {counts : Counts} {minCollaborations : ℚ} {limit : ℕ} {e : GraphEdge}
  {p q : ProfileId × ProfileId}

/-! ### Selection -/

theorem byStrength_iff {a b : GraphEdge} :
    byStrength a b = true ↔ b.collaborations < a.collaborations ∨
      b.collaborations = a.collaborations ∧ b.applications ≤ a.applications := by
  unfold byStrength
  dsimp only
  rw [decide_eq_true_iff]
  split_ifs <;> omega

theorem byStrength_trans (a b c : GraphEdge) (hab : byStrength a b) (hbc : byStrength b c) :
    byStrength a c := by
  rw [byStrength_iff] at *
  omega

theorem byStrength_total (a b : GraphEdge) : byStrength a b || byStrength b a := by
  rw [Bool.or_eq_true, byStrength_iff, byStrength_iff]
  omega

namespace Counts

/-- The edges with the minimum. -/
def filtered (counts : Counts) (minCollaborations : ℚ) : List GraphEdge :=
  counts.merged.filter fun e => (e.collaborations : ℚ) ≥ minCollaborations

/-- `kept`. -/
def kept (counts : Counts) (minCollaborations : ℚ) (limit : ℕ) : List GraphEdge :=
  selectEdges counts.merged minCollaborations limit

theorem mem_filtered_iff : e ∈ counts.filtered minCollaborations ↔
    e.pair ∈ counts.passing minCollaborations ∧
      ∀ field, e.get field = counts.strength field e.pair := by
  rw [filtered, mem_filter, mem_merged_iff, passing, Finset.mem_filter, mem_toFinset,
    decide_eq_true_iff, and_assoc, and_assoc]
  refine and_congr_right fun _ => ⟨fun h => ⟨?_, h.1⟩, fun h => ⟨h.2, ?_⟩⟩
  · rw [← h.1]
    exact h.2
  · have hmin := h.1
    rw [← h.2] at hmin
    exact hmin

theorem nodup_map_pair_filtered : ((counts.filtered minCollaborations).map GraphEdge.pair).Nodup :=
  nodup_map_pair_merged.sublist (filter_sublist.map _)

/-- The pair of an edge with the minimum is one of them, and each of them has an edge. -/
theorem toFinset_map_pair_filtered :
    ((counts.filtered minCollaborations).map GraphEdge.pair).toFinset =
      counts.passing minCollaborations := by
  ext p
  rw [mem_toFinset, mem_map]
  constructor
  · rintro ⟨e, he, rfl⟩
    exact (mem_filtered_iff.mp he).1
  · intro hp
    have hlisted : p ∈ counts.pairs := mem_toFinset.mp (Finset.mem_filter.mp hp).1
    obtain ⟨e, -, rfl, hcounts⟩ := get_byPair hlisted
    exact ⟨e, mem_filtered_iff.mpr ⟨hp, hcounts⟩, rfl⟩

theorem length_filtered :
    (counts.filtered minCollaborations).length = (counts.passing minCollaborations).card := by
  rw [← toFinset_map_pair_filtered, toFinset_card_of_nodup nodup_map_pair_filtered, length_map]

theorem length_merged : counts.merged.length = counts.pairs.toFinset.card := by
  have h : (counts.merged.map GraphEdge.pair).toFinset = counts.pairs.toFinset := by
    ext p
    rw [mem_toFinset, mem_toFinset, mem_map]
    constructor
    · rintro ⟨e, he, rfl⟩
      exact (mem_merged_iff.mp he).1
    · intro hp
      obtain ⟨e, -, rfl, hcounts⟩ := get_byPair hp
      exact ⟨e, mem_merged_iff.mpr ⟨hp, hcounts⟩, rfl⟩
  rw [← h, toFinset_card_of_nodup nodup_map_pair_merged, length_map]

/-- The sort puts an edge before another where its pair is ahead. -/
theorem ahead_iff {a b : GraphEdge} (ha : a ∈ counts.filtered minCollaborations)
    (hb : b ∈ counts.filtered minCollaborations) :
    Ranked.Ahead byStrength
        (fun e e' => counts.pairs.idxOf e.pair < counts.pairs.idxOf e'.pair) a b ↔
      counts.Ahead a.pair b.pair := by
  have hcounts := (mem_filtered_iff.mp ha).2
  have hcounts' := (mem_filtered_iff.mp hb).2
  rw [Ranked.Ahead, Ahead, ← Bool.not_eq_true, byStrength_iff, byStrength_iff,
    ← hcounts .collaborations, ← hcounts .applications, ← hcounts' .collaborations,
    ← hcounts' .applications]
  simp only [GraphEdge.get]
  omega

/-- The number of edges that go before an edge is the place of its pair. -/
theorem countP_ahead (he : e ∈ counts.filtered minCollaborations) :
    ((counts.filtered minCollaborations).countP fun e' => Ranked.Ahead byStrength
        (fun e e' => counts.pairs.idxOf e.pair < counts.pairs.idxOf e'.pair) e' e) =
      counts.place minCollaborations e.pair := by
  have hcongr : ∀ e' ∈ counts.filtered minCollaborations, (decide (Ranked.Ahead byStrength
        (fun e e' => counts.pairs.idxOf e.pair < counts.pairs.idxOf e'.pair) e' e) = true ↔
      decide (counts.Ahead e'.pair e.pair) = true) := fun e' he' => by
    rw [decide_eq_true_iff, decide_eq_true_iff, ahead_iff he' he]
  have hset : (counts.passing minCollaborations).filter (fun q => counts.Ahead q e.pair) =
      (((counts.filtered minCollaborations).map GraphEdge.pair).filter fun q =>
        counts.Ahead q e.pair).toFinset := by
    rw [← toFinset_map_pair_filtered]
    ext q
    simp only [Finset.mem_filter, mem_toFinset, mem_filter, decide_eq_true_iff]
  rw [countP_congr hcongr, place, hset,
    toFinset_card_of_nodup (nodup_map_pair_filtered.filter _), ← countP_eq_length_filter,
    countP_map]
  rfl

theorem place_lt_card (hp : p ∈ counts.passing minCollaborations) :
    counts.place minCollaborations p < (counts.passing minCollaborations).card := by
  refine Finset.card_lt_card (Finset.filter_ssubset.mpr ⟨p, hp, ?_⟩)
  unfold Ahead
  omega

theorem mem_filtered_of_kept (he : e ∈ counts.kept minCollaborations limit) :
    e ∈ counts.filtered minCollaborations := by
  rw [kept, selectEdges] at he
  split_ifs at he
  · exact he
  · exact (mergeSort_perm _ _).mem_iff.mp (mem_of_mem_take he)

/-- **Selection**: an edge with the minimum is kept exactly if fewer than `limit` pairs with the
minimum are ahead of it. -/
theorem mem_kept_iff (he : e ∈ counts.filtered minCollaborations) :
    e ∈ counts.kept minCollaborations limit ↔ counts.place minCollaborations e.pair < limit := by
  rw [kept, selectEdges]
  rw [← filtered, length_filtered]
  split_ifs with h
  · exact iff_of_true he ((place_lt_card (mem_filtered_iff.mp he).1).trans_le h)
  · have hordered : (counts.filtered minCollaborations).Pairwise fun e e' =>
        counts.pairs.idxOf e.pair < counts.pairs.idxOf e'.pair :=
      pairwise_merged.sublist filter_sublist
    rw [Ranked.mem_take_mergeSort_iff byStrength_trans byStrength_total
      (fun a b => Nat.lt_asymm) hordered (Nodup.of_map _ nodup_map_pair_filtered) he,
      countP_ahead he]

/-- A pair with the minimum is kept exactly if fewer than `limit` are ahead of it. -/
theorem kept_iff (hp : p ∈ counts.passing minCollaborations) :
    (∃ e ∈ counts.kept minCollaborations limit, e.pair = p) ↔
      counts.place minCollaborations p < limit := by
  constructor
  · rintro ⟨e, he, rfl⟩
    exact (mem_kept_iff (mem_filtered_of_kept he)).mp he
  · intro h
    rw [← toFinset_map_pair_filtered, mem_toFinset, mem_map] at hp
    obtain ⟨e, he, rfl⟩ := hp
    exact ⟨e, (mem_kept_iff he).mpr h, rfl⟩

theorem dropped_iff (hp : p ∈ counts.passing minCollaborations) :
    (∀ e ∈ counts.kept minCollaborations limit, e.pair ≠ p) ↔
      limit ≤ counts.place minCollaborations p := by
  rw [← not_lt, ← kept_iff hp]
  simp

theorem length_kept : (counts.kept minCollaborations limit).length =
    min limit (counts.passing minCollaborations).card := by
  rw [kept, selectEdges]
  rw [← filtered, ← length_filtered]
  split_ifs with h
  · exact (min_eq_right h).symm
  · rw [length_take, length_mergeSort]

theorem nodup_map_pair_kept : ((counts.kept minCollaborations limit).map GraphEdge.pair).Nodup := by
  have hfiltered : ((counts.filtered minCollaborations).map GraphEdge.pair).Nodup :=
    nodup_map_pair_filtered
  rw [kept, selectEdges]
  rw [← filtered]
  split_ifs
  · exact hfiltered
  · exact (((mergeSort_perm _ _).map _).nodup_iff.mpr hfiltered).sublist ((take_sublist ..).map _)

/-! ### The two conditions -/

/-- The limit drops no pair for one with fewer contacts that ties with it otherwise. -/
def ContactsRespected (counts : Counts) (minCollaborations : ℚ) (limit : ℕ) : Prop :=
  ∀ p ∈ counts.passing minCollaborations, ∀ q ∈ counts.passing minCollaborations,
    counts.Tied p q → limit ≤ counts.place minCollaborations p →
      counts.place minCollaborations q < limit →
        counts.strength .contacts p ≤ counts.strength .contacts q

/-- The minimum drops no pair, or the limit does too. -/
def MinimumHarmless (counts : Counts) (minCollaborations : ℚ) (limit : ℕ) : Prop :=
  (∀ p ∈ counts.pairs, minCollaborations ≤ counts.strength .collaborations p) ∨
    limit < (counts.passing minCollaborations).card

/-- A pair with a greater place is not ahead. -/
theorem place_le_of_ahead (h : counts.Ahead p q) :
    counts.place minCollaborations p ≤ counts.place minCollaborations q := by
  refine Finset.card_le_card fun r hr => ?_
  obtain ⟨hmem, hahead⟩ := Finset.mem_filter.mp hr
  refine Finset.mem_filter.mpr ⟨hmem, ?_⟩
  unfold Ahead at *
  omega

/-- A dropped pair that is not weaker than a kept one in collaborations or applications ties with
it. -/
theorem tied_of_dropped (hdropped : limit ≤ counts.place minCollaborations p)
    (hkept : counts.place minCollaborations q < limit)
    (hcollab : counts.strength .collaborations q ≤ counts.strength .collaborations p)
    (happ : counts.strength .applications q ≤ counts.strength .applications p) :
    counts.Tied p q := by
  have hnot : ¬ counts.Ahead p q := fun h => by
    have hle : counts.place minCollaborations p ≤ counts.place minCollaborations q :=
      place_le_of_ahead h
    omega
  unfold Ahead at hnot
  unfold Tied
  omega

/-- No dropped pair dominates a kept one if and only if contacts are respected. -/
theorem undominated_iff : (∀ p ∈ counts.passing minCollaborations,
      (∀ e ∈ counts.kept minCollaborations limit, e.pair ≠ p) →
      ∀ e ∈ counts.kept minCollaborations limit,
        (∃ field, counts.strength field e.pair < counts.strength field p) →
          ∃ field, counts.strength field p < counts.strength field e.pair) ↔
      counts.ContactsRespected minCollaborations limit := by
  constructor
  · intro h p hp q hq htied hdropped hkept
    obtain ⟨e, he, rfl⟩ := (kept_iff hq).mpr hkept
    by_contra hlt
    obtain ⟨field, hfield⟩ := h p hp ((dropped_iff hp).mpr hdropped) e he ⟨.contacts, not_le.mp hlt⟩
    cases field with
    | collaborations => exact hfield.ne htied.1
    | applications => exact hfield.ne htied.2
    | contacts => exact hlt hfield.le
  · intro h p hp hdropped e he hstronger
    have hq := (mem_filtered_iff.mp (mem_filtered_of_kept he)).1
    have hkept := (kept_iff hq).mp ⟨e, he, rfl⟩
    rw [dropped_iff hp] at hdropped
    by_contra hnone
    have hle : ∀ field, counts.strength field e.pair ≤ counts.strength field p := fun field =>
      not_lt.mp fun hlt => hnone ⟨field, hlt⟩
    have htied := tied_of_dropped hdropped hkept (hle _) (hle _)
    obtain ⟨field, hfield⟩ := hstronger
    cases field with
    | collaborations => exact hfield.ne htied.1.symm
    | applications => exact hfield.ne htied.2.symm
    | contacts => exact (h p hp e.pair hq htied hdropped hkept).not_gt hfield

/-- The limit drops a pair if there are more than it allows. -/
theorem exists_dropped_iff : (∃ p ∈ counts.passing minCollaborations,
      ∀ e ∈ counts.kept minCollaborations limit, e.pair ≠ p) ↔
      limit < (counts.passing minCollaborations).card := by
  constructor
  · rintro ⟨p, hp, hdropped⟩
    exact ((dropped_iff hp).mp hdropped).trans_lt (place_lt_card hp)
  · intro h
    by_contra hnone
    have hall : (counts.passing minCollaborations) ⊆
        ((counts.kept minCollaborations limit).map GraphEdge.pair).toFinset := by
      intro p hp
      rw [mem_toFinset, mem_map]
      by_contra hp'
      exact hnone ⟨p, hp, fun e he hpair => hp' ⟨e, he, hpair⟩⟩
    have hcard := Finset.card_le_card hall
    rw [toFinset_card_of_nodup nodup_map_pair_kept, length_map, length_kept] at hcard
    omega

/-- `truncated` says that the limit dropped a pair with the minimum if and only if the minimum is
harmless. -/
theorem truncated_iff :
    ((counts.kept minCollaborations limit).length < counts.merged.length ↔
      ∃ p ∈ counts.passing minCollaborations,
        ∀ e ∈ counts.kept minCollaborations limit, e.pair ≠ p) ↔
      counts.MinimumHarmless minCollaborations limit := by
  have hle : (counts.passing minCollaborations).card ≤ counts.pairs.toFinset.card :=
    Finset.card_filter_le _ _
  have hall : (∀ p ∈ counts.pairs, minCollaborations ≤ counts.strength .collaborations p) ↔
      (counts.passing minCollaborations).card = counts.pairs.toFinset.card := by
    rw [passing, Finset.card_filter_eq_iff]
    simp only [mem_toFinset]
  rw [exists_dropped_iff, MinimumHarmless, hall, length_kept, length_merged]
  omega

end Counts

/-! ### Sums over the profiles -/

section Nodes

variable {edges : List GraphEdge} {id : ProfileId} {findMany : List ProfileId → List Profile}

def Totals.get (t : Totals) : Field → ℕ
  | .collaborations => t.collaborations
  | .applications => t.applications
  | .contacts => t.contacts

theorem mem_nodeIds : id ∈ nodeIds edges ↔ ∃ e ∈ edges, id ∈ e.ends := by
  rw [nodeIds, mem_dedup, mem_flatMap]

/-- The two loops are one, over the ends of the edges. -/
theorem totals_eq (edges : List GraphEdge) : totals edges =
      (edges.flatMap fun e => e.ends.map (·, e)).foldl (InsertionMap.update Totals.add) [] := by
  rw [foldl_flatMap]
  simp only [foldl_map]
  rfl

/-- An edge is given to a profile once for each end that it is. -/
theorem given_ends (edges : List GraphEdge) (id : ProfileId) :
    InsertionMap.given (edges.flatMap fun e => e.ends.map (·, e)) id =
      edges.flatMap fun e => replicate (e.endsAt id) e := by
  induction edges with
  | nil => rfl
  | cons e edges ih =>
    rw [flatMap_cons, flatMap_cons, ← ih]
    by_cases hs : e.source = id <;> by_cases ht : e.target = id <;>
      simp [InsertionMap.given, GraphEdge.ends, GraphEdge.endsAt, hs, ht, replicate]

theorem foldl_add (es : List GraphEdge) (old : Option Totals) :
    ((es.foldl (fun old e => some (Totals.add old e)) old).getD {}).degree =
        (old.getD {}).degree + es.length ∧
      ∀ field, ((es.foldl (fun old e => some (Totals.add old e)) old).getD {}).get field =
        (old.getD {}).get field + (es.map fun e => e.get field).sum := by
  induction es generalizing old with
  | nil => exact ⟨rfl, fun _ => rfl⟩
  | cons e es ih =>
    obtain ⟨hdegree, hget⟩ := ih (some (Totals.add old e))
    refine ⟨?_, fun field => ?_⟩
    · rw [foldl_cons, hdegree, Option.getD_some, length_cons, add_comm es.length, ← add_assoc]
      rfl
    · rw [foldl_cons, hget, Option.getD_some, map_cons, sum_cons, ← add_assoc]
      cases field <;> rfl

/-- What a profile is given in the end. -/
theorem get_totals (edges : List GraphEdge) (id : ProfileId) :
    ((InsertionMap.get (totals edges) id).getD {}).degree = (edges.map fun e => e.endsAt id).sum ∧
      ∀ field, ((InsertionMap.get (totals edges) id).getD {}).get field =
        (edges.map fun e => e.endsAt id * e.get field).sum := by
  rw [totals_eq, InsertionMap.get_foldl_update, InsertionMap.get_nil, given_ends]
  obtain ⟨hdegree, hget⟩ := foldl_add (edges.flatMap fun e => replicate (e.endsAt id) e) none
  refine ⟨?_, fun field => ?_⟩
  · rw [hdegree, length_flatMap]
    simp
  · rw [hget, map_flatMap, flatMap_def, sum_flatten, map_map]
    cases field <;> simp [Totals.get, Function.comp_def]

/-- The profiles that are found are those asked for, once each. -/
def Finds (findMany : List ProfileId → List Profile) : Prop :=
  ∀ ids, ids.Nodup → ((findMany ids).map Profile.id).Perm ids

variable (hfinds : Finds findMany)

include hfinds

/-- The nodes are the ends of the edges, once each. -/
theorem map_id_nodes (edges : List GraphEdge) :
    ((buildNodes findMany edges).map GraphNode.id).Perm (nodeIds edges) := by
  unfold buildNodes
  split_ifs with h
  · rw [h]
    exact Perm.refl _
  · rw [map_map]
    exact hfinds _ (nodup_dedup _)

omit hfinds in
/-- A node carries what its profile was given. -/
theorem of_mem_nodes {n : GraphNode} (hn : n ∈ buildNodes findMany edges) :
    n.degree = (edges.map fun e => e.endsAt n.id).sum ∧
      ∀ field, n.get field = (edges.map fun e => e.endsAt n.id * e.get field).sum := by
  unfold buildNodes at hn
  split_ifs at hn with h
  · cases hn
  · obtain ⟨p, -, rfl⟩ := mem_map.mp hn
    obtain ⟨hdegree, hget⟩ := get_totals edges p.id
    refine ⟨hdegree, fun field => ?_⟩
    rw [← hget field]
    cases field <;> rfl

omit hfinds in
/-- Over profiles that cover its ends, an edge is met twice. -/
theorem sum_endsAt {ids : List ProfileId} (hids : ids.Nodup) {e : GraphEdge}
    (hends : ∀ id ∈ e.ends, id ∈ ids) : (ids.map fun id => e.endsAt id).sum = 2 := by
  have hone : ∀ id ∈ ids, (ids.map fun j => if id = j then 1 else 0).sum = 1 := fun id hid => by
    have hcount := count_eq_one_of_mem hids hid
    rw [count_eq_countP, countP_eq_length_filter] at hcount
    rw [sum_map_ite]
    simpa [eq_comm, fun j : ProfileId => beq_eq_decide j id] using hcount
  have hsplit : ∀ j, e.endsAt j = (if e.source = j then 1 else 0) +
      if e.target = j then 1 else 0 := fun j => by
    by_cases hs : e.source = j <;> by_cases ht : e.target = j <;>
      simp [GraphEdge.endsAt, GraphEdge.ends, hs, ht]
  simp only [hsplit, sum_map_add]
  rw [hone _ (hends _ (by simp [GraphEdge.ends])), hone _ (hends _ (by simp [GraphEdge.ends]))]

omit hfinds in
/-- Summed over profiles that cover all ends, each edge is counted twice. -/
theorem sum_over_ids {ids : List ProfileId} (hids : ids.Nodup) (f : GraphEdge → ℕ)
    (hends : ∀ e ∈ edges, ∀ id ∈ e.ends, id ∈ ids) :
    (ids.map fun id => (edges.map fun e => e.endsAt id * f e).sum).sum = 2 * (edges.map f).sum := by
  induction edges with
  | nil => simp
  | cons e edges ih =>
    have hfirst : (ids.map fun id => e.endsAt id * f e).sum = 2 * f e := by
      rw [sum_map_mul_right, sum_endsAt hids (hends e mem_cons_self)]
    simp only [map_cons, sum_cons, sum_map_add]
    rw [hfirst, ih fun e he => hends e (mem_cons_of_mem _ he), mul_add]

/-- A sum over the nodes of what they carry for each of their ends is twice the sum over the
edges. -/
theorem sum_nodes (f : GraphEdge → ℕ) {g : GraphNode → ℕ}
    (hg : ∀ n ∈ buildNodes findMany edges, g n = (edges.map fun e => e.endsAt n.id * f e).sum) :
    ((buildNodes findMany edges).map g).sum = 2 * (edges.map f).sum := by
  have hperm := map_id_nodes hfinds edges
  rw [map_congr_left hg]
  have hids := (hperm.nodup_iff.mpr (nodup_dedup _))
  have hsum := sum_over_ids hids f fun e (he : e ∈ edges) id hid =>
    hperm.mem_iff.mpr (mem_nodeIds.mpr ⟨e, he, hid⟩)
  rwa [map_map] at hsum

end Nodes

/-! ### The graph -/

/-- The graph keeps the strongest links, and its sums agree, if and only if no dropped pair has
more contacts than a kept one that ties with it otherwise, and the minimum drops no pair unless the
limit does too. -/
theorem loadGraph_exact_iff (findMany : List ProfileId → List Profile) (hfinds : Finds findMany)
    (counts : Counts) (minCollaborations : ℚ) (limit : ℕ) :
    Exact counts minCollaborations limit (loadGraph findMany counts minCollaborations limit) ↔
      counts.ContactsRespected minCollaborations limit ∧
        counts.MinimumHarmless minCollaborations limit := by
  have hedges : (loadGraph findMany counts minCollaborations limit).edges =
      counts.kept minCollaborations limit := rfl
  constructor
  · intro h
    refine ⟨Counts.undominated_iff.mp h.undominated, Counts.truncated_iff.mp ?_⟩
    rw [← hedges, ← h.truncated]
    exact decide_eq_true_iff.symm
  · rintro ⟨hcontacts, hminimum⟩
    exact {
      nodup := Counts.nodup_map_pair_kept
      summed := fun e he => (Counts.mem_filtered_iff.mp (Counts.mem_filtered_of_kept he)).2
      passes := fun e he => (Counts.mem_filtered_iff.mp (Counts.mem_filtered_of_kept he)).1
      all := fun hle p hp => (Counts.kept_iff hp).mpr ((Counts.place_lt_card hp).trans_le hle)
      cut := fun hlt => Counts.length_kept.trans (min_eq_left hlt.le)
      undominated := Counts.undominated_iff.mpr hcontacts
      truncated := decide_eq_true_iff.trans (Counts.truncated_iff.mpr hminimum)
      nodes := fun id => (map_id_nodes hfinds _).mem_iff.trans mem_nodeIds
      degree := fun n hn => (of_mem_nodes hn).1
      sums := fun n hn => (of_mem_nodes hn).2
      stats := ⟨rfl, rfl, fun field => by cases field <;> rfl⟩
      twiceEdges := by
        have h := @sum_nodes (counts.kept minCollaborations limit) _ hfinds (fun _ => 1)
          GraphNode.degree fun n hn => by
            rw [(of_mem_nodes hn).1]
            simp only [mul_one]
        rw [map_const', sum_replicate, smul_eq_mul, mul_one] at h
        exact h
      twice := fun field => by
        have h := @sum_nodes (counts.kept minCollaborations limit) _ hfinds
          (fun e => e.get field) (fun n => n.get field) fun n hn => (of_mem_nodes hn).2 field
        cases field <;> exact h }

/-- Every id has a profile without a name. -/
def nameless (ids : List ProfileId) : List Profile :=
  ids.map fun id => ⟨id, "", "", "WORKER", none⟩

theorem finds_nameless : Finds nameless := fun ids _ => by
  rw [nameless, map_map]
  simp [Function.comp_def]

/-- An employer who worked three times with one worker and once with another. -/
def twoWorkers : Counts where
  collabRows :=
    [⟨⟨"e", by decide⟩, ⟨"w", by decide⟩, 3⟩, ⟨⟨"e", by decide⟩, ⟨"x", by decide⟩, 1⟩]
  applicationRows := []
  contactRows := []

theorem twoWorkers_exact : Exact twoWorkers 1 2000 (loadGraph nameless twoWorkers 1 2000) :=
  (loadGraph_exact_iff nameless finds_nameless twoWorkers 1 2000).mpr
    ⟨by unfold Counts.ContactsRespected; decide +kernel,
      by unfold Counts.MinimumHarmless; decide +kernel⟩

/-- With a minimum of two, the second pair is below it, the limit drops nothing, and the graph is
called truncated. -/
theorem minimum_called_truncated :
    ¬ Exact twoWorkers 2 2000 (loadGraph nameless twoWorkers 2 2000) := fun h => by
  have hnone : ¬ ∃ p ∈ twoWorkers.passing 2,
      ∀ e ∈ (loadGraph nameless twoWorkers 2 2000).edges, e.pair ≠ p := by decide +kernel
  exact hnone (h.truncated.mp (by decide +kernel))

end Rabotka.Collaboration
