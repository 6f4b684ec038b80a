import Mathlib.Algebra.BigOperators.Group.List.Lemmas
import Mathlib.Algebra.Field.Rat
import Mathlib.Algebra.Order.Ring.Rat
import Rabotka.Lib.InsertionMap
import Rabotka.Lib.Distinct
import Rabotka.Lib.Text

/-!
# The collaboration graph

`CollaborationGraphService.loadGraph`: three lists of counts per pair of an employer and a worker
are merged into one edge for each pair (`mergeEdges`), the edges below a minimum of collaborations
are dropped and the rest cut to a limit, the strongest first (`selectEdges`), and the profiles the
remaining edges reach are given the sums over their edges (`buildNodes`).

The edges are sorted by collaborations and applications but not by contacts, and `truncated`
compares the kept edges with all of them, also those below the minimum. So the graph is what it
should be (`Exact`) only under two conditions on the counts, and `loadGraph_exact_iff` says that
these are all.
-/

namespace Rabotka.Collaboration

open Lib List

/-! ### The code -/

/-- The id of a profile. It is a UUID, so it has no bar in it. -/
structure ProfileId where
  text : String
  noBar : '|' ∉ text.toList
  deriving DecidableEq

/-- `EdgeRow`. -/
structure EdgeRow where
  employerId : ProfileId
  workerId : ProfileId
  count : ℕ
  deriving DecidableEq

/-- The three counts of an edge. -/
inductive Field
  | collaborations
  | applications
  | contacts
  deriving DecidableEq

/-- `GraphEdge`. -/
structure GraphEdge where
  source : ProfileId
  target : ProfileId
  collaborations : ℕ := 0
  applications : ℕ := 0
  contacts : ℕ := 0
  deriving DecidableEq

def GraphEdge.get (e : GraphEdge) : Field → ℕ
  | .collaborations => e.collaborations
  | .applications => e.applications
  | .contacts => e.contacts

/-- `existing[field] += Number(row.count)`. -/
def GraphEdge.add (e : GraphEdge) (n : ℕ) : Field → GraphEdge
  | .collaborations => { e with collaborations := e.collaborations + n }
  | .applications => { e with applications := e.applications + n }
  | .contacts => { e with contacts := e.contacts + n }

/-- The key of a pair in `byPair`. -/
def pairKey (p : ProfileId × ProfileId) : String :=
  p.1.text ++ "|" ++ p.2.text

def EdgeRow.pair (row : EdgeRow) : ProfileId × ProfileId := (row.employerId, row.workerId)

def GraphEdge.pair (e : GraphEdge) : ProfileId × ProfileId := (e.source, e.target)

/-- The edge of a pair from its old one and a row. -/
def upserted (existing : Option GraphEdge) (x : Field × EdgeRow) : GraphEdge :=
  (existing.getD { source := x.2.employerId, target := x.2.workerId }).add x.2.count x.1

/-- `upsert`. -/
def upsert (field : Field) (byPair : List (String × GraphEdge)) (row : EdgeRow) :
    List (String × GraphEdge) :=
  InsertionMap.set byPair (pairKey row.pair)
    (upserted (InsertionMap.get byPair (pairKey row.pair)) (field, row))

/-- `mergeEdges`. -/
def mergeEdges (collaborations applications contacts : List EdgeRow) : List GraphEdge :=
  let byPair := collaborations.foldl (upsert .collaborations) []
  let byPair := applications.foldl (upsert .applications) byPair
  let byPair := contacts.foldl (upsert .contacts) byPair
  byPair.map Prod.snd

/-- The comparison of `selectEdges`: not negative the other way round. -/
def byStrength (a b : GraphEdge) : Bool :=
  let order : ℤ := b.collaborations - a.collaborations
  let order := if order ≠ 0 then order else (b.applications - a.applications : ℤ)
  order ≤ 0

/-- `selectEdges`. -/
def selectEdges (edges : List GraphEdge) (minCollaborations : ℚ) (limit : ℕ) : List GraphEdge :=
  let filtered := edges.filter fun e => (e.collaborations : ℚ) ≥ minCollaborations
  if filtered.length ≤ limit then filtered else (filtered.mergeSort byStrength).take limit

/-- A profile as it is read. -/
structure Profile where
  id : ProfileId
  firstName : String
  lastName : String
  profileType : String
  avatarUrl : Option String

/-- `GraphNode`. -/
structure GraphNode where
  id : ProfileId
  name : String
  type : String
  avatarUrl : Option String
  collaborations : ℕ
  applications : ℕ
  contacts : ℕ
  degree : ℕ

/-- What is summed up for a profile. -/
structure Totals where
  collaborations : ℕ := 0
  applications : ℕ := 0
  contacts : ℕ := 0
  degree : ℕ := 0
  deriving DecidableEq

/-- The totals of a profile from its old ones and an edge. -/
def Totals.add (old : Option Totals) (e : GraphEdge) : Totals :=
  let t := old.getD {}
  { collaborations := t.collaborations + e.collaborations
    applications := t.applications + e.applications
    contacts := t.contacts + e.contacts
    degree := t.degree + 1 }

/-- The two ends of an edge. -/
def GraphEdge.ends (e : GraphEdge) : List ProfileId := [e.source, e.target]

/-- `totals`. -/
def totals (edges : List GraphEdge) : List (ProfileId × Totals) :=
  edges.foldl (fun m e => e.ends.foldl (fun m id => InsertionMap.set m id
    (Totals.add (InsertionMap.get m id) e)) m) []

/-- `ids`. -/
def nodeIds (edges : List GraphEdge) : List ProfileId := (edges.flatMap GraphEdge.ends).dedup

/-- `buildNodes`, with the profiles found for ids. -/
def buildNodes (findMany : List ProfileId → List Profile) (edges : List GraphEdge) :
    List GraphNode :=
  if nodeIds edges = [] then []
  else (findMany (nodeIds edges)).map fun p =>
    let t := (InsertionMap.get (totals edges) p.id).getD {}
    { id := p.id
      name := Text.trim (p.firstName ++ " " ++ p.lastName)
      type := p.profileType
      avatarUrl := p.avatarUrl
      collaborations := t.collaborations
      applications := t.applications
      contacts := t.contacts
      degree := t.degree }

/-- `stats`. -/
structure Stats where
  profiles : ℕ
  edges : ℕ
  collaborations : ℕ
  applications : ℕ
  contacts : ℕ
  truncated : Bool

/-- `CollaborationGraph`. -/
structure CollaborationGraph where
  nodes : List GraphNode
  edges : List GraphEdge
  stats : Stats

/-- The three lists of counts. -/
structure Counts where
  collabRows : List EdgeRow
  applicationRows : List EdgeRow
  contactRows : List EdgeRow

/-- `loadGraph`, where the three lists have been read. -/
def loadGraph (findMany : List ProfileId → List Profile) (counts : Counts)
    (minCollaborations : ℚ) (limit : ℕ) : CollaborationGraph :=
  let edges := mergeEdges counts.collabRows counts.applicationRows counts.contactRows
  let kept := selectEdges edges minCollaborations limit
  let nodes := buildNodes findMany kept
  { nodes
    edges := kept
    stats :=
      { profiles := nodes.length
        edges := kept.length
        collaborations := (kept.map GraphEdge.collaborations).sum
        applications := (kept.map GraphEdge.applications).sum
        contacts := (kept.map GraphEdge.contacts).sum
        truncated := kept.length < edges.length } }

/-! ### What the graph should be -/

namespace Counts

variable (counts : Counts)

def rows : Field → List EdgeRow
  | .collaborations => counts.collabRows
  | .applications => counts.applicationRows
  | .contacts => counts.contactRows

/-- A summed count of a pair. -/
def strength (field : Field) (p : ProfileId × ProfileId) : ℕ :=
  (((counts.rows field).filter fun row => row.pair = p).map EdgeRow.count).sum

/-- The pairs of all rows, list after list. -/
def pairs : List (ProfileId × ProfileId) :=
  (counts.collabRows ++ counts.applicationRows ++ counts.contactRows).map EdgeRow.pair

/-- The pairs with at least the minimum of collaborations. -/
def passing (minCollaborations : ℚ) : Finset (ProfileId × ProfileId) :=
  counts.pairs.toFinset.filter fun p => minCollaborations ≤ counts.strength .collaborations p

/-- No difference in collaborations or applications. -/
def Tied (p q : ProfileId × ProfileId) : Prop :=
  counts.strength .collaborations p = counts.strength .collaborations q ∧
    counts.strength .applications p = counts.strength .applications q

/-- More collaborations, or as many and more applications, or as many of both and listed before. -/
def Ahead (p q : ProfileId × ProfileId) : Prop :=
  counts.strength .collaborations q < counts.strength .collaborations p ∨
    counts.strength .collaborations q = counts.strength .collaborations p ∧
      (counts.strength .applications q < counts.strength .applications p ∨
        counts.strength .applications q = counts.strength .applications p ∧
          counts.pairs.idxOf p < counts.pairs.idxOf q)

instance : DecidableRel counts.Tied := fun _ _ => inferInstanceAs (Decidable (_ ∧ _))

instance : DecidableRel counts.Ahead := fun _ _ => inferInstanceAs (Decidable (_ ∨ _ ∧ _))

/-- How many pairs with the minimum are ahead of a pair. -/
def place (minCollaborations : ℚ) (p : ProfileId × ProfileId) : ℕ :=
  ((counts.passing minCollaborations).filter fun q => counts.Ahead q p).card

end Counts

/-- How many ends of an edge a profile is. A pair of a profile with itself has it at both. -/
def GraphEdge.endsAt (e : GraphEdge) (id : ProfileId) : ℕ := e.ends.count id

def GraphNode.get (n : GraphNode) : Field → ℕ
  | .collaborations => n.collaborations
  | .applications => n.applications
  | .contacts => n.contacts

def Stats.get (s : Stats) : Field → ℕ
  | .collaborations => s.collaborations
  | .applications => s.applications
  | .contacts => s.contacts

/-- The graph shows the strongest links, and its sums agree. -/
structure Exact (counts : Counts) (minCollaborations : ℚ) (limit : ℕ) (g : CollaborationGraph) :
    Prop where
  nodup : (g.edges.map GraphEdge.pair).Nodup
  summed : ∀ e ∈ g.edges, ∀ field, e.get field = counts.strength field e.pair
  passes : ∀ e ∈ g.edges, e.pair ∈ counts.passing minCollaborations
  all : (counts.passing minCollaborations).card ≤ limit →
    ∀ p ∈ counts.passing minCollaborations, ∃ e ∈ g.edges, e.pair = p
  cut : limit < (counts.passing minCollaborations).card → g.edges.length = limit
  undominated : ∀ p ∈ counts.passing minCollaborations, (∀ e ∈ g.edges, e.pair ≠ p) →
    ∀ e ∈ g.edges, (∃ field, counts.strength field e.pair < counts.strength field p) →
      ∃ field, counts.strength field p < counts.strength field e.pair
  truncated : g.stats.truncated = true ↔
    ∃ p ∈ counts.passing minCollaborations, ∀ e ∈ g.edges, e.pair ≠ p
  nodes : ∀ id, id ∈ g.nodes.map GraphNode.id ↔ ∃ e ∈ g.edges, id ∈ e.ends
  degree : ∀ n ∈ g.nodes, n.degree = (g.edges.map fun e => e.endsAt n.id).sum
  sums : ∀ n ∈ g.nodes, ∀ field,
    n.get field = (g.edges.map fun e => e.endsAt n.id * e.get field).sum
  stats : g.stats.profiles = g.nodes.length ∧ g.stats.edges = g.edges.length ∧
    ∀ field, g.stats.get field = (g.edges.map fun e => e.get field).sum
  twiceEdges : (g.nodes.map GraphNode.degree).sum = 2 * g.stats.edges
  twice : ∀ field, (g.nodes.map fun n => n.get field).sum = 2 * g.stats.get field

/-! ### Merging -/

/-- A text is cut at its first bar in one way. -/
theorem append_bar_inj {a b c d : List Char} (ha : '|' ∉ a) (hc : '|' ∉ c)
    (h : a ++ '|' :: b = c ++ '|' :: d) : a = c ∧ b = d := by
  induction a generalizing c with
  | nil =>
    cases c with
    | nil => exact ⟨rfl, (List.cons.inj h).2⟩
    | cons y c => exact absurd ((List.cons.inj h).1 ▸ mem_cons_self) hc
  | cons x a ih =>
    cases c with
    | nil => exact absurd ((List.cons.inj h).1 ▸ mem_cons_self) ha
    | cons y c =>
      obtain ⟨rfl, htail⟩ := List.cons.inj h
      obtain ⟨rfl, hbd⟩ := ih (not_mem_of_not_mem_cons ha) (not_mem_of_not_mem_cons hc) htail
      exact ⟨rfl, hbd⟩

/-- The keys tell pairs apart. -/
theorem pairKey_injective : Function.Injective pairKey := by
  rintro ⟨⟨a, ha⟩, ⟨b, hb⟩⟩ ⟨⟨c, hc⟩, ⟨d, hd⟩⟩ h
  have hlist : a.toList ++ '|' :: b.toList = c.toList ++ '|' :: d.toList := by
    simpa [pairKey] using congrArg String.toList h
  obtain ⟨hac, hbd⟩ := append_bar_inj ha hc hlist
  obtain rfl := String.toList_inj.mp hac
  obtain rfl := String.toList_inj.mp hbd
  rfl

section Merge

variable (counts : Counts)

/-- All rows with the count they go into, in the order in which they are merged. -/
def Counts.tagged : List (Field × EdgeRow) :=
  counts.collabRows.map (Field.collaborations, ·) ++
    counts.applicationRows.map (Field.applications, ·) ++
    counts.contactRows.map (Field.contacts, ·)

/-- The rows under the keys of their pairs. -/
def Counts.keyed : List (String × Field × EdgeRow) :=
  counts.tagged.map fun x => (pairKey x.2.pair, x)

/-- The edges. -/
def Counts.merged : List GraphEdge :=
  mergeEdges counts.collabRows counts.applicationRows counts.contactRows

/-- `byPair`, after the three loops. -/
def Counts.byPair : List (String × GraphEdge) :=
  counts.keyed.foldl (InsertionMap.update upserted) []

theorem Counts.merged_eq : counts.merged = counts.byPair.map Prod.snd := by
  simp only [merged, mergeEdges, byPair, keyed, tagged, map_append, map_map,
    foldl_append, foldl_map]
  rfl

variable {counts} {e : GraphEdge} {field : Field} {p q : ProfileId × ProfileId}

theorem Counts.fst_keyed : counts.keyed.map Prod.fst = counts.pairs.map pairKey := by
  simp [keyed, tagged, pairs, Function.comp_def]

theorem get_add (e : GraphEdge) (n : ℕ) (field field' : Field) :
    (e.add n field').get field = e.get field + if field' = field then n else 0 := by
  cases field <;> cases field' <;> rfl

theorem pair_add (e : GraphEdge) (n : ℕ) (field : Field) : (e.add n field).pair = e.pair := by
  cases field <;> rfl

/-- Rows of one pair add up on its edge. -/
theorem foldl_upserted (xs : List (Field × EdgeRow)) (e : GraphEdge) :
    ∃ e' : GraphEdge, xs.foldl (fun old x => some (upserted old x)) (some e) = some e' ∧
      e'.pair = e.pair ∧ ∀ field, e'.get field =
        e.get field + ((xs.filter fun x => x.1 = field).map fun x => x.2.count).sum := by
  induction xs generalizing e with
  | nil => exact ⟨e, rfl, rfl, fun _ => rfl⟩
  | cons x xs ih =>
    obtain ⟨e', hfold, hpair, hget⟩ := ih (e.add x.2.count x.1)
    refine ⟨e', hfold, hpair.trans (pair_add e _ _), fun field => ?_⟩
    rw [hget, get_add, filter_cons, add_assoc]
    by_cases hx : x.1 = field <;> simp [hx]

/-- What a pair is given, count by count, is its rows. -/
theorem Counts.given_keyed (counts : Counts) (field : Field) (p : ProfileId × ProfileId) :
    (((InsertionMap.given counts.keyed (pairKey p)).filter fun x => x.1 = field).map
      fun x => x.2.count).sum = counts.strength field p := by
  have hkey : ∀ row : EdgeRow, pairKey row.pair = pairKey p ↔ row.pair = p := fun row =>
    pairKey_injective.eq_iff
  cases field <;>
    simp [InsertionMap.given, keyed, tagged, strength, rows, filter_map, Function.comp_def,
      filter_filter, hkey]

/-- The edge of a pair that is listed. -/
theorem Counts.get_byPair (hp : p ∈ counts.pairs) :
    ∃ e, InsertionMap.get counts.byPair (pairKey p) = some e ∧ e.pair = p ∧
      ∀ field, e.get field = counts.strength field p := by
  rw [byPair, InsertionMap.get_foldl_update, InsertionMap.get_nil]
  have hof : ∀ x ∈ InsertionMap.given counts.keyed (pairKey p), x.2.pair = p := by
    intro x hx
    obtain ⟨y, hy, rfl⟩ := mem_map.mp hx
    obtain ⟨hmem, hkey⟩ := mem_filter.mp hy
    obtain ⟨z, -, rfl⟩ := mem_map.mp hmem
    exact pairKey_injective (of_decide_eq_true hkey)
  have hgiven := counts.given_keyed (p := p)
  rcases hxs : InsertionMap.given counts.keyed (pairKey p) with _ | ⟨x, xs⟩
  · -- A listed pair is given something.
    obtain ⟨y, hy, hkey⟩ : ∃ y ∈ counts.keyed, y.1 = pairKey p := by
      have hmem : pairKey p ∈ counts.keyed.map Prod.fst := by
        rw [fst_keyed]
        exact mem_map_of_mem hp
      simpa using hmem
    have hempty : counts.keyed.filter (fun x => decide (x.1 = pairKey p)) = [] :=
      map_eq_nil_iff.mp hxs
    exact absurd hkey (by simpa using filter_eq_nil_iff.mp hempty y hy)
  · rw [hxs] at hof hgiven
    obtain ⟨e, hfold, hpair, hget⟩ := foldl_upserted xs (upserted none x)
    refine ⟨e, hfold, hpair.trans ?_, fun field => ?_⟩
    · rw [upserted, pair_add, ← hof x mem_cons_self]
      rfl
    · rw [hget, ← hgiven, upserted, get_add, filter_cons]
      have hzero :
          GraphEdge.get { source := x.2.employerId, target := x.2.workerId } field = 0 := by
        cases field <;> rfl
      by_cases hx : x.1 = field <;> simp [hx, hzero]

theorem Counts.mem_keys_byPair {k : String} :
    k ∈ InsertionMap.keys counts.byPair ↔ k ∈ counts.pairs.map pairKey := by
  rw [byPair, InsertionMap.mem_keys_foldl_update, fst_keyed]
  simp

theorem Counts.nodup_keys_byPair : (InsertionMap.keys counts.byPair).Nodup :=
  InsertionMap.nodup_keys_foldl_update nodup_nil

/-- An entry of `byPair` is an edge under its own key, with the counts of its pair. -/
theorem Counts.of_mem_byPair {x : String × GraphEdge} (hx : x ∈ counts.byPair) :
    x.1 = pairKey x.2.pair ∧ x.2.pair ∈ counts.pairs ∧
      ∀ field, x.2.get field = counts.strength field x.2.pair := by
  have hmem : x.1 ∈ InsertionMap.keys counts.byPair := mem_map_of_mem hx
  obtain ⟨p, hp, hkey⟩ := mem_map.mp (mem_keys_byPair.mp hmem)
  obtain ⟨e, hget, hpair, hcounts⟩ := get_byPair hp
  have heq : x.2 = e := by
    have := (InsertionMap.mem_iff_get (k := x.1) (v := x.2) nodup_keys_byPair).mp hx
    rw [← hkey, hget] at this
    exact (Option.some.inj this).symm
  rw [heq, hpair]
  exact ⟨hkey.symm, hp, hcounts⟩

/-- **Merging**: the edges are the listed pairs, once each, with their summed counts. -/
theorem Counts.mem_merged_iff : e ∈ counts.merged ↔
      e.pair ∈ counts.pairs ∧ ∀ field, e.get field = counts.strength field e.pair := by
  rw [merged_eq, mem_map]
  constructor
  · rintro ⟨x, hx, rfl⟩
    exact (of_mem_byPair hx).2
  · rintro ⟨hp, hcounts⟩
    obtain ⟨e', hget, hpair, hcounts'⟩ := get_byPair hp
    have heq : e' = e := by
      cases e
      cases e'
      obtain ⟨rfl, rfl⟩ := Prod.mk.inj hpair
      have h := fun field => (hcounts' field).trans (hcounts field).symm
      obtain rfl := h .collaborations
      obtain rfl := h .applications
      obtain rfl := h .contacts
      rfl
    exact ⟨_, InsertionMap.mem_of_get hget, heq⟩

theorem Counts.map_key_merged :
    counts.merged.map (fun e => pairKey e.pair) = InsertionMap.keys counts.byPair := by
  rw [merged_eq, map_map]
  exact map_congr_left fun x hx => (of_mem_byPair hx).1.symm

theorem Counts.nodup_map_pair_merged : (counts.merged.map GraphEdge.pair).Nodup := by
  have h := counts.nodup_keys_byPair
  rw [← map_key_merged] at h
  exact Nodup.of_map pairKey (by rwa [map_map])

/-- An injective function keeps the places in a list. -/
theorem idxOf_map_pairKey (l : List (ProfileId × ProfileId)) (p : ProfileId × ProfileId) :
    (l.map pairKey).idxOf (pairKey p) = l.idxOf p := by
  induction l with
  | nil => rfl
  | cons q l ih =>
    rw [map_cons, idxOf_cons, idxOf_cons, ih]
    by_cases h : q = p
    · rw [h, beq_self_eq_true, beq_self_eq_true]
    · rw [beq_eq_false_iff_ne.mpr h, beq_eq_false_iff_ne.mpr (pairKey_injective.ne h)]

/-- The edges stand in the order in which their pairs are listed first. -/
theorem Counts.pairwise_merged :
    counts.merged.Pairwise fun e e' => counts.pairs.idxOf e.pair < counts.pairs.idxOf e'.pair := by
  have h := InsertionMap.pairwise_keys_foldl_update (f := upserted) counts.keyed
  rw [fst_keyed, ← byPair, ← map_key_merged, pairwise_map] at h
  simpa only [idxOf_map_pairKey] using h

end Merge

end Rabotka.Collaboration
