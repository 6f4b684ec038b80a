import Rabotka.Missions.Schema

/-!
# Ratings under concurrency

The aggregate that a profile stores is computed from the ratings a transaction sees and written
later in the same transaction, and whether a rating is the first one is read before it is
stored. `ratings_exact` is the contract these gaps leave: as long as no transaction commits an
aggregate of ratings that have changed meanwhile, and no rating that was read as missing is
there by the time it is stored, the aggregates are exact in every state and no assignment moves
a reliability score twice. `two_raters_counted_once` and `rated_twice_scored_twice` are the two
ways out of it.

`Notes` is what a proof has to remember of each open transaction: the key it looked up, whether
the rating was missing, the rows it aggregated, and whether it moved the score.
-/

namespace Rabotka.Missions

open Async List

/-! ### What is to hold -/

/-- Every profile stores the count and the mean of the ratings it received. -/
def Db.Exact (db : Db) : Prop :=
  ∀ (p : ℕ) (profile : Profile), db.profiles[p]? = some profile →
    profile.ratingCount = (db.ratingsOf p).length ∧ profile.ratingAvg = ratingAvg (db.ratingsOf p)

/-- Whom a side of an assignment rates. -/
def Assignment.counterparty (x : Assignment) (raterId : ℕ) : ℕ :=
  if x.workerId = raterId then x.employerId else x.workerId

/-- The rating goes to the other side of its assignment. -/
def Db.WellRated (db : Db) (r : Rating) : Prop :=
  ∃ x, db.findAssignment r.assignmentId = some x ∧ r.rateeId = x.counterparty r.raterId

/-! ### What a transaction has done -/

/-- An open transaction, as far as it must be remembered. -/
structure Track where
  raterId : ℕ := 0
  assignmentId : ℕ := 0
  first : Bool := false
  rateeId : ℕ := 0
  rows : List Rating := []
  scored : Bool := false

/-- The open transactions, and the assignments for which a score was moved. -/
structure Notes where
  current : ℕ → Track
  applied : List ℕ

/-- Nothing has happened yet. -/
def Notes.start : Notes := ⟨fun _ => {}, []⟩

/-- Replaces the note of one process. -/
def Notes.set (n : Notes) (i : ℕ) (tr : Track) : Notes :=
  { n with current := fun j => if j = i then tr else n.current j }

@[simp]
theorem Notes.set_self (n : Notes) (i : ℕ) (tr : Track) : (n.set i tr).current i = tr :=
  if_pos rfl

theorem Notes.set_of_ne {i j : ℕ} (h : j ≠ i) (n : Notes) (tr : Track) :
    (n.set i tr).current j = n.current j :=
  if_neg h

@[simp]
theorem Notes.set_applied (n : Notes) (i : ℕ) (tr : Track) : (n.set i tr).applied = n.applied :=
  rfl

/-- What is remembered of each step. -/
def Notes.record (n : Notes) (i : ℕ) (c : Cmd) (r : Resp c) : Notes :=
  match c, r with
  | .begin, _ => n.set i {}
  | .stmt (.findRating raterId assignmentId), existing =>
    n.set i { n.current i with raterId, assignmentId, first := !existing }
  | .stmt (.aggregateRatings rateeId), rows => n.set i { n.current i with rateeId, rows }
  | .stmt (.updateReliability _ _), _ => n.set i { n.current i with scored := true }
  | .commit, _ =>
    if (n.current i).scored then { n with applied := (n.current i).assignmentId :: n.applied }
    else n
  | _, _ => n

theorem Notes.record_of_ne {i j : ℕ} (h : j ≠ i) (n : Notes) (c : Cmd) (r : Resp c) :
    (n.record i c r).current j = n.current j := by
  unfold Notes.record
  split
  case h_5 => split <;> rfl
  all_goals first | exact Notes.set_of_ne h _ _ | rfl

/-- The rating service with its notes. -/
def tracked : Service (Store × Notes) Cmd Resp RateRequest Fees Exn :=
  service.withHistory Notes.record

/-- The rater is the employer of the assignment. -/
def isEmployersRating (db : Db) (r : Rating) : Bool :=
  (db.findAssignment r.assignmentId).any fun x => x.employerId = r.raterId

/-- The condition on the interleaving: an employer's rating that was read as missing is still
missing when it is stored, and the ratings that were aggregated are still the ratings of the
person when the transaction commits. -/
def undisturbed : Guard (Store × Notes) Cmd RateRequest Fees := fun s v =>
  match v with
  | .step i (.stmt (.upsertRating r)) _ =>
    !((s.2.current i).first && isEmployersRating s.1.db r &&
      (s.1.view engine i).isRated r.raterId r.assignmentId)
  | .step i .commit _ =>
    (s.1.view engine i).ratingsOf (s.2.current i).rateeId = (s.2.current i).rows
  | _ => true

/-! ### What the writes change -/

section Writes

variable {d : Db} {r : Rating} {w : Write} {ws : List Write}

@[simp]
theorem hiring_upsertRating (d : Db) (r : Rating) : (d.upsertRating r).hiring = d.hiring := by
  unfold Db.upsertRating
  split <;> rfl

@[simp]
theorem profiles_upsertRating (d : Db) (r : Rating) : (d.upsertRating r).profiles = d.profiles := by
  unfold Db.upsertRating
  split <;> rfl

theorem hiring_applyAll (d : Db) (ws : List Write) : (engine.applyAll d ws).hiring = d.hiring := by
  induction ws generalizing d with
  | nil => rfl
  | cons w ws ih =>
    rw [ReadCommitted.Engine.applyAll_cons, ih]
    cases w with
    | upsertRating r => exact hiring_upsertRating d r
    | updateAggregate | updateReliability => rfl

theorem findAssignment_congr {d d' : Db} (h : d'.hiring = d.hiring) (a : ℕ) :
    d'.findAssignment a = d.findAssignment a := by
  unfold Db.findAssignment
  rw [h]

/-- Storing a rating makes its own key rated and no other. -/
theorem isRated_upsertRating (d : Db) (r : Rating) (k a : ℕ) : (d.upsertRating r).isRated k a =
      (d.isRated k a || decide (r.raterId = k ∧ r.assignmentId = a)) := by
  unfold Db.upsertRating
  split_ifs with hrated
  · have hkeys : (d.ratings.map fun q =>
          if q.raterId = r.raterId ∧ q.assignmentId = r.assignmentId then
            { q with score := r.score }
          else q).any (fun q => q.raterId = k ∧ q.assignmentId = a) = d.isRated k a := by
      unfold Db.isRated
      rw [any_map]
      congr 1
      funext q
      dsimp only [Function.comp]
      split_ifs <;> rfl
    have hsame : decide (r.raterId = k ∧ r.assignmentId = a) = true → d.isRated k a = true := by
      intro h
      obtain ⟨rfl, rfl⟩ := of_decide_eq_true h
      exact hrated
    rw [Db.isRated, hkeys]
    cases hk : decide (r.raterId = k ∧ r.assignmentId = a)
    · rw [Bool.or_false]
    · rw [hsame hk, Bool.or_true]
  · simp [Db.isRated]

/-- The ratings of another person are left alone. -/
theorem ratingsOf_upsertRating_of_ne {p : ℕ} (hwell : d.WellRated r)
    (hall : ∀ q ∈ d.ratings, d.WellRated q) (hp : r.rateeId ≠ p) :
    (d.upsertRating r).ratingsOf p = d.ratingsOf p := by
  unfold Db.upsertRating Db.ratingsOf
  split_ifs with hrated
  · dsimp only
    rw [filter_map]
    have hfilter : d.ratings.filter ((fun q => decide (q.rateeId = p)) ∘ fun q =>
          if q.raterId = r.raterId ∧ q.assignmentId = r.assignmentId then
            { q with score := r.score }
          else q) = d.ratings.filter fun q => q.rateeId = p := by
      refine filter_congr fun q _ => ?_
      dsimp only [Function.comp]
      split_ifs <;> rfl
    rw [hfilter]
    refine (map_congr_left fun q hq => ?_).trans (map_id _)
    -- a rating under the key of `r` goes to the person that `r` goes to
    rw [if_neg]
    · rfl
    · rintro ⟨hrater, hassignment⟩
      obtain ⟨hmem, hratee⟩ := mem_filter.1 hq
      obtain ⟨x, hx, hxq⟩ := hall q hmem
      obtain ⟨y, hy, hyr⟩ := hwell
      rw [hassignment] at hx
      obtain rfl : x = y := Option.some.inj (hx.symm.trans hy)
      rw [hrater, ← hyr] at hxq
      exact hp (hxq.symm.trans (of_decide_eq_true hratee))
  · simp [filter_append, hp]

theorem wellRated_upsertRating {q : Rating} (hwell : d.WellRated r)
    (hall : ∀ q ∈ d.ratings, d.WellRated q) (hq : q ∈ (d.upsertRating r).ratings) :
    d.WellRated q := by
  unfold Db.upsertRating at hq
  split_ifs at hq with hrated
  · obtain ⟨q₀, hq₀, rfl⟩ := mem_map.1 hq
    split_ifs
    · exact hall q₀ hq₀
    · exact hall q₀ hq₀
  · rcases mem_append.1 hq with hq | hq
    · exact hall q hq
    · obtain rfl := mem_singleton.1 hq
      exact hwell

/-- What a lock protects: whether the key is rated, and the row of the profile. -/
def observe : Lock → Db → Bool × Option Profile
  | .rating raterId assignmentId, d => (d.isRated raterId assignmentId, none)
  | .profile p, d => (false, d.profiles[p]?)

theorem engine_protects : ReadCommitted.Store.Protects engine observe := by
  intro d c fees a writes locks hrun d' k hk
  cases c with
  | upsertRating r =>
    obtain ⟨-, hrest⟩ := pair_inj hrun
    obtain ⟨rfl, rfl⟩ := Prod.mk.inj hrest
    change observe k (d'.upsertRating r) = observe k d'
    cases k with
    | profile p => simp [observe]
    | rating k b =>
      have hne : ¬ (r.raterId = k ∧ r.assignmentId = b) := by
        rintro ⟨rfl, rfl⟩
        exact hk mem_cons_self
      simp [observe, isRated_upsertRating, hne]
  | updateAggregate p avg count =>
    obtain ⟨-, hrest⟩ := pair_inj hrun
    obtain ⟨rfl, rfl⟩ := Prod.mk.inj hrest
    cases k with
    | rating k b => rfl
    | profile q =>
      have hne : ¬ p = q := by
        rintro rfl
        exact hk mem_cons_self
      simp [observe, engine, Db.apply, Db.updateProfile, Table.getElem?_update, hne]
  | updateReliability p score =>
    obtain ⟨-, hrest⟩ := pair_inj hrun
    obtain ⟨rfl, rfl⟩ := Prod.mk.inj hrest
    cases k with
    | rating k b => rfl
    | profile q =>
      have hne : ¬ p = q := by
        rintro rfl
        exact hk mem_cons_self
      simp [observe, engine, Db.apply, Db.updateProfile, Table.getElem?_update, hne]
  | _ =>
    obtain ⟨-, hrest⟩ := pair_inj hrun
    obtain ⟨rfl, rfl⟩ := Prod.mk.inj hrest
    rfl

end Writes

end Rabotka.Missions
