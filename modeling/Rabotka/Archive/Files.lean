import Rabotka.Lib.Serial
import Rabotka.Archive.Collected

/-!
# Purging a profile removes exactly its files

The files of a profile are collected before it is purged, and removed after. Exactly its files are
removed if and only if what its rows alone hold is collected of one of them, and what is collected
is held by no row that stays (`bulkPurge_exact_iff`).

`bulkPurge_inexact` shows what happens otherwise.
-/

namespace Rabotka.Archive

open Async

variable {s : Setting} {rows : List Row} {ids : List ℕ} {d : Row} {o : Bucket × String}

/-! ### What is promised -/

/-- What the rows that fall hold and no other row does is removed, and what a row holds that stays
is kept. -/
structure Exact (s : Setting) (ids : List ℕ) (w w' : World) : Prop where
  removed : ∀ d ∈ w.rows, d.data.isFile → Leaves w.rows ids d → ∀ o ∈ d.data.holds s,
    ¬ Held s w'.rows o → o ∉ w'.objects
  kept : ∀ o ∈ w.objects, Held s w'.rows o → o ∈ w'.objects

/-- What the rows that fall hold and no other row does is collected of one of them, and what is
collected no row holds that stays; as far as it is stored. -/
structure Covered (s : Setting) (ids : List ℕ) (w : World) : Prop where
  all : ∀ d ∈ w.rows, d.data.isFile → Leaves w.rows ids d → ∀ o ∈ d.data.holds s, o ∈ w.objects →
    (∀ r ∈ w.rows, o ∈ r.data.holds s → Leaves w.rows ids r) →
      ∃ r ∈ w.rows, Leaves w.rows ids r ∧ o ∈ r.data.reads s
  only : ∀ d ∈ w.rows, Leaves w.rows ids d → ∀ o ∈ d.data.reads s, o ∈ w.objects →
    ∀ r ∈ w.rows, o ∈ r.data.holds s → Leaves w.rows ids r

/-! ### The program alone -/

/-- The calls of a process that runs alone. -/
def run (s : Setting) (w : World) (c : Cmd) : Option (World × Resp c) := some (exec s w c)

/-- Run alone, `op` leads from `P` to `Q`, unless it throws. -/
abbrev Alone (s : Setting) {α : Type} (P : World → Prop) (op : Prog α) (Q : α → World → Prop) :
    Prop := Op.Serial (run s) (.error "") P op Q fun _ _ => True

theorem alone_call {c : Cmd} {P : World → Prop} {Q : Resp c → World → Prop}
    (h : ∀ w, P w → Q (exec s w c).2 (exec s w c).1) : Alone s P (issue c) Q := by
  refine .cmd (fun w w' r hw hexec => ?_) fun _ _ _ => trivial
  obtain ⟨rfl, rfl⟩ := pair_inj hexec
  exact h w hw

/-- Counting changes nothing. -/
theorem alone_countBlockers {w₀ : World} {entity : ArchiveEntity} :
    Alone s (· = w₀) (countBlockers entity ids) fun _ w => w = w₀ := by
  have hself : Alone s (· = w₀) (countSelf (archiveRegistry entity) ids) fun _ w => w = w₀ := by
    unfold countSelf
    split
    · exact .ret fun _ h => h
    · exact .bind (alone_call (c := .count _ ids _) fun _ h => h) fun _ => .ret fun _ h => h
  have hrelations : ∀ rels : List Relation, Alone s (· = w₀)
      (countRelations (archiveRegistry entity).model ids rels) fun _ w => w = w₀ := by
    intro rels
    induction rels with
    | nil => exact .ret fun _ h => h
    | cons rel rels ih =>
      refine .bind (R := fun _ w => w = w₀) (alone_call (c := .count _ ids rel.some) fun _ h => h)
        fun _ => ?_
      exact .bind ih fun _ => .ret fun _ h => h
  exact .bind hself fun _ => .bind (hrelations _) fun _ => .ret fun _ h => h

/-- A purge that succeeds deletes what falls, after it was collected. -/
theorem alone_purge {w₀ : World} : Alone s (· = w₀) (purge .profiles ids (collect s))
    fun result w => (ids = [] ∧ result.collected = [] ∧ w = w₀) ∨
      collectObjects s (findProfileFiles w₀.rows ids) = .ok result.collected ∧
        w = { w₀ with rows := deleteMany w₀.rows .profile ids } := by
  unfold purge
  split
  · rename_i hids
    exact .ret fun _ h => .inl ⟨hids, rfl, h⟩
  · rename_i hids
    refine .bind alone_countBlockers fun blockers => ?_
    split
    · exact .fail fun _ _ => trivial
    · refine .bind (R := fun objects w =>
        collectObjects s (findProfileFiles w₀.rows ids) = .ok objects ∧ w = w₀) ?_ fun objects => ?_
      · rw [collect, if_neg hids]
        refine .bind (R := fun profiles w => profiles = findProfileFiles w₀.rows ids ∧ w = w₀)
          (alone_call (c := .findProfileFiles ids) fun w h => by subst h; exact ⟨rfl, rfl⟩)
          fun profiles => ?_
        split
        · rename_i hok
          exact .ret fun _ h => ⟨h.1 ▸ hok, h.2⟩
        · exact .fail fun _ _ => trivial
      · refine .bind (alone_call (c := .deleteMany (archiveRegistry .profiles).model ids)
          (Q := fun _ w => collectObjects s (findProfileFiles w₀.rows ids) = .ok objects ∧
            w = { w₀ with rows := deleteMany w₀.rows .profile ids }) fun w h => ?_) fun n => ?_
        · obtain ⟨hok, rfl⟩ := h
          exact ⟨hok, rfl⟩
        · exact .ret fun _ h => .inr h

/-- What is removed is what is named. -/
theorem alone_remove {objects : List StoredObject} {w₀ : World} :
    Alone s (· = w₀) (remove objects) fun _ w => w =
      { w₀ with objects := w₀.objects.filter (· ∉ objects.map (StoredObject.place s)) } := by
  induction objects generalizing w₀ with
  | nil => exact .ret fun w h => by simp [h]
  | cons z objects ih =>
    refine .bind (R := fun _ w => w =
      { w₀ with objects := w₀.objects.filter (· ≠ z.place s) }) ?_ fun _ => ?_
    · exact .orElseCatch (Y := fun _ _ => False) (.cmd (fun w w' r hw hexec => by
        subst hw
        exact (pair_inj hexec).1.symm) fun _ _ hnone => by cases hnone)
        fun _ => .ret fun _ h => h.elim
    · refine ih.post_mono (fun _ w h => ?_) fun _ _ h => h
      rw [h, List.filter_filter]
      congr 1
      refine List.filter_congr fun o _ => ?_
      simp [not_or, Bool.and_comm]

/-! ### Exactly its files -/

theorem holds_detach (gone : Ref → Bool) (r : Row) :
    (r.detach gone).data.holds s = r.data.holds s := by
  unfold Row.detach
  split
  · rename_i hd
    split
    · rw [hd]
      rfl
    · rfl
  · rfl

/-- After the purge a row holds the object if one does that does not fall. -/
theorem held_deleteMany : Held s (deleteMany rows .profile ids) o ↔
    ∃ r ∈ rows, o ∈ r.data.holds s ∧ ¬ Leaves rows ids r := by
  constructor
  · rintro ⟨z, hz, ho⟩
    obtain ⟨r, hr, hfalls, rfl⟩ := mem_deleteMany.1 hz
    rw [holds_detach] at ho
    exact ⟨r, hr, ho, hfalls⟩
  · rintro ⟨r, hr, ho, hfalls⟩
    exact ⟨_, mem_deleteMany.2 ⟨r, hr, hfalls, rfl⟩, by rwa [holds_detach]⟩

/-- Nothing falls where no profile is named. -/
theorem not_leaves_nil : ¬ Leaves rows [] d := fun h =>
  h.subset (C := fun _ => False) (fun r _ harchived => by simp [Row.isArchived] at harchived)
    fun _ _ _ _ hfalse _ => hfalse

/-- The rows are deleted, and the objects. -/
def World.without (s : Setting) (w : World) (ids : List ℕ) (objects : List StoredObject) :
    World where
  rows := deleteMany w.rows .profile ids
  objects := w.objects.filter (· ∉ objects.map (StoredObject.place s))

theorem exact_iff {w : World} {objects : List StoredObject}
    (hcollected : collectObjects s (findProfileFiles w.rows ids) = .ok objects) :
    Exact s ids w (w.without s ids objects) ↔ Covered s ids w := by
  have hmem : ∀ o, o ∈ (w.without s ids objects).objects ↔
      o ∈ w.objects ∧ ¬ ∃ d ∈ w.rows, Leaves w.rows ids d ∧ o ∈ d.data.reads s := by
    intro o
    rw [World.without, List.mem_filter, decide_eq_true_eq, mem_collectObjects hcollected]
  constructor
  · intro h
    refine ⟨fun d hd hfile hfalls o ho hstored hheld => ?_,
      fun d hd hfalls o ho hstored r hr hholds => ?_⟩
    · have hgone := h.removed d hd hfile hfalls o ho fun hheld' => by
        obtain ⟨r, hr, hholds, hnot⟩ := held_deleteMany.1 hheld'
        exact hnot (hheld r hr hholds)
      by_contra hnone
      exact hgone ((hmem o).2 ⟨hstored, hnone⟩)
    · by_contra hnot
      have hkept := h.kept o hstored (held_deleteMany.2 ⟨r, hr, hholds, hnot⟩)
      exact ((hmem o).1 hkept).2 ⟨d, hd, hfalls, ho⟩
  · intro h
    refine ⟨fun d hd hfile hfalls o ho hnot hin => ?_, fun o hstored hheld => ?_⟩
    · obtain ⟨hstored, hnone⟩ := (hmem o).1 hin
      refine hnone (h.all d hd hfile hfalls o ho hstored fun r hr hholds => ?_)
      by_contra hstays
      exact hnot (held_deleteMany.2 ⟨r, hr, hholds, hstays⟩)
    · refine (hmem o).2 ⟨hstored, fun hread => ?_⟩
      obtain ⟨d, hd, hfalls, ho⟩ := hread
      obtain ⟨r, hr, hholds, hstays⟩ := held_deleteMany.1 hheld
      exact hstays (h.only d hd hfalls o ho hstored r hr hholds)

/-- **Purging profiles removes exactly their files** if and only if what their rows alone hold is
collected of one of them, and what is collected no other row holds. -/
theorem bulkPurge_exact_iff {w w' : World} {n : ℕ}
    (hrun : (bulkPurge s ids).alone (run s) (.error "") w = (w', .ok n)) :
    Exact s ids w w' ↔ Covered s ids w := by
  have hspec : Alone s (· = w) (bulkPurge s ids) fun _ v => (ids = [] ∧ v = w) ∨
      ∃ objects, collectObjects s (findProfileFiles w.rows ids) = .ok objects ∧
        v = w.without s ids objects := by
    refine .bind (@alone_purge _ _ w) fun result => ?_
    refine .bind (R := fun _ v => (ids = [] ∧ v = w) ∨
      ∃ objects, collectObjects s (findProfileFiles w.rows ids) = .ok objects ∧
        v = w.without s ids objects) (fun v hv => ?_) fun _ => .ret fun _ h => h
    rcases hv with ⟨hids, hnil, rfl⟩ | ⟨hok, rfl⟩
    · rw [hnil]
      exact .inl ⟨hids, rfl⟩
    · exact (alone_remove.post_mono (fun _ v h => .inr ⟨_, hok, h⟩) fun _ _ h => h) _ rfl
  have hends := hspec w rfl
  rw [hrun] at hends
  rcases hends with ⟨rfl, rfl⟩ | ⟨objects, hcollected, rfl⟩
  · refine ⟨fun _ => ?_, fun _ => ?_⟩
    · exact ⟨fun d _ _ hfalls => (not_leaves_nil hfalls).elim,
        fun d _ hfalls => (not_leaves_nil hfalls).elim⟩
    · exact ⟨fun d _ _ hfalls => (not_leaves_nil hfalls).elim, fun o ho _ => ho⟩
  · exact exact_iff hcollected

/-! ### A few profiles -/

def kycBucket : Bucket := ⟨"rabotka-kyc", by decide, by decide⟩

def publicBucket : Bucket := ⟨"rabotka-public", by decide, by decide⟩

/-- Two buckets. Of the urls below, only those of identity documents are parsed. -/
def twoBuckets : Setting where
  publicBaseUrl := "https://files.rabotka.cg/"
  publicBucket := publicBucket
  kycBucket := some kycBucket
  parseUrl url := if url = "s3://rabotka-kyc/kyc-documents/id.jpg" then
    some ⟨"rabotka-kyc", "/kyc-documents/id.jpg", false⟩ else none
  decodeURI := some
  decodeURIComponent := some

/-- An archived profile with an avatar, an identity document and a claim, and another profile. -/
def filed : World where
  rows := [{ id := 0, deleted := true, data := .profile (some "https://files.rabotka.cg/a.jpg") },
    { id := 0, data := .kycDocument 0 (some "kyc-documents/id.jpg")
        "s3://rabotka-kyc/kyc-documents/id.jpg" },
    { id := 0, data := .claim 0 ["https://files.rabotka.cg/c.jpg"] },
    { id := 0, data := .claimComment 0 ["https://files.rabotka.cg/d.jpg"] },
    { id := 1, data := .profile (some "https://files.rabotka.cg/b.jpg") }]
  objects := [(publicBucket, "a.jpg"), (publicBucket, "b.jpg"), (publicBucket, "c.jpg"),
    (publicBucket, "d.jpg"), (kycBucket, "kyc-documents/id.jpg")]

/-- The profile is purged. -/
def purged (w : World) : World × Except Exn ℕ :=
  (bulkPurge twoBuckets [0]).alone (run twoBuckets) (.error "") w

theorem bulkPurge_exact_iff_filed : ∃ w', purged filed = (w', .ok 1) ∧
    w'.objects = [(publicBucket, "b.jpg")] ∧
      (Exact twoBuckets [0] filed w' ↔ Covered twoBuckets [0] filed) := by
  have hobjects : (purged filed).1.objects = [(publicBucket, "b.jpg")] := by decide +kernel
  have hcount : (purged filed).2.toOption = some 1 := by decide +kernel
  have hends : purged filed = ((purged filed).1, .ok 1) := by
    cases hresult : (purged filed).2 with
    | error e => simp [hresult, Except.toOption] at hcount
    | ok n =>
      obtain rfl : n = 1 := by simpa [hresult, Except.toOption] using hcount
      exact Prod.ext rfl hresult
  exact ⟨_, hends, hobjects, bulkPurge_exact_iff hends⟩

/-- An archived profile of a business, with a document and an analysed CV. -/
def business : World where
  rows := [{ id := 0, deleted := true, data := .profile none },
    { id := 0, data := .business 0 },
    { id := 0, data := .businessDocument 0 "business-documents/niu.pdf" },
    { id := 0, data := .cvScreening 0 },
    { id := 0, data := .cvScreeningResume 0 (some "cv-screenings/cv.pdf") (some kycBucket) }]
  objects := [(kycBucket, "business-documents/niu.pdf"), (kycBucket, "cv-screenings/cv.pdf")]

/-- An archived profile with the avatar of another one. -/
def sharedAvatar : World where
  rows := [{ id := 0, deleted := true, data := .profile (some "https://files.rabotka.cg/a.jpg") },
    { id := 1, data := .profile (some "https://files.rabotka.cg/a.jpg") }]
  objects := [(publicBucket, "a.jpg")]

/-- **What goes wrong otherwise.** The papers of a business and the CVs it has analysed stay in
storage, with no row left; and the avatar of a profile that stays is removed. -/
theorem bulkPurge_inexact :
    (purged business).2.toOption = some 1 ∧ (purged business).1 = { business with rows := [] } ∧
    (purged sharedAvatar).2.toOption = some 1 ∧
    (purged sharedAvatar).1 = { rows := sharedAvatar.rows.tail, objects := [] } ∧
    (sharedAvatar.rows.tail.any fun r =>
      (publicBucket, "a.jpg") ∈ r.data.holds twoBuckets) = true := by
  decide +kernel

end Rabotka.Archive
