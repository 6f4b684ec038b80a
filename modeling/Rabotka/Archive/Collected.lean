import Rabotka.Archive.Relations

/-!
# What is collected of a profile

Before a profile is purged, its files are selected with a few nested relations and collected. What
is collected so is what is collected of the rows that fall with the profile, row by row: of identity
documents, files, portfolio images, claims and comments and of the avatar (`mem_collectObjects`).
-/

namespace Rabotka.Archive

open List

variable {s : Setting} {rows : List Row} {ids : List ℕ} {p d : Row} {o : Bucket × String}

/-! ### What a row names -/

/-- Where the objects are that were found. -/
def places (s : Setting) : Except Exn (List StoredObject) → List (Bucket × String)
  | .ok objects => objects.map (StoredObject.place s)
  | .error _ => []

/-- The object that an own url names. -/
def urlPlaces (s : Setting) (url : String) : List (Bucket × String) := places s (fromUrl s url)

/-- The objects that a row holds, by their keys or by own urls. -/
def Data.holds (s : Setting) : Data → List (Bucket × String)
  | .profile avatarUrl => avatarUrl.toList.flatMap (urlPlaces s)
  | .kycDocument _ key url | .kycVerificationImage _ key url =>
    key.toList.flatMap (fun k => s.kycBucket.toList.map fun b => (b, k)) ++ urlPlaces s url
  | .file _ _ key bucket => [StoredObject.place s { key, bucket }]
  | .portfolioImage _ key url =>
    key.toList.map (fun key => StoredObject.place s { key }) ++ urlPlaces s url
  | .claim _ urls | .claimComment _ urls => urls.flatMap (urlPlaces s)
  | .businessDocument _ key => s.kycBucket.toList.map fun b => (b, key)
  | .cvScreeningResume _ key bucket | .externalApplication _ key bucket =>
    key.toList.map fun key => StoredObject.place s { key, bucket }
  | .other objects => objects.map (StoredObject.place s)
  | _ => []

/-- The files of a profile: the CVs that candidates sent for its offers are not. -/
def Data.isFile : Data → Bool
  | .externalApplication _ _ _ | .other _ => false
  | _ => true

/-- What is collected of a row: identity documents by their keys, or else by legacy urls, pictures
by their keys, or else by own urls, files in the default bucket. -/
def Data.reads (s : Setting) : Data → List (Bucket × String)
  | .profile avatarUrl => avatarUrl.toList.flatMap (urlPlaces s)
  | .kycDocument _ key url | .kycVerificationImage _ key url => places s (fromKyc s (key, url))
  | .file _ _ key _ => [StoredObject.place s { key }]
  | .portfolioImage _ key url => places s (fromImage s (key, url))
  | .claim _ urls | .claimComment _ urls => urls.flatMap (urlPlaces s)
  | _ => []

/-- Some row holds the object. -/
def Held (s : Setting) (rows : List Row) (o : Bucket × String) : Prop :=
  ∃ r ∈ rows, o ∈ r.data.holds s

/-- The rows of the archived profiles among these fall. -/
abbrev Leaves (rows : List Row) (ids : List ℕ) : Row → Prop := Falls rows .profile ids

/-! ### What is collected -/

theorem bind_eq_ok {α β : Type} {x : Except Exn α} {f : α → Except Exn β} {b : β}
    (h : x >>= f = .ok b) : ∃ a, x = .ok a ∧ f a = .ok b := by
  cases x with
  | error e => cases h
  | ok a => exact ⟨a, rfl, h⟩

variable {objects : List StoredObject}

/-- What is gathered is what the members give. -/
theorem mem_gather {α : Type} {l : List α} {f : α → Except Exn (List StoredObject)}
    (h : gather f l = .ok objects) :
    o ∈ objects.map (StoredObject.place s) ↔ ∃ a ∈ l, o ∈ places s (f a) := by
  induction l generalizing objects with
  | nil =>
    obtain rfl := Except.ok.inj h
    simp
  | cons a l ih =>
    rw [gather] at h
    obtain ⟨first, ha, h⟩ := bind_eq_ok h
    obtain ⟨rest, hl, h⟩ := bind_eq_ok h
    obtain rfl := Except.ok.inj h
    simp [ih hl, ha, places]

theorem mem_places_gather {α : Type} {l : List α} {f : α → Except Exn (List StoredObject)}
    (h : gather f l = .ok objects) :
    o ∈ places s (gather f l) ↔ ∃ a ∈ l, o ∈ places s (f a) := by
  rw [← mem_gather h, h, places]

/-- A member of what is gathered without an error has given something without an error. -/
theorem ok_of_mem {α : Type} {l : List α} {f : α → Except Exn (List StoredObject)}
    (h : gather f l = .ok objects) {a : α} (ha : a ∈ l) :
    ∃ out, f a = .ok out := by
  induction l generalizing objects with
  | nil => cases ha
  | cons b l ih =>
    rw [gather] at h
    obtain ⟨first, hb, h⟩ := bind_eq_ok h
    obtain ⟨rest, hl, -⟩ := bind_eq_ok h
    rcases mem_cons.1 ha with rfl | ha
    · exact ⟨first, hb⟩
    · exact ih hl ha

/-- What is collected of what was selected of a profile. -/
theorem mem_collectProfile {f : ProfileFiles}
    (h : collectProfile s f = .ok objects) : o ∈ objects.map (StoredObject.place s) ↔
      (∃ u ∈ f.avatarUrl, o ∈ urlPlaces s u) ∨ (∃ d ∈ f.kyc, o ∈ places s (fromKyc s d)) ∨
      (∃ key ∈ f.files, StoredObject.place s { key } = o) ∨
      (∃ images ∈ f.portfolioItems, ∃ d ∈ images, o ∈ places s (fromImage s d)) ∨
      ∃ c ∈ f.claims, (∃ u ∈ c.1, o ∈ urlPlaces s u) ∨
        ∃ comment ∈ c.2, ∃ u ∈ comment, o ∈ urlPlaces s u := by
  rw [collectProfile] at h
  obtain ⟨avatar, havatar, h⟩ := bind_eq_ok h
  obtain ⟨kyc, hkyc, h⟩ := bind_eq_ok h
  obtain ⟨portfolio, hportfolio, h⟩ := bind_eq_ok h
  obtain ⟨claims, hclaims, h⟩ := bind_eq_ok h
  obtain rfl := Except.ok.inj h
  have himages : ∀ images ∈ f.portfolioItems, o ∈ places s (gather (fromImage s) images) ↔
      ∃ d ∈ images, o ∈ places s (fromImage s d) := fun images hmem =>
    mem_places_gather (ok_of_mem hportfolio hmem).choose_spec
  have hclaim : ∀ c ∈ f.claims, (o ∈ places s (do
      return (← gather (fromUrl s) c.1) ++ (← gather (gather (fromUrl s)) c.2))) ↔
      (∃ u ∈ c.1, o ∈ urlPlaces s u) ∨ ∃ comment ∈ c.2, ∃ u ∈ comment, o ∈ urlPlaces s u := by
    intro c hmem
    obtain ⟨out, hout⟩ := ok_of_mem hclaims hmem
    obtain ⟨own, hown, h⟩ := bind_eq_ok hout
    obtain ⟨comments, hcomments, h⟩ := bind_eq_ok h
    obtain rfl := Except.ok.inj h
    rw [hout, places, map_append, mem_append, mem_gather hown, mem_gather hcomments]
    refine or_congr Iff.rfl (exists_congr fun comment => and_congr_right fun hcomment => ?_)
    exact mem_places_gather (ok_of_mem hcomments hcomment).choose_spec
  simp only [map_append, mem_append, mem_gather havatar, mem_gather hkyc,
    mem_gather hportfolio, mem_gather hclaims, map_map, mem_map, Function.comp_apply,
    Option.mem_toList, urlPlaces, or_assoc]
  refine or_congr Iff.rfl (or_congr Iff.rfl (or_congr Iff.rfl (or_congr ?_ ?_)))
  · exact exists_congr fun images => and_congr_right fun hmem => himages images hmem
  · exact exists_congr fun c => and_congr_right fun hmem => hclaim c hmem

/-! ### What is selected of a profile -/

/-- The row hangs on the profile of this number, as far as it is selected. -/
def Row.belongs (rows : List Row) (profileId : ℕ) (d : Row) : Prop :=
  match d.data with
  | .kycDocument id _ _ | .kycVerificationImage id _ _ | .claim id _ => id = profileId
  | .file id _ _ _ => id = some profileId
  | .portfolioImage item _ _ => ∃ z ∈ rows, z.id = item ∧ z.data = .portfolioItem profileId
  | .claimComment claim _ => ∃ z ∈ rows, z.id = claim ∧ ∃ urls, z.data = .claim profileId urls
  | _ => False

theorem mem_kyc {k : Option String × String} : k ∈ (profileFiles rows p).kyc ↔
    ∃ r ∈ rows, r.data = .kycDocument p.id k.1 k.2 ∨
      r.data = .kycVerificationImage p.id k.1 k.2 := by
  rw [profileFiles, mem_append, mem_filterMap, mem_filterMap, ← exists_or]
  refine exists_congr fun r => ?_
  rw [← and_or_left]
  refine and_congr_right fun _ => ?_
  cases r.data <;> simp [Prod.ext_iff, eq_comm]

theorem mem_files {key : String} : key ∈ (profileFiles rows p).files ↔
    ∃ r ∈ rows, ∃ u b, r.data = .file (some p.id) u key b := by
  rw [profileFiles, mem_filterMap]
  refine exists_congr fun r => and_congr_right fun _ => ?_
  cases r.data <;> simp

theorem mem_portfolio {k : Option String × String} :
    (∃ images ∈ (profileFiles rows p).portfolioItems, k ∈ images) ↔
      ∃ z ∈ rows, z.data = .portfolioItem p.id ∧
        ∃ r ∈ rows, r.data = .portfolioImage z.id k.1 k.2 := by
  simp only [profileFiles, mem_filterMap]
  constructor
  · rintro ⟨images, ⟨z, hz, himages⟩, hk⟩
    cases hd : z.data with
    | portfolioItem id =>
      simp only [hd, Option.ite_none_right_eq_some, Option.some.injEq] at himages
      obtain ⟨rfl, rfl⟩ := himages
      obtain ⟨r, hr, hk⟩ := mem_filterMap.1 hk
      refine ⟨z, hz, hd, r, hr, ?_⟩
      revert hk
      cases r.data <;> simp +contextual [Prod.ext_iff]
    | _ => simp [hd] at himages
  · rintro ⟨z, hz, hd, r, hr, hk⟩
    refine ⟨_, ⟨z, hz, by rw [hd]; simp; rfl⟩, mem_filterMap.2 ⟨r, hr, by simp [hk]⟩⟩

/-- The attachments of a comment on the claim. -/
def commentUrls (claim : ℕ) (r : Row) : Option (List String) :=
  match r.data with
  | .claimComment claimId urls => if claimId = claim then some urls else none
  | _ => none

/-- The attachments of the claims about a profile, and of their comments. -/
theorem exists_claims {q : String → Prop} :
    (∃ c ∈ (profileFiles rows p).claims, (∃ u ∈ c.1, q u) ∨ ∃ comment ∈ c.2, ∃ u ∈ comment, q u) ↔
      ∃ z ∈ rows, ∃ urls, z.data = .claim p.id urls ∧ ((∃ u ∈ urls, q u) ∨
        ∃ r ∈ rows, ∃ urls', r.data = .claimComment z.id urls' ∧ ∃ u ∈ urls', q u) := by
  have hcomments : ∀ z : Row, (∃ comment ∈ rows.filterMap (commentUrls z.id), ∃ u ∈ comment, q u) ↔
      ∃ r ∈ rows, ∃ urls', r.data = .claimComment z.id urls' ∧ ∃ u ∈ urls', q u := by
    intro z
    constructor
    · rintro ⟨comment, hcomment, hu⟩
      obtain ⟨r, hr, hr'⟩ := mem_filterMap.1 hcomment
      refine ⟨r, hr, comment, ?_, hu⟩
      unfold commentUrls at hr'
      revert hr'
      cases r.data <;> simp +contextual
    · rintro ⟨r, hr, urls, hd, hu⟩
      exact ⟨urls, mem_filterMap.2 ⟨r, hr, by simp [commentUrls, hd]⟩, hu⟩
  simp only [profileFiles, mem_filterMap]
  constructor
  · rintro ⟨c, ⟨z, hz, hc⟩, hq⟩
    cases hd : z.data with
    | claim id urls =>
      simp only [hd, Option.ite_none_right_eq_some, Option.some.injEq] at hc
      obtain ⟨rfl, rfl⟩ := hc
      exact ⟨z, hz, urls, hd, hq.imp_right (hcomments z).1⟩
    | _ => simp [hd] at hc
  · rintro ⟨z, hz, urls, hd, hq⟩
    exact ⟨_, ⟨z, hz, by rw [hd]; simp; rfl⟩, hq.imp_right (hcomments z).2⟩

/-- What is collected of a profile is what is collected of the rows that hang on it. -/
theorem mem_collectProfile_profileFiles {avatarUrl : Option String}
    (hp : p.data = .profile avatarUrl) (h : collectProfile s (profileFiles rows p) = .ok objects) :
    o ∈ objects.map (StoredObject.place s) ↔ o ∈ p.data.reads s ∨
      ∃ d ∈ rows, d.belongs rows p.id ∧ o ∈ d.data.reads s := by
  rw [mem_collectProfile h, exists_claims]
  constructor
  · rintro (⟨u, hu, ho⟩ | ⟨k, hk, ho⟩ | ⟨key, hkey, rfl⟩ | ⟨images, himages, k, hk, ho⟩ |
      ⟨z, hz, urls, hd, ⟨u, hu, ho⟩ | ⟨r, hr, urls', hd', u, hu, ho⟩⟩)
    · left
      rw [hp]
      simp only [profileFiles, hp] at hu
      exact mem_flatMap.2 ⟨u, Option.mem_toList.2 hu, ho⟩
    · obtain ⟨r, hr, hd | hd⟩ := mem_kyc.1 hk
      · exact .inr ⟨r, hr, by simp [Row.belongs, hd], by simpa [Data.reads, hd] using ho⟩
      · exact .inr ⟨r, hr, by simp [Row.belongs, hd], by simpa [Data.reads, hd] using ho⟩
    · obtain ⟨r, hr, u, b, hd⟩ := mem_files.1 hkey
      exact .inr ⟨r, hr, by simp [Row.belongs, hd], by simp [Data.reads, hd]⟩
    · obtain ⟨z, hz, hitem, r, hr, hd⟩ := mem_portfolio.1 ⟨images, himages, hk⟩
      refine .inr ⟨r, hr, ?_, by simpa [Data.reads, hd] using ho⟩
      simpa [Row.belongs, hd] using ⟨z, hz, rfl, hitem⟩
    · refine .inr ⟨z, hz, by simp [Row.belongs, hd], ?_⟩
      rw [hd]
      exact mem_flatMap.2 ⟨u, hu, ho⟩
    · refine .inr ⟨r, hr, ?_, ?_⟩
      · simpa [Row.belongs, hd'] using ⟨z, hz, rfl, urls, hd⟩
      · rw [hd']
        exact mem_flatMap.2 ⟨u, hu, ho⟩
  · rintro (ho | ⟨d, hd, hbelongs, ho⟩)
    · rw [hp] at ho
      obtain ⟨u, hu, ho⟩ := mem_flatMap.1 ho
      refine .inl ⟨u, ?_, ho⟩
      simp only [profileFiles, hp]
      exact Option.mem_toList.1 hu
    · unfold Row.belongs at hbelongs
      split at hbelongs
      · rename_i id key url hdata
        subst hbelongs
        rw [hdata] at ho
        exact .inr (.inl ⟨(key, url), mem_kyc.2 ⟨d, hd, .inl hdata⟩, ho⟩)
      · rename_i id key url hdata
        subst hbelongs
        rw [hdata] at ho
        exact .inr (.inl ⟨(key, url), mem_kyc.2 ⟨d, hd, .inr hdata⟩, ho⟩)
      · rename_i id urls hdata
        subst hbelongs
        rw [hdata] at ho
        obtain ⟨u, hu, ho⟩ := mem_flatMap.1 ho
        exact .inr (.inr (.inr (.inr ⟨d, hd, urls, hdata, .inl ⟨u, hu, ho⟩⟩)))
      · rename_i id u key b hdata
        subst hbelongs
        rw [hdata] at ho
        obtain rfl := mem_singleton.1 ho
        exact .inr (.inr (.inl ⟨key, mem_files.2 ⟨d, hd, u, b, hdata⟩, rfl⟩))
      · rename_i item key url hdata
        obtain ⟨z, hz, rfl, hitem⟩ := hbelongs
        rw [hdata] at ho
        obtain ⟨images, himages, hk⟩ := (mem_portfolio (k := (key, url))).2
          ⟨z, hz, hitem, d, hd, hdata⟩
        exact .inr (.inr (.inr (.inl ⟨images, himages, _, hk, ho⟩)))
      · rename_i claim urls hdata
        obtain ⟨z, hz, rfl, urls', hclaim⟩ := hbelongs
        rw [hdata] at ho
        obtain ⟨u, hu, ho⟩ := mem_flatMap.1 ho
        exact .inr (.inr (.inr (.inr ⟨z, hz, urls', hclaim, .inr ⟨d, hd, urls, hdata, u, hu, ho⟩⟩)))
      · exact hbelongs.elim

/-! ### The rows that fall -/

/-- The row hangs on an archived profile, or is one. -/
def Row.below (rows : List Row) (ids : List ℕ) (d : Row) : Prop :=
  d.isArchived .profile ids ∨ ∃ p ∈ rows, p.isArchived .profile ids ∧ d.belongs rows p.id

theorem hangs_of_archived (hp : p ∈ rows) (harchived : p.isArchived .profile ids) (hd : d ∈ rows)
    (hkey : ⟨.profile, p.id⟩ ∈ d.data.parents) : Leaves rows ids d := by
  have href : p.ref = ⟨.profile, p.id⟩ := congrArg (Ref.mk · p.id) (isArchived_table harchived)
  exact .hangs hd (.root hp harchived) (show p.ref ∈ d.data.parents from href ▸ hkey)

/-- What hangs on an archived profile falls. -/
theorem falls_of_below (hd : d ∈ rows) (h : d.below rows ids) : Leaves rows ids d := by
  rcases h with harchived | ⟨p, hp, harchived, hbelongs⟩
  · exact .root hd harchived
  · have hparent : ∀ z ∈ rows, ⟨.profile, p.id⟩ ∈ z.data.parents → Leaves rows ids z :=
      fun z hz hkey => hangs_of_archived hp harchived hz hkey
    unfold Row.belongs at hbelongs
    split at hbelongs
    · rename_i id key url hdata
      exact hparent d hd (by simp [hdata, hbelongs, Data.parents])
    · rename_i id key url hdata
      exact hparent d hd (by simp [hdata, hbelongs, Data.parents])
    · rename_i id urls hdata
      exact hparent d hd (by simp [hdata, hbelongs, Data.parents])
    · rename_i id u key b hdata
      exact hparent d hd (by simp [hdata, hbelongs, Data.parents])
    · rename_i item key url hdata
      obtain ⟨z, hz, rfl, hitem⟩ := hbelongs
      refine .hangs hd (hparent z hz (by simp [hitem, Data.parents])) ?_
      simp [schema, Row.ref, hitem, hdata, Data.table, Data.parents]
    · rename_i claim urls hdata
      obtain ⟨z, hz, rfl, urls', hclaim⟩ := hbelongs
      refine .hangs hd (hparent z hz (by simp [hclaim, Data.parents])) ?_
      simp [schema, Row.ref, hclaim, hdata, Data.table, Data.parents]
    · exact hbelongs.elim

/-- A profile that falls is archived. -/
theorem archived_of_fallen {id : ℕ} (h : Fallen rows .profile ids ⟨.profile, id⟩) :
    ∃ p ∈ rows, p.isArchived .profile ids ∧ p.id = id := by
  obtain ⟨p, hp, harchived, href⟩ := fallen_profile h
  exact ⟨p, hp, harchived, congrArg Ref.id href⟩

theorem not_purged_of_ne {q : Ref} (h : Purged rows .profile ids q) (hq : q.table ≠ .profile) :
    False := hq h.table

/-- What falls and is collected hangs on an archived profile. -/
theorem below_of_falls (h : Leaves rows ids d) (ho : o ∈ d.data.reads s) : d.below rows ids := by
  obtain ⟨-, harchived | ⟨q, hq, hkey⟩⟩ := Cascade.Schema.falls_cases.1 h
  · exact .inl harchived
  · have hfallen : ∀ {ref : Ref}, q.ref = ref → Fallen rows .profile ids ref := fun href =>
      ⟨q, hq, href⟩
    have hprofile : ∀ {id : ℕ}, q.ref = ⟨.profile, id⟩ → (∀ p ∈ rows, p.id = id →
        d.belongs rows p.id) → d.below rows ids := by
      intro id href hbelongs
      obtain ⟨p, hp, harchived, hid⟩ := archived_of_fallen (hfallen href)
      exact .inr ⟨p, hp, harchived, hbelongs p hp hid⟩
    replace hkey : q.ref ∈ d.data.parents := hkey
    cases hdata : d.data with
    | kycDocument | kycVerificationImage | claim =>
      rw [hdata] at hkey
      exact hprofile (mem_singleton.1 hkey) fun p _ hid => by simp [Row.belongs, hdata, hid]
    | file id u key b =>
      rw [hdata] at hkey
      rcases mem_append.1 hkey with hkey | hkey
      · obtain ⟨id, hid, href⟩ := mem_map.1 hkey
        obtain rfl := Option.mem_toList.1 hid
        exact hprofile href.symm fun p _ hid => by simp [Row.belongs, hdata, hid]
      · obtain ⟨u, -, href⟩ := mem_map.1 hkey
        exact (not_purged_of_ne (fallen_user (hfallen href.symm)) (by simp)).elim
    | portfolioImage item key url =>
      rw [hdata] at hkey
      obtain hpurged | ⟨z, hz, href, f, hf, hfallen'⟩ :=
        (hfallen (mem_singleton.1 hkey)).cases
      · exact (not_purged_of_ne hpurged (by simp)).elim
      · obtain ⟨zid, zdeleted, zdata⟩ := z
        cases zdata with
        | portfolioItem profileId =>
          obtain rfl : zid = item := congrArg Ref.id href
          obtain rfl := mem_singleton.1 hf
          obtain ⟨p, hp, harchived, rfl⟩ := archived_of_fallen hfallen'
          refine .inr ⟨p, hp, harchived, ?_⟩
          simpa [Row.belongs, hdata] using ⟨_, hz, rfl, rfl⟩
        | _ => cases href
    | claimComment claim urls =>
      rw [hdata] at hkey
      obtain hpurged | ⟨z, hz, href, f, hf, hfallen'⟩ :=
        (hfallen (mem_singleton.1 hkey)).cases
      · exact (not_purged_of_ne hpurged (by simp)).elim
      · obtain ⟨zid, zdeleted, zdata⟩ := z
        cases zdata with
        | claim profileId urls' =>
          obtain rfl : zid = claim := congrArg Ref.id href
          obtain rfl := mem_singleton.1 hf
          obtain ⟨p, hp, harchived, rfl⟩ := archived_of_fallen hfallen'
          refine .inr ⟨p, hp, harchived, ?_⟩
          simpa [Row.belongs, hdata] using ⟨_, hz, rfl, urls', rfl⟩
        | _ => cases href
    | profile avatarUrl =>
      rw [hdata] at hkey
      cases hkey
    | _ =>
      rw [hdata] at ho
      cases ho

/-! ### Each object once -/

theorem append_slash_inj {a a' k k' : List Char} (ha : '/' ∉ a) (ha' : '/' ∉ a')
    (h : a ++ '/' :: k = a' ++ '/' :: k') : a = a' ∧ k = k' := by
  have htake : ∀ {a k : List Char}, '/' ∉ a → (a ++ '/' :: k).takeWhile (· ≠ '/') = a := by
    intro a k ha
    rw [takeWhile_append_of_pos fun c hc => by
      simpa using fun heq : c = '/' => ha (heq ▸ hc)]
    simp
  have heq : a = a' := by rw [← htake (k := k) ha, ← htake (k := k') ha', h]
  subst heq
  exact ⟨rfl, (List.cons.inj (append_cancel_left h)).2⟩

/-- An object is told by its bucket and its key. -/
theorem StoredObject.id_injective : Function.Injective StoredObject.id := by
  rintro ⟨key, bucket⟩ ⟨key', bucket'⟩ h
  have hslash : ∀ b : Option Bucket, '/' ∉ (b.elim "" Bucket.name).toList := by
    rintro (- | b)
    · simp
    · exact b.slashless
  have hlist := congrArg String.toList h
  simp only [StoredObject.id, String.toList_append] at hlist
  obtain ⟨hbucket, hkey⟩ := append_slash_inj (hslash bucket) (hslash bucket') (by simpa using hlist)
  obtain rfl := String.toList_injective hkey
  have hname := String.toList_injective hbucket
  congr 1
  match bucket, bucket' with
  | none, none => rfl
  | none, some b => exact absurd hname.symm b.ne_empty
  | some b, none => exact absurd hname b.ne_empty
  | some ⟨name, _, _⟩, some ⟨name', _, _⟩ =>
    obtain rfl : name = name' := hname
    rfl

theorem mem_distinct {seen : List String} {z : StoredObject} :
    z ∈ distinct seen objects ↔ z ∈ objects ∧ z.id ∉ seen := by
  induction objects generalizing seen with
  | nil => simp [distinct]
  | cons a objects ih =>
    unfold distinct
    split
    · rename_i hseen
      rw [ih, mem_cons]
      refine ⟨fun h => ⟨.inr h.1, h.2⟩, fun h => ⟨h.1.resolve_left ?_, h.2⟩⟩
      rintro rfl
      exact h.2 hseen
    · rename_i hseen
      rw [mem_cons, ih, mem_cons, mem_cons]
      rcases eq_or_ne z a with rfl | hne
      · simp [hseen]
      · have hid : z.id ≠ a.id := fun h => hne (StoredObject.id_injective h)
        simp [hne, hid]

/-- What is collected is what is collected of the rows that fall. -/
theorem mem_collectObjects (h : collectObjects s (findProfileFiles rows ids) = .ok objects) :
    o ∈ objects.map (StoredObject.place s) ↔
      ∃ d ∈ rows, Leaves rows ids d ∧ o ∈ d.data.reads s := by
  obtain ⟨all, hall, hobjects⟩ : ∃ all,
      gather (collectProfile s) (findProfileFiles rows ids) = .ok all ∧
        distinct [] all = objects := by
    unfold collectObjects at h
    cases hg : gather (collectProfile s) (findProfileFiles rows ids) with
    | error e => simp [hg, Except.map] at h
    | ok all => exact ⟨all, rfl, by simpa [hg, Except.map] using h⟩
  have hsame : o ∈ objects.map (StoredObject.place s) ↔ o ∈ all.map (StoredObject.place s) := by
    simp only [← hobjects, mem_map, mem_distinct, not_mem_nil, not_false_eq_true, and_true]
  have hprofile : ∀ p ∈ rows, p.isArchived .profile ids →
      (o ∈ places s (collectProfile s (profileFiles rows p)) ↔
        o ∈ p.data.reads s ∨ ∃ d ∈ rows, d.belongs rows p.id ∧ o ∈ d.data.reads s) := by
    intro p hp harchived
    have hmem : profileFiles rows p ∈ findProfileFiles rows ids :=
      mem_map_of_mem (mem_filter.2 ⟨hp, harchived⟩)
    obtain ⟨out, hout⟩ := ok_of_mem hall hmem
    obtain ⟨avatarUrl, hdata⟩ : ∃ avatarUrl, p.data = .profile avatarUrl := by
      have htable := isArchived_table harchived
      cases hd : p.data with
      | profile avatarUrl => exact ⟨avatarUrl, rfl⟩
      | _ =>
        rw [hd] at htable
        cases htable
    rw [hout]
    exact mem_collectProfile_profileFiles hdata hout
  rw [hsame, mem_gather hall]
  constructor
  · rintro ⟨f, hf, ho⟩
    obtain ⟨p, hp, rfl⟩ := mem_map.1 hf
    obtain ⟨hp, harchived⟩ := mem_filter.1 hp
    rcases (hprofile p hp harchived).1 ho with ho | ⟨d, hd, hbelongs, ho⟩
    · exact ⟨p, hp, .root hp harchived, ho⟩
    · exact ⟨d, hd, falls_of_below hd (.inr ⟨p, hp, harchived, hbelongs⟩), ho⟩
  · rintro ⟨d, hd, hfalls, ho⟩
    rcases below_of_falls hfalls ho with harchived | ⟨p, hp, harchived, hbelongs⟩
    · exact ⟨_, mem_map_of_mem (mem_filter.2 ⟨hd, harchived⟩),
        (hprofile d hd harchived).2 (.inl ho)⟩
    · exact ⟨_, mem_map_of_mem (mem_filter.2 ⟨hp, harchived⟩),
        (hprofile p hp harchived).2 (.inr ⟨d, hd, hbelongs, ho⟩)⟩

end Rabotka.Archive
