import Rabotka.Invoices.Download

/-!
# The bytes of an invoice

The two sides never build the same document (`builtOn_ne`). So what is read depends on who asked
first, or first after the entry was lost (`same_bytes_iff`): each entry of the cache is a document
of its template as it is now, built on some side (`Kept`). A change of template never leaves an old
document in the cache.
-/

namespace Rabotka.Invoices

open Table List

variable {Bytes : Type}

/-! ### What a document contains -/

variable {s : Setting Bytes} {db : Db} {w w' : World Bytes}

/-- What a side writes for the type of the profile. -/
def typeOn : Side → ProfileType → String
  | .owner => profileTypeName
  | .admin => profileTypeLabels

/-- The document of an invoice as a side builds it from a template's file. -/
def builtOn (s : Setting Bytes) (db : Db) (side : Side) (invoiceId file : ℕ) : Option Bytes :=
  (findInvoice db invoiceId).map fun x =>
    s.fillDocumentTemplateAsPdf file (data s db x.1 x.2 (typeOn side x.2.profileType))

/-- The two sides never build the same document. -/
theorem builtOn_ne (hfill : ∀ file file' d d', s.fillDocumentTemplateAsPdf file d
      = s.fillDocumentTemplateAsPdf file' d' → file = file' ∧ d = d')
    {invoiceId file file' : ℕ} {b b' : Bytes} {side side' : Side} (hside : side ≠ side')
    (hb : builtOn s db side invoiceId file = some b)
    (hb' : builtOn s db side' invoiceId file' = some b') : b ≠ b' := by
  rintro rfl
  obtain ⟨x, hx, hfilled⟩ := Option.map_eq_some_iff.mp hb
  obtain ⟨y, hy, hfilled'⟩ := Option.map_eq_some_iff.mp hb'
  obtain rfl := Option.some.inj (hx.symm.trans hy)
  obtain ⟨-, hdata⟩ := hfill _ _ _ _ (hfilled.trans hfilled'.symm)
  simp only [data, append_assoc, append_cancel_left_eq] at hdata
  have htype := (Prod.mk.inj (List.cons.inj hdata).1).2
  revert htype hside
  cases side <;> cases side' <;> cases x.2.profileType <;>
    simp [typeOn, profileTypeName, profileTypeLabels]

/-- A reply is a document of the current template, built now or taken from the cache. -/
structure Answers (s : Setting Bytes) (db : Db) (w : World Bytes) (side : Side) (invoiceId : ℕ)
    (w' : World Bytes) (reply : Reply Bytes) : Prop where
  documents : w'.documents = w.documents
  exists_template : ∃ templateId document, template w.documents = some (templateId, document)
    ∧ (reply.built = true ∧ builtOn s db side invoiceId document.file = some reply.buffer
        ∧ w'.cache = Function.update w.cache invoiceId
          (Function.update (w.cache invoiceId) templateId (some reply.buffer))
      ∨ reply.built = false ∧ w.cache invoiceId templateId = some reply.buffer ∧ w'.cache = w.cache)

theorem answers_fromCacheOrBuilt {side : Side} {invoiceId : ℕ} {invoice : Invoice}
    {profile : Profile} {reply : Reply Bytes}
    (hfound : findInvoice db invoiceId = some (invoice, profile))
    (h : fromCacheOrBuilt s db w invoiceId invoice profile (typeOn side profile.profileType)
      = .ok (w', reply)) : Answers s db w side invoiceId w' reply := by
  rw [fromCacheOrBuilt] at h
  cases htemplate : template w.documents with
  | none =>
    rw [htemplate] at h
    exact nomatch h
  | some x =>
    rw [htemplate] at h
    dsimp only at h
    cases hcached : (w.cache invoiceId x.1).filter fun b => !s.isEmpty b with
    | none =>
      rw [hcached] at h
      obtain ⟨rfl, rfl⟩ := Prod.mk.inj (Except.ok.inj h)
      refine ⟨rfl, x.1, x.2, htemplate, Or.inl ⟨rfl, ?_, rfl⟩⟩
      rw [builtOn, hfound]
      rfl
    | some cached =>
      rw [hcached] at h
      obtain ⟨rfl, rfl⟩ := Prod.mk.inj (Except.ok.inj h)
      exact ⟨rfl, x.1, x.2, htemplate, Or.inr ⟨rfl, (Option.filter_eq_some_iff.mp hcached).1, rfl⟩⟩

/-- What a successful call of a run does. -/
theorem answers_step {e : Event} {x : Served Bytes} (h : (step s db w e).2 = some x) :
    Answers s db w x.side x.invoiceId (step s db w e).1 x.reply := by
  cases e with
  | download invoiceId requestingProfileId =>
    rw [step] at h ⊢
    cases hcall : download s db w invoiceId requestingProfileId with
    | error error =>
      rw [hcall] at h
      exact nomatch h
    | ok r =>
      rw [hcall] at h
      obtain rfl := Option.some.inj h
      rw [download] at hcall
      cases hfound : findInvoice db invoiceId with
      | none =>
        rw [hfound] at hcall
        exact nomatch hcall
      | some x =>
        rw [hfound] at hcall
        dsimp only at hcall
        split_ifs at hcall
        split at hcall
        · exact nomatch hcall
        · next w' reply hreply =>
          have hanswers := @answers_fromCacheOrBuilt _ s db w w' .owner invoiceId x.1 x.2 reply
            hfound hreply
          split_ifs at hcall <;> obtain rfl := Except.ok.inj hcall
          · exact ⟨hanswers.documents, hanswers.exists_template⟩
          · exact hanswers
  | downloadAsAdmin invoiceId =>
    rw [step] at h ⊢
    cases hcall : downloadAsAdmin s db w invoiceId with
    | error error =>
      rw [hcall] at h
      exact nomatch h
    | ok r =>
      rw [hcall] at h
      obtain rfl := Option.some.inj h
      rw [downloadAsAdmin] at hcall
      cases hfound : findInvoice db invoiceId with
      | none =>
        rw [hfound] at hcall
        exact nomatch hcall
      | some x =>
        rw [hfound] at hcall
        exact @answers_fromCacheOrBuilt _ s db w r.1 .admin invoiceId x.1 x.2 r.2 hfound hcall
  | evict | create | replaceFile | setCategory | delete => exact nomatch h

/-! ### What the cache holds -/

/-- The template is one of the documents. -/
theorem getElem?_of_template {documents : List (Option Document)} {templateId : ℕ}
    {document : Document} (h : template documents = some (templateId, document)) :
    documents[templateId]? = some (some document) := by
  have hnewest : ∀ (newer : Option (ℕ × Document) → ℕ × Document → Option (ℕ × Document)),
      (∀ best x r, newer best x = some r → best = some r ∨ x = r) →
      ∀ (l : List (ℕ × Document)) (best : Option (ℕ × Document)) (r : ℕ × Document),
        l.foldl newer best = some r → best = some r ∨ r ∈ l := by
    intro newer hnewer l
    induction l with
    | nil => exact fun best r hr => Or.inl hr
    | cons y l ih =>
      intro best r hr
      rcases ih _ r hr with hfirst | hmem
      · rcases hnewer best y r hfirst with hbest | rfl
        · exact Or.inl hbest
        · exact Or.inr mem_cons_self
      · exact Or.inr (mem_cons_of_mem _ hmem)
  have hfound := hnewest _ ?_ _ none _ h
  · rcases hfound with hnone | hmem
    · cases hnone
    obtain ⟨x, hx, hxd⟩ := mem_filterMap.mp hmem
    obtain ⟨hrow, -⟩ := mem_findMany.mp hx
    obtain ⟨d, hd, heq⟩ := Option.map_eq_some_iff.mp hxd
    obtain ⟨rfl, rfl⟩ := Prod.mk.inj heq
    rw [hrow, hd]
  · intro best x r hr
    cases best with
    | none => exact Or.inr (Option.some.inj hr)
    | some b =>
      dsimp only at hr
      split_ifs at hr
      · exact Or.inr (Option.some.inj hr)
      · exact Or.inl hr

/-- Every entry of the cache is a document of its template as it is now, built on some side by a
call that `told` knows of. -/
def Kept (s : Setting Bytes) (db : Db) (told : ℕ → Side → Prop) (w : World Bytes) : Prop :=
  ∀ invoiceId templateId b, w.cache invoiceId templateId = some b →
    ∃ document side, w.documents[templateId]? = some (some document) ∧ told invoiceId side
      ∧ builtOn s db side invoiceId document.file = some b

variable {told told' : ℕ → Side → Prop}

/-- The reply of a call is a document of the current template. -/
theorem Kept.reply (h : Kept s db told w) {e : Event} {x : Served Bytes}
    (hx : (step s db w e).2 = some x) :
    ∃ templateId document side, template w.documents = some (templateId, document)
      ∧ builtOn s db side x.invoiceId document.file = some x.reply.buffer
      ∧ (told x.invoiceId side ∨ x.reply.built = true ∧ side = x.side) := by
  obtain ⟨templateId, document, htemplate, hbuilt | hcached⟩ :=
    (answers_step hx).exists_template
  · exact ⟨templateId, document, x.side, htemplate, hbuilt.2.1, Or.inr ⟨hbuilt.1, rfl⟩⟩
  · obtain ⟨document', side, hrow, htold, hb⟩ := h _ _ _ hcached.2.1
    rw [getElem?_of_template htemplate] at hrow
    obtain rfl := Option.some.inj (Option.some.inj hrow)
    exact ⟨templateId, document, side, htemplate, hb, Or.inl htold⟩

/-- A template that changes takes its entries with it. -/
theorem Kept.invalidate (h : Kept s db told w) {templateId : ℕ}
    {f : Option Document → Option Document} :
    Kept s db told { w with
      documents := update w.documents templateId f
      cache := invalidatePdfCache w.cache templateId } := by
  intro i t b hb
  change Function.update (w.cache i) templateId none t = some b at hb
  rcases eq_or_ne t templateId with rfl | ht
  · rw [Function.update_self] at hb
    exact nomatch hb
  · rw [Function.update_of_ne ht] at hb
    obtain ⟨document, side, hrow, htold, hbuilt⟩ := h i t b hb
    refine ⟨document, side, ?_, htold, hbuilt⟩
    rw [getElem?_update, hrow, Option.map_some, if_neg ht.symm]

theorem update_update_eq_some {cache : ℕ → ℕ → Option Bytes} {i i' t t' : ℕ} {v : Option Bytes}
    {b : Bytes} (h : Function.update cache i (Function.update (cache i) t v) i' t' = some b) :
    (i' = i ∧ t' = t ∧ v = some b) ∨ cache i' t' = some b := by
  by_cases hi : i' = i
  · subst hi
    rw [Function.update_self] at h
    by_cases ht : t' = t
    · subst ht
      rw [Function.update_self] at h
      exact Or.inl ⟨rfl, rfl, h⟩
    · rw [Function.update_of_ne ht] at h
      exact Or.inr h
  · rw [Function.update_of_ne hi] at h
    exact Or.inr h

/-- A call that fails changes nothing. -/
theorem step_of_none {e : Event} (he : e.isCall = true) (h : (step s db w e).2 = none) :
    (step s db w e).1.documents = w.documents
      ∧ ∀ i t b, (step s db w e).1.cache i t = some b → w.cache i t = some b := by
  cases e with
  | download | downloadAsAdmin =>
    rw [step] at h ⊢
    split at h
    · exact ⟨rfl, fun _ _ _ hb => hb⟩
    · exact nomatch h
  | evict invoiceId templateId =>
    refine ⟨rfl, fun i t b hb => ?_⟩
    exact (update_update_eq_some hb).resolve_left fun h => nomatch h.2.2
  | create | replaceFile | setCategory | delete => exact nomatch he

/-- One event; the calls that build become known. -/
theorem Kept.step (h : Kept s db told w) {e : Event} (hle : ∀ i side, told i side → told' i side)
    (hbuilt : ∀ x, (Invoices.step s db w e).2 = some x → x.reply.built = true →
      told' x.invoiceId x.side) : Kept s db told' (Invoices.step s db w e).1 := by
  have hweaker : Kept s db told' w := fun i t b hb => by
    obtain ⟨document, side, hrow, htold, hb⟩ := h i t b hb
    exact ⟨document, side, hrow, hle i side htold, hb⟩
  cases hcall : e.isCall with
  | true =>
    cases hx : (Invoices.step s db w e).2 with
    | none =>
      obtain ⟨hdocuments, hcache⟩ := step_of_none hcall hx
      intro i t b hb
      rw [hdocuments]
      exact hweaker i t b (hcache i t b hb)
    | some x =>
      obtain ⟨hdocuments, templateId, document, htemplate, hnew | hold⟩ := answers_step hx
      · intro i t b hb
        rw [hnew.2.2] at hb
        rw [hdocuments]
        rcases update_update_eq_some hb with ⟨rfl, rfl, heq⟩ | hb
        · obtain rfl := Option.some.inj heq
          exact ⟨document, x.side, getElem?_of_template htemplate, hbuilt x hx hnew.1, hnew.2.1⟩
        · exact hweaker i t b hb
      · intro i t b hb
        rw [hold.2.2] at hb
        rw [hdocuments]
        exact hweaker i t b hb
  | false =>
    cases e with
    | create document =>
      intro i t b hb
      obtain ⟨document', side, hrow, htold, hb⟩ := hweaker i t b hb
      refine ⟨document', side, ?_, htold, hb⟩
      exact getElem?_append_left (List.getElem?_eq_some_iff.mp hrow).1 ▸ hrow
    | replaceFile | setCategory | delete => exact hweaker.invalidate
    | download | downloadAsAdmin | evict => exact nomatch hcall

/-! ### Runs -/

/-- Some side built the document of this invoice. -/
def BuiltBy (calls : List (Served Bytes)) (invoiceId : ℕ) (side : Side) : Prop :=
  ∃ x ∈ calls, x.invoiceId = invoiceId ∧ x.side = side ∧ x.reply.built = true

theorem kept_after (h : Kept s db told w) (events : List Event) :
    Kept s db (fun _ _ => True) (after s db w events) := by
  induction events generalizing w told with
  | nil =>
    intro i t b hb
    obtain ⟨document, side, hrow, -, hb⟩ := h i t b hb
    exact ⟨document, side, hrow, trivial, hb⟩
  | cons e events ih =>
    have hnext : Kept s db (fun _ _ => True) (step s db w e).1 :=
      h.step (fun _ _ _ => trivial) fun _ _ _ => trivial
    exact ih hnext

/-- A call that built its document built it on its own side. -/
theorem builtOn_of_mem_served {events : List Event} {x : Served Bytes}
    (hx : x ∈ served s db w events)
    (hbuilt : x.reply.built = true) :
    ∃ file, builtOn s db x.side x.invoiceId file = some x.reply.buffer := by
  induction events generalizing w with
  | nil => exact nomatch hx
  | cons e events ih =>
    rcases mem_append.mp hx with hx | hx
    · obtain ⟨templateId, document, -, hnew | hold⟩ :=
        (answers_step (Option.mem_toList.mp hx)).exists_template
      · exact ⟨document.file, hnew.2.1⟩
      · exact nomatch hbuilt.symm.trans hold.1
    · exact ih hx

/-- While the templates stay, every reply is the document of one template, as it was built by some
call. -/
theorem reply_of_mem_served {events : List Event} (hcalls : ∀ e ∈ events, e.isCall = true)
    {earlier : List (Served Bytes)} (h : Kept s db (BuiltBy earlier) w) :
    ∀ x ∈ served s db w events, ∃ templateId document side,
      template w.documents = some (templateId, document)
        ∧ builtOn s db side x.invoiceId document.file = some x.reply.buffer
        ∧ BuiltBy (earlier ++ served s db w events) x.invoiceId side := by
  induction events generalizing w earlier with
  | nil => exact fun x hx => nomatch hx
  | cons e events ih =>
    have hcall := hcalls e mem_cons_self
    have hnext : Kept s db (BuiltBy (earlier ++ (step s db w e).2.toList)) (step s db w e).1 := by
      refine h.step ?_ fun x hx hbuilt => ?_
      · rintro i side ⟨y, hy, hrest⟩
        exact ⟨y, mem_append_left _ hy, hrest⟩
      · exact ⟨x, mem_append_right _ (Option.mem_toList.mpr hx), rfl, rfl, hbuilt⟩
    have hdocuments : (step s db w e).1.documents = w.documents := by
      cases hx : (step s db w e).2 with
      | none => exact (step_of_none hcall hx).1
      | some x => exact (answers_step hx).documents
    intro x hx
    rw [served] at hx ⊢
    rcases mem_append.mp hx with hx | hx
    · obtain ⟨templateId, document, side, htemplate, hb, htold⟩ :=
        h.reply (Option.mem_toList.mp hx)
      refine ⟨templateId, document, side, htemplate, hb, ?_⟩
      rcases htold with ⟨y, hy, hrest⟩ | ⟨hbuilt, rfl⟩
      · exact ⟨y, mem_append_left _ hy, hrest⟩
      · exact ⟨x, mem_append_right _ (mem_append_left _ hx), rfl, rfl, hbuilt⟩
    · have hrest := ih (fun e he => hcalls e (mem_cons_of_mem _ he)) hnext x hx
      rw [hdocuments, append_assoc] at hrest
      exact hrest

/-- With a cache that starts empty, all calls for an invoice return the same bytes if and only if
its document was only ever built on one side; and after any changes of template, the next call returns a
document of the template as it is then. -/
theorem same_bytes_iff (hfill : ∀ file file' d d', s.fillDocumentTemplateAsPdf file d
      = s.fillDocumentTemplateAsPdf file' d' → file = file' ∧ d = d')
    (hcache : ∀ invoiceId templateId, w.cache invoiceId templateId = none) :
    (∀ events, (∀ e ∈ events, e.isCall = true) →
      (SameBytes (served s db w events) ↔ BuiltOnOneSide (served s db w events)))
    ∧ ∀ events e x, (step s db (after s db w events) e).2 = some x → ∃ templateId document side,
        template (after s db w events).documents = some (templateId, document)
          ∧ builtOn s db side x.invoiceId document.file = some x.reply.buffer := by
  have hkept : ∀ told, Kept s db told w := fun told i t b hb =>
    nomatch (hcache i t).symm.trans hb
  refine ⟨fun events hcalls => ⟨fun hsame x hx y hy hid hbuilt hbuilt' => ?_,
    fun hone x hx y hy hid => ?_⟩, fun events e x hx => ?_⟩
  · by_contra hside
    obtain ⟨file, hb⟩ := builtOn_of_mem_served hx hbuilt
    obtain ⟨file', hb'⟩ := builtOn_of_mem_served hy hbuilt'
    rw [← hid] at hb'
    exact builtOn_ne hfill hside hb hb' (hsame x hx y hy hid)
  · obtain ⟨t, document, side, htemplate, hb, x', hx', hxid, rfl, hxbuilt⟩ :=
      reply_of_mem_served hcalls (hkept (BuiltBy [])) x hx
    obtain ⟨t', document', side', htemplate', hb', y', hy', hyid, rfl, hybuilt⟩ :=
      reply_of_mem_served hcalls (hkept (BuiltBy [])) y hy
    rw [nil_append] at hx' hy'
    obtain ⟨rfl, rfl⟩ := Prod.mk.inj (Option.some.inj (htemplate.symm.trans htemplate'))
    rw [hone x' hx' y' hy' (hxid.trans (hid.trans hyid.symm)) hxbuilt hybuilt, hid, hb'] at hb
    exact (Option.some.inj hb).symm
  · obtain ⟨templateId, document, side, htemplate, hb, -⟩ :=
      (kept_after (hkept fun _ _ => True) events).reply hx
    exact ⟨templateId, document, side, htemplate, hb⟩

/-! ### One invoice -/

/-- Documents that show their template and their data. -/
def plain : Setting (ℕ × Data) where
  getFullYear _ := "2026"
  toLocaleDateString _ := "01/01/2026"
  toUpperCase := id
  fillDocumentTemplateAsPdf := Prod.mk
  isEmpty _ := false

theorem plain_injective : ∀ file file' d d', plain.fillDocumentTemplateAsPdf file d
    = plain.fillDocumentTemplateAsPdf file' d' → file = file' ∧ d = d' :=
  fun _ _ _ _ h => Prod.mk.inj h

/-- A worker with one invoice. -/
def oneInvoice : Db where
  profiles := [⟨"Ana", "Oko", none, "060000000", false, none, .worker⟩]
  payments := []
  attempts := []
  invoices := [⟨"0a1b2c3d-0", 0, 0, "100", .other, none, none, none, none⟩]

/-- One template, and nothing in the cache. -/
def oneTemplate : World (ℕ × Data) where
  documents := [some ⟨.invoice, 0, 5⟩]
  statuses := [.pendingDownload]
  cache _ _ := none

/-- The team reads what the owner was given, as long as the entry is there. -/
theorem admin_reads_owners_copy :
    SameBytes (served plain oneInvoice oneTemplate [.download 0 0, .downloadAsAdmin 0]) := by
  have hcalls : (served plain oneInvoice oneTemplate [.download 0 0, .downloadAsAdmin 0]).map
      (fun x => (x.side, x.reply.built)) = [(.owner, true), (.admin, false)] := rfl
  have howner : ∀ x ∈ served plain oneInvoice oneTemplate [.download 0 0, .downloadAsAdmin 0],
      x.reply.built = true → x.side = .owner := by
    intro x hx hbuilt
    have hmem := mem_map_of_mem (f := fun x => (x.side, x.reply.built)) hx
    rw [hcalls, hbuilt] at hmem
    simpa using hmem
  refine ((same_bytes_iff plain_injective fun _ _ => rfl).1 _ (by decide)).mpr ?_
  exact fun x hx y hy _ hbuilt hbuilt' => (howner x hx hbuilt).trans (howner y hy hbuilt').symm

/-- Once the entry is lost the team builds another document. -/
theorem admin_builds_another : (∀ file file' d d', plain.fillDocumentTemplateAsPdf file d
      = plain.fillDocumentTemplateAsPdf file' d' → file = file' ∧ d = d')
    ∧ ¬ SameBytes (served plain oneInvoice oneTemplate
      [.download 0 0, .evict 0 0, .downloadAsAdmin 0]) := by
  refine ⟨plain_injective, fun h => ?_⟩
  obtain ⟨x, y, hxy, hx, hy⟩ : ∃ x y, served plain oneInvoice oneTemplate
      [.download 0 0, .evict 0 0, .downloadAsAdmin 0] = [x, y]
      ∧ (x.invoiceId, x.reply.buffer.2[11]?) = (0, some ("PROFILE_TYPE", "WORKER"))
      ∧ (y.invoiceId, y.reply.buffer.2[11]?) = (0, some ("PROFILE_TYPE", "Travailleur")) :=
    ⟨_, _, rfl, rfl, rfl⟩
  have hsame := h x (by simp [hxy]) y (by simp [hxy])
    ((Prod.mk.inj hx).1.trans (Prod.mk.inj hy).1.symm)
  have htypes := (Prod.mk.inj hx).2
  rw [hsame, (Prod.mk.inj hy).2] at htypes
  exact absurd htypes (by decide)

end Rabotka.Invoices
