import Mathlib
import Rabotka.Storage.Keys

/-!
# Keys that survive their URL

A key comes back from its public URL unless it has a question mark: `encodeURI` leaves that as it
is, and `deriveKey` cuts the decoded text at the first one. It comes back from a signed URL that is
not under the public base if the bucket can be told: in a path, when the host's first label is no
known bucket, and in a host, when the name has no dot. A text whose escapes are broken makes the
decoders throw, where the code reads it at all.

`survives_iff` puts these together; each part is a lemma of its own.
-/

namespace Rabotka.Storage

open Lib.Percent Lib.Trim List

/-! ### Encoding and decoding -/

theorem isUnescaped_ascii {c : Char} (h : isUnescaped c = true) : c.toNat < 0x80 ∧ c ≠ '%' := by
  rw [isUnescaped, Bool.or_eq_true] at h
  rcases h with h | h
  · constructor
    · simp only [Char.isAlphanum, Char.isAlpha, Char.isUpper, Char.isLower, Char.isDigit,
        Bool.or_eq_true, Bool.and_eq_true, decide_eq_true_eq, UInt32.le_iff_toNat_le] at h
      rw [Char.toNat]
      rcases h with (⟨-, h⟩ | ⟨-, h⟩) | ⟨-, h⟩ <;> exact h.trans_lt (by decide)
    · rintro rfl
      cases h
  · have hall : ("-_.!~*'()".toList.all fun c => decide (c.toNat < 0x80 ∧ c ≠ '%')) = true := by
      decide +kernel
    exact of_decide_eq_true (all_eq_true.mp hall c (contains_iff_mem.mp h))

/-- The reserved characters are ASCII. -/
theorem ascii_of_mem_reserved {c : Char} (h : c ∈ uriReserved.toList) :
    c.toNat < 0x80 ∧ c ≠ '%' := by
  have hall : (uriReserved.toList.all fun c => decide (c.toNat < 0x80 ∧ c ≠ '%')) = true := by
    decide +kernel
  exact of_decide_eq_true (all_eq_true.mp hall c h)

theorem decodeURIComponent_encode (text : List Char) :
    decodeURIComponent (encodeURIComponent text) = some (utf16 text) :=
  decode_encode (fun _ => isUnescaped_ascii) (fun _ _ _ => rfl) text

theorem decodeURI_encode (text : List Char) : decodeURI (encodeURI text) = some (utf16 text) := by
  refine decode_encode (fun c h => ?_) (fun c hlt h => ?_) text
  · rcases Bool.or_eq_true .. ▸ h with h | h
    · exact isUnescaped_ascii h
    · exact ascii_of_mem_reserved (contains_iff_mem.mp h)
  · -- A unit that stays escaped is one of the reserved characters, which are not escaped.
    by_contra hkept
    rw [Bool.not_eq_false, contains_iff_mem, units, mem_map] at hkept
    obtain ⟨r, hr, hunit⟩ := hkept
    have hrlt := (ascii_of_mem_reserved hr).1
    have hnat : r.toNat = c.toNat := by
      have htoNat := congrArg UInt16.toNat hunit
      rw [Nat.toUInt16_eq, Nat.toUInt16_eq, UInt16.toNat_ofNat', UInt16.toNat_ofNat'] at htoNat
      omega
    rw [← Char.toNat_inj.mp hnat, Bool.or_eq_false_iff] at h
    rw [contains_iff_mem.mpr hr] at h
    exact nomatch h.2

/-- An ASCII character is in a text as its unit. -/
theorem mem_utf16_iff {x : UInt16} {c : Char} (hx : x.toNat < 0x80) (hc : c.toNat = x.toNat)
    (text : List Char) : x ∈ utf16 text ↔ c ∈ text := by
  rw [utf16, mem_flatMap]
  constructor
  · rintro ⟨d, hd, hmem⟩
    have hnat := (mem_utf16Char_iff hx d).mp hmem
    rwa [← Char.toNat_inj.mp (hnat.trans hc.symm)]
  · exact fun h => ⟨c, h, (mem_utf16Char_iff hx c).mpr hc⟩

theorem utf16_ne_nil {text : List Char} (h : text ≠ []) : utf16 text ≠ [] := by
  obtain ⟨c, rest, rfl⟩ := exists_cons_of_ne_nil h
  rw [utf16_cons]
  exact append_ne_nil_of_left_ne_nil (utf16Char_ne_nil c) _

/-- The units of a joined text. -/
theorem utf16_intercalate {x : UInt16} {c : Char} (h : utf16Char c = [x])
    (texts : List (List Char)) :
    utf16 ([c].intercalate texts) = [x].intercalate (texts.map utf16) := by
  induction texts with
  | nil => rfl
  | cons t texts ih =>
    rcases texts with _ | ⟨t', texts⟩
    · simp
    · rw [intercalate_cons_cons, utf16_append, utf16_append, ih, utf16_cons, h, utf16_nil,
        append_nil, map_cons (l := t' :: texts), map_cons,
        intercalate_cons_cons]

/-- What is in a joined text. -/
theorem mem_of_mem_intercalate {α : Type*} {sep x : α} {ls : List (List α)}
    (h : x ∈ [sep].intercalate ls) : x = sep ∨ ∃ l ∈ ls, x ∈ l := by
  induction ls with
  | nil => exact nomatch h
  | cons l ls ih =>
    rcases ls with _ | ⟨l', ls⟩
    · rw [intercalate_singleton] at h
      exact Or.inr ⟨l, mem_cons_self, h⟩
    · rw [intercalate_cons_cons, append_assoc, mem_append, mem_append] at h
      rcases h with h | h | h
      · exact Or.inr ⟨l, mem_cons_self, h⟩
      · exact Or.inl (mem_singleton.mp h)
      · exact (ih h).imp_right fun ⟨m, hm, hx⟩ => ⟨m, mem_cons_of_mem _ hm, hx⟩

/-! ### Segments of a path -/

theorem slash_not_mem_encode (text : List Char) : slash ∉ encodeURIComponent text := by
  intro h
  obtain ⟨c, -, h⟩ := mem_flatMap.mp h
  rw [encodeChar] at h
  split_ifs at h with hc
  · have hnat := (mem_utf16Char_iff (by decide) c).mp h
    have hslash : c = '/' := Char.toNat_inj.mp hnat
    rw [hslash] at hc
    exact absurd hc (by decide)
  · obtain ⟨b, hb, h⟩ := mem_flatMap.mp h
    have hhex : ∀ n : Fin 16, slash ≠ hexDigit n := by decide
    have hlt := utf8_lt b hb
    rcases mem_cons.mp h with h | h
    · exact absurd h (by decide)
    · rcases mem_cons.mp h with h | h
      · exact hhex ⟨b / 16, by omega⟩ h
      · exact hhex ⟨b % 16, by omega⟩ (mem_singleton.mp h)

theorem encodeURIComponent_ne_nil {text : List Char} (h : text ≠ []) :
    encodeURIComponent text ≠ [] := by
  intro hnil
  have hdecode := decodeURIComponent_encode text
  rw [hnil] at hdecode
  exact utf16_ne_nil h (Option.some.inj hdecode).symm

/-- A path is split into its encoded segments. -/
theorem splitOn_path {e : Units} (he : slash ∉ e) (segments : List (List Char)) :
    (e ++ path segments).splitOn slash = e :: segments.map encodeURIComponent := by
  induction segments generalizing e with
  | nil =>
    rw [path, flatMap_nil, append_nil]
    exact splitOn_eq_singleton he
  | cons s segments ih =>
    rw [path, flatMap_cons, cons_append, splitOn_append_cons_self_of_not_mem he]
    exact congrArg (e :: ·) (ih (slash_not_mem_encode s))

theorem segmentsOf_path {segments : List (List Char)} (h : ∀ s ∈ segments, s ≠ []) :
    segmentsOf (path segments) = segments.map encodeURIComponent := by
  have hsplit := splitOn_path (not_mem_nil (a := slash)) segments
  rw [nil_append] at hsplit
  rw [segmentsOf, hsplit, filter_cons_of_neg (by simp), filter_eq_self]
  intro e he
  obtain ⟨s, hs, rfl⟩ := mem_map.mp he
  exact decide_eq_true (encodeURIComponent_ne_nil (h s hs))

theorem decodeSegments_encode (segments : List (List Char)) :
    decodeSegments (segments.map encodeURIComponent) = some (segments.map utf16) := by
  induction segments with
  | nil => rfl
  | cons s segments ih =>
    rw [map_cons, decodeSegments, decodeURIComponent_encode, ih]
    rfl

/-- Segments can be decoded exactly if each of them is well escaped. -/
theorem isSome_decodeSegments_iff {segments : List Units} :
    (decodeSegments segments).isSome = true ↔ ∀ s ∈ segments, WellEscaped s := by
  induction segments with
  | nil => simp [decodeSegments]
  | cons s segments ih =>
    rw [forall_mem_cons, ← ih, ← @isSome_decode_iff fun _ => false]
    change _ ↔ (decodeURIComponent s).isSome = true ∧ _
    rw [decodeSegments]
    cases decodeURIComponent s <;> cases decodeSegments segments <;> simp

/-! ### Names -/

theorem utf16Char_dot : utf16Char '.' = [dot] := by decide

theorem utf16Char_slash : utf16Char '/' = [slash] := by decide

/-- The units of a name in lower case are their own lower case. -/
theorem toLowerCase_text (name : DottedName) : toLowerCase (utf16 name.text) = utf16 name.text := by
  have hlower : ∀ x ∈ utf16 name.text, (if 65 ≤ x ∧ x ≤ 90 then x + 32 else x) = x := by
    intro x hx
    refine if_neg fun hupper => ?_
    rw [UInt16.le_iff_toNat_le, UInt16.le_iff_toNat_le] at hupper
    have h₆₅ : (65 : UInt16).toNat = 65 := rfl
    have h₉₀ : (90 : UInt16).toNat = 90 := rfl
    obtain ⟨c, hc, hmem⟩ := mem_flatMap.mp hx
    have hnat := (mem_utf16Char_iff (by omega) c).mp hmem
    -- The character is a dot or in a label, and neither is in upper case.
    have hcase : c.isUpper = false := by
      rcases mem_of_mem_intercalate hc with rfl | ⟨l, hl, hc⟩
      · rfl
      · exact ((name.plain l hl).2 c hc).2.1
    refine absurd hcase (Bool.not_eq_false _ ▸ ?_)
    have htoNat : c.toNat = c.val.toNat := rfl
    simp only [Char.isUpper, decide_eq_true_eq, ge_iff_le, UInt32.le_iff_toNat_le]
    exact ⟨by change 65 ≤ _; omega, by change _ ≤ 90; omega⟩
  rw [toLowerCase, map_congr_left hlower, map_id']

/-- The first label of a name. -/
theorem firstLabelOf_text (name : DottedName) :
    firstLabelOf (utf16 name.text) = utf16 (name.labels.headD []) := by
  have hdot : ∀ l ∈ name.labels.map utf16, dot ∉ l := by
    intro l hl hmem
    obtain ⟨label, hlabel, rfl⟩ := mem_map.mp hl
    have hc := (mem_utf16_iff (c := '.') (by decide) (by decide) label).mp hmem
    exact ((name.plain label hlabel).2 '.' hc).2.2 rfl
  have hne : name.labels.map utf16 ≠ [] := by simpa using name.nonempty
  rw [firstLabelOf, toLowerCase_text, DottedName.text, utf16_intercalate utf16Char_dot,
    splitOn_intercalate dot hdot hne]
  cases name.labels <;> rfl

/-- The key of joined segments. -/
theorem intercalate_segments (key : ObjectKey) :
    [slash].intercalate (key.segments.map utf16) = utf16 key.text := by
  rw [← utf16_intercalate utf16Char_slash, ObjectKey.segments, intercalate_splitOn]

/-! ### Public URLs -/

theorem head_splitOn_eq_iff {text : Units} :
    (text.splitOn question).headD [] = text ↔ question ∉ text := by
  constructor
  · intro h hmem
    obtain ⟨before, after, rfl, hnew⟩ := eq_append_cons_of_mem hmem
    rw [splitOn_append_cons_self_of_not_mem hnew] at h
    simpa using congrArg List.length h
  · intro h
    rw [splitOn_eq_singleton h]
    rfl

theorem isUnder_iff {base url : Units} :
    isUnder base url = true ↔ base ≠ [] ∧ base ++ [slash] <+: url := by
  simp [isUnder]

variable {parse : UrlParser} {value : Units} {buckets : List Units} {host bucket : DottedName}
  {query url : Units} {key : ObjectKey}

/-- The base of public URLs. -/
def publicBase (value : Units) : Units := stripSlashes (setting value)

/-- Under the public base, the key is what the rest of the text decodes to. -/
theorem deriveKey_under (hunder : isUnder (publicBase value) url = true) :
    deriveKey parse url (setting value) buckets
      = (decodeURI (url.drop ((publicBase value).length + 1))).elim (.error {}) fun text =>
        .ok (if (text.splitOn question).headD [] = [] then none
          else some ⟨(text.splitOn question).headD [], none⟩) := by
  rw [deriveKey]
  change (if isUnder (publicBase value) url = true then _ else _) = _
  rw [if_pos hunder]
  split
  · rename_i hdecode
    rw [show decodeURI (url.drop ((publicBase value).length + 1)) = none from hdecode]
    rfl
  · rename_i text hdecode
    rw [show decodeURI (url.drop ((publicBase value).length + 1)) = some text from hdecode]
    rfl

/-- A key comes back from its public URL if and only if it has no question mark. -/
theorem public_iff : (∀ u, getPublicUrl value key.text = some u →
        deriveKey parse u (setting value) buckets = .ok (some ⟨utf16 key.text, none⟩))
      ↔ (publicBase value ≠ [] → '?' ∉ key.text) := by
  rw [getPublicUrl]
  change (∀ u, (if publicBase value = [] then none
    else some (publicBase value ++ slash :: encodeURI key.text)) = some u → _) ↔ _
  by_cases hbase : publicBase value = []
  · rw [if_pos hbase]
    exact iff_of_true (fun u h => by cases h) fun h => absurd hbase h
  · rw [if_neg hbase]
    have hunder : isUnder (publicBase value) (publicBase value ++ slash :: encodeURI key.text)
        = true := isUnder_iff.mpr ⟨hbase, by simp⟩
    have hdrop : (publicBase value ++ slash :: encodeURI key.text).drop
        ((publicBase value).length + 1) = encodeURI key.text := by
      rw [← drop_drop, drop_left]
      rfl
    have hderive : deriveKey parse (publicBase value ++ slash :: encodeURI key.text)
        (setting value) buckets
          = .ok (if ((utf16 key.text).splitOn question).headD [] = [] then none
            else some ⟨((utf16 key.text).splitOn question).headD [], none⟩) := by
      rw [deriveKey_under hunder, hdrop, decodeURI_encode]
      rfl
    have hquestion : question ∈ utf16 key.text ↔ '?' ∈ key.text :=
      mem_utf16_iff (by decide) (by decide) key.text
    rw [← hquestion, ← head_splitOn_eq_iff]
    constructor
    · intro h _
      have hkey := h _ rfl
      rw [hderive] at hkey
      split_ifs at hkey
      · exact absurd (Except.ok.inj hkey) (by simp)
      · exact congrArg DerivedKey.key (Option.some.inj (Except.ok.inj hkey))
    · rintro h u hu
      have hne : key.text ≠ [] := by
        intro hnil
        have hplain := key.plain [] (by rw [hnil]; simp)
        exact hplain.1 rfl
      rw [← Option.some.inj hu, hderive, h hbase, if_neg (utf16_ne_nil hne)]

/-! ### Signed URLs -/

/-- A URL under the public base never names a bucket. -/
theorem bucket_of_under (hunder : isUnder (publicBase value) url = true) {d : DerivedKey}
    (h : deriveKey parse url (setting value) buckets = .ok (some d)) : d.bucket = none := by
  rw [deriveKey] at h
  change (if isUnder (publicBase value) url = true then _ else _) = _ at h
  rw [if_pos hunder] at h
  split at h
  · exact nomatch h
  · dsimp only at h
    split_ifs at h
    · exact absurd (Except.ok.inj h) nofun
    · rw [← Option.some.inj (Except.ok.inj h)]

/-- A signed URL that is not under the public base is read by its host and its segments. -/
theorem deriveKey_signed {segments : List (List Char)}
    (hread : ReadsSigned parse host segments query) (hne : ∀ s ∈ segments, s ≠ [])
    (hunder : ¬ isUnder (publicBase value) (signedUrl host segments query) = true) :
    deriveKey parse (signedUrl host segments query) (setting value) buckets
      = .ok (readSegments (knownBuckets buckets) (utf16 (host.labels.headD []))
        (segments.map utf16)) := by
  rw [deriveKey]
  change (if isUnder (publicBase value) _ = true then _ else _) = _
  rw [if_neg hunder, hread]
  dsimp only
  rw [if_pos rfl, segmentsOf_path hne, decodeSegments_encode, firstLabelOf_text]

theorem text_ne_nil (name : DottedName) : name.text ≠ [] := by
  obtain ⟨l, ls, hls⟩ := exists_cons_of_ne_nil name.nonempty
  have hl : l ≠ [] := (name.plain l (by rw [hls]; exact mem_cons_self)).1
  rw [DottedName.text, hls]
  rcases ls with _ | ⟨l', ls⟩
  · rwa [intercalate_singleton]
  · rw [intercalate_cons_cons, append_assoc]
    exact append_ne_nil_of_left_ne_nil hl _

theorem segments_ne_nil (key : ObjectKey) : ∀ s ∈ key.segments, s ≠ [] :=
  fun s hs => (key.plain s hs).1

/-- Joined segments are longer than what follows the first one. -/
theorem length_intercalate_lt {α : Type*} (sep : α) (first : List α) {rest : List (List α)}
    (h : rest ≠ []) :
    ([sep].intercalate rest).length < ([sep].intercalate (first :: rest)).length := by
  rw [intercalate_cons_of_ne_nil h]
  simp only [length_append, length_cons, length_nil]
  omega

/-- A key comes back from its path-style URL if and only if that is not under the public base and
its host does not begin with a bucket. -/
theorem pathStyle_iff (hknown : utf16 bucket.text ∈ knownBuckets buckets)
    (hread : ReadsSigned parse host (bucket.text :: key.segments) query) :
    deriveKey parse (pathStyleUrl host bucket query key) (setting value) buckets
        = .ok (some ⟨utf16 key.text, some (utf16 bucket.text)⟩)
      ↔ ¬ isUnder (publicBase value) (pathStyleUrl host bucket query key) = true
        ∧ utf16 (host.labels.headD []) ∉ knownBuckets buckets := by
  by_cases hunder : isUnder (publicBase value) (pathStyleUrl host bucket query key) = true
  · refine iff_of_false (fun h => ?_) fun h => h.1 hunder
    exact nomatch bucket_of_under hunder h
  · have hne : ∀ s ∈ bucket.text :: key.segments, s ≠ [] :=
      forall_mem_cons.mpr ⟨text_ne_nil bucket, segments_ne_nil key⟩
    have hsegments : key.segments.map utf16 ≠ [] := by
      simp [ObjectKey.segments]
    rw [and_iff_right hunder, pathStyleUrl, deriveKey_signed hread hne hunder, map_cons,
      readSegments]
    by_cases hhost : utf16 (host.labels.headD []) ∈ knownBuckets buckets
    · rw [if_pos hhost]
      refine iff_of_false (fun h => ?_) fun h => h hhost
      -- The bucket would be the first folder of the key.
      have hkey := congrArg DerivedKey.key (Option.some.inj (Except.ok.inj h))
      have hlength := length_intercalate_lt slash (utf16 bucket.text) hsegments
      rw [intercalate_segments] at hlength
      exact absurd (congrArg List.length hkey) hlength.ne'
    · rw [if_neg hhost, if_pos hknown, if_neg hsegments, intercalate_segments]
      exact iff_of_true rfl hhost

/-- A key comes back from its virtual-hosted URL if and only if that is not under the public base
and the name of the bucket is a single label. -/
theorem virtualHosted_iff (hknown : utf16 bucket.text ∈ knownBuckets buckets)
    (hread : ReadsSigned parse (bucket.onHost host) key.segments query) :
    deriveKey parse (virtualHostedUrl host bucket query key) (setting value) buckets
        = .ok (some ⟨utf16 key.text, some (utf16 bucket.text)⟩)
      ↔ ¬ isUnder (publicBase value) (virtualHostedUrl host bucket query key) = true
        ∧ bucket.labels.length = 1 := by
  by_cases hunder : isUnder (publicBase value) (virtualHostedUrl host bucket query key) = true
  · refine iff_of_false (fun h => ?_) fun h => h.1 hunder
    exact nomatch bucket_of_under hunder h
  · obtain ⟨first, rest, hsegments⟩ := exists_cons_of_ne_nil (l := key.segments.map utf16) (by
        simpa [ObjectKey.segments] using splitOn_ne_nil '/' key.text)
    obtain ⟨label, labels, hlabels⟩ := exists_cons_of_ne_nil bucket.nonempty
    have hjoined := intercalate_segments key
    have hhead : (bucket.onHost host).labels.headD [] = label := by
      change (bucket.labels ++ host.labels).headD [] = label
      rw [hlabels]
      rfl
    rw [and_iff_right hunder, virtualHostedUrl,
      deriveKey_signed hread (segments_ne_nil key) hunder, hhead, hsegments, readSegments]
    rw [hsegments] at hjoined
    rcases labels with _ | ⟨label', labels⟩
    · have htext : bucket.text = label := by
        rw [DottedName.text, hlabels, intercalate_singleton]
      rw [htext] at hknown
      rw [if_pos hknown, hjoined, htext]
      exact iff_of_true rfl (by rw [hlabels]; rfl)
    · refine iff_of_false (fun h => ?_) (by rw [hlabels]; simp)
      have hlonger : (utf16 label).length < (utf16 bucket.text).length := by
        rw [DottedName.text, hlabels, utf16_intercalate utf16Char_dot, map_cons, map_cons,
          intercalate_cons_cons]
        simp only [length_append, length_cons, length_nil]
        omega
      replace h := Except.ok.inj h
      split_ifs at h with hlabel hfirst hrest
      · -- The bucket is taken for its first label.
        have hbucket := congrArg DerivedKey.bucket (Option.some.inj h)
        exact absurd (congrArg List.length (Option.some.inj hbucket)) hlonger.ne
      · -- The first folder of the key is taken for the bucket.
        have hkey := congrArg DerivedKey.key (Option.some.inj h)
        have hlength := length_intercalate_lt slash first hrest
        rw [hjoined] at hlength
        exact absurd (congrArg List.length hkey) hlength.ne
      · exact nomatch congrArg DerivedKey.bucket (Option.some.inj h)

/-! ### Any text -/

/-- Where a text is decoded, its escapes are in order: all that follows the public base, or every
segment of the path of a signed URL. -/
def EscapedWhereRead (parse : UrlParser) (value url : Units) : Prop :=
  if isUnder (publicBase value) url = true then
    WellEscaped (url.drop ((publicBase value).length + 1))
  else ∀ parsed, parse url = some parsed → parsed.hasSignature = true →
    ∀ s ∈ segmentsOf parsed.pathname, WellEscaped s

theorem total_iff : (∃ r, deriveKey parse url (setting value) buckets = .ok r)
      ↔ EscapedWhereRead parse value url := by
  by_cases hunder : isUnder (publicBase value) url = true
  · rw [EscapedWhereRead, if_pos hunder, deriveKey_under hunder,
      ← @isSome_decode_iff fun x => (units uriReserved).contains x]
    change _ ↔ (decodeURI _).isSome = true
    cases decodeURI (url.drop ((publicBase value).length + 1)) with
    | none => exact iff_of_false (by simp) (by simp)
    | some text => exact iff_of_true ⟨_, rfl⟩ rfl
  · rw [deriveKey, EscapedWhereRead, if_neg hunder]
    change (∃ r, (if isUnder (publicBase value) url = true then _ else _) = _) ↔ _
    rw [if_neg hunder]
    cases hparse : parse url with
    | none => exact iff_of_true ⟨_, rfl⟩ (by simp)
    | some parsed =>
      dsimp only
      by_cases hsigned : parsed.hasSignature = true
      · rw [if_pos hsigned]
        have hsegments : (∀ p, some parsed = some p → p.hasSignature = true →
            ∀ s ∈ segmentsOf p.pathname, WellEscaped s)
            ↔ (decodeSegments (segmentsOf parsed.pathname)).isSome = true := by
          rw [isSome_decodeSegments_iff]
          exact ⟨fun h => h parsed rfl hsigned, fun h p hp _ => Option.some.inj hp ▸ h⟩
        rw [hsegments]
        cases decodeSegments (segmentsOf parsed.pathname) with
        | none => exact iff_of_false (by simp) (by simp)
        | some segments => exact iff_of_true ⟨_, rfl⟩ rfl
      · rw [if_neg hsigned]
        exact iff_of_true ⟨_, rfl⟩ fun p hp h => absurd (Option.some.inj hp ▸ h) hsigned

/-- An unsigned URL that is not under the public base has no key. -/
theorem deriveKey_unsigned (hunder : ¬ isUnder (publicBase value) url = true)
    (hsigned : ∀ parsed, parse url = some parsed → parsed.hasSignature = false) :
    deriveKey parse url (setting value) buckets = .ok none := by
  rw [deriveKey]
  change (if isUnder (publicBase value) url = true then _ else _) = _
  rw [if_neg hunder]
  cases hparse : parse url with
  | none => rfl
  | some parsed =>
    dsimp only
    rw [hsigned parsed hparse]
    rfl

/-! ### The whole -/

/-- A key survives its URLs: it comes back from the public one and from both signed ones, with the
bucket that they name; and a text is read without an error, an unsigned URL from elsewhere to no
key. -/
structure Survives (parse : UrlParser) (value : Units) (buckets : List Units)
    (host bucket : DottedName) (query : Units) (key : ObjectKey) (url : Units) : Prop where
  «public» : ∀ u, getPublicUrl value key.text = some u →
    deriveKey parse u (setting value) buckets = .ok (some ⟨utf16 key.text, none⟩)
  pathStyle : deriveKey parse (pathStyleUrl host bucket query key) (setting value) buckets
    = .ok (some ⟨utf16 key.text, some (utf16 bucket.text)⟩)
  virtualHosted : deriveKey parse (virtualHostedUrl host bucket query key) (setting value) buckets
    = .ok (some ⟨utf16 key.text, some (utf16 bucket.text)⟩)
  total : ∃ r, deriveKey parse url (setting value) buckets = .ok r
  unsigned : ¬ isUnder (publicBase value) url = true →
    (∀ parsed, parse url = some parsed → parsed.hasSignature = false) →
      deriveKey parse url (setting value) buckets = .ok none

/-- When it does. -/
structure Recoverable (parse : UrlParser) (value : Units) (buckets : List Units)
    (host bucket : DottedName) (query : Units) (key : ObjectKey) (url : Units) : Prop where
  noQuestion : publicBase value ≠ [] → '?' ∉ key.text
  pathElsewhere : ¬ isUnder (publicBase value) (pathStyleUrl host bucket query key) = true
  hostElsewhere : ¬ isUnder (publicBase value) (virtualHostedUrl host bucket query key) = true
  account : utf16 (host.labels.headD []) ∉ knownBuckets buckets
  undotted : bucket.labels.length = 1
  escaped : EscapedWhereRead parse value url

/-- **A key survives the trip through its URLs** if and only if it has no question mark, the signed
URLs are not under the public base, their host does not begin with a bucket, the bucket's name has
no dot, and what is decoded is well escaped. -/
theorem survives_iff (parse : UrlParser) (value : Units) (buckets : List Units)
    (host bucket : DottedName) (query : Units) (key : ObjectKey) (url : Units)
    (hknown : utf16 bucket.text ∈ knownBuckets buckets)
    (hpath : ReadsSigned parse host (bucket.text :: key.segments) query)
    (hhost : ReadsSigned parse (bucket.onHost host) key.segments query) :
    Survives parse value buckets host bucket query key url
      ↔ Recoverable parse value buckets host bucket query key url := by
  constructor
  · intro h
    obtain ⟨hpathElsewhere, haccount⟩ := (pathStyle_iff hknown hpath).mp h.pathStyle
    obtain ⟨hhostElsewhere, hundotted⟩ := (virtualHosted_iff hknown hhost).mp h.virtualHosted
    exact ⟨public_iff.mp h.public, hpathElsewhere, hhostElsewhere, haccount, hundotted,
      total_iff.mp h.total⟩
  · intro h
    exact ⟨public_iff.mpr h.noQuestion,
      (pathStyle_iff hknown hpath).mpr ⟨h.pathElsewhere, h.account⟩,
      (virtualHosted_iff hknown hhost).mpr ⟨h.hostElsewhere, h.undotted⟩,
      total_iff.mpr h.escaped, deriveKey_unsigned⟩

/-! ### Two keys -/

/-- A parser that cuts a URL at its slashes and its question mark. -/
def cuttingParser : UrlParser := fun url =>
  let rest := url.drop 8
  let (hostname, rest) := rest.span (· != slash)
  let (pathname, query) := rest.span (· != question)
  some ⟨hostname, pathname, (units "?X-Amz-Signature=").isPrefixOf query⟩

/-- Labels that are checked one character after the other. -/
theorem plain_of_all {labels : List (List Char)} (h : (labels.all fun l => !l.isEmpty &&
      l.all fun c => decide (c.toNat < 0x80 ∧ c.isUpper = false ∧ c ≠ '.')) = true) :
    ∀ l ∈ labels, l ≠ [] ∧ ∀ c ∈ l, c.toNat < 0x80 ∧ c.isUpper = false ∧ c ≠ '.' := by
  intro l hl
  obtain ⟨hne, hall⟩ := Bool.and_eq_true_iff.mp (all_eq_true.mp h l hl)
  exact ⟨by simpa using hne, fun c hc => of_decide_eq_true (all_eq_true.mp hall c hc)⟩

def accountHost : DottedName :=
  ⟨["acct".toList, "com".toList], cons_ne_nil _ _, plain_of_all (by decide +kernel)⟩

def kycBucket : DottedName :=
  ⟨["kyc".toList], cons_ne_nil _ _, plain_of_all (by decide +kernel)⟩

def signature : Units := units "X-Amz-Signature=1"

def siteBase : Units := units "https://files.cg/"

/-- A key with a space and a percent sign. -/
def plainKey : ObjectKey := ⟨"a/1 %.jpg".toList, by decide +kernel⟩

/-- A key with a question mark. -/
def questionKey : ObjectKey := ⟨"a/b?.jpg".toList, by decide +kernel⟩

/-- The key with a question mark comes back cut. -/
theorem question_cuts_key :
    ¬ ∀ (parse : UrlParser) (value : Units) (buckets : List Units) (host bucket : DottedName)
      (query : Units) (key : ObjectKey) (url : Units),
      utf16 bucket.text ∈ knownBuckets buckets →
      ReadsSigned parse host (bucket.text :: key.segments) query →
      ReadsSigned parse (bucket.onHost host) key.segments query →
        Survives parse value buckets host bucket query key url := by
  intro h
  have hsurvives := h cuttingParser siteBase [units "kyc"] accountHost kycBucket signature
    questionKey [] (by decide +kernel) (by decide +kernel) (by decide +kernel)
  have hpublic := hsurvives.public (units "https://files.cg/a/b?.jpg") (by decide +kernel)
  exact absurd hpublic (by decide +kernel)

/-- The key with a space and a percent sign survives. -/
theorem plainKey_survives :
    Survives cuttingParser siteBase [units "kyc"] accountHost kycBucket signature plainKey
      (units "https://files.cg/a%20b") :=
  (survives_iff cuttingParser siteBase [units "kyc"] accountHost kycBucket signature plainKey
    (units "https://files.cg/a%20b") (by decide +kernel) (by decide +kernel) (by decide +kernel)).mpr
    { noQuestion := fun _ => by decide +kernel
      pathElsewhere := by decide +kernel
      hostElsewhere := by decide +kernel
      account := by decide +kernel
      undotted := rfl
      escaped := by
        rw [EscapedWhereRead, if_pos (by decide +kernel)]
        exact (@isSome_decode_iff (fun _ => false) _).mp (by decide +kernel) }

end Rabotka.Storage
