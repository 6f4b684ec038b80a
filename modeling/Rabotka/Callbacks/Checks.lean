import Rabotka.Callbacks.Signature

/-!
# What the checks of a callback say

The gateway is the set of its keys and of the pairs of a base and a signature it produced. The
verifier remembers only its keys, so that a callback it accepts rebuilds one of these bases. A
digest header, up to white space around it, is of one body. The lines of a base carry the values
of the covered components, and none has a line break in it, so that a base is of one value of
each of them.
-/

namespace Rabotka.Callbacks

open Scan List

variable {Key : Type} (R : Runtime Key)

/-! ### The gateway and the runtime -/

structure Gateway (Key : Type) where
  keys : Set Key
  produced : Set (String × Bytes)

/-- No line break. -/
def Unbroken (s : String) : Prop := '\n' ∉ s.toList

/-- What the runtime is relied on for: hashes do not collide, only what the gateway signed
verifies under its keys, a signature is of one base, and changing the case of letters does not
break a line. -/
structure Runtime.Sound (G : Gateway Key) : Prop where
  digest_injective : ∀ a, Function.Injective (R.digest a)
  genuine : ∀ {a key o base signature}, key ∈ G.keys →
    R.verify a key o base signature = some true → (base, signature) ∈ G.produced
  one_base : ∀ {base base' signature}, (base, signature) ∈ G.produced →
    (base', signature) ∈ G.produced → base = base'
  upper_unbroken : ∀ {s}, Unbroken s → Unbroken (R.toUpperCase s)
  lower_unbroken : ∀ {s}, Unbroken s → Unbroken (R.toLowerCase s)

/-- The keys of an answer are the gateway's. -/
def Reply.From (reply : Reply) (G : Gateway Key) : Prop :=
  ∀ list, reply.list = some list → ∀ x ∈ byId R list, x.2 ∈ G.keys

/-- A callback that was verified, when, and what the gateway answered meanwhile. -/
structure Call where
  now : ℕ
  first : Reply
  second : Reply
  callback : SignedCallback

/-- The verifier after some callbacks. -/
def served (calls : List Call) : Verifier Key :=
  calls.foldl (fun v call => (v.verify R call.now call.first call.second call.callback).2) {}

/-- The callback is accepted at this moment, by a verifier that got its keys from the
gateway. -/
def Accepted (G : Gateway Key) (now : ℕ) (c : SignedCallback) : Prop :=
  ∃ calls : List Call, ∃ first second,
    (∀ call ∈ calls, call.first.From R G ∧ call.second.From R G) ∧
    first.From R G ∧ second.From R G ∧
    ((served R calls).verify R now first second c).1 = .ok ()

/-! ### The keys are the gateway's -/

/-- The verifier remembers only keys of the gateway. -/
def Verifier.Genuine (G : Gateway Key) (v : Verifier Key) : Prop :=
  ∀ x ∈ v.keys, ∀ y ∈ x.1, y.2 ∈ G.keys

variable {R} {G : Gateway Key} {v : Verifier Key} {now : ℕ} {first second reply : Reply}
  {c c' : SignedCallback}

theorem Verifier.Genuine.loadKeys (hv : v.Genuine G) (h : reply.From R G) :
    (v.loadKeys R reply).Genuine G := by
  intro x hx
  unfold Verifier.loadKeys at hx
  split at hx
  · exact hv x hx
  · rename_i list hlist
    obtain rfl := Option.some.inj hx
    exact h list hlist

theorem Verifier.Genuine.find (hv : v.Genuine G) {id : String} {key : Key}
    (h : v.find id = some key) : key ∈ G.keys := by
  obtain ⟨x, hx, hkey⟩ := Option.bind_eq_some_iff.1 h
  obtain ⟨l, r, hl, -⟩ := lookup_eq_some_iff.1 hkey
  exact hv x hx (id, key) (hl ▸ mem_append_right _ (mem_cons_self ..))

theorem Verifier.Genuine.refreshed (hv : v.Genuine G) (h : first.From R G) :
    (v.refreshed R now first).1.Genuine G := by
  unfold Verifier.refreshed
  split
  · exact hv
  · exact hv.loadKeys h

theorem Verifier.Genuine.findAgain (hv : v.Genuine G) (h : second.From R G) (id : String) :
    (∀ key ∈ (v.findAgain R now second id).1, key ∈ G.keys) ∧
      (v.findAgain R now second id).2.Genuine G := by
  unfold Verifier.findAgain
  split
  · have hagain : ({ v with lastUnknownKeyRefresh := now }.loadKeys R second).Genuine G :=
      Verifier.Genuine.loadKeys (v := { v with lastUnknownKeyRefresh := now }) hv h
    exact ⟨fun key hkey => hagain.find hkey, hagain⟩
  · exact ⟨fun key hkey => (Option.some_ne_none key hkey.symm).elim, hv⟩

theorem Verifier.Genuine.publicKey (hv : v.Genuine G) (h₁ : first.From R G)
    (h₂ : second.From R G) (id : String) :
    (∀ key ∈ (v.publicKey R now first second id).1, key ∈ G.keys) ∧
      (v.publicKey R now first second id).2.Genuine G := by
  have hloaded : (v.refreshed R now first).1.Genuine G := hv.refreshed h₁
  simp only [Verifier.publicKey]
  split
  · rename_i key hfind
    exact ⟨fun k hk => Option.some.inj hk ▸ hloaded.find hfind, hloaded⟩
  · exact hloaded.findAgain h₂ id

theorem Verifier.Genuine.verify (hv : v.Genuine G) (h₁ : first.From R G)
    (h₂ : second.From R G) : (v.verify R now first second c).2.Genuine G := by
  unfold Verifier.verify
  split
  · exact hv
  · split
    · exact hv
    · exact hv
    · exact (hv.publicKey h₁ h₂ _).2

theorem genuine_served {calls : List Call}
    (h : ∀ call ∈ calls, call.first.From R G ∧ call.second.From R G) :
    (served R calls).Genuine G := by
  suffices H : ∀ v : Verifier Key, v.Genuine G → (calls.foldl (fun v call =>
      (v.verify R call.now call.first call.second call.callback).2) v).Genuine G from
    H {} fun x hx => by cases hx
  induction calls with
  | nil => exact fun v hv => hv
  | cons call calls ih =>
    intro v hv
    have hcall := h call (mem_cons_self ..)
    exact ih (fun d hd => h d (mem_cons_of_mem _ hd)) _ (hv.verify hcall.1 hcall.2)

/-! ### What acceptance says -/

theorem produced_of_verifySignature (hR : R.Sound G) {alg base : String} {key : Key}
    {signature : Bytes} (hkey : key ∈ G.keys)
    (h : verifySignature R alg key base signature = true) : (base, signature) ∈ G.produced := by
  have hone : ∀ {a o}, (R.verify a key o base signature).getD false = true →
      (base, signature) ∈ G.produced := by
    intro a o ho
    refine hR.genuine (a := a) (o := o) hkey ?_
    cases hv : R.verify a key o base signature with
    | none => rw [hv] at ho; cases ho
    | some b => rw [hv] at ho; exact congrArg some ho
  unfold verifySignature at h
  split at h
  · obtain ⟨o, -, ho⟩ := any_eq_true.1 h
    exact hone ho
  · obtain ⟨o, -, ho⟩ := any_eq_true.1 h
    exact hone ho
  · exact hone h
  · exact hone h
  · cases h

/-- An accepted callback passes the checks, and the gateway signed the base it rebuilds. -/
theorem Accepted.signed (hR : R.Sound G) (h : Accepted R G now c) :
    ∃ s, precheck R now c = .ok s ∧ (s.base, s.signature) ∈ G.produced := by
  obtain ⟨calls, first, second, hcalls, h₁, h₂, h⟩ := h
  have hv := genuine_served hcalls
  unfold Verifier.verify at h
  cases hs : precheck R now c with
  | error reason => simp [hs] at h
  | ok s =>
    refine ⟨s, rfl, ?_⟩
    simp only [hs] at h
    split at h
    · cases h
    · cases h
    · rename_i id _
      have hkeys : ∀ key ∈ ((served R calls).publicKey R now first second id).1,
          key ∈ G.keys := (hv.publicKey h₁ h₂ id).1
      simp only [Signed.verify] at h
      split at h
      · cases h
      · rename_i key hkey
        split at h
        · rename_i hverified
          exact produced_of_verifySignature hR (hkeys key hkey) hverified
        · cases h

/-- What a callback that passes the checks has: a body with these digests, a signature input
read from its header, and the base rebuilt from it. -/
theorem precheck_ok {s : Signed} (h : precheck R now c = .ok s) : ∃ body, c.rawBody = some body ∧
      checkDigest R (c.header "content-digest") body = .ok () ∧
      parseSignatureInput R (c.header "signature-input") = some s.input ∧
      parseSignature R (c.header "signature") s.input.label = some s.signature ∧
      checkFreshness s.input (now / 1000) = .ok () ∧
      signatureBase s.input (c.valueOf R) = some s.base := by
  simp only [precheck, bind, Except.bind, pure, Except.pure, throw, throwThe,
    MonadExceptOf.throw] at h
  split at h
  · cases h
  · split at h
    case h_2 => cases h
    case h_1 body hbody =>
    refine ⟨body, hbody, ?_⟩
    split at h
    case h_1 => cases h
    case h_2 hdigest =>
    refine ⟨hdigest, ?_⟩
    split at h
    case h_2 => cases h
    case h_1 input hinput =>
    split at h
    case h_2 => cases h
    case h_1 signature hsignature =>
    split at h
    case h_1 => cases h
    case h_2 hfresh =>
    split at h
    case h_2 => cases h
    case h_1 base hbase =>
    obtain rfl := Except.ok.inj h
    exact ⟨hinput, hsignature, hfresh, hbase⟩

variable {input : ParsedInput}

theorem checkFreshness_ok {now : ℕ} (h : checkFreshness input now = .ok ()) :
    ∃ created, input.numberOf "created" = .finite created ∧
      |(now : ℚ) - created| ≤ MAX_SKEW_SECONDS := by
  simp only [checkFreshness, bind, Except.bind, pure, Except.pure, throw, throwThe,
    MonadExceptOf.throw] at h
  cases hcreated : input.numberOf "created" with
  | nan | infinite => simp [hcreated] at h
  | finite created =>
    refine ⟨created, rfl, ?_⟩
    simp only [hcreated] at h
    by_contra hold
    rw [if_pos (not_le.1 hold)] at h
    cases h

/-! ### The digest fixes the body -/

/-- The digests of a header, in the order they stand there. -/
def digestsOf (s : List Char) : List (String × String) :=
  (s.splitOn ',').filterMap (labelled isDigestChar)

theorem digestsOf_trim (s : String) : digestsOf (Text.trim s).toList = digestsOf s.toList := by
  have hcomma : ∀ {c : Char}, Text.isSpace c = true → c ≠ ',' := by
    rintro c hc rfl
    simp [Text.isSpace] at hc
  refine Scan.trim_invariant (f := digestsOf) (fun c s hc => ?_) (fun c s hc => ?_) s
  · obtain ⟨l, L, hs, hcs⟩ := Scan.splitOn_cons (hcomma hc) s
    rw [digestsOf, digestsOf, hs, hcs, filterMap_cons, filterMap_cons, labelled_cons hc]
  · obtain ⟨L, l, hs, hcs⟩ := Scan.splitOn_concat (hcomma hc) s
    rw [digestsOf, digestsOf, hs, hcs, filterMap_append, filterMap_append,
      filterMap_cons, filterMap_cons, labelled_concat hc (not_digestChar hc)]

/-- This digest of the header is one of a supported kind. -/
def Supported (R : Runtime Key) (x : String × String) (a : Hash) : Prop :=
  DIGESTS (R.toLowerCase x.1) = .ok (some a)

/-- Every supported digest is the body's, and if any were counted there is one. -/
theorem checkedDigests_ok {body : Bytes} {parts : List (List Char)} {n : ℕ}
    (h : checkedDigests R body parts = .ok n) :
    (∀ x ∈ parts.filterMap (labelled isDigestChar), ∀ a, Supported R x a →
      R.base64 x.2 = R.digest a body) ∧
      (n ≠ 0 → ∃ x ∈ parts.filterMap (labelled isDigestChar), ∃ a, Supported R x a) := by
  induction parts generalizing n with
  | nil =>
    obtain rfl := Except.ok.inj h
    exact ⟨fun x hx => (not_mem_nil hx).elim, fun hn => (hn rfl).elim⟩
  | cons part parts ih =>
    rw [checkedDigests] at h
    rw [filterMap_cons]
    cases hpart : labelled isDigestChar part with
    | none =>
      simp only [hpart] at h
      exact ih h
    | some x =>
      obtain ⟨name, text⟩ := x
      simp only [hpart, bind, Except.bind, pure, Except.pure, throw, throwThe,
        MonadExceptOf.throw] at h
      cases hname : DIGESTS (R.toLowerCase name) with
      | error e => simp [hname] at h
      | ok algorithm =>
        simp only [hname] at h
        cases algorithm with
        | none =>
          obtain ⟨hall, hsome⟩ := ih h
          refine ⟨fun y hy a ha => ?_, fun hn => ?_⟩
          · rcases mem_cons.1 hy with rfl | hy
            · exact absurd (hname.symm.trans ha) (by simp)
            · exact hall y hy a ha
          · obtain ⟨y, hy, ha⟩ := hsome hn
            exact ⟨y, mem_cons_of_mem _ hy, ha⟩
        | some algorithm =>
          simp only at h
          split at h
          · cases h
          · rename_i hequal
            rw [not_not] at hequal
            split at h
            · cases h
            · rename_i m hm
              obtain ⟨hall, -⟩ := ih hm
              refine ⟨fun y hy a ha => ?_, fun _ => ?_⟩
              · rcases mem_cons.1 hy with rfl | hy
                · obtain rfl := Option.some.inj (Except.ok.inj (hname.symm.trans ha))
                  exact hequal
                · exact hall y hy a ha
              · exact ⟨(name, text), mem_cons_self .., algorithm, hname⟩

theorem checkDigest_ok {header : String} {body : Bytes} (h : checkDigest R header body = .ok ()) :
    (∀ x ∈ digestsOf header.toList, ∀ a, Supported R x a → R.base64 x.2 = R.digest a body) ∧
      ∃ x ∈ digestsOf header.toList, ∃ a, Supported R x a := by
  simp only [checkDigest, bind, Except.bind, pure, Except.pure, throw, throwThe,
    MonadExceptOf.throw] at h
  cases hn : checkedDigests R body (header.toList.splitOn ',') with
  | error e => simp [hn] at h
  | ok n =>
    simp only [hn] at h
    split at h
    · cases h
    · rename_i hne
      obtain ⟨hall, hsome⟩ := checkedDigests_ok hn
      exact ⟨hall, hsome hne⟩

/-- One digest header, up to white space around it, is of one body. -/
theorem body_unique (hR : R.Sound G) {header header' : String} {body body' : Bytes}
    (hsame : Text.trim header = Text.trim header') (h : checkDigest R header body = .ok ())
    (h' : checkDigest R header' body' = .ok ()) : body = body' := by
  obtain ⟨hall, x, hx, a, ha⟩ := checkDigest_ok h
  obtain ⟨hall', -⟩ := checkDigest_ok h'
  have hx' : x ∈ digestsOf header'.toList := by
    rwa [← digestsOf_trim, ← hsame, digestsOf_trim]
  exact hR.digest_injective a ((hall x hx a ha).symm.trans (hall' x hx' a ha))

/-! ### The base fixes the covered components -/

theorem unbroken_ofList {l : List Char} : Unbroken (String.ofList l) ↔ '\n' ∉ l := by
  rw [Unbroken, String.toList_ofList]

theorem Unbroken.append {s t : String} (hs : Unbroken s) (ht : Unbroken t) : Unbroken (s ++ t) := by
  rw [Unbroken, String.toList_append, mem_append]
  exact not_or.2 ⟨hs, ht⟩

theorem Unbroken.trim {s : String} (h : Unbroken s) : Unbroken (Text.trim s) := by
  rw [Text.trim, unbroken_ofList, mem_reverse]
  intro hmem
  have hmem := (dropWhile_suffix _).subset hmem
  rw [mem_reverse] at hmem
  exact h ((dropWhile_suffix _).subset hmem)

/-- The method, the authority, the path and every header are one line each. -/
def SignedCallback.Unbroken (c : SignedCallback) : Prop :=
  Callbacks.Unbroken c.method ∧ Callbacks.Unbroken c.authority ∧ Callbacks.Unbroken c.path ∧
    ∀ name value, c.headers name = some value → ∀ v ∈ value.values, Callbacks.Unbroken v

theorem SignedCallback.Unbroken.header (hc : c.Unbroken) (name : String) :
    Callbacks.Unbroken (c.header name) := by
  unfold SignedCallback.header
  cases hvalue : c.headers name with
  | none => exact not_mem_nil
  | some value =>
    rw [Option.map_some, Option.getD_some]
    cases hvalues : value.values with
    | nil => exact not_mem_nil
    | cons v vs => exact hc.2.2.2 name value hvalue v (hvalues ▸ mem_cons_self ..)

theorem SignedCallback.Unbroken.valueOf (hR : R.Sound G) (hc : c.Unbroken)
    {component value : String} (h : c.valueOf R component = some value) :
    Callbacks.Unbroken value := by
  unfold SignedCallback.valueOf at h
  split at h
  · exact Option.some.inj h ▸ hR.upper_unbroken hc.1
  · exact Option.some.inj h ▸ hR.lower_unbroken hc.2.1
  · exact Option.some.inj h ▸ hc.2.2.1
  · split at h
    · cases h
    · split at h
      · cases h
      · exact Option.some.inj h ▸ hc.header _

theorem mem_firstInput {s : List Char} {c : Char} (h : c ∈ firstInput s) : c ∈ s := by
  induction s with
  | nil => exact h
  | cons d s ih =>
    rw [firstInput] at h
    split at h
    · exact (not_mem_nil h).elim
    · rcases mem_cons.1 h with rfl | h
      · exact mem_cons_self ..
      · exact mem_cons_of_mem _ (ih h)

/-- The name of a component is a part of the text it was found in. -/
theorem mem_of_component {s name rest : List Char} (h : component s = some (name, rest))
    {c : Char} (hc : c ∈ name) : c ∈ s := by
  unfold component at h
  obtain ⟨s₁, h₁, h⟩ := Option.bind_eq_some_iff.1 h
  obtain ⟨⟨name', s₂⟩, h₂, h⟩ := Option.bind_eq_some_iff.1 h
  obtain ⟨s₃, -, h⟩ := Option.bind_eq_some_iff.1 h
  obtain ⟨rfl, -⟩ := Prod.mk.inj (Option.some.inj h)
  exact Scan.mem_of_literal h₁ (Scan.mem_of_oneOrMore h₂ hc)

theorem unbroken_input (hR : R.Sound G) {header : String} (hheader : Unbroken header)
    (h : parseSignatureInput R header = some input) :
    (∀ component ∈ input.components, Unbroken component) ∧ Unbroken input.raw := by
  unfold parseSignatureInput at h
  obtain ⟨⟨label, s₁⟩, h₁, h⟩ := Option.bind_eq_some_iff.1 h
  obtain ⟨raw, h₂, h⟩ := Option.bind_eq_some_iff.1 h
  obtain ⟨s₂, h₃, h⟩ := Option.bind_eq_some_iff.1 h
  obtain ⟨rest, -, h⟩ := Option.bind_eq_some_iff.1 h
  obtain ⟨-, -, h⟩ := Option.bind_eq_some_iff.1 h
  obtain rfl := Option.some.inj h
  have hs₁ : '\n' ∉ s₁ := by
    intro hmem
    unfold oneOrMore at h₁
    split at h₁
    · cases h₁
    · obtain ⟨-, rfl⟩ := Prod.mk.inj (Option.some.inj h₁)
      have hmem := (dropWhile_suffix _).subset hmem
      exact hheader (mem_firstInput ((dropWhile_suffix _).subset hmem))
  have hraw : '\n' ∉ raw := fun hmem => hs₁ (Scan.mem_of_literal h₂ hmem)
  refine ⟨fun name hname => ?_, (unbroken_ofList.2 hraw).trim⟩
  obtain ⟨text, htext, rfl⟩ := mem_map.1 hname
  obtain ⟨u, r, hu, hfound⟩ := Scan.exists_of_mem_matchAll htext
  refine hR.lower_unbroken (unbroken_ofList.2 fun hmem => hraw (Scan.mem_of_literal h₃ ?_))
  exact (List.takeWhile_prefix _).subset (hu.subset (mem_of_component hfound hmem))

theorem unbroken_line {component value : String} (hc : Unbroken component)
    (hv : Unbroken value) : Unbroken (line component value) := by
  refine Unbroken.append (Unbroken.append (Unbroken.append ?_ hc) ?_) hv.trim
  · unfold Unbroken; decide
  · unfold Unbroken; decide

/-- Unbroken lines can be read back from the text they are joined to. -/
theorem lines_unique {ls ls' : List String} (h : ∀ l ∈ ls, Unbroken l) (hne : ls ≠ [])
    (h' : ∀ l ∈ ls', Unbroken l) (hne' : ls' ≠ [])
    (heq : "\n".intercalate ls = "\n".intercalate ls') : ls = ls' := by
  have hback : ∀ ls : List String, (∀ l ∈ ls, Unbroken l) → ls ≠ [] →
      ("\n".intercalate ls).toList.splitOn '\n' = ls.map String.toList := by
    intro ls h hne
    rw [String.toList_intercalate]
    refine splitOn_intercalate '\n' (fun l hl => ?_) (by simpa using hne)
    obtain ⟨s, hs, rfl⟩ := mem_map.1 hl
    exact h s hs
  have hlists := (hback ls h hne).symm.trans ((congrArg (fun s => s.toList.splitOn '\n')
    heq).trans (hback ls' h' hne'))
  exact map_injective_iff.mpr (fun _ _ => String.toList_inj.1) hlists

theorem line_inj {component value value' : String}
    (h : line component value = line component value') : Text.trim value = Text.trim value' :=
  (String.append_right_inj _).1 h

/-- The lines of the covered components, one for each. -/
theorem mem_lines {components lines : List String} {f : String → Option String}
    (h : components.mapM (fun component => (f component).map (line component)) = some lines) :
    ∀ l ∈ lines, ∃ component ∈ components, ∃ value, f component = some value ∧
      l = line component value := by
  induction components generalizing lines with
  | nil =>
    obtain rfl := Option.some.inj h
    exact fun l hl => (not_mem_nil hl).elim
  | cons component components ih =>
    rw [mapM_cons] at h
    obtain ⟨first, hfirst, h⟩ := Option.bind_eq_some_iff.1 h
    obtain ⟨rest, hrest, h⟩ := Option.bind_eq_some_iff.1 h
    obtain rfl := Option.some.inj h
    obtain ⟨value, hvalue, rfl⟩ := Option.map_eq_some_iff.1 hfirst
    intro l hl
    rcases mem_cons.1 hl with rfl | hl
    · exact ⟨component, mem_cons_self .., value, hvalue, rfl⟩
    · obtain ⟨d, hd, x, hx, rfl⟩ := ih hrest l hl
      exact ⟨d, mem_cons_of_mem _ hd, x, hx, rfl⟩

/-- The same lines for the same components come from the same values. -/
theorem values_of_lines {components lines : List String} {f f' : String → Option String}
    (h : components.mapM (fun component => (f component).map (line component)) = some lines)
    (h' : components.mapM (fun component => (f' component).map (line component)) = some lines) :
    ∀ component ∈ components, ∃ value value', f component = some value ∧
      f' component = some value' ∧ Text.trim value = Text.trim value' := by
  induction components generalizing lines with
  | nil => exact fun c hc => (not_mem_nil hc).elim
  | cons component components ih =>
    rw [mapM_cons] at h h'
    obtain ⟨first, hfirst, h⟩ := Option.bind_eq_some_iff.1 h
    obtain ⟨rest, hrest, h⟩ := Option.bind_eq_some_iff.1 h
    obtain ⟨first', hfirst', h'⟩ := Option.bind_eq_some_iff.1 h'
    obtain ⟨rest', hrest', h'⟩ := Option.bind_eq_some_iff.1 h'
    obtain rfl := Option.some.inj h
    obtain ⟨rfl, rfl⟩ := List.cons.inj (Option.some.inj h')
    intro d hd
    rcases mem_cons.1 hd with rfl | hd
    · obtain ⟨value, hvalue, rfl⟩ := Option.map_eq_some_iff.1 hfirst
      obtain ⟨value', hvalue', hline⟩ := Option.map_eq_some_iff.1 hfirst'
      exact ⟨value, value', hvalue, hvalue', (line_inj hline).symm⟩
    · exact ih hrest hrest' d hd

/-- One base, rebuilt from two callbacks with one signature input, is of one value of each
component. -/
theorem values_of_base (hR : R.Sound G) {base : String} (hc : c.Unbroken)
    (hc' : c'.Unbroken) (hcomponents : ∀ component ∈ input.components, Unbroken component)
    (hraw : Unbroken input.raw) (h : signatureBase input (c.valueOf R) = some base)
    (h' : signatureBase input (c'.valueOf R) = some base) :
    ∀ component ∈ input.components, ∃ value value', c.valueOf R component = some value ∧
      c'.valueOf R component = some value' ∧ Text.trim value = Text.trim value' := by
  have hlast : Unbroken ("\"@signature-params\": " ++ input.raw) := by
    refine Unbroken.append ?_ hraw
    unfold Unbroken
    decide
  have hlines : ∀ {d : SignedCallback} {lines : List String}, d.Unbroken →
      input.components.mapM (fun component => (d.valueOf R component).map (line component)) =
        some lines →
      ∀ l ∈ lines ++ ["\"@signature-params\": " ++ input.raw], Unbroken l := by
    intro d lines hd hmap l hl
    rcases mem_append.1 hl with hl | hl
    · obtain ⟨component, hmem, value, hvalue, rfl⟩ := mem_lines hmap l hl
      exact unbroken_line (hcomponents component hmem) (hd.valueOf hR hvalue)
    · obtain rfl := mem_singleton.1 hl
      exact hlast
  obtain ⟨lines, hmap, h⟩ := Option.bind_eq_some_iff.1 h
  obtain ⟨lines', hmap', h'⟩ := Option.bind_eq_some_iff.1 h'
  have heq := lines_unique (hlines hc hmap) (by simp) (hlines hc' hmap') (by simp)
    ((Option.some.inj h).trans (Option.some.inj h').symm)
  obtain rfl := append_cancel_right heq
  exact values_of_lines hmap hmap'

end Rabotka.Callbacks
