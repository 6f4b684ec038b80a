import Rabotka.OAuth.Calls

/-!
# Redemption and userinfo keep to the contract

`token` checks the application, takes the code, checks the consent and reads the profile; what it
has checked stays true as long as nobody disturbs it (`Redeeming`), and what it answers is backed
by the grant. `resolveUserinfo` reads the token and, for a profile, the consent with its
application and profile. `handles` collects all endpoints.
-/

namespace Rabotka.OAuth

open Async Trace Expiring List

variable {crypto : Crypto} {i id appId profileId code accessToken : ℕ} {app : OAuthApp}
  {grant : AuthorizationCodeGrant} {clientId : String} {F F' : World → Prop} {x : State}

/-- The process has not answered a redemption. -/
def Silent (i : ℕ) (x : State) : Prop := ∀ code, (own x.2 i).countP (redeems code) = 0

theorem stable_silent : (contract crypto).discipline.Stable i (Silent i) :=
  Contract.stable_own (P := fun l => ∀ code, l.countP (redeems code) = 0)

theorem Silent.step {w : World} {e : Step} (h : Silent i x) (hproc : e.proc = i)
    (he : ∀ code, redeems code e = false) : Silent i (w, e :: x.2) := by
  intro code
  rw [own_cons_self hproc, countP_cons_of_neg (by simp [he code])]
  exact h code

theorem silent_of_fresh (h : Contract.Fresh i x) : Silent i x := by
  intro code
  have hnone : own x.2 i = [] := filter_eq_nil_iff.2 fun e he => by simpa using h e he
  simp [hnone]

/-- The process has not answered yet, and `F` holds as long as nobody disturbs it. -/
structure Redeeming (i : ℕ) (F : World → Prop) (x : State) : Prop where
  silent : Silent i x
  seen : Undisturbed i (fun x => F x.1) x

theorem stable_redeeming : (contract crypto).discipline.Stable i (Redeeming i F) :=
  fun x y hy h hx => ⟨(stable_silent : (contract crypto).discipline.Stable i (Silent i)) x y hy h
    hx.silent,
    Contract.stable_undisturbed (K := contract crypto) x y hy h hx.seen⟩

theorem Redeeming.step {w : World} {e : Step} (h : Redeeming i F x) (hproc : e.proc = i)
    (he : ∀ code, redeems code e = false) (hF : F x.1 → F' w) : Redeeming i F' (w, e :: x.2) :=
  ⟨h.silent.step hproc he, h.seen.step hproc hF⟩

/-- A read of a redemption, together with facts about the steps. -/
theorem read_spec {c : Cmd} {G : Log → Prop} {P : Resp c → World → Prop}
    {Q : Resp c → Log → Prop} (hG : Lasting G) (hpre : ∀ x, Pre crypto i c x)
    (hquiet : ∀ w a code, redeems code ⟨i, w, c, a⟩ = false)
    (hstep : ∀ w ε w' a l, G l → exec w ε c = some (w', a) →
      (F w → P a w') ∧ Q a (⟨i, w, c, a⟩ :: l)) :
    Spec crypto i (fun x => Redeeming i F x ∧ G x.2) (issue c)
      (fun a x => Redeeming i (P a) x ∧ Q a x.2) anyway := by
  refine Contract.triple_cmd (stable_redeeming.and (Contract.stable_trace hG))
    (fun x _ _ => hpre x) (fun x ε w a _ h hexec _ => ?_) fun _ _ _ _ => trivial
  obtain ⟨hF, hG'⟩ := hstep x.1 ε w a x.2 h.2 hexec
  exact ⟨h.1.step rfl (hquiet x.1 a) hF, hG'⟩

/-! ### The application -/

theorem authenticateClient_spec {clientSecret : String} :
    Spec crypto i (Silent i) (authenticateClient crypto clientId clientSecret)
      (fun z x => Redeeming i (InService clientId) x ∧ z.2.clientId = clientId) anyway := by
  refine .bind ((findByClientId_spec stable_silent fun x found h =>
    h.step rfl fun _ => rfl).post_mono (fun _ _ _ h => h) fun _ _ _ _ => trivial) fun found => ?_
  split
  · exact .fail fun _ _ _ => trivial
  · rename_i appId app
    split
    · exact .fail fun _ _ _ => trivial
    · rename_i hactive
      have hdone : ∀ x : State, (Silent i x ∧ ∀ a b, some (appId, app) = some (a, b) →
          Looked i a b x.2 ∧ b.clientId = clientId ∧
            Undisturbed i (fun x => x.1.apps[a]? = some b) x) →
          Redeeming i (InService clientId) x ∧ app.clientId = clientId := by
        rintro x ⟨hsilent, hfound⟩
        obtain ⟨hlooked, hclient, hrow⟩ := hfound appId app rfl
        exact ⟨⟨hsilent, hrow.mono fun h => ⟨appId, app, h, hclient, not_not.1 hactive,
          hlooked.1⟩⟩, hclient⟩
      split
      · exact .fail fun _ _ _ => trivial
      · split
        · exact .ret fun x _ h => hdone x h
        · split
          · refine .bind (R := fun _ x => Redeeming i (InService clientId) x ∧
              app.clientId = clientId) ((read_spec (c := .dateNow)
                (G := fun _ => app.clientId = clientId) (P := fun _ => InService clientId)
                (Q := fun _ _ => app.clientId = clientId) (fun _ _ _ h => h)
                (fun _ => trivial) (fun _ _ _ => rfl) fun w ε w' a l hG hexec => ?_).pre_mono
                  fun x _ h => hdone x h) fun now => ?_
            · obtain ⟨rfl, -⟩ := pair_inj hexec
              exact ⟨id, hG⟩
            · split
              · exact .ret fun _ _ h => h
              · exact .fail fun _ _ _ => trivial
          · exact .fail fun _ _ _ => trivial

/-! ### The code -/

/-- What is taken was minted. -/
theorem takeCode_spec (hF : ∀ (w : World) c, F w → F { w with codes := c }) :
    Spec crypto i (Redeeming i F) (issue (.getAndDeleteCode code))
      (fun found x => Redeeming i F x ∧ ∀ grant, found = some grant → Holds i code grant x.2)
      anyway := by
  refine Contract.triple_cmd stable_redeeming (fun _ _ _ => trivial)
    (fun x ε w found hx h hexec _ => ?_) fun _ _ _ _ => trivial
  have hread : exec x.1 ε (.getAndDeleteCode code) = some (w, found) := hexec
  simp only [exec] at hread
  split at hread
  · obtain ⟨rfl, rfl⟩ := pair_inj hread
    exact ⟨h.step rfl (fun _ => rfl) id, fun grant hgrant => by cases hgrant⟩
  · rename_i grant hget
    obtain ⟨rfl, rfl⟩ := pair_inj hread
    refine ⟨h.step rfl (fun _ => rfl) (hF x.1 _), fun grant' hgrant => ?_⟩
    obtain rfl : grant = grant' := Option.some.inj hgrant
    obtain ⟨z, hz, -, rfl⟩ := Keys.get_eq_some.1 hget
    exact ⟨(hx.codes code z hz).mono (suffix_cons _ _), x.1, mem_cons_self⟩

theorem lasting_holds (i code : ℕ) (grant : AuthorizationCodeGrant) :
    Lasting (Holds i code grant) :=
  fun _ _ hl h => h.mono hl

/-! ### The consent and the profile -/

theorem authorizationFor_spec : Spec crypto i (fun x => Redeeming i F x ∧ Holds i code grant x.2)
      (authorizationFor crypto grant)
      (fun z x => Redeeming i (fun w => F w ∧
        ∀ p, grant.profileId = .profile p → InForce z.1 grant.appId p w) x ∧
          Holds i code grant x.2) anyway := by
  unfold authorizationFor
  split
  · rename_i name hname
    split
    · exact .fail fun _ _ _ => trivial
    · refine .bind pairwiseSalt_spec fun salt => .ret fun x _ h => ⟨⟨h.1.silent, ?_⟩, h.2⟩
      exact h.1.seen.mono fun hF => ⟨hF, fun p hp => by simp [hname] at hp⟩
  · rename_i profileId hprofile
    refine .bind (R := fun found x => Redeeming i (fun w => F w ∧
      w.authorizationOf grant.appId profileId = found) x ∧ Holds i code grant x.2)
      (read_spec (c := .findAuthorization grant.appId profileId) (lasting_holds i code grant)
        (fun _ => trivial) (fun _ _ _ => rfl) fun w ε w' found l hG hexec => ?_) fun found => ?_
    · obtain ⟨rfl, rfl⟩ := pair_inj hexec
      exact ⟨fun h => ⟨h, rfl⟩, hG.mono (suffix_cons _ _)⟩
    · split
      · exact .fail fun _ _ _ => trivial
      · rename_i a row
        split
        · rename_i hrevoked
          refine .ret fun x _ h => ⟨⟨h.1.silent, h.1.seen.mono ?_⟩, h.2⟩
          rintro ⟨hF, hfound⟩
          refine ⟨hF, fun p hp => ?_⟩
          obtain rfl : profileId = p := by simpa [hprofile] using hp
          obtain ⟨hrow, hmatch⟩ := Table.findFirst_eq_some hfound
          obtain ⟨happ, hp'⟩ := of_decide_eq_true hmatch
          exact ⟨a, row, rfl, hrow, happ, hp', hrevoked⟩
        · exact .fail fun _ _ _ => trivial

/-- What the process has read about the subject, and that the profile is not archived. -/
theorem loadClaimSource_spec : Spec crypto i (fun x => Redeeming i F x ∧ Holds i code grant x.2)
      (loadClaimSource grant.profileId)
      (fun found x => ∀ profile, found = some profile →
        Redeeming i (fun w => F w ∧ ∀ p, grant.profileId = .profile p →
          ∃ row : Profile, w.profiles[p]? = some row ∧ row.deletedAt = none) x ∧
            Holds i code grant x.2 ∧ Source i grant.profileId profile x.2) anyway := by
  unfold loadClaimSource
  split
  · rename_i name hname
    refine .ret fun x _ h profile hprofile => ⟨⟨h.1.silent, ?_⟩, h.2, ?_⟩
    · exact h.1.seen.mono fun hF => ⟨hF, fun p hp => by simp [hname] at hp⟩
    · rw [hname]
      exact hprofile
  · rename_i profileId hsubject
    refine .bind (R := fun found x => Redeeming i (fun w => F w ∧
      (w.profiles[profileId]?).filter (fun p => p.deletedAt = none) = found) x ∧
        Holds i code grant x.2 ∧ ∃ w, (⟨i, w, .findProfile profileId, found⟩ : Step) ∈ x.2)
      (read_spec (c := .findProfile profileId) (Q := fun found l => Holds i code grant l ∧
          ∃ w, (⟨i, w, .findProfile profileId, found⟩ : Step) ∈ l) (lasting_holds i code grant)
        (fun _ => trivial) (fun _ _ _ => rfl) fun w ε w' found l hG hexec => ?_) fun found => ?_
    · obtain ⟨rfl, rfl⟩ := pair_inj hexec
      exact ⟨fun h => ⟨h, rfl⟩, hG.mono (suffix_cons _ _), w, mem_cons_self⟩
    · split
      · exact .ret fun x _ h profile hprofile => by cases hprofile
      · rename_i row
        refine .ret fun x _ h profile hprofile => ⟨⟨h.1.silent, h.1.seen.mono ?_⟩, h.2.1, ?_⟩
        · rintro ⟨hF, hfound⟩
          refine ⟨hF, fun p hp => ?_⟩
          obtain rfl : profileId = p := by simpa [hsubject] using hp
          obtain ⟨hrow, hdeleted⟩ := Option.filter_eq_some_iff.1 hfound
          exact ⟨row, hrow, of_decide_eq_true hdeleted⟩
        · obtain ⟨w, hmem⟩ := h.2.2
          rw [hsubject]
          exact ⟨w, row, hmem, Option.some.inj hprofile⟩

/-! ### Tokens -/

theorem token_spec {dto : TokenRequest} : Spec crypto i (Silent i) (token crypto dto)
      (fun response x => Silent i x ∧ ∃ grant a, Backed crypto i dto response grant x.2 ∧
        Undisturbed i (fun x => Checked grant a x.1) x) anyway := by
  refine .bind authenticateClient_spec fun z => ?_
  obtain ⟨appId, app⟩ := z
  dsimp only
  rintro x hx ⟨h, hclient⟩
  refine (?_ : Spec crypto i (Redeeming i (InService dto.clientId)) _ _ _) x hx h
  refine .bind (takeCode_spec fun _ _ h => h) fun found => ?_
  split
  · exact .fail fun _ _ _ => trivial
  · rename_i grant
    split
    · exact .fail fun _ _ _ => trivial
    rename_i hgrantClient
    split
    · exact .fail fun _ _ _ => trivial
    rename_i huri
    split
    · exact .fail fun _ _ _ => trivial
    rename_i hverifier
    split
    · exact .fail fun _ _ _ => trivial
    have hsame : grant.clientId = dto.clientId := (not_not.1 hgrantClient).trans hclient
    refine .bind (authorizationFor_spec.pre_mono fun x _ h => ⟨h.1, h.2 grant rfl⟩) fun z => ?_
    obtain ⟨authorizationId, sub⟩ := z
    refine .bind loadClaimSource_spec fun found => ?_
    split
    · exact .fail fun _ _ _ => trivial
    · rename_i profile
      have hchecked : ∀ x : State, Redeeming i (fun w => (InService dto.clientId w ∧
          ∀ p, grant.profileId = .profile p → InForce authorizationId grant.appId p w) ∧
          ∀ p, grant.profileId = .profile p →
            ∃ row : Profile, w.profiles[p]? = some row ∧ row.deletedAt = none) x →
          Redeeming i (Checked grant authorizationId) x := fun x h =>
        ⟨h.silent, h.seen.mono fun hw => ⟨hsame ▸ hw.1.1, hw.1.2, hw.2⟩⟩
      refine .bind (R := fun accessToken x => (Redeeming i (Checked grant authorizationId) x ∧
        Holds i dto.code grant x.2 ∧ Source i grant.profileId profile x.2) ∧
          ∃ w, (⟨i, w, .setAccessToken dto.code
            { authorizationId, profileId := grant.profileId, clientId := app.clientId
              scopes := grant.scopes }, accessToken⟩ : Step) ∈ x.2)
        (Discipline.Triple.pre_mono (R := fun x => Redeeming i (Checked grant authorizationId) x ∧
          Holds i dto.code grant x.2 ∧ Source i grant.profileId profile x.2) ?_
          fun x _ h => ⟨hchecked x (h profile rfl).1, (h profile rfl).2⟩) fun accessToken =>
            .ret fun x _ h => ⟨h.1.1.silent, grant, authorizationId, ?_, h.1.1.seen⟩
      · have hlast : Lasting fun l => Holds i dto.code grant l ∧
            Source i grant.profileId profile l :=
          (lasting_holds i dto.code grant).and fun _ _ hl h => h.mono hl
        refine Contract.triple_cmd (stable_redeeming.and (Contract.stable_trace hlast))
          (fun x _ h => ⟨grant, h.2.1, rfl, (not_not.1 hgrantClient).symm, rfl, h.1.seen⟩)
          (fun x ε w accessToken _ h hexec _ => ?_) fun _ _ _ _ => trivial
        obtain ⟨rfl, rfl⟩ := pair_inj hexec
        exact ⟨⟨h.1.step rfl (fun _ => rfl) fun hw => ⟨hw.app, hw.consent, hw.profile⟩,
          hlast _ _ (suffix_cons _ _) h.2⟩, x.1, mem_cons_self⟩
      · obtain ⟨w, hmem⟩ := h.2
        rw [(not_not.1 hgrantClient).symm] at hmem
        exact
          { holds := h.1.2.1
            verifier := by simpa using hverifier
            redirectUri := (not_not.1 huri).symm
            client := hsame.symm
            audience := (not_not.1 hgrantClient).symm
            nonce := rfl
            scope := rfl
            claims := ⟨profile, sub, rfl, h.1.2.2⟩
            accessToken := ⟨w, authorizationId, hmem⟩ }

/-! ### Userinfo -/

variable {record : AccessTokenRecord} {claims : OidcClaims}

/-- The process has read the token, and as long as nobody disturbs it the token is stored. -/
def Reading (i accessToken : ℕ) (record : AccessTokenRecord) (F : World → Prop) (x : State) :
    Prop :=
  (∃ w, (⟨i, w, .getAccessToken accessToken, some record⟩ : Step) ∈ x.2) ∧
    Undisturbed i (fun x => x.1.accessTokens.get x.1.now accessToken = some record ∧ F x.1) x

theorem stable_reading : (contract crypto).discipline.Stable i (Reading i accessToken record F) :=
  (Contract.stable_trace (K := contract crypto)
    (P := fun l => ∃ w, (⟨i, w, .getAccessToken accessToken, some record⟩ : Step) ∈ l)
    fun _ _ hl h => h.imp fun _ hw => hl.mem hw).and Contract.stable_undisturbed

theorem Reading.step {w : World} {e : Step} (h : Reading i accessToken record F x)
    (hproc : e.proc = i) (hget : w.accessTokens = x.1.accessTokens) (hnow : w.now = x.1.now)
    (hF : F x.1 → F' w) : Reading i accessToken record F' (w, e :: x.2) :=
  ⟨h.1.imp fun _ hw => mem_cons_of_mem _ hw, h.2.step hproc fun hx => by
    refine ⟨?_, hF hx.2⟩
    dsimp only
    rw [hget, hnow]
    exact hx.1⟩

theorem dropToken_spec {P : State → Prop} {Q : OidcClaims → State → Prop}
    (hP : (contract crypto).discipline.Stable i P) :
    Spec crypto i P (dropToken accessToken) Q anyway :=
  .bind (R := fun _ _ => True) (Contract.triple_cmd hP (fun _ _ _ => trivial)
    (fun _ _ _ _ _ _ _ _ => trivial) fun _ _ _ _ => trivial) fun _ => .fail fun _ _ _ => trivial

theorem resolveUserinfo_spec : Spec crypto i (fun _ => True) (resolveUserinfo crypto accessToken)
      (fun claims x => ∃ record,
        (∃ w, (⟨i, w, .getAccessToken accessToken, some record⟩ : Step) ∈ x.2) ∧
          Undisturbed i (fun x => Resolved accessToken claims record x.1) x) anyway := by
  refine .bind (R := fun found x => ∀ record, found = some record →
    Reading i accessToken record (fun _ => True) x)
    (Contract.triple_cmd (Discipline.stable_const True) (fun _ _ _ => trivial)
      (fun x ε w found _ _ hexec _ record hrecord => ?_) fun _ _ _ _ => trivial) fun found => ?_
  · obtain ⟨rfl, rfl⟩ := pair_inj hexec
    refine ⟨⟨x.1, ?_⟩, undisturbed_of_step rfl ⟨hrecord, trivial⟩⟩
    rw [← hrecord]
    exact mem_cons_self
  split
  · exact .fail fun _ _ _ => trivial
  · rename_i record
    have hread : ∀ x : State, (∀ r, some record = some r →
        Reading i accessToken r (fun _ => True) x) →
        Reading i accessToken record (fun _ => True) x := fun x h => h record rfl
    refine Discipline.Triple.pre_mono ?_ fun x _ h => hread x h
    split
    · rename_i name hname
      refine .bind ((findByClientId_spec stable_reading fun x found h =>
        h.step rfl rfl rfl id).post_mono (fun _ _ _ h => h.1) fun _ _ _ _ => trivial)
          fun found => ?_
      split
      · exact dropToken_spec stable_reading
      · split
        · exact dropToken_spec stable_reading
        · split
          · exact dropToken_spec stable_reading
          · refine .bind pairwiseSalt_spec fun salt => .ret fun x _ h => ⟨record, h.1, ?_⟩
            exact h.2.mono fun hw => ⟨hw.1, fun p hp => by simp [hname] at hp⟩
    · rename_i profileId hprofile
      split
      · exact dropToken_spec stable_reading
      · rename_i a ha
        refine .bind (R := fun found x => Reading i accessToken record
          (fun w => w.authorizationById a = found) x)
          (Contract.triple_cmd stable_reading (fun _ _ _ => trivial)
            (fun x ε w found _ h hexec _ => ?_) fun _ _ _ _ => trivial) fun found => ?_
        · obtain ⟨rfl, rfl⟩ := pair_inj hexec
          exact h.step rfl rfl rfl fun _ => rfl
        · split
          · exact dropToken_spec stable_reading
          · rename_i row app profile
            split
            · exact dropToken_spec stable_reading
            · rename_i hvalid
              simp only [ne_eq, Bool.or_eq_true, decide_eq_true_eq, not_or, not_not] at hvalid
              refine .ret fun x _ h => ⟨record, h.1, h.2.mono fun hw => ⟨hw.1, fun p _ => ?_⟩⟩
              exact ⟨a, row, app, profile, ha, hw.2, hvalid.1.1, hvalid.1.2, hvalid.2, rfl⟩

/-! ### The endpoints -/

theorem revoke_spec {clientSecret : String} :
    Spec crypto i (Silent i) (revoke crypto clientId clientSecret accessToken)
      (fun _ _ => True) anyway :=
  .bind (R := fun _ _ => True) (authenticateClient_spec.post_mono (fun _ _ _ _ => trivial)
    fun _ _ _ _ => trivial) fun _ => Contract.triple_cmd (Discipline.stable_const True)
      (fun _ _ _ => trivial) (fun _ _ _ _ _ _ _ _ => trivial) fun _ _ _ _ => trivial

/-- What goes on around the endpoints is one call. -/
theorem single_spec {c : Cmd} (hpre : ∀ x : State, Contract.Fresh i x → Pre crypto i c x) :
    Spec crypto i (Contract.Fresh i) (issue c) (fun _ _ => True) anyway :=
  Contract.triple_cmd Contract.stable_fresh (fun x _ h => hpre x h)
    (fun _ _ _ _ _ _ _ _ => trivial) fun _ _ _ _ => trivial

/-- Every endpoint, and whatever goes on around them, keeps to the contract. -/
theorem handles (crypto : Crypto) : (contract crypto).Handles := by
  have hany : ∀ {i : ℕ} {α : Type} {op : Prog α},
      Spec crypto i (fun _ => True) op (fun _ _ => True) anyway →
      Spec crypto i (Contract.Fresh i) (op.bind fun _ => .ret ()) (fun _ _ => True) anyway :=
    fun h => .bind (h.pre_mono fun _ _ _ => trivial) fun _ => .ret fun _ _ _ => trivial
  intro request i
  cases request with
  | authorize query => exact hany authorize_spec
  | context id => exact hany consentContext_spec
  | sendOtp id phone => exact hany sendOtp_spec
  | verifyOtp id phone otp => exact hany verifyOtp_spec
  | consent id decision =>
    refine hany ?_
    unfold consent
    split
    · exact approve_spec
    · exact deny_spec
  | token dto =>
    refine .bind (token_spec.pre_mono fun x _ h => silent_of_fresh h) fun response => ?_
    refine Contract.triple_cmd (stable_silent.and ?_) (fun x _ h => ⟨h.1 dto.code, h.2⟩)
      (fun _ _ _ _ _ _ _ _ => trivial) fun _ _ _ _ => trivial
    refine Discipline.stable_exists fun grant => Discipline.stable_exists fun a => ?_
    exact (Contract.stable_trace (P := fun l => Backed crypto i dto response grant l)
      fun _ _ hl h => h.mono hl).and Contract.stable_undisturbed
  | userinfo accessToken =>
    refine .bind (resolveUserinfo_spec.pre_mono fun _ _ _ => trivial) fun claims => ?_
    refine Contract.triple_cmd ?_ (fun x _ h => h) (fun _ _ _ _ _ _ _ _ => trivial)
      fun _ _ _ _ => trivial
    refine Discipline.stable_exists fun record => ?_
    exact (Contract.stable_trace
      (P := fun l => ∃ w, (⟨i, w, .getAccessToken accessToken, some record⟩ : Step) ∈ l)
      fun _ _ hl h => h.imp fun _ hw => hl.mem hw).and Contract.stable_undisturbed
  | revoke clientId clientSecret accessToken =>
    exact revoke_spec.pre_mono fun x _ h => silent_of_fresh h
  | addProfile profile => exact single_spec (c := .addProfile profile) fun _ h => h
  | changeProfile id profile => exact single_spec (c := .changeProfile id profile) fun _ h => h
  | registerApp app => exact single_spec (c := .registerApp app) fun _ h => h
  | updateApp id changes => exact single_spec (c := .updateApp id changes) fun _ h => h
  | removeApp id => exact single_spec (c := .removeApp id) fun _ h => h
  | revokeAuthorization id => exact single_spec (c := .revokeAuthorization id) fun _ h => h
  | elapse milliseconds => exact single_spec (c := .elapse milliseconds) fun _ h => h

end Rabotka.OAuth
