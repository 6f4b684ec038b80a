import Rabotka.Mailbox.Service

/-!
# Refresh tokens of a mailbox

As long as refreshes and reconnections of an address do not overlap, the stored refresh token is
the latest that the provider issued, and no refresh is refused (`mailbox_not_lost`).
-/

namespace Rabotka.Mailbox

open Lib.Runs List

variable {w w' : World} {e : Event} {i : ℕ} {c c' : Call}

/-! ### Unwritten tokens -/

/-- At most one call has a token that is not written. -/
def Single (calls : List Call) : Prop :=
  ∀ (i j : ℕ) (c c' : Call), calls[i]? = some c → calls[j]? = some c' → unsaved c ≠ none →
    unsaved c' ≠ none → i = j

variable {calls : List Call}

theorem Single.set_none (h : Single calls) (hc' : unsaved c' = none) : Single (calls.set i c') := by
  intro j k d d' hj hk hd hd'
  rcases getElem?_set_cases hj with ⟨-, rfl⟩ | ⟨-, hj⟩
  · exact absurd hc' hd
  · rcases getElem?_set_cases hk with ⟨-, rfl⟩ | ⟨-, hk⟩
    · exact absurd hc' hd'
    · exact h j k d d' hj hk hd hd'

theorem Single.set_of_saved (h : ∀ c ∈ calls, unsaved c = none) : Single (calls.set i c') := by
  intro j k d d' hj hk hd hd'
  rcases getElem?_set_cases hj with ⟨rfl, -⟩ | ⟨-, hj⟩
  · rcases getElem?_set_cases hk with ⟨rfl, -⟩ | ⟨-, hk⟩
    · rfl
    · exact absurd (h d' (mem_of_getElem? hk)) hd'
  · exact absurd (h d (mem_of_getElem? hj)) hd

theorem Single.append (h : Single calls) (hc : unsaved c = none) : Single (calls ++ [c]) := by
  have hold : ∀ {j : ℕ} {d : Call}, (calls ++ [c])[j]? = some d → unsaved d ≠ none →
      calls[j]? = some d := by
    intro j d hj hd
    refine (getElem?_append_cases hj).resolve_right fun ⟨_, hdc⟩ => ?_
    exact hd (hdc ▸ hc)
  exact fun j k d d' hj hk hd hd' => h j k d d' (hold hj hd) (hold hk hd') hd hd'

/-- The other calls have written what they were given. -/
theorem Single.others (h : Single calls) (hi : calls[i]? = some c)
    (hc : unsaved c ≠ none) {d : Call} (hd : d ∈ calls.set i c') (hne : d ≠ c') :
    unsaved d = none ∧ d ∈ calls := by
  obtain ⟨j, hj⟩ := mem_iff_getElem?.mp hd
  rcases getElem?_set_cases hj with ⟨-, rfl⟩ | ⟨hij, hj⟩
  · exact absurd rfl hne
  · refine ⟨?_, mem_of_getElem? hj⟩
    by_contra hd
    exact hij (h i j c d hi hj hc hd)

/-- A call that has nothing to write does not matter. -/
theorem allSaved_of_set (hi : w.calls[i]? = some c) (hc : unsaved c = none)
    (h : ∀ d ∈ w.calls.set i c', unsaved d = none) : AllSaved w := by
  intro d hd
  obtain ⟨j, hj⟩ := mem_iff_getElem?.mp hd
  rcases eq_or_ne i j with rfl | hne
  · rw [hi] at hj
    exact Option.some.inj hj ▸ hc
  · refine h d (mem_of_getElem? (i := j) ?_)
    rwa [getElem?_set_ne hne]

/-! ### The invariant -/

/-- What is known of a call. -/
def CallOk (w : World) : Call → Prop
  | .starting box | .refreshing box _ | .calling box _ _ | .touching box | .revoking box =>
    box ∈ w.reads
  | .expiring box _ => box ∈ w.reads ∧ ∀ row ∈ w.row, row.id ≠ box.id
  | .storing box _ _ _ refresh =>
    box ∈ w.reads ∧ ∀ t ∈ refresh, t = w.issued ∧ ∀ row ∈ w.row, row.id = box.id
  | .upserting refresh _ _ =>
    refresh = w.issued ∧ (∀ box ∈ w.reads, box.refreshToken < refresh)
      ∧ ∀ row ∈ w.row, row.refreshToken < refresh
  | .exchanging | .deleting _ | .done => True

structure Inv (w : World) : Prop where
  boxes : ∀ box ∈ w.reads, box.id < w.nextId ∧ box.refreshToken ≤ w.issued
  row : ∀ row ∈ w.row, row.id < w.nextId ∧ row.refreshToken ≤ w.issued ∧ row.expiredAt = none
  older : ∀ box ∈ w.reads, ∀ row ∈ w.row, box.id = row.id ∨ box.refreshToken < row.refreshToken
  saved : AllSaved w → ∀ row ∈ w.row, row.refreshToken = w.issued
  single : Single w.calls
  calls : ∀ c ∈ w.calls, CallOk w c

theorem inv_start : Inv {} :=
  ⟨by simp, by simp, by simp, by simp, by simp [Single], by simp⟩

/-- Rows with the same token and the same end, of the same mailbox or none. -/
def SameToken (row row' : Option Row) : Prop :=
  ∀ r' ∈ row', ∃ r ∈ row, r'.id = r.id ∧ r'.refreshToken = r.refreshToken
    ∧ r'.expiredAt = r.expiredAt

variable {row' : Option Row}

theorem CallOk.sameToken (hrow : SameToken w.row row') (h : CallOk w c) :
    CallOk { w with row := row' } c := by
  cases c with
  | expiring box refused =>
    refine ⟨h.1, fun r' hr' => ?_⟩
    obtain ⟨r, hr, hid, -⟩ := hrow r' hr'
    exact hid ▸ h.2 r hr
  | storing box attempt access expiresAt refresh =>
    refine ⟨h.1, fun t ht => ⟨(h.2 t ht).1, fun r' hr' => ?_⟩⟩
    obtain ⟨r, hr, hid, -⟩ := hrow r' hr'
    exact hid.trans ((h.2 t ht).2 r hr)
  | upserting refresh access expiresAt =>
    refine ⟨h.1, h.2.1, fun r' hr' => ?_⟩
    obtain ⟨r, hr, -, htoken, -⟩ := hrow r' hr'
    exact htoken ▸ h.2.2 r hr
  | exchanging | deleting | done => trivial
  | starting | refreshing | calling | touching | revoking => exact h

/-- A step that leaves the stored token as it is. -/
theorem Inv.sameToken (h : Inv w) (hrow : SameToken w.row row')
    (hi : w.calls[i]? = some c) (hc : unsaved c = none ∨ w.row = none) (hc' : unsaved c' = none)
    (hok : CallOk w c') : Inv { w with row := row', calls := w.calls.set i c' } where
  boxes := h.boxes
  row r' hr' := by
    obtain ⟨r, hr, hid, htoken, hexpired⟩ := hrow r' hr'
    rw [hid, htoken, hexpired]
    exact h.row r hr
  older box hbox r' hr' := by
    obtain ⟨r, hr, hid, htoken, -⟩ := hrow r' hr'
    rw [hid, htoken]
    exact h.older box hbox r hr
  saved hsaved r' hr' := by
    obtain ⟨r, hr, -, htoken, -⟩ := hrow r' hr'
    rcases hc with hc | hnone
    · exact htoken.trans (h.saved (allSaved_of_set hi hc hsaved) r hr)
    · exact absurd (hnone.symm.trans hr) nofun
  single := h.single.set_none hc'
  calls d hd := by
    rcases mem_or_eq_of_mem_set hd with hd | rfl
    · exact (h.calls d hd).sameToken hrow
    · exact hok.sameToken hrow

/-- A step that writes nothing. -/
theorem Inv.quiet (h : Inv w) (hi : w.calls[i]? = some c)
    (hc : unsaved c = none ∨ w.row = none) (hc' : unsaved c' = none) (hok : CallOk w c') :
    Inv { w with calls := w.calls.set i c' } :=
  h.sameToken (fun r hr => ⟨r, hr, rfl, rfl, rfl⟩) hi hc hc' hok

/-- A call that has written what it was given is not touched by new tokens. -/
theorem CallOk.of_saved (h : CallOk w c) (hc : unsaved c = none)
    {issued' : ℕ} (hrow : ∀ r' ∈ row', (∃ r ∈ w.row, r'.id = r.id)
      ∨ ∀ box ∈ w.reads, r'.id ≠ box.id) :
    CallOk { w with row := row', issued := issued' } c := by
  cases c with
  | expiring box refused =>
    refine ⟨h.1, fun r' hr' => ?_⟩
    rcases hrow r' hr' with ⟨r, hr, hid⟩ | hnew
    · exact hid ▸ h.2 r hr
    · exact hnew box h.1
  | storing box attempt access expiresAt refresh =>
    obtain rfl : refresh = none := hc
    exact ⟨h.1, fun t ht => nomatch ht⟩
  | upserting refresh access expiresAt => exact nomatch hc
  | exchanging | deleting | done => trivial
  | starting | refreshing | calling | touching | revoking => exact h

/-- The provider issues a token, and no other is waiting to be written. -/
theorem Inv.issue (h : Inv w) (hsaved : AllSaved w) (hi : w.calls[i]? = some c)
    (hc' : unsaved c' ≠ none) (hok : CallOk { w with issued := w.issued + 1 } c') :
    Inv { w with issued := w.issued + 1, calls := w.calls.set i c' } where
  boxes box hbox := ⟨(h.boxes box hbox).1, (h.boxes box hbox).2.trans (Nat.le_succ _)⟩
  row r hr := ⟨(h.row r hr).1, (h.row r hr).2.1.trans (Nat.le_succ _), (h.row r hr).2.2⟩
  older := h.older
  saved hsaved' :=
    absurd (hsaved' c' (mem_set (List.getElem?_eq_some_iff.mp hi).1 _)) hc'
  single := Single.set_of_saved hsaved
  calls d hd := by
    rcases mem_or_eq_of_mem_set hd with hd | rfl
    · exact (h.calls d hd).of_saved (hsaved d hd) fun r hr => Or.inl ⟨r, hr, rfl⟩
    · cases d <;> exact hok

/-- The one token that is not written is written. -/
theorem Inv.write (h : Inv w) (nextId' : ℕ) (hi : w.calls[i]? = some c) (hc : unsaved c ≠ none)
    {row' : Row} (hnext : w.nextId ≤ nextId') (hid : row'.id < nextId')
    (htoken : row'.refreshToken = w.issued) (hexpired : row'.expiredAt = none)
    (holder : ∀ box ∈ w.reads, box.id = row'.id ∨ box.refreshToken < w.issued)
    (hsame : (∃ r ∈ w.row, row'.id = r.id) ∨ ∀ box ∈ w.reads, row'.id ≠ box.id)
    (hc' : unsaved c' = none)
    (hok : CallOk { w with row := some row', nextId := nextId' } c') :
    Inv { w with row := some row', nextId := nextId', calls := w.calls.set i c' } where
  boxes box hbox := ⟨(h.boxes box hbox).1.trans_le hnext, (h.boxes box hbox).2⟩
  row r hr := by
    obtain rfl := Option.some.inj hr
    exact ⟨hid, htoken.le, hexpired⟩
  older box hbox r hr := by
    obtain rfl := Option.some.inj hr
    rw [htoken]
    exact holder box hbox
  saved _ r hr := by
    obtain rfl := Option.some.inj hr
    exact htoken
  single := h.single.set_none hc'
  calls d hd := by
    by_cases heq : d = c'
    · subst heq
      cases d <;> exact hok
    · obtain ⟨hd', hmem⟩ := h.single.others hi hc hd heq
      refine (h.calls d hmem).of_saved hd' fun r hr => ?_
      obtain rfl := Option.some.inj hr
      exact hsame

/-- A call that comes in. -/
theorem Inv.append (h : Inv w) (hc : unsaved c = none) (hok : CallOk w c) :
    Inv { w with calls := w.calls ++ [c] } where
  boxes := h.boxes
  row := h.row
  older := h.older
  saved hsaved := h.saved fun d hd => hsaved d (mem_append_left _ hd)
  single := h.single.append hc
  calls d hd := by
    rcases mem_append.mp hd with hd | hd
    · cases d <;> exact h.calls _ hd
    · obtain rfl := mem_singleton.mp hd
      cases d <;> exact hok

/-- The row is read. -/
theorem Inv.read (h : Inv w) {row : Row} (hrow : w.row = some row) :
    Inv { w with reads := w.reads ++ [row] } where
  boxes box hbox := by
    rcases mem_append.mp hbox with hbox | hbox
    · exact h.boxes box hbox
    · obtain rfl := mem_singleton.mp hbox
      exact ⟨(h.row box hrow).1, (h.row box hrow).2.1⟩
  row := h.row
  older box hbox row' hrow' := by
    rcases mem_append.mp hbox with hbox | hbox
    · exact h.older box hbox row' hrow'
    · obtain rfl := mem_singleton.mp hbox
      exact Or.inl (by rw [Option.some.inj (hrow.symm.trans hrow')])
  saved := h.saved
  single := h.single
  calls d hd := by
    have hok := h.calls d hd
    cases d with
    | upserting refresh access expiresAt =>
      refine ⟨hok.1, fun box hbox => ?_, hok.2.2⟩
      rcases mem_append.mp hbox with hbox | hbox
      · exact hok.2.1 box hbox
      · obtain rfl := mem_singleton.mp hbox
        exact hok.2.2 box hrow
    | expiring | storing => exact ⟨mem_append_left _ hok.1, hok.2⟩
    | exchanging | deleting | done => trivial
    | starting | refreshing | calling | touching | revoking => exact mem_append_left _ hok

/-! ### Steps -/

theorem sameToken_updateRow {row : Option Row} {id : ℕ} {f : Row → Row}
    (hf : ∀ r ∈ row, r.id = id → (f r).id = r.id ∧ (f r).refreshToken = r.refreshToken
      ∧ (f r).expiredAt = r.expiredAt) : SameToken row (updateRow row id f) := by
  intro r' hr'
  obtain ⟨r, hr, rfl⟩ := Option.map_eq_some_iff.mp hr'
  refine ⟨r, hr, ?_⟩
  split_ifs with hid
  · exact hf r hr hid
  · exact ⟨rfl, rfl, rfl⟩

variable {x : World × Call} {answer : Answer}

/-- A refresh is answered. -/
theorem Inv.take_refreshing (h : Inv w) {box : Row} {attempt : ℕ}
    (hi : w.calls[i]? = some (.refreshing box attempt))
    (hmay : MayAsk w answer (.refreshing box attempt))
    (hnext : next w answer (.refreshing box attempt) = some x) :
    Inv { x.1 with calls := w.calls.set i x.2 } := by
  obtain ⟨hsaved, hstored⟩ := hmay
  have hbox : box ∈ w.reads := h.calls _ (mem_of_getElem? hi)
  rw [next] at hnext
  split_ifs at hnext with hlatest hrotates
  · obtain rfl := Option.some.inj hnext
    refine h.issue hsaved hi (by simp [unsaved]) ⟨hbox, fun t ht => ?_⟩
    refine ⟨(Option.some.inj ht).symm, fun row hrow => ?_⟩
    -- The token of another mailbox would be newer.
    rcases h.older box hbox row hrow with hid | hlt
    · exact hid.symm
    · exact absurd (h.row row hrow).2.1 (not_le.mpr (hlatest ▸ hlt))
  · obtain rfl := Option.some.inj hnext
    exact h.quiet hi (Or.inl rfl) rfl ⟨hbox, fun t ht => nomatch ht⟩
  · obtain rfl := Option.some.inj hnext
    refine h.quiet hi (Or.inl rfl) rfl ⟨hbox, fun row hrow hid => hlatest ?_⟩
    rw [← hstored row hrow hid, h.saved hsaved row hrow]

/-- What a refresh brought is written. -/
theorem Inv.take_storing (h : Inv w) {box : Row} {attempt access expiresAt : ℕ}
    {refresh : Option ℕ}
    (hi : w.calls[i]? = some (.storing box attempt access expiresAt refresh))
    (hnext : next w answer (.storing box attempt access expiresAt refresh) = some x) :
    Inv { x.1 with calls := w.calls.set i x.2 } := by
  obtain ⟨hbox, hgiven⟩ := h.calls _ (mem_of_getElem? hi)
  rw [next] at hnext
  split_ifs at hnext with hrow
  · obtain rfl := Option.some.inj hnext
    obtain ⟨r, hr, hid⟩ := (Option.any_eq_true _ _).mp hrow
    have hid : r.id = box.id := of_decide_eq_true hid
    cases refresh with
    | none =>
      exact h.sameToken (sameToken_updateRow fun r _ _ => ⟨rfl, rfl, rfl⟩) hi (Or.inl rfl) rfl hbox
    | some t =>
      obtain ⟨rfl, -⟩ := hgiven t rfl
      have hupdate : updateRow w.row box.id (fun r => { r with
          accessToken := some access
          accessExpiresAt := some expiresAt
          refreshToken := (some w.issued).getD r.refreshToken })
          = some { r with
            accessToken := some access
            accessExpiresAt := some expiresAt
            refreshToken := w.issued } := by
        rw [updateRow, hr, Option.map_some, if_pos hid]
        rfl
      dsimp only
      rw [hupdate]
      refine h.write w.nextId hi nofun le_rfl (h.row r hr).1 rfl (h.row r hr).2.2
        (fun b hb => ?_) (Or.inl ⟨r, hr, rfl⟩) rfl hbox
      exact (h.older b hb r hr).imp_right fun hlt => hlt.trans_le (h.row r hr).2.1
  · obtain rfl := Option.some.inj hnext
    refine h.quiet hi ?_ rfl trivial
    cases refresh with
    | none => exact Or.inl rfl
    | some t =>
      right
      cases hw : w.row with
      | none => rfl
      | some r =>
        have hid := (hgiven t rfl).2 r hw
        exact absurd (by simp [hasRow, hw, hid]) hrow

/-- The tokens of a reconnection are written. -/
theorem Inv.take_upserting (h : Inv w) {refresh access expiresAt : ℕ}
    (hi : w.calls[i]? = some (.upserting refresh access expiresAt))
    (hnext : next w answer (.upserting refresh access expiresAt) = some x) :
    Inv { x.1 with calls := w.calls.set i x.2 } := by
  obtain ⟨rfl, holder, -⟩ := h.calls _ (mem_of_getElem? hi)
  rw [next] at hnext
  split at hnext
  · next r hr =>
    obtain rfl := Option.some.inj hnext
    exact h.write w.nextId hi nofun le_rfl (h.row r hr).1 rfl rfl
      (fun b hb => Or.inr (holder b hb)) (Or.inl ⟨r, hr, rfl⟩) rfl trivial
  · obtain rfl := Option.some.inj hnext
    exact h.write _ hi nofun (Nat.le_succ _) (Nat.lt_succ_self _) rfl rfl
      (fun b hb => Or.inr (holder b hb)) (Or.inr fun b hb => (h.boxes b hb).1.ne') rfl trivial

/-- A call takes its next step. -/
theorem Inv.take (h : Inv w) (hi : w.calls[i]? = some c)
    (hmay : MayAsk w answer c) (hnext : next w answer c = some x) :
    Inv { x.1 with calls := w.calls.set i x.2 } := by
  have hok := h.calls c (mem_of_getElem? hi)
  cases c with
  | starting box =>
    rw [next] at hnext
    split_ifs at hnext
    · obtain rfl := Option.some.inj hnext
      exact h.quiet hi (Or.inl rfl) rfl trivial
    · split at hnext <;> obtain rfl := Option.some.inj hnext
      · exact h.quiet hi (Or.inl rfl) rfl hok
      · exact h.quiet hi (Or.inl rfl) rfl hok
  | refreshing box attempt => exact h.take_refreshing hi hmay hnext
  | storing box attempt access expiresAt refresh => exact h.take_storing hi hnext
  | calling box attempt access =>
    rw [next] at hnext
    split_ifs at hnext with hrefuses hsecond
    · exact absurd hrefuses (Bool.eq_false_iff.mp (hmay hsecond))
    · obtain rfl := Option.some.inj hnext
      exact h.quiet hi (Or.inl rfl) rfl hok
    · obtain rfl := Option.some.inj hnext
      exact h.quiet hi (Or.inl rfl) rfl hok
  | touching | revoking =>
    obtain rfl := Option.some.inj hnext
    exact h.quiet hi (Or.inl rfl) rfl trivial
  | expiring box refused =>
    obtain rfl := Option.some.inj hnext
    exact h.sameToken (sameToken_updateRow fun r hr hid => absurd hid (hok.2 r hr)) hi
      (Or.inl rfl) rfl trivial
  | exchanging =>
    obtain rfl := Option.some.inj hnext
    refine h.issue hmay hi nofun ⟨rfl, fun box hbox => ?_, fun row hrow => ?_⟩
    · exact Nat.lt_succ_of_le (h.boxes box hbox).2
    · exact Nat.lt_succ_of_le (h.row row hrow).2.1
  | upserting refresh access expiresAt => exact h.take_upserting hi hnext
  | deleting id =>
    obtain rfl := Option.some.inj hnext
    refine h.sameToken (fun r hr => ⟨r, ?_, rfl, rfl, rfl⟩) hi (Or.inl rfl) rfl trivial
    exact (Option.filter_eq_some_iff.mp hr).1
  | done => exact nomatch hnext

/-- A call that throws has nothing left to write. -/
theorem unsaved_thrown (h : thrown c = some c') : unsaved c' = none ∧ CallOk w c' := by
  cases c with
  | done => exact nomatch h
  | starting | refreshing | storing | calling | touching | expiring | exchanging | upserting
      | revoking | deleting => exact Option.some.inj h ▸ ⟨rfl, trivial⟩

/-- One step. -/
theorem Inv.step (h : Inv w) (hapart : Apart w e) (hstep : step w e = some w') : Inv w' := by
  cases e with
  | read =>
    obtain ⟨row, hrow, rfl⟩ := Option.map_eq_some_iff.mp hstep
    exact h.read hrow
  | withAccess | disconnect =>
    obtain ⟨box, hbox, rfl⟩ := Option.map_eq_some_iff.mp hstep
    exact h.append rfl (mem_of_getElem? hbox)
  | complete =>
    obtain rfl := Option.some.inj hstep
    exact h.append rfl trivial
  | wait ms =>
    obtain rfl := Option.some.inj hstep
    exact ⟨h.boxes, h.row, h.older, h.saved, h.single, h.calls⟩
  | take i answer =>
    obtain ⟨x, hx, rfl⟩ := Option.map_eq_some_iff.mp hstep
    obtain ⟨c, hi, hnext⟩ := Option.bind_eq_some_iff.mp hx
    exact h.take hi (hapart c hi) hnext
  | throw i =>
    obtain ⟨c', hc', rfl⟩ := Option.map_eq_some_iff.mp hstep
    obtain ⟨c, hi, hthrown⟩ := Option.bind_eq_some_iff.mp hc'
    obtain ⟨hsaved, hok⟩ := unsaved_thrown (w := w) hthrown
    exact h.quiet hi (Or.inl (hapart c hi)) hsaved hok

/-! ### Runs -/

/-- A call that marks a mailbox finds it gone. -/
theorem Inv.marksRefused (h : Inv w) : MarksRefused w e := by
  cases e with
  | take i answer =>
    intro box refused hi row hrow hid
    exact absurd hid ((h.calls _ (mem_of_getElem? hi)).2 row hrow)
  | read | withAccess | complete | disconnect | wait | throw => trivial

theorem Inv.latest (h : Inv w) : Latest w := fun hdone row hrow _ =>
  h.saved (fun c hc => hdone c hc ▸ rfl) row hrow

/-- In every run in which refreshes and reconnections do not overlap, a mailbox is marked as expired
only if its stored token was refused, the stored token is the latest when no call is in progress,
and a mailbox that is connected is not expired. -/
theorem mailbox_not_lost {events : List Event} (hapart : Along step Apart {} events) :
    Along step MarksRefused {} events ∧ ∀ w, run step {} events = some w →
      Latest w ∧ ∀ row ∈ w.row, row.expiredAt = none := by
  refine ⟨along_of_inv Inv.step (fun h _ => h.marksRefused) inv_start hapart, fun w hrun => ?_⟩
  have hinv := inv_run Inv.step inv_start hapart hrun
  exact ⟨hinv.latest, fun row hrow => (hinv.row row hrow).2.2⟩

/-- A mailbox is connected, and read with an access token that has to be refreshed. -/
theorem mailbox_read_once : ∃ w, run step {}
    [.complete, .take 0 {}, .take 0 {}, .read, .withAccess 0, .take 1 {},
      .take 1 { access := 5, expiresAt := 3600000, rotates := true }, .take 1 {}, .take 1 {},
      .take 1 {}] = some w
      ∧ w.row.map Row.refreshToken = some 2 ∧ ∀ row ∈ w.row, row.expiredAt = none := by
  have hapart : Along step Apart {}
      [.complete, .take 0 {}, .take 0 {}, .read, .withAccess 0, .take 1 {},
        .take 1 { access := 5, expiresAt := 3600000, rotates := true }, .take 1 {}, .take 1 {},
        .take 1 {}] := by decide
  exact ⟨_, rfl, by decide, ((mailbox_not_lost hapart).2 _ rfl).2⟩

/-- Two attachments are read with one row, the first of which has it refreshed: the second presents
the old refresh token, and marks the mailbox. And a refresh that overlaps a reconnection writes its
token over the newer one. -/
theorem second_read_marks_mailbox : (∃ w, run step {}
        [.complete, .take 0 {}, .take 0 {}, .read, .withAccess 0, .take 1 {},
          .take 1 { access := 5, expiresAt := 3600000, rotates := true }, .take 1 {}, .take 1 {},
          .take 1 {}, .withAccess 0, .take 2 {}, .take 2 {}] = some w
        ∧ ¬ MarksRefused w (.take 2 {}) ∧ ∃ w', step w (.take 2 {}) = some w'
          ∧ w'.row = some ⟨0, w'.issued, none, some 3600000, some 0⟩)
      ∧ ∃ w, run step {} [.complete, .take 0 {}, .take 0 {}, .read, .withAccess 0, .take 1 {},
          .take 1 { rotates := true }, .complete, .take 2 {}, .take 2 {}, .take 1 {}, .take 1 {},
          .take 1 {}] = some w
        ∧ ¬ Latest w := by
  refine ⟨⟨_, rfl, fun h => ?_, _, rfl, by decide⟩, ⟨_, rfl, fun h => ?_⟩⟩
  · exact absurd (h _ _ rfl _ rfl rfl) (by decide)
  · exact absurd (h (by decide) _ rfl rfl) (by decide)

end Rabotka.Mailbox
