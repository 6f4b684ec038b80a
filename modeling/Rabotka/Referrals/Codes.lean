import Rabotka.Lib.Runs
import Rabotka.Lib.Trim
import Rabotka.Referrals.Schema

/-!
# Referral codes

A profile gets its code when it first asks for it: `ensureReferralCode` reads the profile and, if
there is no code yet, draws one and writes it, again if another profile has it, and after five
collisions one of twice the length. A code is then typed by other people, and
`normalizeReferralCode` undoes what they do to it.

Codes are texts of UTF-16 units. `toUpperCase` is a parameter, of which only its values on ASCII and
white space are used.
-/

namespace Rabotka.Referrals.Codes

open Table Lib.Trim Lib.Runs List

abbrev Text := List UInt16

inductive ReferralSource
  | link | manualCode | bot | admin
  deriving DecidableEq

structure Profile where
  firstName : Text
  lastName : Text
  status : AccountStatus := .active
  deleted : Bool := false
  referralCode : Option Text := none
  deriving DecidableEq

structure Referral where
  referrerId : ℕ
  refereeId : ℕ
  codeUsed : Text
  source : ReferralSource
  deriving DecidableEq

/-! ### Codes -/

/-- `23456789ABCDEFGHJKLMNPQRSTUVWXYZ`. -/
def alphabet : Text :=
  [50, 51, 52, 53, 54, 55, 56, 57, 65, 66, 67, 68, 69, 70, 71, 72, 74, 75, 76, 77, 78, 80, 81, 82,
    83, 84, 85, 86, 87, 88, 89, 90]

def codeLength : ℕ := 6

/-- What `randomInt(ALPHABET.length)` answers, once for each place. -/
abbrev Draws := Fin codeLength → Fin 32

def generateReferralCode (draws : Draws) : Text :=
  List.ofFn fun i => alphabet.getD (draws i) 0

/-- `[2-9A-HJ-NP-Z]`. -/
def isCodeUnit (u : UInt16) : Bool :=
  (50 ≤ u && u ≤ 57) || (65 ≤ u && u ≤ 72) || (74 ≤ u && u ≤ 78) || (80 ≤ u && u ≤ 90)

/-- `/^[2-9A-HJ-NP-Z]{6}$/`. -/
def referralCodePattern (text : Text) : Bool :=
  text.length = codeLength && text.all isCodeUnit

/-- `[\s-]`. -/
def isSeparator (u : UInt16) : Bool :=
  isSpace u || u == 45

variable (toUpperCase : Text → Text)

def normalizeReferralCode (raw : Text) : Option Text :=
  let cleaned := (toUpperCase (trim isSpace raw)).filter fun u => !isSeparator u
  if referralCodePattern cleaned then some cleaned else none

/-- The profile that a code leads to. -/
def findReferrer (profiles : List Profile) (code : Text) : Option (ℕ × Profile) :=
  findFirst profiles fun q =>
    q.referralCode = some code ∧ q.deleted = false ∧ q.status ≠ .banned

/-- What the signup screen shows of the profile: a first name and an initial. -/
def shown (q : Profile) : Text × Text :=
  (q.firstName, toUpperCase (q.lastName.take 1))

def resolveCode (profiles : List Profile) (rawCode : Text) : Option (Text × Text) :=
  match normalizeReferralCode toUpperCase rawCode with
  | none => none
  | some code => (findReferrer profiles code).map fun x => shown toUpperCase x.2

/-- The rest of `recordReferral`, once the referrer is found: the referrals and the new one's id. -/
def attributeTo (referrals : List Referral) (referrerId refereeId : ℕ) (code : Text)
    (source : Option ReferralSource) : List Referral × Option ℕ :=
  if referrerId = refereeId then (referrals, none)
  else if referrals.any fun r => r.referrerId = refereeId ∧ r.refereeId = referrerId then
    (referrals, none)
  else if referrals.any fun r => r.refereeId = refereeId then (referrals, none)
  else (referrals ++ [⟨referrerId, refereeId, code, source.getD .link⟩], some referrals.length)

def recordReferral (profiles : List Profile) (referrals : List Referral) (refereeId : ℕ)
    (rawCode : Text) (source : Option ReferralSource) : List Referral × Option ℕ :=
  match normalizeReferralCode toUpperCase rawCode with
  | none => (referrals, none)
  | some code =>
    match findReferrer profiles code with
    | none => (referrals, none)
    | some referrer => attributeTo referrals referrer.1 refereeId code source

/-! ### Calls of `ensureReferralCode` -/

def mintAttempts : ℕ := 5

/-- Where a call is. -/
inductive Call
  | reading (profileId : ℕ)
  | minting (profileId attempt : ℕ)
  | returned (profileId : ℕ) (code : Text)
  | failed
  deriving DecidableEq

structure World where
  profiles : List Profile
  calls : List Call := []
  deriving DecidableEq

/-- A call comes in, takes its next step (with what it draws if it has to), or throws; people sign
up, and their accounts are banned, deleted and restored. -/
inductive Event
  | ensure (profileId : ℕ)
  | take (i : ℕ) (draws draws' : Draws)
  | throw (i : ℕ)
  | signUp (firstName lastName : Text)
  | setAccount (profileId : ℕ) (status : AccountStatus) (deleted : Bool)

/-- The code that an attempt writes; the one after the last attempt is the fallback. -/
def drawn (attempt : ℕ) (draws draws' : Draws) : Text :=
  if attempt < mintAttempts then generateReferralCode draws
  else generateReferralCode draws ++ generateReferralCode draws'

/-- Another profile has the code. -/
def taken (profiles : List Profile) (profileId : ℕ) (code : Text) : Bool :=
  findMany profiles (fun i q => i ≠ profileId ∧ q.referralCode = some code) ≠ []

/-- The next step of a call: the profiles after it, and where the call is then. -/
def next (profiles : List Profile) (draws draws' : Draws) : Call → Option (List Profile × Call)
  | .reading profileId =>
    match (profiles[profileId]?).bind Profile.referralCode with
    | some code =>
      if code ≠ [] then some (profiles, .returned profileId code)
      else some (profiles, .minting profileId 0)
    | none => some (profiles, .minting profileId 0)
  | .minting profileId attempt =>
    let code := drawn attempt draws draws'
    match profiles[profileId]? with
    | none => some (profiles, .failed)
    | some _ =>
      if taken profiles profileId code then
        -- Only the attempts of the loop are repeated.
        some (profiles,
          if attempt < mintAttempts then .minting profileId (attempt + 1) else .failed)
      else
        some (update profiles profileId fun q => { q with referralCode := some code },
          .returned profileId code)
  | .returned _ _ => none
  | .failed => none

def step (w : World) : Event → Option World
  | .ensure profileId => some { w with calls := w.calls ++ [.reading profileId] }
  | .take i draws draws' =>
    ((w.calls[i]?).bind (next w.profiles draws draws')).map fun x =>
      { profiles := x.1, calls := w.calls.set i x.2 }
  | .throw i =>
    match w.calls[i]? with
    | some (.reading _) | some (.minting _ _) => some { w with calls := w.calls.set i .failed }
    | _ => none
  | .signUp firstName lastName =>
    some { w with profiles := w.profiles ++ [{ firstName, lastName }] }
  | .setAccount profileId status deleted =>
    some { w with profiles := update w.profiles profileId fun q => { q with status, deleted } }

/-! ### What a code is for -/

/-- A lower case letter becomes an upper case one. -/
def asciiUpper (u : UInt16) : UInt16 :=
  if 97 ≤ u ∧ u ≤ 122 then u - 32 else u

/-- How upper case works on the texts that people type for a code. -/
def AsciiUpper : Prop :=
  ∀ text : Text, (∀ u ∈ text, u < 128 ∨ isSpace u) → toUpperCase text = text.map asciiUpper

/-- The code, in any case and with spaces and dashes anywhere. -/
def Typed (code raw : Text) : Prop :=
  (raw.filter fun u => !isSeparator u).map asciiUpper = code

instance (code raw : Text) : Decidable (Typed code raw) := inferInstanceAs (Decidable (_ = _))

/-- Every code that was returned is accepted as itself, and leads to its profile. -/
def KeepWorking (w : World) : Prop :=
  ∀ (i profileId : ℕ) (code : Text), w.calls[i]? = some (.returned profileId code) →
    ∀ raw, Typed code raw → normalizeReferralCode toUpperCase raw = some code
      ∧ ∃ q, w.profiles[profileId]? = some q ∧ (q.deleted = false → q.status ≠ .banned →
        resolveCode toUpperCase w.profiles raw = some (shown toUpperCase q)
          ∧ ∀ (referrals : List Referral) (refereeId : ℕ) (source : Option ReferralSource),
            recordReferral toUpperCase w.profiles referrals refereeId raw source
              = attributeTo referrals profileId refereeId code source)

/-- A write that goes through is not the fallback, and finds a profile without another code. -/
def Harmless (w : World) : Event → Prop
  | .take i draws draws' => ∀ profileId attempt : ℕ,
    w.calls[i]? = some (.minting profileId attempt) →
    taken w.profiles profileId (drawn attempt draws draws') = false →
    ∀ q, w.profiles[profileId]? = some q → attempt < mintAttempts
      ∧ (q.referralCode = none ∨ q.referralCode = some (drawn attempt draws draws'))
  | _ => True

/-! ### What is typed -/

private theorem isSeparator_letter : ∀ n : Fin 26, isSeparator (UInt16.ofNat (97 + n) - 32) = false
      ∧ isSeparator (UInt16.ofNat (97 + n)) = false := by decide

theorem isSeparator_asciiUpper (u : UInt16) : isSeparator (asciiUpper u) = isSeparator u := by
  unfold asciiUpper
  split_ifs with h
  · have hlow : 97 ≤ u.toNat := UInt16.le_iff_toNat_le.mp h.1
    have hhigh : u.toNat ≤ 122 := UInt16.le_iff_toNat_le.mp h.2
    obtain ⟨hupper, hlower⟩ := isSeparator_letter ⟨u.toNat - 97, by omega⟩
    have heq : UInt16.ofNat (97 + (u.toNat - 97)) = u := by
      rw [Nat.add_sub_cancel' hlow, UInt16.ofNat_toNat]
    rw [heq] at hupper hlower
    rw [hupper, hlower]
  · rfl

theorem lt_of_isCodeUnit {u : UInt16} (h : isCodeUnit (asciiUpper u) = true) : u < 128 := by
  unfold asciiUpper isCodeUnit at h
  grind

private theorem isCodeUnit_alphabet : ∀ n : Fin 32, isCodeUnit (alphabet.getD n 0) = true := by
  decide

/-- What is drawn matches the pattern. -/
theorem referralCodePattern_generate (draws : Draws) :
    referralCodePattern (generateReferralCode draws) = true := by
  rw [referralCodePattern, Bool.and_eq_true, decide_eq_true_eq, all_eq_true]
  refine ⟨length_ofFn, fun u hu => ?_⟩
  obtain ⟨i, rfl⟩ := mem_ofFn.mp hu
  exact isCodeUnit_alphabet (draws i)

/-- Trimming takes away what would be taken away later. -/
theorem filter_trim (raw : Text) :
    (trim isSpace raw).filter (fun u => !isSeparator u) = raw.filter fun u => !isSeparator u := by
  have hblank : ∀ blank : Text, (∀ u ∈ blank, isSpace u = true) →
      blank.filter (fun u => !isSeparator u) = [] := by
    intro blank h
    rw [filter_eq_nil_iff]
    intro u hu
    simp [isSeparator, h u hu]
  obtain ⟨before, hraw, hbefore⟩ := @exists_trimStart _ isSpace raw
  obtain ⟨after, hrest, hafter⟩ := @exists_trimEnd _ isSpace (trimStart isSpace raw)
  calc (trim isSpace raw).filter (fun u => !isSeparator u)
      = (trimStart isSpace raw).filter fun u => !isSeparator u := by
        conv_rhs => rw [hrest, filter_append, hblank after hafter, append_nil]
        rfl
    _ = raw.filter fun u => !isSeparator u := by
        conv_rhs => rw [hraw, filter_append, hblank before hbefore, nil_append]

variable {toUpperCase}

/-- A code is accepted as itself, however it is typed. -/
theorem normalizeReferralCode_typed (hupper : AsciiUpper toUpperCase) {code raw : Text}
    (hcode : referralCodePattern code = true) (htyped : Typed code raw) :
    normalizeReferralCode toUpperCase raw = some code := by
  have hunits : ∀ u ∈ code, isCodeUnit u = true := by
    rw [referralCodePattern, Bool.and_eq_true, all_eq_true] at hcode
    exact hcode.2
  have hascii : ∀ u ∈ trim isSpace raw, u < 128 ∨ isSpace u := by
    intro u hu
    rcases hseparator : isSeparator u with _ | _
    · have hmem : u ∈ raw.filter fun u => !isSeparator u := by
        rw [← filter_trim, mem_filter, hseparator]
        exact ⟨hu, rfl⟩
      refine Or.inl (lt_of_isCodeUnit (hunits _ ?_))
      rw [← htyped]
      exact mem_map_of_mem hmem
    · rw [isSeparator, Bool.or_eq_true, beq_iff_eq] at hseparator
      rcases hseparator with hspace | rfl
      · exact Or.inr hspace
      · exact Or.inl (by decide)
  have hcleaned : (toUpperCase (trim isSpace raw)).filter (fun u => !isSeparator u) = code := by
    rw [hupper _ hascii, filter_map]
    have hsame : (fun u => !isSeparator u) ∘ asciiUpper = fun u => !isSeparator u :=
      funext fun u => by rw [Function.comp_apply, isSeparator_asciiUpper]
    rw [hsame, filter_trim, htyped]
  rw [normalizeReferralCode, hcleaned, if_pos hcode]

/-! ### Stored codes -/

/-- The code of a profile. -/
def codeOf (profiles : List Profile) (j : ℕ) : Option Text :=
  (profiles[j]?).bind Profile.referralCode

variable {w w' : World} {e : Event} {profiles : List Profile}

theorem codeOf_of_some {j : ℕ} {q : Profile}
    (h : profiles[j]? = some q) : codeOf profiles j = q.referralCode := by
  rw [codeOf, h, Option.bind_some]

variable {code : Text}

theorem taken_eq_false_iff {profileId : ℕ} :
    taken profiles profileId code = false ↔ ∀ j, j ≠ profileId → codeOf profiles j ≠ some code := by
  rw [taken, decide_eq_false_iff_not, not_not, eq_nil_iff_forall_not_mem]
  constructor
  · intro h j hj hcode
    obtain ⟨q, hq, hqcode⟩ := Option.bind_eq_some_iff.mp hcode
    exact h (j, q) (mem_findMany.mpr ⟨hq, decide_eq_true ⟨hj, hqcode⟩⟩)
  · intro h x hx
    obtain ⟨hrow, hp⟩ := mem_findMany.mp hx
    obtain ⟨hne, hcode⟩ := of_decide_eq_true hp
    exact h x.1 hne (by rw [codeOf_of_some hrow, hcode])

/-- A code leads to the one profile that has it. -/
theorem findReferrer_eq {profileId : ℕ} {q : Profile}
    (hunique : ∀ j, codeOf profiles j = some code → j = profileId)
    (hq : profiles[profileId]? = some q) (hcode : q.referralCode = some code)
    (hlive : q.deleted = false) (hbanned : q.status ≠ .banned) :
    findReferrer profiles code = some (profileId, q) := by
  cases hfound : findReferrer profiles code with
  | none =>
    have hnot := findFirst_eq_none hfound hq
    exact absurd ⟨hcode, hlive, hbanned⟩ (of_decide_eq_false hnot)
  | some x =>
    obtain ⟨hrow, hp⟩ := findFirst_eq_some (i := x.1) (r := x.2) hfound
    obtain ⟨hxcode, -, -⟩ := of_decide_eq_true hp
    have hid := hunique x.1 (by rw [codeOf_of_some hrow, hxcode])
    rw [hid, hq] at hrow
    rw [Option.some.inj hrow, ← hid]

/-! ### Steps -/

/-- A step that does not write a code tells at most a code that is stored. -/
structure Silent (w w' : World) : Prop where
  codes : codeOf w'.profiles = codeOf w.profiles
  returned : ∀ (k profileId : ℕ) (code : Text), w'.calls[k]? = some (.returned profileId code) →
    w.calls[k]? = some (.returned profileId code) ∨ codeOf w.profiles profileId = some code

/-- A step that writes a code tells that one. -/
structure Wrote (w : World) (e : Event) (w' : World) (profileId : ℕ) (code : Text) : Prop where
  event : ∃ i draws draws' attempt, e = .take i draws draws' ∧ code = drawn attempt draws draws'
    ∧ w.calls[i]? = some (.minting profileId attempt)
  exists_profile : ∃ q, w.profiles[profileId]? = some q
  free : taken w.profiles profileId code = false
  codes : codeOf w'.profiles = Function.update (codeOf w.profiles) profileId (some code)
  returned : ∀ (k p : ℕ) (c : Text), w'.calls[k]? = some (.returned p c) →
    w.calls[k]? = some (.returned p c) ∨ p = profileId ∧ c = code

theorem returned_of_set {calls : List Call} {i k profileId : ℕ} {c : Call}
    (h : (calls.set i c)[k]? = some (.returned profileId code)) :
    calls[k]? = some (.returned profileId code) ∨ c = .returned profileId code := by
  rcases eq_or_ne i k with rfl | hne
  · right
    have hlt : i < calls.length := by
      have := (List.getElem?_eq_some_iff.mp h).1
      rwa [length_set] at this
    rw [getElem?_set_self hlt] at h
    exact Option.some.inj h
  · left
    rwa [getElem?_set_ne hne] at h

theorem codeOf_update_code {profileId : ℕ} {q : Profile} (hq : profiles[profileId]? = some q) :
    codeOf (update profiles profileId fun q => { q with referralCode := some code })
      = Function.update (codeOf profiles) profileId (some code) := by
  funext j
  rw [codeOf, getElem?_update]
  rcases eq_or_ne j profileId with rfl | hj
  · rw [Function.update_self, hq]
    simp
  · rw [Function.update_of_ne hj, codeOf]
    simp [hj.symm]

/-- What a step can do to the codes. -/
theorem step_cases (h : step w e = some w') :
    Silent w w' ∨ ∃ profileId code, Wrote w e w' profileId code := by
  cases e with
  | ensure profileId =>
    obtain rfl := Option.some.inj h
    refine Or.inl ⟨rfl, fun k p c hk => Or.inl ?_⟩
    rcases getElem?_concat_eq_some.mp hk with hk | ⟨-, hk⟩
    · exact hk
    · cases hk
  | throw i =>
    rw [step] at h
    split at h
    · obtain rfl := Option.some.inj h
      refine Or.inl ⟨rfl, fun k p c hk => ?_⟩
      exact (returned_of_set hk).imp_right fun hc => by cases hc
    · obtain rfl := Option.some.inj h
      refine Or.inl ⟨rfl, fun k p c hk => ?_⟩
      exact (returned_of_set hk).imp_right fun hc => by cases hc
    · cases h
  | signUp firstName lastName =>
    obtain rfl := Option.some.inj h
    refine Or.inl ⟨funext fun j => ?_, fun k p c hk => Or.inl hk⟩
    rw [codeOf, codeOf]
    rcases lt_trichotomy j w.profiles.length with hlt | rfl | hgt
    · rw [getElem?_append_left hlt]
    · simp
    · rw [getElem?_eq_none (by simp; omega), getElem?_eq_none (by omega)]
  | setAccount profileId status deleted =>
    obtain rfl := Option.some.inj h
    refine Or.inl ⟨funext fun j => ?_, fun k p c hk => Or.inl hk⟩
    simp only [codeOf]
    rw [getElem?_update]
    cases w.profiles[j]? with
    | none => rfl
    | some q =>
      simp only [Option.map_some, Option.bind_some]
      split_ifs <;> rfl
  | take i draws draws' =>
    obtain ⟨x, hx, rfl⟩ := Option.map_eq_some_iff.mp h
    obtain ⟨c, hc, hnext⟩ := Option.bind_eq_some_iff.mp hx
    cases c with
    | reading profileId =>
      rw [next] at hnext
      split at hnext
      · next code hcode =>
        split_ifs at hnext <;> obtain rfl := Option.some.inj hnext
        · refine Or.inl ⟨rfl, fun k p c' hk => ?_⟩
          refine (returned_of_set hk).imp_right fun heq => ?_
          obtain ⟨rfl, rfl⟩ := Call.returned.inj heq
          exact hcode
        · refine Or.inl ⟨rfl, fun k p c' hk => ?_⟩
          exact (returned_of_set hk).imp_right fun heq => by cases heq
      · obtain rfl := Option.some.inj hnext
        refine Or.inl ⟨rfl, fun k p c' hk => ?_⟩
        exact (returned_of_set hk).imp_right fun heq => by cases heq
    | minting profileId attempt =>
      rw [next] at hnext
      cases hq : w.profiles[profileId]? with
      | none =>
        rw [hq] at hnext
        obtain rfl := Option.some.inj hnext
        refine Or.inl ⟨rfl, fun k p c' hk => ?_⟩
        exact (returned_of_set hk).imp_right fun heq => by cases heq
      | some q =>
        rw [hq] at hnext
        dsimp only at hnext
        split_ifs at hnext with htaken hattempt <;> obtain rfl := Option.some.inj hnext
        · refine Or.inl ⟨rfl, fun k p c' hk => ?_⟩
          exact (returned_of_set hk).imp_right fun heq => by cases heq
        · refine Or.inl ⟨rfl, fun k p c' hk => ?_⟩
          exact (returned_of_set hk).imp_right fun heq => by cases heq
        · refine Or.inr ⟨profileId, drawn attempt draws draws', ⟨i, draws, draws', attempt, rfl,
            rfl, hc⟩, ⟨q, hq⟩, Bool.eq_false_iff.mpr htaken, codeOf_update_code hq,
            fun k p c' hk => ?_⟩
          refine (returned_of_set hk).imp_right fun heq => ?_
          obtain ⟨rfl, rfl⟩ := Call.returned.inj heq
          exact ⟨rfl, rfl⟩
    | returned | failed => cases hnext

/-! ### Runs -/

/-- Codes are unique and of the generator, and what was returned is stored. -/
structure Inv (w : World) : Prop where
  unique : ∀ (i j : ℕ) (code : Text), codeOf w.profiles i = some code →
    codeOf w.profiles j = some code → i = j
  generated : ∀ (i : ℕ) (code : Text), codeOf w.profiles i = some code →
    ∃ draws, code = generateReferralCode draws
  returned : ∀ (k profileId : ℕ) (code : Text),
    w.calls[k]? = some (.returned profileId code) → codeOf w.profiles profileId = some code

/-- One step. -/
theorem Inv.step (h : Inv w) (hok : Harmless w e) (hstep : Codes.step w e = some w') : Inv w' := by
  rcases step_cases hstep with hsilent | ⟨profileId, code, hwrote⟩
  · refine ⟨?_, ?_, fun k p c hk => ?_⟩
    · rw [hsilent.codes]
      exact h.unique
    · rw [hsilent.codes]
      exact h.generated
    · rw [hsilent.codes]
      exact (hsilent.returned k p c hk).elim (h.returned k p c) id
  · obtain ⟨i, draws, draws', attempt, rfl, rfl, hcall⟩ := hwrote.event
    obtain ⟨q, hq⟩ := hwrote.exists_profile
    obtain ⟨hattempt, hbefore⟩ := hok profileId attempt hcall hwrote.free q hq
    rw [← codeOf_of_some hq] at hbefore
    have hfree := taken_eq_false_iff.mp hwrote.free
    have hgenerated : drawn attempt draws draws' = generateReferralCode draws := if_pos hattempt
    rw [hgenerated] at hwrote hbefore hfree
    refine ⟨fun j k c hj hk => ?_, fun j c hj => ?_, fun k p c hk => ?_⟩
    · rw [hwrote.codes] at hj hk
      by_cases hjp : j = profileId <;> by_cases hkp : k = profileId
      · exact hjp.trans hkp.symm
      · rw [hjp, Function.update_self] at hj
        rw [Function.update_of_ne hkp, ← hj] at hk
        exact absurd hk (hfree k hkp)
      · rw [hkp, Function.update_self] at hk
        rw [Function.update_of_ne hjp, ← hk] at hj
        exact absurd hj (hfree j hjp)
      · rw [Function.update_of_ne hjp] at hj
        rw [Function.update_of_ne hkp] at hk
        exact h.unique j k c hj hk
    · rw [hwrote.codes] at hj
      rcases eq_or_ne j profileId with rfl | hjne
      · rw [Function.update_self] at hj
        exact ⟨draws, (Option.some.inj hj).symm⟩
      · rw [Function.update_of_ne hjne] at hj
        exact h.generated j c hj
    · rw [hwrote.codes]
      rcases hwrote.returned k p c hk with hold | ⟨rfl, rfl⟩
      · have hstored := h.returned k p c hold
        rcases eq_or_ne p profileId with rfl | hp
        · rw [Function.update_self]
          -- A code that was handed out before is the one that is written again.
          rcases hbefore with hnone | hsame
          · exact nomatch hnone.symm.trans hstored
          · exact hsame.symm.trans hstored
        · rwa [Function.update_of_ne hp]
      · exact Function.update_self ..

/-- Codes that are stored as they were returned keep working. -/
theorem Inv.keepWorking (hupper : AsciiUpper toUpperCase) (h : Inv w) :
    KeepWorking toUpperCase w := by
  intro i profileId code hi raw htyped
  have hstored := h.returned i profileId code hi
  obtain ⟨draws, rfl⟩ := h.generated profileId code hstored
  have hnormal := normalizeReferralCode_typed hupper (referralCodePattern_generate draws) htyped
  obtain ⟨q, hq, hcode⟩ := Option.bind_eq_some_iff.mp hstored
  refine ⟨hnormal, q, hq, fun hlive hbanned => ?_⟩
  have hfound := findReferrer_eq (fun j hj => h.unique j profileId _ hj hstored) hq hcode hlive
    hbanned
  refine ⟨?_, fun referrals refereeId source => ?_⟩
  · rw [resolveCode, hnormal]
    simp only [hfound, Option.map_some]
  · rw [recordReferral, hnormal]
    simp only [hfound]

/-- In every run in which each code is written to a profile without another one, and none is the
fallback, every code that was returned keeps working. -/
theorem codes_keep_working (hupper : AsciiUpper toUpperCase) {start : World} {events : List Event}
    (hcalls : start.calls = []) (hcodes : ∀ q ∈ start.profiles, q.referralCode = none)
    (hok : Along step Harmless start events) (hrun : run step start events = some w) :
    KeepWorking toUpperCase w := by
  have hnone : ∀ j, codeOf start.profiles j = none := by
    intro j
    rw [codeOf]
    cases hq : start.profiles[j]? with
    | none => rfl
    | some q => exact hcodes q (mem_of_getElem? hq)
  have hstart : Inv start := by
    refine ⟨fun i j c hi => ?_, fun i c hi => ?_, fun k p c hk => ?_⟩
    · exact nomatch (hnone i).symm.trans hi
    · exact nomatch (hnone i).symm.trans hi
    · rw [hcalls] at hk
      exact nomatch hk
  exact (inv_run (fun h hok hstep => h.step hok hstep) hstart hok hrun).keepWorking hupper

theorem asciiUpper_map : AsciiUpper (List.map asciiUpper) := fun _ _ => rfl

/-- Somebody asks for a code, and it works in lower case and with a dash. -/
theorem first_code_works : ∃ w : World, run step ⟨[⟨[65], [66], .active, false, none⟩], []⟩
        [.ensure 0, .take 0 (fun _ => 8) (fun _ => 0), .take 0 (fun _ => 8) (fun _ => 0)] = some w
      ∧ normalizeReferralCode (List.map asciiUpper) [97, 97, 97, 45, 97, 97, 65, 32]
        = some [65, 65, 65, 65, 65, 65] := by
  have hrun : run step ⟨[⟨[65], [66], .active, false, none⟩], []⟩
      [.ensure 0, .take 0 (fun _ => 8) (fun _ => 0), .take 0 (fun _ => 8) (fun _ => 0)]
      = some ⟨[⟨[65], [66], .active, false, some [65, 65, 65, 65, 65, 65]⟩],
        [.returned 0 [65, 65, 65, 65, 65, 65]]⟩ := by decide
  have hok : Along step Harmless ⟨[⟨[65], [66], .active, false, none⟩], []⟩
      [.ensure 0, .take 0 (fun _ => 8) (fun _ => 0), .take 0 (fun _ => 8) (fun _ => 0)] := by
    refine ⟨trivial, fun w hw => ?_⟩
    obtain rfl := Option.some.inj hw
    refine ⟨fun p attempt hcall => (nomatch hcall), fun w hw => ?_⟩
    obtain rfl := Option.some.inj hw
    refine ⟨fun p attempt hcall _ q hq => ?_, fun w hw => trivial⟩
    obtain ⟨rfl, rfl⟩ := Call.minting.inj (Option.some.inj hcall)
    exact ⟨by decide, Or.inl (Option.some.inj hq ▸ rfl)⟩
  have hworks := codes_keep_working asciiUpper_map rfl (by decide) hok hrun
  exact ⟨_, hrun, (hworks 0 0 _ rfl _ (by decide)).1⟩

/-- Two first requests of one profile: the code that the first returned is overwritten. -/
theorem second_request_overwrites : ∃ w : World, run step ⟨[⟨[65], [66], .active, false, none⟩], []⟩
        [.ensure 0, .ensure 0, .take 0 (fun _ => 0) (fun _ => 0), .take 1 (fun _ => 0) (fun _ => 0),
          .take 0 (fun _ => 0) (fun _ => 0), .take 1 (fun _ => 1) (fun _ => 0)] = some w
      ∧ ¬ KeepWorking (List.map asciiUpper) w := by
  refine ⟨⟨[⟨[65], [66], .active, false, some [51, 51, 51, 51, 51, 51]⟩],
    [.returned 0 [50, 50, 50, 50, 50, 50], .returned 0 [51, 51, 51, 51, 51, 51]]⟩, by decide,
    fun h => ?_⟩
  obtain ⟨-, q, hq, hworks⟩ := h 0 0 [50, 50, 50, 50, 50, 50] rfl [50, 50, 50, 50, 50, 50]
    (by decide)
  obtain rfl := Option.some.inj hq
  have hresolved := (hworks rfl (by decide)).1
  exact absurd hresolved (by decide)

end Rabotka.Referrals.Codes
