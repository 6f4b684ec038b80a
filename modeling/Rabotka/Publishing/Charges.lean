import Rabotka.Publishing.Rules

/-!
# Publishing is charged exactly

In orderly runs a call that returns has charged one offer to a period of its business that was
running and has put one offer on the market, with all its questions; a call that throws has given
back what it was charged; the periods, the offers and the questions are what these effects make of
them, within the limits of the plans, and an expired offer is opened again for one call only
(`publishing_exact`).

`publishing_inexact` shows what happens otherwise: the questions or the return of a charge are
refused, two calls republish one offer, a period is cancelled before it is charged.
-/

namespace Rabotka.Publishing

open Async Trace List

variable {s : Setting} {i id profileId : ℕ} {w w₀ v : World} {x : State} {ε : Env} {e : Step}
  {l : Log} {c : Cmd}

/-! ### What is promised -/

def Effect.charges (id : ℕ) : Effect → Bool
  | .charged periodId _ _ => periodId = id
  | _ => false

def Effect.releases (id : ℕ) : Effect → Bool
  | .released periodId => periodId = id
  | _ => false

def Effect.inserts : Effect → Bool
  | .inserted _ _ => true
  | _ => false

def Effect.reopens (id : ℕ) : Effect → Bool
  | .reopened offerId _ => offerId = id
  | _ => false

/-- The effect puts this offer on the market. -/
def Effect.touches (id : ℕ) : Effect → Bool
  | .inserted offerId _ => offerId = id
  | .reopened offerId _ => offerId = id
  | _ => false

/-- A call that republishes this offer returns. -/
def Effect.returns (id : ℕ) : Effect → Bool
  | .answered (.republish offerId _) (.ok _) => offerId = id
  | _ => false

/-- What the effect asks the candidates of an offer. -/
def Effect.asks (id : ℕ) : Effect → List QuestionRow
  | .asked offerId questions => if offerId = id then questions else []
  | _ => []

/-- `offers_published`. -/
def World.published (w : World) (id : ℕ) : ℕ :=
  ((w.periods[id]?).map Period.offersPublished).getD 0

/-- The questions of an offer. -/
def World.questionsOf (w : World) (id : ℕ) : List QuestionRow :=
  (w.questions.filter fun q => q.1 = id).map Prod.snd

/-- No period has more offers than its plan allows. -/
def Within (s : Setting) (w : World) : Prop :=
  ∀ p ∈ w.periods, ∀ q, s.limit p = some q → p.offersPublished ≤ q

/-- A call is charged one offer, on a period of its business that is running then; nothing if its
author is no business. -/
def Paid (s : Setting) (profileId : ℕ) (paid : List Effect) : Prop :=
  match s.businessOf profileId with
  | none => paid = []
  | some b => ∃ id r now, paid = [.charged id r now] ∧ r.businessId = b ∧ r.covers now

/-- What a call has done that is answered so. -/
def Answered (s : Setting) (profileId : ℕ) (publication : Publication) (outcome : Except Exn ℕ)
    (done : List Effect) : Prop :=
  match outcome with
  | .ok id => ∃ paid placed, Paid s profileId paid ∧ Placed s profileId publication id placed ∧
      done = paid ++ placed
  | .error _ => done = [] ∨ ∃ id r now, done = [.charged id r now, .released id]

/-- What is promised about a run that starts from `w₀`. -/
structure Exact (s : Setting) (w₀ : World) (x : State) : Prop where
  answers : Every (fun e older => ∀ profileId publication outcome,
    e.cmd = .answer profileId publication outcome →
      Answered s profileId publication outcome (effects (own older e.proc))) x.2
  published : ∀ id, x.1.published id + (effects x.2).countP (Effect.releases id) =
    w₀.published id + (effects x.2).countP (Effect.charges id)
  inserts : x.1.offers.length = w₀.offers.length + (effects x.2).countP Effect.inserts
  untouched : ∀ id, (effects x.2).countP (Effect.touches id) = 0 → x.1.offers[id]? = w₀.offers[id]?
  questions : ∀ id, x.1.questionsOf id = w₀.questionsOf id ++ (effects x.2).flatMap (Effect.asks id)
  once : ∀ id, (effects x.2).countP (Effect.returns id) ≤ 1
  limits : Within s x.1

/-! ### What one step changes -/

/-- A step has an effect, and leaves these tables. -/
inductive Changes (w : World) : Cmd → Option Effect → World → Prop
  | still {c : Cmd} : Changes w c none w
  | charged {id : ℕ} {quota : Option ℕ} {r : Period} (hr : w.periods[id]? = some r)
      (hroom : r.hasRoom quota = true) :
      Changes w (.charge id quota) (some (.charged id r w.now))
        { w with periods := Table.update w.periods id Period.chargeOffer }
  | released {id : ℕ} : Changes w (.release id) (some (.released id))
      { w with periods := Table.update w.periods id Period.releaseOffer }
  | inserted {row : String → JobOffer} {reference : String} : Changes w (.createOffer row)
      (some (.inserted w.offers.length (row reference)))
      { w with offers := w.offers ++ [row reference] }
  | asked {id : ℕ} {questions : List QuestionRow} : Changes w (.createQuestions id questions)
      (some (.asked id questions))
      { w with questions := w.questions ++ questions.map fun q => (id, q) }
  | reopened {id : ℕ} {scheduledAt : ℤ} {priorityUntil : Option ℤ} {o : JobOffer}
      (ho : w.offers[id]? = some o) : Changes w (.updateOffer id scheduledAt priorityUntil)
      (some (.reopened id o))
      { w with offers := Table.update w.offers id (JobOffer.reopen scheduledAt priorityUntil) }
  | answered {profileId : ℕ} {publication : Publication} {outcome : Except Exn ℕ} :
      Changes w (.answer profileId publication outcome) (some (.answered publication outcome)) w
  | elapsed {c : Cmd} {now : ℤ} : Changes w c none { w with now }
  | opened {c : Cmd} {p : Period} : Changes w c none
      { w with periods := w.periods ++ [{ p with offersPublished := 0 }] }
  | revised {c : Cmd} {id : ℕ} {status : Subscriptions.SubscriptionStatus} {startsAt endsAt : ℤ} :
      Changes w c none
        { w with periods := Table.update w.periods id (Period.revise status startsAt endsAt) }

theorem changes_exec : Changes w c (effect ⟨i, w, c, (exec s w ε c).2⟩) (exec s w ε c).1 := by
  cases c with
  | charge id quota =>
    obtain ⟨r, hr, hroom, hexec⟩ | hexec := exec_charge s w ε id quota
    · have heffect : effect ⟨i, w, .charge id quota, true⟩ = some (.charged id r w.now) := by
        simp [effect, hr]
      rw [hexec, heffect]
      exact .charged hr hroom
    · rw [hexec]
      exact .still
  | release id => exact .released
  | createOffer row =>
    obtain hexec | hexec := exec_createOffer s w ε row
    · rw [hexec]
      exact .inserted
    · rw [hexec]
      exact .still
  | createQuestions offerId questions => exact .asked
  | updateOffer id scheduledAt priorityUntil =>
    obtain ⟨o, ho, hexec⟩ | ⟨hnone, hexec⟩ := exec_updateOffer s w ε id scheduledAt priorityUntil
    · have heffect : effect ⟨i, w, .updateOffer id scheduledAt priorityUntil,
          some (o.reopen scheduledAt priorityUntil)⟩ = some (.reopened id o) := by
        simp [effect, ho]
      rw [hexec, heffect]
      exact .reopened ho
    · have heffect : effect ⟨i, w, .updateOffer id scheduledAt priorityUntil, none⟩ = none := by
        simp [effect, hnone]
      rw [hexec, heffect]
      exact .still
  | answer profileId publication outcome => exact .answered
  | elapse milliseconds => exact .elapsed
  | openPeriod period => exact .opened
  | revisePeriod id status startsAt endsAt => exact .revised
  | _ => exact .still

/-- The columns of a period that do not change. -/
def Period.key (p : Period) : ℕ × ℕ := (p.businessId, p.planId)

theorem Setting.limit_congr {p r : Period} (h : p.key = r.key) : s.limit p = s.limit r := by
  rw [Setting.limit, Setting.limit, (Prod.mk.inj h).2]

variable {u : Option Effect}

theorem Changes.grows (h : Changes w c u v) : Table.Grows Period.key w.periods v.periods := by
  cases h with
  | charged | released | revised => exact Table.Grows.update fun _ => rfl
  | opened => exact Table.Grows.append _ _ _
  | _ => exact Table.Grows.refl _ _

theorem published_update {f : Period → Period} (id' : ℕ) :
    ({ w with periods := Table.update w.periods id' f } : World).published id =
      if id' = id then ((w.periods[id]?).map fun p => (f p).offersPublished).getD 0
      else w.published id := by
  simp only [World.published, Table.getElem?_update, Option.map_map]
  split
  · simp [Function.comp_def]
  · simp [Function.comp_def]

/-- The counter of a period follows its charges and what is given back of them. -/
theorem Changes.published (h : Changes w c u v)
    (hpos : u.any (Effect.releases id) → 0 < w.published id) :
    v.published id + u.toList.countP (Effect.releases id) =
      w.published id + u.toList.countP (Effect.charges id) := by
  cases h with
  | @charged id' quota r hr hroom =>
    rw [published_update]
    rcases eq_or_ne id' id with rfl | hne
    · simp [Effect.releases, Effect.charges, World.published, Period.chargeOffer, hr]
    · simp [Effect.releases, Effect.charges, hne]
  | @released id' =>
    rw [published_update]
    rcases eq_or_ne id' id with rfl | hne
    · have h₀ := hpos (by simp [Effect.releases])
      rw [World.published] at h₀ ⊢
      cases hr : w.periods[id']? with
      | none => simp [hr] at h₀
      | some r =>
        simp only [hr, Option.map_some, Option.getD_some] at h₀
        simp only [Period.releaseOffer, if_true, Option.map_some, Option.getD_some,
          Option.toList_some, countP_singleton, Effect.releases, Effect.charges,
          decide_true]
        simp
        omega
    · simp [Effect.releases, Effect.charges, hne]
  | @opened _ p =>
    rcases lt_trichotomy id w.periods.length with hlt | rfl | hgt
    · simp [World.published, getElem?_append_left hlt]
    · simp [World.published]
    · have hout : (w.periods ++ [{ p with offersPublished := 0 }])[id]? = none :=
        getElem?_eq_none (by rw [length_append]; exact hgt)
      simp only [World.published, hout, getElem?_eq_none hgt.le, Option.toList_none,
        countP_nil]
  | revised =>
    rw [published_update]
    split <;> simp [World.published, Period.revise]
  | inserted | asked | reopened => simp [Effect.releases, Effect.charges, World.published]
  | answered => simp [Effect.releases, Effect.charges]
  | _ => rfl

/-- A charge has been made to the quota of the plan. -/
theorem Changes.within (h : Changes w c u v) (hw : Within s w)
    (hquota : ∀ id quota r, c = .charge id quota → w.periods[id]? = some r → quota = s.limit r) :
    Within s v := by
  -- what is true of an updated row is true of all rows
  have hupdate : ∀ (id : ℕ) (f : Period → Period), (∀ r q, w.periods[id]? = some r →
      s.limit (f r) = some q → (f r).offersPublished ≤ q) →
      ∀ p ∈ Table.update w.periods id f, ∀ q, s.limit p = some q → p.offersPublished ≤ q := by
    intro id f hf p hp q hq
    obtain ⟨j, hj⟩ := mem_iff_getElem?.1 hp
    rw [Table.getElem?_update] at hj
    obtain ⟨r, hr, rfl⟩ := Option.map_eq_some_iff.1 hj
    by_cases hid : id = j
    · rw [if_pos hid] at hq ⊢
      exact hf r q (hid ▸ hr) hq
    · rw [if_neg hid] at hq ⊢
      exact hw r (mem_of_getElem? hr) q hq
  cases h with
  | @charged id quota r hr hroom =>
    refine hupdate _ _ fun r' q hr' hq => ?_
    obtain rfl := Option.some.inj (hr.symm.trans hr')
    have hlimit : quota = some q := (hquota _ _ _ rfl hr).trans hq
    rw [hlimit, Period.hasRoom, Option.all_some, decide_eq_true_eq] at hroom
    exact hroom
  | released =>
    refine hupdate _ _ fun r q hr hq => ?_
    exact (Nat.sub_le _ _).trans (hw r (mem_of_getElem? hr) q hq)
  | opened =>
    intro p hp q hq
    rcases mem_append.1 hp with hp | hp
    · exact hw p hp q hq
    · obtain rfl := mem_singleton.1 hp
      exact Nat.zero_le q
  | revised => exact hupdate _ _ fun r q hr hq => hw r (mem_of_getElem? hr) q hq
  | _ => exact hw

theorem Changes.length_offers (h : Changes w c u v) :
    v.offers.length = w.offers.length + u.toList.countP Effect.inserts := by
  cases h with
  | inserted | reopened | charged | released | asked | answered => simp [Effect.inserts]
  | _ => rfl

theorem Changes.untouched (h : Changes w c u v)
    (hu : u.toList.countP (Effect.touches id) = 0) : v.offers[id]? = w.offers[id]? := by
  cases h with
  | inserted =>
    have hne : id ≠ w.offers.length := by
      rintro rfl
      simp [Effect.touches] at hu
    rcases lt_or_gt_of_ne hne with hlt | hgt
    · exact getElem?_append_left hlt
    · rw [getElem?_eq_none hgt.le, getElem?_eq_none (by simpa using Nat.succ_le_of_lt hgt)]
  | @reopened id' scheduledAt priorityUntil o ho =>
    have hne : id' ≠ id := by
      rintro rfl
      simp [Effect.touches] at hu
    simp [Table.getElem?_update, hne]
  | _ => rfl

/-- An offer stays, in its status or back on the market. -/
theorem Changes.offer (h : Changes w c u v) {o : JobOffer} (ho : w.offers[id]? = some o) :
    ∃ o', v.offers[id]? = some o' ∧ (o'.status = o.status ∨ o'.status = .active) := by
  cases h with
  | inserted =>
    exact ⟨o, by rw [getElem?_append_left (List.getElem?_eq_some_iff.1 ho).1, ho], .inl rfl⟩
  | reopened ho' =>
    refine ⟨_, by rw [Table.getElem?_update, ho, Option.map_some], ?_⟩
    split
    · exact .inr rfl
    · exact .inl rfl
  | _ => exact ⟨o, ho, .inl rfl⟩

theorem Changes.questions (h : Changes w c u v) :
    v.questionsOf id = w.questionsOf id ++ u.toList.flatMap (Effect.asks id) := by
  cases h with
  | @asked id' questions =>
    rcases eq_or_ne id' id with rfl | hne
    · simp [World.questionsOf, Effect.asks, filter_map, Function.comp_def]
    · simp [World.questionsOf, Effect.asks, filter_map, Function.comp_def, hne]
  | _ => simp [Effect.asks, World.questionsOf]

/-! ### What holds along orderly runs -/

theorem countP_effects_cons (q : Effect → Bool) : (effects (e :: l)).countP q =
    (effects l).countP q + (effect e).toList.countP q := by
  rw [effects_cons, countP_append]

/-- What holds of the effects of each process holds of all. -/
theorem countP_effects_le {p q : Effect → Bool}
    (h : ∀ i, (effects (own l i)).countP q ≤ (effects (own l i)).countP p) :
    (effects l).countP q ≤ (effects l).countP p := by
  simp only [countP_effects] at h ⊢
  exact countP_le_of_own h

/-- A step keeps this for all processes if it does for its own. -/
theorem forall_own_cons {p q : Effect → Bool}
    (h : ∀ i, (effects (own l i)).countP q ≤ (effects (own l i)).countP p)
    (he : (effect e).any q → (effects (own l e.proc)).countP q <
      (effects (own l e.proc)).countP p + (effect e).toList.countP p) (i : ℕ) :
    (effects (own (e :: l) i)).countP q ≤ (effects (own (e :: l) i)).countP p := by
  by_cases hi : e.proc = i
  · rw [own_cons_self hi, countP_effects_cons, countP_effects_cons]
    subst hi
    have hold := h e.proc
    cases hu : effect e with
    | none => simpa using hold
    | some u =>
      rw [hu, Option.any_some, Option.toList_some] at he
      rw [Option.toList_some, countP_singleton]
      split
      · rename_i hq
        exact he hq
      · omega
  · rw [own_cons_of_ne hi]
    exact h i

/-- The market in an orderly run that starts from `w₀`. -/
structure Kept (s : Setting) (w₀ : World) (x : State) : Prop where
  periods : Along (fun w w' => Table.Grows Period.key w.periods w'.periods) x
  settled : ∀ id i, (effects (own x.2 i)).countP (Effect.releases id) ≤
    (effects (own x.2 i)).countP (Effect.charges id)
  backed : ∀ id i, (effects (own x.2 i)).countP (Effect.returns id) ≤
    (effects (own x.2 i)).countP (Effect.reopens id)
  reopened : ∀ id, (effects x.2).countP (Effect.reopens id) ≤ 1 ∧
    (0 < (effects x.2).countP (Effect.reopens id) →
      ∃ o, x.1.offers[id]? = some o ∧ o.status ≠ .expired)
  answers : Every (fun e older => ∀ profileId publication outcome,
    e.cmd = .answer profileId publication outcome →
      Answered s profileId publication outcome (effects (own older e.proc))) x.2
  published : ∀ id, x.1.published id + (effects x.2).countP (Effect.releases id) =
    w₀.published id + (effects x.2).countP (Effect.charges id)
  inserts : x.1.offers.length = w₀.offers.length + (effects x.2).countP Effect.inserts
  untouched : ∀ id, (effects x.2).countP (Effect.touches id) = 0 → x.1.offers[id]? = w₀.offers[id]?
  questions : ∀ id, x.1.questionsOf id = w₀.questionsOf id ++ (effects x.2).flatMap (Effect.asks id)
  limits : Within s x.1

/-- What was seen of a period is so of it now, as far as its business and its plan go. -/
theorem Kept.sighted (h : Kept s w₀ x) {p : Period → Prop} (hsighted : Sighted p id (own x.2 i)) :
    ∃ r r', p r ∧ x.1.periods[id]? = some r' ∧ r'.key = r.key := by
  obtain ⟨e, he, r, hr, hp⟩ := hsighted
  obtain ⟨r', hr', hkey⟩ := h.periods.now e (mem_of_own he) id r hr
  exact ⟨r, r', hp, hr', hkey⟩

/-- The charge that a step makes, and the period as it found it. -/
theorem effect_of_charged {r : Period} {now : ℤ} (h : effect e = some (.charged id r now)) :
    e.store.periods[id]? = some r := by
  unfold effect at h
  split at h
  · obtain ⟨r', hr', heq⟩ := Option.map_eq_some_iff.1 h
    obtain ⟨rfl, rfl, -⟩ := Effect.charged.inj heq
    exact hr'
  · cases h
  · cases h
  · cases h
  · obtain ⟨o, -, heq⟩ := Option.map_eq_some_iff.1 h
    cases heq
  · cases h
  · cases h

/-- What has been charged is a period of the business. -/
theorem Kept.paid (h : Kept s w₀ x) {charged : Option ℕ} {paid placed : List Effect}
    (hcharged : Charged s profileId charged paid (own x.2 i))
    (heffects : effects (own x.2 i) = paid ++ placed) : Paid s profileId paid := by
  cases charged with
  | none =>
    obtain ⟨hb, hpaid⟩ := hcharged
    rwa [Paid, hb]
  | some id =>
    obtain ⟨b, hb, hsighted, r, now, rfl, hcovers⟩ := hcharged
    rw [Paid, hb]
    refine ⟨id, r, now, rfl, ?_, hcovers⟩
    obtain ⟨r₁, r', hr₁, hr', hkey⟩ := h.sighted hsighted
    obtain ⟨e, he, heffect⟩ : ∃ e ∈ own x.2 i, effect e = some (.charged id r now) :=
      mem_effects.1 (by simp [heffects])
    obtain ⟨r₂, r'', rfl, hr'', hkey'⟩ := h.sighted (p := (· = r))
      ⟨e, he, r, effect_of_charged heffect, rfl⟩
    obtain rfl := Option.some.inj (hr'.symm.trans hr'')
    exact (congrArg Prod.fst (hkey'.symm.trans hkey)).trans hr₁

theorem Kept.answers_step (h : Kept s w₀ x) (hpre : Pre s i c x)
    (publication : Publication) (outcome : Except Exn ℕ)
    (hc : c = .answer profileId publication outcome) :
    Answered s profileId publication outcome (effects (own x.2 i)) := by
  subst hc
  cases outcome with
  | ok id =>
    obtain ⟨charged, paid, placed, hcharged, hplaced, heffects⟩ := hpre
    exact ⟨paid, placed, h.paid hcharged heffects, hplaced, heffects⟩
  | error e => exact hpre

/-- What a process gives back it has been charged. -/
theorem Kept.settled_step (h : Kept s w₀ x) (hpre : Pre s i c x) (id j : ℕ) :
    (effects (own (⟨i, x.1, c, (exec s x.1 ε c).2⟩ :: x.2) j)).countP (Effect.releases id) ≤
      (effects (own (⟨i, x.1, c, (exec s x.1 ε c).2⟩ :: x.2) j)).countP (Effect.charges id) := by
  refine forall_own_cons (h.settled id) (fun hreleases => ?_) j
  obtain ⟨v, hchanges⟩ : ∃ v, Changes x.1 c (effect ⟨i, x.1, c, (exec s x.1 ε c).2⟩) v :=
    ⟨_, changes_exec⟩
  generalize effect ⟨i, x.1, c, (exec s x.1 ε c).2⟩ = u at hchanges hreleases
  cases hchanges with
  | @released id' =>
    obtain rfl : id' = id := by simpa [Effect.releases] using hreleases
    obtain ⟨r, now, heffects⟩ := hpre
    rw [heffects]
    simp [Effect.releases, Effect.charges]
  | _ => simp [Effect.releases] at hreleases

/-- A call that republishes an offer and returns has opened it again. -/
theorem Kept.backed_step (h : Kept s w₀ x) (hpre : Pre s i c x) (id j : ℕ) :
    (effects (own (⟨i, x.1, c, (exec s x.1 ε c).2⟩ :: x.2) j)).countP (Effect.returns id) ≤
      (effects (own (⟨i, x.1, c, (exec s x.1 ε c).2⟩ :: x.2) j)).countP (Effect.reopens id) := by
  refine forall_own_cons (h.backed id) (fun hreturns => ?_) j
  obtain ⟨v, hchanges⟩ : ∃ v, Changes x.1 c (effect ⟨i, x.1, c, (exec s x.1 ε c).2⟩) v :=
    ⟨_, changes_exec⟩
  generalize effect ⟨i, x.1, c, (exec s x.1 ε c).2⟩ = u at hchanges hreturns
  cases hchanges with
  | @answered profileId publication outcome =>
    cases publication with
    | create dto => simp [Effect.returns] at hreturns
    | republish id' scheduledAt =>
      cases outcome with
      | error e => simp [Effect.returns] at hreturns
      | ok id'' =>
        obtain rfl : id' = id := by simpa [Effect.returns] using hreturns
        obtain ⟨charged, paid, placed, hcharged, ⟨rfl, found, -, rfl⟩, heffects⟩ := hpre
        have hpaid : paid.countP (Effect.returns id'') = 0 := by
          cases charged with
          | none => simp [hcharged.2]
          | some id =>
            obtain ⟨b, -, -, r, now, rfl, -⟩ := hcharged
            simp [Effect.returns]
        rw [heffects, countP_append, countP_append, hpaid]
        simp [Effect.returns, Effect.reopens]
  | _ => simp [Effect.returns] at hreturns

/-- There is something to give back. -/
theorem Kept.published_pos (h : Kept s w₀ x) (hpre : Pre s i c x)
    (hreleases : (effect ⟨i, x.1, c, (exec s x.1 ε c).2⟩).any (Effect.releases id)) :
    0 < x.1.published id := by
  have hsettled := countP_effects_le fun j => h.settled_step (ε := ε) hpre id j
  have hpublished := h.published id
  rw [countP_effects_cons, countP_effects_cons] at hsettled
  cases hu : effect ⟨i, x.1, c, (exec s x.1 ε c).2⟩ with
  | none => simp [hu] at hreleases
  | some u =>
    rw [hu, Option.any_some] at hreleases
    have hcharges : Effect.charges id u = false := by
      cases u with
      | released id' => rfl
      | _ => simp [Effect.releases] at hreleases
    simp only [hu, Option.toList_some, countP_singleton, hreleases, hcharges, if_true] at hsettled
    simp at hsettled
    omega

theorem Kept.published_step (h : Kept s w₀ x) (hpre : Pre s i c x) (id : ℕ) :
    (exec s x.1 ε c).1.published id +
        (effects (⟨i, x.1, c, (exec s x.1 ε c).2⟩ :: x.2)).countP (Effect.releases id) =
      w₀.published id +
        (effects (⟨i, x.1, c, (exec s x.1 ε c).2⟩ :: x.2)).countP (Effect.charges id) := by
  have hchange := @Changes.published id _ _ _ _ (changes_exec (s := s) (i := i) (ε := ε))
    fun hreleases => h.published_pos hpre hreleases
  have hold := h.published id
  rw [countP_effects_cons, countP_effects_cons]
  omega

/-- An offer is opened again once, from being expired, and is not expired then. -/
theorem Kept.reopened_step (h : Kept s w₀ x) (hg : orderly x (.step i c ε)) (id : ℕ) :
    (effects (⟨i, x.1, c, (exec s x.1 ε c).2⟩ :: x.2)).countP (Effect.reopens id) ≤ 1 ∧
      (0 < (effects (⟨i, x.1, c, (exec s x.1 ε c).2⟩ :: x.2)).countP (Effect.reopens id) →
        ∃ o, (exec s x.1 ε c).1.offers[id]? = some o ∧ o.status ≠ .expired) := by
  obtain ⟨hle, hopen⟩ := h.reopened id
  have hchanges : Changes x.1 c (effect ⟨i, x.1, c, (exec s x.1 ε c).2⟩) (exec s x.1 ε c).1 :=
    changes_exec
  rw [countP_effects_cons]
  have hstays : 0 < (effects x.2).countP (Effect.reopens id) →
      ∃ o, (exec s x.1 ε c).1.offers[id]? = some o ∧ o.status ≠ .expired := by
    intro hpos
    obtain ⟨o, ho, hne⟩ := hopen hpos
    obtain ⟨o', ho', hstatus⟩ := hchanges.offer ho
    refine ⟨o', ho', ?_⟩
    rcases hstatus with hstatus | hstatus
    · rwa [hstatus]
    · rw [hstatus]
      decide
  revert hstays
  generalize effect ⟨i, x.1, c, (exec s x.1 ε c).2⟩ = u at hchanges
  generalize (exec s x.1 ε c).1 = v at hchanges
  intro hstays
  cases hchanges with
  | @reopened id' scheduledAt priorityUntil o ho =>
    rcases eq_or_ne id' id with rfl | hne
    · simp only [orderly, ho, Option.all_some, decide_eq_true_eq] at hg
      have hnone : (effects x.2).countP (Effect.reopens id') = 0 := by
        refine Nat.eq_zero_of_not_pos fun hpos => ?_
        obtain ⟨o', ho', hne⟩ := hopen hpos
        obtain rfl := Option.some.inj (ho.symm.trans ho')
        exact hne hg
      refine ⟨by simp [hnone, Effect.reopens], fun _ => ⟨o.reopen scheduledAt priorityUntil, ?_, ?_⟩⟩
      · simp [Table.getElem?_update, ho]
      · simp [JobOffer.reopen]
    · have hzero : (some (Effect.reopened id' o)).toList.countP (Effect.reopens id) = 0 := by
        simp [Effect.reopens, hne]
      rw [hzero]
      exact ⟨hle, hstays⟩
  | _ => exact ⟨by simpa [Effect.reopens] using hle, by simpa [Effect.reopens] using hstays⟩

/-- A charge is made to the quota of the plan. -/
theorem Kept.limits_step (h : Kept s w₀ x) (hpre : Pre s i c x) : Within s (exec s x.1 ε c).1 := by
  refine Changes.within (changes_exec (s := s) (i := i) (ε := ε)) h.limits ?_
  rintro id quota r rfl hr
  obtain ⟨r₁, r', hquota, hr', hkey⟩ := h.sighted hpre
  obtain rfl := Option.some.inj (hr.symm.trans hr')
  exact hquota.trans (Setting.limit_congr hkey).symm

theorem Kept.step (h : Kept s w₀ x) (hpre : Pre s i c x) (hg : orderly x (.step i c ε)) :
    Kept s w₀ ((exec s x.1 ε c).1, ⟨i, x.1, c, (exec s x.1 ε c).2⟩ :: x.2) := by
  have hchanges : Changes x.1 c (effect ⟨i, x.1, c, (exec s x.1 ε c).2⟩) (exec s x.1 ε c).1 :=
    changes_exec
  exact
    { periods := h.periods.step (fun h h' => h.trans h') rfl hchanges.grows
      settled := h.settled_step hpre
      backed := h.backed_step hpre
      reopened := h.reopened_step hg
      answers := ⟨fun profileId publication outcome hc =>
        h.answers_step hpre publication outcome hc, h.answers⟩
      published := h.published_step hpre
      inserts := by
        have hlength := hchanges.length_offers
        have hold := h.inserts
        dsimp only
        rw [countP_effects_cons]
        omega
      untouched := fun id hid => by
        rw [countP_effects_cons] at hid
        exact (hchanges.untouched (by omega)).trans (h.untouched id (by omega))
      questions := fun id => by
        dsimp only
        rw [hchanges.questions, h.questions, effects_cons, flatMap_append, append_assoc]
      limits := h.limits_step hpre }

theorem Kept.exact (h : Kept s w₀ x) : Exact s w₀ x where
  answers := h.answers
  published := h.published
  inserts := h.inserts
  untouched := h.untouched
  questions := h.questions
  once id := (countP_effects_le (h.backed id)).trans (h.reopened id).1
  limits := h.limits

/-- **Publishing is charged exactly.** In every orderly run, from any tables within the limits of
the plans, each call that returns has charged one offer to a running period of its business and has
put one offer on the market with all its questions, each call that throws has done nothing or given
its charge back, the tables are what these effects make of them, within the limits, and at most one
call that republishes an offer returns. -/
theorem publishing_exact {acts : List (Act Request Env Exn)} {c : Config State Resp Exn}
    (hwithin : Within s w₀)
    (hrun : c ∈ (service s).traced.run orderly ((service s).traced.idle (w₀, [])) acts) :
    Exact s w₀ c.store := by
  have hstep : ∀ (x : State) i cmd (ε : Env) v r, True → Kept s w₀ x → Pre s i cmd x →
      orderly x (.step i cmd ε) → (service s).exec x.1 i cmd ε = some (v, r) →
        Kept s w₀ (v, ⟨i, x.1, cmd, r⟩ :: x.2) := by
    intro x i cmd ε v r _ hJ hpre hg hexec
    obtain ⟨rfl, rfl⟩ := pair_inj hexec
    exact hJ.step hpre hg
  have hstart : Kept s w₀ (w₀, []) :=
    { periods := along_nil w₀
      settled := by simp [own]
      backed := by simp [own]
      reopened := by simp
      answers := trivial
      published := by simp
      inserts := by simp
      untouched := fun _ _ => rfl
      questions := by simp
      limits := hwithin }
  obtain ⟨⟨-, hkept⟩, -⟩ := Contract.obeys_of_mem_run handles
    (fun _ => Discipline.stable_const True) (fun _ _ h => h) hstep hrun trivial hstart
  exact hkept.exact

/-! ### One business -/

/-- One business, whose plan allows two offers. -/
def sampleSetting : Setting where
  profiles := [some 0]
  plans := [{ activeOffersLimit := some 2 }]

/-- Its period, and an expired offer. -/
def sampleWorld : World where
  periods := [{ businessId := 0, planId := 0, startsAt := 0, endsAt := 1000 }]
  offers := [{ employerId := 0, scheduledAt := some 0, status := .expired, reference := "RBT-AAAAA" }]

/-- An offer with a question. -/
def sampleDto : CreateJobOfferDto where
  title := "Serveur"
  description := "Service du soir en terrasse"
  scheduledAt := some (.at minFromNow)
  questions := [{ kind := .yesNo, label := "Permis B ?" }]

/-- `n` more calls of process `i`. -/
def calls (i n : ℕ) : List (Act Request Env Exn) :=
  replicate n (.step i { reference := "RBT-BBBBB" })

/-- The business publishes, in `n` calls of process `i`. -/
def publishes (i n : ℕ) (publication : Publication) : List (Act Request Env Exn) :=
  .spawn (.publish 0 publication) :: calls i n

/-- The expired offer is republished. -/
def again : Publication := .republish 0 (.at minFromNow)

/-- A run from the tables of the business. -/
def sampleRun (g : Guard State Cmd Request Env) (acts : List (Act Request Env Exn)) :
    Option (Config State Resp Exn) :=
  (service sampleSetting).traced.run g ((service sampleSetting).traced.idle (sampleWorld, [])) acts

/-- How often the period is charged, the offers and the number of questions, and which calls have
returned. -/
structure Outcome where
  charged : ℕ
  offers : List Hiring.JobOfferStatus
  questions : ℕ
  returned : List Bool
  deriving DecidableEq

def outcome (x : State) : Outcome where
  charged := x.1.published 0
  offers := x.1.offers.map JobOffer.status
  questions := x.1.questions.length
  returned := (effects x.2).filterMap fun v => match v with
    | .answered _ r => some r.toOption.isSome
    | _ => none

/-- An offer is created, one whose insert is refused, and the expired one is republished. -/
def publishesTwo : List (Act Request Env Exn) :=
  publishes 0 18 (.create sampleDto) ++ publishes 1 15 (.create sampleDto) ++
    .fault 1 ⟨"refused"⟩ :: calls 1 2 ++ publishes 2 16 again

theorem publishing_exact_publishesTwo : ∃ c ∈ sampleRun orderly publishesTwo,
    outcome c.store = ⟨2, [.active, .active], 1, [true, false, true]⟩ ∧
      Exact sampleSetting sampleWorld c.store := by
  have hrun : (sampleRun orderly publishesTwo).map (fun c => outcome c.store) =
      some ⟨2, [.active, .active], 1, [true, false, true]⟩ := by
    decide +kernel
  have hwithin : Within sampleSetting sampleWorld := by
    intro p hp q hq
    obtain rfl := mem_singleton.1 hp
    exact Nat.zero_le q
  obtain ⟨c, hc, houtcome⟩ := Option.map_eq_some_iff.1 hrun
  exact ⟨c, hc, houtcome, publishing_exact hwithin hc⟩

/-- The insert of the questions is refused. -/
def questionsRefused : List (Act Request Env Exn) :=
  publishes 0 16 (.create sampleDto) ++ .fault 0 ⟨"refused"⟩ :: calls 0 2

/-- The insert of the offer is refused, and what would give the charge back. -/
def releaseRefused : List (Act Request Env Exn) :=
  publishes 0 15 (.create sampleDto) ++ .fault 0 ⟨"refused"⟩ :: .fault 0 ⟨"refused"⟩ :: calls 0 1

/-- Two calls republish the offer at once. -/
def republishedTwice : List (Act Request Env Exn) :=
  publishes 0 13 again ++ publishes 1 16 again ++ calls 0 3

/-- The period is cancelled between its read and the charge. -/
def cancelledMeanwhile : List (Act Request Env Exn) :=
  publishes 0 13 again ++ .spawn (.revisePeriod 0 .cancelled 0 0) :: calls 1 1 ++ calls 0 3

/-- **What goes wrong otherwise.** A call that throws leaves an offer without its questions and
without a charge on the market; one that throws stays charged; one expired offer is charged twice;
and a call that returns is charged to a period that is cancelled. -/
theorem publishing_inexact : (sampleRun Guard.all questionsRefused).map (fun c => outcome c.store) =
      some ⟨0, [.expired, .active], 0, [false]⟩ ∧
    (sampleRun Guard.all releaseRefused).map (fun c => outcome c.store) =
      some ⟨1, [.expired], 0, [false]⟩ ∧
    (sampleRun Guard.all republishedTwice).map (fun c => outcome c.store) =
      some ⟨2, [.active], 0, [true, true]⟩ ∧
    (sampleRun Guard.all cancelledMeanwhile).map (fun c =>
      (outcome c.store, c.store.1.periods.map Period.status)) =
      some (⟨1, [.active], 0, [true]⟩, [.cancelled]) := by
  decide +kernel

end Rabotka.Publishing
