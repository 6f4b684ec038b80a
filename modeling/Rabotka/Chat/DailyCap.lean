import Rabotka.Chat.Rules

/-!
# The daily cap

A pair has one conversation and every request for it is answered with it. In orderly runs nobody
starts more direct conversations in 24 hours than the cap, and a call is refused for the cap only
where its author has started that many (`daily_cap_kept`).

`daily_cap_missed` shows what happens otherwise: two calls count before either inserts, a
conversation that was pointed at an application is no longer counted, and conversations that others
started are.
-/

namespace Rabotka.Chat

open Async Trace List

variable {s : Setting} {i a id t : ℕ} {w : World} {ε : Env} {x : State} {e : Step} {l : Log}
  {o : Opening} {c : Cmd}

/-! ### What is promised -/

/-- The conversations are of the same two profiles. -/
def Conversation.SameParties (r r' : Conversation) : Prop :=
  (r.workerId = r'.workerId ∧ r.employerId = r'.employerId) ∨
    r.workerId = r'.employerId ∧ r.employerId = r'.workerId

/-- What the step replies to a request. -/
def replied : Step → Option (Opening × ℕ)
  | ⟨_, _, .reply o id, _⟩ => some (o, id)
  | _ => none

/-- What the step has counted: since when, for whom and how many. -/
def tally : Step → Option (ℕ × ℕ × ℕ)
  | ⟨_, _, .countDirect since actorId, n⟩ => some (since, actorId, n)
  | _ => none

/-- The row is there, and is the one the request asks for. -/
def Answers (s : Setting) (w : World) (o : Opening) (id : ℕ) : Prop :=
  ∃ r, w.conversations[id]? = some r ∧ o.Concerns s r.workerId r.employerId

/-- What is promised about the conversations of a run; a cap of zero is no cap. -/
structure Capped (s : Setting) (x : State) : Prop where
  unique : ∀ (j k : ℕ) (r r' : Conversation), x.1.conversations[j]? = some r →
    x.1.conversations[k]? = some r' → r.SameParties r' → j = k
  replies : Every (fun e _ => ∀ o id, replied e = some (o, id) → Answers s e.store o id) x.2
  started : ∀ a t, 0 < s.cap → (origins x.2).countP (Origin.within t (t + dayMs) a) ≤ s.cap
  refused : Every (fun e older => ∀ since a n, tally e = some (since, a, n) →
    DayBefore e.proc since older ∧
      (s.cap ≤ n → s.cap ≤ (origins older).countP (Origin.since since a))) x.2

/-! ### Inserts -/

/-- The columns that do not change. -/
def Conversation.key (r : Conversation) : ℕ × ℕ × ℕ := (r.workerId, r.employerId, r.createdAt)

def Origin.key (o : Origin) : ℕ × ℕ × ℕ := (o.workerId, o.employerId, o.createdAt)

def Origin.pair (o : Origin) : ℕ × ℕ := (o.workerId, o.employerId)

theorem map_key_update (t : List Conversation) (id applicationId : ℕ) :
    (Table.update t id fun r => { r with applicationId := some applicationId }).map
      Conversation.key = t.map Conversation.key := by
  refine ext_getElem? fun j => ?_
  rw [getElem?_map, getElem?_map, Table.getElem?_update, Option.map_map]
  refine congrArg (fun f => (t[j]?).map f) (funext fun r => ?_)
  simp only [Function.comp_apply]
  split <;> rfl

/-- An insert that succeeds. -/
theorem origin_exec {u : Origin} (h : origin ⟨i, w, c, (exec s w ε c).2⟩ = some u) :
    ∃ o workerId employerId applicationId, c = .create o workerId employerId applicationId ∧
      w.conversations.any (fun r => r.isOf workerId employerId) = false ∧
        u = ⟨workerId, employerId, w.now, o.starter⟩ := by
  cases c with
  | create o workerId employerId applicationId =>
    simp only [exec] at h
    split at h
    · cases h
    · split at h
      · cases h
      · rename_i hfree
        obtain rfl := Option.some.inj h
        exact ⟨o, workerId, employerId, applicationId, rfl, Bool.eq_false_iff.2 hfree, rfl⟩
  | _ => cases h

/-- The rows stay, and an insert adds one. -/
theorem map_key_exec : (exec s w ε c).1.conversations.map Conversation.key =
    w.conversations.map Conversation.key ++
      ((origin ⟨i, w, c, (exec s w ε c).2⟩).map Origin.key).toList := by
  cases c with
  | create o workerId employerId applicationId =>
    simp only [exec]
    split
    · simp [origin]
    · split
      · simp [origin]
      · simp [origin, Conversation.key, Origin.key]
  | update id applicationId => simp [exec, origin, map_key_update]
  | _ => simp [exec, origin]

theorem now_le_exec : w.now ≤ (exec s w ε c).1.now := by
  cases c with
  | create o workerId employerId applicationId =>
    simp only [exec]
    split
    · exact le_rfl
    · split <;> exact le_rfl
  | elapse milliseconds => exact Nat.le_add_right _ _
  | _ => exact le_rfl

/-! ### What holds along orderly runs -/

/-- The conversations of an orderly run. -/
structure Kept (s : Setting) (x : State) : Prop where
  clock : ∀ e ∈ x.2, e.store.now ≤ x.1.now
  rows : x.1.conversations.map Conversation.key = (origins x.2).map Origin.key
  roles : ∀ u ∈ origins x.2, s.Roles u.workerId u.employerId
  pairs : ((origins x.2).map Origin.pair).Nodup
  reported : ∀ e ∈ x.2, ∀ id r, reports e = some (id, r) →
    ((origins x.2)[id]?).map Origin.pair = some (r.workerId, r.employerId)
  counted : Every (fun e older => ∀ since a n, tally e = some (since, a, n) →
    DayBefore e.proc since older ∧ n = (origins older).countP (Origin.since since a)) x.2
  started : ∀ a t, 0 < s.cap → (origins x.2).countP (Origin.within t (t + dayMs) a) ≤ s.cap
  replies : Every (fun e _ => ∀ o id, replied e = some (o, id) → Answers s e.store o id) x.2

/-- A row and its insert. -/
theorem Kept.origin_of_row (h : Kept s x) {r : Conversation}
    (hr : x.1.conversations[id]? = some r) : ∃ u, (origins x.2)[id]? = some u ∧ u.key = r.key := by
  have hkey := congrArg (fun t => t[id]?) h.rows
  simp only [getElem?_map, hr, Option.map_some] at hkey
  exact Option.map_eq_some_iff.1 hkey.symm

theorem Kept.row_of_origin (h : Kept s x) {u : Origin} (hu : (origins x.2)[id]? = some u) :
    ∃ r, x.1.conversations[id]? = some r ∧ r.key = u.key := by
  have hkey := congrArg (fun t => t[id]?) h.rows
  simp only [getElem?_map, hu, Option.map_some] at hkey
  exact Option.map_eq_some_iff.1 hkey

theorem Kept.pair_of_row (h : Kept s x) {r : Conversation} (hr : x.1.conversations[id]? = some r) :
    ((origins x.2)[id]?).map Origin.pair = some (r.workerId, r.employerId) := by
  obtain ⟨u, hu, hkey⟩ := h.origin_of_row hr
  simp only [Origin.key, Conversation.key, Prod.mk.injEq] at hkey
  rw [hu, Option.map_some, Origin.pair, hkey.1, hkey.2.1]

theorem Kept.rows_step (h : Kept s x) : (exec s x.1 ε c).1.conversations.map Conversation.key =
    (origins (⟨i, x.1, c, (exec s x.1 ε c).2⟩ :: x.2)).map Origin.key := by
  rw [map_key_exec (i := i), h.rows, origins_cons, map_append]
  congr 1
  cases origin ⟨i, x.1, c, (exec s x.1 ε c).2⟩ <;> rfl

/-- What holds of the inserts and of a new one, holds of all. -/
theorem forall_origins_cons {p : Origin → Prop} (h : ∀ u ∈ origins l, p u)
    (he : ∀ u, origin e = some u → p u) : ∀ u ∈ origins (e :: l), p u := by
  intro u hu
  rw [origins_cons] at hu
  rcases mem_append.1 hu with hu | hu
  · exact h u hu
  · exact he u (Option.mem_toList.1 hu)

theorem Kept.roles_step (h : Kept s x) (hpre : Pre s i c x) :
    ∀ u ∈ origins (⟨i, x.1, c, (exec s x.1 ε c).2⟩ :: x.2), s.Roles u.workerId u.employerId := by
  refine forall_origins_cons h.roles fun u hu => ?_
  obtain ⟨o, workerId, employerId, applicationId, rfl, -, rfl⟩ := origin_exec hu
  exact hpre.2.1

/-- An insert succeeds only where the pair has no conversation. -/
theorem Kept.pairs_step (h : Kept s x) :
    ((origins (⟨i, x.1, c, (exec s x.1 ε c).2⟩ :: x.2)).map Origin.pair).Nodup := by
  rw [origins_cons]
  cases hu : origin ⟨i, x.1, c, (exec s x.1 ε c).2⟩ with
  | none => simpa using h.pairs
  | some u =>
    obtain ⟨o, workerId, employerId, applicationId, rfl, hfree, rfl⟩ := origin_exec hu
    rw [map_append, Option.toList_some, map_singleton]
    refine nodup_append.2 ⟨h.pairs, nodup_singleton _, fun p hp q hq heq => ?_⟩
    obtain rfl := mem_singleton.1 hq
    obtain ⟨v, hv, rfl⟩ := mem_map.1 hp
    obtain ⟨j, hj⟩ := mem_iff_getElem?.1 hv
    obtain ⟨r, hr, hkey⟩ := h.row_of_origin hj
    have hnot := any_eq_false.1 hfree r (mem_of_getElem? hr)
    simp only [Origin.key, Conversation.key, Prod.mk.injEq] at hkey
    simp only [Origin.pair, Prod.mk.injEq] at heq
    exact hnot (Conversation.isOf_iff.2 ⟨hkey.1.trans heq.1, hkey.2.1.trans heq.2⟩)

/-- What was found is still of the same pair. -/
theorem Kept.reported_step (h : Kept s x) :
    ∀ e ∈ (⟨i, x.1, c, (exec s x.1 ε c).2⟩ : Step) :: x.2, ∀ id r, reports e = some (id, r) →
      ((origins (⟨i, x.1, c, (exec s x.1 ε c).2⟩ :: x.2))[id]?).map Origin.pair =
        some (r.workerId, r.employerId) := by
  have hgrow : ∀ (id : ℕ) (p : ℕ × ℕ), ((origins x.2)[id]?).map Origin.pair = some p →
      ((origins (⟨i, x.1, c, (exec s x.1 ε c).2⟩ :: x.2))[id]?).map Origin.pair = some p := by
    intro id p hp
    obtain ⟨u, hu, rfl⟩ := Option.map_eq_some_iff.1 hp
    rw [origins_cons, getElem?_append_left (List.getElem?_eq_some_iff.1 hu).1, hu]
    rfl
  intro e he id r hr
  rcases mem_cons.1 he with rfl | he
  · cases c with
    | findPair workerId employerId =>
      obtain ⟨hrow, -⟩ := Table.findFirst_eq_some hr
      exact hgrow id _ (h.pair_of_row hrow)
    | create o workerId employerId applicationId =>
      have hlength : x.1.conversations.length = (origins x.2).length := by
        simpa using congrArg List.length h.rows
      simp only [exec] at hr ⊢
      split at hr
      · cases hr
      · split at hr
        · cases hr
        · obtain ⟨rfl, rfl⟩ := pair_inj hr
          rename_i hne hfree
          simp [origins_cons, hne, hfree, origin, hlength, Origin.pair]
    | _ => cases hr
  · exact hgrow id _ (h.reported e he id r hr)

/-- A count in order is the number of conversations that the profile has started. -/
theorem Kept.counted_step (h : Kept s x) (hpre : Pre s i c x) (hg : orderly s x (.step i c ε)) :
    ∀ since a n, tally ⟨i, x.1, c, (exec s x.1 ε c).2⟩ = some (since, a, n) →
      DayBefore i since x.2 ∧ n = (origins x.2).countP (Origin.since since a) := by
  intro since a n htally
  cases c with
  | countDirect since' actorId =>
    simp only [tally, exec, Option.some.injEq, Prod.mk.injEq] at htally
    obtain ⟨rfl, rfl, rfl⟩ := htally
    have hlength : x.1.conversations.length = (origins x.2).length := by
      simpa using congrArg List.length h.rows
    have hsame := all_eq_true.1 hg
    refine ⟨hpre.imp fun w hw => ⟨hw.1, mem_of_own hw.2⟩, ?_⟩
    calc x.1.conversations.countP (fun r => r.counted since' actorId)
        = (x.1.conversations.zip (origins x.2)).countP fun z => z.1.counted since' actorId := by
          conv_lhs => rw [← map_fst_zip hlength.le]
          rw [countP_map]
          rfl
      _ = (x.1.conversations.zip (origins x.2)).countP fun z => z.2.since since' actorId := by
          refine countP_congr fun z hz => ?_
          rw [of_decide_eq_true (hsame z hz)]
      _ = (origins x.2).countP (Origin.since since' actorId) := by
          conv_rhs => rw [← map_snd_zip hlength.ge]
          rw [countP_map]
          rfl
  | _ => cases htally

theorem origins_append (new l : Log) : origins (new ++ l) = origins l ++ origins new := by
  simp [origins]

/-- A profile that has counted less than the cap has started less than that in the 24 hours before
its next insert, where nothing was inserted for it since. -/
theorem Kept.countP_lt_cap (h : Kept s x) (hcounted : Counted s i a (own x.2 i))
    (hquiet : quietSinceCount i a x.2) (ht : x.1.now ≤ t + dayMs) :
    (origins x.2).countP (Origin.within t (t + dayMs) a) < s.cap := by
  obtain ⟨v, since, n, hfind, hlt, w, hsince, hclock⟩ := hcounted
  rw [own, find?_filter] at hfind
  obtain ⟨hcounts, new, older, hl, hnew⟩ := find?_eq_some_iff_append.1 hfind
  have hnot : ∀ z ∈ new, counts i z = false := by
    intro z hz
    have hz' := hnew z hz
    cases hcz : counts i z with
    | false => rfl
    | true =>
      have hproc : z.proc = i := by
        unfold counts at hcz
        split at hcz
        · exact of_decide_eq_true hcz
        · cases hcz
      simp [hcz, hproc] at hz'
  -- nothing of the profile was inserted since the count
  have hnone : (origins new).countP (Origin.within t (t + dayMs) a) = 0 := by
    rw [quietSinceCount, hl, takeWhile_append_of_pos fun z hz => by simp [hnot z hz],
      takeWhile_cons_of_neg (by simp [counts]), append_nil] at hquiet
    refine countP_eq_zero.2 fun u hu hwithin => ?_
    obtain ⟨z, hz, hzu⟩ := mem_filterMap.1 (mem_reverse.1 hu)
    have hother := all_eq_true.1 hquiet z hz
    rw [hzu] at hother
    simp only [Origin.within, Origin.since, Bool.and_eq_true, decide_eq_true_eq] at hwithin
    exact of_decide_eq_true hother hwithin.1.1
  have hn : n = (origins older).countP (Origin.since since a) :=
    (every_iff.1 h.counted _ older ⟨new, hl.symm⟩ _ a n rfl).2
  have hnow : w.now ≤ x.1.now := h.clock _ (mem_of_own hclock)
  have hle : (origins older).countP (Origin.within t (t + dayMs) a) ≤
      (origins older).countP (Origin.since since a) := by
    refine countP_mono_left fun u _ hu => ?_
    simp only [Origin.within, Origin.since, Bool.and_eq_true, decide_eq_true_eq] at hu ⊢
    rw [hsince]
    exact ⟨hu.1.1, (Nat.sub_le_iff_le_add.2 (hnow.trans ht)).trans hu.1.2⟩
  rw [hl, origins_append, countP_append, hnone, Nat.add_zero, origins_cons, countP_append]
  calc _ = (origins older).countP (Origin.within t (t + dayMs) a) := by simp [origin]
    _ ≤ n := hn ▸ hle
    _ < s.cap := hlt

/-- An insert keeps to the cap. -/
theorem Kept.started_step (h : Kept s x) (hpre : Pre s i c x) (hg : orderly s x (.step i c ε))
    (a t : ℕ) (hcap : 0 < s.cap) :
    (origins (⟨i, x.1, c, (exec s x.1 ε c).2⟩ :: x.2)).countP (Origin.within t (t + dayMs) a) ≤
      s.cap := by
  have hold := h.started a t hcap
  rw [origins_cons, countP_append]
  cases hu : origin ⟨i, x.1, c, (exec s x.1 ε c).2⟩ with
  | none => simpa using hold
  | some u =>
    rw [Option.toList_some, countP_singleton]
    split
    · rename_i hwithin
      obtain ⟨o, workerId, employerId, applicationId, rfl, hfree, rfl⟩ := origin_exec hu
      simp only [Origin.within, Origin.since, Bool.and_eq_true, decide_eq_true_eq] at hwithin
      obtain ⟨⟨hstarter, -⟩, hstop⟩ := hwithin
      have hcounted := (hpre.2.2 a hstarter).resolve_left hcap.ne'
      cases o with
      | forApplication id actorId => cases hstarter
      | withProfile counterpartId actorId =>
        obtain rfl := Option.some.inj hstarter
        simp only [orderly, hfree, Bool.or_false, Bool.or_eq_true, decide_eq_true_eq] at hg
        exact h.countP_lt_cap hcounted (hg.resolve_left hcap.ne') hstop
    · exact hold

/-- A reply is the conversation that was found for it. -/
theorem Kept.replies_step (h : Kept s x) (hpre : Pre s i c x) :
    ∀ o id, replied ⟨i, x.1, c, (exec s x.1 ε c).2⟩ = some (o, id) → Answers s x.1 o id := by
  intro o id hreplied
  cases c with
  | reply o' id' =>
    obtain ⟨rfl, rfl⟩ := pair_inj hreplied
    obtain ⟨e, he, r, hr, hconcerns⟩ := hpre
    obtain ⟨u, hu, hpair⟩ := Option.map_eq_some_iff.1 (h.reported e (mem_of_own he) _ r hr)
    obtain ⟨row, hrow, hkey⟩ := h.row_of_origin hu
    simp only [Origin.pair, Prod.mk.injEq] at hpair
    simp only [Origin.key, Conversation.key, Prod.mk.injEq] at hkey
    refine ⟨row, hrow, ?_⟩
    rw [hkey.1, hkey.2.1, hpair.1, hpair.2]
    exact hconcerns
  | _ => cases hreplied

theorem Kept.step (h : Kept s x) (hpre : Pre s i c x) (hg : orderly s x (.step i c ε)) :
    Kept s ((exec s x.1 ε c).1, ⟨i, x.1, c, (exec s x.1 ε c).2⟩ :: x.2) where
  clock z hz := by
    rcases mem_cons.1 hz with rfl | hz
    · exact now_le_exec
    · exact (h.clock z hz).trans now_le_exec
  rows := h.rows_step
  roles := h.roles_step hpre
  pairs := h.pairs_step
  reported := h.reported_step
  counted := ⟨h.counted_step hpre hg, h.counted⟩
  started := h.started_step hpre hg
  replies := ⟨h.replies_step hpre, h.replies⟩

/-- A pair has one conversation, whoever of the two is asked first. -/
theorem Kept.unique (h : Kept s x) {j k : ℕ} {r r' : Conversation}
    (hr : x.1.conversations[j]? = some r) (hr' : x.1.conversations[k]? = some r')
    (hsame : r.SameParties r') : j = k := by
  obtain ⟨u, hu, hkey⟩ := h.origin_of_row hr
  obtain ⟨u', hu', hkey'⟩ := h.origin_of_row hr'
  simp only [Origin.key, Conversation.key, Prod.mk.injEq] at hkey hkey'
  rcases hsame with ⟨hworker, hemployer⟩ | ⟨hworker, hemployer⟩
  · have hpair : u.pair = u'.pair := by
      rw [Origin.pair, Origin.pair, hkey.1, hkey.2.1, hkey'.1, hkey'.2.1, hworker, hemployer]
    have hlt : j < ((origins x.2).map Origin.pair).length := by
      simpa using (List.getElem?_eq_some_iff.1 hu).1
    refine (getElem?_inj hlt h.pairs).1 ?_
    rw [getElem?_map, getElem?_map, hu, hu', Option.map_some, Option.map_some, hpair]
  · -- the worker of one would be the employer of the other
    have hw := (h.roles u (mem_of_getElem? hu)).1
    have he := (h.roles u' (mem_of_getElem? hu')).2
    rw [hkey.1, hworker] at hw
    rw [hkey'.2.1, hw] at he
    cases he

/-- **The daily cap.** In every orderly run a pair of profiles has at most one conversation, every
reply is the conversation of the pair that was asked for, no profile starts more direct
conversations than the cap in any 24 hours, and a call is refused only where its author has started
as many as the cap in the last 24 hours. -/
theorem daily_cap_kept {now : ℕ} {acts : List (Act Request Env Exn)} {c : Config State Resp Exn}
    (hrun : c ∈ (service s).traced.run (orderly s) ((service s).traced.idle ({ now }, [])) acts) :
    Capped s c.store := by
  have hstep : ∀ (x : State) i cmd (ε : Env) v r, True → Kept s x → Pre s i cmd x →
      orderly s x (.step i cmd ε) → (service s).exec x.1 i cmd ε = some (v, r) →
        Kept s (v, ⟨i, x.1, cmd, r⟩ :: x.2) := by
    intro x i cmd ε v r _ hJ hpre hg hexec
    obtain ⟨rfl, rfl⟩ := pair_inj hexec
    exact hJ.step hpre hg
  have hstart : Kept s (({ now } : World), []) :=
    { clock := by simp
      rows := rfl
      roles := by simp [origins]
      pairs := by simp [origins]
      reported := by simp
      counted := trivial
      started := by simp [origins]
      replies := trivial }
  obtain ⟨⟨-, hkept⟩, -⟩ := Contract.obeys_of_mem_run handles
    (fun _ => Discipline.stable_const True) (fun _ _ h => h) hstep hrun trivial hstart
  exact
    { unique := fun j k r r' hr hr' hsame => hkept.unique hr hr' hsame
      replies := hkept.replies
      started := hkept.started
      refused := by
        refine every_iff.2 fun e older hsuffix since a n htally => ?_
        obtain ⟨hday, rfl⟩ := every_iff.1 hkept.counted e older hsuffix since a n htally
        exact ⟨hday, id⟩ }

/-! ### One conversation a day -/

/-- Two employers and two workers, one of whom has applied to the first employer; one conversation
may be started in 24 hours. -/
def sampleSetting : Setting where
  profiles := [.employer, .worker, .worker, .employer]
  applications := [⟨1, 0⟩]
  maxNewConversations := some "1"
  roles := by decide

/-- `n` more calls of process `i`. -/
def calls (i n : ℕ) : List (Act Request Env Exn) := replicate n (.step i {})

/-- The request is handled by process `i` in `n` calls. -/
def handled (i n : ℕ) (r : Request) : List (Act Request Env Exn) := .spawn r :: calls i n

/-- The profile opens a conversation with another one, in `n` calls. -/
def writesTo (i n actorId counterpartId : ℕ) : List (Act Request Env Exn) :=
  handled i n (.opening (.withProfile counterpartId actorId))

/-- A run from no conversations. -/
def sampleRun (g : Guard State Cmd Request Env) (acts : List (Act Request Env Exn)) :
    Option (Config State Resp Exn) :=
  (service sampleSetting).traced.run g ((service sampleSetting).traced.idle ({}, [])) acts

/-- The first employer writes to one worker and the next day to the other. -/
def oneADay : List (Act Request Env Exn) :=
  writesTo 0 9 0 1 ++ handled 1 1 (.elapse (dayMs + 1)) ++ writesTo 2 9 0 2

theorem daily_cap_kept_oneADay : ∃ c ∈ sampleRun (orderly sampleSetting) oneADay,
    (origins c.store.2).map Origin.startedBy = [some 0, some 0] ∧ Capped sampleSetting c.store := by
  have hrun : (sampleRun (orderly sampleSetting) oneADay).map
      (fun c => (origins c.store.2).map Origin.startedBy) = some [some 0, some 0] := by
    decide +kernel
  obtain ⟨c, hc, hstarted⟩ := Option.map_eq_some_iff.1 hrun
  exact ⟨c, hc, hstarted, daily_cap_kept hc⟩

/-- Both calls of the employer count before either inserts. -/
def countedTogether : List (Act Request Env Exn) :=
  writesTo 0 7 0 1 ++ writesTo 1 9 0 2 ++ calls 0 2

/-- The employer starts a conversation, opens it again from the application of the worker, and
starts the next one. -/
def pointedAway : List (Act Request Env Exn) :=
  writesTo 0 9 0 1 ++ handled 1 4 (.opening (.forApplication 0 0)) ++ writesTo 2 9 0 2

/-- The employer writes to a worker, who then writes to another employer. -/
def refusedForOthers : List (Act Request Env Exn) :=
  writesTo 0 9 0 1 ++ writesTo 1 7 1 3

/-- **What goes wrong otherwise.** Where one conversation may be started in 24 hours, an employer
starts two of them, by counting twice before an insert or after pointing the first one at an
application; and a worker who has started none is refused. -/
theorem daily_cap_missed : (sampleRun Guard.all countedTogether).map (fun c =>
      (origins c.store.2).countP (Origin.within 0 dayMs 0)) = some 2 ∧
    (sampleRun Guard.all pointedAway).map (fun c =>
      (origins c.store.2).countP (Origin.within 0 dayMs 0)) = some 2 ∧
    (sampleRun Guard.all refusedForOthers).map (fun c => (c.store.2.filterMap tally,
      (origins c.store.2).countP (Origin.since 0 1), c.pool.map Op.done)) =
      some ([(0, 1, 1), (0, 0, 0)], 0, [true, true]) := by
  decide +kernel

end Rabotka.Chat
