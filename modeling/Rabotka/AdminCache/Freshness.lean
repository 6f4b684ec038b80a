import Rabotka.AdminCache.Cache

/-!
# What the admin cache answers after an invalidate

In orderly runs no `wrap` stores a value that its loader began to read before a write whose
invalidate has begun to scan for that key. Then every value in the cache is newer than the write of
each scan that has begun, or the scan still owes its key, or has its key in hand to delete
(`Kept.cached`); so once an invalidate has come to its end, no value it should have dropped is older
than its write, and no `wrap` that starts afterwards answers one (`answers_fresh`).

`answers_kept_stale` is the run in which a loader reads, a write and its invalidate come to their end,
and the loader's value is stored.
-/

namespace Rabotka.AdminCache

open Async Trace List

variable {i j : ℕ} {x : State} {l : Log} {p : Pattern} {key : Key} {value : Value}

/-! ### What is in the cache -/

/-- What is in the cache, for the scans that have begun. -/
structure Stored (x : State) : Prop where
  /-- A value is no older than the write of the scan's process, or the scan will drop it. -/
  cached : ∀ j p, Begun p (own x.2 j) → ∀ z ∈ x.1.cache, p.matches z.1 = true →
    Value.Since (floor (own x.2 j)) z.2 ∨ z.1 ∈ x.1.owed j p ∨ z.1 ∈ pending p (own x.2 j)
  ended : ∀ j p, lastCursor p (own x.2 j) = some 0 → x.1.owed j p = []
  floors : ∀ j, floor (own x.2 j) ≤ x.1.version

variable {c : Cmd} {r : Resp c} {w : World} {ε : Env}

/-- A scan that has begun has taken a step. -/
theorem Begun.exists_step (h : Begun p (own l j)) :
    ∃ e ∈ l, e.proc = j ∧ ∃ w cursor r, e = ⟨j, w, .scan p cursor, r⟩ := by
  obtain ⟨cursor, hcursor⟩ := Option.isSome_iff_exists.1 h
  obtain ⟨e, he, hshown⟩ := exists_of_findSome?_eq_some hcursor
  obtain ⟨hmem, hproc⟩ := mem_filter.1 he
  replace hproc := of_decide_eq_true hproc
  obtain ⟨proc, w, cmd, resp⟩ := e
  subst hproc
  cases cmd with
  | scan q c =>
    simp only [cursorShown] at hshown
    split_ifs at hshown with hq
    subst hq
    exact ⟨_, hmem, rfl, w, c, resp, rfl⟩
  | _ => cases hshown

/-- What a `set` finds in an orderly run. -/
theorem since_of_orderly (hg : orderly x (.step i (.set key value) ε)) (h : Begun p (own x.2 j))
    (hmatches : p.matches key = true) : value.Since (floor (own x.2 j)) := by
  obtain ⟨e, he, -, w, cursor, r, rfl⟩ := h.exists_step
  have hstep := all_eq_true.1 hg _ he
  simpa [setOrderly, hmatches] using hstep

/-- The steps of a process with one more step of the run. -/
theorem own_cons (e : Step) (l : Log) (j : ℕ) :
    own (e :: l) j = if e.proc = j then e :: own l j else own l j := by
  split_ifs with h
  · exact own_cons_self h l
  · exact own_cons_of_ne h l

/-- A step that is not part of a scan, no deletion and no write. -/
structure Quiet (e : Step) : Prop where
  written : written e = none
  cursor : ∀ p, cursorShown p e = none
  pending : ∀ p l, pending p (e :: l) = pending p l

theorem Quiet.own {e : Step} (h : Quiet e) (l : Log) (j : ℕ) :
    floor (own (e :: l) j) = floor (own l j) ∧
      (∀ p, lastCursor p (own (e :: l) j) = lastCursor p (own l j)) ∧
      ∀ p, AdminCache.pending p (own (e :: l) j) = AdminCache.pending p (own l j) := by
  rw [own_cons]
  split_ifs with hproc
  · refine ⟨floor_cons h.written, fun p => ?_, fun p => h.pending p _⟩
    rw [lastCursor, findSome?_cons, h.cursor p]
    rfl
  · exact ⟨rfl, fun _ => rfl, fun _ => rfl⟩

/-- A quiet step that adds nothing but fresh values to the cache. -/
theorem Stored.quiet (h : Stored x) {e : Step} (he : Quiet e)
    (hcache : ∀ z ∈ w.cache, z ∈ x.1.cache ∨ ∀ j p, Begun p (own x.2 j) → p.matches z.1 = true →
      Value.Since (floor (own x.2 j)) z.2)
    (howed : w.owed = x.1.owed) (hversion : w.version = x.1.version) :
    Stored (w, e :: x.2) := by
  refine ⟨fun j p hbegun z hz hmatches => ?_, fun j p hlast => ?_, fun j => ?_⟩
  · obtain ⟨hfloor, hlast, hpending⟩ := he.own x.2 j
    rw [Begun, hlast] at hbegun
    simp only [hfloor, hpending, howed]
    rcases hcache z hz with hz | hz
    · exact h.cached j p hbegun z hz hmatches
    · exact .inl (hz j p hbegun hmatches)
  · rw [(he.own x.2 j).2.1] at hlast
    simp only [howed]
    exact h.ended j p hlast
  · simp only [(he.own x.2 j).1, hversion]
    exact h.floors j

/-- Keys go, by a deletion or because they expire. -/
theorem Stored.remove (h : Stored x) {e : Step} {keys : List Key} (hwritten : written e = none)
    (hcursor : ∀ p, cursorShown p e = none)
    (hpending : ∀ p l, ∀ key ∈ pending p l, key ∉ keys → key ∈ pending p (e :: l)) :
    Stored (x.1.remove keys, e :: x.2) := by
  have hown : ∀ j, floor (own (e :: x.2) j) = floor (own x.2 j) ∧
      (∀ p, lastCursor p (own (e :: x.2) j) = lastCursor p (own x.2 j)) ∧
      ∀ p, ∀ key ∈ pending p (own x.2 j), key ∉ keys → key ∈ pending p (own (e :: x.2) j) := by
    intro j
    rw [own_cons]
    split_ifs with hproc
    · refine ⟨floor_cons hwritten, fun p => ?_, fun p => hpending p _⟩
      rw [lastCursor, findSome?_cons, hcursor p]
      rfl
    · exact ⟨rfl, fun _ => rfl, fun _ _ hkey _ => hkey⟩
  refine ⟨fun j p hbegun z hz hmatches => ?_, fun j p hlast => ?_, fun j => ?_⟩
  · obtain ⟨hfloor, hlast, hkeep⟩ := hown j
    obtain ⟨hz, hgone⟩ := mem_filter.1 hz
    replace hgone := of_decide_eq_true hgone
    rw [Begun, hlast] at hbegun
    rw [hfloor]
    rcases h.cached j p hbegun z hz hmatches with hsince | howed | hpend
    · exact .inl hsince
    · exact .inr (.inl (mem_filter.2 ⟨howed, decide_eq_true hgone⟩))
    · exact .inr (.inr (hkeep p z.1 hpend hgone))
  · rw [(hown j).2.1] at hlast
    change (x.1.owed j p).filter _ = []
    rw [h.ended j p hlast]
    rfl
  · rw [(hown j).1]
    exact h.floors j

theorem scan_spec {cursor : ℕ} {r : ℕ × List Key} (h : x.1.scan i p cursor ε = some (w, r)) :
    w.cache = x.1.cache ∧ w.version = x.1.version ∧ (r.1 = 0 → w.owed i p = []) ∧
      (∀ j q, (j = i → q ≠ p) → w.owed j q = x.1.owed j q) ∧
      ∀ key, key ∈ (if cursor = 0 then x.1.matching p else x.1.owed i p) →
        key ∈ w.owed i p ∨ key ∈ r.2 := by
  simp only [World.scan, Option.ite_none_right_eq_some, Option.some.injEq, Prod.mk.injEq] at h
  obtain ⟨hok, rfl, rfl⟩ := h
  simp only [Bool.and_eq_true, Bool.or_eq_true, decide_eq_true_eq] at hok
  refine ⟨rfl, rfl, fun hzero => ?_, fun j q hother => ?_, fun key hkey => ?_⟩
  · simp only [Function.update_self]
    exact hok.2.resolve_left fun hne => hne hzero
  · rcases eq_or_ne j i with rfl | hj
    · simp only [Function.update_self, Function.update_of_ne (hother rfl)]
    · simp only [Function.update_of_ne hj]
  · simp only [Function.update_self]
    by_cases hin : key ∈ ε.keys
    · exact .inr hin
    · exact .inl (mem_filter.2 ⟨hkey, decide_eq_true hin⟩)

/-- A batch: what is owed or found to match stays owed, or is in hand. -/
theorem Stored.scan (h : Stored x) {cursor : ℕ} {r : ℕ × List Key}
    (hpre : cursor = 0 ∨ Begun p (own x.2 i)) (hexec : x.1.scan i p cursor ε = some (w, r)) :
    Stored (w, ⟨i, x.1, .scan p cursor, r⟩ :: x.2) := by
  obtain ⟨hcache, hversion, hended, hother, hkeep⟩ := scan_spec hexec
  refine ⟨fun j q hbegun z hz hmatches => ?_, fun j q hlast => ?_, fun j => ?_⟩
  · simp only [hcache] at hz
    rw [own_cons] at hbegun ⊢
    split_ifs at hbegun ⊢ with hj
    · obtain rfl : i = j := hj
      rw [floor_cons rfl, pending_scan]
      rw [Begun, lastCursor_scan] at hbegun
      split_ifs at hbegun ⊢ with hq
      · subst hq
        -- a first batch is taken from all that matches, a later one from what is owed
        by_cases hcursor : cursor = 0
        · rw [if_pos hcursor] at hkeep
          have hmatching : z.1 ∈ x.1.matching p :=
            mem_filter.2 ⟨mem_map_of_mem hz, hmatches⟩
          rcases hkeep z.1 hmatching with howed | hkey
          · exact .inr (.inl howed)
          · exact .inr (.inr (mem_append_left _ hkey))
        · rw [if_neg hcursor] at hkeep
          rcases h.cached i p (hpre.resolve_left hcursor) z hz hmatches with hsince | howed | hpend
          · exact .inl hsince
          · rcases hkeep z.1 howed with howed | hkey
            · exact .inr (.inl howed)
            · exact .inr (.inr (mem_append_left _ hkey))
          · exact .inr (.inr (mem_append_right _ hpend))
      · simp only [hother i q fun _ hqp => hq hqp.symm]
        exact h.cached i q hbegun z hz hmatches
    · simp only [hother j q fun hji => absurd hji.symm hj]
      exact h.cached j q hbegun z hz hmatches
  · rw [own_cons] at hlast
    split_ifs at hlast with hj
    · obtain rfl : i = j := hj
      rw [lastCursor_scan] at hlast
      split_ifs at hlast with hq
      · subst hq
        exact hended (Option.some_inj.1 hlast)
      · simp only [hother i q fun _ hqp => hq hqp.symm]
        exact h.ended i q hlast
    · simp only [hother j q fun hji => absurd hji.symm hj]
      exact h.ended j q hlast
  · simp only [hversion]
    rw [own_cons]
    split_ifs with hj
    · rw [floor_cons rfl]
      exact h.floors j
    · exact h.floors j

/-- The write of a process is its first step. -/
theorem Stored.write (h : Stored x) {entity : String} (hfirst : own x.2 i = []) :
    Stored ({ x.1 with version := x.1.version + 1 },
      ⟨i, x.1, .write entity, x.1.version + 1⟩ :: x.2) := by
  refine ⟨fun j p hbegun z hz hmatches => ?_, fun j p hlast => ?_, fun j => ?_⟩
  · rw [own_cons] at hbegun ⊢
    split_ifs at hbegun ⊢ with hj
    · obtain rfl : i = j := hj
      rw [hfirst] at hbegun
      cases hbegun
    · exact h.cached j p hbegun z hz hmatches
  · rw [own_cons] at hlast
    split_ifs at hlast with hj
    · obtain rfl : i = j := hj
      rw [hfirst] at hlast
      cases hlast
    · exact h.ended j p hlast
  · rw [own_cons]
    split_ifs with hj
    · exact le_rfl
    · exact (h.floors j).trans (Nat.le_succ _)

theorem Stored.step (h : Stored x) (hpre : Pre c (own x.2 i)) (hg : orderly x (.step i c ε))
    (hexec : exec x.1 i c ε = some (w, r)) : Stored (w, ⟨i, x.1, c, r⟩ :: x.2) := by
  cases c with
  | scan p cursor => exact h.scan hpre hexec
  | write entity =>
    obtain ⟨rfl, rfl⟩ := pair_inj hexec
    exact h.write hpre
  | del keys =>
    obtain ⟨rfl, rfl⟩ := pair_inj hexec
    exact h.remove rfl (fun _ => rfl) fun p l key hkey hgone =>
      mem_filter.2 ⟨hkey, decide_eq_true hgone⟩
  | expire key =>
    obtain ⟨rfl, rfl⟩ := pair_inj hexec
    exact h.remove rfl (fun _ => rfl) fun p l key hkey _ => hkey
  | set key value =>
    obtain ⟨rfl, rfl⟩ := pair_inj hexec
    refine h.quiet ⟨rfl, fun _ => rfl, fun _ _ => rfl⟩ (fun z hz => ?_) rfl rfl
    rcases mem_cons.1 hz with rfl | hz
    · exact .inr fun j p hbegun hmatches => since_of_orderly hg hbegun hmatches
    · exact .inl (mem_of_mem_filter hz)
  | _ =>
    obtain ⟨rfl, rfl⟩ := pair_inj hexec
    exact h.quiet ⟨rfl, fun _ => rfl, fun _ _ => rfl⟩ (fun z hz => .inl hz) rfl rfl

/-! ### What is answered -/

/-- The `invalidate` of an entity has come to its end, after the write that made the version. -/
def Ended (m : Step) (entity : String) (version : ℕ) : Prop := m.cmd = .invalidated entity version

/-- The entity's `invalidate` drops the key. -/
def Drops (entity : String) (key : Key) : Prop := ∃ p ∈ patterns entity, p.matches key = true

/-- What the steps of a run show, for the invalidates that have come to their end. -/
structure Kept (x : State) : Prop where
  stored : Stored x
  dropped : ∀ m ∈ x.2, ∀ entity version, Ended m entity version →
    version ≤ floor (own x.2 m.proc) ∧ (∀ p ∈ patterns entity, Begun p (own x.2 m.proc)) ∧
      ∀ z ∈ x.1.cache, Drops entity z.1 → Value.Since version z.2
  hits : Every (fun e older => ∀ key value w i, e = ⟨i, w, .get key, some value⟩ →
    ∀ m ∈ older, ∀ entity version, Ended m entity version → Drops entity key →
      Value.Since version value) x.2
  reads : Every (fun e older => ∀ v w i, e = ⟨i, w, .read, v⟩ →
    ∀ m ∈ older, ∀ entity version, Ended m entity version → version ≤ v) x.2
  answers : Every (fun e older => ∀ key value, e.cmd = .answer key value →
    Sourced key value (own older e.proc)) x.2

theorem Begun.cons (h : Begun p (own l j)) (e : Step) : Begun p (own (e :: l) j) := by
  rw [own_cons]
  split_ifs with hj
  · rw [Begun, lastCursor, findSome?_cons]
    cases cursorShown p e with
    | none => exact h
    | some cursor => rfl
  · exact h

/-- A later write only makes the version higher. -/
theorem floor_le_cons (h : Stored x) (c : Cmd) (r : Resp c) :
    floor (own x.2 j) ≤ floor (own (⟨i, x.1, c, r⟩ :: x.2) j) := by
  rw [own_cons]
  split_ifs with hj
  · cases c with
    | write entity => exact (h.floors j).trans (Nat.le_succ _)
    | _ =>
      rw [floor_cons rfl]
  · exact le_rfl

/-- What a step leaves in the cache was there, or is what it stores. -/
theorem mem_cache_of_exec (hexec : exec x.1 i c ε = some (w, r)) {z : Key × Value}
    (hz : z ∈ w.cache) : z ∈ x.1.cache ∨ ∃ key value, c = .set key value ∧ z = (key, value) := by
  cases c with
  | scan p cursor =>
    rw [(scan_spec hexec).1] at hz
    exact .inl hz
  | set key value =>
    obtain ⟨rfl, rfl⟩ := pair_inj hexec
    rcases mem_cons.1 hz with rfl | hz
    · exact .inr ⟨key, value, rfl, rfl⟩
    · exact .inl (mem_of_mem_filter hz)
  | del | expire =>
    obtain ⟨rfl, rfl⟩ := pair_inj hexec
    exact .inl (mem_of_mem_filter hz)
  | _ =>
    obtain ⟨rfl, rfl⟩ := pair_inj hexec
    exact .inl hz

theorem Value.Since.mono {version version' : ℕ} (h : value.Since version')
    (hle : version ≤ version') : value.Since version :=
  fun v hv => hle.trans (h v hv)

/-- An invalidate that has come to its end has dropped what was older. -/
theorem Stored.dropped (h : Stored x) {entity : String} {version : ℕ}
    (hpre : Pre (.invalidated entity version) (own x.2 i)) {z : Key × Value}
    (hz : z ∈ x.1.cache) (hdrops : Drops entity z.1) : Value.Since version z.2 := by
  obtain ⟨rfl, hended⟩ := hpre
  obtain ⟨p, hp, hmatches⟩ := hdrops
  obtain ⟨hlast, hpending⟩ := hended p hp
  have hbegun : Begun p (own x.2 i) := by
    rw [Begun, hlast]
    rfl
  rcases h.cached i p hbegun z hz hmatches with hsince | howed | hpend
  · exact hsince
  · rw [h.ended i p hlast] at howed
    cases howed
  · rw [hpending] at hpend
    cases hpend

theorem Kept.step (h : Kept x) (hpre : Pre c (own x.2 i)) (hg : orderly x (.step i c ε))
    (hexec : exec x.1 i c ε = some (w, r)) : Kept (w, ⟨i, x.1, c, r⟩ :: x.2) := by
  refine ⟨h.stored.step hpre hg hexec, fun m hm entity version hended => ?_,
    ⟨fun key value v j heq m hm entity version hended hdrops => ?_, h.hits⟩,
    ⟨fun v v' j heq m hm entity version hended => ?_, h.reads⟩,
    ⟨fun key value hcmd => ?_, h.answers⟩⟩
  · rcases mem_cons.1 hm with rfl | hm
    · obtain rfl : c = .invalidated entity version := hended
      obtain ⟨rfl, rfl⟩ := pair_inj hexec
      refine ⟨?_, fun p hp => ?_, fun z hz hdrops => h.stored.dropped hpre hz hdrops⟩
      · exact hpre.1.le.trans (floor_le_cons h.stored _ _)
      · refine Begun.cons ?_ _
        rw [Begun, (hpre.2 p hp).1]
        rfl
    · obtain ⟨hfloor, hbegun, hdropped⟩ := h.dropped m hm entity version hended
      refine ⟨hfloor.trans (floor_le_cons h.stored c r), fun p hp => (hbegun p hp).cons _,
        fun z hz hdrops => ?_⟩
      rcases mem_cache_of_exec hexec hz with hz | ⟨key, value, rfl, rfl⟩
      · exact hdropped z hz hdrops
      · obtain ⟨p, hp, hmatches⟩ := hdrops
        exact (since_of_orderly hg (hbegun p hp) hmatches).mono hfloor
  · -- what is found in the cache is no older than the invalidates before
    obtain ⟨rfl, rfl, hrest⟩ := Entry.mk.inj heq
    obtain ⟨rfl, hr⟩ := hrest
    obtain rfl := eq_of_heq hr
    obtain ⟨rfl, hget⟩ := pair_inj hexec
    obtain ⟨z, hz, rfl⟩ := Option.map_eq_some_iff.1 hget
    have hkey : z.1 = key := by simpa using find?_some hz
    exact (h.dropped m hm entity version hended).2.2 z (mem_of_find?_eq_some hz) (hkey ▸ hdrops)
  · obtain ⟨rfl, rfl, hrest⟩ := Entry.mk.inj heq
    obtain ⟨rfl, hr⟩ := hrest
    obtain rfl := eq_of_heq hr
    obtain ⟨rfl, rfl⟩ := pair_inj hexec
    exact (h.dropped m hm entity version hended).1.trans (h.stored.floors _)
  · obtain rfl : c = .answer key value := hcmd
    exact hpre

/-- Every answer of a `wrap` that starts after an `invalidate` has come to its end is no older than
the write before that. -/
def FreshAnswers (l : Log) : Prop :=
  ∀ newer m older, l = newer ++ m :: older → ∀ entity version, Ended m entity version →
    ∀ e ∈ newer, ∀ key value, e.cmd = .answer key value → Drops entity key →
      (∀ s ∈ older, s.proc ≠ e.proc) → Value.Since version value

theorem Kept.freshAnswers (h : Kept x) : FreshAnswers x.2 := by
  intro newer m older hl entity version hended e he key value hcmd hdrops hstart v hv
  obtain ⟨first, last, rfl⟩ := append_of_mem he
  have hsuffix : e :: (last ++ m :: older) <:+ x.2 := ⟨first, by simp [hl]⟩
  have hafter : ∀ s ∈ own (last ++ m :: older) e.proc, s.cmd ≠ m.cmd →
      ∃ before, s :: before <:+ x.2 ∧ m ∈ before := by
    intro s hs hne
    obtain ⟨hmem, hproc⟩ := mem_filter.1 hs
    replace hproc := of_decide_eq_true hproc
    rcases mem_append.1 hmem with hmem | hmem
    · obtain ⟨a, b, rfl⟩ := append_of_mem hmem
      exact ⟨b ++ m :: older, ⟨first ++ e :: a, by simp [hl]⟩, by simp⟩
    · rcases mem_cons.1 hmem with rfl | hmem
      · exact absurd rfl hne
      · exact absurd hproc (hstart s hmem)
  rcases every_iff.1 h.answers e _ hsuffix key value hcmd with ⟨s, hs, w, j, rfl⟩ | hread
  · obtain ⟨before, hbefore, hm⟩ := hafter _ hs (by rw [hended]; exact nofun)
    exact every_iff.1 h.hits _ _ hbefore key value w j rfl m hm entity version hended hdrops v hv
  · obtain ⟨s, hs, w, j, rfl⟩ := hread v hv
    obtain ⟨before, hbefore, hm⟩ := hafter _ hs (by rw [hended]; exact nofun)
    exact every_iff.1 h.reads _ _ hbefore v w j rfl m hm entity version hended

/-- **The admin cache does not serve what a write made stale.** In every orderly run, a `wrap` whose
first call comes after an `invalidate` that has come to its end without a failure of Redis answers
a value with no read from before the write that the `invalidate` followed. -/
theorem answers_fresh {acts : List (Act Request Env Exn)} {c : Config State Resp Exn}
    (hrun : c ∈ service.traced.run orderly (service.traced.idle ({}, [])) acts) :
    FreshAnswers c.store.2 := by
  have hstep : ∀ (x : State) i cmd (ε : Env) w r, True → Kept x → Pre cmd (own x.2 i) →
      orderly x (.step i cmd ε) → service.exec x.1 i cmd ε = some (w, r) →
        Kept (w, ⟨i, x.1, cmd, r⟩ :: x.2) :=
    fun _ _ _ _ _ _ _ hJ hpre hg hexec => hJ.step hpre hg hexec
  have hstart : Kept (({} : World), []) :=
    { stored :=
        { cached := fun _ _ h => nomatch h
          ended := fun _ _ h => nomatch h
          floors := fun _ => le_rfl }
      dropped := fun _ h => nomatch h
      hits := trivial
      reads := trivial
      answers := trivial }
  obtain ⟨⟨-, hkept⟩, -⟩ := Contract.obeys_of_mem_run handles
    (fun _ => Discipline.stable_const True) (fun _ _ h => h) hstep hrun trivial hstart
  exact hkept.freshAnswers

/-! ### One list -/

def sampleKey : Key := .list "profile" "{}"

/-- A run from an empty cache. -/
def sampleRun (g : Guard State Cmd Request Env) (acts : List (Act Request Env Exn)) :
    Option (Config State Resp Exn) :=
  service.traced.run g (service.traced.idle ({}, [])) acts

/-- `n` more calls of process `i`, with one batch for each scan. -/
def calls (i n : ℕ) (keys : List Key := []) : List (Act Request Env Exn) :=
  replicate n (.step i { keys })

/-- What was answered, and which invalidates have come to their end, the last one first. -/
def shown (l : Log) : List (Value ⊕ ℕ) :=
  l.filterMap fun e =>
    match e.cmd with
    | .answer _ value => some (.inl value)
    | .invalidated _ version => some (.inr version)
    | _ => none

/-- A list is loaded and stored; an admin writes; the list is loaded again. -/
def loadsAgain : List (Act Request Env Exn) :=
  .spawn (.wrap sampleKey 2) :: calls 0 5 ++ .spawn (.mutate "profile" 4) :: calls 1 2 ++
    calls 1 1 [sampleKey] ++ calls 1 5 ++ .spawn (.wrap sampleKey 2) :: calls 2 5

theorem answers_fresh_loadsAgain : ∃ c ∈ sampleRun orderly loadsAgain,
    shown c.store.2 = [.inl [1, 1], .inr 1, .inl [0, 0]] ∧ FreshAnswers c.store.2 := by
  have hrun : (sampleRun orderly loadsAgain).map (fun c => shown c.store.2) =
      some [.inl [1, 1], .inr 1, .inl [0, 0]] := by
    decide +kernel
  obtain ⟨c, hc, hshown⟩ := Option.map_eq_some_iff.1 hrun
  exact ⟨c, hc, hshown, answers_fresh hc⟩

/-- A loader has read when an admin writes; its value is stored after the invalidate. -/
def storesLate : List (Act Request Env Exn) :=
  .spawn (.wrap sampleKey 1) :: calls 0 2 ++ .spawn (.mutate "profile" 3) :: calls 1 6 ++
    calls 0 2 ++ .spawn (.wrap sampleKey 1) :: calls 2 2

/-- The answer is older than an invalidate that came to its end before its process had started. -/
def staleAfter (m : Step) (older : Log) (e : Step) : Bool :=
  match m.cmd, e.cmd with
  | .invalidated entity version, .answer key value =>
    (patterns entity).any (fun p => p.matches key) && older.all (fun s => s.proc ≠ e.proc) &&
      !decide (value.Since version)
  | _, _ => false

/-- One of the steps is, behind others. -/
def stale (newer : Log) : Log → Bool
  | [] => false
  | m :: older => newer.any (staleAfter m older) || stale (newer ++ [m]) older

theorem not_freshAnswers {newer : Log} (h : stale newer l = true) : ¬FreshAnswers (newer ++ l) := by
  induction l generalizing newer with
  | nil => cases h
  | cons m older ih =>
    rw [stale, Bool.or_eq_true] at h
    rcases h with h | h
    · obtain ⟨e, he, hstale⟩ := any_eq_true.1 h
      unfold staleAfter at hstale
      split at hstale
      · rename_i entity version key value hended hanswer
        simp only [Bool.and_eq_true, any_eq_true, all_eq_true, decide_eq_true_eq,
          Bool.not_eq_true', decide_eq_false_iff_not] at hstale
        obtain ⟨⟨hdrops, hstart⟩, hold⟩ := hstale
        exact fun hfresh =>
          hold (hfresh newer m older rfl entity version hended e he key value hanswer hdrops hstart)
      · cases hstale
    · have := ih h
      rwa [append_assoc] at this

/-- **What goes wrong otherwise.** The last answer is older than the invalidate before it. -/
theorem answers_kept_stale : ∃ c ∈ sampleRun Guard.all storesLate,
    shown c.store.2 = [.inl [0], .inl [0], .inr 1] ∧ ¬FreshAnswers c.store.2 := by
  have hrun : (sampleRun Guard.all storesLate).map
      (fun c => (shown c.store.2, stale [] c.store.2)) =
        some ([.inl [0], .inl [0], .inr 1], true) := by
    decide +kernel
  obtain ⟨c, hc, hshown⟩ := Option.map_eq_some_iff.1 hrun
  obtain ⟨hshown, hstale⟩ := Prod.mk.inj hshown
  exact ⟨c, hc, hshown, not_freshAnswers hstale⟩

end Rabotka.AdminCache
