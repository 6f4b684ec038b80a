import Mathlib.Data.Rat.Floor
import Rabotka.Lib.Volatile

/-!
# The rate limiter

`RedisThrottlerStorage.increment`: a hit of a caller is counted in a window, and the caller is
blocked once the limit is passed. The script of `hitScript` runs as one step of Redis, at one
millisecond. A caller has two keys, the counter of hits and the marker of a block.

The two keys hold one of three standings of the caller (`Standing`), which is what the limiter is
for; `increments_exact_iff` compares the two. A window lasts as long as its counter exists, so the
millisecond in which it expires is in it. A block is over after its duration. In the millisecond in
which a block ends both keys still exist with no time left: the marker no longer counts, the counter
does, and a hit that comes just then is refused and starts the block again.
-/

namespace Rabotka.Throttling

open Volatile List

/-! ### The script -/

/-- What the script returns. -/
structure Reply where
  hits : ℕ
  windowLeftMs : ℤ
  blocked : Bool
  blockLeftMs : ℤ
  deriving DecidableEq

/-- `HIT_SCRIPT` at the millisecond `now`. -/
def hitScript (now : ℕ) (hitsKey blockKey : String) (window limit block : ℕ)
    (s : Store String) : Store String × Reply :=
  let blockLeft := s.pttl now blockKey
  if blockLeft > 0 then
    (s, ⟨(s.get now hitsKey).getD 0, max (s.pttl now hitsKey) 0, true, blockLeft⟩)
  else
    let (s, hits) := s.incr now hitsKey
    let left := s.pttl now hitsKey
    let (s, left) := if left < 0 then (s.pexpire now hitsKey window, (window : ℤ)) else (s, left)
    if hits > limit then
      let s := s.setPx now blockKey 1 block
      let s := s.pexpire now hitsKey block
      (s, ⟨hits, block, true, block⟩)
    else
      (s, ⟨hits, left, false, 0⟩)

/-! ### The storage -/

/-- `positive`, of a number that is `none` where it is not finite. -/
def positive (value : Option ℚ) (fallback : ℕ) : ℕ :=
  match value with
  | some n => if n > 0 then ⌊n⌋.toNat else fallback
  | none => fallback

/-- A number of milliseconds or hits is itself. -/
theorem positive_natCast {n : ℕ} (h : 0 < n) (fallback : ℕ) : positive (some n) fallback = n := by
  simp [positive, h]

/-- `ThrottlerStorageRecord`. -/
structure ThrottlerStorageRecord where
  totalHits : ℕ
  timeToExpire : ℤ
  isBlocked : Bool
  timeToBlockExpire : ℤ
  deriving DecidableEq

/-- `Math.ceil(ms / 1000)`. -/
def ceilSeconds (ms : ℤ) : ℤ := ⌈(ms / 1000 : ℚ)⌉

@[simp]
theorem ceilSeconds_zero : ceilSeconds 0 = 0 := by simp [ceilSeconds]

/-- A call of `increment`: the millisecond at which Redis runs the script, and whether it can be
reached. -/
structure Hit where
  key : String
  ttl : Option ℚ
  limit : Option ℚ
  blockDuration : Option ℚ
  throttlerName : String
  now : ℕ
  reached : Bool := true
  deriving DecidableEq

/-- `base`: what the two keys of a caller share. `keyPrefix` is `REDIS_KEY_PREFIX`. -/
def Hit.base (keyPrefix : String) (hit : Hit) : String :=
  keyPrefix ++ "throttle:" ++ hit.throttlerName ++ ":" ++ hit.key

/-- `increment`. Where Redis cannot be reached the hit is let through. -/
def increment (keyPrefix : String) (s : Store String) (hit : Hit) :
    Store String × ThrottlerStorageRecord :=
  let windowMs := positive hit.ttl 60000
  let max := positive hit.limit 100
  let blockMs := positive hit.blockDuration windowMs
  let base := hit.base keyPrefix
  if hit.reached then
    let (s, reply) := hitScript hit.now (base ++ ":hits") (base ++ ":block") windowMs max blockMs s
    (s, { totalHits := reply.hits
          timeToExpire := ceilSeconds reply.windowLeftMs
          isBlocked := reply.blocked
          timeToBlockExpire := ceilSeconds reply.blockLeftMs })
  else
    (s, { totalHits := 0
          timeToExpire := ceilSeconds windowMs
          isBlocked := false
          timeToBlockExpire := 0 })

/-- The answers to hits of any callers, one after the other. -/
def increments (keyPrefix : String) : Store String → List Hit → List (Hit × ThrottlerStorageRecord)
  | _, [] => []
  | s, hit :: hits =>
    (hit, (increment keyPrefix s hit).2) :: increments keyPrefix (increment keyPrefix s hit).1 hits

/-- What the limiter tells a caller: whether it is blocked, and for how many more seconds. -/
def ThrottlerStorageRecord.verdict (r : ThrottlerStorageRecord) : Bool × ℤ :=
  (r.isBlocked, r.timeToBlockExpire)

variable (keyPrefix caller : String)

/-- The hits of a caller that reach Redis. -/
def Hit.IsOf (hit : Hit) : Prop := hit.base keyPrefix = caller ∧ hit.reached

instance (hit : Hit) : Decidable (hit.IsOf keyPrefix caller) :=
  inferInstanceAs (Decidable (_ ∧ _))

/-- What a caller is told at its hits, in a run of hits of all callers. -/
def told (s : Store String) (hits : List Hit) : List (Bool × ℤ) :=
  ((increments keyPrefix s hits).filter fun p => p.1.IsOf keyPrefix caller).map fun p =>
    p.2.verdict

/-- The milliseconds of the hits of a caller. -/
def hitTimes (hits : List Hit) : List ℕ :=
  (hits.filter fun hit => hit.IsOf keyPrefix caller).map Hit.now

/-! ### What the limiter is for -/

/-- Where a caller stands: without a window, with some hits let through in a window that lasts up
to `ends`, or blocked before `ends`. -/
inductive Standing
  | free
  | window (ends count : ℕ)
  | blocked (ends : ℕ)
  deriving DecidableEq

section Standing

variable (window limit block : ℕ)

/-- The hit that is let through as the first of a window. -/
def Standing.fresh (now : ℕ) : Standing × (Bool × ℤ) := (.window (now + window) 1, (false, 0))

/-- A hit: where the caller stands after it, and what it is told. -/
def Standing.hit (now : ℕ) : Standing → Standing × (Bool × ℤ)
  | .free => fresh window now
  | .window ends count =>
    if ends < now then fresh window now
    else if count < limit then (.window ends (count + 1), (false, 0))
    else (.blocked (now + block), (true, ceilSeconds block))
  | .blocked ends =>
    if now < ends then (.blocked ends, (true, ceilSeconds (ends - now)))
    else fresh window now

/-- What a caller is told at its hits. -/
def Standing.told : Standing → List ℕ → List (Bool × ℤ)
  | _, [] => []
  | st, now :: times =>
    (st.hit window limit block now).2 :: told (st.hit window limit block now).1 times

/-- A hit comes in the very millisecond in which a block ends. -/
def Standing.MeetsEnd : Standing → List ℕ → Prop
  | _, [] => False
  | st, now :: times => st = .blocked now ∨ MeetsEnd (st.hit window limit block now).1 times

instance decidableMeetsEnd : ∀ (st : Standing) (times : List ℕ),
    Decidable (st.MeetsEnd window limit block times)
  | _, [] => isFalse id
  | st, now :: times =>
    have := decidableMeetsEnd (st.hit window limit block now).1 times
    inferInstanceAs (Decidable (_ ∨ _))

end Standing

/-! ### The script, case by case -/

section Script

variable {now window limit block count ends : ℕ} {hitsKey blockKey : String} {s : Store String}

theorem hitScript_of_blocked (h : 0 < s.pttl now blockKey) :
    hitScript now hitsKey blockKey window limit block s =
      (s, ⟨(s.get now hitsKey).getD 0, max (s.pttl now hitsKey) 0, true, s.pttl now blockKey⟩) := by
  simp only [hitScript, gt_iff_lt, if_pos h]

/-- The first hit of a window. -/
theorem hitScript_first (hblock : s.pttl now blockKey ≤ 0) (hhits : s.read now hitsKey = none)
    (hlimit : 0 < limit) :
    hitScript now hitsKey blockKey window limit block s =
      (Function.update s hitsKey (some ⟨1, some (now + window)⟩), ⟨1, window, false, 0⟩) := by
  have hread : Store.read (Function.update s hitsKey (some ⟨1, none⟩)) now hitsKey =
      some ⟨1, none⟩ := Store.read_of_none (Function.update_self ..)
  have hleft : Store.pttl (Function.update s hitsKey (some ⟨1, none⟩)) now hitsKey < 0 := by
    rw [Store.pttl_of_forever hread]
    decide
  have hover : ¬ 1 > limit := by omega
  simp only [hitScript, gt_iff_lt, if_neg (not_lt.2 hblock), Store.incr_of_none hhits, if_pos hleft,
    if_neg hover, Store.pexpire_of_some hread, Function.update_idem]

section Counted

variable (hblock : s.pttl now blockKey ≤ 0) (hhits : s hitsKey = some ⟨count, some ends⟩)
  (hle : now ≤ ends)

include hblock hhits hle

/-- A further hit that is let through. -/
theorem hitScript_next (hcount : count < limit) :
    hitScript now hitsKey blockKey window limit block s =
      (Function.update s hitsKey (some ⟨count + 1, some ends⟩),
        ⟨count + 1, (ends - now : ℤ), false, 0⟩) := by
  have hread : Store.read (Function.update s hitsKey (some ⟨count + 1, some ends⟩)) now hitsKey =
      some ⟨count + 1, some ends⟩ := Store.read_of_le (Function.update_self ..) hle
  have hleft : ¬ (ends - now : ℤ) < 0 := by omega
  have hover : ¬ count + 1 > limit := by omega
  simp only [hitScript, gt_iff_lt, if_neg (not_lt.2 hblock),
    Store.incr_of_some (Store.read_of_le hhits hle), Store.pttl_of_some hread, if_neg hleft,
    if_neg hover]

/-- The hit that passes the limit. -/
theorem hitScript_over (hne : hitsKey ≠ blockKey) (hcount : limit ≤ count) :
    hitScript now hitsKey blockKey window limit block s =
      (Function.update (Function.update s blockKey (some ⟨1, some (now + block)⟩)) hitsKey
          (some ⟨count + 1, some (now + block)⟩),
        ⟨count + 1, block, true, block⟩) := by
  have hself : Function.update s hitsKey (some (⟨count + 1, some ends⟩ : Cell)) hitsKey =
      some ⟨count + 1, some ends⟩ := Function.update_self ..
  have hset : Store.setPx (Function.update s hitsKey (some ⟨count + 1, some ends⟩)) now blockKey 1
      block hitsKey = some ⟨count + 1, some ends⟩ := by rw [Store.setPx_of_ne hne, hself]
  have hleft : ¬ (ends - now : ℤ) < 0 := by omega
  have hover : count + 1 > limit := by omega
  simp only [hitScript, gt_iff_lt, if_neg (not_lt.2 hblock),
    Store.incr_of_some (Store.read_of_le hhits hle),
    Store.pttl_of_some (Store.read_of_le hself hle), if_neg hleft, if_pos hover,
    Store.pexpire_of_some (Store.read_of_le hset hle)]
  rw [Store.setPx, Function.update_comm hne, Function.update_idem]

end Counted

/-- The script leaves every other key. -/
theorem hitScript_of_ne {k : String} (hhits : k ≠ hitsKey) (hblock : k ≠ blockKey) :
    (hitScript now hitsKey blockKey window limit block s).1 k = s k := by
  unfold hitScript
  dsimp only
  split
  · rfl
  · split <;> split <;>
      simp only [Store.pexpire_of_ne hhits, Store.setPx_of_ne hblock, Store.incr_of_ne hhits]

end Script

/-! ### The two keys hold the standing -/

/-- The two keys of a caller from the time of its last hit on. What is left of a block that is over
has expired. -/
def Holds (limit now : ℕ) (s : Store String) : Standing → Prop
  | .free => s (caller ++ ":hits") = none ∧ s (caller ++ ":block") = none
  | .window ends count =>
    s (caller ++ ":hits") = some ⟨count, some ends⟩ ∧ count ≤ limit ∧
      ∀ c, s (caller ++ ":block") = some c → ∃ t, c.expiresAt = some t ∧ t < now
  | .blocked ends =>
    s (caller ++ ":hits") = some ⟨limit + 1, some ends⟩ ∧
      s (caller ++ ":block") = some ⟨1, some ends⟩

section Holds

variable {caller} {now now' window limit block ends count : ℕ} {s s' : Store String}
  {st : Standing}

theorem hits_ne_block (a b : String) : a ++ ":hits" ≠ b ++ ":block" := by
  intro h
  have hlast : (a ++ ":hits").toList.getLast? = (b ++ ":block").toList.getLast? := by rw [h]
  simp at hlast

theorem Holds.congr (h : Holds caller limit now s st)
    (hhits : s' (caller ++ ":hits") = s (caller ++ ":hits"))
    (hblock : s' (caller ++ ":block") = s (caller ++ ":block")) :
    Holds caller limit now s' st := by
  cases st <;> simpa only [Holds, hhits, hblock] using h

theorem Holds.later (h : Holds caller limit now s st) (hle : now ≤ now') :
    Holds caller limit now' s st := by
  cases st with
  | free | blocked => exact h
  | window ends count =>
    refine ⟨h.1, h.2.1, fun c hc => ?_⟩
    obtain ⟨t, ht, hlt⟩ := h.2.2 c hc
    exact ⟨t, ht, hlt.trans_le hle⟩

/-- No block is running where the marker has expired. -/
theorem pttl_nonpos_of_expired {k : String}
    (h : ∀ c, s k = some c → ∃ t, c.expiresAt = some t ∧ t < now) : s.pttl now k ≤ 0 := by
  rw [Store.pttl_of_none (Store.read_eq_none h)]
  decide

/-- The script, at the keys of a caller. -/
def callerScript (caller : String) (now window limit block : ℕ) (s : Store String) :
    Store String × Reply :=
  hitScript now (caller ++ ":hits") (caller ++ ":block") window limit block s

def Reply.verdict (r : Reply) : Bool × ℤ := (r.blocked, ceilSeconds r.blockLeftMs)

/-- A hit that starts a window. -/
theorem holds_fresh (hlimit : 0 < limit) (hhits : s.read now (caller ++ ":hits") = none)
    (hblock : ∀ c, s (caller ++ ":block") = some c → ∃ t, c.expiresAt = some t ∧ t < now) :
    Holds caller limit now (callerScript caller now window limit block s).1
        (Standing.fresh window now).1 ∧
      (callerScript caller now window limit block s).2.verdict = (Standing.fresh window now).2 := by
  rw [callerScript, hitScript_first (pttl_nonpos_of_expired hblock) hhits hlimit]
  refine ⟨⟨Function.update_self .., hlimit, fun c hc => hblock c ?_⟩, ?_⟩
  · simpa only [Function.update_of_ne (hits_ne_block _ _).symm] using hc
  · simp [Reply.verdict, Standing.fresh]

/-- A hit at any time but the very end of a block keeps the standing, and the caller is told what
the standing says. -/
theorem Holds.hit (hlimit : 0 < limit) (h : Holds caller limit now s st) (hle : now ≤ now')
    (hend : st ≠ .blocked now') :
    Holds caller limit now' (callerScript caller now' window limit block s).1
        (st.hit window limit block now').1 ∧
      (callerScript caller now' window limit block s).2.verdict =
        (st.hit window limit block now').2 := by
  cases st with
  | free =>
    refine holds_fresh hlimit (Store.read_eq_none fun c hc => ?_) fun c hc => ?_
    · rw [h.1] at hc
      cases hc
    · rw [h.2] at hc
      cases hc
  | window ends count =>
    obtain ⟨hhits, hcount, hblock⟩ := h.later hle
    rcases lt_or_ge ends now' with hlt | hge
    · rw [Standing.hit, if_pos hlt]
      refine holds_fresh hlimit (Store.read_eq_none fun c hc => ?_) hblock
      rw [hhits, Option.some_inj] at hc
      exact ⟨ends, by rw [← hc], hlt⟩
    · rw [Standing.hit, if_neg (not_lt.2 hge), callerScript]
      rcases lt_or_ge count limit with hnext | hover
      · rw [if_pos hnext, hitScript_next (pttl_nonpos_of_expired hblock) hhits hge hnext]
        refine ⟨⟨Function.update_self .., hnext, fun c hc => hblock c ?_⟩, ?_⟩
        · simpa only [Function.update_of_ne (hits_ne_block _ _).symm] using hc
        · simp [Reply.verdict]
      · rw [if_neg (not_lt.2 hover), hitScript_over (pttl_nonpos_of_expired hblock) hhits hge
          (hits_ne_block _ _) hover]
        have hfull : count = limit := le_antisymm hcount hover
        refine ⟨⟨?_, ?_⟩, rfl⟩
        · dsimp only
          rw [Function.update_self, hfull]
        · dsimp only
          rw [Function.update_of_ne (hits_ne_block _ _).symm, Function.update_self]
  | blocked ends =>
    obtain ⟨hhits, hblock⟩ := h
    rcases lt_or_ge now' ends with hlt | hge
    · have hleft : s.pttl now' (caller ++ ":block") = ends - now' :=
        Store.pttl_of_some (Store.read_of_le hblock hlt.le)
      have hpos : 0 < s.pttl now' (caller ++ ":block") := by omega
      rw [Standing.hit, if_pos hlt, callerScript, hitScript_of_blocked hpos, hleft]
      exact ⟨⟨hhits, hblock⟩, rfl⟩
    · have hlt : ends < now' := lt_of_le_of_ne hge fun he => hend (by rw [he])
      rw [Standing.hit, if_neg (not_lt.2 hge)]
      refine holds_fresh hlimit (Store.read_eq_none fun c hc => ?_) fun c hc => ?_
      · rw [hhits, Option.some_inj] at hc
        exact ⟨ends, by rw [← hc], hlt⟩
      · rw [hblock, Option.some_inj] at hc
        exact ⟨ends, by rw [← hc], hlt⟩

/-- The hit in the millisecond in which a block ends is refused. -/
theorem Holds.refused_at_end (h : Holds caller limit now s (.blocked ends)) :
    (callerScript caller ends window limit block s).2.blocked = true := by
  obtain ⟨hhits, hblock⟩ := h
  have hleft : s.pttl ends (caller ++ ":block") ≤ 0 := by
    rw [Store.pttl_of_some (Store.read_of_le hblock le_rfl)]
    omega
  rw [callerScript, hitScript_over hleft hhits le_rfl (hits_ne_block _ _) (Nat.le_succ limit)]

end Holds

/-! ### Runs -/

section Runs

variable {keyPrefix caller} {now window limit block : ℕ} {s : Store String} {st : Standing}
  {hit : Hit} {hits : List Hit}

/-- The settings of a hit are whole numbers of milliseconds and hits. -/
def Hit.Fixed (window limit block : ℕ) (hit : Hit) : Prop :=
  hit.ttl = some (window : ℚ) ∧ hit.limit = some (limit : ℚ) ∧ hit.blockDuration = some (block : ℚ)

/-- A hit of another caller, or one that does not reach Redis, leaves the keys of a caller. -/
theorem Holds.other (h : Holds caller limit now s st) (hother : ¬ hit.IsOf keyPrefix caller) :
    Holds caller limit now (increment keyPrefix s hit).1 st := by
  unfold increment
  dsimp only
  split
  · next hreached =>
    have hne : hit.base keyPrefix ≠ caller := fun he => hother ⟨he, hreached⟩
    have happend : ∀ t : String, caller ++ t ≠ hit.base keyPrefix ++ t := fun t he =>
      hne (String.append_left_inj t |>.1 he).symm
    exact h.congr (hitScript_of_ne (happend _) (hits_ne_block _ _))
      (hitScript_of_ne (hits_ne_block _ _).symm (happend _))
  · exact h

/-- A hit of a caller is its script. -/
theorem increment_of_isOf (hof : hit.IsOf keyPrefix caller) (hfixed : hit.Fixed window limit block)
    (hwindow : 0 < window) (hlimit : 0 < limit) (hblock : 0 < block) :
    (increment keyPrefix s hit).1 = (callerScript caller hit.now window limit block s).1 ∧
      (increment keyPrefix s hit).2.verdict =
        (callerScript caller hit.now window limit block s).2.verdict := by
  obtain ⟨hbase, hreached⟩ := hof
  obtain ⟨httl, hlim, hdur⟩ := hfixed
  simp only [increment, if_pos hreached, httl, hlim, hdur, positive_natCast hwindow,
    positive_natCast hlimit, positive_natCast hblock, hbase]
  exact ⟨rfl, rfl⟩

theorem told_cons_of_isOf (hof : hit.IsOf keyPrefix caller) :
    told keyPrefix caller s (hit :: hits) = (increment keyPrefix s hit).2.verdict ::
      told keyPrefix caller (increment keyPrefix s hit).1 hits := by
  simp only [told, increments, filter_cons, decide_eq_true hof, if_true, map_cons]

theorem told_cons_of_not (hof : ¬ hit.IsOf keyPrefix caller) :
    told keyPrefix caller s (hit :: hits) =
      told keyPrefix caller (increment keyPrefix s hit).1 hits := by
  simp only [told, increments, filter_cons, decide_eq_false hof, Bool.false_eq_true, if_false]

theorem hitTimes_cons_of_isOf (hof : hit.IsOf keyPrefix caller) :
    hitTimes keyPrefix caller (hit :: hits) = hit.now :: hitTimes keyPrefix caller hits := by
  simp only [hitTimes, filter_cons, decide_eq_true hof, if_true, map_cons]

theorem hitTimes_cons_of_not (hof : ¬ hit.IsOf keyPrefix caller) :
    hitTimes keyPrefix caller (hit :: hits) = hitTimes keyPrefix caller hits := by
  simp only [hitTimes, filter_cons, decide_eq_false hof, Bool.false_eq_true, if_false]

variable (hwindow : 0 < window) (hlimit : 0 < limit) (hblock : 0 < block)

include hwindow hlimit hblock

/-- From any standing that the keys hold, a caller is told at its hits what the standing says if
and only if none of them meets the end of a block. -/
theorem Holds.told_eq_iff (h : Holds caller limit now s st)
    (hfixed : ∀ hit ∈ hits, hit.IsOf keyPrefix caller → hit.Fixed window limit block)
    (hle : ∀ t ∈ hitTimes keyPrefix caller hits, now ≤ t)
    (hsorted : (hitTimes keyPrefix caller hits).Pairwise (· ≤ ·)) :
    told keyPrefix caller s hits = st.told window limit block (hitTimes keyPrefix caller hits) ↔
      ¬ st.MeetsEnd window limit block (hitTimes keyPrefix caller hits) := by
  induction hits generalizing now s st with
  | nil => simp [told, increments, hitTimes, Standing.told, Standing.MeetsEnd]
  | cons hit hits ih =>
    have hfixed' := fun x hx => hfixed x (mem_cons_of_mem _ hx)
    by_cases hof : hit.IsOf keyPrefix caller
    · rw [hitTimes_cons_of_isOf hof] at hle hsorted ⊢
      have hstep := increment_of_isOf (s := s) hof (hfixed hit mem_cons_self hof) hwindow
        hlimit hblock
      have hnow : now ≤ hit.now := hle _ mem_cons_self
      have hlater := (pairwise_cons.1 hsorted).1
      rw [told_cons_of_isOf hof, Standing.told, Standing.MeetsEnd, hstep.1, hstep.2]
      by_cases hend : st = .blocked hit.now
      · -- The hit meets the end of a block: it is refused, and should be let through.
        subst hend
        have hrefused : (callerScript caller hit.now window limit block s).2.blocked = true :=
          h.refused_at_end
        refine iff_of_false (fun heq => ?_) fun hno => hno (Or.inl rfl)
        have hfirst := congrArg Prod.fst (cons_eq_cons.1 heq).1
        simp only [Reply.verdict, hrefused, Standing.hit, lt_irrefl, if_false,
          Standing.fresh, Bool.true_eq_false] at hfirst
      · obtain ⟨hholds, hverdict⟩ := @Holds.hit caller _ _ window _ block _ _ hlimit h hnow hend
        rw [hverdict, cons_eq_cons, ih hholds hfixed' hlater (pairwise_cons.1 hsorted).2]
        simp [hend]
    · rw [hitTimes_cons_of_not hof] at hle hsorted ⊢
      rw [told_cons_of_not hof]
      exact ih (h.other hof) hfixed' hle hsorted

/-- The limiter blocks each caller exactly for as long as it says, whatever the others do, if and
only if no hit of the caller comes in the very millisecond in which one of its blocks ends. -/
theorem blocks_exactly_iff
    (hfixed : ∀ hit ∈ hits, hit.IsOf keyPrefix caller → hit.Fixed window limit block)
    (hsorted : (hits.map Hit.now).Pairwise (· ≤ ·)) :
    told keyPrefix caller Store.empty hits =
        Standing.free.told window limit block (hitTimes keyPrefix caller hits) ↔
      ¬ Standing.free.MeetsEnd window limit block (hitTimes keyPrefix caller hits) := by
  have hstart : Holds caller limit 0 Store.empty .free := ⟨rfl, rfl⟩
  exact hstart.told_eq_iff hwindow hlimit hblock hfixed (fun t _ => Nat.zero_le t)
    (hsorted.sublist ((filter_sublist ..).map _))

end Runs

/-- A hit of one caller, under one hit and one block of a minute. -/
def minuteHit (now : ℕ) : Hit :=
  { key := "1.2.3.4", ttl := some 60000, limit := some 1, blockDuration := some 60000,
    throttlerName := "default", now }

theorem minuteHit_exact : told "rabotka:dev:" "rabotka:dev:throttle:default:1.2.3.4" Store.empty
        [minuteHit 0, minuteHit 1, minuteHit 60002] =
      Standing.free.told 60000 1 60000 [0, 1, 60002] :=
  (blocks_exactly_iff (by decide) (by decide) (by decide) (fun hit hhit _ => by
      simp only [mem_cons, not_mem_nil, or_false] at hhit
      rcases hhit with rfl | rfl | rfl <;> exact ⟨rfl, rfl, rfl⟩)
    (by decide)).2 (by decide +kernel)

/-- The block of the second hit ends after a minute, in the millisecond of the third, which is
refused for one more minute. -/
theorem refused_at_block_end :
    told "rabotka:dev:" "rabotka:dev:throttle:default:1.2.3.4" Store.empty
        [minuteHit 0, minuteHit 1, minuteHit 60001] = [(false, 0), (true, 60), (true, 60)] ∧
      Standing.free.told 60000 1 60000 [0, 1, 60001] = [(false, 0), (true, 60), (false, 0)] := by
  decide +kernel

end Rabotka.Throttling
