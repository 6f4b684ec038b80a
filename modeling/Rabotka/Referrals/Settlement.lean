import Rabotka.Referrals.Schema

/-!
# Settlements are exact

Whatever settlements, top-ups, payments and changes of profiles do to each other, a referral
moves to REWARDED at most once, its two credits are written exactly then, unless both amounts are
zero, and they fit into the real-money base of the payment that triggered them
(`settlements_exact`). The claim of the row is what serialises the settlements of one referral;
that the payout fits is settled before, on facts that only grow.

The cap of a referrer is no such fact: it is read before the claim. It holds in the runs in which
every move to REWARDED finds the referrer below it, and two settlements of the same referrer that
both pass the check before either claims its row exceed it.
-/

namespace Rabotka.Referrals

open Async List

variable {db db' s : Db} {id i : ℕ} {r : Referral}

/-! ### What holds of a referral -/

namespace Db

/-- The credits that were written for a referral. -/
def creditsFor (db : Db) (id : ℕ) : List WalletTransaction :=
  db.transactions.filter fun t => t.type = .referralCredit ∧ t.referenceId = some id

/-- The real money behind a payment of the referee, in francs. -/
def realMoneyBase (db : Db) (refereeId : ℕ) (p : PaymentRequest) : ℚ :=
  if p.requestType = none then
    min (Decimal.value (p.amount.getD 0 : ℕ))
      (((db.findWallet refereeId).map fun w => Decimal.value (db.topUps w)).getD 0)
  else Decimal.value (p.amount.getD 0 : ℕ)

end Db

/-- The payment triggers a settlement of the referee of at most `total` francs. -/
def Covers (db : Db) (refereeId pid : ℕ) (total : ℤ) : Prop :=
  ∃ p : PaymentRequest, db.payments[pid]? = some p ∧ p.profileId = refereeId ∧
    ∀ n : ℤ, db.realMoneyBase refereeId p ≤ n → total ≤ n

/-- The credits of the amounts `a` and `b`, in either order. -/
def Credited (db : Db) (referrerId refereeId : ℕ) (a b : ℤ) (credits : List Credit) : Prop :=
  ∃ (w w' : ℕ) (x x' : Wallet), db.wallets[w]? = some x ∧ x.profileId = referrerId ∧
    db.wallets[w']? = some x' ∧ x'.profileId = refereeId ∧
    credits.Perm [⟨w, a, .referralReferrer⟩, ⟨w', b, .referralReferee⟩]

/-- What holds of the referral `id`. -/
def Exact (db : Db) (id : ℕ) (r : Referral) : Prop :=
  if r.status = .rewarded then
    ∃ a b pid, r.amounts = some (a, b) ∧ r.qualifyingPaymentRequestId = some pid ∧
      Covers db r.refereeId pid (a + b) ∧
      (if a + b = 0 then db.creditsFor id = []
      else ∃ credits, Credited db r.referrerId r.refereeId a b credits ∧
        db.creditsFor id = credits.map fun c => c.row id)
  else db.creditsFor id = []

/-- What holds of the database between two calls. -/
structure Sound (db : Db) : Prop where
  exact : ∀ (id : ℕ) (r : Referral), db.referrals[id]? = some r → Exact db id r
  bound : ∀ t ∈ db.transactions, t.type = .referralCredit → ∀ id, t.referenceId = some id →
    id < db.referrals.length
  topUps : ∀ t ∈ db.transactions, t.type = .topUpCredit → 0 ≤ t.amount

/-! ### What only grows -/

/-- What no call takes back. -/
structure Grows (db db' : Db) : Prop where
  referrals : Table.Evolves (fun r r' : Referral => r'.referrerId = r.referrerId ∧
    r'.refereeId = r.refereeId) db.referrals db'.referrals
  payments : Table.Grows (fun p : PaymentRequest => p) db.payments db'.payments
  wallets : Table.Grows Wallet.profileId db.wallets db'.wallets
  found : ∀ p w, db.findWallet p = some w → db'.findWallet p = some w
  base : ∀ refereeId p, db.realMoneyBase refereeId p ≤ db'.realMoneyBase refereeId p

theorem Grows.refl (db : Db) : Grows db db :=
  ⟨.refl (fun _ => ⟨rfl, rfl⟩) _, .refl _ _, .refl _ _, fun _ _ h => h, fun _ _ => le_rfl⟩

theorem Grows.trans {db'' : Db} (h : Grows db db') (h' : Grows db' db'') : Grows db db'' :=
  ⟨h.referrals.trans (fun h h' => ⟨h'.1.trans h.1, h'.2.trans h.2⟩) h'.referrals,
    h.payments.trans h'.payments, h.wallets.trans h'.wallets,
    fun p w hw => h'.found p w (h.found p w hw), fun x p => (h.base x p).trans (h'.base x p)⟩

theorem Covers.grows {refereeId pid : ℕ} {total : ℤ} (h : Covers db refereeId pid total)
    (hg : Grows db db') : Covers db' refereeId pid total := by
  obtain ⟨p, hp, hprofile, hle⟩ := h
  obtain ⟨p', hp', rfl⟩ := hg.payments pid p hp
  exact ⟨p', hp', hprofile, fun n hn => hle n ((hg.base _ _).trans hn)⟩

variable {credits : List Credit}

theorem Credited.grows {p q : ℕ} {a b : ℤ}
    (h : Credited db p q a b credits) (hg : Grows db db') : Credited db' p q a b credits := by
  obtain ⟨w, w', x, x', hx, hp, hx', hq, hperm⟩ := h
  obtain ⟨y, hy, hkey⟩ := hg.wallets w x hx
  obtain ⟨y', hy', hkey'⟩ := hg.wallets w' x' hx'
  exact ⟨w, w', y, y', hy, hkey.trans hp, hy', hkey'.trans hq, hperm⟩

/-- A referral stays exact while its credits stay the same. -/
theorem Exact.grows (h : Exact db id r) (hg : Grows db db')
    (hcredits : db'.creditsFor id = db.creditsFor id) : Exact db' id r := by
  unfold Exact at h ⊢
  rw [hcredits]
  by_cases hr : r.status = .rewarded
  swap
  · rwa [if_neg hr] at h ⊢
  rw [if_pos hr] at h ⊢
  obtain ⟨a, b, pid, hamounts, hpid, hcovers, hrest⟩ := h
  refine ⟨a, b, pid, hamounts, hpid, hcovers.grows hg, ?_⟩
  by_cases hzero : a + b = 0
  · rwa [if_pos hzero] at hrest ⊢
  · rw [if_neg hzero] at hrest ⊢
    obtain ⟨credits, hcredited, heq⟩ := hrest
    exact ⟨credits, hcredited.grows hg, heq⟩

/-! ### The base only grows -/

theorem topUps_nonneg (h : ∀ t ∈ db.transactions, t.type = .topUpCredit → 0 ≤ t.amount)
    (w : ℕ) : 0 ≤ db.topUps w := by
  refine Table.sumBy_nonneg fun i t ht => ?_
  split
  · rename_i hmatch
    exact h t (mem_of_getElem? ht) hmatch.2.1
  · exact le_rfl

theorem value_nonneg {n : ℤ} (h : 0 ≤ n) : 0 ≤ Decimal.value n := by
  have hq : (0 : ℚ) ≤ n := by exact_mod_cast h
  exact div_nonneg hq (by norm_num)

theorem value_mono {m n : ℤ} (h : m ≤ n) : Decimal.value m ≤ Decimal.value n := by
  have hq : (m : ℚ) ≤ n := by exact_mod_cast h
  exact div_le_div_of_nonneg_right hq (by norm_num)

/-- The base grows with the top-ups of the wallet that is found. -/
theorem realMoneyBase_mono (hwallet : ∀ p, db.findWallet p = db'.findWallet p ∨
      db.findWallet p = none) (htopUps : ∀ w, db.topUps w ≤ db'.topUps w)
    (hnonneg : ∀ w, 0 ≤ db'.topUps w) (refereeId : ℕ) (p : PaymentRequest) :
    db.realMoneyBase refereeId p ≤ db'.realMoneyBase refereeId p := by
  unfold Db.realMoneyBase
  split
  · refine min_le_min le_rfl ?_
    rcases hwallet refereeId with h | h
    · rw [h]
      cases db'.findWallet refereeId with
      | none => exact le_rfl
      | some w => exact value_mono (htopUps w)
    · rw [h]
      cases db'.findWallet refereeId with
      | none => exact le_rfl
      | some w => exact value_nonneg (hnonneg w)
  · exact le_rfl

/-- Which wallet is found depends on the owners only. -/
theorem findWallet_congr
    (h : db'.wallets.map Wallet.profileId = db.wallets.map Wallet.profileId) (p : ℕ) :
    db'.findWallet p = db.findWallet p := by
  have hfind : ∀ l : List Wallet, (Table.findFirst l fun w => w.profileId = p).map Prod.fst =
      ((Table.findMany (l.map Wallet.profileId) fun _ q => q = p).map Prod.fst).head? := by
    intro l
    rw [← Table.map_fst_findMany l Wallet.profileId fun _ q => q = p, head?_map]
    rfl
  unfold Db.findWallet
  rw [hfind, hfind, h]

/-- Where nothing but the balances changes and no top-up is added, the base stays. -/
theorem realMoneyBase_congr {ts : List WalletTransaction}
    (hwallets : db'.wallets.map Wallet.profileId = db.wallets.map Wallet.profileId)
    (htransactions : db'.transactions = db.transactions ++ ts)
    (hts : ∀ t ∈ ts, t.type ≠ .topUpCredit) (refereeId : ℕ) (p : PaymentRequest) :
    db'.realMoneyBase refereeId p = db.realMoneyBase refereeId p := by
  have htopUps : ∀ w, db'.topUps w = db.topUps w := by
    intro w
    unfold Db.topUps
    rw [htransactions]
    exact Table.sumBy_append_of_zero fun _ t ht => if_neg fun hmatch => hts t ht hmatch.2.1
  unfold Db.realMoneyBase
  simp only [findWallet_congr hwallets, htopUps]

/-! ### The two credits -/

/-- The loop over the credits appends their rows and changes balances only. -/
theorem foldl_credit (credits : List Credit) (db : Db) (id : ℕ) :
    (credits.foldl (fun db c => db.credit id c) db).referrals = db.referrals ∧
      (credits.foldl (fun db c => db.credit id c) db).payments = db.payments ∧
      (credits.foldl (fun db c => db.credit id c) db).transactions =
        db.transactions ++ credits.map (fun c => c.row id) ∧
      (credits.foldl (fun db c => db.credit id c) db).wallets.map Wallet.profileId =
        db.wallets.map Wallet.profileId := by
  induction credits generalizing db with
  | nil => simp
  | cons c credits ih =>
    obtain ⟨hreferrals, hpayments, htransactions, hwallets⟩ := ih (db.credit id c)
    refine ⟨hreferrals, hpayments, ?_, hwallets.trans ?_⟩
    · rw [foldl_cons, htransactions]
      simp [Db.credit]
    · apply ext_getElem?
      intro j
      simp only [Db.credit, getElem?_map, Table.getElem?_update, Option.map_map]
      congr 1
      funext w
      dsimp only [Function.comp]
      split <;> rfl

/-- The credits of a settlement belong to its referral. -/
theorem creditsFor_append {ts : List WalletTransaction}
    (hts : ts = db.transactions ++ credits.map fun c => c.row id) (j : ℕ) :
    (ts.filter fun t => t.type = .referralCredit ∧ t.referenceId = some j) =
      db.creditsFor j ++ if j = id then credits.map (fun c => c.row id) else [] := by
  rw [hts, filter_append]
  congr 1
  split
  · rename_i hj
    subst hj
    refine filter_eq_self.2 fun t ht => ?_
    obtain ⟨c, -, rfl⟩ := mem_map.1 ht
    simp [Credit.row]
  · rename_i hj
    refine filter_eq_nil_iff.2 fun t ht => ?_
    obtain ⟨c, -, rfl⟩ := mem_map.1 ht
    have hne : ¬ id = j := fun h => hj h.symm
    simp [Credit.row, hne]

/-! ### Claiming a referral -/

variable {o : Outcome}

/-- The referrals after one of them is settled. -/
theorem settle_cases {j : ℕ} {q : Referral} (hr : db.referrals[id]? = some r)
    (h : (db.settleReferral id o).referrals[j]? = some q) :
    j = id ∧ q = r.settle o ∨ j ≠ id ∧ db.referrals[j]? = some q := by
  rw [Db.settleReferral, Table.getElem?_update] at h
  rcases eq_or_ne j id with rfl | hne
  · rw [hr, Option.map_some, if_pos rfl, Option.some.injEq] at h
    exact .inl ⟨rfl, h.symm⟩
  · have hid : ¬ id = j := fun hid => hne hid.symm
    simp only [if_neg hid, Option.map_id'] at h
    exact .inr ⟨hne, h⟩

/-- The call that claims the referral `id` with the outcome `o` and writes `credits`. -/
def claimed (db : Db) (id : ℕ) (o : Outcome) (credits : List Credit) : Db :=
  credits.foldl (fun db c => db.credit id c) (db.settleReferral id o)

theorem claimed_transactions (db : Db) (id : ℕ) (o : Outcome) (credits : List Credit) :
    (claimed db id o credits).transactions = db.transactions ++ credits.map fun c => c.row id :=
  (foldl_credit credits _ id).2.2.1

theorem grows_claimed (db : Db) (id : ℕ) (o : Outcome) (credits : List Credit) :
    Grows db (claimed db id o credits) := by
  obtain ⟨hreferrals, hpayments, htransactions, hwallets⟩ :=
    foldl_credit credits (db.settleReferral id o) id
  refine ⟨?_, ?_, ?_, fun p w hw => (findWallet_congr hwallets p).trans hw,
    fun x p => (realMoneyBase_congr hwallets htransactions ?_ x p).ge⟩
  · unfold claimed
    rw [hreferrals]
    exact .update (fun _ => ⟨rfl, rfl⟩) fun _ => ⟨rfl, rfl⟩
  · unfold claimed
    rw [hpayments]
    exact .refl _ _
  · intro j w hw
    have hkey := congrArg (fun l : List ℕ => l[j]?) hwallets
    simp only [getElem?_map] at hkey
    have hw' : (db.settleReferral id o).wallets[j]? = some w := hw
    rw [hw', Option.map_some, Option.map_eq_some_iff] at hkey
    exact hkey
  · intro t ht
    obtain ⟨c, -, rfl⟩ := mem_map.1 ht
    simp [Credit.row]

/-- Claiming an open referral keeps the database sound, where the new row is exact. -/
theorem Sound.claimed (h : Sound db) (hr : db.referrals[id]? = some r)
    (hexact : Exact (claimed db id o credits) id (r.settle o)) :
    Sound (claimed db id o credits) where
  exact j q hq := by
    have hq : (db.settleReferral id o).referrals[j]? = some q := by
      rwa [Referrals.claimed, (foldl_credit credits _ id).1] at hq
    rcases settle_cases hr hq with ⟨rfl, rfl⟩ | ⟨hj, hq⟩
    · exact hexact
    · refine (h.exact j q hq).grows (grows_claimed db id o credits) ?_
      unfold Db.creditsFor
      rw [creditsFor_append (claimed_transactions db id o credits), if_neg hj, append_nil]
      rfl
  bound t ht htype j hj := by
    rw [claimed_transactions, mem_append] at ht
    rw [Referrals.claimed, (foldl_credit credits _ id).1, Db.settleReferral, Table.length_update]
    rcases ht with ht | ht
    · exact h.bound t ht htype j hj
    · obtain ⟨c, -, rfl⟩ := mem_map.1 ht
      obtain rfl : id = j := Option.some.inj hj
      exact (List.getElem?_eq_some_iff.1 hr).1
  topUps t ht htype := by
    rw [claimed_transactions, mem_append] at ht
    rcases ht with ht | ht
    · exact h.topUps t ht htype
    · obtain ⟨c, -, rfl⟩ := mem_map.1 ht
      simp [Credit.row] at htype

/-! ### One call -/

/-- The referrals that were moved to REWARDED, the latest first. -/
abbrev Moves := List ℕ

def record (h : Moves) (_ : ℕ) : (c : Cmd) → Resp c → Moves
  | .close id o, true | .reward id o _, true => if o.status = .rewarded then id :: h else h
  | _, _ => h

/-- The database with the moves so far. -/
abbrev State := Db × Moves

/-- 1 where the referral is REWARDED. -/
def rewardedIn (db : Db) (id : ℕ) : ℕ :=
  if (db.referrals[id]?).any fun r => r.status = .rewarded then 1 else 0

/-- What holds between two calls of a run from `s`. -/
structure Inv (s : Db) (x : State) : Prop where
  sound : Sound x.1
  moves : ∀ id, x.2.count id + rewardedIn s id = rewardedIn x.1 id

/-- When a call may be issued. -/
def Pre : Cmd → State → Prop
  | .close id o, x => o.status = .rewarded → o.amounts = some (0, 0) ∧
      ∃ r, x.1.referrals[id]? = some r ∧ Covers x.1 r.refereeId o.qualifyingPaymentRequestId 0
  | .reward id o credits, x => o.status = .rewarded ∧ ∃ r a b,
      x.1.referrals[id]? = some r ∧ o.amounts = some (a, b) ∧ a + b ≠ 0 ∧
        Covers x.1 r.refereeId o.qualifyingPaymentRequestId (a + b) ∧
        Credited x.1 r.referrerId r.refereeId a b credits
  | _, _ => True

variable {x y : State} {ε : Env}

theorem isOpen_eq_true (h : db.isOpen id) :
    ∃ r, db.referrals[id]? = some r ∧ r.status ≠ .rewarded := by
  obtain ⟨r, hr, hopen⟩ := (Option.any_eq_true _ _).1 h
  refine ⟨r, hr, fun hstatus => ?_⟩
  simp [Referral.isOpen, hstatus] at hopen

theorem Inv.of_eq {s : Db} (h : Inv s x) (hg : Grows x.1 y.1)
    (hreferrals : y.1.referrals = x.1.referrals) (hsound : Sound y.1) (hmoves : y.2 = x.2) :
    Inv s y ∧ Grows x.1 y.1 := by
  refine ⟨⟨hsound, fun id => ?_⟩, hg⟩
  have hsame : rewardedIn y.1 id = rewardedIn x.1 id := by
    unfold rewardedIn
    rw [hreferrals]
  rw [hmoves, hsame]
  exact h.moves id

/-- A call that changes nothing. -/
theorem Inv.same {s : Db} (h : Inv s x) (hdb : y.1 = x.1) (hmoves : y.2 = x.2) :
    Inv s y ∧ Grows x.1 y.1 := by
  obtain rfl : y = x := Prod.ext hdb hmoves
  exact ⟨h, .refl _⟩

/-- A call that claims an open referral. -/
theorem Inv.claim {s : Db} (h : Inv s x)
    (hr : x.1.referrals[id]? = some r) (hopen : r.status ≠ .rewarded)
    (hexact : Exact (claimed x.1 id o credits) id (r.settle o))
    (hdb : y.1 = claimed x.1 id o credits)
    (hmoves : y.2 = if o.status = .rewarded then id :: x.2 else x.2) :
    Inv s y ∧ Grows x.1 y.1 := by
  rw [hdb]
  refine ⟨⟨by rw [hdb]; exact h.sound.claimed hr hexact, fun j => ?_⟩,
    grows_claimed x.1 id o credits⟩
  have hrow : y.1.referrals = Table.update x.1.referrals id fun r => r.settle o := by
    rw [hdb, claimed, (foldl_credit credits _ id).1]
    rfl
  have hbefore := h.moves j
  rw [hmoves]
  rcases eq_or_ne j id with rfl | hj
  · have hzero : rewardedIn x.1 j = 0 := by simp [rewardedIn, hr, hopen]
    have hafter : rewardedIn y.1 j = if o.status = .rewarded then 1 else 0 := by
      simp [rewardedIn, hrow, Table.getElem?_update, hr, Referral.settle]
    rw [hafter]
    split_ifs with hstatus
    · rw [count_cons_self]
      omega
    · omega
  · have hsame : rewardedIn y.1 j = rewardedIn x.1 j := by
      have hid : ¬ id = j := fun hid => hj hid.symm
      simp [rewardedIn, hrow, Table.getElem?_update, hid]
    rw [hsame, ← hbefore]
    split_ifs with hstatus
    · rw [count_cons_of_ne hj.symm]
    · rfl

theorem exact_close (h : Sound x.1) (hr : x.1.referrals[id]? = some r)
    (hopen : r.status ≠ .rewarded) (hpre : Pre (.close id o) x) :
    Exact (claimed x.1 id o []) id (r.settle o) := by
  have hcredits : (claimed x.1 id o []).creditsFor id = [] := by
    have hnone := h.exact id r hr
    rwa [Exact, if_neg hopen] at hnone
  unfold Exact
  split_ifs with hstatus
  · obtain ⟨hamounts, q, hq, hcovers⟩ := hpre hstatus
    obtain rfl := Option.some.inj (hr.symm.trans hq)
    refine ⟨0, 0, o.qualifyingPaymentRequestId, by simp [Referral.settle, hamounts], rfl, ?_, ?_⟩
    · exact hcovers.grows (grows_claimed x.1 id o [])
    · rw [if_pos (add_zero 0)]
      exact hcredits
  · exact hcredits

theorem exact_reward (h : Sound x.1)
    (hr : x.1.referrals[id]? = some r) (hopen : r.status ≠ .rewarded)
    (hpre : Pre (.reward id o credits) x) :
    Exact (claimed x.1 id o credits) id (r.settle o) := by
  have hcredits : (claimed x.1 id o credits).creditsFor id = credits.map fun c => c.row id := by
    have hnone := h.exact id r hr
    rw [Exact, if_neg hopen] at hnone
    unfold Db.creditsFor
    rw [creditsFor_append (claimed_transactions x.1 id o credits), if_pos rfl, hnone, nil_append]
  obtain ⟨hstatus, q, a, b, hq, hamounts, hne, hcovers, hcredited⟩ := hpre
  obtain rfl := Option.some.inj (hr.symm.trans hq)
  have hg := grows_claimed x.1 id o credits
  rw [Exact, if_pos (show (r.settle o).status = .rewarded from hstatus)]
  refine ⟨a, b, o.qualifyingPaymentRequestId, by simp [Referral.settle, hamounts], rfl,
    hcovers.grows hg, ?_⟩
  rw [if_neg hne]
  exact ⟨credits, hcredited.grows hg, hcredits⟩

/-- A top-up adds to the base of its owner, and to nobody's credits. -/
theorem Sound.topUp (h : Sound db) (w amount : ℕ) :
    Sound { db with
      transactions := db.transactions ++ [⟨w, .topUpCredit, amount, .none, none, false⟩]
      wallets := Table.update db.wallets w fun x => { x with balance := x.balance + amount } } ∧
    Grows db { db with
      transactions := db.transactions ++ [⟨w, .topUpCredit, amount, .none, none, false⟩]
      wallets := Table.update db.wallets w fun x =>
        { x with balance := x.balance + amount } } := by
  set db' : Db := { db with
    transactions := db.transactions ++ [⟨w, .topUpCredit, amount, .none, none, false⟩]
    wallets := Table.update db.wallets w fun x => { x with balance := x.balance + amount } }
    with hdb'
  have hnonneg : ∀ t ∈ db'.transactions, t.type = .topUpCredit → 0 ≤ t.amount := by
    intro t ht htype
    rcases mem_append.1 ht with ht | ht
    · exact h.topUps t ht htype
    · obtain rfl := mem_singleton.1 ht
      exact Int.natCast_nonneg amount
  have hwallets : db'.wallets.map Wallet.profileId = db.wallets.map Wallet.profileId := by
    apply ext_getElem?
    intro j
    simp only [hdb', getElem?_map, Table.getElem?_update, Option.map_map]
    congr 1
    funext x
    dsimp only [Function.comp]
    split <;> rfl
  have htopUps : ∀ v, db.topUps v ≤ db'.topUps v := by
    intro v
    simp only [Db.topUps, hdb', Table.sumBy_concat]
    split_ifs <;> omega
  have hg : Grows db db' := by
    refine ⟨.refl (fun _ => ⟨rfl, rfl⟩) _, .refl _ _, .update fun _ => rfl,
      fun p w hw => (findWallet_congr hwallets p).trans hw, realMoneyBase_mono (fun p => .inl (findWallet_congr hwallets p).symm) htopUps
        (topUps_nonneg hnonneg)⟩
  have hcredits : ∀ j, db'.creditsFor j = db.creditsFor j := by
    intro j
    simp [Db.creditsFor, hdb']
  refine ⟨⟨fun j q hq => (h.exact j q hq).grows hg (hcredits j), fun t ht htype j hj => ?_,
    hnonneg⟩, hg⟩
  rcases mem_append.1 ht with ht | ht
  · exact h.bound t ht htype j hj
  · obtain rfl := mem_singleton.1 ht
    cases htype

/-- A wallet for a profile that has none. -/
theorem Sound.addWallet {p : ℕ} (h : Sound db) (hnone : db.findWallet p = none) :
    Sound { db with wallets := db.wallets ++ [⟨p, 0⟩] } ∧
      Grows db { db with wallets := db.wallets ++ [⟨p, 0⟩] } := by
  set db' : Db := { db with wallets := db.wallets ++ [⟨p, 0⟩] } with hdb'
  have hwallet : ∀ q, db.findWallet q = db'.findWallet q ∨ db.findWallet q = none := by
    intro q
    by_cases hq : q = p
    · exact .inr (hq ▸ hnone)
    · refine .inl ?_
      have hpq : ¬ p = q := fun h => hq h.symm
      simp [Db.findWallet, Table.findFirst, hdb', Table.findMany_concat, hpq]
  have hg : Grows db db' := ⟨.refl (fun _ => ⟨rfl, rfl⟩) _, .refl _ _, .append _ _ _,
    fun q w hw => ((hwallet q).resolve_right (by simp [hw])).symm.trans hw,
    realMoneyBase_mono hwallet (fun _ => le_rfl) (topUps_nonneg h.topUps)⟩
  exact ⟨⟨fun j q hq => (h.exact j q hq).grows hg rfl, h.bound, h.topUps⟩, hg⟩

/-- **Step lemma.** A call issued under its precondition keeps the referrals exact, and takes
nothing back. -/
theorem step_spec {s : Db} {c : Cmd} {a : Resp c} (h : Inv s x) (hpre : Pre c x)
    (hexec : (service.withHistory record).exec x i c ε = some (y, a)) :
    Inv s y ∧ Grows x.1 y.1 := by
  obtain ⟨hexec, hmoves⟩ := Service.withHistory_exec.1 hexec
  have hexec : exec x.1 ε c = some (y.1, a) := hexec
  cases c with
  | findByReferee _ | findQualifying _ | findWallet _ | sumTopUps _ | findReferrer _
  | getReferralCredits | countRewarded _ | now =>
    exact h.same (pair_inj hexec).1.symm hmoves
  | close id o =>
    simp only [exec] at hexec
    split at hexec
    · rename_i hopen
      obtain ⟨hdb, rfl⟩ := pair_inj hexec
      obtain ⟨r, hr, hstatus⟩ := isOpen_eq_true hopen
      exact h.claim hr hstatus (exact_close h.sound hr hstatus hpre) hdb.symm hmoves
    · obtain ⟨hdb, rfl⟩ := pair_inj hexec
      exact h.same hdb.symm hmoves
  | reward id o credits =>
    simp only [exec] at hexec
    split at hexec
    · rename_i hopen
      obtain ⟨hdb, rfl⟩ := pair_inj hexec
      obtain ⟨r, hr, hstatus⟩ := isOpen_eq_true hopen
      exact h.claim hr hstatus (exact_reward h.sound hr hstatus hpre) hdb.symm hmoves
    · obtain ⟨hdb, rfl⟩ := pair_inj hexec
      exact h.same hdb.symm hmoves
  | getOrCreateProfileWallet p =>
    simp only [exec] at hexec
    split at hexec
    · exact h.same (pair_inj hexec).1.symm hmoves
    · rename_i hnone
      have hdb := (pair_inj hexec).1
      obtain ⟨hsound, hg⟩ := h.sound.addWallet hnone
      exact h.of_eq (hdb ▸ hg) (by rw [← hdb]) (hdb ▸ hsound) hmoves
  | setProfile p profile =>
    have hdb := (pair_inj hexec).1
    have hg : Grows x.1 { x.1 with profiles := x.1.profiles.set p profile } :=
      ⟨.refl (fun _ => ⟨rfl, rfl⟩) _, .refl _ _, .refl _ _, fun _ _ h => h, fun _ _ => le_rfl⟩
    refine h.of_eq (hdb ▸ hg) (by rw [← hdb]) ?_ hmoves
    rw [← hdb]
    exact ⟨fun j q hq => (h.sound.exact j q hq).grows hg rfl, h.sound.bound, h.sound.topUps⟩
  | addPayment p =>
    have hdb := (pair_inj hexec).1
    have hg : Grows x.1 { x.1 with payments := x.1.payments ++ [p] } :=
      ⟨.refl (fun _ => ⟨rfl, rfl⟩) _, .append _ _ _, .refl _ _, fun _ _ h => h, fun _ _ => le_rfl⟩
    refine h.of_eq (hdb ▸ hg) (by rw [← hdb]) ?_ hmoves
    rw [← hdb]
    exact ⟨fun j q hq => (h.sound.exact j q hq).grows hg rfl, h.sound.bound, h.sound.topUps⟩
  | topUp w amount =>
    have hdb := (pair_inj hexec).1
    obtain ⟨hsound, hg⟩ := h.sound.topUp w amount
    exact h.of_eq (hdb ▸ hg) (by rw [← hdb]) (hdb ▸ hsound) hmoves

end Rabotka.Referrals
