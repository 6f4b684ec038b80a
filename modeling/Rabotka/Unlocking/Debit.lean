import Rabotka.Unlocking.Payment

/-!
# The debit

What the wallet service's debit leaves behind. Looking up a wallet may make one, with nothing on it
(`balance_upsertWallet`); the balances move in one transaction, so that a debit that throws leaves
every balance as it was (`triple_debit`), and a debit whose calls are answered moves the amount
from the payer to the system (`route_debit`).
-/

namespace Rabotka.Unlocking

open Faulty

variable {db s t u : Db} {id amount profileId attemptId : ℕ} {owner o : WalletOwner}
  {fails : Site → Bool}

/-! ### Wallets by their owners -/

/-- The wallet that is found for the owner. -/
def Db.Owns (db : Db) (id : ℕ) (owner : WalletOwner) : Prop :=
  (db.wallets.findIdx? fun w => w.owner = owner) = some id

variable {g : Wallet → Wallet}

theorem find?_update (hg : ∀ w, (g w).owner = w.owner) {ws : List Wallet}
    (h : (ws.findIdx? fun w => w.owner = owner) = some id) (o : WalletOwner) :
    (Table.update ws id g).find? (fun w => w.owner = o) =
      (ws.find? fun w => w.owner = o).map fun w => if o = owner then g w else w := by
  induction ws generalizing id with
  | nil => cases h
  | cons w ws ih =>
    rw [List.findIdx?_cons] at h
    by_cases hw : w.owner = owner
    · rw [if_pos (by simpa using hw)] at h
      obtain rfl := Option.some.inj h
      rw [Table.update_of_some (r := w) rfl, List.set_cons_zero, List.find?_cons, List.find?_cons,
        hg]
      by_cases ho : w.owner = o
      · simp [ho, hw ▸ ho.symm]
      · have hne : ¬o = owner := fun heq => ho (hw.trans heq.symm)
        simp [ho, hne]
    · rw [if_neg (by simpa using hw)] at h
      obtain ⟨j, hj, rfl⟩ := Option.map_eq_some_iff.1 h
      obtain ⟨hlt, -⟩ := List.findIdx?_eq_some_iff_getElem.1 hj
      have hcons : Table.update (w :: ws) (j + 1) g = w :: Table.update ws j g := by
        rw [Table.update_of_some (r := ws[j]) (by simp [hlt]),
          Table.update_of_some (r := ws[j]) (by simp [hlt]), List.set_cons_succ]
      rw [hcons, List.find?_cons, List.find?_cons]
      by_cases ho : w.owner = o
      · have hne : ¬o = owner := fun heq => hw (ho.trans heq)
        simp [ho, hne]
      · simp only [ho, decide_false]
        exact ih hj

theorem owns_update (hg : ∀ w, (g w).owner = w.owner) (h : db.Owns id o)
    (j : ℕ) : Db.Owns { db with wallets := Table.update db.wallets j g } id o := by
  have howners : ∀ ws : List Wallet, (ws.findIdx? fun w => w.owner = o) =
      (ws.map Wallet.owner).findIdx? fun o' => o' = o := fun ws => by
    rw [List.findIdx?_map]
    rfl
  have hsame : (Table.update db.wallets j g).map Wallet.owner = db.wallets.map Wallet.owner := by
    refine List.ext_getElem? fun i => ?_
    rw [List.getElem?_map, List.getElem?_map, Table.getElem?_update, Option.map_map]
    congr 1
    funext w
    simp only [Function.comp_apply]
    split
    · exact hg w
    · rfl
  unfold Db.Owns at h ⊢
  rw [howners] at h ⊢
  rw [hsame, h]

theorem owns_append (h : db.Owns id o) (ws : List Wallet) :
    Db.Owns { db with wallets := db.wallets ++ ws } id o := by
  unfold Db.Owns at h ⊢
  rw [List.findIdx?_append, h]
  rfl

/-- A wallet with nothing on it is as good as none. -/
theorem balance_append (db : Db) (owner o : WalletOwner) :
    Db.balance { db with wallets := db.wallets ++ [{ owner, balance := 0 }] } o = db.balance o := by
  unfold Db.balance
  rw [List.find?_append]
  cases h : db.wallets.find? fun w => w.owner = o with
  | some w => rfl
  | none =>
    by_cases ho : owner = o
    · simp [ho]
    · simp [ho]

/-- The owner's wallet is the one with the identifier. -/
theorem exists_wallet (h : db.Owns id owner) :
    ∃ w, db.wallets[id]? = some w ∧ db.wallets.find? (fun w => w.owner = owner) = some w := by
  obtain ⟨hlt, hw, hfirst⟩ := List.findIdx?_eq_some_iff_getElem.1 h
  exact ⟨db.wallets[id], List.getElem?_eq_getElem hlt,
    List.find?_eq_some_iff_getElem.2 ⟨hw, id, hlt, rfl, fun j hj => by simpa using hfirst j hj⟩⟩

/-! ### States that differ in their balances only -/

/-- The tables that the wallet service does not write. -/
structure Elsewhere (db t : Db) : Prop where
  offers : t.offers = db.offers
  applications : t.applications = db.applications
  attempts : t.attempts = db.attempts
  paymentRequests : t.paymentRequests = db.paymentRequests
  payments : t.payments = db.payments
  invoices : t.invoices = db.invoices

theorem Elsewhere.wallets (h : Elsewhere db s) (wallets : List Wallet)
    (walletTransactions : List WalletTransaction) :
    Elsewhere db { s with wallets, walletTransactions } :=
  ⟨h.offers, h.applications, h.attempts, h.paymentRequests, h.payments, h.invoices⟩

/-- The database is `db` but for its wallets, on which the balances are `b`. -/
structure Balanced (db : Db) (b : WalletOwner → ℕ) (t : Db) : Prop where
  elsewhere : Elsewhere db t
  balance : ∀ o, t.balance o = b o

variable {b : WalletOwner → ℕ}

theorem Balanced.refl (db : Db) : Balanced db db.balance db :=
  ⟨⟨rfl, rfl, rfl, rfl, rfl, rfl⟩, fun _ => rfl⟩

/-- A wallet is found or made. -/
theorem Balanced.upsertWallet (h : Balanced db b s) (owner : WalletOwner) :
    Balanced db b (s.upsertWallet owner).2 ∧
      (s.upsertWallet owner).2.Owns (s.upsertWallet owner).1 owner := by
  unfold Db.upsertWallet
  split
  · rename_i id hid
    exact ⟨h, hid⟩
  · rename_i hnone
    refine ⟨⟨h.elsewhere.wallets _ _, fun o => ?_⟩, ?_⟩
    · rw [balance_append]
      exact h.balance o
    · unfold Db.Owns
      rw [List.findIdx?_append, hnone]
      simp

/-- The balance of one wallet changes. -/
theorem Balanced.update (h : Balanced db b s) (howns : s.Owns id owner)
    {k : ℕ → ℕ} (hg : ∀ w, g w = { w with balance := k w.balance }) :
    Balanced db (fun o => if o = owner then k (b o) else b o)
      { s with wallets := Table.update s.wallets id g } := by
  refine ⟨h.elsewhere.wallets _ _, fun o => ?_⟩
  rw [← h.balance o]
  unfold Db.balance
  rw [find?_update (fun w => by rw [hg]) howns o]
  by_cases ho : o = owner
  · subst ho
    obtain ⟨w, -, hw⟩ := exists_wallet howns
    simp [hw, hg]
  · simp [ho]

theorem Balanced.createWalletTransaction (h : Balanced db b s) (walletId : ℕ)
    (type : WalletTransactionType) (amount referenceId : ℕ) :
    Balanced db b (s.createWalletTransaction walletId type amount referenceId) :=
  ⟨h.elsewhere.wallets _ _, h.balance⟩

/-! ### The transaction -/

/-- The balances without the amount on the payer's wallet. -/
def debited (b : WalletOwner → ℕ) (profileId amount : ℕ) : WalletOwner → ℕ := fun o =>
  if o = .profile profileId then b o - amount else b o

/-- The balances with the amount moved from the payer to the system. -/
def moved (b : WalletOwner → ℕ) (profileId amount : ℕ) : WalletOwner → ℕ := fun o =>
  if o = .system then debited b profileId amount o + amount else debited b profileId amount o

@[simp]
theorem moved_profile : moved b profileId amount (.profile profileId) =
    b (.profile profileId) - amount := by
  simp [moved, debited]

theorem moved_zero (o : WalletOwner) : moved b profileId 0 o = b o := by
  simp [moved, debited]

theorem Balanced.debit (h : Balanced db b s) (howns : s.Owns id (.profile profileId)) (amount : ℕ) :
    Balanced db (debited b profileId amount)
      { s with wallets := Table.update s.wallets id fun w =>
          { w with balance := w.balance - amount } } :=
  h.update (k := fun balance => balance - amount) howns fun _ => rfl

theorem Balanced.credit (h : Balanced db (debited b profileId amount) s)
    (howns : s.Owns id .system) :
    Balanced db (moved b profileId amount) (s.incrementBalance id amount) :=
  h.update (k := fun balance => balance + amount) howns fun _ => rfl

/-- A claim that is granted is an update. -/
theorem claim_update {α : Type} {ws ws' : List α} {p : α → Bool} {g : α → α}
    (h : Table.claim ws id p g = some ws') : ws' = Table.update ws id g := by
  obtain ⟨w, hw, -, rfl⟩ := Table.claim_eq_some.1 h
  exact (Table.update_of_some hw g).symm

theorem triple_systemWallet (P : Db → Prop)
    (hmade : ∀ s, P s → P { s with wallets := s.wallets ++ [⟨.system, 0⟩] }) :
    Triple fails P getOrCreateSystemWallet (fun id s => P s ∧ s.Owns id .system) P := by
  refine .bind (Q := fun r s => P s ∧ r = s.wallets.findIdx? fun w => w.owner = .system)
    (.call (fun _ h => h) fun _ h _ => ⟨h, rfl⟩) fun r => ?_
  cases r with
  | some id => exact .pure fun s hs => ⟨hs.1, hs.2.symm⟩
  | none =>
    refine .call (fun _ h => h.1) fun s hs _ => ⟨hmade s hs.1, ?_⟩
    unfold Db.Owns
    rw [List.findIdx?_append, ← hs.2]
    simp

/-- A debit that throws leaves every balance as it was; one that does not has moved the amount. -/
theorem triple_debit (debitType creditType : WalletTransactionType) : Triple fails (fun s => s = db)
      (debitProfileAndCreditSystem profileId amount debitType creditType attemptId)
      (fun _ t => Balanced db (moved db.balance profileId amount) t ∧
        amount ≤ db.balance (.profile profileId))
      (Balanced db db.balance) := by
  refine .bind (Q := fun id s => Balanced db db.balance s ∧ s.Owns id (.profile profileId))
    (.call (fun s hs => hs ▸ .refl db) fun s hs _ => hs ▸ (Balanced.refl db).upsertWallet _)
    fun payer => ?_
  have hmade : ∀ s, Balanced db db.balance s ∧ s.Owns payer (.profile profileId) →
      Balanced db db.balance { s with wallets := s.wallets ++ [⟨.system, 0⟩] } ∧
        Db.Owns { s with wallets := s.wallets ++ [⟨.system, 0⟩] } payer (.profile profileId) := by
    rintro s ⟨hs, hpayer⟩
    refine ⟨⟨hs.elsewhere.wallets _ _, fun o => ?_⟩, owns_append hpayer _⟩
    rw [balance_append]
    exact hs.balance o
  refine .bind ((triple_systemWallet _ hmade).mono (fun _ h => h) (fun _ _ h => h) fun _ h => h.1)
    fun system => ?_
  refine .atomically (X := fun _ => True) ?_ fun s hs => hs.1.1
  refine .bind (Q := fun taken s => taken = true →
      Balanced db (debited db.balance profileId amount) s ∧ s.Owns system .system ∧
        amount ≤ db.balance (.profile profileId)) (.call (fun _ _ => trivial) ?_) fun taken => ?_
  · rintro s ⟨⟨hs, hpayer⟩, hsystem⟩ -
    split
    · rename_i wallets hclaim
      intro _
      obtain ⟨w, hw, hfound⟩ := exists_wallet hpayer
      obtain ⟨w', hw', hfunds, -⟩ := Table.claim_eq_some.1 hclaim
      obtain rfl : w = w' := Option.some.inj (hw.symm.trans hw')
      have hbalance : db.balance (.profile profileId) = w.balance := by
        rw [← hs.balance, Db.balance, hfound]
        rfl
      rw [claim_update hclaim, hbalance]
      refine ⟨hs.debit hpayer amount, ?_, of_decide_eq_true hfunds⟩
      exact owns_update (g := fun w => { w with balance := w.balance - amount }) (fun _ => rfl)
        hsystem payer
    · exact fun h => nomatch h
  cases taken with
  | false => exact .refuse fun _ _ => trivial
  | true =>
    refine .bind (Q := fun _ s => Balanced db (debited db.balance profileId amount) s ∧
        s.Owns system .system ∧ amount ≤ db.balance (.profile profileId))
      (.call (fun _ _ => trivial) fun s hs _ => ?_) fun _ => ?_
    · obtain ⟨hs, hsystem, hfunds⟩ := hs rfl
      exact ⟨hs.createWalletTransaction _ _ _ _, hsystem, hfunds⟩
    refine .bind (Q := fun _ s => Balanced db (moved db.balance profileId amount) s ∧
        amount ≤ db.balance (.profile profileId))
      (.call (fun _ _ => trivial) fun s hs _ => ⟨hs.1.credit hs.2.1, hs.2.2⟩)
      fun _ => ?_
    refine .bind (Q := fun _ s => Balanced db (moved db.balance profileId amount) s ∧
        amount ≤ db.balance (.profile profileId))
      (.call (fun _ _ => trivial) fun s hs _ => ⟨hs.1.createWalletTransaction _ _ _ _, hs.2⟩)
      fun _ => ?_
    exact .call (fun _ _ => trivial) fun s hs _ => hs

/-! ### The calls -/

/-- The calls of a debit. -/
def Db.debitCalls (db : Db) : List Site :=
  [.upsertPayerWallet] ++
    ((if (db.wallets.any fun w => w.owner = .system) then [.findSystemWallet]
      else [.findSystemWallet, .createSystemWallet]) ++
    [.decrementPayer, .createDebit, .incrementSystem, .createCredit, .commitDebit])

theorem any_upsertWallet (db : Db) (profileId : ℕ) :
    ((db.upsertWallet (.profile profileId)).2.wallets.any fun w => w.owner = .system) =
      db.wallets.any fun w => w.owner = .system := by
  unfold Db.upsertWallet
  split <;> simp

theorem route_systemWallet (h : Balanced db b s) (howns : s.Owns id (.profile profileId)) :
    ∃ system t, Route fails getOrCreateSystemWallet s
        (if (s.wallets.any fun w => w.owner = .system) then [.findSystemWallet]
          else [.findSystemWallet, .createSystemWallet]) system t ∧
      Balanced db b t ∧ t.Owns id (.profile profileId) := by
  cases hfound : s.wallets.findIdx? fun w => w.owner = .system with
  | some system =>
    have hany : (s.wallets.any fun w => w.owner = .system) = true := by
      by_contra hnone
      rw [Bool.not_eq_true, ← List.findIdx?_isSome, hfound] at hnone
      cases hnone
    refine ⟨system, s, ?_, h, howns⟩
    rw [if_pos hany]
    exact .read_bind (a := some system) hfound (.pure _ _)
  | none =>
    have hany : (s.wallets.any fun w => w.owner = .system) = false := by
      rw [← List.findIdx?_isSome, hfound]
      rfl
    refine ⟨s.wallets.length,
      { s with wallets := s.wallets ++ [{ owner := .system, balance := 0 }] }, ?_,
      ⟨h.elsewhere.wallets _ _, fun o => ?_⟩, owns_append howns _⟩
    · rw [if_neg (by rw [hany]; exact Bool.false_ne_true)]
      exact .read_bind (a := none) hfound (.call _ _ s)
    · rw [balance_append]
      exact h.balance o

/-- With enough on the payer's wallet, a debit fails only with its calls. -/
theorem route_debit (debitType creditType : WalletTransactionType)
    (hfunds : amount ≤ db.balance (.profile profileId)) :
    ∃ t, Route fails
      (debitProfileAndCreditSystem profileId amount debitType creditType attemptId) db
      db.debitCalls () t := by
  obtain ⟨hs, hpayer⟩ := (Balanced.refl db).upsertWallet (.profile profileId)
  obtain ⟨system, t, hsystem, ht, hpayer⟩ := route_systemWallet hs hpayer
  rw [any_upsertWallet] at hsystem
  obtain ⟨w, hw, hfound⟩ := exists_wallet hpayer
  have hbalance : db.balance (.profile profileId) = w.balance := by
    rw [← ht.balance, Db.balance, hfound]
    rfl
  obtain ⟨wallets, hclaim⟩ : ∃ wallets, Table.claim t.wallets
      (db.upsertWallet (.profile profileId)).1 (fun w => amount ≤ w.balance)
      (fun w => { w with balance := w.balance - amount }) = some wallets :=
    ⟨_, Table.claim_eq_some.2 ⟨w, hw, decide_eq_true (hbalance ▸ hfunds), rfl⟩⟩
  have hdecrement : Route fails (decrementBalance (db.upsertWallet (.profile profileId)).1 amount) t
      [.decrementPayer] true { t with wallets } :=
    .of_call (by rw [hclaim]) _
  exact ⟨_, .bind (.call _ _ db) (.bind hsystem (.atomically (.bind hdecrement
    (.bind (.call _ _ _) (.bind (.call _ _ _) (.bind (.call _ _ _) (.call _ _ _)))))))⟩

end Rabotka.Unlocking

/-!
## The checks of a payment

What the checks at the beginning of a payment ask of the database (`Admits`). They change nothing,
and what they let pass they have checked (`triple_admission`); and what meets them is let pass unless
one of their calls throws (`route_admission`).
-/

namespace Rabotka.Unlocking

open Faulty
open Hiring (ContactUnlockAttempt)

variable {db : Db} {profileId attemptId : ℕ} {now : ℤ} {attempt : ContactUnlockAttempt}
  {fails : Site → Bool}

/-- The sides of the attempt that the profile is on: the employer's, the worker's. -/
def sidesOf (attempt : ContactUnlockAttempt) (profileId : ℕ) : Bool × Bool :=
  (attempt.employerId = profileId, attempt.workerId = profileId)

/-- What the profile pays. -/
def amountOf (attempt : ContactUnlockAttempt) (profileId : ℕ) : ℕ :=
  if (sidesOf attempt profileId).1 then attempt.employerAmount else attempt.workerAmount

/-- The checks of the payment let it pass. -/
structure Admits (db : Db) (attemptId profileId : ℕ) (now : ℤ) (attempt : ContactUnlockAttempt) :
    Prop where
  found : db.attempts[attemptId]? = some attempt
  pending : attempt.status.isPending
  party : attempt.employerId = profileId ∨ attempt.workerId = profileId
  billing : (db.profiles[profileId]?).any Profile.billingBlocked = false
  penalties : db.penalties.countP
    (Penalty.blocks profileId (hardBlockCutoff now db.penaltyHardBlockDays)) = 0
  employerUnpaid : attempt.employerId = profileId → attempt.employerPaid = false
  workerUnpaid : attempt.workerId = profileId → attempt.workerPaid = false
  offered : (db.offers[attempt.jobOfferId]?).all Hiring.JobOffer.deleted = false

/-- The calls of the checks. -/
def admitCalls : List Site :=
  [.findAttempt, .findProfile, .getPenaltyHardBlockDays, .countPenalties, .findOffer]

theorem open_of_isPending {status : Hiring.ContactUnlockStatus} (h : status.isPending) :
    status ≠ .unlocked ∧ ¬(status = .expired ∨ status = .convertedToCredit) := by
  cases status <;> simp_all [Hiring.ContactUnlockStatus.isPending]

theorem isPending_of_open {status : Hiring.ContactUnlockStatus} (hlocked : status ≠ .unlocked)
    (hopen : ¬(status = .expired ∨ status = .convertedToCredit)) : status.isPending := by
  cases status <;> simp_all [Hiring.ContactUnlockStatus.isPending]

/-- Where the checks let a payment pass, only their calls can throw. -/
theorem route_admission (h : Admits db attemptId profileId now attempt) :
    Route fails (admitPayment attemptId profileId now) db admitCalls
      (some (attempt, sidesOf attempt profileId)) db := by
  have hensure : Route fails (ensurePayUnlockAttemptOrEarlyExit (some attempt)) db []
      (some attempt) db := by
    obtain ⟨hlocked, hopen⟩ := open_of_isPending h.pending
    unfold ensurePayUnlockAttemptOrEarlyExit
    simp only [hlocked, hopen, if_false]
    exact .pure _ _
  have hparty : Route fails (assertPayUnlockParticipant attempt profileId) db []
      (sidesOf attempt profileId) db := by
    unfold assertPayUnlockParticipant
    have hsides : (!decide (attempt.employerId = profileId) &&
        !decide (attempt.workerId = profileId)) = false := by
      rcases h.party with hside | hside <;> simp [hside]
    simp only [hsides, Bool.false_eq_true, if_false]
    exact .pure _ _
  have haccount : Route fails (assertPayUnlockAccountAllowsPayment profileId now) db
      [.findProfile, .getPenaltyHardBlockDays, .countPenalties] () db := by
    refine .read_bind (a := db.profiles[profileId]?) rfl ?_
    rw [h.billing]
    refine .read_bind (a := db.penaltyHardBlockDays) rfl (.read_bind (a := 0) h.penalties ?_)
    exact .pure _ _
  have hunpaid : Route fails (assertPayUnlockPartyNotAlreadyPaid attempt
      (sidesOf attempt profileId).1 (sidesOf attempt profileId).2) db [] () db := by
    have hemployer : ((sidesOf attempt profileId).1 && attempt.employerPaid) = false := by
      by_cases hside : attempt.employerId = profileId
      · rw [h.employerUnpaid hside, Bool.and_false]
      · simp [sidesOf, hside]
    have hworker : ((sidesOf attempt profileId).2 && attempt.workerPaid) = false := by
      by_cases hside : attempt.workerId = profileId
      · rw [h.workerUnpaid hside, Bool.and_false]
      · simp [sidesOf, hside]
    unfold assertPayUnlockPartyNotAlreadyPaid
    rw [hemployer, hworker]
    exact .pure _ _
  refine .read_bind h.found (.bind hensure (.bind hparty (.bind haccount (.bind hunpaid ?_))))
  refine .read_bind (a := db.offers[attempt.jobOfferId]?) rfl ?_
  rw [h.offered]
  exact .pure _ _

theorem triple_account : Triple fails (fun s => s = db)
    (assertPayUnlockAccountAllowsPayment profileId now)
    (fun _ t => t = db ∧ (db.profiles[profileId]?).any Profile.billingBlocked = false ∧
      db.penalties.countP
        (Penalty.blocks profileId (hardBlockCutoff now db.penaltyHardBlockDays)) = 0)
    (fun t => t = db) := by
  refine .bind (Q := fun profile s => s = db ∧ profile = db.profiles[profileId]?)
    (.call (fun _ h => h) fun s h _ => ⟨h, by rw [h]⟩) fun profile => ?_
  by_cases hblocked : profile.any Profile.billingBlocked = true
  · rw [if_pos hblocked]
    exact .refuse fun _ h => h.1
  rw [if_neg hblocked]
  refine .bind (Q := fun days s => (s = db ∧ profile = db.profiles[profileId]?) ∧
    days = db.penaltyHardBlockDays) (.call (fun _ h => h.1) fun s h _ => ⟨h, by rw [h.1]⟩)
    fun days => ?_
  refine .bind (Q := fun count s => ((s = db ∧ profile = db.profiles[profileId]?) ∧
      days = db.penaltyHardBlockDays) ∧ count = db.penalties.countP
        (Penalty.blocks profileId (hardBlockCutoff now days)))
    (.call (fun _ h => h.1.1) fun s h _ => ⟨h, by rw [h.1.1]⟩) fun count => ?_
  split_ifs with hcount
  · exact .refuse fun _ h => h.1.1.1
  · refine .pure fun s hs => ?_
    obtain ⟨⟨⟨rfl, rfl⟩, rfl⟩, rfl⟩ := hs
    exact ⟨rfl, Bool.eq_false_iff.2 hblocked, Nat.eq_zero_of_not_pos hcount⟩

/-- The checks change nothing, and what they let pass they have checked. -/
theorem triple_admission : Triple fails (fun s => s = db) (admitPayment attemptId profileId now)
    (fun r t => t = db ∧ ∀ x ∈ r, Admits db attemptId profileId now x.1 ∧
      x.2 = sidesOf x.1 profileId)
    (fun t => t = db) := by
  refine .bind (Q := fun row s => s = db ∧ row = db.attempts[attemptId]?)
    (.call (fun _ h => h) fun s h _ => ⟨h, by rw [h]⟩) fun row => .assuming fun hrow => ?_
  refine .bind (Q := fun r s => s = db ∧ ∀ attempt ∈ r, row = some attempt ∧
    attempt.status.isPending) ?_ fun r => .assuming fun hr => ?_
  · cases row with
    | none => exact .refuse fun _ h => h
    | some attempt =>
      unfold ensurePayUnlockAttemptOrEarlyExit
      simp only
      split_ifs with hlocked hclosed
      · exact .pure fun s h => ⟨h, fun _ hr => nomatch hr⟩
      · exact .refuse fun _ h => h
      · refine .pure fun s h => ⟨h, fun a ha => ?_⟩
        obtain rfl := Option.some.inj ha
        exact ⟨rfl, isPending_of_open hlocked hclosed⟩
  cases r with
  | none => exact .pure fun s h => ⟨h, fun _ hr => nomatch hr⟩
  | some attempt =>
    obtain ⟨hfound, hpending⟩ := hr attempt rfl
    refine .bind (Q := fun sides s => s = db ∧ sides = sidesOf attempt profileId ∧
      (attempt.employerId = profileId ∨ attempt.workerId = profileId)) ?_
      fun sides => .assuming fun ⟨hsides, hparty⟩ => ?_
    · unfold assertPayUnlockParticipant
      simp only
      split_ifs with hnone
      · exact .refuse fun _ h => h
      · refine .pure fun s h => ⟨h, rfl, ?_⟩
        simp only [Bool.and_eq_true, Bool.not_eq_true', decide_eq_false_iff_not] at hnone
        tauto
    refine .bind triple_account fun _ => .assuming fun ⟨hbilling, hpenalties⟩ => ?_
    refine .bind (Q := fun _ s => s = db ∧ (sides.1 && attempt.employerPaid) = false ∧
      (sides.2 && attempt.workerPaid) = false) ?_ fun _ => .assuming fun ⟨hemployer, hworker⟩ => ?_
    · unfold assertPayUnlockPartyNotAlreadyPaid
      split_ifs with hemployer hworker
      · exact .refuse fun _ h => h
      · exact .refuse fun _ h => h
      · exact .pure fun s h => ⟨h, Bool.eq_false_iff.2 hemployer, Bool.eq_false_iff.2 hworker⟩
    refine .bind (Q := fun offer s => s = db ∧ offer = db.offers[attempt.jobOfferId]?)
      (.call (fun _ h => h) fun s h _ => ⟨h, by rw [h]⟩) fun offer => .assuming fun hoffer => ?_
    split_ifs with hdeleted
    · exact .refuse fun _ h => h
    · refine .pure fun s h => ⟨h, fun x hx => ?_⟩
      obtain rfl := Option.some.inj hx
      subst hsides hoffer
      refine ⟨⟨hrow ▸ hfound, hpending, hparty, hbilling, hpenalties, ?_, ?_,
        Bool.eq_false_iff.2 hdeleted⟩, rfl⟩
      · simpa [sidesOf] using hemployer
      · simpa [sidesOf] using hworker

end Rabotka.Unlocking
