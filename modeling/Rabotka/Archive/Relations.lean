import Rabotka.Archive.Purge

/-!
# What falls with a purged row

A record of money falls with a row along few paths: with a profile it belongs to, with the offer or
the application it is on, with a wallet, a request or a payment. Each path ends at a relation of the
purged row, which the registry names or does not (`unnamed`). So where the archived rows have none
of these relations (`Clear`), their deletion keeps every record (`Clear.keeps`).
-/

namespace Rabotka.Archive

open List

variable {rows : List Row} {model : Table} {ids : List ℕ} {r : Row} {entity : ArchiveEntity}

/-! ### What the registry does not name -/

/-- The employers of an offer. -/
def employers (rows : List Row) (jobOfferId : ℕ) : List ℕ :=
  rows.flatMap fun r => match r.data with
    | .jobOffer employerId => if r.id = jobOfferId then [employerId] else []
    | _ => []

/-- The two sides of an application. -/
def parties (rows : List Row) (applicationId : ℕ) : List ℕ :=
  rows.flatMap fun r => match r.data with
    | .application jobOfferId workerId =>
      if r.id = applicationId then workerId :: employers rows jobOfferId else []
    | _ => []

/-- An attempt somebody has paid for, on one of the profile's offers or applications or with it. -/
def attemptsOfParty : Relation where
  label := "déblocages de contact payés"
  owners rows r := match r.data with
    | .contactUnlockAttempt applicationId jobOfferId workerId employerId employerPaid workerPaid =>
      if employerPaid || workerPaid then
        workerId :: employerId :: (employers rows jobOfferId ++ parties rows applicationId)
      else []
    | _ => []

/-- A paid penalty on one of the profile's applications or on one to its offers. -/
def penaltiesOfParty : Relation where
  label := "pénalités payées"
  owners rows r := match r.data with
    | .penalty _ applicationId paid =>
      if paid then applicationId.toList.flatMap (parties rows) else []
    | _ => []

def attemptsOfApplication : Relation where
  label := "déblocages de contact payés"
  owners _ r := match r.data with
    | .contactUnlockAttempt applicationId _ _ _ employerPaid workerPaid =>
      if employerPaid || workerPaid then [applicationId] else []
    | _ => []

def walletsOfUser : Relation where
  label := "mouvements d'argent sur le portefeuille"
  owners rows r := match r.data with
    | .wallet userId _ => if hasMoved rows r.id then userId.toList else []
    | _ => []

def invoicesOfRequest : Relation where
  label := "factures"
  owners _ r := match r.data with
    | .invoice _ paymentRequestId _ => paymentRequestId.toList
    | _ => []

/-- The relations that lead to records of money and that the registry does not name. -/
def unnamed : Table → List Relation
  | .profile => [attemptsOfParty, penaltiesOfParty]
  | .application => [attemptsOfApplication]
  | .user => [walletsOfUser]
  | .paymentRequest => [invoicesOfRequest]
  | _ => []

/-! ### What is promised -/

/-- A deletion takes no record of money with it, and no live row of its table. -/
structure Keeps (rows : List Row) (model : Table) (ids : List ℕ) : Prop where
  records : ∀ r ∈ rows, r.data.isRecord → r.detach (gone rows model ids) ∈ deleteMany rows model ids
  live : ∀ r ∈ rows, r.data.table = model → r.deleted = false →
    r.detach (gone rows model ids) ∈ deleteMany rows model ids

/-! ### What falls with what -/

/-- An archived row among these has this name. -/
def Purged (rows : List Row) (model : Table) (ids : List ℕ) (q : Ref) : Prop :=
  ∃ r ∈ rows, r.isArchived model ids ∧ r.ref = q

/-- A row of this name falls. -/
def Fallen (rows : List Row) (model : Table) (ids : List ℕ) (q : Ref) : Prop :=
  ∃ r, Falls rows model ids r ∧ r.ref = q

variable {n : ℕ} {q : Ref}

theorem Purged.table (h : Purged rows model ids q) : q.table = model := by
  obtain ⟨r, -, harchived, rfl⟩ := h
  simp only [Row.isArchived, Bool.and_eq_true, decide_eq_true_eq] at harchived
  exact harchived.1.1

/-- A row of this name is one of those purged, or one of its parents falls. -/
theorem Fallen.cases (h : Fallen rows model ids q) : Purged rows model ids q ∨
    ∃ r ∈ rows, r.ref = q ∧ ∃ p ∈ r.data.parents, Fallen rows model ids p := by
  obtain ⟨r, hfalls, rfl⟩ := h
  obtain ⟨hr, harchived | ⟨p, hp, hkey⟩⟩ := Cascade.Schema.falls_cases.1 hfalls
  · exact .inl ⟨r, hr, harchived, rfl⟩
  · exact .inr ⟨r, hr, rfl, _, hkey, p, hp, rfl⟩

theorem model_injective {entity' : ArchiveEntity}
    (h : (archiveRegistry entity').model = (archiveRegistry entity).model) : entity' = entity := by
  cases entity <;> cases entity' <;> first | rfl | cases h

/-- The rows of an entity that may be purged have none of these relations. -/
structure Clear (rows : List Row) (entity : ArchiveEntity) (ids : List ℕ) : Prop where
  related : ∀ rel ∈ (archiveRegistry entity).relations ++ unnamed (archiveRegistry entity).model,
    ∀ n, Purged rows (archiveRegistry entity).model ids ⟨(archiveRegistry entity).model, n⟩ →
      ∀ z ∈ rows, n ∉ rel.owners rows z
  self : ∀ b ∈ (archiveRegistry entity).selfBlocked, ∀ r ∈ rows,
    r.isArchived (archiveRegistry entity).model ids → b.where_ r.data = false

/-- No row that is purged has a relation. -/
theorem Clear.no (h : Clear rows entity ids) (entity' : ArchiveEntity) (rel : Relation) {z : Row}
    (hrel : rel ∈ (archiveRegistry entity').relations ++ unnamed (archiveRegistry entity').model)
    (hp : Purged rows (archiveRegistry entity).model ids ⟨(archiveRegistry entity').model, n⟩)
    (hz : z ∈ rows) (hn : n ∈ rel.owners rows z) : False := by
  obtain rfl := model_injective hp.table
  exact h.related rel hrel n hp z hz hn

/-- No row of another table is purged. -/
theorem not_purged (hp : Purged rows (archiveRegistry entity).model ids q)
    (hq : q.table ∉ [.profile, .user, .jobOffer, .application, .penalty, .paymentRequest,
      .walletTransaction]) : False := by
  rw [hp.table] at hq
  cases entity <;> exact hq (by decide)

theorem fallen_profile (h : Fallen rows model ids ⟨.profile, n⟩) :
    Purged rows model ids ⟨.profile, n⟩ := by
  obtain hp | ⟨r, -, href, p, hp, -⟩ := h.cases
  · exact hp
  · obtain ⟨id, deleted, d⟩ := r
    cases d with
    | profile => cases hp
    | _ => cases href

theorem fallen_user (h : Fallen rows model ids ⟨.user, n⟩) : Purged rows model ids ⟨.user, n⟩ := by
  obtain hp | ⟨r, -, href, p, hp, -⟩ := h.cases
  · exact hp
  · obtain ⟨id, deleted, d⟩ := r
    cases d with
    | user => cases hp
    | _ => cases href

/-- An offer falls with its employer. -/
theorem fallen_jobOffer (h : Fallen rows model ids ⟨.jobOffer, n⟩) :
    Purged rows model ids ⟨.jobOffer, n⟩ ∨
      ∃ p ∈ employers rows n, Purged rows model ids ⟨.profile, p⟩ := by
  obtain hp | ⟨r, hr, href, p, hp, hfallen⟩ := h.cases
  · exact .inl hp
  · obtain ⟨id, deleted, d⟩ := r
    cases d with
    | jobOffer employerId =>
      obtain rfl : id = n := congrArg Ref.id href
      obtain rfl := mem_singleton.1 hp
      refine .inr ⟨employerId, mem_flatMap.2 ⟨_, hr, ?_⟩, fallen_profile hfallen⟩
      simp
    | _ => cases href

/-- An application falls with its worker, with its offer, or with its employer. -/
theorem fallen_application (h : Fallen rows model ids ⟨.application, n⟩) :
    Purged rows model ids ⟨.application, n⟩ ∨
      (∃ p ∈ parties rows n, Purged rows model ids ⟨.profile, p⟩) ∨
        ∃ r ∈ rows, ∃ jobOfferId ∈ applicationsOfJob.owners rows r,
          Purged rows model ids ⟨.jobOffer, jobOfferId⟩ := by
  obtain hp | ⟨r, hr, href, p, hp, hfallen⟩ := h.cases
  · exact .inl hp
  · obtain ⟨id, deleted, d⟩ := r
    cases d with
    | application jobOfferId workerId =>
      obtain rfl : id = n := congrArg Ref.id href
      have hparty : ∀ p ∈ workerId :: employers rows jobOfferId, p ∈ parties rows id := fun p hp =>
        mem_flatMap.2 ⟨_, hr, by simpa using hp⟩
      rcases mem_cons.1 hp with rfl | hp
      · rcases fallen_jobOffer hfallen with hpurged | ⟨p, hp, hpurged⟩
        · exact .inr (.inr ⟨_, hr, jobOfferId, mem_singleton_self _, hpurged⟩)
        · exact .inr (.inl ⟨p, hparty p (mem_cons_of_mem _ hp), hpurged⟩)
      · obtain rfl := mem_singleton.1 hp
        exact .inr (.inl ⟨workerId, hparty _ mem_cons_self, fallen_profile hfallen⟩)
    | _ => cases href

/-- A payment, or a request for one, falls with its profile. -/
theorem fallen_payment (h : Fallen rows model ids ⟨.payment, n⟩) :
    Purged rows model ids ⟨.payment, n⟩ ∨ ∃ r ∈ rows, ∃ p ∈ payments.owners rows r,
      Purged rows model ids ⟨.profile, p⟩ := by
  obtain hp | ⟨r, hr, href, p, hp, hfallen⟩ := h.cases
  · exact .inl hp
  · obtain ⟨id, deleted, d⟩ := r
    cases d with
    | payment profileId =>
      obtain rfl := mem_singleton.1 hp
      exact .inr ⟨_, hr, profileId, mem_singleton_self _, fallen_profile hfallen⟩
    | _ => cases href

theorem fallen_paymentRequest (h : Fallen rows model ids ⟨.paymentRequest, n⟩) :
    Purged rows model ids ⟨.paymentRequest, n⟩ ∨ ∃ r ∈ rows, ∃ p ∈ paymentRequests.owners rows r,
      Purged rows model ids ⟨.profile, p⟩ := by
  obtain hp | ⟨r, hr, href, p, hp, hfallen⟩ := h.cases
  · exact .inl hp
  · obtain ⟨id, deleted, d⟩ := r
    cases d with
    | paymentRequest profileId status =>
      obtain rfl := mem_singleton.1 hp
      exact .inr ⟨_, hr, profileId, mem_singleton_self _, fallen_profile hfallen⟩
    | _ => cases href

/-- A wallet on which money has moved falls with its owner. -/
theorem fallen_wallet (h : Fallen rows model ids ⟨.wallet, n⟩) (hmoved : hasMoved rows n) :
    Purged rows model ids ⟨.wallet, n⟩ ∨
      (∃ r ∈ rows, ∃ p ∈ wallets.owners rows r, Purged rows model ids ⟨.profile, p⟩) ∨
        ∃ r ∈ rows, ∃ u ∈ walletsOfUser.owners rows r, Purged rows model ids ⟨.user, u⟩ := by
  obtain hp | ⟨r, hr, href, p, hp, hfallen⟩ := h.cases
  · exact .inl hp
  · obtain ⟨id, deleted, d⟩ := r
    cases d with
    | wallet userId profileId =>
      obtain rfl : id = n := congrArg Ref.id href
      rcases mem_append.1 hp with hp | hp
      · obtain ⟨u, hu, rfl⟩ := mem_map.1 hp
        exact .inr (.inr ⟨_, hr, u, by simpa [walletsOfUser, hmoved] using hu, fallen_user hfallen⟩)
      · obtain ⟨p, hp, rfl⟩ := mem_map.1 hp
        exact .inr (.inl ⟨_, hr, p, by simpa [wallets, hmoved] using hp, fallen_profile hfallen⟩)
    | _ => cases href

/-! ### No record falls -/

theorem isArchived_table (h : r.isArchived model ids) : r.data.table = model := by
  simp only [Row.isArchived, Bool.and_eq_true, decide_eq_true_eq] at h
  exact h.1.1

/-- No attempt that somebody has paid for falls. -/
theorem Clear.attempt (h : Clear rows entity ids) (hr : r ∈ rows)
    {applicationId jobOfferId workerId employerId : ℕ} {employerPaid workerPaid : Bool}
    (hd : r.data = .contactUnlockAttempt applicationId jobOfferId workerId employerId employerPaid
      workerPaid) (hpaid : (employerPaid || workerPaid) = true)
    (hq : q ∈ r.data.parents) (hfallen : Fallen rows (archiveRegistry entity).model ids q) :
    False := by
  have hparty : ∀ p ∈ workerId :: employerId :: (employers rows jobOfferId ++
      parties rows applicationId), p ∈ attemptsOfParty.owners rows r := by
    intro p hp
    simpa only [attemptsOfParty, hd, hpaid, if_true] using hp
  have hprofile : ∀ p ∈ workerId :: employerId :: (employers rows jobOfferId ++
      parties rows applicationId),
      Purged rows (archiveRegistry entity).model ids ⟨.profile, p⟩ → False := fun p hp hpurged =>
    h.no .profiles attemptsOfParty (by simp [archiveRegistry, unnamed]) hpurged hr (hparty p hp)
  rw [hd] at hq
  simp only [Data.parents, mem_cons, not_mem_nil, or_false] at hq
  rcases hq with rfl | rfl | rfl | rfl
  · rcases fallen_application hfallen with hp | ⟨p, hp, hpurged⟩ | ⟨z, hz, j, hj, hpurged⟩
    · exact h.no .applications attemptsOfApplication (by simp [archiveRegistry, unnamed])
        hp hr (by simpa [attemptsOfApplication, hd] using hpaid)
    · exact hprofile p (by simp [hp]) hpurged
    · exact h.no .jobs applicationsOfJob (by simp [archiveRegistry]) hpurged hz hj
  · rcases fallen_jobOffer hfallen with hp | ⟨p, hp, hpurged⟩
    · exact h.no .jobs unlockAttemptsOfJob (by simp [archiveRegistry]) hp hr
        (by simp [unlockAttemptsOfJob, hd])
    · exact hprofile p (by simp [hp]) hpurged
  · exact hprofile workerId (by simp) (fallen_profile hfallen)
  · exact hprofile employerId (by simp) (fallen_profile hfallen)

/-- No paid penalty falls with its profile or with its application. -/
theorem Clear.penalty (h : Clear rows entity ids) (hr : r ∈ rows) {profileId : ℕ}
    {applicationId : Option ℕ} (hd : r.data = .penalty profileId applicationId true)
    (hq : q ∈ r.data.parents) (hfallen : Fallen rows (archiveRegistry entity).model ids q) :
    False := by
  rw [hd] at hq
  rcases mem_cons.1 hq with rfl | hq
  · exact h.no .profiles paidPenalties (by simp [archiveRegistry])
      (fallen_profile hfallen) hr (by simp [paidPenalties, hd])
  · obtain ⟨a, ha, rfl⟩ := mem_map.1 hq
    obtain rfl := Option.mem_toList.1 ha
    rcases fallen_application hfallen with hp | ⟨p, hp, hpurged⟩ | ⟨z, hz, j, hj, hpurged⟩
    · exact h.no .applications penaltiesOfApplication (by simp [archiveRegistry]) hp hr
        (by simp [penaltiesOfApplication, hd])
    · exact h.no .profiles penaltiesOfParty (by simp [archiveRegistry, unnamed]) hpurged hr
        (by simpa [penaltiesOfParty, hd] using hp)
    · exact h.no .jobs applicationsOfJob (by simp [archiveRegistry]) hpurged hz hj

/-- No invoice falls. -/
theorem Clear.invoice (h : Clear rows entity ids) (hr : r ∈ rows) {profileId : ℕ}
    {paymentRequestId paymentId : Option ℕ}
    (hd : r.data = .invoice profileId paymentRequestId paymentId)
    (hq : q ∈ r.data.parents) (hfallen : Fallen rows (archiveRegistry entity).model ids q) :
    False := by
  rw [hd] at hq
  simp only [Data.parents, mem_cons, mem_append, mem_map, Option.mem_toList] at hq
  rcases hq with rfl | ⟨m, rfl, rfl⟩ | ⟨m, rfl, rfl⟩
  · exact h.no .profiles invoices (by simp [archiveRegistry]) (fallen_profile hfallen) hr
      (by simp [invoices, hd])
  · rcases fallen_paymentRequest hfallen with hp | ⟨z, hz, p, hp, hpurged⟩
    · exact h.no .paymentRequests invoicesOfRequest (by simp [archiveRegistry, unnamed])
        hp hr (by simp [invoicesOfRequest, hd])
    · exact h.no .profiles paymentRequests (by simp [archiveRegistry]) hpurged hz hp
  · rcases fallen_payment hfallen with hp | ⟨z, hz, p, hp, hpurged⟩
    · exact not_purged hp (by simp)
    · exact h.no .profiles payments (by simp [archiveRegistry]) hpurged hz hp

/-- No movement of money falls with its wallet. -/
theorem Clear.walletTransaction (h : Clear rows entity ids) (hr : r ∈ rows) {walletId : ℕ}
    {type : Money.WalletTransactionType} (hd : r.data = .walletTransaction walletId type)
    (htype : type ∈ moneyMoved) (hq : q ∈ r.data.parents)
    (hfallen : Fallen rows (archiveRegistry entity).model ids q) : False := by
  have hmoved : hasMoved rows walletId := any_eq_true.2 ⟨r, hr, by simp [hd, htype]⟩
  rw [hd] at hq
  obtain rfl := mem_singleton.1 hq
  rcases fallen_wallet hfallen hmoved with hp | ⟨z, hz, p, hp, hpurged⟩ | ⟨z, hz, u, hu, hpurged⟩
  · exact not_purged hp (by simp)
  · exact h.no .profiles wallets (by simp [archiveRegistry]) hpurged hz hp
  · exact h.no .users walletsOfUser (by simp [archiveRegistry, unnamed]) hpurged hz hu

/-- No record falls with another row. -/
theorem Clear.not_hangs (h : Clear rows entity ids) (hr : r ∈ rows) (hrecord : r.data.isRecord)
    (hq : q ∈ r.data.parents)
    (hfallen : Fallen rows (archiveRegistry entity).model ids q) : False := by
  cases hd : r.data with
  | contactUnlockAttempt a j w e employerPaid workerPaid =>
    rw [hd] at hrecord
    exact h.attempt hr hd hrecord hq hfallen
  | penalty profileId applicationId paid =>
    rw [hd] at hrecord
    obtain rfl : paid = true := hrecord
    exact h.penalty hr hd hq hfallen
  | invoice profileId paymentRequestId paymentId => exact h.invoice hr hd hq hfallen
  | walletTransaction walletId type =>
    rw [hd] at hrecord
    exact h.walletTransaction hr hd (of_decide_eq_true hrecord) hq hfallen
  | payment profileId =>
    rw [hd] at hq
    obtain rfl := mem_singleton.1 hq
    exact h.no .profiles payments (by simp [archiveRegistry]) (fallen_profile hfallen) hr
      (by simp [payments, hd])
  | paymentRequest profileId status =>
    rw [hd] at hq
    obtain rfl := mem_singleton.1 hq
    exact h.no .profiles paymentRequests (by simp [archiveRegistry])
      (fallen_profile hfallen) hr (by simp [paymentRequests, hd])
  | contactRecord employerId workerId jobOfferId =>
    rw [hd] at hq
    simp only [Data.parents, mem_cons, not_mem_nil, or_false] at hq
    rcases hq with rfl | rfl
    · exact h.no .profiles contactRecordsAsEmployer (by simp [archiveRegistry])
        (fallen_profile hfallen) hr (by simp [contactRecordsAsEmployer, hd])
    · exact h.no .profiles contactRecordsAsWorker (by simp [archiveRegistry])
        (fallen_profile hfallen) hr (by simp [contactRecordsAsWorker, hd])
  | _ =>
    rw [hd] at hrecord
    cases hrecord

theorem table_of_isRecord {d : Data} (h : d.isRecord) : d.table ∈ ([.payment, .invoice,
    .paymentRequest, .walletTransaction, .penalty, .contactRecord, .contactUnlockAttempt] :
      List Table) := by
  revert h
  cases d <;> simp [Data.isRecord, Data.table]

/-- No record is among the rows that are purged. -/
theorem Clear.not_archived (h : Clear rows entity ids) (hr : r ∈ rows) (hrecord : r.data.isRecord)
    (harchived : r.isArchived (archiveRegistry entity).model ids) : False := by
  have htable := isArchived_table harchived
  cases entity with
  | penalties =>
    have hself := h.self _ rfl r hr harchived
    cases hd : r.data with
    | penalty profileId applicationId paid =>
      rw [hd] at hself hrecord
      obtain rfl : paid = true := hrecord
      cases hself
    | _ =>
      rw [hd] at htable
      cases htable
  | paymentRequests =>
    have hself := h.self _ rfl r hr harchived
    cases hd : r.data with
    | paymentRequest profileId status =>
      rw [hd] at hself hrecord
      exact Bool.eq_false_iff.1 hself hrecord
    | _ =>
      rw [hd] at htable
      cases htable
  | walletTransactions => cases h.self _ rfl r hr harchived
  | profiles | users | jobs | applications =>
    exact (by simp [htable, archiveRegistry] : ¬ _) (table_of_isRecord hrecord)

theorem Clear.keeps (h : Clear rows entity ids) :
    Keeps rows (archiveRegistry entity).model ids where
  records r hr hrecord := by
    refine mem_deleteMany.2 ⟨r, hr, fun hfalls => ?_, rfl⟩
    obtain ⟨-, harchived | ⟨q, hq, hkey⟩⟩ := Cascade.Schema.falls_cases.1 hfalls
    · exact h.not_archived hr hrecord harchived
    · exact h.not_hangs hr hrecord hkey ⟨q, hq, rfl⟩
  live r hr htable hlive := by
    refine mem_deleteMany.2 ⟨r, hr, fun hfalls => ?_, rfl⟩
    -- nothing of the table hangs on what is purged of it
    have harchived := hfalls.of_rank_le (n := (archiveRegistry entity).model.rank)
      (fun z _ hz => (congrArg Table.rank (isArchived_table hz)).ge)
      (congrArg Table.rank htable).le
    simp [Row.isArchived, hlive] at harchived

end Rabotka.Archive
