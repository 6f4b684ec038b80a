import Rabotka.Ads.Campaigns

/-!
# Openings and clicks

`resolveAndTrackClick`, `markSeen` and `sendOnChannel` side by side, command by command. A click
reads its link and then its delivery, and decides from this row whether it is the first click and
the first opening; a transaction then counts. A dismissal sets `opened_at` by a guarded update, and
counts the opening by a second one, whose failure is logged and dropped. A delivery is created
before its links.

Rows are numbered by their position, and a hash is the number of its link. Any command can throw.
-/

namespace Rabotka.Ads.Clicks

/-- The counters of an `advertisement`. -/
structure Totals where
  totalOpened : ℕ := 0
  totalClicks : ℕ := 0
  deriving DecidableEq

/-- A row of `ad_delivery_logs`. -/
structure Delivery where
  advertisementId : ℕ
  profileId : ℕ
  channel : Channel
  status : AdDeliveryStatus := .failed
  sentAt : Option ℕ := none
  openedAt : Option ℕ := none
  clickedAt : Option ℕ := none
  deriving DecidableEq

/-- A row of `ad_tracked_links`. -/
structure TrackedLink where
  advertisementId : ℕ
  deliveryLogId : ℕ
  originalUrl : String
  clickCount : ℕ := 0
  lastClickedAt : Option ℕ := none
  deriving DecidableEq

/-- A call, by what it does next: `resolveAndTrackClick` finds the link, reads the delivery,
commits; `markSeen` updates the delivery, looks it up, counts; `sendOnChannel` creates the delivery,
creates its links, and notes whether the message was sent. -/
inductive Call
  | finding (hash : ℕ)
  | reading (link advertisementId deliveryLogId now : ℕ)
  | committing (link advertisementId deliveryLogId now : ℕ) (isFirstClick isFirstOpen : Bool)
  | seeing (profileId deliveryId : ℕ)
  | looking (deliveryId : ℕ)
  | counting (advertisementId : ℕ)
  | sending (advertisementId profileId : ℕ) (channel : Channel) (urls : List String)
  | tracking (deliveryLogId advertisementId : ℕ) (urls : List String)
  | done
  deriving DecidableEq

/-- The clock, the tables, and the calls so far. -/
structure World where
  now : ℕ := 0
  ads : List Totals := []
  deliveries : List Delivery := []
  links : List TrackedLink := []
  calls : List Call := []

/-- Time passes, a call comes in, the next command of call `i` is carried out (`sent` is the answer
of a carrier), or it throws. -/
inductive Event
  | pass (ms : ℕ)
  | click (hash : ℕ)
  | markSeen (profileId deliveryId : ℕ)
  | sendOnChannel (advertisementId profileId : ℕ) (channel : Channel) (urls : List String)
  | take (i : ℕ) (sent : Bool)
  | throw (i : ℕ)
  deriving DecidableEq

/-- The transaction of `resolveAndTrackClick`. It fails where one of the rows is missing. -/
def World.commit (w : World) (link advertisementId deliveryLogId now : ℕ)
    (isFirstClick isFirstOpen : Bool) : World :=
  match w.links[link]?, w.ads[advertisementId]?, w.deliveries[deliveryLogId]? with
  | some l, some a, some d =>
    { w with
      links := w.links.set link { l with clickCount := l.clickCount + 1, lastClickedAt := some now }
      ads := w.ads.set advertisementId
        { totalClicks := a.totalClicks + 1
          totalOpened := if isFirstOpen then a.totalOpened + 1 else a.totalOpened }
      deliveries := w.deliveries.set deliveryLogId
        { d with
          clickedAt := if isFirstClick then some now else d.clickedAt
          openedAt := if isFirstOpen then some now else d.openedAt } }
  | _, _, _ => w

/-- The guard of `markSeen`. -/
def Delivery.canBeSeen (profileId : ℕ) (d : Delivery) : Bool :=
  d.profileId = profileId ∧ d.channel = .inApp ∧ d.openedAt = none

/-- The next command of a call: the tables after it, and what the call does then. -/
def World.next (w : World) (sent : Bool) : Call → Option (World × Call)
  | .finding hash =>
    match w.links[hash]? with
    | some l => some (w, .reading hash l.advertisementId l.deliveryLogId w.now)
    | none => some (w, .done)
  | .reading link advertisementId deliveryLogId now =>
    let deliveryLog := w.deliveries[deliveryLogId]?
    some (w, .committing link advertisementId deliveryLogId now
      (deliveryLog.any fun d => d.clickedAt = none) (deliveryLog.any fun d => d.openedAt = none))
  | .committing link advertisementId deliveryLogId now isFirstClick isFirstOpen =>
    some (w.commit link advertisementId deliveryLogId now isFirstClick isFirstOpen, .done)
  | .seeing profileId deliveryId =>
    match w.deliveries[deliveryId]? with
    | some d =>
      if d.canBeSeen profileId then
        some ({ w with
          deliveries := w.deliveries.set deliveryId { d with openedAt := some w.now } },
          .looking deliveryId)
      else some (w, .done)
    | none => some (w, .done)
  | .looking deliveryId =>
    match w.deliveries[deliveryId]? with
    | some d => some (w, .counting d.advertisementId)
    | none => some (w, .done)
  | .counting advertisementId =>
    some ({ w with ads := Table.update w.ads advertisementId fun a =>
      { a with totalOpened := a.totalOpened + 1 } }, .done)
  | .sending advertisementId profileId channel urls =>
    if advertisementId < w.ads.length then
      some ({ w with deliveries := w.deliveries ++ [{ advertisementId, profileId, channel }] },
        .tracking w.deliveries.length advertisementId urls)
    else some (w, .done)
  | .tracking deliveryLogId advertisementId (url :: urls) =>
    some ({ w with links := w.links ++ [{ advertisementId, deliveryLogId, originalUrl := url }] },
      .tracking deliveryLogId advertisementId urls)
  | .tracking deliveryLogId _ [] =>
    some ({ w with deliveries := Table.update w.deliveries deliveryLogId fun d =>
      if sent then { d with status := .sent, sentAt := some w.now } else d }, .done)
  | .done => none

/-- One event. -/
def World.step (w : World) : Event → Option World
  | .pass ms => some { w with now := w.now + ms }
  | .click hash => some { w with calls := w.calls ++ [.finding hash] }
  | .markSeen profileId deliveryId =>
    some { w with calls := w.calls ++ [.seeing profileId deliveryId] }
  | .sendOnChannel advertisementId profileId channel urls =>
    some { w with calls := w.calls ++ [.sending advertisementId profileId channel urls] }
  | .take i sent =>
    (w.calls[i]?.bind (w.next sent)).map fun p => { p.1 with calls := p.1.calls.set i p.2 }
  | .throw i =>
    match w.calls[i]? with
    | none | some .done => none
    | some _ => some { w with calls := w.calls.set i .done }

/-- A run. -/
def World.run (w : World) : List Event → Option World
  | [] => some w
  | e :: events => (w.step e).bind fun w' => run w' events

/-! ### The counters -/

/-- No call is in progress. -/
def World.Idle (w : World) : Prop := ∀ c ∈ w.calls, c = .done

/-- The counters of each advertisement are those of its deliveries and its links. -/
def World.Matches (w : World) : Prop :=
  ∀ id a, w.ads[id]? = some a →
    a.totalOpened = w.deliveries.countP (fun d => d.advertisementId = id ∧ d.openedAt.isSome) ∧
      a.totalClicks =
        ((w.links.filter fun l => l.advertisementId = id).map TrackedLink.clickCount).sum

/-- A delivery that has been opened or clicked on keeps the time. -/
def World.KeepsFirst (w w' : World) : Prop :=
  ∀ (id : ℕ) d, w.deliveries[id]? = some d → ∃ d', w'.deliveries[id]? = some d' ∧
    (∀ t, d.openedAt = some t → d'.openedAt = some t) ∧
      ∀ t, d.clickedAt = some t → d'.clickedAt = some t

/-- A click that commits finds the delivery as it read it, as far as it is about to set it, and a
dismissal that has set `opened_at` does not throw. -/
def World.undisturbed (w : World) : Event → Bool
  | .take i _ =>
    match w.calls[i]? with
    | some (.committing _ _ deliveryLogId _ isFirstClick isFirstOpen) =>
      w.deliveries[deliveryLogId]?.all fun d =>
        (!isFirstClick || d.clickedAt.isNone) && (!isFirstOpen || d.openedAt.isNone)
    | _ => true
  | .throw i =>
    match w.calls[i]? with
    | some (.looking _) | some (.counting _) => false
    | _ => true
  | _ => true

/-- Every step of a run is undisturbed. -/
def World.undisturbedRun (w : World) : List Event → Bool
  | [] => true
  | e :: events => w.undisturbed e && (w.step e).all fun w' => undisturbedRun w' events

end Rabotka.Ads.Clicks
