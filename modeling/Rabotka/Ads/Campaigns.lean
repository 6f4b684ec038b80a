import Mathlib.Data.Finset.Card
import Rabotka.Lib.Service
import Rabotka.Lib.Table
import Rabotka.Lib.Text

/-!
# Advertisements

An advertisement is written for a bundle, paid, submitted and reviewed. The lifecycle job makes an
approved one active once its start date is there and completes it once its end date is over; the
dispatch job also activates, and then sends each active advertisement that is due to profiles drawn
at random, on the channels of the bundle. A message leaves a row in the delivery log, which says
when it was sent if it was.

Every operation is one atomic command. Advertisements and bundles are named by their positions,
dates are days since the epoch and instants milliseconds. Which profiles there are, in which order
the database draws them, and which messages a carrier accepts is chosen by the environment at each
run. A date is compared with the day of an instant, as date columns are.
-/

namespace Rabotka.Ads

open Async Text

/-! ### Rows -/

inductive AdStatus
  | draft
  | pendingReview
  | approved
  | active
  | paused
  | completed
  | rejected
  | cancelled
  deriving DecidableEq

/-- How the status reads in a message. -/
def AdStatus.name : AdStatus → String
  | .draft => "DRAFT"
  | .pendingReview => "PENDING_REVIEW"
  | .approved => "APPROVED"
  | .active => "ACTIVE"
  | .paused => "PAUSED"
  | .completed => "COMPLETED"
  | .rejected => "REJECTED"
  | .cancelled => "CANCELLED"

inductive AdPaymentStatus
  | unpaid
  | paid
  | refunded
  deriving DecidableEq

inductive DeliveryChannel
  | email
  | whatsapp
  | all
  | inApp
  deriving DecidableEq

/-- `ConcreteChannel`. -/
inductive Channel
  | email
  | whatsapp
  | inApp
  deriving DecidableEq

inductive BundleTargetAudience
  | worker
  | employer
  | both
  deriving DecidableEq

/-- What a dispatch reads of a bundle. -/
structure Terms where
  maxReach : ℕ
  maxFrequencyPerWeek : ℕ
  allowedChannels : List DeliveryChannel
  targetAudience : BundleTargetAudience := .both
  deriving DecidableEq

structure Bundle extends Terms where
  maxDurationDays : ℕ
  isActive : Bool := true
  deriving DecidableEq

instance neZero24 : NeZero 24 := ⟨by decide⟩

instance neZero60 : NeZero 60 := ⟨by decide⟩

/-- `HH:MM`. -/
structure DispatchTime where
  hour : Fin 24
  minute : Fin 60
  deriving DecidableEq

structure Advertisement where
  bundleId : ℕ
  title : String
  description : String
  callToAction : Option String
  ctaUrl : Option String
  imageUrls : List String
  tags : List String
  startDate : ℕ
  endDate : ℕ
  dispatchTime : DispatchTime
  status : AdStatus := .draft
  rejectionReason : Option String := none
  paymentStatus : AdPaymentStatus := .unpaid
  deriving DecidableEq

inductive AdDeliveryStatus
  | sent
  | failed
  deriving DecidableEq

/-- A row of the delivery log. -/
structure DeliveryLog where
  advertisementId : ℕ
  profileId : ℕ
  channel : Channel
  status : AdDeliveryStatus
  sentAt : Option ℕ
  deriving DecidableEq

structure World where
  now : ℕ := 0
  bundles : List Bundle := []
  ads : List Advertisement := []
  logs : List DeliveryLog := []
  deriving DecidableEq

/-- A day, in milliseconds. -/
def dayMs : ℕ := 24 * 60 * 60 * 1000

/-- The day of the instant. -/
def dayOf (instant : ℕ) : ℕ := instant / dayMs

def World.today (w : World) : ℕ := dayOf w.now

/-! ### Requests -/

/-- `CreateAdvertisementDto`; the dates are instants. -/
structure CreateAdvertisementDto where
  bundleId : ℕ
  title : String
  description : String
  callToAction : Option String := none
  ctaUrl : Option String := none
  imageUrls : Option (List String) := none
  tags : Option (List String) := none
  startDate : ℕ
  endDate : ℕ
  dispatchTime : Option DispatchTime := none
  deriving DecidableEq

/-- `UpdateAdvertisementDto`. What may be null in a request is doubly optional. -/
structure UpdateAdvertisementDto where
  bundleId : Option ℕ := none
  title : Option String := none
  description : Option String := none
  callToAction : Option (Option String) := none
  ctaUrl : Option (Option String) := none
  imageUrls : Option (List String) := none
  tags : Option (List String) := none
  startDate : Option (Option ℕ) := none
  endDate : Option (Option ℕ) := none
  dispatchTime : Option DispatchTime := none
  deriving DecidableEq

/-- `UpdateBundleDto`, the channels as they are stored. -/
structure UpdateBundleDto where
  maxReach : Option ℕ := none
  maxFrequencyPerWeek : Option ℕ := none
  maxDurationDays : Option ℕ := none
  allowedChannels : Option (List DeliveryChannel) := none
  targetAudience : Option BundleTargetAudience := none
  isActive : Option Bool := none
  deriving DecidableEq

/-! ### The advertiser's operations -/

/-- `validateBundleConstraints`. -/
def validateBundleConstraints (startDate endDate : Option ℕ) (bundle : Bundle) :
    Except String Unit :=
  match startDate, endDate with
  | some start, some stop =>
    let diff : ℤ := stop - start
    if diff < dayMs then .error "endDate must be at least 1 day after startDate"
    else if bundle.maxDurationDays * dayMs < diff then
      .error s!"Campaign duration ({diff / dayMs} days) exceeds bundle maximum ({bundle.maxDurationDays} days)"
    else .ok ()
  | _, _ => .ok ()

/-- The bundle that an advertisement may be written for. -/
def requireBundle (bundles : List Bundle) (id : ℕ) : Except String Bundle :=
  match bundles[id]? with
  | none => .error "Bundle not found"
  | some bundle => if bundle.isActive then .ok bundle else .error "Bundle is not active"

def create (bundles : List Bundle) (dto : CreateAdvertisementDto) :
    Except String Advertisement := do
  let bundle ← requireBundle bundles dto.bundleId
  validateBundleConstraints (some dto.startDate) (some dto.endDate) bundle
  return {
    bundleId := dto.bundleId, title := dto.title, description := dto.description
    callToAction := dto.callToAction, ctaUrl := dto.ctaUrl, imageUrls := dto.imageUrls.getD []
    tags := dto.tags.getD [], startDate := dayOf dto.startDate, endDate := dayOf dto.endDate
    dispatchTime := dto.dispatchTime.getD ⟨8, 0⟩ }

/-- `EDITABLE_STATUSES`. -/
def editableStatuses : List AdStatus := [.draft, .paused]

/-- What an update is checked against: a new bundle, or the dates against the one it has. -/
def checkUpdate (bundles : List Bundle) (dto : UpdateAdvertisementDto) (ad : Advertisement) :
    Except String Unit :=
  if dto.bundleId.any (· ≠ ad.bundleId) then do
    let bundle ← requireBundle bundles (dto.bundleId.getD ad.bundleId)
    validateBundleConstraints dto.startDate.join dto.endDate.join bundle
  else if dto.startDate.isSome || dto.endDate.isSome then
    match bundles[ad.bundleId]? with
    | none => .ok ()
    | some bundle => validateBundleConstraints
        (some (dto.startDate.join.getD (ad.startDate * dayMs)))
        (some (dto.endDate.join.getD (ad.endDate * dayMs))) bundle
  else .ok ()

/-- The columns of an update. -/
def Advertisement.updated (ad : Advertisement) (dto : UpdateAdvertisementDto) : Advertisement :=
  { ad with
    bundleId := dto.bundleId.getD ad.bundleId
    title := dto.title.getD ad.title
    description := dto.description.getD ad.description
    callToAction := dto.callToAction.getD ad.callToAction
    ctaUrl := dto.ctaUrl.getD ad.ctaUrl
    imageUrls := dto.imageUrls.getD ad.imageUrls
    tags := dto.tags.getD ad.tags
    startDate := (dto.startDate.join.map dayOf).getD ad.startDate
    endDate := (dto.endDate.join.map dayOf).getD ad.endDate
    dispatchTime := dto.dispatchTime.getD ad.dispatchTime }

def update (bundles : List Bundle) (dto : UpdateAdvertisementDto) (ad : Advertisement) :
    Except String Advertisement := do
  if ad.status ∉ editableStatuses then
    throw s!"Cannot update advertisement in status {ad.status.name}. Only DRAFT or PAUSED ads can be modified."
  checkUpdate bundles dto ad
  return ad.updated dto

def confirmPayment (ad : Advertisement) : Except String Advertisement :=
  if ad.paymentStatus = .paid then
    .error "Payment is already confirmed for this advertisement"
  else .ok { ad with paymentStatus := .paid }

def submit (ad : Advertisement) : Except String Advertisement :=
  if ad.status ≠ .draft then .error "Only DRAFT advertisements can be submitted for review"
  else if ad.paymentStatus ≠ .paid then .error "Advertisement must be paid before submission"
  else .ok { ad with status := .pendingReview }

def pause (ad : Advertisement) : Except String Advertisement :=
  if ad.status ≠ .active then .error "Only ACTIVE advertisements can be paused"
  else .ok { ad with status := .paused }

def resume (ad : Advertisement) : Except String Advertisement :=
  if ad.status ≠ .paused then .error "Only PAUSED advertisements can be resumed"
  else .ok { ad with status := .approved }

def cancel (ad : Advertisement) : Except String Advertisement :=
  if ad.status = .completed then .error "Cannot cancel a completed advertisement"
  else .ok { ad with status := .cancelled }

/-! ### The administrator's operations -/

def approve (ad : Advertisement) : Except String Advertisement :=
  if ad.status ≠ .pendingReview then
    .error s!"Cannot approve advertisement in status {ad.status.name}. Must be PENDING_REVIEW."
  else .ok { ad with status := .approved }

def reject (reason : String) (ad : Advertisement) : Except String Advertisement :=
  if ad.status ≠ .pendingReview then
    .error s!"Cannot reject advertisement in status {ad.status.name}. Must be PENDING_REVIEW."
  else .ok { ad with status := .rejected, rejectionReason := some reason }

/-- The columns of `updateBundle`. -/
def Bundle.updated (bundle : Bundle) (dto : UpdateBundleDto) : Bundle where
  maxReach := dto.maxReach.getD bundle.maxReach
  maxFrequencyPerWeek := dto.maxFrequencyPerWeek.getD bundle.maxFrequencyPerWeek
  maxDurationDays := dto.maxDurationDays.getD bundle.maxDurationDays
  allowedChannels := dto.allowedChannels.getD bundle.allowedChannels
  targetAudience := dto.targetAudience.getD bundle.targetAudience
  isActive := dto.isActive.getD bundle.isActive

/-! ### The jobs -/

inductive ProfileType
  | worker
  | employer
  deriving DecidableEq

/-- What a dispatch reads of a profile. -/
structure Profile where
  id : ℕ
  profileType : ProfileType := .worker
  active : Bool := true
  deleted : Bool := false
  marketingOptOut : Bool := false
  email : Option String := none
  phone : Option String := none
  whatsappConnected : Bool := false
  deriving DecidableEq

/-- What the environment chooses at a dispatch: for each advertisement the profiles in the order
they are drawn, and which messages the carrier accepts. -/
structure Env where
  profiles : ℕ → List Profile := fun _ => []
  accepts : ℕ → ℕ → Channel → Bool := fun _ _ _ => true

/-- Approved advertisements that have begun become active. -/
def World.activate (w : World) : World :=
  { w with
    ads := Table.updateMany w.ads (fun _ a => a.status = .approved && a.startDate ≤ w.today)
      fun a => { a with status := .active } }

/-- Active advertisements that are over become completed. -/
def World.complete (w : World) : World :=
  { w with
    ads := Table.updateMany w.ads (fun _ a => a.status = .active && a.endDate < w.today)
      fun a => { a with status := .completed } }

def runLifecycle (w : World) : World := w.activate.complete

def BundleTargetAudience.profileTypes : BundleTargetAudience → List ProfileType
  | .worker => [.worker]
  | .employer => [.employer]
  | .both => [.worker, .employer]

/-- The row was sent at this instant or later. -/
def DeliveryLog.sentSince (instant : ℕ) (r : DeliveryLog) : Bool := r.sentAt.any (instant ≤ ·)

/-- `resolveRecipients`: at most `maxReach` profiles of the audience, in the order they are drawn,
without those that got the advertisement today. -/
def resolveRecipients (w : World) (id : ℕ) (terms : Terms) (profiles : List Profile) :
    List Profile :=
  let sentToday := w.logs.filter fun r =>
    r.advertisementId = id && r.sentSince (w.today * dayMs)
  (profiles.filter fun p => p.active && !p.deleted && !p.marketingOptOut &&
    p.profileType ∈ terms.targetAudience.profileTypes &&
      p.id ∉ sentToday.map DeliveryLog.profileId).take terms.maxReach

/-- The channels that a channel of a bundle stands for. -/
def DeliveryChannel.concrete : DeliveryChannel → List Channel
  | .email => [.email]
  | .whatsapp => [.whatsapp]
  | .inApp => [.inApp]
  | .all => [.email, .whatsapp]

/-- `normalizeChannels`: a set, in the order of the first mention. -/
def normalizeChannels (channels : List DeliveryChannel) : List Channel :=
  (channels.flatMap DeliveryChannel.concrete).reverse.dedup.reverse

/-- The channels on which the profile can get a message. -/
def deliverableChannels (allowed : List Channel) (p : Profile) : List Channel :=
  allowed.filter fun
    | .email => (trimmed p.email).isSome
    | .inApp => true
    | .whatsapp => p.phone.any (· ≠ "") && p.whatsappConnected

/-- The days on which a message of the advertisement was sent. -/
def sentDays (logs : List DeliveryLog) (id : ℕ) : Finset ℕ :=
  ((logs.filter fun r => r.advertisementId = id && r.status = .sent).filterMap fun r =>
    r.sentAt.map dayOf).toFinset

/-- How many batches are expected to be sent by the end of the day. -/
def expectedBatches (startDate maxFrequencyPerWeek : ℕ) (day : ℤ) : ℤ :=
  (day - startDate) * maxFrequencyPerWeek / 7 + 1

/-- The instant of the day at which the advertisement goes out. -/
def DispatchTime.at (t : DispatchTime) (day : ℕ) : ℕ :=
  day * dayMs + (60 * t.hour + t.minute) * 60000

def isDispatchDue (w : World) (id : ℕ) (ad : Advertisement) (terms : Terms) : Bool :=
  ad.dispatchTime.at w.today ≤ w.now &&
    !(w.logs.any fun r => r.advertisementId = id && r.sentSince (w.today * dayMs)) &&
      ((sentDays w.logs id).card : ℤ) <
        expectedBatches ad.startDate terms.maxFrequencyPerWeek w.today

/-- `basePayload`, without the dates. -/
structure Payload where
  title : String
  description : String
  ctaUrl : Option String
  callToAction : Option String
  imageUrl : Option String
  tags : List String
  deriving DecidableEq

def Advertisement.payload (ad : Advertisement) : Payload where
  title := ad.title
  description := ad.description
  ctaUrl := ad.ctaUrl
  callToAction := ad.callToAction
  imageUrl := ad.imageUrls.head?
  tags := ad.tags

/-- A message that a dispatch hands to a carrier. -/
structure Message where
  advertisementId : ℕ
  profileId : ℕ
  channel : Channel
  sentAt : Option ℕ
  payload : Payload
  bundleId : ℕ
  terms : Terms
  deriving DecidableEq

/-- What `sendOnChannel` leaves in the log. -/
def Message.log (m : Message) : DeliveryLog where
  advertisementId := m.advertisementId
  profileId := m.profileId
  channel := m.channel
  status := if m.sentAt.isSome then .sent else .failed
  sentAt := m.sentAt

/-- What `dispatchAd` sends: to each recipient on each of its channels. -/
def dispatchAd (w : World) (ε : Env) (id : ℕ) (ad : Advertisement) (terms : Terms) : List Message :=
  (resolveRecipients w id terms (ε.profiles id)).flatMap fun p =>
    (deliverableChannels (normalizeChannels terms.allowedChannels) p).map fun channel =>
      { advertisementId := id, profileId := p.id, channel
        sentAt := if ε.accepts id p.id channel then some w.now else none
        payload := ad.payload, bundleId := ad.bundleId, terms }

/-- What is sent of one advertisement, if it is due. -/
def dispatchOne (w : World) (ε : Env) (z : ℕ × Advertisement) : List Message :=
  match w.bundles[z.2.bundleId]? with
  | none => []
  | some bundle =>
    if isDispatchDue w z.1 z.2 bundle.toTerms then dispatchAd w ε z.1 z.2 bundle.toTerms else []

/-- The loop of `runDispatch` over the active advertisements. -/
def dispatchAll (ε : Env) : World → List (ℕ × Advertisement) → World × List Message
  | w, [] => (w, [])
  | w, z :: rest =>
    let sent := dispatchOne w ε z
    let r := dispatchAll ε { w with logs := w.logs ++ sent.map Message.log } rest
    (r.1, sent ++ r.2)

/-- The active advertisements. -/
def World.activeAds (w : World) : List (ℕ × Advertisement) :=
  Table.findMany w.ads fun _ a => a.status = .active

def runDispatch (ε : Env) (w : World) : World × List Message :=
  dispatchAll ε w.activate w.activate.activeAds

/-! ### The service -/

/-- The operations; time passes by `elapse`. -/
inductive Cmd
  | create (dto : CreateAdvertisementDto)
  | update (id : ℕ) (dto : UpdateAdvertisementDto)
  | confirmPayment (id : ℕ)
  | submit (id : ℕ)
  | pause (id : ℕ)
  | resume (id : ℕ)
  | cancel (id : ℕ)
  | approve (id : ℕ)
  | reject (id : ℕ) (reason : String)
  | createBundle (bundle : Bundle)
  | updateBundle (id : ℕ) (dto : UpdateBundleDto)
  | lifecycle
  | dispatch
  | elapse (milliseconds : ℕ)

abbrev Resp : Cmd → Type
  | .lifecycle => Unit
  | .dispatch => List Message
  | .elapse _ => Unit
  | _ => Except String Unit

/-- An operation on one advertisement. -/
def World.change (w : World) (id : ℕ) (f : Advertisement → Except String Advertisement) :
    World × Except String Unit :=
  match w.ads[id]? with
  | none => (w, .error "Advertisement not found")
  | some ad =>
    match f ad with
    | .error message => (w, .error message)
    | .ok ad' => ({ w with ads := w.ads.set id ad' }, .ok ())

/-- What a command does. -/
def exec (w : World) (ε : Env) : (c : Cmd) → World × Resp c
  | .create dto =>
    match Ads.create w.bundles dto with
    | .error message => (w, .error message)
    | .ok ad => ({ w with ads := w.ads ++ [ad] }, .ok ())
  | .update id dto => w.change id (Ads.update w.bundles dto)
  | .confirmPayment id => w.change id Ads.confirmPayment
  | .submit id => w.change id Ads.submit
  | .pause id => w.change id Ads.pause
  | .resume id => w.change id Ads.resume
  | .cancel id => w.change id Ads.cancel
  | .approve id => w.change id Ads.approve
  | .reject id reason => w.change id (Ads.reject reason)
  | .createBundle bundle => ({ w with bundles := w.bundles ++ [bundle] }, .ok ())
  | .updateBundle id dto =>
    match w.bundles[id]? with
    | none => (w, .error "Bundle not found")
    | some bundle => ({ w with bundles := w.bundles.set id (bundle.updated dto) }, .ok ())
  | .lifecycle => (runLifecycle w, ())
  | .dispatch => runDispatch ε w
  | .elapse milliseconds => ({ w with now := w.now + milliseconds }, ())

/-- No profile is drawn twice. -/
def Env.valid (ε : Env) (w : World) : Bool :=
  (List.range w.ads.length).all fun id => ((ε.profiles id).map Profile.id).Nodup

/-- The advertisements; every request is one command. -/
def service : Service World Cmd Resp Cmd Env Empty where
  exec w _ c ε := if ε.valid w then some (exec w ε c) else none
  handler c := (Op.cmd c).bind fun _ => .ret ()

end Rabotka.Ads
