import Mathlib.Algebra.Order.Ring.Rat
import Rabotka.Lib.Recency
import Rabotka.Lib.Service

/-!
# The interest graph

What a user has taught the feed is one point of a vector store: a vector and a payload with the
number of signals, the jobs seen and the categories. `applySignal` reads the point, or seeds one
from the profile, and writes it back whole; `ensureSeeded` seeds where nothing has been learned.

Each retrieve and each upsert is one call; one that the store refuses throws and changes nothing,
and a retrieve that throws is taken for a point that is not there. Numbers are exact; dividing a
vector by its length is a parameter.
-/

namespace Rabotka.Interests

open Async

/-! ### Points -/

/-- The payload of a point, as far as it is read. -/
structure Payload where
  userId : Option String := none
  totalSignals : Option ℕ := none
  seenJobIds : Option (List String) := none
  categories : Option (List String) := none
  deriving DecidableEq

structure Point where
  vector : List ℚ
  payload : Payload := {}
  deriving DecidableEq

/-- The points of the collection, by user. -/
structure World where
  points : String → Option Point := fun _ => none

/-- A profile, as far as seeding reads it. -/
structure Worker where
  active : Bool := true
  description : Option String := none
  category : Option String := none
  categories : List String := []
  deriving DecidableEq

/-- `VECTOR_DIM`. -/
def vectorDim : ℕ := 384

/-- `ALPHA_MATURE_THRESHOLD`. -/
def alphaMatureThreshold : ℕ := 10

/-- `MAX_SEEN_JOB_IDS`. -/
def maxSeenJobIds : ℕ := 50

/-- `MAX_TRACKED_CATEGORIES`. -/
def maxTrackedCategories : ℕ := 30

/-! ### What a signal does to a point -/

/-- The adaptive weight of what was there before. -/
def alpha (signalCount : ℕ) : ℚ :=
  let maturity : ℚ := min signalCount alphaMatureThreshold / alphaMatureThreshold
  85 / 100 * maturity + 1 / 2 * (1 - maturity)

/-- The moving average. -/
def average (signalCount : ℕ) (vector jobVector : List ℚ) (weight : ℚ) : List ℚ :=
  vector.mapIdx fun i v =>
    alpha signalCount * v + (1 - alpha signalCount) * weight * jobVector.getD i 0

def Payload.total (p : Payload) : ℕ := p.totalSignals.getD 0

def Payload.seen (p : Payload) : List String := p.seenJobIds.getD []

def Payload.tracked (p : Payload) : List String := p.categories.getD []

/-- A category that is not tracked yet, with the last ones before it. -/
def track (category : Option String) (prevCats : List String) : List String :=
  match category with
  | none => prevCats
  | some c =>
    if c ≠ "" ∧ c ∉ prevCats then (prevCats ++ [c]).rtake maxTrackedCategories else prevCats

def Payload.learn (p : Payload) (userId jobId : String) (category : Option String) : Payload where
  userId := some userId
  totalSignals := some (p.total + 1)
  seenJobIds := some (Recency.enter maxSeenJobIds jobId p.seen)
  categories := some (track category p.tracked)

/-- What a seed carries forward. -/
def Payload.stamp (p : Payload) (userId : String) : Payload :=
  { p with userId := some userId, totalSignals := some p.total }

/-- Half of what was there, half of the seed. -/
def blend (seedVector : List ℚ) (existing : Option Point) : List ℚ :=
  match existing with
  | none => seedVector
  | some p => seedVector.mapIdx fun i x => 1 / 2 * p.vector.getD i 0 + 1 / 2 * x

/-- What a profile says of itself. -/
def Worker.text (w : Worker) : String :=
  let parts := w.category.toList ++ w.categories ++ w.description.toList
  String.ofList ((" ".intercalate (parts.filter (· ≠ ""))).toList.take 500)

/-! ### Calls -/

/-- Why a point is written. -/
inductive Cause
  | seed
  | signal (jobId : String) (category : Option String)
  deriving DecidableEq

/-- An upsert says what it is for; the point does not keep it. -/
inductive Cmd
  | countActive (userId : String)
  | findWorker (userId : String)
  | embed (text : String)
  | retrieve (userId : String)
  | upsert (cause : Cause) (userId : String) (point : Point)

abbrev Resp : Cmd → Type
  | .countActive _ => ℕ
  | .findWorker _ => Option Worker
  | .embed _ => List ℚ
  | .retrieve _ => Option Point
  | .upsert _ _ _ => Unit

/-- What the environment chooses at a call. -/
structure Env where
  worker : Option Worker := some {}
  embedding : List ℚ := []
  deriving DecidableEq

/-- What a command does. -/
def exec (w : World) (ε : Env) : (c : Cmd) → World × Resp c
  | .countActive _ => (w, if ε.worker.any Worker.active then 1 else 0)
  | .findWorker _ => (w, ε.worker)
  | .embed _ => (w, ε.embedding)
  | .retrieve userId => (w, w.points userId)
  | .upsert _ userId point => (⟨Function.update w.points userId (some point)⟩, ())

/-! ### Operations -/

/-- What an operation throws. -/
structure Exn where
  message : String
  deriving DecidableEq

/-- An operation of this service. -/
abbrev Prog (α : Type) := Op Resp Exn α

/-- Issues one call. -/
def issue (c : Cmd) : Prog (Resp c) := Op.cmd c

def refuse {α : Type} (message : String) : Prog α := throw ⟨message⟩

/-- A retrieve that throws finds nothing. -/
def retrievePoint (userId : String) : Prog (Option Point) :=
  tryCatch (issue (.retrieve userId)) fun _ => return none

variable (normalize : List ℚ → List ℚ)

/-- The vector that a profile starts with. -/
def seedVector (profileText : String) : Prog (List ℚ) :=
  if profileText = "" then return List.replicate vectorDim 0 else issue (.embed profileText)

def seedFromProfile (userId : String) (existing : Option Point) : Prog Point := do
  match ← issue (.findWorker userId) with
  | none => refuse s!"Cannot seed interest profile for inactive or missing profile {userId}"
  | some worker =>
    if worker.active = false then
      refuse s!"Cannot seed interest profile for inactive or missing profile {userId}"
    else
      let seed ← seedVector worker.text
      let point : Point :=
        { vector := normalize (blend seed existing)
          payload := ((existing.map Point.payload).getD {}).stamp userId }
      issue (.upsert .seed userId point)
      return point

/-- The point of the user, seeded if none is found. -/
def existingOrSeed (userId : String) : Prog Point := do
  match ← retrievePoint userId with
  | some existing => return existing
  | none => seedFromProfile normalize userId none

def applySignal (userId jobId : String) (jobVector : List ℚ) (weight : ℚ)
    (category : Option String) : Prog Unit := do
  let existing ← existingOrSeed normalize userId
  let signalCount := existing.payload.total + 1
  issue (.upsert (.signal jobId category) userId
    { vector := normalize (average signalCount existing.vector jobVector weight)
      payload := existing.payload.learn userId jobId category })

def ensureSeeded (userId : String) : Prog Unit := do
  let found ← issue (.countActive userId)
  if found = 0 then refuse s!"Profile {userId} not found or not active"
  else
    let existing ← retrievePoint userId
    if (existing.any fun p => 0 < p.payload.total) then return
    else
      let _ ← seedFromProfile normalize userId existing
      return

inductive Request
  | signal (userId jobId : String) (jobVector : List ℚ) (weight : ℚ) (category : Option String)
  | ensureSeeded (userId : String)

def handler : Request → Prog Unit
  | .signal userId jobId jobVector weight category =>
    applySignal normalize userId jobId jobVector weight category
  | .ensureSeeded userId => ensureSeeded normalize userId

/-- The collection with everything that writes it. -/
def service : Service World Cmd Resp Request Env Exn where
  exec w _ c ε := some (exec w ε c)
  handler := handler normalize

end Rabotka.Interests
