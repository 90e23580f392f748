/-
The inbound rumors of `coordinator/src/coordinator.ts`: from `unwrapFresh`, through
`handleCoordinatorWrap` and `handleInboxWrap`, to the end of `processRumorWithRetry`,
over the ledger of seen ids.

A delivery runs without interruption to its next await. What opens a wrap and what
hashes an event are parameters, and the store may throw at each of its calls.
-/
import Nostrautica.Js.Text
import Nostrautica.Transition.Run

namespace Nostrautica.Inbound

open Js

def kindGiftWrap : Nat := 1059

def kindProfileSubmission : Nat := 21601

/-- `EVENT_INBOX_RUMOR_KINDS`. -/
def eventInboxRumorKinds : List Nat := [21600, kindProfileSubmission, 21608, 21609, 21610]

/-- `COORDINATOR_RUMOR_KINDS`. -/
def coordinatorRumorKinds : List Nat := [21603, 21604, 21607]

/-- `RUMOR_MAX_FUTURE_SEC`. -/
def rumorMaxFutureSec : Int := 24 * 60 * 60

/-- `MAX_UNDECRYPTABLE_MEMO`. -/
def maxUndecryptableMemo : Nat := 10000

/-- What the inbound side reads of an event. -/
structure Deps (Event Sk : Type*) where
  getEventHash : Event → JsString
  kind : Event → Nat
  created_at : Event → Int
  /-- The rumor in a verified wrap, where the key opens it and the seal, the author and the id are right. -/
  opens : Sk → Event → Option Event
  wrapRetryDelaysMs : List Nat

/-- The key a wrap is opened with. -/
inductive Inbox
  | coordinator
  | event (coordinate : JsString)

def Inbox.scope : Inbox → JsString
  | coordinator => js "coordinator"
  | event coordinate => coordinate

def Inbox.allowedKinds : Inbox → List Nat
  | coordinator => coordinatorRumorKinds
  | event _ => eventInboxRumorKinds

/-- Where the handler of a rumor waits. -/
inductive Stage
  /-- `await this.awaitEnrollment(coordinate, rumor)`. -/
  | enrolling
  /-- `await dispatch()`. -/
  | dispatching (attempt : Nat)
  /-- `await this.sleep(delay)`, after an attempt that failed. -/
  | sleeping (attempt : Nat)

/-- A handler between its claim and its settling. -/
structure Task (Event : Type*) where
  wrap : Event
  rumor : Event
  stage : Stage

/-- What happens to an id, newest first. -/
inductive Entry
  | dispatched (id : JsString)
  /-- A dispatch returned normally. -/
  | returned (id : JsString)
  /-- A dispatch failed for good: a `ZodError` or a `SyntaxError`. -/
  | unprocessable (id : JsString)
  /-- A rumor was dated past the bound. -/
  | absurd (id : JsString)
  /-- The ledger records the id. -/
  | seen (id : JsString)
  deriving DecidableEq

/-- A call on the store that throws. -/
inductive Fault
  /-- `isRumorSeen(wrap.id)`. -/
  | wrapSeen
  /-- `isRumorSeen(rumor.id)`. -/
  | rumorSeen
  /-- `markRumorSeen(rumor.id, …)`. -/
  | mark
  /-- `markRumorSeen(wrap.id, …)`. -/
  | markWrap
  /-- In `inboxRateAllows`. -/
  | rate
  /-- `attendeeCount`, for the line that logs a rejection. -/
  | budget
  /-- `getAttendee`. -/
  | attendee
  deriving DecidableEq

/-- The durable ledger, and the memory of the process. -/
structure World (Event : Type*) where
  seen_rumors : List JsString
  inFlightRumors : List JsString
  undecryptableWraps : List JsString
  tasks : Nat → Option (Task Event)
  log : List Entry

variable {Event Sk : Type*} (D : Deps Event Sk)

namespace World

def start : World Event := ⟨[], [], [], fun _ => none, []⟩

/-- `markRumorSeen(id, now)`. -/
def markRumorSeen (w : World Event) (id : JsString) : World Event :=
  if id ∈ w.seen_rumors then w else { w with seen_rumors := id :: w.seen_rumors, log := .seen id :: w.log }

/-- The marks of a rumor and of the wrap it came in, as far as they get. -/
def markBoth (w : World Event) (rumorId wrapId : JsString) (fault : Option Fault) : World Event :=
  if fault = some .mark then w
  else if fault = some .markWrap then w.markRumorSeen rumorId
  else (w.markRumorSeen rumorId).markRumorSeen wrapId

/-- `rememberUndecryptable(key)`. -/
def rememberUndecryptable (w : World Event) (key : JsString) : World Event :=
  let memo := if maxUndecryptableMemo ≤ w.undecryptableWraps.length then w.undecryptableWraps.tail else w.undecryptableWraps
  { w with undecryptableWraps := memo ++ [key] }

/-- `inFlightRumors.delete(id)`. -/
def release (w : World Event) (id : JsString) : World Event :=
  { w with inFlightRumors := w.inFlightRumors.filter (· ≠ id) }

def note (w : World Event) (e : Entry) : World Event := { w with log := e :: w.log }

def put (w : World Event) (t : Nat) (task : Option (Task Event)) : World Event :=
  { w with tasks := Function.update w.tasks t task }

end World

/-- `unwrapRumorEnvelope(wrap, recipientSk, allowedKinds).rumor`; `none` where it throws. -/
def unwrapRumorEnvelope (wrap : Event) (sk : Sk) (allowedKinds : List Nat) : Option Event :=
  if D.kind wrap ≠ kindGiftWrap then none else (D.opens sk wrap).filter fun rumor => allowedKinds.contains (D.kind rumor)

/-- The key of a wrap in the memo of those a key cannot open. -/
def memoKey (inbox : Inbox) (wrap : Event) : JsString := inbox.scope ++ [codeUnit 0] ++ D.getEventHash wrap

/-- What `unwrapFresh` makes of a wrap. -/
inductive Fresh (Event : Type*)
  /-- It was seen, or is known not to open, or the store threw. -/
  | skipped
  | undecryptable
  | absurd (rumor : Event)
  /-- The rumor was seen, in another wrap. -/
  | duplicate
  | claimed (rumor : Event)

/-- `unwrapFresh(wrap, recipientSk, allowedKinds, scope)`, up to what it writes. -/
def unwrapFresh (w : World Event) (inbox : Inbox) (sk : Sk) (wrap : Event) (now : Int) (fault : Option Fault) : Fresh Event :=
  if fault = some .wrapSeen ∨ D.getEventHash wrap ∈ w.seen_rumors then .skipped
  else if memoKey D inbox wrap ∈ w.undecryptableWraps then .skipped
  else
    match unwrapRumorEnvelope D wrap sk inbox.allowedKinds with
    | none => .undecryptable
    | some rumor =>
      if now / 1000 + rumorMaxFutureSec < D.created_at rumor then .absurd rumor
      else if fault = some .rumorSeen then .skipped
      else if D.getEventHash rumor ∈ w.seen_rumors then .duplicate
      else if D.getEventHash rumor ∈ w.inFlightRumors then .skipped
      else .claimed rumor

/-- What a delivery meets on its way. -/
structure Answers where
  fault : Option Fault
  /-- `inboxRateAllows(…)`. -/
  allowed : Bool
  /-- The sender has a row, or `awaitEnrollment` refuses at once; `none` where it waits. -/
  enrolled : Option Bool

/-- A dispatch starts. -/
def dispatch (w : World Event) (t : Nat) (task : Task Event) (attempt : Nat) : World Event :=
  (w.put t (some { task with stage := .dispatching attempt })).note (.dispatched (D.getEventHash task.rumor))

/-- A handler past its claim: the gates before the first dispatch. -/
def gates (w : World Event) (t : Nat) (task : Task Event) (a : Answers) : Inbox → World Event
  | .coordinator =>
    if a.fault = some .rate ∨ !a.allowed then w.release (D.getEventHash task.rumor) else dispatch D w t task 1
  | .event _ =>
    if a.fault = some .rate then w.release (D.getEventHash task.rumor)
    else if !a.allowed then
      -- the line that logs the rejection reads `eventRumorBudget` before the claim is released
      if a.fault = some .budget then w else w.release (D.getEventHash task.rumor)
    else if D.kind task.rumor ≠ kindProfileSubmission then dispatch D w t task 1
    else if a.fault = some .attendee then w.release (D.getEventHash task.rumor)
    else
      match a.enrolled with
      | some true => dispatch D w t task 1
      | some false => w.release (D.getEventHash task.rumor)
      | none => w.put t (some { task with stage := .enrolling })

/-- `handleCoordinatorWrap(wrap)`, `handleInboxWrap(coordinate, wrap)`, to the first await. -/
def deliver (w : World Event) (t : Nat) (inbox : Inbox) (sk : Sk) (wrap : Event) (now : Int) (a : Answers) : World Event :=
  match unwrapFresh D w inbox sk wrap now a.fault with
  | .skipped => w
  | .undecryptable => w.rememberUndecryptable (memoKey D inbox wrap)
  | .absurd rumor => (w.note (.absurd (D.getEventHash rumor))).markBoth (D.getEventHash rumor) (D.getEventHash wrap) a.fault
  | .duplicate => if a.fault = some .markWrap then w else w.markRumorSeen (D.getEventHash wrap)
  | .claimed rumor =>
    gates D { w with inFlightRumors := D.getEventHash rumor :: w.inFlightRumors } t ⟨wrap, rumor, .enrolling⟩ a inbox

/-- How a dispatch ends. -/
inductive Outcome
  | returned
  /-- A `DeferredRumorError`. -/
  | deferred
  | unprocessable
  | failed

/-- The `finally`, where the handler has settled. -/
def settled (w : World Event) (t : Nat) (task : Task Event) : World Event :=
  (w.put t none).release (D.getEventHash task.rumor)

/-- `1 + delays.length`. -/
def Deps.maxAttempts : Nat := 1 + D.wrapRetryDelaysMs.length

/-- An attempt failed: a retry, or none is left. -/
def failed (w : World Event) (t : Nat) (task : Task Event) (attempt : Nat) : World Event :=
  if D.maxAttempts ≤ attempt then settled D w t task else w.put t (some { task with stage := .sleeping attempt })

/-- `processRumorWithRetry`, from the end of a dispatch. -/
def settle (w : World Event) (t : Nat) (task : Task Event) (attempt : Nat) (fault : Option Fault) : Outcome → World Event
  | .returned =>
    let marked := (w.note (.returned (D.getEventHash task.rumor))).markBoth
      (D.getEventHash task.rumor) (D.getEventHash task.wrap) fault
    -- the marks are inside the `try`: where one throws, the attempt counts as failed
    if fault = some .mark ∨ fault = some .markWrap then failed D marked t task attempt else settled D marked t task
  | .deferred => settled D w t task
  | .unprocessable =>
    settled D ((w.note (.unprocessable (D.getEventHash task.rumor))).markBoth
      (D.getEventHash task.rumor) (D.getEventHash task.wrap) fault) t task
  | .failed => failed D w t task attempt

inductive Act (Event Sk : Type*)
  | deliver (t : Nat) (inbox : Inbox) (sk : Sk) (wrap : Event) (now : Int) (a : Answers)
  /-- `awaitEnrollment` settles; `none` where it throws. -/
  | enrolled (t : Nat) (answer : Option Bool)
  | settle (t : Nat) (outcome : Outcome) (fault : Option Fault)
  /-- A sleep is over. -/
  | wake (t : Nat)
  /-- The process ends, and the next one starts. -/
  | restart

/-- What an act makes of the world; `none` where it cannot happen. -/
def act (w : World Event) : Act Event Sk → Option (World Event)
  | .deliver t inbox sk wrap now a => if (w.tasks t).isSome then none else some (deliver D w t inbox sk wrap now a)
  | .enrolled t answer =>
    match w.tasks t with
    | some ⟨wrap, rumor, .enrolling⟩ =>
      some (if answer = some true then dispatch D w t ⟨wrap, rumor, .enrolling⟩ 1 else settled D w t ⟨wrap, rumor, .enrolling⟩)
    | _ => none
  | .settle t outcome fault =>
    match w.tasks t with
    | some ⟨wrap, rumor, .dispatching n⟩ => some (settle D w t ⟨wrap, rumor, .dispatching n⟩ n fault outcome)
    | _ => none
  | .wake t =>
    match w.tasks t with
    | some ⟨wrap, rumor, .sleeping n⟩ => some (dispatch D w t ⟨wrap, rumor, .sleeping n⟩ (n + 1))
    | _ => none
  | .restart => some { w with inFlightRumors := [], undecryptableWraps := [], tasks := fun _ => none }

def Step (w : World Event) (x : Act Event Sk) (w' : World Event) : Prop := act D w x = some w'

end Nostrautica.Inbound
