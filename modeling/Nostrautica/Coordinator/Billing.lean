/-
The billing gate of `coordinator/src/coordinator.ts` (`reevaluateBilling`,
`assertSpendAllowed`) over the job queue: who evaluates, what is stored and
announced, and where a job parks (`JobRunner.execute`).

A call runs on without interruption to its next await. `assertSpendAllowed`
also checks retention and budgets; a job they park ends with another reason.
-/
import Nostrautica.Store.Jobs
import Nostrautica.Transition.Tasks

namespace Nostrautica.Billing

open Js Tasks

/-- `BillingStateRow["state"]`. -/
inductive BillingState
  | evaluating
  | ok
  | grace
  | blocked
  deriving DecidableEq

/-- A row of `billing_state`, the columns that decide. -/
structure BillingStateRow where
  state : BillingState
  grace_until : Option Int
  deriving DecidableEq

/-- What an evaluation meets: no live event or no policy, a policy that throws,
or its verdict. -/
inductive Evaluation
  | absent
  | thrown
  | verdict (ok : Bool)

structure Store where
  jobs : Jobs
  billing_state : JsString → Option BillingStateRow

inductive Effect
  | setBillingState (coordinate : JsString) (row : BillingStateRow)
  | call (c : Jobs.Call)

def Store.apply (s : Store) : Effect → Store
  | .setBillingState coordinate row => { s with billing_state := Function.update s.billing_state coordinate (some row) }
  | .call c => { s with jobs := s.jobs.call c }

/-- `getBillingState(coordinate)?.state`. -/
def Store.state (s : Store) (coordinate : JsString) : Option BillingState := (s.billing_state coordinate).map (·.state)

def Store.start : Store := ⟨.empty, fun _ => none⟩

/-- The park reason of a blocked event, up to its coordinate. -/
def billingBlocked : JsString := js "billing blocked for "

/-- The message of the billing gate's `ParkJobError`. -/
def billingBlockedReason (coordinate : JsString) : JsString :=
  billingBlocked ++ coordinate ++ js " — paid work parked until payment"

/-- `p.coordinate`, of a job's payload. -/
def coordinateOf (payload : Json) : Option JsString := jsonText payload (js "coordinate")

/-- A job of `coordinate` is waiting for its billing. -/
def parked (coordinate : JsString) (r : JobRow) : Bool :=
  r.state = .waiting && coordinateOf r.payload = some coordinate && r.last_error = some (billingBlockedReason coordinate)

/-! ## Evaluations -/

/-- The row an evaluation stores: over the tier, a grace period runs first,
unless the event is blocked. -/
def nextState (graceMs now : Int) (prev : Option BillingStateRow) (ok : Bool) : BillingStateRow :=
  if ok then ⟨.ok, none⟩
  else if graceMs > 0 ∧ prev.map (·.state) ≠ some .blocked then
    match prev with
    | some ⟨.grace, some graceUntil⟩ => if now ≥ graceUntil then ⟨.blocked, none⟩ else ⟨.grace, some graceUntil⟩
    | _ => ⟨.grace, some (now + graceMs)⟩
  else ⟨.blocked, none⟩

/-- What `reevaluateBilling` does up to its await, the state it returns, and
whether it announces a change before it does. -/
def reevaluateBilling (graceMs : Int) (s : Store) (coordinate : JsString) (now : Int) :
    Evaluation → List Effect × BillingState × Bool
  | .absent => ([], .ok, false)
  | .thrown => ([], (s.state coordinate).getD .ok, false)
  | .verdict ok =>
    let prev := s.state coordinate
    let next := nextState graceMs now (s.billing_state coordinate) ok
    let changed := prev.getD .evaluating ≠ next.state
    (.setBillingState coordinate next ::
        if changed ∧ next.state ≠ .blocked ∧ prev = some .blocked then [.call (.resumeWaitingJobs coordinate)] else [],
      next.state, changed)

/-! ## Handlers -/

/-- Where a handler waits. -/
inductive Pc
  /-- For what it does between two evaluations. -/
  | working
  /-- `await this.emitBillingStatus(...)`. -/
  | announcing (next : BillingState)
  /-- `await this.reevaluateBilling(coordinate)`, which has its answer. -/
  | evaluated (next : BillingState)
  /-- The same, rejected. -/
  | failed

/-- A handler: a job's has its row and its token, and its coordinate from the
row's payload. -/
structure Thread where
  job : Option (Nat × Jobs.WorkerToken)
  coordinate : Option JsString
  pc : Pc

def Thread.goto (th : Thread) (pc : Pc) : Option Thread := some { th with pc }

/-- What a handler learns when it goes on. -/
structure Answer where
  evaluation : Evaluation
  now : Int
  /-- The announcement was published. -/
  ok : Bool
  /-- How a job ends here, where it does. -/
  ending : Option Jobs.LeaseCall
  /-- `this.abortController.signal.aborted`. -/
  aborted : Bool

/-- How a job may end whose handler throws, but for the billing gate: the
reasons of other parks begin differently. -/
def otherFailure : Jobs.LeaseCall → Bool
  | .failJob .. => true
  | .releaseJob => true
  | .parkJob reason _ => reason.take billingBlocked.length ≠ billingBlocked
  | _ => false

/-- How a job may end that the billing gate does not park. -/
def otherEnding : Jobs.LeaseCall → Bool
  | .completeJob => true
  | call => otherFailure call

/-- A job's handler ends. -/
def endJob (th : Thread) (call : Jobs.LeaseCall) : Option (List Effect × Option Thread) :=
  th.job.map fun (id, t) => ([.call (.lease id t call)], none)

/-- A handler goes on from where it waits. -/
def settle (graceMs : Int) (s : Store) (th : Thread) (a : Answer) : Option (List Effect × Option Thread) :=
  match th.pc with
  | .working =>
    match a.ending with
    | some call => if otherEnding call then endJob th call else none
    | none =>
      match th.coordinate with
      | none => some ([], th.goto (.evaluated .ok))
      | some coordinate =>
        let (es, next, announces) := reevaluateBilling graceMs s coordinate a.now a.evaluation
        some (es, th.goto (if announces then .announcing next else .evaluated next))
  | .announcing next => some ([], th.goto (if a.ok then .evaluated next else .failed))
  | .evaluated next =>
    match th.job with
    | none => some ([], none)
    | some _ =>
      if next = .blocked then
        endJob th (if a.aborted then .releaseJob else .parkJob (billingBlockedReason (th.coordinate.getD (js "undefined"))) false)
      else some ([], th.goto .working)
  | .failed =>
    match th.job with
    | none => some ([], none)
    | some _ => a.ending.bind fun call => if otherFailure call then endJob th call else none

/-- No locks here. -/
def rules : Rules Nat Unit Store Effect Thread where
  apply := Store.apply
  held _ _ := none
  wanted _ _ := none

/-- The store, and the handlers in flight. -/
abbrev Gate := World Nat Unit Store Thread

inductive Act
  /-- `reevaluateBilling` is called: an install, an attendee count or a
  submission that changed. -/
  | evaluate (k : Nat) (coordinate : JsString)
  /-- A worker claims a job, and its handler starts. -/
  | claim (k : Nat) (now : Int) (t : Jobs.WorkerToken) (leaseMs : Int) (types : Jobs.ClaimTypes)
  /-- The queue is used otherwise. -/
  | call (c : Jobs.Call)
  /-- A handler goes on. -/
  | settle (k : Nat) (a : Answer)
  /-- The process ends while every handler waits. -/
  | crash
  /-- The process ends after some effects of a handler that went on. -/
  | crashDuring (k : Nat) (a : Answer) (n : Nat)

/-- Calls of no handler: neither a claim nor the end of a job. -/
def outside : Jobs.Call → Bool
  | .claimNextJob .. => false
  | .lease _ _ (.heartbeatJob _) => true
  | .lease .. => false
  | _ => true

variable (graceMs : Int)

/-- What a handler does next. -/
def outcome (w : Gate) (k : Nat) (a : Answer) : Option (List Effect × Option Thread) :=
  (w.tasks k).bind fun th => settle graceMs w.store th a

/-- What one act makes of the gate; `none` where it cannot happen. -/
def act (w : Gate) : Act → Option Gate
  | .evaluate k coordinate => if (w.tasks k).isSome then none else some (w.spawn k ⟨none, some coordinate, .working⟩)
  | .claim k now t leaseMs types =>
    if (w.tasks k).isSome then none
    else
      (w.store.jobs.claimNextJob now t.val leaseMs types).1.map fun row =>
        { w with store := w.store.apply (.call (.claimNextJob now t leaseMs types)) }.spawn k
          ⟨some (row.id, t), coordinateOf row.payload, .working⟩
  | .call c => if outside c then some { w with store := w.store.apply (.call c) } else none
  | .settle k a => (outcome graceMs w k a).map fun o => rules.advance w k o.1 o.2
  | .crash => some (.fresh w.store)
  | .crashDuring k a n => (outcome graceMs w k a).map fun o => .fresh (rules.run w.store (o.1.take n))

def Step (w : Gate) (x : Act) (w' : Gate) : Prop := act graceMs w x = some w'

end Nostrautica.Billing
