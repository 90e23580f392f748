/-
One chat leader among the tabs of a browser profile: `ChatTabCoordinator` of
`app/src/lib/chat/tab-leader.ts`, of one scope, in a browser with Web Locks.

A request of the lock manager is granted in one step and its callback runs in another. The
messages `sync`, `state` and `members`, which neither elect a leader nor answer a request, are
left out.
-/
import Mathlib

namespace Nostrautica.TabLeader

/-- `TabRole`. -/
inductive TabRole
  | pending | leader | follower
  deriving DecidableEq

/-- How far the lock request of a coordinator has come. -/
inductive LockRequest
  /-- With `ifAvailable`. -/
  | probing
  /-- The lock was not available, and the callback has not run. -/
  | refused
  /-- Of `queueTakeover`. -/
  | queued
  /-- The callback has not run. -/
  | granted
  /-- The callback waits for `stopHolding`. -/
  | holding
  | over
  deriving DecidableEq

/-- `${this.scope}:${Date.now()}:${this.reqSeq++}`. -/
structure ReqId where
  now : Int
  seq : Nat
  deriving DecidableEq

/-- A `ChatTabCoordinator`. -/
structure Coordinator (τ : Type) where
  tab : τ
  /-- There is a `BroadcastChannel`. -/
  channel : Bool
  role : TabRole := .pending
  settled : Bool := false
  disposed : Bool := false
  lockRequestFailed : Bool := false
  request : LockRequest := .probing
  /-- The ping window is running. -/
  pinging : Bool := false
  reqSeq : Nat := 0
  pending : List ReqId := []
  deriving DecidableEq

/-- `Wire`; a request carries the text, action or rejoin that is proxied. -/
inductive Wire (ω : Type)
  | leaderHello
  | whoLeads
  | request (reqId : ReqId) (op : ω)
  | ack (reqId : ReqId) (error : Option String)
  deriving DecidableEq

/-- How a proxied request has settled. -/
inductive Outcome
  | acked (error : Option String)
  | timedOut
  | disposed
  deriving DecidableEq

variable {τ ω : Type} [DecidableEq τ]

/-- The coordinators, by number, with the lock and the requests that wait for it, first come first served. -/
structure Election (τ : Type) where
  coords : Nat → Option (Coordinator τ) := fun _ => none
  next : Nat := 0
  lock : Option Nat := none
  queue : List Nat := []

structure World (τ ω : Type) extends Election τ where
  /-- The messages on their way to each coordinator. -/
  inbox : Nat → List (Wire ω) := fun _ => []
  /-- What leaders are running for followers. -/
  running : List (Nat × ReqId × ω) := []
  /-- The requests settled, each with its coordinator. -/
  settlements : List ((Nat × ReqId) × Outcome) := []

inductive Act (τ ω : Type)
  | construct (t : τ) (channel : Bool)
  /-- A tab crashes. -/
  | crash (t : τ)
  /-- The lock manager takes a request with `ifAvailable`. -/
  | probe (i : Nat)
  /-- The lock manager grants the lock to the first that waits. -/
  | grant
  /-- The callback of a request runs. -/
  | callback (i : Nat)
  /-- The request of `electWithLocks` rejects. -/
  | reject (i : Nat)
  /-- The request of `queueTakeover` rejects. -/
  | rejectTakeover (i : Nat)
  /-- The ping window is over. -/
  | window (i : Nat)
  | deliver (i : Nat)
  | proxy (i : Nat) (now : Int) (op : ω)
  | timeout (i : Nat) (reqId : ReqId)
  /-- The `k`th operation that is run for a follower has come to its end. -/
  | finish (k : Nat) (error : Option String)
  | dispose (i : Nat)

/-- `usingWebLocks`. -/
def Coordinator.usingWebLocks (c : Coordinator τ) : Bool := !c.lockRequestFailed

def setCoord (w : World τ ω) (i : Nat) (c : Coordinator τ) : World τ ω :=
  { w with coords := Function.update w.coords i (some c) }

/-- `this.channel?.postMessage(msg)`: to the other coordinators that listen. -/
def post (w : World τ ω) (i : Nat) (c : Coordinator τ) (msg : Wire ω) : World τ ω :=
  if c.channel then
    { w with inbox := fun j =>
        if j ≠ i ∧ (w.coords j).any (fun d => d.channel && !d.disposed) then w.inbox j ++ [msg] else w.inbox j }
  else w

/-- `becomeLeader()`. -/
def becomeLeader (w : World τ ω) (i : Nat) (c : Coordinator τ) : World τ ω :=
  if c.disposed ∨ c.role = .leader then setCoord w i c
  else post (setCoord w i { c with role := .leader, settled := true }) i c .leaderHello

/-- `becomeFollower()`. -/
def becomeFollower (c : Coordinator τ) : Coordinator τ :=
  if c.disposed ∨ c.role = .follower then c else { c with role := .follower, settled := true }

/-- `electWithPing()`, up to the ping window. -/
def electWithPing (w : World τ ω) (i : Nat) (c : Coordinator τ) : World τ ω :=
  if c.channel then post (setCoord w i { c with pinging := true }) i c .whoLeads else becomeLeader w i c

/-- `handleWire(msg)`. -/
def handleWire (w : World τ ω) (i : Nat) (c : Coordinator τ) : Wire ω → World τ ω
  | .leaderHello => if !c.usingWebLocks && !c.settled then setCoord w i (becomeFollower c) else w
  | .whoLeads => if c.role = .leader then post w i c .leaderHello else w
  | .request reqId op => if c.role = .leader then { w with running := w.running ++ [(i, reqId, op)] } else w
  | .ack reqId error =>
    if reqId ∈ c.pending then
      { setCoord w i { c with pending := c.pending.filter (· ≠ reqId) } with
        settlements := w.settlements ++ [((i, reqId), .acked error)] }
    else w

/-- `dispose()`. -/
def dispose (w : World τ ω) (i : Nat) (c : Coordinator τ) : World τ ω :=
  { setCoord w i { c with
      disposed := true
      settled := true
      request := if c.request = .holding ∨ c.request = .queued then .over else c.request
      pending := [] } with
    lock := if c.request = .holding then none else w.lock
    queue := w.queue.filter (· ≠ i)
    inbox := Function.update w.inbox i []
    settlements := w.settlements ++ c.pending.map fun reqId => ((i, reqId), .disposed) }

def act (w : World τ ω) : Act τ ω → Option (World τ ω)
  | .construct t channel =>
    some { setCoord w w.next { tab := t, channel } with next := w.next + 1 }
  | .crash t =>
    let live (i : Nat) : Bool := (w.coords i).any (·.tab ≠ t)
    some { w with
      coords := fun i => (w.coords i).filter (·.tab ≠ t)
      lock := w.lock.filter live
      queue := w.queue.filter live
      inbox := fun i => if live i then w.inbox i else []
      running := w.running.filter fun r => live r.1 }
  | .probe i =>
    match w.coords i with
    | some c =>
      if c.request = .probing then
        if w.lock = none ∧ w.queue = [] then some { setCoord w i { c with request := .granted } with lock := some i }
        else some (setCoord w i { c with request := .refused })
      else none
    | none => none
  | .grant =>
    match w.lock, w.queue with
    | none, i :: queue =>
      match w.coords i with
      | some c => some { setCoord w i { c with request := .granted } with lock := some i, queue }
      | none => none
    | _, _ => none
  | .callback i =>
    match w.coords i with
    | some c =>
      match c.request with
      | .granted =>
        if c.disposed then some { setCoord w i { c with request := .over } with lock := none }
        else some (becomeLeader w i { c with request := .holding })
      | .refused =>
        if c.disposed then some (setCoord w i { c with request := .over })
        else some { setCoord w i (becomeFollower { c with request := .queued }) with queue := w.queue ++ [i] }
      | _ => none
    | none => none
  | .reject i =>
    match w.coords i with
    | some c =>
      if c.request = .probing then
        let c : Coordinator τ := { c with request := .over }
        if c.settled || c.disposed then some (setCoord w i c)
        else some (electWithPing w i { c with lockRequestFailed := true })
      else none
    | none => none
  | .rejectTakeover i =>
    match w.coords i with
    | some c =>
      if c.request = .queued then
        some { setCoord w i { c with request := .over } with queue := w.queue.filter (· ≠ i) }
      else none
    | none => none
  | .window i =>
    match w.coords i with
    | some c =>
      if c.pinging then
        let c : Coordinator τ := { c with pinging := false }
        if c.disposed || c.settled then some (setCoord w i c) else some (becomeLeader w i c)
      else none
    | none => none
  | .deliver i =>
    match w.coords i, w.inbox i with
    | some c, msg :: rest => some (handleWire { w with inbox := Function.update w.inbox i rest } i c msg)
    | _, _ => none
  | .proxy i now op =>
    match w.coords i with
    | some c =>
      if c.usingWebLocks && c.channel && !c.disposed then
        let reqId : ReqId := ⟨now, c.reqSeq⟩
        let c : Coordinator τ := { c with reqSeq := c.reqSeq + 1, pending := c.pending ++ [reqId] }
        some (post (setCoord w i c) i c (.request reqId op))
      else none
    | none => none
  | .timeout i reqId =>
    match w.coords i with
    | some c =>
      if reqId ∈ c.pending then
        some { setCoord w i { c with pending := c.pending.filter (· ≠ reqId) } with
          settlements := w.settlements ++ [((i, reqId), .timedOut)] }
      else none
    | none => none
  | .finish k error =>
    match w.running[k]? with
    | some (i, reqId, _) =>
      let w := { w with running := w.running.eraseIdx k }
      match w.coords i with
      | some c => some (if c.disposed then w else post w i c (.ack reqId error))
      | none => none
    | none => none
  | .dispose i =>
    match w.coords i with
    | some c => if c.disposed then some w else some (dispose w i c)
    | none => none

def Step (w : World τ ω) (x : Act τ ω) (w' : World τ ω) : Prop := act w x = some w'

end Nostrautica.TabLeader
