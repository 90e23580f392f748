/-
`JobRunner` of `coordinator/src/pipeline/jobs.ts`: what a worker does with the
row it claimed, over the job queue.

From the claim to the handler's first await a worker runs without interruption.
A handler ends as it likes, or its worker dies under it; workers of several
processes share the table. What has become of each row is kept in a log.
-/
import Nostrautica.Js.Number
import Nostrautica.Store.Jobs

namespace Nostrautica.Runner

open Js Jobs

/-- `MAX_LEASE_RECLAIMS`. -/
def maxLeaseReclaims : Nat := 3

/-- The options of a runner, and the types with a handler; `ε` is what a handler throws. -/
structure Options (ε : Type*) where
  maxAttempts : Nat
  handlers : JsString → Bool
  retryBudget : ε → Option Int
  poisonExempt : ε → Option JsString
  backoffForAttempt : Int → Int

/-- How a handler ends. -/
inductive Outcome (ε : Type*)
  | returned
  /-- It throws, and the runner is shutting down. -/
  | aborted
  /-- A `ParkJobError`. -/
  | parked (reason : JsString)
  | threw (err : ε) (msg : JsString)

variable {ε : Type*} (o : Options ε)

/-- `execute`, before the handler: a row it fails at once. -/
def refusal (job : JobRow) (now : Int) : Option LeaseCall :=
  if !o.handlers job.type then some (.failJob (job.attempts + 1) now (js "no handler for " ++ job.type) true)
  else if maxLeaseReclaims ≤ job.reclaims then
    some (.failJob (job.attempts + 1) now
      (js "recovered " ++ decimal job.reclaims ++ js " times after its worker died mid-run — presumed to crash the process") true)
  else none

/-- `execute`, after the handler: the call that ends the attempt. -/
def ending (job : JobRow) (now : Int) : Outcome ε → LeaseCall
  | .returned => .completeJob
  | .aborted => .releaseJob
  | .parked reason => .parkJob reason false
  | .threw err msg =>
    let attempts := job.attempts + 1
    let budget := min ((o.retryBudget err).getD o.maxAttempts) o.maxAttempts
    let poison := decide (budget ≤ attempts)
    -- an empty reason is no reason
    match if poison then (o.poisonExempt err).filter (· ≠ []) else none with
    | some parkReason => .parkJob (parkReason ++ js ": " ++ msg) true
    | none => .failJob attempts (now + o.backoffForAttempt attempts) msg poison

/-! ## Workers over the queue -/

/-- What becomes of a row, and under which token. -/
inductive Entry
  /-- A worker comes to the handler. -/
  | started (id : Nat) (token : JsString)
  | completed (id : Nat) (token : JsString)
  | failed (id : Nat) (token : JsString)
  | released (id : Nat) (token : JsString)
  | parked (id : Nat) (token : JsString)
  /-- The lease of a token has lapsed, and the row is taken back. -/
  | reclaimed (id : Nat) (token : JsString)
  | deleted (id : Nat)
  deriving DecidableEq

/-- The row an entry is about. -/
def Entry.row : Entry → Nat
  | .started id _ | .completed id _ | .failed id _ | .released id _ | .parked id _ | .reclaimed id _ | .deleted id => id

structure World where
  jobs : Jobs
  /-- The rows as claimed, under the tokens whose handlers run. -/
  tasks : WorkerToken → Option JobRow
  /-- The tokens claims were made under. -/
  used : List WorkerToken
  log : List Entry

namespace World

def start : World := ⟨.empty, fun _ => none, [], []⟩

/-- A call that needs the lease, by a worker that is done with the row. -/
def leave (w : World) (id : Nat) (t : WorkerToken) (call : LeaseCall) : World where
  jobs := (w.jobs.leaseCall id t call).2
  tasks := Function.update w.tasks t none
  used := w.used
  log :=
    if (w.jobs.leaseCall id t call).1 then
      (match call with
        | .completeJob => [.completed id t.val]
        | .failJob .. => [.failed id t.val]
        | .releaseJob => [.released id t.val]
        | .parkJob .. => [.parked id t.val]
        | .heartbeatJob _ => []) ++ w.log
    else w.log

end World

/-- The leases of rows that are taken back. -/
def takenBack (rows : List JobRow) : List Entry := rows.filterMap fun r => r.worker_token.map fun t => .reclaimed r.id t

/-- `DELETE FROM jobs WHERE <p>`. -/
def remove (j : Jobs) (p : JobRow → Bool) : Jobs where
  rows := j.rows.filter fun r => !p r
  seq := j.seq
  ordered := j.ordered.filter _
  below r hr := j.below r (List.mem_of_mem_filter hr)
  unique := j.unique.sublist (List.filter_sublist.map _)

inductive Act (ε : Type*)
  | enqueueJob (type dedupeKey : JsString) (payload : Json) (notBefore : Int)
  /-- `runOne`, up to the handler's first await; `dies` where the process ends after the claim. -/
  | runOne (now : Int) (t : WorkerToken) (leaseMs : Int) (types : ClaimTypes) (dies : Bool)
  /-- The heartbeat of a worker. -/
  | heartbeatJob (t : WorkerToken) (leaseUntil : Int)
  /-- A handler ends. -/
  | settle (t : WorkerToken) (now : Int) (outcome : Outcome ε)
  /-- A worker ends without a word: its process does, or the statement throws. -/
  | die (t : WorkerToken)
  | reclaimExpiredLeases (now : Int)
  /-- A resume sweep. -/
  | resume (p : JobRow → Bool)
  | delete (p : JobRow → Bool)

/-- A worker takes the row `row` under `t`. -/
def take (w : World) (now : Int) (t : WorkerToken) (leaseMs : Int) (types : ClaimTypes) (row : JobRow) : World where
  jobs := (w.jobs.claimNextJob now t.val leaseMs types).2
  tasks := w.tasks
  used := t :: w.used
  log := (if row.state = .running then takenBack [row] else []) ++ w.log

/-- `runOne`, with the row it claimed. -/
def execute (w : World) (now : Int) (t : WorkerToken) (job : JobRow) : World :=
  match refusal o job now with
  | some call => w.leave job.id t call
  | none => { w with tasks := Function.update w.tasks t (some job), log := .started job.id t.val :: w.log }

/-- What one act makes of the world; `none` where it cannot happen. -/
def act (w : World) : Act ε → Option World
  | .enqueueJob type dedupeKey payload notBefore =>
    some { w with jobs := (w.jobs.enqueueJob type dedupeKey payload notBefore).2 }
  | .runOne now t leaseMs types dies =>
    -- `randomUUID()`
    if t ∈ w.used then none
    else
      match w.jobs.candidate now types with
      | none => some w
      | some row =>
        let job := (w.jobs.claimNextJob now t.val leaseMs types).1.getD row
        some (if dies then take w now t leaseMs types row else execute o (take w now t leaseMs types row) now t job)
  | .heartbeatJob t leaseUntil => (w.tasks t).map fun job => { w with jobs := (w.jobs.heartbeatJob job.id t.val leaseUntil).2 }
  | .settle t now outcome => (w.tasks t).map fun job => w.leave job.id t (ending o job now outcome)
  | .die t => some { w with tasks := Function.update w.tasks t none }
  | .reclaimExpiredLeases now =>
    some { w with
      jobs := (w.jobs.reclaimExpiredLeases now).2
      log := takenBack (w.jobs.rows.filter (expired now)) ++ w.log }
  | .resume p => some { w with jobs := (w.jobs.resume p).2 }
  | .delete p =>
    some { w with jobs := remove w.jobs p, log := ((w.jobs.rows.filter p).map fun r => .deleted r.id) ++ w.log }

def Step (w : World) (x : Act ε) (w' : World) : Prop := act o w x = some w'

end Nostrautica.Runner
