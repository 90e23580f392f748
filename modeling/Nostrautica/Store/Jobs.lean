/-
The job queue of `coordinator/src/store/db.ts`: the `jobs` table, the
statements that work it, and the workers' calls as steps of one system.

Each function is one statement, or one `BEGIN IMMEDIATE` transaction, so calls
of different workers and processes do not overlap. A row's payload is kept as
the value that was stringified.
-/
import Nostrautica.Js.Json
import Nostrautica.Transition.Run
import Nostrautica.Transition.Lease

namespace Nostrautica

open Js

/-- `JobState`. -/
inductive JobState
  | pending
  | running
  | waiting
  | done
  | poison
  deriving DecidableEq

/-- What `enqueueJob` writes once: the identity of the work. -/
structure JobSpec where
  id : Nat
  type : JsString
  dedupe_key : JsString
  payload : Json
  priority : Int

/-- `JobRow`. -/
structure JobRow extends JobSpec where
  state : JobState
  attempts : Int := 0
  next_run_at : Int := 0
  last_error : Option JsString := none
  claimed_at : Option Int := none
  lease_until : Option Int := none
  worker_token : Option JsString := none
  reclaims : Nat := 0

/-- `JOB_PRIORITY[type] ?? 0`. -/
def jobPriority (type : JsString) : Int :=
  if type = js "publish_matches" then -1 else if type = js "score_reverse_batch" then 1 else 0

/-- `DAEMON_PARK_REASON`. -/
def daemonParkReason : JsString := js "daemon budget exceeded"

/-- `EVENT_NOT_LIVE_PARK_REASON`. -/
def eventNotLiveParkReason : JsString := js "event not live"

/-- `json_extract(payload, '$.<field>')`, where it is text. -/
def jsonText (payload : Json) (field : JsString) : Option JsString :=
  match payload with
  | .obj fields =>
    match fields.find? (·.1 = field) with
    | some (_, .str s) => some s
    | _ => none
  | _ => none

/-- A unit as `LIKE` folds it: ASCII letters only. -/
def likeUnit (c : CodeUnit) : CodeUnit := if 65 ≤ c.val ∧ c.val ≤ 90 then codeUnit (c.val + 32) else c

/-- `text LIKE '<pre>%'`, of a prefix without wildcards. -/
def likePrefix (pre : JsString) (text : Option JsString) : Bool :=
  text.any fun s => (s.take pre.length).map likeUnit = pre.map likeUnit

/-- The `jobs` table, its rows in the order of their ids. `seq` is the last id
AUTOINCREMENT gave out. -/
structure Jobs where
  rows : List JobRow
  seq : Nat
  /-- PRIMARY KEY. -/
  ordered : rows.Pairwise (·.id < ·.id)
  below : ∀ r ∈ rows, r.id ≤ seq
  /-- `dedupe_key TEXT NOT NULL UNIQUE`. -/
  unique : (rows.map (·.dedupe_key)).Nodup

namespace Jobs

def empty : Jobs := ⟨[], 0, .nil, by simp, .nil⟩

/-- `UPDATE jobs SET <f> WHERE <p>`. -/
def update (j : Jobs) (p : JobRow → Bool) (f : JobRow → JobRow)
    (keep : ∀ r, (f r).toJobSpec = r.toJobSpec := by exact fun _ => rfl) : Jobs where
  rows := j.rows.map fun r => if p r then f r else r
  seq := j.seq
  ordered := by
    have hid : ∀ r : JobRow, (if p r then f r else r).id = r.id := by intro r; split <;> simp [keep]
    rw [List.pairwise_map]
    simpa only [hid] using j.ordered
  below := by
    intro r hr
    obtain ⟨s, hs, rfl⟩ := List.mem_map.mp hr
    have hid : (if p s then f s else s).id = s.id := by split <;> simp [keep]
    rw [hid]
    exact j.below s hs
  unique := by
    have hk : ∀ r : JobRow, (if p r then f r else r).dedupe_key = r.dedupe_key := by intro r; split <;> simp [keep]
    simpa only [List.map_map, Function.comp_def, hk] using j.unique

/-- The rows an update touches: `info.changes`. -/
def changes (j : Jobs) (p : JobRow → Bool) : Nat := j.rows.countP p

/-- A row at the next id, where its dedupe key is free. -/
def insert (j : Jobs) (type dedupeKey : JsString) (payload : Json) (notBefore : Int)
    (free : dedupeKey ∉ j.rows.map (·.dedupe_key)) : Jobs where
  rows := j.rows ++ [{ id := j.seq + 1, type, dedupe_key := dedupeKey, payload, priority := jobPriority type,
                       state := .pending, next_run_at := notBefore }]
  seq := j.seq + 1
  ordered := by
    rw [List.pairwise_append]
    refine ⟨j.ordered, List.pairwise_singleton _ _, fun r hr s hs => ?_⟩
    rw [List.mem_singleton.mp hs]
    exact Nat.lt_succ_of_le (j.below r hr)
  below := by
    intro r hr
    rcases List.mem_append.mp hr with hr | hr
    · exact Nat.le_succ_of_le (j.below r hr)
    · rw [List.mem_singleton.mp hr]
  unique := by
    rw [List.map_append, List.nodup_append]
    refine ⟨j.unique, List.nodup_singleton _, fun a ha b hb => ?_⟩
    rw [List.mem_singleton.mp hb]
    exact fun h => free ((show a = dedupeKey from h) ▸ ha)

/-- `enqueueJob(type, dedupeKey, payload, notBefore)`: `none` is `"enqueued"`,
else the state of the row that has the key. -/
def enqueueJob (j : Jobs) (type dedupeKey : JsString) (payload : Json) (notBefore : Int) : Option JobState × Jobs :=
  if free : dedupeKey ∉ j.rows.map (·.dedupe_key) then (none, j.insert type dedupeKey payload notBefore free)
  else ((j.rows.find? (·.dedupe_key = dedupeKey)).map (·.state), j)

/-- `{ onlyTypes?, excludeTypes? }`. -/
structure ClaimTypes where
  onlyTypes : Option (List JsString) := none
  excludeTypes : Option (List JsString) := none

/-- The filters of a claim: an empty list sets none. -/
def ClaimTypes.admit (types : ClaimTypes) (r : JobRow) : Bool :=
  types.onlyTypes.all (fun ts => ts = [] || ts.contains r.type) &&
    types.excludeTypes.all (fun ts => ts = [] || !ts.contains r.type)

/-- `state = 'running' AND lease_until IS NOT NULL AND lease_until <= now`. -/
def expired (now : Int) (r : JobRow) : Bool := r.state = .running && r.lease_until.any (· ≤ now)

/-- What a claim may take: due work, and work whose lease ran out. -/
def runnable (now : Int) (r : JobRow) : Bool := (r.state = .pending && r.next_run_at ≤ now) || expired now r

/-- `ORDER BY priority, id LIMIT 1`, of rows in the order of their ids. -/
def first : List JobRow → Option JobRow
  | [] => none
  | r :: rest =>
    match first rest with
    | none => some r
    | some s => if r.priority ≤ s.priority then some r else some s

/-- The row a claim would take. -/
def candidate (j : Jobs) (now : Int) (types : ClaimTypes) : Option JobRow :=
  if types.onlyTypes = some [] then none else first (j.rows.filter fun r => runnable now r && types.admit r)

/-- What a claim writes into the row it takes. -/
def claim (now : Int) (workerToken : JsString) (leaseMs : Int) (reclaims : Nat) (r : JobRow) : JobRow :=
  { r with
    state := .running
    claimed_at := some now
    lease_until := some (now + leaseMs)
    worker_token := some workerToken
    reclaims }

/-- `claimNextJob(now, workerToken, leaseMs, types)`. -/
def claimNextJob (j : Jobs) (now : Int) (workerToken : JsString) (leaseMs : Int) (types : ClaimTypes) :
    Option JobRow × Jobs :=
  match j.candidate now types with
  | none => (none, j)
  | some row =>
    let reclaims := row.reclaims + if row.state = .running then 1 else 0
    (some (claim now workerToken leaseMs reclaims row), j.update (·.id = row.id) (claim now workerToken leaseMs reclaims))

/-- `heartbeatJob(id, workerToken, leaseUntil)`. -/
def heartbeatJob (j : Jobs) (id : Nat) (workerToken : JsString) (leaseUntil : Int) : Bool × Jobs :=
  let held := fun r : JobRow => r.id = id && r.worker_token = some workerToken && r.state = .running
  (0 < j.changes held, j.update held fun r => { r with lease_until := some leaseUntil })

/-- `WHERE id = ?`, and `AND worker_token = ?` when the call gives a token that
is not empty. -/
def owned (id : Nat) (workerToken : Option JsString) (r : JobRow) : Bool :=
  r.id = id && workerToken.all fun t => t = [] || r.worker_token = some t

/-- How an attempt ends: what its statement sets besides clearing the lease. -/
def finish (j : Jobs) (id : Nat) (workerToken : Option JsString) (set : JobRow → JobRow)
    (keep : ∀ r, (set r).toJobSpec = r.toJobSpec) : Bool × Jobs :=
  (0 < j.changes (owned id workerToken),
    j.update (owned id workerToken) (fun r => { set r with worker_token := none, lease_until := none }) keep)

/-- `completeJob(id, workerToken)`. -/
def completeJob (j : Jobs) (id : Nat) (workerToken : Option JsString) : Bool × Jobs :=
  j.finish id workerToken (fun r => { r with state := .done }) fun _ => rfl

/-- `failJob(id, attempts, nextRunAt, error, poison, workerToken)`. -/
def failJob (j : Jobs) (id : Nat) (attempts nextRunAt : Int) (error : JsString) (poison : Bool)
    (workerToken : Option JsString) : Bool × Jobs :=
  j.finish id workerToken
    (fun r => { r with
      state := if poison then .poison else .pending
      attempts
      next_run_at := nextRunAt
      last_error := some error })
    fun _ => rfl

/-- `releaseJob(id, workerToken)`. -/
def releaseJob (j : Jobs) (id : Nat) (workerToken : Option JsString) : Bool × Jobs :=
  j.finish id workerToken (fun r => { r with state := .pending, next_run_at := 0 }) fun _ => rfl

/-- `parkJob(id, reason, workerToken, { resetAttempts })`. -/
def parkJob (j : Jobs) (id : Nat) (reason : JsString) (workerToken : Option JsString) (resetAttempts : Bool) :
    Bool × Jobs :=
  j.finish id workerToken
    (fun r => { r with
      state := .waiting
      last_error := some reason
      attempts := if resetAttempts then 0 else r.attempts })
    fun _ => rfl

/-- `reclaimExpiredLeases(now)`. -/
def reclaimExpiredLeases (j : Jobs) (now : Int) : Nat × Jobs :=
  (j.changes (expired now),
    j.update (expired now) fun r =>
      { r with state := .pending, worker_token := none, lease_until := none, reclaims := r.reclaims + 1 })

/-- A resume sweep over the parked rows that `p` picks. -/
def resume (j : Jobs) (p : JobRow → Bool) : Nat × Jobs :=
  (j.changes fun r => r.state = .waiting && p r,
    j.update (fun r => r.state = .waiting && p r) fun r =>
      { r with state := .pending, next_run_at := 0, last_error := none })

/-- `resumeWaitingJobs(coordinate)`. -/
def resumeWaitingJobs (j : Jobs) (coordinate : JsString) : Nat × Jobs :=
  j.resume fun r => jsonText r.payload (js "coordinate") = some coordinate

/-- `resumeDaemonParkedJobs()`. -/
def resumeDaemonParkedJobs (j : Jobs) : Nat × Jobs := j.resume fun r => likePrefix daemonParkReason r.last_error

/-- `resumeEventNotLiveJobs(coordinate)`. -/
def resumeEventNotLiveJobs (j : Jobs) (coordinate : JsString) : Nat × Jobs :=
  j.resume fun r =>
    jsonText r.payload (js "coordinate") = some coordinate && likePrefix eventNotLiveParkReason r.last_error

/-! ## Workers -/

/-- A worker's own token: `randomUUID()`, so never the empty string. -/
structure WorkerToken where
  val : JsString
  ok : val ≠ []
  deriving DecidableEq

/-- A call that needs the lease of a row. -/
inductive LeaseCall
  | heartbeatJob (leaseUntil : Int)
  | completeJob
  | failJob (attempts nextRunAt : Int) (error : JsString) (poison : Bool)
  | releaseJob
  | parkJob (reason : JsString) (resetAttempts : Bool)

/-- One call on the queue, by a worker or by the daemon. -/
inductive Call
  | enqueueJob (type dedupeKey : JsString) (payload : Json) (notBefore : Int)
  | claimNextJob (now : Int) (workerToken : WorkerToken) (leaseMs : Int) (types : ClaimTypes)
  | lease (id : Nat) (workerToken : WorkerToken) (call : LeaseCall)
  | reclaimExpiredLeases (now : Int)
  | resumeWaitingJobs (coordinate : JsString)
  | resumeDaemonParkedJobs
  | resumeEventNotLiveJobs (coordinate : JsString)

/-- A call on row `id` under a token: what it returns, and the table after it. -/
def leaseCall (j : Jobs) (id : Nat) (t : WorkerToken) : LeaseCall → Bool × Jobs
  | .heartbeatJob leaseUntil => j.heartbeatJob id t.val leaseUntil
  | .completeJob => j.completeJob id (some t.val)
  | .failJob attempts nextRunAt error poison => j.failJob id attempts nextRunAt error poison (some t.val)
  | .releaseJob => j.releaseJob id (some t.val)
  | .parkJob reason resetAttempts => j.parkJob id reason (some t.val) resetAttempts

/-- The table after a call. -/
def call (j : Jobs) : Call → Jobs
  | .enqueueJob type dedupeKey payload notBefore => (j.enqueueJob type dedupeKey payload notBefore).2
  | .claimNextJob now t leaseMs types => (j.claimNextJob now t.val leaseMs types).2
  | .lease id t c => (j.leaseCall id t c).2
  | .reclaimExpiredLeases now => (j.reclaimExpiredLeases now).2
  | .resumeWaitingJobs coordinate => (j.resumeWaitingJobs coordinate).2
  | .resumeDaemonParkedJobs => j.resumeDaemonParkedJobs.2
  | .resumeEventNotLiveJobs coordinate => (j.resumeEventNotLiveJobs coordinate).2

/-- A row's lease, as the log of leases names it. -/
def leaseOf (r : JobRow) : Option (Nat × JsString) := r.worker_token.map fun t => (r.id, t)

/-- The leases of some rows lapse. -/
def lapses (rows : List JobRow) : Lease.Log Nat JsString :=
  (rows.filterMap leaseOf).map fun l => .lapsed l.1 l.2

/-- What a call means for the leases, newest first. Taking a row that runs is
taking it from a worker whose lease lapsed; a heartbeat ends nothing. -/
def happened (j : Jobs) : Call → Lease.Log Nat JsString
  | .claimNextJob now t _ types =>
    match j.candidate now types with
    | none => []
    | some row => .taken row.id t.val :: lapses [row]
  | .lease _ _ (.heartbeatJob _) => []
  | .lease id t c => if (j.leaseCall id t c).1 then [.ended id t.val] else []
  | .reclaimExpiredLeases now => lapses (j.rows.filter (expired now))
  | _ => []

/-- The queue, and what has happened to its leases. -/
structure World where
  jobs : Jobs
  log : Lease.Log Nat JsString

def World.call (w : World) (c : Call) : World := ⟨w.jobs.call c, happened w.jobs c ++ w.log⟩

/-- One call of anyone, at any time. -/
def Step (w : World) (c : Call) (w' : World) : Prop := w' = w.call c

def start : World := ⟨empty, []⟩

/-- The tokens of the claims among some calls. -/
def claimTokens : List Call → List JsString
  | [] => []
  | .claimNextJob _ t _ _ :: calls => t.val :: claimTokens calls
  | _ :: calls => claimTokens calls

/-- A resume sweep. -/
def Call.isResume : Call → Bool
  | .resumeWaitingJobs _ | .resumeDaemonParkedJobs | .resumeEventNotLiveJobs _ => true
  | _ => false

end Jobs

end Nostrautica
