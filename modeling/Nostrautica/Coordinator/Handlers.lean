/-
The handlers of `coordinator/src/coordinator.ts` that decide about membership,
cut at their await points: from each `Pc` a handler runs, without
interruption, to the next one. Its effects are listed in the order it makes
them, so that a crash can fall between two of them.

What relays, other services and the clock answer is an `Answer`; a rejected
promise is one with `ok` false. Rumors here are about this event and from an
author who may send them.
-/
import Nostrautica.Coordinator.Members

namespace Nostrautica.Membership

/-- `MAX_ATTENDEES_PER_EVENT`. -/
def maxAttendeesPerEvent : Nat := 2000

/-- `MAX_PENDING_JOINS_PER_EVENT`. -/
def maxPendingJoinsPerEvent : Nat := 1000

/-- `PENDING_JOIN_TTL_MS`. -/
def pendingJoinTtlMs : Nat := 3 * 24 * 60 * 60 * 1000

/-- `JOIN_STALE_AFTER_SEC`. -/
def joinStaleAfterSec : Nat := 5 * 60

/-- `RUMOR_MAX_CLOCK_SKEW_SEC`. -/
def rumorMaxClockSkewSec : Nat := 15 * 60

/-- `RUMOR_MAX_FUTURE_SEC`. -/
def rumorMaxFutureSec : Nat := 24 * 60 * 60

/-- `rumorEffectiveCreatedAt`. -/
def rumorEffectiveCreatedAt (createdAt nowSec : Nat) : Nat := min createdAt (nowSec + rumorMaxClockSkewSec)

/-- A 21603 grant: `revoked` names the members the organizer removed. -/
structure Grant (P K : Type*) where
  gen : Nat
  eck : List (EckVersion K)
  revoked : List P

/-- The organizer's 21604 commands about a member. -/
inductive AdminCommand
  | approve
  | reprocess
  | revoke
  deriving DecidableEq

/-- What a rumor says. A join is `entitled` where it carries an invite, or, to
a community, a `member_of` proof. -/
inductive Body (P K : Type*)
  | admin (cmd : AdminCommand) (pubkey : P) (expires : Nat)
  | withdrawal (pubkey : P) (deleteData : Bool)
  | join (pubkey : P) (entitled : Bool)
  | submission (pubkey : P)
  | correction (pubkey : P)
  | grant (g : Grant P K)

structure Rumor (P K : Type*) where
  created_at : Nat
  body : Body P K

/-- The rumors, by their ids, and what a pubkey or a key is as a string. -/
structure Setting (P R K : Type*) where
  rumor : R → Rumor P K
  /-- Whether `args.pubkey` is not empty. -/
  named : P → Bool
  /-- `/^[0-9a-f]{64}$/`. -/
  hex64 : P → Bool
  /-- `eckFingerprint`, read as a number. -/
  fingerprint : K → Nat
  /-- `hierarchyReissueDelayMs > 0`. -/
  reissueDelay : Bool

/-- `approval` of the event's config. -/
inductive Approval
  | manual
  | manualInvite
  | invite
  | open
  deriving DecidableEq

/-- What the newest 31600 says of a grant: not fetchable or not caught up yet,
something else, or this coordinator at the grant's generation and inbox. -/
inductive ConfigCheck
  | behind
  | other
  | matches
  deriving DecidableEq

/-- What a handler learns when it goes on from an await point. -/
structure Answer (P K : Type*) where
  ok : Bool
  now : Nat
  /-- `generateEck()`. -/
  key : K
  approval : Approval
  /-- The decision of the entitlement checks. -/
  entitlement : Bool
  /-- `admitToRoster`. -/
  admitted : Bool
  /-- Whether a failed attempt is repeated. -/
  retry : Bool
  /-- Whether a submission or correction is older than the one stored. -/
  stale : Bool
  /-- `childLinkHolds`. -/
  linked : Bool
  config : ConfigCheck
  /-- The adoptable roster, its pages merged. -/
  roster : List (P × Role)

/-- Where a loop over members waits. -/
inductive LoopStage (K : Type*)
  /-- `await parentProofFor`. -/
  | proving
  /-- `await publish(grant)`. -/
  | granting (eck : List (EckVersion K))
  /-- The rest of the turn: the directory entry, or the pause of a re-issue. -/
  | publishing

/-- The await points. -/
inductive Pc (P K : Type*)
  /-- For the member's lock. -/
  | queued
  /-- Before another attempt. -/
  | sleeping
  /-- The handler is done, and its rumor will be marked seen. -/
  | returned
  /-- approve: `await admitToRoster`. -/
  | admitting
  /-- join: the entitlement checks, and `await admitToRoster`. -/
  | entitling (existing : Option Status) (queueFull manual : Bool)
  /-- `grantAndPublish`: `await parentProofFor`. -/
  | proving
  /-- `grantAndPublish`: `await publish(grant)`. -/
  | granting (eck : List (EckVersion K))
  /-- The directory, the roster and billing; reprocess: billing. -/
  | publishing
  /-- `revokeAttendee`: `await publish(deletion)`. -/
  | deleting
  /-- A loop over members, at `p`, with `todo` after it. -/
  | serving (stage : LoopStage K) (p : P) (todo : List P)
  /-- What follows a loop. -/
  | closing
  /-- `installEvent`: `await fetch` of the config. -/
  | configuring (full : Bool)
  /-- `installEvent`: the backfill, billing and chat. -/
  | installing (full : Bool)
  /-- `bootstrapHandover`: `await fetch` of the roster. -/
  | rostering
  /-- `bootstrapHandover`: `await fetch` of the directory entry of `p`. -/
  | adopting (p : P) (role : Role) (rest : List (P × Role))
  /-- `reissueParentProofs`: `await childLinkHolds`. -/
  | linking

/-- A handler in progress: the state it was called with, its rumor's effective
`created_at`, and where it waits. -/
structure Thread (P K : Type*) where
  state : Nat
  createdAt : Nat
  pc : Pc P K

/-- What runs: the handler of a rumor, the re-issue of a generation's proofs,
the resumption of an event after a restart. -/
inductive Task (R : Type*)
  | rumor (r : R)
  | reissue (gen : Nat)
  | restore
  deriving DecidableEq

/-- What a handler does from an await point: its effects, and where it waits next. -/
abbrev Outcome (P R K : Type*) := List (Effect P R K) × Option (Thread P K)

variable {P R K : Type*} [DecidableEq P] [LinearOrder R] [DecidableEq K]

namespace Thread

def goto (th : Thread P K) (pc : Pc P K) : Option (Thread P K) := some { th with pc }

/-- Nothing more than another await point. -/
def skip (th : Thread P K) (pc : Pc P K) : Outcome P R K := ([], th.goto pc)

end Thread

/-- Effects, and then what a handler does from the store they leave. -/
def after (s : Store P R K) (es : List (Effect P R K)) (f : Store P R K → Outcome P R K) : Outcome P R K :=
  (es ++ (f (es.foldl Store.apply s)).1, (f (es.foldl Store.apply s)).2)

/-! ## Ordering -/

/-- `supersedes`: later, or as late with a lower id. -/
def supersedes (createdAt : Nat) (r : R) (createdAt' : Nat) (r' : R) : Bool :=
  createdAt > createdAt' || createdAt = createdAt' && r < r'

/-- `beginOrderedOperation` answers "run". -/
def beginsOperation (s : Store P R K) (p : P) (createdAt : Nat) (r : R) : Bool :=
  match s.watermarks p with
  | none => true
  | some op => if op.rumor_id = r then !op.complete else supersedes createdAt r op.created_at op.rumor_id

/-- The operation of `r` on `p` runs, or is skipped. -/
def ordered (s : Store P R K) (p : P) (r : R) (th : Thread P K) (f : Store P R K → Outcome P R K) : Outcome P R K :=
  if beginsOperation s p th.createdAt r then after s [.beginCommandOp p th.createdAt r] f else th.skip .returned

/-- The operation is complete. -/
def completed (p : P) (r : R) (th : Thread P K) : Outcome P R K := ([.completeCommandOp p r], th.goto .returned)

variable (c : Setting P R K)

/-! ## Granting -/

/-- The next member of a loop, or its end: a re-issue builds its grant at
once, the others look up a proof first. -/
def serve (s : Store P R K) (k : Task R) (th : Thread P K) : List P → Outcome P R K
  | p :: todo =>
    match k with
    | .reissue _ => ([.happened (.built p (s.eck th.state))], th.goto (.serving (.granting (s.eck th.state)) p todo))
    | _ => th.skip (.serving .proving p todo)
  | [] =>
    match k with
    | .reissue gen => ([.markHierarchyReissued gen], none)
    | _ => th.skip .closing

/-- One await of a loop settles; `failed` is what its rejection leads to. -/
def loop (s : Store P R K) (k : Task R) (th : Thread P K) (failed : Outcome P R K) (a : Answer P K) (p : P) (todo : List P) :
    LoopStage K → Outcome P R K
  | .proving => ([.happened (.built p (s.eck th.state))], th.goto (.serving (.granting (s.eck th.state)) p todo))
  | .granting eck =>
    if a.ok then
      match k with
      | .reissue _ =>
        if c.reissueDelay then ([.happened (.published p eck)], th.goto (.serving .publishing p todo))
        else after s [.happened (.published p eck)] fun s => serve s k th todo
      | _ => ([.happened (.published p eck)], th.goto (.serving .publishing p todo))
    else failed
  | .publishing => if a.ok then serve s k th todo else failed

/-- `grantAndPublish`, up to its first await; `done` is what follows it. -/
def grantAndPublish (s : Store P R K) (p : P) (th : Thread P K) (done : Outcome P R K) : Outcome P R K :=
  if s.revocations p then done else th.skip .proving

/-- `grantAndPublish` from `await parentProofFor`. -/
def grantProved (s : Store P R K) (p : P) (th : Thread P K) (done : Outcome P R K) : Outcome P R K :=
  if s.eventStillLive th.state then
    ([.happened (.built p (s.eck th.state))], th.goto (.granting (s.eck th.state)))
  else done

/-! ## Commands -/

/-- `approve`, of a member who is admitted. -/
def admitMember (s : Store P R K) (p : P) (r : R) (th : Thread P K) (es : List (Effect P R K)) : Outcome P R K :=
  after s (.clearRevocation p :: es) fun s => grantAndPublish s p th (completed p r th)

/-- `approve`, once its operation has begun. -/
def approve (s : Store P R K) (p : P) (r : R) (th : Thread P K) (a : Answer P K) : Outcome P R K :=
  if !s.stillOwnsSubject p r then th.skip .returned
  else
    match if c.named p then s.status p else none with
    | some .approved => admitMember s p r th []
    | some _ => th.skip .admitting
    | none =>
      if !c.hex64 p then completed p r th
      else if s.approvedAttendeeCount ≥ maxAttendeesPerEvent then th.skip .returned
      else ([.upsertAttendee p (some .pending) none a.now], th.goto .admitting)

/-- `approve` from `await admitToRoster`. -/
def approveAdmitted (s : Store P R K) (p : P) (r : R) (th : Thread P K) (a : Answer P K) : Outcome P R K :=
  if a.admitted then admitMember s p r th [.upsertAttendee p (some .approved) none a.now] else th.skip .returned

/-- The rotation of `revokeAttendee`: recorded before, or minted now. -/
def rotate (s : Store P R K) (p : P) (r : R) (th : Thread P K) (byOrganizer : Bool) (a : Answer P K) : Outcome P R K :=
  match canonicalEck c.fingerprint (s.eck th.state) with
  | none => th.skip .sleeping
  | some prev =>
    match s.eckRotation p with
    | some rot =>
      if (s.eck th.state).any fun v => v.id = rot.newId then th.skip .deleting
      else ([.setEck th.state (s.eck th.state ++ [⟨rot.newId, rot.newKey⟩])], th.goto .deleting)
    | none =>
      let newId := maxId (s.eck th.state) + 1
      ([.setCommandOpProgress p r ⟨newId, a.key, prev.id⟩, .happened (.minted p byOrganizer newId),
        .setEck th.state (s.eck th.state ++ [⟨newId, a.key⟩])], th.goto .deleting)

/-- `revokeAttendee`, up to its first await; `done` is what follows it. -/
def revokeAttendee (s : Store P R K) (p : P) (r : R) (th : Thread P K) (byOrganizer : Bool) (a : Answer P K)
    (done : Outcome P R K) : Outcome P R K :=
  if !s.stillOwnsSubject p r then done
  else after s (if byOrganizer then [.recordRevocation p] else []) fun s => rotate c s p r th byOrganizer a

/-- `revokeAttendee` from `await publish(deletion)`. -/
def deletionPublished (s : Store P R K) (k : Task R) (p : P) (th : Thread P K) (a : Answer P K) : Outcome P R K :=
  if a.ok then after s [.upsertAttendee p (some .revoked) none a.now] fun s => serve s k th s.approvedAttendees
  else th.skip .sleeping

/-- What a withdrawal does after the member has left. -/
def withdrawn (s : Store P R K) (p : P) (r : R) (th : Thread P K) (deleteData : Bool) : Outcome P R K :=
  if deleteData then
    if !s.stillOwnsSubject p r then th.skip .returned
    else after s [.purgeAttendeeArtifacts p] fun _ => completed p r th
  else completed p r th

/-- `handleWithdrawal`, once its operation has begun. -/
def handleWithdrawal (s : Store P R K) (p : P) (r : R) (th : Thread P K) (deleteData : Bool) (a : Answer P K) :
    Outcome P R K :=
  match s.status p with
  | none => completed p r th
  | some status =>
    if status = .approved || (s.eckRotation p).isSome then revokeAttendee c s p r th false a (withdrawn s p r th deleteData)
    else if status = .pending then
      after s [.purgeAttendeeArtifacts p] fun s => withdrawn s p r th deleteData
    else withdrawn s p r th deleteData

/-- `handleAdmin`, with the member's lock. -/
def handleAdmin (s : Store P R K) (cmd : AdminCommand) (p : P) (r : R) (th : Thread P K) (a : Answer P K) :
    Outcome P R K :=
  ordered s p r th fun s =>
    match cmd with
    | .approve => approve c s p r th a
    | .reprocess => th.skip .publishing
    | .revoke => if c.named p then revokeAttendee c s p r th true a (completed p r th) else completed p r th

/-! ## Joins -/

/-- The requests `pendingQueueFull` evicts. -/
def evicted (s : Store P R K) (now : Nat) : List P :=
  if s.pendingAttendeeCount < maxPendingJoinsPerEvent then []
  else s.stalePendingPubkeys ((now : Int) - (pendingJoinTtlMs : Int))

/-- The ordering guard of a join. -/
def staleJoin (s : Store P R K) (p : P) (r : R) (createdAt now : Nat) : Bool :=
  (s.watermarks p).any fun op =>
    op.complete && op.rumor_id ≠ r && createdAt < op.created_at && now / 1000 > createdAt + joinStaleAfterSec

/-- `handleJoinLocked`, from its enrolment on. -/
def enroll (s : Store P R K) (p : P) (th : Thread P K) (entitled : Bool) (a : Answer P K) : Outcome P R K :=
  let existing := s.status p
  if existing = none ∧ s.approvedAttendeeCount ≥ maxAttendeesPerEvent then th.skip .returned
  else
    after s (if existing = none then (evicted s a.now).map .purgeAttendeeArtifacts else []) fun s =>
      let queueFull := existing = none && s.pendingAttendeeCount ≥ maxPendingJoinsPerEvent
      if a.approval = .invite ∧ !entitled then th.skip .returned
      else
        (if queueFull then [] else [.upsertAttendee p (some .pending) none a.now],
          th.goto (.entitling existing queueFull (a.approval = .manual)))

/-- `handleJoinLocked`. -/
def handleJoin (s : Store P R K) (p : P) (r : R) (th : Thread P K) (entitled : Bool) (a : Answer P K) : Outcome P R K :=
  if s.revocations p then th.skip .returned
  else
    match s.status p with
    | some .approved => grantAndPublish s p th (th.skip .returned)
    | some .pending => enroll s p th entitled a
    | _ => if staleJoin s p r th.createdAt a.now then th.skip .returned else enroll s p th entitled a

/-- The row a join leaves: approved by its decision, or as it is. -/
def decideJoin (s : Store P R K) (p : P) (th : Thread P K) (queueFull granted : Bool) (a : Answer P K) : Outcome P R K :=
  if granted then
    after s [.upsertAttendee p (some .approved) none a.now, .happened (.admitted p false)] fun s =>
      grantAndPublish s p th (th.skip .returned)
  else if s.status p = none ∧ queueFull then th.skip .returned
  else ([.upsertAttendee p (some ((s.status p).getD .pending)) none a.now], th.goto .returned)

/-- `handleJoinLocked`, once the checks it awaited have answered. -/
def joinChecked (s : Store P R K) (p : P) (th : Thread P K) (existing : Option Status) (queueFull manual : Bool)
    (a : Answer P K) : Outcome P R K :=
  if !a.ok then th.skip .sleeping
  else if manual then
    if a.entitlement && !a.admitted then th.skip .returned
    else if !s.eventStillLive th.state then th.skip .returned
    else decideJoin s p th queueFull a.entitlement a
  else if !s.eventStillLive th.state then th.skip .returned
  else if a.approval = .invite && !a.entitlement then
    (if existing = none then [.purgeAttendeeArtifacts p] else [], th.goto .returned)
  else
    let granted := a.entitlement || a.approval = .open && existing ≠ some .revoked
    decideJoin s p th queueFull (granted && a.admitted) a

/-! ## Installs and handovers -/

/-- `seedRevocations`. -/
def seedRevocations (s : Store P R K) (revoked : List P) (now : Nat) : List (Effect P R K) :=
  revoked.eraseDups.flatMap fun p =>
    .recordRevocation p :: if s.status p = some .approved then [.upsertAttendee p (some .revoked) none now] else []

/-- `installEvent` of a grant, once the config has been fetched. -/
def installEvent (s : Store P R K) (th : Thread P K) (g : Grant P K) (full : Bool) (a : Answer P K) : Outcome P R K :=
  if !a.ok then th.skip .sleeping
  else if g.gen < s.highGen then th.skip .returned
  else if g.gen = s.highGen ∧ (s.event.isNone || s.tombstoned || s.completedInstallGen = some g.gen) then th.skip .returned
  else
    match a.config with
    | .behind => th.skip .sleeping
    | .other => th.skip .returned
    | .matches =>
      let eck := match s.event with
        | some held => unionEck c.fingerprint held.eck g.eck
        | none => g.eck
      (.installed g.gen eck :: seedRevocations s g.revoked a.now ++ [.live g.gen eck],
        some { th with state := s.made, pc := .installing full })

/-- `completedInstallGen.set`, at the end of `installEvent`. -/
def installDone (s : Store P R K) (k : Task R) (th : Thread P K) : Outcome P R K :=
  ([.completedInstall (s.states th.state).gen],
    match k with
    | .rumor _ => th.goto .returned
    | _ => none)

/-- The next roster entry `bootstrapHandover` adopts. -/
def nextAdopted (s : Store P R K) : List (P × Role) → Option (P × Role × List (P × Role))
  | [] => none
  | (p, role) :: rest =>
    if s.status p = some .approved then nextAdopted s rest
    else if s.revocations p then nextAdopted s rest
    else if s.approvedAttendeeCount ≥ maxAttendeesPerEvent then none
    else some (p, role, rest)

/-- The seeding loop of `bootstrapHandover`, and the republish that follows it. -/
def bootstrap (s : Store P R K) (k : Task R) (th : Thread P K) (roster : List (P × Role)) : Outcome P R K :=
  match nextAdopted s roster with
  | some (p, role, rest) => th.skip (.adopting p role rest)
  | none => serve s k th s.approvedAttendees

/-! ## Dispatch -/

/-- The handler a rumor is given to, with the event state of its inbox; `none`
where the rumor is left for later. -/
def dispatch (s : Store P R K) (i createdAt now : Nat) : Body P K → Option (Thread P K)
  | .admin _ _ expires =>
    match s.live with
    | none => if s.event.isSome && !s.tombstoned then none else some ⟨i, createdAt, .returned⟩
    | some i => some ⟨i, createdAt, if now / 1000 > expires then .returned else .queued⟩
  | .grant _ => some ⟨i, createdAt, .configuring s.event.isNone⟩
  | _ => some ⟨i, createdAt, if s.expired then .returned else .queued⟩

/-- A handler starts; where it needs the member's lock, it has it. -/
def start (s : Store P R K) (r : R) (th : Thread P K) (a : Answer P K) : Body P K → Option (Outcome P R K)
  | .admin cmd p _ => some (handleAdmin c s cmd p r th a)
  | .withdrawal p deleteData => some (ordered s p r th fun s => handleWithdrawal c s p r th deleteData a)
  | .join p entitled => some (handleJoin s p r th entitled a)
  | .submission p =>
    some <|
      if s.status p = none ∨ a.stale then th.skip .returned
      else ([.upsertAttendee p none none a.now], th.goto (if s.status p = some .approved then .publishing else .returned))
  | .correction p =>
    some <|
      if s.status p = some .approved ∧ !a.stale then ([.upsertAttendee p none none a.now], th.goto .publishing)
      else th.skip .returned
  | .grant _ => none

/-- What follows a handler's last await. -/
def finish (s : Store P R K) (r : R) (th : Thread P K) : Body P K → Outcome P R K
  | .admin _ p _ => completed p r th
  | .withdrawal p deleteData => withdrawn s p r th deleteData
  | _ => th.skip .returned

/-- The member whose grant `grantAndPublish` publishes. -/
def Body.grantee : Body P K → Option P
  | .admin .approve p _ => some p
  | .join p _ => some p
  | _ => none

/-- The member `revokeAttendee` removes. -/
def Body.removed : Body P K → Option P
  | .admin .revoke p _ => some p
  | .withdrawal p _ => some p
  | _ => none

/-- A rumor's handler goes on from an await point. -/
def resume (s : Store P R K) (r : R) (th : Thread P K) (a : Answer P K) : Option (Outcome P R K) :=
  let body := (c.rumor r).body
  match th.pc with
  | .queued => start c s r th a body
  | .sleeping => some ([], if a.retry then dispatch s th.state th.createdAt a.now body else none)
  | .returned => some ([.markRumorSeen r], none)
  | .admitting =>
    match body with
    | .admin .approve p _ => some (approveAdmitted s p r th a)
    | _ => none
  | .entitling existing queueFull manual =>
    match body with
    | .join p _ => some (joinChecked s p th existing queueFull manual a)
    | _ => none
  | .proving => body.grantee.map fun p => grantProved s p th (finish s r th body)
  | .granting eck =>
    body.grantee.map fun p =>
      if a.ok then ([.happened (.published p eck)], th.goto .publishing) else th.skip .sleeping
  | .publishing => some (if a.ok then finish s r th body else th.skip .sleeping)
  | .deleting => body.removed.map fun p => deletionPublished s (.rumor r) p th a
  | .serving stage p todo =>
    match body with
    | .grant _ => some (loop c s (.rumor r) th (installDone s (.rumor r) th) a p todo stage)
    | _ => some (loop c s (.rumor r) th (th.skip .sleeping) a p todo stage)
  | .closing =>
    match body with
    | .grant _ => some (installDone s (.rumor r) th)
    | _ => some (if a.ok then finish s r th body else th.skip .sleeping)
  | .configuring full =>
    match body with
    | .grant g => some (installEvent c s th g full a)
    | _ => none
  | .installing full =>
    some (if !a.ok then th.skip .sleeping else if full then th.skip .rostering else installDone s (.rumor r) th)
  | .rostering =>
    some (if a.ok && !a.roster.isEmpty then bootstrap s (.rumor r) th a.roster else installDone s (.rumor r) th)
  | .adopting p role rest =>
    some (after s [.upsertAttendee p (some .approved) (some role) a.now] fun s => bootstrap s (.rumor r) th rest)
  | .linking => none

/-- A task goes on from an await point. -/
def settle (s : Store P R K) (k : Task R) (th : Thread P K) (a : Answer P K) : Option (Outcome P R K) :=
  match k with
  | .rumor r => resume c s r th a
  | .reissue _ =>
    match th.pc with
    | .linking => some (if a.linked then serve s k th s.approvedAttendees else ([], none))
    | .serving stage p todo => some (loop c s k th ([], none) a p todo stage)
    | _ => none
  | .restore => some (if a.ok then installDone s k th else ([], none))

end Nostrautica.Membership
