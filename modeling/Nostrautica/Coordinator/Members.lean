/-
What the coordinator keeps of one event's members (`coordinator/src/store/db.ts`
and the live state of `coordinator.ts`), and the statements that change it.

Times are milliseconds, as `now()` gives them; a rumor's `created_at` is in
seconds. Of a row only the columns are kept that decide about membership.
-/
import Nostrautica.Sql.Keyed
import Nostrautica.Transition.Tasks

namespace Nostrautica.Membership

open Sql

/-- `attendees.status`. -/
inductive Status
  | pending
  | approved
  | revoked
  deriving DecidableEq

/-- `attendees.role`. -/
inductive Role
  | attendee
  | organizer
  deriving DecidableEq

/-- A row of `attendees`. -/
structure AttendeeRow where
  status : Status
  role : Role
  updated_at : Nat
  deriving DecidableEq

/-- `EckVersion`. -/
structure EckVersion (K : Type*) where
  id : Nat
  key : K
  deriving DecidableEq

instance lawfulBEq_eckVersion {K : Type*} [DecidableEq K] : LawfulBEq (EckVersion K) := inferInstance

/-- `progress.eckRotation`. -/
structure EckRotation (K : Type*) where
  newId : Nat
  newKey : K
  prevId : Nat

/-- A row of `command_watermarks`; `complete` is its state. -/
structure CommandWatermark (R K : Type*) where
  created_at : Nat
  rumor_id : R
  complete : Bool
  eckRotation : Option (EckRotation K)

/-- The row of `events`. -/
structure EventRow (K : Type*) where
  gen : Nat
  eck : List (EckVersion K)

/-- `EventState`, an event as an install made it. A handler keeps the one it
was called with. -/
structure EventState (K : Type*) where
  gen : Nat
  eck : List (EckVersion K)

/-- What has happened to a member's access. -/
inductive Event (P K : Type*)
  /-- A revoke or withdrawal minted an ECK version to exclude the member. -/
  | minted (p : P) (byOrganizer : Bool) (id : Nat)
  /-- An approve, where it clears the revocation, or a join admitted the member. -/
  | admitted (p : P) (byOrganizer : Bool)
  /-- A 21602 for the member was built. -/
  | built (p : P) (eck : List (EckVersion K))
  /-- A 21602 for the member was published. -/
  | published (p : P) (eck : List (EckVersion K))
  deriving DecidableEq

/-- The tables, the memory of the process, and the history. -/
structure Store (P R K : Type*) where
  event : Option (EventRow K)
  /-- `install_state.high_gen`. -/
  highGen : Nat
  /-- `install_state.tombstoned`. -/
  tombstoned : Bool
  attendees : Keyed P AttendeeRow
  /-- `member_revocations`. -/
  revocations : P → Bool
  /-- The rows of `command_watermarks` for the subjects `member:<pubkey>`. -/
  watermarks : P → Option (CommandWatermark R K)
  /-- `seen_rumors`. -/
  seen : R → Bool
  /-- `hierarchy_reissued`, by generation. -/
  reissued : Nat → Bool
  /-- `isRetentionExpired`. -/
  expired : Bool
  /-- The event states made so far, and how many. -/
  states : Nat → EventState K
  made : Nat
  /-- The state under `this.events`. -/
  live : Option Nat
  /-- `completedInstallGen`. -/
  completedInstallGen : Option Nat
  /-- Oldest first. -/
  history : List (Event P K)

/-- One statement, one write to the live state, or one event of the history. -/
inductive Effect (P R K : Type*)
  | beginCommandOp (p : P) (createdAt : Nat) (r : R)
  | setCommandOpProgress (p : P) (r : R) (rot : EckRotation K)
  | completeCommandOp (p : P) (r : R)
  | upsertAttendee (p : P) (status : Option Status) (role : Option Role) (now : Nat)
  | purgeAttendeeArtifacts (p : P)
  | recordRevocation (p : P)
  | clearRevocation (p : P)
  /-- `state.eck = eck; this.persistEck(state)`. -/
  | setEck (state : Nat) (eck : List (EckVersion K))
  | markRumorSeen (r : R)
  | markHierarchyReissued (gen : Nat)
  /-- `upsertEvent` and `recordInstalledGen` of an install. -/
  | installed (gen : Nat) (eck : List (EckVersion K))
  /-- `this.events.set(coordinate, state)`, of a state just made. -/
  | live (gen : Nat) (eck : List (EckVersion K))
  | completedInstall (gen : Nat)
  | happened (e : Event P K)

/-! ## ECK versions -/

section Eck

variable {K : Type*} (fingerprint : K → Nat)

/-- `order(a, b) < 0`, of `eck-identity.ts`. -/
def eckBefore (a b : EckVersion K) : Bool := a.id < b.id || a.id = b.id && fingerprint a.key < fingerprint b.key

/-- The version a loop over `canonicalEck` keeps. -/
def canonicalStep (best : Option (EckVersion K)) (v : EckVersion K) : Option (EckVersion K) :=
  match best with
  | none => some v
  | some b => if v.id > b.id || v.id = b.id && eckBefore fingerprint v b then some v else some b

/-- `canonicalEck`. -/
def canonicalEck (versions : List (EckVersion K)) : Option (EckVersion K) :=
  versions.foldl (canonicalStep fingerprint) none

/-- `unionEck`, of two lists. -/
def unionEck [DecidableEq K] (held incoming : List (EckVersion K)) : List (EckVersion K) :=
  (held ++ incoming).eraseDups.mergeSort fun a b => !eckBefore fingerprint b a

/-- `state.eck.reduce((m, v) => Math.max(m, v.id), 0)`. -/
def maxId (versions : List (EckVersion K)) : Nat := versions.foldl (fun m v => max m v.id) 0

end Eck

/-! ## The statements -/

namespace Store

variable {P R K : Type*} [DecidableEq P] [DecidableEq R]

/-- `approvedAttendees`, the pubkeys. -/
def approvedAttendees (s : Store P R K) : List P :=
  (s.attendees.rows.filter fun r => r.2.status = .approved).map (·.1)

def approvedAttendeeCount (s : Store P R K) : Nat := s.attendees.rows.countP fun r => r.2.status = .approved

def pendingAttendeeCount (s : Store P R K) : Nat := s.attendees.rows.countP fun r => r.2.status = .pending

/-- `stalePendingPubkeys`. -/
def stalePendingPubkeys (s : Store P R K) (cutoff : Int) : List P :=
  ((s.attendees.rows.filter fun r => r.2.status = .pending && (r.2.updated_at : Int) < cutoff).mergeSort
    fun a b => a.2.updated_at ≤ b.2.updated_at).map (·.1)

/-- `getAttendee(p)?.status`. -/
def status (s : Store P R K) (p : P) : Option Status := (s.attendees.get? p).map (·.status)

/-- The row of `upsertAttendee`: a value that is not given keeps the one there. -/
def upsertedRow (status : Option Status) (role : Option Role) (now : Nat) (old : Option AttendeeRow) : AttendeeRow where
  status := status.getD ((old.map (·.status)).getD .pending)
  role := role.getD ((old.map (·.role)).getD .attendee)
  updated_at := now

/-- The row of `beginCommandOp`: progress is kept for the rumor that recorded it. -/
def begunOp (createdAt : Nat) (r : R) (old : Option (CommandWatermark R K)) : CommandWatermark R K where
  created_at := createdAt
  rumor_id := r
  complete := false
  eckRotation := (old.filter fun op => op.rumor_id = r).bind (·.eckRotation)

/-- An `UPDATE command_watermarks ... WHERE subject = ? AND rumor_id = ?`. -/
def updateOp (s : Store P R K) (p : P) (r : R) (f : CommandWatermark R K → CommandWatermark R K) : Store P R K :=
  { s with watermarks := Function.update s.watermarks p
             ((s.watermarks p).map fun op => if op.rumor_id = r then f op else op) }

def apply (s : Store P R K) : Effect P R K → Store P R K
  | .beginCommandOp p createdAt r =>
    { s with watermarks := Function.update s.watermarks p (some (begunOp createdAt r (s.watermarks p))) }
  | .setCommandOpProgress p r rot => s.updateOp p r fun op => { op with eckRotation := some rot }
  | .completeCommandOp p r => s.updateOp p r fun op => { op with complete := true }
  | .upsertAttendee p status role now => { s with attendees := s.attendees.upsert p (upsertedRow status role now) }
  | .purgeAttendeeArtifacts p => { s with attendees := s.attendees.delete fun q => q = p }
  | .recordRevocation p => { s with revocations := Function.update s.revocations p true }
  | .clearRevocation p =>
    { s with
      revocations := Function.update s.revocations p false
      history := s.history ++ [.admitted p true] }
  | .setEck i eck =>
    { s with
      states := Function.update s.states i { s.states i with eck }
      event := s.event.map fun row => { row with eck } }
  | .markRumorSeen r => { s with seen := Function.update s.seen r true }
  | .markHierarchyReissued gen => { s with reissued := Function.update s.reissued gen true }
  | .installed gen eck =>
    { s with event := some ⟨gen, eck⟩, highGen := max s.highGen gen, tombstoned := false }
  | .live gen eck =>
    { s with states := Function.update s.states s.made ⟨gen, eck⟩, made := s.made + 1, live := some s.made }
  | .completedInstall gen => { s with completedInstallGen := some gen }
  | .happened e => { s with history := s.history ++ [e] }

/-- The state a handler was called with. -/
def eck (s : Store P R K) (i : Nat) : List (EckVersion K) := (s.states i).eck

/-- `eventStillLive(coordinate, state.gen)`. -/
def eventStillLive (s : Store P R K) (i : Nat) : Bool :=
  s.live.any fun j => (s.states j).gen = (s.states i).gen && !s.expired && !s.tombstoned

/-- `getCommandOpProgress(subject).eckRotation`. -/
def eckRotation (s : Store P R K) (p : P) : Option (EckRotation K) := (s.watermarks p).bind (·.eckRotation)

/-- `stillOwnsSubject`. -/
def stillOwnsSubject (s : Store P R K) (p : P) (r : R) : Bool := (s.watermarks p).all fun op => op.rumor_id = r

/-- What a crash leaves: the database, and the history. -/
def crashed (s : Store P R K) : Store P R K := { s with live := none, completedInstallGen := none }

end Store

end Nostrautica.Membership
