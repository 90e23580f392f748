/-
Who gets a place on the roster: `handleJoin`, the `approve` of `handleAdmin`, and
the seeding of `bootstrapHandover` in `coordinator/src/coordinator.ts`, with the
capacity probe `admitToRoster` and the roster it probes, over the attendee rows of
`store/db.ts`.

A handler keeps the lock of its member from its first read to the end of its
grant; the seeding of a handover takes no lock. Names, profiles and entitlements
are left out: an act says whether the entitlement of a join holds and whether the
event is still live. A command that is stale or expired is not one of the acts.
-/
import Nostrautica.Protocol.Roster
import Nostrautica.Transition.Run
import Nostrautica.Transition.Tasks

namespace Nostrautica.Capacity

open Js Roster Tasks

inductive Status
  | pending | approved | revoked
  deriving DecidableEq

inductive Approval
  | manual | invite | manualInvite | open
  deriving DecidableEq

/-- `MAX_ATTENDEES_PER_EVENT`. -/
def maxAttendeesPerEvent : Nat := 2000

/-- `MAX_PENDING_JOINS_PER_EVENT`. -/
def maxPendingJoinsPerEvent : Nat := 1000

/-- A row of `attendees`. -/
structure AttendeeRow where
  pubkey : Hex32
  status : Status
  role : RosterRole

/-- What a roster says besides who is on it: the key version, the group's id, and
each account's blinded `d` and active chat keys. -/
structure Contents where
  eckCurrent : Int
  nostrGroupId : Option JsString
  blindedD : Hex32 → JsString
  chatKeys : Hex32 → List RosterChatKey
  eck_ok : 0 < eckCurrent ∧ isNumberInt eckCurrent = true
  group_ok : nostrGroupId.all isHex32 = true
  d_ok : ∀ p, (blindedD p).length ≤ maxD
  keys_ok : ∀ p, (chatKeys p).all rosterChatKeySchema = true

structure Store where
  /-- In the order of their row ids. -/
  rows : List AttendeeRow
  revocations : Hex32 → Bool
  contents : Contents
  distinct : (rows.map (·.pubkey)).Nodup

/-- The row of `p` is replaced where it stands, and a new one comes last. -/
def put (p : Hex32) (f : Option AttendeeRow → AttendeeRow) : List AttendeeRow → List AttendeeRow
  | [] => [f none]
  | row :: rows => if row.pubkey = p then f (some row) :: rows else row :: put p f rows

/-- The rows around the one replaced. -/
theorem put_spec (p : Hex32) (f : Option AttendeeRow → AttendeeRow) (rows : List AttendeeRow) :
    ∃ l₁ l₂ old, rows = l₁ ++ old.toList ++ l₂ ∧ put p f rows = l₁ ++ f old :: l₂ ∧ rows.find? (·.pubkey = p) = old ∧
      (old = none → l₂ = []) := by
  induction rows with
  | nil => exact ⟨[], [], none, rfl, rfl, rfl, fun _ => rfl⟩
  | cons row rows ih =>
    by_cases hp : row.pubkey = p
    · exact ⟨[], rows, some row, rfl, by simp [put, hp], by simp [hp], nofun⟩
    · obtain ⟨l₁, l₂, old, hrows, hput, hfind, hlast⟩ := ih
      refine ⟨row :: l₁, l₂, old, ?_, ?_, ?_, hlast⟩
      · simp [hrows]
      · simp [put, hp, hput]
      · simp [hp, hfind]

theorem put_distinct {p : Hex32} {f : Option AttendeeRow → AttendeeRow} (hf : ∀ old, (f old).pubkey = p)
    {rows : List AttendeeRow} (h : (rows.map (·.pubkey)).Nodup) : ((put p f rows).map (·.pubkey)).Nodup := by
  obtain ⟨l₁, l₂, old, hrows, hput, hfind, hlast⟩ := put_spec p f rows
  cases old with
  | none =>
    rw [hput, hlast rfl]
    rw [hrows, hlast rfl] at h
    simp only [Option.toList_none, List.append_nil] at h hrows
    have hne : ∀ row ∈ l₁, row.pubkey ≠ p := by
      rw [hrows, List.find?_eq_none] at hfind
      simpa [hlast rfl] using hfind
    rw [List.map_append, List.map_singleton, hf, List.nodup_append]
    refine ⟨h, List.nodup_singleton _, fun x hx y hy => ?_⟩
    obtain ⟨row, hrow, rfl⟩ := List.mem_map.mp hx
    rw [List.mem_singleton.mp hy]
    exact hne row hrow
  | some row =>
    have hp : row.pubkey = p := by simpa using List.find?_some hfind
    rw [hput]
    rw [hrows] at h
    simpa [hf, hp] using h

/-- The row after an upsert: an absent role is kept. -/
def AttendeeRow.upsert (p : Hex32) (status : Status) (role : Option RosterRole) (row : Option AttendeeRow) : AttendeeRow :=
  ⟨p, status, role.getD ((row.map (·.role)).getD .attendee)⟩

namespace Store

variable (s : Store) (p : Hex32)

def getAttendee : Option AttendeeRow := s.rows.find? (·.pubkey = p)

def approvedAttendees : List AttendeeRow := s.rows.filter (·.status = .approved)

def approvedAttendeeCount : Nat := s.approvedAttendees.length

def pendingAttendeeCount : Nat := (s.rows.filter (·.status = .pending)).length

/-- `upsertAttendee`. -/
def upsertAttendee (status : Status) (role : Option RosterRole) : Store :=
  { s with
    rows := put p (.upsert p status role) s.rows
    distinct := put_distinct (f := .upsert p status role) (fun _ => rfl) s.distinct }

/-- `purgeAttendeeArtifacts`. -/
def purgeAttendee : Store where
  rows := s.rows.filter (·.pubkey ≠ p)
  revocations := s.revocations
  contents := s.contents
  distinct := s.distinct.sublist (List.filter_sublist.map _)

end Store

/-! ## The roster -/

namespace Contents

/-- The entry of an account. -/
def entry (c : Contents) (p : Hex32) (role : RosterRole) : RosterAttendee :=
  let chatKeys := (c.chatKeys p).take maxChatKeysPerAccount
  { pubkey := p.val, d := c.blindedD p, role, chatKeys := if chatKeys.length > 0 then some chatKeys else none }

def rosterOf (c : Contents) (attendees : List RosterAttendee) : RosterContent :=
  { v := protocolVersion, eckCurrent := c.eckCurrent, nostrGroupId := c.nostrGroupId, attendees }

end Contents

/-- The entries of the approved rows. -/
def entries (s : Store) : List RosterAttendee := s.approvedAttendees.map fun row => s.contents.entry row.pubkey row.role

def buildRosterContent (s : Store) (alsoInclude : Option Hex32) : RosterContent :=
  s.contents.rosterOf <| entries s ++
    match alsoInclude with
    | some p => if s.approvedAttendees.any (·.pubkey = p) then [] else [s.contents.entry p .attendee]
    | none => []

/-- Whether a roster is within both caps. -/
def fits (r : RosterContent) : Bool := r.attendees.length ≤ maxRoster && rosterPageCount r ≤ maxRosterPages

/-- `rosterCapacity(state, adding).fits`, which `admitToRoster` goes by. -/
def rosterCapacity (s : Store) (adding : Hex32) : Bool := fits (buildRosterContent s (some adding))

/-! ## Handlers -/

/-- A join, and the event's approval mode. -/
structure Join where
  pubkey : Hex32
  approval : Approval
  /-- It carries an invite or a membership proof. -/
  proof : Bool
  /-- It is stale next to a completed membership command. -/
  stale : Bool
  /-- `stalePendingPubkeys`, should the queue be full. -/
  idle : List Hex32

inductive Pc
  /-- A join, for the member's lock. -/
  | join (j : Join)
  /-- For the entitlement; with the row's status at the start, and whether the queue was full. -/
  | entitlement (j : Join) (existing : Option Status) (queueFull : Bool)
  /-- `await this.admitToRoster(...)` of a join that fits; with the roster probed. -/
  | joinAdmitted (j : Join) (probed : RosterContent)
  /-- The same of one that does not. -/
  | joinRefused (j : Join) (existing : Option Status) (queueFull : Bool)
  /-- An organizer's approve, for the member's lock. -/
  | approve (p : Hex32)
  /-- `await this.admitToRoster(...)` of an approve that fits. -/
  | approveAdmitted (p : Hex32) (probed : RosterContent)
  /-- The publishes of `grantAndPublish`, or of a refusal. -/
  | tail (p : Hex32)
  /-- `bootstrapHandover`, for the directory entry of a member. -/
  | seeding (p : Hex32) (role : RosterRole) (rest : List (Hex32 × RosterRole))

inductive Effect
  /-- `upsertAttendee` with status pending. -/
  | enrolled (p : Hex32)
  /-- `upsertAttendee` with status approved. -/
  | approved (p : Hex32) (role : Option RosterRole)
  | purged (p : Hex32)
  /-- `clearRevocation`. -/
  | lifted (p : Hex32)

def Store.apply (s : Store) : Effect → Store
  | .enrolled p => s.upsertAttendee p .pending none
  | .approved p role => s.upsertAttendee p .approved role
  | .purged p => s.purgeAttendee p
  | .lifted p => { s with revocations := Function.update s.revocations p false }

/-- What a task does: its effects, and where it waits next. -/
abbrev Result := List Effect × Option Pc

/-- What a task is told: whether the entitlement holds, and whether the event is
the one it was. -/
structure Answer where
  entitled : Bool
  live : Bool

/-- `pendingQueueFull`: the requests evicted, and whether the queue is still full. -/
def pendingQueueFull (s : Store) (idle : List Hex32) : List Effect × Bool :=
  if s.pendingAttendeeCount < maxPendingJoinsPerEvent then ([], false)
  else
    let evicted := idle.filter fun p => s.rows.any fun row => row.pubkey = p && row.status = .pending
    let left := s.rows.filter fun row => row.status = .pending && !evicted.contains row.pubkey
    (evicted.map .purged, maxPendingJoinsPerEvent ≤ left.length)

/-- `handleJoinLocked`, up to its first await. -/
def handleJoin (s : Store) (j : Join) : Result :=
  let existing := (s.getAttendee j.pubkey).map (·.status)
  if s.revocations j.pubkey then ([], none)
  else if existing = some .approved then ([], some (.tail j.pubkey))
  else if j.stale ∧ (existing = some .revoked ∨ existing = none) then ([], none)
  else if existing = none ∧ maxAttendeesPerEvent ≤ s.approvedAttendeeCount then ([], none)
  else
    let (evictions, queueFull) := if existing.isSome then ([], false) else pendingQueueFull s j.idle
    if j.approval = .invite ∧ !j.proof then (evictions, none)
    else
      (evictions ++ (if queueFull then [] else [.enrolled j.pubkey]), some (.entitlement j existing queueFull))

/-- The end of a join without a place: the row it has stays. -/
def finishPending (s : Store) (j : Join) (queueFull : Bool) : Result :=
  if (s.getAttendee j.pubkey).isSome ∨ queueFull then ([], none) else ([.enrolled j.pubkey], none)

/-- A join goes on with what its entitlement says. -/
def decide_ (s : Store) (j : Join) (existing : Option Status) (queueFull : Bool) (a : Answer) : Result :=
  let grant := a.entitled || (j.approval = .open && existing ≠ some .revoked)
  if grant then
    if rosterCapacity s j.pubkey then ([], some (.joinAdmitted j (buildRosterContent s (some j.pubkey))))
    else ([], some (.joinRefused j existing queueFull))
  else if !a.live then ([], none)
  else if j.approval = .invite then (if existing = none then [.purged j.pubkey] else [], none)
  else finishPending s j queueFull

/-- `approve` of `handleAdmin`, up to its first await. -/
def handleApprove (s : Store) (p : Hex32) : Result :=
  let existing := (s.getAttendee p).map (·.status)
  if existing = some .approved then ([.lifted p], some (.tail p))
  else if existing = none ∧ maxAttendeesPerEvent ≤ s.approvedAttendeeCount then ([], none)
  else
    let enrolment : List Effect := if existing = none then [.enrolled p] else []
    if rosterCapacity s p then (enrolment, some (.approveAdmitted p (buildRosterContent s (some p))))
    else (enrolment, some (.tail p))

/-- The loop of `bootstrapHandover`, up to the next member it fetches an entry of. -/
def seed (s : Store) : List (Hex32 × RosterRole) → Option Pc
  | [] => none
  | (p, role) :: rest =>
    if (s.getAttendee p).map (·.status) = some .approved then seed s rest
    else if s.revocations p then seed s rest
    else if maxAttendeesPerEvent ≤ s.approvedAttendeeCount then none
    else some (.seeding p role rest)

/-- A task goes on; `a` is what it is told. -/
def settle (s : Store) (pc : Pc) (a : Answer) : Result :=
  match pc with
  | .join j => handleJoin s j
  | .entitlement j existing queueFull => decide_ s j existing queueFull a
  | .joinAdmitted j _ => if a.live then ([.approved j.pubkey none], some (.tail j.pubkey)) else ([], none)
  | .joinRefused j _ queueFull =>
    if j.approval = .manual ∨ !a.live then ([], none) else finishPending s j queueFull
  | .approve p => handleApprove s p
  | .approveAdmitted p _ => ([.lifted p, .approved p none], some (.tail p))
  | .tail _ => ([], none)
  | .seeding p role rest => ([.approved p (some role)], seed (s.apply (.approved p (some role))) rest)

/-! ## Acts -/

/-- The lock of each member. -/
def rules : Rules Nat Hex32 Store Effect Pc where
  apply := Store.apply
  held
    | _, .entitlement j _ _ | _, .joinAdmitted j _ | _, .joinRefused j _ _ => some j.pubkey
    | _, .approveAdmitted p _ | _, .tail p => some p
    | _, _ => none
  wanted
    | _, .join j => some j.pubkey
    | _, .approve p => some p
    | _, _ => none

/-- The store, and the tasks under way. -/
abbrev World := Tasks.World Nat Hex32 Store Pc

inductive Act
  | join (k : Nat) (j : Join)
  /-- The organizer approves a member. -/
  | approve (k : Nat) (p : Hex32)
  /-- `bootstrapHandover` has read a roster. -/
  | handover (k : Nat) (members : List (Hex32 × RosterRole))
  /-- A task goes on. -/
  | settle (k : Nat) (a : Answer)
  /-- A revoke or a withdrawal takes the row's approval. -/
  | leave (p : Hex32) (tombstone : Bool)
  /-- A withdrawal erases the row. -/
  | erase (p : Hex32)
  /-- Other handlers change what the roster says of its members. -/
  | rewrite (c : Contents)
  /-- The process ends while every task waits. -/
  | crash
  /-- The process ends after some effects of a task that went on. -/
  | crashDuring (k : Nat) (a : Answer) (n : Nat)

/-- What a task does next, where its lock is free. -/
def result (w : World) (k : Nat) (a : Answer) : Option Result :=
  (w.tasks k).bind fun pc => if rules.ready w k pc then some (settle w.store pc a) else none

/-- A task begins, where none has its name. -/
def begin_ (w : World) (k : Nat) (pc : Pc) : Option World := if (w.tasks k).isSome then none else some (w.spawn k pc)

/-- What one act makes of the world; `none` where it cannot happen. -/
def act (w : World) : Act → Option World
  | .join k j => begin_ w k (.join j)
  | .approve k p => begin_ w k (.approve p)
  | .handover k members =>
    match seed w.store members with
    | some pc => begin_ w k pc
    | none => some w
  | .settle k a => (result w k a).map fun r => rules.advance w k r.1 r.2
  | .leave p tombstone =>
    if (w.store.getAttendee p).isSome then
      some { w with store := { w.store.upsertAttendee p .revoked none with
        revocations := Function.update w.store.revocations p (tombstone || w.store.revocations p) } }
    else none
  | .erase p => some { w with store := w.store.purgeAttendee p }
  | .rewrite c => some { w with store := { w.store with contents := c } }
  | .crash => some (.fresh w.store)
  | .crashDuring k a n => (result w k a).map fun r => .fresh (rules.run w.store (r.1.take n))

def Step (w : World) (x : Act) (w' : World) : Prop := act w x = some w'

end Nostrautica.Capacity
