/-
The key rotations of an organizer's device: `revokeAttendeeClient`, `rotateEckAndInbox` and
`repairEventKeys` of `app/src/lib/events/organizer.ts`, one after the other, each publish accepted
or queued and a crash possible at every await.

What was handed to a publisher may reach the relays at any time after. The directory entries and
the grants of a rotation are handed over with its roster pages, which alone are kept here. The
relays keep what they took, and a reader picks the latest.
-/
import Nostrautica.App.ClientRoster
import Nostrautica.Transition.Run

namespace Nostrautica.ClientRoster

open Js Roster Keystore Nostrautica.Membership

variable {K T C : Type} [DecidableEq K] [DecidableEq T] [DecidableEq C]

inductive Rotation
  /-- `revokeAttendeeClient(organizer, ctx, removedPubkey)`. -/
  | revoke (removed : JsString)
  /-- `rotateEckAndInbox(organizer, ctx, keys)`, with the inbox that it makes. -/
  | rotate (newInbox : JsString)
  /-- `repairEventKeys(organizer, ctx)`. -/
  | repair

/-- Who is on the roster that is built. -/
def Rotation.attendees (rotation : Rotation) (roster : RosterContent) : List RosterAttendee :=
  match rotation with
  | revoke removed => roster.attendees.filter (·.pubkey ≠ removed)
  | _ => roster.attendees

/-- A revoke refuses where the roster that was read does not list its attendee. -/
def Rotation.admits (rotation : Rotation) (roster : RosterContent) : Bool :=
  match rotation with
  | revoke removed => roster.attendees.any (·.pubkey = removed)
  | _ => true

/-- `opts.keepChatKeys`. -/
def Rotation.keepChatKeys : Rotation → Bool
  | revoke _ => false
  | _ => true

/-- What is recorded beside the new version. -/
def Rotation.record (rotation : Rotation) (keys : EventKeys K) : EventKeys K :=
  match rotation with
  | revoke removed => { keys with revoked := sliceLast maxRevoked (keys.revoked.filter (· ≠ removed) ++ [removed]) }
  | rotate newInbox =>
    { keys with
      priorEinboxNsecs := keys.priorEinboxNsecs ++ keys.einboxNsecHex.toList
      einboxNsecHex := some newInbox }
  | repair => keys

/-- Whether the new version becomes current on a publish with this outcome. -/
def Rotation.promotes (rotation : Rotation) (published : Bool) : Bool :=
  match rotation with
  | revoke _ => published
  | _ => true

/-- A version, and the roster pages built under it. -/
structure Rekeying (K C : Type) where
  version : EckVersion K
  events : List (PageEvent C)

/-- Where an operation waits; `keys` is its copy of the record. -/
inductive Op (K C : Type)
  /-- For `loadRoster`. -/
  | reading (rotation : Rotation) (keys : EventKeys K)
  /-- For `rekeyRoster`, which reads the directory. -/
  | rekeying (rotation : Rotation) (keys : EventKeys K) (roster : RosterContent) (stamp : Int) (new : EckVersion K)
  /-- For `stageEck` to return, or for the backup. -/
  | staged (rotation : Rotation) (keys : EventKeys K) (rekeying : Rekeying K C)
  /-- For `publishRekeyed`. -/
  | publishing (rotation : Rotation) (keys : EventKeys K) (rekeying : Rekeying K C)

structure Device (K C : Type) where
  /-- The record on disk. -/
  keys : EventKeys K
  relays : List (PageEvent C)
  op : Option (Op K C) := none
  /-- The versions that were staged. -/
  minted : List (EckVersion K) := []
  /-- What was handed to a publisher. -/
  handed : List (Rekeying K C) := []
  /-- The versions under which a roster was read. -/
  read : List (EckVersion K) := []
  /-- The versions that became current on a publish that was queued. -/
  unconfirmed : List (EckVersion K) := []

inductive Act (K : Type)
  | start (rotation : Rotation)
  /-- The roster is read; `key` is what `generateEck` returns. -/
  | read (hasSeen : Bool) (key : K)
  | stage (now : Int) (ids : Nat → JsString)
  | hand
  /-- A relay takes a page that was handed over. -/
  | accept (rekeying page : Nat)
  | settle (published : Bool)
  | crash

/-- The version that a read shows to be in use. -/
def RosterRead.used : RosterRead K → Option (EckVersion K)
  | ok _ _ eck => some eck
  | _ => none

/-- The record after a read. -/
def afterRead (d : Deps K T C) (keys : EventKeys K) (result : RosterRead K) : EventKeys K :=
  (result.used.map (promotePending d keys)).getD keys

/-- Where an operation goes from its read. -/
def Rotation.mint (d : Deps K T C) (rotation : Rotation) (keys : EventKeys K) (result : RosterRead K) (key : K) : Option (Op K C) :=
  let prev := (result.used.or (canonicalEck d.fingerprint keys.eck)).map (·.id)
  match rosterForRewrite result (prev.getD 0) with
  | none => none
  | some (roster, stamp) => if rotation.admits roster then some (.rekeying rotation keys roster stamp (mintEck d keys key)) else none

def act (d : Deps K T C) (c : Context) (s : Device K C) : Act K → Option (Device K C)
  | .start rotation => if s.op.isSome ∨ s.keys.eck = [] then none else some { s with op := some (.reading rotation s.keys) }
  | .read hasSeen key =>
    match s.op with
    | some (.reading rotation keys) =>
      let result := loadRoster d c s.relays keys.eck keys.pendingEck hasSeen
      let keys := afterRead d keys result
      some { s with keys := keys, read := s.read ++ result.used.toList, op := rotation.mint d keys result key }
    | _ => none
  | .stage now ids =>
    match s.op with
    | some (.rekeying rotation keys roster stamp new) =>
      match buildRosterEvents d c new (rekeyed d new rotation.keepChatKeys (rotation.attendees roster)) stamp none now ids with
      | .ok events =>
        let keys := stageEck d (rotation.record keys) new
        some { s with keys := keys, minted := s.minted ++ [new], op := some (.staged rotation keys ⟨new, events⟩) }
      | .error _ => some { s with op := none }
    | _ => none
  | .hand =>
    match s.op with
    | some (.staged rotation keys rekeying) =>
      some { s with handed := s.handed ++ [rekeying], op := some (.publishing rotation keys rekeying) }
    | _ => none
  | .accept rekeying page => (s.handed[rekeying]?.bind (·.events[page]?)).map fun e => { s with relays := s.relays ++ [e] }
  | .settle published =>
    match s.op with
    | some (.publishing rotation keys rekeying) =>
      -- a publish resolves as accepted once a relay has every page
      if published ∧ ∃ e ∈ rekeying.events, e ∉ s.relays then none
      else some { s with
        keys := if rotation.promotes published then promotePending d keys rekeying.version else s.keys
        unconfirmed := if rotation.promotes published && !published then s.unconfirmed ++ [rekeying.version] else s.unconfirmed
        op := none }
    | _ => none
  | .crash => some { s with op := none }

def Step (d : Deps K T C) (c : Context) (s : Device K C) (a : Act K) (s' : Device K C) : Prop := act d c s a = some s'

end Nostrautica.ClientRoster
