/-
The event keys of one account on a device, for one coordinate: `app/src/lib/events/keystore.ts`,
the restore of `recover.ts` and the union of backups of `protocol/src/keys-backup.ts`.

A list or number that the source leaves out when empty is empty here. A locked snapshot is the
record that its ciphertext decrypts to.
-/
import Nostrautica.Coordinator.Members
import Nostrautica.Js.Text

namespace Nostrautica.Keystore

open Js Nostrautica.Membership

variable {K : Type} [DecidableEq K] (fingerprint : K → Nat)

/-- `EventKeys`, but for the coordinate. -/
structure EventKeys (K : Type) where
  role : Role
  eck : List (EckVersion K)
  eidNsecHex : Option JsString := none
  einboxNsecHex : Option JsString := none
  priorEinboxNsecs : List JsString := []
  coordinatorGen : Nat := 0
  pendingEck : List (EckVersion K) := []
  coOrganizers : List JsString := []
  revoked : List JsString := []
  deriving DecidableEq

/-- What `applyOrganizerGrant` takes. -/
structure OrganizerGrant (K : Type) where
  eck : List (EckVersion K)
  eidNsecHex : JsString
  einboxNsecHex : JsString
  priorEinboxNsecs : List JsString := []
  organizers : List JsString := []

/-- `EventKeysBackup`, but for the coordinate. -/
structure EventKeysBackup (K : Type) where
  eid_nsec : JsString
  einbox_nsec : JsString
  eck : List (EckVersion K)
  coordinator_gen : Nat := 0
  pending_eck : List (EckVersion K) := []
  prior_einbox_nsecs : List JsString := []
  co_organizers : List JsString := []
  revoked : List JsString := []

def maxPriorInboxes : Nat := 64

def maxOrganizers : Nat := 32

def maxRevoked : Nat := 500

/-- `l.slice(-n)`, of a positive `n`. -/
def sliceLast {α : Type} (n : Nat) (l : List α) : List α := l.drop (l.length - n)

/-- The staged versions of two copies, but for those that are current. -/
def unionPending (current held incoming : List (EckVersion K)) : List (EckVersion K) :=
  (unionEck fingerprint held incoming).filter (· ∉ current)

/-! ## The writers -/

/-- `loadEventKeys(coordinate)`, or a record with nothing in it. -/
def existing (live : Option (EventKeys K)) (role : Role) : EventKeys K := live.getD { role := role, eck := [] }

/-- `addEckVersions(coordinate, versions, role)`: the record it saves. -/
def addEckVersions (live : Option (EventKeys K)) (versions : List (EckVersion K)) (role : Role) : EventKeys K :=
  let existing := existing live role
  { existing with eck := unionEck fingerprint existing.eck versions }

/-- `applyOrganizerGrant(coordinate, grant, owner)`. -/
def applyOrganizerGrant (live : Option (EventKeys K)) (grant : OrganizerGrant K) (owner : JsString) : EventKeys K :=
  let existing := existing live .organizer
  { existing with
    eck := unionEck fingerprint existing.eck grant.eck
    role := .organizer
    eidNsecHex := some grant.eidNsecHex
    einboxNsecHex := some grant.einboxNsecHex
    priorEinboxNsecs :=
      (existing.priorEinboxNsecs ++ grant.priorEinboxNsecs ++ existing.einboxNsecHex.toList).eraseDups.filter
        (· ≠ grant.einboxNsecHex)
    coOrganizers := (existing.coOrganizers ++ grant.organizers).eraseDups.filter (· ≠ owner) }

/-- `adoptConfigInbox(coordinate, configInbox, inboxPubkeyOf)`: the record it saves, where it
changes something. -/
def adoptConfigInbox (live : Option (EventKeys K)) (configInbox : JsString) (inboxPubkeyOf : JsString → JsString) :
    Option (EventKeys K) := do
  let keys ← live
  let current ← keys.einboxNsecHex
  if inboxPubkeyOf current = configInbox then none
  else
    let found ← keys.priorEinboxNsecs.find? (inboxPubkeyOf · = configInbox)
    some { keys with
      priorEinboxNsecs := keys.priorEinboxNsecs.filter (· ≠ found) ++ [current]
      einboxNsecHex := some found }

/-- `mergeEventKeys(primary, fallback)`. -/
def mergeEventKeys (primary fallback : EventKeys K) : EventKeys K :=
  let current := unionEck fingerprint primary.eck fallback.eck
  { role := if primary.role = .organizer ∨ fallback.role = .organizer then .organizer else primary.role
    eck := current
    eidNsecHex := primary.eidNsecHex.or fallback.eidNsecHex
    einboxNsecHex := primary.einboxNsecHex.or fallback.einboxNsecHex
    priorEinboxNsecs := (primary.priorEinboxNsecs ++ fallback.priorEinboxNsecs).eraseDups
    coordinatorGen := max primary.coordinatorGen fallback.coordinatorGen
    pendingEck := unionPending fingerprint current primary.pendingEck fallback.pendingEck
    coOrganizers := (primary.coOrganizers ++ fallback.coOrganizers).eraseDups
    revoked := (fallback.revoked ++ primary.revoked).eraseDups }

/-- The inboxes of two copies of a backup, the current ones first. -/
def inboxes (a b : EventKeysBackup K) : List JsString :=
  ([a.einbox_nsec, b.einbox_nsec] ++ a.prior_einbox_nsecs ++ b.prior_einbox_nsecs).eraseDups

/-- `mergeEventKeysBackups(a, b, { configInbox })`. -/
def mergeEventKeysBackups (inboxPubkey : JsString → Option JsString) (a b : EventKeysBackup K)
    (configInbox : Option JsString) : EventKeysBackup K :=
  let eck := unionEck fingerprint a.eck b.eck
  let named := configInbox.bind fun inbox => (inboxes a b).find? (inboxPubkey · = some inbox)
  let current := named.getD a.einbox_nsec
  { eid_nsec := a.eid_nsec
    einbox_nsec := current
    eck := eck
    coordinator_gen := max a.coordinator_gen b.coordinator_gen
    pending_eck := unionPending fingerprint eck a.pending_eck b.pending_eck
    prior_einbox_nsecs := sliceLast maxPriorInboxes ((inboxes a b).filter (· ≠ current))
    co_organizers := ((a.co_organizers ++ b.co_organizers).eraseDups.mergeSort fun p q => !decide (q < p)).take maxOrganizers
    revoked := sliceLast maxRevoked (b.revoked ++ a.revoked).eraseDups }

/-- The record as a backup, where it has both secrets. -/
def localBackup (keys : EventKeys K) : Option (EventKeysBackup K) := do
  let eid ← keys.eidNsecHex
  let inbox ← keys.einboxNsecHex
  some
    { eid_nsec := eid
      einbox_nsec := inbox
      eck := keys.eck
      coordinator_gen := keys.coordinatorGen
      pending_eck := keys.pendingEck
      prior_einbox_nsecs := keys.priorEinboxNsecs
      co_organizers := keys.coOrganizers
      revoked := keys.revoked }

/-- `restore(coordinate, backup, owner)` of `recover.ts`: the record it saves. -/
def restore (inboxPubkey : JsString → Option JsString) (live : Option (EventKeys K)) (backup : EventKeysBackup K) : EventKeys K :=
  let merged := match live.bind localBackup with
    | some own => mergeEventKeysBackups fingerprint inboxPubkey own backup none
    | none =>
      let held := (live.map EventKeys.eck).getD []
      mergeEventKeysBackups fingerprint inboxPubkey { backup with eck := unionEck fingerprint held backup.eck } backup none
  { role := .organizer
    eck := merged.eck
    eidNsecHex := (live.bind EventKeys.eidNsecHex).or (some merged.eid_nsec)
    einboxNsecHex := some merged.einbox_nsec
    priorEinboxNsecs := merged.prior_einbox_nsecs
    coordinatorGen := merged.coordinator_gen
    pendingEck := merged.pending_eck
    coOrganizers := merged.co_organizers
    revoked := merged.revoked }

/-! ## The store -/

/-- The live record and the locked snapshot. -/
structure Store (K : Type) where
  live : Option (EventKeys K) := none
  locked : Option (EventKeys K) := none

/-- `lockEventKeysForLogout(encrypt, decrypt)`, whose `decrypt` and `encrypt` work or throw. -/
def lockEventKeysForLogout (s : Store K) (decrypts encrypts : Bool) : Store K :=
  match s.live with
  | none => s
  | some rec =>
    match s.locked with
    | none => if encrypts then { live := none, locked := some rec } else s
    | some prior =>
      if decrypts && encrypts then { live := none, locked := some (mergeEventKeys fingerprint rec prior) } else s

/-- `unlockEventKeysForLogin(decrypt)`. -/
def unlockEventKeysForLogin (s : Store K) (decrypts : Bool) : Store K :=
  match s.locked with
  | none => s
  | some restored =>
    if decrypts then
      { live := some (match s.live with
          | some existing => mergeEventKeys fingerprint existing restored
          | none => restored)
        locked := none }
    else s

inductive Act (K : Type)
  | addEckVersions (versions : List (EckVersion K)) (role : Role)
  | applyOrganizerGrant (grant : OrganizerGrant K) (owner : JsString)
  | adoptConfigInbox (configInbox : JsString)
  | restore (backup : EventKeysBackup K)
  | lock (decrypts encrypts : Bool)
  | unlock (decrypts : Bool)

/-- What derives a public key from a secret. -/
structure Deps (K : Type) where
  fingerprint : K → Nat
  inboxPubkeyOf : JsString → JsString
  inboxPubkey : JsString → Option JsString

def act (d : Deps K) (s : Store K) : Act K → Store K
  | .addEckVersions versions role => { s with live := some (addEckVersions d.fingerprint s.live versions role) }
  | .applyOrganizerGrant grant owner => { s with live := some (applyOrganizerGrant d.fingerprint s.live grant owner) }
  | .adoptConfigInbox configInbox => { s with live := (adoptConfigInbox s.live configInbox d.inboxPubkeyOf).or s.live }
  | .restore backup => { s with live := some (restore d.fingerprint d.inboxPubkey s.live backup) }
  | .lock decrypts encrypts => lockEventKeysForLogout d.fingerprint s decrypts encrypts
  | .unlock decrypts => unlockEventKeysForLogin d.fingerprint s decrypts

def Step (d : Deps K) (s : Store K) (x : Act K) (s' : Store K) : Prop := act d s x = s'

end Nostrautica.Keystore
