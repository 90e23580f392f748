/-
The scan for key grants: `receiveGrants` of `app/src/lib/events/attendee.ts`, with its memo of the gift wraps that
it has processed, over the event keys of one account.

A wrap is known by its id. What the relays' read returned, what the signer and the budget did, and the 31600s
that could be read are a scan's own. What opens a wrap, what parses what is in it and what derives a public key
are parameters. The proofs of a community, the status notices and the mark of a full backfill are left out.
-/
import Nostrautica.App.Keystore
import Nostrautica.Protocol.Coordinate
import Nostrautica.Transition.Run

namespace Nostrautica.Grants

open Js Keystore

variable {W K : Type} [DecidableEq W] [DecidableEq K]

/-- What the scan reads of a 31600. -/
structure Config where
  inbox : JsString
  coordinator : Option JsString := none
  deriving DecidableEq

/-- The content of a 21605. -/
structure OrganizerGrantContent (K : Type) where
  a : JsString
  granted_by : JsString
  eid_nsec : JsString
  einbox_nsec : JsString
  eck : List (Membership.EckVersion K)
  prior_einbox_nsecs : List JsString := []
  organizers : List JsString := []

/-- The content of a 21602. -/
structure KeyGrantContent (K : Type) where
  a : JsString
  role : Membership.Role
  eck : List (Membership.EckVersion K)
  granted_by : JsString

/-- What parsing a rumor's content gives. -/
inductive Parsed (α : Type)
  | invalid
  /-- It does not parse, and is of a newer version of the protocol. -/
  | newer
  | ok (content : α)

/-- A rumor, by its kind, with its author. -/
inductive Rumor (K : Type)
  | organizerGrant (pubkey : JsString) (content : Parsed (OrganizerGrantContent K))
  | keyGrant (pubkey : JsString) (content : Parsed (KeyGrantContent K))
  | other

/-- `signerUnwrap` where the signer answers, `getPublicKey`, and the order of two keys of one version. -/
structure Deps (W K : Type) where
  unwrap : W → Option (Rumor K)
  /-- The wrap names the account in its `p` tags. -/
  addressed : W → Bool
  getPublicKey : JsString → Option JsString
  fingerprint : K → Nat
  owner : JsString

def isEventCoordinate (coordinate : JsString) : Bool := isValidChildCoordinate coordinate || isValidParentCoordinate coordinate

/-- The key that a coordinate is of. -/
def pubkeyOf (coordinate : JsString) : Option JsString :=
  match parseCoordinate coordinate with
  | .ok coord => some coord.pubkey
  | .error _ => none

variable (d : Deps W K)

/-- `authenticateOrganizerGrant(rumor, grant, config)`. -/
def authenticateOrganizerGrant (author : JsString) (grant : OrganizerGrantContent K) (config : Option Config) : Bool :=
  match pubkeyOf grant.a with
  | none => false
  | some eid =>
    isEventCoordinate grant.a && author == eid && grant.granted_by == author && d.getPublicKey grant.eid_nsec == some eid &&
      match d.getPublicKey grant.einbox_nsec with
      | none => false
      | some einboxPk => config.all (·.inbox == einboxPk)

/-- `authenticateKeyGrant(rumor, grant, config)`. -/
def authenticateKeyGrant (author : JsString) (grant : KeyGrantContent K) (config : Option Config) : Bool :=
  match pubkeyOf grant.a, config with
  | some eid, some config =>
    isEventCoordinate grant.a && (author == eid || config.coordinator == some author) && grant.granted_by == author
  | _, _ => false

/-- `sealerOnlyMismatch(rumor, grant)`. -/
def sealerOnlyMismatch (author : JsString) (grant : KeyGrantContent K) : Bool :=
  isEventCoordinate grant.a && grant.granted_by == author && (pubkeyOf grant.a).any (· ≠ author)

/-! ## The memo -/

/-- `GrantMemoEntry`. -/
inductive MemoEntry
  /-- `true`. -/
  | done
  | accepted (coordinate : JsString) (versions : List Nat) (organizer : Bool)
  /-- With `staleConfigAt`. -/
  | stale (coordinate : JsString) (staleConfigAt : Int)
  deriving DecidableEq

def maxGrantWraps : Nat := 5000

/-- `grantMemoSatisfied(entry, held)`. -/
def grantMemoSatisfied (held : JsString → Option (EventKeys K)) : Option MemoEntry → Bool
  | some .done => true
  | some (.accepted coordinate versions organizer) =>
    (held coordinate).any fun keys => versions.all (fun id => keys.eck.any (·.id == id)) &&
      (!organizer || keys.role == .organizer && keys.eidNsecHex.isSome && keys.einboxNsecHex.isSome)
  | some (.stale coordinate _) => (held coordinate).isSome
  | none => false

/-- The newest entries of a memo, as many as are kept. -/
def evict (memo : List (W × MemoEntry)) : List (W × MemoEntry) := sliceLast maxGrantWraps memo

/-! ## The scan -/

/-- What a scan meets. -/
structure Scan (W : Type) where
  /-- The wraps that were read, each once. -/
  wraps : List W
  nodup : wraps.Nodup
  /-- The keystore can be listed. -/
  lists : Bool := true
  /-- The session is another one when the wrap comes up. -/
  moved : W → Bool := fun _ => false
  /-- The session is another one when its grant is to be filed. -/
  movedLate : W → Bool := fun _ => false
  /-- `budget.take()`. -/
  takes : W → Bool := fun _ => true
  /-- The signer answers. -/
  answers : W → Bool := fun _ => true
  /-- `signedConfigFor(coordinate)`: a 31600 and its `created_at`. -/
  config : JsString → Option (Config × Int)
  /-- The memo is written back. -/
  keeps : Bool := true

/-- The keystore and the memo, with what has become of the scan. -/
structure Pass (W K : Type) where
  keys : JsString → Option (EventKeys K)
  memo : List (W × MemoEntry)
  truncated : Bool := false
  failed : Bool := false

/-- The wrap is passed over, on what the memo has of it. -/
def skips (s : Scan W) (held : JsString → Option (EventKeys K)) : Option MemoEntry → Bool
  | some (.stale coordinate judgedAt) =>
    match s.config coordinate with
    | none => true
    | some (_, createdAt) => createdAt ≤ judgedAt
  | entry => grantMemoSatisfied held entry

def Pass.note (p : Pass W K) (wrap : W) (entry : MemoEntry) : Pass W K := { p with memo := put wrap entry p.memo }

/-- What is done with a rumor, and whether the scan goes on. -/
def Pass.process (s : Scan W) (p : Pass W K) (wrap : W) : Rumor K → Pass W K × Bool
  | .other => (p.note wrap .done, true)
  | .organizerGrant _ .invalid => (p.note wrap .done, true)
  | .organizerGrant _ .newer => (p, true)
  | .organizerGrant author (.ok grant) =>
    if authenticateOrganizerGrant d author grant ((s.config grant.a).map (·.1)) = false then (p.note wrap .done, true)
    else if s.movedLate wrap then ({ p with truncated := true }, false)
    else
      let saved := applyOrganizerGrant d.fingerprint (p.keys grant.a)
        ⟨grant.eck, grant.eid_nsec, grant.einbox_nsec, grant.prior_einbox_nsecs, grant.organizers⟩ d.owner
      (Pass.note { p with keys := Function.update p.keys grant.a (some saved) } wrap (.accepted grant.a (grant.eck.map (·.id)) true), true)
  | .keyGrant _ .invalid => (p.note wrap .done, true)
  | .keyGrant _ .newer => (p, true)
  | .keyGrant author (.ok grant) =>
    match s.config grant.a with
    | none => (p, true)
    | some (config, createdAt) =>
      if authenticateKeyGrant author grant (some config) = false then
        (p.note wrap (if sealerOnlyMismatch author grant then .stale grant.a createdAt else .done), true)
      else if s.movedLate wrap then ({ p with truncated := true }, false)
      else
        let saved := addEckVersions d.fingerprint (p.keys grant.a) grant.eck grant.role
        (Pass.note { p with keys := Function.update p.keys grant.a (some saved) } wrap (.accepted grant.a (grant.eck.map (·.id)) false), true)

/-- What is done with a wrap, and whether the scan goes on. -/
def Pass.consider (s : Scan W) (held : JsString → Option (EventKeys K)) (p : Pass W K) (wrap : W) : Pass W K × Bool :=
  if s.moved wrap then ({ p with truncated := true }, false)
  else if d.addressed wrap = false then (p, true)
  else if skips s held (look wrap p.memo) then (p, true)
  else if s.takes wrap = false then ({ p with truncated := true }, false)
  else
    match (if s.answers wrap then d.unwrap wrap else none) with
    | none => ({ p with failed := true }, true)
    | some rumor => p.process d s wrap rumor

def Pass.over (s : Scan W) (held : JsString → Option (EventKeys K)) : List W → Pass W K → Pass W K
  | [], p => p
  | wrap :: wraps, p =>
    let next := p.consider d s held wrap
    if next.2 then Pass.over s held wraps next.1 else next.1

/-- The keystore and the memo of one account. -/
structure World (W K : Type) where
  keys : JsString → Option (EventKeys K) := fun _ => none
  memo : List (W × MemoEntry) := []

variable (w : World W K)

/-- `listEventKeys(pubkey)` as a scan begins. -/
def World.held (s : Scan W) : JsString → Option (EventKeys K) := if s.lists then w.keys else fun _ => none

/-- `receiveGrants(...)`, up to the writing of the memo. -/
def World.pass (s : Scan W) : Pass W K := Pass.over d s (w.held s) s.wraps ⟨w.keys, w.memo, false, false⟩

inductive Act (W K : Type)
  | scan (s : Scan W)
  /-- The keystore is lost, or another one. -/
  | replaced (keys : JsString → Option (EventKeys K))
  /-- The cache is lost. -/
  | forgotten

def act : Act W K → World W K
  | .scan s =>
    let p := w.pass d s
    { keys := p.keys, memo := if s.keeps then evict p.memo else w.memo }
  | .replaced keys => { w with keys := keys }
  | .forgotten => { w with memo := [] }

def Step (w : World W K) (x : Act W K) (w' : World W K) : Prop := act d w x = w'

end Nostrautica.Grants
