/-
Where a space's records live: the addresses of `protocol/src/roster.ts`, and what
`coordinator/src/coordinator.ts` publishes (`publishRoster`) and deletes
(`legacyRosterDsToDelete`) there.

`sha256` is a parameter.
-/
import Nostrautica.Js.Utf8
import Nostrautica.Protocol.Coordinate
import Nostrautica.Protocol.Roster

namespace Nostrautica.Roster

open Js

/-- The 32 bytes of a digest. -/
abbrev Digest := List.Vector UInt8 32

variable (sha256 : ByteArray → Digest)

/-- `SPACE_RECORDS_D_TAG`. -/
def spaceRecordsDTag : JsString := js "nostrautica-space-records-v2"

/-- What `spaceRecordsD` hashes. -/
def recordsText (coordinate : JsString) : ByteArray := utf8ToBytes (stringify (.arr [.str spaceRecordsDTag, .str coordinate]))

/-- `spaceRecordsD(coordinate)`. -/
def spaceRecordsD (coordinate : JsString) : JsString := bytesToHex (sha256 (recordsText coordinate)).toList

/-- `legacyRosterD(coordinate)`. -/
def legacyRosterD (coordinate : JsString) : Except JsString JsString := (parseCoordinate coordinate).map (·.identifier)

/-- `legacyRosterDCollidesWithDerived(identifier)`: `/^[0-9a-f]{64}(:|$)/`. -/
def legacyRosterDCollidesWithDerived (identifier : JsString) : Bool :=
  isLowerHex 64 (identifier.take 64) && (identifier.drop 64).head?.all (·.val = 58)

/-- `isRosterPageFor(coordinate, ds, tags)`. -/
def isRosterPageFor (coordinate : JsString) (ds : List JsString) (tags : Option (List (List JsString))) : Bool :=
  match tags with
  | none => false
  | some tags =>
    match (tags.find? (·[0]? = some (js "d"))).bind (·[1]?) with
    | none => false
    | some d =>
      ds.contains d &&
        match (tags.find? (·[0]? = some (js "a"))).bind (·[1]?) with
        | none => true
        | some a => a = coordinate

/-- `rosterPageD(base, page)`. -/
def rosterPageD (base : JsString) (page : Nat) : JsString := if page = 0 then base else base ++ js ":" ++ natToString page

/-- `rosterPageDs(base, pages)`. -/
def rosterPageDs (base : JsString) (pages : Nat) : List JsString :=
  (List.range (min maxRosterPages (max 1 pages))).map (rosterPageD base)

/-- `rosterContinuationDs(base, pages)` of an integer: `Math.max(1, pages)` of a negative one is that of 0. -/
def rosterContinuationDs (base : JsString) (pages : Int) : List JsString := (rosterPageDs base pages.toNat).tail

/-! ## Records -/

/-- `RosterAddressing`. -/
inductive RosterAddressing
  | derived
  | legacy
  deriving DecidableEq

/-- A 31604 as it is built: its address and tags, and the page before encryption. -/
structure RosterEvent where
  d : JsString
  tags : List (List JsString)
  page : RosterContent

/-- The key a record is encrypted under: its version and its fingerprint. -/
structure EckTag where
  eckId : Int
  fingerprint : JsString

/-- `buildRoster(keys, coordinate, roster, createdAt, page, addressing)`. -/
def buildRoster (keys : EckTag) (coordinate : JsString) (roster : RosterContent) (page : Nat) (addressing : RosterAddressing) :
    Except JsString RosterEvent := do
  let base ← match addressing with
    | .derived => .ok (spaceRecordsD sha256 coordinate)
    | .legacy => legacyRosterD coordinate
  let d := rosterPageD base page
  return {
    d
    tags := [[js "d", d], [js "a", coordinate], [js "eck", intToString keys.eckId, keys.fingerprint], [js "v", js "2"]]
    page := roster }

/-- `PUBLISH_LEGACY_ROSTER_ALIAS`. -/
def publishLegacyRosterAlias : Bool := true

/-- `publishesLegacyRosterAlias(identifier)`. -/
def publishesLegacyRosterAlias (identifier : JsString) : Bool :=
  publishLegacyRosterAlias && !legacyRosterDCollidesWithDerived identifier

/-- `publishRoster`: the records it builds of the pages that changed since `published`,
in order, with how each is addressed. A build that throws is its last. -/
def publishRoster (keys : EckTag) (coordinate identifier : JsString) (pages : List RosterContent)
    (published : Nat → Option JsString) : List (RosterAddressing × Except JsString RosterEvent) :=
  let changed := pages.zipIdx.filter fun (page, i) => published i ≠ some (stringify page.toJson)
  let addressings := if publishesLegacyRosterAlias identifier then [.derived, .legacy] else [.derived]
  changed.flatMap fun (page, i) => addressings.map fun a => (a, buildRoster sha256 keys coordinate page i a)

/-- What the loop over the live events adds for one of them. -/
def legacyRosterDs (coordinate : JsString) : List JsString :=
  match legacyRosterD coordinate with
  | .ok identifier => rosterPageDs identifier maxRosterPages
  | .error _ => []

/-- `legacyRosterDsToDelete(state)`, with `liveEventCoordinates()`. -/
def legacyRosterDsToDelete (coordinate identifier : JsString) (live : List JsString) : List JsString :=
  if legacyRosterDCollidesWithDerived identifier then []
  else
    let others := (live.filter (· ≠ coordinate)).flatMap legacyRosterDs
    (rosterPageDs identifier maxRosterPages).filter fun d => !others.contains d

/-- `parseEventCoordinate(coordinate)`, where it does not throw. -/
def parseEventCoordinate (coordinate : JsString) : Option EventCoordinate :=
  (parseCoordinate coordinate).toOption.filter fun parsed => spaceKinds.contains parsed.kind

end Nostrautica.Roster
