/-
`protocol/src/roster.ts`: the roster's pages, and the schema each page has to
pass.

Sizes are those of the serialized payload. Absent optional fields are `none`;
`external` is `true` or absent.
-/
import Nostrautica.Js.Json
import Nostrautica.Protocol.Schemas

namespace Nostrautica.Roster

open Js

/-- `NIP44_MAX_PLAINTEXT_BYTES`. -/
def nip44MaxPlaintextBytes : Nat := 65535

/-- `ROSTER_PAGE_TARGET_BYTES`: what a page is packed to. -/
def rosterPageTargetBytes : Nat := 60000

structure RosterChatKey where
  pubkey : JsString
  label : Option JsString := none
  addedAt : Int
  external : Bool := false

inductive RosterRole
  | attendee | organizer
  deriving DecidableEq, Repr

structure RosterAttendee where
  pubkey : JsString
  d : JsString
  role : RosterRole
  chatKeys : Option (List RosterChatKey) := none

structure RosterContent where
  v : Nat
  eckCurrent : Int
  nostrGroupId : Option JsString := none
  pages : Option Nat := none
  attendees : List RosterAttendee

/-! ## The schema -/

/-- `rosterChatKeySchema`. -/
def rosterChatKeySchema (k : RosterChatKey) : Bool :=
  isHex32 k.pubkey && k.label.all (·.length ≤ maxChatKeyLabel) && isNumberInt k.addedAt

/-- One element of `attendees`. -/
def rosterAttendeeSchema (a : RosterAttendee) : Bool :=
  isHex32 a.pubkey && a.d.length ≤ maxD &&
    a.chatKeys.all fun ks => ks.length ≤ maxChatKeysPerAccount && ks.all rosterChatKeySchema

/-- Every check of `rosterContentSchema` but the number of attendees. -/
def rosterShaped (r : RosterContent) : Bool :=
  (r.v == protocolVersion || r.v == rosterPagedVersion) &&
    (0 < r.eckCurrent && isNumberInt r.eckCurrent) &&
    r.nostrGroupId.all isHex32 &&
    r.pages.all (fun n => 2 ≤ n && n ≤ maxRosterPages) &&
    r.attendees.all rosterAttendeeSchema &&
    (r.pages.isNone || r.v == rosterPagedVersion)

def rosterContentSchema (r : RosterContent) : Bool := rosterShaped r && r.attendees.length ≤ maxRosterPage

/-! ## Serialization -/

/-- A key of an object literal. -/
def field (k : String) (v : Json) : JsString × Json := (js k, v)

def RosterChatKey.toJson (k : RosterChatKey) : Json :=
  .obj ([field "pubkey" (.str k.pubkey)] ++ (k.label.map fun l => field "label" (.str l)).toList ++
    [field "added_at" (.num k.addedAt)] ++ (if k.external then [field "external" (.bool true)] else []))

def RosterRole.toJson : RosterRole → Json
  | .attendee => .str (js "attendee")
  | .organizer => .str (js "organizer")

def RosterAttendee.toJson (a : RosterAttendee) : Json :=
  .obj ([field "pubkey" (.str a.pubkey), field "d" (.str a.d), field "role" a.role.toJson] ++
    (a.chatKeys.map fun ks => field "chat_keys" (.arr (ks.map RosterChatKey.toJson))).toList)

def RosterContent.toJson (r : RosterContent) : Json :=
  .obj ([field "v" (.num r.v), field "eck_current" (.num r.eckCurrent)] ++
    (r.nostrGroupId.map fun g => field "nostr_group_id" (.str g)).toList ++
    (r.pages.map fun n : Nat => field "pages" (.num n)).toList ++
    [field "attendees" (.arr (r.attendees.map RosterAttendee.toJson))])

def payloadBytes (r : RosterContent) : Nat := utf8ByteLength (stringify r.toJson)

def rosterFitsOnePage (r : RosterContent) : Bool := payloadBytes r ≤ nip44MaxPlaintextBytes

/-! ## Pages -/

/-- `...(id ? { nostr_group_id: id } : {})`. -/
def truthyGroupId (r : RosterContent) : Option JsString := r.nostrGroupId.filter (· ≠ [])

def buildPage (roster : RosterContent) (index pages : Nat) (attendees : List RosterAttendee) : RosterContent :=
  if index > 0 then { v := rosterPagedVersion, eckCurrent := roster.eckCurrent, attendees }
  else
    { v := rosterPagedVersion
      eckCurrent := roster.eckCurrent
      nostrGroupId := truthyGroupId roster
      pages := some pages
      attendees }

/-- The variables of the loop of `packPages`. -/
structure Packing where
  groups : List (List RosterAttendee)
  current : List RosterAttendee
  overhead : Nat

/-- The bytes an entry adds, with a comma. -/
def entryBytes (a : RosterAttendee) : Nat := utf8ByteLength (stringify a.toJson) + 1

/-- The bytes of page `index` before its first entry, with the widest `pages`. -/
def envelopeBytes (roster : RosterContent) (index : Nat) : Nat :=
  payloadBytes (buildPage roster index maxRosterPages [])

/-- Closing the current page where the next entry would pass the target. -/
def Packing.closeFor (p : Packing) (roster : RosterContent) (entry : Nat) : Packing :=
  if p.current ≠ [] ∧ p.overhead + entry > rosterPageTargetBytes then
    { groups := p.groups ++ [p.current]
      current := []
      overhead := envelopeBytes roster (p.groups.length + 1) }
  else p

def Packing.push (p : Packing) (a : RosterAttendee) : Packing :=
  { p with current := p.current ++ [a], overhead := p.overhead + entryBytes a }

def Packing.start (roster : RosterContent) : Packing := ⟨[], [], envelopeBytes roster 0⟩

/-- One turn of the loop. -/
def Packing.add (roster : RosterContent) (p : Packing) (a : RosterAttendee) : Packing :=
  (p.closeFor roster (entryBytes a)).push a

def packPages (roster : RosterContent) : List (List RosterAttendee) :=
  let p := roster.attendees.foldl (Packing.add roster) (Packing.start roster)
  p.groups ++ [p.current]

def rosterPageCount (roster : RosterContent) : Nat :=
  if rosterFitsOnePage roster then 1 else (packPages roster).length

/-- What `splitRoster` throws. -/
inductive SplitError
  | members (count : Nat)
  | pages (count : Nat)
  | bytes (page count : Nat)

def SplitError.message : SplitError → String
  | .members n => "roster has " ++ toString n ++ " members, over the " ++ toString maxRoster ++ "-member cap"
  | .pages n => "roster needs " ++ toString n ++ " pages, over the " ++ toString maxRosterPages ++ "-page cap"
  | .bytes i n => "roster page " ++ toString i ++ " is " ++ toString n ++ " bytes, over the " ++
      toString nip44MaxPlaintextBytes ++ "-byte NIP-44 ceiling"

def splitRoster (roster : RosterContent) : Except SplitError (List RosterContent) :=
  if rosterFitsOnePage roster then .ok [roster]
  else if roster.attendees.length > maxRoster then .error (.members roster.attendees.length)
  else
    let groups := packPages roster
    if groups.length > maxRosterPages then .error (.pages groups.length)
    else
      let pages := groups.mapIdx fun i attendees => buildPage roster i groups.length attendees
      match pages.zipIdx.find? fun (page, _) => payloadBytes page > nip44MaxPlaintextBytes with
      | some (page, i) => .error (.bytes i (payloadBytes page))
      | none => .ok pages

/-! ## Merging -/

/-- One attendee of a page; `seen` is the pubkeys of those kept. -/
def keepAttendee (kept : List RosterAttendee) (a : RosterAttendee) : List RosterAttendee :=
  if kept.length ≥ maxRoster then kept
  else if (kept.map (·.pubkey)).contains a.pubkey then kept
  else kept ++ [a]

def mergeRosterPages : List RosterContent → Except String RosterContent
  | [] => .error "cannot merge an empty roster page set"
  | page0 :: rest =>
    .ok
      { v := protocolVersion
        eckCurrent := page0.eckCurrent
        nostrGroupId := truthyGroupId page0
        attendees := (page0 :: rest).foldl (fun kept page => page.attendees.foldl keepAttendee kept) [] }

end Nostrautica.Roster
