/-
`Roster.kt` of `android/protocol`: the roster's pages on Android, ported from
`protocol/src/roster.ts`.

A `RosterContent` has the fields of the web's; its `Int`s and `Long`s are integers. The text that
`kotlinx.serialization` writes of it is a parameter, `encodeToString`, of the JSON value whose
fields are those of the class in its order, the absent ones left out.
-/
import Nostrautica.Js.JsonText
import Nostrautica.Protocol.RosterAddress

namespace Nostrautica.Android.Roster

open Js
open Nostrautica.Roster (RosterContent RosterAttendee Packing nip44MaxPlaintextBytes)

/-! ## What `Json` writes -/

/-- `Long.toString(n)`. -/
def longToString (n : Int) : JsString :=
  (if n < 0 then js "-" else []) ++ (if n = 0 then js "0" else decimal n.natAbs)

/-- What is written for a unit of a string. -/
def escaped (c : CodeUnit) : JsString :=
  if c.val = 0x22 then js "\\\""
  else if c.val = 0x5C then js "\\\\"
  else if c.val = 8 then js "\\b"
  else if c.val = 9 then js "\\t"
  else if c.val = 10 then js "\\n"
  else if c.val = 12 then js "\\f"
  else if c.val = 13 then js "\\r"
  else if c.val < 0x20 then unicodeEscape c
  else [c]

/-- What the documentation of `Json` says of its compact text. -/
structure Compact (encodeToString : Json → JsString) : Prop where
  bool : ∀ b, encodeToString (.bool b) = js (if b then "true" else "false")
  num : ∀ n, encodeToString (.num n) = longToString n
  str : ∀ s, encodeToString (.str s) = js "\"" ++ s.flatMap escaped ++ js "\""
  arr : ∀ elems, encodeToString (.arr elems) = arrayText (elems.map encodeToString)
  obj : ∀ fields, encodeToString (.obj fields) =
    js "\x7b" ++ joinComma (fields.map fun p => encodeToString (.str p.1) ++ js ":" ++ encodeToString p.2) ++ js "\x7d"

/-! ## Pages -/

/-- `PAGE_TARGET_BYTES`. -/
def pageTargetBytes : Nat := 60000

/-- `pageD(base, page)`. -/
def pageD (base : JsString) (page : Nat) : JsString := if page = 0 then base else base ++ js ":" ++ longToString page

/-- `pages.coerceIn(1, Limits.MAX_ROSTER_PAGES)`. -/
def coercePages (pages : Int) : Int := if pages < 1 then 1 else if pages > maxRosterPages then maxRosterPages else pages

/-- `continuationDs(base, pages)`. -/
def continuationDs (base : JsString) (pages : Int) : List JsString :=
  (List.range' 1 ((coercePages pages).toNat - 1)).map (pageD base)

section

variable (encodeToString : Json → JsString)

/-- `bytes(r)`. -/
def bytes (r : RosterContent) : Nat := utf8ByteLength (encodeToString r.toJson)

def fitsOnePage (r : RosterContent) : Bool := bytes encodeToString r ≤ nip44MaxPlaintextBytes

def buildPage (r : RosterContent) (index pages : Nat) (attendees : List RosterAttendee) : RosterContent :=
  if index > 0 then { v := rosterPagedVersion, eckCurrent := r.eckCurrent, attendees }
  else ⟨rosterPagedVersion, r.eckCurrent, r.nostrGroupId, some pages, attendees⟩

/-- `bytes(buildPage(r, index, Limits.MAX_ROSTER_PAGES, emptyList()))`. -/
def overheadOf (r : RosterContent) (index : Nat) : Nat := bytes encodeToString (buildPage r index maxRosterPages [])

/-- `entry`. -/
def entryOf (a : RosterAttendee) : Nat := utf8ByteLength (encodeToString a.toJson) + 1

/-- One turn of the loop of `split`, of its `groups`, `current` and `overhead`. -/
def turn (r : RosterContent) (p : Packing) (a : RosterAttendee) : Packing :=
  let entry := entryOf encodeToString a
  let p : Packing :=
    if p.current ≠ [] ∧ p.overhead + entry > pageTargetBytes then
      ⟨p.groups ++ [p.current], [], overheadOf encodeToString r (p.groups ++ [p.current]).length⟩
    else p
  { p with current := p.current ++ [a], overhead := p.overhead + entry }

/-- The `groups` of `split`. -/
def groupsOf (r : RosterContent) : List (List RosterAttendee) :=
  let p := r.attendees.foldl (turn encodeToString r) ⟨[], [], overheadOf encodeToString r 0⟩
  p.groups ++ [p.current]

/-- What `split` throws. -/
inductive SplitError
  | members (size : Nat)
  | pages (size : Nat)

def SplitError.message : SplitError → String
  | members n => "roster has " ++ toString n ++ " members, over the " ++ toString maxRoster ++ "-member cap"
  | pages n => "roster needs " ++ toString n ++ " pages"

/-- `split(r)`. -/
def split (r : RosterContent) : Except SplitError (List RosterContent) :=
  if fitsOnePage encodeToString r then .ok [r]
  else if ¬r.attendees.length ≤ maxRoster then .error (.members r.attendees.length)
  else
    let groups := groupsOf encodeToString r
    if ¬groups.length ≤ maxRosterPages then .error (.pages groups.length)
    else .ok (groups.mapIdx fun i att => buildPage r i groups.length att)

end

/-! ## Merging -/

/-- `filter { seen.add(it.pubkey) }`. -/
def filterUnseen : List JsString → List RosterAttendee → List RosterAttendee
  | _, [] => []
  | seen, a :: as => if a.pubkey ∈ seen then filterUnseen seen as else a :: filterUnseen (a.pubkey :: seen) as

/-- `merge(pages)`. -/
def merge : List RosterContent → Except String RosterContent
  | [] => .error "cannot merge an empty roster page set"
  | page0 :: rest =>
    let attendees := (filterUnseen [] ((page0 :: rest).flatMap (·.attendees))).take maxRoster
    .ok ⟨protocolVersion, page0.eckCurrent, page0.nostrGroupId, none, attendees⟩

end Nostrautica.Android.Roster
