/-
How an organizer's device reads an event's roster and builds one anew: `loadRoster`,
`rosterForRewrite`, `buildRosterEvents` and the roster of `rekeyRoster` in
`app/src/lib/events/organizer.ts`, with the key picked as in `protocol/src/eck-identity.ts`.

The records are those that verify. What encrypts, what blinds, what writes a payload
`T` and what parses one against the schema are parameters, and a record's tags are as `readEckTag`
and the address checks read them.
-/
import Nostrautica.App.Pending
import Nostrautica.App.Keystore
import Nostrautica.Protocol.RosterAddress

namespace Nostrautica.ClientRoster

open Js Roster Keystore Nostrautica.Membership

/-- `EckRef`. -/
structure EckRef where
  id : Nat
  fp : Option Nat := none
  deriving DecidableEq

/-- A 31604, under the ciphertexts `C`. -/
structure PageEvent (C : Type) where
  id : JsString
  author : JsString
  created_at : Int
  d : JsString
  a : Option JsString
  eck : Option EckRef
  content : C
  deriving DecidableEq

deriving instance DecidableEq for RosterChatKey, RosterAttendee, RosterContent

variable {K T C : Type} [DecidableEq K]

structure Deps (K T C : Type) where
  fingerprint : K → Nat
  eckEncrypt : K → T → C
  eckDecrypt : K → C → Option T
  /-- `JSON.stringify(page)`. -/
  pageText : RosterContent → T
  /-- `parsePayloadSafe(rosterContentSchema, JSON.parse(text))`. -/
  parsePage : T → Option RosterContent
  blindedD : K → JsString → JsString

structure Context where
  coordinate : JsString
  /-- `splitCoordinate(coordinate).identifier`. -/
  identifier : JsString
  /-- `rosterPage0Ds(coordinate)`. -/
  page0Ds : List JsString
  eidPubkey : JsString
  /-- `acceptedRecordAuthors(ctx)`. -/
  authors : List JsString

/-! ## Reading -/

/-- `pickLatest(events)`. -/
def pickLatest (events : List (PageEvent C)) : Option (PageEvent C) :=
  events.foldl (fun best e => if best.all fun b => Pending.supersedes ⟨e.id, e.created_at⟩ ⟨b.id, b.created_at⟩ then some e else best)
    none

/-- `eckCandidates(versions, ref)`. -/
def eckCandidates (fingerprint : K → Nat) (versions : List (EckVersion K)) (ref : EckRef) : List (EckVersion K) :=
  ((versions.filter (·.id = ref.id)).mergeSort fun a b => !eckBefore fingerprint b a).filter fun v =>
    ref.fp.all (fingerprint v.key = ·)

inductive RosterRead (K : Type)
  | ok (roster : RosterContent) (stamp : Int) (eck : EckVersion K)
  | foreign (stamp : Int) (ref : EckRef)
  | absent (suspect : Bool)
  | unreadable (stamp : Int)

/-- The records of an author at an address. -/
def recordsAt (c : Context) (relays : List (PageEvent C)) (author d : JsString) : List (PageEvent C) :=
  relays.filter fun e => e.author = author ∧ e.a = some c.coordinate ∧ e.d = d

/-- One continuation page, and its record. -/
def loadPage (d : Deps K T C) (c : Context) (relays : List (PageEvent C)) (key : K) (author base : JsString) (page : Nat) :
    Option (RosterContent × Int) :=
  (pickLatest (recordsAt c relays author (rosterPageD base page))).bind fun latest =>
    ((d.eckDecrypt key latest.content).bind d.parsePage).map fun content => (content, latest.created_at)

/-- `loadRosterPages(ctx, eckBytes, author, pages, base)`. -/
def loadRosterPages (d : Deps K T C) (c : Context) (relays : List (PageEvent C)) (key : K) (author : JsString) (pages : Nat)
    (base : JsString) : Option (List RosterContent × Int) :=
  ((List.range' 1 (pages - 1)).mapM (loadPage d c relays key author base)).map fun read =>
    (read.map (·.1), (read.map (·.2)).foldl max 0)

/-- The records that may be page 0: `isRosterPageFor(coordinate, page0Ds, tags)`. -/
def page0s (c : Context) (relays : List (PageEvent C)) : List (PageEvent C) :=
  relays.filter fun e => e.author ∈ c.authors ∧ e.d ∈ c.page0Ds ∧ e.a.all (· = c.coordinate)

/-- The keys that page 0 may be under. -/
def keysFor (d : Deps K T C) (eck pendingEck : List (EckVersion K)) (latest : PageEvent C) : List (EckVersion K) :=
  match latest.eck with
  | some ref => eckCandidates d.fingerprint (unionEck d.fingerprint eck pendingEck) ref
  | none => (canonicalEck d.fingerprint eck).toList

/-- The roster, once its key is known. -/
def readRoster (d : Deps K T C) (c : Context) (relays : List (PageEvent C)) (latest : PageEvent C) (used : EckVersion K) :
    Option (RosterRead K) := do
  let text ← d.eckDecrypt used.key latest.content
  let page0 ← d.parsePage text
  let pages := page0.pages.getD 1
  if pages > 1 then
    let rest ← loadRosterPages d c relays used.key latest.author pages latest.d
    let roster ← (mergeRosterPages (page0 :: rest.1)).toOption
    return .ok roster (max latest.created_at rest.2) used
  else return .ok page0 latest.created_at used

/-- `loadRoster(ctx, held)`, but for the promotion; `hasSeen` is `hasSeenPublished(coordinate, "roster")`. -/
def loadRoster (d : Deps K T C) (c : Context) (relays : List (PageEvent C)) (eck pendingEck : List (EckVersion K)) (hasSeen : Bool) :
    RosterRead K :=
  match pickLatest (page0s c relays) with
  | none => .absent hasSeen
  | some latest =>
    let candidates := keysFor d eck pendingEck latest
    match latest.eck.filter fun ref => candidates = [] ∨ ref.id > maxId (unionEck d.fingerprint eck pendingEck) with
    | some ref => .foreign latest.created_at ref
    | none =>
      match candidates.find? fun v => (d.eckDecrypt v.key latest.content).isSome with
      | none => .unreadable latest.created_at
      | some used => (readRoster d c relays latest used).getD (.unreadable latest.created_at)

/-- `promotePending(keys, used, owner)`: the record it saves, or the one there is. -/
def promotePending (d : Deps K T C) (keys : EventKeys K) (used : EckVersion K) : EventKeys K :=
  if used ∈ keys.pendingEck then
    { keys with
      eck := unionEck d.fingerprint keys.eck (keys.pendingEck.filter (·.id ≤ used.id))
      pendingEck := keys.pendingEck.filter (·.id > used.id) }
  else keys

/-! ## Rewriting -/

/-- `rosterForRewrite(read, eckCurrent)`, which may throw. -/
def rosterForRewrite (read : RosterRead K) (eckCurrent : Nat) : Option (RosterContent × Int) :=
  match read with
  | .ok roster stamp _ => some (roster, stamp)
  | .foreign _ _ => none
  | .unreadable _ => none
  | .absent suspect => if suspect then none else some ({ v := protocolVersion, eckCurrent := eckCurrent, attendees := [] }, 0)

/-- What is taken to be on the relays. -/
def onRelay (d : Deps K T C) (eckId : Nat) (previous : Option RosterContent) : List T :=
  match previous with
  | some previous =>
    match splitRoster { previous with eckCurrent := eckId } with
    | .ok pages => pages.map d.pageText
    | .error _ => []
  | none => []

/-- `buildRosterEvents(ctx, eidSk, eckBytes, eckId, roster, baseCreatedAt, previous)` at the time
`now`; `ids` are the ids of the records. -/
def buildRosterEvents [DecidableEq T] (d : Deps K T C) (c : Context) (eck : EckVersion K) (roster : RosterContent) (baseCreatedAt : Int)
    (previous : Option RosterContent) (now : Int) (ids : Nat → JsString) : Except SplitError (List (PageEvent C)) := do
  let pages ← splitRoster { roster with eckCurrent := eck.id }
  let known := onRelay d eck.id previous
  let createdAt := max now (baseCreatedAt + 1)
  return pages.zipIdx.filterMap fun (content, page) =>
    if known[page]? = some (d.pageText content) then none
    else some
      { id := ids page
        author := c.eidPubkey
        created_at := createdAt
        d := rosterPageD c.identifier page
        a := some c.coordinate
        eck := some ⟨eck.id, some (d.fingerprint eck.key)⟩
        content := d.eckEncrypt eck.key (d.pageText content) }

/-- The roster of `rekeyRoster(ctx, eidSk, prevEck, attendees, newEckBytes, newId, …)`. -/
def rekeyed (d : Deps K T C) (new : EckVersion K) (keepChatKeys : Bool) (attendees : List RosterAttendee) : RosterContent :=
  { v := protocolVersion
    eckCurrent := new.id
    attendees := attendees.map fun a =>
      { pubkey := a.pubkey
        d := d.blindedD new.key a.pubkey
        role := a.role
        chatKeys := if keepChatKeys then a.chatKeys else none } }

/-- `mintEck(keys)`, with what `generateEck` returns. -/
def mintEck (d : Deps K T C) (keys : EventKeys K) (key : K) : EckVersion K :=
  ⟨maxId (unionEck d.fingerprint keys.eck keys.pendingEck) + 1, key⟩

/-- `stageEck(keys, v, owner)`: the record it saves. -/
def stageEck (d : Deps K T C) (keys : EventKeys K) (v : EckVersion K) : EventKeys K :=
  { keys with pendingEck := unionEck d.fingerprint keys.pendingEck [v] }

end Nostrautica.ClientRoster
