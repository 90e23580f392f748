/-
The list of events that a device has opened: `app/src/lib/stores/recent-events.svelte.ts`, where there
is a `localStorage` that takes every write.

A field that is missing, such as the coordinate of an old entry, is an empty text.
-/
import Nostrautica.Js.Map
import Nostrautica.Protocol.Coordinate

namespace Nostrautica.RecentEvents

open Js

inductive Role
  | visitor | attendee | organizer
  deriving DecidableEq

/-- `RANK`. -/
def Role.rank : Role → Nat
  | visitor => 0
  | attendee => 1
  | organizer => 2

/-- `RecentEvent`; a time is a `τ`. -/
structure RecentEvent (τ : Type) where
  coordinate : JsString
  naddr : JsString
  title : JsString
  role : Role
  icon : Option JsString
  «at» : τ
  pendingKey : Option Bool

/-- `naddrEncode` and `decode` of `nostr-tools/nip19`; `none` where they throw, and where what is decoded is no naddr. -/
structure Nip19 where
  naddrEncode : EventCoordinate → Option JsString
  decode : JsString → Option EventCoordinate
  naddrEncode_ne_nil : ∀ {c n}, naddrEncode c = some n → n ≠ []

/-- What `storageKey` and `MAX` are. -/
def key : JsString := js "nostrautica:recent-events"

def maxEntries : Nat := 30

def storageKey (owner : Option JsString) : JsString :=
  match owner with
  | some o => if o ≠ [] then key ++ js ":" ++ o else key
  | none => key

section

variable (C : Nip19) {τ : Type}

/-- `coordinateToNaddr(coordinate)`; `none` where it throws. -/
def coordinateToNaddr (coordinate : JsString) : Option JsString :=
  match parseCoordinate coordinate with
  | .ok c => C.naddrEncode c
  | .error _ => none

/-- `naddrToCoordinate(naddr).coordinate`; `none` where it throws. -/
def naddrToCoordinate (naddr : JsString) : Option JsString := (C.decode naddr).map fun c => makeCoordinate c.pubkey c.identifier c.kind

def coordOf (e : RecentEvent τ) : JsString :=
  if e.coordinate ≠ [] then e.coordinate else (naddrToCoordinate C e.naddr).getD e.naddr

def canonicalCoordinate (naddr fallback : JsString) : JsString := (naddrToCoordinate C naddr).getD fallback

def naddrOf (e : RecentEvent τ) : Option JsString := if e.naddr ≠ [] then some e.naddr else coordinateToNaddr C (coordOf C e)

/-- `a || b` of two texts. -/
def orText (a b : JsString) : JsString := if a ≠ [] then a else b

def pendingFor (role : Role) (pending : Option Bool) : Bool := role = .visitor && pending = some true

/-! ## `dedupe` -/

/-- The first lines of the first loop: what becomes of an entry before it is merged. -/
def prepared (raw : RecentEvent τ) : Option (RecentEvent τ) :=
  match naddrOf C raw with
  | none => none
  | some naddr =>
    if naddr = [] then none
    else some { raw with
      naddr, coordinate := coordOf C raw
      pendingKey := if raw.pendingKey = some true ∧ raw.role ≠ .visitor then some false else raw.pendingKey }

/-- A disagreeing naddr is rebuilt. -/
def repaired (e : RecentEvent τ) : RecentEvent τ :=
  if canonicalCoordinate C e.naddr e.coordinate = e.coordinate then e
  else match coordinateToNaddr C e.coordinate with
    | some naddr => { e with naddr }
    | none => e

variable [LinearOrder τ]

def merge (prior e : RecentEvent τ) : RecentEvent τ :=
  let role := if e.role.rank ≥ prior.role.rank then e.role else prior.role
  let newer := if e.at ≥ prior.at then e else prior
  let older := if e.at ≥ prior.at then prior else e
  { coordinate := orText e.coordinate prior.coordinate
    naddr := if e.at ≥ prior.at then e.naddr else prior.naddr
    title := orText (orText (if e.at ≥ prior.at then e.title else prior.title) prior.title) e.title
    role
    icon := e.icon.or prior.icon
    «at» := max e.at prior.at
    pendingKey := some (pendingFor role (newer.pendingKey.or older.pendingKey)) }

/-- The loops over a `Map`: an entry is merged into the one of its key. -/
def collect (by_ : RecentEvent τ → JsString) (list : List (RecentEvent τ)) : JsMap JsString (RecentEvent τ) :=
  list.foldl (fun m e => m.set (by_ e) (match m.get? (by_ e) with | some prior => merge prior e | none => e)) JsMap.empty

/-- `[...].sort((a, b) => b.at - a.at)`. -/
def sorted (list : List (RecentEvent τ)) : List (RecentEvent τ) := list.insertionSort fun a b => b.at ≤ a.at

def dedupe (list : List (RecentEvent τ)) : List (RecentEvent τ) :=
  let byCoord := collect RecentEvent.coordinate (list.filterMap (prepared C))
  let byNaddr := collect RecentEvent.naddr (byCoord.values.map (repaired C))
  (sorted byNaddr.values).take maxEntries

/-! ## The store -/

/-- An assignment to `list`: what it held before, and whether a `record` made it, with `authoritativeRole`. -/
structure Assignment (τ : Type) where
  record : Option Bool
  before : List (RecentEvent τ)
  after : List (RecentEvent τ)

/-- `RecentEvents`, with what `localStorage` holds under each key (`none` where that is missing or is no
JSON), and every assignment to `list` so far. -/
structure Store (τ : Type) where
  stored : JsString → Option (List (RecentEvent τ))
  list : List (RecentEvent τ)
  owner : Option JsString
  pendingIdentity : Bool
  queued : List (RecentEvent (Option τ) × Bool)
  assigned : List (Assignment τ)

/-- A page that has just been opened. -/
def opened (stored : JsString → Option (List (RecentEvent τ))) : Store τ := ⟨stored, [], none, false, [], []⟩

namespace Store

def load (s : Store τ) (owner : Option JsString) : List (RecentEvent τ) := dedupe C ((s.stored (storageKey owner)).getD [])

/-- `this.list = next`. -/
def assign (s : Store τ) (record : Option Bool) (next : List (RecentEvent τ)) : Store τ :=
  { s with list := next, assigned := ⟨record, s.list, next⟩ :: s.assigned }

/-- `localStorage.setItem(storageKey(this.owner), JSON.stringify(next))`. -/
def save (s : Store τ) (next : List (RecentEvent τ)) : Store τ :=
  { s with stored := fun k => if k = storageKey s.owner then some next else s.stored k }

def init (s : Store τ) : Store τ :=
  let cleaned := s.load C s.owner
  (s.save cleaned).assign none cleaned

/-- `/^[0-9a-f]{64}$/`. -/
def awaitIdentity (s : Store τ) (expectedOwner : Option JsString) : Store τ :=
  match expectedOwner.filter (isLowerHex 64) with
  | some owner => { s with pendingIdentity := true }.assign none (s.load C (some owner))
  | none => if s.pendingIdentity then s else { s with pendingIdentity := true }.assign none []

/-- `next` of `record`, from `load(this.owner)`. -/
def recorded (all : List (RecentEvent τ)) (evt : RecentEvent (Option τ)) (naddr : JsString) (authoritativeRole : Bool) (now : τ) :
    List (RecentEvent τ) :=
  let prior := all.find? fun e => e.coordinate = evt.coordinate
  let existing := all.filter fun e => e.coordinate ≠ evt.coordinate
  let role := match prior with
    | some p => if authoritativeRole = false ∧ p.role.rank > evt.role.rank then p.role else evt.role
    | none => evt.role
  { coordinate := evt.coordinate
    naddr
    title := orText (orText evt.title (prior.elim [] RecentEvent.title)) (js "Event")
    role
    icon := evt.icon.or (prior.bind RecentEvent.icon)
    «at» := evt.at.getD now
    pendingKey := some (pendingFor role (evt.pendingKey.or (prior.bind RecentEvent.pendingKey))) } :: existing

/-- `record(evt, authoritativeRole)` at a time `now`. -/
def record (s : Store τ) (evt : RecentEvent (Option τ)) (authoritativeRole : Bool) (now : τ) : Store τ :=
  if s.pendingIdentity then
    let queued := s.queued ++ [(evt, authoritativeRole)]
    { s with queued := if queued.length > maxEntries then queued.tail else queued }
  else match naddrOf C evt with
    | none => s
    | some naddr =>
      if naddr = [] then s
      else
        let next := dedupe C (recorded (s.load C s.owner) evt naddr authoritativeRole now)
        (s.save next).assign (some authoritativeRole) next

/-- `identitySettled()`; the records are replayed at the times of `clock`. -/
def identitySettled (s : Store τ) (clock : Nat → τ) : Store τ :=
  if s.pendingIdentity = false then s
  else
    s.queued.zipIdx.foldl (fun s q => s.record C q.1.1 q.1.2 (clock q.2)) ({ s with pendingIdentity := false, queued := [] }.init C)

def setOwner (s : Store τ) (owner : Option JsString) (clock : Nat → τ) : Store τ :=
  if s.pendingIdentity then { s with owner }.identitySettled C clock
  else if s.owner ≠ owner then { s with owner }.init C
  else s

def remove (s : Store τ) (coordinate : JsString) : Store τ :=
  let next := (s.load C s.owner).filter fun e => e.coordinate ≠ coordinate
  (s.save next).assign none next

def clear (s : Store τ) : Store τ :=
  { s with stored := fun k => if k = storageKey s.owner then none else s.stored k }.assign none []

end Store

/-- A call of the store, with the time that it reads. -/
inductive Call (τ : Type)
  | init
  | awaitIdentity (expectedOwner : Option JsString)
  | identitySettled (clock : Nat → τ)
  | setOwner (owner : Option JsString) (clock : Nat → τ)
  | record (evt : RecentEvent (Option τ)) (authoritativeRole : Bool) (now : τ)
  | reconcile (evt : RecentEvent (Option τ)) (now : τ)
  | remove (coordinate : JsString)
  | clear

def call (s : Store τ) : Call τ → Store τ
  | .init => s.init C
  | .awaitIdentity expectedOwner => s.awaitIdentity C expectedOwner
  | .identitySettled clock => s.identitySettled C clock
  | .setOwner owner clock => s.setOwner C owner clock
  | .record evt authoritativeRole now => s.record C evt authoritativeRole now
  | .reconcile evt now => s.record C evt true now
  | .remove coordinate => s.remove C coordinate
  | .clear => s.clear

def run (stored : JsString → Option (List (RecentEvent τ))) (calls : List (Call τ)) : Store τ := calls.foldl (call C) (opened stored)

end

end Nostrautica.RecentEvents
