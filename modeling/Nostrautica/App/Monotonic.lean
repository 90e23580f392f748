/-
Publishing replaceable events from the app: `app/src/lib/nostr/monotonic.ts`, in the tabs of
one browser profile, which share the address locks and the store on disk.

The publish after the lock is left out, and so are the other rows of the cache; an event is its
`created_at`.
-/
import Nostrautica.App.Cache

namespace Nostrautica.Monotonic

open Js Cache

/-- `watermarkKey(address)`. -/
def watermarkKey (address : JsString) : JsString := js "mono:" ++ address

/-- `publishWatermark(address, owner)`. -/
def publishWatermark (tab : Tab Int) (address owner : JsString) : Int :=
  ((cacheGet tab (watermarkKey address) (some owner)).map Entry.data).getD 0

/-- `bumpWatermark(address, createdAt, owner)`. -/
def bumpWatermark (address : JsString) (createdAt : Int) (owner : JsString) : Cache.Act Int :=
  .set (watermarkKey address) createdAt createdAt (some owner) none

/-- The `created_at` that `publishMonotonic` has the event signed for: `relayAt` is that of the
winner on the relays, or 0. -/
def reserve (tab : Tab Int) (address owner : JsString) (now relayAt : Int) : Int :=
  let floor := max (publishWatermark tab address owner) relayAt
  max now (floor + 1)

/-! ## Tabs -/

/-- What an address lock is for. -/
structure Slot where
  owner : JsString
  address : JsString
  deriving DecidableEq

/-- A tab that holds a lock, and the `created_at` of the event it has signed under it. -/
structure Holder (τ : Type) where
  tab : τ
  createdAt : Option Int := none
  deriving DecidableEq

variable {τ : Type} [DecidableEq τ]

structure World (τ : Type) where
  pages : τ → Page Int := fun _ => {}
  disk : Rows Int := []
  locks : Slot → Option (Holder τ) := fun _ => none
  /-- The events signed, in this order. -/
  signed : List (Slot × Int) := []

inductive Act (τ : Type)
  /-- The tab is loaded again: its transactions and its locks are gone. -/
  | boot (t : τ)
  /-- Something else that the cache of the tab does. -/
  | cache (t : τ) (x : Cache.Act Int)
  | lock (t : τ) (slot : Slot)
  | sign (t : τ) (slot : Slot) (now relayAt : Int)
  | bump (t : τ) (slot : Slot)
  /-- `sign` has thrown. -/
  | fail (t : τ) (slot : Slot)

/-- The cache of a tab with the disk. -/
def view (w : World τ) (t : τ) : Cache.World Int := { w.pages t with disk := w.disk }

/-- The tabs after the cache of one has come to this. -/
def store (w : World τ) (t : τ) (v : Cache.World Int) : World τ :=
  { w with pages := Function.update w.pages t v.toPage, disk := v.disk }

/-- A write into the cache. -/
def isSet : Cache.Act Int → Bool
  | .set .. => true
  | _ => false

def act (w : World τ) : Act τ → Option (World τ)
  | .boot t => some { w with
      pages := Function.update w.pages t {}
      locks := fun slot => (w.locks slot).filter (·.tab ≠ t) }
  | .cache t x => if isSet x then none else (Cache.act (view w t) x).map (store w t)
  | .lock t slot =>
    match w.locks slot with
    | none => some { w with locks := Function.update w.locks slot (some { tab := t }) }
    | some _ => none
  | .sign t slot now relayAt =>
    if w.locks slot = some { tab := t } then
      let createdAt := reserve (w.pages t).tab slot.address slot.owner now relayAt
      some { w with
        locks := Function.update w.locks slot (some { tab := t, createdAt := some createdAt })
        signed := w.signed ++ [(slot, createdAt)] }
    else none
  | .bump t slot =>
    match w.locks slot with
    | some ⟨holder, some createdAt⟩ =>
      if holder = t then
        (Cache.act (view w t) (bumpWatermark slot.address createdAt slot.owner)).map fun v =>
          { store w t v with locks := Function.update w.locks slot none }
      else none
    | _ => none
  | .fail t slot =>
    if w.locks slot = some { tab := t } then some { w with locks := Function.update w.locks slot none } else none

def Step (w : World τ) (x : Act τ) (w' : World τ) : Prop := act w x = some w'

/-- What was signed for a slot, in this order. -/
def stamps (w : World τ) (slot : Slot) : List Int := (w.signed.filter (·.1 = slot)).map Prod.snd

end Nostrautica.Monotonic
