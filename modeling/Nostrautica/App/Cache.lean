/-
The app's cache: `app/src/lib/cache/persist.ts`, an in-memory mirror in front of a store on
disk that it writes behind.

A composite key is kept as its scope and its key. `touchedAt`, by which entries are evicted,
is left out: an eviction removes any keys.
-/
import Nostrautica.Js.Map
import Nostrautica.Js.Text

namespace Nostrautica.Cache

open Js

variable {δ : Type}

/-- `CacheEntry`. -/
structure Entry (δ : Type) where
  stamp : Int
  data : δ
  deriving DecidableEq

/-- `compositeKey(scope, key)`. -/
structure Key where
  scope : JsString
  key : JsString
  deriving DecidableEq

/-- `ANON`. -/
def anon : JsString := js "anon"

abbrev Rows (δ : Type) := List (Key × Entry δ)

/-! ## The store on disk -/

/-- `put(compositeKey, entry)`: the later `at` stays. -/
def putRow (rows : Rows δ) (k : Key) (entry : Entry δ) : Rows δ :=
  match look k rows with
  | some existing => if entry.stamp ≥ existing.stamp then put k entry rows else rows
  | none => put k entry rows

/-- `delete(compositeKeys)`. -/
def deleteRows (rows : Rows δ) (keys : List Key) : Rows δ := rows.filter fun row => row.1 ∉ keys

/-- `deleteByPrefix(prefix)`, of the keys of a scope. -/
def deleteScope (rows : Rows δ) (scope : JsString) : Rows δ := rows.filter fun row => row.1.scope ≠ scope

/-! ## The mirror -/

/-- The module's state in one tab. -/
structure Tab (δ : Type) where
  mirror : Rows δ := []
  activeOwner : Option JsString := none
  generation : Nat := 0

/-- `resolveScope(explicit)`. -/
def resolveScope (tab : Tab δ) (explicit : Option JsString) : Option JsString := explicit.or tab.activeOwner

/-- `setActiveCacheOwner(pubkey)`. -/
def setActiveCacheOwner (tab : Tab δ) (pubkey : Option JsString) : Tab δ :=
  { tab with
    generation := if tab.activeOwner.isSome ∧ pubkey ≠ tab.activeOwner then tab.generation + 1 else tab.generation
    activeOwner := pubkey }

/-- `cacheGet(key, scope)`. -/
def cacheGet (tab : Tab δ) (key : JsString) (scope : Option JsString) : Option (Entry δ) :=
  (resolveScope tab scope).bind fun s => look ⟨s, key⟩ tab.mirror

/-- `cacheSet(key, data, at, scope, guardGeneration)`: the row it writes, where it writes one. -/
def writes (tab : Tab δ) (key : JsString) (data : δ) (stamp : Int) (scope : Option JsString) (guardGeneration : Option Nat) :
    Option (Key × Entry δ) :=
  if guardGeneration.any (· ≠ tab.generation) then none
  else
    (resolveScope tab scope).bind fun s =>
      if (look ⟨s, key⟩ tab.mirror).any (·.stamp > stamp) then none else some (⟨s, key⟩, ⟨stamp, data⟩)

/-- A row of `cacheSet` in the mirror. -/
def setRow (tab : Tab δ) (row : Key × Entry δ) : Tab δ := { tab with mirror := put row.1 row.2 tab.mirror }

/-- `clearOwnerCache(owner)`, but for the delete on disk that it starts. -/
def clearOwnerCache (tab : Tab δ) (owner : JsString) : Tab δ :=
  { tab with generation := tab.generation + 1, mirror := deleteScope tab.mirror owner }

/-- One row of a bulk read, merged by `hydrateAppCache`. -/
def hydrateRow (wiped : Bool) (mirror : Rows δ) (row : Key × Entry δ) : Rows δ :=
  if wiped && row.1.scope ≠ anon then mirror
  else if (look row.1 mirror).any (·.stamp ≥ row.2.stamp) then mirror
  else put row.1 row.2 mirror

/-- The merge of `hydrateAppCache`, begun in generation `startGen`, of the rows it has read. -/
def hydrate (tab : Tab δ) (startGen : Nat) (all : Rows δ) : Tab δ :=
  { tab with mirror := all.foldl (hydrateRow (tab.generation ≠ startGen)) tab.mirror }

/-! ## A page and the disk -/

/-- A transaction on disk that was started. -/
inductive Op (δ : Type)
  | put (k : Key) (entry : Entry δ)
  | delete (keys : List Key)
  | deleteScope (scope : JsString)
  /-- The bulk read of a hydration begun in this generation. -/
  | getAll (startGen : Nat)
  deriving DecidableEq

/-- What a transaction makes of the rows. -/
def Op.apply (rows : Rows δ) : Op δ → Rows δ
  | put k entry => putRow rows k entry
  | delete keys => deleteRows rows keys
  | deleteScope scope => Cache.deleteScope rows scope
  | getAll _ => rows

/-- One load of the page. -/
structure Page (δ : Type) where
  tab : Tab δ := {}
  /-- The transactions in flight: the disk takes them in the order they were started. -/
  ops : List (Op δ) := []
  /-- `hydrated || hydrating`. -/
  hydrated : Bool := false
  /-- What a bulk read has returned, with the generation it was begun in. -/
  loaded : Option (Nat × Rows δ) := none

structure World (δ : Type) extends Page δ where
  disk : Rows δ := []

inductive Act (δ : Type)
  | signIn (pubkey : Option JsString)
  | set (key : JsString) (data : δ) (stamp : Int) (scope : Option JsString) (guardGeneration : Option Nat)
  /-- `cacheDelete`, an eviction or a prune. -/
  | remove (keys : List Key)
  | clear (owner : JsString)
  | beginHydration
  | mergeDisk
  /-- The oldest transaction in flight is done, or has failed. -/
  | settle (done : Bool)

def act (w : World δ) : Act δ → Option (World δ)
  | .signIn pubkey => some { w with tab := setActiveCacheOwner w.tab pubkey }
  | .set key data stamp scope guardGeneration =>
    some (match writes w.tab key data stamp scope guardGeneration with
      | some row => { w with tab := setRow w.tab row, ops := w.ops ++ [.put row.1 row.2] }
      | none => w)
  | .remove keys => some { w with tab := { w.tab with mirror := deleteRows w.tab.mirror keys }, ops := w.ops ++ [.delete keys] }
  | .clear owner => some { w with tab := clearOwnerCache w.tab owner, ops := w.ops ++ [.deleteScope owner] }
  | .beginHydration =>
    if w.hydrated then some w else some { w with hydrated := true, ops := w.ops ++ [.getAll w.tab.generation] }
  | .mergeDisk =>
    match w.loaded with
    | some (startGen, all) => some { w with tab := hydrate w.tab startGen all, loaded := none }
    | none => none
  | .settle done =>
    match w.ops with
    | [] => none
    | .getAll startGen :: ops => some { w with ops := ops, loaded := if done then some (startGen, w.disk) else w.loaded }
    | op :: ops => some { w with ops := ops, disk := if done then op.apply w.disk else w.disk }

def Step (w : World δ) (x : Act δ) (w' : World δ) : Prop := act w x = some w'

end Nostrautica.Cache
