/-
`protocol/src/settings-merge.ts`: the cross-device merge of the user-private
per-event settings, and the one-edit update.

Keys of the three lists and of the clock are `hex32` by the schema, so they
are `Hex32` here; notes may be keyed by any string, and a key that is not a
pubkey is carried beside the merge (`oddNotes`).
-/
import Nostrautica.Js.Map
import Nostrautica.Protocol.Schemas

namespace Nostrautica.SettingsMerge

open Js

inductive SettingsListField
  | favorites | wantToMeet | met
  deriving DecidableEq, Repr

/-- `SettingsClock`: the stamp (ms) of the last change to each entry. -/
structure SettingsClock where
  favorites : JsMap Hex32 Nat := .empty
  wantToMeet : JsMap Hex32 Nat := .empty
  met : JsMap Hex32 Nat := .empty
  notes : JsMap Hex32 Nat := .empty

/-- `PerEventSettings`, the v 2 payload. -/
structure PerEventSettings where
  favorites : List Hex32 := []
  wantToMeet : List Hex32 := []
  met : List Hex32 := []
  notes : JsMap JsString JsString := .empty
  clock : Option SettingsClock := none
  base : Option Nat := none

/-- `clock[f]`. -/
def SettingsClock.list (c : SettingsClock) : SettingsListField → JsMap Hex32 Nat
  | .favorites => c.favorites
  | .wantToMeet => c.wantToMeet
  | .met => c.met

/-- `settings[f]`. -/
def PerEventSettings.list (s : PerEventSettings) : SettingsListField → List Hex32
  | .favorites => s.favorites
  | .wantToMeet => s.wantToMeet
  | .met => s.met

structure Entry where
  present : Bool
  stamp : Nat
  /-- Notes only. -/
  text : Option JsString := none
  deriving DecidableEq

structure Normalized where
  base : Nat
  lists : SettingsListField → JsMap Hex32 Entry
  notes : JsMap Hex32 Entry
  oddNotes : JsMap JsString JsString

/-- A settings document with the `created_at` (seconds) of the event that carried it. -/
structure StampedSettings where
  settings : PerEventSettings
  createdAt : Int

/-- `r[k] = v` on a plain object: assigning a string to `__proto__` does nothing. -/
def recordSet (r : JsMap JsString JsString) (k v : JsString) : JsMap JsString JsString :=
  if k = js "__proto__" then r else r.set k v

/-- What every plain object inherits, which the `in` operator sees. -/
def objectPrototype : List JsString :=
  ["constructor", "__defineGetter__", "__defineSetter__", "hasOwnProperty", "__lookupGetter__",
    "__lookupSetter__", "isPrototypeOf", "propertyIsEnumerable", "toString", "valueOf", "__proto__",
    "toLocaleString"].map js

/-- `k in r`. -/
def recordHas (r : JsMap JsString JsString) (k : JsString) : Bool := r.has k || objectPrototype.contains k

/-- The base a document is read at: its own with a clock, its `created_at` without one. -/
def baseOf (s : StampedSettings) : Nat :=
  if s.settings.clock.isSome then s.settings.base.getD 0 else (max 0 s.createdAt).toNat * 1000

/-- An entry stamped by the clock and not set yet is a tombstone. -/
def addTombstone (m : JsMap Hex32 Entry) (p : Hex32 × Nat) : JsMap Hex32 Entry :=
  if m.has p.1 then m else m.set p.1 { present := false, stamp := p.2 }

def addTombstones (stamps : JsMap Hex32 Nat) (m : JsMap Hex32 Entry) : JsMap Hex32 Entry :=
  stamps.entries.foldl addTombstone m

/-- One list field of `normalize`. -/
def normalizeList (base : Nat) (stamps : JsMap Hex32 Nat) (pks : List Hex32) : JsMap Hex32 Entry :=
  addTombstones stamps <|
    pks.foldl (fun m pk => m.set pk { present := true, stamp := (stamps.get? pk).getD base }) .empty

/-- One note of `normalize`: on a pubkey, or carried beside. -/
def addNote (base : Nat) (stamps : JsMap Hex32 Nat) (acc : JsMap Hex32 Entry × JsMap JsString JsString)
    (note : JsString × JsString) : JsMap Hex32 Entry × JsMap JsString JsString :=
  if h : isHex32 note.1 = true then
    (acc.1.set ⟨note.1, h⟩
      { present := true, stamp := (stamps.get? ⟨note.1, h⟩).getD base, text := some note.2 }, acc.2)
  else (acc.1, recordSet acc.2 note.1 note.2)

def normalizeNotes (base : Nat) (stamps : JsMap Hex32 Nat) (notes : JsMap JsString JsString) :
    JsMap Hex32 Entry × JsMap JsString JsString :=
  notes.entries.foldl (addNote base stamps) (.empty, .empty)

def normalize (s : StampedSettings) : Normalized :=
  let clock := s.settings.clock.getD {}
  let base := baseOf s
  let (notes, oddNotes) := normalizeNotes base clock.notes s.settings.notes
  { base
    lists := fun f => normalizeList base (clock.list f) (s.settings.list f)
    notes := addTombstones clock.notes notes
    oddNotes }

/-- The winning view of one entry: later, then present, then the greater text. -/
def win (a b : Entry) : Entry :=
  if a.stamp ≠ b.stamp then if a.stamp > b.stamp then a else b
  else if a.present ≠ b.present then if a.present then a else b
  else if a.text.getD [] ≠ b.text.getD [] then if a.text.getD [] > b.text.getD [] then a else b
  else a

def mergeMaps (a : JsMap Hex32 Entry) (aBase : Nat) (b : JsMap Hex32 Entry) (bBase : Nat) : JsMap Hex32 Entry :=
  (a.keys ++ b.keys).eraseDups.foldl (fun out k =>
    out.set k (win ((a.get? k).getD { present := false, stamp := aBase })
      ((b.get? k).getD { present := false, stamp := bBase }))) .empty

/-- The output order: by stamp, then by key. -/
def entryLe (x y : Hex32 × Entry) : Bool :=
  if x.2.stamp = y.2.stamp then x.1.val ≤ y.1.val else x.2.stamp ≤ y.2.stamp

/-- The tombstones a field of a document over `base` has to say out loud. -/
def tombstones (base : Nat) (l : List (Hex32 × Entry)) : List (Hex32 × Entry) :=
  l.filter fun (_, e) => !e.present && e.stamp > base

/-- The keys of the newest tombstones, as many as a clock keeps. -/
def keepTombs (base : Nat) (m : JsMap Hex32 Entry) : List Hex32 :=
  let tombs := tombstones base (m.entries.mergeSort entryLe)
  (tombs.drop (tombs.length - maxSettingsTombstones)).map Prod.fst

/-- One entry of `emit`: its stamp, and what `onPresent` collects. -/
def emitEntry {α : Type} (keepTombs : List Hex32) (onPresent : α → Hex32 → Entry → α)
    (acc : JsMap Hex32 Nat × α) (p : Hex32 × Entry) : JsMap Hex32 Nat × α :=
  if p.2.present then (acc.1.set p.1 p.2.stamp, onPresent acc.2 p.1 p.2)
  else if keepTombs.contains p.1 then (acc.1.set p.1 p.2.stamp, acc.2)
  else acc

def emit {α : Type} (base : Nat) (m : JsMap Hex32 Entry) (onPresent : α → Hex32 → Entry → α) (out : α) :
    JsMap Hex32 Nat × α :=
  (m.entries.mergeSort entryLe).foldl (emitEntry (keepTombs base m) onPresent) (.empty, out)

/-- `emit` of a list field. -/
def emitList (n : Normalized) (f : SettingsListField) : JsMap Hex32 Nat × List Hex32 :=
  emit n.base (n.lists f) (fun out pk _ => out ++ [pk]) []

/-- `emit` of the notes. -/
def emitNotes (n : Normalized) : JsMap Hex32 Nat × JsMap JsString JsString :=
  emit n.base n.notes (fun out pk e => out.set pk.val (e.text.getD [])) .empty

def denormalize (n : Normalized) : PerEventSettings :=
  { favorites := (emitList n .favorites).2
    wantToMeet := (emitList n .wantToMeet).2
    met := (emitList n .met).2
    notes := n.oddNotes.entries.foldl (fun notes (k, text) =>
      if recordHas notes k then notes else notes.set k text) (emitNotes n).2
    clock := some
      { favorites := (emitList n .favorites).1
        wantToMeet := (emitList n .wantToMeet).1
        met := (emitList n .met).1
        notes := (emitNotes n).1 }
    base := some n.base }

/-- The merged document before it is written out. -/
def mergeNormalized (na nb : Normalized) : Normalized :=
  { base := max na.base nb.base
    lists := fun f => mergeMaps (na.lists f) na.base (nb.lists f) nb.base
    notes := mergeMaps na.notes na.base nb.notes nb.base
    oddNotes := nb.oddNotes.spread na.oddNotes }

def mergePerEventSettings (a b : StampedSettings) : PerEventSettings :=
  denormalize (mergeNormalized (normalize a) (normalize b))

inductive SettingsEdit
  | toggle (list : SettingsListField) (pubkey : Hex32)
  | note (pubkey : Hex32) (text : JsString)

/-- `at + 1`, rounded as numbers are. -/
def addOne (t : Nat) : Nat := (roundRatio false (t + 1) 1).toNat?.getD t

/-- The stamp of an edit: now, or just past what it replaces. -/
def editStamp (n : Normalized) (cur : Entry) (nowMs : Nat) : Nat := max nowMs (max (addOne cur.stamp) (addOne n.base))

def editPerEventSettings (doc : StampedSettings) (edit : SettingsEdit) (nowMs : Nat) : PerEventSettings :=
  let n := normalize doc
  match edit with
  | .toggle f pk =>
    let cur := ((n.lists f).get? pk).getD { present := false, stamp := n.base }
    denormalize { n with lists := fun g =>
      if g = f then (n.lists f).set pk { present := !cur.present, stamp := editStamp n cur nowMs } else n.lists g }
  | .note pk text =>
    let cur := (n.notes.get? pk).getD { present := false, stamp := n.base }
    let entry : Entry := if trim text ≠ [] then
        { present := true, stamp := editStamp n cur nowMs, text := some (trim text) }
      else { present := false, stamp := editStamp n cur nowMs }
    denormalize { n with notes := n.notes.set pk entry }

end Nostrautica.SettingsMerge
