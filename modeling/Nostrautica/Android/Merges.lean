/-
The merges of the Android client: `SettingsMerge.kt`, `EckIdentity.kt` and `KeysBackup.kt` of
`android/protocol`, ported from `settings-merge.ts`, `eck-identity.ts` and `keys-backup.ts`.

A `LinkedHashMap` is an insertion-ordered map, as a JavaScript `Map` is; both clients compare
strings by code unit. A `Long` is below 2^63, and a `created_at` whose milliseconds are not is left
out, as the numbers that JavaScript rounds are. A version's `"${id}|${key}"` is the version.
-/
import Nostrautica.App.ClientRoster
import Nostrautica.App.Keystore
import Nostrautica.Protocol.SettingsMerge

namespace Nostrautica.Android

open Js

/-! ## Settings -/

namespace SettingsMerge

open Nostrautica.SettingsMerge (Entry Normalized PerEventSettings SettingsClock SettingsListField StampedSettings entryLe)

/-- `if (clock != null) (s.base ?: 0L) else maxOf(0L, createdAt) * 1000L`. -/
def baseOf (s : StampedSettings) : Nat :=
  if s.settings.clock.isSome then s.settings.base.getD 0 else (max 0 s.createdAt).toNat * 1000

/-- The stamps that a map does not have yet are tombstones of it. -/
def withStamps (stamps : JsMap Hex32 Nat) (m : JsMap Hex32 Entry) : JsMap Hex32 Entry :=
  stamps.entries.foldl (fun m p => if m.has p.1 then m else m.set p.1 { present := false, stamp := p.2 }) m

/-- One of the `lists` of `normalize`. -/
def normalizeList (base : Nat) (stamps : JsMap Hex32 Nat) (pks : List Hex32) : JsMap Hex32 Entry :=
  withStamps stamps (pks.foldl (fun m pk => m.set pk { present := true, stamp := (stamps.get? pk).getD base }) .empty)

/-- The loop over the notes of `normalize`: the entries, and `odd`. -/
def normalizeNotes (base : Nat) (noteStamps : JsMap Hex32 Nat) (notes : JsMap JsString JsString) :
    JsMap Hex32 Entry × JsMap JsString JsString :=
  notes.entries.foldl (fun acc note =>
    if h : isHex32 note.1 = true then
      (acc.1.set ⟨note.1, h⟩ { present := true, stamp := (noteStamps.get? ⟨note.1, h⟩).getD base, text := some note.2 }, acc.2)
    else (acc.1, acc.2.set note.1 note.2)) (.empty, .empty)

def normalize (s : StampedSettings) : Normalized :=
  let clock := s.settings.clock.getD {}
  let base := baseOf s
  let notes := normalizeNotes base clock.notes s.settings.notes
  { base := base
    lists := fun f => normalizeList base (clock.list f) (s.settings.list f)
    notes := withStamps clock.notes notes.1
    oddNotes := notes.2 }

def win (a b : Entry) : Entry :=
  if a.stamp ≠ b.stamp then if a.stamp > b.stamp then a else b
  else if a.present ≠ b.present then if a.present then a else b
  else if a.text.getD [] ≠ b.text.getD [] then if a.text.getD [] > b.text.getD [] then a else b
  else a

def mergeMaps (a : JsMap Hex32 Entry) (aBase : Nat) (b : JsMap Hex32 Entry) (bBase : Nat) : JsMap Hex32 Entry :=
  (a.keys ++ b.keys).eraseDups.foldl (fun out k =>
    out.set k (win ((a.get? k).getD { present := false, stamp := aBase }) ((b.get? k).getD { present := false, stamp := bBase }))) .empty

/-- `l.takeLast(n)`. -/
def takeLast {α : Type} (n : Nat) (l : List α) : List α := l.drop (l.length - n)

/-- `emit(m, base, onPresent)`: the stamps, and what `onPresent` makes of the entries. -/
def emit {α : Type} (m : JsMap Hex32 Entry) (base : Nat) (onPresent : α → Hex32 → Entry → α) (out : α) : JsMap Hex32 Nat × α :=
  let ordered := m.entries.mergeSort entryLe
  let tombs := ordered.filter fun p => !p.2.present && p.2.stamp > base
  let keep := (takeLast maxSettingsTombstones tombs).map Prod.fst
  ordered.foldl (fun acc p =>
    if p.2.present then (acc.1.set p.1 p.2.stamp, onPresent acc.2 p.1 p.2)
    else if keep.contains p.1 then (acc.1.set p.1 p.2.stamp, acc.2)
    else acc) (.empty, out)

def denormalize (n : Normalized) : PerEventSettings :=
  let list (f : SettingsListField) := emit (n.lists f) n.base (fun out pk _ => out ++ [pk]) []
  let notes := emit n.notes n.base (fun out pk e => out.set pk.val (e.text.getD [])) (JsMap.empty : JsMap JsString JsString)
  { favorites := (list .favorites).2
    wantToMeet := (list .wantToMeet).2
    met := (list .met).2
    notes := n.oddNotes.entries.foldl (fun notes p => if notes.has p.1 then notes else notes.set p.1 p.2) notes.2
    clock := some
      { favorites := (list .favorites).1
        wantToMeet := (list .wantToMeet).1
        met := (list .met).1
        notes := notes.1 }
    base := some n.base }

/-- `merge(a, aAt, b, bAt)`. -/
def merge (a b : StampedSettings) : PerEventSettings :=
  let na := normalize a
  let nb := normalize b
  denormalize
    { base := max na.base nb.base
      lists := fun f => mergeMaps (na.lists f) na.base (nb.lists f) nb.base
      notes := mergeMaps na.notes na.base nb.notes nb.base
      oddNotes := nb.oddNotes.spread na.oddNotes }

end SettingsMerge

/-! ## Versions -/

namespace EckIdentity

open Membership (EckVersion)
open ClientRoster (EckRef)

variable {K : Type} (fingerprint : K → Nat)

/-- `compareBy<EckVersion> { it.id }.thenBy { fingerprint(it.key) }` finds `a` no later than `b`. -/
def order (a b : EckVersion K) : Bool := a.id < b.id || (a.id = b.id && fingerprint a.key ≤ fingerprint b.key)

/-- `union(held, incoming)`. -/
def union [DecidableEq K] (held incoming : List (EckVersion K)) : List (EckVersion K) :=
  ((held ++ incoming).foldl (fun seen v => if v ∈ seen then seen else seen ++ [v]) []).mergeSort (order fingerprint)

/-- `candidates(versions, ref)`. -/
def candidates (versions : List (EckVersion K)) (ref : EckRef) : List (EckVersion K) :=
  let sameId := (versions.filter (·.id = ref.id)).mergeSort (order fingerprint)
  match ref.fp with
  | some fp => sameId.filter (fingerprint ·.key = fp)
  | none => sameId

end EckIdentity

/-! ## Backups -/

namespace KeysBackup

open Keystore (EventKeysBackup maxPriorInboxes maxOrganizers maxRevoked)
open SettingsMerge (takeLast)

variable {K : Type} [DecidableEq K] (fingerprint : K → Nat)

/-- `merge(a, b, configInbox)`. -/
def merge (inboxPubkey : JsString → Option JsString) (a b : EventKeysBackup K) (configInbox : Option JsString) : EventKeysBackup K :=
  let eck := EckIdentity.union fingerprint a.eck b.eck
  let inboxes := ([a.einbox_nsec, b.einbox_nsec] ++ a.prior_einbox_nsecs ++ b.prior_einbox_nsecs).eraseDups
  let current := (configInbox.bind fun c => inboxes.find? (inboxPubkey · = some c)).getD a.einbox_nsec
  { eid_nsec := a.eid_nsec
    einbox_nsec := current
    eck := eck
    coordinator_gen := max a.coordinator_gen b.coordinator_gen
    pending_eck := (EckIdentity.union fingerprint a.pending_eck b.pending_eck).filter (· ∉ eck)
    prior_einbox_nsecs := takeLast maxPriorInboxes (inboxes.filter (· ≠ current))
    co_organizers := ((a.co_organizers ++ b.co_organizers).eraseDups.mergeSort fun p q => !decide (q < p)).take maxOrganizers
    revoked := takeLast maxRevoked (b.revoked ++ a.revoked).eraseDups }

end KeysBackup

end Nostrautica.Android
