/-
The read state of direct messages: `reconcile` of `app/src/lib/events/dm-read-state.ts` and the
watermarks of `app/src/lib/stores/dm-unread.svelte.ts`, on the devices of an account.

A device here has loaded its watermarks. The document stands for what the newest event decrypts and
parses to, if it does.
-/
import Nostrautica.Js.Map
import Nostrautica.Protocol.Schemas

namespace Nostrautica.DmReadState

open Js

/-- `MAX_DM_READ_THREADS`. -/
def maxDmReadThreads : Nat := 200

structure DmPosition where
  at_ : Int
  id : JsString
  deriving DecidableEq

abbrev ReadWatermarks := JsMap JsString DmPosition

/-! ## Watermarks -/

/-- `compareDmPosition(a, b)`. -/
def compareDmPosition (a b : DmPosition) : Int :=
  if a.at_ ≠ b.at_ then a.at_ - b.at_ else if a.id = b.id then 0 else if b.id < a.id then 1 else -1

/-- A turn of the loop of `mergeWatermarks`. -/
def mergeEntry (merged : ReadWatermarks) (e : JsString × DmPosition) : ReadWatermarks :=
  match merged.get? e.1 with
  | none => merged.set e.1 e.2
  | some mine => if 0 < compareDmPosition e.2 mine then merged.set e.1 e.2 else merged

/-- `mergeWatermarks(a, b)`. -/
def mergeWatermarks (a b : ReadWatermarks) : ReadWatermarks := b.entries.foldl mergeEntry a

/-- `sameWatermarks(a, b)`. -/
def sameWatermarks (a b : ReadWatermarks) : Bool :=
  a.keys.length = b.keys.length &&
    a.entries.all fun e => (b.get? e.1).any fun position => compareDmPosition e.2 position = 0

/-- `mergeRemoteWatermarks(owner, remote)`, the watermarks after it. -/
def mergeRemoteWatermarks (watermarks remote : ReadWatermarks) : ReadWatermarks :=
  let merged := mergeWatermarks watermarks remote
  if sameWatermarks merged watermarks then watermarks else merged

/-! ## What is published -/

/-- What `sanitize` keeps, and the schema accepts. -/
def wellFormed (e : JsString × DmPosition) : Bool := isHex32 e.1 && isHex32 e.2.id && 0 ≤ e.2.at_

/-- `sanitize(watermarks)`. -/
def sanitize (watermarks : ReadWatermarks) : ReadWatermarks :=
  ⟨watermarks.entries.filter wellFormed, watermarks.nodup.sublist (List.filter_sublist.map _)⟩

/-- `clean[peer].at`. -/
def readAt (clean : ReadWatermarks) (peer : JsString) : Int := (clean.get? peer).elim 0 DmPosition.at_

/-- The peers by time, the newest first. -/
def byTime (clean : ReadWatermarks) : List JsString := clean.keys.mergeSort fun a b => readAt clean b ≤ readAt clean a

/-- `prunedForPublish(watermarks)`. -/
def prunedForPublish (watermarks : ReadWatermarks) : ReadWatermarks :=
  let clean := sanitize watermarks
  if clean.keys.length ≤ maxDmReadThreads then clean
  else ((byTime clean).take maxDmReadThreads).foldl
    (fun kept peer => (clean.get? peer).elim kept fun position => kept.set peer position) JsMap.empty

/-- `dmReadStateSchema`, of the threads. -/
def dmReadStateSchema (threads : ReadWatermarks) : Bool := threads.entries.all wellFormed && threads.keys.length ≤ maxDmReadThreads

/-- `fetchRemote(signer, pubkey)`. -/
def fetchRemote (doc : Option ReadWatermarks) : Option ReadWatermarks := doc.filter dmReadStateSchema

/-- `reconcile(signer)`: the watermarks after it, and what it publishes. -/
def reconcile (watermarks : ReadWatermarks) (doc : Option ReadWatermarks) : ReadWatermarks × Option ReadWatermarks :=
  let remote := fetchRemote doc
  let watermarks := remote.elim watermarks (mergeRemoteWatermarks watermarks)
  let pruned := prunedForPublish watermarks
  if pruned.keys.length = 0 then (watermarks, none)
  else if remote.any (sameWatermarks pruned) = true then (watermarks, none)
  else (watermarks, some pruned)

/-! ## Devices -/

/-- The watermarks of each device, and the document on the relays. -/
structure World (δ : Type) where
  watermarks : δ → ReadWatermarks
  doc : Option ReadWatermarks

variable {δ : Type} [DecidableEq δ]

/-- A round of a device. -/
def World.round (w : World δ) (d : δ) : World δ where
  watermarks := Function.update w.watermarks d (reconcile (w.watermarks d) w.doc).1
  doc := (reconcile (w.watermarks d) w.doc).2.or w.doc

/-- Rounds of devices, one after the other. -/
def World.rounds (w : World δ) (ds : List δ) : World δ := ds.foldl World.round w

end Nostrautica.DmReadState
