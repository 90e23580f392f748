/-
Ogg files (Opus, Vorbis and FLAC-in-Ogg) in `app/src/lib/media/strip-metadata.ts`: pages,
the packets they carry, and `stripOgg`.

`fuel` bounds the passes of the loop over the pages.
-/
import Nostrautica.Js.Map
import Nostrautica.Media.Matroska

namespace Nostrautica.Media

open Js

/-! ## CRC -/

/-- One bit of an entry of `OGG_CRC_TABLE`. -/
def crcBit (r : UInt32) : UInt32 := if r &&& 0x80000000 ≠ 0 then (r <<< 1) ^^^ 0x04c11db7 else r <<< 1

/-- `OGG_CRC_TABLE[i]`. -/
def crcEntry (i : UInt32) : UInt32 := crcBit^[8] (i <<< 24)

/-- `oggCrc(b)`. -/
def oggCrc (b : Bytes) : UInt32 := b.foldl (fun c x => (c <<< 8) ^^^ crcEntry (((c >>> 24) ^^^ x.toUInt32) &&& 0xff)) 0

/-- A CRC as a page stores it. -/
def crcBytes (crc : UInt32) : Bytes := [crc.toUInt8, (crc >>> 8).toUInt8, (crc >>> 16).toUInt8, (crc >>> 24).toUInt8]

/-! ## Pages and packets -/

structure OggPage where
  start : Nat
  stop : Nat
  bodyStart : Nat
  flags : Nat
  serial : Nat
  lacing : List Nat
  deriving DecidableEq

/-- A run of a packet's bytes. -/
structure OggSpan where
  page : Nat
  offset : Nat
  len : Nat
  deriving DecidableEq

inductive OggCodec
  | opus
  | vorbis
  | flac
  deriving DecidableEq

structure OggStream where
  codec : Option OggCodec := none
  headers : Nat := 1
  packets : List (List OggSpan) := []
  partialSpans : Option (List OggSpan) := none
  deriving DecidableEq

/-- `readOggPage(r, at, size)`. -/
def readOggPage (file : Bytes) (offset : Nat) : Strip OggPage :=
  if offset + 27 > file.length then fail "truncated Ogg page"
  else do
    let h ← windowBytes file offset 27
    if ascii h 0 4 ≠ js "OggS" ∨ u8 h 4 ≠ 0 then fail "bad Ogg page"
    else
      let flags := u8 h 5
      let serial := u32le h 14
      let n := u8 h 26
      if offset + 27 + n > file.length then fail "truncated Ogg page"
      else
        let lacing ← windowBytes file (offset + 27) n
        let lacing := lacing.map UInt8.toNat
        let stop := offset + 27 + n + lacing.sum
        if stop > file.length then fail "Ogg page runs past the end"
        else .done ⟨offset, stop, offset + 27 + n, flags, serial, lacing⟩

/-- `readPacket(file, spans)`. -/
def readPacket (file : Bytes) : List OggSpan → Strip Bytes
  | [] => .done []
  | s :: rest => do
    let part ← readAt file s.offset s.len
    let parts ← readPacket file rest
    .done (part ++ parts)

/-- `oggCodec(b)`. -/
def oggCodec (b : Bytes) : Strip (OggCodec × Nat) :=
  if ascii b 0 8 = js "OpusHead" then .done (.opus, 2)
  else if u8 b 0 = 1 ∧ ascii b 1 6 = js "vorbis" then .done (.vorbis, 3)
  else if u8 b 0 = 0x7f ∧ ascii b 1 4 = js "FLAC" ∧ b.length ≥ 9 then
    let n := u8 b 7 * 2 ^ 8 + u8 b 8
    if n = 0 then fail "Ogg FLAC without a header count" else .done (.flac, 1 + n)
  else fail "unknown Ogg codec"

/-- `oggCleanHeader(codec, index, b)`. -/
def oggCleanHeader (codec : OggCodec) (index : Nat) (b : Bytes) : Strip (Option Bytes) :=
  let out : Bytes := List.replicate b.length 0
  match codec with
  | .opus =>
    if ascii b 0 8 ≠ js "OpusTags" ∨ b.length < 16 then fail "bad OpusTags" else .done (some (set out 0 (slice b 0 8)))
  | .vorbis =>
    if u8 b 0 ≠ (if index = 1 then 3 else 5) ∨ ascii b 1 6 ≠ js "vorbis" then fail "bad Vorbis header"
    else if index = 2 then .done none
    else if b.length < 16 then fail "bad Vorbis comment header"
    else .done (some (set (set out 0 (slice b 0 7)) 15 [1]))
  | .flac =>
    let type := u8 b 0 % 0x80
    let len : Int := if b.length ≥ 4 then u8 b 1 * 2 ^ 16 + u8 b 2 * 2 ^ 8 + u8 b 3 else -1
    if len + 4 ≠ b.length ∨ type = 127 ∨ type = 0 then fail "bad Ogg FLAC metadata block"
    else if type = 3 then .done none
    else
      let out := set out 0 (slice b 0 4)
      if type = 4 then if len < 8 then fail "bad Ogg FLAC comment block" else .done (some out)
      else .done (some (set out 0 [UInt8.ofNat (if u8 b 0 ≥ 0x80 then 0x81 else 1)]))

/-! ## The passes -/

/-- The loop over the lacing values of a page. -/
def lacePackets (file : Bytes) (page : Nat) : List Nat → (pos : Nat) → OggStream → Strip OggStream
  | [], _, s => .done s
  | v :: lacing, pos, s =>
    if s.packets.length ≥ s.headers then .done s
    else
      let spans := s.partialSpans.getD [] ++ if v > 0 then [⟨page, pos, v⟩] else []
      if v < 255 then
        let s := { s with packets := s.packets ++ [spans], partialSpans := none }
        if s.packets.length = 1 then do
          let b ← readPacket file spans
          let (codec, headers) ← oggCodec b
          lacePackets file page lacing (pos + v) { s with codec := some codec, headers }
        else lacePackets file page lacing (pos + v) s
      else lacePackets file page lacing (pos + v) { s with partialSpans := some spans }

/-- What the walk over the pages has found. -/
structure OggFile where
  offset : Nat := 0
  streams : List (Nat × OggStream) := []
  /-- Pages that carry header packets: where they begin, and where they end. -/
  headerPages : List (Nat × Nat) := []

/-- The stream of a page: a new one where the page begins one. -/
def pageStream (streams : List (Nat × OggStream)) (page : OggPage) : Strip OggStream :=
  if page.flags &&& 0x02 ≠ 0 then
    if (look page.serial streams).isSome then fail "second BOS page for an Ogg stream" else .done {}
  else
    match look page.serial streams with
    | some s => .done s
    | none => fail "Ogg page for a stream that never began"

/-- One pass of the walk over the pages. -/
def oggPass (file : Bytes) (f : OggFile) : Strip (Walk.Pass OggFile OggFile) :=
  if file.length ≤ f.offset then .done (.stop f)
  else do
    let page ← readOggPage file f.offset
    let s ← pageStream f.streams page
    if s.packets.length ≥ s.headers then .done (.next { f with offset := page.stop, streams := put page.serial s f.streams })
    else if decide (page.flags &&& 0x01 ≠ 0) ≠ s.partialSpans.isSome then fail "broken Ogg packet continuation"
    else
      let s ← lacePackets file page.start page.lacing page.bodyStart s
      .done (.next ⟨page.stop, put page.serial s f.streams, put page.start page.stop f.headerPages⟩)

/-- The pages that are patched: a page's own copy, with its CRC zeroed once it is checked. -/
def patchedPage (file : Bytes) (headerPages : List (Nat × Nat)) (pages : List (Nat × Bytes)) (page : Nat) : Strip Bytes :=
  match look page pages with
  | some buf => .done buf
  | none => do
    let buf ← readAt file page ((look page headerPages).getD 0 - page)
    let stored := u32le buf 22
    let buf := zero buf 22 26
    if (oggCrc buf).toNat ≠ stored then fail "bad Ogg page CRC" else .done buf

/-- The loop that lays a clean packet over its spans, from byte `k` of it on. -/
def patchSpans (file : Bytes) (headerPages : List (Nat × Nat)) (clean : Bytes) : List OggSpan → (k : Nat) → List (Nat × Bytes) →
    Strip (List (Nat × Bytes))
  | [], _, pages => .done pages
  | span :: spans, k, pages => do
    let buf ← patchedPage file headerPages pages span.page
    let buf := set buf (span.offset - span.page) (slice clean k (k + span.len))
    patchSpans file headerPages clean spans (k + span.len) (put span.page buf pages)

/-- The loop over the header packets of a stream, from packet `i` on. -/
def patchPackets (file : Bytes) (headerPages : List (Nat × Nat)) (codec : OggCodec) : List (List OggSpan) → (i : Nat) →
    List (Nat × Bytes) → Strip (List (Nat × Bytes))
  | [], _, pages => .done pages
  | spans :: packets, i, pages => do
    let b ← readPacket file spans
    match ← oggCleanHeader codec i b with
    | none => patchPackets file headerPages codec packets (i + 1) pages
    | some clean =>
      let pages ← patchSpans file headerPages clean spans 0 pages
      patchPackets file headerPages codec packets (i + 1) pages

/-- The loop over the streams. -/
def patchStreams (file : Bytes) (headerPages : List (Nat × Nat)) : List (Nat × OggStream) → List (Nat × Bytes) → Strip (List (Nat × Bytes))
  | [], pages => .done pages
  | (_, s) :: streams, pages =>
    match s.codec with
    | none => fail "Ogg headers incomplete"
    | some codec =>
      if s.packets.length < s.headers then fail "Ogg headers incomplete"
      else do
        let pages ← patchPackets file headerPages codec ((s.packets.take s.headers).drop 1) 1 pages
        patchStreams file headerPages streams pages

/-- A patched page with its new CRC. -/
def pageEdit (p : Nat × Bytes) : Edit :=
  let buf := zero p.2 22 26
  .bytes p.1 (set buf 22 (crcBytes (oggCrc buf)))

/-- `stripOgg(file)`. -/
def stripOgg (fuel : Nat) (file : Bytes) : Strip Bytes := do
  let f ← Walk.loop (oggPass file) fuel {}
  if f.streams = [] then fail "no Ogg stream"
  else
    let pages ← patchStreams file f.headerPages f.streams []
    assemble file (pages.map pageEdit) 0 file.length

end Nostrautica.Media
