/-
ISO-BMFF files (mp4, m4a, mov, 3gp) in `app/src/lib/media/strip-metadata.ts`: the boxes,
the sample tables and `stripIsoBmff`.

`fuel` bounds the passes of each loop and the depth of the boxes.
-/
import Nostrautica.Media.Bytes

namespace Nostrautica.Media

open Js

/-- `ISO_FIRST_BOXES`. -/
def isoFirstBoxes : List JsString :=
  [js "ftyp", js "moov", js "mdat", js "free", js "skip", js "wide", js "pnot", js "uuid", js "styp"]

/-- `ISO_META_BOXES`. -/
def isoMetaBoxes : List JsString := [js "udta", js "meta", js "uuid"]

/-- `ISO_TOP_EXTRA`. -/
def isoTopExtra : List JsString := [js "prft", js "free", js "skip", js "wide"]

/-- `ISO_AV_HANDLERS`. -/
def isoAvHandlers : List JsString := [js "vide", js "soun"]

/-- `MAX_MOOV_BYTES`. -/
def maxMoovBytes : Nat := 64 * 1024 * 1024

structure Box where
  type : JsString
  start : Nat
  headerLen : Nat
  stop : Nat
  deriving DecidableEq

/-- Where the payload of a box begins. -/
def Box.payload (c : Box) : Nat := c.start + c.headerLen

/-- The size that `parseBox` reads: of 64 bits after a 1, and up to the limit after a 0. -/
def boxSize (b : Bytes) (offset limit : Nat) : Strip Nat :=
  let size32 := u32be b offset
  if size32 = 1 then if offset + 16 > limit then fail "truncated largesize" else u64be b (offset + 8)
  else if size32 = 0 then .done (limit - offset)
  else .done size32

/-- `parseBox(b, at, limit, base)`. -/
def parseBox (b : Bytes) (offset limit base : Nat) : Strip Box :=
  if offset + 8 > limit then fail "truncated box header"
  else do
    let type := ascii b (offset + 4) 4
    let headerLen := if u32be b offset = 1 then 16 else 8
    let size ← boxSize b offset limit
    if size < headerLen ∨ offset + size > limit then fail ("bad size for box '" ++ shown type ++ "'")
    else .done ⟨type, base + offset, headerLen, base + offset + size⟩

/-- The next box of `isoChildren(b, from, to)`, where there is one. -/
def nextChild (b : Bytes) (offset stop : Nat) : Strip (Option Box) :=
  if stop ≤ offset then .done none
  else if stop - offset < 8 then
    if stop - offset = 4 ∧ u32be b offset = 0 then .done none else fail "trailing bytes in box"
  else some <$> parseBox b offset stop 0

/-- `freeBoxInPlace(b, box)`. -/
def freeBoxInPlace (b : Bytes) (box : Box) : Bytes := zero (set b (box.start + 4) [0x66, 0x72, 0x65, 0x65]) box.payload box.stop

/-- How long the times of a box are: both of 64 bits in version 1, and of 32 in version 0. -/
def timesLen (type : JsString) (version : Nat) : Strip Nat :=
  if version = 1 then .done 16 else if version = 0 then .done 8 else fail ("unknown '" ++ shown type ++ "' version")

/-- `zeroTimes(b, box)`. -/
def zeroTimes (b : Bytes) (box : Box) : Strip Bytes :=
  let p := box.payload
  if p + 4 > box.stop then fail ("truncated '" ++ shown box.type ++ "'")
  else do
    let len ← timesLen box.type (u8 b p)
    if p + 4 + len > box.stop then fail ("truncated '" ++ shown box.type ++ "'")
    else .done (zero b (p + 4) (p + 4 + len))

/-- One pass of `findChild`. -/
def findPass (b : Bytes) (type : JsString) (stop offset : Nat) : Strip (Walk.Pass Nat (Option Box)) := do
  match ← nextChild b offset stop with
  | none => .done (.stop none)
  | some c => if c.type = type then .done (.stop (some c)) else .done (.next c.stop)

/-- `findChild(b, parent, type)`. -/
def findChild (fuel : Nat) (b : Bytes) (parent : Box) (type : JsString) : Strip (Option Box) :=
  Walk.loop (findPass b type parent.stop) fuel parent.payload

/-- `findChild(b, parent, type) ?? fail(why)`. -/
def requireChild (fuel : Nat) (b : Bytes) (parent : Box) (type : JsString) (why : String) : Strip Box := do
  match ← findChild fuel b parent type with
  | some c => .done c
  | none => fail why

/-- `trackHandler(b, trak)`. -/
def trackHandler (fuel : Nat) (b : Bytes) (trak : Box) : Strip JsString := do
  let mdia ← requireChild fuel b trak (js "mdia") "track without mdia"
  let hdlr ← requireChild fuel b mdia (js "hdlr") "track without hdlr"
  if hdlr.payload + 12 > hdlr.stop then fail "truncated hdlr" else .done (ascii b (hdlr.payload + 8) 4)

/-! ## Sample tables -/

/-- Where the size of a sample is read. -/
inductive Sizes
  | fixed (size : Nat)
  | stsz (offset : Nat)
  | stz2 (field offset : Nat)
  deriving DecidableEq

/-- `sizes(i)`. -/
def Sizes.at (b : Bytes) (i : Nat) : Sizes → Nat
  | fixed size => size
  | stsz offset => u32be b (offset + i * 4)
  | stz2 field q =>
    if field = 16 then u8 b (q + i * 2) * 2 ^ 8 + u8 b (q + i * 2 + 1)
    else if field = 8 then u8 b (q + i)
    else if i % 2 = 0 then u8 b (q + i / 2) / 16 else u8 b (q + i / 2) % 16

/-- What `trackSampleRanges` has read of the tables. -/
structure SampleTables where
  sizes : Option Sizes := none
  sampleCount : Nat := 0
  offsets : Option (List Nat) := none
  stsc : List (Nat × Nat) := []

/-- The chunk offset at `i` of `stco` or `co64`. -/
def offsetAt (b : Bytes) (p w i : Nat) : Strip Nat := if w = 8 then u64be b (p + 4 + i * 8) else .done (u32be b (p + 4 + i * 4))

/-- The offsets of `stco` or `co64`, of `w` bytes each. -/
def readOffsets (b : Bytes) (p w : Nat) : List Nat → Strip (List Nat)
  | [] => .done []
  | i :: is => do
    let v ← offsetAt b p w i
    let rest ← readOffsets b p w is
    .done (v :: rest)

/-- One box of `stbl`. -/
def readTable (b : Bytes) (t : SampleTables) (c : Box) : Strip SampleTables :=
  let p := c.payload + 4
  let short (n : Nat) : Bool := p + n > c.stop
  let truncated : Strip SampleTables := fail ("truncated '" ++ shown c.type ++ "'")
  if c.type = js "stsz" then
    if short 8 then truncated
    else
      let fixed := u32be b p
      let sampleCount := u32be b (p + 4)
      if fixed = 0 && short (8 + sampleCount * 4) then truncated
      else .done { t with sampleCount, sizes := some (if fixed ≠ 0 then .fixed fixed else .stsz (p + 8)) }
  else if c.type = js "stz2" then
    if short 8 then truncated
    else
      let field := u8 b (p + 3)
      let sampleCount := u32be b (p + 4)
      if field ≠ 4 ∧ field ≠ 8 ∧ field ≠ 16 then fail "bad stz2 field size"
      else if short (8 + (sampleCount * field + 7) / 8) then truncated
      else .done { t with sampleCount, sizes := some (.stz2 field (p + 8)) }
  else if c.type = js "stco" ∨ c.type = js "co64" then
    if short 4 then truncated
    else do
      let n := u32be b p
      let w := if c.type = js "co64" then 8 else 4
      if short (4 + n * w) then truncated
      else
        let offsets ← readOffsets b p w (List.range n)
        .done { t with offsets := some offsets }
  else if c.type = js "stsc" then
    if short 4 then truncated
    else
      let n := u32be b p
      if short (4 + n * 12) then truncated
      else .done { t with stsc := t.stsc ++ (List.range n).map fun i => (u32be b (p + 4 + i * 12), u32be b (p + 8 + i * 12)) }
  else .done t

/-- One pass over the boxes of `stbl`. -/
def tablePass (b : Bytes) (stop : Nat) (s : Nat × SampleTables) : Strip (Walk.Pass (Nat × SampleTables) SampleTables) := do
  match ← nextChild b s.1 stop with
  | none => .done (.stop s.2)
  | some c =>
    let t ← readTable b s.2 c
    .done (.next (c.stop, t))

/-- `while (entry + 1 < stsc.length && stsc[entry + 1]![0] <= chunk) entry++`, from the entry and those after it. -/
def advance (chunk : Nat) : Nat × Nat → List (Nat × Nat) → (Nat × Nat) × List (Nat × Nat)
  | entry, [] => (entry, [])
  | entry, next :: rest => if next.1 ≤ chunk then advance chunk next rest else (entry, next :: rest)

/-- A range more, or the last one longer; the ranges are reversed. -/
def pushRange (offset len : Nat) : List (Nat × Nat) → List (Nat × Nat)
  | (s, e) :: ranges =>
    if e = offset then (s, offset + len) :: ranges
    else if len > 0 then (offset, offset + len) :: (s, e) :: ranges
    else (s, e) :: ranges
  | [] => if len > 0 then [(offset, offset + len)] else []

/-- The loop over the chunks: the sample it comes to, and the ranges. -/
def chunkRanges (size : Nat → Nat) (sampleCount : Nat) :
    List Nat → (chunk sample : Nat) → Nat × Nat → List (Nat × Nat) → List (Nat × Nat) → Nat × List (Nat × Nat)
  | [], _, sample, _, _, ranges => (sample, ranges.reverse)
  | offset :: offsets, chunk, sample, entry, later, ranges =>
    if sampleCount ≤ sample then (sample, ranges.reverse)
    else
      let (entry, later) := advance chunk entry later
      let taken := min entry.2 (sampleCount - sample)
      let len := ((List.range taken).map fun k => size (sample + k)).sum
      chunkRanges size sampleCount offsets (chunk + 1) (sample + taken) entry later (pushRange offset len ranges)

/-- `trackSampleRanges(b, trak)`. -/
def trackSampleRanges (fuel : Nat) (b : Bytes) (trak : Box) : Strip (List (Nat × Nat)) := do
  let mdia ← requireChild fuel b trak (js "mdia") "track without mdia"
  let minf ← requireChild fuel b mdia (js "minf") "track without minf"
  let stbl ← requireChild fuel b minf (js "stbl") "track without stbl"
  let t ← Walk.loop (tablePass b stbl.stop) fuel (stbl.payload, {})
  if t.sampleCount = 0 then .done []
  else
    match t.sizes, t.offsets, t.stsc with
    | some sizes, some offsets, entry :: later =>
      let (sample, ranges) := chunkRanges (sizes.at b) t.sampleCount offsets 1 0 entry later []
      if sample ≠ t.sampleCount then fail "sample tables disagree" else .done ranges
    | _, _, _ => fail "incomplete sample tables"

/-! ## The passes -/

/-- What `walk` of `stripMoov` does with a box: the bytes and the ranges of dropped samples after it. -/
def stripBox (walk : Bytes → List (Nat × Nat) → Nat → Nat → Strip (Bytes × List (Nat × Nat))) (fragmented : Bool) (fuel : Nat)
    (b : Bytes) (ranges : List (Nat × Nat)) (c : Box) : Strip (Bytes × List (Nat × Nat)) :=
  if c.type ∈ isoMetaBoxes then .done (freeBoxInPlace b c, ranges)
  else if c.type = js "mvhd" ∨ c.type = js "tkhd" ∨ c.type = js "mdhd" then do
    let b ← zeroTimes b c
    .done (b, ranges)
  else if c.type = js "trak" then do
    let handler ← trackHandler fuel b c
    if handler ∉ isoAvHandlers then
      if fragmented then fail "non-audio/video track in a fragmented file"
      else do
        let dropped ← trackSampleRanges fuel b c
        .done (freeBoxInPlace b c, ranges ++ dropped)
    else walk b ranges c.payload c.stop
  else if c.type = js "mdia" ∨ c.type = js "minf" ∨ c.type = js "edts" ∨ c.type = js "mvex" then walk b ranges c.payload c.stop
  else .done (b, ranges)

/-- `walk` of `stripMoov`: the boxes in a range; with the ranges of dropped samples so far. -/
def walkBoxes (fragmented : Bool) : Nat → Bytes → List (Nat × Nat) → Nat → Nat → Strip (Bytes × List (Nat × Nat))
  | 0, _, _, _, _ => .running
  | fuel + 1, b, ranges, offset, stop => do
    match ← nextChild b offset stop with
    | none => .done (b, ranges)
    | some c =>
      let (b, ranges) ← stripBox (walkBoxes fragmented fuel) fragmented fuel b ranges c
      walkBoxes fragmented fuel b ranges c.stop stop

/-- `stripMoov(b, moov, fragmented)`. -/
def stripMoov (fuel : Nat) (b : Bytes) (moov : Box) (fragmented : Bool) : Strip (Bytes × List (Nat × Nat)) :=
  walkBoxes fragmented fuel b [] moov.payload moov.stop

/-- What the walk over the top level has found. -/
structure TopLevel where
  offset : Nat := 0
  edits : List Edit := []
  mdats : List (Nat × Nat) := []
  moov : Option Box := none
  fragmented : Bool := false

/-- One pass of the walk over the top level. -/
def isoPass (file : Bytes) (s : TopLevel) : Strip (Walk.Pass TopLevel TopLevel) :=
  if file.length ≤ s.offset then .done (.stop s)
  else do
    let head ← readAt file s.offset (min 16 (file.length - s.offset))
    let box ← parseBox head 0 (file.length - s.offset) s.offset
    let s' := { s with offset := box.stop }
    if box.type = js "moov" then if s.moov.isSome then fail "two moov boxes" else .done (.next { s' with moov := some box })
    else if box.type = js "mdat" then .done (.next { s' with mdats := s.mdats ++ [(box.payload, box.stop)] })
    else if box.type = js "moof" then .done (.next { s' with fragmented := true })
    else if box.type ∈ isoMetaBoxes ∨ box.type ∈ isoTopExtra then
      let header := set (slice head 0 box.headerLen) 4 [0x66, 0x72, 0x65, 0x65]
      .done (.next { s' with edits := s.edits ++ [.bytes box.start header, .zeros box.payload (box.stop - box.start - box.headerLen)] })
    else .done (.next s')

/-- The edits of dropped samples, which have to be in an `mdat`. -/
def sampleEdits (mdats : List (Nat × Nat)) : List (Nat × Nat) → Strip (List Edit)
  | [] => .done []
  | (s, e) :: rest =>
    if mdats.any fun (ms, me) => ms ≤ s && e ≤ me then do
      let edits ← sampleEdits mdats rest
      .done (.zeros s (e - s) :: edits)
    else fail "track samples outside mdat"

/-- `stripIsoBmff(file)`. -/
def stripIsoBmff (fuel : Nat) (file : Bytes) : Strip Bytes := do
  let top ← Walk.loop (isoPass file) fuel {}
  match top.moov with
  | none => fail "no moov box"
  | some moov =>
    let moovLen := moov.stop - moov.start
    if moovLen > maxMoovBytes then fail "moov too large"
    else
      let buf ← readAt file moov.start moovLen
      let (buf, dropped) ← stripMoov fuel buf { moov with start := 0, stop := moovLen } top.fragmented
      let samples ← sampleEdits top.mdats dropped
      assemble file (top.edits ++ [.bytes moov.start buf] ++ samples) 0 file.length

end Nostrautica.Media
