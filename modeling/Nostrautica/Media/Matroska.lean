/-
Matroska and WebM files in `app/src/lib/media/strip-metadata.ts`: EBML elements, the
voiding of some of them and `stripMatroska`.

`WindowReader` reads ahead: what it returns is what is in the file. `fuel` bounds the
passes of each loop and the depth of the elements.
-/
import Nostrautica.Media.Bytes

namespace Nostrautica.Media

open Js

/-- `MKV`: element ids. -/
def mkvEbml : Nat := 0x1a45dfa3

def mkvSegment : Nat := 0x18538067

def mkvSeekHead : Nat := 0x114d9b74

def mkvSeek : Nat := 0x4dbb

def mkvSeekId : Nat := 0x53ab

def mkvInfo : Nat := 0x1549a966

def mkvDateUtc : Nat := 0x4461

def mkvTitle : Nat := 0x7ba9

def mkvMuxingApp : Nat := 0x4d80

def mkvWritingApp : Nat := 0x5741

def mkvTracks : Nat := 0x1654ae6b

def mkvTrackEntry : Nat := 0xae

def mkvName : Nat := 0x536e

def mkvCluster : Nat := 0x1f43b675

def mkvTags : Nat := 0x1254c367

def mkvAttachments : Nat := 0x1941a469

def mkvChapters : Nat := 0x1043a770

def mkvVoid : Nat := 0xec

def mkvCrc32 : Nat := 0xbf

/-- `MKV_DROP`. -/
def mkvDrop : List Nat := [mkvTags, mkvAttachments, mkvChapters]

/-- `MKV_CLUSTER_CHILDREN`. -/
def mkvClusterChildren : List Nat := [0xe7, 0x5854, 0xa7, 0xab, 0xa0, 0xa3, 0xaf, mkvVoid, mkvCrc32]

/-- `MAX_MKV_MASTER_BYTES`. -/
def maxMkvMasterBytes : Nat := 16 * 1024 * 1024

structure Ebml where
  id : Nat
  start : Nat
  dataStart : Nat
  /-- `none` where it is unknown. -/
  size : Option Nat
  deriving DecidableEq

/-- `WindowReader.bytes(pos, n)`. -/
def windowBytes (file : Bytes) (pos n : Nat) : Strip Bytes :=
  if pos + n > file.length then fail "truncated element" else .done (slice file pos (pos + n))

/-- The length of an id, from its first byte; zero where it is none. -/
def idLength (first : Nat) : Nat := if first ≥ 0x80 then 1 else if first ≥ 0x40 then 2 else if first ≥ 0x20 then 3 else if first ≥ 0x10 then 4 else 0

/-- The length of a size, from its first byte; nine where it is none. -/
def sizeLength (lead : Nat) : Nat := 8 - Nat.log2 lead + if lead = 0 then 1 else 0

/-- The number that `n` bytes from `at` on spell, the first the highest, after `value`. -/
def bigEndian (b : Bytes) (offset n value : Nat) : Nat := (List.range n).foldl (fun v i => v * 256 + u8 b (offset + i)) value

/-- `parseEbml(b, at, limit, base)`. -/
def parseEbml (b : Bytes) (offset limit base : Nat) : Strip Ebml :=
  if limit ≤ offset then fail "truncated element"
  else
    let idLen := idLength (u8 b offset)
    if idLen = 0 then fail "bad element ID"
    else if limit ≤ offset + idLen then fail "truncated element"
    else
      let id := bigEndian b offset idLen 0
      let s := offset + idLen
      let lead := u8 b s
      let sizeLen := sizeLength lead
      if sizeLen > 8 then fail "bad element size"
      else if s + sizeLen > limit then fail "truncated element"
      else
        let first := lead % 2 ^ (8 - sizeLen)
        let allOnes := first = 2 ^ (8 - sizeLen) - 1 ∧ ∀ i < sizeLen - 1, u8 b (s + 1 + i) = 0xff
        let value := bigEndian b (s + 1) (sizeLen - 1) first
        if ¬ allOnes ∧ value > maxSafeInteger then fail "element size out of range"
        else .done ⟨id, base + offset, base + s + sizeLen, if allOnes then none else some value⟩

/-- `readEbml(r, pos, limit)`. -/
def readEbml (file : Bytes) (pos limit : Nat) : Strip Ebml := do
  let n := min 12 (limit - pos)
  if n < 2 then fail "truncated element"
  else
    let b ← windowBytes file pos n
    parseEbml b 0 n pos

/-- `ebmlEnd(e, limit)`. -/
def ebmlEnd (e : Ebml) (limit : Nat) : Strip Nat :=
  match e.size with
  | none => fail "unknown-size element where a size is required"
  | some size => if e.dataStart + size > limit then fail "element runs past its parent" else .done (e.dataStart + size)

/-- `v` in `w` bytes, the highest first. -/
def toBytes (w v : Nat) : Bytes := (List.range w).map fun i => UInt8.ofNat (v / 256 ^ (w - 1 - i))

/-- The header of a Void of `w` size bytes that holds `v`. -/
def voidBytes (w v : Nat) : Bytes := UInt8.ofNat mkvVoid :: toBytes w (v + 2 ^ (7 * w))

/-- `voidHeader(total)`. -/
def voidHeader (total : Nat) : Strip Bytes :=
  match [1, 2, 3, 4, 5, 6, 7, 8].find? fun w => 1 + w ≤ total && total - 1 - w ≤ 2 ^ (7 * w) - 2 with
  | some w => .done (voidBytes w (total - 1 - w))
  | none => fail "element too small to void"

/-- `voidInPlace(b, start, end)`. -/
def voidInPlace (b : Bytes) (start stop : Nat) : Strip Bytes := do
  let h ← voidHeader (stop - start)
  .done (zero (set b start h) (start + h.length) stop)

/-- `for (const [s, e] of crcs) voidInPlace(b, s, e)`. -/
def voidAll (b : Bytes) : List (Nat × Nat) → Strip Bytes
  | [] => .done b
  | (s, e) :: rest => do
    let b ← voidInPlace b s e
    voidAll b rest

/-- The end of `voidChildren`: a CRC no longer holds where something changed. -/
def voidCrcs (b : Bytes) (changed : Bool) (crcs : List (Nat × Nat)) : Strip (Bytes × Bool) :=
  if changed then do
    let b ← voidAll b crcs
    .done (b, true)
  else .done (b, false)

/-- `voidChildren(b, from, to, drop, into)`: the bytes, and whether they changed, with the CRC elements so far. -/
def voidChildren (drop : Bytes → Ebml → Nat → Strip Bool) (into : List Nat) :
    Nat → Bytes → Nat → Nat → Bool → List (Nat × Nat) → Strip (Bytes × Bool)
  | 0, _, _, _, _, _ => .running
  | fuel + 1, b, offset, stop, changed, crcs =>
    if stop ≤ offset then voidCrcs b changed crcs
    else do
      let c ← parseEbml b offset stop 0
      match c.size with
      | none => fail "unknown-size child"
      | some size =>
        let cEnd := c.dataStart + size
        if cEnd > stop then fail "child runs past its parent"
        else if c.id = mkvCrc32 then voidChildren drop into fuel b cEnd stop changed (crcs ++ [(c.start, cEnd)])
        else do
          if ← drop b c cEnd then
            let b ← voidInPlace b c.start cEnd
            voidChildren drop into fuel b cEnd stop true crcs
          else if c.id ∈ into then
            let (b, inner) ← voidChildren drop into fuel b c.dataStart cEnd false []
            voidChildren drop into fuel b cEnd stop (changed || inner) crcs
          else voidChildren drop into fuel b cEnd stop changed crcs

/-- One pass of `seekTarget`. -/
def seekPass (b : Bytes) (stop offset : Nat) : Strip (Walk.Pass Nat Nat) :=
  if stop ≤ offset then .done (.stop 0)
  else do
    let g ← parseEbml b offset stop 0
    match g.size with
    | none => fail "bad Seek entry"
    | some size =>
      if g.dataStart + size > stop then fail "bad Seek entry"
      else if g.id = mkvSeekId then
        if size > 4 then fail "bad SeekID" else .done (.stop (bigEndian b g.dataStart size 0))
      else .done (.next (g.dataStart + size))

/-- `seekTarget(b, from, to)`. -/
def seekTarget (fuel : Nat) (b : Bytes) (start stop : Nat) : Strip Nat := Walk.loop (seekPass b stop) fuel start

/-- `new Set([MKV.DateUTC, MKV.Title, MKV.MuxingApp, MKV.WritingApp])`. -/
def mkvInfoDrop : List Nat := [mkvDateUtc, mkvTitle, mkvMuxingApp, mkvWritingApp]

/-- The children that are voided of an `Info`, a `Tracks` or a `SeekHead`. -/
def dropChild (fuel : Nat) (master : Nat) (b : Bytes) (c : Ebml) (cEnd : Nat) : Strip Bool :=
  if master = mkvInfo then .done (c.id ∈ mkvInfoDrop)
  else if master = mkvTracks then .done (c.id = mkvName)
  else if master = mkvSeekHead ∧ c.id = mkvSeek then (fun id => decide (id ∈ mkvDrop)) <$> seekTarget fuel b c.dataStart cEnd
  else .done false

/-- `stripMkvMaster(r, el, end, edits)`: the edits it adds. -/
def stripMkvMaster (fuel : Nat) (file : Bytes) (el : Ebml) (stop : Nat) : Strip (List Edit) :=
  let len := stop - el.start
  if len > maxMkvMasterBytes then fail "metadata element too large"
  else do
    let buf ← readAt file el.start len
    let (buf, changed) ← voidChildren (dropChild fuel el.id) (if el.id = mkvTracks then [mkvTrackEntry] else []) fuel buf
      (el.dataStart - el.start) len false []
    .done (if changed then [.bytes el.start buf] else [])

/-- One pass over the children of a cluster of unknown size. -/
def clusterPass (file : Bytes) (segEnd pos : Nat) : Strip (Walk.Pass Nat Nat) :=
  if segEnd ≤ pos then .done (.stop pos)
  else do
    let c ← readEbml file pos segEnd
    if c.id ∉ mkvClusterChildren then .done (.stop pos) else .next <$> ebmlEnd c segEnd

/-- One pass over the children of a segment, with the edits so far. -/
def segmentPass (fuel : Nat) (file : Bytes) (segEnd : Nat) (s : Nat × List Edit) : Strip (Walk.Pass (Nat × List Edit) (List Edit)) :=
  if segEnd ≤ s.1 then .done (.stop s.2)
  else do
    let el ← readEbml file s.1 segEnd
    if el.size.isNone then
      if el.id ≠ mkvCluster then fail "unknown-size element other than a Cluster"
      else
        let pos ← Walk.loop (clusterPass file segEnd) fuel el.dataStart
        .done (.next (pos, s.2))
    else
      let stop ← ebmlEnd el segEnd
      if el.id ∈ mkvDrop then
        let h ← voidHeader (stop - el.start)
        .done (.next (stop, s.2 ++ [.bytes el.start h, .zeros (el.start + h.length) (stop - el.start - h.length)]))
      else if el.id = mkvInfo ∨ el.id = mkvTracks ∨ el.id = mkvSeekHead then
        let edits ← stripMkvMaster fuel file el stop
        .done (.next (stop, s.2 ++ edits))
      else .done (.next (stop, s.2))

/-- Where a segment ends, at the end of the file where its size is unknown. -/
def segmentEnd (file : Bytes) (top : Ebml) : Strip Nat := if top.size.isNone then .done file.length else ebmlEnd top file.length

/-- What the walk over the top level has found. -/
structure MkvTop where
  offset : Nat
  segments : Nat := 0
  edits : List Edit := []

/-- One pass of the walk over the top level. -/
def mkvPass (fuel : Nat) (file : Bytes) (s : MkvTop) : Strip (Walk.Pass MkvTop MkvTop) :=
  if file.length ≤ s.offset then .done (.stop s)
  else do
    let top ← readEbml file s.offset file.length
    if top.id = mkvVoid then
      let offset ← ebmlEnd top file.length
      .done (.next { s with offset })
    else if top.id ≠ mkvSegment then fail "unexpected top-level element"
    else
      let segEnd ← segmentEnd file top
      let edits ← Walk.loop (segmentPass fuel file segEnd) fuel (top.dataStart, s.edits)
      .done (.next ⟨segEnd, s.segments + 1, edits⟩)

/-- `stripMatroska(file)`. -/
def stripMatroska (fuel : Nat) (file : Bytes) : Strip Bytes := do
  let header ← readEbml file 0 file.length
  if header.id ≠ mkvEbml then fail "no EBML header"
  else
    let offset ← ebmlEnd header file.length
    let top ← Walk.loop (mkvPass fuel file) fuel ⟨offset, 0, []⟩
    if top.segments ≠ 1 then fail "expected exactly one Segment" else assemble file top.edits 0 file.length

end Nostrautica.Media
