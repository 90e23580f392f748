/-
Audio files in `app/src/lib/media/strip-metadata.ts`: MP3 (and ADTS AAC) with its tags at
both ends, FLAC and WAV.

`fuel` bounds the passes of each loop.
-/
import Nostrautica.Js.Number
import Nostrautica.Media.Bytes

namespace Nostrautica.Media

open Js

/-! ## FLAC -/

/-- What the walk over the metadata blocks has found. -/
structure FlacBlocks where
  offset : Nat
  first : Bool := true
  edits : List Edit := []

/-- One pass over the metadata blocks. -/
def flacPass (file : Bytes) (stop : Nat) (s : FlacBlocks) : Strip (Walk.Pass FlacBlocks FlacBlocks) :=
  if s.offset + 4 > stop then fail "truncated FLAC metadata"
  else do
    let h ← readAt file s.offset 4
    let last := u8 h 0 ≥ 0x80
    let type := u8 h 0 % 0x80
    let len := u8 h 1 * 2 ^ 16 + u8 h 2 * 2 ^ 8 + u8 h 3
    if type = 127 ∨ s.first ∧ type ≠ 0 then fail "bad FLAC metadata block"
    else if s.offset + 4 + len > stop then fail "FLAC metadata block runs past the end"
    else
      let padding := UInt8.ofNat (if last then 0x81 else 1) :: slice h 1 4
      let edits := if type ≠ 0 ∧ type ≠ 3 then [.bytes s.offset padding, .zeros (s.offset + 4) len] else []
      let s' : FlacBlocks := ⟨s.offset + 4 + len, false, s.edits ++ edits⟩
      .done (if last then .stop s' else .next s')

/-- `stripFlac(file, start, end)`. -/
def stripFlac (fuel : Nat) (file : Bytes) (start stop : Nat) : Strip Bytes := do
  let marker ← readAt file start 4
  if ascii marker 0 4 ≠ js "fLaC" then fail "no fLaC marker"
  else
    let blocks ← Walk.loop (flacPass file stop) fuel { offset := start + 4 }
    let sync ← readAt file blocks.offset (min 2 (stop - blocks.offset))
    if u8 sync 0 ≠ 0xff ∨ u8 sync 1 &&& 0xfe ≠ 0xf8 then fail "no FLAC frame after the metadata"
    else assemble file blocks.edits start stop

/-! ## WAV -/

/-- `WAV_KEEP`. -/
def wavKeep : List JsString := [js "fmt ", js "data", js "fact"]

/-- What the walk over the chunks has found. -/
structure WavChunks where
  offset : Nat := 12
  edits : List Edit := []
  sawData : Bool := false
  openData : Bool := false

/-- One pass over the chunks. -/
def wavPass (file : Bytes) (stop : Nat) (s : WavChunks) : Strip (Walk.Pass WavChunks WavChunks) :=
  if s.offset + 8 > stop then .done (.stop s)
  else do
    let h ← readAt file s.offset 8
    let id := ascii h 0 4
    let len := u32le h 4
    if s.offset + 8 + len > stop then
      if id = js "data" then .done (.stop { s with sawData := true, openData := true }) else fail "RIFF chunk runs past the end"
    else
      let edits := if id ∈ wavKeep then [] else [.bytes s.offset [0x4a, 0x55, 0x4e, 0x4b], .zeros (s.offset + 8) len]
      .done (.next ⟨s.offset + 8 + len + len % 2, s.edits ++ edits, s.sawData || id = js "data", s.openData⟩)

/-- `stripWav(file)`. -/
def stripWav (fuel : Nat) (file : Bytes) : Strip Bytes := do
  let head ← readAt file 0 12
  let stop := min file.length (8 + u32le head 4)
  if stop < 12 then fail "bad RIFF size"
  else
    let chunks ← Walk.loop (wavPass file stop) fuel {}
    if !chunks.sawData then fail "no WAV data chunk"
    else assemble file chunks.edits 0 (if chunks.openData then file.length else stop)

/-! ## MP3 -/

/-- `isAudioFrameSync(b, at)`. -/
def isAudioFrameSync (b : Bytes) (offset : Nat) : Bool :=
  if u8 b offset ≠ 0xff ∨ b.length ≤ offset + 2 ∨ u8 b (offset + 1) &&& 0xe0 ≠ 0xe0 then false
  else if u8 b (offset + 1) &&& 0xf6 = 0xf0 then true
  else
    let version := u8 b (offset + 1) / 8 % 4
    let layer := u8 b (offset + 1) / 2 % 4
    let bitrate := u8 b (offset + 2) / 16
    let rate := u8 b (offset + 2) / 4 % 4
    version ≠ 1 && layer ≠ 0 && bitrate ≠ 0xf && rate ≠ 3

/-- `syncsafe(b, at)`. -/
def syncsafe (b : Bytes) (offset : Nat) : Strip Nat :=
  if u8 b offset ≥ 0x80 ∨ u8 b (offset + 1) ≥ 0x80 ∨ u8 b (offset + 2) ≥ 0x80 ∨ u8 b (offset + 3) ≥ 0x80 then fail "bad ID3 size"
  else .done (u8 b offset * 2 ^ 21 + u8 b (offset + 1) * 2 ^ 14 + u8 b (offset + 2) * 2 ^ 7 + u8 b (offset + 3))

/-- One pass over the leading ID3v2 tags. -/
def headPass (file : Bytes) (start : Nat) : Strip (Walk.Pass Nat Nat) :=
  if file.length - start < 10 then fail "truncated ID3 tag"
  else do
    let h ← readAt file start 10
    if ascii h 0 3 ≠ js "ID3" then .done (.stop start)
    else
      let footer := if u8 h 5 &&& 0x10 ≠ 0 then 10 else 0
      let size ← syncsafe h 6
      if start + (10 + size + footer) ≥ file.length then fail "ID3 tag covers the whole file"
      else .done (.next (start + (10 + size + footer)))

/-- The ID3v1 tag at the end, with an extended one before it: where they begin. -/
def id3v1 (file : Bytes) (start stop : Nat) : Strip (Option Nat) :=
  if stop - start ≥ 128 then do
    let v1 ← readAt file (stop - 128) 128
    if ascii v1 0 3 = js "TAG" then
      if stop - 128 - start ≥ 227 then
        let extended ← readAt file (stop - 128 - 227) 4
        .done (some (if ascii extended 0 4 = js "TAG+" then stop - 128 - 227 else stop - 128))
      else .done (some (stop - 128))
    else .done none
  else .done none

/-- The APE tag at the end. -/
def apeTag (file : Bytes) (start stop : Nat) : Strip (Option Nat) :=
  if stop - start ≥ 32 then do
    let ape ← readAt file (stop - 32) 32
    if ascii ape 0 8 = js "APETAGEX" then
      let tagSize := u32le ape 12
      let hasHeader := u32le ape 20 ≥ 2 ^ 31
      let total := tagSize + if hasHeader then 32 else 0
      if tagSize < 32 ∨ total > stop - start then fail "bad APE tag size" else .done (some (stop - total))
    else .done none
  else .done none

/-- The Lyrics3 tag at the end, whose size is six characters that `Number` reads. -/
def lyrics3 (file : Bytes) (start stop : Nat) : Strip (Option Nat) :=
  if stop - start ≥ 15 then do
    let ly ← readAt file (stop - 15) 15
    if ascii ly 6 9 = js "LYRICS200" then
      match (toNumber (ascii ly 0 6)).toInt? with
      | none => fail "bad Lyrics3 size"
      | some n => if n + 15 > (stop - start : Nat) then fail "bad Lyrics3 size" else .done (some (stop - (n + 15) : Int).toNat)
    else .done none
  else .done none

/-- The ID3v2 tag appended at the end. -/
def appendedId3 (file : Bytes) (start stop : Nat) : Strip (Option Nat) :=
  if stop - start ≥ 10 then do
    let f ← readAt file (stop - 10) 10
    if ascii f 0 3 = js "3DI" then
      let size ← syncsafe f 6
      if 20 + size > stop - start then fail "bad appended ID3 tag size" else .done (some (stop - (20 + size)))
    else .done none
  else .done none

/-- One pass over the tags at the end. -/
def tailPass (file : Bytes) (start stop : Nat) : Strip (Walk.Pass Nat Nat) := do
  match ← id3v1 file start stop with
  | some stop' => .done (.next stop')
  | none =>
    match ← apeTag file start stop with
    | some stop' => .done (.next stop')
    | none =>
      match ← lyrics3 file start stop with
      | some stop' => .done (.next stop')
      | none =>
        match ← appendedId3 file start stop with
        | some stop' => .done (.next stop')
        | none => .done (.stop stop)

/-- What follows the leading tags of a file. -/
inductive Mp3Body
  /-- A FLAC stream begins. -/
  | flac (start : Nat)
  /-- The first audio frame begins. -/
  | audio (start : Nat)
  deriving DecidableEq

/-- The front of an MP3 file: its ID3v2 tags, and zeros after them. -/
def mp3Body (fuel : Nat) (file : Bytes) : Strip Mp3Body := do
  let start ← Walk.loop (headPass file) fuel 0
  let probe ← readAt file start (min (64 * 1024) (file.length - start))
  let skip := (probe.takeWhile (· = 0)).length
  if ascii probe skip 4 = js "fLaC" then .done (.flac (start + skip))
  else if !isAudioFrameSync probe skip then fail "no MPEG audio frame after the tags"
  else .done (.audio (start + skip))

/-- `stripMp3(file)`. -/
def stripMp3 (fuel : Nat) (file : Bytes) : Strip Bytes := do
  match ← mp3Body fuel file with
  | .flac start => stripFlac fuel file start file.length
  | .audio start =>
    let stop ← Walk.loop (tailPass file start) fuel file.length
    if stop - start < 4 then fail "no audio left after the tags" else assemble file [] start stop

end Nostrautica.Media
