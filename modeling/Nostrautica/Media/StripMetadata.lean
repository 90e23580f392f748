/-
`stripMediaMetadata` of `app/src/lib/media/strip-metadata.ts`.
-/
import Nostrautica.Media.Audio
import Nostrautica.Media.IsoBmff
import Nostrautica.Media.Ogg

namespace Nostrautica.Media

open Js

inductive MediaContainer
  | isobmff
  | matroska
  | mp3
  | flac
  | wav
  | ogg
  deriving DecidableEq

/-- `sniffContainer(head)`. -/
def sniffContainer (head : Bytes) : Option MediaContainer :=
  if head.length ≥ 4 ∧ u32be head 0 = mkvEbml then some .matroska
  else if ascii head 0 4 = js "fLaC" then some .flac
  else if ascii head 0 4 = js "RIFF" ∧ ascii head 8 4 = js "WAVE" then some .wav
  else if ascii head 0 4 = js "OggS" then some .ogg
  else if ascii head 0 3 = js "ID3" then some .mp3
  else if head.length ≥ 8 ∧ ascii head 4 4 ∈ isoFirstBoxes then some .isobmff
  else if head.length ≥ 4 ∧ isAudioFrameSync head 0 then some .mp3
  else none

/-- `stripMediaMetadata(file)`. -/
def stripMediaMetadata (fuel : Nat) (file : Bytes) : Strip Bytes :=
  if file.length < 12 then fail "file too small to be media"
  else do
    let head ← readAt file 0 (min file.length 64)
    match sniffContainer head with
    | some .isobmff => stripIsoBmff fuel file
    | some .matroska => stripMatroska fuel file
    | some .mp3 => stripMp3 fuel file
    | some .flac => stripFlac fuel file 0 file.length
    | some .wav => stripWav fuel file
    | some .ogg => stripOgg fuel file
    | none => fail "unrecognised container"

end Nostrautica.Media
