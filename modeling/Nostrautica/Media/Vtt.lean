/-
Captions of a transcript: `vttTimestamp`, `escapeCue`, `singleCueVtt`, `splitForCues`,
`timedCuesVtt` and `segmentsToVtt` of `app/src/lib/media/vtt.ts`. Seconds are rational
numbers.
-/
import Nostrautica.Js.Number
import Mathlib.Data.Rat.Floor
import Mathlib.Algebra.Order.Floor.Ring

namespace Nostrautica.Vtt

open Js

/-- `String(n)` of an exact integer. -/
def stringOf (n : Nat) : JsString := if n = 0 then js "0" else formatDigits (decimal n) 0

/-- `String(n).padStart(width, "0")`. -/
def padStart (width n : Nat) : JsString := List.replicate (width - (stringOf n).length) 48 ++ stringOf n

/-- `Math.round((s - Math.floor(s)) * 1000)`. -/
def millis (s : ℚ) : Nat := ⌊(s - ⌊s⌋) * 1000 + 1 / 2⌋.toNat

/-- `vttTimestamp(seconds)`. -/
def vttTimestamp (seconds : ℚ) : JsString :=
  let s := max 0 seconds
  let total := ⌊s⌋.toNat
  padStart 2 (total / 3600) ++ 58 :: (padStart 2 (total % 3600 / 60) ++ 58 :: (padStart 2 (total % 60) ++ 46 :: padStart 3 (millis s)))

/-- `.replace(/\r\n?/g, "\n")`. -/
def unifyLines : JsString → JsString
  | 13 :: 10 :: s => 10 :: unifyLines s
  | c :: s => (if c = 13 then 10 else c) :: unifyLines s
  | [] => []

/-- A blank or a line feed. -/
def isBlank (c : CodeUnit) : Bool := c = 32 || c = 9 || c = 10

/-- `.replace(/\n[ \t]*(?:\n[ \t]*)+/g, "\n")`. -/
def collapseBlank : JsString → JsString
  | [] => []
  | c :: s =>
    if c = 10 ∧ 10 ∈ s.takeWhile isBlank then 10 :: collapseBlank (s.dropWhile isBlank)
    else c :: collapseBlank s
termination_by s => s.length
decreasing_by
  · exact Nat.lt_succ_of_le (List.dropWhile_suffix isBlank).length_le
  · exact Nat.lt_succ_self _

/-- `.replace(/&/g, "&amp;")`. -/
def replaceChar (c : CodeUnit) (by_ : JsString) (s : JsString) : JsString := s.flatMap fun x => if x = c then by_ else [x]

/-- The three replacements of markup. -/
def escapeMarkup (s : JsString) : JsString :=
  replaceChar 62 (js "&gt;") (replaceChar 60 (js "&lt;") (replaceChar 38 (js "&amp;") s))

/-- `escapeCue(text)`. -/
def escapeCue (text : JsString) : JsString := escapeMarkup (collapseBlank (unifyLines text))

/-- `${vttTimestamp(start)} --> ${vttTimestamp(end)}\n${payload}`. -/
def cueBody (start end_ : ℚ) (payload : JsString) : JsString :=
  vttTimestamp start ++ js " --> " ++ vttTimestamp end_ ++ 10 :: payload

/-- `singleCueVtt(text, durationSec)`. -/
def singleCueVtt (text : JsString) (durationSec : ℚ) : JsString :=
  let body := escapeCue (trim text)
  if body = [] then js "WEBVTT\n" else js "WEBVTT\n\n" ++ cueBody 0 durationSec body ++ [10]

/-- `TARGET_CUE_CHARS`. -/
def targetCueChars : Nat := 180

/-- `MIN_CUE_SEC`. -/
def minCueSec : Nat := 2

/-- The pieces of a string between the single spaces, after `current`. -/
def splitSpaces (current : JsString) : JsString → List JsString
  | [] => [current]
  | c :: s => if isSpace c then current :: splitSpaces [] s else splitSpaces (current ++ [c]) s

/-- `text.trim().split(/\s+/).filter(Boolean)`. -/
def words (text : JsString) : List JsString := (splitSpaces [] (trim text)).filter (· ≠ [])

/-- `words.join(" ")`. -/
def joinWords : List JsString → JsString
  | [] => []
  | [w] => w
  | w :: ws => w ++ 32 :: joinWords ws

/-- `[.!?…]`. -/
def isStop (c : CodeUnit) : Bool := c = 46 || c = 33 || c = 63 || c.val = 0x2026

/-- `["')\]]|”`. -/
def isCloser (c : CodeUnit) : Bool := c = 34 || c = 39 || c = 41 || c = 93 || c.val = 0x201D

/-- `/[.!?…](["')\]]|”)?$/.test(word)`. -/
def endsSentence (word : JsString) : Bool :=
  match word.reverse with
  | c :: c' :: _ => isStop c || (isCloser c && isStop c')
  | [c] => isStop c
  | [] => false

/-- The chunks and the current one. -/
structure Packing where
  chunks : List JsString
  current : JsString

/-- One turn of the loop of `splitForCues`. -/
def packWord (maxCues target : Nat) (s : Packing) (word : JsString) : Packing :=
  let current := if s.current = [] then word else s.current ++ 32 :: word
  if s.chunks.length + 1 < maxCues ∧ ((endsSentence word ∧ 6 * target ≤ 10 * current.length) ∨ target ≤ current.length) then
    ⟨s.chunks ++ [current], []⟩
  else ⟨s.chunks, current⟩

/-- `splitForCues(text, maxCues)`. -/
def splitForCues (text : JsString) (maxCues : Nat) : List JsString :=
  if words text = [] then []
  else if maxCues ≤ 1 then [joinWords (words text)]
  else
    let target := max 1 (((trim text).length + maxCues - 1) / maxCues)
    let s := (words text).foldl (packWord maxCues target) ⟨[], []⟩
    if s.current = [] then s.chunks else s.chunks ++ [s.current]

/-- A segment. -/
structure Segment where
  start : ℚ
  end_ : ℚ
  text : JsString

/-- `chunks.map(...)` of `timedCuesVtt`, from `elapsed`. -/
def spread (totalChars : Nat) (durationSec : ℚ) (elapsed : ℚ) : List JsString → List Segment
  | [] => []
  | [chunk] => [⟨elapsed, durationSec, chunk⟩]
  | chunk :: chunks =>
    let end_ := elapsed + chunk.length / totalChars * durationSec
    ⟨elapsed, end_, chunk⟩ :: spread totalChars durationSec end_ chunks

/-- `cues.join("\n\n")`, numbered from `i`. -/
def joinCues (i : Nat) : List Segment → JsString
  | [] => []
  | [c] => stringOf i ++ 10 :: cueBody c.start c.end_ (escapeCue (trim c.text))
  | c :: cs => stringOf i ++ 10 :: cueBody c.start c.end_ (escapeCue (trim c.text)) ++ 10 :: 10 :: joinCues (i + 1) cs

/-- `segmentsToVtt(segments)`. -/
def segmentsToVtt (segments : List Segment) : JsString :=
  js "WEBVTT\n\n" ++ joinCues 1 (segments.filter fun c => trim c.text ≠ []) ++ [10]

/-- The most cues that a clip has room for. -/
def cueLimit (trimmed : JsString) (durationSec : ℚ) : Nat :=
  max 1 (min ((trimmed.length + targetCueChars - 1) / targetCueChars) (max 1 ⌊durationSec / minCueSec⌋.toNat))

/-- The number of characters of the chunks. -/
def charCount (chunks : List JsString) : Nat := (chunks.map List.length).sum

/-- `timedCuesVtt(text, durationSec)`. -/
def timedCuesVtt (text : JsString) (durationSec : ℚ) : JsString :=
  if trim text = [] then js "WEBVTT\n"
  else
    let chunks := splitForCues (trim text) (cueLimit (trim text) durationSec)
    if chunks.length ≤ 1 then singleCueVtt (trim text) durationSec
    else segmentsToVtt (spread (charCount chunks) durationSec 0 chunks)

end Nostrautica.Vtt
