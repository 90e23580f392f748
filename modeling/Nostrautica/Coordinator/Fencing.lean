/-
The neutralizing of attendee-authored text: `coordinator/src/pipeline/fencing.ts`.

A `\s*` before what begins with no white space, and a `\d*` before what begins with no
digit, are read without going back.
-/
import Nostrautica.Js.Number

namespace Nostrautica.Prompts

open Js

/-- `\n`. -/
def newline : CodeUnit := 10

/-- `STRUCTURAL_HEADERS`. -/
def structuralHeaders : List JsString :=
  [js "TARGET ATTENDEE", js "TARGET", js "SHARED CANDIDATE", js "CANDIDATES", js "CANDIDATE", js "INTRO/TALK TRANSCRIPT",
    js "SELF-DESCRIBED PROFILE", js "PUBLIC NOSTR ACTIVITY", js "EVENT", js "SYSTEM", js "ASSISTANT", js "USER", js "INSTRUCTIONS"]

/-- A letter of ASCII in its upper case: what `i` compares. -/
def upperAscii (c : CodeUnit) : CodeUnit := if 97 ≤ c.val ∧ c.val ≤ 122 then codeUnit (c.val - 32) else c

/-- What follows a header at the front, whatever its case. -/
def afterHeader (header s : JsString) : Option JsString :=
  if (s.take header.length).map upperAscii = header then some (s.drop header.length) else none

/-- `/^\s*\d*\s*:/.test(s)`. -/
def opensSection (s : JsString) : Bool := (((s.dropWhile isSpace).dropWhile isDigit).dropWhile isSpace).head? = some (codeUnit 58)

/-- `HEADER_RE.test(line)`. -/
def hasHeader (line : JsString) : Bool :=
  structuralHeaders.any fun header => (afterHeader header (line.dropWhile isSpace)).any opensSection

/-- `[-_=]`. -/
def isRule (c : CodeUnit) : Bool := c.val == 45 || c.val == 95 || c.val == 61

/-- A run of rule characters, spaced where it is a rule. -/
def spaceRun (run : JsString) : JsString := if run.length ≥ 3 then run.intersperse 32 else run

/-- `line.replace(RULE_RE, (m) => m.split("").join(" "))`, after the run that ends there. -/
def spaceRules (run : JsString) : JsString → JsString
  | [] => spaceRun run
  | c :: s => if isRule c then spaceRules (run ++ [c]) s else spaceRun run ++ c :: spaceRules [] s

/-- `INVISIBLE_RANGES`. -/
def invisibleRanges : List (Nat × Nat) :=
  [(0x00, 0x08), (0x0b, 0x1f), (0x7f, 0x9f), (0x200b, 0x200f), (0x2028, 0x2029), (0x202a, 0x202e), (0x2060, 0x2064), (0x2066, 0x2069),
    (0xfeff, 0xfeff)]

/-- `INVISIBLE_RE`, on one unit. -/
def isInvisible (c : CodeUnit) : Bool := invisibleRanges.any fun r => r.1 ≤ c.val && c.val ≤ r.2

/-- `text.replace(/\r\n?/g, "\n")`. -/
def normalizeNewlines : JsString → JsString
  | [] => []
  | [c] => [if c.val = 13 then newline else c]
  | c :: d :: s =>
    if c.val = 13 then if d = newline then newline :: normalizeNewlines s else newline :: normalizeNewlines (d :: s)
    else c :: normalizeNewlines (d :: s)

/-- `cleaned`. -/
def cleaned (text : JsString) : JsString := (normalizeNewlines text).filter fun c => !isInvisible c

/-- What a line becomes. -/
def fenceLine (line : JsString) : JsString :=
  let defused := spaceRules [] line
  if hasHeader defused then js "> " ++ defused.dropWhile isSpace else defused

/-- `fenceUntrusted(text)`. -/
def fenceUntrusted (text : JsString) : JsString :=
  if text = [] then text else [newline].intercalate (((cleaned text).splitOn newline).map fenceLine)

/-- `fenceUntrustedList(items)`. -/
def fenceUntrustedList (items : List JsString) : List JsString := items.map fenceUntrusted

end Nostrautica.Prompts
