/-
`TextEncoder`: the bytes of a string, with each lone surrogate replaced.
-/
import Nostrautica.Js.Json

namespace Js

/-- The code point of a surrogate pair. -/
def pairChar (h l : CodeUnit) : Char := Char.ofNat (0x10000 + (h.val - 0xD800) * 0x400 + (l.val - 0xDC00))

/-- The code point of a unit that is not half of a pair. -/
def unitChar (c : CodeUnit) : Char := if isHighSurrogate c || isLowSurrogate c then '\uFFFD' else Char.ofNat c.val

/-- The code points of a string. -/
def codePoints : JsString → List Char
  | [] => []
  | [c] => [unitChar c]
  | c :: d :: s =>
    if isHighSurrogate c && isLowSurrogate d then pairChar c d :: codePoints s else unitChar c :: codePoints (d :: s)

/-- `new TextEncoder().encode(s)`. -/
def utf8ToBytes (s : JsString) : ByteArray := (String.ofList (codePoints s)).toUTF8

/-- `bytesToHex(bytes)`. -/
def bytesToHex (bytes : List UInt8) : JsString :=
  bytes.flatMap fun b => [hexUnit (b.toNat / 16), hexUnit (b.toNat % 16)]

end Js
