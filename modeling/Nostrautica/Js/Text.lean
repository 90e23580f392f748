/-
JavaScript strings: lists of UTF-16 code units, compared unit by unit.
-/
import Mathlib

namespace Js

/-- A UTF-16 code unit. -/
abbrev CodeUnit := Fin 65536

/-- A JavaScript string. `<` on strings is the lexicographic order of units. -/
abbrev JsString := List CodeUnit

instance neZero_codeUnits : NeZero 65536 := ⟨by decide⟩

instance lawfulBEq_jsString : LawfulBEq JsString := inferInstance

/-- The code unit with a given value. -/
def codeUnit (n : Nat) : CodeUnit := Fin.ofNat 65536 n

/-- The units of a character: itself, or a surrogate pair above U+FFFF. -/
def unitsOfChar (c : Char) : JsString :=
  let n := c.toNat
  if n < 0x10000 then [codeUnit n]
  else [codeUnit (0xD800 + (n - 0x10000) / 0x400), codeUnit (0xDC00 + (n - 0x10000) % 0x400)]

/-- A string literal. -/
def js (s : String) : JsString := s.toList.flatMap unitsOfChar

/-- WhiteSpace and LineTerminator, what `trim` removes. -/
def isSpace (c : CodeUnit) : Bool :=
  (9 ≤ c.val && c.val ≤ 13) || c.val == 0x20 || c.val == 0xA0 || c.val == 0x1680 ||
    (0x2000 ≤ c.val && c.val ≤ 0x200A) || c.val == 0x2028 || c.val == 0x2029 || c.val == 0x202F ||
    c.val == 0x205F || c.val == 0x3000 || c.val == 0xFEFF

/-- `s.trim()`. -/
def trim (s : JsString) : JsString := ((s.dropWhile isSpace).reverse.dropWhile isSpace).reverse

/-- The lowercase of a unit whose lowercase is, or starts with, an ASCII letter: A to Z, the Kelvin
sign and the dotted capital I. No other unit's has an ASCII letter, and those are left as they are. -/
def lowerUnit (c : CodeUnit) : JsString :=
  if 65 ≤ c.val ∧ c.val ≤ 90 then [codeUnit (c.val + 32)]
  else if c.val = 0x212A then [codeUnit 107]
  else if c.val = 0x130 then [codeUnit 105, codeUnit 0x307]
  else [c]

/-- `s.toLowerCase()`, as far as comparisons with ASCII text see it. -/
def toLowerCase (s : JsString) : JsString := s.flatMap lowerUnit

/-- Every unit is below U+0080. -/
def isAscii (s : JsString) : Bool := s.all (·.val < 128)

/-- `[0-9a-f]`. -/
def isLowerHexDigit (c : CodeUnit) : Bool := (48 ≤ c.val && c.val ≤ 57) || (97 ≤ c.val && c.val ≤ 102)

/-- `/^[0-9a-f]{n}$/.test(s)`. -/
def isLowerHex (n : Nat) (s : JsString) : Bool := s.length == n && s.all isLowerHexDigit

end Js
