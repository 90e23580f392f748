/-
`JSON.stringify` and the UTF-8 size of what it writes.

Strings are written as well-formed Unicode: a surrogate without its partner is
escaped. Integers are the only numbers modelled.
-/
import Nostrautica.Js.Number

namespace Js

inductive Json
  | null
  | bool (b : Bool)
  | num (n : Int)
  | str (s : JsString)
  | arr (elems : List Json)
  | obj (fields : List (JsString × Json))

def isHighSurrogate (c : CodeUnit) : Bool := 0xD800 ≤ c.val && c.val < 0xDC00

def isLowSurrogate (c : CodeUnit) : Bool := 0xDC00 ≤ c.val && c.val < 0xE000

def hexUnit (d : Nat) : CodeUnit := codeUnit (if d < 10 then 48 + d else 87 + d)

/-- `\uXXXX`. -/
def unicodeEscape (c : CodeUnit) : JsString :=
  js "\\u" ++ [hexUnit (c.val / 4096), hexUnit (c.val / 256 % 16), hexUnit (c.val / 16 % 16), hexUnit (c.val % 16)]

/-- A unit inside quotes, when it is not half of a surrogate pair. -/
def escapeUnit (c : CodeUnit) : JsString :=
  if c.val = 0x22 then js "\\\""
  else if c.val = 0x5C then js "\\\\"
  else if c.val = 8 then js "\\b"
  else if c.val = 9 then js "\\t"
  else if c.val = 10 then js "\\n"
  else if c.val = 12 then js "\\f"
  else if c.val = 13 then js "\\r"
  else if c.val < 0x20 || isHighSurrogate c || isLowSurrogate c then unicodeEscape c
  else [c]

/-- The units between the quotes. -/
def quoteUnits : JsString → JsString
  | [] => []
  | [c] => escapeUnit c
  | c :: d :: s =>
    if isHighSurrogate c && isLowSurrogate d then c :: d :: quoteUnits s else escapeUnit c ++ quoteUnits (d :: s)

def quote (s : JsString) : JsString := js "\"" ++ quoteUnits s ++ js "\""

/-- `pieces.join(",")`. -/
def joinComma : List JsString → JsString
  | [] => []
  | [p] => p
  | p :: q :: ps => p ++ js "," ++ joinComma (q :: ps)

mutual

/-- `JSON.stringify(v)`. -/
def stringify : Json → JsString
  | .null => js "null"
  | .bool b => if b then js "true" else js "false"
  | .num n => intToString n
  | .str s => quote s
  | .arr elems => js "[" ++ joinComma (stringifyElems elems) ++ js "]"
  | .obj fields => js "\x7b" ++ joinComma (stringifyFields fields) ++ js "\x7d"

def stringifyElems : List Json → List JsString
  | [] => []
  | j :: rest => stringify j :: stringifyElems rest

def stringifyFields : List (JsString × Json) → List JsString
  | [] => []
  | (k, v) :: rest => (quote k ++ js ":" ++ stringify v) :: stringifyFields rest

end

/-- The bytes of a unit that is not half of a surrogate pair; a lone surrogate is replaced by U+FFFD. -/
def unitBytes (c : CodeUnit) : Nat := if c.val < 0x80 then 1 else if c.val < 0x800 then 2 else 3

/-- `new TextEncoder().encode(s).length`. -/
def utf8ByteLength : JsString → Nat
  | [] => 0
  | [c] => unitBytes c
  | c :: d :: s =>
    if isHighSurrogate c && isLowSurrogate d then 4 + utf8ByteLength s else unitBytes c + utf8ByteLength (d :: s)

end Js
