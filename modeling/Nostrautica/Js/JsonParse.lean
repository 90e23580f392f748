/-
`JSON.parse`: the grammar of JSON, with a number kept as it is written.

The parser takes fuel; a text's length gives enough of it (`value_fuel`).
-/
import Nostrautica.Js.Number

namespace Js

/-- A JSON text that was read; members stand in the order of the text, repeated names too. -/
inductive Raw
  | null
  | bool (b : Bool)
  | num (literal : JsString)
  | str (s : JsString)
  | arr (elems : List Raw)
  | obj (members : List (JsString × Raw))

namespace Parse

def isSpace (c : CodeUnit) : Bool := c.val = 0x20 || c.val = 9 || c.val = 10 || c.val = 13

def skipSpace (s : JsString) : JsString := s.dropWhile isSpace

/-- `\uXXXX`: the unit that four digits name. -/
def hexEscape (a b c d : CodeUnit) : Option CodeUnit := do
  let a ← radixDigit a
  let b ← radixDigit b
  let c ← radixDigit c
  let d ← radixDigit d
  some (codeUnit (4096 * a + 256 * b + 16 * c + d))

/-- The unit that an escape of one letter names. -/
def escape (c : CodeUnit) : Option CodeUnit :=
  if c.val = 0x22 ∨ c.val = 0x5C ∨ c.val = 0x2F then some c
  else if c.val = 98 then some 8
  else if c.val = 102 then some 12
  else if c.val = 110 then some 10
  else if c.val = 114 then some 13
  else if c.val = 116 then some 9
  else none

/-- A string after its first quote, and what follows it. -/
def string : JsString → Option (JsString × JsString)
  | [] => none
  | [c] => if c.val = 0x22 then some ([], []) else none
  | c :: d :: s =>
    if c.val = 0x22 then some ([], d :: s)
    else if c.val < 0x20 then none
    else if c.val = 0x5C then
      if d.val = 117 then
        match s with
        | e :: f :: g :: h :: s => do
          let u ← hexEscape e f g h
          let (us, rest) ← string s
          some (u :: us, rest)
        | _ => none
      else do
        let u ← escape d
        let (us, rest) ← string s
        some (u :: us, rest)
    else do
      let (us, rest) ← string (d :: s)
      some (c :: us, rest)

/-- Digits, at least one. -/
def digits (s : JsString) : Option (JsString × JsString) :=
  let (ds, rest) := s.span isDigit
  if ds = [] then none else some (ds, rest)

/-- A fraction, if there is a point. -/
def fractionPart : JsString → Option (JsString × JsString)
  | c :: s => if c.val = 46 then (digits s).map fun p => (c :: p.1, p.2) else some ([], c :: s)
  | [] => some ([], [])

/-- An exponent, if there is an `e`. -/
def exponentPart : JsString → Option (JsString × JsString)
  | c :: s =>
    if c.val = 101 ∨ c.val = 69 then
      match s with
      | d :: t =>
        if d.val = 43 ∨ d.val = 45 then (digits t).map fun p => (c :: d :: p.1, p.2)
        else (digits s).map fun p => (c :: p.1, p.2)
      | [] => none
    else some ([], c :: s)
  | [] => some ([], [])

/-- A number without its sign: no zero stands before another digit. -/
def unsigned (s : JsString) : Option (JsString × JsString) := do
  let (int, rest) ← digits s
  if int.head? = some 48 ∧ int.length ≠ 1 then none
  else do
    let (frac, rest) ← fractionPart rest
    let (exp, rest) ← exponentPart rest
    some (int ++ frac ++ exp, rest)

def number : JsString → Option (JsString × JsString)
  | c :: s => if c.val = 45 then (unsigned s).map fun p => (c :: p.1, p.2) else unsigned (c :: s)
  | [] => none

/-- One of the three names. -/
def keyword (s : JsString) : Option (Raw × JsString) :=
  if (js "true").isPrefixOf s then some (.bool true, s.drop 4)
  else if (js "false").isPrefixOf s then some (.bool false, s.drop 5)
  else if (js "null").isPrefixOf s then some (.null, s.drop 4)
  else none

mutual

/-- A value, and what follows it. -/
def value : Nat → JsString → Option (Raw × JsString)
  | 0, _ => none
  | n + 1, s =>
    match skipSpace s with
    | [] => none
    | c :: s =>
      if c.val = 0x22 then (string s).map fun p => (.str p.1, p.2)
      else if c.val = 0x5B then
        match skipSpace s with
        | d :: t => if d.val = 0x5D then some (.arr [], t) else (elements n s).map fun p => (.arr p.1, p.2)
        | [] => none
      else if c.val = 0x7B then
        match skipSpace s with
        | d :: t => if d.val = 0x7D then some (.obj [], t) else (members n s).map fun p => (.obj p.1, p.2)
        | [] => none
      else if c.val = 45 ∨ isDigit c then (number (c :: s)).map fun p => (.num p.1, p.2)
      else keyword (c :: s)

/-- The elements of an array, from the first on. -/
def elements : Nat → JsString → Option (List Raw × JsString)
  | 0, _ => none
  | n + 1, s => do
    let (v, s) ← value n s
    match skipSpace s with
    | c :: t =>
      if c.val = 0x2C then (elements n t).map fun p => (v :: p.1, p.2)
      else if c.val = 0x5D then some ([v], t)
      else none
    | [] => none

/-- The members of an object, from the first on. -/
def members : Nat → JsString → Option (List (JsString × Raw) × JsString)
  | 0, _ => none
  | n + 1, s =>
    match skipSpace s with
    | q :: s => if q.val ≠ 0x22 then none else do
      let (k, s) ← string s
      match skipSpace s with
      | c :: s => if c.val ≠ 0x3A then none else do
        let (v, s) ← value n s
        match skipSpace s with
        | c :: t =>
          if c.val = 0x2C then (members n t).map fun p => ((k, v) :: p.1, p.2)
          else if c.val = 0x7D then some ([(k, v)], t)
          else none
        | [] => none
      | [] => none
    | [] => none

end

end Parse

/-- `JSON.parse(s)`; `none` where it throws. -/
def parseJson (s : JsString) : Option Raw :=
  match Parse.value (2 * s.length + 1) s with
  | some (v, rest) => if Parse.skipSpace rest = [] then some v else none
  | none => none

end Js
