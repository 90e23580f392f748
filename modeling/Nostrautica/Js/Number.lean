/-
JavaScript numbers, as far as strings meet them: `Number(s)` and `String(n)`
for the integers a binary64 value can hold.

A finite number is a sign and `m * 2 ^ e`. A decimal literal is read as an
exact ratio and rounded once, half to even. An integer is written with the
fewest digits that read back to it, nearest first.
-/
import Nostrautica.Js.Text

namespace Js

inductive Number
  | nan
  | infinity (neg : Bool)
  | finite (neg : Bool) (m : Nat) (e : Int)
  deriving DecidableEq, Repr

/-! ## Rounding -/

/-- `a / b` to the nearest integer, half to even. -/
def roundHalfEven (a b : Nat) : Nat :=
  if 2 * (a % b) > b ∨ (2 * (a % b) = b ∧ a / b % 2 = 1) then a / b + 1 else a / b

/-- `⌊log₂ (a / b)⌋`. -/
def ratioLog2 (a b : Nat) : Int :=
  let k : Int := a.log2 - b.log2
  if b * 2 ^ k.toNat ≤ a * 2 ^ (-k).toNat then k else k - 1

/-- Numbers round to an infinity from here on. -/
def numberLimit : Nat := 2 ^ 1024

/-- The nearest binary64 to `a / b`: 53 bits, no place below `2 ^ -1074`, and
an infinity from `numberLimit` on. -/
def roundRatio (neg : Bool) (a b : Nat) : Number :=
  if a = 0 then .finite neg 0 0
  else
    let e : Int := max (-1074) (ratioLog2 a b - 52)
    let m := roundHalfEven (a * 2 ^ (-e).toNat) (b * 2 ^ e.toNat)
    if numberLimit * 2 ^ (-e).toNat ≤ m * 2 ^ e.toNat then .infinity neg else .finite neg m e

/-- `Math.floor(n)` of a finite `n >= 0`; `-0` is one. -/
def Number.floorNonneg? : Number → Option Nat
  | .finite neg m e => if neg && m != 0 then none else some (m * 2 ^ e.toNat / 2 ^ (-e).toNat)
  | _ => none

/-- The value of a number that is a non-negative integer. -/
def Number.toNat? : Number → Option Nat
  | .finite neg m e =>
    if neg && m != 0 then none
    else if m * 2 ^ e.toNat % 2 ^ (-e).toNat = 0 then some (m * 2 ^ e.toNat / 2 ^ (-e).toNat) else none
  | _ => none

/-- The value of a number that is an integer. -/
def Number.toInt? : Number → Option Int
  | .finite neg m e =>
    if m * 2 ^ e.toNat % 2 ^ (-e).toNat = 0 then
      let n : Int := m * 2 ^ e.toNat / 2 ^ (-e).toNat
      some (if neg then -n else n)
    else none
  | _ => none

/-! ## `Number(s)` -/

def isDigit (c : CodeUnit) : Bool := 48 ≤ c.val && c.val ≤ 57

/-- The value of a string of decimal digits. -/
def digitsValue (ds : JsString) : Nat := ds.foldl (fun n c => 10 * n + (c.val - 48)) 0

/-- `[eE][+-]?[0-9]+`, or nothing. -/
def parseExponent : JsString → Option Int
  | [] => some 0
  | c :: s =>
    if c.val = 101 ∨ c.val = 69 then
      let (neg, ds) : Bool × JsString := match s with
        | c :: ds => if c.val = 45 then (true, ds) else if c.val = 43 then (false, ds) else (false, s)
        | [] => (false, [])
      if ds ≠ [] ∧ ds.all isDigit then some (if neg then -digitsValue ds else digitsValue ds) else none
    else none

/-- The digits after a decimal point, and what follows them. -/
def parseFraction : JsString → JsString × JsString
  | [] => ([], [])
  | c :: s => if c.val = 46 then s.span isDigit else ([], c :: s)

/-- An unsigned decimal literal. -/
def parseDecimal (neg : Bool) (s : JsString) : Number :=
  let (int, rest) := s.span isDigit
  let (frac, rest) := parseFraction rest
  if int ++ frac = [] then .nan
  else match parseExponent rest with
    | none => .nan
    | some x =>
      let e : Int := x - frac.length
      roundRatio neg (digitsValue (int ++ frac) * 10 ^ e.toNat) (10 ^ (-e).toNat)

def parseUnsigned (neg : Bool) (s : JsString) : Number :=
  if s = js "Infinity" then .infinity neg else parseDecimal neg s

/-- The value of a digit in a radix up to 16. -/
def radixDigit (c : CodeUnit) : Option Nat :=
  if isDigit c then some (c.val - 48)
  else if 97 ≤ c.val ∧ c.val ≤ 102 then some (c.val - 87)
  else if 65 ≤ c.val ∧ c.val ≤ 70 then some (c.val - 55)
  else none

def parseRadix (radix : Nat) (s : JsString) : Number :=
  let value : Option Nat := s.foldl (fun n c => do
    let n ← n
    let d ← radixDigit c
    if d < radix then some (radix * n + d) else none) (some 0)
  if s = [] then .nan else match value with
    | some n => roundRatio false n 1
    | none => .nan

/-- The radix a literal's second character names after a leading `0`. -/
def radixOf (c : CodeUnit) : Option Nat :=
  if c.val = 120 ∨ c.val = 88 then some 16
  else if c.val = 111 ∨ c.val = 79 then some 8
  else if c.val = 98 ∨ c.val = 66 then some 2
  else none

/-- A literal with its surrounding space removed. -/
def parseLiteral : JsString → Number
  | [] => .finite false 0 0
  | c :: s =>
    if c.val = 43 then parseUnsigned false s
    else if c.val = 45 then parseUnsigned true s
    else match if c.val = 48 then s.head?.bind radixOf else none with
      | some radix => parseRadix radix s.tail
      | none => parseUnsigned false (c :: s)

/-- `Number(s)`. -/
def toNumber (s : JsString) : Number := parseLiteral (trim s)

/-! ## `String(n)` -/

/-- The code unit of a decimal digit. -/
def digitUnit (d : Nat) : CodeUnit := codeUnit (48 + d)

def decimalAux : Nat → Nat → JsString → JsString
  | 0, _, acc => acc
  | fuel + 1, n, acc => if n = 0 then acc else decimalAux fuel (n / 10) (digitUnit (n % 10) :: acc)

/-- The decimal digits of `n`, none for 0. -/
def decimal (n : Nat) : JsString := decimalAux (n.log2 + 1) n []

/-- Whether `c * 10 ^ p` is read back as `n`. -/
def readsBack (n c p : Nat) : Bool := (roundRatio false (c * 10 ^ p) 1).toNat? == some n

/-- The two multiples of `10 ^ p` next to `n`, the nearer first, the even one on a tie. -/
def neighbours (n p : Nat) : List Nat :=
  let c := n / 10 ^ p
  if 2 * (n % 10 ^ p) < 10 ^ p ∨ (2 * (n % 10 ^ p) = 10 ^ p ∧ c % 2 = 0) then [c, c + 1] else [c + 1, c]

/-- The fewest digits `c`, with `p` zeros after them, that read back as `n`. -/
def shortest (n : Nat) : Nat × Nat :=
  ((List.range ((decimal n).length + 1)).reverse.findSome? fun p =>
    ((neighbours n p).find? fun c => readsBack n c p).map fun c => (c, p)).getD (n, 0)

/-- A point and digits after it, nothing for no digits. -/
def fraction (f : JsString) : JsString := if f = [] then [] else js "." ++ f

/-- The digits `ds` followed by `p` zeros, with an exponent past 21 places. -/
def formatDigits (ds : JsString) (p : Nat) : JsString :=
  if ds.length + p ≤ 21 then ds ++ List.replicate p (digitUnit 0)
  else ds.take 1 ++ fraction (ds.drop 1) ++ js "e+" ++ decimal (ds.length + p - 1)

/-- `String(n)` of a non-negative integer. -/
def natToString (n : Nat) : JsString :=
  if n = 0 then js "0" else formatDigits (decimal (shortest n).1) (shortest n).2

/-- `String(n)` of an integer. -/
def intToString : Int → JsString
  | .ofNat n => natToString n
  | .negSucc n => js "-" ++ natToString (n + 1)

end Js
