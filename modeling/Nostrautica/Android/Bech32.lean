/-
Bech32 of the Android app: the object `Bech32` of
`android/protocol/src/main/kotlin/today/cypherpunk/nostrautica/protocol/Nip19.kt`.
A string is one of code units, a byte array a list of bytes; the case mapping of
`String.lowercase` and `String.uppercase` is a parameter.
-/
import Nostrautica.Js.Text

namespace Nostrautica.Bech32

open Js

/-- `CHARSET`. -/
def charset : JsString := js "qpzry9x8gf2tvdw0s3jn54khce6mua7l"

/-- `GEN`. -/
def gen : List Nat := [0x3b6a57b2, 0x26508e6d, 0x1ea119fa, 0x3d4233dd, 0x2a1462b3]

/-- `for (i in 0 until 5) if ((b ushr i) and 1 == 1) chk = chk xor GEN[i]`. -/
def applyGen (b chk : Nat) : Nat :=
  (List.range 5).foldl (fun chk i => if (b >>> i) &&& 1 = 1 then chk ^^^ gen.getD i 0 else chk) chk

/-- One turn of the loop of `polymod`. The checksum stays below `2 ^ 30`. -/
def polymodStep (chk v : Nat) : Nat := applyGen (chk >>> 25) (((chk &&& 0x1ffffff) <<< 5) ^^^ v)

/-- `polymod(values)`. -/
def polymod (values : List Nat) : Nat := values.foldl polymodStep 1

/-- `hrpExpand(hrp)`. -/
def hrpExpand (hrp : JsString) : List Nat := hrp.map (·.val >>> 5) ++ 0 :: hrp.map (·.val &&& 31)

/-- The locals of `convertBits`. -/
structure Regroup where
  acc : Nat
  bits : Nat
  out : List UInt8

/-- `while (bits >= to)`. -/
def drain (to_ : Nat) (s : Regroup) : Regroup :=
  if 0 < to_ ∧ to_ ≤ s.bits then
    drain to_ { s with
      bits := s.bits - to_
      out := s.out ++ [UInt8.ofNat ((s.acc >>> (s.bits - to_)) &&& (2 ^ to_ - 1))] }
  else s
termination_by s.bits

/-- One byte, or `invalid data range`. -/
def convertByte (from_ to_ : Nat) (s : Regroup) (b : UInt8) : Option Regroup :=
  if b.toNat >>> from_ = 0 then
    some (drain to_ { s with acc := (s.acc <<< from_) % 2 ^ 32 ||| b.toNat, bits := s.bits + from_ })
  else none

/-- `convertBits(data, from, to, pad)`. -/
def convertBits (data : List UInt8) (from_ to_ : Nat) (pad : Bool) : Option (List UInt8) := do
  let s ← data.foldlM (convertByte from_ to_) ⟨0, 0, []⟩
  let last := (s.acc <<< (to_ - s.bits)) % 2 ^ 32 &&& (2 ^ to_ - 1)
  if pad then
    return if 0 < s.bits then s.out ++ [UInt8.ofNat last] else s.out
  else if s.bits < from_ ∧ last = 0 then
    return s.out
  else none

/-- `CHARSET[v]`. -/
def charOf (v : Nat) : CodeUnit := charset.getD v 0

/-- The six characters of a checksum. -/
def checkChars (check : Nat) : JsString := (List.range 6).map fun i => charOf ((check >>> (5 * (5 - i))) &&& 31)

/-- `Bech32.encode(hrp, data)`. -/
def encode (hrp : JsString) (data : List UInt8) : Option JsString := do
  let values := (← convertBits data 8 5 true).map (·.toNat)
  let check := polymod (hrpExpand hrp ++ values ++ List.replicate 6 0) ^^^ 1
  return hrp ++ js "1" ++ values.map charOf ++ checkChars check

/-- `Char.isWhitespace()`. -/
def isWhitespace (c : CodeUnit) : Bool :=
  (9 ≤ c.val && c.val ≤ 13) || (28 ≤ c.val && c.val ≤ 32) || c.val = 0xA0 || c.val = 0x1680 ||
    (0x2000 ≤ c.val && c.val ≤ 0x200A) || c.val = 0x2028 || c.val = 0x2029 || c.val = 0x202F || c.val = 0x205F || c.val = 0x3000

/-- `s.trim()`. -/
def trim (s : JsString) : JsString := ((s.dropWhile isWhitespace).reverse.dropWhile isWhitespace).reverse

/-- `s.lastIndexOf(c)`, `none` for `-1`. -/
def lastIndexOf (c : CodeUnit) (s : JsString) : Option Nat := if c ∈ s then some (s.length - 1 - s.reverse.idxOf c) else none

/-- `CHARSET.indexOf(c)`, or `invalid bech32 character`. -/
def valueOf (c : CodeUnit) : Option Nat := if c ∈ charset then some (charset.idxOf c) else none

/-- `lowercase()` and `uppercase()`. -/
structure Cases where
  lowercase : JsString → JsString
  uppercase : JsString → JsString

/-- `Bech32.decode(input)`. -/
def decode (d : Cases) (input : JsString) : Option (JsString × List UInt8) := do
  let s := trim input
  guard (s = d.lowercase s ∨ s = d.uppercase s)
  let lower := d.lowercase s
  let pos ← lastIndexOf 49 lower
  guard (1 ≤ pos ∧ pos + 7 ≤ lower.length)
  let hrp := lower.take pos
  let values ← (lower.drop (pos + 1)).mapM valueOf
  guard (polymod (hrpExpand hrp ++ values) = 1)
  let payload := (values.take (values.length - 6)).map UInt8.ofNat
  return (hrp, ← convertBits payload 5 8 false)

end Nostrautica.Bech32
