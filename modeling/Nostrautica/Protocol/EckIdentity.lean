/-
`protocol/src/eck-identity.ts`: versions of the event key by id and fingerprint, where several
devices rotate. A key is a base64 string, named by what it decodes to (`base64ToBytes` of
`crypto.ts`).

The fingerprint is a parameter: 16 hex digits of the hash of the decoded bytes, read as a number, as
two of these compare. `"${v.id}|${v.key}"` is the version.
-/
import Nostrautica.App.ClientRoster
import Nostrautica.Js.Utf8
import Nostrautica.Protocol.Profiles

namespace Nostrautica.EckIdentity

open Js
open Nostrautica.Membership (EckVersion eckBefore canonicalEck)
open ClientRoster (EckRef eckCandidates)

/-! ## `atob` -/

/-- ASCII whitespace, which `atob` leaves out. -/
def isAsciiSpace (c : CodeUnit) : Bool := c.val == 9 || c.val == 10 || c.val == 12 || c.val == 13 || c.val == 32

/-- The six bits of a base64 digit. -/
def base64Digit (c : CodeUnit) : Option Nat :=
  if 65 ≤ c.val ∧ c.val ≤ 90 then some (c.val - 65)
  else if 97 ≤ c.val ∧ c.val ≤ 122 then some (c.val - 71)
  else if 48 ≤ c.val ∧ c.val ≤ 57 then some (c.val + 4)
  else if c.val = 43 then some 62
  else if c.val = 47 then some 63
  else none

/-- Four digits are three bytes; at the end, bits past the last whole byte are left out. -/
def regroup : List Nat → List UInt8
  | a :: b :: c :: d :: rest =>
    UInt8.ofNat (a * 4 + b / 16) :: UInt8.ofNat (b % 16 * 16 + c / 4) :: UInt8.ofNat (c % 4 * 64 + d) :: regroup rest
  | [a, b, c] => [UInt8.ofNat (a * 4 + b / 16), UInt8.ofNat (b % 16 * 16 + c / 4)]
  | [a, b] => [UInt8.ofNat (a * 4 + b / 16)]
  | _ => []

/-- One or two `=` at the end of a whole number of quanta. -/
def withoutPadding (s : JsString) : JsString :=
  if s.length % 4 ≠ 0 then s
  else if (js "==").isSuffixOf s then s.take (s.length - 2)
  else if (js "=").isSuffixOf s then s.take (s.length - 1)
  else s

/-- `base64ToBytes(b64)`, or `none` where `atob` throws. -/
def base64ToBytes (b64 : JsString) : Option (List UInt8) :=
  let digits := withoutPadding (b64.filter (!isAsciiSpace ·))
  if digits.length % 4 = 1 then none else (digits.mapM base64Digit).map regroup

/-! ## Versions -/

/-- `eckVersionSchema`. -/
def eckVersionSchema (v : EckVersion JsString) : Bool := (0 < v.id && isNumberInt v.id) && base64Bytes 32 v.key

variable (hash : List UInt8 → Nat)

/-- `eckFingerprint(key)`. -/
def eckFingerprint (key : JsString) : Nat := hash ((base64ToBytes key).getD (utf8ToBytes (js "!" ++ key)).toList)

/-- One version of the loop of `unionEck`. -/
def see (seen : List (EckVersion JsString)) (v : EckVersion JsString) : List (EckVersion JsString) :=
  if v ∈ seen then seen else seen ++ [v]

/-- `unionEck(...lists)`. -/
def unionEck (lists : List (List (EckVersion JsString))) : List (EckVersion JsString) :=
  (lists.foldl (fun seen list => list.foldl see seen) []).mergeSort fun a b => !eckBefore (eckFingerprint hash) b a

end Nostrautica.EckIdentity
