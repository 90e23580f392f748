/-
NIP-19 links of the Android app: the object `Nip19` of
`android/protocol/src/main/kotlin/today/cypherpunk/nostrautica/protocol/Nip19.kt`, with
`fromHex` and `toHex` of `Bytes.kt`. A text without lone surrogates is a `String`; what
the platform makes of malformed UTF-8 and which other characters are digits are
parameters.
-/
import Nostrautica.Android.Bech32
import Nostrautica.Js.Utf8

namespace Nostrautica.Nip19

open Js Bech32

/-- The platform's own functions. -/
structure Jvm extends Cases where
  malformed : List UInt8 → String
  otherDigit : CodeUnit → Option Nat

/-- `Nip19.Addr`; the kind is the `Int` read as unsigned. -/
structure Addr where
  kind : Nat
  pubkey : JsString
  identifier : String
  relays : List String
  deriving DecidableEq

/-- `Nip19.Profile`. -/
structure Profile where
  pubkey : JsString
  relays : List String
  deriving DecidableEq

/-- `Bytes.utf8(text)`. -/
def utf8 (text : String) : List UInt8 := text.toByteArray.data.toList

/-- `bytes.toString(Charsets.UTF_8)`. -/
def toText (d : Jvm) (bytes : List UInt8) : String := (String.fromUTF8? ⟨bytes.toArray⟩).getD (d.malformed bytes)

/-- `Character.digit(c, 16)`, `none` for `-1`. -/
def digit (d : Jvm) (c : CodeUnit) : Option Nat :=
  if 48 ≤ c.val ∧ c.val ≤ 57 then some (c.val - 48)
  else if 97 ≤ c.val ∧ c.val ≤ 102 then some (c.val - 87)
  else if 65 ≤ c.val ∧ c.val ≤ 70 then some (c.val - 55)
  else if c.val < 128 then none
  else d.otherDigit c

/-- `Bytes.fromHex(hex)`. -/
def fromHex (d : Jvm) : JsString → Option (List UInt8)
  | [] => some []
  | [_] => none
  | a :: b :: rest => do
    let hi ← digit d a
    let lo ← digit d b
    let bytes ← fromHex d rest
    return UInt8.ofNat ((hi <<< 4) ||| lo) :: bytes

/-- `Bytes.toHex(bytes)`. -/
def toHex (bytes : List UInt8) : JsString := bytesToHex bytes

/-- `tlv(t, v)`: the stream keeps the low byte of each number. -/
def tlv (t : Nat) (v : List UInt8) : List UInt8 := UInt8.ofNat t :: UInt8.ofNat v.length :: v

/-- The four bytes of a kind. -/
def kindBytes (kind : Nat) : List UInt8 :=
  [UInt8.ofNat (kind >>> 24), UInt8.ofNat (kind >>> 16), UInt8.ofNat (kind >>> 8), UInt8.ofNat kind]

/-- `Nip19.naddr(a)`. -/
def naddr (d : Jvm) (a : Addr) : Option JsString := do
  let author ← fromHex d a.pubkey
  encode (js "naddr") (tlv 3 (kindBytes a.kind) ++ (tlv 2 author ++ (a.relays.flatMap (fun r => tlv 1 (utf8 r)) ++ tlv 0 (utf8 a.identifier))))

/-- `Nip19.nprofile(p)`. -/
def nprofile (d : Jvm) (p : Profile) : Option JsString := do
  let pubkey ← fromHex d p.pubkey
  encode (js "nprofile") (p.relays.flatMap (fun r => tlv 1 (utf8 r)) ++ tlv 0 pubkey)

/-- `tlvs(data)`, as the records in their order. -/
def tlvs (data : List UInt8) : Option (List (Nat × List UInt8)) :=
  match data with
  | t :: l :: rest =>
    if rest.length < l.toNat then none
    else do
      let more ← tlvs (rest.drop l.toNat)
      return (t.toNat, rest.take l.toNat) :: more
  | _ => some []
termination_by data.length

/-- `t[type].orEmpty()`. -/
def records (t : List (Nat × List UInt8)) (type_ : Nat) : List (List UInt8) := (t.filter (·.1 = type_)).map (·.2)

/-- `t[type]?.firstOrNull()?.takeIf { it.size == size }`. -/
def recordOfSize (t : List (Nat × List UInt8)) (type_ size : Nat) : Option (List UInt8) := (records t type_).head?.filter (·.length = size)

/-- `s.removePrefix("nostr:")`. -/
def removeNostr (s : JsString) : JsString := if (js "nostr:").isPrefixOf s then s.drop 6 else s

/-- The kind of four bytes. -/
def kindOf (k : List UInt8) : Nat :=
  ((k.getD 0 0).toNat <<< 24) ||| ((k.getD 1 0).toNat <<< 16) ||| ((k.getD 2 0).toNat <<< 8) ||| (k.getD 3 0).toNat

/-- `Nip19.decodeNaddr(naddr)`. -/
def decodeNaddr (d : Jvm) (s : JsString) : Option Addr := do
  let (hrp, data) ← decode d.toCases (removeNostr s)
  guard (hrp = js "naddr")
  let t ← tlvs data
  let pk ← recordOfSize t 2 32
  let k ← recordOfSize t 3 4
  return {
    kind := kindOf k
    pubkey := toHex pk
    identifier := ((records t 0).head?.map (toText d)).getD ""
    relays := (records t 1).map (toText d) }

/-- `Nip19.decodeNprofile(nprofile)`. -/
def decodeNprofile (d : Jvm) (s : JsString) : Option Profile := do
  let (hrp, data) ← decode d.toCases (removeNostr s)
  guard (hrp = js "nprofile")
  let t ← tlvs data
  let pk ← recordOfSize t 0 32
  return { pubkey := toHex pk, relays := (records t 1).map (toText d) }

end Nostrautica.Nip19
