/-
NIP-44 of the Android app: the objects `Nip44` and `ChaCha20` of
`android/protocol/src/main/kotlin/today/cypherpunk/nostrautica/protocol/Nip44.kt`, with the base64
and UTF-8 of `Bytes.kt`. HMAC and HKDF are parameters, and a text without lone surrogates is a
`String`.
-/
import Nostrautica.Android.Nip19
import Nostrautica.Coding.Stream
import Nostrautica.Protocol.Base64

namespace Nostrautica.Nip44

open Js EckIdentity Base64
open Nip19 (Jvm utf8 toText)

/-- What is thrown: by `require`, by the object itself, and by a read outside an array. -/
inductive Thrown where
  | illegalArgument (message : JsString)
  | decryptException (message : JsString)
  | outOfBounds
  deriving DecidableEq

/-- `hmacSha256` and `hkdfExpand` of 76 bytes. -/
structure Hashes where
  hmacSha256 : List UInt8 → List UInt8 → List.Vector UInt8 32
  hkdfExpand : List UInt8 → List UInt8 → List.Vector UInt8 76

/-! ## ChaCha20 -/

namespace ChaCha20

abbrev State := Vector UInt32 16

instance neZero_words : NeZero 16 := ⟨by decide⟩

def rotl (v c : UInt32) : UInt32 := (v <<< c) ||| (v >>> (32 - c))

/-- `quarter(s, a, b, c, d)`. -/
def quarter (s : State) (a b c d : Fin 16) : State :=
  let s := s.set a (s[a] + s[b])
  let s := s.set d (rotl (s[d] ^^^ s[a]) 16)
  let s := s.set c (s[c] + s[d])
  let s := s.set b (rotl (s[b] ^^^ s[c]) 12)
  let s := s.set a (s[a] + s[b])
  let s := s.set d (rotl (s[d] ^^^ s[a]) 8)
  let s := s.set c (s[c] + s[d])
  s.set b (rotl (s[b] ^^^ s[c]) 7)

/-- One turn of `repeat(10)`. -/
def doubleRound (s : State) : State :=
  let s := quarter s 0 4 8 12
  let s := quarter s 1 5 9 13
  let s := quarter s 2 6 10 14
  let s := quarter s 3 7 11 15
  let s := quarter s 0 5 10 15
  let s := quarter s 1 6 11 12
  let s := quarter s 2 7 8 13
  quarter s 3 4 9 14

/-- `le32(b, o)`. -/
def le32 (b : List UInt8) (o : Nat) : UInt32 :=
  (b.getD o 0).toUInt32 ||| (b.getD (o + 1) 0).toUInt32 <<< 8 ||| (b.getD (o + 2) 0).toUInt32 <<< 16 ||| (b.getD (o + 3) 0).toUInt32 <<< 24

/-- The state of a key, a nonce and a counter. -/
def initState (key nonce : List UInt8) (counter : UInt32) : State :=
  #v[0x61707865, 0x3320646e, 0x79622d32, 0x6b206574,
    le32 key 0, le32 key 4, le32 key 8, le32 key 12, le32 key 16, le32 key 20, le32 key 24, le32 key 28,
    counter, le32 nonce 0, le32 nonce 4, le32 nonce 8]

/-- The four bytes of a word. -/
def wordBytes (v : UInt32) : List UInt8 := [v.toUInt8, (v >>> 8).toUInt8, (v >>> 16).toUInt8, (v >>> 24).toUInt8]

/-- The block of a state. -/
def block (state : State) : List UInt8 :=
  let working := doubleRound^[10] state
  (List.finRange 16).flatMap fun i => wordBytes (working[i] + state[i])

/-- `state[12]++`. -/
def nextBlock (state : State) : State := state.set 12 (state[12] + 1)

/-- `xor(key, nonce, input, counter)`, of 32 and 12 bytes. -/
def xor (key nonce input : List UInt8) (counter : UInt32) : Except Thrown (List UInt8) :=
  if key.length = 32 ∧ nonce.length = 12 then
    .ok (Coding.stream (· ^^^ ·) block nextBlock 64 (Coding.blocks 64 input) (initState key nonce counter) input)
  else .error (.illegalArgument (js "Failed requirement."))

end ChaCha20

/-! ## Padding -/

/-- `Integer.numberOfLeadingZeros(x)` of `0 ≤ x < 2^32`. -/
def numberOfLeadingZeros (x : Nat) : Nat := if x = 0 then 32 else 31 - x.log2

/-- An `Int` of 32 bits, two's complement. -/
def toInt (n : Int) : Int := n.bmod (2 ^ 32)

/-- `calcPaddedLen(len)` behind its `require`, for an `Int` from 1 on. -/
def paddedLen (len : Nat) : Int :=
  if len ≤ 32 then 32
  else
    let nextPower := toInt (2 ^ ((32 - numberOfLeadingZeros (len - 1)) % 32))
    let chunk := if nextPower ≤ 256 then 32 else nextPower / 8
    toInt (chunk * toInt (((len - 1 : Nat) : Int) / chunk + 1))

/-- `calcPaddedLen(len)`. -/
def calcPaddedLen (len : Int) : Except Thrown Int :=
  if 1 ≤ len then .ok (paddedLen len.toNat) else .error (.illegalArgument (js "expected positive integer"))

/-! ## The envelope -/

def maxPlaintextBytes : Nat := 65535

def minCiphertextB64 : Nat := 132

def maxCiphertextB64 : Nat := (1 + 32 + (2 + (paddedLen maxPlaintextBytes).toNat) + 32 + 2) / 3 * 4

/-- `/^[A-Za-z0-9+/]+={0,2}$/`. -/
def isB64 (s : JsString) : Bool :=
  let digits := s.takeWhile fun c => (base64Digit c).isSome
  let rest := s.drop digits.length
  digits ≠ [] && (rest = [] || rest = [61] || rest = [61, 61])

/-- `isCiphertext(s)`. -/
def isCiphertext (s : Option JsString) : Bool :=
  s.any fun s => (minCiphertextB64 ≤ s.length && s.length ≤ maxCiphertextB64) && s.length % 4 = 0 && isB64 s

/-- `Base64.getDecoder().decode(b64)`, or `none` where it throws. -/
def fromBase64 : JsString → Option (List UInt8)
  | [] => some []
  | [a, b] => do
    let x ← base64Digit a
    let y ← base64Digit b
    return regroup [x, y]
  | [a, b, c] => do
    let x ← base64Digit a
    let y ← base64Digit b
    let z ← base64Digit c
    return regroup [x, y, z]
  | a :: b :: c :: d :: rest => do
    let x ← base64Digit a
    let y ← base64Digit b
    if c = 61 then
      if d = 61 ∧ rest = [] then return regroup [x, y] else none
    else
      let z ← base64Digit c
      if d = 61 then
        if rest = [] then return regroup [x, y, z] else none
      else
        let w ← base64Digit d
        return regroup [x, y, z, w] ++ (← fromBase64 rest)
  | [_] => none

/-- `bytes.copyOfRange(from, to)`. -/
def copyOfRange (bytes : List UInt8) (fromIndex toIndex : Nat) : Except Thrown (List UInt8) :=
  if fromIndex ≤ toIndex ∧ toIndex ≤ bytes.length then .ok ((bytes.take toIndex).drop fromIndex) else .error .outOfBounds

/-- `bytes[i]`. -/
def byteAt (bytes : List UInt8) (i : Nat) : Except Thrown UInt8 :=
  match bytes[i]? with
  | some b => .ok b
  | none => .error .outOfBounds

/-- `require(condition) { message }`. -/
def require (condition : Bool) (message : JsString) : Except Thrown Unit :=
  if condition then .ok () else .error (.illegalArgument message)

/-- `if (condition) throw DecryptException(message)`. -/
def throwIf (condition : Bool) (message : JsString) : Except Thrown Unit :=
  if condition then .error (.decryptException message) else .ok ()

variable (h : Hashes) (d : Jvm)

/-- `encrypt(plaintext, conversationKey, nonce)`. -/
def encrypt (plaintext : String) (conversationKey nonce : List UInt8) : Except Thrown JsString := do
  require (conversationKey.length = 32) (js "conversation key must be 32 bytes")
  require (nonce.length = 32) (js "nonce must be 32 bytes")
  let pt := utf8 plaintext
  require (pt ≠ []) (js "NIP-44 plaintext must not be empty")
  require (pt.length ≤ maxPlaintextBytes) (js "NIP-44 plaintext is " ++ natToString pt.length ++ js " bytes, over the 65535-byte ceiling")
  let keys := (h.hkdfExpand conversationKey nonce).toList
  let chachaKey ← copyOfRange keys 0 32
  let chachaNonce ← copyOfRange keys 32 44
  let hmacKey ← copyOfRange keys 44 76
  let size := 2 + (← calcPaddedLen pt.length)
  let padded := UInt8.ofNat (pt.length >>> 8) :: UInt8.ofNat pt.length :: pt ++ List.replicate (size.toNat - 2 - pt.length) 0
  let ciphertext ← ChaCha20.xor chachaKey chachaNonce padded 0
  let mac := (h.hmacSha256 hmacKey (nonce ++ ciphertext)).toList
  return bytesToBase64 ([2] ++ nonce ++ ciphertext ++ mac)

/-- A `Byte` as an `Int`. -/
def signed (b : UInt8) : Int := (b.toNat : Int).bmod 256

/-- `decrypt(payload, conversationKey)`. -/
def decrypt (payload : JsString) (conversationKey : List UInt8) : Except Thrown String := do
  require (conversationKey.length = 32) (js "conversation key must be 32 bytes")
  throwIf (maxCiphertextB64 < payload.length)
    (js "NIP-44 ciphertext is " ++ natToString payload.length ++ js " base64 chars, over the " ++ natToString maxCiphertextB64 ++ js " ceiling")
  throwIf (payload.isEmpty || payload.head? = some 35) (js "unknown encryption version")
  throwIf (payload.length < minCiphertextB64) (js "invalid payload length")
  match fromBase64 payload with
  | none => .error (.decryptException (js "invalid base64"))
  | some data =>
    throwIf (data.length < 99 || 65603 < data.length) (js "invalid data length")
    let version ← byteAt data 0
    throwIf (signed version ≠ 2) (js "unknown encryption version " ++ intToString (signed version))
    let nonce ← copyOfRange data 1 33
    let ciphertext ← copyOfRange data 33 (data.length - 32)
    let mac ← copyOfRange data (data.length - 32) data.length
    let keys := (h.hkdfExpand conversationKey nonce).toList
    let hmacKey ← copyOfRange keys 44 76
    let expected := (h.hmacSha256 hmacKey (nonce ++ ciphertext)).toList
    throwIf (expected ≠ mac) (js "invalid MAC")
    let chachaKey ← copyOfRange keys 0 32
    let chachaNonce ← copyOfRange keys 32 44
    let padded ← ChaCha20.xor chachaKey chachaNonce ciphertext 0
    let high ← byteAt padded 0
    let low ← byteAt padded 1
    let len := (high.toNat <<< 8) ||| low.toNat
    throwIf (len < 1 || maxPlaintextBytes < len || (padded.length : Int) ≠ 2 + paddedLen len) (js "invalid padding")
    return toText d (← copyOfRange padded 2 (2 + len))

end Nostrautica.Nip44
