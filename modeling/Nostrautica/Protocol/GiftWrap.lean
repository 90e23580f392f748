/-
The two texts that a gift wrap encrypts, a rumor and the seal around it, and the ceiling
of each: `protocol/src/giftwrap.ts` over `protocol/src/crypto.ts`.

`calcPaddedLen` of NIP-44 is a parameter.
-/
import Nostrautica.Protocol.Schemas
import Nostrautica.Js.JsonText

namespace Nostrautica.GiftWrap

open Js

structure Rumor where
  id : JsString
  pubkey : JsString
  created_at : Int
  kind : Nat
  tags : List (List JsString)
  content : JsString
  deriving DecidableEq

/-- `JSON.stringify(rumor)`. -/
def Rumor.jsonText (r : Rumor) : JsString :=
  objectText [(js "created_at", intToString r.created_at), (js "content", quote r.content),
    (js "tags", arrayText (r.tags.map fun tag => arrayText (tag.map quote))), (js "kind", intToString r.kind),
    (js "pubkey", quote r.pubkey), (js "id", quote r.id)]

/-- A seal, which has no tags. -/
structure Seal where
  id : JsString
  pubkey : JsString
  created_at : Int
  content : JsString
  sig : JsString
  deriving DecidableEq

/-- `KIND_SEAL`. -/
def kindSeal : Nat := 13

/-- `JSON.stringify(seal)`. -/
def Seal.jsonText (s : Seal) : JsString :=
  objectText [(js "kind", intToString kindSeal), (js "content", quote s.content), (js "created_at", intToString s.created_at),
    (js "tags", arrayText []), (js "pubkey", quote s.pubkey), (js "id", quote s.id), (js "sig", quote s.sig)]

/-- The plaintext `encrypt` takes at most, in bytes. -/
def maxPlaintextBytes : Nat := 65535

/-- The length in base 64 of a ciphertext: a version byte, a nonce, the padded text after
its length, and a MAC. -/
def ciphertextLength (calcPaddedLen : Nat → Nat) (plaintext : Nat) : Nat := (1 + 32 + (2 + calcPaddedLen plaintext) + 32 + 2) / 3 * 4

/-- A rumor fits a gift wrap: its text fits a seal, and the text of the seal fits the wrap. -/
structure Fits (calcPaddedLen : Nat → Nat) (r : Rumor) (s : Seal) : Prop where
  rumor_le : utf8ByteLength r.jsonText ≤ maxPlaintextBytes
  content_length : s.content.length = ciphertextLength calcPaddedLen (utf8ByteLength r.jsonText)
  seal_le : utf8ByteLength s.jsonText ≤ maxPlaintextBytes

end Nostrautica.GiftWrap
