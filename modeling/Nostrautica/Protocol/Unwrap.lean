/-
`unwrapRumor` of `protocol/src/giftwrap.ts`: from a gift wrap to the rumor in it, over the texts
that its two layers decrypt to.

Decryption, the hash of an event and the check of a signature are parameters.
-/
import Nostrautica.Js.JsonParse
import Nostrautica.Protocol.GiftWrap

namespace Nostrautica.Unwrap

open Js
open Nostrautica.GiftWrap (Rumor kindSeal)

/-- `KIND_GIFT_WRAP`. -/
def kindGiftWrap : Nat := 1059

/-- `RUMOR_KINDS`. -/
def rumorKinds : List Nat := [14, 21600, 21601, 21602, 21603, 21604, 21605, 21606, 21607, 21608, 21609, 21610]

/-- `RUMOR_MAX_CLOCK_SKEW_SEC`. -/
def rumorMaxClockSkewSec : Int := 15 * 60

/-- How a `created_at` is written into what is hashed: an integer by its digits. A fraction's
digits are not modelled, it stands for itself. -/
inductive Written
  | digits (text : JsString)
  | fraction (n : Number)
  deriving DecidableEq

/-- What is hashed of an event. -/
structure Unsigned where
  pubkey : JsString
  created_at : Written
  kind : Int
  tags : List (List JsString)
  content : JsString
  deriving DecidableEq

structure Signed extends Unsigned where
  id : JsString
  sig : JsString
  deriving DecidableEq

/-- `HEX64_SIG.test(s)`. -/
def isHex64Sig (s : JsString) : Bool := isLowerHex 128 s

/-- A gift wrap, its id, author and signature in the form of NIP-01. -/
structure Wrap extends Signed where
  id_hex : isHex32 id = true
  pubkey_hex : isHex32 pubkey = true
  sig_hex : isHex64Sig sig = true

/-- The cryptography, with secret keys of a type. -/
structure Crypto (Sk : Type) where
  /-- `nip44Decrypt(sk, pubkey, content)`; `none` where it throws. -/
  nip44Decrypt : Sk → JsString → JsString → Option JsString
  getEventHash : Unsigned → JsString
  /-- Whether a signature of an id is its author's. -/
  verify : JsString → JsString → JsString → Bool

/-- A member of an object that was parsed: of a name that is repeated, the last. -/
def lookup {α : Type} (members : List (JsString × α)) (key : String) : Option α :=
  (members.reverse.find? fun m => m.1 = js key).map Prod.snd

/-- `typeof v === "string"`. -/
def asString : Raw → Option JsString
  | .str s => some s
  | _ => none

/-- `typeof v === "number"`. -/
def asNumber : Raw → Option Number
  | .num literal => some (toNumber literal)
  | _ => none

def asArray : Raw → Option (List Raw)
  | .arr elems => some elems
  | _ => none

/-- What `JSON.stringify` writes of a number; nothing finite of an infinity. -/
def written (n : Number) : Option Written :=
  match n, n.toInt? with
  | _, some v => some (.digits (intToString v))
  | .finite _ _ _, none => some (.fraction n)
  | _, none => none

/-! ## The seal -/

/-- The shape that `assertVerifiedSeal` asks for. -/
def sealShape : Raw → Option Signed
  | .obj s => do
    let kind ← (lookup s "kind").bind asNumber
    if kind.toInt? ≠ some (kindSeal : Int) then none else
    let pubkey ← ((lookup s "pubkey").bind asString).filter isHex32
    let id ← ((lookup s "id").bind asString).filter isHex32
    let sig ← ((lookup s "sig").bind asString).filter isHex64Sig
    let created_at ← ((lookup s "created_at").bind asNumber).bind written
    let content ← (lookup s "content").bind asString
    let tags ← (lookup s "tags").bind asArray
    if tags.length ≠ 0 then none else
    some { pubkey, created_at, kind := kindSeal, tags := [], content, id, sig }
  | _ => none

section

variable {Sk : Type} (C : Crypto Sk)

/-- The id is the hash, and the signature is the author's. -/
def authentic (e : Signed) : Bool := C.getEventHash e.toUnsigned = e.id && C.verify e.sig e.id e.pubkey

/-- `verifyEvent(event)`, which also throws out an author that is not lowercase hex. -/
def verifyEvent (e : Signed) : Bool := isHex32 e.pubkey && authentic C e

/-- `assertVerifiedSeal(raw)`. -/
def assertVerifiedSeal (raw : Raw) : Option Signed := (sealShape raw).filter (verifyEvent C)

end

/-! ## The rumor -/

/-- A rumor that was parsed, with its `created_at` as it is hashed. -/
structure Parsed extends Rumor where
  written : Written
  deriving DecidableEq

/-- What is hashed of a rumor. -/
def Parsed.unsigned (r : Parsed) : Unsigned :=
  { pubkey := r.pubkey, created_at := r.written, kind := r.kind, tags := r.tags, content := r.content }

/-- A number that is a non-negative integer. -/
def asCount (raw : Raw) : Option Nat := (asNumber raw).bind Number.toNat?

/-- A list of strings. -/
def asTag (raw : Raw) : Option (List JsString) := (asArray raw).bind (List.mapM asString)

/-- The shape that `assertRumorShape` asks for, and a kind that is allowed. -/
def rumorShape (allowedKinds : List Nat) : Raw → Option Parsed
  | .obj r => do
    let id ← ((lookup r "id").bind asString).filter isHex32
    let pubkey ← ((lookup r "pubkey").bind asString).filter isHex32
    let kind ← ((lookup r "kind").bind asCount).filter allowedKinds.contains
    let created_at ← (lookup r "created_at").bind asCount
    let tags ← ((lookup r "tags").bind asArray).bind (List.mapM asTag)
    let content ← (lookup r "content").bind asString
    some { id, pubkey, created_at, kind, tags, content, written := .digits (natToString created_at) }
  | _ => none

/-- `rumorEffectiveCreatedAt(createdAt, nowSec)`. -/
def rumorEffectiveCreatedAt (createdAt nowSec : Int) : Int :=
  let maxCreatedAt := nowSec + rumorMaxClockSkewSec
  if createdAt > maxCreatedAt then maxCreatedAt else createdAt

section

variable {Sk : Type} (C : Crypto Sk)

/-- `finalizeUnwrappedRumor(raw, sealPubkey, allowedKinds)`. -/
def finalizeUnwrappedRumor (raw : Raw) (sealPubkey : JsString) (allowedKinds : List Nat) (nowSec : Int) : Option Rumor := do
  let rumor ← rumorShape allowedKinds raw
  if rumor.pubkey ≠ sealPubkey then none else
  if rumor.id ≠ C.getEventHash rumor.unsigned then none else
  some { rumor.toRumor with created_at := rumorEffectiveCreatedAt rumor.created_at nowSec }

/-- `unwrapRumor(wrap, recipientSk, allowedKinds)`. -/
def unwrapRumor (wrap : Wrap) (recipientSk : Sk) (allowedKinds : List Nat) (nowSec : Int) : Option Rumor := do
  if wrap.kind ≠ kindGiftWrap then none else
  if verifyEvent C wrap.toSigned = false then none else
  let sealText ← C.nip44Decrypt recipientSk wrap.pubkey wrap.content
  let sealed ← (parseJson sealText).bind (assertVerifiedSeal C)
  let rumorText ← C.nip44Decrypt recipientSk sealed.pubkey sealed.content
  let raw ← parseJson rumorText
  finalizeUnwrappedRumor C raw sealed.pubkey allowedKinds nowSec

end

end Nostrautica.Unwrap
