/-
`GiftWrap.kt` and `NostrEvent.kt` of `android/protocol`: `GiftWrap.unwrapLocal`, with
`NostrEvent.fromJson` and `verify`, over the types of the web's `unwrapRumor`.

What `kotlinx.serialization` reads out of a text, and its `long` and `int` of a literal, are
parameters.
-/
import Nostrautica.Android.Roster
import Nostrautica.Protocol.Unwrap

namespace Nostrautica.Android.GiftWrap

open Js Nostrautica.Unwrap
open Nostrautica.GiftWrap (Rumor kindSeal)
open Nostrautica.Android.Roster (longToString)

/-- `JsonElement`; `null` and the booleans are primitives that are no strings. -/
inductive Element
  | primitive (content : JsString) (isString : Bool)
  | arr (elems : List Element)
  | obj (members : List (JsString × Element))

/-- What is used of `kotlinx.serialization`, and of `Character`. -/
structure Kotlinx where
  /-- `Json.parseToJsonElement(s)`; `none` where it throws. -/
  parseToJsonElement : JsString → Option Element
  /-- `JsonPrimitive.long` of a content; `none` where it throws, and `longOrNull` is null. -/
  long : JsString → Option Int
  /-- `JsonPrimitive.int` of a content. -/
  int : JsString → Option Int
  /-- Both read the same number. -/
  int_of_long : ∀ {content n}, long content = some n → -2 ^ 31 ≤ n → n < 2 ^ 31 → int content = some n
  /-- `Character.digit(c, 10)` of a unit that is no ASCII digit. -/
  otherDigit : CodeUnit → Option Nat

/-- The primitive's content, whether or not it is quoted. -/
def asPrimitive : Element → Option JsString
  | .primitive content _ => some content
  | _ => none

/-- The content of a primitive that `isString`. -/
def asString : Element → Option JsString
  | .primitive content true => some content
  | _ => none

/-- The content of a primitive that is not. -/
def asLiteral : Element → Option JsString
  | .primitive content false => some content
  | _ => none

def asArray : Element → Option (List Element)
  | .arr elems => some elems
  | _ => none

def asTag (e : Element) : Option (List JsString) := (asArray e).bind (List.mapM asString)

section

variable (K : Kotlinx)

/-- `digitOf(c, 10)`. -/
def digitOf (c : CodeUnit) : Option Nat := if isDigit c then some (c.val - 48) else K.otherDigit c

/-- The number that digits make, most significant first. -/
def digitsOf (s : JsString) : Option Nat := (s.mapM (digitOf K)).map fun ds => ds.foldl (fun n d => 10 * n + d) 0

/-- `s.toLongOrNull()` without the bound; a sign may stand first, a plus too. -/
def toIntegerOrNull : JsString → Option Int
  | [] => none
  | c :: s =>
    if c.val < 48 then
      if s = [] then none
      else if c.val = 45 then (digitsOf K s).map fun n => -(n : Int)
      else if c.val = 43 then (digitsOf K s).map Int.ofNat
      else none
    else (digitsOf K (c :: s)).map Int.ofNat

/-- `s.toIntOrNull()` with 32 bits, `s.toLongOrNull()` with 64. -/
def toBoundedOrNull (bits : Nat) (s : JsString) : Option Int :=
  (toIntegerOrNull K s).filter fun n => -2 ^ (bits - 1) ≤ n && n < 2 ^ (bits - 1)

/-! ## The seal -/

/-- `NostrEvent.fromJson(o)`. -/
def fromJson (o : List (JsString × Element)) : Option Signed := do
  let id ← (lookup o "id").bind asString
  let pubkey ← (lookup o "pubkey").bind asPrimitive
  let createdAt ← ((lookup o "created_at").bind asPrimitive).bind K.long
  let kind ← ((lookup o "kind").bind asPrimitive).bind K.int
  let tags ← ((lookup o "tags").bind asArray).bind (List.mapM asTag)
  let content ← (lookup o "content").bind asString
  let sig ← (lookup o "sig").bind asPrimitive
  some { pubkey, created_at := .digits (longToString createdAt), kind, tags, content, id, sig }

/-- `GiftWrap.verifiedSeal(json)` up to the check of the event. -/
def sealEvent : Element → Option Signed
  | .obj o => do
    if ((lookup o "kind").bind asPrimitive).bind K.long ≠ some (kindSeal : Int) then none else
    let tags ← (lookup o "tags").bind asArray
    if tags ≠ [] then none else
    fromJson K o
  | _ => none

variable {Sk : Type} (C : Crypto Sk)

/-- `event.verify()`. -/
def verify (e : Signed) : Bool := isHex32 e.id && isHex32 e.pubkey && isHex64Sig e.sig && authentic C e

/-- The fields that `finalizeRumor` reads, of a kind that is allowed. -/
def rumorFields (allowedKinds : List Nat) : Element → Option Parsed
  | .obj o => do
    let id ← ((lookup o "id").bind asString).filter isHex32
    let pubkey ← ((lookup o "pubkey").bind asString).filter isHex32
    let kind ← (((lookup o "kind").bind asLiteral).bind (toBoundedOrNull K 32)).filter (0 ≤ ·)
    if allowedKinds.contains kind.toNat = false then none else
    let createdAt ← (((lookup o "created_at").bind asLiteral).bind (toBoundedOrNull K 64)).filter (0 ≤ ·)
    let tags ← ((lookup o "tags").bind asArray).bind (List.mapM asTag)
    let content ← (lookup o "content").bind asString
    some { id, pubkey, created_at := createdAt, kind := kind.toNat, tags, content, written := .digits (longToString createdAt) }
  | _ => none

end

end Nostrautica.Android.GiftWrap
