/-
The snapshot of a logout, in `app/src/lib/chat/identity.ts`: the rows of an account's chat stores as
one JSON text, cut into pieces a signer takes, and read back at the next login.

The rows of the backend are a map, which nothing else writes in the meantime.
-/
import Nostrautica.Js.Value
import Nostrautica.Protocol.Base64
import Nostrautica.Store.AtRest

namespace Nostrautica.ChatSnapshot

open Js Base64 EckIdentity AtRest

/-! ## Pieces -/

/-- How many units of the text are walked, by code points, from `bytes` on. -/
def walked (maxBytes : Nat) : Nat → JsString → Nat
  | _, [] => 0
  | bytes, [c] => if bytes + unitBytes c > maxBytes then 0 else 1
  | bytes, c :: d :: s =>
    if isHighSurrogate c && isLowSurrogate d then
      if bytes + 4 > maxBytes then 0 else 2 + walked maxBytes (bytes + 4) s
    else if bytes + unitBytes c > maxBytes then 0
    else 1 + walked maxBytes (bytes + unitBytes c) (d :: s)

/-- One unit at least: never loop forever. -/
def pieceEnd (maxBytes : Nat) (text : JsString) : Nat :=
  if walked maxBytes 0 text = 0 then 1 else walked maxBytes 0 text

def pieces (maxBytes : Nat) (text : JsString) : List JsString :=
  if text = [] then [] else text.take (pieceEnd maxBytes text) :: pieces maxBytes (text.drop (pieceEnd maxBytes text))
termination_by text.length
decreasing_by
  rename_i hne
  have hpos : 0 < text.length := List.length_pos_of_ne_nil hne
  have hend : 0 < pieceEnd maxBytes text := by
    unfold pieceEnd
    split <;> omega
  rw [List.length_drop]
  omega

/-- `chunkByBytes(text, maxBytes)`. -/
def chunkByBytes (text : JsString) (maxBytes : Nat) : List JsString :=
  if utf8ByteLength text ≤ maxBytes then [text] else pieces maxBytes text

/-- `LOCK_CHUNK_PREFIX`. -/
def lockChunkPrefix : JsString := js "nip44c:"

/-- `LOCK_CHUNK_BYTES`. -/
def lockChunkBytes : Nat := 60000

/-! ## Values -/

def u8 : JsString := js "__u8__"

/-- `replacer` of a `Uint8Array`. -/
def tagged (b : List UInt8) : Raw := .obj [(u8, .str (bytesToBase64 b))]

/-- `JSON.stringify(value, replacer)`, or `none` where it throws: of a `bigint`. -/
def stringify (value : Value) : Option JsString := (tree tagged (fun _ => none) value).map rawText

section Reviver

-- `base64ToBytes` of what is no string, as the language turns it into one.
variable (other : Value → Option (List UInt8))

/-- `reviver`, of an object. -/
def reviveObj (fields : List (JsString × Value)) : Option Value :=
  match look u8 fields with
  | none => some (.obj fields)
  | some (.str b64) => (base64ToBytes b64).map .bytes
  | some v => (other v).map .bytes

mutual

/-- `JSON.parse(text, reviver)`, of the tree of the text: from the leaves up. -/
def revive : Raw → Option Value
  | .null => some .null
  | .bool b => some (.bool b)
  | .num literal => some (.num literal)
  | .str s => some (.str s)
  | .arr elems => (reviveElems elems).map .arr
  | .obj members => (settle (own (reviveMembers members))).bind (reviveObj other)

def reviveElems : List Raw → Option (List Value)
  | [] => some []
  | r :: rest => do
    let v ← revive r
    let vs ← reviveElems rest
    return v :: vs

def reviveMembers : List (JsString × Raw) → List (JsString × Option Value)
  | [] => []
  | (k, r) :: rest => (k, revive r) :: reviveMembers rest

end

def parse (text : JsString) : Option Value := (parseJson text).bind (revive other)

end Reviver

/-- `Object.entries(v)`, or `none` where it throws. -/
def entries : Value → Option (List (JsString × Value))
  | .null => none
  | .bool _ | .num _ | .bigint _ => some []
  | .str s => some (s.zipIdx.map fun p => (indexText p.2, .str [p.1]))
  | .bytes b => some (b.zipIdx.map fun p => (indexText p.2, .num (indexText p.1.toNat)))
  | .arr elems => some (elems.zipIdx.map fun p => (indexText p.2, p.1))
  | .obj fields => some fields
where
  indexText (i : Nat) : JsString := if i = 0 then js "0" else decimal i

/-! ## Rows -/

/-- `SEP`. -/
def sep : JsString := [0x1F]

def identityPrefix (identity : JsString) : JsString := identity ++ sep

def deviceKeyKey (account : JsString) : JsString := js "__chat_device_key__" ++ (sep ++ account)

def clientIdKey (chatPubkey : JsString) : JsString := js "__chat_client_id__" ++ (sep ++ chatPubkey)

def legacyClientIdKey (chatPubkey : JsString) : JsString := js "__chat_legacy_client_id__" ++ (sep ++ chatPubkey)

def deviceLabelKey (chatPubkey : JsString) : JsString := js "__chat_device_label__" ++ (sep ++ chatPubkey)

def lockedKey (account : JsString) : JsString := js "__chat_locked__" ++ (sep ++ account)

abbrev Rows := JsMap JsString Value

/-- `backend.keysWithPrefix(prefix)`. -/
def keysWithPrefix (rows : Rows) (pre : JsString) : List JsString := rows.keys.filter (startsWith pre)

/-- The signer of the account, and `getPublicKey` as a hex string; `none` where one of them throws. -/
structure Signer where
  getPublicKey : List UInt8 → Option JsString
  encrypt : JsString → Option JsString
  decrypt : JsString → Option JsString

variable (signer : Signer) (account : JsString)

/-- `chatKeysFor(account)`, or `none` where it throws. -/
def chatKeysFor (rows : Rows) : Option (List JsString) :=
  match rows.get? (deviceKeyKey account) with
  | some (.bytes deviceKey) => (signer.getPublicKey deviceKey).map fun chatPubkey =>
      (keysWithPrefix rows (identityPrefix account) ++ keysWithPrefix rows (identityPrefix chatPubkey) ++
        [deviceKeyKey account, clientIdKey chatPubkey, legacyClientIdKey chatPubkey, deviceLabelKey chatPubkey]).eraseDups
  | _ => some (keysWithPrefix rows (identityPrefix account)).eraseDups

/-- What the dump has: a key without a row is `undefined`, which `JSON.stringify` leaves out. -/
def dump (rows : Rows) (keys : List JsString) : List (JsString × Value) := keys.filterMap fun key => (rows.get? key).map (key, ·)

/-- What is stored of the plaintext, or `none` where the signer fails. -/
def stored (plaintext : JsString) : Option JsString :=
  match chunkByBytes plaintext lockChunkBytes with
  | [_] => signer.encrypt plaintext
  | ps => (ps.mapM signer.encrypt).map fun cs => lockChunkPrefix ++ joinDot cs

def lockChatIdentityForLogout (rows : Rows) : Rows :=
  match chatKeysFor signer account rows with
  | none | some [] => rows
  | some keys =>
    match (stringify (.obj (dump rows keys))).bind (stored signer) with
    | none => rows
    | some text => keys.foldl JsMap.delete (rows.set (lockedKey account) (.str text))

/-- The plaintext of what is stored. -/
def opened (ciphertext : JsString) : Option JsString :=
  if startsWith lockChunkPrefix ciphertext then
    ((splitDot (ciphertext.drop lockChunkPrefix.length)).mapM signer.decrypt).map List.flatten
  else signer.decrypt ciphertext

def unlockChatIdentityForLogin (other : Value → Option (List UInt8)) (rows : Rows) : Rows :=
  match rows.get? (lockedKey account) with
  | some (.str ciphertext) =>
    match ((opened signer ciphertext).bind (parse other)).bind entries with
    | none => rows
    | some fields => (fields.foldl (fun rows p => rows.set p.1 p.2) rows).delete (lockedKey account)
  | _ => rows

end Nostrautica.ChatSnapshot
