/-
At-rest protection of the event keys in `coordinator/src/store/db.ts`, and the
readers of the protected columns there and in `coordinator/src/store/backup.ts`.

NIP-44, brotli and base64 come from elsewhere. NIP-44 works on the UTF-8 bytes
of a text; its ceilings lie over all that is given to it here.
-/
import Nostrautica.Js.JsonParse
import Nostrautica.Js.Utf8
import Nostrautica.Protocol.EckIdentity

namespace Nostrautica.AtRest

open Js
open Nostrautica.Membership (EckVersion)

/-- `nip44v2.encrypt` and `decrypt` under the own conversation key of an
identity, and brotli with base64 after it. -/
structure Crypto (κ : Type*) where
  encrypt : κ → ByteArray → JsString
  /-- `none` where it throws. -/
  decrypt : κ → JsString → Option ByteArray
  compress : ByteArray → JsString
  decompress : JsString → Option ByteArray

/-- `ENC_PREFIX`. -/
def encPrefix : JsString := js "nip44:"

/-- `ENC_PACKED_PREFIX`. -/
def encPackedPrefix : JsString := js "nip44z:"

/-- `AT_REST_CHUNK`. -/
def atRestChunk : Nat := 60000

/-- `AT_REST_PACK_THRESHOLD`. -/
def atRestPackThreshold : Nat := atRestChunk

/-- `value.startsWith(prefix)`. -/
def startsWith (pre value : JsString) : Bool := pre.isPrefixOf value

/-- `toString("utf8")`, of bytes that are UTF-8. -/
def utf8ToString (bytes : ByteArray) : Option JsString :=
  (String.fromUTF8? bytes).map fun s => s.toList.flatMap unitsOfChar

/-- `packed.slice(i, i + AT_REST_CHUNK)`, for each `i`. -/
def chunks (s : JsString) : List JsString :=
  if s = [] then [] else s.take atRestChunk :: chunks (s.drop atRestChunk)
termination_by s.length
decreasing_by
  rename_i h
  have : 0 < s.length := List.length_pos_of_ne_nil h
  simp only [List.length_drop, atRestChunk]
  omega

/-- `pieces.join(".")`. -/
def joinDot : List JsString → JsString
  | [] => []
  | [p] => p
  | p :: q :: ps => p ++ js "." ++ joinDot (q :: ps)

/-- `s.split(".")`. -/
def splitDot : JsString → List JsString
  | [] => [[]]
  | c :: s =>
    if c = 46 then [] :: splitDot s
    else match splitDot s with
      | [] => [[c]]
      | p :: ps => (c :: p) :: ps

variable {κ : Type*} (x : Crypto κ)

/-- `selfEncrypt(sk, plaintext)`. -/
def selfEncrypt (sk : κ) (plaintext : JsString) : JsString := x.encrypt sk (utf8ToBytes plaintext)

/-- `selfDecrypt(sk, ciphertext)`. -/
def selfDecrypt (sk : κ) (ciphertext : JsString) : Option JsString := (x.decrypt sk ciphertext).bind utf8ToString

/-- `protect(value)`, of a store with the identity key `identitySk`. -/
def protect (identitySk : Option κ) (value : JsString) : JsString :=
  match identitySk with
  | none => value
  | some sk =>
    if (utf8ToBytes value).size ≤ atRestPackThreshold then encPrefix ++ selfEncrypt x sk value
    else encPackedPrefix ++ joinDot ((chunks (x.compress (utf8ToBytes value))).map (selfEncrypt x sk))

/-- `reveal(value)`; `none` where it throws. -/
def reveal (identitySk : Option κ) (value : JsString) : Option JsString :=
  let packed := startsWith encPackedPrefix value
  if !packed && !startsWith encPrefix value then some value
  else
    match identitySk with
    | none => none
    | some sk =>
      if !packed then selfDecrypt x sk (value.drop encPrefix.length)
      else do
        let joined ← (splitDot (value.drop encPackedPrefix.length)).mapM (selfDecrypt x sk)
        (x.decompress joined.flatten).bind utf8ToString

/-! ## The `events` table -/

/-- A row of `events`. -/
structure EventRow where
  coordinate : JsString
  config_json : JsString
  inbox_nsec : JsString
  eck_json : JsString
  config_relays : JsString
  gen : Nat
  updated_at : Int

/-- What `upsertEvent` is given. -/
structure EventInput where
  coordinate : JsString
  configJson : JsString
  inboxNsec : JsString
  eckJson : JsString
  configRelays : JsString
  gen : Option Nat
  now : Int

/-- `JSON.stringify(eck)`. -/
def eckJson (eck : List (EckVersion JsString)) : JsString :=
  stringify (.arr (eck.map fun v => .obj [(js "id", .num v.id), (js "key", .str v.key)]))

/-- The columns that an upsert sets. -/
def written (identitySk : Option κ) (row : EventInput) (gen : Nat) : EventRow where
  coordinate := row.coordinate
  config_json := row.configJson
  inbox_nsec := protect x identitySk row.inboxNsec
  eck_json := protect x identitySk row.eckJson
  config_relays := row.configRelays
  gen := row.gen.getD gen
  updated_at := row.now

/-- `upsertEvent(row)`. -/
def upsertEvent (identitySk : Option κ) (db : List EventRow) (row : EventInput) : List EventRow :=
  if db.any (·.coordinate = row.coordinate) then
    db.map fun r => if r.coordinate = row.coordinate then written x identitySk row r.gen else r
  else db ++ [written x identitySk row 0]

/-- `getEvent(coordinate)`: no row, or what it reveals; `none` where it throws. -/
def getEvent (identitySk : Option κ) (db : List EventRow) (coordinate : JsString) : Option (Option EventRow) :=
  match db.find? (·.coordinate = coordinate) with
  | none => some none
  | some row => do
    let nsec ← reveal x identitySk row.inbox_nsec
    let eck ← reveal x identitySk row.eck_json
    some (some { row with inbox_nsec := nsec, eck_json := eck })

/-- `deleteEvent(coordinate)`. -/
def deleteEvent (db : List EventRow) (coordinate : JsString) : List EventRow := db.filter (·.coordinate ≠ coordinate)

/-- What the startup pass writes over a row. -/
def encryptRow (identitySk : Option κ) (row : EventRow) : Option EventRow :=
  if startsWith encPrefix row.inbox_nsec && startsWith encPrefix row.eck_json then some row
  else do
    let nsec ← reveal x identitySk row.inbox_nsec
    let eck ← reveal x identitySk row.eck_json
    some { row with inbox_nsec := protect x identitySk nsec, eck_json := protect x identitySk eck }

/-- `encryptPlaintextKeyRows()`, of the `events` table. -/
def encryptPlaintextKeyRows (identitySk : Option κ) (db : List EventRow) : Option (List EventRow) :=
  db.mapM (encryptRow x identitySk)

/-! ## The proofs that rows decrypt -/

/-- `/^[0-9a-f]{64}$/i`. -/
def isHex64 (s : JsString) : Bool :=
  s.length = 64 && s.all fun c => isLowerHexDigit c || (65 ≤ c.val && c.val ≤ 70)

/-- Both columns decrypt, to a key and to JSON. -/
def decrypts (decrypt : JsString → Option JsString) (row : EventRow) : Bool :=
  (decrypt row.inbox_nsec).any isHex64 && (decrypt row.eck_json).any fun eck => (parseJson eck).isSome

/-- Every row decrypts: how many; `none` where it throws. -/
def proven (decrypt : JsString → Option JsString) (db : List EventRow) : Option Nat :=
  if db.all (decrypts decrypt) then some db.length else none

/-- `verifyProtectedRowsDecrypt()`. -/
def verifyProtectedRowsDecrypt (identitySk : Option κ) (db : List EventRow) : Option Nat :=
  if identitySk.isNone then none else proven (reveal x identitySk) db

/-- `decryptColumn(value, identitySk)` of `backup.ts`. -/
def decryptColumn (sk : κ) (value : JsString) : Option JsString :=
  if startsWith encPrefix value then selfDecrypt x sk (value.drop encPrefix.length) else some value

/-- `proveDecrypts(snapshot, identitySk)`. -/
def proveDecrypts (sk : κ) (db : List EventRow) : Option Nat := proven (decryptColumn x sk) db

/-- `decryptedRows` of `inspectDatabaseReadOnly(path, identitySk)`, which has the
two tests of `decryptColumn` in its body; `none` where it throws. -/
def inspectDatabaseReadOnly (identitySk : Option κ) (db : List EventRow) : Option (Option Nat) :=
  match identitySk with
  | none => some none
  | some sk =>
    (proven (fun value =>
      if startsWith encPrefix value then selfDecrypt x sk (value.drop encPrefix.length) else some value) db).map some

/-! ## The store at work -/

/-- What becomes of the table: by a store with its key, or by one of before, without. -/
inductive Act
  | upsertEvent (keyed : Bool) (row : EventInput)
  | deleteEvent (coordinate : JsString)
  /-- A start of the store with its key. -/
  | encryptPlaintextKeyRows

def act (sk : κ) (db : List EventRow) : Act → Option (List EventRow)
  | .upsertEvent keyed row => some (upsertEvent x (if keyed then some sk else none) db row)
  | .deleteEvent coordinate => some (deleteEvent db coordinate)
  | .encryptPlaintextKeyRows => encryptPlaintextKeyRows x (some sk) db

def Step (sk : κ) (db : List EventRow) (a : Act) (db' : List EventRow) : Prop := act x sk db a = some db'

/-- The startup pass, `n` times. -/
def startups (sk : κ) (db : List EventRow) : Nat → Option (List EventRow)
  | 0 => some db
  | n + 1 => (encryptPlaintextKeyRows x (some sk) db).bind fun db => startups sk db n

end Nostrautica.AtRest
