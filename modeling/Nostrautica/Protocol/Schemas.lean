/-
The bounds and field shapes of `protocol/src/schemas.ts` that the modelled
functions read.
-/
import Nostrautica.Js.Number

namespace Nostrautica

open Js

/-- `PROTOCOL_VERSION`. -/
def protocolVersion : Nat := 2

/-- `ROSTER_PAGED_VERSION`: the `v` of a roster page. -/
def rosterPagedVersion : Nat := 3

/-- `MAX_ROSTER`: members of one roster. -/
def maxRoster : Nat := 2000

/-- `MAX_ROSTER_PAGE`: members of one roster page. -/
def maxRosterPage : Nat := 700

/-- `MAX_ROSTER_PAGES`. -/
def maxRosterPages : Nat := 40

/-- `MAX_D`. -/
def maxD : Nat := 200

/-- `MAX_CHAT_KEY_LABEL`. -/
def maxChatKeyLabel : Nat := 60

/-- `MAX_CHAT_KEYS_PER_ACCOUNT`. -/
def maxChatKeysPerAccount : Nat := 10

/-- `MAX_SETTINGS_TOMBSTONES`: removed entries a settings clock keeps for each field. -/
def maxSettingsTombstones : Nat := 200

/-- `HEX32.test(s)`: a lowercase 32-byte hex string. -/
def isHex32 (s : JsString) : Bool := isLowerHex 64 s

/-- `z.number().int()`: the size every integer-valued number keeps to. -/
def isNumberInt (n : Int) : Bool := n.natAbs < numberLimit

/-- A value of the schema `hex32`. -/
structure Hex32 where
  val : JsString
  ok : isHex32 val = true
  deriving DecidableEq

theorem Hex32.val_inj {a b : Hex32} : a.val = b.val ↔ a = b :=
  ⟨fun h => by cases a; cases b; cases h; rfl, congrArg _⟩

end Nostrautica
