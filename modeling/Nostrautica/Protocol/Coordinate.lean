/-
`protocol/src/coordinate.ts`, and what `hierarchy.ts` asks of a coordinate.
-/
import Nostrautica.Protocol.Schemas

namespace Nostrautica

open Js

/-- `KIND_CALENDAR_EVENT`: a dated event. -/
def kindCalendarEvent : Nat := 31923

/-- `KIND_COMMUNITY`: a standing community. -/
def kindCommunity : Nat := 31612

/-- `KIND_EVENT_CONFIG`. -/
def kindEventConfig : Nat := 31600

/-- `SPACE_KINDS`. -/
def spaceKinds : List Nat := [kindCalendarEvent, kindCommunity]

/-- `MAX_CHILDREN`: events one community lists. -/
def maxChildren : Nat := 500

structure EventCoordinate where
  kind : Nat
  pubkey : JsString
  identifier : JsString
  deriving DecidableEq

/-- `makeCoordinate(pubkey, d, kind)`. -/
def makeCoordinate (pubkey d : JsString) (kind : Nat) : JsString :=
  natToString kind ++ js ":" ++ pubkey ++ js ":" ++ d

/-- `s` at its first colon, without the colon. -/
def splitColon : JsString → Option (JsString × JsString)
  | [] => none
  | c :: s => if c.val = 58 then some ([], s) else (splitColon s).map fun p => (c :: p.1, p.2)

/-- `/^(0|[1-9][0-9]*)$/`. -/
def isCanonicalDecimal (s : JsString) : Bool :=
  match s with
  | [] => false
  | c :: rest => if c.val = 48 then rest.isEmpty else s.all isDigit

/-- `parseCoordinate`: `kind:pubkey:d`, where `d` may have colons. -/
def parseCoordinate (coordinate : JsString) : Except JsString EventCoordinate :=
  let invalid := js "invalid coordinate: " ++ coordinate
  match splitColon coordinate with
  | none => .error invalid
  | some (kindText, rest) =>
    match splitColon rest with
    | none => .error invalid
    | some (pubkey, identifier) =>
      match (toNumber kindText).toNat? with
      | none => .error invalid
      | some kind =>
        if isCanonicalDecimal kindText ∧ kind ≤ 65535 ∧ isHex32 pubkey then .ok { kind, pubkey, identifier }
        else .error invalid

/-- The coordinate parses and has the kind. -/
def hasKind (kind : Nat) (coordinate : JsString) : Bool :=
  match parseCoordinate coordinate with
  | .ok c => c.kind == kind
  | .error _ => false

def isValidParentCoordinate : JsString → Bool := hasKind kindCommunity

def isValidChildCoordinate : JsString → Bool := hasKind kindCalendarEvent

theorem hasKind_ne_nil {kind : Nat} {c : JsString} (h : hasKind kind c = true) : c ≠ [] := by
  rintro rfl
  exact Bool.false_ne_true h

/-- The kind is what two coordinates over one pubkey and `d` differ in. -/
theorem makeCoordinate_ne (pubkey d : JsString) :
    makeCoordinate pubkey d kindCalendarEvent ≠ makeCoordinate pubkey d kindCommunity := by
  unfold makeCoordinate
  intro h
  have h := List.append_cancel_right (List.append_cancel_right (List.append_cancel_right (List.append_cancel_right h)))
  exact absurd h (by decide +kernel)

end Nostrautica
