/-
JSON texts written part by part, and their size in UTF-8. A part is a text that is
written already, such as a number's.
-/
import Nostrautica.Js.JsonFacts

namespace Js

/-- An array, from the texts of its elements. -/
def arrayText (elems : List JsString) : JsString := js "[" ++ joinComma elems ++ js "]"

/-- An object, from its keys and the texts of their values. -/
def objectText (fields : List (JsString × JsString)) : JsString :=
  js "\x7b" ++ joinComma (fields.map fun p => quote p.1 ++ js ":" ++ p.2) ++ js "\x7d"

/-- The bytes of an array. -/
def arrayBytes (elems : List Nat) : Nat := 2 + commaSum elems

/-- The bytes of an object, from its keys and the bytes of their values. -/
def objectBytes (fields : List (JsString × Nat)) : Nat := 2 + commaSum (fields.map fun p => quoteBytes p.1 + 1 + p.2)

theorem utf8ByteLength_arrayText (elems : List JsString) :
    utf8ByteLength (arrayText elems) = arrayBytes (elems.map utf8ByteLength) := by
  have hl : isAscii (js "[") = true ∧ (js "[").length = 1 := by decide
  have hr : isAscii (js "]") = true ∧ (js "]").length = 1 := by decide
  rw [arrayText, List.append_assoc, utf8ByteLength_ascii_append hl.1, utf8ByteLength_append_ascii hr.1,
    utf8ByteLength_joinComma, hl.2, hr.2, arrayBytes]
  omega

theorem utf8ByteLength_objectText (fields : List (JsString × JsString)) :
    utf8ByteLength (objectText fields) = objectBytes (fields.map fun p => (p.1, utf8ByteLength p.2)) := by
  have hl : isAscii (js "\x7b") = true ∧ (js "\x7b").length = 1 := by decide
  have hr : isAscii (js "\x7d") = true ∧ (js "\x7d").length = 1 := by decide
  have hc : isAscii (js ":") = true ∧ (js ":").length = 1 := by decide
  have field : ∀ p : JsString × JsString, utf8ByteLength (quote p.1 ++ js ":" ++ p.2) = quoteBytes p.1 + 1 + utf8ByteLength p.2 := by
    intro p
    have hb : ∀ d ∈ (js ":" ++ p.2).head?, isLowSurrogate d = false := by
      intro d hd
      have : js ":" = [58] := by decide
      rw [this] at hd
      cases hd
      decide
    rw [List.append_assoc, utf8ByteLength_append hb, utf8ByteLength_ascii_append hc.1, hc.2, quoteBytes, Nat.add_assoc]
  have fields_eq : (fields.map fun p => quote p.1 ++ js ":" ++ p.2).map utf8ByteLength =
      (fields.map fun p => (p.1, utf8ByteLength p.2)).map fun p => quoteBytes p.1 + 1 + p.2 := by
    rw [List.map_map, List.map_map]
    exact List.map_congr_left fun p _ => field p
  rw [objectText, List.append_assoc, utf8ByteLength_ascii_append hl.1, utf8ByteLength_append_ascii hr.1,
    utf8ByteLength_joinComma, hl.2, hr.2, objectBytes, fields_eq]
  omega

end Js
