/-
The UTF-8 size of `JSON.stringify`: what an array or an object takes is what
its parts take, with a separator after each but the last (`bytes_arr`,
`bytes_obj`), and a quoted string takes at least one byte and at most six for
each unit (`bytes_quote_ge`, `bytes_quote_le`).
-/
import Nostrautica.Js.Json
import Nostrautica.Js.NumberFacts

namespace Js

/-! ## Concatenation -/

theorem not_surrogate_of_ascii {c : CodeUnit} (h : c.val < 128) : isHighSurrogate c = false ∧ isLowSurrogate c = false := by
  simp only [isHighSurrogate, isLowSurrogate, Bool.and_eq_false_iff, decide_eq_false_iff_not]
  omega

theorem utf8ByteLength_cons {c : CodeUnit} (h : isHighSurrogate c = false) (s : JsString) :
    utf8ByteLength (c :: s) = unitBytes c + utf8ByteLength s := by
  cases s with
  | nil => rfl
  | cons d s => simp [utf8ByteLength, h]

theorem unitBytes_of_ascii {c : CodeUnit} (h : c.val < 128) : unitBytes c = 1 := if_pos h

/-- A pair is never split before a unit that is not its second half. -/
theorem utf8ByteLength_append {t : JsString} (ht : ∀ d ∈ t.head?, isLowSurrogate d = false) (s : JsString) :
    utf8ByteLength (s ++ t) = utf8ByteLength s + utf8ByteLength t := by
  fun_induction utf8ByteLength s with
  | case1 => simp
  | case2 c =>
    cases t with
    | nil => rfl
    | cons d t => simp [utf8ByteLength, ht d rfl]
  | case3 c d s h ih =>
    simp only [List.cons_append, utf8ByteLength, h, if_true, ih]
    omega
  | case4 c d s h ih =>
    simp only [List.cons_append] at ih
    simp only [List.cons_append, utf8ByteLength, h, ih]
    simp [Nat.add_assoc]

theorem utf8ByteLength_of_ascii : ∀ {s : JsString}, isAscii s = true → utf8ByteLength s = s.length
  | [], _ => rfl
  | c :: s, h => by
    simp only [isAscii, List.all_cons, Bool.and_eq_true, decide_eq_true_eq] at h
    rw [utf8ByteLength_cons (not_surrogate_of_ascii h.1).1, unitBytes_of_ascii h.1, utf8ByteLength_of_ascii h.2,
      List.length_cons, Nat.add_comm]

theorem utf8ByteLength_ascii_append : ∀ {s : JsString}, isAscii s = true → ∀ t,
    utf8ByteLength (s ++ t) = s.length + utf8ByteLength t
  | [], _, t => by simp
  | c :: s, h, t => by
    simp only [isAscii, List.all_cons, Bool.and_eq_true, decide_eq_true_eq] at h
    rw [List.cons_append, utf8ByteLength_cons (not_surrogate_of_ascii h.1).1, unitBytes_of_ascii h.1,
      utf8ByteLength_ascii_append h.2, List.length_cons]
    omega

theorem utf8ByteLength_append_ascii {t : JsString} (h : isAscii t = true) (s : JsString) :
    utf8ByteLength (s ++ t) = utf8ByteLength s + t.length := by
  rw [utf8ByteLength_append _ s, utf8ByteLength_of_ascii h]
  intro d hd
  have hd := List.all_eq_true.1 h d (List.mem_of_mem_head? hd)
  exact (not_surrogate_of_ascii (by simpa using hd)).2

/-! ## Strings -/

theorem isAscii_escapeUnit {c : CodeUnit} (h : escapeUnit c ≠ [c]) : isAscii (escapeUnit c) = true := by
  have hu : isAscii (unicodeEscape c) = true := by
    have hhex : ∀ d < 16, (hexUnit d).val < 128 := by decide
    have hjs : isAscii (js "\\u") = true := by decide
    have hc := c.isLt
    simp only [unicodeEscape, isAscii_append, hjs, Bool.true_and]
    simp only [isAscii, List.all_cons, List.all_nil, Bool.and_eq_true, decide_eq_true_eq, and_true]
    exact ⟨hhex _ (by omega), hhex _ (by omega), hhex _ (by omega), hhex _ (by omega)⟩
  revert h
  simp only [escapeUnit]
  repeat' split
  all_goals first
    | exact fun _ => hu
    | exact fun h => absurd rfl h
    | exact fun _ => by decide

theorem length_escapeUnit (c : CodeUnit) : 1 ≤ (escapeUnit c).length ∧ (escapeUnit c).length ≤ 6 := by
  have hu : (unicodeEscape c).length = 6 := by simp [unicodeEscape]; rfl
  simp only [escapeUnit]
  repeat' split
  all_goals first
    | (rw [hu]; decide)
    | decide
    | exact ⟨le_rfl, by simp⟩

/-- What a unit that is no half of a pair takes, and that nothing is joined to it. -/
theorem utf8ByteLength_escapeUnit_append (c : CodeUnit) (s : JsString) :
    ∃ n, 1 ≤ n ∧ n ≤ 6 ∧ utf8ByteLength (escapeUnit c ++ s) = n + utf8ByteLength s := by
  by_cases h : escapeUnit c = [c]
  · have hhigh : isHighSurrogate c = false := by
      by_contra hc
      have hc : isHighSurrogate c = true := by simpa using hc
      have hval : 0xD800 ≤ c.val := by
        simp only [isHighSurrogate, Bool.and_eq_true, decide_eq_true_eq] at hc
        exact hc.1
      have : escapeUnit c = unicodeEscape c := by
        simp only [escapeUnit]
        repeat rw [if_neg (by omega)]
        rw [if_pos (by simp [hc])]
      rw [this] at h
      simpa [unicodeEscape] using congrArg List.length h
    refine ⟨unitBytes c, ?_, ?_, by rw [h, List.singleton_append, utf8ByteLength_cons hhigh]⟩ <;>
      simp only [unitBytes] <;> repeat' split
    all_goals decide
  · refine ⟨_, (length_escapeUnit c).1, (length_escapeUnit c).2, ?_⟩
    exact utf8ByteLength_ascii_append (isAscii_escapeUnit h) s

theorem utf8ByteLength_quoteUnits (s t : JsString) :
    ∃ n, s.length ≤ n ∧ n ≤ 6 * s.length ∧ utf8ByteLength (quoteUnits s ++ t) = n + utf8ByteLength t := by
  fun_induction quoteUnits s with
  | case1 => exact ⟨0, by simp⟩
  | case2 c =>
    obtain ⟨n, h1, h6, hn⟩ := utf8ByteLength_escapeUnit_append c t
    exact ⟨n, h1, h6, hn⟩
  | case3 c d s h ih =>
    obtain ⟨n, h1, h6, hn⟩ := ih
    refine ⟨4 + n, ?_, ?_, ?_⟩
    · simp only [List.length_cons]; omega
    · simp only [List.length_cons]; omega
    · simp only [List.cons_append, utf8ByteLength, h, if_true, hn]; omega
  | case4 c d s h ih =>
    obtain ⟨n, h1, h6, hn⟩ := ih
    obtain ⟨m, m1, m6, hm⟩ := utf8ByteLength_escapeUnit_append c (quoteUnits (d :: s) ++ t)
    refine ⟨m + n, ?_, ?_, ?_⟩
    · simp only [List.length_cons] at h1 ⊢; omega
    · simp only [List.length_cons] at h6 ⊢; omega
    · rw [List.append_assoc, hm, hn]; omega

/-- The bytes of a string with its quotes. -/
def quoteBytes (s : JsString) : Nat := utf8ByteLength (quote s)

theorem quoteBytes_bounds (s : JsString) : s.length + 2 ≤ quoteBytes s ∧ quoteBytes s ≤ 6 * s.length + 2 := by
  have hq : isAscii (js "\"") = true ∧ (js "\"").length = 1 := by decide
  obtain ⟨n, h1, h6, hn⟩ := utf8ByteLength_quoteUnits s (js "\"")
  have h : quoteBytes s = n + 2 := by
    rw [quoteBytes, quote, List.append_assoc, utf8ByteLength_ascii_append hq.1, hn, utf8ByteLength_of_ascii hq.1, hq.2]
    omega
  omega

/-! ## Values -/

/-- `utf8ByteLength(JSON.stringify(v))`. -/
def Json.bytes (v : Json) : Nat := utf8ByteLength (stringify v)

/-- The bytes of parts with a comma between each two. -/
def commaSum (ns : List Nat) : Nat := (ns.map (· + 1)).sum - 1

theorem commaSum_append_singleton (ns : List Nat) (n : Nat) : commaSum (ns ++ [n]) = (ns.map (· + 1)).sum + n := by
  simp [commaSum]

theorem utf8ByteLength_joinComma : ∀ ps : List JsString, utf8ByteLength (joinComma ps) = commaSum (ps.map utf8ByteLength)
  | [] => rfl
  | [p] => by simp [joinComma, commaSum]
  | p :: q :: ps => by
    have hc : isAscii (js ",") = true ∧ (js ",").length = 1 := by decide
    have hb : ∀ d ∈ (js "," ++ joinComma (q :: ps)).head?, isLowSurrogate d = false := by
      intro d hd
      have : js "," = [44] := by decide
      rw [this] at hd
      cases hd
      decide
    rw [joinComma, List.append_assoc, utf8ByteLength_append hb, utf8ByteLength_ascii_append hc.1, hc.2,
      utf8ByteLength_joinComma (q :: ps)]
    simp only [commaSum, List.map_cons, List.sum_cons]
    omega

theorem bytes_num_le {n : Int} (h : n.natAbs < numberLimit) : (Json.num n).bytes ≤ 321 := by
  rw [Json.bytes, stringify, utf8ByteLength_of_ascii (isAscii_intToString n)]
  exact length_intToString_le h

theorem bytes_str (s : JsString) : (Json.str s).bytes = quoteBytes s := by rw [Json.bytes, stringify, quoteBytes]

theorem bytes_arr (elems : List Json) : (Json.arr elems).bytes = 2 + commaSum (elems.map Json.bytes) := by
  have hl : isAscii (js "[") = true ∧ (js "[").length = 1 := by decide
  have hr : isAscii (js "]") = true ∧ (js "]").length = 1 := by decide
  have hmap : ∀ l : List Json, (stringifyElems l).map utf8ByteLength = l.map Json.bytes := by
    intro l
    induction l with
    | nil => rfl
    | cons j l ih => simp only [stringifyElems, List.map_cons, ih, Json.bytes]
  rw [Json.bytes, stringify, List.append_assoc, utf8ByteLength_ascii_append hl.1, utf8ByteLength_append_ascii hr.1,
    utf8ByteLength_joinComma, hmap, hl.2, hr.2]
  omega

/-- The bytes of a key with its value. -/
def fieldBytes (p : JsString × Json) : Nat := quoteBytes p.1 + 1 + p.2.bytes

theorem bytes_obj (fields : List (JsString × Json)) :
    (Json.obj fields).bytes = 2 + commaSum (fields.map fieldBytes) := by
  have hl : isAscii (js "\x7b") = true ∧ (js "\x7b").length = 1 := by decide
  have hr : isAscii (js "\x7d") = true ∧ (js "\x7d").length = 1 := by decide
  have hc : isAscii (js ":") = true ∧ (js ":").length = 1 := by decide
  have hmap : ∀ l : List (JsString × Json),
      (stringifyFields l).map utf8ByteLength = l.map fieldBytes := by
    intro l
    induction l with
    | nil => rfl
    | cons p l ih =>
      have hb : ∀ d ∈ (js ":" ++ stringify p.2).head?, isLowSurrogate d = false := by
        intro d hd
        have : js ":" = [58] := by decide
        rw [this] at hd
        cases hd
        decide
      simp only [stringifyFields, List.map_cons, ih, fieldBytes, Json.bytes, quoteBytes]
      rw [List.append_assoc, utf8ByteLength_append hb, utf8ByteLength_ascii_append hc.1, hc.2]
      simp only [Nat.add_assoc]
  rw [Json.bytes, stringify, List.append_assoc, utf8ByteLength_ascii_append hl.1, utf8ByteLength_append_ascii hr.1,
    utf8ByteLength_joinComma, hmap, hl.2, hr.2]
  omega

end Js
