/-
`JSON.stringify` of a tree whose numbers are kept as they are written, and `JSON.parse` of the text,
which gives the tree back.
-/
import Nostrautica.Js.JsonParseFacts
import Nostrautica.Js.ParseWritten
import Nostrautica.Js.StringifyFacts

namespace Js

mutual

/-- `JSON.stringify(v)`, a number as its literal. -/
def rawText : Raw → JsString
  | .null => js "null"
  | .bool b => if b then js "true" else js "false"
  | .num literal => literal
  | .str s => quote s
  | .arr elems => js "[" ++ joinComma (rawElems elems) ++ js "]"
  | .obj members => js "\x7b" ++ joinComma (rawMembers members) ++ js "\x7d"

def rawElems : List Raw → List JsString
  | [] => []
  | r :: rest => rawText r :: rawElems rest

def rawMembers : List (JsString × Raw) → List JsString
  | [] => []
  | (k, r) :: rest => (quote k ++ js ":" ++ rawText r) :: rawMembers rest

end

mutual

/-- Every number of a tree is a literal of JSON's grammar. -/
def Written : Raw → Prop
  | .num literal => Parse.number literal = some (literal, [])
  | .arr elems => WrittenElems elems
  | .obj members => WrittenMembers members
  | .null | .bool _ | .str _ => True

def WrittenElems : List Raw → Prop
  | [] => True
  | r :: rest => Written r ∧ WrittenElems rest

def WrittenMembers : List (JsString × Raw) → Prop
  | [] => True
  | (_, r) :: rest => Written r ∧ WrittenMembers rest

end

namespace Parse

variable {s t : JsString} {c : CodeUnit}

/-! ## Strings -/

theorem string_unit {d : CodeUnit} {r : JsString} (hq : c.val ≠ 0x22) (hlow : ¬c.val < 0x20) (hb : c.val ≠ 0x5C) :
    string (c :: d :: r) = (string (d :: r)).map fun p => (c :: p.1, p.2) := by
  rw [string.eq_def]
  simp only [if_neg hq, if_neg hlow, if_neg hb]
  cases string (d :: r) <;> rfl

theorem string_escape {d u : CodeUnit} {r : JsString} (hd : d.val ≠ 117) (hu : escape d = some u) :
    string (0x5C :: d :: r) = (string r).map fun p => (u :: p.1, p.2) := by
  rw [string.eq_def]
  simp only [if_neg (show ¬(0x5C : CodeUnit).val = 0x22 by decide), if_neg (show ¬(0x5C : CodeUnit).val < 0x20 by decide),
    if_pos (show (0x5C : CodeUnit).val = 0x5C from rfl), if_neg hd, hu]
  cases string r <;> rfl

theorem string_hex {e f g h u : CodeUnit} {r : JsString} (hu : hexEscape e f g h = some u) :
    string (0x5C :: 117 :: e :: f :: g :: h :: r) = (string r).map fun p => (u :: p.1, p.2) := by
  rw [string.eq_def]
  simp only [if_neg (show ¬(0x5C : CodeUnit).val = 0x22 by decide), if_neg (show ¬(0x5C : CodeUnit).val < 0x20 by decide),
    if_pos (show (0x5C : CodeUnit).val = 0x5C from rfl), if_pos (show (117 : CodeUnit).val = 117 from rfl), hu]
  cases string r <;> rfl

theorem radixDigit_hexUnit : ∀ n < 16, radixDigit (hexUnit n) = some n := by decide

theorem hexEscape_unicode (c : CodeUnit) :
    hexEscape (hexUnit (c.val / 4096)) (hexUnit (c.val / 256 % 16)) (hexUnit (c.val / 16 % 16)) (hexUnit (c.val % 16)) = some c := by
  have hc := c.isLt
  rw [hexEscape, radixDigit_hexUnit _ (by omega), radixDigit_hexUnit _ (by omega), radixDigit_hexUnit _ (by omega), radixDigit_hexUnit _ (by omega)]
  refine congrArg some (Fin.ext ?_)
  rw [val_codeUnit (by omega)]
  omega

/-- What `escapeUnit` writes of a unit is read as the unit. -/
theorem string_escapeUnit (c : CodeUnit) {r : JsString} (hr : r ≠ []) : string (escapeUnit c ++ r) = (string r).map fun p => (c :: p.1, p.2) := by
  unfold escapeUnit
  split_ifs with h1 h2 h3 h4 h5 h6 h7 h8
  · rw [show c = 0x22 from Fin.ext h1]
    exact string_escape (by decide) rfl
  · rw [show c = 0x5C from Fin.ext h2]
    exact string_escape (by decide) rfl
  · rw [show c = 8 from Fin.ext h3]
    exact string_escape (by decide) rfl
  · rw [show c = 9 from Fin.ext h4]
    exact string_escape (by decide) rfl
  · rw [show c = 10 from Fin.ext h5]
    exact string_escape (by decide) rfl
  · rw [show c = 12 from Fin.ext h6]
    exact string_escape (by decide) rfl
  · rw [show c = 13 from Fin.ext h7]
    exact string_escape (by decide) rfl
  · exact string_hex (hexEscape_unicode c)
  · obtain ⟨d, r, rfl⟩ := List.exists_cons_of_ne_nil hr
    simp only [Bool.or_eq_true, not_or, decide_eq_true_eq] at h8
    exact string_unit h1 h8.1.1 h2

/-- **A quoted string is read back**, whatever its units. -/
theorem string_quoteUnits (s t : JsString) : string (quoteUnits s ++ 0x22 :: t) = some (s, t) := by
  fun_induction quoteUnits s with
  | case1 =>
    cases t with
    | nil => rfl
    | cons d t =>
      rw [List.nil_append, string.eq_def]
      exact if_pos rfl
  | case2 c =>
    have hend : string (0x22 :: t) = some ([], t) := by
      cases t with
      | nil => rfl
      | cons d t =>
        rw [string.eq_def]
        exact if_pos rfl
    rw [string_escapeUnit c (List.cons_ne_nil _ _), hend]
    rfl
  | case3 c d s hpair ih =>
    obtain ⟨hh, hl⟩ := Bool.and_eq_true_iff.mp hpair
    have hc : 0xD800 ≤ c.val := (by simpa [isHighSurrogate] using hh : 0xD800 ≤ c.val ∧ c.val < 0xDC00).1
    have hd : 0xDC00 ≤ d.val := (by simpa [isLowSurrogate] using hl : 0xDC00 ≤ d.val ∧ d.val < 0xE000).1
    obtain ⟨e, r, hrest⟩ := List.exists_cons_of_ne_nil (List.append_ne_nil_of_right_ne_nil (quoteUnits s) (List.cons_ne_nil 0x22 t))
    rw [List.cons_append, List.cons_append, hrest, string_unit (by omega) (by omega) (by omega), string_unit (by omega) (by omega) (by omega), ← hrest, ih]
    rfl
  | case4 c d s hpair ih =>
    rw [List.append_assoc, string_escapeUnit c (List.append_ne_nil_of_right_ne_nil _ (List.cons_ne_nil _ _)), ih]
    rfl

/-! ## Numbers -/

theorem digits_more {p : JsString × JsString} (ht : ∀ c ∈ t.head?, isDigit c = false) (h : digits s = some p) :
    digits (s ++ t) = some (p.1, p.2 ++ t) := by
  have hspan : (s ++ t).span isDigit = ((s.span isDigit).1, (s.span isDigit).2 ++ t) := by
    simp only [List.span_eq_takeWhile_dropWhile]
    clear h
    induction s with
    | nil =>
      cases t with
      | nil => rfl
      | cons d t =>
        have hd := ht d rfl
        simp [hd]
    | cons c s ih =>
      obtain ⟨h1, h2⟩ := Prod.mk.inj ih
      by_cases hc : isDigit c = true
      · rw [List.cons_append, List.takeWhile_cons_of_pos hc, List.takeWhile_cons_of_pos hc, List.dropWhile_cons_of_pos hc, List.dropWhile_cons_of_pos hc, h1, h2]
      · rw [List.cons_append, List.takeWhile_cons_of_neg hc, List.takeWhile_cons_of_neg hc, List.dropWhile_cons_of_neg hc, List.dropWhile_cons_of_neg hc, List.cons_append]
  unfold digits at h ⊢
  rw [hspan]
  dsimp only at h ⊢
  split_ifs at h ⊢ with hnil
  rw [← Option.some.inj h]

theorem fractionPart_more {p : JsString × JsString} (ht : Stops t) (h : fractionPart s = some p) : fractionPart (s ++ t) = some (p.1, p.2 ++ t) := by
  cases s with
  | nil =>
    rw [← Option.some.inj h]
    exact fractionPart_stop fun c hc => (ht c hc).2.1
  | cons c s =>
    rw [fractionPart] at h
    rw [List.cons_append, fractionPart]
    split_ifs at h ⊢ with hpoint
    · obtain ⟨q, hq, rfl⟩ := Option.map_eq_some_iff.mp h
      rw [digits_more (fun c hc => (ht c hc).1) hq]
      rfl
    · rw [← Option.some.inj h]
      rfl

theorem exponentPart_more {p : JsString × JsString} (ht : Stops t) (h : exponentPart s = some p) : exponentPart (s ++ t) = some (p.1, p.2 ++ t) := by
  have hdigit : ∀ c ∈ t.head?, isDigit c = false := fun c hc => (ht c hc).1
  cases s with
  | nil =>
    rw [← Option.some.inj h]
    exact exponentPart_stop fun c hc => (ht c hc).2.2
  | cons c s =>
    cases s with
    | nil =>
      rw [exponentPart.eq_def] at h
      dsimp only at h
      split_ifs at h with he
      rw [← Option.some.inj h, List.cons_append, exponentPart.eq_def]
      exact if_neg he
    | cons d s =>
      rw [exponentPart.eq_def] at h
      rw [List.cons_append, List.cons_append, exponentPart.eq_def]
      dsimp only at h ⊢
      split_ifs at h ⊢ with he hsign
      · obtain ⟨q, hq, rfl⟩ := Option.map_eq_some_iff.mp h
        rw [digits_more hdigit hq]
        rfl
      · obtain ⟨q, hq, rfl⟩ := Option.map_eq_some_iff.mp h
        have hmore := digits_more hdigit hq
        rw [List.cons_append] at hmore
        rw [hmore]
        rfl
      · rw [← Option.some.inj h]
        rfl

theorem unsigned_more {p : JsString × JsString} (ht : Stops t) (h : unsigned s = some p) : unsigned (s ++ t) = some (p.1, p.2 ++ t) := by
  unfold unsigned at h ⊢
  obtain ⟨⟨int, rest⟩, hint, h⟩ := Option.bind_eq_some_iff.mp h
  dsimp only at h
  split_ifs at h with hzero
  obtain ⟨⟨frac, rest'⟩, hfrac, h⟩ := Option.bind_eq_some_iff.mp h
  obtain ⟨⟨exp, rest''⟩, hexp, h⟩ := Option.bind_eq_some_iff.mp h
  have hp := Option.some.inj h
  subst hp
  have h1 := digits_more (fun c hc => (ht c hc).1) hint
  have h2 := fractionPart_more ht hfrac
  have h3 := exponentPart_more ht hexp
  simp only [h1, h2, h3, Option.bind_eq_bind, Option.bind_some, if_neg hzero]

theorem number_more {p : JsString × JsString} (ht : Stops t) (h : number s = some p) : number (s ++ t) = some (p.1, p.2 ++ t) := by
  cases s with
  | nil => cases h
  | cons c s =>
    rw [number] at h
    rw [List.cons_append, number]
    split_ifs at h ⊢ with hminus
    · obtain ⟨q, hq, rfl⟩ := Option.map_eq_some_iff.mp h
      rw [unsigned_more ht hq]
      rfl
    · have hmore := unsigned_more ht h
      rw [List.cons_append] at hmore
      exact hmore

/-- A literal starts with a sign or a digit. -/
theorem head_literal {literal : JsString} (h : number literal = some (literal, [])) : ∃ c r, literal = c :: r ∧ (c.val = 45 ∨ isDigit c = true) := by
  cases literal with
  | nil => cases h
  | cons c r =>
    refine ⟨c, r, rfl, ?_⟩
    rw [number] at h
    split_ifs at h with hminus
    · exact .inl hminus
    · unfold unsigned at h
      obtain ⟨⟨int, rest⟩, hint, -⟩ := Option.bind_eq_some_iff.mp h
      unfold digits at hint
      simp only [List.span_eq_takeWhile_dropWhile] at hint
      by_contra hno
      rw [List.takeWhile_cons_of_neg fun hd => hno (.inr hd), if_pos rfl] at hint
      cases hint

/-! ## Values -/

theorem value_literal {n : Nat} {k : JsString} (hc : c.val = 45 ∨ isDigit c = true) (h : number (c :: s) = some (k, t)) :
    value (n + 1) (c :: s) = some (.num k, t) := by
  have hrange : c.val = 45 ∨ (48 ≤ c.val ∧ c.val ≤ 57) := by
    rcases hc with hc | hc
    · exact .inl hc
    · exact .inr (by simpa [isDigit] using hc)
  have hspace : isSpace c = false := by
    simp only [isSpace, Bool.or_eq_false_iff, decide_eq_false_iff_not]
    omega
  rw [value, skipSpace_cons hspace]
  simp only [if_neg (show ¬c.val = 0x22 by omega), if_neg (show ¬c.val = 0x5B by omega), if_neg (show ¬c.val = 0x7B by omega), if_pos hc, h]
  rfl

theorem head_rawText {r : Raw} (h : Written r) : ∃ c u, rawText r = c :: u ∧ isSpace c = false ∧ c.val ≠ 0x5D := by
  cases r with
  | null => exact ⟨110, _, rfl, by decide, by decide⟩
  | bool b =>
    cases b with
    | false => exact ⟨102, _, rfl, by decide, by decide⟩
    | true => exact ⟨116, _, rfl, by decide, by decide⟩
  | num literal =>
    obtain ⟨c, u, hl, hc⟩ := head_literal h
    have hrange : c.val = 45 ∨ (48 ≤ c.val ∧ c.val ≤ 57) := by
      rcases hc with hc | hc
      · exact .inl hc
      · exact .inr (by simpa [isDigit] using hc)
    refine ⟨c, u, hl, ?_, by omega⟩
    simp only [isSpace, Bool.or_eq_false_iff, decide_eq_false_iff_not]
    omega
  | str s => exact ⟨0x22, _, rfl, by decide, by decide⟩
  | arr elems => exact ⟨0x5B, _, rfl, by decide, by decide⟩
  | obj members => exact ⟨0x7B, _, rfl, by decide, by decide⟩

theorem stops_cons {d : CodeUnit} (h : isDigit d = false ∧ d.val ≠ 46 ∧ d.val ≠ 101 ∧ d.val ≠ 69) (t : JsString) : Stops (d :: t) := by
  intro c hc
  rw [← Option.some.inj hc]
  exact h

theorem quote_append (s t : JsString) : quote s ++ t = 0x22 :: (quoteUnits s ++ 0x22 :: t) := by
  rw [quote, List.append_assoc, List.append_assoc]
  rfl

mutual

/-- With fuel enough, the text of a tree is read as the tree. -/
theorem value_rawText : ∀ r : Raw, Written r → ∀ t, Stops t → ∃ N, ∀ n ≥ N, value n (rawText r ++ t) = some (r, t)
  | .null, _, t, _ => ⟨1, fun n hn => by
      obtain ⟨n, rfl⟩ := Nat.exists_eq_add_of_le' hn
      rfl⟩
  | .bool b, _, t, _ => ⟨1, fun n hn => by
      obtain ⟨n, rfl⟩ := Nat.exists_eq_add_of_le' hn
      cases b <;> rfl⟩
  | .num literal, h, t, ht => ⟨1, fun n hn => by
      obtain ⟨n, rfl⟩ := Nat.exists_eq_add_of_le' hn
      have hmore := number_more ht h
      obtain ⟨c, u, hl, hc⟩ := head_literal h
      subst hl
      exact value_literal hc hmore⟩
  | .str s, _, t, _ => ⟨1, fun n hn => by
      obtain ⟨n, rfl⟩ := Nat.exists_eq_add_of_le' hn
      rw [rawText, quote_append]
      exact value_str (string_quoteUnits s t)⟩
  | .arr [], _, t, _ => ⟨1, fun n hn => by
      obtain ⟨n, rfl⟩ := Nat.exists_eq_add_of_le' hn
      rfl⟩
  | .arr (r :: rest), h, t, _ => by
    obtain ⟨N, hN⟩ := elements_rawElems (r :: rest) h t (List.cons_ne_nil _ _)
    refine ⟨N + 1, fun n hn => ?_⟩
    obtain ⟨n, rfl⟩ := Nat.exists_eq_add_of_le' (Nat.le_trans (Nat.le_add_left 1 N) hn)
    obtain ⟨c, u, hc, hspace, hclose⟩ := head_rawText (show Written r from h.1)
    have hform : rawText (.arr (r :: rest)) ++ t = 0x5B :: (joinComma (rawElems (r :: rest)) ++ 0x5D :: t) := by
      rw [rawText, List.append_assoc, List.append_assoc]
      rfl
    have hhead : ∃ v, joinComma (rawElems (r :: rest)) ++ 0x5D :: t = c :: v := by
      rw [rawElems, joinComma_cons, hc]
      exact ⟨_, rfl⟩
    obtain ⟨v, hv⟩ := hhead
    have hread := hN n (by omega)
    rw [hv] at hread
    rw [hform, hv]
    exact value_arr hspace hclose hread
  | .obj [], _, t, _ => ⟨1, fun n hn => by
      obtain ⟨n, rfl⟩ := Nat.exists_eq_add_of_le' hn
      rfl⟩
  | .obj ((k, r) :: rest), h, t, _ => by
    obtain ⟨N, hN⟩ := members_rawMembers ((k, r) :: rest) h t (List.cons_ne_nil _ _)
    refine ⟨N + 1, fun n hn => ?_⟩
    obtain ⟨n, rfl⟩ := Nat.exists_eq_add_of_le' (Nat.le_trans (Nat.le_add_left 1 N) hn)
    have hform : rawText (.obj ((k, r) :: rest)) ++ t = 0x7B :: (joinComma (rawMembers ((k, r) :: rest)) ++ 0x7D :: t) := by
      rw [rawText, List.append_assoc, List.append_assoc]
      rfl
    have hhead : ∃ v, joinComma (rawMembers ((k, r) :: rest)) ++ 0x7D :: t = 0x22 :: v := by
      rw [rawMembers, joinComma_cons]
      exact ⟨_, rfl⟩
    obtain ⟨v, hv⟩ := hhead
    have hread := hN n (by omega)
    rw [hv] at hread
    rw [hform, hv]
    exact value_obj hread

theorem elements_rawElems : ∀ rs : List Raw, WrittenElems rs → ∀ t, rs ≠ [] →
    ∃ N, ∀ n ≥ N, elements n (joinComma (rawElems rs) ++ 0x5D :: t) = some (rs, t)
  | [], _, _, hne => absurd rfl hne
  | [r], h, t, _ => by
    obtain ⟨N, hN⟩ := value_rawText r h.1 (0x5D :: t) (stops_cons (by decide) t)
    refine ⟨N + 1, fun n hn => ?_⟩
    obtain ⟨n, rfl⟩ := Nat.exists_eq_add_of_le' (Nat.le_trans (Nat.le_add_left 1 N) hn)
    exact elements_last (hN n (by omega))
  | r :: q :: rest, h, t, _ => by
    have hsplit : joinComma (rawElems (r :: q :: rest)) ++ 0x5D :: t = rawText r ++ 0x2C :: (joinComma (rawElems (q :: rest)) ++ 0x5D :: t) := by
      rw [rawElems, rawElems, joinComma, List.append_assoc, List.append_assoc]
      rfl
    obtain ⟨N, hN⟩ := value_rawText r h.1 (0x2C :: (joinComma (rawElems (q :: rest)) ++ 0x5D :: t)) (stops_cons (by decide) _)
    obtain ⟨M, hM⟩ := elements_rawElems (q :: rest) h.2 t (List.cons_ne_nil _ _)
    refine ⟨N + M + 1, fun n hn => ?_⟩
    obtain ⟨n, rfl⟩ := Nat.exists_eq_add_of_le' (Nat.le_trans (Nat.le_add_left 1 (N + M)) hn)
    rw [hsplit]
    exact elements_cons (hN n (by omega)) (hM n (by omega))

theorem members_rawMembers : ∀ ms : List (JsString × Raw), WrittenMembers ms → ∀ t, ms ≠ [] →
    ∃ N, ∀ n ≥ N, members n (joinComma (rawMembers ms) ++ 0x7D :: t) = some (ms, t)
  | [], _, _, hne => absurd rfl hne
  | [(k, r)], h, t, _ => by
    obtain ⟨N, hN⟩ := value_rawText r h.1 (0x7D :: t) (stops_cons (by decide) t)
    refine ⟨N + 1, fun n hn => ?_⟩
    obtain ⟨n, rfl⟩ := Nat.exists_eq_add_of_le' (Nat.le_trans (Nat.le_add_left 1 N) hn)
    have hform : joinComma (rawMembers [(k, r)]) ++ 0x7D :: t = 0x22 :: (quoteUnits k ++ 0x22 :: 0x3A :: (rawText r ++ 0x7D :: t)) := by
      rw [rawMembers, rawMembers, joinComma, List.append_assoc, List.append_assoc, quote_append]
      rfl
    rw [hform]
    exact members_last (string_quoteUnits k _) (hN n (by omega))
  | (k, r) :: (l, q) :: rest, h, t, _ => by
    obtain ⟨N, hN⟩ := value_rawText r h.1 (0x2C :: (joinComma (rawMembers ((l, q) :: rest)) ++ 0x7D :: t)) (stops_cons (by decide) _)
    obtain ⟨M, hM⟩ := members_rawMembers ((l, q) :: rest) h.2 t (List.cons_ne_nil _ _)
    refine ⟨N + M + 1, fun n hn => ?_⟩
    obtain ⟨n, rfl⟩ := Nat.exists_eq_add_of_le' (Nat.le_trans (Nat.le_add_left 1 (N + M)) hn)
    have hform : joinComma (rawMembers ((k, r) :: (l, q) :: rest)) ++ 0x7D :: t =
        0x22 :: (quoteUnits k ++ 0x22 :: 0x3A :: (rawText r ++ 0x2C :: (joinComma (rawMembers ((l, q) :: rest)) ++ 0x7D :: t))) := by
      rw [rawMembers, rawMembers, joinComma, List.append_assoc, List.append_assoc, List.append_assoc, List.append_assoc, quote_append]
      rfl
    rw [hform]
    exact members_cons (string_quoteUnits k _) (hN n (by omega)) (hM n (by omega))

end

end Parse

/-- **A tree is read back from its text.** -/
theorem parseJson_rawText {r : Raw} (h : Written r) : parseJson (rawText r) = some r := by
  have hstops : Parse.Stops [] := fun c hc => by cases hc
  obtain ⟨N, hN⟩ := Parse.value_rawText r h [] hstops
  rw [List.append_nil] at hN
  have hread := hN (max N (2 * (rawText r).length + 1)) (Nat.le_max_left _ _)
  rw [Parse.value_fuel (Nat.le_max_right _ _)] at hread
  rw [parseJson, hread]
  rfl

/-! ## No lone surrogate -/

namespace Parse

variable {s : JsString}

theorem ascii_digits {p : JsString × JsString} (h : digits s = some p) : isAscii p.1 = true := by
  unfold digits at h
  simp only [List.span_eq_takeWhile_dropWhile] at h
  split_ifs at h
  rw [← Option.some.inj h]
  exact isAscii_of_digits fun c hc => List.mem_takeWhile_imp hc

theorem ascii_cons {c : CodeUnit} {t : JsString} (hc : c.val < 128) (ht : isAscii t = true) : isAscii (c :: t) = true := by
  rw [isAscii, List.all_cons, decide_eq_true hc]
  exact ht

theorem ascii_fractionPart {p : JsString × JsString} (h : fractionPart s = some p) : isAscii p.1 = true := by
  cases s with
  | nil =>
    rw [← Option.some.inj h]
    rfl
  | cons c s =>
    rw [fractionPart] at h
    split_ifs at h with hpoint
    · obtain ⟨q, hq, rfl⟩ := Option.map_eq_some_iff.mp h
      exact ascii_cons (by omega) (ascii_digits hq)
    · rw [← Option.some.inj h]
      rfl

theorem ascii_exponentPart {p : JsString × JsString} (h : exponentPart s = some p) : isAscii p.1 = true := by
  cases s with
  | nil =>
    rw [← Option.some.inj h]
    rfl
  | cons c s =>
    rw [exponentPart.eq_def] at h
    dsimp only at h
    split_ifs at h with he
    · cases s with
      | nil => cases h
      | cons d s =>
        dsimp only at h
        split_ifs at h with hsign
        · obtain ⟨q, hq, rfl⟩ := Option.map_eq_some_iff.mp h
          exact ascii_cons (by omega) (ascii_cons (by omega) (ascii_digits hq))
        · obtain ⟨q, hq, rfl⟩ := Option.map_eq_some_iff.mp h
          exact ascii_cons (by omega) (ascii_digits hq)
    · rw [← Option.some.inj h]
      rfl

theorem ascii_unsigned {p : JsString × JsString} (h : unsigned s = some p) : isAscii p.1 = true := by
  unfold unsigned at h
  obtain ⟨⟨int, rest⟩, hint, h⟩ := Option.bind_eq_some_iff.mp h
  dsimp only at h
  split_ifs at h
  obtain ⟨⟨frac, rest'⟩, hfrac, h⟩ := Option.bind_eq_some_iff.mp h
  obtain ⟨⟨exp, rest''⟩, hexp, h⟩ := Option.bind_eq_some_iff.mp h
  have h1 : isAscii int = true := ascii_digits hint
  have h2 : isAscii frac = true := ascii_fractionPart hfrac
  have h3 : isAscii exp = true := ascii_exponentPart hexp
  rw [← Option.some.inj h, isAscii_append, isAscii_append, h1, h2, h3]
  rfl

theorem ascii_number {p : JsString × JsString} (h : number s = some p) : isAscii p.1 = true := by
  cases s with
  | nil => cases h
  | cons c s =>
    rw [number] at h
    split_ifs at h with hminus
    · obtain ⟨q, hq, rfl⟩ := Option.map_eq_some_iff.mp h
      exact ascii_cons (by omega) (ascii_unsigned hq)
    · exact ascii_unsigned h

end Parse

theorem wellFormed_joinComma : ∀ {ps : List JsString}, (∀ p ∈ ps, WellFormed p) → WellFormed (joinComma ps)
  | [], _ => wellFormed_nil
  | [p], h => h p List.mem_cons_self
  | p :: q :: ps, h => by
    rw [joinComma]
    exact ((h p List.mem_cons_self).append (wellFormed_js ",")).append (wellFormed_joinComma fun r hr => h r (List.mem_cons_of_mem _ hr))

mutual

/-- The text of a tree has no lone surrogate, whatever its strings have. -/
theorem wellFormed_rawText : ∀ r : Raw, Written r → WellFormed (rawText r)
  | .null, _ => wellFormed_js "null"
  | .bool true, _ => wellFormed_js "true"
  | .bool false, _ => wellFormed_js "false"
  | .num _, h => wellFormed_ascii (Parse.ascii_number h)
  | .str s, _ => wellFormed_quote s
  | .arr elems, h => by
    rw [rawText]
    exact ((wellFormed_js "[").append (wellFormed_joinComma (wellFormed_rawElems elems h))).append (wellFormed_js "]")
  | .obj members, h => by
    rw [rawText]
    exact ((wellFormed_js _).append (wellFormed_joinComma (wellFormed_rawMembers members h))).append (wellFormed_js _)

theorem wellFormed_rawElems : ∀ rs : List Raw, WrittenElems rs → ∀ p ∈ rawElems rs, WellFormed p
  | [], _, p, hp => (List.not_mem_nil hp).elim
  | r :: rs, h, p, hp => by
    rw [rawElems] at hp
    cases List.mem_cons.mp hp with
    | inl he =>
      rw [he]
      exact wellFormed_rawText r h.1
    | inr hp => exact wellFormed_rawElems rs h.2 p hp

theorem wellFormed_rawMembers : ∀ ms : List (JsString × Raw), WrittenMembers ms → ∀ p ∈ rawMembers ms, WellFormed p
  | [], _, p, hp => (List.not_mem_nil hp).elim
  | (k, r) :: ms, h, p, hp => by
    rw [rawMembers] at hp
    cases List.mem_cons.mp hp with
    | inl he =>
      rw [he]
      exact ((wellFormed_quote k).append (wellFormed_js ":")).append (wellFormed_rawText r h.1)
    | inr hp => exact wellFormed_rawMembers ms h.2 p hp

end

end Js
