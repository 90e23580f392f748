/-
What `JSON.stringify` writes of a string, and the bytes of that, tell the string.
-/
import Nostrautica.Coding.Prefix
import Nostrautica.Js.JsonFacts
import Nostrautica.Js.Utf8

namespace Js

open Coding

variable {s t : JsString} {c d h l : CodeUnit}

/-! ## Code points -/

theorem val_codeUnit {n : Nat} (hn : n < 65536) : (codeUnit n).val = n := Nat.mod_eq_of_lt hn

theorem codePoints_cons (hc : isHighSurrogate c = false) (s : JsString) : codePoints (c :: s) = unitChar c :: codePoints s := by
  cases s with
  | nil => rfl
  | cons d s => simp [codePoints, hc]

theorem unitChar_toNat {x : Char} (hx : x.toNat < 0x10000) :
    isHighSurrogate (codeUnit x.toNat) = false ∧ unitChar (codeUnit x.toNat) = x := by
  have hval := val_codeUnit hx
  have hvalid := x.valid
  have hs : ¬ (0xD800 ≤ x.toNat ∧ x.toNat < 0xE000) := by
    rcases hvalid with hv | hv
    · exact fun hs => absurd (show x.toNat < 0xD800 from hv) (by omega)
    · exact fun hs => absurd (show 0xDFFF < x.toNat from hv.1) (by omega)
  have hhigh : isHighSurrogate (codeUnit x.toNat) = false := by
    simp only [isHighSurrogate, hval, Bool.and_eq_false_iff, decide_eq_false_iff_not]
    omega
  have hlow : isLowSurrogate (codeUnit x.toNat) = false := by
    simp only [isLowSurrogate, hval, Bool.and_eq_false_iff, decide_eq_false_iff_not]
    omega
  refine ⟨hhigh, ?_⟩
  rw [unitChar, hhigh, hlow, hval]
  exact Char.ofNat_toNat x

/-- The code points of well-formed text are those it was written from. -/
theorem codePoints_units : ∀ xs : List Char, codePoints (xs.flatMap unitsOfChar) = xs
  | [] => rfl
  | x :: xs => by
    have ih := codePoints_units xs
    rw [List.flatMap_cons]
    unfold unitsOfChar
    simp only
    split
    next hx =>
      obtain ⟨hhigh, hchar⟩ := unitChar_toNat hx
      rw [List.singleton_append, codePoints_cons hhigh, hchar]
      exact congrArg _ ih
    next hx =>
      have hmax : x.toNat < 0x110000 := by
        rcases x.valid with hv | hv
        · exact absurd (show x.toNat < 0xD800 from hv) (by omega)
        · exact hv.2
      have hh := @val_codeUnit (0xD800 + (x.toNat - 0x10000) / 0x400) (by omega)
      have hl := @val_codeUnit (0xDC00 + (x.toNat - 0x10000) % 0x400) (by omega)
      have hpair : (isHighSurrogate (codeUnit (0xD800 + (x.toNat - 0x10000) / 0x400)) &&
          isLowSurrogate (codeUnit (0xDC00 + (x.toNat - 0x10000) % 0x400))) = true := by
        simp only [isHighSurrogate, isLowSurrogate, hh, hl, Bool.and_eq_true, decide_eq_true_eq]
        omega
      have hchar : pairChar (codeUnit (0xD800 + (x.toNat - 0x10000) / 0x400)) (codeUnit (0xDC00 + (x.toNat - 0x10000) % 0x400)) = x := by
        rw [pairChar, hh, hl]
        have hn : 0x10000 + (0xD800 + (x.toNat - 0x10000) / 0x400 - 0xD800) * 0x400 +
            (0xDC00 + (x.toNat - 0x10000) % 0x400 - 0xDC00) = x.toNat := by omega
        rw [hn]
        exact Char.ofNat_toNat x
      show codePoints (_ :: _ :: xs.flatMap unitsOfChar) = _
      rw [codePoints, if_pos hpair, hchar]
      exact congrArg _ ih

/-- Text without lone surrogates. -/
def WellFormed (s : JsString) : Prop := ∃ xs : List Char, s = xs.flatMap unitsOfChar

theorem WellFormed.append (hs : WellFormed s) (ht : WellFormed t) : WellFormed (s ++ t) := by
  obtain ⟨xs, rfl⟩ := hs
  obtain ⟨ys, rfl⟩ := ht
  exact ⟨xs ++ ys, (List.flatMap_append ..).symm⟩

theorem wellFormed_nil : WellFormed [] := ⟨[], rfl⟩

theorem wellFormed_js (s : String) : WellFormed (js s) := ⟨s.toList, rfl⟩

/-- The bytes of well-formed text tell it. -/
theorem utf8ToBytes_inj (hs : WellFormed s) (ht : WellFormed t) (he : utf8ToBytes s = utf8ToBytes t) : s = t := by
  obtain ⟨xs, rfl⟩ := hs
  obtain ⟨ys, rfl⟩ := ht
  have := String.ofList_inj.mp (String.toByteArray_inj.mp he)
  rw [codePoints_units, codePoints_units] at this
  rw [this]

theorem wellFormed_unit (hh : isHighSurrogate c = false) (hl : isLowSurrogate c = false) : WellFormed [c] := by
  have hvalid : c.val.isValidChar := by
    simp only [isHighSurrogate, isLowSurrogate, Bool.and_eq_false_iff, decide_eq_false_iff_not] at hh hl
    have := c.isLt
    unfold Nat.isValidChar
    omega
  refine ⟨[Char.ofNatAux c.val hvalid], ?_⟩
  have hnat : (Char.ofNatAux c.val hvalid).toNat = c.val := by
    have := c.isLt
    show (UInt32.ofNatLT _ _).toNat = _
    rfl
  simp only [List.flatMap_cons, List.flatMap_nil, List.append_nil, unitsOfChar, hnat, c.isLt, if_true]
  rw [show codeUnit c.val = c from Fin.ext (val_codeUnit c.isLt)]

theorem wellFormed_pair (hh : isHighSurrogate h = true) (hl : isLowSurrogate l = true) : WellFormed [h, l] := by
  simp only [isHighSurrogate, isLowSurrogate, Bool.and_eq_true, decide_eq_true_eq] at hh hl
  have hvalid : (0x10000 + (h.val - 0xD800) * 0x400 + (l.val - 0xDC00)).isValidChar := by
    unfold Nat.isValidChar
    omega
  refine ⟨[Char.ofNatAux _ hvalid], ?_⟩
  have hnat : (Char.ofNatAux _ hvalid).toNat = 0x10000 + (h.val - 0xD800) * 0x400 + (l.val - 0xDC00) := rfl
  have hbig : ¬ 0x10000 + (h.val - 0xD800) * 0x400 + (l.val - 0xDC00) < 0x10000 := by omega
  simp only [List.flatMap_cons, List.flatMap_nil, List.append_nil, unitsOfChar, hnat, hbig, if_false]
  have h1 : codeUnit (0xD800 + (0x10000 + (h.val - 0xD800) * 0x400 + (l.val - 0xDC00) - 0x10000) / 0x400) = h :=
    Fin.ext ((val_codeUnit (by omega)).trans (by omega))
  have h2 : codeUnit (0xDC00 + (0x10000 + (h.val - 0xD800) * 0x400 + (l.val - 0xDC00) - 0x10000) % 0x400) = l :=
    Fin.ext ((val_codeUnit (by omega)).trans (by omega))
  rw [h1, h2]

theorem wellFormed_ascii : ∀ {s : JsString}, isAscii s = true → WellFormed s
  | [], _ => wellFormed_nil
  | c :: s, hs => by
    obtain ⟨hc, hs⟩ := Bool.and_eq_true_iff.mp (show (decide (c.val < 128) && isAscii s) = true from hs)
    obtain ⟨hh, hl⟩ := not_surrogate_of_ascii (of_decide_eq_true hc)
    exact (wellFormed_unit hh hl).append (wellFormed_ascii hs)

/-! ## Quotes -/

/-- What `quote` writes as one: a pair, or a unit that is not half of one. -/
inductive Symbol
  | pair (h l : CodeUnit) (hh : isHighSurrogate h = true) (hl : isLowSurrogate l = true)
  | unit (c : CodeUnit)

def Symbol.units : Symbol → JsString
  | pair h l _ _ => [h, l]
  | unit c => [c]

def Symbol.quoted : Symbol → JsString
  | pair h l _ _ => [h, l]
  | unit c => escapeUnit c

def symbols : JsString → List Symbol
  | [] => []
  | [c] => [.unit c]
  | c :: d :: s =>
    if h : isHighSurrogate c = true ∧ isLowSurrogate d = true then .pair c d h.1 h.2 :: symbols s else .unit c :: symbols (d :: s)

theorem units_symbols (s : JsString) : (symbols s).flatMap Symbol.units = s := by
  fun_induction symbols s with
  | case1 => rfl
  | case2 c => rfl
  | case3 c d s h ih => rw [List.flatMap_cons, ih]; rfl
  | case4 c d s h ih => rw [List.flatMap_cons, ih]; rfl

theorem quoted_symbols (s : JsString) : (symbols s).flatMap Symbol.quoted = quoteUnits s := by
  fun_induction symbols s with
  | case1 => rfl
  | case2 c => simp [quoteUnits, Symbol.quoted]
  | case3 c d s h ih =>
    rw [List.flatMap_cons, ih, quoteUnits, if_pos (by simp [h])]
    rfl
  | case4 c d s h ih =>
    rw [List.flatMap_cons, ih, quoteUnits, if_neg (by simpa using h)]
    rfl

def hexValue (c : CodeUnit) : Nat := if c.val < 87 then c.val - 48 else c.val - 87

theorem hexValue_hexUnit : ∀ n < 16, hexValue (hexUnit n) = n := by decide

/-- The unit an escape stands for, at the front of a string. -/
def unescape : JsString → Option CodeUnit
  | [] => none
  | [c] => some c
  | c :: x :: s =>
    if c.val ≠ 0x5C then some c
    else if x.val = 98 then some 8
    else if x.val = 116 then some 9
    else if x.val = 110 then some 10
    else if x.val = 102 then some 12
    else if x.val = 114 then some 13
    else if x.val = 117 then
      some (codeUnit (((s.take 4).map hexValue).foldl (fun n d => 16 * n + d) 0))
    else some x

theorem unescape_plain (hc : c.val ≠ 0x5C) (s : JsString) : unescape (c :: s) = some c := by
  cases s with
  | nil => rfl
  | cons x s => simp [unescape, hc]

theorem unescape_unicode (c : CodeUnit) (s : JsString) : unescape (unicodeEscape c ++ s) = some c := by
  have hc := c.isLt
  have hu : js "\\u" = [codeUnit 0x5C, codeUnit 117] := by decide
  rw [unicodeEscape, hu]
  simp only [List.cons_append, List.nil_append, unescape, val_codeUnit (show (0x5C : Nat) < 65536 by omega),
    val_codeUnit (show (117 : Nat) < 65536 by omega)]
  simp only [List.take, List.map, List.foldl, hexValue_hexUnit _ (show c.val / 4096 < 16 by omega),
    hexValue_hexUnit _ (show c.val / 256 % 16 < 16 by omega), hexValue_hexUnit _ (show c.val / 16 % 16 < 16 by omega),
    hexValue_hexUnit _ (show c.val % 16 < 16 by omega)]
  simp only [ne_eq, not_true_eq_false, if_false, Nat.reduceEqDiff, if_true, Option.some.injEq]
  refine Fin.ext ((val_codeUnit ?_).trans ?_)
  · omega
  · omega

/-- An escape tells the unit. -/
theorem unescape_escapeUnit (c : CodeUnit) (s : JsString) : unescape (escapeUnit c ++ s) = some c := by
  unfold escapeUnit
  split_ifs with h1 h2 h3 h4 h5 h6 h7 h8
  case pos => exact congrArg some (Fin.ext h1.symm)
  case pos => exact congrArg some (Fin.ext h2.symm)
  case pos => exact congrArg some (Fin.ext h3.symm)
  case pos => exact congrArg some (Fin.ext h4.symm)
  case pos => exact congrArg some (Fin.ext h5.symm)
  case pos => exact congrArg some (Fin.ext h6.symm)
  case pos => exact congrArg some (Fin.ext h7.symm)
  case pos => exact unescape_unicode c s
  case neg => exact unescape_plain h2 s

/-- What an escape starts with. -/
theorem head_escapeUnit (c : CodeUnit) (s : JsString) : ∃ d t, escapeUnit c ++ s = d :: t ∧ isHighSurrogate d = false := by
  unfold escapeUnit
  split_ifs with h1 h2 h3 h4 h5 h6 h7 h8
  case neg =>
    refine ⟨c, s, rfl, ?_⟩
    simp only [Bool.or_eq_true, not_or, decide_eq_true_eq, Bool.not_eq_true] at h8
    exact h8.1.2
  all_goals exact ⟨codeUnit 0x5C, _, rfl, by decide⟩

theorem prefixCode_quoted : PrefixCode Symbol.quoted where
  ne_nil a he := by
    cases a with
    | pair => cases he
    | unit c =>
      have := (length_escapeUnit c).1
      rw [show escapeUnit c = [] from he] at this
      exact absurd this (by decide)
  read := by
    intro a b s t he
    cases a with
    | pair h l hh hl =>
      cases b with
      | pair h' l' hh' hl' =>
        simp only [Symbol.quoted, List.cons_append, List.cons.injEq] at he
        obtain ⟨rfl, rfl, -⟩ := he
        rfl
      | unit c =>
        obtain ⟨d, r, hd, hlow⟩ := head_escapeUnit c t
        have := (List.cons.inj (he.trans hd)).1
        rw [← this, hh] at hlow
        cases hlow
    | unit c =>
      cases b with
      | pair h l hh hl =>
        obtain ⟨d, r, hd, hlow⟩ := head_escapeUnit c s
        have := (List.cons.inj (he.symm.trans hd)).1
        rw [← this, hh] at hlow
        cases hlow
      | unit d =>
        have := congrArg unescape he
        simp only [Symbol.quoted, unescape_escapeUnit, Option.some.injEq] at this
        rw [this]

/-- What stands between the quotes tells the string. -/
theorem quoteUnits_inj (h : quoteUnits s = quoteUnits t) : s = t := by
  rw [← quoted_symbols, ← quoted_symbols] at h
  rw [← units_symbols s, ← units_symbols t, prefixCode_quoted.flatMap_inj h]

theorem wellFormed_escapeUnit (c : CodeUnit) : WellFormed (escapeUnit c) := by
  by_cases he : escapeUnit c = [c]
  · have hs : isHighSurrogate c = false ∧ isLowSurrogate c = false := by
      by_contra hs
      have : escapeUnit c = unicodeEscape c := by
        have hval : 0xD800 ≤ c.val := by
          simp only [isHighSurrogate, isLowSurrogate, Bool.and_eq_false_iff, decide_eq_false_iff_not] at hs
          omega
        simp only [escapeUnit]
        repeat rw [if_neg (by omega)]
        rw [if_pos]
        simp only [Bool.or_eq_true]
        by_cases hh : isHighSurrogate c = true
        · exact .inl (.inr hh)
        · exact .inr (by simpa using fun hl => hs ⟨by simpa using hh, hl⟩)
      rw [this] at he
      simpa [unicodeEscape] using congrArg List.length he
    rw [he]
    exact wellFormed_unit hs.1 hs.2
  · exact wellFormed_ascii (isAscii_escapeUnit he)

theorem wellFormed_quoteUnits (s : JsString) : WellFormed (quoteUnits s) := by
  rw [← quoted_symbols]
  induction symbols s with
  | nil => exact wellFormed_nil
  | cons a as ih =>
    rw [List.flatMap_cons]
    refine WellFormed.append ?_ ih
    cases a with
    | pair h l hh hl => exact wellFormed_pair hh hl
    | unit c => exact wellFormed_escapeUnit c

theorem wellFormed_quote (s : JsString) : WellFormed (quote s) :=
  ((wellFormed_js _).append (wellFormed_quoteUnits s)).append (wellFormed_js _)

theorem quote_inj (h : quote s = quote t) : s = t :=
  quoteUnits_inj (List.append_cancel_left (List.append_cancel_right h))

/-- The bytes of a serialized pair of strings tell the second. -/
theorem utf8_pair_inj {tag : JsString}
    (h : utf8ToBytes (stringify (.arr [.str tag, .str s])) = utf8ToBytes (stringify (.arr [.str tag, .str t]))) : s = t := by
  have hwf : ∀ x, WellFormed (stringify (.arr [.str tag, .str x])) := by
    intro x
    simp only [stringify, stringifyElems, joinComma]
    exact ((wellFormed_js _).append (((wellFormed_quote _).append (wellFormed_js _)).append (wellFormed_quote _))).append
      (wellFormed_js _)
  have := utf8ToBytes_inj (hwf s) (hwf t) h
  simp only [stringify, stringifyElems, joinComma] at this
  exact quote_inj (List.append_cancel_left (List.append_cancel_left (List.append_cancel_right this)))

/-! ## Hex -/

theorem hexUnit_spec : ∀ n < 16, isLowerHexDigit (hexUnit n) = true ∧ hexUnit n ≠ codeUnit 58 := by decide

theorem hexUnit_inj {m n : Nat} (hm : m < 16) (hn : n < 16) (h : hexUnit m = hexUnit n) : m = n := by
  rw [← hexValue_hexUnit m hm, h, hexValue_hexUnit n hn]

theorem length_bytesToHex (bytes : List UInt8) : (bytesToHex bytes).length = 2 * bytes.length := by
  simp [bytesToHex, List.length_flatMap, Nat.mul_comm]

theorem isLowerHex_bytesToHex (bytes : List UInt8) : (bytesToHex bytes).all isLowerHexDigit = true := by
  refine List.all_eq_true.mpr fun c hc => ?_
  obtain ⟨b, -, hb⟩ := List.mem_flatMap.mp hc
  have hlt := b.toNat_lt
  have : c = hexUnit (b.toNat / 16) ∨ c = hexUnit (b.toNat % 16) := by simpa using hb
  rcases this with rfl | rfl
  · exact (hexUnit_spec _ (by omega)).1
  · exact (hexUnit_spec _ (by omega)).1

theorem bytesToHex_inj {xs ys : List UInt8} (h : bytesToHex xs = bytesToHex ys) : xs = ys := by
  have hcode : PrefixCode fun b : UInt8 => [hexUnit (b.toNat / 16), hexUnit (b.toNat % 16)] := by
    refine ⟨fun _ => List.cons_ne_nil _ _, fun {a b s t} he => ?_⟩
    have ha := a.toNat_lt
    have hb := b.toNat_lt
    simp only [List.cons_append, List.cons.injEq] at he
    have h1 := hexUnit_inj (by omega) (by omega) he.1
    have h2 := hexUnit_inj (by omega) (by omega) he.2.1
    exact UInt8.toNat.inj (by omega)
  exact hcode.flatMap_inj h

end Js
