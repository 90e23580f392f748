/-
`JSON.parse` reads the integers and the plain strings that `JSON.stringify` writes.
-/
import Nostrautica.Js.Digits
import Nostrautica.Js.JsonFacts
import Nostrautica.Js.JsonParse

namespace Js.Parse

variable {ds f s t : JsString} {c : CodeUnit} {n p : Nat}

/-- What may stand after a number: no digit, point or exponent. -/
def Stops (t : JsString) : Prop := ∀ c ∈ t.head?, isDigit c = false ∧ c.val ≠ 46 ∧ c.val ≠ 101 ∧ c.val ≠ 69

theorem digits_append (hne : ds ≠ []) (hd : ∀ c ∈ ds, isDigit c = true) (ht : ∀ c ∈ t.head?, isDigit c = false) :
    digits (ds ++ t) = some (ds, t) := by
  unfold digits
  rw [span_digits hd ht]
  exact if_neg hne

theorem fractionPart_stop (ht : ∀ c ∈ t.head?, c.val ≠ 46) : fractionPart t = some ([], t) := by
  cases t with
  | nil => rfl
  | cons c t => exact if_neg (ht c rfl)

theorem exponentPart_stop (ht : ∀ c ∈ t.head?, c.val ≠ 101 ∧ c.val ≠ 69) : exponentPart t = some ([], t) := by
  cases t with
  | nil => rfl
  | cons c t =>
    have h : ¬ (c.val = 101 ∨ c.val = 69) := not_or.mpr (ht c rfl)
    unfold exponentPart
    exact if_neg h

/-- No digits begin with a zero, but for zero's own. -/
theorem head_decimal_ne_zero (hn : n ≠ 0) : (decimal n).head? ≠ some 48 := by
  intro h
  obtain ⟨ds, hds⟩ := List.head?_eq_some_iff.mp h
  have hd : ∀ c ∈ ds, isDigit c = true := fun c hc => isDigit_of_mem_decimal (hds ▸ List.mem_cons_of_mem _ hc)
  have hval : digitsValue ds = n := by
    rw [← digitsValue_decimal n, hds]
    rfl
  have hlt := digitsValue_lt_pow hd
  have hle := pow_le_of_length_decimal hn
  rw [hds, List.length_cons, Nat.add_sub_cancel] at hle
  omega

/-- An integer part, a fraction and an exponent, each as it is read. -/
theorem unsigned_of_parts {fr ex r : JsString} (hne : ds ≠ []) (hd : ∀ c ∈ ds, isDigit c = true) (h0 : ds.head? ≠ some 48)
    (hs : ∀ c ∈ s.head?, isDigit c = false) (hfr : fractionPart s = some (fr, r)) (hex : exponentPart r = some (ex, t)) :
    unsigned (ds ++ s) = some (ds ++ fr ++ ex, t) := by
  have h : ¬ (ds.head? = some 48 ∧ ds.length ≠ 1) := fun h => h0 h.1
  unfold unsigned
  rw [digits_append hne hd hs]
  simp only [Option.bind_eq_bind, Option.bind_some, if_neg h, hfr, hex]

/-- An exponent as `String` writes it. -/
theorem exponentPart_decimal (hn : n ≠ 0) (ht : ∀ c ∈ t.head?, isDigit c = false) :
    exponentPart (101 :: 43 :: (decimal n ++ t)) = some (101 :: 43 :: decimal n, t) := by
  have h := digits_append (decimal_ne_nil hn) (fun c => isDigit_of_mem_decimal) ht
  simp [exponentPart, h]

theorem fractionPart_fraction (hf : ∀ c ∈ f, isDigit c = true) (t : JsString) :
    fractionPart (fraction f ++ 101 :: t) = some (fraction f, 101 :: t) := by
  by_cases hnil : f = []
  · subst hnil
    have he : fraction [] ++ 101 :: t = 101 :: t := rfl
    rw [he]
    exact fractionPart_stop (by simp)
  · have hdot : js "." = [46] := by decide
    have h := digits_append hnil hf (t := 101 :: t) (by simp; decide)
    simp [fraction, hnil, hdot, fractionPart, h]

/-- The text of an integer begins with a digit. -/
theorem natToString_cons (h : IsDouble n) (hn : n ≠ 0) : ∃ d r, isDigit d = true ∧ natToString n = d :: r := by
  have hne := decimal_ne_nil (shortest_ne_zero h hn)
  obtain ⟨d, f, hd⟩ := List.exists_cons_of_ne_nil hne
  have hdigit : isDigit d = true := isDigit_of_mem_decimal (hd ▸ List.mem_cons_self)
  have hform : natToString n = formatDigits (decimal (shortest n).1) (shortest n).2 := if_neg hn
  rw [hform, hd]
  unfold formatDigits
  split
  · exact ⟨d, _, hdigit, rfl⟩
  · exact ⟨d, _, hdigit, rfl⟩

/-- The text of an integer is read to its end. -/
theorem unsigned_formatDigits (hne : ds ≠ []) (hd : ∀ c ∈ ds, isDigit c = true) (h0 : ds.head? ≠ some 48) (ht : Stops t) :
    unsigned (formatDigits ds p ++ t) = some (formatDigits ds p, t) := by
  have hstop : ∀ c ∈ t.head?, isDigit c = false := fun c hc => (ht c hc).1
  unfold formatDigits
  split
  · have hall : ∀ c ∈ ds ++ List.replicate p (digitUnit 0), isDigit c = true := by
      intro c hc
      rcases List.mem_append.mp hc with hc | hc
      · exact hd c hc
      · rw [(List.mem_replicate.mp hc).2]
        exact isDigit_digitUnit (by decide)
    have hne' : ds ++ List.replicate p (digitUnit 0) ≠ [] := List.append_ne_nil_of_left_ne_nil hne _
    have hhead : (ds ++ List.replicate p (digitUnit 0)).head? ≠ some 48 := by
      rw [List.head?_append_of_ne_nil _ hne]
      exact h0
    have := unsigned_of_parts hne' hall hhead hstop (fractionPart_stop fun c hc => (ht c hc).2.1)
      (exponentPart_stop fun c hc => (ht c hc).2.2)
    simpa only [List.append_nil] using this
  · next hlen =>
    obtain ⟨d, f, rfl⟩ := List.exists_cons_of_ne_nil hne
    have hf : ∀ c ∈ f, isDigit c = true := fun c hc => hd c (List.mem_cons_of_mem d hc)
    have hx : (d :: f).length + p - 1 ≠ 0 := by
      simp only [List.length_cons] at hlen ⊢
      omega
    have he : js "e+" = [101, 43] := by decide
    have hrest : ∀ c ∈ (fraction f ++ 101 :: 43 :: (decimal ((d :: f).length + p - 1) ++ t)).head?, isDigit c = false := by
      intro c hc
      unfold fraction at hc
      split at hc <;> (cases hc; decide)
    have := unsigned_of_parts (List.cons_ne_nil d []) (by simpa using hd d List.mem_cons_self) (by simpa using h0) hrest
      (fractionPart_fraction hf _) (exponentPart_decimal hx hstop)
    simpa [he] using this

/-- **An integer that a JS number holds is read back** as the literal it was written as. -/
theorem number_natToString (h : IsDouble n) (hn : n ≠ 0) (ht : Stops t) :
    number (natToString n ++ t) = some (natToString n, t) := by
  have hs := shortest_ne_zero h hn
  have hne := decimal_ne_nil hs
  have hform : natToString n = formatDigits (decimal (shortest n).1) (shortest n).2 := if_neg hn
  have hunsigned : unsigned (natToString n ++ t) = some (natToString n, t) := by
    rw [hform]
    exact unsigned_formatDigits hne (fun c => isDigit_of_mem_decimal) (head_decimal_ne_zero hs) ht
  obtain ⟨d, r, hd, hr⟩ := natToString_cons h hn
  rw [hr] at hunsigned ⊢
  have hminus : d.val ≠ 45 := by
    intro he
    simp [isDigit, he] at hd
  exact (if_neg hminus).trans hunsigned

/-! ## Strings -/

/-- A unit that is written as it is. -/
def PlainUnit (c : CodeUnit) : Prop := 0x20 ≤ c.val ∧ c.val < 0x80 ∧ c.val ≠ 0x22 ∧ c.val ≠ 0x5C

instance decidablePlainUnit (c : CodeUnit) : Decidable (PlainUnit c) := inferInstanceAs (Decidable (_ ∧ _))

theorem quoteUnits_plain (h : ∀ c ∈ s, PlainUnit c) : quoteUnits s = s := by
  have hunit : ∀ c ∈ s, escapeUnit c = [c] ∧ isHighSurrogate c = false := by
    intro c hc
    obtain ⟨h1, h2, h3, h4⟩ := h c hc
    obtain ⟨hh, hl⟩ := not_surrogate_of_ascii h2
    refine ⟨?_, hh⟩
    have h5 : c.val ≠ 8 ∧ c.val ≠ 9 ∧ c.val ≠ 10 ∧ c.val ≠ 12 ∧ c.val ≠ 13 ∧ ¬ c.val < 0x20 := by omega
    simp [escapeUnit, h3, h4, h5, hh, hl]
  clear h
  induction s with
  | nil => rfl
  | cons c s ih =>
    have ih := ih fun d hd => hunit d (List.mem_cons_of_mem c hd)
    obtain ⟨hc, hh⟩ := hunit c List.mem_cons_self
    cases s with
    | nil => exact hc
    | cons d s => simp [quoteUnits, hh, hc, ih]

/-- Plain units up to a quote are the string. -/
theorem string_plain (h : ∀ c ∈ s, PlainUnit c) : string (s ++ 0x22 :: t) = some (s, t) := by
  induction s with
  | nil =>
    cases t with
    | nil => rfl
    | cons d t =>
      rw [List.nil_append, string.eq_def]
      exact if_pos rfl
  | cons c s ih =>
    have ih := ih fun d hd => h d (List.mem_cons_of_mem c hd)
    obtain ⟨h1, -, h3, h4⟩ := h c List.mem_cons_self
    obtain ⟨d, r, hd⟩ : ∃ d r, s ++ 0x22 :: t = d :: r := by
      cases s with
      | nil => exact ⟨_, _, rfl⟩
      | cons d s => exact ⟨_, _, rfl⟩
    have hstep : string (c :: d :: r) = (string (d :: r)).map fun q => (c :: q.1, q.2) := by
      rw [string.eq_def]
      simp only [if_neg h3, if_neg (show ¬ c.val < 0x20 by omega), if_neg h4]
      cases string (d :: r) <;> rfl
    rw [List.cons_append, hd, hstep, ← hd, ih]
    rfl

/-! ## Values -/

variable {k r : JsString} {v : Raw} {vs : List Raw} {ms : List (JsString × Raw)}

theorem skipSpace_cons (h : isSpace c = false) : skipSpace (c :: s) = c :: s := List.dropWhile_cons_of_neg (by simp [h])

theorem value_str (h : string s = some (k, t)) : value (n + 1) (0x22 :: s) = some (.str k, t) := by
  rw [value, skipSpace_cons rfl]
  simp [h]

theorem value_num (hd : isDigit c = true) (h : number (c :: s) = some (k, t)) : value (n + 1) (c :: s) = some (.num k, t) := by
  have hc : 48 ≤ c.val ∧ c.val ≤ 57 := by simpa [isDigit] using hd
  have hspace : isSpace c = false := by
    simp only [isSpace, Bool.or_eq_false_iff, decide_eq_false_iff_not]
    omega
  rw [value, skipSpace_cons hspace]
  simp only [if_neg (show ¬ c.val = 0x22 by omega), if_neg (show ¬ c.val = 0x5B by omega),
    if_neg (show ¬ c.val = 0x7B by omega), if_pos (show c.val = 45 ∨ isDigit c = true from .inr hd), h]
  rfl

theorem value_obj (h : members n (0x22 :: s) = some (ms, t)) : value (n + 1) (0x7B :: 0x22 :: s) = some (.obj ms, t) := by
  rw [value, skipSpace_cons rfl]
  simp [skipSpace_cons (show isSpace 0x22 = false from rfl), h]

theorem value_arr (hspace : isSpace c = false) (hc : c.val ≠ 0x5D) (h : elements n (c :: s) = some (vs, t)) :
    value (n + 1) (0x5B :: c :: s) = some (.arr vs, t) := by
  rw [value, skipSpace_cons rfl]
  simp [skipSpace_cons hspace, hc, h]

theorem members_cons (hk : string s = some (k, 0x3A :: r)) (hv : value n r = some (v, 0x2C :: t))
    (h : members n t = some (ms, ds)) : members (n + 1) (0x22 :: s) = some ((k, v) :: ms, ds) := by
  rw [members, skipSpace_cons rfl]
  simp [hk, skipSpace_cons (show isSpace 0x3A = false from rfl), hv, skipSpace_cons (show isSpace 0x2C = false from rfl), h]

theorem members_last (hk : string s = some (k, 0x3A :: r)) (hv : value n r = some (v, 0x7D :: t)) :
    members (n + 1) (0x22 :: s) = some ([(k, v)], t) := by
  rw [members, skipSpace_cons rfl]
  simp [hk, skipSpace_cons (show isSpace 0x3A = false from rfl), hv, skipSpace_cons (show isSpace 0x7D = false from rfl)]

theorem elements_cons (hv : value n s = some (v, 0x2C :: t)) (h : elements n t = some (vs, r)) :
    elements (n + 1) s = some (v :: vs, r) := by
  rw [elements]
  simp [hv, skipSpace_cons (show isSpace 0x2C = false from rfl), h]

theorem elements_last (hv : value n s = some (v, 0x5D :: t)) : elements (n + 1) s = some ([v], t) := by
  rw [elements]
  simp [hv, skipSpace_cons (show isSpace 0x5D = false from rfl)]

end Js.Parse
