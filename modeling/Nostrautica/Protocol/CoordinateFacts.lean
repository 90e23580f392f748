/-
A space has one spelling (`coordinate_canonical`): a coordinate that is accepted is what is made of
its parts, in TypeScript and in Kotlin alike (`Coordinate.parse` of `protocol/Coordinate.kt`).
-/
import Nostrautica.Protocol.Coordinate
import Nostrautica.Js.Digits

namespace Nostrautica

open Js

namespace Android

/-- `toIntOrNull()`, of ASCII digits after a sign or none. -/
def toIntOrNull (s : JsString) : Option Int :=
  let (neg, ds) : Bool × JsString := match s with
    | [] => (false, [])
    | c :: ds => if c.val = 45 then (true, ds) else if c.val = 43 then (false, ds) else (false, s)
  if ds = [] ∨ ¬ds.all isDigit then none
  else
    let n : Int := if neg then -digitsValue ds else digitsValue ds
    if -2 ^ 31 ≤ n ∧ n < 2 ^ 31 then some n else none

/-- `Coordinate.parse(coordinate)`. -/
def Coordinate.parse (coordinate : JsString) : Except JsString EventCoordinate :=
  let invalid := js "invalid coordinate: " ++ coordinate
  match splitColon coordinate with
  | none => .error invalid
  | some (kindText, rest) =>
    match splitColon rest with
    | none => .error invalid
    | some (pubkey, identifier) =>
      match if isCanonicalDecimal kindText then toIntOrNull kindText else none with
      | none => .error invalid
      | some kind =>
        if (0 ≤ kind ∧ kind ≤ 65535) ∧ isHex32 pubkey then .ok { kind := kind.toNat, pubkey, identifier } else .error invalid

end Android

section

variable {s a b : JsString} {n : Nat}

/-! ## Colons -/

theorem splitColon_append (h : ∀ c ∈ a, c.val ≠ 58) : splitColon (a ++ (js ":" ++ b)) = some (a, b) := by
  induction a with
  | nil => rfl
  | cons c a ih =>
    have ih := ih fun d hd => h d (List.mem_cons_of_mem c hd)
    rw [List.cons_append, splitColon, if_neg (h c List.mem_cons_self), ih, Option.map_some]

theorem splitColon_eq_some (h : splitColon s = some (a, b)) : s = a ++ (js ":" ++ b) := by
  induction s generalizing a with
  | nil => cases h
  | cons c s ih =>
    rw [splitColon] at h
    by_cases hc : c.val = 58
    · rw [if_pos hc] at h
      cases h
      have hcolon : c = codeUnit 58 := Fin.ext hc
      rw [hcolon]
      rfl
    · rw [if_neg hc] at h
      obtain ⟨⟨a', b'⟩, hp, heq⟩ := Option.map_eq_some_iff.1 h
      cases heq
      rw [ih hp, List.cons_append]

theorem ne_colon_of_isDigit {c : CodeUnit} (h : isDigit c = true) : c.val ≠ 58 := by
  simp only [isDigit, Bool.and_eq_true, decide_eq_true_eq] at h
  omega

theorem ne_colon_of_isHex32 (h : isHex32 s = true) : ∀ c ∈ s, c.val ≠ 58 := by
  intro c hc
  simp only [isHex32, isLowerHex, Bool.and_eq_true] at h
  have hdigit := List.all_eq_true.1 h.2 c hc
  simp only [isLowerHexDigit, Bool.or_eq_true, Bool.and_eq_true, decide_eq_true_eq] at hdigit
  omega

/-! ## Kinds -/

/-- The digits of a kind, `0` for 0. -/
def kindDigits (n : Nat) : JsString := if n = 0 then js "0" else decimal n

theorem natToString_eq_kindDigits (h : n ≤ 65535) : natToString n = kindDigits n := by
  unfold kindDigits
  by_cases hn : n = 0
  · rw [hn]
    rfl
  · rw [if_neg hn]
    exact natToString_eq_decimal hn (by omega)

theorem isDigit_of_mem_kindDigits {c : CodeUnit} (h : c ∈ kindDigits n) : isDigit c = true := by
  unfold kindDigits at h
  split at h
  · obtain rfl := List.mem_singleton.1 h
    decide
  · exact isDigit_of_mem_decimal h

/-- Canonical digits are `0`, or do not begin with one. -/
theorem canonical_cases (h : isCanonicalDecimal s = true) :
    s = js "0" ∨ ∃ c ds, s = c :: ds ∧ 49 ≤ c.val ∧ ∀ d ∈ s, isDigit d = true := by
  cases s with
  | nil => cases h
  | cons c ds =>
    simp only [isCanonicalDecimal] at h
    by_cases hc : c.val = 48
    · rw [if_pos hc, List.isEmpty_iff] at h
      have hzero : c = codeUnit 48 := Fin.ext hc
      rw [h, hzero]
      exact .inl rfl
    · rw [if_neg hc, List.all_eq_true] at h
      have hdigit := h c List.mem_cons_self
      simp only [isDigit, Bool.and_eq_true, decide_eq_true_eq] at hdigit
      exact .inr ⟨c, ds, rfl, by omega, h⟩

theorem pow_le_digitsValue {c : CodeUnit} {ds : JsString} (hc : 49 ≤ c.val) : 10 ^ ds.length ≤ digitsValue (c :: ds) := by
  induction ds using List.reverseRecOn with
  | nil =>
    have hvalue : digitsValue [c] = c.val - 48 := by simp [digitsValue]
    rw [hvalue, List.length_nil, pow_zero]
    omega
  | append_singleton ds d ih =>
    rw [← List.cons_append, digitsValue_append_singleton, List.length_append, List.length_singleton, pow_succ]
    omega

theorem isDigit_of_canonical (h : isCanonicalDecimal s = true) : s ≠ [] ∧ ∀ c ∈ s, isDigit c = true := by
  rcases canonical_cases h with rfl | ⟨c, ds, rfl, -, hd⟩
  · exact ⟨by decide, fun c hc => by obtain rfl := List.mem_singleton.1 hc; decide⟩
  · exact ⟨List.cons_ne_nil c ds, hd⟩

/-- Canonical digits are the digits of their value. -/
theorem kindDigits_digitsValue (h : isCanonicalDecimal s = true) : kindDigits (digitsValue s) = s := by
  rcases canonical_cases h with rfl | ⟨c, ds, rfl, hc, hd⟩
  · rfl
  · have hle : 10 ^ ds.length ≤ digitsValue (c :: ds) := pow_le_digitsValue hc
    have hlt : digitsValue (c :: ds) < 10 ^ (ds.length + 1) := digitsValue_lt_pow hd
    have hpos : 0 < 10 ^ ds.length := Nat.pow_pos (by decide)
    rw [kindDigits, if_neg (by omega)]
    refine eq_of_digitsValue (fun _ => isDigit_of_mem_decimal) hd ?_ (digitsValue_decimal _)
    rw [length_decimal_eq hle hlt, List.length_cons]

theorem isCanonicalDecimal_kindDigits (n : Nat) : isCanonicalDecimal (kindDigits n) = true := by
  unfold kindDigits
  by_cases hn : n = 0
  · rw [if_pos hn]
    decide
  · rw [if_neg hn]
    have hd : ∀ c ∈ decimal n, isDigit c = true := fun _ => isDigit_of_mem_decimal
    have hlen := pow_le_of_length_decimal hn
    have hvalue := digitsValue_decimal n
    cases hs : decimal n with
    | nil => exact absurd hs (decimal_ne_nil hn)
    | cons c ds =>
      rw [hs] at hd hlen hvalue
      have hc := hd c List.mem_cons_self
      simp only [isDigit, Bool.and_eq_true, decide_eq_true_eq] at hc
      simp only [isCanonicalDecimal]
      rw [if_neg, List.all_eq_true]
      · exact hd
      · intro hzero
        -- a leading zero leaves a value below what the digits of `n` reach
        have hdrop : digitsValue (c :: ds) = digitsValue ds := by simp [digitsValue, hzero]
        have hsmall := digitsValue_lt_pow fun d hm => hd d (List.mem_cons_of_mem c hm)
        rw [List.length_cons, Nat.add_sub_cancel] at hlen
        omega

theorem digitsValue_kindDigits (n : Nat) : digitsValue (kindDigits n) = n := by
  unfold kindDigits
  split
  · next hn =>
    rw [hn]
    decide
  · exact digitsValue_decimal n

/-! ## The number of a kind -/

theorem toNumber_of_canonical (h : isCanonicalDecimal s = true) : toNumber s = roundRatio false (digitsValue s) 1 := by
  obtain ⟨hne, hd⟩ := isDigit_of_canonical h
  cases s with
  | nil => exact absurd rfl hne
  | cons c ds =>
    rw [toNumber_of_digit (hd c List.mem_cons_self) (fun d hm => isSpace_eq_false_of_isDigit (hd d (List.mem_cons_of_mem c hm))),
      parseDecimal_digits hne hd]
    cases ds with
    | nil => rfl
    | cons d ds => exact radixOf_of_isDigit (hd d (by simp))

/-- What is not exact is far above every kind. -/
theorem le_of_roundRatio {v k : Nat} (hv : 2 ^ 53 ≤ v) (h : (roundRatio false v 1).toNat? = some k) : 2 ^ 52 ≤ k := by
  have hne : v ≠ 0 := by omega
  have hlog : 53 ≤ v.log2 := (Nat.le_log2 hne).2 hv
  have hself : 2 ^ v.log2 ≤ v := Nat.log2_self_le hne
  have he : max (-1074) (ratioLog2 v 1 - 52) = ((v.log2 - 52 : Nat) : Int) := by
    rw [ratioLog2_one hne]
    omega
  simp only [roundRatio, if_neg hne, he, Int.toNat_natCast, Int.toNat_neg_natCast, pow_zero, Nat.mul_one, Nat.one_mul] at h
  split at h
  · cases h
  · have hm : 2 ^ 52 ≤ roundHalfEven v (2 ^ (v.log2 - 52)) := by
      have hdiv : 2 ^ 52 ≤ v / 2 ^ (v.log2 - 52) := by
        rw [Nat.le_div_iff_mul_le (Nat.pow_pos (by decide)), ← pow_add]
        exact (Nat.pow_le_pow_right (by decide) (by omega)).trans hself
      simp only [roundHalfEven]
      split
      · omega
      · exact hdiv
    simp only [Number.toNat?, Bool.false_and, Bool.false_eq_true, if_false, Int.toNat_natCast, Int.toNat_neg_natCast, pow_zero, Nat.mod_one,
      if_true, Nat.div_one] at h
    obtain rfl := Option.some.inj h
    exact hm.trans (Nat.le_mul_of_pos_right _ (Nat.pow_pos (by decide)))

theorem kind_of_toNumber {k : Nat} (h : isCanonicalDecimal s = true) (hk : k ≤ 65535) : (toNumber s).toNat? = some k ↔ digitsValue s = k := by
  rw [toNumber_of_canonical h]
  by_cases hv : digitsValue s ≤ 2 ^ 53
  · have hdouble : IsDouble (digitsValue s) := by
      have := isDouble_of_mul (s := 0) hv (by rw [pow_zero, Nat.mul_one]; exact hv.trans_lt (by decide +kernel))
      rwa [pow_zero, Nat.mul_one] at this
    rw [roundRatio_of_isDouble hdouble, Option.some.injEq]
  · constructor
    · intro hread
      have hle := le_of_roundRatio (by omega) hread
      omega
    · intro hvalue
      omega

theorem toIntOrNull_of_canonical (h : isCanonicalDecimal s = true) :
    Android.toIntOrNull s = if digitsValue s < 2 ^ 31 then some (digitsValue s : Int) else none := by
  obtain ⟨hne, hd⟩ := isDigit_of_canonical h
  cases s with
  | nil => exact absurd rfl hne
  | cons c ds =>
    have hc := hd c List.mem_cons_self
    simp only [isDigit, Bool.and_eq_true, decide_eq_true_eq] at hc
    have hall : (c :: ds).all isDigit = true := List.all_eq_true.2 hd
    have hminus : ¬c.val = 45 := by omega
    have hplus : ¬c.val = 43 := by omega
    simp only [Android.toIntOrNull, if_neg hminus, if_neg hplus, hall, not_true, or_false, List.cons_ne_nil, if_false, Bool.false_eq_true]
    by_cases hlt : digitsValue (c :: ds) < 2 ^ 31
    · rw [if_pos hlt, if_pos (by omega)]
    · rw [if_neg hlt, if_neg (by omega)]

/-! ## Both readers -/

/-- What both readers make of a text. -/
def readCoordinate (coordinate : JsString) : Except JsString EventCoordinate :=
  let invalid := js "invalid coordinate: " ++ coordinate
  match splitColon coordinate with
  | none => .error invalid
  | some (kindText, rest) =>
    match splitColon rest with
    | none => .error invalid
    | some (pubkey, identifier) =>
      if isCanonicalDecimal kindText ∧ digitsValue kindText ≤ 65535 ∧ isHex32 pubkey then .ok ⟨digitsValue kindText, pubkey, identifier⟩
      else .error invalid

theorem parseCoordinate_eq (c : JsString) : parseCoordinate c = readCoordinate c := by
  unfold parseCoordinate readCoordinate
  cases splitColon c with
  | none => rfl
  | some p =>
    obtain ⟨kindText, rest⟩ := p
    dsimp only
    cases splitColon rest with
    | none => rfl
    | some q =>
      obtain ⟨pubkey, identifier⟩ := q
      dsimp only
      by_cases hcan : isCanonicalDecimal kindText = true
      · by_cases hle : digitsValue kindText ≤ 65535
        · rw [(kind_of_toNumber hcan hle).2 rfl]
        · have hread : ¬(isCanonicalDecimal kindText = true ∧ digitsValue kindText ≤ 65535 ∧ isHex32 pubkey = true) := fun h => hle h.2.1
          rw [if_neg hread]
          cases hk : (toNumber kindText).toNat? with
          | none => rfl
          | some k =>
            refine if_neg fun h => hle ?_
            rw [(kind_of_toNumber hcan h.2.1).1 hk]
            exact h.2.1
      · rw [if_neg fun h => hcan h.1]
        cases (toNumber kindText).toNat? with
        | none => rfl
        | some k => exact if_neg fun h => hcan h.1

theorem Android.parse_eq (c : JsString) : Android.Coordinate.parse c = readCoordinate c := by
  unfold Android.Coordinate.parse readCoordinate
  cases splitColon c with
  | none => rfl
  | some p =>
    obtain ⟨kindText, rest⟩ := p
    dsimp only
    cases splitColon rest with
    | none => rfl
    | some q =>
      obtain ⟨pubkey, identifier⟩ := q
      dsimp only
      by_cases hcan : isCanonicalDecimal kindText = true
      · rw [if_pos hcan, toIntOrNull_of_canonical hcan]
        by_cases hle : digitsValue kindText ≤ 65535
        · have hint : (0 : Int) ≤ digitsValue kindText ∧ (digitsValue kindText : Int) ≤ 65535 := by omega
          rw [if_pos (by omega)]
          simp only [hcan, hle, hint, true_and, Int.toNat_natCast]
        · have hread : ¬(isCanonicalDecimal kindText = true ∧ digitsValue kindText ≤ 65535 ∧ isHex32 pubkey = true) := fun h => hle h.2.1
          by_cases hlt : digitsValue kindText < 2 ^ 31
          · rw [if_pos hlt, if_neg hread]
            exact if_neg fun h => hle (by omega)
          · rw [if_neg hlt, if_neg hread]
      · rw [if_neg hcan, if_neg fun h => hcan h.1]

theorem readCoordinate_eq_ok {c : JsString} {e : EventCoordinate} :
    readCoordinate c = .ok e ↔ (e.kind ≤ 65535 ∧ isHex32 e.pubkey = true) ∧ c = kindDigits e.kind ++ (js ":" ++ (e.pubkey ++ (js ":" ++ e.identifier))) := by
  constructor
  · intro h
    simp only [readCoordinate] at h
    cases hfirst : splitColon c with
    | none =>
      rw [hfirst] at h
      cases h
    | some p =>
      obtain ⟨kindText, rest⟩ := p
      rw [hfirst] at h
      dsimp only at h
      cases hsecond : splitColon rest with
      | none =>
        rw [hsecond] at h
        cases h
      | some q =>
        obtain ⟨pubkey, identifier⟩ := q
        rw [hsecond] at h
        dsimp only at h
        split at h
        · next hif =>
          obtain ⟨hcan, hle, hhex⟩ := hif
          cases h
          refine ⟨⟨hle, hhex⟩, ?_⟩
          rw [kindDigits_digitsValue hcan, ← splitColon_eq_some hsecond]
          exact splitColon_eq_some hfirst
        · cases h
  · rintro ⟨⟨hle, hhex⟩, rfl⟩
    have hfirst := splitColon_append (b := e.pubkey ++ (js ":" ++ e.identifier))
      fun c (hc : c ∈ kindDigits e.kind) => ne_colon_of_isDigit (isDigit_of_mem_kindDigits hc)
    have hsecond := splitColon_append (b := e.identifier) (ne_colon_of_isHex32 hhex)
    simp only [readCoordinate, hfirst, hsecond, digitsValue_kindDigits]
    rw [if_pos ⟨isCanonicalDecimal_kindDigits _, hle, hhex⟩]

theorem makeCoordinate_eq {pubkey identifier : JsString} {kind : Nat} (h : kind ≤ 65535) :
    makeCoordinate pubkey identifier kind = kindDigits kind ++ (js ":" ++ (pubkey ++ (js ":" ++ identifier))) := by
  unfold makeCoordinate
  rw [natToString_eq_kindDigits h]
  simp only [List.append_assoc]

end

/-- **A space has one spelling**: an accepted coordinate is the one that is made of its parts, two that
are read alike are one, what is made of the parts is read back, and Kotlin reads what TypeScript does. -/
theorem coordinate_canonical (c : JsString) :
    (∀ e, parseCoordinate c = .ok e → makeCoordinate e.pubkey e.identifier e.kind = c) ∧
    (∀ c' e, parseCoordinate c = .ok e → parseCoordinate c' = .ok e → c = c') ∧
    (∀ kind pubkey identifier, kind ≤ 65535 → isHex32 pubkey = true →
      parseCoordinate (makeCoordinate pubkey identifier kind) = .ok ⟨kind, pubkey, identifier⟩) ∧
    Android.Coordinate.parse c = parseCoordinate c := by
  have hmade : ∀ {c e}, parseCoordinate c = .ok e → makeCoordinate e.pubkey e.identifier e.kind = c := by
    intro c e h
    rw [parseCoordinate_eq] at h
    obtain ⟨⟨hle, -⟩, hc⟩ := readCoordinate_eq_ok.1 h
    rw [makeCoordinate_eq hle, ← hc]
  refine ⟨fun e h => hmade h, fun c' e h h' => ?_, fun kind pubkey identifier hle hhex => ?_, ?_⟩
  · rw [← hmade h, hmade h']
  · rw [parseCoordinate_eq, makeCoordinate_eq hle]
    exact readCoordinate_eq_ok.2 ⟨⟨hle, hhex⟩, rfl⟩
  · rw [Android.parse_eq, parseCoordinate_eq]

theorem coordinate_canonical_colons :
    parseCoordinate (makeCoordinate (List.replicate 64 97) (js "a:b") kindCalendarEvent) =
      .ok ⟨kindCalendarEvent, List.replicate 64 97, js "a:b"⟩ :=
  (coordinate_canonical []).2.2.1 _ _ _ (by decide) (by decide)

end Nostrautica
