/-
`String(n)` is read back: for every integer `n` that is a binary64 value,
`Number(String(n))` is `n` (`toNat?_toNumber_natToString`), and rounding gives
such a value whenever it is finite (`roundRatio_floor_isDouble`).
-/
import Nostrautica.Js.Number

namespace Js

theorem isAscii_append (s t : JsString) : isAscii (s ++ t) = (isAscii s && isAscii t) := List.all_append

/-! ## Decimal digits -/

@[simp] theorem digitsValue_nil : digitsValue [] = 0 := rfl

theorem digitsValue_append_singleton (ds : JsString) (c : CodeUnit) :
    digitsValue (ds ++ [c]) = 10 * digitsValue ds + (c.val - 48) := by
  simp [digitsValue, List.foldl_append]

theorem val_digitUnit {d : Nat} (h : d < 10) : (digitUnit d).val = 48 + d := by
  simp only [digitUnit, codeUnit, Fin.ofNat]
  omega

theorem isDigit_digitUnit {d : Nat} (h : d < 10) : isDigit (digitUnit d) = true := by
  simp only [isDigit, val_digitUnit h, Bool.and_eq_true, decide_eq_true_eq]
  omega

/-- The accumulator is the tail of what comes out. -/
theorem decimalAux_eq : ∀ (fuel n : Nat) (acc : JsString), decimalAux fuel n acc = decimalAux fuel n [] ++ acc
  | 0, _, _ => rfl
  | fuel + 1, n, acc => by
    simp only [decimalAux]
    split
    · rfl
    · rw [decimalAux_eq fuel _ (_ :: acc), decimalAux_eq fuel _ [_], List.append_assoc, List.singleton_append]

theorem decimalAux_succ {fuel n : Nat} (h : n ≠ 0) :
    decimalAux (fuel + 1) n [] = decimalAux fuel (n / 10) [] ++ [digitUnit (n % 10)] := by
  rw [decimalAux, if_neg h, decimalAux_eq]

theorem digitsValue_decimalAux : ∀ {fuel n : Nat}, n < 2 ^ fuel → digitsValue (decimalAux fuel n []) = n
  | 0, n, h => by
    have : n = 0 := by simpa using h
    simp [decimalAux, this]
  | fuel + 1, n, h => by
    by_cases hn : n = 0
    · simp [decimalAux, hn]
    · have h10 : n / 10 < 2 ^ fuel := by rw [pow_succ] at h; omega
      rw [decimalAux_succ hn, digitsValue_append_singleton, digitsValue_decimalAux h10,
        val_digitUnit (Nat.mod_lt _ (by decide))]
      omega

theorem isDigit_of_mem_decimalAux : ∀ {fuel n : Nat} {c : CodeUnit}, c ∈ decimalAux fuel n [] → isDigit c = true
  | 0, _, _, h => nomatch h
  | fuel + 1, n, c, h => by
    by_cases hn : n = 0
    · simp [decimalAux, hn] at h
    · rw [decimalAux_succ hn, List.mem_append, List.mem_singleton] at h
      rcases h with h | rfl
      · exact isDigit_of_mem_decimalAux h
      · exact isDigit_digitUnit (Nat.mod_lt _ (by decide))

theorem length_decimalAux_le : ∀ {fuel n k : Nat}, n < 10 ^ k → (decimalAux fuel n []).length ≤ k
  | 0, _, _, _ => Nat.zero_le _
  | fuel + 1, n, k, h => by
    by_cases hn : n = 0
    · simp [decimalAux, hn]
    · obtain ⟨k, rfl⟩ : ∃ k', k = k' + 1 := ⟨k - 1, by
        rcases k with _ | k
        · simp at h; omega
        · rfl⟩
      have h10 : n / 10 < 10 ^ k := by rw [pow_succ] at h; omega
      rw [decimalAux_succ hn, List.length_append, List.length_singleton]
      exact Nat.succ_le_succ (length_decimalAux_le h10)

theorem digitsValue_decimal (n : Nat) : digitsValue (decimal n) = n :=
  digitsValue_decimalAux Nat.lt_log2_self

theorem isDigit_of_mem_decimal {n : Nat} {c : CodeUnit} (h : c ∈ decimal n) : isDigit c = true :=
  isDigit_of_mem_decimalAux h

theorem length_decimal_le {n k : Nat} (h : n < 10 ^ k) : (decimal n).length ≤ k := length_decimalAux_le h

theorem decimal_ne_nil {n : Nat} (h : n ≠ 0) : decimal n ≠ [] := fun he => h (by
  rw [← digitsValue_decimal n, he, digitsValue_nil])

theorem digitsValue_append_zeros (ds : JsString) :
    ∀ p, digitsValue (ds ++ List.replicate p (digitUnit 0)) = digitsValue ds * 10 ^ p
  | 0 => by simp
  | p + 1 => by
    rw [List.replicate_succ', ← List.append_assoc, digitsValue_append_singleton,
      digitsValue_append_zeros ds p, val_digitUnit (by decide), pow_succ]
    ring

/-! ## Rounding -/

theorem numberLimit_pos : 0 < numberLimit := by decide +kernel

theorem numberLimit_lt : numberLimit < 10 ^ 309 := by decide +kernel

/-- The integers binary64 holds: no more than 53 significant bits. -/
def IsDouble (n : Nat) : Prop := n < numberLimit ∧ 2 ^ (n.log2 - 52) ∣ n

instance (n : Nat) : Decidable (IsDouble n) := inferInstanceAs (Decidable (_ ∧ _))

theorem roundHalfEven_of_dvd {a b : Nat} (hb : 0 < b) (h : b ∣ a) : roundHalfEven a b = a / b := by
  simp only [roundHalfEven, Nat.mod_eq_zero_of_dvd h]
  exact if_neg (by omega)

theorem roundHalfEven_le {a b : Nat} : roundHalfEven a b ≤ a / b + 1 := by
  simp only [roundHalfEven]
  split <;> omega

/-- A bound between powers of two, moved along. -/
theorem mul_two_pow_lt {a b u v u' v' : Nat} (h : a * 2 ^ u < b * 2 ^ v) (hle : v + u' ≤ v' + u) :
    a * 2 ^ u' < b * 2 ^ v' := by
  refine Nat.lt_of_mul_lt_mul_right (a := 2 ^ u) ?_
  calc a * 2 ^ u' * 2 ^ u = a * 2 ^ u * 2 ^ u' := by ring
    _ < b * 2 ^ v * 2 ^ u' := Nat.mul_lt_mul_of_pos_right h (Nat.two_pow_pos _)
    _ = b * 2 ^ (v + u') := by ring
    _ ≤ b * 2 ^ (v' + u) := Nat.mul_le_mul_left _ (Nat.pow_le_pow_right (by decide) hle)
    _ = b * 2 ^ v' * 2 ^ u := by ring

theorem lt_ratioLog2 {a b : Nat} (hb : b ≠ 0) :
    a * 2 ^ (-(ratioLog2 a b + 1)).toNat < b * 2 ^ (ratioLog2 a b + 1).toNat := by
  simp only [ratioLog2]
  split
  · have h : a * 2 ^ b.log2 < b * 2 ^ (a.log2 + 1) := by
      calc a * 2 ^ b.log2 < 2 ^ (a.log2 + 1) * 2 ^ b.log2 :=
            Nat.mul_lt_mul_of_pos_right Nat.lt_log2_self (Nat.two_pow_pos _)
        _ ≤ 2 ^ (a.log2 + 1) * b := Nat.mul_le_mul_left _ (Nat.log2_self_le hb)
        _ = b * 2 ^ (a.log2 + 1) := Nat.mul_comm _ _
    exact mul_two_pow_lt h (by omega)
  · next h => exact mul_two_pow_lt (not_le.1 h) (by omega)

theorem ratioLog2_one {a : Nat} (ha : a ≠ 0) : ratioLog2 a 1 = a.log2 := by
  simp only [ratioLog2]
  have h : Nat.log2 1 = 0 := by decide
  rw [h]
  exact if_pos (by simpa using Nat.log2_self_le ha)

theorem isDouble_of_mul {m s : Nat} (hm : m ≤ 2 ^ 53) (h : m * 2 ^ s < numberLimit) : IsDouble (m * 2 ^ s) := by
  refine ⟨h, ?_⟩
  rcases hm.lt_or_eq with hm | rfl
  · have hlog : (m * 2 ^ s).log2 - 52 ≤ s := by
      by_cases h0 : m * 2 ^ s = 0
      · rw [h0]; simp
      · have : (m * 2 ^ s).log2 < 53 + s := by
          rw [Nat.log2_lt h0, pow_add]
          exact Nat.mul_lt_mul_of_pos_right hm (Nat.two_pow_pos _)
        omega
    exact Dvd.dvd.mul_left (pow_dvd_pow 2 hlog) m
  · rw [← pow_add, Nat.log2_two_pow]
    exact pow_dvd_pow 2 (by omega)

/-- **What rounding leaves, floored, is a binary64 integer.** -/
theorem roundRatio_floor_isDouble {neg neg' : Bool} {a b m : Nat} {e : Int} (hb : b ≠ 0)
    (h : roundRatio neg a b = .finite neg' m e) : IsDouble (m * 2 ^ e.toNat / 2 ^ (-e).toNat) := by
  simp only [roundRatio] at h
  split at h
  · cases h
    rw [Nat.zero_mul, Nat.zero_div]
    exact ⟨numberLimit_pos, dvd_zero _⟩
  split at h
  · cases h
  next hover =>
  cases h
  generalize he : max (-1074) (ratioLog2 a b - 52) = e at hover ⊢
  generalize hm : roundHalfEven (a * 2 ^ (-e).toNat) (b * 2 ^ e.toNat) = m at hover ⊢
  have hm : m ≤ 2 ^ 53 := by
    have hq : a * 2 ^ (-e).toNat < b * 2 ^ (e.toNat + 53) := mul_two_pow_lt (lt_ratioLog2 hb) (by omega)
    have hq : a * 2 ^ (-e).toNat / (b * 2 ^ e.toNat) < 2 ^ 53 := by
      rw [Nat.div_lt_iff_lt_mul (Nat.mul_pos (Nat.pos_of_ne_zero hb) (Nat.two_pow_pos _))]
      calc _ < _ := hq
        _ = _ := by ring
    have := roundHalfEven_le (a := a * 2 ^ (-e).toNat) (b := b * 2 ^ e.toNat)
    omega
  rcases le_total e 0 with h0 | h0
  · have hs : e.toNat = 0 := by omega
    rw [hs] at hover ⊢
    have hn : m * 2 ^ 0 / 2 ^ (-e).toNat ≤ m := by simpa using Nat.div_le_self _ _
    have := isDouble_of_mul (m := m * 2 ^ 0 / 2 ^ (-e).toNat) (s := 0) (by omega)
    simp only [pow_zero, mul_one] at this hover ⊢
    exact this (Nat.div_lt_of_lt_mul (by rw [mul_comm]; omega))
  · have ht : (-e).toNat = 0 := by omega
    simp only [ht, pow_zero, Nat.div_one, mul_one] at hover ⊢
    exact isDouble_of_mul hm (by omega)

theorem roundRatio_of_isDouble {n : Nat} (h : IsDouble n) :
    (roundRatio false n 1).toNat? = some n := by
  by_cases hn : n = 0
  · subst hn; rfl
  simp only [roundRatio, if_neg hn, ratioLog2_one hn]
  have he : max (-1074) ((n.log2 : Int) - 52) = n.log2 - 52 := by omega
  rw [he]
  have hs : ((n.log2 : Int) - 52).toNat = n.log2 - 52 := by omega
  have ht : (-((n.log2 : Int) - 52)).toNat = 52 - n.log2 := by omega
  rw [hs, ht, Nat.one_mul]
  have hdvd : 2 ^ (n.log2 - 52) ∣ n * 2 ^ (52 - n.log2) := h.2.mul_right _
  have hm : roundHalfEven (n * 2 ^ (52 - n.log2)) (2 ^ (n.log2 - 52)) * 2 ^ (n.log2 - 52) =
      n * 2 ^ (52 - n.log2) := by
    rw [roundHalfEven_of_dvd (Nat.two_pow_pos _) hdvd, Nat.div_mul_cancel hdvd]
  rw [hm, if_neg (not_le.2 (Nat.mul_lt_mul_of_pos_right h.1 (Nat.two_pow_pos _)))]
  simp only [Number.toNat?, hs, ht, hm, Bool.false_and, Nat.mul_mod_left]
  simp

theorem floorNonneg?_of_toNat? {x : Number} {n : Nat} (h : x.toNat? = some n) : x.floorNonneg? = some n := by
  cases x with
  | finite neg m e =>
    simp only [Number.toNat?] at h
    simp only [Number.floorNonneg?]
    split at h
    · cases h
    · next hneg =>
      split at h
      · rw [if_neg hneg]; exact h
      · cases h
  | _ => cases h

/-! ## Reading back -/

theorem readsBack_iff {n c p : Nat} : readsBack n c p = true ↔ (roundRatio false (c * 10 ^ p) 1).toNat? = some n := by
  simp only [readsBack, beq_iff_eq]

theorem shortest_readsBack {n : Nat} (h : IsDouble n) : readsBack n (shortest n).1 (shortest n).2 = true := by
  simp only [shortest]
  cases hf : (List.range ((decimal n).length + 1)).reverse.findSome? fun p =>
      ((neighbours n p).find? fun c => readsBack n c p).map fun c => (c, p) with
  | none =>
    rw [Option.getD_none, readsBack_iff, pow_zero, mul_one]
    exact roundRatio_of_isDouble h
  | some cp =>
    obtain ⟨p, -, hp⟩ := List.exists_of_findSome?_eq_some hf
    obtain ⟨c, hc, rfl⟩ := Option.map_eq_some_iff.1 hp
    exact List.find?_some (p := fun c => readsBack n c p) hc

theorem shortest_ne_zero {n : Nat} (h : IsDouble n) (hn : n ≠ 0) : (shortest n).1 ≠ 0 := by
  intro h0
  have hr := readsBack_iff.1 (shortest_readsBack h)
  rw [h0, Nat.zero_mul] at hr
  exact hn (Option.some.inj hr).symm

theorem span_digits {ds r : JsString} (hd : ∀ c ∈ ds, isDigit c = true) (hr : ∀ c ∈ r.head?, isDigit c = false) :
    (ds ++ r).span isDigit = (ds, r) := by
  rw [List.span_eq_takeWhile_dropWhile, List.takeWhile_append_of_pos hd, List.dropWhile_append_of_pos hd]
  cases r with
  | nil => simp
  | cons c r => simp [hr c rfl]

theorem isSpace_eq_false_of_isDigit {c : CodeUnit} (h : isDigit c = true) : isSpace c = false := by
  simp only [isDigit, Bool.and_eq_true, decide_eq_true_eq] at h
  simp only [isSpace, Bool.or_eq_false_iff, Bool.and_eq_false_iff, decide_eq_false_iff_not, beq_eq_false_iff_ne]
  omega

theorem trim_eq_self {s : JsString} (h : ∀ c ∈ s, isSpace c = false) : trim s = s := by
  have key : ∀ {s : JsString}, (∀ c ∈ s, isSpace c = false) → s.dropWhile isSpace = s := fun {s} h => by
    cases s with
    | nil => rfl
    | cons c s => simp [h c List.mem_cons_self]
  have hr : ∀ c ∈ s.reverse, isSpace c = false := fun c hc => h c (List.mem_reverse.1 hc)
  rw [trim, key h, key hr, List.reverse_reverse]

theorem radixOf_of_isDigit {c : CodeUnit} (h : isDigit c = true) : radixOf c = none := by
  simp only [isDigit, Bool.and_eq_true, decide_eq_true_eq] at h
  simp only [radixOf]
  rw [if_neg (by omega), if_neg (by omega), if_neg (by omega)]

/-- A literal that starts with a digit and names no radix is a decimal one. -/
theorem toNumber_of_digit {d : CodeUnit} {s : JsString} (hd : isDigit d = true)
    (hs : ∀ c ∈ s, isSpace c = false) (hr : s.head?.bind radixOf = none) :
    toNumber (d :: s) = parseDecimal false (d :: s) := by
  have htrim : trim (d :: s) = d :: s := trim_eq_self fun c hc => by
    rcases List.mem_cons.1 hc with rfl | hc
    · exact isSpace_eq_false_of_isDigit hd
    · exact hs c hc
  have hinf : d :: s ≠ js "Infinity" := fun he => by
    have : d = 73 := (List.cons.inj he).1
    subst this
    cases hd
  simp only [isDigit, Bool.and_eq_true, decide_eq_true_eq] at hd
  have h43 : d.val ≠ 43 := by omega
  have h45 : d.val ≠ 45 := by omega
  simp only [toNumber, htrim, parseLiteral, if_neg h43, if_neg h45, hr, ite_self, parseUnsigned, if_neg hinf]

theorem parseDecimal_digits {neg : Bool} {ds : JsString} (hne : ds ≠ []) (hd : ∀ c ∈ ds, isDigit c = true) :
    parseDecimal neg ds = roundRatio neg (digitsValue ds) 1 := by
  have hspan : ds.span isDigit = (ds, []) := by simpa using span_digits (r := []) hd nofun
  simp only [parseDecimal, hspan, parseFraction, parseExponent, List.append_nil, if_neg hne]
  simp

theorem mem_fraction {f : JsString} {c : CodeUnit} (h : c ∈ fraction f) : c = 46 ∨ c ∈ f := by
  simp only [fraction] at h
  split at h
  · cases h
  · exact List.mem_cons.1 h

theorem parseDecimal_exponent {neg : Bool} {i f x : JsString} (hi : i ≠ []) (hx : x ≠ [])
    (hid : ∀ c ∈ i, isDigit c = true) (hfd : ∀ c ∈ f, isDigit c = true) (hxd : ∀ c ∈ x, isDigit c = true)
    (hle : f.length ≤ digitsValue x) :
    parseDecimal neg (i ++ (fraction f ++ 101 :: 43 :: x)) =
      roundRatio neg (digitsValue (i ++ f) * 10 ^ (digitsValue x - f.length)) 1 := by
  have hspan : (i ++ (fraction f ++ 101 :: 43 :: x)).span isDigit = (i, fraction f ++ 101 :: 43 :: x) :=
    span_digits hid fun c hc => by
      simp only [fraction] at hc
      split at hc <;> simp at hc <;> subst hc <;> rfl
  have hfrac : parseFraction (fraction f ++ 101 :: 43 :: x) = (f, 101 :: 43 :: x) := by
    simp only [fraction]
    split
    · next h => subst h; rfl
    · change (f ++ 101 :: 43 :: x).span isDigit = _
      exact span_digits hfd fun c hc => by simp at hc; subst hc; rfl
  have hexp : parseExponent (101 :: 43 :: x) = some (digitsValue x : Int) := by
    have hall : x.all isDigit = true := List.all_eq_true.2 hxd
    simp [parseExponent, hx, hall]
  have hne : i ++ f ≠ [] := by simp [hi]
  have hle' : ((digitsValue x : Int) - f.length).toNat = digitsValue x - f.length := by omega
  have hle0 : (-((digitsValue x : Int) - f.length)).toNat = 0 := by omega
  simp only [parseDecimal, hspan, hfrac, hexp, if_neg hne, hle', hle0, pow_zero]

/-- **What `formatDigits` writes is read as the digits with their zeros.** -/
theorem toNumber_formatDigits {ds : JsString} {p : Nat} (hne : ds ≠ []) (hd : ∀ c ∈ ds, isDigit c = true) :
    toNumber (formatDigits ds p) = roundRatio false (digitsValue ds * 10 ^ p) 1 := by
  obtain ⟨d, f, rfl⟩ := List.exists_cons_of_ne_nil hne
  have hfd : ∀ c ∈ f, isDigit c = true := fun c hc => hd c (List.mem_cons_of_mem d hc)
  simp only [formatDigits]
  split
  · have hall : ∀ c ∈ d :: f ++ List.replicate p (digitUnit 0), isDigit c = true := fun c hc => by
      rcases List.mem_append.1 hc with hc | hc
      · exact hd c hc
      · rw [(List.mem_replicate.1 hc).2]; exact isDigit_digitUnit (by decide)
    rw [List.cons_append, toNumber_of_digit (hd d List.mem_cons_self), ← List.cons_append,
      parseDecimal_digits (by simp) hall, digitsValue_append_zeros]
    · exact fun c hc => isSpace_eq_false_of_isDigit (hall c (List.mem_cons_of_mem d hc))
    · cases hh : (f ++ List.replicate p (digitUnit 0)).head? with
      | none => rfl
      | some c =>
        exact radixOf_of_isDigit (hall c (List.mem_cons_of_mem d (List.mem_of_mem_head? hh)))
  next hlen =>
  have hx : ((d :: f).length + p - 1) = f.length + p := by simp only [List.length_cons]; omega
  have hx0 : f.length + p ≠ 0 := by simp only [List.length_cons] at hlen; omega
  have hform : (d :: f).take 1 ++ fraction ((d :: f).drop 1) ++ js "e+" ++ decimal ((d :: f).length + p - 1) =
      [d] ++ (fraction f ++ 101 :: 43 :: decimal (f.length + p)) := by
    have he : js "e+" = [101, 43] := by decide
    rw [hx, he]
    simp
  rw [hform, List.singleton_append, toNumber_of_digit (hd d List.mem_cons_self), ← List.singleton_append,
    parseDecimal_exponent (by simp) (decimal_ne_nil hx0) (by simpa using hd d List.mem_cons_self) hfd
      (fun c => isDigit_of_mem_decimal) (by rw [digitsValue_decimal]; omega),
    digitsValue_decimal, List.singleton_append, Nat.add_sub_cancel_left]
  · intro c hc
    rcases List.mem_append.1 hc with hc | hc
    · rcases mem_fraction hc with rfl | hc
      · decide
      · exact isSpace_eq_false_of_isDigit (hfd c hc)
    · rcases List.mem_cons.1 hc with rfl | hc
      · decide
      rcases List.mem_cons.1 hc with rfl | hc
      · decide
      · exact isSpace_eq_false_of_isDigit (isDigit_of_mem_decimal hc)
  · simp only [fraction]
    split <;> rfl

/-- **`Number(String(n))` is `n`.** -/
theorem toNat?_toNumber_natToString {n : Nat} (h : IsDouble n) : (toNumber (natToString n)).toNat? = some n := by
  simp only [natToString]
  split
  · next hn => subst hn; decide
  · next hn =>
    have hne := decimal_ne_nil (shortest_ne_zero h hn)
    rw [toNumber_formatDigits hne fun c => isDigit_of_mem_decimal, digitsValue_decimal]
    exact readsBack_iff.1 (shortest_readsBack h)

theorem trim_natToString_ne_nil {n : Nat} (h : IsDouble n) : trim (natToString n) ≠ [] := by
  intro ht
  have hn := toNat?_toNumber_natToString h
  rw [toNumber, ht] at hn
  have h0 : n = 0 := (Option.some.inj hn).symm
  subst h0
  exact absurd ht (by decide)

/-! ## What a string can be read as -/

/-- A number that is a binary64 value, as far as integers show it. -/
def Number.Rounded (x : Number) : Prop := ∀ n, x.floorNonneg? = some n → IsDouble n

theorem rounded_roundRatio (neg : Bool) (a : Nat) {b : Nat} (hb : b ≠ 0) : (roundRatio neg a b).Rounded := by
  intro n hn
  cases hr : roundRatio neg a b with
  | finite neg' m e =>
    rw [hr] at hn
    simp only [Number.floorNonneg?] at hn
    split at hn
    · cases hn
    · cases hn
      exact roundRatio_floor_isDouble hb hr
  | _ => rw [hr] at hn; cases hn

theorem rounded_of_none {x : Number} (h : x.floorNonneg? = none) : x.Rounded := by
  intro n hn
  rw [h] at hn
  cases hn

theorem rounded_parseDecimal (neg : Bool) (s : JsString) : (parseDecimal neg s).Rounded := by
  simp only [parseDecimal]
  split
  · exact rounded_of_none rfl
  · split
    · exact rounded_of_none rfl
    · exact rounded_roundRatio _ _ (pow_ne_zero _ (by decide))

theorem rounded_parseUnsigned (neg : Bool) (s : JsString) : (parseUnsigned neg s).Rounded := by
  unfold parseUnsigned
  split
  · exact rounded_of_none rfl
  · exact rounded_parseDecimal neg s

theorem rounded_parseRadix (radix : Nat) (s : JsString) : (parseRadix radix s).Rounded := by
  unfold parseRadix
  split
  · exact rounded_of_none rfl
  · simp only
    split
    · exact rounded_roundRatio _ _ one_ne_zero
    · exact rounded_of_none rfl

/-- **`Number(s)` is a binary64 value.** -/
theorem rounded_toNumber (s : JsString) : (toNumber s).Rounded := by
  unfold toNumber parseLiteral
  split
  · intro n hn
    cases hn
    exact ⟨numberLimit_pos, dvd_zero _⟩
  · split
    · exact rounded_parseUnsigned _ _
    · split
      · exact rounded_parseUnsigned _ _
      · split
        · exact rounded_parseRadix _ _
        · exact rounded_parseUnsigned _ _

/-! ## Size -/

theorem shortest_le (n : Nat) : (shortest n).1 ≤ n + 1 ∧ (shortest n).2 ≤ (decimal n).length := by
  simp only [shortest]
  cases hf : (List.range ((decimal n).length + 1)).reverse.findSome? fun p =>
      ((neighbours n p).find? fun c => readsBack n c p).map fun c => (c, p) with
  | none => exact ⟨Nat.le_succ n, Nat.zero_le _⟩
  | some cp =>
    obtain ⟨p, hmem, hp⟩ := List.exists_of_findSome?_eq_some hf
    obtain ⟨c, hc, rfl⟩ := Option.map_eq_some_iff.1 hp
    have hp : p < (decimal n).length + 1 := List.mem_range.1 (List.mem_reverse.1 hmem)
    have hle := Nat.div_le_self n (10 ^ p)
    have hc := List.mem_of_find?_eq_some hc
    have hc : c = n / 10 ^ p ∨ c = n / 10 ^ p + 1 := by
      simp only [neighbours] at hc
      split at hc <;> simp at hc <;> tauto
    simp only [Option.getD_some]
    omega

theorem length_formatDigits_le {ds : JsString} {p : Nat} (hds : ds.length ≤ 309) (hp : p ≤ 309) :
    (formatDigits ds p).length ≤ 320 := by
  simp only [formatDigits]
  split
  · simp only [List.length_append, List.length_replicate]
    omega
  · have hx : (decimal (ds.length + p - 1)).length ≤ 3 := length_decimal_le (by omega)
    have hdot : (js ".").length = 1 := by decide
    have he : (js "e+").length = 2 := by decide
    have hf : (fraction (ds.drop 1)).length ≤ 1 + (ds.length - 1) := by
      simp only [fraction]
      split
      · exact Nat.zero_le _
      · rw [List.length_append, hdot, List.length_drop]
    simp only [List.length_append, List.length_take, he]
    omega

theorem length_natToString_le {n : Nat} (h : n < numberLimit) : (natToString n).length ≤ 320 := by
  simp only [natToString]
  split
  · decide
  · have hpow : numberLimit < 10 ^ 309 := by decide +kernel
    have hn := length_decimal_le (lt_trans h hpow)
    obtain ⟨hc, hp⟩ := shortest_le n
    exact length_formatDigits_le (length_decimal_le (by omega)) (hp.trans hn)

theorem length_intToString_le {n : Int} (h : n.natAbs < numberLimit) : (intToString n).length ≤ 321 := by
  cases n with
  | ofNat n => exact (length_natToString_le h).trans (by decide)
  | negSucc n =>
    have hminus : (js "-").length = 1 := by decide
    have := length_natToString_le (n := n + 1) h
    simp only [intToString, List.length_append, hminus]
    omega

theorem isAscii_of_digits {ds : JsString} (hd : ∀ c ∈ ds, isDigit c = true) : isAscii ds = true := by
  refine List.all_eq_true.2 fun c hc => ?_
  have := hd c hc
  simp only [isDigit, Bool.and_eq_true, decide_eq_true_eq] at this ⊢
  omega

/-- What printed digits are made of. -/
theorem mem_formatDigits {ds : JsString} {p : Nat} {c : CodeUnit} (hd : ∀ c ∈ ds, isDigit c = true) (h : c ∈ formatDigits ds p) :
    isDigit c = true ∨ c ∈ js ".e+" := by
  have hsign : js "e+" ⊆ js ".e+" := by decide
  have hpoint : js "." ⊆ js ".e+" := by decide
  have hzero : isDigit (digitUnit 0) = true := by decide
  unfold formatDigits at h
  split at h
  · rcases List.mem_append.1 h with h | h
    · exact .inl (hd c h)
    · rw [(List.mem_replicate.1 h).2]
      exact .inl hzero
  · simp only [List.mem_append] at h
    rcases h with ((h | h) | h) | h
    · exact .inl (hd c (List.mem_of_mem_take h))
    · unfold fraction at h
      split at h
      · cases h
      · rcases List.mem_append.1 h with h | h
        · exact .inr (hpoint h)
        · exact .inl (hd c (List.mem_of_mem_drop h))
    · exact .inr (hsign h)
    · exact .inl (isDigit_of_mem_decimal h)

theorem mem_natToString {n : Nat} {c : CodeUnit} (h : c ∈ natToString n) : isDigit c = true ∨ c ∈ js ".e+" := by
  have hzero : (js "0").all isDigit = true := by decide
  unfold natToString at h
  split at h
  · exact .inl (List.all_eq_true.1 hzero c h)
  · exact mem_formatDigits (fun d => isDigit_of_mem_decimal) h

theorem isAscii_formatDigits {ds : JsString} {p : Nat} (hd : ∀ c ∈ ds, isDigit c = true) :
    isAscii (formatDigits ds p) = true := by
  have hsigns : isAscii (js ".e+") = true := by decide
  refine List.all_eq_true.2 fun c hc => ?_
  rcases mem_formatDigits hd hc with h | h
  · simp only [isDigit, Bool.and_eq_true, decide_eq_true_eq] at h ⊢
    omega
  · exact List.all_eq_true.1 hsigns c h

theorem isAscii_natToString (n : Nat) : isAscii (natToString n) = true := by
  simp only [natToString]
  split
  · decide
  · exact isAscii_formatDigits fun c => isDigit_of_mem_decimal

/-- Numbers are written in ASCII. -/
theorem isAscii_intToString (n : Int) : isAscii (intToString n) = true := by
  cases n with
  | ofNat n => exact isAscii_natToString n
  | negSucc n =>
    have hminus : isAscii (js "-") = true := by decide
    rw [intToString, isAscii_append, hminus, isAscii_natToString]
    rfl

end Js
