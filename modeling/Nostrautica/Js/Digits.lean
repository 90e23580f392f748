/-
How many digits `String(n)` writes: as many as `n` has, where no exponent is written.
-/
import Nostrautica.Js.NumberFacts

namespace Js

variable {n c p : Nat} {ds : JsString}

theorem digitsValue_lt_pow (hd : ∀ c ∈ ds, isDigit c = true) : digitsValue ds < 10 ^ ds.length := by
  induction ds using List.reverseRecOn with
  | nil => decide
  | append_singleton ds c ih =>
    have hc := hd c (by simp)
    have ih := ih fun d h => hd d (by simp [h])
    simp only [isDigit, Bool.and_eq_true, decide_eq_true_eq] at hc
    rw [digitsValue_append_singleton, List.length_append, List.length_singleton, pow_succ]
    omega

theorem lt_pow_decimal (n : Nat) : n < 10 ^ (decimal n).length :=
  calc n = digitsValue (decimal n) := (digitsValue_decimal n).symm
    _ < 10 ^ (decimal n).length := digitsValue_lt_pow fun _ => isDigit_of_mem_decimal

theorem length_decimal_eq {k : Nat} (hle : 10 ^ k ≤ n) (hlt : n < 10 ^ (k + 1)) : (decimal n).length = k + 1 := by
  have hmax := length_decimal_le hlt
  have hmin : k < (decimal n).length := (Nat.pow_lt_pow_iff_right (by decide)).1 (hle.trans_lt (lt_pow_decimal n))
  omega

theorem pow_le_of_length_decimal (hn : n ≠ 0) : 10 ^ ((decimal n).length - 1) ≤ n := by
  by_contra hlt
  have hmax := length_decimal_le (not_le.1 hlt)
  have hpos := List.length_pos_of_ne_nil (decimal_ne_nil hn)
  omega

/-- What `shortest` returns is `n` itself, or a multiple of a power of ten next to it that reads back as it. -/
theorem shortest_cases (n : Nat) :
    shortest n = (n, 0) ∨ ∃ c p, shortest n = (c, p) ∧ p ≤ (decimal n).length ∧ (c = n / 10 ^ p ∨ c = n / 10 ^ p + 1) ∧
      readsBack n c p = true := by
  simp only [shortest]
  cases hf : (List.range ((decimal n).length + 1)).reverse.findSome? fun p =>
      ((neighbours n p).find? fun c => readsBack n c p).map fun c => (c, p) with
  | none => exact .inl rfl
  | some cp =>
    obtain ⟨p, hmem, hp⟩ := List.exists_of_findSome?_eq_some hf
    obtain ⟨c, hfind, rfl⟩ := Option.map_eq_some_iff.1 hp
    have hp : p < (decimal n).length + 1 := List.mem_range.1 (List.mem_reverse.1 hmem)
    have hc := List.mem_of_find?_eq_some hfind
    refine .inr ⟨c, p, rfl, Nat.lt_succ_iff.1 hp, ?_, List.find?_some (p := fun c => readsBack n c p) hfind⟩
    simp only [neighbours] at hc
    split at hc <;> simp at hc <;> tauto

theorem isDouble_pow_ten : ∀ k < 20, IsDouble (10 ^ k) := by decide +kernel

/-- The fewest digits and their zeros are as many as `n` has: a power of ten above `n` reads back as itself. -/
theorem length_shortest (hn : n ≠ 0) (hlt : n < 10 ^ 19) :
    (decimal (shortest n).1).length + (shortest n).2 = (decimal n).length := by
  rcases shortest_cases n with h | ⟨c, p, h, hp, hc, hread⟩
  · rw [h]
    rfl
  rw [h]
  simp only
  have hmin := pow_le_of_length_decimal hn
  have hmax := lt_pow_decimal n
  have hL := length_decimal_le hlt
  have hpos := List.length_pos_of_ne_nil (decimal_ne_nil hn)
  generalize (decimal n).length = L at *
  have hread := readsBack_iff.1 hread
  have hdiv : n / 10 ^ p < 10 ^ (L - p) := by
    rw [Nat.div_lt_iff_lt_mul (Nat.pow_pos (by decide)), ← pow_add, Nat.sub_add_cancel hp]
    exact hmax
  have hbig : c ≠ 10 ^ (L - p) := by
    rintro rfl
    rw [← pow_add, Nat.sub_add_cancel hp, roundRatio_of_isDouble (isDouble_pow_ten L (by omega))] at hread
    have := Option.some.inj hread
    omega
  have hlow : p < L → 10 ^ (L - p - 1) ≤ n / 10 ^ p := fun hpL => by
    rw [Nat.le_div_iff_mul_le (Nat.pow_pos (by decide)), ← pow_add]
    rwa [show L - p - 1 + p = L - 1 by omega]
  rcases hp.lt_or_eq with hpL | rfl
  · have hlow := hlow hpL
    have hsub : L - p = L - p - 1 + 1 := by omega
    have := length_decimal_eq (n := c) (k := L - p - 1) (by omega) (by rw [← hsub]; omega)
    omega
  · rw [Nat.sub_self, pow_zero] at hdiv hbig
    have hc : c = 0 := by omega
    rw [hc, Nat.zero_mul] at hread
    exact absurd (Option.some.inj hread).symm hn

/-- **No exponent below 10 ^ 19**, and no digit more or less. -/
theorem length_natToString (hn : n ≠ 0) (hlt : n < 10 ^ 19) : (natToString n).length = (decimal n).length := by
  have h := length_shortest hn hlt
  have hL := length_decimal_le hlt
  rw [natToString, if_neg hn, formatDigits, if_pos (by omega), List.length_append, List.length_replicate, h]

/-- Digits are known by their number and their value. -/
theorem eq_of_digitsValue {es : JsString} (hd : ∀ c ∈ ds, isDigit c = true) (he : ∀ c ∈ es, isDigit c = true)
    (hlen : ds.length = es.length) (hv : digitsValue ds = digitsValue es) : ds = es := by
  induction ds using List.reverseRecOn generalizing es with
  | nil => exact (List.eq_nil_of_length_eq_zero hlen.symm).symm
  | append_singleton ds c ih =>
    rcases List.eq_nil_or_concat es with rfl | ⟨es, d, rfl⟩
    · simp at hlen
    · rw [List.concat_eq_append] at he hlen hv ⊢
      rw [digitsValue_append_singleton, digitsValue_append_singleton] at hv
      have hc := hd c (by simp)
      have hd' := he d (by simp)
      simp only [isDigit, Bool.and_eq_true, decide_eq_true_eq] at hc hd'
      have hinit : ds = es := ih (fun x h => hd x (List.mem_append_left _ h)) (fun x h => he x (List.mem_append_left _ h))
        (by simpa using hlen) (by omega)
      have hval : c.val = d.val := by omega
      rw [hinit, Fin.ext hval]

/-- The fewest digits with their zeros are `n`, where all integers up to it are doubles. -/
theorem shortest_mul (hle : n < 2 ^ 53) : (shortest n).1 * 10 ^ (shortest n).2 = n := by
  rcases shortest_cases n with h | ⟨c, p, h, hp, hc, hread⟩
  · rw [h]
    simp
  · rw [h]
    simp only
    have hexact : IsDouble (c * 10 ^ p) → c * 10 ^ p = n := fun hdouble => by
      have hread := readsBack_iff.1 hread
      rw [roundRatio_of_isDouble hdouble] at hread
      exact Option.some.inj hread
    refine hexact ?_
    by_cases hp10 : 10 ^ p ≤ n
    · have hdiv : n / 10 ^ p * 10 ^ p ≤ n := Nat.div_mul_le_self _ _
      have hsum : c * 10 ^ p ≤ 2 ^ 54 := by
        rcases hc with rfl | rfl
        · omega
        · rw [Nat.succ_mul]
          omega
      have hlimit : c * 10 ^ p < numberLimit := hsum.trans_lt (by decide +kernel)
      by_cases hsmall : c * 10 ^ p ≤ 2 ^ 53
      · rw [← Nat.mul_one (c * 10 ^ p), ← pow_zero 2] at hlimit ⊢
        exact isDouble_of_mul hsmall hlimit
      · -- Past `2 ^ 53` it is a multiple of ten, and even.
        cases p with
        | zero =>
          rw [pow_zero, Nat.mul_one] at hsmall
          rw [pow_zero, Nat.div_one] at hc
          omega
        | succ p =>
          have heven : c * 10 ^ (p + 1) = c * 10 ^ p * 5 * 2 ^ 1 := by
            rw [pow_succ]
            ring
          rw [heven] at hlimit hsum ⊢
          exact isDouble_of_mul (by omega) hlimit
    · have hzero : n / 10 ^ p = 0 := Nat.div_eq_of_lt (not_le.1 hp10)
      have hlen : (decimal n).length ≤ 16 := length_decimal_le (Nat.lt_trans hle (by decide))
      rw [hzero] at hc
      rcases hc with rfl | rfl
      · rw [Nat.zero_mul]
        exact ⟨numberLimit_pos, Nat.dvd_zero _⟩
      · rw [Nat.zero_add, Nat.one_mul]
        exact isDouble_pow_ten p (by omega)

/-- **The digits of `n` are what `String(n)` writes** below `2 ^ 53`. -/
theorem natToString_eq_decimal (hn : n ≠ 0) (hle : n < 2 ^ 53) : natToString n = decimal n := by
  have hlt : n < 10 ^ 19 := Nat.lt_trans hle (by decide)
  have hlen := length_natToString hn hlt
  have hform : natToString n = decimal (shortest n).1 ++ List.replicate (shortest n).2 (digitUnit 0) := by
    rw [natToString, if_neg hn, formatDigits, if_pos]
    rw [length_shortest hn hlt]
    exact (length_decimal_le hlt).trans (by decide)
  refine eq_of_digitsValue ?_ (fun _ => isDigit_of_mem_decimal) hlen ?_
  · intro c hc
    rw [hform, List.mem_append] at hc
    rcases hc with hc | hc
    · exact isDigit_of_mem_decimal hc
    · rw [(List.mem_replicate.1 hc).2]
      decide
  · rw [hform, digitsValue_append_zeros, digitsValue_decimal, digitsValue_decimal, shortest_mul hle]

end Js
