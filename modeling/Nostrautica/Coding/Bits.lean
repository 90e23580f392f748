/-
Numbers as their bits, the highest first.
-/
import Mathlib.Data.Nat.Bitwise

namespace Coding

variable {n t b f v w x acc : Nat}

/-- The `n` low bits of `v`, the highest first. -/
def bits : Nat → Nat → List Bool
  | 0, _ => []
  | n + 1, v => v.testBit n :: bits n v

@[simp] theorem length_bits : (bits n v).length = n := by
  induction n with
  | zero => rfl
  | succ n ih => rw [bits, List.length_cons, ih]

theorem bits_congr (h : ∀ i < n, v.testBit i = w.testBit i) : bits n v = bits n w := by
  induction n with
  | zero => rfl
  | succ n ih => rw [bits, bits, h n (Nat.lt_succ_self n), ih fun i hi => h i (Nat.lt_succ_of_lt hi)]

theorem testBit_of_bits (h : bits n v = bits n w) : ∀ i < n, v.testBit i = w.testBit i := by
  induction n with
  | zero => exact fun i hi => absurd hi (Nat.not_lt_zero i)
  | succ n ih =>
    rw [bits, bits, List.cons.injEq] at h
    intro i hi
    rcases Nat.lt_succ_iff_lt_or_eq.1 hi with hi | rfl
    · exact ih h.2 i hi
    · exact h.1

theorem eq_of_bits (hv : v < 2 ^ n) (hw : w < 2 ^ n) (h : bits n v = bits n w) : v = w := by
  refine Nat.eq_of_testBit_eq fun i => ?_
  by_cases hi : i < n
  · exact testBit_of_bits h i hi
  · have hpow : 2 ^ n ≤ 2 ^ i := Nat.pow_le_pow_right (by omega) (by omega)
    rw [Nat.testBit_lt_two_pow (hv.trans_le hpow), Nat.testBit_lt_two_pow (hw.trans_le hpow)]

/-- The high bits and the low ones. -/
theorem bits_add : bits (t + b) v = bits t (v >>> b) ++ bits b v := by
  induction t with
  | zero => rw [Nat.zero_add, bits, List.nil_append]
  | succ t ih => rw [Nat.add_right_comm, bits, bits, ih, Nat.testBit_shiftRight, List.cons_append, Nat.add_comm b t]

theorem bits_mask : bits n (v &&& (2 ^ n - 1)) = bits n v := by
  refine bits_congr fun i hi => ?_
  rw [Nat.testBit_and, Nat.testBit_two_pow_sub_one, decide_eq_true hi, Bool.and_true]

/-- A word of `f` bits shifted into a register of `w` bits. -/
theorem bits_shift (hv : v < 2 ^ f) (hw : b + f ≤ w) : bits (b + f) ((acc <<< f) % 2 ^ w ||| v) = bits b acc ++ bits f v := by
  rw [bits_add]
  congr 1
  · refine bits_congr fun i hi => ?_
    have hvi : v.testBit (f + i) = false := Nat.testBit_lt_two_pow (hv.trans_le (Nat.pow_le_pow_right (by omega) (by omega)))
    rw [Nat.testBit_shiftRight, Nat.testBit_or, Nat.testBit_mod_two_pow, Nat.testBit_shiftLeft, hvi]
    simp only [Bool.or_false, Nat.add_sub_cancel_left]
    rw [decide_eq_true (by omega), decide_eq_true (by omega), Bool.true_and, Bool.true_and]
  · refine bits_congr fun i hi => ?_
    rw [Nat.testBit_or, Nat.testBit_mod_two_pow, Nat.testBit_shiftLeft, decide_eq_false (p := i ≥ f) (by omega)]
    simp

theorem bits_zero : bits n 0 = List.replicate n false := by
  induction n with
  | zero => rfl
  | succ n ih => rw [bits, ih, Nat.zero_testBit, List.replicate_succ]

/-- Words of one width are read back from their bits. -/
theorem eq_of_flatMap_bits {l l' : List Nat} (hl : ∀ v ∈ l, v < 2 ^ n) (hl' : ∀ v ∈ l', v < 2 ^ n) (hlen : l.length = l'.length)
    (h : l.flatMap (bits n) = l'.flatMap (bits n)) : l = l' := by
  induction l generalizing l' with
  | nil => exact (List.length_eq_zero_iff.1 hlen.symm).symm
  | cons v l ih =>
    cases l' with
    | nil => cases hlen
    | cons v' l' =>
      rw [List.flatMap_cons, List.flatMap_cons] at h
      obtain ⟨hv, hrest⟩ := List.append_inj h (by rw [length_bits, length_bits])
      rw [eq_of_bits (hl v List.mem_cons_self) (hl' v' List.mem_cons_self) hv,
        ih (fun v hv => hl v (List.mem_cons_of_mem _ hv)) (fun v hv => hl' v (List.mem_cons_of_mem _ hv)) (Nat.succ.inj hlen) hrest]

theorem length_flatMap_bits {l : List Nat} : (l.flatMap (bits n)).length = n * l.length := by
  induction l with
  | nil => rfl
  | cons v l ih => rw [List.flatMap_cons, List.length_append, ih, length_bits, List.length_cons, Nat.mul_succ, Nat.add_comm]

end Coding
