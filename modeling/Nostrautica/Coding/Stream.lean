/-
Stream ciphers: bytes combined block by block with what a state gives. Where combining twice
with one byte changes nothing, a text is its cipher's cipher.
-/
import Mathlib.Data.List.Basic

namespace Coding

variable {α β σ : Type*}

/-- Each block of the input with the key of its state. -/
def stream (combine : α → β → α) (block : σ → List β) (next : σ → σ) (size : Nat) : Nat → σ → List α → List α
  | 0, _, _ => []
  | n + 1, s, input => List.zipWith combine (input.take size) (block s) ++ stream combine block next size n (next s) (input.drop size)

/-- How many blocks the input takes. -/
def blocks (size : Nat) (input : List α) : Nat := (input.length + (size - 1)) / size

section

variable {combine : α → β → α} {block : σ → List β} {next : σ → σ} {size : Nat}

theorem length_stream (hblock : ∀ s, (block s).length = size) {n : Nat} {s : σ} {input : List α} (h : input.length ≤ n * size) :
    (stream combine block next size n s input).length = input.length := by
  induction n generalizing s input with
  | zero =>
    rw [Nat.zero_mul] at h
    rw [stream, List.length_nil]
    omega
  | succ n ih =>
    have hrest : (input.drop size).length ≤ n * size := by
      rw [List.length_drop]
      rw [Nat.succ_mul] at h
      omega
    rw [stream, List.length_append, ih hrest, List.length_zipWith, List.length_take, List.length_drop, hblock]
    omega

theorem zipWith_zipWith (hcombine : ∀ a b, combine (combine a b) b = a) : ∀ {l : List α} {k : List β}, l.length ≤ k.length →
    List.zipWith combine (List.zipWith combine l k) k = l
  | [], _, _ => by simp
  | a :: l, [], h => by simp at h
  | a :: l, b :: k, h => by
    rw [List.zipWith_cons_cons, List.zipWith_cons_cons, hcombine, zipWith_zipWith hcombine (Nat.le_of_succ_le_succ h)]

/-- The cipher of the cipher is the input. -/
theorem stream_stream (hcombine : ∀ a b, combine (combine a b) b = a) (hblock : ∀ s, (block s).length = size) {n : Nat} {s : σ} {input : List α}
    (h : input.length ≤ n * size) : stream combine block next size n s (stream combine block next size n s input) = input := by
  induction n generalizing s input with
  | zero =>
    rw [Nat.zero_mul] at h
    exact (List.eq_nil_of_length_eq_zero (Nat.le_zero.1 h)).symm
  | succ n ih =>
    have hrest : (input.drop size).length ≤ n * size := by
      rw [List.length_drop]
      rw [Nat.succ_mul] at h
      omega
    have hlen : (List.zipWith combine (input.take size) (block s)).length = min size input.length := by
      rw [List.length_zipWith, List.length_take, hblock]
      omega
    have hself : List.zipWith combine (List.zipWith combine (input.take size) (block s)) (block s) = input.take size := by
      refine zipWith_zipWith hcombine ?_
      rw [List.length_take, hblock]
      omega
    by_cases hfull : size ≤ input.length
    · have htake : (List.zipWith combine (input.take size) (block s)).length = size := by omega
      rw [stream, stream, List.take_left' htake, List.drop_left' htake, hself, ih hrest, List.take_append_drop]
    · -- the last block is a part of one, and nothing comes after it
      have hnil : input.drop size = [] := List.drop_eq_nil_of_le (by omega)
      have hempty : ∀ t, stream combine block next size n t (input.drop size) = [] := fun t => by
        refine List.eq_nil_of_length_eq_zero ?_
        rw [length_stream hblock hrest, hnil, List.length_nil]
      have htake : input.take size = input := List.take_of_length_le (by omega)
      have hall : (List.zipWith combine (input.take size) (block s)).length ≤ size := by omega
      rw [stream, stream, hempty, List.append_nil, List.take_of_length_le hall, List.drop_eq_nil_of_le hall, hself, htake]
      refine List.append_right_eq_self.2 (List.eq_nil_of_length_eq_zero ?_)
      rw [length_stream hblock (Nat.zero_le _), List.length_nil]

theorem le_blocks (hsize : 0 < size) (input : List α) : input.length ≤ blocks size input * size := by
  have h := Nat.div_add_mod (input.length + (size - 1)) size
  have hlt := Nat.mod_lt (input.length + (size - 1)) hsize
  rw [blocks, Nat.mul_comm]
  omega

theorem blocks_congr {input other : List α} (h : input.length = other.length) : blocks size input = blocks size other := by
  rw [blocks, blocks, h]

end

end Coding
