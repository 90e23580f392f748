/-
`bytesToBase64` of `protocol/src/crypto.ts`: what `btoa` writes, and `base64ToBytes` reads.
-/
import Nostrautica.Protocol.EckIdentity

namespace Nostrautica.Base64

open Js EckIdentity

/-- The digit of six bits. -/
def base64Unit (n : Nat) : CodeUnit :=
  codeUnit (if n < 26 then 65 + n else if n < 52 then 71 + n else if n < 62 then n - 4 else if n = 62 then 43 else 47)

/-- The bits of the bytes by sixes, filled up with zeros at the end. -/
def sextets : List UInt8 → List Nat
  | a :: b :: c :: rest =>
    a.toNat / 4 :: (a.toNat % 4 * 16 + b.toNat / 16) :: (b.toNat % 16 * 4 + c.toNat / 64) :: c.toNat % 64 :: sextets rest
  | [a, b] => [a.toNat / 4, a.toNat % 4 * 16 + b.toNat / 16, b.toNat % 16 * 4]
  | [a] => [a.toNat / 4, a.toNat % 4 * 16]
  | [] => []

/-- `bytesToBase64(bytes)`. -/
def bytesToBase64 (bytes : List UInt8) : JsString :=
  (sextets bytes).map base64Unit ++ List.replicate ((3 - bytes.length % 3) % 3) 61

/-! ## Digits -/

theorem base64Digit_base64Unit : ∀ n < 64, base64Digit (base64Unit n) = some n := by decide

theorem base64Unit_spec : ∀ n < 64, base64Unit n ≠ 61 ∧ isAsciiSpace (base64Unit n) = false ∧ (base64Unit n).val < 128 := by decide

theorem sextets_lt (bytes : List UInt8) : ∀ n ∈ sextets bytes, n < 64 := by
  fun_induction sextets bytes with
  | case1 a b c rest ih =>
    have ha := a.toNat_lt
    have hb := b.toNat_lt
    have hc := c.toNat_lt
    intro n hn
    simp only [List.mem_cons] at hn
    rcases hn with rfl | rfl | rfl | rfl | hn
    · omega
    · omega
    · omega
    · omega
    · exact ih n hn
  | case2 a b =>
    have ha := a.toNat_lt
    have hb := b.toNat_lt
    intro n hn
    simp only [List.mem_cons, List.not_mem_nil, or_false] at hn
    omega
  | case3 a =>
    have ha := a.toNat_lt
    intro n hn
    simp only [List.mem_cons, List.not_mem_nil, or_false] at hn
    omega
  | case4 => exact fun n hn => absurd hn List.not_mem_nil

theorem regroup_sextets (bytes : List UInt8) : regroup (sextets bytes) = bytes := by
  have hbyte : ∀ (a : UInt8) {n : Nat}, n = a.toNat → UInt8.ofNat n = a := fun a n hn => by rw [hn, UInt8.ofNat_toNat]
  fun_induction sextets bytes with
  | case1 a b c rest ih =>
    have ha := a.toNat_lt
    have hb := b.toNat_lt
    have hc := c.toNat_lt
    rw [regroup, ih, hbyte a (by omega), hbyte b (by omega), hbyte c (by omega)]
  | case2 a b =>
    have ha := a.toNat_lt
    have hb := b.toNat_lt
    rw [regroup, hbyte a (by omega), hbyte b (by omega)]
  | case3 a =>
    have ha := a.toNat_lt
    rw [regroup, hbyte a (by omega)]
  | case4 => rfl

theorem mapM_base64Unit {l : List Nat} (h : ∀ n ∈ l, n < 64) : (l.map base64Unit).mapM base64Digit = some l := by
  induction l with
  | nil => rfl
  | cons n l ih =>
    have ih := ih fun m hm => h m (List.mem_cons_of_mem n hm)
    simp [List.mapM_cons, base64Digit_base64Unit n (h n List.mem_cons_self), ih]

theorem length_sextets (bytes : List UInt8) :
    (sextets bytes).length + (3 - bytes.length % 3) % 3 = (bytes.length + 2) / 3 * 4 ∧ (sextets bytes).length % 4 ≠ 1 := by
  fun_induction sextets bytes with
  | case1 a b c rest ih =>
    simp only [List.length_cons] at ih ⊢
    omega
  | case2 a b => simp
  | case3 a => simp
  | case4 => exact ⟨rfl, by decide⟩

/-- Three bytes are four characters, and what is over as well. -/
theorem length_bytesToBase64 (bytes : List UInt8) : (bytesToBase64 bytes).length = (bytes.length + 2) / 3 * 4 := by
  unfold bytesToBase64
  rw [List.length_append, List.length_map, List.length_replicate]
  exact (length_sextets bytes).1

/-- **Bytes are read back from their base64.** -/
theorem base64ToBytes_bytesToBase64 (bytes : List UInt8) : base64ToBytes (bytesToBase64 bytes) = some bytes := by
  have hdigit : ∀ c ∈ (sextets bytes).map base64Unit, c ≠ 61 ∧ isAsciiSpace c = false := by
    intro c hc
    obtain ⟨n, hn, rfl⟩ := List.mem_map.mp hc
    have hspec := base64Unit_spec n (sextets_lt bytes n hn)
    exact ⟨hspec.1, hspec.2.1⟩
  have hfilter : (bytesToBase64 bytes).filter (!isAsciiSpace ·) = bytesToBase64 bytes := by
    rw [List.filter_eq_self]
    intro c hc
    rcases List.mem_append.mp hc with hc | hc
    · rw [(hdigit c hc).2]
      rfl
    · rw [List.eq_of_mem_replicate hc]
      decide
  have hequals : js "==" = [61, 61] ∧ js "=" = [61] := ⟨rfl, rfl⟩
  have hlen : (bytesToBase64 bytes).length % 4 = 0 := by
    rw [length_bytesToBase64]
    omega
  have hstrip : withoutPadding (bytesToBase64 bytes) = (sextets bytes).map base64Unit := by
    unfold withoutPadding
    rw [if_neg (by omega), hequals.1, hequals.2]
    unfold bytesToBase64
    generalize hl : (sextets bytes).map base64Unit = l at hdigit ⊢
    have hno : ¬[61] <:+ l := fun h => (hdigit 61 (h.subset List.mem_cons_self)).1 rfl
    have hk : (3 - bytes.length % 3) % 3 = 0 ∨ (3 - bytes.length % 3) % 3 = 1 ∨ (3 - bytes.length % 3) % 3 = 2 := by omega
    rcases hk with hk | hk | hk <;> rw [hk]
    · have hno2 : ¬[61, 61] <:+ l := fun h => (hdigit 61 (h.subset List.mem_cons_self)).1 rfl
      rw [List.replicate_zero, List.append_nil, if_neg fun h => hno2 (List.isSuffixOf_iff_suffix.mp h), if_neg fun h => hno (List.isSuffixOf_iff_suffix.mp h)]
    · have hno2 : ¬[61, 61] <:+ l ++ [61] := by
        intro ⟨t, ht⟩
        have hcut : (t ++ [61]) ++ [61] = l ++ [61] := by simpa using ht
        exact hno ⟨t, List.append_cancel_right hcut⟩
      rw [List.replicate_one, if_neg fun h => hno2 (List.isSuffixOf_iff_suffix.mp h),
        if_pos (List.isSuffixOf_iff_suffix.mpr (List.suffix_append l [61])), List.length_append]
      exact List.take_left
    · rw [show List.replicate 2 (61 : CodeUnit) = [61, 61] from rfl, if_pos (List.isSuffixOf_iff_suffix.mpr (List.suffix_append l [61, 61])), List.length_append]
      exact List.take_left
  unfold base64ToBytes
  rw [hfilter, hstrip]
  dsimp only
  rw [List.length_map, if_neg (length_sextets bytes).2, mapM_base64Unit (sextets_lt bytes), Option.map_some, regroup_sextets]

end Nostrautica.Base64
