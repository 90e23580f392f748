/-
Bech32 is read back, both ways: `decode_encode_iff` and `encode_of_decode`. Its checksum tells apart
what differs in six places in a row at most (`polymod_burst`).
-/
import Nostrautica.Android.Bech32
import Nostrautica.Coding.Bits
import Mathlib.Data.Nat.Bitwise

namespace Nostrautica.Bech32

open Js Coding

variable {from_ to_ : Nat} {s s' : Regroup} {data : List UInt8}

/-! ## Regrouping -/

/-- The bits of what is out, and those not yet out. -/
def Regroup.stream (to_ : Nat) (s : Regroup) : List Bool := s.out.flatMap (fun b => Coding.bits to_ b.toNat) ++ Coding.bits s.bits s.acc

theorem toNat_mask (hto : to_ ≤ 8) (x : Nat) : (UInt8.ofNat (x &&& (2 ^ to_ - 1))).toNat = x &&& (2 ^ to_ - 1) := by
  have hlt : x &&& (2 ^ to_ - 1) < 2 ^ 8 := by
    rw [Nat.and_two_pow_sub_one_eq_mod]
    exact (Nat.mod_lt _ (Nat.two_pow_pos _)).trans_le (Nat.pow_le_pow_right (by omega) hto)
  rw [UInt8.toNat_ofNat']
  exact Nat.mod_eq_of_lt hlt

/-- What is out consists of words, and fewer bits than one wait. -/
structure Regroup.Ok (to_ : Nat) (s : Regroup) : Prop where
  words : ∀ b ∈ s.out, b.toNat < 2 ^ to_
  waiting : s.bits < to_

theorem drain_spec (hpos : 0 < to_) (hto : to_ ≤ 8) (hw : ∀ b ∈ s.out, b.toNat < 2 ^ to_) :
    (drain to_ s).Ok to_ ∧ (drain to_ s).stream to_ = s.stream to_ := by
  fun_induction drain to_ s with
  | case1 s h ih =>
    have hword : (UInt8.ofNat ((s.acc >>> (s.bits - to_)) &&& (2 ^ to_ - 1))).toNat < 2 ^ to_ := by
      rw [toNat_mask hto, Nat.and_two_pow_sub_one_eq_mod]
      exact Nat.mod_lt _ (Nat.two_pow_pos _)
    obtain ⟨hok, hstream⟩ := ih fun b hb => by
      rcases List.mem_append.1 hb with hb | hb
      · exact hw b hb
      · rw [List.mem_singleton.1 hb]
        exact hword
    refine ⟨hok, hstream.trans ?_⟩
    have hbits : s.bits = to_ + (s.bits - to_) := by omega
    unfold Regroup.stream
    rw [List.flatMap_append, List.flatMap_singleton, toNat_mask hto, bits_mask, List.append_assoc, ← bits_add, ← hbits]
  | case2 s h => exact ⟨⟨hw, by omega⟩, rfl⟩

theorem convertByte_spec {b : UInt8} (hpos : 0 < to_) (hto : to_ ≤ 8) (hfrom : from_ ≤ 8) (hs : s.Ok to_)
    (h : convertByte from_ to_ s b = some s') :
    b.toNat < 2 ^ from_ ∧ s'.Ok to_ ∧ s'.stream to_ = s.stream to_ ++ bits from_ b.toNat := by
  unfold convertByte at h
  split at h
  · next hv =>
    cases h
    have hb : b.toNat < 2 ^ from_ := by
      rw [Nat.shiftRight_eq_div_pow] at hv
      exact (Nat.div_eq_zero_iff_lt (Nat.two_pow_pos _)).1 hv
    obtain ⟨hok, hstream⟩ := drain_spec (s := { s with acc := (s.acc <<< from_) % 2 ^ 32 ||| b.toNat, bits := s.bits + from_ }) hpos hto hs.words
    have hwaiting := hs.waiting
    refine ⟨hb, hok, hstream.trans ?_⟩
    unfold Regroup.stream
    rw [bits_shift (b := s.bits) (w := 32) hb (by omega), List.append_assoc]
  · cases h

theorem foldlM_spec (hpos : 0 < to_) (hto : to_ ≤ 8) (hfrom : from_ ≤ 8) (hs : s.Ok to_)
    (h : data.foldlM (convertByte from_ to_) s = some s') :
    (∀ b ∈ data, b.toNat < 2 ^ from_) ∧ s'.Ok to_ ∧ s'.stream to_ = s.stream to_ ++ data.flatMap fun b => bits from_ b.toNat := by
  induction data generalizing s with
  | nil =>
    cases h
    exact ⟨fun b hb => absurd hb List.not_mem_nil, hs, (List.append_nil _).symm⟩
  | cons b data ih =>
    rw [List.foldlM_cons] at h
    obtain ⟨t, ht, h⟩ := Option.bind_eq_some_iff.1 h
    obtain ⟨hb, hok, hstream⟩ := convertByte_spec hpos hto hfrom hs ht
    obtain ⟨hdata, hok', hstream'⟩ := ih hok h
    refine ⟨fun x hx => ?_, hok', ?_⟩
    · rcases List.mem_cons.1 hx with rfl | hx
      · exact hb
      · exact hdata x hx
    · rw [hstream', hstream, List.flatMap_cons, List.append_assoc]

theorem foldlM_isSome (hdata : ∀ b ∈ data, b.toNat < 2 ^ from_) : ∃ s', data.foldlM (convertByte from_ to_) s = some s' := by
  induction data generalizing s with
  | nil => exact ⟨s, rfl⟩
  | cons b data ih =>
    have hb : b.toNat >>> from_ = 0 := by
      rw [Nat.shiftRight_eq_div_pow]
      exact Nat.div_eq_of_lt (hdata b List.mem_cons_self)
    rw [List.foldlM_cons, convertByte, if_pos hb]
    exact ih fun x hx => hdata x (List.mem_cons_of_mem b hx)

theorem eq_of_words {l l' : List UInt8} {n : Nat} (hl : ∀ b ∈ l, b.toNat < 2 ^ n) (hl' : ∀ b ∈ l', b.toNat < 2 ^ n) (hlen : l.length = l'.length)
    (h : l.flatMap (fun b => bits n b.toNat) = l'.flatMap (fun b => bits n b.toNat)) : l = l' := by
  have hinj : Function.Injective UInt8.toNat := fun a b hab => UInt8.toNat_inj.1 hab
  refine List.map_injective_iff.2 hinj (eq_of_flatMap_bits (n := n) ?_ ?_ (by simpa using hlen) ?_)
  · intro v hv
    obtain ⟨b, hb, rfl⟩ := List.mem_map.1 hv
    exact hl b hb
  · intro v hv
    obtain ⟨b, hb, rfl⟩ := List.mem_map.1 hv
    exact hl' b hb
  · rw [List.flatMap_map, List.flatMap_map]
    exact h

theorem length_words {l : List UInt8} {n : Nat} : (l.flatMap fun b => bits n b.toNat).length = n * l.length := by
  have h := length_flatMap_bits (n := n) (l := l.map UInt8.toNat)
  rwa [List.flatMap_map, List.length_map] at h

/-- The word that is made of what waits. -/
theorem bits_last (hs : s.Ok to_) (hto : to_ ≤ 8) :
    bits to_ ((s.acc <<< (to_ - s.bits)) % 2 ^ 32 &&& (2 ^ to_ - 1)) = bits s.bits s.acc ++ List.replicate (to_ - s.bits) false := by
  have hwaiting := hs.waiting
  have hsum : s.bits + (to_ - s.bits) = to_ := by omega
  have hshift : bits (s.bits + (to_ - s.bits)) ((s.acc <<< (to_ - s.bits)) % 2 ^ 32 ||| 0) = bits s.bits s.acc ++ bits (to_ - s.bits) 0 :=
    bits_shift (Nat.two_pow_pos _) (by omega)
  rw [bits_mask, ← bits_zero, ← hshift, hsum, Nat.or_zero]

/-- The words of a stream of bits, filled up with zeros. -/
theorem convertBits_pad (hpos : 0 < to_) (hto : to_ ≤ 8) (hfrom : from_ ≤ 8) (hdata : ∀ b ∈ data, b.toNat < 2 ^ from_) :
    ∃ out k, convertBits data from_ to_ true = some out ∧ (∀ b ∈ out, b.toNat < 2 ^ to_) ∧ k < to_ ∧
      out.flatMap (fun b => bits to_ b.toNat) = data.flatMap (fun b => bits from_ b.toNat) ++ List.replicate k false := by
  have hzero : (⟨0, 0, []⟩ : Regroup).Ok to_ := ⟨fun b hb => absurd hb List.not_mem_nil, hpos⟩
  obtain ⟨s, hs⟩ : ∃ s, data.foldlM (convertByte from_ to_) ⟨0, 0, []⟩ = some s := foldlM_isSome hdata
  obtain ⟨-, hok, hstream⟩ := foldlM_spec hpos hto hfrom hzero hs
  have hstream : s.out.flatMap (fun b => bits to_ b.toNat) ++ bits s.bits s.acc = data.flatMap fun b => bits from_ b.toNat := hstream
  unfold convertBits
  rw [hs]
  by_cases hb : 0 < s.bits
  · refine ⟨_, to_ - s.bits, by simp only [Option.bind_eq_bind, Option.bind_some, if_true, if_pos hb]; rfl, fun b hmem => ?_, by omega, ?_⟩
    · rcases List.mem_append.1 hmem with hmem | hmem
      · exact hok.words b hmem
      · rw [List.mem_singleton.1 hmem, toNat_mask hto, Nat.and_two_pow_sub_one_eq_mod]
        exact Nat.mod_lt _ (Nat.two_pow_pos _)
    · rw [List.flatMap_append, List.flatMap_singleton, toNat_mask hto, bits_last hok hto, ← List.append_assoc, hstream]
  · have hb0 : s.bits = 0 := by omega
    refine ⟨s.out, 0, by simp only [Option.bind_eq_bind, Option.bind_some, if_true, if_neg hb]; rfl, hok.words, hpos, ?_⟩
    rw [hb0, bits, List.append_nil] at hstream
    rw [hstream, List.replicate_zero, List.append_nil]

/-- The words of a stream of bits that ends with less than one of the other width, of zeros. -/
theorem convertBits_exact {out : List UInt8} (hpos : 0 < to_) (hto : to_ ≤ 8) (hfrom : from_ ≤ 8) :
    convertBits data from_ to_ false = some out ↔ (∀ b ∈ data, b.toNat < 2 ^ from_) ∧ (∀ b ∈ out, b.toNat < 2 ^ to_) ∧ ∃ k < from_, k < to_ ∧
      data.flatMap (fun b => bits from_ b.toNat) = out.flatMap (fun b => bits to_ b.toNat) ++ List.replicate k false := by
  have hzero : (⟨0, 0, []⟩ : Regroup).Ok to_ := ⟨fun b hb => absurd hb List.not_mem_nil, hpos⟩
  have hcond : ∀ s : Regroup, s.Ok to_ →
      ((s.acc <<< (to_ - s.bits)) % 2 ^ 32 &&& (2 ^ to_ - 1) = 0 ↔ bits s.bits s.acc = List.replicate s.bits false) := by
    intro s hok
    have hlast := bits_last hok hto
    have hwaiting := hok.waiting
    constructor
    · intro h0
      rw [h0, bits_zero] at hlast
      refine List.eq_replicate_iff.2 ⟨length_bits, fun x hx => ?_⟩
      exact List.eq_of_mem_replicate (hlast ▸ List.mem_append_left _ hx)
    · intro h0
      have hlt : (s.acc <<< (to_ - s.bits)) % 2 ^ 32 &&& (2 ^ to_ - 1) < 2 ^ to_ := by
        rw [Nat.and_two_pow_sub_one_eq_mod]
        exact Nat.mod_lt _ (Nat.two_pow_pos _)
      refine eq_of_bits hlt (Nat.two_pow_pos _) ?_
      have hsum : s.bits + (to_ - s.bits) = to_ := by omega
      rw [hlast, h0, List.replicate_append_replicate, hsum, bits_zero]
  have hrun : ∀ s : Regroup, data.foldlM (convertByte from_ to_) ⟨0, 0, []⟩ = some s → s.Ok to_ →
      (convertBits data from_ to_ false = some out ↔ (s.bits < from_ ∧ bits s.bits s.acc = List.replicate s.bits false) ∧ s.out = out) := by
    intro s hs hok
    unfold convertBits
    rw [hs]
    simp only [Option.bind_eq_bind, Option.bind_some, Bool.false_eq_true, if_false, hcond s hok]
    split
    · next h => exact ⟨fun he => ⟨h, Option.some.inj he⟩, fun he => congrArg some he.2⟩
    · next h => exact ⟨fun he => by (cases he), fun he => absurd he.1 h⟩
  constructor
  · intro h
    cases hs : data.foldlM (convertByte from_ to_) ⟨0, 0, []⟩ with
    | none =>
      unfold convertBits at h
      rw [hs] at h
      cases h
    | some s =>
      obtain ⟨hdata, hok, hstream⟩ := foldlM_spec hpos hto hfrom hzero hs
      obtain ⟨⟨hlt, hrest⟩, rfl⟩ := (hrun s hs hok).1 h
      refine ⟨hdata, hok.words, s.bits, hlt, hok.waiting, ?_⟩
      rw [← hrest]
      exact hstream.symm
  · rintro ⟨hdata, hout, k, hk, hkto, hbits⟩
    obtain ⟨s, hs⟩ : ∃ s, data.foldlM (convertByte from_ to_) ⟨0, 0, []⟩ = some s := foldlM_isSome hdata
    obtain ⟨-, hok, hstream⟩ := foldlM_spec hpos hto hfrom hzero hs
    have hstream : s.out.flatMap (fun b => bits to_ b.toNat) ++ bits s.bits s.acc = data.flatMap fun b => bits from_ b.toNat := hstream
    rw [hbits] at hstream
    have hlen := congrArg List.length hstream
    rw [List.length_append, List.length_append, length_words, length_words, length_bits, List.length_replicate] at hlen
    have hwaiting := hok.waiting
    have hcount : s.out.length = out.length := by
      have hdiv := congrArg (· / to_) hlen
      simpa only [Nat.mul_add_div hpos, Nat.div_eq_of_lt hwaiting, Nat.div_eq_of_lt hkto, Nat.add_zero] using hdiv
    have hkb : s.bits = k := by
      rw [hcount] at hlen
      omega
    obtain ⟨hwords, hrest⟩ := List.append_inj hstream (by rw [length_words, length_words, hcount])
    exact (hrun s hs hok).2 ⟨⟨hkb ▸ hk, by rw [hrest, hkb]⟩, eq_of_words hok.words hout hcount hwords⟩

/-! ## The checksum -/

theorem shiftRight_and_one {b i : Nat} : (b >>> i) &&& 1 = 1 ↔ b.testBit i = true := by
  rw [Nat.and_one_is_mod, Nat.shiftRight_eq_div_pow, Nat.testBit_eq_decide_div_mod_eq, decide_eq_true_eq]

theorem applyGen_xor (b b' x x' : Nat) : applyGen (b ^^^ b') (x ^^^ x') = applyGen b x ^^^ applyGen b' x' := by
  unfold applyGen
  simp only [shiftRight_and_one, Nat.testBit_xor]
  induction List.range 5 generalizing x x' with
  | nil => rfl
  | cons i l ih =>
    rw [List.foldl_cons, List.foldl_cons, List.foldl_cons, ← ih]
    congr 1
    cases b.testBit i <;> cases b'.testBit i <;> simp only [Bool.xor_false, Bool.xor_true, Bool.not_true, Bool.not_false, if_true, Bool.false_eq_true, if_false]
    · rw [Nat.xor_assoc]
    · rw [Nat.xor_assoc, Nat.xor_assoc, Nat.xor_comm x']
    · rw [Nat.xor_assoc x, Nat.xor_comm x', ← Nat.xor_assoc (gen.getD i 0), Nat.xor_self, Nat.zero_xor]

/-- The loop is linear in exclusive or. -/
theorem polymodStep_xor (a b v w : Nat) : polymodStep (a ^^^ b) (v ^^^ w) = polymodStep a v ^^^ polymodStep b w := by
  unfold polymodStep
  rw [Nat.shiftRight_xor_distrib, Nat.and_xor_distrib_right, Nat.shiftLeft_xor_distrib, ← applyGen_xor]
  congr 1
  rw [Nat.xor_assoc, Nat.xor_assoc, ← Nat.xor_assoc _ v, ← Nat.xor_assoc v, Nat.xor_comm _ v]

theorem gen_lt : ∀ i, gen.getD i 0 < 2 ^ 30
  | 0 | 1 | 2 | 3 | 4 => by decide
  | n + 5 => by
    rw [List.getD_eq_default _ _ (by simp [gen])]
    exact Nat.two_pow_pos _

theorem applyGen_lt {b x : Nat} (hx : x < 2 ^ 30) : applyGen b x < 2 ^ 30 := by
  unfold applyGen
  induction List.range 5 generalizing x with
  | nil => exact hx
  | cons i l ih =>
    rw [List.foldl_cons]
    split
    · exact ih (Nat.xor_lt_two_pow hx (gen_lt i))
    · exact ih hx

theorem polymodStep_lt {a v : Nat} (hv : v < 2 ^ 30) : polymodStep a v < 2 ^ 30 := by
  refine applyGen_lt (Nat.xor_lt_two_pow ?_ hv)
  have hmask : a &&& 0x1ffffff = a % 2 ^ 25 := Nat.and_two_pow_sub_one_eq_mod a 25
  have hlt := Nat.mod_lt a (Nat.two_pow_pos 25)
  rw [hmask, Nat.shiftLeft_eq]
  omega

/-- Below `2 ^ 25` a value is only shifted in. -/
theorem polymodStep_of_lt {b v : Nat} (hb : b < 2 ^ 25) (hv : v < 32) : polymodStep b v = b * 32 + v := by
  have hmask : b &&& 0x1ffffff = b := (Nat.and_two_pow_sub_one_eq_mod b 25).trans (Nat.mod_eq_of_lt hb)
  have hhigh : b >>> 25 = 0 := by rw [Nat.shiftRight_eq_div_pow, Nat.div_eq_of_lt hb]
  have hgen : ∀ x, applyGen 0 x = x := fun x => by simp [applyGen]
  have hadd : (b <<< 5) ^^^ v = b * 32 + v := by
    have hshift : b <<< 5 = b * 2 ^ 5 := Nat.shiftLeft_eq b 5
    have hmod : ((b <<< 5) ^^^ v) % 2 ^ 5 = v := by
      rw [Nat.xor_mod_two_pow, hshift, Nat.mul_mod_left, Nat.zero_xor, Nat.mod_eq_of_lt hv]
    have hdiv : ((b <<< 5) ^^^ v) / 2 ^ 5 = b := by
      rw [Nat.xor_div_two_pow, hshift, Nat.mul_div_left _ (Nat.two_pow_pos 5), Nat.div_eq_of_lt hv, Nat.xor_zero]
    omega
  unfold polymodStep
  rw [hhigh, hmask, hgen, hadd]

/-- Values after a state are those after zeros and those by themselves. -/
theorem foldl_polymodStep (D : List Nat) (a b : Nat) :
    D.foldl polymodStep (a ^^^ b) = (List.replicate D.length 0).foldl polymodStep a ^^^ D.foldl polymodStep b := by
  induction D generalizing a b with
  | nil => rfl
  | cons v D ih =>
    have hstep := polymodStep_xor a b 0 v
    rw [Nat.zero_xor] at hstep
    rw [List.foldl_cons, hstep, ih, List.length_cons, List.replicate_succ, List.foldl_cons, List.foldl_cons]

/-- The six values of a checksum. -/
def digitsOf (check : Nat) : List Nat := (List.range 6).map fun i => (check >>> (5 * (5 - i))) &&& 31

theorem digitsOf_eq (check : Nat) : digitsOf check =
    [check / 2 ^ 25 % 32, check / 2 ^ 20 % 32, check / 2 ^ 15 % 32, check / 2 ^ 10 % 32, check / 2 ^ 5 % 32, check % 32] := by
  have hand : ∀ x, x &&& 31 = x % 32 := fun x => Nat.and_two_pow_sub_one_eq_mod x 5
  simp [digitsOf, List.range_succ, hand, Nat.shiftRight_eq_div_pow]

theorem foldl_six {a b c d e f : Nat} (ha : a < 32) (hb : b < 32) (hc : c < 32) (hd : d < 32) (he : e < 32) (hf : f < 32) :
    [a, b, c, d, e, f].foldl polymodStep 0 = ((((a * 32 + b) * 32 + c) * 32 + d) * 32 + e) * 32 + f := by
  simp only [List.foldl_cons, List.foldl_nil]
  rw [polymodStep_of_lt (by omega) ha, polymodStep_of_lt (by omega) hb, polymodStep_of_lt (by omega) hc,
    polymodStep_of_lt (by omega) hd, polymodStep_of_lt (by omega) he, polymodStep_of_lt (by omega) hf]
  omega

theorem foldl_eq_iff {D : List Nat} {check : Nat} (hlen : D.length = 6) (hD : ∀ v ∈ D, v < 32) (hcheck : check < 2 ^ 30) :
    D.foldl polymodStep 0 = check ↔ D = digitsOf check := by
  obtain ⟨a, b, c, d, e, f, rfl⟩ : ∃ a b c d e f, D = [a, b, c, d, e, f] := by
    match D, hlen with
    | [a, b, c, d, e, f], _ => exact ⟨a, b, c, d, e, f, rfl⟩
  simp only [List.mem_cons, List.not_mem_nil, or_false, forall_eq_or_imp, forall_eq] at hD
  obtain ⟨ha, hb, hc, hd, he, hf⟩ := hD
  rw [foldl_six ha hb hc hd he hf, digitsOf_eq]
  simp only [List.cons.injEq, and_true]
  omega

theorem digitsOf_lt {check v : Nat} (hv : v ∈ digitsOf check) : v < 32 := by
  rw [digitsOf_eq] at hv
  simp only [List.mem_cons, List.not_mem_nil, or_false] at hv
  omega

theorem lt_of_mem_append_digitsOf {V : List Nat} (check : Nat) (hV : ∀ v ∈ V, v < 32) : ∀ v ∈ V ++ digitsOf check, v < 32 := by
  intro v hv
  rcases List.mem_append.1 hv with hv | hv
  · exact hV v hv
  · exact digitsOf_lt hv

theorem length_digitsOf (check : Nat) : (digitsOf check).length = 6 := by simp [digitsOf]

/-- The checksum is right exactly where its six values are those that are computed. -/
theorem polymod_eq_one_iff {P D : List Nat} (hlen : D.length = 6) (hD : ∀ v ∈ D, v < 32) :
    polymod (P ++ D) = 1 ↔ D = digitsOf (polymod (P ++ List.replicate 6 0) ^^^ 1) := by
  have hlin : polymod (P ++ D) = polymod (P ++ List.replicate 6 0) ^^^ D.foldl polymodStep 0 := by
    have h := foldl_polymodStep D (P.foldl polymodStep 1) 0
    rw [Nat.xor_zero, hlen] at h
    unfold polymod
    rw [List.foldl_append, List.foldl_append, h]
  have hlt : polymod (P ++ List.replicate 6 0) < 2 ^ 30 := by
    unfold polymod
    rw [List.foldl_append, List.replicate_succ', List.foldl_append, List.foldl_cons, List.foldl_nil]
    exact polymodStep_lt (Nat.two_pow_pos _)
  rw [hlin, ← foldl_eq_iff hlen hD (Nat.xor_lt_two_pow hlt (by decide))]
  constructor
  · intro h
    rw [← h, ← Nat.xor_assoc, Nat.xor_self, Nat.zero_xor]
  · intro h
    rw [h, ← Nat.xor_assoc, Nat.xor_self, Nat.zero_xor]

/-! ## The characters -/

theorem valueOf_charOf {v : Nat} (hv : v < 32) : valueOf (charOf v) = some v := by
  have hall : ∀ v < 32, valueOf (charOf v) = some v := by decide +kernel
  exact hall v hv

theorem charOf_ne_one {v : Nat} (hv : v < 32) : charOf v ≠ 49 := by
  have hall : ∀ v < 32, charOf v ≠ 49 := by decide +kernel
  exact hall v hv

theorem valueOf_eq_some {c : CodeUnit} {v : Nat} (h : valueOf c = some v) : v < 32 ∧ charOf v = c := by
  unfold valueOf at h
  split at h
  · next hc =>
    cases h
    have hlt := List.idxOf_lt_length_of_mem hc
    refine ⟨hlt, ?_⟩
    unfold charOf
    rw [List.getD_eq_getElem _ _ hlt, List.getElem_idxOf]
  · cases h

theorem mapM_valueOf {T : JsString} {V : List Nat} : T.mapM valueOf = some V ↔ (∀ v ∈ V, v < 32) ∧ T = V.map charOf := by
  induction T generalizing V with
  | nil =>
    constructor
    · intro h
      cases h
      exact ⟨fun v hv => absurd hv List.not_mem_nil, rfl⟩
    · rintro ⟨-, h⟩
      rw [List.map_eq_nil_iff.1 h.symm]
      rfl
  | cons c T ih =>
    rw [List.mapM_cons]
    constructor
    · intro h
      obtain ⟨v, hv, h⟩ := Option.bind_eq_some_iff.1 h
      obtain ⟨W, hW, h⟩ := Option.bind_eq_some_iff.1 h
      cases h
      obtain ⟨hlt, hc⟩ := valueOf_eq_some hv
      obtain ⟨hall, hT⟩ := ih.1 hW
      refine ⟨fun x hx => ?_, by rw [List.map_cons, hc, ← hT]⟩
      rcases List.mem_cons.1 hx with rfl | hx
      · exact hlt
      · exact hall x hx
    · rintro ⟨hall, hT⟩
      cases V with
      | nil => cases hT
      | cons v V =>
        rw [List.map_cons, List.cons.injEq] at hT
        rw [hT.1, valueOf_charOf (hall v List.mem_cons_self), ih.2 ⟨fun x hx => hall x (List.mem_cons_of_mem v hx), hT.2⟩]
        rfl

/-- The string splits at the last of the character. -/
theorem lastIndexOf_eq_some {c : CodeUnit} {s : JsString} {p : Nat} :
    lastIndexOf c s = some p ↔ s = s.take p ++ c :: s.drop (p + 1) ∧ c ∉ s.drop (p + 1) := by
  have hsplit : ∀ a b : JsString, c ∉ b → lastIndexOf c (a ++ c :: b) = some a.length := by
    intro a b hb
    unfold lastIndexOf
    have hrev : c ∉ b.reverse := fun h => hb (List.mem_reverse.1 h)
    rw [if_pos (by simp), List.reverse_append, List.reverse_cons, List.append_assoc, List.idxOf_append_of_notMem hrev,
      List.singleton_append, List.idxOf_cons_self, List.length_append, List.length_cons, List.length_reverse]
    congr 1
    omega
  constructor
  · intro h
    have hc : c ∈ s := by
      unfold lastIndexOf at h
      split at h
      · assumption
      · cases h
    obtain ⟨b, a, hba, hb⟩ := List.eq_append_cons_of_mem (List.mem_reverse.2 hc)
    have hs : s = a.reverse ++ c :: b.reverse := by
      have hrev := congrArg List.reverse hba
      simpa using hrev
    have hb' : c ∉ b.reverse := fun h => hb (List.mem_reverse.1 h)
    subst hs
    rw [hsplit _ _ hb'] at h
    cases h
    have hdrop : ∀ a b : JsString, (a ++ c :: b).drop (a.length + 1) = b := fun a b => by simp
    rw [hdrop, List.take_left]
    exact ⟨rfl, hb'⟩
  · rintro ⟨hs, hnot⟩
    have hlen : (s.take p).length = p := by
      have hlen := congrArg List.length hs
      rw [List.length_append, List.length_cons, List.length_drop, List.length_take] at hlen
      rw [List.length_take]
      omega
    rw [hs, hsplit _ _ hnot, hlen]

/-! ## Both ways -/

/-- What `decode` makes of the string in lower case. -/
def decodeLower (lower : JsString) : Option (JsString × List UInt8) := do
  let pos ← lastIndexOf 49 lower
  guard (1 ≤ pos ∧ pos + 7 ≤ lower.length)
  let hrp := lower.take pos
  let values ← (lower.drop (pos + 1)).mapM valueOf
  guard (polymod (hrpExpand hrp ++ values) = 1)
  let payload := (values.take (values.length - 6)).map UInt8.ofNat
  return (hrp, ← convertBits payload 5 8 false)

theorem decode_eq {d : Cases} {s : JsString} :
    decode d s = if trim s = d.lowercase (trim s) ∨ trim s = d.uppercase (trim s) then decodeLower (d.lowercase (trim s)) else none := by
  unfold decode
  split
  · next h => simp only [guard, if_pos h]; rfl
  · next h => simp only [guard, if_neg h]; rfl

/-- The string is its three parts. -/
structure Parts (hrp : JsString) (V : List Nat) (lower : JsString) : Prop where
  values : ∀ v ∈ V, v < 32
  string : lower = hrp ++ 49 :: (V ++ digitsOf (polymod (hrpExpand hrp ++ V ++ List.replicate 6 0) ^^^ 1)).map charOf

/-- The values have the bits of the data, filled up with less than one value of zeros. -/
structure Payload (V : List Nat) (data : List UInt8) : Prop where
  values : ∀ v ∈ V, v < 32
  regrouped : ∃ k < 5, V.flatMap (Coding.bits 5) = data.flatMap (fun b => Coding.bits 8 b.toNat) ++ List.replicate k false

theorem Payload.unique {V V' : List Nat} (h : Payload V data) (h' : Payload V' data) : V = V' := by
  obtain ⟨k, hk, hbits⟩ := h.regrouped
  obtain ⟨k', hk', hbits'⟩ := h'.regrouped
  have hlen := congrArg List.length hbits
  have hlen' := congrArg List.length hbits'
  rw [List.length_append, length_flatMap_bits, length_words, List.length_replicate] at hlen hlen'
  have hkk : k = k' := by omega
  exact eq_of_flatMap_bits h.values h'.values (by omega) (by rw [hbits, hbits', hkk])

theorem exists_payload (data : List UInt8) : ∃ out, convertBits data 8 5 true = some out ∧ Payload (out.map (·.toNat)) data := by
  have hdata : ∀ b ∈ data, b.toNat < 2 ^ 8 := fun b _ => b.toNat_lt
  have hpos : 0 < 5 := by decide
  obtain ⟨out, k, hconv, hout, hk, hbits⟩ := convertBits_pad hpos (by decide) (by decide) hdata
  refine ⟨out, hconv, ⟨fun v hv => ?_, k, hk, ?_⟩⟩
  · obtain ⟨b, hb, rfl⟩ := List.mem_map.1 hv
    exact hout b hb
  · rw [List.flatMap_map, hbits]

theorem encode_eq_some {hrp lower : JsString} : encode hrp data = some lower ↔ ∃ V, Payload V data ∧ Parts hrp V lower := by
  obtain ⟨out, hconv, hpay⟩ := exists_payload data
  have hencode : encode hrp data = some (hrp ++ 49 ::
      (out.map (·.toNat) ++ digitsOf (polymod (hrpExpand hrp ++ out.map (·.toNat) ++ List.replicate 6 0) ^^^ 1)).map charOf) := by
    have hone : js "1" = [49] := by decide
    unfold encode
    rw [hconv, hone, List.map_append]
    simp only [Option.bind_eq_bind, Option.bind_some, List.append_assoc, List.singleton_append, checkChars, digitsOf, List.map_map]
    rfl
  rw [hencode]
  constructor
  · intro h
    cases h
    exact ⟨_, hpay, hpay.values, rfl⟩
  · rintro ⟨V, hV, -, hstr⟩
    rw [hpay.unique hV, hstr]

theorem convertBits_eq_some {V : List Nat} (hV : ∀ v ∈ V, v < 32) : convertBits (V.map UInt8.ofNat) 5 8 false = some data ↔ Payload V data := by
  have hval : ∀ v ∈ V, (UInt8.ofNat v).toNat = v := fun v hv => by
    rw [UInt8.toNat_ofNat']
    exact Nat.mod_eq_of_lt ((hV v hv).trans (by decide))
  have hflat : (V.map UInt8.ofNat).flatMap (fun b => Coding.bits 5 b.toNat) = V.flatMap (Coding.bits 5) := by
    rw [List.flatMap_map]
    exact List.flatMap_congr fun v hv => by rw [hval v hv]
  rw [convertBits_exact (by decide) (by decide) (by decide), hflat]
  constructor
  · rintro ⟨-, -, k, hk, -, hbits⟩
    exact ⟨hV, k, hk, hbits⟩
  · rintro ⟨-, k, hk, hbits⟩
    refine ⟨fun b hb => ?_, fun b _ => b.toNat_lt, k, hk, by omega, hbits⟩
    obtain ⟨v, hv, rfl⟩ := List.mem_map.1 hb
    rw [hval v hv]
    exact hV v hv

theorem decodeLower_eq_some {hrp lower : JsString} :
    decodeLower lower = some (hrp, data) ↔ hrp ≠ [] ∧ ∃ V, Payload V data ∧ Parts hrp V lower := by
  constructor
  · intro h
    unfold decodeLower at h
    obtain ⟨p, hp, h⟩ := Option.bind_eq_some_iff.1 h
    obtain ⟨_, hguard, h⟩ := Option.bind_eq_some_iff.1 h
    obtain ⟨W, hW, h⟩ := Option.bind_eq_some_iff.1 h
    obtain ⟨_, hcheck, h⟩ := Option.bind_eq_some_iff.1 h
    obtain ⟨out, hconv, h⟩ := Option.bind_eq_some_iff.1 h
    cases h
    obtain ⟨hpos, hlen⟩ : 1 ≤ p ∧ p + 7 ≤ lower.length := by simpa [guard] using hguard
    have hcheck : polymod (hrpExpand (lower.take p) ++ W) = 1 := by simpa [guard] using hcheck
    obtain ⟨hlower, -⟩ := lastIndexOf_eq_some.1 hp
    obtain ⟨hW, hdrop⟩ := mapM_valueOf.1 hW
    have hWlen : W.length = lower.length - (p + 1) := by rw [← List.length_drop, hdrop, List.length_map]
    have htake : ∀ v ∈ W.take (W.length - 6), v < 32 := fun v hv => hW v (List.mem_of_mem_take hv)
    have hD : (W.drop (W.length - 6)).length = 6 := by
      rw [List.length_drop]
      omega
    rw [← List.take_append_drop (W.length - 6) W, ← List.append_assoc,
      polymod_eq_one_iff hD fun v hv => hW v (List.mem_of_mem_drop hv)] at hcheck
    refine ⟨fun hnil => ?_, W.take (W.length - 6), (convertBits_eq_some htake).1 hconv, htake, ?_⟩
    · have hlen0 := congrArg List.length hnil
      rw [List.length_take, List.length_nil] at hlen0
      omega
    · rw [← hcheck, List.take_append_drop, ← hdrop]
      exact hlower
  · rintro ⟨hne, V, hpay, hV, rfl⟩
    have hD := lt_of_mem_append_digitsOf (polymod (hrpExpand hrp ++ V ++ List.replicate 6 0) ^^^ 1) hV
    have hcheck : polymod (hrpExpand hrp ++ (V ++ digitsOf (polymod (hrpExpand hrp ++ V ++ List.replicate 6 0) ^^^ 1))) = 1 := by
      rw [← List.append_assoc]
      exact (polymod_eq_one_iff (length_digitsOf _) fun v hv => digitsOf_lt hv).2 rfl
    have hDlen := length_digitsOf (polymod (hrpExpand hrp ++ V ++ List.replicate 6 0) ^^^ 1)
    generalize digitsOf (polymod (hrpExpand hrp ++ V ++ List.replicate 6 0) ^^^ 1) = D at *
    have hnot : (49 : CodeUnit) ∉ (V ++ D).map charOf := by
      intro hmem
      obtain ⟨v, hv, h49⟩ := List.mem_map.1 hmem
      exact charOf_ne_one (hD v hv) h49
    have hdrop : (hrp ++ 49 :: (V ++ D).map charOf).drop (hrp.length + 1) = (V ++ D).map charOf := by
      simp
    have htake : (hrp ++ 49 :: (V ++ D).map charOf).take hrp.length = hrp := List.take_left
    have hlast : lastIndexOf 49 (hrp ++ 49 :: (V ++ D).map charOf) = some hrp.length := by
      rw [lastIndexOf_eq_some, hdrop, htake]
      exact ⟨rfl, hnot⟩
    have hguard : 1 ≤ hrp.length ∧ hrp.length + 7 ≤ (hrp ++ 49 :: (V ++ D).map charOf).length := by
      refine ⟨List.length_pos_of_ne_nil hne, ?_⟩
      rw [List.length_append, List.length_cons, List.length_map, List.length_append]
      omega
    have hpayload : (V ++ D).take ((V ++ D).length - 6) = V := by
      rw [List.length_append, hDlen, Nat.add_sub_cancel, List.take_left]
    unfold decodeLower
    rw [hlast]
    simp only [Option.bind_eq_bind, Option.bind_some, hdrop, htake, guard, if_pos hguard, mapM_valueOf.2 ⟨hD, rfl⟩, if_pos hcheck,
      hpayload, (convertBits_eq_some hV).2 hpay]
    rfl

/-- A string in lower case is decoded exactly where it is encoded, under a prefix. -/
theorem decodeLower_iff {hrp lower : JsString} : decodeLower lower = some (hrp, data) ↔ hrp ≠ [] ∧ encode hrp data = some lower := by
  rw [decodeLower_eq_some, encode_eq_some]

variable {d : Cases} {hrp e : JsString}

/-- A string that is accepted is, trimmed and in lower case, what is encoded. -/
theorem encode_of_decode {s : JsString} (h : decode d s = some (hrp, data)) : encode hrp data = some (d.lowercase (trim s)) := by
  rw [decode_eq] at h
  split at h
  · exact (decodeLower_iff.1 h).2
  · cases h

theorem exists_encode (hrp : JsString) (data : List UInt8) : ∃ e, encode hrp data = some e := by
  obtain ⟨out, -, hpay⟩ := exists_payload data
  exact ⟨_, encode_eq_some.2 ⟨_, hpay, hpay.values, rfl⟩⟩

/-- Digits and small letters of ASCII. -/
def isLowerAscii (c : CodeUnit) : Bool := (48 ≤ c.val && c.val ≤ 57) || (97 ≤ c.val && c.val ≤ 122)

/-- A string in lower case stays so with such characters after it and with its first ones
taken away, and these are in lower case themselves. -/
structure Cases.Lawful (d : Cases) : Prop where
  ascii : ∀ b : JsString, b.all isLowerAscii → d.lowercase b = b
  append : ∀ a b : JsString, d.lowercase a = a → b.all isLowerAscii → d.lowercase (a ++ b) = a ++ b
  drop : ∀ (a : JsString) (n : Nat), d.lowercase a = a → d.lowercase (a.drop n) = a.drop n

theorem charOf_spec {v : Nat} (hv : v < 32) : isLowerAscii (charOf v) = true ∧ isWhitespace (charOf v) = false := by
  have hall : ∀ v < 32, isLowerAscii (charOf v) = true ∧ isWhitespace (charOf v) = false := by decide +kernel
  exact hall v hv

/-- What is behind the prefix. -/
theorem exists_tail (h : encode hrp data = some e) : ∃ T c, e = hrp ++ (T ++ [c]) ∧ (T ++ [c]).all isLowerAscii ∧ isWhitespace c = false ∧
    ∃ rest, T ++ [c] = 49 :: rest := by
  obtain ⟨V, -, hV, rfl⟩ := encode_eq_some.1 h
  have hD := lt_of_mem_append_digitsOf (polymod (hrpExpand hrp ++ V ++ List.replicate 6 0) ^^^ 1) hV
  have hlen := length_digitsOf (polymod (hrpExpand hrp ++ V ++ List.replicate 6 0) ^^^ 1)
  generalize digitsOf (polymod (hrpExpand hrp ++ V ++ List.replicate 6 0) ^^^ 1) = D at *
  obtain ⟨D', v, rfl⟩ : ∃ D' v, D = D' ++ [v] := by
    refine ⟨D.dropLast, D.getLast fun hnil => ?_, (List.dropLast_concat_getLast _).symm⟩
    rw [hnil] at hlen
    cases hlen
  have hv := charOf_spec (hD v (by simp))
  have hall : (49 :: (V ++ (D' ++ [v])).map charOf).all isLowerAscii = true := by
    rw [List.all_cons, List.all_map]
    exact Bool.and_eq_true_iff.2 ⟨by decide, List.all_eq_true.2 fun x hx => (charOf_spec (hD x hx)).1⟩
  have hshape : 49 :: (V ++ (D' ++ [v])).map charOf = 49 :: (V ++ D').map charOf ++ [charOf v] := by
    simp
  rw [hshape] at hall ⊢
  exact ⟨_, _, rfl, hall, hv.2, _, rfl⟩

theorem trim_concat {S : JsString} {c : CodeUnit} (hc : isWhitespace c = false) : trim (S ++ [c]) = S.dropWhile isWhitespace ++ [c] := by
  have hdrop : (S ++ [c]).dropWhile isWhitespace = S.dropWhile isWhitespace ++ [c] := by
    rw [List.dropWhile_append]
    split
    · next h => rw [List.isEmpty_iff.1 h, List.nil_append, List.dropWhile_cons_of_neg (by rw [hc]; exact Bool.false_ne_true)]
    · rfl
  unfold trim
  rw [hdrop, List.reverse_append, List.reverse_singleton, List.singleton_append, List.dropWhile_cons_of_neg (by rw [hc]; exact Bool.false_ne_true),
    List.reverse_cons, List.reverse_reverse]

theorem dropWhile_eq_drop (S : JsString) : S.dropWhile isWhitespace = S.drop (S.takeWhile isWhitespace).length := by
  have h : (S.takeWhile isWhitespace ++ S.dropWhile isWhitespace).drop (S.takeWhile isWhitespace).length = S.dropWhile isWhitespace :=
    List.drop_left
  rw [List.takeWhile_append_dropWhile] at h
  exact h.symm

/-- A text that is trimmed is without its first characters. -/
theorem exists_drop_trim {S : JsString} {c : CodeUnit} (hc : isWhitespace c = false) : ∃ n, trim (S ++ [c]) = (S ++ [c]).drop n := by
  refine ⟨(S.takeWhile isWhitespace).length, ?_⟩
  rw [trim_concat hc, dropWhile_eq_drop, List.drop_append_of_le_length (List.IsPrefix.length_le (List.takeWhile_prefix _))]

/-- What is encoded under a prefix in lower case is decoded exactly where the prefix is
not empty and does not begin with a blank. -/
theorem decode_encode_iff (hd : d.Lawful) (hlower : d.lowercase hrp = hrp) (h : encode hrp data = some e) :
    decode d e = some (hrp, data) ↔ ∃ c ∈ hrp.head?, isWhitespace c = false := by
  obtain ⟨T, c, rfl, hall, hc, -⟩ := exists_tail h
  have hstable := hd.append hrp _ hlower hall
  cases hrp with
  | nil =>
    refine ⟨fun hdec => ?_, fun ⟨_, hmem, _⟩ => by cases hmem⟩
    rw [decode_eq] at hdec
    split at hdec
    · exact absurd rfl (decodeLower_iff.1 hdec).1
    · cases hdec
  | cons x a =>
    by_cases hx : isWhitespace x
    · refine ⟨fun hdec => ?_, fun ⟨_, hmem, hno⟩ => ?_⟩
      · have hstring := Option.some.inj ((encode_of_decode hdec).symm.trans h)
        have hshape : x :: a ++ (T ++ [c]) = x :: (a ++ T) ++ [c] := by simp
        rw [hshape] at hstring hstable
        obtain ⟨n, hn⟩ := exists_drop_trim (S := x :: (a ++ T)) hc
        -- the trimmed string is in lower case, and shorter
        rw [hn, hd.drop _ n hstable, ← hn, trim_concat hc, List.dropWhile_cons_of_pos hx] at hstring
        have hlen := congrArg List.length hstring
        have hle := (List.dropWhile_suffix (l := a ++ T) isWhitespace).length_le
        simp only [List.length_append, List.length_cons] at hlen hle
        omega
      · cases hmem
        rw [hx] at hno
        cases hno
    · have hx : isWhitespace x = false := by simpa using hx
      refine ⟨fun _ => ⟨x, rfl, hx⟩, fun _ => ?_⟩
      have htrim : trim (x :: a ++ (T ++ [c])) = x :: a ++ (T ++ [c]) := by
        have hshape : x :: a ++ (T ++ [c]) = x :: (a ++ T) ++ [c] := by simp
        rw [hshape, trim_concat hc, List.dropWhile_cons_of_neg (by rw [hx]; exact Bool.false_ne_true)]
      rw [decode_eq, htrim, hstable, if_pos (.inl rfl)]
      exact decodeLower_iff.2 ⟨List.cons_ne_nil x a, h⟩

/-! ## Errors -/

/-- A state that the loop takes to zero is zero. -/
theorem polymodStep_eq_zero {x : Nat} (hx : x < 2 ^ 30) (h : polymodStep x 0 = 0) : x = 0 := by
  have hmask : x &&& 0x1ffffff = x % 2 ^ 25 := Nat.and_two_pow_sub_one_eq_mod x 25
  have htop : x >>> 25 < 32 := by
    rw [Nat.shiftRight_eq_div_pow]
    omega
  -- the generators' last five bits are independent
  have hgen : ∀ t < 32, applyGen t 0 % 32 = 0 → t = 0 := by decide +kernel
  have hsplit : polymodStep x 0 = applyGen (x >>> 25) 0 ^^^ (x % 2 ^ 25) <<< 5 := by
    have hlin := applyGen_xor (x >>> 25) 0 0 ((x % 2 ^ 25) <<< 5)
    have hzero : applyGen 0 ((x % 2 ^ 25) <<< 5) = (x % 2 ^ 25) <<< 5 := by simp [applyGen]
    rw [Nat.xor_zero, Nat.zero_xor, hzero] at hlin
    rw [polymodStep, hmask, Nat.xor_zero, hlin]
  have hshift : (x % 2 ^ 25) <<< 5 = x % 2 ^ 25 * 2 ^ 5 := Nat.shiftLeft_eq _ 5
  have hlow : applyGen (x >>> 25) 0 % 32 = 0 := by
    have hmod := congrArg (· % 2 ^ 5) (hsplit.symm.trans h)
    simp only [Nat.xor_mod_two_pow, hshift, Nat.mul_mod_left, Nat.xor_zero, Nat.zero_mod] at hmod
    exact hmod
  have hhigh := hgen _ htop hlow
  rw [hsplit, hhigh, hshift] at h
  have hzero : applyGen 0 0 = 0 := by decide
  rw [hzero, Nat.zero_xor] at h
  rw [Nat.shiftRight_eq_div_pow] at hhigh
  omega

theorem polymodStep_injective {a b v : Nat} (ha : a < 2 ^ 30) (hb : b < 2 ^ 30) (h : polymodStep a v = polymodStep b v) : a = b := by
  have hzero : polymodStep (a ^^^ b) 0 = 0 := by
    have hlin := polymodStep_xor a b v v
    rwa [Nat.xor_self, h, Nat.xor_self] at hlin
  exact Nat.xor_eq_zero_iff.1 (polymodStep_eq_zero (Nat.xor_lt_two_pow ha hb) hzero)

theorem foldl_polymodStep_lt {D : List Nat} {a : Nat} (ha : a < 2 ^ 30) (hD : ∀ v ∈ D, v < 32) : D.foldl polymodStep a < 2 ^ 30 := by
  induction D generalizing a with
  | nil => exact ha
  | cons v D ih => exact ih (polymodStep_lt ((hD v List.mem_cons_self).trans (by decide))) fun w hw => hD w (List.mem_cons_of_mem v hw)

/-- Two states that differ stay apart, whatever values follow. -/
theorem foldl_polymodStep_injective {D : List Nat} {a b : Nat} (ha : a < 2 ^ 30) (hb : b < 2 ^ 30) (hD : ∀ v ∈ D, v < 32)
    (h : D.foldl polymodStep a = D.foldl polymodStep b) : a = b := by
  induction D generalizing a b with
  | nil => exact h
  | cons v D ih =>
    have hv : v < 2 ^ 30 := (hD v List.mem_cons_self).trans (by decide)
    exact polymodStep_injective ha hb (ih (polymodStep_lt hv) (polymodStep_lt hv) (fun w hw => hD w (List.mem_cons_of_mem v hw)) h)

/-- Up to six values are written into the state as they are. -/
theorem foldl_short_injective {U W : List Nat} {a : Nat} (hlen : U.length = W.length) (hsix : U.length ≤ 6) (hU : ∀ v ∈ U, v < 32) (hW : ∀ v ∈ W, v < 32)
    (h : U.foldl polymodStep a = W.foldl polymodStep a) : U = W := by
  have hlinU := foldl_polymodStep U a 0
  have hlinW := foldl_polymodStep W a 0
  rw [Nat.xor_zero] at hlinU hlinW
  rw [hlinU, hlinW, hlen] at h
  have hsame : U.foldl polymodStep 0 = W.foldl polymodStep 0 := Nat.xor_right_injective h
  -- zeros in front leave the state at zero, so that there are six values
  have hpad : ∀ D : List Nat, (List.replicate (6 - U.length) 0 ++ D).foldl polymodStep 0 = D.foldl polymodStep 0 := by
    intro D
    rw [List.foldl_append]
    congr 1
    induction 6 - U.length with
    | zero => rfl
    | succ n ih =>
      rw [List.replicate_succ, List.foldl_cons]
      exact ih
  have hdigits : ∀ D : List Nat, D.length = U.length → (∀ v ∈ D, v < 32) →
      List.replicate (6 - U.length) 0 ++ D = digitsOf (D.foldl polymodStep 0) := by
    intro D hD hv
    refine (foldl_eq_iff ?_ ?_ (foldl_polymodStep_lt (by decide) hv)).1 (hpad D)
    · rw [List.length_append, List.length_replicate, hD]
      omega
    · intro v hm
      rcases List.mem_append.1 hm with hm | hm
      · rw [List.eq_of_mem_replicate hm]
        decide
      · exact hv v hm
  have hall := (hdigits U rfl hU).trans ((congrArg digitsOf hsame).trans (hdigits W hlen.symm hW).symm)
  exact List.append_cancel_left hall

/-- The checksum tells values apart that differ in six places in a row at most. -/
theorem polymod_burst {X U W Z : List Nat} (hlen : U.length = W.length) (hsix : U.length ≤ 6) (hX : ∀ v ∈ X, v < 2 ^ 30) (hU : ∀ v ∈ U, v < 32)
    (hW : ∀ v ∈ W, v < 32) (hZ : ∀ v ∈ Z, v < 32) (h : polymod (X ++ (U ++ Z)) = polymod (X ++ (W ++ Z))) : U = W := by
  have hstart : X.foldl polymodStep 1 < 2 ^ 30 := by
    have hfold : ∀ (X : List Nat) (a : Nat), a < 2 ^ 30 → (∀ v ∈ X, v < 2 ^ 30) → X.foldl polymodStep a < 2 ^ 30 := by
      intro X
      induction X with
      | nil => exact fun a ha _ => ha
      | cons v X ih => exact fun a _ hX => ih _ (polymodStep_lt (hX v List.mem_cons_self)) fun w hw => hX w (List.mem_cons_of_mem v hw)
    exact hfold X 1 (by decide) hX
  unfold polymod at h
  simp only [List.foldl_append] at h
  exact foldl_short_injective hlen hsix hU hW
    (foldl_polymodStep_injective (foldl_polymodStep_lt hstart hU) (foldl_polymodStep_lt hstart hW) hZ h)

theorem hrpExpand_lt {v : Nat} (hv : v ∈ hrpExpand hrp) : v < 2 ^ 30 := by
  unfold hrpExpand at hv
  have hcode : ∀ c : CodeUnit, c.val < 2 ^ 16 := fun c => c.isLt
  simp only [List.mem_append, List.mem_cons, List.mem_map] at hv
  rcases hv with ⟨c, -, rfl⟩ | rfl | ⟨c, -, rfl⟩
  · have := hcode c
    rw [Nat.shiftRight_eq_div_pow]
    omega
  · decide
  · have := hcode c
    have hand : c.val &&& 31 = c.val % 32 := Nat.and_two_pow_sub_one_eq_mod c.val 5
    omega

/-- What the values of a text that is accepted are. -/
theorem checked_of_decodeLower {hrp' W : JsString} (h : decodeLower (hrp ++ 49 :: W) = some (hrp', data)) (hW : 49 ∉ W) :
    ∃ V : List Nat, (∀ v ∈ V, v < 32) ∧ W = V.map charOf ∧ polymod (hrpExpand hrp ++ V) = 1 := by
  obtain ⟨-, V, -, hV, hstring⟩ := decodeLower_eq_some.1 h
  have hD := lt_of_mem_append_digitsOf (polymod (hrpExpand hrp' ++ V ++ List.replicate 6 0) ^^^ 1) hV
  have hnot : (49 : CodeUnit) ∉ (V ++ digitsOf (polymod (hrpExpand hrp' ++ V ++ List.replicate 6 0) ^^^ 1)).map charOf := by
    intro hmem
    obtain ⟨v, hv, h49⟩ := List.mem_map.1 hmem
    exact charOf_ne_one (hD v hv) h49
  have hlast : ∀ {a w : JsString}, 49 ∉ w → lastIndexOf 49 (a ++ 49 :: w) = some a.length := by
    intro a w hw
    rw [lastIndexOf_eq_some]
    simpa using hw
  have hlen : hrp.length = hrp'.length := Option.some.inj ((hlast hW).symm.trans (hstring ▸ hlast hnot))
  obtain ⟨rfl, htail⟩ := List.append_inj hstring hlen
  refine ⟨_, hD, (List.cons.inj htail).2, ?_⟩
  rw [← List.append_assoc]
  exact (polymod_eq_one_iff (length_digitsOf _) fun v hv => digitsOf_lt hv).2 rfl

theorem map_charOf_injective {U V : List Nat} (hU : ∀ v ∈ U, v < 32) (hV : ∀ v ∈ V, v < 32) (h : U.map charOf = V.map charOf) : U = V := by
  have hread := mapM_valueOf.2 ⟨hU, rfl⟩
  rw [h, mapM_valueOf.2 ⟨hV, rfl⟩] at hread
  exact (Option.some.inj hread).symm

theorem trim_lower {T : JsString} (hhead : ∃ c ∈ hrp.head?, isWhitespace c = false) (hT : T ≠ []) (hall : T.all isLowerAscii) : trim (hrp ++ T) = hrp ++ T := by
  obtain ⟨S, c, rfl⟩ : ∃ S c, T = S ++ [c] := ⟨T.dropLast, T.getLast hT, (List.dropLast_concat_getLast hT).symm⟩
  have hc : isWhitespace c = false := by
    have hlower := List.all_eq_true.1 hall c (by simp)
    simp only [isLowerAscii, Bool.or_eq_true, Bool.and_eq_true, decide_eq_true_eq] at hlower
    simp only [isWhitespace, Bool.or_eq_false_iff, Bool.and_eq_false_iff, decide_eq_false_iff_not]
    omega
  obtain ⟨x, hx, hblank⟩ := hhead
  obtain ⟨a, rfl⟩ : ∃ a, hrp = x :: a := by
    cases hrp with
    | nil => cases hx
    | cons y a =>
      cases hx
      exact ⟨a, rfl⟩
  rw [← List.append_assoc, trim_concat hc, List.cons_append, List.dropWhile_cons_of_neg (by simp [hblank])]

end Nostrautica.Bech32
