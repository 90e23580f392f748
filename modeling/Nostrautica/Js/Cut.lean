/-
Cuts of a text that no surrogate pair crosses: code points, UTF-8 bytes and well-formedness of the
parts are those of the whole.
-/
import Nostrautica.Js.Utf8Facts

namespace Js

variable {p q s t : JsString} {c d : CodeUnit}

/-- The text `p ++ q` is not cut within a pair. -/
def Cut (p q : JsString) : Prop := ∀ h ∈ p.getLast?, ∀ l ∈ q.head?, (isHighSurrogate h && isLowSurrogate l) = false

theorem cut_nil (q : JsString) : Cut [] q := by
  intro h hh
  cases hh

theorem cut_cons (hp : p ≠ []) : Cut (c :: p) q ↔ Cut p q := by
  unfold Cut
  rw [List.getLast?_cons, List.getLast?_eq_getLast_of_ne_nil hp, Option.getD_some]

theorem not_high_of_low (h : isLowSurrogate c = true) : isHighSurrogate c = false := by
  simp only [isLowSurrogate, isHighSurrogate, Bool.and_eq_true, Bool.and_eq_false_iff, decide_eq_true_eq, decide_eq_false_iff_not] at h ⊢
  omega

/-- After the second half of a pair there is nothing to keep together. -/
theorem cut_low (h : isLowSurrogate d = true) (hp : p = [] ∨ Cut p q) : Cut (d :: p) q := by
  by_cases hnil : p = []
  · intro e he l _
    rw [hnil] at he
    have hd : d = e := Option.some.inj he
    rw [← hd, not_high_of_low h]
    rfl
  · rcases hp with hp | hp
    · exact absurd hp hnil
    · exact (cut_cons hnil).mpr hp

theorem codePoints_append (h : Cut p q) : codePoints (p ++ q) = codePoints p ++ codePoints q := by
  fun_induction codePoints p with
  | case1 => rfl
  | case2 c =>
    cases q with
    | nil => rfl
    | cons d q =>
      have hno := h c rfl d rfl
      rw [List.singleton_append, codePoints, if_neg (by rw [hno]; decide)]
      rfl
  | case3 c d s hpair ih =>
    have hs : Cut s q := by
      by_cases hnil : s = []
      · rw [hnil]
        exact cut_nil q
      · exact (cut_cons hnil).mp ((cut_cons (List.cons_ne_nil d s)).mp h)
    rw [List.cons_append, List.cons_append, codePoints, if_pos hpair, ih hs, List.cons_append]
  | case4 c d s hpair ih =>
    have hs := ih ((cut_cons (List.cons_ne_nil d s)).mp h)
    rw [List.cons_append] at hs
    rw [List.cons_append, List.cons_append, codePoints, if_neg hpair, hs, List.cons_append]

theorem utf8ByteLength_cut (h : Cut p q) : utf8ByteLength (p ++ q) = utf8ByteLength p + utf8ByteLength q := by
  fun_induction utf8ByteLength p with
  | case1 => exact (Nat.zero_add _).symm
  | case2 c =>
    cases q with
    | nil => rfl
    | cons d q =>
      have hno := h c rfl d rfl
      rw [List.singleton_append, utf8ByteLength, if_neg (by rw [hno]; decide)]
  | case3 c d s hpair ih =>
    have hs : Cut s q := by
      by_cases hnil : s = []
      · rw [hnil]
        exact cut_nil q
      · exact (cut_cons hnil).mp ((cut_cons (List.cons_ne_nil d s)).mp h)
    rw [List.cons_append, List.cons_append, utf8ByteLength, if_pos hpair, ih hs, Nat.add_assoc]
  | case4 c d s hpair ih =>
    have hs := ih ((cut_cons (List.cons_ne_nil d s)).mp h)
    rw [List.cons_append] at hs
    rw [List.cons_append, List.cons_append, utf8ByteLength, if_neg hpair, hs, Nat.add_assoc]

theorem unitsOfChar_pair (hh : isHighSurrogate c = true) (hl : isLowSurrogate d = true) : unitsOfChar (pairChar c d) = [c, d] := by
  obtain ⟨xs, hxs⟩ := wellFormed_pair hh hl
  have hpoints : codePoints [c, d] = [pairChar c d] := by
    rw [codePoints, if_pos (by rw [hh, hl]; rfl)]
    rfl
  have hback := codePoints_units xs
  rw [← hxs, hpoints] at hback
  rw [hxs, ← hback, List.flatMap_singleton]

theorem length_unitChar (c : CodeUnit) : (unitsOfChar (unitChar c)).length = 1 := by
  by_cases hsurrogate : (isHighSurrogate c || isLowSurrogate c) = true
  · rw [unitChar, if_pos hsurrogate]
    rfl
  · obtain ⟨hh, hl⟩ := Bool.or_eq_false_iff.mp (Bool.not_eq_true _ ▸ hsurrogate)
    obtain ⟨xs, hxs⟩ := wellFormed_unit hh hl
    have hback := codePoints_units xs
    rw [← hxs] at hback
    have hone : unitsOfChar (unitChar c) = [c] := by
      rw [hxs, ← hback]
      exact (List.flatMap_singleton ..).symm
    rw [hone]
    rfl

/-- A text and the units of its code points are of one length: what is lost of a lone surrogate is one unit as well. -/
theorem length_codePoints (s : JsString) : ((codePoints s).flatMap unitsOfChar).length = s.length := by
  fun_induction codePoints s with
  | case1 => rfl
  | case2 c =>
    rw [List.flatMap_singleton, length_unitChar]
    rfl
  | case3 c d s hpair ih =>
    obtain ⟨hh, hl⟩ := Bool.and_eq_true_iff.mp hpair
    rw [List.flatMap_cons, unitsOfChar_pair hh hl, List.length_append, ih]
    simp only [List.length_cons, List.length_nil]
    omega
  | case4 c d s hpair ih =>
    rw [List.flatMap_cons, List.length_append, length_unitChar, ih]
    simp only [List.length_cons]
    omega

/-- The parts of a well-formed text are. -/
theorem WellFormed.of_append (h : Cut p q) (hw : WellFormed (p ++ q)) : WellFormed p ∧ WellFormed q := by
  obtain ⟨xs, hxs⟩ := hw
  have hback := codePoints_units xs
  rw [← hxs, codePoints_append h] at hback
  have hsplit : (codePoints p).flatMap unitsOfChar ++ (codePoints q).flatMap unitsOfChar = p ++ q := by
    rw [hxs, ← hback, List.flatMap_append]
  obtain ⟨h1, h2⟩ := List.append_inj hsplit (length_codePoints p)
  exact ⟨⟨_, h1.symm⟩, ⟨_, h2.symm⟩⟩

end Js
