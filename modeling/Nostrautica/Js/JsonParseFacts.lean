/-
The fuel of `parseJson` is enough for every text (`value_fuel`): a parser that answers has read
some of the text, and answers the same with any fuel from twice the text's length on.
-/
import Nostrautica.Js.JsonParse

namespace Js.Parse

/-! ## What is read -/

section

variable {s : JsString} {p : JsString × JsString}

theorem length_skipSpace_le (s : JsString) : (skipSpace s).length ≤ s.length := (List.dropWhile_suffix _).length_le

theorem length_string_lt (h : string s = some p) : p.2.length < s.length := by
  fun_induction string s generalizing p with
  | case1 => cases h
  | case2 c hc => cases h; simp
  | case3 => cases h
  | case4 c d s hc => cases h; simp
  | case5 => cases h
  | case6 c d hc hlow hesc hu e f g i s' ih =>
    simp only [Option.bind_eq_bind, Option.bind_eq_some_iff] at h
    obtain ⟨u, -, q, hq, h⟩ := h
    cases h
    have := ih hq
    simp only [List.length_cons]
    omega
  | case7 => cases h
  | case8 c d s hc hlow hesc hu ih =>
    simp only [Option.bind_eq_bind, Option.bind_eq_some_iff] at h
    obtain ⟨u, -, q, hq, h⟩ := h
    cases h
    have := ih hq
    simp only [List.length_cons]
    omega
  | case9 c d s hc hlow hesc ih =>
    simp only [Option.bind_eq_bind, Option.bind_eq_some_iff] at h
    obtain ⟨q, hq, h⟩ := h
    cases h
    have := ih hq
    simp only [List.length_cons] at this ⊢
    omega

theorem length_digits_lt (h : digits s = some p) : p.2.length < s.length := by
  simp only [digits] at h
  obtain ⟨hne, h⟩ := Option.ite_none_left_eq_some.1 h
  cases h
  have hs : (s.span isDigit).1 ++ (s.span isDigit).2 = s := by
    rw [List.span_eq_takeWhile_dropWhile]
    exact List.takeWhile_append_dropWhile
  have hlen := congrArg List.length hs
  have hpos := List.length_pos_of_ne_nil hne
  rw [List.length_append] at hlen
  simp only
  omega

theorem length_fractionPart_le (h : fractionPart s = some p) : p.2.length ≤ s.length := by
  cases s with
  | nil => cases h; exact le_rfl
  | cons c s =>
    simp only [fractionPart] at h
    split at h
    · obtain ⟨q, hq, rfl⟩ := Option.map_eq_some_iff.1 h
      exact (length_digits_lt hq).le.trans (Nat.le_succ _)
    · cases h
      exact le_rfl

theorem length_exponentPart_le (h : exponentPart s = some p) : p.2.length ≤ s.length := by
  cases s with
  | nil => cases h; exact le_rfl
  | cons c s =>
    simp only [exponentPart] at h
    split at h
    · cases s with
      | nil => cases h
      | cons d t =>
        simp only at h
        split at h
        · obtain ⟨q, hq, rfl⟩ := Option.map_eq_some_iff.1 h
          have := length_digits_lt hq
          simp only [List.length_cons]
          omega
        · obtain ⟨q, hq, rfl⟩ := Option.map_eq_some_iff.1 h
          exact (length_digits_lt hq).le.trans (Nat.le_succ _)
    · cases h
      exact le_rfl

theorem length_unsigned_lt (h : unsigned s = some p) : p.2.length < s.length := by
  simp only [unsigned, Option.bind_eq_bind, Option.bind_eq_some_iff, Option.ite_none_left_eq_some] at h
  obtain ⟨int, hint, -, frac, hfrac, exp, hexp, h⟩ := h
  cases h
  have := length_digits_lt hint
  have := length_fractionPart_le hfrac
  have := length_exponentPart_le hexp
  simp only
  omega

theorem length_number_lt (h : number s = some p) : p.2.length < s.length := by
  cases s with
  | nil => cases h
  | cons c s =>
    simp only [number] at h
    split at h
    · obtain ⟨q, hq, rfl⟩ := Option.map_eq_some_iff.1 h
      exact (length_unsigned_lt hq).trans (Nat.lt_succ_self _)
    · exact length_unsigned_lt h

theorem length_keyword_lt {v : Raw × JsString} (hs : s ≠ []) (h : keyword s = some v) : v.2.length < s.length := by
  have hpos := List.length_pos_of_ne_nil hs
  simp only [keyword] at h
  split at h
  · cases h
    simp only [List.length_drop]
    omega
  · split at h
    · cases h
      simp only [List.length_drop]
      omega
    · split at h
      · cases h
        simp only [List.length_drop]
        omega
      · cases h

end

/-! ## Fuel -/

/-- What a parser of the three makes of a text, it makes with any fuel from twice the length on, and it reads some of it. -/
def Settles {α : Type} (parse : Nat → JsString → Option (α × JsString)) (extra : Nat) (s : JsString) (v : α × JsString) : Prop :=
  v.2.length < s.length ∧ ∀ m, 2 * s.length + extra ≤ m → parse m s = some v

section

variable {n : Nat} {s : JsString}

theorem settles_value {v : Raw × JsString} (ihElements : ∀ {s v}, elements n s = some v → Settles elements 2 s v)
    (ihMembers : ∀ {s v}, members n s = some v → Settles members 2 s v) (h : value (n + 1) s = some v) : Settles value 1 s v := by
  simp only [value] at h
  have hskip := length_skipSpace_le s
  split at h
  · cases h
  next c u hu =>
    rw [hu, List.length_cons] at hskip
    split at h
    next hquote =>
      obtain ⟨q, hq, rfl⟩ := Option.map_eq_some_iff.1 h
      have hlt := length_string_lt hq
      refine ⟨by simp only; omega, fun m hm => ?_⟩
      obtain ⟨m, rfl⟩ : ∃ k, m = k + 1 := ⟨m - 1, by omega⟩
      simp only [value, hu, if_pos hquote, hq, Option.map_some]
    next hquote =>
    split at h
    next harray =>
      have hskip' := length_skipSpace_le u
      split at h
      next d t ht =>
        rw [ht, List.length_cons] at hskip'
        split at h
        next hend =>
          cases h
          refine ⟨by simp only; omega, fun m hm => ?_⟩
          obtain ⟨m, rfl⟩ : ∃ k, m = k + 1 := ⟨m - 1, by omega⟩
          simp only [value, hu, if_neg hquote, if_pos harray, ht, if_pos hend]
        next hend =>
          obtain ⟨q, hq, rfl⟩ := Option.map_eq_some_iff.1 h
          obtain ⟨hlt, helements⟩ := ihElements hq
          refine ⟨by simp only; omega, fun m hm => ?_⟩
          obtain ⟨m, rfl⟩ : ∃ k, m = k + 1 := ⟨m - 1, by omega⟩
          simp only [value, hu, if_neg hquote, if_pos harray, ht, if_neg hend, helements m (by omega), Option.map_some]
      · cases h
    next harray =>
    split at h
    next hobject =>
      have hskip' := length_skipSpace_le u
      split at h
      next d t ht =>
        rw [ht, List.length_cons] at hskip'
        split at h
        next hend =>
          cases h
          refine ⟨by simp only; omega, fun m hm => ?_⟩
          obtain ⟨m, rfl⟩ : ∃ k, m = k + 1 := ⟨m - 1, by omega⟩
          simp only [value, hu, if_neg hquote, if_neg harray, if_pos hobject, ht, if_pos hend]
        next hend =>
          obtain ⟨q, hq, rfl⟩ := Option.map_eq_some_iff.1 h
          obtain ⟨hlt, hmembers⟩ := ihMembers hq
          refine ⟨by simp only; omega, fun m hm => ?_⟩
          obtain ⟨m, rfl⟩ : ∃ k, m = k + 1 := ⟨m - 1, by omega⟩
          simp only [value, hu, if_neg hquote, if_neg harray, if_pos hobject, ht, if_neg hend, hmembers m (by omega),
            Option.map_some]
      · cases h
    next hobject =>
    split at h
    next hnumber =>
      obtain ⟨q, hq, rfl⟩ := Option.map_eq_some_iff.1 h
      have hlt := length_number_lt hq
      rw [List.length_cons] at hlt
      refine ⟨by simp only; omega, fun m hm => ?_⟩
      obtain ⟨m, rfl⟩ : ∃ k, m = k + 1 := ⟨m - 1, by omega⟩
      simp only [value, hu, if_neg hquote, if_neg harray, if_neg hobject, if_pos hnumber, hq, Option.map_some]
    next hnumber =>
      have hlt := length_keyword_lt (List.cons_ne_nil c u) h
      rw [List.length_cons] at hlt
      refine ⟨by omega, fun m hm => ?_⟩
      obtain ⟨m, rfl⟩ : ∃ k, m = k + 1 := ⟨m - 1, by omega⟩
      simp only [value, hu, if_neg hquote, if_neg harray, if_neg hobject, if_neg hnumber, h]

theorem settles_elements {v : List Raw × JsString} (ihValue : ∀ {s v}, value n s = some v → Settles value 1 s v)
    (ihElements : ∀ {s v}, elements n s = some v → Settles elements 2 s v) (h : elements (n + 1) s = some v) :
    Settles elements 2 s v := by
  simp only [elements, Option.bind_eq_bind, Option.bind_eq_some_iff] at h
  obtain ⟨⟨x, t⟩, hx, h⟩ := h
  obtain ⟨hlt, hvalue⟩ := ihValue hx
  have hskip := length_skipSpace_le t
  simp only at hlt h
  split at h
  next c u hu =>
    rw [hu, List.length_cons] at hskip
    split at h
    next hcomma =>
      obtain ⟨q, hq, rfl⟩ := Option.map_eq_some_iff.1 h
      obtain ⟨hlt', helements⟩ := ihElements hq
      refine ⟨by simp only; omega, fun m hm => ?_⟩
      obtain ⟨m, rfl⟩ : ∃ k, m = k + 1 := ⟨m - 1, by omega⟩
      simp only [elements, hvalue m (by omega), Option.bind_eq_bind, Option.bind_some, hu, if_pos hcomma,
        helements m (by omega), Option.map_some]
    next hcomma =>
      split at h <;> cases h
      next hend =>
      refine ⟨by simp only; omega, fun m hm => ?_⟩
      obtain ⟨m, rfl⟩ : ∃ k, m = k + 1 := ⟨m - 1, by omega⟩
      simp only [elements, hvalue m (by omega), Option.bind_eq_bind, Option.bind_some, hu, if_neg hcomma, if_pos hend]
  · cases h

theorem settles_members {v : List (JsString × Raw) × JsString} (ihValue : ∀ {s v}, value n s = some v → Settles value 1 s v)
    (ihMembers : ∀ {s v}, members n s = some v → Settles members 2 s v) (h : members (n + 1) s = some v) :
    Settles members 2 s v := by
  simp only [members] at h
  have hskip := length_skipSpace_le s
  split at h
  next q u hu =>
    rw [hu, List.length_cons] at hskip
    obtain ⟨hquote, h⟩ := Option.ite_none_left_eq_some.1 h
    simp only [Option.bind_eq_bind, Option.bind_eq_some_iff] at h
    obtain ⟨⟨k, t⟩, hk, h⟩ := h
    have hlt := length_string_lt hk
    have hskip' := length_skipSpace_le t
    simp only at hlt h
    split at h
    next c u' hu' =>
      rw [hu', List.length_cons] at hskip'
      obtain ⟨hcolon, h⟩ := Option.ite_none_left_eq_some.1 h
      simp only [Option.bind_eq_bind, Option.bind_eq_some_iff] at h
      obtain ⟨⟨x, t'⟩, hx, h⟩ := h
      obtain ⟨hlt', hvalue⟩ := ihValue hx
      have hskip'' := length_skipSpace_le t'
      simp only at hlt' h
      split at h
      next d u'' hu'' =>
        rw [hu'', List.length_cons] at hskip''
        split at h
        next hcomma =>
          obtain ⟨r, hr, rfl⟩ := Option.map_eq_some_iff.1 h
          obtain ⟨hlt'', hmembers⟩ := ihMembers hr
          refine ⟨by simp only; omega, fun m hm => ?_⟩
          obtain ⟨m, rfl⟩ : ∃ k, m = k + 1 := ⟨m - 1, by omega⟩
          simp only [members, hu, if_neg hquote, hk, Option.bind_eq_bind, Option.bind_some, hu', if_neg hcolon,
            hvalue m (by omega), hu'', if_pos hcomma, hmembers m (by omega), Option.map_some]
        next hcomma =>
          split at h
          next hend =>
            cases h
            refine ⟨by simp only; omega, fun m hm => ?_⟩
            obtain ⟨m, rfl⟩ : ∃ k, m = k + 1 := ⟨m - 1, by omega⟩
            simp only [members, hu, if_neg hquote, hk, Option.bind_eq_bind, Option.bind_some, hu', if_neg hcolon,
              hvalue m (by omega), hu'', if_neg hcomma, if_pos hend]
          · cases h
      · cases h
    · cases h
  · cases h

end

theorem settles : ∀ n,
    (∀ {s v}, value n s = some v → Settles value 1 s v) ∧ (∀ {s v}, elements n s = some v → Settles elements 2 s v) ∧
      ∀ {s v}, members n s = some v → Settles members 2 s v
  | 0 => by
    refine ⟨?_, ?_, ?_⟩
    · intro s v h
      cases h
    · intro s v h
      cases h
    · intro s v h
      cases h
  | n + 1 => by
    obtain ⟨ihValue, ihElements, ihMembers⟩ := settles n
    exact ⟨settles_value ihElements ihMembers, settles_elements ihValue ihElements, settles_members ihValue ihMembers⟩

/-- **The fuel of `parseJson` is enough**: with more the answer is the same. -/
theorem value_fuel {n : Nat} {s : JsString} (hn : 2 * s.length + 1 ≤ n) : value n s = value (2 * s.length + 1) s := by
  cases h : value n s with
  | some v => exact (((settles n).1 h).2 _ le_rfl).symm
  | none =>
    cases h' : value (2 * s.length + 1) s with
    | some v => rw [((settles _).1 h').2 n hn] at h; cases h
    | none => rfl

end Js.Parse
