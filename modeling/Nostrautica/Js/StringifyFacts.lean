/-
What `JSON.stringify` writes tells the value, where every number is a safe integer.
-/
import Nostrautica.Js.Digits
import Nostrautica.Js.Utf8Facts

namespace Js

open Coding

variable {s s' t t' : JsString} {j j' : Json} {n n' : Int}

/-! ## Parts -/

/-- A text that does not go on with a digit. -/
def Ends (t : JsString) : Prop := ∀ c ∈ t.head?, isDigit c = false

theorem ends_cons {c : CodeUnit} (h : isDigit c = false) (t : JsString) : Ends (c :: t) := by
  intro d hd
  rw [← Option.some.inj hd]
  exact h

theorem head_quoted (a : Symbol) : a.quoted.head? ≠ some 0x22 := by
  cases a with
  | pair h l hh hl =>
    intro he
    rw [show h = 0x22 from Option.some.inj he] at hh
    exact absurd hh (by decide)
  | unit c =>
    rw [Symbol.quoted, escapeUnit]
    split_ifs with h1 h2 h3 h4 h5 h6 h7 h8
    case neg =>
      intro he
      rw [show c = 0x22 from Option.some.inj he] at h1
      exact h1 rfl
    all_goals exact fun he => absurd (Option.some.inj he) (by decide)

/-- A quoted string and what follows it. -/
theorem quote_read (h : quote s ++ t = quote s' ++ t') : s = s' ∧ t = t' := by
  have hform : ∀ u v : JsString, quote u ++ v = 0x22 :: ((symbols u).flatMap Symbol.quoted ++ 0x22 :: v) := by
    intro u v
    rw [quoted_symbols, quote, List.append_assoc, List.append_assoc]
    rfl
  rw [hform, hform] at h
  obtain ⟨hs, ht⟩ := prefixCode_quoted.flatMap_stop head_quoted (List.cons.inj h).2
  exact ⟨by rw [← units_symbols s, hs, units_symbols], ht⟩

theorem natToString_digits {m : Nat} (h : m < 2 ^ 53) :
    natToString m ≠ [] ∧ (∀ c ∈ natToString m, isDigit c = true) ∧ digitsValue (natToString m) = m := by
  by_cases h0 : m = 0
  · subst h0
    exact ⟨List.cons_ne_nil _ _, fun c hc => by rw [List.mem_singleton.mp hc]; decide, rfl⟩
  · rw [natToString_eq_decimal h0 h]
    exact ⟨decimal_ne_nil h0, fun c => isDigit_of_mem_decimal, digitsValue_decimal m⟩

theorem digits_read {ds es : JsString} (hd : ∀ c ∈ ds, isDigit c = true) (he : ∀ c ∈ es, isDigit c = true) (ht : Ends t) (ht' : Ends t')
    (h : ds ++ t = es ++ t') : ds = es ∧ t = t' := by
  have hspan := congrArg (List.span isDigit) h
  rw [span_digits hd ht, span_digits he ht'] at hspan
  exact Prod.mk.inj hspan

/-- An integer and what follows it. -/
theorem intToString_read (hn : n.natAbs < 2 ^ 53) (hn' : n'.natAbs < 2 ^ 53) (ht : Ends t) (ht' : Ends t')
    (h : intToString n ++ t = intToString n' ++ t') : n = n' ∧ t = t' := by
  have hsame : ∀ {m m' : Nat} {u u' : JsString}, m < 2 ^ 53 → m' < 2 ^ 53 → Ends u → Ends u' → natToString m ++ u = natToString m' ++ u' → m = m' ∧ u = u' := by
    intro m m' u u' hm hm' hu hu' he
    obtain ⟨-, hd, hv⟩ := natToString_digits hm
    obtain ⟨-, hd', hv'⟩ := natToString_digits hm'
    obtain ⟨hds, hrest⟩ := digits_read hd hd' hu hu' he
    exact ⟨by rw [← hv, hds, hv'], hrest⟩
  have hsign : ∀ {m : Nat} {u v : JsString}, m < 2 ^ 53 → natToString m ++ u ≠ 45 :: v := by
    intro m u v hm he
    obtain ⟨hne, hd, -⟩ := natToString_digits hm
    obtain ⟨c, r, hc⟩ := List.exists_cons_of_ne_nil hne
    rw [hc] at he hd
    have hdigit := hd c List.mem_cons_self
    rw [(List.cons.inj he).1] at hdigit
    exact absurd hdigit (by decide)
  cases n with
  | ofNat m =>
    cases n' with
    | ofNat m' =>
      obtain ⟨rfl, hrest⟩ := hsame hn hn' ht ht' h
      exact ⟨rfl, hrest⟩
    | negSucc m' => exact absurd h (hsign hn)
  | negSucc m =>
    cases n' with
    | ofNat m' => exact absurd h.symm (hsign hn')
    | negSucc m' =>
      obtain ⟨hm, hrest⟩ := hsame hn hn' ht ht' (List.cons.inj h).2
      exact ⟨congrArg Int.negSucc (Nat.succ.inj hm), hrest⟩

/-! ## Parts between commas -/

section joined

variable {α : Type} {code : α → JsString} {close : CodeUnit}

theorem joinComma_cons (p : JsString) (ps : List JsString) : joinComma (p :: ps) = p ++ ps.flatMap (44 :: ·) := by
  induction ps generalizing p with
  | nil => rw [joinComma, List.flatMap_nil, List.append_nil]
  | cons q ps ih =>
    rw [joinComma, ih, List.flatMap_cons, List.append_assoc]
    rfl

/-- Parts behind commas, up to the bracket that closes them. -/
theorem tails_read (hclose : isDigit close = false ∧ close ≠ 44) {as bs : List α}
    (hread : ∀ a ∈ as, ∀ b ∈ bs, ∀ {t t'}, Ends t → Ends t' → code a ++ t = code b ++ t' → a = b ∧ t = t')
    (h : (as.map code).flatMap (44 :: ·) ++ close :: t = (bs.map code).flatMap (44 :: ·) ++ close :: t') : as = bs ∧ t = t' := by
  have hends : ∀ (cs : List α) (u : JsString), Ends ((cs.map code).flatMap (44 :: ·) ++ close :: u) := by
    intro cs u
    cases cs with
    | nil => exact ends_cons hclose.1 u
    | cons c cs => exact ends_cons (by decide) _
  induction as generalizing bs with
  | nil =>
    cases bs with
    | nil => exact ⟨rfl, (List.cons.inj h).2⟩
    | cons b bs => exact absurd (List.cons.inj h).1 hclose.2
  | cons a as ih =>
    cases bs with
    | nil => exact absurd (List.cons.inj h).1.symm hclose.2
    | cons b bs =>
      rw [List.map_cons, List.map_cons, List.flatMap_cons, List.flatMap_cons, List.append_assoc, List.append_assoc, List.cons_append, List.cons_append] at h
      obtain ⟨rfl, hrest⟩ := hread a List.mem_cons_self b List.mem_cons_self (hends as t) (hends bs t') (List.cons.inj h).2
      obtain ⟨rfl, ht⟩ := ih (fun a ha b hb => hread a (List.mem_cons_of_mem _ ha) b (List.mem_cons_of_mem _ hb)) hrest
      exact ⟨rfl, ht⟩

theorem joined_read (hclose : isDigit close = false ∧ close ≠ 44) {as bs : List α}
    (hread : ∀ a ∈ as, ∀ b ∈ bs, ∀ {t t'}, Ends t → Ends t' → code a ++ t = code b ++ t' → a = b ∧ t = t')
    (has : ∀ a ∈ as, ∃ c r, code a = c :: r ∧ c ≠ close) (hbs : ∀ b ∈ bs, ∃ c r, code b = c :: r ∧ c ≠ close)
    (h : joinComma (as.map code) ++ close :: t = joinComma (bs.map code) ++ close :: t') : as = bs ∧ t = t' := by
  cases as with
  | nil =>
    cases bs with
    | nil => exact ⟨rfl, (List.cons.inj h).2⟩
    | cons b bs =>
      obtain ⟨c, r, hc, hne⟩ := hbs b List.mem_cons_self
      rw [List.map_cons, joinComma_cons, hc] at h
      exact absurd (List.cons.inj h).1.symm hne
  | cons a as =>
    cases bs with
    | nil =>
      obtain ⟨c, r, hc, hne⟩ := has a List.mem_cons_self
      rw [List.map_cons, joinComma_cons, hc] at h
      exact absurd (List.cons.inj h).1 hne
    | cons b bs =>
      have htail : ∀ (c : α) (cs : List α) (u : JsString),
          44 :: (joinComma ((c :: cs).map code) ++ close :: u) = ((c :: cs).map code).flatMap (44 :: ·) ++ close :: u := by
        intro c cs u
        rw [List.map_cons, joinComma_cons, List.flatMap_cons]
        rfl
      exact tails_read hclose hread (by rw [← htail, ← htail, h])

end joined

/-! ## Values -/

mutual

/-- Every number of a value is a safe integer. -/
def Safe : Json → Prop
  | .num n => n.natAbs < 2 ^ 53
  | .arr elems => SafeElems elems
  | .obj fields => SafeFields fields
  | .null | .bool _ | .str _ => True

def SafeElems : List Json → Prop
  | [] => True
  | j :: rest => Safe j ∧ SafeElems rest

def SafeFields : List (JsString × Json) → Prop
  | [] => True
  | (_, j) :: rest => Safe j ∧ SafeFields rest

end

theorem safeElems_iff {elems : List Json} : SafeElems elems ↔ ∀ j ∈ elems, Safe j := by
  induction elems with
  | nil => simp [SafeElems]
  | cons j elems ih => simp [SafeElems, ih]

theorem safeFields_iff {fields : List (JsString × Json)} : SafeFields fields ↔ ∀ f ∈ fields, Safe f.2 := by
  induction fields with
  | nil => simp [SafeFields]
  | cons f fields ih => simp [SafeFields, ih]

theorem stringifyElems_eq (elems : List Json) : stringifyElems elems = elems.map stringify := by
  induction elems with
  | nil => rfl
  | cons j elems ih => rw [stringifyElems, ih, List.map_cons]

/-- The text of a property. -/
def fieldText (f : JsString × Json) : JsString := quote f.1 ++ js ":" ++ stringify f.2

theorem stringifyFields_eq (fields : List (JsString × Json)) : stringifyFields fields = fields.map fieldText := by
  induction fields with
  | nil => rfl
  | cons f fields ih =>
    rw [stringifyFields, ih, List.map_cons]
    rfl

/-- What kind of value a text is of, from its first unit. -/
def kindOfHead (c : CodeUnit) : Nat :=
  if c = 110 then 0 else if c = 116 then 1 else if c = 102 then 2 else if isDigit c || c = 45 then 3
  else if c = 0x22 then 4 else if c = 91 then 5 else if c = 0x7B then 6 else 7

def kindOf : Json → Nat
  | .null => 0
  | .bool b => if b then 1 else 2
  | .num _ => 3
  | .str _ => 4
  | .arr _ => 5
  | .obj _ => 6

theorem kindOfHead_digit {c : CodeUnit} (h : isDigit c = true) : kindOfHead c = 3 := by
  have hne : ∀ d : CodeUnit, isDigit d = false → c ≠ d := fun d hd he => by
    rw [he, hd] at h
    cases h
  rw [kindOfHead, if_neg (hne 110 (by decide)), if_neg (hne 116 (by decide)), if_neg (hne 102 (by decide)), h]
  rfl

theorem head_stringify (h : Safe j) : ∃ c r, stringify j = c :: r ∧ kindOfHead c = kindOf j := by
  cases j with
  | null => exact ⟨110, _, rfl, rfl⟩
  | bool b =>
    cases b with
    | false => exact ⟨102, _, rfl, rfl⟩
    | true => exact ⟨116, _, rfl, rfl⟩
  | num n =>
    cases n with
    | ofNat m =>
      have hm : m < 2 ^ 53 := h
      obtain ⟨hne, hd, -⟩ := natToString_digits hm
      obtain ⟨c, r, hc⟩ := List.exists_cons_of_ne_nil hne
      refine ⟨c, r, hc, kindOfHead_digit (hd c ?_)⟩
      rw [hc]
      exact List.mem_cons_self
    | negSucc m => exact ⟨45, _, rfl, rfl⟩
  | str s => exact ⟨0x22, _, rfl, rfl⟩
  | arr elems => exact ⟨91, _, rfl, rfl⟩
  | obj fields => exact ⟨0x7B, _, rfl, rfl⟩

theorem kindOf_lt (j : Json) : kindOf j < 7 := by
  cases j with
  | bool b => cases b <;> decide
  | _ => exact by simp [kindOf]

/-- No value starts with a closing bracket. -/
theorem head_ne_close (h : Safe j) : ∃ c r, stringify j = c :: r ∧ c ≠ 93 := by
  obtain ⟨c, r, hc, hk⟩ := head_stringify h
  refine ⟨c, r, hc, fun hbad => ?_⟩
  have hlt := kindOf_lt j
  rw [hbad] at hk
  exact absurd hlt (by rw [← hk]; decide)

theorem head_fieldText (f : JsString × Json) : ∃ c r, fieldText f = c :: r ∧ c ≠ 125 := ⟨0x22, _, rfl, by decide⟩

/-- What `stringify_read` says of one value on the left. -/
def Reads (j : Json) : Prop :=
  ∀ j', Safe j' → ∀ {t t' : JsString}, Ends t → Ends t' → stringify j ++ t = stringify j' ++ t' → j = j' ∧ t = t'

theorem arr_read {elems elems' : List Json} (hread : ∀ j ∈ elems, Reads j) (hs : SafeElems elems) (hs' : SafeElems elems')
    (h : stringify (.arr elems) ++ t = stringify (.arr elems') ++ t') : elems = elems' ∧ t = t' := by
  have hform : ∀ (es : List Json) (u : JsString), stringify (.arr es) ++ u = 91 :: (joinComma (es.map stringify) ++ 93 :: u) := by
    intro es u
    rw [stringify, stringifyElems_eq, List.append_assoc, List.append_assoc]
    rfl
  rw [hform, hform] at h
  have hsafe' := safeElems_iff.mp hs'
  exact joined_read (by decide) (fun a ha b hb => hread a ha b (hsafe' b hb)) (fun a ha => head_ne_close (safeElems_iff.mp hs a ha))
    (fun b hb => head_ne_close (hsafe' b hb)) (List.cons.inj h).2

theorem obj_read {fields fields' : List (JsString × Json)} (hread : ∀ f ∈ fields, Reads f.2) (hs' : SafeFields fields')
    (h : stringify (.obj fields) ++ t = stringify (.obj fields') ++ t') : fields = fields' ∧ t = t' := by
  have hform : ∀ (fs : List (JsString × Json)) (u : JsString), stringify (.obj fs) ++ u = 123 :: (joinComma (fs.map fieldText) ++ 125 :: u) := by
    intro fs u
    rw [stringify, stringifyFields_eq, List.append_assoc, List.append_assoc]
    rfl
  rw [hform, hform] at h
  refine joined_read (by decide) ?_ (fun f _ => head_fieldText f) (fun f _ => head_fieldText f) (List.cons.inj h).2
  intro f hf g hg u u' hu hu' he
  simp only [fieldText, List.append_assoc] at he
  obtain ⟨hkey, hvalue⟩ := quote_read he
  obtain ⟨hval, hrest⟩ := hread f hf g.2 (safeFields_iff.mp hs' g hg) hu hu' (List.append_cancel_left hvalue)
  exact ⟨Prod.ext hkey hval, hrest⟩

theorem reads_of_smaller (hj : Safe j) (ih : ∀ k, sizeOf k < sizeOf j → Safe k → Reads k) : Reads j := by
  intro j' hj' t t' ht ht' h
  have hkind : kindOf j = kindOf j' := by
    obtain ⟨c, r, hc, hk⟩ := head_stringify hj
    obtain ⟨c', r', hc', hk'⟩ := head_stringify hj'
    rw [hc, hc'] at h
    rw [← hk, ← hk', (List.cons.inj h).1]
  cases j with
  | null =>
    cases j' with
    | null => exact ⟨rfl, List.append_cancel_left h⟩
    | bool b => cases b <;> cases hkind
    | _ => cases hkind
  | bool b =>
    cases j' with
    | bool b' =>
      have hb : b = b' := by cases b <;> cases b' <;> first | rfl | cases hkind
      subst hb
      exact ⟨rfl, List.append_cancel_left h⟩
    | _ => cases b <;> cases hkind
  | num n =>
    cases j' with
    | num n' =>
      obtain ⟨rfl, hrest⟩ := intToString_read hj hj' ht ht' h
      exact ⟨rfl, hrest⟩
    | bool b => cases b <;> cases hkind
    | _ => cases hkind
  | str s =>
    cases j' with
    | str s' =>
      obtain ⟨rfl, hrest⟩ := quote_read h
      exact ⟨rfl, hrest⟩
    | bool b => cases b <;> cases hkind
    | _ => cases hkind
  | arr elems =>
    cases j' with
    | arr elems' =>
      have hsize : ∀ k ∈ elems, sizeOf k < sizeOf (Json.arr elems) := fun k hk => by
        have := List.sizeOf_lt_of_mem hk
        rw [Json.arr.sizeOf_spec]
        omega
      obtain ⟨rfl, hrest⟩ := arr_read (fun k hk => ih k (hsize k hk) (safeElems_iff.mp hj k hk)) hj hj' h
      exact ⟨rfl, hrest⟩
    | bool b => cases b <;> cases hkind
    | _ => cases hkind
  | obj fields =>
    cases j' with
    | obj fields' =>
      have hsize : ∀ f ∈ fields, sizeOf f.2 < sizeOf (Json.obj fields) := fun f hf => by
        have := List.sizeOf_lt_of_mem hf
        have hpair : sizeOf f = 1 + sizeOf f.1 + sizeOf f.2 := rfl
        rw [Json.obj.sizeOf_spec]
        omega
      obtain ⟨rfl, hrest⟩ := obj_read (fun f hf => ih f.2 (hsize f hf) (safeFields_iff.mp hj f hf)) hj' h
      exact ⟨rfl, hrest⟩
    | bool b => cases b <;> cases hkind
    | _ => cases hkind

/-- **The text of a value of safe integers tells the value and what follows it.** -/
theorem stringify_read (j : Json) (hj : Safe j) : Reads j :=
  reads_of_smaller hj fun k _ hk => stringify_read k hk
termination_by sizeOf j

theorem stringify_inj (hj : Safe j) (hj' : Safe j') (h : stringify j = stringify j') : j = j' := by
  have hnil : Ends [] := fun c hc => by cases hc
  exact (stringify_read j hj j' hj' hnil hnil (by rw [h])).1

end Js
