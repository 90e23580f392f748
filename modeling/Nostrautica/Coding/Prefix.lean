/-
Codes whose words can be read off the front of what is written with them.
-/
import Mathlib

namespace Coding

variable {α β : Type*} {code : α → List β}

/-- No word is empty, and what begins with a word begins with no other. -/
structure PrefixCode (code : α → List β) : Prop where
  ne_nil : ∀ a, code a ≠ []
  read : ∀ {a b s t}, code a ++ s = code b ++ t → a = b

/-- What is written with a prefix code reads back in one way. -/
theorem PrefixCode.flatMap_inj (h : PrefixCode code) : ∀ {as bs : List α}, as.flatMap code = bs.flatMap code → as = bs
  | [], [], _ => rfl
  | [], b :: bs, he => by
    have := List.append_eq_nil_iff.mp (he.symm.trans List.flatMap_nil)
    exact (h.ne_nil b this.1).elim
  | a :: as, [], he => by
    have := List.append_eq_nil_iff.mp (he.trans List.flatMap_nil)
    exact (h.ne_nil a this.1).elim
  | a :: as, b :: bs, he => by
    obtain rfl := h.read he
    rw [h.flatMap_inj (List.append_cancel_left he)]

/-- What is written up to a mark that starts no word reads back in one way, and the rest after it. -/
theorem PrefixCode.flatMap_stop (h : PrefixCode code) {stop : β} (hstop : ∀ a, (code a).head? ≠ some stop) {s t : List β} :
    ∀ {as bs : List α}, as.flatMap code ++ stop :: s = bs.flatMap code ++ stop :: t → as = bs ∧ s = t := by
  have hne : ∀ {a : α} {as : List α} {s t : List β}, (a :: as).flatMap code ++ s ≠ stop :: t := by
    intro a as s t he
    obtain ⟨c, w, hw⟩ := List.exists_cons_of_ne_nil (h.ne_nil a)
    rw [List.flatMap_cons, hw] at he
    refine hstop a ?_
    rw [hw, ← (List.cons.inj he).1]
    rfl
  intro as
  induction as with
  | nil =>
    intro bs he
    cases bs with
    | nil => exact ⟨rfl, (List.cons.inj he).2⟩
    | cons b bs => exact absurd he.symm hne
  | cons a as ih =>
    intro bs he
    cases bs with
    | nil => exact absurd he hne
    | cons b bs =>
      rw [List.flatMap_cons, List.flatMap_cons, List.append_assoc, List.append_assoc] at he
      obtain rfl := h.read he
      obtain ⟨rfl, hrest⟩ := ih (List.append_cancel_left he)
      exact ⟨rfl, hrest⟩

end Coding
