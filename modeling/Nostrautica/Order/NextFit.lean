/-
Next fit: entries go onto the page that is open, which is closed where the next
one would pass the page's capacity `c`. A new page starts out at `v`, its envelope.

The number of pages closed depends on the order of the entries. What it never
does is to fall when an entry is added, anywhere, or to rise by more than one.
-/
import Mathlib

namespace NextFit

variable {c v u u' e g : Nat} {l l₁ l₂ : List Nat}

/-- The pages closed over the entries, where the open page is filled up to `u`. -/
def closes (c v : Nat) : Nat → List Nat → Nat
  | _, [] => 0
  | u, e :: l => if c < u + e then closes c v (v + e) l + 1 else closes c v (u + e) l

/-- Every entry fits on a page of its own. -/
def Fit (c v : Nat) (l : List Nat) : Prop := ∀ e ∈ l, v + e ≤ c

theorem Fit.head (h : Fit c v (e :: l)) : v + e ≤ c := h e List.mem_cons_self

theorem Fit.tail (h : Fit c v (e :: l)) : Fit c v l := fun a ha => h a (List.mem_cons_of_mem e ha)

/-- **A fuller page costs at most one page more.** -/
theorem closes_mono (hl : Fit c v l) (hv : v ≤ u) (hu : u ≤ u') (hc : u' ≤ c) :
    closes c v u l ≤ closes c v u' l ∧ closes c v u' l ≤ closes c v u l + 1 := by
  induction l generalizing u u' with
  | nil => exact ⟨le_rfl, Nat.zero_le _⟩
  | cons e l ih =>
    have he := hl.head
    simp only [closes]
    by_cases hlow : c < u + e
    · rw [if_pos hlow, if_pos (by omega)]
      exact ⟨le_rfl, Nat.le_succ _⟩
    · rw [if_neg hlow]
      by_cases hhigh : c < u' + e
      · rw [if_pos hhigh]
        have := ih hl.tail (Nat.le_add_right v e) (by omega : v + e ≤ u + e) (by omega)
        omega
      · rw [if_neg hhigh]
        exact ih hl.tail (by omega) (by omega) (by omega)

/-- An entry taken out of the list costs nothing. -/
theorem closes_le_insert (hl : Fit c v (l₁ ++ e :: l₂)) (hv : v ≤ u) (hc : u ≤ c) :
    closes c v u (l₁ ++ l₂) ≤ closes c v u (l₁ ++ e :: l₂) := by
  induction l₁ generalizing u with
  | nil =>
    have he := hl.head
    simp only [List.nil_append, closes]
    by_cases hfull : c < u + e
    · rw [if_pos hfull]
      have h := closes_mono hl.tail le_rfl hv hc
      have h' := closes_mono hl.tail le_rfl (Nat.le_add_right v e) he
      omega
    · rw [if_neg hfull]
      exact (closes_mono hl.tail hv (by omega) (by omega)).1
  | cons a l₁ ih =>
    have ha := hl.head
    simp only [List.cons_append, closes]
    split
    · exact Nat.succ_le_succ (ih hl.tail (by omega) ha)
    · exact ih hl.tail (by omega) (by omega)

/-- **An entry put into the list costs at most one page**, if two of its size fit on one. -/
theorem closes_insert_le (hl : Fit c v (l₁ ++ e :: l₂)) (he : v + e + e ≤ c) (hv : v ≤ u) (hc : u ≤ c) :
    closes c v u (l₁ ++ e :: l₂) ≤ closes c v u (l₁ ++ l₂) + 1 := by
  induction l₁ generalizing u with
  | nil =>
    simp only [List.nil_append, closes]
    by_cases hfull : c < u + e
    · rw [if_pos hfull]
      exact Nat.succ_le_succ (closes_mono hl.tail (Nat.le_add_right v e) (by omega) hc).1
    · rw [if_neg hfull]
      exact (closes_mono hl.tail hv (by omega) (by omega)).2
  | cons a l₁ ih =>
    have ha := hl.head
    simp only [List.cons_append, closes]
    split
    · exact Nat.succ_le_succ (ih hl.tail (by omega) ha)
    · exact ih hl.tail (by omega) (by omega)

/-- A list got by leaving entries out closes no more pages. -/
theorem closes_sublist (h : l₁.Sublist l₂) (hl : Fit c v l₂) (hv : v ≤ u) (hc : u ≤ c) :
    closes c v u l₁ ≤ closes c v u l₂ := by
  induction h generalizing u with
  | slnil => exact le_rfl
  | cons a h ih =>
    have hinsert : closes c v u ([] ++ _) ≤ closes c v u ([] ++ a :: _) := closes_le_insert hl hv hc
    exact (ih hl.tail hv hc).trans hinsert
  | cons_cons a h ih =>
    have ha := hl.head
    simp only [closes]
    split
    · exact Nat.succ_le_succ (ih hl.tail (by omega) ha)
    · exact ih hl.tail (by omega) (by omega)

/-- A closed page holds more than `g`, where entries leave that much. -/
theorem closes_mul_le (hl : ∀ e ∈ l, v + e + g ≤ c) (hv : v ≤ u) (hc : u ≤ c) :
    closes c v u l * g ≤ (u - v) + l.sum := by
  induction l generalizing u with
  | nil => simp [closes]
  | cons e l ih =>
    have he := hl e List.mem_cons_self
    have hl' := fun a ha => hl a (List.mem_cons_of_mem e ha)
    simp only [closes, List.sum_cons]
    by_cases hfull : c < u + e
    · rw [if_pos hfull]
      have := ih hl' (u := v + e) (by omega) (by omega)
      rw [Nat.succ_mul]
      omega
    · rw [if_neg hfull]
      have := ih hl' (u := u + e) (by omega) (by omega)
      omega

end NextFit
