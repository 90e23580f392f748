/-
Sums over the rows of a keyed table, and what an upsert or a deletion makes of them.
-/
import Nostrautica.Sql.Keyed

namespace Sql.Keyed

open Js

variable {κ ρ α : Type*} [DecidableEq κ] [AddCommMonoid α] {t : Keyed κ ρ} {k : κ} {p : κ → Bool} {g : ρ → α}

/-- `SELECT COALESCE(SUM(g), 0) FROM t WHERE p`, of a condition on the key. -/
def sum (t : Keyed κ ρ) (p : κ → Bool) (g : ρ → α) : α := ((t.rows.filter fun r => p r.1).map fun r => g r.2).sum

@[simp] theorem sum_empty : (empty : Keyed κ ρ).sum p g = 0 := rfl

theorem sum_put {f : Option ρ → ρ} {d : α} (hnew : g (f none) = d) (hold : ∀ r, g (f (some r)) = g r + d) :
    ∀ l : List (κ × ρ), (((put k (f (look k l)) l).filter fun r => p r.1).map fun r => g r.2).sum =
      ((l.filter fun r => p r.1).map fun r => g r.2).sum + if p k then d else 0
  | [] => by
    rw [put, look]
    cases hp : p k <;> simp [hp, hnew]
  | (k', r) :: l => by
    rw [put, look]
    by_cases hk : k' = k
    · subst hk
      rw [if_pos rfl, if_pos rfl]
      cases hp : p k' with
      | true => simp [hp, hold, add_right_comm]
      | false => simp [hp]
    · rw [if_neg hk, if_neg hk]
      have ih := sum_put hnew hold l
      cases hp : p k' <;> simp [hp, ih, add_assoc]

/-- **An upsert that adds to a row, or makes it**, adds as much to the sums that the row is in. -/
theorem sum_upsert {f : Option ρ → ρ} {d : α} (hnew : g (f none) = d) (hold : ∀ r, g (f (some r)) = g r + d) :
    (t.upsert k f).sum p g = t.sum p g + if p k then d else 0 :=
  sum_put hnew hold t.rows

/-- Rows that a sum leaves out may be deleted. -/
theorem sum_delete {q : κ → Bool} (h : ∀ k, p k = true → q k = false) : (t.delete q).sum p g = t.sum p g := by
  rw [sum, sum, delete, List.filter_filter]
  congr 2
  refine List.filter_congr fun r _ => ?_
  cases hp : p r.1 with
  | true => simp [h r.1 hp]
  | false => simp

omit [DecidableEq κ] in
/-- Nothing is left of a sum over rows that are deleted. -/
theorem sum_deleted {q : κ → Bool} (h : ∀ k, p k = true → q k = true) : (t.delete q).sum p g = 0 := by
  have hnil : (t.delete q).rows.filter (fun r => p r.1) = [] := by
    rw [delete, List.filter_filter, List.filter_eq_nil_iff]
    intro r _ hr
    rw [Bool.and_eq_true, Bool.not_eq_true'] at hr
    exact absurd (h r.1 hr.1) (by simp [hr.2])
  rw [sum, hnil]
  rfl

end Sql.Keyed
