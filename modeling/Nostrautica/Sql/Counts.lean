/-
Updates of one row of a table, and how many rows meet a condition.
-/
import Nostrautica.Sql.Keyed

namespace Sql.Keyed

open Js

variable {κ ρ : Type*} [DecidableEq κ] {t : Keyed κ ρ} {k j : κ} {r : ρ} {p : κ → ρ → Bool}

/-- `UPDATE t SET ... WHERE key = ?`. -/
def update (t : Keyed κ ρ) (k : κ) (f : ρ → ρ) : Keyed κ ρ :=
  match t.get? k with
  | none => t
  | some row => t.upsert k fun _ => f row

/-- `SELECT COUNT(*) FROM t WHERE p`. -/
def count (t : Keyed κ ρ) (p : κ → ρ → Bool) : Nat := t.rows.countP fun r => p r.1 r.2

theorem get?_update {f : ρ → ρ} : (t.update k f).get? j = if k = j then (t.get? k).map f else t.get? j := by
  unfold update
  cases h : t.get? k with
  | none =>
    simp only [Option.map_none]
    split
    · next hk => rw [← hk, h]
    · rfl
  | some row =>
    rw [Option.map_some]
    exact get?_upsert

theorem countP_put_le {v : ρ} : ∀ {l : List (κ × ρ)}, (put k v l).countP (fun r => p r.1 r.2) ≤ l.countP (fun r => p r.1 r.2) + 1
  | [] => by
    rw [put, List.countP_singleton]
    split <;> simp
  | (k', v') :: l => by
    rw [put]
    split
    · rw [List.countP_cons, List.countP_cons]
      split <;> split <;> omega
    · rw [List.countP_cons, List.countP_cons]
      have := countP_put_le (v := v) (l := l)
      omega

/-- A row that meets the condition only where the one before it did leaves no more of them. -/
theorem countP_put_le_of {v : ρ} : ∀ {l : List (κ × ρ)}, (p k v = true → ∃ r, look k l = some r ∧ p k r = true) →
    (put k v l).countP (fun r => p r.1 r.2) ≤ l.countP fun r => p r.1 r.2
  | [], h => by
    have hv : ¬p k v = true := fun hv => by
      obtain ⟨_, hr, _⟩ := h hv
      cases hr
    rw [put, List.countP_singleton, if_neg hv]
    exact Nat.zero_le _
  | (k', v') :: l, h => by
    rw [put]
    rw [look] at h
    split
    · next hk =>
      subst hk
      rw [if_pos rfl] at h
      rw [List.countP_cons, List.countP_cons]
      by_cases hv : p k' v = true
      · obtain ⟨r, hr, hp⟩ := h hv
        cases hr
        rw [if_pos hv, if_pos hp]
      · rw [if_neg hv]
        omega
    · next hk =>
      rw [if_neg hk] at h
      rw [List.countP_cons, List.countP_cons]
      have := countP_put_le_of h
      omega

theorem count_upsert_le {f : Option ρ → ρ} : (t.upsert k f).count p ≤ t.count p + 1 := countP_put_le

theorem count_upsert_le_of {f : Option ρ → ρ} (h : p k (f (t.get? k)) = true → ∃ r, t.get? k = some r ∧ p k r = true) :
    (t.upsert k f).count p ≤ t.count p :=
  countP_put_le_of h

theorem count_update_le {f : ρ → ρ} (h : ∀ r, p k (f r) = true → p k r = true) : (t.update k f).count p ≤ t.count p := by
  unfold update
  cases hr : t.get? k with
  | none => exact le_rfl
  | some row => exact count_upsert_le_of fun hp => ⟨row, hr, h row hp⟩

theorem count_empty : (empty : Keyed κ ρ).count p = 0 := rfl

end Sql.Keyed
