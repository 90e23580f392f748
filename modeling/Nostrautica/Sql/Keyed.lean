/-
Tables with a primary key: at most one row for each key, in the order of
insertion.
-/
import Nostrautica.Js.Map

namespace Sql

open Js

variable {κ ρ : Type*} [DecidableEq κ]

/-- A table keyed by `κ`; `ρ` holds the other columns. -/
structure Keyed (κ ρ : Type*) where
  rows : List (κ × ρ)
  nodup : (rows.map Prod.fst).Nodup

namespace Keyed

variable {t : Keyed κ ρ} {k j : κ} {r : ρ}

def empty : Keyed κ ρ := ⟨[], List.nodup_nil⟩

/-- `SELECT * FROM t WHERE key = ?`. -/
def get? (t : Keyed κ ρ) (k : κ) : Option ρ := look k t.rows

/-- `INSERT INTO t ... ON CONFLICT(key) DO UPDATE`: `f` gives the row from the
one in conflict, if any. -/
def upsert (t : Keyed κ ρ) (k : κ) (f : Option ρ → ρ) : Keyed κ ρ := ⟨put k (f (t.get? k)) t.rows, nodup_put t.nodup⟩

/-- `DELETE FROM t WHERE p`, of a condition on the key. -/
def delete (t : Keyed κ ρ) (p : κ → Bool) : Keyed κ ρ :=
  ⟨t.rows.filter fun r => !p r.1, (List.filter_sublist.map _).nodup t.nodup⟩

theorem mem_rows : (k, r) ∈ t.rows ↔ t.get? k = some r := (look_eq_some t.nodup).symm

@[simp] theorem get?_empty : (empty : Keyed κ ρ).get? k = none := rfl

theorem get?_upsert {f : Option ρ → ρ} : (t.upsert k f).get? j = if k = j then some (f (t.get? k)) else t.get? j :=
  look_put

theorem get?_delete {p : κ → Bool} : (t.delete p).get? k = if p k then none else t.get? k := by
  refine Option.ext fun r => ?_
  rw [← mem_rows, delete, List.mem_filter]
  cases hp : p k with
  | true => simp
  | false => simp [mem_rows]

/-- What only one key's row gives is what that row gives. -/
theorem filterMap_rows {β : Type*} {f : κ → ρ → Option β} :
    ∀ (t : Keyed κ ρ), (∀ p ∈ t.rows, (f p.1 p.2).isSome → p.1 = k) →
      (t.rows.filterMap fun p => f p.1 p.2) = ((t.get? k).bind (f k)).toList
  | ⟨[], _⟩, _ => rfl
  | ⟨(j, r) :: rows, hn⟩, h => by
    have hn' := List.nodup_cons.mp hn
    have ih := filterMap_rows ⟨rows, hn'.2⟩ fun p hp => h p (.tail _ hp)
    simp only [get?] at ih
    simp only [get?, look, List.filterMap_cons, ih]
    by_cases hj : j = k
    · subst hj
      have hnone : look j rows = none := look_eq_none.mpr hn'.1
      rw [if_pos rfl, hnone, Option.bind_some]
      cases f j r <;> rfl
    · have hr : f j r = none := by
        have hs := h (j, r) (.head _)
        cases hf : f j r with
        | none => rfl
        | some b => exact absurd (hs (by rw [hf]; rfl)) hj
      rw [if_neg hj, hr]

end Keyed

end Sql
