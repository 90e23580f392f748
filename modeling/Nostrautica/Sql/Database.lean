/-
Databases as families of tables, and deletions from them.

A table is the list of its rows. What a sequence of deletions must leave alone
is given by a predicate on rows, table by table (`Keeps`).
-/
import Mathlib

namespace Sql

variable {τ : Type*} {Row : τ → Type*} {α : Type*}

/-- A table for each name. -/
abbrev Database (Row : τ → Type*) := ∀ t, List (Row t)

namespace Database

variable {db db' db'' : Database Row} {t u : τ}

/-- `DELETE FROM t WHERE p`. -/
def delete [DecidableEq τ] (db : Database Row) (t : τ) (p : Row t → Bool) : Database Row :=
  Function.update db t ((db t).filter fun r => !p r)

@[simp] theorem delete_self [DecidableEq τ] {p : Row t → Bool} : db.delete t p t = (db t).filter fun r => !p r := by
  simp [delete]

theorem delete_of_ne [DecidableEq τ] {p : Row t → Bool} (h : u ≠ t) : db.delete t p u = db u := by
  simp [delete, h]

/-- A loop whose steps leave a table alone leaves it alone. -/
theorem foldl_frame {f : Database Row → α → Database Row} (h : ∀ db a, f db a u = db u) :
    ∀ (l : List α) (db : Database Row), l.foldl f db u = db u
  | [], _ => rfl
  | a :: l, db => (foldl_frame h l (f db a)).trans (h db a)

/-- A loop whose steps each delete what `p a` picks deletes what any of them picks. -/
theorem foldl_filter {f : Database Row → α → Database Row} {p : α → Row u → Bool}
    (h : ∀ db a, f db a u = (db u).filter fun r => !p a r) :
    ∀ (l : List α) (db : Database Row), l.foldl f db u = (db u).filter fun r => !l.any fun a => p a r
  | [], db => by simp
  | a :: l, db => by
    rw [List.foldl_cons, foldl_filter h l, h, List.filter_filter]
    refine List.filter_congr fun r _ => ?_
    simp [Bool.and_comm]

/-- Every row that `q` picks is still there, as it was. -/
def Keeps (q : ∀ t, Row t → Bool) (db db' : Database Row) : Prop := ∀ t, (db' t).filter (q t) = (db t).filter (q t)

namespace Keeps

variable {q : ∀ t, Row t → Bool}

theorem refl (db : Database Row) : Keeps q db db := fun _ => rfl

/-- A row that `q` picks is in one exactly when it is in the other. -/
theorem mem_iff (h : Keeps q db db') {r : Row t} (hq : q t r = true) : r ∈ db' t ↔ r ∈ db t := by
  have hm := congrArg (r ∈ ·) (h t)
  simpa only [List.mem_filter, hq, and_true, eq_iff_iff] using hm

/-- A deletion that spares what `q` picks. -/
theorem delete [DecidableEq τ] (h : Keeps q db db') {p : Row t → Bool} (hp : ∀ r ∈ db' t, q t r = true → p r = false) :
    Keeps q db (db'.delete t p) := by
  intro u
  rw [← h u]
  by_cases hu : u = t
  · subst hu
    rw [delete_self, List.filter_filter]
    refine List.filter_congr fun r hr => ?_
    cases hq : q u r with
    | false => rfl
    | true => simp [hp r hr hq]
  · rw [delete_of_ne hu]

theorem foldl (h : Keeps q db db') {f : Database Row → α → Database Row} {l : List α}
    (hf : ∀ db' a, a ∈ l → Keeps q db db' → Keeps q db (f db' a)) : Keeps q db (l.foldl f db') := by
  induction l generalizing db' with
  | nil => exact h
  | cons a l ih => exact ih (hf db' a (.head _) h) fun db'' b hb => hf db'' b (.tail _ hb)

end Keeps

end Database

end Sql
