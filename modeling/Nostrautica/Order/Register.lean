/-
Last-writer-wins maps with a base stamp.

A map of entries stands for a total function: a key it does not name reads as
absent since the base. Entries are compared by a rank in a linear order, and a
merge keeps the higher one at every key and the later of the two bases. Read
through the rank a merge is a pointwise maximum (`rank_read_merge`), which is
where its commutativity, associativity and idempotence come from; an entry
that says no more than the base may be left out of the result (`read_congr`).
-/
import Nostrautica.Js.Map

open Js

/-- The entries of a last-writer-wins map: their rank and stamp, the entry a
base stands for, and the choice between two entries. -/
structure Register (ε ρ β : Type*) [LinearOrder ρ] [LinearOrder β] where
  rank : ε → ρ
  stamp : ε → β
  absent : β → ε
  pick : ε → ε → ε
  rank_pick : ∀ x y, rank (pick x y) = max (rank x) (rank y)
  stamp_pick : ∀ x y, stamp (pick x y) = max (stamp x) (stamp y)
  stamp_absent : ∀ b, stamp (absent b) = b
  rank_absent : ∀ b c, rank (absent (max b c)) = max (rank (absent b)) (rank (absent c))

namespace Register

variable {κ ε ρ β : Type*} [DecidableEq κ] [LinearOrder ρ] [LinearOrder β] (r : Register ε ρ β)

/-- What the map `m` over base `b` says of a key. -/
def read (m : JsMap κ ε) (b : β) (k : κ) : ε := (m.get? k).getD (r.absent b)

/-- The merge of two maps, key by key. -/
def merge (m : JsMap κ ε) (b : β) (n : JsMap κ ε) (c : β) : JsMap κ ε :=
  JsMap.tabulate (m.keys ++ n.keys).eraseDups fun k => r.pick (r.read m b k) (r.read n c k)

/-- No entry is stamped before the base. -/
def Above (m : JsMap κ ε) (b : β) : Prop := ∀ k e, m.get? k = some e → b ≤ r.stamp e

variable {r} {m n : JsMap κ ε} {b c : β} {k : κ}

theorem read_of_get? {e : ε} (h : m.get? k = some e) : r.read m b k = e := by simp [read, h]

theorem read_of_get?_none (h : m.get? k = none) : r.read m b k = r.absent b := by simp [read, h]

theorem get?_merge : (r.merge m b n c).get? k =
    if k ∈ m.keys ∨ k ∈ n.keys then some (r.pick (r.read m b k) (r.read n c k)) else none := by
  simp only [merge, JsMap.get?_tabulate, List.mem_eraseDups, List.mem_append]

theorem get?_none_of_not_mem (h : k ∉ m.keys) : m.get? k = none := by
  rw [JsMap.mem_keys, not_exists] at h
  exact Option.eq_none_iff_forall_ne_some.mpr h

/-- **A merge is a pointwise maximum**, read through the rank. -/
theorem rank_read_merge : r.rank (r.read (r.merge m b n c) (max b c) k) =
    max (r.rank (r.read m b k)) (r.rank (r.read n c k)) := by
  by_cases h : k ∈ m.keys ∨ k ∈ n.keys
  · rw [read_of_get? (get?_merge.trans (if_pos h)), r.rank_pick]
  · have hm := get?_none_of_not_mem fun hm => h (.inl hm)
    have hn := get?_none_of_not_mem fun hn => h (.inr hn)
    rw [read_of_get?_none (get?_merge.trans (if_neg h)), read_of_get?_none hm, read_of_get?_none hn,
      r.rank_absent]

/-- A map above its base reads at or above it everywhere. -/
theorem Above.le_read (h : r.Above m b) : b ≤ r.stamp (r.read m b k) := by
  cases hk : m.get? k with
  | none => rw [read_of_get?_none hk, r.stamp_absent]
  | some e => rw [read_of_get? hk]; exact h k e hk

theorem Above.merge (hm : r.Above m b) (hn : r.Above n c) : r.Above (r.merge m b n c) (max b c) := by
  intro k e he
  rw [get?_merge] at he
  split at he
  · cases he
    rw [r.stamp_pick]
    exact max_le_max hm.le_read hn.le_read
  · cases he

/-- Leaving out entries that rank as the base does changes no reading. -/
theorem read_congr (h : ∀ e, n.get? k = some e → ∃ e', m.get? k = some e' ∧ r.rank e = r.rank e')
    (hn : ∀ e, m.get? k = some e → n.get? k = none → r.rank e = r.rank (r.absent b)) :
    r.rank (r.read n b k) = r.rank (r.read m b k) := by
  cases hk : n.get? k with
  | some e =>
    obtain ⟨e', he', hr⟩ := h e hk
    rw [read_of_get? hk, read_of_get? he', hr]
  | none =>
    rw [read_of_get?_none hk]
    cases hm : m.get? k with
    | none => rw [read_of_get?_none hm]
    | some e => rw [read_of_get? hm, hn e hm hk]

end Register
