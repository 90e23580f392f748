/-
Tasks that share a store and run to completion between await points.

A task waits at a point. When what it waits for settles, it goes on without
interruption to its next point, or ends, and its effects reach the store in
order. At some points it holds a lock, which it took from a free state when it
went on from a point where it waited for it. A crash keeps the effects that
reached the store before it and drops every task.
-/
import Mathlib

namespace Tasks

/-- The store, the point each task waits at, and the task that holds each lock. -/
structure World (κ lam σ π : Type*) where
  store : σ
  tasks : κ → Option π
  locks : lam → Option κ

/-- What an effect does, the lock a task holds at a point, and the lock it
takes when it goes on from there. -/
structure Rules (κ lam σ ε π : Type*) where
  apply : σ → ε → σ
  held : κ → π → Option lam
  wanted : κ → π → Option lam

variable {κ lam σ ε π : Type*} {S : Rules κ lam σ ε π} {w : World κ lam σ π} {k j : κ} {p q : π} {l : lam}
  {es fs : List ε} {e : ε} {s : σ} {next : Option π}

/-! ## Effects -/

namespace Rules

/-- The store after effects, in order. -/
def run (S : Rules κ lam σ ε π) (s : σ) (es : List ε) : σ := es.foldl S.apply s

/-- Whether the lock a task takes next is free. -/
def ready (S : Rules κ lam σ ε π) (w : World κ lam σ π) (k : κ) (p : π) : Bool :=
  (S.wanted k p).all fun l => (w.locks l).isNone

/-- A lock is held by the task that waits at a point where it holds it. -/
def Owned (S : Rules κ lam σ ε π) (w : World κ lam σ π) : Prop :=
  ∀ l k, w.locks l = some k ↔ ∃ p, w.tasks k = some p ∧ S.held k p = some l

@[simp] theorem run_nil : S.run s [] = s := rfl

@[simp] theorem run_cons : S.run s (e :: es) = S.run (S.apply s e) es := rfl

@[simp] theorem run_append : S.run s (es ++ fs) = S.run (S.run s es) fs := List.foldl_append ..

/-- What each effect keeps, their run keeps. -/
theorem run_invariant {I : σ → Prop} (keep : ∀ e ∈ es, ∀ s, I s → I (S.apply s e)) (hs : I s) : I (S.run s es) := by
  induction es generalizing s with
  | nil => exact hs
  | cons e es ih => exact ih (fun e' he' => keep e' (.tail _ he')) (keep e (.head _) s hs)

/-- A value that no effect changes is as it was. -/
theorem run_eq {α : Type*} {f : σ → α} (keep : ∀ e ∈ es, ∀ s, f (S.apply s e) = f s) : f (S.run s es) = f s :=
  run_invariant (I := fun t => f t = f s) (fun e he t ht => (keep e he t).trans ht) rfl

theorem ready_of_wanted (h : S.ready w k p = true) (hl : S.wanted k p = some l) : w.locks l = none := by
  simpa [ready, hl] using h

end Rules

namespace World

/-- No task, over what is left of the store. -/
def fresh (s : σ) : World κ lam σ π := ⟨s, fun _ => none, fun _ => none⟩

@[simp] theorem fresh_store : (fresh s : World κ lam σ π).store = s := rfl

@[simp] theorem fresh_tasks : (fresh s : World κ lam σ π).tasks k = none := rfl

theorem owned_fresh : S.Owned (fresh s) := by
  intro l k
  simp [fresh]

end World

/-- **At most one task holds a lock.** -/
theorem Rules.Owned.unique (h : S.Owned w) (hj : w.tasks j = some p) (hp : S.held j p = some l)
    (hk : w.tasks k = some q) (hq : S.held k q = some l) : j = k :=
  Option.some.inj (((h l j).mpr ⟨p, hj, hp⟩).symm.trans ((h l k).mpr ⟨q, hk, hq⟩))

/-- Where a task takes a lock, no task holds it. -/
theorem Rules.Owned.not_held (h : S.Owned w) (hr : S.ready w k p = true) (hl : S.wanted k p = some l)
    (hj : w.tasks j = some q) : S.held j q ≠ some l := by
  intro hq
  have hlj := (h l j).mpr ⟨q, hj, hq⟩
  rw [ready_of_wanted hr hl] at hlj
  cases hlj

/-! ## Steps -/

section Steps

variable [DecidableEq κ]

/-- A new task. -/
def World.spawn (w : World κ lam σ π) (k : κ) (p : π) : World κ lam σ π :=
  { w with tasks := Function.update w.tasks k (some p) }

/-- A task goes on: its effects, and the point it reaches, if any. -/
def Rules.advance [DecidableEq lam] (S : Rules κ lam σ ε π) (w : World κ lam σ π) (k : κ) (es : List ε)
    (next : Option π) : World κ lam σ π where
  store := S.run w.store es
  tasks := Function.update w.tasks k next
  locks l := if next.bind (S.held k) = some l then some k else if w.locks l = some k then none else w.locks l

namespace World

@[simp] theorem spawn_store : (w.spawn k p).store = w.store := rfl

@[simp] theorem spawn_locks : (w.spawn k p).locks = w.locks := rfl

theorem spawn_tasks : (w.spawn k p).tasks j = if j = k then some p else w.tasks j := by
  simp [spawn, Function.update_apply]

end World

theorem Rules.Owned.spawn (h : S.Owned w) (hk : w.tasks k = none) (hp : S.held k p = none) : S.Owned (w.spawn k p) := by
  intro l j
  rw [World.spawn_locks, h l j, World.spawn_tasks]
  by_cases hj : j = k
  · subst hj
    simp [hk, hp]
  · simp [hj]

variable [DecidableEq lam]

namespace Rules

@[simp] theorem advance_store : (S.advance w k es next).store = S.run w.store es := rfl

theorem advance_tasks : (S.advance w k es next).tasks j = if j = k then next else w.tasks j := by
  simp [advance, Function.update_apply]

/-- **Going on keeps the locks owned**, where a task takes only the lock it waited for. -/
theorem Owned.advance (h : S.Owned w) (hp : w.tasks k = some p) (hr : S.ready w k p = true)
    (hn : ∀ l, next.bind (S.held k) = some l → S.held k p = some l ∨ S.wanted k p = some l) :
    S.Owned (S.advance w k es next) := by
  intro l j
  have hkeep : j ≠ k → next.bind (S.held k) = some l → w.locks l ≠ some j := by
    intro hj hl hw
    rcases hn l hl with hheld | hwanted
    · have hk := (h l k).mpr ⟨p, hp, hheld⟩
      rw [hk] at hw
      exact hj (Option.some.inj hw).symm
    · rw [ready_of_wanted hr hwanted] at hw
      cases hw
  rw [advance_tasks]
  simp only [Rules.advance]
  by_cases hj : j = k
  · subst hj
    rw [if_pos rfl, ← Option.bind_eq_some_iff]
    constructor
    · intro hw
      by_contra hne
      rw [if_neg hne] at hw
      split at hw
      · cases hw
      next hl => exact hl hw
    · exact fun hl => if_pos hl
  · rw [if_neg hj, ← h l j]
    split
    next hl => exact ⟨fun hkj => absurd (Option.some.inj hkj).symm hj, fun hw => absurd hw (hkeep hj hl)⟩
    · split
      next hl => exact ⟨nofun, fun hw => absurd (Option.some.inj (hw.symm.trans hl)) hj⟩
      · exact Iff.rfl

end Rules

end Steps

end Tasks
