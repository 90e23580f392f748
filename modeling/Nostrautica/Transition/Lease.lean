/-
Leases on keyed resources, told by a log of what happened to them.

A lease is taken under a token, and is over when its holder ends it or when it
lapses. A log is legal when a lease is only taken on a free resource and only
the lease that is held is ended or lapses. In a legal log whose tokens are
taken once each, no lease is over twice (`Log.Legal.closings_le_one`).
-/
import Mathlib

namespace Lease

variable {κ τ : Type*}

inductive Event (κ τ : Type*)
  | taken (k : κ) (t : τ)
  | ended (k : κ) (t : τ)
  | lapsed (k : κ) (t : τ)
  deriving DecidableEq

namespace Event

def key : Event κ τ → κ
  | taken k _ | ended k _ | lapsed k _ => k

/-- The lease of token `t` is over. -/
def closes [DecidableEq τ] (t : τ) : Event κ τ → Bool
  | taken _ _ => false
  | ended _ u | lapsed _ u => u = t

end Event

/-- A log, newest event first. -/
abbrev Log (κ τ : Type*) := List (Event κ τ)

namespace Log

/-- The token under which a resource is held. -/
def holder [DecidableEq κ] : Log κ τ → κ → Option τ
  | [], _ => none
  | .taken k t :: log, j => if k = j then some t else holder log j
  | .ended k _ :: log, j | .lapsed k _ :: log, j => if k = j then none else holder log j

/-- The last event about `k` is its taking under `t`. -/
def Standing (log : Log κ τ) (k : κ) (t : τ) : Prop :=
  ∃ later earlier, log = later ++ .taken k t :: earlier ∧ ∀ e ∈ later, e.key ≠ k

/-- The tokens taken, newest first. -/
def tokens : Log κ τ → List τ
  | [] => []
  | .taken _ t :: log => t :: tokens log
  | .ended _ _ :: log | .lapsed _ _ :: log => tokens log

/-- Leases are taken on free resources, and only the lease held is over. -/
def Legal [DecidableEq κ] : Log κ τ → Prop
  | [] => True
  | .taken k _ :: log => holder log k = none ∧ Legal log
  | .ended k t :: log | .lapsed k t :: log => holder log k = some t ∧ Legal log

/-- How often the lease of token `t` is over. -/
def closings [DecidableEq τ] (log : Log κ τ) (t : τ) : Nat := log.countP (Event.closes t)

end Log

open Log

variable {log : Log κ τ} {k j : κ} {t u : τ}

theorem standing_cons {e : Event κ τ} (h : e.key ≠ k) : Standing (e :: log) k t ↔ Standing log k t := by
  constructor
  · rintro ⟨later, earlier, heq, hl⟩
    cases later with
    | nil =>
      simp only [List.nil_append, List.cons.injEq] at heq
      obtain ⟨rfl, rfl⟩ := heq
      exact absurd rfl h
    | cons d later =>
      simp only [List.cons_append, List.cons.injEq] at heq
      exact ⟨later, earlier, heq.2, fun e he => hl e (.tail _ he)⟩
  · rintro ⟨later, earlier, rfl, hl⟩
    exact ⟨e :: later, earlier, rfl, List.forall_mem_cons.mpr ⟨h, hl⟩⟩

theorem standing_cons_self {e : Event κ τ} (h : e.key = k) : Standing (e :: log) k t ↔ e = .taken k t := by
  constructor
  · rintro ⟨later, earlier, heq, hl⟩
    cases later with
    | nil => exact (List.cons.inj heq).1
    | cons d later =>
      obtain ⟨rfl, -⟩ := List.cons.inj heq
      exact absurd h (hl _ (.head _))
  · rintro rfl
    exact ⟨[], log, rfl, by simp⟩

theorem tokens_lapses : ∀ ps : List (κ × τ), tokens (ps.map (fun p => .lapsed p.1 p.2) ++ log) = tokens log
  | [] => rfl
  | _ :: ps => tokens_lapses ps

variable [DecidableEq κ]

/-- The holder's lease is the one that stands. -/
theorem holder_eq_some : ∀ {log : Log κ τ}, holder log k = some t ↔ Standing log k t
  | [] => by simp [holder, Standing]
  | .taken j u :: log => by
    by_cases h : j = k
    · rw [standing_cons_self (by exact h), holder, if_pos h]
      simp [h]
    · rw [standing_cons (by exact h), holder, if_neg h, holder_eq_some]
  | .ended j u :: log | .lapsed j u :: log => by
    by_cases h : j = k
    · rw [standing_cons_self (by exact h), holder, if_pos h]
      simp
    · rw [standing_cons (by exact h), holder, if_neg h, holder_eq_some]

theorem mem_tokens_of_holder : ∀ {l : Log κ τ}, holder l k = some t → t ∈ tokens l
  | .taken j u :: log, h => by
    simp only [holder] at h
    split at h
    · cases h
      exact .head _
    · exact .tail _ (mem_tokens_of_holder h)
  | .ended j u :: log, h | .lapsed j u :: log, h => by
    simp only [holder] at h
    split at h
    · cases h
    · exact mem_tokens_of_holder (l := log) h

/-- Of the tokens taken once each, one holds at most one resource. -/
theorem holder_inj : ∀ {l : Log κ τ}, (tokens l).Nodup → holder l k = some t → holder l j = some t → k = j
  | .taken i u :: log, hn, hk, hj => by
    obtain ⟨hu, hn⟩ := List.nodup_cons.mp hn
    simp only [holder] at hk hj
    split at hk <;> split at hj
    next h h' => exact h.symm.trans h'
    next h h' => cases hk; exact absurd (mem_tokens_of_holder hj) hu
    next h h' => cases hj; exact absurd (mem_tokens_of_holder hk) hu
    next => exact holder_inj hn hk hj
  | .ended i u :: log, hn, hk, hj | .lapsed i u :: log, hn, hk, hj => by
    simp only [holder] at hk hj
    split at hk
    · cases hk
    · split at hj
      · cases hj
      · exact holder_inj (l := log) hn hk hj

/-- The leases of different resources lapse together. -/
theorem holder_lapses : ∀ {ps : List (κ × τ)},
    holder (ps.map (fun p => .lapsed p.1 p.2) ++ log) k = if k ∈ ps.map Prod.fst then none else holder log k
  | [] => by simp
  | p :: ps => by
    rw [List.map_cons, List.cons_append, holder, holder_lapses, List.map_cons]
    by_cases h : p.1 = k
    · rw [if_pos h, if_pos (h ▸ List.mem_cons_self)]
    · have hk : k ≠ p.1 := Ne.symm h
      simp only [if_neg h, List.mem_cons, hk, false_or]

theorem Log.Legal.lapses (h : Legal log) : ∀ {ps : List (κ × τ)}, (ps.map Prod.fst).Nodup →
    (∀ p ∈ ps, holder log p.1 = some p.2) → Legal (ps.map (fun p => .lapsed p.1 p.2) ++ log)
  | [], _, _ => h
  | p :: ps, hn, hp => by
    rw [List.map_cons, List.nodup_cons] at hn
    rw [List.map_cons, List.cons_append, Legal]
    refine ⟨?_, Legal.lapses h hn.2 fun q hq => hp q (.tail _ hq)⟩
    rw [holder_lapses, if_neg hn.1]
    exact hp p (.head _)

variable [DecidableEq τ]

/-- A lease that is over was taken, and holds nothing any more. -/
theorem Log.Legal.of_closes : ∀ {l : Log κ τ}, Legal l → (tokens l).Nodup →
    closings l t ≤ 1 ∧ (closings l t = 1 → t ∈ tokens l ∧ ∀ k, holder l k ≠ some t)
  | [], _, _ => by simp [closings]
  | .taken i u :: log, hl, hn => by
    obtain ⟨hu, hn⟩ := List.nodup_cons.mp hn
    obtain ⟨h1, h2⟩ := Legal.of_closes hl.2 hn
    have hc : closings (.taken i u :: log) t = closings log t := by simp [closings, Event.closes]
    rw [hc]
    refine ⟨h1, fun h => ?_⟩
    obtain ⟨ht, hf⟩ := h2 h
    refine ⟨.tail _ ht, fun k hk => ?_⟩
    simp only [holder] at hk
    split at hk
    · cases hk
      exact hu ht
    · exact hf k hk
  | .ended i u :: log, hl, hn | .lapsed i u :: log, hl, hn => by
    obtain ⟨hi, hl⟩ := hl
    obtain ⟨h1, h2⟩ := Legal.of_closes (l := log) hl hn
    by_cases h : u = t
    · subst h
      have h0 : closings log u = 0 := by
        by_contra h0
        exact (h2 (by omega)).2 i hi
      simp only [closings] at h0
      simp only [closings, List.countP_cons, Event.closes, decide_true, if_true, h0]
      refine ⟨le_refl 1, fun _ => ⟨mem_tokens_of_holder (l := log) hi, fun k hk => ?_⟩⟩
      simp only [holder] at hk
      split at hk
      · cases hk
      next hik => exact hik (holder_inj (l := log) hn hi hk)
    · simp only [closings] at h1 h2
      simp only [closings, List.countP_cons, Event.closes, h, decide_false, Bool.false_eq_true, if_false, Nat.add_zero]
      refine ⟨h1, fun he => ⟨(h2 he).1, fun k hk => ?_⟩⟩
      simp only [holder] at hk
      split at hk
      · cases hk
      · exact (h2 he).2 k hk

/-- **No lease is over twice**, where each token is taken once. -/
theorem Log.Legal.closings_le_one (h : Legal log) (hn : (tokens log).Nodup) : closings log t ≤ 1 := (h.of_closes hn).1

end Lease
