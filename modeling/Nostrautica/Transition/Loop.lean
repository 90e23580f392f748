/-
Computations that may fail or go on for ever, and loops of them. A loop is run for a
bounded number of passes; one that a measure decreases under ends within as many.
-/
import Mathlib

/-- What a computation has come to within its bound. -/
inductive Walk (ε α : Type*)
  | done (a : α)
  | failed (e : ε)
  | running
  deriving DecidableEq

namespace Walk

variable {ε α β σ ρ : Type*}

instance : Monad (Walk ε) where
  pure := done
  bind x f :=
    match x with
    | done a => f a
    | failed e => failed e
    | running => running

@[simp] theorem pure_eq (a : α) : (pure a : Walk ε α) = done a := rfl

@[simp] theorem done_bind {ε α β : Type _} (a : α) (f : α → Walk ε β) : (done a >>= f) = f a := rfl

@[simp] theorem failed_bind {ε α β : Type _} (e : ε) (f : α → Walk ε β) : (failed e >>= f) = failed e := rfl

@[simp] theorem running_bind {ε α β : Type _} (f : α → Walk ε β) : (running >>= f) = running := rfl

theorem bind_eq_done {ε α β : Type _} {x : Walk ε α} {f : α → Walk ε β} {b : β} :
    x >>= f = done b ↔ ∃ a, x = done a ∧ f a = done b := by
  cases x <;> simp

/-- What is left after a pass that goes on, or the result of the last one. -/
inductive Pass (σ ρ : Type*)
  | next (s : σ)
  | stop (r : ρ)
  deriving DecidableEq

/-- A loop, for a number of passes at most. -/
def loop (body : σ → Walk ε (Pass σ ρ)) : Nat → σ → Walk ε ρ
  | 0, _ => running
  | fuel + 1, s =>
    match body s with
    | done (.next t) => loop body fuel t
    | done (.stop r) => done r
    | failed e => failed e
    | running => running

/-! ## Ends -/

/-- The computation has ended, and if it returned then with a result in `P`. -/
def Ends (m : Walk ε α) (P : α → Prop) : Prop := m ≠ running ∧ ∀ a, m = done a → P a

namespace Ends

variable {m : Walk ε α} {P Q : α → Prop}

theorem done {a : α} (h : P a) : Ends (Walk.done a : Walk ε α) P := ⟨nofun, fun _ he => by cases he; exact h⟩

theorem failed {e : ε} : Ends (Walk.failed e) P := ⟨nofun, nofun⟩

theorem mono (h : Ends m P) (hPQ : ∀ a, P a → Q a) : Ends m Q := ⟨h.1, fun a ha => hPQ a (h.2 a ha)⟩

theorem bind {ε α β : Type _} {m : Walk ε α} {P : α → Prop} {f : α → Walk ε β} {Q : β → Prop} (h : Ends m P)
    (hf : ∀ a, P a → Ends (f a) Q) : Ends (m >>= f) Q := by
  cases m with
  | done a => exact hf a (h.2 a rfl)
  | failed e => exact failed
  | running => exact absurd rfl h.1

theorem map {ε α β : Type _} {m : Walk ε α} {P : α → Prop} {Q : β → Prop} {f : α → β} (h : Ends m P) (hf : ∀ a, P a → Q (f a)) :
    Ends (f <$> m) Q := by
  cases m with
  | done a => exact .done (hf a (h.2 a rfl))
  | failed e => exact failed
  | running => exact absurd rfl h.1

theorem ite {c : Prop} [Decidable c] {n : Walk ε α} (ht : c → Ends m P) (he : ¬c → Ends n P) : Ends (if c then m else n) P := by
  split
  next hc => exact ht hc
  next hc => exact he hc

end Ends

/-- What a pass of a loop leaves: a smaller state that keeps the invariant, or a result. -/
def Decreases (μ : σ → Nat) (I : σ → Prop) (P : ρ → Prop) (s : σ) : Pass σ ρ → Prop
  | .next t => I t ∧ μ t < μ s
  | .stop r => P r

/-- **A loop whose passes decrease a measure ends**, in no more passes than the measure. -/
theorem Ends.loop {body : σ → Walk ε (Pass σ ρ)} {μ : σ → Nat} {I : σ → Prop} {P : ρ → Prop}
    (hbody : ∀ s, I s → Ends (body s) (Decreases μ I P s)) : ∀ {fuel s}, I s → μ s < fuel → Ends (Walk.loop body fuel s) P
  | 0, _, _, hlt => absurd hlt (Nat.not_lt_zero _)
  | fuel + 1, s, hs, hlt => by
    have h := hbody s hs
    unfold Walk.loop
    cases hb : body s with
    | running => exact absurd hb h.1
    | failed e => exact .failed
    | done p =>
      cases p with
      | stop r => exact .done (h.2 _ hb)
      | next t =>
        obtain ⟨ht, hdec⟩ := h.2 _ hb
        exact Ends.loop hbody ht (by omega)

/-- A loop that comes back to where it was goes on for ever. -/
theorem loop_running {body : σ → Walk ε (Pass σ ρ)} {s : σ} (h : body s = done (.next s)) : ∀ fuel, Walk.loop body fuel s = running
  | 0 => rfl
  | fuel + 1 => by
    unfold Walk.loop
    rw [h]
    exact loop_running h fuel

/-! ## Results -/

/-- What a loop returns has the property that its last pass gives, where every pass keeps an invariant. -/
theorem loop_done {body : σ → Walk ε (Pass σ ρ)} {I : σ → Prop} {P : ρ → Prop} (hnext : ∀ s t, I s → body s = done (.next t) → I t)
    (hstop : ∀ s r, I s → body s = done (.stop r) → P r) : ∀ {fuel s r}, I s → Walk.loop body fuel s = done r → P r
  | 0, _, _, _, h => by cases h
  | fuel + 1, s, r, hs, h => by
    unfold Walk.loop at h
    cases hb : body s with
    | running | failed =>
      rw [hb] at h
      cases h
    | done p =>
      rw [hb] at h
      cases p with
      | next t => exact loop_done hnext hstop (hnext s t hs hb) h
      | stop q =>
        cases h
        exact hstop s _ hs hb

end Walk
