/-
Runs of a labelled step relation, and what their steps preserve.
-/
import Mathlib

/-- The states reached from `s` by the steps labelled `as`, one after the other. -/
inductive Run {σ α : Type*} (Step : σ → α → σ → Prop) : σ → List α → σ → Prop
  | nil {s} : Run Step s [] s
  | cons {s a t as u} : Step s a t → Run Step t as u → Run Step s (a :: as) u

namespace Run

variable {σ α : Type*} {Step : σ → α → σ → Prop} {s t u : σ} {as bs : List α} {a : α}

theorem append (h : Run Step s as t) (k : Run Step t bs u) : Run Step s (as ++ bs) u := by
  induction h with
  | nil => exact k
  | cons ha _ ih => exact .cons ha (ih k)

theorem snoc (h : Run Step s as t) (ha : Step t a u) : Run Step s (as ++ [a]) u := h.append (.cons ha .nil)

theorem mono {T : σ → α → σ → Prop} (sub : ∀ s a t, Step s a t → T s a t) (h : Run Step s as t) : Run T s as t := by
  induction h with
  | nil => exact .nil
  | cons ha _ ih => exact .cons (sub _ _ _ ha) ih

/-- A property that every step keeps holds after a run. -/
theorem invariant {I : σ → Prop} (keep : ∀ s a t, I s → Step s a t → I t) (h : Run Step s as t) (hs : I s) : I t := by
  induction h with
  | nil => exact hs
  | cons ha _ ih => exact ih (keep _ _ _ hs ha)

/-- The same of a property that the steps with certain labels keep. -/
theorem invariant_of {I : σ → Prop} {G : α → Prop} (keep : ∀ s a t, I s → G a → Step s a t → I t)
    (h : Run Step s as t) (hg : ∀ a ∈ as, G a) (hs : I s) : I t := by
  induction h with
  | nil => exact hs
  | cons ha _ ih => exact ih (fun b hb => hg b (.tail _ hb)) (keep _ _ _ hs (hg _ (.head _)) ha)

/-- A property that a step keeps just when it meets `G` holds after a run just
when every step of the run met `G`. -/
theorem holds_iff {I Q : σ → Prop} {G : σ → α → Prop} (det : ∀ {s a t u}, Step s a t → Step s a u → t = u)
    (keep : ∀ {s a t}, I s → Step s a t → I t) (next : ∀ {s a t}, I s → Step s a t → (Q t ↔ Q s ∧ G s a))
    (h : Run Step s as t) (hs : I s) : Q t ↔ Q s ∧ Run (fun s a t => Step s a t ∧ G s a) s as t := by
  induction h with
  | nil => exact ⟨fun hq => ⟨hq, .nil⟩, fun hq => hq.1⟩
  | cons ha _ ih =>
    rw [ih (keep hs ha), next hs ha]
    constructor
    · rintro ⟨⟨hq, hg⟩, hrun⟩
      exact ⟨hq, .cons ⟨ha, hg⟩ hrun⟩
    · rintro ⟨hq, hrun⟩
      cases hrun with
      | cons hb hrun =>
        cases det ha hb.1
        exact ⟨⟨hq, hb.2⟩, hrun⟩

/-- What a partial function makes of a state by the labels `as`, one after the other. -/
def exec (f : σ → α → Option σ) (s : σ) : List α → Option σ
  | [] => some s
  | a :: as => (f s a).bind fun t => exec f t as

theorem of_exec {f : σ → α → Option σ} : ∀ {as s}, exec f s as = some t → Run (fun s a t => f s a = some t) s as t
  | [], _, h => by
    cases h
    exact .nil
  | _ :: _, _, h => by
    obtain ⟨_, ha, h⟩ := Option.bind_eq_some_iff.mp h
    exact .cons ha (of_exec h)

/-- Each of the labels `as` meets `G` where `f` comes to it. -/
def Guarded (f : σ → α → Option σ) (G : σ → α → Prop) (s : σ) : List α → Prop
  | [] => True
  | a :: as => G s a ∧ ∀ t, f s a = some t → Guarded f G t as

theorem of_guarded {f : σ → α → Option σ} {G : σ → α → Prop} : ∀ {as s}, exec f s as = some t → Guarded f G s as →
    Run (fun s a t => f s a = some t ∧ G s a) s as t
  | [], _, h, _ => by
    cases h
    exact .nil
  | _ :: _, _, h, hg => by
    obtain ⟨u, ha, h⟩ := Option.bind_eq_some_iff.mp h
    exact .cons ⟨ha, hg.1⟩ (of_guarded h (hg.2 u ha))

end Run
