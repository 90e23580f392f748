/-
What holds in every state that a run passes through, and of all that it has written.
-/
import Nostrautica.Transition.Run

namespace Run

variable {σ α : Type*} {Step : σ → α → σ → Prop} {f : σ → α → Option σ} {s t : σ} {as : List α} {a : α}

/-- `Q` holds in each state that the steps labelled `as` pass through from `s`. -/
def Always (Step : σ → α → σ → Prop) (Q : σ → Prop) (s : σ) (as : List α) : Prop :=
  ∀ bs u, bs <+: as → Run Step s bs u → Q u

/-- A property that a step from where it holds keeps just when it meets `G` holds all along a run just when every
step of the run met `G`. -/
theorem always_iff {I Q : σ → Prop} {G : σ → α → Prop} (det : ∀ {s a t u}, Step s a t → Step s a u → t = u)
    (keep : ∀ {s a t}, I s → Step s a t → I t) (next : ∀ {s a t}, I s → Q s → Step s a t → (Q t ↔ G s a))
    (h : Run Step s as t) (hs : I s) (hq : Q s) : Always Step Q s as ↔ Run (fun s a t => Step s a t ∧ G s a) s as t := by
  induction h with
  | nil =>
    refine ⟨fun _ => .nil, fun _ bs u hbs hu => ?_⟩
    rw [List.prefix_nil.1 hbs] at hu
    cases hu
    exact hq
  | @cons s a t as u ha _ ih =>
    constructor
    · intro hall
      have hqt : Q t := hall [a] t (List.prefix_append [a] as) (.cons ha .nil)
      refine .cons ⟨ha, (next hs hq ha).1 hqt⟩ ((ih (keep hs ha) hqt).1 fun bs v hbs hv => ?_)
      exact hall (a :: bs) v ((List.prefix_cons_inj a).2 hbs) (.cons ha hv)
    · intro hrun
      cases hrun with
      | cons hb hrun =>
        cases det ha hb.1
        have hqt := (next hs hq ha).2 hb.2
        intro bs v hbs hv
        cases hv with
        | nil => exact hq
        | cons hc hv =>
          obtain ⟨hhead, htail⟩ := List.cons_prefix_cons.1 hbs
          subst hhead
          cases det ha hc
          exact (ih (keep hs ha) hqt).2 hrun _ _ htail hv

/-- A step writes entries that all have `P` just when it meets `G`. -/
def Writes {β : Type*} (L : σ → List β) (P : β → Prop) (G : σ → α → Prop) (s : σ) (a : α) (t : σ) : Prop :=
  ∃ es, L t = L s ++ es ∧ ((∀ e ∈ es, P e) ↔ G s a)

section

variable {β : Type*} {L : σ → List β} {P : β → Prop} {G : σ → α → Prop} {e : β}

theorem Writes.nothing (h : L t = L s) (hg : G s a) : Writes L P G s a t :=
  ⟨[], by rw [h, List.append_nil], fun _ => hg, fun _ e he => by cases he⟩

theorem Writes.one (h : L t = L s ++ [e]) (hg : P e ↔ G s a) : Writes L P G s a t :=
  ⟨[e], h, List.forall_mem_singleton.trans hg⟩

/-- All that a run has written has `P` just when every step of the run met `G`. -/
theorem log_iff {I : σ → Prop} (det : ∀ {s a t u}, Step s a t → Step s a u → t = u) (keep : ∀ {s a t}, I s → Step s a t → I t)
    (next : ∀ {s a t}, I s → Step s a t → Writes L P G s a t) (h : Run Step s as t) (hs : I s) (hempty : L s = []) :
    (∀ e ∈ L t, P e) ↔ Run (fun s a t => Step s a t ∧ G s a) s as t := by
  have hnext : ∀ {s : σ} {a : α} {t : σ}, I s → Step s a t → ((∀ e ∈ L t, P e) ↔ (∀ e ∈ L s, P e) ∧ G s a) := fun hs ha => by
    obtain ⟨es, hes, hp⟩ := next hs ha
    rw [hes, List.forall_mem_append, hp]
  have hiff : (∀ e ∈ L t, P e) ↔ (∀ e ∈ L s, P e) ∧ Run (fun s a t => Step s a t ∧ G s a) s as t :=
    holds_iff (I := I) (Q := fun s => ∀ e ∈ L s, P e) det keep hnext h hs
  refine hiff.trans (and_iff_right fun e he => ?_)
  rw [hempty] at he
  cases he

end

/-- One label more that meets `G`. -/
theorem Guarded.next {G : σ → α → Prop} (hg : G s a) (ha : f s a = some t) (h : Guarded f G t as) : Guarded f G s (a :: as) :=
  ⟨hg, fun u hu => by
    cases ha.symm.trans hu
    exact h⟩

end Run
