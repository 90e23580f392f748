/-
The value that events leave in one place: some events set it, some drop the
value that stands. What stands after a sequence of events is what the latest
of the setting events set, where nothing since dropped it (`latest_eq_some`).
-/
import Mathlib

namespace Latest

variable {ε ω : Type*} (sets : ε → Option ω) (drops : ω → ε → Bool)

/-- The value after one more event. -/
def next (cur : Option ω) (e : ε) : Option ω := (sets e).or (cur.filter fun w => !drops w e)

/-- The value after some events, from none. -/
def latest (es : List ε) : Option ω := es.foldl (next sets drops) none

/-- `w` was set, and since then nothing was set and nothing dropped it. -/
def Stands (es : List ε) (w : ω) : Prop :=
  ∃ before e after, es = before ++ e :: after ∧ sets e = some w ∧ ∀ d ∈ after, sets d = none ∧ drops w d = false

variable {sets drops} {es : List ε} {e : ε} {w : ω}

theorem latest_append : latest sets drops (es ++ [e]) = next sets drops (latest sets drops es) e := by
  simp [latest]

theorem stands_append : Stands sets drops (es ++ [e]) w ↔
    sets e = some w ∨ sets e = none ∧ Stands sets drops es w ∧ drops w e = false := by
  constructor
  · rintro ⟨before, d, after, heq, hd, hafter⟩
    rcases List.eq_nil_or_concat after with rfl | ⟨after, a, rfl⟩
    · obtain ⟨-, hed⟩ := List.append_inj' heq rfl
      cases hed
      exact .inl hd
    · rw [List.concat_eq_append, ← List.cons_append, ← List.append_assoc] at heq
      obtain ⟨rfl, hea⟩ := List.append_inj' heq rfl
      cases hea
      obtain ⟨hn, hdr⟩ := hafter e (by simp)
      exact .inr ⟨hn, ⟨before, d, after, rfl, hd, fun b hb => hafter b (by simp [hb])⟩, hdr⟩
  · rintro (h | ⟨hn, ⟨before, d, after, rfl, hd, hafter⟩, hdr⟩)
    · exact ⟨es, e, [], rfl, h, by simp⟩
    · refine ⟨before, d, after ++ [e], by simp, hd, fun b hb => ?_⟩
      rcases List.mem_append.mp hb with hb | hb
      · exact hafter b hb
      · rw [List.mem_singleton.mp hb]
        exact ⟨hn, hdr⟩

/-- **The latest value is the one that stands.** -/
theorem latest_eq_some : latest sets drops es = some w ↔ Stands sets drops es w := by
  induction es using List.reverseRecOn generalizing w with
  | nil => simp [latest, Stands]
  | append_singleton es e ih =>
    rw [latest_append, stands_append, next]
    cases he : sets e with
    | some v => simp
    | none => simp [Option.filter_eq_some_iff, ih]

/-- A state that moves as the value does, event by event, shows the latest value. -/
theorem eq_latest {σ υ : Type*} {step : σ → ε → σ} {present : ω → υ} (read : σ → Option υ) {I : σ → Prop} {G : ε → Prop}
    {s : σ} (hs : I s) (h0 : read s = none) (keep : ∀ s e, I s → G e → I (step s e))
    (hstep : ∀ s e cur, I s → G e → read s = cur.map present → read (step s e) = (next sets drops cur e).map present) :
    ∀ es, (∀ e ∈ es, G e) → I (es.foldl step s) ∧ read (es.foldl step s) = (latest sets drops es).map present := by
  intro es
  induction es using List.reverseRecOn with
  | nil => exact fun _ => ⟨hs, h0⟩
  | append_singleton es e ih =>
    intro hG
    obtain ⟨hI, hr⟩ := ih fun d hd => hG d (List.mem_append_left _ hd)
    have he : G e := hG e (by simp)
    rw [List.foldl_append, List.foldl_cons, List.foldl_nil, latest_append]
    exact ⟨keep _ e hI he, hstep _ e _ hI he hr⟩

end Latest
