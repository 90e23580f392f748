/-
Texts as lines, and lines cut at landmarks: what a line of a text is when texts are
appended, and when a cut gives back the sections that were put together.
-/
import Mathlib.Data.List.Basic

namespace Nostrautica.Lines

variable {α β : Type*}

/-! ## Lines -/

section split

variable [BEq α] {sep c : α} {s t : List α}

/-- The last line of a text and the first of the next are one line. -/
theorem splitOn_append {xs ys : List (List α)} {w v : List α} (hs : s.splitOn sep = xs ++ [w]) (ht : t.splitOn sep = v :: ys) :
    (s ++ t).splitOn sep = xs ++ (w ++ v) :: ys := by
  induction s generalizing xs w with
  | nil =>
    rw [List.splitOn_nil] at hs
    obtain ⟨rfl, hw⟩ := List.append_eq_singleton_iff.mp hs.symm |>.resolve_right fun h => by simp at h
    rw [List.singleton_inj.mp hw, List.nil_append, List.nil_append, ht, List.nil_append]
  | cons c s ih =>
    rw [List.splitOn_cons_eq_if_modifyHead] at hs
    rw [List.cons_append, List.splitOn_cons_eq_if_modifyHead]
    split at hs
    · next hc =>
      rw [if_pos hc]
      cases xs with
      | nil =>
        obtain ⟨-, hnil⟩ := List.cons.inj hs
        exact absurd hnil (List.splitOn_ne_nil sep s)
      | cons x xs =>
        obtain ⟨rfl, hrest⟩ := List.cons.inj hs
        rw [ih hrest, List.cons_append]
    · next hc =>
      rw [if_neg hc]
      obtain ⟨u, us, hu⟩ := List.exists_cons_of_ne_nil (List.splitOn_ne_nil sep s)
      rw [hu, List.modifyHead_cons] at hs
      cases xs with
      | nil =>
        obtain ⟨rfl, rfl⟩ := List.cons.inj hs
        have h : (s ++ t).splitOn sep = [] ++ (u ++ v) :: ys := ih hu
        rw [h]
        rfl
      | cons x xs =>
        obtain ⟨rfl, rfl⟩ := List.cons.inj hs
        have h : (s ++ t).splitOn sep = (u :: xs) ++ (w ++ v) :: ys := ih hu
        rw [h]
        rfl

variable [LawfulBEq α]

theorem not_mem_of_mem_splitOn {l : List α} (h : l ∈ s.splitOn sep) : sep ∉ l := by
  induction s generalizing l with
  | nil =>
    rw [List.splitOn_nil, List.mem_singleton] at h
    rw [h]
    exact List.not_mem_nil
  | cons c s ih =>
    rw [List.splitOn_cons_eq_if_modifyHead] at h
    split at h
    · rcases List.mem_cons.mp h with rfl | h
      · exact List.not_mem_nil
      · exact ih h
    · next hc =>
      obtain ⟨u, us, hu⟩ := List.exists_cons_of_ne_nil (List.splitOn_ne_nil sep s)
      rw [hu, List.modifyHead_cons] at h
      rcases List.mem_cons.mp h with rfl | h
      · intro hm
        rcases List.mem_cons.mp hm with rfl | hm
        · exact hc (beq_self_eq_true sep)
        · exact ih (hu ▸ List.mem_cons_self) hm
      · exact ih (hu ▸ List.mem_cons_of_mem u h)

/-- The lines after a text's first. -/
def later (sep : α) (s : List α) : List (List α) := (s.splitOn sep).tail

theorem later_eq_nil (h : sep ∉ s) : later sep s = [] := by
  unfold later
  rw [List.splitOn_eq_singleton h]
  rfl

/-- A line that a text without a break begins. -/
theorem splitOn_append_of_not_mem (h : sep ∉ s) :
    ∃ v, (s ++ t).splitOn sep = (s ++ v) :: later sep t := by
  obtain ⟨v, ys, ht⟩ := List.exists_cons_of_ne_nil (List.splitOn_ne_nil sep t)
  have hs : s.splitOn sep = [] ++ [s] := List.splitOn_eq_singleton h
  refine ⟨v, ?_⟩
  unfold later
  rw [splitOn_append hs ht, ht]
  rfl

theorem later_append_of_not_mem (h : sep ∉ s) : later sep (s ++ t) = later sep t := by
  obtain ⟨v, hv⟩ : ∃ v, (s ++ t).splitOn sep = (s ++ v) :: later sep t := splitOn_append_of_not_mem h
  unfold later at hv ⊢
  rw [hv]
  rfl

/-- The later lines of two texts, where the second goes on with a line that is no matter. -/
theorem forall_later_append {p : List α → Prop} (hp : ∀ w u, p (w ++ c :: u) ↔ p w) (hc : c ≠ sep) :
    (∀ l ∈ later sep (s ++ c :: t), p l) ↔ (∀ l ∈ later sep s, p l) ∧ ∀ l ∈ later sep t, p l := by
  obtain ⟨xs, w, hs⟩ : ∃ xs w, s.splitOn sep = xs ++ [w] :=
    ⟨_, _, (List.dropLast_append_getLast (List.splitOn_ne_nil sep s)).symm⟩
  obtain ⟨v, ht⟩ : ∃ v, (c :: t).splitOn sep = (c :: v) :: later sep t :=
    splitOn_append_of_not_mem fun h => hc (List.mem_singleton.mp h).symm
  have hst := splitOn_append hs ht
  unfold later at hst ⊢
  rw [hst, hs]
  cases xs with
  | nil => simp
  | cons x xs =>
    simp only [List.cons_append, List.tail_cons, List.mem_append, List.mem_cons]
    constructor
    · intro h
      refine ⟨fun l hl => ?_, fun l hl => h l (.inr (.inr hl))⟩
      rcases hl with hl | rfl | hl
      · exact h l (.inl hl)
      · exact (hp l v).mp (h _ (.inr (.inl rfl)))
      · cases hl
    · intro h l hl
      rcases hl with hl | hl | hl
      · exact h.1 l (.inl hl)
      · rw [hl]
        exact (hp w v).mpr (h.1 w (.inr (.inl rfl)))
      · exact h.2 l hl

/-- The lines of joined texts. -/
theorem splitOn_join (sep : α) : ∀ {ls : List (List α)}, ls ≠ [] → ([sep].intercalate ls).splitOn sep = ls.flatMap (·.splitOn sep)
  | [], h => absurd rfl h
  | [l], _ => by simp [List.intercalate]
  | l :: m :: ls, _ => by
    have ih := splitOn_join sep (List.cons_ne_nil m ls)
    have hcons : [sep].intercalate (l :: m :: ls) = l ++ sep :: [sep].intercalate (m :: ls) := by simp [List.intercalate]
    rw [hcons, List.splitOn_append_cons_of_beq _ _ (beq_self_eq_true sep), ih]
    rfl

end split

/-! ## Prefixes -/

/-- A prefix of a text that goes on with a unit which the prefix does not have. -/
theorem prefix_append_cons {h w u : List α} {c : α} (hc : c ∉ h) : h <+: w ++ c :: u ↔ h <+: w := by
  constructor
  · intro hp
    rcases List.prefix_or_prefix_of_prefix hp (List.prefix_append w (c :: u)) with hw | ⟨r, rfl⟩
    · exact hw
    · have hr := (List.prefix_append_right_inj w).mp hp
      cases r with
      | nil => exact (List.append_nil w).symm ▸ List.prefix_rfl
      | cons d r =>
        obtain ⟨hd, -⟩ := List.cons_prefix_cons.mp hr
        exact absurd (List.mem_append_right w (hd ▸ List.mem_cons_self)) hc
  · intro hp
    exact hp.trans (List.prefix_append _ _)

/-! ## Cutting at landmarks -/

variable {p : α → Bool}

/-- The lines before the first landmark, and each landmark with the lines up to the next. -/
def cut (p : α → Bool) : List α → List α × List (α × List α)
  | [] => ([], [])
  | a :: l => if p a then ([], (a, (cut p l).1) :: (cut p l).2) else (a :: (cut p l).1, (cut p l).2)

/-- The lines of sections. -/
def flat (secs : List (α × List α)) : List α := secs.flatMap fun s => s.1 :: s.2

/-- Every section is a landmark with lines that are none. -/
def Proper (p : α → Bool) (secs : List (α × List α)) : Prop := ∀ s ∈ secs, p s.1 = true ∧ ∀ a ∈ s.2, p a = false

theorem proper_cut (l : List α) : (∀ a ∈ (cut p l).1, p a = false) ∧ Proper p (cut p l).2 := by
  induction l with
  | nil => exact ⟨fun _ h => absurd h List.not_mem_nil, fun _ h => absurd h List.not_mem_nil⟩
  | cons a l ih =>
    unfold cut
    split
    · next ha =>
      refine ⟨fun _ h => absurd h List.not_mem_nil, fun s hs => ?_⟩
      rcases List.mem_cons.mp hs with rfl | hs
      · exact ⟨ha, ih.1⟩
      · exact ih.2 s hs
    · next ha =>
      refine ⟨fun b hb => ?_, ih.2⟩
      rcases List.mem_cons.mp hb with rfl | hb
      · exact Bool.eq_false_iff.mpr ha
      · exact ih.1 b hb

theorem cut_append {body : List α} (hbody : ∀ a ∈ body, p a = false) (l : List α) :
    cut p (body ++ l) = (body ++ (cut p l).1, (cut p l).2) := by
  induction body with
  | nil => rfl
  | cons a body ih =>
    have ha : ¬ p a = true := Bool.eq_false_iff.mp (hbody a List.mem_cons_self)
    have ih := ih fun b hb => hbody b (List.mem_cons_of_mem a hb)
    rw [List.cons_append, cut, if_neg ha, ih]
    rfl

theorem cut_flat {secs : List (α × List α)} (h : Proper p secs) : cut p (flat secs) = ([], secs) := by
  induction secs with
  | nil => rfl
  | cons s secs ih =>
    have hs := h s List.mem_cons_self
    have ih := ih fun r hr => h r (List.mem_cons_of_mem s hr)
    have hcons : flat (s :: secs) = s.1 :: (s.2 ++ flat secs) := rfl
    rw [hcons, cut, if_pos hs.1, cut_append hs.2, ih, List.append_nil]

/-- **A cut gives the sections back**, exactly where they are cut at their landmarks only. -/
theorem cut_append_flat_iff {secs : List (α × List α)} (pre : List α) :
    cut p (pre ++ flat secs) = ((cut p pre).1, (cut p pre).2 ++ secs) ↔ Proper p secs := by
  constructor
  · intro h s hs
    have hproper := (proper_cut (p := p) (pre ++ flat secs)).2
    rw [h] at hproper
    exact hproper s (List.mem_append_right _ hs)
  · intro h
    induction pre with
    | nil => exact cut_flat h
    | cons a pre ih =>
      rw [List.cons_append, cut, cut, ih]
      split <;> rfl

theorem filter_flat {secs : List (α × List α)} (h : Proper p secs) : (flat secs).filter p = secs.map (·.1) := by
  induction secs with
  | nil => rfl
  | cons s secs ih =>
    have hs := h s List.mem_cons_self
    have hbody : s.2.filter p = [] := List.filter_eq_nil_iff.mpr fun a ha => Bool.eq_false_iff.mp (hs.2 a ha)
    have hcons : flat (s :: secs) = s.1 :: (s.2 ++ flat secs) := rfl
    rw [hcons, List.filter_cons_of_pos hs.1, List.filter_append, hbody, ih fun r hr => h r (List.mem_cons_of_mem s hr)]
    rfl

end Nostrautica.Lines
