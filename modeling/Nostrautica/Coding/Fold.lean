/-
Texts of lines that end in CR LF, with long lines folded: a line is broken in pieces of a
bounded weight, each after the first behind a blank, and unfolding joins them again.
-/
import Mathlib

namespace Nostrautica.Fold

variable {α β : Type*}

/-! ## Lines that end in CR LF -/

section lines

variable [DecidableEq α] {cr lf : α}

/-- The lines of a text, CR LF between two of them. -/
def splitLines (cr lf : α) : List α → List (List α)
  | [] => [[]]
  | [a] => [[a]]
  | a :: b :: s => if a = cr ∧ b = lf then [] :: splitLines cr lf s else (splitLines cr lf (b :: s)).modifyHead (a :: ·)

theorem splitLines_append {l : List α} (h : cr ∉ l) (s : List α) :
    splitLines cr lf (l ++ cr :: lf :: s) = l :: splitLines cr lf s := by
  induction l with
  | nil =>
    rw [List.nil_append, splitLines, if_pos ⟨rfl, rfl⟩]
  | cons a l ih =>
    have ha : a ≠ cr := fun he => h (he ▸ List.mem_cons_self)
    have hl : cr ∉ l := fun hm => h (List.mem_cons_of_mem _ hm)
    have hsplit : ∀ t : List α, t ≠ [] → splitLines cr lf (a :: t) = (splitLines cr lf t).modifyHead (a :: ·) := by
      intro t ht
      cases t with
      | nil => exact absurd rfl ht
      | cons b t =>
        rw [splitLines, if_neg]
        exact fun he => ha he.1
    rw [List.cons_append, hsplit _ (List.append_ne_nil_of_right_ne_nil _ (List.cons_ne_nil _ _)), ih hl, List.modifyHead_cons]

theorem splitLines_ended {ls : List (List α)} (h : ∀ l ∈ ls, cr ∉ l) :
    splitLines cr lf (ls.flatMap (· ++ [cr, lf])) = ls ++ [[]] := by
  induction ls with
  | nil => rfl
  | cons l ls ih =>
    rw [List.flatMap_cons, List.append_assoc, List.cons_append, List.cons_append, List.nil_append,
      splitLines_append (h l List.mem_cons_self), ih fun m hm => h m (List.mem_cons_of_mem _ hm), List.cons_append]

end lines

theorem intercalate_ended (sep : List α) {ls : List (List α)} (h : ls ≠ []) :
    sep.intercalate ls ++ sep = ls.flatMap (· ++ sep) := by
  induction ls with
  | nil => exact absurd rfl h
  | cons l ls ih =>
    cases ls with
    | nil => rw [List.intercalate_singleton, List.flatMap_singleton]
    | cons m ls =>
      rw [List.intercalate_cons_cons, List.flatMap_cons, ← ih (List.cons_ne_nil _ _)]
      simp only [List.append_assoc]

/-! ## Pieces -/

section pieces

variable {w : α → Nat} {limit : Nat}

/-- What of a line goes on in a piece of which `used` is taken, and the pieces after it; each of these
has a blank before it, of weight 1. -/
def pieces (w : α → Nat) (limit : Nat) : Nat → List α → List α × List (List α)
  | _, [] => ([], [])
  | used, c :: s =>
    if used + w c > limit then ([], (c :: (pieces w limit (1 + w c) s).1) :: (pieces w limit (1 + w c) s).2)
    else (c :: (pieces w limit (used + w c) s).1, (pieces w limit (used + w c) s).2)

/-- A line's pieces, each after the first behind `blank`. -/
def fold (w : α → Nat) (limit : Nat) (blank : α) (l : List α) : List (List α) :=
  (pieces w limit 0 l).1 :: (pieces w limit 0 l).2.map (blank :: ·)

theorem pieces_join (w : α → Nat) (limit used : Nat) (s : List α) : (pieces w limit used s).1 ++ (pieces w limit used s).2.flatten = s := by
  induction s generalizing used with
  | nil => rfl
  | cons c s ih =>
    rw [pieces]
    split
    · rw [List.nil_append, List.flatten_cons, List.cons_append, ih]
    · rw [List.cons_append, ih]

theorem pieces_weight (hw : ∀ c, 1 + w c ≤ limit) {used : Nat} (h : used ≤ limit) (s : List α) :
    used + ((pieces w limit used s).1.map w).sum ≤ limit ∧ ∀ p ∈ (pieces w limit used s).2, 1 + (p.map w).sum ≤ limit := by
  induction s generalizing used with
  | nil => exact ⟨h, fun p hp => absurd hp List.not_mem_nil⟩
  | cons c s ih =>
    rw [pieces]
    split
    · obtain ⟨hfirst, hrest⟩ := ih (hw c)
      refine ⟨h, fun p hp => ?_⟩
      rcases List.mem_cons.mp hp with rfl | hp
      · rw [List.map_cons, List.sum_cons]
        omega
      · exact hrest p hp
    · next hfit =>
      obtain ⟨hfirst, hrest⟩ := ih (show used + w c ≤ limit by omega)
      refine ⟨?_, hrest⟩
      rw [List.map_cons, List.sum_cons]
      omega

theorem fold_weight (hw : ∀ c, 1 + w c ≤ limit) {blank : α} (hb : w blank = 1) {l p : List α} (hp : p ∈ fold w limit blank l) :
    (p.map w).sum ≤ limit := by
  obtain ⟨hfirst, hrest⟩ := pieces_weight hw (Nat.zero_le limit) l
  rcases List.mem_cons.mp hp with rfl | hp
  · omega
  · obtain ⟨q, hq, rfl⟩ := List.mem_map.mp hp
    have hsize := hrest q hq
    rw [List.map_cons, List.sum_cons, hb]
    exact hsize

theorem mem_of_mem_fold {blank c : α} {l p : List α} (hp : p ∈ fold w limit blank l) (hc : c ∈ p) : c = blank ∨ c ∈ l := by
  have hjoin := pieces_join w limit 0 l
  rcases List.mem_cons.mp hp with rfl | hp
  · exact .inr (hjoin ▸ List.mem_append_left _ hc)
  · obtain ⟨q, hq, rfl⟩ := List.mem_map.mp hp
    rcases List.mem_cons.mp hc with rfl | hc
    · exact .inl rfl
    · exact .inr (hjoin ▸ List.mem_append_right _ (List.mem_flatten.mpr ⟨q, hq, hc⟩))

end pieces

/-! ## Unfolding -/

section unfolding

variable {ws : α → Bool}

/-- `cur` is a line so far: a line that starts with white space goes on with it. -/
def unfoldFrom (ws : α → Bool) (cur : List α) : List (List α) → List (List α)
  | [] => [cur]
  | [] :: ls => cur :: unfoldFrom ws [] ls
  | (c :: m) :: ls => if ws c then unfoldFrom ws (cur ++ m) ls else cur :: unfoldFrom ws (c :: m) ls

def unfoldLines (ws : α → Bool) : List (List α) → List (List α)
  | [] => []
  | l :: ls => unfoldFrom ws l ls

/-- The lines of a text that ends in CR LF, unfolded. -/
def readLines [DecidableEq α] (cr lf : α) (ws : α → Bool) (text : List α) : List (List α) :=
  unfoldLines ws (splitLines cr lf text).dropLast

theorem unfoldFrom_pieces {blank : α} (hb : ws blank = true) (cur : List α) (ps ls : List (List α)) :
    unfoldFrom ws cur (ps.map (blank :: ·) ++ ls) = unfoldFrom ws (cur ++ ps.flatten) ls := by
  induction ps generalizing cur with
  | nil => rw [List.map_nil, List.nil_append, List.flatten_nil, List.append_nil]
  | cons p ps ih => rw [List.map_cons, List.cons_append, unfoldFrom, if_pos hb, ih, List.flatten_cons, List.append_assoc]

/-- **Unfolding takes back the folds of lines that do not start with white space.** -/
theorem unfoldLines_fold {w : α → Nat} {limit : Nat} {blank : α} (hb : ws blank = true) {ls : List (List α)}
    (hls : ∀ l ∈ ls, ∀ c ∈ l.head?, ws c = false) : unfoldLines ws (ls.flatMap (fold w limit blank)) = ls := by
  have hfrom : ∀ cur, unfoldFrom ws cur (ls.flatMap (fold w limit blank)) = cur :: ls := by
    induction ls with
    | nil => exact fun cur => rfl
    | cons l ls ih =>
      intro cur
      have hjoin := pieces_join w limit 0 l
      have hhead := hls l List.mem_cons_self
      have hrest : ∀ p, unfoldFrom ws p ((pieces w limit 0 l).2.map (blank :: ·) ++ ls.flatMap (fold w limit blank)) = (p ++ (pieces w limit 0 l).2.flatten) :: ls :=
        fun p => (unfoldFrom_pieces hb ..).trans (ih (fun m hm => hls m (List.mem_cons_of_mem _ hm)) _)
      rw [List.flatMap_cons, fold, List.cons_append]
      cases hp : (pieces w limit 0 l).1 with
      | nil =>
        rw [unfoldFrom, hrest, ← hp, hjoin]
      | cons c p =>
        have hc : ws c = false := by
          rw [hp] at hjoin
          exact hhead c (hjoin ▸ rfl)
        rw [unfoldFrom, if_neg (by rw [hc]; exact Bool.false_ne_true), hrest, ← hp, hjoin]
  cases ls with
  | nil => rfl
  | cons l ls =>
    have h := hfrom []
    rw [List.flatMap_cons, fold, List.cons_append] at h ⊢
    cases hp : (pieces w limit 0 l).1 with
    | nil =>
      rw [hp, unfoldFrom] at h
      exact (List.cons.inj h).2
    | cons c p =>
      have hc : ws c = false := by
        have hjoin := pieces_join w limit 0 l
        rw [hp] at hjoin
        exact hls l List.mem_cons_self c (hjoin ▸ rfl)
      rw [hp, unfoldFrom, if_neg (by rw [hc]; exact Bool.false_ne_true)] at h
      exact (List.cons.inj h).2

end unfolding

/-! ## Encodings -/

section encodings

variable {f : α → List β} {ws : α → Bool} {ws' : β → Bool}

/-- An encoding that keeps the first unit's being white space keeps the folds. -/
theorem unfoldLines_encoded (hf : ∀ c, ∃ d t, f c = d :: t ∧ ws' d = ws c) (hws : ∀ c, ws c = true → ∃ d, f c = [d]) (ls : List (List α)) :
    unfoldLines ws' (ls.map (·.flatMap f)) = (unfoldLines ws ls).map (·.flatMap f) := by
  have hfrom : ∀ ls cur, unfoldFrom ws' (cur.flatMap f) (ls.map (·.flatMap f)) = (unfoldFrom ws cur ls).map (·.flatMap f) := by
    intro ls
    induction ls with
    | nil => exact fun cur => rfl
    | cons l ls ih =>
      intro cur
      cases l with
      | nil =>
        have h := ih []
        rw [List.flatMap_nil] at h
        rw [List.map_cons, List.flatMap_nil, unfoldFrom, unfoldFrom, List.map_cons, h]
      | cons c m =>
        obtain ⟨d, t, hc, hd⟩ := hf c
        have hline : (c :: m).flatMap f = d :: (t ++ m.flatMap f) := by rw [List.flatMap_cons, hc, List.cons_append]
        rw [List.map_cons, hline, unfoldFrom, unfoldFrom, hd]
        cases hw : ws c with
        | true =>
          obtain ⟨e, he⟩ := hws c hw
          have ht : t = [] := (List.cons.inj (hc.symm.trans he)).2
          have h := ih (cur ++ m)
          rw [List.flatMap_append] at h
          rw [if_pos rfl, if_pos rfl, ht, List.nil_append, h]
        | false =>
          have h := ih (c :: m)
          rw [hline] at h
          rw [if_neg Bool.false_ne_true, if_neg Bool.false_ne_true, List.map_cons, h]
  cases ls with
  | nil => rfl
  | cons l ls => exact hfrom ls l

theorem flatMap_ended {cr lf : α} {cr' lf' : β} (hcr : f cr = [cr']) (hlf : f lf = [lf']) (ls : List (List α)) :
    (ls.flatMap (· ++ [cr, lf])).flatMap f = (ls.map (·.flatMap f)).flatMap (· ++ [cr', lf']) := by
  induction ls with
  | nil => rfl
  | cons l ls ih =>
    rw [List.flatMap_cons, List.flatMap_append, List.flatMap_append, ih, List.map_cons, List.flatMap_cons, List.flatMap_cons, List.flatMap_cons,
      hcr, hlf, List.flatMap_nil, List.append_nil, List.cons_append, List.nil_append]

end encodings

end Nostrautica.Fold
