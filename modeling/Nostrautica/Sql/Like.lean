/-
`text LIKE pattern ESCAPE c`.

The operator reads both sides up to their first NUL. `%` stands for any text,
`_` for any one character, and a character after the escape character for
itself. What letters compare as is a parameter.
-/
import Mathlib

namespace Sql.Like

variable {α : Type*}

/-- The characters that a pattern reads in its own way. -/
structure Special (α : Type*) where
  any : α
  one : α
  esc : α
  nul : α
  esc_ne_any : esc ≠ any
  nul_ne_any : nul ≠ any
  nul_ne_one : nul ≠ one
  nul_ne_esc : nul ≠ esc

inductive Token (α : Type*)
  | lit (c : α)
  | one
  | any
  deriving DecidableEq

variable [DecidableEq α] (x : Special α) (fold : α → α)

/-- A character that is not escaped. -/
def Special.token (c : α) : Token α := if c = x.any then .any else if c = x.one then .one else .lit c

/-- The tokens of a pattern, unless it ends in the escape character. -/
def tokens : List α → Option (List (Token α))
  | [] => some []
  | c :: p =>
    if c = x.esc then
      match p with
      | [] => none
      | d :: p => (tokens p).map (.lit d :: ·)
    else (tokens p).map (x.token c :: ·)

/-- The tokens take up the whole text. -/
def accepts : List (Token α) → List α → Bool
  | [], s => s.isEmpty
  | .any :: ts, s => s.tails.any (accepts ts)
  | .one :: _, [] | .lit _ :: _, [] => false
  | .one :: ts, _ :: s => accepts ts s
  | .lit c :: ts, d :: s => fold c = fold d && accepts ts s

/-- A text up to its first NUL. -/
def Special.cut (s : List α) : List α := s.takeWhile (· ≠ x.nul)

/-- `text LIKE pattern ESCAPE esc`. -/
def like (pattern text : List α) : Bool := (tokens x (x.cut pattern)).any fun ts => accepts fold ts (x.cut text)

/-- The escape character before every character a pattern would not take literally. -/
def escape (s : List α) : List α := s.flatMap fun c => if c = x.esc ∨ c = x.any ∨ c = x.one then [x.esc, c] else [c]

variable {x fold} {l p q s : List α} {ts : List (Token α)}

theorem tokens_esc {c : α} : tokens x (x.esc :: c :: p) = (tokens x p).map (.lit c :: ·) := by
  simp [tokens]

theorem tokens_cons {c : α} (h : c ≠ x.esc) : tokens x (c :: p) = (tokens x p).map (x.token c :: ·) := by
  rw [tokens.eq_def]
  exact if_neg h

theorem escape_cons {c : α} : escape x (c :: p) =
    (if c = x.esc ∨ c = x.any ∨ c = x.one then [x.esc, c] else [c]) ++ escape x p := rfl

theorem cut_cons {c : α} (h : c ≠ x.nul) : x.cut (c :: p) = c :: x.cut p := List.takeWhile_cons_of_pos (by simpa using h)

theorem tokens_escape : tokens x (escape x p ++ q) = (tokens x q).map (p.map .lit ++ ·) := by
  induction p with
  | nil => simp [escape]
  | cons c p ih =>
    rw [escape_cons]
    split
    · have he : [x.esc, c] ++ escape x p ++ q = x.esc :: c :: (escape x p ++ q) := rfl
      rw [he, tokens_esc, ih]
      simp [Function.comp_def]
    · next h =>
      rw [not_or, not_or] at h
      have he : [c] ++ escape x p ++ q = c :: (escape x p ++ q) := rfl
      have ht : x.token c = .lit c := by simp [Special.token, h.2.1, h.2.2]
      rw [he, tokens_cons h.1, ih, ht]
      simp [Function.comp_def]

theorem accepts_any : accepts fold [.any] s = true := by
  simp only [accepts, List.any_eq_true, List.mem_tails]
  exact ⟨[], List.nil_suffix, rfl⟩

/-- Literal tokens take up a prefix, as letters compare. -/
theorem accepts_lits : ∀ {p s : List α},
    accepts fold (p.map .lit ++ ts) s = true ↔ p.map fold <+: s.map fold ∧ accepts fold ts (s.drop p.length) = true
  | [], s => by simp
  | c :: p, [] => by simp [accepts]
  | c :: p, d :: s => by
    have ih := accepts_lits (p := p) (s := s)
    simp only [List.map_cons, List.cons_append, accepts, Bool.and_eq_true, decide_eq_true_eq, ih, List.cons_prefix_cons,
      List.length_cons, List.drop_succ_cons, and_assoc]

theorem cut_escape (h : x.nul ∈ p) : x.cut (escape x p ++ q) = escape x (x.cut p) := by
  induction p with
  | nil => exact absurd h List.not_mem_nil
  | cons c p ih =>
    rw [escape_cons]
    by_cases hc : c = x.nul
    · subst hc
      simp [Special.cut, escape, x.nul_ne_esc, x.nul_ne_any, x.nul_ne_one]
    · have ih := ih ((List.mem_cons.mp h).resolve_left (Ne.symm hc))
      rw [cut_cons hc, escape_cons]
      split
      · have he : [x.esc, c] ++ escape x p ++ q = x.esc :: c :: (escape x p ++ q) := rfl
        rw [he, cut_cons x.nul_ne_esc.symm, cut_cons hc, ih]
        rfl
      · have he : [c] ++ escape x p ++ q = c :: (escape x p ++ q) := rfl
        rw [he, cut_cons hc, ih]
        rfl

theorem cut_eq_self (h : x.nul ∉ s) : x.cut s = s :=
  List.takeWhile_eq_self_iff.mpr fun c hc => by
    have : c ≠ x.nul := fun he => h (he ▸ hc)
    simpa using this

theorem nul_notMem_escape (h : x.nul ∉ p) : x.nul ∉ escape x p := by
  intro hm
  obtain ⟨c, hc, hm⟩ := List.mem_flatMap.mp hm
  split at hm
  · rcases List.mem_pair.mp hm with h' | h'
    · exact x.nul_ne_esc h'
    · exact h (h' ▸ hc)
  · exact h (List.mem_singleton.mp hm ▸ hc)

variable (x fold) in
/-- What an escaped prefix reaches: the texts that begin with it as letters
compare, or, of a prefix with a NUL, those the same as it up to there. -/
def Reaches (p s : List α) : Prop :=
  if x.nul ∈ p then (x.cut p).map fold = (x.cut s).map fold else p.map fold <+: (x.cut s).map fold

instance : Decidable (Reaches x fold p s) := by
  unfold Reaches
  exact inferInstance

/-- `text LIKE '<escaped p>%'`. -/
theorem like_escape : like x fold (escape x p ++ [x.any]) s = true ↔ Reaches x fold p s := by
  unfold like Reaches
  split
  · next h =>
    have ht : tokens x (x.cut (escape x p ++ [x.any])) = some ((x.cut p).map .lit ++ []) := by
      rw [cut_escape h]
      have := tokens_escape (x := x) (p := x.cut p) (q := [])
      simpa [tokens] using this
    rw [ht, Option.any_some, accepts_lits]
    constructor
    · rintro ⟨hp, hd⟩
      have hlen : (x.cut s).length ≤ (x.cut p).length := by simpa [accepts] using hd
      exact hp.eq_of_length_le (by simpa using hlen)
    · intro heq
      have hlen : (x.cut p).length = (x.cut s).length := by simpa using congrArg List.length heq
      exact ⟨heq ▸ List.prefix_rfl, by simp [accepts, hlen]⟩
  · next h =>
    have hcut : x.cut (escape x p ++ [x.any]) = escape x p ++ [x.any] :=
      cut_eq_self (by simpa [x.nul_ne_any] using nul_notMem_escape h)
    have ht : tokens x (x.cut (escape x p ++ [x.any])) = some (p.map .lit ++ [.any]) := by
      rw [hcut, tokens_escape]
      simp [tokens, Special.token, x.esc_ne_any.symm]
    rw [ht, Option.any_some, accepts_lits]
    exact and_iff_left accepts_any

theorem cut_append (h : x.nul ∉ l) : x.cut (l ++ s) = l ++ x.cut s := by
  induction l with
  | nil => rfl
  | cons a l ih =>
    have ha : a ≠ x.nul := fun he => h (he ▸ List.mem_cons_self)
    have he : a :: l ++ s = a :: (l ++ s) := rfl
    rw [he, cut_cons ha, ih fun hm => h (List.mem_cons_of_mem a hm)]
    rfl

theorem cut_append_of_mem (h : x.nul ∈ p) : x.cut (p ++ s) = x.cut p := by
  induction p with
  | nil => exact absurd h List.not_mem_nil
  | cons a p ih =>
    have he : a :: p ++ s = a :: (p ++ s) := rfl
    rw [he]
    by_cases ha : a = x.nul
    · simp [Special.cut, ha]
    · rw [cut_cons ha, cut_cons ha, ih ((List.mem_cons.mp h).resolve_left (Ne.symm ha))]

theorem cut_prefix : x.cut s <+: s := List.takeWhile_prefix _

/-- A common beginning without a NUL can be left out. -/
theorem reaches_append (h : x.nul ∉ l) : Reaches x fold (l ++ p) (l ++ s) ↔ Reaches x fold p s := by
  unfold Reaches
  have hm : x.nul ∈ l ++ p ↔ x.nul ∈ p := by simp [h]
  simp only [hm, cut_append h, List.map_append, List.append_cancel_left_eq, List.prefix_append_right_inj]

/-- A text that begins with the prefix itself is in reach. -/
theorem reaches_self : Reaches x fold p (p ++ s) := by
  unfold Reaches
  split
  · next h => rw [cut_append_of_mem h]
  · next h =>
    rw [cut_append h, List.map_append]
    exact List.prefix_append _ _

/-- A text in reach begins as the prefix does before its NUL. -/
theorem map_prefix_of_reaches (h : x.nul ∉ l) (hr : Reaches x fold (l ++ p) s) : l.map fold <+: s.map fold := by
  have hs : (x.cut s).map fold <+: s.map fold := cut_prefix.map fold
  unfold Reaches at hr
  split at hr
  · rw [cut_append h, List.map_append] at hr
    exact (List.prefix_append _ _).trans (hr ▸ hs)
  · rw [List.map_append] at hr
    exact ((List.prefix_append _ _).trans hr).trans hs

end Sql.Like
