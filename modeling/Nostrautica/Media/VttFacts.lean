/-
The captions cover the clip: all words, no gap, no cue that ends early
(`timedCues_valid_iff`).
-/
import Nostrautica.Media.Vtt
import Nostrautica.Js.Digits
import Nostrautica.Js.NumberFacts

namespace Nostrautica.Vtt

open Js

variable {s t text cur w : JsString} {c : CodeUnit} {d q : ℚ}

/-! ## Words -/

/-- The words after `cur`. -/
def wordsFrom (cur s : JsString) : List JsString := (splitSpaces cur s).filter (· ≠ [])

theorem wordsFrom_space (hc : isSpace c) : wordsFrom cur (c :: s) = [cur].filter (· ≠ []) ++ wordsFrom [] s := by
  unfold wordsFrom
  rw [splitSpaces, if_pos hc, ← List.filter_append, List.singleton_append]

theorem wordsFrom_char (hc : isSpace c = false) : wordsFrom cur (c :: s) = wordsFrom (cur ++ [c]) s := by
  unfold wordsFrom
  rw [splitSpaces, if_neg (by rw [hc]; exact Bool.false_ne_true)]

theorem wordsFrom_spaces {r : JsString} (hr : ∀ c ∈ r, isSpace c = true) : wordsFrom [] (r ++ s) = wordsFrom [] s := by
  induction r with
  | nil => rfl
  | cons c r ih =>
    rw [List.cons_append, wordsFrom_space (hr c List.mem_cons_self), ih fun x hx => hr x (List.mem_cons_of_mem c hx)]
    rfl

theorem wordsFrom_append_spaces {r : JsString} (hr : ∀ c ∈ r, isSpace c = true) : wordsFrom cur (s ++ r) = wordsFrom cur s := by
  induction s generalizing cur with
  | nil =>
    cases r with
    | nil => rfl
    | cons c r =>
      have hnil := wordsFrom_spaces (s := []) fun x hx => hr x (List.mem_cons_of_mem c hx)
      rw [List.append_nil] at hnil
      rw [List.nil_append, wordsFrom_space (hr c List.mem_cons_self), hnil]
      exact List.append_nil _
  | cons c s ih =>
    rw [List.cons_append]
    cases hc : isSpace c with
    | true => rw [wordsFrom_space hc, wordsFrom_space hc, ih]
    | false => rw [wordsFrom_char hc, wordsFrom_char hc, ih]

theorem wordsFrom_trim : wordsFrom [] (trim s) = wordsFrom [] s := by
  have hfront : wordsFrom [] (s.dropWhile isSpace) = wordsFrom [] s := by
    have h := wordsFrom_spaces (s := s.dropWhile isSpace) (r := s.takeWhile isSpace) fun c hc => List.all_eq_true.1 List.all_takeWhile c hc
    rw [List.takeWhile_append_dropWhile] at h
    exact h.symm
  have hback : ∀ u : JsString, wordsFrom [] (u.reverse.dropWhile isSpace).reverse = wordsFrom [] u := by
    intro u
    have h : wordsFrom [] ((u.reverse.dropWhile isSpace).reverse ++ (u.reverse.takeWhile isSpace).reverse) = wordsFrom [] (u.reverse.dropWhile isSpace).reverse :=
      wordsFrom_append_spaces fun c hc => List.all_eq_true.1 List.all_takeWhile c (List.mem_reverse.1 hc)
    rw [← List.reverse_append, List.takeWhile_append_dropWhile, List.reverse_reverse] at h
    exact h.symm
  unfold trim
  rw [hback, hfront]

theorem words_eq : words text = wordsFrom [] text := wordsFrom_trim

theorem words_trim : words (trim text) = words text := by rw [words_eq, words_eq, wordsFrom_trim]

/-- A word has a character and no space. -/
def IsWord (w : JsString) : Prop := w ≠ [] ∧ ∀ c ∈ w, isSpace c = false

theorem isWord_of_mem {cur : JsString} (hcur : ∀ c ∈ cur, isSpace c = false) (hw : w ∈ wordsFrom cur s) : IsWord w := by
  induction s generalizing cur with
  | nil =>
    unfold wordsFrom at hw
    rw [splitSpaces, List.mem_filter, List.mem_singleton] at hw
    obtain ⟨rfl, hne⟩ := hw
    exact ⟨of_decide_eq_true hne, hcur⟩
  | cons c s ih =>
    cases hc : isSpace c with
    | true =>
      rw [wordsFrom_space hc, List.mem_append, List.mem_filter, List.mem_singleton] at hw
      rcases hw with ⟨rfl, hne⟩ | hw
      · exact ⟨of_decide_eq_true hne, hcur⟩
      · exact ih (fun x hx => absurd hx List.not_mem_nil) hw
    | false =>
      rw [wordsFrom_char hc] at hw
      refine ih (fun x hx => ?_) hw
      rcases List.mem_append.1 hx with hx | hx
      · exact hcur x hx
      · rw [List.mem_singleton.1 hx]
        exact hc

theorem isWord_of_mem_words (hw : w ∈ words text) : IsWord w :=
  isWord_of_mem (fun _ hx => absurd hx List.not_mem_nil) (words_eq ▸ hw)

theorem wordsFrom_word (hw : ∀ c ∈ w, isSpace c = false) : wordsFrom cur (w ++ s) = wordsFrom (cur ++ w) s := by
  induction w generalizing cur with
  | nil => rw [List.nil_append, List.append_nil]
  | cons c w ih =>
    rw [List.cons_append, wordsFrom_char (hw c List.mem_cons_self), ih fun x hx => hw x (List.mem_cons_of_mem c hx), List.append_assoc,
      List.singleton_append]

theorem wordsFrom_nil (hne : cur ≠ []) : wordsFrom cur [] = [cur] := by
  unfold wordsFrom
  rw [splitSpaces]
  simp [hne]

theorem words_word (hw : IsWord w) : words w = [w] := by
  have h : wordsFrom [] (w ++ []) = wordsFrom ([] ++ w) [] := wordsFrom_word hw.2
  rw [List.append_nil, List.nil_append, wordsFrom_nil hw.1] at h
  rw [words_eq, h]

/-- Words on both sides of a space. -/
theorem words_append_space : words (s ++ 32 :: t) = words s ++ words t := by
  have h : ∀ cur, wordsFrom cur (s ++ 32 :: t) = wordsFrom cur s ++ wordsFrom [] t := by
    induction s with
    | nil =>
      intro cur
      rw [List.nil_append, wordsFrom_space (by decide)]
      rfl
    | cons c s ih =>
      intro cur
      rw [List.cons_append]
      cases hc : isSpace c with
      | true => rw [wordsFrom_space hc, wordsFrom_space hc, ih, List.append_assoc]
      | false => rw [wordsFrom_char hc, wordsFrom_char hc, ih]
  rw [words_eq, words_eq, words_eq, h]

theorem words_joinWords {ws : List JsString} (hws : ∀ w ∈ ws, IsWord w) : words (joinWords ws) = ws := by
  fun_induction joinWords ws with
  | case1 => rfl
  | case2 w => exact words_word (hws w List.mem_cons_self)
  | case3 w ws _ ih =>
    rw [words_append_space, words_word (hws w List.mem_cons_self), ih fun x hx => hws x (List.mem_cons_of_mem w hx)]
    rfl

/-! ## Chunks -/

/-- What has been packed, and how often. -/
structure Packed (maxCues : Nat) (s : Packing) (ws : List JsString) : Prop where
  all : s.chunks.flatMap words ++ words s.current = ws
  nonempty : ∀ c ∈ s.chunks, words c ≠ []
  current : s.current ≠ [] → words s.current ≠ []
  room : s.chunks.length + 1 ≤ maxCues

theorem Packed.packWord {maxCues target : Nat} {p : Packing} {ws : List JsString} (h : Packed maxCues p ws) (hw : IsWord w) :
    Packed maxCues (packWord maxCues target p w) (ws ++ [w]) := by
  have hcur : words (if p.current = [] then w else p.current ++ 32 :: w) = words p.current ++ [w] := by
    split
    · next hnil =>
      rw [hnil, words_word hw]
      rfl
    · rw [words_append_space, words_word hw]
  have hne : words (if p.current = [] then w else p.current ++ 32 :: w) ≠ [] := by
    rw [hcur]
    exact List.append_ne_nil_of_right_ne_nil _ (List.cons_ne_nil _ _)
  have hall := h.all
  unfold Vtt.packWord
  dsimp only
  generalize (if p.current = [] then w else p.current ++ 32 :: w) = now at hcur hne ⊢
  split
  · next hroom =>
    refine ⟨?_, fun c hc => ?_, fun h => absurd rfl h, ?_⟩
    · show (p.chunks ++ [_]).flatMap words ++ words [] = _
      have hnil : words [] = [] := rfl
      rw [List.flatMap_append, List.flatMap_singleton, hcur, hnil, List.append_nil, ← hall, List.append_assoc]
    · rcases List.mem_append.1 hc with hc | hc
      · exact h.nonempty c hc
      · rw [List.mem_singleton.1 hc]
        exact hne
    · show (p.chunks ++ [_]).length + 1 ≤ _
      rw [List.length_append, List.length_singleton]
      omega
  · refine ⟨?_, h.nonempty, fun _ => hne, h.room⟩
    show p.chunks.flatMap words ++ words now = _
    rw [hcur, ← hall, List.append_assoc]

theorem packed_foldl {maxCues target : Nat} {p : Packing} {ws ws' : List JsString} (h : Packed maxCues p ws) (hws : ∀ w ∈ ws', IsWord w) :
    Packed maxCues (ws'.foldl (packWord maxCues target) p) (ws ++ ws') := by
  induction ws' generalizing p ws with
  | nil => rw [List.append_nil]; exact h
  | cons w ws' ih =>
    have hpack : Packed maxCues (packWord maxCues target p w) (ws ++ [w]) := h.packWord (hws w List.mem_cons_self)
    have hstep := ih hpack fun x hx => hws x (List.mem_cons_of_mem w hx)
    rwa [List.append_assoc] at hstep

/-- All words are in the chunks, of which there are not too many. -/
theorem splitForCues_spec (text : JsString) (maxCues : Nat) :
    (splitForCues text maxCues).flatMap words = words text ∧ (splitForCues text maxCues).length ≤ max 1 maxCues ∧
      ∀ c ∈ splitForCues text maxCues, words c ≠ [] := by
  have hwords : ∀ w ∈ words text, IsWord w := fun w hw => isWord_of_mem_words hw
  unfold splitForCues
  split
  · next hnil => exact ⟨by rw [hnil]; rfl, Nat.zero_le _, fun c hc => absurd hc List.not_mem_nil⟩
  split
  · next hnil _ =>
    refine ⟨by rw [List.flatMap_singleton, words_joinWords hwords], le_max_left _ _, fun c hc => ?_⟩
    rw [List.mem_singleton.1 hc, words_joinWords hwords]
    exact hnil
  · next hmax =>
    have hempty : Packed maxCues ⟨[], []⟩ [] :=
      ⟨rfl, fun c hc => absurd hc List.not_mem_nil, fun h => absurd rfl h, by show 0 + 1 ≤ maxCues; omega⟩
    have h : Packed maxCues (List.foldl (packWord maxCues (max 1 (((trim text).length + maxCues - 1) / maxCues))) ⟨[], []⟩ _) ([] ++ _) :=
      packed_foldl hempty hwords
    rw [List.nil_append] at h
    have hroom := h.room
    have hall := h.all
    dsimp only
    split
    · next hcur =>
      rw [hcur] at hall
      have hall : _ ++ [] = words text := hall
      rw [List.append_nil] at hall
      exact ⟨hall, by omega, h.nonempty⟩
    · next hcur =>
      refine ⟨by rw [List.flatMap_append, List.flatMap_singleton]; exact hall, ?_, fun c hc => ?_⟩
      · rw [List.length_append, List.length_singleton]
        omega
      · rcases List.mem_append.1 hc with hc | hc
        · exact h.nonempty c hc
        · rw [List.mem_singleton.1 hc]
          exact h.current hcur

/-! ## Times -/

/-- The ends of the chunks' shares of the clip, and its start, from `n` characters on. -/
def boundaries (totalChars : Nat) (durationSec : ℚ) (n : Nat) : List JsString → List ℚ
  | [] => [n / totalChars * durationSec]
  | chunk :: chunks => n / totalChars * durationSec :: boundaries totalChars durationSec (n + chunk.length) chunks

variable {total n : Nat} {chunks : List JsString}

theorem mem_boundaries_self : n / total * d ∈ boundaries total d n chunks := by
  cases chunks <;> exact List.mem_cons_self

/-- The cues begin and end at the boundaries. -/
theorem spread_times {P : ℚ → Prop} (htotal : total ≠ 0) (hsum : n + charCount chunks = total) (hne : chunks ≠ []) :
    (∀ c ∈ spread total d (n / total * d) chunks, P c.start ∧ P c.end_) ↔ ∀ b ∈ boundaries total d n chunks, P b := by
  have hone : ((total : Nat) : ℚ) / total = 1 := div_self (Nat.cast_ne_zero.2 htotal)
  induction chunks generalizing n with
  | nil => exact absurd rfl hne
  | cons chunk chunks ih =>
    cases chunks with
    | nil =>
      have hlen : n + chunk.length = total := by simpa [charCount] using hsum
      have hend : ((n + chunk.length : Nat) : ℚ) / total * d = d := by rw [hlen, hone, one_mul]
      simp only [spread, boundaries, List.mem_cons, List.not_mem_nil, or_false, forall_eq, forall_eq_or_imp, hend]
    | cons chunk' chunks =>
      have hrest : n + chunk.length + charCount (chunk' :: chunks) = total := by
        simp only [charCount, List.map_cons, List.sum_cons] at hsum ⊢
        omega
      have hend : (n : ℚ) / total * d + chunk.length / total * d = ((n + chunk.length : Nat) : ℚ) / total * d := by
        push_cast
        ring
      have hih := ih hrest (List.cons_ne_nil _ _)
      rw [spread, boundaries, hend, List.forall_mem_cons, List.forall_mem_cons]
      constructor
      · rintro ⟨⟨hstart, -⟩, hall⟩
        exact ⟨hstart, hih.1 hall⟩
      · rintro ⟨hstart, hall⟩
        exact ⟨⟨hstart, hall _ mem_boundaries_self⟩, hih.2 hall⟩
      exact fun h => (List.cons_ne_nil _ _) h

/-- The cues of a stretch from `from_` to `to_` leave no gap. -/
structure Gapless (from_ to_ : ℚ) (cues : List Segment) : Prop where
  start : ∀ c ∈ cues.head?, c.start = from_
  finish : ∀ c ∈ cues.getLast?, c.end_ = to_
  chain : cues.IsChain fun a b => b.start = a.end_
  ordered : ∀ c ∈ cues, c.start ≤ c.end_

theorem spread_gapless (hd : 0 < d) (htotal : total ≠ 0) (hsum : n + charCount chunks = total) :
    Gapless (n / total * d) d (spread total d (n / total * d) chunks) := by
  have hpos : (0 : ℚ) < total := by exact_mod_cast Nat.pos_of_ne_zero htotal
  induction chunks generalizing n with
  | nil => exact ⟨fun _ hc => (nomatch hc), fun _ hc => (nomatch hc), List.isChain_nil, fun c hc => absurd hc List.not_mem_nil⟩
  | cons chunk chunks ih =>
    cases chunks with
    | nil =>
      refine ⟨fun c hc => (Option.some.inj hc) ▸ rfl, fun c hc => (Option.some.inj hc) ▸ rfl, List.isChain_singleton _, fun c hc => ?_⟩
      rw [spread, List.mem_singleton] at hc
      subst hc
      have hle : (n : ℚ) / total ≤ 1 := by
        rw [div_le_one hpos]
        exact_mod_cast (show n ≤ total by omega)
      show (n : ℚ) / total * d ≤ d
      nlinarith
    | cons chunk' chunks =>
      have hrest : n + chunk.length + charCount (chunk' :: chunks) = total := by
        simp only [charCount, List.map_cons, List.sum_cons] at hsum ⊢
        omega
      have hend : (n : ℚ) / total * d + chunk.length / total * d = ((n + chunk.length : Nat) : ℚ) / total * d := by
        push_cast
        ring
      obtain ⟨hstart, hfinish, hchain, hordered⟩ := ih hrest
      have hshape : ∃ c cs, spread total d (((n + chunk.length : Nat) : ℚ) / total * d) (chunk' :: chunks) = c :: cs := by
        cases chunks <;> exact ⟨_, _, rfl⟩
      rw [spread, hend]
      obtain ⟨c, cs, hcs⟩ := hshape
      rw [hcs] at hstart hfinish hchain hordered ⊢
      refine ⟨fun c hc => (Option.some.inj hc) ▸ rfl, fun x hx => hfinish x (by rwa [List.getLast?_cons_cons] at hx), ?_, fun x hx => ?_⟩
      · exact List.isChain_cons_cons.2 ⟨hstart c rfl, hchain⟩
      · rcases List.mem_cons.1 hx with rfl | hx
        · show (n : ℚ) / total * d ≤ ((n + chunk.length : Nat) : ℚ) / total * d
          rw [← hend]
          have hnonneg : (0 : ℚ) ≤ chunk.length / total * d := by positivity
          linarith
        · exact hordered x hx
      exact fun h => (List.cons_ne_nil _ _) h

theorem Gapless.from_le {a b : ℚ} {cues : List Segment} (h : Gapless a b cues) : ∀ c ∈ cues, a ≤ c.start ∧ a ≤ c.end_ := by
  obtain ⟨hstart, -, hchain, hordered⟩ := h
  induction cues generalizing a with
  | nil => exact fun c hc => absurd hc List.not_mem_nil
  | cons x cues ih =>
    have hx : x.start = a := hstart x rfl
    have hend : a ≤ x.end_ := hx ▸ hordered x List.mem_cons_self
    intro c hc
    rcases List.mem_cons.1 hc with rfl | hc
    · exact ⟨hx.ge, hend⟩
    · have hnext : ∀ y ∈ cues.head?, y.start = x.end_ := fun y hy => (List.isChain_cons.1 hchain).1 y hy
      obtain ⟨h1, h2⟩ := ih hnext (List.isChain_cons.1 hchain).2 (fun y hy => hordered y (List.mem_cons_of_mem x hy)) c hc
      exact ⟨hend.trans h1, hend.trans h2⟩

theorem spread_texts {elapsed : ℚ} : (spread total d elapsed chunks).map (·.text) = chunks := by
  fun_induction spread total d elapsed chunks with
  | case1 => rfl
  | case2 => rfl
  | case3 _ _ _ _ _ ih => rw [List.map_cons, ih]

/-! ## Payloads -/

/-- No line is empty, from the start of one or from within one. -/
def noEmptyLine (start : Bool) : JsString → Bool
  | [] => !start
  | c :: s => if c = 10 then !start && noEmptyLine true s else noEmptyLine false s

/-- Nothing in a cue's payload ends the cue. -/
structure Clean (payload : JsString) : Prop where
  line : noEmptyLine true payload = true
  cr : (13 : CodeUnit) ∉ payload
  gt : (62 : CodeUnit) ∉ payload

/-- The three replacements as one. -/
def escapeChar (c : CodeUnit) : JsString :=
  if c = 38 then js "&amp;" else if c = 60 then js "&lt;" else if c = 62 then js "&gt;" else [c]

theorem escapeMarkup_eq : escapeMarkup s = s.flatMap escapeChar := by
  unfold escapeMarkup replaceChar
  rw [List.flatMap_assoc, List.flatMap_assoc]
  refine List.flatMap_congr fun c _ => ?_
  unfold escapeChar
  by_cases h38 : c = 38
  · subst h38
    decide
  by_cases h60 : c = 60
  · subst h60
    decide
  by_cases h62 : c = 62
  · subst h62
    decide
  · simp [h38, h60, h62]

theorem escapeChar_spec (c : CodeUnit) :
    (escapeChar c = [c] ∨ c ≠ 10 ∧ escapeChar c ≠ [] ∧ isSpace c = false ∧ ∀ x ∈ escapeChar c, x ≠ 10 ∧ x ≠ 13 ∧ x ≠ 62 ∧ isSpace x = false) ∧
      ∀ x ∈ escapeChar c, x ≠ 62 := by
  have hbool : [js "&amp;", js "&lt;", js "&gt;"].all (fun e => !e.isEmpty && e.all fun x => x != 10 && x != 13 && x != 62 && !isSpace x) = true := by
    decide +kernel
  have hin : ∀ e ∈ [js "&amp;", js "&lt;", js "&gt;"], e ≠ [] ∧ ∀ x ∈ e, x ≠ 10 ∧ x ≠ 13 ∧ x ≠ 62 ∧ isSpace x = false := by
    simpa only [List.all_eq_true, Bool.and_eq_true, bne_iff_ne, Bool.not_eq_true', List.isEmpty_eq_false_iff, and_assoc] using hbool
  have hc : c = 38 ∨ c = 60 ∨ c = 62 → c ≠ 10 ∧ isSpace c = false := by
    rintro (rfl | rfl | rfl) <;> decide
  by_cases h : c = 38 ∨ c = 60 ∨ c = 62
  · have hmem : escapeChar c ∈ [js "&amp;", js "&lt;", js "&gt;"] := by
      unfold escapeChar
      rcases h with rfl | rfl | rfl <;> decide
    obtain ⟨hne, hall⟩ := hin _ hmem
    exact ⟨.inr ⟨(hc h).1, hne, (hc h).2, hall⟩, fun x hx => (hall x hx).2.2.1⟩
  · have hself : escapeChar c = [c] := by
      unfold escapeChar
      rw [not_or, not_or] at h
      rw [if_neg h.1, if_neg h.2.1, if_neg h.2.2]
    refine ⟨.inl hself, fun x hx => ?_⟩
    rw [hself, List.mem_singleton] at hx
    rw [hx]
    exact fun h62 => h (.inr (.inr h62))

theorem noEmptyLine_word {start : Bool} (hne : w ≠ []) (hw : ∀ x ∈ w, x ≠ 10) : noEmptyLine start (w ++ s) = noEmptyLine false s := by
  induction w generalizing start with
  | nil => exact absurd rfl hne
  | cons c w ih =>
    rw [List.cons_append, noEmptyLine, if_neg (hw c List.mem_cons_self)]
    by_cases hnil : w = []
    · rw [hnil, List.nil_append]
    · exact ih hnil fun x hx => hw x (List.mem_cons_of_mem c hx)

theorem noEmptyLine_escape {start : Bool} : noEmptyLine start (s.flatMap escapeChar) = noEmptyLine start s := by
  induction s generalizing start with
  | nil => rfl
  | cons c s ih =>
    rw [List.flatMap_cons]
    rcases (escapeChar_spec c).1 with h | ⟨hc, hne, -, hall⟩
    · rw [h, List.singleton_append, noEmptyLine, noEmptyLine]
      simp only [ih]
    · rw [noEmptyLine_word hne fun x hx => (hall x hx).1, noEmptyLine, if_neg hc, ih]

theorem cr_not_mem_unifyLines : (13 : CodeUnit) ∉ unifyLines s := by
  fun_induction unifyLines s with
  | case1 s ih => simp [ih]
  | case2 c s _ ih =>
    rw [List.mem_cons, not_or]
    refine ⟨?_, ih⟩
    split
    · decide
    · next h => exact fun h' => h h'.symm
  | case3 => exact List.not_mem_nil

theorem mem_collapseBlank (hc : c ∈ collapseBlank s) : c ∈ s := by
  fun_induction collapseBlank s with
  | case1 => exact hc
  | case2 x s h ih =>
    rcases List.mem_cons.1 hc with rfl | hc
    · rw [h.1]
      exact List.mem_cons_self
    · exact List.mem_cons_of_mem x ((List.dropWhile_sublist _).subset (ih hc))
  | case3 x s h ih =>
    rcases List.mem_cons.1 hc with rfl | hc
    · exact List.mem_cons_self
    · exact List.mem_cons_of_mem x (ih hc)

/-- The string does not end with a space. -/
def EndsDark (s : JsString) : Prop := ∀ c ∈ s.getLast?, isSpace c = false

theorem EndsDark.tail (h : EndsDark (c :: s)) : EndsDark s := by
  intro x hx
  cases s with
  | nil => cases hx
  | cons y s => exact h x (by rwa [List.getLast?_cons_cons])

theorem EndsDark.of_suffix {u : JsString} (h : EndsDark s) (hu : u <:+ s) : EndsDark u := by
  obtain ⟨v, rfl⟩ := hu
  induction v with
  | nil => exact h
  | cons x v ih => exact ih h.tail

theorem isSpace_of_isBlank (h : isBlank c) : isSpace c = true := by
  unfold isBlank at h
  simp only [Bool.or_eq_true, decide_eq_true_eq] at h
  rcases h with (rfl | rfl) | rfl <;> decide

theorem exists_head_dropWhile (hend : EndsDark s) (hne : s ≠ []) : ∃ c ∈ (s.dropWhile isBlank).head?, c ≠ 10 := by
  cases hdrop : s.dropWhile isBlank with
  | nil =>
    have hlast := hend _ (List.getLast?_eq_getLast_of_ne_nil hne)
    have hblank := List.dropWhile_eq_nil_iff.1 hdrop _ (List.getLast_mem hne)
    rw [isSpace_of_isBlank hblank] at hlast
    cases hlast
  | cons c t =>
    have hnot := List.head?_dropWhile_not isBlank s
    rw [hdrop] at hnot
    refine ⟨c, rfl, fun hc => ?_⟩
    subst hc
    have hten : isBlank 10 = false := hnot
    exact absurd hten (by decide)

/-- After the replacement no line is empty. -/
theorem noEmptyLine_collapse {start : Bool} (hend : EndsDark s) (hstart : start = true → ∃ c ∈ s.head?, c ≠ 10) :
    noEmptyLine start (collapseBlank s) = true := by
  fun_induction collapseBlank s generalizing start with
  | case1 =>
    cases start with
    | true =>
      obtain ⟨c, hc, -⟩ := hstart rfl
      cases hc
    | false => rfl
  | case2 c s h ih =>
    have hs : start = false := by
      cases start with
      | true =>
        obtain ⟨x, hx, hne⟩ := hstart rfl
        cases hx
        exact absurd h.1 hne
      | false => rfl
    have hrest : ∃ x ∈ (s.dropWhile isBlank).head?, x ≠ 10 := by
      have hne : s ≠ [] := fun hnil => by rw [hnil] at h; exact List.not_mem_nil h.2
      exact exists_head_dropWhile hend.tail hne
    rw [noEmptyLine, if_pos rfl, hs, ih (hend.tail.of_suffix (List.dropWhile_suffix _)) fun _ => hrest]
    rfl
  | case3 c s h ih =>
    rw [noEmptyLine]
    split
    · next hc =>
      have hs : start = false := by
        cases start with
        | true =>
          obtain ⟨x, hx, hne⟩ := hstart rfl
          cases hx
          exact absurd hc hne
        | false => rfl
      have hhead : ∃ x ∈ s.head?, x ≠ 10 := by
        cases s with
        | nil =>
          have hspace := hend c rfl
          rw [hc] at hspace
          exact absurd hspace (by decide)
        | cons x s =>
          refine ⟨x, rfl, fun hx => h ⟨hc, ?_⟩⟩
          rw [hx, List.takeWhile_cons_of_pos (by decide)]
          exact List.mem_cons_self
      rw [hs, ih hend.tail fun _ => hhead]
      rfl
    · exact ih hend.tail fun h => Bool.noConfusion h

theorem EndsDark.cons (h : EndsDark s) (hnil : s = [] → isSpace c = false) : EndsDark (c :: s) := by
  intro x hx
  cases s with
  | nil =>
    cases hx
    exact hnil rfl
  | cons y s => exact h x (by rwa [List.getLast?_cons_cons] at hx)

theorem unifyLines_eq_nil : unifyLines s = [] ↔ s = [] := by
  constructor
  · intro h
    fun_cases unifyLines s with
    | case1 s => simp [unifyLines] at h
    | case2 c s hne => simp [unifyLines] at h
    | case3 => rfl
  · rintro rfl
    rfl

theorem endsDark_unifyLines (h : EndsDark s) : EndsDark (unifyLines s) := by
  fun_induction unifyLines s with
  | case1 s ih =>
    refine (ih h.tail.tail).cons fun hnil => ?_
    rw [unifyLines_eq_nil.1 hnil] at h
    exact absurd (h 10 rfl) (by decide)
  | case2 c s _ ih =>
    refine (ih h.tail).cons fun hnil => ?_
    rw [unifyLines_eq_nil.1 hnil] at h
    have hc := h c rfl
    split
    · next h13 =>
      rw [h13] at hc
      exact absurd hc (by decide)
    · exact hc
  | case3 => exact h

theorem endsDark_trim : EndsDark (trim s) := by
  intro c hc
  unfold trim at hc
  rw [List.getLast?_reverse] at hc
  have hnot := List.head?_dropWhile_not isSpace (s.dropWhile isSpace).reverse
  rw [hc] at hnot
  simpa using hnot

theorem head?_trim (hne : trim s ≠ []) : ∃ c ∈ (trim s).head?, isSpace c = false := by
  have hprefix : trim s <+: s.dropWhile isSpace := by
    have h := List.dropWhile_suffix isSpace (l := (s.dropWhile isSpace).reverse)
    rw [← List.reverse_prefix, List.reverse_reverse] at h
    exact h
  have hnot := List.head?_dropWhile_not isSpace s
  obtain ⟨t, ht⟩ := hprefix
  cases hs : trim s with
  | nil => exact absurd hs hne
  | cons c u =>
    rw [hs] at ht
    rw [← ht] at hnot
    exact ⟨c, rfl, hnot⟩

/-- The payload of a text with a word. -/
theorem clean_escapeCue (hne : trim s ≠ []) : Clean (escapeCue (trim s)) := by
  have hend := endsDark_unifyLines (endsDark_trim (s := s))
  have hhead : ∃ c ∈ (unifyLines (trim s)).head?, c ≠ 10 := by
    obtain ⟨c, hc, hspace⟩ := head?_trim hne
    cases ht : trim s with
    | nil => exact absurd ht hne
    | cons x t =>
      rw [ht] at hc
      cases hc
      have h13 : c ≠ 13 := fun h => by rw [h] at hspace; exact absurd hspace (by decide)
      refine ⟨c, ?_, fun h => by rw [h] at hspace; exact absurd hspace (by decide)⟩
      rw [unifyLines.eq_2 _ _ fun _ h _ => h13 h, if_neg h13]
      rfl
  unfold escapeCue
  rw [escapeMarkup_eq]
  refine ⟨?_, fun h => ?_, fun h => ?_⟩
  · rw [noEmptyLine_escape, noEmptyLine_collapse hend fun _ => hhead]
  · obtain ⟨c, hc, hx⟩ := List.mem_flatMap.1 h
    rcases (escapeChar_spec c).1 with hself | ⟨-, -, -, hall⟩
    · rw [hself, List.mem_singleton] at hx
      exact cr_not_mem_unifyLines (hx ▸ mem_collapseBlank hc)
    · exact (hall _ hx).2.1 rfl
  · obtain ⟨c, -, hx⟩ := List.mem_flatMap.1 h
    exact (escapeChar_spec c).2 _ hx rfl

/-! ## The words of a payload -/

theorem wordsFrom_unifyLines : wordsFrom cur (unifyLines s) = wordsFrom cur s := by
  fun_induction unifyLines s generalizing cur with
  | case1 s ih =>
    rw [wordsFrom_space (by decide), wordsFrom_space (by decide), wordsFrom_space (by decide), ih]
    rfl
  | case2 c s _ ih =>
    by_cases hc : c = 13
    · subst hc
      rw [if_pos rfl, wordsFrom_space (by decide), wordsFrom_space (by decide), ih]
    · rw [if_neg hc]
      cases hs : isSpace c with
      | true => rw [wordsFrom_space hs, wordsFrom_space hs, ih]
      | false => rw [wordsFrom_char hs, wordsFrom_char hs, ih]
  | case3 => rfl

theorem wordsFrom_collapseBlank : wordsFrom cur (collapseBlank s) = wordsFrom cur s := by
  fun_induction collapseBlank s generalizing cur with
  | case1 => rfl
  | case2 c s h ih =>
    have hrun := wordsFrom_spaces (s := s.dropWhile isBlank) (r := s.takeWhile isBlank)
      fun x hx => isSpace_of_isBlank (List.all_eq_true.1 List.all_takeWhile x hx)
    rw [List.takeWhile_append_dropWhile] at hrun
    rw [h.1, wordsFrom_space (by decide), wordsFrom_space (by decide), ih, hrun]
  | case3 c s _ ih =>
    cases hs : isSpace c with
    | true => rw [wordsFrom_space hs, wordsFrom_space hs, ih]
    | false => rw [wordsFrom_char hs, wordsFrom_char hs, ih]

theorem wordsFrom_escape : wordsFrom (cur.flatMap escapeChar) (s.flatMap escapeChar) = (wordsFrom cur s).map (·.flatMap escapeChar) := by
  have hnil : ∀ u : JsString, u.flatMap escapeChar = [] ↔ u = [] := by
    intro u
    cases u with
    | nil => simp
    | cons c u =>
      rw [List.flatMap_cons]
      rcases (escapeChar_spec c).1 with h | ⟨-, hne, -⟩
      · simp [h]
      · simp [hne]
  have hone : ∀ u : JsString, [u.flatMap escapeChar].filter (· ≠ []) = ([u].filter (· ≠ [])).map (·.flatMap escapeChar) := by
    intro u
    by_cases hu : u = []
    · subst hu
      rfl
    · simp [hu, hnil]
  induction s generalizing cur with
  | nil => exact hone cur
  | cons c s ih =>
    rw [List.flatMap_cons]
    cases hs : isSpace c with
    | true =>
      have hself : escapeChar c = [c] := by
        rcases (escapeChar_spec c).1 with h | ⟨-, -, hno, -⟩
        · exact h
        · rw [hs] at hno
          cases hno
      have hrest : wordsFrom ([].flatMap escapeChar) (s.flatMap escapeChar) = (wordsFrom [] s).map (·.flatMap escapeChar) := ih
      rw [hself, List.singleton_append, wordsFrom_space hs, wordsFrom_space hs, List.map_append, hone, ← hrest]
      rfl
    | false =>
      have hword : ∀ x ∈ escapeChar c, isSpace x = false := by
        intro x hx
        rcases (escapeChar_spec c).1 with h | ⟨-, -, -, hall⟩
        · rw [h, List.mem_singleton] at hx
          rw [hx]
          exact hs
        · exact (hall x hx).2.2.2
      have hcur : cur.flatMap escapeChar ++ escapeChar c = (cur ++ [c]).flatMap escapeChar := by
        rw [List.flatMap_append, List.flatMap_singleton]
      rw [wordsFrom_word hword, wordsFrom_char hs, hcur, ih]

/-- The words of a payload are the text's, with markup escaped. -/
theorem words_escapeCue : words (escapeCue (trim text)) = (words text).map escapeMarkup := by
  have hesc : (escapeMarkup : JsString → JsString) = fun w => w.flatMap escapeChar := funext fun _ => escapeMarkup_eq
  unfold escapeCue
  rw [words_eq, escapeMarkup_eq, hesc]
  have h : wordsFrom ([].flatMap escapeChar) ((collapseBlank (unifyLines (trim text))).flatMap escapeChar) =
      (wordsFrom [] (collapseBlank (unifyLines (trim text)))).map (·.flatMap escapeChar) := wordsFrom_escape
  rw [List.flatMap_nil, wordsFrom_collapseBlank, wordsFrom_unifyLines, wordsFrom_trim] at h
  rw [h, words_eq]

/-! ## Timestamps -/

/-- The two digits of a number below 60. -/
def isSixty : JsString → Bool
  | [a, b] => 48 ≤ a.val && a.val ≤ 53 && isDigit b
  | _ => false

/-- Minutes, seconds and milliseconds. -/
def isTail : JsString → Bool
  | [58, a, b, 58, c, d, 46, x, y, z] => isSixty [a, b] && isSixty [c, d] && [x, y, z].all isDigit
  | _ => false

/-- Two or more digits of hours, two of minutes and of seconds, each below 60, and three
of milliseconds. -/
def isTimestamp (s : JsString) : Bool :=
  let hours := s.take (s.length - 10)
  2 ≤ hours.length && hours.all isDigit && isTail (s.drop (s.length - 10))

theorem isTimestamp_append {h r : JsString} (hr : r.length = 10) :
    isTimestamp (h ++ r) = (2 ≤ h.length && h.all isDigit && isTail r) := by
  have hlen : (h ++ r).length - 10 = h.length := by
    rw [List.length_append]
    omega
  unfold isTimestamp
  rw [hlen, List.take_left, List.drop_left]

theorem padStart_two {n : Nat} (hn : n < 60) : ∃ a b, padStart 2 n = [a, b] ∧ isSixty [a, b] ∧ a ≠ 58 := by
  have hall : ∀ n < 60, (padStart 2 n).length = 2 ∧ isSixty (padStart 2 n) ∧ (padStart 2 n).all (· ≠ 58) := by decide +kernel
  obtain ⟨hlen, hsixty, hne⟩ := hall n hn
  match hp : padStart 2 n, hlen with
  | [a, b], _ =>
    rw [hp] at hsixty hne
    exact ⟨a, b, rfl, hsixty, by simpa using (List.all_eq_true.1 hne a List.mem_cons_self)⟩

theorem stringOf_of_lt {n : Nat} (hzero : n ≠ 0) (hn : n < 10 ^ 21) : stringOf n = decimal n := by
  have hlen := length_decimal_le hn
  rw [stringOf, if_neg hzero, formatDigits, if_pos (by omega), List.replicate_zero, List.append_nil]

theorem padStart_three {n : Nat} (hn : n < 1000) : ∃ x y z, padStart 3 n = [x, y, z] ∧ [x, y, z].all isDigit := by
  have hstring : (stringOf n).length ≤ 3 ∧ (stringOf n).all isDigit = true := by
    by_cases hzero : n = 0
    · rw [hzero]
      decide
    · rw [stringOf_of_lt hzero (hn.trans (by norm_num))]
      exact ⟨length_decimal_le hn, List.all_eq_true.2 fun c hc => isDigit_of_mem_decimal hc⟩
  have hlen : (padStart 3 n).length = 3 := by
    rw [padStart, List.length_append, List.length_replicate]
    omega
  have hdigit : (padStart 3 n).all isDigit := by
    rw [padStart, List.all_append, hstring.2, Bool.and_true, List.all_replicate]
    split <;> decide
  match hp : padStart 3 n, hlen with
  | [x, y, z], _ =>
    rw [hp] at hdigit
    exact ⟨x, y, z, rfl, hdigit⟩

theorem padStart_thousand : padStart 3 1000 = [49, 48, 48, 48] := by decide +kernel

/-- A number is written with digits only up to 21 places. -/
theorem all_isDigit_padStart_iff {n : Nat} : ((2 ≤ (padStart 2 n).length && (padStart 2 n).all isDigit) = true) ↔ n < 10 ^ 21 := by
  have hzeros : ∀ k, (List.replicate k (48 : CodeUnit)).all isDigit = true := fun k => by
    rw [List.all_replicate]
    split <;> decide
  have hlen : 2 ≤ (padStart 2 n).length := by
    unfold padStart
    rw [List.length_append, List.length_replicate]
    omega
  rw [Bool.and_eq_true, decide_eq_true_eq]
  refine (and_iff_right hlen).trans ?_
  unfold padStart
  rw [List.all_append, hzeros, Bool.true_and]
  unfold stringOf
  by_cases h0 : n = 0
  · subst h0
    rw [if_pos rfl]
    exact ⟨fun _ => by positivity, fun _ => by decide⟩
  rw [if_neg h0]
  unfold formatDigits
  constructor
  · intro h
    by_contra hlarge
    have hlong : ¬ (decimal n).length + 0 ≤ 21 := by
      intro hshort
      have hlt := lt_pow_decimal n
      exact hlarge (hlt.trans_le (Nat.pow_le_pow_right (by decide) hshort))
    rw [if_neg hlong] at h
    have he := List.all_eq_true.1 h 101 (by
      refine List.mem_append_left _ (List.mem_append_right _ ?_)
      decide)
    exact absurd he (by decide)
  · intro hsmall
    have hshort : (decimal n).length + 0 ≤ 21 := length_decimal_le hsmall
    rw [if_pos hshort, List.replicate_zero, List.append_nil]
    exact List.all_eq_true.2 fun c hc => isDigit_of_mem_decimal hc

/-- The time is printed with a field for its milliseconds. -/
structure Printable (q : ℚ) : Prop where
  hours : ⌊q⌋.toNat / 3600 < 10 ^ 21
  millis : Int.fract q < 1999 / 2000

theorem millis_lt_iff : millis q < 1000 ↔ Int.fract q < 1999 / 2000 := by
  unfold millis
  have hnonneg : 0 ≤ ⌊(q - ⌊q⌋) * 1000 + 1 / 2⌋ := Int.floor_nonneg.2 (by
    have h := Int.fract_nonneg q
    rw [Int.fract] at h
    linarith)
  have hcast : ⌊(q - ⌊q⌋) * 1000 + 1 / 2⌋.toNat < 1000 ↔ ⌊(q - ⌊q⌋) * 1000 + 1 / 2⌋ < 1000 := by omega
  rw [hcast, Int.floor_lt, Int.fract]
  push_cast
  constructor
  · intro h
    linarith
  · intro h
    linarith

theorem millis_le : millis q ≤ 1000 := by
  unfold millis
  have hlt : ⌊(q - ⌊q⌋) * 1000 + 1 / 2⌋ < 1001 := by
    rw [Int.floor_lt]
    have h := Int.fract_lt_one q
    rw [Int.fract] at h
    push_cast
    linarith
  omega

theorem isTimestamp_iff (hq : 0 ≤ q) : isTimestamp (vttTimestamp q) = true ↔ Printable q := by
  obtain ⟨a, b, hm, hmok, ha⟩ := padStart_two (n := ⌊q⌋.toNat % 3600 / 60) (by omega)
  obtain ⟨c, e, hs, hsok, -⟩ := padStart_two (n := ⌊q⌋.toNat % 60) (by omega)
  have hprint : Printable q ↔ ⌊q⌋.toNat / 3600 < 10 ^ 21 ∧ millis q < 1000 :=
    ⟨fun h => ⟨h.1, millis_lt_iff.2 h.2⟩, fun h => ⟨h.1, millis_lt_iff.1 h.2⟩⟩
  unfold vttTimestamp
  rw [max_eq_right hq, hprint]
  dsimp only
  rw [hm, hs]
  by_cases hms : millis q < 1000
  · obtain ⟨x, y, z, hp, hdigits⟩ := padStart_three hms
    rw [hp]
    simp only [List.cons_append, List.nil_append]
    rw [isTimestamp_append rfl]
    simp only [isTail, hmok, hsok, hdigits, Bool.and_self, Bool.and_true]
    rw [all_isDigit_padStart_iff]
    exact ⟨fun h => ⟨h, hms⟩, fun h => h.1⟩
  · have h1000 : millis q = 1000 := le_antisymm millis_le (not_lt.1 hms)
    rw [h1000, padStart_thousand]
    refine ⟨fun h => ?_, fun h => absurd h.2 (lt_irrefl _)⟩
    have hshape : padStart 2 (⌊q⌋.toNat / 3600) ++ 58 :: ([a, b] ++ 58 :: ([c, e] ++ 46 :: [49, 48, 48, 48])) =
        (padStart 2 (⌊q⌋.toNat / 3600) ++ [58]) ++ [a, b, 58, c, e, 46, 49, 48, 48, 48] := by simp
    rw [hshape, isTimestamp_append rfl] at h
    have htail : isTail [a, b, 58, c, e, 46, 49, 48, 48, 48] = false := by
      unfold isTail
      split
      · next heq => exact absurd (List.cons.inj heq).1 ha
      · rfl
    rw [htail, Bool.and_false] at h
    cases h

/-! ## The captions -/

/-- The chunks of a transcript. -/
def chunksOf (text : JsString) (d : ℚ) : List JsString := splitForCues (trim text) (cueLimit (trim text) d)

/-- The cues of a transcript. -/
def cuesOf (text : JsString) (d : ℚ) : List Segment :=
  if (chunksOf text d).length ≤ 1 then [⟨0, d, trim text⟩] else spread (charCount (chunksOf text d)) d 0 (chunksOf text d)

/-- The file of the cues; a single one has no number. -/
def document (cues : List Segment) : JsString :=
  match cues with
  | [c] => js "WEBVTT\n\n" ++ cueBody c.start c.end_ (escapeCue (trim c.text)) ++ [10]
  | cues => js "WEBVTT\n\n" ++ joinCues 1 cues ++ [10]

/-- The cues say the text and cover the clip. -/
structure Covering (text : JsString) (d : ℚ) (cues : List Segment) : Prop where
  words : cues.flatMap (fun c => words (escapeCue (trim c.text))) = (words text).map escapeMarkup
  times : Gapless 0 d cues
  clean : ∀ c ∈ cues, Clean (escapeCue (trim c.text))
  count : cues ≠ [] ∧ (cues.length : ℤ) ≤ max 1 ⌊d / 2⌋

theorem wordsFrom_ne_nil (hcur : cur ≠ []) : wordsFrom cur s ≠ [] := by
  induction s generalizing cur with
  | nil =>
    rw [wordsFrom_nil hcur]
    exact List.cons_ne_nil _ _
  | cons c s ih =>
    cases hc : isSpace c with
    | true =>
      rw [wordsFrom_space hc]
      simp [hcur]
    | false =>
      rw [wordsFrom_char hc]
      exact ih (List.append_ne_nil_of_right_ne_nil _ (List.cons_ne_nil _ _))

theorem trim_ne_nil (hw : words text ≠ []) : trim text ≠ [] := by
  intro h
  rw [← words_trim, h] at hw
  exact hw rfl

theorem words_ne_nil (h : trim text ≠ []) : words text ≠ [] := by
  obtain ⟨c, hc, hspace⟩ := head?_trim h
  cases ht : trim text with
  | nil => exact absurd ht h
  | cons x t =>
    rw [ht] at hc
    cases hc
    rw [← words_trim, words_eq, ht, wordsFrom_char hspace]
    exact wordsFrom_ne_nil (List.cons_ne_nil _ _)

theorem cueLimit_le (hd : 0 < d) : ((max 1 (cueLimit s d) : Nat) : ℤ) ≤ max 1 ⌊d / 2⌋ := by
  have hnonneg : 0 ≤ ⌊d / 2⌋ := Int.floor_nonneg.2 (by positivity)
  have htwo : (minCueSec : ℚ) = 2 := rfl
  unfold cueLimit
  rw [htwo]
  omega

/-- The chunks of a text with a word. -/
theorem chunksOf_spec (hw : words text ≠ []) (hd : 0 < d) : (chunksOf text d).flatMap words = words text ∧
    ((chunksOf text d).length : ℤ) ≤ max 1 ⌊d / 2⌋ ∧ (∀ c ∈ chunksOf text d, words c ≠ []) ∧ chunksOf text d ≠ [] ∧ charCount (chunksOf text d) ≠ 0 := by
  obtain ⟨hall, hlen, hne⟩ := splitForCues_spec (trim text) (cueLimit (trim text) d)
  rw [words_trim] at hall
  have hchunks : chunksOf text d ≠ [] := by
    intro h
    unfold chunksOf at h
    rw [h] at hall
    exact hw hall.symm
  refine ⟨hall, le_trans (by exact_mod_cast hlen) (cueLimit_le (s := trim text) hd), hne, hchunks, fun hzero => ?_⟩
  obtain ⟨c, hc⟩ := List.exists_mem_of_ne_nil _ hchunks
  unfold charCount at hzero
  rw [List.sum_eq_zero_iff] at hzero
  have hnil := List.length_eq_zero_iff.1 (hzero _ (List.mem_map_of_mem hc))
  exact hne c hc (by rw [hnil]; rfl)

/-- The cues have the times of the chunks' shares. -/
theorem cuesOf_times {P : ℚ → ℚ → Prop} (hw : words text ≠ []) (hd : 0 < d) : (∀ c ∈ cuesOf text d, P c.start c.end_) ↔
    ∀ c ∈ spread (charCount (chunksOf text d)) d 0 (chunksOf text d), P c.start c.end_ := by
  obtain ⟨-, -, -, hne, -⟩ := chunksOf_spec hw hd
  unfold cuesOf
  split
  · next h =>
    match hc : chunksOf text d, hne, h with
    | [c], _, _ => simp only [spread, List.mem_singleton, forall_eq]
  · exact Iff.rfl

theorem cuesOf_gapless (hw : words text ≠ []) (hd : 0 < d) : Gapless 0 d (cuesOf text d) := by
  obtain ⟨-, -, -, hne, htotal⟩ := chunksOf_spec hw hd
  unfold cuesOf
  split
  · refine ⟨fun c hc => Option.some.inj hc ▸ rfl, fun c hc => Option.some.inj hc ▸ rfl, List.isChain_singleton _, fun c hc => ?_⟩
    rw [List.mem_singleton.1 hc]
    exact hd.le
  · have h := spread_gapless (n := 0) hd htotal (Nat.zero_add _)
    rwa [Nat.cast_zero, zero_div, zero_mul] at h

/-- The text of a cue has a word. -/
theorem cuesOf_texts (hw : words text ≠ []) (hd : 0 < d) :
    (∀ c ∈ cuesOf text d, words c.text ≠ []) ∧ (cuesOf text d).flatMap (fun c => words c.text) = words text := by
  obtain ⟨hall, -, hwords, -, -⟩ := chunksOf_spec hw hd
  unfold cuesOf
  split
  · refine ⟨fun c hc => ?_, by rw [List.flatMap_singleton, words_trim]⟩
    rw [List.mem_singleton.1 hc, words_trim]
    exact hw
  · have htexts : (spread (charCount (chunksOf text d)) d 0 (chunksOf text d)).map (·.text) = chunksOf text d := spread_texts
    refine ⟨fun c hc => hwords _ (htexts ▸ List.mem_map_of_mem hc), ?_⟩
    rw [← hall]
    conv_rhs => rw [← htexts]
    rw [List.flatMap_map]

theorem timedCuesVtt_eq (hw : words text ≠ []) (hd : 0 < d) : timedCuesVtt text d = document (cuesOf text d) := by
  obtain ⟨-, -, hwords, hne, -⟩ := chunksOf_spec hw hd
  unfold timedCuesVtt
  rw [if_neg (trim_ne_nil hw)]
  show (if (chunksOf text d).length ≤ 1 then _ else _) = _
  unfold cuesOf
  split
  · have hbody : escapeCue (trim (trim text)) ≠ [] := by
      intro h
      have hmap : words (escapeCue (trim (trim text))) = (words (trim text)).map escapeMarkup := words_escapeCue
      rw [h, words_trim] at hmap
      exact hw (List.map_eq_nil_iff.1 hmap.symm)
    unfold singleCueVtt
    dsimp only
    rw [if_neg hbody]
    rfl
  · next hlong =>
    have htexts : (spread (charCount (chunksOf text d)) d 0 (chunksOf text d)).map (·.text) = chunksOf text d := spread_texts
    have hkeep : (spread (charCount (chunksOf text d)) d 0 (chunksOf text d)).filter (fun c => trim c.text ≠ []) =
        spread (charCount (chunksOf text d)) d 0 (chunksOf text d) :=
      List.filter_eq_self.2 fun c hc => decide_eq_true (trim_ne_nil (hwords _ (htexts ▸ List.mem_map_of_mem hc)))
    have hlen := congrArg List.length htexts
    rw [List.length_map] at hlen
    show segmentsToVtt (spread (charCount (chunksOf text d)) d 0 (chunksOf text d)) = _
    unfold segmentsToVtt
    rw [hkeep]
    match hs : spread (charCount (chunksOf text d)) d 0 (chunksOf text d), hlen with
    | [], hlen =>
      rw [List.length_nil] at hlen
      omega
    | [c], hlen =>
      rw [List.length_singleton] at hlen
      omega
    | a :: b :: cs, _ => rfl

/-- The captions are the text and cover the clip; each time is printed well exactly where
no boundary of the chunks' shares rounds up to a full second, up to 10 ^ 21 hours. -/
theorem timedCues_valid_iff (text : JsString) (d : ℚ) (hw : words text ≠ []) (hd : 0 < d) :
    timedCuesVtt text d = document (cuesOf text d) ∧ Covering text d (cuesOf text d) ∧
      ((∀ c ∈ cuesOf text d, isTimestamp (vttTimestamp c.start) ∧ isTimestamp (vttTimestamp c.end_)) ↔
        ∀ b ∈ boundaries (charCount (chunksOf text d)) d 0 (chunksOf text d), Printable b) := by
  obtain ⟨-, hcount, -, hne, htotal⟩ := chunksOf_spec hw hd
  obtain ⟨htexts, hall⟩ := cuesOf_texts hw hd
  have htimes := cuesOf_gapless hw hd
  refine ⟨timedCuesVtt_eq hw hd, ⟨?_, htimes, fun c hc => clean_escapeCue (trim_ne_nil (htexts c hc)), ?_⟩, ?_⟩
  · simp only [words_escapeCue]
    rw [← hall, List.map_flatMap]
  · unfold cuesOf
    split
    · exact ⟨List.cons_ne_nil _ _, le_max_left _ _⟩
    · have htexts : (spread (charCount (chunksOf text d)) d 0 (chunksOf text d)).map (·.text) = chunksOf text d := spread_texts
      have hlen := congrArg List.length htexts
      rw [List.length_map] at hlen
      exact ⟨fun h => hne (List.length_eq_zero_iff.1 (by rw [← hlen, h]; rfl)), by rw [hlen]; exact hcount⟩
  · have hnonneg := htimes.from_le
    have hspread := spread_times (P := Printable) (n := 0) (d := d) htotal (Nat.zero_add _) hne
    rw [Nat.cast_zero, zero_div, zero_mul] at hspread
    rw [← hspread, ← cuesOf_times (P := fun a b => Printable a ∧ Printable b) hw hd]
    refine forall₂_congr fun c hc => ?_
    rw [isTimestamp_iff (hnonneg c hc).1, isTimestamp_iff (hnonneg c hc).2]

/-- The end of a clip of 0.9996 seconds is printed with four digits of milliseconds. -/
theorem timedCues_thousand : words (js "hi") ≠ [] ∧
    timedCuesVtt (js "hi") (2499 / 2500) = js "WEBVTT\n\n00:00:00.000 --> 00:00:00.1000\nhi\n" ∧
    isTimestamp (js "00:00:00.000") = true ∧ isTimestamp (js "00:00:00.1000") = false := by
  decide +kernel

theorem timedCues_half : timedCuesVtt (js "hi") (1 / 2) = document (cuesOf (js "hi") (1 / 2)) ∧ Covering (js "hi") (1 / 2) (cuesOf (js "hi") (1 / 2)) := by
  have h := timedCues_valid_iff (js "hi") (1 / 2) (by decide +kernel) (by norm_num)
  exact ⟨h.1, h.2.1⟩

end Nostrautica.Vtt
