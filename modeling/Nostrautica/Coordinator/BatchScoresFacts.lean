/-
What a scoring batch makes of a response: everyone is scored or missing, and a
score follows the person that its row is about.
-/
import Nostrautica.Coordinator.BatchScores

namespace Nostrautica.BatchScores

open Js

variable {x : Machine} {o o' candidates : List BatchCandidate} {ms ms' : List RawBatchMatch} {m m' : RawBatchMatch}
  {a b : Accepted} {pick pick' : (i : Nat) → Fin (i + 1)}

/-! ## The shuffle -/

theorem swapIfInBounds_perm {α : Type*} (l : Array α) (i j : Nat) : (l.swapIfInBounds i j).Perm l := by
  rw [Array.swapIfInBounds_def]
  split
  · split
    · exact Array.swap_perm _ _
    · exact .refl _
  · exact .refl _

theorem shuffleFrom_perm {α : Type*} (pick : (i : Nat) → Fin (i + 1)) : ∀ (n : Nat) (l : Array α), (shuffleFrom pick n l).Perm l
  | 0, _ => .refl _
  | n + 1, l => (shuffleFrom_perm pick n _).trans (swapIfInBounds_perm l _ _)

/-- A shuffle leaves nobody out and adds nobody. -/
theorem shuffle_perm {α : Type*} (pick : (i : Nat) → Fin (i + 1)) (l : List α) : (shuffle pick l).Perm l :=
  (Array.perm_iff_toList_perm.mp (shuffleFrom_perm pick (l.length - 1) l.toArray)).trans (by simp)

/-! ## What a row offers -/

/-- The subject of a row that can be used, with what is kept of the row. -/
def propose (x : Machine) (ordered : List BatchCandidate) (m : RawBatchMatch) : Option Accepted := do
  let (idx, c) ← atIndex ordered m.index
  let reasoning ← m.reasoning_for_target.filter (· ≠ [])
  let raw ← rawTriple m
  let (subject, _) ← resolveEntry x ordered idx c m.entry_name
  some ⟨subject.id, raw, reasoning, normalizeIcebreakers m.icebreakers⟩

/-- A row about someone who has one is dropped. -/
def addFirst (accepted : List Accepted) (a : Accepted) : List Accepted :=
  if accepted.any (·.id = a.id) then accepted else accepted ++ [a]

theorem accepted_collect (word : JsString) (st : Collected) :
    (collect x o word st m).accepted = match propose x o m with
      | none => st.accepted
      | some a => addFirst st.accepted a := by
  unfold collect propose
  cases hat : atIndex o m.index with
  | none => rfl
  | some p =>
    obtain ⟨idx, c⟩ := p
    cases hr : m.reasoning_for_target.filter (· ≠ []) with
    | none => simp
    | some reasoning =>
      cases hraw : rawTriple m with
      | none => simp
      | some raw =>
        cases hres : resolveEntry x o idx c m.entry_name with
        | none => simp [hres]
        | some q => simp [hres, addFirst]

theorem accepted_collectAll (word : JsString) (ms : List RawBatchMatch) :
    (collectAll x o word ms).accepted = (ms.filterMap (propose x o)).foldl addFirst [] := by
  have key : ∀ (ms : List RawBatchMatch) (st : Collected),
      (ms.foldl (collect x o word) st).accepted = (ms.filterMap (propose x o)).foldl addFirst st.accepted := by
    intro ms
    induction ms with
    | nil => exact fun _ => rfl
    | cons m ms ih =>
      intro st
      rw [List.foldl_cons, ih, accepted_collect]
      cases hp : propose x o m with
      | none => rw [List.filterMap_cons_none hp]
      | some a => rw [List.filterMap_cons_some hp, List.foldl_cons]
  exact key ms _

/-! ## The first row of each -/

variable {l acc : List Accepted}

theorem nodup_addFirst (h : (acc.map (·.id)).Nodup) (a : Accepted) : ((addFirst acc a).map (·.id)).Nodup := by
  unfold addFirst
  split
  · exact h
  · next hany =>
    rw [List.map_append, List.map_singleton, List.nodup_append]
    refine ⟨h, List.nodup_singleton _, ?_⟩
    intro i hi j hj
    rw [List.mem_singleton.mp hj]
    rintro rfl
    obtain ⟨b, hb, hid⟩ := List.mem_map.mp hi
    exact hany (List.any_eq_true.mpr ⟨b, hb, decide_eq_true hid⟩)

theorem nodup_foldl_addFirst (h : (acc.map (·.id)).Nodup) : ((l.foldl addFirst acc).map (·.id)).Nodup := by
  induction l generalizing acc with
  | nil => exact h
  | cons a l ih => exact ih (nodup_addFirst h a)

theorem mem_foldl_addFirst (h : a ∈ l.foldl addFirst acc) : a ∈ acc ∨ a ∈ l := by
  induction l generalizing acc with
  | nil => exact .inl h
  | cons b l ih =>
    rcases ih h with h | h
    · unfold addFirst at h
      split at h
      · exact .inl h
      · rcases List.mem_append.mp h with h | h
        · exact .inl h
        · exact .inr (List.mem_singleton.mp h ▸ List.mem_cons_self)
    · exact .inr (List.mem_cons_of_mem _ h)

/-- Where no two rows are about one person, none is dropped. -/
theorem foldl_addFirst_of_nodup (h : ((acc ++ l).map (·.id)).Nodup) : l.foldl addFirst acc = acc ++ l := by
  induction l generalizing acc with
  | nil => exact (List.append_nil acc).symm
  | cons a l ih =>
    have hadd : addFirst acc a = acc ++ [a] := by
      refine if_neg fun hany => ?_
      obtain ⟨b, hb, hid⟩ := List.any_eq_true.mp hany
      rw [List.map_append, List.nodup_append] at h
      exact h.2.2 b.id (List.mem_map_of_mem hb) a.id (by simp) (of_decide_eq_true hid)
    have hassoc : acc ++ a :: l = (acc ++ [a]) ++ l := by simp
    rw [List.foldl_cons, hadd, hassoc]
    exact ih (hassoc ▸ h)

/-! ## Whose row it is -/

/-- The row that a score is of: it is about the candidate at its index, or about
the one candidate whose name it says. -/
def FromRow (x : Machine) (ordered : List BatchCandidate) (ms : List RawBatchMatch) (a : Accepted) : Prop :=
  ∃ m ∈ ms, ∃ idx c₀ c, atIndex ordered m.index = some (idx, c₀) ∧ c ∈ ordered ∧ c.id = a.id ∧
    rawTriple m = some a.raw ∧ m.reasoning_for_target = some a.reasoning ∧ a.icebreakers = normalizeIcebreakers m.icebreakers ∧
    (c = c₀ ∨ (foldName x m.entry_name = printed x c ∧ ∀ c' ∈ ordered, printed x c' = printed x c → c' = c))

theorem mem_of_atIndex {index : Option Int} {idx : Int} {c : BatchCandidate} (h : atIndex o index = some (idx, c)) : c ∈ o := by
  obtain ⟨i, -, h⟩ := Option.bind_eq_some_iff.mp h
  split at h
  · obtain ⟨d, hd, heq⟩ := Option.map_eq_some_iff.mp h
    rw [← (Prod.mk.inj heq).2]
    exact List.mem_of_getElem? hd
  · cases h

theorem resolveEntry_cases {idx : Int} {c₀ : BatchCandidate} {echoed : Option JsString} {q : BatchCandidate × Option JsString}
    (h : resolveEntry x o idx c₀ echoed = some q) :
    q.1 = c₀ ∨ (q.1 ∈ o ∧ foldName x echoed = printed x q.1 ∧ ∀ c' ∈ o, printed x c' = printed x q.1 → c' = q.1) := by
  unfold resolveEntry at h
  simp only at h
  split at h
  · cases h
    exact .inl rfl
  · split at h
    · next c hc =>
      cases h
      have hmem : ∀ c', c' ∈ o ∧ printed x c' = foldName x echoed ↔ c' = c := by
        intro c'
        have := congrArg (c' ∈ ·) hc
        simpa [List.mem_filter] using this
      obtain ⟨hin, hname⟩ := (hmem c).mpr rfl
      exact .inr ⟨hin, hname.symm, fun c' hc' he => (hmem c').mp ⟨hc', he.trans hname⟩⟩
    · cases h

theorem fromRow_of_propose (hm : m ∈ ms) (h : propose x o m = some a) : FromRow x o ms a := by
  unfold propose at h
  simp only [Option.bind_eq_bind, Option.bind_eq_some_iff] at h
  obtain ⟨⟨idx, c₀⟩, hat, reasoning, hr, raw, hraw, ⟨subject, corrected⟩, hres, ha⟩ := h
  cases ha
  have hreason : m.reasoning_for_target = some reasoning := (Option.filter_eq_some_iff.mp hr).1
  have hmem := mem_of_atIndex hat
  rcases resolveEntry_cases hres with hs | ⟨hin, hname, hall⟩
  · have hs : subject = c₀ := hs
    exact ⟨m, hm, idx, c₀, subject, hat, hs ▸ hmem, rfl, hraw, hreason, rfl, .inl hs⟩
  · exact ⟨m, hm, idx, c₀, subject, hat, hin, rfl, hraw, hreason, rfl, .inr ⟨hname, hall⟩⟩

theorem fromRow_of_accepted {word : JsString} (h : a ∈ (collectAll x o word ms).accepted) : FromRow x o ms a := by
  rw [accepted_collectAll] at h
  rcases mem_foldl_addFirst h with h | h
  · exact absurd h List.not_mem_nil
  · obtain ⟨m, hm, hp⟩ := List.mem_filterMap.mp h
    exact fromRow_of_propose hm hp

theorem mem_ids_of_fromRow (h : FromRow x o ms a) : a.id ∈ o.map (·.id) := by
  obtain ⟨m, hm, idx, c₀, c, -, hc, hid, -⟩ := h
  exact hid ▸ List.mem_map_of_mem hc

/-! ## Another shuffle -/

/-- The same row under another shuffle: its index is that of the same candidate, or
of none in both. -/
def SameRow (o o' : List BatchCandidate) (m m' : RawBatchMatch) : Prop :=
  m' = { m with index := m'.index } ∧ (atIndex o m.index).map (·.2) = (atIndex o' m'.index).map (·.2)

theorem filter_eq_singleton (h : o.Perm o') {f : BatchCandidate → Bool} {c : BatchCandidate} :
    o.filter f = [c] ↔ o'.filter f = [c] := by
  constructor
  · intro hc
    exact List.perm_singleton.mp (hc ▸ (h.filter f).symm)
  · intro hc
    exact List.perm_singleton.mp (hc ▸ h.filter f)

/-- The subject of a row does not hang on the order of the candidates. -/
theorem resolveEntry_perm (h : o.Perm o') (idx idx' : Int) (c : BatchCandidate) (echoed : Option JsString) :
    (resolveEntry x o idx c echoed).map (·.1) = (resolveEntry x o' idx' c echoed).map (·.1) := by
  unfold resolveEntry
  simp only
  split
  · rfl
  · cases hf : o.filter fun c => printed x c = foldName x echoed with
    | nil =>
      have hnil : o'.filter (fun c => printed x c = foldName x echoed) = [] := List.nil_perm.mp (hf ▸ h.filter _)
      rw [hnil]
    | cons d ds =>
      cases ds with
      | nil =>
        rw [(filter_eq_singleton h).mp hf]
        rfl
      | cons e ds =>
        have hperm := hf ▸ h.filter fun c => printed x c = foldName x echoed
        have hlen := hperm.length_eq
        cases hf' : o'.filter fun c => printed x c = foldName x echoed with
        | nil => rfl
        | cons d' ds' =>
          cases ds' with
          | nil =>
            rw [hf'] at hlen
            simp at hlen
          | cons e' ds' => rfl

theorem propose_eq (h : o.Perm o') (hm : SameRow o o' m m') : propose x o m = propose x o' m' := by
  obtain ⟨hrow, hat⟩ := hm
  have hreason : m'.reasoning_for_target = m.reasoning_for_target := by rw [hrow]
  have htriple : rawTriple m' = rawTriple m := by rw [hrow]; rfl
  have hicebreakers : m'.icebreakers = m.icebreakers := by rw [hrow]
  have hecho : m'.entry_name = m.entry_name := by rw [hrow]
  unfold propose
  rw [hreason, htriple, hicebreakers, hecho]
  cases h₁ : atIndex o m.index with
  | none =>
    rw [h₁, Option.map_none] at hat
    rw [Option.map_eq_none_iff.mp hat.symm]
    rfl
  | some p =>
    rw [h₁, Option.map_some] at hat
    obtain ⟨q, hq, hpq⟩ := Option.map_eq_some_iff.mp hat.symm
    rw [hq]
    simp only [Option.bind_eq_bind, Option.bind_some, hpq]
    have hres := resolveEntry_perm (x := x) h p.1 q.1 p.2 m.entry_name
    cases hr₁ : resolveEntry x o p.1 p.2 m.entry_name with
    | none =>
      rw [hr₁, Option.map_none] at hres
      rw [Option.map_eq_none_iff.mp hres.symm]
    | some e =>
      rw [hr₁, Option.map_some] at hres
      obtain ⟨e', he', hee⟩ := Option.map_eq_some_iff.mp hres.symm
      rw [he']
      simp only [Option.bind_some, hee]

theorem filterMap_propose (h : o.Perm o') (hms : List.Forall₂ (SameRow o o') ms ms') :
    ms.filterMap (propose x o) = ms'.filterMap (propose x o') := by
  induction hms with
  | nil => rfl
  | cons hm _ ih => rw [List.filterMap_cons, List.filterMap_cons, propose_eq h hm, ih]

/-- Whom the usable rows of a response are about. -/
def subjects (x : Machine) (ordered : List BatchCandidate) (ms : List RawBatchMatch) : List JsString :=
  (ms.filterMap (propose x ordered)).map (·.id)

/-- A response to another shuffle, with the same row for each candidate: in the
same order, or in any where no two usable rows are about one person. -/
def SameResponse (x : Machine) (o o' : List BatchCandidate) (ms ms' : List RawBatchMatch) : Prop :=
  ∃ ms₁, List.Forall₂ (SameRow o o') ms ms₁ ∧ ms₁.Perm ms' ∧ (ms₁ = ms' ∨ (subjects x o ms).Nodup)

theorem accepted_perm {word word' : JsString} (h : o.Perm o') (hms : SameResponse x o o' ms ms') :
    (collectAll x o word ms).accepted.Perm (collectAll x o' word' ms').accepted := by
  obtain ⟨ms₁, hrows, hperm, hor⟩ := hms
  have heq := filterMap_propose (x := x) h hrows
  rw [accepted_collectAll, accepted_collectAll]
  rcases hor with rfl | hnodup
  · rw [heq]
  · have hperm' := hperm.filterMap (propose x o')
    unfold subjects at hnodup
    rw [heq] at hnodup ⊢
    have hnodup' := (hperm'.map (·.id)).nodup_iff.mp hnodup
    have hall : ∀ l : List Accepted, (l.map (·.id)).Nodup → l.foldl addFirst [] = l := fun l h => foldl_addFirst_of_nodup h
    rw [hall _ hnodup, hall _ hnodup']
    exact hperm'

theorem responseMax_perm {l l' : List RawTriple} (h : l.Perm l') : responseMax l = responseMax l' := by
  refine h.foldl_eq' (fun r _ r' _ m => ?_) 0
  simp only [max_comm, max_left_comm]

theorem scoresOf_perm {l l' : List Accepted} (h : l.Perm l') : (scoresOf x l).Perm (scoresOf x l') := by
  have hmax := responseMax_perm (h.map (·.raw))
  have hdiv : responseScaleDivisor (l.map (·.raw)) = responseScaleDivisor (l'.map (·.raw)) := by
    unfold responseScaleDivisor
    rw [hmax]
  unfold scoresOf
  rw [hdiv]
  exact h.map _

/-! ## The result -/

theorem scores_scoreBatch : (scoreBatch x pick candidates ms).scores =
    scoresOf x (collectAll x (shuffle pick candidates) (js "candidate") ms).accepted := by
  unfold scoreBatch
  split
  · next h =>
    have hnil : (collectAll x (shuffle pick candidates) (js "candidate") ms).accepted = [] := by
      refine List.eq_nil_iff_forall_not_mem.mpr fun a ha => ?_
      have hid := mem_ids_of_fromRow (fromRow_of_accepted ha)
      rw [((shuffle_perm pick candidates).map _).mem_iff, h] at hid
      exact List.not_mem_nil hid
    rw [hnil]
    rfl
  · rfl

theorem missing_scoreBatch : (scoreBatch x pick candidates ms).missing =
    (candidates.filter fun c => !(scoreBatch x pick candidates ms).scores.any (·.1 = c.id)).map (·.id) := by
  unfold scoreBatch
  split
  · next h => rw [h]; rfl
  · rfl

theorem ids_scoresOf (l : List Accepted) : (scoresOf x l).map (·.1) = l.map (·.id) := by simp [scoresOf]

/-- Scores and missing people are the candidates, each once. -/
theorem partition (hids : (candidates.map (·.id)).Nodup) : ((scoreBatch x pick candidates ms).scores.map (·.1) ++
    (scoreBatch x pick candidates ms).missing).Perm (candidates.map (·.id)) := by
  have hmiss : ∀ i, i ∈ (scoreBatch x pick candidates ms).missing ↔
      i ∈ candidates.map (·.id) ∧ i ∉ (scoreBatch x pick candidates ms).scores.map (·.1) := by
    intro i
    rw [missing_scoreBatch]
    simp only [List.mem_map, List.mem_filter, Bool.not_eq_true', List.any_eq_false, decide_eq_true_eq]
    constructor
    · rintro ⟨c, ⟨hc, hno⟩, rfl⟩
      exact ⟨⟨c, hc, rfl⟩, fun ⟨e, he, hid⟩ => hno e he hid⟩
    · rintro ⟨⟨c, hc, rfl⟩, hno⟩
      exact ⟨c, ⟨hc, fun e he hid => hno ⟨e, he, hid⟩⟩, rfl⟩
  have hscored : ∀ i ∈ (scoreBatch x pick candidates ms).scores.map (·.1), i ∈ candidates.map (·.id) := by
    intro i hi
    rw [scores_scoreBatch, ids_scoresOf] at hi
    obtain ⟨a, ha, rfl⟩ := List.mem_map.mp hi
    exact ((shuffle_perm pick candidates).map _).mem_iff.mp (mem_ids_of_fromRow (fromRow_of_accepted ha))
  have hnodup : ((scoreBatch x pick candidates ms).scores.map (·.1)).Nodup := by
    rw [scores_scoreBatch, ids_scoresOf, accepted_collectAll]
    exact nodup_foldl_addFirst List.nodup_nil
  have hnodup' : (scoreBatch x pick candidates ms).missing.Nodup := by
    rw [missing_scoreBatch]
    exact hids.sublist (List.filter_sublist.map _)
  refine (List.perm_ext_iff_of_nodup ?_ hids).mpr fun i => ?_
  · exact List.nodup_append.mpr ⟨hnodup, hnodup', fun i hi j hj he => ((hmiss j).mp hj).2 (he ▸ hi)⟩
  · rw [List.mem_append, hmiss]
    constructor
    · rintro (h | h)
      · exact hscored i h
      · exact h.1
    · intro h
      exact (Classical.em _).imp_right fun hno => ⟨h, hno⟩

theorem normalizeScore_unit (v d : ℚ) : 0 ≤ normalizeScore x v d ∧ normalizeScore x v d ≤ 1 :=
  ⟨le_max_left _ _, max_le zero_le_one (min_le_left _ _)⟩

theorem divisor_pos (l : List RawTriple) : 0 < responseScaleDivisor l := by
  unfold responseScaleDivisor
  split
  · norm_num
  · split <;> norm_num

/-- One divisor keeps the order of raw values. -/
theorem normalizeScore_mono (hx : Monotone x.round) {v w d : ℚ} (hd : 0 < d) (h : v ≤ w) :
    normalizeScore x v d ≤ normalizeScore x w d :=
  max_le_max le_rfl (min_le_min le_rfl (hx (div_le_div_of_nonneg_right h hd.le)))

/-- Where one raw value is at most another, so are the values stored of them. -/
structure Ordered (a b : Accepted) (sa sb : Scoring.Score ℚ) : Prop where
  score : a.raw.score ≤ b.raw.score → sa.score ≤ sb.score
  similarity : a.raw.similarity ≤ b.raw.similarity → sa.similarity ≤ sb.similarity
  complementarity : a.raw.complementarity ≤ b.raw.complementarity → sa.complementarity ≤ sb.complementarity

theorem ordered_directedScore (hx : Monotone x.round) {d : ℚ} (hd : 0 < d) (a b : Accepted) :
    Ordered a b (directedScore x d a) (directedScore x d b) where
  score h := normalizeScore_mono hx hd h
  similarity h := normalizeScore_mono hx hd h
  complementarity h := normalizeScore_mono hx hd h

theorem fields_directedScore (d : ℚ) (a : Accepted) :
    (directedScore x d a).reasoning = a.reasoning ∧ (directedScore x d a).icebreakers = a.icebreakers :=
  ⟨rfl, rfl⟩

theorem exists_rows (x : Machine) (pick : (i : Nat) → Fin (i + 1)) (candidates : List BatchCandidate) (ms : List RawBatchMatch) :
    ∃ rows, (∀ a ∈ rows, FromRow x (shuffle pick candidates) ms a) ∧
    (scoreBatch x pick candidates ms).scores = scoresOf x rows :=
  ⟨_, fun _ => fromRow_of_accepted, scores_scoreBatch⟩

/-- The values stored of a row are by the divisor of all rows. -/
def storedOf (x : Machine) (rows : List Accepted) : Accepted → Scoring.Score ℚ :=
  directedScore x (responseScaleDivisor (rows.map (·.raw)))

theorem ordered_storedOf (hx : Monotone x.round) (rows : List Accepted) (a b : Accepted) :
    Ordered a b (storedOf x rows a) (storedOf x rows b) :=
  ordered_directedScore hx (divisor_pos _) a b

/-- The scores are of rows, each about its person, and all by one divisor. -/
theorem scores_of_rows (hx : Monotone x.round) : ∃ (accepted : List Accepted) (stored : Accepted → Scoring.Score ℚ),
    (scoreBatch x pick candidates ms).scores = accepted.map (fun a => (a.id, stored a)) ∧
    (∀ a ∈ accepted, FromRow x (shuffle pick candidates) ms a ∧ (stored a).reasoning = a.reasoning ∧
      (stored a).icebreakers = a.icebreakers) ∧ ∀ a ∈ accepted, ∀ b ∈ accepted, Ordered a b (stored a) (stored b) := by
  obtain ⟨rows, hrows, hscores⟩ := exists_rows x pick candidates ms
  refine ⟨rows, storedOf x rows, hscores, ?_, ?_⟩
  · intro a ha
    exact ⟨hrows a ha, fields_directedScore _ a⟩
  · intro a _ b _
    exact ordered_storedOf hx rows a b

/-- A batch accounts for everyone, and follows the person. -/
structure Accounts (x : Machine) (pick : (i : Nat) → Fin (i + 1)) (candidates : List BatchCandidate) (ms : List RawBatchMatch) :
    Prop where
  partition : ((scoreBatch x pick candidates ms).scores.map (·.1) ++ (scoreBatch x pick candidates ms).missing).Perm
    (candidates.map (·.id))
  unit : ∀ e ∈ (scoreBatch x pick candidates ms).scores, (0 ≤ e.2.score ∧ e.2.score ≤ 1) ∧
    (0 ≤ e.2.similarity ∧ e.2.similarity ≤ 1) ∧ (0 ≤ e.2.complementarity ∧ e.2.complementarity ≤ 1)
  /-- Each score is of a row about its person, and the order of the rows' values is kept. -/
  rows : ∃ (accepted : List Accepted) (stored : Accepted → Scoring.Score ℚ), (scoreBatch x pick candidates ms).scores =
    accepted.map (fun a => (a.id, stored a)) ∧
    (∀ a ∈ accepted, FromRow x (shuffle pick candidates) ms a ∧ (stored a).reasoning = a.reasoning ∧
      (stored a).icebreakers = a.icebreakers) ∧ ∀ a ∈ accepted, ∀ b ∈ accepted, Ordered a b (stored a) (stored b)
  /-- Another shuffle gives the same, where each candidate has the same row. -/
  shuffled : ∀ pick' ms', SameResponse x (shuffle pick candidates) (shuffle pick' candidates) ms ms' →
    (scoreBatch x pick candidates ms).scores.Perm (scoreBatch x pick' candidates ms').scores ∧
      (scoreBatch x pick candidates ms).missing = (scoreBatch x pick' candidates ms').missing

/-- **Batch scoring accounts for everyone and follows the person**, not the position. -/
theorem batch_accounts (hx : Monotone x.round) (hids : (candidates.map (·.id)).Nodup) : Accounts x pick candidates ms where
  partition := partition hids
  unit := by
    intro e he
    rw [scores_scoreBatch] at he
    obtain ⟨a, -, rfl⟩ := List.mem_map.mp he
    exact ⟨normalizeScore_unit _ _, normalizeScore_unit _ _, normalizeScore_unit _ _⟩
  rows := scores_of_rows hx
  shuffled := by
    intro pick' ms' hsame
    have hperm : (shuffle pick candidates).Perm (shuffle pick' candidates) :=
      (shuffle_perm pick candidates).trans (shuffle_perm pick' candidates).symm
    have hscores : (scoreBatch x pick candidates ms).scores.Perm (scoreBatch x pick' candidates ms').scores := by
      rw [scores_scoreBatch, scores_scoreBatch]
      exact scoresOf_perm (accepted_perm hperm hsame)
    refine ⟨hscores, ?_⟩
    rw [missing_scoreBatch, missing_scoreBatch]
    have hany : ∀ c : BatchCandidate, (scoreBatch x pick candidates ms).scores.any (·.1 = c.id) =
        (scoreBatch x pick' candidates ms').scores.any (·.1 = c.id) := fun c => hscores.any_eq
    simp only [hany]

/-! ## Two people, one name -/

namespace Small

/-- Names are compared as they stand, and nothing is rounded. -/
def machine : Machine := ⟨id, id⟩

def ann : BatchCandidate := ⟨js "1", some (js "Ann")⟩

def bob : BatchCandidate := ⟨js "2", some (js "Bob")⟩

/-- No turn swaps, and the last turn does. -/
def asIs (i : Nat) : Fin (i + 1) := Fin.last i

def swapped (i : Nat) : Fin (i + 1) := ⟨0, Nat.succ_pos i⟩

/-- A row at an index, written about Bob. -/
def aboutBob (index : Int) (v : ℚ) : RawBatchMatch :=
  ⟨some index, some (js "Bob"), some v, some v, some v, some (js "You both sail."), none⟩

theorem shuffles : shuffle asIs [ann, bob] = [ann, bob] ∧ shuffle swapped [ann, bob] = [bob, ann] := by decide

theorem scores_asIs : (scoreBatch machine asIs [ann, bob] [aboutBob 1 (9 / 10), aboutBob 2 (1 / 10)]).scores.map (·.2.score) =
    [9 / 10] := by
  decide +kernel

theorem scores_swapped : (scoreBatch machine swapped [ann, bob] [aboutBob 1 (1 / 10), aboutBob 2 (9 / 10)]).scores.map (·.2.score) =
    [1 / 10] := by
  decide +kernel

/-- The row of Ann says it is about Bob, and Bob has a row of his own: the one that
comes first is kept, and which one comes first is up to the shuffle. -/
theorem first_row_wins : ∃ ms₁, List.Forall₂ (SameRow (shuffle asIs [ann, bob]) (shuffle swapped [ann, bob]))
      [aboutBob 1 (9 / 10), aboutBob 2 (1 / 10)] ms₁ ∧ ms₁.Perm [aboutBob 1 (1 / 10), aboutBob 2 (9 / 10)] ∧
    ¬ (scoreBatch machine asIs [ann, bob] [aboutBob 1 (9 / 10), aboutBob 2 (1 / 10)]).scores.Perm
      (scoreBatch machine swapped [ann, bob] [aboutBob 1 (1 / 10), aboutBob 2 (9 / 10)]).scores := by
  refine ⟨[aboutBob 2 (9 / 10), aboutBob 1 (1 / 10)], ?_, List.Perm.swap _ _ _, fun h => ?_⟩
  · rw [shuffles.1, shuffles.2]
    exact .cons ⟨rfl, by decide⟩ (.cons ⟨rfl, by decide⟩ .nil)
  · have := h.map fun e => e.2.score
    rw [scores_asIs, scores_swapped] at this
    exact absurd (List.perm_singleton.mp this) (by decide +kernel)

theorem batch_accounts_two : Accounts machine swapped [ann, bob] [aboutBob 1 (1 / 10), aboutBob 2 (9 / 10)] :=
  batch_accounts monotone_id (by decide)

end Small

end Nostrautica.BatchScores
