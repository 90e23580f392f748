/-
`scoreBatch` of `coordinator/src/matching/scoring.ts`: the shuffle of the
candidates, and what becomes of the model's response.

A row of the response is kept as the code reads it. Numbers are exact but for the
division by the scale, and how a double rounds is a parameter, as is
what `foldName` makes of a string by the Unicode tables.
-/
import Nostrautica.Coordinator.Prompts
import Nostrautica.Coordinator.Scoring

namespace Nostrautica.BatchScores

open Js

/-- What the Unicode tables and the rounding of doubles give. -/
structure Machine where
  /-- `foldName`, of a string. -/
  fold : JsString → JsString
  /-- The double nearest to a number. -/
  round : ℚ → ℚ

/-- `BatchCandidate`, as far as the response is read by it. -/
structure BatchCandidate where
  id : JsString
  name : Option JsString
  deriving DecidableEq

/-- `RawBatchMatch`, whatever its fields are. -/
structure RawBatchMatch where
  /-- `Number(m?.index)`, where it is an integer. -/
  index : Option Int
  /-- Where it is a string. -/
  entry_name : Option JsString
  /-- Where they are finite numbers. -/
  similarity : Option ℚ
  complementarity : Option ℚ
  score : Option ℚ
  /-- Where it is a string. -/
  reasoning_for_target : Option JsString
  /-- Where it is an array, each element where it is a string. -/
  icebreakers : Option (List (Option JsString))
  deriving DecidableEq

/-- `RawTriple`. -/
structure RawTriple where
  score : ℚ
  similarity : ℚ
  complementarity : ℚ
  deriving DecidableEq

/-- `rawTriple(m)`. -/
def rawTriple (m : RawBatchMatch) : Option RawTriple := do
  let score ← m.score
  let similarity ← m.similarity
  let complementarity ← m.complementarity
  some { score, similarity, complementarity }

/-- `Math.max` over the rows, from 0. -/
def responseMax (rows : List RawTriple) : ℚ :=
  rows.foldl (fun m r => max (max (max m r.score) r.similarity) r.complementarity) 0

/-- `responseScaleDivisor(rows)`. -/
def responseScaleDivisor (rows : List RawTriple) : ℚ :=
  if responseMax rows ≤ 1 then 1 else if responseMax rows ≤ 10 then 10 else 100

/-- `MAX_ICEBREAKERS`. -/
def maxIcebreakers : Nat := 3

/-- `MAX_ICEBREAKER_LEN`. -/
def maxIcebreakerLen : Nat := 280

/-- The loop of `normalizeIcebreakers`. -/
def clippedIcebreakers (out : List JsString) : List (Option JsString) → List JsString
  | [] => out
  | none :: rest => clippedIcebreakers out rest
  | some s :: rest =>
    if trim s = [] then clippedIcebreakers out rest
    else
      let clipped := s.take maxIcebreakerLen
      if clipped ∈ out then clippedIcebreakers out rest
      else if maxIcebreakers ≤ (out ++ [clipped]).length then out ++ [clipped]
      else clippedIcebreakers (out ++ [clipped]) rest

/-- `normalizeIcebreakers(raw)`. -/
def normalizeIcebreakers (raw : Option (List (Option JsString))) : Option (List JsString) :=
  (raw.map (clippedIcebreakers [])).filter (· ≠ [])

variable (x : Machine)

/-- `normalizeScore(v, divisor)`. -/
def normalizeScore (v divisor : ℚ) : ℚ := max 0 (min 1 (x.round (v / divisor)))

/-- `foldName(name)`, empty where there is none. -/
def foldName (name : Option JsString) : JsString := (name.map x.fold).getD []

/-- `foldName(promptName(c.name))`. -/
def printed (c : BatchCandidate) : JsString := foldName x (Prompts.promptName c.name)

/-- `resolveEntry(ordered, idx, echoed)`, with `ordered[idx - 1]`: the subject, and the correction. -/
def resolveEntry (ordered : List BatchCandidate) (idx : Int) (atIndex : BatchCandidate) (echoed : Option JsString) :
    Option (BatchCandidate × Option JsString) :=
  let echo := foldName x echoed
  let expected := printed x atIndex
  if echo = [] ∨ expected = [] ∨ echo = expected then some (atIndex, none)
  else
    match ordered.filter fun c => printed x c = echo with
    | [c] =>
      some (c, some (js "entry " ++ intToString idx ++ js " said \"" ++ atIndex.name.getD (js "undefined") ++
        js "\" but was written about \"" ++ c.name.getD (js "undefined") ++ js "\""))
    | _ => none

/-- An element of `accepted`. -/
structure Accepted where
  id : JsString
  raw : RawTriple
  reasoning : JsString
  icebreakers : Option (List JsString)
  deriving DecidableEq

/-- `accepted` and `misattributed`; `seen` has the ids of `accepted`. -/
structure Collected where
  accepted : List Accepted
  misattributed : List JsString

/-- `ordered[idx - 1]`, of an index in range. -/
def atIndex (ordered : List BatchCandidate) (index : Option Int) : Option (Int × BatchCandidate) :=
  index.bind fun idx => if 1 ≤ idx then (ordered[(idx - 1).toNat]?).map (idx, ·) else none

/-- One turn of the loop of `collectDirectedScores`. -/
def collect (ordered : List BatchCandidate) (subjectWord : JsString) (st : Collected) (m : RawBatchMatch) : Collected :=
  match atIndex ordered m.index, m.reasoning_for_target.filter (· ≠ []), rawTriple m with
  | some (idx, c), some reasoning, some raw =>
    match resolveEntry x ordered idx c m.entry_name with
    | none =>
      { st with misattributed := st.misattributed ++
          [js "entry " ++ intToString idx ++ js ": name echo matched no single " ++ subjectWord ++ js " — dropped"] }
    | some (subject, corrected) =>
      { accepted :=
          if st.accepted.any (·.id = subject.id) then st.accepted
          else st.accepted ++ [⟨subject.id, raw, reasoning, normalizeIcebreakers m.icebreakers⟩]
        misattributed := st.misattributed ++ corrected.toList }
  | _, _, _ => st

/-- The first pass of `collectDirectedScores`. -/
def collectAll (ordered : List BatchCandidate) (subjectWord : JsString) (matches_ : List RawBatchMatch) : Collected :=
  matches_.foldl (collect x ordered subjectWord) ⟨[], []⟩

/-- The score that is stored of a row. -/
def directedScore (divisor : ℚ) (a : Accepted) : Scoring.Score ℚ where
  score := normalizeScore x a.raw.score divisor
  similarity := normalizeScore x a.raw.similarity divisor
  complementarity := normalizeScore x a.raw.complementarity divisor
  reasoning := a.reasoning
  icebreakers := a.icebreakers

/-- The scores by id, in the order of `accepted`. -/
def scoresOf (accepted : List Accepted) : List (JsString × Scoring.Score ℚ) :=
  accepted.map fun a => (a.id, directedScore x (responseScaleDivisor (accepted.map (·.raw))) a)

/-- Turns `i, ..., 1` of the loop of `shuffle`; `pick i` is `Math.floor(rng() * (i + 1))`. -/
def shuffleFrom {α : Type*} (pick : (i : Nat) → Fin (i + 1)) : Nat → Array α → Array α
  | 0, a => a
  | i + 1, a => shuffleFrom pick i (a.swapIfInBounds (i + 1) (pick (i + 1)))

/-- `shuffle(arr, rng)`. -/
def shuffle {α : Type*} (pick : (i : Nat) → Fin (i + 1)) (arr : List α) : List α :=
  (shuffleFrom pick (arr.length - 1) arr.toArray).toList

/-- `BatchScoreResult`. -/
structure BatchScoreResult where
  scores : List (JsString × Scoring.Score ℚ)
  missing : List JsString
  misattributed : List JsString

/-- `scoreBatch(…)`, where the model answers `matches_` to the prompt with the candidates as shuffled. -/
def scoreBatch (pick : (i : Nat) → Fin (i + 1)) (candidates : List BatchCandidate) (matches_ : List RawBatchMatch) : BatchScoreResult :=
  if candidates = [] then ⟨[], [], []⟩
  else
    let collected := collectAll x (shuffle pick candidates) (js "candidate") matches_
    let scores := scoresOf x collected.accepted
    { scores
      missing := (candidates.filter fun c => !scores.any (·.1 = c.id)).map (·.id)
      misattributed := collected.misattributed }

end Nostrautica.BatchScores
