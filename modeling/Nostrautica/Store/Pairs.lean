/-
The cached pair scores of `coordinator/src/store/db.ts`. Both directions of a
pair share one row, keyed by the smaller pubkey and the larger.

The numbers of a score are a parameter. A JSON column is kept as the value
that was stringified.
-/
import Nostrautica.Js.Json
import Nostrautica.Sql.Keyed
import Nostrautica.Transition.Latest

namespace Nostrautica.Pairs

open Js Sql

variable {ν : Type}

/-- PRIMARY KEY (coordinate, a, b). -/
structure PairKey where
  coordinate : JsString
  a : JsString
  b : JsString
  deriving DecidableEq

/-- The other columns of `pairs`. -/
structure PairRow (ν : Type) where
  inputs_hash : JsString
  score : ν
  similarity : ν
  complementarity : ν
  reasoning : JsString
  icebreakers_json : Option Json := none
  score_b : Option ν := none
  similarity_b : Option ν := none
  complementarity_b : Option ν := none
  reasoning_b : Option JsString := none
  icebreakers_b_json : Option Json := none
  created_at : Int

abbrev Table (ν : Type) := Keyed PairKey (PairRow ν)

/-- `[x, y] = from < to ? [from, to] : [to, from]`. -/
def pairKey (coordinate fromPk toPk : JsString) : PairKey :=
  if fromPk < toPk then ⟨coordinate, fromPk, toPk⟩ else ⟨coordinate, toPk, fromPk⟩

/-- What `getPairDirection` returns. -/
structure Direction (ν : Type) where
  inputs_hash : JsString
  scored : Bool
  score : ν
  reasoning : Option JsString

/-- `reasoning != null && reasoning !== ""`. -/
def isScored (reasoning : Option JsString) : Bool := reasoning.any (· ≠ [])

/-- `getPairDirection(coordinate, from, to)`. -/
def getPairDirection (t : Table ν) (coordinate fromPk toPk : JsString) : Option (Direction ν) :=
  (t.get? (pairKey coordinate fromPk toPk)).map fun row =>
    let fromIsX := fromPk = (pairKey coordinate fromPk toPk).a
    let reasoning := if fromIsX then some row.reasoning else row.reasoning_b
    { inputs_hash := row.inputs_hash
      scored := isScored reasoning
      score := if fromIsX then row.score else row.score_b.getD row.score
      reasoning }

/-- The argument of `putPairDirection`. -/
structure DirectedScore (ν : Type) where
  coordinate : JsString
  fromPk : JsString
  toPk : JsString
  inputsHash : JsString
  score : ν
  similarity : ν
  complementarity : ν
  reasoning : JsString
  icebreakers : Option (List JsString) := none
  now : Int

/-- The icebreakers as stored: an empty list is stored as NULL. -/
def icebreakersJson (icebreakers : Option (List JsString)) : Option Json :=
  match icebreakers with
  | some (s :: rest) => some (.arr ((s :: rest).map .str))
  | _ => none

/-- The smaller pubkey's direction is written to the base columns. -/
def putBase (row : DirectedScore ν) : Option (PairRow ν) → PairRow ν
  | none =>
    { inputs_hash := row.inputsHash
      score := row.score
      similarity := row.similarity
      complementarity := row.complementarity
      reasoning := row.reasoning
      icebreakers_json := icebreakersJson row.icebreakers
      created_at := row.now }
  | some existing =>
    { existing with
      inputs_hash := row.inputsHash
      score := row.score
      similarity := row.similarity
      complementarity := row.complementarity
      reasoning := row.reasoning
      icebreakers_json := icebreakersJson row.icebreakers
      created_at := row.now }

/-- The other direction is written to the `*_b` columns. In a new row the base
columns are seeded, since they are NOT NULL. -/
def putReverse (row : DirectedScore ν) : Option (PairRow ν) → PairRow ν
  | none =>
    { inputs_hash := row.inputsHash
      score := row.score
      similarity := row.similarity
      complementarity := row.complementarity
      reasoning := []
      score_b := some row.score
      similarity_b := some row.similarity
      complementarity_b := some row.complementarity
      reasoning_b := some row.reasoning
      icebreakers_b_json := icebreakersJson row.icebreakers
      created_at := row.now }
  | some existing =>
    { existing with
      inputs_hash := row.inputsHash
      score_b := some row.score
      similarity_b := some row.similarity
      complementarity_b := some row.complementarity
      reasoning_b := some row.reasoning
      icebreakers_b_json := icebreakersJson row.icebreakers
      created_at := row.now }

/-- Drops a row that was scored for other inputs. -/
def dropStale (t : Table ν) (key : PairKey) (inputsHash : JsString) : Table ν :=
  if (t.get? key).any (·.inputs_hash ≠ inputsHash) then t.delete (· = key) else t

/-- `putPairDirection(row)`. -/
def putPairDirection (t : Table ν) (row : DirectedScore ν) : Table ν :=
  let key := pairKey row.coordinate row.fromPk row.toPk
  (dropStale t key row.inputsHash).upsert key (if row.fromPk = key.a then putBase row else putReverse row)

/-- The argument of `putPair`. -/
structure PairScore (ν : Type) where
  coordinate : JsString
  a : JsString
  b : JsString
  inputsHash : JsString
  score : ν
  similarity : ν
  complementarity : ν
  reasoningForA : JsString
  reasoningForB : JsString
  now : Int

/-- The two directions `putPair` writes, in its order. -/
def directions (row : PairScore ν) : DirectedScore ν × DirectedScore ν :=
  ({ coordinate := row.coordinate, fromPk := row.a, toPk := row.b, inputsHash := row.inputsHash, score := row.score,
     similarity := row.similarity, complementarity := row.complementarity, reasoning := row.reasoningForA,
     now := row.now },
   { coordinate := row.coordinate, fromPk := row.b, toPk := row.a, inputsHash := row.inputsHash, score := row.score,
     similarity := row.similarity, complementarity := row.complementarity, reasoning := row.reasoningForB,
     now := row.now })

/-- `putPair(row)`. -/
def putPair (t : Table ν) (row : PairScore ν) : Table ν :=
  putPairDirection (putPairDirection t (directions row).1) (directions row).2

/-- `clearPairs(coordinate)`. -/
def clearPairs (t : Table ν) (coordinate : JsString) : Table ν := t.delete fun k => k.coordinate = coordinate

/-- `clearPairsInvolving(coordinate, pubkey)`. -/
def clearPairsInvolving (t : Table ν) (coordinate pubkey : JsString) : Table ν :=
  t.delete fun k => k.coordinate = coordinate && (k.a = pubkey || k.b = pubkey)

/-- An entry of `pairsFor`. -/
structure Match (ν : Type) where
  other : JsString
  score : ν
  similarity : ν
  complementarity : ν
  reasoning : JsString
  icebreakers : Option (List JsString)

/-- The elements of an array of strings. -/
def strings : List Json → Option (List JsString)
  | [] => some []
  | .str s :: rest => (strings rest).map (s :: ·)
  | _ :: _ => none

/-- The icebreakers read back: an array of strings, else nothing. -/
def readIcebreakers : Option Json → Option (List JsString)
  | some (.arr elems) => strings elems
  | _ => none

/-- A row as `pubkey` sees it, where its own direction is scored. -/
def matchOf (pubkey : JsString) (k : PairKey) (row : PairRow ν) : Option (Match ν) :=
  let reasoning := if k.a = pubkey then some row.reasoning else row.reasoning_b
  if isScored reasoning then
    some
      { other := if k.a = pubkey then k.b else k.a
        score := if k.a = pubkey then row.score else row.score_b.getD row.score
        similarity := if k.a = pubkey then row.similarity else row.similarity_b.getD row.similarity
        complementarity := if k.a = pubkey then row.complementarity else row.complementarity_b.getD row.complementarity
        reasoning := reasoning.getD []
        icebreakers := readIcebreakers (if k.a = pubkey then row.icebreakers_json else row.icebreakers_b_json) }
  else none

/-- `pairsFor(coordinate, pubkey)`. -/
def pairsFor (t : Table ν) (coordinate pubkey : JsString) : List (Match ν) :=
  t.rows.filterMap fun (k, row) =>
    if k.coordinate = coordinate && (k.a = pubkey || k.b = pubkey) then matchOf pubkey k row else none

/-! ## Calls -/

/-- One call on the cache. -/
inductive Call (ν : Type)
  | putPairDirection (row : DirectedScore ν)
  | putPair (row : PairScore ν)
  | clearPairsInvolving (coordinate pubkey : JsString)
  | clearPairs (coordinate : JsString)

/-- The table after a call. -/
def call (t : Table ν) : Call ν → Table ν
  | .putPairDirection row => putPairDirection t row
  | .putPair row => putPair t row
  | .clearPairsInvolving coordinate pubkey => clearPairsInvolving t coordinate pubkey
  | .clearPairs coordinate => clearPairs t coordinate

/-- The table after some calls on an empty one. -/
def after (calls : List (Call ν)) : Table ν := calls.foldl call Keyed.empty

/-! ## Directed caches

What the calls mean for one direction of a pair: a write of the direction sets
its score; a clearing of the pair drops it, and so does a write of the other
direction for other inputs. -/

/-- What a call does, one direction at a time. -/
inductive Event (ν : Type)
  | put (w : DirectedScore ν)
  | clearInvolving (coordinate pubkey : JsString)
  | clear (coordinate : JsString)

def events : Call ν → List (Event ν)
  | .putPairDirection row => [.put row]
  | .putPair row => [.put (directions row).1, .put (directions row).2]
  | .clearPairsInvolving coordinate pubkey => [.clearInvolving coordinate pubkey]
  | .clearPairs coordinate => [.clear coordinate]

/-- A write of the direction. -/
def writesTo (coordinate fromPk toPk : JsString) : Event ν → Option (DirectedScore ν)
  | .put w => if w.coordinate = coordinate ∧ w.fromPk = fromPk ∧ w.toPk = toPk then some w else none
  | _ => none

/-- What makes an earlier write of the direction void. -/
def voids (coordinate fromPk toPk : JsString) (w : DirectedScore ν) : Event ν → Bool
  | .put v => v.coordinate = coordinate ∧ v.fromPk = toPk ∧ v.toPk = fromPk ∧ v.inputsHash ≠ w.inputsHash
  | .clearInvolving c pubkey => c = coordinate ∧ (pubkey = fromPk ∨ pubkey = toPk)
  | .clear c => c = coordinate

/-- `w` is the latest write of the direction since the pair was last cleared or
last written with other inputs. -/
def Current (coordinate fromPk toPk : JsString) (calls : List (Call ν)) (w : DirectedScore ν) : Prop :=
  Latest.Stands (writesTo coordinate fromPk toPk) (voids coordinate fromPk toPk) (calls.flatMap events) w

/-- A write that says something: an empty reasoning marks an unscored direction. -/
def Event.reasoned : Event ν → Prop
  | .put w => w.reasoning ≠ []
  | _ => True

/-- What `getPairDirection` says of a direction it calls scored. -/
def scoredDirection (t : Table ν) (coordinate fromPk toPk : JsString) : Option (Direction ν) :=
  (getPairDirection t coordinate fromPk toPk).filter (·.scored)

/-- The entries of `pairsFor(from)` for `to`. -/
def entries (t : Table ν) (coordinate fromPk toPk : JsString) : List (Match ν) :=
  (pairsFor t coordinate fromPk).filter (·.other = toPk)

/-- A write as `getPairDirection` reports it. -/
def directionOf (w : DirectedScore ν) : Direction ν :=
  { inputs_hash := w.inputsHash, scored := true, score := w.score, reasoning := some w.reasoning }

/-- A write as `pairsFor` reports it: no icebreakers and none given are the same. -/
def entryOf (w : DirectedScore ν) : Match ν :=
  { other := w.toPk
    score := w.score
    similarity := w.similarity
    complementarity := w.complementarity
    reasoning := w.reasoning
    icebreakers := w.icebreakers.filter (· ≠ []) }

/-- The readers report `w` for the direction, or with `none` that it is not scored. -/
def Reports (t : Table ν) (coordinate fromPk toPk : JsString) (w? : Option (DirectedScore ν)) : Prop :=
  scoredDirection t coordinate fromPk toPk = w?.map directionOf ∧
    entries t coordinate fromPk toPk = (w?.map entryOf).toList

end Nostrautica.Pairs
