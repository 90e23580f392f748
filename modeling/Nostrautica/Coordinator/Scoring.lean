/-
Scoring batches of `coordinator/src/coordinator.ts`: `scoreBatchJob` and
`scoreReverseBatchJob`, over the cached pairs, the attendees' rows and the pairs a
batch is paying for right now.

A batch runs without interruption to its next call of a model. A hash function and
the revision of the prompt are parameters.
-/
import Nostrautica.Js.Utf8
import Nostrautica.Store.Pairs
import Nostrautica.Transition.Run

namespace Nostrautica.Scoring

open Js Pairs

/-- What a pair's inputs are hashed with. -/
structure Hashing where
  sha256Hex : ByteArray → JsString
  /-- `matchPromptRevision()`. -/
  promptRevision : JsString

/-- `pairInputsHash(hashA, hashB, modelKey)`. -/
def pairInputsHash (H : Hashing) (hashA hashB modelKey : JsString) : JsString :=
  let x := if hashA < hashB then hashA else hashB
  let y := if hashA < hashB then hashB else hashA
  H.sha256Hex (utf8ToBytes (x ++ js "|" ++ y ++ js "|" ++ H.promptRevision ++ js "|" ++ modelKey))

structure CandidatePair where
  a : JsString
  b : JsString
  inputsHash : JsString
  deriving DecidableEq

/-- The row of an attendee, as far as scoring reads it. -/
structure Attendee where
  approved : Bool
  profile_hash : Option JsString
  /-- `loadAiProfile` finds a profile it can parse. -/
  ai_profile : Bool

/-- `DirectedScore`: one person's numbers, and the text for them. -/
structure Score (ν : Type) where
  score : ν
  similarity : ν
  complementarity : ν
  reasoning : JsString
  icebreakers : Option (List JsString)

/-- `DecisionTriple`. -/
structure Triple (ν : Type) where
  score : ν
  similarity : ν
  complementarity : ν

/-- The shape of a batch: one target and its candidates, or one candidate and its targets. -/
inductive Mode
  | forward
  | reverse

/-- The person all pairs of a batch share. -/
def Mode.anchor : Mode → CandidatePair → JsString
  | forward, p => p.a
  | reverse, p => p.b

/-- The person a pair brings into its batch. -/
def Mode.other : Mode → CandidatePair → JsString
  | forward, p => p.b
  | reverse, p => p.a

/-- The call a batch awaits, with the pairs it is about. -/
inductive Stage (ν : Type)
  /-- `await this.decideScores(…)`. -/
  | deciding
  /-- `await scoreBatch(…)`, `await scoreReverseBatch(…)`; with the decision model's scores. -/
  | narrating (decided : Option (List (JsString × Triple ν)))

/-- A batch with its claims. -/
structure Task (ν : Type) where
  coordinate : JsString
  mode : Mode
  /-- `todo`. -/
  claimed : List CandidatePair
  /-- The pairs of the people that have a profile. -/
  candidates : List CandidatePair
  stage : Stage ν

variable {ν : Type}

/-- `decided ? candidates.filter((c) => decided.has(c.id)) : candidates`. -/
def narratable (mode : Mode) (candidates : List CandidatePair) (decided : Option (List (JsString × Triple ν))) : List CandidatePair :=
  match decided with
  | none => candidates
  | some triples => candidates.filter fun p => (triples.map (·.1)).contains (mode.other p)

/-- The pairs in the call a batch awaits. -/
def Task.inCall (x : Task ν) : List CandidatePair :=
  match x.stage with
  | .deciding => x.candidates
  | .narrating decided => narratable x.mode x.candidates decided

/-- The store as far as scoring reads and writes it, the model key in use, and the
memory of the process. -/
structure World (ν : Type) where
  attendees : JsString → JsString → Option Attendee
  pairs : Table ν
  matchModelKey : JsString
  pairsInFlight : List JsString
  tasks : Nat → Option (Task ν)
  /-- The scores written, the newest first. -/
  written : List (DirectedScore ν)

/-- `pairFlightKey(coordinate, p)`. -/
def pairFlightKey (coordinate : JsString) (p : CandidatePair) : JsString :=
  coordinate ++ js "|" ++ p.a ++ js "|" ++ p.b ++ js "|" ++ p.inputsHash

/-- `dir && dir.inputs_hash === p.inputsHash && dir.scored`. -/
def alreadyScored (t : Table ν) (coordinate : JsString) (p : CandidatePair) : Bool :=
  (getPairDirection t coordinate p.a p.b).any fun dir => dir.inputs_hash = p.inputsHash && dir.scored

/-- The loop of `claimPendingPairs`: the claims, and the pairs claimed so far. -/
def claimPending (t : Table ν) (coordinate : JsString) : List CandidatePair → List JsString → List JsString × List CandidatePair
  | [], inFlight => (inFlight, [])
  | p :: rest, inFlight =>
    if alreadyScored t coordinate p then claimPending t coordinate rest inFlight
    else if pairFlightKey coordinate p ∈ inFlight then claimPending t coordinate rest inFlight
    else
      let next := claimPending t coordinate rest (pairFlightKey coordinate p :: inFlight)
      (next.1, p :: next.2)

/-- `releasePairs(coordinate, pairs)`. -/
def releasePairs (inFlight : List JsString) (coordinate : JsString) (pairs : List CandidatePair) : List JsString :=
  inFlight.filter fun key => !(pairs.map (pairFlightKey coordinate)).contains key

namespace World

/-- `loadAiProfile(coordinate, pubkey)` finds one. -/
def hasProfile (w : World ν) (coordinate pubkey : JsString) : Bool := (w.attendees coordinate pubkey).any (·.ai_profile)

/-- `bothApproved(coordinate, a, b)`. -/
def bothApproved (w : World ν) (coordinate a b : JsString) : Bool :=
  (w.attendees coordinate a).any (·.approved) && (w.attendees coordinate b).any (·.approved)

/-- `getAttendee(coordinate, pubkey)?.profile_hash`, where it is not empty. -/
def profileHash (w : World ν) (coordinate pubkey : JsString) : Option JsString :=
  ((w.attendees coordinate pubkey).bind (·.profile_hash)).filter (· ≠ [])

/-- `pairInputsCurrent(coordinate, pair)`. -/
def pairInputsCurrent (H : Hashing) (w : World ν) (coordinate : JsString) (p : CandidatePair) : Bool :=
  match w.profileHash coordinate p.a, w.profileHash coordinate p.b with
  | some ha, some hb => pairInputsHash H ha hb w.matchModelKey = p.inputsHash
  | _, _ => false

/-- `recordDirectedScore(store, coordinate, pair, score, now)`. -/
def record (w : World ν) (row : DirectedScore ν) : World ν :=
  { w with pairs := putPairDirection w.pairs row, written := row :: w.written }

/-- The end of a batch, with its claims released. -/
def finish (w : World ν) (t : Nat) (x : Task ν) : World ν :=
  { w with tasks := Function.update w.tasks t none, pairsInFlight := releasePairs w.pairsInFlight x.coordinate x.claimed }

end World

/-- The row a score is written as. -/
def scoreRow (coordinate : JsString) (p : CandidatePair) (ds : Score ν) (now : Int) : DirectedScore ν where
  coordinate := coordinate
  fromPk := p.a
  toPk := p.b
  inputsHash := p.inputsHash
  score := ds.score
  similarity := ds.similarity
  complementarity := ds.complementarity
  reasoning := ds.reasoning
  icebreakers := ds.icebreakers
  now := now

/-- The decision model's numbers replace the ones the chat model volunteered. -/
def override (decided : Option (List (JsString × Triple ν))) (id : JsString) (ds : Score ν) : Score ν :=
  match (decided.getD []).find? (·.1 = id) with
  | some (_, triple) => { ds with score := triple.score, similarity := triple.similarity, complementarity := triple.complementarity }
  | none => ds

/-- `pairById.get(id)`, of a map filled in order. -/
def pairById (mode : Mode) (candidates : List CandidatePair) (id : JsString) : Option CandidatePair :=
  candidates.reverse.find? fun p => mode.other p = id

/-- One turn of the loop over the scores. -/
def recordScore (H : Hashing) (x : Task ν) (decided : Option (List (JsString × Triple ν))) (now : Int) (w : World ν)
    (entry : JsString × Score ν) : World ν :=
  match pairById x.mode x.candidates entry.1 with
  | none => w
  | some p =>
    if !w.bothApproved x.coordinate p.a p.b then w
    else if !w.pairInputsCurrent H x.coordinate p then w
    else w.record (scoreRow x.coordinate p (override decided entry.1 entry.2) now)

/-- `scoreBatchJob(coordinate, pairs, signal)` and its reverse twin, to the first call.
`matching` where the event is live and not off, `decision` where a decision role is set. -/
def scoreJob (w : World ν) (t : Nat) (coordinate : JsString) (mode : Mode) (pairs : List CandidatePair) (matching decision : Bool) :
    World ν :=
  match pairs with
  | [] => w
  | first :: _ =>
    if !matching then w
    else if !w.hasProfile coordinate (mode.anchor first) then w
    else
      let (inFlight, claimed) := claimPending w.pairs coordinate pairs w.pairsInFlight
      let candidates := claimed.filter fun p => w.hasProfile coordinate (mode.other p)
      let x : Task ν := ⟨coordinate, mode, claimed, candidates, if decision then .deciding else .narrating none⟩
      let begun := { w with pairsInFlight := inFlight, tasks := Function.update w.tasks t (some x) }
      if candidates = [] then begun.finish t x else begun

inductive Act (ν : Type)
  /-- A `score_batch` or `score_reverse_batch` job comes to its batch. -/
  | scoreJob (t : Nat) (coordinate : JsString) (mode : Mode) (pairs : List CandidatePair) (matching decision : Bool)
  /-- `decideScores` settles; `none` where it throws. -/
  | decided (t : Nat) (answer : Option (List (JsString × Triple ν)))
  /-- The chat model's call settles, with scores of people in it; `none` where it throws. -/
  | narrated (t : Nat) (answer : Option (List (JsString × Score ν))) (eventStillLive : Bool) (now : Int)
  /-- A row of `attendees` is written or deleted. -/
  | setAttendee (coordinate pubkey : JsString) (row : Option Attendee)
  /-- Pairs are cleared. -/
  | clearPairsInvolving (coordinate pubkey : JsString)
  | clearPairs (coordinate : JsString)
  | setMatchModelKey (key : JsString)
  /-- The process ends, and the next one starts. -/
  | restart

/-- What an act makes of the world; `none` where it cannot happen. -/
def act (H : Hashing) (w : World ν) : Act ν → Option (World ν)
  | .scoreJob t coordinate mode pairs matching decision =>
    if (w.tasks t).isSome then none else some (scoreJob w t coordinate mode pairs matching decision)
  | .decided t answer =>
    match w.tasks t with
    | some ⟨coordinate, mode, claimed, candidates, .deciding⟩ =>
      let x : Task ν := ⟨coordinate, mode, claimed, candidates, .narrating answer⟩
      some (if answer.isNone || narratable mode candidates answer = [] then w.finish t x
        else { w with tasks := Function.update w.tasks t (some x) })
    | _ => none
  | .narrated t answer eventStillLive now =>
    match w.tasks t with
    | some ⟨coordinate, mode, claimed, candidates, .narrating decided⟩ =>
      let x : Task ν := ⟨coordinate, mode, claimed, candidates, .narrating decided⟩
      let inCall := x.inCall.map mode.other
      match answer with
      | some scores =>
        if scores.all fun entry => inCall.contains entry.1 then
          some ((if eventStillLive then scores.foldl (recordScore H x decided now) w else w).finish t x)
        else none
      | none => some (w.finish t x)
    | _ => none
  | .setAttendee coordinate pubkey row =>
    some { w with attendees := Function.update w.attendees coordinate (Function.update (w.attendees coordinate) pubkey row) }
  | .clearPairsInvolving coordinate pubkey => some { w with pairs := clearPairsInvolving w.pairs coordinate pubkey }
  | .clearPairs coordinate => some { w with pairs := clearPairs w.pairs coordinate }
  | .setMatchModelKey key => some { w with matchModelKey := key }
  | .restart => some { w with pairsInFlight := [], tasks := fun _ => none }

def Step (H : Hashing) (w : World ν) (x : Act ν) (w' : World ν) : Prop := act H w x = some w'

/-- A process that starts over a store. -/
def start (attendees : JsString → JsString → Option Attendee) (pairs : Table ν) (matchModelKey : JsString) : World ν :=
  ⟨attendees, pairs, matchModelKey, [], fun _ => none, []⟩

end Nostrautica.Scoring
