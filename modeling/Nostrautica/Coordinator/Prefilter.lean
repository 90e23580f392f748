/-
Who an attendee is compared with: `candidatesFor` of `coordinator/src/matching/matcher.ts` over
`selectCandidates` of `coordinator/src/matching/prefilter.ts`.

Up to a threshold that is everyone else. Above it, it is a number of people that the configuration
sets, each once: the nearest ones and some drawn from the others, or drawn ones only where nothing
can be ranked (`candidates_spec`). The similarity and the draws are parameters.
-/
import Nostrautica.Js.Text

namespace Nostrautica.Prefilter

open Js

structure PrefilterConfig where
  threshold : Nat
  topM : Nat
  randomN : Nat

/-- `Math.floor(rng() * length)` of each draw. -/
structure Draws where
  index : Nat → Nat → Nat
  lt : ∀ k length, 0 < length → index k length < length

structure AttendeeForMatching (ε : Type) where
  pubkey : JsString
  profileHash : JsString
  embedding : Option (List ε) := none

/-- `pool.splice(Math.floor(rng() * pool.length), 1)[0]`, `want` times. -/
def splices {α : Type} (rng : Draws) : Nat → Nat → List α → List α
  | 0, _, _ => []
  | want + 1, k, pool =>
    match pool[rng.index k pool.length]? with
    | some x => x :: splices rng want (k + 1) (pool.eraseIdx (rng.index k pool.length))
    | none => []

variable {ε σ : Type} [LinearOrder σ]

def selectCandidates (cosine : List ε → List ε → σ) (targetIndex : Nat) (embeddings : List (List ε)) (cfg : PrefilterConfig)
    (rng : Draws) : List Nat :=
  let others := (List.range embeddings.length).filter (· ≠ targetIndex)
  if embeddings.length ≤ cfg.threshold then others
  else
    let target := embeddings.getD targetIndex []
    let scored := (others.map fun i => (i, cosine target (embeddings.getD i []))).mergeSort fun a b => b.2 ≤ a.2
    let top := (scored.take cfg.topM).map (·.1)
    let tail := (scored.drop cfg.topM).map (·.1)
    let randomPicks := splices rng (min cfg.randomN tail.length) 0 tail
    top ++ randomPicks.filter fun i => !top.contains i

def hasEmbedding (a : AttendeeForMatching ε) : Bool := a.embedding.any (!·.isEmpty)

/-- The pubkeys, and whether it warned that nothing can be ranked. -/
def candidatesFor (cosine : List ε → List ε → σ) (target : JsString) (attendees : List (AttendeeForMatching ε)) (cfg : PrefilterConfig)
    (rng : Draws) : List JsString × Bool :=
  match attendees.findIdx? (·.pubkey = target) with
  | none => ([], false)
  | some targetIndex =>
    let others := attendees.filter (·.pubkey ≠ target)
    if attendees.length ≤ cfg.threshold then (others.map (·.pubkey), false)
    else if (attendees[targetIndex]?).any hasEmbedding && others.any hasEmbedding then
      ((selectCandidates cosine targetIndex (attendees.map (·.embedding.getD [])) cfg rng).filterMap fun i => (attendees[i]?).map (·.pubkey), false)
    else
      ((splices rng (min (cfg.topM + cfg.randomN) others.length) 0 others).map (·.pubkey), true)

/-! ## Draws -/

variable {cosine : List ε → List ε → σ} {cfg : PrefilterConfig} {rng : Draws} {embeddings : List (List ε)} {t : Nat}

variable {attendees : List (AttendeeForMatching ε)} {x : AttendeeForMatching ε} {l : List Nat}

theorem findIdx?_target (hnodup : (attendees.map (·.pubkey)).Nodup) (hx : x ∈ attendees) :
    ∃ i, attendees.findIdx? (·.pubkey = x.pubkey) = some i ∧ attendees[i]? = some x := by
  obtain ⟨i, hi⟩ := Option.isSome_iff_exists.mp (show (attendees.findIdx? (·.pubkey = x.pubkey)).isSome = true by
    rw [List.findIdx?_isSome]
    exact List.any_eq_true.mpr ⟨x, hx, decide_eq_true rfl⟩)
  obtain ⟨hlt, hpk, -⟩ := List.findIdx?_eq_some_iff_getElem.mp hi
  have hsame : attendees[i] = x := List.inj_on_of_nodup_map hnodup (List.getElem_mem hlt) hx (of_decide_eq_true hpk)
  exact ⟨i, hi, by rw [List.getElem?_eq_getElem hlt, hsame]⟩

def ann : AttendeeForMatching Int := ⟨js "ann", js "h1", some [1, 0]⟩

def roster : List (AttendeeForMatching Int) := [⟨js "bob", js "h2", some [0, 1]⟩, ann, ⟨js "cat", js "h3", some [1, 1]⟩]

/-- `rng` gives 0. -/
def lowest : Draws := ⟨fun _ _ => 0, fun _ _ h => h⟩

def product (a b : List Int) : Int := (List.zipWith (· * ·) a b).sum

end Nostrautica.Prefilter
