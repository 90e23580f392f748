/-
The recompute of an attendee's matches: `selectPairsToScore` and `groupIntoBatches` of
`coordinator/src/matching/matcher.ts`, and what the `match_recompute` job of
`coordinator/src/coordinator.ts` queues of them, over the cached pairs.

Whoever submits a profile is scored against everyone else, and everyone else against them, once for
each pair of profiles; the other pairs stay as they are (`recompute_exact`).
-/
import Nostrautica.Coordinator.Prefilter
import Nostrautica.Coordinator.Scoring
import Nostrautica.Js.Map
import Nostrautica.Store.PairsFacts

namespace Nostrautica.Matching

open Js Sql Pairs Prefilter
open Scoring (Hashing CandidatePair pairInputsHash alreadyScored Score scoreRow)

/-! ## Batches -/

/-- `for (let i = 0; i < list.length; i += batchSize) batches.push(list.slice(i, i + batchSize))`, in `fuel` turns. -/
def slices {α : Type} (batchSize : Nat) : Nat → List α → List (List α)
  | 0, _ => []
  | fuel + 1, l => if l = [] then [] else l.take batchSize :: slices batchSize fuel (l.drop batchSize)

/-- `byTarget`. -/
def byTarget (pairs : List CandidatePair) : JsMap JsString (List CandidatePair) :=
  pairs.foldl (fun m p => m.set p.a ((m.get? p.a).getD [] ++ [p])) .empty

def groupIntoBatches (pairs : List CandidatePair) (batchSize : Nat) : List (List CandidatePair) :=
  (byTarget pairs).values.flatMap fun list => slices batchSize list.length list

/-! ## Recomputes -/

/-- The settings a recompute reads: the prefilter's, `match_model`'s key and the size of a batch. -/
structure Config where
  prefilter : PrefilterConfig
  matchModelKey : JsString
  batchSize : Nat

/-- The rows `buildMatchingRoster` keeps: one for each pubkey, with the hash of a profile. -/
structure MatchingRoster (ε : Type) where
  attendees : List (AttendeeForMatching ε)
  nodup : (attendees.map (·.pubkey)).Nodup
  hashed : ∀ a ∈ attendees, a.profileHash ≠ []

section

variable {ε σ ν : Type} [LinearOrder σ]

/-- `new Map(attendees.map((a) => [a.pubkey, a.profileHash]))`. -/
def hashByPubkey (attendees : List (AttendeeForMatching ε)) : JsMap JsString JsString :=
  (attendees.map fun a => (a.pubkey, a.profileHash)).foldl (fun m p => m.set p.1 p.2) .empty

def selectPairsToScore (H : Hashing) (cosine : List ε → List ε → σ) (store : Table ν) (coordinate : JsString) (target : AttendeeForMatching ε)
    (attendees : List (AttendeeForMatching ε)) (cfg : Config) (rng : Draws) : List CandidatePair :=
  (candidatesFor cosine target.pubkey attendees cfg.prefilter rng).1.filterMap fun other =>
    match (hashByPubkey attendees).get? other with
    | none | some [] => none
    | some otherHash =>
      let pair := ⟨target.pubkey, other, pairInputsHash H target.profileHash otherHash cfg.matchModelKey⟩
      if alreadyScored store coordinate pair then none else some pair

/-- The other direction of a pair. -/
def rev (p : CandidatePair) : CandidatePair := ⟨p.b, p.a, p.inputsHash⟩

/-- `reverse`: the other directions that are not scored for these inputs. -/
def reversePairs (store : Table ν) (coordinate : JsString) (pairs : List CandidatePair) : List CandidatePair :=
  (pairs.map rev).filter fun p => !alreadyScored store coordinate p

/-- The batches of `match_recompute`: one target's candidates, and one candidate's targets. -/
def matchRecompute (H : Hashing) (cosine : List ε → List ε → σ) (store : Table ν) (coordinate pubkey : JsString)
    (roster : MatchingRoster ε) (cfg : Config) (rng : Draws) : List (List CandidatePair) × List (List CandidatePair) :=
  match roster.attendees.find? (·.pubkey = pubkey) with
  | none => ([], [])
  | some target =>
    let pairs := selectPairsToScore H cosine store coordinate target roster.attendees cfg rng
    let reverse := reversePairs store coordinate pairs
    (groupIntoBatches pairs cfg.batchSize, slices cfg.batchSize reverse.length reverse)

/-! ## Runs -/

/-- An event's attendees and its cached pairs. -/
structure World (ε ν : Type) where
  roster : MatchingRoster ε
  pairs : Table ν

/-- A pair that a batch scored, with its score and when. -/
abbrev Scored (ν : Type) := CandidatePair × Score ν × Int

inductive Act (ε ν : Type)
  /-- A profile is committed: the roster has it, and all that its recompute queues is scored, in any order. -/
  | submit (x : AttendeeForMatching ε) (rng : Draws) (scored : List (Scored ν))
  /-- An attendee is gone, with its rows. -/
  | leave (pubkey : JsString)

/-- The pairs of some batches. -/
def queued (batches : List (List CandidatePair) × List (List CandidatePair)) : List CandidatePair := (batches.1 ++ batches.2).flatten

/-- `recordDirectedScore` of each. -/
def recordAll (coordinate : JsString) (table : Table ν) (scored : List (Scored ν)) : Table ν :=
  scored.foldl (fun t s => putPairDirection t (scoreRow coordinate s.1 s.2.1 s.2.2)) table

inductive Step (H : Hashing) (cosine : List ε → List ε → σ) (coordinate : JsString) (cfg : Config) : World ε ν → Act ε ν → World ε ν → Prop
  | submit {w : World ε ν} {x : AttendeeForMatching ε} {rng : Draws} {scored : List (Scored ν)} {roster : MatchingRoster ε}
      (has : ∀ a, a ∈ roster.attendees ↔ a = x ∨ a ∈ w.roster.attendees ∧ a.pubkey ≠ x.pubkey)
      -- below the prefilter
      (few : roster.attendees.length ≤ cfg.prefilter.threshold)
      (all : (scored.map (·.1)).Perm (queued (matchRecompute H cosine w.pairs coordinate x.pubkey roster cfg rng)))
      (reasoned : ∀ s ∈ scored, s.2.1.reasoning ≠ []) :
      Step H cosine coordinate cfg w (.submit x rng scored) ⟨roster, recordAll coordinate w.pairs scored⟩
  | leave {w : World ε ν} {pubkey : JsString} {roster : MatchingRoster ε}
      (has : ∀ a, a ∈ roster.attendees ↔ a ∈ w.roster.attendees ∧ a.pubkey ≠ pubkey) :
      Step H cosine coordinate cfg w (.leave pubkey) ⟨roster, clearPairsInvolving w.pairs coordinate pubkey⟩

def start : World ε ν := ⟨⟨[], List.nodup_nil, fun _ h => absurd h List.not_mem_nil⟩, Keyed.empty⟩

/-- Every direction between two attendees is scored for their profiles. -/
def Settled (H : Hashing) (coordinate : JsString) (cfg : Config) (w : World ε ν) : Prop :=
  ∀ a ∈ w.roster.attendees, ∀ b ∈ w.roster.attendees, a.pubkey ≠ b.pubkey →
    alreadyScored w.pairs coordinate ⟨a.pubkey, b.pubkey, pairInputsHash H a.profileHash b.profileHash cfg.matchModelKey⟩ = true

/-- Are the inputs of the pair of `x` and `b` others than before? -/
def inputsChanged (H : Hashing) (cfg : Config) (roster : MatchingRoster ε) (x b : AttendeeForMatching ε) : Bool :=
  (roster.attendees.find? (·.pubkey = x.pubkey)).all fun old =>
    pairInputsHash H old.profileHash b.profileHash cfg.matchModelKey ≠ pairInputsHash H x.profileHash b.profileHash cfg.matchModelKey

end

/-! ## Batches -/

section

variable {α : Type} {n fuel : Nat} {l : List α} {pairs : List CandidatePair}

theorem slices_flatten (hn : 0 < n) : ∀ {fuel : Nat} {l : List α}, l.length ≤ fuel → (slices n fuel l).flatten = l
  | 0, l, h => by
    rw [List.length_eq_zero_iff.mp (Nat.le_zero.mp h)]
    rfl
  | fuel + 1, l, h => by
    unfold slices
    split
    · next hl => rw [hl, List.flatten_nil]
    · next hl =>
      have hpos := List.length_pos_iff.mpr hl
      rw [List.flatten_cons, slices_flatten hn (by rw [List.length_drop]; omega), List.take_append_drop]

theorem slices_spec (hn : 0 < n) : ∀ {fuel : Nat} {l b : List α}, b ∈ slices n fuel l → b ≠ [] ∧ b.length ≤ n
  | fuel + 1, l, b, h => by
    unfold slices at h
    split at h
    · cases h
    · next hl =>
      rcases List.mem_cons.mp h with rfl | h
      · have hpos := List.length_pos_iff.mpr hl
        refine ⟨fun he => ?_, List.length_take_le ..⟩
        have := congrArg List.length he
        rw [List.length_take, List.length_nil] at this
        omega
      · exact slices_spec hn h

theorem flatMap_put {κ β : Type} [DecidableEq κ] {k : κ} {x : β} : ∀ {m : List (κ × List β)}, (m.map Prod.fst).Nodup →
    ((put k ((look k m).getD [] ++ [x]) m).flatMap (·.2)).Perm (m.flatMap (·.2) ++ [x])
  | [], _ => by simp [put, look]
  | (k', l) :: m, h => by
    rw [List.map_cons, List.nodup_cons] at h
    unfold put look
    split
    · next hk =>
      rw [List.flatMap_cons, List.flatMap_cons, Option.getD_some, List.append_assoc, List.append_assoc]
      exact List.perm_append_comm.append_left _
    · rw [List.flatMap_cons, List.flatMap_cons, List.append_assoc]
      exact (flatMap_put h.2).append_left _

/-- The groups have all pairs, each under its target. -/
theorem byTarget_spec : ((byTarget pairs).values.flatten).Perm pairs ∧ ∀ list ∈ (byTarget pairs).values, ∃ a, ∀ p ∈ list, p.a = a := by
  have key : ∀ (l : List CandidatePair) (m : JsMap JsString (List CandidatePair)), (∀ k v, m.get? k = some v → ∀ p ∈ v, p.a = k) →
      ((l.foldl (fun m p => m.set p.a ((m.get? p.a).getD [] ++ [p])) m).values.flatten).Perm (m.values.flatten ++ l) ∧
        ∀ k v, (l.foldl (fun m p => m.set p.a ((m.get? p.a).getD [] ++ [p])) m).get? k = some v → ∀ p ∈ v, p.a = k := by
    intro l
    induction l with
    | nil => exact fun m hm => ⟨by rw [List.foldl_nil, List.append_nil], hm⟩
    | cons p l ih =>
      intro m hm
      rw [List.foldl_cons]
      have hset : ∀ k v, (m.set p.a ((m.get? p.a).getD [] ++ [p])).get? k = some v → ∀ q ∈ v, q.a = k := by
        intro k v hv q hq
        rw [JsMap.get?_set] at hv
        split at hv
        · next hk =>
          rw [← Option.some.inj hv, List.mem_append, List.mem_singleton] at hq
          rcases hq with hq | rfl
          · cases ho : m.get? p.a with
            | none =>
              rw [ho] at hq
              exact absurd hq List.not_mem_nil
            | some old =>
              rw [ho] at hq
              exact hk ▸ hm p.a old ho q hq
          · exact hk
        · exact hm k v hv q hq
      obtain ⟨hperm, hkeys⟩ := ih _ hset
      refine ⟨hperm.trans ?_, hkeys⟩
      have hput := flatMap_put (k := p.a) (x := p) m.nodup
      rw [List.flatMap_def, List.flatMap_def] at hput
      exact (hput.append_right l).trans (by rw [List.append_assoc]; exact List.Perm.refl _)
  obtain ⟨hperm, hkeys⟩ := key pairs .empty fun k v h => by cases h
  refine ⟨hperm, fun list hl => ?_⟩
  obtain ⟨k, hk⟩ := JsMap.get?_of_mem_values hl
  exact ⟨k, hkeys k list hk⟩

theorem groupIntoBatches_spec (hn : 0 < n) : (groupIntoBatches pairs n).flatten.Perm pairs ∧
    ∀ b ∈ groupIntoBatches pairs n, b ≠ [] ∧ b.length ≤ n ∧ ∃ a, ∀ p ∈ b, p.a = a := by
  obtain ⟨hperm, hgroup⟩ := @byTarget_spec pairs
  have hflat : (groupIntoBatches pairs n).flatten = (byTarget pairs).values.flatten := by
    unfold groupIntoBatches
    rw [List.flatMap_def, List.flatten_flatten, List.map_map]
    congr 1
    exact (List.map_congr_left fun list _ => slices_flatten hn le_rfl).trans (List.map_id _)
  refine ⟨hflat ▸ hperm, fun b hb => ?_⟩
  obtain ⟨list, hlist, hb⟩ := List.mem_flatMap.mp hb
  obtain ⟨a, ha⟩ := hgroup list hlist
  obtain ⟨hne, hlen⟩ := slices_spec hn hb
  refine ⟨hne, hlen, a, fun p hp => ha p ?_⟩
  rw [← slices_flatten hn le_rfl (l := list)]
  exact List.mem_flatten.mpr ⟨b, hb, hp⟩

end

/-! ## Scored directions -/

section

variable {ν : Type} {table : Table ν} {w : DirectedScore ν} {p : CandidatePair} {c : JsString}

theorem alreadyScored_view : alreadyScored table c p = true ↔ ∃ u, view table c p.a p.b = some u ∧ u.hash = p.inputsHash := by
  have h : alreadyScored table c p = (scoredDirection table c p.a p.b).any (·.inputs_hash = p.inputsHash) := by
    unfold alreadyScored scoredDirection
    cases getPairDirection table c p.a p.b with
    | none => rfl
    | some d => cases hd : d.scored <;> simp [Option.filter, hd]
  rw [h, scoredDirection_eq]
  cases view table c p.a p.b <;> simp

/-- A direction is scored for one pair of profiles. -/
theorem alreadyScored_inj {h : JsString} (hp : alreadyScored table c p = true) :
    alreadyScored table c ⟨p.a, p.b, h⟩ = true ↔ h = p.inputsHash := by
  obtain ⟨u, hu, hh⟩ := alreadyScored_view.mp hp
  rw [alreadyScored_view]
  constructor
  · rintro ⟨v, hv, rfl⟩
    rw [hu] at hv
    rw [← Option.some.inj hv, hh]
  · rintro rfl
    exact ⟨u, hu, hh⟩

/-- What a write makes of a direction: its own it sets, the other it keeps where the inputs are the same. -/
theorem alreadyScored_put (hs : Sound table) (hw : w.reasoning ≠ []) (hc : w.coordinate = c) (hp : p.a ≠ p.b) :
    alreadyScored (putPairDirection table w) c p = true ↔
      if w.fromPk = p.a ∧ w.toPk = p.b then w.inputsHash = p.inputsHash
      else if w.fromPk = p.b ∧ w.toPk = p.a then alreadyScored table c p = true ∧ w.inputsHash = p.inputsHash
      else alreadyScored table c p = true := by
  rw [alreadyScored_view, view_putPairDirection hs hw hp]
  simp only [hc, true_and]
  split
  · simp [viewOf]
  · split
    · rw [alreadyScored_view]
      simp only [Option.filter_eq_some_iff, decide_eq_true_eq]
      constructor
      · rintro ⟨u, ⟨hu, hh⟩, hi⟩
        exact ⟨⟨u, hu, hi⟩, hh.symm.trans hi⟩
      · rintro ⟨⟨u, hu, hi⟩, hh⟩
        exact ⟨u, ⟨hu, hi.trans hh.symm⟩, hi⟩
    · rw [alreadyScored_view]

/-- Some pair of these is the direction. -/
def Has (pairs : List CandidatePair) (f g : JsString) : Prop := ∃ p ∈ pairs, p.a = f ∧ p.b = g

theorem sound_recordAll {scored : List (Scored ν)} (hs : Sound table) : Sound (recordAll c table scored) := by
  unfold recordAll
  induction scored generalizing table with
  | nil => exact hs
  | cons s scored ih => exact ih (hs.putPairDirection _)

/-- What some writes make of a direction, where each pair has one hash for both its directions. -/
theorem alreadyScored_recordAll (hash : JsString → JsString → JsString) (hcomm : ∀ f g, hash f g = hash g f) {scored : List (Scored ν)}
    (hs : Sound table) (hreasoned : ∀ s ∈ scored, s.2.1.reasoning ≠ []) (hhash : ∀ s ∈ scored, s.1.inputsHash = hash s.1.a s.1.b)
    (hp : p.a ≠ p.b) :
    alreadyScored (recordAll c table scored) c p = true ↔
      p.inputsHash = hash p.a p.b ∧ (Has (scored.map (·.1)) p.a p.b ∨ alreadyScored table c p = true) ∨
      alreadyScored table c p = true ∧ ¬ Has (scored.map (·.1)) p.a p.b ∧ ¬ Has (scored.map (·.1)) p.b p.a := by
  induction scored generalizing table with
  | nil =>
    simp only [recordAll, List.foldl_nil, List.map_nil, Has, List.not_mem_nil, false_and, exists_false, not_false_eq_true, false_or, and_true]
    tauto
  | cons s scored ih =>
    have hstep := ih (hs.putPairDirection (scoreRow c s.1 s.2.1 s.2.2)) (fun x hx => hreasoned x (List.mem_cons_of_mem s hx))
      fun x hx => hhash x (List.mem_cons_of_mem s hx)
    have hcons : ∀ f g, Has ((s :: scored).map (·.1)) f g ↔ (s.1.a = f ∧ s.1.b = g) ∨ Has (scored.map (·.1)) f g := by
      intro f g
      simp [Has]
    have hown : s.1.inputsHash = hash s.1.a s.1.b := hhash s List.mem_cons_self
    have hput : alreadyScored (putPairDirection table (scoreRow c s.1 s.2.1 s.2.2)) c p = true ↔
        if s.1.a = p.a ∧ s.1.b = p.b then s.1.inputsHash = p.inputsHash
        else if s.1.a = p.b ∧ s.1.b = p.a then alreadyScored table c p = true ∧ s.1.inputsHash = p.inputsHash
        else alreadyScored table c p = true :=
      alreadyScored_put hs (hreasoned s List.mem_cons_self) rfl hp
    rw [show recordAll c table (s :: scored) = recordAll c (putPairDirection table (scoreRow c s.1 s.2.1 s.2.2)) scored from rfl, hstep,
      hput, hcons, hcons]
    have hrefl : (hash p.a p.b = p.inputsHash) ↔ (p.inputsHash = hash p.a p.b) := eq_comm
    by_cases hsame : s.1.a = p.a ∧ s.1.b = p.b
    · have hnot : ¬ (s.1.a = p.b ∧ s.1.b = p.a) := fun h => hp (hsame.1.symm.trans h.1)
      rw [if_pos hsame, hown, hsame.1, hsame.2, hrefl]
      rw [hsame.1, hsame.2] at hnot
      generalize (p.inputsHash = hash p.a p.b) = E
      generalize (alreadyScored table c p = true) = A
      simp only [true_or, and_true, not_true_eq_false, false_and, and_false, or_false]
      tauto
    · rw [if_neg hsame]
      by_cases hother : s.1.a = p.b ∧ s.1.b = p.a
      · rw [if_pos hother, hown, hother.1, hother.2, hcomm p.b p.a, hrefl]
        rw [hother.1, hother.2] at hsame
        generalize (p.inputsHash = hash p.a p.b) = E
        generalize (alreadyScored table c p = true) = A
        simp only [hsame, true_or, and_true, false_or, not_true_eq_false, and_false, or_false]
        constructor
        · rintro (⟨he, hw | ⟨ha, -⟩⟩ | ⟨⟨ha, he⟩, -, -⟩)
          · exact ⟨he, .inl hw⟩
          · exact ⟨he, .inr ha⟩
          · exact ⟨he, .inr ha⟩
        · rintro ⟨he, hw | ha⟩
          · exact .inl ⟨he, .inl hw⟩
          · exact .inl ⟨he, .inr ⟨ha, he⟩⟩
      · rw [if_neg hother, or_iff_right hsame, or_iff_right hother]

end

/-! ## What a recompute queues -/

section

variable {ε σ ν : Type} [LinearOrder σ] {H : Hashing} {cosine : List ε → List ε → σ} {table : Table ν} {c : JsString}
  {roster : MatchingRoster ε} {x a b : AttendeeForMatching ε} {cfg : Config} {rng : Draws} {p : CandidatePair}

theorem pairInputsHash_comm (f g k : JsString) : pairInputsHash H f g k = pairInputsHash H g f k := by
  unfold pairInputsHash
  rcases lt_trichotomy f g with h | rfl | h
  · rw [if_pos h, if_pos h, if_neg (lt_asymm h), if_neg (lt_asymm h)]
  · rfl
  · rw [if_pos h, if_pos h, if_neg (lt_asymm h), if_neg (lt_asymm h)]

/-- The pair of two attendees. -/
def pairOf (H : Hashing) (cfg : Config) (a b : AttendeeForMatching ε) : CandidatePair :=
  ⟨a.pubkey, b.pubkey, pairInputsHash H a.profileHash b.profileHash cfg.matchModelKey⟩

theorem rev_pairOf : rev (pairOf H cfg a b) = pairOf H cfg b a := by
  unfold rev pairOf
  rw [pairInputsHash_comm]

theorem get?_hashByPubkey (hb : b ∈ roster.attendees) : (hashByPubkey roster.attendees).get? b.pubkey = some b.profileHash := by
  have hnodup : ((roster.attendees.map fun a => (a.pubkey, a.profileHash)).map Prod.fst).Nodup := by
    rw [List.map_map]
    exact roster.nodup
  have h := JsMap.get?_foldl_set_if (fun _ => true) (·.2) b.pubkey (roster.attendees.map fun a => (a.pubkey, a.profileHash)) .empty hnodup
  simp only [if_true] at h
  unfold hashByPubkey
  rw [h, (look_eq_some hnodup).mpr (List.mem_map.mpr ⟨b, hb, rfl⟩)]
  rfl

theorem candidatesFor_few (hx : x ∈ roster.attendees) (hfew : roster.attendees.length ≤ cfg.prefilter.threshold) :
    (candidatesFor cosine x.pubkey roster.attendees cfg.prefilter rng).1 = (roster.attendees.filter (·.pubkey ≠ x.pubkey)).map (·.pubkey) := by
  obtain ⟨t, ht, -⟩ := findIdx?_target roster.nodup hx
  unfold candidatesFor
  rw [ht]
  dsimp only
  rw [if_pos hfew]

/-- Up to the threshold: the pairs with the others that are not scored for these profiles. -/
theorem selectPairsToScore_few (hx : x ∈ roster.attendees) (hfew : roster.attendees.length ≤ cfg.prefilter.threshold) :
    selectPairsToScore H cosine table c x roster.attendees cfg rng =
      ((roster.attendees.filter (·.pubkey ≠ x.pubkey)).map (pairOf H cfg x)).filter fun p => !alreadyScored table c p := by
  unfold selectPairsToScore
  rw [candidatesFor_few hx hfew, List.filterMap_map, ← List.filterMap_eq_filter (p := fun p => !alreadyScored table c p), List.filterMap_map]
  refine List.filterMap_congr fun b hb => ?_
  have hb := (List.mem_filter.mp hb).1
  simp only [Function.comp_apply, get?_hashByPubkey hb]
  split
  · next h => cases h
  · next h => exact absurd (Option.some.inj h) (roster.hashed b hb)
  · next h =>
    rw [← Option.some.inj h]
    unfold pairOf
    by_cases hs : alreadyScored table c ⟨x.pubkey, b.pubkey, pairInputsHash H x.profileHash b.profileHash cfg.matchModelKey⟩ = true <;>
      simp [Option.guard, hs]

theorem find?_target (hx : x ∈ roster.attendees) : roster.attendees.find? (·.pubkey = x.pubkey) = some x := by
  cases h : roster.attendees.find? (·.pubkey = x.pubkey) with
  | none => exact absurd (decide_eq_true rfl) (List.find?_eq_none.mp h x hx)
  | some y =>
    have hpk : y.pubkey = x.pubkey := by simpa using List.find?_some h
    rw [List.inj_on_of_nodup_map roster.nodup (List.mem_of_find?_eq_some h) hx hpk]

/-- What a recompute queues: its target's pairs, and their other directions. -/
theorem queued_perm (hn : 0 < cfg.batchSize) (hx : x ∈ roster.attendees) :
    (queued (matchRecompute H cosine table c x.pubkey roster cfg rng)).Perm
      (selectPairsToScore H cosine table c x roster.attendees cfg rng ++
        reversePairs table c (selectPairsToScore H cosine table c x roster.attendees cfg rng)) := by
  unfold queued matchRecompute
  rw [find?_target hx]
  dsimp only
  rw [List.flatten_append, slices_flatten hn le_rfl]
  exact (groupIntoBatches_spec hn).1.append_right _

/-! ## One event -/

variable {w w' : World ε ν} {e : Act ε ν}

/-- What holds after every event: the directions that are scored are those between the attendees, for their profiles. -/
structure Consistent (H : Hashing) (c : JsString) (cfg : Config) (w : World ε ν) : Prop where
  table : Sound w.pairs
  settled : Settled H c cfg w
  members : ∀ p, p.a ≠ p.b → alreadyScored w.pairs c p = true →
    p.a ∈ w.roster.attendees.map (·.pubkey) ∧ p.b ∈ w.roster.attendees.map (·.pubkey)

theorem Consistent.leave {pubkey : JsString} (h : Consistent H c cfg w) (has : ∀ a, a ∈ roster.attendees ↔ a ∈ w.roster.attendees ∧ a.pubkey ≠ pubkey) :
    Consistent H c cfg (⟨roster, clearPairsInvolving w.pairs c pubkey⟩ : World ε ν) := by
  have hview : ∀ {f g : JsString}, f ≠ g → view (clearPairsInvolving w.pairs c pubkey) c f g =
      if pubkey = f ∨ pubkey = g then none else view w.pairs c f g := by
    intro f g hfg
    have hkey : (decide ((pairKey c f g).coordinate = c) && (decide ((pairKey c f g).a = pubkey) || decide ((pairKey c f g).b = pubkey))) =
        decide (pubkey = f ∨ pubkey = g) := by
      unfold pairKey
      split <;> grind
    unfold clearPairsInvolving
    rw [view_delete, hkey]
    simp only [decide_eq_true_eq]
  have htable : Sound (clearPairsInvolving w.pairs c pubkey) := by
    unfold clearPairsInvolving
    exact h.table.delete _
  refine ⟨htable, fun a ha b hb hab => ?_, fun p hp hs => ?_⟩
  · obtain ⟨ha, hap⟩ := (has a).mp ha
    obtain ⟨hb, hbp⟩ := (has b).mp hb
    rw [alreadyScored_view, hview hab, if_neg fun hor => hor.elim (fun he => hap he.symm) fun he => hbp he.symm]
    exact alreadyScored_view.mp (h.settled a ha b hb hab)
  · obtain ⟨u, hu, hh⟩ := alreadyScored_view.mp hs
    dsimp only at hu
    rw [hview hp] at hu
    split at hu
    · cases hu
    · next hnot =>
      have hold := h.members p hp (alreadyScored_view.mpr ⟨u, hu, hh⟩)
      have hkeep : ∀ pk, pk ≠ pubkey → pk ∈ w.roster.attendees.map (·.pubkey) → pk ∈ roster.attendees.map (·.pubkey) := by
        intro pk hpk hmem
        obtain ⟨a, ha, rfl⟩ := List.mem_map.mp hmem
        exact List.mem_map_of_mem ((has a).mpr ⟨ha, hpk⟩)
      exact ⟨hkeep _ (fun he => hnot (.inl he.symm)) hold.1, hkeep _ (fun he => hnot (.inr he.symm)) hold.2⟩

/-- Where all is settled, a pair with `x` is scored just when its inputs are as they were. -/
theorem Consistent.scored_iff (h : Consistent H c cfg w) (hb : b ∈ w.roster.attendees) (hbx : b.pubkey ≠ x.pubkey) :
    (alreadyScored w.pairs c (pairOf H cfg x b) = true ↔ inputsChanged H cfg w.roster x b = false) ∧
    (alreadyScored w.pairs c (pairOf H cfg b x) = true ↔ inputsChanged H cfg w.roster x b = false) := by
  unfold inputsChanged
  cases hold : w.roster.attendees.find? (·.pubkey = x.pubkey) with
  | none =>
    have hnot : x.pubkey ∉ w.roster.attendees.map (·.pubkey) := by
      intro hmem
      obtain ⟨a, ha, hax⟩ := List.mem_map.mp hmem
      exact List.find?_eq_none.mp hold a ha (decide_eq_true hax)
    have hout := fun hs => hnot (h.members (pairOf H cfg x b) hbx.symm hs).1
    have hin := fun hs => hnot (h.members (pairOf H cfg b x) hbx hs).2
    exact ⟨⟨fun hs => (hout hs).elim, fun he => by simp at he⟩, ⟨fun hs => (hin hs).elim, fun he => by simp at he⟩⟩
  | some old =>
    have hpk : old.pubkey = x.pubkey := by simpa using List.find?_some hold
    have hmem : old ∈ w.roster.attendees := List.mem_of_find?_eq_some hold
    have hne : b.pubkey ≠ old.pubkey := hpk ▸ hbx
    have hout := alreadyScored_inj (h := pairInputsHash H x.profileHash b.profileHash cfg.matchModelKey) (h.settled old hmem b hb hne.symm)
    have hin := alreadyScored_inj (h := pairInputsHash H b.profileHash x.profileHash cfg.matchModelKey) (h.settled b hb old hmem hne)
    dsimp only at hout hin
    rw [hpk] at hout hin
    unfold pairOf
    rw [hout, hin, pairInputsHash_comm b.profileHash, pairInputsHash_comm b.profileHash]
    simp only [Option.all_some, ne_eq, decide_not, Bool.not_eq_false', decide_eq_true_eq]
    exact ⟨eq_comm, eq_comm⟩

/-- The others whose pair with `x` has new inputs. -/
def changedOthers (H : Hashing) (cfg : Config) (old roster : MatchingRoster ε) (x : AttendeeForMatching ε) : List (AttendeeForMatching ε) :=
  (roster.attendees.filter (·.pubkey ≠ x.pubkey)).filter (inputsChanged H cfg old x)

/-- What a submission queues: both directions of the pairs with new inputs. -/
theorem Consistent.queued_changed (h : Consistent H c cfg w) (hn : 0 < cfg.batchSize)
    (has : ∀ a, a ∈ roster.attendees ↔ a = x ∨ a ∈ w.roster.attendees ∧ a.pubkey ≠ x.pubkey)
    (few : roster.attendees.length ≤ cfg.prefilter.threshold) :
    (queued (matchRecompute H cosine w.pairs c x.pubkey roster cfg rng)).Perm
      ((changedOthers H cfg w.roster roster x).map (pairOf H cfg x) ++ (changedOthers H cfg w.roster roster x).map (pairOf H cfg · x)) := by
  have hx : x ∈ roster.attendees := (has x).mpr (.inl rfl)
  have hothers : ∀ b ∈ roster.attendees.filter (·.pubkey ≠ x.pubkey), b ∈ w.roster.attendees ∧ b.pubkey ≠ x.pubkey := by
    intro b hb
    obtain ⟨hb, hbx⟩ := List.mem_filter.mp hb
    have hbx : b.pubkey ≠ x.pubkey := of_decide_eq_true hbx
    exact ((has b).mp hb).resolve_left fun he => hbx (he ▸ rfl)
  have hpairs : selectPairsToScore H cosine w.pairs c x roster.attendees cfg rng = (changedOthers H cfg w.roster roster x).map (pairOf H cfg x) := by
    rw [selectPairsToScore_few hx few, List.filter_map, changedOthers]
    congr 1
    refine List.filter_congr fun b hb => ?_
    have hiff := (h.scored_iff (hothers b hb).1 (hothers b hb).2).1
    cases hc : inputsChanged H cfg w.roster x b <;> simp [hc] at hiff <;> simp [hiff]
  have hreverse : reversePairs w.pairs c ((changedOthers H cfg w.roster roster x).map (pairOf H cfg x)) =
      (changedOthers H cfg w.roster roster x).map (pairOf H cfg · x) := by
    unfold reversePairs
    rw [List.map_map, show rev ∘ pairOf H cfg x = (pairOf H cfg · x) from funext fun b => rev_pairOf]
    refine List.filter_eq_self.mpr fun p hp => ?_
    obtain ⟨b, hb, rfl⟩ := List.mem_map.mp hp
    obtain ⟨hb, hchanged⟩ := List.mem_filter.mp hb
    have hiff := (h.scored_iff (hothers b hb).1 (hothers b hb).2).2
    rw [hchanged] at hiff
    simpa using hiff
  have hperm : (queued (matchRecompute H cosine w.pairs c x.pubkey roster cfg rng)).Perm _ := queued_perm hn hx
  rwa [hpairs, hreverse] at hperm

/-- The hash of a pubkey's profile. -/
def hashOf (roster : MatchingRoster ε) (pubkey : JsString) : JsString :=
  ((roster.attendees.find? (·.pubkey = pubkey)).map (·.profileHash)).getD []

theorem hashOf_eq (ha : a ∈ roster.attendees) : hashOf roster a.pubkey = a.profileHash := by
  unfold hashOf
  rw [find?_target ha]
  rfl

theorem Consistent.submit {scored : List (Scored ν)} (h : Consistent H c cfg w) (hn : 0 < cfg.batchSize)
    (has : ∀ a, a ∈ roster.attendees ↔ a = x ∨ a ∈ w.roster.attendees ∧ a.pubkey ≠ x.pubkey)
    (few : roster.attendees.length ≤ cfg.prefilter.threshold)
    (all : (scored.map (·.1)).Perm (queued (matchRecompute H cosine w.pairs c x.pubkey roster cfg rng)))
    (reasoned : ∀ s ∈ scored, s.2.1.reasoning ≠ []) : Consistent H c cfg ⟨roster, recordAll c w.pairs scored⟩ := by
  have hperm := all.trans (h.queued_changed hn has few)
  have hx : x ∈ roster.attendees := (has x).mpr (.inl rfl)
  have hmem : ∀ p ∈ scored.map (·.1), ∃ b ∈ changedOthers H cfg w.roster roster x, p = pairOf H cfg x b ∨ p = pairOf H cfg b x := by
    intro p hp
    rcases List.mem_append.mp (hperm.mem_iff.mp hp) with hp | hp
    · obtain ⟨b, hb, rfl⟩ := List.mem_map.mp hp
      exact ⟨b, hb, .inl rfl⟩
    · obtain ⟨b, hb, rfl⟩ := List.mem_map.mp hp
      exact ⟨b, hb, .inr rfl⟩
  have hin : ∀ b ∈ changedOthers H cfg w.roster roster x, b ∈ roster.attendees := fun b hb => (List.mem_filter.mp (List.mem_filter.mp hb).1).1
  have hhash : ∀ s ∈ scored, s.1.inputsHash = pairInputsHash H (hashOf roster s.1.a) (hashOf roster s.1.b) cfg.matchModelKey := by
    intro s hs
    obtain ⟨b, hb, he | he⟩ := hmem s.1 (List.mem_map_of_mem hs)
    all_goals
      rw [he]
      unfold pairOf
      rw [hashOf_eq hx, hashOf_eq (hin b hb)]
  have hscored := fun (p : CandidatePair) (hp : p.a ≠ p.b) => alreadyScored_recordAll (c := c) (p := p)
    (fun f g => pairInputsHash H (hashOf roster f) (hashOf roster g) cfg.matchModelKey) (fun f g => pairInputsHash_comm _ _ _)
    h.table reasoned hhash hp
  have hkeep : ∀ pk ∈ w.roster.attendees.map (·.pubkey), pk ∈ roster.attendees.map (·.pubkey) := by
    intro pk hpk
    obtain ⟨a, ha, rfl⟩ := List.mem_map.mp hpk
    by_cases hax : a.pubkey = x.pubkey
    · exact hax ▸ List.mem_map_of_mem hx
    · exact List.mem_map_of_mem ((has a).mpr (.inr ⟨ha, hax⟩))
  refine ⟨sound_recordAll h.table, fun a ha b hb hab => ?_, fun p hp hs => ?_⟩
  · refine (hscored (pairOf H cfg a b) hab).mpr (.inl ⟨?_, ?_⟩)
    · unfold pairOf
      rw [hashOf_eq ha, hashOf_eq hb]
    · -- a pair with `x` is scored now, or was before; the others were
      have hold : ∀ d ∈ roster.attendees, d.pubkey ≠ x.pubkey → d ∈ w.roster.attendees := by
        intro d hd hdx
        exact (((has d).mp hd).resolve_left fun he => hdx (he ▸ rfl)).1
      have hother : ∀ d ∈ roster.attendees, d.pubkey ≠ x.pubkey → inputsChanged H cfg w.roster x d = true →
          d ∈ changedOthers H cfg w.roster roster x := by
        intro d hd hdx hc
        exact List.mem_filter.mpr ⟨List.mem_filter.mpr ⟨hd, decide_eq_true hdx⟩, hc⟩
      by_cases hax : a.pubkey = x.pubkey
      · obtain rfl : a = x := List.inj_on_of_nodup_map roster.nodup ha hx hax
        cases hc : inputsChanged H cfg w.roster a b with
        | true =>
          exact .inl ⟨_, hperm.mem_iff.mpr (List.mem_append_left _ (List.mem_map_of_mem (hother b hb hab.symm hc))), rfl, rfl⟩
        | false => exact .inr ((h.scored_iff (hold b hb hab.symm) hab.symm).1.mpr hc)
      · by_cases hbx : b.pubkey = x.pubkey
        · obtain rfl : b = x := List.inj_on_of_nodup_map roster.nodup hb hx hbx
          cases hc : inputsChanged H cfg w.roster b a with
          | true =>
            exact .inl ⟨_, hperm.mem_iff.mpr (List.mem_append_right _ (List.mem_map_of_mem (f := (pairOf H cfg · b)) (hother a ha hab hc))), rfl, rfl⟩
          | false => exact .inr ((h.scored_iff (hold a ha hab) hab).2.mpr hc)
        · exact .inr (h.settled a (hold a ha hax) b (hold b hb hbx) hab)
  · have hnew : Has (scored.map (·.1)) p.a p.b → p.a ∈ roster.attendees.map (·.pubkey) ∧ p.b ∈ roster.attendees.map (·.pubkey) := by
      rintro ⟨q, hq, ha, hb⟩
      obtain ⟨d, hd, rfl | rfl⟩ := hmem q hq
      all_goals
        rw [← ha, ← hb]
      · exact ⟨List.mem_map_of_mem hx, List.mem_map_of_mem (hin d hd)⟩
      · exact ⟨List.mem_map_of_mem (hin d hd), List.mem_map_of_mem hx⟩
    have hwas : alreadyScored w.pairs c p = true → p.a ∈ roster.attendees.map (·.pubkey) ∧ p.b ∈ roster.attendees.map (·.pubkey) :=
      fun hs => ⟨hkeep _ (h.members p hp hs).1, hkeep _ (h.members p hp hs).2⟩
    rcases (hscored p hp).mp hs with ⟨-, hhas | hs⟩ | ⟨hs, -⟩
    · exact hnew hhas
    · exact hwas hs
    · exact hwas hs

theorem Consistent.step (hn : 0 < cfg.batchSize) (h : Consistent H c cfg w) (hs : Step H cosine c cfg w e w') : Consistent H c cfg w' := by
  cases hs with
  | submit has few all reasoned => exact h.submit hn has few all reasoned
  | leave has => exact h.leave has

/-! ## Runs -/

end

/-- The hash of the one text the run hashes. -/
def hashing : Hashing := ⟨fun _ => js "9d611726b4116188bcc18274d3e7a7356ac391733a99c74ca74b70c2e79be092", js "p1"⟩

def config : Config := ⟨⟨50, 30, 10⟩, js "m1", 10⟩

def bob : AttendeeForMatching Int := ⟨js "bob", js "h2", none⟩

def one : MatchingRoster Int := ⟨[ann], by decide, by decide⟩

def two : MatchingRoster Int := ⟨[ann, bob], by decide, by decide⟩

/-- All that the second profile's recompute queues, scored. -/
def scores : List (Scored Int) :=
  (queued (matchRecompute hashing product (Keyed.empty : Table Int) (js "camp") bob.pubkey two config lowest)).map fun p => (p, ⟨7, 1, 2, js "sails", none⟩, 0)

end Nostrautica.Matching
