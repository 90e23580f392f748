/-
Scores are paid once and never stored stale (`paid_once`): a pair is claimed for as
long as a call of a model has it, and a score is checked against both memberships
and both profiles where it is written.
-/
import Nostrautica.Coordinator.Scoring
import Nostrautica.Store.PairsFacts

namespace Nostrautica.Scoring

open Js Sql Pairs

variable {ν : Type} {H : Hashing} {w w' : World ν} {e : Act ν} {xs : List (Act ν)} {x y : Task ν} {t u : Nat}
  {table : Table ν} {row d : DirectedScore ν} {c : JsString} {p q : CandidatePair} {pairs : List CandidatePair}
  {inFlight : List JsString}

/-- What a score is written for, at the moment it is written. -/
structure Fresh (H : Hashing) (w : World ν) (d : DirectedScore ν) : Prop where
  approved : ∀ pubkey, pubkey = d.fromPk ∨ pubkey = d.toPk → ∃ a, w.attendees d.coordinate pubkey = some a ∧ a.approved = true
  hashed : ∃ a b ha hb, w.attendees d.coordinate d.fromPk = some a ∧ w.attendees d.coordinate d.toPk = some b ∧
    a.profile_hash = some ha ∧ b.profile_hash = some hb ∧ d.inputsHash = pairInputsHash H ha hb w.matchModelKey

/-- The calls in flight. -/
structure PaidOnce (w : World ν) : Prop where
  /-- No directed pair is in two of them, -/
  alone : ∀ t u x y, w.tasks t = some x → w.tasks u = some y → x.coordinate = y.coordinate →
    ∀ p ∈ x.inCall, p ∈ y.inCall → t = u
  /-- or twice in one, -/
  once : ∀ t x, w.tasks t = some x → x.inCall.Nodup
  /-- and none has a pair whose row is scored at its hash. -/
  unscored : ∀ t x, w.tasks t = some x → ∀ p ∈ x.inCall, alreadyScored w.pairs x.coordinate p = false

/-- What a step makes of the scores: it writes some, each of them fresh, or it deletes some. -/
def WritesFresh (H : Hashing) (w w' : World ν) : Prop :=
  ∃ ds, w'.written = ds ++ w.written ∧ (∀ d ∈ ds, Fresh H w d) ∧
    (w'.pairs = ds.foldr (fun d table => putPairDirection table d) w.pairs ∨ ds = [] ∧ ∃ gone, w'.pairs = w.pairs.delete gone)

/-- A score is of a pair of a batch. -/
structure OfPair (x : Task ν) (d : DirectedScore ν) (p : CandidatePair) : Prop where
  coordinate : d.coordinate = x.coordinate
  fromPk : d.fromPk = p.a
  toPk : d.toPk = p.b
  inputsHash : d.inputsHash = p.inputsHash

/-! ## One direction of a row -/

/-- A key and a side of it are a direction. -/
theorem pairKey_inj {c' f g f' g' : JsString} (h : pairKey c f g = pairKey c' f' g')
    (hside : f = (pairKey c f g).a ↔ f' = (pairKey c' f' g').a) : c = c' ∧ f = f' ∧ g = g' := by
  have hc : c = c' := by
    have := congrArg PairKey.coordinate h
    unfold pairKey at this
    split at this <;> split at this <;> exact this
  subst hc
  by_cases hfg : f = g
  · subst hfg
    rw [show pairKey c f f = ⟨c, f, f⟩ from ite_self _] at h
    unfold pairKey at h
    split at h <;> cases h <;> exact ⟨rfl, rfl, rfl⟩
  · obtain ⟨-, ⟨rfl, rfl⟩ | ⟨rfl, rfl⟩⟩ := (pairKey_eq hfg).mp h.symm
    · exact ⟨rfl, rfl, rfl⟩
    · rw [← h, eq_a_comm hfg] at hside
      exact absurd hside (by tauto)

theorem alreadyScored_iff : alreadyScored table c p = true ↔ ∃ r, table.get? (pairKey c p.a p.b) = some r ∧
    r.inputs_hash = p.inputsHash ∧ isScored (if p.a = (pairKey c p.a p.b).a then some r.reasoning else r.reasoning_b) = true := by
  unfold alreadyScored getPairDirection
  cases table.get? (pairKey c p.a p.b) <;> simp

/-- A new row shows nothing for the other direction, and an old one what it showed. -/
theorem scored_putRow_not {side : Bool} {row? : Option (PairRow ν)}
    (h : isScored (if side then some (putRow (!side) row row?).reasoning else (putRow (!side) row row?).reasoning_b) = true) :
    ∃ r, row? = some r ∧ isScored (if side then some r.reasoning else r.reasoning_b) = true := by
  cases row? with
  | none => cases side <;> cases h
  | some r => cases side <;> exact ⟨r, rfl, h⟩

theorem inputs_hash_putRow {side : Bool} {row? : Option (PairRow ν)} : (putRow side row row?).inputs_hash = row.inputsHash := by
  cases side <;> cases row? <;> rfl

/-- A write makes no direction scored but its own. -/
theorem alreadyScored_putPairDirection (h : alreadyScored (putPairDirection table row) c p = true) :
    alreadyScored table c p = true ∨
      row.coordinate = c ∧ row.fromPk = p.a ∧ row.toPk = p.b ∧ row.inputsHash = p.inputsHash := by
  obtain ⟨r, hr, hhash, hs⟩ := alreadyScored_iff.mp h
  rw [get?_putPairDirection] at hr
  by_cases hk : pairKey row.coordinate row.fromPk row.toPk = pairKey c p.a p.b
  · rw [if_pos hk] at hr
    cases hr
    rw [inputs_hash_putRow] at hhash
    by_cases hside : row.fromPk = (pairKey row.coordinate row.fromPk row.toPk).a ↔ p.a = (pairKey c p.a p.b).a
    · obtain ⟨hc, hf, hg⟩ := pairKey_inj hk hside
      exact .inr ⟨hc, hf, hg, hhash⟩
    · have hnot : decide (row.fromPk = (pairKey row.coordinate row.fromPk row.toPk).a) = !decide (p.a = (pairKey c p.a p.b).a) := by
        rw [← decide_not, decide_eq_decide]
        tauto
      rw [hnot] at hs
      obtain ⟨r, hr, hs⟩ := @scored_putRow_not ν row (decide (p.a = (pairKey c p.a p.b).a)) _ (by simpa using hs)
      obtain ⟨hget, hrow⟩ := mem_baseRow hr
      exact .inl (alreadyScored_iff.mpr ⟨r, hk ▸ hget, hrow.trans hhash, by simpa using hs⟩)
  · rw [if_neg hk] at hr
    exact .inl (alreadyScored_iff.mpr ⟨r, hr, hhash, hs⟩)

theorem alreadyScored_delete {gone : PairKey → Bool} (h : alreadyScored (table.delete gone) c p = true) :
    alreadyScored table c p = true := by
  obtain ⟨r, hr, hs⟩ := alreadyScored_iff.mp h
  rw [Keyed.get?_delete] at hr
  split at hr
  · cases hr
  · exact alreadyScored_iff.mpr ⟨r, hr, hs⟩

/-- A direction that some writes make scored is that of one of them. -/
theorem alreadyScored_foldr {ds : List (DirectedScore ν)}
    (h : alreadyScored (ds.foldr (fun d table => putPairDirection table d) table) c p = true) :
    alreadyScored table c p = true ∨
      ∃ d ∈ ds, d.coordinate = c ∧ d.fromPk = p.a ∧ d.toPk = p.b ∧ d.inputsHash = p.inputsHash := by
  induction ds with
  | nil => exact .inl h
  | cons d ds ih =>
    obtain h | h := alreadyScored_putPairDirection h
    · obtain h | ⟨e, he, h⟩ := ih h
      · exact .inl h
      · exact .inr ⟨e, .tail _ he, h⟩
    · exact .inr ⟨d, .head _, h⟩

/-! ## Claims -/

/-- What `claimPendingPairs` claims. -/
structure Claims (table : Table ν) (c : JsString) (pairs : List CandidatePair) (inFlight : List JsString)
    (out : List JsString × List CandidatePair) : Prop where
  keys : ∀ key, key ∈ out.1 ↔ key ∈ inFlight ∨ ∃ p ∈ out.2, pairFlightKey c p = key
  free : ∀ p ∈ out.2, pairFlightKey c p ∉ inFlight
  unscored : ∀ p ∈ out.2, alreadyScored table c p = false
  nodup : (out.2.map (pairFlightKey c)).Nodup
  sub : out.2.Sublist pairs

theorem claims_claimPending : ∀ {pairs inFlight}, Claims table c pairs inFlight (claimPending table c pairs inFlight)
  | [], inFlight => ⟨fun key => by simp [claimPending], nofun, nofun, .nil, .slnil⟩
  | p :: rest, inFlight => by
    have skip {inFlight} : Claims table c rest inFlight (claimPending table c rest inFlight) →
        Claims table c (p :: rest) inFlight (claimPending table c rest inFlight) :=
      fun h => ⟨h.keys, h.free, h.unscored, h.nodup, h.sub.cons p⟩
    unfold claimPending
    by_cases hs : alreadyScored table c p = true
    · rw [if_pos hs]
      exact skip claims_claimPending
    · by_cases hf : pairFlightKey c p ∈ inFlight
      · rw [if_neg hs, if_pos hf]
        exact skip claims_claimPending
      · rw [if_neg hs, if_neg hf]
        have ih := @claims_claimPending rest (pairFlightKey c p :: inFlight)
        refine ⟨fun key => ?_, fun q hq => ?_, fun q hq => ?_, ?_, ih.sub.cons_cons p⟩
        · rw [show (_, _).1 = (claimPending table c rest (pairFlightKey c p :: inFlight)).1 from rfl, ih.keys]
          simp only [List.mem_cons, exists_eq_or_imp]
          rw [eq_comm (a := key)]
          tauto
        · rcases List.mem_cons.mp hq with rfl | hq
          · exact hf
          · exact fun hm => ih.free q hq (.tail _ hm)
        · rcases List.mem_cons.mp hq with rfl | hq
          · simpa using hs
          · exact ih.unscored q hq
        · refine List.nodup_cons.mpr ⟨fun hm => ?_, ih.nodup⟩
          obtain ⟨q, hq, he⟩ := List.mem_map.mp hm
          exact ih.free q hq (he ▸ List.mem_cons_self)

theorem mem_releasePairs {key : JsString} :
    key ∈ releasePairs inFlight c pairs ↔ key ∈ inFlight ∧ ∀ p ∈ pairs, pairFlightKey c p ≠ key := by
  simp [releasePairs]

/-! ## The invariant -/

structure Sound (w : World ν) : Prop where
  listed : ∀ t x, w.tasks t = some x → ∀ p ∈ x.claimed, pairFlightKey x.coordinate p ∈ w.pairsInFlight
  apart : ∀ t u x y, w.tasks t = some x → w.tasks u = some y → t ≠ u → ∀ p ∈ x.claimed, ∀ q ∈ y.claimed,
    pairFlightKey x.coordinate p ≠ pairFlightKey y.coordinate q
  nodup : ∀ t x, w.tasks t = some x → x.claimed.Nodup
  sub : ∀ t x, w.tasks t = some x → x.candidates.Sublist x.claimed
  unscored : ∀ t x, w.tasks t = some x → ∀ p ∈ x.claimed, alreadyScored w.pairs x.coordinate p = false

theorem inCall_sublist : x.inCall.Sublist x.candidates := by
  unfold Task.inCall narratable
  split
  · exact .refl _
  · split
    · exact .refl _
    · exact List.filter_sublist

theorem Sound.paidOnce (h : Sound w) : PaidOnce w where
  alone t u x y hx hy hc p hp hq := by
    by_contra hne
    refine h.apart t u x y hx hy hne p ((h.sub t x hx).subset (inCall_sublist.subset hp)) p
      ((h.sub u y hy).subset (inCall_sublist.subset hq)) ?_
    rw [hc]
  once t x hx := (h.nodup t x hx).sublist (inCall_sublist.trans (h.sub t x hx))
  unscored t x hx p hp := h.unscored t x hx p ((h.sub t x hx).subset (inCall_sublist.subset hp))

theorem sound_start {attendees : JsString → JsString → Option Attendee} {key : JsString} : Sound (start attendees table key) where
  listed _ _ h := by cases h
  apart _ _ _ _ h := by cases h
  nodup _ _ h := by cases h
  sub _ _ h := by cases h
  unscored _ _ h := by cases h

/-- Fewer rows are fewer scored directions. -/
theorem Sound.delete (h : Sound w) (gone : PairKey → Bool) : Sound { w with pairs := w.pairs.delete gone } where
  listed := h.listed
  apart := h.apart
  nodup := h.nodup
  sub := h.sub
  unscored t x hx p hp := by
    by_contra hs
    have := alreadyScored_delete (by simpa using hs)
    rw [h.unscored t x hx p hp] at this
    cases this

/-- A world with some scores written. -/
def wrote (w : World ν) (ds : List (DirectedScore ν)) : World ν :=
  { w with pairs := ds.foldr (fun d table => putPairDirection table d) w.pairs, written := ds ++ w.written }

theorem tasks_finish : (w.finish t x).tasks = Function.update w.tasks t none := rfl

/-- A batch ends, with the scores of its own pairs written. -/
theorem Sound.finish (h : Sound w) (hx : w.tasks t = some y) (hc : x.coordinate = y.coordinate) (hcl : x.claimed = y.claimed)
    {l : List (DirectedScore ν)}
    (hl : ∀ d ∈ l, ∃ p ∈ y.claimed, OfPair y d p) :
    Sound ((wrote w l).finish t x) := by
  have other : ∀ {u z}, ((wrote w l).finish t x).tasks u = some z → u ≠ t ∧ w.tasks u = some z := by
    intro u z hz
    by_cases hu : u = t
    · subst hu
      rw [tasks_finish, Function.update_self] at hz
      cases hz
    · exact ⟨hu, by rwa [tasks_finish, Function.update_of_ne hu] at hz⟩
  refine ⟨fun u z hz p hp => ?_, fun u v z z' hz hz' => h.apart u v z z' (other hz).2 (other hz').2,
    fun u z hz => h.nodup u z (other hz).2, fun u z hz => h.sub u z (other hz).2, fun u z hz q hq => ?_⟩
  · obtain ⟨hu, hz⟩ := other hz
    refine mem_releasePairs.mpr ⟨h.listed u z hz p hp, fun q hq => ?_⟩
    rw [hc]
    exact h.apart t u y z hx hz (Ne.symm hu) q (hcl ▸ hq) p hp
  · obtain ⟨hu, hz⟩ := other hz
    by_contra hs
    obtain hs | ⟨d, hd, hdc, hfrom, hto, hhash⟩ := alreadyScored_foldr (Bool.not_eq_false _ ▸ hs)
    · rw [h.unscored u z hz q hq] at hs
      cases hs
    · obtain ⟨p, hp, ho⟩ := hl d hd
      refine h.apart t u y z hx hz (Ne.symm hu) p hp q hq ?_
      unfold pairFlightKey
      rw [← ho.coordinate, hdc, ← ho.fromPk, hfrom, ← ho.toPk, hto, ← ho.inputsHash, hhash]

/-- A batch that stays where it is in another stage. -/
theorem Sound.stage (h : Sound w) (hx : w.tasks t = some y) (hc : x.coordinate = y.coordinate) (hcl : x.claimed = y.claimed)
    (hca : x.candidates = y.candidates) : Sound { w with tasks := Function.update w.tasks t (some x) } := by
  have was : ∀ {u z}, Function.update w.tasks t (some x) u = some z →
      ∃ z', w.tasks u = some z' ∧ z.coordinate = z'.coordinate ∧ z.claimed = z'.claimed ∧ z.candidates = z'.candidates := by
    intro u z hz
    by_cases hu : u = t
    · subst hu
      rw [Function.update_self] at hz
      cases hz
      exact ⟨y, hx, hc, hcl, hca⟩
    · exact ⟨z, by rwa [Function.update_of_ne hu] at hz, rfl, rfl, rfl⟩
  refine ⟨fun u z hz => ?_, fun u v z b hz hb hne => ?_, fun u z hz => ?_, fun u z hz => ?_, fun u z hz => ?_⟩
  · obtain ⟨z', hz', e1, e2, -⟩ := was hz
    rw [e1, e2]
    exact h.listed u z' hz'
  · obtain ⟨z', hz', e1, e2, -⟩ := was hz
    obtain ⟨b', hb', f1, f2, -⟩ := was hb
    rw [e1, e2, f1, f2]
    exact h.apart u v z' b' hz' hb' hne
  · obtain ⟨z', hz', -, e2, -⟩ := was hz
    rw [e2]
    exact h.nodup u z' hz'
  · obtain ⟨z', hz', -, e2, e3⟩ := was hz
    rw [e2, e3]
    exact h.sub u z' hz'
  · obtain ⟨z', hz', e1, e2, -⟩ := was hz
    rw [e1, e2]
    exact h.unscored u z' hz'

/-- A batch begins, with its claims. -/
theorem Sound.begin (h : Sound w) (ht : w.tasks t = none) {out : List JsString × List CandidatePair}
    (hcl : Claims w.pairs x.coordinate pairs w.pairsInFlight out) (hx : x.claimed = out.2) (hsub : x.candidates.Sublist x.claimed) :
    Sound { w with pairsInFlight := out.1, tasks := Function.update w.tasks t (some x) } := by
  have was : ∀ {u z}, Function.update w.tasks t (some x) u = some z → u = t ∧ z = x ∨ u ≠ t ∧ w.tasks u = some z := by
    intro u z hz
    by_cases hu : u = t
    · subst hu
      rw [Function.update_self] at hz
      cases hz
      exact .inl ⟨rfl, rfl⟩
    · exact .inr ⟨hu, by rwa [Function.update_of_ne hu] at hz⟩
  have free : ∀ p ∈ x.claimed, ∀ u z, w.tasks u = some z → ∀ q ∈ z.claimed,
      pairFlightKey x.coordinate p ≠ pairFlightKey z.coordinate q := by
    intro p hp u z hz q hq he
    exact hcl.free p (hx ▸ hp) (he ▸ h.listed u z hz q hq)
  refine ⟨fun u z hz p hp => ?_, fun u v z b hz hb hne p hp q hq => ?_, fun u z hz => ?_, fun u z hz => ?_, fun u z hz p hp => ?_⟩
  · rw [hcl.keys]
    obtain ⟨rfl, rfl⟩ | ⟨-, hz⟩ := was hz
    · exact .inr ⟨p, hx ▸ hp, rfl⟩
    · exact .inl (h.listed u z hz p hp)
  · obtain ⟨rfl, rfl⟩ | ⟨-, hz⟩ := was hz <;> obtain ⟨rfl, rfl⟩ | ⟨-, hb'⟩ := was hb
    · exact absurd rfl hne
    · exact free p hp v b hb' q hq
    · exact (free q hq u z ‹_› p hp).symm
    · exact h.apart u v z b ‹_› hb' hne p hp q hq
  · obtain ⟨rfl, rfl⟩ | ⟨-, hz⟩ := was hz
    · rw [hx]
      exact hcl.nodup.of_map _
    · exact h.nodup u z hz
  · obtain ⟨rfl, rfl⟩ | ⟨-, hz⟩ := was hz
    · exact hsub
    · exact h.sub u z hz
  · obtain ⟨rfl, rfl⟩ | ⟨-, hz⟩ := was hz
    · exact hcl.unscored p (hx ▸ hp)
    · exact h.unscored u z hz p hp

/-! ## Writes -/

theorem profileHash_eq_some {pubkey hash : JsString} (h : w.profileHash c pubkey = some hash) :
    ∃ a, w.attendees c pubkey = some a ∧ a.profile_hash = some hash := by
  obtain ⟨h, -⟩ := Option.filter_eq_some_iff.mp h
  exact Option.bind_eq_some_iff.mp h

theorem fresh_of_checks (hb : w.bothApproved x.coordinate p.a p.b = true) (hc : w.pairInputsCurrent H x.coordinate p = true)
    (ho : OfPair x d p) : Fresh H w d := by
  rw [← ho.coordinate, ← ho.fromPk, ← ho.toPk] at hb
  constructor
  · unfold World.bothApproved at hb
    rw [Bool.and_eq_true, Option.any_eq_true, Option.any_eq_true] at hb
    rintro pubkey (rfl | rfl)
    · exact hb.1
    · exact hb.2
  · unfold World.pairInputsCurrent at hc
    split at hc
    next ha hb hea heb =>
      rw [← ho.coordinate, ← ho.fromPk] at hea
      rw [← ho.coordinate, ← ho.toPk] at heb
      obtain ⟨a, hga, hpa⟩ := profileHash_eq_some hea
      obtain ⟨b, hgb, hpb⟩ := profileHash_eq_some heb
      exact ⟨a, b, ha, hb, hga, hgb, hpa, hpb, ho.inputsHash.trans (of_decide_eq_true hc).symm⟩
    next => cases hc

/-- A turn of the loop writes nothing, or a fresh score of a pair of the batch. -/
theorem recordScore_spec (H : Hashing) (x : Task ν) (decided : Option (List (JsString × Triple ν))) (now : Int)
    (entry : JsString × Score ν) (w : World ν) : recordScore H x decided now w entry = w ∨
      ∃ d, recordScore H x decided now w entry = w.record d ∧ Fresh H w d ∧ ∃ p ∈ x.candidates, OfPair x d p := by
  unfold recordScore
  split
  next => exact .inl rfl
  next p hp =>
    split_ifs with hb hc
    · exact .inl rfl
    · exact .inl rfl
    · have hm : p ∈ x.candidates := List.mem_reverse.mp (List.mem_of_find?_eq_some hp)
      have ho : OfPair x (scoreRow x.coordinate p (override decided entry.1 entry.2) now) p := ⟨rfl, rfl, rfl, rfl⟩
      exact .inr ⟨_, rfl, fresh_of_checks (by simpa using hb) (by simpa using hc) ho, p, hm, ho⟩

/-- The loop writes fresh scores of the batch's pairs, and nothing else. -/
theorem foldl_recordScore (H : Hashing) (x : Task ν) (decided : Option (List (JsString × Triple ν))) (now : Int) :
    ∀ (scores : List (JsString × Score ν)) (w : World ν), ∃ ds,
      scores.foldl (recordScore H x decided now) w = wrote w ds ∧ ∀ d ∈ ds, Fresh H w d ∧ ∃ p ∈ x.candidates, OfPair x d p
  | [], _ => ⟨[], rfl, nofun⟩
  | entry :: rest, w => by
    rw [List.foldl_cons]
    obtain h | ⟨d, h, hf, hp⟩ := recordScore_spec H x decided now entry w
    · rw [h]
      exact foldl_recordScore H x decided now rest w
    · rw [h]
      obtain ⟨ds, he, hds⟩ := foldl_recordScore H x decided now rest (w.record d)
      refine ⟨ds ++ [d], ?_, fun e hm => ?_⟩
      · rw [he]
        simp [World.record, wrote]
      · rcases List.mem_append.mp hm with hm | hm
        · obtain ⟨hf, hp⟩ := hds e hm
          exact ⟨⟨hf.approved, hf.hashed⟩, hp⟩
        · rw [List.mem_singleton] at hm
          exact hm ▸ ⟨hf, hp⟩

/-! ## Steps -/

/-- What a step keeps, and what it writes. -/
structure Stepped (H : Hashing) (w w' : World ν) : Prop where
  sound : Sound w'
  writes : WritesFresh H w w'

/-- Nothing is written. -/
theorem WritesFresh.none (hw : w'.written = w.written) (hp : w'.pairs = w.pairs) : WritesFresh H w w' :=
  ⟨[], hw, nofun, .inl hp⟩

theorem Sound.scoreJob (h : Sound w) (ht : w.tasks t = none) {mode : Mode} {matching decision : Bool} :
    Stepped H w (scoreJob w t c mode pairs matching decision) := by
  unfold Scoring.scoreJob
  split
  next => exact ⟨h, .none rfl rfl⟩
  next first rest =>
    by_cases hm : matching = true
    · by_cases hp : w.hasProfile c (mode.anchor first) = true
      · simp only [hm, hp, Bool.not_true, Bool.false_eq_true, if_false]
        have hbegin := h.begin (x := ⟨c, mode, (claimPending w.pairs c (first :: rest) w.pairsInFlight).2,
          (claimPending w.pairs c (first :: rest) w.pairsInFlight).2.filter fun p => w.hasProfile c (mode.other p),
          if decision = true then .deciding else .narrating Option.none⟩) ht claims_claimPending rfl List.filter_sublist
        split
        next => exact ⟨hbegin.finish (l := []) (Function.update_self t _ _) rfl rfl nofun, .none rfl rfl⟩
        next => exact ⟨hbegin, .none rfl rfl⟩
      · simp only [hm, hp, Bool.not_true, Bool.false_eq_true, if_false, Bool.not_false, if_true]
        exact ⟨h, .none rfl rfl⟩
    · simp only [hm, Bool.not_false, if_true]
      exact ⟨h, .none rfl rfl⟩

theorem Sound.settled (h : Sound w) {answer : Option (List (JsString × Triple ν))} (hs : act H w (.decided t answer) = some w') :
    Stepped H w w' := by
  simp only [act] at hs
  split at hs
  next coordinate mode claimed candidates hx =>
    cases hs
    split
    next => exact ⟨h.finish (l := []) hx rfl rfl nofun, .none rfl rfl⟩
    next => exact ⟨h.stage hx rfl rfl rfl, .none rfl rfl⟩
  next => cases hs

theorem Sound.narrated (h : Sound w) {answer : Option (List (JsString × Score ν))} {eventStillLive : Bool} {now : Int}
    (hs : act H w (.narrated t answer eventStillLive now) = some w') : Stepped H w w' := by
  simp only [act] at hs
  split at hs
  next coordinate mode claimed candidates decided hx =>
    have quiet : Stepped H w (w.finish t ⟨coordinate, mode, claimed, candidates, .narrating decided⟩) :=
      ⟨h.finish (l := []) hx rfl rfl nofun, .none rfl rfl⟩
    split at hs
    next scores =>
      split at hs
      · cases hs
        split
        next =>
          obtain ⟨ds, he, hds⟩ := foldl_recordScore H ⟨coordinate, mode, claimed, candidates, .narrating decided⟩ decided now scores w
          rw [he]
          refine ⟨h.finish hx rfl rfl fun d hd => ?_, ds, rfl, fun d hd => (hds d hd).1, .inl rfl⟩
          obtain ⟨-, p, hp, hd⟩ := hds d hd
          exact ⟨p, (h.sub t _ hx).subset hp, hd⟩
        next => exact quiet
      · cases hs
    next =>
      cases hs
      exact quiet
  next => cases hs

theorem Sound.step (h : Sound w) (hs : Step H w e w') : Stepped H w w' := by
  cases e with
  | scoreJob t coordinate mode pairs matching decision =>
    simp only [Step, act] at hs
    split at hs
    · cases hs
    next ht =>
      cases hs
      exact h.scoreJob (by simpa using ht)
  | decided => exact h.settled hs
  | narrated => exact h.narrated hs
  | setAttendee | setMatchModelKey =>
    cases hs
    exact ⟨⟨h.1, h.2, h.3, h.4, h.5⟩, .none rfl rfl⟩
  | clearPairsInvolving coordinate pubkey =>
    cases hs
    exact ⟨h.delete _, [], rfl, nofun, .inr ⟨rfl, fun k => k.coordinate = coordinate && (k.a = pubkey || k.b = pubkey), rfl⟩⟩
  | clearPairs coordinate =>
    cases hs
    exact ⟨h.delete _, [], rfl, nofun, .inr ⟨rfl, fun k => k.coordinate = coordinate, rfl⟩⟩
  | restart =>
    cases hs
    exact ⟨⟨nofun, nofun, nofun, nofun, nofun⟩, .none rfl rfl⟩

/-- **Scores are paid once and never stored stale**: after any run, no directed pair with
its inputs hash is in two calls in flight or in one while its row is scored at that hash,
and the next step writes no score but of two approved people and the hash of their
profiles under the model key, as they are then. -/
theorem paid_once (attendees : JsString → JsString → Option Attendee) (table : Table ν) (key : JsString)
    (hr : Run (Step H) (start attendees table key) xs w) :
    PaidOnce w ∧ ∀ x w', Step H w x w' → WritesFresh H w w' :=
  have h : Sound w := hr.invariant (fun _ _ _ hw hs => (hw.step hs).sound) sound_start
  ⟨h.paidOnce, fun _ _ hs => (h.step hs).writes⟩

namespace Small

/-- The hash of the one text the run hashes. -/
def hashing : Hashing := ⟨fun _ => js "77e2407dd406c0e1caf9c5def3d01f8bdaa64aa4d1d9216038d030afee273d6e", js "p1"⟩

def attendees (_ pubkey : JsString) : Option Attendee :=
  if pubkey = js "ann" then some ⟨true, some (js "aa"), true⟩
  else if pubkey = js "bob" then some ⟨true, some (js "bb"), true⟩
  else none

def pair : CandidatePair := ⟨js "ann", js "bob", pairInputsHash hashing (js "aa") (js "bb") (js "m1")⟩

def score : Score Nat := ⟨7, 8, 6, js "You both sail.", none⟩

/-- A reverse batch finds its pair in a forward batch's call, and the next one its score. -/
def acts : List (Act Nat) :=
  [.scoreJob 0 (js "camp") .forward [pair] true false, .scoreJob 1 (js "camp") .reverse [pair] true false,
    .narrated 0 (some [(js "bob", score)]) true 5, .scoreJob 1 (js "camp") .reverse [pair] true false]

theorem written_eq : (Run.exec (act hashing) (start attendees Keyed.empty (js "m1")) acts).map (fun w => (w.written.length, w.pairsInFlight)) =
    some (1, []) := by decide +kernel

end Small

theorem paid_once_small : ∃ w, Run (Step Small.hashing) (start Small.attendees Keyed.empty (js "m1")) Small.acts w ∧
    w.written.length = 1 ∧ PaidOnce w ∧ ∀ x w', Step Small.hashing w x w' → WritesFresh Small.hashing w w' := by
  obtain ⟨w, hw, hlog⟩ := Option.map_eq_some_iff.mp Small.written_eq
  have hrun := Run.of_exec hw
  exact ⟨w, hrun, congrArg Prod.fst hlog, paid_once _ _ _ hrun⟩

end Nostrautica.Scoring
