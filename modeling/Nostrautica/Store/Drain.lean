/-
The pool of a `drain` of `coordinator/src/pipeline/jobs.ts`: workers over one job queue, which other
callers and other processes use as well.

A turn of a worker runs from the head of its loop to its next await without interruption. A serial
job runs alone, and a drain whose workers all left for want of work has seen the queue empty after
its last job (`drain_empties`).
-/
import Nostrautica.Store.RunnerFacts
import Nostrautica.Transition.Run

namespace Nostrautica.Drain

open Js Jobs Runner

inductive Lane
  | score | serial
  deriving DecidableEq

/-- `SCORE_LANE`. -/
def scoreLane : List JsString := [js "score_batch", js "score_reverse_batch"]

def laneOf (type : JsString) : Lane := if type ∈ scoreLane then .score else .serial

structure PoolState where
  busy : Nat := 0
  score : Nat := 0
  serial : Nat := 0

/-- `pool[lane]++`. -/
def PoolState.enter (pool : PoolState) : Lane → PoolState
  | .score => { pool with score := pool.score + 1 }
  | .serial => { pool with serial := pool.serial + 1 }

/-- `pool[lane]--`. -/
def PoolState.exit (pool : PoolState) : Lane → PoolState
  | .score => { pool with score := pool.score - 1 }
  | .serial => { pool with serial := pool.serial - 1 }

def claimableTypes (scoreConcurrency : Nat) (pool : PoolState) : ClaimTypes :=
  let scoreFull := decide (scoreConcurrency ≤ pool.score)
  let serialFull := decide (1 ≤ pool.serial)
  if serialFull && scoreFull then { onlyTypes := some [] }
  else if serialFull then { onlyTypes := some scoreLane }
  else if scoreFull then { excludeTypes := some scoreLane }
  else {}

/-- Why a worker's loop is over. -/
inductive End
  /-- `stopping` is set. -/
  | stopping
  /-- It made its turns. -/
  | limit
  /-- Nothing was claimable, and no sibling at work. -/
  | idle
  | threw
  deriving DecidableEq

/-- Where a worker is in its turn `i`. -/
inductive Phase
  | looping (i : Nat)
  /-- `await this.execute(job, token)`. -/
  | executing (i : Nat) (t : WorkerToken) (lane : Lane)
  /-- `runOne` has returned, or thrown (`none`), and `await this.runOne(pool)` has not. -/
  | ran (i : Nat) (result : Option Bool)
  /-- The pause. -/
  | paused (i : Nat)
  | over (how : End)
  deriving DecidableEq

/-- What the workers did, the newest first. -/
inductive Entry
  /-- A claim, of the queue as it was, and the row it found. -/
  | claimed (jobs : Jobs) (now : Int) (row : Option JobRow)
  | executed

/-- With `n + 1` workers, which is what `scoreConcurrency` is. -/
structure State (n : Nat) where
  world : Runner.World
  stopping : Bool
  pool : PoolState
  phase : Fin (n + 1) → Phase
  log : List Entry

/-- What a turn gets from outside. -/
structure Turn where
  now : Int
  t : WorkerToken
  leaseMs : Int
  /-- `claimNextJob` throws. -/
  throws : Bool := false

inductive Act (ε : Type*) (n : Nat)
  /-- Anything else that happens to the queue, and the handlers of this drain. -/
  | queue (x : Runner.Act ε)
  | stopClaiming
  /-- The worker goes on with its loop: at its start, after a job, or after a pause. -/
  | turn (k : Fin (n + 1)) (c : Turn)
  /-- `execute` is over. -/
  | executed (k : Fin (n + 1)) (throws : Bool)
  /-- `await this.runOne(pool)` is over, and no turn follows at once. -/
  | settle (k : Fin (n + 1))

section

variable {ε : Type*} (o : Options ε) (maxIterations : Nat) {n : Nat}

/-- A turn of `workerLoop` up to its await. -/
def turn (s : State n) (k : Fin (n + 1)) (i : Nat) (c : Turn) : Option (State n) :=
  if maxIterations ≤ i then some { s with phase := Function.update s.phase k (.over .limit) }
  else if s.stopping then some { s with phase := Function.update s.phase k (.over .stopping) }
  else
    let pool := { s.pool with busy := s.pool.busy + 1 }
    if c.throws then some { s with pool, phase := Function.update s.phase k (.ran i none) }
    else
      let types := claimableTypes (n + 1) pool
      let row := s.world.jobs.candidate c.now types
      let log := .claimed s.world.jobs c.now row :: s.log
      (Runner.act o s.world (.runOne c.now c.t c.leaseMs types false)).map fun world =>
        match row with
        | none => { s with world, pool, log, phase := Function.update s.phase k (.ran i (some false)) }
        | some job =>
          { s with
            world, log
            pool := pool.enter (laneOf job.type)
            phase := Function.update s.phase k (.executing i c.t (laneOf job.type)) }

def step (s : State n) : Act ε n → Option (State n)
  | .queue x => (Runner.act o s.world x).map fun world => { s with world }
  | .stopClaiming => some { s with stopping := true }
  | .turn k c =>
    match s.phase k with
    | .looping i => turn o maxIterations s k i c
    | .ran i (some true) => turn o maxIterations { s with pool := { s.pool with busy := s.pool.busy - 1 } } k (i + 1) c
    | .paused i => turn o maxIterations s k (i + 1) c
    | _ => none
  | .executed k throws =>
    match s.phase k with
    | .executing i t lane =>
      -- its handler, if it came to one, has ended
      if s.world.tasks t = none then
        some { s with
          pool := s.pool.exit lane
          phase := Function.update s.phase k (.ran i (if throws then none else some true))
          log := .executed :: s.log }
      else none
    | _ => none
  | .settle k =>
    let pool := { s.pool with busy := s.pool.busy - 1 }
    match s.phase k with
    | .ran i (some false) =>
      some { s with pool, phase := Function.update s.phase k (if pool.busy = 0 then .over .idle else .paused i) }
    | .ran _ none => some { s with pool, phase := Function.update s.phase k (.over .threw) }
    | _ => none

def start (world : Runner.World) : State n := ⟨world, false, {}, fun _ => .looping 0, []⟩

def Step (s : State n) (a : Act ε n) (s' : State n) : Prop := step o maxIterations s a = some s'

end

/-! ## The pool counts its workers -/

def Phase.inLane (lane : Lane) : Phase → Bool
  | .executing _ _ l => l = lane
  | _ => false

def Phase.atWork : Phase → Bool
  | .executing .. | .ran .. => true
  | _ => false

section

variable {n : Nat} {f : Fin (n + 1) → Phase} {k : Fin (n + 1)} {p : Phase → Bool} {x : Phase}

/-- The workers whose phase is a `p`. -/
def count (p : Phase → Bool) (f : Fin (n + 1) → Phase) : Nat := ∑ k, (p (f k)).toNat

theorem count_eq (k : Fin (n + 1)) : count p f = (p (f k)).toNat + ∑ j ∈ Finset.univ.erase k, (p (f j)).toNat :=
  (Finset.add_sum_erase _ _ (Finset.mem_univ k)).symm

theorem count_update : count p (Function.update f k x) + (p (f k)).toNat = count p f + (p x).toNat := by
  have hrest : ∑ j ∈ Finset.univ.erase k, (p (Function.update f k x j)).toNat = ∑ j ∈ Finset.univ.erase k, (p (f j)).toNat :=
    Finset.sum_congr rfl fun j hj => by rw [Function.update_of_ne (Finset.ne_of_mem_erase hj)]
  rw [count_eq k, count_eq (f := f) k, hrest, Function.update_self]
  omega

theorem count_update_eq (h : p (f k) = p x) : count p (Function.update f k x) = count p f := by
  have := count_update (f := f) (k := k) (p := p) (x := x)
  rw [h] at this
  omega

theorem count_update_gain (h : p (f k) = false) (hx : p x = true) : count p (Function.update f k x) = count p f + 1 := by
  simpa [h, hx] using count_update (f := f) (k := k) (p := p) (x := x)

theorem count_update_lose (h : p (f k) = true) (hx : p x = false) : count p (Function.update f k x) = count p f - 1 := by
  have := count_update (f := f) (k := k) (p := p) (x := x)
  simp only [h, hx, Bool.toNat_true, Bool.toNat_false] at this
  omega

theorem count_eq_zero : count p f = 0 ↔ ∀ k, p (f k) = false := by
  simp [count, Finset.sum_eq_zero_iff]

theorem eq_of_count_le (h : count p f ≤ 1) {j : Fin (n + 1)} (hk : p (f k) = true) (hj : p (f j) = true) : k = j := by
  by_contra hne
  rw [count_eq k, hk] at h
  have hmem : j ∈ Finset.univ.erase k := Finset.mem_erase.mpr ⟨Ne.symm hne, Finset.mem_univ j⟩
  have hle : (p (f j)).toNat ≤ ∑ i ∈ Finset.univ.erase k, (p (f i)).toNat :=
    Finset.single_le_sum (f := fun i => (p (f i)).toNat) (fun _ _ => Nat.zero_le _) hmem
  rw [hj] at hle
  simp only [Bool.toNat_true] at h hle
  omega

end

/-! ## What a claim may find -/

theorem first_eq_none : ∀ {rows : List JobRow}, first rows = none → rows = []
  | [], _ => rfl
  | r :: rest, h => by
    unfold first at h
    split at h
    · cases h
    · split_ifs at h

theorem not_runnable_of_candidate {j : Jobs} {now : Int} (h : j.candidate now {} = none) : ∀ r ∈ j.rows, runnable now r = false := by
  intro r hr
  have hnil : j.rows.filter (fun r => runnable now r && ClaimTypes.admit {} r) = [] := by
    apply first_eq_none
    simpa [Jobs.candidate] using h
  have := List.filter_eq_nil_iff.mp hnil r hr
  simpa [ ClaimTypes.admit] using this

theorem admit_of_candidate {j : Jobs} {now : Int} {types : ClaimTypes} {job : JobRow} (h : j.candidate now types = some job) :
    types.admit job = true := by
  simp only [Jobs.candidate] at h
  split at h
  · cases h
  · exact (Bool.and_eq_true_iff.mp (List.mem_filter.mp (mem_of_first h)).2).2

/-- With a serial job at work, a claim finds none. -/
theorem score_of_candidate {j : Jobs} {now : Int} {m : Nat} {pool : PoolState} {job : JobRow} (hs : 1 ≤ pool.serial)
    (h : j.candidate now (claimableTypes m pool) = some job) : laneOf job.type = .score := by
  by_cases hfull : m ≤ pool.score
  · simp [claimableTypes, hs, hfull, Jobs.candidate] at h
  · have htypes : claimableTypes m pool = { onlyTypes := some scoreLane } := by simp [claimableTypes, hs, hfull]
    rw [htypes] at h
    have hmem : job.type ∈ scoreLane := by simpa [ ClaimTypes.admit, scoreLane] using admit_of_candidate h
    exact if_pos hmem

/-- With no job at work, a claim is of all types. -/
theorem claimableTypes_empty {m : Nat} {pool : PoolState} (hm : 0 < m) (hscore : pool.score = 0) (hserial : pool.serial = 0) :
    claimableTypes m pool = {} := by
  have : ¬ m ≤ 0 := Nat.not_le.mpr hm
  simp [claimableTypes, hscore, hserial, this]

/-! ## One step -/

section

variable {ε : Type*} {o : Options ε} {m n : Nat} {s s' : State n} {k : Fin (n + 1)} {i : Nat} {c : Turn}

/-- What a turn can do. -/
theorem turn_cases (h : turn o m s k i c = some s') :
    (∃ e, e ≠ .idle ∧ s' = { s with phase := Function.update s.phase k (.over e) }) ∨
    s' = { s with pool := { s.pool with busy := s.pool.busy + 1 }, phase := Function.update s.phase k (.ran i none) } ∨
    (s.world.jobs.candidate c.now (claimableTypes (n + 1) s.pool) = none ∧ ∃ world,
      s' = { s with
        world
        pool := { s.pool with busy := s.pool.busy + 1 }
        phase := Function.update s.phase k (.ran i (some false))
        log := .claimed s.world.jobs c.now none :: s.log }) ∨
    ∃ job, s.world.jobs.candidate c.now (claimableTypes (n + 1) s.pool) = some job ∧ ∃ world,
      s' = { s with
        world
        pool := { s.pool with busy := s.pool.busy + 1 }.enter (laneOf job.type)
        phase := Function.update s.phase k (.executing i c.t (laneOf job.type))
        log := .claimed s.world.jobs c.now (some job) :: s.log } := by
  have htypes : claimableTypes (n + 1) { s.pool with busy := s.pool.busy + 1 } = claimableTypes (n + 1) s.pool := rfl
  unfold turn at h
  split_ifs at h with hlimit hstop hthrows
  · exact .inl ⟨.limit, by decide, (Option.some.inj h).symm⟩
  · exact .inl ⟨.stopping, by decide, (Option.some.inj h).symm⟩
  · exact .inr (.inl (Option.some.inj h).symm)
  · simp only [htypes] at h
    obtain ⟨world, -, h⟩ := Option.map_eq_some_iff.mp h
    cases hrow : s.world.jobs.candidate c.now (claimableTypes (n + 1) s.pool) with
    | none =>
      rw [hrow] at h
      exact .inr (.inr (.inl ⟨rfl, world, h.symm⟩))
    | some job =>
      rw [hrow] at h
      exact .inr (.inr (.inr ⟨job, rfl, world, h.symm⟩))

/-- The pool, where worker `k` is not counted. -/
structure CountedBut (k : Fin (n + 1)) (s : State n) : Prop where
  busy : s.pool.busy + (s.phase k).atWork.toNat = count Phase.atWork s.phase
  score : s.pool.score = count (Phase.inLane .score) s.phase
  serial : s.pool.serial = count (Phase.inLane .serial) s.phase
  alone : s.pool.serial ≤ 1
  away : ∀ lane, (s.phase k).inLane lane = false

structure Counted (s : State n) : Prop where
  busy : s.pool.busy = count Phase.atWork s.phase
  score : s.pool.score = count (Phase.inLane .score) s.phase
  serial : s.pool.serial = count (Phase.inLane .serial) s.phase
  alone : s.pool.serial ≤ 1

theorem Counted.but (h : Counted s) (hk : (s.phase k).atWork = false) (haway : ∀ lane, (s.phase k).inLane lane = false) : CountedBut k s where
  busy := by simpa [hk] using h.busy
  score := h.score
  serial := h.serial
  alone := h.alone
  away := haway

/-- The worker is done with `runOne`, and `busy` says so. -/
theorem Counted.leave (h : Counted s) {r : Option Bool} (hk : s.phase k = .ran i r) :
    CountedBut k { s with pool := { s.pool with busy := s.pool.busy - 1 } } where
  busy := by
    have hpos : 1 ≤ count Phase.atWork s.phase := by
      rw [count_eq k, hk]
      exact Nat.le_add_right 1 _
    have hbusy := h.busy
    simp only [hk, Phase.atWork, Bool.toNat_true]
    omega
  score := h.score
  serial := h.serial
  alone := h.alone
  away lane := by simp [hk, Phase.inLane]

/-- A worker that is not counted goes where none is. -/
theorem CountedBut.rest (h : CountedBut k s) {x : Phase} (hx : x.atWork = false) (hlane : ∀ lane, x.inLane lane = false) :
    Counted { s with phase := Function.update s.phase k x } where
  busy := by
    have := count_update (f := s.phase) (k := k) (p := Phase.atWork) (x := x)
    have hbusy := h.busy
    rw [hx, Bool.toNat_false] at this
    show s.pool.busy = count Phase.atWork (Function.update s.phase k x)
    omega
  score := by rw [count_update_eq ((h.away _).trans (hlane _).symm)]; exact h.score
  serial := by rw [count_update_eq ((h.away _).trans (hlane _).symm)]; exact h.serial
  alone := h.alone

/-- A worker that is not counted comes to a claim that finds nothing, or throws. -/
theorem CountedBut.claims (h : CountedBut k s) {r : Option Bool} {world : Runner.World} {log : List Entry} :
    Counted { s with
      world, log
      pool := { s.pool with busy := s.pool.busy + 1 }
      phase := Function.update s.phase k (.ran i r) } where
  busy := by
    have := count_update (f := s.phase) (k := k) (p := Phase.atWork) (x := .ran i r)
    have hbusy := h.busy
    rw [show (Phase.ran i r).atWork = true from rfl, Bool.toNat_true] at this
    show s.pool.busy + 1 = count Phase.atWork (Function.update s.phase k (.ran i r))
    omega
  score := by rw [count_update_eq (h.away _)]; exact h.score
  serial := by rw [count_update_eq (h.away _)]; exact h.serial
  alone := h.alone

/-- A worker that is not counted takes a job. -/
theorem CountedBut.takes (h : CountedBut k s) {job : JobRow} {world : Runner.World} {log : List Entry} {t : WorkerToken}
    (hlane : 1 ≤ s.pool.serial → laneOf job.type = .score) :
    Counted { s with
      world, log
      pool := { s.pool with busy := s.pool.busy + 1 }.enter (laneOf job.type)
      phase := Function.update s.phase k (.executing i t (laneOf job.type)) } := by
  have hwork := count_update (f := s.phase) (k := k) (p := Phase.atWork) (x := .executing i t (laneOf job.type))
  rw [show (Phase.executing i t (laneOf job.type)).atWork = true from rfl, Bool.toNat_true] at hwork
  have hbusy := h.busy
  cases hl : laneOf job.type with
  | score =>
    rw [hl] at hwork
    refine ⟨?_, ?_, ?_, h.alone⟩
    · show s.pool.busy + 1 = count Phase.atWork (Function.update s.phase k (.executing i t .score))
      omega
    · rw [count_update_gain (h.away _) rfl, ← h.score]
      rfl
    · rw [count_update_eq (h.away _)]
      exact h.serial
  | serial =>
    have hnone : ¬ 1 ≤ s.pool.serial := fun hs => by
      rw [hlane hs] at hl
      cases hl
    rw [hl] at hwork
    refine ⟨?_, ?_, ?_, ?_⟩
    · show s.pool.busy + 1 = count Phase.atWork (Function.update s.phase k (.executing i t .serial))
      omega
    · rw [count_update_eq (h.away _)]
      exact h.score
    · rw [count_update_gain (h.away _) rfl, ← h.serial]
      rfl
    · show s.pool.serial + 1 ≤ 1
      omega

theorem CountedBut.turn (h : CountedBut k s) (ht : Drain.turn o m s k i c = some s') : Counted s' := by
  rcases turn_cases ht with ⟨e, -, rfl⟩ | rfl | ⟨-, world, rfl⟩ | ⟨job, hjob, world, rfl⟩
  · exact h.rest rfl fun _ => rfl
  · exact h.claims
  · exact h.claims
  · exact h.takes fun hs => score_of_candidate hs hjob

end

/-- A worker comes to a turn: the state in which the turn begins. -/
inductive Begins {n : Nat} (k : Fin (n + 1)) (s : State n) : State n → Prop
  | looping {i : Nat} : s.phase k = .looping i → Begins k s s
  | paused {i : Nat} : s.phase k = .paused i → Begins k s s
  | ran {i : Nat} : s.phase k = .ran i (some true) → Begins k s { s with pool := { s.pool with busy := s.pool.busy - 1 } }

section

variable {ε : Type*} {o : Options ε} {m n : Nat} {s s₀ s' : State n} {a : Act ε n} {k : Fin (n + 1)} {i : Nat} {c : Turn}

/-- What a step can do. -/
theorem step_cases (h : Step o m s a s') :
    (∃ world stopping, s' = { s with world, stopping }) ∨
    (∃ k i c s₀, Begins k s s₀ ∧ turn o m s₀ k i c = some s') ∨
    (∃ k i t lane r, s.phase k = .executing i t lane ∧ r ≠ some false ∧
      s' = { s with pool := s.pool.exit lane, phase := Function.update s.phase k (.ran i r), log := .executed :: s.log }) ∨
    ∃ k i r x, s.phase k = .ran i r ∧
      (r = none ∧ x = .over .threw ∨ r = some false ∧ (x = .over .idle ∨ x = .paused i)) ∧
      s' = { s with pool := { s.pool with busy := s.pool.busy - 1 }, phase := Function.update s.phase k x } := by
  cases a with
  | queue x =>
    obtain ⟨world, -, h⟩ := Option.map_eq_some_iff.mp h
    exact .inl ⟨world, s.stopping, h.symm⟩
  | stopClaiming => exact .inl ⟨s.world, true, (Option.some.inj h).symm⟩
  | turn k c =>
    simp only [Step, step] at h
    split at h
    next i hk => exact .inr (.inl ⟨k, i, c, s, .looping hk, h⟩)
    next i hk => exact .inr (.inl ⟨k, i + 1, c, _, .ran hk, h⟩)
    next i hk => exact .inr (.inl ⟨k, i + 1, c, s, .paused hk, h⟩)
    next => cases h
  | executed k throws =>
    simp only [Step, step] at h
    split at h
    next i t lane hk =>
      split_ifs at h with htask
      all_goals exact .inr (.inr (.inl ⟨k, i, t, lane, _, hk, by simp, (Option.some.inj h).symm⟩))
    next => cases h
  | settle k =>
    simp only [Step, step] at h
    split at h
    next i hk =>
      refine .inr (.inr (.inr ⟨k, i, some false, _, hk, .inr ⟨rfl, ?_⟩, (Option.some.inj h).symm⟩))
      split_ifs
      · exact .inl rfl
      · exact .inr rfl
    next i hk => exact .inr (.inr (.inr ⟨k, i, none, _, hk, .inl ⟨rfl, rfl⟩, (Option.some.inj h).symm⟩))
    next => cases h

theorem Counted.begins (h : Counted s) : Begins k s s₀ → CountedBut k s₀
  | .looping hk => h.but (by rw [hk]; rfl) fun _ => by rw [hk]; rfl
  | .paused hk => h.but (by rw [hk]; rfl) fun _ => by rw [hk]; rfl
  | .ran hk => h.leave hk

/-- A job is over. -/
theorem Counted.executed (h : Counted s) {t : WorkerToken} {lane : Lane} {r : Option Bool} (hk : s.phase k = .executing i t lane)
    {log : List Entry} : Counted { s with pool := s.pool.exit lane, phase := Function.update s.phase k (.ran i r), log } := by
  have hbusy : s.pool.busy = count Phase.atWork (Function.update s.phase k (.ran i r)) := by
    rw [count_update_eq (by rw [hk]; rfl)]
    exact h.busy
  cases lane with
  | score =>
    refine ⟨hbusy, ?_, ?_, h.alone⟩
    · rw [count_update_lose (by rw [hk]; rfl) rfl, ← h.score]
      rfl
    · rw [count_update_eq (by rw [hk]; rfl)]
      exact h.serial
  | serial =>
    refine ⟨hbusy, ?_, ?_, (Nat.sub_le _ _).trans h.alone⟩
    · rw [count_update_eq (by rw [hk]; rfl)]
      exact h.score
    · rw [count_update_lose (by rw [hk]; rfl) rfl, ← h.serial]
      rfl

theorem Counted.step (h : Counted s) (hs : Step o m s a s') : Counted s' := by
  rcases step_cases hs with ⟨world, stopping, rfl⟩ | ⟨k, i, c, s₀, hb, ht⟩ | ⟨k, i, t, lane, r, hk, -, rfl⟩ | ⟨k, i, r, x, hk, hx, rfl⟩
  · exact ⟨h.busy, h.score, h.serial, h.alone⟩
  · exact (h.begins hb).turn ht
  · exact h.executed hk
  · rcases hx with ⟨-, rfl⟩ | ⟨-, rfl | rfl⟩
    all_goals exact (h.leave hk).rest rfl fun _ => rfl

theorem counted_start (world : Runner.World) : Counted (start world : State n) where
  busy := by simp [start, count, Phase.atWork]
  score := by simp [start, count, Phase.inLane]
  serial := by simp [start, count, Phase.inLane]
  alone := Nat.zero_le 1

/-! ## The last claim of a drain -/

/-- A worker that has to claim again, or never will. -/
def Phase.owes : Phase → Bool
  | .looping _ | .executing .. | .ran _ (some true) | .ran _ none => true
  | .over e => e ≠ .idle
  | _ => false

/-- The last that the drain did was a claim of a queue with nothing due. -/
def SawEmpty (log : List Entry) : Prop :=
  ∃ jobs now rest, log = .claimed jobs now none :: rest ∧ ∀ r ∈ jobs.rows, runnable now r = false

def Covered (s : State n) : Prop := (∃ k, (s.phase k).owes = true) ∨ SawEmpty s.log

theorem covered_self {x : Phase} (hx : x.owes = true) (hs : s'.phase = Function.update s.phase k x) : Covered s' :=
  .inl ⟨k, by rw [hs, Function.update_self]; exact hx⟩

/-- A turn leaves a sibling at work, or it found the queue empty. -/
theorem CountedBut.covered (h : CountedBut k s) (ht : Drain.turn o m s k i c = some s') : Covered s' := by
  rcases turn_cases ht with ⟨e, he, rfl⟩ | rfl | ⟨hnone, world, rfl⟩ | ⟨job, -, world, rfl⟩
  · exact covered_self (s := s) (x := .over e) (by simpa [Phase.owes] using he) rfl
  · exact covered_self (s := s) (x := .ran i none) rfl rfl
  · by_cases hlanes : ∃ j lane, (s.phase j).inLane lane = true
    · obtain ⟨j, lane, hj⟩ := hlanes
      have hne : j ≠ k := by
        rintro rfl
        rw [h.away lane] at hj
        cases hj
      refine .inl ⟨j, ?_⟩
      show (Function.update s.phase k _ j).owes = true
      rw [Function.update_of_ne hne]
      cases hphase : s.phase j with
      | executing i t lane => rfl
      | _ => simp [hphase, Phase.inLane] at hj
    · have hzero : ∀ lane, count (Phase.inLane lane) s.phase = 0 := fun lane =>
        count_eq_zero.mpr fun j => Bool.eq_false_iff.mpr fun hj => hlanes ⟨j, lane, hj⟩
      rw [claimableTypes_empty n.succ_pos (h.score.trans (hzero _)) (h.serial.trans (hzero _))] at hnone
      exact .inr ⟨_, _, _, rfl, not_runnable_of_candidate hnone⟩
  · exact covered_self (s := s) (x := .executing i c.t (laneOf job.type)) rfl rfl

theorem Covered.step (h : Covered s) (hc : Counted s) (hs : Step o m s a s') : Covered s' := by
  rcases step_cases hs with ⟨world, stopping, rfl⟩ | ⟨k, i, c, s₀, hb, ht⟩ | ⟨k, i, t, lane, r, -, hr, rfl⟩ | ⟨k, i, r, x, hk, hx, rfl⟩
  · exact h
  · exact (hc.begins hb).covered ht
  · refine covered_self (s := s) (k := k) (x := .ran i r) ?_ rfl
    match r with
    | none | some true => rfl
    | some false => exact absurd rfl hr
  · rcases hx with ⟨-, rfl⟩ | ⟨rfl, -⟩
    · exact covered_self (s := s) (k := k) (x := .over .threw) rfl rfl
    · -- the worker owed nothing, and the log is the same
      refine h.imp_left ?_
      rintro ⟨j, hj⟩
      have hne : j ≠ k := by
        rintro rfl
        rw [hk] at hj
        cases hj
      refine ⟨j, ?_⟩
      show (Function.update s.phase k _ j).owes = true
      rw [Function.update_of_ne hne]
      exact hj

theorem covered_start (world : Runner.World) : Covered (start world : State n) := .inl ⟨0, rfl⟩

end

/-! ## A drain -/

section

variable {ε : Type*} {o : Options ε} {m n : Nat} {s : State n} {world : Runner.World} {acts : List (Act ε n)}

/-- Whatever else happens to the queue meanwhile: two workers never execute serial jobs at a time, and
where each worker left because it found nothing to do, no job of the queue was due at the drain's last
claim, which was after its last job. -/
theorem drain_empties (h : Run (Step o m) (start world) acts s) :
    (∀ j k, (s.phase j).inLane .serial = true → (s.phase k).inLane .serial = true → j = k) ∧
    ((∀ k, s.phase k = .over .idle) → SawEmpty s.log) := by
  have hinv : Counted s ∧ Covered s :=
    h.invariant (I := fun s => Counted s ∧ Covered s) (fun _ _ _ hi hs => ⟨hi.1.step hs, hi.2.step hi.1 hs⟩)
      ⟨counted_start world, covered_start world⟩
  refine ⟨fun j k hj hk => eq_of_count_le ?_ hj hk, fun hidle => hinv.2.resolve_left ?_⟩
  · rw [← hinv.1.serial]
    exact hinv.1.alone
  · rintro ⟨k, hk⟩
    rw [hidle k] at hk
    cases hk

end

/-! ## A small drain -/

open Runner.Small (token)

def options : Options Unit := ⟨2, fun _ => true, fun _ => none, fun _ => none, fun _ => 0⟩

/-- Two workers take a profile and a batch of scores, and one waits for the other with the second profile. -/
def both : List (Act Unit 1) :=
  [.queue (.enqueueJob (js "process_attendee") (js "proc:a") .null 0), .queue (.enqueueJob (js "score_batch") (js "score:a") .null 0),
    .queue (.enqueueJob (js "process_attendee") (js "proc:b") .null 0), .turn 0 ⟨10, token 1, 50, false⟩, .turn 1 ⟨10, token 2, 50, false⟩,
    .queue (.settle (token 2) 12 .returned), .executed 1 false, .turn 1 ⟨12, token 3, 50, false⟩, .settle 1,
    .queue (.settle (token 1) 14 .returned), .executed 0 false, .turn 0 ⟨14, token 4, 50, false⟩, .queue (.settle (token 4) 20 .returned),
    .executed 0 false, .turn 1 ⟨20, token 5, 50, false⟩, .turn 0 ⟨20, token 6, 50, false⟩, .settle 0, .settle 1, .turn 0 ⟨25, token 7, 50, false⟩,
    .settle 0]

theorem both_idle : (Run.exec (step options 10) (start .start) both).map (fun s => decide (∀ k, s.phase k = .over .idle)) = some true := by
  decide +kernel

theorem drain_empties_both : ∃ s, Run (Step options 10) (start .start) both s ∧ SawEmpty s.log := by
  obtain ⟨s, hs, hidle⟩ := Option.map_eq_some_iff.mp both_idle
  have hrun : Run (Step options 10) (start .start) both s := Run.of_exec hs
  exact ⟨s, hrun, (drain_empties hrun).2 (of_decide_eq_true hidle)⟩

end Nostrautica.Drain
