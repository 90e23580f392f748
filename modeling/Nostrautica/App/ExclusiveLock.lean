/-
The in-process lock of `withExclusiveLock` (`app/src/lib/util/exclusive-lock.ts`) and of
`withMutationLock` (`app/src/lib/nostr/mutation-lock.ts`), where there are no Web Locks: a chain of
promises for each name. A promise that is resolved wakes what waits for it at some later time.

One call of a name runs at a time, in the order of the calls, and no call waits for ever
(`one_at_a_time`).
-/
import Nostrautica.Transition.Run

namespace Nostrautica.ExclusiveLock

inductive Phase
  /-- `await prev`. -/
  | waiting
  /-- `await fn()`. -/
  | running
  | done
  deriving DecidableEq

/-- A call of `inProcess`. -/
structure Call (N : Type) where
  name : N
  /-- The call whose `mine` is awaited, `none` for `Promise.resolve()`. -/
  prev : Option Nat
  phase : Phase
  /-- Is `mine` resolved? -/
  settled : Bool

structure State (N : Type) where
  tails : N → Option Nat
  calls : List (Call N)

inductive Act (N : Type)
  | call (name : N)
  | enter (i : Nat)
  /-- `fn` returns or throws: `release()`, and the tail goes where it is this call's. -/
  | finish (i : Nat)
  /-- `prev` and `gate` are resolved, so `mine` is. -/
  | settle (i : Nat)

section

variable {N : Type} [DecidableEq N]

def isSettled (calls : List (Call N)) : Option Nat → Bool
  | none => true
  | some j => (calls[j]?).any (·.settled)

def step (s : State N) : Act N → Option (State N)
  | .call name => some ⟨Function.update s.tails name (some s.calls.length), s.calls ++ [⟨name, s.tails name, .waiting, false⟩]⟩
  | .enter i =>
    match s.calls[i]? with
    | some c => if c.phase = .waiting ∧ isSettled s.calls c.prev then some ⟨s.tails, s.calls.set i { c with phase := .running }⟩ else none
    | none => none
  | .finish i =>
    match s.calls[i]? with
    | some c =>
      if c.phase = .running then
        some ⟨if s.tails c.name = some i then Function.update s.tails c.name none else s.tails, s.calls.set i { c with phase := .done }⟩
      else none
    | none => none
  | .settle i =>
    match s.calls[i]? with
    | some c =>
      if c.phase = .done ∧ !c.settled ∧ isSettled s.calls c.prev then some ⟨s.tails, s.calls.set i { c with settled := true }⟩ else none
    | none => none

def init : State N := ⟨fun _ => none, []⟩

def Step (s : State N) (a : Act N) (t : State N) : Prop := step s a = some t

end

/-! ## What a step does -/

section

variable {N : Type} {s t : State N} {a : Act N} {c c' : Call N} {i j : Nat} {n : N}

/-- The calls of a name before another are done. -/
def Behind (calls : List (Call N)) (i : Nat) (n : N) : Prop :=
  ∀ (j : Nat) (c : Call N), j < i → calls[j]? = some c → c.name = n → c.phase = .done

/-- The chain of a name: each call awaits the one before it, and the tail is the last call that is not done. -/
structure Chained (s : State N) : Prop where
  prev : ∀ (i : Nat) (c : Call N) (j : Nat), s.calls[i]? = some c → c.prev = some j → j < i ∧
    (∃ c' : Call N, s.calls[j]? = some c' ∧ c'.name = c.name) ∧ ∀ (k : Nat) (c' : Call N), j < k → k < i → s.calls[k]? = some c' → c'.name ≠ c.name
  first : ∀ (i : Nat) (c : Call N), s.calls[i]? = some c → c.prev = none → Behind s.calls i c.name
  settled : ∀ (i : Nat) (c : Call N), s.calls[i]? = some c → c.settled = true → c.phase = .done
  begun : ∀ (i : Nat) (c : Call N), s.calls[i]? = some c → c.phase ≠ .waiting → Behind s.calls i c.name
  tail : ∀ (n : N) (i : Nat), s.tails n = some i → (∃ c : Call N, s.calls[i]? = some c ∧ c.name = n ∧ c.phase ≠ .done) ∧
    ∀ (j : Nat) (c : Call N), i < j → s.calls[j]? = some c → c.name ≠ n
  free : ∀ n, s.tails n = none → ∀ (i : Nat) (c : Call N), s.calls[i]? = some c → c.name = n → c.phase = .done

theorem chained_init : Chained (init : State N) where
  prev i c j hc := by simp [init] at hc
  first i c hc := by simp [init] at hc
  settled i c hc := by simp [init] at hc
  begun i c hc := by simp [init] at hc
  tail n i ht := by simp [init] at ht
  free n _ i c hc := by simp [init] at hc

/-- Once what it awaits is resolved, the calls of its name before a call are done. -/
theorem Chained.behind (h : Chained s) (hc : s.calls[i]? = some c) (hprev : isSettled s.calls c.prev = true) : Behind s.calls i c.name := by
  cases hp : c.prev with
  | none => exact h.first i c hc hp
  | some j =>
    obtain ⟨hji, ⟨c', hc', hname⟩, hbetween⟩ := h.prev i c j hc hp
    have hsettled : c'.settled = true := by
      rw [hp] at hprev
      simpa [isSettled, hc'] using hprev
    have hdone := h.settled j c' hc' hsettled
    intro k d hki hd hdn
    rcases Nat.lt_trichotomy k j with hkj | rfl | hjk
    · exact h.begun j c' hc' (by rw [hdone]; decide) k d hkj hd (hdn.trans hname.symm)
    · rw [hc'] at hd
      rw [← Option.some.inj hd]
      exact hdone
    · exact absurd hdn (hbetween k d hjk hki hd)

/-- What `set` leaves: the same calls, with the phase and the flag of one changed. -/
theorem set_cases {calls : List (Call N)} {k : Nat} {d : Call N} (hd : (calls.set i c')[k]? = some d) :
    (k = i ∧ d = c') ∨ (k ≠ i ∧ calls[k]? = some d) := by
  rw [List.getElem?_set] at hd
  split_ifs at hd with hki hlen
  · exact .inl ⟨hki.symm, (Option.some.inj hd).symm⟩
  · exact .inr ⟨fun he => hki he.symm, hd⟩

theorem set_self {calls : List (Call N)} (hc : calls[i]? = some c) : (calls.set i c')[i]? = some c' := by
  have hlt : i < calls.length := (List.getElem?_eq_some_iff.mp hc).1
  rw [List.getElem?_set, if_pos rfl, if_pos hlt]

theorem set_other {calls : List (Call N)} {k : Nat} (hk : k ≠ i) : (calls.set i c')[k]? = calls[k]? := by
  rw [List.getElem?_set, if_neg hk.symm]

/-- A change of one call that goes on from waiting to done keeps what is behind a call. -/
theorem behind_set {calls : List (Call N)} (hc : calls[i]? = some c) (hname : c'.name = c.name) (hphase : c.phase = .done → c'.phase = .done)
    {k : Nat} (h : Behind calls k n) : Behind (calls.set i c') k n := by
  intro j d hjk hd hdn
  rcases set_cases hd with ⟨rfl, rfl⟩ | ⟨-, hd⟩
  · exact hphase (h j c hjk hc (hname ▸ hdn))
  · exact h j d hjk hd hdn

/-- The parts of the chain that a change of one call keeps. -/
theorem chained_set (c' : Call N) (h : Chained s) (hc : s.calls[i]? = some c) (hname : c'.name = c.name) (hprev : c'.prev = c.prev)
    (hphase : c.phase = .done → c'.phase = .done) (hbehind : Behind s.calls i c.name) (hsettled : c'.settled = true → c'.phase = .done)
    {tails : N → Option Nat}
    (htail : ∀ n k, tails n = some k → s.tails n = some k ∧ (k = i → c'.phase ≠ .done))
    (hfree : ∀ n, tails n = none → s.tails n = none ∨ (s.tails n = some i ∧ c.name = n ∧ c'.phase = .done)) :
    Chained ⟨tails, s.calls.set i c'⟩ where
  prev k d j hd hj := by
    have hget : ∀ (m : Nat) (x : Call N), (s.calls.set i c')[m]? = some x → ∃ y : Call N, s.calls[m]? = some y ∧ y.name = x.name ∧ y.prev = x.prev := by
      intro m x hx
      rcases set_cases hx with ⟨rfl, rfl⟩ | ⟨-, hx⟩
      · exact ⟨c, hc, hname.symm, hprev.symm⟩
      · exact ⟨x, hx, rfl, rfl⟩
    obtain ⟨y, hy, hyn, hyp⟩ := hget k d hd
    obtain ⟨hjk, ⟨x, hx, hxn⟩, hbetween⟩ := h.prev k y j hy (hyp.trans hj)
    refine ⟨hjk, ?_, fun m x hjm hmk hx => ?_⟩
    · by_cases hji : j = i
      · refine ⟨c', by rw [hji]; exact set_self hc, ?_⟩
        rw [hji, hc] at hx
        rw [hname, Option.some.inj hx, hxn, hyn]
      · exact ⟨x, by rw [set_other hji]; exact hx, hxn.trans hyn⟩
    · obtain ⟨z, hz, hzn, -⟩ := hget m x hx
      rw [← hzn, ← hyn]
      exact hbetween m z hjm hmk hz
  first k d hd hnone := by
    rcases set_cases hd with ⟨rfl, rfl⟩ | ⟨-, hd⟩
    · rw [hname]
      exact behind_set hc hname hphase hbehind
    · exact behind_set hc hname hphase (h.first k d hd hnone)
  settled k d hd hset := by
    rcases set_cases hd with ⟨rfl, rfl⟩ | ⟨-, hd⟩
    · exact hsettled hset
    · exact h.settled k d hd hset
  begun k d hd hrun := by
    rcases set_cases hd with ⟨rfl, rfl⟩ | ⟨-, hd⟩
    · rw [hname]
      exact behind_set hc hname hphase hbehind
    · exact behind_set hc hname hphase (h.begun k d hd hrun)
  tail n k hk := by
    obtain ⟨hold, hnot⟩ := htail n k hk
    obtain ⟨⟨d, hd, hdn, hdp⟩, hlast⟩ := h.tail n k hold
    constructor
    · by_cases hki : k = i
      · refine ⟨c', by rw [hki]; exact set_self hc, ?_, hnot hki⟩
        rw [hki, hc] at hd
        rw [hname, Option.some.inj hd, hdn]
      · exact ⟨d, by rw [set_other hki]; exact hd, hdn, hdp⟩
    · intro j x hkj hx
      rcases set_cases hx with ⟨rfl, rfl⟩ | ⟨-, hx⟩
      · rw [hname]
        exact hlast j c hkj hc
      · exact hlast j x hkj hx
  free n hn k d hd hdn := by
    rcases hfree n hn with hold | ⟨hold, hcn, hdone⟩
    · rcases set_cases hd with ⟨rfl, rfl⟩ | ⟨-, hd⟩
      · exact hphase (h.free n hold k c hc (hname ▸ hdn))
      · exact h.free n hold k d hd hdn
    · rcases set_cases hd with ⟨rfl, rfl⟩ | ⟨hki, hd⟩
      · exact hdone
      · rcases Nat.lt_or_gt_of_ne hki with hlt | hgt
        · exact hbehind k d hlt hd (hdn.trans hcn.symm)
        · exact absurd hdn ((h.tail n i hold).2 k d hgt hd)

variable [DecidableEq N]

theorem step_cases (h : Step s a t) :
    (∃ n, a = .call n ∧ t = ⟨Function.update s.tails n (some s.calls.length), s.calls ++ [⟨n, s.tails n, .waiting, false⟩]⟩) ∨
    (∃ i c, a = .enter i ∧ s.calls[i]? = some c ∧ c.phase = .waiting ∧ isSettled s.calls c.prev = true ∧
      t = ⟨s.tails, s.calls.set i { c with phase := .running }⟩) ∨
    (∃ i c, a = .finish i ∧ s.calls[i]? = some c ∧ c.phase = .running ∧
      t = ⟨if s.tails c.name = some i then Function.update s.tails c.name none else s.tails, s.calls.set i { c with phase := .done }⟩) ∨
    ∃ i c, a = .settle i ∧ s.calls[i]? = some c ∧ c.phase = .done ∧ c.settled = false ∧ isSettled s.calls c.prev = true ∧
      t = ⟨s.tails, s.calls.set i { c with settled := true }⟩ := by
  cases a with
  | call n => exact .inl ⟨n, rfl, (Option.some.inj h).symm⟩
  | enter i =>
    simp only [Step, step] at h
    split at h
    · next c hc =>
      split_ifs at h with hg
      exact .inr (.inl ⟨i, c, rfl, hc, hg.1, hg.2, (Option.some.inj h).symm⟩)
    · cases h
  | finish i =>
    simp only [Step, step] at h
    split at h
    · next c hc =>
      by_cases hg : c.phase = .running
      · rw [if_pos hg] at h
        exact .inr (.inr (.inl ⟨i, c, rfl, hc, hg, (Option.some.inj h).symm⟩))
      · rw [if_neg hg] at h
        cases h
    · cases h
  | settle i =>
    simp only [Step, step] at h
    split at h
    · next c hc =>
      split_ifs at h with hg
      exact .inr (.inr (.inr ⟨i, c, rfl, hc, hg.1, by simpa using hg.2.1, hg.2.2, (Option.some.inj h).symm⟩))
    · cases h

theorem chained_step (h : Chained s) (hs : Step s a t) : Chained t := by
  rcases step_cases hs with ⟨n, rfl, rfl⟩ | ⟨i, c, rfl, hc, hwait, hprev, rfl⟩ | ⟨i, c, rfl, hc, hrun, rfl⟩ | ⟨i, c, rfl, hc, hdone, hunset, hprev, rfl⟩
  · -- a new call is the last one, of whatever name
    have hget : ∀ (k : Nat) (d : Call N), (s.calls ++ [⟨n, s.tails n, .waiting, false⟩])[k]? = some d →
        s.calls[k]? = some d ∨ (k = s.calls.length ∧ d = ⟨n, s.tails n, .waiting, false⟩) := by
      intro k d hd
      rw [List.getElem?_append] at hd
      split_ifs at hd with hk
      · exact .inl hd
      · obtain ⟨hlt, he⟩ := List.getElem?_eq_some_iff.mp hd
        rw [List.length_singleton] at hlt
        refine .inr ⟨by omega, ?_⟩
        simpa using he.symm
    have hlt : ∀ {k : Nat} {d : Call N}, s.calls[k]? = some d → k < s.calls.length := fun hd => (List.getElem?_eq_some_iff.mp hd).1
    have hold : ∀ {k : Nat} {d : Call N}, s.calls[k]? = some d → (s.calls ++ [⟨n, s.tails n, .waiting, false⟩])[k]? = some d := by
      intro k d hd
      rw [List.getElem?_append_left (hlt hd)]
      exact hd
    have hbehind : ∀ {k : Nat} {m : N}, k ≤ s.calls.length → Behind s.calls k m → Behind (s.calls ++ [⟨n, s.tails n, .waiting, false⟩]) k m := by
      intro k m hk hb j d hjk hd hdm
      rcases hget j d hd with hd | ⟨rfl, -⟩
      · exact hb j d hjk hd hdm
      · omega
    refine ⟨fun k d j hd hj => ?_, fun k d hd hnone => ?_, fun k d hd hset => ?_, fun k d hd hrun => ?_, fun m k hk => ?_, fun m hm k d hd hdm => ?_⟩
    · rcases hget k d hd with hd | ⟨rfl, rfl⟩
      · obtain ⟨hjk, ⟨x, hx, hxn⟩, hbetween⟩ := h.prev k d j hd hj
        refine ⟨hjk, ⟨x, hold hx, hxn⟩, fun m x hjm hmk hx => ?_⟩
        rcases hget m x hx with hx | ⟨rfl, -⟩
        · exact hbetween m x hjm hmk hx
        · have := hlt hd
          omega
      · obtain ⟨⟨x, hx, hxn, -⟩, hlast⟩ := h.tail n j hj
        refine ⟨hlt hx, ⟨x, hold hx, hxn⟩, fun m x hjm hmk hx => ?_⟩
        rcases hget m x hx with hx | ⟨rfl, -⟩
        · exact hlast m x hjm hx
        · omega
    · rcases hget k d hd with hd | ⟨rfl, rfl⟩
      · exact hbehind (hlt hd).le (h.first k d hd hnone)
      · exact hbehind le_rfl fun j x _ hx hxn => h.free n hnone j x hx hxn
    · rcases hget k d hd with hd | ⟨rfl, rfl⟩
      · exact h.settled k d hd hset
      · cases hset
    · rcases hget k d hd with hd | ⟨rfl, rfl⟩
      · exact hbehind (hlt hd).le (h.begun k d hd hrun)
      · exact absurd rfl hrun
    · dsimp only at hk
      by_cases hmn : m = n
      · rw [hmn, Function.update_self] at hk
        cases hk
        refine ⟨⟨_, List.getElem?_concat_length, hmn.symm, nofun⟩, fun j x hj hx => ?_⟩
        rcases hget j x hx with hx | ⟨rfl, -⟩
        · have := hlt hx
          omega
        · omega
      · rw [Function.update_of_ne hmn] at hk
        obtain ⟨⟨x, hx, hxn, hxp⟩, hlast⟩ := h.tail m k hk
        refine ⟨⟨x, hold hx, hxn, hxp⟩, fun j y hj hy => ?_⟩
        rcases hget j y hy with hy | ⟨rfl, rfl⟩
        · exact hlast j y hj hy
        · exact Ne.symm hmn
    · dsimp only at hm
      by_cases hmn : m = n
      · rw [hmn, Function.update_self] at hm
        cases hm
      · rw [Function.update_of_ne hmn] at hm
        rcases hget k d hd with hd | ⟨rfl, rfl⟩
        · exact h.free m hm k d hd hdm
        · exact absurd hdm.symm hmn
  · exact chained_set { c with phase := .running } h hc rfl rfl (fun hd => by rw [hwait] at hd; cases hd) (h.behind hc hprev)
      (fun hset => by rw [h.settled i c hc hset] at hwait; cases hwait) (fun n k hk => ⟨hk, fun _ => nofun⟩) fun n hn => .inl hn
  · refine chained_set { c with phase := .done } h hc rfl rfl (fun _ => rfl) (h.begun i c hc (by rw [hrun]; decide)) (fun _ => rfl) (fun n k hk => ?_) fun n hn => ?_
    · split_ifs at hk with htail
      · by_cases hcn : n = c.name
        · rw [hcn, Function.update_self] at hk
          cases hk
        · rw [Function.update_of_ne hcn] at hk
          refine ⟨hk, fun hki => ?_⟩
          obtain ⟨⟨x, hx, hxn, -⟩, -⟩ := h.tail n k hk
          rw [hki, hc] at hx
          exact absurd ((congrArg (·.name) (Option.some.inj hx)).trans hxn).symm hcn
      · refine ⟨hk, fun hki => ?_⟩
        obtain ⟨⟨x, hx, hxn, -⟩, -⟩ := h.tail n k hk
        rw [hki, hc] at hx
        have hname : c.name = n := (congrArg (·.name) (Option.some.inj hx)).trans hxn
        exact absurd (by rw [hname, hk, hki]) htail
    · split_ifs at hn with htail
      · by_cases hcn : n = c.name
        · exact .inr ⟨hcn ▸ htail, hcn.symm, rfl⟩
        · rw [Function.update_of_ne hcn] at hn
          exact .inl hn
      · exact .inl hn
  · exact chained_set { c with settled := true } h hc rfl rfl (fun _ => hdone) (h.begun i c hc (by rw [hdone]; decide)) (fun _ => hdone)
      (fun n k hk => ⟨hk, fun hki => by
        obtain ⟨⟨x, hx, -, hxp⟩, -⟩ := h.tail n k hk
        rw [hki, hc] at hx
        rw [← Option.some.inj hx] at hxp
        exact hxp⟩) fun n hn => .inl hn

/-! ## Runs -/

/-- Where a call waits and none of its name runs, some promise of that name is to be resolved, or a call to go on. -/
theorem Chained.progress (h : Chained s) (hc : s.calls[i]? = some c) (hwait : c.phase = .waiting)
    (hidle : ∀ (j : Nat) (d : Call N), s.calls[j]? = some d → d.name = c.name → d.phase ≠ .running) :
    ∃ (j : Nat) (d : Call N), s.calls[j]? = some d ∧ d.name = c.name ∧ ((step s (.enter j)).isSome ∨ (step s (.settle j)).isSome) := by
  classical
  have hex : ∃ k : Nat, ∃ d : Call N, s.calls[k]? = some d ∧ d.name = c.name ∧ d.phase = .waiting := ⟨i, c, hc, rfl, hwait⟩
  obtain ⟨d, hd, hdn, hdw⟩ := Nat.find_spec hex
  have hearlier : ∀ (j : Nat) (x : Call N), j < Nat.find hex → s.calls[j]? = some x → x.name = c.name → x.phase = .done := by
    intro j x hj hx hxn
    have hnot := fun hw => Nat.find_min hex hj ⟨x, hx, hxn, hw⟩
    have hrun := hidle j x hx hxn
    cases hp : x.phase with
    | waiting => exact absurd hp hnot
    | running => exact absurd hp hrun
    | done => rfl
  by_cases hset : isSettled s.calls d.prev = true
  · refine ⟨_, d, hd, hdn, .inl ?_⟩
    simp only [step, hd]
    rw [if_pos ⟨hdw, hset⟩]
    rfl
  · -- the first call that is not settled can settle
    obtain ⟨j, hj⟩ : ∃ j, d.prev = some j := by
      cases hp : d.prev with
      | none =>
        rw [hp] at hset
        exact absurd rfl hset
      | some j => exact ⟨j, rfl⟩
    obtain ⟨hjlt, ⟨x, hx, hxn⟩, -⟩ := h.prev _ d j hd hj
    have hunset : ∃ k : Nat, ∃ y : Call N, s.calls[k]? = some y ∧ y.name = c.name ∧ y.settled = false := by
      refine ⟨j, x, hx, hxn.trans hdn, ?_⟩
      rw [hj] at hset
      simpa [isSettled, hx] using hset
    obtain ⟨y, hy, hyn, hys⟩ := Nat.find_spec hunset
    have hle : Nat.find hunset ≤ j := by
      refine Nat.find_min' hunset ⟨x, hx, hxn.trans hdn, ?_⟩
      rw [hj] at hset
      simpa [isSettled, hx] using hset
    have hdone := hearlier _ y (lt_of_le_of_lt hle hjlt) hy hyn
    have hprev : isSettled s.calls y.prev = true := by
      cases hp : y.prev with
      | none => rfl
      | some m =>
        obtain ⟨hm, ⟨z, hz, hzn⟩, -⟩ := h.prev _ y m hy hp
        have hzs : z.settled = true := by
          by_contra hno
          exact Nat.find_min hunset hm ⟨z, hz, hzn.trans hyn, by simpa using hno⟩
        simp [isSettled, hz, hzs]
    refine ⟨_, y, hy, hyn, .inr ?_⟩
    simp only [step, hy]
    rw [if_pos ⟨hdone, by rw [hys]; rfl, hprev⟩]
    rfl

/-- Whether a call is still to be settled, and to be entered. -/
def pending (c : Call N) : Nat := (if c.settled then 0 else 1) + if c.phase = .waiting then 1 else 0

def left (s : State N) : Nat := (s.calls.map pending).sum

omit [DecidableEq N] in
theorem sum_set {calls : List (Call N)} (hc : calls[i]? = some c) :
    ((calls.set i c').map pending).sum + pending c = (calls.map pending).sum + pending c' := by
  induction calls generalizing i with
  | nil => simp at hc
  | cons d calls ih =>
    cases i with
    | zero =>
      have hd : d = c := by simpa using hc
      rw [List.set_cons_zero, List.map_cons, List.map_cons, List.sum_cons, List.sum_cons, hd]
      omega
    | succ i =>
      have hrest := ih (i := i) (by simpa using hc)
      rw [List.set_cons_succ, List.map_cons, List.map_cons, List.sum_cons, List.sum_cons]
      omega

omit [DecidableEq N] in
theorem left_set (c' : Call N) (hc : s.calls[i]? = some c) (hlt : pending c' < pending c) : left ⟨s.tails, s.calls.set i c'⟩ < left s := by
  have hsum : ((s.calls.set i c').map pending).sum + pending c = _ := sum_set hc
  unfold left
  dsimp only
  omega

theorem left_step (hs : Step s a t) (ha : (∃ i, a = .enter i) ∨ ∃ i, a = .settle i) : left t < left s := by
  rcases step_cases hs with ⟨n, rfl, -⟩ | ⟨i, c, rfl, hc, hwait, -, rfl⟩ | ⟨i, c, rfl, -, -, -⟩ | ⟨i, c, rfl, hc, hdone, hunset, -, rfl⟩
  · rcases ha with ⟨i, hi⟩ | ⟨i, hi⟩ <;> cases hi
  · exact left_set _ hc (by simp [pending, hwait])
  · rcases ha with ⟨i, hi⟩ | ⟨i, hi⟩ <;> cases hi
  · exact left_set _ hc (by simp [pending, hunset])

/-- **One call of a name runs at a time, in the order of the calls, and a call that waits gets its turn.** -/
theorem one_at_a_time {acts : List (Act N)} (h : Run Step (init : State N) acts s) :
    (∀ (i j : Nat) (c d : Call N), i < j → s.calls[i]? = some c → s.calls[j]? = some d → c.name = d.name → d.phase ≠ .waiting → c.phase = .done) ∧
    (∀ (i : Nat) (c : Call N), s.calls[i]? = some c → c.phase = .waiting → (∀ (j : Nat) (d : Call N), s.calls[j]? = some d → d.name = c.name → d.phase ≠ .running) →
      ∃ (j : Nat) (d : Call N), s.calls[j]? = some d ∧ d.name = c.name ∧ ((step s (.enter j)).isSome ∨ (step s (.settle j)).isSome)) ∧
    (∀ a t, Step s a t → ((∃ i, a = .enter i) ∨ ∃ i, a = .settle i) → left t < left s) ∧
    ∀ n, s.tails n = none ↔ ∀ (i : Nat) (c : Call N), s.calls[i]? = some c → c.name = n → c.phase = .done := by
  have hch : Chained s := h.invariant (fun _ _ _ => chained_step) chained_init
  refine ⟨fun i j c d hij hc hd hcd hrun => hch.begun j d hd hrun i c hij hc hcd, fun i c => hch.progress, fun a t => left_step, fun n => ?_⟩
  refine ⟨hch.free n, fun hall => ?_⟩
  cases hn : s.tails n with
  | none => rfl
  | some i =>
    obtain ⟨⟨c, hc, hcn, hcp⟩, -⟩ := hch.tail n i hn
    exact absurd (hall i c hc hcn) hcp

end

/-- The second of two calls runs once the first is through. -/
theorem one_at_a_time_two : ∃ s : State Bool, Run Step init [.call true, .call true, .enter 0, .finish 0, .settle 0, .enter 1] s ∧
    (s.calls[1]?).map (·.phase) = some .running ∧ ∀ c, s.calls[0]? = some c → c.phase = .done := by
  have hrun : Run Step (init : State Bool) [.call true, .call true, .enter 0, .finish 0, .settle 0, .enter 1] _ := Run.of_exec rfl
  exact ⟨_, hrun, rfl, fun c hc => (one_at_a_time hrun).1 0 1 c _ (by decide) hc rfl (by cases hc; rfl) (by decide)⟩

end Nostrautica.ExclusiveLock
