/-
The usage budgets of `coordinator/src/coordinator.ts`: `checkBudget`, `checkDaemonBudget`, what
`assertSpendAllowed` makes of them once retention and billing let a job through, and
`daemonCeilingSweep`. Of the acts of all jobs, in any order, each runs from one await to the next.

The calls of an event and of an attendee stay within their limits, and so do those of the daemon in
each `daemonWindowHours` hours by the clock, which does not go back (`calls_capped`). An event that is
over stays over until it is purged, and the daemon is under again once its window has moved on
(`over_until`). An organizer is told of it once, until work is resumed (`told_once`).
-/
import Nostrautica.Store.Usage

namespace Nostrautica.Budget

open Js Sql Usage

/-- `CoordinatorDeps["budgets"]`; a limit of 0 is none. -/
structure Budgets where
  perAttendeeBytes : Nat := 0
  perEventBytes : Nat := 0
  perAttendeeDurationSec : Nat := 0
  perEventDurationSec : Nat := 0
  perAttendeeCalls : Nat := 0
  perEventCalls : Nat := 0
  daemonBytes : Nat := 0
  daemonDurationSec : Nat := 0
  daemonCalls : Nat := 0
  daemonWindowHours : Int := 24
  /-- The schema of `daemon_window_hours`. -/
  window : 0 < daemonWindowHours ∧ daemonWindowHours ≤ 24 * 7

/-- `getUsage(coordinate, pubkey)`. -/
def getUsage (s : Store) (coordinate pubkey : JsString) : Amounts :=
  match s.usage.get? (coordinate, pubkey) with
  | some row => row.amounts
  | none => {}

/-- `getEventUsage(coordinate)`. -/
def getEventUsage (s : Store) (coordinate : JsString) : Amounts :=
  let ofEvent (k : JsString × JsString) : Bool := k.1 = coordinate
  { bytes := s.usage.sum ofEvent (·.amounts.bytes)
    durationSec := s.usage.sum ofEvent (·.amounts.durationSec)
    calls := s.usage.sum ofEvent (·.amounts.calls) }

/-- `DELETE FROM usage WHERE coordinate = ?`, of `purgeEvent`. -/
def purge (s : Store) (coordinate : JsString) : Store := { s with usage := s.usage.delete fun k => k.1 = coordinate }

/-- `over(limit, val)`. -/
def isOver (limit : Nat) (val : ℚ≥0) : Bool := 0 < limit && decide ((limit : ℚ≥0) ≤ val)

/-- Whose ceiling a job is parked for. -/
inductive Scope
  | event | attendee | daemon
  deriving DecidableEq

/-- What the text of a reason names. -/
structure Over where
  scope : Scope
  component : Component
  val : ℚ≥0
  limit : Nat

/-- `checkBudget(coordinate, pubkey)`; no pubkey is the empty one. -/
def checkBudget (b : Budgets) (s : Store) (coordinate pubkey : JsString) : Option Over :=
  let ev := getEventUsage s coordinate
  if isOver b.perEventBytes ev.bytes then some ⟨.event, .bytes, ev.bytes, b.perEventBytes⟩
  else if isOver b.perEventDurationSec ev.durationSec then some ⟨.event, .durationSec, ev.durationSec, b.perEventDurationSec⟩
  else if isOver b.perEventCalls ev.calls then some ⟨.event, .calls, ev.calls, b.perEventCalls⟩
  else if pubkey ≠ [] then
    let attendee := getUsage s coordinate pubkey
    if isOver b.perAttendeeBytes attendee.bytes then some ⟨.attendee, .bytes, attendee.bytes, b.perAttendeeBytes⟩
    else if isOver b.perAttendeeDurationSec attendee.durationSec then
      some ⟨.attendee, .durationSec, attendee.durationSec, b.perAttendeeDurationSec⟩
    else if isOver b.perAttendeeCalls attendee.calls then some ⟨.attendee, .calls, attendee.calls, b.perAttendeeCalls⟩
    else none
  else none

/-- `checkDaemonBudget()`. -/
def checkDaemonBudget (b : Budgets) (s : Store) (now : Int) : Option Over :=
  if b.daemonBytes = 0 ∧ b.daemonDurationSec = 0 ∧ b.daemonCalls = 0 then none
  else
    let d := getDaemonUsage s now b.daemonWindowHours
    if isOver b.daemonBytes d.bytes then some ⟨.daemon, .bytes, d.bytes, b.daemonBytes⟩
    else if isOver b.daemonDurationSec d.durationSec then some ⟨.daemon, .durationSec, d.durationSec, b.daemonDurationSec⟩
    else if isOver b.daemonCalls d.calls then some ⟨.daemon, .calls, d.calls, b.daemonCalls⟩
    else none

structure State where
  now : Int
  store : Store := {}
  /-- `this.budgetNotified`. -/
  notified : List JsString := []
  /-- The events whose status `budget_exceeded` was published, for the record. -/
  told : List JsString := []
  /-- The calls of `addUsage`, for the record. -/
  spends : List Spend := []

/-- How `assertSpendAllowed` ends. -/
inductive Outcome
  | allowed
  /-- `throw new ParkJobError(...)`. -/
  | parked (reason : Over)

def State.add (s : State) (x : Spend) : State :=
  { s with store := addUsage s.store x.coordinate x.pubkey x.delta x.now, spends := s.spends ++ [x] }

/-- `budgetNotified` and `emitBudgetStatus`; `live` is that `this.events` has the event. -/
def State.notify (s : State) (coordinate : JsString) (live : Bool) : State :=
  if coordinate ∈ s.notified then s
  else { s with notified := coordinate :: s.notified, told := if live then s.told ++ [coordinate] else s.told }

/-- `assertSpendAllowed(coordinate, pubkey)` from the ceiling of the daemon on. -/
def assertSpendAllowed (b : Budgets) (s : State) (coordinate pubkey : JsString) (live : Bool) : Outcome × State :=
  match checkDaemonBudget b s.store s.now with
  | some daemonOver => (.parked daemonOver, s.notify coordinate live)
  | none =>
    match checkBudget b s.store coordinate pubkey with
    | some reason => (.parked reason, s.notify coordinate live)
    | none => (.allowed, s.add ⟨coordinate, pubkey, { calls := 1 }, s.now⟩)

inductive Act
  | spend (coordinate pubkey : JsString) (live : Bool)
  /-- `onMediaUsage` and `onUsage`. -/
  | media (coordinate pubkey : JsString) (bytes durationSec : ℚ≥0)
  /-- `resumeParkedWork`. -/
  | resume (coordinate : JsString)
  /-- `daemonCeilingSweep`, with the jobs it resumes, over the events that are live. -/
  | sweep (resumed : Nat) (events : List JsString)
  | purge (coordinate : JsString)
  | restart
  | tick (ms : Nat)

def step (b : Budgets) (s : State) : Act → State
  | .spend coordinate pubkey live => (assertSpendAllowed b s coordinate pubkey live).2
  | .media coordinate pubkey bytes durationSec => s.add ⟨coordinate, pubkey, { bytes, durationSec }, s.now⟩
  | .resume coordinate => { s with notified := s.notified.filter (· ≠ coordinate) }
  | .sweep resumed events =>
    if (checkDaemonBudget b s.store s.now).isSome ∨ resumed = 0 then s
    else { s with notified := s.notified.filter (· ∉ events) }
  | .purge coordinate => { s with store := purge s.store coordinate }
  | .restart => { s with notified := [] }
  | .tick ms => { s with now := s.now + ms }

def run (b : Budgets) (s : State) (acts : List Act) : State := acts.foldl (step b) s

variable {b : Budgets} {s s' : State} {t : Store} {act : Act} {a a' p p' : JsString} {limit : Nat} {val val' : ℚ≥0} {c : Component}

theorem run_concat (b : Budgets) (s : State) (acts : List Act) (act : Act) : run b s (acts ++ [act]) = step b (run b s acts) act := by
  simp [run, List.foldl_append]

/-! ## Amounts -/

theorem get_getEventUsage : (getEventUsage t a).get c = t.usage.sum (fun k => k.1 = a) (·.amounts.get c) := by
  cases c <;> rfl

theorem getEventUsage_addUsage (delta : Amounts) (now : Int) :
    (getEventUsage (addUsage t a p delta now) a').get c = (getEventUsage t a').get c + if a = a' then delta.get c else 0 := by
  obtain ⟨hnew, hold⟩ := get_accumulate delta now c
  have husage : (addUsage t a p delta now).usage = t.usage.upsert (a, p) (accumulate delta now) := rfl
  rw [get_getEventUsage, get_getEventUsage, husage, Keyed.sum_upsert (g := fun row : Row => row.amounts.get c) hnew hold]
  simp only [decide_eq_true_eq]

theorem getUsage_addUsage (delta : Amounts) (now : Int) :
    (getUsage (addUsage t a p delta now) a' p').get c =
      (getUsage t a' p').get c + if (a, p) = (a', p') then delta.get c else 0 := by
  obtain ⟨hnew, hold⟩ := get_accumulate delta now c
  have husage : (addUsage t a p delta now).usage = t.usage.upsert (a, p) (accumulate delta now) := rfl
  unfold getUsage
  rw [husage, Keyed.get?_upsert]
  by_cases hk : (a, p) = (a', p')
  · rw [if_pos hk, if_pos hk, ← hk]
    cases hrow : t.usage.get? (a, p) with
    | none =>
      have hzero : ({} : Amounts).get c = 0 := by cases c <;> rfl
      simp only [hnew, hzero, zero_add]
    | some row => simp only [hold]
  · rw [if_neg hk, if_neg hk, add_zero]

theorem getEventUsage_purge : getEventUsage (purge t a) a = {} := by
  have hzero : ∀ g : Row → ℚ≥0, (t.usage.delete fun k => decide (k.1 = a)).sum (fun k => decide (k.1 = a)) g = 0 := fun g =>
    Keyed.sum_deleted fun _ h => h
  simp only [getEventUsage, purge, hzero]

theorem getEventUsage_purge_of_ne (h : a ≠ a') : getEventUsage (purge t a) a' = getEventUsage t a' := by
  have hsame : ∀ g : Row → ℚ≥0, (t.usage.delete fun k => decide (k.1 = a)).sum (fun k => decide (k.1 = a')) g =
      t.usage.sum (fun k => decide (k.1 = a')) g := fun g => Keyed.sum_delete fun k hk => by
    rw [decide_eq_true_eq] at hk
    rw [hk]
    exact decide_eq_false (Ne.symm h)
  simp only [getEventUsage, purge, hsame]

theorem getUsage_purge : getUsage (purge t a) a' p = if a' = a then {} else getUsage t a' p := by
  unfold getUsage purge
  rw [Keyed.get?_delete]
  by_cases h : a' = a
  · simp [h]
  · simp [h]

/-! ## Limits -/

/-- A whole number, within the limit where there is one. -/
def Capped (limit : Nat) (val : ℚ≥0) : Prop := ∃ n : Nat, val = n ∧ (limit = 0 ∨ n ≤ limit)

theorem Capped.zero : Capped limit 0 := ⟨0, Nat.cast_zero.symm, .inr (Nat.zero_le _)⟩

theorem isOver_eq_false : isOver limit val = false ↔ limit = 0 ∨ val < limit := by
  simp only [isOver, Bool.and_eq_false_iff, decide_eq_false_iff_not, not_le, not_lt, nonpos_iff_eq_zero]

theorem isOver_mono (h : val ≤ val') (hover : isOver limit val = true) : isOver limit val' = true := by
  simp only [isOver, Bool.and_eq_true, decide_eq_true_eq] at hover ⊢
  exact ⟨hover.1, hover.2.trans h⟩

/-- A limit that is not reached has room for one more. -/
theorem Capped.succ (h : Capped limit val) (hover : isOver limit val = false) : Capped limit (val + 1) := by
  obtain ⟨n, rfl, -⟩ := h
  refine ⟨n + 1, (Nat.cast_succ n).symm, (isOver_eq_false.mp hover).imp_right fun hlt => ?_⟩
  exact Nat.succ_le_of_lt (Nat.cast_lt.mp hlt)

theorem Capped.add (h : Capped limit val) {limit' : Nat} (h' : Capped limit' val') (hzero : limit = 0 ↔ limit' = 0) :
    Capped (limit + limit') (val + val') := by
  obtain ⟨n, rfl, hn⟩ := h
  obtain ⟨m, rfl, hm⟩ := h'
  exact ⟨n + m, (Nat.cast_add n m).symm, by omega⟩

/-! ## What is checked -/

theorem checkBudget_isSome : (checkBudget b t a p).isSome = true ↔
    isOver b.perEventBytes (getEventUsage t a).bytes = true ∨ isOver b.perEventDurationSec (getEventUsage t a).durationSec = true ∨
    isOver b.perEventCalls (getEventUsage t a).calls = true ∨ p ≠ [] ∧ (isOver b.perAttendeeBytes (getUsage t a p).bytes = true ∨
      isOver b.perAttendeeDurationSec (getUsage t a p).durationSec = true ∨ isOver b.perAttendeeCalls (getUsage t a p).calls = true) := by
  unfold checkBudget
  dsimp only
  split_ifs <;> simp_all

theorem checkDaemonBudget_eq_none {now : Int} : checkDaemonBudget b t now = none ↔
    isOver b.daemonBytes (getDaemonUsage t now b.daemonWindowHours).bytes = false ∧
    isOver b.daemonDurationSec (getDaemonUsage t now b.daemonWindowHours).durationSec = false ∧
    isOver b.daemonCalls (getDaemonUsage t now b.daemonWindowHours).calls = false := by
  unfold checkDaemonBudget
  split_ifs with hnone
  · simp [isOver_eq_false, hnone]
  · dsimp only
    split_ifs <;> simp_all

/-! ## What an act does -/

/-- What an act does to the usage, and to the record of it. -/
inductive Does (b : Budgets) (s : State) : Act → State → Prop
  | idle {act : Act} {s' : State} (store : s'.store = s.store) (spends : s'.spends = s.spends) (now : s.now ≤ s'.now) : Does b s act s'
  | media (a p : JsString) (bytes durationSec : ℚ≥0) :
    Does b s (.media a p bytes durationSec) (s.add ⟨a, p, { bytes, durationSec }, s.now⟩)
  | passed {a p : JsString} {live : Bool} (daemon : checkDaemonBudget b s.store s.now = none) (budget : checkBudget b s.store a p = none) :
    Does b s (.spend a p live) (s.add ⟨a, p, { calls := 1 }, s.now⟩)
  | purged (a : JsString) : Does b s (.purge a) { s with store := purge s.store a }

theorem notify_fields (live : Bool) : (s.notify a live).store = s.store ∧ (s.notify a live).spends = s.spends ∧ (s.notify a live).now = s.now := by
  unfold State.notify
  split_ifs <;> exact ⟨rfl, rfl, rfl⟩

theorem step_does (b : Budgets) (s : State) (act : Act) : Does b s act (step b s act) := by
  have told : ∀ {act : Act} (a : JsString) (live : Bool), Does b s act (s.notify a live) := fun a live =>
    .idle (notify_fields live).1 (notify_fields live).2.1 (notify_fields live).2.2.ge
  cases act with
  | spend a p live =>
    cases hdaemon : checkDaemonBudget b s.store s.now with
    | some o =>
      simp only [step, assertSpendAllowed, hdaemon]
      exact told a live
    | none =>
      cases hbudget : checkBudget b s.store a p with
      | some o =>
        simp only [step, assertSpendAllowed, hdaemon, hbudget]
        exact told a live
      | none =>
        simp only [step, assertSpendAllowed, hdaemon, hbudget]
        exact .passed hdaemon hbudget
  | media a p bytes durationSec => exact .media a p bytes durationSec
  | sweep resumed events =>
    simp only [step]
    split_ifs
    · exact .idle rfl rfl le_rfl
    · exact .idle rfl rfl le_rfl
  | resume a => exact .idle rfl rfl le_rfl
  | purge a => exact .purged a
  | restart => exact .idle rfl rfl le_rfl
  | tick ms => exact .idle rfl rfl (Int.le_add_of_nonneg_right (Int.natCast_nonneg ms))

/-! ## The record -/

/-- The hours by the clock that end with `h`. -/
def inHours (h w : Int) (x : Spend) : Bool := h - w < hourOf x.now && hourOf x.now ≤ h

/-- What the record says of the store, and what the calls of the daemon keep to. -/
structure Recorded (b : Budgets) (s : State) : Prop where
  sorted : s.spends.Pairwise (·.now ≤ ·.now)
  past : ∀ x ∈ s.spends, x.now ≤ s.now
  daemon : s.store.daemonUsage = (spent s.spends).daemonUsage
  hours : ∀ h, Capped b.daemonCalls (total s.spends (inHours h b.daemonWindowHours) .calls)

theorem Recorded.start (b : Budgets) (now : Int) : Recorded b { now } where
  sorted := List.Pairwise.nil
  past _ hx := absurd hx List.not_mem_nil
  daemon := rfl
  hours _ := Capped.zero

/-- What the check of the daemon sees: the hours of its window. -/
theorem Recorded.seen (h : Recorded b s) {now : Int} (hnow : s.now ≤ now) (c : Component) :
    (getDaemonUsage s.store now b.daemonWindowHours).get c =
      total s.spends (fun x => hourOf now - b.daemonWindowHours + 1 ≤ hourOf x.now) c := by
  have hsame : getDaemonUsage s.store now b.daemonWindowHours = getDaemonUsage (spent s.spends) now b.daemonWindowHours := by
    simp only [getDaemonUsage, h.daemon]
  rw [hsame]
  exact getDaemonUsage_eq h.sorted (fun x hx => (h.past x hx).trans hnow) b.window.2 c

theorem spent_concat (l : List Spend) (x : Spend) : spent (l ++ [x]) = addUsage (spent l) x.coordinate x.pubkey x.delta x.now := by
  simp [spent, List.foldl_append]

theorem Recorded.add (h : Recorded b s) {x : Spend} (hnow : x.now = s.now)
    (hcalls : x.delta.calls = 0 ∨ x.delta.calls = 1 ∧ isOver b.daemonCalls (getDaemonUsage s.store s.now b.daemonWindowHours).calls = false) :
    Recorded b (s.add x) where
  sorted := by
    refine List.pairwise_append.mpr ⟨h.sorted, List.pairwise_singleton _ _, fun y hy z hz => ?_⟩
    rw [List.mem_singleton.mp hz, hnow]
    exact h.past y hy
  past y hy := by
    rcases List.mem_append.mp hy with hy | hy
    · exact h.past y hy
    · rw [List.mem_singleton.mp hy]
      exact hnow.le
  daemon := by
    have hdaemon := h.daemon
    simp only [State.add, spent_concat, addUsage, addDaemonUsage, hdaemon]
  hours hour := by
    have hkept := h.hours hour
    show Capped b.daemonCalls (total (s.spends ++ [x]) _ .calls)
    rw [total_append_singleton]
    by_cases hin : inHours hour b.daemonWindowHours x = true
    · rw [if_pos hin]
      rcases hcalls with hzero | ⟨hone, hover⟩
      · have hget : x.delta.get .calls = 0 := hzero
        rwa [hget, add_zero]
      · have hget : x.delta.get .calls = 1 := hone
        rw [hget]
        refine hkept.succ ?_
        by_contra hreached
        rw [Bool.not_eq_false] at hreached
        have hle : total s.spends (inHours hour b.daemonWindowHours) .calls ≤ (getDaemonUsage s.store s.now b.daemonWindowHours).get .calls := by
          rw [h.seen le_rfl]
          -- the hours that end with `hour` begin no earlier than those that end now
          refine total_mono (fun y hy hyin => ?_) .calls
          simp only [inHours, Bool.and_eq_true, decide_eq_true_eq, hnow] at hin hyin ⊢
          omega
        have hreached : isOver b.daemonCalls (getDaemonUsage s.store s.now b.daemonWindowHours).calls = true := isOver_mono hle hreached
        rw [hreached] at hover
        cases hover
    · rw [if_neg hin, add_zero]
      exact hkept

theorem Recorded.step (h : Recorded b s) (act : Act) : Recorded b (step b s act) := by
  generalize hs : Budget.step b s act = s'
  have hdoes := step_does b s act
  rw [hs] at hdoes
  cases hdoes with
  | idle store spends now =>
    refine ⟨spends ▸ h.sorted, fun x hx => ?_, by rw [store, spends, h.daemon], spends ▸ h.hours⟩
    rw [spends] at hx
    exact (h.past x hx).trans now
  | media a p bytes durationSec => exact h.add rfl (.inl rfl)
  | passed daemon budget => exact h.add rfl (.inr ⟨rfl, (checkDaemonBudget_eq_none.mp daemon).2.2⟩)
  | purged a => exact ⟨h.sorted, h.past, h.daemon, h.hours⟩

/-! ## Events and attendees -/

/-- What the calls of each event and of each attendee keep to. -/
structure Bounded (b : Budgets) (t : Store) : Prop where
  event : ∀ a, Capped b.perEventCalls (getEventUsage t a).calls
  attendee : ∀ a p, p ≠ [] → Capped b.perAttendeeCalls (getUsage t a p).calls

theorem Bounded.empty (b : Budgets) : Bounded b {} where
  event _ := Capped.zero
  attendee _ _ _ := Capped.zero

/-- Where a spend makes no call, or one that is checked. -/
theorem Bounded.add (h : Bounded b t) {delta : Amounts} (now : Int)
    (hcalls : delta.calls = 0 ∨ delta.calls = 1 ∧ checkBudget b t a p = none) : Bounded b (addUsage t a p delta now) := by
  have hevent : ∀ a', (getEventUsage (addUsage t a p delta now) a').calls = (getEventUsage t a').calls + if a = a' then delta.calls else 0 :=
    fun a' => getEventUsage_addUsage (c := .calls) delta now
  have hattendee : ∀ a' p', (getUsage (addUsage t a p delta now) a' p').calls =
      (getUsage t a' p').calls + if (a, p) = (a', p') then delta.calls else 0 := fun a' p' => getUsage_addUsage (c := .calls) delta now
  rcases hcalls with hzero | ⟨hone, hnone⟩
  · constructor
    · intro a'
      rw [hevent, hzero, ite_self, add_zero]
      exact h.event a'
    · intro a' p' hp
      rw [hattendee, hzero, ite_self, add_zero]
      exact h.attendee a' p' hp
  · have hfree : ¬ (checkBudget b t a p).isSome = true := by simp [hnone]
    rw [checkBudget_isSome] at hfree
    push Not at hfree
    obtain ⟨-, -, hcallsEvent, hcallsAttendee⟩ := hfree
    constructor
    · intro a'
      rw [hevent, hone]
      by_cases ha : a = a'
      · subst ha
        rw [if_pos rfl]
        exact (h.event a).succ (Bool.eq_false_iff.mpr hcallsEvent)
      · rw [if_neg ha, add_zero]
        exact h.event a'
    · intro a' p' hp
      rw [hattendee, hone]
      by_cases hk : (a, p) = (a', p')
      · obtain ⟨rfl, rfl⟩ := Prod.mk.inj hk
        rw [if_pos rfl]
        exact (h.attendee a p hp).succ (Bool.eq_false_iff.mpr (hcallsAttendee hp).2.2)
      · rw [if_neg hk, add_zero]
        exact h.attendee a' p' hp

theorem Bounded.purge (h : Bounded b t) (a : JsString) : Bounded b (purge t a) where
  event a' := by
    by_cases ha : a = a'
    · subst ha
      rw [getEventUsage_purge]
      exact Capped.zero
    · rw [getEventUsage_purge_of_ne ha]
      exact h.event a'
  attendee a' p hp := by
    rw [getUsage_purge]
    split_ifs
    · exact Capped.zero
    · exact h.attendee a' p hp

theorem Bounded.step (h : Bounded b s.store) (act : Act) : Bounded b (step b s act).store := by
  generalize hs : Budget.step b s act = s'
  have hdoes := step_does b s act
  rw [hs] at hdoes
  cases hdoes with
  | idle store _ _ => exact store ▸ h
  | media a p bytes durationSec => exact h.add s.now (.inl rfl)
  | passed _ budget => exact h.add s.now (.inr ⟨rfl, budget⟩)
  | purged a => exact h.purge a

theorem run_keeps (b : Budgets) (now : Int) (acts : List Act) : Recorded b (run b { now } acts) ∧ Bounded b (run b { now } acts).store := by
  induction acts using List.reverseRecOn with
  | nil => exact ⟨Recorded.start b now, Bounded.empty b⟩
  | append_singleton acts act ih =>
    rw [run_concat]
    exact ⟨ih.1.step act, ih.2.step act⟩

/-- A window in time is in two windows by the clock. -/
theorem total_within_le (l : List Spend) (now w : Int) (hw : 0 < w) (c : Component) :
    total l (within now w) c ≤ total l (inHours (hourOf now) w) c + total l (inHours (hourOf now - w) w) c := by
  have hsplit : total l (fun x => inHours (hourOf now) w x || inHours (hourOf now - w) w x) c =
      total l (inHours (hourOf now) w) c + total l (inHours (hourOf now - w) w) c := by
    refine total_split (fun _ _ => rfl) fun x _ => ?_
    simp only [inHours, Bool.and_eq_false_iff, decide_eq_false_iff_not]
    omega
  rw [← hsplit]
  refine total_mono (fun x _ hx => ?_) c
  simp only [within, inHours, Bool.and_eq_true, Bool.or_eq_true, decide_eq_true_eq] at hx ⊢
  unfold hourOf
  omega

/-- **The calls keep to their limits.** In every run: those of each event and of each attendee since the event was purged; those of the
daemon in `daemonWindowHours` hours by the clock, and twice as many in any such time. -/
theorem calls_capped (b : Budgets) (now : Int) (acts : List Act) :
    (∀ a, Capped b.perEventCalls (getEventUsage (run b { now } acts).store a).calls) ∧
    (∀ a p, p ≠ [] → Capped b.perAttendeeCalls (getUsage (run b { now } acts).store a p).calls) ∧
    (∀ h, Capped b.daemonCalls (total (run b { now } acts).spends (inHours h b.daemonWindowHours) .calls)) ∧
    ∀ t, b.daemonCalls = 0 ∨ total (run b { now } acts).spends (within t b.daemonWindowHours) .calls ≤ 2 * b.daemonCalls := by
  obtain ⟨hrecorded, hbounded⟩ := run_keeps b now acts
  refine ⟨hbounded.event, hbounded.attendee, hrecorded.hours, fun t => or_iff_not_imp_left.mpr fun hlimit => ?_⟩
  have hle : ∀ h, total (run b { now } acts).spends (inHours h b.daemonWindowHours) .calls ≤ b.daemonCalls := fun h => by
    obtain ⟨n, hn, hcap⟩ := hrecorded.hours h
    rw [hn]
    exact Nat.cast_le.mpr (hcap.resolve_left hlimit)
  rw [two_mul]
  exact (total_within_le _ t _ b.window.1 .calls).trans (add_le_add (hle _) (hle _))

/-! ## Over, and under again -/

/-- What is used of an event goes down with a purge of it alone. -/
theorem usage_mono (hact : act ≠ .purge a) (c : Component) :
    (getEventUsage s.store a).get c ≤ (getEventUsage (step b s act).store a).get c ∧
    (getUsage s.store a p).get c ≤ (getUsage (step b s act).store a p).get c := by
  generalize hs : step b s act = s'
  have hdoes := step_does b s act
  rw [hs] at hdoes
  cases hdoes with
  | idle store _ _ =>
    rw [store]
    exact ⟨le_rfl, le_rfl⟩
  | media =>
    simp only [State.add, getEventUsage_addUsage, getUsage_addUsage]
    exact ⟨le_self_add, le_self_add⟩
  | passed =>
    simp only [State.add, getEventUsage_addUsage, getUsage_addUsage]
    exact ⟨le_self_add, le_self_add⟩
  | purged a' =>
    have hne : a' ≠ a := fun h => hact (h ▸ rfl)
    dsimp only
    rw [getEventUsage_purge_of_ne hne, getUsage_purge, if_neg (Ne.symm hne)]
    exact ⟨le_rfl, le_rfl⟩

theorem checkBudget_step (hact : act ≠ .purge a) (h : (checkBudget b s.store a p).isSome = true) :
    (checkBudget b (step b s act).store a p).isSome = true := by
  have hevent := fun c => (usage_mono (b := b) (s := s) (p := p) hact c).1
  have hattendee := fun c => (usage_mono (b := b) (s := s) (p := p) hact c).2
  rw [checkBudget_isSome] at h ⊢
  exact h.imp (isOver_mono (hevent .bytes)) <| Or.imp (isOver_mono (hevent .durationSec)) <| Or.imp (isOver_mono (hevent .calls)) <|
    And.imp_right <| Or.imp (isOver_mono (hattendee .bytes)) <| Or.imp (isOver_mono (hattendee .durationSec)) (isOver_mono (hattendee .calls))

theorem checkBudget_run {later : List Act} (hlater : ∀ act ∈ later, act ≠ .purge a) (h : (checkBudget b s.store a p).isSome = true) :
    (checkBudget b (run b s later).store a p).isSome = true := by
  induction later using List.reverseRecOn with
  | nil => exact h
  | append_singleton later act ih =>
    rw [run_concat]
    exact checkBudget_step (hlater act (List.mem_append_right _ List.mem_cons_self))
      (ih fun x hx => hlater x (List.mem_append_left _ hx))

theorem parked_of_checkBudget (h : (checkBudget b s.store a p).isSome = true) (live : Bool) :
    ∃ o, (assertSpendAllowed b s a p live).1 = .parked o := by
  obtain ⟨o, ho⟩ := Option.isSome_iff_exists.mp h
  unfold assertSpendAllowed
  cases hdaemon : checkDaemonBudget b s.store s.now with
  | some d => exact ⟨d, rfl⟩
  | none =>
    rw [ho]
    exact ⟨o, rfl⟩

/-- **An event that is over stays over**, and its jobs are parked, until it is purged; **the daemon is under again** once what it spent
is older than its window. -/
theorem over_until (b : Budgets) (now : Int) (acts : List Act) (a p : JsString) :
    ((checkBudget b (run b { now } acts).store a p).isSome = true → ∀ later, (∀ act ∈ later, act ≠ .purge a) → ∀ live,
      ∃ o, (assertSpendAllowed b (run b (run b { now } acts) later) a p live).1 = .parked o) ∧
    ∀ t, (run b { now } acts).now ≤ t → (∀ x ∈ (run b { now } acts).spends, hourOf x.now ≤ hourOf t - b.daemonWindowHours) →
      checkDaemonBudget b (run b { now } acts).store t = none := by
  refine ⟨fun h later hlater live => parked_of_checkBudget (checkBudget_run hlater h) live, fun t ht hold => ?_⟩
  have hseen : ∀ c, (getDaemonUsage (run b { now } acts).store t b.daemonWindowHours).get c = 0 := fun c => by
    rw [(run_keeps b now acts).1.seen ht c]
    refine total_eq_zero_iff.mpr fun x hx hin => ?_
    have := hold x hx
    rw [decide_eq_true_eq] at hin
    omega
  have hunder : ∀ limit, isOver limit 0 = false := fun limit => isOver_eq_false.mpr (by
    rcases Nat.eq_zero_or_pos limit with hzero | hpos
    · exact .inl hzero
    · exact .inr (Nat.cast_pos.mpr hpos))
  have hbytes := hseen .bytes
  have hduration := hseen .durationSec
  have hcalls := hseen .calls
  simp only [Amounts.get] at hbytes hduration hcalls
  rw [checkDaemonBudget_eq_none, hbytes, hduration, hcalls]
  exact ⟨hunder _, hunder _, hunder _⟩

/-! ## What organizers are told -/

/-- Acts after which an event may be told of its budget once more. -/
def clears (a : JsString) : Act → Bool
  | .resume a' => a' = a
  | .sweep _ events => a ∈ events
  | .restart => true
  | _ => false

theorem told_notify (a' : JsString) (live : Bool) :
    (s.notify a' live).told.count a + (a ∈ s.notified : Bool).toNat ≤ s.told.count a + (a ∈ (s.notify a' live).notified : Bool).toNat := by
  unfold State.notify
  split_ifs with hin hlive
  · exact le_rfl
  · by_cases ha : a' = a
    · subst ha
      simp [hin, List.count_append]
    · simp [List.count_append, ha, Ne.symm ha]
  · by_cases ha : a' = a
    · subst ha
      simp [hin]
    · simp [Ne.symm ha]

/-- An event that is told is notified, unless the act clears it. -/
theorem told_step (b : Budgets) (s : State) (act : Act) (a : JsString) :
    (step b s act).told.count a + (a ∈ s.notified : Bool).toNat ≤
      s.told.count a + (clears a act).toNat + (a ∈ (step b s act).notified : Bool).toNat := by
  cases act with
  | spend a' p live =>
    have htold := told_notify (s := s) (a := a) a' live
    cases hdaemon : checkDaemonBudget b s.store s.now with
    | some o =>
      simp only [step, assertSpendAllowed, hdaemon, clears]
      exact htold
    | none =>
      cases hbudget : checkBudget b s.store a' p with
      | some o =>
        simp only [step, assertSpendAllowed, hdaemon, hbudget, clears]
        exact htold
      | none =>
        simp only [step, assertSpendAllowed, hdaemon, hbudget, clears]
        exact le_rfl
  | resume a' =>
    by_cases ha : a' = a
    · simp only [step, clears, ha, decide_true, Bool.toNat_true]
      have := Bool.toNat_le (decide (a ∈ s.notified))
      omega
    · simp [step, clears, ha, Ne.symm ha]
  | sweep resumed events =>
    simp only [step]
    split_ifs
    · omega
    · by_cases ha : a ∈ events
      · simp only [clears, ha, decide_true, Bool.toNat_true]
        have := Bool.toNat_le (decide (a ∈ s.notified))
        omega
      · simp [clears, ha]
  | restart =>
    have := Bool.toNat_le (decide (a ∈ s.notified))
    simp only [step, clears, Bool.toNat_true]
    omega
  | media => exact le_rfl
  | purge => exact le_rfl
  | tick => exact le_rfl

/-- An event is told of its budget once, and once more for each time that its work was resumed or the daemon restarted. -/
theorem told_once (b : Budgets) (now : Int) (acts : List Act) (a : JsString) :
    (run b { now } acts).told.count a ≤ acts.countP (clears a) + 1 := by
  have hkept : (run b { now } acts).told.count a ≤ acts.countP (clears a) + (a ∈ (run b { now } acts).notified : Bool).toNat := by
    induction acts using List.reverseRecOn with
    | nil => exact Nat.zero_le _
    | append_singleton acts act ih =>
      have hstep := told_step b (run b { now } acts) act a
      have hcount : (acts ++ [act]).countP (clears a) = acts.countP (clears a) + (clears a act).toNat := by
        cases hclears : clears a act <;> simp [List.countP_append, hclears]
      rw [run_concat, hcount]
      omega
  exact hkept.trans (Nat.add_le_add_left (Bool.toNat_le _) _)

end Nostrautica.Budget
