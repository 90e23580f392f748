/-
Retention purges an event only when its policy calls for it
(`purges_called_for`), in runs in which no record moves the deadline of an
event that a sweep is already expiring. `Timely` says what the acts have to
avoid, `Called` what a purge is to meet.
-/
import Nostrautica.Coordinator.Retention

set_option linter.unusedSectionVars false

namespace Nostrautica.Retention

open Js Tasks

variable {C : Type*} [DecidableEq C] {s s' : Store C} {w w' : World C} {x : Act C} {xs : List (Act C)} {th th' : Sweep}
  {a : Answer} {k i : Nat} {c : C} {nowSec : Int} {es : List (Effect C)} {next : Option Sweep} {todo : List Nat}

/-- The object is in the midst of `expireRetention`, before the purge. -/
def Sweep.expires (th : Sweep) (i : Nat) : Prop := th.pc = .stopping i ∨ th.pc = .deleting i

/-- The sweep may purge for the object yet. -/
def Sweep.ahead (th : Sweep) (i : Nat) : Prop := th.expires i ∨ i ∈ th.todo

/-! ## What a sweep does -/

/-- Effects of no purge. -/
def Quiet : Effect C → Prop
  | .purgeEventArtifacts .. => False
  | _ => True

/-- Such effects leave the events and their deadlines. -/
structure Same (s s' : Store C) : Prop where
  events : s'.events = s.events
  made : s'.made = s.made
  purges : s'.purges = s.purges
  coordinate : ∀ i, (s'.states i).coordinate = (s.states i).coordinate
  deadline : ∀ i, (s'.states i).retentionDeadline = (s.states i).retentionDeadline

theorem Same.refl : Same s s := ⟨rfl, rfl, rfl, fun _ => rfl, fun _ => rfl⟩

theorem Same.run (h : ∀ e ∈ es, Quiet e) : Same s (rules.run s es) := by
  refine Rules.run_invariant (I := Same s) (fun e he t ht => ?_) .refl
  cases e with
  | inProgress | markRetentionExpired => exact ⟨ht.events, ht.made, ht.purges, ht.coordinate, ht.deadline⟩
  | expiring j =>
    refine ⟨ht.events, ht.made, ht.purges, fun i => ?_, fun i => ?_⟩
    · simp only [rules, Store.apply, Function.update_apply]
      split
      next hij => rw [hij]; exact ht.coordinate j
      · exact ht.coordinate i
    · simp only [rules, Store.apply, Function.update_apply]
      split
      next hij => rw [hij]; exact ht.deadline j
      · exact ht.deadline i
  | purgeEventArtifacts => exact (h _ he).elim

/-- The loop stops at an object whose deadline has passed. -/
theorem sweepFrom_cases : ∀ {todo : List Nat}, sweepFrom s nowSec todo = (es, next) →
    (∀ e ∈ es, Quiet e) ∧ ∀ th ∈ next, th.nowSec = nowSec ∧ (∀ i, th.ahead i → i ∈ todo) ∧
      ∀ i, th.expires i → passed nowSec (s.states i).retentionDeadline = true
  | [], h => by
    cases h
    exact ⟨by simp, by simp⟩
  | j :: todo, h => by
    simp only [sweepFrom] at h
    split at h
    next hd =>
      cases h
      simp only [due, Bool.and_eq_true] at hd
      refine ⟨by simp [Quiet], ?_⟩
      rintro th hth
      cases hth
      refine ⟨rfl, ?_, ?_⟩
      · rintro i ((hi | hi) | hi)
        · cases hi
          exact .head _
        · cases hi
        · exact .tail _ hi
      · rintro i (hi | hi)
        · cases hi
          exact hd.1.2
        · cases hi
    · obtain ⟨hq, hn⟩ := sweepFrom_cases h
      refine ⟨hq, fun th hth => ?_⟩
      obtain ⟨h1, h2, h3⟩ := hn th hth
      exact ⟨h1, fun i hi => .tail _ (h2 i hi), h3⟩

/-- A sweep that goes on purges nothing, and expires an object whose deadline
has passed, one it had before it; or it purges for the object it was deleting. -/
theorem settle_cases (h : settle s th a = (es, next))
    (hp : ∀ i, th.expires i → passed th.nowSec (s.states i).retentionDeadline = true) :
    ((∀ e ∈ es, Quiet e) ∧ ∀ th' ∈ next, th'.nowSec = th.nowSec ∧ (∀ i, th'.ahead i → th.ahead i) ∧
      ∀ i, th'.expires i → passed th.nowSec (s.states i).retentionDeadline = true) ∨
    ∃ i, th.pc = .deleting i ∧ next = some { th with pc := .notifying i } ∧
      es = [.purgeEventArtifacts (s.states i).coordinate a.now, .markRetentionExpired (s.states i).coordinate] := by
  have hnext : ∀ {i}, nextObject s th i = (es, next) →
      (∀ e ∈ es, Quiet e) ∧ ∀ th' ∈ next, th'.nowSec = th.nowSec ∧ (∀ i, th'.ahead i → th.ahead i) ∧
        ∀ i, th'.expires i → passed th.nowSec (s.states i).retentionDeadline = true := by
    intro i hn
    simp only [nextObject, Prod.mk.injEq] at hn
    obtain ⟨rfl, rfl⟩ := hn
    obtain ⟨hq, hn⟩ := sweepFrom_cases
      (show sweepFrom (s.apply (.inProgress (s.states i).coordinate false)) th.nowSec th.todo = (_, _) from rfl)
    refine ⟨fun e he => ?_, fun th' hth' => ?_⟩
    · rcases List.mem_cons.mp he with rfl | he
      · trivial
      · exact hq e he
    · obtain ⟨h1, h2, h3⟩ := hn th' hth'
      exact ⟨h1, fun j hj => .inr (h2 j hj), h3⟩
  simp only [settle] at h
  split at h
  next i hpc =>
    cases h
    refine .inl ⟨by simp, ?_⟩
    rintro th' hth'
    cases hth'
    have hi : ∀ j, ({ th with pc := .deleting i } : Sweep).expires j → th.expires j := by
      rintro j (hj | hj)
      · cases hj
      · cases hj
        exact .inl hpc
    exact ⟨rfl, fun j hj => hj.imp_left (hi j), fun j hj => hp j (hi j hj)⟩
  next i hpc =>
    split at h
    · cases h
      exact .inr ⟨i, hpc, rfl, rfl⟩
    · exact .inl (hnext h)
  next i hpc => exact .inl (hnext h)

/-! ## The invariant -/

/-- Where an event was installed, its deadline existed and had passed. -/
def Called (p : Purge C) : Prop := ∀ deadline, p.deadline = some deadline → passed p.nowSec deadline = true

/-- What a sweep may purge for is what is installed there, if anything, and the
deadline of what it expires has passed. -/
structure Due (w : World C) : Prop where
  events : ∀ c i, w.store.events.get? c = some i → i < w.store.made ∧ (w.store.states i).coordinate = c
  ahead : ∀ k th i, w.tasks k = some th → th.ahead i →
    i < w.store.made ∧ ∀ j, w.store.events.get? (w.store.states i).coordinate = some j → j = i
  passed : ∀ k th i, w.tasks k = some th → th.expires i → Retention.passed th.nowSec (w.store.states i).retentionDeadline = true
  called : ∀ p ∈ w.store.purges, Called p

/-- A record that an event takes while a sweep expires it leaves its deadline
before the sweep's reading of the clock; no event is installed while a sweep may
purge for an earlier install of it; and the clock does not step back behind a
sweep's reading before the purge. -/
structure Timely (w : World C) (x : Act C) : Prop where
  config : ∀ c cfg now i k th, x = .config c cfg now → w.store.events.get? c = some i →
    (w.store.states i).takesConfig cfg = true → cfg.attached = true → w.tasks k = some th → th.expires i →
    passed th.nowSec ((w.store.states i).withConfig cfg now).retentionDeadline = true
  record : ∀ c rec i k th, x = .record c rec → w.store.events.get? c = some i →
    (w.store.states i).takesRecord rec = true → w.tasks k = some th → th.expires i →
    passed th.nowSec ((w.store.states i).withRecord rec (retentionAnchorFor w.store (w.store.states i).coordinate rec.endSec)).retentionDeadline = true
  install : ∀ c cfg rec k th i, x = .install c cfg rec → w.tasks k = some th → th.ahead i → (w.store.states i).coordinate ≠ c
  clock : ∀ k a th i, (x = .settle k a ∨ ∃ n, x = .crashDuring k a n) → w.tasks k = some th → th.pc = .deleting i →
    th.nowSec ≤ seconds a.now

theorem passed_mono {n m : Int} {deadline : Option Int} (h : passed n deadline = true) (hnm : n ≤ m) :
    passed m deadline = true := by
  cases deadline with
  | none => cases h
  | some d =>
    simp only [passed, Option.any_some, decide_eq_true_eq] at h ⊢
    omega

/-- Effects of no purge keep what the invariant says of the store. -/
theorem Due.quiet (hw : Due w) (h : Same w.store s) : Due { w with store := s } := by
  refine ⟨fun c i hi => ?_, fun k th i hk hi => ?_, fun k th i hk hi => ?_, fun p hp => ?_⟩
  · rw [show World.store { w with store := s } = s from rfl, h.events] at hi
    rw [h.made, h.coordinate]
    exact hw.events c i hi
  · rw [h.made, h.coordinate, h.events]
    exact hw.ahead k th i hk hi
  · rw [h.deadline]
    exact hw.passed k th i hk hi
  · rw [show World.store { w with store := s } = s from rfl, h.purges] at hp
    exact hw.called p hp

/-- A sweep goes on to what it had before it. -/
theorem Due.moves {locks : Unit → Option Nat} (hw : Due w)
    (hn : ∀ th' ∈ next, (∀ i, th'.ahead i → i < w.store.made ∧
      ∀ j, w.store.events.get? (w.store.states i).coordinate = some j → j = i) ∧
      ∀ i, th'.expires i → Retention.passed th'.nowSec (w.store.states i).retentionDeadline = true) :
    Due ⟨w.store, Function.update w.tasks k next, locks⟩ := by
  have hcases : ∀ j th', Function.update w.tasks k next j = some th' → th' ∈ next ∨ w.tasks j = some th' := by
    intro j th' hj
    rw [Function.update_apply] at hj
    split at hj
    · exact .inl hj
    · exact .inr hj
  refine ⟨hw.events, fun j th' i hj hi => ?_, fun j th' i hj hi => ?_, hw.called⟩
  · rcases hcases j th' hj with hj | hj
    · exact (hn th' hj).1 i hi
    · exact hw.ahead j th' i hj hi
  · rcases hcases j th' hj with hj | hj
    · exact (hn th' hj).2 i hi
    · exact hw.passed j th' i hj hi

/-- The purge of a sweep at the end of its wait is called for. -/
theorem Due.purge (hw : Due w) (hk : w.tasks k = some th) (hpc : th.pc = .deleting i) (hclock : th.nowSec ≤ seconds a.now) :
    ∀ p ∈ (w.store.apply (.purgeEventArtifacts (w.store.states i).coordinate a.now)).purges, Called p := by
  intro p hp
  rcases List.mem_append.mp hp with hp | hp
  · exact hw.called p hp
  · rw [List.mem_singleton.mp hp]
    intro deadline hd
    obtain ⟨j, hj, rfl⟩ := Option.map_eq_some_iff.mp hd
    obtain rfl := (hw.ahead k th i hk (.inl (.inr hpc))).2 j hj
    exact passed_mono (hw.passed k th j hk (.inr hpc)) hclock

/-- A record changes one state object, not past the sweeps that expire it. -/
theorem Due.rewrite {st : EventState C} (hw : Due w) (hs : s.events = w.store.events ∧ s.made = w.store.made ∧
    s.purges = w.store.purges ∧ s.states = Function.update w.store.states i st) (hc : st.coordinate = (w.store.states i).coordinate)
    (hp : ∀ k th, w.tasks k = some th → th.expires i → Retention.passed th.nowSec st.retentionDeadline = true) :
    Due { w with store := s } := by
  obtain ⟨he, hm, hpu, hst⟩ := hs
  have hcoord : ∀ j, (s.states j).coordinate = (w.store.states j).coordinate := by
    intro j
    rw [hst, Function.update_apply]
    split
    next hj => rw [hc, hj]
    · rfl
  refine ⟨fun c j hj => ?_, fun k th j hk hj => ?_, fun k th j hk hj => ?_, fun p hp => ?_⟩
  · rw [show World.store { w with store := s } = s from rfl, he] at hj
    rw [hm, hcoord]
    exact hw.events c j hj
  · rw [hm, hcoord, he]
    exact hw.ahead k th j hk hj
  · show Retention.passed th.nowSec (s.states j).retentionDeadline = true
    rw [hst, Function.update_apply]
    split
    next hji => exact hp k th hk (hji ▸ hj)
    · exact hw.passed k th j hk hj
  · rw [show World.store { w with store := s } = s from rfl, hpu] at hp
    exact hw.called p hp

/-- An event goes. -/
theorem Due.detach (hw : Due w) : Due { w with store := detachEvent w.store c } := by
  refine ⟨fun c' i hi => ?_, fun k th i hk hi => ?_, hw.passed, hw.called⟩
  · rw [show (detachEvent w.store c).events = w.store.events.delete c from rfl, JsMap.get?_delete] at hi
    split at hi
    · cases hi
    · exact hw.events c' i hi
  · obtain ⟨hlt, hj⟩ := hw.ahead k th i hk hi
    refine ⟨hlt, fun j h => ?_⟩
    rw [show (detachEvent w.store c).events = w.store.events.delete c from rfl, JsMap.get?_delete] at h
    split at h
    · cases h
    · exact hj j h

theorem setRetentionAnchor_fields {n : Int} : (setRetentionAnchor s c n).events = s.events ∧
    (setRetentionAnchor s c n).made = s.made ∧ (setRetentionAnchor s c n).purges = s.purges := by
  unfold setRetentionAnchor
  split <;> exact ⟨rfl, rfl, rfl⟩

/-- A new state object comes, where no sweep may purge for an earlier one. -/
theorem Due.install {cfg : Config} {rec : Option SpaceRecord} (hw : Due w)
    (hx : ∀ k th i, w.tasks k = some th → th.ahead i → (w.store.states i).coordinate ≠ c) :
    Due { w with store := installEvent w.store c cfg rec } := by
  have hold : ∀ i < w.store.made, (installEvent w.store c cfg rec).states i = w.store.states i :=
    fun i hi => Function.update_of_ne (Nat.ne_of_lt hi) ..
  have hnew : ((installEvent w.store c cfg rec).states w.store.made).coordinate = c := by
    simp only [installEvent, Function.update_self]
  have hevents : ∀ c', (installEvent w.store c cfg rec).events.get? c' =
      if c = c' then some w.store.made else w.store.events.get? c' := fun c' => JsMap.get?_set
  refine ⟨fun c' i hi => ?_, fun k th i hk hi => ?_, fun k th i hk hi => ?_, fun p hp => ?_⟩
  · rw [hevents] at hi
    split at hi
    next hc =>
      cases hi
      exact ⟨Nat.lt_succ_self _, hnew.trans hc⟩
    · obtain ⟨hlt, hcoord⟩ := hw.events c' i hi
      exact ⟨Nat.lt_succ_of_lt hlt, by rw [hold i hlt]; exact hcoord⟩
  · obtain ⟨hlt, hj⟩ := hw.ahead k th i hk hi
    refine ⟨Nat.lt_succ_of_lt hlt, fun j h => hj j ?_⟩
    rwa [hold i hlt, hevents, if_neg (hx k th i hk hi).symm] at h
  · rw [hold i (hw.ahead k th i hk (.inl hi)).1]
    exact hw.passed k th i hk hi
  · refine hw.called p ?_
    have hpu : (installEvent w.store c cfg rec).purges = w.store.purges := setRetentionAnchor_fields.2.2
    rwa [← hpu]

/-- **Every timely act keeps the invariant.** -/
theorem Due.step (hw : Due w) (h : Step w x w') (hx : Timely w x) : Due w' := by
  cases x with
  | sweep k now =>
    simp only [Step, act] at h
    split at h <;> cases h
    generalize ho : sweepFrom w.store (seconds now) w.store.events.values = o
    obtain ⟨es, next⟩ := o
    obtain ⟨hq, hn⟩ := sweepFrom_cases ho
    have hsame : Same w.store (rules.run w.store es) := .run hq
    refine (hw.quiet hsame).moves fun th hth => ?_
    obtain ⟨hnow, hahead, hpass⟩ := hn th hth
    refine ⟨fun i hi => ?_, fun i hi => ?_⟩
    · obtain ⟨c, hc⟩ := JsMap.get?_of_mem_values (hahead i hi)
      obtain ⟨hlt, rfl⟩ := hw.events c i hc
      rw [hsame.made, hsame.coordinate, hsame.events]
      exact ⟨hlt, fun j hj => Option.some.inj (hj.symm.trans hc)⟩
    · rw [hnow, hsame.deadline]
      exact hpass i hi
  | settle k a =>
    obtain ⟨th, hth, rfl⟩ := Option.map_eq_some_iff.mp h
    generalize ho : settle w.store th a = o
    obtain ⟨es, next⟩ := o
    rcases settle_cases ho (hw.passed k th · hth) with ⟨hq, hn⟩ | ⟨i, hpc, rfl, rfl⟩
    · have hsame : Same w.store (rules.run w.store es) := .run hq
      refine (hw.quiet hsame).moves fun th' hth' => ?_
      obtain ⟨hnow, hahead, hpass⟩ := hn th' hth'
      refine ⟨fun i hi => ?_, fun i hi => ?_⟩
      · rw [hsame.made, hsame.coordinate, hsame.events]
        exact hw.ahead k th i hth (hahead i hi)
      · rw [hnow, hsame.deadline]
        exact hpass i hi
    · have hpurge := hw.purge hth hpc (hx.clock k a th i (.inl rfl) hth hpc)
      have hw' : Due { w with store := rules.run w.store [.purgeEventArtifacts (w.store.states i).coordinate a.now,
          .markRetentionExpired (w.store.states i).coordinate] } := ⟨hw.events, hw.ahead, hw.passed, hpurge⟩
      refine hw'.moves fun th' hth' => ?_
      cases hth'
      refine ⟨fun j hj => ?_, fun j hj => ?_⟩
      · rcases hj with (hj | hj) | hj
        · cases hj
        · cases hj
        · exact hw.ahead k th j hth (.inr hj)
      · rcases hj with hj | hj <;> cases hj
  | config c cfg now =>
    obtain ⟨i, hi, rfl⟩ := Option.map_eq_some_iff.mp h
    split
    next ht =>
      cases ha : cfg.attached with
      | true => exact hw.rewrite ⟨rfl, rfl, rfl, rfl⟩ rfl fun k th hk he => hx.config c cfg now i k th rfl hi ht ha hk he
      | false => exact hw.detach
    · exact hw
  | record c rec =>
    obtain ⟨i, hi, rfl⟩ := Option.map_eq_some_iff.mp h
    split
    next ht =>
      obtain ⟨he, hm, hp⟩ := setRetentionAnchor_fields (s := w.store) (c := (w.store.states i).coordinate) (n := rec.endSec)
      exact hw.rewrite ⟨he, hm, hp, rfl⟩ rfl fun k th hk hexp => hx.record c rec i k th rfl hi ht hk hexp
    · exact hw
  | install c cfg rec =>
    cases h
    exact hw.install fun k th i hk hi => hx.install c cfg rec k th i rfl hk hi
  | detach c =>
    cases h
    exact hw.detach
  | crash =>
    cases h
    exact ⟨nofun, nofun, nofun, hw.called⟩
  | crashDuring k a n =>
    obtain ⟨th, hth, rfl⟩ := Option.map_eq_some_iff.mp h
    refine ⟨nofun, nofun, nofun, ?_⟩
    generalize ho : settle w.store th a = o
    obtain ⟨es, next⟩ := o
    rcases settle_cases ho (hw.passed k th · hth) with ⟨hq, -⟩ | ⟨i, hpc, -, rfl⟩
    · have hsame : Same w.store (rules.run w.store (es.take n)) := .run fun e he => hq e (List.mem_of_mem_take he)
      intro p hp
      exact hw.called p (hsame.purges ▸ hp)
    · have hpurge := hw.purge hth hpc (hx.clock k a th i (.inr ⟨n, rfl⟩) hth hpc)
      match n with
      | 0 => exact hw.called
      | 1 => exact hpurge
      | n + 2 =>
        rw [List.take_of_length_le (by simp)]
        exact hpurge

theorem due_start {states : Nat → EventState C} : Due (.fresh (.start states)) := ⟨nofun, nofun, nofun, nofun⟩

/-- **Retention purges an installed event only past its deadline**, after every
run of timely acts. -/
theorem purges_called_for {states : Nat → EventState C}
    (h : Run (fun w x w' => Step w x w' ∧ Timely w x) (.fresh (.start states)) xs w) : ∀ p ∈ w.store.purges, Called p :=
  (h.invariant (fun _ _ _ hw hx => hw.step hx.1 hx.2) due_start).called

/-- An event that ended at 1000 and keeps its records for a day. -/
def Small.install : Act Nat := .install 0 ⟨1, 1, true, some 1⟩ (some ⟨1, 1, 1000⟩)

/-- A sweep at 90000 is about to purge. -/
def Small.sweeping : List (Act Nat) := [Small.install, .sweep 1 90000000, .settle 1 ⟨true, 90000000⟩]

def Small.states : Nat → EventState Nat := fun _ => ⟨0, none, 0, none, 0, none, 0, false⟩

theorem timely_of_idle (h : ∀ k, w.tasks k = none) : Timely w x := by
  have hno : ∀ k th, w.tasks k ≠ some th := fun k th hk => by simp [h k] at hk
  exact ⟨fun _ _ _ _ _ _ _ _ _ _ hk => (hno _ _ hk).elim, fun _ _ _ _ _ _ _ _ hk => (hno _ _ hk).elim,
    fun _ _ _ _ _ _ _ hk => (hno _ _ hk).elim, fun _ _ _ _ _ hk => (hno _ _ hk).elim⟩

/-- A sweep may go on, unless the clock is behind its reading when it purges. -/
theorem timely_settle (h : ∀ th i, w.tasks k = some th → th.pc = .deleting i → th.nowSec ≤ seconds a.now) :
    Timely w (.settle k a) := by
  refine ⟨nofun, nofun, nofun, ?_⟩
  rintro _ _ th i (hx | ⟨_, hx⟩) hk hpc <;> cases hx
  exact h th i hk hpc

theorem purges_called_for_dayOld :
    ∃ w, Run.exec act (.fresh (.start Small.states)) (Small.sweeping ++ [.settle 1 ⟨true, 90001000⟩]) = some w ∧
      w.store.purges.length = 1 ∧ ∀ p ∈ w.store.purges, Called p := by
  have h : (Run.exec act (.fresh (.start Small.states)) (Small.sweeping ++ [.settle 1 ⟨true, 90001000⟩])).map
      (·.store.purges.length) = some 1 := by
    decide +kernel
  obtain ⟨w₄, hw, hlen⟩ := Option.map_eq_some_iff.mp h
  refine ⟨w₄, hw, hlen, ?_⟩
  obtain ⟨w₁, h₁, hw⟩ := Option.bind_eq_some_iff.mp hw
  obtain ⟨w₂, h₂, hw⟩ := Option.bind_eq_some_iff.mp hw
  obtain ⟨w₃, h₃, hw⟩ := Option.bind_eq_some_iff.mp hw
  obtain ⟨w₄, h₄, hw⟩ := Option.bind_eq_some_iff.mp hw
  cases hw
  cases h₁
  cases h₂
  cases h₃
  have hrun : Run (fun w x w' => Step w x w' ∧ Timely w x) (.fresh (.start Small.states))
      (Small.sweeping ++ [.settle 1 ⟨true, 90001000⟩]) w₄ := by
    refine .cons ⟨rfl, timely_of_idle fun _ => rfl⟩ (.cons ⟨rfl, timely_of_idle fun _ => rfl⟩ (.cons ⟨rfl, timely_settle ?_⟩
      (.cons ⟨h₄, timely_settle ?_⟩ .nil)))
    · rintro th i hk hpc
      cases hk
      cases hpc
    · rintro th i hk -
      cases hk
      decide
  exact purges_called_for hrun

/-- The organizer extends the retention while a sweep waits for its deletion to
be published, and the purge runs. -/
theorem purges_called_for_extendedPolicy : ∃ xs w, Run Step (.fresh (.start Small.states)) xs w ∧ ¬ ∀ p ∈ w.store.purges, Called p := by
  let xs : List (Act Nat) := Small.sweeping ++ [.config 0 ⟨2, 2, true, some 100⟩ 90000000, .settle 1 ⟨true, 90001000⟩]
  have h : (Run.exec act (.fresh (.start Small.states)) xs).map (fun w => w.store.purges.map fun p => (p.nowSec, p.deadline)) =
      some [(90001, some (some 8641000))] := by
    decide +kernel
  obtain ⟨w, hw, hp⟩ := Option.map_eq_some_iff.mp h
  refine ⟨xs, w, Run.of_exec hw, fun hc => ?_⟩
  have hmem : (90001, some (some 8641000)) ∈ w.store.purges.map fun p => (p.nowSec, p.deadline) := by
    rw [hp]
    exact .head _
  obtain ⟨p, hmem, hval⟩ := List.mem_map.mp hmem
  simp only [Prod.mk.injEq] at hval
  have hpassed := hc p hmem _ hval.2
  rw [hval.1] at hpassed
  exact absurd hpassed (by decide)

end Nostrautica.Retention
