/-
Usage accounting of `coordinator/src/store/db.ts`: `addUsage`, `addDaemonUsage` and
`getDaemonUsage`, on the tables `usage` and `daemon_usage`.

Amounts are added exactly.

What `getDaemonUsage` sees of the spends (`getDaemonUsage_eq`): those of the last `windowHours` hours
by the clock, the current one included. So it never sees more than the window, and sees all of it
just where nothing was spent in the part of its first hour that is in the window
(`daemon_window_iff`).
-/
import Nostrautica.Js.Text
import Nostrautica.Sql.Sums

namespace Nostrautica.Usage

open Js Sql

/-- `DAEMON_USAGE_RETENTION_HOURS`. -/
def daemonUsageRetentionHours : Int := 24 * 7

/-- Bytes downloaded, seconds of media, and calls of a provider; also a `delta`, where what is absent counts as 0. -/
structure Amounts where
  bytes : ℚ≥0 := 0
  durationSec : ℚ≥0 := 0
  calls : ℚ≥0 := 0
  deriving DecidableEq

/-- `bytes = bytes + excluded.bytes`, and so on. -/
def Amounts.add (a b : Amounts) : Amounts := ⟨a.bytes + b.bytes, a.durationSec + b.durationSec, a.calls + b.calls⟩

/-- A row of either table, but for its key. -/
structure Row where
  amounts : Amounts
  updatedAt : Int

structure Store where
  /-- Keyed by `(coordinate, pubkey)`. -/
  usage : Keyed (JsString × JsString) Row := .empty
  /-- Keyed by `hour`. -/
  daemonUsage : Keyed Int Row := .empty

/-- `INSERT INTO … ON CONFLICT DO UPDATE`: the row after a spend. -/
def accumulate (delta : Amounts) (now : Int) : Option Row → Row
  | none => ⟨delta, now⟩
  | some row => ⟨row.amounts.add delta, now⟩

/-- `Math.floor(now / 3_600_000)`. -/
def hourOf (now : Int) : Int := now / 3600000

/-- `addDaemonUsage(delta, now)`. -/
def addDaemonUsage (s : Store) (delta : Amounts) (now : Int) : Store :=
  let written := s.daemonUsage.upsert (hourOf now) (accumulate delta now)
  { s with daemonUsage := written.delete (· < hourOf now - daemonUsageRetentionHours) }

/-- `addUsage(coordinate, pubkey, delta, now)`. -/
def addUsage (s : Store) (coordinate pubkey : JsString) (delta : Amounts) (now : Int) : Store :=
  addDaemonUsage { s with usage := s.usage.upsert (coordinate, pubkey) (accumulate delta now) } delta now

/-- `getDaemonUsage(now, windowHours)`. -/
def getDaemonUsage (s : Store) (now windowHours : Int) : Amounts :=
  let inWindow (hour : Int) : Bool := hour ≥ hourOf now - windowHours + 1
  { bytes := s.daemonUsage.sum inWindow (·.amounts.bytes)
    durationSec := s.daemonUsage.sum inWindow (·.amounts.durationSec)
    calls := s.daemonUsage.sum inWindow (·.amounts.calls) }

/-- A call of `addUsage`. -/
structure Spend where
  coordinate : JsString
  pubkey : JsString
  delta : Amounts
  now : Int

/-- The store after the calls. -/
def spent (spends : List Spend) : Store :=
  spends.foldl (fun s x => addUsage s x.coordinate x.pubkey x.delta x.now) {}

/-! ## What the window sees -/

/-- A component of the amounts. -/
inductive Component
  | bytes | durationSec | calls

def Amounts.get (a : Amounts) : Component → ℚ≥0
  | .bytes => a.bytes
  | .durationSec => a.durationSec
  | .calls => a.calls

/-- What the spends that meet a condition come to. -/
def total (spends : List Spend) (p : Spend → Bool) (c : Component) : ℚ≥0 := ((spends.filter p).map (·.delta.get c)).sum

section Total

variable {spends : List Spend} {p q r : Spend → Bool} {c : Component}

theorem total_append_singleton (spends : List Spend) (x : Spend) :
    total (spends ++ [x]) p c = total spends p c + if p x then x.delta.get c else 0 := by
  cases hp : p x <;> simp [total, List.filter_append, hp]

theorem total_congr (h : ∀ x ∈ spends, p x = q x) : total spends p c = total spends q c := by
  rw [total, total, List.filter_congr h]

/-- A condition that is one of two, not both, sums to both. -/
theorem total_split (hor : ∀ x ∈ spends, p x = (q x || r x)) (hand : ∀ x ∈ spends, (q x && r x) = false) :
    total spends p c = total spends q c + total spends r c := by
  induction spends using List.reverseRecOn with
  | nil => simp [total]
  | append_singleton l x ih =>
    have hx : x ∈ l ++ [x] := List.mem_append_right _ List.mem_cons_self
    have ih := ih (fun y hy => hor y (List.mem_append_left _ hy)) (fun y hy => hand y (List.mem_append_left _ hy))
    have hpx := hor x hx
    have hqx := hand x hx
    rw [total_append_singleton, total_append_singleton, total_append_singleton, ih, hpx]
    cases hq : q x <;> cases hr : r x <;> simp_all [add_assoc, add_left_comm, add_comm]

theorem total_eq_zero_iff : total spends p c = 0 ↔ ∀ x ∈ spends, p x = true → x.delta.get c = 0 := by
  rw [total, List.sum_eq_zero_iff]
  constructor
  · intro h x hx hp
    exact h _ (List.mem_map.2 ⟨x, List.mem_filter.2 ⟨hx, hp⟩, rfl⟩)
  · intro h a ha
    obtain ⟨x, hx, rfl⟩ := List.mem_map.1 ha
    exact h x (List.mem_filter.1 hx).1 (List.mem_filter.1 hx).2

end Total

/-! ## The buckets -/

variable {s : Store} {delta : Amounts} {now : Int} {c : Component} {p : Int → Bool}

theorem get_accumulate (delta : Amounts) (now : Int) (c : Component) :
    (accumulate delta now none).amounts.get c = delta.get c ∧
      ∀ row, (accumulate delta now (some row)).amounts.get c = row.amounts.get c + delta.get c := by
  cases c <;> exact ⟨rfl, fun _ => rfl⟩

/-- A spend adds to its hour, and the hours it drops are older than the retention. -/
theorem sum_addDaemonUsage (h : ∀ hour, p hour = true → hourOf now - daemonUsageRetentionHours ≤ hour) :
    (addDaemonUsage s delta now).daemonUsage.sum p (·.amounts.get c) =
      s.daemonUsage.sum p (·.amounts.get c) + if p (hourOf now) then delta.get c else 0 := by
  obtain ⟨hnew, hold⟩ := get_accumulate delta now c
  rw [addDaemonUsage, Keyed.sum_delete fun hour hp => by simpa using h hour hp]
  exact Keyed.sum_upsert (g := fun row : Row => row.amounts.get c) hnew hold

theorem hourOf_mono {a b : Int} (h : a ≤ b) : hourOf a ≤ hourOf b := Int.ediv_le_ediv (by decide) h

/-- **The hours that are kept hold what was spent in them.** -/
theorem sum_spent {spends : List Spend} (hsorted : spends.Pairwise (·.now ≤ ·.now)) (hnow : ∀ x ∈ spends, x.now ≤ now)
    (first : Int) (hfrom : hourOf now - daemonUsageRetentionHours ≤ first) :
    (spent spends).daemonUsage.sum (first ≤ ·) (·.amounts.get c) = total spends (first ≤ hourOf ·.now) c := by
  induction spends using List.reverseRecOn with
  | nil => simp [spent, total]
  | append_singleton l x ih =>
    have hx := hourOf_mono (hnow x (List.mem_append_right _ List.mem_cons_self))
    have ih := ih (List.pairwise_append.1 hsorted).1 fun y hy => hnow y (List.mem_append_left _ hy)
    have hstep : spent (l ++ [x]) = addUsage (spent l) x.coordinate x.pubkey x.delta x.now := by
      simp [spent, List.foldl_append]
    rw [hstep, addUsage, sum_addDaemonUsage fun hour hp => ?_, total_append_singleton]
    · exact congrArg (· + _) ih
    · have hp : first ≤ hour := by simpa using hp
      omega

/-! ## The window -/

section Window

variable {spends : List Spend} {w : Int}

/-- **What is counted**: what was spent in the hours from `windowHours - 1` before the current one on. -/
theorem getDaemonUsage_eq (hsorted : spends.Pairwise (·.now ≤ ·.now)) (hnow : ∀ x ∈ spends, x.now ≤ now)
    (hw : w ≤ daemonUsageRetentionHours) (c : Component) :
    (getDaemonUsage (spent spends) now w).get c =
      total spends (fun x => hourOf now - w + 1 ≤ hourOf x.now) c := by
  have h := sum_spent (c := c) hsorted hnow (hourOf now - w + 1) (by omega)
  cases c <;> exact h

/-- The spends of the last `hours` hours. -/
def within (now hours : Int) (x : Spend) : Bool := now - hours * 3600000 < x.now && x.now ≤ now

/-- The spends of the window that come before the first hour that is counted. -/
def missed (now w : Int) (x : Spend) : Bool :=
  now - w * 3600000 < x.now && x.now < (hourOf now - w + 1) * 3600000

theorem le_hourOf_iff {h t : Int} : h ≤ hourOf t ↔ h * 3600000 ≤ t := Int.le_ediv_iff_mul_le (by decide)

/-- **The window is what is counted and what is missed.** -/
theorem total_within (hnow : ∀ x ∈ spends, x.now ≤ now) (c : Component) :
    total spends (within now w) c =
      total spends (fun x => hourOf now - w + 1 ≤ hourOf x.now) c + total spends (missed now w) c := by
  have hhour : now < (hourOf now + 1) * 3600000 := by
    have := le_hourOf_iff (h := hourOf now + 1) (t := now)
    omega
  refine total_split (fun x hx => ?_) fun x hx => ?_
  · have hx := hnow x hx
    rw [Bool.eq_iff_iff]
    simp only [within, missed, Bool.or_eq_true, Bool.and_eq_true, decide_eq_true_eq, le_hourOf_iff]
    constructor
    · intro h
      omega
    · intro h
      omega
  · simp only [missed, Bool.and_eq_false_iff, decide_eq_false_iff_not, le_hourOf_iff]
    omega

theorem total_mono {spends : List Spend} {p q : Spend → Bool} (h : ∀ x ∈ spends, p x = true → q x = true) (c : Component) :
    total spends p c ≤ total spends q c := by
  have hsplit : total spends q c = total spends p c + total spends (fun x => q x && !p x) c := by
    refine total_split (fun x hx => ?_) fun x _ => ?_
    · have := h x hx
      cases hp : p x <;> cases hq : q x <;> simp_all
    · cases p x <;> simp
  rw [hsplit]
  exact le_self_add

/-- **Just when the ceiling sees every spend of its window**: where nothing is missed; and it never sees more than the window and
an hour before it. -/
theorem daemon_window_iff {spends : List Spend} {now w : Int} (hsorted : spends.Pairwise (·.now ≤ ·.now))
    (hnow : ∀ x ∈ spends, x.now ≤ now) (hw : w ≤ daemonUsageRetentionHours) :
    (∀ c, total spends (within now w) c ≤ (getDaemonUsage (spent spends) now w).get c ∧
        (getDaemonUsage (spent spends) now w).get c ≤ total spends (within now (w + 1)) c) ↔
      ∀ x ∈ spends, missed now w x = true → ∀ c, x.delta.get c = 0 := by
  have hupper : ∀ c, (getDaemonUsage (spent spends) now w).get c ≤ total spends (within now (w + 1)) c :=
    fun c => by
      rw [getDaemonUsage_eq hsorted hnow hw]
      have h := total_within (w := w) hnow c
      refine (le_self_add.trans_eq h.symm).trans (total_mono (fun x _ hx => ?_) c)
      simp only [within, Bool.and_eq_true, decide_eq_true_eq] at hx ⊢
      omega
  have hlower : ∀ c, total spends (within now w) c ≤ (getDaemonUsage (spent spends) now w).get c ↔
      total spends (missed now w) c = 0 := fun c => by
    rw [getDaemonUsage_eq hsorted hnow hw, total_within hnow, add_le_iff_nonpos_right, nonpos_iff_eq_zero]
  simp only [hupper, and_true, hlower, total_eq_zero_iff]
  exact ⟨fun h x hx hm c => h c x hx hm, fun h c x hx hm => h x hx hm c⟩

end Window

namespace Small

/-- A call of a provider at a minute of the day. -/
def call (minute : Int) : Spend := ⟨js "31923:a:meet", [], { calls := 1 }, minute * 60000⟩

end Small

/-- A call at 10:05 is seen at 10:10. -/
theorem daemon_window_iff_late : total [Small.call 605] (within (610 * 60000) 1) .calls ≤
    (getDaemonUsage (spent [Small.call 605]) (610 * 60000) 1).get .calls :=
  (((daemon_window_iff (by decide) (by decide) (by decide)).2 fun x hx hm => by
    rw [List.mem_singleton.1 hx] at hm
    exact absurd hm (by decide)) .calls).1

/-- **A call of twenty minutes ago is forgotten**: at 10:10, a window of an hour starts at 10:00. -/
theorem recent_call_missed : within (610 * 60000) 1 (Small.call 590) = true ∧
    total [Small.call 590] (within (610 * 60000) 1) .calls = 1 ∧
    (getDaemonUsage (spent [Small.call 590]) (610 * 60000) 1).calls = 0 := by
  have hseen : (getDaemonUsage (spent [Small.call 590]) (610 * 60000) 1).get .calls =
      total [Small.call 590] (fun x => hourOf (610 * 60000) - 1 + 1 ≤ hourOf x.now) .calls :=
    getDaemonUsage_eq (by decide) (by decide) (by decide) .calls
  refine ⟨by decide, ?_, hseen.trans ?_⟩
  · simp [total, within, Small.call, Amounts.get]
  · simp [total, Small.call, hourOf]

end Nostrautica.Usage
