/-
`startScanBudget` of `app/src/lib/events/scan-budget.ts`: scanners that share an allowance of signer
calls, each with a clock of its own.

However many calls the sweeps of low priority ask for, those that can restore a key have `reserve`
calls left, and a scanner has its own time for them (`reserve_kept`).
-/
import Mathlib.Data.List.Count
import Mathlib.Data.List.Induction

namespace Nostrautica.ScanBudget

inductive ScanPriority
  | normal | low
  deriving DecidableEq

/-- The options, with the reserve as it is asked for. -/
structure Options where
  budgetMs : Int := 10000
  maxCalls : Nat := 50
  lowPriorityReserve : Nat := 20

def Options.reserve (o : Options) : Nat := min o.lowPriorityReserve o.maxCalls

/-- A claim that was granted. -/
structure Claim where
  scanner : Nat
  priority : ScanPriority
  moment : Int

/-- What the forks of a budget share, their clocks, and the claims for the record. -/
structure Budget where
  spent : Nat := 0
  startedAt : Nat → Option Int := fun _ => none
  claims : List Claim := []

def Options.cap (o : Options) : ScanPriority → Nat
  | .low => o.maxCalls - o.reserve
  | .normal => o.maxCalls

/-- `take(priority)` of the fork `k`. -/
def Budget.take (o : Options) (s : Budget) (k : Nat) (priority : ScanPriority) (now : Int) : Bool × Budget :=
  if o.cap priority ≤ s.spent then (false, s)
  else
    let startedAt := (s.startedAt k).getD now
    let s := { s with startedAt := Function.update s.startedAt k (some startedAt) }
    if o.budgetMs ≤ now - startedAt then (false, s)
    else (true, { s with spent := s.spent + 1, claims := s.claims ++ [⟨k, priority, now⟩] })

/-- A call of `take`: of which fork, and when. -/
structure Call where
  scanner : Nat
  priority : ScanPriority
  now : Int

def run (o : Options) (calls : List Call) : Budget := calls.foldl (fun s c => (s.take o c.scanner c.priority c.now).2) {}

variable {o : Options} {s : Budget}

def isNormal (c : Claim) : Bool := c.priority = .normal

/-- What holds after any calls. -/
structure Kept (o : Options) (s : Budget) : Prop where
  spent : s.spent = s.claims.length
  capped : s.spent ≤ o.maxCalls
  /-- What is spent past the cap of the low priority is spent by the normal one. -/
  low : s.spent ≤ o.maxCalls - o.reserve + s.claims.countP isNormal
  inTime : ∀ c ∈ s.claims, ∃ t, s.startedAt c.scanner = some t ∧ c.moment - t < o.budgetMs

theorem Kept.take (h : Kept o s) (k : Nat) (priority : ScanPriority) (now : Int) : Kept o (s.take o k priority now).2 := by
  unfold Budget.take
  split_ifs with hcap
  · exact h
  have hcapped : s.spent < o.cap priority := Nat.lt_of_not_le hcap
  -- a clock that runs is not set again
  have hclock : ∀ c ∈ s.claims, ∃ t, Function.update s.startedAt k (some ((s.startedAt k).getD now)) c.scanner = some t ∧
      c.moment - t < o.budgetMs := by
    intro c hc
    obtain ⟨t, ht, hin⟩ := h.inTime c hc
    refine ⟨t, ?_, hin⟩
    by_cases hk : c.scanner = k
    · rw [hk] at ht ⊢
      rw [Function.update_self, ht]
      rfl
    · rw [Function.update_of_ne hk, ht]
  dsimp only
  split_ifs with hlate
  · exact ⟨h.spent, h.capped, h.low, hclock⟩
  · refine ⟨?_, ?_, ?_, fun c hc => ?_⟩
    · rw [h.spent, List.length_append, List.length_singleton]
    · have hle : o.cap priority ≤ o.maxCalls := by
        cases priority with
        | normal => exact Nat.le_refl _
        | low => exact Nat.sub_le _ _
      exact Nat.lt_of_lt_of_le hcapped hle
    · have hlow := h.low
      rw [List.countP_append, List.countP_singleton]
      cases priority with
      | normal =>
        have hone : isNormal ⟨k, .normal, now⟩ = true := rfl
        rw [if_pos hone, ← Nat.add_assoc]
        exact Nat.succ_le_succ hlow
      | low =>
        have hnone : ¬ isNormal ⟨k, .low, now⟩ = true := Bool.false_ne_true
        rw [if_neg hnone]
        exact Nat.le_add_right_of_le hcapped
    · rcases List.mem_append.mp hc with hc | hc
      · exact hclock c hc
      · rw [List.mem_singleton.mp hc]
        exact ⟨(s.startedAt k).getD now, Function.update_self .., Int.lt_of_not_ge hlate⟩

theorem kept_run (o : Options) (calls : List Call) : Kept o (run o calls) := by
  induction calls using List.reverseRecOn with
  | nil => exact ⟨rfl, Nat.zero_le _, Nat.zero_le _, fun _ hc => absurd hc List.not_mem_nil⟩
  | append_singleton calls c ih =>
    rw [run, List.foldl_append]
    exact ih.take c.scanner c.priority c.now

/-- **The reserve is kept.** Whatever the scanners call, in any order and at any times: no more than `maxCalls` claims are granted, those of
a scanner within `budgetMs` of its start; and while fewer than `reserve` claims of normal priority were granted, another one is, to every
scanner whose own time is not over. -/
theorem reserve_kept (o : Options) (calls : List Call) :
    (run o calls).claims.length ≤ o.maxCalls ∧
    (∀ c ∈ (run o calls).claims, ∃ t, (run o calls).startedAt c.scanner = some t ∧ c.moment - t < o.budgetMs) ∧
    ∀ k now, (run o calls).claims.countP isNormal < o.reserve → now - ((run o calls).startedAt k).getD now < o.budgetMs →
      ((run o calls).take o k .normal now).1 = true := by
  have h := kept_run o calls
  refine ⟨h.spent ▸ h.capped, h.inTime, fun k now hfew htime => ?_⟩
  have hle : o.reserve ≤ o.maxCalls := Nat.min_le_right _ _
  have hroom : ¬ o.maxCalls ≤ (run o calls).spent := by
    have := h.low
    omega
  unfold Budget.take
  rw [Options.cap, if_neg hroom]
  dsimp only
  rw [if_neg (Int.not_le.mpr htime)]

end Nostrautica.ScanBudget
