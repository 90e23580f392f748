/-
`RefreshGuard` of `app/src/lib/stores/refresh-guard.svelte.ts`: a reload of the app for a new
version, deferred while components hold unsaved work.

A call runs without interruption, and so does the microtask that a release schedules. No reload takes
place over a hold that was not released, and none is lost: once all are released and the microtask has
run, the newest reload that was requested has taken place (`reloads_when_clear`).
-/
import Nostrautica.Js.Map
import Nostrautica.Js.Text
import Mathlib.Data.List.Count

namespace Nostrautica.RefreshGuard

open Js

/-- What a call of `hold` closes over. -/
structure Hold where
  reason : JsString
  released : Bool := false

/-- The guard, over the reloads `ρ`; the last three fields are a record of the calls. -/
structure Guard (ρ : Type*) where
  refs : JsMap JsString Nat := .empty
  refresh : Option ρ := none
  pending : Bool := false
  checkScheduled : Bool := false
  holds : List Hold := []
  requests : List ρ := []
  /-- The reloads that took place, and whether a hold was not released then. -/
  reloads : List (Bool × ρ) := []

inductive Act (ρ : Type*)
  | hold (reason : JsString)
  /-- The function that a call of `hold` returned. -/
  | release (k : Nat)
  | requestRefresh (refresh : ρ)
  | microtask

section

variable {ρ : Type*}

def Guard.dirty (g : Guard ρ) : Bool := g.refs.values.any fun n => 0 < n

/-- Some hold was not released. -/
def Guard.held (g : Guard ρ) : Bool := g.holds.any fun h => !h.released

/-- `maybeRefresh()`. -/
def Guard.maybeRefresh (g : Guard ρ) : Guard ρ :=
  if !g.pending || g.dirty then g
  else { g with pending := false, refresh := none, reloads := g.reloads ++ g.refresh.toList.map fun fn => (g.held, fn) }

/-- `hold(reason)`. -/
def Guard.hold (g : Guard ρ) (reason : JsString) : Guard ρ :=
  { g with refs := g.refs.set reason ((g.refs.get? reason).getD 0 + 1), holds := g.holds ++ [{ reason }] }

/-- The function that the call `k` of `hold` returned, with `scheduleRefreshCheck()`. -/
def Guard.release (g : Guard ρ) (k : Nat) : Guard ρ :=
  match g.holds[k]? with
  | none => g
  | some h =>
    if h.released then g
    else
      let n := (g.refs.get? h.reason).getD 1 - 1
      { g with
        refs := if n = 0 then g.refs.delete h.reason else g.refs.set h.reason n
        holds := g.holds.set k { h with released := true }
        checkScheduled := true }

/-- `requestRefresh(refresh)`. -/
def Guard.requestRefresh (g : Guard ρ) (refresh : ρ) : Guard ρ :=
  { g with refresh := some refresh, pending := true, requests := g.requests ++ [refresh] }.maybeRefresh

/-- The microtask of `scheduleRefreshCheck`, if there is one. -/
def Guard.microtask (g : Guard ρ) : Guard ρ := if g.checkScheduled then { g with checkScheduled := false }.maybeRefresh else g

def Guard.step (g : Guard ρ) : Act ρ → Guard ρ
  | .hold reason => g.hold reason
  | .release k => g.release k
  | .requestRefresh refresh => g.requestRefresh refresh
  | .microtask => g.microtask

def run (acts : List (Act ρ)) : Guard ρ := acts.foldl Guard.step {}

end

variable {ρ : Type*} {g : Guard ρ} {r : JsString}

/-! ## The counts -/

/-- A hold of this reason that was not released. -/
def holdsOf (r : JsString) (h : Hold) : Bool := h.reason = r && !h.released

/-- A number as it is stored: 0 is not. -/
def stored (n : Nat) : Option Nat := if n = 0 then none else some n

/-- The counts are those of the holds that were not released. -/
def Counted (refs : JsMap JsString Nat) (holds : List Hold) : Prop := ∀ r, refs.get? r = stored (holds.countP (holdsOf r))

theorem getD_stored (n : Nat) : (stored n).getD 0 = n := by
  unfold stored
  split_ifs with h
  · exact h.symm
  · rfl

theorem Counted.dirty (h : Counted g.refs g.holds) : g.dirty = g.held := by
  rw [Bool.eq_iff_iff, Guard.dirty, Guard.held, List.any_eq_true, List.any_eq_true]
  constructor
  · rintro ⟨n, hn, hpos⟩
    obtain ⟨r, hr⟩ := JsMap.get?_of_mem_values hn
    have hcount : 0 < g.holds.countP (holdsOf r) := by
      rw [h r, stored] at hr
      split_ifs at hr with hzero
      exact Nat.pos_of_ne_zero hzero
    obtain ⟨x, hx, hxr⟩ := List.countP_pos_iff.mp hcount
    exact ⟨x, hx, (Bool.and_eq_true_iff.mp hxr).2⟩
  · rintro ⟨x, hx, hreleased⟩
    have hpos : 0 < g.holds.countP (holdsOf x.reason) :=
      List.countP_pos_iff.mpr ⟨x, hx, Bool.and_eq_true_iff.mpr ⟨decide_eq_true rfl, hreleased⟩⟩
    have hget : g.refs.get? x.reason = some (g.holds.countP (holdsOf x.reason)) := by
      rw [h x.reason, stored, if_neg (Nat.ne_of_gt hpos)]
    refine ⟨g.holds.countP (holdsOf x.reason), ?_, decide_eq_true hpos⟩
    exact List.mem_map.mpr ⟨_, JsMap.get?_eq_some.mp hget, rfl⟩

theorem Counted.hold (h : Counted g.refs g.holds) (reason : JsString) : Counted (g.hold reason).refs (g.hold reason).holds := by
  intro r
  simp only [Guard.hold, JsMap.get?_set, List.countP_append, List.countP_singleton]
  by_cases hr : reason = r
  · subst hr
    have hone : holdsOf reason { reason } = true := Bool.and_eq_true_iff.mpr ⟨decide_eq_true rfl, rfl⟩
    rw [if_pos rfl, if_pos hone, h reason, getD_stored, stored, if_neg (Nat.succ_ne_zero _)]
  · have hnone : ¬ holdsOf r { reason } = true := fun hx => hr (of_decide_eq_true (Bool.and_eq_true_iff.mp hx).1)
    rw [if_neg hr, if_neg hnone, h r, Nat.add_zero]

/-- A hold that is released counts no more. -/
theorem countP_released {holds : List Hold} {k : Nat} {x : Hold} (hx : holds[k]? = some x) (r : JsString) :
    (holds.set k { x with released := true }).countP (holdsOf r) = holds.countP (holdsOf r) - if holdsOf r x then 1 else 0 := by
  obtain ⟨hk, hget⟩ := List.getElem?_eq_some_iff.mp hx
  have hreleased : holdsOf r { x with released := true } = false := Bool.and_false _
  rw [List.countP_set hk, hget, hreleased, if_neg Bool.false_ne_true, Nat.add_zero]

theorem Counted.release (h : Counted g.refs g.holds) (k : Nat) : Counted (g.release k).refs (g.release k).holds := by
  unfold Guard.release
  cases hx : g.holds[k]? with
  | none => exact h
  | some x =>
    dsimp only
    split_ifs with hreleased hlast
    · exact h
    all_goals
      have hpos : 0 < g.holds.countP (holdsOf x.reason) := List.countP_pos_iff.mpr
        ⟨x, List.mem_of_getElem? hx, Bool.and_eq_true_iff.mpr ⟨decide_eq_true rfl, by simpa using hreleased⟩⟩
      have hget : (g.refs.get? x.reason).getD 1 = g.holds.countP (holdsOf x.reason) := by
        rw [h x.reason, stored, if_neg (Nat.ne_of_gt hpos)]
        rfl
      have hself : holdsOf x.reason x = true := Bool.and_eq_true_iff.mpr ⟨decide_eq_true rfl, by simpa using hreleased⟩
      intro r
      rw [countP_released hx]
      rw [hget] at hlast
    · rw [JsMap.get?_delete]
      by_cases hr : r = x.reason
      · rw [if_pos hr, hr, if_pos hself, hlast]
        rfl
      · have hother : ¬ holdsOf r x = true := fun hx => hr (of_decide_eq_true (Bool.and_eq_true_iff.mp hx).1).symm
        rw [if_neg hr, if_neg hother, h r, Nat.sub_zero]
    · rw [JsMap.get?_set, hget]
      by_cases hr : x.reason = r
      · rw [if_pos hr, ← hr, if_pos hself, stored, if_neg hlast]
      · have hother : ¬ holdsOf r x = true := fun hx => hr (of_decide_eq_true (Bool.and_eq_true_iff.mp hx).1)
        rw [if_neg hr, if_neg hother, h r, Nat.sub_zero]

/-! ## Reloads -/

/-- What holds in every state. -/
structure Kept (g : Guard ρ) : Prop where
  counted : Counted g.refs g.holds
  pending : g.pending = g.refresh.isSome
  /-- A reload that waits, waits for a hold or for the microtask. -/
  waits : g.pending = true → g.held = true ∨ g.checkScheduled = true
  clean : ∀ x ∈ g.reloads, x.1 = false
  newest : g.requests.getLast? = g.refresh.or (g.reloads.map Prod.snd).getLast?
  order : (g.reloads.map Prod.snd ++ g.refresh.toList).Sublist g.requests

/-- The check puts right what the waiting is for. -/
theorem Kept.maybeRefresh (counted : Counted g.refs g.holds) (pending : g.pending = g.refresh.isSome) (clean : ∀ x ∈ g.reloads, x.1 = false)
    (newest : g.requests.getLast? = g.refresh.or (g.reloads.map Prod.snd).getLast?)
    (order : (g.reloads.map Prod.snd ++ g.refresh.toList).Sublist g.requests) : Kept g.maybeRefresh := by
  unfold Guard.maybeRefresh
  split_ifs with h
  · refine ⟨counted, pending, fun hp => .inl ?_, clean, newest, order⟩
    rwa [hp, Bool.not_true, Bool.false_or, counted.dirty] at h
  · rw [Bool.or_eq_true, not_or, Bool.not_eq_true', Bool.not_eq_false, Bool.not_eq_true] at h
    obtain ⟨hp, hdirty⟩ := h
    rw [counted.dirty] at hdirty
    obtain ⟨fn, hfn⟩ := Option.isSome_iff_exists.mp (pending.symm.trans hp)
    rw [hfn] at newest order ⊢
    refine ⟨counted, rfl, fun hp => (by cases hp), fun x hx => ?_, ?_, ?_⟩
    · rcases List.mem_append.mp hx with hx | hx
      · exact clean x hx
      · obtain rfl := List.mem_singleton.mp hx
        exact hdirty
    · rw [newest]
      simp
    · simpa using order

theorem Kept.step (h : Kept g) (act : Act ρ) : Kept (g.step act) := by
  cases act with
  | hold reason =>
    refine ⟨h.counted.hold reason, h.pending, fun _ => .inl ?_, h.clean, h.newest, h.order⟩
    exact List.any_eq_true.mpr ⟨{ reason }, List.mem_append_right _ List.mem_cons_self, rfl⟩
  | release k =>
    have hcounted := h.counted.release k
    simp only [Guard.step]
    unfold Guard.release at hcounted ⊢
    cases hx : g.holds[k]? with
    | none => exact h
    | some x =>
      rw [hx] at hcounted
      dsimp only at hcounted ⊢
      by_cases hreleased : x.released = true
      · rw [if_pos hreleased]
        exact h
      · rw [if_neg hreleased] at hcounted ⊢
        exact ⟨hcounted, h.pending, fun _ => .inr rfl, h.clean, h.newest, h.order⟩
  | requestRefresh fn =>
    refine Kept.maybeRefresh h.counted rfl h.clean ?_ ?_
    · simp
    · have horder : (g.reloads.map Prod.snd).Sublist g.requests := (List.sublist_append_left _ _).trans h.order
      exact horder.append (List.Sublist.refl _)
  | microtask =>
    simp only [Guard.step, Guard.microtask]
    split_ifs with hscheduled
    · exact Kept.maybeRefresh h.counted h.pending h.clean h.newest h.order
    · exact h

theorem kept_run (acts : List (Act ρ)) : Kept (run acts) := by
  induction acts using List.reverseRecOn with
  | nil => exact ⟨fun _ => rfl, rfl, fun h => (by cases h), fun _ hx => absurd hx List.not_mem_nil, rfl, List.Sublist.slnil⟩
  | append_singleton acts act ih =>
    rw [run, List.foldl_append]
    exact ih.step act

/-- **A reload waits for unsaved work, and no longer.** Whatever is held, released, requested and checked, in any order: no reload takes
place while a hold is not released; those that take place are requested ones, in their order and each once; and when all holds are
released and no microtask is due, the newest request has taken place. -/
theorem reloads_when_clear (acts : List (Act ρ)) :
    (∀ x ∈ (run acts).reloads, x.1 = false) ∧ ((run acts).reloads.map Prod.snd).Sublist (run acts).requests ∧
    ((run acts).held = false → (run acts).checkScheduled = false →
      (run acts).refresh = none ∧ ((run acts).reloads.map Prod.snd).getLast? = (run acts).requests.getLast?) := by
  have h := kept_run acts
  refine ⟨h.clean, (List.sublist_append_left _ _).trans h.order, fun hheld hscheduled => ?_⟩
  have hpending : (run acts).pending = false := by
    by_contra hp
    rcases h.waits (Bool.not_eq_false _ ▸ hp) with hw | hw
    · rw [hheld] at hw
      cases hw
    · rw [hscheduled] at hw
      cases hw
  have hnone : (run acts).refresh = none := Option.not_isSome_iff_eq_none.mp (by rw [← h.pending, hpending]; exact Bool.false_ne_true)
  refine ⟨hnone, ?_⟩
  rw [h.newest, hnone, Option.none_or]

end Nostrautica.RefreshGuard
