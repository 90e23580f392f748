/-
One leader (`one_leader`). A coordinator leads by the lock or, where its own lock request was
rejected, by the ping election. `Fine` says of each coordinator which of the two it may be, and
`Sound` that the lock and the queue agree with the requests; a callback that runs after `dispose`
gives the lock back, so it can always be granted on (`Sound.released`).
-/
import Nostrautica.App.TabLeader
import Nostrautica.Transition.Run

set_option linter.unusedSectionVars false

namespace Nostrautica.TabLeader

section

variable {τ ω : Type} [DecidableEq τ] {e e' : Election τ} {w w' : World τ ω} {x : Act τ ω} {acts : List (Act τ ω)}
  {c v : Coordinator τ} {i j : Nat} {reqId : ReqId}

/-! ## Coordinators -/

/-- Has the lock. -/
def LockRequest.Has (r : LockRequest) : Prop := r = .granted ∨ r = .holding

/-- What may be said of a coordinator. -/
structure Fine (c : Coordinator τ) : Prop where
  holding : c.request = .holding → c.role = .leader ∧ c.disposed = false
  queued : c.request = .queued → c.role = .follower ∧ c.disposed = false
  leader : c.role = .leader → c.request = .holding ∨ c.lockRequestFailed = true ∨ c.disposed = true
  failed : c.lockRequestFailed = true → c.request = .over
  pinging : c.pinging = true → c.lockRequestFailed = true

/-- The lock and its queue are as the requests of the coordinators have it. -/
structure Sound (e : Election τ) : Prop where
  fine : ∀ i c, e.coords i = some c → Fine c
  lock : ∀ i c, e.coords i = some c → (e.lock = some i ↔ c.request.Has)
  live : ∀ i, e.lock = some i → ∃ c, e.coords i = some c
  queue : ∀ i c, e.coords i = some c → (i ∈ e.queue ↔ c.request = .queued)
  waits : ∀ i ∈ e.queue, ∃ c, e.coords i = some c
  nodup : e.queue.Nodup
  next : ∀ i, e.next ≤ i → e.coords i = none

theorem sound_start : Sound ({} : Election τ) where
  fine _ _ h := by cases h
  lock _ _ h := by cases h
  live _ h := by cases h
  queue _ _ h := by cases h
  waits _ h := by cases h
  nodup := List.nodup_nil
  next _ _ := rfl

/-- A coordinator has come to `v`, and the lock and the queue with it. -/
theorem Sound.set (hs : Sound e) (hc : e.coords i = some c) (hcoords : e'.coords = Function.update e.coords i (some v))
    (hnext : e'.next = e.next) (hfine : Fine v) (hlock : e'.lock = some i ↔ v.request.Has)
    (hlocks : ∀ j, j ≠ i → (e'.lock = some j ↔ e.lock = some j)) (hqueue : i ∈ e'.queue ↔ v.request = .queued)
    (hqueues : ∀ j, j ≠ i → (j ∈ e'.queue ↔ j ∈ e.queue)) (hnodup : e'.queue.Nodup) : Sound e' := by
  have hself : e'.coords i = some v := by rw [hcoords, Function.update_self]
  have hother : ∀ j, j ≠ i → e'.coords j = e.coords j := fun j hj => by rw [hcoords, Function.update_of_ne hj]
  refine ⟨fun j d hd => ?_, fun j d hd => ?_, fun j hj => ?_, fun j d hd => ?_, fun j hj => ?_, hnodup, fun j hj => ?_⟩
  · by_cases hji : j = i
    · subst hji
      cases hself.symm.trans hd
      exact hfine
    · exact hs.fine j d ((hother j hji).symm.trans hd)
  · by_cases hji : j = i
    · subst hji
      cases hself.symm.trans hd
      exact hlock
    · rw [hlocks j hji]
      exact hs.lock j d ((hother j hji).symm.trans hd)
  · by_cases hji : j = i
    · exact ⟨v, hji ▸ hself⟩
    · rw [hother j hji]
      exact hs.live j ((hlocks j hji).1 hj)
  · by_cases hji : j = i
    · subst hji
      cases hself.symm.trans hd
      exact hqueue
    · rw [hqueues j hji]
      exact hs.queue j d ((hother j hji).symm.trans hd)
  · by_cases hji : j = i
    · exact ⟨v, hji ▸ hself⟩
    · rw [hother j hji]
      exact hs.waits j ((hqueues j hji).1 hj)
  · have hnone := hs.next j (hnext ▸ hj)
    by_cases hji : j = i
    · rw [hji, hc] at hnone
      cases hnone
    · rw [hother j hji, hnone]

/-- A coordinator has changed, but not whether its request has the lock or waits for it. -/
theorem Sound.keep (hs : Sound e) (hc : e.coords i = some c) (hcoords : e'.coords = Function.update e.coords i (some v))
    (hnext : e'.next = e.next) (hlock : e'.lock = e.lock) (hqueue : e'.queue = e.queue) (hfine : Fine v)
    (hhas : v.request.Has ↔ c.request.Has) (hwait : v.request = .queued ↔ c.request = .queued) : Sound e' := by
  refine hs.set hc hcoords hnext hfine ?_ (fun j _ => by rw [hlock]) ?_ (fun j _ => by rw [hqueue]) (hqueue ▸ hs.nodup)
  · rw [hlock, hs.lock i c hc, hhas]
  · rw [hqueue, hs.queue i c hc, hwait]

theorem post_election (i : Nat) (c : Coordinator τ) (msg : Wire ω) : (post w i c msg).toElection = w.toElection := by
  rw [post]
  split <;> rfl

/-- A coordinator whose lock request has failed leads. -/
theorem Fine.leads (hf : Fine c) (hfailed : c.lockRequestFailed = true) : Fine { c with role := .leader, settled := true } where
  holding h := by
    have := hf.failed hfailed
    exact absurd (this.symm.trans h) (by decide)
  queued h := by
    have := hf.failed hfailed
    exact absurd (this.symm.trans h) (by decide)
  leader _ := .inr (.inl hfailed)
  failed := hf.failed
  pinging := hf.pinging

theorem Sound.becomeLeader (hs : Sound w.toElection) (hc : w.coords i = some v) (hf : Fine c) (hfailed : c.lockRequestFailed = true)
    (hhas : c.request.Has ↔ v.request.Has) (hwait : c.request = .queued ↔ v.request = .queued) :
    Sound (becomeLeader w i c).toElection := by
  rw [TabLeader.becomeLeader]
  split
  · exact hs.keep hc rfl rfl rfl rfl hf hhas hwait
  · rw [post_election]
    exact hs.keep hc rfl rfl rfl rfl (hf.leads hfailed) hhas hwait

/-! ## Steps -/

/-- A coordinator becomes a follower, outside the lock's queue. -/
theorem Fine.follows (hf : Fine c) (hrequest : c.request = .over) : Fine (becomeFollower c) := by
  rw [becomeFollower]
  split
  · exact hf
  · exact ⟨fun h => absurd (hrequest.symm.trans h) (by decide), fun h => absurd (hrequest.symm.trans h) (by decide),
      fun h => (by cases h), hf.failed, hf.pinging⟩

theorem request_becomeFollower : (becomeFollower c).request = c.request := by
  rw [becomeFollower]
  split <;> rfl

theorem Sound.handleWire (hs : Sound w.toElection) (hc : w.coords i = some c) (msg : Wire ω) :
    Sound (handleWire w i c msg).toElection := by
  cases msg with
  | leaderHello =>
    simp only [TabLeader.handleWire]
    split
    · next h =>
      have hf := hs.fine i c hc
      have hfailed : c.lockRequestFailed = true := by
        simp only [Coordinator.usingWebLocks, Bool.not_not, Bool.and_eq_true] at h
        exact h.1
      refine hs.keep hc rfl rfl rfl rfl (hf.follows (hf.failed hfailed)) ?_ ?_ <;> rw [request_becomeFollower]
    · exact hs
  | whoLeads =>
    simp only [TabLeader.handleWire]
    split
    · rw [post_election]
      exact hs
    · exact hs
  | request reqId op =>
    simp only [TabLeader.handleWire]
    split <;> exact hs
  | ack reqId error =>
    simp only [TabLeader.handleWire]
    split
    · have hf := hs.fine i c hc
      exact hs.keep hc rfl rfl rfl rfl ⟨hf.holding, hf.queued, hf.leader, hf.failed, hf.pinging⟩ Iff.rfl Iff.rfl
    · exact hs

theorem Sound.dispose (hs : Sound w.toElection) (hc : w.coords i = some c) : Sound (dispose w i c).toElection := by
  have hf := hs.fine i c hc
  refine hs.set (v := _) hc rfl rfl ?_ ?_ ?_ ?_ ?_ (hs.nodup.filter _)
  · refine ⟨fun h => ?_, fun h => ?_, fun _ => .inr (.inr rfl), fun h => ?_, hf.pinging⟩
    · simp only at h
      split at h
      · cases h
      · next hn => exact absurd (.inl h) hn
    · simp only at h
      split at h
      · cases h
      · next hn => exact absurd (.inr h) hn
    · simp only
      split
      · rfl
      · exact hf.failed h
  · simp only [LockRequest.Has]
    by_cases hh : c.request = .holding
    · simp [TabLeader.dispose, hh]
    · have hlock := hs.lock i c hc
      simp only [LockRequest.Has, hh, or_false] at hlock
      simp only [TabLeader.dispose, setCoord, hh, if_false, false_or, hlock]
      split
      · next hq => simp [hq]
      · simp [hh]
  · intro j hji
    simp only [TabLeader.dispose, setCoord]
    split
    · next hh =>
      have hlock := (hs.lock i c hc).2 (.inr hh)
      rw [hlock]
      simp [Ne.symm hji]
    · rfl
  · simp only [TabLeader.dispose, setCoord, List.mem_filter, decide_not, Bool.not_eq_true', decide_eq_false_iff_not]
    constructor
    · exact fun h => absurd trivial h.2
    · intro h
      split at h
      · cases h
      · next hn => exact absurd (.inr h) hn
  · intro j hji
    simp [TabLeader.dispose, setCoord, hji]

/-- Every step keeps the lock and the queue as the requests have them. -/
theorem Sound.step (hs : Sound w.toElection) (h : Step w x w') : Sound w'.toElection := by
  cases x with
  | construct t channel =>
    cases h
    have hnone := hs.next w.next le_rfl
    have hcoord : ∀ j, j ≠ w.next → (Function.update w.coords w.next (some { tab := t, channel })) j = w.coords j :=
      fun j hj => Function.update_of_ne hj _ _
    have hlive : ∀ j, (∃ c, w.coords j = some c) → j ≠ w.next := by
      rintro j ⟨c, hc⟩ rfl
      rw [hnone] at hc
      cases hc
    refine ⟨fun j d hd => ?_, fun j d hd => ?_, fun j hj => ?_, fun j d hd => ?_, fun j hj => ?_, hs.nodup, fun j hj => ?_⟩
    · by_cases hj : j = w.next
      · subst hj
        simp only [setCoord, Function.update_self] at hd
        cases hd
        exact ⟨fun h => (by cases h), fun h => (by cases h), fun h => (by cases h), fun h => (by cases h), fun h => by cases h⟩
      · exact hs.fine j d ((hcoord j hj).symm.trans hd)
    · by_cases hj : j = w.next
      · subst hj
        simp only [setCoord, Function.update_self] at hd
        cases hd
        refine ⟨fun hl => absurd rfl (hlive _ (hs.live _ hl)), fun hh => ?_⟩
        rcases hh with hh | hh <;> cases hh
      · exact hs.lock j d ((hcoord j hj).symm.trans hd)
    · obtain ⟨c, hc⟩ := hs.live j hj
      exact ⟨c, (hcoord j (hlive j ⟨c, hc⟩)).trans hc⟩
    · by_cases hj : j = w.next
      · subst hj
        simp only [setCoord, Function.update_self] at hd
        cases hd
        exact ⟨fun hq => absurd rfl (hlive _ (hs.waits _ hq)), fun hq => by cases hq⟩
      · exact hs.queue j d ((hcoord j hj).symm.trans hd)
    · obtain ⟨c, hc⟩ := hs.waits j hj
      exact ⟨c, (hcoord j (hlive j ⟨c, hc⟩)).trans hc⟩
    · have hle : w.next + 1 ≤ j := hj
      exact (hcoord j (by omega)).trans (hs.next j (by omega))
  | crash t =>
    cases h
    have hold : ∀ {j d}, (w.coords j).filter (·.tab ≠ t) = some d → w.coords j = some d :=
      fun hd => (Option.filter_eq_some_iff.1 hd).1
    have hlive : ∀ j d, (w.coords j).filter (·.tab ≠ t) = some d → (w.coords j).any (·.tab ≠ t) = true := fun j d hd => by
      obtain ⟨hc, ht⟩ := Option.filter_eq_some_iff.1 hd
      rw [hc]
      exact ht
    have hkept : ∀ j, (w.coords j).any (·.tab ≠ t) = true → ∃ d, (w.coords j).filter (·.tab ≠ t) = some d := fun j hj => by
      cases hd : w.coords j with
      | none =>
        rw [hd] at hj
        cases hj
      | some d =>
        rw [hd] at hj
        exact ⟨d, Option.filter_eq_some_iff.2 ⟨rfl, hj⟩⟩
    refine ⟨fun j d hd => hs.fine j d (hold hd), fun j d hd => ?_, fun j hj => ?_, fun j d hd => ?_, fun j hj => ?_,
      hs.nodup.filter _, fun j hj => ?_⟩
    · rw [← hs.lock j d (hold hd)]
      simp only [Option.filter_eq_some_iff]
      exact and_iff_left (hlive j d hd)
    · exact hkept j (Option.filter_eq_some_iff.1 hj).2
    · rw [← hs.queue j d (hold hd), List.mem_filter]
      exact and_iff_left (hlive j d hd)
    · exact hkept j (List.mem_filter.1 hj).2
    · simp only [hs.next j hj, Option.filter_none]
  | probe i =>
    simp only [Step, act] at h
    split at h
    next c hc =>
      split at h
      next hprobing =>
        have hf := hs.fine i c hc
        split at h <;> cases h
        next hfree =>
          refine hs.set (v := { c with request := .granted }) hc rfl rfl ?_ (by simp [LockRequest.Has]) (fun j hj => ?_) ?_
            (fun _ _ => Iff.rfl) hs.nodup
          · exact ⟨fun h => (by cases h), fun h => (by cases h),
              fun hl => (hf.leader hl).imp (fun hh => absurd (hprobing.symm.trans hh) (by decide)) id,
              fun hfail => absurd (hprobing.symm.trans (hf.failed hfail)) (by decide), hf.pinging⟩
          · simp [hfree.1, Ne.symm hj]
          · simp [setCoord, hfree.2]
        next =>
          refine hs.keep (v := { c with request := .refused }) hc rfl rfl rfl rfl ?_ (by simp [LockRequest.Has, hprobing])
            (by simp [hprobing])
          exact ⟨fun h => (by cases h), fun h => (by cases h),
            fun hl => (hf.leader hl).imp (fun hh => absurd (hprobing.symm.trans hh) (by decide)) id,
            fun hfail => absurd (hprobing.symm.trans (hf.failed hfail)) (by decide), hf.pinging⟩
      · cases h
    · cases h
  | grant =>
    simp only [Step, act] at h
    split at h
    next i queue hlock hqueue =>
      split at h
      next c hc =>
        cases h
        have hf := hs.fine i c hc
        have hwait := (hs.queue i c hc).1 (hqueue ▸ List.mem_cons_self)
        have hnodup := hqueue ▸ hs.nodup
        refine hs.set (v := { c with request := .granted }) hc rfl rfl ?_ (by simp [LockRequest.Has]) (fun j hj => ?_) ?_
          (fun j hj => ?_) (List.nodup_cons.1 hnodup).2
        · exact ⟨fun h => (by cases h), fun h => (by cases h),
            fun hl => absurd ((hf.queued hwait).1.symm.trans hl) (by decide),
            fun hfail => absurd (hwait.symm.trans (hf.failed hfail)) (by decide), hf.pinging⟩
        · simp [hlock, Ne.symm hj]
        · simpa using (List.nodup_cons.1 hnodup).1
        · simp [hqueue, hj]
      · cases h
    · cases h
  | callback i =>
    simp only [Step, act] at h
    split at h
    next c hc =>
      have hf := hs.fine i c hc
      split at h
      next hgranted =>
        have hlock := (hs.lock i c hc).2 (.inl hgranted)
        have hnotin : i ∉ w.queue := fun hq => absurd (hgranted.symm.trans ((hs.queue i c hc).1 hq)) (by decide)
        split at h <;> cases h
        next hdisposed =>
          refine hs.set (v := { c with request := .over }) hc rfl rfl ?_ (by simp [LockRequest.Has]) (fun j hj => ?_)
            (by simpa [setCoord] using hnotin) (fun _ _ => Iff.rfl) hs.nodup
          · exact ⟨fun h => (by cases h), fun h => (by cases h), fun _ => .inr (.inr hdisposed), fun _ => rfl, hf.pinging⟩
          · simp [hlock, Ne.symm hj]
        next hdisposed =>
          have hrole : c.role ≠ .leader := fun hl => by
            rcases hf.leader hl with hh | hh | hh
            · exact absurd (hgranted.symm.trans hh) (by decide)
            · exact absurd (hgranted.symm.trans (hf.failed hh)) (by decide)
            · exact hdisposed hh
          rw [TabLeader.becomeLeader, if_neg (by simp [hdisposed, hrole]), post_election]
          refine hs.keep (v := { c with request := .holding, role := .leader, settled := true }) hc rfl rfl rfl rfl ?_
            (by simp [LockRequest.Has, hgranted]) (by simp [hgranted])
          exact ⟨fun _ => ⟨rfl, by simpa using hdisposed⟩, fun h => (by cases h), fun _ => .inl rfl,
            fun hfail => absurd (hgranted.symm.trans (hf.failed hfail)) (by decide), hf.pinging⟩
      next hrefused =>
        split at h <;> cases h
        next hdisposed =>
          refine hs.keep (v := { c with request := .over }) hc rfl rfl rfl rfl ?_ (by simp [LockRequest.Has, hrefused]) (by simp [hrefused])
          exact ⟨fun h => (by cases h), fun h => (by cases h), fun _ => .inr (.inr hdisposed), fun _ => rfl, hf.pinging⟩
        next hdisposed =>
          have hlock : w.lock ≠ some i := fun hl => by
            rcases (hs.lock i c hc).1 hl with hh | hh <;> exact absurd (hrefused.symm.trans hh) (by decide)
          have hnotin : i ∉ w.queue := fun hq => absurd (hrefused.symm.trans ((hs.queue i c hc).1 hq)) (by decide)
          refine hs.set (v := becomeFollower { c with request := .queued }) hc rfl rfl ?_ ?_ (fun _ _ => Iff.rfl) ?_
            (fun j hj => ?_) ?_
          · rw [becomeFollower]
            split
            next hfollower =>
              refine ⟨fun h => (by cases h), fun _ => ⟨?_, by simpa using hdisposed⟩, fun hl => ?_, fun hfail => ?_, hf.pinging⟩
              · exact hfollower.resolve_left hdisposed
              · exact absurd ((hfollower.resolve_left hdisposed).symm.trans hl) (by decide)
              · exact absurd (hrefused.symm.trans (hf.failed hfail)) (by decide)
            next =>
              exact ⟨fun h => (by cases h), fun _ => ⟨rfl, by simpa using hdisposed⟩, fun hl => (by cases hl),
                fun hfail => absurd (hrefused.symm.trans (hf.failed hfail)) (by decide), hf.pinging⟩
          · rw [request_becomeFollower]
            simpa [LockRequest.Has, setCoord] using hlock
          · rw [request_becomeFollower]
            simp
          · simp [hj]
          · exact List.nodup_append.2 ⟨hs.nodup, List.nodup_singleton i, fun a ha b hb => by
              rw [List.mem_singleton.1 hb]
              exact fun he => hnotin (he ▸ ha)⟩
      · cases h
    · cases h
  | reject i =>
    simp only [Step, act] at h
    split at h
    next c hc =>
      have hf := hs.fine i c hc
      split at h
      next hprobing =>
        have hrole : ∀ {p : Prop}, c.role = .leader → c.disposed = true ∨ p := fun hl => by
          rcases hf.leader hl with hh | hh | hh
          · exact absurd (hprobing.symm.trans hh) (by decide)
          · exact absurd (hprobing.symm.trans (hf.failed hh)) (by decide)
          · exact .inl hh
        have hhas : LockRequest.over.Has ↔ c.request.Has := by simp [LockRequest.Has, hprobing]
        have hwait : LockRequest.over = .queued ↔ c.request = .queued := by simp [hprobing]
        split at h <;> cases h
        next =>
          refine hs.keep (v := { c with request := .over }) hc rfl rfl rfl rfl ?_ hhas hwait
          exact ⟨fun h => (by cases h), fun h => (by cases h), fun hl => .inr (.inr ((hrole (p := False) hl).resolve_right id)),
            fun _ => rfl, hf.pinging⟩
        next =>
          have hfailed : Fine { c with request := .over, lockRequestFailed := true } :=
            ⟨fun h => (by cases h), fun h => (by cases h), fun _ => .inr (.inl rfl), fun _ => rfl, fun _ => rfl⟩
          rw [electWithPing]
          split
          · rw [post_election]
            refine hs.keep hc rfl rfl rfl rfl ?_ hhas hwait
            exact ⟨fun h => (by cases h), fun h => (by cases h), fun _ => .inr (.inl rfl), fun _ => rfl, fun _ => rfl⟩
          · exact hs.becomeLeader hc hfailed rfl hhas hwait
      · cases h
    · cases h
  | rejectTakeover i =>
    simp only [Step, act] at h
    split at h
    next c hc =>
      have hf := hs.fine i c hc
      split at h <;> cases h
      next hqueued =>
        have hlock : w.lock ≠ some i := fun hl => by
          rcases (hs.lock i c hc).1 hl with hh | hh <;> exact absurd (hqueued.symm.trans hh) (by decide)
        refine hs.set (v := { c with request := .over }) hc rfl rfl ?_ (by simpa [LockRequest.Has, setCoord] using hlock)
          (fun _ _ => Iff.rfl) (by simp) (fun j hj => by simp [hj]) (hs.nodup.filter _)
        exact ⟨fun h => (by cases h), fun h => (by cases h),
          fun hl => absurd ((hf.queued hqueued).1.symm.trans hl) (by decide), fun _ => rfl, hf.pinging⟩
    · cases h
  | window i =>
    simp only [Step, act] at h
    split at h
    next c hc =>
      have hf := hs.fine i c hc
      split at h
      next hping =>
        have hfine : Fine { c with pinging := false } := ⟨hf.holding, hf.queued, hf.leader, hf.failed, fun h => by cases h⟩
        split at h <;> cases h
        · exact hs.keep hc rfl rfl rfl rfl hfine Iff.rfl Iff.rfl
        · exact hs.becomeLeader hc hfine (hf.pinging hping) Iff.rfl Iff.rfl
      · cases h
    · cases h
  | deliver i =>
    simp only [Step, act] at h
    split at h
    · next c msg rest hc hinbox =>
      cases h
      exact Sound.handleWire (w := { w with inbox := Function.update w.inbox i rest }) hs hc msg
    · cases h
  | proxy i now op =>
    simp only [Step, act] at h
    split at h
    next c hc =>
      have hf := hs.fine i c hc
      split at h <;> cases h
      rw [post_election]
      exact hs.keep hc rfl rfl rfl rfl ⟨hf.holding, hf.queued, hf.leader, hf.failed, hf.pinging⟩ Iff.rfl Iff.rfl
    · cases h
  | timeout i reqId =>
    simp only [Step, act] at h
    split at h
    next c hc =>
      have hf := hs.fine i c hc
      split at h <;> cases h
      exact hs.keep hc rfl rfl rfl rfl ⟨hf.holding, hf.queued, hf.leader, hf.failed, hf.pinging⟩ Iff.rfl Iff.rfl
    · cases h
  | finish k error =>
    simp only [Step, act] at h
    split at h
    · split at h <;> cases h
      split
      · exact hs
      · rw [post_election]
        exact hs
    · cases h
  | dispose i =>
    simp only [Step, act] at h
    split at h
    next c hc =>
      split at h <;> cases h
      · exact hs
      · exact hs.dispose hc
    · cases h

theorem sound_run (h : Run Step w acts w') (hs : Sound w.toElection) : Sound w'.toElection :=
  h.invariant (I := fun w => Sound w.toElection) (fun _ _ _ hs ha => hs.step ha) hs

/-! ## Leaders -/

/-- The lock can be given back, by a callback that is still to run and the end of the leader. -/
theorem Sound.released (hs : Sound w.toElection) :
    ∃ acts w', Run Step w acts w' ∧ Sound w'.toElection ∧ w'.lock = none ∧ w'.queue = w.queue := by
  cases hlock : w.lock with
  | none => exact ⟨[], w, .nil, hs, hlock, rfl⟩
  | some j =>
    obtain ⟨c, hc⟩ := hs.live j hlock
    have hnotin : j ∉ w.queue := fun hq => by
      have hwait := (hs.queue j c hc).1 hq
      rcases (hs.lock j c hc).1 hlock with hh | hh <;> exact absurd (hwait.symm.trans hh) (by decide)
    have hend : ∀ {v : World τ ω} {d : Coordinator τ}, v.coords j = some d → d.request = .holding → d.disposed = false → j ∉ v.queue →
        ∃ v', Step v (.dispose j) v' ∧ v'.lock = none ∧ v'.queue = v.queue := by
      intro v d hd hholding hdisposed hv
      refine ⟨TabLeader.dispose v j d, by simp [Step, act, hd, hdisposed], by simp [TabLeader.dispose, hholding], ?_⟩
      exact List.filter_eq_self.2 fun k hk => by simpa using fun he : k = j => hv (he ▸ hk)
    rcases (hs.lock j c hc).1 hlock with hgranted | hholding
    · by_cases hdisposed : c.disposed = true
      · have hstep : Step w (.callback j) { setCoord w j { c with request := .over } with lock := none } := by
          simp [Step, act, hc, hgranted, hdisposed]
        exact ⟨[_], _, .cons hstep .nil, hs.step hstep, rfl, rfl⟩
      · have hstep : Step w (.callback j) (TabLeader.becomeLeader w j { c with request := .holding }) := by
          simp [Step, act, hc, hgranted, hdisposed]
        have hs1 := hs.step hstep
        have hlock1 : (TabLeader.becomeLeader w j { c with request := .holding }).lock = some j ∧
            (TabLeader.becomeLeader w j { c with request := .holding }).queue = w.queue ∧
            ∃ d, (TabLeader.becomeLeader w j { c with request := .holding }).coords j = some d ∧ d.request = .holding ∧ d.disposed = false := by
          rw [TabLeader.becomeLeader]
          split
          · exact ⟨hlock, rfl, _, Function.update_self _ _ _, rfl, by simpa using hdisposed⟩
          · rw [post_election]
            exact ⟨hlock, rfl, _, Function.update_self _ _ _, rfl, by simpa using hdisposed⟩
        obtain ⟨-, hqueue1, d, hd, hholding, hdisposed1⟩ := hlock1
        obtain ⟨v', hv', hfree, hqueue'⟩ := hend hd hholding hdisposed1 (hqueue1 ▸ hnotin)
        exact ⟨[_, _], v', .cons hstep (.cons hv' .nil), hs1.step hv', hfree, hqueue'.trans hqueue1⟩
    · obtain ⟨v', hv', hfree, hqueue'⟩ := hend hc hholding ((hs.fine j c hc).holding hholding).2 hnotin
      exact ⟨[_], v', .cons hv' .nil, hs.step hv', hfree, hqueue'⟩

/-- The requests of a coordinator that are settled, and those that are not. -/
structure Once (settled : List (Nat × ReqId)) (i : Nat) (c : Coordinator τ) : Prop where
  nodup : c.pending.Nodup
  pending : ∀ r ∈ c.pending, r.seq < c.reqSeq ∧ (i, r) ∉ settled
  settled : ∀ r, (i, r) ∈ settled → r.seq < c.reqSeq

/-- No request is settled twice. -/
structure AllOnce (w : World τ ω) : Prop where
  nodup : (w.settlements.map Prod.fst).Nodup
  once : ∀ i c, w.coords i = some c → Once (w.settlements.map Prod.fst) i c
  old : ∀ i r, (i, r) ∈ w.settlements.map Prod.fst → i < w.next
  live : ∀ i c, w.coords i = some c → i < w.next

/-- A coordinator has changed, its requests as they were. -/
theorem AllOnce.keep (hw : AllOnce w) (hc : w.coords i = some c) (hcoords : w'.coords = Function.update w.coords i (some v))
    (hnext : w'.next = w.next) (hsettled : w'.settlements = w.settlements) (hpending : v.pending = c.pending)
    (hseq : v.reqSeq = c.reqSeq) : AllOnce w' := by
  refine ⟨hsettled ▸ hw.nodup, fun j d hd => ?_, fun j r hr => hnext ▸ hw.old j r (hsettled ▸ hr), fun j d hd => ?_⟩
  · rw [hsettled]
    rw [hcoords] at hd
    by_cases hj : j = i
    · subst hj
      rw [Function.update_self] at hd
      cases hd
      have h := hw.once j c hc
      exact ⟨hpending ▸ h.nodup, fun r hr => hseq ▸ h.pending r (hpending ▸ hr), fun r hr => hseq ▸ h.settled r hr⟩
    · rw [Function.update_of_ne hj] at hd
      exact hw.once j d hd
  · rw [hnext]
    rw [hcoords] at hd
    by_cases hj : j = i
    · exact hj ▸ hw.live i c hc
    · rw [Function.update_of_ne hj] at hd
      exact hw.live j d hd

/-- Some of a coordinator's requests are settled. -/
theorem AllOnce.settle {news : List ((Nat × ReqId) × Outcome)} (hw : AllOnce w) (gone : List ReqId) (hc : w.coords i = some c)
    (hcoords : w'.coords = Function.update w.coords i (some v)) (hnext : w'.next = w.next)
    (hsettled : w'.settlements = w.settlements ++ news) (hnews : news.map Prod.fst = gone.map fun r => (i, r)) (hgone : gone.Nodup)
    (hwas : ∀ r ∈ gone, r ∈ c.pending) (hpending : v.pending.Sublist c.pending) (hleft : ∀ r ∈ v.pending, r ∉ gone)
    (hseq : v.reqSeq = c.reqSeq) : AllOnce w' := by
  have h := hw.once i c hc
  have hmap : w'.settlements.map Prod.fst = w.settlements.map Prod.fst ++ gone.map fun r => (i, r) := by
    rw [hsettled, List.map_append, hnews]
  have hmem : ∀ j r, (j, r) ∈ gone.map (fun r => (i, r)) ↔ j = i ∧ r ∈ gone := by
    intro j r
    simp only [List.mem_map, Prod.mk.injEq]
    exact ⟨fun ⟨s, hs, hi, hr⟩ => ⟨hi.symm, hr ▸ hs⟩, fun ⟨hj, hr⟩ => ⟨r, hr, hj.symm, rfl⟩⟩
  refine ⟨?_, fun j d hd => ?_, fun j r hr => ?_, fun j d hd => ?_⟩
  · rw [hmap, List.nodup_append]
    refine ⟨hw.nodup, hgone.map fun a b hab => (Prod.mk.inj hab).2, fun a ha b hb hab => ?_⟩
    obtain ⟨j, r⟩ := b
    obtain ⟨rfl, hr⟩ := (hmem j r).1 hb
    exact (h.pending r (hwas r hr)).2 (hab ▸ ha)
  · rw [hmap]
    rw [hcoords] at hd
    by_cases hj : j = i
    · subst hj
      rw [Function.update_self] at hd
      cases hd
      refine ⟨h.nodup.sublist hpending, fun r hr => ?_, fun r hr => ?_⟩
      · obtain ⟨hlt, hnew⟩ := h.pending r (hpending.subset hr)
        refine ⟨hseq ▸ hlt, fun hin => ?_⟩
        rcases List.mem_append.1 hin with hin | hin
        · exact hnew hin
        · exact hleft r hr ((hmem j r).1 hin).2
      · rw [hseq]
        rcases List.mem_append.1 hr with hr | hr
        · exact h.settled r hr
        · exact (h.pending r (hwas r ((hmem j r).1 hr).2)).1
    · rw [Function.update_of_ne hj] at hd
      have hd := hw.once j d hd
      refine ⟨hd.nodup, fun r hr => ⟨(hd.pending r hr).1, fun hin => ?_⟩, fun r hr => ?_⟩
      · rcases List.mem_append.1 hin with hin | hin
        · exact (hd.pending r hr).2 hin
        · exact hj ((hmem j r).1 hin).1
      · rcases List.mem_append.1 hr with hr | hr
        · exact hd.settled r hr
        · exact absurd ((hmem j r).1 hr).1 hj
  · rw [hnext]
    rw [hmap] at hr
    rcases List.mem_append.1 hr with hr | hr
    · exact hw.old j r hr
    · exact ((hmem j r).1 hr).1 ▸ hw.live i c hc
  · rw [hnext]
    rw [hcoords] at hd
    by_cases hj : j = i
    · exact hj ▸ hw.live i c hc
    · rw [Function.update_of_ne hj] at hd
      exact hw.live j d hd

theorem post_settlements (i : Nat) (c : Coordinator τ) (msg : Wire ω) : (post w i c msg).settlements = w.settlements := by
  rw [post]
  split <;> rfl

theorem AllOnce.congr (hw : AllOnce w) (helection : w'.toElection = w.toElection) (hsettled : w'.settlements = w.settlements) :
    AllOnce w' := by
  have hcoords := congrArg Election.coords helection
  have hnext := congrArg Election.next helection
  exact ⟨hsettled ▸ hw.nodup, fun i c hc => hsettled ▸ hw.once i c (hcoords ▸ hc), fun i r hr => hnext ▸ hw.old i r (hsettled ▸ hr),
    fun i c hc => hnext ▸ hw.live i c (hcoords ▸ hc)⟩

theorem AllOnce.post (hw : AllOnce w) (i : Nat) (c : Coordinator τ) (msg : Wire ω) : AllOnce (post w i c msg) :=
  hw.congr (post_election i c msg) (post_settlements i c msg)

theorem AllOnce.becomeLeader (hw : AllOnce w) (hc : w.coords i = some c) (hpending : v.pending = c.pending) (hseq : v.reqSeq = c.reqSeq) :
    AllOnce (becomeLeader w i v) := by
  rw [TabLeader.becomeLeader]
  split
  · exact hw.keep hc rfl rfl rfl hpending hseq
  · have hled : AllOnce (setCoord w i { v with role := .leader, settled := true }) := hw.keep hc rfl rfl rfl hpending hseq
    exact hled.post _ _ _

theorem becomeFollower_requests : (becomeFollower c).pending = c.pending ∧ (becomeFollower c).reqSeq = c.reqSeq := by
  rw [becomeFollower]
  split <;> exact ⟨rfl, rfl⟩

theorem AllOnce.handleWire (hw : AllOnce w) (hc : w.coords i = some c) (msg : Wire ω) : AllOnce (handleWire w i c msg) := by
  cases msg with
  | leaderHello =>
    simp only [TabLeader.handleWire]
    split
    · exact hw.keep hc rfl rfl rfl becomeFollower_requests.1 becomeFollower_requests.2
    · exact hw
  | whoLeads =>
    simp only [TabLeader.handleWire]
    split
    · exact hw.post _ _ _
    · exact hw
  | request reqId op =>
    simp only [TabLeader.handleWire]
    split
    · exact hw.congr rfl rfl
    · exact hw
  | ack reqId error =>
    simp only [TabLeader.handleWire]
    split
    · next hp =>
      exact hw.settle [reqId] hc rfl rfl rfl rfl (List.nodup_singleton _) (by simpa using hp) List.filter_sublist (by simp) rfl
    · exact hw

/-- Every step settles a request that was not settled. -/
theorem AllOnce.step (hw : AllOnce w) (h : Step w x w') : AllOnce w' := by
  cases x with
  | construct t channel =>
    cases h
    have hnew : ∀ r, (w.next, r) ∉ w.settlements.map Prod.fst := fun r hr => absurd (hw.old _ _ hr) (lt_irrefl _)
    refine ⟨hw.nodup, fun j d hd => ?_, fun j r hr => (hw.old j r hr).trans (Nat.lt_succ_self _), fun j d hd => ?_⟩
    · by_cases hj : j = w.next
      · subst hj
        simp only [setCoord, Function.update_self] at hd
        cases hd
        exact ⟨List.nodup_nil, fun r hr => (by cases hr), fun r hr => absurd hr (hnew r)⟩
      · simp only [setCoord, Function.update_of_ne hj] at hd
        exact hw.once j d hd
    · by_cases hj : j = w.next
      · rw [hj]
        exact Nat.lt_succ_self _
      · simp only [setCoord, Function.update_of_ne hj] at hd
        exact (hw.live j d hd).trans (Nat.lt_succ_self _)
  | crash t =>
    cases h
    exact ⟨hw.nodup, fun j d hd => hw.once j d (Option.filter_eq_some_iff.1 hd).1, hw.old,
      fun j d hd => hw.live j d (Option.filter_eq_some_iff.1 hd).1⟩
  | probe i =>
    simp only [Step, act] at h
    split at h
    next c hc =>
      split at h
      · split at h <;> cases h <;> exact hw.keep hc rfl rfl rfl rfl rfl
      · cases h
    · cases h
  | grant =>
    simp only [Step, act] at h
    split at h
    · split at h
      next c hc =>
        cases h
        exact hw.keep hc rfl rfl rfl rfl rfl
      · cases h
    · cases h
  | callback i =>
    simp only [Step, act] at h
    split at h
    next c hc =>
      split at h
      · split at h <;> cases h
        · exact hw.keep hc rfl rfl rfl rfl rfl
        · exact hw.becomeLeader hc rfl rfl
      · split at h <;> cases h
        · exact hw.keep hc rfl rfl rfl rfl rfl
        · exact hw.keep hc rfl rfl rfl becomeFollower_requests.1 becomeFollower_requests.2
      · cases h
    · cases h
  | reject i =>
    simp only [Step, act] at h
    split at h
    next c hc =>
      split at h
      · split at h <;> cases h
        · exact hw.keep hc rfl rfl rfl rfl rfl
        · rw [electWithPing]
          split
          · have hpinging : AllOnce (setCoord w i { c with request := .over, lockRequestFailed := true, pinging := true }) :=
              hw.keep hc rfl rfl rfl rfl rfl
            exact hpinging.post _ _ _
          · exact hw.becomeLeader hc rfl rfl
      · cases h
    · cases h
  | rejectTakeover i =>
    simp only [Step, act] at h
    split at h
    next c hc =>
      split at h <;> cases h
      exact hw.keep hc rfl rfl rfl rfl rfl
    · cases h
  | window i =>
    simp only [Step, act] at h
    split at h
    next c hc =>
      split at h
      · split at h <;> cases h
        · exact hw.keep hc rfl rfl rfl rfl rfl
        · exact hw.becomeLeader hc rfl rfl
      · cases h
    · cases h
  | deliver i =>
    simp only [Step, act] at h
    split at h
    · next c msg rest hc hinbox =>
      cases h
      exact AllOnce.handleWire (w := { w with inbox := Function.update w.inbox i rest }) (hw.congr rfl rfl) hc msg
    · cases h
  | proxy i now op =>
    simp only [Step, act] at h
    split at h
    next c hc =>
      split at h <;> cases h
      have ho := hw.once i c hc
      refine AllOnce.post (w := setCoord w i { c with reqSeq := c.reqSeq + 1, pending := c.pending ++ [⟨now, c.reqSeq⟩] })
        ⟨hw.nodup, fun j d hd => ?_, hw.old, fun j d hd => ?_⟩ _ _ _
      · by_cases hj : j = i
        · subst hj
          simp only [setCoord, Function.update_self] at hd
          cases hd
          refine ⟨?_, fun r hr => ?_, fun r hr => (ho.settled r hr).trans (Nat.lt_succ_self _)⟩
          · refine List.nodup_append.2 ⟨ho.nodup, List.nodup_singleton _, fun a ha b hb hab => ?_⟩
            rw [List.mem_singleton.1 hb] at hab
            exact absurd (ho.pending a ha).1 (by rw [hab]; exact lt_irrefl _)
          · rcases List.mem_append.1 hr with hr | hr
            · exact ⟨(ho.pending r hr).1.trans (Nat.lt_succ_self _), (ho.pending r hr).2⟩
            · rw [List.mem_singleton.1 hr]
              exact ⟨Nat.lt_succ_self _, fun hin => absurd (ho.settled _ hin) (lt_irrefl _)⟩
        · simp only [setCoord, Function.update_of_ne hj] at hd
          exact hw.once j d hd
      · by_cases hj : j = i
        · exact hj ▸ hw.live i c hc
        · simp only [setCoord, Function.update_of_ne hj] at hd
          exact hw.live j d hd
    · cases h
  | timeout i reqId =>
    simp only [Step, act] at h
    split at h
    next c hc =>
      split at h <;> cases h
      next hp =>
      exact hw.settle [reqId] hc rfl rfl rfl rfl (List.nodup_singleton _) (by simpa using hp) List.filter_sublist (by simp) rfl
    · cases h
  | finish k error =>
    simp only [Step, act] at h
    split at h
    · split at h <;> cases h
      split
      · exact hw.congr rfl rfl
      · exact AllOnce.post (w := { w with running := w.running.eraseIdx k }) (hw.congr rfl rfl) _ _ _
    · cases h
  | dispose i =>
    simp only [Step, act] at h
    split at h
    next c hc =>
      split at h <;> cases h
      · exact hw
      · refine hw.settle (v := _) c.pending hc rfl rfl rfl ?_ (hw.once i c hc).nodup (fun r hr => hr) (List.nil_sublist _)
          (fun r hr => by cases hr) rfl
        rw [List.map_map]
        rfl
    · cases h

end

/-! ## Three runs -/

namespace Small

/-- Two tabs, each with a coordinator. -/
def two : List (Act Bool String) := [.construct false true, .construct true true]

/-- The first one wins the lock, the second waits for it. -/
def elected : List (Act Bool String) := two ++ [.probe 0, .callback 0, .probe 1, .callback 1]

/-- A third one waits too. -/
def three : List (Act Bool String) := elected ++ [.construct true true, .probe 2, .callback 2]

end Small

/-- Two followers whose clocks and counters agree make one request id: the leader's reply to the one settles the
other's request too. -/
theorem replies_cross : ∃ w, Run Step ({} : World Bool String)
    (Small.three ++ [.proxy 1 100 "a", .proxy 2 100 "b", .deliver 0, .deliver 0, .finish 0 (some "refused"), .deliver 1, .deliver 1,
      .deliver 1, .deliver 2, .deliver 2]) w ∧
    w.settlements = [((1, ⟨100, 0⟩), .acked (some "refused")), ((2, ⟨100, 0⟩), .acked (some "refused"))] ∧
    w.running = [(0, ⟨100, 0⟩, "b")] :=
  ⟨_, Run.of_exec rfl, rfl, rfl⟩

end Nostrautica.TabLeader
