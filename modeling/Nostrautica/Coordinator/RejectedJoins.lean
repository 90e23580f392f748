/-
What a join (`handleJoinLocked` of `coordinator/src/coordinator.ts`) to an event
of the mode `invite` leaves of the member's row, where its entitlement does not hold.

The row goes in as pending before the entitlement is checked; a rejection takes
back a row that the join created, and no other.
-/
import Nostrautica.Coordinator.MembershipFacts

set_option linter.unusedSectionVars false

namespace Nostrautica.Membership

variable {P R K : Type*} [DecidableEq P] [LinearOrder R] [DecidableEq K]
variable {s s' t : Store P R K} {p q : P} {r : R} {th th' : Thread P K} {a b : Answer P K} {proof live : Bool}

/-- What effects make of a store. -/
def Store.run (s : Store P R K) (es : List (Effect P R K)) : Store P R K := es.foldl Store.apply s

/-- The course of a join with the member's lock: from the store it finds to the
one it leaves, where the checks do not let it in. `proof` says whether it
carries an invite or a membership proof, `live` whether the event is still live
when the checks have answered. While it waits, the others leave the member's row
its status: the lock keeps commands out, and a submission writes none. -/
inductive Rejected (p : P) (r : R) (th : Thread P K) (proof : Bool) (a : Answer P K) (live : Bool) (s : Store P R K) :
    Store P R K → Prop
  /-- It ends without a check. -/
  | early {es th'} (hstart : handleJoin s p r th proof a = (es, some th'))
      (hpc : ∀ existing full manual, th'.pc ≠ .entitling existing full manual) : Rejected p r th proof a live s (s.run es)
  /-- The checks say no. -/
  | checked {es th' existing full manual t b fs th''} (hstart : handleJoin s p r th proof a = (es, some th'))
      (hpc : th'.pc = .entitling existing full manual) (others : t.status p = (s.run es).status p)
      (hlive : t.eventStillLive th'.state = live) (hmode : b.approval = .invite) (hok : b.ok = true)
      (hno : b.entitlement = false) (hend : joinChecked t p th' existing full manual b = (fs, some th'')) :
      Rejected p r th proof a live s (t.run fs)

/-- The pending queue is full, without the requests that are evicted. -/
def QueueFull (s : Store P R K) (now : Nat) : Prop :=
  maxPendingJoinsPerEvent ≤ (s.run ((evicted s now).map .purgeAttendeeArtifacts)).pendingAttendeeCount

instance decidableQueueFull (s : Store P R K) (now : Nat) : Decidable (QueueFull s now) := inferInstanceAs (Decidable (_ ≤ _))

/-- The join comes as far as the checks. -/
structure Admissible (s : Store P R K) (p : P) (r : R) (createdAt : Nat) (proof : Bool) (now : Nat) : Prop where
  proof : proof = true
  standing : s.revocations p = false
  member : s.status p ≠ some .approved
  fresh : s.status p ≠ some .pending → staleJoin s p r createdAt now = false
  room : s.status p = none → s.approvedAttendeeCount < maxAttendeesPerEvent

/-- The row of a member who left is put in the queue again, or a new one stays
behind where the event goes down. -/
def Harmed (s : Store P R K) (p : P) (now : Nat) (live : Bool) : Prop :=
  s.status p = some .revoked ∨ (s.status p = none ∧ ¬ QueueFull s now ∧ live = false)

/-! ## Up to the checks -/

/-- Evictions leave a member without a row without one. -/
theorem status_evictions (l : List P) (h : s.status p = none) : (s.run (l.map .purgeAttendeeArtifacts)).status p = none := by
  induction l generalizing s with
  | nil => exact h
  | cons q l ih =>
    refine ih ?_
    rw [Store.status_purge, h]
    exact ite_self _

/-- What a join makes of the row before its checks. -/
def enrolled (s : Store P R K) (p : P) (now : Nat) : Option Status :=
  if s.status p = none ∧ QueueFull s now then none else some .pending

/-- From its enrolment a join comes to the checks with the row pending, or ends
with the row as it was. -/
theorem enroll_cases (s : Store P R K) (p : P) (th : Thread P K) (proof : Bool) (ha : a.approval = .invite) :
    (proof = true ∧ (s.status p = none → s.approvedAttendeeCount < maxAttendeesPerEvent) ∧
      ∃ es, enroll s p th proof a =
          (es, th.goto (.entitling (s.status p) (decide (s.status p = none ∧ QueueFull s a.now)) false)) ∧
        (s.run es).status p = enrolled s p a.now) ∨
    (¬ (proof = true ∧ (s.status p = none → s.approvedAttendeeCount < maxAttendeesPerEvent)) ∧
      ∃ es, enroll s p th proof a = (es, th.goto .returned) ∧ (s.run es).status p = s.status p) := by
  have hmanual : decide (a.approval = .manual) = false := by simp [ha]
  cases hst : s.status p with
  | none =>
    by_cases hroom : s.approvedAttendeeCount < maxAttendeesPerEvent
    · have hroom' : ¬ (s.approvedAttendeeCount ≥ maxAttendeesPerEvent) := Nat.not_le.mpr hroom
      have hev := status_evictions (evicted s a.now) hst
      cases hp : proof with
      | false =>
        refine .inr ⟨fun h => Bool.false_ne_true h.1, (evicted s a.now).map .purgeAttendeeArtifacts, ?_, hev⟩
        simp [enroll, hst, hroom', after, ha, Thread.skip]
      | true =>
        refine .inl ⟨rfl, fun _ => hroom, (evicted s a.now).map .purgeAttendeeArtifacts ++
          (if QueueFull s a.now then [] else [.upsertAttendee p (some .pending) none a.now]), ?_, ?_⟩
        · by_cases hq : QueueFull s a.now
          · have hq' := hq
            unfold QueueFull Store.run at hq'
            simp [enroll, hst, hroom', after, ha, hq, hq']
          · have hq' := hq
            unfold QueueFull Store.run at hq'
            simp [enroll, hst, hroom', after, ha, hq, hq']
        · unfold enrolled Store.run
          rw [List.foldl_append, hst]
          by_cases hq : QueueFull s a.now
          · simpa [hq, Store.run] using hev
          · simp [hq, Store.status_upsert]
    · have hroom' : s.approvedAttendeeCount ≥ maxAttendeesPerEvent := Nat.not_lt.mp hroom
      refine .inr ⟨fun h => hroom (h.2 rfl), [], ?_, hst⟩
      simp [enroll, hst, hroom', Thread.skip]
  | some st =>
    cases hp : proof with
    | false =>
      refine .inr ⟨fun h => Bool.false_ne_true h.1, [], ?_, hst⟩
      simp [enroll, hst, after, ha, Thread.skip]
    | true =>
      refine .inl ⟨rfl, fun h => (by cases h), [.upsertAttendee p (some .pending) none a.now], ?_, ?_⟩
      · simp [enroll, hst, after, ha]
      · simp [enrolled, hst, Store.run, Store.status_upsert]

/-- A join comes to its checks with the row as `enrolled` says, or ends with the
row as it was. -/
def Begins (s : Store P R K) (p : P) (r : R) (th : Thread P K) (proof : Bool) (a : Answer P K) : Prop :=
  (Admissible s p r th.createdAt proof a.now ∧
    ∃ es, handleJoin s p r th proof a =
        (es, th.goto (.entitling (s.status p) (decide (s.status p = none ∧ QueueFull s a.now)) false)) ∧
      (s.run es).status p = enrolled s p a.now) ∨
  (¬ Admissible s p r th.createdAt proof a.now ∧
    ∃ es pc, handleJoin s p r th proof a = (es, th.goto pc) ∧ (∀ existing full manual, pc ≠ .entitling existing full manual) ∧
      (s.run es).status p = s.status p)

theorem begins_of_enroll (ha : a.approval = .invite) (hrev : s.revocations p = false) (hm : s.status p ≠ some .approved)
    (hf : s.status p ≠ some .pending → staleJoin s p r th.createdAt a.now = false)
    (he : handleJoin s p r th proof a = enroll s p th proof a) : Begins s p r th proof a := by
  rcases enroll_cases s p th proof ha with ⟨hp, hroom, es, hes, hrun⟩ | ⟨hno, es, hes, hrun⟩
  · exact .inl ⟨⟨hp, hrev, hm, hf, hroom⟩, es, he.trans hes, hrun⟩
  · refine .inr ⟨fun h => hno ⟨h.proof, h.room⟩, es, .returned, he.trans hes, ?_, hrun⟩
    intro _ _ _ h
    cases h

/-- It ends at once, and leaves every row. -/
theorem begins_of_end {pc : Pc P K} (hno : ¬ Admissible s p r th.createdAt proof a.now)
    (he : handleJoin s p r th proof a = th.skip pc) (hpc : pc = .returned ∨ pc = .proving) : Begins s p r th proof a := by
  refine .inr ⟨hno, [], pc, he, ?_, rfl⟩
  rcases hpc with rfl | rfl <;> (intro _ _ _ h; cases h)

theorem begins (s : Store P R K) (p : P) (r : R) (th : Thread P K) (proof : Bool) (ha : a.approval = .invite) :
    Begins s p r th proof a := by
  cases hrev : s.revocations p with
  | true =>
    refine begins_of_end (fun h => ?_) (by simp [handleJoin, hrev]) (.inl rfl)
    rw [h.standing] at hrev
    cases hrev
  | false =>
    have hstale : ∀ (hst : s.status p ≠ some .approved) (hst' : s.status p ≠ some .pending)
        (he : handleJoin s p r th proof a =
          if staleJoin s p r th.createdAt a.now then th.skip .returned else enroll s p th proof a), Begins s p r th proof a := by
      intro hst hst' he
      cases hj : staleJoin s p r th.createdAt a.now with
      | true =>
        refine begins_of_end (fun h => ?_) (he.trans (if_pos hj)) (.inl rfl)
        rw [h.fresh hst'] at hj
        cases hj
      | false => exact begins_of_enroll ha hrev hst (fun _ => hj) (he.trans (if_neg (by simp [hj])))
    cases hst : s.status p with
    | none => exact hstale (by simp [hst]) (by simp [hst]) (by simp [handleJoin, hrev, hst])
    | some st =>
      cases st with
      | pending => exact begins_of_enroll ha hrev (by simp [hst]) (fun h => absurd hst h) (by simp [handleJoin, hrev, hst])
      | approved =>
        have he : handleJoin s p r th proof a = th.skip .proving := by simp [handleJoin, hrev, hst, grantAndPublish]
        exact begins_of_end (fun h => h.member hst) he (.inr rfl)
      | revoked => exact hstale (by simp [hst]) (by simp [hst]) (by simp [handleJoin, hrev, hst])

/-! ## What the checks leave -/

/-- The row after checks that say no: as it was, or erased where the join made it. -/
theorem joinChecked_status {existing : Option Status} {full : Bool} {es : List (Effect P R K)} {next : Option (Thread P K)}
    (hmode : b.approval = .invite) (hok : b.ok = true) (hno : b.entitlement = false)
    (h : joinChecked t p th existing full false b = (es, next)) :
    (t.run es).status p = if t.eventStillLive th.state = true ∧ existing = none then none else t.status p := by
  cases hlive : t.eventStillLive th.state with
  | false =>
    have hes : es = [] := by
      have := congrArg Prod.fst h
      simpa [joinChecked, hok, hlive, Thread.skip] using this.symm
    simp [hes, Store.run]
  | true =>
    have hes : es = if existing = none then [.purgeAttendeeArtifacts p] else [] := by
      have := congrArg Prod.fst h
      simpa [joinChecked, hok, hlive, hmode, hno] using this.symm
    by_cases he : existing = none
    · simp [hes, he, Store.run, Store.status_purge]
    · simp [hes, he, Store.run]

/-- Checks that say no end the join. -/
theorem joinChecked_ends (t : Store P R K) (p : P) (th : Thread P K) (existing : Option Status) (full : Bool)
    (hmode : b.approval = .invite) (hok : b.ok = true) (hno : b.entitlement = false) :
    ∃ es th', joinChecked t p th existing full false b = (es, some th') := by
  cases hlive : t.eventStillLive th.state with
  | false => exact ⟨[], { th with pc := .returned }, by simp [joinChecked, hok, hlive, Thread.skip, Thread.goto]⟩
  | true =>
    refine ⟨if existing = none then [.purgeAttendeeArtifacts p] else [], { th with pc := .returned }, ?_⟩
    simp [joinChecked, hok, hlive, hmode, hno, Thread.goto]

/-- Everything the course of a rejected join does to the row. -/
theorem Rejected.status (ha : a.approval = .invite) (h : Rejected p r th proof a live s s') :
    s'.status p = s.status p ∨
      (Admissible s p r th.createdAt proof a.now ∧
        s'.status p = if live = true ∧ s.status p = none then none else enrolled s p a.now) := by
  have hbegins := begins s p r th proof ha
  cases h with
  | @early es th' hstart hpc =>
    rcases hbegins with ⟨-, fs, hfs, -⟩ | ⟨-, fs, pc, hfs, -, hrun⟩
    · obtain ⟨-, hth⟩ := Prod.mk.inj (hstart.symm.trans hfs)
      cases Option.some.inj hth
      exact absurd rfl (hpc _ _ _)
    · obtain ⟨rfl, -⟩ := Prod.mk.inj (hstart.symm.trans hfs)
      exact .inl hrun
  | @checked es th' existing full manual t b fs th'' hstart hpc others hlive hmode hok hno hend =>
    rcases hbegins with ⟨hadm, gs, hgs, hrun⟩ | ⟨-, gs, pc, hgs, hne, -⟩
    · obtain ⟨rfl, hth⟩ := Prod.mk.inj (hstart.symm.trans hgs)
      cases Option.some.inj hth
      cases hpc
      have := joinChecked_status hmode hok hno hend
      rw [hlive, others, hrun] at this
      exact .inr ⟨hadm, this⟩
    · obtain ⟨-, hth⟩ := Prod.mk.inj (hstart.symm.trans hgs)
      cases Option.some.inj hth
      exact absurd hpc (hne _ _ _)

/-- A course on which nobody else does a thing but take the event down. -/
theorem exists_rejected (ha : a.approval = .invite) (h : Admissible s p r th.createdAt proof a.now) (live : Bool) :
    ∃ s', Rejected p r th proof a live s s' ∧
      s'.status p = if live = true ∧ s.status p = none then none else enrolled s p a.now := by
  rcases begins s p r th proof ha with ⟨-, es, hes, hrun⟩ | ⟨hno, -⟩
  · let t : Store P R K := { s.run es with live := if live then some th.state else none, expired := false, tombstoned := false }
    have hlive : t.eventStillLive th.state = live := by
      cases live <;> simp [t, Store.eventStillLive]
    have hstatus : t.status p = enrolled s p a.now := hrun
    let b : Answer P K := { a with ok := true, entitlement := false }
    have hmode : b.approval = .invite := ha
    have hend := joinChecked_ends t p
      { th with pc := .entitling (s.status p) (decide (s.status p = none ∧ QueueFull s a.now)) false }
      (s.status p) (decide (s.status p = none ∧ QueueFull s a.now)) hmode rfl rfl
    obtain ⟨fs, th'', hend⟩ := hend
    refine ⟨t.run fs, .checked (b := b) hes rfl (hstatus.trans hrun.symm) hlive hmode rfl rfl hend, ?_⟩
    have := joinChecked_status hmode rfl rfl hend
    rw [this, hstatus]
    rw [show t.eventStillLive _ = live from hlive]
  · exact absurd h hno

/-- **A rejected join changes nothing**, exactly where it ends before the
checks or does not find the row of a member who left, nor a new row behind when
the event goes down. -/
theorem rejected_unchanged_iff (ha : a.approval = .invite) :
    (∀ s', Rejected p r th proof a live s s' → s'.status p = s.status p) ↔
      ¬ (Admissible s p r th.createdAt proof a.now ∧ Harmed s p a.now live) := by
  have hrow : Admissible s p r th.createdAt proof a.now →
      ((if live = true ∧ s.status p = none then none else enrolled s p a.now) = s.status p ↔ ¬ Harmed s p a.now live) := by
    intro hadm
    unfold enrolled Harmed
    cases hst : s.status p with
    | none =>
      cases live <;> by_cases hq : QueueFull s a.now <;> simp [hq]
    | some st =>
      cases st with
      | pending => simp
      | approved => exact absurd hst hadm.member
      | revoked => simp
  constructor
  · rintro hall ⟨hadm, hharm⟩
    obtain ⟨s', hs', hstatus⟩ := exists_rejected ha hadm live
    exact (hrow hadm).mp (hstatus.symm.trans (hall s' hs')) hharm
  · intro hno s' hs'
    rcases hs'.status ha with h | ⟨hadm, h⟩
    · exact h
    · exact h.trans ((hrow hadm).mpr fun hharm => hno ⟨hadm, hharm⟩)

/-! ## A member who left -/

namespace Small

/-- The event, with the row of a member who left by themselves. -/
def leftStore : Store Nat Nat Nat := { store with attendees := store.attendees.upsert 7 fun _ => ⟨.revoked, .attendee, 0⟩ }

def joinThread : Thread Nat Nat := ⟨0, 100, .queued⟩

def inviteOnly : Answer Nat Nat := { yes 0 with approval := .invite, entitlement := false }

theorem admissible_left : Admissible leftStore 7 1 joinThread.createdAt true inviteOnly.now where
  proof := rfl
  standing := rfl
  member := by decide
  fresh _ := rfl
  room _ := by decide

/-- A member who left sends a join with a spent code: it is rejected, and they are
in the organizer's queue. -/
theorem spent_code : ∃ s', Rejected 7 1 joinThread true inviteOnly true leftStore s' ∧
    leftStore.status 7 = some .revoked ∧ s'.status 7 = some .pending := by
  obtain ⟨s', hs', hstatus⟩ := exists_rejected rfl admissible_left true
  exact ⟨s', hs', rfl, hstatus⟩

theorem admissible_new : Admissible store 7 1 joinThread.createdAt true inviteOnly.now where
  proof := rfl
  standing := rfl
  member := by decide
  fresh _ := rfl
  room _ := by decide

theorem rejected_unchanged_iff_new : Admissible store 7 1 joinThread.createdAt true inviteOnly.now ∧
    ∀ s', Rejected 7 1 joinThread true inviteOnly true store s' → s'.status 7 = store.status 7 := by
  refine ⟨admissible_new, (rejected_unchanged_iff rfl).mpr ?_⟩
  rintro ⟨-, h | ⟨-, -, h⟩⟩
  · exact absurd h (by decide)
  · cases h

end Small

end Nostrautica.Membership
