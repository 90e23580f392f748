/-
What a handler does from each of its await points, said once: what follows is
by cases on these. And what no handler does: hold a lock it did not take
(`owned`).
-/
import Nostrautica.Coordinator.Membership

set_option linter.unusedSectionVars false

namespace Nostrautica.Membership

open Tasks

variable {P R K : Type*} [DecidableEq P] [LinearOrder R] [DecidableEq K] {c : Setting P R K}
  {w w' : Coordinator P R K} {s : Store P R K} {k : Task R} {r : R} {p q : P} {th th' : Thread P K} {a : Answer P K}
  {o : Outcome P R K} {x : Act P R K} {i n createdAt now : Nat} {body : Body P K} {es : List (Effect P R K)}
  {byOrganizer : Bool}

/-! ## The statements -/

namespace Store

theorem status_upsert {st : Option Status} {role : Option Role} :
    (s.apply (.upsertAttendee p st role now)).status q =
      if p = q then some (st.getD ((s.status p).getD .pending)) else s.status q := by
  simp only [Store.apply, Store.status, Sql.Keyed.get?_upsert]
  split <;> simp [upsertedRow]

theorem status_purge : (s.apply (.purgeAttendeeArtifacts p)).status q = if p = q then none else s.status q := by
  simp only [Store.apply, Store.status, Sql.Keyed.get?_delete, decide_eq_true_eq, eq_comm (a := q)]
  split <;> simp

theorem mem_approvedAttendees : p ∈ s.approvedAttendees ↔ s.status p = some .approved := by
  simp only [Store.approvedAttendees, Store.status, List.mem_map, List.mem_filter, decide_eq_true_eq,
    Option.map_eq_some_iff, ← Sql.Keyed.mem_rows]
  constructor
  · rintro ⟨⟨q, row⟩, ⟨hm, hs⟩, rfl⟩
    exact ⟨row, hm, hs⟩
  · rintro ⟨row, hm, hs⟩
    exact ⟨(p, row), ⟨hm, hs⟩, rfl⟩

end Store

/-! ## Arrivals -/

/-- A rumor's handler starts outside its lock, or is an install. -/
theorem dispatch_pc (h : dispatch s i createdAt now body = some th) :
    th.pc = .queued ∨ th.pc = .returned ∨ ∃ g full, body = .grant g ∧ th.pc = .configuring full := by
  cases body with
  | admin cmd p expires =>
    simp only [dispatch] at h
    split at h
    · split at h <;> cases h
      exact .inr (.inl rfl)
    · cases h
      dsimp only
      split <;> simp
  | grant g =>
    cases h
    exact .inr (.inr ⟨g, _, rfl, rfl⟩)
  | _ =>
    cases h
    dsimp only
    split <;> simp

theorem held_dispatch (h : dispatch s i createdAt now (c.rumor r).body = some th) : c.rules.held (.rumor r) th = none := by
  simp only [Setting.rules]
  rcases dispatch_pc h with hpc | hpc | ⟨g, full, hg, hpc⟩ <;> simp [hpc, Pc.inside]
  simp [Setting.subject, hg, Body.subject]

/-- A rumor that arrives is new, and is dropped for its date or dispatched. -/
theorem of_deliver (h : act c w (.deliver r now) = some w') : w.store.seen r = false ∧ w.tasks (.rumor r) = none ∧
    ((c.rumor r).created_at > now / 1000 + rumorMaxFutureSec ∧ w' = { w with store := w.store.apply (.markRumorSeen r) } ∨
      ∃ i th, inbox w.store (c.rumor r).body = some i ∧
        dispatch w.store i (rumorEffectiveCreatedAt (c.rumor r).created_at (now / 1000)) now (c.rumor r).body = some th ∧
        w' = w.spawn (.rumor r) th) := by
  simp only [act, deliver] at h
  split at h
  · cases h
  next hnew =>
    rw [not_or, Bool.not_eq_true, Bool.not_eq_true, Option.isSome_eq_false_iff, Option.isNone_iff_eq_none] at hnew
    refine ⟨hnew.1, hnew.2, ?_⟩
    split at h
    next hfar =>
      cases h
      exact .inl ⟨hfar, rfl⟩
    · obtain ⟨i, hi, h⟩ := Option.bind_eq_some_iff.mp h
      obtain ⟨th, hth, rfl⟩ := Option.map_eq_some_iff.mp h
      exact .inr ⟨i, th, hi, hth, rfl⟩

/-- A re-issue starts once for each generation. -/
theorem of_sweep (h : act c w .sweep = some w') : ∃ i, w.store.live = some i ∧
    w.tasks (.reissue (w.store.states i).gen) = none ∧
    w' = w.spawn (.reissue (w.store.states i).gen) ⟨i, 0, .linking⟩ := by
  obtain ⟨i, hi, h⟩ := Option.bind_eq_some_iff.mp h
  dsimp only at h
  split at h
  · cases h
  next hn =>
    cases h
    rw [not_or, Bool.not_eq_true (Option.isSome _), Option.isSome_eq_false_iff, Option.isNone_iff_eq_none] at hn
    exact ⟨i, hi, hn.2, rfl⟩

/-- An event is restored from its row, where it is not live. -/
theorem of_restore (h : act c w .restore = some w') : ∃ row, w.store.event = some row ∧ w.store.live = none ∧
    w.store.tombstoned = false ∧ w.tasks .restore = none ∧
    w' = { w with store := c.rules.run w.store [.installed row.gen (unionEck c.fingerprint row.eck row.eck),
                             .live row.gen (unionEck c.fingerprint row.eck row.eck)] }.spawn .restore
            ⟨w.store.made, 0, .installing false⟩ := by
  simp only [act] at h
  split at h
  next row hrow hlive =>
    split at h
    · cases h
    next hn =>
      cases h
      rw [not_or, Bool.not_eq_true, Bool.not_eq_true, Option.isSome_eq_false_iff, Option.isNone_iff_eq_none] at hn
      exact ⟨row, hrow, hlive, hn.1, hn.2, rfl⟩
  · cases h

/-! ## Going on -/

theorem of_outcome (h : outcome c w k a = some o) :
    ∃ th, w.tasks k = some th ∧ c.rules.ready w k th = true ∧ settle c w.store k th a = some o := by
  obtain ⟨th, hth, h⟩ := Option.bind_eq_some_iff.mp h
  split at h
  next hr => exact ⟨th, hth, hr, h⟩
  · cases h

theorem after_eq {f : Store P R K → Outcome P R K} :
    after s es f = (es ++ (f (c.rules.run s es)).1, (f (c.rules.run s es)).2) := rfl

theorem mem_after {f : Store P R K → Outcome P R K} {e : Effect P R K} :
    e ∈ (after s es f).1 ↔ e ∈ es ∨ e ∈ (f (es.foldl Store.apply s)).1 := List.mem_append

/-- A handler's next await point is inside the lock only where it held it, or
waited for it. -/
theorem held_next (h : settle c s k th a = some o) {l : P} (hl : o.2.bind (c.rules.held k) = some l) :
    c.rules.held k th = some l ∨ c.rules.wanted k th = some l := by
  obtain ⟨th', hth', hheld⟩ := Option.bind_eq_some_iff.mp hl
  have hsub : c.subject k = some l := by
    simp only [Setting.rules] at hheld
    split at hheld
    · exact hheld
    · cases hheld
  cases k with
  | rumor r =>
    cases hpc : th.pc
    case queued => exact .inr (by simp [Setting.rules, hpc, hsub])
    case sleeping =>
      simp only [settle, resume, hpc, Option.some.injEq] at h
      subst h
      dsimp only at hth'
      split at hth'
      · rw [held_dispatch hth'] at hheld
        cases hheld
      · cases hth'
    case returned =>
      simp only [settle, resume, hpc, Option.some.injEq] at h
      subst h
      cases hth'
    all_goals exact .inl (by simp [Setting.rules, hpc, hsub, Pc.inside])
  | _ => cases hsub

/-! ## Locks -/

/-- **Every act keeps the locks owned.** -/
theorem owned_step (hw : c.rules.Owned w) (h : Step c w x w') : c.rules.Owned w' := by
  cases x with
  | deliver r now =>
    obtain ⟨-, hnone, ⟨-, rfl⟩ | ⟨i, th, -, hth, rfl⟩⟩ := of_deliver h
    · exact hw
    · exact hw.spawn hnone (held_dispatch hth)
  | settle k a =>
    obtain ⟨o, ho, rfl⟩ := Option.map_eq_some_iff.mp h
    obtain ⟨th, hth, hr, hs⟩ := of_outcome ho
    exact hw.advance hth hr fun l hl => held_next hs hl
  | sweep =>
    obtain ⟨i, -, hnone, rfl⟩ := of_sweep h
    exact hw.spawn hnone (by simp [Setting.rules, Setting.subject])
  | crash =>
    cases h
    exact World.owned_fresh
  | crashDuring k a n =>
    obtain ⟨o, ho, rfl⟩ := Option.map_eq_some_iff.mp h
    exact World.owned_fresh
  | restore =>
    obtain ⟨row, -, -, -, hnone, rfl⟩ := of_restore h
    exact Rules.Owned.spawn (w := { w with store := _ }) hw hnone (by simp [Setting.rules, Setting.subject])
  | detach =>
    cases h
    exact hw
  | purgeEvent expire =>
    cases h
    exact hw

end Nostrautica.Membership
