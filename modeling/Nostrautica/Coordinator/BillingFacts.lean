/-
Jobs parked by the billing gate are parked while their event is blocked
(`parked_blocked`): an evaluation that unblocks an event resumes its jobs in the
same breath. What can go wrong is a job that parks on an answer which was true
when it was computed, and a process that ends between the two statements;
`Timely` excludes both.
-/
import Nostrautica.Coordinator.Billing
import Nostrautica.Store.JobsFacts

set_option linter.unusedSectionVars false

namespace Nostrautica

open Js Tasks

/-! ## What a call does to the rows -/

namespace Jobs

variable {j : Jobs} {c : Call} {r : JobRow}

/-- A row after an update is as it was, or one the update changed. -/
theorem of_mem_update {p : JobRow → Bool} {f : JobRow → JobRow} (h : r ∈ j.rows.map fun s => if p s then f s else s) :
    r ∈ j.rows ∧ p r = false ∨ ∃ s ∈ j.rows, p s = true ∧ f s = r := by
  obtain ⟨s, hs, rfl⟩ := List.mem_map.mp h
  split
  next hp => exact .inr ⟨s, hs, hp, rfl⟩
  next hp => exact .inl ⟨hs, by simpa using hp⟩

/-- A call leaves the rows' identities, and may add a row at the next id. -/
theorem spec_of_call (h : r ∈ (j.call c).rows) : (∃ s ∈ j.rows, s.toJobSpec = r.toJobSpec) ∨ r.id = j.seq + 1 := by
  have hup : ∀ {p : JobRow → Bool} {f : JobRow → JobRow}, (r ∈ j.rows.map fun s => if p s then f s else s) →
      (∀ s, (f s).toJobSpec = s.toJobSpec) → ∃ s ∈ j.rows, s.toJobSpec = r.toJobSpec := by
    intro p f hr keep
    rcases of_mem_update hr with ⟨hr, -⟩ | ⟨s, hs, -, rfl⟩
    · exact ⟨r, hr, rfl⟩
    · exact ⟨s, hs, (keep s).symm⟩
  cases c with
  | enqueueJob type dedupeKey payload notBefore =>
    simp only [call, enqueueJob] at h
    split at h
    · rcases List.mem_append.mp h with h | h
      · exact .inl ⟨r, h, rfl⟩
      · exact .inr (by rw [List.mem_singleton.mp h])
    · exact .inl ⟨r, h, rfl⟩
  | claimNextJob now t leaseMs types =>
    simp only [call, claimNextJob] at h
    split at h
    · exact .inl ⟨r, h, rfl⟩
    · exact .inl (hup h fun _ => rfl)
  | lease id t c => cases c <;> exact .inl (hup h fun _ => rfl)
  | reclaimExpiredLeases | resumeWaitingJobs | resumeDaemonParkedJobs | resumeEventNotLiveJobs => exact .inl (hup h fun _ => rfl)

theorem seq_le_call : j.seq ≤ (j.call c).seq := by
  cases c with
  | enqueueJob =>
    simp only [call, enqueueJob]
    split
    · exact Nat.le_succ _
    · exact le_rfl
  | claimNextJob =>
    simp only [call, claimNextJob]
    split <;> exact le_rfl
  | lease id t c => cases c <;> exact le_rfl
  | reclaimExpiredLeases | resumeWaitingJobs | resumeDaemonParkedJobs | resumeEventNotLiveJobs => exact le_rfl

end Jobs

namespace Billing

variable {graceMs : Int} {s : Store} {w w' : Gate} {x : Act} {xs : List Act} {th th' : Thread} {a : Answer} {k : Nat} {r : JobRow}
  {coordinate : JsString} {es : List Effect} {next : Option Thread} {c : Jobs.Call}

/-- What parks a row for billing. -/
def parking : Jobs.Call → Bool
  | .lease _ _ (.parkJob reason _) => reason.take billingBlocked.length = billingBlocked
  | _ => false

/-- No other call parks a row for billing. -/
theorem parked_of_call (hc : parking c = false) (h : r ∈ (s.jobs.call c).rows) (hp : parked coordinate r = true) :
    r ∈ s.jobs.rows := by
  have hstate : r.state = .waiting := by
    simp only [parked, Bool.and_eq_true, decide_eq_true_eq] at hp
    exact hp.1.1
  have hup : ∀ {p : JobRow → Bool} {f : JobRow → JobRow}, (∀ q, p q = true → parked coordinate (f q) = false) →
      (r ∈ s.jobs.rows.map fun q => if p q then f q else q) → r ∈ s.jobs.rows := by
    intro p f hf hr
    rcases Jobs.of_mem_update hr with ⟨hr, -⟩ | ⟨q, -, hq, rfl⟩
    · exact hr
    · rw [hf q hq] at hp
      cases hp
  cases c with
  | enqueueJob type dedupeKey payload notBefore =>
    simp only [Jobs.call, Jobs.enqueueJob] at h
    split at h
    · rcases List.mem_append.mp h with h | h
      · exact h
      · rw [List.mem_singleton.mp h] at hstate
        cases hstate
    · exact h
  | claimNextJob now t leaseMs types =>
    simp only [Jobs.call, Jobs.claimNextJob] at h
    split at h
    · exact h
    · exact hup (fun q _ => by simp [parked, Jobs.claim]) h
  | lease id t call =>
    cases call with
    | heartbeatJob leaseUntil =>
      refine hup (fun q hq => ?_) h
      simp only [Bool.and_eq_true, decide_eq_true_eq] at hq
      simp [parked, hq.2]
    | completeJob => exact hup (fun q _ => by simp [parked]) h
    | failJob attempts nextRunAt error poison =>
      refine hup (fun q _ => ?_) h
      cases poison <;> simp [parked]
    | releaseJob => exact hup (fun q _ => by simp [parked]) h
    | parkJob reason reset =>
      refine hup (fun q _ => ?_) h
      have hreason : reason.take billingBlocked.length ≠ billingBlocked := by
        simpa [parking] using hc
      have hne : reason ≠ billingBlockedReason coordinate := by
        rintro rfl
        exact hreason (by simp [billingBlockedReason])
      simp [parked, hne]
  | reclaimExpiredLeases => exact hup (fun q _ => by simp [parked]) h
  | resumeWaitingJobs => exact hup (fun q _ => by simp [parked]) h
  | resumeDaemonParkedJobs => exact hup (fun q _ => by simp [parked]) h
  | resumeEventNotLiveJobs => exact hup (fun q _ => by simp [parked]) h

/-- No job of an event is parked after it was resumed. -/
theorem not_parked_resumed (h : r ∈ (s.jobs.call (.resumeWaitingJobs coordinate)).rows) : parked coordinate r = false := by
  rcases Jobs.of_mem_update h with ⟨-, hr⟩ | ⟨q, -, -, rfl⟩
  · simp only [parked, coordinateOf, Bool.and_eq_false_iff]
    exact .inl (Bool.and_eq_false_iff.mp hr)
  · simp [parked]

/-! ## What a handler does -/

/-- An evaluation stores a row that leaves a blocked event blocked, or unblocks
the event and resumes its jobs. -/
theorem reevaluateBilling_cases {e : Evaluation} {now : Int} {b : BillingState} {announces : Bool}
    (h : reevaluateBilling graceMs s coordinate now e = (es, b, announces)) :
    es = [] ∨ (∃ row, es = [.setBillingState coordinate row] ∧ (s.state coordinate = some .blocked → row.state = .blocked)) ∨
      ∃ row, e = .verdict true ∧ es = [.setBillingState coordinate row, .call (.resumeWaitingJobs coordinate)] := by
  cases e with
  | absent =>
    cases h
    exact .inl rfl
  | thrown =>
    cases h
    exact .inl rfl
  | verdict ok =>
    simp only [reevaluateBilling, Prod.mk.injEq] at h
    obtain ⟨rfl, -, -⟩ := h
    refine .inr ?_
    split
    next hr =>
      refine .inr ⟨_, ?_, rfl⟩
      cases ok with
      | true => rfl
      | false =>
        have hblocked : (s.billing_state coordinate).map (·.state) = some .blocked := hr.2.2
        exact absurd (by simp [nextState, hblocked]) hr.2.1
    next hr =>
      refine .inl ⟨_, rfl, fun hb => ?_⟩
      by_contra hn
      refine hr ⟨?_, hn, hb⟩
      rw [hb]
      exact fun heq => hn heq.symm

/-- What a handler does when it goes on: a call that parks nothing for billing,
an evaluation, or the park of its own job. -/
theorem settle_cases (h : settle graceMs s th a = some (es, next)) :
    (∀ th' ∈ next, th'.job = th.job ∧ th'.coordinate = th.coordinate) ∧
      (es = [] ∨ (∃ c, parking c = false ∧ es = [.call c]) ∨
        (th.pc = .working ∧ a.ending = none ∧ ∃ coordinate b announces, th.coordinate = some coordinate ∧
          reevaluateBilling graceMs s coordinate a.now a.evaluation = (es, b, announces)) ∨
        (th.pc = .evaluated .blocked ∧ a.aborted = false ∧ ∃ id t, th.job = some (id, t) ∧
          es = [.call (.lease id t (.parkJob (billingBlockedReason (th.coordinate.getD (js "undefined"))) false))])) := by
  have hgoto : ∀ pc, ∀ th' ∈ th.goto pc, th'.job = th.job ∧ th'.coordinate = th.coordinate := by
    rintro pc th' hth'
    cases hth'
    exact ⟨rfl, rfl⟩
  have hfailure : ∀ call, otherFailure call = true → ∀ id t, parking (.lease id t call) = false := by
    intro call hcall id t
    cases call with
    | parkJob => simpa [parking, otherFailure] using hcall
    | _ => rfl
  have hending : ∀ call, otherEnding call = true → ∀ id t, parking (.lease id t call) = false := by
    intro call hcall id t
    cases call with
    | parkJob reason reset => exact hfailure (.parkJob reason reset) hcall id t
    | _ => rfl
  have hend : ∀ call, (∀ id t, parking (.lease id t call) = false) → endJob th call = some (es, next) →
      next = none ∧ ∃ c, parking c = false ∧ es = [.call c] := by
    intro call hcall he
    obtain ⟨⟨id, t⟩, -, he⟩ := Option.map_eq_some_iff.mp he
    cases he
    exact ⟨rfl, _, hcall id t, rfl⟩
  simp only [settle] at h
  split at h
  next hpc =>
    split at h
    next call hcall =>
      split at h
      next ho =>
        obtain ⟨rfl, hc⟩ := hend call (hending call ho) h
        exact ⟨by simp, .inr (.inl hc)⟩
      · cases h
    next hnone =>
      split at h
      · cases h
        exact ⟨hgoto _, .inl rfl⟩
      next coordinate hc =>
        cases h
        exact ⟨hgoto _, .inr (.inr (.inl ⟨hpc, hnone, coordinate, _, _, hc, rfl⟩))⟩
  · cases h
    exact ⟨hgoto _, .inl rfl⟩
  next b hpc =>
    split at h
    · cases h
      exact ⟨by simp, .inl rfl⟩
    next job hjob =>
      obtain ⟨id, t⟩ := job
      split at h
      next hb =>
        subst hb
        cases ha : a.aborted with
        | true =>
          rw [ha, if_pos rfl] at h
          obtain ⟨rfl, hc⟩ := hend _ (fun _ _ => rfl) h
          exact ⟨by simp, .inr (.inl hc)⟩
        | false =>
          rw [ha] at h
          simp only [endJob, hjob, Option.map_some, Option.some.injEq, Prod.mk.injEq] at h
          obtain ⟨rfl, rfl⟩ := h
          exact ⟨by simp, .inr (.inr (.inr ⟨hpc, rfl, id, t, hjob, rfl⟩))⟩
      · cases h
        exact ⟨hgoto _, .inl rfl⟩
  · split at h
    · cases h
      exact ⟨by simp, .inl rfl⟩
    · obtain ⟨call, -, h⟩ := Option.bind_eq_some_iff.mp h
      split at h
      next ho =>
        obtain ⟨rfl, hc⟩ := hend call (hfailure call ho) h
        exact ⟨by simp, .inr (.inl hc)⟩
      · cases h

/-! ## The invariant -/

/-- A job parked for billing is one of a blocked event. -/
def Blocked (s : Store) : Prop := ∀ coordinate, ∀ r ∈ s.jobs.rows, parked coordinate r = true → s.state coordinate = some .blocked

/-- A job's handler has the coordinate of its row. -/
def Names (j : Jobs) (th : Thread) : Prop :=
  ∀ id t, th.job = some (id, t) → id ≤ j.seq ∧ ∀ r ∈ j.rows, r.id = id → coordinateOf r.payload = th.coordinate

structure Covered (w : Gate) : Prop where
  blocked : Blocked w.store
  named : ∀ k th, w.tasks k = some th → Names w.store.jobs th

/-- A job parks for billing only while its event is blocked, and the process
does not end between the unblocking of an event and the resumption of a job of
its that is parked. -/
structure Timely (w : Gate) (x : Act) : Prop where
  park : ∀ k a th id t coordinate, (x = .settle k a ∨ ∃ n, x = .crashDuring k a (n + 1)) → w.tasks k = some th →
    th.pc = .evaluated .blocked → a.aborted = false → th.job = some (id, t) → th.coordinate = some coordinate →
    (∃ r ∈ w.store.jobs.rows, Jobs.owned id (some t.val) r = true) → w.store.state coordinate = some .blocked
  crash : ∀ k a th coordinate, x = .crashDuring k a 1 → w.tasks k = some th → th.pc = .working → a.ending = none →
    th.coordinate = some coordinate → a.evaluation = .verdict true → ∀ r ∈ w.store.jobs.rows, parked coordinate r = false

theorem Blocked.call (h : Blocked s) (hc : parking c = false) : Blocked (s.apply (.call c)) :=
  fun coordinate r hr hp => h coordinate r (parked_of_call hc hr hp) hp

theorem Blocked.set {row : BillingStateRow} (h : Blocked s)
    (hrow : row.state = .blocked ∨ ∀ r ∈ s.jobs.rows, parked coordinate r = true → False) :
    Blocked (s.apply (.setBillingState coordinate row)) := by
  intro co r hr hp
  by_cases hco : co = coordinate
  · subst hco
    rcases hrow with hrow | hrow
    · simp [Store.state, Store.apply, hrow]
    · exact (hrow r hr hp).elim
  · have hs := h co r hr hp
    simpa [Store.state, Store.apply, hco] using hs

theorem Blocked.resumed {row : BillingStateRow} (h : Blocked s) :
    Blocked (rules.run s [.setBillingState coordinate row, .call (.resumeWaitingJobs coordinate)]) := by
  intro co r hr hp
  by_cases hco : co = coordinate
  · subst hco
    rw [not_parked_resumed (s := s) hr] at hp
    cases hp
  · have hs := h co r (parked_of_call (c := .resumeWaitingJobs coordinate) rfl hr hp) hp
    simpa [Store.state, Store.apply, rules, hco] using hs

theorem Blocked.park {id : Nat} {t : Jobs.WorkerToken} {reason : JsString} (h : Blocked s)
    (hrow : ∀ coordinate, ∀ r ∈ s.jobs.rows, Jobs.owned id (some t.val) r = true → coordinateOf r.payload = some coordinate →
      s.state coordinate = some .blocked) : Blocked (s.apply (.call (.lease id t (.parkJob reason false)))) := by
  intro co r hr hp
  rcases Jobs.of_mem_update hr with ⟨hr, -⟩ | ⟨q, hq, ho, rfl⟩
  · exact h co r hr hp
  · simp only [parked, Bool.and_eq_true, decide_eq_true_eq] at hp
    exact hrow co q hq ho hp.1.2

/-- What a handler does, whole or in part, keeps the invariant. -/
theorem Covered.settle {n : Nat} (hw : Covered w) (hth : w.tasks k = some th)
    (h : Billing.settle graceMs w.store th a = some (es, next)) (hx : Timely w x)
    (hact : x = .settle k a ∧ es.length ≤ n ∨ x = .crashDuring k a n) : Blocked (rules.run w.store (es.take n)) := by
  rcases (settle_cases h).2 with rfl | ⟨c, hc, rfl⟩ | ⟨hpc, hend, co, b, announces, hco, he⟩ | ⟨hpc, ha, id, t, hjob, rfl⟩
  · simpa using hw.blocked
  · cases n with
    | zero => exact hw.blocked
    | succ n =>
      rw [List.take_of_length_le (by simp)]
      exact hw.blocked.call hc
  · rcases reevaluateBilling_cases he with rfl | ⟨row, rfl, hrow⟩ | ⟨row, hv, rfl⟩
    · simpa using hw.blocked
    · cases n with
      | zero => exact hw.blocked
      | succ n =>
        rw [List.take_of_length_le (by simp)]
        refine hw.blocked.set ?_
        by_cases hb : w.store.state co = some .blocked
        · exact .inl (hrow hb)
        · exact .inr fun r hr hp => hb (hw.blocked co r hr hp)
    · match n with
      | 0 => exact hw.blocked
      | 1 =>
        rcases hact with ⟨-, hlen⟩ | rfl
        · simp at hlen
        · have hnone := hx.crash k a th co rfl hth hpc hend hco hv
          exact hw.blocked.set (.inr fun r hr hp => by simp [hnone r hr] at hp)
      | n + 2 =>
        rw [List.take_of_length_le (by simp)]
        exact hw.blocked.resumed
  · cases n with
    | zero => exact hw.blocked
    | succ n =>
      rw [List.take_of_length_le (by simp)]
      refine hw.blocked.park fun co r hr ho hco => ?_
      have hid : r.id = id := by
        simp only [Jobs.owned, Bool.and_eq_true, decide_eq_true_eq] at ho
        exact ho.1
      have hth' : th.coordinate = some co := by rw [← (hw.named k th hth id t hjob).2 r hr hid, hco]
      refine hx.park k a th id t co ?_ hth hpc ha hjob hth' ⟨r, hr, ho⟩
      rcases hact with ⟨rfl, -⟩ | rfl
      · exact .inl rfl
      · exact .inr ⟨n, rfl⟩

theorem Names.call (h : Names s.jobs th) : Names (s.jobs.call c) th := by
  intro id t hjob
  obtain ⟨hle, hrows⟩ := h id t hjob
  refine ⟨hle.trans Jobs.seq_le_call, fun r hr hid => ?_⟩
  rcases Jobs.spec_of_call hr with ⟨q, hq, hspec⟩ | hnew
  · have hqid : q.id = id := (congrArg JobSpec.id hspec).trans hid
    have hpayload : q.payload = r.payload := congrArg JobSpec.payload hspec
    rw [← hpayload]
    exact hrows q hq hqid
  · omega

theorem Names.run (h : Names s.jobs th) : Names (rules.run s es).jobs th := by
  refine Rules.run_invariant (I := fun s : Store => Names s.jobs th) (fun e _ s hs => ?_) h
  cases e with
  | setBillingState => exact hs
  | call c => exact hs.call

/-- A claim takes a row of the table. -/
theorem names_claim {row : JobRow} {now leaseMs : Int} {t : Jobs.WorkerToken} {types : Jobs.ClaimTypes}
    (h : (s.jobs.claimNextJob now t.val leaseMs types).1 = some row) :
    Names (s.jobs.call (.claimNextJob now t leaseMs types)) ⟨some (row.id, t), coordinateOf row.payload, .working⟩ := by
  have hrow : ∃ q ∈ s.jobs.rows, q.toJobSpec = row.toJobSpec := by
    simp only [Jobs.claimNextJob] at h
    split at h
    · cases h
    next q hq =>
      cases h
      exact ⟨q, (Jobs.of_candidate hq).1, rfl⟩
  obtain ⟨q, hq, hspec⟩ := hrow
  have hid : q.id = row.id := congrArg JobSpec.id hspec
  have hpayload : q.payload = row.payload := congrArg JobSpec.payload hspec
  refine Names.call fun id t' hjob => ?_
  cases hjob
  refine ⟨hid ▸ s.jobs.below q hq, fun r hr hr' => ?_⟩
  have hrq : r = q := by
    have h₁ := Jobs.row?_of_mem hr
    rw [hr', ← hid, Jobs.row?_of_mem hq] at h₁
    exact (Option.some.inj h₁).symm
  rw [hrq, hpayload]

/-- **Every timely act keeps the invariant.** -/
theorem Covered.step (hw : Covered w) (h : Step graceMs w x w') (hx : Timely w x) : Covered w' := by
  cases x with
  | evaluate k co =>
    simp only [Step, act] at h
    split at h <;> cases h
    refine ⟨hw.blocked, fun j th hj => ?_⟩
    rw [World.spawn_tasks] at hj
    split at hj
    · cases hj
      exact nofun
    · exact hw.named j th hj
  | claim k now t leaseMs types =>
    simp only [Step, act] at h
    split at h
    · cases h
    · obtain ⟨row, hrow, rfl⟩ := Option.map_eq_some_iff.mp h
      refine ⟨hw.blocked.call (c := .claimNextJob now t leaseMs types) rfl, fun j th hj => ?_⟩
      rw [World.spawn_tasks] at hj
      split at hj
      · cases hj
        exact names_claim hrow
      · exact (hw.named j th hj).call
  | call c =>
    simp only [Step, act] at h
    split at h
    next hout =>
      cases h
      refine ⟨hw.blocked.call ?_, fun j th hj => (hw.named j th hj).call⟩
      cases c with
      | lease id t call =>
        cases call with
        | parkJob => cases hout
        | _ => rfl
      | _ => rfl
    · cases h
  | settle k a =>
    obtain ⟨⟨es, next⟩, ho, rfl⟩ := Option.map_eq_some_iff.mp h
    obtain ⟨th, hth, ho⟩ := Option.bind_eq_some_iff.mp ho
    refine ⟨?_, fun j th' hj => ?_⟩
    · have hb := hw.settle (n := es.length) hth ho hx (.inl ⟨rfl, le_rfl⟩)
      rwa [List.take_length] at hb
    · rw [Rules.advance_tasks] at hj
      split at hj
      · obtain ⟨hjob, hco⟩ := (settle_cases ho).1 th' hj
        have hnames : Names (rules.run w.store es).jobs th := (hw.named k th hth).run
        rwa [Names, ← hjob, ← hco] at hnames
      · exact (hw.named j th' hj).run
  | crash =>
    cases h
    exact ⟨hw.blocked, nofun⟩
  | crashDuring k a n =>
    obtain ⟨⟨es, next⟩, ho, rfl⟩ := Option.map_eq_some_iff.mp h
    obtain ⟨th, hth, ho⟩ := Option.bind_eq_some_iff.mp ho
    exact ⟨hw.settle hth ho hx (.inr rfl), nofun⟩

theorem covered_fresh : Covered (.fresh .start) := ⟨by simp [Blocked, Store.start, Jobs.empty], nofun⟩

/-- **No job stays parked for the billing of an event that is not blocked**,
after every run of timely acts. -/
theorem parked_blocked (h : Run (fun w x w' => Step graceMs w x w' ∧ Timely w x) (.fresh .start) xs w)
    (hb : w.store.state coordinate ≠ some .blocked) : ∀ r ∈ w.store.jobs.rows, parked coordinate r = false := by
  intro r hr
  have hw : Covered w := h.invariant (fun _ _ _ hw hx => hw.step hx.1 hx.2) covered_fresh
  by_contra hp
  exact hb (hw.blocked coordinate r hr (by simpa using hp))

/-- A job of the event `e` is claimed, and the event is within its tier. -/
def Small.claimed : List Act :=
  [.call (.enqueueJob (js "process_attendee") (js "key") (.obj [(js "coordinate", .str (js "e"))]) 0),
    .claim 1 0 ⟨js "w", by decide⟩ 10 {}]

/-- A handler goes on: its evaluation answers so, and what it publishes is taken. -/
def Small.goes (k : Nat) (ok : Bool) : Act := .settle k ⟨.verdict ok, 0, true, none, false⟩

theorem parked_blocked_payingEvent :
    (Run.exec (act 0) (.fresh .start) (Small.claimed ++ [Small.goes 1 true])).map
      (fun w => w.store.jobs.rows.map (parked (js "e"))) = some [false] := by
  have h : (Run.exec (act 0) (.fresh .start) (Small.claimed ++ [Small.goes 1 true])).map
      (fun w => (w.store.jobs.rows.length, w.store.state (js "e"))) = some (1, some .ok) := by
    decide +kernel
  obtain ⟨w₃, hw, hrows⟩ := Option.map_eq_some_iff.mp h
  rw [hw]
  obtain ⟨w₁, h₁, hw⟩ := Option.bind_eq_some_iff.mp hw
  obtain ⟨w₂, h₂, hw⟩ := Option.bind_eq_some_iff.mp hw
  obtain ⟨w₃, h₃, hw⟩ := Option.bind_eq_some_iff.mp hw
  cases hw
  rw [Prod.mk.injEq] at hrows
  have hworking : ∀ k th, w₂.tasks k = some th → th.pc = .working := by
    intro k th hk
    cases h₁
    simp only [act] at h₂
    split at h₂
    · cases h₂
    · obtain ⟨row, -, rfl⟩ := Option.map_eq_some_iff.mp h₂
      rw [World.spawn_tasks] at hk
      split at hk <;> cases hk
      rfl
  have hrun : Run (fun w x w' => Step 0 w x w' ∧ Timely w x) (.fresh .start) (Small.claimed ++ [Small.goes 1 true]) w₃ := by
    refine .cons ⟨h₁, ?_, ?_⟩ (.cons ⟨h₂, ?_, ?_⟩ (.cons ⟨h₃, ?_, ?_⟩ .nil))
    · rintro _ _ _ _ _ _ (h | ⟨_, h⟩) <;> cases h
    · rintro _ _ _ _ h
      cases h
    · rintro _ _ _ _ _ _ (h | ⟨_, h⟩) <;> cases h
    · rintro _ _ _ _ h
      cases h
    · rintro k a th _ _ _ - hk hpc
      rw [hworking k th hk] at hpc
      cases hpc
    · rintro _ _ _ _ h
      cases h
  have hparked : ∀ r ∈ w₃.store.jobs.rows, parked (js "e") r = false := parked_blocked hrun (by rw [hrows.2]; decide)
  obtain ⟨row, hrow⟩ := List.length_eq_one_iff.mp hrows.1
  rw [hrow] at hparked
  simp [hrow, hparked row (.head _)]

/-- The handler an act is about. -/
def Act.key : Act → Option Nat
  | .evaluate k _ | .claim k .. | .settle k _ => some k
  | _ => none

/-- An act starts and moves no other handler. -/
theorem tasks_of_step {j : Nat} (h : Step graceMs w x w') (hx : x.key ≠ some j) (hj : w.tasks j = none) :
    w'.tasks j = none := by
  have hne : ∀ {k}, x.key = some k → j ≠ k := fun hk hjk => hx (hjk ▸ hk)
  cases x with
  | evaluate k co =>
    simp only [Step, act] at h
    split at h <;> cases h
    rw [World.spawn_tasks, if_neg (hne rfl), hj]
  | claim k =>
    simp only [Step, act] at h
    split at h
    · cases h
    · obtain ⟨row, -, rfl⟩ := Option.map_eq_some_iff.mp h
      rw [World.spawn_tasks, if_neg (hne rfl)]
      exact hj
  | call c =>
    simp only [Step, act] at h
    split at h <;> cases h
    exact hj
  | settle k a =>
    obtain ⟨o, -, rfl⟩ := Option.map_eq_some_iff.mp h
    rw [Rules.advance_tasks, if_neg (hne rfl), hj]
  | crash =>
    cases h
    rfl
  | crashDuring k a n =>
    obtain ⟨o, -, rfl⟩ := Option.map_eq_some_iff.mp h
    rfl

/-- A job is told that its event is blocked and waits for the announcement; the
event is unblocked meanwhile, and then the job parks. -/
theorem parked_blocked_slowAnnouncement : ∃ xs w, Run (Step 0) (.fresh .start) xs w ∧ (∀ k, w.tasks k = none) ∧
    w.store.state (js "e") ≠ some .blocked ∧ ∃ r ∈ w.store.jobs.rows, parked (js "e") r = true := by
  let xs : List Act := Small.claimed ++ [Small.goes 1 false, .evaluate 2 (js "e"), Small.goes 2 true, Small.goes 2 true,
    Small.goes 2 true, Small.goes 1 true, Small.goes 1 true]
  have h : (Run.exec (act 0) (.fresh .start) xs).map (fun w => (w.tasks 1 |>.isNone, w.tasks 2 |>.isNone,
      w.store.state (js "e"), w.store.jobs.rows.any (parked (js "e")))) = some (true, true, some .ok, true) := by
    decide +kernel
  obtain ⟨w, hw, hval⟩ := Option.map_eq_some_iff.mp h
  simp only [Prod.mk.injEq, Option.isNone_iff_eq_none, List.any_eq_true] at hval
  obtain ⟨h₁, h₂, hstate, hrow⟩ := hval
  have hrun : Run (Step 0) (.fresh .start) xs w := Run.of_exec hw
  refine ⟨xs, w, hrun, fun k => ?_, by rw [hstate]; decide, hrow⟩
  by_cases hk : k = 1 ∨ k = 2
  · rcases hk with rfl | rfl
    · exact h₁
    · exact h₂
  · refine hrun.invariant_of (I := fun w => w.tasks k = none) (G := fun x => x.key ≠ some k)
      (fun _ _ _ hj hx h => tasks_of_step h hx hj) (fun x hx => ?_) rfl
    have hkeys : ∀ x ∈ xs, x.key = none ∨ x.key = some 1 ∨ x.key = some 2 := by
      simp [xs, Small.claimed, Small.goes, Act.key]
    rcases hkeys x hx with h | h | h <;> rw [h]
    · exact nofun
    · exact fun hk1 => hk (.inl (Option.some.inj hk1).symm)
    · exact fun hk2 => hk (.inr (Option.some.inj hk2).symm)

end Billing

end Nostrautica
