/-
The leases of the job queue are exclusive: whatever the calls, a row's token is
the one that holds its lease in the log (`Inv`), so a call under any other
token finds no row, and every claim is over at most once (`leases_exclusive`).
-/
import Nostrautica.Store.Jobs

namespace Nostrautica.Jobs

open Js Lease Log

variable {j : Jobs} {w w' : World} {id : Nat} {t : JsString} {r : JobRow}

/-! ## Rows by id -/

/-- The row with an id. -/
def row? (j : Jobs) (id : Nat) : Option JobRow := j.rows.find? (·.id = id)

theorem id_of_row? (h : j.row? id = some r) : r.id = id := by
  have hf := List.find?_some (p := fun r : JobRow => decide (r.id = id)) h
  simpa using hf

theorem mem_of_row? (h : j.row? id = some r) : r ∈ j.rows := List.mem_of_find?_eq_some h

theorem row?_of_mem (h : r ∈ j.rows) : j.row? r.id = some r := by
  have hj := j.ordered
  unfold row?
  generalize j.rows = rows at h hj
  induction rows with
  | nil => cases h
  | cons s rows ih =>
    rw [List.pairwise_cons] at hj
    rcases List.mem_cons.mp h with rfl | h
    · simp
    · rw [List.find?_cons_of_neg (by simpa using Nat.ne_of_lt (hj.1 r h))]
      exact ih h hj.2

theorem row?_update {p : JobRow → Bool} {f : JobRow → JobRow} {keep} :
    (j.update p f keep).row? id = (j.row? id).map fun r => if p r then f r else r := by
  have hid : ∀ r : JobRow, (if p r then f r else r).id = r.id := by intro r; split <;> simp [keep]
  simp only [row?, update, List.find?_map, Function.comp_def, hid]

/-- An update changes a row it selects, and no other. -/
theorem mem_update {p : JobRow → Bool} {f : JobRow → JobRow} (h : r ∈ j.rows) (hp : p r = false)
    (keep : ∀ r, (f r).toJobSpec = r.toJobSpec := by exact fun _ => rfl) :
    r ∈ (j.update p f keep).rows :=
  List.mem_map.mpr ⟨r, h, by simp [hp]⟩

theorem ext {j k : Jobs} (hr : j.rows = k.rows) (hs : j.seq = k.seq) : j = k := by
  cases j
  cases k
  simp_all

/-- An update that selects no row changes nothing. -/
theorem update_eq_self {p : JobRow → Bool} {f : JobRow → JobRow} (h : ∀ r ∈ j.rows, p r = false)
    (keep : ∀ r, (f r).toJobSpec = r.toJobSpec := by exact fun _ => rfl) :
    j.update p f keep = j := by
  have hmap : j.rows.map (fun r => if p r then f r else r) = j.rows.map id :=
    List.map_congr_left fun r hr => by simp [h r hr]
  exact ext (hmap.trans (List.map_id _)) rfl

theorem changes_pos {p : JobRow → Bool} : 0 < j.changes p ↔ ∃ r ∈ j.rows, p r = true := List.countP_pos_iff

theorem row?_insert {type dedupeKey payload notBefore free} (h : (j.insert type dedupeKey payload notBefore free).row? id = some r) :
    j.row? id = some r ∨ j.row? id = none ∧ r.worker_token = none ∧ r.state = .pending := by
  simp only [row?, insert, List.find?_append, Option.or_eq_some_iff] at h ⊢
  rcases h with h | ⟨hn, h⟩
  · exact .inl h
  · obtain rfl := List.mem_singleton.mp (List.mem_of_find?_eq_some h)
    exact .inr ⟨hn, rfl, rfl⟩

/-! ## What a claim takes -/

theorem mem_of_first : ∀ {rows : List JobRow}, first rows = some r → r ∈ rows
  | s :: rows, h => by
    simp only [first] at h
    split at h
    · cases h
      exact .head _
    next s' hs =>
      split at h
      · cases h
        exact .head _
      · cases h
        exact .tail _ (mem_of_first hs)

theorem of_candidate {now : Int} {types : ClaimTypes} (h : j.candidate now types = some r) :
    r ∈ j.rows ∧ runnable now r = true := by
  simp only [candidate] at h
  split at h
  · cases h
  · have hm := List.mem_filter.mp (mem_of_first h)
    exact ⟨hm.1, (Bool.and_eq_true_iff.mp hm.2).1⟩

/-! ## The invariant -/

/-- A row's token is the one that holds its lease, and stands there exactly
while the row runs. -/
structure Inv (w : World) : Prop where
  held : ∀ id, holder w.log id = (w.jobs.row? id).bind (·.worker_token)
  running : ∀ r ∈ w.jobs.rows, r.worker_token.isSome = true ↔ r.state = .running
  legal : Legal w.log

theorem inv_start : Inv start := ⟨fun _ => rfl, by simp [start, empty], trivial⟩

/-- The rows that hold a token are the leases that stand. -/
theorem Inv.standing (h : Inv w) : Standing w.log id t ↔ ∃ r ∈ w.jobs.rows, r.id = id ∧ r.worker_token = some t := by
  rw [← holder_eq_some, h.held, Option.bind_eq_some_iff]
  constructor
  · rintro ⟨r, hr, ht⟩
    exact ⟨r, mem_of_row? hr, id_of_row? hr, ht⟩
  · rintro ⟨r, hr, rfl, ht⟩
    exact ⟨r, row?_of_mem hr, ht⟩

theorem Inv.holder_of_mem (h : Inv w) (hr : r ∈ w.jobs.rows) : holder w.log r.id = r.worker_token := by
  rw [h.held, row?_of_mem hr, Option.bind_some]

theorem Inv.token_none (h : Inv w) (hr : r ∈ w.jobs.rows) (hs : r.state ≠ .running) : r.worker_token = none := by
  cases ht : r.worker_token with
  | none => rfl
  | some t => exact absurd ((h.running r hr).mp (by rw [ht]; rfl)) hs

/-- An update keeps the invariant when it keeps each row's token in step with
its state and with the log. -/
theorem Inv.update (h : Inv w) {p : JobRow → Bool} {f : JobRow → JobRow} {log : Lease.Log Nat JsString}
    (hl : Legal log)
    (hrun : ∀ r ∈ w.jobs.rows, p r = true → ((f r).worker_token.isSome = true ↔ (f r).state = .running))
    (hout : ∀ id, w.jobs.row? id = none → holder log id = none)
    (hin : ∀ r ∈ w.jobs.rows, holder log r.id = if p r then (f r).worker_token else r.worker_token)
    (keep : ∀ r, (f r).toJobSpec = r.toJobSpec := by exact fun _ => rfl) :
    Inv ⟨w.jobs.update p f keep, log⟩ := by
  refine ⟨fun id => ?_, fun r hr => ?_, hl⟩
  · show holder log id = ((w.jobs.update p f keep).row? id).bind (·.worker_token)
    rw [row?_update]
    cases hid : w.jobs.row? id with
    | none => exact hout id hid
    | some r =>
      rw [← id_of_row? hid, hin r (mem_of_row? hid)]
      simp only [Option.map_some, Option.bind_some]
      split <;> rfl
  · obtain ⟨s, hs, rfl⟩ := List.mem_map.mp hr
    split
    next hp => exact hrun s hs hp
    next => exact h.running s hs

theorem Inv.row?_none (h : Inv w) (hid : w.jobs.row? id = none) : holder w.log id = none := by
  rw [h.held, hid, Option.bind_none]

/-- An update that leaves tokens alone, and states of rows with a token. -/
theorem Inv.update_keep (h : Inv w) {p : JobRow → Bool} {f : JobRow → JobRow}
    (hf : ∀ r ∈ w.jobs.rows, p r = true → (f r).worker_token = r.worker_token)
    (hrun : ∀ r ∈ w.jobs.rows, p r = true → ((f r).state = .running ↔ r.state = .running))
    (keep : ∀ r, (f r).toJobSpec = r.toJobSpec := by exact fun _ => rfl) :
    Inv ⟨w.jobs.update p f keep, w.log⟩ := by
  refine h.update h.legal (fun r hr hp => ?_) (fun id => h.row?_none) (fun r hr => ?_) keep
  · rw [hf r hr hp, hrun r hr hp]
    exact h.running r hr
  · rw [h.holder_of_mem hr]
    split
    next hp => rw [hf r hr hp]
    next => rfl

/-! ## One lemma for each kind of call -/

theorem Inv.enqueueJob (h : Inv w) (type dedupeKey : JsString) (payload : Json) (notBefore : Int) :
    Inv ⟨(w.jobs.enqueueJob type dedupeKey payload notBefore).2, w.log⟩ := by
  unfold Jobs.enqueueJob
  split
  next free =>
    refine ⟨fun id => ?_, fun r hr => ?_, h.legal⟩
    · show holder w.log id = ((w.jobs.insert type dedupeKey payload notBefore free).row? id).bind (·.worker_token)
      cases hid : (w.jobs.insert type dedupeKey payload notBefore free).row? id with
      | none =>
        simp only [row?, insert, List.find?_append, Option.or_eq_none_iff] at hid
        exact h.row?_none hid.1
      | some r =>
        rcases row?_insert hid with hr | ⟨hr, ht, -⟩
        · rw [h.held, hr]
        · rw [h.row?_none hr, Option.bind_some, ht]
    · rcases List.mem_append.mp hr with hr | hr
      · exact h.running r hr
      · rw [List.mem_singleton.mp hr]
        simp
  next => exact h

/-- A row that may be taken is free, or its worker's lease has lapsed. -/
theorem Inv.lapses (h : Inv w) (hr : r ∈ w.jobs.rows) :
    Legal (Jobs.lapses [r] ++ w.log) ∧ holder (Jobs.lapses [r] ++ w.log) r.id = none ∧
      ∀ id, id ≠ r.id → holder (Jobs.lapses [r] ++ w.log) id = holder w.log id := by
  have ht := h.holder_of_mem hr
  cases hw : r.worker_token with
  | none =>
    simp only [Jobs.lapses, List.filterMap_cons, leaseOf, hw, Option.map_none, List.filterMap_nil, List.map_nil,
      List.nil_append]
    exact ⟨h.legal, ht.trans hw, fun _ _ => trivial⟩
  | some t =>
    simp only [Jobs.lapses, List.filterMap_cons, leaseOf, hw, Option.map_some, List.filterMap_nil, List.map_cons,
      List.map_nil, List.singleton_append]
    refine ⟨⟨ht.trans hw, h.legal⟩, by simp [holder], fun id hid => ?_⟩
    rw [holder, if_neg (Ne.symm hid)]

theorem Inv.claimNextJob (h : Inv w) (now : Int) (t : WorkerToken) (leaseMs : Int) (types : ClaimTypes) :
    Inv ⟨(w.jobs.claimNextJob now t.val leaseMs types).2,
      happened w.jobs (.claimNextJob now t leaseMs types) ++ w.log⟩ := by
  simp only [Jobs.claimNextJob, happened]
  split
  next => exact h
  next row hc =>
    obtain ⟨hrow, -⟩ := of_candidate hc
    obtain ⟨hlegal, hfree, hframe⟩ := h.lapses hrow
    have hl : Legal (.taken row.id t.val :: Jobs.lapses [row] ++ w.log) := ⟨hfree, hlegal⟩
    refine h.update hl (fun r _ _ => by simp [claim]) (fun id hid => ?_) fun r hr => ?_
    · have hne : row.id ≠ id := by
        rintro rfl
        rw [row?_of_mem hrow] at hid
        cases hid
      rw [List.cons_append, holder, if_neg hne, hframe id (Ne.symm hne)]
      exact h.row?_none hid
    · rw [List.cons_append, holder]
      by_cases he : r.id = row.id
      · simp [he, claim]
      · rw [if_neg (Ne.symm he), hframe r.id he, h.holder_of_mem hr]
        simp [he]

/-- A call that ends an attempt finds the row whose lease stands, or none. -/
theorem Inv.finish (h : Inv w) (t : WorkerToken) {set : JobRow → JobRow}
    {keep : ∀ r, (set r).toJobSpec = r.toJobSpec} (hset : ∀ r, (set r).state ≠ .running) :
    Inv ⟨(w.jobs.finish id (some t.val) set keep).2,
      (if (w.jobs.finish id (some t.val) set keep).1 then [.ended id t.val] else []) ++ w.log⟩ := by
  have howned : ∀ r : JobRow, owned id (some t.val) r = true ↔ r.id = id ∧ r.worker_token = some t.val := by
    intro r
    simp [owned, t.ok]
  simp only [Jobs.finish, decide_eq_true_eq]
  split
  next hpos =>
    obtain ⟨s, hs, hp⟩ := changes_pos.mp hpos
    obtain ⟨rfl, hst⟩ := (howned s).mp hp
    have hl : Legal ([.ended s.id t.val] ++ w.log) := ⟨(h.holder_of_mem hs).trans hst, h.legal⟩
    refine h.update hl ?_ (fun id hid => ?_) (fun r hr => ?_) (by exact keep)
    · intro r _ _
      simp [hset]
    · rw [List.singleton_append, holder, h.row?_none hid]
      split <;> rfl
    · rw [List.singleton_append, holder]
      by_cases he : s.id = r.id
      · obtain rfl : s = r := by
          have hs' := row?_of_mem hs
          rw [he, row?_of_mem hr] at hs'
          exact (Option.some.inj hs').symm
        rw [if_pos rfl, if_pos hp]
      · have hp' : ¬ owned s.id (some t.val) r = true := fun hp' => he ((howned r).mp hp').1.symm
        rw [if_neg he, if_neg hp', h.holder_of_mem hr]
  next hpos =>
    have hnone : ∀ r ∈ w.jobs.rows, owned id (some t.val) r = false := by
      intro r hr
      by_contra hp
      exact hpos (changes_pos.mpr ⟨r, hr, by simpa using hp⟩)
    rw [update_eq_self hnone (by exact keep)]
    exact h

theorem Inv.reclaimExpiredLeases (h : Inv w) (now : Int) :
    Inv ⟨(w.jobs.reclaimExpiredLeases now).2, Jobs.lapses (w.jobs.rows.filter (expired now)) ++ w.log⟩ := by
  have hmem : ∀ p : Nat × JsString, p ∈ (w.jobs.rows.filter (expired now)).filterMap leaseOf ↔
      ∃ r ∈ w.jobs.rows, expired now r = true ∧ r.id = p.1 ∧ r.worker_token = some p.2 := by
    intro p
    simp only [List.mem_filterMap, List.mem_filter, leaseOf, Option.map_eq_some_iff]
    constructor
    · rintro ⟨r, ⟨hr, he⟩, t, ht, rfl⟩
      exact ⟨r, hr, he, rfl, ht⟩
    · rintro ⟨r, hr, he, hid, ht⟩
      exact ⟨r, ⟨hr, he⟩, p.2, ht, by rw [hid]⟩
  have hkey : ∀ r ∈ w.jobs.rows, r.id ∈ ((w.jobs.rows.filter (expired now)).filterMap leaseOf).map Prod.fst ↔
      expired now r = true := by
    intro r hr
    rw [List.mem_map]
    constructor
    · rintro ⟨p, hp, hid⟩
      obtain ⟨s, hs, he, hs', -⟩ := (hmem p).mp hp
      have heq := row?_of_mem hs
      rw [hs', hid, row?_of_mem hr] at heq
      rwa [Option.some.inj heq]
    · intro he
      have hrun : r.state = .running := by simpa using (Bool.and_eq_true_iff.mp he).1
      obtain ⟨t, ht⟩ := Option.isSome_iff_exists.mp ((h.running r hr).mpr hrun)
      exact ⟨(r.id, t), (hmem _).mpr ⟨r, hr, he, rfl, ht⟩, rfl⟩
  have hnodup : (((w.jobs.rows.filter (expired now)).filterMap leaseOf).map Prod.fst).Nodup := by
    rw [List.Nodup, List.pairwise_map, List.pairwise_filterMap]
    refine (w.jobs.ordered.sublist List.filter_sublist).imp fun {a b} hab p hp q hq => ?_
    simp only [leaseOf, Option.map_eq_some_iff] at hp hq
    obtain ⟨_, -, rfl⟩ := hp
    obtain ⟨_, -, rfl⟩ := hq
    exact Nat.ne_of_lt hab
  have hl : Legal (Jobs.lapses (w.jobs.rows.filter (expired now)) ++ w.log) := by
    refine h.legal.lapses hnodup fun p hp => ?_
    obtain ⟨r, hr, -, hid, ht⟩ := (hmem p).mp hp
    rw [← hid, h.holder_of_mem hr, ht]
  refine h.update hl (fun r _ _ => by simp) (fun id hid => ?_) fun r hr => ?_
  · rw [Jobs.lapses, holder_lapses, h.row?_none hid, ite_self]
  · rw [Jobs.lapses, holder_lapses, h.holder_of_mem hr]
    simp only [hkey r hr]

theorem Inv.resume (h : Inv w) (p : JobRow → Bool) : Inv ⟨(w.jobs.resume p).2, w.log⟩ := by
  unfold Jobs.resume
  refine h.update_keep (fun _ _ _ => by rfl) fun r _ hp => ?_
  have hw : r.state = .waiting := by simpa using (Bool.and_eq_true_iff.mp hp).1
  simp [hw]

theorem Inv.heartbeatJob (h : Inv w) (id : Nat) (t : WorkerToken) (leaseUntil : Int) :
    Inv ⟨(w.jobs.heartbeatJob id t.val leaseUntil).2, w.log⟩ := by
  unfold Jobs.heartbeatJob
  exact h.update_keep (fun _ _ _ => by rfl) fun _ _ _ => by rfl

/-- **Every call keeps the invariant.** -/
theorem Inv.step {c : Call} (h : Inv w) (hs : Step w c w') : Inv w' := by
  obtain rfl := hs
  cases c with
  | enqueueJob type dedupeKey payload notBefore => exact h.enqueueJob type dedupeKey payload notBefore
  | claimNextJob now t leaseMs types => exact h.claimNextJob now t leaseMs types
  | reclaimExpiredLeases now => exact h.reclaimExpiredLeases now
  | resumeWaitingJobs | resumeDaemonParkedJobs | resumeEventNotLiveJobs => exact h.resume _
  | lease id t c =>
    cases c with
    | heartbeatJob leaseUntil => exact h.heartbeatJob id t leaseUntil
    | completeJob | releaseJob | parkJob => exact h.finish t fun _ => by simp
    | failJob attempts nextRunAt error poison => exact h.finish t fun _ => by cases poison <;> simp

/-- The invariant holds after every run. -/
theorem Inv.run {calls : List Call} (h : Run Step w calls w') (hw : Inv w) : Inv w' :=
  h.invariant (fun _ _ _ => Inv.step) hw

/-! ## What follows for a call, for a row at rest, and for a claim -/

/-- A call under a token is an update of the row whose lease stands under it. -/
theorem Inv.leaseCall (h : Inv w) (id : Nat) (t : WorkerToken) (c : LeaseCall) : ∃ p f keep,
    w.jobs.leaseCall id t c = (decide (0 < w.jobs.changes p), w.jobs.update p f keep) ∧
      ∀ r ∈ w.jobs.rows, p r = true ↔ r.id = id ∧ r.worker_token = some t.val := by
  have howned : ∀ r ∈ w.jobs.rows, owned id (some t.val) r = true ↔ r.id = id ∧ r.worker_token = some t.val := by
    intro r _
    simp [owned, t.ok]
  cases c with
  | heartbeatJob leaseUntil =>
    refine ⟨_, _, _, rfl, fun r hr => ?_⟩
    have hrun := h.running r hr
    simp only [Bool.and_eq_true, decide_eq_true_eq, and_iff_left_iff_imp]
    rintro ⟨-, ht⟩
    exact hrun.mp (by rw [ht]; rfl)
  | completeJob | failJob | releaseJob | parkJob => exact ⟨_, _, _, rfl, howned⟩

/-- A call under a token returns true exactly when its lease stands. -/
theorem Inv.leaseCall_true (h : Inv w) {t : WorkerToken} {c : LeaseCall} :
    (w.jobs.leaseCall id t c).1 = true ↔ Standing w.log id t.val := by
  obtain ⟨p, f, keep, heq, hp⟩ := h.leaseCall id t c
  rw [heq, h.standing, decide_eq_true_eq, changes_pos]
  exact exists_congr fun r => and_congr_right fun hr => hp r hr

/-- A call under a token whose lease does not stand changes nothing. -/
theorem Inv.leaseCall_lost (h : Inv w) {t : WorkerToken} {c : LeaseCall} (hs : ¬ Standing w.log id t.val) :
    (w.jobs.leaseCall id t c).2 = w.jobs := by
  obtain ⟨p, f, keep, heq, hp⟩ := h.leaseCall id t c
  rw [heq]
  refine update_eq_self (fun r hr => ?_) keep
  by_contra hpr
  exact hs (h.standing.mpr ⟨r, hr, (hp r hr).mp (by simpa using hpr)⟩)

/-- A call on a row changes no other. -/
theorem Inv.leaseCall_others (h : Inv w) {t : WorkerToken} {c : LeaseCall} (hr : r ∈ w.jobs.rows) (hid : r.id ≠ id) :
    r ∈ (w.jobs.leaseCall id t c).2.rows := by
  obtain ⟨p, f, keep, heq, hp⟩ := h.leaseCall id t c
  rw [heq]
  refine mem_update hr ?_ keep
  by_contra hpr
  exact hid ((hp r hr).mp (by simpa using hpr)).1

/-- A row at rest: finished, or parked as far as calls other than resume
sweeps go. -/
def AtRest (resume : Bool) (r : JobRow) : Prop :=
  r.state = .done ∨ r.state = .poison ∨ r.state = .waiting ∧ resume = false

theorem AtRest.ne {resume : Bool} (h : AtRest resume r) : r.state ≠ .running ∧ r.state ≠ .pending := by
  rcases h with h | h | ⟨h, -⟩ <;> simp [h]

theorem AtRest.not_expired {resume : Bool} (h : AtRest resume r) (now : Int) : expired now r = false := by
  simp [expired, h.ne.1]

theorem AtRest.not_runnable {resume : Bool} (h : AtRest resume r) (now : Int) : runnable now r = false := by
  simp [runnable, h.not_expired, h.ne.2]

/-- **A row at rest stays as it is.** -/
theorem AtRest.step {c : Call} (hw : Inv w) (hs : Step w c w') (hr : r ∈ w.jobs.rows) (h : AtRest c.isResume r) :
    r ∈ w'.jobs.rows := by
  obtain rfl := hs
  have hresume : ∀ p : JobRow → Bool, c.isResume = true → r ∈ (w.jobs.resume p).2.rows := by
    intro p hc
    refine mem_update hr ?_
    rcases h with h | h | ⟨-, h⟩
    · simp [h]
    · simp [h]
    · rw [hc] at h
      cases h
  cases c with
  | enqueueJob type dedupeKey payload notBefore =>
    show r ∈ (w.jobs.enqueueJob type dedupeKey payload notBefore).2.rows
    unfold Jobs.enqueueJob
    split
    · exact List.mem_append_left _ hr
    · exact hr
  | claimNextJob now t leaseMs types =>
    show r ∈ (w.jobs.claimNextJob now t.val leaseMs types).2.rows
    unfold Jobs.claimNextJob
    split
    next => exact hr
    next row hc =>
      obtain ⟨hrow, hrun⟩ := of_candidate hc
      refine mem_update hr ?_
      rw [decide_eq_false_iff_not]
      intro hid
      have heq := row?_of_mem hrow
      rw [← hid, row?_of_mem hr] at heq
      rw [← Option.some.inj heq, h.not_runnable] at hrun
      cases hrun
  | lease id t c =>
    show r ∈ (w.jobs.leaseCall id t c).2.rows
    by_cases hid : r.id = id
    · rw [hw.leaseCall_lost ?_]
      · exact hr
      · rw [← holder_eq_some, ← hid, hw.holder_of_mem hr, hw.token_none hr h.ne.1]
        simp
    · exact hw.leaseCall_others hr hid
  | reclaimExpiredLeases now => exact mem_update hr (h.not_expired now)
  | resumeWaitingJobs | resumeDaemonParkedJobs | resumeEventNotLiveJobs => exact hresume _ rfl

theorem AtRest.run (resume : Bool) {calls : List Call} (h : Run Step w calls w') (hw : Inv w)
    (hc : ∀ c ∈ calls, c.isResume = true → resume = true) (hr : r ∈ w.jobs.rows) (hrest : AtRest resume r) :
    r ∈ w'.jobs.rows := by
  refine (h.invariant_of (I := fun w => Inv w ∧ r ∈ w.jobs.rows) (fun w c w' hi hc hs => ?_) hc ⟨hw, hr⟩).2
  refine ⟨hi.1.step hs, AtRest.step hi.1 hs hi.2 ?_⟩
  rcases hrest with hd | hp | ⟨hwt, hres⟩
  · exact .inl hd
  · exact .inr (.inl hp)
  · refine .inr (.inr ⟨hwt, ?_⟩)
    by_contra hcr
    rw [hc (by simpa using hcr)] at hres
    cases hres

theorem claimTokens_append (calls : List Call) (c : Call) :
    claimTokens (c :: calls) = claimTokens [c] ++ claimTokens calls := by
  cases c <;> rfl

theorem tokens_happened (j : Jobs) (c : Call) (log : Lease.Log Nat JsString) :
    (tokens (happened j c ++ log)).Sublist (claimTokens [c] ++ tokens log) := by
  cases c with
  | claimNextJob now t leaseMs types =>
    simp only [happened]
    split
    · exact .cons _ (.refl _)
    · rw [List.cons_append, tokens, Jobs.lapses, tokens_lapses]
      exact .refl _
  | lease id t c =>
    cases c
    case heartbeatJob => exact .refl _
    all_goals
      simp only [happened]
      split <;> exact .refl _
  | reclaimExpiredLeases now =>
    simp only [happened, Jobs.lapses, tokens_lapses]
    exact .refl _
  | enqueueJob | resumeWaitingJobs | resumeDaemonParkedJobs | resumeEventNotLiveJobs => exact .refl _

/-- The log's claims are among the run's. -/
theorem tokens_run {calls : List Call} (h : Run Step w calls w') :
    (tokens w'.log).Sublist ((claimTokens calls).reverse ++ tokens w.log) := by
  induction h with
  | nil => exact .refl _
  | @cons w c w' calls w'' hs _ ih =>
    obtain rfl := hs
    rw [claimTokens_append, List.reverse_append, List.append_assoc]
    refine ih.trans (List.Sublist.append_left ?_ _)
    have hrev : (claimTokens [c]).reverse = claimTokens [c] := by cases c <;> rfl
    rw [hrev]
    exact tokens_happened w.jobs c w.log

/-- Calls can always be made. -/
theorem run_foldl : ∀ (calls : List Call) (w : World), Run Step w calls (calls.foldl World.call w)
  | [], _ => .nil
  | c :: calls, w => .cons rfl (run_foldl calls (w.call c))

/-- What exclusive leases mean, of a queue and its log. -/
structure Exclusive (w : World) : Prop where
  /-- A row carries a token exactly while it runs. -/
  token_iff_running : ∀ r ∈ w.jobs.rows, r.worker_token.isSome = true ↔ r.state = .running
  /-- A worker's call succeeds exactly when its claim is the row's latest and is not over. -/
  true_iff_standing : ∀ id t c, (w.jobs.leaseCall id t c).1 = true ↔ Standing w.log id t.val
  /-- Any other call changes nothing, -/
  lost : ∀ id t c, ¬ Standing w.log id t.val → (w.jobs.leaseCall id t c).2 = w.jobs
  /-- and no call changes another row. -/
  others : ∀ id t c, ∀ r ∈ w.jobs.rows, r.id ≠ id → r ∈ (w.jobs.leaseCall id t c).2.rows
  /-- Finished rows are never changed again. -/
  finished : ∀ calls w', Run Step w calls w' → ∀ r ∈ w.jobs.rows, r.state = .done ∨ r.state = .poison → r ∈ w'.jobs.rows
  /-- Parked rows are only changed by resume sweeps. -/
  parked : ∀ calls w', Run Step w calls w' → (∀ c ∈ calls, c.isResume = false) →
    ∀ r ∈ w.jobs.rows, r.state = .waiting → r ∈ w'.jobs.rows
  /-- No claim is over twice. -/
  once : ∀ t, closings w.log t ≤ 1

/-- **Job leases are exclusive**, whatever the workers and the daemon call,
where every claim brings a token of its own. -/
theorem leases_exclusive {calls : List Call} (h : Run Step start calls w) (fresh : (claimTokens calls).Nodup) :
    Exclusive w := by
  have hw : Inv w := Inv.run h inv_start
  have htokens : (tokens w.log).Nodup := by
    refine (tokens_run h).nodup ?_
    rw [show tokens start.log = [] from rfl, List.append_nil, List.nodup_reverse]
    exact fresh
  exact {
    token_iff_running := hw.running
    true_iff_standing := fun _ _ _ => hw.leaseCall_true
    lost := fun _ _ _ => hw.leaseCall_lost
    others := fun _ _ _ _ => hw.leaseCall_others
    finished := fun calls w' hrun r hr hs =>
      AtRest.run true hrun hw (fun _ _ _ => rfl) hr (hs.imp_right .inl)
    parked := fun calls w' hrun hc r hr hs =>
      AtRest.run false hrun hw (fun c hm hres => by rw [hc c hm] at hres; cases hres) hr
        (.inr (.inr ⟨hs, rfl⟩))
    once := fun _ => hw.legal.closings_le_one htokens }

/-- A worker that comes back after its lease was taken over. -/
def lateWorker : List Call :=
  [.enqueueJob (js "process_talk") (js "talk") .null 0,
   .claimNextJob 0 ⟨js "a", by decide⟩ 10 {},
   .claimNextJob 20 ⟨js "b", by decide⟩ 10 {},
   .lease 1 ⟨js "a", by decide⟩ .completeJob,
   .lease 1 ⟨js "b", by decide⟩ (.failJob 1 30 (js "busy") false)]

theorem leases_exclusive_lateWorker : Exclusive (lateWorker.foldl World.call start) ∧
    (lateWorker.foldl World.call start).jobs.rows.map (·.state) = [.pending] :=
  ⟨leases_exclusive (run_foldl lateWorker start) (by decide), by decide⟩

end Nostrautica.Jobs
