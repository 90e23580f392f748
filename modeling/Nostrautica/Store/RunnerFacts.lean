/-
Job attempts are bounded (`attempts_bounded`). What a row was started for shows in
its two counters: `attempts` for the starts that failed under their own token,
`reclaims` for the leases that lapsed; and a row over either limit is not started.
-/
import Nostrautica.Store.JobsFacts
import Nostrautica.Store.Runner

namespace Nostrautica.Runner

open Js Jobs

variable {ε : Type*} {o : Options ε} {w w' : World} {x : Act ε} {xs : List (Act ε)} {j : Jobs} {id : Nat} {t u : JsString}
  {tok : WorkerToken} {r job row : JobRow} {log : List Entry}

/-- The handler of a row is started. -/
def starts (log : List Entry) (id : Nat) : Nat :=
  log.countP fun
    | .started i _ => i = id
    | _ => false

/-- A lease of a row lapsed, and the row was taken back. -/
def reclaimings (log : List Entry) (id : Nat) : Nat :=
  log.countP fun
    | .reclaimed i _ => i = id
    | _ => false

/-- A row is not parked, not released by a shutdown, and not deleted. -/
structure Unbroken (log : List Entry) (id : Nat) : Prop where
  parked : ∀ t, .parked id t ∉ log
  released : ∀ t, .released id t ∉ log
  deleted : .deleted id ∉ log

/-- What the log tells of a row. -/
structure Bounded (o : Options ε) (w : World) (id : Nat) : Prop where
  starts_le : starts w.log id ≤ o.maxAttempts + maxLeaseReclaims
  /-- A start that is over was completed or failed under its token, or its lease was taken back once, -/
  ended : ∀ t, .started id t ∈ w.log → (∃ r, w.jobs.row? id = some r ∧ r.worker_token = some t) ∨
    .completed id t ∈ w.log ∨ .failed id t ∈ w.log ∨ w.log.count (.reclaimed id t) = 1
  /-- and each lease taken back added one to `reclaims`. -/
  reclaims_eq : ∀ r, w.jobs.row? id = some r → r.reclaims = reclaimings w.log id

/-! ## Entries -/

theorem starts_append {es : List Entry} (h : ∀ e ∈ es, e.row ≠ id) : starts (es ++ log) id = starts log id := by
  have hz : starts es id = 0 := by
    refine List.countP_eq_zero.mpr fun e he => ?_
    have := h e he
    cases e <;> simp_all [Entry.row]
  rw [starts, List.countP_append]
  exact (congrArg (· + _) hz).trans (Nat.zero_add _)

theorem reclaimings_append {es : List Entry} (h : ∀ e ∈ es, e.row ≠ id) : reclaimings (es ++ log) id = reclaimings log id := by
  have hz : reclaimings es id = 0 := by
    refine List.countP_eq_zero.mpr fun e he => ?_
    have := h e he
    cases e <;> simp_all [Entry.row]
  rw [reclaimings, List.countP_append]
  exact (congrArg (· + _) hz).trans (Nat.zero_add _)

theorem mem_append_iff {es : List Entry} {e : Entry} (h : ∀ e ∈ es, e.row ≠ id) (he : e.row = id) : e ∈ es ++ log ↔ e ∈ log := by
  rw [List.mem_append]
  exact ⟨fun hm => hm.resolve_left fun hm => h e hm he, .inr⟩

theorem Unbroken.of_append {es : List Entry} (h : Unbroken (es ++ log) id) : Unbroken log id :=
  ⟨fun t hm => h.parked t (List.mem_append_right _ hm), fun t hm => h.released t (List.mem_append_right _ hm),
    fun hm => h.deleted (List.mem_append_right _ hm)⟩

/-! ## Calls under a lease -/

theorem owned_iff {i : Nat} : owned i (some tok.val) r = true ↔ r.id = i ∧ r.worker_token = some tok.val := by
  simp [owned, tok.ok]

section Finish

variable {set : JobRow → JobRow} {keep : ∀ r, (set r).toJobSpec = r.toJobSpec}

/-- The worker that holds the row ends its attempt. -/
theorem finish_held (hr : j.row? id = some r) (ht : r.worker_token = some tok.val) :
    (j.finish id (some tok.val) set keep).1 = true ∧
      (j.finish id (some tok.val) set keep).2.row? id = some { set r with worker_token := none, lease_until := none } := by
  have ho : owned id (some tok.val) r = true := owned_iff.mpr ⟨id_of_row? hr, ht⟩
  refine ⟨decide_eq_true (changes_pos.mpr ⟨r, mem_of_row? hr, ho⟩), ?_⟩
  rw [Jobs.finish, row?_update, hr, Option.map_some, if_pos ho]

/-- Any other worker's call finds no row. -/
theorem finish_lost (h : ∀ r, j.row? id = some r → r.worker_token ≠ some tok.val) :
    j.finish id (some tok.val) set keep = (false, j) := by
  have hnone : ∀ r ∈ j.rows, owned id (some tok.val) r = false := by
    intro r hr
    by_contra ho
    obtain ⟨hid, ht⟩ := owned_iff.mp (by simpa using ho)
    exact h r (hid ▸ row?_of_mem hr) ht
  have hc : j.changes (owned id (some tok.val)) = 0 := List.countP_eq_zero.mpr fun r hr => by simp [hnone r hr]
  rw [Jobs.finish, hc, update_eq_self hnone (by exact keep)]
  rfl

theorem finish_other {i : Nat} (hi : i ≠ id) : (j.finish i (some tok.val) set keep).2.row? id = j.row? id := by
  rw [Jobs.finish, row?_update]
  cases hr : j.row? id with
  | none => rfl
  | some r =>
    have ho : ¬ owned i (some tok.val) r = true := fun ho => hi ((owned_iff.mp ho).1.symm.trans (id_of_row? hr))
    rw [Option.map_some, if_neg ho]

end Finish

/-- The calls that end an attempt. -/
def Ends : LeaseCall → Prop
  | .heartbeatJob _ => False
  | _ => True

theorem leaseCall_lost {call : LeaseCall} (hc : Ends call) (h : ∀ r, j.row? id = some r → r.worker_token ≠ some tok.val) :
    j.leaseCall id tok call = (false, j) := by
  cases call with
  | heartbeatJob => exact hc.elim
  | completeJob | failJob | releaseJob | parkJob => exact finish_lost h

theorem leaseCall_other {call : LeaseCall} {i : Nat} (hc : Ends call) (hi : i ≠ id) :
    (j.leaseCall i tok call).2.row? id = j.row? id := by
  cases call with
  | heartbeatJob => exact hc.elim
  | completeJob | failJob | releaseJob | parkJob => exact finish_other hi

theorem ends_ending {now : Int} {outcome : Outcome ε} : Ends (ending o job now outcome) := by
  cases outcome with
  | returned | aborted | parked => trivial
  | threw =>
    simp only [ending]
    split <;> trivial

theorem ends_refusal {now : Int} {call : LeaseCall} (h : refusal o job now = some call) : Ends call := by
  unfold refusal at h
  split_ifs at h <;> cases h <;> trivial

/-! ## The invariant -/

/-- What a row has been started for shows in its counters. -/
structure Paid (o : Options ε) (log : List Entry) (id : Nat) (r : JobRow) : Prop where
  waiting : r.state ≠ .waiting
  running : r.worker_token.isSome = true ↔ r.state = .running
  attempts : 0 ≤ r.attempts
  reclaims : r.reclaims = reclaimings log id
  bound : starts log id ≤ o.maxAttempts + maxLeaseReclaims
  live : r.state = .pending ∨ r.state = .running → r.attempts = 0 ∨ r.attempts < o.maxAttempts
  idle : r.state = .pending ∨ r.state = .running → (∀ t, r.worker_token = some t → .started id t ∉ log) →
    (starts log id : Int) ≤ r.attempts + min r.reclaims maxLeaseReclaims
  open_ : ∀ t, r.worker_token = some t → .started id t ∈ log →
    (starts log id : Int) ≤ r.attempts + r.reclaims + 1 ∧ r.reclaims < maxLeaseReclaims
  ended : ∀ t, .started id t ∈ log →
    r.worker_token = some t ∨ .completed id t ∈ log ∨ .failed id t ∈ log ∨ .reclaimed id t ∈ log
  once : ∀ t, log.count (.reclaimed id t) ≤ 1 ∧ (r.worker_token = some t → .reclaimed id t ∉ log)

/-- The counters of the row are what the log says, and a worker still holds the
row as it claimed it. -/
structure Sound (o : Options ε) (id : Nat) (w : World) : Prop where
  absent : w.jobs.row? id = none → ∀ e ∈ w.log, e.row ≠ id
  paid : ∀ r, w.jobs.row? id = some r → Paid o w.log id r
  used : ∀ r t, w.jobs.row? id = some r → r.worker_token = some t → ∃ tok ∈ w.used, tok.val = t
  logged : ∀ t, .started id t ∈ w.log ∨ .reclaimed id t ∈ w.log → ∃ tok ∈ w.used, tok.val = t
  tasks : ∀ tok job, w.tasks tok = some job → tok ∈ w.used
  snapshot : ∀ tok job r, w.tasks tok = some job → job.id = id → w.jobs.row? id = some r → r.worker_token = some tok.val →
    r.attempts = job.attempts ∧ .started id tok.val ∈ w.log

/-- The counters and the lease of a row are as they were. -/
structure Same (r r' : JobRow) : Prop where
  state : r'.state = r.state
  attempts : r'.attempts = r.attempts
  reclaims : r'.reclaims = r.reclaims
  token : r'.worker_token = r.worker_token

theorem Same.refl : Same r r := ⟨rfl, rfl, rfl, rfl⟩

theorem Paid.same {r' : JobRow} (h : Paid o log id r) (hs : Same r r') : Paid o log id r' := by
  obtain ⟨h1, h2, h3, h4⟩ := hs
  constructor
  · exact h1 ▸ h.waiting
  · exact h1 ▸ h4 ▸ h.running
  · exact h2 ▸ h.attempts
  · exact h3 ▸ h.reclaims
  · exact h.bound
  · exact h1 ▸ h2 ▸ h.live
  · rw [h1, h2, h3, h4]
    exact h.idle
  · rw [h2, h3, h4]
    exact h.open_
  · rw [h4]
    exact h.ended
  · rw [h4]
    exact h.once

/-- Entries about other rows say nothing about this one. -/
theorem Paid.append {es : List Entry} (h : Paid o log id r) (hes : ∀ e ∈ es, e.row ≠ id) : Paid o (es ++ log) id r := by
  have hm : ∀ {e : Entry}, e.row = id → (e ∈ es ++ log ↔ e ∈ log) := fun he => mem_append_iff hes he
  have hcount : ∀ t, (es ++ log).count (.reclaimed id t) = log.count (.reclaimed id t) := by
    intro t
    rw [List.count_append, List.count_eq_zero_of_not_mem fun he => hes _ he rfl, Nat.zero_add]
  constructor
  · exact h.waiting
  · exact h.running
  · exact h.attempts
  · rw [reclaimings_append hes]
    exact h.reclaims
  · rw [starts_append hes]
    exact h.bound
  · exact h.live
  · intro hs ht
    rw [starts_append hes]
    exact h.idle hs fun t htok hmem => ht t htok ((hm rfl).mpr hmem)
  · intro t ht hmem
    rw [starts_append hes]
    exact h.open_ t ht ((hm rfl).mp hmem)
  · intro t hmem
    rw [hm rfl, hm rfl, hm rfl]
    exact h.ended t ((hm rfl).mp hmem)
  · intro t
    rw [hcount, hm rfl]
    exact h.once t

/-- What leaves the row, its entries and its worker alone keeps the invariant. -/
theorem Sound.frame {l : List Entry} (h : Sound o id w)
    (hrow : ∀ r', w'.jobs.row? id = some r' → ∃ r, w.jobs.row? id = some r ∧ Same r r')
    (hnone : w'.jobs.row? id = none → w.jobs.row? id = none) (hlog : w'.log = l ++ w.log) (hes : ∀ e ∈ l, e.row ≠ id)
    (hused : ∀ tok ∈ w.used, tok ∈ w'.used)
    (htasks : ∀ tok job, w'.tasks tok = some job → (job.id = id → w.tasks tok = some job) ∧ tok ∈ w'.used) : Sound o id w' := by
  have hm : ∀ {e : Entry}, e.row = id → (e ∈ w'.log ↔ e ∈ w.log) := fun he => hlog ▸ mem_append_iff hes he
  constructor
  · intro hn e he
    rw [hlog] at he
    rcases List.mem_append.mp he with he | he
    · exact hes e he
    · exact h.absent (hnone hn) e he
  · intro r' hr'
    obtain ⟨r, hr, hs⟩ := hrow r' hr'
    rw [hlog]
    exact ((h.paid r hr).append hes).same hs
  · intro r' t hr' ht
    obtain ⟨r, hr, hs⟩ := hrow r' hr'
    obtain ⟨tok, hmem, hval⟩ := h.used r t hr (hs.token ▸ ht)
    exact ⟨tok, hused tok hmem, hval⟩
  · intro t ht
    rw [hm rfl, hm rfl] at ht
    obtain ⟨tok, hmem, hval⟩ := h.logged t ht
    exact ⟨tok, hused tok hmem, hval⟩
  · exact fun tok job hj => (htasks tok job hj).2
  · intro tok job r' hj hid hr' ht
    obtain ⟨r, hr, hs⟩ := hrow r' hr'
    obtain ⟨ha, hst⟩ := h.snapshot tok job r ((htasks tok job hj).1 hid) hid hr (hs.token ▸ ht)
    exact ⟨hs.attempts.trans ha, (hm rfl).mpr hst⟩

/-! ## Claims -/

theorem claimNextJob_of_candidate {now leaseMs : Int} {types : ClaimTypes} (h : j.candidate now types = some row) :
    j.claimNextJob now tok.val leaseMs types =
      (some (claim now tok.val leaseMs (row.reclaims + if row.state = .running then 1 else 0) row),
        j.update (·.id = row.id) (claim now tok.val leaseMs (row.reclaims + if row.state = .running then 1 else 0))) := by
  simp [Jobs.claimNextJob, h]

theorem row?_claim {now leaseMs : Int} {types : ClaimTypes} (hc : j.candidate now types = some row) :
    (j.claimNextJob now tok.val leaseMs types).2.row? id =
      if id = row.id then some (claim now tok.val leaseMs (row.reclaims + if row.state = .running then 1 else 0) row)
      else j.row? id := by
  have hr := (of_candidate hc).1
  rw [claimNextJob_of_candidate hc]
  have hupd := @row?_update j id (·.id = row.id)
    (claim now tok.val leaseMs (row.reclaims + if row.state = .running then 1 else 0)) fun _ => rfl
  refine hupd.trans ?_
  by_cases hid : id = row.id
  · rw [if_pos hid, hid, row?_of_mem hr, Option.map_some, if_pos (decide_eq_true rfl)]
  · rw [if_neg hid]
    cases hrow : j.row? id with
    | none => rfl
    | some r =>
      have hne : r.id ≠ row.id := id_of_row? hrow ▸ hid
      simp [hne]

/-- The row is taken back from a worker whose lease lapsed: its start, if any, is
counted in `reclaims`. -/
theorem Paid.reclaimed (h : Paid o log id r) (ht : r.worker_token = some t) {r' : JobRow}
    (hs : r'.state = .pending ∨ r'.state = .running) (hrun : r'.worker_token.isSome = true ↔ r'.state = .running)
    (ha : r'.attempts = r.attempts) (hr : r'.reclaims = r.reclaims + 1)
    (hfresh : ∀ u, r'.worker_token = some u → u ≠ t ∧ .started id u ∉ log ∧ .reclaimed id u ∉ log) :
    Paid o (.reclaimed id t :: log) id r' := by
  have hstate : r.state = .running := h.running.mp (by rw [ht]; rfl)
  have hstarts : starts (.reclaimed id t :: log) id = starts log id := by simp [starts]
  have hrec : reclaimings (.reclaimed id t :: log) id = reclaimings log id + 1 := by simp [reclaimings]
  have hidle : (starts log id : Int) ≤ r.attempts + min (r.reclaims + 1) maxLeaseReclaims := by
    by_cases hst : .started id t ∈ log
    · obtain ⟨hle, hlt⟩ := h.open_ t ht hst
      omega
    · have hle := h.idle (.inr hstate) fun u hu => by
        cases ht.symm.trans hu
        exact hst
      omega
  constructor
  · rcases hs with hs | hs <;> rw [hs] <;> decide
  · exact hrun
  · exact ha ▸ h.attempts
  · rw [hr, hrec, h.reclaims]
  · rw [hstarts]
    exact h.bound
  · exact fun _ => ha ▸ h.live (.inr hstate)
  · intro _ _
    rw [hstarts, ha, hr]
    exact_mod_cast hidle
  · intro u hu hmem
    rcases List.mem_cons.mp hmem with hmem | hmem
    · cases hmem
    · exact ((hfresh u hu).2.1 hmem).elim
  · intro u hmem
    rcases List.mem_cons.mp hmem with hmem | hmem
    · cases hmem
    · rcases h.ended u hmem with hu | hu | hu | hu
      · cases ht.symm.trans hu
        exact .inr (.inr (.inr List.mem_cons_self))
      · exact .inr (.inl (List.mem_cons_of_mem _ hu))
      · exact .inr (.inr (.inl (List.mem_cons_of_mem _ hu)))
      · exact .inr (.inr (.inr (List.mem_cons_of_mem _ hu)))
  · intro u
    obtain ⟨hle, hout⟩ := h.once u
    refine ⟨?_, fun hu hmem => ?_⟩
    · rw [List.count_cons]
      by_cases hut : t = u
      · subst hut
        rw [List.count_eq_zero_of_not_mem (hout ht)]
        simp
      · simp [hut, hle]
    · rcases List.mem_cons.mp hmem with hmem | hmem
      · cases hmem
        exact (hfresh t hu).1 rfl
      · exact (hfresh u hu).2.2 hmem

/-- A pending row is taken under a token of its own. -/
theorem Paid.taken (h : Paid o log id r) (hs : r.state = .pending) {r' : JobRow} (hs' : r'.state = .running)
    (ha : r'.attempts = r.attempts) (hr : r'.reclaims = r.reclaims) (ht : r'.worker_token = some t)
    (hfresh : .started id t ∉ log ∧ .reclaimed id t ∉ log) : Paid o log id r' := by
  have hnone : r.worker_token = none := by
    by_contra hne
    have := h.running.mp (Option.isSome_iff_ne_none.mpr hne)
    rw [hs] at this
    cases this
  constructor
  · rw [hs']
    decide
  · simp [ht, hs']
  · exact ha ▸ h.attempts
  · exact hr ▸ h.reclaims
  · exact h.bound
  · exact fun _ => ha ▸ h.live (.inl hs)
  · intro _ _
    rw [ha, hr]
    exact h.idle (.inl hs) fun u hu => by
      rw [hnone] at hu
      cases hu
  · intro u hu hmem
    cases ht.symm.trans hu
    exact (hfresh.1 hmem).elim
  · intro u hmem
    rcases h.ended u hmem with hu | hu
    · rw [hnone] at hu
      cases hu
    · exact .inr hu
  · intro u
    refine ⟨(h.once u).1, fun hu => ?_⟩
    cases ht.symm.trans hu
    exact hfresh.2

/-- The handler of the row is started, under its token. -/
theorem Paid.start (h : Paid o log id r) (ht : r.worker_token = some t) (hout : .started id t ∉ log)
    (hlt : r.reclaims < maxLeaseReclaims) : Paid o (.started id t :: log) id r := by
  have hstate : r.state = .running := h.running.mp (by rw [ht]; rfl)
  have hstarts : starts (.started id t :: log) id = starts log id + 1 := by simp [starts]
  have hrec : reclaimings (.started id t :: log) id = reclaimings log id := by simp [reclaimings]
  have hidle := h.idle (.inr hstate) fun u hu => by
    cases ht.symm.trans hu
    exact hout
  have hlive := h.live (.inr hstate)
  have hattempts := h.attempts
  constructor
  · exact h.waiting
  · exact h.running
  · exact h.attempts
  · rw [hrec]
    exact h.reclaims
  · rw [hstarts]
    omega
  · exact fun _ => hlive
  · intro _ hnot
    exact (hnot t ht List.mem_cons_self).elim
  · intro u hu _
    rw [hstarts]
    omega
  · intro u hmem
    rcases List.mem_cons.mp hmem with hmem | hmem
    · cases hmem
      exact .inl ht
    · rcases h.ended u hmem with hu | hu | hu | hu
      · exact .inl hu
      · exact .inr (.inl (List.mem_cons_of_mem _ hu))
      · exact .inr (.inr (.inl (List.mem_cons_of_mem _ hu)))
      · exact .inr (.inr (.inr (List.mem_cons_of_mem _ hu)))
  · intro u
    obtain ⟨hle, hnot⟩ := h.once u
    refine ⟨?_, fun hu hmem => ?_⟩
    · rw [List.count_cons_of_ne (by simp)]
      exact hle
    · rcases List.mem_cons.mp hmem with hmem | hmem
      · cases hmem
      · exact hnot hu hmem

/-- The worker of the row completes or fails its attempt. -/
theorem Paid.over (h : Paid o log id r) (ht : r.worker_token = some t) {e : Entry} (he : e = .completed id t ∨ e = .failed id t)
    {r' : JobRow} (htok : r'.worker_token = none) (hr : r'.reclaims = r.reclaims) (hs : r'.state ≠ .running ∧ r'.state ≠ .waiting)
    (ha : 0 ≤ r'.attempts)
    (hpending : r'.state = .pending → .started id t ∈ log ∧ r'.attempts = r.attempts + 1 ∧ r'.attempts < o.maxAttempts) :
    Paid o (e :: log) id r' := by
  have hstarts : starts (e :: log) id = starts log id := by
    rcases he with rfl | rfl <;> simp [starts]
  have hrec : reclaimings (e :: log) id = reclaimings log id := by
    rcases he with rfl | rfl <;> simp [reclaimings]
  have hmem : ∀ {d : Entry}, d ∈ log → d ∈ e :: log := fun hd => List.mem_cons_of_mem _ hd
  constructor
  · exact hs.2
  · rw [htok]
    exact ⟨nofun, fun h => (hs.1 h).elim⟩
  · exact ha
  · rw [hrec, hr]
    exact h.reclaims
  · rw [hstarts]
    exact h.bound
  · intro hlive
    exact .inr (hpending (hlive.resolve_right hs.1)).2.2
  · intro hlive _
    obtain ⟨hst, ha', -⟩ := hpending (hlive.resolve_right hs.1)
    obtain ⟨hle, hlt⟩ := h.open_ t ht hst
    rw [hstarts, ha', hr]
    omega
  · intro u hu
    rw [htok] at hu
    cases hu
  · intro u hm
    have hm : .started id u ∈ log := by
      rcases List.mem_cons.mp hm with hm | hm
      · rcases he with rfl | rfl <;> cases hm
      · exact hm
    rcases h.ended u hm with hu | hu | hu | hu
    · cases ht.symm.trans hu
      rcases he with rfl | rfl
      · exact .inr (.inl List.mem_cons_self)
      · exact .inr (.inr (.inl List.mem_cons_self))
    · exact .inr (.inl (hmem hu))
    · exact .inr (.inr (.inl (hmem hu)))
    · exact .inr (.inr (.inr (hmem hu)))
  · intro u
    refine ⟨?_, fun hu => ?_⟩
    · rw [List.count_cons_of_ne (by rcases he with rfl | rfl <;> simp)]
      exact (h.once u).1
    · rw [htok] at hu
      cases hu

/-! ## Acts -/

theorem starts_eq_zero (h : ∀ e ∈ log, e.row ≠ id) : starts log id = 0 := by
  refine List.countP_eq_zero.mpr fun e he => ?_
  have := h e he
  cases e <;> simp_all [Entry.row]

theorem reclaimings_eq_zero (h : ∀ e ∈ log, e.row ≠ id) : reclaimings log id = 0 := by
  refine List.countP_eq_zero.mpr fun e he => ?_
  have := h e he
  cases e <;> simp_all [Entry.row]

/-- A row that is new has no history. -/
theorem paid_new (h : ∀ e ∈ log, e.row ≠ id) (hs : r.state = .pending) (ht : r.worker_token = none) (ha : r.attempts = 0)
    (hr : r.reclaims = 0) : Paid o log id r := by
  have hz := starts_eq_zero h
  constructor
  · rw [hs]
    decide
  · simp [ht, hs]
  · exact ha.ge
  · rw [hr, reclaimings_eq_zero h]
  · rw [hz]
    exact Nat.zero_le _
  · exact fun _ => .inl ha
  · intro _ _
    rw [hz, ha, hr]
    simp
  · intro t htok
    rw [ht] at htok
    cases htok
  · exact fun t hm => (h _ hm rfl).elim
  · intro t
    refine ⟨?_, fun htok => ?_⟩
    · rw [List.count_eq_zero_of_not_mem fun hm => h _ hm rfl]
      exact Nat.zero_le _
    · rw [ht] at htok
      cases htok

theorem Sound.enqueue (h : Sound o id w) {type dedupeKey : JsString} {payload : Json} {notBefore : Int} :
    Sound o id { w with jobs := (w.jobs.enqueueJob type dedupeKey payload notBefore).2 } := by
  unfold Jobs.enqueueJob
  split
  next free =>
    cases hrow : w.jobs.row? id with
    | some r =>
      have hsame : (w.jobs.insert type dedupeKey payload notBefore free).row? id = some r := by
        simp only [row?, Jobs.insert, List.find?_append] at hrow ⊢
        rw [hrow]
        rfl
      refine h.frame (l := []) (fun r' hr' => ⟨r', ?_, .refl⟩) (fun hn => ?_) rfl (fun _ he => by cases he) (fun _ ht => ht)
        fun tok job hj => ⟨fun _ => hj, h.tasks tok job hj⟩
      · exact hrow.trans (hsame.symm.trans hr')
      · cases hsame.symm.trans hn
    | none =>
      have habs := h.absent hrow
      have hnew : ∀ r, (w.jobs.insert type dedupeKey payload notBefore free).row? id = some r →
          r.state = .pending ∧ r.worker_token = none ∧ r.attempts = 0 ∧ r.reclaims = 0 := by
        intro r hr
        simp only [row?, Jobs.insert, List.find?_append, Option.or_eq_some_iff] at hr
        rcases hr with hr | ⟨-, hr⟩
        · cases hrow.symm.trans hr
        · obtain rfl := List.mem_singleton.mp (List.mem_of_find?_eq_some hr)
          exact ⟨rfl, rfl, rfl, rfl⟩
      refine ⟨fun _ => habs, fun r hr => ?_, fun r t hr ht => ?_, h.logged, h.tasks, fun tok job r hj hid hr ht => ?_⟩
      · obtain ⟨hs, ht, ha, hrec⟩ := hnew r hr
        exact paid_new habs hs ht ha hrec
      · cases (hnew r hr).2.1.symm.trans ht
      · cases (hnew r hr).2.1.symm.trans ht
  next => exact h

/-- An update of rows that leaves their counters and leases alone. -/
theorem Sound.update_same (h : Sound o id w) {p : JobRow → Bool} {f : JobRow → JobRow} (keep : ∀ r, (f r).toJobSpec = r.toJobSpec)
    (hf : ∀ r, w.jobs.row? id = some r → p r = true → Same r (f r)) : Sound o id { w with jobs := w.jobs.update p f keep } := by
  refine h.frame (l := []) (fun r' hr' => ?_) (fun hn => ?_) rfl (fun _ he => by cases he) (fun _ ht => ht)
    fun tok job hj => ⟨fun _ => hj, h.tasks tok job hj⟩
  · rw [row?_update] at hr'
    obtain ⟨r, hr, rfl⟩ := Option.map_eq_some_iff.mp hr'
    refine ⟨r, hr, ?_⟩
    split
    next hp => exact hf r hr hp
    next => exact .refl
  · rw [row?_update] at hn
    exact Option.map_eq_none_iff.mp hn

theorem Sound.resume (h : Sound o id w) {p : JobRow → Bool} : Sound o id { w with jobs := (w.jobs.resume p).2 } := by
  refine h.update_same (f := fun r => { r with state := .pending, next_run_at := 0, last_error := none }) (fun _ => rfl)
    fun r hr hp => ?_
  have hw : r.state = .waiting := by
    simp only [Bool.and_eq_true, decide_eq_true_eq] at hp
    exact hp.1
  exact ((h.paid r hr).waiting hw).elim

theorem Sound.heartbeat (h : Sound o id w) {i : Nat} {t : JsString} {leaseUntil : Int} :
    Sound o id { w with jobs := (w.jobs.heartbeatJob i t leaseUntil).2 } :=
  h.update_same (f := fun r => { r with lease_until := some leaseUntil }) (fun _ => rfl) fun _ _ _ => ⟨rfl, rfl, rfl, rfl⟩

theorem Sound.die (h : Sound o id w) : Sound o id { w with tasks := Function.update w.tasks tok none } := by
  refine h.frame (l := []) (fun r' hr' => ⟨r', hr', .refl⟩) (fun hn => hn) rfl (fun _ he => by cases he) (fun _ ht => ht) fun u job hj => ?_
  simp only [Function.update_apply] at hj
  split at hj
  · cases hj
  · exact ⟨fun _ => hj, h.tasks u job hj⟩

theorem Sound.delete (h : Sound o id w) {p : JobRow → Bool}
    (hu : Unbroken (((w.jobs.rows.filter p).map fun r => Entry.deleted r.id) ++ w.log) id) :
    Sound o id { w with jobs := remove w.jobs p, log := ((w.jobs.rows.filter p).map fun r => .deleted r.id) ++ w.log } := by
  have hkeep : ∀ r ∈ w.jobs.rows, r.id = id → p r = false := by
    intro r hr hid
    by_contra hp
    refine hu.deleted (List.mem_append_left _ (List.mem_map.mpr ⟨r, List.mem_filter.mpr ⟨hr, by simpa using hp⟩, ?_⟩))
    rw [hid]
  have hrow : (remove w.jobs p).row? id = w.jobs.row? id := by
    cases hr : w.jobs.row? id with
    | some r =>
      have hmem : r ∈ (remove w.jobs p).rows := by
        refine List.mem_filter.mpr ⟨mem_of_row? hr, ?_⟩
        rw [hkeep r (mem_of_row? hr) (id_of_row? hr)]
        rfl
      rw [← id_of_row? hr]
      exact row?_of_mem hmem
    | none =>
      simp only [row?, List.find?_eq_none] at hr ⊢
      exact fun r hmem => hr r (List.mem_of_mem_filter hmem)
  refine h.frame (fun r' hr' => ⟨r', hrow ▸ hr', .refl⟩) (fun hn => hrow ▸ hn) rfl (fun e he => ?_) (fun _ ht => ht)
    fun tok job hj => ⟨fun _ => hj, h.tasks tok job hj⟩
  obtain ⟨r, hr, rfl⟩ := List.mem_map.mp he
  obtain ⟨hr, hp⟩ := List.mem_filter.mp hr
  intro hid
  rw [hkeep r hr hid] at hp
  cases hp

/-! ## Taking a row -/

theorem val_inj {t u : WorkerToken} (h : t.val = u.val) : t = u := by
  cases t
  cases u
  cases h
  rfl

/-- A token no claim was made under is on no row and in no entry. -/
theorem Sound.fresh (h : Sound o id w) (ht : tok ∉ w.used) :
    (∀ r, w.jobs.row? id = some r → r.worker_token ≠ some tok.val) ∧ .started id tok.val ∉ w.log ∧ .reclaimed id tok.val ∉ w.log := by
  have hval : ∀ u ∈ w.used, u.val ≠ tok.val := fun u hu he => ht (val_inj he ▸ hu)
  refine ⟨fun r hr htok => ?_, fun hm => ?_, fun hm => ?_⟩
  · obtain ⟨u, hu, he⟩ := h.used r _ hr htok
    exact hval u hu he
  · obtain ⟨u, hu, he⟩ := h.logged _ (.inl hm)
    exact hval u hu he
  · obtain ⟨u, hu, he⟩ := h.logged _ (.inr hm)
    exact hval u hu he

theorem takenBack_ne (h : row.id ≠ id) : ∀ e ∈ takenBack [row], e.row ≠ id := by
  intro e he
  obtain ⟨r, hr, hm⟩ := List.mem_filterMap.mp he
  obtain ⟨t, -, rfl⟩ := Option.map_eq_some_iff.mp hm
  rw [List.mem_singleton.mp hr]
  exact h

theorem Sound.claimed_other (h : Sound o id w) {now leaseMs : Int} {types : ClaimTypes} (hc : w.jobs.candidate now types = some row)
    (hid : row.id ≠ id) : Sound o id (take w now tok leaseMs types row) := by
  have hrow : (take w now tok leaseMs types row).jobs.row? id = w.jobs.row? id := by
    rw [take, row?_claim hc, if_neg hid.symm]
  refine h.frame (fun r' hr' => ⟨r', hrow ▸ hr', .refl⟩) (fun hn => hrow ▸ hn) rfl (fun e he => ?_)
    (fun _ hu => List.mem_cons_of_mem _ hu) fun u job hj => ⟨fun _ => hj, List.mem_cons_of_mem _ (h.tasks u job hj)⟩
  split at he
  · exact takenBack_ne hid e he
  · cases he

/-- The row is claimed under a token of its own; a lease it was under has lapsed. -/
theorem Sound.claimed (h : Sound o id w) {now leaseMs : Int} {types : ClaimTypes} (hc : w.jobs.candidate now types = some row)
    (ht : tok ∉ w.used) (hid : row.id = id) :
    Sound o id (take w now tok leaseMs types row) ∧ .started id tok.val ∉ (take w now tok leaseMs types row).log := by
  have hrow : w.jobs.row? id = some row := hid ▸ row?_of_mem (of_candidate hc).1
  have hclaimed : (take w now tok leaseMs types row).jobs.row? id =
      some (claim now tok.val leaseMs (row.reclaims + if row.state = .running then 1 else 0) row) := by
    rw [take, row?_claim hc, if_pos hid.symm]
  have hpaid := h.paid row hrow
  obtain ⟨hfree, hstarted, hreclaimed⟩ := h.fresh ht
  have hlog : (∃ u, row.state = .running ∧ row.worker_token = some u ∧
        (take w now tok leaseMs types row).log = .reclaimed id u :: w.log) ∨
      row.state = .pending ∧ (take w now tok leaseMs types row).log = w.log := by
    by_cases hs : row.state = .running
    · obtain ⟨u, hu⟩ := Option.isSome_iff_exists.mp (hpaid.running.mpr hs)
      exact .inl ⟨u, hs, hu, by simp [Runner.take, takenBack, hs, hu, hid]⟩
    · have hrun := (of_candidate hc).2
      refine .inr ⟨?_, by simp [Runner.take, hs]⟩
      simp [runnable, expired, hs] at hrun
      exact hrun.1
  have hmem : ∀ {e : Entry}, (∀ u, e ≠ .reclaimed id u) → e ∈ (take w now tok leaseMs types row).log → e ∈ w.log := by
    intro e he hm
    rcases hlog with ⟨u, -, -, hlog⟩ | ⟨-, hlog⟩
    · rw [hlog] at hm
      exact (List.mem_cons.mp hm).resolve_left (he u)
    · exact hlog ▸ hm
  refine ⟨?_, fun hm => hstarted (hmem (by simp) hm)⟩
  constructor
  · intro hn
    cases hclaimed.symm.trans hn
  · intro r hr
    obtain rfl := Option.some.inj (hclaimed.symm.trans hr)
    rcases hlog with ⟨u, hs, hu, hlog⟩ | ⟨hs, hlog⟩
    · rw [hlog]
      refine hpaid.reclaimed hu (.inr rfl) (by simp [claim]) rfl (by simp [claim, hs]) fun v hv => ?_
      obtain rfl := Option.some.inj hv
      exact ⟨fun he => hfree row hrow (he ▸ hu), hstarted, hreclaimed⟩
    · rw [hlog]
      exact hpaid.taken hs rfl rfl (by simp [claim, hs]) rfl ⟨hstarted, hreclaimed⟩
  · intro r t hr htok
    obtain rfl := Option.some.inj (hclaimed.symm.trans hr)
    exact ⟨tok, List.mem_cons_self, Option.some.inj htok⟩
  · intro t hm
    have hold : (.started id t ∈ w.log ∨ .reclaimed id t ∈ w.log) ∨ row.worker_token = some t := by
      rcases hm with hm | hm
      · exact .inl (.inl (hmem (by simp) hm))
      · rcases hlog with ⟨u, -, hu, hlog⟩ | ⟨-, hlog⟩
        · rw [hlog] at hm
          rcases List.mem_cons.mp hm with hm | hm
          · cases hm
            exact .inr hu
          · exact .inl (.inr hm)
        · exact .inl (.inr (hlog ▸ hm))
    rcases hold with hold | hold
    · obtain ⟨u, hu, he⟩ := h.logged t hold
      exact ⟨u, List.mem_cons_of_mem _ hu, he⟩
    · obtain ⟨u, hu, he⟩ := h.used row t hrow hold
      exact ⟨u, List.mem_cons_of_mem _ hu, he⟩
  · exact fun u job hj => List.mem_cons_of_mem _ (h.tasks u job hj)
  · intro u job r hj _ hr htok
    obtain rfl := Option.some.inj (hclaimed.symm.trans hr)
    have : tok = u := val_inj (Option.some.inj htok)
    exact (ht (this ▸ h.tasks u job hj)).elim

/-- The handler of a claimed row is started. -/
theorem Sound.started (h : Sound o id w) (hused : tok ∈ w.used)
    (hjob : job.id = id → w.jobs.row? id = some job ∧ job.worker_token = some tok.val ∧ .started id tok.val ∉ w.log ∧
      job.reclaims < maxLeaseReclaims) :
    Sound o id { w with tasks := Function.update w.tasks tok (some job), log := .started job.id tok.val :: w.log } := by
  by_cases hid : job.id = id
  · obtain ⟨hrow, htok, hout, hlt⟩ := hjob hid
    constructor
    · intro hn
      cases hrow.symm.trans hn
    · intro r hr
      obtain rfl := Option.some.inj (hrow.symm.trans hr)
      show Paid o (.started job.id tok.val :: w.log) id job
      rw [hid]
      exact (h.paid job hrow).start htok hout hlt
    · exact h.used
    · intro t hm
      have hold : tok.val = t ∨ .started id t ∈ w.log ∨ .reclaimed id t ∈ w.log := by
        rcases hm with hm | hm
        · rcases List.mem_cons.mp hm with hm | hm
          · cases hm
            exact .inl rfl
          · exact .inr (.inl hm)
        · rcases List.mem_cons.mp hm with hm | hm
          · cases hm
          · exact .inr (.inr hm)
      rcases hold with hold | hold
      · exact ⟨tok, hused, hold⟩
      · exact h.logged t hold
    · intro u j hj
      simp only [Function.update_apply] at hj
      split at hj
      next he => exact he ▸ hused
      next => exact h.tasks u j hj
    · intro u j r hj hjid hr hu
      obtain rfl := Option.some.inj (hrow.symm.trans hr)
      obtain rfl : tok = u := val_inj (Option.some.inj (htok.symm.trans hu))
      obtain rfl : job = j := by simpa [Function.update_self] using hj
      refine ⟨rfl, ?_⟩
      show .started id tok.val ∈ .started job.id tok.val :: w.log
      rw [hid]
      exact List.mem_cons_self
  · refine h.frame (l := [.started job.id tok.val]) (fun r' hr' => ⟨r', hr', .refl⟩) (fun hn => hn) rfl (fun e he => ?_)
      (fun _ hu => hu) fun u j hj => ?_
    · rw [List.mem_singleton.mp he]
      exact hid
    · simp only [Function.update_apply] at hj
      split at hj
      next he =>
        cases hj
        exact ⟨fun h => (hid h).elim, he ▸ hused⟩
      next => exact ⟨fun _ => hj, h.tasks u j hj⟩

/-! ## Leaving a row -/

/-- What a call that fails a row has to say of it. -/
def Fails (o : Options ε) (log : List Entry) (t : JsString) (r : JobRow) : LeaseCall → Prop
  | .failJob attempts _ _ poison =>
    0 ≤ attempts ∧ (poison = false → .started r.id t ∈ log ∧ attempts = r.attempts + 1 ∧ attempts < o.maxAttempts)
  | _ => True

/-- A worker that has lost the row changes nothing. -/
theorem Sound.leave_lost (h : Sound o id w) {i : Nat} {call : LeaseCall} (hc : Ends call)
    (hlost : ∀ r, w.jobs.row? i = some r → r.worker_token ≠ some tok.val) : Sound o id (w.leave i tok call) := by
  have hleave : w.leave i tok call = { w with tasks := Function.update w.tasks tok none } := by
    simp [World.leave, leaseCall_lost hc hlost]
  rw [hleave]
  exact h.die

/-- A worker leaves another row. -/
theorem Sound.leave_other (h : Sound o id w) {i : Nat} {call : LeaseCall} (hc : Ends call) (hi : i ≠ id) :
    Sound o id (w.leave i tok call) := by
  have hrow : (w.leave i tok call).jobs.row? id = w.jobs.row? id := leaseCall_other hc hi
  have hes : ∃ es : List Entry, (w.leave i tok call).log = es ++ w.log ∧ ∀ e ∈ es, e.row ≠ id := by
    unfold World.leave
    split
    · refine ⟨_, rfl, ?_⟩
      cases call <;> simp [Entry.row, hi]
    · exact ⟨[], rfl, by simp⟩
  obtain ⟨es, hlog, hes⟩ := hes
  refine h.frame (fun r' hr' => ⟨r', hrow ▸ hr', .refl⟩) (fun hn => hrow ▸ hn) hlog hes (fun _ hu => hu) fun u j hj => ?_
  simp only [World.leave, Function.update_apply] at hj
  split at hj
  · cases hj
  · exact ⟨fun _ => hj, h.tasks u j hj⟩

/-- The worker that holds the row completes or fails it. -/
theorem Sound.over (h : Sound o id w) {e : Entry}
    (he : e = .completed id tok.val ∨ e = .failed id tok.val) {r' : JobRow} (hr' : j.row? id = some r')
    (htok : r'.worker_token = none) (hpaid : Paid o (e :: w.log) id r') :
    Sound o id ⟨j, Function.update w.tasks tok none, w.used, e :: w.log⟩ := by
  have hmem : ∀ {d : Entry} {t : JsString}, d = .started id t ∨ d = .reclaimed id t → d ∈ e :: w.log → d ∈ w.log := by
    intro d t hd hm
    rcases List.mem_cons.mp hm with hm | hm
    · rcases he with rfl | rfl <;> rcases hd with rfl | rfl <;> cases hm
    · exact hm
  constructor
  · intro hn
    cases hr'.symm.trans hn
  · intro s hs
    obtain rfl := Option.some.inj (hr'.symm.trans hs)
    exact hpaid
  · intro s t hs hst
    obtain rfl := Option.some.inj (hr'.symm.trans hs)
    cases htok.symm.trans hst
  · intro t hm
    exact h.logged t (hm.imp (hmem (.inl rfl)) (hmem (.inr rfl)))
  · intro u job hj
    simp only [Function.update_apply] at hj
    split at hj
    · cases hj
    · exact h.tasks u job hj
  · intro u job s _ _ hs hst
    obtain rfl := Option.some.inj (hr'.symm.trans hs)
    cases htok.symm.trans hst

theorem Sound.leave (h : Sound o id w) {i : Nat} {call : LeaseCall} (hc : Ends call)
    (hf : i = id → ∀ r, w.jobs.row? id = some r → r.worker_token = some tok.val → Fails o w.log tok.val r call)
    (hu : Unbroken (w.leave i tok call).log id) : Sound o id (w.leave i tok call) := by
  by_cases hi : i = id
  · subst hi
    by_cases hheld : ∃ r, w.jobs.row? i = some r ∧ r.worker_token = some tok.val
    · obtain ⟨r, hr, ht⟩ := hheld
      have hfails := hf rfl r hr ht
      have hpaid := h.paid r hr
      cases call with
      | heartbeatJob => exact hc.elim
      | completeJob =>
        obtain ⟨hok, hrow⟩ := @finish_held w.jobs i tok r (fun r => { r with state := .done }) (fun _ => rfl) hr ht
        have hleave : w.leave i tok .completeJob =
            ⟨(w.jobs.leaseCall i tok .completeJob).2, Function.update w.tasks tok none, w.used, .completed i tok.val :: w.log⟩ := by
          simp only [World.leave, Jobs.leaseCall, Jobs.completeJob, hok]
          rfl
        rw [hleave]
        exact h.over (.inl rfl) hrow rfl
          (hpaid.over ht (.inl rfl) rfl rfl ⟨by simp, by simp⟩ hpaid.attempts fun hp => by cases hp)
      | failJob attempts nextRunAt error poison =>
        obtain ⟨hok, hrow⟩ := @finish_held w.jobs i tok r
          (fun r => { r with
            state := if poison then .poison else .pending
            attempts
            next_run_at := nextRunAt
            last_error := some error }) (fun _ => rfl) hr ht
        have hleave : w.leave i tok (.failJob attempts nextRunAt error poison) =
            ⟨(w.jobs.leaseCall i tok (.failJob attempts nextRunAt error poison)).2, Function.update w.tasks tok none, w.used,
              .failed i tok.val :: w.log⟩ := by
          simp only [World.leave, Jobs.leaseCall, Jobs.failJob, hok]
          rfl
        rw [hleave]
        refine h.over (.inr rfl) hrow rfl
          (hpaid.over ht (.inr rfl) rfl rfl ⟨by simp only; split <;> simp, by simp only; split <;> simp⟩ hfails.1 fun hp => ?_)
        have hpoison : poison = false := by
          cases poison with
          | true => cases hp
          | false => rfl
        obtain ⟨hst, ha, hlt⟩ := hfails.2 hpoison
        exact ⟨id_of_row? hr ▸ hst, ha, hlt⟩
      | releaseJob =>
        have hok := (@finish_held w.jobs i tok r (fun r => { r with state := .pending, next_run_at := 0 }) (fun _ => rfl) hr ht).1
        refine (hu.released tok.val ?_).elim
        simp [World.leave, Jobs.leaseCall, Jobs.releaseJob, hok]
      | parkJob reason resetAttempts =>
        have hok := (@finish_held w.jobs i tok r
          (fun r => { r with
            state := .waiting
            last_error := some reason
            attempts := if resetAttempts then 0 else r.attempts }) (fun _ => rfl) hr ht).1
        refine (hu.parked tok.val ?_).elim
        simp [World.leave, Jobs.leaseCall, Jobs.parkJob, hok]
    · exact h.leave_lost hc fun r hr ht => hheld ⟨r, hr, ht⟩
  · exact h.leave_other hc hi

/-- A row that is not started is failed for good. -/
theorem fails_refusal {now : Int} {call : LeaseCall} (h : refusal o job now = some call) (ha : 0 ≤ r.attempts)
    (hj : job.attempts = r.attempts) : Fails o log t r call := by
  unfold refusal at h
  split_ifs at h
  all_goals
    cases h
    exact ⟨by omega, by simp⟩

theorem reclaims_lt {now : Int} (h : refusal o job now = none) : job.reclaims < maxLeaseReclaims := by
  unfold refusal at h
  split_ifs at h with _ hlt
  exact not_le.mp hlt

/-- A handler that throws fails the row for good once the attempts are used up. -/
theorem fails_ending {now : Int} {outcome : Outcome ε} (ha : 0 ≤ r.attempts) (hj : r.attempts = job.attempts)
    (hst : .started r.id t ∈ log) : Fails o log t r (ending o job now outcome) := by
  cases outcome with
  | returned | aborted | parked => trivial
  | threw err msg =>
    simp only [ending]
    split
    · trivial
    · refine ⟨by omega, fun hp => ⟨hst, by omega, ?_⟩⟩
      have := of_decide_eq_false hp
      omega

/-! ## The sweep -/

theorem ids_ne {xs ys : List JobRow} (h : (xs ++ row :: ys).Pairwise (·.id < ·.id)) :
    (∀ r ∈ xs, r.id ≠ row.id) ∧ ∀ r ∈ ys, r.id ≠ row.id := by
  obtain ⟨-, hrow, hlt⟩ := List.pairwise_append.mp h
  exact ⟨fun r hr => (hlt r hr row List.mem_cons_self).ne, fun r hr => ((List.pairwise_cons.mp hrow).1 r hr).ne'⟩

theorem takenBack_rows {rows : List JobRow} (h : ∀ r ∈ rows, r.id ≠ id) : ∀ e ∈ takenBack rows, e.row ≠ id := by
  intro e he
  obtain ⟨r, hr, hm⟩ := List.mem_filterMap.mp he
  obtain ⟨t, -, rfl⟩ := Option.map_eq_some_iff.mp hm
  exact h r hr

/-- A row whose lease ran out is among those the sweep takes back, once. -/
theorem takenBack_expired {now : Int} (hr : j.row? id = some r) (he : expired now r = true) (ht : r.worker_token = some t) :
    ∃ es fs, takenBack (j.rows.filter (expired now)) = es ++ .reclaimed id t :: fs ∧ (∀ e ∈ es, e.row ≠ id) ∧ ∀ e ∈ fs, e.row ≠ id := by
  obtain ⟨xs, ys, hsplit⟩ := List.append_of_mem (List.mem_filter.mpr ⟨mem_of_row? hr, he⟩)
  have hord : (xs ++ r :: ys).Pairwise (·.id < ·.id) := hsplit ▸ j.ordered.filter _
  obtain ⟨hxs, hys⟩ := ids_ne hord
  have hid := id_of_row? hr
  refine ⟨takenBack xs, takenBack ys, ?_, takenBack_rows (hid ▸ hxs), takenBack_rows (hid ▸ hys)⟩
  rw [hsplit, takenBack, List.filterMap_append, List.filterMap_cons, ht, hid]
  rfl

theorem Sound.reclaimed (h : Sound o id w) {now : Int} : Sound o id
    { w with jobs := (w.jobs.reclaimExpiredLeases now).2, log := takenBack (w.jobs.rows.filter (expired now)) ++ w.log } := by
  have hswept : (w.jobs.reclaimExpiredLeases now).2.row? id = (w.jobs.row? id).map fun r =>
      if expired now r then { r with state := .pending, worker_token := none, lease_until := none, reclaims := r.reclaims + 1 } else r :=
    @row?_update w.jobs id (expired now)
      (fun r => { r with state := .pending, worker_token := none, lease_until := none, reclaims := r.reclaims + 1 }) fun _ => rfl
  have hothers : ∀ r, w.jobs.row? id = some r → expired now r = false →
      ∀ e ∈ takenBack (w.jobs.rows.filter (expired now)), e.row ≠ id := by
    intro r hr he
    refine takenBack_rows fun s hs hsid => ?_
    obtain ⟨hs, hse⟩ := List.mem_filter.mp hs
    cases hr.symm.trans (hsid ▸ row?_of_mem hs)
    exact Bool.false_ne_true (he.symm.trans hse)
  cases hr : w.jobs.row? id with
  | none =>
    have hn : (w.jobs.reclaimExpiredLeases now).2.row? id = none := by rw [hswept, hr, Option.map_none]
    refine h.frame (fun r' hr' => ?_) (fun _ => hr) rfl (takenBack_rows fun s hs hsid => ?_) (fun _ ht => ht)
      fun tok job hj => ⟨fun _ => hj, h.tasks tok job hj⟩
    · cases hn.symm.trans hr'
    · cases hr.symm.trans (hsid ▸ row?_of_mem (List.mem_of_mem_filter hs))
  | some r =>
    by_cases he : expired now r = true
    · have hnew : (w.jobs.reclaimExpiredLeases now).2.row? id =
          some { r with state := .pending, worker_token := none, lease_until := none, reclaims := r.reclaims + 1 } := by
        rw [hswept, hr, Option.map_some, if_pos he]
      have hpaid := h.paid r hr
      have hs : r.state = .running := by
        simp only [expired, Bool.and_eq_true, decide_eq_true_eq] at he
        exact he.1
      obtain ⟨t, ht⟩ := Option.isSome_iff_exists.mp (hpaid.running.mpr hs)
      obtain ⟨es, fs, hlog, hes, hfs⟩ := takenBack_expired hr he ht
      have hm : ∀ u, .started id u ∈ takenBack (w.jobs.rows.filter (expired now)) ++ w.log ∨
          .reclaimed id u ∈ takenBack (w.jobs.rows.filter (expired now)) ++ w.log →
          (.started id u ∈ w.log ∨ .reclaimed id u ∈ w.log) ∨ u = t := by
        intro u hm
        rw [hlog, List.append_assoc, List.cons_append, mem_append_iff hes rfl, mem_append_iff hes rfl, List.mem_cons, List.mem_cons,
          mem_append_iff hfs rfl, mem_append_iff hfs rfl] at hm
        rcases hm with (hm | hm) | (hm | hm)
        · cases hm
        · exact .inl (.inl hm)
        · cases hm
          exact .inr rfl
        · exact .inl (.inr hm)
      constructor
      · intro hn
        cases hnew.symm.trans hn
      · intro s hs'
        obtain rfl := Option.some.inj (hnew.symm.trans hs')
        show Paid o (takenBack (w.jobs.rows.filter (expired now)) ++ w.log) id
          { r with state := .pending, worker_token := none, lease_until := none, reclaims := r.reclaims + 1 }
        rw [hlog, List.append_assoc, List.cons_append]
        refine Paid.append ((hpaid.append hfs).reclaimed ht (.inl rfl) ⟨fun hrun => ?_, fun hrun => ?_⟩ rfl rfl fun u hu => ?_) hes
        · cases hrun
        · cases hrun
        · cases hu
      · intro s u hs' hu
        obtain rfl := Option.some.inj (hnew.symm.trans hs')
        cases hu
      · intro u hu
        rcases hm u hu with hu | rfl
        · exact h.logged u hu
        · exact h.used r u hr ht
      · exact h.tasks
      · intro u job s _ _ hs' hu
        obtain rfl := Option.some.inj (hnew.symm.trans hs')
        cases hu
    · have he := Bool.eq_false_of_not_eq_true he
      have hsame : (w.jobs.reclaimExpiredLeases now).2.row? id = some r := by
        rw [hswept, hr, Option.map_some, he]
        rfl
      refine h.frame (fun r' hr' => ⟨r', ?_, .refl⟩) (fun hn => ?_) rfl (hothers r hr he) (fun _ ht => ht)
        fun tok job hj => ⟨fun _ => hj, h.tasks tok job hj⟩
      · exact hr.trans (hsame.symm.trans hr')
      · cases hsame.symm.trans hn

/-! ## Runs -/

theorem execute_some {now : Int} {call : LeaseCall} (h : refusal o job now = some call) :
    execute o w now tok job = w.leave job.id tok call := by
  simp [execute, h]

theorem execute_none {now : Int} (h : refusal o job now = none) :
    execute o w now tok job = { w with tasks := Function.update w.tasks tok (some job), log := .started job.id tok.val :: w.log } := by
  simp [execute, h]

theorem Sound.step (h : Sound o id w) (hs : Step o w x w') (hu : Unbroken w'.log id) : Sound o id w' := by
  cases x with
  | enqueueJob type dedupeKey payload notBefore =>
    cases hs
    exact h.enqueue
  | heartbeatJob t leaseUntil =>
    obtain ⟨job, -, rfl⟩ := Option.map_eq_some_iff.mp hs
    exact h.heartbeat
  | die t =>
    cases hs
    exact h.die
  | resume p =>
    cases hs
    exact h.resume
  | delete p =>
    cases hs
    exact h.delete hu
  | reclaimExpiredLeases now =>
    cases hs
    exact h.reclaimed
  | settle t now outcome =>
    obtain ⟨job, hj, rfl⟩ := Option.map_eq_some_iff.mp hs
    refine h.leave ends_ending (fun hid r hr ht => ?_) hu
    obtain ⟨ha, hst⟩ := h.snapshot t job r hj hid hr ht
    exact fails_ending (h.paid r hr).attempts ha ((id_of_row? hr).symm ▸ hst)
  | runOne now t leaseMs types dies =>
    simp only [Step, act] at hs
    split at hs
    · cases hs
    next hfresh =>
      split at hs
      · cases hs
        exact h
      next row hc =>
        simp only [claimNextJob_of_candidate hc, Option.getD_some] at hs
        have htaken : Sound o id (take w now t leaseMs types row) := by
          by_cases hid : row.id = id
          · exact (h.claimed hc hfresh hid).1
          · exact h.claimed_other hc hid
        have hrow : row.id = id → (take w now t leaseMs types row).jobs.row? id =
            some (claim now t.val leaseMs (row.reclaims + if row.state = .running then 1 else 0) row) := fun hid => by
          rw [take, row?_claim hc, if_pos hid.symm]
        split at hs
        · cases hs
          exact htaken
        · cases hcall : refusal o (claim now t.val leaseMs (row.reclaims + if row.state = .running then 1 else 0) row) now with
          | some call =>
            rw [execute_some hcall] at hs
            cases hs
            refine htaken.leave (ends_refusal hcall) (fun hid r hr _ => ?_) hu
            have hr' := Option.some.inj ((hrow hid).symm.trans hr)
            exact fails_refusal hcall (htaken.paid r hr).attempts (hr' ▸ rfl)
          | none =>
            rw [execute_none hcall] at hs
            cases hs
            refine htaken.started List.mem_cons_self fun hid => ⟨hrow hid, rfl, (h.claimed hc hfresh hid).2, ?_⟩
            exact reclaims_lt hcall

/-- The log only grows. -/
theorem log_grows (hs : Step o w x w') : ∃ es, w'.log = es ++ w.log := by
  have hleave : ∀ (v : World) (i : Nat) (t : WorkerToken) (call : LeaseCall), ∃ es, (v.leave i t call).log = es ++ v.log := by
    intro v i t call
    unfold World.leave
    split
    · exact ⟨_, rfl⟩
    · exact ⟨[], rfl⟩
  cases x with
  | enqueueJob | die | resume =>
    cases hs
    exact ⟨[], rfl⟩
  | delete | reclaimExpiredLeases =>
    cases hs
    exact ⟨_, rfl⟩
  | heartbeatJob t leaseUntil =>
    obtain ⟨job, -, rfl⟩ := Option.map_eq_some_iff.mp hs
    exact ⟨[], rfl⟩
  | settle t now outcome =>
    obtain ⟨job, -, rfl⟩ := Option.map_eq_some_iff.mp hs
    exact hleave _ _ _ _
  | runOne now t leaseMs types dies =>
    simp only [Step, act] at hs
    split at hs
    · cases hs
    · split at hs
      · cases hs
        exact ⟨[], rfl⟩
      next row hc =>
        split at hs
        · cases hs
          exact ⟨_, rfl⟩
        · cases hs
          unfold execute
          split
          next call _ =>
            obtain ⟨es, hes⟩ := hleave (take w now t leaseMs types row)
              ((w.jobs.claimNextJob now t.val leaseMs types).1.getD row).id t call
            exact ⟨es ++ _, hes.trans (List.append_assoc _ _ _).symm⟩
          next => exact ⟨_ :: _, rfl⟩

theorem sound_start : Sound o id .start where
  absent _ _ he := by cases he
  paid r hr := by cases hr
  used r _ hr := by cases hr
  logged _ h := by rcases h with h | h <;> cases h
  tasks _ _ h := by cases h
  snapshot _ _ _ h := by cases h

theorem Sound.run (h : Run (Step o) w xs w') (hw : Sound o id w) (hu : Unbroken w'.log id) : Sound o id w' := by
  refine Run.invariant (I := fun w => Unbroken w.log id → Sound o id w) (fun w x w' hI hs hu' => ?_) h (fun _ => hw) hu
  obtain ⟨es, hes⟩ := log_grows hs
  exact (hI (Unbroken.of_append (hes ▸ hu'))).step hs hu'

/-- **Attempts are bounded.** In a run in which a row is not parked, not released by
a shutdown and not deleted, its handler is started at most `maxAttempts +
MAX_LEASE_RECLAIMS` times; and of its starts, all but the one that runs were completed
or failed under their own token, or had their lease taken back, once, which
`reclaims` counts. -/
theorem attempts_bounded (h : Run (Step o) .start xs w) (hu : Unbroken w.log id) : Bounded o w id := by
  have hsound := sound_start.run h hu
  cases hr : w.jobs.row? id with
  | none =>
    have habs := hsound.absent hr
    refine ⟨?_, fun t hm => (habs _ hm rfl).elim, fun r hr' => ?_⟩
    · rw [starts_eq_zero habs]
      exact Nat.zero_le _
    · cases hr.symm.trans hr'
  | some r =>
    have hpaid := hsound.paid r hr
    refine ⟨hpaid.bound, fun t hm => ?_, fun s hs => ?_⟩
    · rcases hpaid.ended t hm with ht | hc | hf | hrec
      · exact .inl ⟨r, hr, ht⟩
      · exact .inr (.inl hc)
      · exact .inr (.inr (.inl hf))
      · have := (hpaid.once t).1
        have := List.count_pos_iff.mpr hrec
        exact .inr (.inr (.inr (by omega)))
    · exact Option.some.inj (hr.symm.trans hs) ▸ hpaid.reclaims

namespace Small

def options : Options Unit := ⟨2, fun _ => true, fun _ => none, fun _ => none, fun _ => 0⟩

def token (n : Nat) : WorkerToken := ⟨[codeUnit n], List.cons_ne_nil _ _⟩

/-- A lease runs out under a first worker, whose late success is lost; the second fails,
and the third completes. -/
def acts : List (Act Unit) :=
  [.enqueueJob (js "process_attendee") (js "proc:a") .null 0, .runOne 10 (token 1) 5 {} false, .runOne 20 (token 2) 5 {} false,
    .settle (token 1) 21 .returned, .settle (token 2) 22 (.threw () (js "timeout")), .runOne 30 (token 3) 5 {} false,
    .settle (token 3) 31 .returned]

def history : List Entry :=
  [.completed 1 (token 3).val, .started 1 (token 3).val, .failed 1 (token 2).val, .started 1 (token 2).val,
    .reclaimed 1 (token 1).val, .started 1 (token 1).val]

theorem log_eq : (Run.exec (act options) .start acts).map (·.log) = some history := by decide +kernel

end Small

theorem attempts_bounded_small : ∃ w, Run (Step Small.options) .start Small.acts w ∧ starts w.log 1 = 3 ∧ Bounded Small.options w 1 := by
  obtain ⟨w, hw, hlog⟩ := Option.map_eq_some_iff.mp Small.log_eq
  have hrun : Run (Step Small.options) .start Small.acts w := Run.of_exec hw
  refine ⟨w, hrun, by rw [hlog]; rfl, attempts_bounded hrun ⟨fun t => ?_, fun t => ?_, ?_⟩⟩
  all_goals
    rw [hlog]
    simp [Small.history]

end Nostrautica.Runner
