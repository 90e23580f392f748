/-
An organizer's revocation is final until an organizer's approve: while it
stands no act but an approve of the member, or a purge of the event, lifts it
or makes the member's row approved (`revocation_final`).

Handlers look for a revocation before they await. A join that has looked is
kept from writing by the member's lock and by the generation of its event
state, unless a grant of that same generation records the revocation; a
handover that has looked at a roster entry is kept by nothing. `Timely` is
what has to be avoided, and `Barred` the invariant.
-/
import Nostrautica.Coordinator.MembershipFacts

set_option linter.unusedSectionVars false

namespace Nostrautica.Membership

open Tasks

variable {P R K : Type*} [DecidableEq P] [LinearOrder R] [DecidableEq K] {c : Setting P R K}
  {w w' : Coordinator P R K} {s s' : Store P R K} {k : Task R} {r : R} {p q : P} {th th' : Thread P K} {a : Answer P K}
  {o : Outcome P R K} {x : Act P R K} {byOrganizer : Bool} {es : List (Effect P R K)} {e : Effect P R K} {i : Nat}
  {todo : List P}

/-! ## What going on may do -/

/-- An effect of no install, that admits members in `A` only and records
revocations of members in `B` only. -/
def Emits (A B : P → Prop) : Effect P R K → Prop
  | .clearRevocation p => A p
  | .upsertAttendee p (some .approved) _ _ => A p
  | .recordRevocation p => B p
  | .installed .. => False
  | .live .. => False
  | _ => True

/-- Where a handler waits that has looked for a revocation and may write an
approved row yet. -/
def Pc.checked : Pc P K → Bool
  | .adopting .. => true
  | .entitling .. => true
  | _ => false

/-- Such effects, and a handler that waits where it has nothing to write, with the same event. -/
structure Lawful (th : Thread P K) (A B : P → Prop) (o : Outcome P R K) : Prop where
  effects : ∀ e ∈ o.1, Emits A B e
  next : ∀ th' ∈ o.2, th'.state = th.state ∧ th'.pc.checked = false

variable {pc : Pc P K} {A B : P → Prop}

theorem lawful_idle (he : ∀ e ∈ es, Emits A B e) (hpc : pc.checked = false) : Lawful th A B (es, th.goto pc) :=
  ⟨he, by
    rintro th' hth'
    cases hth'
    exact ⟨rfl, hpc⟩⟩

theorem lawful_skip (hpc : pc.checked = false) : Lawful th A B (th.skip pc : Outcome P R K) := lawful_idle (by simp) hpc

theorem lawful_end (he : ∀ e ∈ es, Emits A B e) : Lawful th A B (es, none) := ⟨he, by simp⟩

theorem lawful_after {f : Store P R K → Outcome P R K} (he : ∀ e ∈ es, Emits A B e) (hf : ∀ s, Lawful th A B (f s)) :
    Lawful th A B (after s es f) := by
  refine ⟨fun e hm => ?_, (hf _).next⟩
  rcases mem_after.mp hm with hm | hm
  · exact he e hm
  · exact (hf _).effects e hm

theorem lawful_completed : Lawful th A B (completed q r th : Outcome P R K) := lawful_idle (by simp [Emits]) rfl

theorem lawful_withdrawn {deleteData : Bool} : Lawful th A B (withdrawn s q r th deleteData) := by
  unfold withdrawn
  split
  · split
    · exact lawful_skip rfl
    · exact lawful_after (by simp [Emits]) fun _ => lawful_completed
  · exact lawful_completed

theorem lawful_finish {body : Body P K} : Lawful th A B (finish s r th body) := by
  cases body with
  | admin => exact lawful_completed
  | withdrawal => exact lawful_withdrawn
  | _ => exact lawful_skip rfl

theorem lawful_serve : Lawful th A B (serve s k th todo) := by
  cases todo with
  | nil =>
    cases k with
    | reissue gen => exact lawful_end (by simp [Emits])
    | _ => exact lawful_skip rfl
  | cons p todo =>
    cases k with
    | reissue gen => exact lawful_idle (by simp [Emits]) rfl
    | _ => exact lawful_skip rfl

theorem lawful_installDone : Lawful th A B (installDone s k th) := by
  cases k with
  | rumor r => exact lawful_idle (by simp [Emits]) rfl
  | _ => exact lawful_end (by simp [Emits])

theorem lawful_loop {stage : LoopStage K} {failed : Outcome P R K} (hf : Lawful th A B failed) :
    Lawful th A B (loop c s k th failed a q todo stage) := by
  cases stage with
  | proving => exact lawful_idle (by simp [Emits]) rfl
  | granting eck =>
    simp only [loop]
    split
    · split
      · split
        · exact lawful_idle (by simp [Emits]) rfl
        · exact lawful_after (by simp [Emits]) fun s => lawful_serve
      · exact lawful_idle (by simp [Emits]) rfl
    · exact hf
  | publishing =>
    simp only [loop]
    split
    · exact lawful_serve
    · exact hf

theorem lawful_grantAndPublish {done : Outcome P R K} (hd : Lawful th A B done) :
    Lawful th A B (grantAndPublish s q th done) := by
  unfold grantAndPublish
  split
  · exact hd
  · exact lawful_skip rfl

theorem lawful_rotate : Lawful th A B (rotate c s q r th byOrganizer a) := by
  unfold rotate
  split
  · exact lawful_skip rfl
  · split
    · split
      · exact lawful_skip rfl
      · exact lawful_idle (by simp [Emits]) rfl
    · exact lawful_idle (by simp [Emits]) rfl

theorem lawful_revokeAttendee {done : Outcome P R K} (h : byOrganizer = true → B q) (hd : Lawful th A B done) :
    Lawful th A B (revokeAttendee c s q r th byOrganizer a done) := by
  unfold revokeAttendee
  split
  · exact hd
  · refine lawful_after (fun e he => ?_) fun s => lawful_rotate
    split at he
    next hb =>
      cases List.mem_singleton.mp he
      exact h hb
    · cases he

theorem lawful_ordered {f : Store P R K → Outcome P R K} (hf : ∀ s, Lawful th A B (f s)) :
    Lawful th A B (ordered s q r th f) := by
  unfold ordered
  split
  · exact lawful_after (by simp [Emits]) hf
  · exact lawful_skip rfl

theorem lawful_handleWithdrawal {deleteData : Bool} : Lawful th A B (handleWithdrawal c s q r th deleteData a) := by
  unfold handleWithdrawal
  split
  · exact lawful_completed
  · split
    · exact lawful_revokeAttendee nofun lawful_withdrawn
    · split
      · exact lawful_after (by simp [Emits]) fun s => lawful_withdrawn
      · exact lawful_withdrawn

theorem lawful_admit (h : A q) (hes : ∀ e ∈ es, Emits A B e) : Lawful th A B (admitMember s q r th es) :=
  lawful_after (by simpa [Emits] using ⟨h, hes⟩) fun s => lawful_grantAndPublish lawful_completed

theorem lawful_approve (h : A q) : Lawful th A B (approve c s q r th a) := by
  unfold approve
  split
  · exact lawful_skip rfl
  · split
    · exact lawful_admit h (by simp)
    · exact lawful_skip rfl
    · split
      · exact lawful_completed
      · split
        · exact lawful_skip rfl
        · exact lawful_idle (by simp [Emits]) rfl

theorem lawful_approveAdmitted (h : A q) : Lawful th A B (approveAdmitted s q r th a) := by
  unfold approveAdmitted
  split
  · exact lawful_admit h (by simpa [Emits] using h)
  · exact lawful_skip rfl

theorem lawful_handleAdmin {cmd : AdminCommand} (h : cmd = .approve → A q) (h' : cmd = .revoke → B q) :
    Lawful th A B (handleAdmin c s cmd q r th a) := by
  refine lawful_ordered fun s => ?_
  cases cmd with
  | approve => exact lawful_approve (h rfl)
  | reprocess => exact lawful_skip rfl
  | revoke =>
    dsimp only
    split
    · exact lawful_revokeAttendee (fun _ => h' rfl) lawful_completed
    · exact lawful_completed

theorem lawful_decideJoin {queueFull granted : Bool} (h : A q) : Lawful th A B (decideJoin s q th queueFull granted a) := by
  unfold decideJoin
  split
  · exact lawful_after (by simpa [Emits] using h) fun s => lawful_grantAndPublish (lawful_skip rfl)
  · split
    · exact lawful_skip rfl
    · refine lawful_idle (fun e he => ?_) rfl
      cases List.mem_singleton.mp he
      cases s.status q with
      | none => trivial
      | some st => cases st <;> trivial

theorem lawful_joinChecked {existing : Option Status} {queueFull manual : Bool} (h : s.eventStillLive th.state = true → A q) :
    Lawful th A B (joinChecked s q th existing queueFull manual a) := by
  simp only [joinChecked]
  split
  · exact lawful_skip rfl
  · split
    · split
      · exact lawful_skip rfl
      · split
        · exact lawful_skip rfl
        next hlive => exact lawful_decideJoin (h (by simpa using hlive))
    · split
      · exact lawful_skip rfl
      next hlive =>
        split
        · refine lawful_idle (fun e he => ?_) rfl
          split at he
          · cases List.mem_singleton.mp he
            trivial
          · cases he
        · exact lawful_decideJoin (h (by simpa using hlive))

variable (th a) in
/-- A join that waits for its checks has found no revocation. -/
theorem handleJoin_cases (entitled : Bool) : Lawful th A B (handleJoin s q r th entitled a) ∨
    (∀ e ∈ (handleJoin s q r th entitled a).1, Emits A B e) ∧
      (∀ th' ∈ (handleJoin s q r th entitled a).2, th'.state = th.state ∧ ∀ p role rest, th'.pc ≠ .adopting p role rest) ∧
      s.revocations q = false := by
  have henroll : (∀ e ∈ (enroll s q th entitled a).1, Emits A B e) ∧
      ∀ th' ∈ (enroll s q th entitled a).2, th'.state = th.state ∧ ∀ p role rest, th'.pc ≠ .adopting p role rest := by
    simp only [enroll]
    split
    · exact ⟨by simp [Thread.skip], by simp [Thread.skip, Thread.goto]⟩
    · refine ⟨fun e he => ?_, fun th' hth' => ?_⟩
      · simp only [mem_after] at he
        rcases he with he | he
        · split at he
          · obtain ⟨q', -, rfl⟩ := List.mem_map.mp he
            trivial
          · cases he
        · split at he
          · simp [Thread.skip] at he
          · simp only [List.mem_ite_nil_left, List.mem_singleton] at he
            rw [he.2]
            trivial
      · simp only [after] at hth'
        split at hth' <;> cases hth' <;> exact ⟨rfl, fun _ _ _ h => by cases h⟩
  unfold handleJoin
  split
  · exact .inl (lawful_skip rfl)
  next hrev =>
    split
    · exact .inl (lawful_grantAndPublish (lawful_skip rfl))
    · exact .inr ⟨henroll.1, henroll.2, by simpa using hrev⟩
    · split
      · exact .inl (lawful_skip rfl)
      · exact .inr ⟨henroll.1, henroll.2, by simpa using hrev⟩

theorem revocations_of_nextAdopted {role : Role} {rest : List (P × Role)} : ∀ {roster : List (P × Role)},
    nextAdopted s roster = some (p, role, rest) → s.revocations p = false
  | [], h => by cases h
  | (q, role') :: roster, h => by
    simp only [nextAdopted] at h
    split at h
    · exact revocations_of_nextAdopted h
    · split at h
      · exact revocations_of_nextAdopted h
      next hrev =>
        split at h <;> cases h
        simpa using hrev

variable (th) in
/-- A handover that adopts a member has found no revocation. -/
theorem bootstrap_cases (roster : List (P × Role)) : Lawful th A B (bootstrap s k th roster) ∨
    ∃ p role rest, bootstrap s k th roster = th.skip (.adopting p role rest) ∧ s.revocations p = false := by
  unfold bootstrap
  split
  next p role rest h => exact .inr ⟨p, role, rest, rfl, revocations_of_nextAdopted h⟩
  · exact .inl lawful_serve

/-! ## Installs -/

/-- A grant this coordinator accepts once it has the config. -/
def accepts (s : Store P R K) (g : Grant P K) (a : Answer P K) : Bool :=
  a.ok && !(g.gen < s.highGen) &&
    !(g.gen = s.highGen && (s.event.isNone || s.tombstoned || s.completedInstallGen = some g.gen)) && a.config = .matches

variable (th) in
/-- An install that is not accepted has no effect. -/
theorem installEvent_cases {g : Grant P K} (full : Bool) :
    (installEvent c s th g full a).1 = [] ∧ (∀ th' ∈ (installEvent c s th g full a).2, th'.pc = .sleeping ∨ th'.pc = .returned) ∨
      accepts s g a = true ∧ ∃ eck, installEvent c s th g full a =
        (.installed g.gen eck :: seedRevocations s g.revoked a.now ++ [.live g.gen eck],
          some { th with state := s.made, pc := .installing full }) := by
  unfold installEvent accepts
  split
  · exact .inl ⟨rfl, by simp [Thread.skip, Thread.goto]⟩
  next hok =>
    split
    · exact .inl ⟨rfl, by simp [Thread.skip, Thread.goto]⟩
    next hlow =>
      split
      · exact .inl ⟨rfl, by simp [Thread.skip, Thread.goto]⟩
      next hsame =>
        split
        · exact .inl ⟨rfl, by simp [Thread.skip, Thread.goto]⟩
        · exact .inl ⟨rfl, by simp [Thread.skip, Thread.goto]⟩
        next hcfg =>
          refine .inr ⟨?_, _, rfl⟩
          simp only [Bool.not_eq_true, Bool.not_eq_false'] at hok
          simp only [Bool.and_eq_true, Bool.not_eq_true', decide_eq_true_eq, decide_eq_false_iff_not, Bool.and_eq_false_imp]
          exact ⟨⟨⟨hok, hlow⟩, fun hg => Bool.eq_false_iff.mpr fun h => hsame ⟨hg, h⟩⟩, hcfg⟩

/-! ## Going on -/

/-- A handler has looked for a revocation of `p`, found none, and may approve
the row when it goes on. -/
def Watches (c : Setting P R K) (k : Task R) (th : Thread P K) (p : P) : Prop :=
  (∃ role rest, th.pc = .adopting p role rest) ∨
    ∃ r entitled existing queueFull manual, k = .rumor r ∧ (c.rumor r).body = .join p entitled ∧
      th.pc = .entitling existing queueFull manual

/-- Who may be admitted when a handler goes on. -/
def Admits (c : Setting P R K) (s : Store P R K) (k : Task R) (th : Thread P K) (p : P) : Prop :=
  (∃ r expires, k = .rumor r ∧ (c.rumor r).body = .admin .approve p expires) ∨
    Watches c k th p ∧ ((∃ role rest, th.pc = .adopting p role rest) ∨ s.eventStillLive th.state = true)

/-- Whose revocation is recorded: a revoke starts. -/
def Revokes (c : Setting P R K) (k : Task R) (th : Thread P K) (p : P) : Prop :=
  ∃ r expires, k = .rumor r ∧ th.pc = .queued ∧ (c.rumor r).body = .admin .revoke p expires

/-- What a handler that is no accepted install does. -/
structure Goes (c : Setting P R K) (s : Store P R K) (k : Task R) (th : Thread P K) (o : Outcome P R K) : Prop where
  effects : ∀ e ∈ o.1, Emits (Admits c s k th) (Revokes c k th) e
  state : ∀ th' ∈ o.2, ∀ r p entitled, k = .rumor r → (c.rumor r).body = .join p entitled → th'.state = th.state
  watches : ∀ th' ∈ o.2, ∀ p, Watches c k th' p → (c.rules.run s o.1).revocations p = false

theorem not_watches (h : th.pc.checked = false) : ¬ Watches c k th p := by
  rintro (⟨role, rest, hpc⟩ | ⟨r, entitled, existing, queueFull, manual, -, -, hpc⟩) <;> rw [hpc] at h <;> cases h

theorem Lawful.goes (h : Lawful th (Admits c s k th) (Revokes c k th) o) : Goes c s k th o where
  effects := h.effects
  state th' hth' _ _ _ _ _ := (h.next th' hth').1
  watches th' hth' _ hp := absurd hp (not_watches (h.next th' hth').2)

theorem revocations_of_emits (he : ∀ e ∈ es, Emits A (fun _ => False) e) (h : s.revocations p = false) :
    (c.rules.run s es).revocations p = false := by
  refine Rules.run_invariant (I := fun t : Store P R K => t.revocations p = false) (fun e hm t ht => ?_) h
  cases e with
  | recordRevocation => exact (he _ hm).elim
  | clearRevocation q =>
    by_cases hpq : p = q
    · simp [Setting.rules, Store.apply, hpq]
    · simpa [Setting.rules, Store.apply, Function.update_of_ne hpq] using ht
  | _ => exact ht

theorem goes_start {body : Body P K} (hb : (c.rumor r).body = body) (hpc : th.pc = .queued)
    (h : start c s r th a body = some o) : Goes c s (.rumor r) th o := by
  cases body <;> simp only [start, Option.some.injEq] at h
  case admin cmd q x =>
    subst h
    refine (lawful_handleAdmin ?_ ?_).goes
    · rintro rfl
      exact .inl ⟨r, x, rfl, hb⟩
    · rintro rfl
      exact ⟨r, x, rfl, hpc, hb⟩
  case withdrawal q deleteData =>
    subst h
    exact (lawful_ordered fun s => lawful_handleWithdrawal).goes
  case join q entitled =>
    subst h
    rcases handleJoin_cases th a entitled (A := Admits c s (.rumor r) th) (B := Revokes c (.rumor r) th) (s := s) (q := q) (r := r) with h | ⟨he, hn, hrev⟩
    · exact h.goes
    · refine ⟨he, fun th' hth' _ _ _ _ _ => (hn th' hth').1, fun th' hth' p hp => ?_⟩
      rcases hp with ⟨role, rest, hpc'⟩ | ⟨r', ent, ex, qf, m, hk, hb', -⟩
      · exact absurd hpc' ((hn th' hth').2 p role rest)
      · cases hk
        rw [hb] at hb'
        cases hb'
        rcases handleJoin_cases th a entitled (A := Admits c s (.rumor r) th) (B := fun _ => False) (s := s) (q := q) (r := r) with h | ⟨he', -, -⟩
        · exact revocations_of_emits h.effects hrev
        · exact revocations_of_emits he' hrev
  case grant => cases h
  all_goals
    subst h
    split
    · first | exact (lawful_skip rfl).goes | exact (lawful_idle (by simp [Emits]) rfl).goes
    · first
        | exact (lawful_skip rfl).goes
        | (refine (lawful_idle (by simp [Emits]) ?_).goes
           split <;> rfl)

/-- **Going on from an await point**, and an accepted install, apart. -/
theorem settle_cases (h : settle c s k th a = some o) : Goes c s k th o ∨
    ∃ r g full eck, k = .rumor r ∧ th.pc = .configuring full ∧ (c.rumor r).body = .grant g ∧ accepts s g a = true ∧
      o = (.installed g.gen eck :: seedRevocations s g.revoked a.now ++ [.live g.gen eck],
        some { th with state := s.made, pc := .installing full }) := by
  have hboot : ∀ (es) {roster} {f : Store P R K → Outcome P R K} {s'}, f s' = bootstrap s' k th roster → (∀ e ∈ es, Emits (Admits c s k th) (Revokes c k th) e) →
      (c.rules.run s es) = s' → s'.revocations = s.revocations → Goes c s k th (es ++ (f s').1, (f s').2) := by
    intro es roster f s' hf hes hs' hrev
    rw [hf]
    rcases bootstrap_cases th roster (A := Admits c s k th) (B := Revokes c k th) (s := s') (k := k) with
      h | ⟨p, role, rest, hb, hp⟩
    · refine Lawful.goes ⟨fun e he => ?_, h.next⟩
      rcases List.mem_append.mp he with he | he
      · exact hes e he
      · exact h.effects e he
    · rw [hb]
      refine ⟨by simpa [Thread.skip] using hes, fun th' hth' _ _ _ _ _ => ?_, fun th' hth' q hq => ?_⟩
      · cases hth'
        rfl
      · cases hth'
        rcases hq with ⟨role', rest', hpc⟩ | ⟨r, ent, ex, qf, m, -, -, hpc⟩
        · cases hpc
          simpa [Thread.skip, hs'] using hp
        · cases hpc
  cases k with
  | rumor r =>
    cases hpc : th.pc <;> simp only [settle, resume, hpc, Option.some.injEq] at h
    case queued => exact .inl (goes_start rfl hpc h)
    case sleeping =>
      subst h
      refine .inl ⟨by simp, fun th' hth' r' p entitled hk hb => ?_, fun th' hth' p hp => ?_⟩
      · cases hk
        dsimp only at hth'
        split at hth'
        · rw [hb] at hth'
          cases hth'
          rfl
        · cases hth'
      · dsimp only at hth'
        split at hth'
        · refine absurd hp (not_watches ?_)
          rcases dispatch_pc hth' with hpc | hpc | ⟨g, full, -, hpc⟩ <;> rw [hpc] <;> rfl
        · cases hth'
    case returned =>
      subst h
      exact .inl (lawful_end (by simp [Emits])).goes
    case admitting =>
      split at h
      next q x hb =>
        cases h
        exact .inl (lawful_approveAdmitted (.inl ⟨r, x, rfl, hb⟩)).goes
      · cases h
    case entitling existing queueFull manual =>
      split at h
      next q entitled hb =>
        cases h
        exact .inl (lawful_joinChecked fun hlive =>
          .inr ⟨.inr ⟨r, entitled, existing, queueFull, manual, rfl, hb, hpc⟩, .inr hlive⟩).goes
      · cases h
    case proving =>
      obtain ⟨q, -, rfl⟩ := Option.map_eq_some_iff.mp h
      refine .inl (Lawful.goes ?_)
      unfold grantProved
      split
      · exact lawful_idle (by simp [Emits]) rfl
      · exact lawful_finish
    case granting eck =>
      obtain ⟨q, -, rfl⟩ := Option.map_eq_some_iff.mp h
      refine .inl (Lawful.goes ?_)
      split
      · exact lawful_idle (by simp [Emits]) rfl
      · exact lawful_skip rfl
    case publishing =>
      subst h
      refine .inl (Lawful.goes ?_)
      split
      · exact lawful_finish
      · exact lawful_skip rfl
    case deleting =>
      obtain ⟨q, -, rfl⟩ := Option.map_eq_some_iff.mp h
      refine .inl (Lawful.goes ?_)
      unfold deletionPublished
      split
      · exact lawful_after (by simp [Emits]) fun s => lawful_serve
      · exact lawful_skip rfl
    case serving stage q todo =>
      refine .inl (Lawful.goes ?_)
      split at h <;> cases h
      · exact lawful_loop lawful_installDone
      · exact lawful_loop (lawful_skip rfl)
    case closing =>
      refine .inl (Lawful.goes ?_)
      split at h <;> cases h
      · exact lawful_installDone
      · split
        · exact lawful_finish
        · exact lawful_skip rfl
    case configuring full =>
      split at h
      next g hb =>
        cases h
        rcases installEvent_cases th full (c := c) (s := s) (g := g) (a := a) with ⟨he, hn⟩ | ⟨hacc, eck, ho⟩
        · refine .inl ⟨by simp [he], fun th' hth' r' p entitled hk hb' => ?_, fun th' hth' p hp => ?_⟩
          · cases hk
            rw [hb] at hb'
            cases hb'
          · refine absurd hp (not_watches ?_)
            rcases hn th' hth' with hpc | hpc <;> rw [hpc] <;> rfl
        · exact .inr ⟨r, g, full, eck, rfl, rfl, hb, hacc, ho⟩
      · cases h
    case installing full =>
      subst h
      refine .inl (Lawful.goes ?_)
      split
      · exact lawful_skip rfl
      · split
        · exact lawful_skip rfl
        · exact lawful_installDone
    case rostering =>
      subst h
      refine .inl ?_
      split
      · exact hboot [] (f := fun s => bootstrap s (.rumor r) th a.roster) rfl (by simp) rfl rfl
      · exact lawful_installDone.goes
    case adopting q role rest =>
      subst h
      refine .inl (hboot [.upsertAttendee q (some .approved) (some role) a.now]
        (f := fun s => bootstrap s (.rumor r) th rest) rfl (fun e he => ?_) rfl rfl)
      cases List.mem_singleton.mp he
      exact .inr ⟨.inl ⟨role, rest, hpc⟩, .inl ⟨role, rest, hpc⟩⟩
    case linking => cases h
  | reissue gen =>
    cases hpc : th.pc <;> simp only [settle, hpc, Option.some.injEq, reduceCtorEq] at h
    case linking =>
      subst h
      refine .inl (Lawful.goes ?_)
      split
      · exact lawful_serve
      · exact lawful_end (by simp)
    case serving stage q todo =>
      subst h
      exact .inl (lawful_loop (lawful_end (by simp))).goes
  | restore =>
    simp only [settle, Option.some.injEq] at h
    subst h
    refine .inl (Lawful.goes ?_)
    split
    · exact lawful_installDone
    · exact lawful_end (by simp)

/-! ## The invariant -/

/-- The live event, and the one a restart makes live, have the highest
generation. -/
structure Store.Coherent (s : Store P R K) : Prop where
  live : ∀ i, s.live = some i → i < s.made ∧ (s.states i).gen = s.highGen
  event : ∀ row, s.event = some row → s.tombstoned = false → row.gen = s.highGen

/-- Where a revocation of `p` is on record, no handler that has looked for one
before can approve the row: none adopts `p`, and a join of `p` has the event
of an older generation. -/
structure Barred (c : Setting P R K) (w : Coordinator P R K) : Prop where
  owned : c.rules.Owned w
  coherent : w.store.Coherent
  state : ∀ r th p entitled, w.tasks (.rumor r) = some th → (c.rumor r).body = .join p entitled →
    th.state < w.store.made ∧ (w.store.states th.state).gen ≤ w.store.highGen
  watches : ∀ k th p, w.tasks k = some th → Watches c k th p → w.store.revocations p = true →
    (∀ role rest, th.pc ≠ .adopting p role rest) ∧ (w.store.states th.state).gen < w.store.highGen

/-- What keeps a revocation final: when it is recorded no handover is adopting
its member, and where a grant records it no join of the member is past its
check with an event of the grant's generation. -/
structure Timely (w : Coordinator P R K) (c : Setting P R K) (x : Act P R K) : Prop where
  revoke : ∀ r a th p expires, x = .settle (.rumor r) a → w.tasks (.rumor r) = some th → th.pc = .queued →
    (c.rumor r).body = .admin .revoke p expires →
      ∀ j th' role rest, w.tasks j = some th' → th'.pc ≠ .adopting p role rest
  grant : ∀ r a th g full, x = .settle (.rumor r) a → w.tasks (.rumor r) = some th → th.pc = .configuring full →
    (c.rumor r).body = .grant g → accepts w.store g a = true → ∀ p ∈ g.revoked, ∀ j th', w.tasks j = some th' →
      Watches c j th' p → (∀ role rest, th'.pc ≠ .adopting p role rest) ∧ (w.store.states th'.state).gen ≠ g.gen

/-- An approve of `p` acts, or the event's tables are purged. -/
def Lifts (c : Setting P R K) (p : P) (x : Act P R K) : Prop :=
  (∃ r expires, (c.rumor r).body = .admin .approve p expires ∧
    ((∃ a, x = .settle (.rumor r) a) ∨ ∃ a n, x = .crashDuring (.rumor r) a n)) ∨ ∃ expire, x = .purgeEvent expire

/-- What effects of no install leave of the generations. -/
theorem emits_gens {A B : P → Prop} (he : ∀ e ∈ es, Emits A B e) :
    (c.rules.run s es).live = s.live ∧ (c.rules.run s es).made = s.made ∧ (c.rules.run s es).highGen = s.highGen ∧
      (c.rules.run s es).tombstoned = s.tombstoned ∧ (∀ i, ((c.rules.run s es).states i).gen = (s.states i).gen) ∧
      (c.rules.run s es).event.map (·.gen) = s.event.map (·.gen) := by
  refine Rules.run_invariant (I := fun t : Store P R K => t.live = s.live ∧ t.made = s.made ∧ t.highGen = s.highGen ∧
    t.tombstoned = s.tombstoned ∧ (∀ i, (t.states i).gen = (s.states i).gen) ∧ t.event.map (·.gen) = s.event.map (·.gen))
    (fun e hm t ht => ?_) ⟨rfl, rfl, rfl, rfl, fun _ => rfl, rfl⟩
  obtain ⟨h1, h2, h3, h4, h5, h6⟩ := ht
  cases e with
  | installed => exact (he _ hm).elim
  | live => exact (he _ hm).elim
  | setEck i eck =>
    refine ⟨h1, h2, h3, h4, fun j => ?_, ?_⟩
    · simp only [Setting.rules, Store.apply, Function.update_apply]
      split
      next hj =>
        subst hj
        exact h5 _
      · exact h5 j
    · simpa [Setting.rules, Store.apply, Function.comp_def] using h6
  | _ => exact ⟨h1, h2, h3, h4, h5, h6⟩

theorem Store.Coherent.run {A B : P → Prop} (h : s.Coherent) (he : ∀ e ∈ es, Emits A B e) :
    (c.rules.run s es).Coherent := by
  obtain ⟨h1, h2, h3, h4, h5, h6⟩ := emits_gens (c := c) (s := s) he
  refine ⟨fun i hi => ?_, fun row hrow ht => ?_⟩
  · rw [h1] at hi
    rw [h2, h3, h5]
    exact h.live i hi
  · rw [hrow] at h6
    obtain ⟨row', hrow', hgen⟩ := Option.map_eq_some_iff.mp h6.symm
    rw [h4] at ht
    rw [h3, ← h.event row' hrow' ht]
    exact hgen.symm

theorem Store.Coherent.stale (h : s.Coherent) (hi : (s.states i).gen < s.highGen) : s.eventStillLive i = false := by
  unfold Store.eventStillLive
  cases hl : s.live with
  | none => rfl
  | some j =>
    have hj := (h.live j hl).2
    have hne : (s.states j).gen ≠ (s.states i).gen := by omega
    simp [hne]

theorem recorded_of_emits {A B : P → Prop} (he : ∀ e ∈ es, Emits A B e) (h : (c.rules.run s es).revocations p = true) :
    s.revocations p = true ∨ B p := by
  by_contra hn
  rw [not_or, Bool.not_eq_true] at hn
  have hfalse : (c.rules.run s es).revocations p = false := by
    refine Rules.run_invariant (I := fun t : Store P R K => t.revocations p = false) (fun e hm t ht => ?_) hn.1
    have hem := he e hm
    cases e with
    | recordRevocation q =>
      have hqp : p ≠ q := by
        rintro rfl
        exact hn.2 hem
      simpa [Setting.rules, Store.apply, Function.update_of_ne hqp] using ht
    | clearRevocation q =>
      by_cases hpq : p = q
      · simp [Setting.rules, Store.apply, hpq]
      · simpa [Setting.rules, Store.apply, Function.update_of_ne hpq] using ht
    | _ => exact ht
  rw [hfalse] at h
  cases h

theorem emits_seedRevocations {l : List P} {n : Nat} :
    ∀ e ∈ seedRevocations s l n, Emits (fun _ => False) (· ∈ l) e := by
  intro e he
  simp only [seedRevocations, List.mem_flatMap, List.mem_eraseDups] at he
  obtain ⟨q, hq, he⟩ := he
  split at he
  · simp only [List.mem_cons, List.not_mem_nil, or_false] at he
    rcases he with rfl | rfl
    · exact hq
    · trivial
  · cases List.mem_singleton.mp he
    exact hq

/-- The store an accepted install leaves: a new event state is live, at the
highest generation. -/
theorem installed_store {g : Grant P K} {v : List (EckVersion K)} {n : Nat} (h : accepts s g a = true) :
    s.highGen ≤ g.gen ∧
      ∃ t, t = c.rules.run s (.installed g.gen v :: seedRevocations s g.revoked n ++ [.live g.gen v]) ∧
      t.Coherent ∧ t.made = s.made + 1 ∧ t.highGen = g.gen ∧ (∀ i < s.made, (t.states i).gen = (s.states i).gen) ∧
      ∀ p, t.revocations p = true → s.revocations p = true ∨ p ∈ g.revoked := by
  have hge : s.highGen ≤ g.gen := by
    simp only [accepts, Bool.and_eq_true, Bool.not_eq_true', decide_eq_false_iff_not] at h
    exact Nat.le_of_not_lt h.1.1.2
  refine ⟨hge, _, rfl, ?_⟩
  set s₁ := s.apply (.installed g.gen v) with hs₁
  obtain ⟨h1, h2, h3, h4, h5, h6⟩ := emits_gens (c := c) (s := s₁) (emits_seedRevocations (s := s) (l := g.revoked) (n := n))
  have hrun : c.rules.run s (.installed g.gen v :: seedRevocations s g.revoked n ++ [.live g.gen v]) =
      (c.rules.run s₁ (seedRevocations s g.revoked n)).apply (.live g.gen v) := by
    rw [Rules.run_append, Rules.run_cons, Rules.run_cons, Rules.run_nil]
    rfl
  rw [hrun]
  set s₂ := c.rules.run s₁ (seedRevocations s g.revoked n) with hs₂
  have hhigh : s₂.highGen = g.gen := h3.trans (max_eq_right hge)
  have hmade : s₂.made = s.made := h2
  refine ⟨⟨fun i hi => ?_, fun row hrow ht => ?_⟩, by simp [Store.apply, hmade], hhigh, fun i hi => ?_, fun p hp => ?_⟩
  · cases hi
    simp [Store.apply, hhigh]
  · have hrow' : s₂.event = some row := hrow
    rw [hrow'] at h6
    have hgen : row.gen = g.gen := by simpa [hs₁, Store.apply] using h6
    exact hgen.trans hhigh.symm
  · have hne : i ≠ s₂.made := by omega
    have hgen : (s₂.states i).gen = (s.states i).gen := h5 i
    simpa [Store.apply, Function.update_of_ne hne] using hgen
  · have hp' : s₂.revocations p = true := hp
    exact recorded_of_emits (c := c) (s := s₁) (emits_seedRevocations (s := s)) hp'

theorem subject_of_watches (h : Watches c k th p) (hn : ∀ role rest, th.pc ≠ .adopting p role rest) :
    ∃ r entitled, k = .rumor r ∧ (c.rumor r).body = .join p entitled ∧ c.rules.held k th = some p := by
  rcases h with ⟨role, rest, hpc⟩ | ⟨r, entitled, ex, qf, m, rfl, hb, hpc⟩
  · exact absurd hpc (hn role rest)
  · exact ⟨r, entitled, rfl, hb, by simp [Setting.rules, hpc, Pc.inside, Setting.subject, hb, Body.subject]⟩

theorem Barred.settle (hw : Barred c w) (hth : w.tasks k = some th) (hr : c.rules.ready w k th = true)
    (hs : settle c w.store k th a = some o) (hx : Timely w c (.settle k a)) :
    Barred c (c.rules.advance w k o.1 o.2) := by
  have hown : c.rules.Owned (c.rules.advance w k o.1 o.2) := hw.owned.advance hth hr fun l hl => held_next hs hl
  rcases settle_cases hs with hg | ⟨r, g, full, eck, rfl, hpc, hb, hacc, rfl⟩
  · obtain ⟨h1, h2, h3, h4, h5, -⟩ := emits_gens (c := c) (s := w.store) hg.effects
    refine ⟨hown, hw.coherent.run hg.effects, fun r' th' p entitled hj hb => ?_, fun j th' p hj hp hrev => ?_⟩
    · rw [Rules.advance_store, h2, h3, h5]
      rw [Rules.advance_tasks] at hj
      split at hj
      next hjk =>
        subst hjk
        rw [hg.state th' hj r' p entitled rfl hb]
        exact hw.state r' th p entitled hth hb
      · exact hw.state r' th' p entitled hj hb
    · rw [Rules.advance_store] at hrev
      rw [Rules.advance_store, h3, h5]
      rw [Rules.advance_tasks] at hj
      split at hj
      next hjk =>
        subst hjk
        rw [hg.watches th' hj p hp] at hrev
        cases hrev
      · rcases recorded_of_emits hg.effects hrev with hrev | ⟨r, x, rfl, hpc, hb⟩
        · exact hw.watches j th' p hj hp hrev
        · -- the revoke that starts takes the lock that a join of `p` would hold
          have hn := fun role rest => hx.revoke r a th p x rfl hth hpc hb j th' role rest hj
          obtain ⟨r', ent, rfl, -, hheld⟩ := subject_of_watches hp hn
          have hwant : c.rules.wanted (.rumor r) th = some p := by
            simp [Setting.rules, hpc, Setting.subject, hb, Body.subject]
          exact absurd hheld (hw.owned.not_held hr hwant hj)
  · obtain ⟨hge, t, ht, hcoh, hmade, hhigh, hgen, hrec⟩ := installed_store (c := c) (v := eck) (n := a.now) hacc
    have hstore : (c.rules.advance w (.rumor r) (.installed g.gen eck :: seedRevocations w.store g.revoked a.now ++ [.live g.gen eck])
        (some { th with state := w.store.made, pc := .installing full })).store = t := ht.symm
    refine ⟨hown, hstore ▸ hcoh, fun r' th' p entitled hj hb' => ?_, fun j th' p hj hp hrev => ?_⟩
    · rw [hstore, hmade, hhigh]
      rw [Rules.advance_tasks] at hj
      split at hj
      next hjk =>
        cases hjk
        rw [hb] at hb'
        cases hb'
      · obtain ⟨hlt, hle⟩ := hw.state r' th' p entitled hj hb'
        rw [hgen _ hlt]
        exact ⟨by omega, by omega⟩
    · rw [hstore] at hrev ⊢
      rw [hhigh]
      rw [Rules.advance_tasks] at hj
      split at hj
      · cases hj
        exact absurd hp (not_watches rfl)
      · have hno : (∀ role rest, th'.pc ≠ .adopting p role rest) ∧ (w.store.states th'.state).gen ≠ g.gen := by
          rcases hrec p hrev with hrev | hmem
          · obtain ⟨hn, hlt⟩ := hw.watches j th' p hj hp hrev
            exact ⟨hn, by omega⟩
          · exact hx.grant r a th g full rfl hth hpc hb hacc p hmem j th' hj hp
        obtain ⟨r', ent, rfl, hb', -⟩ := subject_of_watches hp hno.1
        obtain ⟨hlt, hle⟩ := hw.state r' th' p ent hj hb'
        rw [hgen _ hlt]
        exact ⟨hno.1, by omega⟩

/-- A crash in the midst of a handler leaves a row of the highest generation. -/
theorem coherent_crashed {n : Nat} (hw : s.Coherent) (hs : Membership.settle c s k th a = some o) :
    (c.rules.run s (o.1.take n)).crashed.Coherent := by
  refine ⟨nofun, fun row hrow ht => ?_⟩
  rcases settle_cases hs with hg | ⟨r, g, full, eck, rfl, hpc, hb, hacc, rfl⟩
  · exact (hw.run fun e he => hg.effects e (List.mem_of_mem_take he)).event row hrow ht
  · cases n with
    | zero => exact hw.event row hrow ht
    | succ n =>
      have hge : s.highGen ≤ g.gen := (installed_store (c := c) (v := eck) (n := a.now) hacc).1
      rw [List.cons_append, List.take_succ_cons, Rules.run_cons] at hrow ⊢
      set es := (seedRevocations s g.revoked a.now ++ [Effect.live g.gen eck]).take n with hes
      have hkeep : (c.rules.run (s.apply (.installed g.gen eck)) es).event.map (·.gen) = some g.gen ∧
          (c.rules.run (s.apply (.installed g.gen eck)) es).highGen = g.gen := by
        refine Rules.run_invariant (I := fun t : Store P R K => t.event.map (·.gen) = some g.gen ∧ t.highGen = g.gen)
          (fun e he t ht => ?_) ⟨rfl, max_eq_right hge⟩
        rcases List.mem_append.mp (List.mem_of_mem_take he) with he | he
        · have hem := emits_seedRevocations e he
          obtain ⟨-, -, h3, -, -, h6⟩ := emits_gens (c := c) (s := t) (show ∀ e' ∈ [e], Emits _ _ e' by simpa using hem)
          exact ⟨h6.trans ht.1, h3.trans ht.2⟩
        · cases List.mem_singleton.mp he
          exact ht
      change (c.rules.run (s.apply (.installed g.gen eck)) es).event = some row at hrow
      change row.gen = (c.rules.run (s.apply (.installed g.gen eck)) es).highGen
      rw [hrow] at hkeep
      have hgen : row.gen = g.gen := by simpa using hkeep.1
      exact hgen.trans hkeep.2.symm

theorem Barred.spawn (hw : Barred c w) (hnone : w.tasks k = none) (hheld : c.rules.held k th = none)
    (hpc : th.pc.checked = false)
    (hst : ∀ r p entitled, k = .rumor r → (c.rumor r).body = .join p entitled → w.store.live = some th.state) :
    Barred c (w.spawn k th) := by
  refine ⟨hw.owned.spawn hnone hheld, hw.coherent, fun r th' p entitled hj hb => ?_, fun j th' p hj hp hrev => ?_⟩
  · rw [World.spawn_tasks] at hj
    split at hj
    next hk =>
      cases hj
      obtain ⟨hlt, hgen⟩ := hw.coherent.live _ (hst r p entitled hk.symm hb)
      exact ⟨hlt, hgen.le⟩
    · exact hw.state r th' p entitled hj hb
  · rw [World.spawn_tasks] at hj
    split at hj
    · cases hj
      exact absurd hp (not_watches hpc)
    · exact hw.watches j th' p hj hp hrev

/-- **Every timely act keeps the invariant.** -/
theorem Barred.step (hw : Barred c w) (h : Step c w x w') (hx : Timely w c x) : Barred c w' := by
  have hown := owned_step hw.owned h
  cases x with
  | deliver r now =>
    obtain ⟨-, hnone, ⟨-, rfl⟩ | ⟨i, th, hi, hth, rfl⟩⟩ := of_deliver h
    · exact ⟨hown, ⟨hw.coherent.live, hw.coherent.event⟩, hw.state, hw.watches⟩
    · refine hw.spawn hnone (held_dispatch hth) ?_ fun r' p entitled hr hb => ?_
      · rcases dispatch_pc hth with hpc | hpc | ⟨g, full, -, hpc⟩ <;> rw [hpc] <;> rfl
      · cases hr
        rw [hb] at hi hth
        cases hth
        exact hi
  | settle k a =>
    obtain ⟨o, ho, rfl⟩ := Option.map_eq_some_iff.mp h
    obtain ⟨th, hth, hr, hs⟩ := of_outcome ho
    exact hw.settle hth hr hs hx
  | sweep =>
    obtain ⟨i, -, hnone, rfl⟩ := of_sweep h
    exact hw.spawn hnone (by simp [Setting.rules, Setting.subject]) rfl fun _ _ _ hk => by cases hk
  | crash =>
    cases h
    exact ⟨hown, ⟨(fun _ hl => by cases hl), hw.coherent.event⟩, (fun _ _ _ _ ht => by cases ht), fun _ _ _ ht => by cases ht⟩
  | crashDuring k a n =>
    obtain ⟨o, ho, rfl⟩ := Option.map_eq_some_iff.mp h
    obtain ⟨th, hth, hr, hs⟩ := of_outcome ho
    exact ⟨hown, coherent_crashed hw.coherent hs, (fun _ _ _ _ ht => by cases ht), fun _ _ _ ht => by cases ht⟩
  | restore =>
    obtain ⟨row, hrow, hlive, ht, hnone, rfl⟩ := of_restore h
    have hgen := hw.coherent.event row hrow ht
    set eck := unionEck c.fingerprint row.eck row.eck
    set t := c.rules.run w.store [.installed row.gen eck, .live row.gen eck] with hts
    have hstates : ∀ i < w.store.made, t.states i = w.store.states i := by
      intro i hi
      simp [hts, Setting.rules, Store.apply, Function.update_of_ne (Nat.ne_of_lt hi)]
    have hhigh : t.highGen = w.store.highGen := by simp [hts, Setting.rules, Store.apply, hgen]
    have hw' : Barred c { w with store := t } := by
      refine ⟨hw.owned, ⟨fun i hi => ?_, fun row' hrow' _ => ?_⟩, fun r th p entitled hj hb => ?_, fun j th p hj hp hrev => ?_⟩
      · cases hi
        exact ⟨Nat.lt_succ_self _, by simp [hts, Setting.rules, Store.apply, hgen]⟩
      · cases hrow'
        exact hgen.trans hhigh.symm
      · obtain ⟨hlt, hle⟩ := hw.state r th p entitled hj hb
        show th.state < w.store.made + 1 ∧ (t.states th.state).gen ≤ t.highGen
        rw [hstates _ hlt, hhigh]
        exact ⟨Nat.lt_succ_of_lt hlt, hle⟩
      · obtain ⟨hn, hlt⟩ := hw.watches j th p hj hp hrev
        obtain ⟨r', ent, rfl, hb, -⟩ := subject_of_watches hp hn
        show _ ∧ (t.states th.state).gen < t.highGen
        rw [hstates _ (hw.state r' th p ent hj hb).1, hhigh]
        exact ⟨hn, hlt⟩
    exact hw'.spawn hnone (by simp [Setting.rules, Setting.subject]) rfl fun _ _ _ hk => by cases hk
  | detach =>
    cases h
    exact ⟨hown, ⟨(fun _ hl => by cases hl), fun _ he => by cases he⟩, hw.state, hw.watches⟩
  | purgeEvent expire =>
    cases h
    exact ⟨hown, ⟨hw.coherent.live, hw.coherent.event⟩, hw.state, fun _ _ _ _ _ hrev => Bool.noConfusion hrev⟩

theorem barred_fresh (h : s.Coherent) : Barred c (.fresh s) := ⟨World.owned_fresh, h, nofun, nofun⟩

/-- Effects that do not admit `p` keep the revocation and the row of `p`. -/
theorem kept_of_emits {A B : P → Prop} (he : ∀ e ∈ es, Emits A B e) (hA : ¬ A p) :
    (s.revocations p = true → (c.rules.run s es).revocations p = true) ∧
      ((c.rules.run s es).status p = some .approved → s.status p = some .approved) := by
  refine Rules.run_invariant (I := fun t : Store P R K => (s.revocations p = true → t.revocations p = true) ∧
    (t.status p = some .approved → s.status p = some .approved)) (fun e hm t ht => ?_) ⟨id, id⟩
  have hem := he e hm
  cases e with
  | clearRevocation q =>
    have hqp : p ≠ q := by
      rintro rfl
      exact hA hem
    exact ⟨by simpa [Setting.rules, Store.apply, Function.update_of_ne hqp] using ht.1, ht.2⟩
  | recordRevocation q =>
    refine ⟨fun hs => ?_, ht.2⟩
    by_cases hpq : p = q
    · simp [Setting.rules, Store.apply, hpq]
    · simpa [Setting.rules, Store.apply, Function.update_of_ne hpq] using ht.1 hs
  | upsertAttendee q st role now =>
    refine ⟨ht.1, fun hs => ?_⟩
    have hs' : (t.apply (.upsertAttendee q st role now)).status p = some .approved := hs
    rw [Store.status_upsert] at hs'
    split at hs'
    next hqp =>
      subst hqp
      cases st with
      | none => cases hst : t.status q <;> rw [hst] at hs' <;> simp_all
      | some st =>
        cases st
        · cases hs'
        · exact absurd hem hA
        · cases hs'
    · exact ht.2 hs'
  | purgeAttendeeArtifacts q =>
    refine ⟨ht.1, fun hs => ?_⟩
    have hs' : (t.apply (.purgeAttendeeArtifacts q)).status p = some .approved := hs
    rw [Store.status_purge] at hs'
    split at hs'
    · cases hs'
    · exact ht.2 hs'
  | _ => exact ht

/-- What a handler does, whole or in part, keeps a revocation, unless it is an approve's. -/
theorem Barred.kept {n : Nat} (hw : Barred c w) (hth : w.tasks k = some th) (hs : Membership.settle c w.store k th a = some o)
    (hrev : w.store.revocations p = true)
    (hno : ¬ ∃ r expires, k = .rumor r ∧ (c.rumor r).body = .admin .approve p expires) :
    (c.rules.run w.store (o.1.take n)).revocations p = true ∧
      ((c.rules.run w.store (o.1.take n)).status p = some .approved → w.store.status p = some .approved) := by
  have hkept : ∃ A B, (∀ e ∈ o.1.take n, Emits A B e ∨ (∃ gen eck, e = .installed gen eck ∨ e = .live gen eck)) ∧ ¬ A p := by
    rcases settle_cases hs with hg | ⟨r, g, full, eck, rfl, hpc, hb, hacc, rfl⟩
    · refine ⟨_, _, fun e he => .inl (hg.effects e (List.mem_of_mem_take he)), ?_⟩
      rintro (⟨r, x, hk, hb⟩ | ⟨hwatch, hadm⟩)
      · exact hno ⟨r, x, hk, hb⟩
      · obtain ⟨hn, hlt⟩ := hw.watches k th p hth hwatch hrev
        rcases hadm with ⟨role, rest, hpc⟩ | hlive
        · exact hn role rest hpc
        · rw [hw.coherent.stale hlt] at hlive
          cases hlive
    · refine ⟨fun _ => False, (· ∈ g.revoked), fun e he => ?_, id⟩
      have he := List.mem_of_mem_take he
      simp only [List.cons_append, List.mem_cons, List.mem_append, List.not_mem_nil, or_false] at he
      rcases he with rfl | he | rfl
      · exact .inr ⟨_, _, .inl rfl⟩
      · exact .inl (emits_seedRevocations e he)
      · exact .inr ⟨_, _, .inr rfl⟩
  obtain ⟨A, B, he, hA⟩ := hkept
  refine Rules.run_invariant (I := fun t : Store P R K => t.revocations p = true ∧
    (t.status p = some .approved → w.store.status p = some .approved)) (fun e hm t ht => ?_) ⟨hrev, id⟩
  rcases he e hm with hem | ⟨gen, eck, rfl | rfl⟩
  · have hk := kept_of_emits (c := c) (s := t) (p := p) (show ∀ e' ∈ [e], Emits _ _ e' by simpa using hem) hA
    exact ⟨hk.1 ht.1, fun hst => ht.2 (hk.2 hst)⟩
  · exact ht
  · exact ht

/-- **An organizer's revocation is final until an organizer's approve**: after
every timely run, an act that is no approve of `p` and no purge leaves a
revocation of `p` on record, and does not make the row of `p` approved. -/
theorem revocation_final {xs : List (Act P R K)} (hs : s.Coherent)
    (h : Run (fun w x w' => Step c w x w' ∧ Timely w c x) (.fresh s) xs w) (hrev : w.store.revocations p = true)
    (hx : Step c w x w') (hno : ¬ Lifts c p x) :
    w'.store.revocations p = true ∧ (w'.store.status p = some .approved → w.store.status p = some .approved) := by
  have hw : Barred c w := h.invariant (fun _ _ _ hw hx => hw.step hx.1 hx.2) (barred_fresh hs)
  cases x with
  | deliver r now =>
    obtain ⟨-, hnone, ⟨-, rfl⟩ | ⟨i, th, hi, hth, rfl⟩⟩ := of_deliver hx <;> exact ⟨hrev, id⟩
  | settle k a =>
    obtain ⟨o, ho, rfl⟩ := Option.map_eq_some_iff.mp hx
    obtain ⟨th, hth, hr, hset⟩ := of_outcome ho
    have hkept := hw.kept (n := o.1.length) hth hset hrev fun ⟨r, x, hk, hb⟩ => hno (.inl ⟨r, x, hb, .inl ⟨a, by rw [hk]⟩⟩)
    rwa [List.take_length] at hkept
  | sweep =>
    obtain ⟨i, -, hnone, rfl⟩ := of_sweep hx
    exact ⟨hrev, id⟩
  | crash =>
    cases hx
    exact ⟨hrev, id⟩
  | crashDuring k a n =>
    obtain ⟨o, ho, rfl⟩ := Option.map_eq_some_iff.mp hx
    obtain ⟨th, hth, hr, hset⟩ := of_outcome ho
    exact hw.kept hth hset hrev fun ⟨r, x, hk, hb⟩ => hno (.inl ⟨r, x, hb, .inr ⟨a, n, by rw [hk]⟩⟩)
  | restore =>
    obtain ⟨row, -, -, -, -, rfl⟩ := of_restore hx
    exact ⟨hrev, id⟩
  | detach =>
    cases hx
    exact ⟨hrev, id⟩
  | purgeEvent expire => exact absurd (.inr ⟨expire, rfl⟩) hno

/-- Member 1 joins with an invite, and is in the roster of the grant the
organizer makes before the revoke. -/
def Small.oneMember : Nat → Rumor Nat Nat
  | 1 => ⟨1, .grant ⟨1, [⟨1, 10⟩], []⟩⟩
  | 2 => ⟨2, .admin .revoke 1 1000⟩
  | _ => ⟨3, .join 1 true⟩

/-- A live event that member 1 was removed from. -/
def Small.barringStore : Store Nat Nat Nat := { Small.store with revocations := fun p => p = 1 }

theorem revocation_final_join :
    (acts (Small.setting Small.oneMember) (.fresh Small.barringStore) [.deliver 3 0, Small.goes 3 0]).map
      (·.store.revocations 1) = some true := by
  have h : (acts (Small.setting Small.oneMember) (.fresh Small.barringStore) [.deliver 3 0, Small.goes 3 0]).isSome := by
    decide +kernel
  obtain ⟨w₂, hw⟩ := Option.isSome_iff_exists.mp h
  rw [hw]
  obtain ⟨w₁, h₁, hw⟩ := Option.bind_eq_some_iff.mp hw
  obtain ⟨w₂, h₂, hw⟩ := Option.bind_eq_some_iff.mp hw
  cases hw
  have hcoh : Small.barringStore.Coherent := ⟨fun i hi => by cases hi; exact ⟨by decide, rfl⟩, fun row hrow _ => by cases hrow; rfl⟩
  have hrev : w₁.store.revocations 1 = true := by
    obtain ⟨-, -, ⟨-, rfl⟩ | ⟨i, th, -, -, rfl⟩⟩ := of_deliver h₁ <;> rfl
  have htimely : Timely (.fresh Small.barringStore) (Small.setting Small.oneMember) (.deliver 3 0) :=
    ⟨fun _ _ _ _ _ hx => (by cases hx), fun _ _ _ _ _ hx => (by cases hx)⟩
  have hno : ¬ Lifts (Small.setting Small.oneMember) 1 (Small.goes 3 0) := by
    rintro (⟨r, expires, hb, ⟨a, ha⟩ | ⟨a, n, ha⟩⟩ | ⟨expire, ha⟩)
    · cases ha
      cases hb
    · cases ha
    · cases ha
  exact congrArg some (revocation_final hcoh (.cons ⟨h₁, htimely⟩ .nil) hrev h₂ hno).1

/-- A handover has looked at the entry of member 1 when the revoke records
their revocation, and approves them after it. -/
theorem revocation_final_adoptedMember : ∃ (s : Store Nat Nat Nat) (xs : List (Act Nat Nat Nat)) (w w' : Coordinator Nat Nat Nat)
    (x : Act Nat Nat Nat), s.Coherent ∧ Run (Step (Small.setting Small.oneMember)) (.fresh s) xs w ∧
      w.store.revocations 1 = true ∧ Step (Small.setting Small.oneMember) w x w' ∧ ¬ Lifts (Small.setting Small.oneMember) 1 x ∧
      w.store.status 1 = none ∧ w'.store.status 1 = some .approved := by
  let s : Store Nat Nat Nat := { Small.store with event := none, highGen := 0, live := none, completedInstallGen := none }
  let xs : List (Act Nat Nat Nat) :=
    [.deliver 1 0, Small.goes 1 0, Small.goes 1 0,
      .settle (.rumor 1) { Small.yes 0 with roster := [(1, .attendee)] }, .deliver 2 0, Small.goes 2 20]
  have h : ((acts (Small.setting Small.oneMember) (.fresh s) xs).bind fun w =>
      (act (Small.setting Small.oneMember) w (Small.goes 1 0)).map fun w' =>
        (w.store.revocations 1, w.store.status 1, w'.store.status 1)) = some (true, none, some .approved) := by
    decide +kernel
  obtain ⟨w, hw, h⟩ := Option.bind_eq_some_iff.mp h
  obtain ⟨w', hx, h⟩ := Option.map_eq_some_iff.mp h
  simp only [Prod.mk.injEq] at h
  refine ⟨s, xs, w, w', Small.goes 1 0, ⟨nofun, nofun⟩, run_of_acts hw, h.1, hx, ?_, h.2.1, h.2.2⟩
  rintro (⟨r, expires, hb, ⟨a, ha⟩ | ⟨a, n, ha⟩⟩ | ⟨expire, ha⟩)
  · cases ha
    cases hb
  · cases ha
  · cases ha

end Nostrautica.Membership
