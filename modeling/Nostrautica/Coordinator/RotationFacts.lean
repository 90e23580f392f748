/-
A rotation excludes its member: what a revoke or a withdrawal of `p` mints is
in no grant built for `p` after, until an approve of `p`, or after a
withdrawal a join, admits them (`RotationsExclude`).

A handler builds a grant for the members it `Serves`. No handler comes to
serve a member whom a rotation excludes: that is the invariant (`Inv`), and
`Turn` is all that going on can do about it. Two handlers of different
members do not keep it between them, and a failed deletion leaves the member's
row approved; `Careful` is what has to be avoided.
-/
import Nostrautica.Coordinator.MembershipFacts
import Nostrautica.Transition.Latest

set_option linter.unusedSectionVars false

namespace Nostrautica.Membership

open Tasks

variable {P R K : Type*} [DecidableEq P] [LinearOrder R] [DecidableEq K] {c : Setting P R K}
  {w w' : Coordinator P R K} {s s' : Store P R K} {k : Task R} {r : R} {p q : P} {th th' : Thread P K} {a : Answer P K}
  {o : Outcome P R K} {x : Act P R K} {byOrganizer : Bool} {es : List (Effect P R K)} {e : Effect P R K}
  {todo : List P}

/-! ## Exclusions -/

/-- The version minted to exclude `p`. -/
def mintedFor (p : P) (byOrganizer : Bool) : Event P K → Option Nat
  | .minted q o n => if q = p ∧ o = byOrganizer then some n else none
  | _ => none

/-- An approve of `p` lifts an exclusion, and a join lifts a withdrawal's. -/
def lifts (p : P) (byOrganizer : Bool) : Event P K → Bool
  | .admitted q o => q = p && (o || !byOrganizer)
  | _ => false

/-- A rotation made for `p` stands. -/
def excluded (p : P) (byOrganizer : Bool) (history : List (Event P K)) : Bool :=
  (Latest.latest (mintedFor p byOrganizer) (fun _ => lifts p byOrganizer) history).isSome

/-- No grant built for a member since a rotation that excludes them has its
version or a later one. -/
def RotationsExclude (history : List (Event P K)) : Prop :=
  ∀ older newer p byOrganizer n, history = older ++ .minted p byOrganizer n :: newer →
    (∀ e ∈ newer, lifts p byOrganizer e = false) → ∀ eck, .built p eck ∈ newer → ∀ v ∈ eck, v.id < n

theorem excluded_append {history : List (Event P K)} {e : Event P K} :
    excluded p byOrganizer (history ++ [e]) =
      ((mintedFor p byOrganizer e).isSome || excluded p byOrganizer history && !lifts p byOrganizer e) := by
  unfold excluded
  rw [Latest.latest_append, Latest.next]
  cases mintedFor p byOrganizer e with
  | some n => rfl
  | none =>
    cases Latest.latest (mintedFor p byOrganizer) (fun _ => lifts p byOrganizer) history with
    | none => rfl
    | some n => cases lifts p byOrganizer e <;> simp [Option.filter]

/-- What a rotation excludes stays so while nothing lifts it. -/
theorem excluded_of_minted {older newer : List (Event P K)} {n : Nat} (h : ∀ e ∈ newer, lifts p byOrganizer e = false) :
    excluded p byOrganizer (older ++ .minted p byOrganizer n :: newer) = true := by
  induction newer using List.reverseRecOn with
  | nil => simp [excluded_append, mintedFor]
  | append_singleton newer e ih =>
    rw [← List.cons_append, ← List.append_assoc, excluded_append, ih fun d hd => h d (by simp [hd]), h e (by simp)]
    simp

/-- No grant is built for a member while a rotation excludes them. -/
def Clean (history : List (Event P K)) : Prop :=
  ∀ older newer p eck, history = older ++ .built p eck :: newer → ∀ byOrganizer, excluded p byOrganizer older = false

theorem clean_nil : Clean ([] : List (Event P K)) := by
  intro older newer p eck h
  simp at h

theorem Clean.append {history : List (Event P K)} {e : Event P K} (h : Clean history)
    (he : ∀ p eck, e = .built p eck → ∀ byOrganizer, excluded p byOrganizer history = false) : Clean (history ++ [e]) := by
  intro older newer p eck heq
  rcases List.eq_nil_or_concat newer with rfl | ⟨newer, d, rfl⟩
  · obtain ⟨rfl, hed⟩ := List.append_inj' heq rfl
    cases hed
    exact he p eck rfl
  · rw [List.concat_eq_append, ← List.cons_append, ← List.append_assoc] at heq
    obtain ⟨rfl, -⟩ := List.append_inj' heq rfl
    exact h older newer p eck rfl

theorem Clean.rotationsExclude {history : List (Event P K)} (h : Clean history) : RotationsExclude history := by
  rintro older newer p byOrganizer n rfl hl eck hb
  obtain ⟨before, after, rfl⟩ := List.append_of_mem hb
  have hno := h (older ++ .minted p byOrganizer n :: before) after p eck (by simp) byOrganizer
  rw [excluded_of_minted fun e he => hl e (by simp [he])] at hno
  cases hno

/-! ## Whom a handler serves -/

/-- A loop has `p` before it: its grant is not built yet. -/
def ToServe (th : Thread P K) (p : P) : Prop :=
  match th.pc with
  | .serving .proving q todo => p = q ∨ p ∈ todo
  | .serving _ _ todo => p ∈ todo
  | _ => False

/-- A handler has a grant for `p` to build. -/
def Serves (c : Setting P R K) (k : Task R) (th : Thread P K) (p : P) : Prop :=
  ToServe th p ∨ th.pc = .proving ∧ ∃ r, k = .rumor r ∧ (c.rumor r).body.grantee = some p

/-- The members a loop serves that a handler enters when it goes on: all who
are approved then. -/
def entered (c : Setting P R K) (s : Store P R K) (k : Task R) (th : Thread P K) (a : Answer P K) : List P :=
  match k, th.pc with
  | .rumor r, .deleting =>
    if a.ok then
      match (c.rumor r).body.removed with
      | some p => (s.apply (.upsertAttendee p (some .revoked) none a.now)).approvedAttendees
      | none => []
    else []
  | .rumor _, .rostering => if (nextAdopted s a.roster).isNone then s.approvedAttendees else []
  | .rumor _, .adopting p role rest =>
    let s' := s.apply (.upsertAttendee p (some .approved) (some role) a.now)
    if (nextAdopted s' rest).isNone then s'.approvedAttendees else []
  | .reissue _, .linking => s.approvedAttendees
  | _, _ => []

/-- A join of `p` that finds `p` approved grants again. -/
def Regrants (c : Setting P R K) (s : Store P R K) (k : Task R) (th : Thread P K) (p : P) : Prop :=
  ∃ r entitled, k = .rumor r ∧ th.pc = .queued ∧ (c.rumor r).body = .join p entitled ∧ s.status p = some .approved

/-- The rotation a handler makes when it starts: whom it excludes, and whether
for the organizer. -/
def mints (c : Setting P R K) (s : Store P R K) (k : Task R) (th : Thread P K) : Option (P × Bool) :=
  match k, th.pc with
  | .rumor r, .queued =>
    match (c.rumor r).body with
    | .admin .revoke p _ => if c.named p && new p r then some (p, true) else none
    | .withdrawal p _ => if s.status p = some .approved && new p r then some (p, false) else none
    | _ => none
  | _, _ => none
where
  new (p : P) (r : R) : Bool :=
    beginsOperation s p th.createdAt r && (Store.begunOp th.createdAt r (s.watermarks p)).eckRotation.isNone &&
      !(s.eck th.state).isEmpty

/-! ## Turns -/

/-- An effect that leaves every exclusion as it is, and builds grants for
members in `M` only. -/
def Mild (M : P → Prop) : Effect P R K → Prop
  | .clearRevocation _ => False
  | .happened (.built p _) => M p
  | .happened (.minted ..) => False
  | .happened (.admitted ..) => False
  | _ => True

/-- Mild effects, and a handler that then serves members in `M` only. -/
structure Mildly (c : Setting P R K) (k : Task R) (M : P → Prop) (o : Outcome P R K) : Prop where
  effects : ∀ e ∈ o.1, Mild M e
  next : ∀ th' ∈ o.2, ∀ p, Serves c k th' p → M p

/-- An await point from which no grant is built. -/
def Pc.idle : Pc P K → Bool
  | .proving => false
  | .serving .. => false
  | _ => true

variable {M : P → Prop} {pc : Pc P K}

theorem not_serves_of_idle (h : th.pc.idle = true) : ¬ Serves c k th p := by
  rintro (ht | ⟨hp, -⟩)
  · unfold ToServe at ht
    split at ht
    next hpc =>
      rw [hpc] at h
      cases h
    next hpc =>
      rw [hpc] at h
      cases h
    · exact ht
  · rw [hp] at h
    cases h

theorem mildly_idle (he : ∀ e ∈ es, Mild M e) (hpc : pc.idle = true) : Mildly c k M (es, th.goto pc) :=
  ⟨he, by
    rintro th' hth' p hp
    cases hth'
    exact absurd hp (not_serves_of_idle hpc)⟩

theorem mildly_skip (hpc : pc.idle = true) : Mildly c k M (th.skip pc) := mildly_idle (by simp) hpc

theorem mildly_end (he : ∀ e ∈ es, Mild M e) : Mildly c k M (es, none) := ⟨he, by simp⟩

theorem mildly_after {f : Store P R K → Outcome P R K} (he : ∀ e ∈ es, Mild M e) (hf : ∀ s, Mildly c k M (f s)) :
    Mildly c k M (after s es f) := by
  rw [after_eq (c := c)]
  refine ⟨fun e hm => ?_, (hf _).next⟩
  rcases List.mem_append.mp hm with hm | hm
  · exact he e hm
  · exact (hf _).effects e hm

theorem Mildly.cons (h : Mildly c k M o) (he : Mild M e) : Mildly c k M (e :: o.1, o.2) :=
  ⟨by simpa using ⟨he, h.effects⟩, h.next⟩

/-- A loop serves the members it has before it. -/
theorem mildly_serve (h : ∀ p ∈ todo, M p) : Mildly c k M (serve s k th todo) := by
  cases todo with
  | nil =>
    cases k with
    | reissue gen => exact mildly_end (by simp [Mild])
    | _ => exact mildly_skip rfl
  | cons p todo =>
    cases k with
    | reissue gen =>
      refine ⟨by simpa [serve, Mild] using h p (.head _), fun th' hth' q hq => ?_⟩
      cases hth'
      rcases hq with hq | ⟨hpc, -⟩
      · exact h q (.tail _ hq)
      · cases hpc
    | _ =>
      refine ⟨by simp [serve, Thread.skip], fun th' hth' q hq => ?_⟩
      cases hth'
      rcases hq with hq | ⟨hpc, -⟩
      · exact h q (List.mem_cons.mpr hq)
      · cases hpc

theorem mildly_loop {stage : LoopStage K} {failed : Outcome P R K} (hpc : th.pc = .serving stage p todo)
    (h : ∀ q, ToServe th q → M q) (hf : Mildly c k M failed) : Mildly c k M (loop c s k th failed a p todo stage) := by
  have htodo : ∀ q ∈ todo, M q := by
    intro q hq
    refine h q ?_
    rw [ToServe, hpc]
    cases stage <;> simp [hq]
  have hnext : ∀ (th' : Thread P K) stage' , th'.pc = .serving stage' p todo → stage' ≠ .proving →
      ∀ q, Serves c k th' q → M q := by
    rintro th' stage' hpc' hne q (hq | ⟨hp, -⟩)
    · rw [ToServe, hpc'] at hq
      cases stage' with
      | proving => exact absurd rfl hne
      | _ => exact htodo q hq
    · rw [hpc'] at hp
      cases hp
  cases stage with
  | proving =>
    have hp : M p := h p (by rw [ToServe, hpc]; exact .inl rfl)
    refine ⟨by simpa [loop, Mild] using hp, fun th' hth' => ?_⟩
    cases hth'
    exact hnext _ _ rfl nofun
  | granting eck =>
    simp only [loop]
    split
    · split
      · split
        · refine ⟨by simp [Mild], fun th' hth' => ?_⟩
          cases hth'
          exact hnext _ _ rfl nofun
        · exact mildly_after (by simp [Mild]) fun s => mildly_serve htodo
      · refine ⟨by simp [Mild], fun th' hth' => ?_⟩
        cases hth'
        exact hnext _ _ rfl nofun
    · exact hf
  | publishing =>
    simp only [loop]
    split
    · exact mildly_serve htodo
    · exact hf

/-- The members for whom a handler may build a grant when it goes on, or come
to have one to build. -/
def May (c : Setting P R K) (s : Store P R K) (k : Task R) (th : Thread P K) (a : Answer P K) (p : P) : Prop :=
  Serves c k th p ∨ p ∈ entered c s k th a ∨ Regrants c s k th p ∧ s.revocations p = false

/-- What going on does about exclusions. -/
inductive Turn (c : Setting P R K) (s : Store P R K) (k : Task R) (th : Thread P K) (a : Answer P K) :
    Outcome P R K → Prop
  | mildly {o : Outcome P R K} (h : Mildly c k (May c s k th a) o) : Turn c s k th a o
  /-- A rotation: the revocation is on record before it. -/
  | rotated {p byOrganizer n pre post} {pc : Pc P K} (hm : mints c s k th = some (p, byOrganizer))
      (hpre : ∀ e ∈ pre, Mild (fun _ => False) e) (ho : byOrganizer = true → .recordRevocation p ∈ pre)
      (hpost : ∀ e ∈ post, Mild (fun _ => False) e) (hpc : pc.idle = true) :
      Turn c s k th a (pre ++ .happened (.minted p byOrganizer n) :: post, th.goto pc)
  /-- An approve. -/
  | approved {p : P} {pre post : List (Effect P R K)} {next : Option (Thread P K)} (hpre : ∀ e ∈ pre, Mild (fun _ => False) e) (hpost : ∀ e ∈ post, Mild (fun _ => False) e)
      (hn : ∀ th' ∈ next, ∀ q, Serves c k th' q → q = p) : Turn c s k th a (pre ++ .clearRevocation p :: post, next)
  /-- A join that is admitted. -/
  | joined {p : P} {pre : List (Effect P R K)} {next : Option (Thread P K)} (hpre : ∀ e ∈ pre, Mild (fun _ => False) e)
      (hn : ∀ th' ∈ next, ∀ q, Serves c k th' q → q = p ∧ (c.rules.run s pre).revocations p = false) :
      Turn c s k th a (pre ++ [.happened (.admitted p false)], next)

theorem mildly_completed : Mildly c k M (completed p r th) := mildly_idle (by simp [Mild]) rfl

theorem mildly_withdrawn {deleteData : Bool} : Mildly c k M (withdrawn s p r th deleteData) := by
  unfold withdrawn
  split
  · split
    · exact mildly_skip rfl
    · exact mildly_after (by simp [Mild]) fun _ => mildly_completed
  · exact mildly_completed

theorem mildly_finish {body : Body P K} : Mildly c k M (finish s r th body) := by
  cases body with
  | admin => exact mildly_completed
  | withdrawal => exact mildly_withdrawn
  | _ => exact mildly_skip rfl

theorem mildly_installDone : Mildly c k M (installDone s k th) := by
  cases k with
  | rumor r => exact mildly_idle (by simp [Mild]) rfl
  | _ => exact mildly_end (by simp [Mild])

theorem mildly_seedRevocations {revoked : List P} {now : Nat} : ∀ e ∈ seedRevocations s revoked now, Mild M e := by
  intro e he
  simp only [seedRevocations, List.mem_flatMap, List.mem_eraseDups] at he
  obtain ⟨p, -, he⟩ := he
  split at he
  · simp only [List.mem_cons, List.not_mem_nil, or_false] at he
    rcases he with rfl | rfl <;> trivial
  · cases List.mem_singleton.mp he
    trivial

theorem mildly_installEvent {g : Grant P K} {full : Bool} : Mildly c k M (installEvent c s th g full a) := by
  unfold installEvent
  split
  · exact mildly_skip rfl
  · split
    · exact mildly_skip rfl
    · split
      · exact mildly_skip rfl
      · split
        · exact mildly_skip rfl
        · exact mildly_skip rfl
        · refine ⟨fun e he => ?_, fun th' hth' p hp => ?_⟩
          · rcases List.mem_append.mp he with he | he
            · rcases List.mem_cons.mp he with rfl | he
              · trivial
              · exact mildly_seedRevocations e he
            · cases List.mem_singleton.mp he
              trivial
          · cases hth'
            exact absurd hp (not_serves_of_idle rfl)

theorem mildly_bootstrap {roster : List (P × Role)}
    (h : (nextAdopted s roster).isNone → ∀ p ∈ s.approvedAttendees, M p) : Mildly c k M (bootstrap s k th roster) := by
  unfold bootstrap
  split
  · exact mildly_skip rfl
  next hn => exact mildly_serve (h (by simp [hn]))

theorem mildly_enroll {entitled : Bool} : Mildly c k M (enroll s p th entitled a) := by
  simp only [enroll]
  split
  · exact mildly_skip rfl
  · refine mildly_after (fun e he => ?_) fun s => ?_
    · split at he
      · obtain ⟨q, -, rfl⟩ := List.mem_map.mp he
        trivial
      · cases he
    · split
      · exact mildly_skip rfl
      · refine mildly_idle (fun e he => ?_) rfl
        split at he
        · cases he
        · cases List.mem_singleton.mp he
          trivial

theorem mildly_dispatch {i createdAt now : Nat} {body : Body P K} : Mildly c k M ([], dispatch s i createdAt now body) := by
  refine ⟨by simp, fun th' hth' p hp => absurd hp (not_serves_of_idle ?_)⟩
  rcases dispatch_pc hth' with hpc | hpc | ⟨g, full, -, hpc⟩ <;> rw [hpc] <;> rfl

/-- A grant's handler comes to serve its member, who is not revoked. -/
theorem serves_grantAndPublish {done : Outcome P R K} {body : Body P K} (hb : (c.rumor r).body = body)
    (hg : body.grantee = some p) (hd : ∀ th' ∈ done.2, ∀ q, ¬ Serves c (.rumor r) th' q)
    (h : th' ∈ (grantAndPublish s p th done).2) (hq : Serves c (.rumor r) th' q) : q = p ∧ s.revocations p = false := by
  unfold grantAndPublish at h
  split at h
  · exact absurd hq (hd th' h q)
  next hrev =>
    refine ⟨?_, by simpa using hrev⟩
    cases h
    rcases hq with hq | ⟨-, r', hk, hg'⟩
    · exact hq.elim
    · cases hk
      rw [hb, hg] at hg'
      exact (Option.some.inj hg').symm

theorem canonicalEck_nil {fingerprint : K → Nat} : canonicalEck fingerprint [] = none := rfl

/-- Revoking rotates once, and the revocation is on record before. -/
theorem turn_rotate (es : List (Effect P R K)) (hes : ∀ e ∈ es, Mild (fun _ => False) e)
    (hrot : s.eckRotation p = none → s.eck th.state ≠ [] → mints c s' k th = some (p, byOrganizer))
    (ho : byOrganizer = true → .recordRevocation p ∈ es) :
    Turn c s' k th a (es ++ (rotate c s p r th byOrganizer a).1, (rotate c s p r th byOrganizer a).2) := by
  unfold rotate
  have hmild : ∀ {M : P → Prop}, ∀ e ∈ es, Mild M e := by
    intro M e he
    have hm := hes e he
    unfold Mild at hm ⊢
    split at hm <;> first | exact hm.elim | trivial
  split
  · refine .mildly (mildly_idle ?_ rfl)
    simpa [Thread.skip] using hmild
  next prev hprev =>
    split
    next rot hr =>
      split
      · refine .mildly (mildly_idle ?_ rfl)
        simpa [Thread.skip] using hmild
      · refine .mildly (mildly_idle (fun e he => ?_) rfl)
        rcases List.mem_append.mp he with he | he
        · exact hmild e he
        · cases List.mem_singleton.mp he
          trivial
    next hr =>
      have hne : s.eck th.state ≠ [] := by
        intro hnil
        rw [hnil, canonicalEck_nil] at hprev
        cases hprev
      dsimp only
      rw [show ∀ (x y z : Effect P R K), es ++ [x, y, z] = (es ++ [x]) ++ y :: [z] by simp]
      refine .rotated (hrot hr hne) ?_ (fun h => ?_) ?_ rfl
      · simpa [or_imp, forall_and, Mild] using hes
      · simp [ho h]
      · simp [Mild]

theorem turn_revokeAttendee {done : Outcome P R K} (hd : ∀ {M}, Mildly c k M done)
    (hrot : s.eckRotation p = none → s.eck th.state ≠ [] → mints c s' k th = some (p, byOrganizer)) :
    Turn c s' k th a (.beginCommandOp p th.createdAt r :: (revokeAttendee c s p r th byOrganizer a done).1,
      (revokeAttendee c s p r th byOrganizer a done).2) := by
  unfold revokeAttendee
  split
  · exact .mildly (hd.cons trivial)
  · rw [after_eq (c := c)]
    cases byOrganizer with
    | true =>
      exact turn_rotate [.beginCommandOp p th.createdAt r, .recordRevocation p] (by simp [Mild])
        hrot (by simp)
    | false =>
      exact turn_rotate [.beginCommandOp p th.createdAt r] (by simp [Mild]) hrot (by simp)

/-- An admitted member is served next, and nobody else. -/
theorem turn_admit {es : List (Effect P R K)} (pre : List (Effect P R K)) {x : Nat} (hb : (c.rumor r).body = .admin .approve p x)
    (hpre : ∀ e ∈ pre, Mild (fun _ => False) e) (hes : ∀ e ∈ es, Mild (fun _ => False) e) :
    Turn c s' (.rumor r) th a (pre ++ (admitMember s p r th es).1, (admitMember s p r th es).2) := by
  simp only [admitMember, after_eq (c := c), List.cons_append]
  have hd : ∀ th' ∈ (completed p r th : Outcome P R K).2, ∀ q, ¬ Serves c (.rumor r) th' q := by
    intro th' hth' q
    cases hth'
    exact not_serves_of_idle rfl
  refine .approved hpre (fun e he => ?_) fun th' hth' q hq => (serves_grantAndPublish hb rfl hd hth' hq).1
  rcases List.mem_append.mp he with he | he
  · exact hes e he
  · unfold grantAndPublish at he
    split at he
    · exact mildly_completed (c := c) (k := Task.rumor r) |>.effects e he
    · cases he

theorem turn_ordered {f : Store P R K → Outcome P R K}
    (hf : beginsOperation s p th.createdAt r = true → ∀ s', s' = s.apply (.beginCommandOp p th.createdAt r) →
      Turn c s k th a (.beginCommandOp p th.createdAt r :: (f s').1, (f s').2)) :
    Turn c s k th a (ordered s p r th f) := by
  unfold ordered
  split
  next hb => exact hf hb _ rfl
  · exact .mildly (mildly_skip rfl)

/-- The rotation recorded for a member, once an operation has begun. -/
theorem eckRotation_begun {createdAt : Nat} : (s.apply (.beginCommandOp p createdAt r)).eckRotation p =
    (Store.begunOp createdAt r (s.watermarks p)).eckRotation := by
  simp [Store.eckRotation, Store.apply]

theorem turn_handleAdmin {cmd : AdminCommand} {x : Nat} (hb : (c.rumor r).body = .admin cmd p x) (hpc : th.pc = .queued) :
    Turn c s (.rumor r) th a (handleAdmin c s cmd p r th a) := by
  refine turn_ordered fun hrun s' hs' => ?_
  cases cmd with
  | approve =>
    simp only [approve]
    split
    · exact .mildly (Mildly.cons (mildly_skip rfl) trivial)
    · split
      · exact turn_admit [_] hb (by simp [Mild]) (by simp)
      · exact .mildly (Mildly.cons (mildly_skip rfl) trivial)
      · split
        · exact .mildly (Mildly.cons mildly_completed trivial)
        · split
          · exact .mildly (Mildly.cons (mildly_skip rfl) trivial)
          · exact .mildly (Mildly.cons (mildly_idle (by simp [Mild]) rfl) trivial)
  | reprocess => exact .mildly (Mildly.cons (mildly_skip rfl) trivial)
  | revoke =>
    dsimp only
    split
    next hn =>
      refine turn_revokeAttendee mildly_completed fun hrot heck => ?_
      subst hs'
      rw [eckRotation_begun] at hrot
      have heck' : s.eck th.state ≠ [] := heck
      simp [mints, mints.new, hpc, hb, hn, hrun, hrot, heck']
    · exact .mildly (Mildly.cons mildly_completed trivial)

theorem turn_handleWithdrawal {deleteData : Bool} (hb : (c.rumor r).body = .withdrawal p deleteData) (hpc : th.pc = .queued) :
    Turn c s (.rumor r) th a (ordered s p r th fun s => handleWithdrawal c s p r th deleteData a) := by
  refine turn_ordered fun hrun s' hs' => ?_
  simp only [handleWithdrawal]
  split
  · exact .mildly (Mildly.cons mildly_completed trivial)
  next status hst =>
    split
    next hrotating =>
      refine turn_revokeAttendee mildly_withdrawn fun hrot heck => ?_
      subst hs'
      have heck' : s.eck th.state ≠ [] := heck
      have hstatus : s.status p = some .approved := by
        rw [hrot] at hrotating
        simp only [Option.isSome_none, Bool.or_false, decide_eq_true_eq] at hrotating
        rw [← hrotating]
        exact hst
      rw [eckRotation_begun] at hrot
      simp [mints, mints.new, hpc, hb, hrun, hrot, heck', hstatus]
    · split
      · exact .mildly (Mildly.cons (mildly_after (by simp [Mild]) fun _ => mildly_withdrawn) trivial)
      · exact .mildly (Mildly.cons mildly_withdrawn trivial)

theorem turn_decideJoin {queueFull granted entitled : Bool} (hb : (c.rumor r).body = .join p entitled) :
    Turn c s (.rumor r) th a (decideJoin s p th queueFull granted a) := by
  unfold decideJoin
  split
  · rw [after_eq (c := c)]
    have hd : ∀ th' ∈ (th.skip .returned : Outcome P R K).2, ∀ q, ¬ Serves c (.rumor r) th' q := by
      intro th' hth' q
      cases hth'
      exact not_serves_of_idle rfl
    have hes : ∀ {s : Store P R K}, (grantAndPublish s p th (th.skip .returned)).1 = [] := by
      intro s
      unfold grantAndPublish
      split <;> rfl
    rw [hes, List.append_nil]
    refine .joined (show ∀ e ∈ [Effect.upsertAttendee p (some .approved) none a.now], Mild _ e by simp [Mild]) fun th' hth' q hq => ?_
    exact serves_grantAndPublish hb rfl hd hth' hq
  · split
    · exact .mildly (mildly_skip rfl)
    · exact .mildly (mildly_idle (by simp [Mild]) rfl)

theorem turn_joinChecked {existing : Option Status} {queueFull manual entitled : Bool}
    (hb : (c.rumor r).body = .join p entitled) :
    Turn c s (.rumor r) th a (joinChecked s p th existing queueFull manual a) := by
  simp only [joinChecked]
  split
  · exact .mildly (mildly_skip rfl)
  · split
    · split
      · exact .mildly (mildly_skip rfl)
      · split
        · exact .mildly (mildly_skip rfl)
        · exact turn_decideJoin hb
    · split
      · exact .mildly (mildly_skip rfl)
      · split
        · refine .mildly (mildly_idle (fun e he => ?_) rfl)
          split at he
          · cases List.mem_singleton.mp he
            trivial
          · cases he
        · exact turn_decideJoin hb

theorem turn_handleJoin {entitled : Bool} (hb : (c.rumor r).body = .join p entitled) (hpc : th.pc = .queued) :
    Turn c s (.rumor r) th a (handleJoin s p r th entitled a) := by
  simp only [handleJoin]
  split
  · exact .mildly (mildly_skip rfl)
  next hrev =>
    split
    next hst =>
      have hd : ∀ th' ∈ (th.skip .returned : Outcome P R K).2, ∀ q, ¬ Serves c (.rumor r) th' q := by
        intro th' hth' q
        cases hth'
        exact not_serves_of_idle rfl
      refine .mildly ⟨fun e he => ?_, fun th' hth' q hq => ?_⟩
      · unfold grantAndPublish at he
        split at he <;> cases he
      · obtain ⟨rfl, hq⟩ := serves_grantAndPublish hb rfl hd hth' hq
        exact .inr (.inr ⟨⟨r, entitled, rfl, hpc, hb, hst⟩, hq⟩)
    · exact .mildly mildly_enroll
    · split
      · exact .mildly (mildly_skip rfl)
      · exact .mildly mildly_enroll

theorem turn_start {body : Body P K} (hb : (c.rumor r).body = body) (hpc : th.pc = .queued)
    (h : start c s r th a body = some o) : Turn c s (.rumor r) th a o := by
  cases body <;> simp only [start, Option.some.injEq] at h
  case admin cmd p x =>
    subst h
    exact turn_handleAdmin hb hpc
  case withdrawal p deleteData =>
    subst h
    exact turn_handleWithdrawal hb hpc
  case join p entitled =>
    subst h
    exact turn_handleJoin hb hpc
  case grant => cases h
  all_goals
    subst h
    split
    · first | exact .mildly (mildly_skip rfl) | exact .mildly (mildly_idle (by simp [Mild]) rfl)
    · first
        | exact .mildly (mildly_skip rfl)
        | (refine .mildly (mildly_idle (by simp [Mild]) ?_)
           split <;> rfl)

/-- **Going on from an await point is a turn.** -/
theorem turn_settle (h : settle c s k th a = some o) : Turn c s k th a o := by
  cases k with
  | rumor r =>
    have hserve : ∀ {stage q todo}, th.pc = .serving stage q todo →
        ∀ p, ToServe th p → May c s (.rumor r) th a p := fun _ p hp => .inl (.inl hp)
    cases hpc : th.pc <;> simp only [settle, resume, hpc, Option.some.injEq] at h
    case queued => exact turn_start rfl hpc h
    case sleeping =>
      subst h
      refine .mildly ?_
      split
      · exact mildly_dispatch
      · exact mildly_end (by simp)
    case returned =>
      subst h
      exact .mildly (mildly_end (by simp [Mild]))
    case admitting =>
      split at h
      next p x hb =>
        cases h
        simp only [approveAdmitted]
        split
        · exact turn_admit [] hb (by simp) (by simp [Mild])
        · exact .mildly (mildly_skip rfl)
      · cases h
    case entitling =>
      split at h
      next hb =>
        cases h
        exact turn_joinChecked hb
      · cases h
    case proving =>
      obtain ⟨p, hp, rfl⟩ := Option.map_eq_some_iff.mp h
      refine .mildly ?_
      unfold grantProved
      split
      · refine mildly_idle (fun e he => ?_) rfl
        cases List.mem_singleton.mp he
        exact .inl (.inr ⟨hpc, r, rfl, hp⟩)
      · exact mildly_finish
    case granting eck =>
      obtain ⟨p, -, rfl⟩ := Option.map_eq_some_iff.mp h
      refine .mildly ?_
      split
      · exact mildly_idle (by simp [Mild]) rfl
      · exact mildly_skip rfl
    case publishing =>
      subst h
      refine .mildly ?_
      split
      · exact mildly_finish
      · exact mildly_skip rfl
    case deleting =>
      obtain ⟨p, hp, rfl⟩ := Option.map_eq_some_iff.mp h
      refine .mildly ?_
      unfold deletionPublished
      split
      next hok =>
        rw [after_eq (c := c)]
        have hs : ∀ q ∈ (s.apply (.upsertAttendee p (some .revoked) none a.now)).approvedAttendees,
            May c s (.rumor r) th a q := by
          intro q hq
          refine .inr (.inl ?_)
          simpa [entered, hpc, hok, hp] using hq
        exact (mildly_serve hs).cons trivial
      · exact mildly_skip rfl
    case serving stage p todo =>
      refine .mildly ?_
      split at h <;> cases h
      · exact mildly_loop hpc (hserve hpc) mildly_installDone
      · exact mildly_loop hpc (hserve hpc) (mildly_skip rfl)
    case closing =>
      refine .mildly ?_
      split at h <;> cases h
      · exact mildly_installDone
      · split
        · exact mildly_finish
        · exact mildly_skip rfl
    case configuring full =>
      split at h
      · cases h
        exact .mildly mildly_installEvent
      · cases h
    case installing full =>
      subst h
      refine .mildly ?_
      split
      · exact mildly_skip rfl
      · split
        · exact mildly_skip rfl
        · exact mildly_installDone
    case rostering =>
      subst h
      refine .mildly ?_
      split
      · refine mildly_bootstrap fun hn p hp => .inr (.inl ?_)
        simpa [entered, hpc, hn] using hp
      · exact mildly_installDone
    case adopting p role rest =>
      subst h
      refine .mildly ?_
      rw [after_eq (c := c)]
      refine (mildly_bootstrap fun hn q hq => .inr (.inl ?_)).cons trivial
      have hn' : (nextAdopted (s.apply (.upsertAttendee p (some .approved) (some role) a.now)) rest).isNone := hn
      simp only [entered, hpc]
      rw [if_pos hn']
      exact hq
    case linking => cases h
  | reissue gen =>
    cases hpc : th.pc <;> simp only [settle, hpc, Option.some.injEq, reduceCtorEq] at h
    case linking =>
      subst h
      refine .mildly ?_
      split
      · refine mildly_serve fun p hp => .inr (.inl ?_)
        simpa [entered, hpc] using hp
      · exact mildly_end (by simp)
    case serving stage p todo =>
      subst h
      exact .mildly (mildly_loop hpc (fun p hp => .inl (.inl hp)) (mildly_end (by simp)))
  | restore =>
    simp only [settle, Option.some.injEq] at h
    subst h
    refine .mildly ?_
    split
    · exact mildly_installDone
    · exact mildly_end (by simp)

/-! ## The invariant -/

/-- No handler has a grant to build for a member whom a rotation excludes, and
an organizer's rotation has its revocation on record. -/
structure Excluding (c : Setting P R K) (w : Coordinator P R K) : Prop where
  owned : c.rules.Owned w
  recorded : ∀ p, excluded p true w.store.history = true → w.store.revocations p = true
  unserved : ∀ k th p byOrganizer, w.tasks k = some th → Serves c k th p → excluded p byOrganizer w.store.history = false
  clean : Clean w.store.history

/-- What keeps a rotation's exclusion: no other handler's loop has its member
before it when it is made; no loop begins over approved members of whom one is
excluded; and no join finds its member approved who is excluded. The tables
are not purged, and the process does not end in the midst of a handler. -/
structure Careful (w : Coordinator P R K) (c : Setting P R K) (x : Act P R K) : Prop where
  rotates : ∀ k a th p byOrganizer, x = .settle k a → w.tasks k = some th →
    mints c w.store k th = some (p, byOrganizer) → ∀ j th', w.tasks j = some th' → ¬ ToServe th' p
  enters : ∀ k a th p byOrganizer, x = .settle k a → w.tasks k = some th → p ∈ entered c w.store k th a →
    excluded p byOrganizer w.store.history = false
  regrants : ∀ k a th p, x = .settle k a → w.tasks k = some th → Regrants c w.store k th p →
    excluded p false w.store.history = false
  whole : ∀ k a n, x ≠ .crashDuring k a n
  kept : ∀ expire, x ≠ .purgeEvent expire

theorem careful_deliver {now : Nat} : Careful w c (.deliver r now) where
  rotates _ _ _ _ _ h := by cases h
  enters _ _ _ _ _ h := by cases h
  regrants _ _ _ _ h := by cases h
  whole _ _ _ h := by cases h
  kept _ h := by cases h

/-- What mild effects leave as it was. -/
theorem mild_effect (he : Mild M e) :
    (∀ p byOrganizer, excluded p byOrganizer (s.apply e).history = excluded p byOrganizer s.history) ∧
      (∀ p, s.revocations p = true → (s.apply e).revocations p = true) ∧
      ((∀ p byOrganizer, M p → excluded p byOrganizer s.history = false) → Clean s.history → Clean (s.apply e).history) := by
  cases e with
  | happened ev =>
    cases ev with
    | built p eck =>
      refine ⟨fun q o => ?_, fun q hq => hq, fun hM hc => hc.append fun q eck' heq o => ?_⟩
      · simp [Store.apply, excluded_append, mintedFor, lifts]
      · cases heq
        exact hM p o he
    | published p eck =>
      refine ⟨fun q o => ?_, fun q hq => hq, fun _ hc => hc.append fun _ _ h => by cases h⟩
      simp [Store.apply, excluded_append, mintedFor, lifts]
    | minted => exact he.elim
    | admitted => exact he.elim
  | clearRevocation => exact he.elim
  | recordRevocation p =>
    refine ⟨fun q o => rfl, fun q hq => ?_, fun _ hc => hc⟩
    by_cases hpq : q = p
    · simp [Store.apply, hpq]
    · simpa [Store.apply, Function.update_of_ne hpq] using hq
  | _ => exact ⟨fun q o => rfl, fun q hq => hq, fun _ hc => hc⟩

theorem mild_run (he : ∀ e ∈ es, Mild M e) :
    (∀ p byOrganizer, excluded p byOrganizer (c.rules.run s es).history = excluded p byOrganizer s.history) ∧
      (∀ p, s.revocations p = true → (c.rules.run s es).revocations p = true) ∧
      ((∀ p byOrganizer, M p → excluded p byOrganizer s.history = false) → Clean s.history →
        Clean (c.rules.run s es).history) := by
  induction es generalizing s with
  | nil => exact ⟨fun _ _ => rfl, fun _ h => h, fun _ h => h⟩
  | cons e es ih =>
    obtain ⟨h1, h2, h3⟩ := mild_effect (s := s) (he e (.head _))
    obtain ⟨g1, g2, g3⟩ := ih (s := s.apply e) fun e' he' => he e' (.tail _ he')
    refine ⟨fun p o => (g1 p o).trans (h1 p o), fun p hp => g2 p (h2 p hp), fun hM hc => g3 (fun p o hp => ?_) (h3 hM hc)⟩
    rw [h1]
    exact hM p o hp

/-- After mild effects, what serves members that no rotation excludes keeps the invariant. -/
theorem Excluding.mildly (hw : Excluding c w) (hth : w.tasks k = some th) (hr : c.rules.ready w k th = true)
    (hs : settle c w.store k th a = some o) (h : Mildly c k M o)
    (hM : ∀ p byOrganizer, M p → excluded p byOrganizer w.store.history = false) :
    Excluding c (c.rules.advance w k o.1 o.2) := by
  obtain ⟨h1, h2, h3⟩ := mild_run (c := c) (s := w.store) h.effects
  refine ⟨hw.owned.advance hth hr fun l hl => held_next hs hl, fun p hp => ?_, fun j th' p b hj hserves => ?_, h3 hM hw.clean⟩
  · rw [Rules.advance_store] at hp ⊢
    rw [h1] at hp
    exact h2 p (hw.recorded p hp)
  · rw [Rules.advance_store, h1]
    rw [Rules.advance_tasks] at hj
    split at hj
    next hjk =>
      subst hjk
      exact hM p b (h.next th' hj p hserves)
    · exact hw.unserved j th' p b hj hserves

/-- The member a grant's handler serves holds the lock. -/
theorem held_of_proving (hpc : th.pc = .proving) (hg : (c.rumor r).body.grantee = some p) :
    c.rules.held (.rumor r) th = some p := by
  have hsub : (c.rumor r).body.subject = some p := by
    cases hb : (c.rumor r).body <;> rw [hb] at hg <;> simp_all [Body.grantee, Body.subject]
    next cmd q x =>
      cases cmd <;> simp_all
  simp [Setting.rules, hpc, Pc.inside, Setting.subject, hsub]

theorem wanted_of_mints (h : mints c s k th = some (p, byOrganizer)) : c.rules.wanted k th = some p := by
  unfold mints at h
  split at h
  next r hpc =>
    split at h
    · split at h <;> cases h
      next hb _ => simp [Setting.rules, hpc, Setting.subject, hb, Body.subject]
    · split at h <;> cases h
      next hb _ => simp [Setting.rules, hpc, Setting.subject, hb, Body.subject]
    · cases h
  · cases h

/-- One more event of a kind that excludes or lifts. -/
theorem excluded_happened {e : Event P K} : excluded p byOrganizer (s.apply (.happened e)).history =
    ((mintedFor p byOrganizer e).isSome || excluded p byOrganizer s.history && !lifts p byOrganizer e) :=
  excluded_append

/-- **Going on keeps the invariant**, with care. -/
theorem Excluding.settle (hw : Excluding c w) (hth : w.tasks k = some th) (hr : c.rules.ready w k th = true)
    (hs : settle c w.store k th a = some o) (hc : Careful w c (.settle k a)) :
    Excluding c (c.rules.advance w k o.1 o.2) := by
  have hown : c.rules.Owned (c.rules.advance w k o.1 o.2) := hw.owned.advance hth hr fun l hl => held_next hs hl
  have hother : ∀ j th', w.tasks j = some th' → ∀ p b, Serves c j th' p → excluded p b w.store.history = false :=
    fun j th' hj p b hp => hw.unserved j th' p b hj hp
  cases turn_settle hs with
  | mildly h =>
    refine hw.mildly hth hr hs h fun p b hp => ?_
    rcases hp with hp | hp | ⟨hp, hrev⟩
    · exact hw.unserved k th p b hth hp
    · exact hc.enters k a th p b rfl hth hp
    · cases b with
      | false => exact hc.regrants k a th p rfl hth hp
      | true =>
        by_contra hne
        have hrec := hw.recorded p (by simpa using hne)
        rw [hrev] at hrec
        cases hrec
  | @rotated p b n pre post pc hm hpre ho hpost hpc =>
    obtain ⟨h1, h2, h3⟩ := mild_run (c := c) (s := w.store) hpre
    obtain ⟨g1, g2, g3⟩ := mild_run (c := c) (s := (c.rules.run w.store pre).apply (.happened (.minted p b n))) hpost
    have hex : ∀ q d, excluded q d (c.rules.run w.store (pre ++ .happened (.minted p b n) :: post)).history =
        ((mintedFor q d (.minted p b n : Event P K)).isSome || excluded q d w.store.history) := by
      intro q d
      rw [Rules.run_append, Rules.run_cons]
      refine (g1 q d).trans ?_
      rw [excluded_happened, h1]
      simp [lifts]
    have hrec : b = true → (c.rules.run w.store pre).revocations p = true := by
      intro hb
      obtain ⟨xs, ys, hpre'⟩ := List.append_of_mem (ho hb)
      rw [hpre', Rules.run_append, Rules.run_cons]
      refine (mild_run (c := c) fun e he => hpre e (by simp [hpre', he])).2.1 p ?_
      simp [Setting.rules, Store.apply]
    refine ⟨hown, fun q hq => ?_, fun j th' q d hj hserves => ?_, ?_⟩
    · rw [Rules.advance_store, hex, Bool.or_eq_true] at hq
      rw [Rules.advance_store, Rules.run_append, Rules.run_cons]
      refine g2 q ?_
      rcases hq with hq | hq
      · simp only [mintedFor] at hq
        split at hq
        next heq =>
          obtain ⟨rfl, rfl⟩ := heq
          exact hrec rfl
        · cases hq
      · exact h2 q (hw.recorded q hq)
    · rw [Rules.advance_tasks] at hj
      split at hj
      · cases hj
        exact absurd hserves (not_serves_of_idle hpc)
      next hjk =>
        rw [Rules.advance_store, hex, hother j th' hj q d hserves, Bool.or_false]
        simp only [mintedFor]
        split
        next heq =>
          -- the task that takes the lock of `p` finds no grant of `p` under way, and no loop that has `p` before it
          obtain ⟨rfl, rfl⟩ := heq
          rcases hserves with hserves | ⟨hproving, r', rfl, hg⟩
          · exact absurd hserves (hc.rotates k a th p b rfl hth hm j th' hj)
          · exact absurd (held_of_proving hproving hg) (hw.owned.not_held hr (wanted_of_mints hm) hj)
        · rfl
    · rw [Rules.advance_store, Rules.run_append, Rules.run_cons]
      refine g3 (fun _ _ h => by cases h) ((h3 (fun _ _ h => by cases h) hw.clean).append fun _ _ h => by cases h)
  | @approved p pre post next hpre hpost hn =>
    obtain ⟨h1, h2, h3⟩ := mild_run (c := c) (s := w.store) hpre
    obtain ⟨g1, g2, g3⟩ := mild_run (c := c) (s := (c.rules.run w.store pre).apply (.clearRevocation p)) hpost
    have hex : ∀ q d, excluded q d (c.rules.run w.store (pre ++ .clearRevocation p :: post)).history =
        (excluded q d w.store.history && !decide (p = q)) := by
      intro q d
      rw [Rules.run_append, Rules.run_cons]
      refine (g1 q d).trans ?_
      show excluded q d (_ ++ [_]) = _
      rw [excluded_append, h1]
      simp [mintedFor, lifts]
    refine ⟨hown, fun q hq => ?_, fun j th' q d hj hserves => ?_, ?_⟩
    · rw [Rules.advance_store, hex, Bool.and_eq_true] at hq
      rw [Rules.advance_store, Rules.run_append, Rules.run_cons]
      refine g2 q ?_
      have hne : q ≠ p := by
        rintro rfl
        simp at hq
      have hrev := h2 q (hw.recorded q hq.1)
      simpa [Store.apply, Function.update_of_ne hne] using hrev
    · rw [Rules.advance_store, hex]
      rw [Rules.advance_tasks] at hj
      split at hj
      next hjk =>
        subst hjk
        simp [hn th' hj q hserves]
      · rw [hother j th' hj q d hserves, Bool.false_and]
    · rw [Rules.advance_store, Rules.run_append, Rules.run_cons]
      refine g3 (fun _ _ h => by cases h) ((h3 (fun _ _ h => by cases h) hw.clean).append fun _ _ h => by cases h)
  | @joined p pre next hpre hn =>
    obtain ⟨h1, h2, h3⟩ := mild_run (c := c) (s := w.store) hpre
    have hex : ∀ q d, excluded q d (c.rules.run w.store (pre ++ [.happened (.admitted p false)])).history =
        (excluded q d w.store.history && !(decide (p = q) && !d)) := by
      intro q d
      rw [Rules.run_append, Rules.run_cons, Rules.run_nil]
      refine excluded_happened.trans ?_
      rw [h1]
      simp [mintedFor, lifts]
    have hrec : ∀ q, excluded q true w.store.history = true →
        (c.rules.run w.store (pre ++ [.happened (.admitted p false)])).revocations q = true := by
      intro q hq
      rw [Rules.run_append, Rules.run_cons, Rules.run_nil]
      exact h2 q (hw.recorded q hq)
    refine ⟨hown, fun q hq => ?_, fun j th' q d hj hserves => ?_, ?_⟩
    · rw [Rules.advance_store, hex, Bool.and_eq_true] at hq
      exact hrec q hq.1
    · rw [Rules.advance_store, hex]
      rw [Rules.advance_tasks] at hj
      split at hj
      next hjk =>
        subst hjk
        obtain ⟨rfl, hrev⟩ := hn th' hj q hserves
        cases d with
        | false => simp
        | true =>
          by_contra hne
          have hq : excluded q true w.store.history = true := by simpa using hne
          rw [h2 q (hw.recorded q hq)] at hrev
          cases hrev
      · rw [hother j th' hj q d hserves, Bool.false_and]
    · rw [Rules.advance_store, Rules.run_append, Rules.run_cons, Rules.run_nil]
      exact (h3 (fun _ _ h => by cases h) hw.clean).append fun _ _ h => by cases h

/-- **Every careful act keeps the invariant.** -/
theorem Excluding.step (hw : Excluding c w) (h : Step c w x w') (hc : Careful w c x) : Excluding c w' := by
  have hown := owned_step hw.owned h
  have hspawn : ∀ {k th}, Pc.idle th.pc = true → c.rules.Owned (w.spawn k th) → Excluding c (w.spawn k th) := by
    intro k th hpc hown
    refine ⟨hown, hw.recorded, fun j th' p b hj hserves => ?_, hw.clean⟩
    rw [World.spawn_tasks] at hj
    split at hj
    · cases hj
      exact absurd hserves (not_serves_of_idle hpc)
    · exact hw.unserved j th' p b hj hserves
  cases x with
  | deliver r now =>
    obtain ⟨-, -, ⟨-, rfl⟩ | ⟨i, th, -, hth, rfl⟩⟩ := of_deliver h
    · exact ⟨hown, hw.recorded, hw.unserved, hw.clean⟩
    · refine hspawn ?_ hown
      rcases dispatch_pc hth with hpc | hpc | ⟨g, full, -, hpc⟩ <;> rw [hpc] <;> rfl
  | settle k a =>
    obtain ⟨o, ho, rfl⟩ := Option.map_eq_some_iff.mp h
    obtain ⟨th, hth, hr, hs⟩ := of_outcome ho
    exact hw.settle hth hr hs hc
  | sweep =>
    obtain ⟨i, -, -, rfl⟩ := of_sweep h
    exact hspawn rfl hown
  | crash =>
    cases h
    exact ⟨hown, hw.recorded, nofun, hw.clean⟩
  | crashDuring k a n => exact absurd rfl (hc.whole k a n)
  | restore =>
    obtain ⟨row, -, -, -, -, rfl⟩ := of_restore h
    refine ⟨hown, hw.recorded, fun j th' p b hj hserves => ?_, hw.clean⟩
    rw [World.spawn_tasks] at hj
    split at hj
    · cases hj
      exact absurd hserves (not_serves_of_idle rfl)
    · exact hw.unserved j th' p b hj hserves
  | detach =>
    cases h
    exact ⟨hown, hw.recorded, hw.unserved, hw.clean⟩
  | purgeEvent expire => exact absurd rfl (hc.kept expire)

theorem excluding_fresh (h : s.history = []) : Excluding c (.fresh s) where
  owned := World.owned_fresh
  recorded p hp := by
    rw [World.fresh_store, h] at hp
    cases hp
  unserved := nofun
  clean := by
    rw [World.fresh_store, h]
    exact clean_nil

/-- **A rotation excludes the member it was made for**, after every run of
careful acts. -/
theorem rotations_exclude {xs : List (Act P R K)} (hs : s.history = [])
    (h : Run (fun w x w' => Step c w x w' ∧ Careful w c x) (.fresh s) xs w) : RotationsExclude w.store.history :=
  (h.invariant (fun _ _ _ hw hx => hw.step hx.1 hx.2) (excluding_fresh hs)).clean.rotationsExclude

/-- Two members, 1 and 2, are approved and revoked. -/
def Small.twoMembers : Nat → Rumor Nat Nat
  | 1 => ⟨1, .admin .approve 1 1000⟩
  | 2 => ⟨2, .admin .approve 2 1000⟩
  | 3 => ⟨3, .admin .revoke 1 1000⟩
  | _ => ⟨4, .admin .revoke 2 1000⟩

theorem rotations_exclude_revoke : RotationsExclude [(.minted 1 true 2 : Event Nat Nat)] := by
  have h : (acts (Small.setting Small.twoMembers) (.fresh Small.store) [.deliver 3 0, Small.goes 3 20]).map (·.store.history) =
      some [.minted 1 true 2] := by decide +kernel
  obtain ⟨w₂, hw, hhist⟩ := Option.map_eq_some_iff.mp h
  obtain ⟨w₁, h₁, hw⟩ := Option.bind_eq_some_iff.mp hw
  obtain ⟨w₂, h₂, hw⟩ := Option.bind_eq_some_iff.mp hw
  cases hw
  rw [← hhist]
  obtain ⟨-, -, ⟨hfar, -⟩ | ⟨i, th, hi, hth, hw₁⟩⟩ := of_deliver h₁
  · exact absurd hfar (by decide)
  have hbody : ((Small.setting Small.twoMembers).rumor 3).body = .admin .revoke 1 1000 := rfl
  have hpc : th.pc = .queued := by
    rw [hbody] at hth
    simp only [dispatch] at hth
    cases hth
    rfl
  -- the only handler is the one that starts, and it is not a join
  have htask : ∀ j th', w₁.tasks j = some th' → j = .rumor 3 ∧ th' = th := by
    intro j th' hj
    rw [hw₁, World.spawn_tasks] at hj
    split at hj <;> cases hj
    next hj => exact ⟨hj, rfl⟩
  have hcare : Careful w₁ (Small.setting Small.twoMembers) (Small.goes 3 20) := by
    refine ⟨fun k a th' p b heq hk hm j th'' hj hs => ?_, fun k a th' p b heq hk hp => ?_, fun k a th' p heq hk hp => ?_,
      (fun _ _ _ h => by cases h), fun _ h => by cases h⟩
    · obtain ⟨-, rfl⟩ := htask j th'' hj
      rw [ToServe, hpc] at hs
      exact hs
    · obtain ⟨rfl, rfl⟩ := htask k th' hk
      simp [entered, hpc] at hp
    · obtain ⟨rfl, rfl⟩ := htask k th' hk
      obtain ⟨r, entitled, hr, -, hb, -⟩ := hp
      cases hr
      rw [hbody] at hb
      cases hb
  have hrun : Run (fun w x w' => Step (Small.setting Small.twoMembers) w x w' ∧ Careful w (Small.setting Small.twoMembers) x)
      (.fresh Small.store) [.deliver 3 0, Small.goes 3 20] w₂ :=
    .cons ⟨h₁, careful_deliver⟩ (.cons ⟨h₂, hcare⟩ .nil)
  exact rotations_exclude (by rfl) hrun

/-- Two revokes overlap: the deletion of member 1's entry fails and leaves the
row approved, and the revoke of member 2 grants member 1 the version minted to
exclude them. -/
theorem rotations_exclude_overlappingRevokes : ∃ xs w, Run (Step (Small.setting Small.twoMembers)) (.fresh Small.store) xs w ∧
    ¬ RotationsExclude w.store.history := by
  have h : (acts (Small.setting Small.twoMembers) (.fresh Small.store)
      (Small.handled 1 6 ++ Small.handled 2 6 ++
        [.deliver 3 0, Small.goes 3 20, Small.fails 3, .deliver 4 0, Small.goes 4 30, Small.goes 4 0, Small.goes 4 0])).map
        (·.store.history) =
      some ([.admitted 1 true, .built 1 [⟨1, 10⟩], .published 1 [⟨1, 10⟩], .admitted 2 true, .built 2 [⟨1, 10⟩],
        .published 2 [⟨1, 10⟩]] ++ .minted 1 true 2 :: [.minted 2 true 3, .built 1 [⟨1, 10⟩, ⟨2, 20⟩, ⟨3, 30⟩]]) := by
    decide +kernel
  obtain ⟨w, hw, hhist⟩ := Option.map_eq_some_iff.mp h
  refine ⟨_, w, run_of_acts hw, fun hex => ?_⟩
  have hlt := hex _ _ 1 true 2 hhist (by simp [lifts]) _ (.tail _ (.head _)) ⟨2, 20⟩ (by simp)
  exact absurd hlt (by decide)

end Nostrautica.Membership
