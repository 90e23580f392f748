/-
The coordinator's membership handlers as one system: any number of them in
progress, interleaved at their await points, with the per-member lock, crashes
at any moment, and rumors delivered in any order and any number of times.

A rumor that is being handled is claimed (`inFlightRumors`), so its id names
its task.
-/
import Nostrautica.Coordinator.Handlers
import Nostrautica.Transition.Run

namespace Nostrautica.Membership

open Tasks

variable {P R K : Type*} [DecidableEq P] [LinearOrder R] [DecidableEq K]

/-- The member whose lock a handler takes (`withSubjectLock`). -/
def Body.subject : Body P K → Option P
  | .admin _ p _ => some p
  | .withdrawal p _ => some p
  | .join p _ => some p
  | .submission p => some p
  | .correction _ => none
  | .grant _ => none

/-- Whether a handler is inside its lock. -/
def Pc.inside : Pc P K → Bool
  | .queued => false
  | .sleeping => false
  | .returned => false
  | _ => true

namespace Setting

variable (c : Setting P R K)

def subject : Task R → Option P
  | .rumor r => (c.rumor r).body.subject
  | _ => none

/-- The statements and the locks of the handlers. -/
def rules : Rules (Task R) P (Store P R K) (Effect P R K) (Thread P K) where
  apply := Store.apply
  held k th := if th.pc.inside then c.subject k else none
  wanted k th := match th.pc with
    | .queued => c.subject k
    | _ => none

end Setting

/-- The coordinator: what it keeps, its handlers, and its locks. -/
abbrev Coordinator (P R K : Type*) := World (Task R) P (Store P R K) (Thread P K)

/-- What can happen. -/
inductive Act (P R K : Type*)
  /-- A rumor arrives. -/
  | deliver (r : R) (now : Nat)
  /-- A handler goes on. -/
  | settle (k : Task R) (a : Answer P K)
  /-- `reissueParentProofs` is called. -/
  | sweep
  /-- The process ends while every handler waits. -/
  | crash
  /-- The process ends after some effects of a handler that went on. -/
  | crashDuring (k : Task R) (a : Answer P K) (n : Nat)
  /-- An event that is not live is installed again from its row. -/
  | restore
  /-- `detachEvent`. -/
  | detach
  /-- `purgeEventArtifacts`, and `markRetentionExpired` where retention asked for it. -/
  | purgeEvent (expire : Bool)

namespace Store

/-- `detachEvent`: the key custody goes, the members' rows stay. -/
def detached (s : Store P R K) : Store P R K :=
  { s with
    event := none
    tombstoned := true
    live := none
    completedInstallGen := none
    watermarks := fun p => (s.watermarks p).map fun op => { op with eckRotation := none } }

/-- The tables of `purgeEventArtifacts` that are kept here. -/
def purged (s : Store P R K) (expire : Bool) : Store P R K :=
  { s with
    attendees := .empty
    revocations := fun _ => false
    watermarks := fun _ => none
    expired := s.expired || expire }

end Store

variable (c : Setting P R K)

/-- The event state a rumor is handled with: an inbox needs a live event, and a
submission an enrolled author. -/
def inbox (s : Store P R K) : Body P K → Option Nat
  | .admin .. => some (s.live.getD 0)
  | .grant _ => some (s.live.getD 0)
  | .submission p => if s.status p = none then none else s.live
  | _ => s.live

/-- A rumor arrives: `unwrapFresh`, and the dispatch of its kind. -/
def deliver (w : Coordinator P R K) (r : R) (now : Nat) : Option (Coordinator P R K) :=
  let rumor := c.rumor r
  if w.store.seen r ∨ (w.tasks (.rumor r)).isSome then none
  else if rumor.created_at > now / 1000 + rumorMaxFutureSec then
    some { w with store := w.store.apply (.markRumorSeen r) }
  else
    (inbox w.store rumor.body).bind fun i =>
      (dispatch w.store i (rumorEffectiveCreatedAt rumor.created_at (now / 1000)) now rumor.body).map
        (w.spawn (.rumor r))

/-- What a handler does next, where its lock is free. -/
def outcome (w : Coordinator P R K) (k : Task R) (a : Answer P K) : Option (Outcome P R K) :=
  (w.tasks k).bind fun th => if c.rules.ready w k th then settle c w.store k th a else none

/-- What one act makes of the coordinator; `none` where it cannot happen. -/
def act (w : Coordinator P R K) : Act P R K → Option (Coordinator P R K)
  | .deliver r now => deliver c w r now
  | .settle k a => (outcome c w k a).map fun o => c.rules.advance w k o.1 o.2
  | .sweep =>
    w.store.live.bind fun i =>
      let gen := (w.store.states i).gen
      if w.store.reissued gen ∨ (w.tasks (.reissue gen)).isSome then none
      else some (w.spawn (.reissue gen) ⟨i, 0, .linking⟩)
  | .crash => some (.fresh w.store.crashed)
  | .crashDuring k a n => (outcome c w k a).map fun o => .fresh (c.rules.run w.store (o.1.take n)).crashed
  | .restore =>
    match w.store.event, w.store.live with
    | some row, none =>
      if w.store.tombstoned ∨ (w.tasks .restore).isSome then none
      else
        let eck := unionEck c.fingerprint row.eck row.eck
        some ({ w with store := c.rules.run w.store [.installed row.gen eck, .live row.gen eck] }.spawn .restore
          ⟨w.store.made, 0, .installing false⟩)
    | _, _ => none
  | .detach => some { w with store := w.store.detached }
  | .purgeEvent expire => some { w with store := w.store.purged expire }

/-- One act, from a state in which it can happen. -/
def Step (w : Coordinator P R K) (x : Act P R K) (w' : Coordinator P R K) : Prop := act c w x = some w'

/-- Acts, one after the other. -/
def acts (w : Coordinator P R K) : List (Act P R K) → Option (Coordinator P R K)
  | [] => some w
  | x :: xs => (act c w x).bind fun w => acts w xs

theorem run_of_acts {c : Setting P R K} {w' : Coordinator P R K} :
    ∀ {w : Coordinator P R K} {xs : List (Act P R K)}, acts c w xs = some w' → Run (Step c) w xs w'
  | _, [], h => by
    cases h
    exact .nil
  | _, _ :: _, h => by
    obtain ⟨_, hx, h⟩ := Option.bind_eq_some_iff.mp h
    exact .cons hx (run_of_acts h)

/-! ## A small event -/

namespace Small

/-- Numbers for pubkeys, rumor ids and keys. -/
def setting (rumor : Nat → Rumor Nat Nat) : Setting Nat Nat Nat where
  rumor
  named _ := true
  hex64 _ := true
  fingerprint := id
  reissueDelay := true

/-- A live event with one ECK version and no member. -/
def store : Store Nat Nat Nat where
  event := some ⟨1, [⟨1, 10⟩]⟩
  highGen := 1
  tombstoned := false
  attendees := .empty
  revocations _ := false
  watermarks _ := none
  seen _ := false
  reissued _ := false
  expired := false
  states _ := ⟨1, [⟨1, 10⟩]⟩
  made := 1
  live := some 0
  completedInstallGen := some 1
  history := []

/-- Everything succeeds; a key that is asked for is `key`. -/
def yes (key : Nat) : Answer Nat Nat where
  ok := true
  now := 0
  key
  approval := .open
  entitlement := true
  admitted := true
  retry := false
  stale := false
  linked := true
  config := .matches
  roster := []

/-- The handler of `r` goes on, and what it waited for succeeds. -/
def goes (r key : Nat) : Act Nat Nat Nat := .settle (.rumor r) (yes key)

/-- The handler of `r` goes on, and what it waited for fails. -/
def fails (r : Nat) : Act Nat Nat Nat := .settle (.rumor r) { yes 0 with ok := false }

/-- A rumor arrives, and its handler goes on so many times. -/
def handled (r times : Nat) : List (Act Nat Nat Nat) := .deliver r 0 :: List.replicate times (goes r 0)

end Small

end Nostrautica.Membership
