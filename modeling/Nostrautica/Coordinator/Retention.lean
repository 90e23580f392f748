/-
Retention in `coordinator/src/coordinator.ts`: the deadline of an event, the
sweep that expires events past it (`retentionSweep`, `expireRetention`), and
the 31600 and space records that move it while a sweep waits.

A sweep looks at the state objects that were live when it began, one after the
other. Clock readings are milliseconds. Of a record only what moves the
deadline is kept; records here are of the event's own key, kind and `d`.
-/
import Nostrautica.Js.Map
import Nostrautica.Transition.Run
import Nostrautica.Transition.Tasks

namespace Nostrautica.Retention

open Js Tasks

/-- A 31600. `attached` is that it names this coordinator at the generation installed. -/
structure Config where
  id : Nat
  created_at : Nat
  attached : Bool
  retentionDays : Option Nat

/-- A 31923 or 31612; `endSec` is `parseEventEndSec`, not positive where there is none. -/
structure SpaceRecord where
  id : Nat
  created_at : Nat
  endSec : Int

/-- `EventState`. -/
structure EventState (C : Type*) where
  coordinate : C
  configEventId : Option Nat
  configCreatedAt : Nat
  metaEventId : Option Nat
  metaCreatedAt : Nat
  retentionDays : Option Nat
  eventEndSec : Int
  retentionExpired : Bool

/-- The row of `events`. -/
structure EventRow where
  retention_expired : Bool
  event_end_sec : Int

/-- A run of `purgeEventArtifacts`: when, and the deadline of the event that was
installed there. -/
structure Purge (C : Type*) where
  coordinate : C
  nowSec : Int
  deadline : Option (Option Int)

structure Store (C : Type*) where
  /-- `this.events`: for each coordinate the state object in use. -/
  events : JsMap C Nat
  /-- The state objects made so far, and how many. -/
  states : Nat → EventState C
  made : Nat
  rows : C → Option EventRow
  retentionInProgress : C → Bool
  purges : List (Purge C)

/-- `retentionDeadline`: `none` is `null`. -/
def EventState.retentionDeadline {C : Type*} (st : EventState C) : Option Int :=
  match st.retentionDays with
  | none => none
  | some days => if st.eventEndSec ≤ 0 then none else some (st.eventEndSec + days * 86400)

/-- A deadline there is, and `nowSec` is past it. -/
def passed (nowSec : Int) (deadline : Option Int) : Bool := deadline.any fun d => decide (d < nowSec)

/-- `Math.floor(this.now() / 1000)`. -/
def seconds (now : Int) : Int := now / 1000

/-- `supersedes`: newer, or as new with a lower id. -/
def supersedes (createdAt id createdAt' id' : Nat) : Bool := createdAt > createdAt' || createdAt = createdAt' && id < id'

/-- The ordering check of an update, against the record applied last. -/
def fresh (createdAt id : Nat) (applied : Option Nat) (appliedAt : Nat) : Bool :=
  match applied with
  | some id' => supersedes createdAt id appliedAt id'
  | none => createdAt ≥ appliedAt

inductive Effect (C : Type*)
  | inProgress (c : C) (on : Bool)
  /-- `state.retentionExpired = true`. -/
  | expiring (i : Nat)
  | purgeEventArtifacts (c : C) (now : Int)
  | markRetentionExpired (c : C)

variable {C : Type*} [DecidableEq C]

namespace Store

/-- An empty database; the state objects are yet to be made. -/
def start (states : Nat → EventState C) : Store C where
  events := .empty
  states
  made := 0
  rows _ := none
  retentionInProgress _ := false
  purges := []

/-- `isRetentionExpired`. -/
def isRetentionExpired (s : Store C) (c : C) : Bool := (s.rows c).any (·.retention_expired)

def apply (s : Store C) : Effect C → Store C
  | .inProgress c on => { s with retentionInProgress := Function.update s.retentionInProgress c on }
  | .expiring i => { s with states := Function.update s.states i { s.states i with retentionExpired := true } }
  | .purgeEventArtifacts c now =>
    { s with purges := s.purges ++ [⟨c, seconds now, (s.events.get? c).map fun i => (s.states i).retentionDeadline⟩] }
  | .markRetentionExpired c =>
    { s with rows := Function.update s.rows c ((s.rows c).map fun row => { row with retention_expired := true }) }

/-- What a crash leaves: the database, and the history. -/
def crashed (s : Store C) : Store C := { s with events := .empty, retentionInProgress := fun _ => false }

end Store

/-! ## The sweep -/

/-- Where a sweep waits, in `expireRetention` of a state object. -/
inductive Pc
  /-- `await this.stopAndAwaitEventHandlers(...)`. -/
  | stopping (i : Nat)
  /-- `await this.deps.transport.publish(deletion, ...)`. -/
  | deleting (i : Nat)
  /-- `await this.deps.transport.publish(status, ...)`. -/
  | notifying (i : Nat)

/-- A sweep: its reading of the clock, and the state objects still to look at. -/
structure Sweep where
  nowSec : Int
  pc : Pc
  todo : List Nat

/-- The state object a sweep is expiring. -/
def Pc.object : Pc → Nat
  | .stopping i | .deleting i | .notifying i => i

/-- The object is not expired for good, its deadline has passed, and no other
sweep is at it. -/
def due (s : Store C) (nowSec : Int) (i : Nat) : Bool :=
  !s.isRetentionExpired (s.states i).coordinate && passed nowSec (s.states i).retentionDeadline &&
    !s.retentionInProgress (s.states i).coordinate

/-- The loop of `retentionSweep`, up to its next await. -/
def sweepFrom (s : Store C) (nowSec : Int) : List Nat → List (Effect C) × Option Sweep
  | [] => ([], none)
  | i :: todo =>
    if due s nowSec i then
      ([.inProgress (s.states i).coordinate true, .expiring i], some ⟨nowSec, .stopping i, todo⟩)
    else sweepFrom s nowSec todo

/-- `expireRetention` of the object has returned or thrown. -/
def nextObject (s : Store C) (th : Sweep) (i : Nat) : List (Effect C) × Option Sweep :=
  let done := Effect.inProgress (s.states i).coordinate false
  let (es, next) := sweepFrom (s.apply done) th.nowSec th.todo
  (done :: es, next)

/-- What a sweep learns when it goes on. -/
structure Answer where
  /-- The publish was taken. -/
  ok : Bool
  now : Int

/-- A sweep goes on from where it waits. -/
def settle (s : Store C) (th : Sweep) (a : Answer) : List (Effect C) × Option Sweep :=
  match th.pc with
  | .stopping i => ([], some { th with pc := .deleting i })
  | .deleting i =>
    if a.ok then
      let c := (s.states i).coordinate
      ([.purgeEventArtifacts c a.now, .markRetentionExpired c], some { th with pc := .notifying i })
    else nextObject s th i
  | .notifying i => nextObject s th i

/-! ## Records -/

/-- The retention of a state under a newer 31600: a deadline that has not passed
lifts an expiry. -/
def EventState.withConfig (st : EventState C) (cfg : Config) (now : Int) : EventState C :=
  let st := { st with
    retentionDays := cfg.retentionDays
    configEventId := some cfg.id
    configCreatedAt := cfg.created_at }
  { st with retentionExpired := st.retentionExpired && passed (seconds now) st.retentionDeadline }

/-- The 31600 is newer than the one applied. -/
def EventState.takesConfig (st : EventState C) (cfg : Config) : Bool :=
  fresh cfg.created_at cfg.id st.configEventId st.configCreatedAt

/-- `applyConfigUpdate`, of an event it does not detach. -/
def applyConfigUpdate (s : Store C) (i : Nat) (cfg : Config) (now : Int) : Store C :=
  let st := (s.states i).withConfig cfg now
  { s with
    states := Function.update s.states i st
    rows :=
      if (s.states i).retentionExpired && !st.retentionExpired then
        Function.update s.rows st.coordinate ((s.rows st.coordinate).map fun row => { row with retention_expired := false })
      else s.rows }

/-- `retentionAnchorFor`: the end time of a record, or the one held. -/
def retentionAnchorFor (s : Store C) (c : C) (endSec : Int) : Int :=
  if endSec > 0 then endSec else ((s.rows c).map (·.event_end_sec)).getD 0

/-- `setRetentionAnchor`, of an end time there is. -/
def setRetentionAnchor (s : Store C) (c : C) (endSec : Int) : Store C :=
  if endSec > 0 then { s with rows := Function.update s.rows c ((s.rows c).map fun row => { row with event_end_sec := endSec }) }
  else s

/-- The space record is newer than the one applied. -/
def EventState.takesRecord (st : EventState C) (rec : SpaceRecord) : Bool :=
  fresh rec.created_at rec.id st.metaEventId st.metaCreatedAt

/-- The state under a newer space record, with its anchor. -/
def EventState.withRecord (st : EventState C) (rec : SpaceRecord) (anchor : Int) : EventState C :=
  { st with eventEndSec := anchor, metaEventId := some rec.id, metaCreatedAt := rec.created_at }

/-- `handleMetaUpdate`, of a record it takes. -/
def handleMetaUpdate (s : Store C) (i : Nat) (rec : SpaceRecord) : Store C :=
  let c := (s.states i).coordinate
  let st := (s.states i).withRecord rec (retentionAnchorFor s c rec.endSec)
  { setRetentionAnchor s c rec.endSec with states := Function.update s.states i st }

/-- `installEvent`, of a grant or a restart, with the records it fetched. -/
def installEvent (s : Store C) (c : C) (cfg : Config) (rec : Option SpaceRecord) : Store C :=
  let endSec := (rec.map (·.endSec)).getD 0
  let s := { s with rows := Function.update s.rows c (some ((s.rows c).getD ⟨false, 0⟩)) }
  let st : EventState C :=
    { coordinate := c
      configEventId := some cfg.id
      configCreatedAt := cfg.created_at
      metaEventId := rec.map (·.id)
      metaCreatedAt := (rec.map (·.created_at)).getD 0
      retentionDays := cfg.retentionDays
      eventEndSec := retentionAnchorFor s c endSec
      retentionExpired := s.isRetentionExpired c }
  { setRetentionAnchor s c endSec with
    states := Function.update s.states s.made st
    made := s.made + 1
    events := s.events.set c s.made }

/-- `detachEvent`: the custody and the state go. -/
def detachEvent (s : Store C) (c : C) : Store C :=
  { s with rows := Function.update s.rows c none, events := s.events.delete c }

/-! ## Acts -/

/-- No locks here. -/
def rules : Rules Nat Unit (Store C) (Effect C) Sweep where
  apply := Store.apply
  held _ _ := none
  wanted _ _ := none

/-- The store, and the sweeps under way. -/
abbrev World (C : Type*) := Tasks.World Nat Unit (Store C) Sweep

inductive Act (C : Type*)
  /-- `retentionSweep` is called. -/
  | sweep (k : Nat) (now : Int)
  /-- A sweep goes on. -/
  | settle (k : Nat) (a : Answer)
  /-- A 31600 of an event arrives. -/
  | config (c : C) (cfg : Config) (now : Int)
  /-- A space record of an event arrives. -/
  | record (c : C) (rec : SpaceRecord)
  | install (c : C) (cfg : Config) (rec : Option SpaceRecord)
  | detach (c : C)
  /-- The process ends while every sweep waits. -/
  | crash
  /-- The process ends after some effects of a sweep that went on. -/
  | crashDuring (k : Nat) (a : Answer) (n : Nat)

/-- What one act makes of the world; `none` where it cannot happen. -/
def act (w : World C) : Act C → Option (World C)
  | .sweep k now =>
    if (w.tasks k).isSome then none
    else
      let (es, next) := sweepFrom w.store (seconds now) w.store.events.values
      some (rules.advance w k es next)
  | .settle k a =>
    (w.tasks k).map fun th =>
      let (es, next) := settle w.store th a
      rules.advance w k es next
  | .config c cfg now =>
    (w.store.events.get? c).map fun i =>
      if (w.store.states i).takesConfig cfg then
        { w with store := if cfg.attached then applyConfigUpdate w.store i cfg now else detachEvent w.store c }
      else w
  | .record c rec =>
    (w.store.events.get? c).map fun i =>
      if (w.store.states i).takesRecord rec then { w with store := handleMetaUpdate w.store i rec } else w
  | .install c cfg rec => some { w with store := installEvent w.store c cfg rec }
  | .detach c => some { w with store := detachEvent w.store c }
  | .crash => some (.fresh w.store.crashed)
  | .crashDuring k a n =>
    (w.tasks k).map fun th => .fresh (rules.run w.store ((settle w.store th a).1.take n)).crashed

def Step (w : World C) (x : Act C) (w' : World C) : Prop := act w x = some w'

end Nostrautica.Retention
