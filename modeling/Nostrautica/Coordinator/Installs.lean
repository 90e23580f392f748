/-
The installs of one event in `coordinator/src/coordinator.ts`: grants, the
restore at boot, suspensions and their retries (`installEvent`,
`suspendEvent`, `retrySuspendedEvents`), and the detaches that end them
(`detachEvent`, by a 31600, by a 21604 or by a restore).

An install waits for the 31600 it fetches; up to its next await it then runs
without interruption. 31600s here are of the event's own key and `d`; one that
does not parse is none. The key rotations of a revoke are not among the acts.
-/
import Nostrautica.Coordinator.Members
import Nostrautica.Transition.Run
import Nostrautica.Transition.Tasks

namespace Nostrautica.Installs

open Nostrautica.Membership Tasks

/-- A 31600, as far as it authorizes an install. -/
structure Config (P : Type*) where
  id : Nat
  created_at : Nat
  coordinator : Option P
  coordinatorGen : Option Nat
  inbox : P

/-- What an install holds: its generation and the ECK set. -/
structure Custody (K : Type*) where
  gen : Nat
  eck : List (EckVersion K)

/-- A 21603; `inbox` is the key its `inbox_nsec` derives. -/
structure Grant (P K : Type*) extends Custody K where
  inbox : P

/-- `EventState`. -/
structure EventState where
  gen : Nat
  configEventId : Nat
  configCreatedAt : Nat

/-- What happened to the event's row, and the generations of detaches recorded. -/
inductive Entry (K : Type*)
  /-- `upsertEvent` of an install: the row before it, and after. -/
  | installed (before : Option (Custody K)) (after : Custody K)
  /-- `tombstoneInstall`. -/
  | tombstoned (gen : Nat)
  /-- `deleteEvent` of a detach, for the generation a check was made for. -/
  | detached (check : Option Nat) (before : Option (Custody K))

/-- How far `start` is: nothing but the restore runs before it is through. -/
inductive Boot
  | down
  | restoring
  | up
deriving DecidableEq

structure Store (K : Type*) where
  /-- The row of `events`. -/
  row : Option (Custody K)
  /-- `install_state`. -/
  highGen : Nat
  tombstoned : Bool
  /-- `this.events`, `this.suspended` and `this.completedInstallGen` of the event. -/
  live : Option EventState
  suspended : Option (Custody K)
  completedInstallGen : Option Nat
  boot : Boot
  log : List (Entry K)

inductive Effect (K : Type*)
  | upsertEvent (gen : Nat) (eck : List (EckVersion K))
  | recordInstalledGen (gen : Nat)
  /-- `this.events.set(coordinate, state)`. -/
  | live (st : EventState)
  | completed (gen : Nat)
  | suspendEvent (held : Custody K)
  /-- `this.suspended.delete(coordinate)`. -/
  | unsuspend
  | tombstoneInstall (gen : Nat)
  /-- The live state and the row go. -/
  | deleteEvent (check : Option Nat)
  | booted

namespace Store

variable {K : Type*}

def empty : Store K where
  row := none
  highGen := 0
  tombstoned := false
  live := none
  suspended := none
  completedInstallGen := none
  boot := .down
  log := []

def apply (s : Store K) : Effect K → Store K
  | .upsertEvent gen eck => { s with row := some ⟨gen, eck⟩, log := s.log ++ [.installed s.row ⟨gen, eck⟩] }
  | .recordInstalledGen gen => { s with highGen := max s.highGen gen, tombstoned := false }
  | .live st => { s with live := some st }
  | .completed gen => { s with completedInstallGen := some gen }
  | .suspendEvent held => { s with live := none, completedInstallGen := none, suspended := some held }
  | .unsuspend => { s with suspended := none }
  | .tombstoneInstall gen => { s with highGen := max s.highGen gen, tombstoned := true, log := s.log ++ [.tombstoned gen] }
  | .deleteEvent check =>
    { s with live := none, completedInstallGen := none, row := none, log := s.log ++ [.detached check s.row] }
  | .booted => { s with boot := .up }

/-- What a crash leaves: the database, and the history. -/
def crashed (s : Store K) : Store K :=
  { s with live := none, suspended := none, completedInstallGen := none, boot := .down }

end Store

/-- `supersedes`: newer, or as new with a lower id. -/
def supersedes (createdAt id createdAt' id' : Nat) : Bool := createdAt > createdAt' || createdAt = createdAt' && id < id'

/-- Where a restore comes from. -/
inductive Restore
  /-- `start`. -/
  | boot
  /-- `retrySuspendedEvents`. -/
  | retry

/-- What called `detachEvent`. -/
inductive Caller
  /-- `applyConfigUpdate`. -/
  | config
  /-- `handleAdmin`. -/
  | command
  | restore (src : Restore)

/-- Where a task waits. -/
inductive Pc (P K : Type*)
  /-- `installEvent` of a grant, for the 31600. -/
  | granting (g : Grant P K)
  /-- `installEvent` of a restore, for the 31600. -/
  | restoring (src : Restore) (held : Custody K)
  /-- The rest of `installEvent`, once the row is written. -/
  | finishing (src : Option Restore) (gen : Nat)
  /-- A 31600, for the config lock. -/
  | queued (cfg : Config P)
  /-- The effects of a 31600 applied. -/
  | applying
  /-- A detach command, for its subject's lock. -/
  | ordered
  /-- `detachEvent`, for the handlers it stops and the notice it sends. -/
  | detaching (caller : Caller) (check : Option Nat)

/-- What a task learns when it goes on: the 31600 fetched, and whether the rest
of an install succeeds, or the operation of a command is still to run. -/
structure Answer (P : Type*) where
  config : Option (Config P)
  ok : Bool

/-- What a task does: its effects, and where it waits next. -/
abbrev Outcome (P K : Type*) := List (Effect K) × Option (Pc P K)

/-- What the checks of a grant come to. -/
inductive Verdict
  | rejected
  /-- It throws, and the grant is tried again. -/
  | retryable
  | authorized
deriving DecidableEq

variable {P K : Type*} [DecidableEq P] [DecidableEq K] (coordPubkey : P) (fingerprint : K → Nat)

/-- The 31600 names this coordinator at the generation. -/
def Config.names (cfg : Config P) (gen : Nat) : Bool := cfg.coordinator = some coordPubkey ∧ cfg.coordinatorGen = some gen

/-- A grant at the high-water mark resumes an install that is partly done. -/
def Store.resumable (s : Store K) : Bool := s.row.isSome && !s.tombstoned

/-- The checks of `installEvent` on a grant. -/
def authorize (s : Store K) (g : Grant P K) (config : Option (Config P)) : Verdict :=
  if g.gen < s.highGen then .rejected
  else if g.gen = s.highGen ∧ (!s.resumable || s.completedInstallGen = some g.gen) then .rejected
  else
    match config with
    | none => .retryable
    | some cfg =>
      if cfg.coordinator ≠ some coordPubkey then
        if cfg.coordinator = none then .retryable else .rejected
      else if cfg.coordinatorGen ≠ some g.gen then
        if g.gen > cfg.coordinatorGen.getD 0 then .retryable else .rejected
      else if g.inbox ≠ cfg.inbox then .rejected
      else .authorized

/-- The ECK set an install writes. -/
def Store.mergedEck (s : Store K) (eck : List (EckVersion K)) : List (EckVersion K) :=
  match s.row with
  | some held => unionEck fingerprint held.eck eck
  | none => eck

/-- The writes of an install, under the 31600 fetched. -/
def install (s : Store K) (gen : Nat) (eck : List (EckVersion K)) (cfg : Config P) : List (Effect K) :=
  [.upsertEvent gen (s.mergedEck fingerprint eck), .recordInstalledGen gen, .live ⟨gen, cfg.id, cfg.created_at⟩]

/-- `start` goes on after the restore of the event. -/
def restored : Restore → List (Effect K)
  | .boot => [.booted]
  | .retry => []

/-- `detachEvent`, up to its first await. -/
def detachEvent (s : Store K) (caller : Caller) (check : Option Nat) : Outcome P K :=
  ([.tombstoneInstall (max (check.getD 0) s.highGen)], some (.detaching caller check))

/-- A restore, from the 31600 it fetched. -/
def restore (s : Store K) (src : Restore) (held : Custody K) (config : Option (Config P)) : Outcome P K :=
  match config with
  | none => (.suspendEvent held :: restored src, none)
  | some cfg =>
    if cfg.names coordPubkey held.gen then
      (.unsuspend :: install fingerprint s held.gen held.eck cfg, some (.finishing (some src) held.gen))
    else
      let (es, next) := detachEvent s (.restore src) (some held.gen)
      (.unsuspend :: es, next)

/-- `applyConfigUpdate`. -/
def applyConfigUpdate (s : Store K) (cfg : Config P) : Outcome P K :=
  match s.live with
  | none => ([], none)
  | some st =>
    if !supersedes cfg.created_at cfg.id st.configCreatedAt st.configEventId then ([], none)
    else if !cfg.names coordPubkey st.gen then detachEvent s .config (some st.gen)
    else ([.live { st with configEventId := cfg.id, configCreatedAt := cfg.created_at }], some .applying)

/-- A task goes on from where it waits. -/
def settle (s : Store K) (pc : Pc P K) (a : Answer P) : Outcome P K :=
  match pc with
  | .granting g =>
    match authorize coordPubkey s g a.config, a.config with
    | .authorized, some cfg => (install fingerprint s g.gen g.eck cfg, some (.finishing none g.gen))
    | _, _ => ([], none)
  | .restoring src held => restore coordPubkey fingerprint s src held a.config
  | .finishing src gen => ((if a.ok then [.completed gen] else []) ++ (src.map restored).getD [], none)
  | .queued cfg => applyConfigUpdate coordPubkey s cfg
  | .applying => ([], none)
  | .ordered => if a.ok then detachEvent s .command none else ([], none)
  | .detaching (.restore src) check => (.deleteEvent check :: restored src, none)
  | .detaching _ check => ([.deleteEvent check], none)

/-! ## Acts -/

inductive Lock
  | config
  | detach
deriving DecidableEq

/-- The config lock, and the lock of the detach commands. -/
def rules : Rules Nat Lock (Store K) (Effect K) (Pc P K) where
  apply := Store.apply
  held
    | _, .applying => some .config
    | _, .detaching .config _ => some .config
    | _, .detaching .command _ => some .detach
    | _, _ => none
  wanted
    | _, .queued _ => some .config
    | _, .ordered => some .detach
    | _, _ => none

/-- The store, and the tasks under way. -/
abbrev World (P K : Type*) := Tasks.World Nat Lock (Store K) (Pc P K)

inductive Act (P K : Type*)
  /-- `start` comes to the event, if a row of it is stored. -/
  | boot (k : Nat)
  /-- A grant arrives. -/
  | grant (k : Nat) (g : Grant P K)
  /-- `retrySuspendedEvents` comes to the event. -/
  | retry (k : Nat)
  /-- A 31600 arrives. -/
  | config (k : Nat) (cfg : Config P)
  /-- A detach command of the organizer arrives. -/
  | detach (k : Nat)
  /-- A task goes on. -/
  | settle (k : Nat) (a : Answer P)
  /-- The process ends while every task waits. -/
  | crash
  /-- The process ends after some effects of a task that went on. -/
  | crashDuring (k : Nat) (a : Answer P) (n : Nat)

/-- What a task does next, where its lock is free. -/
def outcome (w : World P K) (k : Nat) (a : Answer P) : Option (Outcome P K) :=
  (w.tasks k).bind fun pc => if rules.ready w k pc then some (settle coordPubkey fingerprint w.store pc a) else none

/-- A task begins, where none has its name. -/
def begin_ (w : World P K) (k : Nat) (pc : Pc P K) : Option (World P K) :=
  if (w.tasks k).isSome then none else some (w.spawn k pc)

/-- What one act makes of the world; `none` where it cannot happen. -/
def act (w : World P K) : Act P K → Option (World P K)
  | .boot k =>
    if w.store.boot ≠ .down then none
    else
      match w.store.row with
      | some row => begin_ { w with store := { w.store with boot := .restoring } } k (.restoring .boot row)
      | none => some { w with store := w.store.apply .booted }
  | .grant k g => if w.store.boot = .up then begin_ w k (.granting g) else none
  | .retry k => if w.store.boot = .up then w.store.suspended.bind fun held => begin_ w k (.restoring .retry held) else none
  | .config k cfg => if w.store.live.isSome then begin_ w k (.queued cfg) else none
  | .detach k => if w.store.boot = .up ∧ w.store.live.isSome then begin_ w k .ordered else none
  | .settle k a => (outcome coordPubkey fingerprint w k a).map fun o => rules.advance w k o.1 o.2
  | .crash => some (.fresh w.store.crashed)
  | .crashDuring k a n =>
    (outcome coordPubkey fingerprint w k a).map fun o => .fresh ((rules (P := P)).run w.store (o.1.take n)).crashed

def Step (w : World P K) (x : Act P K) (w' : World P K) : Prop := act coordPubkey fingerprint w x = some w'

end Nostrautica.Installs
