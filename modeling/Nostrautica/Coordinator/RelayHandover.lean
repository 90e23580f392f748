/-
The relays of one event (`coordinator/src/coordinator.ts`): how a live 31600
records a candidate (`applyConfigUpdate`), and how the candidate is proven and
promoted (`beginRelayHandover`, `promoteRelays`, `retryRelayHandovers`).

A handler runs on without interruption to its next await; a 31600 is applied
under the event's config lock. 31600s here are of the event's own key and `d`,
and parse.
-/
import Nostrautica.Net.RelayUrls
import Nostrautica.Transition.Run
import Nostrautica.Transition.Tasks

namespace Nostrautica.RelayHandover

open Tasks

/-- A 31600. `attached` is that it names this coordinator at the generation installed. -/
structure Config (U : Type*) where
  id : Nat
  created_at : Nat
  attached : Bool
  relays : List U

/-- The row of `events`. -/
structure EventRow (U : Type*) where
  config_relays : List U
  pending_relays : Option (List U)

/-- `EventState`. -/
structure EventState (U : Type*) where
  configRelays : List U
  configEventId : Nat
  configCreatedAt : Nat

/-- A change of the live relays by `promoteRelays`: from, to, and the valid
relays of the newest 31600 applied. -/
structure Promotion (U : Type*) where
  before : List U
  after : List U
  newest : List U

/-- The row, the state in `this.events`, and for the record: the newest 31600
applied, the valid relays of the newest that names any, and the promotions. -/
structure Store (U : Type*) where
  row : Option (EventRow U)
  live : Option (EventState U)
  newest : Config U
  named : Option (List U)
  promotions : List (Promotion U)

inductive Effect (U : Type*)
  /-- `upsertEvent` of a 31600 applied, with the relays it persists. -/
  | upsertConfig (cfg : Config U) (relays : List U)
  /-- The state takes a 31600. -/
  | configApplied (cfg : Config U)
  | setPendingRelays (relays : List U)
  | clearPendingRelays
  /-- `state.configRelays = candidate`. -/
  | configRelays (relays : List U)
  /-- `upsertEvent` of a promotion. -/
  | upsertRelays (relays : List U)
  | detachEvent

/-- `supersedes`: newer, or as new with a lower id. -/
def supersedes (createdAt id createdAt' id' : Nat) : Bool := createdAt > createdAt' || createdAt = createdAt' && id < id'

variable {U : Type*} [LinearOrder U] (policy : RelayPolicy U)

/-- The valid relays of a 31600. -/
def Config.valid (cfg : Config U) : List U := policy.sanitizeRelayUrls cfg.relays

namespace Store

/-- A 31600 is the newest applied. -/
def withNewest (s : Store U) (cfg : Config U) : Store U :=
  { s with newest := cfg, named := if cfg.valid policy = [] then s.named else some (cfg.valid policy) }

def apply (s : Store U) : Effect U → Store U
  | .upsertConfig cfg relays =>
    { s.withNewest policy cfg with row := s.row.map fun row => { row with config_relays := relays } }
  | .configApplied cfg =>
    { s with live := s.live.map fun st => { st with configEventId := cfg.id, configCreatedAt := cfg.created_at } }
  | .setPendingRelays relays => { s with row := s.row.map fun row => { row with pending_relays := some relays } }
  | .clearPendingRelays => { s with row := s.row.map fun row => { row with pending_relays := none } }
  | .configRelays relays =>
    { s with
      live := s.live.map fun st => { st with configRelays := relays }
      promotions := s.promotions ++ s.live.toList.map fun st => ⟨st.configRelays, relays, s.newest.valid policy⟩ }
  | .upsertRelays relays => { s with row := s.row.map fun row => { row with config_relays := relays } }
  | .detachEvent => { s with row := none, live := none }

/-- `getPendingRelays`. -/
def pending (s : Store U) : Option (List U) := s.row.bind (·.pending_relays)

/-- `isPendingCandidate`. -/
def isPendingCandidate (s : Store U) (candidate : List U) : Bool :=
  s.pending.any fun pending => relayKey pending = relayKey candidate

end Store

/-! ## Handlers -/

/-- Where a handler waits. -/
inductive Pc (U : Type*)
  /-- A 31600, for the config lock. -/
  | queued (cfg : Config U)
  /-- The effects of a 31600 applied; `candidate` is the handover it asks for. -/
  | effects (candidate : Option (List U))
  /-- `await this.probeRelays(candidate)`. -/
  | probing (candidate : List U)
  /-- `await this.catchUpInboxOnRelays(state, candidate)`. -/
  | catchingUp (candidate : List U)

/-- What a handler does: its effects, and where it waits next. -/
abbrev Outcome (U : Type*) := List (Effect U) × Option (Pc U)

/-- `beginRelayHandover`, up to its first await. -/
def beginRelayHandover (s : Store U) (candidate : List U) : Outcome U :=
  ([], if s.isPendingCandidate candidate then some (.probing candidate) else none)

/-- `promoteRelays`. -/
def promoteRelays (s : Store U) (candidate : List U) : List (Effect U) :=
  if s.isPendingCandidate candidate then [.configRelays candidate, .upsertRelays candidate, .clearPendingRelays] else []

/-- `applyConfigUpdate`, up to its effects. -/
def applyConfigUpdate (s : Store U) (cfg : Config U) : Outcome U :=
  match s.live with
  | none => ([], none)
  | some st =>
    if !supersedes cfg.created_at cfg.id st.configCreatedAt st.configEventId then ([], none)
    else if !cfg.attached then ([.detachEvent], none)
    else
      let configRelays := cfg.valid policy
      let candidateRelays := if configRelays = [] then st.configRelays else configRelays
      if relayKey st.configRelays ≠ relayKey candidateRelays then
        ([.upsertConfig cfg st.configRelays, .configApplied cfg, .setPendingRelays candidateRelays],
          some (.effects (some candidateRelays)))
      else ([.upsertConfig cfg candidateRelays, .configApplied cfg], some (.effects none))

/-- One event's turn in `retryRelayHandovers`. -/
def retryRelayHandovers (s : Store U) : Outcome U :=
  match s.pending with
  | none => ([], none)
  | some candidate =>
    match s.live with
    | none => ([.clearPendingRelays], none)
    | some st =>
      if relayKey candidate = relayKey st.configRelays then ([.clearPendingRelays], none)
      else beginRelayHandover s candidate

/-- A handler goes on; `ok` is that the probe answered, or that the catch-up did not throw. -/
def settle (s : Store U) (pc : Pc U) (ok : Bool) : Outcome U :=
  match pc with
  | .queued cfg => applyConfigUpdate policy s cfg
  | .effects none => ([], none)
  | .effects (some candidate) => if s.live.isSome then beginRelayHandover s candidate else ([], none)
  | .probing candidate => ([], if ok && s.isPendingCandidate candidate then some (.catchingUp candidate) else none)
  | .catchingUp candidate => (if ok then promoteRelays s candidate else [], none)

/-- The config lock. -/
def rules : Rules Nat Unit (Store U) (Effect U) (Pc U) where
  apply := Store.apply policy
  held
    | _, .effects _ => some ()
    | _, _ => none
  wanted
    | _, .queued _ => some ()
    | _, _ => none

/-- The store, and the handlers under way. -/
abbrev World (U : Type*) := Tasks.World Nat Unit (Store U) (Pc U)

inductive Act (U : Type*)
  /-- `handleConfigUpdate` is called. -/
  | config (k : Nat) (cfg : Config U)
  /-- `retryRelayHandovers` comes to the event. -/
  | retry (k : Nat)
  /-- A handler goes on. -/
  | settle (k : Nat) (ok : Bool)
  /-- The process ends while every handler waits. -/
  | crash
  /-- The process ends after some effects of a handler that went on. -/
  | crashDuring (k : Nat) (ok : Bool) (n : Nat)
  /-- After a restart the event is live again, `cfg` being the newest 31600 fetched. -/
  | restore (cfg : Config U) (defaultRelays : List U)

/-- The relays an event is restored with. -/
def restoredRelays (row : EventRow U) (defaultRelays : List U) : List U :=
  let relays := policy.sanitizeRelayUrls row.config_relays
  if relays = [] then defaultRelays else relays

/-- The newest 31600 applied, once `cfg` is. -/
def Store.newestWith (s : Store U) (cfg : Config U) : Store U :=
  if supersedes cfg.created_at cfg.id s.newest.created_at s.newest.id then s.withNewest policy cfg else s

/-- `installEvent` of a stored event, with a 31600 that still names this coordinator. -/
def restored (s : Store U) (row : EventRow U) (cfg : Config U) (defaultRelays : List U) : Store U :=
  let relays := restoredRelays policy row defaultRelays
  { s.newestWith policy cfg with
    row := some { row with config_relays := relays }
    live := some ⟨relays, cfg.id, cfg.created_at⟩ }

/-- What a handler does next, where its lock is free. -/
def outcome (w : World U) (k : Nat) (ok : Bool) : Option (Outcome U) :=
  (w.tasks k).bind fun pc => if (rules policy).ready w k pc then some (settle policy w.store pc ok) else none

/-- What one act makes of the world; `none` where it cannot happen. -/
def act (w : World U) : Act U → Option (World U)
  | .config k cfg => if (w.tasks k).isSome then none else some (w.spawn k (.queued cfg))
  | .retry k =>
    if (w.tasks k).isSome then none
    else
      let (es, next) := retryRelayHandovers w.store
      some ((rules policy).advance w k es next)
  | .settle k ok => (outcome policy w k ok).map fun o => (rules policy).advance w k o.1 o.2
  | .crash => some (.fresh { w.store with live := none })
  | .crashDuring k ok n =>
    (outcome policy w k ok).map fun o => .fresh { (rules policy).run w.store (o.1.take n) with live := none }
  | .restore cfg defaultRelays =>
    match w.store.row, w.store.live with
    | some row, none =>
      some { w with store := if cfg.attached then restored policy w.store row cfg defaultRelays else w.store.apply policy .detachEvent }
    | _, _ => none

def Step (w : World U) (x : Act U) (w' : World U) : Prop := act policy w x = some w'

/-- An event as a grant installed it, on the relays of the grant. -/
def installed (relays : List U) (cfg : Config U) : Store U where
  row := some ⟨relays, none⟩
  live := some ⟨relays, cfg.id, cfg.created_at⟩
  newest := cfg
  named := if cfg.valid policy = [] then none else some (cfg.valid policy)
  promotions := []

end Nostrautica.RelayHandover
