/-
Attaching and detaching a coordinator from the devices of one account: `attachCoordinator`,
`detachCoordinator`, `rotateEckAndInbox` and `writeEventKeysBackup` of
`app/src/lib/events/organizer.ts`, of one event.

A call that throws, or whose device crashes, is dropped. A config or a backup that is published
is on the relays at once or waits in the outbox of the device. A read gives any version that the
relays hold; one that `assertConfigNotStale` refuses is a call that is dropped. The detach command,
the revocations of a grant, the roster work of a rotation and the other fields of the config are
left out.

The generations of the attaches of an account. A call builds on the greater of what its device's
record and the config that it reads name, and neither need name the last one: the record is
written after the publishes and by one device only, and a config loses its tag or is an older one.
-/
import Nostrautica.App.Keystore
import Nostrautica.Transition.Run

namespace Nostrautica.Attach

open Js Membership Keystore

variable {K Dev : Type} [DecidableEq K] [DecidableEq Dev]

/-- What the calls read of a 31600. -/
structure Config where
  inbox : JsString
  coordinator : Option JsString := none
  coordinatorGen : Option Nat := none
  eck : Nat
  deriving DecidableEq

/-- The coordinator grant (21603). -/
structure Grant (K : Type) where
  coordinator : JsString
  gen : Nat
  inbox_nsec : JsString
  eck : List (EckVersion K)
  prev_coordinator : Option JsString := none
  deriving DecidableEq

/-- `keysAsBackup(keys, coordinate, coordinatorGen)`, where the record has both secrets. -/
def keysAsBackup (keys : EventKeys K) (coordinatorGen : Nat) : Option (EventKeysBackup K) := do
  let backup ← localBackup keys
  some { backup with
    coordinator_gen := max coordinatorGen keys.coordinatorGen
    prior_einbox_nsecs := sliceLast maxPriorInboxes keys.priorEinboxNsecs
    co_organizers := keys.coOrganizers.take maxOrganizers
    revoked := sliceLast maxRevoked keys.revoked }

/-- `foldBackupIntoKeys(keys, merged)`: the record after it. -/
def foldBackupIntoKeys (fingerprint : K → Nat) (keys : EventKeys K) (merged : EventKeysBackup K) : EventKeys K :=
  let eck := unionEck fingerprint keys.eck merged.eck
  let inboxes := (keys.einboxNsecHex.toList ++ merged.einbox_nsec :: keys.priorEinboxNsecs ++ merged.prior_einbox_nsecs).eraseDups
  { keys with
    eck := eck
    pendingEck := unionPending fingerprint eck keys.pendingEck merged.pending_eck
    einboxNsecHex := some merged.einbox_nsec
    priorEinboxNsecs := inboxes.filter (· ≠ merged.einbox_nsec)
    coordinatorGen := max keys.coordinatorGen merged.coordinator_gen
    coOrganizers := (keys.coOrganizers ++ merged.co_organizers).eraseDups
    revoked := sliceLast maxRevoked (merged.revoked ++ keys.revoked).eraseDups }

/-- `custodyIsStale(cfg, keys)`. -/
def custodyIsStale (d : Deps K) (config : Config) (keys : EventKeys K) : Prop :=
  let heldInboxes := (keys.einboxNsecHex.toList ++ keys.priorEinboxNsecs).map d.inboxPubkeyOf
  (heldInboxes ≠ [] ∧ config.inbox ∉ heldInboxes) ∨ maxId (unionEck d.fingerprint keys.eck keys.pendingEck) < config.eck

instance decidableCustodyIsStale (d : Deps K) (config : Config) (keys : EventKeys K) : Decidable (custodyIsStale d config keys) :=
  inferInstanceAs (Decidable ((_ ∧ _) ∨ _))

/-- The record that `rotateEckAndInbox` stages a version and an inbox in. -/
def stageRotation (d : Deps K) (keys : EventKeys K) (new : EckVersion K) (newInboxNsecHex : JsString) : EventKeys K :=
  { keys with
    priorEinboxNsecs := keys.priorEinboxNsecs ++ keys.einboxNsecHex.toList
    einboxNsecHex := some newInboxNsecHex
    pendingEck := unionEck d.fingerprint keys.pendingEck [new] }

/-- `promotePending(keys, used)`. -/
def promotePending (d : Deps K) (keys : EventKeys K) (used : EckVersion K) : EventKeys K :=
  if used ∈ keys.pendingEck then
    { keys with
      eck := unionEck d.fingerprint keys.eck (keys.pendingEck.filter (·.id ≤ used.id))
      pendingEck := keys.pendingEck.filter (·.id > used.id) }
  else keys

/-! ## Calls -/

inductive Job
  | attachCoordinator (coordinatorPubkey : JsString)
  | detachCoordinator
  deriving DecidableEq

/-- Where a call stands. -/
inductive Phase (K : Type)
  /-- The record is loaded. -/
  | loaded
  /-- The config is read and its custody is current. -/
  | checked
  /-- A version and an inbox are staged in the record. -/
  | staged (new : EckVersion K)
  /-- The version is current; the backup is next. -/
  | promoted
  | rotated
  /-- The config and the grant are published; the record is next. -/
  | published
  /-- The record is saved; the backup is next. -/
  | saved
  deriving DecidableEq

/-- A call under way. -/
structure Call (K Dev : Type) where
  dev : Dev
  job : Job
  /-- The record in memory. -/
  keys : EventKeys K
  phase : Phase K := .loaded
  /-- The config that it has read. -/
  current : Config
  /-- `Math.max(keys.coordinatorGen ?? 0, current.coordinatorGen ?? 0)`, of the record as it was loaded. -/
  base : Nat := 0
  einboxNsecHex : JsString := []
  eck : List (EckVersion K) := []
  deriving DecidableEq

/-- `gen`. -/
def Call.gen (c : Call K Dev) : Nat := c.base + 1

/-- `replacing`. -/
def Call.replacing (c : Call K Dev) (coordinatorPubkey : JsString) : Prop :=
  c.current.coordinator ≠ none ∧ c.current.coordinator ≠ some coordinatorPubkey

instance decidableReplacing (c : Call K Dev) (coordinatorPubkey : JsString) : Decidable (c.replacing coordinatorPubkey) :=
  inferInstanceAs (Decidable (_ ∧ _))

/-- The call rotates the keys before it publishes. -/
def Call.rotates (c : Call K Dev) : Bool :=
  match c.job with
  | .attachCoordinator coordinatorPubkey => c.replacing coordinatorPubkey
  | .detachCoordinator => true

/-- A call comes to its publishes from here. -/
def Call.ready (c : Call K Dev) : Bool := if c.rotates then c.phase = .rotated else c.phase = .checked

/-- The config that an attach signs. -/
def Call.attached (d : Deps K) (c : Call K Dev) (coordinatorPubkey : JsString) : Config :=
  { inbox := if c.replacing coordinatorPubkey then d.inboxPubkeyOf c.einboxNsecHex else c.current.inbox
    coordinator := some coordinatorPubkey
    coordinatorGen := some c.gen
    eck := max c.current.eck (maxId c.eck) }

/-- The config that a detach signs. -/
def Call.detached (d : Deps K) (c : Call K Dev) : Config :=
  { inbox := d.inboxPubkeyOf c.einboxNsecHex
    eck := max c.current.eck (maxId c.eck) }

/-- The grant that an attach wraps. -/
def Call.grant (c : Call K Dev) (coordinatorPubkey : JsString) : Grant K :=
  { coordinator := coordinatorPubkey
    gen := c.gen
    inbox_nsec := c.einboxNsecHex
    eck := c.eck
    prev_coordinator := if c.replacing coordinatorPubkey then c.current.coordinator else none }

/-! ## The account -/

/-- A grant and a tag that an attach has made, and the generations that had reached a relay by then. -/
structure Made where
  gen : Nat
  reached : List Nat
  deriving DecidableEq

structure World (K Dev : Type) where
  records : Dev → Option (EventKeys K) := fun _ => none
  /-- The versions of the 31600, of the backup and the grants that the relays hold. -/
  configs : List Config := []
  backups : List (EventKeysBackup K) := []
  grants : List (Grant K) := []
  /-- What waits in the outboxes. -/
  queuedConfigs : List Config := []
  queuedBackups : List (EventKeysBackup K) := []
  queuedGrants : List (Grant K) := []
  calls : List (Call K Dev) := []
  /-- The attaches that have come to their publishes, in this order. -/
  made : List Made := []

/-- The generations of the tags and the grants that have reached a relay. -/
def World.reached (s : World K Dev) : List Nat := s.configs.filterMap (·.coordinatorGen) ++ s.grants.map (·.gen)

inductive Act (K Dev : Type)
  | call (dev : Dev) (job : Job)
  /-- `freshConfig` and `assertCurrentCustody`. -/
  | read (i : Nat) (config : Config)
  | stage (i : Nat) (new : EckVersion K) (newInboxNsecHex : JsString)
  | promote (i : Nat)
  /-- `writeEventKeysBackup`, which has read one of the versions on the relays or nothing. -/
  | backup (i : Nat) (remote : Option Nat) (accepted : Bool)
  /-- No backup is written: there is no blinding key, or it throws. -/
  | skipBackup (i : Nat)
  | publish (i : Nat) (configAccepted grantAccepted : Bool)
  | save (i : Nat)
  /-- The call throws or its device crashes. -/
  | drop (i : Nat)
  /-- An outbox is flushed. -/
  | deliverConfig (j : Nat)
  | deliverBackup (j : Nat)
  | deliverGrant (j : Nat)

variable (d : Deps K)

/-- The start of a call: `loadEventKeys`, and the keys that it asks for. -/
def begin_ (s : World K Dev) (dev : Dev) (job : Job) : Option (World K Dev) := do
  let keys ← s.records dev
  if keys.role = .organizer ∧ keys.eidNsecHex.isSome ∧ (job ≠ .detachCoordinator → keys.einboxNsecHex.isSome) then
    some { s with calls := s.calls ++ [{ dev := dev, job := job, keys := keys, current := { inbox := [], eck := 0 } }] }
  else none

/-- The call `i` goes on as `c`. -/
def World.goOn (s : World K Dev) (i : Nat) (c : Call K Dev) : World K Dev := { s with calls := s.calls.set i c }

/-- The call `i` goes on as `c`, and has saved its record. -/
def World.saveRecord (s : World K Dev) (i : Nat) (c : Call K Dev) (keys : EventKeys K) : World K Dev :=
  { s.goOn i c with records := Function.update s.records c.dev (some keys) }

/-- What comes after the backup of a call. -/
def World.afterBackup (s : World K Dev) (i : Nat) (c : Call K Dev) : World K Dev :=
  if c.phase = .promoted then s.goOn i { c with phase := .rotated } else { s with calls := s.calls.eraseIdx i }

/-- `writeEventKeysBackup(organizer, coordinate, keys, blindingKey, coordinatorGen)`. -/
def writeBackup (s : World K Dev) (i : Nat) (c : Call K Dev) (coordinatorGen : Nat) (remote : Option (EventKeysBackup K))
    (accepted : Bool) : Option (World K Dev) := do
  let own ← keysAsBackup c.keys coordinatorGen
  let backup := remote.elim own fun remote => mergeEventKeysBackups d.fingerprint d.inboxPubkey own remote none
  let keys := if remote.isSome then foldBackupIntoKeys d.fingerprint c.keys backup else c.keys
  let saved := if keys = c.keys then s else s.saveRecord i c keys
  let t := saved.afterBackup i { c with keys := keys }
  some (if accepted then { t with backups := t.backups ++ [backup] } else { t with queuedBackups := t.queuedBackups ++ [backup] })

/-- The config goes to the relays, or to the outbox. -/
def World.sendConfig (s : World K Dev) (config : Config) (accepted : Bool) : World K Dev :=
  if accepted then { s with configs := s.configs ++ [config] } else { s with queuedConfigs := s.queuedConfigs ++ [config] }

/-- The grant goes to the relays, or to the outbox. -/
def World.sendGrant (s : World K Dev) (grant : Grant K) (accepted : Bool) : World K Dev :=
  if accepted then { s with grants := s.grants ++ [grant] } else { s with queuedGrants := s.queuedGrants ++ [grant] }

def act (s : World K Dev) : Act K Dev → Option (World K Dev)
  | .call dev job => begin_ s dev job
  | .read i config => do
    let c ← s.calls[i]?
    if c.phase = .loaded ∧ config ∈ s.configs ∧ ¬custodyIsStale d config c.keys ∧
        (c.job = .detachCoordinator → config.coordinator ≠ none) then
      some (s.goOn i { c with
        phase := .checked
        current := config
        base := max c.keys.coordinatorGen (config.coordinatorGen.getD 0)
        einboxNsecHex := c.keys.einboxNsecHex.getD []
        eck := c.keys.eck })
    else none
  | .stage i new newInboxNsecHex => do
    let c ← s.calls[i]?
    if c.phase = .checked ∧ c.rotates = true then
      let keys := stageRotation d c.keys new newInboxNsecHex
      let c := { c with einboxNsecHex := newInboxNsecHex, eck := unionEck d.fingerprint c.keys.eck [new] }
      some (s.saveRecord i { c with keys := keys, phase := .staged new } keys)
    else none
  | .promote i => do
    let c ← s.calls[i]?
    match c.phase with
    | .staged new =>
      let keys := promotePending d c.keys new
      some (s.saveRecord i { c with keys := keys, phase := .promoted } keys)
    | _ => none
  | .backup i remote accepted => do
    let c ← s.calls[i]?
    let remote := remote.bind (s.backups[·]?)
    if c.phase = .promoted then writeBackup d s i c c.keys.coordinatorGen remote accepted
    else if c.phase = .saved then writeBackup d s i c c.gen remote accepted
    else none
  | .skipBackup i => do
    let c ← s.calls[i]?
    if c.phase = .promoted ∨ c.phase = .saved then some (s.afterBackup i c) else none
  | .publish i configAccepted grantAccepted => do
    let c ← s.calls[i]?
    if c.ready then
      match c.job with
      | .attachCoordinator coordinatorPubkey =>
        let t := s.goOn i { c with phase := .published }
        let t := (t.sendConfig (c.attached d coordinatorPubkey) configAccepted).sendGrant (c.grant coordinatorPubkey) grantAccepted
        some { t with made := s.made ++ [⟨c.gen, s.reached⟩] }
      | .detachCoordinator =>
        some (({ s with calls := s.calls.eraseIdx i } : World K Dev).sendConfig (c.detached d) configAccepted)
    else none
  | .save i => do
    let c ← s.calls[i]?
    if c.phase = .published then
      some (s.saveRecord i { c with phase := .saved } { c.keys with coordinatorGen := c.gen })
    else none
  | .drop i => if i < s.calls.length then some { s with calls := s.calls.eraseIdx i } else none
  | .deliverConfig j => do
    let config ← s.queuedConfigs[j]?
    some { s with queuedConfigs := s.queuedConfigs.eraseIdx j, configs := s.configs ++ [config] }
  | .deliverBackup j => do
    let backup ← s.queuedBackups[j]?
    some { s with queuedBackups := s.queuedBackups.eraseIdx j, backups := s.backups ++ [backup] }
  | .deliverGrant j => do
    let grant ← s.queuedGrants[j]?
    some { s with queuedGrants := s.queuedGrants.eraseIdx j, grants := s.grants ++ [grant] }

def Step (s : World K Dev) (x : Act K Dev) (t : World K Dev) : Prop := act d s x = some t

/-! ## Steps of an attach -/

variable {K Dev : Type} [DecidableEq K] [DecidableEq Dev] {d : Deps K} {s t : World K Dev} {x : Act K Dev}

/-- Every attach has a generation of its own, greater than those of the attaches that had reached a relay when it was made. -/
def Fresh (made : List Made) : Prop := made.Pairwise (fun a b => a.gen ≠ b.gen) ∧ ∀ m ∈ made, ∀ g ∈ m.reached, g < m.gen

/-- What an attach builds on, the greater of the generations that the record it loaded and the
config it read name, is that of every attach that has reached a relay or greater, and is not the
one before that of an attach that is only queued. -/
def BuildsOn (s : World K Dev) (base : Nat) : Prop := (∀ g ∈ s.reached, g ≤ base) ∧ ∀ m ∈ s.made, m.gen ≠ base + 1

/-- The condition on a step: an attach that comes to its publishes builds on what has been made before. -/
def Timely (s : World K Dev) : Act K Dev → Prop
  | .publish i _ _ => ∀ c ∈ s.calls[i]?, c.job ≠ .detachCoordinator → BuildsOn s c.base
  | _ => True

/-! ## Steps -/

section Frames

variable {i : Nat} {c : Call K Dev}

@[simp] theorem made_goOn : (s.goOn i c).made = s.made := rfl

@[simp] theorem made_saveRecord {keys : EventKeys K} : (s.saveRecord i c keys).made = s.made := rfl

@[simp] theorem made_afterBackup : (s.afterBackup i c).made = s.made := by
  unfold World.afterBackup
  split <;> rfl

@[simp] theorem made_sendConfig {config : Config} {accepted : Bool} : (s.sendConfig config accepted).made = s.made := by
  unfold World.sendConfig
  split <;> rfl

theorem made_writeBackup {coordinatorGen : Nat} {remote : Option (EventKeysBackup K)} {accepted : Bool}
    (h : writeBackup d s i c coordinatorGen remote accepted = some t) : t.made = s.made := by
  obtain ⟨own, _, h⟩ := Option.bind_eq_some_iff.mp h
  have hsaved : ∀ (p : Prop) [Decidable p] (keys : EventKeys K), (if p then s else s.saveRecord i c keys).made = s.made := by
    intro p _ keys
    split <;> rfl
  cases h
  cases accepted <;> simp [hsaved]

end Frames

/-- Only an attach that comes to its publishes makes a generation. -/
theorem made_act (h : act d s x = some t) :
    (t.made = s.made ∧ Timely s x) ∨ ∃ i configAccepted grantAccepted c, x = .publish i configAccepted grantAccepted ∧ s.calls[i]? = some c ∧
      c.job ≠ .detachCoordinator ∧ t.made = s.made ++ [⟨c.gen, s.reached⟩] := by
  cases x with
  | call dev job =>
    obtain ⟨keys, _, h⟩ := Option.bind_eq_some_iff.mp h
    split at h
    · cases h
      exact .inl ⟨rfl, trivial⟩
    · cases h
  | read i config =>
    obtain ⟨c, _, h⟩ := Option.bind_eq_some_iff.mp h
    split at h
    · cases h
      exact .inl ⟨rfl, trivial⟩
    · cases h
  | stage i new newInboxNsecHex =>
    obtain ⟨c, _, h⟩ := Option.bind_eq_some_iff.mp h
    split at h
    · cases h
      exact .inl ⟨rfl, trivial⟩
    · cases h
  | promote i =>
    obtain ⟨c, _, h⟩ := Option.bind_eq_some_iff.mp h
    split at h
    · cases h
      exact .inl ⟨rfl, trivial⟩
    · cases h
  | backup i remote accepted =>
    obtain ⟨c, _, h⟩ := Option.bind_eq_some_iff.mp h
    split at h
    · exact .inl ⟨made_writeBackup h, trivial⟩
    · split at h
      · exact .inl ⟨made_writeBackup h, trivial⟩
      · cases h
  | skipBackup i =>
    obtain ⟨c, _, h⟩ := Option.bind_eq_some_iff.mp h
    split at h
    · cases h
      exact .inl ⟨made_afterBackup, trivial⟩
    · cases h
  | publish i configAccepted grantAccepted =>
    obtain ⟨c, hc, h⟩ := Option.bind_eq_some_iff.mp h
    split at h
    · split at h
      · next coordinatorPubkey hjob =>
        cases h
        exact .inr ⟨i, configAccepted, grantAccepted, c, rfl, hc, by simp [hjob], rfl⟩
      · next hjob =>
        cases h
        refine .inl ⟨made_sendConfig, ?_⟩
        rintro c' hc' hattach
        cases hc.symm.trans hc'
        exact absurd hjob hattach
    · cases h
  | save i =>
    obtain ⟨c, _, h⟩ := Option.bind_eq_some_iff.mp h
    split at h
    · cases h
      exact .inl ⟨rfl, trivial⟩
    · cases h
  | drop i =>
    simp only [act] at h
    split at h
    · cases h
      exact .inl ⟨rfl, trivial⟩
    · cases h
  | deliverConfig j =>
    obtain ⟨c, _, h⟩ := Option.bind_eq_some_iff.mp h
    cases h
    exact .inl ⟨rfl, trivial⟩
  | deliverBackup j =>
    obtain ⟨c, _, h⟩ := Option.bind_eq_some_iff.mp h
    cases h
    exact .inl ⟨rfl, trivial⟩
  | deliverGrant j =>
    obtain ⟨c, _, h⟩ := Option.bind_eq_some_iff.mp h
    cases h
    exact .inl ⟨rfl, trivial⟩

theorem fresh_append {made : List Made} {m : Made} :
    Fresh (made ++ [m]) ↔ Fresh made ∧ (∀ g ∈ m.reached, g < m.gen) ∧ ∀ a ∈ made, a.gen ≠ m.gen := by
  simp only [Fresh, List.pairwise_append, List.pairwise_singleton, List.mem_singleton, forall_eq, List.mem_append, true_and]
  constructor
  · rintro ⟨⟨hpair, hne⟩, hall⟩
    exact ⟨⟨hpair, fun a ha => hall a (.inl ha)⟩, hall m (.inr rfl), hne⟩
  · rintro ⟨⟨hpair, hold⟩, hnew, hne⟩
    refine ⟨⟨hpair, hne⟩, ?_⟩
    rintro a (ha | rfl)
    · exact hold a ha
    · exact hnew

/-- A step keeps the generations fresh just when an attach builds on those before. -/
theorem fresh_step (h : Step d s x t) : Fresh t.made ↔ Fresh s.made ∧ Timely s x := by
  rcases made_act h with ⟨hmade, htimely⟩ | ⟨i, configAccepted, grantAccepted, c, rfl, hc, hjob, hmade⟩
  · rw [hmade]
    exact ⟨fun hf => ⟨hf, htimely⟩, fun hf => hf.1⟩
  · rw [hmade, fresh_append]
    simp only [Timely, hc, Option.mem_some_iff, forall_eq', hjob, ne_eq, not_false_eq_true, true_implies, BuildsOn, Call.gen, Nat.lt_succ_iff]

/-! ## Runs -/

/-- An account before any call: what its devices and the relays hold. -/
def World.start (records : Dev → Option (EventKeys K)) (configs : List Config) (backups : List (EventKeysBackup K))
    (grants : List (Grant K)) : World K Dev :=
  { records := records, configs := configs, backups := backups, grants := grants }

/-- **The attaches of an account have fresh generations just when each builds on those before it.** -/
theorem attaches_fresh_iff {records : Dev → Option (EventKeys K)} {configs : List Config} {backups : List (EventKeysBackup K)}
    {grants : List (Grant K)} {acts : List (Act K Dev)} (h : Run (Step d) (World.start records configs backups grants) acts t) :
    Fresh t.made ↔ Run (fun s x t => Step d s x t ∧ Timely s x) (World.start records configs backups grants) acts t := by
  have hiff := h.holds_iff (I := fun _ => True) (Q := fun s => Fresh s.made) (G := Timely)
    (fun h₁ h₂ => Option.some.inj (h₁.symm.trans h₂)) (fun _ _ => trivial) (fun _ hx => fresh_step hx) trivial
  exact hiff.trans (and_iff_right ⟨.nil, fun m hm => by cases hm⟩)

namespace Small

def deps : Deps Unit := { fingerprint := fun _ => 0, inboxPubkeyOf := fun s => s, inboxPubkey := some }

/-- The custody that both devices have. -/
def record : EventKeys Unit :=
  { role := .organizer, eck := [⟨1, ()⟩], eidNsecHex := some (js "e"), einboxNsecHex := some (js "i") }

def config : Config := { inbox := js "i", eck := 1 }

/-- Two devices, and a config without a coordinator. -/
def start : World Unit Bool := World.start (fun _ => some record) [config] [] []

/-- An attach by a device whose grant reaches a relay; the config waits in its outbox. -/
def attach (dev : Bool) : List (Act Unit Bool) :=
  [.call dev (.attachCoordinator (js "c")), .read 0 config, .publish 0 false true, .save 0, .skipBackup 0]

theorem made_attach : ((Run.exec (act deps) start (attach true)).map (·.made)) = some [⟨1, []⟩] ∧
    ((Run.exec (act deps) start (attach true ++ attach false)).map (·.made)) = some [⟨1, []⟩, ⟨1, [1]⟩] := by
  decide +kernel

end Small

/-- One attach is as fresh as what it builds on. -/
theorem attaches_fresh_small : ∃ t, Run (Step Small.deps) Small.start (Small.attach true) t ∧ t.made = [⟨1, []⟩] ∧
    (Fresh t.made ↔ Run (fun s x t => Step Small.deps s x t ∧ Timely s x) Small.start (Small.attach true) t) := by
  obtain ⟨t, ht, hmade⟩ := Option.map_eq_some_iff.mp Small.made_attach.1
  exact ⟨t, Run.of_exec ht, hmade, attaches_fresh_iff (Run.of_exec ht)⟩

/-- A grant has reached a relay, and its config has not: the second device, whose record and
config name no generation, takes the same one. -/
theorem attaches_collide : ∃ t, Run (Step Small.deps) Small.start (Small.attach true ++ Small.attach false) t ∧ ¬Fresh t.made := by
  obtain ⟨t, ht, hmade⟩ := Option.map_eq_some_iff.mp Small.made_attach.2
  refine ⟨t, Run.of_exec ht, fun hf => ?_⟩
  rw [hmade] at hf
  exact absurd (hf.2 ⟨1, [1]⟩ (.tail _ (.head _)) 1 (.head _)) (Nat.lt_irrefl 1)

end Nostrautica.Attach
