/-
Writes of an event's 31600 from the app: `updateEventConfig` and `attachCoordinator` of
`app/src/lib/events/organizer.ts`, `setEventParent` and `setCommunityChild` of
`app/src/lib/events/hierarchy.ts`, on one coordinate in the tabs of one browser profile.

A 31600 is the config that it carries, in a build without `VITE_NOSTRAUTICA_RELAYS`. The organizer's
keys are at hand; the detach, the rotation and the grant of an attach are left out but for the inbox
and the ECK versions that they come to, and so are the other rows of the cache.

When config writes keep one another's changes (`writes_keep_iff`): when each event is signed on a
version that was the newest when it was checked, nothing but its own fields has changed since, and
the stamp it gets is past the newest. Nothing holds the address between the check and the
signature, so two writers that pass it together erase each other (`write_undone`).
-/
import Nostrautica.App.Pending
import Nostrautica.App.Tabs
import Nostrautica.Protocol.Config
import Nostrautica.Transition.Prefixes

namespace Nostrautica.ConfigWrites

open Js Cache Config

/-- A 31600. -/
structure Version extends Pending.Stamp where
  config : EventConfig
  deriving DecidableEq

/-- `pickLatest(events)`. -/
def pickLatest (events : List Version) : Option Version :=
  events.foldl (fun best v => if best.all fun b => Pending.supersedes v.toStamp b.toStamp then some v else best) none

/-! ## What an operation changes -/

/-- The `changes` of `updateEventConfig`: the keys that are there. -/
structure Changes where
  talks : Option TalksMode := none
  maxTalkSec : Option Nat := none
  chat : Option (List ChatBackend) := none
  retentionDays : Option (Option Nat) := none
  relays : Option (List JsString) := none

inductive Op
  | updateEventConfig (changes : Changes)
  | setEventParent (parent : Option JsString)
  | setCommunityChild (child : JsString) (present : Bool)
  /-- With the generation in the key record, the inbox that a rotation mints and the ids of the ECK versions then held. -/
  | attachCoordinator (pubkey : JsString) (coordinatorGen : Option Nat) (newInbox : JsString) (eck : List Nat)

/-- `url.trim().replace(/\/+$/, "")`. -/
def normRelay (s : JsString) : JsString := ((trim s).reverse.dropWhile fun c => c.val = 47).reverse

/-- `unionRelays(...lists)`. -/
def unionRelays (lists : List (List JsString)) : List JsString :=
  (lists.flatten.map normRelay).foldl (fun out norm => if norm ≠ [] ∧ norm ∉ out then out ++ [norm] else out) []

section

variable (url : JsString → Option Url)

/-- `chatInteropRelays(eventRelays)`. -/
def chatInteropRelays (eventRelays : List JsString) : List JsString :=
  let localOnly := !eventRelays.isEmpty && eventRelays.all fun relay =>
    (url relay).any fun u => u.hostname = js "localhost" || u.hostname = js "127.0.0.1" || u.hostname = js "::1"
  if localOnly then [] else Config.chatInteropRelays

/-- `next`: the config as the operation leaves it. -/
def next (cfg : EventConfig) : Op → EventConfig
  | .updateEventConfig changes =>
    let chat := changes.chat.getD cfg.chat
    let relays := (changes.relays.map fun relays => unionRelays [relays]).getD cfg.relays
    { cfg with
      talks := changes.talks.getD cfg.talks
      maxTalkSec := changes.maxTalkSec.getD cfg.maxTalkSec
      chat
      retentionDays := changes.retentionDays.getD cfg.retentionDays
      relays
      chatRelays := if chat ≠ [] then unionRelays [cfg.chatRelays, chatInteropRelays url relays] else cfg.chatRelays }
  | .setEventParent parent => { cfg with parent }
  | .setCommunityChild child present =>
    let rest := (cfg.children.getD []).filter (· ≠ child)
    let children := if present then rest ++ [child] else rest
    { cfg with children := if children ≠ [] then some children else none }
  | .attachCoordinator pubkey gen newInbox eck =>
    let replacing := (truthy cfg.coordinator).any (· ≠ pubkey)
    { cfg with
      inbox := if replacing then newInbox else cfg.inbox
      coordinator := some pubkey
      coordinatorGen := some (max (gen.getD 0) (cfg.coordinatorGen.getD 0) + 1)
      eck := eck.foldl max cfg.eck }

end

/-- `configForSpace(cfg, coordinate)`. -/
def configForSpace (cfg : EventConfig) (coordinate : JsString) : EventConfig :=
  { cfg with spaceKind := if hasKind kindCommunity coordinate then some kindCommunity else none }

/-- What the operation refuses before it reads. -/
def Op.refused (coordinate : JsString) : Op → Bool
  | .updateEventConfig changes => changes.relays.any fun relays => unionRelays [relays] = []
  | .setCommunityChild _ _ => !hasKind kindCommunity coordinate
  | _ => false

/-- "Nothing to change": of a link that is as it was. -/
def Op.idle (op : Op) (cfg cfg' : EventConfig) : Bool :=
  match op with
  | .setEventParent _ | .setCommunityChild _ _ => cfg'.children.getD [] = cfg.children.getD [] && cfg'.parent = cfg.parent
  | _ => false

/-- A config but for the fields that the operation changes: its own, and the kind that `configForSpace` writes. -/
def Op.rest (cfg : EventConfig) : Op → EventConfig
  | .updateEventConfig changes => { cfg with
      spaceKind := none
      talks := if changes.talks.isSome then .off else cfg.talks
      maxTalkSec := if changes.maxTalkSec.isSome then 0 else cfg.maxTalkSec
      chat := if changes.chat.isSome then [] else cfg.chat
      retentionDays := if changes.retentionDays.isSome then none else cfg.retentionDays
      relays := if changes.relays.isSome then [] else cfg.relays
      chatRelays := [] }
  | .setEventParent _ => { cfg with spaceKind := none, parent := none }
  | .setCommunityChild _ _ => { cfg with spaceKind := none, children := none }
  | .attachCoordinator _ _ _ _ =>
    { cfg with spaceKind := none, inbox := [], coordinator := none, coordinatorGen := none, eck := 0 }

/-! ## Tabs -/

/-- How far an operation has come. -/
inductive Stage
  | begun
  /-- `fetchNewestSignedConfig` has answered. -/
  | read (v : Version)
  /-- `hasPendingPublishFor` has answered. -/
  | asked (v : Version) (pending : Bool)
  /-- With the newest version that the profile knew then. -/
  | checked (v : Version) (newest : Option Version)
  /-- In `publishMonotonic`, with its `owner`. -/
  | publishing (v : Version) (newest : Option Version) (owner : JsString)
  /-- In `publishOrQueue`, with the owner of the row that it may put. -/
  | signed (v : Version) (owner queueOwner : JsString)

structure Call (τ : Type) where
  tab : τ
  op : Op
  /-- `ctx.configAt`, or 0. -/
  knownAt : Int
  stage : Stage := .begun

/-- A row of the outbox. -/
structure Queued where
  owner : JsString
  version : Version
  failed : Bool := false

/-- A 31600 as it was signed: what it was made of, and the newest version that the profile knew when that was checked
and when the event was signed. -/
structure Signed where
  op : Op
  base : Version
  checked : Option Version
  newest : Option Version
  version : Version

variable {τ : Type} [DecidableEq τ]

structure World (τ : Type) extends Tabs τ Int where
  calls : Nat → Option (Call τ) := fun _ => none
  outbox : List Queued := []
  signed : List Signed := []
  /-- The versions that the profile has signed or read. -/
  known : List Version := []

inductive Act (τ : Type)
  /-- The tab is loaded again. -/
  | boot (t : τ)
  /-- Something else that the cache of the tab does. -/
  | cache (t : τ) (x : Cache.Act Int)
  /-- Another read of the config. -/
  | display (v : Version)
  | begin (i : Nat) (t : τ) (op : Op) (knownAt : Int)
  /-- The latest verified 31600 at the address of those that the relays answered, where there is one that parses. -/
  | read (i : Nat) (answer : Option Version)
  | ask (i : Nat)
  | check (i : Nat)
  | publish (i : Nat)
  /-- `created_at` is reserved, and the event signed and counted, under the lock of the address. -/
  | sign (i : Nat) (now relayAt : Int) (id : JsString)
  /-- `publishOrQueue` has returned: a relay has taken the event, a row was put. -/
  | settle (i : Nat) (accepted queued : Bool)
  /-- A row of the outbox was flushed, parked, retried or discarded. -/
  | flush (t : τ) (k : Nat) (accepted : Bool) (left : Option Bool)
  /-- A call has thrown. -/
  | fail (i : Nat)

/-- `activeCacheOwner() ?? ANON`. -/
def owner (w : World τ) (t : τ) : JsString := (w.pages t).tab.activeOwner.getD anon

/-- A watermark. -/
def watermark (w : World τ) (t : τ) (key owner : JsString) : Int :=
  ((cacheGet (w.pages t).tab key (some owner)).map Entry.data).getD 0

/-- `watermarkKey(address)`. -/
def publishKey (address : JsString) : JsString := js "mono:" ++ address

/-- `acceptedKey(address)`. -/
def acceptedKey (address : JsString) : JsString := js "mono-accepted:" ++ address

/-- A watermark is raised: `cacheSet(key, createdAt, createdAt, owner)`. -/
def raise (w : World τ) (t : τ) (key : JsString) (createdAt : Int) (owner : JsString) : World τ :=
  { w with toTabs := w.store t ((Cache.act (w.view t) (.set key createdAt createdAt (some owner) none)).getD (w.view t)) }

def setCall (w : World τ) (i : Nat) (c : Option (Call τ)) : World τ := { w with calls := Function.update w.calls i c }

/-- `eventAddress(KIND_EVENT_CONFIG, pubkey, identifier)`. -/
def eventAddress (coord : EventCoordinate) : JsString :=
  natToString kindEventConfig ++ js ":" ++ coord.pubkey ++ js ":" ++ coord.identifier

section

variable (url : JsString → Option Url) (coord : EventCoordinate)

/-- The coordinate. -/
def coordinate : JsString := makeCoordinate coord.pubkey coord.identifier coord.kind

/-- `hasPendingPublishFor(KIND_EVENT_CONFIG, pubkey, identifier)`. -/
def hasPendingPublishFor (w : World τ) (t : τ) : Bool :=
  w.outbox.any fun row => some row.owner = (w.pages t).tab.activeOwner && !row.failed

/-- The floor of `assertConfigNotStale`. -/
def floor (w : World τ) (t : τ) (knownAt : Int) (pending : Bool) : Int :=
  max knownAt (max (watermark w t (acceptedKey (eventAddress coord)) (owner w t))
    (if pending then watermark w t (publishKey (eventAddress coord)) (owner w t) else 0))

/-- The `created_at` that `publishMonotonic` has the event signed for. -/
def reserve (w : World τ) (t : τ) (owner : JsString) (now relayAt : Int) : Int :=
  max now (max (watermark w t (publishKey (eventAddress coord)) owner) relayAt + 1)

def act (w : World τ) : Act τ → Option (World τ)
  | .boot t => some { w with
      toTabs := w.boot t
      calls := fun i => (w.calls i).filter (·.tab ≠ t) }
  | .cache t x => (w.other t x).map fun tabs => { w with toTabs := tabs }
  | .display v => some { w with known := w.known ++ [v] }
  | .begin i t op knownAt =>
    if (w.calls i).isSome then none
    else some (setCall w i (if op.refused (coordinate coord) then none else some { tab := t, op, knownAt }))
  | .read i answer =>
    match w.calls i with
    | some ⟨t, op, knownAt, .begun⟩ =>
      match answer with
      | some v => some { setCall w i (some ⟨t, op, knownAt, .read v⟩) with known := w.known ++ [v] }
      | none => some (setCall w i none)
    | _ => none
  | .ask i =>
    match w.calls i with
    | some ⟨t, op, knownAt, .read v⟩ => some (setCall w i (some ⟨t, op, knownAt, .asked v (hasPendingPublishFor w t)⟩))
    | _ => none
  | .check i =>
    match w.calls i with
    | some ⟨t, op, knownAt, .asked v pending⟩ =>
      if v.created_at < floor coord w t knownAt pending ∨ op.idle v.config (next url v.config op) then some (setCall w i none)
      else some (setCall w i (some ⟨t, op, knownAt, .checked v (pickLatest w.known)⟩))
    | _ => none
  | .publish i =>
    match w.calls i with
    | some ⟨t, op, knownAt, .checked v newest⟩ =>
      if (buildCheck (configForSpace (next url v.config op) (coordinate coord))).isSome then some (setCall w i none)
      else some (setCall w i (some ⟨t, op, knownAt, .publishing v newest (owner w t)⟩))
    | _ => none
  | .sign i now relayAt id =>
    match w.calls i with
    | some ⟨t, op, knownAt, .publishing base checked own⟩ =>
      let createdAt := reserve coord w t own now relayAt
      let v : Version := { id, created_at := createdAt, config := configForSpace (next url base.config op) (coordinate coord) }
      let queueOwner := (w.pages t).tab.activeOwner.getD coord.pubkey
      some { raise (setCall w i (some ⟨t, op, knownAt, .signed v own queueOwner⟩)) t (publishKey (eventAddress coord)) createdAt own with
        signed := w.signed ++ [⟨op, base, checked, pickLatest w.known, v⟩]
        known := w.known ++ [v] }
    | _ => none
  | .settle i accepted queued =>
    match w.calls i with
    | some ⟨t, _, _, .signed v own queueOwner⟩ =>
      let w := { setCall w i none with outbox := if queued then w.outbox ++ [⟨queueOwner, v, false⟩] else w.outbox }
      some (if accepted then raise w t (acceptedKey (eventAddress coord)) v.created_at own else w)
    | _ => none
  | .flush t k accepted left =>
    match w.outbox[k]? with
    | some row =>
      let rows := match left with
        | some failed => w.outbox.set k { row with failed }
        | none => w.outbox.eraseIdx k
      let w := { w with outbox := rows }
      some (if accepted then raise w t (acceptedKey (eventAddress coord)) row.version.created_at row.owner else w)
    | none => none
  | .fail i => some (setCall w i none)

def Step (w : World τ) (x : Act τ) (w' : World τ) : Prop := act url coord w x = some w'

end

/-! ## Steps of a write -/

section

variable {url : JsString → Option Url} {coord : EventCoordinate} {τ : Type} [DecidableEq τ] {w w' : World τ} {x : Act τ}
  {disk : Rows Int} {acts : List (Act τ)}

/-- An operation changes its own fields only. -/
theorem rest_next (cfg : EventConfig) (op : Op) (c : JsString) :
    op.rest (configForSpace (next url cfg op) c) = op.rest cfg := by
  cases op with
  | updateEventConfig changes =>
    obtain ⟨talks, maxTalkSec, chat, retentionDays, relays⟩ := changes
    simp only [Op.rest, configForSpace, next, EventConfig.mk.injEq, true_and, and_true]
    refine ⟨?_, ?_, ?_, ?_, ?_⟩
    · cases relays <;> rfl
    · cases maxTalkSec <;> rfl
    · cases talks <;> rfl
    · cases chat <;> rfl
    · cases retentionDays <;> rfl
  | setEventParent parent => rfl
  | setCommunityChild child present => rfl
  | attachCoordinator pubkey gen newInbox eck => rfl

/-- A 31600 as it ought to be: it was made of the newest version known when that was checked, it differs from the newest known
when it was signed in the fields of its own operation only, and it is newer. -/
structure Kept (e : Signed) : Prop where
  checked : e.checked = some e.base
  newest : ∃ v, e.newest = some v ∧ e.op.rest e.version.config = e.op.rest v.config ∧ v.created_at < e.version.created_at

theorem kept_iff {e : Signed} : Kept e ↔ e.checked = some e.base ∧
    (e.newest.any fun v => e.op.rest e.version.config = e.op.rest v.config ∧ v.created_at < e.version.created_at) = true := by
  simp only [Option.any_eq_true, decide_eq_true_eq]
  exact ⟨fun h => ⟨h.checked, h.newest⟩, fun h => ⟨h.1, h.2⟩⟩

instance decidableKept (e : Signed) : Decidable (Kept e) := decidable_of_iff' _ kept_iff

/-- Config writes never undo one another. -/
def Keeps (w : World τ) : Prop := ∀ e ∈ w.signed, Kept e

/-- Where an event is signed, its base was the newest version when it was checked, agrees with the newest one off the fields
of the operation, and the stamp is past the newest. -/
def Fresh (coord : EventCoordinate) (w : World τ) : Act τ → Prop
  | .sign i now relayAt _ => ∀ t op knownAt base checked own,
    w.calls i = some ⟨t, op, knownAt, .publishing base checked own⟩ → checked = some base ∧
      ∃ v, pickLatest w.known = some v ∧ op.rest base.config = op.rest v.config ∧ v.created_at < reserve coord w t own now relayAt
  | _ => True

/-- What a step signs is kept just when it is signed fresh. -/
theorem Step.writes (h : Step url coord w x w') : Run.Writes World.signed Kept (Fresh coord) w x w' := by
  cases x with
  | sign i now relayAt id =>
    simp only [Step, act] at h
    split at h <;> cases h
    next t op knownAt base checked own hi =>
    refine .one rfl ⟨?_, fun hf => ?_⟩
    · rintro ⟨hchecked, v, hv, hrest, hlt⟩ t' op' knownAt' base' checked' own' hi'
      cases hi.symm.trans hi'
      exact ⟨hchecked, v, hv, (rest_next _ _ _).symm.trans hrest, hlt⟩
    · obtain ⟨hchecked, v, hv, hrest, hlt⟩ := hf t op knownAt base checked own hi
      exact ⟨hchecked, v, hv, (rest_next _ _ _).trans hrest, hlt⟩
  | boot t => cases h; exact .nothing rfl trivial
  | cache t x =>
    obtain ⟨tabs, -, rfl⟩ := Option.map_eq_some_iff.1 h
    exact .nothing rfl trivial
  | display v => cases h; exact .nothing rfl trivial
  | begin i t op knownAt =>
    simp only [Step, act] at h
    split at h <;> cases h
    exact .nothing rfl trivial
  | read i answer =>
    simp only [Step, act] at h
    split at h
    · cases answer <;> cases h <;> exact .nothing rfl trivial
    · cases h
  | ask i =>
    simp only [Step, act] at h
    split at h <;> cases h
    exact .nothing rfl trivial
  | check i =>
    simp only [Step, act] at h
    split at h
    · split at h <;> cases h <;> exact .nothing rfl trivial
    · cases h
  | publish i =>
    simp only [Step, act] at h
    split at h
    · split at h <;> cases h <;> exact .nothing rfl trivial
    · cases h
  | settle i accepted queued =>
    simp only [Step, act] at h
    split at h <;> cases h
    exact .nothing (by split <;> rfl) trivial
  | flush t k accepted left =>
    simp only [Step, act] at h
    split at h <;> cases h
    exact .nothing (by split <;> rfl) trivial
  | fail i => cases h; exact .nothing rfl trivial

end

/-! ## Two runs -/

namespace Small

def coord : EventCoordinate := ⟨kindCalendarEvent, List.replicate 64 (codeUnit 97), js "meet"⟩

/-- No URL parses. -/
def url : JsString → Option Url := fun _ => none

def config : EventConfig where
  d := js "meet"
  eidPubkey := List.replicate 64 (codeUnit 97)
  inbox := List.replicate 64 (codeUnit 98)
  relays := []
  chatRelays := []
  blossom := []
  maxVideoSec := 90
  maxTalkSec := 900
  matching := .off
  matchVisibility := .pair
  approval := .manual
  eck := 1
  nostrContext := 0
  lang := js "en"
  talks := .off
  chat := []

def version : Version := ⟨⟨js "a", 100⟩, config⟩

/-- The operation has read the version and passed the check. -/
def checked (i : Nat) (op : Op) : List (Act Unit) := [.begin i () op 0, .read i (some version), .ask i, .check i]

/-- The operation's event is signed and taken by a relay. -/
def signed (i : Nat) (now : Int) (id : String) : List (Act Unit) := [.publish i, .sign i now 100 (js id), .settle i true false]

/-- The events signed, and whether they were kept. -/
def told (w : World Unit) : List (Int × TalksMode × Option Nat) × Bool :=
  (w.signed.map fun e => (e.version.created_at, e.version.config.talks, e.version.config.retentionDays), decide (∀ e ∈ w.signed, Kept e))

end Small

end Nostrautica.ConfigWrites
