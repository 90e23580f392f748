/-
Edits of the private settings of one event: `toggleSetting`, `setNote`, `mutateSettings` and
`readSettings` of `app/src/lib/events/settings.ts`, over `protocol/src/settings-merge.ts`, in the
tabs of one browser profile, which share the document's lock and the store on disk.

The document's ciphertext and address are left out, and so are what `publishOrQueue` does with an
event and the other rows of the cache.
-/
import Nostrautica.App.Tabs
import Nostrautica.Protocol.SettingsMergeFacts

namespace Nostrautica.Settings

open Js Cache SettingsMerge

/-- A row of the cache: the settings, or the publish watermark of their address. -/
inductive Data
  | settings (s : PerEventSettings)
  | mark (createdAt : Int)

/-- `CacheScope`. -/
structure CacheScope where
  owner : Option JsString
  gen : Nat

/-- The account, the event's coordinate and the address of the document. -/
structure Document where
  pubkey : JsString
  coordinate : JsString
  d : JsString

/-- `settingsKey(coordinate)`. -/
def settingsKey (doc : Document) : JsString := js "evsettings:" ++ doc.coordinate

/-- `watermarkKey(eventAddress(KIND_APP_DATA, pubkey, d))`. -/
def watermarkKey (doc : Document) : JsString := js "mono:30078:" ++ doc.pubkey ++ js ":" ++ doc.d

/-- `emptyPerEventSettings()`. -/
def emptyPerEventSettings : PerEventSettings := { clock := some {}, base := some 0 }

/-- What an edit makes of an entry: its stamp, and what is shown of it then. -/
structure Edited where
  slot : Slot
  pubkey : Hex32
  stamp : Nat
  left : Option (Option JsString)

/-- The edit of `editPerEventSettings({ settings, createdAt: 0 }, edit, nowMs)`. -/
def edited (settings : PerEventSettings) (edit : SettingsEdit) (nowMs : Nat) : Edited :=
  let n := SettingsMerge.normalize ⟨settings, 0⟩
  match edit with
  | .toggle f pk =>
    let cur := ((n.lists f).get? pk).getD { present := false, stamp := n.base }
    ⟨.list f, pk, editStamp n cur nowMs, if cur.present then none else some none⟩
  | .note pk text =>
    let cur := (n.notes.get? pk).getD { present := false, stamp := n.base }
    ⟨.notes, pk, editStamp n cur nowMs, if trim text ≠ [] then some (some (trim text)) else none⟩

/-! ## Tabs -/

/-- What the relays answer a read of the settings. -/
inductive Answer
  /-- No event, whether or not a relay has answered. -/
  | nothing (answered : Bool)
  /-- An event, and what is in it if it decrypts. -/
  | version (remote : StampedSettings)

/-- How far a call has come in the lock. -/
inductive Stage
  | locked
  /-- The cached copy was read, and the signer is asked for what is in an event. -/
  | decrypting (own : Option StampedSettings) (remote : StampedSettings)
  | read (settings : PerEventSettings)
  | edited (settings : PerEventSettings) (nowMs : Nat)
  | signed (edit : Edited) (next : PerEventSettings) (createdAt : Int)

structure Call (τ : Type) where
  tab : τ
  scope : CacheScope
  edit : SettingsEdit

/-- Another read of the settings, which waits for the signer. -/
structure Look (τ : Type) where
  tab : τ
  scope : CacheScope
  own : Option StampedSettings
  remote : StampedSettings

structure Holder (τ : Type) extends Call τ where
  stage : Stage := .locked

/-- A document that was signed, or a cached copy that was loaded: with the edits that had resolved and those that were
signed by then, and the versions that were read. -/
structure Shown where
  settings : PerEventSettings
  resolved : List Edited
  edits : List Edited
  versions : List StampedSettings

variable {τ : Type} [DecidableEq τ]

structure World (τ : Type) extends Tabs τ Data where
  looks : Nat → Option (Look τ) := fun _ => none
  waiting : Nat → Option (Call τ) := fun _ => none
  lock : Option (Holder τ) := none
  resolved : List Edited := []
  edits : List Edited := []
  versions : List StampedSettings := []
  documents : List Shown := []

inductive Act (τ : Type)
  /-- The tab is loaded again. -/
  | boot (t : τ)
  /-- Something else that the cache of the tab does. -/
  | cache (t : τ) (x : Cache.Act Data)
  /-- The disk's rows are merged into the mirror of a tab that was loaded. -/
  | hydrate (t : τ)
  /-- Another read of the settings comes to an event. -/
  | look (j : Nat) (t : τ) (scope : CacheScope) (remote : StampedSettings)
  /-- The event decrypts and parses, or does not. -/
  | looked (j : Nat) (decrypted : Bool)
  | begin (i : Nat) (t : τ) (edit : SettingsEdit)
  | acquire (i : Nat)
  | read (answer : Answer)
  | decrypt
  | edit (nowMs : Nat)
  /-- `created_at` is reserved, and the event signed and counted, under the lock of the address. -/
  | sign (now relayAt : Int)
  /-- The event was published or queued: the cache is written, and the call returns. -/
  | record
  /-- The call has thrown. -/
  | fail

/-- `captureScope()`. -/
def captureScope (w : Tabs τ Data) (t : τ) : CacheScope := ⟨(w.pages t).tab.activeOwner, (w.pages t).tab.generation⟩

/-- The settings in a tab's mirror, of an owner. -/
def cached (doc : Document) (tab : Tab Data) (owner : JsString) : Option StampedSettings :=
  match cacheGet tab (settingsKey doc) (some owner) with
  | some ⟨stamp, .settings s⟩ => some ⟨s, stamp⟩
  | _ => none

/-- `cachedPerEventSettings(coordinate)` for the account; without a copy nothing is shown. -/
def cachedPerEventSettings (doc : Document) (tab : Tab Data) : PerEventSettings :=
  ((cached doc tab doc.pubkey).map StampedSettings.settings).getD emptyPerEventSettings

/-- `scopedGet(scope, settingsKey(coordinate))`. -/
def scopedGet (doc : Document) (w : Tabs τ Data) (t : τ) (scope : CacheScope) : Option StampedSettings :=
  scope.owner.bind (cached doc (w.pages t).tab)

/-- A row is written: `cacheSet(key, data, at, owner, gen)`. -/
def write (w : Tabs τ Data) (t : τ) (key : JsString) (data : Data) (stamp : Int) (owner : JsString) (gen : Option Nat) : Tabs τ Data :=
  w.store t ((Cache.act (w.view t) (.set key data stamp (some owner) gen)).getD (w.view t))

/-- `scopedSet(scope, settingsKey(coordinate), data, at)`. -/
def scopedSet (doc : Document) (w : Tabs τ Data) (t : τ) (scope : CacheScope) (s : PerEventSettings) (stamp : Int) : Tabs τ Data :=
  match scope.owner with
  | some owner => write w t (settingsKey doc) (.settings s) stamp owner (some scope.gen)
  | none => w

section

variable (doc : Document)

/-- `readSettings` where no event has come: the settings, and `known`. -/
def readNothing (own : Option StampedSettings) (answered : Bool) : PerEventSettings × Bool :=
  match own with
  | some own => (mergePerEventSettings own ⟨emptyPerEventSettings, 0⟩, true)
  | none => (emptyPerEventSettings, answered)

/-- `readSettings` where an event has decrypted: the tabs after it, and the settings. -/
def readVersion (w : Tabs τ Data) (t : τ) (scope : CacheScope) (own : Option StampedSettings) (remote : StampedSettings) :
    Tabs τ Data × PerEventSettings :=
  let settings := mergePerEventSettings remote (own.getD ⟨emptyPerEventSettings, 0⟩)
  (scopedSet doc w t scope settings (max remote.createdAt ((own.map StampedSettings.createdAt).getD 0)), settings)

/-- The `created_at` that `publishMonotonic` has the event signed for. -/
def reserve (w : Tabs τ Data) (t : τ) (now relayAt : Int) : Int :=
  let mark := match cacheGet (w.pages t).tab (watermarkKey doc) (some doc.pubkey) with
    | some ⟨_, .mark createdAt⟩ => createdAt
    | _ => 0
  max now (max mark relayAt + 1)

/-- Is it the merge of a hydration? -/
def isMerge : Cache.Act Data → Bool
  | .mergeDisk => true
  | _ => false

def act (w : World τ) : Act τ → Option (World τ)
  | .boot t => some { w with
      toTabs := w.boot t
      looks := fun j => (w.looks j).filter (·.tab ≠ t)
      waiting := fun i => (w.waiting i).filter (·.tab ≠ t)
      lock := w.lock.filter (·.tab ≠ t) }
  | .cache t x => if isMerge x then none else (w.other t x).map fun tabs => { w with toTabs := tabs }
  | .hydrate t => (w.other t .mergeDisk).map fun tabs => { w with
      toTabs := tabs
      documents := w.documents ++ [⟨cachedPerEventSettings doc (tabs.pages t).tab, w.resolved, w.edits, w.versions⟩] }
  | .look j t scope remote =>
    if (w.looks j).isSome then none
    else some { w with looks := Function.update w.looks j (some ⟨t, scope, scopedGet doc w.toTabs t scope, remote⟩) }
  | .looked j decrypted =>
    match w.looks j with
    | some ⟨t, scope, own, remote⟩ => some { w with
        toTabs := if decrypted then (readVersion doc w.toTabs t scope own remote).1 else w.toTabs
        looks := Function.update w.looks j none
        versions := if decrypted then w.versions ++ [remote] else w.versions }
    | none => none
  | .begin i t edit =>
    if (w.waiting i).isSome then none
    else some { w with waiting := Function.update w.waiting i (some ⟨t, captureScope w.toTabs t, edit⟩) }
  | .acquire i =>
    match w.lock, w.waiting i with
    | none, some call => some { w with waiting := Function.update w.waiting i none, lock := some { call with } }
    | _, _ => none
  | .read answer =>
    match w.lock with
    | some ⟨call, .locked⟩ =>
      let own := scopedGet doc w.toTabs call.tab call.scope
      match answer with
      | .nothing answered =>
        let (settings, known) := readNothing own answered
        some { w with lock := if known then some ⟨call, .read settings⟩ else none }
      | .version remote => some { w with lock := some ⟨call, .decrypting own remote⟩ }
    | _ => none
  | .decrypt =>
    match w.lock with
    | some ⟨call, .decrypting own remote⟩ =>
      let (tabs, settings) := readVersion doc w.toTabs call.tab call.scope own remote
      some { w with toTabs := tabs, versions := w.versions ++ [remote], lock := some ⟨call, .read settings⟩ }
    | _ => none
  | .edit nowMs =>
    match w.lock with
    | some ⟨call, .read settings⟩ => some { w with lock := some ⟨call, .edited settings nowMs⟩ }
    | _ => none
  | .sign now relayAt =>
    match w.lock with
    | some ⟨call, .edited settings nowMs⟩ =>
      let edit := edited settings call.edit nowMs
      let next := editPerEventSettings ⟨settings, 0⟩ call.edit nowMs
      let createdAt := reserve doc w.toTabs call.tab now relayAt
      some { w with
        toTabs := write w.toTabs call.tab (watermarkKey doc) (.mark createdAt) createdAt doc.pubkey none
        lock := some ⟨call, .signed edit next createdAt⟩
        edits := w.edits ++ [edit]
        documents := w.documents ++ [⟨next, w.resolved, w.edits ++ [edit], w.versions⟩] }
    | _ => none
  | .record =>
    match w.lock with
    | some ⟨call, .signed edit next createdAt⟩ => some { w with
        toTabs := scopedSet doc w.toTabs call.tab call.scope next createdAt
        lock := none
        resolved := w.resolved ++ [edit] }
    | _ => none
  | .fail =>
    match w.lock with
    | some _ => some { w with lock := none }
    | none => none

def Step (w : World τ) (x : Act τ) (w' : World τ) : Prop := act doc w x = some w'

end

end Nostrautica.Settings
