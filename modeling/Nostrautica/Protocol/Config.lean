/-
`protocol/src/config.ts`: the kind 31600 event config, built into tags and
parsed from them.

The URL parser is a parameter: `url s` is what `new URL(s)` has as protocol
and hostname, or nothing where it throws. Numeric fields are integers a
JavaScript number holds, with `-0` read as 0.
-/
import Nostrautica.Protocol.Coordinate

namespace Nostrautica.Config

open Js

/-- An event's tag: its name and values. -/
abbrev Tag := List JsString

inductive Approval
  | manual | invite | manualInvite | openToAll
  deriving DecidableEq, Repr

inductive MatchVisibility
  | pair | event
  deriving DecidableEq, Repr

inductive TalksMode
  | off | on | prerecordFirst
  deriving DecidableEq, Repr

inductive ChatBackend
  | marmot
  deriving DecidableEq, Repr

inductive Matching
  | on | off
  deriving DecidableEq, Repr

structure EventConfig where
  d : JsString
  eidPubkey : JsString
  inbox : JsString
  coordinator : Option JsString := none
  coordinatorGen : Option Nat := none
  relays : List JsString
  chatRelays : List JsString
  blossom : List JsString
  maxVideoSec : Nat
  maxTalkSec : Nat
  matching : Matching
  matchVisibility : MatchVisibility
  approval : Approval
  eck : Nat
  nostrContext : Nat
  lang : JsString
  talks : TalksMode
  chat : List ChatBackend
  retentionDays : Option Nat := none
  parent : Option JsString := none
  children : Option (List JsString) := none
  spaceKind : Option Nat := none
  deriving DecidableEq

structure EventConfigTags where
  kind : Nat
  tags : List Tag
  content : JsString

/-- What `new URL(s)` says of a string. -/
structure Url where
  protocol : JsString
  hostname : JsString

/-! ## Enumerated values -/

def Approval.toTag : Approval → JsString
  | .manual => js "manual"
  | .invite => js "invite"
  | .manualInvite => js "manual+invite"
  | .openToAll => js "open"

def MatchVisibility.toTag : MatchVisibility → JsString
  | .pair => js "pair"
  | .event => js "event"

def TalksMode.toTag : TalksMode → JsString
  | .off => js "off"
  | .on => js "on"
  | .prerecordFirst => js "prerecord-first"

def ChatBackend.toTag : ChatBackend → JsString
  | .marmot => js "marmot"

def Matching.toTag : Matching → JsString
  | .on => js "on"
  | .off => js "off"

/-- The listed value a raw tag value spells, or the default. -/
def readEnum {α : Type} (toTag : α → JsString) (values : List α) (default : α) (raw : Option JsString) : α :=
  (values.find? fun v => some (toTag v) == raw).getD default

/-- `APPROVALS`. -/
def approvals : List Approval := [.manual, .invite, .manualInvite, .openToAll]

/-- `VISIBILITIES`. -/
def visibilities : List MatchVisibility := [.pair, .event]

/-- `TALKS_MODES`. -/
def talksModes : List TalksMode := [.off, .on, .prerecordFirst]

/-- `CHAT_BACKENDS`. -/
def chatBackends : List ChatBackend := [.marmot]

/-! ## Building -/

/-- What `buildEventConfig` throws. -/
inductive BuildError
  | spaceKind | coordinatorGen | retentionDays | parent | tooManyChildren | child
  deriving DecidableEq, Repr

def BuildError.message : BuildError → String
  | .spaceKind => "31600 config: spaceKind must be one of 31923, 31612"
  | .coordinatorGen => "31600 config: coordinator requires a positive integer coordinatorGen"
  | .retentionDays => "31600 config: retentionDays must be a positive integer"
  | .parent => "31600 config: parent must be a 31612 community coordinate"
  | .tooManyChildren => "31600 config: at most 500 child events"
  | .child => "31600 config: child must be a 31923 event coordinate"

/-- A string that is there and not empty. -/
def truthy (s : Option JsString) : Option JsString := s.filter (· ≠ [])

/-- `normalizeLang`: a bare lowercased two-letter code, `en` for anything else. -/
def normalizeLang (lang : Option JsString) : JsString :=
  let base := (toLowerCase (trim (lang.getD (js "en")))).takeWhile fun c => c.val ≠ 45 && c.val ≠ 95
  if base.length = 2 ∧ base.all (fun c => 97 ≤ c.val && c.val ≤ 122) then base else js "en"

/-- The space's coordinate, of a dated event unless it says otherwise. -/
def EventConfig.coordinate (cfg : EventConfig) : JsString :=
  makeCoordinate cfg.eidPubkey cfg.d (cfg.spaceKind.getD kindCalendarEvent)

/-- One tag for each value. -/
def each (values : List JsString) : List (List JsString) := values.map fun v => [v]

/-- The values of each tag, under its name, in the order they are pushed. -/
def EventConfig.blocks (cfg : EventConfig) : List (String × List (List JsString)) :=
  [("d", [[cfg.d]]),
    ("a", [[cfg.coordinate]]),
    ("v", [[natToString protocolVersion]]),
    ("inbox", [[cfg.inbox]]),
    ("coordinator", ((truthy cfg.coordinator).map fun pk => [pk, natToString (cfg.coordinatorGen.getD 0)]).toList),
    ("relay", each cfg.relays),
    ("chat_relay", each cfg.chatRelays),
    ("blossom", each cfg.blossom),
    ("max_video_sec", [[natToString cfg.maxVideoSec]]),
    ("max_talk_sec", [[natToString cfg.maxTalkSec]]),
    ("matching", [[cfg.matching.toTag]]),
    ("match_visibility", [[cfg.matchVisibility.toTag]]),
    ("approval", [[cfg.approval.toTag]]),
    ("eck", [[natToString cfg.eck]]),
    ("nostr_context", [[natToString cfg.nostrContext]]),
    ("lang", if normalizeLang (some cfg.lang) = js "en" then [] else [[normalizeLang (some cfg.lang)]]),
    ("talks", if cfg.talks = .off then [] else [[cfg.talks.toTag]]),
    ("chat", each ((cfg.chat.filter chatBackends.contains).map ChatBackend.toTag)),
    ("retention", (cfg.retentionDays.map fun n => [natToString n]).toList),
    ("parent", ((truthy cfg.parent).map fun p => [p]).toList),
    ("child", each (cfg.children.getD []).eraseDups)]

/-- The tags a table of blocks stands for. -/
def tagsOf (blocks : List (String × List (List JsString))) : List Tag :=
  blocks.flatMap fun b => b.2.map fun values => js b.1 :: values

/-- The checks of `buildEventConfig`, in the order they are made. -/
def buildCheck (cfg : EventConfig) : Option BuildError :=
  let children := (cfg.children.getD []).eraseDups
  if cfg.spaceKind.any fun k => !spaceKinds.contains k then some .spaceKind
  else if (truthy cfg.coordinator).isSome && cfg.coordinatorGen.getD 0 < 1 then some .coordinatorGen
  else if cfg.retentionDays.any (· < 1) then some .retentionDays
  else if (truthy cfg.parent).any fun p => !isValidParentCoordinate p then some .parent
  else if children.length > maxChildren then some .tooManyChildren
  else if children.any fun c => !isValidChildCoordinate c then some .child
  else none

def buildEventConfig (cfg : EventConfig) : Except BuildError EventConfigTags :=
  match buildCheck cfg with
  | some e => .error e
  | none => .ok { kind := kindEventConfig, tags := tagsOf cfg.blocks, content := [] }

/-! ## Parsing -/

/-- `tags.find(t => t[0] === name)`. -/
def findTag (tags : List Tag) (name : String) : Option Tag := tags.find? fun t => t.head? == some (js name)

/-- `first(tags, name)`. -/
def first (tags : List Tag) (name : String) : Option JsString := (findTag tags name).bind (·[1]?)

/-- `all(tags, name)`: the values that are there and not empty. -/
def all (tags : List Tag) (name : String) : List JsString :=
  (tags.filter fun t => t.head? == some (js name)).filterMap fun t => truthy t[1]?

/-- `readEventVersionTag`. -/
def readEventVersionTag (tags : List Tag) : Option Int := (first tags "v").bind fun raw => (toNumber raw).toInt?

/-- `intTag`: a non-negative integer, blank and malformed values being the default. -/
def intTag (tags : List Tag) (name : String) (default : Nat) : Nat :=
  match first tags name with
  | none => default
  | some raw => if trim raw = [] then default else (toNumber raw).floorNonneg?.getD default

/-- `Number(raw)` where it is a positive integer. -/
def positiveInt (raw : JsString) : Option Nat := (toNumber raw).toNat?.filter (1 ≤ ·)

/-- `retentionTag`. -/
def retentionTag (tags : List Tag) : Option Nat := (first tags "retention").bind positiveInt

/-- What `parseEventConfig` throws. -/
inductive ParseError
  | missing
  | newer (version : Int)
  | unsupported (version : Option Int)
  deriving DecidableEq, Repr

def ParseError.message : ParseError → String
  | .missing => "31600 config missing d or inbox"
  | .newer v => "payload requires protocol v" ++ toString v ++ "; this client speaks v2. Update required"
  | .unsupported v => "31600 config: unsupported v tag " ++ (v.map toString).getD "<absent>"

section

variable (url : JsString → Option Url)

/-- `urlValues`: the values that parse as URLs of a protocol. -/
def urlValues (tags : List Tag) (name protocol : String) : List JsString :=
  (all tags name).filter fun v => (url v).any fun u => u.protocol == js protocol

/-- `CHAT_INTEROP_RELAYS`. -/
def chatInteropRelays : List JsString := [js "wss://relay.us.whitenoise.chat", js "wss://relay.eu.whitenoise.chat"]

/-- `CHAT_INTEROP_HOSTS`. -/
def chatInteropHosts : List JsString := chatInteropRelays.filterMap fun r => (url r).map Url.hostname

def isChatInteropRelay (r : JsString) : Bool :=
  (url r).any fun u => (chatInteropHosts url).contains (toLowerCase u.hostname)

/-- The coordinator and its generation, none where the tag is malformed. -/
def readCoordinator (tags : List Tag) : Option (JsString × Nat) := do
  let tag ← findTag tags "coordinator"
  let pk ← truthy tag[1]?
  let raw ← tag[2]?
  if isHex32 pk then
    let gen ← positiveInt raw
    some (pk, gen)
  else none

/-- The chat backends named, each once. -/
def readChat (tags : List Tag) : List ChatBackend :=
  ((all tags "chat").filterMap fun v => chatBackends.find? fun b => b.toTag == v).eraseDups

/-- The fields of a config whose structural tags are there. -/
def readFields (eidPubkey d inbox : JsString) (tags : List Tag) : EventConfig :=
  let relayTags := urlValues url tags "relay" "wss:"
  let coordinator := readCoordinator tags
  let children := ((all tags "child").filter isValidChildCoordinate).eraseDups.take maxChildren
  { d
    eidPubkey
    inbox
    coordinator := coordinator.map Prod.fst
    coordinatorGen := coordinator.map Prod.snd
    relays := relayTags.filter fun r => !isChatInteropRelay url r
    chatRelays := (urlValues url tags "chat_relay" "wss:" ++ relayTags.filter (isChatInteropRelay url)).eraseDups
    blossom := urlValues url tags "blossom" "https:"
    maxVideoSec := intTag tags "max_video_sec" 90
    maxTalkSec := intTag tags "max_talk_sec" 900
    matching := if first tags "matching" = some (js "on") then .on else .off
    matchVisibility := readEnum MatchVisibility.toTag visibilities .pair (first tags "match_visibility")
    approval := readEnum Approval.toTag approvals .manual (first tags "approval")
    eck := max 1 (intTag tags "eck" 1)
    nostrContext := intTag tags "nostr_context" 0
    lang := normalizeLang (first tags "lang")
    talks := readEnum TalksMode.toTag talksModes .off (first tags "talks")
    chat := readChat tags
    retentionDays := retentionTag tags
    parent := (truthy (first tags "parent")).filter isValidParentCoordinate
    children := if children = [] then none else some children
    spaceKind := if first tags "a" = some (makeCoordinate eidPubkey d kindCommunity) then some kindCommunity else none }

def parseEventConfig (eidPubkey : JsString) (tags : List Tag) : Except ParseError EventConfig :=
  match truthy (first tags "d"), (truthy (first tags "inbox")).filter isHex32 with
  | some d, some inbox =>
    let vtag := readEventVersionTag tags
    if vtag = some (protocolVersion : Int) then .ok (readFields url eidPubkey d inbox tags)
    else match vtag with
      | some v => if v > protocolVersion then .error (.newer v) else .error (.unsupported vtag)
      | none => .error (.unsupported none)
  | _, _ => .error .missing

end

end Nostrautica.Config
