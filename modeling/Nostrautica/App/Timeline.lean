/-
What the chat screen shows of a room: `foldChatTimeline` of
`app/src/lib/chat/timeline.ts`.
-/
import Nostrautica.Js.Map
import Nostrautica.Js.Utf8

namespace Nostrautica.Timeline

open Js

/-- `CHAT_KIND_TEXT`. -/
def chatKindText : Nat := 9

/-- `CHAT_KIND_REACTION`. -/
def chatKindReaction : Nat := 7

/-- `CHAT_KIND_EDIT`. -/
def chatKindEdit : Nat := 1009

/-- `CHAT_KIND_DELETE`. -/
def chatKindDelete : Nat := 5

/-- `MAX_REACTION_CHARS`. -/
def maxReactionChars : Nat := 64

/-- `ChatMessage`. -/
structure ChatMessage where
  id : JsString
  pubkey : JsString
  kind : Nat
  content : JsString
  createdAt : Int
  tags : List (List JsString)
  deriving DecidableEq

/-- `ChatReaction`. -/
structure ChatReaction where
  emoji : JsString
  count : Nat
  mine : Bool
  ownIds : List JsString
  deriving DecidableEq

/-- `ChatTimelineItem`. -/
structure ChatTimelineItem extends ChatMessage where
  originalContent : JsString
  edited : Bool
  deleted : Bool
  reactions : List ChatReaction
  deriving DecidableEq

/-- The event id an `e` tag holds. -/
def eTarget : List JsString → Option JsString
  | name :: id :: _ => if name = js "e" && id ≠ [] then some id else none
  | _ => none

/-- `eTargets(m)`. -/
def eTargets (m : ChatMessage) : List JsString := m.tags.filterMap eTarget

/-- `byTimeThenId(a, b) <= 0`. -/
def byTimeThenId (a b : ChatMessage) : Bool := a.createdAt < b.createdAt || (a.createdAt = b.createdAt && !decide (b.id < a.id))

/-- `byId`. -/
def byId (messages : List ChatMessage) : JsMap JsString ChatMessage := messages.foldl (fun m x => m.set x.id x) JsMap.empty

/-- The events that the delete `d` retracts. -/
def retractedBy (byId : JsMap JsString ChatMessage) (d : ChatMessage) : List JsString :=
  if d.kind = chatKindDelete then (eTargets d).filter fun id => (byId.get? id).any (·.pubkey = d.pubkey) else []

/-- `retracted`, as the list of what is added to it. -/
def retracted (messages : List ChatMessage) : List JsString := messages.flatMap (retractedBy (byId messages))

/-- `const list = map.get(id) ?? []; list.push(m); map.set(id, list)`. -/
def push (map : JsMap JsString (List ChatMessage)) (id : JsString) (m : ChatMessage) : JsMap JsString (List ChatMessage) :=
  map.set id ((map.get? id).getD [] ++ [m])

/-- `!m.content || [...m.content].length > MAX_REACTION_CHARS` does not hold. -/
def reactionOk (content : JsString) : Bool := content ≠ [] && (codePoints content).length ≤ maxReactionChars

/-- `edits` and `reactions`. -/
structure Modifiers where
  edits : JsMap JsString (List ChatMessage)
  reactions : JsMap JsString (List ChatMessage)

/-- One turn of the loop that collects edits and reactions. -/
def collect (retracted : List JsString) (s : Modifiers) (m : ChatMessage) : Modifiers :=
  if m.id ∈ retracted then s
  else if m.kind = chatKindEdit then
    match eTargets m with
    | [id] => { s with edits := push s.edits id m }
    | _ => s
  else if m.kind = chatKindReaction then
    if reactionOk m.content then
      { s with reactions := (eTargets m).eraseDups.foldl (fun map id => push map id m) s.reactions }
    else s
  else s

/-- The edits and the reactions of the messages that are not retracted. -/
def modifiers (messages : List ChatMessage) : Modifiers :=
  messages.foldl (collect (retracted messages)) ⟨JsMap.empty, JsMap.empty⟩

/-- What is tallied of an emoji: the set of its senders, in order of insertion, and our
own ids. -/
structure TallyEntry where
  senders : List JsString
  ownIds : List JsString

/-- `me && pubkey === me`. -/
def isMe (me : Option JsString) (pubkey : JsString) : Bool := me.any fun me => me ≠ [] && pubkey = me

/-- One turn of the tally's loop. -/
def tallyOne (me : Option JsString) (tally : JsMap JsString TallyEntry) (r : ChatMessage) : JsMap JsString TallyEntry :=
  let entry := (tally.get? r.content).getD ⟨[], []⟩
  tally.set r.content
    { senders := if r.pubkey ∈ entry.senders then entry.senders else entry.senders ++ [r.pubkey]
      ownIds := if isMe me r.pubkey then entry.ownIds ++ [r.id] else entry.ownIds }

/-- `item.reactions`, of the sorted reactions. -/
def tallied (me : Option JsString) (sorted : List ChatMessage) : List ChatReaction :=
  (sorted.foldl (tallyOne me) JsMap.empty).entries.map fun p =>
    { emoji := p.1
      count := p.2.senders.length
      mine := p.2.senders.any (isMe me)
      ownIds := p.2.ownIds }

/-- The last of the accepted edits of a message. -/
def latestEdit (edits : List ChatMessage) (m : ChatMessage) : Option ChatMessage :=
  ((edits.filter fun e => e.pubkey = m.pubkey).mergeSort byTimeThenId).getLast?

/-- The line of a text message. -/
def itemOf (retracted : List JsString) (s : Modifiers) (me : Option JsString) (m : ChatMessage) : ChatTimelineItem :=
  if m.id ∈ retracted then { m with content := [], originalContent := m.content, edited := false, deleted := true, reactions := [] }
  else
    let latest := latestEdit ((s.edits.get? m.id).getD []) m
    { m with
      content := (latest.map (·.content)).getD m.content
      originalContent := m.content
      edited := latest.isSome
      deleted := false
      reactions := tallied me (((s.reactions.get? m.id).getD []).mergeSort byTimeThenId) }

/-- `foldChatTimeline(messages, me)`. -/
def foldChatTimeline (messages : List ChatMessage) (me : Option JsString) : List ChatTimelineItem :=
  (messages.filter (·.kind = chatKindText)).map (itemOf (retracted messages) (modifiers messages) me)

end Nostrautica.Timeline
