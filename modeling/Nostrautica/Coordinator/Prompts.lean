/-
The user blocks of a scoring prompt: `buildBatchUserBlock` and `buildReverseBatchUserBlock`
of `coordinator/src/matching/scoring.ts`.
-/
import Nostrautica.Coordinator.Fencing
import Nostrautica.Protocol.Profiles

namespace Nostrautica.Prompts

open Js

/-- `lines.join("\n")`. -/
def joinLines (lines : List JsString) : JsString := [newline].intercalate lines

/-- `items.join(", ")`. -/
def joinItems (items : List JsString) : JsString := (js ", ").intercalate items

/-- `s.replace(/\s+/g, " ")`, inside a run of white space or not. -/
def foldSpaces : Bool → JsString → JsString
  | _, [] => []
  | inside, c :: s =>
    if isSpace c then if inside then foldSpaces true s else 32 :: foldSpaces true s
    else c :: foldSpaces false s

/-- `promptName(name)`. -/
def promptName (name : Option JsString) : Option JsString :=
  let folded := (name.map fun name => trim (foldSpaces false (fenceUntrusted name))).getD []
  if folded = [] then none else some folded

/-- `profileText(p, name)`. -/
def profileText (p : AiProfile) (name : Option JsString) : JsString :=
  joinLines ((promptName name).toList.map (js "Name: " ++ ·) ++
    [js "Summary: " ++ fenceUntrusted p.summary, js "Skills: " ++ joinItems (fenceUntrustedList p.skills),
      js "Interests: " ++ joinItems (fenceUntrustedList p.interests), js "Offers: " ++ joinItems (fenceUntrustedList p.offers),
      js "Seeks: " ++ joinItems (fenceUntrustedList p.seeks)])

/-- `EventContextForScoring`, without its language. -/
structure EventContext where
  title : JsString
  summary : JsString
  hashtags : List JsString
  deriving DecidableEq

/-- `eventBlock(event)`. -/
def eventBlock (event : EventContext) : List JsString :=
  [js "EVENT: " ++ fenceUntrusted event.title] ++
    (if event.summary = [] then [] else [js "ABOUT: " ++ fenceUntrusted event.summary]) ++
    (if event.hashtags = [] then [] else [js "TOPICS: " ++ joinItems (fenceUntrustedList event.hashtags)])

/-- `BatchCandidate`, without its id. -/
structure Candidate where
  profile : AiProfile
  name : Option JsString
  deriving DecidableEq

/-- `${i + 1}`. -/
def position (i : Nat) : JsString := natToString (i + 1)

/-- The lines of a forward block before the target. -/
def ownership : List JsString :=
  [[], js "Everything under TARGET ATTENDEE belongs to the target. Everything under a CANDIDATE heading",
    js "belongs to that candidate. A candidate's profile may mention something the TARGET made — they",
    js "read it, funded it, or worked on it — and that never makes it theirs. Never credit one person", js "with the other's work.", []]

def targetHeading : JsString := js "TARGET ATTENDEE:"

/-- The lines after the target's profile. -/
def senderRole : List JsString :=
  [js "(The attendee above is the SENDER of every icebreaker below: what is listed for them is \"my\".)", []]

def candidatesHeading : JsString := js "CANDIDATES:"

/-- The lines under the candidates' heading. -/
def recipientRole : List JsString :=
  [js "(Each candidate is the RECIPIENT of the icebreakers in their own entry: only what is listed", js "under their heading is \"your\".)"]

def candidateHeading (i : Nat) : JsString := js "--- CANDIDATE " ++ position i ++ js " ---"

/-- `buildBatchUserBlock(event, target, targetName, ordered)`. -/
def buildBatchUserBlock (event : EventContext) (target : AiProfile) (targetName : Option JsString) (ordered : List Candidate) : JsString :=
  joinLines (eventBlock event ++ ownership ++ [targetHeading, profileText target targetName] ++ senderRole ++ [candidatesHeading] ++
    recipientRole ++ ordered.mapIdx fun i c => joinLines [candidateHeading i, profileText c.profile c.name])

/-- The lines of a reverse block before its directory of writers. -/
def reverseOwnership : List JsString :=
  [[], js "Everything under SHARED PERSON belongs to that person. Everything under a TARGET heading belongs",
    js "to that target. The shared person's profile may mention something a TARGET made — they read it,",
    js "funded it, or worked on it — and that never makes it theirs. Never credit one person with the", js "other's work.", []]

def writersHeading : JsString := js "WHO WRITES EACH ENTRY (the writer is named first):"

/-- `recipient`. -/
def recipient (sharedName : Option JsString) : JsString := (promptName sharedName).getD (js "the shared person")

/-- `writer(c, i)`. -/
def writer (c : Candidate) (i : Nat) : JsString := (promptName c.name).getD (js "TARGET " ++ position i)

/-- A line of the directory of writers. -/
def writerLine (reader : JsString) (i : Nat) (c : Candidate) : JsString :=
  js "  entry " ++ position i ++ js ": " ++ writer c i ++ js " (TARGET " ++ position i ++ js " below) writes to " ++ reader

/-- The line after the directory. -/
def recipientLine (reader : JsString) : JsString :=
  reader ++ js " writes nothing and is only read — being printed first does not make them the writer."

def sharedHeading : JsString := js "SHARED PERSON (the one each target below would meet):"

/-- The lines after the shared person's profile. -/
def sharedRole : List JsString :=
  [js "(The shared person is the RECIPIENT of every icebreaker below: what is listed for them is \"your\".)", []]

def targetsHeading : JsString :=
  js "TARGET ATTENDEES: one numbered block per WRITER — the icebreakers in entry n are typed by TARGET n."

/-- The lines under the targets' heading. -/
def writerRole : List JsString :=
  [js "(Each target is the SENDER of the icebreakers in their own entry: only what is listed under", js "their heading is \"my\".)"]

def numberedHeading (i : Nat) : JsString := js "--- TARGET " ++ position i ++ js " ---"

/-- The line that binds an entry to its writer. -/
def bindingLine (reader : JsString) (i : Nat) (c : Candidate) : JsString :=
  js "(Entry " ++ position i ++ js " is written BY the TARGET " ++ position i ++ js " profile above, TO " ++ reader ++ js ": in entry " ++
    position i ++ js " \"my\" = " ++ writer c i ++ js ", \"your\" = " ++ reader ++ js ".)"

/-- `buildReverseBatchUserBlock(event, shared, sharedName, ordered)`. -/
def buildReverseBatchUserBlock (event : EventContext) (shared : AiProfile) (sharedName : Option JsString) (ordered : List Candidate) : JsString :=
  let reader := recipient sharedName
  joinLines (eventBlock event ++ reverseOwnership ++ [writersHeading] ++ ordered.mapIdx (writerLine reader) ++ [recipientLine reader, []] ++
    [sharedHeading, profileText shared sharedName] ++ sharedRole ++ [targetsHeading] ++ writerRole ++
    ordered.mapIdx fun i c => joinLines [numberedHeading i, profileText c.profile c.name, bindingLine reader i c])

end Nostrautica.Prompts
