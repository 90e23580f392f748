/-
An attendee's profile submissions and corrections: `handleSubmission` and
`handleCorrection` of `coordinator/src/coordinator.ts`, over `upsertAttendee` and
`revisionSupersedes`, with the directory entries that are published of the row.

An attempt of a handler runs without interruption to the publish of the entry it has
built, and may fail before that. A hash of the stored profile is a parameter.
-/
import Nostrautica.Publish.Directory
import Nostrautica.Publish.Stamps

namespace Nostrautica.Submissions

open Js Directory

/-! ## Ordering -/

structure RevisionKey where
  rev : Nat
  created_at : Int
  id : JsString
  deriving DecidableEq

/-- `revisionSupersedes(candidate, current)`. -/
def revisionSupersedes (candidate current : RevisionKey) : Bool :=
  if candidate.rev ≠ current.rev then candidate.rev > current.rev
  else if candidate.created_at ≠ current.created_at then candidate.created_at > current.created_at
  else candidate.id < current.id

/-- `RUMOR_MAX_CLOCK_SKEW_SEC`. -/
def rumorMaxClockSkewSec : Int := 15 * 60

/-- `rumorEffectiveCreatedAt(createdAt, nowSec)`. -/
def rumorEffectiveCreatedAt (createdAt nowSec : Int) : Int :=
  let maxCreatedAt := nowSec + rumorMaxClockSkewSec
  if createdAt > maxCreatedAt then maxCreatedAt else createdAt

/-! ## Handlers -/

/-- The columns that order what a row holds of one kind. -/
structure Order where
  rev : Option Nat := none
  created_at : Option Int := none
  rumor_id : Option JsString := none
  deriving DecidableEq

/-- The row of the attendee. -/
structure Row extends Attendee where
  /-- `status` is `approved`. -/
  approved : Bool
  /-- `profile_rev`, `profile_created_at`, `profile_rumor_id`. -/
  profile : Order := {}
  /-- `correction_rev`, `correction_created_at`, `correction_rumor_id`. -/
  correction : Order := {}

/-- The guard of both handlers: what is stored is of another rumor, which this one does not supersede. -/
def stale (stored : Order) (order : RevisionKey) : Bool :=
  match stored.rev with
  | some rev => stored.rumor_id ≠ some order.id && !revisionSupersedes order ⟨rev, stored.created_at.getD 0, stored.rumor_id.getD []⟩
  | none => false

/-- The order columns as they are written. -/
def RevisionKey.order (k : RevisionKey) : Order := ⟨some k.rev, some k.created_at, some k.id⟩

/-- `MAX_MEDIA_PER_SUBMISSION`. -/
def maxMediaPerSubmission : Nat := 4

/-- What is stringified of a submission. -/
def storedProfile (c : ProfileSubmission) : StoredProfile := ⟨c.profile, c.media.take maxMediaPerSubmission, c.intro_text⟩

/-- `handleSubmission`, to the row it writes. -/
def handleSubmission (sourceRevision : StoredProfile → JsString) (row : Row) (content : ProfileSubmission) (order : RevisionKey) :
    Option Row :=
  if stale row.profile order then none
  else
    some { row with
      profile_json := some (storedProfile content)
      source_revision := some (sourceRevision (storedProfile content))
      profile := order.order }

/-- `handleCorrection`, to the row it writes. -/
def handleCorrection (coordinate : JsString) (row : Row) (content : ProfileCorrection) (order : RevisionKey) : Option Row :=
  if content.a ≠ coordinate then none
  else if !row.approved then none
  else if stale row.correction order then none
  else some { row with correction_json := some content, correction := order.order }

/-! ## Runs -/

inductive Body
  | submission (content : ProfileSubmission)
  | correction (content : ProfileCorrection)
  deriving DecidableEq

/-- A rumor of the attendee. -/
structure Rumor where
  id : JsString
  created_at : Int
  body : Body
  deriving DecidableEq

def Body.rev : Body → Nat
  | submission content => content.rev
  | correction content => content.rev

/-- The order a handler is given. -/
def Rumor.order (r : Rumor) (nowSec : Int) : RevisionKey := ⟨r.body.rev, rumorEffectiveCreatedAt r.created_at nowSec, r.id⟩

/-- The row a rumor's handler writes; `none` where it ignores the rumor. -/
def handle (sourceRevision : StoredProfile → JsString) (coordinate : JsString) (row : Row) (r : Rumor) (nowSec : Int) : Option Row :=
  match r.body with
  | .submission content => handleSubmission sourceRevision row content (r.order nowSec)
  | .correction content => handleCorrection coordinate row content (r.order nowSec)

/-- A directory entry: its stamp, and what it was built from. -/
structure Entry where
  created_at : Int
  attendee : Attendee
  now : Int

/-- An entry on its way to the relays, and the rumor whose handler awaits it. -/
structure Task where
  entry : Entry
  rumor : Option Rumor

structure World where
  row : Row
  /-- `last_created_at` of the entry's address. -/
  watermark : Option Int
  tasks : List Task
  /-- The entries handed to the relays, newest first. -/
  sent : List Entry
  /-- Those that a relay has taken. -/
  published : List Entry
  /-- The rumors whose handler has returned. -/
  processed : List Rumor

/-- Where an attempt fails before its entry is sent. -/
inductive Stop
  /-- Before the row is written. -/
  | reading
  /-- After that: `enqueueProcess` throws, or the process ends. -/
  | written
  /-- With a stamp taken: the entry cannot be encrypted. -/
  | stamped
  deriving DecidableEq

inductive Act
  /-- An attempt of a rumor's handler, under a reading of the clock at its delivery. -/
  | attempt (rumor : Rumor) (now : Int) (stop : Option Stop)
  /-- A publish settles: a relay took the entry or none, and the handler that awaits it returns or fails. -/
  | settled (i : Nat) (taken returned : Bool)
  /-- The entry is published from another path. -/
  | publishDirectory (now : Int)
  /-- The columns that neither handler writes are written. -/
  | setDerived (display_name : Option JsString) (ai_profile_json : Option AiProfile) (ai_source_revision : Option JsString)
    (transcripts_json : Option (List MediaTranscript))
  /-- The process ends; the relays take some of the entries on their way. -/
  | restart (taken : List Bool)

namespace World

/-- `nextCreatedAt`. -/
def stamp (w : World) (now : Int) : Int := Stamps.Store.next ⟨fun _ : Unit => w.watermark, []⟩ () (now / 1000)

/-- An entry of the row is built and handed to the relays. -/
def send (w : World) (now : Int) (rumor : Option Rumor) : World :=
  let entry : Entry := ⟨w.stamp now, w.row.toAttendee, now⟩
  { w with watermark := some (w.stamp now), tasks := ⟨entry, rumor⟩ :: w.tasks, sent := entry :: w.sent }

def process (w : World) (r : Rumor) : World := { w with processed := r :: w.processed }

end World

variable (sourceRevision : StoredProfile → JsString) (coordinate : JsString)

/-- An attempt of a rumor's handler. -/
def attempt (w : World) (r : Rumor) (now : Int) (stop : Option Stop) : World :=
  if stop = some .reading then w
  else
    match handle sourceRevision coordinate w.row r (now / 1000) with
    | none => w.process r
    | some row =>
      let written := { w with row }
      if !row.approved then written.process r
      else
        match stop with
        | some .stamped => { written with watermark := some (written.stamp now) }
        | some _ => written
        | none => written.send now (some r)

/-- What an act makes of the world; `none` where it cannot happen. -/
def act (w : World) : Act → Option World
  | .attempt r now stop => some (attempt sourceRevision coordinate w r now stop)
  | .settled i taken returned =>
    match w.tasks[i]? with
    | none => none
    | some task =>
      if returned && !taken then none
      else
        some { w with
          tasks := w.tasks.eraseIdx i
          published := if taken then task.entry :: w.published else w.published
          processed := if returned then task.rumor.toList ++ w.processed else w.processed }
  | .publishDirectory now => some (w.send now none)
  | .setDerived display_name ai_profile_json ai_source_revision transcripts_json =>
    some { w with row := { w.row with display_name, ai_profile_json, ai_source_revision, transcripts_json } }
  | .restart taken =>
    let reached := (w.tasks.zip taken).filterMap fun p => if p.2 then some p.1.entry else none
    some { w with tasks := [], published := reached ++ w.published }

def Step (w : World) (x : Act) (w' : World) : Prop := act sourceRevision coordinate w x = some w'

/-- An approved attendee, none of whose rumors was handled. -/
def start (attendee : Attendee) (watermark : Option Int) : World :=
  ⟨{ attendee with approved := true }, watermark, [], [], [], []⟩

end Nostrautica.Submissions
