/-
The event purge of `coordinator/src/store/db.ts`, and the tables it works on.

A row's columns that the purge does not read are left to a parameter. A JSON
column is kept as what parsing its text gives.
-/
import Nostrautica.Store.Jobs
import Nostrautica.Sql.Database

namespace Nostrautica

open Js Sql

namespace Purge

/-- The tables the purge deletes from. -/
inductive Table
  | attendees | submissions | talks
  | transcript_refs | artifact_refs | summary_refs
  | pairs | jobs | job_status | usage | inbox_rate | invite_usage
  | command_watermarks | member_revocations
  | marmot_chat_keys | marmot_chat_links | marmot_consumed_kps | marmot_groups
  | transcripts | stt_empty_attempts | pipeline_artifacts | nostr_summaries
  deriving DecidableEq

/-- The text of a JSON column, parsed. -/
inductive JsonText
  | malformed
  | json (v : Json)

section Rows

variable (ρ : Type)

structure Attendee where
  coordinate : JsString
  pubkey : JsString
  profile_json : Option JsonText
  columns : ρ

structure Submission where
  rumor_id : JsString
  coordinate : JsString
  pubkey : JsString
  columns : ρ

structure Talk where
  coordinate : JsString
  pubkey : JsString
  talk_d : JsString
  media_json : JsonText
  columns : ρ

structure TranscriptRef where
  blob_sha256 : JsString
  coordinate : JsString
  pubkey : JsString
  columns : ρ

structure ArtifactRef where
  stage : JsString
  inputs_hash : JsString
  coordinate : JsString
  pubkey : JsString
  columns : ρ

structure SummaryRef where
  pubkey : JsString
  inputs_hash : JsString
  coordinate : JsString
  columns : ρ

/-- A row that only its event's coordinate is read of. -/
structure EventRow where
  coordinate : JsString
  columns : ρ

/-- A row keyed by a blob: a transcript, or a count of empty answers. -/
structure BlobRow where
  blob_sha256 : JsString
  columns : ρ

structure Artifact where
  stage : JsString
  inputs_hash : JsString
  columns : ρ

structure Summary where
  pubkey : JsString
  inputs_hash : JsString
  columns : ρ

end Rows

/-- The rows of each table. -/
def Row (ρ : Table → Type) : Table → Type
  | .attendees => Attendee (ρ .attendees)
  | .submissions => Submission (ρ .submissions)
  | .talks => Talk (ρ .talks)
  | .transcript_refs => TranscriptRef (ρ .transcript_refs)
  | .artifact_refs => ArtifactRef (ρ .artifact_refs)
  | .summary_refs => SummaryRef (ρ .summary_refs)
  | .jobs => JobRow
  | .transcripts => BlobRow (ρ .transcripts)
  | .stt_empty_attempts => BlobRow (ρ .stt_empty_attempts)
  | .pipeline_artifacts => Artifact (ρ .pipeline_artifacts)
  | .nostr_summaries => Summary (ρ .nostr_summaries)
  | t => EventRow (ρ t)

variable {ρ : Table → Type}

abbrev Store (ρ : Table → Type) := Database (Row ρ)

/-! ## Media hashes in a stored profile or talk -/

/-- `v[key]`, of a value that can be indexed; `null` cannot. -/
def field? (key : JsString) : Json → Option (Option Json)
  | .null => none
  | .obj fields => some ((fields.find? (·.1 = key)).map (·.2))
  | _ => some none

/-- The hash `x` of a media value, where it is a string. -/
def mediaHash (m : Json) : Option JsString :=
  match field? (js "x") m with
  | some (some (.str x)) => some x
  | _ => none

/-- The hashes a loop over media collects, until it throws at `null`. -/
def mediaHashes : List Json → List JsString
  | [] => []
  | .null :: _ => []
  | m :: rest => (mediaHash m).toList ++ mediaHashes rest

/-- The hashes in `profile_json.__media`: none where the text does not parse
or `__media` cannot be iterated. -/
def profileHashes : JsonText → List JsString
  | .malformed => []
  | .json v =>
    match field? (js "__media") v with
    | some (some (.arr media)) => mediaHashes media
    | _ => []

/-- The hash in a talk's `media_json`. -/
def talkHash : JsonText → Option JsString
  | .malformed => none
  | .json v => mediaHash v

/-! ## The purge -/

/-- `coordinate = ? AND pubkey = ?`, in the tables keyed by both. -/
def ofSubject (coordinate pubkey : JsString) : (t : Table) → Row ρ t → Bool
  | .attendees, r => Attendee.coordinate r = coordinate && Attendee.pubkey r = pubkey
  | .submissions, r => Submission.coordinate r = coordinate && Submission.pubkey r = pubkey
  | .talks, r => Talk.coordinate r = coordinate && Talk.pubkey r = pubkey
  | .transcript_refs, r => TranscriptRef.coordinate r = coordinate && TranscriptRef.pubkey r = pubkey
  | .artifact_refs, r => ArtifactRef.coordinate r = coordinate && ArtifactRef.pubkey r = pubkey
  | .summary_refs, r => SummaryRef.coordinate r = coordinate && SummaryRef.pubkey r = pubkey
  | _, _ => false

/-- `coordinate`, or for a job `json_extract(payload, '$.coordinate')`; the
payload tables have none. -/
def coordinate? : (t : Table) → Row ρ t → Option JsString
  | .attendees, r => some (Attendee.coordinate r)
  | .submissions, r => some (Submission.coordinate r)
  | .talks, r => some (Talk.coordinate r)
  | .transcript_refs, r => some (TranscriptRef.coordinate r)
  | .artifact_refs, r => some (ArtifactRef.coordinate r)
  | .summary_refs, r => some (SummaryRef.coordinate r)
  | .jobs, r => jsonText (JobSpec.payload (JobRow.toJobSpec r)) (js "coordinate")
  | .transcripts, _ | .stt_empty_attempts, _ | .pipeline_artifacts, _ | .nostr_summaries, _ => none
  | .pairs, r | .job_status, r | .usage, r | .inbox_rate, r | .invite_usage, r | .command_watermarks, r
  | .member_revocations, r | .marmot_chat_keys, r | .marmot_chat_links, r | .marmot_consumed_kps, r
  | .marmot_groups, r => some (EventRow.coordinate r)

/-- `SELECT COUNT(*) FROM transcript_refs WHERE blob_sha256 = ?`. -/
def transcriptRefCount (s : Store ρ) (x : JsString) : Nat :=
  (s .transcript_refs).countP fun r => TranscriptRef.blob_sha256 r = x

/-- `SELECT COUNT(*) FROM artifact_refs WHERE stage = ? AND inputs_hash = ?`. -/
def artifactRefCount (s : Store ρ) (stage inputsHash : JsString) : Nat :=
  (s .artifact_refs).countP fun r => ArtifactRef.stage r = stage && ArtifactRef.inputs_hash r = inputsHash

/-- `SELECT COUNT(*) FROM summary_refs WHERE pubkey = ? AND inputs_hash = ?`. -/
def summaryRefCount (s : Store ρ) (pubkey inputsHash : JsString) : Nat :=
  (s .summary_refs).countP fun r => SummaryRef.pubkey r = pubkey && SummaryRef.inputs_hash r = inputsHash

/-- Drops a transcript that no ref names, and its count of empty answers. -/
def dropTranscript (s : Store ρ) (x : JsString) : Store ρ :=
  if transcriptRefCount s x = 0 then
    (s.delete .transcripts fun r => BlobRow.blob_sha256 r = x).delete .stt_empty_attempts
      fun r => BlobRow.blob_sha256 r = x
  else s

/-- Drops an artifact that no ref names. -/
def dropArtifact (s : Store ρ) (a : JsString × JsString) : Store ρ :=
  if artifactRefCount s a.1 a.2 = 0 then
    s.delete .pipeline_artifacts fun r => Artifact.stage r = a.1 && Artifact.inputs_hash r = a.2
  else s

/-- Drops an account's summary that no ref names. -/
def dropSummary (pubkey : JsString) (s : Store ρ) (inputsHash : JsString) : Store ρ :=
  if summaryRefCount s pubkey inputsHash = 0 then
    s.delete .nostr_summaries fun r => Summary.pubkey r = pubkey && Summary.inputs_hash r = inputsHash
  else s

/-- The rows of one subject in a table. -/
def subjectRows (s : Store ρ) (coordinate pubkey : JsString) (t : Table) : List (Row ρ t) :=
  (s t).filter (ofSubject coordinate pubkey t)

/-- The subject's transcript refs, and the transcripts of theirs that nothing else references. -/
def purgeTranscripts (s : Store ρ) (coordinate pubkey : JsString) (legacyBlobs : List JsString) : Store ρ :=
  let ownedBlobs := legacyBlobs ++
    (subjectRows s coordinate pubkey .transcript_refs).map fun r => TranscriptRef.blob_sha256 r
  ownedBlobs.eraseDups.foldl dropTranscript (s.delete .transcript_refs (ofSubject coordinate pubkey .transcript_refs))

/-- The subject's artifact refs, and the artifacts of theirs that nothing else references. -/
def purgeArtifacts (s : Store ρ) (coordinate pubkey : JsString) : Store ρ :=
  let ownedArtifacts := (subjectRows s coordinate pubkey .artifact_refs).map fun r =>
    (ArtifactRef.stage r, ArtifactRef.inputs_hash r)
  ownedArtifacts.foldl dropArtifact (s.delete .artifact_refs (ofSubject coordinate pubkey .artifact_refs))

/-- The hashes of an account's summaries that some event references. -/
def referencedSummaries (s : Store ρ) (pubkey : JsString) : List JsString :=
  ((s .summary_refs).filter fun r => SummaryRef.pubkey r = pubkey).map fun r => SummaryRef.inputs_hash r

/-- The legacy summaries of an account, which no event references at all. -/
def dropLegacySummaries (s : Store ρ) (pubkey : JsString) : Store ρ :=
  s.delete .nostr_summaries fun r =>
    Summary.pubkey r = pubkey && !(referencedSummaries s pubkey).contains (Summary.inputs_hash r)

/-- The subject's summary refs, and the summaries of theirs that nothing else references. -/
def purgeSummaries (s : Store ρ) (coordinate pubkey : JsString) : Store ρ :=
  let ownedSummaries := (subjectRows s coordinate pubkey .summary_refs).map fun r => SummaryRef.inputs_hash r
  dropLegacySummaries
    (ownedSummaries.foldl (dropSummary pubkey) (s.delete .summary_refs (ofSubject coordinate pubkey .summary_refs))) pubkey

/-- `purgeSubjectInTxn(coordinate, pubkey, legacyBlobs)`. -/
def purgeSubjectInTxn (s : Store ρ) (coordinate pubkey : JsString) (legacyBlobs : List JsString) : Store ρ :=
  let s := purgeTranscripts s coordinate pubkey legacyBlobs
  let s := purgeArtifacts s coordinate pubkey
  let s := purgeSummaries s coordinate pubkey
  let s := s.delete .talks (ofSubject coordinate pubkey .talks)
  s.delete .submissions (ofSubject coordinate pubkey .submissions)

/-- The media hashes of a subject's stored profile and talks. -/
def legacyBlobs (s : Store ρ) (coordinate pubkey : JsString) : List JsString :=
  (((subjectRows s coordinate pubkey .attendees).head?.bind fun r => Attendee.profile_json r).toList.flatMap profileHashes ++
    (subjectRows s coordinate pubkey .talks).filterMap fun r => talkHash (Talk.media_json r)).eraseDups

/-- One attendee of the purge. -/
def purgeAttendee (coordinate : JsString) (s : Store ρ) (pubkey : JsString) : Store ρ :=
  purgeSubjectInTxn s coordinate pubkey (legacyBlobs s coordinate pubkey)

/-- `DELETE FROM t WHERE coordinate = ?`. -/
def deleteEvent (coordinate : JsString) (s : Store ρ) (t : Table) : Store ρ :=
  s.delete t fun r => coordinate? t r = some coordinate

/-- The tables the purge clears event-wide, in its order. -/
def eventTables : List Table :=
  [.attendees, .pairs, .job_status, .usage, .inbox_rate, .invite_usage, .command_watermarks, .member_revocations,
   .jobs, .marmot_chat_keys, .marmot_chat_links, .marmot_consumed_kps, .marmot_groups]

/-- `SELECT DISTINCT pubkey FROM attendees WHERE coordinate = ?`. -/
def attendeePubkeys (s : Store ρ) (coordinate : JsString) : List JsString :=
  (((s .attendees).filter fun r => Attendee.coordinate r = coordinate).map fun r => Attendee.pubkey r).eraseDups

/-- `purgeEventArtifacts(coordinate)`, committed. -/
def purgeEventArtifacts (s : Store ρ) (coordinate : JsString) : Store ρ :=
  eventTables.foldl (deleteEvent coordinate) ((attendeePubkeys s coordinate).foldl (purgeAttendee coordinate) s)

/-! ## What the purge is for -/

/-- The tables the purge goes through attendee by attendee. -/
def subjectTables : List Table := [.submissions, .talks, .transcript_refs, .artifact_refs, .summary_refs]

/-- A row of another event, or a payload that another event still references. -/
def mustStay (coordinate : JsString) (s : Store ρ) : (t : Table) → Row ρ t → Bool
  | .transcripts, r => (s .transcript_refs).any fun f =>
      TranscriptRef.blob_sha256 f = BlobRow.blob_sha256 r && TranscriptRef.coordinate f ≠ coordinate
  | .pipeline_artifacts, r => (s .artifact_refs).any fun f =>
      ArtifactRef.stage f = Artifact.stage r && ArtifactRef.inputs_hash f = Artifact.inputs_hash r &&
        ArtifactRef.coordinate f ≠ coordinate
  | .nostr_summaries, r => (s .summary_refs).any fun f =>
      SummaryRef.pubkey f = Summary.pubkey r && SummaryRef.inputs_hash f = Summary.inputs_hash r &&
        SummaryRef.coordinate f ≠ coordinate
  | t, r => (coordinate? t r).any (· ≠ coordinate)

/-- No row names the event. -/
def Gone (coordinate : JsString) (s : Store ρ) : Prop := ∀ t, ∀ r ∈ s t, coordinate? t r ≠ some coordinate

/-- Everyone the event has rows of, in the tables purged attendee by attendee,
has an attendees row. -/
def NoOrphans (coordinate : JsString) (s : Store ρ) : Prop :=
  ∀ t ∈ subjectTables, ∀ r ∈ s t, coordinate? t r = some coordinate →
    ∃ pubkey ∈ attendeePubkeys s coordinate, ofSubject coordinate pubkey t r = true

end Purge

end Nostrautica
