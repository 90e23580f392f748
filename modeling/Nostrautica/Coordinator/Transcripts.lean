/-
The transcription stage: `transcribeMedia` and `fetchBlob` of `coordinator/src/pipeline/transcribe.ts`
over the transcript cache of the store, for any number of calls in flight.

What a mirror sends, the probe measures, the extraction makes and the speech-to-text provider
answers is up to the step; the hash and the cipher are parameters. Keys and nonces are decoded; a
text that is hashed is ASCII. The times of the rows are left out, and so is the declared duration,
which nothing here reads.
-/
import Nostrautica.Protocol.Schemas

namespace Nostrautica.Transcripts

open Js

abbrev Bytes := List UInt8

/-- `MediaDescriptor`, as far as it is read here. -/
structure MediaDescriptor where
  url : List JsString
  x : JsString
  ox : JsString
  size : Nat
  key : Bytes
  nonce : Bytes
  ox_ok : isHex32 ox = true
  key_length : key.length = 32
  nonce_length : nonce.length = 12

structure Owner where
  coordinate : JsString
  pubkey : JsString
  deriving DecidableEq

/-- A call: its descriptor, and what of `TranscribeDeps` differs between calls. A limit of 0 is none. -/
structure Ask where
  descriptor : MediaDescriptor
  maxMediaBytes : Option Nat := none
  maxDurationSec : Rat := 0
  owner : Option Owner := none

/-- What is not under this repository: `sha256Hex` and `aesGcmDecrypt`. -/
structure Crypto where
  sha256Hex : Bytes → JsString
  aesGcmDecrypt : Bytes → Bytes → Bytes → Option Bytes

/-- `DEFAULT_MAX_MEDIA_BYTES`. -/
def defaultMaxMediaBytes : Nat := 250 * 1024 * 1024

/-- `MIN_AUDIO_BYTES_TO_EXPECT_SPEECH`. -/
def minAudioBytesToExpectSpeech : Nat := 8 * 1024

/-- `MAX_EMPTY_STT_ATTEMPTS`. -/
def maxEmptySttAttempts : Nat := 5

/-- `utf8ToBytes(s)` of an ASCII text. -/
def asciiBytes (s : JsString) : Bytes := s.map fun c => UInt8.ofNat c.val

section

variable (crypto : Crypto)

/-- `transcriptKeyFingerprint(descriptor)`. -/
def transcriptKeyFingerprint (d : MediaDescriptor) : JsString :=
  crypto.sha256Hex (asciiBytes (js "nostrautica/transcript-key/v1|" ++ d.ox ++ js "|") ++ d.key ++ d.nonce)

/-- `decryptMedia(descriptor, ciphertext)`; `none` where it throws. -/
def decryptMedia (d : MediaDescriptor) (ciphertext : Bytes) : Option Bytes :=
  if ciphertext.length ≠ d.size ∨ crypto.sha256Hex ciphertext ≠ d.x then none
  else (crypto.aesGcmDecrypt ciphertext d.key d.nonce).filter fun plaintext => crypto.sha256Hex plaintext = d.ox

end

/-! ## The store -/

/-- A row of `transcripts`. -/
structure Row where
  text : JsString
  lang : Option JsString
  key_fp : Option JsString
  deriving DecidableEq

structure Store where
  transcripts : JsString → Option Row := fun _ => none
  /-- `transcript_refs`. -/
  refs : List (JsString × Owner) := []
  /-- `stt_empty_attempts`. -/
  attempts : JsString → Nat := fun _ => 0

namespace Store

/-- `recordTranscriptRef(x, owner)`, where there is an owner. -/
def recordTranscriptRef (s : Store) (x : JsString) (owner : Option Owner) : Store :=
  match owner with
  | some owner => { s with refs := if (x, owner) ∈ s.refs then s.refs else s.refs ++ [(x, owner)] }
  | none => s

/-- `setTranscriptKeyFp(x, keyFp)`. -/
def setTranscriptKeyFp (s : Store) (x keyFp : JsString) : Store :=
  { s with transcripts := Function.update s.transcripts x ((s.transcripts x).map fun row => { row with key_fp := some keyFp }) }

/-- `putTranscript(x, text, lang, owner, keyFp)`. -/
def putTranscript (s : Store) (x text : JsString) (lang : Option JsString) (owner : Option Owner) (keyFp : JsString) : Store :=
  recordTranscriptRef { s with
    transcripts := Function.update s.transcripts x (some ⟨text, lang, some keyFp⟩)
    attempts := Function.update s.attempts x 0 } x owner

/-- `recordEmptyStt(x)`. -/
def recordEmptyStt (s : Store) (x : JsString) : Store := { s with attempts := Function.update s.attempts x (s.attempts x + 1) }

end Store

/-! ## A call -/

/-- An `AudioSegment`: the length of its data. -/
structure AudioSegment where
  bytes : Nat
  durationSec : Option Rat

/-- Why media are rejected: what a `MediaPolicyError` says. -/
inductive Rejection
  /-- The mirrors have all failed for good. -/
  | blob
  | size
  | key
  /-- The probe has given no answer, and there is a limit. -/
  | unprobed
  | duration
  /-- The decoded audio runs past the limit. -/
  | overrun
  | extraction
  /-- The provider has had nothing to say too often. -/
  | empty
  deriving DecidableEq

inductive Outcome
  | text (text : JsString) (lang : Option JsString)
  | rejected (why : Rejection)
  /-- An `EmptyTranscriptError`. -/
  | emptyTranscript
  /-- Another error. -/
  | error
  deriving DecidableEq

/-- How far a call has come. -/
inductive Stage
  | starting
  /-- In `fetchBlob`, with the mirrors left, the bytes streamed and `allPermanent`. -/
  | downloading (cached : Option Row) (urls : List JsString) (streamed : Nat) (allPermanent : Bool)
  | decrypting (cached : Option Row) (ciphertext : Bytes)
  | probing (plaintext : Bytes)
  | extracting (plaintext : Bytes) (realDurationSec : Option Rat)
  | transcribing (plaintext : Bytes) (segments : List AudioSegment) (parts : List JsString) (lang : Option JsString) (audioBytes : Nat)

/-- What a call awaits. -/
inductive Input
  /-- The call begins. -/
  | start (aborted : Bool)
  /-- A mirror has sent a whole body. -/
  | body (chunks : List Bytes)
  /-- A mirror has failed after these chunks. -/
  | broken (chunks : List Bytes) (retryable : Bool)
  /-- There is no mirror left. -/
  | exhausted
  | decrypted
  | probed (durationSec : Option Rat)
  | extracted (segments : List AudioSegment)
  /-- ffmpeg has refused the input. -/
  | refused
  /-- The provider has answered for a segment. -/
  | heard (text : JsString) (language : Option JsString)
  /-- There is no segment left. -/
  | complete
  /-- The probe, the extraction or the provider has thrown, or the signal is aborted. -/
  | thrown

/-- What is booked by `onUsage`. -/
structure Usage where
  bytes : Nat := 0
  durationSec : Rat := 0

/-- What a call does in one step. -/
structure Effect where
  store : Store
  after : Stage ⊕ Outcome
  usage : List Usage := []
  /-- The bytes streamed. -/
  streamed : Nat := 0
  /-- What the provider has made of a plaintext. -/
  heard : Option (Bytes × JsString) := none
  /-- It records a ref of the call's owner. -/
  ref : Bool := false

/-- The cap of a download. -/
def Ask.cap (ask : Ask) : Nat := min (ask.maxMediaBytes.getD defaultMaxMediaBytes) ask.descriptor.size

/-- The bytes that `readCapped` reads of a body: up to the chunk that goes over the cap. -/
def readBytes (cap : Nat) : Nat → List Bytes → Nat
  | total, [] => total
  | total, chunk :: chunks =>
    if total + chunk.length > cap then total + chunk.length else readBytes cap (total + chunk.length) chunks

/-- The rest of `transcribeMedia` from the extracted audio on; `measured` is its length where each segment has one. -/
def measured (segments : List AudioSegment) : Option Rat :=
  if segments.all (·.durationSec.isSome) then some (segments.map fun s => s.durationSec.getD 0).sum else none

section

variable (crypto : Crypto)

/-- One step of `transcribeMedia`. -/
def advance (s : Store) (ask : Ask) : Stage → Input → Option Effect
  | .starting, .start aborted =>
    let d := ask.descriptor
    let cached := s.transcripts d.x
    match cached.filter fun row => row.key_fp = some (transcriptKeyFingerprint crypto d) with
    | some row => some { store := s.recordTranscriptRef d.x ask.owner, after := .inr (.text row.text row.lang), ref := ask.owner.isSome }
    | none =>
      some { store := s, after :=
        if s.attempts d.x ≥ maxEmptySttAttempts then .inr (.rejected .empty)
        else if aborted then .inr .error
        else .inl (.downloading cached d.url 0 (!d.url.isEmpty)) }
  | .downloading cached (_ :: urls) streamed allPermanent, .body chunks =>
    let n := readBytes ask.cap 0 chunks
    let ciphertext := chunks.flatten
    if ciphertext.length ≤ ask.cap ∧ crypto.sha256Hex ciphertext = ask.descriptor.x then
      some { store := s, streamed := n, usage := [{ bytes := max (streamed + n) ciphertext.length }], after :=
        if ciphertext.length ≠ ask.descriptor.size then .inr (.rejected .size) else .inl (.decrypting cached ciphertext) }
    else some { store := s, streamed := n, after := .inl (.downloading cached urls (streamed + n) allPermanent) }
  | .downloading cached (_ :: urls) streamed allPermanent, .broken chunks retryable =>
    let n := readBytes ask.cap 0 chunks
    let permanent := !retryable || n > ask.cap
    some { store := s, streamed := n, after := .inl (.downloading cached urls (streamed + n) (allPermanent && permanent)) }
  | .downloading _ [] streamed allPermanent, .exhausted =>
    let why : Outcome := if allPermanent then .rejected .blob else .error
    some { store := s, usage := if streamed > 0 then [{ bytes := streamed }] else [], after := .inr why }
  | .decrypting cached ciphertext, .decrypted =>
    match decryptMedia crypto ask.descriptor ciphertext with
    | none => some { store := s, after := .inr (.rejected .key) }
    | some plaintext =>
      match cached.filter fun row => row.text ≠ [] with
      | some row =>
        let x := ask.descriptor.x
        some {
          store := (s.setTranscriptKeyFp x (transcriptKeyFingerprint crypto ask.descriptor)).recordTranscriptRef x ask.owner
          after := .inr (.text row.text row.lang)
          ref := ask.owner.isSome }
      | none => some { store := s, after := .inl (.probing plaintext) }
  | .probing plaintext, .probed durationSec =>
    some { store := s, usage := [{ durationSec := durationSec.getD 0 }], after :=
      if ask.maxDurationSec ≠ 0 ∧ durationSec = none then .inr (.rejected .unprobed)
      else if ask.maxDurationSec ≠ 0 ∧ durationSec.any (· > ask.maxDurationSec) then .inr (.rejected .duration)
      else .inl (.extracting plaintext durationSec) }
  | .extracting _ _, .refused => some { store := s, after := .inr (.rejected .extraction) }
  | .extracting plaintext realDurationSec, .extracted segments =>
    let extra : Rat := ((measured segments).map fun m => (m + 1 / 2).floor - realDurationSec.getD 0).getD 0
    some { store := s, usage := if extra > 0 then [{ durationSec := extra }] else [], after :=
      if ask.maxDurationSec ≠ 0 ∧ (measured segments).any (· > ask.maxDurationSec + 1 / 2) then .inr (.rejected .overrun)
      else .inl (.transcribing plaintext segments [] none (segments.map AudioSegment.bytes).sum) }
  | .transcribing plaintext (_ :: segments) parts lang audioBytes, .heard text language =>
    some { store := s, after := .inl (.transcribing plaintext segments (parts ++ [text]) (lang.or (language.filter (· ≠ []))) audioBytes) }
  | .transcribing plaintext [] parts lang audioBytes, .complete =>
    let x := ask.descriptor.x
    let transcript := trim ((parts.intersperse (js " ")).flatten)
    if transcript = [] ∧ audioBytes ≥ minAudioBytesToExpectSpeech then
      let s := s.recordEmptyStt x
      let why : Outcome := if s.attempts x ≥ maxEmptySttAttempts then .rejected .empty else .emptyTranscript
      some { store := s, heard := some (plaintext, transcript), after := .inr why }
    else
      some {
        store := s.putTranscript x transcript lang ask.owner (transcriptKeyFingerprint crypto ask.descriptor)
        heard := some (plaintext, transcript)
        after := .inr (.text transcript lang)
        ref := ask.owner.isSome }
  | .probing _, .thrown | .extracting _ _, .thrown | .transcribing _ _ _ _ _, .thrown => some { store := s, after := .inr .error }
  | _, _ => none

end

/-! ## Calls -/

/-- The store, the calls begun, those in flight and those that are over, and what they booked. -/
structure World where
  store : Store := {}
  asked : Nat → Option Ask := fun _ => none
  stages : Nat → Option Stage := fun _ => none
  outcomes : Nat → Option Outcome := fun _ => none
  usage : List (Nat × Usage) := []
  /-- The bytes that each call has streamed. -/
  streamed : Nat → Nat := fun _ => 0
  /-- What the provider has made of plaintexts. -/
  heard : List (Bytes × JsString) := []
  /-- The calls that have recorded a ref of their owner. -/
  recorded : List Nat := []

inductive Act
  | call (i : Nat) (ask : Ask)
  | go (i : Nat) (input : Input)

/-- The call that an action is of. -/
def Act.number : Act → Nat
  | .call i _ => i
  | .go i _ => i

/-- A call is made. -/
def begin (w : World) (i : Nat) (ask : Ask) : World :=
  { w with asked := Function.update w.asked i (some ask), stages := Function.update w.stages i (some .starting) }

/-- A call has done this. -/
def apply (w : World) (i : Nat) (e : Effect) : World where
  store := e.store
  asked := w.asked
  stages := Function.update w.stages i e.after.getLeft?
  outcomes := Function.update w.outcomes i e.after.getRight?
  usage := w.usage ++ e.usage.map fun u => (i, u)
  streamed := Function.update w.streamed i (w.streamed i + e.streamed)
  heard := w.heard ++ e.heard.toList
  recorded := if e.ref then w.recorded ++ [i] else w.recorded

def act (crypto : Crypto) (w : World) : Act → Option World
  | .call i ask =>
    if (w.asked i).isSome then none else some (begin w i ask)
  | .go i input =>
    match w.asked i, w.stages i with
    | some ask, some stage => (advance crypto w.store ask stage input).map (apply w i)
    | _, _ => none

def Step (crypto : Crypto) (w : World) (x : Act) (w' : World) : Prop := act crypto w x = some w'

end Nostrautica.Transcripts
