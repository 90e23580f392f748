/-
The directory entry of an attendee: `publishDirectory` of `coordinator/src/coordinator.ts`,
with `applyCorrection`, and `nostr/hygiene.ts`.

A JSON column is kept as the value that was stringified.
-/
import Nostrautica.Protocol.Profiles

namespace Nostrautica.Directory

open Js

/-! ## Hygiene -/

/-- `MAX_LLM_TEXT_CHARS`. -/
def maxLlmTextChars : Nat := 2000

/-- `MAX_NAME_CHARS`. -/
def maxNameChars : Nat := 200

/-- `MAX_PROFILE_FIELD_CHARS`. -/
def maxProfileFieldChars : Nat := 4000

/-- `s.trimEnd()`. -/
def trimEnd (s : JsString) : JsString := (s.reverse.dropWhile isSpace).reverse

/-- `cut.search(/\s+\S*$/)`; `none` where there is no white space. -/
def lastSpace (cut : JsString) : Option Nat :=
  if cut.any isSpace then some (trimEnd (cut.reverse.dropWhile fun c => !isSpace c).reverse).length else none

/-- `truncateWords(text, max)`. -/
def truncateWords (text : JsString) (max : Nat) : JsString :=
  if text.length ≤ max then text
  else
    let cut := text.take (max - 1)
    trimEnd (match lastSpace cut with
      | some i => if 2 * i > max then cut.take i else cut
      | none => cut) ++ js "…"

/-- A letter of ASCII in its lower case. -/
def lowerAscii (c : CodeUnit) : CodeUnit := if 65 ≤ c.val ∧ c.val ≤ 90 then codeUnit (c.val + 32) else c

/-- The length of a match of `/https?:\/\//i` at the front, or zero. -/
def schemeLength (s : JsString) : Nat :=
  if (s.take 7).map lowerAscii = js "http://" then 7
  else if (s.take 8).map lowerAscii = js "https://" then 8
  else 0

/-- What a scan for matches keeps, `skip` units into it. -/
def dropSchemes : Nat → JsString → JsString
  | _, [] => []
  | skip + 1, _ :: s => dropSchemes skip s
  | 0, c :: s =>
    match schemeLength (c :: s) with
    | 0 => c :: dropSchemes 0 s
    | n + 1 => dropSchemes n s

/-- `neutralizeUrls(text)`. -/
def neutralizeUrls (text : JsString) : JsString := dropSchemes 0 text

/-- `sanitizeLlmText(text, max)`. -/
def sanitizeLlmText (text : JsString) (max : Nat) : JsString := truncateWords (neutralizeUrls text) max

/-- `text ? truncateWords(text, max) : text`. -/
def truncateSome (max : Nat) (text : JsString) : JsString := if text = [] then text else truncateWords text max

/-- `sanitizeAiProfile(profile)`. -/
def sanitizeAiProfile (p : AiProfile) : AiProfile where
  summary := sanitizeLlmText p.summary maxLlmTextChars
  skills := p.skills.map (sanitizeLlmText · 200)
  interests := p.interests.map (sanitizeLlmText · 200)
  offers := p.offers.map (sanitizeLlmText · 200)
  seeks := p.seeks.map (sanitizeLlmText · 200)
  translations := p.translations.map fun t =>
    { lang := t.lang
      about := t.about.map (truncateSome maxProfileFieldChars)
      looking_for := t.looking_for.map (truncateSome maxProfileFieldChars)
      skills := t.skills.map fun skills => (skills.take maxSkills).map (truncateWords · maxSkill) }

/-- `capAuthoredText(text, max)`. -/
def capAuthoredText (text : JsString) (max : Nat) : JsString := if text.length > max then text.take max else text

/-! ## Corrections -/

/-- `Object.keys(overrides).length > 0`. -/
def overridesSome (o : AiProfileOverride) : Bool :=
  o.summary.isSome || o.skills.isSome || o.interests.isSome || o.offers.isSome || o.seeks.isSome

/-- `{ ...aiProfile, ...overrides }`. -/
def override (p : AiProfile) (o : AiProfileOverride) : AiProfile :=
  { p with
    summary := o.summary.getD p.summary
    skills := o.skills.getD p.skills
    interests := o.interests.getD p.interests
    offers := o.offers.getD p.offers
    seeks := o.seeks.getD p.seeks }

/-- `aiProfile[f] = f === "summary" ? "" : []`. -/
def blank (p : AiProfile) : AiProfileField → AiProfile
  | .summary => { p with summary := [] }
  | .skills => { p with skills := [] }
  | .interests => { p with interests := [] }
  | .offers => { p with offers := [] }
  | .seeks => { p with seeks := [] }

/-- `applyCorrection(generated, correction)`. -/
def applyCorrection : Option AiProfile → Option ProfileCorrection → Option AiProfile × Bool
  | none, _ => (none, false)
  | some generated, none => (some generated, false)
  | some generated, some correction =>
    if correction.hidden = some true then (none, false)
    else
      let (aiProfile, edited) :=
        match correction.overrides with
        | some o => if overridesSome o then (override generated o, true) else (generated, false)
        | none => (generated, false)
      match correction.hidden_fields with
      | some (f :: fields) => (some ((f :: fields).foldl blank aiProfile), true)
      | _ => (some aiProfile, edited)

/-! ## The entry -/

/-- `profile_json`, with the `__media` and `__intro_text` stashed in it. -/
structure StoredProfile where
  profile : AttendeeProfile
  media : List MediaDescriptor
  intro_text : Option JsString
  deriving DecidableEq

/-- The row of an attendee, as far as its entry reads it. -/
structure Attendee where
  display_name : Option JsString := none
  profile_json : Option StoredProfile := none
  source_revision : Option JsString := none
  ai_profile_json : Option AiProfile := none
  ai_source_revision : Option JsString := none
  transcripts_json : Option (List MediaTranscript) := none
  correction_json : Option ProfileCorrection := none
  deriving DecidableEq

/-- A text that is not empty. -/
def truthy (s : Option JsString) : Option JsString := s.filter (· ≠ [])

/-- `parseStoredProfile(attendee)`. -/
def parseStoredProfile (attendee : Attendee) : StoredProfile :=
  match attendee.profile_json with
  | some raw => { raw with intro_text := truthy raw.intro_text }
  | none => ⟨⟨[], [], [], []⟩, [], none⟩

/-- Whether the derived profile is of what the row says now. -/
def aiFresh (attendee : Attendee) : Bool :=
  (truthy attendee.source_revision).isNone || attendee.ai_source_revision = attendee.source_revision

/-- The derived profile as corrected, and whether it was edited. -/
def correctedAi (attendee : Attendee) : Option AiProfile × Bool :=
  applyCorrection (if aiFresh attendee then attendee.ai_profile_json else none) attendee.correction_json

/-- The transcripts of media that are still there. -/
def liveTranscripts (attendee : Attendee) : List MediaTranscript :=
  (attendee.transcripts_json.getD []).filter fun tr => ((parseStoredProfile attendee).media.map (·.x)).contains tr.x

/-- `cappedProfile`. -/
def capProfile (p : AttendeeProfile) : AttendeeProfile where
  about := capAuthoredText p.about maxProfileFieldChars
  skills := (p.skills.take maxSkills).map (capAuthoredText · 200)
  looking_for := capAuthoredText p.looking_for maxProfileFieldChars
  links := (p.links.take 32).map (capAuthoredText · 500)

/-- The entry `publishDirectory(state, pubkey)` builds, at a reading of the clock in milliseconds. -/
def directoryEntry (pubkey : JsString) (attendee : Attendee) (now : Int) : DirectoryEntry :=
  let stored := parseStoredProfile attendee
  let corrected := correctedAi attendee
  let transcripts := liveTranscripts attendee
  { pubkey
    name := (truthy attendee.display_name).map (capAuthoredText · maxNameChars)
    profile := capProfile stored.profile
    media := stored.media
    ai_profile := corrected.1.map sanitizeAiProfile
    ai_profile_edited := if corrected.2 then some true else none
    transcripts := if transcripts = [] then none else some (transcripts.map fun t => { t with text := capAuthoredText t.text 8000 })
    intro_text := stored.intro_text.map (capAuthoredText · maxProfileFieldChars)
    updated_at := now / 1000 }

/-- `NIP44_MAX_PLAINTEXT_BYTES`. -/
def nip44MaxPlaintextBytes : Nat := 65535

end Nostrautica.Directory
