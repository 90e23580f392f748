/-
The profiles of `protocol/src/schemas.ts`: what an attendee authors, what is derived
from it, corrections of that, and the directory entry that shows both.

A number with a fraction is kept as the text `JSON.stringify` writes for it. The URL
parser is a parameter.
-/
import Nostrautica.Js.JsonText
import Nostrautica.Protocol.Config

namespace Nostrautica

open Js

/-! ## Bounds -/

/-- `MAX_URL`. -/
def maxUrl : Nat := 2048

/-- `MAX_MEDIA_URLS`. -/
def maxMediaUrls : Nat := 8

/-- `MAX_LANG`. -/
def maxLang : Nat := 35

/-- `MAX_INTRO_TEXT`. -/
def maxIntroText : Nat := 2000

/-- `MAX_ABOUT`. -/
def maxAbout : Nat := 5000

/-- `MAX_LOOKING_FOR`. -/
def maxLookingFor : Nat := 2000

/-- `MAX_SKILLS`. -/
def maxSkills : Nat := 50

/-- `MAX_SKILL`. -/
def maxSkill : Nat := 200

/-- `MAX_LINKS`. -/
def maxLinks : Nat := 20

/-- `MAX_SUBMISSION_MEDIA`. -/
def maxSubmissionMedia : Nat := 4

/-- `MAX_TRANSCRIPTS`. -/
def maxTranscripts : Nat := 20

/-! ## Values -/

structure AttendeeProfile where
  about : JsString
  skills : List JsString
  looking_for : JsString
  links : List JsString
  deriving DecidableEq

structure ProfileTranslation where
  lang : JsString
  about : Option JsString
  looking_for : Option JsString
  skills : Option (List JsString)
  deriving DecidableEq

structure AiProfile where
  summary : JsString
  skills : List JsString
  interests : List JsString
  offers : List JsString
  seeks : List JsString
  translations : Option ProfileTranslation
  deriving DecidableEq

/-- A number, as `JSON.stringify` writes it. -/
structure Numeral where
  text : JsString
  ascii : isAscii text = true
  deriving DecidableEq

inductive MediaKind
  | intro
  | talk
  deriving DecidableEq

def MediaKind.toJson : MediaKind → JsString
  | intro => js "intro"
  | talk => js "talk"

structure MediaDescriptor where
  kind : MediaKind
  url : List JsString
  x : JsString
  ox : JsString
  size : Int
  m : JsString
  duration : Option Numeral
  /-- `decryption-key`. -/
  decryption_key : JsString
  /-- `decryption-nonce`. -/
  decryption_nonce : JsString
  deriving DecidableEq

inductive TranscriptSource
  | stt
  | authored
  deriving DecidableEq

def TranscriptSource.toJson : TranscriptSource → JsString
  | stt => js "stt"
  | authored => js "authored"

structure MediaTranscript where
  x : JsString
  text : JsString
  lang : JsString
  source : TranscriptSource
  updated_at : Int
  deriving DecidableEq

/-- `AI_PROFILE_FIELDS`. -/
inductive AiProfileField
  | summary | skills | interests | offers | seeks
  deriving DecidableEq

structure AiProfileOverride where
  summary : Option JsString
  skills : Option (List JsString)
  interests : Option (List JsString)
  offers : Option (List JsString)
  seeks : Option (List JsString)
  deriving DecidableEq

/-- `ProfileSubmissionContent`. -/
structure ProfileSubmission where
  rev : Nat
  profile : AttendeeProfile
  media : List MediaDescriptor
  intro_text : Option JsString
  deriving DecidableEq

/-- `ProfileCorrectionContent`. -/
structure ProfileCorrection where
  a : JsString
  rev : Nat
  overrides : Option AiProfileOverride
  hidden : Option Bool
  hidden_fields : Option (List AiProfileField)
  report : Option JsString
  deriving DecidableEq

/-- `DirectoryEntryContent`. -/
structure DirectoryEntry where
  pubkey : JsString
  name : Option JsString
  profile : AttendeeProfile
  media : List MediaDescriptor
  ai_profile : Option AiProfile
  ai_profile_edited : Option Bool
  transcripts : Option (List MediaTranscript)
  intro_text : Option JsString
  updated_at : Int
  deriving DecidableEq

/-! ## Schemas -/

/-- `z.string().max(n)`. -/
def maxString (n : Nat) (s : JsString) : Bool := s.length ≤ n

/-- `z.array(z.string().max(chars)).max(n)`. -/
def maxStrings (n chars : Nat) (l : List JsString) : Bool := l.length ≤ n && l.all (maxString chars)

/-- `/^[A-Za-z0-9+\/]+={0,2}$/`. -/
def isBase64 (s : JsString) : Bool :=
  let digit (c : CodeUnit) : Bool :=
    (65 ≤ c.val && c.val ≤ 90) || (97 ≤ c.val && c.val ≤ 122) || isDigit c || c.val == 43 || c.val == 47
  let body := s.takeWhile digit
  let pad := s.dropWhile digit
  body ≠ [] && pad.length ≤ 2 && pad.all (·.val == 61)

/-- `decodedByteLength(s)`. -/
def decodedByteLength (s : JsString) : Int :=
  if s.length = 0 || s.length % 4 ≠ 0 then -1
  else
    let pad : Int := if (js "==").isSuffixOf s then 2 else if (js "=").isSuffixOf s then 1 else 0
    s.length / 4 * 3 - pad

/-- `base64Bytes(nBytes, label)`. -/
def base64Bytes (nBytes : Nat) (s : JsString) : Bool := isBase64 s && decodedByteLength s = nBytes

section Url

variable (url : JsString → Option Config.Url)

/-- `httpsUrl(maxLen)`. -/
def httpsUrl (maxLen : Nat) (s : JsString) : Bool := maxString maxLen s && (url s).any (·.protocol = js "https:")

/-- `attendeeProfileSchema`. -/
def attendeeProfileSchema (p : AttendeeProfile) : Bool :=
  maxString maxAbout p.about && maxStrings maxSkills maxSkill p.skills && maxString maxLookingFor p.looking_for &&
    (p.links.length ≤ maxLinks && p.links.all (httpsUrl url maxUrl))

/-- `mediaDescriptorSchema`; a duration is finite and not negative. -/
def mediaDescriptorSchema (d : MediaDescriptor) : Bool :=
  (1 ≤ d.url.length && d.url.length ≤ maxMediaUrls && d.url.all (httpsUrl url maxUrl)) && isHex32 d.x && isHex32 d.ox &&
    (isNumberInt d.size && 1 ≤ d.size) && base64Bytes 32 d.decryption_key && base64Bytes 12 d.decryption_nonce &&
    !(((js "audio/").isPrefixOf d.m || (js "video/").isPrefixOf d.m) && d.duration.isNone)

end Url

/-- `profileTranslationSchema`. -/
def profileTranslationSchema (t : ProfileTranslation) : Bool :=
  maxString maxLang t.lang && t.about.all (maxString maxAbout) && t.looking_for.all (maxString maxLookingFor) &&
    t.skills.all (maxStrings maxSkills maxSkill)

/-- `aiProfileSchema`. -/
def aiProfileSchema (p : AiProfile) : Bool :=
  maxString maxAbout p.summary && maxStrings maxSkills maxSkill p.skills && maxStrings maxSkills maxSkill p.interests &&
    maxStrings maxSkills maxSkill p.offers && maxStrings maxSkills maxSkill p.seeks && p.translations.all profileTranslationSchema

/-- `aiProfileOverrideSchema`. -/
def aiProfileOverrideSchema (o : AiProfileOverride) : Bool :=
  o.summary.all (maxString maxAbout) && o.skills.all (maxStrings maxSkills maxSkill) &&
    o.interests.all (maxStrings maxSkills maxSkill) && o.offers.all (maxStrings maxSkills maxSkill) &&
    o.seeks.all (maxStrings maxSkills maxSkill)

/-- `profileSubmissionContentSchema`. -/
def profileSubmissionContentSchema (url : JsString → Option Config.Url) (s : ProfileSubmission) : Bool :=
  isNumberInt s.rev && attendeeProfileSchema url s.profile &&
    (s.media.length ≤ maxSubmissionMedia && s.media.all (mediaDescriptorSchema url)) && s.intro_text.all (maxString maxIntroText)

/-- `profileCorrectionContentSchema`. -/
def profileCorrectionContentSchema (c : ProfileCorrection) : Bool :=
  isNumberInt c.rev && c.overrides.all aiProfileOverrideSchema && c.hidden_fields.all (fun fields => fields.length ≤ 5) &&
    c.report.all (maxString maxIntroText)

def stringsText (l : List JsString) : JsString := arrayText (l.map quote)

/-- A field that is left out where it is `undefined`. -/
def fieldText (k : String) (v : Option JsString) : List (JsString × JsString) := v.toList.map fun t => (js k, t)

def AttendeeProfile.jsonText (p : AttendeeProfile) : JsString :=
  objectText [(js "about", quote p.about), (js "skills", stringsText p.skills), (js "looking_for", quote p.looking_for),
    (js "links", stringsText p.links)]

def ProfileTranslation.jsonText (t : ProfileTranslation) : JsString :=
  objectText ([(js "lang", quote t.lang)] ++ fieldText "about" (t.about.map quote) ++
    fieldText "looking_for" (t.looking_for.map quote) ++ fieldText "skills" (t.skills.map stringsText))

def AiProfile.jsonText (p : AiProfile) : JsString :=
  objectText ([(js "summary", quote p.summary), (js "skills", stringsText p.skills), (js "interests", stringsText p.interests),
    (js "offers", stringsText p.offers), (js "seeks", stringsText p.seeks)] ++
    fieldText "translations" (p.translations.map ProfileTranslation.jsonText))

def MediaDescriptor.jsonText (d : MediaDescriptor) : JsString :=
  objectText ([(js "kind", quote d.kind.toJson), (js "url", stringsText d.url), (js "x", quote d.x), (js "ox", quote d.ox),
    (js "size", intToString d.size), (js "m", quote d.m)] ++ fieldText "duration" (d.duration.map Numeral.text) ++
    [(js "encryption-algorithm", quote (js "aes-gcm")), (js "decryption-key", quote d.decryption_key),
      (js "decryption-nonce", quote d.decryption_nonce)])

def MediaTranscript.jsonText (t : MediaTranscript) : JsString :=
  objectText [(js "x", quote t.x), (js "text", quote t.text), (js "lang", quote t.lang), (js "source", quote t.source.toJson),
    (js "updated_at", intToString t.updated_at)]

/-- `JSON.stringify(entry)`, with the fields in the order of the schemas. -/
def DirectoryEntry.jsonText (e : DirectoryEntry) : JsString :=
  objectText ([(js "v", intToString protocolVersion), (js "pubkey", quote e.pubkey)] ++ fieldText "name" (e.name.map quote) ++
    [(js "profile", e.profile.jsonText), (js "media", arrayText (e.media.map MediaDescriptor.jsonText))] ++
    fieldText "ai_profile" (e.ai_profile.map AiProfile.jsonText) ++
    fieldText "ai_profile_edited" (e.ai_profile_edited.map fun b => if b then js "true" else js "false") ++
    fieldText "transcripts" (e.transcripts.map fun ts => arrayText (ts.map MediaTranscript.jsonText)) ++
    fieldText "intro_text" (e.intro_text.map quote) ++ [(js "updated_at", intToString e.updated_at)])

/-- `JSON.stringify(content)` of a profile submission. -/
def ProfileSubmission.jsonText (s : ProfileSubmission) : JsString :=
  objectText ([(js "v", intToString protocolVersion), (js "rev", intToString s.rev), (js "profile", s.profile.jsonText),
    (js "media", arrayText (s.media.map MediaDescriptor.jsonText))] ++ fieldText "intro_text" (s.intro_text.map quote))

/-- The name of a field. -/
def AiProfileField.toJson : AiProfileField → JsString
  | summary => js "summary"
  | skills => js "skills"
  | interests => js "interests"
  | offers => js "offers"
  | seeks => js "seeks"

def AiProfileOverride.jsonText (o : AiProfileOverride) : JsString :=
  objectText (fieldText "summary" (o.summary.map quote) ++ fieldText "skills" (o.skills.map stringsText) ++
    fieldText "interests" (o.interests.map stringsText) ++ fieldText "offers" (o.offers.map stringsText) ++
    fieldText "seeks" (o.seeks.map stringsText))

/-- `JSON.stringify(content)` of a correction. -/
def ProfileCorrection.jsonText (c : ProfileCorrection) : JsString :=
  objectText ([(js "v", intToString protocolVersion), (js "a", quote c.a), (js "rev", intToString c.rev)] ++
    fieldText "overrides" (c.overrides.map AiProfileOverride.jsonText) ++
    fieldText "hidden" (c.hidden.map fun b => if b then js "true" else js "false") ++
    fieldText "hidden_fields" (c.hidden_fields.map fun fields => arrayText (fields.map fun f => quote f.toJson)) ++
    fieldText "report" (c.report.map quote))

end Nostrautica
