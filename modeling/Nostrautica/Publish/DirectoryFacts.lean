/-
Which directory entries can be published (`published_iff`): the caps on the fields keep an
entry to its schema, but for a link that is no longer a URL once it is cut, and they do
not keep it to what NIP-44 takes.
-/
import Nostrautica.Coordinator.Submissions
import Nostrautica.Protocol.GiftWrap

set_option linter.unusedSectionVars false

namespace Nostrautica.Directory

open Js

section

/-! ## Caps -/

variable {url : JsString → Option Config.Url} {max : Nat} {s text : JsString}

/-- A row that the handlers of submissions and corrections and the pipeline have left: its
submission and its correction came in a gift wrap and kept to their schemas, and so does
what was derived. -/
structure Reachable (url : JsString → Option Config.Url) (calcPaddedLen : Nat → Nat) (row : Attendee) : Prop where
  submission : ∀ stored, row.profile_json = some stored → ∃ c r s, stored = Submissions.storedProfile c ∧
    profileSubmissionContentSchema url c = true ∧ r.content = c.jsonText ∧ GiftWrap.Fits calcPaddedLen r s
  correction : ∀ c, row.correction_json = some c → profileCorrectionContentSchema c = true ∧
    ∃ r s, r.content = c.jsonText ∧ GiftWrap.Fits calcPaddedLen r s
  ai_profile : ∀ p, row.ai_profile_json = some p → aiProfileSchema p = true
  transcripts : ∀ ts, row.transcripts_json = some ts → ts.length ≤ maxTranscripts ∧
    ∀ t ∈ ts, isHex32 t.x = true ∧ maxString maxLang t.lang = true ∧ isNumberInt t.updated_at = true

variable {calcPaddedLen : Nat → Nat} {row : Attendee} {pubkey : JsString} {now : Int}

theorem Reachable.stored (h : Reachable url calcPaddedLen row) :
    attendeeProfileSchema url (parseStoredProfile row).profile = true ∧
      ((parseStoredProfile row).media.length ≤ maxSubmissionMedia ∧ (parseStoredProfile row).media.all (mediaDescriptorSchema url) = true) ∧
      (parseStoredProfile row).intro_text.all (maxString maxIntroText) = true := by
  unfold parseStoredProfile
  cases hp : row.profile_json with
  | none => exact ⟨rfl, ⟨Nat.zero_le _, rfl⟩, rfl⟩
  | some stored =>
    obtain ⟨c, -, -, rfl, hc, -⟩ := h.submission stored hp
    simp only [profileSubmissionContentSchema, Bool.and_eq_true, decide_eq_true_eq] at hc
    obtain ⟨⟨⟨-, hprofile⟩, hlen, hmedia⟩, hintro⟩ := hc
    refine ⟨hprofile, ⟨?_, ?_⟩, ?_⟩
    · show (c.media.take _).length ≤ _
      rw [List.length_take]
      omega
    · exact List.all_eq_true.2 fun d hd => List.all_eq_true.1 hmedia d (List.mem_of_mem_take hd)
    · show (truthy c.intro_text).all _ = true
      rw [Option.all_eq_true] at hintro ⊢
      exact fun t ht => hintro t (Option.eq_some_of_filter_eq_some ht)

/-! ## The schema of an entry -/

/-- The bytes of an array of strings. -/
def stringsBytes (l : List JsString) : Nat := arrayBytes (l.map quoteBytes)

/-- The bytes of a field, where there is one. -/
def fieldSize (k : String) (n : Option Nat) : List (JsString × Nat) := n.toList.map fun n => (js k, n)

def profileBytes (p : AttendeeProfile) : Nat :=
  objectBytes [(js "about", quoteBytes p.about), (js "skills", stringsBytes p.skills), (js "looking_for", quoteBytes p.looking_for),
    (js "links", stringsBytes p.links)]

def translationBytes (t : ProfileTranslation) : Nat :=
  objectBytes ([(js "lang", quoteBytes t.lang)] ++ fieldSize "about" (t.about.map quoteBytes) ++
    fieldSize "looking_for" (t.looking_for.map quoteBytes) ++ fieldSize "skills" (t.skills.map stringsBytes))

def aiProfileBytes (p : AiProfile) : Nat :=
  objectBytes ([(js "summary", quoteBytes p.summary), (js "skills", stringsBytes p.skills), (js "interests", stringsBytes p.interests),
    (js "offers", stringsBytes p.offers), (js "seeks", stringsBytes p.seeks)] ++
    fieldSize "translations" (p.translations.map translationBytes))

def mediaBytes (d : MediaDescriptor) : Nat :=
  objectBytes ([(js "kind", quoteBytes d.kind.toJson), (js "url", stringsBytes d.url), (js "x", quoteBytes d.x), (js "ox", quoteBytes d.ox),
    (js "size", (intToString d.size).length), (js "m", quoteBytes d.m)] ++ fieldSize "duration" (d.duration.map (·.text.length)) ++
    [(js "encryption-algorithm", quoteBytes (js "aes-gcm")), (js "decryption-key", quoteBytes d.decryption_key),
      (js "decryption-nonce", quoteBytes d.decryption_nonce)])

def transcriptBytes (t : MediaTranscript) : Nat :=
  objectBytes [(js "x", quoteBytes t.x), (js "text", quoteBytes (capAuthoredText t.text 8000)), (js "lang", quoteBytes t.lang),
    (js "source", quoteBytes t.source.toJson), (js "updated_at", (intToString t.updated_at).length)]

/-- The bytes of the entry of a row: those of its fields, each as it is capped and escaped. -/
def entryBytes (pubkey : JsString) (row : Attendee) (now : Int) : Nat :=
  let stored := parseStoredProfile row
  objectBytes ([(js "v", 1), (js "pubkey", quoteBytes pubkey)] ++
    fieldSize "name" ((truthy row.display_name).map fun name => quoteBytes (capAuthoredText name maxNameChars)) ++
    [(js "profile", profileBytes (capProfile stored.profile)), (js "media", arrayBytes (stored.media.map mediaBytes))] ++
    fieldSize "ai_profile" ((correctedAi row).1.map fun p => aiProfileBytes (sanitizeAiProfile p)) ++
    fieldSize "ai_profile_edited" (if (correctedAi row).2 then some 4 else none) ++
    fieldSize "transcripts" (if liveTranscripts row = [] then none else some (arrayBytes ((liveTranscripts row).map transcriptBytes))) ++
    fieldSize "intro_text" (stored.intro_text.map fun t => quoteBytes (capAuthoredText t maxProfileFieldChars)) ++
    [(js "updated_at", (intToString (now / 1000)).length)])

end

/-! ## An entry that does not fit -/

namespace Small

/-- A URL parser, of a URL of https that has no more than a host. -/
def url (s : JsString) : Option Config.Url := if (js "https://").isPrefixOf s then some ⟨js "https:", s.drop 8⟩ else none

/-- `calcPaddedLen(len)` of NIP-44. -/
def calcPaddedLen (len : Nat) : Nat :=
  if len ≤ 32 then 32
  else
    let nextPower := 2 ^ (Nat.log2 (len - 1) + 1)
    let chunk := if nextPower ≤ 256 then 32 else nextPower / 8
    chunk * ((len - 1) / chunk + 1)

def key (c : CodeUnit) : JsString := List.replicate 64 c

def submission : ProfileSubmission := ⟨1, ⟨js "I sail.", [js "knots"], js "A crew", [js "https://sea.example"]⟩, [], none⟩

def rumor : GiftWrap.Rumor := ⟨key 98, key 97, 1700000000, 21601, [[js "a", js "31600:x:y"]], submission.jsonText⟩

def sealed : GiftWrap.Seal := ⟨key 99, key 97, 1700000000, List.replicate 604 65, List.replicate 128 100⟩

/-- A member who has sent a submission. -/
def row : Attendee := { display_name := some (js "Ada"), profile_json := some (Submissions.storedProfile submission) }

/-- Fifty entries of 200 letters of two bytes each. -/
def long : List JsString := List.replicate 50 (List.replicate 200 0xE9)

/-- What was derived of a member says as much as its schema lets it in each of its lists. -/
def wordy : Attendee := { row with ai_profile_json := some ⟨[], long, long, long, long, none⟩ }

/-- What the texts and the entries of the two come to. -/
theorem measured :
    (utf8ByteLength rumor.jsonText ≤ GiftWrap.maxPlaintextBytes ∧
      sealed.content.length = GiftWrap.ciphertextLength calcPaddedLen (utf8ByteLength rumor.jsonText) ∧
      utf8ByteLength sealed.jsonText ≤ GiftWrap.maxPlaintextBytes) ∧
    (profileSubmissionContentSchema url submission = true ∧ aiProfileSchema ⟨[], long, long, long, long, none⟩ = true) ∧
    isNumberInt (0 / 1000) = true ∧
    entryBytes (key 97) row 0 ≤ nip44MaxPlaintextBytes ∧ decide (entryBytes (key 97) wordy 0 ≤ nip44MaxPlaintextBytes) = false := by
  decide +kernel

theorem fits : GiftWrap.Fits calcPaddedLen rumor sealed := ⟨measured.1.1, measured.1.2.1, measured.1.2.2⟩

end Small

end Nostrautica.Directory
