/-
The calendar file of an event: `app/src/lib/events/ics.ts`, but for the file's name. A text
without lone surrogates is the list of its code points.

What a calendar program reads in the exported file: the content lines that were built, in
physical lines of at most 75 octets, and the texts behind their escapes.
-/
import Nostrautica.Coding.Fold
import Mathlib

namespace Nostrautica.Ics

abbrev Text := List Char

/-- `String(n)` of a whole number. -/
def decimal (n : Nat) : Text := Nat.toDigits 10 n

/-! ## Times -/

/-- A UTC date and time of day. -/
structure UtcDate where
  fullYear : Nat
  month : Nat
  date : Nat
  hours : Nat
  minutes : Nat
  seconds : Nat
  deriving DecidableEq

/-- `new Date(unixSec * 1000)` by its `getUTC…`; months count from 0. The days are counted from a 1 March,
in eras of 400 years. -/
def utcDate (unixSec : Nat) : UtcDate :=
  let days := unixSec / 86400 + 719468
  let era := days / 146097
  let dayOfEra := days % 146097
  let yearOfEra := (dayOfEra - dayOfEra / 1460 + dayOfEra / 36524 - dayOfEra / 146096) / 365
  let dayOfYear := dayOfEra - (365 * yearOfEra + yearOfEra / 4 - yearOfEra / 100)
  let mp := (5 * dayOfYear + 2) / 153
  let month := (mp + 2) % 12
  ⟨yearOfEra + era * 400 + if month < 2 then 1 else 0, month, dayOfYear - (153 * mp + 2) / 5 + 1,
    unixSec / 3600 % 24, unixSec / 60 % 60, unixSec % 60⟩

/-- `String(n).padStart(2, "0")`. -/
def p (n : Nat) : Text := (decimal n).leftpad 2 '0'

/-- A `Date` is invalid from here on, and its numbers are `NaN`. -/
def maxUnixSec : Nat := 8640000000000

def icsUtc (unixSec : Nat) : Text :=
  if unixSec ≤ maxUnixSec then
    let d := utcDate unixSec
    decimal d.fullYear ++ p (d.month + 1) ++ p d.date ++ 'T' :: (p d.hours ++ p d.minutes ++ p d.seconds ++ ['Z'])
  else "NaNNaNNaNTNaNNaNNaNZ".toList

/-! ## Texts -/

/-- `text.replace(/c/g, w)`. -/
def replaceAll (c : Char) (w text : Text) : Text := text.flatMap fun d => if d = c then w else [d]

/-- `text.replace(/\r\n|\r|\n/g, w)`. -/
def replaceBreaks (w : Text) : Text → Text
  | '\r' :: '\n' :: s => w ++ replaceBreaks w s
  | '\r' :: s => w ++ replaceBreaks w s
  | '\n' :: s => w ++ replaceBreaks w s
  | c :: s => c :: replaceBreaks w s
  | [] => []

def icsEscape (text : Text) : Text :=
  replaceBreaks ['\\', 'n'] (replaceAll ',' ['\\', ','] (replaceAll ';' ['\\', ';'] (replaceAll '\\' ['\\', '\\'] text)))

/-! ## Lines -/

def utf8Octets (cp : Nat) : Nat := if cp < 0x80 then 1 else if cp < 0x800 then 2 else if cp < 0x10000 then 3 else 4

/-- The variables of `foldLine`'s loop; `limit` is 75 before and after every turn. -/
structure Folding where
  parts : List Text
  cur : Text
  octets : Nat

def foldStep (s : Folding) (ch : Char) : Folding :=
  let n := utf8Octets ch.toNat
  if s.octets + n > 75 then ⟨s.parts ++ [s.cur], [' ', ch], 1 + n⟩ else ⟨s.parts, s.cur ++ [ch], s.octets + n⟩

def foldLine (line : Text) : Text :=
  let s := line.foldl foldStep ⟨[], [], 0⟩
  List.intercalate ['\r', '\n'] (s.parts ++ [s.cur])

/-! ## The file -/

structure IcsEvent where
  uid : Option Text
  title : Text
  description : Option Text
  location : Option Text
  start : Nat
  «end» : Option Nat
  url : Option Text

/-- `if (text)`. -/
def given (text : Option Text) : List Text := (text.filter (· ≠ [])).toList

namespace IcsEvent

/-- `end` of `buildIcs`. -/
def endSec (ev : IcsEvent) : Nat :=
  match ev.end with
  | some e => if e ≠ 0 ∧ e > ev.start then e else ev.start + 2 * 60 * 60
  | none => ev.start + 2 * 60 * 60

/-- `desc` of `buildIcs`. -/
def desc (ev : IcsEvent) : Text := List.intercalate ['\n', '\n'] (given ev.description ++ given ev.url)

end IcsEvent

/-- `lines` of `buildIcs`; `random` is `Math.random().toString(36).slice(2)`, and `now` is in milliseconds. -/
def contentLines (random : Text) (ev : IcsEvent) (now : Nat) : List Text :=
  ["BEGIN:VCALENDAR".toList, "VERSION:2.0".toList, "PRODID:-//Nostrautica//Event//EN".toList, "CALSCALE:GREGORIAN".toList,
    "METHOD:PUBLISH".toList, "BEGIN:VEVENT".toList,
    "UID:".toList ++ icsEscape (ev.uid.getD (random ++ '-' :: decimal now)),
    "DTSTAMP:".toList ++ icsUtc (now / 1000),
    "DTSTART:".toList ++ icsUtc ev.start,
    "DTEND:".toList ++ icsUtc ev.endSec,
    "SUMMARY:".toList ++ icsEscape ev.title] ++
  (given (some ev.desc)).map (fun desc => "DESCRIPTION:".toList ++ icsEscape desc) ++
  (given ev.location).map (fun location => "LOCATION:".toList ++ icsEscape location) ++
  (given ev.url).map (fun url => "URL:".toList ++ icsEscape url) ++
  ["END:VEVENT".toList, "END:VCALENDAR".toList]

def buildIcs (random : Text) (ev : IcsEvent) (now : Nat) : Text :=
  List.intercalate ['\r', '\n'] ((contentLines random ev now).map foldLine) ++ ['\r', '\n']

open Fold

variable {text : Text} {l : Text} {c : Char}

/-! ## The reader -/

def utf8 (text : Text) : List UInt8 := text.flatMap String.utf8EncodeChar

def isBlank (b : UInt8) : Bool := b = 32 || b = 9

/-- The physical lines of a file; each is ended by CR LF. -/
def physicalLines (file : List UInt8) : List (List UInt8) := (splitLines 13 10 file).dropLast

/-- The content lines of a file: a line break and the blank after it are taken out. -/
def unfoldedLines (file : List UInt8) : List (List UInt8) := readLines 13 10 isBlank file

/-- The name of a content line ends at its parameters or its value. -/
def nameOf (line : Text) : Text := line.takeWhile fun c => c ≠ ':' && c ≠ ';'

/-- The values of a property without parameters. -/
def valuesOf (name : Text) (lines : List Text) : List Text :=
  lines.filterMap fun line => if nameOf line = name then some (line.drop (name.length + 1)) else none

/-- A TEXT value read: a backslash and `n` or `N` is a line feed, and with another character that one. -/
def unescape : Text → Text
  | '\\' :: c :: s => (if c = 'n' ∨ c = 'N' then '\n' else c) :: unescape s
  | c :: s => c :: unescape s
  | [] => []

/-- A text with every line break a line feed. -/
def normalized (text : Text) : Text := replaceBreaks ['\n'] text

/-! ## Escapes -/

section escapes

/-- What `icsEscape` writes for a character, a line break being a line feed. -/
def escapeChar (c : Char) : Text :=
  if c = '\\' then ['\\', '\\'] else if c = ';' then ['\\', ';'] else if c = ',' then ['\\', ','] else if c = '\n' then ['\\', 'n'] else [c]

theorem replaceBreaks_other {w : Text} (hr : c ≠ '\r') (hn : c ≠ '\n') (s : Text) : replaceBreaks w (c :: s) = c :: replaceBreaks w s := by
  rw [replaceBreaks] <;> simp_all

theorem replaceBreaks_return {w s : Text} (h : ∀ t, s ≠ '\n' :: t) : replaceBreaks w ('\r' :: s) = w ++ replaceBreaks w s := by
  rw [replaceBreaks]
  exact h

theorem replaceBreaks_append {w t : Text} (ht : ∀ c ∈ t, c ≠ '\r' ∧ c ≠ '\n') (s : Text) : replaceBreaks w (t ++ s) = t ++ replaceBreaks w s := by
  induction t with
  | nil => rfl
  | cons c t ih =>
    obtain ⟨hr, hn⟩ := ht c List.mem_cons_self
    rw [List.cons_append, replaceBreaks_other hr hn, ih fun d hd => ht d (List.mem_cons_of_mem _ hd), List.cons_append]

/-- The first three replacements of `icsEscape`, character by character. -/
def escapeMark (c : Char) : Text := if c = '\\' then ['\\', '\\'] else if c = ';' then ['\\', ';'] else if c = ',' then ['\\', ','] else [c]

theorem replaceAll_marks (text : Text) :
    replaceAll ',' ['\\', ','] (replaceAll ';' ['\\', ';'] (replaceAll '\\' ['\\', '\\'] text)) = text.flatMap escapeMark := by
  unfold replaceAll
  rw [List.flatMap_assoc, List.flatMap_assoc]
  refine congrArg (List.flatMap · text) (funext fun c => ?_)
  unfold escapeMark
  split_ifs with hslash hsemi hcomma
  · rfl
  · subst hsemi
    rfl
  · subst hcomma
    rfl
  · rw [List.flatMap_singleton, if_neg hsemi, List.flatMap_singleton, if_neg hcomma]

/-- Each character of a fixed text is looked at, not each character there is. -/
theorem forall_mem_of_all {l : Text} {p : Char → Prop} [DecidablePred p] (h : (l.all fun c => decide (p c)) = true) : ∀ c ∈ l, p c :=
  fun c hc => of_decide_eq_true (List.all_eq_true.mp h c hc)

theorem escapeMark_plain (hr : c ≠ '\r') (hn : c ≠ '\n') : (∀ d ∈ escapeMark c, d ≠ '\r' ∧ d ≠ '\n') ∧ escapeChar c = escapeMark c := by
  unfold escapeMark escapeChar
  split_ifs with hslash hsemi hcomma
  · exact ⟨forall_mem_of_all (by decide), rfl⟩
  · exact ⟨forall_mem_of_all (by decide), rfl⟩
  · exact ⟨forall_mem_of_all (by decide), rfl⟩
  · refine ⟨fun d hd => ?_, rfl⟩
    rw [List.mem_singleton.mp hd]
    exact ⟨hr, hn⟩

/-- **A text is escaped as its normal form is, character by character.** -/
theorem icsEscape_eq (text : Text) : icsEscape text = (normalized text).flatMap escapeChar := by
  unfold icsEscape normalized
  rw [replaceAll_marks]
  fun_induction replaceBreaks ['\n'] text with
  | case1 s ih => exact congrArg (['\\', 'n'] ++ ·) ih
  | case2 s hnot ih =>
    have hfirst : ('\r' :: s).flatMap escapeMark = '\r' :: s.flatMap escapeMark := rfl
    have hhead : ∀ t, s.flatMap escapeMark ≠ '\n' :: t := by
      intro t ht
      cases s with
      | nil => cases ht
      | cons d s =>
        have hd : d ≠ '\n' := fun he => hnot s (he ▸ rfl)
        rw [List.flatMap_cons] at ht
        unfold escapeMark at ht
        split_ifs at ht with hslash hsemi hcomma
        · exact absurd (List.cons.inj ht).1 (by decide)
        · exact absurd (List.cons.inj ht).1 (by decide)
        · exact absurd (List.cons.inj ht).1 (by decide)
        · exact hd (List.cons.inj ht).1
    rw [hfirst, replaceBreaks_return hhead, ih]
    rfl
  | case3 s ih => exact congrArg (['\\', 'n'] ++ ·) ih
  | case4 c s hnot hr hn ih =>
    have hr' : c ≠ '\r' := fun he => hr (he ▸ rfl)
    have hn' : c ≠ '\n' := fun he => hn (he ▸ rfl)
    obtain ⟨hplain, hsame⟩ := escapeMark_plain hr' hn'
    rw [List.flatMap_cons, replaceBreaks_append hplain, ih, List.flatMap_cons, hsame]
  | case5 => rfl

theorem unescape_escapeChar (c : Char) (s : Text) : unescape (escapeChar c ++ s) = c :: unescape s := by
  unfold escapeChar
  split_ifs with hslash hsemi hcomma hbreak
  · subst hslash
    rfl
  · subst hsemi
    rfl
  · subst hcomma
    rfl
  · subst hbreak
    rfl
  · rw [List.cons_append, List.nil_append, unescape]
    intro d t he
    exact fun hnot => hslash he

theorem unescape_icsEscape (text : Text) : unescape (icsEscape text) = normalized text := by
  rw [icsEscape_eq]
  induction normalized text with
  | nil => rfl
  | cons c s ih => rw [List.flatMap_cons, unescape_escapeChar, ih]

theorem not_mem_normalized (text : Text) : '\r' ∉ normalized text := by
  unfold normalized
  fun_induction replaceBreaks ['\n'] text with
  | case1 s ih => exact fun h => ih (List.mem_of_ne_of_mem (by decide) h)
  | case2 s hnot ih => exact fun h => ih (List.mem_of_ne_of_mem (by decide) h)
  | case3 s ih => exact fun h => ih (List.mem_of_ne_of_mem (by decide) h)
  | case4 c s hnot hr hn ih => exact fun h => ih (List.mem_of_ne_of_mem (fun he => hr (he ▸ rfl)) h)
  | case5 => exact List.not_mem_nil

/-- An escaped text has no line break. -/
theorem icsEscape_break {d : Char} (h : d ∈ icsEscape text) : d ≠ '\r' ∧ d ≠ '\n' := by
  rw [icsEscape_eq] at h
  obtain ⟨c, hc, hd⟩ := List.mem_flatMap.mp h
  have hr : c ≠ '\r' := fun he => not_mem_normalized text (he ▸ hc)
  unfold escapeChar at hd
  split_ifs at hd with hslash hsemi hcomma hbreak
  · exact (show ∀ e ∈ ['\\', '\\'], e ≠ '\r' ∧ e ≠ '\n' from forall_mem_of_all (by decide)) d hd
  · exact (show ∀ e ∈ ['\\', ';'], e ≠ '\r' ∧ e ≠ '\n' from forall_mem_of_all (by decide)) d hd
  · exact (show ∀ e ∈ ['\\', ','], e ≠ '\r' ∧ e ≠ '\n' from forall_mem_of_all (by decide)) d hd
  · exact (show ∀ e ∈ ['\\', 'n'], e ≠ '\r' ∧ e ≠ '\n' from forall_mem_of_all (by decide)) d hd
  · rw [List.mem_singleton.mp hd]
    exact ⟨hr, hbreak⟩

end escapes

/-! ## Folds -/

section folds

def octetsOf (c : Char) : Nat := utf8Octets c.toNat

theorem foldl_foldStep (l : Text) (parts : List Text) (cur : Text) (octets : Nat) :
    (l.foldl foldStep ⟨parts, cur, octets⟩).parts ++ [(l.foldl foldStep ⟨parts, cur, octets⟩).cur] =
      parts ++ (cur ++ (pieces octetsOf 75 octets l).1) :: (pieces octetsOf 75 octets l).2.map (' ' :: ·) := by
  induction l generalizing parts cur octets with
  | nil => rw [pieces, List.append_nil, List.map_nil, List.foldl_nil]
  | cons c l ih =>
    rw [List.foldl_cons, foldStep, pieces]
    by_cases hfull : octets + octetsOf c > 75
    · have hfull' : octets + utf8Octets c.toNat > 75 := hfull
      rw [if_pos hfull, if_pos hfull', ih, List.append_nil, List.append_assoc]
      rfl
    · have hfits : ¬ octets + utf8Octets c.toNat > 75 := hfull
      rw [if_neg hfull, if_neg hfits, ih, List.append_assoc]
      rfl

theorem foldLine_eq (l : Text) : foldLine l = List.intercalate ['\r', '\n'] (fold octetsOf 75 ' ' l) :=
  congrArg (List.intercalate ['\r', '\n']) (foldl_foldStep l [] [] 0)

theorem buildIcs_eq (random : Text) (ev : IcsEvent) (now : Nat) :
    buildIcs random ev now = ((contentLines random ev now).flatMap (fold octetsOf 75 ' ')).flatMap (· ++ ['\r', '\n']) := by
  have hline : ∀ l, foldLine l ++ ['\r', '\n'] = (fold octetsOf 75 ' ' l).flatMap (· ++ ['\r', '\n']) := by
    intro l
    have hne : fold octetsOf 75 ' ' l ≠ [] := List.cons_ne_nil _ _
    rw [foldLine_eq, intercalate_ended _ hne]
  have hlines : ((contentLines random ev now).map foldLine) ≠ [] := List.cons_ne_nil _ _
  rw [buildIcs, intercalate_ended _ hlines, List.flatMap_map, List.flatMap_assoc]
  exact congrArg (List.flatMap · _) (funext hline)

theorem octetsOf_eq (c : Char) : octetsOf c = (String.utf8EncodeChar c).length := by
  have hv : c.val.toNat = c.toNat := rfl
  unfold octetsOf utf8Octets String.utf8EncodeChar
  simp only [hv]
  split_ifs <;> simp only [List.length_cons, List.length_nil] <;> omega

theorem octetsOf_le (c : Char) : 1 + octetsOf c ≤ 75 := by
  unfold octetsOf utf8Octets
  split_ifs <;> omega

theorem length_utf8 (text : Text) : (utf8 text).length = (text.map octetsOf).sum := by
  rw [utf8, List.length_flatMap]
  exact congrArg (fun w => (text.map w).sum) (funext fun c => (octetsOf_eq c).symm)

/-- A character's first octet, and the octets that are below 128. -/
theorem encode_char (c : Char) : ∃ b t, String.utf8EncodeChar c = b :: t ∧
    (c.toNat < 128 → t = [] ∧ b.toNat = c.toNat) ∧ (128 ≤ c.toNat → ∀ d ∈ b :: t, 128 ≤ d.toNat) := by
  have hv : c.val.toNat = c.toNat := rfl
  have hmax : c.toNat < 0x110000 := by
    rcases c.valid with h | h
    · have h' : c.toNat < 0xd800 := h
      omega
    · exact h.2
  unfold String.utf8EncodeChar
  simp only [hv]
  split_ifs with h1 h2 h3
  · refine ⟨_, _, rfl, fun _ => ⟨rfl, ?_⟩, fun h => by omega⟩
    rw [UInt8.toNat_ofNat']
    omega
  all_goals refine ⟨_, _, rfl, fun h => by omega, fun _ d hd => ?_⟩
  all_goals simp only [List.mem_cons, List.not_mem_nil, or_false] at hd
  · rcases hd with rfl | rfl <;> rw [UInt8.toNat_ofNat'] <;> omega
  · rcases hd with rfl | rfl | rfl <;> rw [UInt8.toNat_ofNat'] <;> omega
  · rcases hd with rfl | rfl | rfl | rfl <;> rw [UInt8.toNat_ofNat'] <;> omega

theorem encode_ascii {b : UInt8} (hc : c.toNat < 128) (hb : b.toNat = c.toNat) : String.utf8EncodeChar c = [b] := by
  obtain ⟨d, t, he, hlow, -⟩ := encode_char c
  obtain ⟨rfl, hd⟩ := hlow hc
  rw [he, UInt8.toNat_inj.mp (hd.trans hb.symm)]

theorem mem_encode {b : UInt8} (hb : b.toNat < 128) (hm : b ∈ String.utf8EncodeChar c) : b.toNat = c.toNat := by
  obtain ⟨d, t, he, hlow, hhigh⟩ := encode_char c
  rw [he] at hm
  by_cases hc : c.toNat < 128
  · obtain ⟨rfl, hd⟩ := hlow hc
    rw [List.mem_singleton.mp hm, hd]
  · have hd := hhigh (by omega) b hm
    omega

def isBlankChar (c : Char) : Bool := c = ' ' || c = '\t'

theorem isBlank_encode (c : Char) : ∃ d t, String.utf8EncodeChar c = d :: t ∧ isBlank d = isBlankChar c := by
  obtain ⟨d, t, he, hlow, hhigh⟩ := encode_char c
  refine ⟨d, t, he, ?_⟩
  have hsame : ∀ (b : UInt8) (e : Char), b.toNat = e.toNat → b.toNat < 128 → (d = b ↔ c = e) := by
    intro b e hbe hb
    by_cases hc : c.toNat < 128
    · rw [← UInt8.toNat_inj, ← Char.toNat_inj, (hlow hc).2, hbe]
    · have hd := hhigh (by omega) d List.mem_cons_self
      rw [← UInt8.toNat_inj, ← Char.toNat_inj]
      omega
  unfold isBlank isBlankChar
  rw [decide_eq_decide.mpr (hsame 32 ' ' rfl (by decide)), decide_eq_decide.mpr (hsame 9 '\t' rfl (by decide))]

end folds

/-! ## Content lines -/

section lines

variable {random : Text} {ev : IcsEvent} {now : Nat}

theorem mem_decimal {n : Nat} (h : c ∈ decimal n) : c.isDigit = true :=
  Nat.isDigit_of_mem_toDigits (by decide) (by decide) h

theorem mem_p {n : Nat} (h : c ∈ p n) : c.isDigit = true := by
  unfold p at h
  rcases List.mem_append.mp h with h | h
  · rw [List.eq_of_mem_replicate h]
    rfl
  · exact mem_decimal h

def isStampChar (c : Char) : Bool := c.isDigit || c = 'T' || c = 'Z' || c = 'N' || c = 'a'

theorem mem_icsUtc {sec : Nat} (h : c ∈ icsUtc sec) : isStampChar c = true := by
  unfold icsUtc at h
  split_ifs at h
  · have hdigit : c.isDigit = true → isStampChar c = true := fun hd => by
      unfold isStampChar
      rw [hd]
      rfl
    simp only [List.mem_append, List.mem_cons, List.not_mem_nil, or_false] at h
    rcases h with ((h | h) | h) | rfl | ((h | h) | h) | rfl
    · exact hdigit (mem_decimal h)
    · exact hdigit (mem_p h)
    · exact hdigit (mem_p h)
    · rfl
    · exact hdigit (mem_p h)
    · exact hdigit (mem_p h)
    · exact hdigit (mem_p h)
    · rfl
  · exact (show ∀ e ∈ "NaNNaNNaNTNaNNaNNaNZ".toList, isStampChar e = true from forall_mem_of_all (by decide)) c h

theorem icsUtc_break {sec : Nat} (h : c ∈ icsUtc sec) : c ≠ '\r' ∧ c ≠ '\n' := by
  have hc := mem_icsUtc h
  constructor
  · rintro rfl
    exact absurd hc (by decide)
  · rintro rfl
    exact absurd hc (by decide)

/-- The names and values of the content lines. -/
def properties (random : Text) (ev : IcsEvent) (now : Nat) : List (Text × Text) :=
  [("BEGIN".toList, "VCALENDAR".toList), ("VERSION".toList, "2.0".toList), ("PRODID".toList, "-//Nostrautica//Event//EN".toList),
    ("CALSCALE".toList, "GREGORIAN".toList), ("METHOD".toList, "PUBLISH".toList), ("BEGIN".toList, "VEVENT".toList),
    ("UID".toList, icsEscape (ev.uid.getD (random ++ '-' :: decimal now))), ("DTSTAMP".toList, icsUtc (now / 1000)),
    ("DTSTART".toList, icsUtc ev.start), ("DTEND".toList, icsUtc ev.endSec), ("SUMMARY".toList, icsEscape ev.title)] ++
  (given (some ev.desc)).map (fun desc => ("DESCRIPTION".toList, icsEscape desc)) ++
  (given ev.location).map (fun location => ("LOCATION".toList, icsEscape location)) ++
  (given ev.url).map (fun url => ("URL".toList, icsEscape url)) ++
  [("END".toList, "VEVENT".toList), ("END".toList, "VCALENDAR".toList)]

/-- The names of the content lines, which depend on no more than which texts are given. -/
def names (ev : IcsEvent) : List Text :=
  ["BEGIN".toList, "VERSION".toList, "PRODID".toList, "CALSCALE".toList, "METHOD".toList, "BEGIN".toList,
    "UID".toList, "DTSTAMP".toList, "DTSTART".toList, "DTEND".toList, "SUMMARY".toList] ++
  (given (some ev.desc)).map (fun _ => "DESCRIPTION".toList) ++ (given ev.location).map (fun _ => "LOCATION".toList) ++
  (given ev.url).map (fun _ => "URL".toList) ++ ["END".toList, "END".toList]

theorem contentLines_eq (random : Text) (ev : IcsEvent) (now : Nat) :
    contentLines random ev now = (properties random ev now).map fun p => p.1 ++ ':' :: p.2 := by
  unfold contentLines properties
  simp only [List.map_append, List.map_map, List.map_cons, List.map_nil]
  rfl

theorem map_fst_properties (random : Text) (ev : IcsEvent) (now : Nat) : (properties random ev now).map Prod.fst = names ev := by
  unfold names properties
  simp only [List.map_append, List.map_map, List.map_cons, List.map_nil]
  rfl

/-- Every name that a content line can have. -/
def allNames : List Text :=
  ["BEGIN".toList, "VERSION".toList, "PRODID".toList, "CALSCALE".toList, "METHOD".toList, "UID".toList, "DTSTAMP".toList, "DTSTART".toList,
    "DTEND".toList, "SUMMARY".toList, "DESCRIPTION".toList, "LOCATION".toList, "URL".toList, "END".toList]

theorem allNames_plain : ∀ name ∈ allNames, name ≠ [] ∧ ∀ c ∈ name, c ≠ ':' ∧ c ≠ ';' ∧ c ≠ '\r' ∧ c ≠ '\n' ∧ isBlankChar c = false := by
  have hall : (allNames.all fun name => decide (name ≠ []) && name.all fun c =>
      decide (c ≠ ':' ∧ c ≠ ';' ∧ c ≠ '\r' ∧ c ≠ '\n' ∧ isBlankChar c = false)) = true := by decide
  intro name hname
  have hplain := List.all_eq_true.mp hall name hname
  rw [Bool.and_eq_true] at hplain
  exact ⟨of_decide_eq_true hplain.1, forall_mem_of_all hplain.2⟩

theorem mem_properties {p : Text × Text} (hp : p ∈ properties random ev now) : p.1 ∈ allNames ∧ ∀ c ∈ p.2, c ≠ '\r' ∧ c ≠ '\n' := by
  unfold properties at hp
  simp only [List.mem_append, List.mem_cons, List.not_mem_nil, or_false, List.mem_map] at hp
  rcases hp with (((hp | hp) | hp) | hp) | hp
  · rcases hp with rfl | rfl | rfl | rfl | rfl | rfl | rfl | rfl | rfl | rfl | rfl
    · exact ⟨by decide, forall_mem_of_all (by decide)⟩
    · exact ⟨by decide, forall_mem_of_all (by decide)⟩
    · exact ⟨by decide, forall_mem_of_all (by decide)⟩
    · exact ⟨by decide, forall_mem_of_all (by decide)⟩
    · exact ⟨by decide, forall_mem_of_all (by decide)⟩
    · exact ⟨by decide, forall_mem_of_all (by decide)⟩
    · exact ⟨show "UID".toList ∈ allNames by decide, fun c hc => icsEscape_break hc⟩
    · exact ⟨show "DTSTAMP".toList ∈ allNames by decide, fun c hc => icsUtc_break hc⟩
    · exact ⟨show "DTSTART".toList ∈ allNames by decide, fun c hc => icsUtc_break hc⟩
    · exact ⟨show "DTEND".toList ∈ allNames by decide, fun c hc => icsUtc_break hc⟩
    · exact ⟨show "SUMMARY".toList ∈ allNames by decide, fun c hc => icsEscape_break hc⟩
  · obtain ⟨desc, -, rfl⟩ := hp
    exact ⟨show "DESCRIPTION".toList ∈ allNames by decide, fun c hc => icsEscape_break hc⟩
  · obtain ⟨location, -, rfl⟩ := hp
    exact ⟨show "LOCATION".toList ∈ allNames by decide, fun c hc => icsEscape_break hc⟩
  · obtain ⟨url, -, rfl⟩ := hp
    exact ⟨show "URL".toList ∈ allNames by decide, fun c hc => icsEscape_break hc⟩
  · rcases hp with rfl | rfl <;> exact ⟨by decide, forall_mem_of_all (by decide)⟩

theorem nameOf_line {name : Text} (h : name ∈ allNames) (value : Text) : nameOf (name ++ ':' :: value) = name := by
  have hall : ∀ c ∈ name, (c ≠ ':' && c ≠ ';') = true := fun c hc => by
    obtain ⟨hcolon, hsemi, -⟩ := (allNames_plain name h).2 c hc
    simp [hcolon, hsemi]
  rw [nameOf, List.takeWhile_append_of_pos hall, List.takeWhile_cons_of_neg (by decide), List.append_nil]

theorem map_nameOf (random : Text) (ev : IcsEvent) (now : Nat) : (contentLines random ev now).map nameOf = names ev := by
  rw [contentLines_eq, ← map_fst_properties random ev now, List.map_map]
  exact List.map_congr_left fun p hp => nameOf_line (mem_properties hp).1 p.2

theorem valuesOf_lines (name : Text) :
    valuesOf name (contentLines random ev now) = (properties random ev now).filterMap fun p => if p.1 = name then some p.2 else none := by
  rw [contentLines_eq, valuesOf, List.filterMap_map]
  refine List.filterMap_congr fun p hp => ?_
  have hname := nameOf_line (mem_properties hp).1 p.2
  simp only [Function.comp_apply, hname]
  split_ifs with he
  · rw [← he, List.drop_length_add_append]
    rfl
  · rfl

theorem unescape_values (texts : List Text) (name other : Text) :
    (List.filterMap (fun p : Text × Text => if p.1 = name then some p.2 else none) (texts.map fun t => (other, icsEscape t))).map unescape =
      if other = name then texts.map normalized else [] := by
  rw [List.filterMap_map]
  split_ifs with h
  · have hsome : (fun p : Text × Text => if p.1 = name then some p.2 else none) ∘ (fun t => (other, icsEscape t)) = some ∘ icsEscape :=
      funext fun t => if_pos h
    rw [hsome, List.filterMap_eq_map, List.map_map]
    exact List.map_congr_left fun t _ => unescape_icsEscape t
  · have hnone : (fun p : Text × Text => if p.1 = name then some p.2 else none) ∘ (fun t => (other, icsEscape t)) = fun _ => none :=
      funext fun t => if_neg h
    rw [hnone, List.filterMap_none, List.map_nil]

/-- The values read under the names of the three texts. -/
theorem unescaped (random : Text) (ev : IcsEvent) (now : Nat) :
    (valuesOf "SUMMARY".toList (contentLines random ev now)).map unescape = [normalized ev.title] ∧
    (valuesOf "DESCRIPTION".toList (contentLines random ev now)).map unescape = (given (some ev.desc)).map normalized ∧
    (valuesOf "LOCATION".toList (contentLines random ev now)).map unescape = (given ev.location).map normalized := by
  have hread : ∀ name, (valuesOf name (contentLines random ev now)).map unescape = _ := fun name => by
    rw [valuesOf_lines, properties, List.filterMap_append, List.filterMap_append, List.filterMap_append, List.filterMap_append,
      List.map_append, List.map_append, List.map_append, List.map_append, unescape_values, unescape_values, unescape_values]
  refine ⟨?_, ?_, ?_⟩
  · rw [hread, if_neg (by decide), if_neg (by decide), if_neg (by decide)]
    exact congrArg (fun t => [t]) (unescape_icsEscape ev.title)
  · rw [hread, if_pos rfl, if_neg (by decide), if_neg (by decide), List.append_nil, List.append_nil]
    exact List.append_nil _
  · rw [hread, if_neg (by decide), if_pos rfl, if_neg (by decide), List.append_nil]
    exact List.append_nil _

theorem contentLines_plain {l : Text} (hl : l ∈ contentLines random ev now) :
    (∀ c ∈ l, c ≠ '\r' ∧ c ≠ '\n') ∧ ∀ c ∈ l.head?, isBlankChar c = false := by
  rw [contentLines_eq] at hl
  obtain ⟨⟨name, value⟩, hp, rfl⟩ := List.mem_map.mp hl
  obtain ⟨hname, hvalue⟩ := mem_properties hp
  obtain ⟨hne, hall⟩ := allNames_plain name hname
  constructor
  · intro c hc
    rcases List.mem_append.mp hc with hc | hc
    · obtain ⟨-, -, hr, hn, -⟩ := hall c hc
      exact ⟨hr, hn⟩
    · rcases List.mem_cons.mp hc with rfl | hc
      · decide
      · exact hvalue c hc
  · intro c hc
    obtain ⟨d, t, rfl⟩ := List.exists_cons_of_ne_nil hne
    obtain ⟨-, -, -, -, hblank⟩ := hall d List.mem_cons_self
    rw [← Option.some.inj hc]
    exact hblank

/-- The physical lines, as texts. -/
def foldedLines (random : Text) (ev : IcsEvent) (now : Nat) : List Text := (contentLines random ev now).flatMap (fold octetsOf 75 ' ')

theorem foldedLines_break {l : Text} (hl : l ∈ foldedLines random ev now) (hc : c ∈ l) : c ≠ '\r' ∧ c ≠ '\n' := by
  obtain ⟨line, hline, hl⟩ := List.mem_flatMap.mp hl
  rcases mem_of_mem_fold hl hc with rfl | hc
  · decide
  · exact (contentLines_plain hline).1 c hc

theorem not_mem_utf8 {b : UInt8} {e : Char} (hb : b.toNat < 128) (he : b.toNat = e.toNat) (hl : e ∉ l) : b ∉ utf8 l := by
  intro h
  obtain ⟨c, hc, hm⟩ := List.mem_flatMap.mp h
  rw [Char.toNat_inj.mp ((mem_encode hb hm).symm.trans he)] at hc
  exact hl hc

theorem physicalLines_eq (random : Text) (ev : IcsEvent) (now : Nat) :
    physicalLines (utf8 (buildIcs random ev now)) = (foldedLines random ev now).map utf8 := by
  have hplain : ∀ l ∈ (foldedLines random ev now).map utf8, (13 : UInt8) ∉ l := by
    intro l hl
    obtain ⟨t, ht, rfl⟩ := List.mem_map.mp hl
    exact not_mem_utf8 (by decide) (show (13 : UInt8).toNat = '\r'.toNat from rfl) fun hc => (foldedLines_break ht hc).1 rfl
  have hencoded : utf8 (buildIcs random ev now) = ((foldedLines random ev now).map utf8).flatMap (· ++ [13, 10]) := by
    rw [buildIcs_eq]
    exact flatMap_ended (encode_ascii (by decide) rfl) (encode_ascii (by decide) rfl) _
  rw [physicalLines, hencoded, splitLines_ended hplain, List.dropLast_concat]

/-- **A calendar program reads the lines that were built and the texts that were written**: the file
unfolds to its content lines, under names that no text changes, and their values unescape to the
texts with line feeds for line breaks; a physical line has 75 octets at most, of whole characters. -/
theorem buildIcs_read (random : Text) (ev : IcsEvent) (now : Nat) :
    unfoldedLines (utf8 (buildIcs random ev now)) = (contentLines random ev now).map utf8 ∧
    (∀ line ∈ physicalLines (utf8 (buildIcs random ev now)), line.length ≤ 75 ∧ 13 ∉ line ∧ 10 ∉ line ∧ ∃ chars, line = utf8 chars) ∧
    (contentLines random ev now).map nameOf = names ev ∧
    (valuesOf "SUMMARY".toList (contentLines random ev now)).map unescape = [normalized ev.title] ∧
    (valuesOf "DESCRIPTION".toList (contentLines random ev now)).map unescape = (given (some ev.desc)).map normalized ∧
    (valuesOf "LOCATION".toList (contentLines random ev now)).map unescape = (given ev.location).map normalized := by
  refine ⟨?_, ?_, map_nameOf random ev now, unescaped random ev now⟩
  · have hone : ∀ c, isBlankChar c = true → ∃ b, String.utf8EncodeChar c = [b] := by
      intro c hc
      rcases Bool.or_eq_true_iff.mp hc with hc | hc
      · exact ⟨32, encode_ascii (by rw [of_decide_eq_true hc]; decide) (by rw [of_decide_eq_true hc]; rfl)⟩
      · exact ⟨9, encode_ascii (by rw [of_decide_eq_true hc]; decide) (by rw [of_decide_eq_true hc]; rfl)⟩
    have hlines := physicalLines_eq random ev now
    unfold physicalLines at hlines
    rw [unfoldedLines, readLines, hlines]
    refine (unfoldLines_encoded isBlank_encode hone _).trans (congrArg (List.map utf8) ?_)
    exact unfoldLines_fold rfl fun l hl => (contentLines_plain hl).2
  · intro line hline
    rw [physicalLines_eq] at hline
    obtain ⟨t, ht, rfl⟩ := List.mem_map.mp hline
    have hbreak := fun c (hc : c ∈ t) => foldedLines_break ht hc
    obtain ⟨content, -, hpiece⟩ := List.mem_flatMap.mp ht
    have hweight := fold_weight octetsOf_le (show octetsOf ' ' = 1 from rfl) hpiece
    rw [length_utf8]
    exact ⟨hweight, not_mem_utf8 (by decide) (show (13 : UInt8).toNat = '\r'.toNat from rfl) fun hc => (hbreak _ hc).1 rfl,
      not_mem_utf8 (by decide) (show (10 : UInt8).toNat = '\n'.toNat from rfl) fun hc => (hbreak _ hc).2 rfl, t, rfl⟩

end lines

end Nostrautica.Ics
