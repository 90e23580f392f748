/-
A pasted event link: `parseEventLink` of `app/src/lib/events/event-link.ts`, and what becomes of the
code of an invite link that was carried about.

The lower case of a text is that of its ASCII letters and of what becomes one.
-/
import Nostrautica.App.RecentEvents
import Nostrautica.App.Routes
import Nostrautica.Js.NumberFacts

namespace Nostrautica.EventLink

open Js SearchParams Routes
open RecentEvents (Nip19 naddrToCoordinate coordinateToNaddr)
open Lines (splitOn_append)

/-! ## Percent-encoding -/

/-- A byte of an escape that is read: what is written of it, and what is missing; `none` where it is no UTF-8. -/
def strictStep (p : Option Pending) (b : UInt8) : Option (JsString × Option Pending) :=
  match p with
  | none => if b.toNat < 0xC2 ∧ 0x80 ≤ b.toNat ∨ 0xF4 < b.toNat then none else some (start b)
  | some q => if 0x80 + q.low ≤ b.toNat ∧ b.toNat ≤ 0x80 + q.high then some (step (some q) b) else none

/-- The byte that two units write. -/
def uriByte (c d : CodeUnit) : Option UInt8 :=
  if c.val < 128 ∧ d.val < 128 then escaped (UInt8.ofNat c.val) (UInt8.ofNat d.val) else none

def decodeUri : Option Pending → JsString → Option JsString
  | none, [] => some []
  | some _, [] => none
  | p, c :: s =>
    if c = 37 then
      match s with
      | a :: b :: rest =>
        match (uriByte a b).bind (strictStep p) with
        | some r => (decodeUri r.2 rest).map (r.1 ++ ·)
        | none => none
      | _ => none
    else if p.isNone then (decodeUri none s).map (c :: ·)
    else none

/-- `decodeURIComponent(text)`, or `none` where it throws. -/
def decodeURIComponent (text : JsString) : Option JsString := decodeUri none text

/-- What `encodeURIComponent` makes of an ASCII unit. -/
def encodeUnit (c : CodeUnit) : JsString :=
  let n := c.val
  if (48 ≤ n ∧ n ≤ 57) ∨ (65 ≤ n ∧ n ≤ 90) ∨ (97 ≤ n ∧ n ≤ 122) ∨
      n = 45 ∨ n = 95 ∨ n = 46 ∨ n = 33 ∨ n = 126 ∨ n = 42 ∨ n = 39 ∨ n = 40 ∨ n = 41 then [c]
  else [37, upperHex (n / 16), upperHex (n % 16)]

/-- `encodeURIComponent(text)` of an ASCII text. -/
def encodeURIComponent (text : JsString) : JsString := text.flatMap encodeUnit

inductive EventLinkError
  | empty | notAnEvent | unrecognized
  deriving DecidableEq

inductive EventLinkResult
  | ok (route : Route) (naddr coordinate : JsString)
  | error (reason : EventLinkError)
  deriving DecidableEq

inductive Decoded
  | space (naddr coordinate : JsString)
  | other
  | invalid

/-- `isEventCoordinate(coordinate)`. -/
def isEventCoordinate (coordinate : JsString) : Bool := hasKind kindCalendarEvent coordinate || hasKind kindCommunity coordinate

section

variable (C : Nip19)

def decodeNaddr (candidate : JsString) : Decoded :=
  match naddrToCoordinate C (toLowerCase candidate), naddrToCoordinate C candidate with
  | some coordinate, _ => if isEventCoordinate coordinate then .space (toLowerCase candidate) coordinate else .other
  | none, some coordinate => if isEventCoordinate coordinate then .space candidate coordinate else .other
  | none, none => .invalid

end

/-! ## What is read of a value -/

variable {s t y z p q : JsString} {c : CodeUnit}

/-- The hash of an invite link, with a text after the code. -/
def joinHash (naddr codeAndMore : JsString) : JsString := eventHash naddr (47 :: (js "join" ++ 63 :: (js "code=" ++ codeAndMore)))

/-- A unit of a URL without a fragment. -/
def UrlUnit (c : CodeUnit) : Prop := 33 ≤ c.val ∧ c.val < 127 ∧ c.val ≠ 35

instance : DecidablePred UrlUnit := fun c => inferInstanceAs (Decidable (33 ≤ c.val ∧ c.val < 127 ∧ c.val ≠ 35))

/-- What is left of a text after which others may stand. -/
def trimEnd (t : JsString) : JsString := (t.reverse.dropWhile isSpace).reverse

section

variable {C : Nip19} {e : EventCoordinate} {naddr : JsString}

/-- The coordinate of a space, and its address. -/
structure Addressed (C : Nip19) (e : EventCoordinate) (naddr : JsString) : Prop where
  space : isEventCoordinate (makeCoordinate e.pubkey e.identifier e.kind) = true
  encodes : C.naddrEncode e = some naddr
  decodes : C.decode naddr = some e
  lower : ∀ c ∈ naddr, (48 ≤ c.val ∧ c.val ≤ 57) ∨ (97 ≤ c.val ∧ c.val ≤ 122)

def coordinateOf (e : EventCoordinate) : JsString := makeCoordinate e.pubkey e.identifier e.kind

theorem toLowerCase_plain (h : ∀ c ∈ s, ¬(65 ≤ c.val ∧ c.val ≤ 90) ∧ c.val < 128) : toLowerCase s = s := by
  induction s with
  | nil => rfl
  | cons c s ih =>
    obtain ⟨h1, h2⟩ := h c List.mem_cons_self
    have hunit : lowerUnit c = [c] := by
      unfold lowerUnit
      rw [if_neg h1, if_neg (by omega), if_neg (by omega)]
    unfold toLowerCase at ih
    rw [toLowerCase, List.flatMap_cons, ih fun d hd => h d (List.mem_cons_of_mem c hd), hunit, List.singleton_append]

theorem decodeNaddr_eq (h : Addressed C e naddr) : decodeNaddr C naddr = .space naddr (coordinateOf e) := by
  have hlow : toLowerCase naddr = naddr := toLowerCase_plain fun c hc => by
    have := h.lower c hc
    omega
  have hcoord : naddrToCoordinate C naddr = some (coordinateOf e) := by
    rw [naddrToCoordinate, h.decodes]
    rfl
  have hspace : isEventCoordinate (coordinateOf e) = true := h.space
  unfold decodeNaddr
  rw [hlow, hcoord]
  dsimp only
  rw [if_pos hspace]

/-- Nothing follows the code in its piece. -/
def EndsCode (z : JsString) : Prop := z = [] ∨ z.head? = some 38

end

/-! ## Percent-encoded texts -/

/-- What an invite link is made of. -/
structure InviteLink where
  base : JsString
  naddr : JsString
  nsec : JsString
  /-- Empty, or `&lang=` and a language. -/
  langQuery : JsString
  base_url : ∀ c ∈ base, UrlUnit c
  naddr_plain : Bech32Text naddr
  nsec_plain : nsec ≠ [] ∧ ∀ c ∈ nsec, (48 ≤ c.val ∧ c.val ≤ 57) ∨ (97 ≤ c.val ∧ c.val ≤ 122)
  lang_url : ∀ c ∈ langQuery, UrlUnit c
  lang_ends : EndsCode langQuery

namespace InviteLink

variable (l : InviteLink)

/-- The link that the app builds. -/
def text : JsString := l.base ++ 47 :: joinHash (encodeURIComponent l.naddr) (l.nsec ++ l.langQuery)

end InviteLink

section

variable {C : Nip19} {e : EventCoordinate} {l : InviteLink} {raw before after b a : JsString}

/-- The route that an invite link is for. -/
def kept (l : InviteLink) (e : EventCoordinate) : EventLinkResult := .ok (.join l.naddr (some l.nsec)) l.naddr (coordinateOf e)

/-- The units of a URL that carries a text, and what is decoded before it and after. -/
structure Carries (before after b a : JsString) : Prop where
  url : ∀ c ∈ before ++ after, UrlUnit c
  before_reads : decodeURIComponent before = some b
  after_reads : decodeURIComponent after = some a
  no_hash : 35 ∉ b

end

end Nostrautica.EventLink
