/-
`isBlockedAddress` of `coordinator/src/net/safe-fetch.ts`, with the texts that `isIP` takes for an
address and the addresses that they denote.
-/
import Nostrautica.Js.Digits

namespace Nostrautica.SafeFetch

open Js

/-- `.`. -/
def dot : CodeUnit := codeUnit 46

/-- `:`. -/
def colon : CodeUnit := codeUnit 58

/-- `%`. -/
def percent : CodeUnit := codeUnit 37

/-! ## What `isIP` accepts -/

/-- An IPv4 address. -/
structure Quad where
  a : Fin 256
  b : Fin 256
  c : Fin 256
  d : Fin 256
  deriving DecidableEq

/-- A dotted quad, its numbers without leading zeros. -/
def Quad.text (q : Quad) : JsString :=
  [dot].intercalate [natToString q.a, natToString q.b, natToString q.c, natToString q.d]

/-- `[0-9a-fA-F]`. -/
def isHex (c : CodeUnit) : Bool := (48 ≤ c.val && c.val ≤ 57) || (65 ≤ c.val && c.val ≤ 70) || (97 ≤ c.val && c.val ≤ 102)

def hexDigit (c : CodeUnit) : Nat := if c.val ≤ 57 then c.val - 48 else if c.val ≤ 70 then c.val - 55 else c.val - 87

/-- The value of a string of hexadecimal digits. -/
def hexNumber (s : JsString) : Nat := s.foldl (fun n c => 16 * n + hexDigit c) 0

/-- One to four hexadecimal digits. -/
structure Group where
  digits : JsString
  nonempty : digits ≠ []
  short : digits.length ≤ 4
  hex : ∀ c ∈ digits, isHex c = true

def Group.value (g : Group) : Nat := hexNumber g.digits

/-- `[0-9a-zA-Z-.:]`. -/
def isZoneUnit (c : CodeUnit) : Bool :=
  (48 ≤ c.val && c.val ≤ 57) || (65 ≤ c.val && c.val ≤ 90) || (97 ≤ c.val && c.val ≤ 122) || c.val = 45 || c = dot || c = colon

/-- An IPv6 address in text: its groups, those after a `::` apart, the last two as a dotted quad or
not, and a zone. -/
structure Spelling6 where
  head : List Group
  tail : Option (List Group)
  quad : Option Quad
  zone : JsString
  zone_units : ∀ c ∈ zone, isZoneUnit c = true
  size : match tail with
    | none => head.length + (quad.elim 0 fun _ => 2) = 8
    | some tail => head.length + tail.length + (quad.elim 0 fun _ => 2) ≤ 7

/-- The groups as they are written, the quad as one. -/
def pieces (groups : List Group) (quad : Option Quad) : List JsString := groups.map Group.digits ++ (quad.map Quad.text).toList

def join (pieces : List JsString) : JsString := [colon].intercalate pieces

/-- The zone behind a `%`, or nothing. -/
def Spelling6.zoneText (s : Spelling6) : JsString := if s.zone = [] then [] else percent :: s.zone

def Spelling6.text (s : Spelling6) : JsString :=
  match s.tail with
  | none => join (pieces s.head s.quad) ++ s.zoneText
  | some tail => join (pieces s.head none) ++ colon :: colon :: (join (pieces tail s.quad) ++ s.zoneText)

/-- A quad as two hextets. -/
def Quad.hextets (q : Quad) : List Nat := [q.a * 256 + q.b, q.c * 256 + q.d]

def values (groups : List Group) (quad : Option Quad) : List Nat := groups.map Group.value ++ quad.elim [] Quad.hextets

/-- The eight hextets that a text denotes. -/
def Spelling6.address (s : Spelling6) : List Nat :=
  match s.tail with
  | none => values s.head s.quad
  | some tail =>
    values s.head none ++ List.replicate (8 - (values s.head none).length - (values tail s.quad).length) 0 ++ values tail s.quad

/-- What `isIP` takes for an address: 4 or 6. -/
inductive Spelling
  | v4 (q : Quad)
  | v6 (s : Spelling6)

/-- The address of a text. -/
inductive Address
  | v4 (q : Quad)
  | v6 (hextets : List Nat)
  deriving DecidableEq

def Spelling.text : Spelling → JsString
  | .v4 q => q.text
  | .v6 s => s.text

def Spelling.address : Spelling → Address
  | .v4 q => .v4 q
  | .v6 s => .v6 s.address

/-! ## The policy -/

/-- `Number(x)` of digits; nothing else comes here. -/
def number (x : JsString) : Option Nat := if x ≠ [] ∧ x.all isDigit = true then some (digitsValue x) else none

/-- The ranges of IPv4 that are not routed. -/
def isBlockedQuad (a b c : Nat) : Bool :=
  a = 0 || a = 10 || a = 127 || (a = 169 && b = 254) || (a = 172 && 16 ≤ b && b ≤ 31) || (a = 192 && b = 168) ||
    (a = 192 && b = 0 && c = 0) || (a = 100 && 64 ≤ b && b ≤ 127) || (a = 198 && (b = 18 || b = 19)) || 224 ≤ a

/-- `isBlockedV4(ip)`. -/
def isBlockedV4 (ip : JsString) : Bool :=
  match (ip.splitOn dot).map number with
  | [some a, some b, some c, some d] => if 255 < a ∨ 255 < b ∨ 255 < c ∨ 255 < d then true else isBlockedQuad a b c
  | _ => true

/-- `s.split("::")`. -/
def splitColons : JsString → List JsString
  | [] => [[]]
  | [c] => [[c]]
  | c :: d :: rest =>
    if c = colon ∧ d = colon then [] :: splitColons rest else (splitColons (d :: rest)).modifyHead (c :: ·)

/-- `${hi >> 8}.${hi & 0xff}.${lo >> 8}.${lo & 0xff}`. -/
def embedded (hi lo : Nat) : JsString :=
  [dot].intercalate [natToString (hi >>> 8), natToString (hi &&& 0xff), natToString (lo >>> 8), natToString (lo &&& 0xff)]

/-- What `isBlockedV6` says of eight hextets. -/
def isBlockedHextets : List Nat → Bool
  | [h0, h1, h2, h3, h4, h5, h6, h7] =>
    if h0 = 0 ∧ h1 = 0 ∧ h2 = 0 ∧ h3 = 0 then
      if (h4 = 0 ∧ h5 = 0) ∨ (h4 = 0 ∧ h5 = 0xffff) ∨ (h4 = 0xffff ∧ h5 = 0) then isBlockedV4 (embedded h6 h7) else true
    else if h0 &&& 0xfe00 = 0xfc00 then true
    else if h0 &&& 0xffc0 = 0xfe80 then true
    else if h0 &&& 0xff00 = 0xff00 then true
    else if h0 = 0x0064 ∧ h1 = 0xff9b then true
    else if h0 = 0x2002 then true
    else if h0 = 0x2001 ∧ h1 = 0x0000 then true
    else false
  | _ => true

/-- `ip.match(/^::ffff:(\d+\.\d+\.\d+\.\d+)$/)`, what it captures. -/
def mapped (ip : JsString) : Option JsString :=
  if (js "::ffff:").isPrefixOf ip then
    let quad := ip.drop 7
    let parts := quad.splitOn dot
    if parts.length = 4 ∧ parts.all (fun x => x ≠ [] && x.all isDigit) = true then some quad else none
  else none

/-- Unspecified, loopback, private, link-local, shared, multicast and reserved. -/
def Quad.Internal (q : Quad) : Prop :=
  (q.a = 0 ∧ q.b = 0 ∧ q.c = 0 ∧ q.d = 0) ∨ q.a = 127 ∨ q.a = 10 ∨ (q.a = 172 ∧ q.b.val / 16 = 1) ∨ (q.a = 192 ∧ q.b = 168) ∨
    (q.a = 169 ∧ q.b = 254) ∨ (q.a = 100 ∧ q.b.val / 64 = 1) ∨ q.a.val / 16 = 14 ∨ q.a.val / 16 = 15

/-- Two hextets as a quad. -/
def quadOf (hi lo : Nat) : Quad := ⟨Fin.ofNat 256 (hi / 256), Fin.ofNat 256 hi, Fin.ofNat 256 (lo / 256), Fin.ofNat 256 lo⟩

/-- Unspecified, loopback, unique-local, link-local, multicast, and what embeds an internal IPv4
address: compatible, mapped, translated, NAT64, 6to4, and Teredo, which has its server's and, with
its bits inverted, its client's. -/
inductive Internal6 : List Nat → Prop
  | unspecified : Internal6 [0, 0, 0, 0, 0, 0, 0, 0]
  | loopback : Internal6 [0, 0, 0, 0, 0, 0, 0, 1]
  | uniqueLocal {h : Nat} {rest : List Nat} : h / 2 ^ 9 = 0xfc00 / 2 ^ 9 → Internal6 (h :: rest)
  | linkLocal {h : Nat} {rest : List Nat} : h / 2 ^ 6 = 0xfe80 / 2 ^ 6 → Internal6 (h :: rest)
  | multicast {h : Nat} {rest : List Nat} : h / 2 ^ 8 = 0xff00 / 2 ^ 8 → Internal6 (h :: rest)
  | compatible {hi lo : Nat} : (quadOf hi lo).Internal → Internal6 [0, 0, 0, 0, 0, 0, hi, lo]
  | mapped {hi lo : Nat} : (quadOf hi lo).Internal → Internal6 [0, 0, 0, 0, 0, 0xffff, hi, lo]
  | translated {hi lo : Nat} : (quadOf hi lo).Internal → Internal6 [0, 0, 0, 0, 0xffff, 0, hi, lo]
  | nat64 {hi lo : Nat} : (quadOf hi lo).Internal → Internal6 [0x64, 0xff9b, 0, 0, 0, 0, hi, lo]
  | sixToFour {hi lo : Nat} {rest : List Nat} : (quadOf hi lo).Internal → Internal6 (0x2002 :: hi :: lo :: rest)
  | teredoServer {hi lo : Nat} {rest : List Nat} : (quadOf hi lo).Internal → Internal6 (0x2001 :: 0 :: hi :: lo :: rest)
  | teredoClient {s₁ s₂ flags port hi lo : Nat} : (quadOf (hi ^^^ 0xffff) (lo ^^^ 0xffff)).Internal →
      Internal6 [0x2001, 0, s₁, s₂, flags, port, hi, lo]

def Address.Internal : Address → Prop
  | .v4 q => q.Internal
  | .v6 h => Internal6 h

end Nostrautica.SafeFetch
