/-
When Android and the web accept the same gift wraps (`unwraps_agree_iff`): when both read the same
seal and rumor out of the two texts, or neither reads both. They do of bare integers
(`reads_eq_of_plain`). A seal's number in quotes only Android takes (`quoted_number_accepted`), and
an integer written with a fraction only the web.
-/
import Nostrautica.Android.GiftWrap
import Nostrautica.Js.Digits

namespace Nostrautica.Android.GiftWrap

open Js Nostrautica.Unwrap
open Nostrautica.GiftWrap (Rumor kindSeal)
open Nostrautica.Android.Roster (longToString)

section

variable {Sk : Type} {K : Kotlinx} {C : Crypto Sk} {wrap : Wrap} {sk : Sk} {allowed : List Nat} {now : Int} {s r : JsString}
  {e : Signed} {m : Parsed}

/-! ## What is read of the texts -/

/-- The seal that the web reads, whether or not it is authentic. -/
def webSeal (s : JsString) : Option Signed := (parseJson s).bind sealShape

/-- The seal that Android reads. -/
def androidSeal (K : Kotlinx) (s : JsString) : Option Signed :=
  ((K.parseToJsonElement s).bind (sealEvent K)).filter fun e => isHex32 e.id && isHex32 e.pubkey && isHex64Sig e.sig

def webRumor (r : JsString) : Option Parsed := (parseJson r).bind (rumorShape rumorKinds)

def androidRumor (K : Kotlinx) (r : JsString) : Option Parsed := (K.parseToJsonElement r).bind (rumorFields K rumorKinds)

/-- A seal with a rumor by its author. -/
def pairOf (sealed : Option Signed) (rumor : Option Parsed) : Option (Signed × Parsed) :=
  sealed.bind fun e => (rumor.filter fun m => m.pubkey = e.pubkey).map fun m => (e, m)

/-- What the web reads of the two texts. -/
def webReads (s r : JsString) : Option (Signed × Parsed) := pairOf (webSeal s) (webRumor r)

/-- What Android reads of them. -/
def androidReads (K : Kotlinx) (s r : JsString) : Option (Signed × Parsed) := pairOf (androidSeal K s) (androidRumor K r)

/-- What becomes of a seal and a rumor that were read, in a wrap. -/
def opened (C : Crypto Sk) (wrap : Wrap) (allowed : List Nat) (now : Int) (read : Option (Signed × Parsed)) : Option Rumor :=
  if wrap.kind = kindGiftWrap ∧ authentic C wrap.toSigned = true then
    read.bind fun p =>
      if authentic C p.1 = true ∧ allowed.contains p.2.kind = true ∧ C.getEventHash p.2.unsigned = p.2.id then
        some { p.2.toRumor with created_at := min p.2.created_at (now + rumorMaxClockSkewSec) }
      else none
  else none

/-- In the form that both sides ask for. -/
structure Proper (p : Signed × Parsed) : Prop where
  seal_kind : p.1.kind = kindSeal
  seal_id : isHex32 p.1.id = true
  seal_sig : isHex64Sig p.1.sig = true
  rumor_kind : p.2.kind ∈ rumorKinds
  rumor_id : isHex32 p.2.id = true

/-- What becomes of a rumor in a seal that is authentic. -/
def finished (C : Crypto Sk) (allowed : List Nat) (now : Int) (sealPubkey : JsString) (rumor : Option Parsed) : Option Rumor :=
  (rumor.filter fun m => m.pubkey = sealPubkey).bind fun m =>
    if allowed.contains m.kind = true ∧ C.getEventHash m.unsigned = m.id then
      some { m.toRumor with created_at := min m.created_at (now + rumorMaxClockSkewSec) }
    else none

/-- A wrap with this content and this signature. -/
def wrapOf (content sig : JsString) (h : isHex64Sig sig = true) : Wrap where
  pubkey := List.replicate 64 48
  created_at := .digits []
  kind := kindGiftWrap
  tags := []
  content := content
  id := List.replicate 64 48
  sig := sig
  id_hex := by decide
  pubkey_hex := by decide
  sig_hex := h

/-- The hash of the events of one wrap, and of nothing else. -/
def hashOf (p : Signed × Parsed) (u : Unsigned) : JsString :=
  if u.kind = kindGiftWrap then List.replicate 64 48
  else if u = p.1.toUnsigned then p.1.id
  else if u = p.2.unsigned then p.2.id
  else []

theorem isHex32_ne_nil {id : JsString} (h : isHex32 id = true) : id ≠ [] := by
  rintro rfl
  exact absurd h (by decide)

section

variable {p q : Signed × Parsed}

end

end

/-! ## Plain texts -/

mutual

/-- What is read of a JSON text. -/
def element : Raw → Element
  | .null => .primitive (js "null") false
  | .bool b => .primitive (if b then js "true" else js "false") false
  | .num literal => .primitive literal false
  | .str s => .primitive s true
  | .arr elems => .arr (elementsOf elems)
  | .obj members => .obj (membersOf members)

def elementsOf : List Raw → List Element
  | [] => []
  | raw :: rest => element raw :: elementsOf rest

def membersOf : List (JsString × Raw) → List (JsString × Element)
  | [] => []
  | (key, raw) :: rest => (key, element raw) :: membersOf rest

end

section

variable {K : Kotlinx} {s r : JsString} {n : Nat}

/-- What is documented: a JSON text is read as it stands, and the digits of a `Long` as it. -/
structure Documented (K : Kotlinx) : Prop where
  json : ∀ {text raw}, parseJson text = some raw → K.parseToJsonElement text = some (element raw)
  long : ∀ {n : Nat}, n < 2 ^ 63 → K.long (longToString n) = some n

theorem lookup_membersOf (o : List (JsString × Raw)) (key : String) : lookup (membersOf o) key = (lookup o key).map element := by
  have hmap : ∀ o : List (JsString × Raw), membersOf o = o.map fun m => (m.1, element m.2) := by
    intro o
    induction o with
    | nil => rfl
    | cons m o ih => rw [membersOf, ih, List.map_cons]
  rw [hmap, lookup, lookup, ← List.map_reverse, List.find?_map, Option.map_map, Option.map_map]
  rfl

theorem asString_element (raw : Raw) : asString (element raw) = Unwrap.asString raw := by
  cases raw <;> simp only [element, asString, Unwrap.asString]

theorem asArray_element (raw : Raw) : asArray (element raw) = (Unwrap.asArray raw).map elementsOf := by
  cases raw <;> simp only [element, asArray, Unwrap.asArray, Option.map_none, Option.map_some]

theorem mapM_elementsOf {α : Type} {f : Element → Option α} {g : Raw → Option α} (h : ∀ raw, f (element raw) = g raw) (elems : List Raw) :
    (elementsOf elems).mapM f = elems.mapM g := by
  induction elems with
  | nil => rfl
  | cons raw elems ih => rw [elementsOf, List.mapM_cons, List.mapM_cons, h, ih]

theorem asTag_element (raw : Raw) : asTag (element raw) = Unwrap.asTag raw := by
  rw [asTag, asArray_element, Unwrap.asTag]
  cases Unwrap.asArray raw with
  | none => rfl
  | some elems => exact mapM_elementsOf asString_element elems

/-- The digits that both sides write of a number. -/
theorem longToString_eq (hn : n ≤ 2 ^ 52) : longToString n = natToString n := by
  simp only [longToString]
  rw [if_neg (by omega), List.nil_append]
  by_cases h0 : n = 0
  · subst h0
    rfl
  · rw [if_neg (by omega), natToString_eq_decimal h0 (hn.trans_lt (by decide)), Int.natAbs_natCast]

theorem isDouble_of_le (hn : n ≤ 2 ^ 52) : IsDouble n := by
  have hlimit : n * 2 ^ 0 < numberLimit := by
    rw [pow_zero, Nat.mul_one]
    exact hn.trans_lt (by decide +kernel)
  have := isDouble_of_mul (hn.trans (by decide)) hlimit
  rwa [pow_zero, Nat.mul_one] at this

theorem asCount_digits (hn : n ≤ 2 ^ 52) : asCount (.num (longToString n)) = some n := by
  rw [asCount, asNumber, Option.bind_some, longToString_eq hn]
  exact toNat?_toNumber_natToString (isDouble_of_le hn)

theorem toInt?_of_toNat? {x : Number} (h : x.toNat? = some n) : x.toInt? = some (n : Int) := by
  cases x with
  | finite neg m e =>
    simp only [Number.toNat?] at h
    split at h
    · cases h
    next hneg =>
      split at h <;> cases h
      next hint =>
      simp only [Number.toInt?, if_pos hint]
      cases neg with
      | false => rfl
      | true =>
        have hm : m = 0 := by simpa using hneg
        subst hm
        simp
  | _ => cases h

theorem bind_asString_element (raw : Option Raw) : (raw.map element).bind (fun a => asString a) = raw.bind Unwrap.asString := by
  cases raw with
  | none => rfl
  | some raw => exact asString_element raw

theorem bind_asArray_element (raw : Option Raw) :
    (raw.map element).bind (fun a => asArray a) = (raw.bind Unwrap.asArray).map elementsOf := by
  cases raw with
  | none => rfl
  | some raw => exact asArray_element raw

/-- A seal whose numbers are bare and small, and whose author and signature are in quotes. -/
structure PlainSeal (s : JsString) (o : List (JsString × Raw)) : Prop where
  parsed : parseJson s = some (.obj o)
  kind : lookup o "kind" = some (.num (longToString kindSeal))
  created_at : ∃ n ≤ 2 ^ 52, lookup o "created_at" = some (.num (longToString (n : Nat)))
  pubkey : ∃ pubkey, lookup o "pubkey" = some (.str pubkey)
  sig : ∃ sig, lookup o "sig" = some (.str sig)

theorem androidSeal_eq (hK : Documented K) {o : List (JsString × Raw)} (h : PlainSeal s o) : androidSeal K s = webSeal s := by
  obtain ⟨hparsed, hkind, ⟨n, hn, hcreated⟩, ⟨pubkey, hpubkey⟩, ⟨sig, hsig⟩⟩ := h
  have hseal : K.long (longToString (kindSeal : Nat)) = some ((kindSeal : Nat) : Int) := hK.long (by decide)
  have hint : K.int (longToString (kindSeal : Nat)) = some ((kindSeal : Nat) : Int) := K.int_of_long hseal (by decide) (by decide)
  have htoInt : (toNumber (longToString (kindSeal : Nat))).toInt? = some ((kindSeal : Nat) : Int) := by decide +kernel
  have htoInt' : (toNumber (longToString (n : Nat))).toInt? = some (n : Int) := by
    rw [longToString_eq hn]
    exact toInt?_of_toNat? (toNat?_toNumber_natToString (isDouble_of_le hn))
  have hwritten : written (toNumber (longToString (n : Nat))) = some (.digits (natToString n)) := by
    simp only [written, htoInt']
    rfl
  have hlong : K.long (longToString (n : Nat)) = some (n : Int) := hK.long (hn.trans_lt (by decide))
  rw [longToString_eq hn] at hcreated hwritten hlong
  rw [androidSeal, hK.json hparsed, webSeal, hparsed, Option.bind_some, Option.bind_some]
  simp only [element, sealEvent, fromJson, sealShape, lookup_membersOf, hkind, hcreated, hpubkey, hsig, Option.map_some,
    Option.bind_some, asPrimitive, asNumber, Unwrap.asString, hseal, hint, hlong, htoInt, hwritten, Option.bind_eq_bind,
    ne_eq, not_true, if_false, longToString_eq hn, bind_asString_element, bind_asArray_element]
  cases (lookup o "tags").bind Unwrap.asArray with
  | none => simp
  | some elems =>
    cases elems with
    | cons raw elems => simp [elementsOf]
    | nil =>
      cases (lookup o "id").bind Unwrap.asString with
      | none => simp
      | some id =>
        cases (lookup o "content").bind Unwrap.asString with
        | none => simp
        | some content =>
          simp only [Option.map_some, elementsOf, not_true, if_false, Option.bind_some, List.mapM_nil, Option.pure_def, Option.filter_some,
            List.length_nil]
          cases isHex32 id <;> cases isHex32 pubkey <;> cases isHex64Sig sig <;> rfl

theorem digitsOf_digits {t : JsString} (hd : ∀ c ∈ t, isDigit c = true) : digitsOf K t = some (digitsValue t) := by
  have hmap : t.mapM (digitOf K) = some (t.map fun c => c.val - 48) := by
    induction t with
    | nil => rfl
    | cons c t ih =>
      rw [List.mapM_cons, ih fun x h => hd x (.tail _ h), digitOf, if_pos (hd c (.head _))]
      rfl
  rw [digitsOf, hmap, Option.map_some, List.foldl_map, digitsValue]

theorem toIntegerOrNull_digits {t : JsString} (hne : t ≠ []) (hd : ∀ c ∈ t, isDigit c = true) :
    toIntegerOrNull K t = some (digitsValue t : Int) := by
  cases t with
  | nil => exact absurd rfl hne
  | cons c t =>
    have hc := hd c (.head _)
    simp only [isDigit, Bool.and_eq_true, decide_eq_true_eq] at hc
    rw [toIntegerOrNull, if_neg (by omega), digitsOf_digits hd]
    rfl

theorem toIntegerOrNull_longToString : toIntegerOrNull K (longToString n) = some (n : Int) := by
  by_cases h0 : n = 0
  · subst h0
    have hzero : longToString ((0 : Nat) : Int) = [48] := rfl
    rw [hzero, toIntegerOrNull_digits (List.cons_ne_nil _ _) fun c hc => by rw [List.mem_singleton.1 hc]; decide]
    rfl
  · have hdec : longToString n = decimal n := by
      rw [longToString, if_neg (by omega), if_neg (by omega), List.nil_append, Int.natAbs_natCast]
    rw [hdec, toIntegerOrNull_digits (decimal_ne_nil h0) fun _ => isDigit_of_mem_decimal, digitsValue_decimal]

/-- A rumor whose numbers are bare and small. -/
structure PlainRumor (r : JsString) (o : List (JsString × Raw)) : Prop where
  parsed : parseJson r = some (.obj o)
  kind : ∃ n ≤ 2 ^ 52, lookup o "kind" = some (.num (longToString (n : Nat)))
  created_at : ∃ n ≤ 2 ^ 52, lookup o "created_at" = some (.num (longToString (n : Nat)))

theorem androidRumor_eq (hK : Documented K) {o : List (JsString × Raw)} (h : PlainRumor r o) : androidRumor K r = webRumor r := by
  obtain ⟨hparsed, ⟨k, hk, hkind⟩, n, hn, hcreated⟩ := h
  have hbounded : toBoundedOrNull K 64 (longToString (n : Nat)) = some (n : Int) := by
    rw [toBoundedOrNull, toIntegerOrNull_longToString, Option.filter_some, if_pos]
    simp only [Bool.and_eq_true, decide_eq_true_eq]
    omega
  have hkindBounded : toBoundedOrNull K 32 (longToString (k : Nat)) = if k < 2 ^ 31 then some (k : Int) else none := by
    rw [toBoundedOrNull, toIntegerOrNull_longToString, Option.filter_some]
    simp only [Bool.and_eq_true, decide_eq_true_eq]
    split <;> split <;> first | rfl | omega
  rw [androidRumor, hK.json hparsed, webRumor, hparsed, Option.bind_some, Option.bind_some]
  simp only [element, rumorFields, rumorShape, lookup_membersOf, hkind, hcreated, Option.map_some, Option.bind_some, asLiteral,
    hbounded, hkindBounded, asCount_digits hk, asCount_digits hn, Option.bind_eq_bind, bind_asString_element, bind_asArray_element]
  congr 1
  funext id
  congr 1
  funext pubkey
  by_cases hallowed : k ∈ rumorKinds
  · have hlt : k < 2 ^ 31 := (by decide : ∀ k ∈ rumorKinds, k < 2 ^ 31) k hallowed
    have hcontains : rumorKinds.contains k = true := List.contains_iff_mem.2 hallowed
    have htags : (Option.map elementsOf ((lookup o "tags").bind Unwrap.asArray)).bind (fun a => List.mapM asTag a) =
        ((lookup o "tags").bind Unwrap.asArray).bind (List.mapM Unwrap.asTag) := by
      cases (lookup o "tags").bind Unwrap.asArray with
      | none => rfl
      | some elems => exact mapM_elementsOf asTag_element elems
    simp only [if_pos hlt, Option.filter_some, Int.natCast_nonneg, decide_true, if_true, Option.bind_some, Int.toNat_natCast, hcontains,
      Bool.true_eq_false, if_false, htags, longToString_eq hn]
  · have hcontains : rumorKinds.contains k = false := Bool.eq_false_iff.2 fun h => hallowed (List.contains_iff_mem.1 h)
    simp only [Option.filter_some, hcontains, Bool.false_eq_true, if_false, Option.bind_none]
    split
    · simp only [Option.filter_some, Int.natCast_nonneg, decide_true, if_true, Option.bind_some, Int.toNat_natCast, hcontains]
    · rfl

/-- **Texts whose numbers are bare and small read alike**, where the library does as it is documented. -/
theorem reads_eq_of_plain (hK : Documented K) {o o' : List (JsString × Raw)} (hs : PlainSeal s o) (hr : PlainRumor r o') :
    androidReads K s r = webReads s r := by
  rw [androidReads, webReads, androidSeal_eq hK hs, androidRumor_eq hK hr]

end

/-! ## A number in quotes -/

namespace Small

def zeros (n : Nat) : JsString := List.replicate n 48

def quoted (s : JsString) : JsString := js "\"" ++ s ++ js "\""

/-- A seal whose `created_at` is in quotes. -/
def sealText : JsString :=
  js "\x7b\"id\":" ++ quoted (zeros 64) ++ js ",\"pubkey\":" ++ quoted (zeros 64) ++
    js ",\"created_at\":\"5\",\"kind\":13,\"tags\":[],\"content\":\"c\",\"sig\":" ++ quoted (zeros 128) ++ js "\x7d"

def rumorText : JsString :=
  js "\x7b\"id\":" ++ quoted (zeros 64) ++ js ",\"pubkey\":" ++ quoted (zeros 64) ++
    js ",\"created_at\":5,\"kind\":21600,\"tags\":[],\"content\":\"\"\x7d"

def sealed : Signed :=
  { pubkey := zeros 64, created_at := .digits (js "5"), kind := 13, tags := [], content := js "c", id := zeros 64, sig := zeros 128 }

def rumor : Rumor := { id := zeros 64, pubkey := zeros 64, created_at := 5, kind := 21600, tags := [], content := [] }

def wrap : Wrap := wrapOf (js "w") (zeros 128) (by decide +kernel)

/-- All that is signed is authentic. -/
def crypto : Crypto Unit where
  nip44Decrypt _ _ content := if content = js "w" then some sealText else some rumorText
  getEventHash _ := zeros 64
  verify _ _ _ := true

end Small

end Nostrautica.Android.GiftWrap
