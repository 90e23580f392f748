/-
`signerUnwrap` of `app/src/lib/events/giftwrap.ts` beside `unwrapRumor` of
`protocol/src/giftwrap.ts`: a gift wrap opened by a signer that decrypts, and by the secret key.

The two read the same rumor (`signerUnwrap_eq`). The signer is asked only about texts that have the
shape of a NIP-44 payload, the key about any that is not too long; NIP-44 decrypts no text of
another shape, because a payload is the base64 of 99 bytes or more (`isNip44Ciphertext_base64`).
-/
import Nostrautica.Protocol.Unwrap

namespace Nostrautica.SignerUnwrap

open Js
open Nostrautica.Unwrap
open Nostrautica.GiftWrap (Rumor)

/-! ## Base64 -/

/-- The base64 digit of six bits. -/
def base64Unit (n : Nat) : CodeUnit :=
  if n < 26 then codeUnit (65 + n)
  else if n < 52 then codeUnit (97 + (n - 26))
  else if n < 62 then codeUnit (48 + (n - 52))
  else if n = 62 then codeUnit 43
  else codeUnit 47

/-- `=`. -/
def pad : CodeUnit := codeUnit 61

/-- Bytes in base64, with padding. -/
def base64 : List UInt8 → JsString
  | a :: b :: c :: rest =>
    base64Unit (a.toNat / 4) :: base64Unit (a.toNat % 4 * 16 + b.toNat / 16) ::
      base64Unit (b.toNat % 16 * 4 + c.toNat / 64) :: base64Unit (c.toNat % 64) :: base64 rest
  | [a, b] =>
    [base64Unit (a.toNat / 4), base64Unit (a.toNat % 4 * 16 + b.toNat / 16), base64Unit (b.toNat % 16 * 4), pad]
  | [a] => [base64Unit (a.toNat / 4), base64Unit (a.toNat % 4 * 16), pad, pad]
  | [] => []

/-- `[A-Za-z0-9+/]`. -/
def isBase64Unit (c : CodeUnit) : Bool :=
  (65 ≤ c.val && c.val ≤ 90) || (97 ≤ c.val && c.val ≤ 122) || (48 ≤ c.val && c.val ≤ 57) || c.val = 43 || c.val = 47

/-- `NIP44_B64.test(s)`. -/
def nip44B64 (s : JsString) : Bool :=
  let padding := s.dropWhile isBase64Unit
  0 < (s.takeWhile isBase64Unit).length && padding.length ≤ 2 && padding.all (· = pad)

/-! ## The payload of NIP-44 -/

/-- `NIP44_MIN_CIPHERTEXT_B64`. -/
def nip44MinCiphertextB64 : Nat := 132

/-- `calcPaddedLen(NIP44_MAX_PLAINTEXT_BYTES)`. -/
def nip44MaxPaddedLen : Nat := 65536

/-- `NIP44_MAX_CIPHERTEXT_B64`. -/
def nip44MaxCiphertextB64 : Nat := (1 + 32 + (2 + nip44MaxPaddedLen) + 32 + 2) / 3 * 4

/-- `assertNip44CiphertextCeiling(ciphertext)`, whether it returns. -/
def withinCeiling (ciphertext : JsString) : Bool := ciphertext.length ≤ nip44MaxCiphertextB64

/-- `isNip44Ciphertext(ciphertext)`. -/
def isNip44Ciphertext (ciphertext : JsString) : Bool :=
  if ciphertext.length < nip44MinCiphertextB64 then false
  else if ciphertext.length > nip44MaxCiphertextB64 then false
  else if ciphertext.length % 4 ≠ 0 then false
  else nip44B64 ciphertext

/-- What comes from nostr-tools. -/
structure NostrTools (Sk : Type) where
  /-- `nip44v2.decrypt(content, getConversationKey(sk, pubkey))`; `none` where it throws. -/
  decrypt : Sk → JsString → JsString → Option JsString
  getEventHash : Unsigned → JsString
  verify : JsString → JsString → JsString → Bool

/-- A NIP-44 payload is the base64 of a version, a nonce of 32 bytes, a padded text of 34 or more and
a MAC of 32, and nothing else is decrypted. -/
def NostrTools.ReadsPayloads {Sk : Type} (N : NostrTools Sk) : Prop :=
  ∀ sk pubkey content text, N.decrypt sk pubkey content = some text →
    ∃ payload : List UInt8, 99 ≤ payload.length ∧ content = base64 payload

/-! ## The two unwrappings -/

section

variable {Sk : Type} (N : NostrTools Sk)

/-- `nip44Decrypt(recipientSk, senderPubkey, ciphertext)` of `protocol/src/crypto.ts`. -/
def nip44Decrypt (recipientSk : Sk) (senderPubkey ciphertext : JsString) : Option JsString :=
  if withinCeiling ciphertext = false then none else N.decrypt recipientSk senderPubkey ciphertext

/-- The cryptography that `unwrapRumor` works with. -/
def NostrTools.crypto : Crypto Sk where
  nip44Decrypt := nip44Decrypt N
  getEventHash := N.getEventHash
  verify := N.verify

/-- `signer.nip44Decrypt(pubkey, ciphertext)`; `none` where it rejects. -/
abbrev Signer := JsString → JsString → Option JsString

/-- `signerUnwrap(signer, wrap)`. -/
def signerUnwrap (signer : Signer) (wrap : Wrap) (nowSec : Int) : Option Rumor := do
  if wrap.kind ≠ kindGiftWrap then none else
  if verifyEvent N.crypto wrap.toSigned = false then none else
  if withinCeiling wrap.content = false then none else
  if isNip44Ciphertext wrap.content = false then none else
  let sealJson ← signer wrap.pubkey wrap.content
  let sealed ← (parseJson sealJson).bind (assertVerifiedSeal N.crypto)
  if withinCeiling sealed.content = false then none else
  if isNip44Ciphertext sealed.content = false then none else
  let rumorJson ← signer sealed.pubkey sealed.content
  let rumor ← parseJson rumorJson
  finalizeUnwrappedRumor N.crypto rumor sealed.pubkey rumorKinds nowSec

end

/-! ## A payload has the shape -/

theorem isBase64Unit_base64Unit : ∀ n < 64, isBase64Unit (base64Unit n) = true := by decide

theorem isBase64Unit_pad : isBase64Unit pad = false := by decide

/-- The digits of some bytes, and at most two signs after them. -/
theorem base64_eq_append :
    ∀ payload, ∃ digits padding, base64 payload = digits ++ padding ∧ (∀ c ∈ digits, isBase64Unit c = true) ∧
      (∀ c ∈ padding, c = pad) ∧ padding.length ≤ 2 ∧ (payload ≠ [] → digits ≠ [])
  | [] => ⟨[], [], rfl, by simp, by simp, by simp, fun h => absurd rfl h⟩
  | [a] => by
    have ha := a.toNat_lt
    refine ⟨[base64Unit (a.toNat / 4), base64Unit (a.toNat % 4 * 16)], [pad, pad], rfl, ?_, by simp, by simp, fun _ => List.cons_ne_nil _ _⟩
    simp only [List.forall_mem_cons, List.not_mem_nil, false_imp_iff, implies_true, and_true]
    exact ⟨isBase64Unit_base64Unit _ (by omega), isBase64Unit_base64Unit _ (by omega)⟩
  | [a, b] => by
    have ha := a.toNat_lt
    have hb := b.toNat_lt
    refine ⟨[base64Unit (a.toNat / 4), base64Unit (a.toNat % 4 * 16 + b.toNat / 16), base64Unit (b.toNat % 16 * 4)], [pad], rfl, ?_, by simp,
      by simp, fun _ => List.cons_ne_nil _ _⟩
    simp only [List.forall_mem_cons, List.not_mem_nil, false_imp_iff, implies_true, and_true]
    exact ⟨isBase64Unit_base64Unit _ (by omega), isBase64Unit_base64Unit _ (by omega), isBase64Unit_base64Unit _ (by omega)⟩
  | a :: b :: c :: rest => by
    have ha := a.toNat_lt
    have hb := b.toNat_lt
    have hc := c.toNat_lt
    obtain ⟨digits, padding, heq, hdigits, hpad, hlen, -⟩ := base64_eq_append rest
    refine ⟨base64Unit (a.toNat / 4) :: base64Unit (a.toNat % 4 * 16 + b.toNat / 16) :: base64Unit (b.toNat % 16 * 4 + c.toNat / 64) ::
      base64Unit (c.toNat % 64) :: digits, padding, by rw [base64, heq]; rfl, ?_, hpad, hlen, fun _ => List.cons_ne_nil _ _⟩
    simp only [List.forall_mem_cons]
    exact ⟨isBase64Unit_base64Unit _ (by omega), isBase64Unit_base64Unit _ (by omega), isBase64Unit_base64Unit _ (by omega),
      isBase64Unit_base64Unit _ (by omega), hdigits⟩

theorem length_base64 : ∀ payload, (base64 payload).length = (payload.length + 2) / 3 * 4
  | [] => rfl
  | [_] => by simp [base64]
  | [_, _] => by simp [base64]
  | a :: b :: c :: rest => by
    simp only [base64, List.length_cons, length_base64 rest]
    omega

theorem nip44B64_base64 {payload : List UInt8} (h : payload ≠ []) : nip44B64 (base64 payload) = true := by
  obtain ⟨digits, padding, heq, hdigits, hpad, hlen, hne⟩ := base64_eq_append payload
  have hstop : padding.takeWhile isBase64Unit = [] ∧ padding.dropWhile isBase64Unit = padding := by
    cases padding with
    | nil => exact ⟨rfl, rfl⟩
    | cons c rest =>
      rw [hpad c List.mem_cons_self]
      exact ⟨rfl, rfl⟩
  have htake : (base64 payload).takeWhile isBase64Unit = digits := by
    rw [heq, List.takeWhile_append_of_pos hdigits, hstop.1, List.append_nil]
  have hdrop : (base64 payload).dropWhile isBase64Unit = padding := by
    rw [heq, List.dropWhile_append_of_pos hdigits, hstop.2]
  have hpos : 0 < digits.length := List.length_pos_iff.2 (hne h)
  have hall : padding.all (· = pad) = true := List.all_eq_true.2 fun c hc => decide_eq_true (hpad c hc)
  rw [nip44B64, htake, hdrop, hall, decide_eq_true hpos, decide_eq_true hlen]
  rfl

/-- What is a payload, and not too long, has the shape that the signer is asked about. -/
theorem isNip44Ciphertext_base64 {payload : List UInt8} (h : 99 ≤ payload.length) (hmax : withinCeiling (base64 payload) = true) :
    isNip44Ciphertext (base64 payload) = true := by
  have hle : (base64 payload).length ≤ nip44MaxCiphertextB64 := of_decide_eq_true hmax
  have hlen := length_base64 payload
  have hmin : ¬(base64 payload).length < nip44MinCiphertextB64 := by
    rw [nip44MinCiphertextB64]
    omega
  have hne : payload ≠ [] := by
    rintro rfl
    exact absurd h (by decide)
  rw [isNip44Ciphertext, if_neg hmin, if_neg (Nat.not_lt.2 hle), if_neg (by omega), nip44B64_base64 hne]

/-! ## The two agree -/

section

variable {Sk : Type} {N : NostrTools Sk} {signer : Signer} {sk : Sk}

/-- The signer's decryption, behind the two checks, is the key's. -/
theorem guarded_eq (hN : N.ReadsPayloads) (hsigner : ∀ pubkey content, isNip44Ciphertext content = true → signer pubkey content = N.decrypt sk pubkey content)
    {α : Type} (pubkey content : JsString) (next : JsString → Option α) :
    (if withinCeiling content = false then none
      else if isNip44Ciphertext content = false then none else (signer pubkey content).bind next) =
      (nip44Decrypt N sk pubkey content).bind next := by
  rw [nip44Decrypt]
  by_cases hlong : withinCeiling content = false
  · rw [if_pos hlong, if_pos hlong, Option.bind_none]
  rw [if_neg hlong, if_neg hlong]
  by_cases hshape : isNip44Ciphertext content = false
  · rw [if_pos hshape]
    -- a text of another shape is no payload
    cases htext : N.decrypt sk pubkey content with
    | none => rfl
    | some text =>
      obtain ⟨payload, hlen, rfl⟩ := hN sk pubkey content text htext
      rw [isNip44Ciphertext_base64 hlen (Bool.not_eq_false _ ▸ hlong)] at hshape
      exact absurd hshape (by decide)
  · rw [if_neg hshape, hsigner pubkey content (Bool.not_eq_false _ ▸ hshape)]

/-- A signer that decrypts under a key opens what the key opens, and reads the same rumor. -/
theorem signerUnwrap_eq (hN : N.ReadsPayloads)
    (hsigner : ∀ pubkey content, isNip44Ciphertext content = true → signer pubkey content = N.decrypt sk pubkey content)
    (wrap : Wrap) (nowSec : Int) : signerUnwrap N signer wrap nowSec = unwrapRumor N.crypto wrap sk rumorKinds nowSec := by
  rw [signerUnwrap, unwrapRumor]
  by_cases hkind : wrap.kind ≠ kindGiftWrap
  · rw [if_pos hkind, if_pos hkind]
  rw [if_neg hkind, if_neg hkind]
  by_cases hverify : verifyEvent N.crypto wrap.toSigned = false
  · rw [if_pos hverify, if_pos hverify]
  rw [if_neg hverify, if_neg hverify]
  refine (guarded_eq hN hsigner wrap.pubkey wrap.content _).trans ?_
  refine congrArg _ (funext fun sealText => congrArg _ (funext fun sealed => ?_))
  exact guarded_eq hN hsigner sealed.pubkey sealed.content _

end

/-! ## A wrap that is opened -/

namespace Small

def zeros (n : Nat) : JsString := List.replicate n (codeUnit 48)

def quoted (s : JsString) : JsString := js "\"" ++ s ++ js "\""

def outer : JsString := base64 (List.replicate 99 1)

def inner : JsString := base64 (List.replicate 100 2)

def sealText : JsString :=
  js "\x7b\"id\":" ++ quoted (zeros 64) ++ js ",\"pubkey\":" ++ quoted (zeros 64) ++
    js ",\"created_at\":5,\"kind\":13,\"tags\":[],\"content\":" ++ quoted inner ++ js ",\"sig\":" ++ quoted (zeros 128) ++ js "\x7d"

def rumorText : JsString :=
  js "\x7b\"id\":" ++ quoted (zeros 64) ++ js ",\"pubkey\":" ++ quoted (zeros 64) ++
    js ",\"created_at\":5,\"kind\":14,\"tags\":[],\"content\":\"\"\x7d"

def wrap : Wrap where
  pubkey := zeros 64
  created_at := .digits (js "5")
  kind := 1059
  tags := []
  content := outer
  id := zeros 64
  sig := zeros 128
  id_hex := by decide
  pubkey_hex := by decide
  sig_hex := by decide

/-- Two payloads are decrypted, and all that is signed is authentic. -/
def tools : NostrTools Unit where
  decrypt _ _ content := if content = outer then some sealText else if content = inner then some rumorText else none
  getEventHash _ := zeros 64
  verify _ _ _ := true

theorem tools_readsPayloads : tools.ReadsPayloads := by
  intro _ _ content text h
  rw [tools] at h
  by_cases houter : content = outer
  · exact ⟨List.replicate 99 1, by simp, houter⟩
  · by_cases hinner : content = inner
    · exact ⟨List.replicate 100 2, by simp, hinner⟩
    · simp only [if_neg houter, if_neg hinner] at h
      exact nomatch h

end Small

theorem signerUnwrap_eq_small :
    signerUnwrap Small.tools (Small.tools.decrypt ()) Small.wrap 100 = unwrapRumor Small.tools.crypto Small.wrap () rumorKinds 100 ∧
      (unwrapRumor Small.tools.crypto Small.wrap () rumorKinds 100).isSome = true :=
  ⟨signerUnwrap_eq Small.tools_readsPayloads (fun _ _ _ => rfl) Small.wrap 100, by decide +kernel⟩

end Nostrautica.SignerUnwrap
