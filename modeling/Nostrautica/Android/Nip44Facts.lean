/-
A NIP-44 text is read back (`envelope_round_trip`): the envelope of 1 to 65,535 bytes keeps to
the ceilings, and what is read of any payload lies within it.
-/
import Nostrautica.Android.Nip19Facts
import Nostrautica.Android.Nip44

namespace Nostrautica.Nip44

open Js EckIdentity Base64
open Nip19 (Jvm utf8 toText)

section

variable {m n : Nat}

/-! ## Padding -/

/-- The power of two that a length fills up to at most. -/
def ceiling (n : Nat) : Nat := 2 ^ ((n - 1).log2 + 1)

def chunk (n : Nat) : Nat := if ceiling n ≤ 256 then 32 else ceiling n / 8

/-- The padded length of more than 32 bytes. -/
def padded (n : Nat) : Nat := chunk n * ((n - 1) / chunk n + 1)

theorem lt_ceiling (n : Nat) : n - 1 < ceiling n := Nat.lt_log2_self

theorem log2_pred_mono (hm : 32 < m) (h : m ≤ n) : (m - 1).log2 ≤ (n - 1).log2 :=
  (Nat.le_log2 (by omega)).2 ((Nat.log2_self_le (by omega)).trans (by omega))

theorem ceiling_pos (h : 32 < n) : 64 ≤ ceiling n := by
  have hlog : 5 ≤ (n - 1).log2 := (Nat.le_log2 (by omega)).2 (by omega)
  exact (Nat.pow_le_pow_right (by decide) (Nat.succ_le_succ hlog) : 2 ^ 6 ≤ 2 ^ ((n - 1).log2 + 1))

theorem ceiling_le {k : Nat} (h : 32 < n) (hn : n ≤ 2 ^ k) : ceiling n ≤ 2 ^ k := by
  refine Nat.pow_le_pow_right (by decide) ?_
  exact (Nat.log2_lt (by omega)).2 (by omega)

theorem chunk_dvd_ceiling (h : 32 < n) : 32 ≤ chunk n ∧ chunk n ∣ ceiling n := by
  have hlog : 5 ≤ (n - 1).log2 := (Nat.le_log2 (by omega)).2 (by omega)
  unfold chunk
  by_cases hsmall : ceiling n ≤ 256
  · rw [if_pos hsmall]
    exact ⟨le_rfl, Nat.pow_dvd_pow 2 (by omega : 5 ≤ (n - 1).log2 + 1)⟩
  · rw [if_neg hsmall]
    have height : 8 ∣ ceiling n := Nat.pow_dvd_pow 2 (by omega : 3 ≤ (n - 1).log2 + 1)
    exact ⟨by omega, Nat.div_dvd_of_dvd height⟩

theorem le_padded (h : 32 < n) : n ≤ padded n := by
  have hpos : 0 < chunk n := by have := (chunk_dvd_ceiling h).1; omega
  have hlt := Nat.lt_mul_div_succ (n - 1) hpos
  unfold padded
  omega

theorem padded_le_ceiling (h : 32 < n) : padded n ≤ ceiling n := by
  obtain ⟨hchunk, q, hq⟩ := chunk_dvd_ceiling h
  have hlt := lt_ceiling n
  rw [hq] at hlt ⊢
  exact Nat.mul_le_mul_left _ ((Nat.div_lt_iff_lt_mul (by omega)).2 (by rwa [Nat.mul_comm]))

theorem paddedLen_of_le (h : n ≤ 32) : paddedLen n = 32 := by
  unfold paddedLen
  rw [if_pos h]

/-- Up to `2 ^ 30` nothing overflows. -/
theorem paddedLen_eq (h : 32 < n) (hn : n ≤ 2 ^ 30) : paddedLen n = padded n := by
  have hlog : (n - 1).log2 < 30 := (Nat.log2_lt (by omega)).2 (by omega)
  have hceil : ceiling n ≤ 2 ^ 30 := ceiling_le h hn
  have hpad := padded_le_ceiling h
  have hone : 1 ≤ chunk n := by have := (chunk_dvd_ceiling h).1; omega
  have hsmall : ∀ k : Nat, k ≤ 2 ^ 30 → toInt k = k := by
    intro k hk
    unfold toInt
    exact Int.bmod_eq_of_le (by omega) (by omega)
  have hpower : toInt (2 ^ ((32 - numberOfLeadingZeros (n - 1)) % 32)) = ceiling n := by
    have hshift : (32 - numberOfLeadingZeros (n - 1)) % 32 = (n - 1).log2 + 1 := by
      unfold numberOfLeadingZeros
      rw [if_neg (by omega)]
      omega
    rw [hshift, ← hsmall (ceiling n) hceil, ceiling]
    push_cast
    rfl
  have hchunk : (if (ceiling n : Int) ≤ 256 then (32 : Int) else (ceiling n : Int) / 8) = chunk n := by
    unfold chunk
    by_cases hle : ceiling n ≤ 256
    · rw [if_pos hle, if_pos (by omega)]
      rfl
    · rw [if_neg hle, if_neg (by omega)]
      rfl
  have hcount : (n - 1) / chunk n + 1 ≤ 2 ^ 30 := by
    have hdiv : (n - 1) / chunk n ≤ n - 1 := Nat.div_le_self _ _
    omega
  unfold paddedLen
  rw [if_neg (by omega)]
  simp only [hpower, hchunk]
  have hinner : ((n - 1 : Nat) : Int) / (chunk n : Int) + 1 = ((n - 1) / chunk n + 1 : Nat) := by push_cast; rfl
  rw [hinner, hsmall _ hcount, ← Int.natCast_mul]
  exact hsmall _ (hpad.trans hceil)

/-- A length is padded to itself or more. -/
theorem le_paddedLen (hn : n ≤ 2 ^ 30) : (n : Int) ≤ paddedLen n := by
  by_cases h : n ≤ 32
  · rw [paddedLen_of_le h]
    omega
  · rw [paddedLen_eq (by omega) hn]
    exact Int.ofNat_le.2 (le_padded (by omega))

theorem padded_mono (hm : 32 < m) (h : m ≤ n) : padded m ≤ padded n := by
  by_cases hlog : (m - 1).log2 = (n - 1).log2
  · have hceil : ceiling m = ceiling n := by rw [ceiling, ceiling, hlog]
    have hchunk : chunk m = chunk n := by rw [chunk, chunk, hceil]
    rw [padded, padded, hchunk]
    exact Nat.mul_le_mul_left _ (Nat.succ_le_succ (Nat.div_le_div_right (by omega)))
  · -- a longer text of another power is longer than what the shorter one fills up to
    have hle : (m - 1).log2 ≤ (n - 1).log2 := log2_pred_mono hm h
    have hpow : ceiling m ≤ n - 1 :=
      (Nat.pow_le_pow_right (by decide) (by omega : (m - 1).log2 + 1 ≤ (n - 1).log2)).trans (Nat.log2_self_le (by omega))
    have hself := le_padded (n := n) (by omega)
    have hmax := padded_le_ceiling hm
    omega

theorem paddedLen_mono (h : m ≤ n) (hn : n ≤ 2 ^ 30) : paddedLen m ≤ paddedLen n := by
  by_cases hm : m ≤ 32
  · rw [paddedLen_of_le hm]
    by_cases hn' : n ≤ 32
    · rw [paddedLen_of_le hn']
    · have hle := le_paddedLen hn
      omega
  · rw [paddedLen_eq (by omega) (by omega), paddedLen_eq (by omega) hn]
    exact Int.ofNat_le.2 (padded_mono (by omega) h)

/-- A padded length is padded to itself. -/
theorem padded_padded (h : 32 < n) : padded (padded n) = padded n := by
  have hself := le_padded h
  have hmax := padded_le_ceiling h
  have hlog : (padded n - 1).log2 = (n - 1).log2 := by
    refine le_antisymm ?_ (log2_pred_mono h hself)
    have hlt : (padded n - 1).log2 < (n - 1).log2 + 1 := (Nat.log2_lt (by omega)).2 (by rw [ceiling] at hmax; omega)
    omega
  have hceil : ceiling (padded n) = ceiling n := by rw [ceiling, ceiling, hlog]
  have hchunk : chunk (padded n) = chunk n := by rw [chunk, chunk, hceil]
  have hpos : 0 < chunk n := by have := (chunk_dvd_ceiling h).1; omega
  have hdiv : (padded n - 1) / chunk n = (n - 1) / chunk n := by
    have hge : (n - 1) / chunk n * chunk n ≤ padded n - 1 := by
      have := Nat.div_mul_le_self (n - 1) (chunk n)
      omega
    have hlt : padded n - 1 < ((n - 1) / chunk n + 1) * chunk n := by
      rw [Nat.mul_comm]
      show padded n - 1 < padded n
      omega
    exact Nat.div_eq_of_lt_le hge hlt
  conv_lhs => rw [padded, hchunk, hdiv]
  rfl

theorem paddedLen_paddedLen (hn : n ≤ 65535) : paddedLen (paddedLen n).toNat = paddedLen n := by
  by_cases h : n ≤ 32
  · rw [paddedLen_of_le h]
    rfl
  · have hle := padded_le_ceiling (n := n) (by omega)
    have hceil := ceiling_le (k := 16) (by omega) (show n ≤ 2 ^ 16 by omega)
    have hself := le_padded (n := n) (by omega)
    have heq : paddedLen n = padded n := paddedLen_eq (by omega) (by omega)
    rw [heq, Int.toNat_natCast, paddedLen_eq (by omega) (by omega), padded_padded (by omega)]

theorem paddedLen_bounds (hn : n ≤ 65535) : 32 ≤ paddedLen n ∧ paddedLen n ≤ 65536 := by
  by_cases h : n ≤ 32
  · rw [paddedLen_of_le h]
    omega
  · have hle := padded_le_ceiling (n := n) (by omega)
    have hceil := ceiling_le (k := 16) (by omega) (show n ≤ 2 ^ 16 by omega)
    have hself := le_padded (n := n) (by omega)
    rw [paddedLen_eq (by omega) (by omega)]
    omega

end

section

/-! ## Base64 -/

theorem fromBase64_cons {x y z w : Nat} (hx : x < 64) (hy : y < 64) (hz : z < 64) (hw : w < 64) (rest : JsString) :
    fromBase64 (base64Unit x :: base64Unit y :: base64Unit z :: base64Unit w :: rest) = (fromBase64 rest).map (regroup [x, y, z, w] ++ ·) := by
  rw [fromBase64]
  simp only [base64Digit_base64Unit x hx, base64Digit_base64Unit y hy, base64Digit_base64Unit z hz, base64Digit_base64Unit w hw,
    if_neg (base64Unit_spec z hz).1, if_neg (base64Unit_spec w hw).1, Option.bind_eq_bind, Option.bind_some, Option.pure_def]
  cases fromBase64 rest with
  | none => rfl
  | some bytes => rfl

theorem fromBase64_bytesToBase64 (bytes : List UInt8) : fromBase64 (bytesToBase64 bytes) = some bytes := by
  have hlt := sextets_lt bytes
  have hgroup := regroup_sextets bytes
  fun_induction sextets bytes with
  | case1 a b c rest ih =>
    have hpad : bytesToBase64 (a :: b :: c :: rest) = base64Unit (a.toNat / 4) :: base64Unit (a.toNat % 4 * 16 + b.toNat / 16) ::
        base64Unit (b.toNat % 16 * 4 + c.toNat / 64) :: base64Unit (c.toNat % 64) :: bytesToBase64 rest := by
      have hmod : (a :: b :: c :: rest).length % 3 = rest.length % 3 := by
        simp only [List.length_cons]
        omega
      simp only [bytesToBase64, sextets, List.map_cons, List.cons_append, hmod]
    have ih := ih (fun n hn => hlt n (by simp [hn])) (regroup_sextets rest)
    rw [hpad, fromBase64_cons (hlt _ (by simp)) (hlt _ (by simp)) (hlt _ (by simp)) (hlt _ (by simp)), ih, Option.map_some]
    rw [regroup, regroup_sextets] at hgroup
    exact congrArg some hgroup
  | case2 a b =>
    have hx := hlt (a.toNat / 4) (by simp)
    have hy := hlt (a.toNat % 4 * 16 + b.toNat / 16) (by simp)
    have hz := hlt (b.toNat % 16 * 4) (by simp)
    have hpad : bytesToBase64 [a, b] = [base64Unit (a.toNat / 4), base64Unit (a.toNat % 4 * 16 + b.toNat / 16), base64Unit (b.toNat % 16 * 4), 61] := rfl
    rw [hpad, fromBase64]
    simp only [base64Digit_base64Unit _ hx, base64Digit_base64Unit _ hy, base64Digit_base64Unit _ hz, if_neg (base64Unit_spec _ hz).1,
      Option.bind_eq_bind, Option.bind_some, if_true, Option.pure_def, hgroup]
  | case3 a =>
    have hx := hlt (a.toNat / 4) (by simp)
    have hy := hlt (a.toNat % 4 * 16) (by simp)
    have hpad : bytesToBase64 [a] = [base64Unit (a.toNat / 4), base64Unit (a.toNat % 4 * 16), 61, 61] := rfl
    rw [hpad, fromBase64]
    simp only [base64Digit_base64Unit _ hx, base64Digit_base64Unit _ hy, Option.bind_eq_bind, Option.bind_some, if_true, and_self,
      Option.pure_def, hgroup]
  | case4 => rfl

theorem isB64_bytesToBase64 {bytes : List UInt8} (h : bytes ≠ []) : isB64 (bytesToBase64 bytes) = true := by
  have hlt := sextets_lt bytes
  have hdigits : ∀ c ∈ (sextets bytes).map base64Unit, (base64Digit c).isSome = true := by
    intro c hc
    obtain ⟨n, hn, rfl⟩ := List.mem_map.1 hc
    rw [base64Digit_base64Unit n (hlt n hn)]
    rfl
  have hpad : ∀ c ∈ (List.replicate ((3 - bytes.length % 3) % 3) (61 : CodeUnit)).head?, (base64Digit c).isSome = false := by
    intro c hc
    rw [List.eq_of_mem_replicate (List.mem_of_mem_head? hc)]
    decide
  have htake : (bytesToBase64 bytes).takeWhile (fun c => (base64Digit c).isSome) = (sextets bytes).map base64Unit := by
    unfold bytesToBase64
    rw [List.takeWhile_append_of_pos hdigits]
    cases hr : List.replicate ((3 - bytes.length % 3) % 3) (61 : CodeUnit) with
    | nil => simp
    | cons c l =>
      rw [hr] at hpad
      rw [List.takeWhile_cons_of_neg (by rw [hpad c rfl]; decide), List.append_nil]
  have hne : (sextets bytes).map base64Unit ≠ [] := by
    intro hnil
    refine h ?_
    rw [← regroup_sextets bytes, List.map_eq_nil_iff.1 hnil]
    rfl
  unfold isB64
  simp only [htake]
  rw [bytesToBase64, List.drop_left]
  have hcount : (3 - bytes.length % 3) % 3 < 3 := Nat.mod_lt _ (by decide)
  rw [Bool.and_eq_true, decide_eq_true_eq]
  refine ⟨hne, ?_⟩
  interval_cases (3 - bytes.length % 3) % 3
  · decide
  · decide
  · decide

theorem head_bytesToBase64 (a : UInt8) (bytes : List UInt8) : (bytesToBase64 (a :: bytes)).head? ≠ some 35 := by
  have hlt := sextets_lt (a :: bytes)
  have hunit : ∀ n < 64, base64Unit n ≠ 35 := by decide
  cases hs : sextets (a :: bytes) with
  | nil =>
    have hgroup := regroup_sextets (a :: bytes)
    rw [hs] at hgroup
    cases hgroup
  | cons n l =>
    rw [hs] at hlt
    rw [bytesToBase64, hs, List.map_cons, List.cons_append, List.head?_cons, Ne, Option.some.injEq]
    exact hunit n (hlt n List.mem_cons_self)

end

section

variable {h : Hashes} {d : Jvm} {key nonce : List UInt8}

/-! ## The cipher -/

theorem length_block (s : ChaCha20.State) : (ChaCha20.block s).length = 64 := by
  simp [ChaCha20.block, ChaCha20.wordBytes, List.length_flatMap]

/-- What is done with the padded text in both directions. -/
def cipher (h : Hashes) (key nonce input : List UInt8) : List UInt8 :=
  let keys := (h.hkdfExpand key nonce).toList
  Coding.stream (· ^^^ ·) ChaCha20.block ChaCha20.nextBlock 64 (Coding.blocks 64 input)
    (ChaCha20.initState (keys.take 32) ((keys.take 44).drop 32) 0) input

theorem length_cipher (input : List UInt8) : (cipher h key nonce input).length = input.length :=
  Coding.length_stream length_block (Coding.le_blocks (by decide) input)

theorem cipher_cipher (input : List UInt8) : cipher h key nonce (cipher h key nonce input) = input := by
  have hlen : Coding.blocks 64 (cipher h key nonce input) = Coding.blocks 64 input := Coding.blocks_congr (length_cipher input)
  have hxor : ∀ a b : UInt8, (a ^^^ b) ^^^ b = a := fun a b => by rw [UInt8.xor_assoc, UInt8.xor_self, UInt8.xor_zero]
  show Coding.stream _ _ _ 64 (Coding.blocks 64 (cipher h key nonce input)) _ _ = input
  rw [hlen]
  exact Coding.stream_stream hxor length_block (Coding.le_blocks (by decide) input)

/-- The mac of what is sent. -/
def macOf (h : Hashes) (key nonce ciphertext : List UInt8) : List UInt8 :=
  (h.hmacSha256 ((h.hkdfExpand key nonce).toList.drop 44) (nonce ++ ciphertext)).toList

theorem copyOfRange_eq (bytes : List UInt8) {a b : Nat} (hab : a ≤ b) (hb : b ≤ bytes.length) :
    copyOfRange bytes a b = .ok ((bytes.take b).drop a) := if_pos ⟨hab, hb⟩

theorem xor_eq {key nonce input : List UInt8} (hk : key.length = 32) (hn : nonce.length = 12) {counter : UInt32} :
    ChaCha20.xor key nonce input counter =
      .ok (Coding.stream (· ^^^ ·) ChaCha20.block ChaCha20.nextBlock 64 (Coding.blocks 64 input) (ChaCha20.initState key nonce counter) input) :=
  if_pos ⟨hk, hn⟩

theorem byteAt_eq (bytes : List UInt8) {i : Nat} (hi : i < bytes.length) : byteAt bytes i = .ok (bytes.getD i 0) := by
  unfold byteAt
  rw [List.getElem?_eq_getElem hi, List.getD_eq_getElem _ _ hi]

/-- The text before it is encrypted: its length, the text, and zeros. -/
def padText (pt : List UInt8) : List UInt8 :=
  UInt8.ofNat (pt.length >>> 8) :: UInt8.ofNat pt.length :: pt ++ List.replicate ((2 + paddedLen pt.length).toNat - 2 - pt.length) 0

/-- The envelope of a text. -/
def envelope (h : Hashes) (key nonce pt : List UInt8) : List UInt8 :=
  [2] ++ nonce ++ cipher h key nonce (padText pt) ++ macOf h key nonce (cipher h key nonce (padText pt))

theorem length_keys (h : Hashes) (key nonce : List UInt8) : (h.hkdfExpand key nonce).toList.length = 76 := List.Vector.toList_length _

theorem encrypt_eq {text : String} (hk : key.length = 32) (hn : nonce.length = 32) (hne : utf8 text ≠ [])
    (hlen : (utf8 text).length ≤ 65535) : encrypt h text key nonce = .ok (bytesToBase64 (envelope h key nonce (utf8 text))) := by
  have hpos : (1 : Int) ≤ (utf8 text).length := by
    have := List.length_pos_of_ne_nil hne
    omega
  have hkeys := length_keys h key nonce
  have hchacha := copyOfRange_eq (h.hkdfExpand key nonce).toList (Nat.zero_le 32) (by omega)
  have hnonce := copyOfRange_eq (h.hkdfExpand key nonce).toList (show 32 ≤ 44 by decide) (by omega)
  have hmac := copyOfRange_eq (h.hkdfExpand key nonce).toList (show 44 ≤ 76 by decide) (by omega)
  have hmax : (utf8 text).length ≤ maxPlaintextBytes := hlen
  have hpad : calcPaddedLen (utf8 text).length = .ok (paddedLen (utf8 text).length) := if_pos hpos
  unfold encrypt
  simp only [require, hk, hn, hne, hmax, decide_true, decide_not, decide_false, Bool.not_false, if_true, hchacha, hnonce, hmac, hpad, Bind.bind, Except.bind]
  rw [xor_eq (by rw [List.length_drop, List.length_take]; omega) (by rw [List.length_drop, List.length_take]; omega)]
  have hall : (h.hkdfExpand key nonce).toList.take 76 = (h.hkdfExpand key nonce).toList := List.take_of_length_le (by omega)
  simp only [hall, List.drop_zero]
  rfl

/-! ## Opening -/

/-- The length that the first two bytes say. -/
def saidLen (padded : List UInt8) : Nat := ((padded.getD 0 0).toNat <<< 8) ||| (padded.getD 1 0).toNat

/-- What the bytes of a payload come to. -/
def opened (h : Hashes) (d : Jvm) (key data : List UInt8) : Except Thrown String :=
  let nonce := (data.take 33).drop 1
  let ciphertext := (data.take (data.length - 32)).drop 33
  let text := cipher h key nonce ciphertext
  if signed (data.getD 0 0) ≠ 2 then .error (.decryptException (js "unknown encryption version " ++ intToString (signed (data.getD 0 0))))
  else if macOf h key nonce ciphertext ≠ data.drop (data.length - 32) then .error (.decryptException (js "invalid MAC"))
  else if saidLen text < 1 ∨ maxPlaintextBytes < saidLen text ∨ (text.length : Int) ≠ 2 + paddedLen (saidLen text) then
    .error (.decryptException (js "invalid padding"))
  else .ok (toText d ((text.take (2 + saidLen text)).drop 2))

theorem decrypt_eq {payload : JsString} {data : List UInt8} (hk : key.length = 32) (hmin : minCiphertextB64 ≤ payload.length)
    (hmax : payload.length ≤ maxCiphertextB64) (hhash : payload.head? ≠ some 35) (hdata : fromBase64 payload = some data)
    (hlen : 99 ≤ data.length ∧ data.length ≤ 65603) : decrypt h d payload key = opened h d key data := by
  have hempty : payload.isEmpty = false := by
    cases payload with
    | nil => exact absurd hmin (by decide)
    | cons c s => rfl
  have hlong : ¬maxCiphertextB64 < payload.length := by omega
  have hshort : ¬payload.length < minCiphertextB64 := by omega
  have hrange : ¬data.length < 99 ∧ ¬65603 < data.length := by omega
  have hversion := byteAt_eq data (show 0 < data.length by omega)
  have hnonce := copyOfRange_eq data (show 1 ≤ 33 by decide) (by omega)
  have hcipher := copyOfRange_eq data (show 33 ≤ data.length - 32 by omega) (by omega)
  have hmac := copyOfRange_eq data (show data.length - 32 ≤ data.length by omega) le_rfl
  have hkeys : ∀ nonce : List UInt8, (h.hkdfExpand key nonce).toList.length = 76 := fun nonce => length_keys h key nonce
  have hchacha := fun nonce => copyOfRange_eq (h.hkdfExpand key nonce).toList (Nat.zero_le 32) (by rw [hkeys]; decide)
  have hchachaNonce := fun nonce => copyOfRange_eq (h.hkdfExpand key nonce).toList (show 32 ≤ 44 by decide) (by rw [hkeys]; decide)
  have hhmac := fun nonce => copyOfRange_eq (h.hkdfExpand key nonce).toList (show 44 ≤ 76 by decide) (by rw [hkeys])
  have hall : ∀ nonce : List UInt8, (h.hkdfExpand key nonce).toList.take 76 = (h.hkdfExpand key nonce).toList :=
    fun nonce => List.take_of_length_le (by rw [hkeys])
  have hself : data.take data.length = data := List.take_length
  have hxor : ∀ nonce input : List UInt8, ChaCha20.xor ((h.hkdfExpand key nonce).toList.take 32) (((h.hkdfExpand key nonce).toList.take 44).drop 32) input 0 =
      .ok (cipher h key nonce input) := by
    intro nonce input
    refine xor_eq ?_ ?_
    · rw [List.length_take, hkeys]
      rfl
    · rw [List.length_drop, List.length_take, hkeys]
      rfl
  unfold decrypt
  simp only [require, throwIf, hk, hlong, hempty, hhash, hshort, hdata, hrange, hversion, hnonce, hcipher, hmac, hchacha, hchachaNonce, hhmac,
    hall, hself, hxor, List.drop_zero, decide_true, decide_false, if_true, Bool.or_false, Bool.false_eq_true, if_false, Bind.bind,
    Except.bind]
  unfold opened
  dsimp only
  by_cases hv : signed (data.getD 0 0) ≠ 2
  · rw [if_pos (decide_eq_true hv), if_pos hv]
  · rw [if_neg (mt of_decide_eq_true hv), if_neg hv]
    dsimp only
    have hlist : (h.hmacSha256 ((h.hkdfExpand key ((data.take 33).drop 1)).toList.drop 44)
        ((data.take 33).drop 1 ++ (data.take (data.length - 32)).drop 33)).toList =
        macOf h key ((data.take 33).drop 1) ((data.take (data.length - 32)).drop 33) := rfl
    rw [hlist]
    by_cases hm : macOf h key ((data.take 33).drop 1) ((data.take (data.length - 32)).drop 33) ≠ data.drop (data.length - 32)
    · rw [if_pos (decide_eq_true hm), if_pos hm]
    · rw [if_neg (mt of_decide_eq_true hm), if_neg hm]
      dsimp only
      have htext : (cipher h key ((data.take 33).drop 1) ((data.take (data.length - 32)).drop 33)).length = data.length - 65 := by
        rw [length_cipher, List.length_drop, List.length_take]
        omega
      generalize cipher h key ((data.take 33).drop 1) ((data.take (data.length - 32)).drop 33) = text at htext ⊢
      rw [byteAt_eq text (show 0 < text.length by omega), byteAt_eq text (show 1 < text.length by omega)]
      simp only
      have hsaid : ((text.getD 0 0).toNat <<< 8) ||| (text.getD 1 0).toNat = saidLen text := rfl
      rw [hsaid]
      by_cases hp : saidLen text < 1 ∨ maxPlaintextBytes < saidLen text ∨ (text.length : Int) ≠ 2 + paddedLen (saidLen text)
      · rw [if_pos hp, if_pos]
        simpa only [Bool.or_eq_true, decide_eq_true_eq, or_assoc] using hp
      · rw [if_neg hp, if_neg]
        · simp only [not_or, not_lt, ne_eq, not_not] at hp
          have hle := le_paddedLen (n := saidLen text) (hp.2.1.trans (by decide))
          simp only
          rw [copyOfRange_eq _ (by omega) (by omega)]
          rfl
        · simpa only [Bool.or_eq_true, decide_eq_true_eq, or_assoc] using hp

/-! ## There and back -/

theorem saidLen_padText {pt : List UInt8} (hlen : pt.length ≤ 65535) : saidLen (padText pt) = pt.length := by
  have hhigh : (UInt8.ofNat (pt.length >>> 8)).toNat = pt.length / 256 := by
    rw [Nat.shiftRight_eq_div_pow]
    exact Nat.mod_eq_of_lt (by omega)
  have hlow : (UInt8.ofNat pt.length).toNat = pt.length % 256 := rfl
  have hlt : pt.length % 256 < 2 ^ 8 := Nat.mod_lt _ (by decide)
  unfold saidLen padText
  rw [List.cons_append, List.cons_append, List.getD_cons_zero, List.getD_cons_succ, List.getD_cons_zero, hhigh, hlow,
    ← Nat.shiftLeft_add_eq_or_of_lt hlt, Nat.shiftLeft_eq]
  omega

theorem length_padText {pt : List UInt8} (hlen : pt.length ≤ 65535) : ((padText pt).length : Int) = 2 + paddedLen pt.length := by
  have hle := le_paddedLen (n := pt.length) (hlen.trans (by decide))
  unfold padText
  rw [List.length_append, List.length_cons, List.length_cons, List.length_replicate]
  omega

theorem text_padText (pt : List UInt8) : ((padText pt).take (2 + pt.length)).drop 2 = pt := by
  unfold padText
  rw [List.take_left' (by rw [List.length_cons, List.length_cons]; omega)]
  rfl

theorem length_envelope (h : Hashes) (key : List UInt8) {pt : List UInt8} (hn : nonce.length = 32) (hlen : pt.length ≤ 65535) :
    ((envelope h key nonce pt).length : Int) = 1 + 32 + (2 + paddedLen pt.length) + 32 := by
  have hmac : (macOf h key nonce (cipher h key nonce (padText pt))).length = 32 := List.Vector.toList_length _
  have hpad := length_padText hlen
  unfold envelope
  rw [List.length_append, List.length_append, List.length_append, List.length_singleton, hn, hmac, length_cipher]
  omega

/-- The envelope opens to its text. -/
theorem opened_envelope {pt : List UInt8} (hn : nonce.length = 32) (hmin : 1 ≤ pt.length) (hlen : pt.length ≤ 65535) :
    opened h d key (envelope h key nonce pt) = .ok (toText d pt) := by
  have hmac : (macOf h key nonce (cipher h key nonce (padText pt))).length = 32 := List.Vector.toList_length _
  have hall : (envelope h key nonce pt).length - 32 = ([2] ++ nonce ++ cipher h key nonce (padText pt)).length := by
    unfold envelope
    rw [List.length_append, hmac, Nat.add_sub_cancel]
  have hfront : ([2] ++ nonce : List UInt8).length = 33 := by
    rw [List.length_append, hn, List.length_singleton]
  have htail : (envelope h key nonce pt).drop ((envelope h key nonce pt).length - 32) = macOf h key nonce (cipher h key nonce (padText pt)) := by
    rw [hall, envelope, List.drop_left]
  have hcipher : ((envelope h key nonce pt).take ((envelope h key nonce pt).length - 32)).drop 33 = cipher h key nonce (padText pt) := by
    rw [hall, envelope, List.take_left, List.drop_left' hfront]
  have hnonce : ((envelope h key nonce pt).take 33).drop 1 = nonce := by
    rw [envelope, List.append_assoc, List.take_left' hfront]
    rfl
  have hversion : signed ((envelope h key nonce pt).getD 0 0) = 2 := by
    rw [envelope, List.append_assoc, List.append_assoc, List.singleton_append, List.getD_cons_zero]
    decide
  have hpad := length_padText hlen
  unfold opened
  simp only [hnonce, hcipher, htail, cipher_cipher, hversion, saidLen_padText hlen, text_padText, hpad, ne_eq, not_true_eq_false, if_false, or_false]
  rw [if_neg]
  unfold maxPlaintextBytes
  omega

/-- What a payload may be read as: text of a length to which its padding belongs. -/
def Admits (d : Jvm) (payload : JsString) (text : String) : Prop :=
  ∃ data bytes, fromBase64 payload = some data ∧ text = toText d bytes ∧ (1 ≤ bytes.length ∧ bytes.length ≤ maxPlaintextBytes) ∧
    (data.length : Int) = 1 + 32 + (2 + paddedLen bytes.length) + 32

theorem opened_cases (h : Hashes) (d : Jvm) (key : List UInt8) {data : List UInt8} (hlen : 99 ≤ data.length) :
    (∃ message, opened h d key data = .error (.decryptException message)) ∨
      ∃ bytes, opened h d key data = .ok (toText d bytes) ∧ (1 ≤ bytes.length ∧ bytes.length ≤ maxPlaintextBytes) ∧
        (data.length : Int) = 1 + 32 + (2 + paddedLen bytes.length) + 32 := by
  unfold opened
  dsimp only
  by_cases hv : signed (data.getD 0 0) ≠ 2
  · rw [if_pos hv]
    exact .inl ⟨_, rfl⟩
  rw [if_neg hv]
  by_cases hm : macOf h key ((data.take 33).drop 1) ((data.take (data.length - 32)).drop 33) ≠ data.drop (data.length - 32)
  · rw [if_pos hm]
    exact .inl ⟨_, rfl⟩
  rw [if_neg hm]
  have htext : (cipher h key ((data.take 33).drop 1) ((data.take (data.length - 32)).drop 33)).length = data.length - 65 := by
    rw [length_cipher, List.length_drop, List.length_take]
    omega
  generalize cipher h key ((data.take 33).drop 1) ((data.take (data.length - 32)).drop 33) = text at htext ⊢
  by_cases hp : saidLen text < 1 ∨ maxPlaintextBytes < saidLen text ∨ (text.length : Int) ≠ 2 + paddedLen (saidLen text)
  · rw [if_pos hp]
    exact .inl ⟨_, rfl⟩
  · rw [if_neg hp]
    simp only [not_or, not_lt, ne_eq, not_not] at hp
    have hle := le_paddedLen (n := saidLen text) (hp.2.1.trans (by decide))
    have hbytes : ((text.take (2 + saidLen text)).drop 2).length = saidLen text := by
      rw [List.length_drop, List.length_take]
      omega
    refine .inr ⟨_, rfl, ?_, ?_⟩
    · rw [hbytes]
      exact ⟨hp.1, hp.2.1⟩
    · rw [hbytes]
      omega

theorem require_bind {α : Type} {condition : Bool} {message : JsString} {f : Unit → Except Thrown α} :
    (require condition message >>= f) = .error (.illegalArgument message) ∨ condition = true ∧ (require condition message >>= f) = f () := by
  cases condition with
  | false => exact .inl rfl
  | true => exact .inr ⟨rfl, rfl⟩

theorem throwIf_bind {α : Type} {condition : Bool} {message : JsString} {f : Unit → Except Thrown α} :
    (throwIf condition message >>= f) = .error (.decryptException message) ∨ condition = false ∧ (throwIf condition message >>= f) = f () := by
  cases condition with
  | true => exact .inl rfl
  | false => exact .inr ⟨rfl, rfl⟩

/-- A payload that is not thrown out for its shape is opened. -/
theorem decrypt_shape (h : Hashes) (d : Jvm) (payload : JsString) (key : List UInt8) :
    (∃ e, decrypt h d payload key = .error e ∧ e ≠ .outOfBounds) ∨
      ∃ data, fromBase64 payload = some data ∧ 99 ≤ data.length ∧ decrypt h d payload key = opened h d key data := by
  have hshape : (∃ e, decrypt h d payload key = .error e ∧ e ≠ .outOfBounds) ∨
      (key.length = 32 ∧ payload.length ≤ maxCiphertextB64 ∧ payload.head? ≠ some 35 ∧ minCiphertextB64 ≤ payload.length) ∧
        ∃ data, fromBase64 payload = some data ∧ 99 ≤ data.length ∧ data.length ≤ 65603 := by
    unfold decrypt
    rcases require_bind with he | ⟨hk, he⟩
    · exact .inl ⟨_, he, by simp⟩
    rw [he]
    rcases throwIf_bind with he | ⟨hmax, he⟩
    · exact .inl ⟨_, he, by simp⟩
    rw [he]
    rcases throwIf_bind with he | ⟨hhash, he⟩
    · exact .inl ⟨_, he, by simp⟩
    rw [he]
    rcases throwIf_bind with he | ⟨hmin, he⟩
    · exact .inl ⟨_, he, by simp⟩
    rw [he]
    cases hdata : fromBase64 payload with
    | none => exact .inl ⟨_, rfl, by simp⟩
    | some data =>
      dsimp only
      rcases throwIf_bind with he | ⟨hlen, -⟩
      · exact .inl ⟨_, he, by simp⟩
      simp only [Bool.or_eq_false_iff, decide_eq_false_iff_not, not_lt, decide_eq_true_eq] at hk hmax hhash hmin hlen
      exact .inr ⟨⟨hk, hmax, hhash.2, hmin⟩, data, rfl, hlen⟩
  rcases hshape with herror | ⟨⟨hk, hmax, hhash, hmin⟩, data, hdata, hlen⟩
  · exact .inl herror
  · exact .inr ⟨data, hdata, hlen.1, decrypt_eq hk hmin hmax hhash hdata hlen⟩

theorem decrypt_cases (payload : JsString) (key : List UInt8) :
    decrypt h d payload key ≠ .error .outOfBounds ∧ ∀ text, decrypt h d payload key = .ok text → Admits d payload text := by
  rcases decrypt_shape h d payload key with ⟨e, he, hne⟩ | ⟨data, hdata, hlen, heq⟩
  · rw [he]
    exact ⟨fun h => hne (Except.error.inj h), fun text h => nomatch h⟩
  · rw [heq]
    rcases opened_cases h d key hlen with ⟨message, hm⟩ | ⟨bytes, hok, hbytes, hsize⟩
    · rw [hm]
      exact ⟨nofun, fun text h => nomatch h⟩
    · rw [hok]
      exact ⟨nofun, fun text h => ⟨data, bytes, hdata, (Except.ok.inj h).symm, hbytes, hsize⟩⟩

end

/-- **The envelope of a text of 1 to 65,535 bytes is made, keeps to the ceilings and is read back**, a
length is padded to itself or more, in order, and once, and no payload is read outside of it, or to a
text of a length that its padding does not admit. -/
theorem envelope_round_trip (h : Hashes) (d : Jvm) {key nonce : List UInt8} {text : String} (hk : key.length = 32) (hn : nonce.length = 32)
    (hmin : 1 ≤ (utf8 text).length) (hmax : (utf8 text).length ≤ maxPlaintextBytes) :
    (∃ payload, encrypt h text key nonce = .ok payload ∧ isCiphertext (some payload) = true ∧ payload.length ≤ maxCiphertextB64 ∧
      decrypt h d payload key = .ok text) ∧
    (∃ p, calcPaddedLen (utf8 text).length = .ok p ∧ ((utf8 text).length : Int) ≤ p ∧ calcPaddedLen p = .ok p ∧
      ∀ (m : Nat) (q : Int), (utf8 text).length ≤ m → m ≤ maxPlaintextBytes → calcPaddedLen m = .ok q → p ≤ q) ∧
    ∀ payload key', decrypt h d payload key' ≠ .error .outOfBounds ∧ ∀ t, decrypt h d payload key' = .ok t → Admits d payload t := by
  have hceil : maxCiphertextB64 = 87472 := by decide
  have hfloor : minCiphertextB64 = 132 := rfl
  have hmax' : (utf8 text).length ≤ 65535 := hmax
  have hbounds := paddedLen_bounds hmax'
  have hpadded : ∀ n : Nat, 1 ≤ n → calcPaddedLen n = .ok (paddedLen n) := fun n hn => if_pos (by omega)
  refine ⟨⟨bytesToBase64 (envelope h key nonce (utf8 text)), ?_, ?_, ?_, ?_⟩, ⟨paddedLen (utf8 text).length, ?_, ?_, ?_, ?_⟩, decrypt_cases⟩
  all_goals have hsize := length_envelope h key hn hmax'
  all_goals have hb64 := length_bytesToBase64 (envelope h key nonce (utf8 text))
  · exact encrypt_eq hk hn (List.ne_nil_of_length_pos hmin) hmax'
  · rw [isCiphertext, Option.any_some, Bool.and_eq_true, Bool.and_eq_true, Bool.and_eq_true, decide_eq_true_eq, decide_eq_true_eq, decide_eq_true_eq]
    refine ⟨⟨⟨by omega, by omega⟩, by omega⟩, isB64_bytesToBase64 (List.ne_nil_of_length_pos (by omega))⟩
  · omega
  · have hhead : (bytesToBase64 (envelope h key nonce (utf8 text))).head? ≠ some 35 := head_bytesToBase64 2 _
    have hopen := decrypt_eq (h := h) (d := d) hk (by omega) (by omega) hhead (fromBase64_bytesToBase64 _) (by omega)
    rw [hopen, opened_envelope hn hmin hmax', Nip19.toText_utf8]
  · exact hpadded _ hmin
  · exact le_paddedLen (by omega)
  · have hself := hpadded (paddedLen (utf8 text).length).toNat (by omega)
    rw [paddedLen_paddedLen hmax', Int.toNat_of_nonneg (by omega)] at hself
    exact hself
  · intro m q hle hm hq
    have hm' : m ≤ 65535 := hm
    rw [hpadded m (by omega)] at hq
    rw [← Except.ok.inj hq]
    exact paddedLen_mono hle (by omega)

theorem envelope_round_trip_hi : ∃ (h : Hashes) (payload : JsString), encrypt h "hi" (List.replicate 32 0) (List.replicate 32 7) = .ok payload ∧
    isCiphertext (some payload) = true ∧ decrypt h Nip19.plain payload (List.replicate 32 0) = .ok "hi" := by
  let h : Hashes := ⟨fun _ _ => List.Vector.replicate 32 1, fun _ _ => List.Vector.replicate 76 2⟩
  obtain ⟨⟨payload, hmade, his, -, hread⟩, -⟩ := envelope_round_trip h Nip19.plain
    (show (List.replicate 32 (0 : UInt8)).length = 32 from rfl) (show (List.replicate 32 (7 : UInt8)).length = 32 from rfl)
    (show 1 ≤ (utf8 "hi").length by decide) (show (utf8 "hi").length ≤ maxPlaintextBytes by decide)
  exact ⟨h, payload, hmade, his, hread⟩

end Nostrautica.Nip44
