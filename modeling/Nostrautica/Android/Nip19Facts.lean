/-
Links are read back where each text fits its length byte: `nip19_round_trip`.
-/
import Nostrautica.Android.Nip19
import Nostrautica.Android.Bech32Facts
import Nostrautica.Js.Utf8Facts

namespace Nostrautica.Nip19

open Js Bech32

variable {d : Jvm} {a : Addr} {p : Profile} {text : String} {v rest tail : List UInt8} {t : List (Nat × List UInt8)}

/-! ## Texts -/

theorem toText_utf8 : toText d (utf8 text) = text := by
  unfold toText utf8
  rw [Array.toArray_toList]
  have h : String.fromUTF8? text.toByteArray = some text := by
    unfold String.fromUTF8?
    rw [dif_pos text.isValidUTF8]
    rfl
  show (String.fromUTF8? text.toByteArray).getD _ = _
  rw [h]
  rfl

/-- A text that is cut off within a character is read as its whole characters, with at
most one replacement character for each byte that is left. -/
def Jvm.Replaces (d : Jvm) : Prop :=
  ∀ (chars : List Char) (c : Char) (part : List UInt8), part <+: String.utf8EncodeChar c → part.length < (String.utf8EncodeChar c).length →
    ∃ j ≤ part.length, toText d (utf8 (String.ofList chars) ++ part) = String.ofList (chars ++ List.replicate j '\uFFFD')

theorem utf8_ofList (chars : List Char) : utf8 (String.ofList chars) = chars.flatMap String.utf8EncodeChar := by
  unfold utf8
  rw [String.toByteArray_ofList]
  induction chars with
  | nil => simp
  | cons c chars ih =>
    rw [List.utf8Encode_cons, List.utf8Encode_singleton, List.flatMap_cons, ← ih]
    simp

/-- The first bytes of a text are whole characters and a part of the next. -/
theorem take_flatMap (chars : List Char) (m : Nat) (hm : m < (chars.flatMap String.utf8EncodeChar).length) :
    ∃ front c back part, chars = front ++ c :: back ∧ part <+: String.utf8EncodeChar c ∧ part.length < (String.utf8EncodeChar c).length ∧
      (chars.flatMap String.utf8EncodeChar).take m = front.flatMap String.utf8EncodeChar ++ part := by
  induction chars generalizing m with
  | nil => exact absurd hm (Nat.not_lt_zero m)
  | cons c chars ih =>
    rw [List.flatMap_cons] at hm ⊢
    by_cases hc : m < (String.utf8EncodeChar c).length
    · refine ⟨[], c, chars, (String.utf8EncodeChar c).take m, rfl, List.take_prefix _ _, ?_, ?_⟩
      · rw [List.length_take]
        omega
      · rw [List.take_append_of_le_length hc.le]
        rfl
    · rw [List.length_append] at hm
      obtain ⟨front, c', back, part, rfl, hpart, hlen, htake⟩ := ih (m - (String.utf8EncodeChar c).length) (by omega)
      refine ⟨c :: front, c', back, part, rfl, hpart, hlen, ?_⟩
      rw [List.take_append, List.take_of_length_le (by omega), htake, List.flatMap_cons, List.append_assoc]

theorem length_flatMap_replicate (j : Nat) : ((List.replicate j '\uFFFD').flatMap String.utf8EncodeChar).length = 3 * j := by
  induction j with
  | zero => rfl
  | succ j ih =>
    have hone : (String.utf8EncodeChar '\uFFFD').length = 3 := by decide
    rw [List.replicate_succ, List.flatMap_cons, List.length_append, ih, hone]
    omega

/-- A text that is longer than its length byte says is not read back. -/
theorem length_le_of_toText (hd : d.Replaces) (h : toText d ((utf8 text).take ((utf8 text).length % 256)) = text) : (utf8 text).length ≤ 255 := by
  by_contra hlong
  obtain ⟨chars, rfl⟩ : ∃ chars, text = String.ofList chars := ⟨text.toList, String.ofList_toList.symm⟩
  rw [utf8_ofList] at h hlong
  obtain ⟨front, c, back, part, rfl, hpart, hlen, htake⟩ := take_flatMap chars _ (show (chars.flatMap String.utf8EncodeChar).length % 256 < _ by omega)
  have hcount := congrArg List.length htake
  rw [htake, ← utf8_ofList] at h
  obtain ⟨j, hj, htext⟩ := hd front c part hpart hlen
  rw [htext, String.ofList_inj, List.append_cancel_left_eq] at h
  have hlong' := hlong
  rw [← h, List.flatMap_append, List.length_append, length_flatMap_replicate] at hlong hcount
  have hsize : (String.utf8EncodeChar c).length ≤ 4 := by
    rw [String.length_utf8EncodeChar]
    exact c.utf8Size_le_four
  rw [List.length_take, List.length_append, List.length_append, length_flatMap_replicate] at hcount
  omega

/-! ## Records -/

theorem tlvs_tlv {n : Nat} (hn : n < 256) :
    tlvs (tlv n v ++ rest) = (tlvs ((v ++ rest).drop (v.length % 256))).map fun more => (n, v.take (v.length % 256)) :: more := by
  have hl : (UInt8.ofNat v.length).toNat = v.length % 256 := UInt8.toNat_ofNat'
  have hnn : (UInt8.ofNat n).toNat = n := by
    rw [UInt8.toNat_ofNat']
    exact Nat.mod_eq_of_lt hn
  have hle : v.length % 256 ≤ v.length := Nat.mod_le _ _
  unfold tlv
  rw [List.cons_append, List.cons_append, tlvs, hl, hnn, if_neg (by rw [List.length_append]; omega), List.take_append_of_le_length hle]
  cases tlvs ((v ++ rest).drop (v.length % 256)) <;> rfl

theorem tlvs_tlv_of_le {n : Nat} (hn : n < 256) (hv : v.length ≤ 255) : tlvs (tlv n v ++ rest) = (tlvs rest).map ((n, v) :: ·) := by
  rw [tlvs_tlv hn, Nat.mod_eq_of_lt (by omega), List.take_length, List.drop_left]

theorem records_cons {n m : Nat} {v : List UInt8} {t : List (Nat × List UInt8)} :
    records ((n, v) :: t) m = if n = m then v :: records t m else records t m := by
  unfold records
  rw [List.filter_cons]
  by_cases h : n = m <;> simp [h]

/-- Relays that are read back, in front of other records. -/
theorem tlvs_relays {relays : List String} (hfit : ∀ r ∈ relays, (utf8 r).length ≤ 255) :
    tlvs (relays.flatMap (fun r => tlv 1 (utf8 r)) ++ tail) = (tlvs tail).map (relays.map (fun r => (1, utf8 r)) ++ ·) := by
  induction relays with
  | nil => simp
  | cons r relays ih =>
    rw [List.flatMap_cons, List.append_assoc, tlvs_tlv_of_le (by decide) (hfit r List.mem_cons_self),
      ih fun x hx => hfit x (List.mem_cons_of_mem r hx), Option.map_map]
    rfl

theorem fit_of_prefix (hd : d.Replaces) {relays : List String} (h : tlvs (relays.flatMap (fun r => tlv 1 (utf8 r)) ++ tail) = some t)
    (hpre : relays <+: (records t 1).map (toText d)) : ∀ r ∈ relays, (utf8 r).length ≤ 255 := by
  induction relays generalizing t with
  | nil => exact fun r hr => absurd hr List.not_mem_nil
  | cons r relays ih =>
    rw [List.flatMap_cons, List.append_assoc, tlvs_tlv (by decide)] at h
    obtain ⟨more, hmore, rfl⟩ := Option.map_eq_some_iff.1 h
    rw [records_cons, if_pos rfl, List.map_cons, List.cons_prefix_cons] at hpre
    have hr := length_le_of_toText hd hpre.1.symm
    rw [Nat.mod_eq_of_lt (by omega), List.drop_left] at hmore
    intro x hx
    rcases List.mem_cons.1 hx with rfl | hx
    · exact hr
    · exact ih hmore hpre.2 x hx

theorem tlvs_last {n : Nat} (hn : n < 256) (hv : v.length ≤ 255) : tlvs (tlv n v) = some [(n, v)] := by
  have h : tlvs (tlv n v ++ []) = (tlvs []).map ((n, v) :: ·) := tlvs_tlv_of_le hn hv
  have hnil : tlvs [] = some [] := by
    unfold tlvs
    rfl
  rwa [List.append_nil, hnil] at h

theorem records_append {t t' : List (Nat × List UInt8)} {m : Nat} : records (t ++ t') m = records t m ++ records t' m := by
  unfold records
  rw [List.filter_append, List.map_append]

theorem records_relays {relays : List String} {m : Nat} :
    records (relays.map fun r => (1, utf8 r)) m = if m = 1 then relays.map utf8 else [] := by
  unfold records
  by_cases hm : m = 1
  · subst hm
    rw [if_pos rfl, List.filter_eq_self.2 (by simp), List.map_map]
    rfl
  · have hm' : ¬ 1 = m := fun h => hm h.symm
    rw [if_neg hm, List.filter_eq_nil_iff.2 (by simp [hm'])]
    rfl

theorem map_toText {relays : List String} : (relays.map utf8).map (toText d) = relays := by
  rw [List.map_map]
  refine (List.map_congr_left fun r _ => ?_).trans (List.map_id relays)
  exact toText_utf8

/-! ## Hex and kinds -/

theorem digit_spec {c : CodeUnit} (hc : isLowerHexDigit c) : ∃ n < 16, digit d c = some n ∧ hexUnit n = c := by
  unfold isLowerHexDigit at hc
  simp only [Bool.or_eq_true, Bool.and_eq_true, decide_eq_true_eq] at hc
  have hunit : ∀ n < 16, (hexUnit n).val = if n < 10 then 48 + n else 87 + n := by decide
  unfold digit
  rcases hc with hc | hc
  · refine ⟨c.val - 48, by omega, if_pos hc, Fin.ext ?_⟩
    rw [hunit _ (by omega), if_pos (by omega)]
    omega
  · refine ⟨c.val - 87, by omega, by rw [if_neg (by omega), if_pos hc], Fin.ext ?_⟩
    rw [hunit _ (by omega), if_neg (by omega)]
    omega

theorem fromHex_spec (n : Nat) (s : JsString) (hlen : s.length = 2 * n) (hs : s.all isLowerHexDigit) :
    ∃ bytes, fromHex d s = some bytes ∧ bytes.length = n ∧ toHex bytes = s := by
  induction n generalizing s with
  | zero => exact ⟨[], by rw [List.length_eq_zero_iff.1 hlen]; rfl, rfl, (List.length_eq_zero_iff.1 hlen).symm⟩
  | succ n ih =>
    match s, hlen with
    | a :: b :: s, hlen =>
      simp only [List.all_cons, Bool.and_eq_true] at hs
      obtain ⟨hi, hhi, hdhi, hca⟩ := digit_spec (d := d) hs.1
      obtain ⟨lo, hlo, hdlo, hcb⟩ := digit_spec (d := d) hs.2.1
      obtain ⟨bytes, hbytes, hcount, hhex⟩ := ih s (by simp only [List.length_cons] at hlen; omega) hs.2.2
      have hbyte : ∀ hi < 16, ∀ lo < 16, (UInt8.ofNat ((hi <<< 4) ||| lo)).toNat / 16 = hi ∧ (UInt8.ofNat ((hi <<< 4) ||| lo)).toNat % 16 = lo := by
        decide +kernel
      obtain ⟨hdiv, hmod⟩ := hbyte hi hhi lo hlo
      refine ⟨UInt8.ofNat ((hi <<< 4) ||| lo) :: bytes, ?_, by rw [List.length_cons, hcount], ?_⟩
      · rw [fromHex, hdhi, hdlo, hbytes]
        rfl
      · unfold toHex bytesToHex at hhex ⊢
        rw [List.flatMap_cons, hdiv, hmod, hca, hcb, hhex]
        rfl

theorem kindOf_kindBytes {k : Nat} (hk : k < 65536) : kindOf (kindBytes k) = k := by
  have hsmall : k >>> 16 = 0 := by
    rw [Nat.shiftRight_eq_div_pow]
    exact Nat.div_eq_of_lt hk
  have hsmall' : k >>> 24 = 0 := by
    rw [Nat.shiftRight_eq_div_pow]
    exact Nat.div_eq_of_lt (hk.trans (by decide))
  have h8 : (UInt8.ofNat (k >>> 8)).toNat = k / 256 := by
    rw [UInt8.toNat_ofNat', Nat.shiftRight_eq_div_pow]
    exact Nat.mod_eq_of_lt (by omega)
  have h0 : (UInt8.ofNat k).toNat = k % 256 := UInt8.toNat_ofNat'
  have hor : (k / 256) <<< 8 ||| k % 256 = k := by
    rw [← Nat.shiftLeft_add_eq_or_of_lt (Nat.mod_lt k (by decide)), Nat.shiftLeft_eq]
    omega
  simp only [kindOf, kindBytes, List.getD_cons_zero, List.getD_cons_succ, hsmall, hsmall', h8, h0]
  simpa using hor

/-! ## Links -/

theorem removeNostr_eq {hrp s : JsString} (h : (js "nostr:").isPrefixOf (hrp ++ s) = false) : removeNostr (hrp ++ s) = hrp ++ s := by
  unfold removeNostr
  rw [h]
  rfl

/-- Each text fits its length byte. -/
structure Addr.Fits (a : Addr) : Prop where
  identifier : (utf8 a.identifier).length ≤ 255
  relays : ∀ r ∈ a.relays, (utf8 r).length ≤ 255

/-- The link of the bytes is decoded to them. -/
theorem decode_of_encode {hrp e : JsString} {data : List UInt8} (hd : d.toCases.Lawful) (hhrp : hrp.all isLowerAscii) (hne : hrp ≠ [])
    (h : encode hrp data = some e) : decode d.toCases e = some (hrp, data) := by
  refine (decode_encode_iff hd (hd.ascii hrp hhrp) h).2 ?_
  cases hrp with
  | nil => exact absurd rfl hne
  | cons c hrp =>
    rw [List.all_cons, Bool.and_eq_true] at hhrp
    refine ⟨c, rfl, ?_⟩
    have hc := hhrp.1
    unfold isLowerAscii at hc
    unfold isWhitespace
    simp only [Bool.or_eq_true, Bool.and_eq_true, decide_eq_true_eq] at hc
    simp only [Bool.or_eq_false_iff, Bool.and_eq_false_iff, decide_eq_false_iff_not]
    omega

/-- What the records of a link to a space say. -/
def addrOf (d : Jvm) (t : List (Nat × List UInt8)) : Option Addr := do
  let pk ← recordOfSize t 2 32
  let k ← recordOfSize t 3 4
  return {
    kind := kindOf k
    pubkey := toHex pk
    identifier := ((records t 0).head?.map (toText d)).getD ""
    relays := (records t 1).map (toText d) }

theorem decodeNaddr_eq {data : List UInt8} {s : JsString} (h : decode d.toCases (removeNostr s) = some (js "naddr", data)) :
    decodeNaddr d s = (tlvs data).bind (addrOf d) := by
  unfold decodeNaddr
  rw [h]
  rfl

theorem addrOf_cons {pk : List UInt8} (hlen : pk.length = 32) (hhex : toHex pk = a.pubkey) (hk : a.kind < 65536) :
    addrOf d ((3, kindBytes a.kind) :: (2, pk) :: t) =
      some { a with identifier := ((records t 0).head?.map (toText d)).getD "", relays := (records t 1).map (toText d) } := by
  have hpk : recordOfSize ((3, kindBytes a.kind) :: (2, pk) :: t) 2 32 = some pk := by
    unfold recordOfSize
    rw [records_cons, if_neg (by decide), records_cons, if_pos rfl]
    simp [hlen]
  have hkind : recordOfSize ((3, kindBytes a.kind) :: (2, pk) :: t) 3 4 = some (kindBytes a.kind) := by
    unfold recordOfSize
    rw [records_cons, if_pos rfl]
    rfl
  have hrec : ∀ m < 2, records ((3, kindBytes a.kind) :: (2, pk) :: t) m = records t m := fun m hm => by
    rw [records_cons, if_neg (by omega), records_cons, if_neg (by omega)]
  unfold addrOf
  rw [hpk, hkind, hrec 0 (by decide), hrec 1 (by decide)]
  simp only [Option.bind_eq_bind, Option.bind_some, kindOf_kindBytes hk, hhex]
  rfl

/-- The texts of the records are those of the link. -/
theorem texts_eq_iff (hr : d.Replaces) :
    (∃ t, tlvs (a.relays.flatMap (fun r => tlv 1 (utf8 r)) ++ tlv 0 (utf8 a.identifier)) = some t ∧
      ((records t 0).head?.map (toText d)).getD "" = a.identifier ∧ (records t 1).map (toText d) = a.relays) ↔ a.Fits := by
  constructor
  · rintro ⟨t, ht, hid, hrelays⟩
    have hfit := fit_of_prefix hr ht (hrelays ▸ List.prefix_rfl)
    refine ⟨?_, hfit⟩
    rw [tlvs_relays hfit] at ht
    obtain ⟨more, hmore, rfl⟩ := Option.map_eq_some_iff.1 ht
    have hlast : tlvs (tlv 0 (utf8 a.identifier) ++ []) = _ := tlvs_tlv (by decide)
    rw [List.append_nil, hmore] at hlast
    obtain ⟨more', -, rfl⟩ := Option.map_eq_some_iff.1 hlast.symm
    rw [records_append, records_relays, if_neg (by decide), List.nil_append, records_cons, if_pos rfl] at hid
    exact length_le_of_toText hr hid
  · intro hfit
    refine ⟨_, by rw [tlvs_relays hfit.relays, tlvs_last (by decide) hfit.identifier]; rfl, ?_, ?_⟩
    · rw [records_append, records_relays, if_neg (by decide), List.nil_append, records_cons, if_pos rfl]
      exact toText_utf8
    · rw [records_append, records_relays, if_pos rfl, records_cons, if_neg (by decide), List.map_append, map_toText]
      exact List.append_nil _

theorem hex_parts {s : JsString} (hhex : isLowerHex 64 s) : ∃ bytes, fromHex d s = some bytes ∧ bytes.length = 32 ∧ toHex bytes = s := by
  unfold isLowerHex at hhex
  simp only [Bool.and_eq_true, beq_iff_eq] at hhex
  exact fromHex_spec 32 s hhex.1 hhex.2

theorem decodeNaddr_naddr_iff (hd : d.toCases.Lawful) (hr : d.Replaces) (hhex : isLowerHex 64 a.pubkey) (hk : a.kind < 65536) :
    ∃ e, naddr d a = some e ∧ (decodeNaddr d e = some a ↔ a.Fits) := by
  obtain ⟨pk, hpk, hlen, hback⟩ := hex_parts (d := d) hhex
  rw [← texts_eq_iff hr]
  unfold naddr
  rw [hpk]
  simp only [Option.bind_eq_bind, Option.bind_some]
  generalize a.relays.flatMap (fun r => tlv 1 (utf8 r)) ++ tlv 0 (utf8 a.identifier) = tail
  have htlvs : tlvs (tlv 3 (kindBytes a.kind) ++ (tlv 2 pk ++ tail)) = (tlvs tail).map fun t => (3, kindBytes a.kind) :: (2, pk) :: t := by
    have h4 : (kindBytes a.kind).length = 4 := rfl
    rw [tlvs_tlv_of_le (by decide) (by omega), tlvs_tlv_of_le (by decide) (by omega), Option.map_map]
    rfl
  obtain ⟨e, he⟩ := exists_encode (js "naddr") (tlv 3 (kindBytes a.kind) ++ (tlv 2 pk ++ tail))
  have hremove : removeNostr e = e := by
    obtain ⟨T, c, rfl, -⟩ := exists_tail he
    exact removeNostr_eq rfl
  have hdec := decode_of_encode hd (by decide) (by decide) he
  refine ⟨e, he, ?_⟩
  rw [decodeNaddr_eq (hremove.symm ▸ hdec), htlvs]
  cases ht : tlvs tail with
  | none => simp
  | some t =>
    rw [Option.map_some, Option.bind_some, addrOf_cons hlen hback hk]
    constructor
    · intro h
      have heq := Option.some.inj h
      exact ⟨t, rfl, (Addr.mk.inj heq).2.2.1, (Addr.mk.inj heq).2.2.2⟩
    · rintro ⟨t', ht', hid, hrelays⟩
      cases ht'
      rw [hid, hrelays]

/-- What the records of a link to a person say. -/
def profileOf (d : Jvm) (t : List (Nat × List UInt8)) : Option Profile := do
  let pk ← recordOfSize t 0 32
  return { pubkey := toHex pk, relays := (records t 1).map (toText d) }

theorem decodeNprofile_eq {data : List UInt8} {s : JsString} (h : decode d.toCases (removeNostr s) = some (js "nprofile", data)) :
    decodeNprofile d s = (tlvs data).bind (profileOf d) := by
  unfold decodeNprofile
  rw [h]
  rfl

theorem decodeNprofile_nprofile_iff (hd : d.toCases.Lawful) (hr : d.Replaces) (hhex : isLowerHex 64 p.pubkey) :
    ∃ e, nprofile d p = some e ∧ (decodeNprofile d e = some p ↔ ∀ r ∈ p.relays, (utf8 r).length ≤ 255) := by
  obtain ⟨pk, hpk, hlen, hback⟩ := hex_parts (d := d) hhex
  unfold nprofile
  rw [hpk]
  simp only [Option.bind_eq_bind, Option.bind_some]
  obtain ⟨e, he⟩ := exists_encode (js "nprofile") (p.relays.flatMap (fun r => tlv 1 (utf8 r)) ++ tlv 0 pk)
  have hremove : removeNostr e = e := by
    obtain ⟨T, c, rfl, -⟩ := exists_tail he
    exact removeNostr_eq rfl
  have hdec := decode_of_encode hd (by decide) (by decide) he
  refine ⟨e, he, ?_⟩
  rw [decodeNprofile_eq (hremove.symm ▸ hdec)]
  constructor
  · intro h
    obtain ⟨t, ht, hp⟩ := Option.bind_eq_some_iff.1 h
    obtain ⟨pk', -, hp⟩ := Option.bind_eq_some_iff.1 hp
    have hrelays := (Profile.mk.inj (Option.some.inj hp)).2
    exact fit_of_prefix hr ht (hrelays ▸ List.prefix_rfl)
  · intro hfit
    have hpk : recordOfSize (p.relays.map (fun r => (1, utf8 r)) ++ [(0, pk)]) 0 32 = some pk := by
      unfold recordOfSize
      rw [records_append, records_relays, if_neg (by decide), List.nil_append, records_cons, if_pos rfl]
      simp [hlen]
    have hrelays : (records (p.relays.map (fun r => (1, utf8 r)) ++ [(0, pk)]) 1).map (toText d) = p.relays := by
      rw [records_append, records_relays, if_pos rfl, records_cons, if_neg (by decide), List.map_append, map_toText]
      exact List.append_nil _
    rw [tlvs_relays hfit, tlvs_last (by decide) (by omega)]
    simp only [Option.map_some, Option.bind_some, profileOf, hpk, hrelays, hback, Option.bind_eq_bind]
    rfl

/-- The codec is read back: Bech32 of a prefix in lower case where that does not begin
with a blank, any string as it is in lower case and trimmed, and a link exactly where
each of its texts fits a length byte. -/
theorem nip19_round_trip (d : Jvm) (hd : d.toCases.Lawful) (hr : d.Replaces) :
    (∀ hrp data, d.lowercase hrp = hrp → ∃ e, encode hrp data = some e ∧
      (decode d.toCases e = some (hrp, data) ↔ ∃ c ∈ hrp.head?, isWhitespace c = false)) ∧
    (∀ s hrp data, decode d.toCases s = some (hrp, data) → encode hrp data = some (d.lowercase (Bech32.trim s))) ∧
    (∀ a : Addr, isLowerHex 64 a.pubkey → a.kind < 65536 → ∃ e, naddr d a = some e ∧ (decodeNaddr d e = some a ↔ a.Fits)) ∧
    ∀ p : Profile, isLowerHex 64 p.pubkey →
      ∃ e, nprofile d p = some e ∧ (decodeNprofile d e = some p ↔ ∀ r ∈ p.relays, (utf8 r).length ≤ 255) := by
  refine ⟨fun hrp data hlower => ?_, fun s hrp data h => encode_of_decode h, fun a hhex hk => decodeNaddr_naddr_iff hd hr hhex hk,
    fun p hhex => decodeNprofile_nprofile_iff hd hr hhex⟩
  obtain ⟨e, he⟩ := exists_encode hrp data
  exact ⟨e, he, decode_encode_iff hd hlower he⟩

/-! ## An instance -/

theorem prefix_of_utf8 {l m : List Char} {rest : List UInt8} (h : utf8 (String.ofList l) ++ rest = utf8 (String.ofList m)) : l <+: m := by
  refine List.isPrefix_of_utf8Encode_append_eq_utf8Encode ⟨rest.toArray⟩ (ByteArray.ext (Array.toList_inj.1 ?_))
  simpa [utf8] using h

/-- No text ends within a character. -/
theorem not_utf8_of_part {front chars : List Char} {c : Char} {part : List UInt8} (hpart : part <+: String.utf8EncodeChar c)
    (hne : part ≠ []) (hlen : part.length < (String.utf8EncodeChar c).length) : utf8 (String.ofList front) ++ part ≠ utf8 (String.ofList chars) := by
  intro h
  obtain ⟨zs, rfl⟩ := prefix_of_utf8 h
  rw [utf8_ofList, utf8_ofList, List.flatMap_append, List.append_cancel_left_eq] at h
  cases zs with
  | nil => exact hne h
  | cons z zs =>
    obtain ⟨more, hmore⟩ := hpart
    have hz : utf8 (String.ofList [z]) ++ (zs.flatMap String.utf8EncodeChar ++ more) = utf8 (String.ofList [c]) := by
      rw [utf8_ofList, utf8_ofList, ← List.append_assoc]
      simpa [h] using hmore
    obtain ⟨ys, hys⟩ := prefix_of_utf8 hz
    obtain ⟨rfl, -⟩ := List.cons_eq_cons.1 hys
    rw [h, List.flatMap_cons, List.length_append] at hlen
    omega

/-- The longest text that a prefix of the bytes is. -/
def longest : Nat → List UInt8 → String
  | 0, _ => ""
  | n + 1, bytes => (String.fromUTF8? ⟨(bytes.take (n + 1)).toArray⟩).getD (longest n bytes)

theorem fromUTF8?_eq_some {bytes : List UInt8} (h : String.fromUTF8? ⟨bytes.toArray⟩ = some text) : utf8 text = bytes := by
  unfold String.fromUTF8? at h
  split at h
  · cases h
    simp [utf8, String.fromUTF8]
  · cases h

theorem longest_part {front : List Char} {c : Char} {part : List UInt8} (hpart : part <+: String.utf8EncodeChar c)
    (hlen : part.length < (String.utf8EncodeChar c).length) (i : Nat) (hi : i ≤ part.length) :
    longest ((utf8 (String.ofList front)).length + i) (utf8 (String.ofList front) ++ part) = String.ofList front := by
  induction i with
  | zero =>
    cases hn : (utf8 (String.ofList front)).length with
    | zero =>
      have hnil := List.length_eq_zero_iff.1 hn
      cases front with
      | nil => rfl
      | cons x front =>
        rw [utf8_ofList, List.flatMap_cons] at hnil
        exact absurd (List.append_eq_nil_iff.1 hnil).1 String.utf8EncodeChar_ne_nil
    | succ n =>
      have htake : (utf8 (String.ofList front) ++ part).take (n + 1) = utf8 (String.ofList front) := by rw [← hn, List.take_left]
      rw [Nat.add_zero, longest, htake]
      exact toText_utf8 (d := ⟨⟨id, id⟩, fun _ => longest n (utf8 (String.ofList front) ++ part), fun _ => none⟩)
  | succ i ih =>
    have htake : (utf8 (String.ofList front) ++ part).take ((utf8 (String.ofList front)).length + i + 1) =
        utf8 (String.ofList front) ++ part.take (i + 1) := by
      rw [Nat.add_assoc, List.take_length_add_append]
    have hnone : String.fromUTF8? ⟨(utf8 (String.ofList front) ++ part.take (i + 1)).toArray⟩ = none := by
      cases hs : String.fromUTF8? ⟨(utf8 (String.ofList front) ++ part.take (i + 1)).toArray⟩ with
      | none => rfl
      | some text =>
        have h := fromUTF8?_eq_some hs
        rw [← String.ofList_toList (s := text)] at h
        refine absurd h.symm (not_utf8_of_part ((List.take_prefix _ _).trans hpart) ?_ ?_)
        · intro hnil
          have hcount := congrArg List.length hnil
          rw [List.length_take, List.length_nil] at hcount
          omega
        · rw [List.length_take]
          omega
    rw [← Nat.add_assoc, longest, htake, hnone]
    exact ih (by omega)

/-- ASCII case mapping, and one replacement character for what is malformed. -/
def plain : Jvm where
  lowercase s := s.map fun c => if 65 ≤ c.val ∧ c.val ≤ 90 then codeUnit (c.val + 32) else c
  uppercase s := s.map fun c => if 97 ≤ c.val ∧ c.val ≤ 122 then codeUnit (c.val - 32) else c
  malformed bytes := longest bytes.length bytes ++ "\uFFFD"
  otherDigit _ := none

theorem plain_ascii {b : JsString} (hb : b.all isLowerAscii) : plain.lowercase b = b := by
  refine (List.map_congr_left fun c hc => ?_).trans (List.map_id b)
  have hc := List.all_eq_true.1 hb c hc
  unfold isLowerAscii at hc
  simp only [Bool.or_eq_true, Bool.and_eq_true, decide_eq_true_eq] at hc
  exact if_neg (by omega)

theorem plain_lawful : plain.toCases.Lawful where
  ascii _ hb := plain_ascii hb
  append a b ha hb := by
    have happend : plain.lowercase (a ++ b) = plain.lowercase a ++ plain.lowercase b := List.map_append
    exact happend.trans (congrArg₂ _ ha (plain_ascii hb))
  drop a n ha := by
    have h := congrArg (List.drop n) ha
    exact (List.map_drop ..).trans h

theorem plain_replaces : plain.Replaces := by
  intro front c part hpart hlen
  by_cases hne : part = []
  · subst hne
    exact ⟨0, le_rfl, by rw [List.append_nil, toText_utf8, List.replicate_zero, List.append_nil]⟩
  · refine ⟨1, List.length_pos_of_ne_nil hne, ?_⟩
    have hnone : String.fromUTF8? ⟨(utf8 (String.ofList front) ++ part).toArray⟩ = none := by
      cases hs : String.fromUTF8? ⟨(utf8 (String.ofList front) ++ part).toArray⟩ with
      | none => rfl
      | some text =>
        have h := fromUTF8?_eq_some hs
        rw [← String.ofList_toList (s := text)] at h
        exact absurd h.symm (not_utf8_of_part hpart hne hlen)
    unfold toText
    rw [hnone]
    show longest (utf8 (String.ofList front) ++ part).length (utf8 (String.ofList front) ++ part) ++ "\uFFFD" = _
    rw [List.length_append, longest_part hpart hlen _ le_rfl, String.ofList_append]
    rfl

/-- A space whose identifier has 256 letters. -/
def longSpace : Addr := ⟨30023, List.replicate 64 48, String.ofList (List.replicate 256 'a'), []⟩

/-- A space with a short one. -/
def shortSpace : Addr := ⟨30023, List.replicate 64 48, "nostrautica", ["wss://relay.example"]⟩

/-- The link of the one is made, and is not read back. -/
theorem longSpace_not_read : ∃ e, naddr plain longSpace = some e ∧ decodeNaddr plain e ≠ some longSpace := by
  obtain ⟨e, he, hiff⟩ := decodeNaddr_naddr_iff (a := longSpace) plain_lawful plain_replaces (by decide +kernel) (by decide)
  refine ⟨e, he, fun h => ?_⟩
  have hlen := (hiff.1 h).identifier
  have hcount : (utf8 longSpace.identifier).length = 256 := by
    unfold longSpace
    rw [utf8_ofList]
    decide +kernel
  omega

theorem shortSpace_fits : shortSpace.Fits := ⟨by decide +kernel, by decide +kernel⟩

theorem nip19_round_trip_short : ∃ e, naddr plain shortSpace = some e ∧ decodeNaddr plain e = some shortSpace := by
  obtain ⟨e, he, hiff⟩ := (nip19_round_trip plain plain_lawful plain_replaces).2.2.1 shortSpace (by decide +kernel) (by decide)
  exact ⟨e, he, hiff.2 shortSpace_fits⟩

/-! ## Mistyped links -/

/-- **A link with up to six characters in a row mistyped is refused.** -/
theorem burst_refused {d : Cases} {hrp : JsString} (hd : d.Lawful) (hlower : d.lowercase hrp = hrp) (hhead : ∃ c ∈ hrp.head?, isWhitespace c = false) {A B B' E : JsString}
    (hall : (A ++ (B ++ E)).all isLowerAscii) (hall' : B'.all isLowerAscii) (hone : 49 ∉ A ++ (B ++ E)) (hone' : 49 ∉ B')
    (hlen : B'.length = B.length) (hsix : B.length ≤ 6) (hne : B' ≠ B) (h : (decode d (hrp ++ 49 :: (A ++ (B ++ E)))).isSome) :
    decode d (hrp ++ 49 :: (A ++ (B' ++ E))) = none := by
  have hread : ∀ W : JsString, W.all isLowerAscii → decode d (hrp ++ 49 :: W) = decodeLower (hrp ++ 49 :: W) := by
    intro W hW
    have hW' : (49 :: W).all isLowerAscii := by rw [List.all_cons, hW]; decide
    have hstable := hd.append hrp _ hlower hW'
    rw [decode_eq, trim_lower hhead (List.cons_ne_nil 49 W) hW', hstable, if_pos (.inl rfl)]
  have hallB : (A ++ (B' ++ E)).all isLowerAscii := by
    simp only [List.all_append, Bool.and_eq_true] at hall ⊢
    exact ⟨hall.1, hall', hall.2.2⟩
  have honeB : 49 ∉ A ++ (B' ++ E) := by
    simp only [List.mem_append, not_or] at hone ⊢
    exact ⟨hone.1, hone', hone.2.2⟩
  rw [hread _ hall] at h
  rw [hread _ hallB]
  obtain ⟨r, hr⟩ := Option.isSome_iff_exists.1 h
  cases hr' : decodeLower (hrp ++ 49 :: (A ++ (B' ++ E))) with
  | none => rfl
  | some r' =>
    exfalso
    obtain ⟨V, hV, hmap, hcheck⟩ := checked_of_decodeLower hr hone
    obtain ⟨V', hV', hmap', hcheck'⟩ := checked_of_decodeLower hr' honeB
    obtain ⟨X, Y, rfl, hX, hY⟩ := List.map_eq_append_iff.1 hmap.symm
    obtain ⟨U, Z, rfl, hU, hZ⟩ := List.map_eq_append_iff.1 hY
    obtain ⟨X', Y', rfl, hX', hY'⟩ := List.map_eq_append_iff.1 hmap'.symm
    obtain ⟨U', Z', rfl, hU', hZ'⟩ := List.map_eq_append_iff.1 hY'
    simp only [List.mem_append] at hV hV'
    have hXX : X = X' := map_charOf_injective (fun v hv => hV v (.inl hv)) (fun v hv => hV' v (.inl hv)) (hX.trans hX'.symm)
    have hZZ : Z = Z' := map_charOf_injective (fun v hv => hV v (.inr (.inr hv))) (fun v hv => hV' v (.inr (.inr hv))) (hZ.trans hZ'.symm)
    rw [← hXX, ← hZZ, ← List.append_assoc] at hcheck'
    rw [← List.append_assoc] at hcheck
    have hUlen : U.length = B.length := by rw [← hU, List.length_map]
    have hUlen' : U'.length = B'.length := by rw [← hU', List.length_map]
    have hUU : U = U' := by
      refine polymod_burst (by omega) (by omega) (fun v hv => ?_) (fun v hv => hV v (.inr (.inl hv))) (fun v hv => hV' v (.inr (.inl hv)))
        (fun v hv => hV v (.inr (.inr hv))) (hcheck.trans hcheck'.symm)
      rcases List.mem_append.1 hv with hv | hv
      · exact hrpExpand_lt hv
      · exact (hV v (.inl hv)).trans (by decide)
    exact hne (hU'.symm.trans (hUU ▸ hU))

/-- Two wrong characters in a row. -/
theorem burst_refused_short : decode plain.toCases (js "a" ++ 49 :: (js "2ue" ++ (js "x5" ++ js "l"))) = none :=
  burst_refused plain_lawful (plain_ascii (by decide)) ⟨97, rfl, by decide⟩ (B := js "l5") (by decide) (by decide) (by decide) (by decide) rfl (by decide)
    (by decide) (by decide +kernel)

end Nostrautica.Nip19
