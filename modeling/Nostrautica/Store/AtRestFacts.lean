/-
Which readers read which at-rest format: the store reads all of them, the
health check and the backup do not know the packed one.
-/
import Nostrautica.Js.JsonParseFacts
import Nostrautica.Js.ParseWritten
import Nostrautica.Js.Utf8Facts
import Nostrautica.Store.AtRest
import Nostrautica.Transition.Run

namespace Nostrautica.AtRest

open Js
open Nostrautica.Membership (EckVersion)

/-- What NIP-44, brotli and base64 do: each gives back what it was given, both
write base64, and brotli writes something. -/
structure Crypto.RoundTrips {κ : Type*} (x : Crypto κ) : Prop where
  decrypt_encrypt : ∀ sk bytes, x.decrypt sk (x.encrypt sk bytes) = some bytes
  decompress_compress : ∀ bytes, x.decompress (x.compress bytes) = some bytes
  encrypt_base64 : ∀ sk bytes, ∀ c ∈ x.encrypt sk bytes, c ≠ 46
  compress_base64 : ∀ bytes, isAscii (x.compress bytes) = true
  compress_ne_nil : ∀ bytes, x.compress bytes ≠ []

variable {κ : Type*} {x : Crypto κ} {sk : κ} {v s t : JsString}

/-! ## Texts as bytes -/

theorem utf8ToString_utf8ToBytes (v : JsString) : utf8ToString (utf8ToBytes v) = some ((codePoints v).flatMap unitsOfChar) := by
  have h : String.fromUTF8? (String.ofList (codePoints v)).toUTF8 = some (String.ofList (codePoints v)) :=
    dif_pos (String.ofList (codePoints v)).isValidUTF8
  unfold utf8ToString utf8ToBytes
  rw [h, Option.map_some, String.toList_ofList]

theorem wellFormed_iff : (codePoints v).flatMap unitsOfChar = v ↔ WellFormed v := by
  constructor
  · intro h
    exact ⟨_, h.symm⟩
  · rintro ⟨xs, rfl⟩
    rw [codePoints_units]

theorem wellFormed_of_utf8ToString {bytes : ByteArray} (h : utf8ToString bytes = some v) : WellFormed v := by
  obtain ⟨s, -, rfl⟩ := Option.map_eq_some_iff.mp h
  exact ⟨_, rfl⟩

theorem utf8ToString_eq (h : WellFormed v) : utf8ToString (utf8ToBytes v) = some v := by
  rw [utf8ToString_utf8ToBytes, wellFormed_iff.mpr h]

theorem selfDecrypt_selfEncrypt (hx : x.RoundTrips) (h : WellFormed v) : selfDecrypt x sk (selfEncrypt x sk v) = some v := by
  unfold selfDecrypt selfEncrypt
  rw [hx.decrypt_encrypt, Option.bind_some, utf8ToString_eq h]

theorem size_utf8ToBytes (h : isAscii v = true) : (utf8ToBytes v).size = v.length := by
  have key : ∀ {v : JsString}, isAscii v = true → (codePoints v).utf8Encode.size = v.length := by
    intro v h
    induction v with
    | nil => rfl
    | cons c v ih =>
      obtain ⟨hc, hv⟩ := Bool.and_eq_true_iff.mp (show (decide (c.val < 128) && isAscii v) = true from h)
      have hc := of_decide_eq_true hc
      obtain ⟨hh, hl⟩ := not_surrogate_of_ascii hc
      have hchar : unitChar c = Char.ofNat c.val := by simp [unitChar, hh, hl]
      have hone : (unitChar c).utf8Size = 1 := by
        have hnat : (Char.ofNat c.val).toNat = c.val := by
          rw [Char.toNat_ofNat]
          exact if_pos (.inl (by omega))
        rw [hchar, Char.utf8Size_eq_one_iff, UInt32.le_iff_toNat_le]
        exact hnat.le.trans (Nat.le_of_lt_succ hc)
      rw [codePoints_cons hh, List.utf8Encode_cons, ByteArray.size_append, ih hv, List.utf8Encode_singleton,
        List.size_toByteArray, String.length_utf8EncodeChar, hone, List.length_cons, Nat.add_comm]
  unfold utf8ToBytes
  exact (congrArg ByteArray.size String.toByteArray_ofList).trans (key h)

/-! ## The packed form -/

theorem flatten_chunks (s : JsString) : (chunks s).flatten = s := by
  induction s using chunks.induct with
  | case1 => simp [chunks]
  | case2 s h ih =>
    rw [chunks, if_neg h, List.flatten_cons, ih]
    exact List.take_append_drop _ _

theorem chunks_ne_nil (h : s ≠ []) : chunks s ≠ [] := by
  rw [chunks, if_neg h]
  exact List.cons_ne_nil _ _

theorem splitDot_append (h : ∀ c ∈ s, c ≠ 46) : splitDot (s ++ 46 :: t) = s :: splitDot t := by
  induction s with
  | nil => simp [splitDot]
  | cons c s ih =>
    have ih := ih fun d hd => h d (List.mem_cons_of_mem _ hd)
    simp [splitDot, ih, h c List.mem_cons_self]

theorem splitDot_of_no_dot (h : ∀ c ∈ s, c ≠ 46) : splitDot s = [s] := by
  induction s with
  | nil => rfl
  | cons c s ih =>
    have ih := ih fun d hd => h d (List.mem_cons_of_mem _ hd)
    simp [splitDot, ih, h c List.mem_cons_self]

/-- The split is exact: no piece has a dot. -/
theorem splitDot_joinDot : ∀ {ps : List JsString}, ps ≠ [] → (∀ p ∈ ps, ∀ c ∈ p, c ≠ 46) → splitDot (joinDot ps) = ps
  | [], h, _ => absurd rfl h
  | [p], _, h => splitDot_of_no_dot (h p List.mem_cons_self)
  | p :: q :: ps, _, h => by
    have ih := splitDot_joinDot (List.cons_ne_nil q ps) fun r hr => h r (List.mem_cons_of_mem _ hr)
    have he : joinDot (p :: q :: ps) = p ++ 46 :: joinDot (q :: ps) := by
      have hdot : js "." = [46] := by decide
      simp [joinDot, hdot]
    rw [he, splitDot_append (h p List.mem_cons_self), ih]

theorem mem_of_mem_chunks {p : JsString} {c : CodeUnit} (hp : p ∈ chunks s) (hc : c ∈ p) : c ∈ s := by
  rw [← flatten_chunks s]
  exact List.mem_flatten_of_mem hp hc

theorem mapM_selfDecrypt (hx : x.RoundTrips) : ∀ {ps : List JsString}, (∀ p ∈ ps, WellFormed p) →
    (ps.map (selfEncrypt x sk)).mapM (selfDecrypt x sk) = some ps
  | [], _ => rfl
  | p :: ps, h => by
    have ih := mapM_selfDecrypt hx fun q hq => h q (List.mem_cons_of_mem _ hq)
    rw [List.map_cons, List.mapM_cons, selfDecrypt_selfEncrypt hx (h p List.mem_cons_self), ih]
    rfl

/-! ## `protect` and `reveal` -/

/-- A value that is stored in the small form. -/
def Small (v : JsString) : Prop := (utf8ToBytes v).size ≤ atRestPackThreshold

theorem startsWith_append (p s : JsString) : startsWith p (p ++ s) = true := List.isPrefixOf_iff_prefix.mpr (List.prefix_append p s)

/-- Neither prefix is a prefix of the other. -/
theorem prefixes_differ (s : JsString) :
    startsWith encPackedPrefix (encPrefix ++ s) = false ∧ startsWith encPrefix (encPackedPrefix ++ s) = false := by
  constructor <;> rfl

theorem reveal_small (s : JsString) : reveal x (some sk) (encPrefix ++ s) = selfDecrypt x sk s := by
  unfold reveal
  simp only [(prefixes_differ s).1, startsWith_append, Bool.not_false, Bool.not_true, Bool.and_false, Bool.false_eq_true,
    if_false, if_true, List.drop_left]

theorem reveal_packed (s : JsString) : reveal x (some sk) (encPackedPrefix ++ s) =
    ((splitDot s).mapM (selfDecrypt x sk)).bind fun joined => (x.decompress joined.flatten).bind utf8ToString := by
  unfold reveal
  simp only [startsWith_append, Bool.not_true, Bool.false_and, Bool.false_eq_true, if_false, List.drop_left]
  rfl

theorem protect_small (h : Small v) : protect x (some sk) v = encPrefix ++ selfEncrypt x sk v := if_pos h

theorem protect_packed (h : ¬ Small v) : protect x (some sk) v =
    encPackedPrefix ++ joinDot ((chunks (x.compress (utf8ToBytes v))).map (selfEncrypt x sk)) := if_neg h

/-- What the store reads back: the text, each lone surrogate replaced. -/
theorem reveal_protect_eq (hx : x.RoundTrips) (v : JsString) :
    reveal x (some sk) (protect x (some sk) v) = some ((codePoints v).flatMap unitsOfChar) := by
  by_cases h : Small v
  · rw [protect_small h, reveal_small]
    unfold selfDecrypt selfEncrypt
    rw [hx.decrypt_encrypt, Option.bind_some, utf8ToString_utf8ToBytes]
  · have hne : (chunks (x.compress (utf8ToBytes v))).map (selfEncrypt x sk) ≠ [] :=
      fun he => chunks_ne_nil (hx.compress_ne_nil _) (List.map_eq_nil_iff.mp he)
    have hdots : ∀ p ∈ (chunks (x.compress (utf8ToBytes v))).map (selfEncrypt x sk), ∀ c ∈ p, c ≠ 46 := by
      intro p hp
      obtain ⟨q, -, rfl⟩ := List.mem_map.mp hp
      exact hx.encrypt_base64 sk _
    have hwf : ∀ p ∈ chunks (x.compress (utf8ToBytes v)), WellFormed p := by
      intro p hp
      refine wellFormed_ascii (List.all_eq_true.mpr fun c hc => ?_)
      exact List.all_eq_true.mp (hx.compress_base64 _) c (mem_of_mem_chunks hp hc)
    rw [protect_packed h, reveal_packed, splitDot_joinDot hne hdots, mapM_selfDecrypt hx hwf, Option.bind_some,
      flatten_chunks, hx.decompress_compress, Option.bind_some, utf8ToString_utf8ToBytes]

/-- **What is protected is revealed**, exactly of text without lone surrogates. -/
theorem reveal_protect_iff (hx : x.RoundTrips) : reveal x (some sk) (protect x (some sk) v) = some v ↔ WellFormed v := by
  rw [reveal_protect_eq hx, Option.some_inj, wellFormed_iff]

/-! ## What the columns hold -/

/-- Text that no reader takes for an encrypted column. -/
structure Clear (v : JsString) : Prop where
  wellFormed : WellFormed v
  not_small : startsWith encPrefix v = false
  not_packed : startsWith encPackedPrefix v = false

theorem parseJson_nip (s : JsString) : parseJson (js "nip" ++ s) = none := rfl

theorem startsWith_nip {p : JsString} (hp : startsWith (js "nip") p = true) (h : startsWith p v = true) :
    ∃ s, v = js "nip" ++ s := by
  obtain ⟨s, hs⟩ := List.isPrefixOf_iff_prefix.mp hp
  obtain ⟨t, ht⟩ := List.isPrefixOf_iff_prefix.mp h
  exact ⟨s ++ t, by rw [← ht, ← hs, List.append_assoc]⟩

theorem isHex64_nip (s : JsString) : isHex64 (js "nip" ++ s) = false := by
  unfold isHex64
  rw [List.all_append, (by decide : (js "nip").all (fun c => isLowerHexDigit c || (65 ≤ c.val && c.val ≤ 70)) = false)]
  simp

theorem nip_prefixes : startsWith (js "nip") encPrefix = true ∧ startsWith (js "nip") encPackedPrefix = true := by decide

/-- Both prefixes begin with `nip`. -/
theorem clear_of_no_nip (hw : WellFormed v) (h : ∀ s, v ≠ js "nip" ++ s) : Clear v := by
  have hno : ∀ p, startsWith (js "nip") p = true → startsWith p v = false := by
    intro p hp
    refine Bool.eq_false_iff.mpr fun hs => ?_
    obtain ⟨s, hv⟩ := startsWith_nip hp hs
    exact h s hv
  exact ⟨hw, hno _ nip_prefixes.1, hno _ nip_prefixes.2⟩

/-- JSON is no encrypted column. -/
theorem clear_of_parses (hw : WellFormed v) (h : (parseJson v).isSome = true) : Clear v := by
  refine clear_of_no_nip hw fun s hv => ?_
  rw [hv, parseJson_nip] at h
  exact Bool.false_ne_true h

theorem ascii_of_isHex64 (h : isHex64 v = true) : isAscii v = true ∧ v.length = 64 := by
  obtain ⟨hl, hd⟩ := Bool.and_eq_true_iff.mp h
  refine ⟨List.all_eq_true.mpr fun c hc => ?_, of_decide_eq_true hl⟩
  have := List.all_eq_true.mp hd c hc
  simp only [isLowerHexDigit, Bool.or_eq_true, Bool.and_eq_true, decide_eq_true_eq] at this ⊢
  omega

/-- A key in hex is no encrypted column. -/
theorem clear_of_isHex64 (h : isHex64 v = true) : Clear v := by
  refine clear_of_no_nip (wellFormed_ascii (ascii_of_isHex64 h).1) fun s hv => ?_
  rw [hv, isHex64_nip] at h
  exact Bool.false_ne_true h

/-- A column has the text `v`, in the clear or protected. -/
def Holds (x : Crypto κ) (sk : κ) (column v : JsString) : Prop := Clear v ∧ (column = v ∨ column = protect x (some sk) v)

variable {column : JsString}

theorem reveal_clear (h : Clear v) (identitySk : Option κ) : reveal x identitySk v = some v := by
  unfold reveal
  simp [h.not_small, h.not_packed]

theorem Holds.reveal (hx : x.RoundTrips) (h : Holds x sk column v) : reveal x (some sk) column = some v := by
  obtain ⟨hc, rfl | rfl⟩ := h
  · exact reveal_clear hc _
  · exact (reveal_protect_iff hx).mpr hc.wellFormed

theorem Holds.protect (h : Clear v) : Holds x sk (protect x (some sk) v) v := ⟨h, .inr rfl⟩

/-- Where the health check and the backup read a column as the store does: it is
in the clear, or in the small form. -/
theorem Holds.decryptColumn (hx : x.RoundTrips) (h : Holds x sk column v) :
    decryptColumn x sk column = if startsWith encPackedPrefix column then some column else some v := by
  obtain ⟨hc, rfl | rfl⟩ := h
  · simp [AtRest.decryptColumn, hc.not_small, hc.not_packed]
  · by_cases hs : Small v
    · rw [protect_small hs]
      simp [AtRest.decryptColumn, startsWith_append, (prefixes_differ _).1, selfDecrypt_selfEncrypt hx hc.wellFormed]
    · rw [protect_packed hs]
      simp [AtRest.decryptColumn, startsWith_append, (prefixes_differ _).2]

theorem packed_iff (h : Holds x sk column v) : startsWith encPackedPrefix column = true ↔ column = AtRest.protect x (some sk) v ∧ ¬ Small v := by
  obtain ⟨hc, rfl | rfl⟩ := h
  · refine iff_of_false (by simp [hc.not_packed]) ?_
    rintro ⟨he, hs⟩
    have := hc.not_packed
    rw [he, protect_packed hs, startsWith_append] at this
    exact Bool.false_ne_true this.symm
  · by_cases hs : Small v
    · rw [protect_small hs, (prefixes_differ _).1]
      simp [hs]
    · rw [protect_packed hs, startsWith_append]
      simp [hs]

/-! ## ECK lists -/

/-- What the schema accepts, with an id that a JS number holds. -/
def ValidVersion (w : EckVersion JsString) : Prop := EckIdentity.eckVersionSchema w = true ∧ IsDouble w.id

variable {w : EckVersion JsString} {eck : List (EckVersion JsString)} {n : Nat}

theorem ValidVersion.id_ne_zero (h : ValidVersion w) : w.id ≠ 0 := by
  have := h.1
  simp only [EckIdentity.eckVersionSchema, Bool.and_eq_true, decide_eq_true_eq] at this
  omega

theorem ValidVersion.plain (h : ValidVersion w) : ∀ c ∈ w.key, Parse.PlainUnit c := by
  intro c hc
  have hb := (Bool.and_eq_true_iff.mp h.1).2
  simp only [base64Bytes, isBase64, Bool.and_eq_true, List.all_eq_true, beq_iff_eq, decide_eq_true_eq] at hb
  rw [← List.takeWhile_append_dropWhile (p := fun c : CodeUnit =>
    (65 ≤ c.val && c.val ≤ 90) || (97 ≤ c.val && c.val ≤ 122) || isDigit c || c.val == 43 || c.val == 47) (l := w.key)] at hc
  rcases List.mem_append.mp hc with hc | hc
  · have := List.mem_takeWhile_imp hc
    simp only [isDigit, Bool.or_eq_true, Bool.and_eq_true, decide_eq_true_eq, beq_iff_eq] at this
    unfold Parse.PlainUnit
    omega
  · have := hb.1.2 c hc
    unfold Parse.PlainUnit
    omega

/-- A version as it is written. -/
def versionText (w : EckVersion JsString) : JsString :=
  123 :: 34 :: (js "id" ++ 34 :: 58 :: (natToString w.id ++ 44 :: 34 :: (js "key" ++ 34 :: 58 :: 34 :: (w.key ++ [34, 125]))))

theorem stringify_version (h : ValidVersion w) :
    stringify (.obj [(js "id", .num w.id), (js "key", .str w.key)]) = versionText w := by
  have hid : quote (js "id") = 34 :: (js "id" ++ [34]) := by decide
  have hkey : quote (js "key") = 34 :: (js "key" ++ [34]) := by decide
  have hval : quote w.key = 34 :: (w.key ++ [34]) := by
    unfold quote
    rw [Parse.quoteUnits_plain h.plain]
    rfl
  have hcolon : js ":" = [58] := by decide
  have hcomma : js "," = [44] := by decide
  have hopen : js "\x7b" = [123] := by decide
  have hclose : js "\x7d" = [125] := by decide
  have hnum : intToString (w.id : Int) = natToString w.id := rfl
  simp [stringify, stringifyFields, joinComma, hid, hkey, hval, hcolon, hcomma, hopen, hclose, hnum, versionText]

open Parse in
theorem value_version (h : ValidVersion w) (n : Nat) (t : JsString) :
    value (n + 4) (versionText w ++ t) =
      some (.obj [(js "id", .num (natToString w.id)), (js "key", .str w.key)], t) := by
  have hall : (js "id" ++ js "key").all (fun c => decide (PlainUnit c)) = true := by decide
  have hplain : ∀ c ∈ js "id" ++ js "key", PlainUnit c := fun c hc => of_decide_eq_true (List.all_eq_true.mp hall c hc)
  have hid : string (js "id" ++ 34 :: 58 :: (natToString w.id ++ 44 :: 34 :: (js "key" ++ 34 :: 58 :: 34 :: (w.key ++ 34 :: 125 :: t)))) = _ :=
    string_plain fun c hc => hplain c (List.mem_append_left _ hc)
  have hkey : string (js "key" ++ 34 :: 58 :: 34 :: (w.key ++ 34 :: 125 :: t)) = _ :=
    string_plain fun c hc => hplain c (List.mem_append_right _ hc)
  have hval : string (w.key ++ 34 :: 125 :: t) = _ := string_plain h.plain
  have hstop : Stops (44 :: 34 :: (js "key" ++ 34 :: 58 :: 34 :: (w.key ++ 34 :: 125 :: t))) := by
    intro c hc
    cases hc
    decide
  have hnum := number_natToString h.2 h.id_ne_zero hstop
  obtain ⟨d, r, hd, hr⟩ := natToString_cons h.2 h.id_ne_zero
  have hidval : value (n + 2) (natToString w.id ++ 44 :: 34 :: (js "key" ++ 34 :: 58 :: 34 :: (w.key ++ 34 :: 125 :: t))) =
      some (.num (natToString w.id), 44 :: 34 :: (js "key" ++ 34 :: 58 :: 34 :: (w.key ++ 34 :: 125 :: t))) := by
    rw [hr] at hnum ⊢
    exact value_num hd hnum
  have hlast : members (n + 2) (34 :: (js "key" ++ 34 :: 58 :: 34 :: (w.key ++ 34 :: 125 :: t))) =
      some ([(js "key", .str w.key)], t) := members_last hkey (value_str hval)
  have htext : versionText w ++ t = 123 :: 34 :: (js "id" ++ 34 :: 58 ::
      (natToString w.id ++ 44 :: 34 :: (js "key" ++ 34 :: 58 :: 34 :: (w.key ++ 34 :: 125 :: t)))) := by
    simp [versionText]
  rw [htext]
  exact value_obj (members_cons hid hidval hlast)

open Parse in
theorem elements_versions : ∀ {eck : List (EckVersion JsString)}, eck ≠ [] → (∀ w ∈ eck, ValidVersion w) → ∀ n,
    (elements (n + eck.length + 4) (joinComma (eck.map versionText) ++ [93])).isSome = true ∧
      ∀ p, elements (n + eck.length + 4) (joinComma (eck.map versionText) ++ [93]) = some p → p.2 = []
  | [], h, _, _ => absurd rfl h
  | [w], _, h, n => by
    have he := elements_last (value_version (h w List.mem_cons_self) n [93])
    have hlen : n + [w].length + 4 = n + 4 + 1 := by simp only [List.length_singleton]
    rw [hlen]
    simp [joinComma, he]
  | w :: u :: eck, _, h, n => by
    obtain ⟨hsome, hrest⟩ := elements_versions (List.cons_ne_nil u eck) (fun z hz => h z (List.mem_cons_of_mem w hz)) n
    obtain ⟨⟨vs, r⟩, hp⟩ := Option.isSome_iff_exists.mp hsome
    have hr : r = [] := hrest _ hp
    subst hr
    have hcomma : js "," = [44] := by decide
    have htext : joinComma ((w :: u :: eck).map versionText) ++ [93] =
        versionText w ++ 44 :: (joinComma ((u :: eck).map versionText) ++ [93]) := by
      simp [joinComma, hcomma]
    have hv := value_version (h w List.mem_cons_self) (n + (u :: eck).length) (44 :: (joinComma ((u :: eck).map versionText) ++ [93]))
    have he := elements_cons hv hp
    have hlen : n + (w :: u :: eck).length + 4 = n + (u :: eck).length + 4 + 1 := by simp only [List.length_cons]; omega
    rw [htext, hlen, he]
    simp

theorem eckJson_eq (h : ∀ w ∈ eck, ValidVersion w) : eckJson eck = 91 :: (joinComma (eck.map versionText) ++ [93]) := by
  have helems : ∀ {eck : List (EckVersion JsString)}, (∀ w ∈ eck, ValidVersion w) →
      stringifyElems (eck.map fun v => .obj [(js "id", .num v.id), (js "key", .str v.key)]) = eck.map versionText := by
    intro eck h
    induction eck with
    | nil => rfl
    | cons w eck ih =>
      rw [List.map_cons, stringifyElems, stringify_version (h w List.mem_cons_self),
        ih fun z hz => h z (List.mem_cons_of_mem w hz), List.map_cons]
  have hopen : js "[" = [91] := by decide
  have hclose : js "]" = [93] := by decide
  unfold eckJson
  rw [stringify, helems h, hopen, hclose]
  simp

open Parse in
/-- **`JSON.parse` accepts a list of versions as it is written.** -/
theorem parses_eckJson (h : ∀ w ∈ eck, ValidVersion w) : (parseJson (eckJson eck)).isSome = true := by
  rw [eckJson_eq h]
  by_cases hnil : eck = []
  · subst hnil
    rfl
  obtain ⟨w, us, rfl⟩ := List.exists_cons_of_ne_nil hnil
  obtain ⟨hsome, hrest⟩ := elements_versions hnil h (2 * (91 :: (joinComma ((w :: us).map versionText) ++ [93])).length + 1)
  obtain ⟨⟨vs, r⟩, hp⟩ := Option.isSome_iff_exists.mp hsome
  have hr : r = [] := hrest _ hp
  subst hr
  obtain ⟨s, hs⟩ : ∃ s, joinComma ((w :: us).map versionText) ++ [93] = 123 :: s := by
    cases us with
    | nil => exact ⟨_, rfl⟩
    | cons u us => exact ⟨_, rfl⟩
  rw [hs] at hp ⊢
  have hv := value_arr (by rfl) (by decide) hp
  have hfuel := value_fuel (s := 91 :: 123 :: s) (n := 2 * (91 :: 123 :: s).length + 1 + (w :: us).length + 4 + 1) (by omega)
  unfold parseJson
  rw [← hfuel, hv]
  rfl

theorem ascii_eckJson (h : ∀ w ∈ eck, ValidVersion w) : isAscii (eckJson eck) = true := by
  have hkey : ∀ w, ValidVersion w → isAscii w.key = true := fun w hw =>
    List.all_eq_true.mpr fun c hc => decide_eq_true (hw.plain c hc).2.1
  have hversion : ∀ w, ValidVersion w → isAscii (versionText w) = true := by
    intro w hw
    have htext : versionText w = (123 :: 34 :: (js "id" ++ [34, 58])) ++ natToString w.id ++
        (44 :: 34 :: (js "key" ++ [34, 58, 34])) ++ w.key ++ [34, 125] := by
      simp [versionText]
    have hopen : isAscii (123 :: 34 :: (js "id" ++ [34, 58])) = true := by decide
    have hmid : isAscii (44 :: 34 :: (js "key" ++ [34, 58, 34])) = true := by decide
    have hclose : isAscii [34, 125] = true := by decide
    rw [htext]
    simp only [isAscii_append, hopen, hmid, hclose, hkey w hw, isAscii_natToString, Bool.and_self]
  have hjoin : ∀ {ps : List JsString}, (∀ p ∈ ps, isAscii p = true) → isAscii (joinComma ps) = true := by
    intro ps hps
    induction ps using joinComma.induct with
    | case1 => rfl
    | case2 p => exact hps p List.mem_cons_self
    | case3 p q ps ih =>
      rw [joinComma, isAscii_append, isAscii_append, hps p List.mem_cons_self, ih fun r hr => hps r (List.mem_cons_of_mem p hr)]
      rfl
  rw [eckJson_eq h]
  have hmembers : ∀ p ∈ eck.map versionText, isAscii p = true := by
    intro p hp
    obtain ⟨w, hw, rfl⟩ := List.mem_map.mp hp
    exact hversion w (h w hw)
  have hclose : isAscii [93] = true := rfl
  have hcons : isAscii (91 :: (joinComma (eck.map versionText) ++ [93])) = isAscii (joinComma (eck.map versionText) ++ [93]) := rfl
  rw [hcons, isAscii_append, hjoin hmembers, hclose]
  rfl

/-! ## Rows -/

/-- What a row has been given. -/
structure Sound (x : Crypto κ) (sk : κ) (row : EventRow) : Prop where
  inbox : ∃ nsec, isHex64 nsec = true ∧ Holds x sk row.inbox_nsec nsec
  eck : ∃ eck, (∀ w ∈ eck, ValidVersion w) ∧ Holds x sk row.eck_json (eckJson eck)

theorem clear_eckJson (h : ∀ w ∈ eck, ValidVersion w) : Clear (eckJson eck) :=
  clear_of_parses (wellFormed_ascii (ascii_eckJson h)) (parses_eckJson h)

/-- A 64-hex key, and a list of versions. -/
structure EventInput.Valid (row : EventInput) : Prop where
  inbox : isHex64 row.inboxNsec = true
  eck : ∃ eck, (∀ w ∈ eck, ValidVersion w) ∧ row.eckJson = AtRest.eckJson eck

def Act.Valid : Act → Prop
  | .upsertEvent _ row => row.Valid
  | _ => True

variable {row : EventRow} {db db' : List EventRow}

theorem eck_json_written {identitySk : Option κ} {input : EventInput} {gen : Nat} :
    (written x identitySk input gen).eck_json = protect x identitySk input.eckJson := rfl

theorem sound_written {input : EventInput} (h : input.Valid) (keyed : Bool) (gen : Nat) :
    Sound x sk (written x (if keyed then some sk else none) input gen) := by
  have hi := clear_of_isHex64 h.inbox
  obtain ⟨eck, hv, he⟩ := h.eck
  refine ⟨⟨_, h.inbox, hi, ?_⟩, ⟨eck, hv, clear_eckJson hv, ?_⟩⟩
  · cases keyed
    · exact .inl rfl
    · exact .inr rfl
  · rw [← he]
    cases keyed
    · exact .inl rfl
    · exact .inr rfl

/-- A start writes each row again, and it stays what it reveals. -/
theorem encryptRow_spec (hx : x.RoundTrips) (h : Sound x sk row) : ∃ row', encryptRow x (some sk) row = some row' ∧
    Sound x sk row' ∧ row'.coordinate = row.coordinate ∧
    (do
      let nsec ← reveal x (some sk) row'.inbox_nsec
      let eck ← reveal x (some sk) row'.eck_json
      some (some { row' with inbox_nsec := nsec, eck_json := eck })) =
    (do
      let nsec ← reveal x (some sk) row.inbox_nsec
      let eck ← reveal x (some sk) row.eck_json
      some (some { row with inbox_nsec := nsec, eck_json := eck })) := by
  obtain ⟨⟨nsec, hn, hinbox⟩, ⟨eck, he, heck⟩⟩ := h
  unfold encryptRow
  split
  · exact ⟨row, rfl, ⟨⟨nsec, hn, hinbox⟩, ⟨eck, he, heck⟩⟩, rfl, rfl⟩
  · have hn' : Holds x sk (protect x (some sk) nsec) nsec := .protect hinbox.1
    have he' : Holds x sk (protect x (some sk) (eckJson eck)) (eckJson eck) := .protect heck.1
    refine ⟨{ row with inbox_nsec := protect x (some sk) nsec, eck_json := protect x (some sk) (eckJson eck) }, ?_,
      ⟨⟨nsec, hn, hn'⟩, ⟨eck, he, he'⟩⟩, rfl, ?_⟩
    · simp [hinbox.reveal hx, heck.reveal hx]
    · simp [hinbox.reveal hx, heck.reveal hx, hn'.reveal hx, he'.reveal hx]

def Inv (x : Crypto κ) (sk : κ) (db : List EventRow) : Prop := ∀ row ∈ db, Sound x sk row

/-- A start leaves what `getEvent` returns. -/
theorem encryptPlaintextKeyRows_spec (hx : x.RoundTrips) : ∀ {db : List EventRow}, Inv x sk db →
    ∃ db', encryptPlaintextKeyRows x (some sk) db = some db' ∧ Inv x sk db' ∧
      ∀ c, getEvent x (some sk) db' c = getEvent x (some sk) db c
  | [], _ => ⟨[], rfl, fun _ hr => absurd hr List.not_mem_nil, fun _ => rfl⟩
  | row :: db, h => by
    obtain ⟨row', hrow, hsound, hc, hget⟩ := encryptRow_spec hx (h row List.mem_cons_self)
    obtain ⟨db', hdb, hinv, hgets⟩ := encryptPlaintextKeyRows_spec hx fun r hr => h r (List.mem_cons_of_mem _ hr)
    refine ⟨row' :: db', ?_, ?_, fun c => ?_⟩
    · unfold encryptPlaintextKeyRows at hdb ⊢
      rw [List.mapM_cons, hrow, hdb]
      rfl
    · intro r hr
      rcases List.mem_cons.mp hr with rfl | hr
      · exact hsound
      · exact hinv r hr
    · have hgets := hgets c
      unfold getEvent at hgets ⊢
      by_cases he : row.coordinate = c
      · rw [List.find?_cons_of_pos (by simp [hc, he]), List.find?_cons_of_pos (by simp [he])]
        exact hget
      · rw [List.find?_cons_of_neg (by simp [hc, he]), List.find?_cons_of_neg (by simp [he])]
        exact hgets

theorem startups_spec (hx : x.RoundTrips) (n : Nat) : ∀ {db : List EventRow}, Inv x sk db →
    ∃ db', startups x sk db n = some db' ∧ ∀ c, getEvent x (some sk) db' c = getEvent x (some sk) db c := by
  induction n with
  | zero => exact fun _ => ⟨_, rfl, fun _ => rfl⟩
  | succ n ih =>
    intro db h
    obtain ⟨db', hdb, hinv, hget⟩ := encryptPlaintextKeyRows_spec hx h
    obtain ⟨db'', hdb', hget'⟩ := ih hinv
    refine ⟨db'', ?_, fun c => (hget' c).trans (hget c)⟩
    rw [startups, hdb, Option.bind_some, hdb']

theorem Inv.step (hx : x.RoundTrips) {a : Act} (ha : a.Valid) (h : Inv x sk db) (hs : Step x sk db a db') : Inv x sk db' := by
  cases a with
  | upsertEvent keyed input =>
    cases hs
    intro row hr
    unfold upsertEvent at hr
    split at hr
    · obtain ⟨r, hmem, rfl⟩ := List.mem_map.mp hr
      split
      · exact sound_written ha keyed _
      · exact h r hmem
    · rcases List.mem_append.mp hr with hr | hr
      · exact h row hr
      · rw [List.mem_singleton.mp hr]
        exact sound_written ha keyed _
  | deleteEvent coordinate =>
    cases hs
    exact fun row hr => h row (List.mem_of_mem_filter hr)
  | encryptPlaintextKeyRows =>
    obtain ⟨db'', hdb, hinv, -⟩ := encryptPlaintextKeyRows_spec hx h
    cases (Option.some.inj (hdb.symm.trans hs))
    exact hinv

theorem Inv.run (hx : x.RoundTrips) {as : List Act} (hv : ∀ a ∈ as, a.Valid) (h : Run (Step x sk) db as db') (hi : Inv x sk db) :
    Inv x sk db' :=
  h.invariant_of (G := Act.Valid) (fun _ _ _ hi ha hs => Inv.step hx ha hi hs) hv hi

/-! ## The readers -/

theorem verify_of_sound (hx : x.RoundTrips) (h : Inv x sk db) : verifyProtectedRowsDecrypt x (some sk) db = some db.length := by
  refine if_pos (List.all_eq_true.mpr fun row hr => ?_)
  obtain ⟨⟨nsec, hn, hinbox⟩, ⟨eck, he, heck⟩⟩ := h row hr
  simp [decrypts, hinbox.reveal hx, heck.reveal hx, hn, parses_eckJson he]

/-- No row has a protected ECK list of more than 60000 bytes. -/
def Unpacked (x : Crypto κ) (sk : κ) (db : List EventRow) : Prop :=
  ∀ row ∈ db, ∀ eck, (∀ w ∈ eck, ValidVersion w) → row.eck_json = protect x (some sk) (eckJson eck) →
    (utf8ToBytes (eckJson eck)).size ≤ 60000

theorem decrypts_iff (hx : x.RoundTrips) (h : Sound x sk row) :
    decrypts (decryptColumn x sk) row = true ↔ startsWith encPackedPrefix row.eck_json = false := by
  obtain ⟨⟨nsec, hn, hinbox⟩, ⟨eck, he, heck⟩⟩ := h
  have hsmall : Small nsec := by
    obtain ⟨hascii, hlen⟩ := ascii_of_isHex64 hn
    unfold Small
    rw [size_utf8ToBytes hascii, hlen]
    decide
  have hnot : startsWith encPackedPrefix row.inbox_nsec = false := by
    refine Bool.eq_false_iff.mpr fun hp => ?_
    exact ((packed_iff hinbox).mp hp).2 hsmall
  unfold decrypts
  rw [hinbox.decryptColumn hx, heck.decryptColumn hx, hnot]
  cases hp : startsWith encPackedPrefix row.eck_json with
  | false => simp [hn, parses_eckJson he]
  | true =>
    obtain ⟨s, hs⟩ := startsWith_nip nip_prefixes.2 hp
    simp [hs, parseJson_nip]

theorem unpacked_iff (h : Inv x sk db) :
    Unpacked x sk db ↔ ∀ row ∈ db, startsWith encPackedPrefix row.eck_json = false := by
  refine forall₂_congr fun row hr => ?_
  obtain ⟨-, ⟨eck, he, heck⟩⟩ := h row hr
  constructor
  · intro hall
    refine Bool.eq_false_iff.mpr fun hp => ?_
    obtain ⟨hcol, hbig⟩ := (packed_iff heck).mp hp
    exact hbig (hall eck he hcol)
  · intro hp eck' hw hcol
    by_contra hbig
    rw [hcol, protect_packed hbig, startsWith_append] at hp
    exact Bool.false_ne_true hp.symm

theorem proven_iff (hx : x.RoundTrips) (h : Inv x sk db) : proveDecrypts x sk db = some db.length ↔ Unpacked x sk db := by
  rw [unpacked_iff h]
  have hall : db.all (decrypts (decryptColumn x sk)) = true ↔ ∀ row ∈ db, startsWith encPackedPrefix row.eck_json = false :=
    List.all_eq_true.trans (forall₂_congr fun row hr => decrypts_iff hx (h row hr))
  rw [← hall]
  unfold proveDecrypts proven
  split
  · next ha => simp [ha]
  · next ha => simp [ha]

theorem inspect_iff (hx : x.RoundTrips) (h : Inv x sk db) :
    inspectDatabaseReadOnly x (some sk) db = some (some db.length) ↔ Unpacked x sk db := by
  rw [← proven_iff hx h]
  have he : inspectDatabaseReadOnly x (some sk) db = (proveDecrypts x sk db).map some := rfl
  rw [he]
  cases proveDecrypts x sk db <;> simp

/-- Every format is readable by every reader. -/
structure Readable (x : Crypto κ) (sk : κ) (value : JsString) (db : List EventRow) : Prop where
  roundTrip : reveal x (some sk) (protect x (some sk) value) = some value
  verified : verifyProtectedRowsDecrypt x (some sk) db = some db.length
  inspected : inspectDatabaseReadOnly x (some sk) db = some (some db.length)
  proven : proveDecrypts x sk db = some db.length
  startups : ∀ n, ∃ db', startups x sk db n = some db' ∧ ∀ c, getEvent x (some sk) db' c = getEvent x (some sk) db c

/-- **Every at-rest format is readable by every reader**, exactly where the
value has no lone surrogate and no row's ECK list is over 60000 bytes. -/
theorem readable_iff (hx : x.RoundTrips) {as : List Act} (hv : ∀ a ∈ as, a.Valid) (h : Run (Step x sk) [] as db) :
    Readable x sk v db ↔ WellFormed v ∧ Unpacked x sk db := by
  have hinv : Inv x sk db := Inv.run hx hv h fun _ hr => absurd hr List.not_mem_nil
  constructor
  · intro hr
    exact ⟨(reveal_protect_iff hx).mp hr.roundTrip, (proven_iff hx hinv).mp hr.proven⟩
  · rintro ⟨hw, hu⟩
    exact {
      roundTrip := (reveal_protect_iff hx).mpr hw
      verified := verify_of_sound hx hinv
      inspected := (inspect_iff hx hinv).mpr hu
      proven := (proven_iff hx hinv).mpr hu
      startups := fun n => startups_spec hx n hinv }

/-! ## A full list -/

/-- The bytes that hex digits write. -/
def unhex : JsString → List UInt8
  | a :: b :: s => UInt8.ofNat (16 * hexValue a + hexValue b) :: unhex s
  | _ => []

theorem unhex_bytesToHex (bytes : List UInt8) : unhex (bytesToHex bytes) = bytes := by
  induction bytes with
  | nil => rfl
  | cons b bytes ih =>
    have hb := UInt8.toNat_lt b
    have hcons : bytesToHex (b :: bytes) = hexUnit (b.toNat / 16) :: hexUnit (b.toNat % 16) :: bytesToHex bytes := rfl
    rw [hcons, unhex, ih, hexValue_hexUnit _ (by omega), hexValue_hexUnit _ (by omega), Nat.div_add_mod, UInt8.ofNat_toNat]

/-- Texts in hex for encrypted ones, and one more digit for compressed ones. -/
def hexCrypto : Crypto Unit where
  encrypt _ bytes := bytesToHex bytes.data.toList
  decrypt _ s := some ⟨(unhex s).toArray⟩
  compress bytes := 48 :: bytesToHex bytes.data.toList
  decompress s := some ⟨(unhex (s.drop 1)).toArray⟩

theorem hexCrypto_roundTrips : hexCrypto.RoundTrips where
  decrypt_encrypt sk bytes := by simp [hexCrypto, unhex_bytesToHex]
  decompress_compress bytes := by simp [hexCrypto, unhex_bytesToHex]
  encrypt_base64 sk bytes c hc := by
    have := List.all_eq_true.mp (isLowerHex_bytesToHex bytes.data.toList) c hc
    rintro rfl
    exact absurd this (by decide)
  compress_base64 bytes := by
    have h : isAscii (bytesToHex bytes.data.toList) = true := by
      refine List.all_eq_true.mpr fun c hc => ?_
      have := List.all_eq_true.mp (isLowerHex_bytesToHex bytes.data.toList) c hc
      simp only [isLowerHexDigit, Bool.or_eq_true, Bool.and_eq_true, decide_eq_true_eq] at this ⊢
      omega
    exact h
  compress_ne_nil bytes := List.cons_ne_nil _ _

/-- 32 bytes in base64. -/
def keyText : JsString := List.replicate 43 65 ++ [61]

/-- `n` versions, from 1 on. -/
def versions (n : Nat) : List (EckVersion JsString) := (List.range n).map fun i => ⟨i + 1, keyText⟩

theorem valid_versions {n : Nat} (hn : n ≤ 1024) : ∀ w ∈ versions n, ValidVersion w := by
  intro w hw
  obtain ⟨i, hi, rfl⟩ := List.mem_map.mp hw
  have hi := List.mem_range.mp hi
  have hlimit : 1024 < numberLimit := by decide +kernel
  have hkey : base64Bytes 32 keyText = true := by decide
  have hlog : (i + 1).log2 < 11 := by
    rw [Nat.log2_lt (Nat.succ_ne_zero i)]
    omega
  have hpow : (i + 1).log2 - 52 = 0 := by omega
  have hint : isNumberInt ((i + 1 : Nat) : Int) = true := decide_eq_true (by omega)
  have hlt : i + 1 < numberLimit := by omega
  refine ⟨?_, hlt, ?_⟩
  · unfold EckIdentity.eckVersionSchema
    rw [hint, hkey]
    simp
  · rw [hpow, pow_zero]
    exact Nat.one_dvd _

/-- The keys of an event with the versions `1, ..., n`. -/
def input (n : Nat) : EventInput :=
  ⟨js "31923:e:d", js "{}", List.replicate 64 97, eckJson (versions n), js "[]", none, 0⟩

theorem eckJson_input (n : Nat) : (input n).eckJson = eckJson (versions n) := rfl

theorem valid_input {n : Nat} (hn : n ≤ 1024) : ∀ a ∈ [Act.upsertEvent true (input n)], a.Valid := by
  intro a ha
  rw [List.mem_singleton.mp ha]
  have hhex : isHex64 (List.replicate 64 97) = true := by decide
  exact ⟨hhex, versions n, valid_versions hn, rfl⟩

/-- The table with that event. -/
def table (n : Nat) : List EventRow := [written hexCrypto (some ()) (input n) 0]

theorem run_table (n : Nat) : Run (Step hexCrypto ()) [] [.upsertEvent true (input n)] (table n) := .cons rfl .nil

theorem length_table (n : Nat) : (table n).length = 1 := rfl

theorem length_joinComma : ∀ {ps : List JsString}, (∀ p ∈ ps, 60 ≤ p.length) → 60 * ps.length ≤ (joinComma ps).length
  | [], _ => Nat.zero_le _
  | [p], h => h p List.mem_cons_self
  | p :: q :: ps, h => by
    have ih := length_joinComma fun r hr => h r (List.mem_cons_of_mem p hr)
    have hp := h p List.mem_cons_self
    simp only [joinComma, List.length_append, List.length_cons] at ih ⊢
    omega

theorem length_versions (n : Nat) : (versions n).length = n := by simp [versions]

/-- 1024 versions are more than 60000 bytes. -/
theorem large_versions : 60000 < (eckJson (versions 1024)).length := by
  have hlen : ∀ p ∈ (versions 1024).map versionText, 60 ≤ p.length := by
    intro p hp
    obtain ⟨w, hw, rfl⟩ := List.mem_map.mp hp
    obtain ⟨i, -, rfl⟩ := List.mem_map.mp hw
    have hkey : keyText.length = 44 := by decide
    have hid : (js "id").length = 2 := by decide
    have hname : (js "key").length = 3 := by decide
    simp only [versionText, List.length_cons, List.length_append, List.length_nil, hkey, hid, hname]
    omega
  have hjoin := length_joinComma hlen
  rw [List.length_map, length_versions] at hjoin
  rw [eckJson_eq (valid_versions le_rfl), List.length_cons, List.length_append]
  omega

/-- An event with 1024 keys: the store reads it, the health check and the
backup fail. -/
theorem full_list : Run (Step hexCrypto ()) [] [.upsertEvent true (input 1024)] (table 1024) ∧
    verifyProtectedRowsDecrypt hexCrypto (some ()) (table 1024) = some 1 ∧
    inspectDatabaseReadOnly hexCrypto (some ()) (table 1024) ≠ some (some 1) ∧
    proveDecrypts hexCrypto () (table 1024) ≠ some 1 := by
  have hinv : Inv hexCrypto () (table 1024) :=
    Inv.run hexCrypto_roundTrips (valid_input le_rfl) (run_table 1024) fun _ hr => absurd hr List.not_mem_nil
  have hpacked : ¬ Unpacked hexCrypto () (table 1024) := by
    intro hu
    have hsize := hu _ (List.mem_singleton_self _) _ (valid_versions le_rfl) eck_json_written
    rw [size_utf8ToBytes (ascii_eckJson (valid_versions le_rfl))] at hsize
    exact absurd large_versions (by omega)
  have hverify := verify_of_sound hexCrypto_roundTrips hinv
  have hinspect := mt (inspect_iff hexCrypto_roundTrips hinv).mp hpacked
  have hprove := mt (proven_iff hexCrypto_roundTrips hinv).mp hpacked
  rw [length_table] at hverify hinspect hprove
  exact ⟨run_table 1024, hverify, hinspect, hprove⟩

theorem readable_iff_one : Readable hexCrypto () (js "state") (table 1) := by
  refine (readable_iff hexCrypto_roundTrips (valid_input (by decide)) (run_table 1)).mpr ⟨wellFormed_js "state", ?_⟩
  have hinv : Inv hexCrypto () (table 1) :=
    Inv.run hexCrypto_roundTrips (valid_input (by decide)) (run_table 1) fun _ hr => absurd hr List.not_mem_nil
  have hsmall : Small (eckJson (versions 1)) := by
    unfold Small
    rw [size_utf8ToBytes (ascii_eckJson (valid_versions (by decide)))]
    decide +kernel
  rw [unpacked_iff hinv]
  intro row hr
  rw [List.mem_singleton.mp hr]
  rw [eck_json_written, eckJson_input, protect_small hsmall]
  exact (prefixes_differ _).1

end Nostrautica.AtRest
