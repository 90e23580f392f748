/-
`URLSearchParams`: the form encoding, read by pieces between `&` and written back.
-/
import Nostrautica.Coding.Lines
import Nostrautica.Js.Cut

namespace Js.SearchParams

open Nostrautica.Lines (splitOn_append not_mem_of_mem_splitOn)

/-! ## Bytes -/

/-- The UTF-8 bytes of a string, those of U+FFFD for a lone surrogate. -/
def utf8 (s : JsString) : List UInt8 := (codePoints s).flatMap String.utf8EncodeChar

def hexDigit (b : UInt8) : Option Nat :=
  let n := b.toNat
  if 48 ≤ n ∧ n ≤ 57 then some (n - 48) else if 65 ≤ n ∧ n ≤ 70 then some (n - 55) else if 97 ≤ n ∧ n ≤ 102 then some (n - 87) else none

/-- The byte of a percent escape. -/
def escaped (c d : UInt8) : Option UInt8 :=
  (hexDigit c).bind fun m => (hexDigit d).map fun n => UInt8.ofNat (16 * m + n)

def percentDecode : List UInt8 → List UInt8
  | b :: c :: d :: rest =>
    if b = 37 then
      match escaped c d with
      | some e => e :: percentDecode rest
      | none => b :: percentDecode (c :: d :: rest)
    else b :: percentDecode (c :: d :: rest)
  | rest => rest

/-- A code point of which bytes are missing: how many, its bits so far, and the continuation bytes allowed next, from 0x80 on. -/
structure Pending where
  needed : Nat
  bits : Nat
  low : Nat := 0
  high : Nat := 0x3F

/-- A byte that begins a code point, or is none. -/
def start (b : UInt8) : JsString × Option Pending :=
  let n := b.toNat
  if n < 0x80 then ([codeUnit n], none)
  else if 0xC2 ≤ n ∧ n ≤ 0xDF then ([], some { needed := 1, bits := n % 32 })
  else if 0xE0 ≤ n ∧ n ≤ 0xEF then
    ([], some { needed := 2, bits := n % 16, low := if n = 0xE0 then 0x20 else 0, high := if n = 0xED then 0x1F else 0x3F })
  else if 0xF0 ≤ n ∧ n ≤ 0xF4 then
    ([], some { needed := 3, bits := n % 8, low := if n = 0xF0 then 0x10 else 0, high := if n = 0xF4 then 0x0F else 0x3F })
  else ([0xFFFD], none)

def step : Option Pending → UInt8 → JsString × Option Pending
  | none, b => start b
  | some p, b =>
    if 0x80 + p.low ≤ b.toNat ∧ b.toNat ≤ 0x80 + p.high then
      if p.needed = 1 then (unitsOfChar (Char.ofNat (p.bits * 64 + b.toNat % 64)), none)
      else ([], some { needed := p.needed - 1, bits := p.bits * 64 + b.toNat % 64 })
    else (0xFFFD :: (start b).1, (start b).2)

/-- UTF-8 decode without BOM: what is no code point is replaced by U+FFFD. -/
def decodeFrom : Option Pending → List UInt8 → JsString
  | none, [] => []
  | some _, [] => [0xFFFD]
  | p, b :: rest => (step p b).1 ++ decodeFrom (step p b).2 rest

def plusToSpace (b : UInt8) : UInt8 := if b = 43 then 32 else b

/-- A name or a value, as it stands in a piece. -/
def decode (s : JsString) : JsString := decodeFrom none (percentDecode ((utf8 s).map plusToSpace))

def upperHex (n : Nat) : CodeUnit := codeUnit (if n < 10 then 48 + n else 55 + n)

def encodeByte (b : UInt8) : JsString :=
  let n := b.toNat
  if n = 32 then [43]
  else if (48 ≤ n ∧ n ≤ 57) ∨ (65 ≤ n ∧ n ≤ 90) ∨ (97 ≤ n ∧ n ≤ 122) ∨ n = 42 ∨ n = 45 ∨ n = 46 ∨ n = 95 then [codeUnit n]
  else [37, upperHex (n / 16), upperHex (n % 16)]

def encode (s : JsString) : JsString := (utf8 s).flatMap encodeByte

/-! ## Parameters -/

/-- The parameter of a piece. -/
def pairOf (piece : JsString) : JsString × JsString :=
  (decode (piece.takeWhile (· ≠ 61)), decode ((piece.dropWhile (· ≠ 61)).drop 1))

/-- A `?` at the start of a query is left out. -/
def withoutMark : JsString → JsString
  | [] => []
  | c :: s => if c = 63 then s else c :: s

def pieces (query : JsString) : List JsString := ((withoutMark query).splitOn 38).filter (· ≠ [])

/-- `new URLSearchParams(query)`. -/
def parse (query : JsString) : List (JsString × JsString) := (pieces query).map pairOf

/-- `params.get(name)`. -/
def get (params : List (JsString × JsString)) (name : JsString) : Option JsString := (params.find? (·.1 = name)).map Prod.snd

/-- `params.has(name)`. -/
def has (params : List (JsString × JsString)) (name : JsString) : Bool := params.any (·.1 = name)

/-- `params.delete(name)`. -/
def delete (params : List (JsString × JsString)) (name : JsString) : List (JsString × JsString) := params.filter (·.1 ≠ name)

def pieceOf (p : JsString × JsString) : JsString := encode p.1 ++ 61 :: encode p.2

/-- `params.toString()`. -/
def toString (params : List (JsString × JsString)) : JsString := [(38 : CodeUnit)].intercalate (params.map pieceOf)

/-! ## An ASCII unit among others -/

variable {s t : JsString} {c : CodeUnit} {b d : UInt8} {bs ds : List UInt8}

theorem unitChar_ascii (hc : c.val < 128) : unitChar c = Char.ofNat c.val := by
  obtain ⟨hh, hl⟩ := not_surrogate_of_ascii hc
  rw [unitChar, hh, hl]
  rfl

theorem cut_ascii (hc : c.val < 128) (s t : JsString) : Cut s (c :: t) ∧ Cut [c] t := by
  obtain ⟨hh, hl⟩ := not_surrogate_of_ascii hc
  constructor
  · intro h _ l hl'
    have hlc : c = l := Option.some.inj hl'
    rw [← hlc, hl, Bool.and_false]
  · intro h hh' l _
    have hhc : c = h := Option.some.inj hh'
    rw [← hhc, hh]
    rfl

theorem utf8EncodeChar_ascii {n : Nat} (hn : n < 128) : String.utf8EncodeChar (Char.ofNat n) = [UInt8.ofNat n] := by
  revert n
  decide +kernel

theorem utf8_ascii (hc : c.val < 128) (s t : JsString) : utf8 (s ++ c :: t) = utf8 s ++ UInt8.ofNat c.val :: utf8 t := by
  obtain ⟨h1, h2⟩ := cut_ascii hc s t
  have hone : codePoints (c :: t) = unitChar c :: codePoints t := codePoints_append (p := [c]) h2
  unfold utf8
  rw [codePoints_append h1, hone, List.flatMap_append, List.flatMap_cons, unitChar_ascii hc, utf8EncodeChar_ascii hc, List.singleton_append]

theorem percentDecode_cons (hb : b ≠ 37) (bs : List UInt8) : percentDecode (b :: bs) = b :: percentDecode bs := by
  cases bs with
  | nil => rfl
  | cons c bs =>
    cases bs with
    | nil => rfl
    | cons d bs => rw [percentDecode, if_neg hb]

theorem percentDecode_short (hb : hexDigit d = none) (hd : d ≠ 37) (c : UInt8) (ds : List UInt8) :
    percentDecode (37 :: d :: ds) = 37 :: d :: percentDecode ds ∧ percentDecode (37 :: c :: d :: ds) = 37 :: percentDecode (c :: d :: ds) := by
  constructor
  · cases ds with
    | nil => rfl
    | cons e ds =>
      have hno : escaped d e = none := by rw [escaped, hb, Option.bind_none]
      rw [percentDecode, if_pos rfl, hno]
      dsimp only
      rw [percentDecode_cons hd]
  · have hno : escaped c d = none := by
      rw [escaped, hb]
      cases hexDigit c <;> rfl
    rw [percentDecode, if_pos rfl, hno]

/-- A byte that is no hex digit and begins no escape is between what is decoded before and after it. -/
theorem percentDecode_append (hb : hexDigit d = none) (hd : d ≠ 37) (ds : List UInt8) : ∀ bs : List UInt8,
    percentDecode (bs ++ d :: ds) = percentDecode bs ++ d :: percentDecode ds
  | [] => percentDecode_cons hd ds
  | [b] => by
    by_cases h : b = 37
    · rw [h]
      exact (percentDecode_short hb hd 0 ds).1
    · rw [List.singleton_append, percentDecode_cons h, percentDecode_cons hd]
      rfl
  | [b, c] => by
    have hc : percentDecode (c :: d :: ds) = c :: d :: percentDecode ds := percentDecode_append hb hd ds [c]
    by_cases h : b = 37
    · rw [h]
      have hshort := (percentDecode_short hb hd c ds).2
      rw [hc] at hshort
      exact hshort
    · rw [List.cons_append, List.singleton_append, percentDecode_cons h, hc]
      rfl
  | b :: c :: e :: rest => by
    have hrest := percentDecode_append hb hd ds rest
    have hmore := percentDecode_append hb hd ds (c :: e :: rest)
    rw [List.cons_append, List.cons_append] at hmore
    rw [List.cons_append, List.cons_append, List.cons_append]
    by_cases h : b = 37
    · rw [percentDecode, percentDecode, if_pos h, if_pos h]
      cases escaped c e with
      | some f =>
        dsimp only
        rw [hrest]
        rfl
      | none =>
        dsimp only
        rw [hmore]
        rfl
    · rw [percentDecode_cons h, percentDecode_cons h, hmore]
      rfl

theorem step_ascii (hb : b.toNat < 0x80) (p : Option Pending) : step p b = (decodeFrom p [] ++ [codeUnit b.toNat], none) := by
  have hstart : start b = ([codeUnit b.toNat], none) := if_pos hb
  cases p with
  | none =>
    rw [step, hstart]
    rfl
  | some p =>
    rw [step, if_neg (by omega), hstart]
    rfl

/-- An ASCII byte is no part of what is around it. -/
theorem decodeFrom_append (hb : b.toNat < 0x80) (ds : List UInt8) : ∀ (bs : List UInt8) (p : Option Pending),
    decodeFrom p (bs ++ b :: ds) = decodeFrom p bs ++ codeUnit b.toNat :: decodeFrom none ds
  | [], p => by
    rw [List.nil_append, decodeFrom, step_ascii hb, List.append_assoc]
    rfl
  | c :: bs, p => by
    rw [List.cons_append, decodeFrom, decodeFrom, decodeFrom_append hb ds bs, List.append_assoc]

theorem codeUnit_val (c : CodeUnit) : codeUnit c.val = c := Fin.ext (Nat.mod_eq_of_lt c.isLt)

def Alphanumeric (c : CodeUnit) : Prop := (48 ≤ c.val ∧ c.val ≤ 57) ∨ (65 ≤ c.val ∧ c.val ≤ 90) ∨ (97 ≤ c.val ∧ c.val ≤ 122)

instance : DecidablePred Alphanumeric := fun c =>
  inferInstanceAs (Decidable ((48 ≤ c.val ∧ c.val ≤ 57) ∨ (65 ≤ c.val ∧ c.val ≤ 90) ∨ (97 ≤ c.val ∧ c.val ≤ 122)))

/-- A letter or a digit is read as itself. -/
theorem decode_cons (hc : Alphanumeric c) (t : JsString) : decode (c :: t) = c :: decode t := by
  unfold Alphanumeric at hc
  have hnat : (UInt8.ofNat c.val).toNat = c.val := by
    rw [UInt8.toNat_ofNat']
    omega
  have hne : ∀ m : UInt8, m.toNat = 43 ∨ m.toNat = 37 → UInt8.ofNat c.val ≠ m := by
    intro m hm he
    rw [he] at hnat
    omega
  have hu := utf8_ascii (show c.val < 128 by omega) [] t
  have hd := decodeFrom_append (b := UInt8.ofNat c.val) (by omega) (percentDecode ((utf8 t).map plusToSpace)) [] none
  rw [List.nil_append, hnat, codeUnit_val] at hd
  rw [decode, show utf8 (c :: t) = UInt8.ofNat c.val :: utf8 t from hu, List.map_cons, plusToSpace, if_neg (hne 43 (.inl rfl)),
    percentDecode_cons (hne 37 (.inr rfl)), hd]
  rfl

/-- A `=` is between what is decoded before and after it. -/
theorem decode_equals (s t : JsString) : decode (s ++ 61 :: t) = decode s ++ 61 :: decode t := by
  have hu : utf8 (s ++ 61 :: t) = utf8 s ++ 61 :: utf8 t := utf8_ascii (show (61 : CodeUnit).val < 128 by decide) s t
  have hplus : plusToSpace 61 = 61 := by decide
  rw [decode, hu, List.map_append, List.map_cons, hplus, percentDecode_append (by decide) (by decide), decodeFrom_append (by decide)]
  rfl

/-- What a letter is decoded to at the start of a value or after a `=` depends on the letter. -/
theorem decode_after {w : JsString} (hw : w = [] ∨ ∃ u, w = u ++ [61]) (t : JsString) :
    ∃ x y, ∀ c : CodeUnit, 97 ≤ c.val ∧ c.val ≤ 122 → decode (w ++ c :: t) = x ++ c :: y := by
  rcases hw with rfl | ⟨u, rfl⟩
  · exact ⟨[], decode t, fun c hc => decode_cons (.inr (.inr hc)) t⟩
  · refine ⟨decode u ++ [61], decode t, fun c hc => ?_⟩
    rw [List.append_assoc, List.singleton_append, decode_equals, decode_cons (.inr (.inr hc)), List.append_assoc]
    rfl

/-- Letters and digits are read as they are. -/
theorem decode_plain : ∀ {s : JsString}, (∀ c ∈ s, Alphanumeric c) → decode s = s
  | [], _ => rfl
  | c :: s, h => by rw [decode_cons (h c List.mem_cons_self), decode_plain fun d hd => h d (List.mem_cons_of_mem c hd)]

/-! ## What is written -/

theorem encode_letter (hc : 97 ≤ c.val ∧ c.val ≤ 122) (s t : JsString) : encode (s ++ c :: t) = encode s ++ c :: encode t := by
  have hnat : (UInt8.ofNat c.val).toNat = c.val := by
    rw [UInt8.toNat_ofNat']
    omega
  have hbyte : encodeByte (UInt8.ofNat c.val) = [c] := by
    unfold encodeByte
    rw [hnat]
    dsimp only
    rw [if_neg (by omega), if_pos (by omega), codeUnit_val]
  unfold encode
  rw [utf8_ascii (by omega), List.flatMap_append, List.flatMap_cons, hbyte, List.singleton_append]

theorem encodeByte_plain (b : UInt8) : (38 : CodeUnit) ∉ encodeByte b := by
  have hb := b.toNat_lt
  have hval : ∀ n : Nat, n < 65536 → n ≠ 38 → (38 : CodeUnit) ≠ codeUnit n := by
    intro n hn hne he
    have hv := congrArg Fin.val he
    rw [val_codeUnit hn] at hv
    exact hne hv.symm
  have hhex : ∀ n < 16, (38 : CodeUnit) ≠ upperHex n := by
    intro n hn
    unfold upperHex
    split_ifs
    · exact hval _ (by omega) (by omega)
    · exact hval _ (by omega) (by omega)
  unfold encodeByte
  dsimp only
  split_ifs with h1 h2
  · decide
  · simp only [List.mem_singleton]
    exact hval _ (by omega) (by omega)
  · simp only [List.mem_cons, List.not_mem_nil, or_false, not_or]
    exact ⟨by decide, hhex _ (by omega), hhex _ (by omega)⟩

theorem pieceOf_plain (p : JsString × JsString) : (38 : CodeUnit) ∉ pieceOf p := by
  have hencode : ∀ s, (38 : CodeUnit) ∉ encode s := by
    intro s hs
    obtain ⟨b, -, hb⟩ := List.mem_flatMap.mp hs
    exact encodeByte_plain b hb
  unfold pieceOf
  rw [List.mem_append, List.mem_cons]
  intro h
  rcases h with h | h | h
  · exact hencode _ h
  · exact absurd h (by decide)
  · exact hencode _ h

/-- As many pieces are written as there are parameters. -/
theorem length_splitOn_toString {params : List (JsString × JsString)} (hne : params ≠ []) : ((toString params).splitOn 38).length = params.length := by
  unfold toString
  rw [List.splitOn_intercalate _ (fun l hl => ?_) (by simpa using hne), List.length_map]
  obtain ⟨p, -, rfl⟩ := List.mem_map.mp hl
  exact pieceOf_plain p

/-- The query that is left of some of the parameters is not the query. -/
theorem toString_ne {query : JsString} {params : List (JsString × JsString)} (hlt : params.length < (parse query).length) (hne : params ≠ []) :
    toString params ≠ query := by
  intro he
  have hcount := length_splitOn_toString hne
  rw [he] at hcount
  have hle : (parse query).length ≤ (query.splitOn 38).length := by
    unfold parse pieces
    rw [List.length_map]
    refine (List.length_filter_le _ _).trans ?_
    cases query with
    | nil => exact Nat.le_refl _
    | cons c s =>
      rw [withoutMark]
      split_ifs with hc
      · rw [hc, List.splitOn_cons_eq_if_modifyHead]
        simp
      · exact Nat.le_refl _
  omega

end Js.SearchParams
