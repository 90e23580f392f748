/-
`JsJson.kt` of `android/protocol`, what JavaScript's `JSON.stringify` writes of the same value, and
`NostrEvent.computeId`.

A JavaScript object lists its array indices first, in ascending order, and then its other keys
in the order in which they were added.

`JsJson.stringify` writes what `JSON.stringify` writes where no object of the value has an array
index out of order (`stringify_eq_iff`), and the text of an id always is the web's.
-/
import Nostrautica.Android.GiftWrap
import Nostrautica.Js.JsonParse
import Nostrautica.Js.StringifyFacts

namespace Nostrautica.Android.JsJson

open Js
open Nostrautica.Android.Roster (longToString)
open Nostrautica.Android.GiftWrap (Element)

/-! ## JavaScript -/

/-- The number that an array index names: decimal digits of a number below `2 ^ 32 - 1`, without a zero before them. -/
def arrayIndex (key : JsString) : Option Nat :=
  if key ≠ [] ∧ key.all isDigit ∧ (key.head? ≠ some 48 ∨ key.length = 1) ∧ digitsValue key < 2 ^ 32 - 1 then some (digitsValue key) else none

/-- The properties of an object, added in the order of `fields`, in the order in which it lists them. -/
def listed {α : Type} (fields : List (JsString × α)) : List (JsString × α) :=
  (fields.filter fun f => (arrayIndex f.1).isSome).insertionSort (fun f g => (arrayIndex f.1).getD 0 ≤ (arrayIndex g.1).getD 0) ++
    fields.filter fun f => (arrayIndex f.1).isNone

mutual

/-- A value with the properties of its objects as they are listed. -/
def value : Json → Json
  | .arr elems => .arr (valueElems elems)
  | .obj fields => .obj (listed (valueFields fields))
  | j => j

def valueElems : List Json → List Json
  | [] => []
  | j :: rest => value j :: valueElems rest

def valueFields : List (JsString × Json) → List (JsString × Json)
  | [] => []
  | (k, j) :: rest => (k, value j) :: valueFields rest

end

/-- `JSON.stringify` of a value whose properties were added in the order of the fields. -/
def jsonStringify (j : Json) : JsString := stringify (value j)

/-! ## Kotlin -/

/-- What is used of `kotlinx.serialization`'s primitives, and of `Double`. -/
structure Primitives where
  booleanOrNull : JsString → Option Bool
  longOrNull : JsString → Option Int
  doubleOrNull : JsString → Option Number
  /-- `d.toString()` -/
  doubleToString : Number → JsString

/-- A unit of `appendQuoted` that is not half of a pair. -/
def appendUnit (c : CodeUnit) : JsString :=
  if c.val = 0x22 then js "\\\""
  else if c.val = 0x5C then js "\\\\"
  else if c.val = 10 then js "\\n"
  else if c.val = 13 then js "\\r"
  else if c.val = 9 then js "\\t"
  else if c.val = 8 then js "\\b"
  else if c.val = 12 then js "\\f"
  else if c.val < 0x20 then unicodeEscape c
  else if isHighSurrogate c then unicodeEscape c
  else if isLowSurrogate c then unicodeEscape c
  else [c]

/-- The loop of `appendQuoted`. -/
def appendUnits : JsString → JsString
  | [] => []
  | [c] => appendUnit c
  | c :: d :: s => if isHighSurrogate c && isLowSurrogate d then c :: d :: appendUnits s else appendUnit c ++ appendUnits (d :: s)

def appendQuoted (s : JsString) : JsString := 0x22 :: (appendUnits s ++ [0x22])

/-- `d.toLong()` of an integer. -/
def toLong (n : Int) : Int := max (-2 ^ 63) (min n (2 ^ 63 - 1))

section

variable (P : Primitives)

/-- `formatNumber(d)`; `none` where it throws. -/
def formatNumber (d : Number) : Option JsString :=
  match d with
  | .finite _ _ _ =>
    match d.toInt? with
    | some n => some (if n.natAbs < 10 ^ 21 then longToString (toLong n) else P.doubleToString d)
    | none => some (P.doubleToString d)
  | _ => none

/-- A primitive that is no `JsonNull`. -/
def writePrimitive (content : JsString) (isString : Bool) : Option JsString :=
  if isString then some (appendQuoted content)
  else if (P.booleanOrNull content).isSome then some content
  else match P.longOrNull content with
    | some n => some (longToString n)
    | none => (P.doubleOrNull content).bind (formatNumber P)

mutual

/-- `write(sb, e)`, what it appends; `none` where it throws. -/
def write : Element → Option JsString
  | .primitive content isString => if isString = false ∧ content = js "null" then some (js "null") else writePrimitive P content isString
  | .arr elems => (writeElems elems).map fun parts => js "[" ++ joinComma parts ++ js "]"
  | .obj members => (writeMembers members).map fun parts => js "\x7b" ++ joinComma parts ++ js "\x7d"

def writeElems : List Element → Option (List JsString)
  | [] => some []
  | e :: rest => do
    let part ← write e
    let parts ← writeElems rest
    some (part :: parts)

def writeMembers : List (JsString × Element) → Option (List JsString)
  | [] => some []
  | (k, e) :: rest => do
    let part ← write e
    let parts ← writeMembers rest
    some ((appendQuoted k ++ js ":" ++ part) :: parts)

end

end

/-! ## Ids -/

/-- The text that `NostrEvent.computeId` hashes. -/
def idText (pubkey : JsString) (createdAt kind : Int) (tags : List (List JsString)) (content : JsString) : JsString :=
  js "[0," ++ appendQuoted pubkey ++ js "," ++ longToString createdAt ++ js "," ++ longToString kind ++ js ",[" ++
    joinComma (tags.map fun tag => js "[" ++ joinComma (tag.map appendQuoted) ++ js "]") ++ js "]," ++ appendQuoted content ++ js "]"

/-- `NostrEvent.computeId`, from the SHA-256 of a text's UTF-8 bytes in hex. -/
def computeId (sha256Hex : JsString → JsString) (pubkey : JsString) (createdAt kind : Int) (tags : List (List JsString)) (content : JsString) :
    JsString := sha256Hex (idText pubkey createdAt kind tags content)

variable {P : Primitives} {s : JsString} {j : Json} {n : Int}

/-! ## Strings and integers -/

theorem appendUnit_eq (c : CodeUnit) : appendUnit c = escapeUnit c := by
  unfold appendUnit escapeUnit
  by_cases h22 : c.val = 0x22
  · rw [if_pos h22, if_pos h22]
  by_cases h5c : c.val = 0x5C
  · rw [if_neg h22, if_neg h22, if_pos h5c, if_pos h5c]
  rw [if_neg h22, if_neg h22, if_neg h5c, if_neg h5c]
  by_cases hlow : c.val < 0x20
  · split_ifs <;> first | rfl | omega | simp_all
  · have h8 : c.val ≠ 8 := by omega
    have h9 : c.val ≠ 9 := by omega
    have h10 : c.val ≠ 10 := by omega
    have h12 : c.val ≠ 12 := by omega
    have h13 : c.val ≠ 13 := by omega
    simp only [h8, h9, h10, h12, h13, hlow, if_false, decide_false, Bool.false_or]
    cases isHighSurrogate c <;> cases isLowSurrogate c <;> rfl

theorem appendUnits_eq (s : JsString) : appendUnits s = quoteUnits s := by
  fun_induction appendUnits s with
  | case1 => rfl
  | case2 c => rw [quoteUnits, appendUnit_eq]
  | case3 c d s hpair ih => rw [quoteUnits, if_pos hpair, ih]
  | case4 c d s hpair ih => rw [quoteUnits, if_neg hpair, ih, appendUnit_eq]

theorem appendQuoted_eq (s : JsString) : appendQuoted s = quote s := by
  rw [appendQuoted, appendUnits_eq, quote, List.append_assoc]
  rfl

theorem longToString_eq (h : n.natAbs < 2 ^ 53) : longToString n = intToString n := by
  cases n with
  | ofNat m =>
    by_cases h0 : m = 0
    · subst h0
      rfl
    · rw [longToString, if_neg (by simp), if_neg (by simpa using h0), List.nil_append]
      exact (natToString_eq_decimal h0 h).symm
  | negSucc m =>
    rw [longToString, if_pos (Int.negSucc_lt_zero m), if_neg (Int.negSucc_ne_zero m)]
    exact congrArg (js "-" ++ ·) (natToString_eq_decimal (Nat.succ_ne_zero m) h).symm

/-! ## Trees -/

/-- A text that is a JSON number of a safe integer. -/
structure IsLiteral (content : JsString) (n : Int) : Prop where
  number : Parse.number content = some (content, [])
  value : (toNumber content).toInt? = some n
  safe : n.natAbs < 2 ^ 53

/-- What is relied on of the primitives: a boolean is `true` or `false`, a `long` is the number, where
there is one, and a `double` is the number that JavaScript reads. -/
structure Primitives.Documented (P : Primitives) : Prop where
  boolean : ∀ b : Bool, (P.booleanOrNull (js (if b then "true" else "false"))).isSome = true
  noBoolean : ∀ {content n}, IsLiteral content n → P.booleanOrNull content = none
  long : ∀ {content n m}, IsLiteral content n → P.longOrNull content = some m → m = n
  double : ∀ {content n}, IsLiteral content n → P.doubleOrNull content = some (toNumber content)

mutual

/-- A tree that holds a value, its members in the order of the value's fields. -/
def Holds : Element → Json → Prop
  | .primitive content false, .null => content = js "null"
  | .primitive content false, .bool b => content = js (if b then "true" else "false")
  | .primitive content false, .num n => IsLiteral content n
  | .primitive content true, .str s => content = s
  | .arr elems, .arr values => HoldsElems elems values
  | .obj members, .obj fields => HoldsMembers members fields
  | _, _ => False

def HoldsElems : List Element → List Json → Prop
  | [], [] => True
  | e :: elems, j :: values => Holds e j ∧ HoldsElems elems values
  | _, _ => False

def HoldsMembers : List (JsString × Element) → List (JsString × Json) → Prop
  | [], [] => True
  | (k, e) :: members, (l, j) :: fields => k = l ∧ Holds e j ∧ HoldsMembers members fields
  | _, _ => False

end

theorem toLong_eq (h : n.natAbs < 2 ^ 53) : toLong n = n := by
  unfold toLong
  omega

theorem formatNumber_eq {d : Number} (hd : d.toInt? = some n) (h : n.natAbs < 2 ^ 53) : formatNumber P d = some (intToString n) := by
  cases d with
  | finite neg m e =>
    have hlt : n.natAbs < 10 ^ 21 := h.trans (by decide)
    simp only [formatNumber, hd]
    rw [if_pos hlt, toLong_eq h, longToString_eq h]
  | nan => cases hd
  | infinity neg => cases hd

theorem writePrimitive_literal (hP : P.Documented) {content : JsString} (h : IsLiteral content n) :
    writePrimitive P content false = some (intToString n) := by
  rw [writePrimitive, if_neg Bool.false_ne_true, hP.noBoolean h, if_neg (by decide)]
  cases hlong : P.longOrNull content with
  | some m =>
    have hm := hP.long h hlong
    subst hm
    exact congrArg some (longToString_eq h.safe)
  | none =>
    dsimp only
    rw [hP.double h]
    exact formatNumber_eq h.value h.safe

theorem literal_ne_null {content : JsString} (h : IsLiteral content n) : content ≠ js "null" := by
  intro he
  have hnumber := h.number
  rw [he] at hnumber
  exact absurd hnumber (by decide)

mutual

/-- A tree is written as the web writes its value's fields, in their order. -/
theorem write_eq (hP : P.Documented) : ∀ (e : Element) (j : Json), Holds e j → write P e = some (stringify j)
  | .primitive content false, .null, h => by
    rw [write, if_pos ⟨rfl, h⟩]
    rfl
  | .primitive content false, .bool b, h => by
    have hcontent : content = js (if b then "true" else "false") := h
    have hne : content ≠ js "null" := by
      rw [hcontent]
      cases b <;> decide
    rw [write, if_neg (fun he => hne he.2), writePrimitive, if_neg Bool.false_ne_true, hcontent, if_pos (hP.boolean b)]
    cases b <;> rfl
  | .primitive content false, .num n, h => by
    rw [write, if_neg (fun he => literal_ne_null h he.2), writePrimitive_literal hP h]
    rfl
  | .primitive content true, .str s, h => by
    have hcontent : content = s := h
    rw [write, if_neg (by simp), writePrimitive, if_pos rfl, appendQuoted_eq, hcontent]
    rfl
  | .arr elems, .arr values, h => by
    rw [write, writeElems_eq hP elems values h, Option.map_some, stringify]
  | .obj members, .obj fields, h => by
    rw [write, writeMembers_eq hP members fields h, Option.map_some, stringify]

theorem writeElems_eq (hP : P.Documented) : ∀ (elems : List Element) (values : List Json), HoldsElems elems values →
    writeElems P elems = some (stringifyElems values)
  | [], [], _ => rfl
  | e :: elems, j :: values, h => by
    rw [writeElems, write_eq hP e j h.1, writeElems_eq hP elems values h.2]
    rfl

theorem writeMembers_eq (hP : P.Documented) : ∀ (members : List (JsString × Element)) (fields : List (JsString × Json)), HoldsMembers members fields →
    writeMembers P members = some (stringifyFields fields)
  | [], [], _ => rfl
  | (k, e) :: members, (l, j) :: fields, h => by
    obtain ⟨rfl, he, hrest⟩ := h
    rw [writeMembers, write_eq hP e j he, writeMembers_eq hP members fields hrest, appendQuoted_eq]
    rfl

end

mutual

theorem safe_of_holds : ∀ (e : Element) (j : Json), Holds e j → Safe j
  | .primitive _ false, .null, _ => trivial
  | .primitive _ false, .bool _, _ => trivial
  | .primitive _ false, .num _, h => IsLiteral.safe h
  | .primitive _ true, .str _, _ => trivial
  | .arr elems, .arr values, h => safeElems_of_holds elems values h
  | .obj members, .obj fields, h => safeFields_of_holds members fields h

theorem safeElems_of_holds : ∀ (elems : List Element) (values : List Json), HoldsElems elems values → SafeElems values
  | [], [], _ => trivial
  | e :: elems, j :: values, h => ⟨safe_of_holds e j h.1, safeElems_of_holds elems values h.2⟩

theorem safeFields_of_holds : ∀ (members : List (JsString × Element)) (fields : List (JsString × Json)), HoldsMembers members fields → SafeFields fields
  | [], [], _ => trivial
  | (_, e) :: members, (_, j) :: fields, h => ⟨safe_of_holds e j h.2.1, safeFields_of_holds members fields h.2.2⟩

end

/-! ## The order of properties -/

section order

variable {α : Type}

/-- An array index stands behind no other key than a smaller index. -/
def Before (a b : JsString) : Prop := ∀ n ∈ arrayIndex b, ∃ m ∈ arrayIndex a, m ≤ n

mutual

/-- In every object of a value, the keys that are array indices stand first, and in ascending order. -/
def InOrder : Json → Prop
  | .arr elems => InOrderElems elems
  | .obj fields => (fields.map Prod.fst).Pairwise Before ∧ InOrderFields fields
  | .null | .bool _ | .num _ | .str _ => True

def InOrderElems : List Json → Prop
  | [] => True
  | j :: rest => InOrder j ∧ InOrderElems rest

def InOrderFields : List (JsString × Json) → Prop
  | [] => True
  | (_, j) :: rest => InOrder j ∧ InOrderFields rest

end

def byIndex (f g : JsString × α) : Prop := (arrayIndex f.1).getD 0 ≤ (arrayIndex g.1).getD 0

instance byIndexDecidable : DecidableRel (byIndex (α := α)) := fun f g => inferInstanceAs (Decidable ((arrayIndex f.1).getD 0 ≤ (arrayIndex g.1).getD 0))

theorem listed_pairwise (fields : List (JsString × α)) : ((listed fields).map Prod.fst).Pairwise Before := by
  have htotal : Std.Total (byIndex (α := α)) := ⟨fun f g => Nat.le_total _ _⟩
  have htrans : IsTrans (JsString × α) byIndex := ⟨fun f g k h h' => Nat.le_trans h h'⟩
  rw [List.pairwise_map, listed, List.pairwise_append]
  refine ⟨?_, ?_, ?_⟩
  · have hsorted := List.pairwise_insertionSort byIndex (fields.filter fun f => (arrayIndex f.1).isSome)
    refine hsorted.imp_of_mem fun {f g} hf hg hle => ?_
    intro n hn
    rw [List.mem_insertionSort] at hf
    obtain ⟨m, hm⟩ := Option.isSome_iff_exists.mp (List.mem_filter.mp hf).2
    refine ⟨m, hm, ?_⟩
    unfold byIndex at hle
    rw [hm, hn] at hle
    exact hle
  · refine List.pairwise_of_forall_mem_list fun f hf g hg n hn => ?_
    have hnone := Option.isNone_iff_eq_none.mp (List.mem_filter.mp hg).2
    rw [hnone] at hn
    cases hn
  · intro f hf g hg n hn
    have hnone := Option.isNone_iff_eq_none.mp (List.mem_filter.mp hg).2
    rw [hnone] at hn
    cases hn

theorem listed_eq {fields : List (JsString × α)} (h : (fields.map Prod.fst).Pairwise Before) : listed fields = fields := by
  have hsort : (fields.filter fun f => (arrayIndex f.1).isSome).insertionSort byIndex = fields.filter fun f => (arrayIndex f.1).isSome := by
    refine List.Pairwise.insertionSort_eq ?_
    rw [List.pairwise_map] at h
    refine (h.filter _).imp_of_mem fun {f g} hf hg hle => ?_
    obtain ⟨n, hn⟩ := Option.isSome_iff_exists.mp (List.mem_filter.mp hg).2
    obtain ⟨m, hm, hmn⟩ := hle n hn
    unfold byIndex
    rw [hm, hn]
    exact hmn
  have hsplit : (fields.filter fun f => (arrayIndex f.1).isSome) ++ (fields.filter fun f => (arrayIndex f.1).isNone) = fields := by
    clear hsort
    induction fields with
    | nil => rfl
    | cons f fields ih =>
      rw [List.map_cons, List.pairwise_cons] at h
      cases hf : arrayIndex f.1 with
      | some n => rw [List.filter_cons_of_pos (by rw [hf]; rfl), List.filter_cons_of_neg (by rw [hf]; exact Bool.false_ne_true), List.cons_append, ih h.2]
      | none =>
        have hrest : ∀ g ∈ fields, arrayIndex g.1 = none := by
          intro g hg
          refine Option.eq_none_iff_forall_not_mem.mpr fun n hn => ?_
          obtain ⟨m, hm, -⟩ := h.1 g.1 (List.mem_map_of_mem hg) n hn
          rw [hf] at hm
          cases hm
        rw [List.filter_cons_of_neg (by rw [hf]; exact Bool.false_ne_true), List.filter_cons_of_pos (by rw [hf]; rfl),
          List.filter_eq_nil_iff.mpr fun g hg => by rw [hrest g hg]; exact Bool.false_ne_true, List.nil_append,
          List.filter_eq_self.mpr fun g hg => by rw [hrest g hg]; rfl]
  unfold listed
  exact (congrArg (· ++ _) hsort).trans hsplit

theorem map_fst_valueFields (fields : List (JsString × Json)) : (valueFields fields).map Prod.fst = fields.map Prod.fst := by
  induction fields with
  | nil => rfl
  | cons f fields ih => rw [valueFields, List.map_cons, List.map_cons, ih]

mutual

theorem value_eq_iff : ∀ j : Json, value j = j ↔ InOrder j
  | .null => ⟨fun _ => trivial, fun _ => rfl⟩
  | .bool _ => ⟨fun _ => trivial, fun _ => rfl⟩
  | .num _ => ⟨fun _ => trivial, fun _ => rfl⟩
  | .str _ => ⟨fun _ => trivial, fun _ => rfl⟩
  | .arr elems => by
    rw [value, Json.arr.injEq]
    exact valueElems_eq_iff elems
  | .obj fields => by
    rw [value, Json.obj.injEq, InOrder, ← valueFields_eq_iff fields]
    constructor
    · intro h
      have hkeys : (fields.map Prod.fst).Pairwise Before := h ▸ listed_pairwise (valueFields fields)
      have hlisted := listed_eq (map_fst_valueFields fields ▸ hkeys : ((valueFields fields).map Prod.fst).Pairwise Before)
      exact ⟨hkeys, hlisted.symm.trans h⟩
    · intro ⟨hkeys, hfields⟩
      rw [hfields, listed_eq hkeys]

theorem valueElems_eq_iff : ∀ elems : List Json, valueElems elems = elems ↔ InOrderElems elems
  | [] => ⟨fun _ => trivial, fun _ => rfl⟩
  | j :: rest => by rw [valueElems, List.cons.injEq, InOrderElems, value_eq_iff j, valueElems_eq_iff rest]

theorem valueFields_eq_iff : ∀ fields : List (JsString × Json), valueFields fields = fields ↔ InOrderFields fields
  | [] => ⟨fun _ => trivial, fun _ => rfl⟩
  | (k, j) :: rest => by
    rw [valueFields, List.cons.injEq, Prod.mk.injEq, InOrderFields, ← value_eq_iff j, ← valueFields_eq_iff rest]
    exact and_congr_left fun _ => and_iff_right rfl

end

theorem mem_listed {fields : List (JsString × α)} {f : JsString × α} (h : f ∈ listed fields) : f ∈ fields := by
  rcases List.mem_append.mp h with h | h
  · rw [List.mem_insertionSort] at h
    exact (List.mem_filter.mp h).1
  · exact (List.mem_filter.mp h).1

mutual

theorem safe_value : ∀ j : Json, Safe j → Safe (value j)
  | .null, _ => trivial
  | .bool _, _ => trivial
  | .num _, h => h
  | .str _, _ => trivial
  | .arr elems, h => safe_valueElems elems h
  | .obj fields, h => by
    have hfields := safeFields_iff.mp (safe_valueFields fields h)
    exact safeFields_iff.mpr fun f hf => hfields f (mem_listed hf)

theorem safe_valueElems : ∀ elems : List Json, SafeElems elems → SafeElems (valueElems elems)
  | [], _ => trivial
  | j :: rest, h => ⟨safe_value j h.1, safe_valueElems rest h.2⟩

theorem safe_valueFields : ∀ fields : List (JsString × Json), SafeFields fields → SafeFields (valueFields fields)
  | [], _ => trivial
  | (_, j) :: rest, h => ⟨safe_value j h.1, safe_valueFields rest h.2⟩

end

end order

/-! ## Ids -/

/-- `[0, pubkey, created_at, kind, tags, content]`. -/
def idValue (pubkey : JsString) (createdAt kind : Int) (tags : List (List JsString)) (content : JsString) : Json :=
  .arr [.num 0, .str pubkey, .num createdAt, .num kind, .arr (tags.map fun tag => .arr (tag.map .str)), .str content]

theorem valueElems_tags (tags : List (List JsString)) :
    valueElems (tags.map fun tag => .arr (tag.map .str)) = tags.map fun tag => .arr (tag.map .str) := by
  have hstrs : ∀ tag : List JsString, valueElems (tag.map .str) = tag.map .str := by
    intro tag
    induction tag with
    | nil => rfl
    | cons s tag ih => rw [List.map_cons, valueElems, ih, show value (.str s) = .str s from rfl]
  induction tags with
  | nil => rfl
  | cons tag tags ih => rw [List.map_cons, valueElems, ih, value, hstrs]

theorem stringifyElems_tags (tags : List (List JsString)) :
    stringifyElems (tags.map fun tag => .arr (tag.map .str)) = tags.map fun tag => js "[" ++ joinComma (tag.map appendQuoted) ++ js "]" := by
  rw [stringifyElems_eq, List.map_map]
  refine List.map_congr_left fun tag _ => ?_
  have hquoted : stringifyElems (tag.map .str) = tag.map appendQuoted := by
    rw [stringifyElems_eq, List.map_map]
    exact List.map_congr_left fun s _ => (appendQuoted_eq s).symm
  rw [Function.comp_apply, stringify, hquoted]

theorem idText_eq {pubkey content : JsString} {createdAt kind : Int} {tags : List (List JsString)} (hc : createdAt.natAbs < 2 ^ 53)
    (hk : kind.natAbs < 2 ^ 53) : idText pubkey createdAt kind tags content = jsonStringify (idValue pubkey createdAt kind tags content) := by
  have hvalue : value (idValue pubkey createdAt kind tags content) = idValue pubkey createdAt kind tags content := by
    simp only [idValue, value, valueElems, valueElems_tags]
  have hopen : js "[0," = js "[" ++ (js "0" ++ js ",") := by decide
  have hnested : js ",[" = js "," ++ js "[" := by decide
  have hclose : js "]," = js "]" ++ js "," := by decide
  have hzero : intToString 0 = js "0" := rfl
  rw [jsonStringify, hvalue, idValue, stringify]
  simp only [stringifyElems, joinComma, stringify, stringifyElems_tags]
  rw [idText, longToString_eq hc, longToString_eq hk, appendQuoted_eq, appendQuoted_eq, hopen, hnested, hclose, hzero]
  simp only [List.append_assoc]

/-! ## What is written -/

/-- **A tree of safe integers is written as JavaScript writes its value exactly where the array
indices of every object stand first and ascend**; what is hashed for an id is always the web's text. -/
theorem stringify_eq_iff (hP : P.Documented) (sha256Hex : JsString → JsString) {e : Element} (h : Holds e j) :
    (write P e = some (jsonStringify j) ↔ InOrder j) ∧
    ∀ (pubkey : JsString) (createdAt kind : Int) (tags : List (List JsString)) (content : JsString), createdAt.natAbs < 2 ^ 53 → kind.natAbs ≤ 2 ^ 31 →
      computeId sha256Hex pubkey createdAt kind tags content = sha256Hex (jsonStringify (idValue pubkey createdAt kind tags content)) := by
  have hsafe := safe_of_holds e j h
  refine ⟨?_, fun pubkey createdAt kind tags content hc hk => congrArg sha256Hex (idText_eq hc (by omega))⟩
  rw [write_eq hP e j h, jsonStringify, Option.some.injEq, ← value_eq_iff]
  exact ⟨fun hsame => (stringify_inj hsafe (safe_value j hsafe) hsame).symm, fun hvalue => by rw [hvalue]⟩

/-- The library on plain numbers. -/
def plainPrimitives : Primitives where
  booleanOrNull content := if content = js "true" then some true else if content = js "false" then some false else none
  longOrNull content := if content.all isDigit then (toNumber content).toInt? else none
  doubleOrNull content := some (toNumber content)
  doubleToString _ := []

theorem plainPrimitives_documented : plainPrimitives.Documented where
  boolean b := by cases b <;> decide
  noBoolean {content n} h := by
    have hne : ∀ b : Bool, content ≠ js (if b then "true" else "false") := fun b he => by
      have hnumber := h.number
      rw [he] at hnumber
      cases b
      · exact absurd hnumber (by decide)
      · exact absurd hnumber (by decide)
    exact (if_neg (hne true)).trans (if_neg (hne false))
  long {content n m} h hm := by
    simp only [plainPrimitives] at hm
    split_ifs at hm
    rw [h.value] at hm
    exact (Option.some.inj hm).symm
  double h := rfl

theorem isLiteral_zero : IsLiteral (js "0") 0 where
  number := by decide
  value := by decide +kernel
  safe := by decide

/-- A key that is an array index behind one that is none. -/
def indexLast : Json := .obj [(js "b", .num 0), (js "1", .num 0)]

theorem stringify_index_last : ∃ e, Holds e indexLast ∧ write plainPrimitives e = some (js "\x7b\"b\":0,\"1\":0\x7d") ∧
    jsonStringify indexLast = js "\x7b\"1\":0,\"b\":0\x7d" ∧ write plainPrimitives e ≠ some (jsonStringify indexLast) := by
  have hholds : Holds (.obj [(js "b", .primitive (js "0") false), (js "1", .primitive (js "0") false)]) indexLast :=
    ⟨rfl, isLiteral_zero, rfl, isLiteral_zero, trivial⟩
  have hwritten := write_eq plainPrimitives_documented _ _ hholds
  have hstored : stringify indexLast = js "\x7b\"b\":0,\"1\":0\x7d" := by decide
  have hlisted : jsonStringify indexLast = js "\x7b\"1\":0,\"b\":0\x7d" := by decide
  refine ⟨_, hholds, hwritten.trans (congrArg some hstored), hlisted, ?_⟩
  rw [hwritten, hstored, hlisted]
  decide

theorem stringify_eq_iff_zero : write plainPrimitives (.primitive (js "0") false) = some (jsonStringify (.num 0)) ∧
    computeId id (js "a") 0 1 [] [] = id (jsonStringify (idValue (js "a") 0 1 [] [])) := by
  obtain ⟨hwritten, hid⟩ := stringify_eq_iff plainPrimitives_documented id
    (show Holds (.primitive (js "0") false) (.num 0) from isLiteral_zero)
  exact ⟨hwritten.mpr trivial, hid _ _ _ _ _ (by decide) (by decide)⟩

end Nostrautica.Android.JsJson
