/-
`encodeValue` and `decodeValue` of `coordinator/src/chat/stores.ts`: a stored value as a JSON text,
with `Uint8Array` and `bigint` as tag objects.

What `decodeValue` reads of what `encodeValue` wrote: the value itself, unless one of its objects has
an own property `__proto__`, which the assignment to the new object loses.
-/
import Nostrautica.Js.Value
import Nostrautica.Js.NumberFacts
import Nostrautica.Protocol.Base64

namespace Nostrautica.ValueCodec

open Js Base64 EckIdentity

def marmot : JsString := js "$marmot"

/-- The name an assignment takes for the prototype. -/
def proto : JsString := js "__proto__"

/-- `value.toString()` of a `bigint`. -/
def bigintText (n : Int) : JsString :=
  if n = 0 then js "0" else if n < 0 then js "-" ++ decimal n.natAbs else decimal n.natAbs

/-- `BigInt(s)` of an integer in decimal digits. -/
def bigintOf : JsString → Option Int
  | [] => none
  | c :: s =>
    if c.val = 45 then if s ≠ [] ∧ s.all isDigit then some (-(digitsValue s : Int)) else none
    else if (c :: s).all isDigit then some (digitsValue (c :: s)) else none

/-- `replacer` of a `Uint8Array`. -/
def taggedBytes (b : List UInt8) : Raw := .obj [(marmot, .str (js "u8")), (js "b64", .str (bytesToBase64 b))]

/-- `replacer` of a `bigint`. -/
def taggedBigint (n : Int) : Raw := .obj [(marmot, .str (js "bigint")), (js "v", .str (bigintText n))]

/-- `JSON.stringify(value, replacer)`. -/
def encodeValue (value : Value) : Option JsString := (tree taggedBytes (fun n => some (taggedBigint n)) value).map rawText

/-- Is a property there with a value other than `null`, `false`, 0 and `""`? -/
def truthy : Option Raw → Bool
  | none | some .null => false
  | some (.bool b) => b
  | some (.num literal) => (literal.takeWhile fun c => c.val ≠ 101 && c.val ≠ 69).any fun c => 49 ≤ c.val && c.val ≤ 57
  | some (.str s) => s ≠ []
  | some (.arr _) | some (.obj _) => true

section Walk

-- What `reviveTag` gives for a tag that `replacer` does not write, as the conversions of the language have it.
variable (other : List (JsString × Raw) → Option Value)

/-- `value.$marmot === "u8"`. -/
def isU8 (node : List (JsString × Raw)) : Bool :=
  match look marmot node with
  | some (.str tag) => tag = js "u8"
  | _ => false

def reviveTag (node : List (JsString × Raw)) : Option Value :=
  if isU8 node then
    match look (js "b64") node with
    | some (.str b64) => (base64ToBytes b64).map .bytes
    | _ => other node
  else
    match look (js "v") node with
    | some (.str v) => ((bigintOf v).map .bigint).or (other node)
    | _ => other node

mutual

/-- `walk(node)`; what is assigned to `__proto__` becomes no property. -/
def walk : Raw → Option Value
  | .null => some .null
  | .bool b => some (.bool b)
  | .num literal => some (.num literal)
  | .str s => some (.str s)
  | .arr elems => (walkElems elems).map .arr
  | .obj members =>
    if truthy (look marmot (own members)) then reviveTag other (own members)
    else (settle (own (walkMembers members))).map fun fields => .obj (fields.filter fun f => f.1 ≠ proto)

def walkElems : List Raw → Option (List Value)
  | [] => some []
  | r :: rest => do
    let v ← walk r
    let vs ← walkElems rest
    return v :: vs

def walkMembers : List (JsString × Raw) → List (JsString × Option Value)
  | [] => []
  | (k, r) :: rest => (k, walk r) :: walkMembers rest

end

/-- `decodeValue(text)`, or `none` where it throws. -/
def decodeValue (text : JsString) : Option Value := (parseJson text).bind (walk other)

end Walk

/-! ## Tags -/

theorem bigintOf_bigintText (n : Int) : bigintOf (bigintText n) = some n := by
  unfold bigintText
  split_ifs with hzero hneg
  · rw [hzero]
    decide
  · have hne : n.natAbs ≠ 0 := by omega
    have hform : js "-" ++ decimal n.natAbs = 45 :: decimal n.natAbs := rfl
    rw [hform, bigintOf, if_pos (show (45 : CodeUnit).val = 45 from rfl),
      if_pos ⟨decimal_ne_nil hne, List.all_eq_true.mpr fun c hc => isDigit_of_mem_decimal hc⟩, digitsValue_decimal]
    refine congrArg some ?_
    omega
  · have hne : n.natAbs ≠ 0 := by omega
    obtain ⟨c, s, hs⟩ := List.exists_cons_of_ne_nil (decimal_ne_nil hne)
    have hdigits : (decimal n.natAbs).all isDigit = true := List.all_eq_true.mpr fun c hc => isDigit_of_mem_decimal hc
    have hvalue := digitsValue_decimal n.natAbs
    rw [hs] at hdigits hvalue ⊢
    have hc : c.val ≠ 45 := by
      have hd := List.all_eq_true.mp hdigits c List.mem_cons_self
      simp only [isDigit, Bool.and_eq_true, decide_eq_true_eq] at hd
      omega
    rw [bigintOf, if_neg hc, if_pos hdigits, hvalue]
    refine congrArg some ?_
    omega

variable {other : List (JsString × Raw) → Option Value}

theorem walk_taggedBytes (b : List UInt8) : walk other (taggedBytes b) = some (.bytes b) := by
  have hown : own [(marmot, Raw.str (js "u8")), (js "b64", .str (bytesToBase64 b))] = [(marmot, .str (js "u8")), (js "b64", .str (bytesToBase64 b))] := rfl
  have htag : truthy (look marmot [(marmot, Raw.str (js "u8")), (js "b64", .str (bytesToBase64 b))]) = true := rfl
  rw [taggedBytes, walk, hown, if_pos htag]
  have hlook : reviveTag other [(marmot, Raw.str (js "u8")), (js "b64", .str (bytesToBase64 b))] = (base64ToBytes (bytesToBase64 b)).map .bytes := rfl
  rw [hlook, base64ToBytes_bytesToBase64]
  rfl

theorem walk_taggedBigint (n : Int) : walk other (taggedBigint n) = some (.bigint n) := by
  have hown : own [(marmot, Raw.str (js "bigint")), (js "v", .str (bigintText n))] = [(marmot, .str (js "bigint")), (js "v", .str (bigintText n))] := rfl
  have htag : truthy (look marmot [(marmot, Raw.str (js "bigint")), (js "v", .str (bigintText n))]) = true := rfl
  rw [taggedBigint, walk, hown, if_pos htag]
  have hlook : reviveTag other [(marmot, Raw.str (js "bigint")), (js "v", .str (bigintText n))] =
      ((bigintOf (bigintText n)).map .bigint).or (other [(marmot, .str (js "bigint")), (js "v", .str (bigintText n))]) := rfl
  rw [hlook, bigintOf_bigintText]
  rfl

/-! ## Values -/

theorem walkMembers_names (other : List (JsString × Raw) → Option Value) : ∀ ms : List (JsString × Raw), (walkMembers other ms).map Prod.fst = ms.map Prod.fst
  | [] => rfl
  | (k, r) :: ms => by rw [walkMembers, List.map_cons, List.map_cons, walkMembers_names other ms]

/-! ## What is read back -/

/-- `JSON.stringify(value, replacer)`, before it is written. -/
def encoded (v : Value) : Option Raw := tree taggedBytes (fun n => some (taggedBigint n)) v

theorem written_tagged (b : List UInt8) (n : Int) : Written (taggedBytes b) ∧ Written (taggedBigint n) :=
  ⟨⟨trivial, trivial, trivial⟩, ⟨trivial, trivial, trivial⟩⟩

/-- An object without a tag is walked field by field. -/
theorem walk_obj {ms : List (JsString × Raw)} {fields : List (JsString × Value)} (hnames : ms.map Prod.fst = fields.map Prod.fst)
    (hdistinct : (fields.map Prod.fst).Nodup) (hfree : marmot ∉ fields.map Prod.fst) :
    walk other (.obj ms) = some (.obj fields) ↔
      proto ∉ fields.map Prod.fst ∧ walkMembers other ms = fields.map fun f => (f.1, some f.2) := by
  have hms : own ms = ms := own_of_nodup (by rwa [hnames])
  have hwalk : own (walkMembers other ms) = walkMembers other ms := own_of_nodup (by rwa [walkMembers_names, hnames])
  have htag : look marmot ms = none := look_eq_none.mpr (by rwa [hnames])
  rw [walk, hms, htag, if_neg (show ¬truthy none = true by decide), hwalk]
  constructor
  · intro h
    obtain ⟨settled, hs, heq⟩ := Option.map_eq_some_iff.mp h
    have hsame := settle_eq_some.mp hs
    have hkeys : settled.map Prod.fst = fields.map Prod.fst := by
      rw [← hnames, ← walkMembers_names other ms, hsame, List.map_map]
      rfl
    obtain ⟨hproto, hall⟩ := (filter_ne_iff hkeys).mp (Value.obj.inj heq)
    refine ⟨hproto, ?_⟩
    rw [hsame, hall]
  · intro ⟨hproto, hw⟩
    rw [settle_eq_some.mpr hw, Option.map_some, (filter_ne_iff rfl).mpr ⟨hproto, rfl⟩]

mutual

/-- A value is written, and read back exactly when nothing in it is called `__proto__`. -/
theorem walk_encoded (other : List (JsString × Raw) → Option Value) : ∀ v : Value, v.Ok → v.Free marmot →
    ∃ r, encoded v = some r ∧ Written r ∧ (walk other r = some v ↔ v.Free proto)
  | .null, _, _ => ⟨.null, rfl, trivial, iff_of_true rfl trivial⟩
  | .bool b, _, _ => ⟨.bool b, rfl, trivial, iff_of_true rfl trivial⟩
  | .num literal, h, _ => ⟨.num literal, rfl, h, iff_of_true rfl trivial⟩
  | .str s, _, _ => ⟨.str s, rfl, trivial, iff_of_true rfl trivial⟩
  | .bigint n, _, _ => ⟨taggedBigint n, rfl, (written_tagged [] n).2, iff_of_true (walk_taggedBigint n) trivial⟩
  | .bytes b, _, _ => ⟨taggedBytes b, rfl, (written_tagged b 0).1, iff_of_true (walk_taggedBytes b) trivial⟩
  | .arr elems, h, hfree => by
    obtain ⟨rs, hrs, hwritten, hread⟩ := walk_encodedElems other elems h hfree
    refine ⟨.arr rs, by rw [encoded, tree, hrs, Option.map_some], hwritten, ?_⟩
    rw [walk, Value.Free, ← hread, Option.map_eq_some_iff]
    constructor
    · intro ⟨vs, hvs, he⟩
      rw [hvs, Value.arr.inj he]
    · exact fun he => ⟨elems, he, rfl⟩
  | .obj fields, h, hfree => by
    obtain ⟨ms, hms, hwritten, hread⟩ := walk_encodedFields other fields h.2 hfree.2
    refine ⟨.obj ms, by rw [encoded, tree, hms, Option.map_some], hwritten, ?_⟩
    rw [walk_obj (treeFields_names hms) h.1 hfree.1, hread, Value.Free]

theorem walk_encodedElems (other : List (JsString × Raw) → Option Value) : ∀ vs : List Value, OkElems vs → FreeElems marmot vs →
    ∃ rs, treeElems taggedBytes (fun n => some (taggedBigint n)) vs = some rs ∧ WrittenElems rs ∧ (walkElems other rs = some vs ↔ FreeElems proto vs)
  | [], _, _ => ⟨[], rfl, trivial, iff_of_true rfl trivial⟩
  | v :: vs, h, hfree => by
    obtain ⟨r, hr, hw, hread⟩ := walk_encoded other v h.1 hfree.1
    obtain ⟨rs, hrs, hws, hreads⟩ := walk_encodedElems other vs h.2 hfree.2
    rw [encoded] at hr
    refine ⟨r :: rs, by simp only [treeElems, hr, hrs, Option.bind_eq_bind, Option.bind_some, Option.pure_def], ⟨hw, hws⟩, ?_⟩
    rw [FreeElems, ← hread, ← hreads, walkElems]
    constructor
    · intro hv
      obtain ⟨a, ha, hv⟩ := Option.bind_eq_some_iff.mp hv
      obtain ⟨as, has, hv⟩ := Option.bind_eq_some_iff.mp hv
      obtain ⟨h1, h2⟩ := List.cons.inj (Option.some.inj hv)
      rw [ha, has, h1, h2]
      exact ⟨rfl, rfl⟩
    · intro ⟨h1, h2⟩
      rw [h1, h2]
      rfl

theorem walk_encodedFields (other : List (JsString × Raw) → Option Value) : ∀ fields : List (JsString × Value), OkFields fields → FreeFields marmot fields →
    ∃ ms, treeFields taggedBytes (fun n => some (taggedBigint n)) fields = some ms ∧ WrittenMembers ms ∧
      (walkMembers other ms = fields.map (fun f => (f.1, some f.2)) ↔ FreeFields proto fields)
  | [], _, _ => ⟨[], rfl, trivial, iff_of_true rfl trivial⟩
  | (k, v) :: fields, h, hfree => by
    obtain ⟨r, hr, hw, hread⟩ := walk_encoded other v h.1 hfree.1
    obtain ⟨ms, hms, hws, hreads⟩ := walk_encodedFields other fields h.2 hfree.2
    rw [encoded] at hr
    refine ⟨(k, r) :: ms, by simp only [treeFields, hr, hms, Option.bind_eq_bind, Option.bind_some, Option.pure_def], ⟨hw, hws⟩, ?_⟩
    rw [FreeFields, ← hread, ← hreads, walkMembers, List.map_cons]
    constructor
    · intro he
      obtain ⟨h1, h2⟩ := List.cons.inj he
      exact ⟨(Prod.mk.inj h1).2, h2⟩
    · intro ⟨h1, h2⟩
      rw [h1, h2]

end

/-- **Of the values without a tag of their own, exactly those with no `__proto__` come back.** -/
theorem decodeValue_encodeValue (other : List (JsString × Raw) → Option Value) {v : Value} (h : v.Ok) (hfree : v.Free marmot) :
    (encodeValue v).bind (decodeValue other) = some v ↔ v.Free proto := by
  obtain ⟨r, hr, hwritten, hread⟩ := walk_encoded other v h hfree
  rw [encoded] at hr
  rw [encodeValue, hr, Option.map_some, Option.bind_some, decodeValue, parseJson_rawText hwritten, Option.bind_some, hread]

end Nostrautica.ValueCodec
