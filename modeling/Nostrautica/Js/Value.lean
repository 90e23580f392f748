/-
The values a structured clone keeps that the code stores: plain data with `bigint`s and `Uint8Array`s,
and `JSON.stringify` with a replacer that writes these two as trees of their own.

A finite number is the literal `String(n)`; an object lists its own fields in their order.
-/
import Nostrautica.Js.RawText
import Nostrautica.Js.Map

namespace Js

inductive Value
  | null
  | bool (b : Bool)
  | num (literal : JsString)
  | str (s : JsString)
  | bigint (n : Int)
  | bytes (b : List UInt8)
  | arr (elems : List Value)
  | obj (fields : List (JsString × Value))

section Replacer

-- What a replacer makes of a `Uint8Array`, and of a `bigint`, which `JSON.stringify` refuses to write itself.
variable (bytes : List UInt8 → Raw) (bigint : Int → Option Raw)

mutual

/-- The tree `JSON.stringify` writes, or `none` where it throws. -/
def tree : Value → Option Raw
  | .null => some .null
  | .bool b => some (.bool b)
  | .num literal => some (.num literal)
  | .str s => some (.str s)
  | .bigint n => bigint n
  | .bytes b => some (bytes b)
  | .arr elems => (treeElems elems).map .arr
  | .obj fields => (treeFields fields).map .obj

def treeElems : List Value → Option (List Raw)
  | [] => some []
  | v :: rest => do
    let r ← tree v
    let rs ← treeElems rest
    return r :: rs

def treeFields : List (JsString × Value) → Option (List (JsString × Raw))
  | [] => some []
  | (k, v) :: rest => do
    let r ← tree v
    let ms ← treeFields rest
    return (k, r) :: ms

end

end Replacer

/-- The own properties that a list of members makes: a name that comes again keeps its place and changes its value. -/
def own {α : Type} (members : List (JsString × α)) : List (JsString × α) := members.foldl (fun fields p => put p.1 p.2 fields) []

/-- The fields with their values, or `none` where one of them throws. -/
def settle (fields : List (JsString × Option Value)) : Option (List (JsString × Value)) := fields.mapM fun p => p.2.map (p.1, ·)

/-! ## Which values -/

mutual

/-- Numbers are literals of JSON's grammar, and no object has one name twice. -/
def Value.Ok : Value → Prop
  | .num literal => Parse.number literal = some (literal, [])
  | .arr elems => OkElems elems
  | .obj fields => (fields.map Prod.fst).Nodup ∧ OkFields fields
  | .null | .bool _ | .str _ | .bigint _ | .bytes _ => True

def OkElems : List Value → Prop
  | [] => True
  | v :: rest => v.Ok ∧ OkElems rest

def OkFields : List (JsString × Value) → Prop
  | [] => True
  | (_, v) :: rest => v.Ok ∧ OkFields rest

end

mutual

/-- No object in the value has an own property of this name. -/
def Value.Free (name : JsString) : Value → Prop
  | .arr elems => FreeElems name elems
  | .obj fields => name ∉ fields.map Prod.fst ∧ FreeFields name fields
  | .null | .bool _ | .num _ | .str _ | .bigint _ | .bytes _ => True

def FreeElems (name : JsString) : List Value → Prop
  | [] => True
  | v :: rest => v.Free name ∧ FreeElems name rest

def FreeFields (name : JsString) : List (JsString × Value) → Prop
  | [] => True
  | (_, v) :: rest => v.Free name ∧ FreeFields name rest

end

mutual

/-- There is no `bigint` in the value. -/
def Value.NoBigint : Value → Prop
  | .bigint _ => False
  | .arr elems => NoBigintElems elems
  | .obj fields => NoBigintFields fields
  | .null | .bool _ | .num _ | .str _ | .bytes _ => True

def NoBigintElems : List Value → Prop
  | [] => True
  | v :: rest => v.NoBigint ∧ NoBigintElems rest

def NoBigintFields : List (JsString × Value) → Prop
  | [] => True
  | (_, v) :: rest => v.NoBigint ∧ NoBigintFields rest

end

variable {fields : List (JsString × Value)} {name : JsString}

theorem okFields_iff : OkFields fields ↔ ∀ f ∈ fields, f.2.Ok := by
  induction fields with
  | nil => simp [OkFields]
  | cons f fields ih =>
    obtain ⟨k, v⟩ := f
    rw [OkFields, ih, List.forall_mem_cons]

theorem freeFields_iff : FreeFields name fields ↔ ∀ f ∈ fields, f.2.Free name := by
  induction fields with
  | nil => simp [FreeFields]
  | cons f fields ih =>
    obtain ⟨k, v⟩ := f
    rw [FreeFields, ih, List.forall_mem_cons]

theorem noBigintFields_iff : NoBigintFields fields ↔ ∀ f ∈ fields, f.2.NoBigint := by
  induction fields with
  | nil => simp [NoBigintFields]
  | cons f fields ih =>
    obtain ⟨k, v⟩ := f
    rw [NoBigintFields, ih, List.forall_mem_cons]

/-! ## Own properties -/

theorem treeFields_names {bytes : List UInt8 → Raw} {bigint : Int → Option Raw} : ∀ {fields : List (JsString × Value)} {ms : List (JsString × Raw)},
    treeFields bytes bigint fields = some ms → ms.map Prod.fst = fields.map Prod.fst
  | [], ms, h => by
    rw [← Option.some.inj h]
    rfl
  | (k, v) :: fields, ms, h => by
    rw [treeFields] at h
    obtain ⟨r, -, h⟩ := Option.bind_eq_some_iff.mp h
    obtain ⟨ms', hms, h⟩ := Option.bind_eq_some_iff.mp h
    rw [← Option.some.inj h, List.map_cons, List.map_cons, treeFields_names hms]

theorem put_of_not_mem {α : Type} {k : JsString} {v : α} : ∀ {l : List (JsString × α)}, k ∉ l.map Prod.fst → put k v l = l ++ [(k, v)]
  | [], _ => rfl
  | (k', v') :: l, h => by
    have hk : k' ≠ k := fun he => h (by simp [he])
    have hl : k ∉ l.map Prod.fst := fun hm => h (List.mem_cons_of_mem _ hm)
    rw [put, if_neg hk, put_of_not_mem hl, List.cons_append]

theorem own_append {α : Type} : ∀ (members acc : List (JsString × α)), ((acc ++ members).map Prod.fst).Nodup →
    members.foldl (fun fields p => put p.1 p.2 fields) acc = acc ++ members
  | [], acc, _ => (List.append_nil acc).symm
  | p :: members, acc, h => by
    have hp : p.1 ∉ acc.map Prod.fst := by
      rw [List.map_append, List.map_cons, List.nodup_append] at h
      exact fun hm => h.2.2 p.1 hm p.1 List.mem_cons_self rfl
    have hstep : acc ++ p :: members = acc ++ [p] ++ members := by simp
    rw [hstep] at h ⊢
    rw [List.foldl_cons, put_of_not_mem hp]
    exact own_append members (acc ++ [p]) h

theorem own_of_nodup {α : Type} {members : List (JsString × α)} (h : (members.map Prod.fst).Nodup) : own members = members :=
  own_append members [] h

theorem settle_eq_some {members : List (JsString × Option Value)} : settle members = some fields ↔ members = fields.map fun f => (f.1, some f.2) := by
  induction members generalizing fields with
  | nil =>
    cases fields with
    | nil => simp [settle]
    | cons f fields => simp [settle]
  | cons p members ih =>
    obtain ⟨k, o⟩ := p
    unfold settle at ih ⊢
    rw [List.mapM_cons]
    cases o with
    | none =>
      cases fields with
      | nil => simp
      | cons f fields => simp
    | some v =>
      cases fields with
      | nil => simp [Option.bind_eq_some_iff]
      | cons f fields =>
        obtain ⟨k', v'⟩ := f
        simp only [Option.map_some, Option.bind_eq_bind, Option.bind_some, Option.pure_def, Option.bind_eq_some_iff, Option.some.injEq, List.cons.injEq,
          List.map_cons, Prod.mk.injEq, ih]
        constructor
        · rintro ⟨fs, hfs, ⟨hk, hv⟩, rfl⟩
          exact ⟨⟨hk, hv⟩, hfs⟩
        · rintro ⟨⟨hk, hv⟩, hfs⟩
          exact ⟨fields, hfs, ⟨hk, hv⟩, rfl⟩

/-- What is left without a name is all there was when the name was not there. -/
theorem filter_ne_iff {l : List (JsString × Value)} (h : l.map Prod.fst = fields.map Prod.fst) :
    l.filter (fun f => f.1 ≠ name) = fields ↔ name ∉ fields.map Prod.fst ∧ l = fields := by
  constructor
  · intro hl
    have hname : name ∉ fields.map Prod.fst := by
      rw [← hl]
      simp
    refine ⟨hname, ?_⟩
    rw [← hl, eq_comm, List.filter_eq_self]
    intro f hf
    have hmem : f.1 ∈ fields.map Prod.fst := by
      rw [← h]
      exact List.mem_map_of_mem hf
    exact decide_eq_true fun he => hname (he ▸ hmem)
  · rintro ⟨hname, rfl⟩
    rw [List.filter_eq_self]
    intro f hf
    exact decide_eq_true fun he => hname (he ▸ List.mem_map_of_mem hf)

end Js
