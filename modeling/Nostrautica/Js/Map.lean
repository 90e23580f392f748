/-
JavaScript's `Map`, or the own properties of a record used as a dictionary:
entries in insertion order, one for each key. Setting a key that is there
keeps its place; a new key goes last. `[...new Set(l)]` is `List.eraseDups`.
-/
import Mathlib

namespace Js

variable {κ ν : Type*} [DecidableEq κ]

/-- `put k v l` sets `k` in the entries `l`. -/
def put (k : κ) (v : ν) : List (κ × ν) → List (κ × ν)
  | [] => [(k, v)]
  | (k', v') :: l => if k' = k then (k, v) :: l else (k', v') :: put k v l

/-- The value the entries `l` hold at `k`. -/
def look (k : κ) : List (κ × ν) → Option ν
  | [] => none
  | (k', v') :: l => if k' = k then some v' else look k l

theorem mem_keys_put {k k' : κ} {v : ν} {l : List (κ × ν)} :
    k' ∈ (put k v l).map Prod.fst ↔ k' = k ∨ k' ∈ l.map Prod.fst := by
  induction l with
  | nil => simp [put]
  | cons p l ih =>
    simp only [put]
    split
    · next h => simp only [List.map_cons, List.mem_cons, h, or_self_left]
    · next h =>
      simp only [List.map_cons, List.mem_cons, ih]
      exact ⟨fun h => by rcases h with h | h | h <;> simp [h], fun h => by rcases h with h | h | h <;> simp [h]⟩

theorem nodup_put {k : κ} {v : ν} {l : List (κ × ν)} (h : (l.map Prod.fst).Nodup) :
    ((put k v l).map Prod.fst).Nodup := by
  induction l with
  | nil => simp [put]
  | cons p l ih =>
    simp only [List.map_cons, List.nodup_cons] at h
    simp only [put]
    split
    · next hp =>
      subst hp
      simpa using h
    · next hp =>
      simp only [List.map_cons, List.nodup_cons, mem_keys_put]
      exact ⟨fun hm => hm.elim hp h.1, ih h.2⟩

theorem look_put {k k' : κ} {v : ν} {l : List (κ × ν)} :
    look k' (put k v l) = if k = k' then some v else look k' l := by
  induction l with
  | nil => simp [put, look]
  | cons p l ih =>
    simp only [put]
    split
    · next hp =>
      subst hp
      simp only [look]
      split <;> rfl
    · next hp =>
      simp only [look, ih]
      split <;> split <;> simp_all

theorem look_eq_some {k : κ} {v : ν} {l : List (κ × ν)} (h : (l.map Prod.fst).Nodup) :
    look k l = some v ↔ (k, v) ∈ l := by
  induction l with
  | nil => simp [look]
  | cons p l ih =>
    obtain ⟨k', v'⟩ := p
    simp only [List.map_cons, List.nodup_cons] at h
    simp only [look, List.mem_cons, Prod.mk.injEq]
    split
    · next hk =>
      subst hk
      have hn : (k', v) ∉ l := fun hm => h.1 (List.mem_map_of_mem (f := Prod.fst) hm)
      simp only [Option.some.injEq, true_and, hn, or_false]
      exact eq_comm
    · next hk =>
      have hne : ¬ k = k' := fun he => hk he.symm
      simp only [ih h.2, hne, false_and, false_or]

theorem look_perm {k : κ} {l l' : List (κ × ν)} (h : (l.map Prod.fst).Nodup) (hp : l'.Perm l) :
    look k l' = look k l := by
  have h' : (l'.map Prod.fst).Nodup := (hp.map Prod.fst).nodup_iff.2 h
  refine Option.ext fun v => ?_
  rw [look_eq_some h, look_eq_some h', hp.mem_iff]

theorem look_eq_none {k : κ} {l : List (κ × ν)} : look k l = none ↔ k ∉ l.map Prod.fst := by
  induction l with
  | nil => simp [look]
  | cons p l ih =>
    obtain ⟨k', v'⟩ := p
    simp only [look, List.map_cons, List.mem_cons, not_or]
    split
    · next hk => simp [hk]
    · next hk => rw [ih]; exact ⟨fun h => ⟨fun he => hk he.symm, h⟩, And.right⟩

/-- An insertion-ordered map. -/
structure JsMap (κ ν : Type*) where
  entries : List (κ × ν)
  nodup : (entries.map Prod.fst).Nodup

namespace JsMap

/-- `new Map()`, or `{}`. -/
def empty : JsMap κ ν := ⟨[], List.nodup_nil⟩

/-- `m.get(k)`. -/
def get? (m : JsMap κ ν) (k : κ) : Option ν := look k m.entries

/-- `m.has(k)`. -/
def has (m : JsMap κ ν) (k : κ) : Bool := (m.get? k).isSome

/-- `m.set(k, v)`. -/
def set (m : JsMap κ ν) (k : κ) (v : ν) : JsMap κ ν := ⟨put k v m.entries, nodup_put m.nodup⟩

/-- `m.delete(k)`. -/
def delete (m : JsMap κ ν) (k : κ) : JsMap κ ν :=
  ⟨m.entries.filter (·.1 ≠ k), (List.filter_sublist.map _).nodup m.nodup⟩

/-- `m.values()`. -/
def values (m : JsMap κ ν) : List ν := m.entries.map Prod.snd

/-- `m.keys()`. -/
def keys (m : JsMap κ ν) : List κ := m.entries.map Prod.fst

/-- `{ ...m, ...n }`. -/
def spread (m n : JsMap κ ν) : JsMap κ ν := n.entries.foldl (fun m p => m.set p.1 p.2) m

/-- Setting `f k` at each `k` of a list, in order. -/
def tabulate (ks : List κ) (f : κ → ν) : JsMap κ ν := ks.foldl (fun m k => m.set k (f k)) empty

@[simp] theorem get?_empty {k : κ} : (empty : JsMap κ ν).get? k = none := rfl

theorem get?_set {m : JsMap κ ν} {k k' : κ} {v : ν} :
    (m.set k v).get? k' = if k = k' then some v else m.get? k' := look_put

theorem get?_eq_some {m : JsMap κ ν} {k : κ} {v : ν} : m.get? k = some v ↔ (k, v) ∈ m.entries :=
  look_eq_some m.nodup

theorem get?_delete {m : JsMap κ ν} {k k' : κ} : (m.delete k).get? k' = if k' = k then none else m.get? k' := by
  refine Option.ext fun v => ?_
  rw [get?_eq_some, delete, List.mem_filter]
  split
  next h => simp [h]
  next h => simp [get?_eq_some, h]

theorem get?_of_mem_values {m : JsMap κ ν} {v : ν} (h : v ∈ m.values) : ∃ k, m.get? k = some v := by
  obtain ⟨⟨k, v⟩, hm, rfl⟩ := List.mem_map.mp h
  exact ⟨k, get?_eq_some.mpr hm⟩

theorem mem_keys {m : JsMap κ ν} {k : κ} : k ∈ m.keys ↔ ∃ v, m.get? k = some v := by
  simp only [keys, List.mem_map, get?_eq_some]
  exact ⟨fun ⟨p, hp, he⟩ => ⟨p.2, he ▸ hp⟩, fun ⟨v, hv⟩ => ⟨(k, v), hv, rfl⟩⟩

theorem get?_foldl_set {f : κ → ν} {k : κ} :
    ∀ (ks : List κ) (m : JsMap κ ν),
      (ks.foldl (fun m k => m.set k (f k)) m).get? k = if k ∈ ks then some (f k) else m.get? k
  | [], m => by simp
  | k' :: ks, m => by
    rw [List.foldl_cons, get?_foldl_set ks, get?_set]
    by_cases h : k ∈ ks
    · simp [h]
    · by_cases hk : k' = k
      · simp [hk]
      · have hne : ¬ k = k' := fun he => hk he.symm
        simp [h, hk, hne]

theorem get?_tabulate {ks : List κ} {f : κ → ν} {k : κ} :
    (tabulate ks f).get? k = if k ∈ ks then some (f k) else none := by
  rw [tabulate, get?_foldl_set, get?_empty]

theorem mem_keys_set {m : JsMap κ ν} {k k' : κ} {v : ν} : k' ∈ (m.set k v).keys ↔ k' = k ∨ k' ∈ m.keys :=
  mem_keys_put

theorem mem_keys_spread {m n : JsMap κ ν} {k : κ} : k ∈ (m.spread n).keys ↔ k ∈ m.keys ∨ k ∈ n.keys := by
  have key : ∀ (l : List (κ × ν)) (m : JsMap κ ν),
      k ∈ (l.foldl (fun m p => m.set p.1 p.2) m).keys ↔ k ∈ m.keys ∨ k ∈ l.map Prod.fst := by
    intro l
    induction l with
    | nil => intro m; simp
    | cons p l ih =>
      intro m
      rw [List.foldl_cons, ih, mem_keys_set, List.map_cons, List.mem_cons]
      tauto
  exact key n.entries m

/-- Setting a value for each kept entry of a list that has each key once. -/
theorem get?_foldl_set_if {μ : Type*} (keep : κ × ν → Bool) (g : κ × ν → μ) (k : κ) :
    ∀ (l : List (κ × ν)) (m : JsMap κ μ), (l.map Prod.fst).Nodup →
      (l.foldl (fun m p => if keep p then m.set p.1 (g p) else m) m).get? k =
        ((look k l).bind fun v => if keep (k, v) then some (g (k, v)) else none).or (m.get? k)
  | [], m, _ => by simp [look]
  | (k', v') :: l, m, h => by
    simp only [List.map_cons, List.nodup_cons] at h
    rw [List.foldl_cons, get?_foldl_set_if keep g k l _ h.2, look]
    by_cases hk : k' = k
    · subst hk
      rw [look_eq_none.2 h.1]
      cases hkeep : keep (k', v') <;> simp [hkeep, get?_set]
    · have hm : (if keep (k', v') then m.set k' (g (k', v')) else m).get? k = m.get? k := by
        split <;> simp [get?_set, hk]
      rw [hm, if_neg hk]

end JsMap

/-! ## Sets -/

variable {α : Type*} [BEq α] [LawfulBEq α]

theorem nodup_eraseDups (l : List α) : l.eraseDups.Nodup := by
  induction hn : l.length using Nat.strong_induction_on generalizing l with
  | _ n ih =>
    cases l with
    | nil => exact List.nodup_nil
    | cons a l =>
      rw [List.eraseDups_cons, List.nodup_cons]
      refine ⟨fun h => ?_, ih _ ?_ _ rfl⟩
      · simpa using List.mem_eraseDups.1 h
      · subst hn
        exact Nat.lt_succ_of_le (List.length_filter_le _ l)

theorem eraseDups_of_nodup : ∀ {l : List α}, l.Nodup → l.eraseDups = l
  | [], _ => rfl
  | a :: l, h => by
    obtain ⟨ha, hl⟩ := List.nodup_cons.1 h
    have hf : l.filter (fun b => !b == a) = l := List.filter_eq_self.2 fun b hb => by
      have : b ≠ a := fun he => ha (he ▸ hb)
      simpa using this
    rw [List.eraseDups_cons, hf, eraseDups_of_nodup hl]

end Js
