/-
When an edit of the settings beats the document it was made against (`edit_prevails_iff`): in a
merge of the two, in either order, just what the edited document shows is shown. An entry that was
taken out comes back where the clock has no room for its tombstone: where as many as a clock keeps
are ordered after it (`removed_favourite_back`).
-/
import Nostrautica.Js.NumberFacts
import Nostrautica.Protocol.SettingsMergeFacts

/-! ## The last of a sorted list -/

section

variable {α : Type*} {le : α → α → Bool} {l : List α} {x : α} {k : Nat}

/-- **An element of a sorted list is one of the last `k`** just when fewer than `k` are past it. -/
theorem List.mem_drop_length_sub_iff (hs : l.Pairwise fun a b => le a b = true) (hn : l.Nodup) (hrefl : le x x = true)
    (hanti : ∀ b ∈ l, le x b = true → le b x = true → b = x) (hx : x ∈ l) :
    x ∈ l.drop (l.length - k) ↔ (l.filter fun y => !le y x).length < k := by
  obtain ⟨a, b, rfl⟩ := List.append_of_mem hx
  obtain ⟨-, hxb, hab⟩ := List.pairwise_append.1 hs
  have hxb := (List.pairwise_cons.1 hxb).1
  have hnb : x ∉ b := (List.nodup_cons.1 (List.nodup_append.1 hn).2.1).1
  have ha : a.filter (fun y => !le y x) = [] := by
    refine List.filter_eq_nil_iff.2 fun y hy => ?_
    simp [hab y hy x List.mem_cons_self]
  have hb : b.filter (fun y => !le y x) = b := by
    refine List.filter_eq_self.2 fun y hy => ?_
    have hne : ¬ le y x = true := fun h => by
      have : y = x := hanti y (by simp [hy]) (hxb y hy) h
      exact hnb (this ▸ hy)
    simpa using hne
  have hf : (a ++ x :: b).filter (fun y => !le y x) = b := by
    rw [List.filter_append, ha, List.nil_append, List.filter_cons, hb, hrefl]
    rfl
  have hlen : (a ++ x :: b).length - k = a.length + (b.length + 1) - k := by simp
  rw [hf, hlen]
  constructor
  · intro h
    by_contra hk
    rw [show a.length + (b.length + 1) - k = a.length + (b.length + 1 - k) by omega, List.drop_append,
      List.drop_eq_nil_of_le (by omega), List.nil_append,
      show a.length + (b.length + 1 - k) - a.length = (b.length - k) + 1 by omega, List.drop_succ_cons] at h
    exact hnb (List.mem_of_mem_drop h)
  · intro hk
    have hle : a.length + (b.length + 1) - k ≤ a.length := by omega
    rw [List.drop_append_of_le_length hle]
    exact List.mem_append_right _ List.mem_cons_self

end

namespace Nostrautica.SettingsMerge

open Js

/-! ## The order of a clock -/

theorem entryLe_iff {x y : Hex32 × Entry} :
    entryLe x y = true ↔ x.2.stamp < y.2.stamp ∨ x.2.stamp = y.2.stamp ∧ x.1.val ≤ y.1.val := by
  simp only [entryLe]
  split
  · next h => simp [h]
  · next h =>
    simp only [decide_eq_true_eq, h, false_and, or_false]
    omega

theorem entryLe_trans (x y z : Hex32 × Entry) (h : entryLe x y = true) (h' : entryLe y z = true) :
    entryLe x z = true := by
  rw [entryLe_iff] at h h' ⊢
  rcases h with h | ⟨h, hk⟩
  · rcases h' with h' | ⟨h', -⟩ <;> exact .inl (by omega)
  · rcases h' with h' | ⟨h', hk'⟩
    · exact .inl (by omega)
    · exact .inr ⟨by omega, le_trans hk hk'⟩

theorem entryLe_total (x y : Hex32 × Entry) : (entryLe x y || entryLe y x) = true := by
  rw [Bool.or_eq_true, entryLe_iff, entryLe_iff]
  rcases lt_trichotomy x.2.stamp y.2.stamp with h | h | h
  · exact .inl (.inl h)
  · exact (le_total x.1.val y.1.val).imp (fun hk => .inr ⟨h, hk⟩) fun hk => .inr ⟨h.symm, hk⟩
  · exact .inr (.inl h)

theorem entryLe_antisymm {x y : Hex32 × Entry} (h : entryLe x y = true) (h' : entryLe y x = true) : x.1 = y.1 := by
  rw [entryLe_iff] at h h'
  rcases h with h | ⟨h, hk⟩
  · rcases h' with h' | ⟨h', -⟩ <;> omega
  · rcases h' with h' | ⟨-, hk'⟩
    · omega
    · exact Hex32.val_inj.1 (le_antisymm hk hk')

/-- The tombstones of a field that are ordered after an entry. -/
def tombstonesAfter (base : Nat) (m : JsMap Hex32 Entry) (p : Hex32 × Entry) : List (Hex32 × Entry) :=
  (tombstones base m.entries).filter fun q => !entryLe q p

variable {base : Nat} {m : JsMap Hex32 Entry} {pk : Hex32} {e : Entry}

/-- **A clock keeps a tombstone** just when it says more than the base and fewer than it keeps are after it. -/
theorem contains_keepTombs_iff (he : m.get? pk = some e) : (keepTombs base m).contains pk = true ↔
    e.present = false ∧ base < e.stamp ∧ (tombstonesAfter base m (pk, e)).length < maxSettingsTombstones := by
  have hperm := List.mergeSort_perm m.entries entryLe
  have hkeys := nodup_ordered m
  have hnodup : ((tombstones base (m.entries.mergeSort entryLe)).map Prod.fst).Nodup :=
    hkeys.sublist (List.Sublist.map _ List.filter_sublist)
  have hmem : ∀ e', (pk, e') ∈ m.entries.mergeSort entryLe ↔ e' = e := fun e' => by
    rw [hperm.mem_iff, ← JsMap.get?_eq_some, he, Option.some.injEq, eq_comm]
  have hlen : (tombstonesAfter base m (pk, e)).length =
      ((tombstones base (m.entries.mergeSort entryLe)).filter fun q => !entryLe q (pk, e)).length :=
    (((hperm.filter _).filter _).length_eq).symm
  have hin : (pk, e) ∈ tombstones base (m.entries.mergeSort entryLe) ↔ e.present = false ∧ base < e.stamp := by
    rw [tombstones, List.mem_filter]
    simp [(hmem e).2 rfl]
  have hsorted : (tombstones base (m.entries.mergeSort entryLe)).Pairwise fun a b => entryLe a b = true :=
    (List.pairwise_mergeSort entryLe_trans entryLe_total m.entries).sublist List.filter_sublist
  have hkeep : (keepTombs base m).contains pk = true ↔ (pk, e) ∈ (tombstones base (m.entries.mergeSort entryLe)).drop
      ((tombstones base (m.entries.mergeSort entryLe)).length - maxSettingsTombstones) := by
    rw [List.contains_iff_mem, keepTombs, List.mem_map]
    constructor
    · rintro ⟨⟨pk', e'⟩, hp, rfl⟩
      have : e' = e := (hmem e').1 (List.mem_filter.1 (List.mem_of_mem_drop hp)).1
      exact this ▸ hp
    · exact fun hp => ⟨(pk, e), hp, rfl⟩
  rw [hkeep, hlen, ← and_assoc, ← hin]
  have hlast := fun hm => List.mem_drop_length_sub_iff (x := (pk, e)) (k := maxSettingsTombstones) hsorted hnodup.of_map
    (entryLe_iff.2 (.inr ⟨rfl, le_rfl⟩))
    (fun b hb h1 h2 => List.inj_on_of_nodup_map hnodup hb hm (entryLe_antisymm h2 h1)) hm
  exact ⟨fun h => ⟨List.mem_of_mem_drop h, (hlast (List.mem_of_mem_drop h)).1 h⟩, fun h => (hlast h.1).2 h.2⟩

/-- What is written out of an entry and read back. -/
def Normalized.keeps (n : Normalized) (f : Slot) (pk : Hex32) : Bool :=
  (((n.slot f).get? pk).map Entry.present).getD false || (keepTombs n.base (n.slot f)).contains pk

/-- **A document that is written out and read back** says of each entry what it said, or that it is absent since the base. -/
theorem reading_denormalize_cases {n : Normalized} (hb : ∀ f pk e, (n.slot f).get? pk = some e →
    f ≠ .notes ∨ e.present = false → e.text.getD [] = []) (ho : ∀ k, k ∈ n.oddNotes.keys → isHex32 k = false)
    (createdAt : Int) (f : Slot) (pk : Hex32) : (normalize ⟨denormalize n, createdAt⟩).reading f pk =
      if n.keeps f pk then n.reading f pk else (absentSince n.base).rank := by
  have hbase : (normalize ⟨denormalize n, createdAt⟩).base = n.base := rfl
  have hslot := normalize_slot ⟨denormalize n, createdAt⟩ f pk
  simp only [shown_denormalize ho, stamp_denormalize] at hslot
  rcases Option.eq_none_or_eq_some ((n.slot f).get? pk) with he | ⟨e, he⟩
  · rw [he] at hslot
    simp [Normalized.reading, Normalized.keeps, Register.read, hslot, he, hbase, entryRegister]
  rw [he] at hslot
  cases hp : e.present with
  | true =>
    cases f with
    | list f =>
      simp [Normalized.reading, Normalized.keeps, Register.read, hslot, he, hp, entryRegister, Entry.rank,
        hb _ pk e he (.inl (by simp))]
    | notes =>
      simp [Normalized.reading, Normalized.keeps, Register.read, hslot, he, hp, entryRegister, Entry.rank]
  | false =>
    by_cases hk : pk ∈ keepTombs n.base (n.slot f)
    · simp [Normalized.reading, Normalized.keeps, Register.read, hslot, he, hp, hk, entryRegister, Entry.rank,
        hb _ pk e he (.inr hp)]
    · simp [Normalized.reading, Normalized.keeps, Register.read, hslot, he, hp, hk, hbase, entryRegister]

/-! ## An edit -/

def SettingsEdit.slot : SettingsEdit → Slot
  | .toggle f _ => .list f
  | .note _ _ => .notes

def SettingsEdit.pubkey : SettingsEdit → Hex32
  | .toggle _ pk => pk
  | .note pk _ => pk

/-- What a document holds of an entry before an edit, `cur`. -/
def Normalized.entry (n : Normalized) (f : Slot) (pk : Hex32) : Entry :=
  ((n.slot f).get? pk).getD { present := false, stamp := n.base }

/-- What an edit sets its entry to. -/
def Normalized.editedEntry (n : Normalized) (edit : SettingsEdit) (nowMs : Nat) : Entry :=
  let stamp := editStamp n (n.entry edit.slot edit.pubkey) nowMs
  match edit with
  | .toggle _ _ => { present := !(n.entry edit.slot edit.pubkey).present, stamp }
  | .note _ text => if trim text ≠ [] then { present := true, stamp, text := some (trim text) } else { present := false, stamp }

/-- The document after an edit, before it is written out. -/
def Normalized.edit (n : Normalized) (edit : SettingsEdit) (nowMs : Nat) : Normalized :=
  match edit with
  | .toggle f pk =>
    { n with lists := fun g => if g = f then (n.lists f).set pk (n.editedEntry edit nowMs) else n.lists g }
  | .note pk _ => { n with notes := n.notes.set pk (n.editedEntry edit nowMs) }

variable {n : Normalized} {edit : SettingsEdit} {nowMs : Nat} {f : Slot} {doc : StampedSettings}

theorem editPerEventSettings_eq :
    editPerEventSettings doc edit nowMs = denormalize ((normalize doc).edit edit nowMs) := by
  cases edit <;> rfl

@[simp] theorem base_edit : (n.edit edit nowMs).base = n.base := by cases edit <;> rfl

@[simp] theorem oddNotes_edit : (n.edit edit nowMs).oddNotes = n.oddNotes := by cases edit <;> rfl

theorem slot_edit : (n.edit edit nowMs).slot f =
    if f = edit.slot then (n.slot f).set edit.pubkey (n.editedEntry edit nowMs) else n.slot f := by
  cases edit with
  | toggle g pk =>
    cases f with
    | list f =>
      by_cases h : f = g
      · subst h; simp [Normalized.edit, Normalized.slot, SettingsEdit.slot, SettingsEdit.pubkey]
      · simp [Normalized.edit, Normalized.slot, SettingsEdit.slot, h]
    | notes => simp [Normalized.edit, Normalized.slot, SettingsEdit.slot]
  | note pk text => cases f <;> simp [Normalized.edit, Normalized.slot, SettingsEdit.slot, SettingsEdit.pubkey]

theorem get?_edit : ((n.edit edit nowMs).slot f).get? pk =
    if f = edit.slot ∧ edit.pubkey = pk then some (n.editedEntry edit nowMs) else (n.slot f).get? pk := by
  rw [slot_edit]
  by_cases hf : f = edit.slot
  · rw [if_pos hf, JsMap.get?_set]
    simp [hf]
  · rw [if_neg hf, if_neg fun h => hf h.1]

theorem bare_edit (hb : ∀ f pk e, (n.slot f).get? pk = some e → f ≠ .notes ∨ e.present = false → e.text.getD [] = [])
    (f : Slot) (pk : Hex32) (e : Entry) (he : ((n.edit edit nowMs).slot f).get? pk = some e)
    (hp : f ≠ .notes ∨ e.present = false) : e.text.getD [] = [] := by
  rw [get?_edit] at he
  split at he
  · next h =>
    cases he
    cases edit with
    | toggle g q => rfl
    | note q text =>
      simp only [Normalized.editedEntry] at hp ⊢
      split
      · next ht => simp [ht, h.1, SettingsEdit.slot] at hp
      · rfl
  · exact hb f pk e he hp

/-- The tombstones of a field, but for an entry's own, that are ordered after it. -/
def Normalized.othersAfter (n : Normalized) (f : Slot) (p : Hex32 × Entry) : List (Hex32 × Entry) :=
  (tombstones n.base (n.slot f).entries).filter fun q => q.1 ≠ p.1 && !entryLe q p

theorem filter_put {κ ν : Type} [DecidableEq κ] {k : κ} {v : ν} {P : κ × ν → Bool} (h : ∀ w, P (k, w) = false) :
    ∀ l : List (κ × ν), (put k v l).filter P = l.filter P
  | [] => by simp [put, h]
  | (k', v') :: l => by
    rw [put]
    split
    · next hk =>
      subst hk
      simp [List.filter_cons, h]
    · rw [List.filter_cons, List.filter_cons, filter_put h l]

/-- **The tombstone that an edit leaves** is kept where it is past the base and there is room. -/
theorem keepTombs_edit (hp : (n.editedEntry edit nowMs).present = false) :
    (keepTombs n.base ((n.edit edit nowMs).slot edit.slot)).contains edit.pubkey = true ↔
      n.base < (n.editedEntry edit nowMs).stamp ∧
        (n.othersAfter edit.slot (edit.pubkey, n.editedEntry edit nowMs)).length < maxSettingsTombstones := by
  have he : ((n.edit edit nowMs).slot edit.slot).get? edit.pubkey = some (n.editedEntry edit nowMs) := by
    rw [get?_edit, if_pos ⟨rfl, rfl⟩]
  have hself : entryLe (edit.pubkey, n.editedEntry edit nowMs) (edit.pubkey, n.editedEntry edit nowMs) = true :=
    entryLe_iff.2 (.inr ⟨rfl, le_rfl⟩)
  have hafter : tombstonesAfter n.base ((n.edit edit nowMs).slot edit.slot) (edit.pubkey, n.editedEntry edit nowMs) =
      n.othersAfter edit.slot (edit.pubkey, n.editedEntry edit nowMs) := by
    rw [slot_edit, if_pos rfl]
    simp only [tombstonesAfter, Normalized.othersAfter, tombstones, List.filter_filter, JsMap.set]
    rw [← filter_put (k := edit.pubkey) (v := n.editedEntry edit nowMs) (P := fun a =>
      (decide (a.1 ≠ edit.pubkey) && !entryLe a (edit.pubkey, n.editedEntry edit nowMs)) &&
        (!a.2.present && decide (a.2.stamp > n.base))) (by simp)]
    refine List.filter_congr fun q hq => ?_
    by_cases hk : q.1 = edit.pubkey
    · have hmem : (edit.pubkey, q.2) ∈ ((n.slot edit.slot).set edit.pubkey (n.editedEntry edit nowMs)).entries := hk ▸ hq
      rw [← JsMap.get?_eq_some, JsMap.get?_set, if_pos rfl, Option.some.injEq] at hmem
      have hq' : q = (edit.pubkey, n.editedEntry edit nowMs) := Prod.ext hk hmem.symm
      simp [hq', hself]
    · simp [hk]
  rw [contains_keepTombs_iff he, hafter]
  simp [hp]

/-! ## Notes on no pubkey -/

section

variable {k : JsString}

theorem get?_spread {a b : JsMap JsString JsString} : (a.spread b).get? k = (b.get? k).or (a.get? k) := by
  have h := JsMap.get?_foldl_set_if (fun _ => true) (fun p => p.2) k b.entries a b.nodup
  simp only [if_true] at h
  rw [JsMap.spread, h]
  cases hk : look k b.entries <;> simp [JsMap.get?, hk]

/-- A note on no pubkey is carried, unless its key is one that every object has. -/
theorem get?_denormalize_odd (hk : isHex32 k = false) (n : Normalized) :
    (denormalize n).notes.get? k = if objectPrototype.contains k then none else n.oddNotes.get? k := by
  have hemit : ∀ (l : List (Hex32 × Entry)) (out : JsMap JsString JsString),
      (l.foldl (fun out p => if p.2.present then out.set p.1.val (p.2.text.getD []) else out) out).get? k = out.get? k := by
    intro l
    induction l with
    | nil => exact fun out => rfl
    | cons p l ih =>
      intro out
      have hne : p.1.val ≠ k := fun he => by
        have := p.1.ok
        rw [he, hk] at this
        cases this
      rw [List.foldl_cons, ih]
      split
      · rw [JsMap.get?_set, if_neg hne]
      · rfl
  have hodd : ∀ (l : List (JsString × JsString)) (notes : JsMap JsString JsString),
      (l.foldl (fun notes p => if recordHas notes p.1 then notes else notes.set p.1 p.2) notes).get? k =
      (notes.get? k).or (if objectPrototype.contains k then none else look k l) := by
    intro l
    induction l with
    | nil => intro notes; simp [look]
    | cons p l ih =>
      intro notes
      rw [List.foldl_cons, ih, look]
      by_cases hp : p.1 = k
      · rw [if_pos hp, hp]
        cases hn : notes.get? k <;> by_cases ho : k ∈ objectPrototype <;>
          simp [recordHas, JsMap.has, JsMap.get?_set, hn, ho]
      · rw [if_neg hp]
        split
        · rfl
        · rw [JsMap.get?_set, if_neg hp]
  rw [denormalize]
  refine (hodd _ _).trans ?_
  rw [emitNotes, emit_eq]
  rw [hemit, JsMap.get?_empty, Option.none_or]
  rfl

/-- A note on no pubkey is read in, unless its key is `__proto__`. -/
theorem get?_normalize_odd (hk : isHex32 k = false) (s : StampedSettings) :
    (normalize s).oddNotes.get? k = if k = js "__proto__" then none else s.settings.notes.get? k := by
  have key : ∀ (base : Nat) (stamps : JsMap Hex32 Nat) (l : List (JsString × JsString))
      (acc : JsMap Hex32 Entry × JsMap JsString JsString), (l.map Prod.fst).Nodup →
      (l.foldl (addNote base stamps) acc).2.get? k =
        (if k = js "__proto__" then none else look k l).or (acc.2.get? k) := by
    intro base stamps l
    induction l with
    | nil => intro acc _; simp [look]
    | cons p l ih =>
      intro acc hn
      simp only [List.map_cons, List.nodup_cons] at hn
      rw [List.foldl_cons, ih _ hn.2, look, addNote]
      by_cases hp : p.1 = k
      · subst hp
        rw [dif_neg (by simp [hk]), look_eq_none.2 hn.1]
        by_cases ho : p.1 = js "__proto__"
        · simp [recordSet, ho]
        · simp [recordSet, ho, JsMap.get?_set]
      · rw [if_neg hp]
        congr 1
        by_cases hx : isHex32 p.1 = true
        · rw [dif_pos hx]
        · rw [dif_neg hx]
          simp only [recordSet]
          by_cases ho : p.1 = js "__proto__"
          · rw [if_pos ho]
          · rw [if_neg ho, JsMap.get?_set, if_neg hp]
  refine (key _ _ _ _ s.settings.notes.nodup).trans ?_
  rw [JsMap.get?_empty, Option.or_none]
  rfl

end

/-- The two documents show the same: the lists as sets, and all notes. -/
def PerEventSettings.Same (s s' : PerEventSettings) : Prop :=
  (∀ f pk, pk ∈ s.list f ↔ pk ∈ s'.list f) ∧ ∀ k, s.notes.get? k = s'.notes.get? k

theorem same_iff {s s' : PerEventSettings} : s.Same s' ↔
    (∀ f pk, s.shown f pk = s'.shown f pk) ∧ ∀ k, isHex32 k = false → s.notes.get? k = s'.notes.get? k := by
  constructor
  · rintro ⟨hl, hn⟩
    refine ⟨fun f pk => ?_, fun k _ => hn k⟩
    cases f with
    | list f => simp only [PerEventSettings.shown, hl f pk]
    | notes => simp only [PerEventSettings.shown, hn pk.val]
  · rintro ⟨h, ho⟩
    have hv := view_congr h
    refine ⟨fun f pk => ?_, fun k => ?_⟩
    · have := congrArg (fun v : View => pk ∈ v.list f) hv
      exact iff_of_eq this
    · by_cases hk : isHex32 k = true
      · exact congrArg (fun v : View => v.notes ⟨k, hk⟩) hv
      · exact ho k (by simpa using hk)

/-! ## The edited document against the one before -/

/-- An edit beats what its document says: the entry's new rank is no less than the old one, or its text is the same; an entry that was
taken out is absent by the base alone, or is stamped later and its tombstone is kept. -/
def Normalized.Prevails (n : Normalized) (edit : SettingsEdit) (nowMs : Nat) : Prop :=
  let cur := n.entry edit.slot edit.pubkey
  let e := n.editedEntry edit nowMs
  if e.present then cur.rank ≤ e.rank ∨ cur.present = true ∧ cur.text.getD [] = e.text.getD []
  else cur.present = true → cur.stamp < n.base ∨ max n.base cur.stamp < e.stamp ∧
    (n.othersAfter edit.slot (edit.pubkey, e)).length < maxSettingsTombstones

theorem shownAs_max_none {r r' : Rank} (h : shownAs f r = none) (h' : shownAs f r' = none) : shownAs f (max r r') = none := by
  rcases max_choice r r' with hm | hm
  · rwa [hm]
  · rwa [hm]

theorem shownAs_absent : shownAs f (absentSince base).rank = none := rfl

theorem reading_edit_other (h : ¬(f = edit.slot ∧ edit.pubkey = pk)) :
    (n.edit edit nowMs).reading f pk = n.reading f pk := by
  simp only [Normalized.reading, Register.read, get?_edit, if_neg h, base_edit]

theorem reading_edit_own : (n.edit edit nowMs).reading edit.slot edit.pubkey = (n.editedEntry edit nowMs).rank := by
  rw [Normalized.reading, Register.read_of_get? (by rw [get?_edit, if_pos ⟨rfl, rfl⟩])]

/-- Of another entry, the edited document says what the one before did, or nothing where that is not shown. -/
theorem shownAs_other (h : ¬(f = edit.slot ∧ edit.pubkey = pk)) (b : Bool) (hb : b = (n.edit edit nowMs).keeps f pk) :
    shownAs f (max (if b then (n.edit edit nowMs).reading f pk else (absentSince n.base).rank) (n.reading f pk)) =
      shownAs f ((n.edit edit nowMs).reading f pk) := by
  rw [reading_edit_other h]
  cases b with
  | true => rw [if_pos rfl, max_self]
  | false =>
    have hnone : shownAs f (n.reading f pk) = none := by
      rw [shownAs_reading]
      simp only [Normalized.keeps, get?_edit, if_neg h] at hb
      cases he : (n.slot f).get? pk with
      | none => rfl
      | some e =>
        cases hp : e.present with
        | true => simp [he, hp] at hb
        | false => simp [hp]
    rw [hnone]
    exact shownAs_max_none shownAs_absent hnone

theorem shownAs_rank (e : Entry) : shownAs f e.rank = if e.present then some (f.text (e.text.getD [])) else none := rfl

/-- A present entry is shown unless an absence is stamped later. -/
theorem shownAs_max_absent {a cur : Entry} (ha : a.present = false) (hcur : cur.present = true) :
    shownAs f (max a.rank cur.rank) = none ↔ cur.stamp < a.stamp := by
  rcases lt_or_ge cur.rank a.rank with h | h
  · rw [max_eq_left h.le, shownAs_rank, ha]
    rcases Entry.rank_lt.1 h with h | ⟨-, h | ⟨h, -⟩⟩
    · simp [h]
    · rw [ha] at h
      exact absurd h (by simp)
    · rw [ha, hcur] at h
      cases h
  · rw [max_eq_right h, shownAs_rank, hcur]
    have := Entry.stamp_le_of_rank_le h
    simp
    omega

/-- **An edit of an entry beats the old entry** just as it prevails. -/
theorem shownAs_own_iff {b : Bool} (hb : b = (n.edit edit nowMs).keeps edit.slot edit.pubkey) :
    shownAs edit.slot (max (if b then (n.editedEntry edit nowMs).rank else (absentSince n.base).rank)
        (n.entry edit.slot edit.pubkey).rank) = shownAs edit.slot (n.editedEntry edit nowMs).rank ↔
      n.Prevails edit nowMs := by
  have hget : ((n.edit edit nowMs).slot edit.slot).get? edit.pubkey = some (n.editedEntry edit nowMs) := by
    rw [get?_edit, if_pos ⟨rfl, rfl⟩]
  simp only [Normalized.keeps, hget, Option.map_some, Option.getD_some, base_edit] at hb
  simp only [Normalized.Prevails]
  cases he : (n.editedEntry edit nowMs).present with
  | true =>
    have hb : b = true := by rw [hb, he, Bool.true_or]
    rw [if_pos hb, if_pos rfl]
    rcases le_or_gt (n.entry edit.slot edit.pubkey).rank (n.editedEntry edit nowMs).rank with h | h
    · rw [max_eq_left h]
      simp [h]
    · rw [max_eq_right h.le, shownAs_rank, shownAs_rank, he]
      simp only [not_le.2 h, false_or, if_true]
      cases edit with
      | toggle g pk =>
        have hcur : (n.entry (SettingsEdit.toggle g pk).slot (SettingsEdit.toggle g pk).pubkey).present = false := by
          simpa [Normalized.editedEntry] using he
        simp [hcur]
      | note pk text =>
        cases (n.entry (SettingsEdit.note pk text).slot (SettingsEdit.note pk text).pubkey).present with
        | false => simp
        | true => simp [SettingsEdit.slot]
  | false =>
    rw [he, Bool.false_or] at hb
    have hkeep := hb ▸ keepTombs_edit he
    simp only [shownAs_rank (n.editedEntry edit nowMs), he]
    cases hcur : (n.entry edit.slot edit.pubkey).present with
    | false =>
      have hold : shownAs edit.slot (n.entry edit.slot edit.pubkey).rank = none := by simp [shownAs_rank, hcur]
      refine iff_of_true (shownAs_max_none ?_ hold) (by simp)
      cases b with
      | true => simp [shownAs_rank, he]
      | false => exact shownAs_absent
    | true =>
      cases b with
      | true =>
        have hk := hkeep.1 rfl
        refine (shownAs_max_absent he hcur).trans ?_
        simp only [hk.2, and_true, Bool.false_eq_true, if_false, forall_const]
        omega
      | false =>
        have hk : ¬ (_ ∧ _) := fun h => Bool.false_ne_true (hkeep.2 h)
        refine (shownAs_max_absent (a := absentSince n.base) rfl hcur).trans ?_
        simp only [Bool.false_eq_true, if_false, forall_const]
        exact ⟨.inl, fun h => h.elim id fun h => absurd ⟨(max_lt_iff.1 h.1).1, h.2⟩ hk⟩

theorem shown_edit : (editPerEventSettings doc edit nowMs).shown f pk =
    shownAs f (((normalize doc).edit edit nowMs).reading f pk) := by
  rw [editPerEventSettings_eq, shown_denormalize (by simpa using odd_normalize doc), shownAs_reading]

theorem reading_edited (createdAt : Int) : (normalize ⟨editPerEventSettings doc edit nowMs, createdAt⟩).reading f pk =
    if ((normalize doc).edit edit nowMs).keeps f pk then ((normalize doc).edit edit nowMs).reading f pk
      else (absentSince (normalize doc).base).rank := by
  rw [editPerEventSettings_eq, reading_denormalize_cases (bare_edit (bare_normalize doc)) (by simpa using odd_normalize doc),
    base_edit]

/-- Notes on no pubkey are the same in the merge as in the edited document. -/
theorem odd_edited {k : JsString} (hk : isHex32 k = false) (createdAt : Int) :
    (mergePerEventSettings ⟨editPerEventSettings doc edit nowMs, createdAt⟩ doc).notes.get? k =
        (editPerEventSettings doc edit nowMs).notes.get? k ∧
      (mergePerEventSettings doc ⟨editPerEventSettings doc edit nowMs, createdAt⟩).notes.get? k =
        (editPerEventSettings doc edit nowMs).notes.get? k := by
  simp only [mergePerEventSettings, get?_denormalize_odd hk, mergeNormalized, get?_spread, get?_normalize_odd hk,
    editPerEventSettings_eq, oddNotes_edit]
  by_cases ho : objectPrototype.contains k = true
  · simp only [if_pos ho, and_self]
  · have hp : k ≠ js "__proto__" := fun h => ho (by rw [h]; decide)
    simp only [if_neg ho, if_neg hp, Option.or_self, and_self]

/-- Of another entry, a merge shows what the edited document does. -/
theorem shown_merge_other (h : ¬(f = edit.slot ∧ edit.pubkey = pk)) (createdAt : Int) :
    (mergePerEventSettings ⟨editPerEventSettings doc edit nowMs, createdAt⟩ doc).shown f pk =
      (editPerEventSettings doc edit nowMs).shown f pk := by
  rw [shown_mergePerEventSettings, shown_edit, reading_edited]
  exact shownAs_other h _ rfl

/-- Of its own entry, it does just as the edit prevails. -/
theorem shown_merge_own_iff (createdAt : Int) :
    (mergePerEventSettings ⟨editPerEventSettings doc edit nowMs, createdAt⟩ doc).shown edit.slot edit.pubkey =
      (editPerEventSettings doc edit nowMs).shown edit.slot edit.pubkey ↔ (normalize doc).Prevails edit nowMs := by
  rw [shown_mergePerEventSettings, shown_edit, reading_edited, reading_edit_own]
  exact shownAs_own_iff rfl

theorem shown_merge_comm (a b : StampedSettings) (f : Slot) (pk : Hex32) :
    (mergePerEventSettings a b).shown f pk = (mergePerEventSettings b a).shown f pk := by
  rw [shown_mergePerEventSettings, shown_mergePerEventSettings, max_comm]

theorem addOne_of_lt {t : Nat} (h : t < 2 ^ 53) : addOne t = t + 1 := by
  have hlt : 2 ^ 53 < numberLimit := by decide +kernel
  have hdouble : IsDouble (t + 1) := by
    have := isDouble_of_mul (m := t + 1) (s := 0) (by omega) (by simp only [pow_zero, mul_one]; omega)
    simpa using this
  rw [addOne, roundRatio_of_isDouble hdouble, Option.getD_some]

/-- Where the entry and the base are stamped below 2 ^ 53, an edit prevails but for a tombstone without room. -/
theorem prevails_iff_of_lt (hcur : (n.entry edit.slot edit.pubkey).stamp < 2 ^ 53) (hbase : n.base < 2 ^ 53) :
    n.Prevails edit nowMs ↔ ((n.editedEntry edit nowMs).present = false → (n.entry edit.slot edit.pubkey).present = true →
      (n.entry edit.slot edit.pubkey).stamp < n.base ∨
        (n.othersAfter edit.slot (edit.pubkey, n.editedEntry edit nowMs)).length < maxSettingsTombstones) := by
  have hstamp : (n.editedEntry edit nowMs).stamp = editStamp n (n.entry edit.slot edit.pubkey) nowMs := by
    cases edit with
    | toggle g pk => rfl
    | note pk text =>
      simp only [Normalized.editedEntry]
      split <;> rfl
  have hlate : max n.base (n.entry edit.slot edit.pubkey).stamp < (n.editedEntry edit nowMs).stamp := by
    rw [hstamp, editStamp, addOne_of_lt hcur, addOne_of_lt hbase]
    omega
  simp only [Normalized.Prevails]
  cases he : (n.editedEntry edit nowMs).present with
  | true =>
    have hle : (n.entry edit.slot edit.pubkey).rank ≤ (n.editedEntry edit nowMs).rank :=
      (Entry.rank_lt.2 (.inl (lt_of_le_of_lt (le_max_right _ _) hlate))).le
    simp [hle]
  | false => simp only [Bool.false_eq_true, if_false, hlate, true_and, forall_const]

/-- **Just which edits beat the document they were made against**: where the edited document and the one before are merged, in
either order, the edited one is shown, if and only if the edit prevails. -/
theorem edit_prevails_iff (doc : StampedSettings) (edit : SettingsEdit) (nowMs : Nat) :
    (∀ createdAt,
      (mergePerEventSettings ⟨editPerEventSettings doc edit nowMs, createdAt⟩ doc).Same (editPerEventSettings doc edit nowMs) ∧
      (mergePerEventSettings doc ⟨editPerEventSettings doc edit nowMs, createdAt⟩).Same (editPerEventSettings doc edit nowMs)) ↔
    (normalize doc).Prevails edit nowMs := by
  constructor
  · intro h
    exact (shown_merge_own_iff 0).1 ((same_iff.1 (h 0).1).1 edit.slot edit.pubkey)
  · intro h createdAt
    have hshown : ∀ f pk, (mergePerEventSettings ⟨editPerEventSettings doc edit nowMs, createdAt⟩ doc).shown f pk =
        (editPerEventSettings doc edit nowMs).shown f pk := fun f pk => by
      by_cases hp : f = edit.slot ∧ edit.pubkey = pk
      · obtain ⟨rfl, rfl⟩ := hp
        exact (shown_merge_own_iff createdAt).2 h
      · exact shown_merge_other hp createdAt
    refine ⟨same_iff.2 ⟨hshown, fun k hk => (odd_edited hk createdAt).1⟩,
      same_iff.2 ⟨fun f pk => ?_, fun k hk => (odd_edited hk createdAt).2⟩⟩
    rw [shown_merge_comm, hshown]

/-! ## A clock without room -/

namespace Full

def hexDigit (d : Fin 16) : CodeUnit := codeUnit (if d.val < 10 then 48 + d.val else 87 + d.val)

/-- A person, by the two hex digits that the pubkey starts with. -/
def person (a b : Fin 16) : Hex32 :=
  ⟨hexDigit a :: hexDigit b :: List.replicate 62 (codeUnit 48), by
    have hrest : isLowerHex 62 (List.replicate 62 (codeUnit 48)) = true := by decide
    have hdigit : ∀ d : Fin 16, isLowerHexDigit (hexDigit d) = true := by decide
    simp only [isHex32, isLowerHex, Bool.and_eq_true, beq_iff_eq, List.length_cons, List.all_cons] at hrest ⊢
    exact ⟨by rw [hrest.1], hdigit a, hdigit b, hrest.2⟩⟩

theorem person_injective : Function.Injective fun p : Fin 16 × Fin 16 => person p.1 p.2 := by
  have hdigit : ∀ a b : Fin 16, hexDigit a = hexDigit b → a = b := by decide +kernel
  rintro ⟨a, b⟩ ⟨a', b'⟩ h
  have h := congrArg Hex32.val h
  simp only [person, List.cons.injEq, and_true] at h
  rw [hdigit _ _ h.1, hdigit _ _ h.2]

/-- Those who were taken out. -/
def people : List Hex32 := ((List.finRange 16 ×ˢ List.finRange 16).map fun p => person p.1 p.2).take 200

theorem nodup_people : people.Nodup :=
  (((List.nodup_finRange 16).product (List.nodup_finRange 16)).map person_injective).sublist (List.take_sublist _ _)

/-- 200 favourites were taken out on a device whose time is far ahead, and one is left. -/
def settings : StampedSettings where
  createdAt := 2
  settings :=
    { favorites := [person 15 15]
      clock := some { favorites := .tabulate (people) fun _ => 4000000000000 }
      base := some 1000 }

theorem base_settings : (normalize settings).base = 1000 := rfl

theorem not_mem_people : person 15 15 ∉ people := by decide +kernel

theorem get?_settings (pk : Hex32) : ((normalize settings).slot (.list .favorites)).get? pk =
    if pk = person 15 15 then some (.mk true 1000 none) else if pk ∈ people then some (.mk false 4000000000000 none) else none := by
  rw [normalize_slot]
  by_cases hpk : pk = person 15 15
  · simp [PerEventSettings.shown, PerEventSettings.stamp, PerEventSettings.list, SettingsClock.slot, SettingsClock.list, baseOf,
      settings, JsMap.get?_tabulate, hpk, not_mem_people]
  · by_cases hp : pk ∈ people <;>
      simp [PerEventSettings.shown, PerEventSettings.stamp, PerEventSettings.list, SettingsClock.slot, SettingsClock.list,
        settings, JsMap.get?_tabulate, hpk, hp]

theorem entry_settings : (normalize settings).entry (.list .favorites) (person 15 15) = .mk true 1000 none := by
  rw [Normalized.entry, get?_settings, if_pos rfl, Option.getD_some]

/-- The edit, on a device whose time is right. -/
def takeOut : SettingsEdit := .toggle .favorites (person 15 15)

theorem slot_takeOut : takeOut.slot = .list .favorites := rfl

theorem pubkey_takeOut : takeOut.pubkey = person 15 15 := rfl

theorem editedEntry_settings : (normalize settings).editedEntry takeOut 5000 = .mk false 5000 none := by
  have hadd : addOne 1000 = 1001 := addOne_of_lt (by decide)
  simp [takeOut, Normalized.editedEntry, SettingsEdit.slot, SettingsEdit.pubkey, entry_settings, editStamp, base_settings, hadd]

/-- All 200 are ordered after the tombstone of the edit. -/
theorem no_room : maxSettingsTombstones ≤
    ((normalize settings).othersAfter (.list .favorites) (person 15 15, .mk false 5000 none)).length := by
  have hsub : people ⊆
      ((normalize settings).othersAfter (.list .favorites) (person 15 15, .mk false 5000 none)).map Prod.fst := by
    intro pk hpk
    have hne : pk ≠ person 15 15 := fun h => not_mem_people (h ▸ hpk)
    have hg := get?_settings pk
    rw [if_neg hne, if_pos hpk, JsMap.get?_eq_some] at hg
    have hlt : ¬ entryLe (pk, .mk false 4000000000000 none) (person 15 15, .mk false 5000 none) = true := by
      rw [entryLe_iff]
      simp
    refine List.mem_map.2 ⟨_, List.mem_filter.2 ⟨List.mem_filter.2 ⟨hg, by simp [base_settings]⟩, ?_⟩, rfl⟩
    simpa [hne] using hlt
  have hlen := (nodup_people.subperm hsub).length_le
  rw [List.length_map] at hlen
  exact hlen

theorem not_prevails : ¬ (normalize settings).Prevails takeOut 5000 := by
  have hcur : (normalize settings).entry takeOut.slot takeOut.pubkey = .mk true 1000 none := entry_settings
  rw [prevails_iff_of_lt (by rw [hcur]; decide) (by decide), editedEntry_settings, hcur]
  simp only [forall_const, not_or, not_lt]
  exact ⟨by decide, no_room⟩

end Full

/-- **A favourite that was taken out comes back**: its tombstone has no room in the clock. -/
theorem removed_favourite_back : let edited := editPerEventSettings Full.settings Full.takeOut 5000
    Full.person 15 15 ∈ Full.settings.settings.favorites ∧ Full.person 15 15 ∉ edited.favorites ∧
      Full.person 15 15 ∈ (mergePerEventSettings ⟨edited, 5⟩ Full.settings).favorites ∧
      Full.person 15 15 ∈ (mergePerEventSettings Full.settings ⟨edited, 5⟩).favorites := by
  have hleft : (editPerEventSettings Full.settings Full.takeOut 5000).shown (.list .favorites) (Full.person 15 15) = none := by
    rw [shown_edit]
    refine (congrArg (shownAs _) reading_edit_own).trans ?_
    rw [Full.editedEntry_settings]
    rfl
  have hmem : ∀ s : PerEventSettings, Full.person 15 15 ∈ s.favorites ↔ s.shown (.list .favorites) (Full.person 15 15) ≠ none :=
    fun s => by
      by_cases h : Full.person 15 15 ∈ s.favorites <;> simp [PerEventSettings.shown, PerEventSettings.list, h]
  have hback : (mergePerEventSettings ⟨editPerEventSettings Full.settings Full.takeOut 5000, 5⟩ Full.settings).shown
      (.list .favorites) (Full.person 15 15) ≠ none := by
    have hown := mt (shown_merge_own_iff 5).1 Full.not_prevails
    rw [Full.slot_takeOut, Full.pubkey_takeOut, hleft] at hown
    exact hown
  have hin : Full.person 15 15 ∈ Full.settings.settings.favorites := by
    rw [Full.settings]
    exact List.mem_singleton_self _
  refine ⟨hin, (hmem _).not.2 (not_not.2 hleft), (hmem _).2 hback, (hmem _).2 ?_⟩
  rw [shown_merge_comm]
  exact hback

end Nostrautica.SettingsMerge
