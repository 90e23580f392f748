/-
The settings merge is a semilattice on the pubkey-keyed entries.

A document says something of every pubkey: what its entry ranks as, or absent
since the base (`Normalized.reading`). Merging takes the pointwise maximum of
the two readings (`reading_merge`), and writing the result out and reading it
back loses nothing while no tombstone is evicted (`reading_denormalize`), so
the laws of `max` are the laws of the merge. What a document shows
(`PerEventSettings.view`) is a function of its reading.
-/
import Nostrautica.Order.Register
import Nostrautica.Protocol.SettingsMerge

namespace Nostrautica.SettingsMerge

open Js

/-- What `win` compares: the stamp, then present over absent, then the text. -/
abbrev Rank := ℕ ×ₗ Bool ×ₗ JsString

def Entry.rank (e : Entry) : Rank := toLex (e.stamp, toLex (e.present, e.text.getD []))

theorem Entry.rank_lt {a b : Entry} : a.rank < b.rank ↔ a.stamp < b.stamp ∨ a.stamp = b.stamp ∧
    (a.present < b.present ∨ a.present = b.present ∧ a.text.getD [] < b.text.getD []) := by
  simp only [Entry.rank, Prod.Lex.toLex_lt_toLex]

theorem win_cases (a b : Entry) : (win a b = a ∧ b.rank ≤ a.rank) ∨ (win a b = b ∧ a.rank ≤ b.rank) := by
  simp only [win]
  split
  · next hs =>
    split
    · next h => exact .inl ⟨rfl, (Entry.rank_lt.2 (.inl h)).le⟩
    · next h => exact .inr ⟨rfl, (Entry.rank_lt.2 (.inl (by omega))).le⟩
  next hs =>
  have hs : a.stamp = b.stamp := not_not.1 hs
  split
  · next hp =>
    split
    · next h =>
      refine .inl ⟨rfl, (Entry.rank_lt.2 (.inr ⟨hs.symm, .inl ?_⟩)).le⟩
      revert hp h; cases a.present <;> cases b.present <;> decide
    · next h =>
      refine .inr ⟨rfl, (Entry.rank_lt.2 (.inr ⟨hs, .inl ?_⟩)).le⟩
      revert hp h; cases a.present <;> cases b.present <;> decide
  next hp =>
  have hp : a.present = b.present := not_not.1 hp
  split
  · next ht =>
    split
    · next h => exact .inl ⟨rfl, (Entry.rank_lt.2 (.inr ⟨hs.symm, .inr ⟨hp.symm, h⟩⟩)).le⟩
    · next h =>
      exact .inr ⟨rfl, (Entry.rank_lt.2 (.inr ⟨hs, .inr ⟨hp, lt_of_le_of_ne (not_lt.1 h) ht⟩⟩)).le⟩
  next ht =>
  have ht : a.text.getD [] = b.text.getD [] := not_not.1 ht
  exact .inl ⟨rfl, by simp only [Entry.rank, hs, hp, ht, le_refl]⟩

theorem rank_win (a b : Entry) : (win a b).rank = max a.rank b.rank := by
  rcases win_cases a b with ⟨h, hle⟩ | ⟨h, hle⟩
  · rw [h, max_eq_left hle]
  · rw [h, max_eq_right hle]

theorem Entry.stamp_le_of_rank_le {a b : Entry} (h : a.rank ≤ b.rank) : a.stamp ≤ b.stamp := by
  rcases h.lt_or_eq with h | h
  · rcases Entry.rank_lt.1 h with h | h <;> omega
  · exact (congrArg (fun r : Rank => (ofLex r).1) h).le

theorem stamp_win (a b : Entry) : (win a b).stamp = max a.stamp b.stamp := by
  rcases win_cases a b with ⟨h, hle⟩ | ⟨h, hle⟩
  · rw [h, max_eq_left (Entry.stamp_le_of_rank_le hle)]
  · rw [h, max_eq_right (Entry.stamp_le_of_rank_le hle)]

/-- The entry a base stands for. -/
def absentSince (base : Nat) : Entry := { present := false, stamp := base }

theorem rank_absent (b c : Nat) :
    (absentSince (max b c)).rank = max (absentSince b).rank (absentSince c).rank := by
  have hmono : ∀ {b c : Nat}, b ≤ c → (absentSince b).rank ≤ (absentSince c).rank := fun h => by
    rcases h.lt_or_eq with h | rfl
    · exact (Entry.rank_lt.2 (.inl h)).le
    · exact le_rfl
  rcases le_total b c with h | h
  · rw [max_eq_right h, max_eq_right (hmono h)]
  · rw [max_eq_left h, max_eq_left (hmono h)]

/-- Settings entries as a last-writer-wins register. -/
def entryRegister : Register Entry Rank ℕ where
  rank := Entry.rank
  stamp := Entry.stamp
  absent := absentSince
  pick := win
  rank_pick := rank_win
  stamp_pick := stamp_win
  stamp_absent := fun _ => rfl
  rank_absent := rank_absent

theorem mergeMaps_eq (a b : JsMap Hex32 Entry) (aBase bBase : Nat) :
    mergeMaps a aBase b bBase = entryRegister.merge a aBase b bBase := rfl

/-! ## Readings -/

/-- The four keyed fields of a document. -/
inductive Slot
  | list (f : SettingsListField)
  | notes
  deriving DecidableEq

def Normalized.slot (n : Normalized) : Slot → JsMap Hex32 Entry
  | .list f => n.lists f
  | .notes => n.notes

def SettingsClock.slot (c : SettingsClock) : Slot → JsMap Hex32 Nat
  | .list f => c.list f
  | .notes => c.notes

/-- What a document says of a pubkey in a field. -/
def Normalized.reading (n : Normalized) (s : Slot) (pk : Hex32) : Rank :=
  (entryRegister.read (n.slot s) n.base pk).rank

theorem slot_merge (na nb : Normalized) (f : Slot) : (mergeNormalized na nb).slot f =
    entryRegister.merge (na.slot f) na.base (nb.slot f) nb.base := by
  cases f <;> rfl

/-- **Merging takes the later word on every pubkey.** -/
theorem reading_merge (na nb : Normalized) (s : Slot) (pk : Hex32) :
    (mergeNormalized na nb).reading s pk = max (na.reading s pk) (nb.reading s pk) := by
  simp only [Normalized.reading, slot_merge]
  exact entryRegister.rank_read_merge

/-- The invariant of a normalized document: no entry is stamped before the
base, only present notes carry a text, and no key of `oddNotes` is a pubkey. -/
structure Normalized.Ok (n : Normalized) : Prop where
  above : ∀ f, entryRegister.Above (n.slot f) n.base
  bare : ∀ f pk e, (n.slot f).get? pk = some e → f ≠ .notes ∨ e.present = false → e.text.getD [] = []
  odd : ∀ k, k ∈ n.oddNotes.keys → isHex32 k = false

theorem Normalized.Ok.bare_read {n : Normalized} (h : n.Ok) {f : Slot} {pk : Hex32}
    (hf : f ≠ .notes ∨ (entryRegister.read (n.slot f) n.base pk).present = false) :
    (entryRegister.read (n.slot f) n.base pk).text.getD [] = [] := by
  cases hk : (n.slot f).get? pk with
  | none => rw [Register.read_of_get?_none hk]; rfl
  | some e => rw [Register.read_of_get? hk] at hf ⊢; exact h.bare f pk e hk hf

theorem odd_merge {na nb : Normalized} (ha : ∀ k, k ∈ na.oddNotes.keys → isHex32 k = false)
    (hb : ∀ k, k ∈ nb.oddNotes.keys → isHex32 k = false) :
    ∀ k, k ∈ (mergeNormalized na nb).oddNotes.keys → isHex32 k = false := by
  intro k hk
  simp only [mergeNormalized, JsMap.mem_keys_spread] at hk
  exact hk.elim (hb k) (ha k)

theorem Normalized.Ok.merge {na nb : Normalized} (ha : na.Ok) (hb : nb.Ok) : (mergeNormalized na nb).Ok where
  above f := by rw [slot_merge]; exact Register.Above.merge (ha.above f) (hb.above f)
  bare f pk e he hp := by
    rw [slot_merge, Register.get?_merge] at he
    split at he
    · cases he
      change f ≠ .notes ∨ (win _ _).present = false at hp
      change (win _ _).text.getD [] = []
      rcases win_cases (entryRegister.read (na.slot f) na.base pk) (entryRegister.read (nb.slot f) nb.base pk)
        with ⟨h, -⟩ | ⟨h, -⟩
      · rw [h] at hp ⊢; exact ha.bare_read hp
      · rw [h] at hp ⊢; exact hb.bare_read hp
    · cases he
  odd := odd_merge ha.odd hb.odd

/-! ## Reading a document in -/

theorem get?_addTombstone {m : JsMap Hex32 Entry} {k pk : Hex32} {t : Nat} :
    (addTombstone m (k, t)).get? pk = (m.get? pk).or (if k = pk then some (.mk false t none) else none) := by
  simp only [addTombstone]
  split
  · next h =>
    obtain ⟨e, he⟩ := Option.isSome_iff_exists.1 h
    split
    · next hk => rw [← hk, he]; rfl
    · rw [Option.or_none]
  · next h =>
    have hn : m.get? k = none := Option.not_isSome_iff_eq_none.1 h
    rw [JsMap.get?_set]
    split
    · next hk => rw [← hk, hn]; rfl
    · rw [Option.or_none]

theorem get?_addTombstones (stamps : JsMap Hex32 Nat) (m : JsMap Hex32 Entry) (pk : Hex32) :
    (addTombstones stamps m).get? pk = (m.get? pk).or ((stamps.get? pk).map fun t => .mk false t none) := by
  have key : ∀ (l : List (Hex32 × Nat)) (m : JsMap Hex32 Entry),
      (l.foldl addTombstone m).get? pk = (m.get? pk).or ((look pk l).map fun t => .mk false t none) := by
    intro l
    induction l with
    | nil => intro m; simp [look]
    | cons p l ih =>
      intro m
      rw [List.foldl_cons, ih, get?_addTombstone, Option.or_assoc, look]
      split <;> rfl
  exact key _ m

theorem get?_addNote {base : Nat} {stamps : JsMap Hex32 Nat} {k text : JsString} {pk : Hex32}
    {acc : JsMap Hex32 Entry × JsMap JsString JsString} :
    (addNote base stamps acc (k, text)).1.get? pk =
      if k = pk.val then some (.mk true ((stamps.get? pk).getD base) (some text)) else acc.1.get? pk := by
  simp only [addNote]
  by_cases hk : k = pk.val
  · subst hk
    simp [pk.ok, JsMap.get?_set]
  · rw [if_neg hk]
    split
    · next h =>
      have hne : (⟨k, h⟩ : Hex32) ≠ pk := fun he => hk (congrArg Hex32.val he)
      simp [JsMap.get?_set, hne]
    · rfl

theorem get?_normalizeNotes (base : Nat) (stamps : JsMap Hex32 Nat) (notes : JsMap JsString JsString) (pk : Hex32) :
    (normalizeNotes base stamps notes).1.get? pk =
      (notes.get? pk.val).map fun text => .mk true ((stamps.get? pk).getD base) (some text) := by
  have key : ∀ (l : List (JsString × JsString)) (acc : JsMap Hex32 Entry × JsMap JsString JsString),
      (l.map Prod.fst).Nodup → (l.foldl (addNote base stamps) acc).1.get? pk =
      ((look pk.val l).map fun text => .mk true ((stamps.get? pk).getD base) (some text)).or (acc.1.get? pk) := by
    intro l
    induction l with
    | nil => intro acc _; simp [look]
    | cons p l ih =>
      intro acc hn
      obtain ⟨k, text⟩ := p
      simp only [List.map_cons, List.nodup_cons] at hn
      rw [List.foldl_cons, ih _ hn.2, get?_addNote, look]
      by_cases hk : k = pk.val
      · subst hk
        simp [look_eq_none.2 hn.1]
      · rw [if_neg hk, if_neg hk]
  rw [normalizeNotes, key _ _ notes.nodup, JsMap.get?_empty, Option.or_none]
  rfl

theorem mem_keys_normalizeNotes {base : Nat} {stamps : JsMap Hex32 Nat} {notes : JsMap JsString JsString}
    {k : JsString} (h : k ∈ (normalizeNotes base stamps notes).2.keys) : isHex32 k = false := by
  have key : ∀ (l : List (JsString × JsString)) (acc : JsMap Hex32 Entry × JsMap JsString JsString),
      (∀ k ∈ acc.2.keys, isHex32 k = false) →
      ∀ k ∈ (l.foldl (addNote base stamps) acc).2.keys, isHex32 k = false := by
    intro l
    induction l with
    | nil => intro acc h; exact h
    | cons p l ih =>
      intro acc h
      refine ih _ fun k' hk' => ?_
      simp only [addNote] at hk'
      split at hk'
      · exact h k' hk'
      next hp =>
      simp only [recordSet] at hk'
      split at hk'
      · exact h k' hk'
      · rcases JsMap.mem_keys_set.1 hk' with rfl | hk'
        · simpa using hp
        · exact h k' hk'
  exact key _ _ (fun k hk => by cases hk) k h

/-- The text a present entry of a field has. -/
@[simp] def Slot.text : Slot → JsString → Option JsString
  | .list _, _ => none
  | .notes, t => some t

/-- What a document shows of a pubkey: nothing, or that it is in the list, or
its note. -/
def PerEventSettings.shown (s : PerEventSettings) : Slot → Hex32 → Option (Option JsString)
  | .list f, pk => if pk ∈ s.list f then some none else none
  | .notes, pk => (s.notes.get? pk.val).map some

/-- The clock's stamp of an entry. -/
def PerEventSettings.stamp (s : PerEventSettings) (f : Slot) (pk : Hex32) : Option Nat :=
  ((s.clock.getD {}).slot f).get? pk

theorem normalize_slot (s : StampedSettings) (f : Slot) (pk : Hex32) :
    ((normalize s).slot f).get? pk =
      ((s.settings.shown f pk).map fun text =>
        Entry.mk true ((s.settings.stamp f pk).getD (baseOf s)) text).or
      ((s.settings.stamp f pk).map fun t => Entry.mk false t none) := by
  cases f with
  | list f =>
    simp only [normalize, Normalized.slot, normalizeList, get?_addTombstones, JsMap.get?_foldl_set,
      JsMap.get?_empty, PerEventSettings.shown]
    split <;> rfl
  | notes =>
    simp only [normalize, Normalized.slot, get?_addTombstones, get?_normalizeNotes, PerEventSettings.shown,
      Option.map_map]
    rfl

/-- Every stamp of the clock is at or above the base; a document without a
clock has none. -/
def StampedSettings.WellFormed (s : StampedSettings) : Prop :=
  ∀ c, s.settings.clock = some c → ∀ f pk t, (c.slot f).get? pk = some t → s.settings.base.getD 0 ≤ t

theorem StampedSettings.WellFormed.le_stamp {s : StampedSettings} (h : s.WellFormed) {f : Slot} {pk : Hex32}
    {t : Nat} (ht : s.settings.stamp f pk = some t) : baseOf s ≤ t := by
  simp only [PerEventSettings.stamp] at ht
  cases hc : s.settings.clock with
  | none =>
    rw [hc] at ht
    rcases f with (_ | _ | _) | _ <;> cases ht
  | some c =>
    rw [hc] at ht
    simpa [baseOf, hc] using h c hc f pk t ht

theorem odd_normalize (s : StampedSettings) : ∀ k, k ∈ (normalize s).oddNotes.keys → isHex32 k = false :=
  fun _ hk => mem_keys_normalizeNotes hk

/-- Only present notes carry a text. -/
theorem bare_normalize (s : StampedSettings) (f : Slot) (pk : Hex32) (e : Entry)
    (he : ((normalize s).slot f).get? pk = some e) (hp : f ≠ .notes ∨ e.present = false) : e.text.getD [] = [] := by
  rw [normalize_slot] at he
  cases hs : s.settings.shown f pk with
  | some text =>
    simp only [hs, Option.map_some, Option.some_or, Option.some.injEq] at he
    subst he
    cases f with
    | list f =>
      simp only [PerEventSettings.shown] at hs
      split at hs <;> cases hs
      rfl
    | notes => simp at hp
  | none =>
    simp only [hs, Option.map_none, Option.none_or] at he
    obtain ⟨t, ht, rfl⟩ := Option.map_eq_some_iff.1 he
    rfl

/-- **A well-formed document reads into the invariant.** -/
theorem normalize_ok {s : StampedSettings} (h : s.WellFormed) : (normalize s).Ok where
  above f pk e he := by
    rw [normalize_slot] at he
    cases hs : s.settings.shown f pk with
    | some text =>
      simp only [hs, Option.map_some, Option.some_or, Option.some.injEq] at he
      subst he
      cases ht : s.settings.stamp f pk with
      | none => exact le_rfl
      | some t => exact h.le_stamp ht
    | none =>
      simp only [hs, Option.map_none, Option.none_or] at he
      obtain ⟨t, ht, rfl⟩ := Option.map_eq_some_iff.1 he
      exact h.le_stamp ht
  bare := bare_normalize s
  odd := odd_normalize s

/-! ## Writing a document out -/

/-- No field of a document holds more tombstones than a clock keeps. -/
def Normalized.NoEviction (n : Normalized) : Prop :=
  ∀ f, (tombstones n.base (n.slot f).entries).length ≤ maxSettingsTombstones

section Emit

variable {α : Type} {base : Nat} {m : JsMap Hex32 Entry} {onPresent : α → Hex32 → Entry → α} {out : α}

theorem nodup_ordered (m : JsMap Hex32 Entry) : ((m.entries.mergeSort entryLe).map Prod.fst).Nodup :=
  ((List.mergeSort_perm _ _).map _).nodup_iff.2 m.nodup

theorem look_ordered (m : JsMap Hex32 Entry) (pk : Hex32) : look pk (m.entries.mergeSort entryLe) = m.get? pk :=
  look_perm m.nodup (List.mergeSort_perm _ _)

/-- The two halves of what `emit` writes, each a fold of its own. -/
theorem emit_eq : emit base m onPresent out =
    ((m.entries.mergeSort entryLe).foldl (fun stamps p =>
        if p.2.present || (keepTombs base m).contains p.1 then stamps.set p.1 p.2.stamp else stamps) .empty,
      (m.entries.mergeSort entryLe).foldl (fun out p => if p.2.present then onPresent out p.1 p.2 else out) out) := by
  have key : ∀ (l : List (Hex32 × Entry)) (acc : JsMap Hex32 Nat × α),
      l.foldl (emitEntry (keepTombs base m) onPresent) acc =
      (l.foldl (fun stamps p =>
        if p.2.present || (keepTombs base m).contains p.1 then stamps.set p.1 p.2.stamp else stamps) acc.1,
       l.foldl (fun out p => if p.2.present then onPresent out p.1 p.2 else out) acc.2) := by
    intro l
    induction l with
    | nil => intro acc; rfl
    | cons p l ih =>
      intro acc
      simp only [List.foldl_cons, ih, emitEntry]
      cases p.2.present <;> cases (keepTombs base m).contains p.1 <;> rfl
  exact key _ _

theorem get?_emit_stamps (pk : Hex32) : (emit base m onPresent out).1.get? pk =
    (m.get? pk).bind fun e => if e.present || (keepTombs base m).contains pk then some e.stamp else none := by
  rw [emit_eq]
  simp only
  rw [JsMap.get?_foldl_set_if (fun p => p.2.present || (keepTombs base m).contains p.1) (fun p => p.2.stamp)
    pk _ _ (nodup_ordered m), look_ordered, JsMap.get?_empty, Option.or_none]

/-- With room for every tombstone, those kept are those above the base. -/
theorem contains_keepTombs (h : (tombstones base m.entries).length ≤ maxSettingsTombstones) {pk : Hex32}
    {e : Entry} (he : m.get? pk = some e) :
    (keepTombs base m).contains pk = (!e.present && e.stamp > base) := by
  have hlen : (tombstones base (m.entries.mergeSort entryLe)).length ≤ maxSettingsTombstones := by
    rwa [tombstones, ((List.mergeSort_perm _ _).filter _).length_eq]
  rw [Bool.eq_iff_iff, List.contains_iff_mem, keepTombs, Nat.sub_eq_zero_of_le hlen, List.drop_zero,
    List.mem_map]
  constructor
  · rintro ⟨⟨pk', e'⟩, hp, rfl⟩
    obtain ⟨hm, hp⟩ := List.mem_filter.1 hp
    rw [(List.mergeSort_perm _ _).mem_iff, ← JsMap.get?_eq_some, he] at hm
    cases hm
    exact hp
  · intro hp
    refine ⟨(pk, e), List.mem_filter.2 ⟨?_, hp⟩, rfl⟩
    rwa [(List.mergeSort_perm _ _).mem_iff, ← JsMap.get?_eq_some]

end Emit

theorem mem_emitList {n : Normalized} {f : SettingsListField} {pk : Hex32} :
    pk ∈ (emitList n f).2 ↔ ∃ e, (n.lists f).get? pk = some e ∧ e.present = true := by
  have key : ∀ (l : List (Hex32 × Entry)) (out : List Hex32),
      l.foldl (fun out p => if p.2.present then out ++ [p.1] else out) out =
      out ++ (l.filter fun p => p.2.present).map Prod.fst := by
    intro l
    induction l with
    | nil => intro out; simp
    | cons p l ih =>
      intro out
      rw [List.foldl_cons, ih]
      cases hp : p.2.present <;> simp [hp]
  rw [emitList, emit_eq, key, List.nil_append, List.mem_map]
  constructor
  · rintro ⟨⟨pk', e⟩, hp, rfl⟩
    obtain ⟨hm, hp⟩ := List.mem_filter.1 hp
    exact ⟨e, JsMap.get?_eq_some.2 ((List.mergeSort_perm _ _).mem_iff.1 hm), hp⟩
  · rintro ⟨e, he, hp⟩
    exact ⟨(pk, e), List.mem_filter.2 ⟨(List.mergeSort_perm _ _).mem_iff.2 (JsMap.get?_eq_some.1 he), hp⟩, rfl⟩

theorem get?_emitNotes {n : Normalized} {pk : Hex32} :
    (emitNotes n).2.get? pk.val =
      (n.notes.get? pk).bind fun e => if e.present then some (e.text.getD []) else none := by
  have key : ∀ (l : List (Hex32 × Entry)) (out : JsMap JsString JsString), (l.map Prod.fst).Nodup →
      (l.foldl (fun out p => if p.2.present then out.set p.1.val (p.2.text.getD []) else out) out).get? pk.val =
      ((look pk l).bind fun e => if e.present then some (e.text.getD []) else none).or (out.get? pk.val) := by
    intro l
    induction l with
    | nil => intro out _; simp [look]
    | cons p l ih =>
      intro out h
      obtain ⟨k, e⟩ := p
      simp only [List.map_cons, List.nodup_cons] at h
      rw [List.foldl_cons, ih _ h.2, look]
      by_cases hk : k = pk
      · subst hk
        rw [look_eq_none.2 h.1, if_pos rfl]
        cases he : e.present <;> simp [he, JsMap.get?_set]
      · have hv : k.val ≠ pk.val := fun hv => hk (Hex32.val_inj.1 hv)
        rw [if_neg hk]
        congr 1
        split
        · rw [JsMap.get?_set, if_neg hv]
        · rfl
  rw [emitNotes, emit_eq, key _ _ (nodup_ordered _), look_ordered, JsMap.get?_empty, Option.or_none]

/-- The notes written back out: the present ones, and those on no pubkey. -/
theorem get?_denormalize_notes {n : Normalized} (h : ∀ k, k ∈ n.oddNotes.keys → isHex32 k = false) (pk : Hex32) :
    (denormalize n).notes.get? pk.val =
      (n.notes.get? pk).bind fun e => if e.present then some (e.text.getD []) else none := by
  have key : ∀ (l : List (JsString × JsString)) (notes : JsMap JsString JsString),
      (∀ p ∈ l, isHex32 p.1 = false) →
      (l.foldl (fun notes p => if recordHas notes p.1 then notes else notes.set p.1 p.2) notes).get? pk.val =
      notes.get? pk.val := by
    intro l
    induction l with
    | nil => intro notes _; rfl
    | cons p l ih =>
      intro notes hl
      have hp : p.1 ≠ pk.val := fun he => by
        have := hl p List.mem_cons_self
        rw [he, pk.ok] at this
        cases this
      rw [List.foldl_cons, ih _ fun q hq => hl q (List.mem_cons_of_mem _ hq)]
      split
      · rfl
      · rw [JsMap.get?_set, if_neg hp]
  rw [denormalize, ← get?_emitNotes]
  exact key _ _ fun p hp => h p.1 (List.mem_map_of_mem hp)

theorem shown_denormalize {n : Normalized} (h : ∀ k, k ∈ n.oddNotes.keys → isHex32 k = false) (f : Slot) (pk : Hex32) :
    (denormalize n).shown f pk = ((n.slot f).get? pk).bind fun e =>
      if e.present then some (f.text (e.text.getD [])) else none := by
  cases f with
  | list f =>
    have hl : (denormalize n).list f = (emitList n f).2 := by cases f <;> rfl
    simp only [PerEventSettings.shown, hl, mem_emitList, Normalized.slot]
    cases he : (n.lists f).get? pk <;> simp
  | notes =>
    simp only [PerEventSettings.shown, get?_denormalize_notes h, Normalized.slot]
    cases he : n.notes.get? pk with
    | none => rfl
    | some e => cases hp : e.present <;> simp [hp]

theorem stamp_denormalize (n : Normalized) (f : Slot) (pk : Hex32) :
    (denormalize n).stamp f pk = ((n.slot f).get? pk).bind fun e =>
      if e.present || (keepTombs n.base (n.slot f)).contains pk then some e.stamp else none := by
  rcases f with (_ | _ | _) | _ <;> exact get?_emit_stamps pk

/-- Every entry keeps its stamp, but for the tombstones that say what the base says. -/
theorem stamp_denormalize_of_noEviction {n : Normalized} (h : n.NoEviction) (f : Slot) (pk : Hex32) :
    (denormalize n).stamp f pk = ((n.slot f).get? pk).bind fun e =>
      if e.present || e.stamp > n.base then some e.stamp else none := by
  rw [stamp_denormalize]
  cases he : (n.slot f).get? pk with
  | none => rw [Option.bind_none, Option.bind_none]
  | some e =>
    simp only [Option.bind_some, contains_keepTombs (h f) he]
    cases e.present <;> simp

/-- **Writing a document out and reading it back loses nothing** while no
tombstone is evicted. -/
theorem reading_denormalize {n : Normalized} (h : n.Ok) (hn : n.NoEviction) (createdAt : Int) (f : Slot)
    (pk : Hex32) : (normalize ⟨denormalize n, createdAt⟩).reading f pk = n.reading f pk := by
  have hget := normalize_slot ⟨denormalize n, createdAt⟩ f pk
  simp only [shown_denormalize h.odd, stamp_denormalize_of_noEviction hn] at hget
  refine Register.read_congr (r := entryRegister) (fun e he => ?_) (fun e he hno => ?_)
  · cases hk : (n.slot f).get? pk with
    | none =>
      rw [hk, Option.bind_none] at hget
      exact absurd (hget.symm.trans he) (by simp)
    | some e' =>
      refine ⟨e', rfl, ?_⟩
      rw [he, hk, Option.bind_some, Option.bind_some] at hget
      have hb := h.bare f pk e' hk
      cases hp : e'.present with
      | true =>
        simp only [hp, if_true, Bool.true_or, Option.map_some, Option.getD_some, Option.some_or,
          Option.some.injEq] at hget
        subst hget
        cases f with
        | list f => simp [entryRegister, Entry.rank, hp, hb (.inl (by simp))]
        | notes => simp [entryRegister, Entry.rank, hp]
      | false =>
        simp only [hp, Bool.false_or] at hget
        split at hget
        · cases hget
          simp [entryRegister, Entry.rank, hp, hb (.inr hp)]
        · cases hget
  · rw [hno, he, Option.bind_some, Option.bind_some] at hget
    have hb := h.bare f pk e he
    have ha := h.above f pk e he
    cases hp : e.present with
    | true => simp [hp] at hget
    | false =>
      simp only [hp, Bool.false_or] at hget
      split at hget
      · cases hget
      · next hs =>
        have hs : e.stamp = n.base := by
          have : ¬ e.stamp > n.base := by simpa using hs
          exact le_antisymm (not_lt.1 this) ha
        have hbase : (normalize ⟨denormalize n, createdAt⟩).base = n.base := rfl
        simp [entryRegister, Entry.rank, absentSince, hp, hs, hb (.inr hp), hbase]

/-- What is written out is well formed. -/
theorem denormalize_wellFormed {n : Normalized} (h : n.Ok) (createdAt : Int) :
    StampedSettings.WellFormed ⟨denormalize n, createdAt⟩ := by
  intro c hc f pk t ht
  cases hc
  have ht : (denormalize n).stamp f pk = some t := ht
  rw [stamp_denormalize] at ht
  obtain ⟨e, he, ht⟩ := Option.bind_eq_some_iff.1 ht
  split at ht <;> cases ht
  exact h.above f pk e he

/-! ## What a document shows -/

/-- The materialized view: the three lists as sets, and the notes on pubkeys. -/
structure View where
  list : SettingsListField → Set Hex32
  notes : Hex32 → Option JsString

def PerEventSettings.view (s : PerEventSettings) : View where
  list f := { pk | pk ∈ s.list f }
  notes pk := s.notes.get? pk.val

theorem view_congr {s s' : PerEventSettings} (h : ∀ f pk, s.shown f pk = s'.shown f pk) : s.view = s'.view := by
  have hl : ∀ f pk, pk ∈ s.list f ↔ pk ∈ s'.list f := fun f pk => by
    have := h (.list f) pk
    simp only [PerEventSettings.shown] at this
    split at this <;> split at this <;> simp_all
  have hn : ∀ pk : Hex32, s.notes.get? pk.val = s'.notes.get? pk.val := fun pk => by
    have := h .notes pk
    exact Option.map_injective (Option.some_injective _) this
  simp only [PerEventSettings.view, hl, hn]

/-- What a reading shows. -/
def shownAs (f : Slot) (r : Rank) : Option (Option JsString) :=
  if (ofLex (ofLex r).2).1 then some (f.text (ofLex (ofLex r).2).2) else none

theorem shownAs_reading {n : Normalized} {f : Slot} {pk : Hex32} :
    shownAs f (n.reading f pk) = ((n.slot f).get? pk).bind fun e =>
      if e.present then some (f.text (e.text.getD [])) else none := by
  cases he : (n.slot f).get? pk with
  | none => rw [Normalized.reading, Register.read_of_get?_none he]; rfl
  | some e => rw [Normalized.reading, Register.read_of_get? he]; rfl

theorem shown_normalize (s : StampedSettings) (f : Slot) (pk : Hex32) :
    s.settings.shown f pk = shownAs f ((normalize s).reading f pk) := by
  rw [shownAs_reading, normalize_slot]
  cases hs : s.settings.shown f pk with
  | none => cases s.settings.stamp f pk <;> rfl
  | some text =>
    cases f with
    | list f =>
      simp only [PerEventSettings.shown] at hs
      split at hs <;> cases hs
      rfl
    | notes =>
      obtain ⟨t, -, rfl⟩ := Option.map_eq_some_iff.1 hs
      rfl

/-- **A merge shows the later word on every pubkey.** -/
theorem shown_mergePerEventSettings (a b : StampedSettings) (f : Slot) (pk : Hex32) :
    (mergePerEventSettings a b).shown f pk =
      shownAs f (max ((normalize a).reading f pk) ((normalize b).reading f pk)) := by
  rw [← reading_merge, shownAs_reading]
  exact shown_denormalize (odd_merge (odd_normalize a) (odd_normalize b)) f pk

theorem reading_mergePerEventSettings {a b : StampedSettings} (ha : a.WellFormed) (hb : b.WellFormed)
    (h : (mergeNormalized (normalize a) (normalize b)).NoEviction) (createdAt : Int) (f : Slot) (pk : Hex32) :
    (normalize ⟨mergePerEventSettings a b, createdAt⟩).reading f pk =
      max ((normalize a).reading f pk) ((normalize b).reading f pk) := by
  rw [← reading_merge]
  exact reading_denormalize ((normalize_ok ha).merge (normalize_ok hb)) h createdAt f pk

theorem mergePerEventSettings_wellFormed {a b : StampedSettings} (ha : a.WellFormed) (hb : b.WellFormed)
    (createdAt : Int) : StampedSettings.WellFormed ⟨mergePerEventSettings a b, createdAt⟩ :=
  denormalize_wellFormed ((normalize_ok ha).merge (normalize_ok hb)) createdAt

/-- **The settings merge is a semilattice on what documents show**: order and
grouping do not matter while no intermediate document evicts a tombstone,
merging a document with itself shows the document, and what comes out is well
formed whenever it is stamped. -/
theorem mergePerEventSettings_semilattice {a b c : StampedSettings} (ha : a.WellFormed) (hb : b.WellFormed)
    (hc : c.WellFormed) :
    (mergePerEventSettings a b).view = (mergePerEventSettings b a).view ∧
    ((mergeNormalized (normalize a) (normalize b)).NoEviction →
      (mergeNormalized (normalize b) (normalize c)).NoEviction → ∀ t t',
      (mergePerEventSettings ⟨mergePerEventSettings a b, t⟩ c).view =
        (mergePerEventSettings a ⟨mergePerEventSettings b c, t'⟩).view) ∧
    (mergePerEventSettings a a).view = a.settings.view ∧
    ∀ t, StampedSettings.WellFormed ⟨mergePerEventSettings a b, t⟩ := by
  refine ⟨view_congr fun f pk => ?_, fun hab hbc t t' => view_congr fun f pk => ?_, view_congr fun f pk => ?_,
    mergePerEventSettings_wellFormed ha hb⟩
  · rw [shown_mergePerEventSettings, shown_mergePerEventSettings, max_comm]
  · rw [shown_mergePerEventSettings, shown_mergePerEventSettings, reading_mergePerEventSettings ha hb hab, reading_mergePerEventSettings hb hc hbc, max_assoc]
  · rw [shown_mergePerEventSettings, max_self, shown_normalize]

/-- One device favourites a person, another has a plain older document that does not. -/
theorem mergePerEventSettings_semilattice_legacy :
    let pk : Hex32 := ⟨List.replicate 64 48, by decide⟩
    let a : StampedSettings := ⟨{ favorites := [pk], clock := some {}, base := some 2000 }, 3⟩
    let b : StampedSettings := ⟨{ met := [pk] }, 1⟩
    (mergePerEventSettings ⟨mergePerEventSettings a b, 4⟩ a).view =
      (mergePerEventSettings a ⟨mergePerEventSettings b a, 5⟩).view := by
  intro pk a b
  have ha : a.WellFormed := by
    rintro c ⟨⟩ f pk t ht
    rcases f with (_ | _ | _) | _ <;> cases ht
  have hb : b.WellFormed := by
    rintro c ⟨⟩
  refine (mergePerEventSettings_semilattice ha hb ha).2.1 (fun f => ?_) (fun f => ?_) 4 5
  · rcases f with (_ | _ | _) | _ <;> decide
  · rcases f with (_ | _ | _) | _ <;> decide

end Nostrautica.SettingsMerge
