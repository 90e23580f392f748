/-
`mergeByPos` and `splitByPos` of `protocol/src/event-page.ts`, which `mergeMenu`, `splitMenu`,
`mergeSections` and `splitSections` call: the public and the members-only items of an event page,
in one list and apart.

An item is what its schema leaves of it, so it has no `pos` and no `membersOnly` of its own.

Members-only items go into the list and come out of it again as they were, in both directions
(`merge_split`, `split_merge`).
-/
import Mathlib

namespace Nostrautica.EventPage

/-- `Positioned<T>`. -/
structure Positioned (α : Type) where
  item : α
  pos : Int
  deriving DecidableEq

/-- `Merged<T>`. -/
structure Merged (α : Type) where
  item : α
  membersOnly : Bool
  deriving DecidableEq

variable {α : Type}

/-- `(a, b) => a.pos - b.pos`. -/
def posLe (a b : Positioned α) : Bool := a.pos ≤ b.pos

/-- One turn of the loop of `mergeByPos`. -/
def place (merged : List (Merged α)) (p : Positioned α) : List (Merged α) :=
  let idx := (min (max 0 p.pos) merged.length).toNat
  merged.take idx ++ ⟨p.item, true⟩ :: merged.drop idx

def mergeByPos (publicItems : List α) (privateItems : List (Positioned α)) : List (Merged α) :=
  (privateItems.mergeSort posLe).foldl place (publicItems.map fun item => ⟨item, false⟩)

/-- One turn of the loop of `splitByPos`. -/
def part (acc : List α × List (Positioned α)) (m : Merged α × Nat) : List α × List (Positioned α) :=
  if m.1.membersOnly then (acc.1, acc.2 ++ [⟨m.1.item, m.2⟩]) else (acc.1 ++ [m.1.item], acc.2)

def splitByPos (merged : List (Merged α)) : List α × List (Positioned α) := merged.zipIdx.foldl part ([], [])

variable {α : Type}

/-! ## Putting items in -/

theorem place_eq {l : List (Merged α)} {p : Positioned α} (h0 : 0 ≤ p.pos) (h : p.pos ≤ l.length) :
    place l p = l.take p.pos.toNat ++ ⟨p.item, true⟩ :: l.drop p.pos.toNat := by
  have hidx : (min (max 0 p.pos) (l.length : Int)).toNat = p.pos.toNat := by omega
  simp only [place, hidx]

theorem length_place {l : List (Merged α)} {p : Positioned α} : (place l p).length = l.length + 1 := by
  simp only [place, List.length_append, List.length_cons, List.length_take, List.length_drop]
  omega

theorem length_foldl_place (ps : List (Positioned α)) (l : List (Merged α)) :
    (ps.foldl place l).length = l.length + ps.length := by
  induction ps generalizing l with
  | nil => rfl
  | cons p ps ih =>
    rw [List.foldl_cons, ih, length_place, List.length_cons]
    omega

/-- There is room for each item where it is to be. -/
def Fits (n : Nat) (ps : List (Positioned α)) : Prop :=
  ∀ (i : Nat) (p : Positioned α), ps[i]? = some p → 0 ≤ p.pos ∧ p.pos ≤ (n + i : Nat)

theorem fits_append_singleton {n : Nat} {ps : List (Positioned α)} {p : Positioned α} :
    Fits n (ps ++ [p]) ↔ Fits n ps ∧ 0 ≤ p.pos ∧ p.pos ≤ (n + ps.length : Nat) := by
  constructor
  · intro h
    refine ⟨fun i q hq => h i q ?_, h ps.length p ?_⟩
    · rw [List.getElem?_append_left (List.getElem?_eq_some_iff.1 hq).1, hq]
    · rw [List.getElem?_append_right le_rfl, Nat.sub_self]
      rfl
  · rintro ⟨hps, hp⟩ i q hq
    rcases lt_trichotomy i ps.length with hi | rfl | hi
    · rw [List.getElem?_append_left hi] at hq
      exact hps i q hq
    · rw [List.getElem?_append_right le_rfl, Nat.sub_self] at hq
      cases hq
      exact hp
    · rw [List.getElem?_eq_none (by simp; omega)] at hq
      cases hq

/-- An item that is placed within a list leaves what is after it. -/
theorem place_append {l r : List (Merged α)} {p : Positioned α} (h0 : 0 ≤ p.pos) (h : p.pos ≤ l.length) :
    place (l ++ r) p = place l p ++ r := by
  have hle : p.pos.toNat ≤ l.length := by omega
  rw [place_eq h0 h, place_eq h0 (by rw [List.length_append]; omega), List.take_append_of_le_length hle,
    List.drop_append_of_le_length hle, List.append_assoc, List.cons_append]

theorem foldl_place_append {ps : List (Positioned α)} {l : List (Merged α)} (r : List (Merged α))
    (h : Fits l.length ps) : ps.foldl place (l ++ r) = ps.foldl place l ++ r := by
  induction ps using List.reverseRecOn with
  | nil => rfl
  | append_singleton ps p ih =>
    obtain ⟨hps, h0, hp⟩ := fits_append_singleton.1 h
    rw [List.foldl_append, List.foldl_append, ih hps]
    simp only [List.foldl_cons, List.foldl_nil]
    exact place_append h0 (by rw [length_foldl_place]; exact hp)

/-! ## Taking items out -/

theorem splitByPos_append_singleton (l : List (Merged α)) (m : Merged α) :
    splitByPos (l ++ [m]) = part (splitByPos l) (m, l.length) := by
  rw [splitByPos, splitByPos, List.zipIdx_append, List.foldl_append]
  simp

/-- Public items at the end are taken out at the end. -/
theorem splitByPos_append_public (l r : List (Merged α)) (h : ∀ m ∈ r, m.membersOnly = false) :
    splitByPos (l ++ r) = ((splitByPos l).1 ++ r.map Merged.item, (splitByPos l).2) := by
  induction r using List.reverseRecOn with
  | nil => simp
  | append_singleton r m ih =>
    have hm : m.membersOnly = false := h m (List.mem_append_right _ List.mem_cons_self)
    rw [← List.append_assoc, splitByPos_append_singleton, ih fun a ha => h a (List.mem_append_left _ ha), part]
    simp [hm]

/-- What is taken out of a list: where it was, and in its order. -/
structure Parted (l : List (Merged α)) (acc : List α × List (Positioned α)) : Prop where
  lengths : acc.1.length + acc.2.length = l.length
  fits : Fits acc.1.length acc.2
  ascending : acc.2.Pairwise fun a b => a.pos < b.pos
  within : ∀ p ∈ acc.2, p.pos < l.length
  complete : ∀ (i : Nat) (m : Merged α), l[i]? = some m → m.membersOnly = true → (⟨m.item, i⟩ : Positioned α) ∈ acc.2

theorem parted (l : List (Merged α)) : Parted l (splitByPos l) := by
  induction l using List.reverseRecOn with
  | nil =>
    exact
      { lengths := rfl
        fits := fun i p h => by cases h
        ascending := List.Pairwise.nil
        within := fun p h => by cases h
        complete := fun i m h => by cases h }
  | append_singleton l m ih =>
    rw [splitByPos_append_singleton]
    have hlen := ih.lengths
    have hget : ∀ (i : Nat) (a : Merged α), (l ++ [m])[i]? = some a → l[i]? = some a ∨ i = l.length ∧ a = m :=
      fun i a ha => by
      rcases lt_or_ge i l.length with hi | hi
      · rw [List.getElem?_append_left hi] at ha
        exact .inl ha
      · have hi' := (List.getElem?_eq_some_iff.1 ha).1
        have hil : i = l.length := by simp at hi'; omega
        subst hil
        rw [List.getElem?_append_right le_rfl, Nat.sub_self] at ha
        cases ha
        exact .inr ⟨rfl, rfl⟩
    cases hm : m.membersOnly with
    | true =>
      simp only [part, hm, if_true]
      exact
        { lengths := by simp; omega
          fits := fits_append_singleton.2 ⟨ih.fits, by simp, by simp; omega⟩
          ascending := List.pairwise_append.2 ⟨ih.ascending, List.pairwise_singleton _ _, fun a ha b hb => by
            rw [List.mem_singleton.1 hb]
            exact ih.within a ha⟩
          within := fun p hp => by
            rw [List.length_append, List.length_singleton]
            rcases List.mem_append.1 hp with hp | hp
            · have := ih.within p hp
              omega
            · rw [List.mem_singleton.1 hp]
              simp
          complete := fun i a ha hma => by
            rcases hget i a ha with ha | ⟨rfl, rfl⟩
            · exact List.mem_append_left _ (ih.complete i a ha hma)
            · exact List.mem_append_right _ List.mem_cons_self }
    | false =>
      simp only [part, hm, Bool.false_eq_true, if_false]
      exact
        { lengths := by simp; omega
          fits := fun i p hp => by
            have := ih.fits i p hp
            simp
            omega
          ascending := ih.ascending
          within := fun p hp => by
            have := ih.within p hp
            simp
            omega
          complete := fun i a ha hma => by
            rcases hget i a ha with ha | ⟨rfl, rfl⟩
            · exact ih.complete i a ha hma
            · rw [hm] at hma
              cases hma }

/-! ## Both ways -/

theorem sorted_of_ascending {ps : List (Positioned α)} (h : ps.Pairwise fun a b => a.pos < b.pos) :
    ps.mergeSort posLe = ps :=
  List.mergeSort_of_pairwise (h.imp fun hab => by simpa [posLe] using hab.le)

/-- **What is taken out of a list and put in again is the list.** -/
theorem merge_split (m : List (Merged α)) : mergeByPos (splitByPos m).1 (splitByPos m).2 = m := by
  rw [mergeByPos, sorted_of_ascending (parted m).ascending]
  induction m using List.reverseRecOn with
  | nil => rfl
  | append_singleton l m ih =>
    have hp := parted l
    rw [splitByPos_append_singleton]
    cases hm : m.membersOnly with
    | true =>
      simp only [part, hm, if_true, List.foldl_append, List.foldl_cons, List.foldl_nil, ih]
      rw [place_eq (by simp) (by simp)]
      cases m
      simp_all
    | false =>
      simp only [part, hm, Bool.false_eq_true, if_false, List.map_append]
      rw [foldl_place_append _ (by rw [List.length_map]; exact hp.fits), ih]
      cases m
      simp_all

/-- A list that is parted, and an item put in past all others. -/
theorem splitByPos_place {l : List (Merged α)} {p : Positioned α} (h0 : 0 ≤ p.pos) (h : p.pos ≤ l.length)
    (hlast : ∀ q ∈ (splitByPos l).2, q.pos < p.pos) :
    splitByPos (place l p) = ((splitByPos l).1, (splitByPos l).2 ++ [p]) := by
  have hpublic : ∀ m ∈ l.drop p.pos.toNat, m.membersOnly = false := fun m hm => by
    obtain ⟨i, hi⟩ := List.mem_iff_getElem?.1 hm
    rw [List.getElem?_drop] at hi
    by_contra hmem
    have := hlast _ ((parted l).complete _ m hi (by simpa using hmem))
    simp only at this
    omega
  have hsplit := splitByPos_append_public (l.take p.pos.toNat) _ hpublic
  have hsplit' := splitByPos_append_public (l.take p.pos.toNat ++ [⟨p.item, true⟩]) _ hpublic
  rw [List.take_append_drop] at hsplit
  rw [place_eq h0 h, List.append_cons, hsplit', hsplit, splitByPos_append_singleton, part]
  have hlen : ((l.take p.pos.toNat).length : Int) = p.pos := by
    rw [List.length_take, min_eq_left (by omega)]
    omega
  simp only [if_true, hlen]

theorem splitByPos_public (items : List α) : splitByPos (items.map fun item => ⟨item, false⟩) = (items, []) := by
  have h := splitByPos_append_public [] (items.map fun item => (⟨item, false⟩ : Merged α)) (by simp)
  rw [List.nil_append] at h
  rw [h]
  simp [splitByPos, Function.comp_def]

/-- Items put in one after the other come out as they are. -/
theorem splitByPos_foldl_place (items : List α) {ps : List (Positioned α)} (hfit : Fits items.length ps)
    (hasc : ps.Pairwise fun a b => a.pos < b.pos) :
    splitByPos (ps.foldl place (items.map fun item => ⟨item, false⟩)) = (items, ps) := by
  induction ps using List.reverseRecOn with
  | nil => exact splitByPos_public items
  | append_singleton ps p ih =>
    obtain ⟨hps, h0, hp⟩ := fits_append_singleton.1 hfit
    obtain ⟨hasc, -, hlast⟩ := List.pairwise_append.1 hasc
    have ih := ih hps hasc
    rw [List.foldl_append, List.foldl_cons, List.foldl_nil, splitByPos_place h0, ih]
    · rw [length_foldl_place, List.length_map]
      exact hp
    · rw [ih]
      exact fun q hq => hlast q hq p List.mem_cons_self

/-- What is put in is taken out again: the public items in order, and the members-only ones by their `pos`, where these are
distinct and there is room for each. -/
theorem split_merge {publicItems : List α} {privateItems : List (Positioned α)} (hdistinct : (privateItems.map (·.pos)).Nodup)
    (hfit : Fits publicItems.length (privateItems.mergeSort posLe)) :
    splitByPos (mergeByPos publicItems privateItems) = (publicItems, privateItems.mergeSort posLe) := by
  refine splitByPos_foldl_place publicItems hfit ?_
  have hsorted : (privateItems.mergeSort posLe).Pairwise fun a b => a.pos ≤ b.pos := by
    have htrans : ∀ a b c : Positioned α, posLe a b = true → posLe b c = true → posLe a c = true := by
      intro a b c
      simp only [posLe, decide_eq_true_eq]
      omega
    have htotal : ∀ a b : Positioned α, (posLe a b || posLe b a) = true := by
      intro a b
      simp only [posLe, Bool.or_eq_true, decide_eq_true_eq]
      omega
    refine (List.pairwise_mergeSort htrans htotal privateItems).imp fun hab => ?_
    simpa only [posLe, decide_eq_true_eq] using hab
  have hne : (privateItems.mergeSort posLe).Pairwise fun a b => a.pos ≠ b.pos := by
    have hnodup := (((List.mergeSort_perm privateItems posLe).map (·.pos)).nodup_iff).2 hdistinct
    exact List.pairwise_map.1 hnodup
  exact (hsorted.and hne).imp fun h => lt_of_le_of_ne h.1 h.2

/-- **Putting items in and taking them out are inverse**, on every list one way; the other way where the `pos` are distinct and
there is room for each. -/
theorem merge_split_inverse (α : Type) : (∀ m : List (Merged α), mergeByPos (splitByPos m).1 (splitByPos m).2 = m) ∧
    ∀ (publicItems : List α) (privateItems : List (Positioned α)), (privateItems.map (·.pos)).Nodup →
      Fits publicItems.length (privateItems.mergeSort posLe) →
      splitByPos (mergeByPos publicItems privateItems) = (publicItems, privateItems.mergeSort posLe) :=
  ⟨merge_split, fun _ _ hdistinct hfit => split_merge hdistinct hfit⟩

/-- A menu of two public items, with a members-only one before and one after them. -/
theorem merge_split_inverse_menu : splitByPos (mergeByPos ["schedule", "venue"] [⟨"slides", 3⟩, ⟨"chat", 0⟩]) =
    (["schedule", "venue"], [⟨"chat", 0⟩, ⟨"slides", 3⟩]) := by
  have hsort : [⟨"slides", 3⟩, ⟨"chat", 0⟩].mergeSort posLe = [(⟨"chat", 0⟩ : Positioned String), ⟨"slides", 3⟩] := by
    simp [List.mergeSort, posLe]
  have h := (merge_split_inverse String).2 ["schedule", "venue"] [⟨"slides", 3⟩, ⟨"chat", 0⟩] (by decide)
  rw [hsort] at h
  refine h fun i p hp => ?_
  match i, hp with
  | 0, hp => cases hp; decide
  | 1, hp => cases hp; decide

end Nostrautica.EventPage
