/-
The list never holds two entries of one coordinate or of one naddr, and a record that is not
authoritative lowers no role (`run_shown`). An entry's naddr decodes to its coordinate where the entries
that were stored and recorded have naddrs that decode at all.
-/
import Nostrautica.App.RecentEvents

namespace Nostrautica.RecentEvents

open Js

variable {C : Nip19} {τ : Type}

/-! ## Prepared entries -/

/-- An entry as the loops merge them. -/
structure Prepared (e : RecentEvent τ) : Prop where
  coordinate : e.coordinate ≠ []
  naddr : e.naddr ≠ []
  pending : e.pendingKey = some true → e.role = .visitor

theorem orText_left {a b : JsString} (h : a ≠ []) : orText a b = a := if_pos h

theorem coordinateToNaddr_nil : coordinateToNaddr C [] = none := rfl

theorem coordinateToNaddr_ne_nil {c n : JsString} (h : coordinateToNaddr C c = some n) : n ≠ [] := by
  unfold coordinateToNaddr at h
  split at h
  · exact C.naddrEncode_ne_nil h
  · cases h

theorem naddrToCoordinate_ne_nil {c n : JsString} (h : naddrToCoordinate C n = some c) : c ≠ [] := by
  obtain ⟨p, -, rfl⟩ := Option.map_eq_some_iff.mp h
  rw [makeCoordinate]
  have hcolon : js ":" ≠ [] := by decide
  simp [hcolon]

theorem prepared_spec {raw e : RecentEvent τ} (h : prepared C raw = some e) : Prepared e ∧ e.coordinate = coordOf C raw ∧ e.role = raw.role ∧ e.at = raw.at := by
  unfold prepared at h
  split at h
  · cases h
  next naddr hnaddr =>
  split at h
  · cases h
  next hne =>
  have he := (Option.some.inj h).symm
  subst he
  refine ⟨⟨?_, hne, ?_⟩, rfl, rfl, rfl⟩
  · show coordOf C raw ≠ []
    intro hcoord
    have hcoord' := hcoord
    unfold coordOf at hcoord
    split at hcoord
    next hc => exact hc hcoord
    next hc =>
      unfold naddrOf at hnaddr
      rw [hcoord', coordinateToNaddr_nil] at hnaddr
      cases hdec : naddrToCoordinate C raw.naddr with
      | some c =>
        rw [hdec] at hcoord
        exact naddrToCoordinate_ne_nil hdec hcoord
      | none =>
        rw [hdec] at hcoord
        rw [if_neg (fun hn => hn hcoord)] at hnaddr
        cases hnaddr
  · show (if raw.pendingKey = some true ∧ raw.role ≠ .visitor then some false else raw.pendingKey) = some true → raw.role = .visitor
    intro hp
    split_ifs at hp with hclear
    · cases hp
    · by_contra hrole
      exact hclear ⟨hp, hrole⟩

theorem prepared_self {e : RecentEvent τ} (h : Prepared e) : prepared C e = some e := by
  have hnaddr : naddrOf C e = some e.naddr := if_pos h.naddr
  have hcoord : coordOf C e = e.coordinate := if_pos h.coordinate
  have hpending : ¬(e.pendingKey = some true ∧ e.role ≠ .visitor) := fun hp => hp.2 (h.pending hp.1)
  unfold prepared
  rw [hnaddr]
  dsimp only
  rw [if_neg h.naddr, hcoord, if_neg hpending]

/-! ## Merging -/

section merging

variable [LinearOrder τ] {by_ : RecentEvent τ → JsString} {list : List (RecentEvent τ)} {e p y : RecentEvent τ} {k : JsString}

/-- The entries of one key, merged in order. -/
def mergeAll (list : List (RecentEvent τ)) : Option (RecentEvent τ) :=
  list.foldl (fun acc e => some (match acc with | some prior => merge prior e | none => e)) none

theorem mergeAll_append (list : List (RecentEvent τ)) (e : RecentEvent τ) :
    mergeAll (list ++ [e]) = some (match mergeAll list with | some prior => merge prior e | none => e) := by
  rw [mergeAll, List.foldl_append]
  rfl

theorem get?_collect (by_ : RecentEvent τ → JsString) (list : List (RecentEvent τ)) (k : JsString) :
    (collect by_ list).get? k = mergeAll (list.filter fun e => by_ e = k) := by
  induction list using List.reverseRecOn with
  | nil => rfl
  | append_singleton list e ih =>
    have hset : collect by_ (list ++ [e]) = (collect by_ list).set (by_ e) (match (collect by_ list).get? (by_ e) with | some prior => merge prior e | none => e) := by
      rw [collect, List.foldl_append]
      rfl
    rw [hset, JsMap.get?_set, List.filter_append]
    by_cases hk : by_ e = k
    · subst hk
      rw [if_pos rfl, List.filter_cons_of_pos (by simp), List.filter_nil, mergeAll_append, ih]
    · rw [if_neg hk, List.filter_cons_of_neg (by simpa using hk), List.filter_nil, List.append_nil, ih]

/-- What all entries have and a merge keeps, the merged entry has. -/
theorem mergeAll_induct {Q : RecentEvent τ → Prop} (hmerge : ∀ p e, Q p → Q e → Q (merge p e)) (hall : ∀ e ∈ list, Q e)
    (h : mergeAll list = some y) : Q y := by
  induction list using List.reverseRecOn generalizing y with
  | nil => cases h
  | append_singleton list e ih =>
    rw [mergeAll_append] at h
    have he := hall e (List.mem_append_right _ (List.mem_singleton_self e))
    cases hp : mergeAll list with
    | none =>
      rw [hp] at h
      exact Option.some.inj h ▸ he
    | some p =>
      rw [hp] at h
      exact Option.some.inj h ▸ hmerge p e (ih (fun x hx => hall x (List.mem_append_left _ hx)) hp) he

theorem exists_mergeAll (h : e ∈ list) : ∃ y, mergeAll list = some y := by
  induction list using List.reverseRecOn with
  | nil => cases h
  | append_singleton l x => exact ⟨_, mergeAll_append l x⟩

theorem merge_prepared (hp : Prepared p) (he : Prepared e) : Prepared (merge p e) where
  coordinate := by
    show orText e.coordinate p.coordinate ≠ []
    rw [orText_left he.coordinate]
    exact he.coordinate
  naddr := by
    show (if e.at ≥ p.at then e.naddr else p.naddr) ≠ []
    split_ifs
    · exact he.naddr
    · exact hp.naddr
  pending h := by
    have hfor := Option.some.inj h
    exact of_decide_eq_true (Bool.and_eq_true_iff.mp hfor).1

/-- A merged role is neither side's lower. -/
theorem rank_merge (p e : RecentEvent τ) : p.role.rank ≤ (merge p e).role.rank ∧ e.role.rank ≤ (merge p e).role.rank := by
  simp only [merge]
  split_ifs <;> omega

theorem rank_le_mergeAll (h : e ∈ list) (hy : mergeAll list = some y) : e.role.rank ≤ y.role.rank := by
  induction list using List.reverseRecOn generalizing y with
  | nil => cases h
  | append_singleton list x ih =>
    rw [mergeAll_append] at hy
    cases hp : mergeAll list with
    | none =>
      rw [hp] at hy
      rcases List.mem_append.mp h with h | h
      · obtain ⟨z, hz⟩ := exists_mergeAll h
        rw [hp] at hz
        cases hz
      · rw [← Option.some.inj hy, List.mem_singleton.mp h]
    | some p =>
      rw [hp] at hy
      rw [← Option.some.inj hy]
      rcases List.mem_append.mp h with h | h
      · exact (ih h hp).trans (rank_merge p x).1
      · rw [List.mem_singleton.mp h]
        exact (rank_merge p x).2

/-- The coordinate of merged entries is one entry's. -/
theorem coordinate_mergeAll (hall : ∀ e ∈ list, Prepared e) (hy : mergeAll list = some y) : ∃ e ∈ list, y.coordinate = e.coordinate := by
  induction list using List.reverseRecOn with
  | nil => cases hy
  | append_singleton l x =>
    have hx : x ∈ l ++ [x] := List.mem_append_right _ (List.mem_singleton_self x)
    refine ⟨x, hx, ?_⟩
    rw [mergeAll_append] at hy
    rw [← Option.some.inj hy]
    split
    · exact orText_left (hall x hx).coordinate
    · rfl

theorem naddr_mergeAll (hall : ∀ e ∈ list, e.naddr = k) (hy : mergeAll list = some y) : y.naddr = k := by
  refine mergeAll_induct (Q := fun e => e.naddr = k) (fun p e hp he => ?_) hall hy
  show (if e.at ≥ p.at then e.naddr else p.naddr) = k
  split_ifs
  · exact he
  · exact hp

theorem coordinate_mergeAll_key (hne : k ≠ []) (hall : ∀ e ∈ list, e.coordinate = k) (hy : mergeAll list = some y) : y.coordinate = k := by
  refine mergeAll_induct (Q := fun e => e.coordinate = k) (fun p e hp he => ?_) hall hy
  show orText e.coordinate p.coordinate = k
  rw [he, orText_left hne]

/-- An entry after which none of its key is as new, and before which none is newer. -/
def Newest (list : List (RecentEvent τ)) (e : RecentEvent τ) : Prop :=
  ∃ l r, list = l ++ e :: r ∧ (∀ x ∈ l, x.coordinate = e.coordinate → x.at ≤ e.at) ∧ ∀ x ∈ r, x.coordinate = e.coordinate → x.at < e.at

theorem at_le_mergeAll (h : e ∈ list) (hy : mergeAll list = some y) : e.at ≤ y.at := by
  induction list using List.reverseRecOn generalizing y with
  | nil => cases h
  | append_singleton list x ih =>
    rw [mergeAll_append] at hy
    cases hp : mergeAll list with
    | none =>
      rw [hp] at hy
      rcases List.mem_append.mp h with h | h
      · obtain ⟨z, hz⟩ := exists_mergeAll h
        rw [hp] at hz
        cases hz
      · rw [← Option.some.inj hy, List.mem_singleton.mp h]
    | some p =>
      rw [hp] at hy
      rw [← Option.some.inj hy]
      rcases List.mem_append.mp h with h | h
      · exact (ih h hp).trans (le_max_right x.at p.at)
      · rw [List.mem_singleton.mp h]
        exact le_max_left x.at p.at

/-- The naddr of merged entries is the newest one's. -/
theorem newest_mergeAll (hy : mergeAll (list.filter fun e => e.coordinate = k) = some y) :
    ∃ e, Newest list e ∧ e.coordinate = k ∧ y.naddr = e.naddr ∧ y.at = e.at := by
  induction list using List.reverseRecOn generalizing y with
  | nil => cases hy
  | append_singleton list x ih =>
    rw [List.filter_append] at hy
    by_cases hx : x.coordinate = k
    · rw [List.filter_cons_of_pos (by simpa using hx), List.filter_nil, mergeAll_append] at hy
      have hall : ∀ z ∈ list, z.coordinate = x.coordinate → z ∈ list.filter fun e => e.coordinate = k := fun z hz he =>
        List.mem_filter.mpr ⟨hz, decide_eq_true (he.trans hx)⟩
      cases hp : mergeAll (list.filter fun e => e.coordinate = k) with
      | none =>
        rw [hp] at hy
        refine ⟨x, ⟨list, [], rfl, fun z hz he => ?_, fun z hz => absurd hz List.not_mem_nil⟩, hx, ?_, ?_⟩
        · obtain ⟨w, hw⟩ := exists_mergeAll (hall z hz he)
          rw [hp] at hw
          cases hw
        · rw [← Option.some.inj hy]
        · rw [← Option.some.inj hy]
      | some p =>
        rw [hp] at hy
        rw [← Option.some.inj hy]
        by_cases hat : x.at ≥ p.at
        · refine ⟨x, ⟨list, [], rfl, fun z hz he => (at_le_mergeAll (hall z hz he) hp).trans hat, fun z hz => absurd hz List.not_mem_nil⟩, hx, ?_, ?_⟩
          · exact if_pos hat
          · exact max_eq_left hat
        · obtain ⟨e, ⟨l, r, hlist, hl, hr⟩, he, hnaddr, hate⟩ := ih hp
          have hlt : x.at < p.at := not_le.mp hat
          refine ⟨e, ⟨l, r ++ [x], by rw [hlist, List.append_assoc, List.cons_append], hl, fun z hz hze => ?_⟩, he, ?_, ?_⟩
          · rcases List.mem_append.mp hz with hz | hz
            · exact hr z hz hze
            · rw [List.mem_singleton.mp hz, ← hate]
              exact hlt
          · exact (if_neg hat).trans hnaddr
          · exact (max_eq_right hlt.le).trans hate
    · rw [List.filter_cons_of_neg (by simpa using hx), List.filter_nil, List.append_nil] at hy
      obtain ⟨e, ⟨l, r, hlist, hl, hr⟩, he, hnaddr, hate⟩ := ih hy
      refine ⟨e, ⟨l, r ++ [x], by rw [hlist, List.append_assoc, List.cons_append], hl, fun z hz hze => ?_⟩, he, hnaddr, hate⟩
      rcases List.mem_append.mp hz with hz | hz
      · exact hr z hz hze
      · rw [List.mem_singleton.mp hz] at hze
        exact absurd (hze.trans he) hx

theorem collect_values (by_ : RecentEvent τ → JsString) (list : List (RecentEvent τ))
    (hkey : ∀ k y, (∃ e ∈ list, by_ e = k) → mergeAll (list.filter fun e => by_ e = k) = some y → by_ y = k) :
    ((collect by_ list).values.map by_).Nodup ∧
    ∀ y, y ∈ (collect by_ list).values ↔ mergeAll (list.filter fun e => by_ e = by_ y) = some y := by
  have hentry : ∀ k y, (k, y) ∈ (collect by_ list).entries → by_ y = k ∧ mergeAll (list.filter fun e => by_ e = k) = some y := by
    intro k y hm
    have hget := JsMap.get?_eq_some.mpr hm
    rw [get?_collect] at hget
    refine ⟨hkey k y ?_ hget, hget⟩
    by_contra hnone
    have hempty : (list.filter fun e => by_ e = k) = [] :=
      List.filter_eq_nil_iff.mpr fun e he hk => hnone ⟨e, he, of_decide_eq_true hk⟩
    rw [hempty] at hget
    cases hget
  constructor
  · have hkeys : (collect by_ list).values.map by_ = (collect by_ list).entries.map Prod.fst := by
      rw [JsMap.values, List.map_map]
      exact List.map_congr_left fun p hp => (hentry p.1 p.2 hp).1
    rw [hkeys]
    exact (collect by_ list).nodup
  · intro y
    constructor
    · intro hy
      obtain ⟨⟨k, z⟩, hp, rfl⟩ := List.mem_map.mp hy
      obtain ⟨hk, hm⟩ := hentry k z hp
      show mergeAll (list.filter fun e => by_ e = by_ z) = some z
      rw [hk]
      exact hm
    · intro hm
      rw [← get?_collect] at hm
      exact List.mem_map_of_mem (f := Prod.snd) (JsMap.get?_eq_some.mp hm)

end merging

/-! ## The three passes -/

section passes

variable {list : List (RecentEvent τ)} {e y : RecentEvent τ}

/-- Where a coordinate has an naddr, that reads back, and the naddr beside it decodes. -/
def ReadablePair (C : Nip19) (coordinate naddr : JsString) : Prop :=
  ∀ n, coordinateToNaddr C coordinate = some n → naddrToCoordinate C n = some coordinate ∧ (naddrToCoordinate C naddr).isSome = true

def Readable (C : Nip19) (e : RecentEvent τ) : Prop := ReadablePair C e.coordinate e.naddr

theorem mem_prepared (h : e ∈ list.filterMap (prepared C)) : Prepared e := by
  obtain ⟨raw, -, hraw⟩ := List.mem_filterMap.mp h
  exact (prepared_spec hraw).1

/-- The entry that `recorded` puts in front. -/
theorem recorded_eq (all : List (RecentEvent τ)) (evt : RecentEvent (Option τ)) (naddr : JsString) (authoritative : Bool) (now : τ) :
    ∃ e : RecentEvent τ, Store.recorded all evt naddr authoritative now = e :: all.filter (fun x => x.coordinate ≠ evt.coordinate) ∧
      e.coordinate = evt.coordinate ∧ e.naddr = naddr ∧
      (authoritative = false → ∀ p, all.find? (fun x => x.coordinate = evt.coordinate) = some p → p.role.rank ≤ e.role.rank) := by
  refine ⟨_, rfl, rfl, rfl, fun hauth p hp => ?_⟩
  dsimp only
  rw [hp]
  dsimp only
  split_ifs with h
  · exact le_rfl
  · exact not_lt.mp fun hlt => h ⟨hauth, hlt⟩

theorem naddr_of_prepared {raw e : RecentEvent τ} (h : prepared C raw = some e) : naddrOf C raw = some e.naddr := by
  unfold prepared at h
  split at h
  · cases h
  next naddr hnaddr =>
  split at h
  · cases h
  next hne =>
  rw [hnaddr, ← Option.some.inj h]

theorem filterMap_prepared (h : ∀ e ∈ list, Prepared e) : list.filterMap (prepared C) = list := by
  induction list with
  | nil => rfl
  | cons e list ih =>
    rw [List.filterMap_cons, prepared_self (h e List.mem_cons_self), ih fun x hx => h x (List.mem_cons_of_mem _ hx)]

theorem repaired_eq (C : Nip19) (e : RecentEvent τ) : ∃ naddr, repaired C e = { e with naddr } := by
  unfold repaired
  split_ifs
  · exact ⟨e.naddr, rfl⟩
  · split
    · exact ⟨_, rfl⟩
    · exact ⟨e.naddr, rfl⟩

theorem coordinate_repaired (C : Nip19) (e : RecentEvent τ) : (repaired C e).coordinate = e.coordinate := by
  obtain ⟨naddr, h⟩ := repaired_eq C e
  rw [h]

theorem role_repaired (C : Nip19) (e : RecentEvent τ) : (repaired C e).role = e.role := by
  obtain ⟨naddr, h⟩ := repaired_eq C e
  rw [h]

theorem prepared_repaired (h : Prepared e) : Prepared (repaired C e) := by
  refine ⟨?_, ?_, ?_⟩
  · rw [coordinate_repaired]
    exact h.coordinate
  · unfold repaired
    split_ifs
    · exact h.naddr
    · split
      next n hn => exact coordinateToNaddr_ne_nil hn
      next => exact h.naddr
  · obtain ⟨naddr, he⟩ := repaired_eq C e
    rw [he]
    exact h.pending

/-- A readable entry is repaired to an naddr of its coordinate. -/
theorem decodes_repaired (h : Readable C e) {n : JsString} (hn : coordinateToNaddr C e.coordinate = some n) :
    naddrToCoordinate C (repaired C e).naddr = some e.coordinate := by
  obtain ⟨hback, hsome⟩ := h n hn
  unfold repaired
  split_ifs with hsame
  · obtain ⟨c, hc⟩ := Option.isSome_iff_exists.mp hsome
    unfold canonicalCoordinate at hsame
    rw [hc] at hsame ⊢
    rw [← hsame]
    rfl
  · rw [hn]
    exact hback

/-- What the second pass leaves: prepared entries of the first pass's coordinates. -/
theorem second_pass (list : List (RecentEvent τ)) (hall : ∀ e ∈ list, Prepared e) (hcoords : (list.map RecentEvent.coordinate).Nodup) :
    (∀ e ∈ list.map (repaired C), Prepared e) ∧ ((list.map (repaired C)).map RecentEvent.coordinate).Nodup := by
  constructor
  · intro e he
    obtain ⟨x, hx, rfl⟩ := List.mem_map.mp he
    exact prepared_repaired (hall x hx)
  · have hmap : (list.map (repaired C)).map RecentEvent.coordinate = list.map RecentEvent.coordinate := by
      rw [List.map_map]
      exact List.map_congr_left fun e _ => coordinate_repaired C e
    rw [hmap]
    exact hcoords

variable [LinearOrder τ]

/-- The newest entries of each coordinate are readable. -/
def Sound (C : Nip19) (list : List (RecentEvent τ)) : Prop := ∀ e, Newest (list.filterMap (prepared C)) e → Readable C e

/-- What the page relies on, of a list that is assigned. -/
structure Shown (C : Nip19) (list : List (RecentEvent τ)) : Prop where
  coordinates : (list.map RecentEvent.coordinate).Nodup
  naddrs : (list.map RecentEvent.naddr).Nodup
  size : list.length ≤ maxEntries
  decodes : ∀ e ∈ list, ∀ n, coordinateToNaddr C e.coordinate = some n → naddrToCoordinate C e.naddr = some e.coordinate
  pending : ∀ e ∈ list, e.pendingKey = some true → e.role = .visitor

/-- What `dedupe` leaves, and leaves as it is. -/
structure Clean (C : Nip19) (list : List (RecentEvent τ)) : Prop extends Shown C list where
  prepared : ∀ e ∈ list, Prepared e
  readable : ∀ e ∈ list, Readable C e
  sorted : list.Pairwise fun a b => b.at ≤ a.at

/-- The entries after the first pass: one for each coordinate, with the naddr of the newest. -/
theorem first_pass (list : List (RecentEvent τ)) (hall : ∀ e ∈ list, Prepared e) :
    ((collect RecentEvent.coordinate list).values.map RecentEvent.coordinate).Nodup ∧
    ∀ y ∈ (collect RecentEvent.coordinate list).values, Prepared y ∧ (∃ e, Newest list e ∧ e.coordinate = y.coordinate ∧ y.naddr = e.naddr) ∧
      ∀ e ∈ list, e.coordinate = y.coordinate → e.role.rank ≤ y.role.rank := by
  obtain ⟨hnodup, hmem⟩ := collect_values RecentEvent.coordinate list fun k y hk hy => by
    obtain ⟨e, he, rfl⟩ := hk
    exact coordinate_mergeAll_key (hall e he).coordinate (fun x hx => of_decide_eq_true (List.mem_filter.mp hx).2) hy
  refine ⟨hnodup, fun y hy => ?_⟩
  have hm := (hmem y).mp hy
  refine ⟨mergeAll_induct (fun p e => merge_prepared) (fun e he => hall e (List.mem_filter.mp he).1) hm, ?_, fun e he hc => ?_⟩
  · obtain ⟨e, hnew, hc, hn, -⟩ := newest_mergeAll hm
    exact ⟨e, hnew, hc, hn⟩
  · exact rank_le_mergeAll (List.mem_filter.mpr ⟨he, decide_eq_true hc⟩) hm

/-- The entries after the third pass: one for each naddr, with the coordinate of one of those merged. -/
theorem third_pass (list : List (RecentEvent τ)) (hall : ∀ e ∈ list, Prepared e) (hcoords : (list.map RecentEvent.coordinate).Nodup) :
    ((collect RecentEvent.naddr list).values.map RecentEvent.naddr).Nodup ∧ ((collect RecentEvent.naddr list).values.map RecentEvent.coordinate).Nodup ∧
    ∀ y ∈ (collect RecentEvent.naddr list).values, Prepared y ∧ ∃ e ∈ list, e.coordinate = y.coordinate ∧ e.naddr = y.naddr ∧ e.role.rank ≤ y.role.rank := by
  obtain ⟨hnodup, hmem⟩ := collect_values RecentEvent.naddr list fun k y _ hy =>
    naddr_mergeAll (fun e he => of_decide_eq_true (List.mem_filter.mp he).2) hy
  have hsource : ∀ y ∈ (collect RecentEvent.naddr list).values, Prepared y ∧ ∃ e ∈ list, e.coordinate = y.coordinate ∧ e.naddr = y.naddr ∧ e.role.rank ≤ y.role.rank := by
    intro y hy
    have hm := (hmem y).mp hy
    have hpart : ∀ e ∈ list.filter fun e => e.naddr = y.naddr, Prepared e := fun e he => hall e (List.mem_filter.mp he).1
    obtain ⟨e, he, hc⟩ := coordinate_mergeAll hpart hm
    exact ⟨mergeAll_induct (fun p e => merge_prepared) hpart hm, e, (List.mem_filter.mp he).1, Eq.symm hc,
      of_decide_eq_true (List.mem_filter.mp he).2, rank_le_mergeAll he hm⟩
  refine ⟨hnodup, ?_, hsource⟩
  refine List.Nodup.map_on (fun y hy z hz hyz => ?_) (List.Nodup.of_map _ hnodup)
  obtain ⟨-, e, he, hec, hen, -⟩ := hsource y hy
  obtain ⟨-, f, hf, hfc, hfn, -⟩ := hsource z hz
  have hef : e = f := List.inj_on_of_nodup_map hcoords he hf (hec.trans (hyz.trans (Eq.symm hfc)))
  exact List.inj_on_of_nodup_map hnodup hy hz (by rw [← hen, ← hfn, hef])

theorem mem_sorted : y ∈ sorted list ↔ y ∈ list := List.mem_insertionSort _

theorem sublist_dedupe {α : Type} {f : RecentEvent τ → α} (h : (list.map f).Nodup) : (((sorted list).take maxEntries).map f).Nodup := by
  have hperm : ((sorted list).map f).Nodup := ((List.perm_insertionSort _ list).map f).nodup_iff.mpr h
  exact hperm.sublist ((List.take_sublist _ _).map f)

theorem pairwise_sorted (list : List (RecentEvent τ)) : (sorted list).Pairwise fun a b => b.at ≤ a.at := by
  have htotal : Std.Total fun a b : RecentEvent τ => b.at ≤ a.at := ⟨fun a b => le_total b.at a.at⟩
  have htrans : IsTrans (RecentEvent τ) fun a b => b.at ≤ a.at := ⟨fun a b c h h' => le_trans h' h⟩
  exact List.pairwise_insertionSort _ list

/-- Where an entry of the result comes from: an entry that was repaired, of a coordinate's newest. -/
theorem mem_dedupe (h : y ∈ dedupe C list) :
    Prepared y ∧ ∃ e : RecentEvent τ, Prepared e ∧ (∃ x, Newest (list.filterMap (prepared C)) x ∧ x.coordinate = e.coordinate ∧ e.naddr = x.naddr) ∧
      (∀ x ∈ list.filterMap (prepared C), x.coordinate = e.coordinate → x.role.rank ≤ e.role.rank) ∧
      e.coordinate = y.coordinate ∧ (repaired C e).naddr = y.naddr ∧ e.role.rank ≤ y.role.rank := by
  obtain ⟨hnodup, hfirst⟩ := first_pass (list.filterMap (prepared C)) fun e he => mem_prepared he
  obtain ⟨hall, hmapped⟩ := second_pass (C := C) _ (fun e he => (hfirst e he).1) hnodup
  obtain ⟨-, -, hthird⟩ := third_pass _ hall hmapped
  obtain ⟨hy, z, hz, hzc, hzn, hzr⟩ := hthird y (mem_sorted.mp (List.mem_of_mem_take h))
  obtain ⟨e, he, rfl⟩ := List.mem_map.mp hz
  obtain ⟨hprep, hnew, hrank⟩ := hfirst e he
  rw [coordinate_repaired] at hzc
  rw [role_repaired] at hzr
  exact ⟨hy, e, hprep, hnew, hrank, hzc, hzn, hzr⟩

/-- **`dedupe` leaves a list to be shown.** -/
theorem clean_dedupe (h : Sound C list) : Clean C (dedupe C list) := by
  obtain ⟨hnodup, hfirst⟩ := first_pass (list.filterMap (prepared C)) fun e he => mem_prepared he
  obtain ⟨hall, hmapped⟩ := second_pass (C := C) _ (fun e he => (hfirst e he).1) hnodup
  obtain ⟨hnaddrs, hcoords, -⟩ := third_pass _ hall hmapped
  have hdecodes : ∀ y ∈ dedupe C list, ∀ n, coordinateToNaddr C y.coordinate = some n →
      naddrToCoordinate C n = some y.coordinate ∧ naddrToCoordinate C y.naddr = some y.coordinate := by
    intro y hy n hn
    obtain ⟨-, e, -, ⟨x, hnew, hxc, hxn⟩, -, hec, hen, -⟩ := mem_dedupe hy
    have hread : Readable C e := by
      have hx := h x hnew
      unfold Readable at hx ⊢
      rw [hxn, ← hxc]
      exact hx
    rw [← hec] at hn ⊢
    exact ⟨(hread n hn).1, hen ▸ decodes_repaired hread hn⟩
  exact {
    coordinates := sublist_dedupe hcoords
    naddrs := sublist_dedupe hnaddrs
    size := List.length_take_le _ _
    decodes := fun e he n hn => (hdecodes e he n hn).2
    pending := fun e he => (mem_dedupe he).1.pending
    prepared := fun e he => (mem_dedupe he).1
    readable := fun e he n hn => ⟨(hdecodes e he n hn).1, by rw [(hdecodes e he n hn).2]; rfl⟩
    sorted := (pairwise_sorted _).sublist (List.take_sublist _ _) }

/-- **`dedupe` lowers no role.** -/
theorem rank_le_dedupe {raw : RecentEvent τ} (hraw : raw ∈ list) (he : prepared C raw = some e) (hy : y ∈ dedupe C list)
    (hc : y.coordinate = e.coordinate) : e.role.rank ≤ y.role.rank := by
  obtain ⟨-, x, -, -, hrank, hxc, -, hxr⟩ := mem_dedupe hy
  exact (hrank e (List.mem_filterMap.mpr ⟨raw, hraw, he⟩) (Eq.symm (hxc.trans hc))).trans hxr

theorem collect_self {by_ : RecentEvent τ → JsString} (h : (list.map by_).Nodup) : (collect by_ list).values = list := by
  have hentries : (collect by_ list).entries = list.map fun e => (by_ e, e) := by
    induction list using List.reverseRecOn with
    | nil => rfl
    | append_singleton list e ih =>
      rw [List.map_append, List.nodup_append] at h
      have hlist := ih h.1
      have hnew : (collect by_ list).get? (by_ e) = none := by
        refine look_eq_none.mpr ?_
        rw [hlist, List.map_map]
        intro hm
        exact h.2.2 _ hm _ (List.mem_singleton_self _) rfl
      have hset : collect by_ (list ++ [e]) = (collect by_ list).set (by_ e) e := by
        have hfold : collect by_ (list ++ [e]) = (collect by_ list).set (by_ e) (match (collect by_ list).get? (by_ e) with | some prior => merge prior e | none => e) := by
          rw [collect, List.foldl_append]
          rfl
        rw [hfold, hnew]
      have hput : ∀ l : List (JsString × RecentEvent τ), by_ e ∉ l.map Prod.fst → put (by_ e) e l = l ++ [(by_ e, e)] := by
        intro l hl
        induction l with
        | nil => rfl
        | cons p l ihl =>
          rw [List.map_cons, List.mem_cons, not_or] at hl
          rw [put, if_neg (Ne.symm hl.1), ihl hl.2, List.cons_append]
      rw [hset]
      refine (hput _ (look_eq_none.mp hnew)).trans ?_
      rw [hlist, List.map_append, List.map_singleton]
  rw [JsMap.values, hentries, List.map_map]
  exact List.map_id list

/-- **A list that `dedupe` left is left as it is.** -/
theorem dedupe_clean (h : Clean C list) : dedupe C list = list := by
  have hrepaired : list.map (repaired C) = list := by
    refine (List.map_congr_left fun e he => ?_).trans (List.map_id list)
    unfold repaired canonicalCoordinate
    split_ifs with hsame
    · rfl
    · cases hn : coordinateToNaddr C e.coordinate with
      | none => rfl
      | some n => exact absurd (by rw [h.decodes e he n hn]; rfl) hsame
  have hsorted : sorted list = list := List.Pairwise.insertionSort_eq h.sorted
  rw [dedupe, filterMap_prepared h.prepared, collect_self h.coordinates, hrepaired, collect_self h.naddrs, hsorted]
  exact List.take_of_length_le h.size

theorem sound_clean (h : Clean C list) : Sound C list := by
  intro e hnew
  rw [filterMap_prepared h.prepared] at hnew
  obtain ⟨l, r, hlist, -, -⟩ := hnew
  exact h.readable e (hlist ▸ List.mem_append_right _ List.mem_cons_self)

theorem sound_nil : Sound C ([] : List (RecentEvent τ)) := by
  rintro e ⟨l, r, hlist, -, -⟩
  exact absurd hlist (List.append_ne_nil_of_right_ne_nil _ (List.cons_ne_nil _ _)).symm

theorem clean_filter (h : Clean C list) (p : RecentEvent τ → Bool) : Clean C (list.filter p) := by
  have hsub := List.filter_sublist (p := p) (l := list)
  exact {
    coordinates := h.coordinates.sublist (hsub.map _)
    naddrs := h.naddrs.sublist (hsub.map _)
    size := hsub.length_le.trans h.size
    decodes := fun e he => h.decodes e (hsub.subset he)
    pending := fun e he => h.pending e (hsub.subset he)
    prepared := fun e he => h.prepared e (hsub.subset he)
    readable := fun e he => h.readable e (hsub.subset he)
    sorted := h.sorted.sublist hsub }

theorem clean_nil : Clean C ([] : List (RecentEvent τ)) where
  coordinates := List.nodup_nil
  naddrs := List.nodup_nil
  size := Nat.zero_le _
  decodes := fun _ he => absurd he List.not_mem_nil
  pending := fun _ he => absurd he List.not_mem_nil
  prepared := fun _ he => absurd he List.not_mem_nil
  readable := fun _ he => absurd he List.not_mem_nil
  sorted := List.Pairwise.nil

end passes

/-! ## The store -/

section store

variable [LinearOrder τ] {s : Store τ} {list : List (RecentEvent τ)} {evt : RecentEvent (Option τ)} {naddr : JsString} {authoritative : Bool} {now : τ}

/-- An event to record whose coordinate and naddr are readable, as `record` works them out. -/
def Recordable (C : Nip19) (evt : RecentEvent (Option τ)) : Prop :=
  ∀ naddr, naddrOf C evt = some naddr → ReadablePair C (coordOf C { evt with naddr }) naddr

/-- What holds of every assignment: a record that is not authoritative lowers the role of no event that stays. -/
structure Assigned (C : Nip19) (a : Assignment τ) : Prop where
  shown : Shown C a.after
  role : a.record = some false → ∀ e ∈ a.before, ∀ e' ∈ a.after, e'.coordinate = e.coordinate → e.role.rank ≤ e'.role.rank

structure Held (C : Nip19) (s : Store τ) : Prop where
  stored : ∀ k list, s.stored k = some list → Sound C list
  queued : ∀ q ∈ s.queued, Recordable C q.1
  /-- Once the identity is known, the list is empty or what is stored. -/
  settled : s.pendingIdentity = false → s.list = [] ∨ (Clean C s.list ∧ s.stored (storageKey s.owner) = some s.list)
  assigned : ∀ a ∈ s.assigned, Assigned C a

theorem clean_load (h : Held C s) (owner : Option JsString) : Clean C (s.load C owner) := by
  unfold Store.load
  cases hstored : s.stored (storageKey owner) with
  | none => exact clean_dedupe sound_nil
  | some list => exact clean_dedupe (h.stored _ list hstored)

theorem sound_recorded (hall : Clean C list) (hevt : Recordable C evt) (hnaddr : naddrOf C evt = some naddr) (hne : naddr ≠ []) :
    Sound C (Store.recorded list evt naddr authoritative now) := by
  obtain ⟨first, hrecorded, hcoord, hfirst, -⟩ := recorded_eq list evt naddr authoritative now
  rw [hrecorded]
  intro e hnew
  obtain ⟨l, r, hsplit, -, -⟩ := hnew
  have hmem : e ∈ (first :: list.filter fun x => x.coordinate ≠ evt.coordinate).filterMap (prepared C) :=
    hsplit ▸ List.mem_append_right _ List.mem_cons_self
  obtain ⟨raw, hraw, he⟩ := List.mem_filterMap.mp hmem
  rcases List.mem_cons.mp hraw with rfl | hraw
  · have hown := naddr_of_prepared he
    have hsame : naddrOf C raw = some naddr := by
      unfold naddrOf
      rw [hfirst, if_pos hne]
    rw [hsame] at hown
    have hread := hevt naddr hnaddr
    have hplace : e.coordinate = coordOf C { evt with naddr } := by
      rw [(prepared_spec he).2.1]
      unfold coordOf
      rw [hcoord, hfirst]
    unfold Readable
    rw [hplace, ← Option.some.inj hown]
    exact hread
  · have hin := (List.mem_filter.mp hraw).1
    rw [prepared_self (hall.prepared raw hin)] at he
    rw [← Option.some.inj he]
    exact hall.readable raw hin

/-- A record that is not authoritative. -/
theorem rank_recorded (hall : Clean C list) (hne : naddr ≠ []) {e e' : RecentEvent τ} (he : e ∈ list)
    (he' : e' ∈ dedupe C (Store.recorded list evt naddr false now)) (hc : e'.coordinate = e.coordinate) : e.role.rank ≤ e'.role.rank := by
  obtain ⟨first, hrecorded, hcoord, hfirst, hrole⟩ := recorded_eq list evt naddr false now
  rw [hrecorded] at he'
  have hprep := hall.prepared e he
  by_cases hsame : e.coordinate = evt.coordinate
  · have hfind : list.find? (fun x => x.coordinate = evt.coordinate) = some e := by
      cases hf : list.find? fun x => x.coordinate = evt.coordinate with
      | none => exact absurd (decide_eq_true hsame) (List.find?_eq_none.mp hf e he)
      | some p =>
        have hp : p.coordinate = evt.coordinate := by simpa using List.find?_some hf
        rw [List.inj_on_of_nodup_map hall.coordinates (List.mem_of_find?_eq_some hf) he (hp.trans (Eq.symm hsame))]
    have hown : naddrOf C first = some naddr := by
      unfold naddrOf
      rw [hfirst, if_pos hne]
    obtain ⟨w, hw⟩ : ∃ w, prepared C first = some w := by
      unfold prepared
      rw [hown]
      dsimp only
      rw [if_neg hne]
      exact ⟨_, rfl⟩
    obtain ⟨-, hwc, hwr, -⟩ := prepared_spec hw
    have hcoordOf : coordOf C first = first.coordinate := if_pos (by rw [hcoord, ← hsame]; exact hprep.coordinate)
    have hle := rank_le_dedupe List.mem_cons_self hw he' (by rw [hc, hwc, hcoordOf, hcoord, hsame])
    rw [hwr] at hle
    exact (hrole rfl e hfind).trans hle
  · have hin : e ∈ first :: list.filter fun x => x.coordinate ≠ evt.coordinate :=
      List.mem_cons_of_mem _ (List.mem_filter.mpr ⟨he, by simpa using hsame⟩)
    exact rank_le_dedupe hin (prepared_self hprep) he' hc

theorem held_save_assign {r : Option Bool} (h : Held C s) {next : List (RecentEvent τ)} (hnext : Clean C next)
    (hrole : r = some false → ∀ e ∈ s.list, ∀ e' ∈ next, e'.coordinate = e.coordinate → e.role.rank ≤ e'.role.rank) :
    Held C ((s.save next).assign r next) where
  stored k list hk := by
    have hk' : (if k = storageKey s.owner then some next else s.stored k) = some list := hk
    split_ifs at hk'
    · exact Option.some.inj hk' ▸ sound_clean hnext
    · exact h.stored k list hk'
  queued := h.queued
  settled _ := .inr ⟨hnext, if_pos rfl⟩
  assigned a ha := by
    rcases List.mem_cons.mp ha with rfl | ha
    · exact ⟨hnext.toShown, hrole⟩
    · exact h.assigned a ha

theorem held_init (h : Held C s) : Held C (s.init C) := held_save_assign h (clean_load h _) fun he => by cases he

theorem held_record (h : Held C s) (hevt : Recordable C evt) : Held C (s.record C evt authoritative now) := by
  unfold Store.record
  cases hpending : s.pendingIdentity with
  | true =>
    rw [if_pos rfl]
    have hqueued : ∀ q ∈ s.queued ++ [(evt, authoritative)], Recordable C q.1 := fun q hq => by
      rcases List.mem_append.mp hq with hq | hq
      · exact h.queued q hq
      · rw [List.mem_singleton.mp hq]
        exact hevt
    refine ⟨h.stored, fun q hq => ?_, fun hsettled => absurd (show true = false from hsettled) (by decide), h.assigned⟩
    have hq' : q ∈ (if (s.queued ++ [(evt, authoritative)]).length > maxEntries then (s.queued ++ [(evt, authoritative)]).tail
      else s.queued ++ [(evt, authoritative)]) := hq
    split_ifs at hq'
    · exact hqueued q (List.mem_of_mem_tail hq')
    · exact hqueued q hq'
  | false =>
    rw [if_neg Bool.false_ne_true]
    cases hnaddr : naddrOf C evt with
    | none => exact h
    | some naddr =>
      dsimp only
      split_ifs with hne
      · exact h
      · have hload := clean_load h s.owner
        refine held_save_assign h (clean_dedupe (sound_recorded hload hevt hnaddr hne)) fun hauth e he e' he' hc => ?_
        have hfalse := Option.some.inj hauth
        subst hfalse
        rcases h.settled hpending with hnil | ⟨hclean, hstored⟩
        · rw [hnil] at he
          exact absurd he List.not_mem_nil
        · have hsame : s.load C s.owner = s.list := by
            rw [Store.load, hstored]
            exact dedupe_clean hclean
          rw [hsame] at he' hload
          exact rank_recorded hload hne he he' hc

theorem held_identitySettled (h : Held C s) (clock : Nat → τ) : Held C (s.identitySettled C clock) := by
  unfold Store.identitySettled
  split_ifs with hpending
  · exact h
  · have hbase : Held C ({ s with pendingIdentity := false, queued := [] }.init C) := by
      have hclean := clean_load h s.owner
      have hinit := held_save_assign (r := none) h hclean fun he => by cases he
      exact ⟨hinit.stored, fun q hq => absurd hq List.not_mem_nil, fun _ => .inr ⟨hclean, if_pos rfl⟩, hinit.assigned⟩
    have hfold : ∀ (qs : List ((RecentEvent (Option τ) × Bool) × Nat)) (s' : Store τ), Held C s' → (∀ q ∈ qs, Recordable C q.1.1) →
        Held C (qs.foldl (fun s q => s.record C q.1.1 q.1.2 (clock q.2)) s') := by
      intro qs
      induction qs with
      | nil => exact fun s' hs' _ => hs'
      | cons q qs ih => exact fun s' hs' hqs => ih _ (held_record hs' (hqs q List.mem_cons_self)) fun p hp => hqs p (List.mem_cons_of_mem _ hp)
    exact hfold _ _ hbase fun q hq => h.queued q.1 (List.fst_mem_of_mem_zipIdx hq)

/-- The events of a call are recordable. -/
def Call.Readable (C : Nip19) : Call τ → Prop
  | .record evt _ _ | .reconcile evt _ => Recordable C evt
  | _ => True

theorem held_call {c : Call τ} (h : Held C s) (hc : c.Readable C) : Held C (call C s c) := by
  cases c with
  | init => exact held_init h
  | awaitIdentity expectedOwner =>
    show Held C (s.awaitIdentity C expectedOwner)
    have hawait : ∀ next, Shown C next → Held C ({ s with pendingIdentity := true }.assign none next) := fun next hnext =>
      ⟨h.stored, h.queued, fun hsettled => absurd (show true = false from hsettled) (by decide), fun a ha => by
        rcases List.mem_cons.mp ha with rfl | ha
        · exact ⟨hnext, fun he => by cases he⟩
        · exact h.assigned a ha⟩
    unfold Store.awaitIdentity
    split
    next owner _ => exact hawait _ (clean_load h (some owner)).toShown
    next =>
      split_ifs
      · exact h
      · exact hawait [] clean_nil.toShown
  | identitySettled clock => exact held_identitySettled h clock
  | setOwner owner clock =>
    show Held C (s.setOwner C owner clock)
    unfold Store.setOwner
    split_ifs with hpending hchanged
    · have hbase : Held C { s with owner } :=
        ⟨h.stored, h.queued, fun hsettled => absurd (hpending.symm.trans hsettled) (by decide), h.assigned⟩
      exact held_identitySettled hbase clock
    · have hclean := clean_load h owner
      refine ⟨fun k list hk => ?_, h.queued, fun _ => .inr ⟨hclean, if_pos rfl⟩, fun a ha => ?_⟩
      · have hk' : (if k = storageKey owner then some (s.load C owner) else s.stored k) = some list := hk
        split_ifs at hk'
        · exact Option.some.inj hk' ▸ sound_clean hclean
        · exact h.stored k list hk'
      · rcases List.mem_cons.mp ha with rfl | ha
        · exact ⟨hclean.toShown, fun he => by cases he⟩
        · exact h.assigned a ha
    · exact h
  | record evt authoritative now => exact held_record h hc
  | reconcile evt now => exact held_record h hc
  | remove coordinate => exact held_save_assign h (clean_filter (clean_load h _) _) fun he => by cases he
  | clear =>
    refine ⟨fun k list hk => ?_, h.queued, fun _ => .inl rfl, fun a ha => ?_⟩
    · have hk' : (if k = storageKey s.owner then none else s.stored k) = some list := hk
      split_ifs at hk'
      exact h.stored k list hk'
    · rcases List.mem_cons.mp ha with rfl | ha
      · exact ⟨clean_nil.toShown, fun he => by cases he⟩
      · exact h.assigned a ha

theorem held_run {calls : List (Call τ)} (h : Held C s) (hcalls : ∀ c ∈ calls, c.Readable C) : Held C (calls.foldl (call C) s) := by
  induction calls generalizing s with
  | nil => exact h
  | cons c calls ih => exact ih (held_call h (hcalls c List.mem_cons_self)) fun d hd => hcalls d (List.mem_cons_of_mem _ hd)

/-- **Every list that is assigned has one entry for each coordinate and for each naddr**, of the
event that the naddr names, and no record that is not authoritative lowers a role, whatever is called:
where the newest of the entries stored for each coordinate, and the events recorded, are readable. -/
theorem run_shown (C : Nip19) {stored : JsString → Option (List (RecentEvent τ))} {calls : List (Call τ)}
    (hstored : ∀ k list, stored k = some list → Sound C list) (hcalls : ∀ c ∈ calls, c.Readable C) :
    ∀ a ∈ (run C stored calls).assigned, Assigned C a := by
  have hopened : Held C (opened stored) :=
    ⟨hstored, fun q hq => absurd hq List.not_mem_nil, fun _ => .inl rfl, fun a ha => absurd ha List.not_mem_nil⟩
  exact (held_run hopened hcalls).assigned

end store

/-- Naddrs that are a coordinate behind `naddr1`. -/
def plainNip19 : Nip19 where
  naddrEncode c := some (js "naddr1" ++ makeCoordinate c.pubkey c.identifier c.kind)
  decode naddr := if naddr.take 6 = js "naddr1" then (parseCoordinate (naddr.drop 6)).toOption else none
  naddrEncode_ne_nil h := by
    rw [← Option.some.inj h]
    exact List.append_ne_nil_of_left_ne_nil (by decide) _

def someCoordinate : JsString := js "31923:" ++ List.replicate 64 97 ++ js ":d"

theorem someCoordinate_encodes : coordinateToNaddr plainNip19 someCoordinate = some (js "naddr1" ++ someCoordinate) ∧
    naddrToCoordinate plainNip19 (js "naddr1" ++ someCoordinate) = some someCoordinate := by decide +kernel

/-- An entry with a good coordinate and an naddr that nothing decodes. -/
def brokenEntry : RecentEvent ℕ := ⟨someCoordinate, js "x", js "T", .visitor, none, 5, none⟩

theorem broken_entry_kept : ∃ a ∈ (run plainNip19 (fun k => if k = key then some [brokenEntry] else none) [.init]).assigned,
    a.after.map (fun e => (e.coordinate, e.naddr)) = [(someCoordinate, js "x")] ∧ ¬Shown plainNip19 a.after := by
  have hkept : (dedupe plainNip19 [brokenEntry]).map (fun e => (e.coordinate, e.naddr)) = [(someCoordinate, js "x")] := by decide +kernel
  refine ⟨_, List.mem_cons_self, hkept, fun hshown => ?_⟩
  have hmem : (someCoordinate, js "x") ∈ (dedupe plainNip19 [brokenEntry]).map fun e => (e.coordinate, e.naddr) := by
    rw [hkept]
    exact List.mem_singleton_self _
  obtain ⟨e, he, hpair⟩ := List.mem_map.mp hmem
  obtain ⟨hcoord, hnaddr⟩ := Prod.mk.inj hpair
  have hdecodes := hshown.decodes e he (js "naddr1" ++ someCoordinate) (by rw [hcoord]; exact someCoordinate_encodes.1)
  rw [hnaddr] at hdecodes
  cases hdecodes

theorem run_shown_recorded : List.Forall (Assigned plainNip19) (run plainNip19 (fun _ => none)
    [.init, .record (⟨someCoordinate, js "naddr1" ++ someCoordinate, js "T", .attendee, none, none, none⟩ : RecentEvent (Option ℕ)) false 5]).assigned := by
  refine List.forall_iff_forall_mem.mpr (run_shown plainNip19 (fun k list h => by cases h) fun c hc => ?_)
  rcases List.mem_cons.mp hc with rfl | hc
  · trivial
  · rw [List.mem_singleton.mp hc]
    intro naddr hnaddr n hn
    have hsame := Option.some.inj hnaddr
    have hcoord : n = js "naddr1" ++ someCoordinate := Option.some.inj (hn.symm.trans someCoordinate_encodes.1)
    rw [← hsame, hcoord]
    exact ⟨someCoordinate_encodes.2, by
      show (naddrToCoordinate plainNip19 (js "naddr1" ++ someCoordinate)).isSome = true
      rw [someCoordinate_encodes.2]
      rfl⟩

end Nostrautica.RecentEvents
