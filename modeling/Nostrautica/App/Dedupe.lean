/-
What a read of several relays settles on: `EventDeduper` of `app/src/lib/nostr/dedupe.ts`, behind the
signature check of `streamEvents` in `app/src/lib/nostr/stream.ts`. The timers and the relays' EOSE
are left out; whether a copy's signature is right is a part of the copy.

Whatever the order of the copies, and however often each comes, the same versions are left, one for
each address (`settles_alike`), and a copy that is not signed right is never shown.
-/
import Nostrautica.Js.Map
import Nostrautica.Js.Number

namespace Nostrautica.Dedupe

open Js

structure MinimalEvent where
  id : JsString
  kind : Nat
  pubkey : JsString
  created_at : Option Nat
  tags : List (List JsString)
  deriving DecidableEq

/-- `compareLatest(a, b)`: less than zero where `a` wins. -/
def compareLatest (a b : MinimalEvent) : Int :=
  let ca := a.created_at.getD 0
  let cb := b.created_at.getD 0
  if ca ≠ cb then (cb : Int) - ca
  else if a.id < b.id then -1
  else if b.id < a.id then 1
  else 0

/-- `supersedes(candidate, current)`. -/
def supersedes (candidate current : MinimalEvent) : Bool := compareLatest candidate current < 0

/-- `replaceableKey(e)`. -/
def replaceableKey (e : MinimalEvent) : Option JsString :=
  if e.kind = 0 ∨ e.kind = 3 ∨ (10000 ≤ e.kind ∧ e.kind < 20000) then some (natToString e.kind ++ js ":" ++ e.pubkey)
  else if 30000 ≤ e.kind ∧ e.kind < 40000 then
    let d := ((e.tags.find? (·.head? = some (js "d"))).bind (·[1]?)).getD []
    some (natToString e.kind ++ js ":" ++ e.pubkey ++ js ":" ++ d)
  else none

structure EventDeduper where
  seenIds : List JsString
  latest : JsMap JsString MinimalEvent
  regular : List MinimalEvent

namespace EventDeduper

def empty : EventDeduper := ⟨[], JsMap.empty, []⟩

/-- `accept(e)`. -/
def accept (d : EventDeduper) (e : MinimalEvent) : Bool × EventDeduper :=
  if e.id ∈ d.seenIds then (false, d)
  else
    let d := { d with seenIds := e.id :: d.seenIds }
    match replaceableKey e with
    | none => (true, { d with regular := d.regular ++ [e] })
    | some key =>
      match d.latest.get? key with
      | some prev => if !supersedes e prev then (false, d) else (true, { d with latest := d.latest.set key e })
      | none => (true, { d with latest := d.latest.set key e })

/-- `snapshot()`. -/
def snapshot (d : EventDeduper) : List MinimalEvent := d.regular ++ d.latest.values

end EventDeduper

/-- An event as a relay sends it. -/
structure Copy where
  event : MinimalEvent
  isVerified : Bool

structure Stream where
  deduper : EventDeduper
  verifiedIds : List JsString
  /-- What `onEvent` was called with. -/
  shown : List MinimalEvent

def opened : Stream := ⟨.empty, [], []⟩

/-- The listener of `sub.on("event")`. -/
def receive (s : Stream) (c : Copy) : Stream :=
  if c.event.id ∉ s.verifiedIds ∧ !c.isVerified then s
  else
    let verifiedIds := if c.event.id ∈ s.verifiedIds then s.verifiedIds else c.event.id :: s.verifiedIds
    match s.deduper.accept c.event with
    | (true, d) => ⟨d, verifiedIds, s.shown ++ [c.event]⟩
    | (false, d) => ⟨d, verifiedIds, s.shown⟩

def received (cs : List Copy) : Stream := cs.foldl receive opened

/-! ## The order of versions -/

variable {a b c e : MinimalEvent} {A : List MinimalEvent} {d : EventDeduper} {s : Stream} {cs : List Copy}

theorem supersedes_iff : supersedes a b = true ↔
    b.created_at.getD 0 < a.created_at.getD 0 ∨ a.created_at.getD 0 = b.created_at.getD 0 ∧ a.id < b.id := by
  unfold supersedes compareLatest
  simp only [decide_eq_true_eq]
  split_ifs with h1 h2 h3
  · omega
  · simp only [not_not] at h1
    simp [h1, h2]
  · simp only [not_not] at h1
    simp [h1, h2]
  · simp only [not_not] at h1
    simp [h1, h2]

theorem supersedes_trans (hab : supersedes a b = true) (hbc : supersedes b c = true) : supersedes a c = true := by
  rw [supersedes_iff] at hab hbc ⊢
  rcases hab with hab | ⟨hab, hid⟩
  · left
    omega
  · rcases hbc with hbc | ⟨hbc, hid'⟩
    · left
      omega
    · exact .inr ⟨hab.trans hbc, lt_trans hid hid'⟩

theorem not_supersedes_self (a : MinimalEvent) : ¬supersedes a a = true := by
  rw [supersedes_iff]
  simp

/-- Of two events of different ids, one supersedes the other. -/
theorem supersedes_total (hid : a.id ≠ b.id) (h : ¬supersedes a b = true) : supersedes b a = true := by
  rw [supersedes_iff] at h ⊢
  push Not at h
  rcases Nat.lt_or_ge (a.created_at.getD 0) (b.created_at.getD 0) with hlt | hge
  · exact .inl hlt
  · have heq : a.created_at.getD 0 = b.created_at.getD 0 := Nat.le_antisymm h.1 hge
    exact .inr ⟨heq.symm, lt_of_le_of_ne (h.2 heq) hid.symm⟩

/-! ## What is kept -/

/-- The version of an address that no other supersedes. -/
def Newest (A : List MinimalEvent) (key : JsString) (e : MinimalEvent) : Prop :=
  e ∈ A ∧ replaceableKey e = some key ∧ ∀ x ∈ A, replaceableKey x = some key → x = e ∨ supersedes e x = true

theorem Newest.unique {key : JsString} (h : Newest A key a) (h' : Newest A key b) : a = b := by
  rcases h.2.2 b h'.1 h'.2.1 with hba | hab
  · exact hba.symm
  · rcases h'.2.2 a h.1 h.2.1 with hab' | hba
    · exact hab'
    · exact absurd (supersedes_trans hab hba) (not_supersedes_self a)

/-- A stream after the events `A`, those signed right of what has come. -/
structure Settled (A : List MinimalEvent) (s : Stream) : Prop where
  seen : ∀ i, i ∈ s.deduper.seenIds ↔ ∃ e ∈ A, e.id = i
  verified : ∀ i, i ∈ s.verifiedIds ↔ ∃ e ∈ A, e.id = i
  regular_nodup : s.deduper.regular.Nodup
  regular : ∀ e, e ∈ s.deduper.regular ↔ e ∈ A ∧ replaceableKey e = none
  latest : ∀ key e, s.deduper.latest.get? key = some e ↔ Newest A key e
  held : ∀ e ∈ A, ∀ key, replaceableKey e = some key → ∃ x, Newest A key x
  shown : ∀ e ∈ s.shown, e ∈ A
  kept_shown : ∀ e ∈ s.deduper.snapshot, e ∈ s.shown
  forward : s.shown.Pairwise fun a b => a.id ≠ b.id ∧ ∀ key, replaceableKey a = some key → replaceableKey b = some key → supersedes b a = true

theorem settled_opened : Settled [] opened where
  seen i := by simp [opened, EventDeduper.empty]
  verified i := by simp [opened]
  regular_nodup := List.nodup_nil
  regular e := by simp [opened, EventDeduper.empty]
  latest key e := by simp [opened, EventDeduper.empty, Newest, JsMap.empty, JsMap.get?, look]
  held e he := absurd he List.not_mem_nil
  shown e he := absurd he List.not_mem_nil
  kept_shown e he := absurd he List.not_mem_nil
  forward := List.Pairwise.nil

theorem Settled.congr {B : List MinimalEvent} (h : Settled A s) (hmem : ∀ e, e ∈ A ↔ e ∈ B) : Settled B s := by
  have hnewest : ∀ key e, Newest A key e ↔ Newest B key e := by
    intro key e
    unfold Newest
    simp only [hmem]
  exact {
    seen := fun i => by simp only [h.seen, hmem]
    verified := fun i => by simp only [h.verified, hmem]
    regular_nodup := h.regular_nodup
    regular := fun e => by rw [h.regular, hmem]
    latest := fun key e => by rw [h.latest, hnewest]
    held := fun e he key hkey => by simpa only [hnewest] using h.held e ((hmem e).mpr he) key hkey
    shown := fun e he => (hmem e).mp (h.shown e he)
    kept_shown := h.kept_shown
    forward := h.forward }

theorem mem_snapshot (h : Settled A s) : e ∈ s.deduper.snapshot ↔ e ∈ A ∧ ∀ key, replaceableKey e = some key → Newest A key e := by
  have hvalues : e ∈ s.deduper.latest.values ↔ ∃ key, s.deduper.latest.get? key = some e := by
    constructor
    · exact JsMap.get?_of_mem_values
    · intro ⟨key, hkey⟩
      exact List.mem_map.mpr ⟨(key, e), JsMap.get?_eq_some.mp hkey, rfl⟩
  unfold EventDeduper.snapshot
  rw [List.mem_append, hvalues, h.regular]
  constructor
  · rintro (⟨he, hkey⟩ | ⟨key, hkey⟩)
    · refine ⟨he, fun key hk => ?_⟩
      rw [hkey] at hk
      cases hk
    · have hnew := (h.latest key e).mp hkey
      refine ⟨hnew.1, fun key' hk => ?_⟩
      rw [hnew.2.1] at hk
      cases hk
      exact hnew
  · rintro ⟨he, hall⟩
    cases hkey : replaceableKey e with
    | none => exact .inl ⟨he, rfl⟩
    | some key => exact .inr ⟨key, (h.latest key e).mpr (hall key hkey)⟩

/-- Each version that is left is left once. -/
theorem nodup_snapshot (h : Settled A s) : s.deduper.snapshot.Nodup := by
  unfold EventDeduper.snapshot JsMap.values
  have hentry : ∀ p ∈ s.deduper.latest.entries, replaceableKey p.2 = some p.1 := fun p hp => ((h.latest p.1 p.2).mp (JsMap.get?_eq_some.mpr hp)).2.1
  rw [List.nodup_append]
  refine ⟨h.regular_nodup, ?_, ?_⟩
  · refine List.Nodup.map_on (fun p hp q hq hpq => ?_) s.deduper.latest.nodup.of_map
    have hkey := (hentry p hp).symm.trans ((congrArg replaceableKey hpq).trans (hentry q hq))
    exact Prod.ext (Option.some.inj hkey) hpq
  · intro x hx y hy hxy
    obtain ⟨p, hp, rfl⟩ := List.mem_map.mp hy
    have hnone := ((h.regular x).mp hx).2
    rw [hxy, hentry p hp] at hnone
    cases hnone

/-! ## One copy -/

/-- An event of an id that is new. -/
theorem accept_new (h : Settled A s) (hid : ∀ x ∈ A, x.id ≠ e.id) {verifiedIds : List JsString}
    (hverified : ∀ i, i ∈ verifiedIds ↔ ∃ x ∈ A ++ [e], x.id = i) :
    Settled (A ++ [e]) (match s.deduper.accept e with
      | (true, d) => ⟨d, verifiedIds, s.shown ++ [e]⟩
      | (false, d) => ⟨d, verifiedIds, s.shown⟩) := by
  have hfresh : e.id ∉ s.deduper.seenIds := fun hm => by
    obtain ⟨x, hx, hxe⟩ := (h.seen e.id).mp hm
    exact hid x hx hxe
  have hnot : e ∉ A := fun he => hid e he rfl
  have hseen : ∀ i, i ∈ e.id :: s.deduper.seenIds ↔ ∃ x ∈ A ++ [e], x.id = i := by
    intro i
    rw [List.mem_cons, h.seen]
    constructor
    · rintro (rfl | ⟨x, hx, hxi⟩)
      · exact ⟨e, by simp, rfl⟩
      · exact ⟨x, by simp [hx], hxi⟩
    · rintro ⟨x, hx, hxi⟩
      rcases List.mem_append.mp hx with hx | hx
      · exact .inr ⟨x, hx, hxi⟩
      · rw [List.mem_singleton.mp hx] at hxi
        exact .inl hxi.symm
  -- another address has the versions it had
  have hother : ∀ key x, replaceableKey e ≠ some key → (Newest (A ++ [e]) key x ↔ Newest A key x) := by
    intro key x hkey
    unfold Newest
    simp only [List.mem_append, List.mem_singleton]
    constructor
    · rintro ⟨hx | rfl, hk, hall⟩
      · exact ⟨hx, hk, fun y hy => hall y (.inl hy)⟩
      · exact absurd hk hkey
    · rintro ⟨hx, hk, hall⟩
      refine ⟨.inl hx, hk, fun y hy hyk => ?_⟩
      rcases hy with hy | rfl
      · exact hall y hy hyk
      · exact absurd hyk hkey
  have hshown : ∀ x ∈ s.shown ++ [e], x ∈ A ++ [e] := by
    intro x hx
    rcases List.mem_append.mp hx with hx | hx
    · exact List.mem_append_left _ (h.shown x hx)
    · exact List.mem_append_right _ hx
  have hids : ∀ x ∈ s.shown, x.id ≠ e.id := fun x hx => hid x (h.shown x hx)
  unfold EventDeduper.accept
  rw [if_neg hfresh]
  dsimp only
  cases hkey : replaceableKey e with
  | none =>
    dsimp only
    refine ⟨hseen, hverified, ?_, fun x => ?_, fun key x => ?_, fun x hx key hk => ?_, hshown, fun x hx => ?_, ?_⟩
    · exact List.nodup_append.mpr ⟨h.regular_nodup, List.nodup_singleton e, fun x hx y hy hxy =>
        hnot ((List.mem_singleton.mp hy) ▸ hxy ▸ ((h.regular x).mp hx).1)⟩
    · rw [List.mem_append, List.mem_append, List.mem_singleton, h.regular]
      constructor
      · rintro (⟨hx, hk⟩ | rfl)
        · exact ⟨.inl hx, hk⟩
        · exact ⟨.inr rfl, hkey⟩
      · rintro ⟨hx | rfl, hk⟩
        · exact .inl ⟨hx, hk⟩
        · exact .inr rfl
    · rw [hother key x (by rw [hkey]; exact fun hk => by cases hk)]
      exact h.latest key x
    · rcases List.mem_append.mp hx with hx | hx
      · obtain ⟨y, hy⟩ := h.held x hx key hk
        exact ⟨y, (hother key y (by rw [hkey]; exact fun hk => by cases hk)).mpr hy⟩
      · rw [List.mem_singleton.mp hx, hkey] at hk
        cases hk
    · unfold EventDeduper.snapshot at hx
      rw [List.mem_append, List.mem_append] at hx
      rcases hx with (hx | hx) | hx
      · exact List.mem_append_left _ (h.kept_shown x (List.mem_append_left _ hx))
      · exact List.mem_append_right _ hx
      · exact List.mem_append_left _ (h.kept_shown x (List.mem_append_right _ hx))
    · refine List.pairwise_append.mpr ⟨h.forward, List.pairwise_singleton _ _, fun x hx y hy => ?_⟩
      rw [List.mem_singleton.mp hy]
      refine ⟨hids x hx, fun key _ hk => ?_⟩
      rw [hkey] at hk
      cases hk
  | some key =>
    have hsub : ∀ k x, k ≠ key → (Newest (A ++ [e]) k x ↔ Newest A k x) := fun k x hk => hother k x fun he => hk (Option.some.inj (he.symm.trans hkey))
    have hregular : ∀ x, x ∈ s.deduper.regular ↔ x ∈ A ++ [e] ∧ replaceableKey x = none := by
      intro x
      rw [h.regular, List.mem_append, List.mem_singleton]
      constructor
      · exact fun hx => ⟨.inl hx.1, hx.2⟩
      · rintro ⟨hx | rfl, hk⟩
        · exact ⟨hx, hk⟩
        · rw [hkey] at hk
          cases hk
    -- the new version supersedes those of its address
    have hset : (∀ x ∈ A, replaceableKey x = some key → supersedes e x = true) →
        Settled (A ++ [e]) ⟨⟨e.id :: s.deduper.seenIds, s.deduper.latest.set key e, s.deduper.regular⟩, verifiedIds, s.shown ++ [e]⟩ := by
      intro hall
      have hnew : Newest (A ++ [e]) key e := by
        refine ⟨by simp, hkey, fun x hx hk => ?_⟩
        rcases List.mem_append.mp hx with hx | hx
        · exact .inr (hall x hx hk)
        · exact .inl (List.mem_singleton.mp hx)
      refine ⟨hseen, hverified, h.regular_nodup, hregular, fun k x => ?_, fun x hx k hk => ?_, hshown, fun x hx => ?_, ?_⟩
      · rw [JsMap.get?_set]
        split_ifs with hk
        · rw [← hk]
          constructor
          · rintro ⟨⟩
            exact hnew
          · exact fun hx => congrArg some (hnew.unique hx)
        · rw [hsub k x (Ne.symm hk)]
          exact h.latest k x
      · by_cases hkk : k = key
        · exact ⟨e, hkk ▸ hnew⟩
        · rcases List.mem_append.mp hx with hx | hx
          · obtain ⟨y, hy⟩ := h.held x hx k hk
            exact ⟨y, (hsub k y hkk).mpr hy⟩
          · rw [List.mem_singleton.mp hx, hkey] at hk
            exact absurd (Option.some.inj hk).symm hkk
      · unfold EventDeduper.snapshot at hx
        rcases List.mem_append.mp hx with hx | hx
        · exact List.mem_append_left _ (h.kept_shown x (List.mem_append_left _ hx))
        · obtain ⟨k, hk⟩ := JsMap.get?_of_mem_values hx
          rw [JsMap.get?_set] at hk
          split_ifs at hk with hkk
          · rw [← Option.some.inj hk]
            exact List.mem_append_right _ (List.mem_singleton_self e)
          · refine List.mem_append_left _ (h.kept_shown x (List.mem_append_right _ ?_))
            exact List.mem_map.mpr ⟨(k, x), JsMap.get?_eq_some.mp hk, rfl⟩
      · refine List.pairwise_append.mpr ⟨h.forward, List.pairwise_singleton _ _, fun x hx y hy => ?_⟩
        rw [List.mem_singleton.mp hy]
        refine ⟨hids x hx, fun k hxk hyk => hall x (h.shown x hx) ?_⟩
        rw [hxk, ← hyk, hkey]
    dsimp only
    cases hprev : s.deduper.latest.get? key with
    | none =>
      refine hset fun x hx hk => ?_
      obtain ⟨y, hy⟩ := h.held x hx key hk
      rw [(h.latest key y).mpr hy] at hprev
      cases hprev
    | some prev =>
      have hold := (h.latest key prev).mp hprev
      by_cases hsup : supersedes e prev = true
      · simp only [hsup, Bool.not_true, Bool.false_eq_true, if_false]
        refine hset fun x hx hk => ?_
        rcases hold.2.2 x hx hk with rfl | hxp
        · exact hsup
        · exact supersedes_trans hsup hxp
      · simp only [hsup, Bool.not_false, if_true]
        have hback := supersedes_total (hid prev hold.1).symm hsup
        have hstill : Newest (A ++ [e]) key prev := by
          refine ⟨List.mem_append_left _ hold.1, hold.2.1, fun x hx hk => ?_⟩
          rcases List.mem_append.mp hx with hx | hx
          · exact hold.2.2 x hx hk
          · rw [List.mem_singleton.mp hx]
            exact .inr hback
        refine ⟨hseen, hverified, h.regular_nodup, hregular, fun k x => ?_, fun x hx k hk => ?_, fun x hx => List.mem_append_left _ (h.shown x hx),
          h.kept_shown, h.forward⟩
        · by_cases hkk : k = key
          · rw [hkk, hprev]
            constructor
            · rintro ⟨⟩
              exact hstill
            · exact fun hx => congrArg some (hstill.unique hx)
          · rw [hsub k x hkk]
            exact h.latest k x
        · by_cases hkk : k = key
          · exact ⟨prev, hkk ▸ hstill⟩
          · rcases List.mem_append.mp hx with hx | hx
            · obtain ⟨y, hy⟩ := h.held x hx k hk
              exact ⟨y, (hsub k y hkk).mpr hy⟩
            · rw [List.mem_singleton.mp hx, hkey] at hk
              exact absurd (Option.some.inj hk).symm hkk

/-- Those of the events that are signed right. -/
def genuine (cs : List Copy) : List MinimalEvent := (cs.filter (·.isVerified)).map (·.event)

/-- An id is that of one event. -/
def IdsAgree (A : List MinimalEvent) : Prop := ∀ x ∈ A, ∀ y ∈ A, x.id = y.id → x = y

theorem settled_receive {c : Copy} (h : Settled A s) (hids : IdsAgree (A ++ genuine [c])) : Settled (A ++ genuine [c]) (receive s c) := by
  unfold receive
  by_cases hseen : c.event.id ∈ s.verifiedIds
  · -- the id is known: the copy is dropped, whatever its signature
    have hknown : c.event.id ∈ s.deduper.seenIds := (h.seen _).mpr ((h.verified _).mp hseen)
    have haccept : s.deduper.accept c.event = (false, s.deduper) := if_pos hknown
    rw [if_neg fun hn => hn.1 hseen, haccept]
    dsimp only
    rw [if_pos hseen]
    refine h.congr fun x => ?_
    rw [List.mem_append]
    refine ⟨.inl, fun hx => hx.elim id fun hx => ?_⟩
    have hxc : x = c.event := by
      unfold genuine at hx
      obtain ⟨y, hy, rfl⟩ := List.mem_map.mp hx
      rw [List.mem_singleton.mp (List.mem_filter.mp hy).1]
    obtain ⟨y, hy, hyc⟩ := (h.verified _).mp hseen
    rw [← hids y (List.mem_append_left _ hy) x (List.mem_append_right _ hx) (hyc.trans (congrArg (·.id) hxc.symm))]
    exact hy
  · cases hgood : c.isVerified with
    | false =>
      have hnone : genuine [c] = [] := by simp [genuine, hgood]
      rw [if_pos ⟨hseen, rfl⟩, hnone, List.append_nil]
      exact h
    | true =>
      have hone : genuine [c] = [c.event] := by simp [genuine, hgood]
      have hid : ∀ x ∈ A, x.id ≠ c.event.id := fun x hx hxc => hseen ((h.verified _).mpr ⟨x, hx, hxc⟩)
      rw [if_neg fun hn => absurd hn.2 (by decide), hone]
      refine accept_new h hid fun i => ?_
      rw [if_neg hseen, List.mem_cons, h.verified]
      constructor
      · rintro (rfl | ⟨x, hx, hxi⟩)
        · exact ⟨c.event, by simp, rfl⟩
        · exact ⟨x, by simp [hx], hxi⟩
      · rintro ⟨x, hx, hxi⟩
        rcases List.mem_append.mp hx with hx | hx
        · exact .inr ⟨x, hx, hxi⟩
        · rw [List.mem_singleton.mp hx] at hxi
          exact .inl hxi.symm

/-! ## A whole read -/

theorem settled_received (hids : IdsAgree (genuine cs)) : Settled (genuine cs) (received cs) := by
  induction cs using List.reverseRecOn with
  | nil => exact settled_opened
  | append_singleton cs c ih =>
    have hsplit : genuine (cs ++ [c]) = genuine cs ++ genuine [c] := by
      unfold genuine
      rw [List.filter_append, List.map_append]
    rw [hsplit] at hids ⊢
    have hcs : IdsAgree (genuine cs) := fun x hx y hy => hids x (List.mem_append_left _ hx) y (List.mem_append_left _ hy)
    have hstep : received (cs ++ [c]) = receive (received cs) c := by
      unfold received
      rw [List.foldl_append]
      rfl
    rw [hstep]
    exact settled_receive (ih hcs) hids

/-- **Two reads of the same genuine events settle on the same versions, whatever else the relays sent and
in whatever order.** What was shown on the way only ever moved forward. -/
theorem settles_alike {ds : List Copy} (hids : IdsAgree (genuine cs)) (hsame : ∀ x, x ∈ genuine cs ↔ x ∈ genuine ds) :
    (received cs).deduper.snapshot.Perm (received ds).deduper.snapshot ∧
    (∀ x, x ∈ (received cs).deduper.snapshot ↔ x ∈ genuine cs ∧ ∀ key, replaceableKey x = some key → Newest (genuine cs) key x) ∧
    (∀ x ∈ (received cs).shown, x ∈ genuine cs) ∧ (∀ x ∈ (received cs).deduper.snapshot, x ∈ (received cs).shown) ∧
    (received cs).shown.Pairwise fun a b => a.id ≠ b.id ∧ ∀ key, replaceableKey a = some key → replaceableKey b = some key → supersedes b a = true := by
  have hids' : IdsAgree (genuine ds) := fun x hx y hy => hids x ((hsame x).mpr hx) y ((hsame y).mpr hy)
  have hcs := settled_received hids
  have hds := (settled_received hids').congr fun x => (hsame x).symm
  refine ⟨(List.perm_ext_iff_of_nodup (nodup_snapshot hcs) (nodup_snapshot hds)).mpr fun x => ?_, fun x => mem_snapshot hcs, hcs.shown,
    hcs.kept_shown, hcs.forward⟩
  rw [mem_snapshot hcs, mem_snapshot hds]

def someVersion (id : String) (created_at : Nat) : MinimalEvent := ⟨js id, 0, js "p", some created_at, []⟩

/-- Two versions in either order, one of them twice, and a copy that is not signed right. -/
theorem settles_alike_two :
    (received [⟨someVersion "a" 1, true⟩, ⟨someVersion "f" 9, false⟩, ⟨someVersion "b" 2, true⟩]).deduper.snapshot.Perm
      (received [⟨someVersion "b" 2, true⟩, ⟨someVersion "a" 1, true⟩, ⟨someVersion "b" 2, true⟩]).deduper.snapshot := by
  refine (settles_alike ?_ fun x => ?_).1
  · unfold IdsAgree
    decide
  · have hleft : genuine [⟨someVersion "a" 1, true⟩, ⟨someVersion "f" 9, false⟩, ⟨someVersion "b" 2, true⟩] = [someVersion "a" 1, someVersion "b" 2] := rfl
    have hright : genuine [⟨someVersion "b" 2, true⟩, ⟨someVersion "a" 1, true⟩, ⟨someVersion "b" 2, true⟩] =
        [someVersion "b" 2, someVersion "a" 1, someVersion "b" 2] := rfl
    rw [hleft, hright]
    simp only [List.mem_cons, List.not_mem_nil, or_false]
    tauto

end Nostrautica.Dedupe
