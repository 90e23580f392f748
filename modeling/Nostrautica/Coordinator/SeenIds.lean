/-
`BoundedSeenIds` of `coordinator/src/nostr/client.ts`, and the subscription that drops with it what
another relay has delivered before.

An id stays known over the last `limit` deliveries at least, and fewer than `2 × limit` ids are kept
(`delivered_windows`).
-/
import Mathlib.Data.List.Infix
import Mathlib.Data.List.Nodup

namespace Nostrautica.SeenIds

variable {α : Type*}

/-- The two generations; each is a set, here in the order of its ids. -/
structure BoundedSeenIds (α : Type*) where
  current : List α := []
  previous : List α := []

/-- A subscription: what it has seen, and the ids that it handed to `onEvent`. -/
structure Subscription (α : Type*) where
  seen : BoundedSeenIds α := {}
  delivered : List α := []

section

variable [DecidableEq α]

/-- `seenBefore(id)`. -/
def BoundedSeenIds.seenBefore (limit : Nat) (s : BoundedSeenIds α) (id : α) : Bool × BoundedSeenIds α :=
  if id ∈ s.current ∨ id ∈ s.previous then (true, s)
  else
    let current := s.current ++ [id]
    (false, if limit ≤ current.length then { current := [], previous := current } else { s with current })

/-- `onevent` of any of the relays. -/
def Subscription.onevent (limit : Nat) (s : Subscription α) (id : α) : Subscription α :=
  match s.seen.seenBefore limit id with
  | (true, _) => s
  | (false, seen) => { seen, delivered := s.delivered ++ [id] }

/-- A subscription after the events `ids`, in the order in which they came. -/
def subscribe (limit : Nat) (ids : List α) : Subscription α := ids.foldl (Subscription.onevent limit) {}

end

variable {limit : Nat} {ids w : List α} {s : Subscription α} {id : α}

/-- The ids that are known, the oldest first. -/
def Subscription.known (s : Subscription α) : List α := s.seen.previous ++ s.seen.current

/-- What holds after the events `ids`. -/
structure Windowed (limit : Nat) (ids : List α) (s : Subscription α) : Prop where
  known : s.known <:+ s.delivered
  nodup : s.known.Nodup
  room : s.seen.current.length < limit
  /-- A whole generation is kept besides the current one, once there was one. -/
  full : s.seen.previous.length = limit ∨ s.seen.previous = [] ∧ s.seen.current = s.delivered
  windows : ∀ w, w <:+: s.delivered → w.length ≤ limit + 1 → w.Nodup
  all : ∀ id ∈ ids, id ∈ s.delivered
  sub : s.delivered.Sublist ids

theorem windowed_nil (hl : 0 < limit) : Windowed limit ([] : List α) {} where
  known := List.suffix_rfl
  nodup := List.nodup_nil
  room := hl
  full := .inr ⟨rfl, rfl⟩
  windows w hw _ := by
    rw [List.infix_nil.mp hw]
    exact List.nodup_nil
  all _ h := h
  sub := List.Sublist.slnil

/-- The last deliveries, a generation of them, are known. -/
theorem Windowed.suffix (h : Windowed limit ids s) (hw : w <:+ s.delivered) (hlen : w.length ≤ limit) : w <:+ s.known := by
  rcases h.full with hfull | ⟨hnil, hall⟩
  · refine List.suffix_of_suffix_length_le hw h.known (hlen.trans ?_)
    rw [Subscription.known, List.length_append, hfull]
    exact Nat.le_add_right _ _
  · rw [Subscription.known, hnil, hall]
    exact hw

/-- An id that is not known is new in the window that ends with it. -/
theorem Windowed.concat (h : Windowed limit ids s) (hid : id ∉ s.known) (hw : w <:+: s.delivered ++ [id]) (hlen : w.length ≤ limit + 1) :
    w.Nodup := by
  obtain ⟨a, b, hab⟩ := hw
  rcases List.eq_nil_or_concat b with rfl | ⟨b, y, rfl⟩
  · rcases List.eq_nil_or_concat w with rfl | ⟨v, y, rfl⟩
    · exact List.nodup_nil
    · rw [List.append_nil, List.concat_eq_append, ← List.append_assoc] at hab
      obtain ⟨hv, hy⟩ := List.append_inj' hab rfl
      obtain rfl := List.singleton_inj.mp hy
      rw [List.concat_eq_append, List.length_append, List.length_singleton] at hlen
      have hknown : v <:+ s.known := h.suffix ⟨a, hv⟩ (Nat.le_of_succ_le_succ hlen)
      rw [List.concat_eq_append, List.nodup_append]
      refine ⟨h.nodup.sublist hknown.sublist, List.nodup_singleton _, fun x hx z hz => ?_⟩
      rw [List.mem_singleton.mp hz]
      rintro rfl
      exact hid (hknown.subset hx)
  · rw [List.concat_eq_append, ← List.append_assoc] at hab
    exact h.windows w ⟨a, b, (List.append_inj' hab rfl).1⟩ hlen

variable [DecidableEq α]

theorem Windowed.onevent (h : Windowed limit ids s) (id : α) : Windowed limit (ids ++ [id]) (s.onevent limit id) := by
  by_cases hseen : id ∈ s.seen.current ∨ id ∈ s.seen.previous
  · have hsame : s.onevent limit id = s := by simp [Subscription.onevent, BoundedSeenIds.seenBefore, hseen]
    rw [hsame]
    refine ⟨h.known, h.nodup, h.room, h.full, h.windows, fun x hx => ?_, h.sub.trans (List.sublist_append_left _ _)⟩
    rcases List.mem_append.mp hx with hx | hx
    · exact h.all x hx
    · rw [List.mem_singleton.mp hx]
      exact h.known.subset (List.mem_append.mpr hseen.symm)
  · have hid : id ∉ s.known := fun hk => hseen (List.mem_append.mp hk).symm
    have hnodup : (s.known ++ [id]).Nodup := by
      rw [List.nodup_append]
      refine ⟨h.nodup, List.nodup_singleton _, fun x hx z hz => ?_⟩
      rw [List.mem_singleton.mp hz]
      rintro rfl
      exact hid hx
    have hknown : s.known ++ [id] <:+ s.delivered ++ [id] := by
      obtain ⟨t, ht⟩ := h.known
      exact ⟨t, by rw [← ht, List.append_assoc]⟩
    have hall : ∀ x ∈ ids ++ [id], x ∈ s.delivered ++ [id] := fun x hx =>
      List.mem_append.mpr ((List.mem_append.mp hx).imp_left (h.all x))
    have hwindows : ∀ w, w <:+: s.delivered ++ [id] → w.length ≤ limit + 1 → w.Nodup := fun w hw hlen => h.concat hid hw hlen
    have hsub : (s.delivered ++ [id]).Sublist (ids ++ [id]) := h.sub.append (List.Sublist.refl _)
    by_cases hfull : limit ≤ (s.seen.current ++ [id]).length
    · have heq : s.onevent limit id = { seen := { current := [], previous := s.seen.current ++ [id] }, delivered := s.delivered ++ [id] } := by
        unfold Subscription.onevent BoundedSeenIds.seenBefore
        rw [if_neg hseen]
        simp only [if_pos hfull]
      have hsuffix : s.seen.current ++ [id] <:+ s.known ++ [id] := ⟨s.seen.previous, (List.append_assoc _ _ _).symm⟩
      rw [heq]
      refine ⟨?_, ?_, Nat.lt_of_le_of_lt (Nat.zero_le _) h.room, .inl ?_, hwindows, hall, hsub⟩
      · rw [Subscription.known, List.append_nil]
        exact hsuffix.trans hknown
      · rw [Subscription.known, List.append_nil]
        exact hnodup.sublist hsuffix.sublist
      · have hroom := h.room
        rw [List.length_append, List.length_singleton] at hfull ⊢
        exact Nat.le_antisymm hroom hfull
    · have heq : s.onevent limit id = { seen := { s.seen with current := s.seen.current ++ [id] }, delivered := s.delivered ++ [id] } := by
        unfold Subscription.onevent BoundedSeenIds.seenBefore
        rw [if_neg hseen]
        simp only [if_neg hfull]
      have hassoc : s.seen.previous ++ (s.seen.current ++ [id]) = s.known ++ [id] := (List.append_assoc _ _ _).symm
      rw [heq]
      refine ⟨?_, ?_, Nat.lt_of_not_le hfull, h.full.imp_right fun hnil => ⟨hnil.1, by rw [hnil.2]⟩, hwindows, hall, hsub⟩
      · rw [Subscription.known, hassoc]
        exact hknown
      · rw [Subscription.known, hassoc]
        exact hnodup

theorem windowed_subscribe (hl : 0 < limit) : ∀ ids : List α, Windowed limit ids (subscribe limit ids) := by
  intro ids
  induction ids using List.reverseRecOn with
  | nil => exact windowed_nil hl
  | append_singleton ids id ih =>
    rw [subscribe, List.foldl_append]
    exact ih.onevent id

/-- Whatever the relays deliver, and in whatever order: each id is handed on, in the order of the first copies that are;
none is handed on twice within `limit + 1` deliveries; and fewer than `2 * limit` ids are kept. -/
theorem delivered_windows (hl : 0 < limit) (ids : List α) :
    (∀ id ∈ ids, id ∈ (subscribe limit ids).delivered) ∧ (subscribe limit ids).delivered.Sublist ids ∧
    (∀ w, w <:+: (subscribe limit ids).delivered → w.length ≤ limit + 1 → w.Nodup) ∧ (subscribe limit ids).known.length < 2 * limit := by
  have h := windowed_subscribe hl ids
  refine ⟨h.all, h.sub, h.windows, ?_⟩
  have hroom := h.room
  have hprevious : (subscribe limit ids).seen.previous.length ≤ limit := by
    rcases h.full with hfull | ⟨hnil, -⟩
    · exact hfull.le
    · rw [hnil]
      exact Nat.zero_le _
  rw [Subscription.known, List.length_append]
  omega

/-- The third relay is late with the first event. -/
theorem delivered_windows_late : (subscribe 2 [1, 1, 2, 2, 3, 1, 4, 1]).delivered = [1, 2, 3, 4, 1] ∧
    (subscribe 2 [1, 1, 2, 2, 3, 1, 4, 1]).known.length < 2 * 2 :=
  ⟨by decide, (delivered_windows (by decide) [1, 1, 2, 2, 3, 1, 4, 1]).2.2.2⟩

end Nostrautica.SeenIds
