/-
Inbound rumors run once (`rumors_exactly_once`), where no mark of a rumor that has
run is lost and the ledger is written for no rumor that still waits for a dispatch.
-/
import Nostrautica.Coordinator.Inbound

set_option linter.unusedSectionVars false

namespace Nostrautica.Inbound

open Js

variable {Event Sk : Type*} {D : Deps Event Sk} {w w' : World Event} {x : Act Event Sk} {xs : List (Act Event Sk)} {t : Nat}
  {task : Task Event} {id : JsString} {e : Entry} {wrap rumor : Event} {fault : Option Fault} {inbox : Inbox} {sk : Sk}

/-- What has to have happened before an entry. -/
def Follows (D : Deps Event Sk) (log : List Entry) : Entry → Prop
  | .seen id => ∀ rumor, D.kind rumor ≠ kindGiftWrap → D.getEventHash rumor = id →
      .returned id ∈ log ∨ .unprocessable id ∈ log ∨ .absurd id ∈ log
  | .dispatched id => .seen id ∉ log
  | .returned id => .returned id ∉ log
  | _ => True

/-- A rumor is marked seen only after its dispatch returned, failed for good, or it was
dated past the bound; none is dispatched after that, and none returns twice. -/
def Ordered (D : Deps Event Sk) : List Entry → Prop
  | [] => True
  | e :: log => Ordered D log ∧ Follows D log e

structure ExactlyOnce (D : Deps Event Sk) (w : World Event) : Prop where
  /-- No two handlers have the same rumor. -/
  alone : ∀ s t x y, w.tasks s = some x → w.tasks t = some y → D.getEventHash x.rumor = D.getEventHash y.rumor → s = t
  /-- The claims are those of the rumors between claim and settling. -/
  claims : ∀ id, id ∈ w.inFlightRumors ↔ ∃ t x, w.tasks t = some x ∧ D.getEventHash x.rumor = id
  ordered : Ordered D w.log
  recorded : ∀ id, id ∈ w.seen_rumors ↔ .seen id ∈ w.log
  /-- No rumor is lost in a wrap that counts as seen. -/
  kept : ∀ wrap, D.kind wrap = kindGiftWrap → D.getEventHash wrap ∈ w.seen_rumors →
    ∃ sk rumor, D.opens sk wrap = some rumor ∧ D.getEventHash rumor ∈ w.seen_rumors

/-- The handler is at its last dispatch. -/
def AtLast (D : Deps Event Sk) (y : Task Event) : Prop := ∃ n, y.stage = .dispatching n ∧ D.maxAttempts ≤ n

/-- No store call throws where a claim or a mark hangs on it, and no rumor that still
waits for a dispatch is read as dated past the bound. -/
def Timely (D : Deps Event Sk) (w : World Event) : Act Event Sk → Prop
  | .deliver _ inbox sk wrap now a =>
    (∀ rumor coordinate, unwrapFresh D w inbox sk wrap now a.fault = .claimed rumor → inbox = .event coordinate →
      a.allowed = false → a.fault ≠ some .budget) ∧
    (∀ rumor, unwrapFresh D w inbox sk wrap now a.fault = .absurd rumor → a.fault ≠ some .mark →
      ∀ s y, w.tasks s = some y → D.getEventHash y.rumor = D.getEventHash rumor → AtLast D y)
  | .settle t .returned fault =>
    ∀ y, w.tasks t = some y → fault ≠ some .mark ∧ (fault = some .markWrap → AtLast D y)
  | _ => True

/-! ## The invariant -/

structure Sound (D : Deps Event Sk) (w : World Event) : Prop extends ExactlyOnce D w where
  kinds : ∀ t y, w.tasks t = some y → D.kind y.wrap = kindGiftWrap ∧ D.kind y.rumor ≠ kindGiftWrap ∧ ∃ sk, D.opens sk y.wrap = some y.rumor
  unseen : ∀ t y, w.tasks t = some y → D.getEventHash y.rumor ∉ w.seen_rumors ∨ AtLast D y
  unreturned : ∀ t y, w.tasks t = some y → .returned (D.getEventHash y.rumor) ∉ w.log
  returned : ∀ id, .returned id ∈ w.log → id ∈ w.seen_rumors

theorem sound_start : Sound D .start where
  alone _ _ _ _ h := by cases h
  claims id := by simp [World.start]
  ordered := trivial
  recorded id := by simp [World.start]
  kept _ _ h := by cases h
  kinds _ _ h := by cases h
  unseen _ _ h := by cases h
  unreturned _ _ h := by cases h
  returned _ h := by cases h

theorem Sound.undecryptable (h : Sound D w) (key : JsString) : Sound D (w.rememberUndecryptable key) := ⟨⟨h.1.1, h.1.2, h.1.3, h.1.4, h.1.5⟩, h.2, h.3, h.4, h.5⟩

theorem Sound.restart (h : Sound D w) : Sound D { w with inFlightRumors := [], undecryptableWraps := [], tasks := fun _ => none } where
  alone _ _ _ _ h := by cases h
  claims id := by simp
  ordered := h.ordered
  recorded := h.recorded
  kept := h.kept
  kinds _ _ h := by cases h
  unseen _ _ h := by cases h
  unreturned _ _ h := by cases h
  returned := h.returned

/-! ## Marks -/

/-- An entry that names no end of a dispatch and no mark. -/
def Quiet : Entry → Prop
  | .unprocessable _ | .absurd _ | .dispatched _ => True
  | _ => False

theorem Sound.note (h : Sound D w) (hq : Quiet e) (he : Follows D w.log e) : Sound D (w.note e) where
  alone := h.alone
  claims := h.claims
  ordered := ⟨h.ordered, he⟩
  recorded id := by
    refine (h.recorded id).trans ?_
    cases e with
    | returned | seen => exact hq.elim
    | unprocessable | absurd | dispatched => simp [World.note]
  kept := h.kept
  kinds := h.kinds
  unseen := h.unseen
  unreturned s y hy hm := by
    rcases List.mem_cons.mp hm with hm | hm
    · subst hm
      exact hq
    · exact h.unreturned s y hy hm
  returned id hm := by
    rcases List.mem_cons.mp hm with hm | hm
    · subst hm
      exact hq.elim
    · exact h.returned id hm

/-- The ledger after a mark. -/
theorem mem_mark : id ∈ (w.markRumorSeen (D.getEventHash rumor)).seen_rumors ↔ id = D.getEventHash rumor ∨ id ∈ w.seen_rumors := by
  unfold World.markRumorSeen
  split
  next hm => exact ⟨.inr, fun h => h.elim (fun h => h ▸ hm) fun h => h⟩
  next => exact List.mem_cons

theorem Sound.mark (h : Sound D w) (he : Follows D w.log (.seen (D.getEventHash rumor)))
    (hlast : ∀ s y, w.tasks s = some y → D.getEventHash y.rumor = D.getEventHash rumor → AtLast D y)
    (hkept : D.kind rumor = kindGiftWrap → ∃ sk r, D.opens sk rumor = some r ∧ D.getEventHash r ∈ w.seen_rumors)
    (hash : Function.Injective D.getEventHash) : Sound D (w.markRumorSeen (D.getEventHash rumor)) := by
  by_cases hm : D.getEventHash rumor ∈ w.seen_rumors
  · rw [World.markRumorSeen, if_pos hm]
    exact h
  · rw [World.markRumorSeen, if_neg hm]
    constructor
    · constructor
      · exact h.alone
      · exact h.claims
      · exact ⟨h.ordered, he⟩
      · intro id
        simp [h.recorded id]
      · intro wrap hk hs
        rcases List.mem_cons.mp hs with hs | hs
        · obtain rfl := hash hs
          obtain ⟨sk, r, hopen, hr⟩ := hkept hk
          exact ⟨sk, r, hopen, List.mem_cons_of_mem _ hr⟩
        · obtain ⟨sk, r, hopen, hr⟩ := h.kept wrap hk hs
          exact ⟨sk, r, hopen, List.mem_cons_of_mem _ hr⟩
    · exact h.kinds
    · intro s y hy
      by_cases hid : D.getEventHash y.rumor = D.getEventHash rumor
      · exact .inr (hlast s y hy hid)
      · refine (h.unseen s y hy).imp_left fun hn hs => ?_
        exact (List.mem_cons.mp hs).elim hid hn
    · intro s y hy hmem
      rcases List.mem_cons.mp hmem with hmem | hmem
      · cases hmem
      · exact h.unreturned s y hy hmem
    · intro id hmem
      rcases List.mem_cons.mp hmem with hmem | hmem
      · cases hmem
      · exact List.mem_cons_of_mem _ (h.returned id hmem)

/-- The mark of a wrap, once its rumor is marked. -/
theorem Sound.mark_wrap (h : Sound D w) (hw : D.kind wrap = kindGiftWrap) (hopen : D.opens sk wrap = some rumor)
    (hr : D.getEventHash rumor ∈ w.seen_rumors) (hash : Function.Injective D.getEventHash) :
    Sound D (w.markRumorSeen (D.getEventHash wrap)) := by
  refine h.mark (fun r hk he => ?_) (fun s y hy he => ?_) (fun _ => ⟨sk, rumor, hopen, hr⟩) hash
  · exact (hk (hash he ▸ hw)).elim
  · exact ((h.kinds s y hy).2.1 (hash he ▸ hw)).elim

/-- The two marks of a rumor that is done with, as far as they get. -/
theorem Sound.markBoth (h : Sound D w) (hk : D.kind rumor ≠ kindGiftWrap) (hw : D.kind wrap = kindGiftWrap)
    (hopen : D.opens sk wrap = some rumor)
    (hdone : .returned (D.getEventHash rumor) ∈ w.log ∨ .unprocessable (D.getEventHash rumor) ∈ w.log ∨ .absurd (D.getEventHash rumor) ∈ w.log)
    (hlast : fault ≠ some .mark → ∀ s y, w.tasks s = some y → D.getEventHash y.rumor = D.getEventHash rumor → AtLast D y)
    (hash : Function.Injective D.getEventHash) :
    Sound D (w.markBoth (D.getEventHash rumor) (D.getEventHash wrap) fault) := by
  unfold World.markBoth
  split
  next => exact h
  next hf =>
    have hmarked : Sound D (w.markRumorSeen (D.getEventHash rumor)) :=
      h.mark (fun _ _ _ => hdone) (hlast hf) (fun hk' => (hk hk').elim) hash
    split
    next => exact hmarked
    next => exact hmarked.mark_wrap hw hopen (mem_mark.mpr (.inl rfl)) hash

/-! ## Handlers -/

/-- The last entry of a rumor with no handler left is its return, which is marked. -/
theorem Sound.returned_marked (h : Sound D w) (hk : D.kind rumor ≠ kindGiftWrap)
    (hout : .returned (D.getEventHash rumor) ∉ w.log)
    (hgone : ∀ s y, w.tasks s = some y → D.getEventHash y.rumor ≠ D.getEventHash rumor)
    (hash : Function.Injective D.getEventHash) :
    Sound D ((w.note (.returned (D.getEventHash rumor))).markRumorSeen (D.getEventHash rumor)) := by
  have hlog : ∀ e, e ∈ ((w.note (.returned (D.getEventHash rumor))).markRumorSeen (D.getEventHash rumor)).log →
      e = .seen (D.getEventHash rumor) ∨ e = .returned (D.getEventHash rumor) ∨ e ∈ w.log := by
    intro e he
    unfold World.markRumorSeen at he
    split at he
    · exact .inr (List.mem_cons.mp he)
    · exact (List.mem_cons.mp he).imp_right List.mem_cons.mp
  have hseen : ∀ id, id ∈ ((w.note (.returned (D.getEventHash rumor))).markRumorSeen (D.getEventHash rumor)).seen_rumors ↔
      id = D.getEventHash rumor ∨ id ∈ w.seen_rumors := fun id => mem_mark
  have htasks : ((w.note (.returned (D.getEventHash rumor))).markRumorSeen (D.getEventHash rumor)).tasks = w.tasks := by
    unfold World.markRumorSeen
    split <;> rfl
  have hclaims : ((w.note (.returned (D.getEventHash rumor))).markRumorSeen (D.getEventHash rumor)).inFlightRumors =
      w.inFlightRumors := by
    unfold World.markRumorSeen
    split <;> rfl
  constructor
  · constructor
    · rw [htasks]
      exact h.alone
    · rw [htasks, hclaims]
      exact h.claims
    · unfold World.markRumorSeen
      split
      · exact ⟨h.ordered, hout⟩
      · exact ⟨⟨h.ordered, hout⟩, fun _ _ he => .inl (he ▸ List.mem_cons_self)⟩
    · intro id
      rw [hseen id, h.recorded id]
      unfold World.markRumorSeen
      split
      next hm =>
        have hm : .seen (D.getEventHash rumor) ∈ w.log := (h.recorded _).mp hm
        constructor
        · rintro (rfl | hs)
          · exact List.mem_cons_of_mem _ hm
          · exact List.mem_cons_of_mem _ hs
        · intro hs
          exact .inr ((List.mem_cons.mp hs).resolve_left (by simp))
      next => simp [World.note]
    · intro wrap hw hs
      rcases (hseen _).mp hs with hs | hs
      · exact (hk (hash hs ▸ hw)).elim
      · obtain ⟨sk, r, hopen, hr⟩ := h.kept wrap hw hs
        exact ⟨sk, r, hopen, (hseen _).mpr (.inr hr)⟩
  · rw [htasks]
    exact h.kinds
  · intro s y hy
    rw [htasks] at hy
    refine (h.unseen s y hy).imp_left fun hn hs => ?_
    exact ((hseen _).mp hs).elim (hgone s y hy) hn
  · intro s y hy hm
    rw [htasks] at hy
    rcases hlog _ hm with hm | hm | hm
    · cases hm
    · exact hgone s y hy (Entry.returned.inj hm)
    · exact h.unreturned s y hy hm
  · intro id hm
    rcases hlog _ hm with hm | hm | hm
    · cases hm
    · exact (hseen _).mpr (.inl (Entry.returned.inj hm))
    · exact (hseen _).mpr (.inr (h.returned id hm))

/-- A handler settles, and its claim is released. -/
theorem Sound.settled (h : Sound D w) (ht : w.tasks t = some task) : Sound D (settled D w t task) := by
  have htasks : ∀ s y, (Inbound.settled D w t task).tasks s = some y → s ≠ t ∧ w.tasks s = some y := by
    intro s y hy
    simp only [Inbound.settled, World.put, World.release, Function.update_apply] at hy
    split at hy
    · cases hy
    next hs => exact ⟨hs, hy⟩
  have hkeep : ∀ s y, s ≠ t → w.tasks s = some y → (Inbound.settled D w t task).tasks s = some y := by
    intro s y hs hy
    simp [Inbound.settled, World.put, World.release, hs, hy]
  constructor
  · constructor
    · exact fun s u x y hx hy he => h.alone s u x y (htasks s x hx).2 (htasks u y hy).2 he
    · intro id
      simp only [Inbound.settled, World.put, World.release, List.mem_filter, decide_eq_true_eq]
      rw [h.claims id]
      constructor
      · intro ⟨⟨s, y, hy, hid⟩, hne⟩
        refine ⟨s, y, hkeep s y (fun hs => hne ?_) hy, hid⟩
        subst hs
        cases ht.symm.trans hy
        exact hid.symm
      · intro ⟨s, y, hy, hid⟩
        obtain ⟨hs, hy⟩ := htasks s y hy
        exact ⟨⟨s, y, hy, hid⟩, fun hne => hs (h.alone s t y task hy ht (hid.trans hne))⟩
    · exact h.ordered
    · exact h.recorded
    · exact h.kept
  · exact fun s y hy => h.kinds s y (htasks s y hy).2
  · exact fun s y hy => h.unseen s y (htasks s y hy).2
  · exact fun s y hy => h.unreturned s y (htasks s y hy).2
  · exact h.returned

theorem settled_gone (h : Sound D w) (ht : w.tasks t = some task) : ∀ s y, (settled D w t task).tasks s = some y →
    D.getEventHash y.rumor ≠ D.getEventHash task.rumor := by
  intro s y hy he
  simp only [settled, World.put, World.release, Function.update_apply] at hy
  split at hy
  · cases hy
  next hs => exact hs (h.alone s t y task hy ht he)

theorem settled_mark {r : JsString} : settled D (w.markRumorSeen r) t task = (settled D w t task).markRumorSeen r := by
  by_cases hr : r ∈ w.seen_rumors
  · have hr' : r ∈ (settled D w t task).seen_rumors := hr
    rw [World.markRumorSeen, if_pos hr, World.markRumorSeen, if_pos hr']
  · have hr' : r ∉ (settled D w t task).seen_rumors := hr
    rw [World.markRumorSeen, if_neg hr, World.markRumorSeen, if_neg hr']
    rfl

/-- What a handler writes as it settles does not depend on its claim. -/
theorem settled_markBoth {r s : JsString} :
    settled D ((w.note e).markBoth r s fault) t task = ((settled D w t task).note e).markBoth r s fault := by
  have hnote : settled D (w.note e) t task = (settled D w t task).note e := rfl
  unfold World.markBoth
  split_ifs
  · exact hnote
  · rw [settled_mark, hnote]
  · rw [settled_mark, settled_mark, hnote]

/-- A handler goes on to another stage. -/
theorem Sound.put (h : Sound D w) (ht : w.tasks t = some task) {stage : Stage}
    (hs : D.getEventHash task.rumor ∉ w.seen_rumors) : Sound D (w.put t (some { task with stage })) := by
  have htasks : ∀ s y, (w.put t (some { task with stage })).tasks s = some y →
      ∃ x, w.tasks s = some x ∧ x.rumor = y.rumor ∧ x.wrap = y.wrap ∧ (s = t ∨ x = y) := by
    intro s y hy
    simp only [World.put, Function.update_apply] at hy
    split at hy
    next he =>
      cases hy
      exact ⟨task, he ▸ ht, rfl, rfl, .inl he⟩
    next => exact ⟨y, hy, rfl, rfl, .inr rfl⟩
  constructor
  · constructor
    · intro s u x y hx hy he
      obtain ⟨x', hx', hxr, -, -⟩ := htasks s x hx
      obtain ⟨y', hy', hyr, -, -⟩ := htasks u y hy
      exact h.alone s u x' y' hx' hy' (hxr.symm ▸ hyr.symm ▸ he)
    · intro id
      refine (h.claims id).trans ⟨fun ⟨s, y, hy, hid⟩ => ?_, fun ⟨s, y, hy, hid⟩ => ?_⟩
      · by_cases hst : s = t
        · subst hst
          cases ht.symm.trans hy
          exact ⟨s, { task with stage }, by simp [World.put], hid⟩
        · exact ⟨s, y, by simp [World.put, hst, hy], hid⟩
      · obtain ⟨x, hx, hr, -, -⟩ := htasks s y hy
        exact ⟨s, x, hx, hr.symm ▸ hid⟩
    · exact h.ordered
    · exact h.recorded
    · exact h.kept
  · intro s y hy
    obtain ⟨x, hx, hr, hw, -⟩ := htasks s y hy
    exact hr ▸ hw ▸ h.kinds s x hx
  · intro s y hy
    obtain ⟨x, hx, hr, -, hst | rfl⟩ := htasks s y hy
    · subst hst
      cases ht.symm.trans hx
      exact .inl (hr ▸ hs)
    · exact h.unseen s x hx
  · intro s y hy
    obtain ⟨x, hx, hr, -, -⟩ := htasks s y hy
    exact hr ▸ h.unreturned s x hx
  · exact h.returned

/-- A handler starts a dispatch. -/
theorem Sound.dispatch (h : Sound D w) (ht : w.tasks t = some task) {n : Nat} (hs : D.getEventHash task.rumor ∉ w.seen_rumors) :
    Sound D (dispatch D w t task n) :=
  (h.put ht hs).note trivial fun hm => hs ((h.recorded _).mpr hm)

/-- A rumor is claimed. -/
theorem Sound.claim (h : Sound D w) (hfree : w.tasks t = none) (hw : D.kind wrap = kindGiftWrap) (hk : D.kind rumor ≠ kindGiftWrap)
    (hopen : D.opens sk wrap = some rumor) (hs : D.getEventHash rumor ∉ w.seen_rumors)
    (hf : D.getEventHash rumor ∉ w.inFlightRumors) {stage : Stage} :
    Sound D { w with
      inFlightRumors := D.getEventHash rumor :: w.inFlightRumors
      tasks := Function.update w.tasks t (some ⟨wrap, rumor, stage⟩) } := by
  have htasks : ∀ s y, Function.update w.tasks t (some ⟨wrap, rumor, stage⟩) s = some y →
      s = t ∧ y = ⟨wrap, rumor, stage⟩ ∨ w.tasks s = some y ∧ D.getEventHash y.rumor ≠ D.getEventHash rumor := by
    intro s y hy
    rw [Function.update_apply] at hy
    split at hy
    next he =>
      cases hy
      exact .inl ⟨he, rfl⟩
    next => exact .inr ⟨hy, fun he => hf ((h.claims _).mpr ⟨s, y, hy, he⟩)⟩
  constructor
  · constructor
    · intro s u x y hx hy he
      rcases htasks s x hx with ⟨rfl, rfl⟩ | ⟨hx, hnx⟩
      · rcases htasks u y hy with ⟨rfl, rfl⟩ | ⟨-, hny⟩
        · rfl
        · exact (hny he.symm).elim
      · rcases htasks u y hy with ⟨rfl, rfl⟩ | ⟨hy, -⟩
        · exact (hnx he).elim
        · exact h.alone s u x y hx hy he
    · intro id
      constructor
      · intro hm
        rcases List.mem_cons.mp hm with rfl | hm
        · exact ⟨t, ⟨wrap, rumor, stage⟩, Function.update_self .., rfl⟩
        · obtain ⟨s, y, hy, hid⟩ := (h.claims id).mp hm
          refine ⟨s, y, ?_, hid⟩
          have hne : s ≠ t := by
            intro he
            rw [he, hfree] at hy
            cases hy
          exact (Function.update_of_ne hne ..).trans hy
      · intro ⟨s, y, hy, hid⟩
        rcases htasks s y hy with ⟨-, rfl⟩ | ⟨hy, -⟩
        · exact hid ▸ List.mem_cons_self
        · exact List.mem_cons_of_mem _ ((h.claims id).mpr ⟨s, y, hy, hid⟩)
    · exact h.ordered
    · exact h.recorded
    · exact h.kept
  · intro s y hy
    rcases htasks s y hy with ⟨-, rfl⟩ | ⟨hy, -⟩
    · exact ⟨hw, hk, sk, hopen⟩
    · exact h.kinds s y hy
  · intro s y hy
    rcases htasks s y hy with ⟨-, rfl⟩ | ⟨hy, -⟩
    · exact .inl hs
    · exact h.unseen s y hy
  · intro s y hy
    rcases htasks s y hy with ⟨-, rfl⟩ | ⟨hy, -⟩
    · exact fun hm => hs (h.returned _ hm)
    · exact h.unreturned s y hy
  · exact h.returned

/-- A claim that is released as it was taken. -/
theorem release_claim (hf : id ∉ w.inFlightRumors) : World.release { w with inFlightRumors := id :: w.inFlightRumors } id = w := by
  have : (id :: w.inFlightRumors).filter (· ≠ id) = w.inFlightRumors := by
    rw [List.filter_cons_of_neg (by simp), List.filter_eq_self]
    intro a ha
    simpa using fun he : a = id => hf (he ▸ ha)
  simp only [World.release, this]

/-! ## Deliveries -/

theorem unwrapRumorEnvelope_spec (h : unwrapRumorEnvelope D wrap sk inbox.allowedKinds = some rumor) :
    D.kind wrap = kindGiftWrap ∧ D.kind rumor ≠ kindGiftWrap ∧ D.opens sk wrap = some rumor := by
  unfold unwrapRumorEnvelope at h
  split at h
  · cases h
  next hw =>
    obtain ⟨hopen, hk⟩ := Option.filter_eq_some_iff.mp h
    refine ⟨not_not.mp hw, fun hr => ?_, hopen⟩
    rw [hr] at hk
    cases inbox with
    | coordinator => exact absurd hk (by decide)
    | event => exact absurd (show eventInboxRumorKinds.contains kindGiftWrap = true from hk) (by decide)

/-- The rumor of a wrap that gets as far as its date. -/
theorem unwrapFresh_spec {now : Int} :
    (∀ rumor, unwrapFresh D w inbox sk wrap now fault = .absurd rumor →
      D.kind wrap = kindGiftWrap ∧ D.kind rumor ≠ kindGiftWrap ∧ D.opens sk wrap = some rumor) ∧
    (unwrapFresh D w inbox sk wrap now fault = .duplicate →
      ∃ rumor, D.kind wrap = kindGiftWrap ∧ D.opens sk wrap = some rumor ∧ D.getEventHash rumor ∈ w.seen_rumors) ∧
    (∀ rumor, unwrapFresh D w inbox sk wrap now fault = .claimed rumor →
      D.kind wrap = kindGiftWrap ∧ D.kind rumor ≠ kindGiftWrap ∧ D.opens sk wrap = some rumor ∧
        D.getEventHash rumor ∉ w.seen_rumors ∧ D.getEventHash rumor ∉ w.inFlightRumors) := by
  unfold unwrapFresh
  split
  · simp
  · split
    · simp
    · cases hopen : unwrapRumorEnvelope D wrap sk inbox.allowedKinds with
      | none => simp
      | some r =>
        obtain ⟨hw, hk, ho⟩ := unwrapRumorEnvelope_spec hopen
        simp only
        split_ifs with hdate hfault hseen hflight
        · simp [hw, hk, ho]
        · simp
        · simpa using ⟨hw, r, ho, hseen⟩
        · simp
        · simp [hw, hk, ho, hseen, hflight]

/-- The gates let the rumor through to its first dispatch, make it wait, or release its claim. -/
theorem Sound.gates {a : Answers} (h : Sound D w) (hfree : w.tasks t = none) (hw : D.kind wrap = kindGiftWrap)
    (hk : D.kind rumor ≠ kindGiftWrap) (hopen : D.opens sk wrap = some rumor) (hs : D.getEventHash rumor ∉ w.seen_rumors)
    (hf : D.getEventHash rumor ∉ w.inFlightRumors)
    (hlog : ∀ coordinate, inbox = .event coordinate → a.allowed = false → a.fault ≠ some .budget) :
    Sound D (gates D { w with inFlightRumors := D.getEventHash rumor :: w.inFlightRumors } t ⟨wrap, rumor, .enrolling⟩ a inbox) := by
  have hrelease : Sound D (World.release { w with inFlightRumors := D.getEventHash rumor :: w.inFlightRumors }
      (D.getEventHash rumor)) := by
    rw [release_claim hf]
    exact h
  have hdispatch : Sound D (Inbound.dispatch D { w with inFlightRumors := D.getEventHash rumor :: w.inFlightRumors } t
      ⟨wrap, rumor, .enrolling⟩ 1) :=
    (h.claim hfree hw hk hopen hs hf).note trivial fun hm => hs ((h.recorded _).mpr hm)
  cases inbox with
  | coordinator =>
    simp only [Inbound.gates]
    split
    · exact hrelease
    · exact hdispatch
  | event coordinate =>
    simp only [Inbound.gates]
    split_ifs with _ hallowed hbudget
    · exact hrelease
    · exact (hlog coordinate rfl (by simpa using hallowed) hbudget).elim
    · exact hrelease
    · exact hdispatch
    · exact hrelease
    · split
      · exact hdispatch
      · exact hrelease
      · exact h.claim hfree hw hk hopen hs hf

theorem Sound.deliver {now : Int} {a : Answers} (h : Sound D w) (hfree : w.tasks t = none)
    (ht : Timely D w (.deliver t inbox sk wrap now a)) (hash : Function.Injective D.getEventHash) :
    Sound D (deliver D w t inbox sk wrap now a) := by
  obtain ⟨habsurd, hdup, hclaimed⟩ := @unwrapFresh_spec _ _ D w wrap a.fault inbox sk now
  unfold Inbound.deliver
  cases hfresh : unwrapFresh D w inbox sk wrap now a.fault with
  | skipped => exact h
  | undecryptable => exact h.undecryptable _
  | absurd rumor =>
    obtain ⟨hw, hk, hopen⟩ := habsurd rumor hfresh
    refine Sound.markBoth (h.note (e := .absurd (D.getEventHash rumor)) trivial trivial) hk hw hopen
      (.inr (.inr List.mem_cons_self)) (fun hmark => ht.2 rumor hfresh hmark) hash
  | duplicate =>
    obtain ⟨rumor, hw, hopen, hs⟩ := hdup hfresh
    simp only
    split
    · exact h
    · exact h.mark_wrap hw hopen hs hash
  | claimed rumor =>
    obtain ⟨hw, hk, hopen, hs, hf⟩ := hclaimed rumor hfresh
    exact h.gates hfree hw hk hopen hs hf fun coordinate => ht.1 rumor coordinate hfresh

/-! ## Dispatches -/

theorem not_seen (h : Sound D w) (ht : w.tasks t = some task) (hn : ¬ AtLast D task) :
    D.getEventHash task.rumor ∉ w.seen_rumors := (h.unseen t task ht).resolve_right hn

theorem Sound.failed {n : Nat} (h : Sound D w) (ht : w.tasks t = some task) (hn : task.stage = .dispatching n) :
    Sound D (failed D w t task n) := by
  unfold Inbound.failed
  split
  · exact h.settled ht
  next hlt =>
    refine h.put ht (not_seen h ht fun ⟨m, hm, hle⟩ => hlt ?_)
    cases hn.symm.trans hm
    exact hle

theorem Sound.settle {n : Nat} {outcome : Outcome} (h : Sound D w) (hst : w.tasks t = some task) (hn : task.stage = .dispatching n)
    (ht : Timely D w (.settle t outcome fault)) (hash : Function.Injective D.getEventHash) :
    Sound D (settle D w t task n fault outcome) := by
  obtain ⟨hw, hk, sk, hopen⟩ := h.kinds t task hst
  have hsettled := h.settled hst
  have hgone := settled_gone h hst
  cases outcome with
  | failed => exact h.failed hst hn
  | deferred => exact hsettled
  | unprocessable =>
    simp only [Inbound.settle, settled_markBoth]
    exact Sound.markBoth (hsettled.note (e := .unprocessable _) trivial trivial) hk hw hopen (.inr (.inl List.mem_cons_self))
      (fun _ s y hy he => (hgone s y hy he).elim) hash
  | returned =>
    obtain ⟨hmark, hlast⟩ := ht task hst
    have hend : Inbound.settle D w t task n fault .returned = ((Inbound.settled D w t task).note
        (.returned (D.getEventHash task.rumor))).markBoth (D.getEventHash task.rumor) (D.getEventHash task.wrap) fault := by
      simp only [Inbound.settle, hmark, false_or]
      split
      next hwrap =>
        obtain ⟨m, hm, hle⟩ := hlast hwrap
        cases hn.symm.trans hm
        rw [Inbound.failed, if_pos hle, settled_markBoth]
      next => exact settled_markBoth
    rw [hend, World.markBoth, if_neg hmark]
    have hreturned := hsettled.returned_marked hk (h.unreturned t task hst) hgone hash
    split
    · exact hreturned
    · exact hreturned.mark_wrap hw hopen (mem_mark.mpr (.inl rfl)) hash

theorem Sound.step (h : Sound D w) (hs : Step D w x w') (ht : Timely D w x) (hash : Function.Injective D.getEventHash) : Sound D w' := by
  cases x with
  | deliver t inbox sk wrap now a =>
    simp only [Step, act] at hs
    split at hs
    · cases hs
    next hfree =>
      cases hs
      exact h.deliver (by simpa using hfree) ht hash
  | enrolled t answer =>
    simp only [Step, act] at hs
    split at hs
    next wrap rumor hst =>
      cases hs
      split
      · exact h.dispatch hst (not_seen h hst fun ⟨_, hm, _⟩ => by cases hm)
      · exact h.settled hst
    next => cases hs
  | settle t outcome fault =>
    simp only [Step, act] at hs
    split at hs
    next wrap rumor n hst =>
      cases hs
      exact h.settle hst rfl ht hash
    next => cases hs
  | wake t =>
    simp only [Step, act] at hs
    split at hs
    next wrap rumor n hst =>
      cases hs
      exact h.dispatch hst (not_seen h hst fun ⟨_, hm, _⟩ => by cases hm)
    next => cases hs
  | restart =>
    cases hs
    exact h.restart

/-- **Inbound rumors run exactly once, and none is lost**, in every run in which no store
call throws where a claim or a mark hangs on it, and no rumor that still waits for a
dispatch is read as dated past the bound. -/
theorem rumors_exactly_once (hash : Function.Injective D.getEventHash)
    (h : Run (fun w x w' => Step D w x w' ∧ Timely D w x) .start xs w) : ExactlyOnce D w :=
  (h.invariant (I := Sound D) (fun _ _ _ hI hs => hI.step hs.1 hs.2 hash) sound_start).toExactlyOnce

namespace Small

/-- Events are what they serialize to: a wrap is a zero before its rumor. -/
def deps : Deps JsString Unit where
  getEventHash e := e
  kind e := if e.head? = some 0 then kindGiftWrap else 21600
  created_at _ := 0
  opens _ e := some e.tail
  wrapRetryDelaysMs := [5000, 30000]

def camp : Inbox := .event (js "31923:org:camp")

def join : JsString := [0, 1]

/-- A join fails once, runs, and is delivered again. -/
def acts : List (Act JsString Unit) :=
  [.deliver 0 camp () join 0 ⟨none, true, none⟩, .settle 0 .failed none, .wake 0, .settle 0 .returned none,
    .deliver 1 camp () join 0 ⟨none, true, none⟩]

theorem acts_log : (Run.exec (act deps) .start acts).map (·.log) =
    some [.seen join, .seen [1], .returned [1], .dispatched [1], .dispatched [1]] := by decide +kernel

theorem timely_deliver {w : World JsString} {t : Nat} {a : Answers} (hf : a.fault = none) :
    Timely deps w (.deliver t camp () join 0 a) := by
  refine ⟨fun _ _ _ _ _ => by simp [hf], fun rumor hr => ?_⟩
  have hdate : ¬ (0 : Int) / 1000 + rumorMaxFutureSec < 0 := by decide
  have hnot : ∀ e, ¬ (0 : Int) / 1000 + rumorMaxFutureSec < deps.created_at e := fun _ => hdate
  simp only [unwrapFresh, hnot, if_false] at hr
  repeat' split at hr
  all_goals cases hr

theorem timely_acts : Run.Guarded (act deps) (Timely deps) .start acts :=
  ⟨timely_deliver rfl, fun _ _ => ⟨trivial, fun _ _ => ⟨trivial, fun _ _ => ⟨fun _ _ => ⟨by simp, by simp⟩,
    fun _ _ => ⟨timely_deliver rfl, fun _ _ => trivial⟩⟩⟩⟩⟩

/-- A rumor is over its inbox's budget, and the read for the line that says so throws. -/
def lateRead : List (Act JsString Unit) := [.deliver 0 camp () join 0 ⟨some .budget, false, none⟩]

end Small

theorem rumors_exactly_once_join : ∃ w, Run (fun w x w' => Step Small.deps w x w' ∧ Timely Small.deps w x) .start Small.acts w ∧
    w.log.count (.returned [1]) = 1 ∧ ExactlyOnce Small.deps w := by
  obtain ⟨w, hw, hlog⟩ := Option.map_eq_some_iff.mp Small.acts_log
  have hrun := Run.of_guarded hw Small.timely_acts
  refine ⟨w, hrun, ?_, rumors_exactly_once (fun _ _ h => h) hrun⟩
  rw [hlog]
  decide

theorem rumors_exactly_once_lateRead : ∃ w, Run (Step Small.deps) .start Small.lateRead w ∧ ¬ ExactlyOnce Small.deps w := by
  refine ⟨_, Run.of_exec rfl, fun h => ?_⟩
  obtain ⟨t, x, hx, -⟩ := (h.claims [1]).mp (by decide)
  cases hx

end Nostrautica.Inbound
