/-
Submissions and corrections converge (`converges`). A row holds one rumor of each kind,
which every rumor that was handled is or loses against; and since it was first
written, every entry that was sent shows it.
-/
import Nostrautica.Coordinator.Submissions

set_option linter.unusedSectionVars false

namespace Nostrautica.Submissions

open Js Directory

variable {sourceRevision : StoredProfile → JsString} {coordinate : JsString} {w w' : World} {x : Act} {xs : List Act} {S : List Rumor}
  {r s h : Rumor} {row row' : Row} {now : Int} {e : Entry}

/-! ## The order of rumors -/

/-- The key of a rumor that is not clamped. -/
def Rumor.key (r : Rumor) : RevisionKey := ⟨r.body.rev, r.created_at, r.id⟩

/-- A key in the order that `revisionSupersedes` decides. -/
def RevisionKey.rank (k : RevisionKey) : ℕ ×ₗ ℤ ×ₗ JsStringᵒᵈ := toLex (k.rev, toLex (k.created_at, OrderDual.toDual k.id))

theorem revisionSupersedes_iff {a b : RevisionKey} : revisionSupersedes a b = true ↔ b.rank < a.rank := by
  simp only [RevisionKey.rank, Prod.Lex.toLex_lt_toLex, OrderDual.toDual_lt_toDual]
  unfold revisionSupersedes
  by_cases hr : a.rev = b.rev
  · by_cases hc : a.created_at = b.created_at
    · simp [hr, hc]
    · simp [hr, hc, Ne.symm hc]
  · simp [hr, Ne.symm hr]

theorem supersedes_trans {a b c : RevisionKey} (hab : revisionSupersedes a b = true) (hbc : revisionSupersedes b c = true) :
    revisionSupersedes a c = true := by
  rw [revisionSupersedes_iff] at hab hbc ⊢
  exact hbc.trans hab

theorem not_supersedes_self (a : RevisionKey) : ¬ revisionSupersedes a a = true := by
  rw [revisionSupersedes_iff]
  exact lt_irrefl _

/-- Of two rumors, one supersedes the other. -/
theorem supersedes_total {a b : RevisionKey} (hid : a.id ≠ b.id) (h : ¬ revisionSupersedes a b = true) :
    revisionSupersedes b a = true := by
  rw [revisionSupersedes_iff] at h ⊢
  refine lt_of_le_of_ne (not_lt.mp h) fun he => hid ?_
  have := congrArg (fun k => (ofLex (ofLex k).2).2) he
  exact OrderDual.toDual.injective this

/-! ## What a row and an entry hold -/

inductive Kind
  | submission
  | correction

def Body.kind : Body → Kind
  | submission _ => .submission
  | correction _ => .correction

/-- A rumor is of a kind, and of this event. -/
structure Concerns (coordinate : JsString) (k : Kind) (r : Rumor) : Prop where
  kind : r.body.kind = k
  event : ∀ c, r.body = .correction c → c.a = coordinate

def Row.order (row : Row) : Kind → Order
  | .submission => row.profile
  | .correction => row.correction

/-- The row's JSON is the rumor's. -/
def Shows (attendee : Attendee) : Body → Prop
  | .submission c => attendee.profile_json = some (storedProfile c)
  | .correction c => attendee.correction_json = some c

/-- The row holds a rumor, with its key. -/
structure Held (row : Row) (r : Rumor) : Prop where
  shows : Shows row.toAttendee r.body
  order : row.order r.body.kind = r.key.order

/-- The content of an entry. -/
def Entry.content (e : Entry) (pubkey : JsString) : DirectoryEntry := directoryEntry pubkey e.attendee e.now

/-- An entry carries a rumor: a submission as it is published, a correction in what is derived. -/
def Carries (pubkey : JsString) (e : Entry) : Body → Prop
  | .submission c => (e.content pubkey).profile = capProfile c.profile ∧
      (e.content pubkey).media = c.media.take maxMediaPerSubmission ∧
      (e.content pubkey).intro_text = (truthy c.intro_text).map (capAuthoredText · maxProfileFieldChars)
  | .correction c =>
      let corrected := applyCorrection (if aiFresh e.attendee then e.attendee.ai_profile_json else none) (some c)
      (e.content pubkey).ai_profile = corrected.1.map sanitizeAiProfile ∧
        (e.content pubkey).ai_profile_edited = if corrected.2 then some true else none

/-- What a finished exchange of rumors leaves behind of the greatest one. -/
structure Converged (pubkey : JsString) (w : World) (r : Rumor) : Prop where
  held : Held w.row r
  /-- The entry that was sent last carries it, -/
  sent : ∃ e rest, w.sent = e :: rest ∧ Carries pubkey e r.body
  /-- and so does the one that stands at the relays. -/
  published : ∃ e ∈ w.published, (∀ f ∈ w.published, f.created_at ≤ e.created_at) ∧ Carries pubkey e r.body

/-- Attempts are of the rumors of a set, dated within the allowance. -/
def Delivers (S : List Rumor) : Act → Prop
  | .attempt r now _ => r ∈ S ∧ r.created_at ≤ now / 1000 + rumorMaxClockSkewSec
  | _ => True

theorem carries_of_shows {pubkey : JsString} {b : Body} (h : Shows e.attendee b) : Carries pubkey e b := by
  cases b with
  | submission c =>
    have hp : parseStoredProfile e.attendee = { storedProfile c with intro_text := truthy (storedProfile c).intro_text } := by
      unfold parseStoredProfile
      rw [show e.attendee.profile_json = some (storedProfile c) from h]
    refine ⟨?_, ?_, ?_⟩ <;>
      · show _ = _
        simp only [Entry.content, directoryEntry, hp, storedProfile]
  | correction c =>
    have hc : e.attendee.correction_json = some c := h
    refine ⟨?_, ?_⟩ <;>
      · show _ = _
        simp only [Entry.content, directoryEntry, correctedAi, hc]

/-! ## Handlers -/

theorem order_of_dated (hd : r.created_at ≤ now / 1000 + rumorMaxClockSkewSec) : r.order (now / 1000) = r.key := by
  unfold Rumor.order rumorEffectiveCreatedAt
  rw [if_neg (by omega)]
  rfl

theorem stale_of_held (hh : Held row h) {k : RevisionKey} (hk : stale (row.order h.body.kind) k = true) :
    k.id ≠ h.id ∧ ¬ revisionSupersedes k h.key = true := by
  rw [hh.order, stale, RevisionKey.order] at hk
  simp only [Option.getD_some, Bool.and_eq_true, decide_eq_true_eq, Bool.not_eq_true', ne_eq, Option.some.injEq] at hk
  exact ⟨Ne.symm hk.1, (Bool.not_eq_true _).mpr hk.2⟩

/-- What the handler of a rumor does: it ignores one of another event or one that loses, and holds any other. -/
theorem handle_cases (ha : row.approved = true) (hd : r.created_at ≤ now / 1000 + rumorMaxClockSkewSec) :
    handle sourceRevision coordinate row r (now / 1000) = none ∧
        (Concerns coordinate r.body.kind r → stale (row.order r.body.kind) r.key = true) ∨
      ∃ row', handle sourceRevision coordinate row r (now / 1000) = some row' ∧ row'.approved = true ∧
        Concerns coordinate r.body.kind r ∧ stale (row.order r.body.kind) r.key = false ∧ Held row' r ∧
        ∀ k, k ≠ r.body.kind → row'.order k = row.order k ∧ ∀ b : Body, b.kind = k → Shows row.toAttendee b → Shows row'.toAttendee b := by
  unfold handle
  rw [order_of_dated hd]
  obtain ⟨id, created_at, body⟩ := r
  cases body with
  | submission c =>
    simp only [handleSubmission]
    split
    next hs => exact .inl ⟨rfl, fun _ => hs⟩
    next hs =>
      refine .inr ⟨_, rfl, ha, ⟨rfl, fun _ he => by cases he⟩, Bool.eq_false_of_not_eq_true hs, ⟨rfl, rfl⟩, fun k hk => ?_⟩
      cases k with
      | submission => exact absurd rfl hk
      | correction =>
        refine ⟨rfl, fun b hb hshow => ?_⟩
        cases b with
        | submission => cases hb
        | correction => exact hshow
  | correction c =>
    simp only [handleCorrection, ha, Bool.not_true, Bool.false_eq_true, if_false]
    split
    next hc => exact .inl ⟨rfl, fun h => absurd (h.event c rfl) hc⟩
    next hc =>
      split
      next hs => exact .inl ⟨rfl, fun _ => hs⟩
      next hs =>
        refine .inr ⟨_, rfl, rfl, ⟨rfl, fun d he => ?_⟩, Bool.eq_false_of_not_eq_true hs, ⟨rfl, rfl⟩, fun k hk => ?_⟩
        · cases he
          exact not_not.mp hc
        · cases k with
          | correction => exact absurd rfl hk
          | submission =>
            refine ⟨rfl, fun b hb hshow => ?_⟩
            cases b with
            | correction => cases hb
            | submission => exact hshow

/-! ## The invariant -/

/-- A rumor's handler has returned, or awaits a publish. -/
def Involved (w : World) (r : Rumor) : Prop := r ∈ w.processed ∨ ∃ task ∈ w.tasks, task.rumor = some r

/-- The row holds a rumor of a kind, and what was sent since then shows it. -/
structure Holds (coordinate : JsString) (S : List Rumor) (k : Kind) (w : World) (h : Rumor) : Prop where
  mem : h ∈ S
  concerns : Concerns coordinate k h
  held : Held w.row h
  covers : ∀ r, Concerns coordinate k r → Involved w r → r = h ∨ revisionSupersedes h.key r.key = true
  since : ∃ later earlier, w.sent = later ++ earlier ∧ (∀ e ∈ later, Shows e.attendee h.body) ∧
    (∀ task ∈ w.tasks, task.rumor = some h → task.entry ∈ later) ∧ (h ∈ w.processed → ∃ e ∈ w.published, e ∈ later)

structure Sound (coordinate : JsString) (S : List Rumor) (w : World) : Prop where
  approved : w.row.approved = true
  known : ∀ r, Involved w r → r ∈ S
  stamps : w.sent.Pairwise fun e f => f.created_at < e.created_at
  watermark : ∀ e ∈ w.sent, ∃ last, w.watermark = some last ∧ e.created_at ≤ last
  tasks : ∀ task ∈ w.tasks, task.entry ∈ w.sent
  published : ∀ e ∈ w.published, e ∈ w.sent
  cells : ∀ k, ((w.row.order k).rev = none ∧ ∀ r, Concerns coordinate k r → ¬ Involved w r) ∨ ∃ h, Holds coordinate S k w h

theorem sound_start {attendee : Attendee} {watermark : Option Int} : Sound coordinate S (start attendee watermark) where
  approved := rfl
  known _ hi := by
    obtain hi | ⟨_, hi, -⟩ := hi <;> cases hi
  stamps := .nil
  watermark _ he := by cases he
  tasks _ ht := by cases ht
  published _ he := by cases he
  cells k := by
    left
    refine ⟨by cases k <;> rfl, fun r _ hi => ?_⟩
    obtain hi | ⟨_, hi, -⟩ := hi <;> cases hi

/-- A row holds one rumor of a kind. -/
theorem held_unique (hid : ∀ r ∈ S, ∀ s ∈ S, r.id = s.id → r = s) (hr : r ∈ S) (hs : s ∈ S) (hk : r.body.kind = s.body.kind)
    (h1 : Held row r) (h2 : Held row s) : r = s := by
  refine hid r hr s hs ?_
  have he := h1.order.symm.trans (hk ▸ h2.order)
  exact Option.some.inj (congrArg Order.rumor_id he)

theorem stamp_gt {last : Int} (h : w.watermark = some last) : last < w.stamp now := by
  unfold World.stamp Stamps.Store.next
  simp only [h]
  exact lt_of_lt_of_le (by omega) (le_max_right _ _)

/-! ## Operations -/

/-- An entry of the row is sent: by itself, or for the rumor the row holds. -/
theorem Sound.send (hw : Sound coordinate S w) (hid : ∀ r ∈ S, ∀ s ∈ S, r.id = s.id → r = s) {rumor : Option Rumor}
    (hr : ∀ r, rumor = some r → r ∈ S ∧ Held w.row r) : Sound coordinate S (w.send now rumor) := by
  have involved : ∀ {r}, Involved (w.send now rumor) r → Involved w r ∨ rumor = some r := by
    intro r hi
    obtain hi | ⟨task, ht, hi⟩ := hi
    · exact .inl (.inl hi)
    · obtain rfl | ht := List.mem_cons.mp ht
      · exact .inr hi
      · exact .inl (.inr ⟨task, ht, hi⟩)
  refine ⟨hw.approved, fun r hi => (involved hi).elim (hw.known r) fun he => (hr r he).1, ?_, fun e he => ?_, fun task ht => ?_,
    fun e he => .tail _ (hw.published e he), fun k => ?_⟩
  · refine .cons (fun e he => ?_) hw.stamps
    obtain ⟨last, hl, hle⟩ := hw.watermark e he
    exact lt_of_le_of_lt hle (stamp_gt hl)
  · refine ⟨w.stamp now, rfl, ?_⟩
    obtain rfl | he := List.mem_cons.mp he
    · exact le_rfl
    · obtain ⟨last, hl, hle⟩ := hw.watermark e he
      exact hle.trans (stamp_gt hl).le
  · obtain rfl | ht := List.mem_cons.mp ht
    · exact .head _
    · exact .tail _ (hw.tasks task ht)
  · obtain ⟨hfree, hnone⟩ | ⟨h, hh⟩ := hw.cells k
    · refine .inl ⟨hfree, fun r hc hi => ?_⟩
      obtain hi | he := involved hi
      · exact hnone r hc hi
      · -- The row holds the rumor, so the cell is not free.
        have ho := (hr r he).2.order
        rw [hc.kind] at ho
        rw [ho] at hfree
        cases hfree
    · have same : ∀ r, rumor = some r → Concerns coordinate k r → r = h := fun r he hc =>
        held_unique hid (hr r he).1 hh.mem (hc.kind.trans hh.concerns.kind.symm) (hr r he).2 hh.held
      obtain ⟨later, earlier, hsent, hlater, htasks, hproc⟩ := hh.since
      refine .inr ⟨h, hh.mem, hh.concerns, hh.held, fun r hc hi => ?_, ⟨w.stamp now, w.row.toAttendee, now⟩ :: later, earlier,
        congrArg _ hsent, fun e he => ?_, fun task ht hth => ?_, fun hp => ?_⟩
      · exact (involved hi).elim (hh.covers r hc) fun he => .inl (same r he hc)
      · obtain rfl | he := List.mem_cons.mp he
        · exact hh.held.shows
        · exact hlater e he
      · obtain rfl | ht := List.mem_cons.mp ht
        · exact .head _
        · exact .tail _ (htasks task ht hth)
      · obtain ⟨e, he, hel⟩ := hproc hp
        exact ⟨e, he, .tail _ hel⟩

/-- A handler returns without a publish: its rumor is of another event, or loses against the one held. -/
theorem Sound.process (hw : Sound coordinate S w) (hr : r ∈ S)
    (hs : Concerns coordinate r.body.kind r → stale (w.row.order r.body.kind) r.key = true) : Sound coordinate S (w.process r) := by
  have involved : ∀ {s}, Involved (w.process r) s → Involved w s ∨ s = r := by
    intro s hi
    obtain hi | hi := hi
    · obtain rfl | hi := List.mem_cons.mp hi
      · exact .inr rfl
      · exact .inl (.inl hi)
    · exact .inl (.inr hi)
  refine ⟨hw.approved, fun s hi => (involved hi).elim (hw.known s) fun he => he ▸ hr, hw.stamps, hw.watermark, hw.tasks,
    hw.published, fun k => ?_⟩
  obtain ⟨hfree, hnone⟩ | ⟨h, hh⟩ := hw.cells k
  · refine .inl ⟨hfree, fun s hc hi => ?_⟩
    obtain hi | rfl := involved hi
    · exact hnone s hc hi
    · have := hs (hc.kind ▸ hc)
      rw [hc.kind, stale, hfree] at this
      cases this
  · have loses : Concerns coordinate k r → r.id ≠ h.id ∧ ¬ revisionSupersedes r.key h.key = true := by
      intro hc
      have hk : r.body.kind = h.body.kind := hc.kind.trans hh.concerns.kind.symm
      exact stale_of_held hh.held (hk ▸ hs (hc.kind ▸ hc))
    obtain ⟨later, earlier, hsent, hlater, htasks, hproc⟩ := hh.since
    refine .inr ⟨h, hh.mem, hh.concerns, hh.held, fun s hc hi => ?_, later, earlier, hsent, hlater, htasks, fun hp => ?_⟩
    · obtain hi | rfl := involved hi
      · exact hh.covers s hc hi
      · exact .inr (supersedes_total (loses hc).1 (loses hc).2)
    · obtain rfl | hp := List.mem_cons.mp hp
      · exact absurd rfl (loses hh.concerns).1
      · exact hproc hp

/-- A rumor no handler of which has come this far is held from now on. -/
theorem holds_first {k : Kind} (hr : r ∈ S) (hc : Concerns coordinate k r) (hh : Held row' r) (hnone : ¬ Involved w r)
    (hcovers : ∀ s, Concerns coordinate k s → Involved w s → s = r ∨ revisionSupersedes r.key s.key = true) :
    Holds coordinate S k { w with row := row' } r where
  mem := hr
  concerns := hc
  held := hh
  covers := hcovers
  since := ⟨[], w.sent, rfl, List.forall_mem_nil _, fun task ht hth => absurd (.inr ⟨task, ht, hth⟩) hnone,
    fun hp => absurd (.inl hp) hnone⟩

/-- The row is written for a rumor that does not lose. -/
theorem Sound.write (hw : Sound coordinate S w) (hid : ∀ r ∈ S, ∀ s ∈ S, r.id = s.id → r = s) (hr : r ∈ S)
    (ha : row'.approved = true) (hc : Concerns coordinate r.body.kind r) (hs : stale (w.row.order r.body.kind) r.key = false)
    (hh : Held row' r) (hother : ∀ k, k ≠ r.body.kind → row'.order k = w.row.order k ∧
      ∀ b : Body, b.kind = k → Shows w.row.toAttendee b → Shows row'.toAttendee b) : Sound coordinate S { w with row := row' } := by
  refine ⟨ha, hw.known, hw.stamps, hw.watermark, hw.tasks, hw.published, fun k => ?_⟩
  by_cases hk : k = r.body.kind
  · subst hk
    right
    obtain ⟨-, hnone⟩ | ⟨h, hheld⟩ := hw.cells r.body.kind
    · -- The first rumor of its kind.
      exact ⟨r, holds_first hr hc hh (hnone r hc) fun s hcs hi => absurd hi (hnone s hcs)⟩
    · have hkh : r.body.kind = h.body.kind := hheld.concerns.kind.symm
      rw [hkh, hheld.held.order, stale, RevisionKey.order] at hs
      simp only [Option.getD_some, Bool.and_eq_false_iff, decide_eq_false_iff_not, Bool.not_eq_false', ne_eq, Option.some.injEq,
        not_not] at hs
      by_cases he : r = h
      · -- The rumor held already, written again.
        subst he
        exact ⟨r, hr, hc, hh, hheld.covers, hheld.since⟩
      · have hsup : revisionSupersedes r.key h.key = true := hs.resolve_left fun hid' => he (hid r hr h hheld.mem hid'.symm)
        -- It supersedes the one held, so no handler of it has come this far before.
        have hfirst : ¬ Involved w r := by
          intro hi
          obtain heq | hlt := hheld.covers r hc hi
          · exact he heq
          · exact not_supersedes_self _ (supersedes_trans hsup hlt)
        refine ⟨r, holds_first hr hc hh hfirst fun s hcs hi => ?_⟩
        obtain rfl | hlt := hheld.covers s hcs hi
        · exact .inr hsup
        · exact .inr (supersedes_trans hsup hlt)
  · obtain ⟨horder, hshows⟩ := hother k hk
    obtain ⟨hfree, hnone⟩ | ⟨h, hheld⟩ := hw.cells k
    · exact .inl ⟨by show (row'.order k).rev = none; rw [horder]; exact hfree, hnone⟩
    · have hkh := hheld.concerns.kind
      refine .inr ⟨h, hheld.mem, hheld.concerns, ⟨hshows _ hkh hheld.held.shows, ?_⟩, hheld.covers, hheld.since⟩
      have := hheld.held.order
      rw [hkh] at this ⊢
      exact horder.trans this

/-- A stamp is taken for nothing. -/
theorem Sound.stamped (hw : Sound coordinate S w) : Sound coordinate S { w with watermark := some (w.stamp now) } where
  approved := hw.approved
  known := hw.known
  stamps := hw.stamps
  watermark e he := by
    obtain ⟨last, hl, hle⟩ := hw.watermark e he
    exact ⟨_, rfl, hle.trans (stamp_gt hl).le⟩
  tasks := hw.tasks
  published := hw.published
  cells k := by
    obtain hfree | ⟨h, hh⟩ := hw.cells k
    · exact .inl hfree
    · exact .inr ⟨h, hh.mem, hh.concerns, hh.held, hh.covers, hh.since⟩

theorem Sound.attempt (hw : Sound coordinate S w) (hid : ∀ r ∈ S, ∀ s ∈ S, r.id = s.id → r = s) (hr : r ∈ S)
    (hd : r.created_at ≤ now / 1000 + rumorMaxClockSkewSec) {stop : Option Stop} :
    Sound coordinate S (attempt sourceRevision coordinate w r now stop) := by
  unfold Submissions.attempt
  split
  · exact hw
  · obtain ⟨he, hs⟩ | ⟨row', he, ha, hc, hs, hh, hother⟩ := @handle_cases sourceRevision coordinate r w.row now hw.approved hd
    · rw [he]
      exact hw.process hr hs
    · have hwrite := hw.write hid hr ha hc hs hh hother
      rw [he]
      simp only [ha, Bool.not_true, Bool.false_eq_true, if_false]
      cases stop with
      | none => exact hwrite.send hid fun s hs => by cases hs; exact ⟨hr, hh⟩
      | some stop =>
        cases stop with
        | stamped => exact hwrite.stamped
        | reading | written => exact hwrite

/-- Some publishes settle: what a relay took is published, and a handler returns only where it was. -/
theorem Sound.settle (hw : Sound coordinate S w) {tasks : List Task} {published : List Entry} {processed : List Rumor}
    (ht : ∀ task ∈ tasks, task ∈ w.tasks) (hp : ∀ e ∈ published, e ∈ w.published ∨ ∃ task ∈ w.tasks, task.entry = e)
    (hgrow : ∀ e ∈ w.published, e ∈ published)
    (hproc : ∀ r ∈ processed, r ∈ w.processed ∨ ∃ task ∈ w.tasks, task.rumor = some r ∧ task.entry ∈ published) :
    Sound coordinate S { w with tasks, published, processed } := by
  have involved : ∀ {r}, Involved { w with tasks, published, processed } r → Involved w r := by
    intro r hi
    obtain hi | ⟨task, hm, hi⟩ := hi
    · obtain hi | ⟨task, hm, hi, -⟩ := hproc r hi
      · exact .inl hi
      · exact .inr ⟨task, hm, hi⟩
    · exact .inr ⟨task, ht task hm, hi⟩
  refine ⟨hw.approved, fun r hi => hw.known r (involved hi), hw.stamps, hw.watermark, fun task hm => hw.tasks task (ht task hm),
    fun e he => ?_, fun k => ?_⟩
  · obtain he | ⟨task, hm, rfl⟩ := hp e he
    · exact hw.published e he
    · exact hw.tasks task hm
  · obtain ⟨hfree, hnone⟩ | ⟨h, hh⟩ := hw.cells k
    · exact .inl ⟨hfree, fun r hc hi => hnone r hc (involved hi)⟩
    · obtain ⟨later, earlier, hsent, hlater, htasks, hdone⟩ := hh.since
      refine .inr ⟨h, hh.mem, hh.concerns, hh.held, fun r hc hi => hh.covers r hc (involved hi), later, earlier, hsent, hlater,
        fun task hm => htasks task (ht task hm), fun hm => ?_⟩
      obtain hm | ⟨task, hm, he, hpub⟩ := hproc h hm
      · obtain ⟨e, he, hel⟩ := hdone hm
        exact ⟨e, hgrow e he, hel⟩
      · exact ⟨task.entry, hpub, htasks task hm he⟩

/-- Columns that neither handler writes are written. -/
theorem Sound.derive (hw : Sound coordinate S w) (ha : row'.approved = w.row.approved) (ho : ∀ k, row'.order k = w.row.order k)
    (hs : ∀ b, Shows w.row.toAttendee b → Shows row'.toAttendee b) : Sound coordinate S { w with row := row' } := by
  refine ⟨ha.trans hw.approved, hw.known, hw.stamps, hw.watermark, hw.tasks, hw.published, fun k => ?_⟩
  obtain ⟨hfree, hnone⟩ | ⟨h, hh⟩ := hw.cells k
  · exact .inl ⟨(congrArg Order.rev (ho k)).trans hfree, hnone⟩
  · exact .inr ⟨h, hh.mem, hh.concerns, ⟨hs _ hh.held.shows, (ho _).trans hh.held.order⟩, hh.covers, hh.since⟩

theorem Sound.step (hw : Sound coordinate S w) (hid : ∀ r ∈ S, ∀ s ∈ S, r.id = s.id → r = s)
    (hs : Step sourceRevision coordinate w x w') (hx : Delivers S x) : Sound coordinate S w' := by
  cases x with
  | attempt r now stop =>
    cases hs
    exact hw.attempt hid hx.1 hx.2
  | settled i taken returned =>
    simp only [Step, act] at hs
    split at hs
    next => cases hs
    next task htask =>
      have hm : task ∈ w.tasks := List.mem_of_getElem? htask
      split at hs
      next => cases hs
      next hret =>
        cases hs
        refine hw.settle (fun t ht => List.mem_of_mem_eraseIdx ht) (fun e he => ?_) (fun e he => ?_) (fun r hr => ?_)
        · split at he
          · obtain rfl | he := List.mem_cons.mp he
            · exact .inr ⟨task, hm, rfl⟩
            · exact .inl he
          · exact .inl he
        · split
          · exact .tail _ he
          · exact he
        · split at hr
          next hreturned =>
            obtain hr | hr := List.mem_append.mp hr
            · have htaken : taken = true := by
                by_contra ht
                exact hret (by simp [hreturned, ht])
              refine .inr ⟨task, hm, Option.mem_toList.mp hr, ?_⟩
              rw [if_pos htaken]
              exact .head _
            · exact .inl hr
          next => exact .inl hr
  | publishDirectory now =>
    cases hs
    exact hw.send hid fun r hr => by cases hr
  | setDerived =>
    cases hs
    exact hw.derive rfl (fun k => by cases k <;> rfl) fun b hb => by cases b <;> exact hb
  | restart taken =>
    cases hs
    refine hw.settle (List.forall_mem_nil _) (fun e he => ?_) (fun e he => List.mem_append_right _ he) fun r hr => .inl hr
    obtain he | he := List.mem_append.mp he
    · obtain ⟨⟨task, reached⟩, hp, he⟩ := List.mem_filterMap.mp he
      refine .inr ⟨task, (List.of_mem_zip hp).1, ?_⟩
      split at he
      · exact Option.some.inj he
      · cases he
    · exact .inl he

/-- Where the handler of the rumor that is held has returned, what was sent last and what
stands at the relays carry it. -/
theorem Holds.converged {k : Kind} (hw : Sound coordinate S w) (hh : Holds coordinate S k w h) (hp : h ∈ w.processed) (pubkey : JsString) :
    Converged pubkey w h := by
  obtain ⟨later, earlier, hsent, hlater, -, hdone⟩ := hh.since
  obtain ⟨e, he, hel⟩ := hdone hp
  refine ⟨hh.held, ?_, ?_⟩
  · obtain ⟨f, rest, rfl⟩ := List.exists_cons_of_ne_nil (List.ne_nil_of_mem hel)
    exact ⟨f, rest ++ earlier, hsent, carries_of_shows (hlater f (.head _))⟩
  · -- The newest of the published entries was sent since the rumor was first held.
    obtain ⟨f, hf, hmax⟩ := Set.exists_max_image _ Entry.created_at (List.finite_toSet w.published) ⟨e, he⟩
    refine ⟨f, hf, hmax, carries_of_shows ?_⟩
    have hfs := hw.published f hf
    rw [hsent] at hfs
    obtain hfl | hfe := List.mem_append.mp hfs
    · exact hlater f hfl
    · have hst := hw.stamps
      rw [hsent] at hst
      have := (List.pairwise_append.mp hst).2.2 e hel f hfe
      exact absurd (hmax e he) (not_le.mpr this)

/-- **Submissions and corrections converge**: once the handler of every rumor of a set has
returned, however the deliveries, the failures and the retries were ordered, the row
holds the one of each kind that supersedes all others, and the entry published last
carries it. -/
theorem converges {attendee : Attendee} {watermark : Option Int} (hid : ∀ r ∈ S, ∀ s ∈ S, r.id = s.id → r = s)
    (hr : Run (fun w x w' => Step sourceRevision coordinate w x w' ∧ Delivers S x) (start attendee watermark) xs w)
    (hall : ∀ r ∈ S, r ∈ w.processed) (pubkey : JsString) (k : Kind) (hk : ∃ r ∈ S, Concerns coordinate k r) :
    ∃ r ∈ S, Concerns coordinate k r ∧
      (∀ s ∈ S, Concerns coordinate k s → s = r ∨ revisionSupersedes r.key s.key = true) ∧ Converged pubkey w r := by
  have hw : Sound coordinate S w := hr.invariant (fun _ _ _ hw hs => hw.step hid hs.1 hs.2) sound_start
  obtain ⟨-, hnone⟩ | ⟨h, hh⟩ := hw.cells k
  · obtain ⟨r, hrS, hc⟩ := hk
    exact absurd (.inl (hall r hrS)) (hnone r hc)
  · exact ⟨h, hh.mem, hh.concerns, fun s hs hc => hh.covers s hc (.inl (hall s hs)), hh.converged hw (hall h hh.mem) pubkey⟩

namespace Small

def camp : JsString := js "31923:org:camp"

def profile (about : String) : AttendeeProfile := ⟨js about, [], [], []⟩

def first : Rumor := ⟨js "a", 10, .submission ⟨1, profile "cook", [], none⟩⟩

def second : Rumor := ⟨js "b", 5, .submission ⟨2, profile "sailor", [], none⟩⟩

def hide : Rumor := ⟨js "c", 12, .correction ⟨camp, 1, none, some true, none, none⟩⟩

/-- The later submission comes first and fails to publish; the earlier one loses, and a
correction is published before the retry. -/
def acts : List Act :=
  [.attempt second 20000 none, .settled 0 false false, .attempt first 20000 none, .attempt hide 20000 none, .settled 0 true true,
    .attempt second 20000 none, .settled 0 true true]

def revision (_ : StoredProfile) : JsString := js "r"

theorem processed_eq : (Run.exec (act revision camp) (start {} none) acts).map (fun w => (w.processed, w.published.map Entry.created_at)) =
    some ([second, hide, first], [22, 21]) := by decide +kernel

theorem delivered : Run.Guarded (act revision camp) (fun _ x => Delivers [first, second, hide] x) (start {} none) acts :=
  ⟨⟨by simp, by decide⟩, fun _ _ => ⟨trivial, fun _ _ => ⟨⟨by simp, by decide⟩, fun _ _ => ⟨⟨by simp, by decide⟩, fun _ _ =>
    ⟨trivial, fun _ _ => ⟨⟨by simp, by decide⟩, fun _ _ => ⟨trivial, fun _ _ => trivial⟩⟩⟩⟩⟩⟩⟩

end Small

theorem converges_sailor : ∃ w, Run (fun w x w' => Step Small.revision Small.camp w x w' ∧ Delivers [Small.first, Small.second, Small.hide] x)
    (start {} none) Small.acts w ∧ ∀ k, ∃ r ∈ [Small.first, Small.second, Small.hide], Concerns Small.camp k r ∧
      (∀ s ∈ [Small.first, Small.second, Small.hide], Concerns Small.camp k s → s = r ∨ revisionSupersedes r.key s.key = true) ∧
        Converged (js "ann") w r := by
  obtain ⟨w, hw, hlog⟩ := Option.map_eq_some_iff.mp Small.processed_eq
  have hrun := Run.of_guarded hw Small.delivered
  refine ⟨w, hrun, fun k => converges (by decide) hrun (fun r hr => ?_) _ k ?_⟩
  · rw [show w.processed = [Small.second, Small.hide, Small.first] from congrArg Prod.fst hlog]
    simp only [List.mem_cons, List.not_mem_nil, or_false] at hr ⊢
    tauto
  · cases k with
    | submission => exact ⟨Small.first, by simp, rfl, fun c he => by cases he⟩
    | correction => exact ⟨Small.hide, by simp, rfl, fun c he => by cases he; rfl⟩

end Nostrautica.Submissions
