/-
No join is missed (`joins_shown`) where each read that moves the cursor has returned the joins
older than the next read will look back. The cursor moves on whatever a read has settled with,
so that a join such a read lacks is read by no later one (`partial_read_misses`).
-/
import Nostrautica.App.InboxScans
import Nostrautica.App.PendingFacts
import Nostrautica.Transition.Run

set_option linter.unusedSectionVars false

namespace Nostrautica.Pending

open Js Submissions

variable {W Sk V M : Type} {c : Context W Sk V M} {d : Deps W Sk V M} {coordinate : JsString} {s s' : World W V M}
  {cached : Cached V M} {b : Begun W V M} {fetch : Nat → Filter → List W} {ws ws' : Winners V M} {l x : List Rumor}
  {r : Rumor} {w : W} {now : Int}

/-! ## Joins that are kept -/

/-- The winners hold this join, or one of the same attendee that it does not supersede. -/
def Kept (ws : Winners V M) (r : Rumor) : Prop :=
  ∃ req, ws.joins.get? r.pubkey = some req ∧
    supersedes r.stamp ⟨(ws.joinIds.get? r.pubkey).getD [], req.rumorCreatedAt⟩ = false

theorem supersedes_false {r b : Rumor} : supersedes r.stamp b.stamp = false ↔ (eventKey r).rank ≤ (eventKey b).rank := by
  rw [supersedes_eq, ← not_lt, ← revisionSupersedes_iff, Bool.not_eq_true]

theorem kept_iff (h : Shows d coordinate l ws) :
    Kept ws r ↔ ∃ b, newestJoin d r.pubkey l = some b ∧ (eventKey r).rank ≤ (eventKey b).rank := by
  rw [Kept, h.joins, h.joinIds]
  cases hn : newestJoin d r.pubkey l with
  | none => simp
  | some b =>
    obtain ⟨content, hcontent⟩ := parse_of_newestJoin hn
    simp only [Option.bind_some, joinOf, hcontent, Option.map_some, Option.getD_some, Option.some.injEq, exists_eq_left',
      request]
    exact supersedes_false

/-- A join that was folded in is kept. -/
theorem kept_of_mem (h : Shows d coordinate l ws) (hr : r ∈ l) (hjoin : isJoin d r.pubkey r = true) : Kept ws r := by
  rw [kept_iff h]
  cases hn : newestJoin d r.pubkey l with
  | none => exact absurd hjoin (by simp [newest_none hn r hr])
  | some b => exact ⟨b, rfl, (newest_spec hn).2.2 r hr hjoin⟩

/-- What is kept stays kept when more is folded in. -/
theorem Kept.grow (hk : Kept ws r) (h : Shows d coordinate l ws) (h' : Shows d coordinate (l ++ x) ws') : Kept ws' r := by
  obtain ⟨b, hb, hle⟩ := (kept_iff h).1 hk
  obtain ⟨hmem, hjoin, -⟩ := newest_spec hb
  have hpk : b.pubkey = r.pubkey := pubkey_of_newestJoin hb
  have hkept : Kept ws' b := kept_of_mem h' (List.mem_append_left _ hmem) (hpk.symm ▸ hjoin)
  obtain ⟨b', hb', hle'⟩ := (kept_iff h').1 hkept
  exact (kept_iff h').2 ⟨b', hpk ▸ hb', hle.trans hle'⟩

/-! ## Wraps of joins -/

/-- The wrap holds a join. -/
def WrapsJoin (c : Context W Sk V M) (w : W) : Prop := ∃ j, rumorOf c w = some j ∧ isJoin c.deps j.pubkey j = true

/-- The join of a wrap, as dated at some unwrapping. -/
def JoinOf (c : Context W Sk V M) (w : W) (r : Rumor) : Prop :=
  (∃ t, unwrapAny c.deps c.inboxSks w t = some r) ∧ isJoin c.deps r.pubkey r = true

/-- The wrap's join is kept. -/
def Known (c : Context W Sk V M) (ws : Winners V M) (w : W) : Prop := ∃ r, JoinOf c w r ∧ Kept ws r

theorem unwrapAny_map {t : Int} : unwrapAny c.deps c.inboxSks w t =
    (rumorOf c w).map fun r => { r with created_at := rumorEffectiveCreatedAt r.created_at t } := by
  rw [rumorOf, List.map_findSome?]
  rfl

/-- A wrap that a scan has read is known after it. -/
theorem known_of_read {wraps : List W} (h : Shows c.deps c.coordinate l ws) (hj : WrapsJoin c w) (hw : w ∈ wraps) :
    Known c (foldWraps c ws (wraps.map (·, now))) w := by
  obtain ⟨j, hrumor, hjoin⟩ := hj
  have hopen : unwrapAny c.deps c.inboxSks w now = some { j with created_at := rumorEffectiveCreatedAt j.created_at now } := by
    rw [unwrapAny_map, hrumor, Option.map_some]
  refine ⟨_, ⟨⟨now, hopen⟩, hjoin⟩, kept_of_mem (h.foldl _) (List.mem_append_right _ ?_) hjoin⟩
  exact List.mem_filterMap.2 ⟨(w, now), List.mem_map_of_mem hw, hopen⟩

theorem Known.grow {wraps : List (W × Int)} (hk : Known c ws w) (h : Shows c.deps c.coordinate l ws) :
    Known c (foldWraps c ws wraps) w := by
  obtain ⟨r, hr, hkept⟩ := hk
  exact ⟨r, hr, hkept.grow h (h.foldl _)⟩

/-! ## Runs -/

/-- The call's read asks for the wrap. -/
def Begun.Asks (c : Context W Sk V M) (b : Begun W V M) (w : W) : Prop :=
  ∀ cursor ∈ cursorOf b.state, sinceOf b.scanStartedAt cursor ≤ c.deps.wrapCreatedAt w

/-- How far back the reads look from a cursor. -/
def lookBack (cursor : Int) : Int := cursor - giftwrapMaxBackdateSec - day

/-- Every join sent so long before the cursor that no later read asks for it is known. -/
structure Covers (c : Context W Sk V M) (s : World W V M) (cached : Cached V M) : Prop where
  shows : ∃ l, Shows c.deps c.coordinate l (winnersOf cached)
  cursor : ∀ t ∈ cursorOf cached, t ≤ s.now
  known : ∀ t ∈ cursorOf cached, ∀ w ∈ s.held, WrapsJoin c w → c.deps.wrapCreatedAt w < lookBack t → Known c (winnersOf cached) w

structure Sound (c : Context W Sk V M) (s : World W V M) : Prop where
  cached : Covers c s s.cached
  begun : ∀ b ∈ s.begun, Covers c s b.state ∧ b.scanStartedAt ≤ s.now ∧ ∀ w ∈ b.held, w ∈ s.held

/-- A read that moves the cursor has returned the joins that the next one will not ask for. -/
def Timely (c : Context W Sk V M) (s : World W V M) : Act W → Prop
  | .settle i fetch => ∀ b, s.begun[i]? = some b → (b.read c fetch).2 = true → ∀ w ∈ s.held, WrapsJoin c w → b.Asks c w →
    c.deps.wrapCreatedAt w < lookBack b.scanStartedAt → w ∈ (b.read c fetch).1 ∨ Known c (winnersOf b.state) w
  | _ => True

theorem covers_none : Covers c s none where
  shows := ⟨[], shows_nil⟩
  cursor t h := by cases h
  known t h := by cases h

/-- The clock goes on and wraps are sent: they are dated back no further than the reads look. -/
theorem Covers.mono (h : Covers c s cached) (hnow : s.now ≤ s'.now)
    (hheld : ∀ w ∈ s'.held, w ∈ s.held ∨ s.now - giftwrapMaxBackdateSec ≤ c.deps.wrapCreatedAt w) : Covers c s' cached where
  shows := h.shows
  cursor t ht := (h.cursor t ht).trans hnow
  known t ht w hw hj hlt := by
    rcases hheld w hw with hw | hback
    · exact h.known t ht w hw hj hlt
    · have hle := h.cursor t ht
      unfold lookBack day at hlt
      omega

theorem winnersOf_next {stamp : Int} : winnersOf (some (stamp, b.next c fetch now)) =
    foldWraps c (winnersOf b.state) ((b.read c fetch).1.map (·, now)) := rfl

/-- What a call asks for or what its state knows: every wrap. -/
theorem Covers.known_or_asks (h : Covers c s b.state) (hw : w ∈ s.held) (hj : WrapsJoin c w) :
    Known c (winnersOf b.state) w ∨ b.Asks c w := by
  refine or_iff_not_imp_right.2 fun hasks => ?_
  simp only [Begun.Asks, not_forall, not_le] at hasks
  obtain ⟨t, ht, hlt⟩ := hasks
  exact h.known t ht w hw hj (hlt.trans_le (min_le_right _ _))

/-- **The state that a call writes.** -/
theorem Covers.next {i : Nat} {stamp : Int} (h : Covers c s b.state) (hstart : b.scanStartedAt ≤ s.now) (hb : s.begun[i]? = some b)
    (ht : Timely c s (.settle i fetch)) : Covers c s (some (stamp, b.next c fetch s.now)) := by
  obtain ⟨l, hl⟩ := h.shows
  refine ⟨⟨_, hl.foldl _⟩, fun t hcur => ?_, fun t hcur w hw hj hlt => ?_⟩
  all_goals
    have hnext : (if (b.read c fetch).2 then some b.scanStartedAt else cursorOf b.state) = some t := hcur
    split at hnext
  · exact (Option.some_inj.1 hnext) ▸ hstart
  · exact h.cursor t hnext
  next hcomplete =>
    rw [← Option.some_inj.1 hnext] at hlt
    rw [winnersOf_next]
    rcases h.known_or_asks hw hj with hk | hasks
    · exact hk.grow hl
    · rcases ht b hb hcomplete w hw hj hasks hlt with hread | hk
      · exact known_of_read hl hj hread
      · exact hk.grow hl
  next => exact (h.known t hnext w hw hj hlt).grow hl

theorem Sound.step {a : Act W} (h : Sound c s) (hstep : Step c s a s') (ht : Timely c s a) : Sound c s' := by
  obtain ⟨hallowed, hact⟩ := hstep
  cases a with
  | send wrap =>
    cases hact
    have hheld : ∀ w ∈ s.held ++ [wrap], w ∈ s.held ∨ s.now - giftwrapMaxBackdateSec ≤ c.deps.wrapCreatedAt w := by
      intro w hw
      rcases List.mem_append.1 hw with hw | hw
      · exact .inl hw
      · exact .inr (List.mem_singleton.1 hw ▸ hallowed.2)
    exact ⟨h.cached.mono le_rfl hheld, fun b hb =>
      ⟨(h.begun b hb).1.mono le_rfl hheld, (h.begun b hb).2.1, fun w hw => List.mem_append_left _ ((h.begun b hb).2.2 w hw)⟩⟩
  | tick now =>
    cases hact
    exact ⟨h.cached.mono hallowed fun _ => .inl, fun b hb =>
      ⟨(h.begun b hb).1.mono hallowed fun _ => .inl, (h.begun b hb).2.1.trans hallowed, (h.begun b hb).2.2⟩⟩
  | call =>
    cases hact
    refine ⟨h.cached.mono le_rfl fun _ => .inl, fun b hb => ?_⟩
    rcases List.mem_append.1 hb with hb | hb
    · exact ⟨(h.begun b hb).1.mono le_rfl fun _ => .inl, (h.begun b hb).2⟩
    · rw [List.mem_singleton.1 hb]
      exact ⟨h.cached.mono le_rfl fun _ => .inl, le_rfl, fun _ => id⟩
  | settle i fetch =>
    simp only [act] at hact
    obtain ⟨b, hb, rfl⟩ := Option.map_eq_some_iff.1 hact
    obtain ⟨hcovers, hstart, -⟩ := h.begun b (List.mem_of_getElem? hb)
    refine ⟨?_, fun b' hb' => ?_⟩
    · have hwritten : Covers c s (cacheState s.cached b.scanStartedAt (b.next c fetch s.now)) := by
        unfold cacheState
        split
        · exact h.cached
        · exact hcovers.next hstart hb ht
      exact hwritten.mono le_rfl fun _ => .inl
    · have hmem := List.mem_of_mem_eraseIdx hb'
      exact ⟨(h.begun b' hmem).1.mono le_rfl fun _ => .inl, (h.begun b' hmem).2⟩
  | forget =>
    cases hact
    exact ⟨covers_none, fun b hb => ⟨(h.begun b hb).1.mono le_rfl fun _ => .inl, (h.begun b hb).2⟩⟩

/-! ## The queue -/

/-- The queue shows the attendee's request, of this join or of one that it does not supersede. -/
def Represented (c : Context W Sk V M) (q : List (PendingRequest V M)) (r : Rumor) : Prop :=
  ∃ (b : Rumor) (content : JoinRequestContent), b.pubkey = r.pubkey ∧ c.deps.parseJoin b.content = some content ∧ supersedes r.stamp b.stamp = false ∧
    ∃ req ∈ q, req.attendeePubkey = r.pubkey ∧ req.name = content.name ∧ req.message = content.message ∧
      req.rsvpPublic = content.rsvp_public ∧ req.rumorCreatedAt = b.created_at

theorem requestOf_join (a : JsString) {pk : JsString} {b : Rumor} {content : JoinRequestContent} (hb : newestJoin d pk l = some b)
    (hcontent : d.parseJoin b.content = some content) : ∃ req, requestOf d a l pk = some req ∧
      req.attendeePubkey = pk ∧ req.name = content.name ∧ req.message = content.message ∧
        req.rsvpPublic = content.rsvp_public ∧ req.rumorCreatedAt = b.created_at := by
  have hpk := pubkey_of_newestJoin hb
  simp only [requestOf, hb, joinOf, hcontent, Option.map_some, Option.some.injEq, exists_eq_left']
  cases newestWithdrawal d a pk l with
  | none => cases (newestSubmission d pk l).bind (submissionOf d) <;> simp [withSubmission, request, hpk]
  | some w =>
    simp only
    split <;> cases (newestSubmission d pk l).bind (submissionOf d) <;> simp [withSubmission, request, hpk]

theorem represented_of_kept (h : Shows c.deps c.coordinate l ws) (hk : Kept ws r) : Represented c ws.queue r := by
  obtain ⟨b, hb, hle⟩ := (kept_iff h).1 hk
  obtain ⟨content, hcontent⟩ := parse_of_newestJoin hb
  obtain ⟨req, hreq, hfields⟩ := requestOf_join c.coordinate hb hcontent
  exact ⟨b, content, pubkey_of_newestJoin hb, hcontent, supersedes_false.2 hle, req, (h.queue.mem req).2 ⟨_, hreq⟩, hfields⟩

/-- The read returned all that it asked for. -/
def Full (c : Context W Sk V M) (b : Begun W V M) (fetch : Nat → Filter → List W) : Prop :=
  ∀ w ∈ b.held, b.Asks c w → w ∈ (b.read c fetch).1

/-- **No join is missed.** -/
theorem joins_shown {t₀ : Int} {as : List (Act W)} {i : Nat}
    (h : Run (fun s a s' => Step c s a s' ∧ Timely c s a) { now := t₀ } as s) (hb : s.begun[i]? = some b)
    (hlast : Step c s (.settle i fetch) s') (hfull : Full c b fetch) :
    ∀ w ∈ b.held, WrapsJoin c w → ∃ r, JoinOf c w r ∧ Represented c s'.queue r := by
  have hsound : Sound c s := h.invariant (I := Sound c) (fun _ _ _ hs hstep => hs.step hstep.1 hstep.2)
    ⟨covers_none, fun b hb => by cases hb⟩
  obtain ⟨hcovers, -, hheld⟩ := hsound.begun b (List.mem_of_getElem? hb)
  obtain ⟨l, hl⟩ := hcovers.shows
  have hqueue : s'.queue = (b.next c fetch s.now).queue := by
    have hact := hlast.2
    simp only [act, hb, Option.map_some, Option.some.injEq] at hact
    rw [← hact]
  intro w hw hj
  have hknown : Known c (foldWraps c (winnersOf b.state) ((b.read c fetch).1.map (·, s.now))) w := by
    rcases hcovers.known_or_asks (hheld w hw) hj with hk | hasks
    · exact hk.grow hl
    · exact known_of_read hl hj (hfull w hw hasks)
  obtain ⟨r, hr, hkept⟩ := hknown
  rw [hqueue]
  exact ⟨r, hr, represented_of_kept (hl.foldl _) hkept⟩

namespace TwoJoins

/-- Every relay answers in full. -/
def answer (c : Context Wrap Unit Unit Unit) (held : List Wrap) (_ : Nat) (f : Filter) : List Wrap :=
  held.filter fun w => f.since.all (· ≤ c.deps.wrapCreatedAt w) && f.until_.all (c.deps.wrapCreatedAt w ≤ ·)

theorem allowed_answer {c : Context Wrap Unit Unit Unit} {s : World Wrap Unit Unit} {i : Nat} :
    Allowed c s (.settle i (answer c s.held)) := by
  intro page f w hw
  simp only [answer, List.mem_filter, Bool.and_eq_true, Option.all_eq_true, decide_eq_true_eq] at hw
  exact ⟨hw.1, hw.2⟩

/-- What some acts make of a world. -/
def after (c : Context Wrap Unit Unit Unit) (s : World Wrap Unit Unit) (as : List (Act Wrap)) : World Wrap Unit Unit :=
  as.foldl (fun s a => (act c s a).getD s) s

/-- A scan reads the first join, and the second is sent days later. -/
def twice : List (Act Wrap) :=
  [.send .first, .call, .settle 0 (answer (context 0 400000) [.first]), .tick 400000, .send .second, .call]

/-- The first scan, days after the join was sent, is answered by no relay. -/
def unanswered : List (Act Wrap) := [.send .first, .tick 345600, .call, .settle 0 fun _ _ => [], .tick 345601, .call]

end TwoJoins

open TwoJoins

theorem joins_shown_twice :
    (∃ r, JoinOf (context 0 400000) .first r ∧
      Represented (context 0 400000)
        (after (context 0 400000) { now := 0 } (twice ++ [.settle 0 (answer (context 0 400000) [.first, .second])])).queue r) ∧
    ∃ r, JoinOf (context 0 400000) .second r ∧
      Represented (context 0 400000)
        (after (context 0 400000) { now := 0 } (twice ++ [.settle 0 (answer (context 0 400000) [.first, .second])])).queue r := by
  have hrun : Run (fun s a s' => Step (context 0 400000) s a s' ∧ Timely (context 0 400000) s a) { now := 0 } twice
      (after (context 0 400000) { now := 0 } twice) := by
    refine .cons ⟨⟨⟨by decide, by decide⟩, rfl⟩, trivial⟩ (.cons ⟨⟨trivial, rfl⟩, trivial⟩ (.cons ⟨⟨allowed_answer, rfl⟩, ?_⟩
      (.cons ⟨⟨(by decide : (0 : Int) ≤ 400000), rfl⟩, trivial⟩ (.cons ⟨⟨⟨by decide, by decide⟩, rfl⟩, trivial⟩
        (.cons ⟨⟨trivial, rfl⟩, trivial⟩ .nil)))))
    intro b hb _ w hw _ _ _
    cases hb
    exact .inl hw
  have hlast : Step (context 0 400000) (after (context 0 400000) { now := 0 } twice)
      (.settle 0 (answer (context 0 400000) [.first, .second]))
      (after (context 0 400000) { now := 0 } (twice ++ [.settle 0 (answer (context 0 400000) [.first, .second])])) :=
    ⟨allowed_answer, rfl⟩
  have hshown := joins_shown hrun rfl hlast fun w hw _ => by cases w <;> decide
  have hjoin : ∀ w, WrapsJoin (context 0 400000) w := fun w => ⟨_, rumorOf_context, by cases w <;> decide⟩
  exact ⟨hshown .first (.head _) (hjoin .first), hshown .second (.tail _ (.head _)) (hjoin .second)⟩

/-- A first scan that no relay answers moves the cursor all the same, past a join sent days before:
the next scan does not ask for it, and the queue stays empty. -/
theorem partial_read_misses :
    Run (Step (context 0 0)) { now := 0 } unanswered (after (context 0 0) { now := 0 } unanswered) ∧
      WrapsJoin (context 0 0) .first ∧
      (after (context 0 0) { now := 0 } unanswered).begun.map (·.held) = [[.first]] ∧
      Step (context 0 0) (after (context 0 0) { now := 0 } unanswered) (.settle 0 (answer (context 0 0) [.first]))
        (after (context 0 0) { now := 0 } (unanswered ++ [.settle 0 (answer (context 0 0) [.first])])) ∧
      (after (context 0 0) { now := 0 } (unanswered ++ [.settle 0 (answer (context 0 0) [.first])])).queue = [] ∧
      ∀ r, ¬Represented (context 0 0)
        (after (context 0 0) { now := 0 } (unanswered ++ [.settle 0 (answer (context 0 0) [.first])])).queue r := by
  have hempty : (after (context 0 0) { now := 0 } (unanswered ++ [.settle 0 (answer (context 0 0) [.first])])).queue = [] := by
    rfl
  refine ⟨?_, ⟨_, rumorOf_context, by decide⟩, rfl, ⟨allowed_answer, rfl⟩, hempty, fun r => ?_⟩
  · refine .cons ⟨⟨by decide, by decide⟩, rfl⟩ (.cons ⟨(by decide : (0 : Int) ≤ 345600), rfl⟩ (.cons ⟨trivial, rfl⟩
      (.cons ⟨?_, rfl⟩ (.cons ⟨(by decide : (345600 : Int) ≤ 345601), rfl⟩ (.cons ⟨trivial, rfl⟩ .nil)))))
    intro page f w hw
    cases hw
  · rintro ⟨b, content, -, -, -, req, hreq, -⟩
    rw [hempty] at hreq
    cases hreq

end Nostrautica.Pending
