/-
What a discard leaves in the outbox (`discards_final`): its row does not come back and is not
sent again, and a flush sends what the account active in its tab has queued, as long as no
call holds the row when the delete is done and no account changes under a flush. A flush that
has just seen the row puts it back (`flush_restores`).
-/
import Nostrautica.App.Outbox

set_option linter.unusedSectionVars false

namespace Nostrautica.Outbox

open Js

section

variable {τ : Type} [DecidableEq τ] {w w' w₀ w₁ : World τ} {x : Act τ} {k : Nat} {task : Task τ} {tab : Tab} {e : JsString}
  {a : Answer} {point : Point}

/-- A call neither puts a row of the event nor sends it once the row is gone. -/
def Idle (e : JsString) (task : Task τ) : Prop :=
  match task.point, task.result with
  | .publishing event _ _ _, _ | .sleeping event _ _ _, _ | .reading event _ _, _ => event.id ≠ e
  | .carrying row, none | .queuing row, none | .reviving row, none => row.event.id ≠ e
  | .fetching _, some (.row (some item)) => item.event.id ≠ e
  | .walking ⟨_, _, .checking item, _⟩, some (.row (some _)) => item.event.id ≠ e
  | .walking ⟨_, _, .rechecking row, _⟩, some (.row (some _)) => row.event.id ≠ e
  | .walking ⟨_, _, .writing row, _⟩, none => row.event.id ≠ e
  | _, _ => True

/-- The row that a discard deletes here. -/
def Point.discards : Point → Option JsString
  | discarding id => some id
  | discardingAll ids => ids.head?
  | _ => none

/-- Where the delete of a discard is done, no call holds the row; and a flush that goes on to a
publish finds the account active that it began with. -/
def Timely (w : World τ) : Act τ → Prop
  | .commit k => ∀ task id, w.tasks k = some task → task.point.discards = some id →
    ∀ j other, w.tasks j = some other → Idle id other
  | .resume k _ => ∀ task active now item rest, w.tasks k = some task → task.point = .walking ⟨active, now, .checking item, rest⟩ →
    (w.tabs task.tab).active = active
  | _ => True

/-- `publishOrQueue` is called for the event. -/
def Act.publishes (x : Act τ) (e : JsString) : Prop :=
  ∃ k t event relays online now, x = .call k t (.publishOrQueue event relays online now) ∧ event.id = e

/-! ## Points -/

theorem flush_next {lock : Option Nat} {flush : Option Flush} (h : (Gone.flush tab lock flush).next = some point) :
    ∃ f, flush = some f ∧ point = .walking f := by
  cases flush with
  | none => cases h
  | some f =>
    cases h
    exact ⟨f, rfl, rfl⟩

/-- The loop comes to the delete of a row, or to the check of one that its account owns. -/
theorem walk_cases {active : Option JsString} {now : Int} : ∀ {items : List QueuedItem} {f : Flush}, walk tab active now items = some f →
    (∃ id rest, f = ⟨active, now, .deleting id, rest⟩) ∨
      ∃ item rest, f = ⟨active, now, .checking item, rest⟩ ∧ item.owner = active ∧ item ∈ items
  | [], _, h => by cases h
  | item :: rest, f, h => by
    rw [walk] at h
    split at h
    · cases h
      exact .inl ⟨_, _, rfl⟩
    · split at h
      · exact (walk_cases h).imp id fun ⟨it, r, hf, ho, hm⟩ => ⟨it, r, hf, ho, List.mem_cons_of_mem _ hm⟩
      next hskip =>
        cases h
        simp only [ownedBy, Bool.or_eq_true, Bool.not_eq_true', not_or, Bool.not_eq_false, Bool.and_eq_true,
          decide_eq_true_eq] at hskip
        exact .inr ⟨item, rest, rfl, hskip.1.1.1.2, List.mem_cons_self⟩

theorem idle_flush {t : τ} {lock : Option Nat} {active : Option JsString} {now : Int} {items : List QueuedItem}
    (h : (Gone.flush tab lock (walk tab active now items)).next = some point) :
    Idle e ({ tab := t, point := point } : Task τ) := by
  obtain ⟨f, hf, rfl⟩ := flush_next h
  rcases walk_cases hf with ⟨_, _, rfl⟩ | ⟨_, _, rfl, -⟩ <;> trivial

/-- A flush goes on from a wait: it sends a row that it has found, or puts one back. -/
theorem idle_body {t : τ} {flush : Flush} {result : Option Result} {wait : Wait}
    (hidle : Idle e ({ tab := t, point := .walking flush, result := result } : Task τ))
    (hsettled : (Point.walking flush).op.isSome → result.isSome)
    (h : flush.body tab (result.getD .done) a = .await wait) :
    Idle e ({ tab := t, point := .walking { flush with wait := wait } } : Task τ) := by
  obtain ⟨active, now, w, rest⟩ := flush
  cases w with
  | deleting id => cases h
  | checking item =>
    simp only [Flush.body] at h
    split at h <;> cases h
    trivial
  | sending item =>
    simp only [Flush.body] at h
    split at h
    · split at h
      · cases h
        trivial
      · split at h <;> cases h
        trivial
    · split at h
      · cases h
        trivial
      · split at h <;> cases h
        trivial
  | rechecking row =>
    cases result with
    | none => cases hsettled rfl
    | some result =>
      cases result with
      | row found =>
        cases found with
        | none => cases h
        | some found =>
          simp only [Flush.body, Option.getD_some] at h
          split at h
          · cases h
            trivial
          · cases h
            exact hidle
      | rows all => cases h
      | done => cases h
  | writing row => cases h

/-- A call that is idle stays so when it goes on. -/
theorem idle_goOn {t : τ} {lock : Option Nat} {result : Option Result} {next : Point}
    (hidle : Idle e ({ tab := t, point := point, result := result } : Task τ))
    (hsettled : point.op.isSome → result.isSome)
    (h : (point.goOn k tab lock (result.getD .done) a).next = some next) :
    Idle e ({ tab := t, point := next } : Task τ) := by
  cases point with
  | publishing event relays owner attempt =>
    simp only [Point.goOn] at h
    split at h
    · split at h <;> cases h
      exact hidle
    · cases h
      split <;> exact hidle
  | sleeping event relays owner attempt =>
    cases h
    exact hidle
  | reading event missing owner =>
    simp only [Point.goOn] at h
    split at h
    · split at h <;> cases h
      exact hidle
    · cases h
  | carrying row => cases h
  | queuing row => cases h
  | locking =>
    simp only [Point.goOn] at h
    split at h <;> cases h
    trivial
  | snapshot active now =>
    simp only [Point.goOn] at h
    split at h
    · exact idle_flush h
    · cases h
  | walking flush =>
    simp only [Point.goOn] at h
    split at h
    · exact idle_flush h
    next wait hbody =>
      cases h
      exact idle_body hidle hsettled hbody
  | fetching id =>
    simp only [Point.goOn] at h
    split at h
    next item hitem =>
      cases result with
      | none => cases hsettled rfl
      | some result =>
        cases hitem
        cases h
        split
        · exact hidle
        · trivial
    · cases h
      trivial
  | reviving row =>
    cases h
    trivial
  | discarding id => cases h
  | listing owner =>
    simp only [Point.goOn] at h
    split at h
    · split at h <;> cases h
      trivial
    · cases h
  | discardingAll ids =>
    simp only [Point.goOn] at h
    split at h <;> cases h
    trivial

/-- A call sends where a flush has found the row that it checked for. -/
theorem sent_cases {lock : Option Nat} {result : Result} {s : Sent} (h : (point.goOn k tab lock result a).sent = some s) :
    ∃ active now item rest found, point = .walking ⟨active, now, .checking item, rest⟩ ∧ result = .row (some found) ∧
      s = ⟨item, tab.active⟩ := by
  cases point with
  | walking flush =>
    simp only [Point.goOn] at h
    split at h
    · cases hw : walk tab flush.active flush.now flush.rest with
      | none => rw [hw] at h; cases h
      | some f => rw [hw] at h; cases h
    next wait hbody =>
      obtain ⟨active, now, w, rest⟩ := flush
      cases wait with
      | sending item =>
        cases h
        cases w with
        | checking item' =>
          simp only [Flush.body] at hbody
          split at hbody
          next found =>
            cases hbody
            exact ⟨active, now, item, rest, found, rfl, rfl, rfl⟩
          · cases hbody
        | deleting id => cases hbody
        | writing row => cases hbody
        | sending item' =>
          simp only [Flush.body] at hbody
          split at hbody
          · split at hbody
            · cases hbody
            · split at hbody <;> cases hbody
          · split at hbody
            · cases hbody
            · split at hbody <;> cases hbody
        | rechecking row =>
          simp only [Flush.body] at hbody
          split at hbody
          · split at hbody <;> cases hbody
          · cases hbody
      | deleting id => cases h
      | checking item => cases h
      | rechecking row => cases h
      | writing row => cases h
  | snapshot active now =>
    simp only [Point.goOn] at h
    split at h
    next all =>
      cases hw : walk tab active now (all.insertionSort fun p q => p.queuedAt ≤ q.queuedAt) with
      | none => rw [hw] at h; cases h
      | some f => rw [hw] at h; cases h
    · cases h
  | _ =>
    simp only [Point.goOn] at h
    repeat' split at h
    all_goals cases h

/-- What an idle call sends is of another event. -/
theorem Idle.sent_ne {s : Sent} (h : Idle e task) (hs : (w.gone k task a).sent = some s) : s.row.event.id ≠ e := by
  obtain ⟨active, now, item, rest, found, hpoint, hfound, rfl⟩ := sent_cases hs
  obtain ⟨t, point, result⟩ := task
  cases hpoint
  cases result with
  | none => cases hfound
  | some result =>
    cases hfound
    exact h

/-! ## After a discard -/

/-- The row is gone and stays so, and what was sent since the state `w₁` is of other events. -/
structure Final (e : JsString) (w₁ w : World τ) : Prop where
  keyed : Keyed w.queue
  gone : look e w.queue = none
  idle : ∀ k task, w.tasks k = some task → Idle e task
  sent : ∃ new, w.sent = new ++ w₁.sent ∧ ∀ s ∈ new, s.row.event.id ≠ e

/-- An idle call puts a row of another event. -/
theorem Idle.put_ne {row : QueuedItem} (h : Idle e task) (hop : task.point.op = some (.put row)) (hresult : task.result = none) :
    row.event.id ≠ e := by
  obtain ⟨t, point, result⟩ := task
  cases hresult
  cases point with
  | carrying row => cases hop; exact h
  | queuing row => cases hop; exact h
  | reviving row => cases hop; exact h
  | walking flush =>
    obtain ⟨active, now, w, rest⟩ := flush
    cases w with
    | writing row => cases hop; exact h
    | _ => cases hop
  | discardingAll ids =>
    obtain ⟨id, -, hid⟩ := Option.map_eq_some_iff.1 hop
    cases hid
  | _ => cases hop

/-- An idle call finds no row of the event once there is none. -/
theorem Idle.commit {op : Op} {queue : Queue} (h : Idle e task) (hop : task.point.op = some op) (hresult : task.result = none)
    (hkeyed : Keyed queue) (hgone : look e queue = none) :
    Idle e { task with result := some (op.perform queue).1 } := by
  have hfound : ∀ id row, look id queue = some row → row.event.id ≠ e := by
    intro id row hrow hid
    have hkey := hkeyed id row hrow
    rw [hid] at hkey
    rw [← hkey, hgone] at hrow
    cases hrow
  obtain ⟨t, point, result⟩ := task
  cases hresult
  cases point with
  | publishing event relays owner attempt => cases hop
  | sleeping event relays owner attempt => cases hop
  | reading event missing owner => exact h
  | carrying row => trivial
  | queuing row => trivial
  | locking => cases hop
  | snapshot active now => trivial
  | fetching id =>
    cases hop
    simp only [Op.perform]
    cases hrow : look id queue with
    | none => trivial
    | some row => exact hfound id row hrow
  | reviving row => trivial
  | discarding id => trivial
  | listing owner => trivial
  | discardingAll ids => trivial
  | walking flush =>
    obtain ⟨active, now, w, rest⟩ := flush
    cases w with
    | deleting id => trivial
    | sending item => cases hop
    | writing row => trivial
    | checking item =>
      cases hop
      simp only [Op.perform]
      cases hrow : look item.event.id queue with
      | none => trivial
      | some row =>
        intro hid
        rw [hid, hgone] at hrow
        cases hrow
    | rechecking row =>
      cases hop
      simp only [Op.perform]
      cases hrow : look row.event.id queue with
      | none => trivial
      | some found =>
        intro hid
        rw [hid, hgone] at hrow
        cases hrow

theorem idle_start {t : τ} {c : Call} (h : ∀ event relays online now, c = .publishOrQueue event relays online now → event.id ≠ e) :
    Idle e ({ tab := t, point := (c.start tab).2 } : Task τ) := by
  cases c with
  | publishOrQueue event relays online now =>
    have hid := h event relays online now rfl
    simp only [Call.start]
    split <;> exact hid
  | _ => trivial

theorem Final.step (hw : Final e w₁ w) (hx : ¬x.publishes e) (h : Step w x w') : Final e w₁ w' where
  keyed := hw.keyed.step h
  gone := by
    rcases h.rows with hq | ⟨k, task, op, -, htask, hop, hresult, hq⟩
    · exact hq ▸ hw.gone
    · rw [hq]
      cases op with
      | get id => exact hw.gone
      | getAll => exact hw.gone
      | put row =>
        simp only [Op.perform, look_put]
        rw [if_neg ((hw.idle k task htask).put_ne hop hresult)]
        exact hw.gone
      | delete id =>
        simp only [Op.perform, look_filter]
        split
        · rfl
        · exact hw.gone
  idle := h.tasks hw.idle
    (fun k t c hx' => idle_start fun event relays online now hc hid => hx ⟨k, t, event, relays, online, now, hc ▸ hx', hid⟩)
    (fun k task op _ htask hop hresult => (hw.idle k task htask).commit hop hresult hw.keyed hw.gone)
    (fun k a task point _ htask hsettled hnext => idle_goOn (hw.idle k task htask) hsettled hnext)
  sent := by
    obtain ⟨new, hnew, hids⟩ := hw.sent
    rcases h.sent with hs | ⟨k, a, task, s, -, htask, hsettled, hs, hsent⟩
    · exact ⟨new, hs.trans hnew, hids⟩
    · refine ⟨s :: new, by rw [hsent, hnew]; rfl, fun s' hs' => ?_⟩
      rcases List.mem_cons.1 hs' with rfl | hs'
      · exact (hw.idle k task htask).sent_ne hs
      · exact hids s' hs'

/-- The delete of a discard is done. -/
theorem Final.of_delete (hkeyed : Keyed w₀.queue) (h : Step w₀ (.commit k) w₁) (htask : w₀.tasks k = some task)
    (hdiscards : task.point.discards = some e) (ht : Timely w₀ (.commit k)) : Final e w₁ w₁ := by
  have hop : task.point.op = some (.delete e) := by
    obtain ⟨t, point, result⟩ := task
    cases point with
    | discarding id => cases hdiscards; rfl
    | discardingAll ids => exact congrArg (Option.map Op.delete) hdiscards
    | _ => cases hdiscards
  have hidle := ht task e htask hdiscards
  obtain ⟨task', op, htask', hop', hresult, rfl⟩ := h.of_commit
  cases htask.symm.trans htask'
  cases hop.symm.trans hop'
  refine ⟨hkeyed.perform, ?_, tasks_update hidle fun _ he => ?_, ⟨[], rfl, fun _ hs => by cases hs⟩⟩
  · simp only [Op.perform, look_filter, if_true]
  · cases he
    obtain ⟨t, point, result⟩ := task
    cases point with
    | discarding id => trivial
    | discardingAll ids => trivial
    | _ => cases hdiscards

/-! ## Accounts -/

/-- A flush checks rows of the account that it began with. -/
def Checked (task : Task τ) : Prop :=
  ∀ active now item rest, task.point = .walking ⟨active, now, .checking item, rest⟩ → item.owner = active

/-- Each row was sent while its account was active. -/
structure Attributed (w : World τ) : Prop where
  checked : ∀ k task, w.tasks k = some task → Checked task
  sent : ∀ s ∈ w.sent, s.row.owner = s.active

theorem checked_flush {t : τ} {lock : Option Nat} {active : Option JsString} {now : Int} {items : List QueuedItem}
    (h : (Gone.flush tab lock (walk tab active now items)).next = some point) : Checked ({ tab := t, point := point } : Task τ) := by
  obtain ⟨f, hf, rfl⟩ := flush_next h
  intro active' now' item rest hpoint
  cases hpoint
  rcases walk_cases hf with ⟨_, _, hf⟩ | ⟨_, _, hf, howner, -⟩
  · cases hf
  · cases hf
    exact howner

/-- A call comes to a check only in the loop of a flush. -/
theorem checked_goOn {t : τ} {lock : Option Nat} {result : Result} {next : Point}
    (h : (point.goOn k tab lock result a).next = some next) : Checked ({ tab := t, point := next } : Task τ) := by
  cases point with
  | snapshot active now =>
    simp only [Point.goOn] at h
    split at h
    · exact checked_flush h
    · cases h
  | walking flush =>
    simp only [Point.goOn] at h
    split at h
    · exact checked_flush h
    next wait hbody =>
      cases h
      intro active now item rest hpoint
      cases hpoint
      obtain ⟨active, now, w, rest⟩ := flush
      cases w with
      | deleting id => cases hbody
      | writing row => cases hbody
      | checking item' =>
        simp only [Flush.body] at hbody
        split at hbody <;> cases hbody
      | sending item' =>
        simp only [Flush.body] at hbody
        repeat' split at hbody
        all_goals cases hbody
      | rechecking row =>
        simp only [Flush.body] at hbody
        split at hbody
        · split at hbody <;> cases hbody
        · cases hbody
  | _ =>
    intro active now item rest hpoint
    cases hpoint
    simp only [Point.goOn] at h
    repeat' split at h
    all_goals cases h

theorem Attributed.step (hw : Attributed w) (ht : Timely w x) (h : Step w x w') : Attributed w' where
  checked := h.tasks hw.checked
    (fun k t c _ active now item rest hpoint => by
      cases c with
      | publishOrQueue event relays online now =>
        simp only [Call.start] at hpoint
        split at hpoint <;> cases hpoint
      | _ => cases hpoint)
    (fun k task op _ htask _ _ => hw.checked k task htask)
    (fun k a task point _ htask hsettled hnext => checked_goOn hnext)
  sent := by
    rcases h.sent with hs | ⟨k, a, task, s, rfl, htask, hsettled, hs, hsent⟩
    · exact hs ▸ hw.sent
    · rw [hsent]
      intro s' hs'
      rcases List.mem_cons.1 hs' with rfl | hs'
      · obtain ⟨active, now, item, rest, found, hpoint, hfound, rfl⟩ := sent_cases hs
        exact (hw.checked k task htask active now item rest hpoint).trans (ht task active now item rest htask hpoint).symm
      · exact hw.sent s' hs'

/-- **Discards are final.** Over any run of publications, flushes, retries, discards, logouts
and account switches in any tabs: once the delete of a discard is done, the row does not come
back and is not sent until `publishOrQueue` is called for its event; and each row that a flush
sent was of the account active in its tab at that moment. -/
theorem discards_final {before after : List (Act τ)}
    (hbefore : Run (fun w x w' => Step w x w' ∧ Timely w x) ({} : World τ) before w₀)
    (hdelete : Step w₀ (.commit k) w₁ ∧ Timely w₀ (.commit k)) (htask : w₀.tasks k = some task)
    (hdiscards : task.point.discards = some e)
    (hafter : Run (fun w x w' => (Step w x w' ∧ Timely w x) ∧ ¬x.publishes e) w₁ after w) :
    look e w.queue = none ∧ (∃ new, w.sent = new ++ w₁.sent ∧ ∀ s ∈ new, s.row.event.id ≠ e) ∧
      ∀ s ∈ w.sent, s.row.owner = s.active := by
  have hkeyed : Keyed w₀.queue := hbefore.invariant (I := fun w => Keyed w.queue) (fun _ _ _ hi hx => hi.step hx.1) fun _ _ h => by cases h
  have hattr₀ : Attributed w₀ := hbefore.invariant (fun _ _ _ hi hx => hi.step hx.2 hx.1)
    ⟨fun _ _ h => (by cases h), fun _ h => by cases h⟩
  have hfinal := hafter.invariant (fun _ _ _ hi hx => hi.step hx.2 hx.1.1) (Final.of_delete hkeyed hdelete.1 htask hdiscards hdelete.2)
  have hattr := hafter.invariant (fun _ _ _ hi hx => hi.step hx.1.2 hx.1.1) (hattr₀.step hdelete.2 hdelete.1)
  exact ⟨hfinal.gone, hfinal.sent, hattr.sent⟩

end

/-! ## Two runs -/

namespace Small

def event : Event := ⟨js "e", js "ada"⟩

/-- Nothing is reached. -/
def offline : Answer := ⟨100, .error (js "offline")⟩

/-- An event is queued, and then discarded in another tab. -/
def queued : List (Act Bool) :=
  [.call 0 false (.publishOrQueue event none false 100), .commit 0, .resume 0 offline, .call 1 true (.discardQueued event.id)]

/-- The discard returns, and a flush begins. -/
def after : List (Act Bool) := [.resume 1 offline, .call 2 false .flushQueue]

theorem discards_queued : ∃ w₀ w₁ w task, Run (fun w x w' => Step w x w' ∧ Timely w x) ({} : World Bool) queued w₀ ∧
    (Step w₀ (.commit 1) w₁ ∧ Timely w₀ (.commit 1)) ∧ w₀.tasks 1 = some task ∧ task.point.discards = some event.id ∧
    Run (fun w x w' => (Step w x w' ∧ Timely w x) ∧ ¬x.publishes event.id) w₁ after w := by
  refine ⟨_, _, _, _, .cons ⟨rfl, trivial⟩ (.cons ⟨rfl, ?_⟩ (.cons ⟨rfl, ?_⟩ (.cons ⟨rfl, trivial⟩ .nil))), ⟨rfl, ?_⟩, rfl, rfl,
    .cons ⟨⟨rfl, ?_⟩, ?_⟩ (.cons ⟨⟨rfl, trivial⟩, ?_⟩ .nil)⟩
  · intro task id htask hdiscards
    cases htask
    cases hdiscards
  · intro task active now item rest htask hpoint
    cases htask
    cases hpoint
  · intro task id htask hdiscards j other hother
    match j with
    | 0 => cases hother
    | 1 => cases hother; trivial
    | j + 2 => cases hother
  · intro task active now item rest htask hpoint
    cases htask
    cases hpoint
  · rintro ⟨_, _, _, _, _, _, h, -⟩
    cases h
  · rintro ⟨_, _, _, _, _, _, h, -⟩
    cases h

/-- A flush has sent the event without reaching a relay, and has found its row still there. -/
def flushed : List (Act Bool) :=
  [.signIn false (some event.pubkey), .call 0 false (.publishOrQueue event none false 100), .commit 0, .resume 0 offline,
    .call 1 false .flushQueue, .resume 1 offline, .commit 1, .resume 1 offline, .commit 1, .resume 1 offline, .resume 1 offline,
    .commit 1, .call 2 true (.discardQueued event.id)]

end Small

theorem discards_final_queued : ∃ w₀ w₁ w, Run Step ({} : World Bool) Small.queued w₀ ∧ Step w₀ (.commit 1) w₁ ∧
    Run Step w₁ Small.after w ∧ look Small.event.id w.queue = none := by
  obtain ⟨w₀, w₁, w, task, hbefore, hdelete, htask, hdiscards, hafter⟩ := Small.discards_queued
  exact ⟨w₀, w₁, w, hbefore.mono fun _ _ _ h => h.1, hdelete.1, hafter.mono fun _ _ _ h => h.1.1,
    (discards_final hbefore hdelete htask hdiscards hafter).1⟩

/-- A flush that has found the row before a discard puts it back after it. -/
theorem flush_restores : ∃ w₀ w₁ w task, Run Step ({} : World Bool) Small.flushed w₀ ∧ w₀.tasks 2 = some task ∧
    task.point.discards = some Small.event.id ∧ Step w₀ (.commit 2) w₁ ∧ look Small.event.id w₁.queue = none ∧
    Run Step w₁ [.resume 2 Small.offline, .resume 1 Small.offline, .commit 1] w ∧ (look Small.event.id w.queue).isSome = true :=
  ⟨_, _, _, _, Run.of_exec rfl, rfl, rfl, rfl, rfl, Run.of_exec rfl, rfl⟩

end Nostrautica.Outbox
