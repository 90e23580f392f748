/-
The app's outbox: `app/src/lib/nostr/publish-queue.ts`, in the tabs of one browser, which share
the queue on disk and the flush lock.

A call runs without interruption to its next await. What it waits for on disk is done in one
step and told in a later one. The counts that a flush returns are left out, and the operations
on disk do not fail.

What each step of the outbox does to the rows, the calls and what was sent, whatever the
interleaving.
-/
import Nostrautica.Js.Map
import Nostrautica.Js.Text
import Nostrautica.Transition.Run

namespace Nostrautica.Outbox

open Js

/-! ## Rows -/

/-- What the outbox reads of a `VerifiedEvent`. -/
structure Event where
  id : JsString
  pubkey : JsString
  deriving DecidableEq

/-- `QueuedItem`. -/
structure QueuedItem where
  event : Event
  relays : Option (List JsString)
  queuedAt : Int
  attempts : Nat
  lastAttemptAt : Option Int := none
  failed : Bool := false
  lastError : Option JsString := none
  owner : Option JsString
  /-- `partial`. -/
  isPartial : Bool := false
  deriving DecidableEq

/-- What `publishSigned` tells of one relay: `retryable` is `isRetryableRelayFailure(reason)`. -/
structure RelayPublishOutcome where
  url : JsString
  ok : Bool
  retryable : Bool

def maxFlushAttempts : Nat := 5

/-- `FLUSH_BACKOFF_MS`. -/
def flushBackoffMs : List Int := [0, 15000, 60000, 5 * 60000, 15 * 60000]

/-- `PUBLISH_BACKOFFS_MS.length`. -/
def publishBackoffs : Nat := 2

/-- `stillMissing(outcomes)`. -/
def stillMissing (outcomes : List RelayPublishOutcome) : List JsString :=
  (outcomes.filter fun o => !o.ok && o.retryable).map (·.url)

/-- `readyToFlush(item, now)`. -/
def readyToFlush (item : QueuedItem) (now : Int) : Bool :=
  let wait := flushBackoffMs.getD (min item.attempts (flushBackoffMs.length - 1)) 0
  now ≥ item.lastAttemptAt.getD item.queuedAt + wait

/-- `ownedBy(item, active)`. -/
def ownedBy (item : QueuedItem) (active : Option JsString) : Bool := item.owner.isSome && item.owner = active

/-- The row that `publishOrQueue` puts when it gives up. -/
def fullRow (event : Event) (relays : Option (List JsString)) (owner : JsString) (now : Int) : QueuedItem :=
  { event := event, relays := relays, queuedAt := now, attempts := 0, owner := some owner }

/-- The row that `queueUndelivered` puts, over the one it found. -/
def partialRow (existing : Option QueuedItem) (event : Event) (missing : List JsString) (owner : JsString) (now : Int) :
    QueuedItem :=
  { event := event
    relays := some (((existing.bind QueuedItem.relays).getD [] ++ missing).eraseDups)
    queuedAt := (existing.map QueuedItem.queuedAt).getD now
    attempts := (existing.map QueuedItem.attempts).getD 0
    lastAttemptAt := existing.bind QueuedItem.lastAttemptAt
    failed := existing.any QueuedItem.failed
    lastError := existing.bind QueuedItem.lastError
    owner := some owner
    isPartial := true }

/-- The row after a flush reached some of its relays. -/
def narrowed (item : QueuedItem) (missing : List JsString) (now : Int) : QueuedItem :=
  { item with
    relays := some missing
    attempts := item.attempts + 1
    lastAttemptAt := some now
    failed := false
    isPartial := true }

/-- The row after a flush reached none. -/
def retried (item : QueuedItem) (lastError : JsString) (now : Int) : QueuedItem :=
  { item with
    attempts := item.attempts + 1
    lastAttemptAt := some now
    failed := decide (item.attempts + 1 ≥ maxFlushAttempts)
    lastError := some lastError }

/-- The row that `retryFailed` puts. -/
def revived (item : QueuedItem) : QueuedItem := { item with failed := false, attempts := 0, lastAttemptAt := none }

/-! ## Calls -/

/-- Where a flush waits in its loop. -/
inductive Wait
  /-- `backend.delete`, of a row with no owner or one that it is done with. -/
  | deleting (id : JsString)
  /-- `stillQueued`, before the publish. -/
  | checking (item : QueuedItem)
  /-- `publishSigned`. -/
  | sending (item : QueuedItem)
  /-- `stillQueued`, before this row is put in place of the one it has sent. -/
  | rechecking (row : QueuedItem)
  | writing (row : QueuedItem)

/-- `flushQueueSnapshot`, in its loop. -/
structure Flush where
  active : Option JsString
  now : Int
  wait : Wait
  rest : List QueuedItem

/-- Where a call waits. -/
inductive Point
  /-- `publishOrQueue`: `publishSigned`. -/
  | publishing (event : Event) (relays : Option (List JsString)) (owner : JsString) (attempt : Nat)
  | sleeping (event : Event) (relays : Option (List JsString)) (owner : JsString) (attempt : Nat)
  /-- `queueUndelivered`: `getOne`. -/
  | reading (event : Event) (missing : List JsString) (owner : JsString)
  /-- `queueUndelivered`: `backend.put`. -/
  | carrying (row : QueuedItem)
  /-- `publishOrQueue`: `backend.put`. -/
  | queuing (row : QueuedItem)
  /-- `flushQueue`: the lock. -/
  | locking
  /-- `backend.getAll`. -/
  | snapshot (active : Option JsString) (now : Int)
  | walking (flush : Flush)
  /-- `retryFailed`: `getOne`. -/
  | fetching (id : JsString)
  | reviving (row : QueuedItem)
  /-- `discardQueued`: `backend.delete`. -/
  | discarding (id : JsString)
  /-- `discardQueuedForOwner`: `backend.getAll`. -/
  | listing (owner : JsString)
  /-- The rows it has still to delete. -/
  | discardingAll (ids : List JsString)

/-- An operation on disk. -/
inductive Op
  | get (id : JsString)
  | getAll
  | put (row : QueuedItem)
  | delete (id : JsString)

/-- What an operation returns. -/
inductive Result
  | row (found : Option QueuedItem)
  | rows (all : List QueuedItem)
  | done

/-- What a call waits for on disk. -/
def Point.op : Point → Option Op
  | reading event _ _ => some (.get event.id)
  | carrying row | queuing row | reviving row => some (.put row)
  | snapshot _ _ | listing _ => some .getAll
  | fetching id => some (.get id)
  | discarding id => some (.delete id)
  | discardingAll ids => ids.head?.map .delete
  | walking flush =>
    match flush.wait with
    | .deleting id => some (.delete id)
    | .checking item => some (.get item.event.id)
    | .rechecking row => some (.get row.event.id)
    | .writing row => some (.put row)
    | .sending _ => none
  | publishing .. | sleeping .. | locking => none

/-- A call in a tab, with the result of its operation once that is done. -/
structure Task (τ : Type) where
  tab : τ
  point : Point
  result : Option Result := none

/-- The module's state in a tab. -/
structure Tab where
  /-- `activeCacheOwner()`. -/
  active : Option JsString := none
  discardedDuringFlush : Option (List JsString) := none

/-- `noteDiscarded(id)`. -/
def Tab.noteDiscarded (tab : Tab) (id : JsString) : Tab :=
  { tab with discardedDuringFlush := tab.discardedDuringFlush.map (id :: ·) }

/-- The first test of `stillQueued(id)`. -/
def Tab.discarded (tab : Tab) (id : JsString) : Bool := tab.discardedDuringFlush.any (id ∈ ·)

abbrev Queue := List (JsString × QueuedItem)

/-- A row handed to `publishSigned`, and the account active in the tab at that moment. -/
structure Sent where
  row : QueuedItem
  active : Option JsString
  deriving DecidableEq

structure World (τ : Type) where
  queue : Queue := []
  tabs : τ → Tab := fun _ => {}
  /-- The call that holds the flush lock. -/
  lock : Option Nat := none
  tasks : Nat → Option (Task τ) := fun _ => none
  /-- What flushes have handed to `publishSigned`, newest first. -/
  sent : List Sent := []

/-- `getAll()`, by key. -/
def getAll (queue : Queue) : List QueuedItem := (queue.insertionSort fun p q => ¬q.1 < p.1).map Prod.snd

/-- An operation on disk: its result and the queue after it. -/
def Op.perform (queue : Queue) : Op → Result × Queue
  | get id => (.row (look id queue), queue)
  | getAll => (.rows (Outbox.getAll queue), queue)
  | put row => (.done, Js.put row.event.id row queue)
  | delete id => (.done, queue.filter (·.1 ≠ id))

/-! ## Going on -/

/-- What a call is told that does not come from disk: the clock, and the outcomes of
`publishSigned`, or its error. -/
structure Answer where
  now : Int
  outcomes : Except JsString (List RelayPublishOutcome)

/-- The loop of `flushQueueSnapshot`, to its next await. -/
def walk (tab : Tab) (active : Option JsString) (now : Int) : List QueuedItem → Option Flush
  | [] => none
  | item :: rest =>
    if item.owner.isNone then some ⟨active, now, .deleting item.event.id, rest⟩
    else if !ownedBy item active || item.failed || !readyToFlush item now || tab.discarded item.event.id then
      walk tab active now rest
    else some ⟨active, now, .checking item, rest⟩

/-- What a flush does next, at the end of its wait. -/
inductive Next
  | continue
  | await (wait : Wait)

/-- The body of the loop after a wait. -/
def Flush.body (flush : Flush) (tab : Tab) (result : Result) (a : Answer) : Next :=
  match flush.wait with
  | .deleting _ | .writing _ => .continue
  | .checking item =>
    match result with
    | .row (some _) => .await (.sending item)
    | _ => .continue
  | .sending item =>
    match a.outcomes with
    | .ok outcomes =>
      let missing := stillMissing outcomes
      if missing.isEmpty then .await (.deleting item.event.id)
      else if tab.discarded item.event.id then .continue
      else .await (.rechecking (narrowed item missing flush.now))
    | .error e =>
      if item.attempts + 1 ≥ maxFlushAttempts ∧ item.isPartial then .await (.deleting item.event.id)
      else if tab.discarded item.event.id then .continue
      else .await (.rechecking (retried item e flush.now))
  | .rechecking row =>
    match result with
    | .row (some _) =>
      if row.isPartial ∧ row.attempts ≥ maxFlushAttempts then .await (.deleting row.event.id) else .await (.writing row)
    | _ => .continue

/-- What a call leaves of the state in its tab and of the lock, and where it waits next. -/
structure Gone where
  tab : Tab
  lock : Option Nat
  next : Option Point
  sent : Option Sent := none

/-- A flush in its loop, or at the end of it. -/
def Gone.flush (tab : Tab) (lock : Option Nat) (flush : Option Flush) : Gone :=
  match flush with
  | some flush => ⟨tab, lock, some (.walking flush), none⟩
  | none => ⟨{ tab with discardedDuringFlush := none }, none, none, none⟩

/-- What a flush that comes to this wait hands to `publishSigned`. -/
def Wait.sends (active : Option JsString) : Wait → Option Sent
  | sending item => some ⟨item, active⟩
  | _ => none

/-- From the point where the call `k` waits to the next. -/
def Point.goOn (k : Nat) (tab : Tab) (lock : Option Nat) (point : Point) (result : Result) (a : Answer) : Gone :=
  match point with
  | publishing event relays owner attempt =>
    match a.outcomes with
    | .ok outcomes =>
      let missing := stillMissing outcomes
      ⟨tab, lock, if missing.isEmpty then none else some (reading event missing owner), none⟩
    | .error _ =>
      ⟨tab, lock, some (if attempt ≥ publishBackoffs then queuing (fullRow event relays owner a.now)
        else sleeping event relays owner attempt), none⟩
  | sleeping event relays owner attempt => ⟨tab, lock, some (publishing event relays owner (attempt + 1)), none⟩
  | reading event missing owner =>
    match result with
    | .row existing =>
      ⟨tab, lock, if existing.any (!·.isPartial) then none else some (carrying (partialRow existing event missing owner a.now)), none⟩
    | _ => ⟨tab, lock, none, none⟩
  | carrying _ | queuing _ | discarding _ => ⟨tab, lock, none, none⟩
  | locking =>
    match lock with
    | some _ => ⟨tab, lock, none, none⟩
    | none => ⟨{ tab with discardedDuringFlush := some [] }, some k, some (snapshot tab.active a.now), none⟩
  | snapshot active now =>
    match result with
    | .rows all => .flush tab lock (walk tab active now (all.insertionSort fun p q => p.queuedAt ≤ q.queuedAt))
    | _ => .flush tab lock none
  | walking flush =>
    match flush.body tab result a with
    | .continue => .flush tab lock (walk tab flush.active flush.now flush.rest)
    | .await wait => ⟨tab, lock, some (walking { flush with wait := wait }), wait.sends tab.active⟩
  | fetching _ =>
    match result with
    | .row (some item) => ⟨tab, lock, some (if item.failed then reviving (revived item) else locking), none⟩
    | _ => ⟨tab, lock, some locking, none⟩
  | reviving _ => ⟨tab, lock, some locking, none⟩
  | listing owner =>
    match result with
    | .rows all =>
      let mine := (all.filter (·.owner = some owner)).map (·.event.id)
      ⟨mine.foldl Tab.noteDiscarded tab, lock, if mine.isEmpty then none else some (discardingAll mine), none⟩
    | _ => ⟨tab, lock, none, none⟩
  | discardingAll ids => ⟨tab, lock, if ids.tail.isEmpty then none else some (discardingAll ids.tail), none⟩

/-! ## Steps -/

inductive Call
  | publishOrQueue (event : Event) (relays : Option (List JsString)) (online : Bool) (now : Int)
  | flushQueue
  | retryFailed (id : JsString)
  | discardQueued (id : JsString)
  | discardQueuedForOwner (owner : JsString)

/-- What a call does to its tab before its first await, and where that is. -/
def Call.start (tab : Tab) : Call → Tab × Point
  | publishOrQueue event relays online now =>
    let owner := tab.active.getD event.pubkey
    (tab, if online then .publishing event relays owner 0 else .queuing (fullRow event relays owner now))
  | flushQueue => (tab, .locking)
  | retryFailed id => (tab, .fetching id)
  | discardQueued id => (tab.noteDiscarded id, .discarding id)
  | discardQueuedForOwner owner => (tab, .listing owner)

inductive Act (τ : Type)
  | call (k : Nat) (t : τ) (c : Call)
  /-- `setActiveCacheOwner(pubkey)`. -/
  | signIn (t : τ) (pubkey : Option JsString)
  /-- The operation that a call waits for is done on disk. -/
  | commit (k : Nat)
  /-- A call goes on. -/
  | resume (k : Nat) (a : Answer)

variable {τ : Type} [DecidableEq τ]

def act (w : World τ) : Act τ → Option (World τ)
  | .call k t c =>
    if (w.tasks k).isSome then none
    else
      let (tab, point) := c.start (w.tabs t)
      some { w with tabs := Function.update w.tabs t tab, tasks := Function.update w.tasks k (some { tab := t, point := point }) }
  | .signIn t pubkey => some { w with tabs := Function.update w.tabs t { w.tabs t with active := pubkey } }
  | .commit k => do
    let task ← w.tasks k
    let op ← task.point.op
    if task.result.isSome then none
    else
      let (result, queue) := op.perform w.queue
      some { w with queue := queue, tasks := Function.update w.tasks k (some { task with result := some result }) }
  | .resume k a => do
    let task ← w.tasks k
    if task.point.op.isSome && task.result.isNone then none
    else
      let gone := task.point.goOn k (w.tabs task.tab) w.lock (task.result.getD .done) a
      some { w with
        tabs := Function.update w.tabs task.tab gone.tab
        lock := gone.lock
        tasks := Function.update w.tasks k (gone.next.map fun point => { tab := task.tab, point := point })
        sent := gone.sent.toList ++ w.sent }

def Step (w : World τ) (x : Act τ) (w' : World τ) : Prop := act w x = some w'

set_option linter.unusedSectionVars false

variable {w w' : World τ} {x : Act τ} {k : Nat} {task : Task τ} {tab : Tab} {e : JsString}
  {queue : Queue} {op : Op}

/-! ## Steps -/

/-- The calls of a state, after a step that changed one of them. -/
theorem tasks_update {P : Task τ → Prop} {tasks : Nat → Option (Task τ)} {next : Option (Task τ)}
    (h : ∀ j task, tasks j = some task → P task) (hnext : ∀ task, next = some task → P task) :
    ∀ j task, Function.update tasks k next j = some task → P task := by
  intro j task hj
  by_cases hk : j = k
  · subst hk
    rw [Function.update_self] at hj
    exact hnext task hj
  · rw [Function.update_of_ne hk] at hj
    exact h j task hj

/-- What a call goes on with: the result of its operation, if it waited for one. -/
def Task.Settled (task : Task τ) : Prop := task.point.op.isSome → task.result.isSome

/-- What the call `k` does when it goes on. -/
def World.gone (w : World τ) (k : Nat) (task : Task τ) (a : Answer) : Gone :=
  task.point.goOn k (w.tabs task.tab) w.lock (task.result.getD .done) a

theorem Step.of_commit (h : Step w (.commit k) w') : ∃ task op, w.tasks k = some task ∧ task.point.op = some op ∧
    task.result = none ∧ w' = { w with
      queue := (op.perform w.queue).2
      tasks := Function.update w.tasks k (some { task with result := some (op.perform w.queue).1 }) } := by
  obtain ⟨task, htask, h⟩ := Option.bind_eq_some_iff.1 h
  obtain ⟨op, hop, h⟩ := Option.bind_eq_some_iff.1 h
  split at h
  · cases h
  next hresult =>
    cases h
    exact ⟨task, op, htask, hop, by simpa using hresult, rfl⟩

theorem Step.of_resume {a : Answer} (h : Step w (.resume k a) w') : ∃ task, w.tasks k = some task ∧ task.Settled ∧
    w' = { w with
      tabs := Function.update w.tabs task.tab (w.gone k task a).tab
      lock := (w.gone k task a).lock
      tasks := Function.update w.tasks k ((w.gone k task a).next.map fun point => { tab := task.tab, point := point })
      sent := (w.gone k task a).sent.toList ++ w.sent } := by
  obtain ⟨task, htask, h⟩ := Option.bind_eq_some_iff.1 h
  split at h
  · cases h
  next hwait =>
    cases h
    refine ⟨task, htask, fun hop => ?_, rfl⟩
    cases hresult : task.result with
    | none => exact absurd (by simp [hop, hresult]) hwait
    | some result => rfl

theorem Step.of_call {t : τ} {c : Call} (h : Step w (.call k t c) w') : w.tasks k = none ∧
    w' = { w with
      tabs := Function.update w.tabs t (c.start (w.tabs t)).1
      tasks := Function.update w.tasks k (some { tab := t, point := (c.start (w.tabs t)).2 }) } := by
  simp only [Step, act] at h
  split at h
  · cases h
  next hfree =>
    cases h
    exact ⟨by simpa using hfree, rfl⟩

/-- A property of the calls that each step keeps. -/
theorem Step.tasks {P : Task τ → Prop} (h : Step w x w') (hw : ∀ k task, w.tasks k = some task → P task)
    (hcall : ∀ k t c, x = .call k t c → P { tab := t, point := (c.start (w.tabs t)).2 })
    (hcommit : ∀ k task op, x = .commit k → w.tasks k = some task → task.point.op = some op → task.result = none →
      P { task with result := some (op.perform w.queue).1 })
    (hresume : ∀ k a task point, x = .resume k a → w.tasks k = some task → task.Settled →
      (w.gone k task a).next = some point → P { tab := task.tab, point := point }) :
    ∀ k task, w'.tasks k = some task → P task := by
  cases x with
  | call k t c =>
    obtain ⟨-, rfl⟩ := h.of_call
    exact tasks_update hw fun _ he => Option.some.inj he ▸ hcall k t c rfl
  | signIn t pubkey =>
    cases h
    exact hw
  | commit k =>
    obtain ⟨task, op, htask, hop, hresult, rfl⟩ := h.of_commit
    exact tasks_update hw fun _ he => Option.some.inj he ▸ hcommit k task op rfl htask hop hresult
  | resume k a =>
    obtain ⟨task, htask, hsettled, rfl⟩ := h.of_resume
    refine tasks_update hw fun _ he => ?_
    obtain ⟨point, hpoint, rfl⟩ := Option.map_eq_some_iff.1 he
    exact hresume k a task point rfl htask hsettled hpoint

/-- Only an operation on disk changes the rows. -/
theorem Step.rows (h : Step w x w') : w'.queue = w.queue ∨ ∃ k task op, x = .commit k ∧ w.tasks k = some task ∧
    task.point.op = some op ∧ task.result = none ∧ w'.queue = (op.perform w.queue).2 := by
  cases x with
  | call k t c =>
    obtain ⟨-, rfl⟩ := h.of_call
    exact .inl rfl
  | signIn t pubkey =>
    cases h
    exact .inl rfl
  | commit k =>
    obtain ⟨task, op, htask, hop, hresult, rfl⟩ := h.of_commit
    exact .inr ⟨k, task, op, rfl, htask, hop, hresult, rfl⟩
  | resume k a =>
    obtain ⟨task, -, -, rfl⟩ := h.of_resume
    exact .inl rfl

/-- A step sends what a call that goes on hands to `publishSigned`. -/
theorem Step.sent (h : Step w x w') : w'.sent = w.sent ∨ ∃ k a task s, x = .resume k a ∧ w.tasks k = some task ∧ task.Settled ∧
    (w.gone k task a).sent = some s ∧ w'.sent = s :: w.sent := by
  cases x with
  | call k t c =>
    obtain ⟨-, rfl⟩ := h.of_call
    exact .inl rfl
  | signIn t pubkey =>
    cases h
    exact .inl rfl
  | commit k =>
    obtain ⟨task, op, htask, hop, hresult, rfl⟩ := h.of_commit
    exact .inl rfl
  | resume k a =>
    obtain ⟨task, htask, hsettled, rfl⟩ := h.of_resume
    cases hs : (w.gone k task a).sent with
    | none => exact .inl rfl
    | some s => exact .inr ⟨k, a, task, s, rfl, htask, hsettled, hs, rfl⟩

/-! ## Rows -/

/-- Each row is filed under the id of its event. -/
def Keyed (queue : Queue) : Prop := ∀ id row, look id queue = some row → row.event.id = id

theorem look_filter {id : JsString} : look e (queue.filter (·.1 ≠ id)) = if e = id then none else look e queue := by
  induction queue with
  | nil => simp [look]
  | cons p queue ih =>
    by_cases hp : p.1 = id
    · rw [List.filter_cons_of_neg (by simpa using hp), ih, look]
      split
      · rfl
      · next he => rw [if_neg fun hpe => he (hpe.symm.trans hp)]
    · rw [List.filter_cons_of_pos (by simpa using hp), look, look, ih]
      split
      · next h => rw [if_neg fun he => hp (h.trans he)]
      · rfl

theorem Keyed.perform (h : Keyed queue) : Keyed (op.perform queue).2 := by
  cases op with
  | get id => exact h
  | getAll => exact h
  | put row =>
    intro id found hfound
    simp only [Op.perform, look_put] at hfound
    split at hfound
    · next hid =>
      cases hfound
      exact hid
    · exact h id found hfound
  | delete id =>
    intro id' found hfound
    simp only [Op.perform, look_filter] at hfound
    split at hfound
    · cases hfound
    · exact h id' found hfound

theorem Keyed.step (hw : Keyed w.queue) (h : Step w x w') : Keyed w'.queue := by
  rcases h.rows with hq | ⟨_, _, _, -, -, -, -, hq⟩
  · exact hq ▸ hw
  · exact hq ▸ hw.perform

end Nostrautica.Outbox
