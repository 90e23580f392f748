/-
The 31610 of one talk in `coordinator/src/coordinator.ts`: `talk_publish` and
`talk_reject` (`publishTalk`, `rejectTalk`), the refresh by `process_talk`, the
republish of a key rotation (`revokeAttendee`) and the retention expiry
(`expireRetention`), over the talk's row (`db.ts`).

The address of a 31610 is that of the key version it is encrypted under, so
versions stand for addresses. The rotation and the expiry go through the other
talks too, whose awaits are part of the waits here.
-/
import Nostrautica.Transition.Run
import Nostrautica.Transition.Tasks

namespace Nostrautica.Talks

open Tasks

inductive Status
  | pending
  | published
  | rejected
deriving DecidableEq

/-- The row of `talks`. -/
structure TalkRow where
  status : Status
  published_eck_id : Option Nat

/-- The row and the key version in use; and what was published and deleted. -/
structure Store where
  row : Option TalkRow
  /-- `this.currentEck(state).id`; versions count up from 1. -/
  currentEck : Nat
  /-- `everPublished`, which is recorded when an event is built. -/
  everPublished : Nat → Bool
  /-- The members of the event are purged. -/
  purged : Bool
  /-- The addresses published and not named in a later deletion. -/
  up : Nat → Bool
  /-- The versions published, the newest first. -/
  stored : List Nat
  /-- The talk was rejected or the event expired, and no command has published
  the talk since. -/
  gone : Bool

inductive Effect
  /-- A 31610 is built. -/
  | built (v : Nat)
  /-- The relays store it. -/
  | stored (v : Nat)
  /-- `setTalkStatus` of a publish. -/
  | setPublished
  /-- `setTalkStatus` of a rejection. -/
  | setRejected
  /-- The relays store a NIP-09 deletion. -/
  | deleted (vs : List Nat)
  /-- `purgeEventArtifacts`. -/
  | purge
  /-- `talk_publish` comes to a talk there is. -/
  | commanded

namespace Store

/-- No talk yet, under the first key version. -/
def start : Store where
  row := none
  currentEck := 1
  everPublished _ := false
  purged := false
  up _ := false
  stored := []
  gone := false

def apply (s : Store) : Effect → Store
  | .built v => { s with everPublished := Function.update s.everPublished v true }
  | .stored v => { s with up := Function.update s.up v true, stored := v :: s.stored }
  | .setPublished => { s with row := s.row.map fun _ => ⟨.published, some s.currentEck⟩ }
  | .setRejected => { s with row := s.row.map fun row => { row with status := .rejected }, gone := true }
  | .deleted vs => { s with up := fun v => s.up v && !vs.contains v }
  | .purge => { s with row := none, purged := true, gone := true }
  | .commanded => { s with gone := false }

/-- `upsertTalk` of a submission it applies. -/
def submitted (s : Store) : Store :=
  { s with row := some ⟨.pending, s.row.bind (·.published_eck_id)⟩ }

/-- The newest 31610 that is live. -/
def newestLive (s : Store) : Option Nat := s.stored.find? s.up

/-- The addresses an expiry deletes: those published, or all where none is on record. -/
def expiredAddresses (s : Store) : List Nat :=
  let ds := (List.range s.currentEck).map (· + 1)
  let published := ds.filter s.everPublished
  match s.row with
  | some ⟨.published, _⟩ => if published = [] then ds else published
  | _ => []

end Store

inductive Command
  | publish
  | reject

/-- Where a task waits. -/
inductive Pc
  /-- A command, for the talk's lock. -/
  | ordered (cmd : Command)
  /-- `await this.publish(event, ...)` of `publishTalk`, for a command. -/
  | publishing (v : Nat)
  /-- The same for `process_talk`. -/
  | refreshing (v : Nat)
  /-- The deletion of `rejectTalk`. -/
  | rejecting (v : Nat)
  /-- `revokeAttendee`, before it looks at the talks. -/
  | rotating
  /-- The talks before this one; `published_eck_id` is of the row as listed. -/
  | turn (listed : Option Nat)
  /-- `publishTalk` of the rotation. -/
  | republishing (listed : Option Nat) (v : Nat)
  /-- The deletion of the address before the rotation. -/
  | cleaning (v : Nat)
  /-- The deletion of `expireRetention`. -/
  | expiring (vs : List Nat)

/-- What becomes of a publish. -/
inductive Outcome
  | stored
  | lost
  /-- Stored, and reported failed. -/
  | ambiguous

/-- What a task does: its effects, and where it waits next. -/
abbrev Result := List Effect × Option Pc

/-- `publishTalk`, up to its await; `pc` is where it waits then, and `done` what
the caller does where there is no talk. -/
def publishTalk (s : Store) (pc : Nat → Pc) (done : Result) : Result :=
  if s.row.isSome then ([.built s.currentEck], some (pc s.currentEck)) else done

/-- A publish of version `v` settles. -/
def published (v : Nat) (o : Outcome) (next : Result) : Result :=
  match o with
  | .stored => (.stored v :: .setPublished :: next.1, next.2)
  | .lost => ([], none)
  | .ambiguous => ([.stored v], none)

/-- A deletion of the addresses `vs` settles. -/
def deleted (vs : List Nat) (o : Outcome) (next : List Effect) : Result :=
  match o with
  | .stored => (.deleted vs :: next, none)
  | .lost => ([], none)
  | .ambiguous => ([.deleted vs], none)

/-- `rejectTalk`, up to its await. -/
def rejectTalk (s : Store) : Result :=
  match s.row with
  | none => ([], none)
  | some row =>
    if row.status = .published then ([], some (.rejecting (row.published_eck_id.getD s.currentEck))) else ([.setRejected], none)

/-- After `publishTalk`, the rotation deletes the address the row had when listed. -/
def cleanUp (s : Store) (listed : Option Nat) : Result :=
  match listed with
  | some v => if v ≠ s.currentEck then ([], some (.cleaning v)) else ([], none)
  | none => ([], none)

/-- A task goes on; `o` is what became of what it published. -/
def settle (s : Store) (pc : Pc) (o : Outcome) : Result :=
  match pc with
  | .ordered .publish =>
    let r := publishTalk s .publishing ([], none)
    (if s.row.isSome then .commanded :: r.1 else r.1, r.2)
  | .ordered .reject => rejectTalk s
  | .publishing v | .refreshing v => published v o ([], none)
  | .rejecting v => deleted [v] o [.setRejected]
  | .rotating =>
    match o, s.row with
    | .stored, some ⟨.published, listed⟩ => ([], some (.turn listed))
    | _, _ => ([], none)
  | .turn listed => publishTalk s (.republishing listed) (cleanUp s listed)
  | .republishing listed v => published v o (cleanUp s listed)
  | .cleaning v => deleted [v] o []
  | .expiring vs => deleted vs o [.purge]

/-! ## Acts -/

/-- The lock of the talk. -/
def rules : Rules Nat Unit Store Effect Pc where
  apply := Store.apply
  held
    | _, .publishing _ | _, .rejecting _ => some ()
    | _, _ => none
  wanted
    | _, .ordered _ => some ()
    | _, _ => none

/-- The store, and the tasks under way. -/
abbrev World := Tasks.World Nat Unit Store Pc

inductive Act
  /-- A submission or an edit that `upsertTalk` applies. -/
  | submit
  /-- `talk_publish` or `talk_reject`. -/
  | command (k : Nat) (cmd : Command)
  /-- `process_talk` of a published talk has its transcript. -/
  | refresh (k : Nat)
  /-- A revoke mints a key version. -/
  | rotate (k : Nat)
  /-- A revoke goes on with the version it minted before. -/
  | resume (k : Nat)
  /-- `expireRetention` has stopped the event's handlers. -/
  | expire (k : Nat)
  /-- A task goes on. -/
  | settle (k : Nat) (o : Outcome)
  /-- The process ends while every task waits. -/
  | crash
  /-- The process ends after some effects of a task that went on. -/
  | crashDuring (k : Nat) (o : Outcome) (n : Nat)

/-- What a task does next, where its lock is free. -/
def result (w : World) (k : Nat) (o : Outcome) : Option Result :=
  (w.tasks k).bind fun pc => if rules.ready w k pc then some (settle w.store pc o) else none

/-- A task begins, where none has its name. -/
def begin_ (w : World) (k : Nat) (pc : Pc) : Option World := if (w.tasks k).isSome then none else some (w.spawn k pc)

/-- What one act makes of the world; `none` where it cannot happen. -/
def act (w : World) : Act → Option World
  | .submit => if w.store.purged then none else some { w with store := w.store.submitted }
  | .command k cmd => begin_ w k (.ordered cmd)
  | .refresh k =>
    match w.store.row with
    | some ⟨.published, _⟩ =>
      begin_ { w with store := w.store.apply (.built w.store.currentEck) } k (.refreshing w.store.currentEck)
    | _ => none
  | .rotate k => begin_ { w with store := { w.store with currentEck := w.store.currentEck + 1 } } k .rotating
  | .resume k => begin_ w k .rotating
  | .expire k => begin_ w k (.expiring w.store.expiredAddresses)
  | .settle k o => (result w k o).map fun r => rules.advance w k r.1 r.2
  | .crash => some (.fresh w.store)
  | .crashDuring k o n => (result w k o).map fun r => .fresh (rules.run w.store (r.1.take n))

def Step (w : World) (x : Act) (w' : World) : Prop := act w x = some w'

end Nostrautica.Talks
