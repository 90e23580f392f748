/-
The organizer's pending queue: `readInboxWraps` and `fetchPending` of
`app/src/lib/events/organizer.ts`, over `protocol/src/ordering.ts`.

What opens a wrap and what parses the content and the tags of a rumor are parameters. The
cached copy of the returned queue, which no scan reads, is left out.
-/
import Nostrautica.Js.Map
import Nostrautica.Coordinator.Inbound
import Nostrautica.Coordinator.Submissions

namespace Nostrautica.Pending

open Js Submissions

/-- What `supersedes` compares. -/
structure Stamp where
  id : JsString
  created_at : Int
  deriving DecidableEq

/-- `supersedes(candidate, current)`. -/
def supersedes (candidate current : Stamp) : Bool :=
  if candidate.created_at ≠ current.created_at then candidate.created_at > current.created_at
  else candidate.id < current.id

/-! ## Rumors -/

/-- A rumor as its author sealed it. -/
structure Rumor where
  kind : Nat
  pubkey : JsString
  id : JsString
  created_at : Int
  content : JsString
  tags : List (List JsString)
  deriving DecidableEq

def Rumor.stamp (r : Rumor) : Stamp := ⟨r.id, r.created_at⟩

structure JoinRequestContent where
  name : JsString
  message : JsString
  rsvp_public : Bool

structure WithdrawalContent where
  a : JsString
  delete_data : Option Bool

def kindJoinRequest : Nat := 21600

def kindAttendeeWithdrawal : Nat := 21610

/-- The wraps `W`, the inbox secrets `Sk`, the invite proofs `V` and the membership claims `M`. -/
structure Deps (W Sk V M : Type) where
  wrapId : W → JsString
  wrapCreatedAt : W → Int
  /-- The authenticated rumor of `unwrapRumorEnvelope`, but for the check of its kind. -/
  unwrap : W → Sk → Option Rumor
  parseJoin : JsString → Option JoinRequestContent
  parseWithdrawal : JsString → Option WithdrawalContent
  parseSubmission : JsString → Option ProfileSubmission
  parseInviteTag : List (List JsString) → Option V
  parseMemberOfTags : List (List JsString) → List M

variable {W Sk V M : Type}

/-- `unwrapRumor(wrap, sk, EVENT_INBOX_RUMOR_KINDS)` at the time `now`. -/
def unwrapRumor (d : Deps W Sk V M) (wrap : W) (sk : Sk) (now : Int) : Option Rumor :=
  ((d.unwrap wrap sk).filter (·.kind ∈ Inbound.eventInboxRumorKinds)).map fun rumor =>
    { rumor with created_at := rumorEffectiveCreatedAt rumor.created_at now }

/-- `unwrapAny(wrap)`. -/
def unwrapAny (d : Deps W Sk V M) (inboxSks : List Sk) (wrap : W) (now : Int) : Option Rumor :=
  inboxSks.findSome? fun sk => unwrapRumor d wrap sk now

/-! ## Winners -/

structure PendingRequest (V M : Type) where
  attendeePubkey : JsString
  name : JsString
  message : JsString
  rsvpPublic : Bool
  profile : Option AttendeeProfile := none
  media : Option (List MediaDescriptor) := none
  introText : Option JsString := none
  invite : Option V := none
  memberOf : List M := []
  rumorCreatedAt : Int
  withdrawn : Bool := false
  withdrawalRequestedPurge : Option Bool := none

structure PendingSubmission where
  key : RevisionKey
  profile : AttendeeProfile
  media : List MediaDescriptor
  introText : Option JsString

structure PendingWithdrawal where
  id : JsString
  created_at : Int
  deleteData : Bool

/-- The winners of the scans so far, by attendee. -/
structure Winners (V M : Type) where
  joins : JsMap JsString (PendingRequest V M) := .empty
  joinIds : JsMap JsString JsString := .empty
  subs : JsMap JsString PendingSubmission := .empty
  withdrawals : JsMap JsString PendingWithdrawal := .empty

/-- `PendingScanState`. -/
structure PendingScanState (V M : Type) extends Winners V M where
  cursor : Option Int := none

/-- The request of a join. -/
def request (d : Deps W Sk V M) (rumor : Rumor) (content : JoinRequestContent) : PendingRequest V M :=
  { attendeePubkey := rumor.pubkey
    name := content.name
    message := content.message
    rsvpPublic := content.rsvp_public
    invite := d.parseInviteTag rumor.tags
    memberOf := d.parseMemberOfTags rumor.tags
    rumorCreatedAt := rumor.created_at }

/-- A join is folded in. -/
def Winners.join (d : Deps W Sk V M) (s : Winners V M) (rumor : Rumor) (content : JoinRequestContent) : Winners V M :=
  let wins := (s.joins.get? rumor.pubkey).all fun prev =>
    supersedes rumor.stamp ⟨(s.joinIds.get? rumor.pubkey).getD [], prev.rumorCreatedAt⟩
  if wins then
    { s with
      joins := s.joins.set rumor.pubkey (request d rumor content)
      joinIds := s.joinIds.set rumor.pubkey rumor.id }
  else s

/-- A withdrawal. -/
def Winners.withdraw (s : Winners V M) (rumor : Rumor) (parsed : WithdrawalContent) : Winners V M :=
  let wins := (s.withdrawals.get? rumor.pubkey).all fun prev => supersedes rumor.stamp ⟨prev.id, prev.created_at⟩
  if wins then
    { s with withdrawals := s.withdrawals.set rumor.pubkey ⟨rumor.id, rumor.created_at, parsed.delete_data.getD true⟩ }
  else s

/-- A profile submission. -/
def Winners.submit (s : Winners V M) (rumor : Rumor) (parsed : ProfileSubmission) : Winners V M :=
  let candidate : RevisionKey := ⟨parsed.rev, rumor.created_at, rumor.id⟩
  let wins := (s.subs.get? rumor.pubkey).all fun prev => revisionSupersedes candidate prev.key
  if wins then
    { s with subs := s.subs.set rumor.pubkey ⟨candidate, parsed.profile, parsed.media, parsed.intro_text⟩ }
  else s

/-- One rumor of the loop over the wraps. -/
def Winners.fold (d : Deps W Sk V M) (coordinate : JsString) (s : Winners V M) (rumor : Rumor) : Winners V M :=
  if rumor.kind = kindJoinRequest then
    match d.parseJoin rumor.content with
    | some content => s.join d rumor content
    | none => s
  else if rumor.kind = kindAttendeeWithdrawal then
    match d.parseWithdrawal rumor.content with
    | some parsed => if parsed.a ≠ coordinate then s else s.withdraw rumor parsed
    | none => s
  else if rumor.kind = Inbound.kindProfileSubmission then
    match d.parseSubmission rumor.content with
    | some parsed => s.submit rumor parsed
    | none => s
  else s

/-! ## The queue -/

/-- A loop over the entries of a map that updates another one at the same keys. -/
def updateAll {ν μ : Type} (f : JsString → ν → Option μ → Option μ) (entries : List (JsString × ν)) (m : JsMap JsString μ) :
    JsMap JsString μ :=
  entries.foldl (fun m p => match f p.1 p.2 (m.get? p.1) with
    | some v => m.set p.1 v
    | none => m) m

/-- A submission on its request. -/
def foldSubmission (_ : JsString) (sub : PendingSubmission) (req : Option (PendingRequest V M)) : Option (PendingRequest V M) :=
  req.map fun req => { req with profile := some sub.profile, media := some sub.media, introText := sub.introText }

/-- A withdrawal on its request, or on one made for it. -/
def foldWithdrawal (joinRumorId : JsString → Option JsString) (pubkey : JsString) (w : PendingWithdrawal)
    (req : Option (PendingRequest V M)) : Option (PendingRequest V M) :=
  match req with
  | none => some
      { attendeePubkey := pubkey
        name := []
        message := []
        rsvpPublic := false
        rumorCreatedAt := w.created_at
        withdrawn := true
        withdrawalRequestedPurge := some w.deleteData }
  | some req =>
    if supersedes ⟨w.id, w.created_at⟩ ⟨(joinRumorId pubkey).getD [], req.rumorCreatedAt⟩ then
      some { req with withdrawn := true, withdrawalRequestedPurge := some w.deleteData }
    else none

/-- `byAttendee` at the end. -/
def Winners.byAttendee (s : Winners V M) : JsMap JsString (PendingRequest V M) :=
  updateAll (foldWithdrawal s.joinIds.get?) s.withdrawals.entries (updateAll foldSubmission s.subs.entries s.joins)

/-- `idOf(pk)`. -/
def Winners.idOf (s : Winners V M) (pk : JsString) : JsString :=
  ((s.joinIds.get? pk).or ((s.withdrawals.get? pk).map (·.id))).getD []

/-- The comparison of the final sort finds `a` no later than `b`. -/
def Winners.before (s : Winners V M) (a b : PendingRequest V M) : Prop :=
  a.rumorCreatedAt < b.rumorCreatedAt ∨
    a.rumorCreatedAt = b.rumorCreatedAt ∧ ¬s.idOf b.attendeePubkey < s.idOf a.attendeePubkey

instance (s : Winners V M) : DecidableRel s.before := fun _ _ => inferInstanceAs (Decidable (_ ∨ _))

/-- The requests, oldest first. -/
def Winners.queue (s : Winners V M) : List (PendingRequest V M) := s.byAttendee.values.insertionSort s.before

/-! ## Scans -/

/-- What is the same in all scans. -/
structure Context (W Sk V M : Type) where
  deps : Deps W Sk V M
  coordinate : JsString
  inboxSks : List Sk

/-- The loop over the wraps, each with the clock at its unwrapping. -/
def foldWraps (c : Context W Sk V M) (s : Winners V M) (wraps : List (W × Int)) : Winners V M :=
  (wraps.filterMap fun p => unwrapAny c.deps c.inboxSks p.1 p.2).foldl (Winners.fold c.deps c.coordinate) s

/-- One call of `fetchPending`: its clock at the start, and what `readInboxWraps` returned. -/
structure Scan (W : Type) where
  scanStartedAt : Int
  wraps : List (W × Int)
  complete : Bool

/-- The cached scan state, under the `at` of its write. -/
abbrev Cached (V M : Type) := Option (Int × PendingScanState V M)

/-- The winners of a cached state. -/
def winnersOf (cached : Cached V M) : Winners V M := (cached.map fun p => p.2.toWinners).getD {}

/-- The state that a scan writes. -/
def nextState (c : Context W Sk V M) (cached : Cached V M) (scan : Scan W) : PendingScanState V M :=
  { foldWraps c (winnersOf cached) scan.wraps with
    cursor := if scan.complete then some scan.scanStartedAt else cached.bind (·.2.cursor) }

/-- `cacheSet(pendingStateKey, nextState, scanStartedAt, cacheOwner, gen)`: a later state stays. -/
def cacheState (cached : Cached V M) (stamp : Int) (state : PendingScanState V M) : Cached V M :=
  if cached.any (·.1 > stamp) then cached else some (stamp, state)

/-- `fetchPending(ctx, keys)` of a signed-in account: the queue, and the cache after it. -/
def fetchPending (c : Context W Sk V M) (cached : Cached V M) (scan : Scan W) : List (PendingRequest V M) × Cached V M :=
  let state := nextState c cached scan
  (state.queue, cacheState cached scan.scanStartedAt state)

/-! ## Reading -/

/-- `PENDING_PAGE_SIZE`. -/
def pendingPageSize : Nat := 500

/-- `PENDING_MAX_PAGES`. -/
def pendingMaxPages : Nat := 20

/-- `GIFTWRAP_MAX_BACKDATE_SEC`. -/
def giftwrapMaxBackdateSec : Int := 2 * 24 * 60 * 60

def day : Int := 24 * 60 * 60

/-- `giftwrapSince(nowSec)`. -/
def giftwrapSince (nowSec : Int) : Int := nowSec - giftwrapMaxBackdateSec - day

/-- The filters of `readInboxWraps`, but for the kind and the inboxes. -/
structure Filter where
  since : Option Int := none
  until_ : Option Int := none
  limit : Option Nat := none

/-- The oldest `created_at` of a batch. -/
def oldest (d : Deps W Sk V M) (batch : List W) : Option Int := (batch.map d.wrapCreatedAt).min?

/-- The pages of a first read from the one numbered `page`: `fetch` is `fetchEventsRelayOnly`. -/
def readPages (d : Deps W Sk V M) (fetch : Nat → Filter → List W) : Nat → Nat → Option Int → List W → List W × Bool
  | 0, _, _, wraps => (wraps, false)
  | fuel + 1, page, until_, wraps =>
    let batch := fetch page { until_ := until_, limit := some pendingPageSize }
    let added := batch.foldl (fun wraps w => if d.wrapId w ∈ wraps.map d.wrapId then wraps else wraps ++ [w]) wraps
    if batch.length < pendingPageSize then (added, true)
    else if added.length = wraps.length then (added, false)
    else readPages d fetch fuel (page + 1) (oldest d batch) added

/-- The bound of a read with a cursor. -/
def sinceOf (now cursor : Int) : Int := min (giftwrapSince now) (cursor - giftwrapMaxBackdateSec - day)

/-- `readInboxWraps(ctx, inboxPubkeys, cursor)` at the time `now`. -/
def readInboxWraps (d : Deps W Sk V M) (now : Int) (cursor : Option Int) (fetch : Nat → Filter → List W) : List W × Bool :=
  match cursor with
  | some cursor => (fetch 0 { since := some (sinceOf now cursor) }, true)
  | none => readPages d fetch pendingMaxPages 0 none []

end Nostrautica.Pending
