/-
The paged reads of gift wraps: `readGrantWraps` of `app/src/lib/events/attendee.ts` and
`scanDmGiftWraps` of `app/src/lib/events/dm.ts`, beside `readInboxWraps`, and the relays that
they read.

The kind and the keys that a filter asks for are left out: what a relay holds is what it holds
for them. Which relays are asked, and the owner and the generation of the cached state, are
left out as well.
-/
import Nostrautica.Net.Paging
import Nostrautica.App.InboxScans

namespace Nostrautica.PagedReads

open Paging
open Pending (Filter giftwrapSince day)

variable {W ι : Type} [DecidableEq ι] (id : W → ι) (created_at : W → Int)

/-! ## Relays -/

/-- A relay: the wraps it holds, and its answers to the requests, which are numbered. An answer is
the newest of what matches, up to the limit; which of equal age it leaves out may differ from one
request to the next. -/
structure Relay where
  held : List W
  answer : Nat → Filter → List W
  sound : ∀ {n f w}, w ∈ answer n f → w ∈ held ∧ f.Matches (created_at w)
  within : ∀ {n f limit}, f.limit = some limit → (answer n f).length ≤ limit
  newest : ∀ {n f w}, w ∈ held → f.Matches (created_at w) → w ∉ answer n f →
    f.limit = some (answer n f).length ∧ ∀ v ∈ answer n f, created_at w ≤ created_at v
  nodup : ∀ {n f}, ((answer n f).map id).Nodup

/-- The relays of a read. An id stands for one wrap. -/
structure Relays where
  relays : List (Relay id created_at)
  nonempty : relays ≠ []
  ids : {w | ∃ r ∈ relays, w ∈ r.held}.InjOn id

variable {id created_at}

/-- What any of the relays holds. -/
def Relays.held (rs : Relays id created_at) : Set W := {w | ∃ r ∈ rs.relays, w ∈ r.held}

/-- `fetchEventsRelayOnly(filter, relays)`: the union of the answers, each id once. -/
def Relays.fetch (rs : Relays id created_at) (n : Nat) (f : Filter) : List W :=
  absorb id [] (rs.relays.flatMap (·.answer n f))

/-- What the relays hold that is no older than `since`. -/
def Relays.since (rs : Relays id created_at) (since : Option Int) : Set W :=
  {w | w ∈ rs.held ∧ ∀ t ∈ since, t ≤ created_at w}

instance decidableMatches (f : Filter) (created_at : Int) : Decidable (f.Matches created_at) :=
  inferInstanceAs (Decidable ((∀ t ∈ f.since, t ≤ created_at) ∧ ∀ t ∈ f.until_, created_at ≤ t))

/-- What a cut leaves out of a list sorted from the newest is no newer than what it leaves. -/
theorem newest_take {w : W} : ∀ {l : List W} {limit : Nat}, (l.Pairwise fun v w => created_at w ≤ created_at v) → w ∈ l →
    w ∉ l.take limit → some limit = some (l.take limit).length ∧ ∀ v ∈ l.take limit, created_at w ≤ created_at v
  | [], _, _, h, _ => by cases h
  | v :: l, 0, _, _, _ => by simp
  | v :: l, limit + 1, hl, h, hno => by
    simp only [List.take_succ_cons, List.mem_cons, not_or] at hno
    have hw : w ∈ l := (List.mem_cons.mp h).resolve_left hno.1
    obtain ⟨hlen, hle⟩ := newest_take (List.pairwise_cons.mp hl).2 hw hno.2
    simp only [Option.some.injEq, List.take_succ_cons, List.length_cons, List.mem_cons, forall_eq_or_imp] at hlen ⊢
    exact ⟨congrArg (· + 1) hlen, (List.pairwise_cons.mp hl).1 w hw, hle⟩

/-- A relay that answers every request from a list of its wraps, the newest first. -/
def Relay.ofNewestFirst (id : W → ι) (held : List W) (hnewest : held.Pairwise fun v w => created_at w ≤ created_at v)
    (hids : (held.map id).Nodup) : Relay id created_at where
  held := held
  answer _ f :=
    let found := held.filter fun w => decide (f.Matches (created_at w))
    f.limit.elim found found.take
  sound {n f w} hw := by
    have hfound : w ∈ held.filter fun w => decide (f.Matches (created_at w)) := by
      cases hlimit : f.limit with
      | none => simpa [hlimit] using hw
      | some limit => exact List.mem_of_mem_take (by simpa [hlimit] using hw)
    simpa using hfound
  within {n f limit} hlimit := by simp [hlimit]
  newest {n f w} hw hmatches hno := by
    have hfound : w ∈ held.filter fun w => decide (f.Matches (created_at w)) := by simp [hw, hmatches]
    cases hlimit : f.limit with
    | none => exact absurd hfound (by simpa [hlimit] using hno)
    | some limit =>
      simp only [hlimit, Option.elim_some] at hno ⊢
      exact newest_take (hnewest.filter _) hfound hno
  nodup {n f} := by
    have hfound : ((held.filter fun w => decide (f.Matches (created_at w))).map id).Nodup :=
      hids.sublist (List.filter_sublist.map id)
    cases hlimit : f.limit with
    | none => exact hfound
    | some limit => exact hfound.sublist ((List.take_sublist _ _).map id)

/-! ## Grants -/

/-- `GRANT_PAGE_SIZE`. -/
def grantPageSize : Nat := 500

/-- `GRANT_MAX_PAGES`. -/
def grantMaxPages : Nat := 20

variable (id created_at)

/-- The pages of `readGrantWraps` from the one numbered `page`. -/
def readGrantPages (since : Int) (fetch : Nat → Filter → List W) : Nat → Nat → Option Int → List W → List W × Bool
  | 0, _, _, wraps => (wraps, false)
  | fuel + 1, page, until_, wraps =>
    let batch := fetch page { since := some since, until_ := until_, limit := some grantPageSize }
    let added := absorb id wraps batch
    if batch.length < grantPageSize then (added, true)
    else if added.length = wraps.length ∨ oldest created_at batch = none then (added, false)
    else readGrantPages since fetch fuel (page + 1) (oldest created_at batch) added

/-- `readGrantWraps(pubkey, relays, since)`. -/
def readGrantWraps (since : Int) (fetch : Nat → Filter → List W) : List W × Bool :=
  readGrantPages id created_at since fetch grantMaxPages 0 none []

/-! ## Direct messages -/

/-- `DM_HISTORY_PAGE_LIMIT`. -/
def dmHistoryPageLimit : Nat := 200

/-- `DM_HISTORY_PAGES_PER_SCAN`. -/
def dmHistoryPagesPerScan : Nat := 5

/-- What `streamEvents` gives: the events, and whether every relay has said that there are no more. -/
structure Handle (W : Type) where
  ready : List W
  allAnswered : Bool

/-- The record that `dmScanState` reads. A number in its place is `lastScan`. -/
structure DmScanState where
  lastScan : Option Int := none
  historyUntil : Option Int := none
  historyComplete : Bool := false
  deriving DecidableEq

/-- The next `historyUntil` after a full page. -/
def nextUntil (historyUntil : Option Int) (oldest : Int) : Int :=
  match historyUntil with
  | some u => if oldest ≥ u then u - 1 else oldest
  | none => oldest

/-- The history pages of a scan, from the request of the place: the place they leave, and whether
they came to the end of the history. An id that is set again is set to the same wrap. -/
def historyPages (streamEvents : Nat → Filter → Handle W) : Nat → Place W → Place W × Bool
  | 0, s => (s, false)
  | fuel + 1, s =>
    let handle := streamEvents s.n { until_ := s.bound, limit := some dmHistoryPageLimit }
    let byId := absorb id s.seen handle.ready
    if handle.ready.length < dmHistoryPageLimit then
      if handle.allAnswered then (⟨s.n + 1, none, byId⟩, true) else (⟨s.n + 1, s.bound, byId⟩, false)
    else
      match oldest created_at handle.ready with
      | none => (⟨s.n + 1, s.bound, byId⟩, false)
      | some oldest => historyPages streamEvents fuel ⟨s.n + 1, some (nextUntil s.bound oldest), byId⟩

/-- The bound of the steady read. -/
def recentSince (now : Int) (lastScan : Option Int) : Int :=
  match lastScan with
  | none => giftwrapSince now
  | some lastScan => min (giftwrapSince now) (lastScan - day)

/-- What the scan has by id before its history pages. -/
def recentById (streamEvents : Nat → Filter → Handle W) (now : Int) (history : Bool) (state : DmScanState) : List W :=
  if state.lastScan ≠ none ∨ history = false then
    absorb id [] (streamEvents 0 { since := some (recentSince now state.lastScan) }).ready
  else []

/-- The history pages of a scan, where it reads any, from what it has before them. -/
def scanHistory (streamEvents : Nat → Filter → Handle W) (history : Bool) (state : DmScanState) (byId : List W) : Place W × Bool :=
  if history ∧ ¬state.historyComplete then
    historyPages id created_at streamEvents dmHistoryPagesPerScan ⟨1, state.historyUntil, byId⟩
  else (⟨1, state.historyUntil, byId⟩, state.historyComplete)

/-- `scanDmGiftWraps(me, { history })` at the time `now`: the wraps, and the record it leaves. -/
def scanDmGiftWraps (streamEvents : Nat → Filter → Handle W) (now : Int) (history : Bool) (state : DmScanState) :
    List W × DmScanState :=
  let (s, historyComplete) := scanHistory id created_at streamEvents history state
    (recentById id streamEvents now history state)
  (s.seen, ⟨some now, if historyComplete then none else s.bound, historyComplete⟩)

/-! ## Scans -/

/-- One scan: its clock and its option, the number of its first request, and the requests that
every relay is known to have answered. -/
structure DmScan where
  now : Int
  history : Bool
  first : Nat
  allAnswered : Nat → Bool

/-- A device: its record, what its history pages have had, and what its scans have returned. -/
structure DmWorld (W : Type) where
  saved : DmScanState := {}
  walked : List W := []
  returned : List W := []

variable {id created_at}

/-- `streamEvents` over the relays, in one scan. -/
def Relays.stream (rs : Relays id created_at) (scan : DmScan) (n : Nat) (f : Filter) : Handle W :=
  ⟨rs.fetch (scan.first + n) f, scan.allAnswered n⟩

/-- A device after a scan. -/
def DmWorld.scan (rs : Relays id created_at) (s : DmWorld W) (scan : DmScan) : DmWorld W :=
  let (wraps, saved) := scanDmGiftWraps id created_at (rs.stream scan) scan.now scan.history s.saved
  { saved := saved
    walked := (scanHistory id created_at (rs.stream scan) scan.history s.saved s.walked).1.seen
    returned := s.returned ++ wraps }

def DmStep (rs : Relays id created_at) (s : DmWorld W) (scan : DmScan) (t : DmWorld W) : Prop := t = s.scan rs scan

end Nostrautica.PagedReads
