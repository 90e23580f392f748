/-
The history walk of `coordinator/src/nostr/client.ts`: `fetchAll`, and the `fetch` of each page.

The kind and the keys that a filter asks for are left out: what a relay holds is what it holds for
them. What arrives for a page before `fetch` closes is a list in the order of its arrival.
-/
import Nostrautica.App.PagedReads

namespace Nostrautica.HistoryWalk

open Pending (Filter)

variable {W ι : Type} [DecidableEq ι] (id : W → ι) (created_at : W → Int)

/-- `MAX_FETCH_EVENTS`. -/
def maxFetchEvents : Nat := 5000

/-- `MAX_NO_PROGRESS_PAGES`. -/
def maxNoProgressPages : Nat := 100

/-- `MAX_FETCH_ALL_EVENTS`. -/
def maxFetchAllEvents : Nat := 50000

/-- `MAX_FETCH_ALL_PAGES`. -/
def maxFetchAllPages : Nat := 200

/-- The options of `fetchAll`. -/
structure Opts where
  pageSize : Nat := maxFetchEvents
  overlapSec : Int := 1
  maxTotal : Nat := maxFetchAllEvents
  maxPages : Nat := maxFetchAllPages

/-! ## A page -/

/-- `onevent` of `fetch`, for what arrives until the events are `maxEvents`. -/
def collect (maxEvents : Nat) : List W → List W → List W
  | [], events => events
  | e :: rest, events =>
    if id e ∈ events.map id then collect maxEvents rest events
    else if maxEvents ≤ (events ++ [e]).length then events ++ [e]
    else collect maxEvents rest (events ++ [e])

/-- `fetch(filter, relays, timeoutMs, maxEvents)`. -/
def fetch (arrivals : List W) (maxEvents : Nat) : List W := collect id maxEvents arrivals []

/-- The loop over a page: what has been collected with it, and its oldest `created_at`. It ends where
`maxTotal` events have been collected. -/
def addPage (maxTotal : Nat) : List W → List W → Option Int → List W × Option Int
  | [], all, oldest => (all, oldest)
  | e :: page, all, oldest =>
    let oldest := some (oldest.elim (created_at e) (min (created_at e)))
    if maxTotal ≤ all.length then (all, oldest)
    else addPage maxTotal page (if id e ∈ all.map id then all else all ++ [e]) oldest

/-! ## The walk -/

/-- The variables of `fetchAll` between two pages. -/
structure Walk (W : Type) where
  pages : Nat := 0
  until_ : Option Int
  noProgress : Nat := 0
  all : List W := []

/-- The `break`s. -/
inductive Ended
  | complete
  /-- A page without a timestamp. -/
  | undated
  | ceiling
  | noProgress
  /-- The next `until` is no earlier. -/
  | stuck
  deriving DecidableEq

/-- `nextUntil >= until`. -/
def notEarlier (until_ : Option Int) (nextUntil : Int) : Bool := until_.any (· ≤ nextUntil)

/-- The next `until`, after a page with something new or without. -/
def nextUntil (o : Opts) (until_ : Option Int) (oldest : Int) (added : Nat) : Int :=
  let next := if added = 0 then oldest - 1 else oldest + o.overlapSec
  if notEarlier until_ next then oldest - 1 else next

/-- What `fetchAll` does with a page: the variables after it, and the `break` it takes. -/
def afterPage (o : Opts) (s : Walk W) (page : List W) : Walk W × Option Ended :=
  let (all, oldest) := addPage id created_at o.maxTotal page s.all none
  let added := all.length - s.all.length
  let t : Walk W := { s with pages := s.pages + 1, all := all }
  if page.length = 0 then (t, some .complete)
  else if page.length < o.pageSize ∧ added = 0 then (t, some .complete)
  else match oldest with
    | none => (t, some .undated)
    | some oldest =>
      if o.maxTotal ≤ all.length ∨ o.maxPages ≤ t.pages then (t, some .ceiling)
      else if added = 0 ∧ maxNoProgressPages < s.noProgress + 1 then (t, some .noProgress)
      else
        let next := nextUntil o s.until_ oldest added
        let noProgress := if added = 0 then s.noProgress + 1 else 0
        if notEarlier s.until_ next then ({ t with noProgress := noProgress }, some .stuck)
        else ({ t with until_ := some next, noProgress := noProgress }, none)

section

variable (o : Opts) (filter : Filter) (arrivals : Nat → Filter → List W)

/-- The page at a place of the walk. -/
def pageAt (n : Nat) (until_ : Option Int) : List W :=
  fetch id (arrivals n { filter with until_ := until_, limit := some o.pageSize }) o.pageSize

/-- The loop of `fetchAll`, for so many pages at most, and the `break` it took. -/
def fetchPages : Nat → Walk W → Walk W × Option Ended
  | 0, s => (s, none)
  | fuel + 1, s =>
    match afterPage id created_at o s (pageAt id o filter arrivals s.pages s.until_) with
    | (t, some ended) => (t, some ended)
    | (t, none) => fetchPages fuel t

/-- `fetchAll(filter, relays, opts)`: it reads `maxPages` pages at most, and one at least. -/
def fetchAll : Walk W × Option Ended :=
  fetchPages id created_at o filter arrivals (o.maxPages + 1) { until_ := filter.until_ }

end

end Nostrautica.HistoryWalk
