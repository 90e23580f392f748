/-
Calls of `fetchPending` against relays that answer in part: one account's scans, overlapping or
not, while wraps are sent and the clock goes on.

A call takes the cached state and the clock when it is made; it unwraps what it has read and
writes the next state when the read settles. Each page of a read is answered with any of the
wraps that the relays hold and the filter matches.
-/
import Nostrautica.App.Pending

namespace Nostrautica.Pending

variable {W Sk V M : Type}

/-- `state?.cursor`. -/
def cursorOf (cached : Cached V M) : Option Int := cached.bind (·.2.cursor)

/-- A call whose read is under way. -/
structure Begun (W V M : Type) where
  scanStartedAt : Int
  state : Cached V M
  /-- What the relays held when it was made. -/
  held : List W

structure World (W V M : Type) where
  now : Int
  held : List W := []
  cached : Cached V M := none
  begun : List (Begun W V M) := []
  /-- What the last call to settle returned. -/
  queue : List (PendingRequest V M) := []

inductive Act (W : Type)
  | send (wrap : W)
  | tick (now : Int)
  | call
  | settle (i : Nat) (fetch : Nat → Filter → List W)
  /-- The cached state is evicted. -/
  | forget

/-- What `readInboxWraps` makes of the answers. -/
def Begun.read (c : Context W Sk V M) (b : Begun W V M) (fetch : Nat → Filter → List W) : List W × Bool :=
  readInboxWraps c.deps b.scanStartedAt (cursorOf b.state) fetch

/-- The call's scan, all of it unwrapped at the time `now`. -/
def Begun.scan (c : Context W Sk V M) (b : Begun W V M) (fetch : Nat → Filter → List W) (now : Int) : Scan W :=
  ⟨b.scanStartedAt, (b.read c fetch).1.map (·, now), (b.read c fetch).2⟩

/-- The state that the call writes. -/
def Begun.next (c : Context W Sk V M) (b : Begun W V M) (fetch : Nat → Filter → List W) (now : Int) : PendingScanState V M :=
  nextState c b.state (b.scan c fetch now)

def act (c : Context W Sk V M) (s : World W V M) : Act W → Option (World W V M)
  | .send wrap => some { s with held := s.held ++ [wrap] }
  | .tick now => some { s with now := now }
  | .call => some { s with begun := s.begun ++ [⟨s.now, s.cached, s.held⟩] }
  | .settle i fetch => s.begun[i]?.map fun b =>
    { s with
      cached := cacheState s.cached b.scanStartedAt (b.next c fetch s.now)
      begun := s.begun.eraseIdx i
      queue := (b.next c fetch s.now).queue }
  | .forget => some { s with cached := none }

/-- A relay may answer with the wrap. -/
def Filter.Matches (f : Filter) (created_at : Int) : Prop := (∀ t ∈ f.since, t ≤ created_at) ∧ ∀ t ∈ f.until_, created_at ≤ t

/-- A wrap is dated back no further than the allowance, the clock does not go back, and answers
come from the relays. -/
def Allowed (c : Context W Sk V M) (s : World W V M) : Act W → Prop
  | .send wrap => c.deps.wrapCreatedAt wrap ≤ s.now ∧ s.now - giftwrapMaxBackdateSec ≤ c.deps.wrapCreatedAt wrap
  | .tick now => s.now ≤ now
  | .settle _ fetch => ∀ page f, ∀ w ∈ fetch page f, w ∈ s.held ∧ f.Matches (c.deps.wrapCreatedAt w)
  | .call | .forget => True

def Step (c : Context W Sk V M) (s : World W V M) (a : Act W) (s' : World W V M) : Prop := Allowed c s a ∧ act c s a = some s'

end Nostrautica.Pending
