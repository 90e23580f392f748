/-
The revision of a profile submission: `nextRev`, `claimSubmissionRev`, `cacheSelfCopy` and
`loadSelfCopy` of `app/src/lib/media/submit.ts`, and `submitProfileAndMedia` and the join, which
send it, in the tabs of one browser profile.

A submission is its revision, an integer. Of the self-copy only `rev` is kept; the correction
counter and the other rows of the cache are left out.

When the revisions sent for an event increase (`revisions_increase_iff`): when each submission had
read the revision sent before it, as its tab's high-water mark or on the self-copy it loaded. A
mirror that another tab's mark has not reached, or a mark dropped since the clock stepped back,
sends a revision twice (`stale_mirror_repeats`, `clock_back_repeats`).
-/
import Nostrautica.App.Cache
import Nostrautica.App.MonotonicFacts

namespace Nostrautica.SubmitRevs

open Js Cache

/-- A row of the cache: a self-copy, or the high-water mark. -/
inductive Data
  | selfCopy (rev : Option Int)
  | mark (rev : Int)
  deriving DecidableEq

/-- `selfCopyKey(coordinate)`. -/
def selfCopyKey (coordinate : JsString) : JsString := js "selfcopy:" ++ coordinate

/-- `selfRevKey(coordinate)`. -/
def selfRevKey (coordinate : JsString) : JsString := js "selfrev:" ++ coordinate

/-- `SelfCopyScope`. -/
structure SelfCopyScope where
  owner : Option JsString
  gen : Nat
  deriving DecidableEq

/-- `captureSelfCopyScope()`. -/
def captureSelfCopyScope (tab : Tab Data) : SelfCopyScope := ⟨tab.activeOwner, tab.generation⟩

/-- `scopedGet(scope, key)`. -/
def scopedGet (tab : Tab Data) (scope : SelfCopyScope) (key : JsString) : Option (Entry Data) :=
  scope.owner.bind fun owner => cacheGet tab key (some owner)

/-- `scopedSet(scope, key, data, at)`. -/
def scopedSet (v : Cache.World Data) (scope : SelfCopyScope) (key : JsString) (data : Data) (stamp : Int) : Cache.World Data :=
  match scope.owner with
  | some owner => (Cache.act v (.set key data stamp (some owner) (some scope.gen))).getD v
  | none => v

/-- The high-water mark of an event, or -1. -/
def storedMark (tab : Tab Data) (coordinate : JsString) (scope : SelfCopyScope) : Int :=
  match scopedGet tab scope (selfRevKey coordinate) with
  | some ⟨_, .mark rev⟩ => rev
  | _ => -1

/-- `revFloor(coordinate, observed, scope)`. -/
def revFloor (tab : Tab Data) (coordinate : JsString) (observed : Option Int) (scope : SelfCopyScope) : Int :=
  max (storedMark tab coordinate scope) (observed.getD (-1))

/-- `nextRevFloor(coordinate, rev, scope)`, at the wall clock `now`. -/
def nextRevFloor (v : Cache.World Data) (coordinate : JsString) (rev : Int) (scope : SelfCopyScope) (now : Int) : Cache.World Data :=
  scopedSet v scope (selfRevKey coordinate) (.mark (revFloor v.tab coordinate (some rev) scope)) now

/-- `cacheSelfCopy(coordinate, self, at, scope)`. -/
def cacheSelfCopy (v : Cache.World Data) (coordinate : JsString) (rev : Option Int) (stamp : Int) (scope : SelfCopyScope)
    (now : Int) : Cache.World Data :=
  let v := scopedSet v scope (selfCopyKey coordinate) (.selfCopy rev) stamp
  match rev with
  | some rev => nextRevFloor v coordinate rev scope now
  | none => v

/-- The `rev` of the self-copy in the cache. -/
def cachedRev (tab : Tab Data) (coordinate : JsString) (scope : SelfCopyScope) : Option Int :=
  match scopedGet tab scope (selfCopyKey coordinate) with
  | some ⟨_, .selfCopy rev⟩ => rev
  | _ => none

/-! ## Submissions -/

/-- How far a submission has come. -/
inductive Stage
  /-- In `loadSelfCopy`. -/
  | loading
  /-- With `prevSelf?.rev`. -/
  | loaded (observed : Option Int)
  /-- With a revision past the mark and the self-copy that it read, where it read any. -/
  | claimed (stored : Int) (observed : Option Int)
  | sent
  deriving DecidableEq

structure Call (τ : Type) where
  tab : τ
  coordinate : JsString
  scope : SelfCopyScope
  stage : Stage := .loading
  deriving DecidableEq

/-- Whose submissions for which event. -/
structure Slot where
  owner : Option JsString
  coordinate : JsString
  deriving DecidableEq

def Call.slot {τ : Type} (c : Call τ) : Slot := ⟨c.scope.owner, c.coordinate⟩

variable {τ : Type} [DecidableEq τ]

structure World (τ : Type) where
  pages : τ → Page Data := fun _ => {}
  disk : Rows Data := []
  calls : Nat → Option (Call τ) := fun _ => none
  /-- The submissions sent, in this order. -/
  sent : List (Slot × Int) := []

inductive Act (τ : Type)
  /-- The tab is loaded again: its transactions and its submissions are gone. -/
  | boot (t : τ)
  /-- Something else that the cache of the tab does. -/
  | cache (t : τ) (x : Cache.Act Data)
  /-- A submission begins. -/
  | begin (i : Nat) (t : τ) (coordinate : JsString)
  /-- The relays have answered: with a self-copy's `rev` and `created_at`, or with none that can be read. -/
  | load (i : Nat) (relay : Option (Option Int × Int))
  /-- `loadSelfCopy` has thrown. -/
  | loadFails (i : Nat)
  | claim (i : Nat) (now : Int)
  | send (i : Nat)
  /-- A self-copy was published, after a submission or for a correction. -/
  | cacheSelfCopy (t : τ) (scope : SelfCopyScope) (coordinate : JsString) (rev : Option Int) (stamp now : Int)
  /-- A submission has thrown. -/
  | stop (i : Nat)

/-- The cache of a tab with the disk. -/
def view (w : World τ) (t : τ) : Cache.World Data := { w.pages t with disk := w.disk }

/-- The tabs after the cache of one has come to this. -/
def store (w : World τ) (t : τ) (v : Cache.World Data) : World τ :=
  { w with pages := Function.update w.pages t v.toPage, disk := v.disk }

/-- A submission has come to a stage. -/
def goOn (w : World τ) (i : Nat) (c : Call τ) (stage : Stage) : World τ :=
  { w with calls := Function.update w.calls i (some { c with stage }) }

/-- A write into the cache. -/
def isSet : Cache.Act Data → Bool
  | .set .. => true
  | _ => false

/-- `nextRev` past what a submission has read. -/
def revOf (stored : Int) (observed : Option Int) : Int := max stored (observed.getD (-1)) + 1

def act (w : World τ) : Act τ → Option (World τ)
  | .boot t => some { w with
      pages := Function.update w.pages t {}
      calls := fun i => (w.calls i).filter (·.tab ≠ t) }
  | .cache t x => if isSet x then none else (Cache.act (view w t) x).map (store w t)
  | .begin i t coordinate =>
    if (w.calls i).isSome then none
    else some { w with calls := Function.update w.calls i (some ⟨t, coordinate, captureSelfCopyScope (w.pages t).tab, .loading⟩) }
  | .load i relay =>
    match w.calls i with
    | some c =>
      if c.stage = .loading then
        match relay with
        | some (rev, createdAt) =>
          let v := scopedSet (view w c.tab) c.scope (selfCopyKey c.coordinate) (.selfCopy rev) createdAt
          some (goOn (store w c.tab v) i c (.loaded rev))
        | none => some (goOn w i c (.loaded (cachedRev (w.pages c.tab).tab c.coordinate c.scope)))
      else none
    | none => none
  | .loadFails i =>
    match w.calls i with
    | some c => if c.stage = .loading then some (goOn w i c (.loaded none)) else none
    | none => none
  | .claim i now =>
    match w.calls i with
    | some c =>
      match c.stage with
      | .loaded observed =>
        let stored := storedMark (w.pages c.tab).tab c.coordinate c.scope
        let v := scopedSet (view w c.tab) c.scope (selfRevKey c.coordinate) (.mark (revOf stored observed)) now
        some (goOn (store w c.tab v) i c (.claimed stored observed))
      | _ => none
    | none => none
  | .send i =>
    match w.calls i with
    | some c =>
      match c.stage with
      | .claimed stored observed => some { goOn w i c .sent with sent := w.sent ++ [(c.slot, revOf stored observed)] }
      | _ => none
    | none => none
  | .cacheSelfCopy t scope coordinate rev stamp now =>
    some (store w t (cacheSelfCopy (view w t) coordinate rev stamp scope now))
  | .stop i => some { w with calls := Function.update w.calls i none }

def Step (w : World τ) (x : Act τ) (w' : World τ) : Prop := act w x = some w'

/-- What was sent for a slot, in this order. -/
def revs (w : World τ) (slot : Slot) : List Int := (w.sent.filter (·.1 = slot)).map Prod.snd

/-! ## Revisions -/

open Nostrautica.Monotonic (pairwise_snoc)

section

variable {τ : Type} [DecidableEq τ] {w w' : World τ} {x : Act τ} {slot : Slot} {disk : Rows Data} {acts : List (Act τ)}
  {i j : Nat} {c : Call τ} {stored : Int} {observed : Option Int}

/-- Each submission sent carries a revision past those sent before it for the event. -/
def Increasing (w : World τ) : Prop := ∀ slot, (revs w slot).Pairwise (· < ·)

/-- The submission `i`, where it has claimed its revision. -/
def Claimed (w : World τ) (i : Nat) (c : Call τ) (stored : Int) (observed : Option Int) : Prop :=
  w.calls i = some c ∧ c.stage = .claimed stored observed

/-- Where a submission is sent, the one sent before it was within the mark that it had read, or
within the self-copy that it had loaded. -/
def Seen (w : World τ) : Act τ → Prop
  | .send i => ∀ c stored observed, Claimed w i c stored observed →
    ∀ r ∈ (revs w c.slot).getLast?, r ≤ stored ∨ r ≤ observed.getD (-1)
  | _ => True

/-! ## What a step sends -/

theorem lt_revOf {r : Int} : r < revOf stored observed ↔ r ≤ stored ∨ r ≤ observed.getD (-1) := by
  simp only [revOf]
  omega

/-- A step that sends appends the revision its submission has claimed; the others send nothing. -/
theorem Step.sends (h : Step w x w') :
    (∃ i c stored observed, x = .send i ∧ Claimed w i c stored observed ∧
      w'.sent = w.sent ++ [(c.slot, revOf stored observed)]) ∨ w'.sent = w.sent ∧ ∀ i, x ≠ .send i := by
  cases x with
  | send i =>
    simp only [Step, act] at h
    split at h
    · next c hc =>
      split at h <;> cases h
      next stored observed hs => exact .inl ⟨i, c, stored, observed, rfl, ⟨hc, hs⟩, rfl⟩
    · cases h
  | boot t => cases h; exact .inr ⟨rfl, fun _ h => by cases h⟩
  | cache t x =>
    simp only [Step, act] at h
    split at h
    · cases h
    · obtain ⟨v, -, rfl⟩ := Option.map_eq_some_iff.1 h
      exact .inr ⟨rfl, fun _ h => by cases h⟩
  | begin i t coordinate =>
    simp only [Step, act] at h
    split at h <;> cases h
    exact .inr ⟨rfl, fun _ h => by cases h⟩
  | load i relay =>
    simp only [Step, act] at h
    split at h
    · split at h
      · split at h <;> cases h <;> exact .inr ⟨rfl, fun _ h => by cases h⟩
      · cases h
    · cases h
  | loadFails i =>
    simp only [Step, act] at h
    split at h
    · split at h <;> cases h
      exact .inr ⟨rfl, fun _ h => by cases h⟩
    · cases h
  | claim i now =>
    simp only [Step, act] at h
    split at h
    · split at h <;> cases h
      exact .inr ⟨rfl, fun _ h => by cases h⟩
    · cases h
  | cacheSelfCopy t scope coordinate rev stamp now => cases h; exact .inr ⟨rfl, fun _ h => by cases h⟩
  | stop i => cases h; exact .inr ⟨rfl, fun _ h => by cases h⟩

theorem revs_snoc {s : Slot} {r : Int} (h : w'.sent = w.sent ++ [(s, r)]) :
    revs w' slot = if s = slot then revs w slot ++ [r] else revs w slot := by
  simp only [revs, h, List.filter_append, List.map_append]
  by_cases hs : s = slot <;> simp [hs]

/-- A step keeps the order just when the submission it sends had read the one sent before. -/
theorem Step.increasing_iff (h : Step w x w') : Increasing w' ↔ Increasing w ∧ Seen w x := by
  rcases h.sends with ⟨i, c, stored, observed, rfl, hclaimed, hsent⟩ | ⟨hsent, hother⟩
  · have hseen : Seen w (.send i) ↔ ∀ r ∈ (revs w c.slot).getLast?, r < revOf stored observed := by
      constructor
      · exact fun hs r hr => lt_revOf.2 (hs c stored observed hclaimed r hr)
      · rintro hs c' stored' observed' ⟨hc', hstage'⟩ r hr
        cases hclaimed.1.symm.trans hc'
        cases hclaimed.2.symm.trans hstage'
        exact lt_revOf.1 (hs r hr)
    rw [hseen]
    simp only [Increasing, revs_snoc hsent]
    constructor
    · intro hinc
      have hslot := hinc c.slot
      rw [if_pos rfl, pairwise_snoc] at hslot
      refine ⟨fun s => ?_, hslot.2⟩
      have hs := hinc s
      split at hs
      · exact (pairwise_snoc.1 hs).1
      · exact hs
    · rintro ⟨hinc, hlast⟩ s
      split
      · next hs =>
        subst hs
        exact pairwise_snoc.2 ⟨hinc c.slot, hlast⟩
      · exact hinc s
  · have hrevs : ∀ s, revs w' s = revs w s := fun s => by simp only [revs, hsent]
    simp only [Increasing, hrevs]
    refine (and_iff_left ?_).symm
    cases x with
    | send i => exact absurd rfl (hother i)
    | _ => trivial

/-- **Revisions increase** over a run of any tabs, whatever the clocks and the relays say, just when
each submission that is sent had read the one sent before it. -/
theorem revisions_increase_iff (h : Run Step ({ disk := disk } : World τ) acts w) :
    Increasing w ↔ Run (fun w x w' => Step w x w' ∧ Seen w x) { disk := disk } acts w := by
  have hiff := h.holds_iff (I := fun _ => True) (Q := Increasing) (G := Seen)
    (fun ha hb => Option.some.inj (ha.symm.trans hb)) (fun _ _ => trivial) (fun _ ha => ha.increasing_iff) trivial
  refine hiff.trans (and_iff_right fun slot => ?_)
  exact List.Pairwise.nil

end

/-! ## Three runs -/

namespace Small

def ada : JsString := js "ada"

def camp : JsString := js "camp"

/-- One submission, while no relay answers: at the wall clock `now`. -/
def submit (i : Nat) (t : Bool) (now : Int) : List (Act Bool) :=
  [.begin i t camp, .load i none, .claim i now, .send i]

/-- Its self-copy is published, and written through. -/
def published (t : Bool) (rev now : Int) : Act Bool := .cacheSelfCopy t ⟨some ada, 0⟩ camp (some rev) now now

/-- A tab signs in. -/
def signIn (t : Bool) : Act Bool := .cache t (.signIn (some ada))

/-- One tab submits twice. -/
def twice : List (Act Bool) := signIn false :: submit 0 false 100 ++ submit 1 false 101

end Small

theorem revisions_increase_twice : ∃ w, Run Step ({} : World Bool) Small.twice w ∧ Increasing w ∧
    revs w ⟨some Small.ada, Small.camp⟩ = [0, 1] := by
  have hrun : Run Step ({} : World Bool) Small.twice _ := Run.of_exec rfl
  refine ⟨_, hrun, (revisions_increase_iff hrun).2 (Run.of_guarded rfl ?_), rfl⟩
  refine ⟨trivial, fun _ h => ?_⟩
  cases h
  refine ⟨trivial, fun _ h => ?_⟩
  cases h
  refine ⟨trivial, fun _ h => ?_⟩
  cases h
  refine ⟨trivial, fun _ h => ?_⟩
  cases h
  refine ⟨fun _ _ _ _ _ hr => (by cases hr), fun _ h => ?_⟩
  cases h
  refine ⟨trivial, fun _ h => ?_⟩
  cases h
  refine ⟨trivial, fun _ h => ?_⟩
  cases h
  refine ⟨trivial, fun _ h => ?_⟩
  cases h
  refine ⟨fun c stored observed hclaimed r hr => ?_, fun _ _ => trivial⟩
  obtain ⟨hc, hstage⟩ := hclaimed
  cases hc
  cases hstage
  cases hr
  exact .inl le_rfl

/-- A second tab whose mirror was read before the first one submitted, and to which no relay answers, sends
the same revision: the mark is on disk, not in its mirror. -/
theorem stale_mirror_repeats : ∃ w, Run Step ({} : World Bool)
    ([Small.signIn false, Small.signIn true] ++ Small.submit 0 false 100 ++ [.cache false (.settle true)] ++ Small.submit 1 true 110) w ∧
    revs w ⟨some Small.ada, Small.camp⟩ = [0, 0] ∧ ¬Increasing w := by
  refine ⟨_, Run.of_exec rfl, rfl, fun h => ?_⟩
  exact absurd (h ⟨some Small.ada, Small.camp⟩) (by decide)

/-- One tab does so where its clock has stepped back: the mark is written with the wall clock, and dropped. -/
theorem clock_back_repeats : ∃ w, Run Step ({} : World Bool)
    (Small.signIn false :: Small.submit 0 false 200 ++ [Small.published false 0 200] ++ Small.submit 1 false 100 ++
      Small.submit 2 false 110) w ∧ revs w ⟨some Small.ada, Small.camp⟩ = [0, 1, 1] ∧ ¬Increasing w := by
  refine ⟨_, Run.of_exec rfl, rfl, fun h => ?_⟩
  exact absurd (h ⟨some Small.ada, Small.camp⟩) (by decide)

end Nostrautica.SubmitRevs
