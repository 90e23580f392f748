/-
How `coordinator/src/coordinator.ts` publishes the roster of one event: calls
that coalesce onto a runner (`publishRosterCoalesced`), and the pages of a
snapshot whose text changed (`publishRoster`), in one process.

A page is its text. Of the relays only the newest version at each page's
derived address is kept; the alias at the old address is published and not read.

Readers see the roster that was published for a call (`readers_see_roster`), in
runs in which no page is skipped that a publish stored without recording it.
`Running` is what a runner has shown of its snapshot, `Timely` what the acts
have to avoid.
-/
import Nostrautica.Protocol.Roster
import Nostrautica.Transition.Run

namespace Nostrautica.RosterPages

/-- The pages of a roster, the first of which says how many there are. -/
structure Snapshot {T : Type*} (count : T → Nat) where
  pages : List T
  named : (pages.head?.map count) = some pages.length

/-- What the relays report of a publish, and whether they stored it. -/
inductive Outcome
  | stored
  | lost
  /-- Stored, and reported failed. -/
  | ambiguous

/-- Where the runner waits. -/
inductive Pc
  /-- `await this.publish(event, ...)`, of page `i`. -/
  | page (i : Nat)
  /-- The same of its alias. -/
  | legacy (i : Nat)
  /-- `await this.publishRoster(state)`, which has returned. -/
  | returning

/-- A runner: the wire pages of its snapshot, and its copy of the record. -/
structure Runner (T : Type*) where
  wire : List T
  published : Nat → Option T
  pc : Pc

/-- A call that resolved: how many snapshots were taken before it, and what a
reader then sees. -/
structure Answer (T : Type*) where
  since : Nat
  reading : Option (List T)

/-- The relays, and what the process keeps of one event. For the record: the
snapshots taken, the pages stored by a publish that was not recorded, and the
calls that resolved. -/
structure Store {T : Type*} (count : T → Nat) where
  /-- `buildRosterContent` and `splitRoster`; `none` where the latter throws. -/
  content : Option (Snapshot count)
  relay : Nat → Option T
  /-- `this.rosterPagesPublished`. -/
  record : Nat → Option T
  /-- `this.rosterDirty`. -/
  dirty : Bool
  /-- `this.rosterRunners`. -/
  runner : Option (Runner T)
  /-- The calls that wait on the runner. -/
  waiting : List Nat
  taken : List (List T)
  stray : Nat → Bool
  answers : List (Answer T)

variable {T : Type*} [DecidableEq T] {count : T → Nat}

/-- `published.slice(0, n)`. -/
def slice (published : Nat → Option T) (n : Nat) : Nat → Option T := fun j => if j < n then published j else none

/-- What a reader sees: page 0, and the pages it names. -/
def read (count : T → Nat) (relay : Nat → Option T) : Option (List T) :=
  (relay 0).bind fun page => (List.range (count page)).mapM relay

/-- The first page from `i` on whose text is not the one published. -/
def nextPage (wire : List T) (published : Nat → Option T) (i : Nat) : Option Nat :=
  (List.range wire.length).find? fun j => i ≤ j ∧ published j ≠ wire[j]?

namespace Store

/-- Before any call, over whatever the relays hold. -/
def fresh (content : Option (Snapshot count)) (relay : Nat → Option T) : Store count where
  content
  relay
  record _ := none
  dirty := false
  runner := none
  waiting := []
  taken := []
  stray _ := false
  answers := []

/-- The runner throws: every call that waits on it rejects. -/
def reject (s : Store count) : Store count := { s with runner := none, waiting := [] }

/-- The loop of `publishRoster` from page `i`, up to its next await. -/
def publishFrom (s : Store count) (wire : List T) (published : Nat → Option T) (i : Nat) : Store count :=
  match nextPage wire published i with
  | some j => { s with runner := some ⟨wire, published, .page j⟩ }
  | none => { s with record := slice published wire.length, runner := some ⟨wire, published, .returning⟩ }

/-- The loop of the runner, up to its next await. -/
def loop (s : Store count) : Store count :=
  if s.dirty then
    match s.content with
    | none => { s with dirty := false }.reject
    | some snapshot =>
      { s with dirty := false, taken := s.taken ++ [snapshot.pages] }.publishFrom snapshot.pages s.record 0
  else
    { s with
      runner := none
      waiting := []
      answers := s.answers ++ s.waiting.map fun since => ⟨since, read count s.relay⟩ }

/-- `publishRosterCoalesced`. -/
def call (s : Store count) : Store count :=
  let s := { s with dirty := true, waiting := s.waiting ++ [s.taken.length] }
  if s.runner.isSome then s else s.loop

/-- A page is stored, and not recorded so far. -/
def put (s : Store count) (i : Nat) (text : Option T) : Store count :=
  { s with relay := Function.update s.relay i text, stray := Function.update s.stray i true }

/-- A page is recorded, and the loop goes on. -/
def recorded (s : Store count) (r : Runner T) (i : Nat) : Store count :=
  let published := Function.update r.published i r.wire[i]?
  { s with record := slice published r.wire.length, stray := Function.update s.stray i false }.publishFrom r.wire published (i + 1)

end Store

/-- The runner goes on; `legacy` is that the event's rosters have an alias. -/
def settle (legacy : Bool) (s : Store count) (r : Runner T) (o : Outcome) : Store count :=
  match r.pc with
  | .returning => s.loop
  | .page i =>
    match o with
    | .lost => s.reject
    | .ambiguous => (s.put i r.wire[i]?).reject
    | .stored =>
      if legacy then { s.put i r.wire[i]? with runner := some { r with pc := .legacy i } }
      else (s.put i r.wire[i]?).recorded r i
  | .legacy i =>
    match o with
    | .stored => s.recorded r i
    | .lost | .ambiguous => s.reject

inductive Act {T : Type*} (count : T → Nat)
  /-- A membership, chat key, group or ECK change. -/
  | change (content : Option (Snapshot count))
  | call
  /-- The runner goes on. -/
  | settle (o : Outcome)

/-- What one act makes of the store; `none` where it cannot happen. -/
def act (legacy : Bool) (s : Store count) : Act count → Option (Store count)
  | .change content => some { s with content }
  | .call => some s.call
  | .settle o => s.runner.map fun r => settle legacy s r o

def Step (legacy : Bool) (s : Store count) (x : Act count) (s' : Store count) : Prop := act legacy s x = some s'

/-! ## The pages of a roster -/

/-- The pages a reader takes from page 0. -/
def rosterCount (page : Roster.RosterContent) : Nat := page.pages.getD 1

/-- The pages `splitRoster` makes of a roster that has no page count. -/
def Snapshot.ofRoster {roster : Roster.RosterContent} {pages : List Roster.RosterContent} (hp : roster.pages = none)
    (h : Roster.splitRoster roster = .ok pages) : Snapshot rosterCount where
  pages
  named := by
    simp only [Roster.splitRoster] at h
    split at h
    · cases h
      simp [rosterCount, hp]
    · split at h
      · cases h
      · split at h
        · cases h
        · split at h
          · cases h
          · cases h
            have hne : Roster.packPages roster ≠ [] := by simp [Roster.packPages]
            obtain ⟨g, gs, hg⟩ := List.exists_cons_of_ne_nil hne
            simp [hg, Roster.buildPage, rosterCount]

set_option linter.unusedSectionVars false

variable {legacy : Bool} {s s' : Store count} {x : Act count} {xs : List (Act count)}
  {r : Runner T} {o : Outcome} {wire : List T} {published relay : Nat → Option T} {i j n : Nat}

/-! ## Pages -/

theorem nextPage_some (h : nextPage wire published i = some j) :
    j < wire.length ∧ i ≤ j ∧ ∀ k, i ≤ k → k < j → published k = wire[k]? := by
  simp only [nextPage, List.find?_range_eq_some, List.mem_range, decide_eq_true_eq, Bool.not_eq_true', decide_eq_false_iff_not] at h
  obtain ⟨⟨hij, -⟩, hj, hk⟩ := h
  exact ⟨hj, hij, fun k hik hkj => by simpa [hik] using hk k hkj⟩

theorem nextPage_none (h : nextPage wire published i = none) : ∀ k, i ≤ k → k < wire.length → published k = wire[k]? := by
  intro k hik hk
  simp only [nextPage, List.find?_eq_none, List.mem_range, decide_eq_true_eq] at h
  simpa [hik] using h k hk

theorem mapM_range : ∀ {wire : List T}, (∀ j < wire.length, relay j = wire[j]?) →
    (List.range wire.length).mapM relay = some wire := by
  intro wire
  induction wire using List.reverseRecOn with
  | nil => exact fun _ => rfl
  | append_singleton wire t ih =>
    intro h
    rw [List.length_append, List.length_singleton] at h
    have hinit := ih fun j hj => by rw [h j (by omega), List.getElem?_append_left hj]
    have hlast : relay wire.length = some t := by simpa using h wire.length (by omega)
    rw [List.length_append, List.length_singleton, List.range_succ, List.mapM_append, hinit]
    simp [hlast]

/-- A snapshot all of whose pages are up is what a reader sees. -/
theorem read_eq (hn : (wire.head?.map count) = some wire.length) (h : ∀ j < wire.length, relay j = wire[j]?) :
    read count relay = some wire := by
  obtain ⟨page, hpage, hc⟩ := Option.map_eq_some_iff.mp hn
  have h0 : relay 0 = some page := by
    cases wire with
    | nil => cases hpage
    | cons t wire =>
      cases hpage
      exact h 0 (by simp)
  rw [read, h0, Option.bind_some, hc]
  exact mapM_range h

/-! ## The invariant -/

/-- The pages up to here are up. -/
def Runner.upTo (r : Runner T) : Nat :=
  match r.pc with
  | .page i => i
  | .legacy i => i + 1
  | .returning => r.wire.length

/-- What a runner has shown of the snapshot taken last, and may still skip. -/
structure Running (s : Store count) (r : Runner T) : Prop where
  snapshot : s.taken.getLast? = some r.wire
  named : (r.wire.head?.map count) = some r.wire.length
  inside : ∀ i, r.pc = .page i ∨ r.pc = .legacy i → i < r.wire.length
  shown : ∀ j < r.upTo, j < r.wire.length → s.relay j = r.wire[j]?
  skips : ∀ j t, r.upTo ≤ j → r.published j = some t → r.wire[j]? = some t → s.relay j = some t
  published : ∀ j t, r.published j = some t → s.stray j = false → s.relay j = some t

/-- A snapshot taken after the call is what a reader sees. -/
def Answered (s : Store count) (a : Answer T) : Prop :=
  ∃ i wire, a.since ≤ i ∧ s.taken[i]? = some wire ∧ a.reading = some wire

/-- What is recorded is up, unless stray; unless the roster is dirty every call
that waits came before the last snapshot; and the calls that resolved are answered. -/
structure Kept (s : Store count) : Prop where
  record : ∀ j t, s.record j = some t → s.stray j = false → s.relay j = some t
  called : ∀ since ∈ s.waiting, since ≤ s.taken.length
  waiting : s.dirty = false → ∀ since ∈ s.waiting, since < s.taken.length
  answers : ∀ a ∈ s.answers, Answered s a

structure Sound (s : Store count) : Prop extends Kept s where
  running : ∀ r, s.runner = some r → Running s r

/-- No page of a snapshot about to be taken is recorded and stray. -/
def Unstray (s : Store count) : Prop :=
  ∀ snapshot j t, s.content = some snapshot → s.record j = some t → snapshot.pages[j]? = some t → s.stray j = false

/-- Where an act takes a snapshot, no page it would skip was stored meanwhile by a
publish that was not recorded. -/
structure Timely (s : Store count) (x : Act count) : Prop where
  call : x = .call → s.runner = none → Unstray s
  settle : ∀ o r, x = .settle o → s.runner = some r → r.pc = .returning → s.dirty = true → Unstray s

theorem Answered.mono {a : Answer T} (h : Answered s a) (hs : s.taken <+: s'.taken) : Answered s' a := by
  obtain ⟨i, wire, hi, hw, hr⟩ := h
  obtain ⟨l, hl⟩ := hs
  refine ⟨i, wire, hi, ?_, hr⟩
  obtain ⟨hlt, -⟩ := List.getElem?_eq_some_iff.mp hw
  rw [← hl, List.getElem?_append_left hlt, hw]

theorem Kept.reject (h : Kept s) : Sound s.reject :=
  ⟨⟨h.record, by simp [Store.reject], fun _ => by simp [Store.reject], h.answers⟩, nofun⟩

/-- The loop of a publish shows what it skips. -/
theorem Sound.publishFrom (h : Kept s) (ht : s.taken.getLast? = some wire) (hn : (wire.head?.map count) = some wire.length)
    (hshown : ∀ j < i, j < wire.length → s.relay j = wire[j]?)
    (hskips : ∀ j t, i ≤ j → published j = some t → wire[j]? = some t → s.relay j = some t)
    (hpub : ∀ j t, published j = some t → s.stray j = false → s.relay j = some t) : Sound (s.publishFrom wire published i) := by
  have hup : ∀ j, i ≤ j → j < wire.length → published j = wire[j]? → s.relay j = wire[j]? := by
    intro j hij hj hp
    rw [List.getElem?_eq_getElem hj] at hp ⊢
    exact hskips j _ hij hp (List.getElem?_eq_getElem hj)
  simp only [Store.publishFrom]
  split
  next j hj =>
    obtain ⟨hjn, hij, hk⟩ := nextPage_some hj
    refine ⟨⟨h.record, h.called, h.waiting, h.answers⟩, fun r hr => ?_⟩
    cases hr
    refine ⟨ht, hn, fun k hk => ?_, fun k hkj hkn => ?_, fun k t hjk => hskips k t (hij.trans hjk), hpub⟩
    · rcases hk with hk | hk <;> cases hk
      exact hjn
    by_cases hki : k < i
    · exact hshown k hki hkn
    · exact hup k (Nat.le_of_not_lt hki) hkn (hk k (Nat.le_of_not_lt hki) hkj)
  next hnone =>
    refine ⟨⟨fun k t hk hs => ?_, h.called, h.waiting, h.answers⟩, fun r hr => ?_⟩
    · simp only [slice] at hk
      split at hk
      · exact hpub k t hk hs
      · cases hk
    · cases hr
      refine ⟨ht, hn, by simp, fun k _ hkn => ?_, fun k t hk _ hw => ?_, hpub⟩
      · by_cases hki : k < i
        · exact hshown k hki hkn
        · exact hup k (Nat.le_of_not_lt hki) hkn (nextPage_none hnone k (Nat.le_of_not_lt hki) hkn)
      · rw [List.getElem?_eq_none hk] at hw
        cases hw

/-- The loop of the runner takes a snapshot, or resolves the calls that wait. -/
theorem Sound.loop (h : Kept s) (hx : s.dirty = true → Unstray s)
    (hshown : s.dirty = false → ∃ wire, s.taken.getLast? = some wire ∧ (wire.head?.map count) = some wire.length ∧
      ∀ j < wire.length, s.relay j = wire[j]?) : Sound s.loop := by
  simp only [Store.loop]
  split
  next hd =>
    split
    · exact ⟨⟨h.record, by simp [Store.reject], fun _ => by simp [Store.reject], h.answers⟩, nofun⟩
    next snapshot hc =>
      have hmono : s.taken <+: s.taken ++ [snapshot.pages] := List.prefix_append ..
      have hlt : ∀ since ∈ s.waiting, since < (s.taken ++ [snapshot.pages]).length := by
        intro since hs
        rw [List.length_append, List.length_singleton]
        exact Nat.lt_succ_of_le (h.called since hs)
      exact .publishFrom ⟨h.record, fun since hs => (hlt since hs).le, fun _ => hlt, fun a ha => (h.answers a ha).mono hmono⟩
        (by simp) snapshot.named nofun (fun j t _ hr hw => h.record j t hr (hx hd snapshot j t hc hr hw)) h.record
  next hd =>
    obtain ⟨wire, hlast, hn, hup⟩ := hshown (by simpa using hd)
    refine ⟨⟨h.record, by simp, fun _ => by simp, fun a ha => ?_⟩, nofun⟩
    rcases List.mem_append.mp ha with ha | ha
    · exact h.answers a ha
    · obtain ⟨since, hs, rfl⟩ := List.mem_map.mp ha
      have hlt := h.waiting (by simpa using hd) since hs
      rw [List.getLast?_eq_getElem?] at hlast
      exact ⟨_, wire, Nat.le_sub_one_of_lt hlt, hlast, read_eq hn hup⟩

/-- What a runner still holds of the relays once a page of its snapshot is up. -/
theorem Running.put (h : Running s r) (hp : r.pc = .page i) :
    Running (s.put i r.wire[i]?) { r with pc := .legacy i } := by
  have hup : r.upTo = i := by simp [Runner.upTo, hp]
  refine ⟨h.snapshot, h.named, fun j hj => ?_, fun j hj hjn => ?_, fun j t hj => ?_, fun j t hpub hs => ?_⟩
  · rcases hj with hj | hj <;> cases hj
    exact h.inside i (.inl hp)
  · simp only [Store.put, Function.update_apply]
    split
    next hji => rw [hji]
    next hji =>
      refine h.shown j ?_ hjn
      have hj : j < i + 1 := hj
      omega
  · have hj : i + 1 ≤ j := hj
    simp only [Store.put, Function.update_of_ne (show j ≠ i by omega)]
    exact h.skips j t (by omega)
  · simp only [Store.put, Function.update_apply] at hs ⊢
    split at hs
    · cases hs
    next hji =>
      rw [if_neg hji]
      exact h.published j t hpub hs

theorem Kept.put {t : Option T} (h : Kept s) : Kept (s.put i t) := by
  refine ⟨fun j t hr hs => ?_, h.called, h.waiting, h.answers⟩
  simp only [Store.put, Function.update_apply] at hs ⊢
  split at hs
  · cases hs
  next hji =>
    rw [if_neg hji]
    exact h.record j t hr hs

/-- A page that is up is recorded, and the loop goes on. -/
theorem Sound.recorded (h : Kept s) (hr : Running s r) (hp : r.pc = .legacy i) :
    Sound (s.recorded r i) := by
  have hup : r.upTo = i + 1 := by simp [Runner.upTo, hp]
  have hrelay : ∀ t, r.wire[i]? = some t → s.relay i = some t := fun t ht => by
    rw [hr.shown i (by omega) (hr.inside i (.inr hp)), ht]
  have hpub : ∀ j t, Function.update r.published i r.wire[i]? j = some t → Function.update s.stray i false j = false →
      s.relay j = some t := by
    intro j t hj hs
    rw [Function.update_apply] at hj hs
    split at hj
    next hji =>
      rw [hji]
      exact hrelay t hj
    next hji =>
      rw [if_neg hji] at hs
      exact hr.published j t hj hs
  refine .publishFrom ⟨fun j t hj hs => ?_, h.called, h.waiting, h.answers⟩ hr.snapshot hr.named
    (fun j hj hjn => hr.shown j (by omega) hjn) (fun j t hij hj hw => ?_) hpub
  · simp only [slice] at hj
    split at hj
    · exact hpub j t hj hs
    · cases hj
  · rw [Function.update_of_ne (by omega)] at hj
    exact hr.skips j t (by omega) hj hw

/-- **Every timely act keeps the invariant.** -/
theorem Sound.step (hs : Sound s) (h : Step legacy s x s') (hx : Timely s x) : Sound s' := by
  cases x with
  | change content =>
    cases h
    refine ⟨⟨hs.record, hs.called, hs.waiting, hs.answers⟩, fun r hr => ?_⟩
    obtain ⟨h1, h2, h3, h4, h5, h6⟩ := hs.running r hr
    exact ⟨h1, h2, h3, h4, h5, h6⟩
  | call =>
    cases h
    have hk : Kept { s with dirty := true, waiting := s.waiting ++ [s.taken.length] } := by
      refine ⟨hs.record, fun since hm => ?_, nofun, hs.answers⟩
      rcases List.mem_append.mp hm with hm | hm
      · exact hs.called since hm
      · exact (List.mem_singleton.mp hm).le
    simp only [Store.call]
    split
    · refine ⟨hk, fun r hr => ?_⟩
      obtain ⟨h1, h2, h3, h4, h5, h6⟩ := hs.running r hr
      exact ⟨h1, h2, h3, h4, h5, h6⟩
    next hr => exact .loop hk (fun _ => hx.call rfl (by simpa using hr)) nofun
  | settle o =>
    obtain ⟨r, hr, rfl⟩ := Option.map_eq_some_iff.mp h
    have hrun := hs.running r hr
    simp only [settle]
    split
    next hp =>
      refine .loop hs.toKept (fun hd => hx.settle o r rfl hr hp hd) fun _ => ⟨r.wire, hrun.snapshot, hrun.named, fun j hj => ?_⟩
      exact hrun.shown j (by simpa [Runner.upTo, hp] using hj) hj
    next i hp =>
      have hput := hrun.put hp
      cases o with
      | lost => exact hs.toKept.reject
      | ambiguous => exact hs.toKept.put.reject
      | stored =>
        simp only
        split
        · have hk := hs.toKept.put (i := i) (t := r.wire[i]?)
          refine ⟨⟨hk.record, hk.called, hk.waiting, hk.answers⟩, fun r' hr' => ?_⟩
          cases hr'
          obtain ⟨h1, h2, h3, h4, h5, h6⟩ := hput
          exact ⟨h1, h2, h3, h4, h5, h6⟩
        · exact Sound.recorded (r := { r with pc := .legacy i }) hs.toKept.put hput rfl
    next i hp =>
      cases o with
      | stored => exact .recorded hs.toKept hrun hp
      | lost | ambiguous => exact hs.toKept.reject

theorem sound_fresh {content : Option (Snapshot count)} {relay : Nat → Option T} : Sound (.fresh content relay) :=
  ⟨⟨nofun, by simp [Store.fresh], fun _ => by simp [Store.fresh], by simp [Store.fresh]⟩, nofun⟩

/-- **Readers see the approved roster**: whenever a call resolves, after any run
of timely acts, the pages a reader gets are those of one snapshot taken after
the call. -/
theorem readers_see_roster {content : Option (Snapshot count)} {relay : Nat → Option T}
    (h : Run (fun s x s' => Step legacy s x s' ∧ Timely s x) (.fresh content relay) xs s) : ∀ a ∈ s.answers, Answered s a :=
  (h.invariant (fun _ _ _ hs hx => hs.step hx.1 hx.2) sound_fresh).answers

/-- A roster of one page. -/
def Small.roster (text : Nat) : Snapshot (fun page : Nat × Nat => page.1) := ⟨[(1, text)], rfl⟩

/-- Before any call, over relays that hold another process's page. -/
def Small.start : Store (fun page : Nat × Nat => page.1) := .fresh (some (Small.roster 1)) fun _ => some (1, 0)

def Small.shown (a : Answer (Nat × Nat)) : Nat × Option (List (Nat × Nat)) := (a.since, a.reading)

theorem unstray_of_empty (h : ∀ j, s.record j = none) : Unstray s := by
  intro snapshot j t _ hr
  rw [h j] at hr
  cases hr

theorem readers_see_roster_firstPublish :
    ∃ s, Run.exec (act false) Small.start [.call, .settle .stored, .settle .stored] = some s ∧ s.answers.length = 1 ∧
      ∀ a ∈ s.answers, Answered s a := by
  have h : (Run.exec (act false) Small.start [.call, .settle .stored, .settle .stored]).map (·.answers.length) = some 1 := by
    decide +kernel
  obtain ⟨s, hs, hlen⟩ := Option.map_eq_some_iff.mp h
  refine ⟨s, hs, hlen, readers_see_roster (Run.of_guarded hs ⟨⟨fun _ _ => unstray_of_empty fun _ => rfl, nofun⟩, ?_⟩)⟩
  intro t ht
  cases ht
  refine ⟨⟨nofun, fun o r _ hr hp => ?_⟩, fun t ht => ?_⟩
  · cases hr
    cases hp
  · cases ht
    refine ⟨⟨nofun, fun o r _ _ _ hd => ?_⟩, fun _ _ => trivial⟩
    cases hd

/-- The roster changes and back; the publish between is stored and reported
failed, and the page that is up is not published again. -/
theorem readers_see_roster_changedBack : ∃ xs s, Run (Step false) Small.start xs s ∧ ¬ ∀ a ∈ s.answers, Answered s a := by
  let xs : List (Act fun page : Nat × Nat => page.1) := [.call, .settle .stored, .settle .stored, .change (some (Small.roster 2)),
    .call, .settle .ambiguous, .change (some (Small.roster 1)), .call, .settle .stored]
  have h : (Run.exec (act false) Small.start xs).map (fun s => s.answers.map Small.shown) =
      some [(0, some [(1, 1)]), (2, some [(1, 2)])] := by
    decide +kernel
  have ht : (Run.exec (act false) Small.start xs).map (·.taken) = some [[(1, 1)], [(1, 2)], [(1, 1)]] := by
    decide +kernel
  obtain ⟨s, hs, hshown⟩ := Option.map_eq_some_iff.mp h
  have htaken : s.taken = [[(1, 1)], [(1, 2)], [(1, 1)]] := by simpa [hs] using ht
  refine ⟨xs, s, Run.of_exec hs, fun ha => ?_⟩
  have hmem : (2, some [(1, 2)]) ∈ s.answers.map Small.shown := by
    rw [hshown]
    simp
  obtain ⟨a, hmem, hval⟩ := List.mem_map.mp hmem
  simp only [Small.shown, Prod.mk.injEq] at hval
  obtain ⟨i, wire, hi, hw, hr⟩ := ha a hmem
  rw [htaken] at hw
  rw [hval.1] at hi
  rw [hval.2] at hr
  cases hr
  match i, hi with
  | 2, _ => simp at hw
  | i + 3, _ => simp at hw

end Nostrautica.RosterPages
