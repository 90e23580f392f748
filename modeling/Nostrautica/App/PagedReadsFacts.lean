/-
What a paged read of gift wraps that reports completion has read. The bound of the next page is
the oldest wrap of all the relays' answers together, so that a relay which keeps few wraps takes
it past what one that keeps many has left out: the read has everything just when no full page
does that.
-/
import Nostrautica.App.PagedReads

set_option linter.unusedSectionVars false

namespace Nostrautica.PagedReads

open Paging
open Pending (Filter)

variable {W ι : Type} [DecidableEq ι] {id : W → ι} {created_at : W → Int} (rs : Relays id created_at)

/-! ## Answers -/

theorem held_of_mem_answers {n : Nat} {f : Filter} {w : W} (h : w ∈ rs.relays.flatMap (·.answer n f)) :
    w ∈ rs.held ∧ f.Matches (created_at w) := by
  obtain ⟨r, hr, hw⟩ := List.mem_flatMap.mp h
  exact ⟨⟨r, hr, (r.sound hw).1⟩, (r.sound hw).2⟩

theorem mem_fetch {n : Nat} {f : Filter} {w : W} : w ∈ rs.fetch n f ↔ ∃ r ∈ rs.relays, w ∈ r.answer n f := by
  rw [Relays.fetch, mem_absorb rs.ids (by simp) fun w hw => (held_of_mem_answers rs hw).1]
  simp

theorem sound_fetch {n : Nat} {f : Filter} {w : W} (h : w ∈ rs.fetch n f) : w ∈ rs.held ∧ f.Matches (created_at w) := by
  obtain ⟨r, hr, hw⟩ := (mem_fetch rs).mp h
  exact ⟨⟨r, hr, (r.sound hw).1⟩, (r.sound hw).2⟩

theorem nodup_fetch {n : Nat} {f : Filter} : ((rs.fetch n f).map id).Nodup := nodup_absorb (by simp)

/-- The union is no shorter than any of the answers. -/
theorem length_answer_le {n : Nat} {f : Filter} {r : Relay id created_at} (hr : r ∈ rs.relays) :
    (r.answer n f).length ≤ (rs.fetch n f).length := by
  have hsub : (r.answer n f).map id ⊆ (rs.fetch n f).map id :=
    List.map_subset id fun w hw => (mem_fetch rs).mpr ⟨r, hr, hw⟩
  simpa using (r.nodup.subperm hsub).length_le

/-- An answer shorter than its limit, or without one, has all that matches. -/
theorem all_of_short {n : Nat} {f : Filter} (hshort : ∀ limit ∈ f.limit, (rs.fetch n f).length < limit) {w : W}
    (hw : w ∈ rs.held) (hmatches : f.Matches (created_at w)) : w ∈ rs.fetch n f := by
  obtain ⟨r, hr, hwr⟩ := hw
  rw [mem_fetch]
  by_contra hno
  have hlimit := (r.newest hwr hmatches fun hm => hno ⟨r, hr, hm⟩).1
  exact absurd (hshort _ hlimit) (Nat.not_lt.mpr (length_answer_le rs hr))

/-- The pages of a read with a lower bound, its requests numbered by `number`. -/
def Relays.pages (since : Option Int) (limit : Nat) (number : Nat → Nat) : Pages created_at (rs.since since) limit where
  page n bound := rs.fetch (number n) { since := since, until_ := bound, limit := some limit }
  sound hw := ⟨⟨(sound_fetch rs hw).1, (sound_fetch rs hw).2.1⟩, (sound_fetch rs hw).2.2⟩
  short hshort w hw hup := all_of_short rs (by simpa using hshort) hw.1 ⟨hw.2, hup⟩

theorem injOn_since {since : Option Int} : (rs.since since).InjOn id := rs.ids.mono fun _ hw => hw.1

/-! ## Grants and the inbox -/

/-- The place where a read begins. -/
def start (W : Type) : Place W := ⟨0, none, []⟩

theorem behind_start {held : Set W} : (start W).Behind created_at held where
  seen _ hw := by cases hw
  later _ _ hlate := absurd (fun x hx => by cases hx) hlate

theorem oldest_eq_none {batch : List W} : oldest created_at batch = none ↔ batch = [] := by simp [oldest]

/-- What a pass makes of a page: a short one ends the read, one without anything new stops it. -/
theorem readBack_pass {limit : Nat} {page : Nat → Option Int → List W} {fuel : Nat} {s : Place W} :
    readBack id created_at limit page (fuel + 1) s =
      if (page s.n s.bound).length < limit then (absorb id s.seen (page s.n s.bound), true)
      else if (absorb id s.seen (page s.n s.bound)).length = s.seen.length ∨ oldest created_at (page s.n s.bound) = none then
        (absorb id s.seen (page s.n s.bound), false)
      else readBack id created_at limit page fuel ⟨s.n + 1, oldest created_at (page s.n s.bound), absorb id s.seen (page s.n s.bound)⟩ := by
  rw [readBack_succ, Place.turn, Place.last]
  by_cases hshort : (page s.n s.bound).length < limit
  · simp [hshort]
  · by_cases hnew : (absorb id s.seen (page s.n s.bound)).length = s.seen.length
    · simp [hshort, hnew]
    · cases hold : oldest created_at (page s.n s.bound) with
      | none => simp [hshort, hnew]
      | some x => simp [hshort, hnew, Place.after]

theorem readGrantPages_eq {since : Int} {fetch : Nat → Filter → List W} : ∀ (fuel : Nat) {n : Nat} {bound : Option Int} {wraps : List W},
    readGrantPages id created_at since fetch fuel n bound wraps =
      readBack id created_at grantPageSize
        (fun n bound => fetch n { since := some since, until_ := bound, limit := some grantPageSize }) fuel ⟨n, bound, wraps⟩
  | 0, _, _, _ => rfl
  | fuel + 1, n, bound, wraps => by
    rw [readBack_pass, readGrantPages]
    simp only [readGrantPages_eq fuel]

theorem foldl_eq_absorb {Sk V M : Type} (d : Pending.Deps W Sk V M) {wraps batch : List W} :
    batch.foldl (fun wraps w => if d.wrapId w ∈ wraps.map d.wrapId then wraps else wraps ++ [w]) wraps =
      absorb d.wrapId wraps batch := by
  refine congrArg (fun f => batch.foldl f wraps) ?_
  funext wraps w
  congr

theorem readPages_eq {Sk V M : Type} (d : Pending.Deps W Sk V M) {fetch : Nat → Filter → List W} :
    ∀ (fuel : Nat) {n : Nat} {bound : Option Int} {wraps : List W},
    Pending.readPages d fetch fuel n bound wraps =
      readBack d.wrapId d.wrapCreatedAt Pending.pendingPageSize
        (fun n bound => fetch n { until_ := bound, limit := some Pending.pendingPageSize }) fuel ⟨n, bound, wraps⟩
  | 0, _, _, _ => rfl
  | fuel + 1, n, bound, wraps => by
    rw [readBack_pass, Pending.readPages]
    simp only [readPages_eq d fuel, foldl_eq_absorb]
    -- A full page has an oldest wrap.
    by_cases hshort : (fetch n { until_ := bound, limit := some Pending.pendingPageSize }).length < Pending.pendingPageSize
    · simp only [hshort, if_true]
    · have hsome : oldest d.wrapCreatedAt (fetch n { until_ := bound, limit := some Pending.pendingPageSize }) ≠ none := by
        intro hnone
        rw [oldest_eq_none.mp hnone] at hshort
        exact hshort (Nat.succ_pos _)
      simp only [hshort, if_false, hsome, or_false]
      rfl

/-- The condition on a first read of so many pages: no full page leaves out a wrap that is later than its oldest. -/
def Relays.NeverStepsPast (rs : Relays id created_at) (since : Option Int) (limit pages : Nat) : Prop :=
  Paging.NeverStepsPast (rs.pages since limit fun n => n) (Place.turn id created_at limit (rs.pages since limit fun n => n).page)
    pages (start W)

theorem grants_complete {since : Int} (h : (readGrantWraps id created_at since rs.fetch).2 = true) :
    (∀ w ∈ rs.since since, w ∈ (readGrantWraps id created_at since rs.fetch).1) ↔
      rs.NeverStepsPast since grantPageSize grantMaxPages := by
  rw [readGrantWraps, readGrantPages_eq] at h ⊢
  exact readBack_complete (rs.pages since grantPageSize fun n => n) (injOn_since rs) behind_start h

theorem inbox_complete {Sk V M : Type} (d : Pending.Deps W Sk V M) (rs : Relays d.wrapId d.wrapCreatedAt) {now : Int}
    (h : (Pending.readInboxWraps d now none rs.fetch).2 = true) :
    (∀ w ∈ rs.since none, w ∈ (Pending.readInboxWraps d now none rs.fetch).1) ↔
      rs.NeverStepsPast none Pending.pendingPageSize Pending.pendingMaxPages := by
  rw [Pending.readInboxWraps, readPages_eq] at h ⊢
  exact readBack_complete (rs.pages none Pending.pendingPageSize fun n => n) (injOn_since rs) behind_start h

/-- A read from a cursor asks for everything at once. -/
theorem inbox_complete_cursor {Sk V M : Type} (d : Pending.Deps W Sk V M) (rs : Relays d.wrapId d.wrapCreatedAt)
    {now cursor : Int} {w : W} (hw : w ∈ rs.since (Pending.sinceOf now cursor)) :
    w ∈ (Pending.readInboxWraps d now cursor rs.fetch).1 :=
  all_of_short rs (by simp) hw.1 ⟨hw.2, by simp⟩

/-- A full page whose oldest wrap comes from a relay that holds nothing later ends a read of grants on the next page. -/
theorem grants_of_two_pages {since x : Int}
    (hfull : grantPageSize ≤ (rs.fetch 0 { since := some since, until_ := none, limit := some grantPageSize }).length)
    (hold : oldest created_at (rs.fetch 0 { since := some since, until_ := none, limit := some grantPageSize }) = some x)
    (hshort : (rs.fetch 1 { since := some since, until_ := some x, limit := some grantPageSize }).length < grantPageSize) :
    readGrantWraps id created_at since rs.fetch =
      (absorb id (absorb id [] (rs.fetch 0 { since := some since, until_ := none, limit := some grantPageSize }))
        (rs.fetch 1 { since := some since, until_ := some x, limit := some grantPageSize }), true) := by
  have hnew : (absorb id [] (rs.fetch 0 { since := some since, until_ := none, limit := some grantPageSize })).length ≠ 0 := by
    intro hzero
    obtain ⟨w, hw, _⟩ := exists_oldest hold
    have hkey : id w ∈ (absorb id [] (rs.fetch 0 { since := some since, until_ := none, limit := some grantPageSize })).map id :=
      key_mem_absorb hw
    rw [List.length_eq_zero_iff.mp hzero] at hkey
    cases hkey
  rw [readGrantWraps, show grantMaxPages = 18 + 1 + 1 from rfl, readGrantPages, readGrantPages]
  simp only [Nat.not_lt.mpr hfull, if_false, hold, List.length_nil, hnew, reduceCtorEq, or_self, hshort, if_true]

theorem nodup_grants {since : Int} : ((readGrantWraps id created_at since rs.fetch).1.map id).Nodup := by
  rw [readGrantWraps, readGrantPages_eq]
  exact nodup_readBack (rs.pages since grantPageSize fun n => n) (by simp)

theorem nodup_inbox {Sk V M : Type} (d : Pending.Deps W Sk V M) (rs : Relays d.wrapId d.wrapCreatedAt) {now : Int}
    {cursor : Option Int} : ((Pending.readInboxWraps d now cursor rs.fetch).1.map d.wrapId).Nodup := by
  cases cursor with
  | none =>
    rw [Pending.readInboxWraps, readPages_eq]
    exact nodup_readBack (rs.pages none Pending.pendingPageSize fun n => n) (by simp)
  | some cursor => exact nodup_fetch rs

/-! ## Direct messages -/

/-- The place that a full history page leads on to. -/
def historyTurn (id : W → ι) (created_at : W → Int) (streamEvents : Nat → Filter → Handle W) (s : Place W) : Option (Place W) :=
  let page := (streamEvents s.n { until_ := s.bound, limit := some dmHistoryPageLimit }).ready
  if page.length < dmHistoryPageLimit then none
  else (oldest created_at page).map fun oldest => s.after id page (nextUntil s.bound oldest)

/-- What a history page that leads no further leaves. -/
def historyEnd (id : W → ι) (streamEvents : Nat → Filter → Handle W) (s : Place W) : Place W × Bool :=
  let handle := streamEvents s.n { until_ := s.bound, limit := some dmHistoryPageLimit }
  let ended := handle.ready.length < dmHistoryPageLimit ∧ handle.allAnswered
  (⟨s.n + 1, if ended then none else s.bound, absorb id s.seen handle.ready⟩, ended)

theorem historyPages_eq {streamEvents : Nat → Filter → Handle W} : ∀ (fuel : Nat) {s : Place W},
    historyPages id created_at streamEvents fuel s =
      match walk (historyTurn id created_at streamEvents) fuel s with
      | (t, true) => historyEnd id streamEvents t
      | (t, false) => (t, false)
  | 0, _ => rfl
  | fuel + 1, s => by
    rw [historyPages, walk]
    by_cases hshort : (streamEvents s.n { until_ := s.bound, limit := some dmHistoryPageLimit }).ready.length < dmHistoryPageLimit
    · have hturn : historyTurn id created_at streamEvents s = none := by simp [historyTurn, hshort]
      cases hall : (streamEvents s.n { until_ := s.bound, limit := some dmHistoryPageLimit }).allAnswered <;>
        simp [hturn, historyEnd, hshort, hall]
    · cases hold : oldest created_at (streamEvents s.n { until_ := s.bound, limit := some dmHistoryPageLimit }).ready with
      | none => simp [historyTurn, historyEnd, hshort, hold]
      | some x => simp [historyTurn, hshort, hold, Place.after, historyPages_eq fuel]

/-- The history pages of a scan. -/
def Relays.historyPages (rs : Relays id created_at) (scan : DmScan) : Pages created_at (rs.since none) dmHistoryPageLimit :=
  rs.pages none dmHistoryPageLimit fun n => scan.first + n

theorem turns_history (scan : DmScan) : Turns id (rs.historyPages scan).page (historyTurn id created_at (rs.stream scan)) := by
  intro s t h
  simp only [historyTurn] at h
  split at h
  · cases h
  · obtain ⟨x, hx, rfl⟩ := Option.map_eq_some_iff.mp h
    refine ⟨_, rfl, fun u hu => ?_⟩
    simp only [Option.mem_def.mp hu, nextUntil]
    split <;> omega

/-- The condition on a scan: none of the history pages that it reads leaves out a wrap that is
later than the bound it goes on with. -/
def HistoryNeverStepsPast (rs : Relays id created_at) (s : DmWorld W) (scan : DmScan) : Prop :=
  scan.history = true ∧ s.saved.historyComplete = false →
    Paging.NeverStepsPast (rs.historyPages scan) (historyTurn id created_at (rs.stream scan)) dmHistoryPagesPerScan
      ⟨1, s.saved.historyUntil, s.walked⟩

/-- What a scan's history pages leave has everything that is later than the bound, or everything where they came to the end. -/
def Reads (rs : Relays id created_at) (r : Place W × Bool) : Prop :=
  ∀ w ∈ rs.since none, r.2 = true ∨ ¬Upto created_at r.1.bound w → w ∈ r.1.seen

theorem reads_of_behind {s : Place W} (h : s.Behind created_at (rs.since none)) : Reads rs (s, false) :=
  fun w hw hlate => h.later w hw (hlate.resolve_left Bool.false_ne_true)

theorem not_reads_of_missed {s : Place W} (h : s.Missed created_at (rs.since none)) {ended : Bool} : ¬Reads rs (s, ended) := by
  obtain ⟨_, w, hw, hlate, hseen⟩ := h
  exact fun hreads => hseen (hreads w hw (.inr hlate))

theorem Reads.historyEnd {scan : DmScan} {s : Place W} (h : s.Behind created_at (rs.since none)) :
    Reads rs (historyEnd id (rs.stream scan) s) := by
  intro w hw hlate
  simp only [PagedReads.historyEnd, decide_eq_true_eq] at hlate ⊢
  by_cases hended : (rs.stream scan s.n { until_ := s.bound, limit := some dmHistoryPageLimit }).ready.length < dmHistoryPageLimit ∧
      (rs.stream scan s.n { until_ := s.bound, limit := some dmHistoryPageLimit }).allAnswered = true
  · exact h.all (rs.historyPages scan) (injOn_since rs) hended.1 w hw
  · simp only [hended, false_or, if_false] at hlate
    exact mem_absorb_of_seen (h.later w hw hlate)

theorem not_reads_historyEnd {scan : DmScan} {s : Place W} (h : s.Missed created_at (rs.since none)) :
    ¬Reads rs (historyEnd id (rs.stream scan) s) := by
  obtain ⟨w, hw, hlate, hseen⟩ := h.2
  intro hreads
  by_cases hended : (rs.stream scan s.n { until_ := s.bound, limit := some dmHistoryPageLimit }).ready.length < dmHistoryPageLimit ∧
      (rs.stream scan s.n { until_ := s.bound, limit := some dmHistoryPageLimit }).allAnswered = true
  · refine h.not_all (rs.historyPages scan) (injOn_since rs) fun v hv => hreads v hv (.inl ?_)
    simp only [historyEnd, hended, and_self, decide_true]
  · have hmem := hreads w hw (.inr (by simpa only [historyEnd, hended, if_false] using hlate))
    rcases (Place.seen_after (rs.historyPages scan) (injOn_since rs) h.1).mp hmem with hm | hm
    · exact hseen hm
    · exact hlate ((rs.historyPages scan).sound hm).2

theorem historyPages_missed {scan : DmScan} {fuel : Nat} {s : Place W} (h : s.Missed created_at (rs.since none)) :
    ¬Reads rs (historyPages id created_at (rs.stream scan) fuel s) := by
  have hwalk := walk_missed (rs.historyPages scan) (injOn_since rs) (turns_history rs scan) fuel h
  rw [historyPages_eq]
  split
  · next t ht => exact not_reads_historyEnd rs (by simpa only [ht] using hwalk)
  · next t ht => exact not_reads_of_missed rs (by simpa only [ht] using hwalk)

/-- The history pages of a scan lose nothing just when none of them steps past a wrap. -/
theorem reads_historyPages {scan : DmScan} {fuel : Nat} {s : Place W} (h : s.Behind created_at (rs.since none)) :
    Reads rs (historyPages id created_at (rs.stream scan) fuel s) ↔
      Paging.NeverStepsPast (rs.historyPages scan) (historyTurn id created_at (rs.stream scan)) fuel s := by
  have hwalk := walk_behind (rs.historyPages scan) (injOn_since rs) (turns_history rs scan) fuel h
  rw [historyPages_eq]
  split
  · next t ht =>
    simp only [ht] at hwalk
    rcases hwalk with ⟨hn, hb⟩ | ⟨hn, hm⟩
    · exact iff_of_true (Reads.historyEnd rs hb) hn
    · exact iff_of_false (not_reads_historyEnd rs hm) hn
  · next t ht =>
    simp only [ht] at hwalk
    rcases hwalk with ⟨hn, hb⟩ | ⟨hn, hm⟩
    · exact iff_of_true (reads_of_behind rs hb) hn
    · exact iff_of_false (not_reads_of_missed rs hm) hn

/-! ## Runs of scans -/

/-- Where the history of a device stands. -/
def DmWorld.place (s : DmWorld W) : Place W := ⟨1, s.saved.historyUntil, s.walked⟩

/-- The history pages have had everything that is later than where they stand. -/
def DmWorld.Walked (rs : Relays id created_at) (s : DmWorld W) : Prop := Reads rs (s.place, s.saved.historyComplete)

/-- What the history pages have had is held. -/
def DmWorld.Held (rs : Relays id created_at) (s : DmWorld W) : Prop := ∀ w ∈ s.walked, w ∈ rs.since none

/-- A pass of the history pages adds its page to what was there, and goes on or stops whatever that was. -/
theorem historyPages_succ (id : W → ι) (created_at : W → Int) (streamEvents : Nat → Filter → Handle W) (fuel n : Nat) (bound : Option Int) :
    let page := (streamEvents n { until_ := bound, limit := some dmHistoryPageLimit }).ready
    (∃ bound' ended, ∀ seen, historyPages id created_at streamEvents (fuel + 1) ⟨n, bound, seen⟩ =
        (⟨n + 1, bound', absorb id seen page⟩, ended)) ∨
      ∃ x, ∀ seen, historyPages id created_at streamEvents (fuel + 1) ⟨n, bound, seen⟩ =
        historyPages id created_at streamEvents fuel ⟨n + 1, some x, absorb id seen page⟩ := by
  intro page
  by_cases hshort : page.length < dmHistoryPageLimit
  · cases hall : (streamEvents n { until_ := bound, limit := some dmHistoryPageLimit }).allAnswered
    · exact .inl ⟨bound, false, fun seen => by simp [historyPages, page, hshort, hall]⟩
    · exact .inl ⟨none, true, fun seen => by simp [historyPages, page, hshort, hall]⟩
  · cases hold : oldest created_at page with
    | none => exact .inl ⟨bound, false, fun seen => by simp [historyPages, page, hshort, hold]⟩
    | some x =>
      exact .inr ⟨nextUntil bound x, fun seen => by simp [historyPages, page, hshort, hold]⟩

/-- Where the history pages of a scan come to stand does not depend on what was there before. -/
theorem historyPages_bound {streamEvents : Nat → Filter → Handle W} : ∀ (fuel n : Nat) (bound : Option Int) (seen seen' : List W),
    (historyPages id created_at streamEvents fuel ⟨n, bound, seen⟩).1.bound =
        (historyPages id created_at streamEvents fuel ⟨n, bound, seen'⟩).1.bound ∧
      (historyPages id created_at streamEvents fuel ⟨n, bound, seen⟩).2 =
        (historyPages id created_at streamEvents fuel ⟨n, bound, seen'⟩).2
  | 0, _, _, _, _ => ⟨rfl, rfl⟩
  | fuel + 1, n, bound, seen, seen' => by
    rcases historyPages_succ id created_at streamEvents fuel n bound with ⟨b, ended, heq⟩ | ⟨x, heq⟩
    · simp only [heq, and_self]
    · simp only [heq]
      exact historyPages_bound fuel _ _ _ _

/-- What they leave is held where what was there before is, -/
theorem historyPages_held {scan : DmScan} : ∀ (fuel : Nat) {n : Nat} {bound : Option Int} {seen : List W},
    (∀ w ∈ seen, w ∈ rs.since none) →
    ∀ w ∈ (historyPages id created_at (rs.stream scan) fuel ⟨n, bound, seen⟩).1.seen, w ∈ rs.since none
  | 0, _, _, _, hs => hs
  | fuel + 1, n, bound, seen, hs => by
    have hafter : ∀ w ∈ absorb id seen ((rs.historyPages scan).page n bound), w ∈ rs.since none :=
      Place.held_after (rs.historyPages scan) (injOn_since rs) (s := ⟨n, bound, seen⟩) hs
    rcases historyPages_succ id created_at (rs.stream scan) fuel n bound with ⟨b, ended, heq⟩ | ⟨x, heq⟩
    · simp only [heq]
      exact hafter
    · simp only [heq]
      exact historyPages_held fuel hafter

/-- and has all of it. -/
theorem mem_historyPages {streamEvents : Nat → Filter → Handle W} {w : W} : ∀ (fuel : Nat) {n : Nat} {bound : Option Int} {seen : List W},
    w ∈ seen → w ∈ (historyPages id created_at streamEvents fuel ⟨n, bound, seen⟩).1.seen
  | 0, _, _, _, hw => hw
  | fuel + 1, n, bound, seen, hw => by
    rcases historyPages_succ id created_at streamEvents fuel n bound with ⟨b, ended, heq⟩ | ⟨x, heq⟩
    · simp only [heq]
      exact mem_absorb_of_seen hw
    · simp only [heq]
      exact mem_historyPages fuel (mem_absorb_of_seen hw)

/-- The rest is on its pages. -/
theorem mem_historyPages_of_mem {scan : DmScan} {w : W} : ∀ (fuel : Nat) {n : Nat} {bound : Option Int} {seen seen' : List W},
    (∀ w ∈ seen', w ∈ rs.since none) →
    w ∈ (historyPages id created_at (rs.stream scan) fuel ⟨n, bound, seen⟩).1.seen →
    w ∈ seen ∨ w ∈ (historyPages id created_at (rs.stream scan) fuel ⟨n, bound, seen'⟩).1.seen
  | 0, _, _, _, _, _, hw => .inl hw
  | fuel + 1, n, bound, seen, seen', hs', hw => by
    have hafter : ∀ w ∈ absorb id seen' ((rs.historyPages scan).page n bound), w ∈ rs.since none :=
      Place.held_after (rs.historyPages scan) (injOn_since rs) (s := ⟨n, bound, seen'⟩) hs'
    have hpage : w ∈ absorb id seen ((rs.historyPages scan).page n bound) →
        w ∈ seen ∨ w ∈ absorb id seen' ((rs.historyPages scan).page n bound) := fun hm =>
      (mem_of_mem_absorb hm).imp_right fun hp =>
        (Place.seen_after (rs.historyPages scan) (injOn_since rs) (s := ⟨n, bound, seen'⟩) hs').mpr (.inr hp)
    rcases historyPages_succ id created_at (rs.stream scan) fuel n bound with ⟨b, ended, heq⟩ | ⟨x, heq⟩
    · simp only [heq] at hw ⊢
      exact hpage hw
    · simp only [heq] at hw ⊢
      rcases mem_historyPages_of_mem fuel hafter hw with hm | hm
      · exact (hpage hm).imp_right (mem_historyPages fuel)
      · exact .inr hm

/-! ### One scan -/

/-- The history pages of a scan of the device. -/
def DmWorld.scanned (rs : Relays id created_at) (s : DmWorld W) (scan : DmScan) : Place W × Bool :=
  scanHistory id created_at (rs.stream scan) scan.history s.saved s.walked

theorem recent_held {scan : DmScan} {s : DmWorld W} :
    ∀ w ∈ recentById id (rs.stream scan) scan.now scan.history s.saved, w ∈ rs.since none := by
  intro w hw
  unfold recentById at hw
  split at hw
  · have hm := (mem_of_mem_absorb hw).resolve_left (by simp)
    exact ⟨(sound_fetch rs hm).1, by simp⟩
  · cases hw

theorem scan_saved (s : DmWorld W) (scan : DmScan) :
    (s.scan rs scan).saved.historyComplete = (s.scanned rs scan).2 ∧
      (s.scan rs scan).saved.historyUntil = if (s.scanned rs scan).2 then none else (s.scanned rs scan).1.bound := by
  simp only [DmWorld.scan, scanDmGiftWraps, DmWorld.scanned, scanHistory]
  split
  · rw [(historyPages_bound _ _ _ (recentById id (rs.stream scan) scan.now scan.history s.saved) s.walked).1,
      (historyPages_bound _ _ _ (recentById id (rs.stream scan) scan.now scan.history s.saved) s.walked).2]
    exact ⟨rfl, rfl⟩
  · exact ⟨rfl, rfl⟩

theorem scan_held {scan : DmScan} {s : DmWorld W} (h : s.Held rs) : (s.scan rs scan).Held rs := by
  intro w hw
  simp only [DmWorld.scan, scanHistory] at hw
  split at hw
  · exact historyPages_held rs dmHistoryPagesPerScan h w hw
  · exact h w hw

/-- What the history pages have had has been returned. -/
theorem scan_returned {scan : DmScan} {s : DmWorld W} (h : ∀ w ∈ s.walked, w ∈ s.returned) :
    ∀ w ∈ (s.scan rs scan).walked, w ∈ (s.scan rs scan).returned := by
  intro w hw
  simp only [DmWorld.scan, scanDmGiftWraps, scanHistory, List.mem_append] at hw ⊢
  split at hw
  · next hpages =>
    rw [if_pos hpages]
    exact (mem_historyPages_of_mem rs dmHistoryPagesPerScan (recent_held rs) hw).imp_left (h w)
  · exact .inl (h w hw)

theorem nodup_historyPages {streamEvents : Nat → Filter → Handle W} : ∀ (fuel : Nat) {n : Nat} {bound : Option Int} {seen : List W},
    (seen.map id).Nodup → ((historyPages id created_at streamEvents fuel ⟨n, bound, seen⟩).1.seen.map id).Nodup
  | 0, _, _, _, h => h
  | fuel + 1, n, bound, seen, h => by
    rcases historyPages_succ id created_at streamEvents fuel n bound with ⟨b, ended, heq⟩ | ⟨x, heq⟩
    · simp only [heq]
      exact nodup_absorb h
    · simp only [heq]
      exact nodup_historyPages fuel (nodup_absorb h)

/-- A scan returns no wrap twice. -/
theorem nodup_scan {streamEvents : Nat → Filter → Handle W} {now : Int} {history : Bool} {state : DmScanState} :
    ((scanDmGiftWraps id created_at streamEvents now history state).1.map id).Nodup := by
  have hrecent : ((recentById id streamEvents now history state).map id).Nodup := by
    unfold recentById
    split
    · exact nodup_absorb (by simp)
    · simp
  simp only [scanDmGiftWraps, scanHistory]
  split
  · exact nodup_historyPages dmHistoryPagesPerScan hrecent
  · exact hrecent

/-- The condition on a scan: none of the history pages that it reads leaves out a wrap that is
later than the bound it goes on with. -/
def DmWorld.NeverStepsPast (rs : Relays id created_at) (s : DmWorld W) (scan : DmScan) : Prop :=
  scan.history = true ∧ ¬s.saved.historyComplete = true →
    Paging.NeverStepsPast (rs.historyPages scan) (historyTurn id created_at (rs.stream scan)) dmHistoryPagesPerScan s.place

theorem walked_iff_behind {s : DmWorld W} (h : s.Held rs) (hopen : ¬s.saved.historyComplete = true) :
    s.Walked rs ↔ s.place.Behind created_at (rs.since none) := by
  simp only [DmWorld.Walked, Reads, hopen, Bool.false_eq_true, false_or]
  exact ⟨fun hw => ⟨h, hw⟩, fun hb => hb.later⟩

theorem missed_of_not_walked {s : DmWorld W} (h : s.Held rs) (hopen : ¬s.saved.historyComplete = true) (hno : ¬s.Walked rs) :
    s.place.Missed created_at (rs.since none) := by
  simp only [DmWorld.Walked, Reads, hopen, Bool.false_eq_true, false_or, not_forall] at hno
  obtain ⟨w, hw, hlate, hseen⟩ := hno
  exact ⟨h, w, hw, hlate, hseen⟩

theorem walked_scan_iff {scan : DmScan} {s : DmWorld W} : (s.scan rs scan).Walked rs ↔ Reads rs (s.scanned rs scan) := by
  obtain ⟨hcomplete, huntil⟩ := scan_saved rs s scan
  simp only [DmWorld.Walked, Reads, DmWorld.place, hcomplete, huntil]
  have hwalked : (s.scan rs scan).walked = (s.scanned rs scan).1.seen := rfl
  rw [hwalked]
  cases (s.scanned rs scan).2 <;> simp

/-- One scan loses nothing just when nothing was lost before and its pages step past nothing. -/
theorem walked_scan {scan : DmScan} {s : DmWorld W} (h : s.Held rs) :
    (s.scan rs scan).Walked rs ↔ s.Walked rs ∧ s.NeverStepsPast rs scan := by
  rw [walked_scan_iff, DmWorld.scanned, scanHistory, DmWorld.NeverStepsPast]
  split
  · next hpages =>
    rw [imp_iff_right hpages]
    by_cases hwalked : s.Walked rs
    · rw [and_iff_right hwalked]
      exact reads_historyPages rs ((walked_iff_behind rs h hpages.2).mp hwalked)
    · exact iff_of_false (historyPages_missed rs (missed_of_not_walked rs h hpages.2 hwalked)) fun hn => hwalked hn.1
  · next hpages =>
    exact ⟨fun hr => ⟨hr, fun hp => absurd hp hpages⟩, fun hr => hr.1⟩

/-- A device without a scan, or with the number that stood for one. -/
def DmWorld.fresh (lastScan : Option Int) : DmWorld W := { saved := { lastScan := lastScan } }

/-- A run of scans in which no history page steps past a wrap. -/
def RunNeverStepsPast (rs : Relays id created_at) : DmWorld W → List DmScan → DmWorld W → Prop :=
  Run fun s scan t => DmStep rs s scan t ∧ s.NeverStepsPast rs scan

theorem run_walked {lastScan : Option Int} {scans : List DmScan} {t : DmWorld W}
    (h : Run (DmStep rs) (DmWorld.fresh lastScan) scans t) : t.Walked rs ↔ RunNeverStepsPast rs (DmWorld.fresh lastScan) scans t := by
  have hheld : (DmWorld.fresh (W := W) lastScan).Held rs := fun w hw => by cases hw
  have hwalked : (DmWorld.fresh (W := W) lastScan).Walked rs := fun w _ hlate => by
    simp [DmWorld.fresh, DmWorld.place, Upto] at hlate
  have hkeep : ∀ {s : DmWorld W} {scan u}, s.Held rs → DmStep rs s scan u → u.Held rs := by
    rintro s scan u hs rfl
    exact scan_held rs hs
  have hnext : ∀ {s : DmWorld W} {scan u}, s.Held rs → DmStep rs s scan u → (u.Walked rs ↔ s.Walked rs ∧ s.NeverStepsPast rs scan) := by
    rintro s scan u hs rfl
    exact walked_scan rs hs
  have hiff := h.holds_iff (I := DmWorld.Held rs) (Q := DmWorld.Walked rs) (G := DmWorld.NeverStepsPast rs)
    (fun ht hu => ht.trans hu.symm) hkeep hnext hheld
  exact hiff.trans (and_iff_right hwalked)

/-- The record of a finished history says that the history pages have had everything just when none stepped past a wrap. -/
theorem history_complete {lastScan : Option Int} {scans : List DmScan} {t : DmWorld W}
    (h : Run (DmStep rs) (DmWorld.fresh lastScan) scans t) (hcomplete : t.saved.historyComplete = true) :
    (∀ w ∈ rs.since none, w ∈ t.walked) ↔ RunNeverStepsPast rs (DmWorld.fresh lastScan) scans t := by
  rw [← run_walked rs h]
  simp only [DmWorld.Walked, Reads, hcomplete, true_or, true_implies]
  rfl

theorem run_returned {lastScan : Option Int} {scans : List DmScan} {t : DmWorld W}
    (h : Run (DmStep rs) (DmWorld.fresh lastScan) scans t) : ∀ w ∈ t.walked, w ∈ t.returned := by
  refine h.invariant (I := fun s => ∀ w ∈ s.walked, w ∈ s.returned) ?_ fun w hw => by cases hw
  rintro s scan u hs rfl
  exact scan_returned rs hs

/-! ## Completion -/

/-- **A read that reports completion has every wrap that any of the relays holds just when no full
page of it steps past one**: the reads of grants and of an inbox, and the history pages of the
scans of a device. None of them has a wrap twice. -/
theorem complete_has_all {Sk V M : Type} (d : Pending.Deps W Sk V M) (inbox : Relays d.wrapId d.wrapCreatedAt) :
    (∀ since : Int, ((readGrantWraps id created_at since rs.fetch).1.map id).Nodup ∧
      ((readGrantWraps id created_at since rs.fetch).2 = true →
        ((∀ w ∈ rs.since since, w ∈ (readGrantWraps id created_at since rs.fetch).1) ↔
          rs.NeverStepsPast since grantPageSize grantMaxPages))) ∧
    (∀ now : Int, ((Pending.readInboxWraps d now none inbox.fetch).1.map d.wrapId).Nodup ∧
      ((Pending.readInboxWraps d now none inbox.fetch).2 = true →
        ((∀ w ∈ inbox.since none, w ∈ (Pending.readInboxWraps d now none inbox.fetch).1) ↔
          inbox.NeverStepsPast none Pending.pendingPageSize Pending.pendingMaxPages))) ∧
    (∀ now cursor : Int, ((Pending.readInboxWraps d now (some cursor) inbox.fetch).1.map d.wrapId).Nodup ∧
      ∀ w ∈ inbox.since (Pending.sinceOf now cursor), w ∈ (Pending.readInboxWraps d now (some cursor) inbox.fetch).1) ∧
    (∀ (scan : DmScan) (state : DmScanState),
      ((scanDmGiftWraps id created_at (rs.stream scan) scan.now scan.history state).1.map id).Nodup) ∧
    ∀ (lastScan : Option Int) (scans : List DmScan) (t : DmWorld W), Run (DmStep rs) (DmWorld.fresh lastScan) scans t →
      (∀ w ∈ t.walked, w ∈ t.returned) ∧
      (t.saved.historyComplete = true →
        ((∀ w ∈ rs.since none, w ∈ t.walked) ↔ RunNeverStepsPast rs (DmWorld.fresh lastScan) scans t)) :=
  ⟨fun _ => ⟨nodup_grants rs, grants_complete rs⟩, fun _ => ⟨nodup_inbox d inbox, inbox_complete d inbox⟩,
    fun _ _ => ⟨nodup_inbox d inbox, fun _ => inbox_complete_cursor d inbox⟩, fun _ _ => nodup_scan,
    fun _ _ _ h => ⟨run_returned rs h, history_complete rs h⟩⟩

namespace Small

/-- A wrap is its own id and its own second. -/
def second (w : Nat) : Int := w

/-- `n` wraps from the second `first` on, the newest first. -/
def wraps (first n : Nat) : List Nat := ((List.range n).map (first + ·)).reverse

theorem pairwise_wraps (first n : Nat) : (wraps first n).Pairwise fun v w => second w ≤ second v := by
  rw [wraps, List.pairwise_reverse, List.pairwise_map]
  exact List.pairwise_lt_range.imp fun h => by simp only [second]; omega

theorem nodup_wraps (first n : Nat) : ((wraps first n).map fun w => w).Nodup := by
  rw [List.map_id', wraps, List.nodup_reverse]
  exact List.nodup_range.map (add_right_injective _)

def relay (first n : Nat) : Relay (fun w : Nat => w) second := .ofNewestFirst _ (wraps first n) (pairwise_wraps first n) (nodup_wraps first n)

/-- One relay with `n` wraps from the second 1 on, and one with the wrap of the second 0 only. -/
def relays (n : Nat) : Relays (fun w : Nat => w) second where
  relays := [relay 1 n, relay 0 1]
  nonempty := by simp
  ids := fun _ _ _ _ h => h

theorem mem_fetch_relays {n k w : Nat} {f : Filter} (h : w ∈ (relays n).fetch k f) :
    (w ∈ (relay 1 n).answer k f ∨ w ∈ (relay 0 1).answer k f) ∧ f.Matches (second w) := by
  refine ⟨?_, (sound_fetch _ h).2⟩
  obtain ⟨r, hr, hw⟩ := (mem_fetch _).mp h
  simp only [relays, List.mem_cons, List.not_mem_nil, or_false] at hr
  rcases hr with rfl | rfl
  · exact .inl hw
  · exact .inr hw

theorem mem_since {n w : Nat} (h : w ∈ wraps 1 n) {since : Int} (hsince : since ≤ second w) : w ∈ (relays n).since (some since) :=
  ⟨⟨relay 1 n, .head _, h⟩, fun t ht => by cases ht; exact hsince⟩

theorem answers : ((relay 1 501).answer 0 { since := some 0, until_ := none, limit := some grantPageSize }).length = grantPageSize ∧
    1 ∉ (relay 1 501).answer 0 { since := some 0, until_ := none, limit := some grantPageSize } ∧
    (relay 0 1).answer 0 { since := some 0, until_ := none, limit := some grantPageSize } = [0] := by
  decide +kernel

/-- The page of 500 wraps and the wrap of the other relay moves the bound past the oldest of 501. -/
theorem grants_missed : (readGrantWraps (fun w : Nat => w) second 0 (relays 501).fetch).2 = true ∧
    1 ∈ (relays 501).since (some 0) ∧ 1 ∉ (readGrantWraps (fun w : Nat => w) second 0 (relays 501).fetch).1 := by
  obtain ⟨hlen, hno, hsparse⟩ := answers
  have hfull : grantPageSize ≤ ((relays 501).fetch 0 { since := some 0, until_ := none, limit := some grantPageSize }).length :=
    hlen.symm.le.trans (length_answer_le (relays 501) (r := relay 1 501) (.head _))
  have hzero : 0 ∈ (relays 501).fetch 0 { since := some 0, until_ := none, limit := some grantPageSize } :=
    (mem_fetch _).mpr ⟨relay 0 1, .tail _ (.head _), by rw [hsparse]; exact .head _⟩
  have hold : oldest second ((relays 501).fetch 0 { since := some 0, until_ := none, limit := some grantPageSize }) = some 0 := by
    refine List.min?_eq_some_iff.mpr ⟨List.mem_map.mpr ⟨0, hzero, rfl⟩, ?_⟩
    rintro _ hx
    obtain ⟨w, _, rfl⟩ := List.mem_map.mp hx
    exact Int.natCast_nonneg w
  have hnext : ∀ w ∈ (relays 501).fetch 1 { since := some 0, until_ := some 0, limit := some grantPageSize }, w = 0 := by
    intro w hw
    have hle := (mem_fetch_relays hw).2.2 0 rfl
    simpa [second] using hle
  have hshort : ((relays 501).fetch 1 { since := some 0, until_ := some 0, limit := some grantPageSize }).length < grantPageSize := by
    have hnodup := nodup_fetch (relays 501) (n := 1) (f := { since := some 0, until_ := some 0, limit := some grantPageSize })
    rw [List.map_id'] at hnodup
    have hzero : ((relays 501).fetch 1 { since := some 0, until_ := some 0, limit := some grantPageSize }).Subperm [0] :=
      hnodup.subperm fun w hw => by simp [hnext w hw]
    have hle := hzero.length_le
    exact Nat.lt_of_le_of_lt hle (by decide)
  rw [grants_of_two_pages (relays 501) hfull hold hshort]
  have hheld : 1 ∈ wraps 1 501 := by simp [wraps]
  have hsince : (0 : Int) ≤ second 1 := Int.natCast_nonneg 1
  refine ⟨rfl, mem_since hheld hsince, fun hm => ?_⟩
  · dsimp only at hm
    rcases mem_of_mem_absorb hm with hm | hm
    · have hm := (mem_of_mem_absorb hm).resolve_left (by simp)
      rcases (mem_fetch_relays hm).1 with hm | hm
      · exact hno hm
      · rw [hsparse] at hm
        simp at hm
    · cases hnext 1 hm

/-- A kind of wraps that nothing opens. -/
def deps : Pending.Deps Nat Unit Unit Unit where
  wrapId w := [Fin.ofNat _ w]
  wrapCreatedAt := second
  unwrap _ _ := none
  parseJoin _ := none
  parseWithdrawal _ := none
  parseSubmission _ := none
  parseInviteTag _ := none
  parseMemberOfTags _ := []

def inbox : Relays deps.wrapId deps.wrapCreatedAt where
  relays := [.ofNewestFirst _ [2, 1] (by decide) (by decide)]
  nonempty := by simp
  ids := by
    rintro v ⟨r, hr, hv⟩ w ⟨s, hs, hw⟩ h
    simp only [List.mem_singleton] at hr hs
    subst hr hs
    simp only [Relay.ofNewestFirst, List.mem_cons, List.not_mem_nil, or_false] at hv hw
    revert h
    rcases hv with rfl | rfl <;> rcases hw with rfl | rfl <;> decide

/-- A first scan whose relays all answer. -/
def scan : DmScan := ⟨0, true, 0, fun _ => true⟩

/-- What is read when everything fits on a page. -/
theorem short_pages : (readGrantWraps (fun w : Nat => w) second 0 (relays 3).fetch).2 = true ∧
    (Pending.readInboxWraps deps 0 none inbox.fetch).2 = true ∧
    ((DmWorld.fresh none).scan (relays 3) scan).saved.historyComplete = true := by
  decide +kernel

end Small

/-- The reads of a few wraps are complete, and have them all just when none is stepped past. -/
theorem complete_has_all_small :
    ((∀ w ∈ (Small.relays 3).since (some 0), w ∈ (readGrantWraps (fun w : Nat => w) Small.second 0 (Small.relays 3).fetch).1) ↔
      (Small.relays 3).NeverStepsPast (some 0) grantPageSize grantMaxPages) ∧
    ((∀ w ∈ Small.inbox.since none, w ∈ (Pending.readInboxWraps Small.deps 0 none Small.inbox.fetch).1) ↔
      Small.inbox.NeverStepsPast none Pending.pendingPageSize Pending.pendingMaxPages) ∧
    ((∀ w ∈ (Small.relays 3).since none, w ∈ ((DmWorld.fresh none).scan (Small.relays 3) Small.scan).walked) ↔
      RunNeverStepsPast (Small.relays 3) (DmWorld.fresh none) [Small.scan] ((DmWorld.fresh none).scan (Small.relays 3) Small.scan)) := by
  obtain ⟨hgrants, hinbox, hdms⟩ := Small.short_pages
  obtain ⟨hg, hi, -, -, hd⟩ := complete_has_all (Small.relays 3) Small.deps Small.inbox
  exact ⟨(hg 0).2 hgrants, (hi 0).2 hinbox, (hd none [Small.scan] _ (.cons rfl .nil)).2 hdms⟩

/-- A relay with more wraps than a page holds, beside one with a wrap from long before: both
reads report completion without the oldest wrap of the first. -/
theorem complete_without_oldest :
    ((readGrantWraps (fun w : Nat => w) Small.second 0 (Small.relays 501).fetch).2 = true ∧
      1 ∈ (Small.relays 501).since (some 0) ∧ 1 ∉ (readGrantWraps (fun w : Nat => w) Small.second 0 (Small.relays 501).fetch).1) ∧
    ((DmWorld.fresh none).scan (Small.relays 201) Small.scan).saved.historyComplete = true ∧
      1 ∉ ((DmWorld.fresh none).scan (Small.relays 201) Small.scan).returned :=
  ⟨Small.grants_missed, by decide +kernel⟩

end Nostrautica.PagedReads
