/-
A roster that is rewritten keeps its members (`rewrites_keep_members`), where the pages that are
skipped are on the relays at the addresses that are written. An approval does not look: the page
that it skips may have been read at the derived address (`approved_not_listed`).
-/
import Nostrautica.App.ClientRotationFacts
import Nostrautica.App.RosterRewrite
import Nostrautica.Protocol.RosterAddressFacts

set_option linter.unusedSectionVars false

namespace Nostrautica.ClientRoster

open Js Roster Keystore Nostrautica.Membership

variable {K T C : Type} [DecidableEq K] [DecidableEq T] [DecidableEq C] {d : Deps K T C} {c : Context} {keys : EventKeys K}
  {relays events : List (PageEvent C)} {v used : EckVersion K} {e : PageEvent C} {hasSeen : Bool} {roster : RosterContent}
  {stamp now : Int} {ids : Nat → JsString} {op : Rewrite K} {w : Rewriting K C}

/-! ## The latest record -/

theorem supersedes_of_lt {a b : PageEvent C} (h : b.created_at < a.created_at) :
    Pending.supersedes ⟨a.id, a.created_at⟩ ⟨b.id, b.created_at⟩ = true ∧ Pending.supersedes ⟨b.id, b.created_at⟩ ⟨a.id, a.created_at⟩ = false := by
  have hne : a.created_at ≠ b.created_at := by omega
  simp only [Pending.supersedes, if_pos hne, if_pos hne.symm, decide_eq_true_eq, decide_eq_false_iff_not]
  exact ⟨h, by omega⟩

/-- A record that is later than all others is the latest. -/
theorem pickLatest_eq {l : List (PageEvent C)} (he : e ∈ l) (hlater : ∀ e' ∈ l, e' ≠ e → e'.created_at < e.created_at) :
    pickLatest l = some e := by
  induction l using List.reverseRecOn with
  | nil => cases he
  | append_singleton l a ih =>
    rw [pickLatest_append]
    by_cases hae : a = e
    · subst hae
      cases hp : pickLatest l with
      | none => rfl
      | some b =>
        by_cases hba : b = a
        · rw [hba, ite_self]
        · exact if_pos (supersedes_of_lt (hlater b (List.mem_append_left _ (pickLatest_mem hp)) hba)).1
    · have hl : e ∈ l := by
        rcases List.mem_append.1 he with hl | hl
        · exact hl
        · exact absurd (List.mem_singleton.1 hl).symm hae
      rw [ih hl fun e' he' => hlater e' (List.mem_append_left _ he')]
      refine if_neg fun hall => ?_
      rw [Option.all_some, (supersedes_of_lt (hlater a (by simp) hae)).2] at hall
      cases hall

theorem exists_pickLatest {l : List (PageEvent C)} (he : e ∈ l) : ∃ b, pickLatest l = some b := by
  induction l using List.reverseRecOn with
  | nil => cases he
  | append_singleton l a ih =>
    rw [pickLatest_append]
    split
    · exact ⟨a, rfl⟩
    next hall =>
      cases hp : pickLatest l with
      | none => exact absurd (by rw [hp]; rfl) hall
      | some b => exact ⟨b, rfl⟩

/-- None is later than the latest. -/
theorem le_pickLatest {l : List (PageEvent C)} {b : PageEvent C} (h : pickLatest l = some b) (he : e ∈ l) : e.created_at ≤ b.created_at := by
  induction l using List.reverseRecOn generalizing b with
  | nil => cases he
  | append_singleton l a ih =>
    rw [pickLatest_append] at h
    have hold : ∀ {b'}, pickLatest l = some b' → e ∈ l → e.created_at ≤ b'.created_at := fun hb he => ih hb he
    split at h
    next hall =>
      cases h
      rcases List.mem_append.1 he with he | he
      · obtain ⟨b', hb'⟩ := exists_pickLatest he
        rw [hb', Option.all_some] at hall
        by_contra hlt
        have := (supersedes_of_lt (lt_of_lt_of_le (not_le.1 hlt) (hold hb' he))).2
        rw [hall] at this
        cases this
      · rw [List.mem_singleton.1 he]
    next hall =>
      rcases List.mem_append.1 he with he | he
      · exact hold h he
      · rw [List.mem_singleton.1 he]
        by_contra hlt
        refine hall ?_
        rw [h, Option.all_some]
        exact (supersedes_of_lt (not_le.1 hlt)).1

/-! ## What was read -/

/-- The members of merged pages are those on the pages, where there is room. -/
theorem pubkeys_foldl {as kept : List RosterAttendee} (h : kept.length + as.length ≤ maxRoster) {pubkey : JsString} :
    pubkey ∈ (as.foldl keepAttendee kept).map (·.pubkey) ↔ pubkey ∈ kept.map (·.pubkey) ∨ pubkey ∈ as.map (·.pubkey) := by
  induction as generalizing kept with
  | nil => simp
  | cons a as ih =>
    rw [List.length_cons] at h
    rw [List.foldl_cons, keepAttendee, if_neg (by omega)]
    split
    next hmem =>
      rw [List.contains_iff_mem] at hmem
      rw [ih (by omega), List.map_cons, List.mem_cons]
      constructor
      · rintro (h | h)
        · exact .inl h
        · exact .inr (.inr h)
      · rintro (h | rfl | h)
        · exact .inl h
        · exact .inl hmem
        · exact .inr h
    · rw [ih (by simp; omega)]
      simp [or_assoc]

/-- What a roster that was read is: the latest, under a key that is held, of at most one page's
members more than merging admits. -/
structure WasRead (d : Deps K T C) (c : Context) (relays : List (PageEvent C)) (roster : RosterContent) (stamp : Int) (used : EckVersion K) :
    Prop where
  latest : ∃ e, pickLatest (page0s c relays) = some e ∧ e.created_at ≤ stamp ∧ readRoster d c relays e used = some (.ok roster stamp used)
  shaped : rosterShaped roster = true
  unpaged : roster.pages = none

theorem shaped_of_readRoster (hd : Sealed d) (h : readRoster d c relays e v = some (.ok roster stamp used)) :
    rosterShaped roster = true ∧ roster.pages = none ∧ e.created_at ≤ stamp ∧ used = v := by
  have hall := schema_of_readRoster hd h
  simp only [readRoster, Option.bind_eq_bind] at h
  obtain ⟨text, -, h⟩ := Option.bind_eq_some_iff.1 h
  obtain ⟨page0, hpage0, h⟩ := Option.bind_eq_some_iff.1 h
  have hschema := hd.parsed _ _ hpage0
  simp only [rosterContentSchema, Bool.and_eq_true] at hschema
  split at h
  · obtain ⟨rest, -, h⟩ := Option.bind_eq_some_iff.1 h
    obtain ⟨merged, hmerged, h⟩ := Option.bind_eq_some_iff.1 h
    cases h
    rw [mergeRosterPages] at hmerged
    cases hmerged
    have hgroup := truthyGroupId_eq hschema.1
    have hs := hschema.1
    simp only [rosterShaped, Bool.and_eq_true] at hs
    refine ⟨?_, rfl, le_max_left _ _, rfl⟩
    simp only [rosterShaped, Bool.and_eq_true, hgroup]
    exact ⟨⟨⟨⟨⟨rfl, hs.1.1.1.1.2⟩, hs.1.1.1.2⟩, rfl⟩, List.all_eq_true.2 hall⟩, rfl⟩
  next hpages =>
    cases h
    refine ⟨hschema.1, ?_, le_rfl, rfl⟩
    have hs := hschema.1
    simp only [rosterShaped, Bool.and_eq_true] at hs
    cases hp : roster.pages with
    | none => rfl
    | some n =>
      have h2 := hs.1.1.2
      rw [hp] at h2 hpages
      simp at h2 hpages
      omega

theorem wasRead_of_loadRoster (hd : Sealed d) (h : loadRoster d c relays keys.eck keys.pendingEck hasSeen = .ok roster stamp used) :
    WasRead d c relays roster stamp used := by
  unfold loadRoster at h
  split at h
  · cases h
  next latest hlatest =>
    simp only at h
    split at h
    · cases h
    · split at h
      · cases h
      next v _ =>
        cases hr : readRoster d c relays latest v with
        | none => rw [hr] at h; cases h
        | some r =>
          rw [hr, Option.getD_some] at h
          subst h
          obtain ⟨hs, hp, hle, rfl⟩ := shaped_of_readRoster hd hr
          exact ⟨⟨latest, hlatest, hle, hr⟩, hs, hp⟩

theorem loadRoster_ne_absent {b : PageEvent C} {suspect : Bool} (h : pickLatest (page0s c relays) = some b) :
    loadRoster d c relays keys.eck keys.pendingEck hasSeen ≠ .absent suspect := by
  intro hload
  simp only [loadRoster, h] at hload
  split at hload
  · cases hload
  · split at hload
    · cases hload
    next v _ =>
      cases hr : readRoster d c relays b v with
      | none => rw [hr] at hload; cases hload
      | some r =>
        rw [hr, Option.getD_some] at hload
        rw [hload] at hr
        simp only [readRoster, Option.bind_eq_bind] at hr
        obtain ⟨text, -, hr⟩ := Option.bind_eq_some_iff.1 hr
        obtain ⟨page0, -, hr⟩ := Option.bind_eq_some_iff.1 hr
        split at hr
        · obtain ⟨rest, -, hr⟩ := Option.bind_eq_some_iff.1 hr
          obtain ⟨merged, -, hr⟩ := Option.bind_eq_some_iff.1 hr
          cases hr
        · cases hr

/-! ## What is written -/

/-- The record of a page that is written. -/
def pageEvent (d : Deps K T C) (c : Context) (v : EckVersion K) (createdAt : Int) (ids : Nat → JsString) (i : Nat) (p : RosterContent) : PageEvent C :=
  { id := ids i
    author := c.eidPubkey
    created_at := createdAt
    d := rosterPageD c.identifier i
    a := some c.coordinate
    eck := some ⟨v.id, some (d.fingerprint v.key)⟩
    content := d.eckEncrypt v.key (d.pageText p) }

theorem mem_events {previous : Option RosterContent} {next : RosterContent} {pages : List RosterContent}
    (h : buildRosterEvents d c v next stamp previous now ids = .ok events)
    (hsplit : splitRoster { next with eckCurrent := v.id } = .ok pages) :
    e ∈ events ↔ ∃ i p, pages[i]? = some p ∧ (onRelay d v.id previous)[i]? ≠ some (d.pageText p) ∧
      e = pageEvent d c v (max now (stamp + 1)) ids i p := by
  simp only [buildRosterEvents, hsplit] at h
  cases h
  rw [List.mem_filterMap]
  constructor
  · rintro ⟨⟨p, i⟩, hp, he⟩
    simp only at he
    split at he
    · cases he
    next hne =>
      cases he
      exact ⟨i, p, List.mem_zipIdx_iff_getElem?.1 hp, hne, rfl⟩
  · rintro ⟨i, p, hp, hne, rfl⟩
    exact ⟨(p, i), List.mem_zipIdx_iff_getElem?.2 hp, if_neg hne⟩

/-- Of two pages the one that changed is written. -/
theorem build_last {previous next p q q' : RosterContent} (hold : splitRoster { previous with eckCurrent := v.id } = .ok [p, q])
    (hnew : splitRoster { next with eckCurrent := v.id } = .ok [p, q']) (hne : d.pageText q ≠ d.pageText q') :
    buildRosterEvents d c v next stamp (some previous) now ids = .ok [pageEvent d c v (max now (stamp + 1)) ids 1 q'] := by
  have hne' : ¬some (d.pageText q) = some (d.pageText q') := fun h => hne (Option.some.inj h)
  have hknown : onRelay d v.id (some previous) = [d.pageText p, d.pageText q] := by
    simp only [onRelay, hold, List.map_cons, List.map_nil]
  simp only [buildRosterEvents, hnew, hknown]
  simp [List.zipIdx_cons, hne', pageEvent]

theorem rosterPageD_inj_index {base : JsString} {i j : Nat} (hi : i < maxRosterPages) (hj : j < maxRosterPages)
    (h : rosterPageD base i = rosterPageD base j) : i = j := by
  have hnat : ∀ i < maxRosterPages, (toNumber (natToString i)).toNat? = some i := by decide +kernel
  cases i with
  | zero =>
    cases j with
    | zero => rfl
    | succ j =>
      rw [rosterPageD_zero, rosterPageD_succ] at h
      exact absurd (congrArg List.length h) (by simp)
  | succ i =>
    cases j with
    | zero =>
      rw [rosterPageD_zero, rosterPageD_succ] at h
      exact absurd (congrArg List.length h) (by simp)
    | succ j =>
      rw [rosterPageD_succ, rosterPageD_succ, List.append_cancel_left_eq, List.cons.injEq] at h
      exact Option.some.inj ((hnat _ hi).symm.trans ((congrArg (fun s => (toNumber s).toNat?) h.2).trans (hnat _ hj)))

/-- No continuation page is where page 0 is looked for. -/
theorem Context.Addressed.not_page0 (hc : c.Addressed) {i : Nat} (hi : 0 < i) : rosterPageD c.identifier i ∉ c.page0Ds := by
  obtain ⟨i, rfl⟩ := Nat.exists_eq_succ_of_ne_zero hi.ne'
  intro hmem
  rw [rosterPageD_succ] at hmem
  rcases hc.derived _ hmem with h | h
  · exact absurd (congrArg List.length h) (by simp)
  · exact IsHash.colon_not_mem h (by simp)

/-! ## What a reader finds -/

/-- What is published is on the relays. -/
structure Written (d : Deps K T C) (c : Context) (relays : List (PageEvent C)) (now : Int) (ids : Nat → JsString) (w : Rewriting K C) : Prop where
  built : buildRosterEvents d c w.eck w.next w.stamp w.previous now ids = .ok w.events
  latest : ∀ e ∈ page0s c relays, e.created_at ≤ w.stamp
  shaped : rosterShaped { w.next with eckCurrent := w.eck.id } = true
  unpaged : w.next.pages = none

theorem opens_pageEvent (hd : Sealed d) {createdAt : Int} {i : Nat} {p : RosterContent} (hp : rosterContentSchema p = true) :
    Opens d v (pageEvent d c v createdAt ids i p) p := by
  rw [Opens, pageEvent, hd.opens, Option.bind_some, hd.parses p hp]

/-- The latest page 0 after. -/
theorem Written.first (h : Written d c relays now ids w) (hd : Sealed d) (hc : c.Addressed) (hlands : w.Lands d c relays now)
    {pages : List RosterContent} (hsplit : splitRoster { w.next with eckCurrent := w.eck.id } = .ok pages) {p : RosterContent}
    (hp : pages[0]? = some p) : ∃ e, pickLatest (page0s c (relays ++ w.events)) = some e ∧ e.author = c.eidPubkey ∧ e.d = c.identifier ∧
      Opens d w.eck e p := by
  have hschema := schema_of_splitRoster h.shaped h.unpaged hsplit p (List.mem_of_getElem? hp)
  have happend : page0s c (relays ++ w.events) = page0s c relays ++ page0s c w.events := List.filter_append ..
  have hevents : ∀ e ∈ page0s c w.events, ¬(onRelay d w.eck.id w.previous)[0]? = some (d.pageText p) ∧
      e = pageEvent d c w.eck (max now (w.stamp + 1)) ids 0 p := by
    intro e he
    obtain ⟨he, hat⟩ := List.mem_filter.1 he
    obtain ⟨i, q, hq, hne, rfl⟩ := (mem_events h.built hsplit).1 he
    rw [decide_eq_true_eq] at hat
    cases Nat.eq_zero_or_pos i with
    | inl hi =>
      subst hi
      cases hp.symm.trans hq
      exact ⟨hne, rfl⟩
    | inr hi => exact absurd hat.2.1 (hc.not_page0 hi)
  by_cases hskip : (onRelay d w.eck.id w.previous)[0]? = some (d.pageText p)
  · obtain ⟨e, he, hauthor, hat, hopen⟩ := hlands.first p ⟨⟨pages, hsplit, hp⟩, hskip⟩
    have hnone : page0s c w.events = [] := List.eq_nil_iff_forall_not_mem.2 fun e' he' => (hevents e' he').1 hskip
    exact ⟨e, by rw [happend, hnone, List.append_nil, he], hauthor, hat, hopen⟩
  · have hmem : pageEvent d c w.eck (max now (w.stamp + 1)) ids 0 p ∈ page0s c w.events :=
      List.mem_filter.2 ⟨(mem_events h.built hsplit).2 ⟨0, p, hp, hskip, rfl⟩,
        by simp [pageEvent, hc.author, rosterPageD_zero, hc.legacy]⟩
    refine ⟨pageEvent d c w.eck (max now (w.stamp + 1)) ids 0 p, ?_, rfl, rosterPageD_zero _, opens_pageEvent hd hschema⟩
    rw [happend]
    refine pickLatest_eq (List.mem_append_right _ hmem) fun e' he' hne => ?_
    rcases List.mem_append.1 he' with he' | he'
    · exact lt_of_le_of_lt (h.latest e' he') (lt_of_lt_of_le (Int.lt_succ _) (le_max_right _ _))
    · exact absurd (hevents e' he').2 hne

/-- A continuation page after. -/
theorem Written.page (h : Written d c relays now ids w) (hd : Sealed d) (hlands : w.Lands d c relays now)
    {pages : List RosterContent} (hsplit : splitRoster { w.next with eckCurrent := w.eck.id } = .ok pages) {i : Nat} (hi : 0 < i)
    {p : RosterContent} (hp : pages[i]? = some p) :
    ∃ stamp, loadPage d c (relays ++ w.events) w.eck.key c.eidPubkey c.identifier i = some (p, stamp) := by
  have hschema := schema_of_splitRoster h.shaped h.unpaged hsplit p (List.mem_of_getElem? hp)
  have hlt : ∀ {i p}, pages[i]? = some p → i < maxRosterPages := fun hp =>
    lt_of_lt_of_le (List.getElem?_eq_some_iff.1 hp).1 (length_splitRoster hsplit)
  have happend : recordsAt c (relays ++ w.events) c.eidPubkey (rosterPageD c.identifier i) =
      recordsAt c relays c.eidPubkey (rosterPageD c.identifier i) ++ recordsAt c w.events c.eidPubkey (rosterPageD c.identifier i) :=
    List.filter_append ..
  have hevents : ∀ e ∈ recordsAt c w.events c.eidPubkey (rosterPageD c.identifier i),
      ¬(onRelay d w.eck.id w.previous)[i]? = some (d.pageText p) ∧ e = pageEvent d c w.eck (max now (w.stamp + 1)) ids i p := by
    intro e he
    obtain ⟨he, hat⟩ := List.mem_filter.1 he
    obtain ⟨j, q, hq, hne, rfl⟩ := (mem_events h.built hsplit).1 he
    rw [decide_eq_true_eq] at hat
    cases rosterPageD_inj_index (hlt hq) (hlt hp) hat.2.2
    cases hp.symm.trans hq
    exact ⟨hne, rfl⟩
  have hload : ∀ {e}, pickLatest (recordsAt c (relays ++ w.events) c.eidPubkey (rosterPageD c.identifier i)) = some e → Opens d w.eck e p →
      ∃ stamp, loadPage d c (relays ++ w.events) w.eck.key c.eidPubkey c.identifier i = some (p, stamp) := by
    intro e he hopen
    rw [Opens] at hopen
    exact ⟨e.created_at, by rw [loadPage, he, Option.bind_some, hopen, Option.map_some]⟩
  by_cases hskip : (onRelay d w.eck.id w.previous)[i]? = some (d.pageText p)
  · obtain ⟨e, he, hopen⟩ := hlands.stored i p hi ⟨⟨pages, hsplit, hp⟩, hskip⟩
    have hnone : recordsAt c w.events c.eidPubkey (rosterPageD c.identifier i) = [] :=
      List.eq_nil_iff_forall_not_mem.2 fun e' he' => (hevents e' he').1 hskip
    exact hload (by rw [happend, hnone, List.append_nil, he]) hopen
  · have hmem : pageEvent d c w.eck (max now (w.stamp + 1)) ids i p ∈ recordsAt c w.events c.eidPubkey (rosterPageD c.identifier i) :=
      List.mem_filter.2 ⟨(mem_events h.built hsplit).2 ⟨i, p, hp, hskip, rfl⟩, by simp [pageEvent]⟩
    refine hload (e := pageEvent d c w.eck (max now (w.stamp + 1)) ids i p) ?_ (opens_pageEvent hd hschema)
    rw [happend]
    refine pickLatest_eq (List.mem_append_right _ hmem) fun e' he' hne => ?_
    rcases List.mem_append.1 he' with he' | he'
    · exact hlands.older i p hi ⟨pages, hsplit, hp⟩ (fun hs => hskip hs.2) e' he'
    · exact absurd (hevents e' he').2 hne

theorem mapM_pages {f : Nat → Option (RosterContent × Int)} {k : Nat} (pages : List RosterContent)
    (h : ∀ i p, pages[i]? = some p → ∃ stamp, f (k + i) = some (p, stamp)) :
    ∃ read, (List.range' k pages.length).mapM f = some read ∧ read.map (·.1) = pages := by
  induction pages generalizing k with
  | nil => exact ⟨[], rfl, rfl⟩
  | cons p pages ih =>
    obtain ⟨stamp, hp⟩ := h 0 p rfl
    rw [Nat.add_zero] at hp
    obtain ⟨read, hread, hpages⟩ := ih (k := k + 1) fun i q hq => by
      rw [Nat.add_assoc, Nat.add_comm 1 i]
      exact h (i + 1) q hq
    refine ⟨(p, stamp) :: read, ?_, by rw [List.map_cons, hpages]⟩
    rw [List.length_cons, List.range'_succ, List.mapM_cons, hp, hread]
    rfl

/-- A reader finds the members of the roster that was to be published. -/
theorem Written.members (h : Written d c relays now ids w) (hd : Sealed d) (hc : c.Addressed) (hlands : w.Lands d c relays now) :
    ∃ e roster stamp, pickLatest (page0s c (relays ++ w.events)) = some e ∧
      readRoster d c (relays ++ w.events) e w.eck = some (.ok roster stamp w.eck) ∧
      ∀ pubkey, pubkey ∈ roster.attendees.map (·.pubkey) ↔ pubkey ∈ w.next.attendees.map (·.pubkey) := by
  obtain ⟨pages, hsplit⟩ : ∃ pages, splitRoster { w.next with eckCurrent := w.eck.id } = .ok pages := by
    have hbuilt := h.built
    cases hs : splitRoster { w.next with eckCurrent := (w.eck.id : Int) } with
    | error _ => simp only [buildRosterEvents, hs] at hbuilt; cases hbuilt
    | ok pages => exact ⟨pages, rfl⟩
  rcases splitRoster_eq hsplit with ⟨hfit, hpages⟩ | ⟨hfit, hlen, hmax, hpages⟩
  · obtain ⟨e, he, -, -, hopen⟩ := h.first hd hc hlands hsplit (p := { w.next with eckCurrent := w.eck.id }) (by rw [hpages]; rfl)
    obtain ⟨text, htext, hparse⟩ := Option.bind_eq_some_iff.1 hopen
    refine ⟨e, { w.next with eckCurrent := w.eck.id }, e.created_at, he, ?_, fun _ => Iff.rfl⟩
    simp only [readRoster, htext, hparse, h.unpaged, Option.bind_eq_bind, Option.bind_some, Option.getD_none, gt_iff_lt, lt_irrefl,
      if_false]
    rfl
  · have h2 := two_le_packPages h.shaped h.unpaged hfit
    obtain ⟨hflat, -⟩ := packPages_spec h.shaped
    generalize hg : packPages { w.next with eckCurrent := (w.eck.id : Int) } = groups at hpages h2 hflat
    cases groups with
    | nil => simp at h2
    | cons g gs =>
      rw [List.mapIdx_cons] at hpages
      generalize hrest : gs.mapIdx (fun i as => buildPage { w.next with eckCurrent := (w.eck.id : Int) } (i + 1) (g :: gs).length as) = rest
        at hpages
      have hlenrest : rest.length + 1 = (g :: gs).length := by rw [← hrest, List.length_mapIdx, List.length_cons]
      obtain ⟨e, he, hauthor, hat, hopen⟩ := h.first hd hc hlands hsplit (by rw [hpages]; rfl)
      obtain ⟨text, htext, hparse⟩ := Option.bind_eq_some_iff.1 hopen
      obtain ⟨read, hread, hmap⟩ := mapM_pages (f := loadPage d c (relays ++ w.events) w.eck.key c.eidPubkey c.identifier) (k := 1)
        rest fun i p hp => h.page hd hlands hsplit (by omega) (by rw [hpages, Nat.add_comm, List.getElem?_cons_succ, hp])
      have hload : loadRosterPages d c (relays ++ w.events) w.eck.key c.eidPubkey (g :: gs).length c.identifier =
          some (rest, (read.map (·.2)).foldl max 0) := by
        rw [loadRosterPages, ← hlenrest, Nat.add_sub_cancel, hread, Option.map_some, hmap]
      have hpage0 : ∃ page0, page0 = buildPage { w.next with eckCurrent := (w.eck.id : Int) } 0 (g :: gs).length g ∧
          page0.pages.getD 1 = (g :: gs).length ∧ page0.attendees = g := ⟨_, rfl, rfl, rfl⟩
      obtain ⟨page0, hdef, hcount, hpage0⟩ := hpage0
      rw [← hdef] at hparse
      obtain ⟨merged, hmerge, hmembers⟩ : ∃ merged, mergeRosterPages (page0 :: rest) = .ok merged ∧
          merged.attendees = (page0 :: rest).foldl (fun kept page => page.attendees.foldl keepAttendee kept) [] := ⟨_, rfl, rfl⟩
      have hattendees : rest.map (·.attendees) = gs := by
        rw [← hrest]
        refine List.ext_getElem (by simp) fun i hi hi' => ?_
        rw [List.getElem_map, List.getElem_mapIdx, buildPage_attendees]
      refine ⟨e, merged, max e.created_at ((read.map (·.2)).foldl max 0), he, ?_, fun pubkey => ?_⟩
      · simp only [readRoster, htext, hparse, hcount, Option.bind_eq_bind, Option.bind_some, if_pos (by omega : (g :: gs).length > 1), hauthor,
          hat, hload, hmerge]
        rfl
      · simp only [hmembers, foldl_pages, List.map_cons, hpage0, hattendees, hflat]
        rw [pubkeys_foldl (by simpa using hlen)]
        simp

/-! ## The operations -/

/-- The roster to go by. -/
theorem of_rosterForRewrite (hd : Sealed d) {m n : Nat} (hn : 0 < n) (hnum : isNumberInt n = true)
    (h : rosterForRewrite (loadRoster d c relays keys.eck keys.pendingEck hasSeen) m = some (roster, stamp)) :
    rosterShaped { roster with eckCurrent := n } = true ∧ roster.pages = none ∧ ∀ e ∈ page0s c relays, e.created_at ≤ stamp := by
  cases hload : loadRoster d c relays keys.eck keys.pendingEck hasSeen with
  | ok r st used =>
    rw [hload] at h
    cases h
    obtain ⟨⟨e, he, hle, -⟩, hs, hp⟩ := wasRead_of_loadRoster hd hload
    refine ⟨?_, hp, fun e' he' => (le_pickLatest he he').trans hle⟩
    simp only [rosterShaped, Bool.and_eq_true] at hs ⊢
    exact ⟨⟨⟨⟨⟨hs.1.1.1.1.1, by simp [hn, hnum]⟩, hs.1.1.1.2⟩, hs.1.1.2⟩, hs.1.2⟩, hs.2⟩
  | foreign => rw [hload] at h; cases h
  | unreadable => rw [hload] at h; cases h
  | absent suspect =>
    rw [hload] at h
    cases suspect with
    | true => cases h
    | false =>
      cases h
      refine ⟨by simp [rosterShaped, hn, hnum], rfl, fun e he => ?_⟩
      obtain ⟨b, hb⟩ := exists_pickLatest he
      exact absurd hload (loadRoster_ne_absent hb)

theorem members_rekeyed {keep : Bool} {attendees : List RosterAttendee} :
    (rekeyed d v keep attendees).attendees.map (·.pubkey) = attendees.map (·.pubkey) := by
  simp [rekeyed]

theorem attendees_of_shaped (h : rosterShaped roster = true) : ∀ a ∈ roster.attendees, rosterAttendeeSchema a = true := by
  simp only [rosterShaped, Bool.and_eq_true, List.all_eq_true] at h
  exact h.1.2

theorem written_of_rekey (hd : Sealed d) {rotation : Rotation} {key : K} (h : rekeyRoster d c keys relays hasSeen rotation key now ids = some w)
    (hid : 0 < w.eck.id) (hnum : isNumberInt w.eck.id = true) : Written d c relays now ids w ∧
      ∀ pubkey, pubkey ∈ w.next.attendees.map (·.pubkey) ↔ (Rewrite.rekey rotation key).members w.roster pubkey := by
  unfold rekeyRoster at h
  simp only at h
  split at h
  next rotation' keys' roster stamp new hmint =>
    obtain ⟨events, hevents, rfl⟩ := Option.map_eq_some_iff.1 h
    have hbuilt : buildRosterEvents d c new (rekeyed d new rotation.keepChatKeys (rotation.attendees roster)) stamp none now ids = .ok events := by
      cases hb : buildRosterEvents d c new (rekeyed d new rotation.keepChatKeys (rotation.attendees roster)) stamp none now ids with
      | error _ => rw [hb] at hevents; cases hevents
      | ok es => rw [hb] at hevents; cases hevents; rfl
    unfold Rotation.mint at hmint
    simp only at hmint
    split at hmint
    · cases hmint
    next r st hrewrite =>
      split at hmint
      · cases hmint
        obtain ⟨hshaped, -, hlatest⟩ := of_rosterForRewrite hd hid hnum hrewrite
        have hall : ∀ a ∈ rotation.attendees roster, rosterAttendeeSchema a = true := by
          intro a ha
          refine attendees_of_shaped hshaped a ?_
          cases rotation with
          | revoke removed => exact List.mem_of_mem_filter ha
          | _ => exact ha
        refine ⟨⟨hbuilt, hlatest, shaped_rekeyed hd hid hnum hall, rfl⟩, fun pubkey => ?_⟩
        rw [members_rekeyed]
        cases rotation with
        | revoke removed =>
          simp only [Rotation.attendees, Rewrite.members, List.mem_map, List.mem_filter, decide_eq_true_eq]
          constructor
          · rintro ⟨a, ⟨ha, hne⟩, rfl⟩
            exact ⟨⟨a, ha, rfl⟩, hne⟩
          · rintro ⟨⟨a, ha, rfl⟩, hne⟩
            exact ⟨a, ⟨ha, hne⟩, rfl⟩
        | _ => exact Iff.rfl
      · cases hmint
  · cases h

/-- What an approval reads and builds. -/
theorem approve_inv {pubkey : JsString} {role : RosterRole} (h : approveAttendee d c keys relays hasSeen pubkey role now ids = some w) :
    rosterForRewrite (loadRoster d c relays keys.eck keys.pendingEck hasSeen) w.eck.id = some (w.roster, w.stamp) ∧
      (∀ roster stamp used, loadRoster d c relays keys.eck keys.pendingEck hasSeen = .ok roster stamp used → w.eck = used) ∧
      w.previous = some w.roster ∧
      w.next = withAttendee d w.eck w.roster pubkey role ∧
      buildRosterEvents d c w.eck w.next w.stamp w.previous now ids = .ok w.events := by
  simp only [approveAttendee, Option.bind_eq_bind] at h
  obtain ⟨current, -, h⟩ := Option.bind_eq_some_iff.1 h
  split at h
  · cases h
  · obtain ⟨⟨roster, stamp⟩, hrewrite, h⟩ := Option.bind_eq_some_iff.1 h
    simp only at h
    split at h
    · cases h
    · obtain ⟨events, hevents, h⟩ := Option.bind_eq_some_iff.1 h
      cases h
      refine ⟨hrewrite, fun r st used hload => by rw [hload]; rfl, rfl, rfl, ?_⟩
      revert hevents
      generalize buildRosterEvents d c _ _ stamp (some roster) now ids = built
      intro hevents
      cases built with
      | error _ => cases hevents
      | ok es => cases hevents; rfl

theorem written_of_approve (hd : Sealed d) {pubkey : JsString} {role : RosterRole} (hpk : isHex32 pubkey = true)
    (h : approveAttendee d c keys relays hasSeen pubkey role now ids = some w)
    (hid : 0 < w.eck.id) (hnum : isNumberInt w.eck.id = true) : Written d c relays now ids w ∧
      ∀ member, member ∈ w.next.attendees.map (·.pubkey) ↔ (Rewrite.approve (K := K) pubkey role).members w.roster member := by
  obtain ⟨hrewrite, -, -, hnext, hbuilt⟩ := approve_inv h
  obtain ⟨hshaped, hpages, hlatest⟩ := of_rosterForRewrite hd hid hnum hrewrite
  by_cases hlisted : (w.roster.attendees.any (·.pubkey = pubkey)) = true
  · rw [withAttendee, if_pos hlisted] at hnext
    refine ⟨⟨hbuilt, hlatest, hnext ▸ hshaped, hnext ▸ hpages⟩, fun member => ?_⟩
    rw [hnext]
    have hmem : pubkey ∈ w.roster.attendees.map (·.pubkey) := by
      obtain ⟨a, ha, he⟩ := List.any_eq_true.1 hlisted
      exact List.mem_map.2 ⟨a, ha, of_decide_eq_true he⟩
    simp only [Rewrite.members]
    constructor
    · exact .inl
    · rintro (h | rfl)
      · exact h
      · exact hmem
  · rw [withAttendee, if_neg hlisted] at hnext
    refine ⟨⟨hbuilt, hlatest, ?_, by rw [hnext]; exact hpages⟩, fun member => ?_⟩
    · rw [hnext]
      simp only [rosterShaped, Bool.and_eq_true] at hshaped ⊢
      refine ⟨⟨hshaped.1.1, ?_⟩, hshaped.2⟩
      rw [List.all_append, Bool.and_eq_true]
      refine ⟨hshaped.1.2, ?_⟩
      simp [rosterAttendeeSchema, hpk, hd.blinded]
    · rw [hnext]
      simp [Rewrite.members]

/-- An approval whose roster was read under the current version. -/
theorem approve_of_ok {pubkey : JsString} {role : RosterRole} {next : RosterContent}
    (hload : loadRoster d c relays keys.eck keys.pendingEck hasSeen = .ok roster stamp used) (hstay : promotePending d keys used = keys)
    (hcurrent : canonicalEck d.fingerprint keys.eck = some v) (hcollides : eckCollides keys v = false)
    (hnext : withAttendee d used roster pubkey role = next) (hroom : next.attendees.length ≤ maxRoster)
    (hbuilt : buildRosterEvents d c used next stamp (some roster) now ids = .ok events) :
    rewrite d c keys relays hasSeen now ids (.approve pubkey role) = some ⟨roster, stamp, used, some roster, next, events⟩ := by
  have hkeys : afterRead d keys (.ok roster stamp used) = keys := hstay
  simp only [rewrite, approveAttendee, hload, hkeys, hcurrent, Option.bind_eq_bind, Option.bind_some, hcollides, RosterRead.used,
    Option.getD_some, rosterForRewrite, hnext, if_neg (not_lt.2 hroom), hbuilt, Except.toOption, if_false, Bool.false_eq_true]
  rfl

/-- An approval of who is listed publishes no page. -/
theorem keeps_of_listed (hd : Sealed d) {pubkey : JsString} {role : RosterRole}
    (h : approveAttendee d c keys relays hasSeen pubkey role now ids = some w) (hlisted : pubkey ∈ w.roster.attendees.map (·.pubkey)) :
    w.Keeps d c relays (.approve pubkey role) := by
  obtain ⟨hrewrite, heck, hprevious, hnext, hbuilt⟩ := approve_inv h
  have hany : (w.roster.attendees.any (·.pubkey = pubkey)) = true := by
    obtain ⟨a, ha, he⟩ := List.mem_map.1 hlisted
    exact List.any_eq_true.2 ⟨a, ha, decide_eq_true he⟩
  rw [withAttendee, if_pos hany] at hnext
  have hnone : w.events = [] := by
    rw [hnext, hprevious] at hbuilt
    cases hs : splitRoster { w.roster with eckCurrent := (w.eck.id : Int) } with
    | error _ => simp only [buildRosterEvents, hs] at hbuilt; cases hbuilt
    | ok pages =>
      refine List.eq_nil_iff_forall_not_mem.2 fun e he => ?_
      obtain ⟨i, p, hp, hne, -⟩ := (mem_events hbuilt hs).1 he
      refine hne ?_
      simp only [onRelay, hs]
      rw [List.getElem?_map, hp, Option.map_some]
  cases hload : loadRoster d c relays keys.eck keys.pendingEck hasSeen with
  | ok r st used =>
    obtain ⟨⟨e, he, -, hread⟩, -, -⟩ := wasRead_of_loadRoster hd hload
    rw [hload] at hrewrite
    rw [← heck r st used hload] at hread
    cases hrewrite
    refine ⟨e, w.roster, w.stamp, by rw [hnone, List.append_nil, he], by rw [hnone, List.append_nil, hread], fun member => ?_⟩
    simp only [Rewrite.members]
    constructor
    · exact .inl
    · rintro (h | rfl)
      · exact h
      · exact hlisted
  | foreign => rw [hload] at hrewrite; cases hrewrite
  | unreadable => rw [hload] at hrewrite; cases hrewrite
  | absent suspect =>
    have hempty : w.roster.attendees = [] := by
      rw [hload] at hrewrite
      cases suspect with
      | true => cases hrewrite
      | false => rw [← (Prod.mk.inj (Option.some.inj hrewrite)).1]
    rw [hempty] at hlisted
    cases hlisted

theorem rosterForRewrite_none {read : RosterRead K} {n : Nat} (hok : ∀ roster stamp used, read ≠ .ok roster stamp used)
    (habsent : read ≠ .absent false) : rosterForRewrite read n = none := by
  cases read with
  | ok r st used => exact absurd rfl (hok r st used)
  | absent suspect =>
    cases suspect with
    | true => rfl
    | false => exact absurd rfl habsent
  | _ => rfl

theorem rewrite_none (hok : ∀ roster stamp used, loadRoster d c relays keys.eck keys.pendingEck hasSeen ≠ .ok roster stamp used)
    (habsent : loadRoster d c relays keys.eck keys.pendingEck hasSeen ≠ .absent false) : rewrite d c keys relays hasSeen now ids op = none := by
  cases op with
  | approve pubkey role =>
    cases h : approveAttendee d c keys relays hasSeen pubkey role now ids with
    | none => exact h
    | some w =>
      have hrewrite := (approve_inv h).1
      rw [rosterForRewrite_none hok habsent] at hrewrite
      cases hrewrite
  | rekey rotation key =>
    simp only [rewrite, rekeyRoster, Rotation.mint, rosterForRewrite_none hok habsent]

/-- **A roster that is rewritten keeps its members**, where it lands; and nothing is published where
the read was foreign, unreadable or suspiciously absent. -/
theorem rewrites_keep_members (hd : Sealed d) (hc : c.Addressed) (hop : ∀ pubkey role, op = .approve pubkey role → isHex32 pubkey = true) :
    (∀ w, rewrite d c keys relays hasSeen now ids op = some w → 0 < w.eck.id → isNumberInt w.eck.id = true →
      ((∃ pubkey role, op = .approve pubkey role ∧ pubkey ∈ w.roster.attendees.map (·.pubkey)) ∨ w.Lands d c relays now) →
        w.Keeps d c relays op) ∧
    ((∀ roster stamp used, loadRoster d c relays keys.eck keys.pendingEck hasSeen ≠ .ok roster stamp used) →
      loadRoster d c relays keys.eck keys.pendingEck hasSeen ≠ .absent false → rewrite d c keys relays hasSeen now ids op = none) := by
  refine ⟨fun w h hid hnum hcond => ?_, rewrite_none⟩
  cases op with
  | approve pubkey role =>
    rcases hcond with ⟨_, _, hop', hlisted⟩ | hlands
    · cases hop'
      exact keeps_of_listed hd h hlisted
    · obtain ⟨hwritten, hmembers⟩ := written_of_approve hd (hop pubkey role rfl) h hid hnum
      obtain ⟨e, roster, stamp, he, hread, hsame⟩ := hwritten.members hd hc hlands
      exact ⟨e, roster, stamp, he, hread, fun member => (hsame member).trans (hmembers member)⟩
  | rekey rotation key =>
    rcases hcond with ⟨_, _, hop', -⟩ | hlands
    · cases hop'
    · obtain ⟨hwritten, hmembers⟩ := written_of_rekey hd h hid hnum
      obtain ⟨e, roster, stamp, he, hread, hsame⟩ := hwritten.members hd hc hlands
      exact ⟨e, roster, stamp, he, hread, fun member => (hsame member).trans (hmembers member)⟩

namespace Small

theorem addressed : context.Addressed where
  author := by decide
  legacy := by decide
  derived base hbase := by
    rcases List.mem_pair.1 hbase with rfl | rfl
    · have hdigit : isLowerHexDigit (codeUnit 53) = true := by decide
      exact .inr (by simp [derived, isLowerHex, hdigit])
    · exact .inl rfl

theorem two_lt : 2 < numberLimit := lt_of_lt_of_le (by decide : 2 < 2 ^ 2) (Nat.pow_le_pow_right (by decide) (by decide))

/-- What the first revoke is of. -/
def rewritten : Rewriting Nat (Nat × RosterContent) :=
  { roster := Small.roster
    stamp := 50
    eck := ⟨2, 8⟩
    previous := none
    next := rekeyed deps ⟨2, 8⟩ false ((Rotation.revoke (pubkey 0)).attendees Small.roster)
    events := [revoked 1 ⟨2, 8⟩ 100 "b"] }

theorem rekey_first : rewrite deps context Small.keys [page] true 100 (fun _ => js "b") (.rekey (.revoke (pubkey 0)) 8) = some rewritten := by
  have hload := (loadRoster_page (by decide) : loadRoster deps context [page] Small.keys.eck Small.keys.pendingEck true = _)
  have hstay : promotePending deps Small.keys ⟨1, 7⟩ = Small.keys := if_neg (by decide)
  have hadmits : (Rotation.revoke (pubkey 0)).admits Small.roster = true := by decide
  simp only [rewrite, rekeyRoster, hload, afterRead, RosterRead.used, Option.map_some, Option.getD_some, hstay, Rotation.mint, rosterForRewrite,
    hadmits, if_true, mint_first, build_first]
  rfl

theorem lands_first : rewritten.Lands deps context [page] 100 := by
  have hskips : ∀ i p, ¬rewritten.Skips deps i p := fun i p hs => by simpa [onRelay, rewritten] using hs.2
  refine ⟨fun p hs => absurd hs (hskips 0 p), fun i p _ hs => absurd hs (hskips i p), fun i p hi hp => ?_⟩
  obtain ⟨pages, hsplit, hp⟩ := hp
  have hfit : rosterFitsOnePage { rewritten.next with eckCurrent := rewritten.eck.id } = true := rosters_fit.2.1
  rw [splitRoster, if_pos hfit] at hsplit
  cases hsplit
  rw [List.getElem?_eq_none (by simpa using Nat.succ_le_of_lt hi)] at hp
  cases hp

end Small

theorem rewrites_keep_members_small : Small.rewritten.Keeps Small.deps Small.context [Small.page] (.rekey (.revoke (Small.pubkey 0)) 8) :=
  (rewrites_keep_members Small.sealed Small.addressed (fun pubkey role h => by cases h)).1 Small.rewritten Small.rekey_first (by decide)
    (decide_eq_true Small.two_lt) (.inr Small.lands_first)

/-! ## A roster at the derived address -/

/-- Entries that fit are added to the page. -/
theorem foldl_add {r : RosterContent} : ∀ {as : List RosterAttendee} {p : Packing}, p.overhead + (as.map entryBytes).sum ≤ rosterPageTargetBytes →
    as.foldl (Packing.add r) p = ⟨p.groups, p.current ++ as, p.overhead + (as.map entryBytes).sum⟩
  | [], p, _ => by simp
  | a :: as, p, h => by
    rw [List.map_cons, List.sum_cons] at h
    have hclose : p.closeFor r (entryBytes a) = p := if_neg fun hover => by omega
    rw [List.foldl_cons, Packing.add, hclose, foldl_add (by simp only [Packing.push]; omega)]
    simp [Packing.push, Nat.add_assoc]

/-- A roster that packs into two pages. -/
theorem packPages_two {r : RosterContent} {a b : List RosterAttendee} {m : RosterAttendee} (hr : r.attendees = a ++ m :: b) (hne : a ≠ [])
    (ha : envelopeBytes r 0 + (a.map entryBytes).sum ≤ rosterPageTargetBytes)
    (hover : rosterPageTargetBytes < envelopeBytes r 0 + (a.map entryBytes).sum + entryBytes m)
    (hb : envelopeBytes r 1 + ((m :: b).map entryBytes).sum ≤ rosterPageTargetBytes) : packPages r = [a, m :: b] := by
  rw [List.map_cons, List.sum_cons] at hb
  have hfirst : a.foldl (Packing.add r) (Packing.start r) = ⟨[], a, envelopeBytes r 0 + (a.map entryBytes).sum⟩ := foldl_add ha
  have hclose : (⟨[], a, envelopeBytes r 0 + (a.map entryBytes).sum⟩ : Packing).closeFor r (entryBytes m) = ⟨[a], [], envelopeBytes r 1⟩ :=
    if_pos ⟨hne, hover⟩
  simp only [packPages, hr, List.foldl_append, List.foldl_cons, hfirst]
  rw [Packing.add, hclose, foldl_add (by simp only [Packing.push]; omega)]
  rfl

/-- It is split so. -/
theorem splitRoster_two {r : RosterContent} {a b : List RosterAttendee} {m m' : RosterAttendee} {s x y z : Nat}
    (hr : r.attendees = a ++ m :: m' :: b) (hne : a ≠ []) (hlen : r.attendees.length ≤ maxRoster) (hs : (a.map entryBytes).sum = s)
    (hm : entryBytes m = x) (hm' : entryBytes m' = x) (hb : (b.map entryBytes).sum ≤ y) (h0 : envelopeBytes r 0 ≤ z) (h1 : envelopeBytes r 1 ≤ z)
    (hfit : nip44MaxPlaintextBytes < s + x + x - 1) (hfirst : z + s ≤ rosterPageTargetBytes) (hover : rosterPageTargetBytes < s + x)
    (hlast : z + x + x + y ≤ rosterPageTargetBytes) : splitRoster r = .ok [buildPage r 0 2 a, buildPage r 1 2 (m :: m' :: b)] := by
  have hsum : (r.attendees.map entryBytes).sum = s + (x + (x + (b.map entryBytes).sum)) := by
    rw [hr, List.map_append, List.sum_append, hs, List.map_cons, List.sum_cons, hm, List.map_cons, List.sum_cons, hm']
  have hover' : ¬rosterFitsOnePage r = true := by
    rw [rosterFitsOnePage, payloadBytes_eq, decide_eq_true_eq, hsum]
    omega
  have ha : envelopeBytes r 0 + (a.map entryBytes).sum ≤ rosterPageTargetBytes := by omega
  have hb : envelopeBytes r 1 + ((m :: m' :: b).map entryBytes).sum ≤ rosterPageTargetBytes := by
    rw [List.map_cons, List.sum_cons, hm, List.map_cons, List.sum_cons, hm']
    omega
  have hbytes : ∀ p ∈ [buildPage r 0 2 a, buildPage r 1 2 (m :: m' :: b)], payloadBytes p ≤ nip44MaxPlaintextBytes := by
    have htarget : rosterPageTargetBytes ≤ nip44MaxPlaintextBytes := by decide
    intro p hp
    rcases List.mem_pair.1 hp with rfl | rfl
    · exact (payloadBytes_buildPage_le r 0 (by decide) a).trans (ha.trans htarget)
    · exact (payloadBytes_buildPage_le r 1 (by decide) (m :: m' :: b)).trans (hb.trans htarget)
  have hfind : [buildPage r 0 2 a, buildPage r 1 2 (m :: m' :: b)].zipIdx.find? (fun p => payloadBytes p.1 > nip44MaxPlaintextBytes) = none := by
    rw [List.find?_eq_none]
    intro p hp
    simpa using hbytes p.1 (List.fst_mem_of_mem_zipIdx hp)
  have hpages : [a, m :: m' :: b].mapIdx (fun i as => buildPage r i [a, m :: m' :: b].length as) =
      [buildPage r 0 2 a, buildPage r 1 2 (m :: m' :: b)] := rfl
  rw [splitRoster, if_neg hover', if_neg (not_lt.2 hlen)]
  simp only [packPages_two hr hne ha (by omega) hb]
  rw [if_neg (by simp [maxRosterPages]), hpages, hfind]

/-- The bytes of an entry, but for its public key. -/
theorem entryBytes_pubkey {a b : RosterAttendee} (hd : a.d = b.d) (hrole : a.role = b.role) (hkeys : a.chatKeys = b.chatKeys) :
    entryBytes a + quoteBytes b.pubkey = entryBytes b + quoteBytes a.pubkey := by
  have hbytes : ∀ a : RosterAttendee, entryBytes a = a.toJson.bytes + 1 := fun _ => rfl
  simp only [hbytes, RosterAttendee.toJson, hd, hrole, hkeys, bytes_obj, commaSum, List.map_append, List.map_cons, List.sum_append,
    List.sum_cons, fieldBytes, field, bytes_str]
  omega

namespace Small

def hexPubkey (n : Nat) : JsString := List.replicate 64 (codeUnit (if n < 10 then 48 + n else 87 + n))

/-- A member with as many chat keys as may be. -/
def member (n : Nat) : RosterAttendee :=
  { pubkey := hexPubkey n
    d := List.replicate maxD (codeUnit 1)
    role := .attendee
    chatKeys := some (List.replicate maxChatKeysPerAccount
      { pubkey := hexPubkey 0, label := some (List.replicate maxChatKeyLabel (codeUnit 1)), addedAt := 0 }) }

def approved : RosterAttendee := ⟨hexPubkey 12, hexPubkey 12, .attendee, none⟩

theorem sizes : entryBytes (member 0) = 5937 ∧ (∀ n < 13, quoteBytes (hexPubkey n) = 66) ∧ ([approved].map entryBytes).sum ≤ 500 := by
  decide +kernel

theorem entryBytes_member {n : Nat} (hn : n < 13) : entryBytes (member n) = 5937 := by
  obtain ⟨hzero, hquote, -⟩ := sizes
  have h := entryBytes_pubkey (a := member n) (b := member 0) rfl rfl rfl
  have h0 : quoteBytes (member 0).pubkey = 66 := hquote 0 (by decide)
  have hn : quoteBytes (member n).pubkey = 66 := hquote n hn
  omega

theorem sum_members : ∀ {l : List Nat}, (∀ n ∈ l, n < 13) → ((l.map member).map entryBytes).sum = l.length * 5937
  | [], _ => rfl
  | n :: l, h => by
    rw [List.map_cons, List.map_cons, List.sum_cons, entryBytes_member (h n (by simp)), sum_members fun m hm => h m (by simp [hm]),
      List.length_cons]
    omega

def tenMembers : List RosterAttendee := (List.range 10).map member

/-- A roster of two pages: ten members, and two. -/
def listed : RosterContent := { v := 2, eckCurrent := 1, attendees := tenMembers ++ [member 10, member 11] }

def afterApproval : RosterContent := { listed with attendees := tenMembers ++ [member 10, member 11, approved] }

def firstPage : RosterContent := buildPage listed 0 2 tenMembers

def lastPage : RosterContent := buildPage listed 1 2 [member 10, member 11]

def approvedPage : RosterContent := buildPage listed 1 2 [member 10, member 11, approved]

theorem sum_ten : (tenMembers.map entryBytes).sum = 59370 := sum_members (by decide)

theorem listed_facts : (envelopeBytes listed 0 ≤ 100 ∧ envelopeBytes listed 1 ≤ 100) ∧ rosterShaped listed = true ∧
    (listed.attendees.map (·.pubkey)).Nodup ∧ hexPubkey 12 ∉ listed.attendees.map (·.pubkey) := by
  decide +kernel

theorem envelopes : envelopeBytes listed 0 ≤ 100 ∧ envelopeBytes listed 1 ≤ 100 := listed_facts.1

theorem split_listed : splitRoster listed = .ok [firstPage, lastPage] :=
  splitRoster_two (r := listed) (a := tenMembers) (b := []) (y := 0) rfl (by simp [tenMembers]) (by decide) sum_ten
    (entryBytes_member (by decide)) (entryBytes_member (by decide)) le_rfl envelopes.1 envelopes.2 (by decide) (by decide) (by decide) (by decide)

theorem split_approved : splitRoster afterApproval = .ok [firstPage, approvedPage] := by
  have henvelopes : envelopeBytes afterApproval 0 ≤ 100 ∧ envelopeBytes afterApproval 1 ≤ 100 := envelopes
  exact splitRoster_two (r := afterApproval) (a := tenMembers) (b := [approved]) rfl (by simp [tenMembers]) (by decide) sum_ten
    (entryBytes_member (by decide)) (entryBytes_member (by decide)) sizes.2.2 henvelopes.1 henvelopes.2 (by decide) (by decide) (by decide) (by decide)

/-- A page at the derived address. -/
def atDerived (i : Nat) (p : RosterContent) : PageEvent (Nat × RosterContent) :=
  { pageEvent deps context ⟨1, 7⟩ 50 (fun _ => js "a") i p with d := rosterPageD derived i }

def derivedPages : List (PageEvent (Nat × RosterContent)) := [atDerived 0 firstPage, atDerived 1 lastPage]

/-- What the approval publishes: the last page, at the identifier. -/
def approvalPage : PageEvent (Nat × RosterContent) := pageEvent deps context ⟨1, 7⟩ 100 (fun _ => js "b") 1 approvedPage

theorem schema_listed : rosterContentSchema firstPage = true ∧ rosterContentSchema lastPage = true := by
  have hall := schema_of_splitRoster listed_facts.2.1 rfl split_listed
  exact ⟨hall firstPage (by simp), hall lastPage (by simp)⟩

/-- The latest page 0 and the latest page 1 at the derived address, before the approval and after. -/
theorem latest_pages : pickLatest (page0s context derivedPages) = some (atDerived 0 firstPage) ∧
    pickLatest (recordsAt context derivedPages (js "e") (rosterPageD derived 1)) = some (atDerived 1 lastPage) ∧
    pickLatest (page0s context (derivedPages ++ [approvalPage])) = some (atDerived 0 firstPage) ∧
    pickLatest (recordsAt context (derivedPages ++ [approvalPage]) (js "e") (rosterPageD derived 1)) = some (atDerived 1 lastPage) := by
  decide +kernel

/-- The roster is read at the derived address, whatever else the relays have elsewhere. -/
theorem readRoster_derived {l : List (PageEvent (Nat × RosterContent))}
    (hlast : pickLatest (recordsAt context l (js "e") (rosterPageD derived 1)) = some (atDerived 1 lastPage)) :
    readRoster deps context l (atDerived 0 firstPage) ⟨1, 7⟩ = some (.ok listed 50 ⟨1, 7⟩) := by
  obtain ⟨hschema0, hschema1⟩ := schema_listed
  have hopen0 : deps.eckDecrypt 7 (atDerived 0 firstPage).content = some (deps.pageText firstPage) := sealed.opens 7 _
  have hopen1 : deps.eckDecrypt 7 (atDerived 1 lastPage).content = some (deps.pageText lastPage) := sealed.opens 7 _
  have hpage : loadPage deps context l 7 (js "e") derived 1 = some (lastPage, 50) := by
    rw [loadPage, hlast, Option.bind_some, hopen1, Option.bind_some, sealed.parses _ hschema1]
    rfl
  have hrest : loadRosterPages deps context l 7 (js "e") 2 derived = some ([lastPage], 50) := by
    rw [loadRosterPages, List.range'_succ, List.mapM_cons, hpage]
    rfl
  have hmerge : mergeRosterPages [firstPage, lastPage] = .ok listed :=
    mergeRosterPages_eq (l := listed.attendees) rfl listed_facts.2.2.1 (by decide)
  have hpages : firstPage.pages.getD 1 = 2 := rfl
  have hauthor : (atDerived 0 firstPage).author = js "e" := rfl
  have hat : (atDerived 0 firstPage).d = derived := rfl
  simp only [readRoster, hopen0, sealed.parses _ hschema0, hpages, hauthor, hat, hrest, hmerge, Option.bind_eq_bind, Option.bind_some]
  rfl

theorem loadRoster_derived : loadRoster deps context derivedPages Small.keys.eck Small.keys.pendingEck true = .ok listed 50 ⟨1, 7⟩ := by
  obtain ⟨hlatest, hlast, -⟩ := latest_pages
  have hunder : Under deps ⟨1, 7⟩ (atDerived 0 firstPage) := ⟨.inl rfl, firstPage, fun _ => schema_listed.1, rfl⟩
  rw [loadRoster_of_under sealed hlatest hunder (.inl (by decide)), readRoster_derived hlast, Option.getD_some]

theorem withAttendee_listed : withAttendee deps ⟨1, 7⟩ listed (hexPubkey 12) .attendee = afterApproval := by
  have hnew : ¬listed.attendees.any (·.pubkey = hexPubkey 12) = true := fun h => by
    obtain ⟨a, ha, he⟩ := List.any_eq_true.1 h
    exact listed_facts.2.2.2 (List.mem_map.2 ⟨a, ha, of_decide_eq_true he⟩)
  rw [withAttendee, if_neg hnew]
  rfl

/-- What the approval makes of the roster. -/
def approval : Rewriting Nat (Nat × RosterContent) :=
  { roster := listed, stamp := 50, eck := ⟨1, 7⟩, previous := some listed, next := afterApproval, events := [approvalPage] }

theorem build_approval : buildRosterEvents deps context ⟨1, 7⟩ afterApproval 50 (some listed) 100 (fun _ => js "b") = .ok [approvalPage] := by
  have hne : lastPage ≠ approvedPage := fun h => absurd (congrArg (·.attendees.length) h) (by decide)
  have hold : splitRoster { listed with eckCurrent := ((1 : Nat) : Int) } = .ok [firstPage, lastPage] := split_listed
  have hnew : splitRoster { afterApproval with eckCurrent := ((1 : Nat) : Int) } = .ok [firstPage, approvedPage] := split_approved
  have hbuilt : buildRosterEvents deps context ⟨1, 7⟩ afterApproval 50 (some listed) 100 (fun _ => js "b") =
      .ok [pageEvent deps context ⟨1, 7⟩ (max 100 (50 + 1)) (fun _ => js "b") 1 approvedPage] := build_last hold hnew hne
  have hmax : (max 100 (50 + 1) : Int) = 100 := by decide
  rw [hbuilt, hmax, approvalPage]

theorem approve_derived : rewrite deps context Small.keys derivedPages true 100 (fun _ => js "b") (.approve (hexPubkey 12) .attendee) = some approval := by
  have hstay : promotePending deps Small.keys ⟨1, 7⟩ = Small.keys := if_neg (by decide)
  have hcurrent : canonicalEck deps.fingerprint Small.keys.eck = some ⟨1, 7⟩ := rfl
  have hcollides : eckCollides Small.keys ⟨1, 7⟩ = false := by decide
  have hroom : afterApproval.attendees.length ≤ maxRoster := by decide
  exact approve_of_ok loadRoster_derived hstay hcurrent hcollides withAttendee_listed hroom build_approval

end Small

/-- An approval that was accepted, and its attendee is not listed: the roster was read at the derived
address, and only the page that changed was published, at the other. -/
theorem approved_not_listed : ∃ w, rewrite Small.deps Small.context Small.keys Small.derivedPages true 100 (fun _ => js "b")
      (.approve (Small.hexPubkey 12) .attendee) = some w ∧
    ¬w.Keeps Small.deps Small.context Small.derivedPages (.approve (Small.hexPubkey 12) .attendee) := by
  refine ⟨Small.approval, Small.approve_derived, fun ⟨e, roster, stamp, he, hread, hmembers⟩ => ?_⟩
  obtain ⟨-, -, hlatest, hlast⟩ := Small.latest_pages
  cases he.symm.trans hlatest
  have hsame := hread.symm.trans (Small.readRoster_derived hlast)
  cases hsame
  have hnew := (hmembers (Small.hexPubkey 12)).2 (.inr rfl)
  exact Small.listed_facts.2.2.2 hnew

end Nostrautica.ClientRoster
