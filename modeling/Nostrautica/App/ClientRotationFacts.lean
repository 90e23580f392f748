/-
A rotation never strands the device that made it (`rotations_keep_custody`): a version is on disk
before anything under it is handed over, no two staged versions share an id, and the roster on the
relays is always read under its own key. A version becomes current with a newer one of the same
device (`older_becomes_current`), and so not only by a roster under itself.
-/
import Nostrautica.App.ClientRosterFacts
import Nostrautica.App.ClientRotation

set_option linter.unusedSectionVars false

namespace Nostrautica.ClientRoster

open Js Roster Keystore Nostrautica.Membership

variable {K T C : Type} [DecidableEq K] [DecidableEq T] [DecidableEq C] {d : Deps K T C} {c : Context} {s s' s₀ : Device K C} {a : Act K}
  {u v : EckVersion K}

/-- A roster under the version was read, or all its pages have reached a relay; or it became current
on a publish that was queued. -/
def Grounded (s : Device K C) (v : EckVersion K) : Prop :=
  v ∈ s.read ∨ v ∈ s.unconfirmed ∨ ∃ r ∈ s.handed, r.version = v ∧ ∀ e ∈ r.events, e ∈ s.relays

theorem Grounded.mono (h : Grounded s v) (hread : ∀ v ∈ s.read, v ∈ s'.read) (hunconfirmed : ∀ v ∈ s.unconfirmed, v ∈ s'.unconfirmed)
    (hhanded : ∀ r ∈ s.handed, r ∈ s'.handed) (hrelays : ∀ e ∈ s.relays, e ∈ s'.relays) : Grounded s' v := by
  rcases h with h | h | ⟨r, hr, hv, hall⟩
  · exact .inl (hread v h)
  · exact .inr (.inl (hunconfirmed v h))
  · exact .inr (.inr ⟨r, hhanded r hr, hv, fun e he => hrelays e (hall e he)⟩)

/-- A version that was current for a reason is so still. -/
theorem current_mono (h : v ∈ s₀.keys.eck ∨ ∃ g, Grounded s g ∧ v.id ≤ g.id) (hgrow : ∀ g, Grounded s g → Grounded s' g) :
    v ∈ s₀.keys.eck ∨ ∃ g, Grounded s' g ∧ v.id ≤ g.id :=
  h.imp id fun ⟨g, hg, hle⟩ => ⟨g, hgrow g hg, hle⟩

/-- What an operation that waits goes by. -/
def OpSound (d : Deps K T C) (s : Device K C) : Op K C → Prop
  | .reading _ keys => keys = s.keys
  | .rekeying _ keys roster _ new =>
    keys = s.keys ∧ 0 < new.id ∧ (∀ v, Held keys v → v.id < new.id) ∧ ∀ a ∈ roster.attendees, rosterAttendeeSchema a = true
  | .staged _ keys r => keys = s.keys ∧ Held keys r.version ∧ ∀ e ∈ r.events, Under d r.version e
  | .publishing _ keys r => keys = s.keys ∧ r ∈ s.handed

/-- Of a device that was at first `s₀`. -/
structure Custody (d : Deps K T C) (s₀ s : Device K C) : Prop where
  relays : ∀ e ∈ s.relays, ∃ v, Held s.keys v ∧ Under d v e
  handed : ∀ r ∈ s.handed, Held s.keys r.version ∧ ∀ e ∈ r.events, Under d r.version e
  minted : ∀ v ∈ s.minted, Held s.keys v
  unique : ∀ v ∈ s.minted, ∀ u ∈ s.minted, v.id = u.id → v = u
  current : ∀ v ∈ s.keys.eck, v ∈ s₀.keys.eck ∨ ∃ g, Grounded s g ∧ v.id ≤ g.id
  op : ∀ o, s.op = some o → OpSound d s o

/-- The versions that are held, and what the relays and the publisher have, carry over. -/
theorem Custody.carry (h : Custody d s₀ s) (hheld : ∀ v, Held s.keys v → Held s'.keys v) (hrelays : s'.relays = s.relays)
    (hhanded : s'.handed = s.handed) (hminted : s'.minted = s.minted)
    (hcurrent : ∀ v ∈ s'.keys.eck, v ∈ s₀.keys.eck ∨ ∃ g, Grounded s' g ∧ v.id ≤ g.id)
    (hop : ∀ o, s'.op = some o → OpSound d s' o) : Custody d s₀ s' where
  relays e he := by
    rw [hrelays] at he
    obtain ⟨v, hv, hu⟩ := h.relays e he
    exact ⟨v, hheld v hv, hu⟩
  handed r hr := by
    rw [hhanded] at hr
    exact ⟨hheld _ (h.handed r hr).1, (h.handed r hr).2⟩
  minted v hv := by
    rw [hminted] at hv
    exact hheld v (h.minted v hv)
  unique := by
    rw [hminted]
    exact h.unique
  current := hcurrent
  op := hop

theorem held_afterRead {keys : EventKeys K} {result : RosterRead K} : Held (afterRead d keys result) v ↔ Held keys v := by
  cases result with
  | ok => exact held_promotePending
  | _ => rfl

theorem held_record {rotation : Rotation} {keys : EventKeys K} : Held (rotation.record keys) v ↔ Held keys v := by
  cases rotation <;> simp only [Held, Rotation.record]

theorem eck_record {rotation : Rotation} {keys : EventKeys K} : (rotation.record keys).eck = keys.eck := by
  cases rotation <;> simp only [Rotation.record]

theorem mem_ite_append {b : Bool} {l : List (EckVersion K)} (h : u ∈ l) : u ∈ if b = true then l ++ [v] else l := by
  split
  · exact List.mem_append_left _ h
  · exact h

theorem attendees_subset {rotation : Rotation} {roster : RosterContent} {x : RosterAttendee} (h : x ∈ rotation.attendees roster) :
    x ∈ roster.attendees := by
  cases rotation with
  | revoke removed => exact List.mem_of_mem_filter h
  | _ => exact h

/-- Where an operation goes from its read. -/
theorem opSound_mint {rotation : Rotation} {keys : EventKeys K} {result : RosterRead K} {key : K} {o : Op K C}
    (hschema : ∀ roster stamp used, result = .ok roster stamp used → ∀ x ∈ roster.attendees, rosterAttendeeSchema x = true)
    (h : rotation.mint d keys result key = some o) (hkeys : s.keys = keys) : OpSound d s o := by
  unfold Rotation.mint at h
  simp only at h
  split at h
  · cases h
  next roster stamp hrewrite =>
    split at h
    · cases h
      refine ⟨hkeys.symm, Nat.succ_pos _, fun v hv => lt_mintEck hv, ?_⟩
      cases result with
      | ok r st used =>
        cases hrewrite
        exact hschema _ _ _ rfl
      | absent suspect =>
        simp only [rosterForRewrite] at hrewrite
        split at hrewrite <;> cases hrewrite
        exact fun x hx => by cases hx
      | foreign => cases hrewrite
      | unreadable => cases hrewrite
    · cases h

theorem Custody.read {hasSeen : Bool} {key : K} (hd : Sealed d) (h : Custody d s₀ s) (hact : act d c s (.read hasSeen key) = some s') :
    Custody d s₀ s' := by
  simp only [act] at hact
  split at hact
  next rotation keys hop =>
    have hkeys : keys = s.keys := h.op _ hop
    subst hkeys
    cases hact
    refine h.carry (fun v hv => held_afterRead.2 hv) rfl rfl rfl (fun v hv => ?_) fun o ho => ?_
    · -- what a read makes current is no newer than the version it read
      cases hr : loadRoster d c s.relays s.keys.eck s.keys.pendingEck hasSeen with
      | ok roster stamp used =>
        rw [hr] at hv
        rcases eck_promotePending hv with hv | hle
        · exact current_mono (h.current v hv) fun g hg =>
            hg.mono (fun _ => List.mem_append_left _) (fun _ => id) (fun _ => id) fun _ => id
        · exact .inr ⟨used, .inl (by simp [RosterRead.used]), hle⟩
      | foreign | absent | unreadable =>
        rw [hr] at hv
        exact current_mono (h.current v hv) fun g hg =>
          hg.mono (fun _ => List.mem_append_left _) (fun _ => id) (fun _ => id) fun _ => id
    · exact opSound_mint (fun _ _ _ hr => schema_of_loadRoster hd hr) ho rfl
  · cases hact

theorem Custody.stage {now : Int} {ids : Nat → JsString} (hd : Sealed d) (h : Custody d s₀ s)
    (hact : act d c s (.stage now ids) = some s') : Custody d s₀ s' := by
  simp only [act] at hact
  split at hact
  next rotation keys roster stamp new hop =>
    obtain ⟨hkeys, hpos, hlt, hschema⟩ := h.op _ hop
    subst hkeys
    split at hact
    next events hevents =>
      cases hact
      have hheld : ∀ v, Held (stageEck d (rotation.record s.keys) new) v ↔ Held s.keys v ∨ v = new := fun v => by
        rw [held_stageEck, held_record]
      have hunder := under_of_buildRosterEvents hd hpos (fun x hx => hschema x (attendees_subset hx)) hevents
      refine ⟨fun e he => ?_, fun r hr => ?_, fun v hv => ?_, fun v hv u hu hid => ?_, fun v hv => ?_, fun o ho => ?_⟩
      · obtain ⟨v, hv, hu⟩ := h.relays e he
        exact ⟨v, (hheld v).2 (.inl hv), hu⟩
      · exact ⟨(hheld _).2 (.inl (h.handed r hr).1), (h.handed r hr).2⟩
      · rcases List.mem_append.1 hv with hv | hv
        · exact (hheld v).2 (.inl (h.minted v hv))
        · exact (hheld v).2 (.inr (List.mem_singleton.1 hv))
      · -- the new id is above all that are held
        rcases List.mem_append.1 hv with hv | hv <;> rcases List.mem_append.1 hu with hu | hu
        · exact h.unique v hv u hu hid
        · rw [List.mem_singleton.1 hu] at hid
          exact absurd hid (hlt v (h.minted v hv)).ne
        · rw [List.mem_singleton.1 hv] at hid
          exact absurd hid (hlt u (h.minted u hu)).ne'
        · rw [List.mem_singleton.1 hv, List.mem_singleton.1 hu]
      · have hv' : v ∈ (rotation.record s.keys).eck := hv
        rw [eck_record] at hv'
        exact h.current v hv'
      · cases ho
        exact ⟨rfl, (hheld _).2 (.inr rfl), hunder⟩
    · cases hact
      exact h.carry (fun _ => id) rfl rfl rfl h.current fun o ho => by cases ho
  · cases hact

theorem Custody.settle {published : Bool} (h : Custody d s₀ s)
    (hact : act d c s (.settle published) = some s') : Custody d s₀ s' := by
  simp only [act] at hact
  split at hact
  next rotation keys r hop =>
    obtain ⟨hkeys, hr⟩ := h.op _ hop
    subst hkeys
    split at hact
    · cases hact
    rename_i hallowed
    cases hact
    refine h.carry (fun v hv => ?_) rfl rfl rfl (fun v hv => ?_) fun o ho => by cases ho
    · dsimp only
      split
      · exact held_promotePending.2 hv
      · exact hv
    · dsimp only at hv
      split at hv
      next hpromotes =>
        rcases eck_promotePending hv with hv | hle
        · exact current_mono (h.current v hv) fun g hg =>
            hg.mono (fun _ => id) (fun _ => mem_ite_append) (fun _ => id) fun _ => id
        · refine .inr ⟨r.version, ?_, hle⟩
          cases published with
          | true => exact .inr (.inr ⟨r, hr, rfl, fun e he => by_contra fun hne => hallowed ⟨rfl, e, he, hne⟩⟩)
          | false => exact .inr (.inl (by simp [hpromotes]))
      · exact current_mono (h.current v hv) fun g hg =>
          hg.mono (fun _ => id) (fun _ => mem_ite_append) (fun _ => id) fun _ => id
  · cases hact

theorem Custody.step (hd : Sealed d) (h : Custody d s₀ s) (hact : Step d c s a s') : Custody d s₀ s' := by
  unfold Step at hact
  cases a with
  | start rotation =>
    simp only [act] at hact
    split at hact
    · cases hact
    · cases hact
      exact h.carry (fun _ => id) rfl rfl rfl h.current fun o ho => by cases ho; rfl
  | read hasSeen key => exact h.read hd hact
  | stage now ids => exact h.stage hd hact
  | hand =>
    simp only [act] at hact
    split at hact
    next rotation keys r hop =>
      obtain ⟨hkeys, hheld, hunder⟩ := h.op _ hop
      cases hact
      refine ⟨h.relays, fun r' hr' => ?_, h.minted, h.unique, fun v hv => ?_, fun o ho => ?_⟩
      · rcases List.mem_append.1 hr' with hr' | hr'
        · exact h.handed r' hr'
        · rw [List.mem_singleton.1 hr']
          exact ⟨hkeys ▸ hheld, hunder⟩
      · exact current_mono (h.current v hv) fun g hg =>
          hg.mono (fun _ => id) (fun _ => id) (fun _ => List.mem_append_left _) fun _ => id
      · cases ho
        exact ⟨hkeys, by simp⟩
    · cases hact
  | accept i j =>
    simp only [act] at hact
    obtain ⟨e, he, rfl⟩ := Option.map_eq_some_iff.1 hact
    obtain ⟨r, hr, he⟩ := Option.bind_eq_some_iff.1 he
    obtain ⟨hheld, hunder⟩ := h.handed r (List.mem_of_getElem? hr)
    refine ⟨fun e' he' => ?_, h.handed, h.minted, h.unique, fun v hv => ?_, fun o ho => ?_⟩
    · rcases List.mem_append.1 he' with he' | he'
      · exact h.relays e' he'
      · rw [List.mem_singleton.1 he']
        exact ⟨r.version, hheld, hunder e (List.mem_of_getElem? he)⟩
    · exact current_mono (h.current v hv) fun g hg =>
        hg.mono (fun _ => id) (fun _ => id) (fun _ => id) fun _ => List.mem_append_left _
    · have hsound := h.op o ho
      cases o <;> exact hsound
  | settle published => exact h.settle hact
  | crash =>
    cases hact
    exact h.carry (fun _ => id) rfl rfl rfl h.current fun o ho => by cases ho

/-- What a device that rotates keeps: of the record `keys` that it starts with. -/
structure Kept (d : Deps K T C) (c : Context) (keys : EventKeys K) (s : Device K C) : Prop where
  /-- What was handed over is under a version on disk. -/
  persisted : ∀ r ∈ s.handed, Held s.keys r.version
  /-- A version is current by a roster under it, or under a newer one. -/
  current : ∀ v ∈ s.keys.eck, v ∈ keys.eck ∨ ∃ g, Grounded s g ∧ v.id ≤ g.id
  unique : ∀ v ∈ s.minted, ∀ u ∈ s.minted, v.id = u.id → v = u
  /-- The roster on the relays is read, under its own version. -/
  readable : Complete d c s.relays → (∀ v, Held s.keys v → isNumberInt v.id = true) → ∀ hasSeen e,
    pickLatest (page0s c s.relays) = some e → ∃ v roster stamp, Under d v e ∧
      loadRoster d c s.relays s.keys.eck s.keys.pendingEck hasSeen = .ok roster stamp v

/-- **A rotation strands no device.** -/
theorem rotations_keep_custody {keys : EventKeys K} {relays : List (PageEvent C)} {as : List (Act K)} (hd : Sealed d)
    (hrelays : ∀ e ∈ relays, ∃ v, Held keys v ∧ Under d v e) (h : Run (Step d c) { keys, relays } as s) : Kept d c keys s := by
  have hcustody : Custody d { keys, relays } s := h.invariant (I := Custody d { keys, relays })
    (fun _ _ _ hs hstep => hs.step hd hstep)
    { relays := hrelays
      handed := fun r hr => by cases hr
      minted := fun v hv => by cases hv
      unique := fun v hv => by cases hv
      current := fun v hv => .inl hv
      op := fun o ho => by cases ho }
  refine ⟨fun r hr => (hcustody.handed r hr).1, hcustody.current, hcustody.unique, fun hcomplete hnum hasSeen e he => ?_⟩
  obtain ⟨v, hv, hu⟩ := hcustody.relays e (List.mem_of_mem_filter (pickLatest_mem he))
  obtain ⟨roster, stamp, hread⟩ := readRoster_of_complete hd he hu (hnum v hv) hcomplete
  exact ⟨v, roster, stamp, hu, by rw [loadRoster_of_under hd he hu hv, hread, Option.getD_some]⟩

namespace Small

def deps : Deps Nat RosterContent (Nat × RosterContent) where
  fingerprint := id
  eckEncrypt := Prod.mk
  eckDecrypt k content := if content.1 = k then some content.2 else none
  pageText := id
  parsePage page := if rosterContentSchema page then some page else none
  blindedD _ pubkey := pubkey.take maxD

theorem sealed : Sealed deps where
  opens k t := if_pos rfl
  only k k' t h := by
    by_contra hne
    simp [deps, Ne.symm hne] at h
  parses p hp := if_pos hp
  parsed t p h := by
    simp only [deps] at h
    split at h
    next hp =>
      cases h
      exact hp
    next => cases h
  blinded k pubkey := by simp [deps]

/-- The derived address. -/
def derived : JsString := List.replicate 64 (codeUnit 53)

def context : Context :=
  { coordinate := js "31923:e:i", identifier := js "i", page0Ds := [derived, js "i"], eidPubkey := js "e", authors := [js "e"] }

def pubkey (n : Nat) : JsString := List.replicate 64 (codeUnit (97 + n))

def keys : EventKeys Nat := { role := .organizer, eck := [⟨1, 7⟩], eidNsecHex := some (js "e"), einboxNsecHex := some (js "b") }

/-- The roster of two members. -/
def roster : RosterContent :=
  { v := 2, eckCurrent := 1, attendees := [⟨pubkey 0, js "d", .attendee, none⟩, ⟨pubkey 1, js "d", .attendee, none⟩] }

/-- Its page, under the first version. -/
def page : PageEvent (Nat × RosterContent) :=
  { id := js "a"
    author := js "e"
    created_at := 50
    d := js "i"
    a := some context.coordinate
    eck := some ⟨1, some 7⟩
    content := (7, roster) }

/-- The roster without one of its members, under a version. -/
def without (n : Nat) (v : EckVersion Nat) : RosterContent :=
  { rekeyed deps v false ((Rotation.revoke (pubkey n)).attendees roster) with eckCurrent := v.id }

theorem rosters_fit : rosterContentSchema roster = true ∧ rosterFitsOnePage (without 0 ⟨2, 8⟩) = true ∧
    rosterFitsOnePage (without 1 ⟨3, 9⟩) = true := by decide +kernel

theorem schema_roster : rosterContentSchema roster = true := rosters_fit.1

theorem under_page : Under deps ⟨1, 7⟩ page := ⟨.inl rfl, roster, fun _ => schema_roster, rfl⟩

/-- A union that is in order as it stands. -/
theorem union_eq {l l' : List (EckVersion Nat)} (h : (l ++ l').eraseDups.Pairwise fun a b => (!eckBefore id b a) = true) :
    unionEck id l l' = (l ++ l').eraseDups := List.mergeSort_of_pairwise h

/-- What is read before each of the revokes. -/
theorem loadRoster_page {keys : EventKeys Nat} (h : ⟨1, 7⟩ ∈ keys.eck) :
    loadRoster deps context [page] keys.eck keys.pendingEck true = .ok roster 50 ⟨1, 7⟩ := by
  have hlatest : pickLatest (page0s context [page]) = some page := rfl
  have hopen : deps.eckDecrypt 7 page.content = some (deps.pageText roster) := sealed.opens 7 roster
  have hparse : deps.parsePage (deps.pageText roster) = some roster := sealed.parses roster schema_roster
  have hpages : roster.pages.getD 1 = 1 := rfl
  have hread : readRoster deps context [page] page ⟨1, 7⟩ = some (.ok roster 50 ⟨1, 7⟩) := by
    simp only [readRoster, hopen, hparse, hpages, Option.bind_eq_bind, Option.bind_some]
    rfl
  rw [loadRoster_of_under sealed hlatest under_page (.inl h), hread, Option.getD_some]

/-- The page that the revoke of the other builds. -/
def revoked (n : Nat) (v : EckVersion Nat) (now : Int) (id : String) : PageEvent (Nat × RosterContent) :=
  { page with
    id := js id
    created_at := now
    eck := some ⟨v.id, some v.key⟩
    content := (v.key, { v := 2, eckCurrent := v.id, attendees := [⟨pubkey n, pubkey n, .attendee, none⟩] }) }

/-- A roster that fits on one page is built as that page. -/
theorem build_one {roster : RosterContent} {v : EckVersion Nat} {now : Int} {ids : Nat → JsString}
    (h : rosterFitsOnePage { roster with eckCurrent := v.id } = true) :
    buildRosterEvents deps context v roster 50 none now ids = .ok [
      { id := ids 0
        author := context.eidPubkey
        created_at := max now 51
        d := rosterPageD context.identifier 0
        a := some context.coordinate
        eck := some ⟨v.id, some v.key⟩
        content := (v.key, { roster with eckCurrent := v.id }) }] := by
  rw [buildRosterEvents, splitRoster, if_pos h]
  rfl

/-- The record with a version staged. -/
def staged (revoked : List JsString) (pendingEck : List (EckVersion Nat)) : EventKeys Nat :=
  { keys with revoked := revoked, pendingEck := pendingEck }

/-- The device as it waits for the publish of a revoke. -/
def handing (s : Device Nat (Nat × RosterContent)) (keys : EventKeys Nat) (removed : JsString) (v : EckVersion Nat)
    (e : PageEvent (Nat × RosterContent)) : Device Nat (Nat × RosterContent) :=
  { s with
    keys := keys
    minted := s.minted ++ [v]
    handed := s.handed ++ [⟨v, [e]⟩]
    read := s.read ++ [⟨1, 7⟩]
    op := some (.publishing (.revoke removed) keys ⟨v, [e]⟩) }

/-- The steps of a revoke as far as its publish. -/
theorem revoke_run {s : Device Nat (Nat × RosterContent)} {keys : EventKeys Nat} {removed : JsString} {v : EckVersion Nat} {now : Int}
    {id : JsString} {e : PageEvent (Nat × RosterContent)} (hrelays : s.relays = [page]) (hop : s.op = none)
    (hcurrent : s.keys.eck = [⟨1, 7⟩]) (hpending : ⟨1, 7⟩ ∉ s.keys.pendingEck)
    (hadmits : (Rotation.revoke removed).admits roster = true) (hmint : mintEck deps s.keys v.key = v)
    (hbuild : buildRosterEvents deps context v (rekeyed deps v false ((Rotation.revoke removed).attendees roster)) 50 none now (fun _ => id) =
      .ok [e])
    (hkeys : stageEck deps ((Rotation.revoke removed).record s.keys) v = keys) :
    Run (Step deps context) s [.start (.revoke removed), .read true v.key, .stage now fun _ => id, .hand] (handing s keys removed v e) := by
  have hstart : Step deps context s (.start (.revoke removed)) { s with op := some (.reading (.revoke removed) s.keys) } := by
    simp [Step, act, hop, hcurrent]
  have hread : Step deps context { s with op := some (.reading (.revoke removed) s.keys) } (.read true v.key)
      { s with read := s.read ++ [⟨1, 7⟩], op := some (.rekeying (.revoke removed) s.keys roster 50 v) } := by
    have hload : loadRoster deps context [page] s.keys.eck s.keys.pendingEck true = .ok roster 50 ⟨1, 7⟩ :=
      loadRoster_page (by rw [hcurrent]; exact List.mem_singleton_self _)
    have hstay : promotePending deps s.keys ⟨1, 7⟩ = s.keys := if_neg hpending
    simp [Step, act, hrelays, hload, afterRead, RosterRead.used, hstay, Rotation.mint, rosterForRewrite, hadmits, hmint]
  have hstage : Step deps context { s with read := s.read ++ [⟨1, 7⟩], op := some (.rekeying (.revoke removed) s.keys roster 50 v) }
      (.stage now fun _ => id) { s with
        keys := keys
        minted := s.minted ++ [v]
        read := s.read ++ [⟨1, 7⟩]
        op := some (.staged (.revoke removed) keys ⟨v, [e]⟩) } := by
    simp only [Step, act, Rotation.keepChatKeys, hbuild, hkeys]
  exact .cons hstart (.cons hread (.cons hstage (.cons rfl .nil)))

/-- The device once the publish of the first revoke was queued. -/
def between : Device Nat (Nat × RosterContent) :=
  { keys := staged [pubkey 0] [⟨2, 8⟩]
    relays := [page]
    minted := [⟨2, 8⟩]
    handed := [⟨⟨2, 8⟩, [revoked 1 ⟨2, 8⟩ 100 "b"]⟩]
    read := [⟨1, 7⟩] }

/-- The device in the end. -/
def last : Device Nat (Nat × RosterContent) :=
  { keys := { staged [pubkey 0, pubkey 1] [] with eck := [⟨1, 7⟩, ⟨2, 8⟩, ⟨3, 9⟩] }
    relays := [page, revoked 0 ⟨3, 9⟩ 200 "c"]
    minted := [⟨2, 8⟩, ⟨3, 9⟩]
    handed := [⟨⟨2, 8⟩, [revoked 1 ⟨2, 8⟩ 100 "b"]⟩, ⟨⟨3, 9⟩, [revoked 0 ⟨3, 9⟩ 200 "c"]⟩]
    read := [⟨1, 7⟩, ⟨1, 7⟩] }

/-- One member is revoked, and the publish is queued; then the other is, and relays take that. -/
def twice : List (Act Nat) :=
  [.start (.revoke (pubkey 0)), .read true 8, .stage 100 fun _ => js "b", .hand, .settle false,
    .start (.revoke (pubkey 1)), .read true 9, .stage 200 fun _ => js "c", .hand, .accept 1 0, .settle true]

theorem mint_first : mintEck deps keys 8 = ⟨2, 8⟩ := by
  have hunion : unionEck id [⟨1, 7⟩] ([] : List (EckVersion Nat)) = [⟨1, 7⟩] := union_eq (by decide)
  simp [mintEck, keys, deps, hunion, maxId]

theorem build_first : buildRosterEvents deps context ⟨2, 8⟩
    (rekeyed deps ⟨2, 8⟩ (Rotation.revoke (pubkey 0)).keepChatKeys ((Rotation.revoke (pubkey 0)).attendees roster)) 50 none 100
      (fun _ => js "b") = .ok [revoked 1 ⟨2, 8⟩ 100 "b"] := by
  have hkeep : (Rotation.revoke (pubkey 0)).keepChatKeys = false := rfl
  rw [hkeep, build_one rosters_fit.2.1]
  rfl

theorem run_first : Run (Step deps context) { keys, relays := [page] }
    [.start (.revoke (pubkey 0)), .read true 8, .stage 100 fun _ => js "b", .hand, .settle false] between := by
  have hkeys : stageEck deps ((Rotation.revoke (pubkey 0)).record keys) ⟨2, 8⟩ = staged [pubkey 0] [⟨2, 8⟩] := by
    have hunion : unionEck id [] [(⟨2, 8⟩ : EckVersion Nat)] = [⟨2, 8⟩] := union_eq (by decide)
    simp [stageEck, Rotation.record, keys, deps, hunion, staged, sliceLast, maxRevoked]
  exact (revoke_run (v := ⟨2, 8⟩) rfl rfl rfl (by decide) (by decide) mint_first build_first hkeys).snoc rfl

theorem run_twice : Run (Step deps context) { keys, relays := [page] } twice last := by
  have hmint : mintEck deps between.keys 9 = ⟨3, 9⟩ := by
    have hunion : unionEck id [⟨1, 7⟩] [(⟨2, 8⟩ : EckVersion Nat)] = [⟨1, 7⟩, ⟨2, 8⟩] := union_eq (by decide)
    simp [mintEck, between, staged, keys, deps, hunion, maxId]
  have hkeys : stageEck deps ((Rotation.revoke (pubkey 1)).record between.keys) ⟨3, 9⟩ = staged [pubkey 0, pubkey 1] [⟨2, 8⟩, ⟨3, 9⟩] := by
    have hunion : unionEck id [⟨2, 8⟩] [(⟨3, 9⟩ : EckVersion Nat)] = [⟨2, 8⟩, ⟨3, 9⟩] := union_eq (by decide)
    have hrevoked : sliceLast maxRevoked ([pubkey 0].filter (· ≠ pubkey 1) ++ [pubkey 1]) = [pubkey 0, pubkey 1] := by decide
    simp only [stageEck, Rotation.record, between, staged, keys, deps, hunion, hrevoked]
  have hbuild : buildRosterEvents deps context ⟨3, 9⟩ (rekeyed deps ⟨3, 9⟩ false ((Rotation.revoke (pubkey 1)).attendees roster)) 50 none 200
      (fun _ => js "c") = .ok [revoked 0 ⟨3, 9⟩ 200 "c"] := by
    rw [build_one rosters_fit.2.2]
    rfl
  have hsecond := revoke_run (s := between) (v := ⟨3, 9⟩) rfl rfl rfl (by decide) (by decide) hmint hbuild hkeys
  have haccept : Step deps context (handing between (staged [pubkey 0, pubkey 1] [⟨2, 8⟩, ⟨3, 9⟩]) (pubkey 1) ⟨3, 9⟩ (revoked 0 ⟨3, 9⟩ 200 "c"))
      (.accept 1 0) { handing between (staged [pubkey 0, pubkey 1] [⟨2, 8⟩, ⟨3, 9⟩]) (pubkey 1) ⟨3, 9⟩ (revoked 0 ⟨3, 9⟩ 200 "c") with
        relays := last.relays } := rfl
  have hsettle : Step deps context { handing between (staged [pubkey 0, pubkey 1] [⟨2, 8⟩, ⟨3, 9⟩]) (pubkey 1) ⟨3, 9⟩ (revoked 0 ⟨3, 9⟩ 200 "c")
      with relays := last.relays } (.settle true) last := by
    have hunion : unionEck id [⟨1, 7⟩] [(⟨2, 8⟩ : EckVersion Nat), ⟨3, 9⟩] = [⟨1, 7⟩, ⟨2, 8⟩, ⟨3, 9⟩] := union_eq (by decide)
    simp [Step, act, handing, last, between, Rotation.promotes, promotePending, staged, keys, deps, hunion]
  exact run_first.append ((hsecond.snoc haccept).snoc hsettle)

end Small

theorem rotations_keep_custody_twice : Run (Step Small.deps Small.context) { keys := Small.keys, relays := [Small.page] } Small.twice Small.last ∧
    Kept Small.deps Small.context Small.keys Small.last := by
  have hrun : Run (Step Small.deps Small.context) { keys := Small.keys, relays := [Small.page] } Small.twice Small.last :=
    Small.run_twice
  refine ⟨hrun, rotations_keep_custody Small.sealed (fun e he => ?_) hrun⟩
  rw [List.mem_singleton.1 he]
  exact ⟨⟨1, 7⟩, .inl (by decide), Small.under_page⟩

/-- The version of a revoke that was only queued becomes current with the next one: no roster under
it is on the relays, and none was read. -/
theorem older_becomes_current : Run (Step Small.deps Small.context) { keys := Small.keys, relays := [Small.page] } Small.twice Small.last ∧
    ⟨2, 8⟩ ∈ Small.last.keys.eck ∧ ⟨2, 8⟩ ∉ Small.last.read ∧ (∀ e ∈ Small.last.relays, ¬Under Small.deps ⟨2, 8⟩ e) := by
  refine ⟨Small.run_twice, by decide, by decide, fun e he hu => ?_⟩
  have htag : e.eck = some ⟨1, some 7⟩ ∨ e.eck = some ⟨3, some 9⟩ := by
    rcases List.mem_pair.1 he with rfl | rfl
    · exact .inl rfl
    · exact .inr rfl
  rcases hu.1 with h | h <;> rcases htag with h' | h' <;> rw [h] at h' <;> cases h'

end Nostrautica.ClientRoster
