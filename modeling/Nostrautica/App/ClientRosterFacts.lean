/-
What `loadRoster` finds: a roster under a version that the device holds is read under that
version (`loadRoster_of_under`), and its members pass the schema.
-/
import Nostrautica.App.ClientRoster
import Nostrautica.Coordinator.InstallsFacts
import Nostrautica.Protocol.RosterPacking

set_option linter.unusedSectionVars false

namespace Nostrautica.ClientRoster

open Js Roster Keystore Nostrautica.Membership

variable {K T C : Type} [DecidableEq K] [DecidableEq T] {d : Deps K T C} {c : Context} {relays : List (PageEvent C)} {keys : EventKeys K}
  {e : PageEvent C} {u v used : EckVersion K} {roster : RosterContent} {stamp : Int} {hasSeen : Bool}

/-- What is relied on of the parameters: a payload opens under its key alone, what conforms to the
schema parses back, what parses conforms, and a blinded `d` is short. -/
structure Sealed (d : Deps K T C) : Prop where
  opens : ∀ k t, d.eckDecrypt k (d.eckEncrypt k t) = some t
  only : ∀ k k' t, (d.eckDecrypt k' (d.eckEncrypt k t)).isSome = true → k' = k
  parses : ∀ p, rosterContentSchema p = true → d.parsePage (d.pageText p) = some p
  parsed : ∀ t p, d.parsePage t = some p → rosterContentSchema p = true
  blinded : ∀ k pubkey, (d.blindedD k pubkey).length ≤ maxD

/-! ## The latest record -/

theorem pickLatest_append {l : List (PageEvent C)} : pickLatest (l ++ [e]) =
    if (pickLatest l).all fun b => Pending.supersedes ⟨e.id, e.created_at⟩ ⟨b.id, b.created_at⟩ then some e else pickLatest l := by
  rw [pickLatest, List.foldl_append]
  rfl

theorem pickLatest_mem {l : List (PageEvent C)} (h : pickLatest l = some e) : e ∈ l := by
  induction l using List.reverseRecOn with
  | nil => cases h
  | append_singleton l a ih =>
    rw [pickLatest_append] at h
    split at h
    · cases h
      simp
    · exact List.mem_append_left _ (ih h)

/-! ## Versions -/

/-- The version is current or staged. -/
def Held (keys : EventKeys K) (v : EckVersion K) : Prop := v ∈ keys.eck ∨ v ∈ keys.pendingEck

theorem le_maxId {l : List (EckVersion K)} (h : v ∈ l) : v.id ≤ maxId l := by
  have hmono : ∀ (l : List (EckVersion K)) (m : Nat), m ≤ l.foldl (fun m v => max m v.id) m := by
    intro l
    induction l with
    | nil => exact fun m => le_rfl
    | cons a l ih => exact fun m => (le_max_left _ _).trans (ih _)
  have hmem : ∀ (l : List (EckVersion K)) (m : Nat), v ∈ l → v.id ≤ l.foldl (fun m v => max m v.id) m := by
    intro l
    induction l with
    | nil => exact fun m h => by cases h
    | cons a l ih =>
      intro m h
      rcases List.mem_cons.1 h with rfl | h
      · exact (le_max_right _ _).trans (hmono l _)
      · exact ih _ h
  exact hmem l 0 h

theorem mem_eckCandidates {fingerprint : K → Nat} {versions : List (EckVersion K)} {ref : EckRef} :
    v ∈ eckCandidates fingerprint versions ref ↔
      v ∈ versions ∧ v.id = ref.id ∧ ref.fp.all (fingerprint v.key = ·) = true := by
  rw [eckCandidates, List.mem_filter, List.mem_mergeSort, List.mem_filter, decide_eq_true_eq, and_assoc]

theorem held_promotePending : Held (promotePending d keys used) v ↔ Held keys v := by
  unfold promotePending Held
  split
  · simp only [Installs.mem_unionEck, List.mem_filter, decide_eq_true_eq]
    constructor
    · rintro ((h | h) | h)
      · exact .inl h
      · exact .inr h.1
      · exact .inr h.1
    · rintro (h | h)
      · exact .inl (.inl h)
      · rcases le_or_gt v.id used.id with hle | hlt
        · exact .inl (.inr ⟨h, hle⟩)
        · exact .inr ⟨h, hlt⟩
  · rfl

/-- What a promotion makes current is no newer than the version it is for. -/
theorem eck_promotePending (h : v ∈ (promotePending d keys used).eck) : v ∈ keys.eck ∨ v.id ≤ used.id := by
  unfold promotePending at h
  split at h
  · rcases Installs.mem_unionEck.1 h with h | h
    · exact .inl h
    · exact .inr (by simpa using (List.mem_filter.1 h).2)
  · exact .inl h

theorem held_stageEck : Held (stageEck d keys u) v ↔ Held keys v ∨ v = u := by
  simp [Held, stageEck, Installs.mem_unionEck, or_assoc]

/-- A version that is minted is newer than all that are held. -/
theorem lt_mintEck {key : K} (h : Held keys v) : v.id < (mintEck d keys key).id :=
  Nat.lt_succ_of_le (le_maxId (Installs.mem_unionEck.2 h))

/-! ## Reading -/

/-- A record under a version: its tag names it, and its content is a page that conforms to the
schema, where the version is a number. -/
def Under (d : Deps K T C) (v : EckVersion K) (e : PageEvent C) : Prop :=
  (e.eck = some ⟨v.id, some (d.fingerprint v.key)⟩ ∨ e.eck = some ⟨v.id, none⟩) ∧
    ∃ p, (isNumberInt v.id = true → rosterContentSchema p = true) ∧ e.content = d.eckEncrypt v.key (d.pageText p)

/-- Of the keys that a record's tag leaves, its own is the one that opens it. -/
theorem find?_of_under (hd : Sealed d) (hu : Under d v e) (hv : Held keys v) :
    (keysFor d keys.eck keys.pendingEck e).find? (fun v => (d.eckDecrypt v.key e.content).isSome) = some v := by
  obtain ⟨htag, p, -, hcontent⟩ := hu
  have hcand : v ∈ keysFor d keys.eck keys.pendingEck e ∧ ∀ u ∈ keysFor d keys.eck keys.pendingEck e, u.id = v.id := by
    rcases htag with htag | htag
    all_goals
      simp only [keysFor, htag, mem_eckCandidates]
      exact ⟨⟨Installs.mem_unionEck.2 hv, trivial, by simp⟩, fun u hu => hu.2.1⟩
  have hopen : ∀ u ∈ keysFor d keys.eck keys.pendingEck e, (d.eckDecrypt u.key e.content).isSome = true → u = v := by
    intro u hu hsome
    rw [hcontent] at hsome
    have hkey := hd.only _ _ _ hsome
    have hid := hcand.2 u hu
    cases u
    cases v
    cases hkey
    cases hid
    rfl
  cases hf : (keysFor d keys.eck keys.pendingEck e).find? fun v => (d.eckDecrypt v.key e.content).isSome with
  | none =>
    have hno := List.find?_eq_none.1 hf v hcand.1
    rw [hcontent, hd.opens] at hno
    exact absurd rfl hno
  | some u => rw [hopen u (List.mem_of_find?_eq_some hf) (List.find?_some (p := fun v : EckVersion K => (d.eckDecrypt v.key e.content).isSome) hf)]

/-- **A roster under a version that is held** is read under that version. -/
theorem loadRoster_of_under (hd : Sealed d) (he : pickLatest (page0s c relays) = some e) (hu : Under d v e) (hv : Held keys v) :
    loadRoster d c relays keys.eck keys.pendingEck hasSeen = (readRoster d c relays e v).getD (.unreadable e.created_at) := by
  have hfind := find?_of_under hd hu hv
  have hne : keysFor d keys.eck keys.pendingEck e ≠ [] := fun hnil => by
    rw [hnil] at hfind
    cases hfind
  have hmax : v.id ≤ maxId (unionEck d.fingerprint keys.eck keys.pendingEck) := le_maxId (Installs.mem_unionEck.2 hv)
  have hforeign : (e.eck.filter fun ref => keysFor d keys.eck keys.pendingEck e = [] ∨
      ref.id > maxId (unionEck d.fingerprint keys.eck keys.pendingEck)) = none := by
    rcases hu.1 with htag | htag <;> rw [htag, Option.filter_eq_none_iff]
    all_goals
      intro ref href
      cases href
      simpa [hne] using hmax
  simp only [loadRoster, he, hforeign, hfind]

/-- The page set of the roster that readers pick is complete: every page that page 0 names is there,
under its version. -/
def Complete (d : Deps K T C) (c : Context) (relays : List (PageEvent C)) : Prop :=
  ∀ e, pickLatest (page0s c relays) = some e → ∀ v p, Under d v e → e.content = d.eckEncrypt v.key (d.pageText p) →
    ∀ i, 0 < i → i < p.pages.getD 1 →
      ∃ e', pickLatest (recordsAt c relays e.author (rosterPageD e.d i)) = some e' ∧ Under d v e'

theorem mapM_isSome {α β : Type} {f : α → Option β} {l : List α} (h : ∀ a ∈ l, (f a).isSome) : (l.mapM f).isSome := by
  induction l with
  | nil => rfl
  | cons a l ih =>
    obtain ⟨b, hb⟩ := Option.isSome_iff_exists.1 (h a (by simp))
    obtain ⟨bs, hbs⟩ := Option.isSome_iff_exists.1 (ih fun a' ha' => h a' (by simp [ha']))
    simp [List.mapM_cons, hb, hbs]

/-- The roster whose page set is complete. -/
theorem readRoster_of_complete (hd : Sealed d) (he : pickLatest (page0s c relays) = some e) (hu : Under d v e)
    (hnum : isNumberInt v.id = true) (hcomplete : Complete d c relays) :
    ∃ roster stamp, readRoster d c relays e v = some (.ok roster stamp v) := by
  obtain ⟨-, p, hp, hcontent⟩ := id hu
  have hpages := hcomplete e he v p hu hcontent
  simp only [readRoster, hcontent, hd.opens, hd.parses p (hp hnum), Option.bind_eq_bind, Option.bind_some]
  split
  · have hrest : (loadRosterPages d c relays v.key e.author (p.pages.getD 1) e.d).isSome = true := by
      rw [loadRosterPages, Option.isSome_map]
      refine mapM_isSome fun i hi => ?_
      obtain ⟨h0, hlt⟩ := List.mem_range'_1.1 hi
      obtain ⟨e', he', -, p', hp', hcontent'⟩ := hpages i h0 (by omega)
      simp [loadPage, he', hcontent', hd.opens, hd.parses p' (hp' hnum)]
    obtain ⟨rest, hrest⟩ := Option.isSome_iff_exists.1 hrest
    exact ⟨_, _, by simp only [hrest, Option.bind_some]; rfl⟩
  · exact ⟨_, _, rfl⟩

/-! ## The members that were read -/

theorem mem_keepAttendee {kept : List RosterAttendee} {a b : RosterAttendee} (h : b ∈ keepAttendee kept a) : b ∈ kept ∨ b = a := by
  unfold keepAttendee at h
  split at h
  · exact .inl h
  · split at h
    · exact .inl h
    · simpa using h

theorem mem_foldl_keepAttendee {as kept : List RosterAttendee} {b : RosterAttendee} (h : b ∈ as.foldl keepAttendee kept) :
    b ∈ kept ∨ b ∈ as := by
  induction as generalizing kept with
  | nil => exact .inl h
  | cons a as ih =>
    rcases ih h with h | h
    · rcases mem_keepAttendee h with h | rfl
      · exact .inl h
      · exact .inr List.mem_cons_self
    · exact .inr (List.mem_cons_of_mem _ h)

/-- Every member that a read returns is on one of its pages. -/
theorem mem_of_mergeRosterPages {pages : List RosterContent} (h : mergeRosterPages pages = .ok roster) {a : RosterAttendee}
    (ha : a ∈ roster.attendees) : ∃ p ∈ pages, a ∈ p.attendees := by
  cases pages with
  | nil => cases h
  | cons p rest =>
    rw [mergeRosterPages] at h
    cases h
    simp only [foldl_pages] at ha
    rcases mem_foldl_keepAttendee ha with ha | ha
    · cases ha
    · simpa using ha

theorem schema_attendee {p : RosterContent} (h : rosterContentSchema p = true) {a : RosterAttendee} (ha : a ∈ p.attendees) :
    rosterAttendeeSchema a = true := by
  simp only [rosterContentSchema, rosterShaped, Bool.and_eq_true, List.all_eq_true] at h
  exact h.1.1.2 a ha

theorem schema_of_mapM {α : Type} {f : α → Option (RosterContent × Int)} (hf : ∀ a r, f a = some r → rosterContentSchema r.1 = true) :
    ∀ {l : List α} {rs}, l.mapM f = some rs → ∀ r ∈ rs, rosterContentSchema r.1 = true
  | [], rs, h, r, hr => by
    cases h
    cases hr
  | a :: l, rs, h, r, hr => by
    rw [List.mapM_cons] at h
    obtain ⟨r', hr', h⟩ := Option.bind_eq_some_iff.1 h
    obtain ⟨rs', hrs', h⟩ := Option.bind_eq_some_iff.1 h
    cases h
    rcases List.mem_cons.1 hr with rfl | hr
    · exact hf a _ hr'
    · exact schema_of_mapM hf hrs' r hr

/-- Every member of a roster that was read passes the schema. -/
theorem schema_of_readRoster (hd : Sealed d) (h : readRoster d c relays e v = some (.ok roster stamp used)) :
    ∀ a ∈ roster.attendees, rosterAttendeeSchema a = true := by
  simp only [readRoster, Option.bind_eq_bind] at h
  obtain ⟨text, -, h⟩ := Option.bind_eq_some_iff.1 h
  obtain ⟨page0, hpage0, h⟩ := Option.bind_eq_some_iff.1 h
  have hschema0 := hd.parsed _ _ hpage0
  split at h
  · obtain ⟨rest, hrest, h⟩ := Option.bind_eq_some_iff.1 h
    obtain ⟨merged, hmerged, h⟩ := Option.bind_eq_some_iff.1 h
    cases h
    intro a ha
    have hok : mergeRosterPages (page0 :: rest.1) = .ok roster := by
      cases hm : mergeRosterPages (page0 :: rest.1) with
      | error _ => rw [hm] at hmerged; cases hmerged
      | ok r => rw [hm] at hmerged; cases hmerged; rfl
    obtain ⟨p, hp, hap⟩ := mem_of_mergeRosterPages hok ha
    rcases List.mem_cons.1 hp with rfl | hp
    · exact schema_attendee hschema0 hap
    · rw [loadRosterPages] at hrest
      obtain ⟨rs, hrs, rfl⟩ := Option.map_eq_some_iff.1 hrest
      obtain ⟨r, hr, rfl⟩ := List.mem_map.1 hp
      refine schema_attendee (schema_of_mapM (fun i r hr => ?_) hrs r hr) hap
      simp only [loadPage] at hr
      obtain ⟨e', -, hr⟩ := Option.bind_eq_some_iff.1 hr
      obtain ⟨p', hp', rfl⟩ := Option.map_eq_some_iff.1 hr
      obtain ⟨t, -, ht⟩ := Option.bind_eq_some_iff.1 hp'
      exact hd.parsed _ _ ht
  · cases h
    exact fun a ha => schema_attendee hschema0 ha

theorem schema_of_loadRoster (hd : Sealed d) (h : loadRoster d c relays keys.eck keys.pendingEck hasSeen = .ok roster stamp used) :
    ∀ a ∈ roster.attendees, rosterAttendeeSchema a = true := by
  unfold loadRoster at h
  split at h
  · cases h
  next latest _ =>
    simp only at h
    split at h
    · cases h
    · split at h
      · cases h
      next v _ =>
        cases hr : readRoster d c relays latest v with
        | none => rw [hr] at h; cases h
        | some r =>
          rw [hr, Option.getD_some] at h
          exact schema_of_readRoster hd (h ▸ hr)

/-! ## Rewriting -/

/-- The roster of a rotation, of members that pass the schema. -/
theorem shaped_rekeyed (hd : Sealed d) {keep : Bool} {attendees : List RosterAttendee} (h0 : 0 < v.id) (hnum : isNumberInt v.id = true)
    (h : ∀ a ∈ attendees, rosterAttendeeSchema a = true) : rosterShaped (rekeyed d v keep attendees) = true := by
  have hall : (rekeyed d v keep attendees).attendees.all rosterAttendeeSchema = true := by
    refine List.all_eq_true.2 fun a ha => ?_
    obtain ⟨b, hb, rfl⟩ := List.mem_map.1 ha
    have hschema := h b hb
    simp only [rosterAttendeeSchema, Bool.and_eq_true, decide_eq_true_eq] at hschema ⊢
    refine ⟨⟨hschema.1.1, hd.blinded _ _⟩, ?_⟩
    cases keep
    · rfl
    · exact hschema.2
  simp only [rosterShaped, Bool.and_eq_true, hall]
  simp [rekeyed, h0, hnum]

/-- Every record that a rotation builds is under its version. -/
theorem under_of_buildRosterEvents (hd : Sealed d) {keep : Bool} {attendees : List RosterAttendee} {ids : Nat → JsString} {now : Int}
    {events : List (PageEvent C)} {previous : Option RosterContent} (h0 : 0 < v.id) (hs : ∀ a ∈ attendees, rosterAttendeeSchema a = true)
    (h : buildRosterEvents d c v (rekeyed d v keep attendees) stamp previous now ids = .ok events) : ∀ e ∈ events, Under d v e := by
  intro e he
  simp only [buildRosterEvents] at h
  cases hsplit : splitRoster { rekeyed d v keep attendees with eckCurrent := (v.id : Int) } with
  | error _ => rw [hsplit] at h; cases h
  | ok pages =>
    rw [hsplit] at h
    cases h
    obtain ⟨⟨p, i⟩, hp, he⟩ := List.mem_filterMap.1 he
    simp only at he
    split at he
    · cases he
    · cases he
      refine ⟨.inl rfl, p, fun hnum => ?_, rfl⟩
      exact schema_of_splitRoster (shaped_rekeyed hd h0 hnum hs) rfl hsplit p (List.fst_mem_of_mem_zipIdx hp)

end Nostrautica.ClientRoster
