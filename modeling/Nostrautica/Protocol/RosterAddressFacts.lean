/-
Spaces never share record addresses (`spaces_apart`): a derived address is a hash
without a colon, so what hangs off it tells the space, and no alias that is published
looks like one.
-/
import Nostrautica.Js.NumberFacts
import Nostrautica.Js.Utf8Facts
import Nostrautica.Protocol.RosterAddress

namespace Nostrautica.Roster

open Js

variable {sha256 : ByteArray → Digest} {base base' coordinate identifier d s t : JsString} {i j : Nat}

/-! ## Addresses of pages -/

/-- A hash in hex: 64 digits. -/
def IsHash (h : JsString) : Prop := isLowerHex 64 h = true

def colon : CodeUnit := codeUnit 58

theorem isHash_spaceRecordsD (sha256 : ByteArray → Digest) (coordinate : JsString) : IsHash (spaceRecordsD sha256 coordinate) := by
  rw [IsHash, isLowerHex, spaceRecordsD, isLowerHex_bytesToHex, length_bytesToHex, List.Vector.toList_length]
  rfl

theorem IsHash.colon_not_mem (h : IsHash base) : colon ∉ base := by
  intro hm
  have := List.all_eq_true.mp (Bool.and_eq_true_iff.mp h).2 _ hm
  exact absurd this (by decide)

/-- A page number has no colon. -/
theorem colon_not_mem_natToString (n : Nat) : colon ∉ natToString n := by
  intro hm
  rcases mem_natToString hm with h | h
  · exact absurd h (by decide)
  · exact absurd h (by decide)

theorem rosterPageD_zero (base : JsString) : rosterPageD base 0 = base := rfl

theorem rosterPageD_succ (base : JsString) (i : Nat) : rosterPageD base (i + 1) = base ++ colon :: natToString (i + 1) := by
  have hcolon : js ":" = [colon] := by decide
  rw [rosterPageD, if_neg (Nat.succ_ne_zero i), hcolon, List.append_assoc, List.singleton_append]

/-- Text before the first colon. -/
theorem append_colon_inj (hb : colon ∉ base) (hb' : colon ∉ base') (h : base ++ colon :: s = base' ++ colon :: t) :
    base = base' := by
  induction base generalizing base' with
  | nil =>
    cases base' with
    | nil => rfl
    | cons c base' =>
      have := (List.cons.inj h).1
      exact (hb' (this ▸ List.mem_cons_self)).elim
  | cons c base ih =>
    cases base' with
    | nil =>
      have := (List.cons.inj h).1
      exact (hb (this ▸ List.mem_cons_self)).elim
    | cons c' base' =>
      obtain ⟨hc, h⟩ := List.cons.inj h
      rw [hc, ih (fun hm => hb (.tail _ hm)) (fun hm => hb' (.tail _ hm)) h]

/-- A page address of a hash tells the hash. -/
theorem rosterPageD_inj (hb : IsHash base) (hb' : IsHash base') (h : rosterPageD base i = rosterPageD base' j) : base = base' := by
  cases i with
  | zero =>
    cases j with
    | zero => exact h
    | succ j =>
      rw [rosterPageD_succ, rosterPageD_zero] at h
      exact (hb.colon_not_mem (h ▸ List.mem_append_right _ List.mem_cons_self)).elim
  | succ i =>
    cases j with
    | zero =>
      rw [rosterPageD_succ, rosterPageD_zero] at h
      exact (hb'.colon_not_mem (h ▸ List.mem_append_right _ List.mem_cons_self)).elim
    | succ j =>
      rw [rosterPageD_succ, rosterPageD_succ] at h
      exact append_colon_inj hb.colon_not_mem hb'.colon_not_mem h

/-- An identifier that is a hash, or goes on after one with a colon, is shaped like a derived address. -/
theorem collides_of_hash (hb : IsHash base) (h : identifier = base ∨ ∃ s, identifier = base ++ colon :: s) :
    legacyRosterDCollidesWithDerived identifier = true := by
  have hlen : base.length = 64 := by simpa using (Bool.and_eq_true_iff.mp hb).1
  have hsplit : identifier.take 64 = base ∧ (identifier.drop 64).head?.all (·.val = 58) = true := by
    rcases h with rfl | ⟨s, rfl⟩
    · rw [← hlen]
      simp
    · rw [← hlen]
      simp [colon, codeUnit]
  rw [legacyRosterDCollidesWithDerived, hsplit.1, hsplit.2, Bool.and_true]
  exact hb

/-- No alias that is published is a page of a derived address. -/
theorem alias_ne_derived (hi : legacyRosterDCollidesWithDerived identifier = false) (hb : IsHash base) :
    rosterPageD identifier i ≠ rosterPageD base j := by
  intro h
  refine Bool.false_ne_true (hi.symm.trans (collides_of_hash hb ?_))
  cases i with
  | zero =>
    cases j with
    | zero => exact .inl h
    | succ j =>
      rw [rosterPageD_succ] at h
      exact .inr ⟨_, h⟩
  | succ i =>
    cases j with
    | zero =>
      rw [rosterPageD_succ, rosterPageD_zero] at h
      exact (hb.colon_not_mem (h ▸ List.mem_append_right _ List.mem_cons_self)).elim
    | succ j =>
      rw [rosterPageD_succ, rosterPageD_succ] at h
      -- read from the end: the page numbers have no colon
      have hrev := congrArg List.reverse h
      simp only [List.reverse_append, List.reverse_cons, List.append_assoc, List.singleton_append] at hrev
      have hnum := append_colon_inj (fun hm => colon_not_mem_natToString _ (List.mem_reverse.mp hm))
        (fun hm => colon_not_mem_natToString _ (List.mem_reverse.mp hm)) hrev
      rw [hnum] at hrev
      have := List.cons.inj (List.append_cancel_left hrev)
      exact .inl (List.reverse_injective this.2)

/-! ## Spaces -/

/-- The hash of its coordinate tells a space, among spaces whose hashes do not collide. -/
theorem spaceRecordsD_inj {spaces : Set JsString} (hash : Set.InjOn sha256 (recordsText '' spaces)) {c c' : JsString}
    (hc : c ∈ spaces) (hc' : c' ∈ spaces) (h : spaceRecordsD sha256 c = spaceRecordsD sha256 c') : c = c' :=
  utf8_pair_inj (hash ⟨c, hc, rfl⟩ ⟨c', hc', rfl⟩ (List.Vector.toList_injective (bytesToHex_inj h)))

/-- A record names its space; the alias of a space hangs off its identifier. -/
theorem buildRoster_spec {keys : EckTag} {roster : RosterContent} {a : RosterAddressing} {r : RosterEvent}
    (h : buildRoster sha256 keys coordinate roster i a = .ok r) :
    r.tags.find? (·[0]? = some (js "a")) = some [js "a", coordinate] ∧
      (a = .legacy → ∃ identifier, legacyRosterD coordinate = .ok identifier ∧ r.d = rosterPageD identifier i) := by
  have hd : js "d" ≠ js "a" := by decide
  cases a with
  | derived =>
    cases h
    exact ⟨by simp [hd], nofun⟩
  | legacy =>
    cases hl : legacyRosterD coordinate with
    | error e =>
      rw [buildRoster, hl] at h
      cases h
    | ok identifier =>
      rw [buildRoster, hl] at h
      cases h
      exact ⟨by simp [hd], fun _ => ⟨identifier, rfl, rfl⟩⟩

theorem legacyRosterD_of_parse {e : EventCoordinate} (h : parseEventCoordinate coordinate = some e) :
    legacyRosterD coordinate = .ok e.identifier := by
  have h := (Option.filter_eq_some_iff.mp h).1
  unfold legacyRosterD
  cases hp : parseCoordinate coordinate with
  | error m =>
    rw [hp] at h
    cases h
  | ok e' =>
    rw [hp] at h
    cases h
    rfl

theorem length_splitRoster {roster : RosterContent} {pages : List RosterContent} (h : splitRoster roster = .ok pages) :
    pages.length ≤ maxRosterPages := by
  unfold splitRoster at h
  split at h
  · cases h
    exact Nat.le_add_left 1 39
  · split at h
    · cases h
    · simp only at h
      split at h
      · cases h
      next hle =>
        split at h
        · cases h
        · cases h
          rw [List.length_mapIdx]
          exact not_lt.mp hle

/-- The aliases that are published. -/
theorem publishRoster_legacy {keys : EckTag} {pages : List RosterContent} {published : Nat → Option JsString} {r : RosterEvent}
    {e : EventCoordinate} (he : parseEventCoordinate coordinate = some e)
    (h : (.legacy, .ok r) ∈ publishRoster sha256 keys coordinate identifier pages published) :
    legacyRosterDCollidesWithDerived identifier = false ∧ ∃ i < pages.length, r.d = rosterPageD e.identifier i := by
  unfold publishRoster at h
  obtain ⟨⟨page, i⟩, hpage, h⟩ := List.mem_flatMap.mp h
  obtain ⟨a, ha, h⟩ := List.mem_map.mp h
  obtain ⟨rfl, hbuild⟩ := Prod.mk.inj h
  refine ⟨?_, i, ?_, ?_⟩
  · split at ha
    next hp => simpa [publishesLegacyRosterAlias, publishLegacyRosterAlias] using hp
    next => simp at ha
  · have := List.snd_lt_of_mem_zipIdx (List.mem_of_mem_filter hpage)
    omega
  · obtain ⟨identifier', hl, hd⟩ := (buildRoster_spec hbuild).2 rfl
    rw [legacyRosterD_of_parse he] at hl
    cases hl
    exact hd

theorem mem_rosterPageDs (hi : i < maxRosterPages) : rosterPageD base i ∈ rosterPageDs base maxRosterPages :=
  List.mem_map.mpr ⟨i, List.mem_range.mpr (by simpa [maxRosterPages] using hi), rfl⟩

/-- What keeps the records of two spaces apart. -/
structure Apart (sha256 : ByteArray → Digest) (c c' : JsString) (e e' : EventCoordinate) : Prop where
  /-- Their derived addresses are disjoint; -/
  derived : ∀ i j, rosterPageD (spaceRecordsD sha256 c) i ≠ rosterPageD (spaceRecordsD sha256 c') j
  /-- an alias that is published is no derived address, of either; -/
  published : ∀ keys pages published r, (.legacy, .ok r) ∈ publishRoster sha256 keys c e.identifier pages published →
    ∀ j, r.d ≠ rosterPageD (spaceRecordsD sha256 c') j ∧ r.d ≠ rosterPageD (spaceRecordsD sha256 c) j
  /-- a record of the other is never read as a page of the one; -/
  read : ∀ ds keys roster i a r, buildRoster sha256 keys c' roster i a = .ok r → isRosterPageFor c ds (some r.tags) = false
  /-- and what the one deletes is at no alias of the other, if it is live. -/
  deleted : ∀ live keys roster pages published r, c' ∈ live → splitRoster roster = .ok pages →
    (.legacy, .ok r) ∈ publishRoster sha256 keys c' e'.identifier pages published →
      r.d ∉ legacyRosterDsToDelete c e.identifier live

/-- **Spaces never share record addresses**, where the hashes of their coordinates do not collide. -/
theorem spaces_apart {spaces : Set JsString} (hash : Set.InjOn sha256 (recordsText '' spaces)) {c c' : JsString}
    (hc : c ∈ spaces) (hc' : c' ∈ spaces) (hne : c ≠ c') {e e' : EventCoordinate} (he : parseEventCoordinate c = some e)
    (he' : parseEventCoordinate c' = some e') : Apart sha256 c c' e e' where
  derived i j h :=
    hne (spaceRecordsD_inj hash hc hc' (rosterPageD_inj (isHash_spaceRecordsD ..) (isHash_spaceRecordsD ..) h))
  published keys pages published r hr j := by
    obtain ⟨hcollides, i, -, hd⟩ := publishRoster_legacy he hr
    rw [hd]
    exact ⟨alias_ne_derived hcollides (isHash_spaceRecordsD ..), alias_ne_derived hcollides (isHash_spaceRecordsD ..)⟩
  read ds keys roster i a r hr := by
    have ha := (buildRoster_spec hr).1
    simp only [isRosterPageFor]
    split
    · rfl
    · rw [ha]
      simp [hne.symm]
  deleted live keys roster pages published r hlive hsplit hr := by
    obtain ⟨-, i, hi, hd⟩ := publishRoster_legacy he' hr
    have hmem := @mem_rosterPageDs e'.identifier i (hi.trans_le (length_splitRoster hsplit))
    unfold legacyRosterDsToDelete
    split
    · exact List.not_mem_nil
    · intro hm
      have hnot : r.d ∉ (live.filter (· ≠ c)).flatMap legacyRosterDs := by
        simpa only [List.contains_iff_mem, Bool.not_eq_true', decide_eq_false_iff_not, List.contains_eq_mem] using
          (List.mem_filter.mp hm).2
      refine hnot (List.mem_flatMap.mpr ⟨c', List.mem_filter.mpr ⟨hlive, by simpa using hne.symm⟩, ?_⟩)
      rw [legacyRosterDs, legacyRosterD_of_parse he', hd]
      exact hmem

namespace Small

def camp : JsString := js "31923:aaaaaaaaaaaaaaaaaaaaaaaaaaaaaaaaaaaaaaaaaaaaaaaaaaaaaaaaaaaaaaaa:camp"

/-- A space whose identifier is a page address of the other's alias. -/
def campPage : JsString := js "31923:aaaaaaaaaaaaaaaaaaaaaaaaaaaaaaaaaaaaaaaaaaaaaaaaaaaaaaaaaaaaaaaa:camp:1"

def campDigest : Digest := ⟨[33, 96, 232, 133, 27, 93, 153, 154, 92, 115, 222, 131, 89, 152, 79, 1, 180, 46, 42, 176, 16, 194, 174,
  108, 10, 150, 12, 183, 176, 245, 160, 241], rfl⟩

def pageDigest : Digest := ⟨[192, 119, 0, 57, 109, 157, 113, 161, 136, 34, 127, 167, 205, 9, 45, 214, 203, 53, 249, 110, 144, 10, 80,
  160, 30, 123, 196, 8, 2, 193, 94, 28], rfl⟩

/-- The digests of the two. -/
def digest (bytes : ByteArray) : Digest := if bytes = recordsText camp then campDigest else pageDigest

def pubkey : JsString := List.replicate 64 (codeUnit 97)

theorem digest_injOn : Set.InjOn digest (recordsText '' {camp, campPage}) := by
  have hne : camp ≠ campPage := by decide
  have htext : recordsText campPage ≠ recordsText camp := fun h => hne (utf8_pair_inj h).symm
  have hcamp : digest (recordsText camp) = campDigest := if_pos rfl
  have hpage : digest (recordsText campPage) = pageDigest := if_neg htext
  have hdigest : campDigest ≠ pageDigest := by decide
  rintro _ ⟨a, ha, rfl⟩ _ ⟨b, hb, rfl⟩ h
  rcases ha with rfl | rfl <;> rcases hb with rfl | rfl
  · rfl
  · exact (hdigest (hcamp.symm.trans (h.trans hpage))).elim
  · exact (hdigest (hcamp.symm.trans (h.symm.trans hpage))).elim
  · rfl

end Small

theorem spaces_apart_camp : Apart Small.digest Small.camp Small.campPage ⟨31923, Small.pubkey, js "camp"⟩
    ⟨31923, Small.pubkey, js "camp:1"⟩ :=
  spaces_apart Small.digest_injOn (.inl rfl) (.inr rfl) (by decide) (by decide +kernel) (by decide +kernel)

end Nostrautica.Roster
