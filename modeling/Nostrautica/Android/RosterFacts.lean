/-
Android and the web paginate a roster alike (`paginate_alike`). Both pack the members by the same
sizes: the JSON text of Android is as long as the web's (`size_roster`), since both escape the same
units of well-formed text and write no exponent in an integer of 64 bits. The web's last check of
a page's size, which Android leaves out, fails for no roster of the schema.
-/
import Nostrautica.Android.Roster
import Nostrautica.Js.Digits
import Nostrautica.Js.Utf8Facts
import Nostrautica.Protocol.RosterPacking

set_option linter.unusedSectionVars false

namespace Nostrautica.Android.Roster

open Js
open Nostrautica.Roster (RosterContent RosterAttendee RosterChatKey RosterRole Packing field rosterShaped rosterAttendeeSchema
  splitRoster mergeRosterPages packPages envelopeBytes entryBytes payloadBytes nip44MaxPlaintextBytes)

variable {encodeToString : Json → JsString} {r : RosterContent} {a : RosterAttendee} {s t : JsString} {n : Int} {v : Json}

/-! ## Sizes -/

/-- The sizes of an integer that a `Long` holds. -/
theorem size_long (h : n.natAbs < 10 ^ 19) : utf8ByteLength (longToString n) = (Json.num n).bytes := by
  have hdigits : ∀ m : Nat, m ≠ 0 → m < 10 ^ 19 → (natToString m).length = (decimal m).length :=
    fun m => length_natToString
  have hascii : isAscii (longToString n) = true := by
    simp only [longToString, isAscii, List.all_append, Bool.and_eq_true]
    refine ⟨by split <;> decide, ?_⟩
    split
    · decide
    · exact isAscii_of_digits fun c => isDigit_of_mem_decimal
  rw [Json.bytes, stringify, utf8ByteLength_of_ascii hascii, utf8ByteLength_of_ascii (isAscii_intToString n)]
  cases n with
  | ofNat m =>
    by_cases hm : m = 0
    · subst hm
      decide
    · have hpos : ¬(Int.ofNat m < 0) := by simp
      have hne : Int.ofNat m ≠ 0 := by simpa using hm
      rw [longToString, if_neg hpos, if_neg hne, List.nil_append, intToString, hdigits m hm h]
      rfl
  | negSucc m =>
    rw [longToString, if_pos (Int.negSucc_lt_zero m), if_neg (Int.negSucc_ne_zero m), intToString, List.length_append,
      List.length_append, hdigits (m + 1) (Nat.succ_ne_zero m) h]
    rfl

/-- A unit that is not half of a pair is written as the web writes it. -/
theorem escaped_eq {c : CodeUnit} (hh : isHighSurrogate c = false) (hl : isLowSurrogate c = false) : escaped c = escapeUnit c := by
  simp only [escaped, escapeUnit, hh, hl, Bool.or_false, decide_eq_true_eq]

theorem escaped_surrogate {c : CodeUnit} (h : 0xD800 ≤ c.val) : escaped c = [c] := by
  simp only [escaped]
  repeat rw [if_neg (by omega)]

theorem quoteUnits_cons {c : CodeUnit} (hc : isHighSurrogate c = false) (s : JsString) :
    quoteUnits (c :: s) = escapeUnit c ++ quoteUnits s := by
  cases s with
  | nil => simp [quoteUnits]
  | cons d s => simp [quoteUnits, hc]

/-- What a character of well-formed text is written as. -/
theorem quoteUnits_unitsOfChar (x : Char) (s : JsString) :
    quoteUnits (unitsOfChar x ++ s) = (unitsOfChar x).flatMap escaped ++ quoteUnits s := by
  have hvalid : x.toNat < 0xD800 ∨ 0xDFFF < x.toNat ∧ x.toNat < 0x110000 := x.valid
  unfold unitsOfChar
  simp only
  split
  next hx =>
    have hval := val_codeUnit hx
    have hh : isHighSurrogate (codeUnit x.toNat) = false := (unitChar_toNat hx).1
    have hl : isLowSurrogate (codeUnit x.toNat) = false := by
      simp only [isLowSurrogate, hval, Bool.and_eq_false_iff, decide_eq_false_iff_not]
      omega
    rw [List.singleton_append, quoteUnits_cons hh, List.flatMap_cons, List.flatMap_nil, List.append_nil, escaped_eq hh hl]
  next hx =>
    have h1 := @val_codeUnit (0xD800 + (x.toNat - 0x10000) / 0x400) (by omega)
    have h2 := @val_codeUnit (0xDC00 + (x.toNat - 0x10000) % 0x400) (by omega)
    have hpair : (isHighSurrogate (codeUnit (0xD800 + (x.toNat - 0x10000) / 0x400)) &&
        isLowSurrogate (codeUnit (0xDC00 + (x.toNat - 0x10000) % 0x400))) = true := by
      simp only [isHighSurrogate, isLowSurrogate, h1, h2, Bool.and_eq_true, decide_eq_true_eq]
      omega
    simp only [List.cons_append, List.nil_append, quoteUnits, if_pos hpair, List.flatMap_cons, List.flatMap_nil,
      escaped_surrogate (show 0xD800 ≤ (codeUnit (0xD800 + (x.toNat - 0x10000) / 0x400)).val by omega),
      escaped_surrogate (show 0xD800 ≤ (codeUnit (0xDC00 + (x.toNat - 0x10000) % 0x400)).val by omega)]

/-- Both clients write well-formed text alike. -/
theorem flatMap_escaped (h : WellFormed s) : s.flatMap escaped = quoteUnits s := by
  obtain ⟨xs, rfl⟩ := h
  induction xs with
  | nil => rfl
  | cons x xs ih => rw [List.flatMap_cons, List.flatMap_append, quoteUnits_unitsOfChar, ih]

/-- A value has the same size in both clients. -/
def SameSize (encodeToString : Json → JsString) (v : Json) : Prop := utf8ByteLength (encodeToString v) = v.bytes

section

variable (hj : Compact encodeToString)
include hj

theorem text_str (h : WellFormed s) : encodeToString (.str s) = quote s := by rw [hj.str, flatMap_escaped h, quote]

theorem SameSize.str (h : WellFormed s) : SameSize encodeToString (.str s) := by
  rw [SameSize, text_str hj h, bytes_str, quoteBytes]

theorem SameSize.num (h : n.natAbs < 10 ^ 19) : SameSize encodeToString (.num n) := by
  rw [SameSize, hj.num, size_long h]

theorem SameSize.bool (b : Bool) : SameSize encodeToString (.bool b) := by
  rw [SameSize, hj.bool, Json.bytes, stringify]
  cases b <;> rfl

theorem SameSize.arr {elems : List Json} (h : ∀ v ∈ elems, SameSize encodeToString v) : SameSize encodeToString (.arr elems) := by
  have hmap : (elems.map encodeToString).map utf8ByteLength = elems.map Json.bytes := by
    rw [List.map_map]
    exact List.map_congr_left h
  rw [SameSize, hj.arr, utf8ByteLength_arrayText, hmap, bytes_arr, arrayBytes]

theorem SameSize.obj {fields : List (JsString × Json)} (h : ∀ p ∈ fields, WellFormed p.1 ∧ SameSize encodeToString p.2) :
    SameSize encodeToString (.obj fields) := by
  have htext : encodeToString (.obj fields) = objectText (fields.map fun p => (p.1, encodeToString p.2)) := by
    rw [hj.obj, objectText, List.map_map]
    congr 3
    exact List.map_congr_left fun p hp => by
      rw [text_str hj (h p hp).1]
      rfl
  have hmap : (fields.map fun p => (p.1, encodeToString p.2)).map (fun p => (p.1, utf8ByteLength p.2)) =
      fields.map fun p => (p.1, p.2.bytes) := by
    rw [List.map_map]
    exact List.map_congr_left fun p hp => Prod.ext rfl (h p hp).2
  rw [SameSize, htext, utf8ByteLength_objectText, hmap, bytes_obj, objectBytes, List.map_map]
  rfl

end

/-! ## What both clients hold -/

/-- The strings of a roster's key, attendee and page. -/
def stringsOfKey (k : RosterChatKey) : List JsString := k.pubkey :: k.label.toList

def stringsOfAttendee (a : RosterAttendee) : List JsString :=
  a.pubkey :: a.d :: (a.chatKeys.getD []).flatMap stringsOfKey

def stringsOf (r : RosterContent) : List JsString := r.nostrGroupId.toList ++ r.attendees.flatMap stringsOfAttendee

/-- An attendee that both clients can hold: its strings are well formed, its times are `Long`s. -/
structure HeldAttendee (a : RosterAttendee) : Prop where
  text : ∀ s ∈ stringsOfAttendee a, WellFormed s
  long : ∀ k ∈ a.chatKeys.getD [], -2 ^ 63 ≤ k.addedAt ∧ k.addedAt < 2 ^ 63

/-- A roster that both clients can hold: its strings are well formed, its numbers are `Int`s and `Long`s. -/
structure Held (r : RosterContent) : Prop where
  text : ∀ s ∈ stringsOf r, WellFormed s
  int : r.eckCurrent < 2 ^ 31
  long : ∀ a ∈ r.attendees, ∀ k ∈ a.chatKeys.getD [], -2 ^ 63 ≤ k.addedAt ∧ k.addedAt < 2 ^ 63

theorem Held.attendee (h : Held r) (ha : a ∈ r.attendees) : HeldAttendee a where
  text s hs := h.text s (List.mem_append_right _ (List.mem_flatMap.2 ⟨a, ha, hs⟩))
  long := h.long a ha

section

variable (hj : Compact encodeToString)
include hj

theorem sameSize_key {k : RosterChatKey} (ht : ∀ s ∈ stringsOfKey k, WellFormed s) (hl : -2 ^ 63 ≤ k.addedAt ∧ k.addedAt < 2 ^ 63) :
    SameSize encodeToString k.toJson := by
  refine SameSize.obj hj fun p hp => ?_
  simp only [List.mem_append, List.mem_singleton, Option.mem_toList, Option.map_eq_some_iff] at hp
  rcases hp with ((rfl | ⟨l, hlabel, rfl⟩) | rfl) | hp
  · exact ⟨wellFormed_js _, SameSize.str hj (ht _ List.mem_cons_self)⟩
  · exact ⟨wellFormed_js _, SameSize.str hj (ht _ (List.mem_cons_of_mem _ (Option.mem_toList.2 hlabel)))⟩
  · exact ⟨wellFormed_js _, SameSize.num hj (by omega)⟩
  · split at hp
    · cases List.mem_singleton.1 hp
      exact ⟨wellFormed_js _, SameSize.bool hj true⟩
    · cases hp

theorem sameSize_attendee (h : HeldAttendee a) : SameSize encodeToString a.toJson := by
  refine SameSize.obj hj fun p hp => ?_
  simp only [List.mem_append, List.mem_cons, List.not_mem_nil, or_false, Option.mem_toList, Option.map_eq_some_iff] at hp
  rcases hp with (rfl | rfl | rfl) | ⟨ks, hks, rfl⟩
  · exact ⟨wellFormed_js _, SameSize.str hj (h.text _ List.mem_cons_self)⟩
  · exact ⟨wellFormed_js _, SameSize.str hj (h.text _ (List.mem_cons_of_mem _ List.mem_cons_self))⟩
  · refine ⟨wellFormed_js _, ?_⟩
    cases a.role <;> exact SameSize.str hj (wellFormed_js _)
  · refine ⟨wellFormed_js _, SameSize.arr hj fun v hv => ?_⟩
    obtain ⟨k, hk, rfl⟩ := List.mem_map.1 hv
    have hmem : k ∈ a.chatKeys.getD [] := by
      rw [hks]
      exact hk
    refine sameSize_key hj (fun s hs => h.text s ?_) (h.long k hmem)
    exact List.mem_cons_of_mem _ (List.mem_cons_of_mem _ (List.mem_flatMap.2 ⟨k, hmem, hs⟩))

/-- **A roster takes as many bytes in both clients.** -/
theorem size_roster (h : Held r) (hv : r.v < 10 ^ 19) (heck : 0 < r.eckCurrent) (hp : r.pages.all fun n => n ≤ maxRosterPages) :
    bytes encodeToString r = payloadBytes r := by
  refine SameSize.obj hj fun p hmem => ?_
  simp only [List.mem_append, List.mem_cons, List.not_mem_nil, or_false, Option.mem_toList, Option.map_eq_some_iff] at hmem
  have hint := h.int
  rcases hmem with (((rfl | rfl) | ⟨g, hg, rfl⟩) | ⟨n, hn, rfl⟩) | rfl
  · exact ⟨wellFormed_js _, SameSize.num hj (by simpa using hv)⟩
  · exact ⟨wellFormed_js _, SameSize.num hj (by omega)⟩
  · exact ⟨wellFormed_js _, SameSize.str hj (h.text g (List.mem_append_left _ (Option.mem_toList.2 hg)))⟩
  · rw [hn, Option.all_some, decide_eq_true_eq] at hp
    have : maxRosterPages < 10 ^ 19 := by decide
    exact ⟨wellFormed_js _, SameSize.num hj (by simpa using hp.trans_lt this)⟩
  · refine ⟨wellFormed_js _, SameSize.arr hj fun v hv => ?_⟩
    obtain ⟨b, hb, rfl⟩ := List.mem_map.1 hv
    exact sameSize_attendee hj (h.attendee hb)

end

/-! ## Packing -/

/-- Of a roster of the schema, both clients build the same pages. -/
theorem buildPage_eq (hr : rosterShaped r = true) : buildPage r = Nostrautica.Roster.buildPage r := by
  funext i n as
  rw [buildPage, Nostrautica.Roster.buildPage, Nostrautica.Roster.truthyGroupId_eq hr]

theorem eckCurrent_pos (hr : rosterShaped r = true) : 0 < r.eckCurrent := by
  simp only [rosterShaped, Bool.and_eq_true, decide_eq_true_eq] at hr
  exact hr.1.1.1.1.2.1

section

variable (hj : Compact encodeToString)
include hj

/-- The sizes of a page of the roster, with some of its members. -/
theorem size_page (hr : rosterShaped r = true) (h : Held r) (i : Nat) {n : Nat} (hn : n ≤ maxRosterPages) {as : List RosterAttendee}
    (has : ∀ a ∈ as, a ∈ r.attendees) :
    bytes encodeToString (Nostrautica.Roster.buildPage r i n as) = payloadBytes (Nostrautica.Roster.buildPage r i n as) := by
  have hv : rosterPagedVersion < 10 ^ 19 := by decide
  have heck := eckCurrent_pos hr
  have htext : ∀ s ∈ as.flatMap stringsOfAttendee, WellFormed s := fun s hs => by
    obtain ⟨a, ha, hs⟩ := List.mem_flatMap.1 hs
    exact (h.attendee (has a ha)).text s hs
  have hlong : ∀ a ∈ as, ∀ k ∈ a.chatKeys.getD [], -2 ^ 63 ≤ k.addedAt ∧ k.addedAt < 2 ^ 63 := fun a ha => h.long a (has a ha)
  have hgroup := Nostrautica.Roster.truthyGroupId_eq hr
  by_cases hi : i > 0
  · simp only [Nostrautica.Roster.buildPage, if_pos hi]
    exact size_roster hj ⟨fun s hs => htext s (by simpa [stringsOf] using hs), h.int, hlong⟩ hv heck rfl
  · simp only [Nostrautica.Roster.buildPage, if_neg hi, hgroup]
    refine size_roster hj ⟨fun s hs => ?_, h.int, hlong⟩ hv heck (by simpa using hn)
    rcases List.mem_append.1 hs with hs | hs
    · exact h.text s (List.mem_append_left _ hs)
    · exact htext s hs

theorem overheadOf_eq (hr : rosterShaped r = true) (h : Held r) (i : Nat) : overheadOf encodeToString r i = envelopeBytes r i := by
  rw [overheadOf, buildPage_eq hr]
  exact size_page hj hr h i le_rfl fun a ha => by cases ha

theorem entryOf_eq (h : HeldAttendee a) : entryOf encodeToString a = entryBytes a :=
  congrArg (· + 1) (sameSize_attendee hj h)

/-- One turn of the loop is the web's. -/
theorem turn_eq (hr : rosterShaped r = true) (h : Held r) (ha : a ∈ r.attendees) (p : Packing) :
    turn encodeToString r p a = p.add r a := by
  simp only [turn, Packing.add, Packing.closeFor, Packing.push, entryOf_eq hj (h.attendee ha), overheadOf_eq hj hr h,
    List.length_append, List.length_singleton]
  rfl

theorem groupsOf_eq (hr : rosterShaped r = true) (h : Held r) : groupsOf encodeToString r = packPages r := by
  have hfold : ∀ (as : List RosterAttendee) (p : Packing), (∀ a ∈ as, a ∈ r.attendees) →
      as.foldl (turn encodeToString r) p = as.foldl (Packing.add r) p := by
    intro as
    induction as with
    | nil => exact fun p _ => by rw [List.foldl_nil, List.foldl_nil]
    | cons a as ih =>
      intro p has
      rw [List.foldl_cons, List.foldl_cons, turn_eq hj hr h (has a List.mem_cons_self)]
      exact ih _ fun b hb => has b (List.mem_cons_of_mem a hb)
  have hstart : (⟨[], [], overheadOf encodeToString r 0⟩ : Packing) = Packing.start r := by
    rw [overheadOf_eq hj hr h 0, Packing.start]
  simp only [groupsOf, packPages, hstart, hfold r.attendees (Packing.start r) fun _ ha => ha]

end

/-- Both clients refuse, or both come to the same pages, none over what NIP-44 encrypts in either. -/
def SplitAlike (encodeToString : Json → JsString) (r : RosterContent) : Prop :=
  (∃ e e', split encodeToString r = .error e ∧ splitRoster r = .error e') ∨
  ∃ pages, split encodeToString r = .ok pages ∧ splitRoster r = .ok pages ∧
    ∀ page ∈ pages, bytes encodeToString page = payloadBytes page ∧ payloadBytes page ≤ nip44MaxPlaintextBytes

theorem split_alike (hj : Compact encodeToString) (hr : rosterShaped r = true) (h : Held r) : SplitAlike encodeToString r := by
  have hr' := hr
  simp only [rosterShaped, Bool.and_eq_true, Bool.or_eq_true, beq_iff_eq] at hr'
  have hpages : r.pages.all fun n => n ≤ maxRosterPages := by
    cases hp : r.pages with
    | none => rfl
    | some n =>
      have := hr'.1.1.2
      rw [hp, Option.all_some, Bool.and_eq_true] at this
      exact this.2
  have hv : r.v < 10 ^ 19 := by
    rcases hr'.1.1.1.1.1 with hv | hv <;> rw [hv] <;> decide
  have hsize := size_roster hj h hv (eckCurrent_pos hr) hpages
  have hfits : fitsOnePage encodeToString r = Nostrautica.Roster.rosterFitsOnePage r := by
    rw [fitsOnePage, Nostrautica.Roster.rosterFitsOnePage, hsize]
  by_cases hone : Nostrautica.Roster.rosterFitsOnePage r = true
  · refine .inr ⟨[r], by rw [split, if_pos (hfits.trans hone)], by rw [splitRoster, if_pos hone], fun page hpage => ?_⟩
    cases List.mem_singleton.1 hpage
    exact ⟨hsize, of_decide_eq_true hone⟩
  have hone' : ¬fitsOnePage encodeToString r = true := by rwa [hfits]
  by_cases hlen : r.attendees.length ≤ maxRoster
  · by_cases hgroups : (packPages r).length ≤ maxRosterPages
    · obtain ⟨pages, hok⟩ := Nostrautica.Roster.splitRoster_ok hr hlen hgroups
      rcases Nostrautica.Roster.splitRoster_eq hok with ⟨hfit, -⟩ | ⟨-, -, -, heq⟩
      · exact absurd hfit hone
      have hsplit : split encodeToString r = .ok pages := by
        rw [split, if_neg hone', if_neg (not_not_intro hlen)]
        simp only [groupsOf_eq hj hr h, if_neg (not_not_intro hgroups), buildPage_eq hr]
        rw [heq]
      refine .inr ⟨pages, hsplit, hok, fun page hpage => ?_⟩
      obtain ⟨i, hi, rfl⟩ := List.mem_mapIdx.1 (heq ▸ hpage)
      obtain ⟨hflat, hwithin⟩ := Nostrautica.Roster.packPages_spec hr
      refine ⟨size_page hj hr h i hgroups fun a ha => hflat ▸ List.mem_flatten_of_mem (List.getElem_mem hi) ha, ?_⟩
      have hle := Nostrautica.Roster.payloadBytes_buildPage_le r i hgroups (packPages r)[i]
      exact (hle.trans (hwithin i _ (List.getElem?_eq_getElem hi))).trans (by decide)
    · refine .inl ⟨.pages (packPages r).length, .pages (packPages r).length, ?_, ?_⟩
      · rw [split, if_neg hone', if_neg (not_not_intro hlen)]
        simp only [groupsOf_eq hj hr h, if_pos hgroups]
      · rw [splitRoster, if_neg hone, if_neg (not_lt.2 hlen)]
        exact if_pos (not_le.1 hgroups)
  · refine .inl ⟨.members r.attendees.length, .members r.attendees.length, ?_, ?_⟩
    · rw [split, if_neg hone', if_pos hlen]
    · rw [splitRoster, if_neg hone, if_pos (not_le.1 hlen)]

/-! ## Merging -/

theorem keepAttendee_full {kept : List RosterAttendee} (h : maxRoster ≤ kept.length) :
    ∀ as : List RosterAttendee, as.foldl Nostrautica.Roster.keepAttendee kept = kept
  | [] => rfl
  | a :: as => by
    rw [List.foldl_cons, Nostrautica.Roster.keepAttendee, if_pos h]
    exact keepAttendee_full h as

/-- Keeping the first of each member until the roster is full is taking as many of the first ones. -/
theorem keepAttendee_eq : ∀ (as kept : List RosterAttendee) (seen : List JsString), (∀ pk, pk ∈ seen ↔ pk ∈ kept.map (·.pubkey)) →
    kept.length ≤ maxRoster →
    as.foldl Nostrautica.Roster.keepAttendee kept = kept ++ (filterUnseen seen as).take (maxRoster - kept.length)
  | [], kept, seen, _, _ => by simp [filterUnseen]
  | a :: as, kept, seen, hseen, hle => by
    rw [List.foldl_cons, Nostrautica.Roster.keepAttendee]
    by_cases hfull : kept.length ≥ maxRoster
    · rw [if_pos hfull, keepAttendee_full hfull, Nat.sub_eq_zero_of_le hfull, List.take_zero, List.append_nil]
    rw [if_neg hfull, filterUnseen]
    by_cases ha : a.pubkey ∈ seen
    · rw [if_pos (List.contains_iff_mem.2 ((hseen _).1 ha)), if_pos ha]
      exact keepAttendee_eq as kept seen hseen hle
    · rw [if_neg fun hc => ha ((hseen _).2 (List.contains_iff_mem.1 hc)), if_neg ha]
      have hlen : (kept ++ [a]).length = kept.length + 1 := by rw [List.length_append, List.length_singleton]
      rw [keepAttendee_eq as (kept ++ [a]) (a.pubkey :: seen) (fun pk => ?_) (by omega)]
      · obtain ⟨k, hk⟩ : ∃ k, maxRoster - kept.length = k + 1 := ⟨maxRoster - kept.length - 1, by omega⟩
        rw [hk, List.take_succ_cons, hlen, show maxRoster - (kept.length + 1) = k by omega, List.append_assoc]
        rfl
      · rw [List.mem_cons, hseen, List.map_append, List.mem_append, List.map_singleton, List.mem_singleton, or_comm]

/-- **Both clients merge pages alike**, whatever members they repeat, unless page 0 names an empty group. -/
theorem merge_alike (pages : List RosterContent) (hgroup : ∀ page ∈ pages.head?, page.nostrGroupId ≠ some []) :
    merge pages = mergeRosterPages pages := by
  cases pages with
  | nil => rfl
  | cons page0 rest =>
    have hg : Nostrautica.Roster.truthyGroupId page0 = page0.nostrGroupId := by
      have h0 := hgroup page0 rfl
      cases hid : page0.nostrGroupId with
      | none => simp [Nostrautica.Roster.truthyGroupId, hid]
      | some g =>
        rw [hid] at h0
        simpa [Nostrautica.Roster.truthyGroupId, hid] using h0
    have hkept := keepAttendee_eq ((page0 :: rest).flatMap (·.attendees)) [] [] (fun _ => Iff.rfl) (Nat.zero_le _)
    rw [List.nil_append, List.length_nil, Nat.sub_zero, List.flatMap_def] at hkept
    rw [merge, mergeRosterPages, hg, Nostrautica.Roster.foldl_pages, hkept, List.flatMap_def]

/-! ## Addresses -/

theorem longToString_eq : ∀ n < maxRosterPages, longToString (n : Nat) = natToString n := by decide +kernel

theorem pageD_eq (base : JsString) {page : Nat} (h : page < maxRosterPages) : pageD base page = Nostrautica.Roster.rosterPageD base page := by
  rw [pageD, Nostrautica.Roster.rosterPageD, longToString_eq page h]

theorem coercePages_eq (pages : Int) : (coercePages pages).toNat = min maxRosterPages (max 1 pages.toNat) := by
  have hcap : (maxRosterPages : Int) = 40 := rfl
  rw [coercePages, hcap, show maxRosterPages = 40 from rfl]
  by_cases hlow : pages < 1
  · rw [if_pos hlow]
    omega
  · rw [if_neg hlow]
    by_cases hhigh : pages > 40
    · rw [if_pos hhigh]
      omega
    · rw [if_neg hhigh]
      omega

/-- **Both clients ask for the same continuation pages**, whatever integer page 0 counts. -/
theorem continuationDs_eq (base : JsString) (pages : Int) :
    continuationDs base pages = Nostrautica.Roster.rosterContinuationDs base pages := by
  rw [continuationDs, Nostrautica.Roster.rosterContinuationDs, Nostrautica.Roster.rosterPageDs, coercePages_eq, ← List.map_tail,
    List.range_eq_range', List.tail_range']
  refine List.map_congr_left fun page hpage => pageD_eq base ?_
  have hpos : 1 ≤ maxRosterPages := by decide
  have := (List.mem_range'_1.1 hpage).2
  omega

/-- **Android and the web paginate alike**: a roster of the schema splits into the same pages, or not at all,
pages merge into the same roster, and a base and a count name the same addresses. -/
theorem paginate_alike (hj : Compact encodeToString) :
    (∀ r, rosterShaped r = true → Held r → SplitAlike encodeToString r) ∧
    (∀ pages : List RosterContent, (∀ page ∈ pages.head?, page.nostrGroupId ≠ some []) → merge pages = mergeRosterPages pages) ∧
    ∀ (base : JsString) (pages : Int), continuationDs base pages = Nostrautica.Roster.rosterContinuationDs base pages :=
  ⟨fun _ hr h => split_alike hj hr h, merge_alike, continuationDs_eq⟩

/-! ## One encoder -/

namespace Small

mutual

/-- What `Json` writes. -/
def encode : Json → JsString
  | .null => js "null"
  | .bool b => js (if b then "true" else "false")
  | .num n => longToString n
  | .str s => js "\"" ++ s.flatMap escaped ++ js "\""
  | .arr elems => arrayText (encodeElems elems)
  | .obj fields => js "\x7b" ++ joinComma (encodeFields fields) ++ js "\x7d"

def encodeElems : List Json → List JsString
  | [] => []
  | v :: elems => encode v :: encodeElems elems

def encodeFields : List (JsString × Json) → List JsString
  | [] => []
  | (k, v) :: fields => (js "\"" ++ k.flatMap escaped ++ js "\"" ++ js ":" ++ encode v) :: encodeFields fields

end

theorem encodeElems_eq : ∀ elems, encodeElems elems = elems.map encode
  | [] => by rw [encodeElems, List.map_nil]
  | v :: elems => by rw [encodeElems, List.map_cons, encodeElems_eq elems]

theorem encodeFields_eq : ∀ fields, encodeFields fields = fields.map fun p => encode (.str p.1) ++ js ":" ++ encode p.2
  | [] => by rw [encodeFields, List.map_nil]
  | (k, v) :: fields => by rw [encodeFields, List.map_cons, encodeFields_eq fields, encode]

theorem compact : Compact encode where
  bool b := by rw [encode]
  num n := by rw [encode]
  str s := by rw [encode]
  arr elems := by rw [encode, encodeElems_eq]
  obj fields := by rw [encode, encodeFields_eq]

/-- Two members, one of them with a device. -/
def roster : RosterContent where
  v := 2
  eckCurrent := 1
  attendees := [
    { pubkey := List.replicate 64 (codeUnit 97), d := js "a", role := .organizer
      chatKeys := some [{ pubkey := List.replicate 64 (codeUnit 98), label := some (js "phone\n"), addedAt := 1700000000 }] },
    { pubkey := List.replicate 64 (codeUnit 99), d := js "b", role := .attendee }]

theorem held : Held roster where
  text s hs := by
    have hascii : ∀ s ∈ stringsOf roster, isAscii s = true := by decide
    exact wellFormed_ascii (hascii s hs)
  int := by decide
  long := by decide

end Small

/-- The rosters that `paginate_alike` is about are there to split, and their pages to merge. -/
theorem paginate_alike_roster : SplitAlike Small.encode Small.roster ∧ merge [Small.roster] = mergeRosterPages [Small.roster] ∧
    continuationDs (js "a") 3 = [js "a:1", js "a:2"] := by
  obtain ⟨hsplit, hmerge, hds⟩ := paginate_alike Small.compact
  refine ⟨hsplit _ (by decide +kernel) Small.held, hmerge _ fun page hpage => ?_, (hds _ _).trans (by decide +kernel)⟩
  cases hpage
  decide

end Nostrautica.Android.Roster
