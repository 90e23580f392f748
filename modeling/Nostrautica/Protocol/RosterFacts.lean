/-
Roster pages round-trip.

The loop of `packPages` keeps `Packing.Inv`: every closed page, its envelope
and its entries with their commas, is within the packing target. A page as it
is sent takes no more than that (`payloadBytes_buildPage_le`), and a payload
within the NIP-44 ceiling has room for few enough members for the schema
(`length_attendees_le`), so the last check of `splitRoster` never fires.
-/
import Nostrautica.Js.JsonFacts
import Nostrautica.Protocol.Roster

namespace Nostrautica.Roster

open Js

/-! ## Sizes -/

/-- The fields before `attendees`. -/
def RosterContent.head (r : RosterContent) : List (JsString × Json) :=
  [field "v" (.num r.v), field "eck_current" (.num r.eckCurrent)] ++
    (r.nostrGroupId.map fun g => field "nostr_group_id" (.str g)).toList ++
    (r.pages.map fun n : Nat => field "pages" (.num n)).toList

/-- The bytes of a payload but for its entries and their commas. -/
def headBytes (r : RosterContent) : Nat :=
  4 + ((r.head.map fieldBytes).map (· + 1)).sum + quoteBytes (js "attendees") + 1

theorem payloadBytes_eq (r : RosterContent) :
    payloadBytes r = headBytes r + ((r.attendees.map entryBytes).sum - 1) := by
  have h : payloadBytes r = 2 + commaSum ((r.head ++
      [field "attendees" (.arr (r.attendees.map RosterAttendee.toJson))]).map fieldBytes) := bytes_obj _
  have hattendees : ((r.attendees.map RosterAttendee.toJson).map Json.bytes).map (· + 1) = r.attendees.map entryBytes := by
    simp only [List.map_map]
    rfl
  rw [h, List.map_append, List.map_singleton, commaSum_append_singleton, fieldBytes, field, bytes_arr, commaSum,
    hattendees, headBytes]
  simp only
  omega

section Bounds

theorem fieldBytes_str (k : String) (s : JsString) :
    quoteBytes (js k) + s.length + 3 ≤ fieldBytes (field k (.str s)) ∧
      fieldBytes (field k (.str s)) ≤ quoteBytes (js k) + 6 * s.length + 3 := by
  have := quoteBytes_bounds s
  simp only [fieldBytes, field, bytes_str]
  omega

theorem fieldBytes_num_le (k : String) {n : Int} (h : isNumberInt n = true) :
    fieldBytes (field k (.num n)) ≤ quoteBytes (js k) + 322 := by
  have := bytes_num_le (of_decide_eq_true h)
  simp only [fieldBytes, field]
  omega

theorem length_of_isHex32 {s : JsString} (h : isHex32 s = true) : s.length = 64 := by
  simp only [isHex32, isLowerHex, Bool.and_eq_true, beq_iff_eq] at h
  exact h.1

theorem sum_succ_le {l : List Nat} {b : Nat} (h : ∀ n ∈ l, n ≤ b) : (l.map (· + 1)).sum ≤ l.length * (b + 1) := by
  induction l with
  | nil => simp
  | cons n l ih =>
    have := h n List.mem_cons_self
    have := ih fun m hm => h m (List.mem_cons_of_mem n hm)
    simp only [List.map_cons, List.sum_cons, List.length_cons]
    rw [Nat.add_mul]
    omega

theorem pages_bytes : ∀ n < maxRosterPages + 1, fieldBytes (field "pages" (.num n)) ≤ 10 := by decide +kernel

theorem pages_bytes_mono : ∀ n < maxRosterPages + 1,
    fieldBytes (field "pages" (.num n)) ≤ fieldBytes (field "pages" (.num maxRosterPages)) := by decide +kernel

theorem chatKey_bytes_le {k : RosterChatKey} (h : rosterChatKeySchema k = true) : k.toJson.bytes ≤ 1200 := by
  simp only [rosterChatKeySchema, Bool.and_eq_true] at h
  obtain ⟨⟨hpk, hlabel⟩, hadded⟩ := h
  have h1 := (fieldBytes_str "pubkey" k.pubkey).2
  have h2 := fieldBytes_num_le "added_at" hadded
  have h3 : fieldBytes (field "external" (.bool true)) = 15 := by decide
  have k1 : quoteBytes (js "pubkey") = 8 := by decide
  have k2 : quoteBytes (js "added_at") = 10 := by decide
  have k3 : quoteBytes (js "label") = 7 := by decide
  rw [length_of_isHex32 hpk] at h1
  rw [RosterChatKey.toJson, bytes_obj, commaSum]
  have hopt : (((k.label.map fun l => field "label" (.str l)).toList.map fieldBytes).map (· + 1)).sum ≤ 371 := by
    cases hl : k.label with
    | none => simp
    | some l =>
      have := (fieldBytes_str "label" l).2
      simp only [hl, Option.all_some, decide_eq_true_eq] at hlabel
      simp only [maxChatKeyLabel] at hlabel
      simp only [Option.map_some, Option.toList_some, List.map_cons, List.map_nil, List.sum_singleton]
      omega
  simp only [List.map_append, List.sum_append, List.map_cons, List.map_nil, List.sum_singleton]
  split <;> simp only [List.map_cons, List.map_nil, List.sum_singleton, List.sum_nil] <;> omega

/-- What one entry takes, with a comma. -/
theorem entryBytes_bounds {a : RosterAttendee} (h : rosterAttendeeSchema a = true) :
    100 ≤ entryBytes a ∧ entryBytes a ≤ 14000 := by
  simp only [rosterAttendeeSchema, Bool.and_eq_true, decide_eq_true_eq] at h
  obtain ⟨⟨hpk, hd⟩, hkeys⟩ := h
  simp only [maxD] at hd
  have h1 := fieldBytes_str "pubkey" a.pubkey
  have h2 := fieldBytes_str "d" a.d
  have h3 : 16 ≤ fieldBytes (field "role" a.role.toJson) ∧ fieldBytes (field "role" a.role.toJson) ≤ 18 := by
    cases a.role <;> decide
  have k1 : quoteBytes (js "pubkey") = 8 := by decide
  have k2 : quoteBytes (js "d") = 3 := by decide
  have k3 : quoteBytes (js "chat_keys") = 11 := by decide
  rw [length_of_isHex32 hpk] at h1
  have hopt : (((a.chatKeys.map fun ks => field "chat_keys" (.arr (ks.map RosterChatKey.toJson))).toList.map
      fieldBytes).map (· + 1)).sum ≤ 12100 := by
    cases hc : a.chatKeys with
    | none => simp
    | some ks =>
      simp only [hc, Option.all_some, Bool.and_eq_true, decide_eq_true_eq, List.all_eq_true] at hkeys
      simp only [maxChatKeysPerAccount] at hkeys
      have hle : ∀ n ∈ (ks.map RosterChatKey.toJson).map Json.bytes, n ≤ 1200 := by
        simp only [List.map_map, List.mem_map]
        rintro n ⟨k, hk, rfl⟩
        exact chatKey_bytes_le (hkeys.2 k hk)
      have hsum := sum_succ_le hle
      simp only [List.length_map] at hsum
      have : ks.length * (1200 + 1) ≤ 10 * 1201 := Nat.mul_le_mul_right _ hkeys.1
      simp only [Option.map_some, Option.toList_some, List.map_cons, List.map_nil, List.sum_singleton, fieldBytes,
        field, bytes_arr, commaSum]
      omega
  have he : entryBytes a = a.toJson.bytes + 1 := rfl
  rw [he, RosterAttendee.toJson, bytes_obj, commaSum]
  simp only [List.map_append, List.sum_append, List.map_cons, List.map_nil, List.sum_cons, List.sum_nil]
  omega

/-- What a payload takes besides its entries. -/
theorem headBytes_le {r : RosterContent} (h : rosterShaped r = true) : headBytes r ≤ 1000 := by
  simp only [rosterShaped, Bool.and_eq_true, Bool.or_eq_true, beq_iff_eq] at h
  obtain ⟨⟨⟨⟨⟨hv, -, heck⟩, hgroup⟩, hpages⟩, -⟩, -⟩ := h
  have h1 : fieldBytes (field "v" (.num r.v)) ≤ 5 := by
    rcases hv with hv | hv <;> rw [hv] <;> decide +kernel
  have h2 := fieldBytes_num_le "eck_current" heck
  have k1 : quoteBytes (js "eck_current") = 13 := by decide
  have k2 : quoteBytes (js "nostr_group_id") = 16 := by decide
  have k3 : quoteBytes (js "attendees") = 11 := by decide
  have k4 : quoteBytes (js "pages") = 7 := by decide
  have hg : (((r.nostrGroupId.map fun g => field "nostr_group_id" (.str g)).toList.map fieldBytes).map (· + 1)).sum ≤
      404 := by
    cases hg : r.nostrGroupId with
    | none => simp
    | some g =>
      have := (fieldBytes_str "nostr_group_id" g).2
      rw [length_of_isHex32 (s := g) (by simpa [hg] using hgroup)] at this
      simp only [Option.map_some, Option.toList_some, List.map_cons, List.map_nil, List.sum_singleton]
      omega
  have hp : (((r.pages.map fun n : Nat => field "pages" (.num n)).toList.map fieldBytes).map (· + 1)).sum ≤ 11 := by
    cases hp : r.pages with
    | none => simp
    | some n =>
      have hn : n < maxRosterPages + 1 := by
        have : 2 ≤ n ∧ n ≤ maxRosterPages := by simpa [hp] using hpages
        omega
      have := pages_bytes n hn
      simp only [Option.map_some, Option.toList_some, List.map_cons, List.map_nil, List.sum_singleton]
      omega
  rw [headBytes, RosterContent.head]
  simp only [List.map_append, List.sum_append, List.map_cons, List.map_nil, List.sum_cons, List.sum_nil]
  omega

end Bounds

/-- A payload within the ceiling holds no more members than a page may. -/
theorem length_attendees_le {r : RosterContent} (h : rosterShaped r = true)
    (hb : payloadBytes r ≤ nip44MaxPlaintextBytes) : r.attendees.length ≤ maxRosterPage := by
  simp only [rosterShaped, Bool.and_eq_true, List.all_eq_true] at h
  have key : ∀ l : List RosterAttendee, (∀ a ∈ l, rosterAttendeeSchema a = true) →
      l.length * 100 ≤ (l.map entryBytes).sum := by
    intro l
    induction l with
    | nil => intro _; simp
    | cons a l ih =>
      intro hl
      have := (entryBytes_bounds (hl a List.mem_cons_self)).1
      have := ih fun b hb => hl b (List.mem_cons_of_mem a hb)
      simp only [List.length_cons, List.map_cons, List.sum_cons]
      omega
  have := key r.attendees h.1.2
  rw [payloadBytes_eq] at hb
  simp only [nip44MaxPlaintextBytes] at hb
  simp only [maxRosterPage]
  omega

/-! ## Envelopes -/

theorem headBytes_congr {r r' : RosterContent} (h : r.head = r'.head) : headBytes r = headBytes r' := by
  simp only [headBytes, h]

/-- The widest `pages` value is the widest. -/
theorem headBytes_buildPage_le (roster : RosterContent) (i : Nat) {n : Nat} (hn : n ≤ maxRosterPages)
    (as : List RosterAttendee) : headBytes (buildPage roster i n as) ≤ envelopeBytes roster i := by
  have hle : headBytes (buildPage roster i n as) ≤ headBytes (buildPage roster i maxRosterPages []) := by
    have := pages_bytes_mono n (Nat.lt_succ_of_le hn)
    by_cases hi : i > 0
    · simp only [buildPage, if_pos hi]
      exact le_of_eq (headBytes_congr rfl)
    · simp only [buildPage, if_neg hi, headBytes, RosterContent.head, Option.map_some, Option.toList_some,
        List.map_append, List.sum_append, List.map_cons, List.map_nil, List.sum_cons, List.sum_nil]
      omega
  rw [envelopeBytes, payloadBytes_eq]
  omega

/-- A page is no larger than its envelope and its entries. -/
theorem payloadBytes_buildPage_le (roster : RosterContent) (i : Nat) {n : Nat} (hn : n ≤ maxRosterPages)
    (as : List RosterAttendee) :
    payloadBytes (buildPage roster i n as) ≤ envelopeBytes roster i + (as.map entryBytes).sum := by
  have h := headBytes_buildPage_le roster i hn as
  have has : (buildPage roster i n as).attendees = as := by simp only [buildPage]; split <;> rfl
  rw [payloadBytes_eq, has]
  omega

/-- A roster that does not paginate has no wider envelope than its page 0 would. -/
theorem headBytes_le_envelopeBytes {r : RosterContent} (hv : r.v = protocolVersion ∨ r.v = rosterPagedVersion) (hpages : r.pages = none)
    (hgroup : truthyGroupId r = r.nostrGroupId) : headBytes r ≤ envelopeBytes r 0 := by
  have h : fieldBytes (field "v" (.num r.v)) ≤ fieldBytes (field "v" (.num rosterPagedVersion)) := by
    rcases hv with hv | hv
    · rw [hv]; decide +kernel
    · rw [hv]
  rw [envelopeBytes, payloadBytes_eq]
  simp only [headBytes, RosterContent.head, buildPage, hpages, hgroup, Option.map_none, Option.toList_none,
    List.map_append, List.sum_append, List.map_cons, List.map_nil, List.sum_cons, List.sum_nil, if_neg (lt_irrefl 0)]
  omega

theorem buildPage_attendees (roster : RosterContent) (i n : Nat) (as : List RosterAttendee) :
    (buildPage roster i n as).attendees = as := by
  simp only [buildPage]; split <;> rfl

theorem truthyGroupId_eq {r : RosterContent} (h : rosterShaped r = true) : truthyGroupId r = r.nostrGroupId := by
  simp only [rosterShaped, Bool.and_eq_true] at h
  obtain ⟨⟨⟨⟨-, hgroup⟩, -⟩, -⟩, -⟩ := h
  cases hg : r.nostrGroupId with
  | none => simp [truthyGroupId, hg]
  | some g =>
    have hlen := length_of_isHex32 (s := g) (by simpa [hg] using hgroup)
    have hne : g ≠ [] := fun he => by simp [he] at hlen
    simp [truthyGroupId, hg, hne]

/-- A page of a schema-shaped roster is schema-shaped, at a count a roster may have. -/
theorem rosterShaped_buildPage {r : RosterContent} (h : rosterShaped r = true) (i : Nat) {n : Nat} (h2 : 2 ≤ n)
    (hn : n ≤ maxRosterPages) {l : List RosterAttendee} (hl : ∀ a ∈ l, a ∈ r.attendees) :
    rosterShaped (buildPage r i n l) = true := by
  have hgroup := truthyGroupId_eq h
  simp only [rosterShaped, Bool.and_eq_true, Bool.or_eq_true, List.all_eq_true] at h
  obtain ⟨⟨⟨⟨⟨-, heck⟩, hg⟩, -⟩, hall⟩, -⟩ := h
  have hall' : l.all rosterAttendeeSchema = true := List.all_eq_true.2 fun a ha => hall a (hl a ha)
  simp only [buildPage]
  split
  · simp [rosterShaped, heck, hall']
  · simp [rosterShaped, heck, hall', hgroup, hg, h2, hn]

/-! ## Packing -/

/-- What the loop of `packPages` keeps, after the members `done`. -/
structure Packing.Inv (roster : RosterContent) (done : List RosterAttendee) (p : Packing) : Prop where
  flat : p.groups.flatten ++ p.current = done
  overhead : p.overhead = envelopeBytes roster p.groups.length + (p.current.map entryBytes).sum
  fits : p.overhead ≤ rosterPageTargetBytes
  closed : ∀ i g, p.groups[i]? = some g →
    envelopeBytes roster i + (g.map entryBytes).sum ≤ rosterPageTargetBytes

theorem envelopeBytes_le {r : RosterContent} (h : rosterShaped r = true) (i : Nat) : envelopeBytes r i ≤ 1000 := by
  have h := headBytes_le (rosterShaped_buildPage (l := []) h i (n := maxRosterPages) (by decide) le_rfl nofun)
  rw [envelopeBytes, payloadBytes_eq, buildPage_attendees]
  simpa using h

theorem Packing.Inv.start {r : RosterContent} (h : rosterShaped r = true) : (Packing.start r).Inv r [] where
  flat := rfl
  overhead := by simp [Packing.start]
  fits := (envelopeBytes_le h 0).trans (by decide)
  closed := nofun

/-- The page being filled is within the target too. -/
theorem Packing.Inv.within {r : RosterContent} {done : List RosterAttendee} {p : Packing} (h : p.Inv r done) {i : Nat}
    {g : List RosterAttendee} (hg : (p.groups ++ [p.current])[i]? = some g) :
    envelopeBytes r i + (g.map entryBytes).sum ≤ rosterPageTargetBytes := by
  rw [List.getElem?_append] at hg
  split at hg
  · exact h.closed i g hg
  · next hi =>
    obtain ⟨h0, rfl⟩ : i - p.groups.length = 0 ∧ p.current = g := by
      cases hk : i - p.groups.length <;> simp_all
    have hi : i = p.groups.length := by omega
    rw [hi, ← h.overhead]
    exact h.fits

/-- Closing keeps the invariant, and leaves room for the entry. -/
theorem Packing.Inv.closeFor {r : RosterContent} (hr : rosterShaped r = true) {done : List RosterAttendee}
    {p : Packing} (h : p.Inv r done) {entry : Nat} (he : entry ≤ 14000) :
    (p.closeFor r entry).Inv r done ∧ (p.closeFor r entry).overhead + entry ≤ rosterPageTargetBytes := by
  have henv := envelopeBytes_le hr
  simp only [Packing.closeFor]
  split
  · have hnew : envelopeBytes r (p.groups.length + 1) + 14000 ≤ rosterPageTargetBytes :=
      (Nat.add_le_add_right (henv _) 14000).trans (by decide)
    refine ⟨⟨?_, ?_, ?_, ?_⟩, ?_⟩
    · simp [h.flat]
    · simp
    · simp only; omega
    · exact fun i g => h.within
    · simp only; omega
  · next hc =>
    refine ⟨h, ?_⟩
    by_cases hcur : p.current = []
    · rw [h.overhead, hcur]
      have := henv p.groups.length
      simp only [rosterPageTargetBytes, List.map_nil, List.sum_nil]
      omega
    · simp only [hcur, ne_eq, not_false_eq_true, true_and] at hc
      omega

theorem Packing.Inv.push {r : RosterContent} {done : List RosterAttendee} {p : Packing} (h : p.Inv r done)
    {a : RosterAttendee} (ha : p.overhead + entryBytes a ≤ rosterPageTargetBytes) : (p.push a).Inv r (done ++ [a]) where
  flat := by simp [Packing.push, ← h.flat]
  overhead := by simp [Packing.push, h.overhead, Nat.add_assoc]
  fits := ha
  closed := h.closed

theorem Packing.Inv.foldl {r : RosterContent} (hr : rosterShaped r = true) :
    ∀ {as done : List RosterAttendee} {p : Packing}, (∀ a ∈ as, rosterAttendeeSchema a = true) → p.Inv r done →
      (as.foldl (Packing.add r) p).Inv r (done ++ as)
  | [], done, p, _, h => by simpa using h
  | a :: as, done, p, has, h => by
    obtain ⟨hc, hroom⟩ := h.closeFor hr (entryBytes_bounds (has a List.mem_cons_self)).2
    have := Packing.Inv.foldl hr (fun b hb => has b (List.mem_cons_of_mem a hb)) (hc.push hroom)
    simpa [Packing.add] using this

/-- **The pages hold the members in order, each within the packing target.** -/
theorem packPages_spec {r : RosterContent} (hr : rosterShaped r = true) :
    (packPages r).flatten = r.attendees ∧
    ∀ i g, (packPages r)[i]? = some g → envelopeBytes r i + (g.map entryBytes).sum ≤ rosterPageTargetBytes := by
  have hr' := hr
  simp only [rosterShaped, Bool.and_eq_true, List.all_eq_true] at hr'
  have h := Packing.Inv.foldl hr hr'.1.2 (Packing.Inv.start hr)
  refine ⟨?_, fun i g => h.within⟩
  simpa [packPages] using h.flat

/-- A roster of the first version names no number of pages. -/
theorem pages_eq_none {r : RosterContent} (hr : rosterShaped r = true) (hv : r.v = protocolVersion) : r.pages = none := by
  simp only [rosterShaped, Bool.and_eq_true, Bool.or_eq_true, beq_iff_eq, Option.isNone_iff_eq_none] at hr
  rcases hr.2 with h | h
  · exact h
  · rw [hv] at h; cases h

/-- A roster that one payload does not carry packs into two pages at least. -/
theorem two_le_packPages {r : RosterContent} (hr : rosterShaped r = true) (hnone : r.pages = none)
    (hfit : ¬rosterFitsOnePage r = true) : 2 ≤ (packPages r).length := by
  obtain ⟨hflat, hwithin⟩ := packPages_spec hr
  by_contra hlt
  obtain ⟨g, hg⟩ : ∃ g, packPages r = [g] := by
    cases hp : packPages r with
    | nil => simp [packPages] at hp
    | cons g gs =>
      rw [hp, List.length_cons] at hlt
      exact ⟨g, by rw [List.length_eq_zero_iff.1 (by omega : gs.length = 0)]⟩
  rw [hg] at hflat
  have h0 := hwithin 0 g (by simp [hg])
  have hv : r.v = protocolVersion ∨ r.v = rosterPagedVersion := by
    simp only [rosterShaped, Bool.and_eq_true, Bool.or_eq_true, beq_iff_eq] at hr
    exact hr.1.1.1.1.1
  have hhead := headBytes_le_envelopeBytes hv hnone (truthyGroupId_eq hr)
  have hbytes := payloadBytes_eq r
  rw [← hflat, List.flatten_cons, List.flatten_nil, List.append_nil] at hbytes
  have hover : ¬ payloadBytes r ≤ nip44MaxPlaintextBytes := by simpa [rosterFitsOnePage] using hfit
  simp only [nip44MaxPlaintextBytes] at hover
  simp only [rosterPageTargetBytes] at h0
  omega

/-! ## Merging -/

theorem keepAttendee_foldl : ∀ {as kept : List RosterAttendee}, ((kept ++ as).map (·.pubkey)).Nodup →
    (kept ++ as).length ≤ maxRoster → as.foldl keepAttendee kept = kept ++ as
  | [], kept, _, _ => by simp
  | a :: as, kept, hnd, hlen => by
    have hroom : ¬ kept.length ≥ maxRoster := by
      simp only [List.length_append, List.length_cons] at hlen
      omega
    have hnew : ¬ (kept.map (·.pubkey)).contains a.pubkey = true := by
      rw [List.contains_iff_mem]
      rw [List.map_append, List.nodup_append] at hnd
      exact fun hm => hnd.2.2 _ hm _ List.mem_cons_self rfl
    have happ : kept ++ a :: as = (kept ++ [a]) ++ as := by simp
    rw [happ] at hnd hlen
    rw [List.foldl_cons, keepAttendee, if_neg hroom, if_neg hnew, happ]
    exact keepAttendee_foldl hnd hlen

theorem foldl_pages (pages : List RosterContent) (kept : List RosterAttendee) :
    pages.foldl (fun kept page => page.attendees.foldl keepAttendee kept) kept =
      (pages.map (·.attendees)).flatten.foldl keepAttendee kept := by
  induction pages generalizing kept with
  | nil => rfl
  | cons p pages ih => rw [List.foldl_cons, ih, List.map_cons, List.flatten_cons, List.foldl_append]

/-- Pages of distinct members, as many as a roster may have, merge to the members in order. -/
theorem mergeRosterPages_eq {page0 : RosterContent} {rest : List RosterContent} {l : List RosterAttendee}
    (hflat : ((page0 :: rest).map (·.attendees)).flatten = l) (hnd : (l.map (·.pubkey)).Nodup)
    (hlen : l.length ≤ maxRoster) :
    mergeRosterPages (page0 :: rest) = .ok
      { v := protocolVersion, eckCurrent := page0.eckCurrent, nostrGroupId := truthyGroupId page0, attendees := l } := by
  rw [mergeRosterPages, foldl_pages, hflat, keepAttendee_foldl (by simpa using hnd) (by simpa using hlen),
    List.nil_append]

/-- **Roster pages round-trip**: a schema-shaped roster within the member and
page caps splits without an error into pages each within the NIP-44 ceiling and
accepted by the schema, as many as `rosterPageCount` says and as page 0 says,
and the pages merge to the roster. -/
theorem mergeRosterPages_splitRoster {r : RosterContent} (hr : rosterShaped r = true) (hv : r.v = protocolVersion)
    (hlen : r.attendees.length ≤ maxRoster) (hnd : (r.attendees.map (·.pubkey)).Nodup)
    (hpages : (packPages r).length ≤ maxRosterPages) :
    ∃ pages, splitRoster r = .ok pages ∧
      (∀ page ∈ pages, payloadBytes page ≤ nip44MaxPlaintextBytes ∧ page.attendees.length ≤ maxRosterPage ∧
        rosterContentSchema page = true) ∧
      pages.length = rosterPageCount r ∧
      (1 < pages.length → ∃ page0, pages.head? = some page0 ∧ page0.pages = some pages.length) ∧
      mergeRosterPages pages = .ok r := by
  have hnone : r.pages = none := pages_eq_none hr hv
  have hself : RosterContent.mk protocolVersion r.eckCurrent r.nostrGroupId none r.attendees = r := by
    rw [← hv, ← hnone]
  by_cases hfit : rosterFitsOnePage r = true
  · have hb : payloadBytes r ≤ nip44MaxPlaintextBytes := by simpa [rosterFitsOnePage] using hfit
    have hl := length_attendees_le hr hb
    refine ⟨[r], by rw [splitRoster, if_pos hfit], ?_, by rw [rosterPageCount, if_pos hfit]; rfl, ?_, ?_⟩
    · intro page hp
      rw [List.mem_singleton.1 hp]
      exact ⟨hb, hl, by simp [rosterContentSchema, hr, hl]⟩
    · intro h; simp at h
    · rw [mergeRosterPages_eq (l := r.attendees) (by simp) hnd hlen, truthyGroupId_eq hr, hself]
  obtain ⟨hflat, hwithin⟩ := packPages_spec hr
  have h2 : 2 ≤ (packPages r).length := two_le_packPages hr hnone hfit
  generalize hn : (packPages r).length = n at hpages h2
  have hmem : ∀ page ∈ (packPages r).mapIdx (fun i as => buildPage r i n as),
      payloadBytes page ≤ nip44MaxPlaintextBytes ∧ rosterShaped page = true := by
    intro page hp
    obtain ⟨i, hi, rfl⟩ := List.mem_mapIdx.1 hp
    have hb := payloadBytes_buildPage_le r i hpages (packPages r)[i]
    have hw := hwithin i _ (List.getElem?_eq_getElem hi)
    refine ⟨(hb.trans hw).trans (by decide), rosterShaped_buildPage hr i h2 hpages fun a ha => ?_⟩
    rw [← hflat]
    exact List.mem_flatten_of_mem (List.getElem_mem hi) ha
  obtain ⟨g, gs, hg⟩ : ∃ g gs, packPages r = g :: gs := by
    cases hp : packPages r with
    | nil => simp [packPages] at hp
    | cons g gs => exact ⟨g, gs, rfl⟩
  refine ⟨(packPages r).mapIdx fun i as => buildPage r i n as, ?_, ?_, ?_, ?_, ?_⟩
  · -- no page is over the ceiling, so the last check passes
    have hfind : ((packPages r).mapIdx fun i as => buildPage r i n as).zipIdx.find?
        (fun p => payloadBytes p.1 > nip44MaxPlaintextBytes) = none := by
      rw [List.find?_eq_none]
      intro p hp
      simpa using (hmem p.1 (List.fst_mem_of_mem_zipIdx hp)).1
    rw [splitRoster, if_neg hfit, if_neg (not_lt.2 hlen)]
    simp only [hn]
    rw [if_neg (not_lt.2 hpages), hfind]
  · intro page hp
    obtain ⟨hb, hs⟩ := hmem page hp
    have hl := length_attendees_le hs hb
    exact ⟨hb, hl, by simp [rosterContentSchema, hs, hl]⟩
  · rw [List.length_mapIdx, rosterPageCount, if_neg hfit]
  · intro _
    refine ⟨buildPage r 0 n g, by rw [hg, List.mapIdx_cons, List.head?_cons], ?_⟩
    rw [List.length_mapIdx, hn]
    rfl
  · have hatt : ((packPages r).mapIdx fun i as => buildPage r i n as).map (·.attendees) = packPages r := by
      refine List.ext_getElem? fun i => ?_
      rw [List.getElem?_map, List.getElem?_mapIdx, Option.map_map]
      simp only [Function.comp_def, buildPage_attendees, Option.map_id']
    have hgroup : truthyGroupId (buildPage r 0 n g) = r.nostrGroupId := by
      rw [truthyGroupId_eq (rosterShaped_buildPage hr 0 h2 hpages fun a ha => ?_)]
      · exact truthyGroupId_eq hr
      · rw [← hflat, hg]
        exact List.mem_flatten_of_mem List.mem_cons_self ha
    rw [hg, List.mapIdx_cons] at hatt ⊢
    rw [mergeRosterPages_eq (l := r.attendees) (by rw [hatt, ← hg, hflat]) hnd hlen, hgroup]
    exact congrArg Except.ok hself

/-- A roster of an organizer and a member with an attested device. -/
def smallRoster : RosterContent where
  v := 2
  eckCurrent := 1
  nostrGroupId := some (List.replicate 64 (codeUnit 97))
  attendees :=
    [{ pubkey := List.replicate 64 (codeUnit 98), d := js "entry-1", role := .organizer },
      { pubkey := List.replicate 64 (codeUnit 99)
        d := js "entry-2"
        role := .attendee
        chatKeys := some [{ pubkey := List.replicate 64 (codeUnit 100), label := some (js "phone"), addedAt := 1700000000 }] }]

theorem mergeRosterPages_splitRoster_smallRoster : ∃ pages, splitRoster smallRoster = .ok pages ∧
    mergeRosterPages pages = .ok smallRoster := by
  obtain ⟨pages, hs, -, -, -, hm⟩ := mergeRosterPages_splitRoster (r := smallRoster) (by decide +kernel) rfl
    (by decide) (by decide) (by decide +kernel)
  exact ⟨pages, hs, hm⟩

end Nostrautica.Roster
