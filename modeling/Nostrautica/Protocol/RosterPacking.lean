/-
How many pages a roster takes. The loop of `packPages` is next fit
(`length_packPages`), so one more member takes at most one more page, wherever it
stands in the list; but the same members in another order may take another number.
Appending members rewrites only the tail of the pages (`splitRoster_append`).
-/
import Nostrautica.Protocol.RosterFacts
import Nostrautica.Order.NextFit

namespace Nostrautica.Roster

open Js NextFit

/-- The sizes of the entries, with a comma each. -/
def RosterContent.sizes (r : RosterContent) : List Nat := r.attendees.map entryBytes

theorem envelopeBytes_succ (r : RosterContent) (i : Nat) : envelopeBytes r (i + 1) = envelopeBytes r 1 := rfl

/-- Page 0 has the widest envelope. -/
theorem envelopeBytes_one_le (r : RosterContent) : envelopeBytes r 1 ≤ envelopeBytes r 0 := by
  rw [envelopeBytes, envelopeBytes, payloadBytes_eq, payloadBytes_eq, buildPage_attendees, buildPage_attendees]
  simp only [headBytes, RosterContent.head, buildPage, if_pos Nat.one_pos, if_neg (lt_irrefl 0), Option.map_none,
    Option.toList_none, List.map_append, List.sum_append, List.map_cons, List.map_nil, List.sum_cons, List.sum_nil]
  omega

/-- The loop closes pages as next fit does. -/
theorem Packing.foldl_length {r : RosterContent} (hr : rosterShaped r = true) :
    ∀ {as : List RosterAttendee} {p : Packing}, (∀ a ∈ as, rosterAttendeeSchema a = true) →
      (p.current = [] → p.overhead ≤ 1000) →
      (as.foldl (Packing.add r) p).groups.length =
        p.groups.length + closes rosterPageTargetBytes (envelopeBytes r 1) p.overhead (as.map entryBytes)
  | [], _, _, _ => rfl
  | a :: as, p, has, hp => by
    have he := (entryBytes_bounds (has a List.mem_cons_self)).2
    have ih := fun {q : Packing} (hq : q.current ≠ []) => Packing.foldl_length hr (p := q)
      (fun b hb => has b (List.mem_cons_of_mem a hb)) (fun h => absurd h hq)
    simp only [List.foldl_cons, List.map_cons, closes]
    by_cases hfull : rosterPageTargetBytes < p.overhead + entryBytes a
    · have hne : p.current ≠ [] := by
        intro hcur
        have := hp hcur
        simp only [rosterPageTargetBytes] at hfull
        omega
      rw [if_pos hfull, ih (by simp [Packing.add, Packing.push]), Packing.add, Packing.closeFor, if_pos ⟨hne, hfull⟩]
      simp only [Packing.push, envelopeBytes_succ, List.length_append, List.length_singleton]
      omega
    · rw [if_neg hfull, ih (by simp [Packing.add, Packing.push]), Packing.add, Packing.closeFor, if_neg fun h => hfull h.2]
      rfl

theorem length_packPages {r : RosterContent} (hr : rosterShaped r = true) :
    (packPages r).length = closes rosterPageTargetBytes (envelopeBytes r 1) (envelopeBytes r 0) r.sizes + 1 := by
  have hr' := hr
  simp only [rosterShaped, Bool.and_eq_true, List.all_eq_true] at hr'
  have h := Packing.foldl_length hr (p := Packing.start r) hr'.1.2 fun _ => envelopeBytes_le hr 0
  rw [packPages, List.length_append, List.length_singleton, h]
  simp [Packing.start, RosterContent.sizes]

theorem size_le {r : RosterContent} (hr : rosterShaped r = true) {e : Nat} (he : e ∈ r.sizes) : e ≤ 14000 := by
  simp only [rosterShaped, Bool.and_eq_true, List.all_eq_true] at hr
  obtain ⟨a, ha, rfl⟩ := List.mem_map.mp he
  exact (entryBytes_bounds (hr.1.2 a ha)).2

theorem fit_sizes {r : RosterContent} (hr : rosterShaped r = true) :
    Fit rosterPageTargetBytes (envelopeBytes r 1) r.sizes := by
  intro e he
  have h1 := size_le hr he
  have h2 := envelopeBytes_le hr 1
  simp only [rosterPageTargetBytes]
  omega

/-- **Fewer members take no more pages.** -/
theorem length_packPages_sublist {r r' : RosterContent} (hr : rosterShaped r = true) (hr' : rosterShaped r' = true)
    (he : ∀ i, envelopeBytes r i = envelopeBytes r' i) (hs : r.sizes.Sublist r'.sizes) :
    (packPages r).length ≤ (packPages r').length := by
  rw [length_packPages hr, length_packPages hr', he, he]
  have h := envelopeBytes_le hr' 0
  exact Nat.succ_le_succ (closes_sublist hs (fit_sizes hr') (envelopeBytes_one_le r')
    (h.trans (by decide)))

/-- **One more member, wherever it stands, takes at most one more page.** -/
theorem length_packPages_insert {r r' : RosterContent} (hr : rosterShaped r = true) (hr' : rosterShaped r' = true)
    (he : ∀ i, envelopeBytes r i = envelopeBytes r' i) {l m : List Nat} {e : Nat} (hs : r.sizes = l ++ m)
    (hs' : r'.sizes = l ++ e :: m) : (packPages r').length ≤ (packPages r).length + 1 := by
  have hfit := fit_sizes hr'
  have hsize := size_le hr' (hs' ▸ List.mem_append_right _ List.mem_cons_self : e ∈ r'.sizes)
  have h0 := envelopeBytes_le hr' 0
  have h1 := envelopeBytes_le hr' 1
  rw [length_packPages hr, length_packPages hr', he, he, hs]
  rw [hs'] at hfit ⊢
  exact Nat.succ_le_succ (closes_insert_le hfit (by simp only [rosterPageTargetBytes]; omega) (envelopeBytes_one_le r')
    (by simp only [rosterPageTargetBytes]; omega))

/-- A roster of entries within `b` bytes each takes few pages. -/
theorem length_packPages_mul_le {r : RosterContent} (hr : rosterShaped r = true) {b : Nat} (hb : ∀ e ∈ r.sizes, e ≤ b)
    (hb' : b ≤ 14000) : ((packPages r).length - 1) * (59000 - b) ≤ 1000 + r.sizes.sum := by
  have h0 := envelopeBytes_le hr 0
  have h1 := envelopeBytes_le hr 1
  have h := closes_mul_le (c := rosterPageTargetBytes) (v := envelopeBytes r 1) (u := envelopeBytes r 0) (g := 59000 - b)
    (l := r.sizes) (fun e he => by have := hb e he; simp only [rosterPageTargetBytes]; omega) (envelopeBytes_one_le r)
    (by simp only [rosterPageTargetBytes]; omega)
  rw [length_packPages hr, Nat.add_sub_cancel]
  omega

/-- A roster that one payload carries would pack into two pages at most. -/
theorem length_packPages_le {r : RosterContent} (hr : rosterShaped r = true) (h : rosterPageCount r ≤ maxRosterPages) :
    (packPages r).length ≤ maxRosterPages := by
  rw [rosterPageCount] at h
  split at h
  next hone =>
    have hbytes : payloadBytes r ≤ nip44MaxPlaintextBytes := of_decide_eq_true hone
    have hmul := length_packPages_mul_le hr (fun e he => size_le hr he) le_rfl
    rw [payloadBytes_eq, ← RosterContent.sizes] at hbytes
    simp only [nip44MaxPlaintextBytes, maxRosterPages] at hbytes ⊢
    omega
  next => exact h

/-- A roster of few enough members and pages splits. -/
theorem splitRoster_ok {r : RosterContent} (hr : rosterShaped r = true) (hn : r.attendees.length ≤ maxRoster)
    (hp : (packPages r).length ≤ maxRosterPages) : ∃ pages, splitRoster r = .ok pages := by
  rw [splitRoster]
  split
  · exact ⟨_, rfl⟩
  · rw [if_neg hn.not_gt, if_neg hp.not_gt]
    have hle : ∀ page ∈ (packPages r).mapIdx fun i as => buildPage r i (packPages r).length as,
        payloadBytes page ≤ nip44MaxPlaintextBytes := by
      intro page hpage
      obtain ⟨i, hi, rfl⟩ := List.mem_mapIdx.1 hpage
      have h := payloadBytes_buildPage_le r i hp (packPages r)[i]
      exact (h.trans ((packPages_spec hr).2 i _ (List.getElem?_eq_getElem hi))).trans (by decide)
    have hfind : ((packPages r).mapIdx fun i as => buildPage r i (packPages r).length as).zipIdx.find?
        (fun p => payloadBytes p.1 > nip44MaxPlaintextBytes) = none := by
      rw [List.find?_eq_none]
      intro p hpage
      simpa using hle p.1 (List.fst_mem_of_mem_zipIdx hpage)
    refine ⟨(packPages r).mapIdx fun i as => buildPage r i (packPages r).length as, ?_⟩
    simp only
    rw [hfind]

/-- What a roster splits into. -/
theorem splitRoster_eq {r : RosterContent} {pages : List RosterContent} (h : splitRoster r = .ok pages) :
    rosterFitsOnePage r = true ∧ pages = [r] ∨
      ¬rosterFitsOnePage r = true ∧ r.attendees.length ≤ maxRoster ∧ (packPages r).length ≤ maxRosterPages ∧
        pages = (packPages r).mapIdx fun i as => buildPage r i (packPages r).length as := by
  rw [splitRoster] at h
  split at h
  next hfit => exact .inl ⟨hfit, (Except.ok.inj h).symm⟩
  next hfit =>
    split at h
    · cases h
    next hlen =>
      simp only at h
      split at h
      · cases h
      next hpages =>
        split at h
        · cases h
        · exact .inr ⟨hfit, not_lt.1 hlen, not_lt.1 hpages, (Except.ok.inj h).symm⟩

/-- The schema accepts every page that a roster splits into. -/
theorem schema_of_splitRoster {r : RosterContent} {pages : List RosterContent} (hr : rosterShaped r = true)
    (hnone : r.pages = none) (h : splitRoster r = .ok pages) : ∀ page ∈ pages, rosterContentSchema page = true := by
  intro page hpage
  rcases splitRoster_eq h with ⟨hfit, rfl⟩ | ⟨hfit, -, hpages, rfl⟩
  · have hl := length_attendees_le hr (of_decide_eq_true hfit)
    rw [List.mem_singleton.1 hpage]
    simp [rosterContentSchema, hr, hl]
  · obtain ⟨hflat, hwithin⟩ := packPages_spec hr
    obtain ⟨i, hi, rfl⟩ := List.mem_mapIdx.1 hpage
    have hb := (payloadBytes_buildPage_le r i hpages (packPages r)[i]).trans (hwithin i _ (List.getElem?_eq_getElem hi))
    have hs := rosterShaped_buildPage hr i (two_le_packPages hr hnone hfit) hpages fun a ha =>
      hflat ▸ List.mem_flatten_of_mem (List.getElem_mem hi) ha
    have hl := length_attendees_le hs (hb.trans (by decide))
    simp [rosterContentSchema, hs, hl]

/-! ## Appending members -/

/-- The roster with more members after its own. -/
def RosterContent.append (r : RosterContent) (more : List RosterAttendee) : RosterContent :=
  { r with attendees := r.attendees ++ more }

variable {r : RosterContent} {p : Packing} {more : List RosterAttendee}

/-- A page that is closed stays as it is. -/
theorem Packing.prefix_add (a : RosterAttendee) : p.groups <+: (Packing.add r p a).groups := by
  simp only [Packing.add, Packing.closeFor, Packing.push]
  split
  · exact List.prefix_append _ _
  · exact List.prefix_refl _

theorem Packing.prefix_foldl (as : List RosterAttendee) : p.groups <+: (as.foldl (Packing.add r) p).groups := by
  induction as generalizing p with
  | nil => exact List.prefix_refl _
  | cons a as ih => exact (Packing.prefix_add a).trans ih

/-- The envelopes, and so the turns of the loop, are the same with more members. -/
theorem Packing.add_append : Packing.add (r.append more) = Packing.add r := rfl

/-- **All pages but the last are packed from the members before**: appending leaves them. -/
theorem packPages_append (r : RosterContent) (more : List RosterAttendee) :
    (packPages r).dropLast <+: (packPages (r.append more)).dropLast := by
  have hlast : ∀ (gs : List (List RosterAttendee)) (g : List RosterAttendee), (gs ++ [g]).dropLast = gs :=
    fun gs g => List.dropLast_concat
  rw [packPages, packPages, hlast, hlast, Packing.add_append]
  have happ : (r.append more).attendees = r.attendees ++ more := rfl
  rw [happ, List.foldl_append]
  exact Packing.prefix_foldl more

/-- A roster that one payload does not carry is not carried with more members either. -/
theorem rosterFitsOnePage_of_append (h : rosterFitsOnePage (r.append more) = true) : rosterFitsOnePage r = true := by
  have hhead : headBytes (r.append more) = headBytes r := headBytes_congr rfl
  have hsum : ((r.append more).attendees.map entryBytes).sum = (r.attendees.map entryBytes).sum + (more.map entryBytes).sum := by
    simp [RosterContent.append]
  simp only [rosterFitsOnePage, decide_eq_true_eq, payloadBytes_eq, hhead, hsum] at h ⊢
  omega

/-- **Appending members rewrites only the tail of a roster**: every page but the first and the last is as it was, and the
first differs in the count of pages at most. -/
theorem splitRoster_append {r : RosterContent} {more : List RosterAttendee} {old new : List RosterContent}
    (hold : splitRoster r = .ok old) (htwo : 2 ≤ old.length) (hnew : splitRoster (r.append more) = .ok new) :
    old.length ≤ new.length ∧ (∀ i, 1 ≤ i → i ≤ old.length - 2 → new[i]? = old[i]?) ∧
      ∃ page0, old[0]? = some page0 ∧ new[0]? = some { page0 with pages := some new.length } := by
  rcases splitRoster_eq hold with ⟨-, rfl⟩ | ⟨hfit, -, -, rfl⟩
  · simp at htwo
  rcases splitRoster_eq hnew with ⟨hfit', -⟩ | ⟨-, -, -, rfl⟩
  · exact absurd (rosterFitsOnePage_of_append hfit') hfit
  simp only [List.length_mapIdx] at htwo ⊢
  have hpre := packPages_append r more
  have hlen := hpre.length_le
  simp only [List.length_dropLast] at hlen
  have hget : ∀ i, i ≤ (packPages r).length - 2 → (packPages (r.append more))[i]? = (packPages r)[i]? := fun i hi => by
    have h := List.prefix_iff_getElem?.1 hpre i (by rw [List.length_dropLast]; omega)
    have hi' : i < (packPages r).length - 1 := by omega
    have hi'' : i < (packPages (r.append more)).length - 1 := by omega
    rw [List.getElem?_eq_getElem (by rw [List.length_dropLast]; exact hi''), List.getElem_dropLast, List.getElem_dropLast] at h
    rw [List.getElem?_eq_getElem (by omega), List.getElem?_eq_getElem (by omega)]
    exact h
  refine ⟨by omega, fun i h1 h2 => ?_, ?_⟩
  · rw [List.getElem?_mapIdx, List.getElem?_mapIdx, hget i h2]
    have hi : i > 0 := h1
    simp only [buildPage, if_pos hi]
    rfl
  · obtain ⟨g, hg⟩ : ∃ g, (packPages r)[0]? = some g := ⟨_, List.getElem?_eq_getElem (by omega)⟩
    have hg' := hget 0 (Nat.zero_le _)
    rw [List.getElem?_mapIdx, List.getElem?_mapIdx, hg', hg]
    exact ⟨_, rfl, rfl⟩

/-- A member whose entry takes 300 bytes or so. -/
def crowdMember : RosterAttendee :=
  { pubkey := List.replicate 64 (codeUnit 98), d := List.replicate 200 (codeUnit 99), role := .attendee }

/-- A roster that takes two pages. -/
def crowd (n : Nat) : RosterContent := { v := 2, eckCurrent := 1, attendees := List.replicate n crowdMember }

theorem crowd_append (n : Nat) : (crowd n).append [crowdMember] = crowd (n + 1) := by
  simp [RosterContent.append, crowd, List.replicate_succ']

theorem entryBytes_crowdMember : entryBytes crowdMember = 303 := by decide +kernel

theorem rosterShaped_crowd (n : Nat) : rosterShaped (crowd n) = true := by
  have hmember : rosterAttendeeSchema crowdMember = true := by decide +kernel
  have hint : isNumberInt 1 = true := by decide +kernel
  simp [rosterShaped, crowd, hint, hmember, protocolVersion]

theorem splitRoster_crowd {n : Nat} (hlow : 300 ≤ n) (hhigh : n ≤ 1000) :
    ∃ pages, splitRoster (crowd n) = .ok pages ∧ 2 ≤ pages.length := by
  have hr := rosterShaped_crowd n
  have hsizes : (crowd n).sizes = List.replicate n 303 := by
    simp [RosterContent.sizes, crowd, entryBytes_crowdMember]
  have hfit : ¬ rosterFitsOnePage (crowd n) = true := by
    have h := payloadBytes_eq (crowd n)
    rw [← RosterContent.sizes, hsizes, List.sum_replicate, smul_eq_mul] at h
    have hover : ¬ payloadBytes (crowd n) ≤ nip44MaxPlaintextBytes := by
      rw [nip44MaxPlaintextBytes]
      omega
    simpa [rosterFitsOnePage] using hover
  have hpages : (packPages (crowd n)).length ≤ maxRosterPages := by
    have h := length_packPages_mul_le (b := 303) hr (fun e he => by
      rw [hsizes] at he
      exact (List.mem_replicate.1 he).2.le) (by decide)
    rw [hsizes, List.sum_replicate, smul_eq_mul] at h
    simp only [maxRosterPages]
    omega
  have hlen : (crowd n).attendees.length ≤ maxRoster := by
    simp only [crowd, List.length_replicate, maxRoster]
    omega
  obtain ⟨pages, h⟩ := splitRoster_ok hr hlen hpages
  rcases splitRoster_eq h with ⟨hone, -⟩ | ⟨-, -, -, rfl⟩
  · exact absurd hone hfit
  · exact ⟨_, h, by rw [List.length_mapIdx]; exact two_le_packPages hr rfl hfit⟩

/-- One more member of a roster of two pages. -/
theorem splitRoster_append_crowd : ∃ old new, splitRoster (crowd 300) = .ok old ∧
    splitRoster ((crowd 300).append [crowdMember]) = .ok new ∧ 2 ≤ old.length ∧
    old.length ≤ new.length ∧ (∀ i, 1 ≤ i → i ≤ old.length - 2 → new[i]? = old[i]?) ∧
      ∃ page0, old[0]? = some page0 ∧ new[0]? = some { page0 with pages := some new.length } := by
  obtain ⟨old, hold, htwo⟩ := splitRoster_crowd (n := 300) (by decide) (by decide)
  obtain ⟨new, hnew, -⟩ := splitRoster_crowd (n := 301) (by decide) (by decide)
  rw [← crowd_append 300] at hnew
  exact ⟨old, new, hold, hnew, htwo, splitRoster_append hold htwo hnew⟩

end Nostrautica.Roster
