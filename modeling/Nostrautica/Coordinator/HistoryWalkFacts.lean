/-
What the history walk returns (`fetchAll_walk_iff`): it always ends, with each event once and within
its ceilings, and, where it stays below them, it has every matching event just when no page leaves
out an event that the walk then steps past.

A page without anything new makes the walk step below its oldest second. Of two events of that
second a full page may have had only one, with a later one before it (`second_split`).
-/
import Nostrautica.Coordinator.HistoryWalk

namespace Nostrautica.HistoryWalk

open Paging
open Pending (Filter)
open PagedReads (Relays Relay)

variable {W ι : Type} [DecidableEq ι] {id : W → ι} {created_at : W → Int}

/-! ## What is collected -/

section

variable {maxEvents maxTotal : Nat} {w : W}

theorem mem_of_mem_collect : ∀ {arrivals events : List W}, w ∈ collect id maxEvents arrivals events → w ∈ events ∨ w ∈ arrivals
  | [], _, h => .inl h
  | e :: rest, events, h => by
    rw [collect] at h
    by_cases hseen : id e ∈ events.map id
    · rw [if_pos hseen] at h
      exact (mem_of_mem_collect h).imp_right (List.mem_cons_of_mem e)
    · rw [if_neg hseen] at h
      have hadd : w ∈ events ++ [e] ∨ w ∈ rest := by
        by_cases hfull : maxEvents ≤ (events ++ [e]).length
        · rw [if_pos hfull] at h
          exact .inl h
        · rw [if_neg hfull] at h
          exact mem_of_mem_collect h
      rcases hadd with h | h
      · rcases List.mem_append.1 h with h | h
        · exact .inl h
        · exact .inr (List.mem_singleton.1 h ▸ List.mem_cons_self)
      · exact .inr (List.mem_cons_of_mem e h)

/-- A page that is not full has all that arrived. -/
theorem collect_eq_absorb : ∀ {arrivals events : List W}, (collect id maxEvents arrivals events).length < maxEvents →
    collect id maxEvents arrivals events = absorb id events arrivals
  | [], _, _ => rfl
  | e :: rest, events, h => by
    rw [absorb_cons]
    rw [collect] at h ⊢
    by_cases hseen : id e ∈ events.map id
    · rw [if_pos hseen] at h
      rw [if_pos hseen, if_pos hseen, collect_eq_absorb h]
    · rw [if_neg hseen] at h
      rw [if_neg hseen, if_neg hseen]
      by_cases hfull : maxEvents ≤ (events ++ [e]).length
      · rw [if_pos hfull] at h
        omega
      · rw [if_neg hfull] at h
        rw [if_neg hfull, collect_eq_absorb h]

theorem length_addPage_le : ∀ {page all : List W} {oldest : Option Int}, all.length ≤ maxTotal →
    (addPage id created_at maxTotal page all oldest).1.length ≤ maxTotal
  | [], _, _, h => h
  | e :: page, all, oldest, h => by
    rw [addPage]
    by_cases hfull : maxTotal ≤ all.length
    · simp only [if_pos hfull]
      exact h
    · simp only [if_neg hfull]
      refine length_addPage_le ?_
      by_cases hseen : id e ∈ all.map id
      · rw [if_pos hseen]
        exact h
      · rw [if_neg hseen, List.length_append, List.length_singleton]
        omega

theorem nodup_addPage : ∀ {page all : List W} {oldest : Option Int}, (all.map id).Nodup →
    ((addPage id created_at maxTotal page all oldest).1.map id).Nodup
  | [], _, _, h => h
  | e :: page, all, oldest, h => by
    rw [addPage]
    by_cases hfull : maxTotal ≤ all.length
    · simp only [if_pos hfull]
      exact h
    · simp only [if_neg hfull]
      have hone : ((absorb id all [e]).map id).Nodup := nodup_absorb h
      exact nodup_addPage hone

/-- A page after which the ceiling is not reached is added whole. -/
theorem addPage_eq_absorb : ∀ {page all : List W} {oldest : Option Int},
    (addPage id created_at maxTotal page all oldest).1.length < maxTotal →
      (addPage id created_at maxTotal page all oldest).1 = absorb id all page
  | [], _, _, _ => rfl
  | e :: page, all, oldest, h => by
    rw [absorb_cons]
    rw [addPage] at h ⊢
    by_cases hfull : maxTotal ≤ all.length
    · simp only [if_pos hfull] at h
      omega
    · simp only [if_neg hfull] at h ⊢
      exact addPage_eq_absorb h

/-- The oldest `created_at` is one of the page's. -/
theorem exists_oldest_addPage : ∀ {page all : List W} {oldest : Option Int},
    ∀ {x : Int}, (addPage id created_at maxTotal page all oldest).2 = some x → oldest = some x ∨ ∃ e ∈ page, created_at e = x
  | [], _, _, _, h => .inl h
  | e :: page, all, oldest, x, h => by
    have hhead : some (oldest.elim (created_at e) (min (created_at e))) = some x → oldest = some x ∨ ∃ d ∈ e :: page, created_at d = x := by
      intro hx
      cases oldest with
      | none => exact .inr ⟨e, List.mem_cons_self, Option.some.inj hx⟩
      | some y =>
        have hmin : min (created_at e) y = x := Option.some.inj hx
        rcases min_choice (created_at e) y with he | hy
        · exact .inr ⟨e, List.mem_cons_self, he ▸ hmin⟩
        · exact .inl (congrArg some (hy ▸ hmin))
    rw [addPage] at h
    by_cases hfull : maxTotal ≤ all.length
    · simp only [if_pos hfull] at h
      exact hhead h
    · simp only [if_neg hfull] at h
      rcases exists_oldest_addPage h with h | ⟨d, hd, hx⟩
      · exact hhead h
      · exact .inr ⟨d, List.mem_cons_of_mem e hd, hx⟩

theorem isSome_oldest_addPage : ∀ {page all : List W} {oldest : Option Int}, page ≠ [] ∨ oldest ≠ none →
    (addPage id created_at maxTotal page all oldest).2 ≠ none
  | [], _, _, h => h.resolve_left fun hne => hne rfl
  | e :: page, all, oldest, _ => by
    rw [addPage]
    by_cases hfull : maxTotal ≤ all.length
    · simp only [if_pos hfull]
      exact Option.some_ne_none _
    · simp only [if_neg hfull]
      exact isSome_oldest_addPage (.inr (Option.some_ne_none _))

end

/-! ## One page -/

theorem notEarlier_eq_false {until_ : Option Int} {x : Int} : notEarlier until_ x = false ↔ ∀ y ∈ until_, x < y := by
  cases until_ with
  | none => simp [notEarlier]
  | some y => simp [notEarlier]

/-- The next `until` is earlier, where the oldest of the page is no later than it. -/
theorem notEarlier_nextUntil {o : Opts} {until_ : Option Int} {oldest : Int} {added : Nat} (h : ∀ y ∈ until_, oldest ≤ y) :
    notEarlier until_ (nextUntil o until_ oldest added) = false := by
  have hbelow : notEarlier until_ (oldest - 1) = false := by
    rw [notEarlier_eq_false]
    intro y hy
    have hle := h y hy
    omega
  by_cases hnext : notEarlier until_ (if added = 0 then oldest - 1 else oldest + o.overlapSec) = true
  · simp only [nextUntil, if_pos hnext]
    exact hbelow
  · simp only [nextUntil, if_neg hnext]
    exact Bool.not_eq_true _ ▸ hnext

section

variable {o : Opts} {s : Walk W} {page : List W}

theorem afterPage_pages : (afterPage id created_at o s page).1.pages = s.pages + 1 := by
  simp only [afterPage]
  repeat' split
  all_goals rfl

theorem pages_of_after {t : Walk W} {ended : Option Ended} (h : afterPage id created_at o s page = (t, ended)) : t.pages = s.pages + 1 := by
  have hpages : (afterPage id created_at o s page).1.pages = s.pages + 1 := afterPage_pages
  rw [h] at hpages
  exact hpages

theorem afterPage_all : (afterPage id created_at o s page).1.all = (addPage id created_at o.maxTotal page s.all none).1 := by
  simp only [afterPage]
  repeat' split
  all_goals rfl

/-- What leads on to another page. -/
theorem afterPage_next (h : (afterPage id created_at o s page).2 = none) :
    (afterPage id created_at o s page).1.all.length < o.maxTotal ∧ s.pages + 1 < o.maxPages ∧
      ∃ x, (afterPage id created_at o s page).1.until_ = some x ∧ ∀ y ∈ s.until_, x < y := by
  simp only [afterPage] at h ⊢
  by_cases hempty : page.length = 0
  · simp only [if_pos hempty, reduceCtorEq] at h
  simp only [if_neg hempty] at h ⊢
  by_cases hshort : page.length < o.pageSize ∧ (addPage id created_at o.maxTotal page s.all none).1.length - s.all.length = 0
  · simp only [if_pos hshort, reduceCtorEq] at h
  simp only [if_neg hshort] at h ⊢
  cases hold : (addPage id created_at o.maxTotal page s.all none).2 with
  | none => simp only [hold, reduceCtorEq] at h
  | some oldest =>
    simp only [hold] at h ⊢
    by_cases hceil : o.maxTotal ≤ (addPage id created_at o.maxTotal page s.all none).1.length ∨ o.maxPages ≤ s.pages + 1
    · simp only [if_pos hceil, reduceCtorEq] at h
    simp only [if_neg hceil] at h ⊢
    by_cases hstop : (addPage id created_at o.maxTotal page s.all none).1.length - s.all.length = 0 ∧ maxNoProgressPages < s.noProgress + 1
    · simp only [if_pos hstop, reduceCtorEq] at h
    simp only [if_neg hstop] at h ⊢
    by_cases hstuck : notEarlier s.until_ (nextUntil o s.until_ oldest ((addPage id created_at o.maxTotal page s.all none).1.length - s.all.length)) = true
    · simp only [if_pos hstuck, reduceCtorEq] at h
    simp only [if_neg hstuck]
    refine ⟨by omega, by omega, _, rfl, notEarlier_eq_false.1 (Bool.not_eq_true _ ▸ hstuck)⟩

/-- What ends the walk below its ceilings: a page that is short, or too many without anything new. -/
theorem afterPage_ended {ended : Ended} (hpage : ∀ e ∈ page, ∀ y ∈ s.until_, created_at e ≤ y)
    (h : (afterPage id created_at o s page).2 = some ended) (htotal : (afterPage id created_at o s page).1.all.length < o.maxTotal)
    (hpages : s.pages + 1 < o.maxPages) : (ended = .complete ∧ (page = [] ∨ page.length < o.pageSize)) ∨ ended = .noProgress := by
  rw [afterPage_all] at htotal
  simp only [afterPage] at h
  by_cases hempty : page.length = 0
  · simp only [if_pos hempty, Option.some.injEq] at h
    exact .inl ⟨h.symm, .inl (List.length_eq_zero_iff.1 hempty)⟩
  simp only [if_neg hempty] at h
  by_cases hshort : page.length < o.pageSize ∧ (addPage id created_at o.maxTotal page s.all none).1.length - s.all.length = 0
  · simp only [if_pos hshort, Option.some.injEq] at h
    exact .inl ⟨h.symm, .inr hshort.1⟩
  simp only [if_neg hshort] at h
  have hne : page ≠ [] := fun hnil => hempty (by rw [hnil]; rfl)
  cases hold : (addPage id created_at o.maxTotal page s.all none).2 with
  | none => exact absurd hold (isSome_oldest_addPage (.inl hne))
  | some oldest =>
    simp only [hold, if_neg (show ¬(o.maxTotal ≤ (addPage id created_at o.maxTotal page s.all none).1.length ∨ o.maxPages ≤ s.pages + 1) by omega)] at h
    by_cases hstop : (addPage id created_at o.maxTotal page s.all none).1.length - s.all.length = 0 ∧ maxNoProgressPages < s.noProgress + 1
    · simp only [if_pos hstop, Option.some.injEq] at h
      exact .inr h.symm
    simp only [if_neg hstop] at h
    have hle : ∀ y ∈ s.until_, oldest ≤ y := by
      intro y hy
      rcases exists_oldest_addPage hold with hnone | ⟨e, he, rfl⟩
      · exact nomatch hnone
      · exact hpage e he y hy
    rw [notEarlier_nextUntil hle] at h
    exact nomatch h

end

/-! ## The relays -/

section

variable (rs : Relays id created_at) (o : Opts) (filter : Filter) (arrivals : Nat → Filter → List W)

/-- The events that match, of all the relays. -/
def matching : Set W := {w | w ∈ rs.held ∧ filter.Matches (created_at w)}

/-- Every relay answers every page in full; the answers arrive in any order. -/
def Full : Prop := ∀ n f, (arrivals n f).Perm (rs.relays.flatMap (·.answer n f))

/-- No second holds more matching events than a page. -/
def Uncrowded (pageSize : Nat) : Prop :=
  ∀ (second : Int) (l : List W), l.Nodup → (∀ w ∈ l, w ∈ matching rs filter ∧ created_at w = second) → l.length ≤ pageSize

/-- The earlier of the filter's `until` and a bound. -/
def cap (until_ bound : Option Int) : Option Int :=
  match until_, bound with
  | none, bound => bound
  | until_, none => until_
  | some y, some x => some (min y x)

variable {rs o filter arrivals}

theorem cap_self {until_ : Option Int} : cap until_ until_ = until_ := by
  cases until_ with
  | none => rfl
  | some y => exact congrArg some (min_self y)

theorem cap_earlier {until_ bound : Option Int} {x : Int} (h : cap until_ bound = bound) (hx : ∀ y ∈ bound, x < y) :
    cap until_ (some x) = some x := by
  cases until_ with
  | none => rfl
  | some y =>
    cases bound with
    | none => exact nomatch h
    | some b =>
      have hmin : min y b = b := Option.some.inj h
      have hlt := hx b rfl
      have hle : b ≤ y := hmin ▸ min_le_left y b
      exact congrArg some (min_eq_right (by omega))

theorem upto_of_cap {until_ bound : Option Int} {x : Int} (h : ∀ y ∈ cap until_ bound, x ≤ y) :
    (∀ y ∈ until_, x ≤ y) ∧ ∀ y ∈ bound, x ≤ y := by
  cases until_ with
  | none => exact ⟨fun y hy => absurd hy (Option.not_mem_none y), h⟩
  | some y =>
    cases bound with
    | none => exact ⟨h, fun b hb => absurd hb (Option.not_mem_none b)⟩
    | some b =>
      have hle := h (min y b) rfl
      simp only [Option.mem_def, Option.some.injEq, forall_eq']
      omega

theorem cap_of_upto {until_ bound : Option Int} {x : Int} (hu : ∀ y ∈ until_, x ≤ y) (hb : ∀ y ∈ bound, x ≤ y) :
    ∀ y ∈ cap until_ bound, x ≤ y := by
  cases until_ with
  | none => exact hb
  | some y =>
    cases bound with
    | none => exact hu
    | some b =>
      intro z hz
      cases hz
      exact le_min (hu y rfl) (hb b rfl)

omit [DecidableEq ι] in
theorem mem_arrivals (hfull : Full rs arrivals) {n : Nat} {f : Filter} {w : W} :
    w ∈ arrivals n f ↔ ∃ r ∈ rs.relays, w ∈ r.answer n f := by
  rw [(hfull n f).mem_iff, List.mem_flatMap]

theorem sound_pageAt (hfull : Full rs arrivals) {n : Nat} {bound : Option Int} {w : W}
    (h : w ∈ pageAt id o filter arrivals n (cap filter.until_ bound)) : w ∈ matching rs filter ∧ Upto created_at bound w := by
  have harrived := (mem_of_mem_collect h).resolve_left List.not_mem_nil
  obtain ⟨r, hr, hw⟩ := (mem_arrivals hfull).1 harrived
  obtain ⟨hheld, hsince, huntil⟩ := r.sound hw
  obtain ⟨hfilter, hbound⟩ := upto_of_cap huntil
  exact ⟨⟨⟨r, hr, hheld⟩, hsince, hfilter⟩, hbound⟩

theorem short_pageAt (hfull : Full rs arrivals) {n : Nat} {bound : Option Int}
    (hshort : (pageAt id o filter arrivals n (cap filter.until_ bound)).length < o.pageSize) {w : W}
    (hw : w ∈ matching rs filter) (hup : Upto created_at bound w) : w ∈ pageAt id o filter arrivals n (cap filter.until_ bound) := by
  obtain ⟨⟨r, hr, hheld⟩, hsince, huntil⟩ := hw
  have hmatch : Filter.Matches { filter with until_ := cap filter.until_ bound, limit := some o.pageSize } (created_at w) :=
    ⟨hsince, cap_of_upto huntil hup⟩
  have hall := collect_eq_absorb hshort
  have harrived : ∀ v ∈ arrivals n { filter with until_ := cap filter.until_ bound, limit := some o.pageSize }, v ∈ rs.held := by
    intro v hv
    obtain ⟨q, hq, hvq⟩ := (mem_arrivals hfull).1 hv
    exact ⟨q, hq, (q.sound hvq).1⟩
  have hpage : ∀ v ∈ r.answer n { filter with until_ := cap filter.until_ bound, limit := some o.pageSize },
      v ∈ pageAt id o filter arrivals n (cap filter.until_ bound) := by
    intro v hv
    rw [pageAt, fetch, hall, mem_absorb rs.ids (fun _ hnil => absurd hnil List.not_mem_nil) harrived]
    exact .inr ((mem_arrivals hfull).2 ⟨r, hr, hv⟩)
  by_contra hno
  -- an answer that leaves the event out is as long as its limit
  have hlimit := (r.newest hheld hmatch fun hm => hno (hpage w hm)).1
  have hsub : (r.answer n { filter with until_ := cap filter.until_ bound, limit := some o.pageSize }).map id ⊆
      (pageAt id o filter arrivals n (cap filter.until_ bound)).map id := List.map_subset id hpage
  have hle := (r.nodup.subperm hsub).length_le
  rw [List.length_map, List.length_map] at hle
  have hlen := Option.some.inj hlimit
  omega

/-- The pages that the walk may read. -/
def pages (o : Opts) (filter : Filter) (hfull : Full rs arrivals) : Pages created_at (matching rs filter) o.pageSize where
  page n bound := pageAt id o filter arrivals n (cap filter.until_ bound)
  sound := sound_pageAt hfull
  short hshort _ hw hup := short_pageAt hfull hshort hw hup

end

/-! ## The walk -/

section

variable (rs : Relays id created_at) (o : Opts) (filter : Filter) (arrivals : Nat → Filter → List W)

/-- An event that neither the page has nor one before had, and that the page's `until` allows, is
later than the next `until`. -/
def StepsPast (s : Walk W) (page : List W) (next : Int) : Prop :=
  ∃ w ∈ matching rs filter, Upto created_at s.until_ w ∧ w ∉ page ∧ w ∉ s.all ∧ next < created_at w

/-- There is an event that neither the page has nor one before had, and that the page's `until` allows. -/
def LeavesOff (s : Walk W) (page : List W) : Prop :=
  ∃ w ∈ matching rs filter, Upto created_at s.until_ w ∧ w ∉ page ∧ w ∉ s.all

/-- No page of the walk steps past an event, and none is the last of too many without anything new
while there is another event. -/
def NeverSkips : Nat → Walk W → Prop
  | 0, _ => True
  | fuel + 1, s =>
    let page := pageAt id o filter arrivals s.pages s.until_
    match afterPage id created_at o s page with
    | (t, none) => (∀ next ∈ t.until_, ¬StepsPast rs filter s page next) ∧ NeverSkips fuel t
    | (_, some .noProgress) => ¬LeavesOff rs filter s page
    | (_, some _) => True

variable {rs o filter arrivals}

def Walk.place (s : Walk W) : Place W := ⟨s.pages, s.until_, s.all⟩

theorem place_after {s : Walk W} (hnext : (afterPage id created_at o s (pageAt id o filter arrivals s.pages s.until_)).2 = none) {x : Int}
    (hx : (afterPage id created_at o s (pageAt id o filter arrivals s.pages s.until_)).1.until_ = some x) :
    (afterPage id created_at o s (pageAt id o filter arrivals s.pages s.until_)).1.place =
      s.place.after id (pageAt id o filter arrivals s.pages s.until_) x := by
  have htotal := (afterPage_next hnext).1
  rw [afterPage_all] at htotal
  rw [Walk.place, afterPage_pages, hx, afterPage_all, addPage_eq_absorb htotal]
  rfl

/-- What the walk has in the end, from a place where it has had everything so far, or has lost an event. -/
theorem fetchPages_iff (hfull : Full rs arrivals) (hcrowd : Uncrowded rs filter o.pageSize) :
    ∀ {fuel : Nat} {s : Walk W}, cap filter.until_ s.until_ = s.until_ → o.maxPages < fuel + s.pages →
      (fetchPages id created_at o filter arrivals fuel s).1.all.length < o.maxTotal →
      (fetchPages id created_at o filter arrivals fuel s).1.pages < o.maxPages →
      (s.place.Behind created_at (matching rs filter) →
        ((∀ w ∈ matching rs filter, w ∈ (fetchPages id created_at o filter arrivals fuel s).1.all) ↔ NeverSkips rs o filter arrivals fuel s)) ∧
      (s.place.Missed created_at (matching rs filter) →
        ¬∀ w ∈ matching rs filter, w ∈ (fetchPages id created_at o filter arrivals fuel s).1.all)
  | 0, s, _, hfuel, _, hpages => by
    have hlt : s.pages < o.maxPages := hpages
    omega
  | fuel + 1, s, hcap, hfuel, htotal, hpages => by
    have hinj : (matching rs filter).InjOn id := rs.ids.mono fun _ hw => hw.1
    have hpage : (pages o filter hfull).page s.place.n s.place.bound = pageAt id o filter arrivals s.pages s.until_ := by
      show pageAt id o filter arrivals s.pages (cap filter.until_ s.until_) = _
      rw [hcap]
    have hupto : ∀ e ∈ pageAt id o filter arrivals s.pages s.until_, ∀ y ∈ s.until_, created_at e ≤ y := by
      intro e he
      rw [← hpage] at he
      exact ((pages o filter hfull).sound he).2
    rw [fetchPages] at htotal hpages ⊢
    rw [NeverSkips]
    cases hafter : afterPage id created_at o s (pageAt id o filter arrivals s.pages s.until_) with
    | mk t ended =>
      cases ended with
      | none =>
        simp only [hafter] at htotal hpages ⊢
        have hnext : (afterPage id created_at o s (pageAt id o filter arrivals s.pages s.until_)).2 = none := by rw [hafter]
        obtain ⟨-, -, x, hx, hearlier⟩ := afterPage_next hnext
        have hplace := place_after hnext hx
        have htpages : t.pages = s.pages + 1 := pages_of_after hafter
        rw [hafter] at hx hplace
        have hcapt : cap filter.until_ t.until_ = t.until_ := by rw [hx, cap_earlier hcap hearlier]
        have hrest := fetchPages_iff hfull hcrowd hcapt (by omega) htotal hpages
        have hle : ∀ y ∈ s.place.bound, x ≤ y := fun y hy => Int.le_of_lt (hearlier y hy)
        rw [hplace, ← hpage] at hrest
        have hsteps : StepsPast rs filter s (pageAt id o filter arrivals s.pages s.until_) x ↔ s.place.StepsPast (pages o filter hfull) x := by
          rw [Place.StepsPast, hpage]
          rfl
        refine ⟨fun hs => ?_, fun hs => hrest.2 (hs.after (pages o filter hfull) hinj hle)⟩
        rw [hx]
        simp only [Option.mem_def, Option.some.injEq, forall_eq']
        by_cases hskip : s.place.StepsPast (pages o filter hfull) x
        · exact iff_of_false (hrest.2 (hskip.missed (pages o filter hfull) hinj hs.seen)) fun h => h.1 (hsteps.2 hskip)
        · rw [hrest.1 (hs.after (pages o filter hfull) hinj hskip)]
          exact ⟨fun h => ⟨fun hp => hskip (hsteps.1 hp), h⟩, fun h => h.2⟩
      | some ended =>
        simp only [hafter] at htotal hpages ⊢
        have hended : (afterPage id created_at o s (pageAt id o filter arrivals s.pages s.until_)).2 = some ended := by rw [hafter]
        have htpages : t.pages = s.pages + 1 := pages_of_after hafter
        have htall : t.all = absorb id s.all (pageAt id o filter arrivals s.pages s.until_) := by
          rw [← addPage_eq_absorb, ← afterPage_all, hafter]
          rw [← afterPage_all, hafter]
          exact htotal
        have hcases := afterPage_ended hupto hended (by rw [hafter]; exact htotal) (by omega)
        rw [htall]
        refine ⟨fun hs => ?_, fun hs => ?_⟩
        · rcases hcases with ⟨rfl, hend⟩ | rfl
          · refine iff_of_true (fun w hw => ?_) trivial
            have hshort : (pageAt id o filter arrivals s.pages s.until_).length < o.pageSize := by
              rcases hend with hnil | hshort
              · have hone := hcrowd (created_at w) [w] (List.nodup_singleton w) (by simp [hw])
                rw [hnil]
                exact hone
              · exact hshort
            rw [← hpage] at hshort ⊢
            exact hs.all (pages o filter hfull) hinj hshort w hw
          · simp only [LeavesOff, not_exists, not_and, not_not]
            rw [← hpage]
            refine forall₂_congr fun w hw => ?_
            rw [show s.all = s.place.seen from rfl, Place.seen_after (pages o filter hfull) hinj hs.seen]
            refine ⟨fun h _ hno => h.resolve_right hno, fun h => ?_⟩
            by_cases hup : Upto created_at s.until_ w
            · by_cases hin : w ∈ (pages o filter hfull).page s.place.n s.place.bound
              · exact .inr hin
              · exact .inl (h hup hin)
            · exact .inl (hs.later w hw hup)
        · rw [← hpage]
          exact hs.not_all (pages o filter hfull) hinj

/-! ## The end of the walk -/

theorem pages_le_fetchPages : ∀ {fuel : Nat} {s : Walk W}, s.pages ≤ (fetchPages id created_at o filter arrivals fuel s).1.pages
  | 0, _ => Nat.le_refl _
  | fuel + 1, s => by
    rw [fetchPages]
    cases hafter : afterPage id created_at o s (pageAt id o filter arrivals s.pages s.until_) with
    | mk t ended =>
      have hpages : t.pages = s.pages + 1 := pages_of_after hafter
      cases ended with
      | none =>
        have hrest : t.pages ≤ (fetchPages id created_at o filter arrivals fuel t).1.pages := pages_le_fetchPages
        show s.pages ≤ (fetchPages id created_at o filter arrivals fuel t).1.pages
        omega
      | some ended =>
        show s.pages ≤ t.pages
        omega

/-- The walk ends within its ceilings, whatever arrives. -/
theorem fetchPages_ends : ∀ {fuel : Nat} {s : Walk W}, o.maxPages < fuel + s.pages → s.pages = 0 ∨ s.pages < o.maxPages →
    s.all.length ≤ o.maxTotal → (s.all.map id).Nodup →
    (fetchPages id created_at o filter arrivals fuel s).2 ≠ none ∧
      (fetchPages id created_at o filter arrivals fuel s).1.all.length ≤ o.maxTotal ∧
      1 ≤ (fetchPages id created_at o filter arrivals fuel s).1.pages ∧
      (fetchPages id created_at o filter arrivals fuel s).1.pages ≤ max 1 o.maxPages ∧
      ((fetchPages id created_at o filter arrivals fuel s).1.all.map id).Nodup
  | 0, s, hfuel, hpages, _, _ => by omega
  | fuel + 1, s, hfuel, hpages, htotal, hnodup => by
    rw [fetchPages]
    have htall : (afterPage id created_at o s (pageAt id o filter arrivals s.pages s.until_)).1.all.length ≤ o.maxTotal := by
      rw [afterPage_all]
      exact length_addPage_le htotal
    have htnodup : ((afterPage id created_at o s (pageAt id o filter arrivals s.pages s.until_)).1.all.map id).Nodup := by
      rw [afterPage_all]
      exact nodup_addPage hnodup
    cases hafter : afterPage id created_at o s (pageAt id o filter arrivals s.pages s.until_) with
    | mk t ended =>
      have htpages : t.pages = s.pages + 1 := pages_of_after hafter
      rw [hafter] at htall htnodup
      cases ended with
      | none =>
        have hnext : (afterPage id created_at o s (pageAt id o filter arrivals s.pages s.until_)).2 = none := by rw [hafter]
        have hlt := (afterPage_next hnext).2.1
        exact fetchPages_ends (by omega) (.inr (by omega)) htall htnodup
      | some ended =>
        refine ⟨Option.some_ne_none _, htall, ?_, ?_, htnodup⟩
        · show 1 ≤ t.pages
          omega
        · show t.pages ≤ max 1 o.maxPages
          omega

variable (rs o filter arrivals)

/-- **The history walk ends, with no event twice and no more than its ceilings allow, if one page is
allowed; and where no second holds more events than a page, every relay answers in full and the walk
stays below its ceilings, it has every matching event, just when no page steps past one and none is
the last of too many without anything new while there is another.** -/
theorem fetchAll_walk_iff :
    ((fetchAll id created_at o filter arrivals).2 ≠ none ∧ (fetchAll id created_at o filter arrivals).1.all.length ≤ o.maxTotal ∧
        (fetchAll id created_at o filter arrivals).1.pages ≤ o.maxPages ∧ ((fetchAll id created_at o filter arrivals).1.all.map id).Nodup ∧
        (Uncrowded rs filter o.pageSize → Full rs arrivals → (fetchAll id created_at o filter arrivals).1.all.length < o.maxTotal →
          (fetchAll id created_at o filter arrivals).1.pages < o.maxPages →
          ∀ w ∈ matching rs filter, w ∈ (fetchAll id created_at o filter arrivals).1.all)) ↔
      0 < o.maxPages ∧
        (Uncrowded rs filter o.pageSize → Full rs arrivals → (fetchAll id created_at o filter arrivals).1.all.length < o.maxTotal →
          (fetchAll id created_at o filter arrivals).1.pages < o.maxPages →
          NeverSkips rs o filter arrivals (o.maxPages + 1) { until_ := filter.until_ }) := by
  obtain ⟨hends, htotal, hone, hpages, hnodup⟩ : (fetchAll id created_at o filter arrivals).2 ≠ none ∧
      (fetchAll id created_at o filter arrivals).1.all.length ≤ o.maxTotal ∧ 1 ≤ (fetchAll id created_at o filter arrivals).1.pages ∧
      (fetchAll id created_at o filter arrivals).1.pages ≤ max 1 o.maxPages ∧ ((fetchAll id created_at o filter arrivals).1.all.map id).Nodup :=
    fetchPages_ends (Nat.lt_succ_self _) (.inl rfl) (Nat.zero_le _) List.nodup_nil
  have hstart : (Walk.place { until_ := filter.until_ }).Behind created_at (matching rs filter) := by
    refine ⟨fun w hw => absurd hw List.not_mem_nil, fun w hw hlate => absurd hw.2.2 hlate⟩
  have hiff : Uncrowded rs filter o.pageSize → Full rs arrivals → (fetchAll id created_at o filter arrivals).1.all.length < o.maxTotal →
      (fetchAll id created_at o filter arrivals).1.pages < o.maxPages →
      ((∀ w ∈ matching rs filter, w ∈ (fetchAll id created_at o filter arrivals).1.all) ↔
        NeverSkips rs o filter arrivals (o.maxPages + 1) { until_ := filter.until_ }) := fun hcrowd hfull hbelow hpage =>
    (fetchPages_iff hfull hcrowd cap_self (Nat.lt_succ_self _) hbelow hpage).1 hstart
  constructor
  · rintro ⟨-, -, hle, -, hall⟩
    refine ⟨Nat.lt_of_lt_of_le hone hle, fun hcrowd hfull hbelow hpage => ?_⟩
    exact (hiff hcrowd hfull hbelow hpage).1 (hall hcrowd hfull hbelow hpage)
  · rintro ⟨hpos, hnever⟩
    have hmax : max 1 o.maxPages = o.maxPages := max_eq_right hpos
    refine ⟨hends, htotal, hmax ▸ hpages, hnodup, fun hcrowd hfull hbelow hpage => ?_⟩
    exact (hiff hcrowd hfull hbelow hpage).2 (hnever hcrowd hfull hbelow hpage)

end

/-! ## A second that is split -/

namespace Small

/-- Three events: one of the second 10, two of the second before. -/
def second (w : Nat) : Int := if w = 0 then 10 else 9

def relay : Relay (fun w : Nat => w) second := .ofNewestFirst _ [0, 1, 2] (by decide) (by decide)

def relays : Relays (fun w : Nat => w) second where
  relays := [relay]
  nonempty := by simp
  ids := fun _ _ _ _ h => h

def opts : Opts := { pageSize := 2 }

theorem full : Full relays relay.answer := by
  intro n f
  simp [relays]

theorem uncrowded : Uncrowded relays {} opts.pageSize := by
  intro x l hnodup hl
  have hmem : ∀ w ∈ l, w = 0 ∨ w = 1 ∨ w = 2 := by
    intro w hw
    obtain ⟨⟨⟨r, hr, hheld⟩, -⟩, -⟩ := hl w hw
    simp only [relays, List.mem_singleton] at hr
    subst hr
    simpa [relay, Relay.ofNewestFirst] using hheld
  by_cases hx : x = 10
  · have hsub : l ⊆ [0] := by
      intro w hw
      have hsecond := (hl w hw).2
      rcases hmem w hw with rfl | rfl | rfl
      · exact List.mem_singleton_self 0
      · rw [hx] at hsecond
        exact absurd hsecond (by decide)
      · rw [hx] at hsecond
        exact absurd hsecond (by decide)
    exact (hnodup.subperm hsub).length_le.trans (by decide)
  · have hsub : l ⊆ [1, 2] := by
      intro w hw
      rcases hmem w hw with rfl | rfl | rfl
      · exact absurd (hl 0 hw).2.symm hx
      · exact List.mem_cons_self
      · exact List.mem_cons_of_mem 1 (List.mem_singleton_self 2)
    exact (hnodup.subperm hsub).length_le

end Small

/-- A page of two has the later event and one of the two before it; the next page brings nothing new,
and the walk steps below the second of both. -/
theorem second_split :
    ¬(Uncrowded Small.relays {} Small.opts.pageSize → Full Small.relays Small.relay.answer →
      (fetchAll (fun w : Nat => w) Small.second Small.opts {} Small.relay.answer).1.all.length < Small.opts.maxTotal →
      (fetchAll (fun w : Nat => w) Small.second Small.opts {} Small.relay.answer).1.pages < Small.opts.maxPages →
      ∀ w ∈ matching Small.relays {}, w ∈ (fetchAll (fun w : Nat => w) Small.second Small.opts {} Small.relay.answer).1.all) := by
  intro hall
  have hmatch : 2 ∈ matching Small.relays {} := ⟨⟨Small.relay, List.mem_singleton_self _, by decide⟩, by simp, by simp⟩
  have hmem := hall Small.uncrowded Small.full (by decide) (by decide) 2 hmatch
  exact absurd hmem (by decide)

end Nostrautica.HistoryWalk
