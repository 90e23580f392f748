/-
Reading back through dated entries page by page: each page asks for what is no later than a
bound, and the next bound is taken from the page. A bound that jumps leaves out what lies
between; a read that comes to its end has everything just when none of its bounds jumped.
-/
import Mathlib

namespace Paging

variable {W ι : Type*} [DecidableEq ι] (key : W → ι) (stamp : W → Int)

/-! ## Batches -/

/-- Puts the entries of a batch whose keys are not there yet behind those that are. -/
def absorb (seen batch : List W) : List W :=
  batch.foldl (fun seen w => if key w ∈ seen.map key then seen else seen ++ [w]) seen

/-- The earliest stamp of a batch. -/
def oldest (batch : List W) : Option Int := (batch.map stamp).min?

variable {key stamp}

theorem absorb_cons {seen batch : List W} {w : W} :
    absorb key seen (w :: batch) = absorb key (if key w ∈ seen.map key then seen else seen ++ [w]) batch := rfl

theorem mem_of_mem_absorb {w : W} : ∀ {batch seen : List W}, w ∈ absorb key seen batch → w ∈ seen ∨ w ∈ batch
  | [], _, h => .inl h
  | v :: batch, seen, h => by
    rw [absorb_cons] at h
    rcases mem_of_mem_absorb h with h | h
    · split at h
      · exact .inl h
      · rcases List.mem_append.mp h with h | h
        · exact .inl h
        · exact .inr (List.mem_singleton.mp h ▸ .head _)
    · exact .inr (.tail _ h)

theorem mem_absorb_of_seen {w : W} : ∀ {batch seen : List W}, w ∈ seen → w ∈ absorb key seen batch
  | [], _, h => h
  | v :: batch, seen, h => by
    rw [absorb_cons]
    apply mem_absorb_of_seen
    split
    · exact h
    · exact List.mem_append_left _ h

theorem key_mem_absorb {w : W} : ∀ {batch seen : List W}, w ∈ batch → key w ∈ (absorb key seen batch).map key
  | v :: batch, seen, h => by
    rw [absorb_cons]
    cases h with
    | tail _ h => exact key_mem_absorb h
    | head =>
      split
      · next hv =>
        obtain ⟨x, hx, hk⟩ := List.mem_map.mp hv
        exact List.mem_map.mpr ⟨x, mem_absorb_of_seen hx, hk⟩
      · exact List.mem_map.mpr ⟨w, mem_absorb_of_seen (by simp), rfl⟩

theorem nodup_absorb : ∀ {batch seen : List W}, (seen.map key).Nodup → ((absorb key seen batch).map key).Nodup
  | [], _, h => h
  | v :: batch, seen, h => by
    rw [absorb_cons]
    apply nodup_absorb
    split
    · exact h
    · next hv =>
      rw [List.map_append]
      refine List.nodup_append.mpr ⟨h, by simp, ?_⟩
      rintro k hk k' hk' rfl
      simp only [List.map_cons, List.map_nil, List.mem_singleton] at hk'
      exact hv (hk' ▸ hk)

/-- Where a key stands for one entry only, what is absorbed is what was there and the batch. -/
theorem mem_absorb {held : Set W} (hinj : held.InjOn key) {seen batch : List W} (hseen : ∀ w ∈ seen, w ∈ held)
    (hbatch : ∀ w ∈ batch, w ∈ held) {w : W} : w ∈ absorb key seen batch ↔ w ∈ seen ∨ w ∈ batch := by
  refine ⟨mem_of_mem_absorb, fun h => h.elim mem_absorb_of_seen fun hb => ?_⟩
  have hkey : key w ∈ (absorb key seen batch).map key := key_mem_absorb hb
  obtain ⟨v, hv, hk⟩ := List.mem_map.mp hkey
  have hvheld : v ∈ held := (mem_of_mem_absorb hv).elim (hseen v) (hbatch v)
  exact hinj hvheld (hbatch w hb) hk ▸ hv

theorem oldest_le {batch : List W} {x : Int} (h : oldest stamp batch = some x) {w : W} (hw : w ∈ batch) : x ≤ stamp w :=
  (List.min?_eq_some_iff.mp h).2 _ (List.mem_map.mpr ⟨w, hw, rfl⟩)

theorem exists_oldest {batch : List W} {x : Int} (h : oldest stamp batch = some x) : ∃ w ∈ batch, stamp w = x :=
  List.mem_map.mp (List.min?_eq_some_iff.mp h).1

/-! ## Pages -/

/-- A place in a read: the number of the next request, its bound, and what was read before. -/
structure Place (W : Type*) where
  n : Nat
  bound : Option Int
  seen : List W

/-- The entries no later than the bound. -/
def Upto (stamp : W → Int) (bound : Option Int) (w : W) : Prop := ∀ x ∈ bound, stamp w ≤ x

variable (key stamp)

/-- Pages of what is held: none reaches past its bound, and one shorter than the limit is all there is. -/
structure Pages (held : Set W) (limit : Nat) where
  page : Nat → Option Int → List W
  sound : ∀ {n bound w}, w ∈ page n bound → w ∈ held ∧ Upto stamp bound w
  short : ∀ {n bound}, (page n bound).length < limit → ∀ w ∈ held, Upto stamp bound w → w ∈ page n bound

variable {key stamp} {held : Set W} {limit : Nat} (p : Pages stamp held limit)

/-- The place after a page, with the bound of the next. -/
def Place.after (key : W → ι) (s : Place W) (batch : List W) (x : Int) : Place W := ⟨s.n + 1, some x, absorb key s.seen batch⟩

/-- What has been read is held, and everything held that is later than the bound has been read. -/
structure Place.Behind (stamp : W → Int) (held : Set W) (s : Place W) : Prop where
  seen : ∀ w ∈ s.seen, w ∈ held
  later : ∀ w ∈ held, ¬Upto stamp s.bound w → w ∈ s.seen

/-- An entry that the page leaves out, and no page before had, is later than the next bound. -/
def Place.StepsPast (s : Place W) (x : Int) : Prop :=
  ∃ w ∈ held, Upto stamp s.bound w ∧ w ∉ p.page s.n s.bound ∧ w ∉ s.seen ∧ x < stamp w

/-- An entry later than the bound has not been read, and will not be. -/
def Place.Missed (stamp : W → Int) (held : Set W) (s : Place W) : Prop :=
  (∀ w ∈ s.seen, w ∈ held) ∧ ∃ w ∈ held, ¬Upto stamp s.bound w ∧ w ∉ s.seen

theorem Place.seen_after (hinj : held.InjOn key) {s : Place W} (hs : ∀ w ∈ s.seen, w ∈ held) {w : W} :
    w ∈ absorb key s.seen (p.page s.n s.bound) ↔ w ∈ s.seen ∨ w ∈ p.page s.n s.bound :=
  mem_absorb hinj hs fun _ hw => (p.sound hw).1

theorem Place.held_after (hinj : held.InjOn key) {s : Place W} (hs : ∀ w ∈ s.seen, w ∈ held) :
    ∀ w ∈ absorb key s.seen (p.page s.n s.bound), w ∈ held := fun _ hw =>
  ((seen_after p hinj hs).mp hw).elim (hs _) fun hw => (p.sound hw).1

/-- A bound that leaves nothing out keeps the read behind it. -/
theorem Place.Behind.after (hinj : held.InjOn key) {s : Place W} (hs : s.Behind stamp held) {x : Int}
    (h : ¬s.StepsPast p x) : (s.after key (p.page s.n s.bound) x).Behind stamp held where
  seen := held_after p hinj hs.seen
  later w hw hlate := by
    simp only [Place.after, Upto, Option.mem_some_iff, forall_eq', Int.not_le] at hlate ⊢
    rw [seen_after p hinj hs.seen]
    by_contra hno
    obtain ⟨hseen, hpage⟩ := not_or.mp hno
    exact h ⟨w, hw, by_contra fun hup => hseen (hs.later w hw hup), hpage, hseen, hlate⟩

/-- One that jumps misses an entry. -/
theorem Place.StepsPast.missed (hinj : held.InjOn key) {s : Place W} (hs : ∀ w ∈ s.seen, w ∈ held) {x : Int}
    (h : s.StepsPast p x) : (s.after key (p.page s.n s.bound) x).Missed stamp held := by
  obtain ⟨w, hw, _, hpage, hseen, hlt⟩ := h
  refine ⟨held_after p hinj hs, w, hw, ?_, ?_⟩
  · simpa [Place.after, Upto] using hlt
  · exact fun hm => ((seen_after p hinj hs).mp hm).elim hseen hpage

/-- What a read has missed stays missed, since no page reaches past its bound. -/
theorem Place.Missed.after (hinj : held.InjOn key) {s : Place W} (hs : s.Missed stamp held) {x : Int} (hx : ∀ y ∈ s.bound, x ≤ y) :
    (s.after key (p.page s.n s.bound) x).Missed stamp held := by
  obtain ⟨hheld, w, hw, hlate, hseen⟩ := hs
  refine ⟨held_after p hinj hheld, w, hw, ?_, ?_⟩
  · simp only [Upto, not_forall] at hlate
    obtain ⟨y, hy, hlt⟩ := hlate
    have hxy := hx y hy
    simp only [Place.after, Upto, Option.mem_some_iff, forall_eq']
    omega
  · exact fun hm => ((seen_after p hinj hheld).mp hm).elim hseen fun hp => hlate (p.sound hp).2

/-- A read that is behind its bound has everything with the short page, -/
theorem Place.Behind.all (hinj : held.InjOn key) {s : Place W} (hs : s.Behind stamp held)
    (hshort : (p.page s.n s.bound).length < limit) : ∀ w ∈ held, w ∈ absorb key s.seen (p.page s.n s.bound) := by
  intro w hw
  rw [seen_after p hinj hs.seen]
  by_cases hup : Upto stamp s.bound w
  · exact .inr (p.short hshort w hw hup)
  · exact .inl (hs.later w hw hup)

/-- and one that has missed an entry has not. -/
theorem Place.Missed.not_all (hinj : held.InjOn key) {s : Place W} (hs : s.Missed stamp held) :
    ¬∀ w ∈ held, w ∈ absorb key s.seen (p.page s.n s.bound) := by
  obtain ⟨hheld, w, hw, hlate, hseen⟩ := hs
  exact fun hall => ((seen_after p hinj hheld).mp (hall w hw)).elim hseen fun hp => hlate (p.sound hp).2

/-! ## Reads -/

/-- Each turn goes on behind the page, with a bound no later than before. -/
def Turns (key : W → ι) (page : Nat → Option Int → List W) (turn : Place W → Option (Place W)) : Prop :=
  ∀ s t, turn s = some t → ∃ x, t = s.after key (page s.n s.bound) x ∧ ∀ y ∈ s.bound, x ≤ y

/-- None of the bounds that the read takes over so many pages jumps. -/
def NeverStepsPast (turn : Place W → Option (Place W)) : Nat → Place W → Prop
  | 0, _ => True
  | fuel + 1, s => ∀ t ∈ turn s, (∀ x ∈ t.bound, ¬s.StepsPast p x) ∧ NeverStepsPast turn fuel t

/-- The place where a read of so many pages at most comes to stand, and whether no turn leads on from there. -/
def walk (turn : Place W → Option (Place W)) : Nat → Place W → Place W × Bool
  | 0, s => (s, false)
  | fuel + 1, s =>
    match turn s with
    | some t => walk turn fuel t
    | none => (s, true)

/-- A walk misses what it has missed before. -/
theorem walk_missed (hinj : held.InjOn key) {turn : Place W → Option (Place W)} (hturn : Turns key p.page turn) :
    ∀ (fuel : Nat) {s : Place W}, s.Missed stamp held → (walk turn fuel s).1.Missed stamp held
  | 0, _, hs => hs
  | fuel + 1, s, hs => by
    unfold walk
    split
    · next t ht =>
      obtain ⟨x, rfl, hx⟩ := hturn s t ht
      exact walk_missed hinj hturn fuel (hs.after p hinj hx)
    · exact hs

/-- **A walk is behind its bound in the end when none of its bounds jumped, and has missed an entry otherwise.** -/
theorem walk_behind (hinj : held.InjOn key) {turn : Place W → Option (Place W)} (hturn : Turns key p.page turn) :
    ∀ (fuel : Nat) {s : Place W}, s.Behind stamp held →
      (NeverStepsPast p turn fuel s ∧ (walk turn fuel s).1.Behind stamp held) ∨
        (¬NeverStepsPast p turn fuel s ∧ (walk turn fuel s).1.Missed stamp held)
  | 0, _, hs => .inl ⟨trivial, hs⟩
  | fuel + 1, s, hs => by
    unfold walk NeverStepsPast
    cases ht : turn s with
    | none => exact .inl ⟨(fun t hm => by cases hm), hs⟩
    | some t =>
      obtain ⟨x, rfl, hx⟩ := hturn s t ht
      simp only [Option.mem_some_iff, forall_eq', Place.after]
      by_cases hstep : s.StepsPast p x
      · exact .inr ⟨fun hn => hn.1 hstep, walk_missed p hinj hturn fuel (hstep.missed p hinj hs.seen)⟩
      · rcases walk_behind hinj hturn fuel (hs.after p hinj hstep) with ⟨hn, hb⟩ | ⟨hn, hm⟩
        · exact .inl ⟨⟨hstep, hn⟩, hb⟩
        · exact .inr ⟨fun h => hn h.2, hm⟩

/-- Each page that a walk turns adds its entries to those that were there. -/
theorem nodup_walk {page : Nat → Option Int → List W} {turn : Place W → Option (Place W)} (hturn : Turns key page turn) :
    ∀ (fuel : Nat) {s : Place W}, (s.seen.map key).Nodup → ((walk turn fuel s).1.seen.map key).Nodup
  | 0, _, h => h
  | fuel + 1, s, h => by
    unfold walk
    split
    · next t ht =>
      obtain ⟨x, rfl, _⟩ := hturn s t ht
      exact nodup_walk hturn fuel (nodup_absorb h)
    · exact h

/-! ## Reads to a short page -/

variable (key stamp)

/-- The place that a full page with something new leads on to: its bound is the earliest stamp of the page. -/
def Place.turn (limit : Nat) (page : Nat → Option Int → List W) (s : Place W) : Option (Place W) :=
  let batch := page s.n s.bound
  if batch.length < limit ∨ (absorb key s.seen batch).length = s.seen.length then none
  else (oldest stamp batch).map (s.after key batch)

/-- What a read has at a place that no turn leads on from, and whether its page is short. -/
def Place.last (limit : Nat) (page : Nat → Option Int → List W) (s : Place W) : List W × Bool :=
  (absorb key s.seen (page s.n s.bound), (page s.n s.bound).length < limit)

/-- A read of so many pages at most, and whether it came to a short page. -/
def readBack (limit : Nat) (page : Nat → Option Int → List W) (fuel : Nat) (s : Place W) : List W × Bool :=
  match walk (Place.turn key stamp limit page) fuel s with
  | (t, true) => t.last key limit page
  | (t, false) => (t.seen, false)

variable {key stamp}

theorem readBack_succ {page : Nat → Option Int → List W} {fuel : Nat} {s : Place W} :
    readBack key stamp limit page (fuel + 1) s =
      (s.turn key stamp limit page).elim (s.last key limit page) (readBack key stamp limit page fuel) := by
  rw [readBack, walk]
  cases s.turn key stamp limit page <;> rfl

theorem turns_turn : Turns key p.page (Place.turn key stamp limit p.page) := by
  intro s t h
  simp only [Place.turn] at h
  split at h
  · cases h
  · obtain ⟨x, hx, rfl⟩ := Option.map_eq_some_iff.mp h
    refine ⟨x, rfl, fun y hy => ?_⟩
    obtain ⟨w, hw, rfl⟩ := exists_oldest hx
    exact (p.sound hw).2 y hy

theorem nodup_readBack {fuel : Nat} {s : Place W} (h : (s.seen.map key).Nodup) :
    ((readBack key stamp limit p.page fuel s).1.map key).Nodup := by
  have hwalk := nodup_walk (turns_turn p) fuel h
  unfold readBack
  split
  · next t ht => exact nodup_absorb (by simpa [ht] using hwalk)
  · next t ht => simpa [ht] using hwalk

/-- **A read that came to a short page has everything just when none of its bounds jumped.** -/
theorem readBack_complete (hinj : held.InjOn key) {fuel : Nat} {s : Place W} (hs : s.Behind stamp held)
    (h : (readBack key stamp limit p.page fuel s).2 = true) :
    (∀ w ∈ held, w ∈ (readBack key stamp limit p.page fuel s).1) ↔
      NeverStepsPast p (Place.turn key stamp limit p.page) fuel s := by
  have hwalk := walk_behind p hinj (turns_turn p) fuel hs
  unfold readBack at h ⊢
  split at h
  · next t ht =>
    simp only [Place.last, decide_eq_true_eq] at h
    simp only [ht, Place.last] at hwalk ⊢
    rcases hwalk with ⟨hn, hb⟩ | ⟨hn, hm⟩
    · exact iff_of_true (hb.all p hinj h) hn
    · exact iff_of_false (hm.not_all p hinj) hn
  · cases h

end Paging
