/-
When events signed for one address are strictly later than one another
(`strictly_later_iff`): when each tab that signs has seen the one before, on the relays, in its
own mirror or because its clock is past it. One tab on its own has (`one_tab`); a second one
may not, since its mirror is read from disk at boot only (`stale_mirror_ties`).
-/
import Nostrautica.App.Monotonic
import Nostrautica.App.CacheFacts

set_option linter.unusedSectionVars false

namespace Nostrautica.Monotonic

open Js Cache

section

variable {τ : Type} [DecidableEq τ] {w w' : World τ} {x : Act τ} {slot : Slot} {disk : Rows Int} {acts : List (Act τ)}

/-- Each event signed for a slot is strictly later than those signed for it before: no two
share a `created_at`. -/
def Increasing (w : World τ) : Prop := ∀ slot, (stamps w slot).Pairwise (· < ·)

/-- Where a tab signs, the last event signed for the slot is behind its clock, in its mirror's
watermark or on the relays. -/
def Seen (w : World τ) : Act τ → Prop
  | .sign t slot now relayAt => ∀ c ∈ (stamps w slot).getLast?,
    c < now ∨ c ≤ publishWatermark (w.pages t).tab slot.address slot.owner ∨ c ≤ relayAt
  | _ => True

/-! ## What a step signs -/

theorem pairwise_snoc {l : List Int} {c : Int} :
    (l ++ [c]).Pairwise (· < ·) ↔ l.Pairwise (· < ·) ∧ ∀ b ∈ l.getLast?, b < c := by
  rw [List.pairwise_append]
  constructor
  · rintro ⟨hl, -, hlt⟩
    exact ⟨hl, fun b hb => hlt b (List.mem_of_getLast? hb) c List.mem_cons_self⟩
  · rintro ⟨hl, hlast⟩
    refine ⟨hl, List.pairwise_singleton _ _, fun a ha b hb => ?_⟩
    rw [List.mem_singleton.1 hb]
    rcases List.eq_nil_or_concat l with rfl | ⟨l, d, rfl⟩
    · cases ha
    · have hd : d < c := hlast d (by simp)
      rw [List.concat_eq_append, List.pairwise_append] at hl
      rw [List.concat_eq_append, List.mem_append] at ha
      rcases ha with ha | ha
      · exact (hl.2.2 a ha d List.mem_cons_self).trans hd
      · exact List.mem_singleton.1 ha ▸ hd

/-- `created_at` passes a time just when the clock, the watermark or the relays do. -/
theorem lt_reserve {tab : Tab Int} {address owner : JsString} {c now relayAt : Int} :
    c < reserve tab address owner now relayAt ↔ c < now ∨ c ≤ publishWatermark tab address owner ∨ c ≤ relayAt := by
  simp only [reserve]
  omega

/-- A step that signs appends what it reserves; the others sign nothing. -/
theorem Step.signed (h : Step w x w') :
    (∃ t slot now relayAt, x = .sign t slot now relayAt ∧
      w'.signed = w.signed ++ [(slot, reserve (w.pages t).tab slot.address slot.owner now relayAt)]) ∨
    w'.signed = w.signed ∧ ∀ t slot now relayAt, x ≠ .sign t slot now relayAt := by
  cases x with
  | boot t => cases h; exact .inr ⟨rfl, fun _ _ _ _ h => by cases h⟩
  | cache t x =>
    simp only [Step, act] at h
    split at h
    · cases h
    · obtain ⟨v, -, rfl⟩ := Option.map_eq_some_iff.1 h
      exact .inr ⟨rfl, fun _ _ _ _ h => by cases h⟩
  | lock t slot =>
    simp only [Step, act] at h
    split at h <;> cases h
    exact .inr ⟨rfl, fun _ _ _ _ h => by cases h⟩
  | sign t slot now relayAt =>
    simp only [Step, act] at h
    split at h <;> cases h
    exact .inl ⟨t, slot, now, relayAt, rfl, rfl⟩
  | bump t slot =>
    simp only [Step, act] at h
    split at h
    · split at h
      · obtain ⟨v, -, rfl⟩ := Option.map_eq_some_iff.1 h
        exact .inr ⟨rfl, fun _ _ _ _ h => by cases h⟩
      · cases h
    · cases h
  | fail t slot =>
    simp only [Step, act] at h
    split at h <;> cases h
    exact .inr ⟨rfl, fun _ _ _ _ h => by cases h⟩

theorem stamps_snoc {s : Slot} {c : Int} (h : w'.signed = w.signed ++ [(s, c)]) :
    stamps w' slot = if s = slot then stamps w slot ++ [c] else stamps w slot := by
  simp only [stamps, h, List.filter_append, List.map_append]
  by_cases hs : s = slot <;> simp [hs]

/-- A step keeps the order just when the tab that signs has seen the event before. -/
theorem Step.increasing_iff (h : Step w x w') : Increasing w' ↔ Increasing w ∧ Seen w x := by
  rcases h.signed with ⟨t, slot, now, relayAt, rfl, hsigned⟩ | ⟨hsigned, hother⟩
  · simp only [Increasing, stamps_snoc hsigned]
    constructor
    · intro hinc
      have hslot := hinc slot
      rw [if_pos rfl, pairwise_snoc] at hslot
      refine ⟨fun s => ?_, fun c hc => lt_reserve.1 (hslot.2 c hc)⟩
      have hs := hinc s
      split at hs
      · exact (pairwise_snoc.1 hs).1
      · exact hs
    · rintro ⟨hinc, hseen⟩ s
      split
      · next hs =>
        subst hs
        exact pairwise_snoc.2 ⟨hinc slot, fun c hc => lt_reserve.2 (hseen c hc)⟩
      · exact hinc s
  · have hstamps : ∀ s, stamps w' s = stamps w s := fun s => by simp only [stamps, hsigned]
    simp only [Increasing, hstamps]
    refine (and_iff_left ?_).symm
    cases x with
    | sign t slot now relayAt => exact absurd rfl (hother t slot now relayAt)
    | _ => trivial

/-- **Events are strictly later in lock order** over a run of any tabs, whatever the clocks and
the relays say, just when at each signature the last event of the slot was behind the clock of
the tab, within its watermark or on the relays it read. -/
theorem strictly_later_iff (h : Run Step ({ disk := disk } : World τ) acts w) :
    Increasing w ↔ Run (fun w x w' => Step w x w' ∧ Seen w x) { disk := disk } acts w := by
  have hiff := h.holds_iff (I := fun _ => True) (Q := Increasing) (G := Seen)
    (fun ha hb => Option.some.inj (ha.symm.trans hb)) (fun _ _ => trivial) (fun _ ha => ha.increasing_iff) trivial
  refine hiff.trans (and_iff_right fun slot => ?_)
  exact List.Pairwise.nil

/-! ## The latest row wins -/

section

variable {δ : Type} {v v' : Cache.World δ} {y : Cache.Act δ} {k : Key} {c : Int} {rows : Rows δ}

/-- The mirror has a row at `k` with stamp `c` or a later one. -/
def Recorded (k : Key) (c : Int) (rows : Rows δ) : Prop := ∃ entry, look k rows = some entry ∧ c ≤ entry.stamp

/-- A row that is put where none later is keeps what is recorded. -/
theorem Recorded.put {k' : Key} {entry : Entry δ} (h : Recorded k c rows)
    (hlater : ∀ e, look k' rows = some e → e.stamp ≤ entry.stamp) : Recorded k c (put k' entry rows) := by
  obtain ⟨e, he, hc⟩ := h
  by_cases hk : k' = k
  · subst hk
    exact ⟨entry, by rw [look_put, if_pos rfl], hc.trans (hlater e he)⟩
  · exact ⟨e, by rw [look_put, if_neg hk, he], hc⟩

theorem Recorded.hydrateRow {wiped : Bool} {row : Key × Entry δ} (h : Recorded k c rows) :
    Recorded k c (hydrateRow wiped rows row) := by
  unfold Cache.hydrateRow
  split
  · exact h
  · split
    · exact h
    next hlive =>
      refine h.put fun e he => ?_
      rw [he, Option.any_some] at hlive
      simp only [ge_iff_le, decide_eq_true_eq, not_le] at hlive
      exact hlive.le

/-- A write lands on no later row. -/
theorem le_of_writes {tab : Tab δ} {key : JsString} {data : δ} {stamp : Int} {scope : Option JsString}
    {guardGeneration : Option Nat} {row : Key × Entry δ} (h : writes tab key data stamp scope guardGeneration = some row) :
    ∀ e, look row.1 tab.mirror = some e → e.stamp ≤ row.2.stamp := by
  intro e he
  unfold writes at h
  split at h
  · cases h
  · obtain ⟨s, -, h⟩ := Option.bind_eq_some_iff.1 h
    split at h
    · cases h
    next hlive =>
      cases h
      rw [he, Option.any_some] at hlive
      simpa using hlive

/-- What the cache does other than to remove rows keeps what is recorded. -/
theorem Recorded.act (h : Recorded k c v.tab.mirror) (hy : Cache.Step v y v') (hremove : ∀ keys, y ≠ .remove keys)
    (hclear : ∀ owner, y ≠ .clear owner) : Recorded k c v'.tab.mirror := by
  cases y with
  | signIn pubkey => cases hy; exact h
  | set key data stamp scope guardGeneration =>
    cases hy
    cases hrow : writes v.tab key data stamp scope guardGeneration with
    | none => exact h
    | some row => exact h.put (le_of_writes hrow)
  | remove keys => exact absurd rfl (hremove keys)
  | clear owner => exact absurd rfl (hclear owner)
  | beginHydration =>
    simp only [Cache.Step, Cache.act] at hy
    split at hy <;> cases hy <;> exact h
  | mergeDisk =>
    simp only [Cache.Step, Cache.act] at hy
    split at hy <;> cases hy
    exact List.foldlRecOn _ _ h fun _ hr _ _ => hr.hydrateRow
  | settle done =>
    simp only [Cache.Step, Cache.act] at hy
    split at hy <;> cases hy <;> exact h

end

/-! ## One tab -/

/-- Each row holds the time it is stamped with, as `bumpWatermark` writes it. -/
def Exact (rows : Rows Int) : Prop := ∀ row ∈ rows, row.2.data = row.2.stamp

structure AllExact (v : Cache.World Int) : Prop where
  mirror : Exact v.tab.mirror
  disk : Exact v.disk
  ops : ∀ k entry, .put k entry ∈ v.ops → entry.data = entry.stamp
  loaded : ∀ g all, v.loaded = some (g, all) → Exact all

section

variable {v v' : Cache.World Int} {y : Cache.Act Int} {rows all : Rows Int} {k : Key} {entry : Entry Int} {op : Op Int}

theorem Exact.put (h : Exact rows) (he : entry.data = entry.stamp) : Exact (put k entry rows) := by
  intro row hrow
  rcases mem_put hrow with rfl | hrow
  · exact he
  · exact h row hrow

theorem Exact.filter {p : Key × Entry Int → Bool} (h : Exact rows) : Exact (rows.filter p) :=
  fun row hrow => h row (List.mem_of_mem_filter hrow)

theorem Exact.hydrate {wiped : Bool} (h : Exact rows) (hall : Exact all) : Exact (all.foldl (hydrateRow wiped) rows) := by
  refine List.foldlRecOn _ _ h fun rows hrows row hrow => ?_
  unfold hydrateRow
  split
  · exact hrows
  · split
    · exact hrows
    · exact hrows.put (hall row hrow)

theorem Exact.apply (h : Exact rows) (hop : ∀ k entry, op = .put k entry → entry.data = entry.stamp) : Exact (op.apply rows) := by
  cases op with
  | put k entry =>
    simp only [Op.apply, putRow]
    split
    · split
      · exact h.put (hop k entry rfl)
      · exact h
    · exact h.put (hop k entry rfl)
  | delete keys => exact h.filter
  | deleteScope scope => exact h.filter
  | getAll startGen => exact h

theorem AllExact.started (h : AllExact v) (hop : ∀ k entry, op = .put k entry → entry.data = entry.stamp) :
    ∀ k entry, .put k entry ∈ v.ops ++ [op] → entry.data = entry.stamp := by
  intro k entry he
  rcases List.mem_append.1 he with he | he
  · exact h.ops k entry he
  · exact hop k entry (List.mem_singleton.1 he).symm

theorem AllExact.act (h : AllExact v) (hy : Cache.Step v y v')
    (hset : ∀ key data stamp scope g, y = .set key data stamp scope g → data = stamp) : AllExact v' := by
  cases y with
  | signIn pubkey => cases hy; exact ⟨h.mirror, h.disk, h.ops, h.loaded⟩
  | set key data stamp scope guardGeneration =>
    cases hy
    cases hrow : writes v.tab key data stamp scope guardGeneration with
    | none => exact h
    | some row =>
      have he : row.2.data = row.2.stamp := by
        unfold writes at hrow
        split at hrow
        · cases hrow
        · obtain ⟨s, -, hrow⟩ := Option.bind_eq_some_iff.1 hrow
          split at hrow <;> cases hrow
          exact hset _ _ _ _ _ rfl
      exact ⟨h.mirror.put he, h.disk, h.started fun _ _ hp => by cases hp; exact he, h.loaded⟩
  | remove keys => cases hy; exact ⟨h.mirror.filter, h.disk, h.started fun _ _ hp => (by cases hp), h.loaded⟩
  | clear owner => cases hy; exact ⟨h.mirror.filter, h.disk, h.started fun _ _ hp => (by cases hp), h.loaded⟩
  | beginHydration =>
    simp only [Cache.Step, Cache.act] at hy
    split at hy <;> cases hy
    · exact h
    · exact ⟨h.mirror, h.disk, h.started fun _ _ hp => (by cases hp), h.loaded⟩
  | mergeDisk =>
    simp only [Cache.Step, Cache.act] at hy
    split at hy <;> cases hy
    next hl => exact ⟨h.mirror.hydrate (h.loaded _ _ hl), h.disk, h.ops, fun _ _ hn => by cases hn⟩
  | settle done =>
    simp only [Cache.Step, Cache.act] at hy
    split at hy <;> cases hy
    · next hops =>
      refine ⟨h.mirror, h.disk, fun k e he => h.ops k e (hops ▸ List.mem_cons_of_mem _ he), fun g all hl => ?_⟩
      cases done with
      | false => exact h.loaded g all hl
      | true => cases hl; exact h.disk
    · next hops =>
      refine ⟨h.mirror, ?_, fun k e he => h.ops k e (hops ▸ List.mem_cons_of_mem _ he), h.loaded⟩
      cases done with
      | false => exact h.disk
      | true => exact h.disk.apply fun k e he => h.ops k e (hops ▸ he ▸ List.mem_cons_self)

end

/-- `t` alone acts, is not loaded again and removes no row of its cache. -/
def Alone (t : τ) : Act τ → Prop
  | .boot _ => False
  | .cache s y => s = t ∧ (∀ keys, y ≠ .remove keys) ∧ ∀ owner, y ≠ .clear owner
  | .lock s _ | .sign s _ _ _ | .bump s _ | .fail s _ => s = t

/-- The row of a slot's watermark. -/
def Slot.key (slot : Slot) : Key := ⟨slot.owner, watermarkKey slot.address⟩

/-- The last event signed for a slot is in the mirror of `t`, or the lock is held for it. -/
structure Ahead (t : τ) (w : World τ) : Prop where
  exact : AllExact (view w t)
  held : ∀ slot holder c, w.locks slot = some holder → holder.createdAt = some c → (stamps w slot).getLast? = some c
  recorded : ∀ slot, ∀ c ∈ (stamps w slot).getLast?, Recorded slot.key c (w.pages t).tab.mirror ∨
    ∃ holder, w.locks slot = some holder ∧ holder.createdAt = some c

theorem view_store {t : τ} {v : Cache.World Int} : view (store w t v) t = v := by
  simp only [view, store, Function.update_self]

theorem mem_of_look {rows : Rows Int} {k : Key} {entry : Entry Int} (h : look k rows = some entry) : (k, entry) ∈ rows := by
  induction rows with
  | nil => cases h
  | cons row rows ih =>
    rw [look] at h
    split at h
    · next hk =>
      cases h
      exact hk ▸ List.mem_cons_self
    · exact List.mem_cons_of_mem _ (ih h)

/-- What is recorded is within the watermark. -/
theorem Recorded.le_publishWatermark {tab : Tab Int} {c : Int} (h : Recorded slot.key c tab.mirror) (he : Exact tab.mirror) :
    c ≤ publishWatermark tab slot.address slot.owner := by
  obtain ⟨entry, hlook, hc⟩ := h
  have hget : cacheGet tab (watermarkKey slot.address) (some slot.owner) = some entry := hlook
  rw [publishWatermark, hget, Option.map_some, Option.getD_some]
  exact hc.trans (he _ (mem_of_look hlook)).ge

/-- A bump records what was signed. -/
theorem recorded_bump {c : Int} {v v' : Cache.World Int} (h : Cache.Step v (bumpWatermark slot.address c slot.owner) v') :
    Recorded slot.key c v'.tab.mirror := by
  cases h
  simp only [writes, Option.any_none, Bool.false_eq_true, if_false, resolveScope, Option.some_or, Option.bind_some]
  cases hlook : look ⟨slot.owner, watermarkKey slot.address⟩ v.tab.mirror with
  | none => exact ⟨⟨c, c⟩, by simp [setRow, look_put, Slot.key], le_refl c⟩
  | some entry =>
    by_cases hlater : entry.stamp > c
    · simp only [Option.any_some, decide_eq_true hlater, if_true]
      exact ⟨entry, hlook, hlater.le⟩
    · simp only [Option.any_some, decide_eq_false hlater, Bool.false_eq_true, if_false]
      exact ⟨⟨c, c⟩, by simp [setRow, look_put, Slot.key], le_refl c⟩

theorem Ahead.step {t : τ} (hw : Ahead t w) (ht : Alone t x) (h : Step w x w') : Ahead t w' := by
  cases x with
  | boot s => exact absurd ht id
  | cache s y =>
    obtain ⟨rfl, hremove, hclear⟩ := ht
    simp only [Step, act] at h
    split at h
    · cases h
    next hset =>
      obtain ⟨v, hv, rfl⟩ := Option.map_eq_some_iff.1 h
      refine ⟨?_, hw.held, fun slot c hc => (hw.recorded slot c hc).imp (fun hr => ?_) id⟩
      · rw [view_store]
        exact hw.exact.act hv fun _ _ _ _ _ he => absurd (he ▸ rfl) hset
      · simp only [store, Function.update_self]
        exact Recorded.act hr hv hremove hclear
  | lock s slot₀ =>
    simp only [Step, act] at h
    split at h <;> cases h
    next hfree =>
    refine ⟨hw.exact, fun slot holder c hl hc => ?_, fun slot c hc => ?_⟩
    · by_cases hs : slot = slot₀
      · subst hs
        simp only [Function.update_self] at hl
        cases hl
        cases hc
      · simp only [Function.update_of_ne hs] at hl
        exact hw.held slot holder c hl hc
    · refine (hw.recorded slot c hc).imp id fun ⟨holder, hl, hh⟩ => ?_
      have hs : slot ≠ slot₀ := fun he => by
        rw [he, hfree] at hl
        cases hl
      exact ⟨holder, by simp only [Function.update_of_ne hs, hl], hh⟩
  | sign s slot₀ now relayAt =>
    cases ht
    simp only [Step, act] at h
    split at h
    · next hheld =>
      have hw' := Option.some.inj h
      have hstamps : ∀ slot, stamps w' slot = if slot₀ = slot then
          stamps w slot ++ [reserve (w.pages t).tab slot₀.address slot₀.owner now relayAt] else stamps w slot :=
        fun _ => stamps_snoc (congrArg World.signed hw').symm
      have hlocks := congrArg World.locks hw'
      have hpages := congrArg World.pages hw'
      refine ⟨?_, fun slot holder c hl hc => ?_, fun slot c hc => ?_⟩
      · rw [← hw']
        exact hw.exact
      · rw [← hlocks] at hl
        rw [hstamps]
        by_cases hs : slot = slot₀
        · subst hs
          simp only [Function.update_self] at hl
          cases hl
          rw [if_pos rfl, List.getLast?_append, List.getLast?_singleton, Option.some_or]
          exact hc
        · simp only [Function.update_of_ne hs] at hl
          rw [if_neg (Ne.symm hs)]
          exact hw.held slot holder c hl hc
      · rw [hstamps] at hc
        rw [← hlocks, ← hpages]
        by_cases hs : slot = slot₀
        · subst hs
          rw [if_pos rfl, List.getLast?_append, List.getLast?_singleton, Option.some_or] at hc
          exact .inr ⟨_, Function.update_self _ _ _, hc⟩
        · rw [if_neg (Ne.symm hs)] at hc
          simp only [Function.update_of_ne hs]
          exact hw.recorded slot c hc
    · cases h
  | bump s slot₀ =>
    cases ht
    simp only [Step, act] at h
    split at h
    · next holder createdAt hheld =>
      split at h
      · next hholder =>
        obtain ⟨v, hv, rfl⟩ := Option.map_eq_some_iff.1 h
        have hlast := hw.held slot₀ _ createdAt hheld rfl
        have hexact : AllExact (view (store w t v) t) := by
          rw [view_store]
          exact hw.exact.act hv fun _ _ _ _ _ he => by cases he; rfl
        refine ⟨hexact, fun slot holder c hl hc => ?_, fun slot c hc => ?_⟩
        · by_cases hs : slot = slot₀
          · simp only [hs, Function.update_self] at hl
            cases hl
          · simp only [Function.update_of_ne hs] at hl
            exact hw.held slot holder c hl hc
        · simp only [store, Function.update_self]
          by_cases hs : slot = slot₀
          · subst hs
            cases hlast.symm.trans hc
            exact .inl (recorded_bump hv)
          · simp only [Function.update_of_ne hs]
            exact (hw.recorded slot c hc).imp
              (fun hr => Recorded.act hr hv (fun _ he => by cases he) fun _ he => by cases he) id
      · cases h
    · cases h
  | fail s slot₀ =>
    simp only [Step, act] at h
    split at h <;> cases h
    next hheld =>
    refine ⟨hw.exact, fun slot holder c hl hc => ?_, fun slot c hc => ?_⟩
    · by_cases hs : slot = slot₀
      · simp only [hs, Function.update_self] at hl
        cases hl
      · simp only [Function.update_of_ne hs] at hl
        exact hw.held slot holder c hl hc
    · refine (hw.recorded slot c hc).imp id fun ⟨holder, hl, hh⟩ => ?_
      have hs : slot ≠ slot₀ := fun he => by
        rw [he, hheld] at hl
        cases hl
        cases hh
      exact ⟨holder, by simp only [Function.update_of_ne hs, hl], hh⟩

/-- Where `t` signs it has seen the last event, which it signed itself. -/
theorem Ahead.seen {t : τ} (hw : Ahead t w) (ht : Alone t x) (h : Step w x w') : Seen w x := by
  cases x with
  | sign s slot now relayAt =>
    cases ht
    simp only [Step, act] at h
    split at h
    · next hheld =>
      intro c hc
      rcases hw.recorded slot c hc with hr | ⟨holder, hl, hh⟩
      · exact .inr (.inl (hr.le_publishWatermark hw.exact.mirror))
      · rw [hheld] at hl
        cases hl
        cases hh
    · cases h
  | _ => trivial

theorem ahead_start {t : τ} (hdisk : Exact disk) : Ahead t ({ disk := disk } : World τ) :=
  ⟨⟨fun _ h => (by cases h), hdisk, fun _ _ h => (by cases h), fun _ _ h => by cases h⟩,
    fun _ _ _ h => (by cases h), fun _ _ h => by cases h⟩

theorem run_seen {t : τ} (h : Run (fun w x w' => Step w x w' ∧ Alone t x) w acts w') (hw : Ahead t w) :
    Run (fun w x w' => Step w x w' ∧ Seen w x) w acts w' := by
  induction h with
  | nil => exact .nil
  | cons hx _ ih => exact .cons ⟨hx.1, hw.seen hx.2 hx.1⟩ (ih (hw.step hx.2 hx.1))

/-- **One tab keeps the order**, whatever its clock does and whatever the relays answer, while
no row of its cache is removed and it is not loaded again. -/
theorem one_tab {t : τ} (hdisk : Exact disk)
    (h : Run (fun w x w' => Step w x w' ∧ Alone t x) ({ disk := disk } : World τ) acts w) : Increasing w := by
  have hseen := run_seen h (ahead_start hdisk)
  exact (strictly_later_iff (hseen.mono fun _ _ _ h => h.1)).2 hseen

end

/-! ## Two runs -/

namespace Small

/-- The settings of an account. -/
def settings : Slot := ⟨js "ada", js "30078:ada:settings"⟩

/-- One publication, in the second `now`, with nothing on the relays. -/
def publish (t : Bool) (now : Int) : List (Act Bool) :=
  [.lock t settings, .sign t settings now 0, .bump t settings, .cache t (.settle true)]

/-- A tab reads the disk at boot. -/
def boot (t : Bool) : List (Act Bool) :=
  [.boot t, .cache t .beginHydration, .cache t (.settle true), .cache t .mergeDisk]

/-- A tab publishes twice in one second. -/
def twice : List (Act Bool) := publish false 100 ++ publish false 100

theorem settles : Alone false (.cache false (.settle true)) := ⟨rfl, fun _ h => (by cases h), fun _ h => by cases h⟩

theorem alone_twice : Run.Guarded act (fun _ => Alone false) ({} : World Bool) twice :=
  ⟨rfl, fun _ _ => ⟨rfl, fun _ _ => ⟨rfl, fun _ _ => ⟨settles, fun _ _ => ⟨rfl, fun _ _ => ⟨rfl, fun _ _ =>
    ⟨rfl, fun _ _ => ⟨settles, fun _ _ => trivial⟩⟩⟩⟩⟩⟩⟩⟩

end Small

theorem strictly_later_twice : ∃ w, Run Step ({} : World Bool) Small.twice w ∧ Increasing w ∧ stamps w Small.settings = [100, 101] := by
  have hrun : Run Step ({} : World Bool) Small.twice _ := Run.of_exec rfl
  have hdisk : Exact [] := fun _ h => by cases h
  have hseen := run_seen (Run.of_guarded rfl Small.alone_twice) (ahead_start hdisk)
  exact ⟨_, hrun, (strictly_later_iff hrun).2 hseen, rfl⟩

/-- A second tab, which was loaded before the first one published, signs for the same second:
its mirror has no watermark, though the row is on disk. -/
theorem stale_mirror_ties : ∃ w, Run Step ({} : World Bool)
    (Small.boot false ++ Small.boot true ++ Small.publish false 100 ++ Small.publish true 100) w ∧
    stamps w Small.settings = [100, 100] ∧ ¬Increasing w := by
  refine ⟨_, Run.of_exec rfl, rfl, fun h => ?_⟩
  exact absurd (h Small.settings) (by decide)

end Nostrautica.Monotonic
