/-
A published talk stays removable (`talks_removable`), in runs in which the row of
a talk knows every address that is up when one of them is to go. `Sound` is what
the acts keep, `Timely` what they have to avoid.
-/
import Nostrautica.Coordinator.Talks

set_option linter.unusedSectionVars false

namespace Nostrautica.Talks

open Tasks

variable {s s' : Store} {w w' : World} {x : Act} {xs : List Act} {k j n v u : Nat} {pc q : Pc} {o : Outcome} {es : List Effect}
  {next : Option Pc} {row : TalkRow} {listed : Option Nat}

/-- A row that says published records the version of the newest 31610 that is
live; and of a talk that is gone every address is deleted. -/
structure Removable (s : Store) : Prop where
  recorded : ∀ row v, s.row = some row → row.status = .published → s.newestLive = some v → row.published_eck_id = some v
  deleted : s.gone = true → ∀ v, s.up v = false

/-! ## The invariant -/

/-- The version a task in `publishTalk` publishes. -/
def Pc.sends : Pc → Option Nat
  | .publishing v | .refreshing v | .republishing _ v => some v
  | _ => none

/-- The task is about to delete what is up. -/
def Pc.withdraws : Pc → Bool
  | .rejecting _ | .expiring _ => true
  | _ => false

/-- What holds where a task waits. -/
def Fine (s : Store) : Pc → Prop
  | .publishing v | .refreshing v =>
    (v = s.currentEck ∧ s.everPublished v = true ∧ s.row.isSome = true ∧ s.gone = false) ∧ ∀ u, s.up u = true → u = v
  | .republishing listed v =>
    (v = s.currentEck ∧ s.everPublished v = true ∧ s.row.isSome = true ∧ s.gone = false) ∧ (∀ u, listed = some u → u ≤ s.currentEck) ∧
      ∀ row, s.row = some row → row.published_eck_id = listed ∨ row.published_eck_id = some v
  | .turn listed => ∀ u, listed = some u → u ≤ s.currentEck
  | .rejecting v => ∀ u, s.up u = true → u = v
  | .expiring vs => ∀ u, s.up u = true → u ∈ vs
  | .cleaning u => u < s.currentEck ∧ ∀ row, s.row = some row → row.published_eck_id ≠ some u
  | .ordered _ | .rotating => True

/-- What holds of the store. -/
structure Kept (s : Store) : Prop where
  newest : ∀ row v, s.row = some row → s.newestLive = some v → row.published_eck_id = some v
  none : s.row = none → ∀ v, s.up v = false
  ever : ∀ v, s.up v = true → 1 ≤ v ∧ v ≤ s.currentEck ∧ s.everPublished v = true
  current : 1 ≤ s.currentEck
  row : ∀ row, s.row = some row → (∀ v, row.published_eck_id = some v → v ≤ s.currentEck) ∧
    (row.status = .published → row.published_eck_id.isSome = true)
  gone : s.gone = true → (∀ v, s.up v = false) ∧ ∀ row, s.row = some row → row.status ≠ .published

/-- Every address that is up is on the row or about to be deleted, and nothing is
published while what is up is withdrawn. -/
structure Sound (w : World) : Prop where
  kept : Kept w.store
  addressed : ∀ v, w.store.up v = true →
    (∃ row, w.store.row = some row ∧ row.published_eck_id = some v) ∨ ∃ k, w.tasks k = some (.cleaning v)
  fine : ∀ k pc, w.tasks k = some pc → Fine w.store pc
  quiet : ∀ j k pc q, w.tasks j = some pc → w.tasks k = some q → pc.withdraws = true → q.sends = none

theorem Sound.removable (hw : Sound w) : Removable w.store :=
  ⟨fun row v hr _ hv => hw.kept.newest row v hr hv, fun hg => (hw.kept.gone hg).1⟩

/-! ## What a timely act does -/

/-- No task is in `publishTalk`. -/
def Unsent (w : World) : Prop := ∀ j pc, w.tasks j = some pc → pc.sends = none

/-- Nothing is withdrawn. -/
def Standing (w : World) : Prop := ∀ j pc, w.tasks j = some pc → pc.withdraws = false

/-- The row says published, or nothing is up. -/
def Current (s : Store) : Prop := (∃ row, s.row = some row ∧ row.status = .published) ∨ ∀ v, s.up v = false

/-- The address is up, and the row records it. -/
def OnRow (s : Store) (v : Nat) : Prop := s.up v = true ∧ ∃ row, s.row = some row ∧ row.published_eck_id = some v

/-- The task goes on, to its next await or until the process ends. -/
def Act.goesOn (x : Act) (k : Nat) (o : Outcome) : Prop := x = .settle k o ∨ ∃ n, x = .crashDuring k o n

/-- The acts find the row to know what is up:
- a version is minted only while no publish of the talk is under way;
- a rejection and an expiry begin only then too, a rejection while no rotation is
  about to delete an address, and where the row says published or nothing is up;
- a publish begins only while nothing is withdrawn; by a command or a refresh,
  where at most the current version's address is up; by a rotation, where the
  address it listed is still up and on the row;
- a publish that is stored but not recorded is at the address the row has;
- and a rotation deletes what it is about to delete, or has just superseded. -/
structure Timely (w : World) (x : Act) : Prop where
  mint : ∀ k, x = .rotate k → Unsent w
  reject : ∀ k o, x.goesOn k o → w.tasks k = some (.ordered .reject) → w.store.row.isSome = true →
    Unsent w ∧ (∀ j v, w.tasks j ≠ some (.cleaning v)) ∧ Current w.store
  expire : ∀ k, x = .expire k → Unsent w ∧ Current w.store
  publish : ∀ k o, (x = .refresh k ∨ x = .settle k o ∧ w.tasks k = some (.ordered .publish)) → w.store.row.isSome = true →
    Standing w ∧ ∀ v, w.store.up v = true → v = w.store.currentEck
  turn : ∀ k o listed, x = .settle k o → w.tasks k = some (.turn listed) → w.store.row.isSome = true →
    Standing w ∧ ∃ v, listed = some v ∧ OnRow w.store v
  unrecorded : ∀ k pc v, w.tasks k = some pc → pc.sends = some v →
    (x = .settle k .ambiguous ∨ x = .crashDuring k .stored 1 ∨ ∃ n, x = .crashDuring k .ambiguous (n + 1)) → OnRow w.store v
  clean : ∀ k v, w.tasks k = some (.cleaning v) → w.store.up v = true →
    x ≠ .settle k .lost ∧ x ≠ .crash ∧ ∀ j o n, x ≠ .crashDuring j o n
  superseded : ∀ k u v n, w.tasks k = some (.republishing (some u) v) → u ≠ v → w.store.up u = true →
    x ≠ .crashDuring k .stored (n + 2)

/-! ## The store -/

theorem newestLive_stored (s : Store) (v : Nat) : (s.apply (.stored v)).newestLive = some v := by
  simp [Store.apply, Store.newestLive]

theorem kept_built (h : Kept s) : Kept (s.apply (.built v)) := by
  refine ⟨h.newest, h.none, fun u hu => ?_, h.current, h.row, h.gone⟩
  obtain ⟨h1, h2, h3⟩ := h.ever u hu
  refine ⟨h1, h2, ?_⟩
  simp only [Store.apply, Function.update_apply]
  split <;> simp [h3]

theorem kept_commanded (h : Kept s) : Kept (s.apply .commanded) := ⟨h.newest, h.none, h.ever, h.current, h.row, nofun⟩

/-- Addresses go that the row does not have. -/
theorem kept_cleaned (h : Kept s) (hv : ∀ row, s.row = some row → row.published_eck_id ≠ some v) :
    Kept (s.apply (.deleted [v])) := by
  have hup : ∀ u, (s.apply (.deleted [v])).up u = true → s.up u = true ∧ u ≠ v := by
    intro u hu
    simpa [Store.apply] using hu
  refine ⟨fun row u hr hn => ?_, fun hr u => ?_, fun u hu => h.ever u (hup u hu).1, h.current, h.row, fun hg => ?_⟩
  · -- the newest that is live stays it, for the row has it
    cases hl : s.newestLive with
    | none =>
      simp only [Store.newestLive, List.find?_eq_none] at hl hn
      obtain ⟨hup', hmem⟩ := (⟨List.find?_some hn, List.mem_of_find?_eq_some hn⟩ : _ ∧ _)
      exact absurd (hup u hup').1 (hl u hmem)
    | some y =>
      have hy := h.newest row y hr hl
      have hyv : y ≠ v := fun hyv => hv row hr (hyv ▸ hy)
      rw [Store.newestLive, List.find?_eq_some_iff_append] at hl
      obtain ⟨hupy, as, bs, hst, has⟩ := hl
      have hfind : (s.apply (.deleted [v])).newestLive = some y := by
        rw [Store.newestLive, List.find?_eq_some_iff_append]
        refine ⟨by simp [Store.apply, hupy, hyv], as, bs, hst, fun a ha => ?_⟩
        have ha := has a ha
        simp only [Bool.not_eq_true', Store.apply] at ha ⊢
        simp [ha]
      rw [hn] at hfind
      exact hfind ▸ hy
  · simp [Store.apply, h.none hr u]
  · obtain ⟨hall, hst⟩ := h.gone hg
    exact ⟨fun u => by simp [Store.apply, hall u], hst⟩

/-- Nothing is up any more. -/
theorem kept_withdrawn {vs : List Nat} (h : Kept s) (hv : ∀ u, s.up u = true → u ∈ vs) :
    Kept (s.apply (.deleted vs)) ∧ ∀ u, (s.apply (.deleted vs)).up u = false := by
  have hup : ∀ u, (s.apply (.deleted vs)).up u = false := by
    intro u
    simp only [Store.apply, Bool.and_eq_false_iff, Bool.not_eq_false', List.contains_iff_mem]
    cases hu : s.up u with
    | false => exact .inl rfl
    | true => exact .inr (hv u hu)
  refine ⟨⟨fun row u _ hn => ?_, fun _ => hup, fun u hu => ?_, h.current, h.row, fun hg => ⟨hup, (h.gone hg).2⟩⟩, hup⟩
  · have := List.find?_some hn
    rw [hup u] at this
    cases this
  · rw [hup u] at hu
    cases hu

theorem newestLive_eq_none (h : ∀ v, s.up v = false) : s.newestLive = none := by
  simp [Store.newestLive, h]

theorem kept_setRejected (h : Kept s) (hup : ∀ v, s.up v = false) : Kept (s.apply .setRejected) := by
  have hrow : ∀ row, (s.apply .setRejected).row = some row → ∃ row', s.row = some row' ∧ row = { row' with status := .rejected } := by
    intro row hr
    obtain ⟨row', hr', rfl⟩ := Option.map_eq_some_iff.mp hr
    exact ⟨row', hr', rfl⟩
  refine ⟨fun row v _ hn => ?_, fun _ => hup, h.ever, h.current, fun row hr => ?_, fun _ => ⟨hup, fun row hr => ?_⟩⟩
  · have := newestLive_eq_none (s := s.apply .setRejected) hup
    rw [this] at hn
    cases hn
  · obtain ⟨row', hr', rfl⟩ := hrow row hr
    exact ⟨(h.row row' hr').1, nofun⟩
  · obtain ⟨row', hr', rfl⟩ := hrow row hr
    nofun

theorem kept_purge (h : Kept s) (hup : ∀ v, s.up v = false) : Kept (s.apply .purge) :=
  ⟨nofun, fun _ => hup, h.ever, h.current, nofun, fun _ => ⟨hup, nofun⟩⟩

theorem kept_submitted (h : Kept s) : Kept s.submitted := by
  have hrow : ∀ row, s.submitted.row = some row → row.status = .pending ∧ row.published_eck_id = s.row.bind (·.published_eck_id) := by
    intro row hr
    cases hr
    exact ⟨rfl, rfl⟩
  refine ⟨fun row v hr hn => ?_, nofun, h.ever, h.current, fun row hr => ⟨fun v hv => ?_, fun hst => ?_⟩, fun hg => ⟨(h.gone hg).1, fun row hr => ?_⟩⟩
  · rw [(hrow row hr).2]
    cases hs : s.row with
    | none =>
      have := newestLive_eq_none (h.none hs)
      rw [show s.submitted.newestLive = s.newestLive from rfl, this] at hn
      cases hn
    | some row' => exact h.newest row' v hs hn
  · rw [(hrow row hr).2] at hv
    obtain ⟨row', hs, hv⟩ := Option.bind_eq_some_iff.mp hv
    exact (h.row row' hs).1 v hv
  · rw [(hrow row hr).1] at hst
    cases hst
  · rw [(hrow row hr).1]
    nofun

/-- A publish stored at the address the row has changes nothing but the order. -/
theorem kept_stored (h : Kept s) (hv : OnRow s v) : Kept (s.apply (.stored v)) ∧ (s.apply (.stored v)).up = s.up := by
  have hup : (s.apply (.stored v)).up = s.up := by
    simp only [Store.apply]
    exact Function.update_eq_self_iff.mpr hv.1.symm
  obtain ⟨hupv, row, hr, hid⟩ := hv
  refine ⟨⟨fun row' u hr' hn => ?_, fun hr' => ?_, fun u hu => h.ever u (hup ▸ hu), h.current, h.row, fun hg => ?_⟩, hup⟩
  · rw [newestLive_stored] at hn
    cases hn
    cases hr.symm.trans hr'
    exact hid
  · cases hr.symm.trans hr'
  · obtain ⟨hall, -⟩ := h.gone hg
    rw [hall v] at hupv
    cases hupv

/-- A publish of the current version is stored and recorded. -/
theorem kept_published (h : Kept s) (hever : s.everPublished s.currentEck = true) (hr : s.row.isSome = true) (hg : s.gone = false) :
    Kept (rules.run s [.stored s.currentEck, .setPublished]) := by
  obtain ⟨row₀, hr₀⟩ := Option.isSome_iff_exists.mp hr
  have hrow : (rules.run s [.stored s.currentEck, .setPublished]).row = some ⟨.published, some s.currentEck⟩ := by
    simp [rules, Store.apply, hr₀]
  refine ⟨fun row v hr' hn => ?_, fun hr' => ?_, fun u hu => ?_, h.current, fun row hr' => ?_, fun hg' => ?_⟩
  · cases hrow.symm.trans hr'
    rw [show (rules.run s [.stored s.currentEck, .setPublished]).newestLive = (s.apply (.stored s.currentEck)).newestLive from rfl,
      newestLive_stored] at hn
    exact hn
  · cases hrow.symm.trans hr'
  · have hu : Function.update s.up s.currentEck true u = true := hu
    rw [Function.update_apply] at hu
    split at hu
    next huc =>
      rw [huc]
      exact ⟨h.current, le_rfl, hever⟩
    · exact h.ever u hu
  · cases hrow.symm.trans hr'
    exact ⟨fun v hv => by cases hv; exact le_rfl, fun _ => rfl⟩
  · rw [show (rules.run s [.stored s.currentEck, .setPublished]).gone = s.gone from rfl, hg] at hg'
    cases hg'

/-! ## The tasks -/

/-- No more is up, and the row has the address it had. -/
structure Shrinks (s s' : Store) : Prop where
  current : s'.currentEck = s.currentEck
  ever : ∀ v, s.everPublished v = true → s'.everPublished v = true
  up : ∀ v, s'.up v = true → s.up v = true
  row : ∀ row, s'.row = some row →
    (∃ row', s.row = some row' ∧ row'.published_eck_id = row.published_eck_id) ∨ s.row = none ∧ row.published_eck_id = none

/-- Where no more is up a task is fine, if one that publishes still has a row. -/
theorem Fine.shrinks (h : Fine s pc) (hs : Shrinks s s') (hsend : pc.sends ≠ none → s'.row.isSome = true ∧ s'.gone = false) :
    Fine s' pc := by
  cases pc with
  | ordered | rotating => trivial
  | publishing v | refreshing v =>
    obtain ⟨hr, hg⟩ := hsend (by simp [Pc.sends])
    exact ⟨⟨h.1.1.trans hs.current.symm, hs.ever v h.1.2.1, hr, hg⟩, fun u hu => h.2 u (hs.up u hu)⟩
  | republishing listed v =>
    obtain ⟨hr, hg⟩ := hsend (by simp [Pc.sends])
    refine ⟨⟨h.1.1.trans hs.current.symm, hs.ever v h.1.2.1, hr, hg⟩, fun u hu => hs.current ▸ h.2.1 u hu, fun row hrow => ?_⟩
    rcases hs.row row hrow with ⟨row', hr', hid⟩ | ⟨hnone, -⟩
    · rw [← hid]
      exact h.2.2 row' hr'
    · have hr := h.1.2.2.1
      rw [hnone] at hr
      cases hr
  | turn listed => exact fun u hu => hs.current ▸ h u hu
  | rejecting v => exact fun u hu => h u (hs.up u hu)
  | expiring vs => exact fun u hu => h u (hs.up u hu)
  | cleaning u =>
    refine ⟨hs.current ▸ h.1, fun row hrow => ?_⟩
    rcases hs.row row hrow with ⟨row', hr', hid⟩ | ⟨-, hid⟩
    · rw [← hid]
      exact h.2 row' hr'
    · simp [hid]

/-- A publish of the current version leaves the other tasks fine, if none withdraws. -/
theorem Fine.published (h : Fine s pc) (hw : pc.withdraws = false) :
    Fine (rules.run s [.stored s.currentEck, .setPublished]) pc := by
  have hrow : ∀ row, (rules.run s [.stored s.currentEck, .setPublished]).row = some row → row.published_eck_id = some s.currentEck := by
    intro row hr
    obtain ⟨row', -, rfl⟩ := Option.map_eq_some_iff.mp hr
    rfl
  have hsome : (rules.run s [.stored s.currentEck, .setPublished]).row.isSome = s.row.isSome := by
    cases hs : s.row <;> simp [rules, Store.apply, hs]
  cases pc with
  | ordered | rotating => trivial
  | publishing v | refreshing v =>
    obtain ⟨⟨hv, he, hr, hg⟩, hup⟩ := h
    refine ⟨⟨hv, he, hsome ▸ hr, hg⟩, fun u hu => ?_⟩
    have hu : Function.update s.up s.currentEck true u = true := hu
    rw [Function.update_apply] at hu
    split at hu
    next huc => rw [huc, hv]
    · exact hup u hu
  | republishing listed v =>
    obtain ⟨⟨hv, he, hr, hg⟩, hl, -⟩ := h
    exact ⟨⟨hv, he, hsome ▸ hr, hg⟩, hl, fun row hrow' => .inr (by rw [hrow row hrow', hv])⟩
  | turn listed => exact h
  | rejecting | expiring => cases hw
  | cleaning u =>
    refine ⟨h.1, fun row hr => ?_⟩
    rw [hrow row hr]
    exact fun hu => absurd (Option.some.inj hu) h.1.ne'

/-- A task goes on to a point where it is fine. -/
theorem Sound.advance (hw : Sound w) (hs : Kept (rules.run w.store es))
    (ha : ∀ v, (rules.run w.store es).up v = true →
      (∃ row, (rules.run w.store es).row = some row ∧ row.published_eck_id = some v) ∨ next = some (.cleaning v) ∨
        ∃ j, j ≠ k ∧ w.tasks j = some (.cleaning v))
    (hn : ∀ q, next = some q → Fine (rules.run w.store es) q)
    (ho : ∀ j q, j ≠ k → w.tasks j = some q → Fine (rules.run w.store es) q)
    (hq : ∀ q, next = some q → (q.withdraws = true → Unsent w) ∧ (q.sends ≠ none → Standing w)) :
    Sound (rules.advance w k es next) := by
  have hother : ∀ {j}, j ≠ k → (rules.advance w k es next).tasks j = w.tasks j := fun hj => by
    rw [Rules.advance_tasks, if_neg hj]
  have hself : (rules.advance w k es next).tasks k = next := by rw [Rules.advance_tasks, if_pos rfl]
  refine ⟨hs, fun v hv => ?_, fun j q hj => ?_, fun i j pc q hi hj hpc => ?_⟩
  · rcases ha v hv with h | h | ⟨j, hjk, hj⟩
    · exact .inl h
    · exact .inr ⟨k, hself.trans h⟩
    · exact .inr ⟨j, (hother hjk).trans hj⟩
  · by_cases hjk : j = k
    · subst hjk
      exact hn q (hself.symm.trans hj)
    · exact ho j q hjk ((hother hjk).symm.trans hj)
  · by_cases hik : i = k
    · subst hik
      have hnext := hself.symm.trans hi
      by_cases hji : j = i
      · rw [hji] at hj
        cases hnext.symm.trans (hself.symm.trans hj)
        cases pc <;> first | rfl | cases hpc
      · exact (hq pc hnext).1 hpc j q ((hother hji).symm.trans hj)
    · have hold := (hother hik).symm.trans hi
      by_cases hjk : j = k
      · subst hjk
        by_contra hsends
        have := (hq q (hself.symm.trans hj)).2 hsends i pc hold
        rw [this] at hpc
        cases hpc
      · exact hw.quiet i j pc q hold ((hother hjk).symm.trans hj) hpc

/-- A new task, where the store shrinks at most. -/
theorem Sound.begin (hw : Sound w) (h : begin_ { w with store := s } k pc = some w') (hs : Kept s) (hsh : Shrinks w.store s)
    (hrow : ∀ v row, w.store.row = some row → row.published_eck_id = some v → s.up v = true →
      ∃ row', s.row = some row' ∧ row'.published_eck_id = some v)
    (hsend : ∀ j q, w.tasks j = some q → q.sends ≠ none → s.row.isSome = true ∧ s.gone = false) (hn : Fine s pc)
    (hq : (pc.withdraws = true → Unsent w) ∧ (pc.sends ≠ none → Standing w)) : Sound w' := by
  simp only [begin_] at h
  split at h <;> cases h
  next hk =>
    have hk : w.tasks k = none := by simpa using hk
    have hw' : Sound (rules.advance { w with store := s } k [] (some pc)) := by
      have hsound : Sound { w with store := s } := by
        refine ⟨hs, fun v hv => ?_, fun j q hj => (hw.fine j q hj).shrinks hsh (hsend j q hj), hw.quiet⟩
        rcases hw.addressed v (hsh.up v hv) with ⟨row, hr, hid⟩ | h
        · exact .inl (hrow v row hr hid hv)
        · exact .inr h
      refine hsound.advance hs (fun v hv => ?_) (fun q hq => by cases hq; exact hn) (fun j q _ hj => hsound.fine j q hj)
        (fun q hq' => by cases hq'; exact hq)
      rcases hsound.addressed v hv with h | ⟨j, hj⟩
      · exact .inl h
      · refine .inr (.inr ⟨j, fun hjk => ?_, hj⟩)
        rw [hjk] at hj
        cases hk.symm.trans hj
    exact ⟨hw'.kept, hw'.addressed, hw'.fine, hw'.quiet⟩

/-- A task goes on where the store shrinks at most. -/
theorem Sound.shrink (hw : Sound w) (hk : w.tasks k = some pc) (hs : Kept (rules.run w.store es))
    (hsh : Shrinks w.store (rules.run w.store es))
    (hrow : ∀ v row, w.store.row = some row → row.published_eck_id = some v → (rules.run w.store es).up v = true →
      ∃ row', (rules.run w.store es).row = some row' ∧ row'.published_eck_id = some v)
    (hsend : ∀ j q, j ≠ k → w.tasks j = some q → q.sends ≠ none →
      (rules.run w.store es).row.isSome = true ∧ (rules.run w.store es).gone = false)
    (hc : ∀ v, pc = .cleaning v → (rules.run w.store es).up v = false)
    (hn : ∀ q, next = some q → Fine (rules.run w.store es) q)
    (hq : ∀ q, next = some q → (q.withdraws = true → Unsent w) ∧ (q.sends ≠ none → Standing w)) :
    Sound (rules.advance w k es next) := by
  refine hw.advance hs (fun v hv => ?_) hn (fun j q hjk hj => (hw.fine j q hj).shrinks hsh (hsend j q hjk hj)) hq
  rcases hw.addressed v (hsh.up v hv) with ⟨row, hr, hid⟩ | ⟨j, hj⟩
  · exact .inl (hrow v row hr hid hv)
  · refine .inr (.inr ⟨j, fun hjk => ?_, hj⟩)
    rw [hjk] at hj
    rw [hc v (Option.some.inj (hk.symm.trans hj))] at hv
    cases hv

theorem shrinks_refl : Shrinks s s := ⟨rfl, fun _ h => h, fun _ h => h, fun row h => .inl ⟨row, h, rfl⟩⟩

/-- A task that sends has a row, and the talk is not gone. -/
theorem Fine.sends (h : Fine s pc) (hp : pc.sends ≠ none) : s.row.isSome = true ∧ s.gone = false := by
  cases pc with
  | publishing | refreshing | republishing => exact ⟨h.1.2.2.1, h.1.2.2.2⟩
  | ordered | rotating | turn | rejecting | expiring | cleaning => exact absurd rfl hp

/-- A task goes on, or ends, with nothing done. -/
theorem Sound.idle (hw : Sound w) (hk : w.tasks k = some pc) (hc : ∀ v, pc = .cleaning v → w.store.up v = false)
    (hn : ∀ q, next = some q → Fine w.store q)
    (hq : ∀ q, next = some q → (q.withdraws = true → Unsent w) ∧ (q.sends ≠ none → Standing w)) :
    Sound (rules.advance w k [] next) :=
  hw.shrink hk (show Kept (rules.run w.store []) from hw.kept) shrinks_refl (fun _ row hr hid _ => ⟨row, hr, hid⟩)
    (fun j q _ hj hs => (hw.fine j q hj).sends hs) hc hn hq

/-! ## The acts -/

/-- Every address that is up is on the row. -/
def Held (s : Store) : Prop := ∀ v, s.up v = true → ∃ row, s.row = some row ∧ row.published_eck_id = some v

/-- After a crash no task is left to delete an address. -/
theorem sound_fresh (hs : Kept s) (hh : Held s) : Sound (.fresh s) := ⟨hs, fun v hv => .inl (hh v hv), nofun, nofun⟩

theorem Sound.held (hw : Sound w) (hc : ∀ k v, w.tasks k = some (.cleaning v) → w.store.up v = false) : Held w.store := by
  intro v hv
  rcases hw.addressed v hv with h | ⟨k, hk⟩
  · exact h
  · rw [hc k v hk] at hv
    cases hv

theorem held_of_down (h : ∀ v, s.up v = false) : Held s := fun v hv => by
  rw [h v] at hv
  cases hv

theorem Sound.submitted (hw : Sound w) : Sound { w with store := w.store.submitted } := by
  have hsh : Shrinks w.store w.store.submitted := by
    refine ⟨rfl, fun _ h => h, fun _ h => h, fun row hr => ?_⟩
    cases hr
    cases hrow : w.store.row with
    | none => exact .inr ⟨rfl, rfl⟩
    | some row => exact .inl ⟨row, rfl, rfl⟩
  refine ⟨kept_submitted hw.kept, fun v hv => ?_, fun k pc hk => (hw.fine k pc hk).shrinks hsh fun hp => ?_, hw.quiet⟩
  · rcases hw.addressed v hv with ⟨row, hr, hid⟩ | h
    · exact .inl ⟨_, rfl, by simp [hr, hid]⟩
    · exact .inr h
  · exact ⟨rfl, ((hw.fine k pc hk).sends hp).2⟩

/-- A version is minted while no publish is under way. -/
theorem Sound.minted (hw : Sound w) (hu : Unsent w) :
    Sound { w with store := { w.store with currentEck := w.store.currentEck + 1 } } := by
  have hk := hw.kept
  refine ⟨⟨hk.newest, hk.none, fun v hv => ?_, Nat.le_succ_of_le hk.current, fun row hr => ?_, hk.gone⟩, hw.addressed,
    fun k pc hpc => ?_, hw.quiet⟩
  · obtain ⟨h1, h2, h3⟩ := hk.ever v hv
    exact ⟨h1, Nat.le_succ_of_le h2, h3⟩
  · obtain ⟨hid, hpub⟩ := hk.row row hr
    exact ⟨fun v hv => Nat.le_succ_of_le (hid v hv), hpub⟩
  · have hf := hw.fine k pc hpc
    cases pc with
    | ordered | rotating => trivial
    | publishing | refreshing | republishing => cases hu k _ hpc
    | turn => exact fun u hu => Nat.le_succ_of_le (hf u hu)
    | rejecting | expiring => exact hf
    | cleaning => exact ⟨Nat.lt_succ_of_lt hf.1, hf.2⟩

/-- An expiry of a published talk finds every address that is up. -/
theorem Kept.expired (hs : Kept s) (hc : Current s) (hv : s.up v = true) : v ∈ s.expiredAddresses := by
  rcases hc with ⟨⟨status, id⟩, hr, rfl : status = _⟩ | hdown
  · obtain ⟨h1, h2, h3⟩ := hs.ever v hv
    have hds : v ∈ (List.range s.currentEck).map (· + 1) := List.mem_map.mpr ⟨v - 1, by simp; omega, by omega⟩
    have hmem : v ∈ ((List.range s.currentEck).map (· + 1)).filter s.everPublished := List.mem_filter.mpr ⟨hds, h3⟩
    simp only [Store.expiredAddresses, hr]
    split
    · exact hds
    · exact hmem
  · rw [hdown v] at hv
    cases hv

theorem shrinks_built (he : s.row = s'.row) (hu : s'.up = s.up) (hc : s'.currentEck = s.currentEck)
    (hv : ∀ u, s.everPublished u = true → s'.everPublished u = true) : Shrinks s s' :=
  ⟨hc, hv, fun _ h => hu ▸ h, fun row hr => .inl ⟨row, he.trans hr, rfl⟩⟩

theorem ever_built (h : s.everPublished u = true) : (s.apply (.built v)).everPublished u = true := by
  simp only [Store.apply, Function.update_apply]
  split <;> simp [h]

/-- A task of its own begins. -/
theorem Sound.begins (hw : Sound w) (h : begin_ w k pc = some w') (hn : Fine w.store pc)
    (hq : (pc.withdraws = true → Unsent w) ∧ (pc.sends ≠ none → Standing w)) : Sound w' :=
  hw.begin (s := w.store) h hw.kept shrinks_refl (fun _ row hr hid _ => ⟨row, hr, hid⟩)
    (fun j q hj hs => (hw.fine j q hj).sends hs) hn hq

theorem Sound.refresh (hw : Sound w) (hx : Timely w (.refresh k)) (h : act w (.refresh k) = some w') : Sound w' := by
  simp only [act] at h
  split at h
  next id hr =>
    obtain ⟨hst, hup⟩ := hx.publish k .stored (.inl rfl) (by simp [hr])
    have hg : w.store.gone = false := by
      cases hg : w.store.gone with
      | false => rfl
      | true => exact absurd rfl ((hw.kept.gone hg).2 _ hr)
    refine hw.begin h (kept_built hw.kept) (shrinks_built rfl rfl rfl fun _ => ever_built)
      (fun _ row hr hid _ => ⟨row, hr, hid⟩) (fun j q hj hs => (hw.fine j q hj).sends hs)
      ⟨⟨rfl, by simp [Store.apply], by simp [Store.apply, hr], hg⟩, hup⟩ ⟨nofun, fun _ => hst⟩
  · cases h


/-! ## A task goes on -/

theorem Sound.publishes (hw : Sound w) (hk : w.tasks k = some (.ordered .publish)) (hx : Timely w (.settle k o)) :
    Sound (rules.advance w k (settle w.store (.ordered .publish) o).1 (settle w.store (.ordered .publish) o).2) := by
  simp only [Talks.settle, publishTalk]
  split
  next hr =>
    obtain ⟨hst, hup⟩ := hx.publish k o (.inr ⟨rfl, hk⟩) hr
    refine hw.shrink hk (kept_built (kept_commanded hw.kept)) (shrinks_built rfl rfl rfl fun _ => ever_built)
      (fun _ row hr hid _ => ⟨row, hr, hid⟩) (fun _ _ _ _ _ => ⟨hr, rfl⟩) nofun (fun q hq => ?_) fun q hq => ?_
    · cases hq
      exact ⟨⟨rfl, by simp [rules, Store.apply], hr, rfl⟩, hup⟩
    · cases hq
      exact ⟨nofun, fun _ => hst⟩
  · exact hw.idle hk nofun nofun nofun

theorem Sound.rejects (hw : Sound w) (hk : w.tasks k = some (.ordered .reject)) (hx : Timely w (.settle k o)) :
    Sound (rules.advance w k (rejectTalk w.store).1 (rejectTalk w.store).2) := by
  unfold rejectTalk
  split
  next => exact hw.idle hk nofun nofun nofun
  next row hr =>
    obtain ⟨hu, hc, hcur⟩ := hx.reject k o (.inl rfl) hk (by simp [hr])
    split
    next hst =>
      refine hw.idle hk nofun (fun q hq => ?_) fun q hq => ?_
      · cases hq
        intro v hv
        rcases hw.addressed v hv with ⟨row', hr', hid⟩ | ⟨j, hj⟩
        · cases hr.symm.trans hr'
          simp [hid]
        · exact (hc j v hj).elim
      · cases hq
        exact ⟨fun _ => hu, fun h => absurd rfl h⟩
    next hst =>
      have hdown : ∀ v, w.store.up v = false := by
        rcases hcur with ⟨row', hr', hst'⟩ | h
        · cases hr.symm.trans hr'
          exact absurd hst' hst
        · exact h
      refine hw.shrink hk (kept_setRejected hw.kept hdown) ⟨rfl, fun _ h => h, fun _ h => h, fun row' hr' => ?_⟩
        (fun v _ _ _ hv => ?_) (fun j q _ hj hs => absurd (hu j q hj) hs) nofun nofun nofun
      · obtain ⟨row'', hr'', rfl⟩ := Option.map_eq_some_iff.mp hr'
        exact .inl ⟨row'', hr'', rfl⟩
      · have hv : w.store.up v = true := hv
        rw [hdown v] at hv
        cases hv

/-- A publish is stored and recorded; `next` then deletes the address before it. -/
theorem Sound.published (hw : Sound w) (hk : w.tasks k = some pc) (hv : pc.sends = some v)
    (hn : next = none ∨ ∃ u, next = some (.cleaning u) ∧ u < w.store.currentEck)
    (hup : ∀ u row, w.store.up u = true → w.store.row = some row → row.published_eck_id = some u →
      u = v ∨ next = some (.cleaning u)) :
    Sound (rules.advance w k [.stored v, .setPublished] next) := by
  have hfine := hw.fine k pc hk
  obtain ⟨hr, hg⟩ := hfine.sends (by simp [hv])
  have hcur : v = w.store.currentEck ∧ w.store.everPublished v = true := by
    cases pc with
    | publishing | refreshing | republishing =>
      cases hv
      exact ⟨hfine.1.1, hfine.1.2.1⟩
    | ordered | rotating | turn | rejecting | expiring | cleaning => cases hv
  obtain ⟨rfl, hever⟩ := hcur
  have hnone : ∀ j q, w.tasks j = some q → q.withdraws = false := by
    intro j q hj
    by_contra hq
    have := hw.quiet j k q pc hj hk (by simpa using hq)
    rw [hv] at this
    cases this
  obtain ⟨row₀, hr₀⟩ := Option.isSome_iff_exists.mp hr
  have hrow : (rules.run w.store [.stored w.store.currentEck, .setPublished]).row = some ⟨.published, some w.store.currentEck⟩ := by
    simp [rules, Store.apply, hr₀]
  refine hw.advance (kept_published hw.kept hever hr hg) (fun u hu => ?_) (fun q hq => ?_)
    (fun j q _ hj => (hw.fine j q hj).published (hnone j q hj)) fun q hq => ?_
  · have hu : Function.update w.store.up w.store.currentEck true u = true := hu
    rw [Function.update_apply] at hu
    split at hu
    next huc => exact .inl ⟨_, hrow, by rw [huc]⟩
    · rcases hw.addressed u hu with ⟨row, hr, hid⟩ | ⟨j, hj⟩
      · rcases hup u row hu hr hid with rfl | hc
        · exact .inl ⟨_, hrow, rfl⟩
        · exact .inr (.inl hc)
      · refine .inr (.inr ⟨j, fun hjk => ?_, hj⟩)
        rw [hjk] at hj
        cases hk.symm.trans hj
        cases hv
  · obtain rfl | ⟨u, rfl, hu⟩ := hn
    · cases hq
    · cases hq
      refine ⟨hu, fun row hr => ?_⟩
      cases hrow.symm.trans hr
      exact fun h => absurd (Option.some.inj h) hu.ne'
  · obtain rfl | ⟨u, rfl, -⟩ := hn
    · cases hq
    · cases hq
      exact ⟨nofun, fun h => absurd rfl h⟩

/-- A publish is stored at the address the row has, and not recorded. -/
theorem Sound.unrecorded (hw : Sound w) (hk : w.tasks k = some pc) (hv : pc.sends = some v) (ho : OnRow w.store v) :
    Sound (rules.advance w k [.stored v] none) := by
  obtain ⟨hs, hup⟩ := kept_stored hw.kept ho
  refine hw.shrink hk hs ⟨rfl, fun _ h => h, fun u hu => ?_, fun row hr => .inl ⟨row, hr, rfl⟩⟩
    (fun _ row hr hid _ => ⟨row, hr, hid⟩) (fun j q _ hj hs => (hw.fine j q hj).sends hs) (fun u hu => ?_) nofun nofun
  · exact hup ▸ hu
  · rw [hu] at hv
    cases hv

/-- What is up is deleted, and then `es` happens. -/
theorem Sound.withdrawn {vs : List Nat} (hw : Sound w) (hk : w.tasks k = some pc) (hp : pc.withdraws = true)
    (hv : ∀ u, w.store.up u = true → u ∈ vs) (hes : es = [] ∨ es = [.setRejected] ∨ es = [.purge]) :
    Sound (rules.advance w k (.deleted vs :: es) none) := by
  obtain ⟨hs, hdown⟩ := kept_withdrawn hw.kept hv
  have hall : Kept (rules.run w.store (.deleted vs :: es)) ∧ ∀ u, (rules.run w.store (.deleted vs :: es)).up u = false := by
    obtain rfl | rfl | rfl := hes
    · exact ⟨hs, hdown⟩
    · exact ⟨kept_setRejected hs hdown, hdown⟩
    · exact ⟨kept_purge hs hdown, hdown⟩
  have hup : ∀ u, (rules.run w.store (.deleted vs :: es)).up u ≠ true := fun u hu => by
    rw [hall.2 u] at hu
    cases hu
  refine hw.shrink hk hall.1 ?_ (fun v _ _ _ hv => (hup v hv).elim)
    (fun j q _ hj hs => absurd (hw.quiet k j pc q hk hj hp) hs) (fun u _ => hall.2 u) nofun nofun
  obtain rfl | rfl | rfl := hes
  · exact ⟨rfl, fun _ h => h, fun u hu => (hup u hu).elim, fun row hr => .inl ⟨row, hr, rfl⟩⟩
  · refine ⟨rfl, fun _ h => h, fun u hu => (hup u hu).elim, fun row hr => ?_⟩
    obtain ⟨row', hr', rfl⟩ := Option.map_eq_some_iff.mp hr
    exact .inl ⟨row', hr', rfl⟩
  · exact ⟨rfl, fun _ h => h, fun u hu => (hup u hu).elim, nofun⟩

/-- The address before a rotation is deleted. -/
theorem Sound.cleaned (hw : Sound w) (hk : w.tasks k = some (.cleaning v)) : Sound (rules.advance w k [.deleted [v]] none) := by
  have hup : ∀ u, (w.store.apply (.deleted [v])).up u = true → w.store.up u = true := fun u hu => by
    simp only [Store.apply, Bool.and_eq_true] at hu
    exact hu.1
  refine hw.shrink hk (kept_cleaned hw.kept (hw.fine k _ hk).2) ⟨rfl, fun _ h => h, hup, fun row hr => .inl ⟨row, hr, rfl⟩⟩
    (fun _ row hr hid _ => ⟨row, hr, hid⟩) (fun j q _ hj hs => (hw.fine j q hj).sends hs) (fun u hu => ?_) nofun nofun
  cases hu
  simp [rules, Store.apply]

theorem cleanUp_fst : (cleanUp s listed).1 = [] := by
  unfold cleanUp
  split
  · split <;> rfl
  · rfl

theorem cleanUp_snd (hl : ∀ u, listed = some u → u ≤ s.currentEck) :
    (cleanUp s listed).2 = none ∨ ∃ u, (cleanUp s listed).2 = some (.cleaning u) ∧ u < s.currentEck := by
  unfold cleanUp
  split
  next u =>
    split
    next hne => exact .inr ⟨u, rfl, lt_of_le_of_ne (hl u rfl) hne⟩
    next => exact .inl rfl
  next => exact .inl rfl

theorem Sound.turns (hw : Sound w) (hk : w.tasks k = some (.turn listed)) (hx : Timely w (.settle k o)) :
    Sound (rules.advance w k (settle w.store (.turn listed) o).1 (settle w.store (.turn listed) o).2) := by
  have hl : ∀ u, listed = some u → u ≤ w.store.currentEck := hw.fine k _ hk
  simp only [Talks.settle, publishTalk]
  split
  next hr =>
    obtain ⟨hst, v, rfl, hup, row, hrow, hid⟩ := hx.turn k o listed rfl hk hr
    have hg : w.store.gone = false := by
      by_contra hg
      have := (hw.kept.gone (by simpa using hg)).1 v
      rw [this] at hup
      cases hup
    refine hw.shrink hk (kept_built hw.kept) (shrinks_built rfl rfl rfl fun _ => ever_built) (fun _ row hr hid _ => ⟨row, hr, hid⟩)
      (fun j q _ hj hs => (hw.fine j q hj).sends hs) nofun (fun q hq => ?_) fun q hq => ?_
    · cases hq
      refine ⟨⟨rfl, by simp [rules, Store.apply], hr, hg⟩, hl, fun row' hrow' => .inl ?_⟩
      cases hrow.symm.trans hrow'
      exact hid
    · cases hq
      exact ⟨nofun, fun _ => hst⟩
  next hr =>
    have hnone : w.store.row = none := by simpa using hr
    rw [cleanUp_fst]
    refine hw.idle hk nofun (fun q hq => ?_) fun q hq => ?_
    · obtain h | ⟨u, h, hu⟩ := cleanUp_snd hl
      · cases h.symm.trans hq
      · cases h.symm.trans hq
        exact ⟨hu, fun row hr => by cases hnone.symm.trans hr⟩
    · obtain h | ⟨u, h, -⟩ := cleanUp_snd hl
      · cases h.symm.trans hq
      · cases h.symm.trans hq
        exact ⟨nofun, fun h => absurd rfl h⟩

/-- A task goes on to its next await. -/
theorem Sound.settle (hw : Sound w) (hk : w.tasks k = some pc) (hx : Timely w (.settle k o)) :
    Sound (rules.advance w k (settle w.store pc o).1 (settle w.store pc o).2) := by
  have hfine := hw.fine k pc hk
  cases pc with
  | ordered cmd =>
    cases cmd with
    | publish => exact hw.publishes hk hx
    | reject => exact hw.rejects hk hx
  | publishing v | refreshing v =>
    cases o with
    | stored => exact hw.published hk rfl (.inl rfl) fun u _ hu _ _ => .inl (hfine.2 u hu)
    | lost => exact hw.idle hk nofun nofun nofun
    | ambiguous => exact hw.unrecorded hk rfl (hx.unrecorded k _ v hk rfl (.inl rfl))
  | rejecting v =>
    have hv : ∀ u, w.store.up u = true → u ∈ [v] := fun u hu => by simp [hfine u hu]
    cases o with
    | stored => exact hw.withdrawn hk rfl hv (.inr (.inl rfl))
    | lost => exact hw.idle hk nofun nofun nofun
    | ambiguous => exact hw.withdrawn hk rfl hv (.inl rfl)
  | rotating =>
    simp only [Talks.settle]
    split
    next listed _ hr =>
      refine hw.idle hk nofun (fun q hq => ?_) fun q hq => ?_
      · cases hq
        exact fun u hu => (hw.kept.row _ hr).1 u hu
      · cases hq
        exact ⟨nofun, fun h => absurd rfl h⟩
    next => exact hw.idle hk nofun nofun nofun
  | turn listed => exact hw.turns hk hx
  | republishing listed v =>
    cases o with
    | stored =>
      simp only [Talks.settle, Talks.published, cleanUp_fst]
      refine hw.published hk rfl (cleanUp_snd hfine.2.1) fun u row _ hr hid => ?_
      -- the row has the address listed, or the new one
      rcases hfine.2.2 row hr with h | h
      · by_cases huv : u = v
        · exact .inl huv
        · refine .inr ?_
          rw [show listed = some u from h.symm.trans hid, cleanUp, if_pos (hfine.1.1 ▸ huv)]
      · exact .inl (Option.some.inj (hid.symm.trans h))
    | lost => exact hw.idle hk nofun nofun nofun
    | ambiguous => exact hw.unrecorded hk rfl (hx.unrecorded k _ v hk rfl (.inl rfl))
  | cleaning v =>
    cases o with
    | stored | ambiguous => exact hw.cleaned hk
    | lost =>
      refine hw.idle hk (fun u hu => ?_) nofun nofun
      cases hu
      by_contra hup
      exact (hx.clean k v hk (by simpa using hup)).1 rfl
  | expiring vs =>
    cases o with
    | stored => exact hw.withdrawn hk rfl hfine (.inr (.inr rfl))
    | lost => exact hw.idle hk nofun nofun nofun
    | ambiguous => exact hw.withdrawn hk rfl hfine (.inl rfl)

/-! ## Runs -/

/-! ## Where the process ends -/

/-- What is left where the process ends after the effects `es` of a task. -/
theorem Sound.cut (h : Sound (rules.advance w k es none))
    (hc : ∀ j u, w.tasks j = some (.cleaning u) → (rules.run w.store es).up u = false) :
    Sound (.fresh (rules.run w.store es)) := by
  refine sound_fresh h.kept (h.held fun j u hj => ?_)
  rw [Rules.advance_tasks] at hj
  split at hj
  · cases hj
  · exact hc j u hj

/-- The process ends while a publish is stored. -/
theorem Sound.cutPublish (hw : Sound w) (hk : w.tasks k = some pc) (hv : pc.sends = some v) (hx : Timely w (.crashDuring k o n))
    (hup : ∀ m, o = .stored → n = m + 2 → ∀ u row, w.store.up u = true → w.store.row = some row → row.published_eck_id = some u → u = v) :
    Sound (.fresh (rules.run w.store ((Talks.published v o ([], next)).1.take n)) : World) := by
  have hdown : ∀ j u, w.tasks j = some (.cleaning u) → w.store.up u = false := fun j u hj => by
    by_contra hup
    exact (hx.clean j u hj (by simpa using hup)).2.2 k o n rfl
  have hone : OnRow w.store v → Sound (.fresh (rules.run w.store [.stored v]) : World) := fun ho =>
    (hw.unrecorded hk hv ho).cut fun j u hj => by
      rw [show (rules.run w.store [.stored v]).up = w.store.up from (kept_stored hw.kept ho).2]
      exact hdown j u hj
  match o, n with
  | .lost, n =>
    simp only [Talks.published, List.take_nil]
    exact sound_fresh hw.kept (hw.held hdown)
  | _, 0 => exact sound_fresh hw.kept (hw.held hdown)
  | .ambiguous, n + 1 =>
    simp only [Talks.published, List.take_succ_cons, List.take_nil]
    exact hone (hx.unrecorded k pc v hk hv (.inr (.inr ⟨n, rfl⟩)))
  | .stored, 1 => exact hone (hx.unrecorded k pc v hk hv (.inr (.inl rfl)))
  | .stored, n + 2 =>
    have hall : Sound (rules.advance w k [.stored v, .setPublished] none) :=
      hw.published hk hv (.inl rfl) fun u row hu hr hid => .inl (hup n rfl rfl u row hu hr hid)
    have hcur : v = w.store.currentEck := by
      have hfine := hw.fine k pc hk
      cases pc with
      | publishing | refreshing | republishing =>
        cases hv
        exact hfine.1.1
      | ordered | rotating | turn | rejecting | expiring | cleaning => cases hv
    have hcut := hall.cut fun j u hj => by
      show Function.update w.store.up v true u = false
      rw [Function.update_of_ne (hcur ▸ (hw.fine j _ hj).1.ne)]
      exact hdown j u hj
    simp only [Talks.published, List.take_succ_cons, List.take_nil]
    exact hcut

/-- The process ends while a deletion of what is up is stored. -/
theorem Sound.cutDelete {vs : List Nat} (hw : Sound w) (hk : w.tasks k = some pc) (hp : pc.withdraws = true)
    (hv : ∀ u, w.store.up u = true → u ∈ vs) (hes : es = [.setRejected] ∨ es = [.purge]) (hh : Held w.store) :
    Sound (.fresh (rules.run w.store ((deleted vs o es).1.take n)) : World) := by
  have hall : ∀ {fs}, fs = [] ∨ fs = [.setRejected] ∨ fs = [.purge] → Sound (.fresh (rules.run w.store (.deleted vs :: fs)) : World) := by
    intro fs hfs
    refine (hw.withdrawn hk hp hv hfs).cut fun j u _ => ?_
    obtain rfl | rfl | rfl := hfs <;> exact (kept_withdrawn hw.kept hv).2 u
  match o, n with
  | .lost, n =>
    simp only [deleted, List.take_nil]
    exact sound_fresh hw.kept hh
  | _, 0 => exact sound_fresh hw.kept hh
  | .ambiguous, n + 1 =>
    simp only [deleted, List.take_succ_cons, List.take_nil]
    exact hall (.inl rfl)
  | .stored, 1 => exact hall (.inl rfl)
  | .stored, n + 2 =>
    obtain rfl | rfl := hes
    · simp only [deleted, List.take_succ_cons, List.take_nil]
      exact hall (.inr (.inl rfl))
    · simp only [deleted, List.take_succ_cons, List.take_nil]
      exact hall (.inr (.inr rfl))

/-- What is left where the process ends after some effects of a task. -/
theorem Sound.crashed (hw : Sound w) (hk : w.tasks k = some pc) (hx : Timely w (.crashDuring k o n)) :
    Sound (.fresh (rules.run w.store ((Talks.settle w.store pc o).1.take n)) : World) := by
  have hfine := hw.fine k pc hk
  have hheld : Held w.store := hw.held fun j v hj => by
    by_contra hup
    exact (hx.clean j v hj (by simpa using hup)).2.2 k o n rfl
  have hnone : Sound (.fresh (rules.run w.store []) : World) := sound_fresh hw.kept hheld
  cases pc with
  | ordered cmd =>
    cases cmd with
    | publish =>
      simp only [Talks.settle, publishTalk]
      split
      · match n with
        | 0 => exact hnone
        | 1 => exact sound_fresh (kept_commanded hw.kept) hheld
        | n + 2 =>
          rw [List.take_of_length_le (by simp)]
          exact sound_fresh (kept_built (kept_commanded hw.kept)) hheld
      · rw [List.take_nil]
        exact hnone
    | reject =>
      simp only [Talks.settle]
      cases hr : w.store.row with
      | none =>
        simp only [rejectTalk, hr, List.take_nil]
        exact hnone
      | some row =>
        obtain ⟨-, -, hcur⟩ := hx.reject k o (.inr ⟨n, rfl⟩) hk (by simp [hr])
        simp only [rejectTalk, hr]
        split
        · rw [List.take_nil]
          exact hnone
        next hst =>
          have hdown : ∀ v, w.store.up v = false := by
            rcases hcur with ⟨row', hr', hst'⟩ | h
            · cases hr.symm.trans hr'
              exact absurd hst' hst
            · exact h
          match n with
          | 0 => exact hnone
          | n + 1 =>
            rw [List.take_of_length_le (by simp)]
            exact sound_fresh (kept_setRejected hw.kept hdown) (held_of_down hdown)
  | publishing v | refreshing v => exact hw.cutPublish hk rfl hx fun _ _ _ u _ hu _ _ => hfine.2 u hu
  | rejecting v => exact hw.cutDelete hk rfl (fun u hu => by simp [hfine u hu]) (.inl rfl) hheld
  | rotating =>
    simp only [Talks.settle]
    split <;> (rw [List.take_nil]; exact hnone)
  | turn listed =>
    simp only [Talks.settle, publishTalk]
    split
    · match n with
      | 0 => exact hnone
      | n + 1 =>
        rw [List.take_of_length_le (by simp)]
        exact sound_fresh (kept_built hw.kept) hheld
    · rw [cleanUp_fst, List.take_nil]
      exact hnone
  | republishing listed v =>
    simp only [Talks.settle]
    rw [show cleanUp w.store listed = ([], (cleanUp w.store listed).2) from Prod.ext cleanUp_fst rfl]
    refine hw.cutPublish hk rfl hx fun m ho hn u row hu hr hid => ?_
    subst ho hn
    rcases hfine.2.2 row hr with h | h
    · by_contra huv
      rw [← h, hid] at hk
      exact hx.superseded k u v m hk huv hu rfl
    · exact Option.some.inj (hid.symm.trans h)
  | cleaning v =>
    have hv : w.store.up v = false := by
      by_contra hup
      exact (hx.clean k v hk (by simpa using hup)).2.2 k o n rfl
    have hone : Sound (.fresh (rules.run w.store [.deleted [v]]) : World) := (hw.cleaned hk).cut fun j u hj => by
      have hu : w.store.up u = false := by
        by_contra hup
        exact (hx.clean j u hj (by simpa using hup)).2.2 k o n rfl
      simp [rules, Store.apply, hu]
    match o, n with
    | .lost, n =>
      simp only [Talks.settle, deleted, List.take_nil]
      exact hnone
    | _, 0 => exact hnone
    | .stored, n + 1 | .ambiguous, n + 1 =>
      simp only [Talks.settle, deleted, List.take_succ_cons, List.take_nil]
      exact hone
  | expiring vs => exact hw.cutDelete hk rfl hfine (.inr rfl) hheld

theorem Sound.step (hw : Sound w) (hx : Step w x w') (ht : Timely w x) : Sound w' := by
  cases x with
  | submit =>
    simp only [Step, act] at hx
    split at hx <;> cases hx
    exact hw.submitted
  | command k cmd => exact hw.begins hx trivial ⟨nofun, fun h => absurd rfl h⟩
  | refresh k => exact hw.refresh ht hx
  | rotate k =>
    exact (hw.minted (ht.mint k rfl)).begins (w := { w with store := { w.store with currentEck := w.store.currentEck + 1 } }) hx
      trivial ⟨nofun, fun h => absurd rfl h⟩
  | resume k => exact hw.begins hx trivial ⟨nofun, fun h => absurd rfl h⟩
  | expire k =>
    obtain ⟨hu, hc⟩ := ht.expire k rfl
    exact hw.begins hx (fun u hup => hw.kept.expired hc hup) ⟨fun _ => hu, fun h => absurd rfl h⟩
  | settle k o =>
    obtain ⟨r, hr, rfl⟩ := Option.map_eq_some_iff.mp hx
    obtain ⟨pc, hk, hr⟩ := Option.bind_eq_some_iff.mp hr
    split at hr <;> cases hr
    exact hw.settle hk ht
  | crash =>
    cases hx
    refine sound_fresh hw.kept (hw.held fun j v hj => ?_)
    by_contra hup
    exact (ht.clean j v hj (by simpa using hup)).2.1 rfl
  | crashDuring k o n =>
    obtain ⟨r, hr, rfl⟩ := Option.map_eq_some_iff.mp hx
    obtain ⟨pc, hk, hr⟩ := Option.bind_eq_some_iff.mp hr
    split at hr <;> cases hr
    exact hw.crashed hk ht

theorem sound_start : Sound (.fresh .start) :=
  sound_fresh ⟨nofun, fun _ _ => rfl, nofun, le_rfl, nofun, nofun⟩ nofun

/-- **A published talk stays removable**, in every run of timely acts. -/
theorem talks_removable (h : Run (fun w x w' => Step w x w' ∧ Timely w x) (.fresh .start) xs w) : Removable w.store :=
  (h.invariant (fun _ _ _ hw hx => hw.step hx.1 hx.2) sound_start).removable

/-- A talk is published, edited and published again, and rejected. -/
def Small.rejected : List Act :=
  [.submit, .command 1 .publish, .settle 1 .stored, .settle 1 .stored, .submit, .command 1 .publish, .settle 1 .stored,
    .settle 1 .stored, .command 1 .reject, .settle 1 .stored, .settle 1 .stored]

/-- An act that no task goes on by. -/
theorem timely_submit : Timely w .submit := by
  refine ⟨nofun, fun k o h => ?_, nofun, fun k o h => ?_, nofun, fun k pc v _ _ h => ?_, fun k v _ _ => ⟨nofun, nofun, nofun⟩, nofun⟩
  · rcases h with h | ⟨_, h⟩ <;> cases h
  · rcases h with h | ⟨h, _⟩ <;> cases h
  · rcases h with h | h | ⟨_, h⟩ <;> cases h

theorem timely_command {cmd : Command} : Timely w (.command k cmd) := by
  refine ⟨nofun, fun k o h => ?_, nofun, fun k o h => ?_, nofun, fun k pc v _ _ h => ?_, fun k v _ _ => ⟨nofun, nofun, nofun⟩, nofun⟩
  · rcases h with h | ⟨_, h⟩ <;> cases h
  · rcases h with h | ⟨h, _⟩ <;> cases h
  · rcases h with h | h | ⟨_, h⟩ <;> cases h

/-- The only task goes on, with a command. -/
theorem timely_alone {p : Pc} (h : ∀ j q, w.tasks j = some q → q = p) (hp : p.withdraws = true ∨ p.sends ≠ none ∨ ∃ cmd, p = .ordered cmd)
    (hpub : p = .ordered .publish → ∀ v, w.store.up v = true → v = w.store.currentEck)
    (hrej : p = .ordered .reject → Current w.store) : Timely w (.settle k .stored) := by
  refine ⟨nofun, fun j o hx hj _ => ?_, nofun, fun j o hx _ => ?_, fun j o listed _ hj => ?_, fun j pc v _ _ hx => ?_,
    fun j v hj => ?_, nofun⟩
  · have hpc := h j _ hj
    refine ⟨fun i q hi => ?_, fun i v hi => ?_, hrej hpc.symm⟩
    · rw [h i q hi, ← hpc]
      rfl
    · cases (h i _ hi).trans hpc.symm
  · rcases hx with hx | ⟨-, hj⟩
    · cases hx
    · have hpc := h j _ hj
      refine ⟨fun i q hi => ?_, hpub hpc.symm⟩
      rw [h i q hi, ← hpc]
      rfl
  · rw [← h j _ hj] at hp
    rcases hp with hp | hp | ⟨_, hp⟩ <;> simp [Pc.withdraws, Pc.sends] at hp
  · rcases hx with hx | hx | ⟨_, hx⟩ <;> cases hx
  · rw [← h j _ hj] at hp
    rcases hp with hp | hp | ⟨_, hp⟩ <;> simp [Pc.withdraws, Pc.sends] at hp

theorem talks_removable_rejected :
    ∃ w, Run.exec act (.fresh .start) Small.rejected = some w ∧ w.store.gone = true ∧ Removable w.store := by
  have h : (Run.exec act (.fresh .start) Small.rejected).map (·.store.gone) = some true := by
    decide +kernel
  obtain ⟨w, hw, hgone⟩ := Option.map_eq_some_iff.mp h
  refine ⟨w, hw, hgone, talks_removable (Run.of_guarded hw ?_)⟩
  have hone : ∀ {w : World} {p q j}, (∀ j, j ≠ 1 → w.tasks j = none) → w.tasks 1 = some p → w.tasks j = some q → q = p := by
    intro w p q j ho h1 hj
    by_cases hj1 : j = 1
    · rw [hj1, h1] at hj
      exact (Option.some.inj hj).symm
    · rw [ho j hj1] at hj
      cases hj
  refine ⟨timely_submit, fun t ht => ?_⟩
  cases ht
  refine ⟨timely_command, fun t ht => ?_⟩
  cases ht
  refine ⟨timely_alone (p := .ordered .publish) (fun j q => hone (fun j hj => ?_) rfl) (.inr (.inr ⟨_, rfl⟩)) (fun _ v hv => by cases hv) nofun, fun t ht => ?_⟩
  · simp [World.spawn_tasks, hj]
  cases ht
  refine ⟨timely_alone (p := .publishing 1) (fun j q => hone (fun j hj => ?_) rfl) (.inr (.inl nofun)) nofun nofun, fun t ht => ?_⟩
  · simp [Rules.advance_tasks, World.spawn_tasks, hj]
  cases ht
  refine ⟨timely_submit, fun t ht => ?_⟩
  cases ht
  refine ⟨timely_command, fun t ht => ?_⟩
  cases ht
  refine ⟨timely_alone (p := .ordered .publish) (fun j q => hone (fun j hj => ?_) rfl) (.inr (.inr ⟨_, rfl⟩)) (fun _ v hv => ?_) nofun, fun t ht => ?_⟩
  · simp [Rules.advance_tasks, World.spawn_tasks, hj]
  · have hv : Function.update (fun _ => false) 1 true v = true := hv
    by_contra hne
    rw [Function.update_of_ne (show v ≠ 1 from hne)] at hv
    cases hv
  cases ht
  refine ⟨timely_alone (p := .publishing 1) (fun j q => hone (fun j hj => ?_) rfl) (.inr (.inl nofun)) nofun nofun, fun t ht => ?_⟩
  · simp [Rules.advance_tasks, World.spawn_tasks, hj]
  cases ht
  refine ⟨timely_command, fun t ht => ?_⟩
  cases ht
  refine ⟨timely_alone (p := .ordered .reject) (fun j q => hone (fun j hj => ?_) rfl) (.inr (.inr ⟨_, rfl⟩)) nofun fun _ => .inl ⟨_, rfl, rfl⟩, fun t ht => ?_⟩
  · simp [Rules.advance_tasks, World.spawn_tasks, hj]
  cases ht
  refine ⟨timely_alone (p := .rejecting 1) (fun j q => hone (fun j hj => ?_) rfl) (.inl rfl) nofun nofun, fun t ht => trivial⟩
  simp [Rules.advance_tasks, World.spawn_tasks, hj]

/-- A talk is published, edited and rejected. -/
def Small.editRejected : List Act :=
  [.submit, .command 1 .publish, .settle 1 .stored, .settle 1 .stored, .submit, .command 1 .reject, .settle 1 .stored]

/-- A rejected talk is still up at the address it was published at. -/
theorem talks_removable_editRejected : ∃ xs w, Run Step (.fresh .start) xs w ∧ ¬ Removable w.store := by
  have h : (Run.exec act (.fresh .start) Small.editRejected).map (fun w => (w.store.gone, w.store.up 1)) = some (true, true) := by
    decide +kernel
  obtain ⟨w, hw, hp⟩ := Option.map_eq_some_iff.mp h
  obtain ⟨hgone, hup⟩ := Prod.mk.inj hp
  refine ⟨_, w, Run.of_exec hw, fun hr => ?_⟩
  rw [hr.deleted hgone 1] at hup
  cases hup

end Nostrautica.Talks
