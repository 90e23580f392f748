/-
Install generations only move forward (`installs_forward`), in runs in which a
restore finds the install it was made from, and no grant installs while a detach
that a check began is still to delete the row. `Forward` is what the history of
the row is to meet, `Timely` what the acts have to avoid.
-/
import Nostrautica.Coordinator.Installs

set_option linter.unusedSectionVars false

namespace Nostrautica.Installs

open Nostrautica.Membership Tasks

variable {P K : Type*} [DecidableEq P] [DecidableEq K] {coordPubkey : P} {fingerprint : K → Nat} {s s' : Store K}
  {w w' : World P K} {x : Act P K} {xs : List (Act P K)} {k n gen : Nat} {a : Answer P} {pc : Pc P K} {e : Effect K}
  {es : List (Effect K)} {next : Option (Pc P K)} {cfg : Config P} {eck : List (EckVersion K)}

/-! ## What the history is to meet -/

/-- An install keeps the versions of the row it overwrites and does not lower its
generation; a check detaches no later install than its own; and no row comes
back at a generation a detach was recorded for. -/
structure Forward (log : List (Entry K)) : Prop where
  installs : ∀ r r', .installed (some r) r' ∈ log → r.gen ≤ r'.gen ∧ r.eck ⊆ r'.eck
  checks : ∀ g r, .detached (some g) (some r) ∈ log → r.gen ≤ g
  barred : log.Pairwise fun a b => ∀ h r, a = .tombstoned h → b = .installed none r → h < r.gen

/-- The row an entry leaves. -/
def Entry.leaves (row : Option (Custody K)) : Entry K → Option (Custody K)
  | .installed _ after => some after
  | .tombstoned _ => row
  | .detached _ _ => none

/-! ## What an act does -/

/-- Effects that leave the row, the mark and the history, and no live state of
another generation. -/
def Quiet (s : Store K) : Effect K → Prop
  | .completed _ | .suspendEvent _ | .unsuspend | .booted => True
  | .live st => ∃ st', s.live = some st' ∧ st'.gen = st.gen
  | _ => False

theorem authorize_cases {g : Grant P K} {config : Option (Config P)} (h : authorize coordPubkey s g config = .authorized) :
    s.highGen < g.gen ∨ s.highGen = g.gen ∧ s.row.isSome := by
  simp only [authorize] at h
  split at h
  · cases h
  next hlt =>
    split at h
    · cases h
    next hre =>
      rcases Nat.lt_or_eq_of_le (Nat.le_of_not_lt hlt) with hlt | heq
      · exact .inl hlt
      · refine .inr ⟨heq, ?_⟩
        simp only [heq.symm, Store.resumable, true_and, Bool.not_and, Bool.or_eq_true, decide_eq_true_eq, not_or] at hre
        exact Option.isSome_iff_ne_none.mpr (by simpa using hre.1.1)

/-- How a task goes on: it installs, for a grant or for a restore; it begins a
detach, or ends one; or it leaves the row be. -/
inductive Goes (coordPubkey : P) (fingerprint : K → Nat) (s : Store K) (a : Answer P) :
    Pc P K → List (Effect K) → Option (Pc P K) → Prop
  | granted {g : Grant P K} {cfg : Config P} : authorize coordPubkey s g a.config = .authorized →
    Goes coordPubkey fingerprint s a (.granting g) (install fingerprint s g.gen g.eck cfg) (some (.finishing none g.gen))
  | resumed {src : Restore} {held : Custody K} {cfg : Config P} : a.config = some cfg → cfg.names coordPubkey held.gen = true →
    Goes coordPubkey fingerprint s a (.restoring src held) (.unsuspend :: install fingerprint s held.gen held.eck cfg)
      (some (.finishing (some src) held.gen))
  | withdrawn {src : Restore} {held : Custody K} {cfg : Config P} : a.config = some cfg → cfg.names coordPubkey held.gen = false →
    Goes coordPubkey fingerprint s a (.restoring src held) [.unsuspend, .tombstoneInstall (max held.gen s.highGen)]
      (some (.detaching (.restore src) (some held.gen)))
  | unnamed {cfg : Config P} {st : EventState} : s.live = some st →
    Goes coordPubkey fingerprint s a (.queued cfg) [.tombstoneInstall (max st.gen s.highGen)]
      (some (.detaching .config (some st.gen)))
  | commanded : Goes coordPubkey fingerprint s a .ordered [.tombstoneInstall (max 0 s.highGen)] (some (.detaching .command none))
  | detached {caller : Caller} {check : Option Nat} {fs : List (Effect K)} : (∀ e ∈ fs, e = .booted) →
    Goes coordPubkey fingerprint s a (.detaching caller check) (.deleteEvent check :: fs) none
  | quiet {p : Pc P K} {fs : List (Effect K)} {q : Option (Pc P K)} : (∀ e ∈ fs, Quiet s e) →
    (∀ caller check, q ≠ some (.detaching caller check)) → Goes coordPubkey fingerprint s a p fs q

theorem restored_booted : ∀ src, ∀ e ∈ restored (K := K) src, e = .booted := by
  intro src e he
  cases src with
  | boot => exact List.mem_singleton.mp he
  | retry => cases he

theorem settle_goes (h : settle coordPubkey fingerprint s pc a = (es, next)) : Goes coordPubkey fingerprint s a pc es next := by
  have hstop : Goes coordPubkey fingerprint s a pc [] none := .quiet (by simp) (by simp)
  cases pc with
  | granting g =>
    simp only [settle] at h
    split at h <;> cases h
    next hv _ => exact .granted hv
    · exact hstop
  | restoring src held =>
    simp only [settle, restore] at h
    split at h
    · cases h
      refine .quiet (fun e he => ?_) (by simp)
      rcases List.mem_cons.mp he with rfl | he
      · trivial
      · rw [restored_booted src e he]
        trivial
    next cfg hc =>
      split at h <;> cases h
      next hn => exact .resumed hc hn
      next hn => exact .withdrawn hc (by simpa using hn)
  | finishing src gen =>
    cases h
    refine .quiet (fun e he => ?_) (by simp)
    rcases List.mem_append.mp he with he | he
    · split at he
      · rw [List.mem_singleton.mp he]
        trivial
      · cases he
    · cases src with
      | none => cases he
      | some src =>
        rw [restored_booted src e he]
        trivial
  | queued cfg =>
    simp only [settle, applyConfigUpdate] at h
    split at h
    · cases h
      exact hstop
    next st hst =>
      split at h
      · cases h
        exact hstop
      · split at h <;> cases h
        · exact .unnamed hst
        · refine .quiet (fun e he => ?_) (by simp)
          rw [List.mem_singleton.mp he]
          exact ⟨st, hst, rfl⟩
  | applying =>
    cases h
    exact hstop
  | ordered =>
    simp only [settle] at h
    split at h <;> cases h
    · exact .commanded
    · exact hstop
  | detaching caller check =>
    cases caller with
    | config | command =>
      cases h
      exact .detached (by simp)
    | restore src =>
      cases h
      exact .detached (restored_booted src)

theorem outcome_goes {o : Outcome P K} (h : outcome coordPubkey fingerprint w k a = some o) :
    ∃ pc, w.tasks k = some pc ∧ Goes coordPubkey fingerprint w.store a pc o.1 o.2 := by
  obtain ⟨pc, hpc, h⟩ := Option.bind_eq_some_iff.mp h
  split at h <;> cases h
  exact ⟨pc, hpc, settle_goes rfl⟩

/-- An act begins a task, has one go on, or ends the process. -/
theorem act_cases (h : Step coordPubkey fingerprint w x w') :
    (∃ b, w'.store = { w.store with boot := b } ∧
      ∀ j caller check, w'.tasks j = some (.detaching caller check) → w.tasks j = some (.detaching caller check)) ∨
    (∃ k a o, x = .settle k a ∧ outcome coordPubkey fingerprint w k a = some o ∧ w' = rules.advance w k o.1 o.2) ∨
    (w' = .fresh w.store.crashed) ∨
    ∃ k a n o, x = .crashDuring k a n ∧ outcome coordPubkey fingerprint w k a = some o ∧
      w' = .fresh ((rules (P := P)).run w.store (o.1.take n)).crashed := by
  have hbegin : ∀ {b k pc}, begin_ { w with store := { w.store with boot := b } } k pc = some w' →
      (∀ caller check, pc ≠ .detaching caller check) → w'.store = { w.store with boot := b } ∧
        ∀ j caller check, w'.tasks j = some (.detaching caller check) → w.tasks j = some (.detaching caller check) := by
    intro b k pc h hpc
    simp only [begin_] at h
    split at h <;> cases h
    refine ⟨rfl, fun j caller check hj => ?_⟩
    rw [World.spawn_tasks] at hj
    split at hj
    · exact (hpc caller check (Option.some.inj hj)).elim
    · exact hj
  cases x with
  | boot k =>
    simp only [Step, act] at h
    split at h
    · cases h
    · split at h
      · exact .inl ⟨_, hbegin h (by simp)⟩
      · cases h
        exact .inl ⟨.up, rfl, fun _ _ _ hj => hj⟩
  | grant k g =>
    simp only [Step, act] at h
    split at h
    · exact .inl ⟨w.store.boot, hbegin h (by simp)⟩
    · cases h
  | retry k =>
    simp only [Step, act] at h
    split at h
    · obtain ⟨held, -, h⟩ := Option.bind_eq_some_iff.mp h
      exact .inl ⟨w.store.boot, hbegin h (by simp)⟩
    · cases h
  | config k cfg =>
    simp only [Step, act] at h
    split at h
    · exact .inl ⟨w.store.boot, hbegin h (by simp)⟩
    · cases h
  | detach k =>
    simp only [Step, act] at h
    split at h
    · exact .inl ⟨w.store.boot, hbegin h (by simp)⟩
    · cases h
  | settle k a =>
    obtain ⟨o, ho, rfl⟩ := Option.map_eq_some_iff.mp h
    exact .inr (.inl ⟨k, a, o, rfl, ho, rfl⟩)
  | crash =>
    cases h
    exact .inr (.inr (.inl rfl))
  | crashDuring k a n =>
    obtain ⟨o, ho, rfl⟩ := Option.map_eq_some_iff.mp h
    exact .inr (.inr (.inr ⟨k, a, n, o, rfl, ho, rfl⟩))

/-- **The history has every change of the row.** -/
theorem row_of_log (h : Run (Step coordPubkey fingerprint) (.fresh .empty) xs w) :
    w.store.row = w.store.log.foldl Entry.leaves none := by
  have hrun : ∀ (es : List (Effect K)) (s : Store K), s.row = s.log.foldl Entry.leaves none →
      ((rules (P := P)).run s es).row = ((rules (P := P)).run s es).log.foldl Entry.leaves none := by
    refine fun es s hs => Rules.run_invariant (I := fun s : Store K => s.row = s.log.foldl Entry.leaves none) (fun e _ s hs => ?_) hs
    cases e <;> simp_all [rules, Store.apply, Entry.leaves]
  refine h.invariant (I := fun w : World P K => w.store.row = w.store.log.foldl Entry.leaves none) (fun w x w' hw hx => ?_) rfl
  rcases act_cases hx with ⟨b, hs, -⟩ | ⟨k, a, o, -, -, rfl⟩ | rfl | ⟨k, a, n, o, -, -, rfl⟩
  · rw [hs]
    exact hw
  · exact hrun o.1 w.store hw
  · exact hw
  · exact hrun _ w.store hw

/-! ## The invariant -/

/-- What an effect has to find for the history to stay forward. -/
def Fit (s : Store K) : Effect K → Prop
  | .upsertEvent gen eck => (∀ r, s.row = some r → r.gen ≤ gen ∧ r.eck ⊆ eck) ∧ (s.row = none → s.highGen < gen)
  | .deleteEvent check => ∀ g r, check = some g → s.row = some r → r.gen ≤ g
  | _ => True

/-- The same of effects, one after the other. -/
def Fits (s : Store K) : List (Effect K) → Prop
  | [] => True
  | e :: es => Fit s e ∧ Fits (s.apply e) es

/-- The history is forward, and the mark is above every detach recorded. -/
structure Marked (s : Store K) : Prop where
  forward : Forward s.log
  recorded : ∀ h, .tombstoned h ∈ s.log → h ≤ s.highGen

theorem Forward.snoc {log : List (Entry K)} {b : Entry K} (h : Forward log)
    (installs : ∀ r r', b = .installed (some r) r' → r.gen ≤ r'.gen ∧ r.eck ⊆ r'.eck)
    (checks : ∀ g r, b = .detached (some g) (some r) → r.gen ≤ g)
    (barred : ∀ g r, .tombstoned g ∈ log → b = .installed none r → g < r.gen) : Forward (log ++ [b]) := by
  refine ⟨fun r r' hm => ?_, fun g r hm => ?_, ?_⟩
  · rcases List.mem_append.mp hm with hm | hm
    · exact h.installs r r' hm
    · exact installs r r' (List.mem_singleton.mp hm).symm
  · rcases List.mem_append.mp hm with hm | hm
    · exact h.checks g r hm
    · exact checks g r (List.mem_singleton.mp hm).symm
  · refine List.pairwise_append.mpr ⟨h.barred, List.pairwise_singleton .., ?_⟩
    rintro a ha b' hb g r rfl rfl
    exact barred g r ha (List.mem_singleton.mp hb).symm

theorem Marked.apply (h : Marked s) (hf : Fit s e) : Marked (s.apply e) := by
  cases e with
  | upsertEvent gen eck =>
    obtain ⟨hsome, hnone⟩ := hf
    refine ⟨h.forward.snoc (fun r r' hb => ?_) nofun (fun g r hg hb => ?_), fun g hg => h.recorded g ?_⟩
    · simp only [Entry.installed.injEq] at hb
      obtain ⟨hr, rfl⟩ := hb
      exact hsome r hr
    · simp only [Entry.installed.injEq] at hb
      obtain ⟨hr, rfl⟩ := hb
      exact Nat.lt_of_le_of_lt (h.recorded g hg) (hnone hr)
    · simpa [Store.apply] using hg
  | tombstoneInstall gen =>
    refine ⟨h.forward.snoc nofun nofun nofun, fun g hg => ?_⟩
    rcases List.mem_append.mp hg with hg | hg
    · exact Nat.le_trans (h.recorded g hg) (Nat.le_max_left ..)
    · cases List.mem_singleton.mp hg
      exact Nat.le_max_right ..
  | deleteEvent check =>
    refine ⟨h.forward.snoc nofun (fun g r hb => ?_) nofun, fun g hg => h.recorded g ?_⟩
    · simp only [Entry.detached.injEq] at hb
      exact hf g r hb.1 hb.2
    · simpa [Store.apply] using hg
  | recordInstalledGen gen => exact ⟨h.forward, fun g hg => Nat.le_trans (h.recorded g hg) (Nat.le_max_left ..)⟩
  | live | completed | suspendEvent | unsuspend | booted => exact ⟨h.forward, h.recorded⟩

theorem Marked.run (h : Marked s) (hf : Fits s es) : Marked ((rules (P := P)).run s es) := by
  induction es generalizing s with
  | nil => exact h
  | cons e es ih => exact ih (h.apply hf.1) hf.2

theorem Fits.take (hf : Fits s es) (n : Nat) : Fits s (es.take n) := by
  induction es generalizing s n with
  | nil =>
    rw [List.take_nil]
    trivial
  | cons e es ih =>
    cases n with
    | zero => trivial
    | succ n => exact ⟨hf.1, ih hf.2 n⟩

theorem fits_of_quiet (h : ∀ e ∈ es, ∀ s : Store K, Fit s e) : Fits s es := by
  induction es generalizing s with
  | nil => trivial
  | cons e es ih => exact ⟨h e (.head _) s, ih fun e' he' => h e' (.tail _ he')⟩

/-- The mark holds; the live state is at the generation of the row; and a detach
that waits finds no later install than the one its check was made for. -/
structure Sound (w : World P K) : Prop where
  marked : Marked w.store
  live : ∀ st, w.store.live = some st → ∃ r, w.store.row = some r ∧ r.gen = st.gen
  waiting : ∀ k caller g r, w.tasks k = some (.detaching caller (some g)) → w.store.row = some r → r.gen ≤ g

/-- The task goes on, to its next await or until the process ends. -/
def Act.goesOn (x : Act P K) (k : Nat) (a : Answer P) : Prop := x = .settle k a ∨ ∃ n, x = .crashDuring k a n

/-- A grant that installs finds no row above the mark, and while the process lives
no detach that a check began; and a restore that revalidates finds the install
it was made from, or no row if it is to detach. -/
structure Timely (coordPubkey : P) (w : World P K) (x : Act P K) : Prop where
  marked : ∀ k a g r, x.goesOn k a → w.tasks k = some (.granting g) →
    authorize coordPubkey w.store g a.config = .authorized → w.store.row = some r → r.gen ≤ w.store.highGen
  alone : ∀ k a g j caller check, x = .settle k a → w.tasks k = some (.granting g) →
    authorize coordPubkey w.store g a.config = .authorized → w.tasks j ≠ some (.detaching caller (some check))
  resumes : ∀ k a src held cfg, x.goesOn k a → w.tasks k = some (.restoring src held) → a.config = some cfg →
    cfg.names coordPubkey held.gen = true → ∃ r, w.store.row = some r ∧ r.gen = held.gen
  withdraws : ∀ k a src held cfg r, x = .settle k a → w.tasks k = some (.restoring src held) → a.config = some cfg →
    cfg.names coordPubkey held.gen = false → w.store.row = some r → r.gen = held.gen

theorem mem_unionEck {held incoming : List (EckVersion K)} {v : EckVersion K} :
    v ∈ unionEck fingerprint held incoming ↔ v ∈ held ∨ v ∈ incoming := by
  simp [unionEck]

theorem fit_upsert (hrow : ∀ r, s.row = some r → r.gen ≤ gen) (hnone : s.row = none → s.highGen < gen) :
    Fit s (.upsertEvent gen (s.mergedEck fingerprint eck)) := by
  refine ⟨fun r hr => ⟨hrow r hr, fun v hv => ?_⟩, hnone⟩
  simp only [Store.mergedEck, hr]
  exact mem_unionEck.mpr (.inl hv)

/-- What a task does in a timely act fits. -/
theorem Sound.fits (hw : Sound w) (hx : Timely coordPubkey w x) (hk : x.goesOn k a) (hpc : w.tasks k = some pc)
    (hg : Goes coordPubkey fingerprint w.store a pc es next) : Fits w.store es := by
  cases hg with
  | granted hv =>
    rename_i g cfg
    refine ⟨fit_upsert (fun r hr => ?_) fun hr => ?_, trivial, trivial, trivial⟩
    · have hr := hx.marked k a g r hk hpc hv hr
      rcases authorize_cases hv with hlt | ⟨heq, -⟩ <;> omega
    · rcases authorize_cases hv with hlt | ⟨-, hsome⟩
      · exact hlt
      · simp [hr] at hsome
  | resumed hc hn =>
    obtain ⟨r, hr, hgen⟩ := hx.resumes k a _ _ _ hk hpc hc hn
    refine ⟨trivial, fit_upsert (fun r' hr' => ?_) (fun hr' => ?_), trivial, trivial, trivial⟩
    · cases hr.symm.trans hr'
      exact hgen.le
    · cases hr.symm.trans hr'
  | withdrawn | unnamed | commanded => exact ⟨trivial, by simp [Fits, Fit]⟩
  | detached hb =>
    refine ⟨fun g r hg hr => ?_, fits_of_quiet fun e he s => ?_⟩
    · subst hg
      exact hw.waiting k _ g r hpc hr
    · rw [hb e he]
      trivial
  | quiet hq hn =>
    refine fits_of_quiet fun e he s => ?_
    have he := hq e he
    cases e <;> trivial

theorem quiet_run (h : ∀ e ∈ es, Quiet s e) : ((rules (P := P)).run s es).row = s.row ∧
    ∀ st, ((rules (P := P)).run s es).live = some st → ∃ st', s.live = some st' ∧ st'.gen = st.gen := by
  refine Rules.run_invariant (I := fun t : Store K => t.row = s.row ∧ ∀ st, t.live = some st → ∃ st', s.live = some st' ∧ st'.gen = st.gen)
    (fun e he t ht => ?_) ⟨rfl, fun st hst => ⟨st, hst, rfl⟩⟩
  have he := h e he
  cases e with
  | completed | unsuspend | booted => exact ht
  | suspendEvent => exact ⟨ht.1, nofun⟩
  | live st =>
    refine ⟨ht.1, fun st' hst' => ?_⟩
    cases hst'
    exact he
  | upsertEvent | recordInstalledGen | tombstoneInstall | deleteEvent => exact he.elim

/-- A task goes on, and the row and the detaches that wait are as the invariant has them. -/
theorem Sound.advance (hm : Marked ((rules (P := P)).run w.store es))
    (hl : ∀ st, ((rules (P := P)).run w.store es).live = some st →
      ∃ r, ((rules (P := P)).run w.store es).row = some r ∧ r.gen = st.gen)
    (hn : ∀ caller g r, next = some (.detaching caller (some g)) → ((rules (P := P)).run w.store es).row = some r → r.gen ≤ g)
    (ho : ∀ j caller g r, w.tasks j = some (.detaching caller (some g)) →
      ((rules (P := P)).run w.store es).row = some r → r.gen ≤ g) :
    Sound (rules.advance w k es next) := by
  refine ⟨hm, hl, fun j caller g r hj hr => ?_⟩
  rw [Rules.advance_tasks] at hj
  split at hj
  · exact hn caller g r hj hr
  · exact ho j caller g r hj hr

/-- **Every timely act keeps the invariant.** -/
theorem Sound.step (hw : Sound w) (h : Step coordPubkey fingerprint w x w') (hx : Timely coordPubkey w x) : Sound w' := by
  rcases act_cases h with ⟨b, hs, ht⟩ | ⟨k, a, ⟨es, next⟩, rfl, ho, rfl⟩ | rfl | ⟨k, a, n, ⟨es, next⟩, rfl, ho, rfl⟩
  · refine ⟨?_, ?_, fun j caller g r hj hr => hw.waiting j caller g r (ht j caller _ hj) ?_⟩
    · rw [hs]
      exact ⟨hw.marked.forward, hw.marked.recorded⟩
    · rw [hs]
      exact hw.live
    · rw [hs] at hr
      exact hr
  · obtain ⟨pc, hpc, hg⟩ := outcome_goes ho
    have hm := hw.marked.run (P := P) (hw.fits hx (.inl rfl) hpc hg)
    cases hg with
    | granted hv =>
      rename_i g cfg
      refine .advance hm (fun st hst => ?_) nofun fun j caller check r hj _ => ?_
      · cases hst
        exact ⟨_, rfl, rfl⟩
      · exact (hx.alone k a g j caller check rfl hpc hv hj).elim
    | resumed hc hn =>
      obtain ⟨r, hr, hgen⟩ := hx.resumes k a _ _ _ (.inl rfl) hpc hc hn
      refine .advance hm (fun st hst => ?_) nofun fun j caller check r' hj hr' => ?_
      · cases hst
        exact ⟨_, rfl, rfl⟩
      · cases hr'
        exact hgen ▸ hw.waiting j caller check r hj hr
    | withdrawn hc hn =>
      refine .advance hm hw.live (fun caller g r hnext hr => ?_) hw.waiting
      cases hnext
      exact (hx.withdraws k a _ _ _ r rfl hpc hc hn hr).le
    | unnamed hst =>
      refine .advance hm hw.live (fun caller g r hnext hr => ?_) hw.waiting
      cases hnext
      obtain ⟨r', hr', hgen⟩ := hw.live _ hst
      cases hr.symm.trans hr'
      exact hgen.le
    | commanded => exact .advance hm hw.live nofun hw.waiting
    | detached hb =>
      rename_i caller check fs
      have hq := quiet_run (P := P) (s := w.store.apply (.deleteEvent check)) fun e (he : e ∈ fs) => by
        rw [hb e he]
        trivial
      refine .advance hm (fun st hst => ?_) nofun fun j caller g r hj hr => ?_
      · obtain ⟨st', hst', -⟩ := hq.2 st hst
        cases hst'
      · cases hq.1.symm.trans hr
    | quiet hq hn =>
      obtain ⟨hrow, hlive⟩ := quiet_run (P := P) hq
      refine .advance hm (fun st hst => ?_) (fun caller g r hnext _ => (hn caller (some g) hnext).elim) fun j caller g r hj hr =>
        hw.waiting j caller g r hj (hrow ▸ hr)
      obtain ⟨st', hst', hgen⟩ := hlive st hst
      obtain ⟨r, hr, hrgen⟩ := hw.live st' hst'
      exact ⟨r, hrow.trans hr, hrgen.trans hgen⟩
  · exact ⟨⟨hw.marked.forward, hw.marked.recorded⟩, nofun, nofun⟩
  · obtain ⟨pc, hpc, hg⟩ := outcome_goes ho
    have hm := hw.marked.run (P := P) ((hw.fits hx (.inr ⟨n, rfl⟩) hpc hg).take n)
    exact ⟨⟨hm.forward, hm.recorded⟩, nofun, nofun⟩

theorem sound_empty : Sound (.fresh .empty : World P K) := ⟨⟨⟨nofun, nofun, .nil⟩, nofun⟩, nofun, nofun⟩

/-- **Install generations only move forward**, in every run of timely acts. -/
theorem installs_forward
    (h : Run (fun w x w' => Step coordPubkey fingerprint w x w' ∧ Timely coordPubkey w x) (.fresh .empty) xs w) :
    Forward w.store.log :=
  (h.invariant (fun _ _ _ hw hx => hw.step hx.1 hx.2) sound_empty).marked.forward

/-- An act of no task that goes on. -/
theorem timely_of_begins (h : ∀ k a, ¬ x.goesOn k a) : Timely coordPubkey w x :=
  ⟨fun k a _ _ hx => (h k a hx).elim, fun k a _ _ _ _ hx => (h k a (.inl hx)).elim, fun k a _ _ _ hx => (h k a hx).elim,
    fun k a _ _ _ _ hx => (h k a (.inl hx)).elim⟩

/-- A grant that goes on where no detach waits. -/
theorem timely_grant {g : Grant P K} (hk : w.tasks k = some (.granting g))
    (hrow : ∀ r, w.store.row = some r → r.gen ≤ w.store.highGen)
    (halone : ∀ j caller check, w.tasks j ≠ some (.detaching caller check)) : Timely coordPubkey w (.settle k a) := by
  refine ⟨fun _ _ _ r _ _ _ => hrow r, fun _ _ _ j caller check _ _ _ => halone j caller _, fun j b src held cfg hj hp => ?_,
    fun j b src held cfg r hj hp => ?_⟩
  · rcases hj with hj | ⟨_, hj⟩ <;> cases hj
    cases hk.symm.trans hp
  · cases hj
    cases hk.symm.trans hp

/-- A 31600 that names this coordinator at a generation, and the grant of it. -/
def Small.config (gen : Nat) : Config Nat := ⟨gen, gen, some 0, some gen, 7⟩

def Small.grant (gen : Nat) : Grant Nat Nat := ⟨⟨gen, [⟨gen, gen⟩]⟩, 7⟩

/-- The event is granted at generation 1. -/
def Small.granted : List (Act Nat Nat) := [.boot 1, .grant 1 (Small.grant 1), .settle 1 ⟨some (Small.config 1), true⟩]

/-- Granted again at generation 2. -/
def Small.regranted : List (Act Nat Nat) :=
  Small.granted ++ [.grant 2 (Small.grant 2), .settle 2 ⟨some (Small.config 2), true⟩]

theorem installs_forward_regranted :
    ∃ w, Run.exec (act 0 id) (.fresh .empty) Small.regranted = some w ∧ w.store.log.length = 2 ∧ Forward w.store.log := by
  have h : (Run.exec (act 0 id) (.fresh .empty) Small.regranted).map (·.store.log.length) = some 2 := by
    decide +kernel
  obtain ⟨w, hw, hlen⟩ := Option.map_eq_some_iff.mp h
  refine ⟨w, hw, hlen, ?_⟩
  obtain ⟨w₁, h₁, hw⟩ := Option.bind_eq_some_iff.mp hw
  obtain ⟨w₂, h₂, hw⟩ := Option.bind_eq_some_iff.mp hw
  obtain ⟨w₃, h₃, hw⟩ := Option.bind_eq_some_iff.mp hw
  obtain ⟨w₄, h₄, hw⟩ := Option.bind_eq_some_iff.mp hw
  obtain ⟨w₅, h₅, hw⟩ := Option.bind_eq_some_iff.mp hw
  cases hw
  have hbegins : ∀ {x : Act Nat Nat}, (∀ k a, x ≠ .settle k a) → (∀ k a n, x ≠ .crashDuring k a n) → ∀ k a, ¬ x.goesOn k a := by
    rintro x hs hc k a (h | ⟨n, h⟩)
    · exact hs k a h
    · exact hc k a n h
  cases h₁
  cases h₂
  have hw₃ : w₃.store.highGen = 1 ∧ (∀ r, w₃.store.row = some r → r.gen = 1) ∧
      (∀ j pc, w₃.tasks j = some pc → pc = .finishing none 1) ∧ w₃.store.boot = .up ∧ w₃.tasks 2 = none := by
    cases h₃
    refine ⟨rfl, fun r hr => ?_, fun j pc hj => ?_, rfl, rfl⟩
    · cases hr
      rfl
    · rw [Rules.advance_tasks] at hj
      split at hj
      · exact (Option.some.inj hj).symm
      next hne => simp [World.spawn_tasks, hne] at hj
  obtain rfl : w₃.spawn 2 (.granting (Small.grant 2)) = w₄ := by
    simpa [act, begin_, hw₃.2.2.2.1, hw₃.2.2.2.2] using h₄
  have hrun : Run (fun w x w' => Step 0 id w x w' ∧ Timely 0 w x) (.fresh .empty) Small.regranted w := by
    refine .cons ⟨rfl, timely_of_begins (hbegins nofun nofun)⟩ (.cons ⟨rfl, timely_of_begins (hbegins nofun nofun)⟩
      (.cons ⟨h₃, timely_grant rfl nofun fun j caller check hj => ?_⟩
      (.cons ⟨h₄, timely_of_begins (hbegins nofun nofun)⟩ (.cons ⟨h₅, timely_grant rfl ?_ fun j caller check hj => ?_⟩ .nil))))
    · rw [World.spawn_tasks] at hj
      split at hj <;> cases hj
    · rintro r hr
      exact (hw₃.2.1 r hr).le.trans hw₃.1.ge
    · rw [World.spawn_tasks] at hj
      split at hj
      · cases hj
      · cases hw₃.2.2.1 j _ hj
  exact installs_forward hrun

/-- A check detached a later install than its own. -/
def Entry.late {K : Type*} : Entry K → Bool
  | .detached (some g) (some r) => g < r.gen
  | _ => false

theorem not_forward_of_late {log : List (Entry K)} (h : log.any Entry.late = true) : ¬ Forward log := by
  intro hf
  obtain ⟨e, he, hlate⟩ := List.any_eq_true.mp h
  simp only [Entry.late] at hlate
  split at hlate
  next g r => exact absurd (hf.checks g r he) (by simpa using hlate)
  · cases hlate

/-- An event is suspended at generation 1 and attached anew at generation 2; a
retry of the old suspension then detaches it. -/
theorem installs_forward_retriedSuspension :
    ∃ xs w, Run (Step 0 id) (.fresh (.empty : Store Nat)) xs w ∧ ¬ Forward w.store.log := by
  let xs : List (Act Nat Nat) := Small.granted ++ [.crash, .boot 1, .settle 1 ⟨none, true⟩,
    .grant 1 (Small.grant 2), .settle 1 ⟨some (Small.config 2), true⟩, .settle 1 ⟨none, true⟩,
    .retry 1, .settle 1 ⟨some (Small.config 2), true⟩, .settle 1 ⟨none, true⟩]
  have h : (Run.exec (act 0 id) (.fresh .empty) xs).map (·.store.log.any Entry.late) = some true := by
    decide +kernel
  obtain ⟨w, hw, hp⟩ := Option.map_eq_some_iff.mp h
  exact ⟨xs, w, Run.of_exec hw, not_forward_of_late hp⟩

end Nostrautica.Installs
