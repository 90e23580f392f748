/-
What a logout leaves in the cache (`logout_final`): no row of the owner, in memory or on
disk, as long as each write of the owner's that comes later is guarded by a generation from
before it. `bumpWatermark` writes under the owner it has captured with no guard, and so one
that ends after a logout files the owner's row again (`unguarded_stays`).
-/
import Nostrautica.App.Cache
import Nostrautica.Transition.Run

set_option linter.unusedSectionVars false

namespace Nostrautica.Cache

open Js

section

variable {δ : Type} {rows all : Rows δ} {ops : List (Op δ)} {op : Op δ} {o : JsString} {k : Key} {g₀ : Nat}
  {w w' w₁ : World δ} {x : Act δ}

/-- No row is the owner's. -/
def Clean (o : JsString) (rows : Rows δ) : Prop := ∀ row ∈ rows, row.1.scope ≠ o

/-- A transaction does not put a row of the owner's. -/
def NoPut (o : JsString) : Op δ → Prop
  | .put k _ => k.scope ≠ o
  | _ => True

/-! ## Rows -/

theorem mem_put {entry : Entry δ} {row : Key × Entry δ} : row ∈ put k entry rows → row = (k, entry) ∨ row ∈ rows := by
  induction rows with
  | nil => exact fun h => .inl (List.mem_singleton.1 h)
  | cons p rows ih =>
    intro h
    simp only [put] at h
    split at h
    · rcases List.mem_cons.1 h with h | h
      · exact .inl h
      · exact .inr (List.mem_cons_of_mem _ h)
    · rcases List.mem_cons.1 h with h | h
      · exact .inr (h ▸ List.mem_cons_self)
      · exact (ih h).imp id (List.mem_cons_of_mem _)

theorem clean_put {entry : Entry δ} (h : Clean o rows) (hk : k.scope ≠ o) : Clean o (put k entry rows) := by
  intro row hrow
  rcases mem_put hrow with rfl | hrow
  · exact hk
  · exact h row hrow

theorem Clean.filter {p : Key × Entry δ → Bool} (h : Clean o rows) : Clean o (rows.filter p) :=
  fun row hrow => h row (List.mem_of_mem_filter hrow)

theorem clean_deleteScope : Clean o (deleteScope rows o) := fun row hrow => by simpa using (List.mem_filter.1 hrow).2

/-- The rows of other scopes stay. -/
theorem look_deleteScope (hk : k.scope ≠ o) : look k (deleteScope rows o) = look k rows := by
  induction rows with
  | nil => rfl
  | cons row rows ih =>
    by_cases hrow : row.1.scope = o
    · have hne : row.1 ≠ k := fun he => hk (he ▸ hrow)
      rw [deleteScope, List.filter_cons_of_neg (by simpa using hrow), look, if_neg hne]
      exact ih
    · rw [deleteScope, List.filter_cons_of_pos (by simpa using hrow), look, look]
      split
      · rfl
      · exact ih

theorem clean_hydrateRow {wiped : Bool} {row : Key × Entry δ} (ho : o ≠ anon) (h : Clean o rows)
    (hrow : wiped = true ∨ row.1.scope ≠ o) : Clean o (hydrateRow wiped rows row) := by
  unfold hydrateRow
  split
  · exact h
  next hskip =>
    split
    · exact h
    · refine clean_put h fun hscope => ?_
      rcases hrow with hwiped | hrow
      · rw [hwiped, hscope] at hskip
        exact hskip (by simp [ho])
      · exact hrow hscope

/-- A bulk read brings no row of the owner's back: it holds none, or it was begun before the
generation changed. -/
theorem clean_foldl {wiped : Bool} (ho : o ≠ anon) : ∀ {all rows : Rows δ}, Clean o rows → (wiped = true ∨ Clean o all) →
    Clean o (all.foldl (hydrateRow wiped) rows)
  | [], _, h, _ => h
  | row :: all, rows, h, hall => by
    have hrow := clean_hydrateRow ho h (hall.imp id fun hall => hall row List.mem_cons_self)
    have hrest : wiped = true ∨ Clean o all := hall.imp id fun hall r hr => hall r (List.mem_cons_of_mem _ hr)
    rw [List.foldl_cons]
    exact clean_foldl ho hrow hrest

theorem clean_apply (h : Clean o rows) (hop : NoPut o op) : Clean o (op.apply rows) := by
  cases op with
  | put k entry =>
    simp only [Op.apply, putRow]
    split
    · split
      · exact clean_put h hop
      · exact h
    · exact clean_put h hop
  | delete keys => exact h.filter
  | deleteScope scope => exact h.filter
  | getAll startGen => exact h

/-! ## Generations -/

/-- No hydration is of a later generation. -/
structure Aged (w : World δ) : Prop where
  ops : ∀ g, .getAll g ∈ w.ops → g ≤ w.tab.generation
  loaded : ∀ g all, w.loaded = some (g, all) → g ≤ w.tab.generation

/-- An owner's change or a logout raises the generation; nothing lowers it. -/
theorem Step.gen_le (h : Step w x w') : w.tab.generation ≤ w'.tab.generation := by
  cases x with
  | signIn pubkey =>
    cases h
    simp only [setActiveCacheOwner]
    split
    · exact Nat.le_succ _
    · exact Nat.le_refl _
  | set key data stamp scope guardGeneration =>
    cases h
    cases writes w.tab key data stamp scope guardGeneration <;> exact Nat.le_refl _
  | remove keys => cases h; exact Nat.le_refl _
  | clear owner => cases h; exact Nat.le_succ _
  | beginHydration =>
    simp only [Step, act] at h
    split at h <;> cases h <;> exact Nat.le_refl _
  | mergeDisk =>
    simp only [Step, act] at h
    split at h <;> cases h
    exact Nat.le_refl _
  | settle done =>
    simp only [Step, act] at h
    split at h <;> cases h <;> exact Nat.le_refl _

/-- A step ends the oldest transaction, or starts one, or leaves them. -/
theorem Step.started (h : Step w x w') :
    (∃ op, w.ops = op :: w'.ops) ∨ (∃ op, w'.ops = w.ops ++ [op] ∧ ∀ g, op = .getAll g → g = w.tab.generation) ∨
      w'.ops = w.ops := by
  cases x with
  | signIn pubkey => cases h; exact .inr (.inr rfl)
  | set key data stamp scope guardGeneration =>
    cases h
    cases writes w.tab key data stamp scope guardGeneration with
    | none => exact .inr (.inr rfl)
    | some row => exact .inr (.inl ⟨_, rfl, fun _ he => by cases he⟩)
  | remove keys => cases h; exact .inr (.inl ⟨_, rfl, fun _ he => by cases he⟩)
  | clear owner => cases h; exact .inr (.inl ⟨_, rfl, fun _ he => by cases he⟩)
  | beginHydration =>
    simp only [Step, act] at h
    split at h <;> cases h
    · exact .inr (.inr rfl)
    · exact .inr (.inl ⟨_, rfl, fun _ he => by cases he; rfl⟩)
  | mergeDisk =>
    simp only [Step, act] at h
    split at h <;> cases h
    exact .inr (.inr rfl)
  | settle done =>
    simp only [Step, act] at h
    split at h <;> cases h
    · next hops => exact .inl ⟨_, hops⟩
    · next hops => exact .inl ⟨_, hops⟩

/-- What a step finds read was read before it, or is the disk. -/
theorem Step.loaded {g : Nat} (h : Step w x w') (hl : w'.loaded = some (g, all)) :
    w.loaded = some (g, all) ∨ all = w.disk ∧ w.ops = .getAll g :: w'.ops := by
  cases x with
  | signIn pubkey => cases h; exact .inl hl
  | set key data stamp scope guardGeneration =>
    cases h
    cases hrow : writes w.tab key data stamp scope guardGeneration with
    | none => rw [hrow] at hl; exact .inl hl
    | some row => rw [hrow] at hl; exact .inl hl
  | remove keys => cases h; exact .inl hl
  | clear owner => cases h; exact .inl hl
  | beginHydration =>
    simp only [Step, act] at h
    split at h <;> cases h <;> exact .inl hl
  | mergeDisk =>
    simp only [Step, act] at h
    split at h <;> cases h
    cases hl
  | settle done =>
    simp only [Step, act] at h
    split at h <;> cases h
    · next hops =>
      cases done with
      | false => exact .inl hl
      | true =>
        cases hl
        exact .inr ⟨rfl, hops⟩
    · exact .inl hl

theorem Aged.step (hw : Aged w) (h : Step w x w') : Aged w' where
  ops g hg := by
    rcases h.started with ⟨op, hops⟩ | ⟨op, hops, hop⟩ | hops
    · exact (hw.ops g (hops ▸ List.mem_cons_of_mem _ hg)).trans h.gen_le
    · rw [hops, List.mem_append] at hg
      rcases hg with hg | hg
      · exact (hw.ops g hg).trans h.gen_le
      · exact (hop g (List.mem_singleton.1 hg).symm).le.trans h.gen_le
    · exact (hw.ops g (hops ▸ hg)).trans h.gen_le
  loaded g all hl := by
    rcases h.loaded hl with hl | ⟨-, hops⟩
    · exact (hw.loaded g all hl).trans h.gen_le
    · exact (hw.ops g (hops ▸ List.mem_cons_self)).trans h.gen_le

/-! ## After a logout -/

/-- The delete of the owner's rows is in flight, with no put of theirs behind it; a bulk read
before it was begun before the logout. -/
def Deleting (o : JsString) (g₀ : Nat) (ops : List (Op δ)) : Prop :=
  ∃ before after, ops = before ++ .deleteScope o :: after ∧ (∀ g, .getAll g ∈ before → g ≤ g₀) ∧ ∀ op ∈ after, NoPut o op

/-- What a logout in generation `g₀` has left: the owner's rows are gone from the mirror, and
from the disk once the delete is done. -/
structure LoggedOut (o : JsString) (g₀ : Nat) (w : World δ) : Prop where
  gen : g₀ < w.tab.generation
  mirror : Clean o w.tab.mirror
  loaded : ∀ g all, w.loaded = some (g, all) → g ≤ g₀ ∨ Clean o all
  disk : Deleting o g₀ w.ops ∨ Clean o w.disk ∧ ∀ op ∈ w.ops, NoPut o op

/-- Each write in the owner's scope is guarded by a generation up to `g₀`, and a delete of the
owner's rows does not fail. -/
def Timely (o : JsString) (g₀ : Nat) (w : World δ) : Act δ → Prop
  | .set _ _ _ scope guardGeneration => resolveScope w.tab scope = some o → guardGeneration.any (· ≤ g₀) = true
  | .settle done => w.ops.head? = some (.deleteScope o) → done = true
  | _ => True

theorem Deleting.snoc (h : Deleting o g₀ ops) (hop : NoPut o op) : Deleting o g₀ (ops ++ [op]) := by
  obtain ⟨before, after, rfl, hb, ha⟩ := h
  refine ⟨before, after ++ [op], by simp, hb, fun q hq => ?_⟩
  rcases List.mem_append.1 hq with hq | hq
  · exact ha q hq
  · cases List.mem_singleton.1 hq
    exact hop

/-- A write that the condition lets pass lands no row of the owner's. -/
theorem scope_ne_of_writes {key : JsString} {data : δ} {stamp : Int} {scope : Option JsString} {guardGeneration : Option Nat}
    {row : Key × Entry δ} (hgen : g₀ < w.tab.generation) (ht : Timely o g₀ w (.set key data stamp scope guardGeneration))
    (h : writes w.tab key data stamp scope guardGeneration = some row) : row.1.scope ≠ o := by
  intro ho
  unfold writes at h
  split at h
  · cases h
  next hguard =>
    obtain ⟨s, hs, h⟩ := Option.bind_eq_some_iff.1 h
    split at h
    · cases h
    · cases h
      have hany := ht (hs.trans (congrArg some ho))
      cases guardGeneration with
      | none => cases hany
      | some g =>
        simp only [Option.any_some, decide_eq_true_eq] at hany hguard
        omega

/-- A transaction that puts no row of the owner's may be started. -/
theorem LoggedOut.started (hw : LoggedOut o g₀ w) (hop : NoPut o op) :
    Deleting o g₀ (w.ops ++ [op]) ∨ Clean o w.disk ∧ ∀ q ∈ w.ops ++ [op], NoPut o q := by
  refine hw.disk.imp (·.snoc hop) fun ⟨hclean, hops⟩ => ⟨hclean, fun q hq => ?_⟩
  rcases List.mem_append.1 hq with hq | hq
  · exact hops q hq
  · cases List.mem_singleton.1 hq
    exact hop

/-- The oldest transaction is the delete, or one before it, or there is none left that puts a
row of the owner's. -/
theorem LoggedOut.oldest (hw : LoggedOut o g₀ w) (h : w.ops = op :: ops) :
    (op = .deleteScope o ∧ ∀ q ∈ ops, NoPut o q) ∨ ((∀ g, op = .getAll g → g ≤ g₀) ∧ Deleting o g₀ ops) ∨
      Clean o w.disk ∧ NoPut o op ∧ ∀ q ∈ ops, NoPut o q := by
  rcases hw.disk with ⟨before, after, hops, hb, ha⟩ | ⟨hclean, hops⟩
  · rw [h] at hops
    cases before with
    | nil =>
      cases hops
      exact .inl ⟨rfl, ha⟩
    | cons q before =>
      cases hops
      exact .inr (.inl ⟨fun g he => hb g (he ▸ List.mem_cons_self),
        before, after, rfl, fun g hg => hb g (List.mem_cons_of_mem _ hg), ha⟩)
  · rw [h] at hops
    exact .inr (.inr ⟨hclean, hops op List.mem_cons_self, fun q hq => hops q (List.mem_cons_of_mem _ hq)⟩)

theorem LoggedOut.settle {done : Bool} (hw : LoggedOut o g₀ w) (ht : Timely o g₀ w (.settle done))
    (h : Step w (.settle done) w') : LoggedOut o g₀ w' := by
  simp only [Step, act] at h
  split at h <;> cases h
  · next startGen ops hops =>
    rcases hw.oldest hops with ⟨he, -⟩ | ⟨hold, hdel⟩ | ⟨hclean, -, hquiet⟩
    · cases he
    · refine ⟨hw.gen, hw.mirror, fun g all hl => ?_, .inl hdel⟩
      cases done with
      | false => exact hw.loaded g all hl
      | true =>
        cases hl
        exact .inl (hold _ rfl)
    · refine ⟨hw.gen, hw.mirror, fun g all hl => ?_, .inr ⟨hclean, hquiet⟩⟩
      cases done with
      | false => exact hw.loaded g all hl
      | true =>
        cases hl
        exact .inr hclean
  · next op ops _ hops =>
    refine ⟨hw.gen, hw.mirror, hw.loaded, ?_⟩
    rcases hw.oldest hops with ⟨rfl, hquiet⟩ | ⟨-, hdel⟩ | ⟨hclean, hop, hquiet⟩
    · have hdone : done = true := ht (by rw [hops]; rfl)
      rw [hdone]
      exact .inr ⟨clean_deleteScope, hquiet⟩
    · exact .inl hdel
    · refine .inr ⟨?_, hquiet⟩
      cases done with
      | false => exact hclean
      | true => exact clean_apply hclean hop

theorem LoggedOut.step (ho : o ≠ anon) (hw : LoggedOut o g₀ w) (ht : Timely o g₀ w x) (h : Step w x w') : LoggedOut o g₀ w' := by
  have hgen : g₀ < w'.tab.generation := Nat.lt_of_lt_of_le hw.gen h.gen_le
  cases x with
  | signIn pubkey =>
    cases h
    exact ⟨hgen, hw.mirror, hw.loaded, hw.disk⟩
  | set key data stamp scope guardGeneration =>
    cases h
    cases hrow : writes w.tab key data stamp scope guardGeneration with
    | none => exact hw
    | some row =>
      have hne := scope_ne_of_writes hw.gen ht hrow
      exact ⟨hw.gen, clean_put hw.mirror hne, hw.loaded, hw.started hne⟩
  | remove keys =>
    cases h
    exact ⟨hgen, hw.mirror.filter, hw.loaded, hw.started trivial⟩
  | clear owner =>
    cases h
    exact ⟨hgen, hw.mirror.filter, hw.loaded, hw.started trivial⟩
  | beginHydration =>
    simp only [Step, act] at h
    split at h <;> cases h
    · exact hw
    · exact ⟨hgen, hw.mirror, hw.loaded, hw.started trivial⟩
  | mergeDisk =>
    simp only [Step, act] at h
    split at h <;> cases h
    next startGen all hl =>
    refine ⟨hgen, clean_foldl ho hw.mirror ?_, fun _ _ he => (by cases he), hw.disk⟩
    refine (hw.loaded _ _ hl).imp (fun hle => ?_) id
    have hlt := hw.gen
    simp only [decide_eq_true_eq]
    omega
  | settle done => exact hw.settle ht h

/-- The logout itself. -/
theorem LoggedOut.of_clear (hw : Aged w) (h : Step w (.clear o) w') : LoggedOut o w.tab.generation w' := by
  cases h
  exact ⟨Nat.lt_succ_self _, clean_deleteScope, fun g all hl => .inl (hw.loaded g all hl),
    .inl ⟨w.ops, [], rfl, hw.ops, fun _ h => nomatch h⟩⟩

/-- **A logout is final.** Whatever writes, bulk reads and transactions were under way, and
whatever comes after a logout, while each write in the owner's scope is guarded by a generation
from before it: no row of the owner's is in memory, nor on disk once the delete is done; and
the logout takes no row of another scope from either. -/
theorem logout_final {disk : Rows δ} {before after : List (Act δ)} (ho : o ≠ anon)
    (hbefore : Run Step { disk := disk } before w) (hclear : Step w (.clear o) w₁)
    (hafter : Run (fun v x v' => Step v x v' ∧ Timely o w.tab.generation v x) w₁ after w') :
    Clean o w'.tab.mirror ∧ (.deleteScope o ∉ w'.ops → Clean o w'.disk ∧ ∀ op ∈ w'.ops, NoPut o op) ∧
      (∀ k : Key, k.scope ≠ o → look k w₁.tab.mirror = look k w.tab.mirror) ∧
      ∀ (rows : Rows δ) (k : Key), k.scope ≠ o → look k ((Op.deleteScope o).apply rows) = look k rows := by
  have haged : Aged w := hbefore.invariant (fun _ _ _ hi h => hi.step h) ⟨fun _ h => (by cases h), fun _ _ h => by cases h⟩
  have hout := hafter.invariant (fun _ _ _ hi h => hi.step ho h.2 h.1) (LoggedOut.of_clear haged hclear)
  refine ⟨hout.mirror, fun hdone => ?_, fun k hk => ?_, fun rows k hk => look_deleteScope hk⟩
  · rcases hout.disk with ⟨before, after, hops, -⟩ | hclean
    · exact absurd (hops ▸ List.mem_append_right _ List.mem_cons_self) hdone
    · exact hclean
  · cases hclear
    exact look_deleteScope hk

end

/-! ## Two runs -/

namespace Small

def ada : JsString := js "ada"

def bob : JsString := js "bob"

/-- Both accounts' rows are on disk. -/
def disk : Rows Int := [(⟨ada, js "roster"⟩, ⟨3, 0⟩), (⟨bob, js "roster"⟩, ⟨4, 0⟩)]

/-- Ada's boot, and a write of hers. -/
def booted : List (Act Int) := [.signIn (some ada), .beginHydration, .set (js "list") 1 5 none none]

/-- The bulk read ends after her logout, and a guarded write comes late. -/
def late : List (Act Int) :=
  [.signIn none, .settle true, .settle true, .mergeDisk, .settle true, .set (js "list") 2 6 (some ada) (some 0)]

/-- The tab and the disk after these. -/
def world (acts : List (Act Int)) : World Int := (Run.exec act { disk := disk } acts).getD {}

theorem timely_late : Run.Guarded act (Timely ada 0) (world (booted ++ [.clear ada])) late :=
  ⟨trivial, fun _ _ => ⟨fun _ => rfl, fun _ _ => ⟨fun _ => rfl, fun _ _ => ⟨trivial, fun _ _ => ⟨fun _ => rfl, fun _ _ =>
    ⟨fun _ => rfl, fun _ _ => trivial⟩⟩⟩⟩⟩⟩

/-- The set of muted accounts (`MUTES_KEY`), which `mutes.load` writes when its fetch returns. -/
def muted : Key := ⟨ada, js "mutes"⟩

end Small

theorem logout_final_ada : ∃ w w₁ w', Run Step { disk := Small.disk } Small.booted w ∧ Step w (.clear Small.ada) w₁ ∧
    Run (fun v x v' => Step v x v' ∧ Timely Small.ada w.tab.generation v x) w₁ Small.late w' ∧
    Clean Small.ada w'.tab.mirror ∧ Clean Small.ada w'.disk := by
  let w := Small.world Small.booted
  let w₁ := Small.world (Small.booted ++ [.clear Small.ada])
  let w' := Small.world (Small.booted ++ .clear Small.ada :: Small.late)
  have hbefore : Run Step { disk := Small.disk } Small.booted w := Run.of_exec rfl
  have hclear : Step w (.clear Small.ada) w₁ := rfl
  have hafter : Run (fun v x v' => Step v x v' ∧ Timely Small.ada w.tab.generation v x) w₁ Small.late w' :=
    Run.of_guarded rfl Small.timely_late
  obtain ⟨hmirror, hdisk, -⟩ := logout_final (by decide) hbefore hclear hafter
  exact ⟨w, w₁, w', hbefore, hclear, hafter, hmirror, (hdisk (by decide)).1⟩

/-- A write that is not guarded, under the owner it captured before a logout, stays in both
stores. -/
theorem unguarded_stays : ∃ w w₁ w', Run Step ({} : World Int) [.signIn (some Small.ada)] w ∧ Step w (.clear Small.ada) w₁ ∧
    Run Step w₁ [.signIn none, .settle true, .set Small.muted.key 7 7 (some Small.muted.scope) none, .settle true] w' ∧
    w'.ops = [] ∧ ¬Clean Small.ada w'.tab.mirror ∧ ¬Clean Small.ada w'.disk := by
  refine ⟨_, _, _, Run.of_exec rfl, rfl, Run.of_exec rfl, rfl, ?_, ?_⟩
  · exact fun h => h (Small.muted, ⟨7, 7⟩) List.mem_cons_self rfl
  · exact fun h => h (Small.muted, ⟨7, 7⟩) List.mem_cons_self rfl

end Nostrautica.Cache
