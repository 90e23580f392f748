/-
`restoreBackup` of `coordinator/src/store/backup.ts`, one file operation after the other: the gates,
the copy of the snapshot beside the target, the old database and its sidecars moved aside, and the
rename that puts the snapshot in place.

What a file holds is a parameter. A sync changes no file, and a rename is atomic.

Where a restore may stop (`restore_safe_iff`): before the first file of the old database is moved
aside, or once the snapshot is in its place. Between the two nothing is at the target, and the files
of the old database may be apart (`stopped_between`).
-/
import Nostrautica.Js.Text
import Nostrautica.Transition.Run

namespace Nostrautica.Restore

open Js

/-- `VerifyResult`, but for the manifest itself. -/
structure VerifyResult where
  integrityOk : Bool
  checksumOk : Bool
  decryptedRows : Nat
  installedEventCount : Nat
  schemaTooNew : Bool
  pubkeyOk : Option Bool
  authPresent : Bool
  authOk : Bool

/-- `RestoreOpts`, but for the identity. -/
structure RestoreOpts where
  filePath : JsString
  targetPath : JsString
  force : Bool := false
  allowUnsigned : Bool := false

/-- `verifyPassed(v, { allowUnsigned })`. -/
def verifyPassed (v : VerifyResult) (allowUnsigned : Bool) : Bool :=
  let authAcceptable := v.authOk || (allowUnsigned && !v.authPresent)
  v.integrityOk && v.checksumOk && !v.schemaTooNew && v.decryptedRows = v.installedEventCount && v.pubkeyOk ≠ some false &&
    authAcceptable

/-- Why a restore does not start. -/
inductive Refusal
  | schemaTooNew
  | tampered
  | verificationFailed
  | wouldOverwrite
  deriving DecidableEq

/-- The files of a directory. -/
abbrev Dir (C : Type) := JsString → Option C

variable {C : Type}

/-- The gates of `restoreBackup`, in order. -/
def refusal (opts : RestoreOpts) (v : VerifyResult) (dir : Dir C) : Option Refusal :=
  if v.schemaTooNew then some .schemaTooNew
  else if v.authPresent && !v.authOk then some .tampered
  else if !verifyPassed v opts.allowUnsigned then some .verificationFailed
  else if (dir opts.targetPath).isSome && !opts.force then some .wouldOverwrite
  else none

/-! ## The swap -/

/-- `rmSync(path, { force: true })`. -/
def rmSync (dir : Dir C) (path : JsString) : Dir C := Function.update dir path none

/-- `copyFileSync(src, dest)`. -/
def copyFileSync (dir : Dir C) (src dest : JsString) : Option (Dir C) := (dir src).map fun c => Function.update dir dest (some c)

/-- `renameSync(from, to)`, of two paths. -/
def renameSync (dir : Dir C) (old new : JsString) : Option (Dir C) :=
  (dir old).map fun c => Function.update (Function.update dir old none) new (some c)

/-- `["", "-wal", "-shm", "-journal"]`. -/
def sidecars : List JsString := ["", "-wal", "-shm", "-journal"].map js

/-- `${target}.restore-tmp`. -/
def tmpPath (target : JsString) : JsString := target ++ js ".restore-tmp"

/-- `${target}.pre-restore-${…}`, of a time. -/
def preRestoreName (target time : JsString) : JsString := target ++ (js ".pre-restore-" ++ time)

/-- The file operations. -/
inductive Op
  | removeTmp
  | copy
  | syncTmp
  | lookForOld
  | aside (suffix : JsString)
  | swap
  | syncDir

structure State (C : Type) where
  dir : Dir C
  preRestorePath : Option JsString := none

/-- One operation, or `none` where it throws. -/
def step (opts : RestoreOpts) (time : JsString) (s : State C) : Op → Option (State C)
  | .removeTmp => some { s with dir := rmSync s.dir (tmpPath opts.targetPath) }
  | .copy => (copyFileSync s.dir opts.filePath (tmpPath opts.targetPath)).map fun dir => { s with dir }
  | .syncTmp => some s
  | .lookForOld =>
    if sidecars.any fun suffix => (s.dir (opts.targetPath ++ suffix)).isSome then
      some { s with preRestorePath := some (preRestoreName opts.targetPath time) }
    else some s
  | .aside suffix =>
    match s.preRestorePath with
    | none => some s
    | some preRestorePath =>
      if (s.dir (opts.targetPath ++ suffix)).isSome then
        (renameSync s.dir (opts.targetPath ++ suffix) (preRestorePath ++ suffix)).map fun dir => { s with dir }
      else some s
  | .swap => (renameSync s.dir (tmpPath opts.targetPath) opts.targetPath).map fun dir => { s with dir }
  | .syncDir => some s

/-- The operations of `restoreBackup`, in order. -/
def program : List Op := [.removeTmp, .copy, .syncTmp, .lookForOld] ++ sidecars.map .aside ++ [.swap, .syncDir]

/-- Where a restore stops: after so many operations, maybe with a copy cut off halfway. -/
structure Stop (C : Type) where
  done : Nat
  cut : Option C := none

/-- What is in the temporary file where the copy is cut off. -/
def Stop.leave (stop : Stop C) (opts : RestoreOpts) (dir : Dir C) : Dir C :=
  match stop.cut with
  | some part => if stop.done = 1 then Function.update dir (tmpPath opts.targetPath) (some part) else dir
  | none => dir

/-- The files where `restoreBackup` stops, if it comes so far. -/
def restoreBackup (opts : RestoreOpts) (v : VerifyResult) (time : JsString) (dir : Dir C) (stop : Stop C) : Option (Dir C) :=
  match refusal opts v dir with
  | some _ => some dir
  | none => (Run.exec (step opts time) { dir } (program.take stop.done)).map fun s => stop.leave opts s.dir

variable {C : Type} {opts : RestoreOpts} {v : VerifyResult} {time : JsString} {old d : Dir C} {s t : State C}

/-! ## Paths -/

theorem mem_sidecars {suffix : JsString} : suffix ∈ sidecars ↔ suffix = [] ∨ suffix = js "-wal" ∨ suffix = js "-shm" ∨ suffix = js "-journal" := by
  have hnil : js "" = [] := by decide
  simp [sidecars, hnil]

theorem nodup_sidecars : sidecars.Nodup := by decide

/-- A path with a sidecar's suffix and the temporary path differ. -/
theorem target_ne_tmp {target suffix : JsString} (h : suffix ∈ sidecars) : target ++ suffix ≠ tmpPath target := by
  intro he
  have he := List.append_cancel_left he
  subst he
  revert h
  decide

theorem take_pre (x : JsString) : (js ".pre-restore-" ++ x).take 2 = [46, 112] := by
  have h : (js ".pre-restore-").take 2 = [46, 112] ∧ 2 ≤ (js ".pre-restore-").length := by decide
  rw [List.take_append_of_le_length h.2, h.1]

theorem pre_ne_tmp {target suffix : JsString} : preRestoreName target time ++ suffix ≠ tmpPath target := by
  intro he
  rw [preRestoreName, tmpPath, List.append_assoc, List.append_assoc] at he
  have he := congrArg (List.take 2) (List.append_cancel_left he)
  rw [take_pre] at he
  revert he
  decide

theorem pre_ne_target {target suffix suffix' : JsString} (h : suffix' ∈ sidecars) :
    preRestoreName target time ++ suffix ≠ target ++ suffix' := by
  intro he
  rw [preRestoreName, List.append_assoc, List.append_assoc] at he
  have he := congrArg (List.take 2) (List.append_cancel_left he)
  rw [take_pre] at he
  rcases mem_sidecars.1 h with rfl | rfl | rfl | rfl <;> revert he <;> decide

/-! ## Before the swap -/

/-- The files with `moved` aside: the snapshot is in the temporary file, and what is not moved is in its place. -/
structure Before (opts : RestoreOpts) (time : JsString) (old : Dir C) (moved : List JsString) (s : State C) : Prop where
  name : (∃ suffix ∈ sidecars, (old (opts.targetPath ++ suffix)).isSome = true) →
    s.preRestorePath = some (preRestoreName opts.targetPath time)
  snapshot : s.dir (tmpPath opts.targetPath) = old opts.filePath ∧ (old opts.filePath).isSome = true
  place : ∀ suffix ∈ sidecars, s.dir (opts.targetPath ++ suffix) = if suffix ∈ moved then none else old (opts.targetPath ++ suffix)
  aside : ∀ suffix ∈ moved, ∀ c, old (opts.targetPath ++ suffix) = some c →
    s.dir (preRestoreName opts.targetPath time ++ suffix) = some c

/-- **One more file is moved aside**, if it is there. -/
theorem Before.step {moved : List JsString} {suffix : JsString} (h : Before opts time old moved s) (hs : suffix ∈ sidecars)
    (hm : suffix ∉ moved) (hstep : step opts time s (.aside suffix) = some t) : Before opts time old (moved ++ [suffix]) t := by
  have hplace := h.place suffix hs
  rw [if_neg hm] at hplace
  cases hold : old (opts.targetPath ++ suffix) with
  | none =>
    have ht : t = s := by
      simp only [Restore.step, hplace, hold] at hstep
      cases hp : s.preRestorePath <;> simp_all
    subst ht
    refine ⟨h.name, h.snapshot, fun x hx => ?_, fun x hx c hc => ?_⟩
    · rw [h.place x hx]
      by_cases hxs : x = suffix
      · subst hxs
        simp [hold]
      · simp [hxs]
    · rcases List.mem_append.1 hx with hx | hx
      · exact h.aside x hx c hc
      · rw [List.mem_singleton.1 hx, hold] at hc
        cases hc
  | some c =>
    have hname := h.name ⟨suffix, hs, by rw [hold]; rfl⟩
    have hdir : t = ⟨Function.update (Function.update s.dir (opts.targetPath ++ suffix) none)
        (preRestoreName opts.targetPath time ++ suffix) (some c), s.preRestorePath⟩ := by
      simp only [Restore.step, hname, hplace, hold, renameSync, Option.isSome_some, if_true, Option.map_some, Option.some.injEq] at hstep
      rw [hname]
      exact hstep.symm
    subst hdir
    refine ⟨h.name, ?_, fun x hx => ?_, fun x hx c' hc => ?_⟩
    · simp only
      rw [Function.update_of_ne pre_ne_tmp.symm, Function.update_of_ne (target_ne_tmp hs).symm]
      exact h.snapshot
    · simp only
      rw [Function.update_of_ne (pre_ne_target hx).symm]
      by_cases hxs : x = suffix
      · subst hxs
        simp
      · rw [Function.update_of_ne fun he => hxs (List.append_cancel_left he), h.place x hx]
        simp [hxs]
    · simp only
      by_cases hxs : x = suffix
      · subst hxs
        rw [Function.update_self]
        rw [hold] at hc
        exact hc
      · have hx : x ∈ moved := by simpa [hxs] using hx
        rw [Function.update_of_ne fun he => hxs (List.append_cancel_left he), Function.update_of_ne (pre_ne_target hs)]
        exact h.aside x hx c' hc

theorem exec_append {σ α : Type} {f : σ → α → Option σ} : ∀ (as bs : List α) (s : σ),
    Run.exec f s (as ++ bs) = (Run.exec f s as).bind fun t => Run.exec f t bs
  | [], _, _ => rfl
  | a :: as, bs, s => by
    rw [List.cons_append, Run.exec, Run.exec, Option.bind_assoc]
    exact congrArg _ (funext fun t => exec_append as bs t)

theorem exec_singleton {σ α : Type} {f : σ → α → Option σ} (s : σ) (a : α) : Run.exec f s [a] = f s a := by
  simp [Run.exec]

/-- The files before anything is moved aside are as they were, but for the temporary one. -/
theorem before_start (h : Run.exec (step opts time) ⟨old, none⟩ [.removeTmp, .copy, .syncTmp, .lookForOld] = some s) :
    Before opts time old [] s := by
  simp only [Run.exec, Restore.step, Option.bind_some, Option.bind_eq_some_iff, copyFileSync, rmSync, Option.map_eq_some_iff] at h
  obtain ⟨u, ⟨dir, ⟨c, hc, rfl⟩, rfl⟩, w, hw, hs⟩ := h
  cases hs
  have hfile : old opts.filePath = some c := by
    by_cases hf : opts.filePath = tmpPath opts.targetPath
    · rw [hf, Function.update_self] at hc
      cases hc
    · rwa [Function.update_of_ne hf] at hc
  have hplace : ∀ suffix ∈ sidecars, Function.update (Function.update old (tmpPath opts.targetPath) none)
      (tmpPath opts.targetPath) (some c) (opts.targetPath ++ suffix) = old (opts.targetPath ++ suffix) := fun suffix hs => by
    rw [Function.update_of_ne (target_ne_tmp hs), Function.update_of_ne (target_ne_tmp hs)]
  have hdir : s.dir = Function.update (Function.update old (tmpPath opts.targetPath) none) (tmpPath opts.targetPath) (some c) := by
    split at hw <;> cases hw <;> rfl
  refine ⟨?_, ?_, fun suffix hs => ?_, fun suffix hs => by cases hs⟩
  · rintro ⟨suffix, hs, hsome⟩
    rw [if_pos] at hw
    · cases hw
      rfl
    · exact List.any_eq_true.2 ⟨suffix, hs, (congrArg Option.isSome (hplace suffix hs)).trans hsome⟩
  · rw [hdir, Function.update_self, hfile]
    exact ⟨rfl, rfl⟩
  · rw [hdir, hplace suffix hs]
    simp

/-- **The loop**: the first `k` are moved aside. -/
theorem before_take {k : Nat} (hk : k ≤ sidecars.length)
    (h : Run.exec (step opts time) ⟨old, none⟩ ([.removeTmp, .copy, .syncTmp, .lookForOld] ++ (sidecars.take k).map .aside) = some s) :
    Before opts time old (sidecars.take k) s := by
  induction k generalizing s with
  | zero => exact before_start (by simpa using h)
  | succ k ih =>
    have hget : sidecars[k]? = some sidecars[k] := List.getElem?_eq_getElem hk
    rw [List.take_add_one, hget, Option.toList_some, List.map_append, List.map_singleton, ← List.append_assoc, exec_append] at h
    obtain ⟨u, hu, h⟩ := Option.bind_eq_some_iff.1 h
    rw [exec_singleton] at h
    have hnew : sidecars[k] ∉ sidecars.take k := by
      have h := nodup_sidecars.sublist (List.take_sublist (k + 1) sidecars)
      rw [List.take_add_one, hget, Option.toList_some] at h
      exact fun hin => (List.nodup_append.1 h).2.2 _ hin _ List.mem_cons_self rfl
    rw [List.take_add_one, hget, Option.toList_some]
    exact (ih (by omega) hu).step (List.getElem_mem _) hnew h

/-! ## After the swap -/

/-- The snapshot is at the target, and all of the old database is aside. -/
structure After (opts : RestoreOpts) (time : JsString) (old d : Dir C) : Prop where
  snapshot : d opts.targetPath = old opts.filePath ∧ (old opts.filePath).isSome = true
  gone : ∀ suffix ∈ sidecars, suffix ≠ [] → d (opts.targetPath ++ suffix) = none
  aside : ∀ suffix ∈ sidecars, ∀ c, old (opts.targetPath ++ suffix) = some c →
    d (preRestoreName opts.targetPath time ++ suffix) = some c

theorem nil_mem_sidecars : [] ∈ sidecars := mem_sidecars.2 (.inl rfl)

theorem Before.swap (h : Before opts time old sidecars s) (hstep : Restore.step opts time s .swap = some t) :
    After opts time old t.dir := by
  have htmp : opts.targetPath ≠ tmpPath opts.targetPath := by simpa using target_ne_tmp nil_mem_sidecars
  have hpre : ∀ x, preRestoreName opts.targetPath time ++ x ≠ opts.targetPath := fun x => by
    have := @pre_ne_target time opts.targetPath x [] nil_mem_sidecars
    simpa using this
  obtain ⟨c, hc⟩ := Option.isSome_iff_exists.1 h.snapshot.2
  have hdir : t.dir = Function.update (Function.update s.dir (tmpPath opts.targetPath) none) opts.targetPath (some c) := by
    simp only [Restore.step, renameSync, h.snapshot.1, hc, Option.map_some, Option.some.injEq] at hstep
    rw [← hstep]
  rw [hdir]
  refine ⟨⟨by rw [Function.update_self, hc], h.snapshot.2⟩, fun suffix hs hne => ?_, fun suffix hs c' hc' => ?_⟩
  · rw [Function.update_of_ne fun he => hne (by simpa using he), Function.update_of_ne (target_ne_tmp hs), h.place suffix hs, if_pos hs]
  · rw [Function.update_of_ne (hpre suffix), Function.update_of_ne pre_ne_tmp]
    exact h.aside suffix hs c' hc'

/-! ## Where it may stop -/

/-- The old database is at the target, with its sidecars. -/
def OldInPlace (opts : RestoreOpts) (old d : Dir C) : Prop :=
  ∀ suffix ∈ sidecars, d (opts.targetPath ++ suffix) = old (opts.targetPath ++ suffix)

/-- The snapshot is at the target, and no sidecar. -/
def SnapshotInPlace (opts : RestoreOpts) (old d : Dir C) : Prop :=
  (d opts.targetPath = old opts.filePath ∧ (old opts.filePath).isSome = true) ∧
    ∀ suffix ∈ sidecars, suffix ≠ [] → d (opts.targetPath ++ suffix) = none

/-- The files of the old database are under one name. -/
def KeptAt (opts : RestoreOpts) (old d : Dir C) (name : JsString) : Prop :=
  ∀ suffix ∈ sidecars, ∀ c, old (opts.targetPath ++ suffix) = some c → d (name ++ suffix) = some c

/-- No database is lost: one is at the target, whole, and the old one is together. -/
def Safe (opts : RestoreOpts) (old d : Dir C) : Prop :=
  (OldInPlace opts old d ∨ SnapshotInPlace opts old d) ∧
    (OldInPlace opts old d ∨ ∃ time, KeptAt opts old d (preRestoreName opts.targetPath time))

theorem OldInPlace.safe (h : OldInPlace opts old d) : Safe opts old d := ⟨.inl h, .inl h⟩

theorem After.safe (h : After opts time old d) : Safe opts old d := ⟨.inr ⟨h.snapshot, h.gone⟩, .inr ⟨time, h.aside⟩⟩

/-- Among the files that are aside, just when none of them was there. -/
theorem Before.safe_iff {moved : List JsString} (h : Before opts time old moved s) (hsub : moved ⊆ sidecars)
    (hmain : moved = [] ∨ [] ∈ moved) : Safe opts old s.dir ↔ ∀ suffix ∈ moved, old (opts.targetPath ++ suffix) = none := by
  constructor
  · rintro ⟨hplace | ⟨⟨hsnap, hsome⟩, -⟩, -⟩ suffix hs
    · have h1 := hplace suffix (hsub hs)
      rw [h.place suffix (hsub hs), if_pos hs] at h1
      exact h1.symm
    · rcases hmain with rfl | hmain
      · cases hs
      · have h1 := h.place [] nil_mem_sidecars
        rw [if_pos hmain, List.append_nil] at h1
        rw [← hsnap, h1] at hsome
        cases hsome
  · intro hnone
    refine OldInPlace.safe fun suffix hs => ?_
    rw [h.place suffix hs]
    split
    · next hm => exact (hnone suffix hm).symm
    · rfl

/-- Before the old database is looked for, it is in its place. -/
theorem oldInPlace_of_early {stop : Stop C} (hn : stop.done ≤ 3)
    (h : Run.exec (step opts time) ⟨old, none⟩ (program.take stop.done) = some s) : OldInPlace opts old (stop.leave opts s.dir) := by
  have hops : ∀ op ∈ program.take stop.done, op = .removeTmp ∨ op = .copy ∨ op = .syncTmp := fun op hop => by
    have hthree : op ∈ program.take 3 := (List.take_prefix_take_left hn).subset hop
    simpa [program] using hthree
  have hothers : ∀ path, path ≠ tmpPath opts.targetPath → s.dir path = old path := by
    refine Run.invariant_of (I := fun s : State C => ∀ path, path ≠ tmpPath opts.targetPath → s.dir path = old path)
      (fun u op w hu hop hstep path hne => ?_) (Run.of_exec h) hops fun _ _ => rfl
    rcases hop with rfl | rfl | rfl
    · cases hstep
      simp only [rmSync]
      rw [Function.update_of_ne hne, hu path hne]
    · simp only [Restore.step, copyFileSync, Option.map_eq_some_iff] at hstep
      obtain ⟨_, ⟨c, -, rfl⟩, rfl⟩ := hstep
      simp only
      rw [Function.update_of_ne hne, hu path hne]
    · cases hstep
      exact hu path hne
  intro suffix hs
  have hne : opts.targetPath ++ suffix ≠ tmpPath opts.targetPath := target_ne_tmp hs
  rw [← hothers _ hne]
  cases hc : stop.cut with
  | none => simp only [Stop.leave, hc]
  | some part =>
    simp only [Stop.leave, hc]
    split
    · rw [Function.update_of_ne hne]
    · rfl

theorem leave_of_late {stop : Stop C} (hn : 2 ≤ stop.done) : stop.leave opts d = d := by
  cases hc : stop.cut with
  | none => simp [Stop.leave, hc]
  | some part =>
    simp only [Stop.leave, hc]
    exact if_neg (by omega)

/-- The operations up to and including the `k`-th file's. -/
theorem take_program {k : Nat} (hk : k ≤ sidecars.length) :
    program.take (k + 4) = [.removeTmp, .copy, .syncTmp, .lookForOld] ++ (sidecars.take k).map .aside := by
  rw [program, List.append_assoc, List.take_append, List.take_of_length_le (by simp)]
  simp only [List.length_cons, List.length_nil]
  rw [List.take_append_of_le_length (by rw [List.length_map]; omega), List.map_take]
  rfl

theorem take_program_all {n : Nat} (hn : 9 ≤ n) : ∃ rest, program.take n =
    ([.removeTmp, .copy, .syncTmp, .lookForOld] ++ (sidecars.take sidecars.length).map .aside) ++ .swap :: rest ∧
      ∀ op ∈ rest, op = .syncDir := by
  have hlen : ([Op.removeTmp, .copy, .syncTmp, .lookForOld] ++ (sidecars.take sidecars.length).map Op.aside).length = 8 := by
    simp [sidecars]
  refine ⟨([.syncDir] : List Op).take (n - 9), ?_, fun op hop => List.mem_singleton.1 (List.take_subset _ _ hop)⟩
  have hprogram : program = ([.removeTmp, .copy, .syncTmp, .lookForOld] ++ (sidecars.take sidecars.length).map .aside) ++
      [.swap, .syncDir] := by
    rw [List.take_length, program]
  rw [hprogram, List.take_append, List.take_of_length_le (by omega), hlen, show n - 8 = (n - 9) + 1 by omega, List.take_succ_cons]

/-- **Just where a restore may stop**: where it was refused, or is past the swap, or none of the files that it has come to was
there. -/
theorem restore_safe_iff {stop : Stop C} (h : restoreBackup opts v time old stop = some d) : Safe opts old d ↔
    (refusal opts v old).isSome = true ∨ 9 ≤ stop.done ∨
      ∀ suffix ∈ sidecars.take (stop.done - 4), old (opts.targetPath ++ suffix) = none := by
  rw [restoreBackup] at h
  cases hr : refusal opts v old with
  | some r =>
    rw [hr] at h
    cases h
    exact iff_of_true (OldInPlace.safe fun _ _ => rfl) (.inl rfl)
  | none =>
    rw [hr] at h
    obtain ⟨s, hs, rfl⟩ := Option.map_eq_some_iff.1 h
    rcases Nat.lt_or_ge stop.done 4 with hn | hn
    · refine iff_of_true (oldInPlace_of_early (by omega) hs).safe (.inr (.inr fun suffix hx => ?_))
      rw [show stop.done - 4 = 0 by omega] at hx
      cases hx
    have hlen : sidecars.length = 4 := rfl
    rw [leave_of_late (by omega)]
    rcases Nat.lt_or_ge stop.done 9 with hn' | hn'
    · obtain ⟨k, hk⟩ : ∃ k, stop.done = k + 4 := ⟨stop.done - 4, by omega⟩
      rw [hk, take_program (by omega)] at hs
      have hb := before_take (by omega) hs
      rw [hb.safe_iff (List.take_subset _ _) ?_]
      · simp only [hk, Nat.add_sub_cancel]
        simp only [Option.isSome_none, Bool.false_eq_true, false_or, or_iff_right (show ¬ 9 ≤ k + 4 by omega)]
      · cases k with
        | zero => exact .inl rfl
        | succ k => exact .inr (by simp [sidecars, show js "" = [] by decide])
    · obtain ⟨rest, htake, hrest⟩ := take_program_all hn'
      rw [htake, exec_append] at hs
      obtain ⟨u, hu, hs⟩ := Option.bind_eq_some_iff.1 hs
      obtain ⟨w, hw, hs⟩ := Option.bind_eq_some_iff.1 hs
      have hb := before_take le_rfl hu
      rw [List.take_length] at hb
      have ha := hb.swap hw
      have hsame : s = w := by
        refine Run.invariant_of (I := fun s => s = w) (fun a op b ha hop hstep => ?_) (Run.of_exec hs) hrest rfl
        subst hop
        cases hstep
        exact ha
      rw [hsame]
      exact iff_of_true ha.safe (.inr (.inl hn'))

namespace Small

/-- A snapshot, and a database with a write-ahead log. -/
def files : Dir String := fun path =>
  if path = js "snap.db" then some "snapshot"
  else if path = js "db" then some "old"
  else if path = js "db-wal" then some "old log"
  else none

def request : RestoreOpts := { filePath := js "snap.db", targetPath := js "db", force := true }

def verified : VerifyResult where
  integrityOk := true
  checksumOk := true
  decryptedRows := 3
  installedEventCount := 3
  schemaTooNew := false
  pubkeyOk := some true
  authPresent := true
  authOk := true

end Small

/-- A restore that stops once the snapshot is in place. -/
theorem restore_safe_iff_done : ∃ d, restoreBackup Small.request Small.verified (js "now") Small.files { done := 9 } = some d ∧ Safe Small.request Small.files d := by
  have hrun : (restoreBackup Small.request Small.verified (js "now") Small.files { done := 9 }).isSome = true := by decide +kernel
  obtain ⟨d, hd⟩ := Option.isSome_iff_exists.1 hrun
  exact ⟨d, hd, (restore_safe_iff hd).2 (.inr (.inl (by decide)))⟩

/-- **Stopped after the main file was moved aside**: nothing is at the target, its log is, and the database is under two names. -/
theorem stopped_between : ∃ d, restoreBackup Small.request Small.verified (js "now") Small.files { done := 5 } = some d ∧
    (d (js "db") = none ∧ d (js "db-wal") = some "old log" ∧ d (js "db.pre-restore-now") = some "old" ∧
      d (js "db.pre-restore-now-wal") = none) ∧ ¬ Safe Small.request Small.files d := by
  have hrun : (restoreBackup Small.request Small.verified (js "now") Small.files { done := 5 }).map (fun d =>
      (d (js "db"), d (js "db-wal"), d (js "db.pre-restore-now"), d (js "db.pre-restore-now-wal"))) =
        some (none, some "old log", some "old", none) := by
    decide +kernel
  obtain ⟨d, hd, hfiles⟩ := Option.map_eq_some_iff.1 hrun
  simp only [Prod.mk.injEq] at hfiles
  refine ⟨d, hd, hfiles, ?_⟩
  have htarget : d Small.request.targetPath = none := hfiles.1
  rintro ⟨hplace | ⟨⟨hsnap, hsome⟩, -⟩, -⟩
  · have h := hplace [] nil_mem_sidecars
    rw [List.append_nil, htarget] at h
    revert h
    decide
  · rw [← hsnap, htarget] at hsome
    cases hsome

end Nostrautica.Restore
