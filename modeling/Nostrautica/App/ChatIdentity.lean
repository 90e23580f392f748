/-
The chat key of a device: `resolveChatIdentity`, `lockChatIdentityForLogout` and
`unlockChatIdentityForLogin` of `app/src/lib/chat/identity.ts`, for one account in the tabs of one
browser profile, which share the storage and the lock of the device key.

Of the rows of the account only the device key is kept; whether a listing finds others is up to it.
A resolve that joins the one in flight in its tab does nothing, and the client id is left out.

When a device's chat key is neither lost nor forked (`key_kept_iff`): when each write that takes
the key out of one place finds it in the other. Locks and unlocks do not exclude one another, so
the dump of one logout that overlaps another's deletions goes without the key over the snapshot
that has it (`overlapping_locks_lose`).
-/
import Mathlib
import Nostrautica.Transition.Prefixes

namespace Nostrautica.ChatIdentity

/-- How far a task has come. A dump has the device key, or has none. -/
inductive Stage (K : Type)
  /-- Of `ensureChatDeviceKeyInner`: until an unlock that is in flight is over and the lock is free. -/
  | waiting (unlock : Option Nat)
  /-- Of `readOrMintChatDeviceKey`. -/
  | reading
  /-- With no device key: is there a snapshot? -/
  | checking
  | minting
  /-- Of `lockChatIdentityForLogout`. -/
  | listing
  /-- With the keys listed, among them that of the device or not. -/
  | dumping (device : Bool)
  | encrypting (device : Bool) (dump : Option K)
  | deleting (device : Bool)
  /-- Of `unlockChatIdentityForLogin`. -/
  | unlocking
  | decrypting (dump : Option K)
  | clearing
  deriving DecidableEq

structure Task (τ K : Type) where
  tab : τ
  stage : Stage K
  deriving DecidableEq

variable {τ K : Type} [DecidableEq τ]

structure World (τ K : Type) where
  /-- The row of the device key. -/
  live : Option K := none
  /-- What the row of the locked snapshot encrypts. -/
  snapshot : Option (Option K) := none
  tasks : Nat → Option (Task τ K) := fun _ => none
  next : Nat := 0
  /-- Who holds the lock of the device key. -/
  holder : Option Nat := none
  /-- `unlockInFlight`, in each tab. -/
  unlockInFlight : τ → Option Nat := fun _ => none
  /-- The keys minted, in this order. -/
  minted : List K := []

inductive Act (τ K : Type)
  /-- The tab is loaded again, or crashes. -/
  | boot (t : τ)
  | resolve (t : τ)
  | lock (t : τ)
  | unlock (t : τ)
  /-- A task has thrown: the signer or the storage has failed. -/
  | fail (i : Nat)
  | acquire (i : Nat)
  | read (i : Nat)
  | check (i : Nat)
  | mint (i : Nat) (sk : K)
  /-- `chatKeysFor(account)`, which finds other rows or none. -/
  | list (i : Nat) (others : Bool)
  | dump (i : Nat)
  /-- The encrypted dump is stored. -/
  | store (i : Nat)
  | delete (i : Nat)
  | load (i : Nat)
  /-- The decrypted dump is stored. -/
  | restore (i : Nat)
  | clear (i : Nat)

def begin (w : World τ K) (t : τ) (stage : Stage K) : World τ K :=
  { w with tasks := Function.update w.tasks w.next (some ⟨t, stage⟩), next := w.next + 1 }

def goOn (w : World τ K) (i : Nat) (t : τ) (stage : Stage K) : World τ K :=
  { w with tasks := Function.update w.tasks i (some ⟨t, stage⟩) }

/-- The task is over: it gives the lock back and leaves `unlockInFlight`. -/
def finish (w : World τ K) (i : Nat) : World τ K :=
  { w with
    tasks := Function.update w.tasks i none
    holder := w.holder.filter (· ≠ i)
    unlockInFlight := fun t => (w.unlockInFlight t).filter (· ≠ i) }

def act (w : World τ K) : Act τ K → Option (World τ K)
  | .boot t => some { w with
      tasks := fun i => (w.tasks i).filter (·.tab ≠ t)
      holder := w.holder.filter fun i => (w.tasks i).any (·.tab ≠ t)
      unlockInFlight := Function.update w.unlockInFlight t none }
  | .resolve t => some (begin w t (.waiting (w.unlockInFlight t)))
  | .lock t => some (begin w t .listing)
  | .unlock t => some { begin w t .unlocking with unlockInFlight := Function.update w.unlockInFlight t (some w.next) }
  | .fail i => some (finish w i)
  | .acquire i =>
    match w.tasks i with
    | some ⟨t, .waiting unlock⟩ =>
      if w.holder = none ∧ unlock.all (fun u => (w.tasks u).isNone) then some { goOn w i t .reading with holder := some i } else none
    | _ => none
  | .read i =>
    match w.tasks i with
    | some ⟨t, .reading⟩ => some (if w.live.isSome then finish w i else goOn w i t .checking)
    | _ => none
  | .check i =>
    match w.tasks i with
    | some ⟨t, .checking⟩ => some (if w.snapshot.isSome then finish w i else goOn w i t .minting)
    | _ => none
  | .mint i sk =>
    match w.tasks i with
    | some ⟨_, .minting⟩ => some { finish w i with live := some sk, minted := w.minted ++ [sk] }
    | _ => none
  | .list i others =>
    match w.tasks i with
    | some ⟨t, .listing⟩ => some (if w.live.isSome || others then goOn w i t (.dumping w.live.isSome) else finish w i)
    | _ => none
  | .dump i =>
    match w.tasks i with
    | some ⟨t, .dumping device⟩ => some (goOn w i t (.encrypting device (if device then w.live else none)))
    | _ => none
  | .store i =>
    match w.tasks i with
    | some ⟨t, .encrypting device dump⟩ => some { goOn w i t (.deleting device) with snapshot := some dump }
    | _ => none
  | .delete i =>
    match w.tasks i with
    | some ⟨_, .deleting device⟩ => some { finish w i with live := if device then none else w.live }
    | _ => none
  | .load i =>
    match w.tasks i with
    | some ⟨t, .unlocking⟩ =>
      match w.snapshot with
      | some dump => some (goOn w i t (.decrypting dump))
      | none => some (finish w i)
    | _ => none
  | .restore i =>
    match w.tasks i with
    | some ⟨t, .decrypting dump⟩ => some { goOn w i t .clearing with live := dump.or w.live }
    | _ => none
  | .clear i =>
    match w.tasks i with
    | some ⟨_, .clearing⟩ => some { finish w i with snapshot := none }
    | _ => none

def Step (w : World τ K) (x : Act τ K) (w' : World τ K) : Prop := act w x = some w'

/-! ## Places of the key -/

section

variable {τ K : Type} [DecidableEq τ] {w w' : World τ K} {x : Act τ K} {acts : List (Act τ K)} {i : Nat} {t : τ} {k sk : K}

/-- The key is in live storage or in the snapshot. -/
def Kept (w : World τ K) (k : K) : Prop := w.live = some k ∨ w.snapshot = some (some k)

/-- The snapshot has a key. -/
def Locked (w : World τ K) : Prop := ∃ k, w.snapshot = some (some k)

/-- At most one key was minted, and it is not lost. -/
structure Sole (w : World τ K) : Prop where
  once : w.minted.length ≤ 1
  kept : ∀ k ∈ w.minted, Kept w k

/-- The dump that a task carries. -/
def Stage.carried : Stage K → Option K
  | .encrypting _ dump | .decrypting dump => dump
  | _ => none

/-- Every key there is was minted. -/
structure Known (w : World τ K) : Prop where
  live : ∀ k, w.live = some k → k ∈ w.minted
  snapshot : ∀ k, w.snapshot = some (some k) → k ∈ w.minted
  carried : ∀ i c k, w.tasks i = some c → c.stage.carried = some k → k ∈ w.minted

/-- A write finds the key where it does not go: a mint finds none, a snapshot without the key goes over none that has it
or the key is live, the live key is deleted when the snapshot has it, and the snapshot when the key is live. -/
def Timely (w : World τ K) : Act τ K → Prop
  | .mint _ _ => w.live = none ∧ ¬Locked w
  | .store i => ∀ t device, w.tasks i = some ⟨t, .encrypting device none⟩ → w.live.isSome ∨ ¬Locked w
  | .delete i => ∀ t, w.tasks i = some ⟨t, .deleting true⟩ → w.live = none ∨ Locked w
  | .clear _ => w.live.isSome ∨ ¬Locked w
  | _ => True

/-! ## Tasks -/

theorem carried_update {tasks : Nat → Option (Task τ K)} {P : K → Prop} {c : Option (Task τ K)}
    (h : ∀ i c k, tasks i = some c → c.stage.carried = some k → P k) (hc : ∀ d ∈ c, ∀ k, d.stage.carried = some k → P k) :
    ∀ j d k, Function.update tasks i c j = some d → d.stage.carried = some k → P k := by
  intro j d k hd hk
  by_cases hj : j = i
  · rw [hj, Function.update_self] at hd
    exact hc d hd k hk
  · rw [Function.update_of_ne hj] at hd
    exact h j d k hd hk

/-- Nothing but tasks has changed. -/
structure Same (w w' : World τ K) : Prop where
  live : w'.live = w.live
  snapshot : w'.snapshot = w.snapshot
  minted : w'.minted = w.minted

theorem Same.sole_iff (h : Same w w') : Sole w' ↔ Sole w := by
  have hkept : ∀ k, Kept w' k ↔ Kept w k := fun k => by rw [Kept, Kept, h.live, h.snapshot]
  constructor
  · rintro ⟨honce, hk⟩
    exact ⟨h.minted ▸ honce, fun k hm => (hkept k).1 (hk k (h.minted ▸ hm))⟩
  · rintro ⟨honce, hk⟩
    exact ⟨h.minted ▸ honce, fun k hm => (hkept k).2 (hk k (h.minted ▸ hm))⟩

theorem Known.same (hw : Known w) (h : Same w w') (hcarried : ∀ i c k, w'.tasks i = some c → c.stage.carried = some k → k ∈ w.minted) :
    Known w' :=
  ⟨fun k hk => h.minted ▸ hw.live k (h.live ▸ hk), fun k hk => h.minted ▸ hw.snapshot k (h.snapshot ▸ hk),
    fun i c k hc hk => h.minted ▸ hcarried i c k hc hk⟩

/-- A task that goes on carries nothing that was not minted. -/
theorem Known.goOn (hw : Known w) {stage : Stage K} (hstage : ∀ k, stage.carried = some k → k ∈ w.minted) : Known (goOn w i t stage) :=
  hw.same ⟨rfl, rfl, rfl⟩ (carried_update hw.carried fun d hd k hk => by
    cases hd
    exact hstage k hk)

theorem carried_finish (hw : Known w) : ∀ j d k, (finish w i).tasks j = some d → d.stage.carried = some k → k ∈ w.minted :=
  carried_update hw.carried fun d hd => by cases hd

theorem Known.finish (hw : Known w) : Known (finish w i) := hw.same ⟨rfl, rfl, rfl⟩ (carried_finish hw)

theorem Known.begin (hw : Known w) {stage : Stage K} (hstage : stage.carried = none) : Known (begin w t stage) :=
  hw.same ⟨rfl, rfl, rfl⟩ (carried_update hw.carried fun d hd k hk => by
    cases hd
    rw [hstage] at hk
    cases hk)

/-- What a step does to the key. -/
inductive Does (w : World τ K) : Act τ K → World τ K → Prop
  | nothing {y : Act τ K} {v : World τ K} (htimely : Timely w y) (hsame : Same w v) : Does w y v
  | mint {v : World τ K} (i : Nat) (sk : K) (hlive : v.live = some sk) (hsnapshot : v.snapshot = w.snapshot)
      (hminted : v.minted = w.minted ++ [sk]) : Does w (.mint i sk) v
  | store {v : World τ K} (i : Nat) (t : τ) (device : Bool) (dump : Option K) (htask : w.tasks i = some ⟨t, .encrypting device dump⟩)
      (hlive : v.live = w.live) (hsnapshot : v.snapshot = some dump) (hminted : v.minted = w.minted) : Does w (.store i) v
  | delete {v : World τ K} (i : Nat) (t : τ) (device : Bool) (htask : w.tasks i = some ⟨t, .deleting device⟩)
      (hlive : v.live = if device then none else w.live) (hsnapshot : v.snapshot = w.snapshot) (hminted : v.minted = w.minted) :
      Does w (.delete i) v
  | restore {v : World τ K} (i : Nat) (t : τ) (dump : Option K) (htask : w.tasks i = some ⟨t, .decrypting dump⟩)
      (hlive : v.live = dump.or w.live) (hsnapshot : v.snapshot = w.snapshot) (hminted : v.minted = w.minted) :
      Does w (.restore i) v
  | clear {v : World τ K} (i : Nat) (hlive : v.live = w.live) (hsnapshot : v.snapshot = none) (hminted : v.minted = w.minted) :
      Does w (.clear i) v

theorem Step.does (h : Step w x w') (hw : Known w) : Known w' ∧ Does w x w' := by
  cases x with
  | boot t =>
    cases h
    refine ⟨hw.same ⟨rfl, rfl, rfl⟩ fun i c k hc hk => ?_, .nothing trivial ⟨rfl, rfl, rfl⟩⟩
    exact hw.carried i c k (Option.filter_eq_some_iff.1 hc).1 hk
  | resolve t => cases h; exact ⟨hw.begin rfl, .nothing trivial ⟨rfl, rfl, rfl⟩⟩
  | lock t => cases h; exact ⟨hw.begin rfl, .nothing trivial ⟨rfl, rfl, rfl⟩⟩
  | unlock t =>
    cases h
    have hbegun : Known (ChatIdentity.begin w t .unlocking) := hw.begin rfl
    exact ⟨hbegun.same ⟨rfl, rfl, rfl⟩ hbegun.carried, .nothing trivial ⟨rfl, rfl, rfl⟩⟩
  | fail i => cases h; exact ⟨hw.finish, .nothing trivial ⟨rfl, rfl, rfl⟩⟩
  | acquire i =>
    simp only [Step, act] at h
    split at h
    next t unlock hi =>
      split at h <;> cases h
      have hgo : Known (ChatIdentity.goOn w i t .reading) := hw.goOn fun k hk => by cases hk
      exact ⟨hgo.same ⟨rfl, rfl, rfl⟩ hgo.carried, .nothing trivial ⟨rfl, rfl, rfl⟩⟩
    · cases h
  | read i =>
    simp only [Step, act] at h
    split at h <;> cases h
    split
    · exact ⟨hw.finish, .nothing trivial ⟨rfl, rfl, rfl⟩⟩
    · exact ⟨hw.goOn fun k hk => (by cases hk), .nothing trivial ⟨rfl, rfl, rfl⟩⟩
  | check i =>
    simp only [Step, act] at h
    split at h <;> cases h
    split
    · exact ⟨hw.finish, .nothing trivial ⟨rfl, rfl, rfl⟩⟩
    · exact ⟨hw.goOn fun k hk => (by cases hk), .nothing trivial ⟨rfl, rfl, rfl⟩⟩
  | mint i sk =>
    simp only [Step, act] at h
    split at h <;> cases h
    refine ⟨⟨fun k hk => ?_, fun k hk => ?_, fun j c k hc hk => ?_⟩, .mint i sk rfl rfl rfl⟩
    · cases hk
      exact List.mem_append_right _ (List.mem_singleton_self _)
    · exact List.mem_append_left _ (hw.snapshot k hk)
    · exact List.mem_append_left _ (carried_finish hw j c k hc hk)
  | list i others =>
    simp only [Step, act] at h
    split at h <;> cases h
    split
    · exact ⟨hw.goOn fun k hk => (by cases hk), .nothing trivial ⟨rfl, rfl, rfl⟩⟩
    · exact ⟨hw.finish, .nothing trivial ⟨rfl, rfl, rfl⟩⟩
  | dump i =>
    simp only [Step, act] at h
    split at h <;> cases h
    refine ⟨hw.goOn fun k hk => ?_, .nothing trivial ⟨rfl, rfl, rfl⟩⟩
    simp only [Stage.carried] at hk
    split at hk
    · exact hw.live k hk
    · cases hk
  | store i =>
    simp only [Step, act] at h
    split at h <;> cases h
    next t device dump hi =>
    have hgo : Known (ChatIdentity.goOn w i t (.deleting device)) := hw.goOn fun k hk => by cases hk
    exact ⟨⟨hgo.live, fun k hk => hw.carried i _ k hi (Option.some.inj hk), hgo.carried⟩, .store i t device dump hi rfl rfl rfl⟩
  | delete i =>
    simp only [Step, act] at h
    split at h <;> cases h
    next t device hi =>
    refine ⟨⟨fun k hk => ?_, hw.snapshot, carried_finish hw⟩, .delete i t device hi rfl rfl rfl⟩
    dsimp only at hk
    split at hk
    · cases hk
    · exact hw.live k hk
  | load i =>
    simp only [Step, act] at h
    split at h
    next t hi =>
      split at h <;> cases h
      · next dump hdump =>
        refine ⟨hw.goOn fun k hk => hw.snapshot k ?_, .nothing trivial ⟨rfl, rfl, rfl⟩⟩
        rw [hdump]
        exact congrArg some hk
      · exact ⟨hw.finish, .nothing trivial ⟨rfl, rfl, rfl⟩⟩
    · cases h
  | restore i =>
    simp only [Step, act] at h
    split at h <;> cases h
    next t dump hi =>
    have hgo : Known (ChatIdentity.goOn w i t .clearing) := hw.goOn fun k hk => by cases hk
    refine ⟨⟨fun k hk => ?_, hgo.snapshot, hgo.carried⟩, .restore i t dump hi rfl rfl rfl⟩
    rcases Option.or_eq_some_iff.1 hk with hdump | ⟨-, hlive⟩
    · exact hw.carried i _ k hi hdump
    · exact hw.live k hlive
  | clear i =>
    simp only [Step, act] at h
    split at h <;> cases h
    exact ⟨⟨hw.live, fun k hk => (by cases hk), carried_finish hw⟩, .clear i rfl rfl rfl⟩

/-- There are no two keys. -/
theorem Sole.eq (hs : Sole w) (hk : k ∈ w.minted) (hl : sk ∈ w.minted) : k = sk := by
  obtain ⟨a, ha⟩ := List.length_eq_one_iff.1 (le_antisymm hs.once (List.length_pos_of_mem hk))
  rw [ha, List.mem_singleton] at hk hl
  rw [hk, hl]

theorem sole_iff_kept (hs : Sole w) (hminted : w'.minted = w.minted) : Sole w' ↔ ∀ k ∈ w.minted, Kept w' k :=
  ⟨fun h k hk => h.kept k (hminted ▸ hk), fun h => ⟨hminted ▸ hs.once, fun k hk => h k (hminted ▸ hk)⟩⟩

/-- A snapshot with no key goes over the one there is, or that is deleted. -/
theorem sole_iff_live (hw : Known w) (hs : Sole w) (hlive : w'.live = w.live) (hsnapshot : ∀ k, w'.snapshot ≠ some (some k))
    (hminted : w'.minted = w.minted) : Sole w' ↔ w.live.isSome ∨ ¬Locked w := by
  rw [sole_iff_kept hs hminted]
  constructor
  · intro hkept
    by_contra hlost
    obtain ⟨hdead, hlocked⟩ := not_or.1 hlost
    obtain ⟨k, hk⟩ := not_not.1 hlocked
    rcases hkept k (hw.snapshot k hk) with hk' | hk'
    · exact hdead (Option.isSome_iff_exists.2 ⟨k, hlive ▸ hk'⟩)
    · exact hsnapshot k hk'
  · intro hl k hk
    rcases hs.kept k hk with hk' | hk'
    · exact .inl (hlive.trans hk')
    · obtain ⟨l, hl⟩ := Option.isSome_iff_exists.1 (hl.resolve_right (not_not.2 ⟨k, hk'⟩))
      exact .inl ((hlive.trans hl).trans (congrArg some (hs.eq (hw.live l hl) hk)))

/-- A step keeps the one key just when it is timely. -/
theorem Does.sole_iff (h : Does w x w') (hw : Known w) (hs : Sole w) : Sole w' ↔ Timely w x := by
  cases h with
  | nothing htimely hsame => exact (hsame.sole_iff.trans (iff_of_true hs trivial)).trans (iff_of_true trivial htimely)
  | mint i sk hlive hsnapshot hminted =>
    constructor
    · intro hs'
      have hnone : w.minted = [] := by
        have hlength := hs'.once
        rw [hminted, List.length_append, List.length_singleton] at hlength
        exact List.length_eq_zero_iff.1 (by omega)
      refine ⟨Option.eq_none_iff_forall_ne_some.2 fun k hk => ?_, fun ⟨k, hk⟩ => ?_⟩
      · exact absurd (hw.live k hk) (hnone ▸ List.not_mem_nil)
      · exact absurd (hw.snapshot k hk) (hnone ▸ List.not_mem_nil)
    · rintro ⟨hnone, hlocked⟩
      have hempty : w.minted = [] := List.eq_nil_iff_forall_not_mem.2 fun k hk => by
        rcases hs.kept k hk with hk | hk
        · rw [hnone] at hk
          cases hk
        · exact hlocked ⟨k, hk⟩
      rw [hempty, List.nil_append] at hminted
      refine ⟨by rw [hminted]; rfl, fun k hk => .inl ?_⟩
      rw [hminted, List.mem_singleton] at hk
      rw [hlive, hk]
  | store i t device dump htask hlive hsnapshot hminted =>
    cases dump with
    | none =>
      rw [sole_iff_live hw hs hlive (fun k hk => by cases hsnapshot.symm.trans hk) hminted]
      exact ⟨fun h _ _ _ => h, fun h => h t device htask⟩
    | some l =>
      refine iff_of_true ((sole_iff_kept hs hminted).2 fun k hk => .inr ?_) fun t' device' htask' => ?_
      · rw [hsnapshot, hs.eq hk (hw.carried i _ l htask rfl)]
      · cases htask.symm.trans htask'
  | delete i t device htask hlive hsnapshot hminted =>
    cases device with
    | false =>
      refine iff_of_true ((Same.sole_iff ⟨hlive, hsnapshot, hminted⟩).2 hs) fun t' htask' => ?_
      cases htask.symm.trans htask'
    | true =>
      rw [sole_iff_kept hs hminted]
      constructor
      · intro hkept t' _
        cases hl : w.live with
        | none => exact .inl rfl
        | some l =>
          rcases hkept l (hw.live l hl) with hk | hk
          · cases hlive.symm.trans hk
          · exact .inr ⟨l, hsnapshot ▸ hk⟩
      · intro htimely k hk
        refine .inr (hsnapshot.trans ?_)
        rcases hs.kept k hk with hk' | hk'
        · rcases htimely t htask with hnone | ⟨l, hl⟩
          · cases hnone.symm.trans hk'
          · rw [hl, hs.eq hk (hw.snapshot l hl)]
        · exact hk'
  | restore i t dump htask hlive hsnapshot hminted =>
    refine iff_of_true ((sole_iff_kept hs hminted).2 fun k hk => ?_) trivial
    cases dump with
    | none => exact (hs.kept k hk).imp hlive.trans hsnapshot.trans
    | some l => exact .inl (hlive.trans (congrArg some (hs.eq (hw.carried i _ l htask rfl) hk)))
  | clear i hlive hsnapshot hminted =>
    exact sole_iff_live hw hs hlive (fun k hk => by cases hsnapshot.symm.trans hk) hminted

theorem known_start : Known ({} : World τ K) where
  live _ h := by cases h
  snapshot _ h := by cases h
  carried _ _ _ h := by cases h

/-- **A device's chat key is neither lost nor forked**, in every state of a run, just when each of its writes was timely. -/
theorem key_kept_iff (h : Run Step ({} : World τ K) acts w) :
    Run.Always Step Sole ({} : World τ K) acts ↔ Run (fun w x w' => Step w x w' ∧ Timely w x) ({} : World τ K) acts w :=
  Run.always_iff (fun ha hb => Option.some.inj (ha.symm.trans hb)) (fun hw ha => (ha.does hw).1) (fun hw hs ha => (ha.does hw).2.sole_iff hw hs) h
    known_start ⟨Nat.zero_le 1, fun _ h => by cases h⟩

end

/-! ## Two runs -/

namespace Small

/-- The key of the device is minted. -/
def mint : List (Act Bool Nat) := [.resolve true, .acquire 0, .read 0, .check 0, .mint 0 7]

/-- One logout. -/
def logout : List (Act Bool Nat) := [.lock true, .list 1 false, .dump 1, .store 1, .delete 1]

/-- A logout in each of two tabs: the second has listed the key before the first deletes it, and reads it after. -/
def overlap : List (Act Bool Nat) :=
  [.lock true, .list 1 false, .lock false, .list 2 false, .dump 1, .store 1, .delete 1, .dump 2, .store 2, .delete 2]

end Small

/-- The key goes into the snapshot at a logout. -/
theorem key_kept_logout : ∃ w, Run Step ({} : World Bool Nat) (Small.mint ++ Small.logout) w ∧ w.minted = [7] ∧ w.snapshot = some (some 7) ∧
    Run.Always Step Sole ({} : World Bool Nat) (Small.mint ++ Small.logout) := by
  have hrun : Run Step ({} : World Bool Nat) (Small.mint ++ Small.logout) _ := Run.of_exec rfl
  refine ⟨_, hrun, rfl, rfl, (key_kept_iff hrun).2 (Run.of_guarded rfl ?_)⟩
  refine .next trivial rfl (.next trivial rfl (.next trivial rfl (.next trivial rfl (.next ⟨rfl, ?_⟩ rfl (.next trivial rfl
    (.next trivial rfl (.next trivial rfl (.next ?_ rfl (.next ?_ rfl trivial)))))))))
  · rintro ⟨k, hk⟩
    cases hk
  · rintro t device -
    exact .inl rfl
  · rintro t -
    exact .inr ⟨7, rfl⟩

/-- Two logouts that overlap lose the key. -/
theorem overlapping_locks_lose : ∃ w, Run Step ({} : World Bool Nat) (Small.mint ++ Small.overlap) w ∧
    w.minted = [7] ∧ w.live = none ∧ w.snapshot = some none ∧ ¬Run.Always Step Sole ({} : World Bool Nat) (Small.mint ++ Small.overlap) := by
  have hrun : Run Step ({} : World Bool Nat) (Small.mint ++ Small.overlap) _ := Run.of_exec rfl
  refine ⟨_, hrun, rfl, rfl, rfl, fun h => ?_⟩
  rcases (h _ _ List.prefix_rfl hrun).kept 7 (List.mem_singleton_self 7) with hk | hk <;> cases hk

end Nostrautica.ChatIdentity
