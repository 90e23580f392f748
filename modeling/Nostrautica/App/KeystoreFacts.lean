/-
What a device keeps of its event keys (`keys_kept`): every secret it ever stored, as long as
the records that are merged agree on the current secrets, or hold the other inbox as a prior
one, and a restore stays within the bound on prior inboxes. A merge of two records with
different inboxes drops the one of the snapshot (`merge_drops_inbox`).
-/
import Nostrautica.App.Keystore
import Nostrautica.Coordinator.InstallsFacts

set_option linter.unusedSectionVars false

namespace Nostrautica.Keystore

open Js Nostrautica.Membership

/-- A secret of an event. -/
inductive Secret (K : Type)
  | identity (nsec : JsString)
  | inbox (nsec : JsString)
  | version (v : EckVersion K)

variable {K : Type} [DecidableEq K]

def EventKeys.Has (keys : EventKeys K) : Secret K → Prop
  | .identity nsec => keys.eidNsecHex = some nsec
  | .inbox nsec => keys.einboxNsecHex = some nsec ∨ nsec ∈ keys.priorEinboxNsecs
  | .version v => v ∈ keys.eck ∨ v ∈ keys.pendingEck

/-- A secret is in the live record or in the locked snapshot. -/
def Store.Holds (s : Store K) (secret : Secret K) : Prop :=
  (∃ keys, s.live = some keys ∧ keys.Has secret) ∨ ∃ keys, s.locked = some keys ∧ keys.Has secret

/-- The copies agree on the identity, and on the inbox unless that of `fallback` is a prior one. -/
structure Mergeable (primary fallback : EventKeys K) : Prop where
  identity : ∀ nsec nsec', fallback.eidNsecHex = some nsec → primary.eidNsecHex = some nsec' → nsec' = nsec
  inbox : ∀ nsec nsec', fallback.einboxNsecHex = some nsec → primary.einboxNsecHex = some nsec' →
    nsec' = nsec ∨ nsec ∈ primary.priorEinboxNsecs ∨ nsec ∈ fallback.priorEinboxNsecs

/-- A restore has room for all the prior inboxes; a record without both secrets has no inbox
and no staged version. -/
def Restorable (keys : EventKeys K) (backup : EventKeysBackup K) : Prop :=
  match localBackup keys with
  | some own => ((inboxes own backup).filter (· ≠ own.einbox_nsec)).length ≤ maxPriorInboxes
  | none => keys.einboxNsecHex = none ∧ keys.priorEinboxNsecs = [] ∧ keys.pendingEck = []

/-- The copies that a step merges agree on what there is one of. -/
def Timely (s : Store K) : Act K → Prop
  | .applyOrganizerGrant grant _ => ∀ keys nsec, s.live = some keys → keys.eidNsecHex = some nsec → nsec = grant.eidNsecHex
  | .restore backup => ∀ keys, s.live = some keys → Restorable keys backup
  | .lock decrypts encrypts => decrypts = true → encrypts = true →
    ∀ keys prior, s.live = some keys → s.locked = some prior → Mergeable keys prior
  | .unlock decrypts => decrypts = true →
    ∀ keys prior, s.live = some keys → s.locked = some prior → Mergeable keys prior
  | _ => True

section

variable {fingerprint : K → Nat} {keys primary fallback : EventKeys K} {secret : Secret K} {s s' : Store K} {x : Act K} {d : Deps K}

/-! ## The writers -/

theorem mem_unionPending {current held incoming : List (EckVersion K)} {v : EckVersion K}
    (h : v ∈ held ∨ v ∈ incoming) : v ∈ current ∨ v ∈ unionPending fingerprint current held incoming := by
  by_cases hv : v ∈ current
  · exact .inl hv
  · exact .inr (List.mem_filter.2 ⟨Installs.mem_unionEck.2 h, by simpa using hv⟩)

theorem has_addEckVersions {versions : List (EckVersion K)} {role : Role} (h : keys.Has secret) :
    (addEckVersions fingerprint (some keys) versions role).Has secret := by
  cases secret with
  | identity nsec => exact h
  | inbox nsec => exact h
  | version v => exact h.imp (fun hv => Installs.mem_unionEck.2 (.inl hv)) id

theorem has_applyOrganizerGrant {grant : OrganizerGrant K} {owner : JsString} (h : keys.Has secret)
    (hid : ∀ nsec, keys.eidNsecHex = some nsec → nsec = grant.eidNsecHex) :
    (applyOrganizerGrant fingerprint (some keys) grant owner).Has secret := by
  cases secret with
  | identity nsec => exact congrArg some (hid nsec h).symm
  | inbox nsec =>
    by_cases hcur : nsec = grant.einboxNsecHex
    · exact .inl (congrArg some hcur.symm)
    · refine .inr (List.mem_filter.2 ⟨List.mem_eraseDups.2 ?_, by simpa using hcur⟩)
      rcases h with h | h
      · exact List.mem_append_right _ (Option.mem_toList.2 h)
      · exact List.mem_append_left _ (List.mem_append_left _ h)
  | version v => exact h.imp (fun hv => Installs.mem_unionEck.2 (.inl hv)) id

theorem has_adoptConfigInbox {keys' : EventKeys K} {configInbox : JsString} {inboxPubkeyOf : JsString → JsString}
    (h : keys.Has secret) (hadopt : adoptConfigInbox (some keys) configInbox inboxPubkeyOf = some keys') : keys'.Has secret := by
  simp only [adoptConfigInbox, Option.bind_eq_bind, Option.bind_some, Option.bind_eq_some_iff] at hadopt
  obtain ⟨current, hcurrent, hadopt⟩ := hadopt
  split at hadopt
  · cases hadopt
  · obtain ⟨found, hfound, hadopt⟩ := Option.bind_eq_some_iff.1 hadopt
    cases hadopt
    cases secret with
    | identity nsec => exact h
    | version v => exact h
    | inbox nsec =>
      rcases h with h | h
      · cases h.symm.trans hcurrent
        exact .inr (List.mem_append_right _ List.mem_cons_self)
      · by_cases hnsec : nsec = found
        · exact .inl (congrArg some hnsec.symm)
        · exact .inr (List.mem_append_left _ (List.mem_filter.2 ⟨h, by simpa using hnsec⟩))

/-! ## Merges -/

/-- The primary copy loses nothing. -/
theorem has_mergeEventKeys_left (h : primary.Has secret) : (mergeEventKeys fingerprint primary fallback).Has secret := by
  cases secret with
  | identity nsec =>
    simp only [EventKeys.Has] at h
    simp only [EventKeys.Has, mergeEventKeys, h, Option.some_or]
  | inbox nsec =>
    rcases h with h | h
    · exact .inl (by simp only [mergeEventKeys, h, Option.some_or])
    · exact .inr (List.mem_eraseDups.2 (List.mem_append_left _ h))
  | version v =>
    rcases h with h | h
    · exact .inl (Installs.mem_unionEck.2 (.inl h))
    · exact mem_unionPending (.inl h)

/-- The other copy loses nothing either where they agree. -/
theorem has_mergeEventKeys_right (hm : Mergeable primary fallback) (h : fallback.Has secret) :
    (mergeEventKeys fingerprint primary fallback).Has secret := by
  cases secret with
  | identity nsec =>
    simp only [EventKeys.Has] at h
    simp only [EventKeys.Has, mergeEventKeys]
    cases hp : primary.eidNsecHex with
    | none => rw [Option.none_or, h]
    | some nsec' => rw [Option.some_or, hm.identity nsec nsec' h hp]
  | inbox nsec =>
    have hprior : nsec ∈ primary.priorEinboxNsecs ∨ nsec ∈ fallback.priorEinboxNsecs →
        nsec ∈ (mergeEventKeys fingerprint primary fallback).priorEinboxNsecs :=
      fun h => List.mem_eraseDups.2 (List.mem_append.2 h)
    rcases h with h | h
    · cases hp : primary.einboxNsecHex with
      | none => exact .inl (by simp only [mergeEventKeys, hp, Option.none_or, h])
      | some nsec' =>
        rcases hm.inbox nsec nsec' h hp with rfl | hmem
        · exact .inl (by simp only [mergeEventKeys, hp, Option.some_or])
        · exact .inr (hprior hmem)
    · exact .inr (hprior (.inr h))
  | version v =>
    rcases h with h | h
    · exact .inl (Installs.mem_unionEck.2 (.inr h))
    · exact mem_unionPending (.inr h)

/-- A merge keeps what both copies have just when they are mergeable. -/
theorem mergeEventKeys_keeps_iff :
    (∀ secret, primary.Has secret ∨ fallback.Has secret → (mergeEventKeys fingerprint primary fallback).Has secret) ↔
      Mergeable primary fallback := by
  constructor
  · intro h
    constructor
    · intro nsec nsec' hf hp
      have hkept := h (.identity nsec) (.inr hf)
      simp only [EventKeys.Has, mergeEventKeys, hp, Option.some_or] at hkept
      exact Option.some.inj hkept
    · intro nsec nsec' hf hp
      rcases h (.inbox nsec) (.inr (.inl hf)) with hkept | hkept
      · simp only [mergeEventKeys, hp, Option.some_or] at hkept
        exact .inl (Option.some.inj hkept)
      · exact .inr (List.mem_append.1 (List.mem_eraseDups.1 hkept))
  · rintro hm secret (h | h)
    · exact has_mergeEventKeys_left h
    · exact has_mergeEventKeys_right hm h

/-! ## Restores -/

theorem sliceLast_of_le {α : Type} {n : Nat} {l : List α} (h : l.length ≤ n) : sliceLast n l = l := by
  rw [sliceLast, Nat.sub_eq_zero_of_le h, List.drop_zero]

/-- What the local copy of a backup takes from a record with both secrets. -/
structure Copies (keys : EventKeys K) (own : EventKeysBackup K) : Prop where
  identity : keys.eidNsecHex = some own.eid_nsec
  inbox : keys.einboxNsecHex = some own.einbox_nsec
  eck : own.eck = keys.eck
  pending : own.pending_eck = keys.pendingEck
  prior : own.prior_einbox_nsecs = keys.priorEinboxNsecs

theorem localBackup_some {own : EventKeysBackup K} (h : localBackup keys = some own) : Copies keys own := by
  simp only [localBackup, Option.bind_eq_bind, Option.bind_eq_some_iff] at h
  obtain ⟨eid, heid, inbox, hinbox, h⟩ := h
  cases h
  exact ⟨heid, hinbox, rfl, rfl, rfl⟩

theorem has_restore {inboxPubkey : JsString → Option JsString} {backup : EventKeysBackup K} (h : keys.Has secret)
    (hr : Restorable keys backup) : (restore fingerprint inboxPubkey (some keys) backup).Has secret := by
  unfold Restorable at hr
  simp only [restore, Option.bind_some]
  cases hown : localBackup keys with
  | some own =>
    rw [hown] at hr
    have hc := localBackup_some hown
    cases secret with
    | identity nsec => exact congrArg (Option.or · _) h
    | inbox nsec =>
      by_cases hcur : nsec = own.einbox_nsec
      · exact .inl (congrArg some hcur.symm)
      · right
        simp only [mergeEventKeysBackups, Option.bind_none, Option.getD_none]
        rw [sliceLast_of_le hr]
        refine List.mem_filter.2 ⟨List.mem_eraseDups.2 ?_, by simpa using hcur⟩
        have hprior : nsec ∈ own.prior_einbox_nsecs := by
          rcases h with h | h
          · exact absurd (Option.some.inj (h.symm.trans hc.inbox)) hcur
          · exact hc.prior ▸ h
        exact List.mem_append_left _ (List.mem_append_right _ hprior)
    | version v =>
      rcases h with h | h
      · exact .inl (Installs.mem_unionEck.2 (.inl (hc.eck ▸ h)))
      · exact mem_unionPending (.inl (hc.pending ▸ h))
  | none =>
    rw [hown] at hr
    obtain ⟨hinbox, hprior, hpending⟩ := hr
    cases secret with
    | identity nsec => exact congrArg (Option.or · _) h
    | inbox nsec =>
      rcases h with h | h
      · cases hinbox.symm.trans h
      · rw [hprior] at h
        cases h
    | version v =>
      rcases h with h | h
      · exact .inl (Installs.mem_unionEck.2 (.inl (Installs.mem_unionEck.2 (.inl h))))
      · rw [hpending] at h
        cases h

/-! ## Steps -/

theorem Store.holds_live (hlive : s.live = some keys) (h : keys.Has secret) : s.Holds secret := .inl ⟨keys, hlive, h⟩

/-- A writer of the live record loses nothing that its new record has. -/
theorem Store.Holds.write {keys' : EventKeys K} (hs : s.Holds secret)
    (hkeep : ∀ keys, s.live = some keys → keys.Has secret → keys'.Has secret) :
    ({ s with live := some keys' } : Store K).Holds secret := by
  rcases hs with ⟨keys, hlive, h⟩ | hlocked
  · exact .inl ⟨keys', rfl, hkeep keys hlive h⟩
  · exact .inr hlocked

theorem Store.Holds.lock {decrypts encrypts : Bool} (hs : s.Holds secret) (ht : Timely s (.lock decrypts encrypts)) :
    (lockEventKeysForLogout d.fingerprint s decrypts encrypts).Holds secret := by
  unfold lockEventKeysForLogout
  split
  · exact hs
  next rec hlive =>
    split
    next hlocked =>
      split
      · rcases hs with ⟨keys, hl, h⟩ | ⟨keys, hl, h⟩
        · cases hlive.symm.trans hl
          exact .inr ⟨_, rfl, h⟩
        · cases hlocked.symm.trans hl
      · exact hs
    next prior hlocked =>
      split
      next hboth =>
        rw [Bool.and_eq_true] at hboth
        have hm := ht hboth.1 hboth.2 rec prior hlive hlocked
        rcases hs with ⟨keys, hl, h⟩ | ⟨keys, hl, h⟩
        · cases hlive.symm.trans hl
          exact .inr ⟨_, rfl, has_mergeEventKeys_left h⟩
        · cases hlocked.symm.trans hl
          exact .inr ⟨_, rfl, has_mergeEventKeys_right hm h⟩
      · exact hs

theorem Store.Holds.unlock {decrypts : Bool} (hs : s.Holds secret) (ht : Timely s (.unlock decrypts)) :
    (unlockEventKeysForLogin d.fingerprint s decrypts).Holds secret := by
  unfold unlockEventKeysForLogin
  split
  · exact hs
  next restored hlocked =>
    split
    next hdec =>
      rcases hs with ⟨keys, hl, h⟩ | ⟨keys, hl, h⟩
      · rw [hl]
        exact .inl ⟨_, rfl, has_mergeEventKeys_left h⟩
      · cases hlocked.symm.trans hl
        cases hlive : s.live with
        | none => exact .inl ⟨_, rfl, h⟩
        | some existing => exact .inl ⟨_, rfl, has_mergeEventKeys_right (ht hdec existing restored hlive hlocked) h⟩
    · exact hs

theorem Store.Holds.step (hs : s.Holds secret) (ht : Timely s x) (h : Step d s x s') : s'.Holds secret := by
  cases h
  cases x with
  | addEckVersions versions role =>
    exact hs.write fun keys hlive h => by
      rw [hlive]
      exact has_addEckVersions h
  | applyOrganizerGrant grant owner =>
    exact hs.write fun keys hlive h => by
      rw [hlive]
      exact has_applyOrganizerGrant h (ht keys · hlive)
  | adoptConfigInbox configInbox =>
    simp only [act]
    cases hadopt : adoptConfigInbox s.live configInbox d.inboxPubkeyOf with
    | none => exact hs
    | some keys' =>
      exact hs.write fun keys hlive h => by
        rw [hlive] at hadopt
        exact has_adoptConfigInbox h hadopt
  | restore backup =>
    exact hs.write fun keys hlive h => by
      rw [hlive]
      exact has_restore h (ht keys hlive)
  | lock decrypts encrypts => exact hs.lock ht
  | unlock decrypts => exact hs.unlock ht

/-- **A device keeps its event keys.** What the live record or the locked snapshot holds at one
time, one of them holds after any run of the writers, of restores, locks and unlocks from
there, whichever of their encryptions and decryptions fail. -/
theorem keys_kept {acts : List (Act K)} (h : Run (fun s x s' => Step d s x s' ∧ Timely s x) s acts s')
    (hs : s.Holds secret) : s'.Holds secret :=
  Run.invariant (I := fun s => s.Holds secret) (fun _ _ _ hi hx => hi.step hx.2 hx.1) h hs

end

/-! ## Two runs -/

namespace Small

def deps : Deps Nat := { fingerprint := id, inboxPubkeyOf := id, inboxPubkey := some }

/-- An organizer's record, whose inbox was rotated once. -/
def keys : EventKeys Nat :=
  { role := .organizer
    eck := [⟨1, 7⟩]
    eidNsecHex := some (js "e")
    einboxNsecHex := some (js "b")
    priorEinboxNsecs := [js "a"] }

/-- The unlock after a logout fails, and before the next one a grant is received. -/
def relogin (prior : List JsString) : List (Act Nat) :=
  [.lock true true, .unlock false,
    .applyOrganizerGrant { eck := [⟨2, 8⟩], eidNsecHex := js "e", einboxNsecHex := js "c", priorEinboxNsecs := prior } (js "o"),
    .unlock true]

/-- The store after these. -/
def store (acts : List (Act Nat)) : Store Nat := acts.foldl (act deps) { live := some keys }

theorem timely_relogin : Run (fun s x s' => Step deps s x s' ∧ Timely s x) { live := some keys } (relogin [js "b"])
    (store (relogin [js "b"])) := by
  refine .cons ⟨rfl, fun _ _ _ _ _ h => by cases h⟩ (.cons ⟨rfl, fun h => by cases h⟩ (.cons ⟨rfl, fun _ _ h => by cases h⟩
    (.cons ⟨rfl, fun _ live prior hlive hlocked => ?_⟩ .nil)))
  cases hlive
  cases hlocked
  refine ⟨fun nsec nsec' hf hp => ?_, fun nsec nsec' hf _ => .inr (.inl ?_)⟩
  · cases hf
    cases hp
    rfl
  · cases hf
    decide

end Small

/-- The grant names the inbox of the snapshot as a prior one. -/
theorem keys_kept_relogin : (Small.store (Small.relogin [js "b"])).Holds (.inbox (js "b")) :=
  keys_kept Small.timely_relogin (.inl ⟨_, rfl, .inl rfl⟩)

/-- A grant that does not name the inbox of the snapshot takes its place: the merge at the
unlock drops that secret. -/
theorem merge_drops_inbox : Run (Step Small.deps) { live := some Small.keys } (Small.relogin []) (Small.store (Small.relogin [])) ∧
    ({ live := some Small.keys } : Store Nat).Holds (.inbox (js "b")) ∧
    ¬(Small.store (Small.relogin [])).Holds (.inbox (js "b")) := by
  refine ⟨.cons rfl (.cons rfl (.cons rfl (.cons rfl .nil))), .inl ⟨_, rfl, .inl rfl⟩, ?_⟩
  rintro (⟨keys, hlive, h⟩ | ⟨keys, hlocked, -⟩)
  · cases hlive
    rcases h with h | h
    · cases h
    · exact absurd h (by decide)
  · cases hlocked

end Nostrautica.Keystore
