/-
What the memo of gift wraps hides (`grants_held_iff`). An entry says what its wrap was when it was processed: a grant
with the ids of its versions, no grant, or one that a 31600 did not name the sealer of. A complete scan leaves
what it read in the keystore, but for a wrap that is wanted again while its entry still passes it over: the keystore
has another key under the id, or the 31600 has changed (`Cause`).
-/
import Nostrautica.App.Grants
import Nostrautica.App.KeystoreFacts

set_option linter.unusedSectionVars false

namespace Nostrautica.Grants

open Js Keystore

variable {W K : Type} [DecidableEq W] [DecidableEq K] {d : Deps W K} {s : Scan W} {w w' : World W K} {p : Pass W K}
  {xs : List (Act W K)} {wrap other : W} {c author : JsString} {entry : MemoEntry} {held : JsString → Option (EventKeys K)}
  {rumor : Rumor K}

/-! ## Secrets -/

/-- What a grant carries: the event's own secret, an inbox's, or a version of its key. -/
inductive Secret (K : Type)
  | identity
  | inbox (nsec : JsString)
  | version (v : Membership.EckVersion K)

/-- The record has the secret; for the identity any secret of the event's public key will do. -/
def Held (d : Deps W K) (c : JsString) (keys : EventKeys K) : Secret K → Prop
  | .identity => ∃ nsec eid, keys.eidNsecHex = some nsec ∧ pubkeyOf c = some eid ∧ d.getPublicKey nsec = some eid
  | .inbox nsec => keys.einboxNsecHex = some nsec ∨ nsec ∈ keys.priorEinboxNsecs
  | .version v => v ∈ keys.eck

def Holds (d : Deps W K) (keys : JsString → Option (EventKeys K)) (c : JsString) (secret : Secret K) : Prop :=
  ∃ record, keys c = some record ∧ Held d c record secret

def OrganizerGrantContent.Has (grant : OrganizerGrantContent K) : Secret K → Prop
  | .identity => True
  | .inbox nsec => nsec = grant.einbox_nsec ∨ nsec ∈ grant.prior_einbox_nsecs
  | .version v => v ∈ grant.eck

def KeyGrantContent.Has (grant : KeyGrantContent K) : Secret K → Prop
  | .identity | .inbox _ => False
  | .version v => v ∈ grant.eck

/-- The rumor is a grant for `c`, authentic by the 31600s of the scan, with the secret. -/
def Rumor.Carries (d : Deps W K) (s : Scan W) (c : JsString) (secret : Secret K) : Rumor K → Prop
  | .organizerGrant author (.ok grant) =>
    authenticateOrganizerGrant d author grant ((s.config grant.a).map (·.1)) = true ∧ grant.a = c ∧ grant.Has secret
  | .keyGrant author (.ok grant) =>
    authenticateKeyGrant author grant ((s.config grant.a).map (·.1)) = true ∧ grant.a = c ∧ grant.Has secret
  | _ => False

def Carries (d : Deps W K) (s : Scan W) (wrap : W) (c : JsString) (secret : Secret K) : Prop :=
  d.addressed wrap = true ∧ ∃ rumor, d.unwrap wrap = some rumor ∧ rumor.Carries d s c secret

/-- The scan came to the end of its wraps, and no unwrap failed. -/
def Complete (d : Deps W K) (w : World W K) (s : Scan W) : Prop := (w.pass d s).truncated = false ∧ (w.pass d s).failed = false

/-! ## When the memo hides a secret -/

/-- The record has another one in the secret's place. -/
def HasOther (d : Deps W K) (c : JsString) (keys : EventKeys K) : Secret K → Prop
  | .identity => ∃ nsec, keys.eidNsecHex = some nsec ∧ d.getPublicKey nsec ≠ pubkeyOf c
  | .inbox nsec => ∃ nsec', keys.einboxNsecHex = some nsec' ∧ nsec' ≠ nsec
  | .version v => ∃ u ∈ keys.eck, u.id = v.id ∧ u.key ≠ v.key

/-- What the memo was wrong about. -/
def Cause (d : Deps W K) (w : World W K) (s : Scan W) (wrap : W) (c : JsString) (secret : Secret K) : Option MemoEntry → Prop
  -- A 21605 that was refused with another 31600, for the inbox that it names.
  | some .done => ∃ author grant config, d.unwrap wrap = some (.organizerGrant author (.ok grant)) ∧
      authenticateOrganizerGrant d author grant (some config) = false
  -- The keystore is not the one that the grant was filed in.
  | some (.accepted _ _ _) => ∃ keys, w.keys c = some keys ∧ HasOther d c keys secret
  -- A 21602 that was refused with a 31600 no older than the one that authenticates it.
  | some (.stale _ judgedAt) => ∃ config createdAt, s.config c = some (config, createdAt) ∧ createdAt ≤ judgedAt
  | none => False

/-- The scan passes a wrap over on its memo, and nothing that it opens has the secret. -/
structure Hidden (d : Deps W K) (w : World W K) (s : Scan W) (wrap : W) (c : JsString) (secret : Secret K) : Prop where
  mem : wrap ∈ s.wraps
  skipped : skips s (w.held s) (look wrap w.memo) = true
  carried : Carries d s wrap c secret
  missing : ¬Holds d w.keys c secret
  alone : ∀ other ∈ s.wraps, skips s (w.held s) (look other w.memo) = false → ¬Carries d s other c secret
  cause : Cause d w s wrap c secret (look wrap w.memo)

/-! ## What a scan files -/

theorem authenticated_pubkey {grant : OrganizerGrantContent K} {config : Option Config}
    (h : authenticateOrganizerGrant d author grant config = true) :
    ∃ eid, pubkeyOf grant.a = some eid ∧ d.getPublicKey grant.eid_nsec = some eid := by
  unfold authenticateOrganizerGrant at h
  split at h
  · cases h
  next eid he =>
    simp only [Bool.and_eq_true, beq_iff_eq] at h
    exact ⟨eid, he, h.1.2⟩

theorem held_applyOrganizerGrant {grant : OrganizerGrantContent K} {config : Option Config} {live : Option (EventKeys K)}
    (h : authenticateOrganizerGrant d author grant config = true) (secret : Secret K) :
    Held d grant.a (applyOrganizerGrant d.fingerprint live
      ⟨grant.eck, grant.eid_nsec, grant.einbox_nsec, grant.prior_einbox_nsecs, grant.organizers⟩ d.owner) secret ↔
      (∃ record, live = some record ∧ Held d grant.a record secret) ∨ grant.Has secret := by
  cases secret with
  | identity =>
    obtain ⟨eid, he, hpk⟩ := authenticated_pubkey h
    exact ⟨fun _ => .inr trivial, fun _ => ⟨grant.eid_nsec, eid, rfl, he, hpk⟩⟩
  | inbox nsec =>
    simp only [Held, OrganizerGrantContent.Has, applyOrganizerGrant, Option.some.injEq, List.mem_filter, List.mem_eraseDups,
      List.mem_append, Option.mem_toList, decide_eq_true_eq]
    by_cases hn : nsec = grant.einbox_nsec
    · simp [hn]
    · have hn' : ¬grant.einbox_nsec = nsec := fun he => hn he.symm
      cases live with
      | none => simp [existing, hn, hn']
      | some record =>
        simp only [existing, Option.getD_some, hn, hn', false_or, ne_eq, not_false_eq_true, and_true, Option.some.injEq, exists_eq_left']
        tauto
  | version v =>
    simp only [Held, OrganizerGrantContent.Has, applyOrganizerGrant, Installs.mem_unionEck]
    cases live with
    | none => simp [existing]
    | some record => simp [existing]

theorem held_addEckVersions {grant : KeyGrantContent K} {live : Option (EventKeys K)} (secret : Secret K) :
    Held d grant.a (addEckVersions d.fingerprint live grant.eck grant.role) secret ↔
      (∃ record, live = some record ∧ Held d grant.a record secret) ∨ grant.Has secret := by
  cases secret with
  | identity | inbox _ => cases live <;> simp [Held, KeyGrantContent.Has, addEckVersions, existing]
  | version v => cases live <;> simp [Held, KeyGrantContent.Has, addEckVersions, existing, Installs.mem_unionEck]

theorem holds_update {keys : JsString → Option (EventKeys K)} {a : JsString} {saved : EventKeys K} {has : Secret K → Prop}
    (h : ∀ secret, Held d a saved secret ↔ (∃ record, keys a = some record ∧ Held d a record secret) ∨ has secret)
    (c : JsString) (secret : Secret K) :
    Holds d (Function.update keys a (some saved)) c secret ↔ Holds d keys c secret ∨ a = c ∧ has secret := by
  unfold Holds
  by_cases hc : a = c
  · subst hc
    simp only [Function.update_self, Option.some.injEq, exists_eq_left', true_and]
    exact h secret
  · rw [Function.update_of_ne (Ne.symm hc)]
    simp [hc]

/-- What is filed of a rumor is what an authentic grant carries. -/
theorem holds_process (hgo : (p.process d s wrap rumor).2 = true) (c : JsString) (secret : Secret K) :
    Holds d (p.process d s wrap rumor).1.keys c secret ↔ Holds d p.keys c secret ∨ rumor.Carries d s c secret := by
  cases rumor with
  | other => simp [Pass.process, Pass.note, Rumor.Carries]
  | organizerGrant author content =>
    cases content with
    | invalid => simp [Pass.process, Pass.note, Rumor.Carries]
    | newer => simp [Pass.process, Rumor.Carries]
    | ok grant =>
      simp only [Pass.process] at hgo ⊢
      simp only [Rumor.Carries]
      split
      next hauth => simp [Pass.note, hauth]
      next hauth =>
        have hauth := Bool.not_eq_false _ ▸ hauth
        split
        next hmoved =>
          rw [if_neg (by simp [hauth]), if_pos hmoved] at hgo
          cases hgo
        · rw [hauth]
          simp only [Pass.note, true_and]
          exact holds_update (held_applyOrganizerGrant hauth) c secret
  | keyGrant author content =>
    cases content with
    | invalid => simp [Pass.process, Pass.note, Rumor.Carries]
    | newer => simp [Pass.process, Rumor.Carries]
    | ok grant =>
      simp only [Pass.process] at hgo ⊢
      simp only [Rumor.Carries]
      cases hconfig : s.config grant.a with
      | none => cases hp : pubkeyOf grant.a <;> simp [authenticateKeyGrant, hp]
      | some at' =>
        rw [hconfig] at hgo
        simp only [Option.map_some] at hgo ⊢
        split
        next hauth => simp [Pass.note, hauth]
        next hauth =>
          have hauth := Bool.not_eq_false _ ▸ hauth
          split
          next hmoved =>
            rw [if_neg (by simp [hauth]), if_pos hmoved] at hgo
            cases hgo
          · rw [hauth]
            simp only [Pass.note, true_and]
            exact holds_update held_addEckVersions c secret

/-! ## A whole scan -/

theorem look_put_of_ne {memo : List (W × MemoEntry)} (h : other ≠ wrap) : look other (put wrap entry memo) = look other memo := by
  rw [look_put, if_neg (Ne.symm h)]

theorem look_process (h : other ≠ wrap) : look other (p.process d s wrap rumor).1.memo = look other p.memo := by
  cases rumor with
  | other => exact look_put_of_ne h
  | organizerGrant author content =>
    cases content with
    | invalid => exact look_put_of_ne h
    | newer => rfl
    | ok grant =>
      simp only [Pass.process]
      split
      · exact look_put_of_ne h
      split
      · rfl
      · exact look_put_of_ne h
  | keyGrant author content =>
    cases content with
    | invalid => exact look_put_of_ne h
    | newer => rfl
    | ok grant =>
      simp only [Pass.process]
      split
      · rfl
      split
      · exact look_put_of_ne h
      split
      · rfl
      · exact look_put_of_ne h

variable (d s p wrap rumor) in
/-- A rumor ends the scan only where it truncates it. -/
theorem process_goes : ((p.process d s wrap rumor).2 = true ∨ (p.process d s wrap rumor).1.truncated = true) ∧
    (p.process d s wrap rumor).1.failed = p.failed := by
  cases rumor with
  | other => exact ⟨.inl rfl, rfl⟩
  | organizerGrant author content =>
    cases content with
    | invalid | newer => exact ⟨.inl rfl, rfl⟩
    | ok grant =>
      simp only [Pass.process]
      split
      · exact ⟨.inl rfl, rfl⟩
      split
      · exact ⟨.inr rfl, rfl⟩
      · exact ⟨.inl rfl, rfl⟩
  | keyGrant author content =>
    cases content with
    | invalid | newer => exact ⟨.inl rfl, rfl⟩
    | ok grant =>
      simp only [Pass.process]
      split
      · exact ⟨.inl rfl, rfl⟩
      split
      · exact ⟨.inl rfl, rfl⟩
      split
      · exact ⟨.inr rfl, rfl⟩
      · exact ⟨.inl rfl, rfl⟩

variable (d s p wrap held) in
/-- What one wrap comes to, where it neither truncates the scan nor fails to unwrap. -/
theorem consider_spec : ((p.consider d s held wrap).2 = true ∨ (p.consider d s held wrap).1.truncated = true) ∧
    (p.failed = true → (p.consider d s held wrap).1.failed = true) ∧
    ((p.consider d s held wrap).2 = true → (p.consider d s held wrap).1.failed = false →
      (∀ other, other ≠ wrap → look other (p.consider d s held wrap).1.memo = look other p.memo) ∧
      ∀ c secret, Holds d (p.consider d s held wrap).1.keys c secret ↔
        Holds d p.keys c secret ∨ skips s held (look wrap p.memo) = false ∧ Carries d s wrap c secret) := by
  unfold Pass.consider
  split
  · exact ⟨.inr rfl, id, fun h => by cases h⟩
  split
  next haddr => exact ⟨.inl rfl, id, fun _ _ => ⟨fun _ _ => rfl, fun c secret => by simp [Carries, haddr]⟩⟩
  next haddr =>
    split
    next hskip => exact ⟨.inl rfl, id, fun _ _ => ⟨fun _ _ => rfl, fun c secret => by simp [hskip]⟩⟩
    next hskip =>
      split
      · exact ⟨.inr rfl, id, fun h => by cases h⟩
      · split
        · exact ⟨.inl rfl, fun _ => rfl, fun _ h => by cases h⟩
        next rumor hrumor =>
          have hunwrap : d.unwrap wrap = some rumor := by
            split at hrumor
            · exact hrumor
            · cases hrumor
          obtain ⟨hgoes, hfailed⟩ := process_goes d s p wrap rumor
          refine ⟨hgoes, fun h => hfailed.trans h, fun hgo _ => ⟨fun other hne => look_process hne, fun c secret => ?_⟩⟩
          rw [holds_process hgo]
          simp [Carries, hunwrap, Bool.not_eq_false _ ▸ haddr, Bool.eq_false_iff.mpr hskip]

theorem failed_over : ∀ {wraps : List W} {p : Pass W K}, p.failed = true → (Pass.over d s held wraps p).failed = true
  | [], _, h => h
  | wrap :: wraps, p, h => by
    have hnext := (consider_spec d s p wrap held).2.1 h
    simp only [Pass.over]
    split
    · exact failed_over hnext
    · exact hnext

/-- **A complete scan files what the wraps carry that it does not pass over**, and nothing else. -/
theorem holds_over (memo : List (W × MemoEntry)) : ∀ {wraps : List W} {p : Pass W K}, wraps.Nodup →
    (∀ wrap ∈ wraps, look wrap p.memo = look wrap memo) → (Pass.over d s held wraps p).truncated = false →
    (Pass.over d s held wraps p).failed = false → ∀ c secret, Holds d (Pass.over d s held wraps p).keys c secret ↔
      Holds d p.keys c secret ∨ ∃ wrap ∈ wraps, skips s held (look wrap memo) = false ∧ Carries d s wrap c secret
  | [], _, _, _, _, _ => fun c secret => by simp [Pass.over]
  | wrap :: wraps, p, hnd, hmemo, htruncated, hfailed => by
    obtain ⟨hgoes, -, hspec⟩ := consider_spec d s p wrap held
    obtain ⟨hnotin, hnd⟩ := List.nodup_cons.1 hnd
    simp only [Pass.over] at htruncated hfailed ⊢
    by_cases hgo : (p.consider d s held wrap).2 = true
    · rw [if_pos hgo] at htruncated hfailed ⊢
      have hnext : (p.consider d s held wrap).1.failed = false := by
        by_contra hf
        rw [failed_over (by simpa using hf)] at hfailed
        cases hfailed
      obtain ⟨hlook, hholds⟩ := hspec hgo hnext
      have hrest := holds_over memo hnd (fun other ho => by
        rw [hlook other (fun he => hnotin (he ▸ ho))]
        exact hmemo other (.tail _ ho)) htruncated hfailed
      intro c secret
      rw [hrest, hholds, hmemo wrap (.head _), or_assoc]
      simp
    · rw [if_neg hgo] at htruncated
      rcases hgoes with h | h
      · exact absurd h hgo
      · rw [h] at htruncated
        cases htruncated

/-! ## What the memo means -/

/-- What an entry says of its wrap. -/
def Meant (d : Deps W K) (wrap : W) : MemoEntry → Prop
  | .done => ∀ s c secret, Carries d s wrap c secret → ∃ author grant config,
      d.unwrap wrap = some (.organizerGrant author (.ok grant)) ∧ authenticateOrganizerGrant d author grant (some config) = false
  | .accepted a versions organizer =>
    (∃ author grant, d.unwrap wrap = some (.organizerGrant author (.ok grant)) ∧ grant.a = a ∧ versions = grant.eck.map (·.id) ∧
      organizer = true) ∨
    ∃ author grant, d.unwrap wrap = some (.keyGrant author (.ok grant)) ∧ grant.a = a ∧ versions = grant.eck.map (·.id)
  | .stale a _ => ∃ author grant, d.unwrap wrap = some (.keyGrant author (.ok grant)) ∧ grant.a = a

theorem mem_of_look : ∀ {memo : List (W × MemoEntry)}, look wrap memo = some entry → (wrap, entry) ∈ memo
  | [], h => by cases h
  | (wrap', entry') :: memo, h => by
    simp only [look] at h
    split at h
    next hw =>
      cases h
      rw [hw]
      exact .head _
    · exact .tail _ (mem_of_look h)

theorem mem_of_put {e : W × MemoEntry} : ∀ {memo : List (W × MemoEntry)}, e ∈ put wrap entry memo → e = (wrap, entry) ∨ e ∈ memo
  | [], h => .inl (List.mem_singleton.1 h)
  | (wrap', entry') :: memo, h => by
    simp only [put] at h
    split at h
    · rcases List.mem_cons.1 h with h | h
      · exact .inl h
      · exact .inr (.tail _ h)
    · rcases List.mem_cons.1 h with h | h
      · exact .inr (h ▸ .head _)
      · exact (mem_of_put h).imp_right (.tail _)

/-- The 31600 only takes grants away. -/
theorem authenticated_none {grant : OrganizerGrantContent K} {config : Option Config}
    (h : authenticateOrganizerGrant d author grant config = true) : authenticateOrganizerGrant d author grant none = true := by
  unfold authenticateOrganizerGrant at h ⊢
  split at h
  · cases h
  next eid he =>
    split at h
    · simp at h
    next pk hpk =>
      simp only [Bool.and_eq_true] at h ⊢
      exact ⟨h.1, rfl⟩

/-- A grant that fails for more than its sealer is authentic by no 31600. -/
theorem sealerOnlyMismatch_of_authenticated {grant : KeyGrantContent K} {config config' : Option Config} (hsome : config.isSome = true)
    (hno : authenticateKeyGrant author grant config = false) (h : authenticateKeyGrant author grant config' = true) :
    sealerOnlyMismatch author grant = true := by
  unfold authenticateKeyGrant at h hno
  split at h
  next eid config' he =>
    obtain ⟨config, rfl⟩ := Option.isSome_iff_exists.1 hsome
    rw [he] at hno
    simp only [Bool.and_eq_true, Bool.or_eq_true, beq_iff_eq] at h
    obtain ⟨⟨hevent, -⟩, hby⟩ := h
    have hne : eid ≠ author := by
      rintro rfl
      simp [hevent, hby] at hno
    simp [sealerOnlyMismatch, hevent, hby, he, hne]
  · cases h

theorem meant_process (hunwrap : d.unwrap wrap = some rumor) (h : ∀ e ∈ p.memo, Meant d e.1 e.2) :
    ∀ e ∈ (p.process d s wrap rumor).1.memo, Meant d e.1 e.2 := by
  have note : ∀ {entry}, Meant d wrap entry → ∀ e ∈ put wrap entry p.memo, Meant d e.1 e.2 := by
    intro entry hm e he
    rcases mem_of_put he with rfl | he
    · exact hm
    · exact h e he
  have plain : (∀ s' c secret, ¬rumor.Carries d s' c secret) → Meant d wrap .done := by
    rintro hno s' c secret ⟨-, rumor', hr, hc⟩
    cases hunwrap.symm.trans hr
    exact absurd hc (hno s' c secret)
  cases rumor with
  | other => exact note (plain fun _ _ _ hc => hc)
  | organizerGrant author content =>
    cases content with
    | invalid => exact note (plain fun _ _ _ hc => hc)
    | newer => exact h
    | ok grant =>
      simp only [Pass.process]
      split
      next hauth =>
        refine note fun s' c secret hc => ?_
        obtain ⟨-, rumor', hr, hc⟩ := hc
        cases hunwrap.symm.trans hr
        cases hconfig : (s.config grant.a).map (·.1) with
        | none =>
          rw [hconfig] at hauth
          rw [authenticated_none hc.1] at hauth
          cases hauth
        | some config => exact ⟨author, grant, config, hunwrap, hconfig ▸ hauth⟩
      split
      · exact h
      · exact note (.inl ⟨author, grant, hunwrap, rfl, rfl, rfl⟩)
  | keyGrant author content =>
    cases content with
    | invalid => exact note (plain fun _ _ _ hc => hc)
    | newer => exact h
    | ok grant =>
      simp only [Pass.process]
      split
      · exact h
      next config createdAt hconfig =>
        split
        next hauth =>
          refine note ?_
          split
          · exact ⟨author, grant, hunwrap, rfl⟩
          next hsealer =>
            refine plain fun s' c secret hc => hsealer ?_
            exact sealerOnlyMismatch_of_authenticated rfl hauth hc.1
        split
        · exact h
        · exact note (.inr ⟨author, grant, hunwrap, rfl, rfl⟩)

theorem meant_over : ∀ {wraps : List W} {p : Pass W K}, (∀ e ∈ p.memo, Meant d e.1 e.2) →
    ∀ e ∈ (Pass.over d s held wraps p).memo, Meant d e.1 e.2
  | [], _, h => h
  | wrap :: wraps, p, h => by
    have hnext : ∀ e ∈ (p.consider d s held wrap).1.memo, Meant d e.1 e.2 := by
      unfold Pass.consider
      split
      · exact h
      split
      · exact h
      split
      · exact h
      split
      · exact h
      · split
        · exact h
        next rumor hrumor =>
          split at hrumor
          · exact meant_process hrumor h
          · cases hrumor
    simp only [Pass.over]
    split
    · exact meant_over hnext
    · exact hnext

/-- Whatever the history, an entry means what it says. -/
theorem meant_run (h : Run (Step d) ({} : World W K) xs w) : ∀ e ∈ w.memo, Meant d e.1 e.2 := by
  refine h.invariant (I := fun w => ∀ e ∈ w.memo, Meant d e.1 e.2) (fun w x w' hw hs => ?_) fun e he => by cases he
  cases x with
  | scan s =>
    cases hs
    simp only [act]
    split
    · exact fun e he => meant_over hw e (List.mem_of_mem_drop he)
    · exact hw
  | replaced keys =>
    cases hs
    exact hw
  | forgotten =>
    cases hs
    exact fun e he => by cases he

theorem keys_of_held {record : EventKeys K} (h : w.held s c = some record) : w.keys c = some record := by
  unfold World.held at h
  split at h
  · exact h
  · cases h

/-- A record that satisfies the memo of a grant and lacks a secret of it has another one in its place. -/
theorem hasOther_of_satisfied {record : EventKeys K} {versions : List Nat} {organizer : Bool}
    (hmeant : Meant d wrap (.accepted c versions organizer)) (hids : ∀ id ∈ versions, ∃ u ∈ record.eck, u.id = id)
    (hcustody : organizer = true → record.eidNsecHex.isSome = true ∧ record.einboxNsecHex.isSome = true) {secret : Secret K}
    (hcarried : Carries d s wrap c secret) (hmissing : ¬Held d c record secret) : HasOther d c record secret := by
  obtain ⟨-, rumor, hr, hcarried⟩ := hcarried
  have hversion : ∀ v : Membership.EckVersion K, v.id ∈ versions → v ∉ record.eck → ∃ u ∈ record.eck, u.id = v.id ∧ u.key ≠ v.key := by
    intro v hv hnot
    obtain ⟨u, hu, hid⟩ := hids v.id hv
    refine ⟨u, hu, hid, fun hkey => hnot ?_⟩
    cases u
    cases v
    cases hid
    cases hkey
    exact hu
  rcases hmeant with ⟨author, grant, hunwrap, -, rfl, horganizer⟩ | ⟨author, grant, hunwrap, -, rfl⟩
  · cases hunwrap.symm.trans hr
    obtain ⟨hauth, hc, hhas⟩ := hcarried
    obtain ⟨heid, hinbox⟩ := hcustody horganizer
    cases secret with
    | identity =>
      obtain ⟨nsec, hnsec⟩ := Option.isSome_iff_exists.1 heid
      obtain ⟨eid, he, -⟩ := authenticated_pubkey hauth
      rw [hc] at he
      exact ⟨nsec, hnsec, fun heq => hmissing ⟨nsec, eid, hnsec, he, heq.trans he⟩⟩
    | inbox nsec =>
      obtain ⟨nsec', hnsec⟩ := Option.isSome_iff_exists.1 hinbox
      exact ⟨nsec', hnsec, fun heq => hmissing (.inl (heq ▸ hnsec))⟩
    | version v => exact hversion v (List.mem_map_of_mem hhas) hmissing
  · cases hunwrap.symm.trans hr
    obtain ⟨-, -, hhas⟩ := hcarried
    cases secret with
    | identity | inbox _ => cases hhas
    | version v => exact hversion v (List.mem_map_of_mem hhas) hmissing

theorem coordinate_of_carries {a : JsString} {versions : List Nat} {organizer : Bool} {secret : Secret K}
    (hmeant : Meant d wrap (.accepted a versions organizer)) (hcarried : Carries d s wrap c secret) : a = c := by
  obtain ⟨-, rumor, hr, hcarried⟩ := hcarried
  rcases hmeant with ⟨author, grant, hunwrap, ha, -⟩ | ⟨author, grant, hunwrap, ha, -⟩ <;> cases hunwrap.symm.trans hr <;>
    exact ha.symm.trans hcarried.2.1

/-- A wrap that is passed over while it carries what is not held. -/
theorem cause_of_skipped (hm : ∀ e ∈ w.memo, Meant d e.1 e.2) (hskip : skips s (w.held s) (look wrap w.memo) = true)
    {secret : Secret K} (hc : Carries d s wrap c secret) (hmissing : ¬Holds d w.keys c secret) :
    Cause d w s wrap c secret (look wrap w.memo) := by
  cases hentry : look wrap w.memo with
  | none =>
    rw [hentry] at hskip
    cases hskip
  | some entry =>
    rw [hentry] at hskip
    have hmeant := hm _ (mem_of_look hentry)
    cases entry with
    | done => exact hmeant s c secret hc
    | stale a judgedAt =>
      obtain ⟨author, grant, hunwrap, rfl⟩ := hmeant
      obtain ⟨-, rumor, hr, hcarried⟩ := hc
      cases hunwrap.symm.trans hr
      obtain ⟨hauth, rfl, -⟩ := hcarried
      simp only [skips] at hskip
      cases hconfig : s.config grant.a with
      | none =>
        rw [hconfig] at hauth
        cases hp : pubkeyOf grant.a <;> simp [authenticateKeyGrant, hp] at hauth
      | some at' =>
        rw [hconfig] at hskip
        exact ⟨at'.1, at'.2, hconfig, by simpa using hskip⟩
    | accepted a versions organizer =>
      cases coordinate_of_carries hmeant hc
      simp only [skips, grantMemoSatisfied] at hskip
      cases hheld : w.held s c with
      | none =>
        rw [hheld] at hskip
        cases hskip
      | some record =>
        rw [hheld, Option.any_some, Bool.and_eq_true] at hskip
        obtain ⟨hids, hcustody⟩ := hskip
        have hkeys := keys_of_held hheld
        refine ⟨record, hkeys, hasOther_of_satisfied hmeant (fun id hid => ?_) (fun ho => ?_) hc fun hheld' => hmissing ⟨record, hkeys, hheld'⟩⟩
        · simpa using List.all_eq_true.1 hids id hid
        · rw [ho] at hcustody
          simp only [Bool.not_true, Bool.false_or, Bool.and_eq_true] at hcustody
          exact ⟨hcustody.1.2, hcustody.2⟩

/-! ## The result -/

/-- **The memo hides a secret just when it passes over a wrap that has become wanted again**: whatever the scans
before and whatever has become of the keystore between them, a complete scan leaves every secret of an authentic
grant that it read in the keystore, but for what is `Hidden`. -/
theorem grants_held_iff (h : Run (Step d) ({} : World W K) xs w) (hcomplete : Complete d w s) :
    (∀ wrap ∈ s.wraps, ∀ c secret, Carries d s wrap c secret → Holds d (act d w (.scan s)).keys c secret) ↔
      ∀ wrap c secret, ¬Hidden d w s wrap c secret := by
  have hholds : ∀ c secret, Holds d (act d w (.scan s)).keys c secret ↔ _ :=
    holds_over w.memo s.nodup (fun _ _ => rfl) hcomplete.1 hcomplete.2
  constructor
  · intro hall wrap c secret hhidden
    rcases (hholds c secret).1 (hall wrap hhidden.mem c secret hhidden.carried) with h | ⟨other, ho, hskip, hc⟩
    · exact hhidden.missing h
    · exact hhidden.alone other ho hskip hc
  · intro hnone wrap hw c secret hc
    refine (hholds c secret).2 ?_
    by_contra hno
    obtain ⟨hmissing, halone⟩ := not_or.1 hno
    have halone : ∀ other ∈ s.wraps, skips s (w.held s) (look other w.memo) = false → ¬Carries d s other c secret :=
      fun other ho hskip hc => halone ⟨other, ho, hskip, hc⟩
    have hskip : skips s (w.held s) (look wrap w.memo) = true := by
      by_contra hskip
      exact halone wrap hw (Bool.not_eq_true _ ▸ hskip) hc
    exact hnone wrap c secret ⟨hw, hskip, hc, hmissing, halone, cause_of_skipped (meant_run h) hskip hc hmissing⟩

namespace Small

def eid : JsString := js "aaaaaaaaaaaaaaaaaaaaaaaaaaaaaaaaaaaaaaaaaaaaaaaaaaaaaaaaaaaaaaaa"

def camp : JsString := js "31923:" ++ eid ++ js ":camp"

/-- Wrap `n` is a grant, sealed by the event, of version 1 with the key `n`. -/
def deps : Deps Nat Nat where
  unwrap n := some (.keyGrant eid (.ok { a := camp, role := .attendee, eck := [⟨1, n⟩], granted_by := eid }))
  addressed _ := true
  getPublicKey _ := none
  fingerprint := id
  owner := js "ann"

/-- A scan of the first wrap. -/
def scan : Scan Nat where
  wraps := [0]
  nodup := List.nodup_singleton 0
  config _ := some ({ inbox := js "inbox" }, 0)

/-- The keystore is lost, and the next one has version 1 with another key. -/
def replaced (c : JsString) : Option (EventKeys Nat) := if c = camp then some { role := .attendee, eck := [⟨1, 7⟩] } else none

def world (xs : List (Act Nat Nat)) : World Nat Nat := xs.foldl (act deps) {}

end Small

/-- What the scans of the two runs come to. -/
theorem small_scans :
    authenticateKeyGrant Small.eid { a := Small.camp, role := .attendee, eck := [⟨1, 0⟩], granted_by := Small.eid }
      (some { inbox := js "inbox" }) = true ∧
    (({} : World Nat Nat).pass Small.deps Small.scan).truncated = false ∧ (({} : World Nat Nat).pass Small.deps Small.scan).failed = false ∧
    ((Small.world [.scan Small.scan, .replaced Small.replaced]).pass Small.deps Small.scan).truncated = false ∧
    ((Small.world [.scan Small.scan, .replaced Small.replaced]).pass Small.deps Small.scan).failed = false ∧
    (act Small.deps (Small.world [.scan Small.scan, .replaced Small.replaced]) (.scan Small.scan)).keys Small.camp =
      some { role := .attendee, eck := [⟨1, 7⟩] } := by
  decide +kernel

theorem carried_camp : Carries Small.deps Small.scan 0 Small.camp (.version ⟨1, 0⟩) :=
  ⟨rfl, _, rfl, small_scans.1, rfl, List.mem_singleton.2 rfl⟩

theorem grants_held_fresh : Complete Small.deps {} Small.scan ∧
    ∀ wrap ∈ Small.scan.wraps, ∀ c secret, Carries Small.deps Small.scan wrap c secret →
      Holds Small.deps (act Small.deps {} (.scan Small.scan)).keys c secret := by
  have hcomplete : Complete Small.deps {} Small.scan := ⟨small_scans.2.1, small_scans.2.2.1⟩
  refine ⟨hcomplete, (grants_held_iff .nil hcomplete).2 fun wrap c secret hhidden => ?_⟩
  have hskipped := hhidden.skipped
  simp [look, skips, grantMemoSatisfied] at hskipped

/-- The memo takes a version for held by its id alone: a scan passes over the grant of a key that the keystore lacks. -/
theorem other_key_hides : ∃ xs w, Run (Step Small.deps) {} xs w ∧ Complete Small.deps w Small.scan ∧
    Carries Small.deps Small.scan 0 Small.camp (.version ⟨1, 0⟩) ∧
    ¬Holds Small.deps (act Small.deps w (.scan Small.scan)).keys Small.camp (.version ⟨1, 0⟩) := by
  refine ⟨[.scan Small.scan, .replaced Small.replaced], Small.world [.scan Small.scan, .replaced Small.replaced],
    .cons rfl (.cons rfl .nil), ⟨small_scans.2.2.2.1, small_scans.2.2.2.2.1⟩, carried_camp, ?_⟩
  rintro ⟨record, hrecord, hheld⟩
  rw [small_scans.2.2.2.2.2] at hrecord
  rw [← Option.some.inj hrecord] at hheld
  simp [Held] at hheld

end Nostrautica.Grants
