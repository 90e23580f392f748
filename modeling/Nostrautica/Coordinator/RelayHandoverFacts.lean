/-
The relays of an event follow its newest 31600 (`relays_follow_newest`): a
promotion leads to the relays the newest 31600 names, and once the retries have
run the event is on them. `Timely` says what has to be avoided: a 31600 that
returns to the relays in use leaves an older candidate pending, and a restart
takes the newest 31600 as applied without a look at its relays.
-/
import Nostrautica.Coordinator.RelayHandover

set_option linter.unusedSectionVars false

namespace Nostrautica.RelayHandover

open Tasks

variable {U : Type*} [LinearOrder U] {policy : RelayPolicy U} {s : Store U} {w w' : World U} {x : Act U} {xs : List (Act U)}
  {cfg : Config U} {k n : Nat} {ok : Bool} {st : EventState U} {row : EventRow U} {relays l p : List U} {pc : Pc U}

/-! ## The invariant -/

/-- No candidate is pending, but for the relays in use. -/
def Settled (s : Store U) : Prop :=
  ∀ row p, s.row = some row → row.pending_relays = some p → relayKey p = relayKey row.config_relays

/-- A promotion that changes the relays leads to those of the newest 31600. -/
def Promotion.Right (p : Promotion U) : Prop := relayKey p.before ≠ relayKey p.after → relayKey p.after = relayKey p.newest

/-- What the database says: the candidate is the newest 31600's or the relays in
use, and it, or else the relays in use, are those the newest naming 31600 names. -/
structure Durable (policy : RelayPolicy U) (s : Store U) : Prop where
  pending : ∀ row p, s.row = some row → row.pending_relays = some p → policy.Clean p ∧ p ≠ [] ∧
    (relayKey p = relayKey row.config_relays ∨ relayKey p = relayKey (s.newest.valid policy))
  named : ∀ row l, s.row = some row → s.named = some l → policy.Clean l ∧ l ≠ [] ∧
    relayKey (row.pending_relays.getD row.config_relays) = relayKey l
  promotions : ∀ p ∈ s.promotions, p.Right

/-- And the live state agrees with it. -/
structure Follows (policy : RelayPolicy U) (s : Store U) : Prop extends Durable policy s where
  live : ∀ st, s.live = some st → (∃ row, s.row = some row ∧ relayKey row.config_relays = relayKey st.configRelays) ∧
    st.configEventId = s.newest.id ∧ st.configCreatedAt = s.newest.created_at

/-- The 31600 is one the event takes. -/
def Takes (st : EventState U) (cfg : Config U) : Prop :=
  supersedes cfg.created_at cfg.id st.configCreatedAt st.configEventId = true ∧ cfg.attached = true

/-- The 31600 leaves the relays as they are: it names none, or those in use. -/
def Stays (policy : RelayPolicy U) (st : EventState U) (cfg : Config U) : Prop :=
  cfg.valid policy = [] ∨ relayKey st.configRelays = relayKey (cfg.valid policy)

/-- A 31600 that leaves the relays as they are is applied only while no other
candidate is pending; the process does not end between the parts of the
application of one that changes them; no retry comes to an event with a
candidate while it is not live; and a restart finds the newest 31600 applied, or
a newer one that names what is pending or in use, or none with nothing pending. -/
structure Timely (policy : RelayPolicy U) (w : World U) (x : Act U) : Prop where
  config : ∀ k ok cfg st, (x = .settle k ok ∨ ∃ n, x = .crashDuring k ok (n + 1)) → w.tasks k = some (.queued cfg) →
    w.store.live = some st → Takes st cfg → Stays policy st cfg → Settled w.store
  crash : ∀ k ok n cfg st, x = .crashDuring k ok n → w.tasks k = some (.queued cfg) → w.store.live = some st →
    Takes st cfg → ¬ Stays policy st cfg → n = 0 ∨ 3 ≤ n
  retry : ∀ k, x = .retry k → w.store.live = none → Settled w.store
  restore : ∀ cfg defaultRelays row, x = .restore cfg defaultRelays → cfg.attached = true → w.store.row = some row →
    cfg = w.store.newest ∨ supersedes cfg.created_at cfg.id w.store.newest.created_at w.store.newest.id = true ∧
      (if cfg.valid policy = [] then Settled w.store
       else relayKey (row.pending_relays.getD row.config_relays) = relayKey (cfg.valid policy))

theorem clean_valid : policy.Clean (cfg.valid policy) := RelayPolicy.clean_sanitize

theorem supersedes_self {t i : Nat} : supersedes t i t i = false := by simp [supersedes]

/-- A store whose row is gone. -/
theorem Durable.detached (h : Durable policy s) : Durable policy (s.apply policy .detachEvent) :=
  ⟨nofun, nofun, h.promotions⟩

variable (policy cfg) in
/-- Whether a 31600 is applied with its relays kept or with a candidate. -/
theorem applyConfigUpdate_cases (hl : s.live = some st) :
    applyConfigUpdate policy s cfg = ([], none) ∨
    applyConfigUpdate policy s cfg = ([.detachEvent], none) ∨
    (Takes st cfg ∧ Stays policy st cfg ∧ ∃ kept, relayKey st.configRelays = relayKey kept ∧
      applyConfigUpdate policy s cfg = ([.upsertConfig cfg kept, .configApplied cfg], some (.effects none))) ∨
    (Takes st cfg ∧ ¬ Stays policy st cfg ∧ applyConfigUpdate policy s cfg =
      ([.upsertConfig cfg st.configRelays, .configApplied cfg, .setPendingRelays (cfg.valid policy)],
        some (.effects (some (cfg.valid policy))))) := by
  simp only [applyConfigUpdate, hl]
  split
  · exact .inl rfl
  next hs =>
    split
    · exact .inr (.inl rfl)
    next ha =>
      have ht : Takes st cfg := ⟨by simpa using hs, by simpa using ha⟩
      refine .inr (.inr ?_)
      by_cases hv : cfg.valid policy = []
      · refine .inl ⟨ht, .inl hv, st.configRelays, rfl, ?_⟩
        simp [hv]
      · rw [if_neg hv]
        by_cases hk : relayKey st.configRelays = relayKey (cfg.valid policy)
        · exact .inl ⟨ht, .inr hk, _, hk, by simp [hk]⟩
        · exact .inr ⟨ht, by rintro (h | h) <;> contradiction, by simp [hk]⟩

/-! ## Applying a 31600 -/

/-- A 31600 that keeps the relays is written. -/
theorem Follows.keeps (h : Follows policy s) (hl : s.live = some st) (hstay : Stays policy st cfg) (hset : Settled s)
    (hk : relayKey st.configRelays = relayKey relays) : Durable policy (s.apply policy (.upsertConfig cfg relays)) := by
  obtain ⟨⟨row, hrow, hrl⟩, -⟩ := h.live st hl
  have hrelays : relayKey row.config_relays = relayKey relays := hrl.trans hk
  refine ⟨fun row' p hr hp => ?_, fun row' l hr hn => ?_, h.promotions⟩
  · simp only [Store.apply, Store.withNewest, hrow, Option.map_some, Option.some.injEq] at hr
    subst hr
    obtain ⟨hc, hne, -⟩ := h.pending row p hrow hp
    exact ⟨hc, hne, .inl ((hset row p hrow hp).trans hrelays)⟩
  · simp only [Store.apply, Store.withNewest, hrow, Option.map_some, Option.some.injEq] at hr hn
    subst hr
    have hgetD : relayKey (row.pending_relays.getD relays) = relayKey (row.pending_relays.getD row.config_relays) := by
      cases row.pending_relays with
      | none => exact hrelays.symm
      | some => rfl
    split at hn
    · obtain ⟨hc, hne, hkey⟩ := h.named row l hrow hn
      exact ⟨hc, hne, hgetD.trans hkey⟩
    next hv =>
      cases hn
      refine ⟨clean_valid, hv, hgetD.trans ?_⟩
      have hvk : relayKey st.configRelays = relayKey (cfg.valid policy) := hstay.resolve_left hv
      cases hp : row.pending_relays with
      | none => exact hrl.trans hvk
      | some p => exact (hset row p hrow hp).trans (hrl.trans hvk)

/-- A 31600 that changes the relays is written, with its candidate. -/
theorem Follows.changes (h : Follows policy s) (hl : s.live = some st) (hstay : ¬ Stays policy st cfg) :
    Durable policy ((rules policy).run s
      [.upsertConfig cfg st.configRelays, .configApplied cfg, .setPendingRelays (cfg.valid policy)]) := by
  obtain ⟨⟨row, hrow, -⟩, -⟩ := h.live st hl
  have hv : cfg.valid policy ≠ [] := fun hv => hstay (.inl hv)
  refine ⟨fun row' p hr hp => ?_, fun row' l hr hn => ?_, h.promotions⟩
  · simp only [Rules.run_cons, Rules.run_nil, rules, Store.apply, Store.withNewest, hrow, Option.map_some, Option.some.injEq] at hr
    subst hr
    cases hp
    exact ⟨clean_valid, hv, .inr rfl⟩
  · simp only [Rules.run_cons, Rules.run_nil, rules, Store.apply, Store.withNewest, hrow, Option.map_some, Option.some.injEq,
      if_neg hv] at hr hn
    subst hr
    cases hn
    exact ⟨clean_valid, hv, rfl⟩

/-! ## Promotions -/

/-- The candidate is the pending one. -/
theorem of_isPendingCandidate (h : s.isPendingCandidate l = true) :
    ∃ row p, s.row = some row ∧ row.pending_relays = some p ∧ relayKey p = relayKey l := by
  simp only [Store.isPendingCandidate, Store.pending, Option.any_eq_true, decide_eq_true_eq] at h
  obtain ⟨p, hp, hk⟩ := h
  obtain ⟨row, hrow, hp⟩ := Option.bind_eq_some_iff.mp hp
  exact ⟨row, p, hrow, hp, hk⟩

/-- A promotion, whole or in part. -/
theorem Follows.promoted (h : Follows policy s) (hl : s.isPendingCandidate l = true) :
    Durable policy ((rules policy).run s ([.configRelays l, .upsertRelays l, .clearPendingRelays].take n)) := by
  obtain ⟨row, p, hrow, hp, hk⟩ := of_isPendingCandidate hl
  obtain ⟨hc, hne, hor⟩ := h.pending row p hrow hp
  have h₁ : Durable policy (s.apply policy (.configRelays l)) := by
    refine ⟨h.pending, h.named, fun q hq => ?_⟩
    rcases List.mem_append.mp hq with hq | hq
    · exact h.promotions q hq
    · obtain ⟨st, hst, rfl⟩ := List.mem_map.mp hq
      obtain ⟨⟨row', hrow', hrl⟩, -⟩ := h.live st (Option.mem_toList.mp hst)
      obtain rfl := Option.some.inj (hrow.symm.trans hrow')
      intro hch
      rcases hor with hor | hor
      · exact absurd (hrl.symm.trans (hor.symm.trans hk)) hch
      · exact hk.symm.trans hor
  have h₂ : Durable policy ((s.apply policy (.configRelays l)).apply policy (.upsertRelays l)) := by
    refine ⟨fun row' q hr hq => ?_, fun row' m hr hn => ?_, h₁.promotions⟩
    · simp only [Store.apply, hrow, Option.map_some, Option.some.injEq] at hr
      subst hr
      obtain rfl := Option.some.inj (hp.symm.trans hq)
      exact ⟨hc, hne, .inl hk⟩
    · simp only [Store.apply, hrow, Option.map_some, Option.some.injEq] at hr
      subst hr
      obtain ⟨hcm, hnm, hkey⟩ := h.named row m hrow hn
      simp only [hp, Option.getD_some] at hkey ⊢
      exact ⟨hcm, hnm, hkey⟩
  have h₃ : Durable policy (((s.apply policy (.configRelays l)).apply policy (.upsertRelays l)).apply policy .clearPendingRelays) := by
    refine ⟨fun row' q hr hq => ?_, fun row' m hr hn => ?_, h₁.promotions⟩
    · simp only [Store.apply, hrow, Option.map_some, Option.some.injEq] at hr
      subst hr
      cases hq
    · simp only [Store.apply, hrow, Option.map_some, Option.some.injEq] at hr
      subst hr
      obtain ⟨hcm, hnm, hkey⟩ := h.named row m hrow hn
      simp only [hp, Option.getD_some] at hkey
      exact ⟨hcm, hnm, hk.symm.trans hkey⟩
  match n with
  | 0 => exact h.toDurable
  | 1 => exact h₁
  | 2 => exact h₂
  | n + 3 =>
    rw [List.take_of_length_le (by simp)]
    exact h₃

/-- A candidate that is the relays in use, or that nothing waits for, is dropped. -/
theorem Durable.cleared (h : Durable policy s) (hset : Settled s) : Durable policy (s.apply policy .clearPendingRelays) := by
  refine ⟨fun row' p hr hp => ?_, fun row' l hr hn => ?_, h.promotions⟩
  · obtain ⟨row, hrow, rfl⟩ := Option.map_eq_some_iff.mp hr
    cases hp
  · obtain ⟨row, hrow, rfl⟩ := Option.map_eq_some_iff.mp hr
    obtain ⟨hc, hne, hkey⟩ := h.named row l hrow hn
    refine ⟨hc, hne, ?_⟩
    cases hp : row.pending_relays with
    | none =>
      rw [hp] at hkey
      exact hkey
    | some p =>
      rw [hp] at hkey
      exact (hset row p hrow hp).symm.trans hkey

/-! ## Steps -/

/-- The row keeps its relays, and the live state its own. -/
theorem Follows.of_durable {t : Store U} (h : Follows policy s) (hd : Durable policy t) (hl : t.live = s.live) (hn : t.newest = s.newest)
    (hrow : ∀ row, s.row = some row → ∃ row', t.row = some row' ∧ row'.config_relays = row.config_relays) :
    Follows policy t := by
  refine ⟨hd, fun st hst => ?_⟩
  rw [hl] at hst
  rw [hn]
  obtain ⟨⟨row, hr, hk⟩, hid⟩ := h.live st hst
  obtain ⟨row', hr', hk'⟩ := hrow row hr
  exact ⟨⟨row', hr', hk' ▸ hk⟩, hid⟩

/-- What a retry does. -/
theorem Follows.retry (h : Follows policy s) (hx : s.live = none → Settled s) :
    Follows policy ((rules policy).run s (retryRelayHandovers s).1) := by
  have hclear : Settled s → Follows policy (s.apply policy .clearPendingRelays) := fun hset =>
    h.of_durable (h.toDurable.cleared hset) rfl rfl fun row hrow =>
      ⟨{ row with pending_relays := none }, by rw [Store.apply, hrow]; rfl, rfl⟩
  simp only [retryRelayHandovers]
  split
  · exact h
  next p hp =>
    split
    next hl => exact hclear (hx hl)
    next st hst =>
      split
      next hk =>
        refine hclear fun row q hrow hq => ?_
        obtain ⟨⟨row', hrow', hrl⟩, -⟩ := h.live st hst
        obtain rfl := Option.some.inj (hrow.symm.trans hrow')
        have hqp : some q = some p := by simpa [Store.pending, hrow, hq] using hp
        cases hqp
        exact hk.trans hrl.symm
      · exact h

/-- What a handler does, whole or in part. -/
theorem Follows.durable_settle (h : Follows policy s) {es : List (Effect U)} {next : Option (Pc U)}
    (hs : settle policy s pc ok = (es, next))
    (hset : ∀ cfg st, pc = .queued cfg → s.live = some st → Takes st cfg → Stays policy st cfg → 0 < n → Settled s)
    (hcut : ∀ cfg st, pc = .queued cfg → s.live = some st → Takes st cfg → ¬ Stays policy st cfg → n = 0 ∨ 3 ≤ n) :
    Durable policy ((rules policy).run s (es.take n)) := by
  have hnil : es = [] → Durable policy ((rules policy).run s (es.take n)) := by
    rintro rfl
    simpa using h.toDurable
  cases pc with
  | queued cfg =>
    simp only [settle] at hs
    cases hl : s.live with
    | none =>
      simp only [applyConfigUpdate, hl] at hs
      cases hs
      exact hnil rfl
    | some st =>
      rcases applyConfigUpdate_cases policy cfg hl with ha | ha | ⟨ht, hst, kept, hk, ha⟩ | ⟨ht, hst, ha⟩ <;>
        rw [ha] at hs <;> cases hs
      · exact hnil rfl
      · cases n with
        | zero => exact h.toDurable
        | succ n =>
          rw [List.take_of_length_le (by simp)]
          exact h.toDurable.detached
      · have hd := fun hn => h.keeps hl hst (hset cfg st rfl hl ht hst hn) hk
        match n with
        | 0 => exact h.toDurable
        | 1 => exact hd Nat.one_pos
        | n + 2 =>
          have hdur := hd (Nat.succ_pos _)
          rw [List.take_of_length_le (by simp)]
          exact ⟨hdur.pending, hdur.named, hdur.promotions⟩
      · rcases hcut cfg st rfl hl ht hst with rfl | hn
        · exact h.toDurable
        · rw [List.take_of_length_le (by simpa using hn)]
          exact h.changes hl hst
  | effects candidate =>
    cases candidate with
    | none =>
      cases hs
      exact hnil rfl
    | some candidate =>
      simp only [settle, beginRelayHandover] at hs
      split at hs <;> cases hs <;> exact hnil rfl
  | probing candidate =>
    cases hs
    exact hnil rfl
  | catchingUp candidate =>
    simp only [settle, promoteRelays] at hs
    split at hs
    · split at hs
      next hp =>
        cases hs
        exact h.promoted hp
      · cases hs
        exact hnil rfl
    · cases hs
      exact hnil rfl

/-- A handler that goes on leaves a live state that agrees with the database. -/
theorem Follows.settle (h : Follows policy s) {es : List (Effect U)} {next : Option (Pc U)}
    (hs : RelayHandover.settle policy s pc ok = (es, next)) (hd : Durable policy ((rules policy).run s es)) :
    Follows policy ((rules policy).run s es) := by
  have hnil : es = [] → Follows policy ((rules policy).run s es) := by
    rintro rfl
    exact h
  cases pc with
  | queued cfg =>
    simp only [RelayHandover.settle] at hs
    cases hl : s.live with
    | none =>
      simp only [applyConfigUpdate, hl] at hs
      cases hs
      exact h
    | some st =>
      obtain ⟨⟨row, hrow, hrl⟩, -⟩ := h.live st hl
      rcases applyConfigUpdate_cases policy cfg hl with ha | ha | ⟨ht, hst, kept, hk, ha⟩ | ⟨ht, hst, ha⟩ <;>
        rw [ha] at hs <;> cases hs
      · exact h
      · exact ⟨hd, nofun⟩
      · refine ⟨hd, fun st' hst' => ?_⟩
        simp only [Rules.run_cons, Rules.run_nil, rules, Store.apply, Store.withNewest, hl, Option.map_some, Option.some.injEq] at hst'
        subst hst'
        exact ⟨⟨_, by simp only [Rules.run_cons, Rules.run_nil, rules, Store.apply, Store.withNewest, hrow]; rfl, hk.symm⟩, rfl, rfl⟩
      · refine ⟨hd, fun st' hst' => ?_⟩
        simp only [Rules.run_cons, Rules.run_nil, rules, Store.apply, Store.withNewest, hl, Option.map_some, Option.some.injEq] at hst'
        subst hst'
        exact ⟨⟨_, by simp only [Rules.run_cons, Rules.run_nil, rules, Store.apply, Store.withNewest, hrow]; rfl, rfl⟩, rfl, rfl⟩
  | effects candidate =>
    cases candidate with
    | none =>
      cases hs
      exact h
    | some candidate =>
      simp only [RelayHandover.settle, beginRelayHandover] at hs
      split at hs <;> cases hs <;> exact h
  | probing candidate =>
    cases hs
    exact h
  | catchingUp candidate =>
    simp only [RelayHandover.settle, promoteRelays] at hs
    split at hs
    · split at hs
      next hp =>
        cases hs
        refine ⟨hd, fun st' hst' => ?_⟩
        obtain ⟨st, hst, rfl⟩ := Option.map_eq_some_iff.mp hst'
        obtain ⟨⟨row, hrow, -⟩, hid⟩ := h.live st hst
        exact ⟨⟨_, by simp only [Rules.run_cons, Rules.run_nil, rules, Store.apply, hrow]; rfl, rfl⟩, hid⟩
      · cases hs
        exact h
    · cases hs
      exact h

/-- Clean relays are restored as they are. -/
theorem restoredRelays_of_clean (hc : policy.Clean l) (hne : l ≠ []) (hk : relayKey row.config_relays = relayKey l) :
    restoredRelays policy row relays = row.config_relays := by
  have hp := perm_of_relayKey hk
  have hrow : row.config_relays ≠ [] := by
    intro he
    rw [he] at hp
    exact hne hp.nil_eq.symm
  rw [restoredRelays, RelayPolicy.sanitize_of_clean (hc.perm hp.symm)]
  exact if_neg hrow

/-- An event is live again after a restart. -/
theorem Durable.restored (h : Durable policy s) (hrow : s.row = some row)
    (hx : cfg = s.newest ∨ supersedes cfg.created_at cfg.id s.newest.created_at s.newest.id = true ∧
      (if cfg.valid policy = [] then Settled s else relayKey (row.pending_relays.getD row.config_relays) = relayKey (cfg.valid policy))) :
    Follows policy (restored policy s row cfg relays) := by
  -- the relays change only where nothing is pending and no 31600 named them
  have hsame : ∀ l, policy.Clean l → l ≠ [] → relayKey (row.pending_relays.getD row.config_relays) = relayKey l →
      relayKey (row.pending_relays.getD (restoredRelays policy row relays)) = relayKey l := by
    intro l hc hne hk
    cases hp : row.pending_relays with
    | some p => rwa [hp] at hk
    | none =>
      rw [hp] at hk
      rw [Option.getD_none, restoredRelays_of_clean hc hne hk]
      exact hk
  have hnewest : (s.newestWith policy cfg).newest = cfg := by
    rcases hx with rfl | ⟨hs, -⟩
    · rw [Store.newestWith, supersedes_self]
      rfl
    · rw [Store.newestWith, hs]
      rfl
  refine ⟨⟨fun row' p hr hp => ?_, fun row' l hr hn => ?_, ?_⟩, fun st hst => ?_⟩
  · cases hr
    obtain ⟨hc, hne, hor⟩ := h.pending row p hrow hp
    refine ⟨hc, hne, ?_⟩
    show relayKey p = relayKey (restoredRelays policy row relays) ∨ relayKey p = relayKey ((s.newestWith policy cfg).newest.valid policy)
    have hkept : relayKey p = relayKey row.config_relays → relayKey p = relayKey (restoredRelays policy row relays) := by
      intro hk
      rw [restoredRelays_of_clean hc hne hk.symm]
      exact hk
    rw [hnewest]
    rcases hx with rfl | ⟨-, hx⟩
    · exact hor.imp_left hkept
    · split at hx
      · exact .inl (hkept (hx row p hrow hp))
      · rw [show row.pending_relays = some p from hp] at hx
        exact .inr hx
  · cases hr
    show policy.Clean l ∧ l ≠ [] ∧ relayKey (row.pending_relays.getD (restoredRelays policy row relays)) = relayKey l
    have hold : s.named = some l → policy.Clean l ∧ l ≠ [] ∧
        relayKey (row.pending_relays.getD (restoredRelays policy row relays)) = relayKey l := by
      intro hn
      obtain ⟨hc, hne, hk⟩ := h.named row l hrow hn
      exact ⟨hc, hne, hsame l hc hne hk⟩
    have hn' : (s.newestWith policy cfg).named = some l := hn
    rcases hx with rfl | ⟨hs, hx⟩
    · rw [Store.newestWith, supersedes_self] at hn'
      exact hold hn'
    · rw [Store.newestWith, hs, if_pos rfl] at hn'
      simp only [Store.withNewest] at hn'
      split at hn'
      · exact hold hn'
      next hv =>
        cases hn'
        rw [if_neg hv] at hx
        exact ⟨clean_valid, hv, hsame _ clean_valid hv hx⟩
  · show ∀ p ∈ (s.newestWith policy cfg).promotions, p.Right
    unfold Store.newestWith
    split <;> exact h.promotions
  · cases hst
    refine ⟨⟨_, rfl, rfl⟩, ?_⟩
    show cfg.id = (s.newestWith policy cfg).newest.id ∧ cfg.created_at = (s.newestWith policy cfg).newest.created_at
    rw [hnewest]
    exact ⟨rfl, rfl⟩

/-- **Every timely act keeps the invariant.** -/
theorem Follows.step (h : Follows policy w.store) (hx : Step policy w x w') (ht : Timely policy w x) : Follows policy w'.store := by
  cases x with
  | config k cfg =>
    simp only [Step, act] at hx
    split at hx <;> cases hx
    exact h
  | retry k =>
    simp only [Step, act] at hx
    split at hx <;> cases hx
    exact h.retry (ht.retry k rfl)
  | settle k ok =>
    obtain ⟨⟨es, next⟩, ho, rfl⟩ := Option.map_eq_some_iff.mp hx
    obtain ⟨pc, hpc, ho⟩ := Option.bind_eq_some_iff.mp ho
    split at ho
    · have hd := h.durable_settle (n := es.length + 3) (Option.some.inj ho)
        (fun cfg st hq hl htk hst _ => ht.config k ok cfg st (.inl rfl) (hq ▸ hpc) hl htk hst)
        (fun _ _ _ _ _ _ => .inr (Nat.le_add_left ..))
      rw [List.take_of_length_le (Nat.le_add_right ..)] at hd
      exact h.settle (Option.some.inj ho) hd
    · cases ho
  | crash =>
    cases hx
    exact ⟨⟨h.pending, h.named, h.promotions⟩, nofun⟩
  | crashDuring k ok n =>
    obtain ⟨⟨es, next⟩, ho, rfl⟩ := Option.map_eq_some_iff.mp hx
    obtain ⟨pc, hpc, ho⟩ := Option.bind_eq_some_iff.mp ho
    split at ho
    · have hd := h.durable_settle (n := n) (Option.some.inj ho)
        (fun cfg st hq hl htk hst hn =>
          ht.config k ok cfg st (.inr ⟨n - 1, by rw [Nat.sub_add_cancel hn]⟩) (hq ▸ hpc) hl htk hst)
        (fun cfg st hq hl htk hst => ht.crash k ok n cfg st rfl (hq ▸ hpc) hl htk hst)
      exact ⟨⟨hd.pending, hd.named, hd.promotions⟩, nofun⟩
    · cases ho
  | restore cfg defaultRelays =>
    simp only [Step, act] at hx
    split at hx
    next row hrow hl =>
      cases hx
      cases ha : cfg.attached with
      | true => exact h.toDurable.restored hrow (ht.restore cfg defaultRelays row rfl ha hrow)
      | false => exact ⟨h.toDurable.detached, nofun⟩
    · cases hx

/-- An event installed on relays its 31600 names, or names none. -/
theorem follows_installed (h : cfg.valid policy = [] ∨ relayKey relays = relayKey (cfg.valid policy)) :
    Follows policy (installed policy relays cfg) := by
  refine ⟨⟨fun row p hr hp => ?_, fun row l hr hn => ?_, by simp [installed]⟩, fun st hst => ?_⟩
  · cases hr
    cases hp
  · cases hr
    simp only [installed] at hn
    split at hn
    · cases hn
    next hv =>
      cases hn
      exact ⟨clean_valid, hv, h.resolve_left hv⟩
  · cases hst
    exact ⟨⟨_, rfl, rfl⟩, rfl, rfl⟩

/-! ## Retries -/

/-- With nothing pending, the event is on the relays named last. -/
theorem Follows.on_named (h : Follows policy s) (hl : s.live = some st) (hp : s.pending = none) (hn : s.named = some l) :
    relayKey st.configRelays = relayKey l := by
  obtain ⟨⟨row, hrow, hrl⟩, -⟩ := h.live st hl
  have hnone : row.pending_relays = none := by simpa [Store.pending, hrow] using hp
  have hk := (h.named row l hrow hn).2.2
  rw [hnone] at hk
  exact hrl.symm.trans hk

/-- A retry takes nothing but a candidate. -/
theorem timely_retry (hl : w.store.live = some st) : Timely policy w (.retry k) := by
  refine ⟨?_, nofun, fun _ _ hn => by simp [hl] at hn, nofun⟩
  rintro _ _ _ _ (h | ⟨_, h⟩) <;> cases h

/-- A handler that is no 31600's applies none. -/
theorem timely_settle (h : ∀ cfg, w.tasks k ≠ some (.queued cfg)) : Timely policy w (.settle k ok) := by
  refine ⟨?_, nofun, nofun, nofun⟩
  rintro _ _ cfg _ (hx | ⟨_, hx⟩) hk <;> cases hx
  exact (h cfg hk).elim

/-- A retry of a live event, with a reachable candidate, ends with nothing pending. -/
theorem retried (hl : w.store.live = some st) (hq : ∀ j, w.tasks j = none) (hw : Follows policy w.store) :
    ∃ n w', Run (Step policy) w (.retry k :: List.replicate n (.settle k true)) w' ∧ (∀ j, w'.tasks j = none) ∧
      Follows policy w'.store ∧ (∃ st, w'.store.live = some st) ∧ w'.store.pending = none ∧ w'.store.named = w.store.named := by
  have hquiet : ∀ {w₁ : World U} {es}, (∀ j ≠ k, w₁.tasks j = none) → ∀ j, ((rules policy).advance w₁ k es none).tasks j = none := by
    intro w₁ es h₁ j
    rw [Rules.advance_tasks]
    split
    · rfl
    next hj => exact h₁ j hj
  have hact : act policy w (.retry k) =
      some ((rules policy).advance w k (retryRelayHandovers w.store).1 (retryRelayHandovers w.store).2) := by
    simp [act, hq]
  have hstep := hw.step hact (timely_retry hl)
  cases hp : w.store.pending with
  | none =>
    have hr : retryRelayHandovers w.store = ([], none) := by simp [retryRelayHandovers, hp]
    rw [hr] at hact hstep
    exact ⟨0, _, .cons hact .nil, hquiet fun j _ => hq j, hstep, ⟨st, hl⟩, hp, rfl⟩
  | some candidate =>
    obtain ⟨row, hrow, hcand⟩ := Option.bind_eq_some_iff.mp hp
    by_cases hk : relayKey candidate = relayKey st.configRelays
    · have hr : retryRelayHandovers w.store = ([.clearPendingRelays], none) := by simp [retryRelayHandovers, hp, hl, hk]
      rw [hr] at hact hstep
      refine ⟨0, _, .cons hact .nil, hquiet fun j _ => hq j, hstep, ⟨st, hl⟩, ?_, rfl⟩
      simp [Rules.advance_store, rules, Store.apply, Store.pending, hrow]
    · have hpend : w.store.isPendingCandidate candidate = true := by simp [Store.isPendingCandidate, hp]
      have hr : retryRelayHandovers w.store = ([], some (.probing candidate)) := by
        simp [retryRelayHandovers, hp, hl, hk, beginRelayHandover, hpend]
      rw [hr] at hact hstep
      set w₁ := (rules policy).advance w k [] (some (.probing candidate)) with hw₁
      have ht₁ : w₁.tasks k = some (.probing candidate) := by rw [hw₁, Rules.advance_tasks, if_pos rfl]
      have hs₁ : w₁.store = w.store := rfl
      have hact₂ : act policy w₁ (.settle k true) = some ((rules policy).advance w₁ k [] (some (.catchingUp candidate))) := by
        simp [act, outcome, ht₁, Rules.ready, rules, settle, hs₁, hpend]
      have hstep₂ := hstep.step hact₂ (timely_settle fun cfg h => by rw [ht₁] at h; cases h)
      set w₂ := (rules policy).advance w₁ k [] (some (.catchingUp candidate)) with hw₂
      have ht₂ : w₂.tasks k = some (.catchingUp candidate) := by rw [hw₂, Rules.advance_tasks, if_pos rfl]
      have hs₂ : w₂.store = w.store := rfl
      have hact₃ : act policy w₂ (.settle k true) = some ((rules policy).advance w₂ k
          [.configRelays candidate, .upsertRelays candidate, .clearPendingRelays] none) := by
        simp [act, outcome, ht₂, Rules.ready, rules, settle, hs₂, promoteRelays, hpend]
      have hstep₃ := hstep₂.step hact₃ (timely_settle fun cfg h => by rw [ht₂] at h; cases h)
      refine ⟨2, _, .cons hact (.cons hact₂ (.cons hact₃ .nil)), hquiet fun j hj => ?_, hstep₃, ?_, ?_, rfl⟩
      · rw [hw₂, Rules.advance_tasks, if_neg hj, hw₁, Rules.advance_tasks, if_neg hj, hq]
      · simp [Rules.advance_store, rules, Store.apply, hs₂, hl]
      · simp [Rules.advance_store, rules, Store.apply, Store.pending, hs₂, hrow]

/-- **The relays follow the newest 31600**, in every run of timely acts: a
promotion that changes them leads to the valid relays of the newest 31600
applied; and when every 31600 has been applied and a retry has run, with its
candidate reachable, the event is on those of the newest that names any. -/
theorem relays_follow_newest (h0 : cfg.valid policy = [] ∨ relayKey relays = relayKey (cfg.valid policy))
    (h : Run (fun w x w' => Step policy w x w' ∧ Timely policy w x) (.fresh (installed policy relays cfg)) xs w) :
    (∀ p ∈ w.store.promotions, relayKey p.before ≠ relayKey p.after → relayKey p.after = relayKey p.newest) ∧
      ∀ k, (∀ j, w.tasks j = none) → w.store.live.isSome → ∃ n w',
        Run (Step policy) w (.retry k :: List.replicate n (.settle k true)) w' ∧ (∀ j, w'.tasks j = none) ∧
          ∃ st, w'.store.live = some st ∧ ∀ l, w.store.named = some l → relayKey st.configRelays = relayKey l := by
  have hw : Follows policy w.store :=
    h.invariant (I := fun w => Follows policy w.store) (fun _ _ _ hw hx => hw.step hx.1 hx.2) (follows_installed h0)
  refine ⟨hw.promotions, fun k hq hlive => ?_⟩
  obtain ⟨st, hl⟩ := Option.isSome_iff_exists.mp hlive
  obtain ⟨n, w', hrun, hq', hw', ⟨st', hl'⟩, hp', hn'⟩ := retried (k := k) hl hq hw
  exact ⟨n, w', hrun, hq', st', hl', fun l hn => hw'.on_named hl' hp' (hn'.trans hn)⟩

/-- A handler that went on is past the lock. -/
theorem not_queued (h : act policy w (.settle k ok) = some w') : w'.tasks k ≠ some (.queued cfg) := by
  obtain ⟨⟨es, next⟩, ho, rfl⟩ := Option.map_eq_some_iff.mp h
  obtain ⟨pc, -, ho⟩ := Option.bind_eq_some_iff.mp ho
  split at ho
  · rw [Rules.advance_tasks, if_pos rfl]
    rintro rfl
    have hs := Option.some.inj ho
    simp only [settle, applyConfigUpdate, beginRelayHandover] at hs
    repeat' split at hs
    all_goals cases hs
  · cases ho

/-- Numbers for relays; every one is valid. -/
def Small.anyRelay : RelayPolicy Nat := ⟨10, some, fun _ _ h => by cases h; rfl⟩

/-- An event on relay 1, as its 31600 says. -/
def Small.start : World Nat := .fresh (installed Small.anyRelay [1] ⟨1, 1, true, [1]⟩)

/-- The next 31600 names relay 2, and its handover is being proven. -/
def Small.moving : List (Act Nat) := [.config 1 ⟨2, 2, true, [2]⟩, .settle 1 true, .settle 1 true]

theorem relays_follow_newest_move : ∃ w, Run.exec (act Small.anyRelay) Small.start (Small.moving ++ [.settle 1 true, .settle 1 true]) = some w ∧
    w.store.promotions.length = 1 ∧ ∀ p ∈ w.store.promotions, relayKey p.before ≠ relayKey p.after → relayKey p.after = relayKey p.newest := by
  have h : (Run.exec (act Small.anyRelay) Small.start (Small.moving ++ [.settle 1 true, .settle 1 true])).map
      (·.store.promotions.length) = some 1 := by
    decide +kernel
  obtain ⟨w₅, hw, hlen⟩ := Option.map_eq_some_iff.mp h
  refine ⟨w₅, hw, hlen, ?_⟩
  obtain ⟨w₁, h₁, hw⟩ := Option.bind_eq_some_iff.mp hw
  obtain ⟨w₂, h₂, hw⟩ := Option.bind_eq_some_iff.mp hw
  obtain ⟨w₃, h₃, hw⟩ := Option.bind_eq_some_iff.mp hw
  obtain ⟨w₄, h₄, hw⟩ := Option.bind_eq_some_iff.mp hw
  obtain ⟨w₅, h₅, hw⟩ := Option.bind_eq_some_iff.mp hw
  cases hw
  cases h₁
  have hsettled : Settled Small.start.store := by
    rintro row p hrow hp
    cases hrow
    cases hp
  have hrun : Run (fun w x w' => Step Small.anyRelay w x w' ∧ Timely Small.anyRelay w x) Small.start
      (Small.moving ++ [.settle 1 true, .settle 1 true]) w₅ := by
    refine .cons ⟨rfl, ?_, nofun, nofun, nofun⟩ (.cons ⟨h₂, fun _ _ _ _ _ _ _ _ _ => hsettled, nofun, nofun, nofun⟩
      (.cons ⟨h₃, timely_settle fun _ => not_queued h₂⟩ (.cons ⟨h₄, timely_settle fun _ => not_queued h₃⟩
        (.cons ⟨h₅, timely_settle fun _ => not_queued h₄⟩ .nil))))
    rintro _ _ _ _ (h | ⟨_, h⟩) <;> cases h
  have hvalid : (⟨1, 1, true, [1]⟩ : Config Nat).valid Small.anyRelay = [1] := rfl
  exact (relays_follow_newest (.inr (congrArg relayKey hvalid.symm)) hrun).1

/-- A 31600 returns to the relays in use while the handover of an older one is
being proven, and the older one's relays are promoted. -/
theorem relays_follow_newest_return : ∃ xs w, Run (Step Small.anyRelay) Small.start xs w ∧
    ¬ ∀ p ∈ w.store.promotions, relayKey p.before ≠ relayKey p.after → relayKey p.after = relayKey p.newest := by
  let xs := Small.moving ++ [.config 2 ⟨3, 3, true, [1]⟩, .settle 2 true, .settle 2 true, .settle 1 true, .settle 1 true]
  have h : (Run.exec (act Small.anyRelay) Small.start xs).map
      (fun w => w.store.promotions.any fun p => p.before = [1] ∧ p.after = [2] ∧ p.newest = [1]) = some true := by
    decide +kernel
  obtain ⟨w, hw, hany⟩ := Option.map_eq_some_iff.mp h
  refine ⟨xs, w, Run.of_exec hw, fun hall => ?_⟩
  obtain ⟨p, hp, hval⟩ := List.any_eq_true.mp hany
  obtain ⟨hb, ha, hn⟩ := of_decide_eq_true hval
  have hne : ∀ h : relayKey [1] = relayKey [2], False := fun h => absurd (perm_of_relayKey h) (by decide)
  have hright := hall p hp
  rw [hb, ha, hn] at hright
  exact hne (hright hne).symm

end Nostrautica.RelayHandover
