/-
What it takes for a chat key to become active as an external one (`links_need_codes`): the code that was
issued last to the account, for this key, in time and before the wrong codes are too many. An account's
own key needs none, and a key that was linked before may come back by a proof of possession.
-/
import Nostrautica.Coordinator.ChatLinks

set_option linter.unusedSectionVars false

namespace Nostrautica.ChatLinks

open Sql

variable {C K Code H Proof : Type} [DecidableEq C] [DecidableEq K] [DecidableEq H] {d : Deps C K Code H Proof}
  {w w' : World C K Code H} {x : Act C K Code Proof} {xs : List (Act C K Code Proof)} {coordinate c : C} {account key a k : K}
  {t t' : Keyed (C × K) (KeyRow K)} {member : C × K} {now createdAt : Int} {pc : Pc C K}

/-! ## What is said of a world -/

/-- The key is active as an external key of the account. -/
def External (t : Keyed (C × K) (KeyRow K)) (coordinate : C) (account key : K) : Prop :=
  ∃ row, t.get? (coordinate, key) = some row ∧ row.account_pubkey = account ∧ row.status = .active ∧ row.external = true

/-- The code issued last to a member, with its key and its time. -/
def latest : List (Entry C K Code) → C → K → Option (K × Code × Int)
  | [], _, _ => none
  | .issued c a key code now _ :: log, coordinate, account =>
    if c = coordinate ∧ a = account then some (key, code, now) else latest log coordinate account
  | .wrong _ _ :: log, coordinate, account => latest log coordinate account

/-- The wrong codes that the member has sent since. -/
def wrongs : List (Entry C K Code) → C → K → Nat
  | [], _, _ => 0
  | .issued c a _ _ _ _ :: log, coordinate, account => if c = coordinate ∧ a = account then 0 else wrongs log coordinate account
  | .wrong c a :: log, coordinate, account => wrongs log coordinate account + if c = coordinate ∧ a = account then 1 else 0

/-- The codes issued to a member, each with the start of its window. -/
def issues : List (Entry C K Code) → C → K → List (Int × Int)
  | [], _, _ => []
  | .issued c a _ _ now ws :: log, coordinate, account =>
    if c = coordinate ∧ a = account then (now, ws) :: issues log coordinate account else issues log coordinate account
  | .wrong _ _ :: log, coordinate, account => issues log coordinate account

/-- The member sends the code of its live link, in time and before too many wrong ones. -/
structure Confirms (d : Deps C K Code H Proof) (w : World C K Code H) (coordinate : C) (account key : K) (typed : Code) (now : Int) :
    Prop where
  pending : ∃ link, w.links.get? (coordinate, account) = some link ∧ link.status = .pending
  code : ∃ code issuedAt, latest w.log coordinate account = some (key, code, issuedAt) ∧
    hashChatLinkCode d typed coordinate account key = hashChatLinkCode d code coordinate account key ∧ now < issuedAt + chatLinkTtlMs
  attempts : wrongs w.log coordinate account < chatLinkMaxAttempts

/-- What lets a key become active as an external one. -/
def Warranted (d : Deps C K Code H Proof) (w : World C K Code H) (x : Act C K Code Proof) (coordinate : C) (account key : K) : Prop :=
  (∃ typed createdAt now group, x = .deliver coordinate account (.link_confirm key (some typed)) createdAt now group ∧
    Confirms d w coordinate account key typed now) ∨
  (key = account ∧ w.tasks (coordinate, account) = some (.sweeping account [])) ∨
  ∃ proof createdAt now group, x = .deliver coordinate account (.add key (some proof)) createdAt now group ∧
    d.verifyChatDeviceProof proof coordinate account key createdAt = true ∧
    ∃ row, w.keys.get? (coordinate, key) = some row ∧ row.account_pubkey = account ∧ row.external = true

/-- Codes are issued in windows that lie apart, so many in each. -/
structure Rated (l : List (Int × Int)) : Prop where
  count : ∀ ws, l.countP (·.2 = ws) ≤ chatLinkMaxRequests
  within : ∀ p ∈ l, p.1 - p.2 < chatLinkWindowMs
  apart : ∀ p ∈ l, ∀ q ∈ l, p.2 = q.2 ∨ p.2 + chatLinkWindowMs ≤ q.2 ∨ q.2 + chatLinkWindowMs ≤ p.2

/-! ## The invariant -/

/-- The window that the row of a member carries, and its count. -/
def window (t : Keyed (C × K) (LinkRow K H)) (member : C × K) : Option (Int × Nat) :=
  (t.get? member).map fun row => (row.window_started_at, row.window_count)

/-- The codes issued are within the window of the row, or in earlier ones. -/
def Windowed (l : List (Int × Int)) : Option (Int × Nat) → Prop
  | none => l = []
  | some (ws, n) => n ≤ chatLinkMaxRequests ∧ l.countP (·.2 = ws) ≤ n ∧ ∀ p ∈ l, p.2 = ws ∨ p.2 + chatLinkWindowMs ≤ ws

/-- A request counts on in the window of the row, or begins the next one. -/
def Opens (now ws : Int) (n : Nat) : Option (Int × Nat) → Prop
  | none => n = 1 ∧ now - ws < chatLinkWindowMs
  | some (ws', m) => now - ws < chatLinkWindowMs ∧ n ≤ chatLinkMaxRequests ∧ (ws = ws' ∧ n = m + 1 ∨ ws' + chatLinkWindowMs ≤ ws ∧ n = 1)

structure Sound (d : Deps C K Code H Proof) (w : World C K Code H) : Prop where
  live : ∀ c a link, w.links.get? (c, a) = some link → link.status = .pending →
    ∃ code issuedAt, latest w.log c a = some (link.chat_pubkey, code, issuedAt) ∧
      link.code_hash = some (hashChatLinkCode d code c a link.chat_pubkey) ∧ link.expires_at = issuedAt + chatLinkTtlMs ∧
      link.attempts = wrongs w.log c a ∧ link.attempts < chatLinkMaxAttempts
  windowed : ∀ c a, Windowed (issues w.log c a) (window w.links (c, a))
  rated : ∀ c a, Rated (issues w.log c a)
  opens : ∀ c a k now ws n, w.tasks (c, a) = some (.opening k now ws n) → Opens now ws n (window w.links (c, a))
  capped : ∀ c a, w.activeKeys c a ≤ maxChatKeysPerAccount

theorem sound_start : Sound d ({} : World C K Code H) :=
  ⟨fun _ _ _ h => (by cases h), fun _ _ => rfl, fun _ _ => ⟨fun _ => Nat.zero_le _, fun _ h => (by cases h), fun _ h => (by cases h)⟩,
    fun _ _ _ _ _ _ h => (by cases h), fun _ _ => Nat.zero_le _⟩

/-! ## Single statements -/

theorem Sound.at (h : Sound d w) (hpc : ∀ k now ws n, pc = .opening k now ws n → Opens now ws n (window w.links member)) :
    Sound d (w.at member pc) := by
  refine ⟨h.live, h.windowed, h.rated, fun c a k now ws n hx => ?_, h.capped⟩
  simp only [World.at, Function.update_apply] at hx
  split at hx
  · next hm =>
    cases hx
    rw [hm]
    exact hpc k now ws n rfl
  · exact h.opens c a k now ws n hx

theorem Sound.leaving (h : Sound d w) : Sound d (w.at member .leaving) := h.at fun _ _ _ _ hx => by cases hx

theorem Sound.sweeping (h : Sound d w) {rest : List (C × K)} : Sound d (w.at member (.sweeping key rest)) :=
  h.at fun _ _ _ _ hx => by cases hx

theorem Sound.done (h : Sound d w) : Sound d (w.done member) := by
  refine ⟨h.live, h.windowed, h.rated, fun c a k now ws n hx => ?_, h.capped⟩
  simp only [World.done, Function.update_apply] at hx
  split at hx
  · cases hx
  · exact h.opens c a k now ws n hx

theorem window_update (t : Keyed (C × K) (LinkRow K H)) (member : C × K) {f : LinkRow K H → LinkRow K H}
    (hf : ∀ row, (f row).window_started_at = row.window_started_at ∧ (f row).window_count = row.window_count) (p : C × K) :
    window (t.update member f) p = window t p := by
  simp only [window, Keyed.get?_update]
  split
  · next hm =>
    rw [hm, Option.map_map]
    exact congrArg (Option.map · _) (funext fun row => by rw [Function.comp, (hf row).1, (hf row).2])
  · rfl

/-- A link that is closed, or that has led to its key, is not live. -/
theorem Sound.ended (h : Sound d w) {status : LinkStatus} (hs : status ≠ .pending) :
    Sound d { w with links := setChatLinkStatus w.links member status } := by
  have hwindow := window_update w.links member (f := fun row => { row with status := status, code_hash := none }) fun _ => ⟨rfl, rfl⟩
  refine ⟨fun c a link hl hp => ?_, fun c a => ?_, h.rated, fun c a k now ws n hx => ?_, h.capped⟩
  · simp only [setChatLinkStatus, Keyed.get?_update] at hl
    split at hl
    · obtain ⟨row, -, rfl⟩ := Option.map_eq_some_iff.1 hl
      exact absurd hp hs
    · exact h.live c a link hl hp
  · show Windowed _ (window (w.links.update _ _) _)
    rw [hwindow]
    exact h.windowed c a
  · show Opens _ _ _ (window (w.links.update _ _) _)
    rw [hwindow]
    exact h.opens c a k now ws n hx

theorem Sound.closeLink (h : Sound d w) : Sound d (w.closeLink member) := h.ended (by decide)

/-- Only the cap looks at the keys. -/
theorem Sound.keys (h : Sound d w) (hl : w'.links = w.links) (hg : w'.log = w.log) (ht : w'.tasks = w.tasks)
    (hcap : ∀ c a, w'.activeKeys c a ≤ maxChatKeysPerAccount) : Sound d w' := by
  refine ⟨?_, ?_, ?_, ?_, hcap⟩
  · rw [hl, hg]
    exact h.live
  · rw [hl, hg]
    exact h.windowed
  · rw [hg]
    exact h.rated
  · rw [hl, ht]
    exact h.opens

/-! ## Keys -/

theorem get?_upsertChatKey {external : Option Bool} (h : upsertChatKey t coordinate account key external = some t') {p : C × K}
    {row : KeyRow K} (hrow : t'.get? p = some row) :
    t.get? p = some row ∨ p = (coordinate, key) ∧ row.account_pubkey = account ∧
      (external = none → row.external = true → ∃ old, t.get? p = some old ∧ old.account_pubkey = account ∧ old.external = true) := by
  simp only [upsertChatKey] at h
  split at h
  · cases h
  next hpin =>
    cases h
    rw [Keyed.get?_upsert] at hrow
    split at hrow
    next hp =>
      subst hp
      cases hold : t.get? (coordinate, key) with
      | none =>
        rw [hold] at hrow
        cases hrow
        refine .inr ⟨rfl, rfl, fun hx he => ?_⟩
        rw [hx] at he
        cases he
      | some old =>
        rw [hold] at hrow hpin
        cases hrow
        have hacc : old.account_pubkey = account := by simpa using hpin
        refine .inr ⟨rfl, hacc, fun hx he => ⟨old, rfl, hacc, ?_⟩⟩
        rwa [hx] at he
    · exact .inl hrow

theorem count_upsertChatKey {external : Option Bool} (h : upsertChatKey t coordinate account key external = some t')
    (hcap : ∀ c a, t.count (activeOf c a) ≤ maxChatKeysPerAccount)
    (hroom : ¬((t.get? (coordinate, key)).any (activeOf coordinate account (coordinate, key)) = false ∧
      maxChatKeysPerAccount ≤ t.count (activeOf coordinate account))) (c : C) (a : K) :
    t'.count (activeOf c a) ≤ maxChatKeysPerAccount := by
  simp only [upsertChatKey] at h
  split at h
  · cases h
  next hpin =>
    cases h
    by_cases hsame : c = coordinate ∧ a = account
    · obtain ⟨rfl, rfl⟩ := hsame
      by_cases hactive : (t.get? (c, key)).any (activeOf c a (c, key)) = true
      · refine (Keyed.count_upsert_le_of fun _ => ?_).trans (hcap c a)
        cases hold : t.get? (c, key) with
        | none =>
          rw [hold] at hactive
          cases hactive
        | some old =>
          rw [hold] at hactive
          exact ⟨old, rfl, hactive⟩
      · have hlt : t.count (activeOf c a) < maxChatKeysPerAccount := by
          by_contra hge
          exact hroom ⟨by simpa using hactive, not_lt.mp hge⟩
        exact Keyed.count_upsert_le.trans hlt
    · refine (Keyed.count_upsert_le_of fun hp => absurd ?_ hsame).trans (hcap c a)
      simp only [activeOf, decide_eq_true_eq] at hp
      refine ⟨hp.1.symm, ?_⟩
      cases hold : t.get? (coordinate, key) with
      | none =>
        rw [hold] at hp
        exact hp.2.1.symm
      | some old =>
        rw [hold] at hp hpin
        have hacc : old.account_pubkey = account := by simpa using hpin
        exact hp.2.1.symm.trans hacc

theorem get?_revokeChatKey {p : C × K} {row : KeyRow K} (h : (revokeChatKey t coordinate key).get? p = some row)
    (hs : row.status = .active) : t.get? p = some row := by
  simp only [revokeChatKey, Keyed.get?_update] at h
  split at h
  · obtain ⟨old, -, rfl⟩ := Option.map_eq_some_iff.1 h
    cases hs
  · exact h

theorem count_revokeChatKey : (revokeChatKey t coordinate key).count (activeOf c a) ≤ t.count (activeOf c a) :=
  Keyed.count_update_le fun row hp => by simp [activeOf] at hp

theorem external_revokeChatKey (h : External (revokeChatKey t coordinate key) c a k) : External t c a k := by
  obtain ⟨row, hrow, hacc, hs, he⟩ := h
  exact ⟨row, get?_revokeChatKey hrow hs, hacc, hs, he⟩

theorem foldl_revokeChatKey (coordinate : C) (keys : List K) : ∀ t : Keyed (C × K) (KeyRow K),
    (∀ c a k, External (keys.foldl (fun t key => revokeChatKey t coordinate key) t) c a k → External t c a k) ∧
      ∀ c a, (keys.foldl (fun t key => revokeChatKey t coordinate key) t).count (activeOf c a) ≤ t.count (activeOf c a) := by
  induction keys with
  | nil => exact fun t => ⟨fun _ _ _ h => h, fun _ _ => le_rfl⟩
  | cons key keys ih =>
    refine fun t => ⟨fun c a k h => external_revokeChatKey ((ih _).1 c a k h), fun c a => ?_⟩
    exact ((ih _).2 c a).trans count_revokeChatKey

/-! ## The handlers -/

/-- A step keeps the invariant, and a key that it makes active as an external one is warranted. -/
def Goes (d : Deps C K Code H Proof) (w : World C K Code H) (x : Act C K Code Proof) (w' : World C K Code H) : Prop :=
  Sound d w' ∧ ∀ c a k, External w'.keys c a k → External w.keys c a k ∨ Warranted d w x c a k

theorem goes_of_keys (h : Sound d w') (hk : w'.keys = w.keys) : Goes d w x w' :=
  ⟨h, fun _ _ _ he => .inl (hk ▸ he)⟩

/-- A key that is bound, with room for it. -/
theorem goes_bindLinkedKey (h : Sound d w') (hk : w'.keys = w.keys)
    (hroom : ¬(w.isActive coordinate account key = false ∧ maxChatKeysPerAccount ≤ w.activeKeys coordinate account))
    (hx : Warranted d w x coordinate account key) :
    Goes d w x ((w'.bindLinkedKey coordinate account key).at (coordinate, account) .leaving) := by
  unfold World.bindLinkedKey
  cases hu : upsertChatKey w'.keys coordinate account key (some true) with
  | none => exact goes_of_keys h.leaving hk
  | some keys =>
    rw [hk] at hu
    refine ⟨((h.keys rfl rfl rfl (count_upsertChatKey hu (fun c a => hk ▸ h.capped c a) hroom) : Sound d { w' with keys := keys })).leaving, fun c a k he => ?_⟩
    obtain ⟨row, hrow, hacc, hs, hext⟩ := he
    rcases get?_upsertChatKey hu hrow with hrow | ⟨hp, hacc', -⟩
    · exact .inl ⟨row, hrow, hacc, hs, hext⟩
    · cases hp
      rw [← hacc, hacc']
      exact .inr hx

theorem goes_add {proof : Option Proof} {group : Bool} (h : Sound d w)
    (hx : x = .deliver coordinate account (.add key proof) createdAt now group) :
    Goes d w x (w.add d coordinate account key proof createdAt now) := by
  simp only [World.add]
  split
  · exact goes_of_keys h rfl
  next hproof =>
    split
    · exact goes_of_keys h rfl
    split
    · exact goes_of_keys h rfl
    next hroom =>
      split
      · exact goes_of_keys h rfl
      next keys hu =>
        refine ⟨(h.keys ?_ ?_ ?_ (count_upsertChatKey hu h.capped hroom)).leaving, fun c a k he => ?_⟩
        · rfl
        · rfl
        · rfl
        obtain ⟨row, hrow, hacc, hs, hext⟩ := he
        rcases get?_upsertChatKey hu hrow with hrow | ⟨hp, hacc', hold⟩
        · exact .inl ⟨row, hrow, hacc, hs, hext⟩
        · cases hp
          cases proof with
          | none => exact absurd rfl hproof
          | some proof =>
            obtain ⟨old, hold, holdacc, holdext⟩ := hold rfl hext
            rw [← hacc, hacc']
            exact .inr (.inr (.inr ⟨proof, createdAt, now, group, hx, by simpa using hproof, old, hold, holdacc, holdext⟩))

theorem goes_revoke (h : Sound d w) : Goes d w x (w.revoke coordinate account key createdAt now) := by
  simp only [World.revoke]
  split
  · exact goes_of_keys h rfl
  split
  · exact goes_of_keys h rfl
  split
  · exact goes_of_keys h rfl
  · refine ⟨(h.keys ?_ ?_ ?_ fun c a => ?_).leaving, fun c a k he => .inl (external_revokeChatKey he)⟩
    · rfl
    · rfl
    · rfl
    · exact count_revokeChatKey.trans (h.capped c a)

theorem Sound.sweepNext (h : Sound d w) : ∀ rest : List (C × K), Sound d (w.sweepNext rest).1 ∧ (w.sweepNext rest).1.keys = w.keys
  | [] => ⟨h, rfl⟩
  | _ :: _ => ⟨h.closeLink, rfl⟩

theorem goes_linkRequest {group : Bool} (h : Sound d w) : Goes d w x (w.linkRequest coordinate account key now group) := by
  simp only [World.linkRequest]
  split
  · exact goes_of_keys h rfl
  split
  · exact goes_of_keys h rfl
  · obtain ⟨hs, hk⟩ := h.sweepNext (expiredPendingChatLinks w.links now)
    exact goes_of_keys hs.sweeping hk

theorem goes_linkChecked (h : Sound d w) (hx : w.tasks (coordinate, account) = some (.sweeping key [])) :
    Goes d w x (w.linkChecked coordinate account key now) := by
  simp only [World.linkChecked]
  split
  · exact goes_of_keys h.done rfl
  split
  · exact goes_of_keys h.leaving rfl
  split
  · exact goes_of_keys h.done rfl
  next hroom =>
    split
    next hself =>
      subst hself
      exact goes_bindLinkedKey h rfl (fun hfull => hroom hfull.2) (.inr (.inl ⟨rfl, hx⟩))
    · split
      · exact goes_of_keys h.done rfl
      next hrate =>
        refine goes_of_keys (h.at fun k now' ws n hpc => ?_) rfl
        cases hpc
        unfold window
        cases hprior : w.links.get? (coordinate, account) with
        | none => exact ⟨rfl, by simp [chatLinkWindowMs]⟩
        | some prior =>
          rw [hprior] at hrate
          by_cases hin : now - prior.window_started_at < chatLinkWindowMs
          · rw [Option.filter_some, if_pos (by simpa using hin)] at hrate ⊢
            exact ⟨hin, not_lt.mp hrate, .inl ⟨rfl, rfl⟩⟩
          · rw [Option.filter_some, if_neg (by simpa using hin)]
            refine ⟨by simp [chatLinkWindowMs], by simp [chatLinkMaxRequests], .inr ⟨?_, rfl⟩⟩
            show prior.window_started_at + chatLinkWindowMs ≤ now
            omega

/-- What is counted into the window of a request leaves the windows as they were. -/
theorem Windowed.opens {l : List (Int × Int)} {ws : Int} {n : Nat} : ∀ {o : Option (Int × Nat)}, Windowed l o → Opens now ws n o →
    n ≤ chatLinkMaxRequests ∧ l.countP (·.2 = ws) + 1 ≤ n ∧ ∀ p ∈ l, p.2 = ws ∨ p.2 + chatLinkWindowMs ≤ ws
  | none, hl, ho => by
    have hl : l = [] := hl
    obtain ⟨rfl, -⟩ := ho
    rw [hl]
    exact ⟨by decide, le_rfl, fun p hp => by cases hp⟩
  | some (ws', m), hl, ho => by
    obtain ⟨hm, hcount, hle⟩ := hl
    obtain ⟨-, hn, ⟨rfl, rfl⟩ | ⟨hws, rfl⟩⟩ := ho
    · exact ⟨hn, Nat.succ_le_succ hcount, hle⟩
    · have hpos : 0 < chatLinkWindowMs := by decide
      have hlt : ∀ p ∈ l, p.2 + chatLinkWindowMs ≤ ws := fun p hp => by
        rcases hle p hp with hp | hp <;> omega
      refine ⟨hn, Nat.succ_le_succ (Nat.le_of_eq (List.countP_eq_zero.mpr fun p hp heq => ?_)), fun p hp => .inr (hlt p hp)⟩
      have := hlt p hp
      have : p.2 = ws := by simpa using heq
      omega

theorem latest_issued (coordinate : C) (account key : K) (code : Code) (now ws : Int) (log : List (Entry C K Code)) (c : C) (a : K) :
    (c = coordinate ∧ a = account → latest (.issued coordinate account key code now ws :: log) c a = some (key, code, now) ∧
      wrongs (.issued coordinate account key code now ws :: log) c a = 0 ∧
      issues (.issued coordinate account key code now ws :: log) c a = (now, ws) :: issues log c a) ∧
    (¬(c = coordinate ∧ a = account) → latest (.issued coordinate account key code now ws :: log) c a = latest log c a ∧
      wrongs (.issued coordinate account key code now ws :: log) c a = wrongs log c a ∧
      issues (.issued coordinate account key code now ws :: log) c a = issues log c a) := by
  constructor
  · rintro ⟨rfl, rfl⟩
    simp [latest, wrongs, issues]
  · intro h
    have h : ¬(coordinate = c ∧ account = a) := fun he => h ⟨he.1.symm, he.2.symm⟩
    simp [latest, wrongs, issues, h]

/-- A request that opens no link counts, and its member's row is otherwise as it was. -/
theorem Sound.counted (h : Sound d w) {ws : Int} {n : Nat} (ho : Opens now ws n (window w.links (coordinate, account))) :
    Sound d ({ w with links := countChatLinkRequest w.links coordinate account key ws n }.done (coordinate, account)) := by
  obtain ⟨hn, hcount, hle⟩ := (h.windowed coordinate account).opens ho
  refine ⟨fun c a link hl hp => ?_, fun c a => ?_, h.rated, fun c a k now ws' m hx => ?_, h.capped⟩
  · simp only [World.done, countChatLinkRequest, Keyed.get?_upsert] at hl
    split at hl
    next hm =>
      cases hm
      cases hold : w.links.get? (coordinate, account) with
      | none =>
        rw [hold] at hl
        cases hl
        cases hp
      | some old =>
        rw [hold] at hl
        cases hl
        exact h.live coordinate account old hold hp
    · exact h.live c a link hl hp
  · simp only [World.done, window, countChatLinkRequest, Keyed.get?_upsert]
    split
    next hm =>
      cases hm
      cases w.links.get? (coordinate, account) <;> exact ⟨hn, Nat.le_of_succ_le hcount, hle⟩
    · exact h.windowed c a
  · simp only [World.done, Function.update_apply] at hx
    split at hx
    · cases hx
    next hm =>
      simp only [World.done, window, countChatLinkRequest, Keyed.get?_upsert]
      rw [if_neg (Ne.symm hm)]
      exact h.opens c a k now ws' m hx

/-- A code is issued. -/
theorem Sound.issued (h : Sound d w) {code : Code} {ws : Int} {n : Nat} (ho : Opens now ws n (window w.links (coordinate, account))) :
    Sound d (World.at { w with
      links := putPendingChatLink w.links coordinate account key (hashChatLinkCode d code coordinate account key) (now + chatLinkTtlMs) ws n
      log := .issued coordinate account key code now ws :: w.log } (coordinate, account) (.inviting key)) := by
  obtain ⟨hn, hcount, hle⟩ := (h.windowed coordinate account).opens ho
  have hnow : now - ws < chatLinkWindowMs := by
    cases hw : window w.links (coordinate, account) with
    | none =>
      rw [hw] at ho
      exact ho.2
    | some p =>
      rw [hw] at ho
      exact ho.1
  have hlog := latest_issued coordinate account key code now ws w.log
  refine ⟨fun c a link hl hp => ?_, fun c a => ?_, fun c a => ?_, fun c a k now ws' m hx => ?_, h.capped⟩
  · simp only [World.at, putPendingChatLink, Keyed.get?_upsert] at hl ⊢
    split at hl
    next hm =>
      cases hm
      cases hl
      obtain ⟨h1, h2, -⟩ := (hlog coordinate account).1 ⟨rfl, rfl⟩
      exact ⟨code, now, h1, rfl, rfl, h2.symm, Nat.succ_pos 4⟩
    next hm =>
      obtain ⟨h1, h2, -⟩ := (hlog c a).2 fun he => hm (by rw [he.1, he.2])
      rw [h1, h2]
      exact h.live c a link hl hp
  · simp only [World.at, window, putPendingChatLink, Keyed.get?_upsert]
    split
    next hm =>
      cases hm
      rw [((hlog coordinate account).1 ⟨rfl, rfl⟩).2.2]
      refine ⟨hn, ?_, fun p hp => ?_⟩
      · rw [List.countP_cons, if_pos (by simp)]
        exact hcount
      · rcases List.mem_cons.1 hp with rfl | hp
        · exact .inl rfl
        · exact hle p hp
    next hm =>
      rw [((hlog c a).2 fun he => hm (by rw [he.1, he.2])).2.2]
      exact h.windowed c a
  · by_cases hm : c = coordinate ∧ a = account
    · obtain ⟨rfl, rfl⟩ := hm
      have hr := h.rated c a
      show Rated (issues (.issued c a key code now ws :: w.log) c a)
      rw [((hlog c a).1 ⟨rfl, rfl⟩).2.2]
      refine ⟨fun v => ?_, fun p hp => ?_, fun p hp q hq => ?_⟩
      · rw [List.countP_cons]
        split
        next hv =>
          have hv : ws = v := by simpa using hv
          rw [← hv]
          exact hcount.trans hn
        · exact hr.count v
      · rcases List.mem_cons.1 hp with rfl | hp
        · exact hnow
        · exact hr.within p hp
      · rcases List.mem_cons.1 hp with rfl | hp <;> rcases List.mem_cons.1 hq with rfl | hq
        · exact .inl rfl
        · rcases hle q hq with hq | hq
          · exact .inl hq.symm
          · exact .inr (.inr hq)
        · rcases hle p hp with hp | hp
          · exact .inl hp
          · exact .inr (.inl hp)
        · exact hr.apart p hp q hq
    · show Rated (issues (.issued coordinate account key code now ws :: w.log) c a)
      rw [((hlog c a).2 hm).2.2]
      exact h.rated c a
  · simp only [World.at, Function.update_apply] at hx
    split at hx
    · cases hx
    next hm =>
      simp only [World.at, window, putPendingChatLink, Keyed.get?_upsert]
      rw [if_neg (Ne.symm hm)]
      exact h.opens c a k now ws' m hx

theorem goes_linkOpened (h : Sound d w) {ws : Int} {n : Nat} (ho : Opens now ws n (window w.links (coordinate, account))) :
    ∀ answer, Goes d w x (w.linkOpened d coordinate account key now ws n answer)
  | .opened _ => goes_of_keys (h.issued ho) rfl
  | .done | .failed => goes_of_keys (h.counted ho) rfl

/-- A wrong code is counted. -/
theorem Sound.tried (h : Sound d w) {link : LinkRow K H} (hl : w.links.get? (coordinate, account) = some link)
    (hp : link.status = .pending) (hlt : link.attempts + 1 < chatLinkMaxAttempts) :
    Sound d { w with
      links := setChatLinkAttempts w.links (coordinate, account) (link.attempts + 1), log := .wrong coordinate account :: w.log } := by
  have hwindow := window_update w.links (coordinate, account) (f := fun row => { row with attempts := link.attempts + 1 })
    fun _ => ⟨rfl, rfl⟩
  refine ⟨fun c a row hr hp' => ?_, fun c a => ?_, h.rated, fun c a k now ws n hx => ?_, h.capped⟩
  · simp only [setChatLinkAttempts, Keyed.get?_update] at hr
    simp only [latest, wrongs]
    split at hr
    next hm =>
      cases hm
      rw [hl] at hr
      cases hr
      obtain ⟨code, at', h1, h2, h3, h4, -⟩ := h.live _ _ link hl hp
      rw [if_pos ⟨rfl, rfl⟩]
      exact ⟨code, at', h1, h2, h3, by rw [h4], hlt⟩
    next hm =>
      rw [if_neg fun he => hm (by rw [he.1, he.2]), Nat.add_zero]
      exact h.live c a row hr hp'
  · show Windowed _ (window (w.links.update _ _) _)
    rw [hwindow]
    exact h.windowed c a
  · show Opens _ _ _ (window (w.links.update _ _) _)
    rw [hwindow]
    exact h.opens c a k now ws n hx

/-- A wrong code that ends the link. -/
theorem Sound.exhausted (h : Sound d w) :
    Sound d (World.closeLink { w with log := .wrong coordinate account :: w.log } (coordinate, account)) := by
  have hwindow := window_update w.links (coordinate, account) (f := fun row => { row with status := .closed, code_hash := none })
    fun _ => ⟨rfl, rfl⟩
  refine ⟨fun c a row hr hp => ?_, fun c a => ?_, h.rated, fun c a k now ws n hx => ?_, h.capped⟩
  · simp only [World.closeLink, setChatLinkStatus, Keyed.get?_update] at hr ⊢
    simp only [latest, wrongs]
    split at hr
    · obtain ⟨row', -, rfl⟩ := Option.map_eq_some_iff.1 hr
      cases hp
    next hm =>
      rw [if_neg fun he => hm (by rw [he.1, he.2]), Nat.add_zero]
      exact h.live c a row hr hp
  · show Windowed _ (window (w.links.update _ _) _)
    rw [hwindow]
    exact h.windowed c a
  · show Opens _ _ _ (window (w.links.update _ _) _)
    rw [hwindow]
    exact h.opens c a k now ws n hx

theorem goes_linkConfirm {code : Option Code} {group : Bool} (h : Sound d w)
    (hx : x = .deliver coordinate account (.link_confirm key code) createdAt now group) :
    Goes d w x (w.linkConfirm d coordinate account key code now) := by
  simp only [World.linkConfirm]
  split
  · exact goes_of_keys h rfl
  split
  next link typed hl =>
    split
    · exact goes_of_keys h rfl
    next hlive =>
      obtain ⟨hp, hkey⟩ := not_or.mp hlive
      have hp := not_not.mp hp
      have hkey := not_not.mp hkey
      split
      · exact goes_of_keys h.closeLink.leaving rfl
      next htime =>
        split
        · split
          · exact goes_of_keys h.exhausted.leaving rfl
          next hmany => exact goes_of_keys (h.tried hl hp (not_le.mp hmany)) rfl
        next hcode =>
          split
          · exact goes_of_keys h.closeLink.leaving rfl
          split
          · exact goes_of_keys h.closeLink.leaving rfl
          next hroom =>
            obtain ⟨code, at', h1, h2, h3, h4, h5⟩ := h.live coordinate account link hl hp
            rw [hkey] at h1 h2
            have hmatch : hashChatLinkCode d typed coordinate account key = hashChatLinkCode d code coordinate account key := by
              simp only [chatLinkCodeMatches, Bool.not_eq_false, decide_eq_true_eq] at hcode
              exact (Option.some.inj (h2.symm.trans hcode)).symm
            refine goes_bindLinkedKey (h.ended (by decide)) rfl hroom (.inl ⟨typed, createdAt, now, group, hx, ⟨link, hl, hp⟩, ?_, h4 ▸ h5⟩)
            exact ⟨code, at', h1, hmatch, h3 ▸ not_le.mp htime⟩
  · exact goes_of_keys h rfl

theorem goes_handleAttestation {content : Content K Code Proof} {group : Bool} (h : Sound d w)
    (hx : x = .deliver coordinate account content createdAt now group) :
    Goes d w x (w.handleAttestation d coordinate account content createdAt now group) := by
  unfold World.handleAttestation
  split
  · exact goes_of_keys h rfl
  cases content with
  | add key proof => exact goes_add h hx
  | revoke key => exact goes_revoke h
  | link key => exact goes_linkRequest h
  | link_confirm key code => exact goes_linkConfirm h hx

theorem goes_goOn {answer : Answer Code} (h : Sound d w) (hx : w.tasks (coordinate, account) = some pc) :
    Goes d w x (w.goOn d coordinate account answer now pc) := by
  cases pc with
  | sweeping key rest =>
    cases rest with
    | nil => exact goes_linkChecked h hx
    | cons link rest => exact goes_of_keys h.closeLink.sweeping rfl
  | opening key began ws n => exact goes_linkOpened h (h.opens _ _ _ _ _ _ hx) answer
  | inviting key =>
    simp only [World.goOn]
    split
    · exact goes_of_keys h.closeLink.leaving rfl
    · exact goes_of_keys h.done rfl
  | leaving => exact goes_of_keys h.done rfl

theorem Sound.sweeps (h : Sound d w) {sweeps : Nat → Option (List (C × K))} : Sound d { w with sweeps := sweeps } :=
  h.keys rfl rfl rfl h.capped

/-- **What a step does to the keys is warranted.** -/
theorem goes_step (h : Sound d w) (hs : Step d w x w') : Goes d w x w' := by
  cases x with
  | deliver coordinate account content createdAt now group =>
    simp only [Step, act] at hs
    split at hs
    · cases hs
      exact goes_handleAttestation h rfl
    · cases hs
  | settle coordinate account answer now =>
    obtain ⟨pc, hpc, rfl⟩ := Option.map_eq_some_iff.1 hs
    exact goes_goOn h hpc
  | tick t now =>
    simp only [Step, act] at hs
    split at hs
    · cases hs
      obtain ⟨hsound, hkeys⟩ := h.sweepNext (expiredPendingChatLinks w.links now)
      exact goes_of_keys hsound.sweeps hkeys
    · cases hs
  | ticked t =>
    obtain ⟨rest, -, rfl⟩ := Option.map_eq_some_iff.1 hs
    cases rest with
    | nil => exact goes_of_keys h.sweeps rfl
    | cons link rest => exact goes_of_keys h.closeLink.sweeps rfl
  | removed coordinate keys =>
    cases hs
    obtain ⟨hext, hcount⟩ := foldl_revokeChatKey coordinate keys w.keys
    exact ⟨h.keys rfl rfl rfl fun c a => (hcount c a).trans (h.capped c a), fun c a k he => .inl (hext c a k he)⟩
  | enrolled coordinate account status =>
    cases hs
    exact goes_of_keys (h.keys rfl rfl rfl h.capped) rfl
  | crashed =>
    cases hs
    exact goes_of_keys ⟨h.live, h.windowed, h.rated, fun _ _ _ _ _ _ hx => (by cases hx), h.capped⟩ rfl

theorem sound_run (h : Run (Step d) ({} : World C K Code H) xs w) : Sound d w :=
  h.invariant (fun _ _ _ hw hs => (goes_step hw hs).1) sound_start

/-! ## The result -/

/-- Every key that becomes active as an external one next is warranted, and the bounds hold. -/
structure Guarded (d : Deps C K Code H Proof) (w : World C K Code H) : Prop where
  warranted : ∀ x w', Step d w x w' → ∀ c a k, External w'.keys c a k → ¬External w.keys c a k → Warranted d w x c a k
  rated : ∀ c a, Rated (issues w.log c a)
  capped : ∀ c a, w.activeKeys c a ≤ maxChatKeysPerAccount
  apart : ∀ c k a b, w.isActive c a k = true → w.isActive c b k = true → a = b

/-- **A key other than the account's own needs the code that was issued for it**, whatever the requests,
confirmations, attestations and revocations and however they interleave: the last code issued to the account,
in time and before too many wrong ones; or it was linked before, and its own signature brings it back. -/
theorem links_need_codes (h : Run (Step d) ({} : World C K Code H) xs w) : Guarded d w := by
  have hw := sound_run h
  refine ⟨fun x w' hs c a k he hne => ((goes_step hw hs).2 c a k he).resolve_left hne, hw.rated, hw.capped, fun c k a b ha hb => ?_⟩
  unfold World.isActive at ha hb
  cases hrow : w.keys.get? (c, k) with
  | none =>
    rw [hrow] at ha
    cases ha
  | some row =>
    rw [hrow] at ha hb
    simp only [Option.any_some, activeOf, decide_eq_true_eq] at ha hb
    exact ha.2.1.symm.trans hb.2.1

namespace Small

/-- A hash is what it is of, and a proof is the challenge that was signed. -/
def deps : Deps Nat Nat Nat (Nat × Nat × Nat × Nat) (Nat × Nat × Nat × Int) where
  sha256 coordinate account key code := (coordinate, account, key, code)
  normalizeChatLinkCode := id
  verifyChatDeviceProof proof coordinate account key createdAt := proof = (coordinate, account, key, createdAt)

/-- Member 1 asks for key 2 and gets the code 7. -/
def requested : List (Act Nat Nat Nat (Nat × Nat × Nat × Int)) :=
  [.enrolled 0 1 (some .approved), .deliver 0 1 (.link 2) 0 0 true, .settle 0 1 .done 0, .settle 0 1 (.opened 7) 0, .settle 0 1 .done 0]

def confirmed : List (Act Nat Nat Nat (Nat × Nat × Nat × Int)) :=
  requested ++ [.deliver 0 1 (.link_confirm 2 (some 7)) 1 1000 true, .settle 0 1 .done 1000]

def revoked : List (Act Nat Nat Nat (Nat × Nat × Nat × Int)) :=
  confirmed ++ [.deliver 0 1 (.revoke 2) 2 2000 true, .settle 0 1 .done 2000]

end Small

theorem links_need_codes_linked : ∃ w, Run (Step Small.deps) {} Small.confirmed w ∧
    w.keys.get? (0, 2) = some ⟨1, .active, true⟩ ∧ Guarded Small.deps w := by
  have h : (Run.exec (act Small.deps) {} Small.confirmed).map (·.keys.get? (0, 2)) = some (some ⟨1, .active, true⟩) := by decide
  obtain ⟨w, hw, hkey⟩ := Option.map_eq_some_iff.1 h
  exact ⟨w, Run.of_exec hw, hkey, links_need_codes (Run.of_exec hw)⟩

/-- A key that was linked and revoked becomes active as an external one by its own signature, without a code. -/
theorem linked_without_code : ∃ w w', Run (Step Small.deps) {} Small.revoked w ∧
    Step Small.deps w (.deliver 0 1 (.add 2 (some (0, 1, 2, 3))) 3 3000 true) w' ∧ ¬External w.keys 0 1 2 ∧ External w'.keys 0 1 2 := by
  have h : ((Run.exec (act Small.deps) {} Small.revoked).bind fun w =>
      (act Small.deps w (.deliver 0 1 (.add 2 (some (0, 1, 2, 3))) 3 3000 true)).map fun w' =>
        (w.keys.get? (0, 2), w'.keys.get? (0, 2))) = some (some ⟨1, .revoked, true⟩, some ⟨1, .active, true⟩) := by decide
  obtain ⟨w, hw, h⟩ := Option.bind_eq_some_iff.1 h
  obtain ⟨w', hw', hkeys⟩ := Option.map_eq_some_iff.1 h
  obtain ⟨hbefore, hafter⟩ := Prod.mk.inj hkeys
  refine ⟨w, w', Run.of_exec hw, hw', fun hext => ?_, _, hafter, rfl, rfl, rfl⟩
  obtain ⟨row, hrow, -, hactive, -⟩ := hext
  cases hbefore.symm.trans hrow
  cases hactive

end Nostrautica.ChatLinks
