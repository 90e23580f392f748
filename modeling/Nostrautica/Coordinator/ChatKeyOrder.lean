/-
The order in which the attestations of one chat key arrive: the newest one counts, but
for revokes that arrive before the key is known (`attestations_newest_iff`).
-/
import Nostrautica.Coordinator.ChatLinksFacts

set_option linter.unusedSectionVars false

namespace Nostrautica.ChatLinks

open Sql

variable {C K Code H Proof : Type} [DecidableEq C] [DecidableEq K] [DecidableEq H] {d : Deps C K Code H Proof}
  {w w' : World C K Code H} {coordinate : C} {account key : K}

/-- An attestation of the key as it is delivered; `op` is the proof of an add. -/
structure Delivery (Proof : Type) where
  op : Option Proof
  createdAt : Int
  now : Int
  group : Bool

variable {x y : Delivery Proof} {l : List (Delivery Proof)}

/-- It is an add. -/
def Delivery.isAdd (x : Delivery Proof) : Bool := x.op.isSome

/-- The time by which it is ordered. -/
def Delivery.at_ (x : Delivery Proof) : Int := Submissions.rumorEffectiveCreatedAt x.createdAt (x.now / 1000)

def Delivery.content (key : K) (x : Delivery Proof) : Content K Code Proof :=
  match x.op with
  | some proof => .add key (some proof)
  | none => .revoke key

/-- The attestation is delivered, and its handler runs to its end. -/
def World.receive (d : Deps C K Code H Proof) (coordinate : C) (account key : K) (w : World C K Code H) (x : Delivery Proof) : World C K Code H :=
  (w.handleAttestation d coordinate account (x.content key) x.createdAt x.now x.group).done (coordinate, account)

/-- None of them is newer. -/
def Newest (l : List (Delivery Proof)) (x : Delivery Proof) : Prop := x ∈ l ∧ ∀ y ∈ l, y.at_ ≤ x.at_

/-- The deliveries from the first add on; an account's own key needs none. -/
def known (account key : K) (l : List (Delivery Proof)) : List (Delivery Proof) := if key = account then l else l.dropWhile (!·.isAdd)

/-- The newest attestation is a revoke, and the newest of those from the first add on is not. -/
def Forgotten (account key : K) (l : List (Delivery Proof)) : Prop :=
  (∃ x, Newest l x ∧ x.isAdd = false) ∧ ∃ x, Newest (known account key l) x ∧ x.isAdd = true

/-- The account's other keys that are active. -/
def othersOf (coordinate : C) (account key : K) (k : C × K) (row : KeyRow K) : Bool := activeOf coordinate account k row && k ≠ (coordinate, key)

/-- Nothing is known of the key of an approved account, which has room for it. -/
structure Fresh (w : World C K Code H) (coordinate : C) (account key : K) : Prop where
  approved : w.attendees coordinate account = some .approved
  unbound : w.keys.get? (coordinate, key) = none
  added : w.added (coordinate, key) = none
  revoked : w.revoked (coordinate, key) = none
  room : w.activeKeys coordinate account < maxChatKeysPerAccount

/-- What the deliveries that count have come to. -/
structure Settled (w : World C K Code H) (coordinate : C) (account key : K) (l : List (Delivery Proof)) : Prop where
  approved : w.attendees coordinate account = some .approved
  owner : ∀ row, w.keys.get? (coordinate, key) = some row → row.account_pubkey = account
  bound : key ≠ account → l ≠ [] → w.keys.get? (coordinate, key) ≠ none
  unbound : l = [] → w.keys.get? (coordinate, key) = none
  added : ∀ t, w.added (coordinate, key) = some t → ∃ x ∈ l, x.isAdd = true ∧ x.at_ = t
  revoked : ∀ t, w.revoked (coordinate, key) = some t → ∃ x ∈ l, x.isAdd = false ∧ x.at_ = t
  newest : ∀ x, Newest l x →
    if x.isAdd then w.added (coordinate, key) = some x.at_ ∧ w.isActive coordinate account key = true
    else w.revoked (coordinate, key) = some x.at_ ∧ w.isActive coordinate account key = false
  room : w.keys.count (othersOf coordinate account key) < maxChatKeysPerAccount

/-- An add and a revoke are not of one time. -/
def Distinct (l : List (Delivery Proof)) : Prop := ∀ x ∈ l, ∀ y ∈ l, x.isAdd = true → y.isAdd = false → x.at_ ≠ y.at_

theorem count_mono {p q : C × K → KeyRow K → Bool} {t : Keyed (C × K) (KeyRow K)} (h : ∀ k row, t.get? k = some row → p k row = true → q k row = true) :
    t.count p ≤ t.count q :=
  List.countP_mono_left fun r hr hp => h r.1 r.2 (Keyed.mem_rows.1 hr) hp

theorem Fresh.settled (h : Fresh w coordinate account key) : Settled w coordinate account key ([] : List (Delivery Proof)) where
  approved := h.approved
  owner row hrow := by
    rw [h.unbound] at hrow
    cases hrow
  bound _ hne := absurd rfl hne
  unbound _ := h.unbound
  added t ht := by
    rw [h.added] at ht
    cases ht
  revoked t ht := by
    rw [h.revoked] at ht
    cases ht
  newest x hx := absurd hx.1 List.not_mem_nil
  room := (count_mono fun k row _ hp => (Bool.and_eq_true_iff.1 hp).1).trans_lt h.room

theorem exists_newest (hne : l ≠ []) : ∃ x, Newest l x := by
  induction l with
  | nil => exact absurd rfl hne
  | cons x l ih =>
    by_cases hnil : l = []
    · subst hnil
      exact ⟨x, List.mem_cons_self, fun y hy => by rw [List.mem_singleton.1 hy]⟩
    · obtain ⟨m, hm, hle⟩ := ih hnil
      by_cases h : m.at_ ≤ x.at_
      · refine ⟨x, List.mem_cons_self, fun y hy => ?_⟩
        rcases List.mem_cons.1 hy with rfl | hy
        · exact le_rfl
        · exact (hle y hy).trans h
      · refine ⟨m, List.mem_cons_of_mem x hm, fun y hy => ?_⟩
        rcases List.mem_cons.1 hy with rfl | hy
        · exact (not_le.1 h).le
        · exact hle y hy

/-- What is written when an add is accepted. -/
structure Accepted (w : World C K Code H) (coordinate : C) (account key : K) (x : Delivery Proof) (w' : World C K Code H) : Prop where
  attendees : w'.attendees = w.attendees
  owner : ∀ row, w'.keys.get? (coordinate, key) = some row → row.account_pubkey = account
  revoked : w'.revoked = w.revoked
  added : w'.added (coordinate, key) = some (max x.at_ ((w.added (coordinate, key)).getD x.at_))
  active : w'.isActive coordinate account key = true
  room : w'.keys.count (othersOf coordinate account key) ≤ w.keys.count (othersOf coordinate account key)

/-- What is written when a revoke is accepted. -/
structure Withdrawn (w : World C K Code H) (coordinate : C) (account key : K) (x : Delivery Proof) (w' : World C K Code H) : Prop where
  attendees : w'.attendees = w.attendees
  owner : ∀ row, w'.keys.get? (coordinate, key) = some row → ∃ old, w.keys.get? (coordinate, key) = some old ∧ row.account_pubkey = old.account_pubkey
  bound : w'.keys.get? (coordinate, key) = none ↔ w.keys.get? (coordinate, key) = none
  added : w'.added = w.added
  revoked : w'.revoked (coordinate, key) = some (max x.at_ ((w.revoked (coordinate, key)).getD x.at_))
  inactive : w'.isActive coordinate account key = false
  room : w'.keys.count (othersOf coordinate account key) ≤ w.keys.count (othersOf coordinate account key)

/-- Nothing but the lock changes. -/
structure Unmoved (w w' : World C K Code H) : Prop where
  attendees : w'.attendees = w.attendees
  keys : w'.keys = w.keys
  added : w'.added = w.added
  revoked : w'.revoked = w.revoked

/-- An add with a valid proof is refused exactly where a newer revoke is known. -/
theorem receive_add {proof : Proof} (hop : x.op = some proof) (hvalid : d.verifyChatDeviceProof proof coordinate account key x.createdAt = true)
    (happroved : w.attendees coordinate account = some .approved)
    (howner : ∀ row, w.keys.get? (coordinate, key) = some row → row.account_pubkey = account)
    (hroom : w.keys.count (othersOf coordinate account key) < maxChatKeysPerAccount) :
    if (w.revoked (coordinate, key)).any (x.at_ < ·) then Unmoved w (w.receive d coordinate account key x)
    else Accepted w coordinate account key x (w.receive d coordinate account key x) := by
  have hhandle : w.handleAttestation d coordinate account (x.content key) x.createdAt x.now x.group =
      w.add d coordinate account key (some proof) x.createdAt x.now := by
    unfold World.handleAttestation Delivery.content
    rw [if_neg (by rw [happroved]; exact Option.some_ne_none _), hop]
  have hcap : ¬ (w.isActive coordinate account key = false ∧ maxChatKeysPerAccount ≤ w.activeKeys coordinate account) := by
    rintro ⟨hinactive, hfull⟩
    have hle : w.activeKeys coordinate account ≤ w.keys.count (othersOf coordinate account key) := by
      refine count_mono fun k row hrow hp => ?_
      unfold othersOf
      rw [hp, Bool.true_and, decide_eq_true_eq]
      rintro rfl
      unfold World.isActive at hinactive
      rw [hrow, Option.any_some, hp] at hinactive
      cases hinactive
    omega
  have hproof : ¬ (some proof).any (d.verifyChatDeviceProof · coordinate account key x.createdAt) = false := by simp [hvalid]
  have hpin : ¬ (w.keys.get? (coordinate, key)).any (·.account_pubkey ≠ account) = true := by
    cases hrow : w.keys.get? (coordinate, key) with
    | none => simp
    | some row => simp [howner row hrow]
  unfold World.receive
  rw [hhandle]
  unfold World.add
  dsimp only
  rw [if_neg hproof]
  by_cases hold : (w.revoked (coordinate, key)).any (x.at_ < ·) = true
  · have hold' : (w.revoked (coordinate, key)).any (Submissions.rumorEffectiveCreatedAt x.createdAt (x.now / 1000) < ·) = true := hold
    rw [if_pos hold, if_pos hold']
    exact ⟨rfl, rfl, rfl, rfl⟩
  · have hold' : ¬ (w.revoked (coordinate, key)).any (Submissions.rumorEffectiveCreatedAt x.createdAt (x.now / 1000) < ·) = true := hold
    obtain ⟨f, hupsert, hnone, hsome⟩ : ∃ f, upsertChatKey w.keys coordinate account key none = some (w.keys.upsert (coordinate, key) f) ∧
        f none = ⟨account, .active, false⟩ ∧ ∀ row, f (some row) = { row with status := .active } := by
      unfold upsertChatKey
      dsimp only
      rw [if_neg hpin]
      exact ⟨_, rfl, rfl, fun _ => rfl⟩
    rw [if_neg hold, if_neg hold', if_neg hcap, hupsert]
    have hkey : ∃ row, (w.keys.upsert (coordinate, key) f).get? (coordinate, key) = some row ∧ row.account_pubkey = account ∧
        row.status = .active := by
      rw [Keyed.get?_upsert, if_pos rfl]
      cases hrow : w.keys.get? (coordinate, key) with
      | none => exact ⟨_, rfl, by rw [hnone], by rw [hnone]⟩
      | some row => exact ⟨_, rfl, by rw [hsome, howner row hrow], by rw [hsome]⟩
    obtain ⟨row, hrow, hacc, hstatus⟩ := hkey
    refine ⟨rfl, fun row' hrow' => ?_, rfl, Function.update_self .., ?_, ?_⟩
    · cases hrow.symm.trans hrow'
      exact hacc
    · unfold World.isActive
      refine (congrArg (Option.any _) hrow).trans ?_
      simp [activeOf, hacc, hstatus]
    · refine Keyed.count_upsert_le_of fun hp => ?_
      simp [othersOf] at hp

/-- A revoke is refused exactly where the key is not the account's or a newer add is known. -/
theorem receive_revoke (hop : x.op = none) (happroved : w.attendees coordinate account = some .approved)
    (howner : ∀ row, w.keys.get? (coordinate, key) = some row → row.account_pubkey = account) :
    if (key ≠ account ∧ w.keys.get? (coordinate, key) = none) ∨ (w.added (coordinate, key)).any (x.at_ < ·) = true then
      Unmoved w (w.receive d coordinate account key x)
    else Withdrawn w coordinate account key x (w.receive d coordinate account key x) := by
  have hhandle : w.handleAttestation d coordinate account (x.content key) x.createdAt x.now x.group =
      w.revoke coordinate account key x.createdAt x.now := by
    unfold World.handleAttestation Delivery.content
    rw [if_neg (by rw [happroved]; exact Option.some_ne_none _), hop]
  have hbound : (key ≠ account ∧ (w.keys.get? (coordinate, key)).map (·.account_pubkey) ≠ some account) ↔
      key ≠ account ∧ w.keys.get? (coordinate, key) = none := by
    refine and_congr_right fun _ => ?_
    cases hrow : w.keys.get? (coordinate, key) with
    | none => simp
    | some row => simp [howner row hrow]
  unfold World.receive
  rw [hhandle]
  unfold World.revoke
  dsimp only
  rw [if_neg (not_not.2 happroved)]
  by_cases hun : key ≠ account ∧ w.keys.get? (coordinate, key) = none
  · rw [if_pos (.inl hun), if_pos (hbound.2 hun)]
    exact ⟨rfl, rfl, rfl, rfl⟩
  rw [if_neg (fun h => hun (hbound.1 h))]
  by_cases hold : (w.added (coordinate, key)).any (x.at_ < ·) = true
  · have hold' : (w.added (coordinate, key)).any (Submissions.rumorEffectiveCreatedAt x.createdAt (x.now / 1000) < ·) = true := hold
    rw [if_pos (.inr hold), if_pos hold']
    exact ⟨rfl, rfl, rfl, rfl⟩
  · have hold' : ¬ (w.added (coordinate, key)).any (Submissions.rumorEffectiveCreatedAt x.createdAt (x.now / 1000) < ·) = true := hold
    rw [if_neg (fun h => h.elim hun hold), if_neg hold']
    have hkey : (revokeChatKey w.keys coordinate key).get? (coordinate, key) =
        (w.keys.get? (coordinate, key)).map fun row => { row with status := .revoked } := by
      unfold revokeChatKey
      rw [Keyed.get?_update, if_pos rfl]
    refine ⟨rfl, fun row hrow => ?_, ?_, rfl, Function.update_self .., ?_, ?_⟩
    · obtain ⟨old, hold, rfl⟩ := Option.map_eq_some_iff.1 (hkey.symm.trans hrow)
      exact ⟨old, hold, rfl⟩
    · refine (Eq.congr_left hkey).trans ?_
      rw [Option.map_eq_none_iff]
    · unfold World.isActive
      refine (congrArg (Option.any _) hkey).trans ?_
      cases w.keys.get? (coordinate, key) <;> simp [activeOf]
    · refine Keyed.count_update_le fun row hp => ?_
      simp [othersOf] at hp

theorem max_getD {o : Option Int} {t : Int} (h : o.any (t < ·) = false) : max t (o.getD t) = t := by
  cases o with
  | none => exact max_self t
  | some s =>
    rw [Option.any_some, decide_eq_false_iff_not] at h
    exact max_eq_left (not_lt.1 h)

/-- A delivery that is refused for a newer one. -/
theorem Settled.unmoved (h : Settled w coordinate account key l) (hu : Unmoved w w') (hy : y ∈ l) (hlt : x.at_ < y.at_) :
    Settled w' coordinate account key (l ++ [x]) := by
  have hactive : w'.isActive coordinate account key = w.isActive coordinate account key := by
    unfold World.isActive
    rw [hu.keys]
  refine ⟨by rw [hu.attendees]; exact h.approved, by rw [hu.keys]; exact h.owner, fun hne _ => ?_, fun hnil => ?_, fun t ht => ?_, fun t ht => ?_,
    fun z hz => ?_, by rw [hu.keys]; exact h.room⟩
  · rw [hu.keys]
    exact h.bound hne (List.ne_nil_of_mem hy)
  · exact absurd hnil (List.append_ne_nil_of_right_ne_nil _ (List.cons_ne_nil _ _))
  · rw [hu.added] at ht
    obtain ⟨z, hz, hadd, hat⟩ := h.added t ht
    exact ⟨z, List.mem_append_left _ hz, hadd, hat⟩
  · rw [hu.revoked] at ht
    obtain ⟨z, hz, hadd, hat⟩ := h.revoked t ht
    exact ⟨z, List.mem_append_left _ hz, hadd, hat⟩
  · have hle := hz.2 y (List.mem_append_left _ hy)
    have hzl : z ∈ l := by
      refine (List.mem_append.1 hz.1).resolve_right fun hx => ?_
      rw [List.mem_singleton.1 hx] at hle
      exact absurd hlt (not_lt.2 hle)
    rw [hu.added, hu.revoked, hactive]
    exact h.newest z ⟨hzl, fun v hv => hz.2 v (List.mem_append_left _ hv)⟩

/-- The watermark after an operation is the newest one's time. -/
theorem max_newest {o : Option Int} {z : Delivery Proof} (hz : Newest (l ++ [x]) z) (hmem : ∀ t, o = some t → ∃ y ∈ l, y.at_ = t)
    (hnew : z ∈ l → z.at_ ≠ x.at_ → o = some z.at_) : max x.at_ (o.getD x.at_) = z.at_ := by
  have hx : x.at_ ≤ z.at_ := hz.2 x (by simp)
  have ho : o.getD x.at_ ≤ z.at_ := by
    cases ho : o with
    | none => exact hx
    | some t =>
      obtain ⟨y, hy, rfl⟩ := hmem t ho
      exact hz.2 y (List.mem_append_left _ hy)
  by_cases heq : z.at_ = x.at_
  · rw [heq] at ho ⊢
    exact max_eq_left ho
  · have hzl : z ∈ l := (List.mem_append.1 hz.1).resolve_right fun h => heq (by rw [List.mem_singleton.1 h])
    rw [hnew hzl heq, Option.getD_some]
    exact max_eq_right hx

/-- One more delivery that counts. -/
theorem Settled.receive (h : Settled w coordinate account key l) (hd : Distinct (l ++ [x]))
    (hvalid : ∀ proof, x.op = some proof → d.verifyChatDeviceProof proof coordinate account key x.createdAt = true)
    (hfirst : key ≠ account → l = [] → x.isAdd = true) : Settled (w.receive d coordinate account key x) coordinate account key (l ++ [x]) := by
  have hne : l ++ [x] ≠ [] := List.append_ne_nil_of_right_ne_nil _ (List.cons_ne_nil _ _)
  have hl : ∀ {z}, Newest (l ++ [x]) z → z ∈ l → Newest l z := fun hz hzl => ⟨hzl, fun v hv => hz.2 v (List.mem_append_left _ hv)⟩
  have hlift : ∀ {b t}, (∃ z ∈ l, z.isAdd = b ∧ z.at_ = t) → ∃ z ∈ l ++ [x], z.isAdd = b ∧ z.at_ = t := by
    rintro b t ⟨z, hz, hrest⟩
    exact ⟨z, List.mem_append_left _ hz, hrest⟩
  cases hop : x.op with
  | some proof =>
    have hadd : x.isAdd = true := by simp [Delivery.isAdd, hop]
    have hcase := receive_add hop (hvalid proof hop) h.approved h.owner h.room
    split at hcase
    · next hold =>
      obtain ⟨t, ht, hlt⟩ := (Option.any_eq_true ..).1 hold
      obtain ⟨y, hy, -, rfl⟩ := h.revoked t ht
      exact h.unmoved hcase hy (of_decide_eq_true hlt)
    · next hold =>
      refine ⟨by rw [hcase.attendees]; exact h.approved, hcase.owner, fun _ _ hnone => ?_, fun hnil => absurd hnil hne, fun t ht => ?_, fun t ht => ?_,
        fun z hz => ?_, hcase.room.trans_lt h.room⟩
      · have hactive := hcase.active
        unfold World.isActive at hactive
        rw [hnone] at hactive
        cases hactive
      · rw [hcase.added] at ht
        cases ht
        cases ha : w.added (coordinate, key) with
        | none => exact ⟨x, by simp, hadd, (max_self _).symm⟩
        | some s =>
          rw [Option.getD_some]
          rcases max_choice x.at_ s with hm | hm
          · exact ⟨x, by simp, hadd, hm.symm⟩
          · rw [hm]
            exact hlift (h.added s ha)
      · rw [hcase.revoked] at ht
        exact hlift (h.revoked t ht)
      · split
        · next hz' =>
          refine ⟨?_, hcase.active⟩
          rw [hcase.added, max_newest hz (fun t ht => ?_) fun hzl _ => ?_]
          · obtain ⟨y, hy, -, hat⟩ := h.added t ht
            exact ⟨y, hy, hat⟩
          · have hn := h.newest z (hl hz hzl)
            rw [if_pos hz'] at hn
            exact hn.1
        · next hz' =>
          have hz' : z.isAdd = false := by simpa using hz'
          have hzl : z ∈ l := (List.mem_append.1 hz.1).resolve_right fun hx => by
            rw [List.mem_singleton.1 hx, hadd] at hz'
            cases hz'
          have hn := h.newest z (hl hz hzl)
          rw [if_neg (by rw [hz']; exact Bool.false_ne_true)] at hn
          rw [hn.1, Option.any_some, decide_eq_true_eq, not_lt] at hold
          have hle := hz.2 x (by simp)
          exact absurd (le_antisymm hle hold) (hd x (by simp) z hz.1 hadd hz')
  | none =>
    have hadd : x.isAdd = false := by simp [Delivery.isAdd, hop]
    have hcase := receive_revoke (d := d) hop h.approved h.owner
    split at hcase
    · next hrefused =>
      rcases hrefused with ⟨hkey, hnone⟩ | hold
      · by_cases hnil : l = []
        · rw [hfirst hkey hnil] at hadd
          cases hadd
        · exact absurd hnone (h.bound hkey hnil)
      · obtain ⟨t, ht, hlt⟩ := (Option.any_eq_true ..).1 hold
        obtain ⟨y, hy, -, rfl⟩ := h.added t ht
        exact h.unmoved hcase hy (of_decide_eq_true hlt)
    · next hrefused =>
      rw [not_or] at hrefused
      refine ⟨by rw [hcase.attendees]; exact h.approved, fun row hrow => ?_, fun hkey _ hnone => hrefused.1 ⟨hkey, hcase.bound.1 hnone⟩,
        fun hnil => absurd hnil hne, fun t ht => ?_, fun t ht => ?_, fun z hz => ?_, hcase.room.trans_lt h.room⟩
      · obtain ⟨old, hold, hacc⟩ := hcase.owner row hrow
        rw [hacc, h.owner old hold]
      · rw [hcase.added] at ht
        exact hlift (h.added t ht)
      · rw [hcase.revoked] at ht
        cases ht
        cases ha : w.revoked (coordinate, key) with
        | none => exact ⟨x, by simp, hadd, (max_self _).symm⟩
        | some s =>
          rw [Option.getD_some]
          rcases max_choice x.at_ s with hm | hm
          · exact ⟨x, by simp, hadd, hm.symm⟩
          · rw [hm]
            exact hlift (h.revoked s ha)
      · split
        · next hz' =>
          have hzl : z ∈ l := (List.mem_append.1 hz.1).resolve_right fun hx => by
            rw [List.mem_singleton.1 hx, hadd] at hz'
            cases hz'
          have hn := h.newest z (hl hz hzl)
          rw [if_pos hz'] at hn
          have hold := hrefused.2
          rw [hn.1, Option.any_some, decide_eq_true_eq, not_lt] at hold
          have hle := hz.2 x (by simp)
          exact absurd (le_antisymm hold hle) (hd z hz.1 x (by simp) hz' hadd)
        · next hz' =>
          refine ⟨?_, hcase.inactive⟩
          rw [hcase.revoked, max_newest hz (fun t ht => ?_) fun hzl _ => ?_]
          · obtain ⟨y, hy, -, hat⟩ := h.revoked t ht
            exact ⟨y, hy, hat⟩
          · have hn := h.newest z (hl hz hzl)
            rw [if_neg hz'] at hn
            exact hn.1

/-! ## Runs -/

theorem Settled.run {l₀ : List (Delivery Proof)} (h : Settled w coordinate account key l₀) (hd : Distinct (l₀ ++ l))
    (hvalid : ∀ x ∈ l, ∀ proof, x.op = some proof → d.verifyChatDeviceProof proof coordinate account key x.createdAt = true)
    (hfirst : key ≠ account → l₀ = [] → ∀ x ∈ l.head?, x.isAdd = true) :
    Settled (l.foldl (World.receive d coordinate account key) w) coordinate account key (l₀ ++ l) := by
  induction l generalizing w l₀ with
  | nil => rwa [List.append_nil]
  | cons x l ih =>
    have hshape : l₀ ++ x :: l = l₀ ++ [x] ++ l := by rw [List.append_assoc, List.singleton_append]
    have hstep : Settled (w.receive d coordinate account key x) coordinate account key (l₀ ++ [x]) := by
      refine h.receive (fun a ha b hb => hd a ?_ b ?_) (hvalid x List.mem_cons_self) fun hkey hnil => hfirst hkey hnil x rfl
      · exact hshape ▸ List.mem_append_left _ ha
      · exact hshape ▸ List.mem_append_left _ hb
    rw [hshape, List.foldl_cons]
    exact ih hstep (hshape ▸ hd) (fun y hy => hvalid y (List.mem_cons_of_mem x hy))
      fun _ hnil => absurd hnil (List.append_ne_nil_of_right_ne_nil _ (List.cons_ne_nil _ _))

/-- A revoke of a key that nothing is known of leaves it so. -/
theorem Fresh.receive (h : Fresh w coordinate account key) (hkey : key ≠ account) (hop : x.isAdd = false) :
    Fresh (w.receive d coordinate account key x) coordinate account key := by
  have hnone : x.op = none := by simpa [Delivery.isAdd] using hop
  have howner : ∀ row, w.keys.get? (coordinate, key) = some row → row.account_pubkey = account := fun row hrow => by
    rw [h.unbound] at hrow
    cases hrow
  have hcase := receive_revoke (d := d) hnone h.approved howner
  rw [if_pos (.inl ⟨hkey, h.unbound⟩)] at hcase
  refine ⟨by rw [hcase.attendees]; exact h.approved, by rw [hcase.keys]; exact h.unbound, by rw [hcase.added]; exact h.added,
    by rw [hcase.revoked]; exact h.revoked, ?_⟩
  unfold World.activeKeys
  rw [hcase.keys]
  exact h.room

theorem known_subset : known account key l ⊆ l := by
  unfold known
  split
  · exact List.Subset.refl l
  · exact (List.dropWhile_sublist _).subset

theorem mem_known (hx : x ∈ l) (hadd : x.isAdd = true) : x ∈ known account key l := by
  unfold known
  split
  · exact hx
  · have hmem : x ∈ l.takeWhile (!·.isAdd) ++ l.dropWhile (!·.isAdd) := by rwa [List.takeWhile_append_dropWhile]
    refine (List.mem_append.1 hmem).resolve_left fun h => ?_
    have hno := List.all_eq_true.1 List.all_takeWhile x h
    rw [hadd] at hno
    cases hno

/-- After a run the deliveries from the first add on are settled. -/
theorem Fresh.run (h : Fresh w coordinate account key) (hd : Distinct l)
    (hvalid : ∀ x ∈ l, ∀ proof, x.op = some proof → d.verifyChatDeviceProof proof coordinate account key x.createdAt = true) :
    Settled (l.foldl (World.receive d coordinate account key) w) coordinate account key (known account key l) := by
  by_cases hkey : key = account
  · unfold known
    rw [if_pos hkey]
    have hsettled : Settled w coordinate account key ([] : List (Delivery Proof)) := h.settled
    exact hsettled.run hd hvalid fun hne => absurd hkey hne
  · induction l generalizing w with
    | nil =>
      unfold known
      rw [if_neg hkey]
      exact h.settled
    | cons x l ih =>
      cases hx : x.isAdd with
      | true =>
        have hknown : known account key (x :: l) = x :: l := by
          unfold known
          rw [if_neg hkey, List.dropWhile_cons_of_neg (by rw [hx]; exact Bool.false_ne_true)]
        rw [hknown]
        have hsettled : Settled w coordinate account key ([] : List (Delivery Proof)) := h.settled
        refine hsettled.run hd hvalid fun _ _ y hy => ?_
        cases hy
        exact hx
      | false =>
        have hknown : known account key (x :: l) = known account key l := by
          unfold known
          rw [if_neg hkey, if_neg hkey, List.dropWhile_cons_of_pos (by rw [hx]; rfl)]
        rw [hknown, List.foldl_cons]
        exact ih (h.receive hkey hx) (fun a ha b hb => hd a (List.mem_cons_of_mem x ha) b (List.mem_cons_of_mem x hb))
          fun y hy => hvalid y (List.mem_cons_of_mem x hy)

theorem Settled.isActive_iff (h : Settled w coordinate account key l) :
    w.isActive coordinate account key = true ↔ ∃ x, Newest l x ∧ x.isAdd = true := by
  constructor
  · intro hactive
    by_cases hnil : l = []
    · unfold World.isActive at hactive
      rw [h.unbound hnil] at hactive
      cases hactive
    · obtain ⟨x, hx⟩ := exists_newest hnil
      refine ⟨x, hx, ?_⟩
      by_contra hadd
      have hn := h.newest x hx
      rw [if_neg hadd, hactive] at hn
      cases hn.2
  · rintro ⟨x, hx, hadd⟩
    have hn := h.newest x hx
    rw [if_pos hadd] at hn
    exact hn.2

/-- The key is active exactly when the newest attestation is an add, unless the newest is
a revoke that came before the first add. -/
theorem attestations_newest_iff (d : Deps C K Code H Proof) (w : World C K Code H) (coordinate : C) (account key : K)
    (l : List (Delivery Proof)) (h : Fresh w coordinate account key) (hd : Distinct l)
    (hvalid : ∀ x ∈ l, ∀ proof, x.op = some proof → d.verifyChatDeviceProof proof coordinate account key x.createdAt = true) :
    (((l.foldl (World.receive d coordinate account key) w).isActive coordinate account key = true ↔ ∃ x, Newest l x ∧ x.isAdd = true) ↔
      ¬ Forgotten account key l) := by
  rw [(h.run hd hvalid).isActive_iff]
  constructor
  · rintro hiff ⟨⟨y, hy, hrevoke⟩, hknown⟩
    obtain ⟨x, hx, hadd⟩ := hiff.1 hknown
    exact hd x hx.1 y hy.1 hadd hrevoke (le_antisymm (hy.2 x hx.1) (hx.2 y hy.1))
  · intro hnot
    constructor
    · rintro hknown
      obtain ⟨z, hz, -⟩ := id hknown
      obtain ⟨x, hx⟩ := exists_newest (List.ne_nil_of_mem (known_subset hz.1))
      refine ⟨x, hx, ?_⟩
      by_contra hadd
      exact hnot ⟨⟨x, hx, by simpa using hadd⟩, hknown⟩
    · rintro ⟨x, hx, hadd⟩
      exact ⟨x, ⟨mem_known hx.1 hadd, fun y hy => hx.2 y (known_subset hy)⟩, hadd⟩

/-- A delivery is the handler's run to its end. -/
theorem receive_run (hfree : w.tasks (coordinate, account) = none) : ∃ xs, Run (Step d) w xs (w.receive d coordinate account key x) := by
  have hcases : w.handleAttestation d coordinate account (x.content key) x.createdAt x.now x.group = w ∨
      ∃ w₁ : World C K Code H, w.handleAttestation d coordinate account (x.content key) x.createdAt x.now x.group = w₁.at (coordinate, account) .leaving := by
    unfold World.handleAttestation Delivery.content
    split
    · exact .inl rfl
    · cases x.op with
      | none =>
        show w.revoke coordinate account key x.createdAt x.now = w ∨ ∃ w₁, w.revoke coordinate account key x.createdAt x.now = _
        unfold World.revoke
        dsimp only
        repeat' split
        all_goals first | exact .inl rfl | exact .inr ⟨_, rfl⟩
      | some proof =>
        show w.add d coordinate account key (some proof) x.createdAt x.now = w ∨ ∃ w₁, w.add d coordinate account key (some proof) x.createdAt x.now = _
        unfold World.add
        dsimp only
        repeat' split
        all_goals first | exact .inl rfl | exact .inr ⟨_, rfl⟩
  have hdeliver : Step d w (.deliver coordinate account (x.content key) x.createdAt x.now x.group)
      (w.handleAttestation d coordinate account (x.content key) x.createdAt x.now x.group) := by
    unfold Step act
    simp only [hfree]
  unfold World.receive
  rcases hcases with h | ⟨w₁, h⟩
  · rw [h] at hdeliver ⊢
    have hdone : w.done (coordinate, account) = w := by
      unfold World.done
      rw [← hfree, Function.update_eq_self]
    rw [hdone]
    exact ⟨_, .cons hdeliver .nil⟩
  · rw [h] at hdeliver ⊢
    have hsettle : Step d (w₁.at (coordinate, account) .leaving) (.settle coordinate account .done 0)
        ((w₁.at (coordinate, account) .leaving).done (coordinate, account)) := by
      show Option.map _ (Function.update w₁.tasks (coordinate, account) (some Pc.leaving) (coordinate, account)) = _
      rw [Function.update_self]
      rfl
    exact ⟨_, .cons hdeliver (.cons hsettle .nil)⟩

namespace Small

/-- Member 1 is approved. -/
def approved : World Nat Nat Nat (Nat × Nat × Nat × Nat) := { attendees := fun _ a => if a = 1 then some .approved else none }

/-- The add of key 2 at a time. -/
def addAt (t : Int) : Delivery (Nat × Nat × Nat × Int) := ⟨some (0, 1, 2, t), t, 1000000, true⟩

/-- Its revoke. -/
def revokeAt (t : Int) : Delivery (Nat × Nat × Nat × Int) := ⟨none, t, 1000000, true⟩

theorem fresh_approved : Fresh approved 0 1 2 := ⟨rfl, rfl, rfl, rfl, by decide⟩

theorem distinct_in_order : Distinct [addAt 10, revokeAt 20] := by
  unfold Distinct
  decide

theorem valid_in_order : ∀ x ∈ [addAt 10, revokeAt 20], ∀ proof, x.op = some proof → deps.verifyChatDeviceProof proof 0 1 2 x.createdAt = true := by
  intro x hx proof hop
  rcases List.mem_cons.1 hx with rfl | hx
  · cases hop
    decide
  · rw [List.mem_singleton.1 hx] at hop
    cases hop

end Small

theorem attestations_in_order : ([Small.addAt 10, Small.revokeAt 20].foldl (World.receive Small.deps 0 1 2) Small.approved).isActive 0 1 2 = true ↔
    ∃ x, Newest [Small.addAt 10, Small.revokeAt 20] x ∧ x.isAdd = true := by
  refine (attestations_newest_iff Small.deps Small.approved 0 1 2 _ Small.fresh_approved Small.distinct_in_order Small.valid_in_order).2 ?_
  rintro ⟨-, x, hx, hadd⟩
  have hmem : x ∈ [Small.addAt 10, Small.revokeAt 20] := known_subset hx.1
  rcases List.mem_cons.1 hmem with rfl | hmem
  · have hrevoke : Small.revokeAt 20 ∈ [Small.addAt 10, Small.revokeAt 20] := List.mem_cons_of_mem _ (List.mem_singleton_self _)
    exact absurd (hx.2 (Small.revokeAt 20) hrevoke) (by decide)
  · rw [List.mem_singleton.1 hmem] at hadd
    cases hadd

/-- The revoke that is delivered before the add is forgotten: it is the newest, and the
key is active. -/
theorem attestations_forgotten : Newest [Small.revokeAt 20, Small.addAt 10] (Small.revokeAt 20) ∧
    ([Small.revokeAt 20, Small.addAt 10].foldl (World.receive Small.deps 0 1 2) Small.approved).isActive 0 1 2 = true ∧
    ([Small.addAt 10, Small.revokeAt 20].foldl (World.receive Small.deps 0 1 2) Small.approved).isActive 0 1 2 = false := by
  refine ⟨⟨List.mem_cons_self, fun y hy => ?_⟩, by decide⟩
  rcases List.mem_cons.1 hy with rfl | hy
  · exact le_rfl
  · rw [List.mem_singleton.1 hy]
    decide

end Nostrautica.ChatLinks
