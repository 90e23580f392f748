/-
The pending queue is one function of the rumors that were read, whatever scans they came in
(`queue_of_any_scans`), while no rumor is dated further ahead than the clock skew allowed and
each scan's state is kept. A rumor dated further ahead is taken for as new as the scan that
reads it, and then the scans decide (`future_joins_differ`).
-/
import Nostrautica.App.Pending
import Nostrautica.Coordinator.SubmissionsFacts

set_option linter.unusedSectionVars false

namespace Nostrautica.Pending

open Js Submissions

/-! ## The newest of some rumors -/

/-- The winner of a loop over rumors that keeps one of those with `p`, by their keys. -/
def newest (p : Rumor → Bool) (key : Rumor → RevisionKey) (l : List Rumor) : Option Rumor :=
  l.foldl (fun best r => if p r && best.all (fun b => revisionSupersedes (key r) (key b)) then some r else best) none

section

variable {p : Rumor → Bool} {key : Rumor → RevisionKey} {l l' : List Rumor} {r b : Rumor}

theorem newest_append : newest p key (l ++ [r]) =
    if p r && (newest p key l).all (fun b => revisionSupersedes (key r) (key b)) then some r else newest p key l := by
  rw [newest, List.foldl_append]
  rfl

theorem newest_none (h : newest p key l = none) : ∀ r ∈ l, p r = false := by
  induction l using List.reverseRecOn with
  | nil => exact fun _ h => by cases h
  | append_singleton l r ih =>
    rw [newest_append] at h
    split at h
    · cases h
    next hr =>
      rw [h, Option.all_none, Bool.and_true] at hr
      intro r' hr'
      rcases List.mem_append.1 hr' with hr' | hr'
      · exact ih h r' hr'
      · rw [List.mem_singleton.1 hr']
        exact Bool.eq_false_iff.2 hr

/-- The winner is one of the rumors, and none of them has a higher key. -/
theorem newest_spec (h : newest p key l = some b) : b ∈ l ∧ p b = true ∧ ∀ r ∈ l, p r = true → (key r).rank ≤ (key b).rank := by
  induction l using List.reverseRecOn generalizing b with
  | nil => cases h
  | append_singleton l r ih =>
    rw [newest_append] at h
    split at h
    next hr =>
      cases h
      rw [Bool.and_eq_true] at hr
      refine ⟨by simp, hr.1, fun r' hr' hp => ?_⟩
      rcases List.mem_append.1 hr' with hr' | hr'
      · cases hn : newest p key l with
        | none => exact absurd hp (by simp [newest_none hn r' hr'])
        | some b' =>
          rw [hn, Option.all_some] at hr
          exact ((ih hn).2.2 r' hr' hp).trans (revisionSupersedes_iff.1 hr.2).le
      · rw [List.mem_singleton.1 hr']
    next hr =>
      obtain ⟨hb, hpb, hle⟩ := ih h
      refine ⟨List.mem_append_left _ hb, hpb, fun r' hr' hp => ?_⟩
      rcases List.mem_append.1 hr' with hr' | hr'
      · exact hle r' hr' hp
      · rw [List.mem_singleton.1 hr'] at hp ⊢
        rw [h, Option.all_some, hp, Bool.true_and] at hr
        exact not_lt.1 fun hlt => hr (revisionSupersedes_iff.2 hlt)

/-- The winner depends on which rumors there are, where their keys differ. -/
theorem newest_congr (hmem : ∀ r, r ∈ l ↔ r ∈ l') (hkey : ∀ r ∈ l, ∀ r' ∈ l, (key r).rank = (key r').rank → r = r') :
    newest p key l = newest p key l' := by
  cases hn : newest p key l with
  | none =>
    cases hn' : newest p key l' with
    | none => rfl
    | some b' =>
      obtain ⟨hb', hpb', -⟩ := newest_spec hn'
      rw [newest_none hn b' ((hmem b').2 hb')] at hpb'
      cases hpb'
  | some b =>
    obtain ⟨hb, hpb, hle⟩ := newest_spec hn
    cases hn' : newest p key l' with
    | none =>
      rw [newest_none hn' b ((hmem b).1 hb)] at hpb
      cases hpb
    | some b' =>
      obtain ⟨hb', hpb', hle'⟩ := newest_spec hn'
      have hbl' := (hmem b').2 hb'
      exact congrArg some (hkey b hb b' hbl' (le_antisymm (hle' b ((hmem b).1 hb) hpb) (hle b' hbl' hpb')))

end

/-! ## Winners -/

section

variable {W Sk V M : Type} {d : Deps W Sk V M} {coordinate pk : JsString} {s s' : Winners V M} {l l' : List Rumor} {r : Rumor}

/-- The key of a rumor that is ordered as an event. -/
def eventKey (r : Rumor) : RevisionKey := ⟨0, r.created_at, r.id⟩

/-- The key of a submission. -/
def submissionKey (d : Deps W Sk V M) (r : Rumor) : RevisionKey :=
  ⟨((d.parseSubmission r.content).map (·.rev)).getD 0, r.created_at, r.id⟩

/-- A join of the attendee's. -/
def isJoin (d : Deps W Sk V M) (pk : JsString) (r : Rumor) : Bool :=
  r.kind = kindJoinRequest && r.pubkey = pk && (d.parseJoin r.content).isSome

/-- A withdrawal of the attendee's, from this event. -/
def isWithdrawal (d : Deps W Sk V M) (coordinate pk : JsString) (r : Rumor) : Bool :=
  r.kind = kindAttendeeWithdrawal && r.pubkey = pk && (d.parseWithdrawal r.content).any (·.a = coordinate)

/-- A submission of the attendee's. -/
def isSubmission (d : Deps W Sk V M) (pk : JsString) (r : Rumor) : Bool :=
  r.kind = Inbound.kindProfileSubmission && r.pubkey = pk && (d.parseSubmission r.content).isSome

def newestJoin (d : Deps W Sk V M) (pk : JsString) (l : List Rumor) : Option Rumor := newest (isJoin d pk) eventKey l

def newestWithdrawal (d : Deps W Sk V M) (coordinate pk : JsString) (l : List Rumor) : Option Rumor :=
  newest (isWithdrawal d coordinate pk) eventKey l

def newestSubmission (d : Deps W Sk V M) (pk : JsString) (l : List Rumor) : Option Rumor :=
  newest (isSubmission d pk) (submissionKey d) l

/-- What is kept of a join. -/
def joinOf (d : Deps W Sk V M) (r : Rumor) : Option (PendingRequest V M) := (d.parseJoin r.content).map (request d r)

/-- What is kept of a withdrawal. -/
def withdrawalOf (d : Deps W Sk V M) (r : Rumor) : Option PendingWithdrawal :=
  (d.parseWithdrawal r.content).map fun parsed => ⟨r.id, r.created_at, parsed.delete_data.getD true⟩

/-- What is kept of a submission. -/
def submissionOf (d : Deps W Sk V M) (r : Rumor) : Option PendingSubmission :=
  (d.parseSubmission r.content).map fun parsed => ⟨submissionKey d r, parsed.profile, parsed.media, parsed.intro_text⟩

/-- The winners are those of the rumors `l`, attendee by attendee. -/
structure Shows (d : Deps W Sk V M) (coordinate : JsString) (l : List Rumor) (s : Winners V M) : Prop where
  joins : ∀ pk, s.joins.get? pk = (newestJoin d pk l).bind (joinOf d)
  joinIds : ∀ pk, s.joinIds.get? pk = (newestJoin d pk l).map (·.id)
  withdrawals : ∀ pk, s.withdrawals.get? pk = (newestWithdrawal d coordinate pk l).bind (withdrawalOf d)
  subs : ∀ pk, s.subs.get? pk = (newestSubmission d pk l).bind (submissionOf d)

theorem supersedes_eq {a b : Rumor} : supersedes a.stamp b.stamp = revisionSupersedes (eventKey a) (eventKey b) := by
  by_cases h : a.created_at = b.created_at <;> simp [supersedes, revisionSupersedes, Rumor.stamp, eventKey, h]

theorem shows_nil : Shows d coordinate [] ({} : Winners V M) := ⟨fun _ => rfl, fun _ => rfl, fun _ => rfl, fun _ => rfl⟩

/-- A rumor that is none of these changes no winner. -/
theorem newest_append_of_not {p : Rumor → Bool} {key : Rumor → RevisionKey} (h : p r = false) :
    newest p key (l ++ [r]) = newest p key l := by
  rw [newest_append, h, Bool.false_and, if_neg Bool.false_ne_true]

theorem newest_append_of {p : Rumor → Bool} {key : Rumor → RevisionKey} (h : p r = true) :
    newest p key (l ++ [r]) =
      if (newest p key l).all (fun b => revisionSupersedes (key r) (key b)) then some r else newest p key l := by
  rw [newest_append, h, Bool.true_and]

theorem parse_of_newestJoin {b : Rumor} (h : newestJoin d pk l = some b) : ∃ content, d.parseJoin b.content = some content := by
  have hp := (newest_spec h).2.1
  simp only [isJoin, Bool.and_eq_true, Option.isSome_iff_exists] at hp
  exact hp.2

theorem parse_of_newestWithdrawal {b : Rumor} (h : newestWithdrawal d coordinate pk l = some b) :
    ∃ parsed, d.parseWithdrawal b.content = some parsed := by
  have hp := (newest_spec h).2.1
  simp only [isWithdrawal, Bool.and_eq_true] at hp
  exact Option.isSome_iff_exists.1 (Option.isSome_of_any hp.2)

theorem parse_of_newestSubmission {b : Rumor} (h : newestSubmission d pk l = some b) :
    ∃ parsed, d.parseSubmission b.content = some parsed := by
  have hp := (newest_spec h).2.1
  simp only [isSubmission, Bool.and_eq_true, Option.isSome_iff_exists] at hp
  exact hp.2

/-- A rumor that is neither of these kinds of the attendee changes nothing of theirs. -/
theorem Shows.skip (h : Shows d coordinate l s) (hj : ∀ pk, isJoin d pk r = false) (hw : ∀ pk, isWithdrawal d coordinate pk r = false)
    (hs : ∀ pk, isSubmission d pk r = false) : Shows d coordinate (l ++ [r]) s where
  joins pk := by rw [newestJoin, newest_append_of_not (hj pk)]; exact h.joins pk
  joinIds pk := by rw [newestJoin, newest_append_of_not (hj pk)]; exact h.joinIds pk
  withdrawals pk := by rw [newestWithdrawal, newest_append_of_not (hw pk)]; exact h.withdrawals pk
  subs pk := by rw [newestSubmission, newest_append_of_not (hs pk)]; exact h.subs pk

theorem isJoin_of_kind (h : r.kind ≠ kindJoinRequest) : isJoin d pk r = false := by simp [isJoin, h]

theorem isWithdrawal_of_kind (h : r.kind ≠ kindAttendeeWithdrawal) : isWithdrawal d coordinate pk r = false := by
  simp [isWithdrawal, h]

theorem isSubmission_of_kind (h : r.kind ≠ Inbound.kindProfileSubmission) : isSubmission d pk r = false := by
  simp [isSubmission, h]

theorem Shows.join {content : JoinRequestContent} (h : Shows d coordinate l s) (hkind : r.kind = kindJoinRequest)
    (hparse : d.parseJoin r.content = some content) : Shows d coordinate (l ++ [r]) (s.join d r content) := by
  have hself : isJoin d r.pubkey r = true := by simp [isJoin, hkind, hparse]
  have hother : ∀ pk, r.pubkey ≠ pk → isJoin d pk r = false := fun pk hpk => by simp [isJoin, hpk]
  have hw : ∀ pk, isWithdrawal d coordinate pk r = false := fun pk => isWithdrawal_of_kind (by rw [hkind]; decide)
  have hs : ∀ pk, isSubmission d pk r = false := fun pk => isSubmission_of_kind (by rw [hkind]; decide)
  -- the code compares with the stored request and id, which are those of the newest join so far
  have hwins : ((s.joins.get? r.pubkey).all fun prev =>
      supersedes r.stamp ⟨(s.joinIds.get? r.pubkey).getD [], prev.rumorCreatedAt⟩) =
      (newestJoin d r.pubkey l).all fun b => revisionSupersedes (eventKey r) (eventKey b) := by
    rw [h.joins, h.joinIds]
    cases hn : newestJoin d r.pubkey l with
    | none => rfl
    | some b =>
      obtain ⟨cb, hcb⟩ := parse_of_newestJoin hn
      simp only [Option.bind_some, joinOf, hcb, Option.map_some, Option.all_some, Option.getD_some, request]
      exact supersedes_eq
  simp only [Winners.join]
  rw [hwins]
  split
  next hwin =>
    have hnew : newestJoin d r.pubkey (l ++ [r]) = some r := by
      rw [newestJoin, newest_append_of hself]
      exact if_pos hwin
    refine ⟨fun pk => ?_, fun pk => ?_, fun pk => ?_, fun pk => ?_⟩
    · rw [JsMap.get?_set]
      split
      · next hpk =>
        rw [← hpk, hnew, Option.bind_some, joinOf, hparse]
        rfl
      · next hpk => rw [newestJoin, newest_append_of_not (hother pk hpk)]; exact h.joins pk
    · rw [JsMap.get?_set]
      split
      · next hpk => rw [← hpk, hnew]; rfl
      · next hpk => rw [newestJoin, newest_append_of_not (hother pk hpk)]; exact h.joinIds pk
    · rw [newestWithdrawal, newest_append_of_not (hw pk)]; exact h.withdrawals pk
    · rw [newestSubmission, newest_append_of_not (hs pk)]; exact h.subs pk
  next hlose =>
    have hsame : ∀ pk, newestJoin d pk (l ++ [r]) = newestJoin d pk l := fun pk => by
      by_cases hpk : r.pubkey = pk
      · subst hpk
        rw [newestJoin, newest_append_of hself]
        exact if_neg hlose
      · exact newest_append_of_not (hother pk hpk)
    refine ⟨fun pk => ?_, fun pk => ?_, fun pk => ?_, fun pk => ?_⟩
    · rw [hsame]; exact h.joins pk
    · rw [hsame]; exact h.joinIds pk
    · rw [newestWithdrawal, newest_append_of_not (hw pk)]; exact h.withdrawals pk
    · rw [newestSubmission, newest_append_of_not (hs pk)]; exact h.subs pk

theorem Shows.withdraw {parsed : WithdrawalContent} (h : Shows d coordinate l s) (hkind : r.kind = kindAttendeeWithdrawal)
    (hparse : d.parseWithdrawal r.content = some parsed) (ha : parsed.a = coordinate) :
    Shows d coordinate (l ++ [r]) (s.withdraw r parsed) := by
  have hself : isWithdrawal d coordinate r.pubkey r = true := by simp [isWithdrawal, hkind, hparse, ha]
  have hother : ∀ pk, r.pubkey ≠ pk → isWithdrawal d coordinate pk r = false := fun pk hpk => by simp [isWithdrawal, hpk]
  have hj : ∀ pk, isJoin d pk r = false := fun pk => isJoin_of_kind (by rw [hkind]; decide)
  have hs : ∀ pk, isSubmission d pk r = false := fun pk => isSubmission_of_kind (by rw [hkind]; decide)
  have hwins : ((s.withdrawals.get? r.pubkey).all fun prev => supersedes r.stamp ⟨prev.id, prev.created_at⟩) =
      (newestWithdrawal d coordinate r.pubkey l).all fun b => revisionSupersedes (eventKey r) (eventKey b) := by
    rw [h.withdrawals]
    cases hn : newestWithdrawal d coordinate r.pubkey l with
    | none => rfl
    | some b =>
      obtain ⟨pb, hpb⟩ := parse_of_newestWithdrawal hn
      simp only [Option.bind_some, withdrawalOf, hpb, Option.map_some, Option.all_some]
      exact supersedes_eq
  simp only [Winners.withdraw]
  rw [hwins]
  split
  next hwin =>
    have hnew : newestWithdrawal d coordinate r.pubkey (l ++ [r]) = some r := by
      rw [newestWithdrawal, newest_append_of hself]
      exact if_pos hwin
    refine ⟨fun pk => ?_, fun pk => ?_, fun pk => ?_, fun pk => ?_⟩
    · rw [newestJoin, newest_append_of_not (hj pk)]; exact h.joins pk
    · rw [newestJoin, newest_append_of_not (hj pk)]; exact h.joinIds pk
    · rw [JsMap.get?_set]
      split
      · next hpk =>
        rw [← hpk, hnew, Option.bind_some, withdrawalOf, hparse]
        rfl
      · next hpk => rw [newestWithdrawal, newest_append_of_not (hother pk hpk)]; exact h.withdrawals pk
    · rw [newestSubmission, newest_append_of_not (hs pk)]; exact h.subs pk
  next hlose =>
    refine ⟨fun pk => ?_, fun pk => ?_, fun pk => ?_, fun pk => ?_⟩
    · rw [newestJoin, newest_append_of_not (hj pk)]; exact h.joins pk
    · rw [newestJoin, newest_append_of_not (hj pk)]; exact h.joinIds pk
    · by_cases hpk : r.pubkey = pk
      · subst hpk
        have hsame : newestWithdrawal d coordinate r.pubkey (l ++ [r]) = newestWithdrawal d coordinate r.pubkey l := by
          rw [newestWithdrawal, newest_append_of hself]
          exact if_neg hlose
        rw [hsame]
        exact h.withdrawals _
      · rw [newestWithdrawal, newest_append_of_not (hother pk hpk)]; exact h.withdrawals pk
    · rw [newestSubmission, newest_append_of_not (hs pk)]; exact h.subs pk

theorem Shows.submit {parsed : ProfileSubmission} (h : Shows d coordinate l s) (hkind : r.kind = Inbound.kindProfileSubmission)
    (hparse : d.parseSubmission r.content = some parsed) : Shows d coordinate (l ++ [r]) (s.submit r parsed) := by
  have hself : isSubmission d r.pubkey r = true := by simp [isSubmission, hkind, hparse]
  have hother : ∀ pk, r.pubkey ≠ pk → isSubmission d pk r = false := fun pk hpk => by simp [isSubmission, hpk]
  have hj : ∀ pk, isJoin d pk r = false := fun pk => isJoin_of_kind (by rw [hkind]; decide)
  have hw : ∀ pk, isWithdrawal d coordinate pk r = false := fun pk => isWithdrawal_of_kind (by rw [hkind]; decide)
  have hkey : submissionKey d r = ⟨parsed.rev, r.created_at, r.id⟩ := by simp [submissionKey, hparse]
  have hwins : ((s.subs.get? r.pubkey).all fun prev => revisionSupersedes ⟨parsed.rev, r.created_at, r.id⟩ prev.key) =
      (newestSubmission d r.pubkey l).all fun b => revisionSupersedes (submissionKey d r) (submissionKey d b) := by
    rw [h.subs, hkey]
    cases hn : newestSubmission d r.pubkey l with
    | none => rfl
    | some b =>
      obtain ⟨pb, hpb⟩ := parse_of_newestSubmission hn
      simp only [Option.bind_some, submissionOf, hpb, Option.map_some, Option.all_some]
  simp only [Winners.submit]
  rw [hwins]
  split
  next hwin =>
    have hnew : newestSubmission d r.pubkey (l ++ [r]) = some r := by
      rw [newestSubmission, newest_append_of hself]
      exact if_pos hwin
    refine ⟨fun pk => ?_, fun pk => ?_, fun pk => ?_, fun pk => ?_⟩
    · rw [newestJoin, newest_append_of_not (hj pk)]; exact h.joins pk
    · rw [newestJoin, newest_append_of_not (hj pk)]; exact h.joinIds pk
    · rw [newestWithdrawal, newest_append_of_not (hw pk)]; exact h.withdrawals pk
    · rw [JsMap.get?_set]
      split
      · next hpk =>
        rw [← hpk, hnew, Option.bind_some, submissionOf, hparse, Option.map_some, hkey]
      · next hpk => rw [newestSubmission, newest_append_of_not (hother pk hpk)]; exact h.subs pk
  next hlose =>
    refine ⟨fun pk => ?_, fun pk => ?_, fun pk => ?_, fun pk => ?_⟩
    · rw [newestJoin, newest_append_of_not (hj pk)]; exact h.joins pk
    · rw [newestJoin, newest_append_of_not (hj pk)]; exact h.joinIds pk
    · rw [newestWithdrawal, newest_append_of_not (hw pk)]; exact h.withdrawals pk
    · by_cases hpk : r.pubkey = pk
      · subst hpk
        have hsame : newestSubmission d r.pubkey (l ++ [r]) = newestSubmission d r.pubkey l := by
          rw [newestSubmission, newest_append_of hself]
          exact if_neg hlose
        rw [hsame]
        exact h.subs _
      · rw [newestSubmission, newest_append_of_not (hother pk hpk)]; exact h.subs pk

/-- **One rumor more** is folded in. -/
theorem Shows.fold (h : Shows d coordinate l s) : Shows d coordinate (l ++ [r]) (s.fold d coordinate r) := by
  unfold Winners.fold
  split
  next hkind =>
    cases hparse : d.parseJoin r.content with
    | some content => exact h.join hkind hparse
    | none =>
      exact h.skip (fun _ => by simp [isJoin, hparse]) (fun _ => isWithdrawal_of_kind (by rw [hkind]; decide))
        fun _ => isSubmission_of_kind (by rw [hkind]; decide)
  next hjoin =>
    split
    next hkind =>
      have hs : ∀ pk, isSubmission d pk r = false := fun _ => isSubmission_of_kind (by rw [hkind]; decide)
      cases hparse : d.parseWithdrawal r.content with
      | some parsed =>
        simp only
        split
        next ha => exact h.skip (fun _ => isJoin_of_kind hjoin) (fun _ => by simp [isWithdrawal, hparse, ha]) hs
        next ha => exact h.withdraw hkind hparse (not_not.1 ha)
      | none => exact h.skip (fun _ => isJoin_of_kind hjoin) (fun _ => by simp [isWithdrawal, hparse]) hs
    next hwithdrawal =>
      split
      next hkind =>
        cases hparse : d.parseSubmission r.content with
        | some parsed => exact h.submit hkind hparse
        | none =>
          exact h.skip (fun _ => isJoin_of_kind hjoin) (fun _ => isWithdrawal_of_kind hwithdrawal)
            fun _ => by simp [isSubmission, hparse]
      next hsubmission =>
        exact h.skip (fun _ => isJoin_of_kind hjoin) (fun _ => isWithdrawal_of_kind hwithdrawal)
          fun _ => isSubmission_of_kind hsubmission

theorem Shows.foldl (h : Shows d coordinate l s) : ∀ rs, Shows d coordinate (l ++ rs) (rs.foldl (Winners.fold d coordinate) s) := by
  intro rs
  induction rs generalizing l s with
  | nil => rwa [List.append_nil]
  | cons r rs ih =>
    rw [List.append_cons]
    exact ih h.fold

/-! ## The queue -/

section

variable {ν μ : Type} {f : JsString → ν → Option μ → Option μ}

/-- A loop over entries, each key once, updates each key by itself. -/
theorem get?_updateAll : ∀ {entries : List (JsString × ν)} {m : JsMap JsString μ}, (entries.map Prod.fst).Nodup →
    (updateAll f entries m).get? pk =
      match look pk entries with
      | some v => (f pk v (m.get? pk)).or (m.get? pk)
      | none => m.get? pk
  | [], _, _ => rfl
  | (k, v) :: entries, m, h => by
    rw [List.map_cons, List.nodup_cons] at h
    have hstep : updateAll f ((k, v) :: entries) m = updateAll f entries (match f k v (m.get? k) with
      | some v => m.set k v
      | none => m) := rfl
    rw [hstep, get?_updateAll h.2, look]
    by_cases hk : k = pk
    · subst hk
      rw [look_eq_none.2 h.1, if_pos rfl]
      cases hf : f k v (m.get? k) with
      | none => simp [hf]
      | some v' => simp [JsMap.get?_set, hf]
    · have hother : (match f k v (m.get? k) with
        | some v => m.set k v
        | none => m).get? pk = m.get? pk := by
        cases f k v (m.get? k) with
        | none => rfl
        | some v' => simp [JsMap.get?_set, hk]
      rw [hother, if_neg hk]

end

/-- The request of an attendee by their winners. -/
def entryOf (pk : JsString) (join : Option (PendingRequest V M)) (joinId : Option JsString) (sub : Option PendingSubmission)
    (withdrawal : Option PendingWithdrawal) : Option (PendingRequest V M) :=
  let req := match sub with
    | some sub => (foldSubmission pk sub join).or join
    | none => join
  match withdrawal with
  | some w => (foldWithdrawal (fun _ => joinId) pk w req).or req
  | none => req

theorem get?_byAttendee : s.byAttendee.get? pk =
    entryOf pk (s.joins.get? pk) (s.joinIds.get? pk) (s.subs.get? pk) (s.withdrawals.get? pk) := by
  rw [Winners.byAttendee, get?_updateAll s.withdrawals.nodup, get?_updateAll s.subs.nodup]
  simp only [entryOf]
  have hw : look pk s.withdrawals.entries = s.withdrawals.get? pk := rfl
  have hs : look pk s.subs.entries = s.subs.get? pk := rfl
  rw [hw, hs]
  cases s.withdrawals.get? pk <;> cases s.subs.get? pk <;> rfl

/-- A request with the submission of its attendee, if there is one. -/
def withSubmission (sub : Option PendingSubmission) (req : PendingRequest V M) : PendingRequest V M :=
  sub.elim req fun sub => { req with profile := some sub.profile, media := some sub.media, introText := sub.introText }

@[simp] theorem withSubmission_attendeePubkey {sub : Option PendingSubmission} {req : PendingRequest V M} :
    (withSubmission sub req).attendeePubkey = req.attendeePubkey := by
  cases sub <;> rfl

/-- The request that the rumors `l` make for an attendee. -/
def requestOf (d : Deps W Sk V M) (coordinate : JsString) (l : List Rumor) (pk : JsString) : Option (PendingRequest V M) :=
  match newestJoin d pk l with
  | some j => (joinOf d j).map fun req =>
    let req := withSubmission ((newestSubmission d pk l).bind (submissionOf d)) req
    -- withdrawn just when the newest withdrawal supersedes the newest join
    match newestWithdrawal d coordinate pk l with
    | some w =>
      if supersedes w.stamp j.stamp then
        { req with withdrawn := true, withdrawalRequestedPurge := (withdrawalOf d w).map (·.deleteData) }
      else req
    | none => req
  | none => ((newestWithdrawal d coordinate pk l).bind (withdrawalOf d)).map fun w =>
    { attendeePubkey := pk
      name := []
      message := []
      rsvpPublic := false
      rumorCreatedAt := w.created_at
      withdrawn := true
      withdrawalRequestedPurge := some w.deleteData }

/-- The rumor id that a tie is broken on. -/
def idFor (d : Deps W Sk V M) (coordinate : JsString) (l : List Rumor) (pk : JsString) : JsString :=
  (((newestJoin d pk l).or (newestWithdrawal d coordinate pk l)).map (·.id)).getD []

theorem Shows.byAttendee (h : Shows d coordinate l s) : s.byAttendee.get? pk = requestOf d coordinate l pk := by
  rw [get?_byAttendee, h.joins, h.joinIds, h.subs, h.withdrawals, requestOf]
  cases hj : newestJoin d pk l with
  | none =>
    cases hw : newestWithdrawal d coordinate pk l with
    | none => cases (newestSubmission d pk l).bind (submissionOf d) <;> rfl
    | some w =>
      obtain ⟨parsed, hparsed⟩ := parse_of_newestWithdrawal hw
      cases (newestSubmission d pk l).bind (submissionOf d) <;>
        simp [entryOf, foldSubmission, foldWithdrawal, withdrawalOf, hparsed]
  | some j =>
    obtain ⟨content, hcontent⟩ := parse_of_newestJoin hj
    cases hw : newestWithdrawal d coordinate pk l with
    | none =>
      cases (newestSubmission d pk l).bind (submissionOf d) <;>
        simp [entryOf, foldSubmission, joinOf, hcontent, withSubmission]
    | some w =>
      obtain ⟨parsed, hparsed⟩ := parse_of_newestWithdrawal hw
      by_cases hs : supersedes w.stamp j.stamp = true <;> cases (newestSubmission d pk l).bind (submissionOf d) <;>
        simp_all [entryOf, foldSubmission, foldWithdrawal, joinOf, withdrawalOf, request, Rumor.stamp, withSubmission]

theorem Shows.idOf (h : Shows d coordinate l s) : s.idOf pk = idFor d coordinate l pk := by
  rw [Winners.idOf, h.joinIds, h.withdrawals, idFor]
  cases newestJoin d pk l with
  | some j => rfl
  | none =>
    cases hw : newestWithdrawal d coordinate pk l with
    | none => rfl
    | some w =>
      obtain ⟨parsed, hparsed⟩ := parse_of_newestWithdrawal hw
      simp [withdrawalOf, hparsed]

theorem pubkey_of_newestJoin {b : Rumor} (h : newestJoin d pk l = some b) : b.pubkey = pk := by
  have hp := (newest_spec h).2.1
  simp only [isJoin, Bool.and_eq_true, decide_eq_true_eq] at hp
  exact hp.1.2

theorem pubkey_of_newestWithdrawal {b : Rumor} (h : newestWithdrawal d coordinate pk l = some b) : b.pubkey = pk := by
  have hp := (newest_spec h).2.1
  simp only [isWithdrawal, Bool.and_eq_true, decide_eq_true_eq] at hp
  exact hp.1.2

theorem attendeePubkey_requestOf {req : PendingRequest V M} (h : requestOf d coordinate l pk = some req) :
    req.attendeePubkey = pk := by
  rw [requestOf] at h
  split at h
  next j hj =>
    obtain ⟨content, hcontent⟩ := parse_of_newestJoin hj
    rw [joinOf, hcontent, Option.map_some, Option.map_some, Option.some_inj] at h
    subst h
    have hpk : j.pubkey = pk := pubkey_of_newestJoin hj
    cases newestWithdrawal d coordinate pk l with
    | none => simpa [request] using hpk
    | some w =>
      simp only
      split <;> simpa [request] using hpk
  next hj =>
    obtain ⟨w, -, rfl⟩ := Option.map_eq_some_iff.1 h
    rfl

/-- Whoever is in the queue is there by a rumor of theirs, which breaks their ties. -/
theorem idFor_of_requestOf {req : PendingRequest V M} (h : requestOf d coordinate l pk = some req) :
    ∃ r ∈ l, r.pubkey = pk ∧ r.id = idFor d coordinate l pk := by
  rw [requestOf] at h
  split at h
  next j hj => exact ⟨j, (newest_spec hj).1, pubkey_of_newestJoin hj, by simp [idFor, hj]⟩
  next hj =>
    cases hw : newestWithdrawal d coordinate pk l with
    | none => simp [hw] at h
    | some w => exact ⟨w, (newest_spec hw).1, pubkey_of_newestWithdrawal hw, by simp [idFor, hj, hw]⟩

/-- The queue of the rumors `l`: the request of each attendee, oldest first, ties by id. -/
structure QueueOf (d : Deps W Sk V M) (coordinate : JsString) (l : List Rumor) (q : List (PendingRequest V M)) : Prop where
  mem : ∀ req, req ∈ q ↔ ∃ pk, requestOf d coordinate l pk = some req
  nodup : (q.map (·.attendeePubkey)).Nodup
  sorted : q.Pairwise fun a b => a.rumorCreatedAt < b.rumorCreatedAt ∨
    a.rumorCreatedAt = b.rumorCreatedAt ∧ idFor d coordinate l a.attendeePubkey ≤ idFor d coordinate l b.attendeePubkey

/-- Rumors of one id are one rumor. -/
def Distinct (l : List Rumor) : Prop := ∀ r ∈ l, ∀ r' ∈ l, r.id = r'.id → r = r'

theorem mem_values {m : JsMap JsString (PendingRequest V M)} {req : PendingRequest V M} :
    req ∈ m.values ↔ ∃ pk, m.get? pk = some req :=
  ⟨JsMap.get?_of_mem_values, fun ⟨_, h⟩ => List.mem_map_of_mem (f := Prod.snd) (JsMap.get?_eq_some.1 h)⟩

instance : Std.Total s.before where
  total a b := by
    rcases lt_trichotomy a.rumorCreatedAt b.rumorCreatedAt with h | h | h
    · exact .inl (.inl h)
    · by_cases hid : s.idOf b.attendeePubkey < s.idOf a.attendeePubkey
      · exact .inr (.inr ⟨h.symm, hid.not_gt⟩)
      · exact .inl (.inr ⟨h, hid⟩)
    · exact .inr (.inl h)

instance : IsTrans (PendingRequest V M) s.before where
  trans a b c hab hbc := by
    rcases hab with hab | ⟨hab, hid⟩ <;> rcases hbc with hbc | ⟨hbc, hid'⟩
    · exact .inl (hab.trans hbc)
    · exact .inl (hbc ▸ hab)
    · exact .inl (hab ▸ hbc)
    · exact .inr ⟨hab.trans hbc, not_lt.2 ((not_lt.1 hid).trans (not_lt.1 hid'))⟩

/-- The code's queue is that of the rumors it has folded in. -/
theorem Shows.queue (h : Shows d coordinate l s) : QueueOf d coordinate l s.queue where
  mem req := by
    rw [Winners.queue, List.mem_insertionSort, mem_values]
    exact exists_congr fun pk => by rw [h.byAttendee]
  nodup := by
    have hkeys : s.byAttendee.values.map (·.attendeePubkey) = s.byAttendee.entries.map Prod.fst := by
      rw [JsMap.values, List.map_map]
      refine List.map_congr_left fun p hp => ?_
      exact attendeePubkey_requestOf (h.byAttendee ▸ JsMap.get?_eq_some.2 hp)
    have hperm := (List.perm_insertionSort s.before s.byAttendee.values).map (·.attendeePubkey)
    exact hperm.nodup_iff.2 (hkeys ▸ s.byAttendee.nodup)
  sorted := by
    refine (List.pairwise_insertionSort s.before s.byAttendee.values).imp fun {a b} hab => ?_
    simpa only [Winners.before, h.idOf, not_lt] using hab

/-- There is one such queue. -/
theorem QueueOf.unique {q q' : List (PendingRequest V M)} (hd : Distinct l) (h : QueueOf d coordinate l q)
    (h' : QueueOf d coordinate l q') : q = q' := by
  have hperm : q.Perm q' :=
    (List.perm_ext_iff_of_nodup (.of_map _ h.nodup) (.of_map _ h'.nodup)).2 fun req => (h.mem req).trans (h'.mem req).symm
  refine hperm.eq_of_pairwise (fun a b ha hb hab hba => ?_) h.sorted h'.sorted
  -- the same second and the same id: one rumor, hence one attendee
  have hid : idFor d coordinate l a.attendeePubkey = idFor d coordinate l b.attendeePubkey := by
    rcases hab with hab | ⟨heq, hab⟩ <;> rcases hba with hba | ⟨heq', hba⟩
    · exact absurd hba hab.not_gt
    · exact absurd heq' hab.ne'
    · exact absurd heq hba.ne'
    · exact le_antisymm hab hba
  obtain ⟨pk, hpk⟩ := (h.mem a).1 ha
  obtain ⟨pk', hpk'⟩ := (h'.mem b).1 hb
  rw [attendeePubkey_requestOf hpk, attendeePubkey_requestOf hpk'] at hid
  obtain ⟨r, hr, hrpk, hrid⟩ := idFor_of_requestOf hpk
  obtain ⟨r', hr', hrpk', hrid'⟩ := idFor_of_requestOf hpk'
  have hrr : r = r' := hd r hr r' hr' (by rw [hrid, hrid', hid])
  have hkeys : pk = pk' := by rw [← hrpk, ← hrpk', hrr]
  exact Option.some_inj.1 (hpk.symm.trans (hkeys ▸ hpk'))

/-- Which rumors there are decides the queue. -/
theorem QueueOf.congr {q : List (PendingRequest V M)} (hd : Distinct l) (hmem : ∀ r, r ∈ l ↔ r ∈ l')
    (h : QueueOf d coordinate l q) : QueueOf d coordinate l' q := by
  have hevent : ∀ r ∈ l, ∀ r' ∈ l, (eventKey r).rank = (eventKey r').rank → r = r' := fun r hr r' hr' he =>
    hd r hr r' hr' (by simpa [eventKey, RevisionKey.rank] using congrArg (fun k => (ofLex (ofLex k).2).2) he)
  have hsub : ∀ r ∈ l, ∀ r' ∈ l, (submissionKey d r).rank = (submissionKey d r').rank → r = r' := fun r hr r' hr' he =>
    hd r hr r' hr' (by simpa [submissionKey, RevisionKey.rank] using congrArg (fun k => (ofLex (ofLex k).2).2) he)
  have hj : ∀ pk, newestJoin d pk l = newestJoin d pk l' := fun _ => newest_congr hmem hevent
  have hw : ∀ pk, newestWithdrawal d coordinate pk l = newestWithdrawal d coordinate pk l' := fun _ => newest_congr hmem hevent
  have hs : ∀ pk, newestSubmission d pk l = newestSubmission d pk l' := fun _ => newest_congr hmem hsub
  have hreq : ∀ pk, requestOf d coordinate l pk = requestOf d coordinate l' pk := fun pk => by
    rw [requestOf, requestOf, hj, hw, hs]
  have hid : ∀ pk, idFor d coordinate l pk = idFor d coordinate l' pk := fun pk => by rw [idFor, idFor, hj, hw]
  exact ⟨fun req => by simp only [h.mem, hreq], h.nodup, by simpa only [hid] using h.sorted⟩

end

/-! ## Scans -/

section

variable {W Sk V M : Type} {c : Context W Sk V M} {cached : Cached V M} {scans : List (Scan W)} {scan last single : Scan W}
  {wraps : List (W × Int)} {l : List Rumor}

/-- The rumor of a wrap, as its author dated it. -/
def rumorOf (c : Context W Sk V M) (wrap : W) : Option Rumor :=
  c.inboxSks.findSome? fun sk => (c.deps.unwrap wrap sk).filter (·.kind ∈ Inbound.eventInboxRumorKinds)

/-- The rumors of some wraps. -/
def rumorsOf (c : Context W Sk V M) (wraps : List (W × Int)) : List Rumor := wraps.filterMap fun p => rumorOf c p.1

/-- The wrap's rumor is dated no further past the clock than the skew allowed. -/
def InSkew (c : Context W Sk V M) (p : W × Int) : Prop := ∀ r, rumorOf c p.1 = some r → r.created_at ≤ p.2 + rumorMaxClockSkewSec

/-- The clock at a wrap's unwrapping matters only to a rumor that is ahead of it. -/
theorem unwrapAny_eq {p : W × Int} (h : InSkew c p) : unwrapAny c.deps c.inboxSks p.1 p.2 = rumorOf c p.1 := by
  have hmap : unwrapAny c.deps c.inboxSks p.1 p.2 =
      (rumorOf c p.1).map fun r => { r with created_at := rumorEffectiveCreatedAt r.created_at p.2 } := by
    rw [rumorOf, List.map_findSome?]
    rfl
  rw [hmap]
  cases hr : rumorOf c p.1 with
  | none => rfl
  | some r =>
    have hle := h r hr
    have heff : rumorEffectiveCreatedAt r.created_at p.2 = r.created_at := by
      unfold rumorEffectiveCreatedAt
      exact if_neg (by omega)
    rw [Option.map_some, heff]

theorem foldWraps_shows {s : Winners V M} (hs : Shows c.deps c.coordinate l s) (h : ∀ p ∈ wraps, InSkew c p) :
    Shows c.deps c.coordinate (l ++ rumorsOf c wraps) (foldWraps c s wraps) := by
  have hrumors : (wraps.filterMap fun p => unwrapAny c.deps c.inboxSks p.1 p.2) = rumorsOf c wraps :=
    List.filterMap_congr fun p hp => unwrapAny_eq (h p hp)
  rw [foldWraps, hrumors]
  exact hs.foldl _

/-- The cached state after some calls of `fetchPending`, the first on a device that has none. -/
def cachedAfter (c : Context W Sk V M) (scans : List (Scan W)) : Cached V M :=
  scans.foldl (fun cached scan => (fetchPending c cached scan).2) none

/-- All that the scans returned. -/
def wrapsOf (scans : List (Scan W)) : List (W × Int) := scans.flatMap (·.wraps)

/-- The cached state holds the winners of the rumors `l`, under a time no later than `now`. -/
def Holds (c : Context W Sk V M) (l : List Rumor) (now : Int) (cached : Cached V M) : Prop :=
  Shows c.deps c.coordinate l (winnersOf cached) ∧ ∀ p ∈ cached, p.1 ≤ now

/-- One scan more. -/
theorem Holds.step {now : Int} (h : Holds c l now cached) (hnow : now ≤ scan.scanStartedAt) (hskew : ∀ p ∈ scan.wraps, InSkew c p) :
    Holds c (l ++ rumorsOf c scan.wraps) scan.scanStartedAt (fetchPending c cached scan).2 := by
  have hkept : (fetchPending c cached scan).2 = some (scan.scanStartedAt, nextState c cached scan) := by
    refine if_neg fun hany => ?_
    obtain ⟨p, hp, hlt⟩ := Option.any_eq_true _ _ |>.1 hany
    have hle := h.2 p hp
    simp only [gt_iff_lt, decide_eq_true_eq] at hlt
    omega
  rw [hkept]
  refine ⟨foldWraps_shows h.1 hskew, fun p hp => ?_⟩
  rw [← Option.mem_some_iff.1 hp]

/-- **After any scans** the cached state holds the winners of all they returned. -/
theorem holds_cachedAfter (hsorted : (scans.map (·.scanStartedAt)).Pairwise (· ≤ ·))
    (hskew : ∀ scan ∈ scans, ∀ p ∈ scan.wraps, InSkew c p) {now : Int} (hnow : ∀ scan ∈ scans, scan.scanStartedAt ≤ now) :
    Holds c (rumorsOf c (wrapsOf scans)) now (cachedAfter c scans) := by
  induction scans using List.reverseRecOn generalizing now with
  | nil => exact ⟨shows_nil, fun p hp => by cases hp⟩
  | append_singleton scans scan ih =>
    rw [List.map_append, List.pairwise_append] at hsorted
    have hbefore : ∀ s ∈ scans, s.scanStartedAt ≤ scan.scanStartedAt := fun s hs =>
      hsorted.2.2 _ (List.mem_map_of_mem hs) _ (by simp)
    have hprev := ih hsorted.1 (fun s hs => hskew s (by simp [hs])) hbefore
    have hstep := hprev.step le_rfl (hskew scan (by simp))
    have hrumors : rumorsOf c (wrapsOf (scans ++ [scan])) = rumorsOf c (wrapsOf scans) ++ rumorsOf c scan.wraps := by
      simp [rumorsOf, wrapsOf, List.flatMap_append, List.filterMap_append]
    have hcached : cachedAfter c (scans ++ [scan]) = (fetchPending c (cachedAfter c scans) scan).2 := by
      rw [cachedAfter, List.foldl_append]
      rfl
    rw [hrumors, hcached]
    refine ⟨hstep.1, fun p hp => ?_⟩
    have hle := hstep.2 p hp
    have hlast := hnow scan (by simp)
    omega

theorem mem_rumorsOf {r : Rumor} : r ∈ rumorsOf c wraps ↔ ∃ w, (∃ t, (w, t) ∈ wraps) ∧ rumorOf c w = some r := by
  rw [rumorsOf, List.mem_filterMap]
  exact ⟨fun ⟨p, hp, hr⟩ => ⟨p.1, ⟨p.2, hp⟩, hr⟩, fun ⟨w, ⟨t, hw⟩, hr⟩ => ⟨(w, t), hw, hr⟩⟩

/-- The id of a rumor is the hash of all of it. -/
def IdsDistinct (c : Context W Sk V M) : Prop :=
  ∀ w w' sk sk' r r', c.deps.unwrap w sk = some r → c.deps.unwrap w' sk' = some r' → r.id = r'.id → r = r'

theorem distinct_rumorsOf (hid : IdsDistinct c) : Distinct (rumorsOf c wraps) := by
  have hunwrap : ∀ {w r}, rumorOf c w = some r → ∃ sk, c.deps.unwrap w sk = some r := by
    intro w r hr
    obtain ⟨sk, -, hsk⟩ := List.exists_of_findSome?_eq_some hr
    exact ⟨sk, (Option.filter_eq_some_iff.1 hsk).1⟩
  intro r hr r' hr' he
  obtain ⟨w, -, hw⟩ := mem_rumorsOf.1 hr
  obtain ⟨w', -, hw'⟩ := mem_rumorsOf.1 hr'
  obtain ⟨sk, hsk⟩ := hunwrap hw
  obtain ⟨sk', hsk'⟩ := hunwrap hw'
  exact hid w w' sk sk' r r' hsk hsk' he

/-- **The queue does not depend on the scans.** -/
theorem queue_of_any_scans (hid : IdsDistinct c) (hsorted : ((scans ++ [last]).map (·.scanStartedAt)).Pairwise (· ≤ ·))
    (hskew : ∀ scan ∈ scans ++ [last, single], ∀ p ∈ scan.wraps, InSkew c p)
    (hsame : ∀ w, (∃ t, (w, t) ∈ single.wraps) ↔ ∃ t, (w, t) ∈ wrapsOf (scans ++ [last])) :
    (fetchPending c (cachedAfter c scans) last).1 = (fetchPending c none single).1 ∧
      QueueOf c.deps c.coordinate (rumorsOf c single.wraps) (fetchPending c (cachedAfter c scans) last).1 := by
  rw [List.map_append, List.pairwise_append] at hsorted
  have hbefore : ∀ s ∈ scans, s.scanStartedAt ≤ last.scanStartedAt := fun s hs =>
    hsorted.2.2 _ (List.mem_map_of_mem hs) _ (by simp)
  have hcached := holds_cachedAfter hsorted.1 (fun s hs => hskew s (by simp [hs])) hbefore
  have hlast := (foldWraps_shows hcached.1 (hskew last (by simp))).queue
  have hsingle := (foldWraps_shows (l := []) (s := {}) shows_nil (hskew single (by simp))).queue
  rw [List.nil_append] at hsingle
  have hmem : ∀ r, r ∈ rumorsOf c (wrapsOf scans) ++ rumorsOf c last.wraps ↔ r ∈ rumorsOf c single.wraps := fun r => by
    have happend : rumorsOf c (wrapsOf scans) ++ rumorsOf c last.wraps = rumorsOf c (wrapsOf (scans ++ [last])) := by
      simp [rumorsOf, wrapsOf, List.flatMap_append, List.filterMap_append]
    rw [happend, mem_rumorsOf, mem_rumorsOf]
    exact exists_congr fun w => and_congr_left fun _ => (hsame w).symm
  have hdistinct : Distinct (rumorsOf c single.wraps) := distinct_rumorsOf hid
  have hlast' := hlast.congr (fun r hr r' hr' => hdistinct r ((hmem r).1 hr) r' ((hmem r').1 hr')) hmem
  exact ⟨hlast'.unique hdistinct hsingle, hlast'⟩

end

namespace TwoJoins

inductive Wrap
  | first
  | second
  deriving DecidableEq

/-- Two joins of one attendee, dated `first` and `second`. -/
def rumor (first second : Int) : Wrap → Rumor
  | .first => ⟨kindJoinRequest, js "p", js "a", first, js "Ada", []⟩
  | .second => ⟨kindJoinRequest, js "p", js "b", second, js "Lovelace", []⟩

def context (first second : Int) : Context Wrap Unit Unit Unit :=
  { deps :=
      { wrapId := fun w => (rumor first second w).id
        wrapCreatedAt := fun w => (rumor first second w).created_at
        unwrap := fun w _ => some (rumor first second w)
        parseJoin := fun content => some ⟨content, [], false⟩
        parseWithdrawal := fun _ => none
        parseSubmission := fun _ => none
        parseInviteTag := fun _ => none
        parseMemberOfTags := fun _ => [] }
    coordinate := js "e"
    inboxSks := [()] }

/-- A scan at a time that reads some wraps at once. -/
def scan (t : Int) (wraps : List Wrap) : Scan Wrap := ⟨t, wraps.map (·, t), true⟩

theorem idsDistinct (first second : Int) : IdsDistinct (context first second) := by
  intro w w' _ _ r r' hr hr' he
  cases hr
  cases hr'
  have hne : js "a" ≠ js "b" := by decide
  cases w <;> cases w'
  · rfl
  · exact absurd he hne
  · exact absurd he.symm hne
  · rfl

theorem rumorOf_context {first second : Int} {w : Wrap} : rumorOf (context first second) w = some (rumor first second w) := by
  cases w <;> rfl

/-- The name that the queue shows. -/
def shown (c : Context Wrap Unit Unit Unit) (scans : List (Scan Wrap)) (last : Scan Wrap) : List JsString :=
  (fetchPending c (cachedAfter c scans) last).1.map (·.name)

end TwoJoins

open TwoJoins

theorem queue_of_any_scans_twice :
    (fetchPending (context 100 200) (cachedAfter (context 100 200) [scan 1000 [.second], scan 2000 [.second]]) (scan 3000 [.first])).1 =
        (fetchPending (context 100 200) none (scan 4000 [.first, .second])).1 ∧
      QueueOf (context 100 200).deps (context 100 200).coordinate (rumorsOf (context 100 200) (scan 4000 [.first, .second]).wraps)
        (fetchPending (context 100 200) (cachedAfter (context 100 200) [scan 1000 [.second], scan 2000 [.second]])
          (scan 3000 [.first])).1 := by
  refine queue_of_any_scans (idsDistinct 100 200) (by decide) (fun s hs p hp r hr => ?_) fun w => ?_
  · have hlow : 1000 ≤ p.2 := by
      have hall : ∀ s ∈ [scan 1000 [.second], scan 2000 [.second]] ++ [scan 3000 [.first], scan 4000 [.first, .second]],
          ∀ p ∈ s.wraps, 1000 ≤ p.2 := by decide
      exact hall s hs p hp
    have hdate : r.created_at ≤ 200 := by
      rw [rumorOf_context] at hr
      cases hr
      cases p.1 <;> decide
    unfold rumorMaxClockSkewSec
    omega
  · constructor <;> intro _ <;> cases w <;> simp [scan, wrapsOf]

/-- Two joins dated far ahead: each is taken for as new as the scan that reads it, so that the one
read last wins, where a single scan keeps the one with the lower id. -/
theorem future_joins_differ :
    shown (context 9000 9000) [scan 1000 [.first]] (scan 2000 [.second]) = [js "Lovelace"] ∧
      shown (context 9000 9000) [] (scan 3000 [.first, .second]) = [js "Ada"] ∧
      (fetchPending (context 9000 9000) (cachedAfter (context 9000 9000) [scan 1000 [.first]]) (scan 2000 [.second])).1 ≠
        (fetchPending (context 9000 9000) none (scan 3000 [.first, .second])).1 := by
  have hlast : shown (context 9000 9000) [scan 1000 [.first]] (scan 2000 [.second]) = [js "Lovelace"] := by decide
  have hsingle : shown (context 9000 9000) [] (scan 3000 [.first, .second]) = [js "Ada"] := by decide
  refine ⟨hlast, hsingle, fun he => ?_⟩
  have hshown := congrArg (List.map (·.name)) he
  rw [shown] at hlast hsingle
  rw [hlast] at hshown
  exact absurd (hshown.trans hsingle) (by decide)

end Nostrautica.Pending
