/-
The member cap (`roster_within`): in runs in which a member is written onto the
roster that was probed, or onto one with room, the approved set always splits
into pages. A member written elsewhere than at the end of the roster may take a
page more than the probe counted, and at most one (`packed_approved_le`).
-/
import Nostrautica.Coordinator.Capacity
import Nostrautica.Protocol.RosterPacking

set_option linter.unusedSectionVars false

namespace Nostrautica.Capacity

open Js Roster Tasks

variable {s s' : Store} {w w' : World} {x : Act} {xs : List Act} {k n : Nat} {a : Answer} {pc q : Pc} {p : Hex32}
  {role : Option RosterRole} {e : Effect} {es : List Effect} {c : Contents} {l l' l₁ l₂ : List RosterAttendee}
  {entry : RosterAttendee} {r : RosterContent}

/-- The approved members are within the cap, and their roster splits into pages. -/
structure Within (s : Store) : Prop where
  members : s.approvedAttendeeCount ≤ maxRoster
  pages : rosterPageCount (buildRosterContent s none) ≤ maxRosterPages
  splits : ∃ pages, splitRoster (buildRosterContent s none) = .ok pages

/-! ## Rosters -/

theorem entry_schema (c : Contents) (p : Hex32) (role : RosterRole) : rosterAttendeeSchema (c.entry p role) = true := by
  have hkeys : ((c.chatKeys p).take maxChatKeysPerAccount).all rosterChatKeySchema = true :=
    List.all_eq_true.mpr fun k hk => List.all_eq_true.mp (c.keys_ok p) k (List.mem_of_mem_take hk)
  have hd := c.d_ok p
  simp only [rosterAttendeeSchema, Contents.entry, Bool.and_eq_true]
  refine ⟨⟨p.ok, decide_eq_true hd⟩, ?_⟩
  split
  · simp only [Option.all_some, Bool.and_eq_true, decide_eq_true_eq]
    exact ⟨List.length_take_le _ _, hkeys⟩
  · rfl

/-- Entries the schema takes. -/
def Valid (l : List RosterAttendee) : Prop := ∀ a ∈ l, rosterAttendeeSchema a = true

theorem valid_entries (s : Store) : Valid (entries s) := by
  intro a ha
  obtain ⟨row, -, rfl⟩ := List.mem_map.mp ha
  exact entry_schema _ _ _

theorem shaped_rosterOf (hl : Valid l) : rosterShaped (c.rosterOf l) = true := by
  simp [rosterShaped, Contents.rosterOf, c.eck_ok, c.group_ok, List.all_eq_true.mpr hl]

theorem shaped_buildRosterContent (s : Store) (p : Option Hex32) : rosterShaped (buildRosterContent s p) = true := by
  refine shaped_rosterOf fun a ha => ?_
  rcases List.mem_append.mp ha with ha | ha
  · exact valid_entries s a ha
  · cases p with
    | none => cases ha
    | some p =>
      simp only at ha
      split at ha
      · cases ha
      · rw [List.mem_singleton.mp ha]
        exact entry_schema _ _ _

/-- The pages the entries are packed into. -/
def packed (c : Contents) (l : List RosterAttendee) : Nat := (packPages (c.rosterOf l)).length

theorem packed_sublist (h : l.Sublist l') (hl : Valid l') : packed c l ≤ packed c l' :=
  length_packPages_sublist (shaped_rosterOf fun a ha => hl a (h.subset ha)) (shaped_rosterOf hl) (fun _ => rfl) (h.map entryBytes)

theorem packed_insert_le (hl : Valid (l₁ ++ entry :: l₂)) : packed c (l₁ ++ entry :: l₂) ≤ packed c (l₁ ++ l₂) + 1 := by
  have hl' : Valid (l₁ ++ l₂) := fun a ha => hl a (((List.sublist_cons_self entry l₂).append_left l₁).subset ha)
  exact length_packPages_insert (r := c.rosterOf (l₁ ++ l₂)) (l := l₁.map entryBytes) (m := l₂.map entryBytes)
    (e := entryBytes entry) (shaped_rosterOf hl') (shaped_rosterOf hl) (fun _ => rfl) (List.map_append ..) (by
      simp [RosterContent.sizes, Contents.rosterOf])

theorem length_entries (s : Store) : (entries s).length = s.approvedAttendeeCount := List.length_map _

theorem buildRosterContent_none (s : Store) : buildRosterContent s none = s.contents.rosterOf (entries s) := by
  simp [buildRosterContent]

/-! ## The rows -/

/-- An effect that takes no member onto the roster. -/
def Effect.Mild : Effect → Prop
  | .approved _ _ => False
  | _ => True

/-- What an upsert makes of the approved rows. -/
theorem approved_upsert (s : Store) (p : Hex32) (status : Status) (role : Option RosterRole) :
    ∃ l₁ l₂ old, s.approvedAttendees = l₁ ++ (old.filter (·.status = .approved)).toList ++ l₂ ∧
      (s.upsertAttendee p status role).approvedAttendees =
        l₁ ++ (if status = .approved then [.upsert p status role old] else []) ++ l₂ ∧ s.getAttendee p = old := by
  obtain ⟨l₁, l₂, old, hrows, hput, hfind, -⟩ := put_spec p (.upsert p status role) s.rows
  refine ⟨l₁.filter (·.status = .approved), l₂.filter (·.status = .approved), old, ?_, ?_, hfind⟩
  · rw [Store.approvedAttendees, hrows, List.filter_append, List.filter_append]
    congr 2
    cases old with
    | none => rfl
    | some row => by_cases h : row.status = .approved <;> simp [h, Option.filter]
  · show (put p (.upsert p status role) s.rows).filter (·.status = .approved) = _
    rw [hput, List.filter_append, List.filter_cons, List.append_assoc]
    by_cases h : status = .approved <;> simp [AttendeeRow.upsert, h]

theorem contents_upsert : (s.upsertAttendee p status role).contents = s.contents := rfl

theorem approvedAttendees_apply (h : e.Mild) : ((s.apply e).approvedAttendees).Sublist s.approvedAttendees := by
  cases e with
  | enrolled p =>
    obtain ⟨l₁, l₂, old, hs, hs', -⟩ := approved_upsert s p .pending none
    rw [Store.apply, hs, hs', if_neg (by decide), List.append_nil]
    exact (List.sublist_append_left l₁ _).append_right l₂
  | approved => exact h.elim
  | purged p => exact List.Sublist.filter _ List.filter_sublist
  | lifted => exact List.Sublist.refl _

theorem contents_apply : (s.apply e).contents = s.contents := by
  cases e <;> rfl

/-! ## The invariant -/

/-- The caps, in the form in which they are kept. -/
structure Kept (s : Store) : Prop where
  members : s.approvedAttendeeCount ≤ maxRoster
  pages : packed s.contents (entries s) ≤ maxRosterPages

/-- The roster an admission was probed with. -/
def Pc.probed : Pc → Option RosterContent
  | .joinAdmitted _ r | .approveAdmitted _ r => some r
  | _ => none

/-- The member a task is about to write as approved. -/
def Pc.writes : Pc → Option (Hex32 × Option RosterRole)
  | .joinAdmitted j _ => some (j.pubkey, none)
  | .approveAdmitted p _ => some (p, none)
  | .seeding p role _ => some (p, some role)
  | _ => none

/-- The caps hold, and every roster probed was within them. -/
structure Sound (w : World) : Prop where
  kept : Kept w.store
  probed : ∀ k pc r, w.tasks k = some pc → pc.probed = some r → fits r = true ∧ rosterShaped r = true

theorem Kept.within (h : Kept s) : Within s := by
  have hshaped := shaped_buildRosterContent s none
  have hpages : (packPages (buildRosterContent s none)).length ≤ maxRosterPages := buildRosterContent_none s ▸ h.pages
  refine ⟨h.members, ?_, splitRoster_ok hshaped ?_ hpages⟩
  · rw [rosterPageCount]
    split
    · decide
    · exact hpages
  · rw [buildRosterContent_none]
    exact (length_entries s).trans_le h.members

theorem Kept.sublist (h : Kept s) (hc : s'.contents = s.contents) (hs : s'.approvedAttendees.Sublist s.approvedAttendees) :
    Kept s' := by
  refine ⟨hs.length_le.trans h.members, ?_⟩
  have hentries : (entries s').Sublist (entries s) := by
    rw [entries, hc]
    exact hs.map _
  rw [hc]
  exact (packed_sublist hentries (valid_entries s)).trans h.pages

/-- No effect but an approval takes a place. -/
theorem Kept.mild {l : List Effect} (h : Kept s) (hl : ∀ e ∈ l, e.Mild) : Kept (rules.run s l) :=
  Rules.run_invariant (fun e he _ ht => ht.sublist contents_apply (approvedAttendees_apply (hl e he))) h

/-! ## What a timely act does -/

/-- The row is approved as it is. -/
def Approved (s : Store) (p : Hex32) (role : Option RosterRole) : Prop :=
  ∃ row, s.getAttendee p = some row ∧ row.status = .approved ∧ ∀ r, role = some r → r = row.role

/-- There is room for one more member, wherever the row is. -/
def Room (s : Store) : Prop := s.approvedAttendeeCount < maxRoster ∧ packed s.contents (entries s) < maxRosterPages

/-- The roster is the one probed, and the member takes no more pages where the row
is than at the end. -/
def AsProbed (s : Store) (pc : Pc) (p : Hex32) (role : Option RosterRole) : Prop :=
  pc.probed = some (buildRosterContent s (some p)) ∧
    packed s.contents (entries (s.upsertAttendee p .approved role)) ≤ (packPages (buildRosterContent s (some p))).length

/-- The task goes on, to its next await or until the process ends. -/
def Act.goesOn (x : Act) (k : Nat) (a : Answer) : Prop := x = .settle k a ∨ ∃ n, x = .crashDuring k a n

/-- A member is written onto the roster that was probed, or where there is room;
and what else changes on the roster leaves it within its pages. -/
structure Timely (w : World) (x : Act) : Prop where
  written : ∀ k a pc p role, x.goesOn k a → w.tasks k = some pc → pc.writes = some (p, role) →
    Approved w.store p role ∨ Room w.store ∨ AsProbed w.store pc p role
  rewritten : ∀ c, x = .rewrite c → packed c (entries { w.store with contents := c }) ≤ maxRosterPages

/-! ## Writing a member -/

/-- A row approved as it is stays as it is. -/
theorem approved_again (h : Approved s p role) : (s.upsertAttendee p .approved role).approvedAttendees = s.approvedAttendees := by
  obtain ⟨row, hrow, hst, hrole⟩ := h
  obtain ⟨l₁, l₂, old, hs, hs', hold⟩ := approved_upsert s p .approved role
  rw [hrow] at hold
  subst hold
  have hp : row.pubkey = p := by simpa using List.find?_some hrow
  have hrow' : AttendeeRow.upsert p .approved role (some row) = row := by
    obtain ⟨pubkey, status, role'⟩ := row
    cases hst
    cases hp
    cases role with
    | none => rfl
    | some r =>
      cases hrole r rfl
      rfl
  rw [hs, hs', hrow']
  simp [hst, Option.filter]

/-- **A member approved takes a place and a page at most.** -/
theorem packed_approved_le (s : Store) (p : Hex32) (role : Option RosterRole) :
    (s.upsertAttendee p .approved role).approvedAttendeeCount ≤ s.approvedAttendeeCount + 1 ∧
      packed s.contents (entries (s.upsertAttendee p .approved role)) ≤ packed s.contents (entries s) + 1 := by
  obtain ⟨l₁, l₂, old, hs, hs', -⟩ := approved_upsert s p .approved role
  rw [if_pos rfl] at hs'
  refine ⟨?_, ?_⟩
  · rw [Store.approvedAttendeeCount, Store.approvedAttendeeCount, hs, hs']
    simp only [List.length_append, List.length_singleton]
    omega
  · have hvalid := valid_entries (s.upsertAttendee p .approved role)
    have hsub : (l₁ ++ l₂).Sublist s.approvedAttendees := by
      rw [hs]
      exact (List.sublist_append_left l₁ _).append_right l₂
    rw [entries, hs', contents_upsert, List.append_assoc, List.map_append, List.map_append, List.map_singleton] at hvalid ⊢
    refine (packed_insert_le hvalid).trans (Nat.succ_le_succ (packed_sublist ?_ (valid_entries s)))
    show (l₁.map _ ++ l₂.map _).Sublist _
    rw [← List.map_append]
    exact hsub.map _

/-- The roster probed counts the member once. -/
theorem count_approved_le (s : Store) (p : Hex32) (role : Option RosterRole) :
    (s.upsertAttendee p .approved role).approvedAttendeeCount ≤
      max s.approvedAttendeeCount (buildRosterContent s (some p)).attendees.length := by
  obtain ⟨l₁, l₂, old, hs, hs', hold⟩ := approved_upsert s p .approved role
  rw [if_pos rfl] at hs'
  have hcount : (s.upsertAttendee p .approved role).approvedAttendeeCount = l₁.length + 1 + l₂.length := by
    rw [Store.approvedAttendeeCount, hs', List.length_append, List.length_append, List.length_singleton]
  by_cases happroved : ∃ row ∈ s.approvedAttendees, row.pubkey = p
  · refine le_max_of_le_left ?_
    obtain ⟨row, hrow, hp⟩ := happroved
    obtain ⟨hmem, hst⟩ := List.mem_filter.mp hrow
    -- no other row is the member's
    have hfind : s.getAttendee p = some row := by
      cases hget : s.getAttendee p with
      | none =>
        rw [Store.getAttendee, List.find?_eq_none] at hget
        exact absurd (decide_eq_true hp) (hget row hmem)
      | some row' =>
        have hp' : row'.pubkey = p := by simpa using List.find?_some hget
        rw [List.inj_on_of_nodup_map s.distinct (List.mem_of_find?_eq_some hget) hmem (hp'.trans hp.symm)]
    rw [hfind] at hold
    subst hold
    rw [hcount, Store.approvedAttendeeCount, hs, Option.filter, if_pos hst]
    simp only [List.length_append, Option.toList_some, List.length_singleton, le_refl]
  · refine le_max_of_le_right ?_
    have hany : s.approvedAttendees.any (·.pubkey = p) = false := by
      rw [List.any_eq_false]
      exact fun row hrow hp => happroved ⟨row, hrow, of_decide_eq_true hp⟩
    have hlen : (buildRosterContent s (some p)).attendees.length = s.approvedAttendeeCount + 1 := by
      simp only [buildRosterContent, Contents.rosterOf, hany, Bool.false_eq_true, if_false, List.length_append,
        length_entries, List.length_singleton]
    rw [hlen, hcount, Store.approvedAttendeeCount, hs]
    simp only [List.length_append]
    omega

theorem Kept.approved (h : Kept s) (hf : ∀ r, pc.probed = some r → fits r = true ∧ rosterShaped r = true)
    (hx : Approved s p role ∨ Room s ∨ AsProbed s pc p role) : Kept (s.upsertAttendee p .approved role) := by
  rcases hx with hx | hx | hx
  · exact h.sublist rfl (approved_again hx ▸ List.Sublist.refl _)
  · obtain ⟨hcount, hpages⟩ := packed_approved_le s p role
    exact ⟨hcount.trans hx.1, hpages.trans hx.2⟩
  · obtain ⟨hfits, hshaped⟩ := hf _ hx.1
    simp only [fits, Bool.and_eq_true, decide_eq_true_eq] at hfits
    refine ⟨(count_approved_le s p role).trans (max_le h.members hfits.1), hx.2.trans (length_packPages_le hshaped hfits.2)⟩

/-! ## What a task does -/

theorem pendingQueueFull_mild {idle : List Hex32} : ∀ e ∈ (pendingQueueFull s idle).1, e.Mild := by
  unfold pendingQueueFull
  split
  · nofun
  · intro e he
    obtain ⟨p, -, rfl⟩ := List.mem_map.mp he
    trivial

theorem handleJoin_mild {j : Join} : ∀ e ∈ (handleJoin s j).1, e.Mild := by
  dsimp only [handleJoin]
  split_ifs
  all_goals first | exact pendingQueueFull_mild | simp [Effect.Mild]
  · exact pendingQueueFull_mild
  · intro e he
    rcases he with he | rfl
    · exact pendingQueueFull_mild e he
    · trivial

theorem finishPending_mild {j : Join} {full : Bool} : ∀ e ∈ (finishPending s j full).1, e.Mild := by
  unfold finishPending
  split <;> simp [Effect.Mild]

theorem decide_mild {j : Join} {existing : Option Status} {full : Bool} : ∀ e ∈ (decide_ s j existing full a).1, e.Mild := by
  dsimp only [decide_]
  split_ifs
  all_goals first | exact finishPending_mild | simp [Effect.Mild]

theorem handleApprove_mild : ∀ e ∈ (handleApprove s p).1, e.Mild := by
  dsimp only [handleApprove]
  split_ifs <;> simp [Effect.Mild]

/-- A task writes one member as approved at most, and does that last. -/
theorem settle_effects (s : Store) (pc : Pc) (a : Answer) :
    (∀ e ∈ (settle s pc a).1, e.Mild) ∨ ∃ p role, pc.writes = some (p, role) ∧
      ((settle s pc a).1 = [.approved p role] ∨ (settle s pc a).1 = [.lifted p, .approved p role]) := by
  cases pc with
  | join j => exact .inl handleJoin_mild
  | entitlement j existing full => exact .inl decide_mild
  | joinAdmitted j r =>
    cases hlive : a.live with
    | true => exact .inr ⟨_, _, rfl, .inl (by simp [settle, hlive])⟩
    | false => exact .inl (by simp [settle, hlive])
  | joinRefused j existing full =>
    refine .inl ?_
    simp only [settle]
    split
    · nofun
    · exact finishPending_mild
  | approve p => exact .inl handleApprove_mild
  | approveAdmitted p r => exact .inr ⟨_, _, rfl, .inr rfl⟩
  | tail => exact .inl nofun
  | seeding p role rest => exact .inr ⟨_, _, rfl, .inl rfl⟩

theorem seed_probed {members : List (Hex32 × RosterRole)} (h : seed s members = some q) : q.probed = none := by
  induction members with
  | nil => cases h
  | cons m members ih =>
    simp only [seed] at h
    split_ifs at h
    · exact ih h
    · exact ih h
    · cases h
      rfl

/-- Only an admission that fits goes on. -/
theorem settle_probed (h : (settle s pc a).2 = some q) (hr : q.probed = some r) : fits r = true ∧ rosterShaped r = true := by
  cases pc with
  | join j =>
    simp only [settle, handleJoin] at h
    split_ifs at h <;> cases h <;> cases hr
  | entitlement j existing full =>
    simp only [settle, decide_, finishPending] at h
    split_ifs at h
    next hfit =>
      cases h
      cases hr
      exact ⟨hfit, shaped_buildRosterContent s _⟩
    all_goals first | cases h; done | (cases h; cases hr)
  | joinAdmitted j r' =>
    simp only [settle] at h
    split at h <;> cases h
    cases hr
  | joinRefused j existing full =>
    simp only [settle, finishPending] at h
    split_ifs at h
  | approve p =>
    dsimp only [settle, handleApprove] at h
    by_cases hfit : rosterCapacity s p = true
    · rw [if_pos hfit] at h
      split_ifs at h <;> cases h <;> cases hr <;> exact ⟨hfit, shaped_buildRosterContent s _⟩
    · rw [if_neg hfit] at h
      split_ifs at h <;> cases h <;> cases hr
  | approveAdmitted p r' =>
    cases h
    cases hr
  | tail => cases h
  | seeding p role rest =>
    rw [seed_probed h] at hr
    cases hr

/-! ## Runs -/

theorem sound_fresh (h : Kept s) : Sound (.fresh s) := ⟨h, nofun⟩

/-- What a task that goes on writes, whole or in part, is within the caps. -/
theorem Sound.effects (hw : Sound w) (hx : Timely w x) (hg : x.goesOn k a) (hk : w.tasks k = some pc) (n : Nat) :
    Kept (rules.run w.store ((settle w.store pc a).1.take n)) := by
  rcases settle_effects w.store pc a with hmild | ⟨p, role, hwrites, hes⟩
  · exact hw.kept.mild fun e he => hmild e (List.mem_of_mem_take he)
  · have hone := hw.kept.approved (fun r => hw.probed k pc r hk) (hx.written k a pc p role hg hk hwrites)
    rcases hes with hes | hes <;> rw [hes]
    · match n with
      | 0 => exact hw.kept
      | n + 1 =>
        rw [List.take_of_length_le (by simp)]
        exact hone
    · match n with
      | 0 => exact hw.kept
      | 1 => exact hw.kept.mild (l := [.lifted p]) (by simp [Effect.Mild])
      | n + 2 =>
        rw [List.take_of_length_le (by simp)]
        exact ⟨hone.members, hone.pages⟩

/-- A task begins, with no roster probed yet. -/
theorem Sound.begins (hw : Sound w) (h : begin_ w k pc = some w') (hp : pc.probed = none) : Sound w' := by
  simp only [begin_] at h
  split at h <;> cases h
  refine ⟨hw.kept, fun j q r hj hr => ?_⟩
  rw [World.spawn_tasks] at hj
  split at hj
  · cases hj
    rw [hp] at hr
    cases hr
  · exact hw.probed j q r hj hr

theorem Sound.step (hw : Sound w) (h : Step w x w') (hx : Timely w x) : Sound w' := by
  cases x with
  | join k j => exact hw.begins h rfl
  | approve k p => exact hw.begins h rfl
  | handover k members =>
    simp only [Step, act] at h
    split at h
    next pc hseed => exact hw.begins h (seed_probed hseed)
    next =>
      cases h
      exact hw
  | settle k a =>
    obtain ⟨r, hr, rfl⟩ := Option.map_eq_some_iff.mp h
    obtain ⟨pc, hk, hr⟩ := Option.bind_eq_some_iff.mp hr
    split at hr <;> cases hr
    have hkept := hw.effects hx (.inl rfl) hk (settle w.store pc a).1.length
    rw [List.take_length] at hkept
    refine ⟨hkept, fun j q r hj hr => ?_⟩
    rw [Rules.advance_tasks] at hj
    split at hj
    · exact settle_probed hj hr
    · exact hw.probed j q r hj hr
  | leave p tombstone =>
    simp only [Step, act] at h
    split at h <;> cases h
    obtain ⟨l₁, l₂, old, hs, hs', -⟩ := approved_upsert w.store p .revoked none
    refine ⟨hw.kept.sublist rfl ?_, hw.probed⟩
    show ((w.store.upsertAttendee p .revoked none).approvedAttendees).Sublist _
    rw [hs, hs', if_neg (by decide), List.append_nil]
    exact (List.sublist_append_left l₁ _).append_right l₂
  | erase p =>
    cases h
    exact ⟨hw.kept.mild (l := [.purged p]) (by simp [Effect.Mild]), hw.probed⟩
  | rewrite c =>
    cases h
    exact ⟨⟨hw.kept.members, hx.rewritten c rfl⟩, hw.probed⟩
  | crash =>
    cases h
    exact sound_fresh hw.kept
  | crashDuring k a n =>
    obtain ⟨r, hr, rfl⟩ := Option.map_eq_some_iff.mp h
    obtain ⟨pc, hk, hr⟩ := Option.bind_eq_some_iff.mp hr
    split at hr <;> cases hr
    exact sound_fresh (hw.effects hx (.inr ⟨n, rfl⟩) hk n)

/-- A roster that splits takes no more pages than there may be. -/
theorem Within.kept (h : Within s) : Kept s :=
  ⟨h.members, length_packPages_le (shaped_rosterOf (valid_entries s)) (buildRosterContent_none s ▸ h.pages)⟩

/-- **The member cap holds**, in every run of timely acts. -/
theorem roster_within (hs : Within s) (h : Run (fun w x w' => Step w x w' ∧ Timely w x) (.fresh s) xs w) : Within w.store :=
  (h.invariant (I := Sound) (fun _ _ _ hw hx => hw.step hx.1 hx.2) (sound_fresh hs.kept)).kept.within

/-! ## Rosters of bare entries -/

/-- Accounts without chat keys, with a hash for a `d`. -/
def Contents.Bare (c : Contents) : Prop := ∀ p, c.chatKeys p = [] ∧ (c.blindedD p).length ≤ 64

theorem entryBytes_le_of_bare (hc : c.Bare) {role : RosterRole} : entryBytes (c.entry p role) ≤ 1000 := by
  obtain ⟨hkeys, hd⟩ := hc p
  have h1 := (fieldBytes_str "pubkey" p.val).2
  have h2 := (fieldBytes_str "d" (c.blindedD p)).2
  have h3 : fieldBytes (field "role" role.toJson) ≤ 18 := by
    cases role <;> decide
  have k1 : quoteBytes (js "pubkey") = 8 := by decide
  have k2 : quoteBytes (js "d") = 3 := by decide
  rw [length_of_isHex32 p.ok] at h1
  have he : entryBytes (c.entry p role) = (c.entry p role).toJson.bytes + 1 := rfl
  rw [he, RosterAttendee.toJson, bytes_obj, commaSum]
  simp only [Contents.entry, hkeys, List.take_nil, List.length_nil, lt_irrefl, if_false, Option.map_none, Option.toList_none,
    List.append_nil, List.map_cons, List.map_nil, List.sum_cons, List.sum_nil]
  omega

/-- A full roster of bare entries is within its pages. -/
theorem packed_le_of_bare (hc : c.Bare) (hl : ∀ a ∈ l, ∃ p role, a = c.entry p role) (hn : l.length ≤ maxRoster) :
    packed c l ≤ maxRosterPages := by
  have hvalid : Valid l := by
    intro a ha
    obtain ⟨p, role, rfl⟩ := hl a ha
    exact entry_schema c p role
  have hb : ∀ e ∈ (c.rosterOf l).sizes, e ≤ 1000 := by
    intro e he
    obtain ⟨a, ha, rfl⟩ := List.mem_map.mp he
    obtain ⟨p, role, rfl⟩ := hl a ha
    exact entryBytes_le_of_bare hc
  have hmul := length_packPages_mul_le (shaped_rosterOf hvalid) hb (by decide)
  have hsum : (c.rosterOf l).sizes.sum ≤ l.length * 1000 := by
    have := List.sum_le_card_nsmul (c.rosterOf l).sizes 1000 hb
    simpa [RosterContent.sizes, Contents.rosterOf] using this
  simp only [maxRoster] at hn
  simp only [packed, maxRosterPages]
  omega

theorem packed_entries_of_bare (hc : s.contents.Bare) (hn : s.approvedAttendeeCount ≤ maxRoster) :
    packed s.contents (entries s) ≤ maxRosterPages :=
  packed_le_of_bare hc (fun a ha => by
    obtain ⟨row, -, rfl⟩ := List.mem_map.mp ha
    exact ⟨_, _, rfl⟩) ((length_entries s).trans_le hn)

/-- Where every entry is bare, the probe counts members only. -/
theorem rosterCapacity_of_bare (hc : s.contents.Bare) (hn : s.approvedAttendeeCount < maxRoster) : rosterCapacity s p = true := by
  have hlen : (buildRosterContent s (some p)).attendees.length ≤ maxRoster := by
    simp only [buildRosterContent, Contents.rosterOf, List.length_append, length_entries]
    split <;> simp only [List.length_nil, List.length_singleton] <;> omega
  have hpacked : (packPages (buildRosterContent s (some p))).length ≤ maxRosterPages := by
    refine packed_le_of_bare hc (fun a ha => ?_) hlen
    rcases List.mem_append.mp ha with ha | ha
    · obtain ⟨row, -, rfl⟩ := List.mem_map.mp ha
      exact ⟨_, _, rfl⟩
    · simp only at ha
      split at ha
      · cases ha
      · exact ⟨_, _, List.mem_singleton.mp ha⟩
  simp only [rosterCapacity, fits, Bool.and_eq_true, decide_eq_true_eq]
  refine ⟨hlen, ?_⟩
  rw [rosterPageCount]
  split
  · decide
  · exact hpacked

/-- What a roster of bare entries says. -/
def Small.contents : Contents where
  eckCurrent := 1
  nostrGroupId := none
  blindedD p := p.val
  chatKeys _ := []
  eck_ok := by decide +kernel
  group_ok := rfl
  d_ok p := by simp [length_of_isHex32 p.ok, maxD]
  keys_ok _ := rfl

theorem Small.bare : Small.contents.Bare := fun p => ⟨rfl, (length_of_isHex32 p.ok).le⟩

/-- The `n`th key. -/
def Small.key (n : Nat) : Hex32 where
  val := List.replicate 61 (hexUnit 0) ++ [hexUnit (n / 256 % 16), hexUnit (n / 16 % 16), hexUnit (n % 16)]
  ok := by
    have h : ∀ d < 16, isLowerHexDigit (hexUnit d) = true := by decide +kernel
    simp only [isHex32, isLowerHex, List.length_append, List.length_replicate, List.length_cons, List.length_nil,
      List.all_append, List.all_cons, List.all_nil, h _ (Nat.mod_lt _ (by decide : 16 > 0)), Bool.and_true, Bool.and_eq_true]
    refine ⟨rfl, List.all_eq_true.mpr fun c hc => ?_⟩
    rw [List.eq_of_mem_replicate hc]
    exact h 0 (by decide)

theorem Small.key_inj {m n : Nat} (hm : m < 4096) (hn : n < 4096) (h : Small.key m = Small.key n) : m = n := by
  have hunit : ∀ d < 16, ∀ e < 16, hexUnit d = hexUnit e → d = e := by decide +kernel
  have hval := List.append_cancel_left (Hex32.val_inj.mpr h)
  simp only [List.cons.injEq, and_true] at hval
  have h1 := hunit _ (Nat.mod_lt _ (by decide)) _ (Nat.mod_lt _ (by decide)) hval.1
  have h2 := hunit _ (Nat.mod_lt _ (by decide)) _ (Nat.mod_lt _ (by decide)) hval.2.1
  have h3 := hunit _ (Nat.mod_lt _ (by decide)) _ (Nat.mod_lt _ (by decide)) hval.2.2
  omega

/-- The first `n` keys are approved. -/
def Small.approved (n : Nat) (hn : n < 4096) : Store where
  rows := (List.range n).map fun i => ⟨Small.key i, .approved, .attendee⟩
  revocations _ := false
  contents := Small.contents
  distinct := by
    rw [List.map_map]
    refine List.Nodup.map_on (fun i hi j hj h => ?_) List.nodup_range
    exact Small.key_inj (by have := List.mem_range.mp hi; omega) (by have := List.mem_range.mp hj; omega) h

theorem Small.count_approved {n : Nat} (hn : n < 4096) : (Small.approved n hn).approvedAttendeeCount = n := by
  simp [Store.approvedAttendeeCount, Store.approvedAttendees, Small.approved, List.filter_map, Function.comp_def]

theorem Small.getAttendee_approved {m n : Nat} (hn : n < 4096) (hm : n ≤ m) (hm' : m < 4096) :
    (Small.approved n hn).getAttendee (Small.key m) = none := by
  rw [Store.getAttendee, List.find?_eq_none]
  intro row hrow
  obtain ⟨i, hi, rfl⟩ := List.mem_map.mp hrow
  have hi := List.mem_range.mp hi
  simp only [decide_eq_true_eq]
  exact fun h => absurd (Small.key_inj (by omega) hm' h) (by omega)

theorem Small.within_approved {n : Nat} (hn : n ≤ maxRoster) : Within (Small.approved n (hn.trans_lt (by decide))) :=
  Kept.within ⟨(Small.count_approved _).trans_le hn, packed_entries_of_bare Small.bare ((Small.count_approved _).trans_le hn)⟩

theorem Small.bare_approved {n : Nat} (hn : n < 4096) : (Small.approved n hn).contents.Bare := Small.bare

/-! ## An approve, act by act -/

theorem act_approve (hk : w.tasks k = none) : act w (.approve k p) = some (w.spawn k (.approve p)) := by
  simp [act, begin_, hk]

theorem act_settle (hk : w.tasks k = some pc) (hr : rules.ready w k pc = true) :
    act w (.settle k a) = some (rules.advance w k (settle w.store pc a).1 (settle w.store pc a).2) := by
  simp [act, result, hk, hr]

/-- A member without a row is enrolled and probed. -/
theorem handleApprove_new (hg : s.getAttendee p = none) (hn : s.approvedAttendeeCount < maxRoster) (hc : s.contents.Bare) :
    handleApprove s p = ([.enrolled p], some (.approveAdmitted p (buildRosterContent s (some p)))) := by
  have hcap := rosterCapacity_of_bare (p := p) hc hn
  have hn' : ¬ maxAttendeesPerEvent ≤ s.approvedAttendeeCount := Nat.not_le.mpr hn
  simp [handleApprove, hg, hn', hcap]

/-- The row of another member is as it was. -/
theorem getAttendee_upsert_ne {q : Hex32} {status : Status} (hq : q ≠ p) :
    (s.upsertAttendee p status role).getAttendee q = s.getAttendee q := by
  obtain ⟨l₁, l₂, old, hrows, hput, hfind, -⟩ := put_spec p (.upsert p status role) s.rows
  have hold : old.toList.find? (·.pubkey = q) = none := by
    cases old with
    | none => rfl
    | some row =>
      have hp : row.pubkey = p := by simpa using List.find?_some hfind
      simp [hp, hq.symm]
  show (put p (.upsert p status role) s.rows).find? (·.pubkey = q) = s.rows.find? (·.pubkey = q)
  rw [hput, hrows]
  simp [List.find?_append, hold, AttendeeRow.upsert, hq.symm]

theorem getAttendee_upsert_self {status : Status} :
    ((s.upsertAttendee p status role).getAttendee p).map (·.status) = some status := by
  have hput : ∀ rows, ((put p (.upsert p status role) rows).find? (·.pubkey = p)).map (·.status) = some status := by
    intro rows
    induction rows with
    | nil => simp [put, AttendeeRow.upsert]
    | cons row rows ih => by_cases hp : row.pubkey = p <;> simp_all [put, AttendeeRow.upsert]
  exact hput s.rows

theorem count_upsert {status : Status} (hg : (s.getAttendee p).map (·.status) ≠ some .approved) :
    (s.upsertAttendee p status role).approvedAttendeeCount = s.approvedAttendeeCount + if status = .approved then 1 else 0 := by
  obtain ⟨l₁, l₂, old, hs, hs', hold⟩ := approved_upsert s p status role
  have hnone : old.filter (·.status = .approved) = none := by
    rw [hold] at hg
    cases old with
    | none => rfl
    | some row => simpa [Option.filter] using hg
  rw [hnone] at hs
  rw [Store.approvedAttendeeCount, Store.approvedAttendeeCount, hs, hs']
  split <;> simp only [List.length_append, List.length_singleton, List.length_nil, Option.toList_none] <;> omega

theorem count_enrolled (hg : s.getAttendee p = none) :
    (rules.run s [.enrolled p]).approvedAttendeeCount = s.approvedAttendeeCount :=
  count_upsert (by simp [hg])

theorem count_written (hg : (s.getAttendee p).map (·.status) ≠ some .approved) :
    (rules.run s [.lifted p, .approved p none]).approvedAttendeeCount = s.approvedAttendeeCount + 1 :=
  count_upsert (s := s.apply (.lifted p)) hg

theorem getAttendee_enrolled {q : Hex32} (hq : q ≠ p) : (rules.run s [.enrolled p]).getAttendee q = s.getAttendee q :=
  getAttendee_upsert_ne hq

theorem status_enrolled : ((rules.run s [.enrolled p]).getAttendee p).map (·.status) = some .pending :=
  getAttendee_upsert_self

theorem getAttendee_written {q : Hex32} (hq : q ≠ p) :
    (rules.run s [.lifted p, .approved p none]).getAttendee q = s.getAttendee q :=
  getAttendee_upsert_ne (s := s.apply (.lifted p)) hq

/-- A member without a row is enrolled and probed, where their lock is free. -/
theorem act_settle_approve (hk : w.tasks k = some (.approve p)) (hl : w.locks p = none) (hg : w.store.getAttendee p = none)
    (hn : w.store.approvedAttendeeCount < maxRoster) (hc : w.store.contents.Bare) :
    act w (.settle k a) = some (rules.advance w k [.enrolled p] (some (.approveAdmitted p (buildRosterContent w.store (some p))))) := by
  rw [act_settle hk (by simp [Rules.ready, rules, hl])]
  simp only [settle]
  rw [handleApprove_new hg hn hc]

theorem act_settle_admitted (hk : w.tasks k = some (.approveAdmitted p r)) :
    act w (.settle k a) = some (rules.advance w k [.lifted p, .approved p none] (some (.tail p))) := by
  rw [act_settle hk (by simp [Rules.ready, rules])]
  rfl

/-- An act that writes nobody, or where there is room. -/
theorem timely_of_room (h : ∀ k a pc p role, x.goesOn k a → w.tasks k = some pc → pc.writes = some (p, role) → Room w.store)
    (hx : ∀ c, x ≠ .rewrite c) : Timely w x :=
  ⟨fun k a pc p role hg hk hw => .inr (.inl (h k a pc p role hg hk hw)), fun c hc => (hx c hc).elim⟩

theorem room_of_empty (hn : s.approvedAttendeeCount = 0) : Room s := by
  have hnil : entries s = [] := List.eq_nil_of_length_eq_zero ((length_entries s).trans hn)
  refine ⟨by rw [hn]; decide, ?_⟩
  rw [hnil]
  have hone : packed s.contents [] = 1 := rfl
  rw [hone]
  decide

/-- The organizer approves one member. -/
def Small.approval (p : Hex32) : List Act := [.approve 1 p, .settle 1 ⟨true, true⟩, .settle 1 ⟨true, true⟩]

/-- The first member is approved in time. -/
theorem run_approval (hc : s.contents.Bare) (hn : s.approvedAttendeeCount = 0) (hg : s.getAttendee p = none) :
    ∃ w, Run (fun w x w' => Step w x w' ∧ Timely w x) (.fresh s) (Small.approval p) w ∧ w.store.approvedAttendeeCount = 1 := by
  let w₁ : World := World.spawn (.fresh s) 1 (.approve p)
  let w₂ := rules.advance w₁ 1 [.enrolled p] (some (.approveAdmitted p (buildRosterContent s (some p))))
  have h₁ : act (.fresh s) (.approve 1 p) = some w₁ := act_approve rfl
  have h₂ : act w₁ (.settle 1 ⟨true, true⟩) = some w₂ := act_settle_approve rfl rfl hg (by rw [show w₁.store = s from rfl, hn]; decide) hc
  have hk₂ : w₂.tasks 1 = some (.approveAdmitted p (buildRosterContent s (some p))) := rfl
  have hn₂ : w₂.store.approvedAttendeeCount = 0 := (count_enrolled hg).trans hn
  refine ⟨_, .cons ⟨h₁, timely_of_room ?_ (by simp)⟩ (.cons ⟨h₂, timely_of_room ?_ (by simp)⟩
    (.cons ⟨act_settle_admitted hk₂, timely_of_room ?_ (by simp)⟩ .nil)), ?_⟩
  · intro k a pc q role _ hk
    cases hk
  · exact fun _ _ _ _ _ _ _ _ => room_of_empty hn
  · exact fun _ _ _ _ _ _ _ _ => room_of_empty hn₂
  · refine (count_written ?_).trans (by rw [hn₂])
    show ((rules.run s [.enrolled p]).getAttendee p).map (·.status) ≠ _
    rw [status_enrolled]
    decide

theorem roster_within_approval :
    ∃ w, Run Step (.fresh (Small.approved 0 (by decide))) (Small.approval (Small.key 0)) w ∧ w.store.approvedAttendeeCount = 1 ∧
      Within w.store := by
  have hlt : 0 < 4096 := by decide
  have hg : (Small.approved 0 hlt).getAttendee (Small.key 0) = none := Small.getAttendee_approved hlt le_rfl hlt
  obtain ⟨w, hrun, hn⟩ := run_approval (Small.bare_approved hlt) (Small.count_approved hlt) hg
  exact ⟨w, hrun.mono fun _ _ _ h => h.1, hn, roster_within (Small.within_approved (by decide)) hrun⟩

/-- Two members are approved where one place is left: each is probed before the
other is written. -/
theorem run_lastPlace {q : Hex32} (hc : s.contents.Bare) (hn : s.approvedAttendeeCount = 1999) (hp : s.getAttendee p = none)
    (hq : s.getAttendee q = none) (hqp : q ≠ p) : ∃ xs w, Run Step (.fresh s) xs w ∧ w.store.approvedAttendeeCount = 2001 := by
  let w₁ : World := World.spawn (.fresh s) 1 (.approve p)
  let w₂ : World := w₁.spawn 2 (.approve q)
  let w₃ := rules.advance w₂ 1 [.enrolled p] (some (.approveAdmitted p (buildRosterContent s (some p))))
  let w₄ := rules.advance w₃ 2 [.enrolled q] (some (.approveAdmitted q (buildRosterContent w₃.store (some q))))
  let w₅ := rules.advance w₄ 1 [.lifted p, .approved p none] (some (.tail p))
  let w₆ := rules.advance w₅ 2 [.lifted q, .approved q none] (some (.tail q))
  have hn₃ : w₃.store.approvedAttendeeCount = 1999 := (count_enrolled hp).trans hn
  have hq₃ : w₃.store.getAttendee q = none := (getAttendee_enrolled hqp).trans hq
  have hn₄ : w₄.store.approvedAttendeeCount = 1999 := (count_enrolled hq₃).trans hn₃
  have hp₄ : (w₄.store.getAttendee p).map (·.status) ≠ some .approved := by
    rw [show w₄.store.getAttendee p = w₃.store.getAttendee p from getAttendee_enrolled hqp.symm,
      show w₃.store = rules.run s [.enrolled p] from rfl, status_enrolled]
    decide
  have hn₅ : w₅.store.approvedAttendeeCount = 2000 := (count_written hp₄).trans (by rw [hn₄])
  have hq₅ : (w₅.store.getAttendee q).map (·.status) ≠ some .approved := by
    rw [show w₅.store.getAttendee q = w₄.store.getAttendee q from getAttendee_written hqp,
      show w₄.store = rules.run w₃.store [.enrolled q] from rfl, status_enrolled]
    decide
  have hn₆ : w₆.store.approvedAttendeeCount = 2001 := (count_written hq₅).trans (by rw [hn₅])
  have hl₃ : w₃.locks q = none := by
    show (if some p = some q then some 1 else if (none : Option Nat) = some 1 then none else none) = none
    simp [hqp.symm]
  have h₃ : act w₂ (.settle 1 ⟨true, true⟩) = some w₃ :=
    act_settle_approve rfl rfl hp (by rw [show w₂.store = s from rfl, hn]; decide) hc
  have h₄ : act w₃ (.settle 2 ⟨true, true⟩) = some w₄ := act_settle_approve rfl hl₃ hq₃ (by rw [hn₃]; decide) hc
  have h₅ : act w₄ (.settle 1 ⟨true, true⟩) = some w₅ := act_settle_admitted rfl
  have h₆ : act w₅ (.settle 2 ⟨true, true⟩) = some w₆ := act_settle_admitted rfl
  exact ⟨_, w₆, .cons (act_approve (k := 1) rfl) (.cons (act_approve (k := 2) rfl) (.cons h₃ (.cons h₄ (.cons h₅ (.cons h₆ .nil))))), hn₆⟩

/-- One member too many is on the roster. -/
theorem roster_within_lastPlace : ∃ s xs w, Within s ∧ Run Step (.fresh s) xs w ∧ ¬ Within w.store := by
  have hlt : 1999 < 4096 := by decide
  have hn := Small.count_approved hlt
  have hp : (Small.approved 1999 hlt).getAttendee (Small.key 1999) = none := Small.getAttendee_approved hlt le_rfl hlt
  have hq : (Small.approved 1999 hlt).getAttendee (Small.key 2000) = none := Small.getAttendee_approved hlt (by decide) (by decide)
  have hqp : Small.key 2000 ≠ Small.key 1999 := fun h => absurd (Small.key_inj (by decide) hlt h) (by decide)
  have hs : Within (Small.approved 1999 hlt) := Small.within_approved (by decide)
  obtain ⟨xs, w, hrun, hcount⟩ := run_lastPlace (Small.bare_approved hlt) hn hp hq hqp
  refine ⟨_, xs, w, hs, hrun, fun h => ?_⟩
  have := h.members
  rw [hcount] at this
  exact absurd this (by decide)

end Nostrautica.Capacity
