/-
What becomes of the ecash of the coordinator when it crashes. The wallet file and the journal are
written after the mint has answered: between the answer and the writes, new proofs are in memory
only, and the old ones are spent. No proof is handed to two providers.
-/
import Nostrautica.Coordinator.Cashu

set_option linter.unusedSectionVars false

namespace Nostrautica.Cashu

variable {P Rid : Type} [DecidableEq P] [DecidableEq Rid] {s t : World P Rid} {x : Act P Rid} {xs : List (Act P Rid)}

/-! ## The journal -/

section Journal

variable {journal : List (Row P Rid)} {requestId : Rid} {p : P}

/-- Settling a request that has no change yet adds its change at most. -/
theorem proofs_cashuSettle {changeProofs : List P} (hopen : ∀ row ∈ journal, row.state ≠ .settled → row.change_proofs = none) :
    (p ∈ journal.flatMap Row.proofs → p ∈ (cashuSettle journal requestId changeProofs).flatMap Row.proofs) ∧
      (p ∈ (cashuSettle journal requestId changeProofs).flatMap Row.proofs → p ∈ journal.flatMap Row.proofs ∨ p ∈ changeProofs) := by
  simp only [cashuSettle, List.mem_flatMap, List.mem_map]
  constructor
  · rintro ⟨row, hrow, hp⟩
    refine ⟨_, ⟨row, hrow, rfl⟩, ?_⟩
    split
    · next h =>
      simp only [Row.proofs, hopen row hrow h.2, Option.getD_none, List.append_nil] at hp
      exact List.mem_append_left _ hp
    · exact hp
  · rintro ⟨_, ⟨row, hrow, rfl⟩, hp⟩
    split at hp
    · rcases List.mem_append.mp hp with hp | hp
      · exact .inl ⟨row, hrow, List.mem_append_left _ hp⟩
      · exact .inr hp
    · exact .inl ⟨row, hrow, hp⟩

theorem proofs_cashuMarkAmbiguous : (cashuMarkAmbiguous journal requestId).flatMap Row.proofs = journal.flatMap Row.proofs := by
  induction journal with
  | nil => rfl
  | cons row journal ih =>
    simp only [cashuMarkAmbiguous, List.map_cons, List.flatMap_cons] at ih ⊢
    rw [ih]
    split <;> rfl

theorem open_cashuSettle {changeProofs : List P} (hopen : ∀ row ∈ journal, row.state ≠ .settled → row.change_proofs = none) :
    ∀ row ∈ cashuSettle journal requestId changeProofs, row.state ≠ .settled → row.change_proofs = none := by
  simp only [cashuSettle, List.mem_map]
  rintro _ ⟨row, hrow, rfl⟩ hstate
  split at hstate
  · exact absurd rfl hstate
  · next h =>
    rw [if_neg h]
    exact hopen row hrow hstate

theorem open_cashuMarkAmbiguous (hopen : ∀ row ∈ journal, row.state ≠ .settled → row.change_proofs = none) :
    ∀ row ∈ cashuMarkAmbiguous journal requestId, row.state ≠ .settled → row.change_proofs = none := by
  simp only [cashuMarkAmbiguous, List.mem_map]
  rintro _ ⟨row, hrow, rfl⟩ hstate
  split
  · next h => exact hopen row hrow (by simp [h.2])
  · next h =>
    rw [if_neg h] at hstate
    exact hopen row hrow hstate

/-- A property that marking keeps, reconciling keeps. -/
theorem reconcile_keeps {Q : List (Row P Rid) → Prop} (keep : ∀ journal requestId, Q journal → Q (cashuMarkAmbiguous journal requestId))
    (h : Q journal) : Q (reconcileJournal journal) := by
  unfold reconcileJournal
  generalize (cashuNonterminal journal).filter (·.state = .in_flight) = rows
  induction rows generalizing journal with
  | nil => exact h
  | cons row rows ih => exact ih (keep _ _ h)

theorem proofs_reconcileJournal : (reconcileJournal journal).flatMap Row.proofs = journal.flatMap Row.proofs :=
  reconcile_keeps (Q := fun other => other.flatMap Row.proofs = journal.flatMap Row.proofs)
    (fun _ _ h => proofs_cashuMarkAmbiguous.trans h) rfl

theorem cashuReserve_of_new {sentProofs : List P} (h : requestId ∉ journal.map (·.request_id)) :
    cashuReserve journal requestId sentProofs = journal ++ [{ request_id := requestId, sent_proofs := sentProofs }] := if_neg h

end Journal

/-! ## What is recorded -/

theorem mem_recorded {p : P} : p ∈ s.recorded ↔ p ∈ s.file ∨ p ∈ s.journal.flatMap Row.proofs := List.mem_append

/-- What the daemon has had from the mint and has not spent is in the wallet file or the journal,
but for what it has in memory, of which nothing is left at a crash. -/
def Conserved (s : World P Rid) : Prop := ∀ p ∈ s.obtained, p ∉ s.spent → p ∈ s.recorded ∨ p ∈ s.inMemory

/-- The condition on a step: no crash comes while new proofs that the mint has answered with, for
proofs that are spent, are in memory only. -/
def Timely (s : World P Rid) : Act P Rid → Prop
  | .crash => ∀ p ∈ s.inMemory, p ∈ s.spent ∨ p ∈ s.recorded
  | _ => True

/-- What holds of the daemon between its steps. -/
structure Sound (s : World P Rid) : Prop where
  file_nodup : s.file.Nodup
  file_obtained : ∀ p ∈ s.file, p ∈ s.obtained
  handed_nodup : s.handed.flatten.Nodup
  handed_obtained : ∀ p ∈ s.handed.flatten, p ∈ s.obtained
  /-- What was handed out is in the journal, and no longer in the file. -/
  handed_recorded : ∀ p ∈ s.handed.flatten, p ∈ s.journal.flatMap Row.proofs ∧ p ∉ s.file
  opens : ∀ row ∈ s.journal, row.state ≠ .settled → row.change_proofs = none
  /-- What is banked is in the file or was used since. -/
  closing : ∀ c ∈ s.closing, ∀ p ∈ c.2, p ∈ s.spent ∨ p ∈ s.recorded
  receiving : ∀ requestId token, s.task = some (.receiving requestId token) → s.Outside token
  /-- An answer to `wallet.send` has what is left of the file and the new proofs. -/
  sent : ∀ outputs keep send, s.task = some (.sent outputs keep send) → (keep ++ send).Nodup ∧
    (∀ p ∈ keep ++ send, (p ∈ s.file ∨ p ∈ outputs) ∧ p ∉ s.handed.flatten ∧ p ∈ s.obtained) ∧
    (∀ p ∈ s.file, p ∈ s.spent ∨ p ∈ keep ++ send) ∧ ∀ p ∈ outputs, p ∈ keep ++ send
  received : ∀ requestId outputs, s.task = some (.received requestId outputs) → outputs.Nodup ∧
    ∀ p ∈ outputs, p ∉ s.file ∧ p ∉ s.handed.flatten ∧ p ∈ s.obtained

/-! ## Steps -/

/-- A journal that has no fewer proofs keeps the daemon sound. -/
theorem Sound.journal (hs : Sound s) {journal : List (Row P Rid)}
    (hmem : ∀ p ∈ s.journal.flatMap Row.proofs, p ∈ journal.flatMap Row.proofs)
    (hopen : ∀ row ∈ journal, row.state ≠ .settled → row.change_proofs = none) : Sound { s with journal := journal } :=
  { hs with
    handed_recorded := fun p hp => ⟨hmem p (hs.handed_recorded p hp).1, (hs.handed_recorded p hp).2⟩
    opens := hopen
    closing := fun c hc p hp => (hs.closing c hc p hp).imp_right fun h => mem_recorded.mpr ((mem_recorded.mp h).imp_right (hmem p)) }

theorem Sound.settled (hs : Sound s) (requestId : Rid) (changeProofs : List P) :
    Sound { s with journal := cashuSettle s.journal requestId changeProofs } :=
  hs.journal (fun _ hp => (proofs_cashuSettle hs.opens).1 hp) (open_cashuSettle hs.opens)

theorem Sound.mintSend (hs : Sound s) {inputs outputs keep send : List P} (hnew : s.New outputs)
    (hperm : (keep ++ send).Perm (s.file.filter (· ∉ inputs) ++ outputs)) :
    Sound { s with
      task := some (.sent outputs keep send)
      spent := s.spent ++ inputs
      obtained := s.obtained ++ outputs } where
  file_nodup := hs.file_nodup
  file_obtained p hp := List.mem_append_left _ (hs.file_obtained p hp)
  handed_nodup := hs.handed_nodup
  handed_obtained p hp := List.mem_append_left _ (hs.handed_obtained p hp)
  handed_recorded := hs.handed_recorded
  opens := hs.opens
  closing c hc p hp := (hs.closing c hc p hp).imp_left (List.mem_append_left _)
  receiving := by rintro _ _ ⟨⟩
  sent := by
    rintro _ _ _ ⟨⟩
    refine ⟨?_, fun p hp => ?_, fun p hp => ?_, fun p hp => hperm.mem_iff.mpr (List.mem_append_right _ hp)⟩
    · refine hperm.nodup_iff.mpr (List.nodup_append.mpr ⟨hs.file_nodup.filter _, hnew.1, ?_⟩)
      rintro p hp _ hq rfl
      exact (hnew.2 p hq).1 (hs.file_obtained p (List.mem_of_mem_filter hp))
    · rcases List.mem_append.mp (hperm.mem_iff.mp hp) with hp | hp
      · have hfile := List.mem_of_mem_filter hp
        exact ⟨.inl hfile, fun hh => (hs.handed_recorded p hh).2 hfile, List.mem_append_left _ (hs.file_obtained p hfile)⟩
      · exact ⟨.inr hp, fun hh => (hnew.2 p hp).1 (hs.handed_obtained p hh), List.mem_append_right _ hp⟩
    · by_cases hin : p ∈ inputs
      · exact .inl (List.mem_append_right _ hin)
      · exact .inr (hperm.mem_iff.mpr (List.mem_append_left _ (by simp [hp, hin])))
  received := by rintro _ _ ⟨⟩

theorem Sound.takeSend (hs : Sound s) {outputs keep send : List P} (htask : s.task = some (.sent outputs keep send)) {requestId : Rid}
    (hid : requestId ∉ s.journal.map (·.request_id)) :
    Sound { s with
      journal := cashuReserve s.journal requestId send
      file := keep
      task := none
      handles := s.handles ++ [requestId]
      handed := s.handed ++ [send] } := by
  obtain ⟨hnodup, hmem, hfile, _⟩ := hs.sent _ _ _ htask
  obtain ⟨hkeep, hsend, hdisj⟩ := List.nodup_append.mp hnodup
  have hjournal : ∀ p, p ∈ (cashuReserve s.journal requestId send).flatMap Row.proofs ↔ p ∈ s.journal.flatMap Row.proofs ∨ p ∈ send := by
    intro p
    simp [cashuReserve_of_new hid, Row.proofs]
  exact
    { file_nodup := hkeep
      file_obtained := fun p hp => (hmem p (List.mem_append_left _ hp)).2.2
      handed_nodup := by
        rw [List.flatten_append, List.flatten_singleton]
        refine List.nodup_append.mpr ⟨hs.handed_nodup, hsend, ?_⟩
        rintro p hp _ hq rfl
        exact (hmem p (List.mem_append_right _ hq)).2.1 hp
      handed_obtained := by
        intro p hp
        rw [List.flatten_append, List.flatten_singleton] at hp
        rcases List.mem_append.mp hp with hp | hp
        · exact hs.handed_obtained p hp
        · exact (hmem p (List.mem_append_right _ hp)).2.2
      handed_recorded := by
        intro p hp
        rw [List.flatten_append, List.flatten_singleton] at hp
        rcases List.mem_append.mp hp with hp | hp
        · exact ⟨(hjournal p).mpr (.inl (hs.handed_recorded p hp).1), fun hk => (hmem p (List.mem_append_left _ hk)).2.1 hp⟩
        · exact ⟨(hjournal p).mpr (.inr hp), fun hk => hdisj p hk p hp rfl⟩
      opens := by
        rw [cashuReserve_of_new hid]
        intro row hrow hstate
        rcases List.mem_append.mp hrow with hrow | hrow
        · exact hs.opens row hrow hstate
        · rw [List.mem_singleton.mp hrow]
      closing := by
        intro c hc p hp
        rcases hs.closing c hc p hp with h | h
        · exact .inl h
        rcases mem_recorded.mp h with h | h
        · refine (hfile p h).imp_right fun h => mem_recorded.mpr ?_
          exact (List.mem_append.mp h).imp_right fun h => (hjournal p).mpr (.inr h)
        · exact .inr (mem_recorded.mpr (.inr ((hjournal p).mpr (.inl h))))
      receiving := by rintro _ _ ⟨⟩
      sent := by rintro _ _ _ ⟨⟩
      received := by rintro _ _ ⟨⟩ }

theorem Sound.mintReceive (hs : Sound s) {requestId : Option Rid} {token outputs : List P} (hnew : s.New outputs) :
    Sound { s with
      task := some (.received requestId outputs)
      spent := s.spent ++ token
      obtained := s.obtained ++ outputs } where
  file_nodup := hs.file_nodup
  file_obtained p hp := List.mem_append_left _ (hs.file_obtained p hp)
  handed_nodup := hs.handed_nodup
  handed_obtained p hp := List.mem_append_left _ (hs.handed_obtained p hp)
  handed_recorded := hs.handed_recorded
  opens := hs.opens
  closing c hc p hp := (hs.closing c hc p hp).imp_left (List.mem_append_left _)
  receiving := by rintro _ _ ⟨⟩
  sent := by rintro _ _ _ ⟨⟩
  received := by
    rintro _ _ ⟨⟩
    refine ⟨hnew.1, fun p hp => ⟨fun hf => ?_, fun hh => ?_, List.mem_append_right _ hp⟩⟩
    · exact (hnew.2 p hp).1 (hs.file_obtained p hf)
    · exact (hnew.2 p hp).1 (hs.handed_obtained p hh)

theorem Sound.takeReceive (hs : Sound s) {requestId : Option Rid} {outputs : List P} (htask : s.task = some (.received requestId outputs)) :
    Sound { s with
      file := s.file ++ outputs
      task := none
      closing := s.closing ++ requestId.toList.map (·, outputs) } := by
  obtain ⟨hnodup, hout⟩ := hs.received _ _ htask
  exact
    { hs with
      file_nodup := by
        refine List.nodup_append.mpr ⟨hs.file_nodup, hnodup, ?_⟩
        rintro p hp _ hq rfl
        exact (hout p hq).1 hp
      file_obtained := by
        intro p hp
        rcases List.mem_append.mp hp with hp | hp
        · exact hs.file_obtained p hp
        · exact (hout p hp).2.2
      handed_recorded := by
        refine fun p hp => ⟨(hs.handed_recorded p hp).1, fun hf => ?_⟩
        rcases List.mem_append.mp hf with hf | hf
        · exact (hs.handed_recorded p hp).2 hf
        · exact (hout p hf).2.1 hp
      closing := by
        intro c hc p hp
        rcases List.mem_append.mp hc with hc | hc
        · refine (hs.closing c hc p hp).imp_right fun h => mem_recorded.mpr ?_
          exact (mem_recorded.mp h).imp_left (List.mem_append_left _)
        · obtain ⟨id, _, rfl⟩ := List.mem_map.mp hc
          exact .inr (mem_recorded.mpr (.inl (List.mem_append_right _ hp)))
      receiving := by rintro _ _ ⟨⟩
      sent := by rintro _ _ _ ⟨⟩
      received := by rintro _ _ ⟨⟩ }

theorem Sound.step (hs : Sound s) (h : Step s x t) : Sound t := by
  cases x with
  | reserve =>
    simp only [Step, act] at h
    split at h
    · cases h
      exact { hs with receiving := by rintro _ _ ⟨⟩, sent := by rintro _ _ _ ⟨⟩, received := by rintro _ _ ⟨⟩ }
    · cases h
  | mintSend inputs outputs keep send =>
    simp only [Step, act] at h
    split at h
    · next hg =>
      cases h
      exact hs.mintSend hg.2.2.1 hg.2.2.2
    · cases h
  | takeSend requestId =>
    simp only [Step, act] at h
    split at h
    · next htask =>
      split at h
      · next hid =>
        cases h
        exact hs.takeSend htask hid
      · cases h
    · cases h
  | settle requestId changeToken =>
    simp only [Step, act] at h
    split at h
    · split at h
      · cases h
        exact hs.settled requestId []
      · next token =>
        split at h
        · next hg =>
          cases h
          split
          · exact { hs with receiving := by rintro _ _ ⟨⟩; exact hg.2, sent := by rintro _ _ _ ⟨⟩, received := by rintro _ _ ⟨⟩ }
          · exact { hs.settled requestId token with receiving := by rintro _ _ ⟨⟩; exact hg.2, sent := by rintro _ _ _ ⟨⟩, received := by rintro _ _ ⟨⟩ }
        · cases h
    · cases h
  | fund token =>
    simp only [Step, act] at h
    split at h
    · next hg =>
      cases h
      exact { hs with receiving := by rintro _ _ ⟨⟩; exact hg.2, sent := by rintro _ _ _ ⟨⟩, received := by rintro _ _ ⟨⟩ }
    · cases h
  | mintReceive outputs =>
    simp only [Step, act] at h
    split at h
    · split at h
      · next hg =>
        cases h
        exact hs.mintReceive hg.2.1
      · cases h
    · cases h
  | takeReceive =>
    simp only [Step, act] at h
    split at h
    · next htask =>
      cases h
      exact hs.takeReceive htask
    · cases h
  | mintFails =>
    simp only [Step, act] at h
    split at h
    · cases h
      exact { hs with receiving := by rintro _ _ ⟨⟩, sent := by rintro _ _ _ ⟨⟩, received := by rintro _ _ ⟨⟩ }
    · cases h
      refine { hs with receiving := by rintro _ _ ⟨⟩, sent := by rintro _ _ _ ⟨⟩, received := by rintro _ _ ⟨⟩, closing := ?_ }
      intro c hc p hp
      rcases List.mem_append.mp hc with hc | hc
      · exact hs.closing c hc p hp
      · obtain ⟨id, _, rfl⟩ := List.mem_map.mp hc
        cases hp
    · cases h
  | close i =>
    obtain ⟨c, hc, h⟩ := Option.bind_eq_some_iff.mp h
    cases h
    exact { hs.settled c.1 c.2 with closing := fun c' hc' => (hs.settled c.1 c.2).closing c' (List.mem_of_mem_eraseIdx hc') }
  | fail requestId =>
    simp only [Step, act] at h
    split at h
    · cases h
      exact hs.journal (fun _ hp => by rwa [proofs_cashuMarkAmbiguous]) (open_cashuMarkAmbiguous hs.opens)
    · cases h
  | redeem i =>
    obtain ⟨proofs, _, h⟩ := Option.bind_eq_some_iff.mp h
    cases h
    exact
      { hs with
        closing := fun c hc p hp => (hs.closing c hc p hp).imp_left (List.mem_append_left _)
        sent := fun outputs keep send htask => by
          obtain ⟨hnodup, hmem, hfile, hout⟩ := hs.sent outputs keep send htask
          exact ⟨hnodup, hmem, fun p hp => (hfile p hp).imp_left (List.mem_append_left _), hout⟩ }
  | crash =>
    cases h
    have hmem : ∀ p ∈ s.journal.flatMap Row.proofs, p ∈ (reconcileJournal s.journal).flatMap Row.proofs := by
      rw [proofs_reconcileJournal]
      exact fun _ hp => hp
    have hopen : ∀ row ∈ reconcileJournal s.journal, row.state ≠ .settled → row.change_proofs = none :=
      reconcile_keeps (Q := fun journal => ∀ row ∈ journal, row.state ≠ .settled → row.change_proofs = none)
        (fun _ _ => open_cashuMarkAmbiguous) hs.opens
    exact
      { hs.journal hmem hopen with
        closing := by rintro _ ⟨⟩
        receiving := by rintro _ _ ⟨⟩
        sent := by rintro _ _ _ ⟨⟩
        received := by rintro _ _ ⟨⟩ }

/-- Where the file, the journal, the new proofs in memory and the mint are the same, so is what is conserved. -/
theorem conserved_congr (hspent : t.spent = s.spent) (hobtained : t.obtained = s.obtained)
    (hheld : ∀ p ∈ s.obtained, p ∉ s.spent → (p ∈ t.recorded ∨ p ∈ t.inMemory ↔ p ∈ s.recorded ∨ p ∈ s.inMemory)) :
    Conserved t ↔ Conserved s := by
  simp only [Conserved, hspent, hobtained]
  exact forall₂_congr fun p hp => imp_congr_right fun hfresh => hheld p hp hfresh

/-- What is in memory has been obtained. -/
theorem Sound.inMemory_obtained (hs : Sound s) : ∀ p ∈ s.inMemory, p ∈ s.obtained := by
  intro p hp
  unfold World.inMemory at hp
  cases htask : s.task with
  | none => simp [htask] at hp
  | some task =>
    cases task with
    | sending | receiving => simp [htask, Task.outputs] at hp
    | sent outputs keep send =>
      simp only [htask, Option.map_some, Task.outputs, Option.getD_some] at hp
      obtain ⟨_, hmem, _, hout⟩ := hs.sent _ _ _ htask
      exact (hmem p (hout p hp)).2.2
    | received requestId outputs =>
      simp only [htask, Option.map_some, Task.outputs, Option.getD_some] at hp
      exact ((hs.received _ _ htask).2 p hp).2.2

theorem Sound.handed_mem (hs : Sound s) {p : P} (hp : p ∈ s.handed.flatten) : p ∈ s.recorded :=
  mem_recorded.mpr (.inr (hs.handed_recorded p hp).1)

/-- A settlement whose change is from outside, or is used already, records nothing else. -/
theorem recorded_settled (hs : Sound s) {requestId : Rid} {changeProofs : List P} {p : P}
    (hchange : p ∈ changeProofs → p ∈ s.recorded) :
    (p ∈ s.file ∨ p ∈ (cashuSettle s.journal requestId changeProofs).flatMap Row.proofs) ↔ p ∈ s.recorded := by
  rw [mem_recorded] at hchange ⊢
  constructor
  · rintro (h | h)
    · exact .inl h
    · exact ((proofs_cashuSettle hs.opens).2 h).elim .inr hchange
  · exact fun h => h.imp_right (proofs_cashuSettle hs.opens).1

theorem conserved_mint {task : Task P Rid} {inputs outputs : List P} (hidle : s.inMemory = []) (hout : task.outputs = outputs)
    (hinputs : ∀ p ∈ inputs, p ∈ s.obtained → p ∈ s.recorded) (hnew : s.New outputs) :
    Conserved { s with task := some task, spent := s.spent ++ inputs, obtained := s.obtained ++ outputs } ↔ Conserved s := by
  constructor
  · intro hc p hp hfresh
    by_cases hin : p ∈ inputs
    · exact .inl (hinputs p hin hp)
    · rcases hc p (List.mem_append_left _ hp) (by simp [hfresh, hin]) with h | h
      · exact .inl h
      · simp only [World.inMemory, Option.map_some, Option.getD_some, hout] at h
        exact absurd hp (hnew.2 p h).1
  · intro hc p hp hfresh
    simp only [List.mem_append, not_or] at hfresh
    rcases List.mem_append.mp hp with hp | hp
    · rcases hc p hp hfresh.1 with h | h
      · exact .inl h
      · rw [hidle] at h
        cases h
    · refine .inr ?_
      simpa only [World.inMemory, Option.map_some, Option.getD_some, hout] using hp

/-- A step keeps the ecash just when it is no crash in between. -/
theorem conserved_step (hs : Sound s) (h : Step s x t) : Conserved t ↔ Conserved s ∧ Timely s x := by
  cases x with
  | reserve =>
    simp only [Step, act] at h
    split at h
    · next htask =>
      cases h
      simp only [Timely, and_true]
      exact conserved_congr rfl rfl fun p _ _ => by simp [World.recorded, World.inMemory, htask, Task.outputs]
    · cases h
  | mintSend inputs outputs keep send =>
    simp only [Step, act] at h
    split at h
    · next hg =>
      cases h
      simp only [Timely, and_true]
      refine conserved_mint (by simp [World.inMemory, hg.1, Task.outputs]) rfl (fun p hp _ => ?_) hg.2.2.1
      exact mem_recorded.mpr (.inl (hg.2.1 p hp).1)
    · cases h
  | takeSend requestId =>
    simp only [Step, act] at h
    split at h
    · next outputs keep send htask =>
      split at h
      · next hid =>
        cases h
        simp only [Timely, and_true]
        obtain ⟨_, hmem, hfile, hout⟩ := hs.sent _ _ _ htask
        refine conserved_congr rfl rfl fun p _ hfresh => ?_
        simp only [mem_recorded, World.inMemory, htask, Option.map_some, Option.map_none, Option.getD_some, Option.getD_none,
          Task.outputs, List.not_mem_nil, or_false, cashuReserve_of_new hid, List.flatMap_append, List.mem_append,
          List.flatMap_singleton, Row.proofs, List.append_nil]
        constructor
        · rintro (h | h | h)
          · exact (hmem p (List.mem_append_left _ h)).1.imp_left .inl
          · exact .inl (.inr h)
          · exact (hmem p (List.mem_append_right _ h)).1.imp_left .inl
        · have hkept : p ∈ keep ++ send → p ∈ keep ∨ p ∈ s.journal.flatMap Row.proofs ∨ p ∈ send := fun h =>
            (List.mem_append.mp h).imp_right .inr
          rintro ((h | h) | h)
          · exact hkept ((hfile p h).resolve_left hfresh)
          · exact .inr (.inl h)
          · exact hkept (hout p h)
      · cases h
    · cases h
  | settle requestId changeToken =>
    simp only [Step, act] at h
    split at h
    · split at h
      · cases h
        simp only [Timely, and_true]
        refine conserved_congr rfl rfl fun p _ _ => or_congr_left ?_
        rw [mem_recorded]
        exact recorded_settled hs fun h => by cases h
      · next token =>
        split at h
        · next hg =>
          cases h
          simp only [Timely, and_true]
          refine conserved_congr rfl rfl fun p hp _ => ?_
          have hidle : s.inMemory = [] := by simp [World.inMemory, hg.1]
          rw [hidle, mem_recorded]
          simp only [World.inMemory, Option.map_some, Option.getD_some, Task.outputs, List.not_mem_nil, or_false]
          split
          · rw [mem_recorded]
          · exact recorded_settled hs fun h => hs.handed_mem (hg.2 p h hp)
        · cases h
    · cases h
  | fund token =>
    simp only [Step, act] at h
    split at h
    · next hg =>
      cases h
      simp only [Timely, and_true]
      exact conserved_congr rfl rfl fun p _ _ => by simp [World.recorded, World.inMemory, hg.1, Task.outputs]
    · cases h
  | mintReceive outputs =>
    simp only [Step, act] at h
    split at h
    · next requestId token htask =>
      split at h
      · next hg =>
        cases h
        simp only [Timely, and_true]
        refine conserved_mint (by simp [World.inMemory, htask, Task.outputs]) rfl (fun p hp hobtained => ?_) hg.2.1
        exact hs.handed_mem (hs.receiving _ _ htask p hp hobtained)
      · cases h
    · cases h
  | takeReceive =>
    simp only [Step, act] at h
    split at h
    · next requestId outputs htask =>
      cases h
      simp only [Timely, and_true]
      refine conserved_congr rfl rfl fun p _ _ => ?_
      simp only [mem_recorded, World.inMemory, htask, Option.map_some, Option.map_none, Option.getD_some, Option.getD_none,
        Task.outputs, List.not_mem_nil, or_false, List.mem_append]
      tauto
    · cases h
  | mintFails =>
    simp only [Step, act] at h
    split at h
    · next htask =>
      cases h
      simp only [Timely, and_true]
      exact conserved_congr rfl rfl fun p _ _ => by simp [World.recorded, World.inMemory, htask, Task.outputs]
    · next htask =>
      cases h
      simp only [Timely, and_true]
      exact conserved_congr rfl rfl fun p _ _ => by simp [World.recorded, World.inMemory, htask, Task.outputs]
    · cases h
  | close i =>
    obtain ⟨c, hc, h⟩ := Option.bind_eq_some_iff.mp h
    cases h
    simp only [Timely, and_true]
    refine conserved_congr rfl rfl fun p _ hfresh => or_congr_left ?_
    rw [mem_recorded]
    exact recorded_settled hs fun h => (hs.closing c (List.mem_of_getElem? hc) p h).resolve_left hfresh
  | fail requestId =>
    simp only [Step, act] at h
    split at h
    · cases h
      simp only [Timely, and_true]
      refine conserved_congr rfl rfl fun p _ _ => or_congr_left ?_
      simp only [mem_recorded, proofs_cashuMarkAmbiguous]
    · cases h
  | redeem i =>
    obtain ⟨proofs, hproofs, h⟩ := Option.bind_eq_some_iff.mp h
    cases h
    simp only [Timely, and_true]
    constructor
    · intro hc p hp hfresh
      by_cases hin : p ∈ proofs
      · exact .inl (hs.handed_mem (List.mem_flatten.mpr ⟨proofs, List.mem_of_getElem? hproofs, hin⟩))
      · exact hc p hp (by simp [hfresh, hin])
    · exact fun hc p hp hfresh => hc p hp fun h => hfresh (List.mem_append_left _ h)
  | crash =>
    cases h
    constructor
    · intro hc
      have hrec : ∀ p ∈ s.obtained, p ∉ s.spent → p ∈ s.recorded := fun p hp hfresh => by
        simpa [World.inMemory, mem_recorded, proofs_reconcileJournal] using hc p hp hfresh
      exact ⟨fun p hp hfresh => .inl (hrec p hp hfresh),
        fun p hp => or_iff_not_imp_left.mpr (hrec p (hs.inMemory_obtained p hp))⟩
    · rintro ⟨hc, htimely⟩ p hp hfresh
      have hrec : p ∈ s.recorded := (hc p hp hfresh).elim (fun h => h) fun h => (htimely p h).resolve_left hfresh
      exact .inl (by simpa only [mem_recorded, proofs_reconcileJournal] using hrec)

/-! ## Runs -/

theorem sound_start : Sound ({} : World P Rid) where
  file_nodup := .nil
  file_obtained := by rintro _ ⟨⟩
  handed_nodup := .nil
  handed_obtained := by rintro _ ⟨⟩
  handed_recorded := by rintro _ ⟨⟩
  opens := by rintro _ ⟨⟩
  closing := by rintro _ ⟨⟩
  receiving := by rintro _ _ ⟨⟩
  sent := by rintro _ _ _ ⟨⟩
  received := by rintro _ _ ⟨⟩

/-- **Ecash is conserved in a run just when none of its crashes comes between an answer of the
mint and what the daemon writes of it**, and no proof is handed to two providers. -/
theorem ecash_conserved_iff (h : Run Step ({} : World P Rid) xs t) :
    t.handed.flatten.Nodup ∧ (Conserved t ↔ Run (fun s x t => Step s x t ∧ Timely s x) {} xs t) := by
  have hsound : Sound t := h.invariant (fun _ _ _ hs hx => hs.step hx) sound_start
  have hiff := h.holds_iff (I := Sound) (Q := Conserved) (G := Timely)
    (fun h₁ h₂ => Option.some.inj (h₁.symm.trans h₂)) Sound.step conserved_step sound_start
  exact ⟨hsound.handed_nodup, hiff.trans (and_iff_right fun p hp => by cases hp)⟩

namespace Small

/-- The wallet is funded, and a payment is taken from it: the mint swaps the proof 2 for 3 and 4. -/
def swapped : List (Act Nat Nat) := [.fund [1], .mintReceive [2], .takeReceive, .reserve, .mintSend [2] [3, 4] [3] [4]]

/-- The daemon when the mint has answered, and after a crash then or after the section has gone on. -/
theorem after_swap : (Run.exec act {} (swapped ++ [.crash])).map (fun t => (t.obtained, t.spent, t.recorded, t.inMemory)) =
      some ([2, 3, 4], [1, 2], [2], []) ∧
    (Run.exec act {} (swapped ++ [.takeSend 0, .crash])).map (fun t => (t.obtained, t.spent, t.recorded, t.inMemory)) =
      some ([2, 3, 4], [1, 2], [3, 4], []) := by
  decide +kernel

end Small

/-- A crash once the section has gone on. -/
theorem ecash_conserved_small : ∃ t, Run Step ({} : World Nat Nat) (Small.swapped ++ [.takeSend 0, .crash]) t ∧ Conserved t ∧
    t.handed.flatten.Nodup ∧ Run (fun s x t => Step s x t ∧ Timely s x) ({} : World Nat Nat) (Small.swapped ++ [.takeSend 0, .crash]) t := by
  obtain ⟨t, ht, heq⟩ := Option.map_eq_some_iff.mp Small.after_swap.2
  simp only [Prod.mk.injEq] at heq
  obtain ⟨hobtained, hspent, hrecorded, hmemory⟩ := heq
  have hconserved : Conserved t := by
    intro p hp hfresh
    rw [hobtained] at hp
    rw [hspent] at hfresh
    rw [hrecorded]
    simp only [List.mem_cons, List.not_mem_nil, or_false, not_or] at hp hfresh ⊢
    omega
  obtain ⟨hnodup, hiff⟩ := ecash_conserved_iff (Run.of_exec ht)
  exact ⟨t, Run.of_exec ht, hconserved, hnodup, hiff.mp hconserved⟩

/-- A crash between the answer of the mint and the writes: the old proof is spent, and the new
ones are nowhere. -/
theorem ecash_lost : ∃ t, Run Step ({} : World Nat Nat) (Small.swapped ++ [.crash]) t ∧ 3 ∈ t.obtained ∧ 3 ∉ t.spent ∧ 3 ∉ t.recorded ∧
    t.inMemory = [] := by
  obtain ⟨t, ht, heq⟩ := Option.map_eq_some_iff.mp Small.after_swap.1
  simp only [Prod.mk.injEq] at heq
  obtain ⟨hobtained, hspent, hrecorded, hmemory⟩ := heq
  refine ⟨t, Run.of_exec ht, ?_, ?_, ?_, hmemory⟩
  · simp [hobtained]
  · simp [hspent]
  · simp [hrecorded]

end Nostrautica.Cashu
