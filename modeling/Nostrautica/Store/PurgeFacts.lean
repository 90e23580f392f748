/-
What the event purge deletes, table by table, and what it leaves.

It never touches a row of another event, nor a payload another event still
references (`keeps_purgeEventArtifacts`). It clears the event itself exactly
when nobody without an attendees row has rows in the tables it goes through
attendee by attendee (`purgeEventArtifacts_complete`).
-/
import Nostrautica.Store.Purge

namespace Nostrautica.Purge

open Js Sql Database

variable {ρ : Table → Type} {s s' : Store ρ} {c p : JsString} {t : Table}

/-! ## Frames -/

theorem foldl_dropTranscript (h : t ≠ .transcripts) (h' : t ≠ .stt_empty_attempts) (l : List JsString) :
    l.foldl dropTranscript s t = s t := by
  refine foldl_frame (fun s x => ?_) l s
  unfold dropTranscript
  split
  · rw [delete_of_ne h', delete_of_ne h]
  · rfl

theorem foldl_dropArtifact (h : t ≠ .pipeline_artifacts) (l : List (JsString × JsString)) :
    l.foldl dropArtifact s t = s t := by
  refine foldl_frame (fun s a => ?_) l s
  unfold dropArtifact
  split
  · rw [delete_of_ne h]
  · rfl

theorem foldl_dropSummary (h : t ≠ .nostr_summaries) (l : List JsString) : l.foldl (dropSummary p) s t = s t := by
  refine foldl_frame (fun s x => ?_) l s
  unfold dropSummary
  split
  · rw [delete_of_ne h]
  · rfl

/-- The payload tables, whose rows are of no event. -/
def payloadTables : List Table := [.transcripts, .stt_empty_attempts, .pipeline_artifacts, .nostr_summaries]

theorem purgeTranscripts_of_ne {l : List JsString} (h : t ∉ payloadTables) (ht : t ≠ .transcript_refs) :
    purgeTranscripts s c p l t = s t := by
  simp only [payloadTables, List.mem_cons, not_or] at h
  unfold purgeTranscripts
  rw [foldl_dropTranscript h.1 h.2.1, delete_of_ne ht]

theorem purgeTranscripts_refs {l : List JsString} :
    purgeTranscripts s c p l .transcript_refs = (s .transcript_refs).filter fun r => !ofSubject c p .transcript_refs r := by
  unfold purgeTranscripts
  rw [foldl_dropTranscript (by decide) (by decide), delete_self]

theorem purgeArtifacts_of_ne (h : t ∉ payloadTables) (ht : t ≠ .artifact_refs) : purgeArtifacts s c p t = s t := by
  simp only [payloadTables, List.mem_cons, not_or] at h
  unfold purgeArtifacts
  rw [foldl_dropArtifact h.2.2.1, delete_of_ne ht]

theorem purgeArtifacts_refs :
    purgeArtifacts s c p .artifact_refs = (s .artifact_refs).filter fun r => !ofSubject c p .artifact_refs r := by
  unfold purgeArtifacts
  rw [foldl_dropArtifact (by decide), delete_self]

theorem purgeSummaries_of_ne (h : t ∉ payloadTables) (ht : t ≠ .summary_refs) : purgeSummaries s c p t = s t := by
  simp only [payloadTables, List.mem_cons, not_or] at h
  unfold purgeSummaries dropLegacySummaries
  rw [delete_of_ne h.2.2.2.1, foldl_dropSummary h.2.2.2.1, delete_of_ne ht]

theorem purgeSummaries_refs :
    purgeSummaries s c p .summary_refs = (s .summary_refs).filter fun r => !ofSubject c p .summary_refs r := by
  unfold purgeSummaries dropLegacySummaries
  rw [delete_of_ne (by decide), foldl_dropSummary (by decide), delete_self]

/-! ## What it deletes -/

/-- Of the tables with an event, one subject's purge takes the subject's rows. -/
theorem purgeSubjectInTxn_rows {l : List JsString} (h : t ∈ subjectTables) :
    purgeSubjectInTxn s c p l t = (s t).filter fun r => !ofSubject c p t r := by
  simp only [subjectTables, List.mem_cons, List.not_mem_nil, or_false] at h
  unfold purgeSubjectInTxn
  rcases h with rfl | rfl | rfl | rfl | rfl
  · rw [delete_self, delete_of_ne (by decide), purgeSummaries_of_ne (by decide) (by decide),
      purgeArtifacts_of_ne (by decide) (by decide), purgeTranscripts_of_ne (by decide) (by decide)]
  · rw [delete_of_ne (by decide), delete_self, purgeSummaries_of_ne (by decide) (by decide),
      purgeArtifacts_of_ne (by decide) (by decide), purgeTranscripts_of_ne (by decide) (by decide)]
  · rw [delete_of_ne (by decide), delete_of_ne (by decide), purgeSummaries_of_ne (by decide) (by decide),
      purgeArtifacts_of_ne (by decide) (by decide), purgeTranscripts_refs]
  · rw [delete_of_ne (by decide), delete_of_ne (by decide), purgeSummaries_of_ne (by decide) (by decide),
      purgeArtifacts_refs, purgeTranscripts_of_ne (by decide) (by decide)]
  · rw [delete_of_ne (by decide), delete_of_ne (by decide), purgeSummaries_refs,
      purgeArtifacts_of_ne (by decide) (by decide), purgeTranscripts_of_ne (by decide) (by decide)]

theorem purgeSubjectInTxn_of_not_mem {l : List JsString} (h : t ∉ subjectTables) (hp : t ∉ payloadTables) :
    purgeSubjectInTxn s c p l t = s t := by
  simp only [subjectTables, List.mem_cons, not_or] at h
  unfold purgeSubjectInTxn
  rw [delete_of_ne h.1, delete_of_ne h.2.1, purgeSummaries_of_ne hp h.2.2.2.2.1, purgeArtifacts_of_ne hp h.2.2.2.1,
    purgeTranscripts_of_ne hp h.2.2.1]

/-- An event-wide deletion, and those after it. -/
theorem foldl_deleteEvent : ∀ (ts : List Table) (s : Store ρ), ts.foldl (deleteEvent c) s t =
    if t ∈ ts then (s t).filter fun r => !decide (coordinate? t r = some c) else s t
  | [], s => by simp
  | u :: ts, s => by
    rw [List.foldl_cons, foldl_deleteEvent ts]
    unfold deleteEvent
    by_cases hu : t = u
    · subst hu
      rw [delete_self, List.filter_filter]
      simp
    · rw [delete_of_ne hu]
      simp [hu]

theorem foldl_purgeAttendee (h : t ∈ subjectTables) (ps : List JsString) :
    ps.foldl (purgeAttendee c) s t = (s t).filter fun r => !ps.any fun p => ofSubject c p t r := by
  refine foldl_filter (p := fun p => ofSubject c p t) (fun s p => ?_) ps s
  unfold purgeAttendee
  exact purgeSubjectInTxn_rows h

theorem foldl_purgeAttendee_of_not_mem (h : t ∉ subjectTables) (hp : t ∉ payloadTables) (ps : List JsString) :
    ps.foldl (purgeAttendee c) s t = s t := by
  refine foldl_frame (fun s p => ?_) ps s
  unfold purgeAttendee
  exact purgeSubjectInTxn_of_not_mem h hp

/-- Event-wide tables lose the event's rows. -/
theorem purgeEventArtifacts_event (h : t ∈ eventTables) :
    purgeEventArtifacts s c t = (s t).filter fun r => !decide (coordinate? t r = some c) := by
  have hs : t ∉ subjectTables := by revert h; cases t <;> decide
  have hp : t ∉ payloadTables := by revert h; cases t <;> decide
  unfold purgeEventArtifacts
  rw [foldl_deleteEvent, if_pos h, foldl_purgeAttendee_of_not_mem hs hp]

/-- The other tables of the event lose the rows of its attendees. -/
theorem purgeEventArtifacts_subject (h : t ∈ subjectTables) : purgeEventArtifacts s c t =
    (s t).filter fun r => !(attendeePubkeys s c).any fun p => ofSubject c p t r := by
  have he : t ∉ eventTables := by revert h; cases t <;> decide
  unfold purgeEventArtifacts
  rw [foldl_deleteEvent, if_neg he, foldl_purgeAttendee h]

/-- Payload rows are of no event. -/
theorem coordinate?_payload (h : t ∈ payloadTables) (r : Row ρ t) : coordinate? t r = none := by
  revert r
  cases t <;> first | exact fun _ => rfl | exact absurd h (by decide)

/-- **The purge clears the event exactly when it has no orphans.** -/
theorem purgeEventArtifacts_complete : Gone c (purgeEventArtifacts s c) ↔ NoOrphans c s := by
  constructor
  · intro h t ht r hr hc
    by_contra hno
    refine h t r ?_ hc
    rw [purgeEventArtifacts_subject ht, List.mem_filter]
    refine ⟨hr, ?_⟩
    rw [Bool.not_eq_true', List.any_eq_false]
    exact fun p hp hpr => hno ⟨p, hp, hpr⟩
  · intro h t r hr hc
    by_cases ht : t ∈ subjectTables
    · rw [purgeEventArtifacts_subject ht, List.mem_filter] at hr
      obtain ⟨p, hp, hpr⟩ := h t ht r hr.1 hc
      have hany : ((attendeePubkeys s c).any fun p => ofSubject c p t r) = true := List.any_eq_true.mpr ⟨p, hp, hpr⟩
      rw [hany] at hr
      cases hr.2
    · by_cases he : t ∈ eventTables
      · rw [purgeEventArtifacts_event he, List.mem_filter] at hr
        simp [hc] at hr
      · have hp : t ∈ payloadTables := by revert ht he; cases t <;> decide
        rw [coordinate?_payload hp] at hc
        cases hc

/-! ## What it leaves -/

/-- Where rows have an event, those of other events must stay. -/
theorem mustStay_of_not_mem (h : t ∉ payloadTables) (r : Row ρ t) :
    mustStay c s t r = (coordinate? t r).any (· ≠ c) := by
  revert r
  cases t <;> first | exact fun _ => rfl | exact absurd (by decide) h

theorem coordinate?_of_ofSubject {r : Row ρ t} (h : ofSubject c p t r = true) : coordinate? t r = some c := by
  revert r
  cases t <;> intro r h
  case attendees | submissions | talks | transcript_refs | artifact_refs | summary_refs =>
    simp only [ofSubject, Bool.and_eq_true, decide_eq_true_eq] at h
    simp only [coordinate?, h.1]
  all_goals cases h

/-- Deleting rows of the event leaves the others alone. -/
theorem keeps_delete_event (h : Keeps (mustStay c s) s s') (ht : t ∉ payloadTables) {q : Row ρ t → Bool}
    (hq : ∀ r, q r = true → coordinate? t r = some c) : Keeps (mustStay c s) s (s'.delete t q) := by
  refine h.delete fun r _ hr => ?_
  by_contra hqr
  rw [mustStay_of_not_mem ht, hq r (by simpa using hqr)] at hr
  simp at hr

theorem keeps_deleteSubject (h : Keeps (mustStay c s) s s') (ht : t ∉ payloadTables) :
    Keeps (mustStay c s) s (s'.delete t (ofSubject c p t)) :=
  keeps_delete_event h ht fun _ => coordinate?_of_ofSubject

theorem keeps_dropTranscript (h : Keeps (mustStay c s) s s') (x : JsString) :
    Keeps (mustStay c s) s (dropTranscript s' x) := by
  unfold dropTranscript
  split
  next hn =>
    have hfree : ∀ f ∈ s .transcript_refs, TranscriptRef.coordinate f ≠ c → TranscriptRef.blob_sha256 f ≠ x := by
      intro f hf hc hx
      have hf' : f ∈ s' .transcript_refs := (h.mem_iff (by simpa [mustStay, coordinate?] using hc)).mpr hf
      have hpos : 0 < transcriptRefCount s' x := List.countP_pos_iff.mpr ⟨f, hf', by simp [hx]⟩
      exact Nat.ne_of_gt hpos hn
    refine (h.delete fun r _ hq => ?_).delete fun r _ hq => ?_
    · obtain ⟨f, hf, hfq⟩ := List.any_eq_true.mp hq
      simp only [Bool.and_eq_true, decide_eq_true_eq] at hfq
      have hne := hfree f hf hfq.2
      rw [hfq.1] at hne
      exact decide_eq_false hne
    · cases hq
  next => exact h

theorem keeps_dropArtifact (h : Keeps (mustStay c s) s s') (a : JsString × JsString) :
    Keeps (mustStay c s) s (dropArtifact s' a) := by
  unfold dropArtifact
  split
  next hn =>
    refine h.delete fun r _ hq => ?_
    obtain ⟨f, hf, hfq⟩ := List.any_eq_true.mp hq
    simp only [Bool.and_eq_true, decide_eq_true_eq] at hfq
    obtain ⟨⟨hst, hin⟩, hc⟩ := hfq
    have hf' : f ∈ s' .artifact_refs := (h.mem_iff (by simpa [mustStay, coordinate?] using hc)).mpr hf
    by_contra hr
    simp only [Bool.not_eq_false, Bool.and_eq_true, decide_eq_true_eq] at hr
    have hpos : 0 < artifactRefCount s' a.1 a.2 :=
      List.countP_pos_iff.mpr ⟨f, hf', by simp [hst, hin, hr.1, hr.2]⟩
    exact Nat.ne_of_gt hpos hn
  next => exact h

theorem keeps_dropSummary (h : Keeps (mustStay c s) s s') (x : JsString) :
    Keeps (mustStay c s) s (dropSummary p s' x) := by
  unfold dropSummary
  split
  next hn =>
    refine h.delete fun r _ hq => ?_
    obtain ⟨f, hf, hfq⟩ := List.any_eq_true.mp hq
    simp only [Bool.and_eq_true, decide_eq_true_eq] at hfq
    obtain ⟨⟨hpk, hin⟩, hc⟩ := hfq
    have hf' : f ∈ s' .summary_refs := (h.mem_iff (by simpa [mustStay, coordinate?] using hc)).mpr hf
    by_contra hr
    simp only [Bool.not_eq_false, Bool.and_eq_true, decide_eq_true_eq] at hr
    have hpos : 0 < summaryRefCount s' p x := List.countP_pos_iff.mpr ⟨f, hf', by simp [hpk, hin, hr.1, hr.2]⟩
    exact Nat.ne_of_gt hpos hn
  next => exact h

theorem keeps_purgeSubjectInTxn (h : Keeps (mustStay c s) s s') (l : List JsString) :
    Keeps (mustStay c s) s (purgeSubjectInTxn s' c p l) := by
  have h1 : Keeps (mustStay c s) s (purgeTranscripts s' c p l) :=
    (keeps_deleteSubject h (by decide)).foldl fun _ x _ h => keeps_dropTranscript h x
  have h2 : Keeps (mustStay c s) s (purgeArtifacts (purgeTranscripts s' c p l) c p) :=
    (keeps_deleteSubject h1 (by decide)).foldl fun _ x _ h => keeps_dropArtifact h x
  have h3 : Keeps (mustStay c s) s (purgeSummaries (purgeArtifacts (purgeTranscripts s' c p l) c p) c p) := by
    unfold purgeSummaries
    have hs := (keeps_deleteSubject (p := p) h2 (t := .summary_refs) (by decide)).foldl
      (f := dropSummary p) (l := ((subjectRows (purgeArtifacts (purgeTranscripts s' c p l) c p) c p .summary_refs).map
        fun r => SummaryRef.inputs_hash r)) fun _ x _ h => keeps_dropSummary h x
    refine hs.delete fun r _ hq => ?_
    obtain ⟨f, hf, hfq⟩ := List.any_eq_true.mp hq
    simp only [Bool.and_eq_true, decide_eq_true_eq] at hfq
    obtain ⟨⟨hpk, hin⟩, hc⟩ := hfq
    have hf' := (hs.mem_iff (t := .summary_refs) (r := f) (by simpa [mustStay, coordinate?] using hc)).mpr hf
    by_contra hr
    simp only [Bool.not_eq_false, Bool.and_eq_true, decide_eq_true_eq, Bool.not_eq_true'] at hr
    have hmem : Summary.inputs_hash r ∈ referencedSummaries _ p :=
      List.mem_map.mpr ⟨f, List.mem_filter.mpr ⟨hf', by simp [hpk, hr.1]⟩, hin⟩
    simp [hmem] at hr
  exact keeps_deleteSubject (keeps_deleteSubject h3 (by decide)) (by decide)

/-- **The purge leaves every other event alone**, and every payload that another event references. -/
theorem keeps_purgeEventArtifacts : Keeps (mustStay c s) s (purgeEventArtifacts s c) := by
  have h : Keeps (mustStay c s) s ((attendeePubkeys s c).foldl (purgeAttendee c) s) :=
    (Keeps.refl s).foldl fun _ p _ h => keeps_purgeSubjectInTxn h _
  refine h.foldl fun s' t ht h => keeps_delete_event h ?_ fun r hr => of_decide_eq_true hr
  revert ht
  cases t <;> decide

/-- **The event purge is complete and isolated exactly when the event has no orphans.** -/
theorem purgeEventArtifacts_iff :
    Gone c (purgeEventArtifacts s c) ∧ Keeps (mustStay c s) s (purgeEventArtifacts s c) ↔ NoOrphans c s := by
  rw [purgeEventArtifacts_complete, and_iff_left keeps_purgeEventArtifacts]

/-- A transcription that was under way when its attendee withdrew with
`delete_data`: the ref was recorded after the attendee's rows were purged. -/
def lateTranscription : Store fun _ => Unit
  | .transcript_refs => [⟨js "blob", js "31923:org:camp", js "ann", ()⟩]
  | .transcripts => [⟨js "blob", ()⟩]
  | _ => []

theorem purgeEventArtifacts_lateTranscription :
    ¬ (Gone (js "31923:org:camp") (purgeEventArtifacts lateTranscription (js "31923:org:camp")) ∧
      Keeps (mustStay (js "31923:org:camp") lateTranscription) lateTranscription
        (purgeEventArtifacts lateTranscription (js "31923:org:camp"))) := by
  rintro ⟨h, -⟩
  obtain ⟨pubkey, hp, -⟩ := purgeEventArtifacts_complete.mp h .transcript_refs (by decide) _ (.head _) rfl
  cases hp

end Nostrautica.Purge
