/-
What a transcript costs a stranger (`transcripts_guarded`): a text, or a ref on it, is had only with
a key that opens the blob, a call that is rejected for what its descriptor says leaves no trace,
and every byte streamed is booked once. `advance` is one step of one call; what it does is said
once for each of the three (`advance_sound`, `advance_quiet`, `advance_books`).
-/
import Nostrautica.Coordinator.Transcripts
import Nostrautica.Transition.Run

set_option linter.unusedSectionVars false

namespace Nostrautica.Transcripts

open Js

section

variable {crypto : Crypto} {d d' : MediaDescriptor} {p p' : Bytes} {x : JsString} {s : Store} {ask : Ask} {stage : Stage} {input : Input}
  {e : Effect} {heard ys : List (Bytes × JsString)} {row : Row} {w w' v : World} {y : Act} {acts : List Act} {i : Nat}

/-! ## Keys -/

theorem asciiBytes_injective : ∀ {s t : JsString}, s.all (·.val < 128) = true → t.all (·.val < 128) = true →
    asciiBytes s = asciiBytes t → s = t
  | [], [], _, _, _ => rfl
  | [], _ :: _, _, _, h => by cases h
  | _ :: _, [], _, _, h => by cases h
  | a :: s, b :: t, hs, ht, h => by
    simp only [List.all_cons, Bool.and_eq_true, decide_eq_true_eq] at hs ht
    obtain ⟨hab, hst⟩ := List.cons.inj h
    have hval : a.val = b.val := by
      have := congrArg UInt8.toNat hab
      simp only [UInt8.toNat_ofNat'] at this
      omega
    rw [Fin.ext hval, asciiBytes_injective hs.2 ht.2 hst]

theorem ascii_of_isHex32 {s : JsString} (h : isHex32 s = true) : s.all (·.val < 128) = true := by
  rw [isHex32, isLowerHex, Bool.and_eq_true] at h
  refine List.all_eq_true.2 fun c hc => decide_eq_true ?_
  have hdigit := List.all_eq_true.1 h.2 c hc
  simp only [isLowerHexDigit, Bool.or_eq_true, Bool.and_eq_true, decide_eq_true_eq] at hdigit
  omega

/-- A fingerprint is of one key, one nonce and one plaintext hash. -/
theorem fingerprint_injective (hsha : Function.Injective crypto.sha256Hex)
    (h : transcriptKeyFingerprint crypto d = transcriptKeyFingerprint crypto d') : d.ox = d'.ox ∧ d.key = d'.key ∧ d.nonce = d'.nonce := by
  have hbytes := hsha h
  obtain ⟨hrest, hnonce⟩ := List.append_inj' hbytes (d.nonce_length.trans d'.nonce_length.symm)
  obtain ⟨hhead, hkey⟩ := List.append_inj' hrest (d.key_length.trans d'.key_length.symm)
  refine ⟨?_, hkey, hnonce⟩
  simp only [asciiBytes, List.map_append] at hhead
  exact asciiBytes_injective (ascii_of_isHex32 d.ox_ok) (ascii_of_isHex32 d'.ox_ok)
    (List.append_cancel_left (List.append_cancel_right hhead))

/-- The key of a descriptor decrypts the blob of its hash. -/
def Opens (crypto : Crypto) (d : MediaDescriptor) (p : Bytes) : Prop :=
  ∃ c, crypto.sha256Hex c = d.x ∧ crypto.aesGcmDecrypt c d.key d.nonce = some p ∧ crypto.sha256Hex p = d.ox

/-- A ciphertext decrypts under at most one key, and to one plaintext. -/
def OneKey (crypto : Crypto) : Prop := ∀ c k n p k' n' p', crypto.aesGcmDecrypt c k n = some p → crypto.aesGcmDecrypt c k' n' = some p' →
  k = k' ∧ p = p'

theorem Opens.of_fingerprint (hsha : Function.Injective crypto.sha256Hex) (h : Opens crypto d p) (hx : d.x = d'.x)
    (hfp : transcriptKeyFingerprint crypto d = transcriptKeyFingerprint crypto d') : Opens crypto d' p := by
  obtain ⟨c, hc, hdec, hp⟩ := h
  obtain ⟨hox, hkey, hnonce⟩ := fingerprint_injective hsha hfp
  exact ⟨c, hc.trans hx, hkey ▸ hnonce ▸ hdec, hp.trans hox⟩

theorem Opens.unique (hsha : Function.Injective crypto.sha256Hex) (hone : OneKey crypto) (h : Opens crypto d p) (h' : Opens crypto d' p')
    (hx : d.x = d'.x) : p = p' := by
  obtain ⟨c, hc, hdec, -⟩ := h
  obtain ⟨c', hc', hdec', -⟩ := h'
  cases hsha (hc.trans (hx.trans hc'.symm))
  exact (hone _ _ _ _ _ _ _ hdec hdec').2

theorem opens_of_decryptMedia {c : Bytes} (h : decryptMedia crypto d c = some p) : Opens crypto d p := by
  rw [decryptMedia] at h
  split at h
  · cases h
  next hc =>
    obtain ⟨hdec, hp⟩ := Option.filter_eq_some_iff.1 h
    exact ⟨c, not_not.1 (not_or.1 hc).2, hdec, of_decide_eq_true hp⟩

/-! ## One step of a call -/

/-- A row of the cache: its text was made of the blob's plaintext, and its fingerprint is of a key that opens the blob. -/
def GoodRow (crypto : Crypto) (heard : List (Bytes × JsString)) (x : JsString) (row : Row) : Prop :=
  ∃ d p, d.x = x ∧ Opens crypto d p ∧ (p, row.text) ∈ heard ∧ row.key_fp = some (transcriptKeyFingerprint crypto d)

theorem GoodRow.more (h : GoodRow crypto heard x row) : GoodRow crypto (heard ++ ys) x row := by
  obtain ⟨d, p, hx, hp, hin, hfp⟩ := h
  exact ⟨d, p, hx, hp, List.mem_append_left _ hin, hfp⟩

/-- What a call carries with it. -/
def GoodStage (crypto : Crypto) (heard : List (Bytes × JsString)) (d : MediaDescriptor) : Stage → Prop
  | .starting => True
  | .downloading cached _ _ _ | .decrypting cached _ => ∀ row ∈ cached, GoodRow crypto heard d.x row
  | .probing p | .extracting p _ | .transcribing p _ _ _ _ => Opens crypto d p

theorem GoodStage.more (h : GoodStage crypto heard d stage) : GoodStage crypto (heard ++ ys) d stage := by
  cases stage with
  | downloading cached urls streamed allPermanent => exact fun row hrow => (h row hrow).more
  | decrypting cached ciphertext => exact fun row hrow => (h row hrow).more
  | _ => exact h

/-- The rows of a store. -/
def GoodRows (crypto : Crypto) (heard : List (Bytes × JsString)) (s : Store) : Prop :=
  ∀ x row, s.transcripts x = some row → GoodRow crypto heard x row

/-- What a step of a call may do. -/
structure Fair (crypto : Crypto) (heard : List (Bytes × JsString)) (s : Store) (ask : Ask) (e : Effect) : Prop where
  rows : GoodRows crypto (heard ++ e.heard.toList) e.store
  stage : ∀ stage, e.after = .inl stage → GoodStage crypto (heard ++ e.heard.toList) ask.descriptor stage
  text : ∀ text lang, e.after = .inr (.text text lang) → ∃ p, Opens crypto ask.descriptor p ∧ (p, text) ∈ heard ++ e.heard.toList
  ref : e.ref = true → ∃ p, Opens crypto ask.descriptor p
  refs : ∀ r ∈ e.store.refs, r ∈ s.refs ∨ e.ref = true ∧ ask.descriptor.x = r.1 ∧ ask.owner = some r.2

theorem transcripts_recordTranscriptRef (o : Option Owner) : (s.recordTranscriptRef x o).transcripts = s.transcripts := by
  cases o <;> rfl

theorem mem_recordTranscriptRef {o : Option Owner} {r : JsString × Owner} (h : r ∈ (s.recordTranscriptRef x o).refs) :
    r ∈ s.refs ∨ o.isSome = true ∧ x = r.1 ∧ o = some r.2 := by
  cases o with
  | none => exact .inl h
  | some o =>
    simp only [Store.recordTranscriptRef] at h
    split at h
    · exact .inl h
    · rcases List.mem_append.1 h with h | h
      · exact .inl h
      · cases List.mem_singleton.1 h
        exact .inr ⟨rfl, rfl, rfl⟩

/-- A step that leaves the store as it is. -/
theorem Fair.same (hrows : GoodRows crypto heard s) (hstore : e.store = s) (hheard : e.heard = none)
    (hstage : ∀ stage, e.after = .inl stage → GoodStage crypto heard ask.descriptor stage)
    (htext : ∀ text lang, e.after ≠ .inr (.text text lang)) (href : e.ref = false) : Fair crypto heard s ask e where
  rows := by
    rw [hstore, hheard, Option.toList_none, List.append_nil]
    exact hrows
  stage stage h := by
    rw [hheard, Option.toList_none, List.append_nil]
    exact hstage stage h
  text text lang h := absurd h (htext text lang)
  ref h := by rw [href] at h; cases h
  refs r hr := .inl (hstore ▸ hr)

theorem advance_sound (hsha : Function.Injective crypto.sha256Hex) (hone : OneKey crypto) (hrows : GoodRows crypto heard s)
    (hstage : GoodStage crypto heard ask.descriptor stage) (h : advance crypto s ask stage input = some e) : Fair crypto heard s ask e := by
  cases stage with
  | starting =>
    cases input with
    | start aborted =>
      simp only [advance] at h
      split at h <;> cases h
      · next row hrow =>
        obtain ⟨hrow, hfp⟩ := Option.filter_eq_some_iff.1 hrow
        obtain ⟨d, p, hx, hp, hin, hfp'⟩ := hrows _ _ hrow
        have hopens : Opens crypto ask.descriptor p :=
          hp.of_fingerprint hsha hx (Option.some.inj (hfp'.symm.trans (of_decide_eq_true hfp)))
        refine ⟨fun x row' hx' => ?_, fun _ h => (by cases h), fun text lang h => ?_, fun _ => ⟨p, hopens⟩, fun r hr => ?_⟩
        · rw [transcripts_recordTranscriptRef] at hx'
          exact (hrows x row' hx').more
        · cases h
          exact ⟨p, hopens, List.mem_append_left _ hin⟩
        · exact mem_recordTranscriptRef hr
      · refine .same hrows rfl rfl (fun stage hs => ?_) (fun text lang ht => ?_) rfl
        · dsimp only at hs
          split at hs
          · cases hs
          · split at hs <;> cases hs
            exact fun row hrow => hrows _ row hrow
        · dsimp only at ht
          split at ht
          · cases ht
          · split at ht <;> cases ht
    | _ => cases h
  | downloading cached urls streamed allPermanent =>
    cases urls with
    | nil =>
      cases input with
      | exhausted =>
        cases h
        refine .same hrows rfl rfl (fun _ h => by cases h) (fun text lang ht => ?_) rfl
        cases allPermanent <;> cases ht
      | _ => cases h
    | cons url urls =>
      cases input with
      | body chunks =>
        simp only [advance] at h
        split at h <;> cases h
        · next hbody =>
          refine .same hrows rfl rfl (fun stage hs => ?_) (fun text lang ht => ?_) rfl
          · dsimp only at hs
            split at hs <;> cases hs
            exact hstage
          · dsimp only at ht
            split at ht <;> cases ht
        · exact .same hrows rfl rfl (fun stage hs => by cases hs; exact hstage) (fun text lang ht => by cases ht) rfl
      | broken chunks retryable =>
        cases h
        exact .same hrows rfl rfl (fun stage hs => by cases hs; exact hstage) (fun text lang ht => by cases ht) rfl
      | _ => cases h
  | decrypting cached ciphertext =>
    cases input with
    | decrypted =>
      simp only [advance] at h
      split at h
      · cases h
        exact .same hrows rfl rfl (fun _ h => by cases h) (fun text lang ht => by cases ht) rfl
      next plaintext hplain =>
        have hopens := opens_of_decryptMedia hplain
        split at h <;> cases h
        · next row hrow =>
          obtain ⟨hrow, -⟩ := Option.filter_eq_some_iff.1 hrow
          -- The blob has one plaintext, whoever's key it was.
          have hin : ∀ {row'}, GoodRow crypto heard ask.descriptor.x row' → (plaintext, row'.text) ∈ heard := fun hg => by
            obtain ⟨d, p, hx, hp, hin, -⟩ := hg
            exact hopens.unique hsha hone hp hx.symm ▸ hin
          refine ⟨fun x row' hx' => ?_, fun _ h => (by cases h), fun text lang h => ?_, fun _ => ⟨plaintext, hopens⟩, fun r hr => ?_⟩
          · rw [transcripts_recordTranscriptRef] at hx'
            simp only [Store.setTranscriptKeyFp] at hx'
            by_cases hxx : x = ask.descriptor.x
            · subst hxx
              rw [Function.update_self] at hx'
              obtain ⟨old, hold, rfl⟩ := Option.map_eq_some_iff.1 hx'
              have htext : (plaintext, old.text) ∈ heard := hin (hrows _ old hold)
              exact ⟨ask.descriptor, plaintext, rfl, hopens, List.mem_append_left _ htext, rfl⟩
            · rw [Function.update_of_ne hxx] at hx'
              exact (hrows x row' hx').more
          · cases h
            exact ⟨plaintext, hopens, List.mem_append_left _ (hin (hstage row hrow))⟩
          · exact mem_recordTranscriptRef (s := s.setTranscriptKeyFp _ _) hr
        · exact .same hrows rfl rfl (fun stage hs => by cases hs; exact hopens) (fun text lang ht => by cases ht) rfl
    | _ => cases h
  | probing plaintext =>
    cases input with
    | probed durationSec =>
      cases h
      refine .same hrows rfl rfl (fun stage hs => ?_) (fun text lang ht => ?_) rfl
      · dsimp only at hs
        split at hs
        · cases hs
        · split at hs <;> cases hs
          exact hstage
      · dsimp only at ht
        split at ht
        · cases ht
        · split at ht <;> cases ht
    | thrown => cases h; exact .same hrows rfl rfl (fun _ h => by cases h) (fun text lang ht => by cases ht) rfl
    | _ => cases h
  | extracting plaintext realDurationSec =>
    cases input with
    | refused => cases h; exact .same hrows rfl rfl (fun _ h => by cases h) (fun text lang ht => by cases ht) rfl
    | extracted segments =>
      cases h
      refine .same hrows rfl rfl (fun stage hs => ?_) (fun text lang ht => ?_) rfl
      · dsimp only at hs
        split at hs <;> cases hs
        exact hstage
      · dsimp only at ht
        split at ht <;> cases ht
    | thrown => cases h; exact .same hrows rfl rfl (fun _ h => by cases h) (fun text lang ht => by cases ht) rfl
    | _ => cases h
  | transcribing plaintext segments parts lang audioBytes =>
    cases segments with
    | nil =>
      cases input with
      | complete =>
        simp only [advance] at h
        split at h <;> cases h
        · refine ⟨fun x row hx => (hrows x row hx).more, fun _ h => (by cases h), fun text lang ht => ?_, fun hr => (by cases hr), fun r hr => .inl hr⟩
          dsimp only at ht
          split at ht <;> cases ht
        · refine ⟨fun x row hx => ?_, fun _ h => (by cases h), fun text lang ht => ?_, fun _ => ⟨plaintext, hstage⟩, fun r hr => ?_⟩
          · rw [Store.putTranscript, transcripts_recordTranscriptRef] at hx
            dsimp only at hx
            by_cases hxx : x = ask.descriptor.x
            · subst hxx
              rw [Function.update_self] at hx
              cases hx
              exact ⟨ask.descriptor, plaintext, rfl, hstage, List.mem_append_right _ (List.mem_singleton_self _), rfl⟩
            · rw [Function.update_of_ne hxx] at hx
              exact (hrows x row hx).more
          · cases ht
            exact ⟨plaintext, hstage, List.mem_append_right _ (List.mem_singleton_self _)⟩
          · dsimp only [Store.putTranscript] at hr
            have hmem := mem_recordTranscriptRef hr
            exact hmem
      | thrown => cases h; exact .same hrows rfl rfl (fun _ h => by cases h) (fun text lang ht => by cases ht) rfl
      | _ => cases h
    | cons segment segments =>
      cases input with
      | heard text language =>
        cases h
        exact .same hrows rfl rfl (fun stage hs => by cases hs; exact hstage) (fun text lang ht => by cases ht) rfl
      | thrown => cases h; exact .same hrows rfl rfl (fun _ h => by cases h) (fun text lang ht => by cases ht) rfl
      | _ => cases h

/-- Outcomes with which a call writes nothing. -/
def Quiet : Outcome → Prop
  | .text _ _ | .emptyTranscript | .rejected .empty => False
  | _ => True

/-- A step that goes on, or ends quietly, writes nothing. -/
theorem advance_quiet (h : advance crypto s ask stage input = some e) (hq : ∀ o, e.after = .inr o → Quiet o) : e.store = s := by
  cases stage with
  | starting =>
    cases input with
    | start aborted =>
      simp only [advance] at h
      split at h <;> cases h
      · exact (hq _ rfl).elim
      · rfl
    | _ => cases h
  | downloading cached urls streamed allPermanent =>
    cases urls with
    | nil =>
      cases input with
      | exhausted => cases h; rfl
      | _ => cases h
    | cons url urls =>
      cases input with
      | body chunks =>
        simp only [advance] at h
        split at h <;> cases h <;> rfl
      | broken chunks retryable => cases h; rfl
      | _ => cases h
  | decrypting cached ciphertext =>
    cases input with
    | decrypted =>
      simp only [advance] at h
      split at h
      · cases h; rfl
      · split at h <;> cases h
        · exact (hq _ rfl).elim
        · rfl
    | _ => cases h
  | probing plaintext => cases input <;> cases h <;> rfl
  | extracting plaintext realDurationSec => cases input <;> cases h <;> rfl
  | transcribing plaintext segments parts lang audioBytes =>
    cases segments with
    | nil =>
      cases input with
      | complete =>
        simp only [advance] at h
        split at h <;> cases h
        · have hquiet := hq _ rfl
          split at hquiet
          · exact False.elim hquiet
          · exact False.elim hquiet
        · exact (hq _ rfl).elim
      | thrown => cases h; rfl
      | _ => cases h
    | cons segment segments => cases input <;> cases h <;> rfl

/-- The bytes that a call has streamed and not booked. -/
def Stage.pending : Stage → Nat
  | .downloading _ _ streamed _ => streamed
  | _ => 0

def Effect.pending (e : Effect) : Nat := (e.after.getLeft?.map Stage.pending).getD 0

theorem readBytes_eq {cap : Nat} : ∀ {chunks : List Bytes} {total : Nat}, total + chunks.flatten.length ≤ cap →
    readBytes cap total chunks = total + chunks.flatten.length
  | [], _, _ => rfl
  | chunk :: chunks, total, h => by
    rw [List.flatten_cons, List.length_append] at h ⊢
    rw [readBytes, if_neg (by omega), readBytes_eq (by omega)]
    omega

/-- A step books what was streamed, or carries it on. -/
theorem advance_books (h : advance crypto s ask stage input = some e) :
    (e.usage.map Usage.bytes).sum + e.pending = stage.pending + e.streamed := by
  cases stage with
  | starting =>
    cases input with
    | start aborted =>
      simp only [advance] at h
      split at h <;> cases h
      · rfl
      · dsimp only [Effect.pending]
        split
        · rfl
        · split <;> rfl
    | _ => cases h
  | downloading cached urls streamed allPermanent =>
    cases urls with
    | nil =>
      cases input with
      | exhausted =>
        cases h
        dsimp only [Effect.pending, Stage.pending]
        split
        · simp
        · simp; omega
      | _ => cases h
    | cons url urls =>
      cases input with
      | body chunks =>
        simp only [advance] at h
        split at h <;> cases h
        · next hbody =>
          have hread : readBytes ask.cap 0 chunks = chunks.flatten.length := by
            rw [readBytes_eq (by omega), Nat.zero_add]
          have hpending : ∀ {o : Outcome} {c : Bytes} {q : Prop} [Decidable q],
              ((if q then (.inr o : Stage ⊕ Outcome) else .inl (.decrypting cached c)).getLeft?.map Stage.pending).getD 0 = 0 := by
            intro o c q _
            split <;> rfl
          simp only [Effect.pending, hpending, Stage.pending, hread, List.map_cons, List.map_nil, List.sum_cons, List.sum_nil]
          omega
        · simp [Effect.pending, Stage.pending]
      | broken chunks retryable => cases h; simp [Effect.pending, Stage.pending]
      | _ => cases h
  | decrypting cached ciphertext =>
    cases input with
    | decrypted =>
      simp only [advance] at h
      split at h
      · cases h; rfl
      · split at h <;> cases h <;> rfl
    | _ => cases h
  | probing plaintext =>
    cases input with
    | probed durationSec =>
      cases h
      dsimp only [Effect.pending]
      split
      · rfl
      · split <;> rfl
    | thrown => cases h; rfl
    | _ => cases h
  | extracting plaintext realDurationSec =>
    cases input with
    | extracted segments =>
      cases h
      dsimp only [Effect.pending]
      split <;> split <;> rfl
    | refused => cases h; rfl
    | thrown => cases h; rfl
    | _ => cases h
  | transcribing plaintext segments parts lang audioBytes =>
    cases segments with
    | nil =>
      cases input with
      | complete =>
        simp only [advance] at h
        split at h <;> cases h <;> rfl
      | thrown => cases h; rfl
      | _ => cases h
    | cons segment segments => cases input <;> cases h <;> rfl

/-! ## Runs -/

/-- An action begins a call, or is one step of a call in flight. -/
theorem Step.cases (h : Step crypto w y w') :
    (∃ i ask, y = .call i ask ∧ w.asked i = none ∧ w' = begin w i ask) ∨
    ∃ i input ask stage e, y = .go i input ∧ w.asked i = some ask ∧ w.stages i = some stage ∧
      advance crypto w.store ask stage input = some e ∧ w' = apply w i e := by
  cases y with
  | call i ask =>
    simp only [Step, act] at h
    split at h <;> cases h
    next hi => exact .inl ⟨i, ask, rfl, Option.not_isSome_iff_eq_none.1 hi, rfl⟩
  | go i input =>
    simp only [Step, act] at h
    split at h
    next ask stage hask hstage =>
      obtain ⟨e, he, rfl⟩ := Option.map_eq_some_iff.1 h
      exact .inr ⟨i, input, ask, stage, e, rfl, hask, hstage, he, rfl⟩
    · cases h

/-- The bytes that were booked for a call. -/
def booked (w : World) (i : Nat) : Nat := ((w.usage.filter (·.1 = i)).map (·.2.bytes)).sum

/-- Where a call stands: it is in flight or over, once it was begun; what was streamed is booked, or in flight with it. -/
structure Placed (w : World) (i : Nat) : Prop where
  fresh : w.asked i = none → w.stages i = none ∧ w.outcomes i = none
  running : ∀ stage, w.stages i = some stage → w.outcomes i = none
  books : booked w i + ((w.stages i).map Stage.pending).getD 0 = w.streamed i

theorem booked_apply {j : Nat} : booked (apply w i e) j = booked w j + if i = j then (e.usage.map Usage.bytes).sum else 0 := by
  simp only [booked, apply, List.filter_append, List.map_append, List.sum_append]
  congr 1
  split
  next hij => rw [List.filter_eq_self.2 (by simp [hij]), List.map_map]; rfl
  next hij => rw [List.filter_eq_nil_iff.2 (by simp [hij])]; rfl

theorem booked_begin {j : Nat} : booked (begin w i ask) j = booked w j := rfl

theorem Placed.step (hw : ∀ i, Placed w i) (h : Step crypto w y w') (j : Nat) : Placed w' j := by
  rcases h.cases with ⟨i, ask, -, hnone, rfl⟩ | ⟨i, input, ask, stage, e, -, hask, hstage, he, rfl⟩
  · by_cases hji : j = i
    · subst hji
      obtain ⟨hstages, houtcomes⟩ := (hw j).fresh hnone
      have hbooks := (hw j).books
      rw [hstages] at hbooks
      refine ⟨fun h => ?_, fun _ _ => houtcomes, ?_⟩
      · simp only [begin, Function.update_self] at h
        cases h
      · rw [booked_begin]
        simp only [begin, Function.update_self]
        exact hbooks
    · refine ⟨fun h => ?_, fun stage h => ?_, ?_⟩
      · simp only [begin, Function.update_of_ne hji] at h ⊢
        exact (hw j).fresh h
      · simp only [begin, Function.update_of_ne hji] at h
        exact (hw j).running stage h
      · rw [booked_begin]
        simp only [begin, Function.update_of_ne hji]
        exact (hw j).books
  · have hbooks := (hw j).books
    by_cases hji : j = i
    · subst hji
      refine ⟨fun h => ?_, fun stage h => ?_, ?_⟩
      · cases hask.symm.trans h
      · simp only [apply, Function.update_self] at h ⊢
        cases ha : e.after with
        | inl _ => rfl
        | inr _ => rw [ha] at h; cases h
      · have hstep := advance_books he
        rw [booked_apply, if_pos rfl]
        rw [hstage] at hbooks
        simp only [apply, Function.update_self]
        rw [Effect.pending] at hstep
        simp only [Option.map_some, Option.getD_some] at hbooks
        omega
    · refine ⟨fun h => ?_, fun stage h => ?_, ?_⟩
      · simp only [apply, Function.update_of_ne hji] at h ⊢
        exact (hw j).fresh h
      · simp only [apply, Function.update_of_ne hji] at h ⊢
        exact (hw j).running stage h
      · rw [booked_apply, if_neg (Ne.symm hji)]
        simp only [apply, Function.update_of_ne hji]
        exact hbooks

/-- What the cache, the calls and the refs have was had with a key. -/
structure Sound (crypto : Crypto) (w : World) : Prop where
  rows : GoodRows crypto w.heard w.store
  stages : ∀ i ask stage, w.asked i = some ask → w.stages i = some stage → GoodStage crypto w.heard ask.descriptor stage
  texts : ∀ i text lang, w.outcomes i = some (.text text lang) →
    ∃ ask p, w.asked i = some ask ∧ Opens crypto ask.descriptor p ∧ (p, text) ∈ w.heard
  recorded : ∀ i ∈ w.recorded, ∃ ask p, w.asked i = some ask ∧ Opens crypto ask.descriptor p
  refs : ∀ r ∈ w.store.refs, ∃ i ∈ w.recorded, ∃ ask, w.asked i = some ask ∧ ask.descriptor.x = r.1 ∧ ask.owner = some r.2

theorem sound_start : Sound crypto {} where
  rows _ _ h := by cases h
  stages _ _ _ h := by cases h
  texts _ _ _ h := by cases h
  recorded _ h := by cases h
  refs _ h := by cases h

theorem Sound.step (hsha : Function.Injective crypto.sha256Hex) (hone : OneKey crypto) (hw : Sound crypto w) (h : Step crypto w y w') :
    Sound crypto w' := by
  rcases h.cases with ⟨i, ask, -, hnone, rfl⟩ | ⟨i, input, ask, stage, e, -, hask, hstage, he, rfl⟩
  · -- A call that begins was not asked before.
    have hkeep : ∀ {j b}, w.asked j = some b → Function.update w.asked i (some ask) j = some b := fun {j b} hj => by
      rw [Function.update_of_ne]
      · exact hj
      · rintro rfl
        cases hnone.symm.trans hj
    refine ⟨hw.rows, fun j b stage hb hs => ?_, fun j text lang ho => ?_, fun j hj => ?_, fun r hr => ?_⟩
    · by_cases hji : j = i
      · subst hji
        simp only [begin, Function.update_self] at hs
        cases hs
        trivial
      · simp only [begin, Function.update_of_ne hji] at hb hs
        exact hw.stages j b stage hb hs
    · obtain ⟨b, p, hb, hp⟩ := hw.texts j text lang ho
      exact ⟨b, p, hkeep hb, hp⟩
    · obtain ⟨b, p, hb, hp⟩ := hw.recorded j hj
      exact ⟨b, p, hkeep hb, hp⟩
    · obtain ⟨j, hj, b, hb, hr⟩ := hw.refs r hr
      exact ⟨j, hj, b, hkeep hb, hr⟩
  · have hfair := advance_sound hsha hone hw.rows (hw.stages i ask stage hask hstage) he
    have hgrow : ∀ {j}, j ∈ w.recorded → j ∈ (apply w i e).recorded := fun hj => by
      simp only [apply]
      split
      · exact List.mem_append_left _ hj
      · exact hj
    refine ⟨hfair.rows, fun j b stage hb hs => ?_, fun j text lang ho => ?_, fun j hj => ?_, fun r hr => ?_⟩
    · by_cases hji : j = i
      · subst hji
        cases hask.symm.trans hb
        simp only [apply, Function.update_self] at hs
        exact hfair.stage stage (Sum.getLeft?_eq_some_iff.1 hs)
      · simp only [apply, Function.update_of_ne hji] at hs
        exact (hw.stages j b stage hb hs).more
    · by_cases hji : j = i
      · subst hji
        simp only [apply, Function.update_self] at ho
        obtain ⟨p, hp⟩ := hfair.text text lang (Sum.getRight?_eq_some_iff.1 ho)
        exact ⟨ask, p, hask, hp⟩
      · simp only [apply, Function.update_of_ne hji] at ho
        obtain ⟨b, p, hb, hp, hin⟩ := hw.texts j text lang ho
        exact ⟨b, p, hb, hp, List.mem_append_left _ hin⟩
    · simp only [apply] at hj
      split at hj
      next href =>
        rcases List.mem_append.1 hj with hj | hj
        · exact hw.recorded j hj
        · cases List.mem_singleton.1 hj
          obtain ⟨p, hp⟩ := hfair.ref href
          exact ⟨ask, p, hask, hp⟩
      · exact hw.recorded j hj
    · rcases hfair.refs r hr with hr | ⟨href, hx, howner⟩
      · obtain ⟨j, hj, b, hb, hr⟩ := hw.refs r hr
        exact ⟨j, hgrow hj, b, hb, hr⟩
      · refine ⟨i, ?_, ask, hask, hx, howner⟩
        simp only [apply, if_pos href]
        exact List.mem_append_right _ (List.mem_singleton_self _)

/-- Two histories that differ in one call only, which has left no trace. -/
structure Off (i : Nat) (w v : World) : Prop where
  store : v.store = w.store
  asked : ∀ j, j ≠ i → v.asked j = w.asked j
  stages : ∀ j, j ≠ i → v.stages j = w.stages j
  outcomes : ∀ j, j ≠ i → v.outcomes j = w.outcomes j

/-- What is over stays as it is. -/
theorem outcomes_step (hw : ∀ i, Placed w i) (h : Step crypto w y w') {o : Outcome} (ho : w.outcomes i = some o) : w'.outcomes i = some o := by
  rcases h.cases with ⟨j, ask, -, hnone, rfl⟩ | ⟨j, input, ask, stage, e, -, hask, hstage, he, rfl⟩
  · exact ho
  · have hij : i ≠ j := by
      rintro rfl
      cases ho.symm.trans ((hw i).running stage hstage)
    simp only [apply, Function.update_of_ne hij]
    exact ho

theorem outcomes_run {t : World} (h : Run (Step crypto) w acts t) (hw : ∀ i, Placed w i) {o : Outcome} (ho : w.outcomes i = some o) :
    t.outcomes i = some o := by
  induction h with
  | nil => exact ho
  | cons ha _ ih => exact ih (fun j => Placed.step hw ha j) (outcomes_step hw ha ho)

/-- A step of another call happens in the other history too. -/
theorem Off.other (hoff : Off i w v) (h : Step crypto w y w') (hy : y.number ≠ i) : ∃ v', Step crypto v y v' ∧ Off i w' v' := by
  have hupdate : ∀ {α : Type} {f g : Nat → α} {j : Nat} {a : α}, (∀ k, k ≠ i → f k = g k) →
      ∀ k, k ≠ i → Function.update f j a k = Function.update g j a k := fun {α f g j a} hfg k hk => by
    by_cases hkj : k = j
    · rw [hkj, Function.update_self, Function.update_self]
    · rw [Function.update_of_ne hkj, Function.update_of_ne hkj, hfg k hk]
  rcases h.cases with ⟨j, ask, rfl, hnone, rfl⟩ | ⟨j, input, ask, stage, e, rfl, hask, hstage, he, rfl⟩
  · refine ⟨begin v j ask, ?_, hoff.store, hupdate hoff.asked, hupdate hoff.stages, hoff.outcomes⟩
    simp [Step, act, hoff.asked j hy, hnone]
  · refine ⟨apply v j e, ?_, rfl, hoff.asked, hupdate hoff.stages, hupdate hoff.outcomes⟩
    simp [Step, act, hoff.asked j hy, hoff.stages j hy, hask, hstage, hoff.store, he]

/-- A step of the call that leaves the store as it was. -/
theorem Off.own (hoff : Off i w v) (h : Step crypto w y w') (hy : y.number = i) (hstore : w'.store = w.store) : Off i w' v := by
  have hupdate : ∀ {α : Type} {f g : Nat → α} {a : α}, (∀ k, k ≠ i → f k = g k) → ∀ k, k ≠ i → f k = Function.update g i a k :=
    fun hfg k hk => by rw [Function.update_of_ne hk, hfg k hk]
  rcases h.cases with ⟨j, ask, rfl, hnone, rfl⟩ | ⟨j, input, ask, stage, e, rfl, hask, hstage, he, rfl⟩
  · cases hy
    exact ⟨hoff.store, hupdate hoff.asked, hupdate hoff.stages, hoff.outcomes⟩
  · cases hy
    exact ⟨hoff.store.trans hstore.symm, hoff.asked, hupdate hoff.stages, hupdate hoff.outcomes⟩

/-- A call that ends quietly may as well not have been. -/
theorem Off.run {t : World} (h : Run (Step crypto) w acts t) : ∀ {v}, (∀ i, Placed w i) → Off i w v → ∀ {o}, t.outcomes i = some o → Quiet o →
    ∃ u, Run (Step crypto) v (acts.filter fun y => y.number ≠ i) u ∧ Off i t u := by
  induction h with
  | nil => exact fun _ hoff _ _ _ => ⟨_, .nil, hoff⟩
  | @cons w y w' acts t ha hrun ih =>
    intro v hw hoff o ho hq
    have hw' := fun j => Placed.step hw ha j
    by_cases hy : y.number = i
    · have hstore : w'.store = w.store := by
        rcases ha.cases with ⟨j, ask, -, -, rfl⟩ | ⟨j, input, ask, stage, e, rfl, hask, hstage, he, rfl⟩
        · rfl
        · cases hy
          refine advance_quiet he fun o' ho' => ?_
          have hend : (apply w j e).outcomes j = some o' := by
            simp only [apply, Function.update_self, ho']
            rfl
          cases (outcomes_run hrun hw' hend).symm.trans ho
          exact hq
      obtain ⟨u, hu, hoff'⟩ := ih hw' (hoff.own ha hy hstore) ho hq
      exact ⟨u, by rwa [List.filter_cons_of_neg (by simp [hy])], hoff'⟩
    · obtain ⟨v', hv', hoff'⟩ := hoff.other ha hy
      obtain ⟨u, hu, hoff''⟩ := ih hw' hoff' ho hq
      exact ⟨u, by rw [List.filter_cons_of_pos (by simp [hy])]; exact .cons hv' hu, hoff''⟩

end

/-! ## A run -/

namespace Small

/-- A hash without collisions, and a cipher of one key. -/
def crypto : Crypto where
  sha256Hex b := b.map fun x => codeUnit x.toNat
  aesGcmDecrypt c k n := if k = List.replicate 32 1 ∧ n = List.replicate 12 2 then some c else none

def blob : Bytes := List.replicate 64 97

/-- A descriptor of the blob, with this key. -/
def descriptor (key : UInt8) : MediaDescriptor where
  url := [js "https://media.example/a"]
  x := List.replicate 64 (codeUnit 97)
  ox := List.replicate 64 (codeUnit 97)
  size := 64
  key := List.replicate 32 key
  nonce := List.replicate 12 2
  ox_ok := by decide
  key_length := rfl
  nonce_length := rfl

/-- The blob's owner has it transcribed, and then a stranger asks without its key. -/
def run : List Act :=
  [.call 0 { descriptor := descriptor 1, owner := some ⟨js "meet", js "ada"⟩ }, .go 0 (.start false), .go 0 (.body [blob]), .go 0 .decrypted,
    .go 0 (.probed none), .go 0 (.extracted [⟨100, none⟩]), .go 0 (.heard (js "hi") none), .go 0 .complete,
    .call 1 { descriptor := descriptor 3, owner := some ⟨js "meet", js "eve"⟩ }, .go 1 (.start false), .go 1 (.body [blob]), .go 1 .decrypted]

/-- How the two calls end, and who has refs. -/
def told (w : World) : Option Outcome × Option Outcome × List JsString := (w.outcomes 0, w.outcomes 1, w.store.refs.map (·.2.pubkey))

end Small

end Nostrautica.Transcripts
