/-
The intro library: `addToLibrary` and `loadLibraryFull` of `app/src/lib/media/submit.ts`, in the
tabs of one browser profile, which share the library's lock and the store on disk.

A media descriptor is its ciphertext hash. The event's encryption and address are left out, and so
are the other rows of the cache.

When the intro library only grows (`library_grows_iff`): when each clip that this profile has
published is still in the version read from a relay or in the mirror's copy, under no later date.
The read itself writes the relay's version over the mirror's copy, so a clip that is in the outbox
only is lost as soon as another device publishes (`queued_clip_lost`).
-/
import Nostrautica.App.Tabs
import Nostrautica.Transition.Prefixes

namespace Nostrautica.Library

open Js Cache

/-- `MAX_LIBRARY_TEXTS`. -/
def maxLibraryTexts : Nat := 20

/-- A version of the library: what its event encrypts. -/
structure Version where
  media : List JsString := []
  mediaAt : JsMap JsString Int := .empty
  texts : List JsString := []

/-- A row of the cache. -/
inductive Data
  | media (hashes : List JsString)
  | mediaAt (dates : JsMap JsString Int)
  | texts (texts : List JsString)

/-- `MEDIALIB_KEY`. -/
def mediaLibKey : JsString := js "medialib"

/-- `TEXTLIB_KEY`. -/
def textLibKey : JsString := js "textlib"

/-- `MEDIALIB_AT_KEY`. -/
def mediaLibAtKey : JsString := js "medialib-at"

/-! ## The merge of `addToLibraryLocked` -/

/-- `if (mergedAt[x] === undefined) mergedAt[x] = nowSec`. -/
def stampNew (now : Int) (dates : JsMap JsString Int) (x : JsString) : JsMap JsString Int :=
  if dates.has x then dates else dates.set x now

/-- A text goes last, wherever it was. -/
def pushText (texts : List JsString) (txt : JsString) : List JsString := texts.erase txt ++ [txt]

/-- `content`: this device's copy, the version that was read and the additions. -/
def mergeLibrary (cached existing : Version) (media texts : List JsString) (now : Int) : Version :=
  let mergedMedia := (cached.media ++ existing.media ++ media).eraseDups
  let mergedTexts := texts.foldl pushText (cached.texts.filter (fun t => t ∉ existing.texts) ++ existing.texts)
  { media := mergedMedia
    mediaAt := mergedMedia.foldl (stampNew now) (cached.mediaAt.spread existing.mediaAt)
    texts := mergedTexts.drop (mergedTexts.length - maxLibraryTexts) }

/-! ## Tabs -/

/-- What the relays answer a read of the library. -/
inductive Answer
  /-- No event, whether or not a relay has answered. -/
  | nothing (answered : Bool)
  | undecryptable
  | version (v : Version) (createdAt : Int) (answered : Bool)

/-- How far a call has come in the lock. -/
inductive Stage
  | locked
  | read (existing : Version) (known : Bool)
  /-- It has merged, at the time `now`, the version that it read and the copy that it found in the mirror. -/
  | merged (existing cached : Version) (known : Bool) (now : Int)
  | signed (content : Version) (createdAt : Int)
  | published (content : Version) (createdAt : Int)

/-- The tab that holds the lock, and its additions. -/
structure Holder (τ : Type) where
  tab : τ
  media : List JsString
  texts : List JsString
  stage : Stage := .locked

/-- A library event as it was signed: what it carries and what it was made of, with the versions
that the profile had published by then. -/
structure Signed where
  content : Version
  existing : Version
  known : Bool
  media : List JsString
  before : List Version

variable {τ : Type} [DecidableEq τ]

structure World (τ : Type) extends Tabs τ Data where
  lock : Option (Holder τ) := none
  /-- `lastReplaceableTimestamp`, in each tab. -/
  last : τ → Int := fun _ => 0
  signed : List Signed := []
  /-- The versions that a relay has accepted or the outbox has taken, in this order. -/
  published : List Version := []

inductive Act (τ : Type)
  /-- The tab is loaded again. -/
  | boot (t : τ)
  /-- Something else that the cache of the tab does. -/
  | cache (t : τ) (x : Cache.Act Data)
  /-- Another read of the library. -/
  | display (t : τ) (v : Version) (createdAt : Int)
  | lock (t : τ) (media texts : List JsString)
  | read (answer : Answer)
  | merge (now : Int)
  | sign (now : Int)
  | publish
  /-- The cache is written. -/
  | record
  /-- The call has thrown. -/
  | fail

/-- `cachedLibrary()`, `cacheGet(MEDIALIB_AT_KEY)` and `cachedTextLibrary()`. -/
def cachedVersion (w : Tabs τ Data) (t : τ) : Version where
  media := match w.get t mediaLibKey with
    | some ⟨_, .media hashes⟩ => hashes
    | _ => []
  mediaAt := match w.get t mediaLibAtKey with
    | some ⟨_, .mediaAt dates⟩ => dates
    | _ => .empty
  texts := match w.get t textLibKey with
    | some ⟨_, .texts texts⟩ => texts
    | _ => []

/-- The three rows of a version are written. -/
def writeVersion (w : Tabs τ Data) (t : τ) (v : Version) (createdAt : Int) : Tabs τ Data :=
  ((w.set t mediaLibKey (.media v.media) createdAt).set t textLibKey (.texts v.texts) createdAt).set t mediaLibAtKey
    (.mediaAt v.mediaAt) createdAt

/-- `nextReplaceableTimestamp(slot, persistedAt)`. -/
def nextReplaceableTimestamp (last persistedAt now : Int) : Int := max now (max (persistedAt + 1) (last + 1))

/-- The holder goes on with `existing`, where the read is known, and is done else. -/
def afterRead (w : World τ) (h : Holder τ) (existing : Version) (known : Bool) : World τ :=
  { w with lock := if known then some { h with stage := .read existing known } else none }

def act (w : World τ) : Act τ → Option (World τ)
  | .boot t => some { w with
      toTabs := w.boot t
      lock := w.lock.filter (·.tab ≠ t)
      last := Function.update w.last t 0 }
  | .cache t x => (w.other t x).map fun tabs => { w with toTabs := tabs }
  | .display t v createdAt => some { w with toTabs := writeVersion w.toTabs t v createdAt }
  | .lock t media texts =>
    match w.lock with
    | none => some { w with lock := some { tab := t, media, texts } }
    | some _ => none
  | .read answer =>
    match w.lock with
    | some ⟨t, media, texts, .locked⟩ =>
      let h : Holder τ := { tab := t, media, texts }
      match answer with
      | .nothing answered => some (afterRead w h {} answered)
      | .undecryptable => some (afterRead w h {} false)
      | .version v createdAt answered =>
        some (afterRead { w with toTabs := writeVersion w.toTabs t v createdAt } h v answered)
    | _ => none
  | .merge now =>
    match w.lock with
    | some ⟨t, media, texts, .read existing known⟩ =>
      some { w with lock := some ⟨t, media, texts, .merged existing (cachedVersion w.toTabs t) known now⟩ }
    | _ => none
  | .sign now =>
    match w.lock with
    | some ⟨t, media, texts, .merged existing cached known mergedAt⟩ =>
      let content := mergeLibrary cached existing media texts mergedAt
      let createdAt := nextReplaceableTimestamp (w.last t) (((w.get t mediaLibKey).map Entry.stamp).getD 0) now
      some { w with
        lock := some ⟨t, media, texts, .signed content createdAt⟩
        last := Function.update w.last t createdAt
        signed := w.signed ++ [⟨content, existing, known, media, w.published⟩] }
    | _ => none
  | .publish =>
    match w.lock with
    | some ⟨t, media, texts, .signed content createdAt⟩ =>
      some { w with lock := some ⟨t, media, texts, .published content createdAt⟩, published := w.published ++ [content] }
    | _ => none
  | .record =>
    match w.lock with
    | some ⟨t, _, _, .published content createdAt⟩ =>
      some { w with toTabs := writeVersion w.toTabs t content createdAt, lock := none }
    | _ => none
  | .fail =>
    match w.lock with
    | some _ => some { w with lock := none }
    | none => none

def Step (w : World τ) (x : Act τ) (w' : World τ) : Prop := act w x = some w'

/-! ## Merges -/

section

variable {cached existing u v : Version} {media texts : List JsString} {now d : Int} {x : JsString} {m n : JsMap JsString Int}

/-- What `v` keeps of `u`: each clip, under no later date. -/
def Covers (u v : Version) : Prop :=
  ∀ x ∈ u.media, x ∈ v.media ∧ ∀ d, u.mediaAt.get? x = some d → ∃ e, v.mediaAt.get? x = some e ∧ e ≤ d

theorem get?_spread : (m.spread n).get? x = (n.get? x).or (m.get? x) := by
  have h := JsMap.get?_foldl_set_if (fun _ : JsString × Int => true) Prod.snd x n.entries m n.nodup
  simpa only [JsMap.spread, JsMap.get?, if_true, Option.bind_fun_some] using h

theorem get?_stampNew {y : JsString} :
    (stampNew now m y).get? x = (m.get? x).or (if y = x then some now else none) := by
  rw [stampNew]
  split
  · next hy =>
    by_cases hx : y = x
    · subst hx
      obtain ⟨d, hd⟩ := Option.isSome_iff_exists.1 hy
      rw [hd, Option.some_or]
    · rw [if_neg hx, Option.or_none]
  · next hy =>
    rw [JsMap.get?_set]
    by_cases hx : y = x
    · subst hx
      rw [if_pos rfl, if_pos rfl, Option.not_isSome_iff_eq_none.1 hy, Option.none_or]
    · rw [if_neg hx, if_neg hx, Option.or_none]

theorem get?_foldl_stampNew : ∀ (l : List JsString) (m : JsMap JsString Int),
    (l.foldl (stampNew now) m).get? x = (m.get? x).or (if x ∈ l then some now else none)
  | [], m => by simp
  | y :: l, m => by
    rw [List.foldl_cons, get?_foldl_stampNew l, get?_stampNew, Option.or_assoc]
    congr 1
    by_cases hy : y = x
    · simp [hy]
    · simp [hy, Ne.symm hy]

theorem mem_mergeLibrary : x ∈ (mergeLibrary cached existing media texts now).media ↔ x ∈ cached.media ∨ x ∈ existing.media ∨ x ∈ media := by
  simp only [mergeLibrary, List.mem_eraseDups, List.mem_append, or_assoc]

/-- The date of a merged clip: what the version read says, else what the mirror's copy says, else now. -/
theorem date_mergeLibrary (h : x ∈ (mergeLibrary cached existing media texts now).media) :
    (mergeLibrary cached existing media texts now).mediaAt.get? x =
      some (((existing.mediaAt.get? x).or (cached.mediaAt.get? x)).getD now) := by
  have hdate : (mergeLibrary cached existing media texts now).mediaAt.get? x =
      ((existing.mediaAt.get? x).or (cached.mediaAt.get? x)).or (some now) := by
    simp only [mergeLibrary] at h ⊢
    rw [get?_foldl_stampNew, get?_spread, if_pos h]
  rw [hdate]
  cases (existing.mediaAt.get? x).or (cached.mediaAt.get? x) <;> rfl

/-- What a merge has of a version that was published: each clip in the version read, in the mirror's copy or
among the additions, and no later date. -/
def Has (existing cached : Version) (media : List JsString) (now : Int) (v : Version) : Prop :=
  ∀ x ∈ v.media, (x ∈ cached.media ∨ x ∈ existing.media ∨ x ∈ media) ∧
    ∀ d, v.mediaAt.get? x = some d → ((existing.mediaAt.get? x).or (cached.mediaAt.get? x)).getD now ≤ d

theorem covers_mergeLibrary : Covers v (mergeLibrary cached existing media texts now) ↔ Has existing cached media now v := by
  refine forall₂_congr fun x _ => ?_
  rw [mem_mergeLibrary]
  refine and_congr_right fun hmem => forall₂_congr fun d _ => ?_
  rw [date_mergeLibrary (mem_mergeLibrary.2 hmem)]
  simp

/-- The version that was read is kept whole. -/
theorem covers_existing : Covers existing (mergeLibrary cached existing media texts now) := by
  refine covers_mergeLibrary.2 fun x hx => ⟨.inr (.inl hx), fun d hd => ?_⟩
  rw [hd, Option.some_or, Option.getD_some]

end

/-! ## Runs -/

section

variable {τ : Type} [DecidableEq τ] {w w' : World τ} {x : Act τ} {disk : Rows Data} {acts : List (Act τ)}

/-- A library event as it ought to be: a relay had answered; it has what was read, what was added, and all
that this profile has published. -/
structure Grown (e : Signed) : Prop where
  known : e.known = true
  existing : Covers e.existing e.content
  added : ∀ x ∈ e.media, x ∈ e.content.media
  before : ∀ v ∈ e.before, Covers v e.content

/-- The library only grows: each event signed has all that came before it. -/
def Grows (w : World τ) : Prop := ∀ e ∈ w.signed, Grown e

/-- Where an event is signed, what this profile has published is in what the call has read or found in its mirror. -/
def Fresh (w : World τ) : Act τ → Prop
  | .sign _ => ∀ t media texts existing cached known mergedAt, w.lock = some ⟨t, media, texts, .merged existing cached known mergedAt⟩ →
    ∀ v ∈ w.published, Has existing cached media mergedAt v
  | _ => True

/-- A call goes on only where a relay has answered. -/
def Known (w : World τ) : Prop := ∀ h ∈ w.lock, match h.stage with
  | .read _ known | .merged _ _ known _ => known = true
  | _ => True

theorem known_afterRead {h : Holder τ} {existing : Version} {known : Bool} : Known (afterRead w h existing known) := by
  intro h' hh'
  simp only [afterRead] at hh'
  split at hh'
  · next hk =>
    cases hh'
    exact hk
  · cases hh'

/-- What a step signs has grown just when it has what was published. -/
theorem Step.writes (h : Step w x w') (hk : Known w) : Known w' ∧ Run.Writes World.signed Grown Fresh w x w' := by
  cases x with
  | boot t =>
    cases h
    refine ⟨fun h hh => ?_, .nothing rfl trivial⟩
    exact hk h (Option.mem_filter_iff.1 hh).1
  | cache t x =>
    obtain ⟨tabs, -, rfl⟩ := Option.map_eq_some_iff.1 h
    exact ⟨hk, .nothing rfl trivial⟩
  | display t v createdAt => cases h; exact ⟨hk, .nothing rfl trivial⟩
  | lock t media texts =>
    simp only [Step, act] at h
    split at h <;> cases h
    exact ⟨fun h hh => by cases hh; trivial, .nothing rfl trivial⟩
  | read answer =>
    simp only [Step, act] at h
    split at h
    · cases answer <;> cases h <;> exact ⟨known_afterRead, .nothing rfl trivial⟩
    · cases h
  | merge now =>
    simp only [Step, act] at h
    split at h <;> cases h
    next hl =>
    have hknown := hk _ hl
    exact ⟨fun h hh => by cases hh; exact hknown, .nothing rfl trivial⟩
  | sign now =>
    simp only [Step, act] at h
    split at h <;> cases h
    next t media texts existing cached known mergedAt hl =>
    obtain rfl : known = true := hk _ hl
    refine ⟨fun h hh => by cases hh; trivial, .one rfl ⟨?_, fun hf => ?_⟩⟩
    · rintro hg t' media' texts' existing' cached' known' mergedAt' hlock' v hv
      cases hl.symm.trans hlock'
      exact covers_mergeLibrary.1 (hg.before v hv)
    · exact ⟨rfl, covers_existing, fun x hx => mem_mergeLibrary.2 (.inr (.inr hx)),
        fun v hv => covers_mergeLibrary.2 (hf t media texts existing cached true mergedAt hl v hv)⟩
  | publish =>
    simp only [Step, act] at h
    split at h <;> cases h
    exact ⟨fun h hh => by cases hh; trivial, .nothing rfl trivial⟩
  | record =>
    simp only [Step, act] at h
    split at h <;> cases h
    exact ⟨fun h hh => (by cases hh), .nothing rfl trivial⟩
  | fail =>
    simp only [Step, act] at h
    split at h <;> cases h
    exact ⟨fun h hh => (by cases hh), .nothing rfl trivial⟩

/-- **The library only grows**, whatever the relays answer and the other devices publish, just when at each
signature all that this profile has published is in the version read or in the mirror's copy. -/
theorem library_grows_iff (h : Run Step ({ disk := disk } : World τ) acts w) :
    Grows w ↔ Run (fun w x w' => Step w x w' ∧ Fresh w x) { disk := disk } acts w := by
  exact h.log_iff (I := Known) (L := World.signed) (P := Grown) (G := Fresh) (fun ha hb => Option.some.inj (ha.symm.trans hb))
    (fun hk ha => (ha.writes hk).1) (fun hk ha => (ha.writes hk).2) (fun _ hh => by cases hh) rfl

end

/-! ## Two runs -/

namespace Small

/-- One clip is added, after this answer, at this time. -/
def add (t : Unit) (clip : JsString) (answer : Answer) (now : Int) : List (Act Unit) :=
  [.lock t [clip] [], .read answer, .merge now, .sign now, .publish, .record]

/-- The tab signs in. -/
def signIn : Act Unit := .cache () (.signIn (some (js "ada")))

/-- A version with one clip. -/
def version (clip : JsString) (date : Int) : Version := { media := [clip], mediaAt := JsMap.empty.set clip date }

end Small

/-- A clip is added to the version that a relay has answered with. -/
theorem library_grows_once : ∃ w, Run Step ({} : World Unit)
    (Small.signIn :: Small.add () (js "b") (.version (Small.version (js "a") 100) 100 true) 200) w ∧ Grows w ∧
    w.signed.map (·.content.media) = [[js "a", js "b"]] := by
  have hrun : Run Step ({} : World Unit)
      (Small.signIn :: Small.add () (js "b") (.version (Small.version (js "a") 100) 100 true) 200) _ := Run.of_exec rfl
  refine ⟨_, hrun, (library_grows_iff hrun).2 (Run.of_guarded rfl ?_), by decide +kernel⟩
  refine .next trivial rfl (.next trivial rfl (.next trivial rfl (.next trivial rfl (.next ?_ rfl (.next trivial rfl
    (.next trivial rfl trivial))))))
  rintro _ _ _ _ _ _ _ - v hv
  cases hv

/-- A clip that only the outbox has is not in the next version: another device has published since, and the read
of its version went over the mirror's copy. -/
theorem queued_clip_lost : ∃ w, Run Step ({} : World Unit)
    (Small.signIn :: Small.add () (js "a") (.nothing true) 100 ++
      Small.add () (js "c") (.version (Small.version (js "b") 150) 150 true) 200) w ∧
    w.signed.map (·.content.media) = [[js "a"], [js "b", js "c"]] ∧ ¬Grows w := by
  refine ⟨_, Run.of_exec rfl, by decide +kernel, fun h => ?_⟩
  have hlost := (h _ (List.mem_of_getLast? rfl)).before _ (List.mem_of_getLast? rfl) (js "a") (by decide +kernel)
  exact absurd hlost.1 (by decide +kernel)

end Nostrautica.Library
