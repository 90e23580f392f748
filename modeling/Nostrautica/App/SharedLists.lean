/-
Edits of the account's shared lists: `followUser`, `unfollowUser` and `followAll` of
`app/src/lib/events/nostr-actions.ts` on the follow list of kind 3, and `setMuted` of
`app/src/lib/events/mutes.ts` on the mute list of kind 10000, in the tabs of one browser profile.

A private item is a tag of strings or is not an array. What `publishOrQueue` does with an event is
left out, and so are the other rows of the cache.

When an edit of a shared list loses no entry (`edits_keep_iff`): when what it has read was whole,
has every entry of the newest version that the profile knows, but for the removals called since,
and the stamp it gets is past the newest. Edits of the follow list exclude one another nowhere
between the read and the signature, so two of them undo each other (`follow_lost`).
-/
import Nostrautica.App.Pending
import Nostrautica.App.Tabs
import Nostrautica.Transition.Prefixes

namespace Nostrautica.SharedLists

open Js Cache

abbrev Tag := List JsString

/-- What the content of a list decrypts to, or is. -/
inductive Content
  /-- Of kind 3; of kind 10000 where it is empty or no payload of NIP-44. -/
  | plain (text : JsString)
  /-- An array: tags, and items that are none. -/
  | array (items : List (Tag ⊕ JsString))
  /-- JSON that is no array. -/
  | other (json : JsString)
  /-- It is not decrypted, or not JSON. -/
  | locked

/-- A list event. -/
structure Version extends Pending.Stamp where
  tags : List Tag
  content : Content

/-- `pickLatest(events)`. -/
def pickLatest (events : List Version) : Option Version :=
  events.foldl (fun best v => if best.all fun b => Pending.supersedes v.toStamp b.toStamp then some v else best) none

/-- A list as an edit has it: `MuteListState`, or the tags and the content of kind 3. -/
structure Copy where
  tags : List Tag := []
  secret : List Tag := []
  content : JsString := []
  deriving DecidableEq

inductive Doc
  | follows
  | mutes
  deriving DecidableEq

/-- What is read of a version; `none` where the read throws. -/
def Version.read (v : Version) : Doc → Option Copy
  | .follows =>
    match v.content with
    | .plain text => some { tags := v.tags, content := text }
    | _ => none
  | .mutes =>
    match v.content with
    | .plain text => if text = [] then some { tags := v.tags } else none
    | .array items => some { tags := v.tags, secret := items.filterMap Sum.getLeft? }
    | .other _ => some { tags := v.tags }
    | .locked => none

/-- The private items are all tags. -/
def Version.whole (v : Version) : Bool :=
  match v.content with
  | .array items => items.all Sum.isLeft
  | .other _ => false
  | _ => true

/-- The event that a copy is signed as. -/
def Copy.write (c : Copy) (stamp : Pending.Stamp) : Version where
  toStamp := stamp
  tags := c.tags
  content := if c.secret = [] then .plain c.content else .array (c.secret.map Sum.inl)

/-! ## Edits -/

inductive Op
  | followUser (target : JsString)
  | unfollowUser (target : JsString)
  | followAll (targets : List JsString)
  | setMuted (pubkey : JsString) (muted : Bool)

def Op.doc : Op → Doc
  | .setMuted _ _ => .mutes
  | _ => .follows

/-- `t[0] === "p" && t[1] === pubkey`. -/
def isP (pubkey : JsString) (t : Tag) : Bool := t.head? = some (js "p") && t[1]? = some pubkey

/-- The tags that `mergeFollowTags(existingTags, newFollows)` pushes. -/
def newFollowTags (existingTags : List Tag) (newFollows : List JsString) : List Tag :=
  newFollows.foldl
    (fun out pk => if pk ≠ [] ∧ existingTags.any (isP pk) ∨ [js "p", pk] ∈ out then out else out ++ [[js "p", pk]]) []

/-- `mergeFollowTags(existingTags, newFollows)`. -/
def mergeFollowTags (existingTags : List Tag) (newFollows : List JsString) : List Tag :=
  existingTags ++ newFollowTags existingTags newFollows

/-- `removeFollowTag(existingTags, pubkey)`. -/
def removeFollowTag (existingTags : List Tag) (pubkey : JsString) : List Tag := existingTags.filter fun t => !isP pubkey t

/-- `isMuted(state, pubkey)`. -/
def isMuted (c : Copy) (pubkey : JsString) : Bool := pubkey ≠ [] && (c.tags ++ c.secret).any (isP pubkey)

/-- `toAdd` of `planFollowAll(existingTags, targets)`. -/
def toAdd (existingTags : List Tag) (targets : List JsString) : List JsString :=
  (targets.eraseDups).filter fun target => !existingTags.any (isP target)

/-- The list as it is signed; `none` where nothing is: there is nothing to change, or the guard has tripped. -/
def edit (c : Copy) : Op → Option Copy
  | .followUser target => some { c with tags := mergeFollowTags c.tags [target] }
  | .unfollowUser target =>
    let remaining := removeFollowTag c.tags target
    if remaining.length = c.tags.length then none else some { c with tags := remaining }
  | .followAll targets =>
    let add := toAdd c.tags targets
    if add = [] ∨ !c.tags.any (fun t => t.head? = some (js "p")) then none
    else some { c with tags := mergeFollowTags c.tags add }
  | .setMuted pubkey muted =>
    if muted then some (if isMuted c pubkey then c else { c with secret := c.secret ++ [[js "p", pubkey]] })
    else some { c with tags := removeFollowTag c.tags pubkey, secret := removeFollowTag c.secret pubkey }

/-- The targets that the edit removes. -/
def Op.removes : Op → List JsString
  | .unfollowUser target => [target]
  | .setMuted pubkey false => [pubkey]
  | _ => []

/-! ## Tabs -/

/-- How far an edit has come. -/
inductive Stage
  /-- For the lock. -/
  | waiting
  | begun
  /-- With what it has read, and whether that is the whole list. -/
  | read (copy : Copy) (whole : Bool)
  | signed

structure Call (τ : Type) where
  tab : τ
  op : Op
  stage : Stage

/-- A list event as it was signed: the copy, whether what was read was whole, the newest version that was known and
the targets of the removals called since it was. -/
structure Signed where
  op : Op
  copy : Copy
  created_at : Int
  whole : Bool
  newest : Option Version
  since : List JsString

section

variable {τ : Type} [DecidableEq τ]

structure World (τ : Type) extends Tabs τ Int where
  calls : Nat → Option (Call τ) := fun _ => none
  /-- Who holds the lock of the mute list. -/
  lock : Option Nat := none
  signed : List Signed := []
  /-- The versions of each list that the profile has read or signed. -/
  known : Doc → List Version := fun _ => []
  /-- The targets of the removals called since the newest version of each list became known. -/
  since : Doc → List JsString := fun _ => []

inductive Act (τ : Type)
  /-- The tab is loaded again. -/
  | boot (t : τ)
  /-- Something else that the cache of the tab does. -/
  | cache (t : τ) (x : Cache.Act Int)
  /-- Another read of a list. -/
  | display (doc : Doc) (v : Version)
  | begin (i : Nat) (t : τ) (op : Op)
  | acquire (i : Nat)
  /-- The latest version of those that the relays answered, or none; whether a relay has answered. -/
  | read (i : Nat) (answer : Option Version) (answered : Bool)
  /-- `created_at` is reserved, and the event signed and counted, under the lock of the address. -/
  | sign (i : Nat) (now relayAt : Int) (id : JsString)
  /-- A call is over: it has returned, or thrown. -/
  | finish (i : Nat)

def setCall (w : World τ) (i : Nat) (c : Option (Call τ)) : World τ := { w with calls := Function.update w.calls i c }

/-- A call is over. -/
def finish (w : World τ) (i : Nat) : World τ := { setCall w i none with lock := w.lock.filter (· ≠ i) }

/-- The profile knows a version: where it is the newest, no removal was called since. -/
def learn (w : World τ) (doc : Doc) (v : Version) : World τ :=
  { w with
    known := Function.update w.known doc (w.known doc ++ [v])
    since :=
      if (pickLatest (w.known doc)).all fun n => Pending.supersedes v.toStamp n.toStamp then Function.update w.since doc []
      else w.since }

section

variable (me : JsString)

/-- `watermarkKey(eventAddress(kind, me))`. -/
def watermarkKey : Doc → JsString
  | .follows => js "mono:3:" ++ me
  | .mutes => js "mono:10000:" ++ me

/-- The `created_at` that `publishMonotonic` has the event signed for. -/
def reserve (w : World τ) (t : τ) (doc : Doc) (now relayAt : Int) : Int :=
  max now (max (((cacheGet (w.pages t).tab (watermarkKey me doc) (some me)).map Entry.data).getD 0) relayAt + 1)

/-- `bumpWatermark(address, createdAt, owner)`. -/
def bumpWatermark (w : World τ) (t : τ) (doc : Doc) (createdAt : Int) : World τ :=
  { w with toTabs := w.store t ((Cache.act (w.view t) (.set (watermarkKey me doc) createdAt createdAt (some me) none)).getD (w.view t)) }

def act (w : World τ) : Act τ → Option (World τ)
  | .boot t => some { w with
      toTabs := w.boot t
      calls := fun i => (w.calls i).filter (·.tab ≠ t)
      lock := w.lock.filter fun i => (w.calls i).any (·.tab ≠ t) }
  | .cache t x => (w.other t x).map fun tabs => { w with toTabs := tabs }
  | .display doc v => some (learn w doc v)
  | .begin i t op =>
    if (w.calls i).isSome then none
    else
      let stage := match op.doc with
        | .follows => Stage.begun
        | .mutes => .waiting
      some { setCall w i (some ⟨t, op, stage⟩) with
        since := Function.update w.since op.doc (w.since op.doc ++ op.removes) }
  | .acquire i =>
    match w.calls i with
    | some ⟨t, op, .waiting⟩ =>
      if w.lock = none then some { setCall w i (some ⟨t, op, .begun⟩) with lock := some i } else none
    | _ => none
  | .read i answer answered =>
    match w.calls i with
    | some ⟨t, op, .begun⟩ =>
      match answer with
      | some v =>
        let w := learn w op.doc v
        match v.read op.doc with
        | some copy => some (if (edit copy op).isSome then setCall w i (some ⟨t, op, .read copy v.whole⟩) else finish w i)
        | none => some (finish w i)
      | none =>
        -- Without a list no follow is signed: the guard throws, and of `followAll` an empty list trips it too.
        match op.doc with
        | .follows => some (finish w i)
        | .mutes => some (if answered then setCall w i (some ⟨t, op, .read {} true⟩) else finish w i)
    | _ => none
  | .sign i now relayAt id =>
    match w.calls i with
    | some ⟨t, op, .read base whole⟩ =>
      match edit base op with
      | some copy =>
        let createdAt := reserve me w t op.doc now relayAt
        let v := copy.write ⟨id, createdAt⟩
        let w' := bumpWatermark me (setCall w i (some ⟨t, op, .signed⟩)) t op.doc createdAt
        some (learn { w' with
          signed := w.signed ++ [⟨op, copy, createdAt, whole, pickLatest (w.known op.doc), w.since op.doc⟩] } op.doc v)
      | none => none
    | _ => none
  | .finish i => some (finish w i)

def Step (w : World τ) (x : Act τ) (w' : World τ) : Prop := act me w x = some w'

end

end

set_option linter.unusedSectionVars false

/-! ## Edits -/

section

variable {c c' : Copy} {op : Op} {R : List JsString} {n : Version} {t : Tag}

/-- An entry of one of these targets. -/
def Removed (R : List JsString) (t : Tag) : Prop := ∃ pk ∈ R, isP pk t = true

/-- The copy has every entry of the version but for these targets, and its content. -/
structure Keeps (R : List JsString) (n : Version) (c : Copy) : Prop where
  tags : ∀ t ∈ n.tags, Removed R t ∨ t ∈ c.tags
  content : match n.content with
    | .plain text => text = [] ∨ text = c.content
    | .array items => ∀ item ∈ items, ∃ t, item = .inl t ∧ (Removed R t ∨ t ∈ c.secret)
    | .other _ | .locked => False

/-- What an edit adds to what it has read. -/
def Op.plus (c : Copy) : Op → Copy
  | .followUser target => { c with tags := mergeFollowTags c.tags [target] }
  | .followAll targets => { c with tags := mergeFollowTags c.tags (toAdd c.tags targets) }
  | .setMuted pubkey true => if isMuted c pubkey then c else { c with secret := c.secret ++ [[js "p", pubkey]] }
  | _ => c

/-- The list has what the edit was for. -/
def Op.Done (c : Copy) : Op → Prop
  | .followUser target => c.tags.any (isP target) = true
  | .followAll targets => ∀ target ∈ targets, c.tags.any (isP target) = true
  | .setMuted pubkey true => (c.tags ++ c.secret).any (isP pubkey) = true
  | op => ∀ pk ∈ op.removes, (c.tags ++ c.secret).any (isP pk) = false

theorem mem_removeFollowTag {tags : List Tag} {pk : JsString} : t ∈ removeFollowTag tags pk ↔ t ∈ tags ∧ isP pk t = false := by
  rw [removeFollowTag, List.mem_filter, Bool.not_eq_true']

theorem any_removeFollowTag (tags : List Tag) (pk : JsString) : (removeFollowTag tags pk).any (isP pk) = false :=
  List.any_eq_false.2 fun _ ht => Bool.not_eq_true _ ▸ (mem_removeFollowTag.1 ht).2

/-- An entry that an edit does not remove is there when the edit has found or added it. -/
theorem mem_edit (h : edit c op = some c') : (∀ t, ¬Removed op.removes t → (t ∈ c'.tags ↔ t ∈ (op.plus c).tags)) ∧
    (∀ t, ¬Removed op.removes t → (t ∈ c'.secret ↔ t ∈ (op.plus c).secret)) ∧ c'.content = (op.plus c).content := by
  have hkept : ∀ {pk t} {tags : List Tag}, ¬Removed [pk] t → (t ∈ removeFollowTag tags pk ↔ t ∈ tags) := fun hr => by
    rw [mem_removeFollowTag]
    exact and_iff_left (Bool.eq_false_iff.2 fun hp => hr ⟨_, List.mem_singleton_self _, hp⟩)
  cases op with
  | followUser target =>
    cases h
    exact ⟨fun _ _ => Iff.rfl, fun _ _ => Iff.rfl, rfl⟩
  | unfollowUser target =>
    simp only [edit] at h
    split at h <;> cases h
    exact ⟨fun t ht => hkept ht, fun _ _ => Iff.rfl, rfl⟩
  | followAll targets =>
    simp only [edit] at h
    split at h <;> cases h
    exact ⟨fun _ _ => Iff.rfl, fun _ _ => Iff.rfl, rfl⟩
  | setMuted pubkey muted =>
    cases muted with
    | true =>
      cases h
      exact ⟨fun _ _ => Iff.rfl, fun _ _ => Iff.rfl, rfl⟩
    | false =>
      cases h
      exact ⟨fun t ht => hkept ht, fun t ht => hkept ht, rfl⟩

/-- What an edit keeps is what it has found, and what it adds. -/
theorem keeps_edit (h : edit c op = some c') (hR : op.removes ⊆ R) : Keeps R n c' ↔ Keeps R n (op.plus c) := by
  obtain ⟨htags, hsecret, hcontent⟩ := mem_edit h
  have hor : ∀ {t} {p q : Prop}, (¬Removed op.removes t → (p ↔ q)) → (Removed R t ∨ p ↔ Removed R t ∨ q) := fun {t} {p q} hpq => by
    by_cases hr : Removed op.removes t
    · obtain ⟨pk, hpk, ht⟩ := hr
      exact iff_of_true (.inl ⟨pk, hR hpk, ht⟩) (.inl ⟨pk, hR hpk, ht⟩)
    · exact or_congr_right (hpq hr)
  have hfirst : (∀ t ∈ n.tags, Removed R t ∨ t ∈ c'.tags) ↔ ∀ t ∈ n.tags, Removed R t ∨ t ∈ (op.plus c).tags :=
    forall₂_congr fun t _ => hor (htags t)
  have hsecond : ∀ items : List (Tag ⊕ JsString), (∀ item ∈ items, ∃ t, item = .inl t ∧ (Removed R t ∨ t ∈ c'.secret)) ↔
      ∀ item ∈ items, ∃ t, item = .inl t ∧ (Removed R t ∨ t ∈ (op.plus c).secret) := fun items =>
    forall₂_congr fun item _ => exists_congr fun t => and_congr_right fun _ => hor (hsecret t)
  constructor
  · rintro ⟨ht, hc⟩
    refine ⟨hfirst.1 ht, ?_⟩
    split at hc
    · exact hcontent ▸ hc
    · exact (hsecond _).1 hc
    · exact hc
    · exact hc
  · rintro ⟨ht, hc⟩
    refine ⟨hfirst.2 ht, ?_⟩
    split at hc
    · exact hcontent ▸ hc
    · exact (hsecond _).2 hc
    · exact hc
    · exact hc

theorem mem_newFollowTags {tags : List Tag} {pk : JsString} : ∀ {l : List JsString} {out : List Tag}, pk ∈ l ∨ [js "p", pk] ∈ out →
    tags.any (isP pk) = true ∨ [js "p", pk] ∈ l.foldl
      (fun out pk => if pk ≠ [] ∧ tags.any (isP pk) ∨ [js "p", pk] ∈ out then out else out ++ [[js "p", pk]]) out
  | [], _, h => .inr (h.resolve_left List.not_mem_nil)
  | a :: l, out, h => by
    rw [List.foldl_cons]
    rcases h with h | h
    · rcases List.mem_cons.1 h with rfl | h
      · split
        next hin =>
          rcases hin with hin | hin
          · exact .inl hin.2
          · exact mem_newFollowTags (.inr hin)
        · exact mem_newFollowTags (.inr (List.mem_append_right _ (List.mem_singleton_self _)))
      · exact mem_newFollowTags (.inl h)
    · refine mem_newFollowTags (.inr ?_)
      split
      · exact h
      · exact List.mem_append_left _ h

theorem isP_self (pk : JsString) : isP pk [js "p", pk] = true := by simp [isP]

/-- Who was to be followed is followed. -/
theorem any_mergeFollowTags {tags : List Tag} {l : List JsString} {pk : JsString} (h : pk ∈ l) :
    (mergeFollowTags tags l).any (isP pk) = true := by
  rw [mergeFollowTags, List.any_append, Bool.or_eq_true]
  exact (mem_newFollowTags (.inl h)).imp id fun hin => List.any_eq_true.2 ⟨_, hin, isP_self pk⟩

/-- An edit does what it is for. -/
theorem done_edit (h : edit c op = some c') (hc : op.doc = .follows → c.secret = []) : op.Done c' := by
  cases op with
  | followUser target =>
    cases h
    exact any_mergeFollowTags (List.mem_singleton_self _)
  | unfollowUser target =>
    simp only [edit] at h
    split at h <;> cases h
    intro pk hpk
    cases List.mem_singleton.1 hpk
    rw [hc rfl, List.append_nil]
    exact any_removeFollowTag _ _
  | followAll targets =>
    simp only [edit] at h
    split at h <;> cases h
    intro target htarget
    by_cases hold : c.tags.any (isP target) = true
    · exact (List.any_append).trans (Bool.or_eq_true _ _ ▸ .inl hold)
    · exact any_mergeFollowTags (List.mem_filter.2 ⟨List.mem_eraseDups.2 htarget, by rw [Bool.eq_false_iff.2 hold, Bool.not_false]⟩)
  | setMuted pubkey muted =>
    cases muted with
    | true =>
      cases h
      dsimp only [Op.Done]
      split
      next hm => exact (Bool.and_eq_true _ _ ▸ hm).2
      · exact List.any_eq_true.2 ⟨_, List.mem_append_right _ (List.mem_append_right _ (List.mem_singleton_self _)), isP_self pubkey⟩
    | false =>
      cases h
      intro pk hpk
      cases List.mem_singleton.1 hpk
      rw [List.any_append, any_removeFollowTag, any_removeFollowTag, Bool.or_false]

end

/-! ## Runs -/

section

variable {me : JsString} {τ : Type} [DecidableEq τ] {w w' : World τ} {x : Act τ} {disk : Rows Int} {acts : List (Act τ)}

/-- A list event as it ought to be: what was read was whole, it has what the edit was for, and every entry of the newest
version but for the removals called since; and it is newer. -/
structure Kept (e : Signed) : Prop where
  whole : e.whole = true
  done : e.op.Done e.copy
  newest : ∀ n ∈ e.newest, Keeps (e.op.removes ++ e.since) n e.copy ∧ n.created_at < e.created_at

/-- Where an event is signed, what the call has read was whole and has, with what it adds, every entry of the newest version
but for the removals called since, and the stamp is past the newest. -/
def Fresh (me : JsString) (w : World τ) : Act τ → Prop
  | .sign i now relayAt _ => ∀ t op base whole, w.calls i = some ⟨t, op, .read base whole⟩ → whole = true ∧
      ∀ n ∈ pickLatest (w.known op.doc), Keeps (op.removes ++ w.since op.doc) n (op.plus base) ∧
        n.created_at < reserve me w t op.doc now relayAt
  | _ => True

/-- A call signs only what it has made of a list that it has read, and there are no private items of a follow list. -/
def Ready (w : World τ) : Prop := ∀ i c, w.calls i = some c → match c.stage with
  | .read copy _ => c.op.doc = .follows → copy.secret = []
  | _ => True

theorem ready_setCall {i : Nat} {c : Option (Call τ)} {v : World τ} (hw : Ready w) (hv : v.calls = Function.update w.calls i c)
    (hc : ∀ d ∈ c, match d.stage with
      | .read copy _ => d.op.doc = .follows → copy.secret = []
      | _ => True) : Ready v := by
  intro j d hd
  rw [hv] at hd
  by_cases hj : j = i
  · rw [hj, Function.update_self] at hd
    exact hc d hd
  · rw [Function.update_of_ne hj] at hd
    exact hw j d hd

theorem secret_of_read {v : Version} {c : Copy} (h : v.read .follows = some c) : c.secret = [] := by
  simp only [Version.read] at h
  split at h <;> cases h
  rfl

/-- What a step signs is kept just when it is signed fresh. -/
theorem Step.writes (h : Step me w x w') (hw : Ready w) : Ready w' ∧ Run.Writes World.signed Kept (Fresh me) w x w' := by
  cases x with
  | boot t =>
    cases h
    exact ⟨fun i c hc => hw i c (Option.filter_eq_some_iff.1 hc).1, .nothing rfl trivial⟩
  | cache t x =>
    obtain ⟨tabs, -, rfl⟩ := Option.map_eq_some_iff.1 h
    exact ⟨hw, .nothing rfl trivial⟩
  | display doc v => cases h; exact ⟨hw, .nothing rfl trivial⟩
  | begin i t op =>
    simp only [Step, act] at h
    split at h <;> cases h
    refine ⟨ready_setCall hw rfl fun d hd => ?_, .nothing rfl trivial⟩
    cases hd
    cases op.doc <;> trivial
  | acquire i =>
    simp only [Step, act] at h
    split at h
    · split at h <;> cases h
      exact ⟨ready_setCall hw rfl fun d hd => (by cases hd; trivial), .nothing rfl trivial⟩
    · cases h
  | read i answer answered =>
    simp only [Step, act] at h
    have hfinish : ∀ v : World τ, v.calls = w.calls → Ready (finish v i) := fun v hv =>
      ready_setCall (c := none) hw (by rw [← hv]; rfl) fun d hd => by cases hd
    split at h
    next t op hi =>
      split at h
      next v =>
        split at h
        next copy hread =>
          cases h
          split
          · refine ⟨ready_setCall hw rfl fun d hd => ?_, .nothing rfl trivial⟩
            cases hd
            exact fun hdoc => secret_of_read (hdoc ▸ hread)
          · exact ⟨hfinish _ rfl, .nothing rfl trivial⟩
        · cases h
          exact ⟨hfinish _ rfl, .nothing rfl trivial⟩
      · split at h <;> cases h
        · exact ⟨hfinish _ rfl, .nothing rfl trivial⟩
        · split
          · exact ⟨ready_setCall hw rfl fun d hd => (by cases hd; exact fun _ => rfl), .nothing rfl trivial⟩
          · exact ⟨hfinish _ rfl, .nothing rfl trivial⟩
    · cases h
  | sign i now relayAt id =>
    simp only [Step, act] at h
    split at h
    next t op base whole hi =>
      split at h <;> cases h
      next copy hcopy =>
      refine ⟨ready_setCall hw rfl fun d hd => (by cases hd; trivial), .one rfl ⟨?_, fun hf => ?_⟩⟩
      · rintro ⟨hwhole, -, hnewest⟩ t' op' base' whole' hi'
        cases hi.symm.trans hi'
        exact ⟨hwhole, fun n hn => ⟨(keeps_edit hcopy (List.subset_append_left _ _)).1 (hnewest n hn).1, (hnewest n hn).2⟩⟩
      · obtain ⟨hwhole, hnewest⟩ := hf t op base whole hi
        exact ⟨hwhole, done_edit hcopy (hw i _ hi),
          fun n hn => ⟨(keeps_edit hcopy (List.subset_append_left _ _)).2 (hnewest n hn).1, (hnewest n hn).2⟩⟩
    · cases h
  | finish i =>
    cases h
    exact ⟨ready_setCall hw rfl fun d hd => (by cases hd), .nothing rfl trivial⟩

end

/-! ## Two runs -/

namespace Small

def me : JsString := js "ada"

/-- A follow list of one. -/
def version : Version := ⟨⟨js "a", 100⟩, [[js "p", js "bob"]], .plain []⟩

/-- The edit has read the list. -/
def read (i : Nat) (op : Op) : List (Act Unit) := [.begin i () op, .read i (some version) true]

def sign (i : Nat) (now : Int) (id : String) : List (Act Unit) := [.sign i now 100 (js id), .finish i]

/-- One follow. -/
def one : List (Act Unit) := read 0 (.followUser (js "cyd")) ++ sign 0 200 "b"

/-- Two follows that overlap. -/
def both : List (Act Unit) :=
  read 0 (.followUser (js "cyd")) ++ read 1 (.followUser (js "dan")) ++ sign 0 200 "b" ++ sign 1 201 "c"

end Small

end Nostrautica.SharedLists
