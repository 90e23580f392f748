/-
The timeline and repeated messages: everything but our own ids depends on the set of
messages alone (`timeline_repeat_iff`).
-/
import Nostrautica.App.Timeline
import Mathlib.Data.List.Perm.Basic
import Mathlib.Data.List.Dedup

namespace Nostrautica.Timeline

open Js

variable {l l' : List ChatMessage} {m r e : ChatMessage} {me : Option JsString} {id c : JsString}

/-! ## Lists without repetition -/

section Lists

variable {α β : Type*} [BEq α] [LawfulBEq α] [BEq β] [LawfulBEq β] {s s' : List α} {a : α}

theorem eraseDups_concat : (s ++ [a]).eraseDups = s.eraseDups ++ if a ∈ s then [] else [a] := by
  rw [List.eraseDups_append]
  by_cases ha : a ∈ s <;> simp [List.removeAll, ha, List.eraseDups_cons]

theorem eraseDups_map_eraseDups {f : α → β} : (s.eraseDups.map f).eraseDups = (s.map f).eraseDups := by
  induction s using List.reverseRecOn with
  | nil => rfl
  | append_singleton s a ih =>
    rw [eraseDups_concat, List.map_append, List.map_append, List.map_singleton, eraseDups_concat]
    by_cases ha : a ∈ s
    · have hf : f a ∈ s.map f := List.mem_map_of_mem ha
      rw [if_pos ha, if_pos hf, List.map_nil, List.append_nil, List.append_nil, ih]
    · have hmem : f a ∈ s.eraseDups.map f ↔ f a ∈ s.map f := by simp [List.mem_map, List.mem_eraseDups]
      rw [if_neg ha, List.map_singleton, eraseDups_concat, ih]
      simp only [hmem]

theorem eraseDups_sublist (s : List α) : s.eraseDups.Sublist s := by
  induction s using List.reverseRecOn with
  | nil => exact List.Sublist.refl _
  | append_singleton s a ih =>
    rw [eraseDups_concat]
    refine ih.append ?_
    split
    · exact List.nil_sublist _
    · exact List.Sublist.refl _

theorem length_eraseDups_congr (h : ∀ x, x ∈ s ↔ x ∈ s') : s.eraseDups.length = s'.eraseDups.length :=
  ((List.perm_ext_iff_of_nodup (nodup_eraseDups s) (nodup_eraseDups s')).2 fun x => by
    rw [List.mem_eraseDups, List.mem_eraseDups, h]).length_eq

end Lists

/-! ## The order of the messages -/

theorem byTimeThenId_trans {a b c : ChatMessage} (hab : byTimeThenId a b) (hbc : byTimeThenId b c) : byTimeThenId a c := by
  unfold byTimeThenId at *
  simp only [Bool.or_eq_true, decide_eq_true_eq, Bool.and_eq_true, Bool.not_eq_true', decide_eq_false_iff_not] at *
  rcases hab with hab | ⟨hab, hid⟩ <;> rcases hbc with hbc | ⟨hbc, hid'⟩
  · exact .inl (hab.trans hbc)
  · exact .inl (hbc ▸ hab)
  · exact .inl (hab ▸ hbc)
  · exact .inr ⟨hab.trans hbc, not_lt.2 ((not_lt.1 hid).trans (not_lt.1 hid'))⟩

theorem byTimeThenId_total (a b : ChatMessage) : (byTimeThenId a b || byTimeThenId b a) = true := by
  unfold byTimeThenId
  simp only [Bool.or_eq_true, decide_eq_true_eq, Bool.and_eq_true, Bool.not_eq_true', decide_eq_false_iff_not]
  rcases lt_trichotomy a.createdAt b.createdAt with h | h | h
  · exact .inl (.inl h)
  · by_cases hid : b.id < a.id
    · exact .inr (.inr ⟨h.symm, hid.le.not_gt⟩)
    · exact .inl (.inr ⟨h, hid⟩)
  · exact .inr (.inl h)

theorem id_eq_of_byTimeThenId {a b : ChatMessage} (hab : byTimeThenId a b) (hba : byTimeThenId b a) : a.id = b.id := by
  unfold byTimeThenId at *
  simp only [Bool.or_eq_true, decide_eq_true_eq, Bool.and_eq_true, Bool.not_eq_true', decide_eq_false_iff_not] at *
  rcases hab with hab | ⟨hab, hid⟩ <;> rcases hba with hba | ⟨hba, hid'⟩
  · exact absurd hab hba.not_gt
  · exact absurd hab (hba ▸ lt_irrefl _)
  · exact absurd hba (hab ▸ lt_irrefl _)
  · exact le_antisymm (not_lt.1 hid) (not_lt.1 hid')

/-- Equal ids mean equal messages. -/
def UniqueIds (l : List ChatMessage) : Prop := ∀ a ∈ l, ∀ b ∈ l, a.id = b.id → a = b

/-- The messages in the order of the clients. -/
def Sorted (l : List ChatMessage) : Prop := l.Pairwise fun a b => byTimeThenId a b = true

theorem sorted_mergeSort (l : List ChatMessage) : Sorted (l.mergeSort byTimeThenId) := by
  have htrans : ∀ a b c : ChatMessage, byTimeThenId a b → byTimeThenId b c → byTimeThenId a c := fun _ _ _ => byTimeThenId_trans
  exact List.pairwise_mergeSort htrans byTimeThenId_total l

theorem Sorted.eq_of_perm (hs : Sorted l) (hs' : Sorted l') (hu : UniqueIds l) (hp : l.Perm l') : l = l' :=
  List.Perm.eq_of_pairwise (fun a b ha hb hab hba => hu a ha b (hp.mem_iff.2 hb) (id_eq_of_byTimeThenId hab hba)) hs hs' hp

theorem Sorted.eraseDups_eq (hs : Sorted l) (hs' : Sorted l') (hu : UniqueIds l) (hmem : ∀ x, x ∈ l ↔ x ∈ l') : l.eraseDups = l'.eraseDups := by
  have hd : Sorted l.eraseDups := List.Pairwise.sublist (eraseDups_sublist l) hs
  have hd' : Sorted l'.eraseDups := List.Pairwise.sublist (eraseDups_sublist l') hs'
  refine hd.eq_of_perm hd' (fun a ha b hb => hu a (List.mem_eraseDups.1 ha) b (List.mem_eraseDups.1 hb)) ?_
  refine (List.perm_ext_iff_of_nodup (nodup_eraseDups l) (nodup_eraseDups l')).2 fun x => ?_
  rw [List.mem_eraseDups, List.mem_eraseDups, hmem]

theorem Sorted.getLast?_eq (hs : Sorted l) (hs' : Sorted l') (hu : UniqueIds l) (hmem : ∀ x, x ∈ l ↔ x ∈ l') : l.getLast? = l'.getLast? := by
  induction l using List.reverseRecOn with
  | nil => rw [List.eq_nil_iff_forall_not_mem.2 fun x hx => List.not_mem_nil ((hmem x).2 hx)]
  | append_singleton s a _ =>
    induction l' using List.reverseRecOn with
    | nil => exact absurd ((hmem a).1 (by simp)) List.not_mem_nil
    | append_singleton s' a' _ =>
      have hlast : ∀ {s : List ChatMessage} {a x}, Sorted (s ++ [a]) → x ∈ s ++ [a] → x = a ∨ byTimeThenId x a = true := by
        intro s a x hs hx
        rcases List.mem_append.1 hx with hx | hx
        · exact .inr ((List.pairwise_append.1 hs).2.2 x hx a (by simp))
        · exact .inl (List.mem_singleton.1 hx)
      have ha' : a' ∈ s ++ [a] := (hmem a').2 (by simp)
      have ha : a ∈ s' ++ [a'] := (hmem a).1 (by simp)
      have heq : a = a' := by
        rcases hlast hs ha' with h | h
        · exact h.symm
        rcases hlast hs' ha with h' | h'
        · exact h'
        · exact hu a (by simp) a' ha' (id_eq_of_byTimeThenId h' h)
      rw [List.getLast?_concat, List.getLast?_concat, heq]

/-! ## What is collected -/

theorem getD_push {map : JsMap JsString (List ChatMessage)} {k : JsString} :
    ((push map id m).get? k).getD [] = (map.get? k).getD [] ++ if k = id then [m] else [] := by
  unfold push
  rw [JsMap.get?_set]
  by_cases hk : k = id
  · subst hk
    simp
  · simp [hk, Ne.symm hk]

theorem getD_foldl_push {ids : List JsString} {map : JsMap JsString (List ChatMessage)} {k : JsString} (hn : ids.Nodup) :
    ((ids.foldl (fun map id => push map id m) map).get? k).getD [] = (map.get? k).getD [] ++ if k ∈ ids then [m] else [] := by
  induction ids generalizing map with
  | nil => simp
  | cons i ids ih =>
    obtain ⟨hi, hn⟩ := List.nodup_cons.1 hn
    rw [List.foldl_cons, ih hn, getD_push, List.append_assoc]
    by_cases hk : k = i
    · subst hk
      simp [hi]
    · simp [hk]

/-- The edits of a message that are not retracted. -/
def editsOn (R : List JsString) (id : JsString) (m : ChatMessage) : Bool := m.id ∉ R && m.kind = chatKindEdit && eTargets m = [id]

/-- The reactions to a message that are not retracted. -/
def reactionsOn (R : List JsString) (id : JsString) (m : ChatMessage) : Bool :=
  m.id ∉ R && m.kind = chatKindReaction && reactionOk m.content && id ∈ eTargets m

theorem foldl_collect {R : List JsString} {s : Modifiers} :
    ((l.foldl (collect R) s).edits.get? id).getD [] = (s.edits.get? id).getD [] ++ l.filter (editsOn R id) ∧
    ((l.foldl (collect R) s).reactions.get? id).getD [] = (s.reactions.get? id).getD [] ++ l.filter (reactionsOn R id) := by
  induction l generalizing s with
  | nil => simp
  | cons m l ih =>
    have hone : ((collect R s m).edits.get? id).getD [] = (s.edits.get? id).getD [] ++ [m].filter (editsOn R id) ∧
        ((collect R s m).reactions.get? id).getD [] = (s.reactions.get? id).getD [] ++ [m].filter (reactionsOn R id) := by
      unfold collect
      by_cases hR : m.id ∈ R
      · simp [hR, editsOn, reactionsOn]
      by_cases hedit : m.kind = chatKindEdit
      · have hne : ¬ chatKindEdit = chatKindReaction := by decide
        rw [if_neg hR, if_pos hedit]
        split
        · next i hi =>
          refine ⟨?_, by simp [reactionsOn, hedit, hne]⟩
          show ((push s.edits i m).get? id).getD [] = _
          rw [getD_push]
          by_cases hid : id = i
          · simp [editsOn, hR, hedit, hi, hid]
          · simp [editsOn, hR, hedit, hi, hid, Ne.symm hid]
        · next hi =>
          have hi : ¬ eTargets m = [id] := hi id
          exact ⟨by simp [editsOn, hi], by simp [reactionsOn, hedit, hne]⟩
      rw [if_neg hR, if_neg hedit]
      by_cases hreact : m.kind = chatKindReaction
      · rw [if_pos hreact]
        by_cases hok : reactionOk m.content
        · rw [if_pos hok]
          refine ⟨by simp [editsOn, hedit], ?_⟩
          show (((eTargets m).eraseDups.foldl (fun map id => push map id m) s.reactions).get? id).getD [] = _
          rw [getD_foldl_push (nodup_eraseDups _)]
          by_cases hid : id ∈ eTargets m <;> simp [reactionsOn, hR, hreact, hok, hid]
        · simp [hok, editsOn, reactionsOn, hedit]
      · simp [hreact, editsOn, reactionsOn, hedit]
    obtain ⟨he, hr⟩ := ih (s := collect R s m)
    rw [List.foldl_cons, he, hr, hone.1, hone.2, List.append_assoc, List.append_assoc, ← List.filter_append, ← List.filter_append]
    exact ⟨rfl, rfl⟩

theorem getD_edits : (((modifiers l).edits.get? id).getD []) = l.filter (editsOn (retracted l) id) := by
  unfold modifiers
  rw [foldl_collect.1, JsMap.get?_empty]
  rfl

theorem getD_reactions : (((modifiers l).reactions.get? id).getD []) = l.filter (reactionsOn (retracted l) id) := by
  unfold modifiers
  rw [foldl_collect.2, JsMap.get?_empty]
  rfl

/-! ## What is tallied -/

/-- The senders of an emoji. -/
def sendersOf (c : JsString) (s : List ChatMessage) : List JsString := ((s.filter (·.content = c)).map (·.pubkey)).eraseDups

/-- Our own reactions with an emoji. -/
def ownOf (me : Option JsString) (c : JsString) (s : List ChatMessage) : List ChatMessage :=
  s.filter fun r => r.content = c && isMe me r.pubkey

theorem keys_set {κ ν : Type*} [DecidableEq κ] {map : JsMap κ ν} {k : κ} {v : ν} :
    (map.set k v).keys = map.keys ++ if k ∈ map.keys then [] else [k] := by
  have hput : ∀ L : List (κ × ν), (put k v L).map Prod.fst = L.map Prod.fst ++ if k ∈ L.map Prod.fst then [] else [k] := by
    intro L
    induction L with
    | nil => simp [put]
    | cons p L ih =>
      obtain ⟨k', v'⟩ := p
      by_cases hk : k' = k
      · subst hk
        simp [put]
      · have hmem : k ∈ ((k', v') :: L).map Prod.fst ↔ k ∈ L.map Prod.fst := by
          rw [List.map_cons, List.mem_cons]
          exact or_iff_right (Ne.symm hk)
        simp only [hmem]
        rw [put, if_neg hk, List.map_cons, ih, List.map_cons, List.cons_append]
  exact hput map.entries

theorem foldl_tallyOne (s : List ChatMessage) :
    (s.foldl (tallyOne me) JsMap.empty).keys = (s.map (·.content)).eraseDups ∧
    ∀ c, (s.foldl (tallyOne me) JsMap.empty).get? c =
      if c ∈ s.map (·.content) then some ⟨sendersOf c s, (ownOf me c s).map (·.id)⟩ else none := by
  induction s using List.reverseRecOn with
  | nil => exact ⟨rfl, fun c => rfl⟩
  | append_singleton s r ih =>
    obtain ⟨hkeys, hget⟩ := ih
    rw [List.foldl_append, List.foldl_cons, List.foldl_nil]
    generalize s.foldl (tallyOne me) JsMap.empty = tally at hkeys hget ⊢
    refine ⟨?_, fun c => ?_⟩
    · unfold tallyOne
      rw [keys_set, hkeys, List.map_append, List.map_singleton, eraseDups_concat]
      simp only [List.mem_eraseDups]
    · have hentry : ((tally.get? r.content).getD ⟨[], []⟩) =
          (⟨sendersOf r.content s, (ownOf me r.content s).map (·.id)⟩ : TallyEntry) := by
        rw [hget]
        split
        · rfl
        · next hnot =>
          have hne : ∀ x ∈ s, x.content ≠ r.content := fun x hx he => hnot (List.mem_map.2 ⟨x, hx, he⟩)
          have hs : s.filter (·.content = r.content) = [] := List.filter_eq_nil_iff.2 fun x hx => by simp [hne x hx]
          have ho : ownOf me r.content s = [] := List.filter_eq_nil_iff.2 fun x hx => by simp [hne x hx]
          unfold sendersOf
          rw [hs, ho]
          rfl
      unfold tallyOne
      rw [JsMap.get?_set, hentry, hget]
      by_cases hc : r.content = c
      · subst hc
        have hsenders : sendersOf r.content (s ++ [r]) = sendersOf r.content s ++ if r.pubkey ∈ sendersOf r.content s then [] else [r.pubkey] := by
          unfold sendersOf
          rw [List.filter_append, List.map_append]
          simp only [List.mem_eraseDups]
          rw [← eraseDups_concat]
          simp
        have hown : ownOf me r.content (s ++ [r]) = ownOf me r.content s ++ if isMe me r.pubkey then [r] else [] := by
          unfold ownOf
          rw [List.filter_append]
          by_cases hme : isMe me r.pubkey <;> simp [hme]
        have hmem : r.content ∈ (s ++ [r]).map (·.content) := by simp
        rw [if_pos rfl, if_pos hmem, hsenders, hown]
        refine congrArg some (congrArg₂ TallyEntry.mk ?_ ?_)
        · split <;> simp
        · split <;> simp
      · have hsenders : sendersOf c (s ++ [r]) = sendersOf c s := by
          unfold sendersOf
          rw [List.filter_append]
          simp [hc]
        have hown : ownOf me c (s ++ [r]) = ownOf me c s := by
          unfold ownOf
          rw [List.filter_append]
          simp [hc]
        rw [if_neg hc, hsenders, hown]
        simp [Ne.symm hc]

/-- An emoji's tally. -/
def reactionOf (me : Option JsString) (s : List ChatMessage) (c : JsString) : ChatReaction where
  emoji := c
  count := (sendersOf c s).length
  mine := (sendersOf c s).any (isMe me)
  ownIds := (ownOf me c s).map (·.id)

theorem tallied_eq (s : List ChatMessage) : tallied me s = (s.map (·.content)).eraseDups.map (reactionOf me s) := by
  obtain ⟨hkeys, hget⟩ : (s.foldl (tallyOne me) JsMap.empty).keys = (s.map (·.content)).eraseDups ∧ _ := foldl_tallyOne s
  unfold tallied
  rw [← hkeys]
  unfold JsMap.keys
  rw [List.map_map]
  refine List.map_congr_left fun p hp => ?_
  obtain ⟨k, entry⟩ := p
  have hk := JsMap.get?_eq_some.2 hp
  rw [hget] at hk
  split at hk
  · cases hk
    rfl
  · cases hk

/-! ## Who is retracted -/

theorem get?_byId_concat {k : JsString} : (byId (l ++ [m])).get? k = if m.id = k then some m else (byId l).get? k := by
  unfold byId
  rw [List.foldl_append, List.foldl_cons, List.foldl_nil, JsMap.get?_set]

theorem get?_byId_of_mem (hu : UniqueIds l) (hm : m ∈ l) : (byId l).get? m.id = some m := by
  induction l using List.reverseRecOn with
  | nil => exact absurd hm List.not_mem_nil
  | append_singleton s a ih =>
    rw [get?_byId_concat]
    by_cases ha : a.id = m.id
    · rw [if_pos ha, hu a (by simp) m hm ha]
    · rw [if_neg ha]
      refine ih (fun x hx y hy => hu x (by simp [hx]) y (by simp [hy])) ?_
      refine (List.mem_append.1 hm).resolve_right fun h => ha ?_
      rw [List.mem_singleton.1 h]

theorem mem_of_get?_byId (h : (byId l).get? id = some m) : m ∈ l ∧ m.id = id := by
  induction l using List.reverseRecOn with
  | nil => cases h
  | append_singleton s a ih =>
    rw [get?_byId_concat] at h
    split at h
    · next ha =>
      cases h
      exact ⟨by simp, ha⟩
    · obtain ⟨hm, hid⟩ := ih h
      exact ⟨by simp [hm], hid⟩

/-- A sender's delete names the event, which is that sender's. -/
theorem mem_retracted (hu : UniqueIds l) :
    id ∈ retracted l ↔ ∃ d ∈ l, d.kind = chatKindDelete ∧ id ∈ eTargets d ∧ ∃ t ∈ l, t.id = id ∧ t.pubkey = d.pubkey := by
  unfold retracted
  rw [List.mem_flatMap]
  refine exists_congr fun d => and_congr_right fun _ => ?_
  unfold retractedBy
  by_cases hk : d.kind = chatKindDelete
  · rw [if_pos hk, List.mem_filter]
    refine ⟨fun ⟨hid, hany⟩ => ⟨hk, hid, ?_⟩, fun ⟨_, hid, t, ht, htid, hpub⟩ => ⟨hid, ?_⟩⟩
    · cases ht : (byId l).get? id with
      | none => simp [ht] at hany
      | some t =>
        obtain ⟨hmem, htid⟩ := mem_of_get?_byId ht
        exact ⟨t, hmem, htid, by simpa [ht] using hany⟩
    · have hget := get?_byId_of_mem hu ht
      rw [htid] at hget
      simp [hget, hpub]
  · rw [if_neg hk]
    exact ⟨fun h => absurd h List.not_mem_nil, fun h => absurd h.1 hk⟩

theorem mem_retracted_congr (hu : UniqueIds l) (hmem : ∀ x, x ∈ l ↔ x ∈ l') : id ∈ retracted l ↔ id ∈ retracted l' := by
  have hu' : UniqueIds l' := fun a ha b hb => hu a ((hmem a).2 ha) b ((hmem b).2 hb)
  rw [mem_retracted hu, mem_retracted hu']
  simp only [hmem]

theorem editsOn_congr {R R' : List JsString} (hR : ∀ i, i ∈ R ↔ i ∈ R') : editsOn R id = editsOn R' id := by
  funext m
  simp only [editsOn, hR]

theorem reactionsOn_congr {R R' : List JsString} (hR : ∀ i, i ∈ R ↔ i ∈ R') : reactionsOn R id = reactionsOn R' id := by
  funext m
  simp only [reactionsOn, hR]

/-! ## The same messages, repeated -/

theorem map_id_inj {s s' : List ChatMessage} (hu : UniqueIds l) (hs : s ⊆ l) (hs' : s' ⊆ l) (h : s.map (·.id) = s'.map (·.id)) : s = s' := by
  have hback : ∀ s : List ChatMessage, s ⊆ l → (s.map (·.id)).filterMap (byId l).get? = s := by
    intro s hs
    induction s with
    | nil => rfl
    | cons a s ih =>
      rw [List.map_cons, List.filterMap_cons, get?_byId_of_mem hu (hs List.mem_cons_self), ih (List.subset_of_cons_subset hs)]
  rw [← hback s hs, h, hback s' hs']

variable {s s' : List ChatMessage}

theorem count_ownOf (hc : r.content = c) (hme : isMe me r.pubkey) : (ownOf me c s).count r = s.count r :=
  List.count_filter (p := fun r : ChatMessage => r.content = c && isMe me r.pubkey) (by simp [hc, hme])

/-- Our ids are the same exactly where our own reactions are there equally often. -/
theorem ownOf_map_id_iff (hu : UniqueIds s) (hs : Sorted s) (hs' : Sorted s') (hmem : ∀ x, x ∈ s ↔ x ∈ s') :
    (ownOf me c s).map (·.id) = (ownOf me c s').map (·.id) ↔ ∀ r ∈ s, r.content = c → isMe me r.pubkey → s.count r = s'.count r := by
  have hsub : ownOf me c s ⊆ s := fun x hx => (List.mem_filter.1 hx).1
  have hsub' : ownOf me c s' ⊆ s := fun x hx => (hmem x).2 (List.mem_filter.1 hx).1
  constructor
  · intro h r _ hc hme
    have heq := map_id_inj hu hsub hsub' h
    have hcount := congrArg (List.count r) heq
    rwa [count_ownOf hc hme, count_ownOf hc hme] at hcount
  · intro hcount
    refine congrArg _ (Sorted.eq_of_perm (hs.sublist List.filter_sublist) (hs'.sublist List.filter_sublist)
      (fun a ha b hb => hu a (hsub ha) b (hsub hb)) (List.perm_iff_count.2 fun r => ?_))
    by_cases hr : r ∈ ownOf me c s
    · obtain ⟨hmem, hp⟩ := List.mem_filter.1 hr
      simp only [Bool.and_eq_true, decide_eq_true_eq] at hp
      rw [count_ownOf hp.1 hp.2, count_ownOf hp.1 hp.2, hcount r hmem hp.1 hp.2]
    · have hr' : r ∉ ownOf me c s' := fun h => hr (List.mem_filter.2 ⟨hsub' h, (List.mem_filter.1 h).2⟩)
      rw [List.count_eq_zero_of_not_mem hr, List.count_eq_zero_of_not_mem hr']

theorem reactionOf_eq_iff (hmem : ∀ x, x ∈ s ↔ x ∈ s') :
    reactionOf me s c = reactionOf me s' c ↔ (ownOf me c s).map (·.id) = (ownOf me c s').map (·.id) := by
  have hsenders : ∀ p, p ∈ (s.filter (·.content = c)).map (·.pubkey) ↔ p ∈ (s'.filter (·.content = c)).map (·.pubkey) := by
    intro p
    simp only [List.mem_map, List.mem_filter, hmem]
  have hcount : (sendersOf c s).length = (sendersOf c s').length := length_eraseDups_congr hsenders
  have hmine : (sendersOf c s).any (isMe me) = (sendersOf c s').any (isMe me) := by
    rw [Bool.eq_iff_iff, List.any_eq_true, List.any_eq_true]
    unfold sendersOf
    simp only [List.mem_eraseDups, hsenders]
  unfold reactionOf
  rw [ChatReaction.mk.injEq, hcount, hmine]
  exact ⟨fun h => h.2.2.2, fun h => ⟨rfl, rfl, rfl, h⟩⟩

theorem tallied_eq_iff (hu : UniqueIds s) (hs : Sorted s) (hs' : Sorted s') (hmem : ∀ x, x ∈ s ↔ x ∈ s') :
    tallied me s = tallied me s' ↔ ∀ r ∈ s, isMe me r.pubkey → s.count r = s'.count r := by
  have hkeys : (s.map (·.content)).eraseDups = (s'.map (·.content)).eraseDups := by
    rw [← eraseDups_map_eraseDups, hs.eraseDups_eq hs' hu hmem, eraseDups_map_eraseDups]
  rw [tallied_eq, tallied_eq, ← hkeys, List.map_inj_left]
  simp only [reactionOf_eq_iff hmem, ownOf_map_id_iff hu hs hs' hmem, List.mem_eraseDups, List.mem_map]
  constructor
  · intro h r hr hme
    exact h r.content ⟨r, hr, rfl⟩ r hr rfl hme
  · intro h c _ r hr _ hme
    exact h r hr hme

/-- An own reaction that is shown: it is live and names a message that is not deleted. -/
structure Shown (l : List ChatMessage) (me : Option JsString) (m r : ChatMessage) : Prop where
  own : isMe me r.pubkey = true
  mem : r ∈ l
  live : reactionsOn (retracted l) m.id r = true
  text : m ∈ l ∧ m.kind = chatKindText
  kept : m.id ∉ retracted l

theorem itemOf_eq_iff (hu : UniqueIds l) (hmem : ∀ x, x ∈ l ↔ x ∈ l') (hm : m ∈ l ∧ m.kind = chatKindText) :
    itemOf (retracted l) (modifiers l) me m = itemOf (retracted l') (modifiers l') me m ↔ ∀ r, Shown l me m r → l.count r = l'.count r := by
  have hR : ∀ i, i ∈ retracted l ↔ i ∈ retracted l' := fun i => mem_retracted_congr hu hmem
  unfold itemOf
  by_cases hdel : m.id ∈ retracted l
  · rw [if_pos hdel, if_pos ((hR _).1 hdel)]
    exact ⟨fun _ r hr => absurd hdel hr.kept, fun _ => rfl⟩
  rw [if_neg hdel, if_neg (fun h => hdel ((hR _).2 h)), getD_edits, getD_edits, getD_reactions, getD_reactions,
    ← editsOn_congr hR, ← reactionsOn_congr hR]
  have hlatest : latestEdit (l.filter (editsOn (retracted l) m.id)) m = latestEdit (l'.filter (editsOn (retracted l) m.id)) m := by
    unfold latestEdit
    refine Sorted.getLast?_eq (sorted_mergeSort _) (sorted_mergeSort _) ?_ ?_
    · intro a ha b hb
      rw [List.mem_mergeSort, List.mem_filter, List.mem_filter] at ha hb
      exact hu a ha.1.1 b hb.1.1
    · intro x
      rw [List.mem_mergeSort, List.mem_mergeSort, List.mem_filter, List.mem_filter, List.mem_filter, List.mem_filter, hmem]
  have hu' : UniqueIds ((l.filter (reactionsOn (retracted l) m.id)).mergeSort byTimeThenId) := by
    intro a ha b hb
    rw [List.mem_mergeSort, List.mem_filter] at ha hb
    exact hu a ha.1 b hb.1
  have hmem' : ∀ x, x ∈ (l.filter (reactionsOn (retracted l) m.id)).mergeSort byTimeThenId ↔
      x ∈ (l'.filter (reactionsOn (retracted l) m.id)).mergeSort byTimeThenId := by
    intro x
    rw [List.mem_mergeSort, List.mem_mergeSort, List.mem_filter, List.mem_filter, hmem]
  rw [hlatest, ChatTimelineItem.mk.injEq]
  simp only [true_and, tallied_eq_iff hu' (sorted_mergeSort _) (sorted_mergeSort _) hmem']
  have hcount : ∀ {k : List ChatMessage} {r}, reactionsOn (retracted l) m.id r = true →
      ((k.filter (reactionsOn (retracted l) m.id)).mergeSort byTimeThenId).count r = k.count r := by
    intro k r hr
    rw [(List.mergeSort_perm _ _).count_eq, List.count_filter hr]
  constructor
  · intro h r hr
    have heq := h r (List.mem_mergeSort.2 (List.mem_filter.2 ⟨hr.mem, hr.live⟩)) hr.own
    rwa [hcount hr.live, hcount hr.live] at heq
  · intro h r hr hme
    obtain ⟨hmem, hlive⟩ := List.mem_filter.1 (List.mem_mergeSort.1 hr)
    rw [hcount hlive, hcount hlive]
    exact h r ⟨hme, hmem, hlive, hm, hdel⟩

/-- The line of a message of the list. -/
theorem mem_foldChatTimeline {x : ChatTimelineItem} :
    x ∈ foldChatTimeline l me ↔ ∃ m, (m ∈ l ∧ m.kind = chatKindText) ∧ itemOf (retracted l) (modifiers l) me m = x := by
  unfold foldChatTimeline
  rw [List.mem_map]
  simp only [List.mem_filter, decide_eq_true_eq]

theorem itemOf_id {R : List JsString} {s : Modifiers} : (itemOf R s me m).id = m.id := by
  unfold itemOf
  split <;> rfl

theorem foldChatTimeline_iff (hu : UniqueIds l) (hmem : ∀ x, x ∈ l ↔ x ∈ l') :
    (∀ x, x ∈ foldChatTimeline l me ↔ x ∈ foldChatTimeline l' me) ↔ ∀ m r, Shown l me m r → l.count r = l'.count r := by
  have hitems : (∀ x, x ∈ foldChatTimeline l me ↔ x ∈ foldChatTimeline l' me) ↔
      ∀ m, m ∈ l ∧ m.kind = chatKindText → itemOf (retracted l) (modifiers l) me m = itemOf (retracted l') (modifiers l') me m := by
    constructor
    · intro h m hm
      obtain ⟨m', hm', heq⟩ := mem_foldChatTimeline.1 ((h _).1 (mem_foldChatTimeline.2 ⟨m, hm, rfl⟩))
      have hid : m'.id = m.id := by
        have hids := congrArg (fun x : ChatTimelineItem => x.id) heq
        simpa only [itemOf_id] using hids
      rw [← heq, hu m' ((hmem m').2 hm'.1) m hm.1 hid]
    · intro h x
      rw [mem_foldChatTimeline, mem_foldChatTimeline]
      refine exists_congr fun m => ?_
      rw [← hmem]
      exact and_congr_right fun hm => by rw [h m hm]
  rw [hitems]
  exact ⟨fun h m r hr => (itemOf_eq_iff hu hmem hr.text).1 (h m hr.text) r hr, fun h m hm => (itemOf_eq_iff hu hmem hm).2 (h m)⟩

/-! ## Whose edits and deletes count -/

/-- The text and the flags of a message, as they come of the messages of its own sender. -/
theorem itemOf_own (hu : UniqueIds l) (hm : m ∈ l) :
    let own := l.filter (·.pubkey = m.pubkey)
    let x := itemOf (retracted l) (modifiers l) me m
    let y := itemOf (retracted own) (modifiers own) me m
    x.content = y.content ∧ x.edited = y.edited ∧ x.deleted = y.deleted := by
  intro own x y
  have hown : UniqueIds own := fun a ha b hb => hu a (List.mem_filter.1 ha).1 b (List.mem_filter.1 hb).1
  have hret : ∀ t ∈ own, (t.id ∈ retracted l ↔ t.id ∈ retracted own) := by
    intro t ht
    obtain ⟨htl, htp⟩ := List.mem_filter.1 ht
    rw [mem_retracted hu, mem_retracted hown]
    constructor
    · rintro ⟨d, hd, hk, hid, t', ht', htid, hpub⟩
      cases hu t' ht' t htl htid
      have hdp : d ∈ own := List.mem_filter.2 ⟨hd, by rw [← hpub]; exact htp⟩
      exact ⟨d, hdp, hk, hid, t, ht, rfl, hpub⟩
    · rintro ⟨d, hd, hk, hid, t', ht', htid, hpub⟩
      exact ⟨d, (List.mem_filter.1 hd).1, hk, hid, t', (List.mem_filter.1 ht').1, htid, hpub⟩
  have hmown : m ∈ own := List.mem_filter.2 ⟨hm, by simp⟩
  have hlatest : latestEdit (((modifiers l).edits.get? m.id).getD []) m = latestEdit (((modifiers own).edits.get? m.id).getD []) m := by
    rw [getD_edits, getD_edits]
    unfold latestEdit
    have hfilter : (l.filter (editsOn (retracted l) m.id)).filter (·.pubkey = m.pubkey) =
        (own.filter (editsOn (retracted own) m.id)).filter (·.pubkey = m.pubkey) := by
      have hright : (own.filter (editsOn (retracted own) m.id)).filter (·.pubkey = m.pubkey) = own.filter (editsOn (retracted own) m.id) :=
        List.filter_eq_self.2 fun t ht => (List.mem_filter.1 (List.mem_filter.1 ht).1).2
      rw [hright, List.filter_comm]
      refine List.filter_congr fun t ht => ?_
      simp only [editsOn, hret t ht]
    rw [hfilter]
  have hdel := hret m hmown
  show (itemOf (retracted l) (modifiers l) me m).content = (itemOf (retracted own) (modifiers own) me m).content ∧
    (itemOf (retracted l) (modifiers l) me m).edited = (itemOf (retracted own) (modifiers own) me m).edited ∧
    (itemOf (retracted l) (modifiers l) me m).deleted = (itemOf (retracted own) (modifiers own) me m).deleted
  unfold itemOf
  by_cases h : m.id ∈ retracted l
  · rw [if_pos h, if_pos (hdel.1 h)]
    exact ⟨rfl, rfl, rfl⟩
  · rw [if_neg h, if_neg (fun h' => h (hdel.2 h')), hlatest]
    exact ⟨rfl, rfl, rfl⟩

/-- The messages without one. -/
def without (l : List ChatMessage) (e : ChatMessage) : List ChatMessage := l.filter (· ≠ e)

theorem mem_without : m ∈ without l e ↔ m ∈ l ∧ m ≠ e := by
  unfold without
  rw [List.mem_filter, decide_eq_true_eq]

theorem filter_without {P Q : ChatMessage → Bool} (he : Q e = false) (hpq : ∀ m ∈ l, m ≠ e → P m = Q m) : (without l e).filter P = l.filter Q := by
  unfold without
  rw [List.filter_filter]
  refine List.filter_congr fun m hm => ?_
  by_cases hme : m = e
  · subst hme
    simp [he]
  · simp [hme, hpq m hm hme]

/-- A retracted edit or reaction leaves no trace. -/
theorem foldChatTimeline_without (hu : UniqueIds l) (he : e ∈ l) (hkind : e.kind = chatKindEdit ∨ e.kind = chatKindReaction)
    (hret : e.id ∈ retracted l) : foldChatTimeline (without l e) me = foldChatTimeline l me := by
  have hne : ∀ m ∈ l, m ≠ e → m.id ≠ e.id := fun m hm hme hid => hme (hu m hm e he hid)
  have hu₀ : UniqueIds (without l e) := fun a ha b hb => hu a (mem_without.1 ha).1 b (mem_without.1 hb).1
  have hdel : e.kind ≠ chatKindDelete := by
    rcases hkind with h | h <;> rw [h] <;> decide
  have htext : e.kind ≠ chatKindText := by
    rcases hkind with h | h <;> rw [h] <;> decide
  have hmem : ∀ m ∈ l, m ≠ e → (m.id ∈ retracted (without l e) ↔ m.id ∈ retracted l) := by
    intro m hm hme
    rw [mem_retracted hu, mem_retracted hu₀]
    constructor
    · rintro ⟨d, hd, hk, hid, t, ht, htid, hpub⟩
      exact ⟨d, (mem_without.1 hd).1, hk, hid, t, (mem_without.1 ht).1, htid, hpub⟩
    · rintro ⟨d, hd, hk, hid, t, ht, htid, hpub⟩
      have hde : d ≠ e := fun h => hdel (h ▸ hk)
      have hte : t ≠ e := fun h => hne m hm hme (htid.symm.trans (h ▸ rfl))
      exact ⟨d, mem_without.2 ⟨hd, hde⟩, hk, hid, t, mem_without.2 ⟨ht, hte⟩, htid, hpub⟩
  have hedits : ∀ id, (without l e).filter (editsOn (retracted (without l e)) id) = l.filter (editsOn (retracted l) id) := fun id =>
    filter_without (by simp [editsOn, hret]) fun m hm hme => by simp only [editsOn, hmem m hm hme]
  have hreactions : ∀ id, (without l e).filter (reactionsOn (retracted (without l e)) id) = l.filter (reactionsOn (retracted l) id) := fun id =>
    filter_without (by simp [reactionsOn, hret]) fun m hm hme => by simp only [reactionsOn, hmem m hm hme]
  have htexts : (without l e).filter (·.kind = chatKindText) = l.filter (·.kind = chatKindText) :=
    filter_without (by simp [htext]) fun _ _ _ => rfl
  unfold foldChatTimeline
  rw [htexts]
  refine List.map_congr_left fun m hm => ?_
  obtain ⟨hml, hmk⟩ := List.mem_filter.1 hm
  have hme : m ≠ e := fun h => htext (h ▸ of_decide_eq_true hmk)
  unfold itemOf
  simp only [hmem m hml hme, getD_edits, getD_reactions, hedits, hreactions]

/-- The timeline of the same messages is the same exactly where our own reactions that
are shown are there equally often; edits and deletes are the sender's own, and a
retracted edit or reaction leaves no trace. -/
theorem timeline_repeat_iff (me : Option JsString) (l l' : List ChatMessage) (hu : UniqueIds l) (hmem : ∀ x, x ∈ l ↔ x ∈ l') :
    ((∀ x, x ∈ foldChatTimeline l me ↔ x ∈ foldChatTimeline l' me) ↔ ∀ m r, Shown l me m r → l.count r = l'.count r) ∧
    (∀ m ∈ l, let own := l.filter (·.pubkey = m.pubkey)
      let x := itemOf (retracted l) (modifiers l) me m
      let y := itemOf (retracted own) (modifiers own) me m
      x.content = y.content ∧ x.edited = y.edited ∧ x.deleted = y.deleted) ∧
    ∀ e ∈ l, e.kind = chatKindEdit ∨ e.kind = chatKindReaction → e.id ∈ retracted l →
      foldChatTimeline (without l e) me = foldChatTimeline l me :=
  ⟨foldChatTimeline_iff hu hmem, fun _ hm => itemOf_own hu hm, fun _ he hkind hret => foldChatTimeline_without hu he hkind hret⟩

/-- A greeting. -/
def greeting : ChatMessage := ⟨js "m1", js "a1", 9, js "hi", 100, []⟩

/-- Our reaction to it. -/
def ownReaction : ChatMessage := ⟨js "r1", js "me", 7, js "+", 101, [[js "e", js "m1"]]⟩

theorem greeting_unique : UniqueIds [greeting, ownReaction] := by
  unfold UniqueIds
  decide +kernel

theorem greeting_shown : Shown [greeting, ownReaction] (some (js "me")) greeting ownReaction :=
  ⟨by decide +kernel, by simp, by decide +kernel, ⟨by simp, rfl⟩, by decide +kernel⟩

theorem mem_repeated (x : ChatMessage) : x ∈ [greeting, ownReaction] ↔ x ∈ [greeting, ownReaction, ownReaction] := by
  simp

/-- Of the list with our reaction twice the timeline is another one. -/
theorem timeline_repeat_twice : UniqueIds [greeting, ownReaction] ∧
    (∀ x, x ∈ [greeting, ownReaction] ↔ x ∈ [greeting, ownReaction, ownReaction]) ∧
    ¬ ∀ x, x ∈ foldChatTimeline [greeting, ownReaction] (some (js "me")) ↔
      x ∈ foldChatTimeline [greeting, ownReaction, ownReaction] (some (js "me")) := by
  refine ⟨greeting_unique, mem_repeated, fun h => ?_⟩
  have hcount := (foldChatTimeline_iff greeting_unique mem_repeated).1 h greeting ownReaction greeting_shown
  exact absurd hcount (by decide +kernel)

/-- To somebody else it is the same. -/
theorem timeline_repeat_at_other : UniqueIds [greeting, ownReaction] ∧
    ∀ x, x ∈ foldChatTimeline [greeting, ownReaction] none ↔ x ∈ foldChatTimeline [greeting, ownReaction, ownReaction] none := by
  refine ⟨greeting_unique, ?_⟩
  refine (timeline_repeat_iff none [greeting, ownReaction] [greeting, ownReaction, ownReaction] greeting_unique mem_repeated).1.2
    fun m r hr => ?_
  exact absurd hr.own Bool.false_ne_true

end Nostrautica.Timeline
