/-
When the read state of direct messages converges (`read_state_converges`): in any order of rounds, when
the threads that are cut off at the cap were read before every thread that is kept. Threads of one
second at the cut are kept by the order in which a device came to know them, and two devices may
publish over each other for ever (`never_settles`).
-/
import Nostrautica.App.DmReadState
import Nostrautica.Js.Utf8Facts

namespace Nostrautica.DmReadState

open Js

/-! ## Positions -/

/-- Positions in the order in which they are compared. -/
abbrev Pos := ℤ ×ₗ JsString

def DmPosition.pos (p : DmPosition) : Pos := toLex (p.at_, p.id)

section

variable {p q : DmPosition} {m n a b : ReadWatermarks} {k : JsString}

theorem pos_inj (h : p.pos = q.pos) : p = q := by
  have hpair : (p.at_, p.id) = (q.at_, q.id) := toLex.injective h
  cases p
  cases q
  simpa using hpair

theorem compare_pos : 0 < compareDmPosition p q ↔ q.pos < p.pos := by
  rw [DmPosition.pos, DmPosition.pos, Prod.Lex.toLex_lt_toLex, compareDmPosition]
  by_cases hat : p.at_ = q.at_
  · by_cases hid : p.id = q.id
    · simp [hat, hid]
    · by_cases hlt : q.id < p.id
      · simp [hat, hid, hlt]
      · simp [hat, hid, hlt]
  · simp only [ne_eq, hat, not_false_eq_true, if_true]
    constructor
    · intro h
      exact .inl (by omega)
    · rintro (h | ⟨h, -⟩)
      · omega
      · exact absurd h.symm hat

theorem compare_eq_zero : compareDmPosition p q = 0 ↔ p = q := by
  rw [compareDmPosition]
  constructor
  · intro h
    by_cases hat : p.at_ = q.at_
    · by_cases hid : p.id = q.id
      · cases p
        cases q
        simp_all
      · by_cases hlt : q.id < p.id
        · simp [hat, hid, hlt] at h
        · simp [hat, hid, hlt] at h
    · simp only [ne_eq, hat, not_false_eq_true, if_true] at h
      omega
  · rintro rfl
    simp

/-! ## A map by its positions -/

/-- The position of a thread, below all others where it has none. -/
def rank (m : ReadWatermarks) (k : JsString) : WithBot Pos := (m.get? k).elim ⊥ fun p => (p.pos : WithBot Pos)

theorem rank_of_some (h : m.get? k = some p) : rank m k = (p.pos : WithBot Pos) := by rw [rank, h]; rfl

theorem rank_of_none (h : m.get? k = none) : rank m k = ⊥ := by rw [rank, h]; rfl

theorem get?_eq_of_rank (h : rank m k = rank n k) : m.get? k = n.get? k := by
  rw [rank, rank] at h
  cases hm : m.get? k with
  | none =>
    cases hn : n.get? k with
    | none => rfl
    | some q =>
      rw [hm, hn] at h
      exact absurd h.symm (WithBot.coe_ne_bot)
  | some p =>
    cases hn : n.get? k with
    | none =>
      rw [hm, hn] at h
      exact absurd h (WithBot.coe_ne_bot)
    | some q =>
      rw [hm, hn] at h
      exact congrArg some (pos_inj (WithBot.coe_injective h))

theorem mem_keys_iff_rank : k ∈ m.keys ↔ rank m k ≠ ⊥ := by
  rw [JsMap.mem_keys]
  cases hm : m.get? k with
  | none => simp [rank_of_none hm]
  | some p => simp [rank_of_some hm]

/-! ## The merge -/

theorem rank_mergeEntry (e : JsString × DmPosition) :
    rank (mergeEntry m e) k = if e.1 = k then max (rank m k) (e.2.pos : WithBot Pos) else rank m k := by
  obtain ⟨peer, p⟩ := e
  rw [mergeEntry]
  cases hm : m.get? peer with
  | none =>
    simp only
    by_cases hk : peer = k
    · subst hk
      rw [if_pos rfl, rank_of_none hm, bot_sup_eq]
      exact rank_of_some (by rw [JsMap.get?_set, if_pos rfl])
    · rw [if_neg hk, rank, JsMap.get?_set, if_neg hk, rank]
  | some mine =>
    simp only
    by_cases hk : peer = k
    · subst hk
      rw [if_pos rfl, rank_of_some hm]
      by_cases hlater : 0 < compareDmPosition p mine
      · rw [if_pos hlater, max_eq_right (WithBot.coe_le_coe.2 (compare_pos.1 hlater).le)]
        exact rank_of_some (by rw [JsMap.get?_set, if_pos rfl])
      · rw [if_neg hlater, rank_of_some hm, max_eq_left (WithBot.coe_le_coe.2 (not_lt.1 fun h => hlater (compare_pos.2 h)))]
    · rw [if_neg hk]
      by_cases hlater : 0 < compareDmPosition p mine
      · rw [if_pos hlater, rank, JsMap.get?_set, if_neg hk, rank]
      · rw [if_neg hlater]

theorem rank_foldl_mergeEntry : ∀ {l : List (JsString × DmPosition)} {m : ReadWatermarks}, (l.map Prod.fst).Nodup →
    rank (l.foldl mergeEntry m) k = max (rank m k) ((look k l).elim ⊥ fun p => (p.pos : WithBot Pos))
  | [], m, _ => by simp [look]
  | (peer, p) :: l, m, h => by
    have hl := List.nodup_cons.1 h
    rw [List.foldl_cons, rank_foldl_mergeEntry hl.2, rank_mergeEntry, look]
    by_cases hk : peer = k
    · have hnone : look k l = none := look_eq_none.2 (hk ▸ hl.1)
      simp only [if_pos hk, hnone, Option.elim_none, Option.elim_some, sup_bot_eq]
    · simp only [if_neg hk]

/-- **A merge is the later of the two positions, thread by thread.** -/
theorem rank_mergeWatermarks : rank (mergeWatermarks a b) k = max (rank a k) (rank b k) := rank_foldl_mergeEntry b.nodup

theorem sameWatermarks_iff : sameWatermarks a b = true ↔ ∀ k, rank a k = rank b k := by
  have hentry : (a.entries.all fun e => (b.get? e.1).any fun position => compareDmPosition e.2 position = 0) = true ↔
      ∀ k p, a.get? k = some p → b.get? k = some p := by
    rw [List.all_eq_true]
    constructor
    · intro h k p hp
      have he := h (k, p) (JsMap.get?_eq_some.1 hp)
      cases hb : b.get? k with
      | none => simp [hb] at he
      | some q =>
        simp only [hb, Option.any_some, decide_eq_true_eq] at he
        rw [compare_eq_zero.1 he]
    · intro h e he
      have hb := h e.1 e.2 (JsMap.get?_eq_some.2 he)
      simp [hb, compare_eq_zero]
  rw [sameWatermarks, Bool.and_eq_true, decide_eq_true_eq, hentry]
  constructor
  · rintro ⟨hlen, hall⟩ k
    have hsub : a.keys ⊆ b.keys := by
      intro x hx
      obtain ⟨p, hp⟩ := JsMap.mem_keys.1 hx
      exact JsMap.mem_keys.2 ⟨p, hall x p hp⟩
    have hperm : a.keys.Perm b.keys := (a.nodup.subperm hsub).perm_of_length_le hlen.ge
    cases ha : a.get? k with
    | some p => rw [rank_of_some ha, rank_of_some (hall k p ha)]
    | none =>
      have hb : k ∉ b.keys := by
        rw [← hperm.mem_iff, JsMap.mem_keys]
        rintro ⟨p, hp⟩
        rw [ha] at hp
        cases hp
      rw [rank_of_none ha]
      by_contra hne
      exact hb (mem_keys_iff_rank.2 fun h => hne h.symm)
  · intro h
    have hget : ∀ k, a.get? k = b.get? k := fun k => get?_eq_of_rank (h k)
    refine ⟨?_, fun k p hp => hget k ▸ hp⟩
    have hmem : ∀ x, x ∈ a.keys ↔ x ∈ b.keys := fun x => by rw [JsMap.mem_keys, JsMap.mem_keys, hget]
    have hperm : a.keys.Perm b.keys := (List.perm_ext_iff_of_nodup a.nodup b.nodup).2 hmem
    exact hperm.length_eq

theorem rank_mergeRemoteWatermarks : rank (mergeRemoteWatermarks a b) k = max (rank a k) (rank b k) := by
  rw [mergeRemoteWatermarks]
  by_cases hsame : sameWatermarks (mergeWatermarks a b) a = true
  · simp only [if_pos hsame]
    rw [← rank_mergeWatermarks]
    exact (sameWatermarks_iff.1 hsame k).symm
  · simp only [if_neg hsame]
    exact rank_mergeWatermarks

end

/-! ## The cap -/

section

variable {m : ReadWatermarks} {p : DmPosition} {k : JsString} {t : Int}

/-- Every marker is one that `sanitize` keeps. -/
def WellFormed (m : ReadWatermarks) : Prop := ∀ k p, m.get? k = some p → wellFormed (k, p) = true

theorem sanitize_eq (h : WellFormed m) : sanitize m = m := by
  have hfilter : m.entries.filter wellFormed = m.entries :=
    List.filter_eq_self.2 fun e he => h e.1 e.2 (JsMap.get?_eq_some.2 he)
  cases m
  simp only [sanitize, JsMap.mk.injEq]
  exact hfilter

theorem get?_kept {clean : ReadWatermarks} : ∀ {ks : List JsString} {kept : ReadWatermarks},
    (ks.foldl (fun kept peer => (clean.get? peer).elim kept fun position => kept.set peer position) kept).get? k =
      if k ∈ ks ∧ clean.get? k ≠ none then clean.get? k else kept.get? k
  | [], kept => by simp
  | peer :: ks, kept => by
    rw [List.foldl_cons, get?_kept]
    by_cases hk : peer = k
    · subst hk
      cases hp : clean.get? peer with
      | none => simp
      | some p => simp [JsMap.get?_set]
    · have hset : ((clean.get? peer).elim kept fun position => kept.set peer position).get? k = kept.get? k := by
        cases clean.get? peer with
        | none => rfl
        | some p => exact JsMap.get?_set.trans (if_neg hk)
      have hmem : k ∈ peer :: ks ↔ k ∈ ks := by simp [Ne.symm hk]
      simp only [hset, hmem]

theorem prunedForPublish_of_le (h : WellFormed m) (hlen : m.keys.length ≤ maxDmReadThreads) : prunedForPublish m = m := by
  simp only [prunedForPublish, sanitize_eq h, if_pos hlen]

theorem get?_prunedForPublish (h : WellFormed m) (hlen : ¬m.keys.length ≤ maxDmReadThreads) :
    (prunedForPublish m).get? k = if k ∈ (byTime m).take maxDmReadThreads then m.get? k else none := by
  simp only [prunedForPublish, sanitize_eq h, if_neg hlen, get?_kept, JsMap.get?_empty]
  by_cases hk : k ∈ (byTime m).take maxDmReadThreads
  · rw [if_pos hk]
    by_cases hnone : m.get? k = none
    · rw [if_neg fun h => h.2 hnone, hnone]
    · rw [if_pos ⟨hk, hnone⟩]
  · rw [if_neg hk, if_neg fun h => hk h.1]

theorem perm_byTime : (byTime m).Perm m.keys := List.mergeSort_perm _ _

theorem sorted_byTime : (byTime m).Pairwise fun a b => readAt m b ≤ readAt m a := by
  have htrans : ∀ a b c : JsString, decide (readAt m b ≤ readAt m a) = true → decide (readAt m c ≤ readAt m b) = true →
      decide (readAt m c ≤ readAt m a) = true := by
    intro a b c hab hbc
    simp only [decide_eq_true_eq] at hab hbc ⊢
    omega
  have htotal : ∀ a b : JsString, (decide (readAt m b ≤ readAt m a) || decide (readAt m a ≤ readAt m b)) = true := by
    intro a b
    simp only [Bool.or_eq_true, decide_eq_true_eq]
    omega
  have hsorted := List.pairwise_mergeSort htrans htotal m.keys
  exact hsorted.imp fun h => of_decide_eq_true h

/-- What is published is a part of the watermarks. -/
theorem rank_prunedForPublish_or (h : WellFormed m) :
    rank (prunedForPublish m) k = rank m k ∨ rank (prunedForPublish m) k = ⊥ := by
  by_cases hlen : m.keys.length ≤ maxDmReadThreads
  · rw [prunedForPublish_of_le h hlen]
    exact .inl rfl
  · by_cases hk : k ∈ (byTime m).take maxDmReadThreads
    · exact .inl (by rw [rank, get?_prunedForPublish h hlen, if_pos hk, rank])
    · exact .inr (rank_of_none (by rw [get?_prunedForPublish h hlen, if_neg hk]))

theorem wellFormed_pruned (h : WellFormed m) : WellFormed (prunedForPublish m) := by
  intro k p hp
  have hrank := rank_of_some hp
  rcases rank_prunedForPublish_or h with heq | hbot
  · exact h k p ((get?_eq_of_rank heq).symm.trans hp)
  · rw [hbot] at hrank
    exact absurd hrank.symm WithBot.coe_ne_bot

theorem length_pruned (h : WellFormed m) : (prunedForPublish m).keys.length ≤ maxDmReadThreads := by
  by_cases hlen : m.keys.length ≤ maxDmReadThreads
  · rwa [prunedForPublish_of_le h hlen]
  · have hsub : (prunedForPublish m).keys ⊆ (byTime m).take maxDmReadThreads := by
      intro x hx
      obtain ⟨p, hp⟩ := JsMap.mem_keys.1 hx
      by_contra hno
      rw [get?_prunedForPublish h hlen, if_neg hno] at hp
      exact nomatch hp
    exact ((prunedForPublish m).nodup.subperm hsub).length_le.trans (List.length_take_le _ _)

/-- What was read late enough is kept, if no more was than the cap allows. -/
theorem rank_prunedForPublish (h : WellFormed m) (hcount : (m.keys.filter fun k => t ≤ readAt m k).length ≤ maxDmReadThreads)
    (hk : k ∈ m.keys) (ht : t ≤ readAt m k) : rank (prunedForPublish m) k = rank m k := by
  by_cases hlen : m.keys.length ≤ maxDmReadThreads
  · rw [prunedForPublish_of_le h hlen]
  have hin : k ∈ (byTime m).take maxDmReadThreads := by
    by_contra hout
    have hmem : k ∈ (byTime m).take maxDmReadThreads ++ (byTime m).drop maxDmReadThreads := by
      rw [List.take_append_drop]
      exact perm_byTime.mem_iff.2 hk
    have hdrop := (List.mem_append.1 hmem).resolve_left hout
    have hsorted : ((byTime m).take maxDmReadThreads ++ (byTime m).drop maxDmReadThreads).Pairwise fun a b => readAt m b ≤ readAt m a := by
      rw [List.take_append_drop]
      exact sorted_byTime
    -- all that is kept was read no earlier than the thread that is left out
    have hlate : ∀ x ∈ (byTime m).take maxDmReadThreads, t ≤ readAt m x := fun x hx =>
      ht.trans ((List.pairwise_append.1 hsorted).2.2 x hx k hdrop)
    have hnodup : (byTime m).Nodup := perm_byTime.nodup_iff.2 m.nodup
    have hsub : k :: (byTime m).take maxDmReadThreads ⊆ m.keys.filter fun k => t ≤ readAt m k := by
      intro x hx
      rcases List.mem_cons.1 hx with rfl | hx
      · exact List.mem_filter.2 ⟨hk, decide_eq_true ht⟩
      · exact List.mem_filter.2 ⟨perm_byTime.mem_iff.1 (List.mem_of_mem_take hx), decide_eq_true (hlate x hx)⟩
    have hcons : (k :: (byTime m).take maxDmReadThreads).Nodup := List.nodup_cons.2 ⟨hout, hnodup.sublist (List.take_sublist _ _)⟩
    have hle := (hcons.subperm hsub).length_le
    have htake : ((byTime m).take maxDmReadThreads).length = maxDmReadThreads := by
      rw [List.length_take, perm_byTime.length_eq]
      omega
    rw [List.length_cons, htake] at hle
    omega
  rw [rank, get?_prunedForPublish h hlen, if_pos hin, rank]

theorem pruned_eq_nil (h : WellFormed m) (hnil : (prunedForPublish m).keys.length = 0) : m.keys = [] := by
  by_cases hlen : m.keys.length ≤ maxDmReadThreads
  · rw [prunedForPublish_of_le h hlen] at hnil
    exact List.length_eq_zero_iff.1 hnil
  · exfalso
    obtain ⟨x, hx⟩ : ∃ x, x ∈ (byTime m).take maxDmReadThreads := by
      refine List.exists_mem_of_length_pos ?_
      rw [List.length_take, perm_byTime.length_eq, maxDmReadThreads] at *
      omega
    obtain ⟨p, hp⟩ := JsMap.mem_keys.1 (perm_byTime.mem_iff.1 (List.mem_of_mem_take hx))
    have hkept : x ∈ (prunedForPublish m).keys := by
      rw [JsMap.mem_keys]
      exact ⟨p, by rw [get?_prunedForPublish h hlen, if_pos hx, hp]⟩
    rw [List.length_eq_zero_iff.1 hnil] at hkept
    exact absurd hkept List.not_mem_nil

theorem schema_iff : dmReadStateSchema m = true ↔ WellFormed m ∧ m.keys.length ≤ maxDmReadThreads := by
  rw [dmReadStateSchema, Bool.and_eq_true, decide_eq_true_eq, List.all_eq_true]
  refine and_congr_left fun _ => ⟨fun h k p hp => h (k, p) (JsMap.get?_eq_some.1 hp), fun h e he => h e.1 e.2 (JsMap.get?_eq_some.2 he)⟩

end

/-! ## Rounds -/

section

variable {doc : Option ReadWatermarks} {m r : ReadWatermarks} {k : JsString}

/-- The positions of the document, where it can be read. -/
def docRank (doc : Option ReadWatermarks) (k : JsString) : WithBot Pos := (fetchRemote doc).elim ⊥ fun r => rank r k

theorem fetchRemote_eq_some : fetchRemote doc = some r ↔ doc = some r ∧ WellFormed r ∧ r.keys.length ≤ maxDmReadThreads := by
  rw [fetchRemote, Option.filter_eq_some_iff, schema_iff]

theorem reconcile_fst : (reconcile m doc).1 = (fetchRemote doc).elim m (mergeRemoteWatermarks m) := by
  simp only [reconcile]
  split
  · rfl
  · split <;> rfl

theorem rank_reconcile : rank (reconcile m doc).1 k = max (rank m k) (docRank doc k) := by
  rw [reconcile_fst, docRank]
  cases fetchRemote doc with
  | none => rw [Option.elim_none, Option.elim_none, sup_bot_eq]
  | some r => rw [Option.elim_some, Option.elim_some, rank_mergeRemoteWatermarks]

theorem wellFormed_reconcile (h : WellFormed m) : WellFormed (reconcile m doc).1 := by
  intro k p hp
  have hrank : max (rank m k) (docRank doc k) = (p.pos : WithBot Pos) := by rw [← rank_reconcile, rank_of_some hp]
  rcases max_choice (rank m k) (docRank doc k) with hmax | hmax
  · have hget : (reconcile m doc).1.get? k = m.get? k := get?_eq_of_rank (by rw [rank_reconcile, hmax])
    exact h k p (hget ▸ hp)
  · rw [hmax, docRank] at hrank
    cases hr : fetchRemote doc with
    | none =>
      rw [hr] at hrank
      exact absurd hrank.symm WithBot.coe_ne_bot
    | some r =>
      have hget : (reconcile m doc).1.get? k = r.get? k := by
        refine get?_eq_of_rank ?_
        rw [rank_reconcile, hmax, docRank, hr]
        rfl
      exact (fetchRemote_eq_some.1 hr).2.1 k p (hget ▸ hp)

theorem reconcile_snd : (reconcile m doc).2 =
    if (prunedForPublish (reconcile m doc).1).keys.length = 0 ∨ (fetchRemote doc).any (sameWatermarks (prunedForPublish (reconcile m doc).1)) = true then none
    else some (prunedForPublish (reconcile m doc).1) := by
  rw [reconcile_fst]
  simp only [reconcile]
  split
  · next h => rw [if_pos (.inl h)]
  · next h =>
    split
    · next hs => rw [if_pos (.inr hs)]
    · next hs => rw [if_neg (fun hor => hor.elim h hs)]

/-- After a round the document says what the device's own view of it is. -/
theorem docRank_round (h : WellFormed m) : docRank ((reconcile m doc).2.or doc) k = rank (prunedForPublish (reconcile m doc).1) k := by
  have hwell : WellFormed (reconcile m doc).1 := wellFormed_reconcile h
  rw [reconcile_snd]
  by_cases hempty : (prunedForPublish (reconcile m doc).1).keys.length = 0
  · rw [if_pos (.inl hempty), Option.none_or]
    have hnil := pruned_eq_nil hwell hempty
    have hnone : rank (prunedForPublish (reconcile m doc).1) k = ⊥ := by
      by_contra hne
      have hk := mem_keys_iff_rank.2 hne
      rw [List.length_eq_zero_iff.1 hempty] at hk
      exact absurd hk List.not_mem_nil
    have hlocal : rank (reconcile m doc).1 k = ⊥ := by
      by_contra hne
      have hk := mem_keys_iff_rank.2 hne
      rw [hnil] at hk
      exact absurd hk List.not_mem_nil
    rw [rank_reconcile] at hlocal
    rw [hnone]
    exact (sup_eq_bot_iff.1 hlocal).2
  by_cases hsame : (fetchRemote doc).any (sameWatermarks (prunedForPublish (reconcile m doc).1)) = true
  · rw [if_pos (.inr hsame), Option.none_or, docRank]
    cases hr : fetchRemote doc with
    | none =>
      rw [hr, Option.any_none] at hsame
      exact absurd hsame Bool.false_ne_true
    | some r =>
      rw [hr, Option.any_some] at hsame
      rw [Option.elim_some]
      exact (sameWatermarks_iff.1 hsame k).symm
  · rw [if_neg fun hor => hor.elim hempty hsame, Option.some_or, docRank,
      fetchRemote_eq_some.2 ⟨rfl, wellFormed_pruned hwell, length_pruned hwell⟩, Option.elim_some]

/-- A device whose view the document already says publishes nothing. -/
theorem quiet_of_docRank (hdoc : ∀ k, docRank doc k = rank (prunedForPublish (reconcile m doc).1) k) : (reconcile m doc).2 = none := by
  rw [reconcile_snd]
  by_cases hempty : (prunedForPublish (reconcile m doc).1).keys.length = 0
  · rw [if_pos (.inl hempty)]
  · obtain ⟨x, hx⟩ := List.exists_mem_of_length_pos (Nat.pos_of_ne_zero hempty)
    have hrank := mem_keys_iff_rank.1 hx
    rw [← hdoc x, docRank] at hrank
    cases hr : fetchRemote doc with
    | none =>
      rw [hr, Option.elim_none] at hrank
      exact absurd rfl hrank
    | some r =>
      have hsame : sameWatermarks (prunedForPublish (reconcile m doc).1) r = true := by
        rw [sameWatermarks_iff]
        intro k
        rw [← hdoc k, docRank, hr, Option.elim_some]
      rw [Option.any_some, if_pos (.inr hsame)]

end

/-! ## All devices -/

section

variable {δ : Type} [DecidableEq δ] {w : World δ} {d e : δ} {k : JsString} {t : Int} {T : Finset JsString}

/-- The thread has the position on a device or in the document. -/
def World.Has (w : World δ) (k : JsString) (p : DmPosition) : Prop :=
  (∃ d, (w.watermarks d).get? k = some p) ∨ ∃ r ∈ fetchRemote w.doc, r.get? k = some p

/-- The threads that some device or the document has as read at `t` or later are no more than the cap
allows; they are exactly that many, or all there are. -/
structure World.CleanCut (w : World δ) (t : Int) (T : Finset JsString) : Prop where
  card : T.card ≤ maxDmReadThreads
  mem : ∀ k, k ∈ T ↔ ∃ p, w.Has k p ∧ t ≤ p.at_
  rest : T.card = maxDmReadThreads ∨ ∀ k p, w.Has k p → k ∈ T

/-- Every device holds the document, and none publishes. -/
structure World.Settled (w : World δ) : Prop where
  quiet : ∀ d, (reconcile (w.watermarks d) w.doc).2 = none
  same : ∀ d e, sameWatermarks (prunedForPublish (w.watermarks d)) (prunedForPublish (w.watermarks e)) = true
  doc : ∀ d, ∀ r ∈ fetchRemote w.doc, sameWatermarks (prunedForPublish (w.watermarks d)) r = true

/-- The latest position of a thread, on some devices and in the document. -/
def latest (w : World δ) (ds : List δ) (k : JsString) : WithBot Pos :=
  ds.foldr (fun d x => max (rank (w.watermarks d) k) x) (docRank w.doc k)

omit [DecidableEq δ] in
theorem rank_le_latest : ∀ {ds : List δ}, d ∈ ds → rank (w.watermarks d) k ≤ latest w ds k
  | e :: ds, h => by
    rcases List.mem_cons.1 h with rfl | h
    · exact le_max_left _ _
    · exact (rank_le_latest h).trans (le_max_right _ _)

omit [DecidableEq δ] in
theorem docRank_le_latest : ∀ {ds : List δ}, docRank w.doc k ≤ latest w ds k
  | [] => le_refl _
  | _ :: ds => by
    have ih : docRank w.doc k ≤ latest w ds k := docRank_le_latest
    exact ih.trans (le_max_right _ _)

omit [DecidableEq δ] in
theorem latest_attained : ∀ {ds : List δ}, latest w ds k = docRank w.doc k ∨ ∃ d ∈ ds, latest w ds k = rank (w.watermarks d) k
  | [] => .inl rfl
  | e :: ds => by
    rcases max_choice (rank (w.watermarks e) k) (latest w ds k) with h | h
    · exact .inr ⟨e, List.mem_cons_self, h⟩
    · have ih : latest w ds k = docRank w.doc k ∨ ∃ d ∈ ds, latest w ds k = rank (w.watermarks d) k := latest_attained
      rcases ih with h' | ⟨d, hd, h'⟩
      · exact .inl (h.trans h')
      · exact .inr ⟨d, List.mem_cons_of_mem e hd, h.trans h'⟩

/-- The least position of a time. -/
def threshold (t : Int) : WithBot Pos := ((toLex (t, []) : Pos) : WithBot Pos)

theorem threshold_le {p : DmPosition} : threshold t ≤ (p.pos : WithBot Pos) ↔ t ≤ p.at_ := by
  rw [threshold, WithBot.coe_le_coe, DmPosition.pos, Prod.Lex.toLex_le_toLex]
  constructor
  · rintro (h | ⟨h, -⟩)
    · exact Int.le_of_lt h
    · exact Int.le_of_eq h
  · intro h
    rcases Int.lt_or_eq_of_le h with h | h
    · exact .inl h
    · exact .inr ⟨h, not_lt.1 (List.not_lt_nil p.id)⟩

theorem threshold_le_rank {m : ReadWatermarks} : threshold t ≤ rank m k ↔ k ∈ m.keys ∧ t ≤ readAt m k := by
  cases hm : m.get? k with
  | none =>
    have hk : k ∉ m.keys := by simp [JsMap.mem_keys, hm]
    rw [rank_of_none hm]
    exact iff_of_false (fun h => absurd (le_bot_iff.1 h) WithBot.coe_ne_bot) fun h => hk h.1
  | some p =>
    have hk : k ∈ m.keys := JsMap.mem_keys.2 ⟨p, hm⟩
    rw [rank_of_some hm, threshold_le, readAt, hm]
    exact (and_iff_right hk).symm

/-- The latest positions, and the threads within the cap. -/
structure Bound (U : JsString → WithBot Pos) (t : Int) (T : Finset JsString) : Prop where
  card : T.card ≤ maxDmReadThreads
  mem : ∀ k, k ∈ T ↔ threshold t ≤ U k
  rest : T.card = maxDmReadThreads ∨ ∀ k, U k ≠ ⊥ → k ∈ T

variable {U : JsString → WithBot Pos} {m : ReadWatermarks}

/-- What is up to date within the cap stays so in what is published. -/
theorem rank_pruned_of_latest (hU : Bound U t T) (h : WellFormed m) (hle : ∀ k, rank m k ≤ U k) (hk : k ∈ T) (hlatest : rank m k = U k) :
    rank (prunedForPublish m) k = U k := by
  have hcount : (m.keys.filter fun k => t ≤ readAt m k).length ≤ maxDmReadThreads := by
    have hsub : (m.keys.filter fun k => t ≤ readAt m k).toFinset ⊆ T := by
      intro x hx
      obtain ⟨hx, ht⟩ := List.mem_filter.1 (List.mem_toFinset.1 hx)
      exact (hU.mem x).2 ((threshold_le_rank.2 ⟨hx, of_decide_eq_true ht⟩).trans (hle x))
    have hcard := List.toFinset_card_of_nodup (m.nodup.filter fun k => decide (t ≤ readAt m k))
    exact hcard.symm.le.trans ((Finset.card_le_card hsub).trans hU.card)
  have hthreshold := (hU.mem k).1 hk
  rw [← hlatest] at hthreshold ⊢
  obtain ⟨hmem, ht⟩ := threshold_le_rank.1 hthreshold
  exact rank_prunedForPublish h hcount hmem ht

/-- A small map that is up to date within the cap has nothing else. -/
theorem rank_eq_bot_of_latest (hU : Bound U t T) (hlen : m.keys.length ≤ maxDmReadThreads) (hle : ∀ k, rank m k ≤ U k)
    (hall : ∀ k ∈ T, rank m k = U k) (hk : k ∉ T) : rank m k = ⊥ := by
  by_contra hne
  rcases hU.rest with hcard | hrest
  · have hsub : insert k T ⊆ m.keys.toFinset := by
      intro x hx
      rw [List.mem_toFinset, mem_keys_iff_rank]
      rcases Finset.mem_insert.1 hx with rfl | hx
      · exact hne
      · rw [hall x hx]
        intro hbot
        have hthreshold := (hU.mem x).1 hx
        rw [hbot] at hthreshold
        exact absurd (le_bot_iff.1 hthreshold) WithBot.coe_ne_bot
    have hle := Finset.card_le_card hsub
    have hkeys : m.keys.toFinset.card = m.keys.length := List.toFinset_card_of_nodup m.nodup
    rw [Finset.card_insert_of_notMem hk, hkeys, hcard] at hle
    exact absurd (hle.trans hlen) (by omega)
  · exact hk (hrest k fun hbot => hne (le_bot_iff.1 (hbot ▸ hle k)))

/-- What every round keeps: nothing is later than the latest. -/
structure Below (U : JsString → WithBot Pos) (w : World δ) : Prop where
  well : ∀ d, WellFormed (w.watermarks d)
  device : ∀ d k, rank (w.watermarks d) k ≤ U k
  doc : ∀ k, docRank w.doc k ≤ U k

theorem watermarks_round : (w.round d).watermarks e = if e = d then (reconcile (w.watermarks d) w.doc).1 else w.watermarks e := by
  by_cases h : e = d
  · subst h
    rw [if_pos rfl]
    exact Function.update_self _ _ _
  · rw [if_neg h]
    exact Function.update_of_ne h _ _

theorem docRank_world_round (h : Below U w) :
    docRank (w.round d).doc k = rank (prunedForPublish (reconcile (w.watermarks d) w.doc).1) k := docRank_round (h.well d)

omit [DecidableEq δ] in
theorem rank_reconcile_le (h : Below U w) : rank (reconcile (w.watermarks d) w.doc).1 k ≤ U k := by
  rw [rank_reconcile]
  exact max_le (h.device d k) (h.doc k)

theorem Below.round (h : Below U w) : Below U (w.round d) where
  well e := by
    rw [watermarks_round]
    by_cases he : e = d
    · rw [if_pos he]
      exact wellFormed_reconcile (h.well d)
    · rw [if_neg he]
      exact h.well e
  device e k := by
    rw [watermarks_round]
    by_cases he : e = d
    · rw [if_pos he]
      exact rank_reconcile_le h
    · rw [if_neg he]
      exact h.device e k
  doc k := by
    rw [docRank_world_round h]
    have hwell : WellFormed (reconcile (w.watermarks d) w.doc).1 := wellFormed_reconcile (h.well d)
    rcases rank_prunedForPublish_or (k := k) hwell with heq | hbot
    · rw [heq]
      exact rank_reconcile_le h
    · rw [hbot]
      exact bot_le

/-- A device that is up to date with a thread, or reads a document that is, brings both up to date. -/
theorem latest_round (hU : Bound U t T) (h : Below U w) (hk : k ∈ T) (hlatest : rank (w.watermarks d) k = U k ∨ docRank w.doc k = U k) :
    rank ((w.round d).watermarks d) k = U k ∧ docRank (w.round d).doc k = U k := by
  have hmerged : rank (reconcile (w.watermarks d) w.doc).1 k = U k := by
    refine le_antisymm (rank_reconcile_le h) ?_
    rw [rank_reconcile]
    rcases hlatest with hd | hdoc
    · exact hd ▸ le_max_left _ _
    · exact hdoc ▸ le_max_right _ _
  refine ⟨?_, ?_⟩
  · rw [watermarks_round, if_pos rfl, hmerged]
  · rw [docRank_world_round h]
    exact rank_pruned_of_latest hU (wellFormed_reconcile (h.well d)) (fun k => rank_reconcile_le h) hk hmerged

/-- A device that is up to date stays so. -/
theorem device_round (hU : Bound U t T) (h : Below U w) (hk : k ∈ T) (he : rank (w.watermarks e) k = U k) :
    rank ((w.round d).watermarks e) k = U k := by
  by_cases hed : e = d
  · subst hed
    exact (latest_round hU h hk (.inl he)).1
  · rw [watermarks_round, if_neg hed, he]

theorem Below.rounds (h : Below U w) : ∀ {ds : List δ}, Below U (w.rounds ds) := by
  intro ds
  induction ds generalizing w with
  | nil => exact h
  | cons d ds ih => exact ih h.round

theorem doc_rounds (hU : Bound U t T) (hk : k ∈ T) : ∀ {ds : List δ} {w : World δ}, Below U w →
    (docRank w.doc k = U k ∨ ∃ d ∈ ds, rank (w.watermarks d) k = U k) → docRank (w.rounds ds).doc k = U k
  | [], w, _, h => h.resolve_right fun ⟨d, hd, _⟩ => absurd hd List.not_mem_nil
  | d :: ds, w, hb, h => by
    show docRank ((w.round d).rounds ds).doc k = U k
    refine doc_rounds hU hk hb.round ?_
    rcases h with h | ⟨e, he, h⟩
    · exact .inl (latest_round hU hb hk (.inr h)).2
    · rcases List.mem_cons.1 he with rfl | he
      · exact .inl (latest_round hU hb hk (.inl h)).2
      · exact .inr ⟨e, he, device_round hU hb hk h⟩

theorem device_rounds (hU : Bound U t T) (hk : k ∈ T) : ∀ {ds : List δ} {w : World δ}, Below U w →
    (rank (w.watermarks e) k = U k ∨ docRank w.doc k = U k ∧ e ∈ ds) → rank ((w.rounds ds).watermarks e) k = U k
  | [], w, _, h => h.resolve_right fun h => absurd h.2 List.not_mem_nil
  | d :: ds, w, hb, h => by
    show rank (((w.round d).rounds ds).watermarks e) k = U k
    refine device_rounds hU hk hb.round ?_
    rcases h with h | ⟨hdoc, he⟩
    · exact .inl (device_round hU hb hk h)
    · rcases List.mem_cons.1 he with rfl | he
      · exact .inl (latest_round hU hb hk (.inr hdoc)).1
      · exact .inr ⟨(latest_round hU hb hk (.inr hdoc)).2, he⟩

omit [DecidableEq δ] in
/-- Where all are up to date within the cap, all hold the document and none publishes. -/
theorem settled_of_latest (hU : Bound U t T) (h : Below U w) (hdevice : ∀ d, ∀ k ∈ T, rank (w.watermarks d) k = U k)
    (hdoc : ∀ k ∈ T, docRank w.doc k = U k) : w.Settled := by
  have hpruned : ∀ m, WellFormed m → (∀ k, rank m k ≤ U k) → (∀ k ∈ T, rank m k = U k) →
      ∀ k, rank (prunedForPublish m) k = if k ∈ T then U k else ⊥ := by
    intro m hm hle hall k
    have hkept : ∀ k ∈ T, rank (prunedForPublish m) k = U k := fun k hk => rank_pruned_of_latest hU hm hle hk (hall k hk)
    by_cases hk : k ∈ T
    · rw [if_pos hk, hkept k hk]
    · rw [if_neg hk]
      refine rank_eq_bot_of_latest hU (length_pruned hm) (fun x => ?_) hkept hk
      rcases rank_prunedForPublish_or (k := x) hm with heq | hbot
      · rw [heq]
        exact hle x
      · rw [hbot]
        exact bot_le
  have hread : ∀ k, docRank w.doc k = if k ∈ T then U k else ⊥ := by
    intro k
    by_cases hk : k ∈ T
    · rw [if_pos hk, hdoc k hk]
    · rw [if_neg hk]
      cases hr : fetchRemote w.doc with
      | none => rw [docRank, hr, Option.elim_none]
      | some r =>
        have hrank : ∀ x, docRank w.doc x = rank r x := fun x => by rw [docRank, hr, Option.elim_some]
        rw [hrank k]
        exact rank_eq_bot_of_latest hU (fetchRemote_eq_some.1 hr).2.2 (fun x => hrank x ▸ h.doc x) (fun x hx => hrank x ▸ hdoc x hx) hk
  have hview : ∀ d k, rank (prunedForPublish (w.watermarks d)) k = if k ∈ T then U k else ⊥ :=
    fun d => hpruned _ (h.well d) (h.device d) (hdevice d)
  refine ⟨fun d => quiet_of_docRank fun k => ?_, fun d e => sameWatermarks_iff.2 fun k => ?_, fun d r hr => sameWatermarks_iff.2 fun k => ?_⟩
  · have hmerged : ∀ k ∈ T, rank (reconcile (w.watermarks d) w.doc).1 k = U k := by
      intro k hk
      rw [rank_reconcile, hdevice d k hk, hdoc k hk, max_self]
    rw [hread, hpruned _ (wellFormed_reconcile (h.well d)) (fun k => rank_reconcile_le h) hmerged]
  · rw [hview, hview]
  · rw [hview, ← hread, docRank, Option.mem_def.1 hr, Option.elim_some]

omit [DecidableEq δ] in
/-- What the clean cut of a state says of its latest positions. -/
theorem bound_latest {ds : List δ} (hall : ∀ d, d ∈ ds) (hcut : w.CleanCut t T) : Bound (latest w ds) t T := by
  have hhas : ∀ k, latest w ds k ≠ ⊥ → ∃ p, w.Has k p ∧ latest w ds k = (p.pos : WithBot Pos) := by
    intro k hne
    have hattained : latest w ds k = docRank w.doc k ∨ ∃ d ∈ ds, latest w ds k = rank (w.watermarks d) k := latest_attained
    rcases hattained with heq | ⟨d, -, heq⟩
    · rw [heq, docRank] at hne
      cases hr : fetchRemote w.doc with
      | none =>
        rw [hr, Option.elim_none] at hne
        exact absurd rfl hne
      | some r =>
        rw [hr, Option.elim_some] at hne
        obtain ⟨p, hp⟩ := JsMap.mem_keys.1 (mem_keys_iff_rank.2 hne)
        exact ⟨p, .inr ⟨r, hr, hp⟩, by rw [heq, docRank, hr, Option.elim_some, rank_of_some hp]⟩
    · rw [heq] at hne
      obtain ⟨p, hp⟩ := JsMap.mem_keys.1 (mem_keys_iff_rank.2 hne)
      exact ⟨p, .inl ⟨d, hp⟩, by rw [heq, rank_of_some hp]⟩
  have hle : ∀ k p, w.Has k p → (p.pos : WithBot Pos) ≤ latest w ds k := by
    rintro k p (⟨d, hp⟩ | ⟨r, hr, hp⟩)
    · exact rank_of_some hp ▸ rank_le_latest (hall d)
    · have hdoc : docRank w.doc k = (p.pos : WithBot Pos) := by
        rw [docRank, Option.mem_def.1 hr, Option.elim_some, rank_of_some hp]
      exact hdoc ▸ docRank_le_latest
  refine ⟨hcut.card, fun k => ?_, hcut.rest.imp_right fun hrest k hne => ?_⟩
  · rw [hcut.mem]
    constructor
    · rintro ⟨p, hp, ht⟩
      exact (threshold_le.2 ht).trans (hle k p hp)
    · intro hthreshold
      have hne : latest w ds k ≠ ⊥ := fun hbot => absurd (le_bot_iff.1 (hbot ▸ hthreshold)) WithBot.coe_ne_bot
      obtain ⟨p, hp, heq⟩ := hhas k hne
      exact ⟨p, hp, threshold_le.1 (heq ▸ hthreshold)⟩
  · obtain ⟨p, hp, -⟩ := hhas k hne
    exact hrest k p hp

/-- **After every device has had two rounds, in any order and with any others between them, every
device holds the document and none publishes**, if the cut was clean. -/
theorem settles (hwell : ∀ d, WellFormed (w.watermarks d)) (hcut : w.CleanCut t T) {ds₁ ds₂ ds₃ : List δ} (h₁ : ∀ d, d ∈ ds₁)
    (h₂ : ∀ d, d ∈ ds₂) : (w.rounds (ds₁ ++ ds₂ ++ ds₃)).Settled := by
  have hU := bound_latest h₁ hcut
  have hbelow : Below (latest w ds₁) w := ⟨hwell, fun d k => rank_le_latest (h₁ d), fun k => docRank_le_latest⟩
  have hdoc : ∀ k ∈ T, docRank (w.rounds ds₁).doc k = latest w ds₁ k := by
    intro k hk
    refine doc_rounds hU hk hbelow ?_
    have hattained : latest w ds₁ k = docRank w.doc k ∨ ∃ d ∈ ds₁, latest w ds₁ k = rank (w.watermarks d) k := latest_attained
    rcases hattained with heq | ⟨d, hd, heq⟩
    · exact .inl heq.symm
    · exact .inr ⟨d, hd, heq.symm⟩
  have hsplit : w.rounds (ds₁ ++ ds₂ ++ ds₃) = (w.rounds ds₁).rounds (ds₂ ++ ds₃) := by
    rw [World.rounds, List.append_assoc, List.foldl_append]
    rfl
  rw [hsplit]
  refine settled_of_latest hU hbelow.rounds.rounds (fun d k hk => ?_) fun k hk => ?_
  · exact device_rounds hU hk hbelow.rounds (.inr ⟨hdoc k hk, List.mem_append_left _ (h₂ d)⟩)
  · exact doc_rounds hU hk hbelow.rounds (.inl (hdoc k hk))

end

/-- **The merge is commutative, associative and idempotent and lowers no read time, nothing is cut off
below the cap, and the devices converge in every order of rounds** where the threads that are cut off
were read before every thread that is kept. -/
theorem read_state_converges {δ : Type} [DecidableEq δ] (w : World δ) :
    (∀ a b c : ReadWatermarks, sameWatermarks (mergeWatermarks a b) (mergeWatermarks b a) = true ∧
      sameWatermarks (mergeWatermarks (mergeWatermarks a b) c) (mergeWatermarks a (mergeWatermarks b c)) = true ∧
      sameWatermarks (mergeWatermarks a a) a = true ∧
      ∀ k p, a.get? k = some p → ∃ q, (mergeWatermarks a b).get? k = some q ∧ p.at_ ≤ q.at_) ∧
    (∀ m : ReadWatermarks, WellFormed m → m.keys.length ≤ maxDmReadThreads → prunedForPublish m = m) ∧
    ((∀ d, WellFormed (w.watermarks d)) → (∃ t T, w.CleanCut t T) →
      ∀ ds₁ ds₂ ds₃ : List δ, (∀ d, d ∈ ds₁) → (∀ d, d ∈ ds₂) → (w.rounds (ds₁ ++ ds₂ ++ ds₃)).Settled) := by
  refine ⟨fun a b c => ⟨?_, ?_, ?_, fun k p hp => ?_⟩, fun m => prunedForPublish_of_le, ?_⟩
  · rw [sameWatermarks_iff]
    intro k
    rw [rank_mergeWatermarks, rank_mergeWatermarks, max_comm]
  · rw [sameWatermarks_iff]
    intro k
    rw [rank_mergeWatermarks, rank_mergeWatermarks, rank_mergeWatermarks, rank_mergeWatermarks, max_assoc]
  · rw [sameWatermarks_iff]
    intro k
    rw [rank_mergeWatermarks, max_self]
  · have hle : (p.pos : WithBot Pos) ≤ rank (mergeWatermarks a b) k := by
      rw [rank_mergeWatermarks, rank_of_some hp]
      exact le_max_left _ _
    have hmem : k ∈ (mergeWatermarks a b).keys :=
      mem_keys_iff_rank.2 fun hbot => absurd (le_bot_iff.1 (hbot ▸ hle)) WithBot.coe_ne_bot
    obtain ⟨q, hq⟩ := JsMap.mem_keys.1 hmem
    rw [rank_of_some hq] at hle
    have hat : threshold p.at_ ≤ (q.pos : WithBot Pos) := (threshold_le.2 le_rfl).trans hle
    exact ⟨q, hq, threshold_le.1 hat⟩
  · rintro hwell ⟨t, T, hcut⟩ ds₁ ds₂ ds₃ h₁ h₂
    exact settles hwell hcut h₁ h₂

/-! ## Threads of one second -/

namespace Small

/-- A peer for each number below 256. -/
def peer (i : Nat) : JsString := hexUnit (i / 16) :: hexUnit (i % 16) :: List.replicate 62 (codeUnit 48)

def position : DmPosition := ⟨0, List.replicate 64 (codeUnit 48)⟩

/-- The threads of some peers, all read in the same second. -/
def threads (peers : List JsString) (h : peers.Nodup) : ReadWatermarks :=
  ⟨peers.map fun k => (k, position), by rwa [List.map_map, show (Prod.fst ∘ fun k : JsString => (k, position)) = fun k => k from rfl, List.map_id']⟩

/-- One thread more than the cap allows. -/
def peers : List JsString := (List.range 201).map peer

theorem peer_inj {i j : Nat} (hi : i < 256) (hj : j < 256) (h : peer i = peer j) : i = j := by
  simp only [peer, List.cons.injEq] at h
  have hhigh := hexUnit_inj (by omega) (by omega) h.1
  have hlow := hexUnit_inj (by omega) (by omega) h.2.1
  omega

theorem nodup_peers : peers.Nodup := by
  refine List.nodup_range.map_on fun i hi j hj h => ?_
  rw [List.mem_range] at hi hj
  exact peer_inj (by omega) (by omega) h

theorem hex_peers : peers.all isHex32 = true := by decide +kernel

/-- Two devices came to know the same threads in opposite orders. -/
def device (d : Bool) : ReadWatermarks :=
  if d = true then threads peers nodup_peers else threads peers.reverse (List.nodup_reverse.2 nodup_peers)

def world : World Bool := ⟨device, none⟩

theorem get?_threads {l : List JsString} {h : l.Nodup} {k : JsString} : (threads l h).get? k = if k ∈ l then some position else none := by
  by_cases hk : k ∈ l
  · rw [if_pos hk]
    exact JsMap.get?_eq_some.2 (List.mem_map.2 ⟨k, hk, rfl⟩)
  · rw [if_neg hk]
    cases hget : (threads l h).get? k with
    | none => rfl
    | some p =>
      obtain ⟨x, hx, heq⟩ := List.mem_map.1 (JsMap.get?_eq_some.1 hget)
      exact absurd ((Prod.mk.inj heq).1 ▸ hx) hk

theorem keys_threads {l : List JsString} {h : l.Nodup} : (threads l h).keys = l := by
  simp [JsMap.keys, threads, Function.comp_def]

theorem get?_device {d : Bool} {k : JsString} : (device d).get? k = if k ∈ peers then some position else none := by
  cases d
  · simp [device, get?_threads]
  · simp [device, get?_threads]

theorem wellFormed_device (d : Bool) : WellFormed (device d) := by
  intro k p hp
  rw [get?_device] at hp
  by_cases hk : k ∈ peers
  · rw [if_pos hk] at hp
    have hhex := List.all_eq_true.1 hex_peers k hk
    rw [wellFormed, hhex, ← Option.some.inj hp]
    show (true && isHex32 position.id && decide (0 ≤ position.at_)) = true
    decide
  · rw [if_neg hk] at hp
    exact nomatch hp

theorem byTime_device {d : Bool} : byTime (device d) = (device d).keys := by
  refine List.mergeSort_of_pairwise ?_
  refine List.Pairwise.imp (R := fun _ _ => True) ?_ (List.pairwise_of_forall fun _ _ => trivial)
  intro a b _
  have hat : ∀ x, readAt (device d) x = 0 := by
    intro x
    rw [readAt, get?_device]
    by_cases hx : x ∈ peers
    · rw [if_pos hx]
      rfl
    · rw [if_neg hx]
      rfl
  rw [hat, hat]
  decide

theorem length_device {d : Bool} : ¬(device d).keys.length ≤ maxDmReadThreads := by
  have hlen : peers.length = 201 := by simp [peers]
  cases d
  · rw [show device false = threads peers.reverse (List.nodup_reverse.2 nodup_peers) from rfl, keys_threads, List.length_reverse, hlen]
    decide
  · rw [show device true = threads peers nodup_peers from rfl, keys_threads, hlen]
    decide

/-- The last peer of the one is the first of the other, and only the other publishes it. -/
theorem pruned_differ : sameWatermarks (prunedForPublish (device true)) (prunedForPublish (device false)) = false := by
  rw [Bool.eq_false_iff]
  intro hsame
  have hget := get?_eq_of_rank (sameWatermarks_iff.1 hsame (peer 200))
  have htrue : (prunedForPublish (device true)).get? (peer 200) = none := by
    rw [get?_prunedForPublish (wellFormed_device true) length_device, byTime_device, if_neg]
    rw [show device true = threads peers nodup_peers from rfl, keys_threads]
    decide +kernel
  have hfalse : (prunedForPublish (device false)).get? (peer 200) = some position := by
    rw [get?_prunedForPublish (wellFormed_device false) length_device, byTime_device, if_pos, get?_device, if_pos]
    · exact List.mem_map.2 ⟨200, List.mem_range.2 (by decide), rfl⟩
    · rw [show device false = threads peers.reverse (List.nodup_reverse.2 nodup_peers) from rfl, keys_threads]
      decide +kernel
  rw [htrue, hfalse] at hget
  exact nomatch hget

/-- What every round keeps: both devices have what they had, and the document has nothing else. -/
structure Kept (w : World Bool) : Prop where
  watermarks : w.watermarks = device
  doc : ∀ k, docRank w.doc k ≤ rank (device true) k

theorem rank_device {d : Bool} {k : JsString} : rank (device d) k = rank (device true) k := by
  rw [rank, rank, get?_device, get?_device]

theorem Kept.round {w : World Bool} (h : Kept w) (d : Bool) : Kept (w.round d) := by
  have hrank : ∀ k, rank (reconcile (device d) w.doc).1 k = rank (device d) k := by
    intro k
    rw [rank_reconcile, rank_device]
    exact max_eq_left (h.doc k)
  have hsame : (reconcile (device d) w.doc).1 = device d := by
    rw [reconcile_fst] at hrank ⊢
    cases hr : fetchRemote w.doc with
    | none => rfl
    | some r =>
      rw [hr, Option.elim_some] at hrank
      have hmerged : sameWatermarks (mergeWatermarks (device d) r) (device d) = true := by
        rw [sameWatermarks_iff]
        intro k
        rw [rank_mergeWatermarks, ← rank_mergeRemoteWatermarks, hrank]
      rw [Option.elim_some, mergeRemoteWatermarks, if_pos hmerged]
  refine ⟨?_, fun k => ?_⟩
  · funext e
    rw [watermarks_round, h.watermarks]
    by_cases he : e = d
    · rw [if_pos he, hsame, he]
    · rw [if_neg he]
  · have hwell : WellFormed (w.watermarks d) := h.watermarks ▸ wellFormed_device d
    rw [World.round, docRank_round hwell, h.watermarks, hsame]
    rcases rank_prunedForPublish_or (k := k) (wellFormed_device d) with heq | hbot
    · rw [heq, rank_device]
    · rw [hbot]
      exact bot_le

theorem kept_rounds {w : World Bool} (h : Kept w) : ∀ ds, Kept (w.rounds ds) := by
  intro ds
  induction ds generalizing w with
  | nil => exact h
  | cons d ds ih => exact ih (h.round d)

/-- One thread on one device. -/
def one : World Bool := ⟨fun d => if d = true then threads [peer 0] (List.nodup_singleton _) else JsMap.empty, none⟩

theorem has_one {k : JsString} {p : DmPosition} : one.Has k p ↔ k = peer 0 ∧ p = position := by
  simp only [World.Has, one, fetchRemote, Option.filter_none, Option.not_mem_none, false_and, exists_false, or_false, Bool.exists_bool]
  simp only [Bool.false_eq_true, if_false, if_true, JsMap.get?_empty, get?_threads, List.mem_singleton]
  by_cases hk : k = peer 0
  · simp [hk, eq_comm]
  · simp [hk]

theorem wellFormed_one (d : Bool) : WellFormed (one.watermarks d) := by
  intro k p hp
  obtain ⟨rfl, rfl⟩ := has_one.1 (.inl ⟨d, hp⟩)
  decide

theorem cleanCut_one : one.CleanCut 0 {peer 0} where
  card := by decide
  mem k := by
    rw [Finset.mem_singleton]
    constructor
    · rintro rfl
      exact ⟨position, has_one.2 ⟨rfl, rfl⟩, by decide⟩
    · rintro ⟨p, hp, -⟩
      exact (has_one.1 hp).1
  rest := .inr fun k p hp => Finset.mem_singleton.2 (has_one.1 hp).1

end Small

/-- Two devices, of which one has read a thread, hold one document after two rounds each. -/
theorem read_state_converges_one : (Small.one.rounds ([true, false] ++ [true, false] ++ [])).Settled :=
  (read_state_converges Small.one).2.2 Small.wellFormed_one ⟨0, _, Small.cleanCut_one⟩ [true, false] [true, false] []
    (by decide) (by decide)

/-- Two devices that have read the same 201 threads in one second, and came to know them in opposite
orders, never hold one document. -/
theorem never_settles : ¬∃ ds, (Small.world.rounds ds).Settled := by
  rintro ⟨ds, hsettled⟩
  have hstart : Small.Kept Small.world := ⟨rfl, fun _ => bot_le⟩
  have hsame := hsettled.same true false
  rw [(Small.kept_rounds hstart ds).watermarks, Small.pruned_differ] at hsame
  exact absurd hsame Bool.false_ne_true

end Nostrautica.DmReadState
