/-
Who redeemed which invite: `observeUsed` and `mergeUsage` of
`app/src/lib/events/invite-export.ts`. That a proof is valid and the hash of a key are
parameters.

What the invite report depends on: which record of an invite came first into it, where
the earliest ones are of two people or a name is missing (`gather_independent_iff`).
-/
import Nostrautica.Js.Map
import Nostrautica.Js.Text

namespace Nostrautica.InviteUsage

open Js

/-- `UsedRecord`. -/
structure UsedRecord where
  at_ : Int
  pubkey : JsString
  name : Option JsString
  deriving DecidableEq

/-- `InviteUsage`. -/
abbrev Usage := JsMap JsString UsedRecord

/-- `UsageObservation`, with a proof of type `P`. -/
structure UsageObservation (P : Type) where
  attendeePubkey : JsString
  invite : Option P
  rumorCreatedAt : Int
  name : Option JsString

/-- `isInviteValid(proof, published, coordinate, attendee)` of the coordinate at hand,
and `inviteHash(proof.invitePubkey)`. -/
structure Invites (P : Type) where
  isInviteValid : P → JsString → Bool
  inviteHash : P → JsString

/-- The record is before the one that is kept. -/
def UsedRecord.earlier (rec prev : UsedRecord) : Bool :=
  rec.at_ < prev.at_ || (rec.at_ = prev.at_ && rec.pubkey < prev.pubkey)

/-- One turn of the loop of `observeUsed`. -/
def observe {P : Type} (d : Invites P) (out : Usage) (req : UsageObservation P) : Usage :=
  match req.invite with
  | none => out
  | some proof =>
    if d.isInviteValid proof req.attendeePubkey then
      let h := d.inviteHash proof
      let rec_ : UsedRecord := ⟨req.rumorCreatedAt, req.attendeePubkey, req.name.filter (· ≠ [])⟩
      if (out.get? h).all rec_.earlier then out.set h rec_ else out
    else out

/-- `observeUsed(requests, published, coordinate)`. -/
def observeUsed {P : Type} (d : Invites P) (requests : List (UsageObservation P)) : Usage := requests.foldl (observe d) JsMap.empty

/-- What `mergeUsage` makes of a record and one that is there. -/
def mergeRecord (old rec_ : UsedRecord) : UsedRecord :=
  let winner := if rec_.at_ < old.at_ then rec_ else old
  { winner with name := winner.name <|> old.name <|> rec_.name }

/-- One turn of the loop of `mergeUsage`. -/
def mergeEntry (out : Usage) (p : JsString × UsedRecord) : Usage :=
  match out.get? p.1 with
  | none => out.set p.1 p.2
  | some old => out.set p.1 (mergeRecord old p.2)

/-- `mergeUsage(prev, next)`. -/
def mergeUsage (prev : Option Usage) (next : Usage) : Usage := next.entries.foldl mergeEntry (prev.getD JsMap.empty)

/-- The report after successive calls. -/
def gather (batches : List Usage) : Usage := batches.foldl (fun out next => mergeUsage (some out) next) JsMap.empty

/-! ## What a report depends on -/

variable {l l' : List UsedRecord} {r m s : UsedRecord} {h : JsString}

/-! ## One invite -/

/-- A record of an invite is added. -/
def add (old : Option UsedRecord) (rec_ : UsedRecord) : Option UsedRecord :=
  match old with
  | none => some rec_
  | some old => some (mergeRecord old rec_)

/-- What the records of one invite come to, in their order. -/
def summary (l : List UsedRecord) : Option UsedRecord := l.foldl add none

/-- Nobody redeemed the invite earlier. -/
def Earliest (l : List UsedRecord) (m : UsedRecord) : Prop := m ∈ l ∧ ∀ r ∈ l, m.at_ ≤ r.at_

/-- What is kept, after records none of which is earlier. -/
theorem foldl_add_of_le (hle : ∀ r ∈ l, s.at_ ≤ r.at_) :
    ∃ n, l.foldl add (some s) = some { s with name := n } ∧ n = (s.name <|> l.findSome? (·.name)) := by
  induction l generalizing s with
  | nil => exact ⟨s.name, rfl, by cases s.name <;> rfl⟩
  | cons r l ih =>
    have hr : ¬ r.at_ < s.at_ := not_lt.2 (hle r List.mem_cons_self)
    have hmerge : mergeRecord s r = { s with name := s.name <|> r.name } := by
      obtain ⟨t, p, n⟩ := s
      unfold mergeRecord
      simp only [if_neg hr]
      cases n <;> rfl
    obtain ⟨n, hn, hname⟩ := ih (s := { s with name := s.name <|> r.name }) fun q hq => hle q (List.mem_cons_of_mem r hq)
    refine ⟨n, ?_, ?_⟩
    · rw [List.foldl_cons, add, hmerge, hn]
    · rw [hname, List.findSome?_cons]
      cases s.name <;> cases r.name <;> rfl

/-- The records up to the first of the earliest, that one, and the others. -/
theorem exists_first (hl : l ≠ []) : ∃ before m after, l = before ++ m :: after ∧ (∀ r ∈ before, m.at_ < r.at_) ∧ ∀ r ∈ after, m.at_ ≤ r.at_ := by
  induction l with
  | nil => exact absurd rfl hl
  | cons r l ih =>
    by_cases hnil : l = []
    · subst hnil
      exact ⟨[], r, [], rfl, fun _ h => absurd h List.not_mem_nil, fun _ h => absurd h List.not_mem_nil⟩
    · obtain ⟨before, m, after, rfl, hbefore, hafter⟩ := ih hnil
      by_cases hr : r.at_ ≤ m.at_
      · refine ⟨[], r, before ++ m :: after, rfl, fun _ h => absurd h List.not_mem_nil, fun q hq => ?_⟩
        rcases List.mem_append.1 hq with hq | hq
        · exact hr.trans (hbefore q hq).le
        · rcases List.mem_cons.1 hq with rfl | hq
          · exact hr
          · exact hr.trans (hafter q hq)
      · refine ⟨r :: before, m, after, rfl, fun q hq => ?_, hafter⟩
        rcases List.mem_cons.1 hq with rfl | hq
        · exact not_le.1 hr
        · exact hbefore q hq

theorem summary_ne_none (hl : l ≠ []) : ∃ s, summary l = some s ∧ (∃ q ∈ l, s.at_ = q.at_) ∧ s.name.isSome = l.any (·.name.isSome) ∧
    ∀ n, s.name = some n → ∃ q ∈ l, q.name = some n := by
  induction l using List.reverseRecOn with
  | nil => exact absurd rfl hl
  | append_singleton l r ih =>
    unfold summary
    rw [List.foldl_append, List.foldl_cons, List.foldl_nil]
    by_cases hnil : l = []
    · subst hnil
      exact ⟨r, rfl, ⟨r, List.mem_singleton_self r, rfl⟩, by simp, fun n hn => ⟨r, List.mem_singleton_self r, hn⟩⟩
    · obtain ⟨s, hs, ⟨q, hq, hat⟩, hsome, hname⟩ := ih hnil
      unfold summary at hs
      rw [hs]
      refine ⟨mergeRecord s r, rfl, ?_, ?_, ?_⟩
      · unfold mergeRecord
        split
        · exact ⟨r, by simp, rfl⟩
        · exact ⟨q, List.mem_append_left _ hq, hat⟩
      · rw [List.any_append, ← hsome]
        unfold mergeRecord
        split <;> cases hs' : s.name <;> cases hr' : r.name <;> simp [hs', hr']
      · intro n hn
        have hor : s.name = some n ∨ r.name = some n := by
          unfold mergeRecord at hn
          split at hn <;> cases hs' : s.name <;> cases hr' : r.name <;> simp_all
        rcases hor with h | h
        · obtain ⟨p, hp, hpn⟩ := hname n h
          exact ⟨p, List.mem_append_left _ hp, hpn⟩
        · exact ⟨r, by simp, h⟩

/-- What the first of the earliest says is kept. -/
theorem summary_eq {before after : List UsedRecord} (hbefore : ∀ r ∈ before, m.at_ < r.at_) (hafter : ∀ r ∈ after, m.at_ ≤ r.at_) :
    ∃ n, summary (before ++ m :: after) = some { m with name := n } ∧ ∀ k, m.name = some k → n = some k := by
  unfold summary
  rw [List.foldl_append, List.foldl_cons]
  by_cases hnil : before = []
  · subst hnil
    obtain ⟨n, hn, hname⟩ := foldl_add_of_le hafter
    refine ⟨n, hn, fun k hk => ?_⟩
    rw [hname, hk]
    rfl
  · obtain ⟨s, hs, ⟨q, hq, hat⟩, -⟩ := summary_ne_none hnil
    unfold summary at hs
    have hlt : m.at_ < s.at_ := hat ▸ hbefore q hq
    have hmerge : mergeRecord s m = { m with name := m.name <|> s.name } := by
      unfold mergeRecord
      simp only [if_pos hlt]
      cases m.name <;> cases s.name <;> rfl
    rw [hs, add, hmerge]
    obtain ⟨n, hn, hname⟩ := foldl_add_of_le (s := { m with name := m.name <|> s.name }) hafter
    refine ⟨n, hn, fun k hk => ?_⟩
    rw [hname, hk]
    rfl

/-- The redemption that a report should name: the earliest, the lowest pubkey of
these, and a name of that person. -/
structure Right (l : List UsedRecord) (s : UsedRecord) : Prop where
  earliest : ∀ r ∈ l, s.at_ ≤ r.at_
  redeemed : ∃ r ∈ l, r.at_ = s.at_ ∧ r.pubkey = s.pubkey
  lowest : ∀ r ∈ l, r.at_ = s.at_ → ¬ r.pubkey < s.pubkey
  named : ∀ n, s.name = some n → ∃ r ∈ l, r.pubkey = s.pubkey ∧ r.name = some n

/-- The earliest redemptions are one person's, and either all of them have the same
name, or all names of the invite's records are one and that person's. -/
structure Clear (l : List UsedRecord) : Prop where
  person : ∀ r m, Earliest l r → Earliest l m → r.pubkey = m.pubkey
  name : (∃ n, ∀ r, Earliest l r → r.name = some n) ∨
    ∀ r ∈ l, ∀ n, r.name = some n → (∀ q ∈ l, q.name = none ∨ q.name = some n) ∧
      ∀ m, Earliest l m → ∃ q ∈ l, q.pubkey = m.pubkey ∧ q.name = some n

/-- The report of one invite is right and does not depend on the order. -/
def Settled (l : List UsedRecord) : Prop :=
  ∀ l', l'.Perm l → summary l' = summary l ∧ ∀ s, summary l' = some s → Right l s

theorem Earliest.perm (h : Earliest l m) (hp : l'.Perm l) : Earliest l' m :=
  ⟨hp.mem_iff.2 h.1, fun r hr => h.2 r (hp.mem_iff.1 hr)⟩

/-- Under a clear invite the summary is known: the time, the person, and the name. -/
theorem summary_of_clear (hc : Clear l) (hm : Earliest l m) :
    ∃ n, summary l = some { m with name := n } ∧
      (∀ k, (∀ r, Earliest l r → r.name = some k) → n = some k) ∧ n.isSome = l.any (·.name.isSome) ∧
      ∀ k, n = some k → ∃ q ∈ l, q.name = some k := by
  have hne : l ≠ [] := List.ne_nil_of_mem hm.1
  obtain ⟨before, f, after, rfl, hbefore, hafter⟩ := exists_first hne
  have hf : Earliest (before ++ f :: after) f := by
    refine ⟨by simp, fun r hr => ?_⟩
    rcases List.mem_append.1 hr with hr | hr
    · exact (hbefore r hr).le
    · rcases List.mem_cons.1 hr with rfl | hr
      · exact le_rfl
      · exact hafter r hr
  obtain ⟨n, hn, hname⟩ := summary_eq hbefore hafter
  obtain ⟨s, hs, -, hsome, hfrom⟩ := summary_ne_none hne
  cases Option.some.inj (hn.symm.trans hs)
  have hat : f.at_ = m.at_ := le_antisymm (hf.2 m hm.1) (hm.2 f hf.1)
  have hpub := hc.person f m hf hm
  refine ⟨n, ?_, fun k hk => hname k (hk f hf), hsome, hfrom⟩
  rw [hn, hat, hpub]

theorem exists_earliest (hl : l ≠ []) : ∃ m, Earliest l m := by
  obtain ⟨before, f, after, rfl, hbefore, hafter⟩ := exists_first hl
  refine ⟨f, by simp, fun r hr => ?_⟩
  rcases List.mem_append.1 hr with hr | hr
  · exact (hbefore r hr).le
  · rcases List.mem_cons.1 hr with rfl | hr
    · exact le_rfl
    · exact hafter r hr

theorem Clear.perm (hc : Clear l) (hp : l'.Perm l) : Clear l' where
  person r m hr hm := hc.person r m (hr.perm hp.symm) (hm.perm hp.symm)
  name := by
    rcases hc.name with ⟨n, hn⟩ | hall
    · exact .inl ⟨n, fun r hr => hn r (hr.perm hp.symm)⟩
    · refine .inr fun r hr n hn => ?_
      obtain ⟨hone, hperson⟩ := hall r (hp.mem_iff.1 hr) n hn
      refine ⟨fun q hq => hone q (hp.mem_iff.1 hq), fun m hm => ?_⟩
      obtain ⟨q, hq, he⟩ := hperson m (hm.perm hp.symm)
      exact ⟨q, hp.mem_iff.2 hq, he⟩

theorem Clear.settled (hc : Clear l) : Settled l := by
  intro l' hp
  by_cases hnil : l = []
  · subst hnil
    rw [List.perm_nil.1 hp]
    exact ⟨rfl, fun s hs => by cases hs⟩
  obtain ⟨m, hm⟩ := exists_earliest hnil
  have hc' := hc.perm hp
  have hm' := hm.perm hp
  obtain ⟨n, hn, hsame, hsome, hfrom⟩ := summary_of_clear hc hm
  obtain ⟨n', hn', hsame', hsome', hfrom'⟩ := summary_of_clear hc' hm'
  have hany : l'.any (·.name.isSome) = l.any (·.name.isSome) := hp.any_eq
  have hnames : n' = n := by
    rcases hc.name with ⟨k, hk⟩ | hall
    · rw [hsame k hk, hsame' k fun r hr => hk r (hr.perm hp.symm)]
    · have heq : n'.isSome = n.isSome := by rw [hsome', hany, hsome]
      cases n with
      | none => exact Option.not_isSome_iff_eq_none.1 (by rw [heq]; exact Bool.false_ne_true)
      | some k =>
        obtain ⟨k', rfl⟩ := Option.isSome_iff_exists.1 heq
        obtain ⟨q, hq, hqn⟩ := hfrom k rfl
        obtain ⟨q', hq', hqn'⟩ := hfrom' k' rfl
        rcases (hall q hq k hqn).1 q' (hp.mem_iff.1 hq') with h | h
        · rw [hqn'] at h
          cases h
        · exact hqn'.symm.trans h
  refine ⟨by rw [hn, hn', hnames], fun s hs => ?_⟩
  rw [hn', hnames] at hs
  cases hs
  refine ⟨hm.2, ⟨m, hm.1, rfl, rfl⟩, fun r hr hat => ?_, fun k hk => ?_⟩
  · have hr' : Earliest l r := ⟨hr, fun q hq => (le_of_eq hat).trans (hm.2 q hq)⟩
    rw [hc.person r m hr' hm]
    exact lt_irrefl _
  · have hk : n = some k := hk
    rcases hc.name with ⟨j, hj⟩ | hall
    · rw [hsame j hj] at hk
      exact ⟨m, hm.1, rfl, hk ▸ hj m hm⟩
    · obtain ⟨q, hq, hqn⟩ := hfrom k hk
      exact (hall q hq k hqn).2 m hm

/-- The earliest first, and what it says. -/
theorem summary_cons_of_earliest (hm : Earliest (m :: l) m) :
    ∃ n, summary (m :: l) = some { m with name := n } ∧ n = (m.name <|> l.findSome? (·.name)) :=
  foldl_add_of_le fun r hr => hm.2 r (List.mem_cons_of_mem m hr)

/-- A record in front of the others. -/
theorem exists_perm_cons (hm : m ∈ l) : ∃ rest, (m :: rest).Perm l :=
  ⟨l.erase m, (List.perm_cons_erase hm).symm⟩

theorem Settled.clear (hs : Settled l) : Clear l := by
  have hfront : ∀ m, Earliest l m → ∃ n, summary l = some { m with name := n } ∧ ∀ k, m.name = some k → n = some k := by
    intro m hm
    obtain ⟨rest, hp⟩ := exists_perm_cons hm.1
    obtain ⟨n, hn, hname⟩ := summary_cons_of_earliest (hm.perm hp)
    refine ⟨n, (hs _ hp).1.symm.trans hn, fun k hk => ?_⟩
    rw [hname, hk]
    rfl
  have hperson : ∀ r m, Earliest l r → Earliest l m → r.pubkey = m.pubkey := by
    intro r m hr hm
    obtain ⟨n, hn, -⟩ := hfront r hr
    obtain ⟨n', hn', -⟩ := hfront m hm
    have heq : ({ r with name := n } : UsedRecord) = { m with name := n' } := Option.some.inj (hn.symm.trans hn')
    exact (UsedRecord.mk.inj heq).2.1
  refine ⟨hperson, ?_⟩
  by_cases hnameless : ∃ e, Earliest l e ∧ e.name = none
  · obtain ⟨e, he, hnone⟩ := hnameless
    -- a named record right after the nameless one gives the invite its name
    have hnamed : ∀ r ∈ l, ∀ k, r.name = some k → summary l = some { e with name := some k } := by
      intro r hr k hk
      obtain ⟨rest, hp⟩ := exists_perm_cons he.1
      have hne : r ≠ e := fun h => by rw [h, hnone] at hk; cases hk
      have hr' : r ∈ rest := (List.mem_cons.1 (hp.mem_iff.2 hr)).resolve_left hne
      obtain ⟨rest', hp'⟩ := exists_perm_cons hr'
      have hall : (e :: r :: rest').Perm l := (hp'.cons e).trans hp
      obtain ⟨n, hn, hname⟩ := summary_cons_of_earliest (he.perm hall)
      rw [← (hs _ hall).1, hn, hname, hnone, List.findSome?_cons, hk]
      rfl
    refine .inr fun r hr k hk => ⟨fun q hq => ?_, fun m hm => ?_⟩
    · cases hqn : q.name with
      | none => exact .inl rfl
      | some j =>
        have heq := (hnamed r hr k hk).symm.trans (hnamed q hq j hqn)
        exact .inr (congrArg UsedRecord.name (Option.some.inj heq)).symm
    · obtain ⟨q, hq, hpub, hqn⟩ := ((hs l (List.Perm.refl l)).2 _ (hnamed r hr k hk)).named k rfl
      exact ⟨q, hq, hpub.trans (hperson e m he hm), hqn⟩
  · by_cases hnil : l = []
    · subst hnil
      exact .inr fun r hr => absurd hr List.not_mem_nil
    obtain ⟨m, hm⟩ := exists_earliest hnil
    have hsome : ∀ r, Earliest l r → ∃ k, r.name = some k ∧ ∃ p : UsedRecord, summary l = some { p with name := some k } := by
      intro r hr
      cases hrn : r.name with
      | none => exact absurd ⟨r, hr, hrn⟩ hnameless
      | some k =>
        obtain ⟨n, hn, hname⟩ := hfront r hr
        exact ⟨k, rfl, r, by rw [hn, hname k hrn]⟩
    obtain ⟨n, -, p, hp⟩ := hsome m hm
    refine .inl ⟨n, fun r hr => ?_⟩
    obtain ⟨k, hk, p', hp'⟩ := hsome r hr
    have heq : some n = some k := congrArg UsedRecord.name (Option.some.inj (hp.symm.trans hp'))
    rw [hk, heq]

theorem settled_iff_clear : Settled l ↔ Clear l := ⟨Settled.clear, Clear.settled⟩

/-! ## The report -/

/-- The records of an invite. -/
def recordsOf (h : JsString) (L : List (JsString × UsedRecord)) : List UsedRecord := (L.filter (·.1 = h)).map (·.2)

theorem recordsOf_cons {p : JsString × UsedRecord} {L : List (JsString × UsedRecord)} :
    recordsOf h (p :: L) = if p.1 = h then p.2 :: recordsOf h L else recordsOf h L := by
  unfold recordsOf
  rw [List.filter_cons]
  by_cases hk : p.1 = h <;> simp [hk]

theorem recordsOf_append {L L' : List (JsString × UsedRecord)} : recordsOf h (L ++ L') = recordsOf h L ++ recordsOf h L' := by
  unfold recordsOf
  rw [List.filter_append, List.map_append]

theorem recordsOf_perm {L L' : List (JsString × UsedRecord)} (hp : L'.Perm L) : (recordsOf h L').Perm (recordsOf h L) :=
  (hp.filter _).map _

theorem mem_recordsOf {L : List (JsString × UsedRecord)} : r ∈ recordsOf h L ↔ (h, r) ∈ L := by
  unfold recordsOf
  rw [List.mem_map]
  constructor
  · rintro ⟨⟨k, q⟩, hq, rfl⟩
    obtain ⟨hmem, hk⟩ := List.mem_filter.1 hq
    rw [← of_decide_eq_true hk]
    exact hmem
  · intro hr
    exact ⟨(h, r), List.mem_filter.2 ⟨hr, decide_eq_true rfl⟩, rfl⟩

theorem get?_foldl_mergeEntry {L : List (JsString × UsedRecord)} {out : Usage} :
    (L.foldl mergeEntry out).get? h = (recordsOf h L).foldl add (out.get? h) := by
  induction L generalizing out with
  | nil => rfl
  | cons p L ih =>
    have hget : (mergeEntry out p).get? h = if p.1 = h then add (out.get? h) p.2 else out.get? h := by
      unfold mergeEntry
      by_cases hk : p.1 = h
      · subst hk
        cases hold : out.get? p.1 <;> simp [JsMap.get?_set, add]
      · cases hold : out.get? p.1 <;> simp [JsMap.get?_set, hk]
    rw [List.foldl_cons, ih, hget, recordsOf_cons]
    by_cases hk : p.1 = h <;> simp [hk]

theorem foldl_mergeUsage {batches : List Usage} {out : Usage} :
    batches.foldl (fun out next => mergeUsage (some out) next) out = (batches.flatMap (·.entries)).foldl mergeEntry out := by
  induction batches generalizing out with
  | nil => rfl
  | cons b batches ih =>
    rw [List.foldl_cons, ih, List.flatMap_cons, List.foldl_append]
    rfl

theorem get?_gather {batches : List Usage} : (gather batches).get? h = summary (recordsOf h (batches.flatMap (·.entries))) := by
  unfold gather
  rw [foldl_mergeUsage, get?_foldl_mergeEntry]
  rfl

/-- A record that is observed by itself. -/
def single (p : JsString × UsedRecord) : Usage := JsMap.empty.set p.1 p.2

theorem flatMap_single {L : List (JsString × UsedRecord)} : (L.map single).flatMap (·.entries) = L := by
  induction L with
  | nil => rfl
  | cons p L ih =>
    rw [List.map_cons, List.flatMap_cons, ih]
    rfl

/-- The report of any split, and that it is the same for each of them. -/
theorem gather_split_iff (L : List (JsString × UsedRecord)) :
    (∀ h, Clear (recordsOf h L)) ↔
      ∀ batches batches' : List Usage, (batches.flatMap (·.entries)).Perm L → (batches'.flatMap (·.entries)).Perm L →
        ∀ h, (gather batches).get? h = (gather batches').get? h ∧ ∀ s, (gather batches).get? h = some s → Right (recordsOf h L) s := by
  constructor
  · intro hc batches batches' hp hp' h
    have hs := (hc h).settled _ (recordsOf_perm (h := h) hp)
    have hs' := (hc h).settled _ (recordsOf_perm (h := h) hp')
    rw [get?_gather, get?_gather]
    exact ⟨hs.1.trans hs'.1.symm, hs.2⟩
  · intro hall h
    refine Settled.clear fun l' hl' => ?_
    -- the records of the invite in the order at hand, and then all others
    have hord : ∃ L', L'.Perm L ∧ recordsOf h L' = l' := by
      refine ⟨l'.map (Prod.mk h) ++ L.filter (fun p => !decide (p.1 = h)), ?_, ?_⟩
      · have hmap : (l'.map (Prod.mk h)).Perm (L.filter (fun p => decide (p.1 = h))) := by
          refine (hl'.map _).trans (List.Perm.of_eq ?_)
          unfold recordsOf
          rw [List.map_map]
          refine (List.map_congr_left fun p hp => ?_).trans (List.map_id _)
          obtain ⟨k, q⟩ := p
          have hk : k = h := of_decide_eq_true (List.mem_filter.1 hp).2
          rw [← hk]
          rfl
        exact (hmap.append_right _).trans (List.filter_append_perm _ L)
      · have hothers : recordsOf h (L.filter (fun p => !decide (p.1 = h))) = [] := by
          refine List.eq_nil_iff_forall_not_mem.2 fun r hr => ?_
          have hmem := (List.mem_filter.1 (mem_recordsOf.1 hr)).2
          simp at hmem
        have hown : recordsOf h (l'.map (Prod.mk h)) = l' := by
          unfold recordsOf
          rw [List.filter_eq_self.2 (by simp), List.map_map]
          exact List.map_id l'
        rw [recordsOf_append, hothers, hown, List.append_nil]
    obtain ⟨L', hL', hrec⟩ := hord
    have hsplit := hall (L'.map single) (L.map single) (by rw [flatMap_single]; exact hL') (by rw [flatMap_single]) h
    rw [get?_gather, get?_gather, flatMap_single, flatMap_single, hrec] at hsplit
    exact hsplit

/-- A label that is used stays used. -/
theorem mergeUsage_isSome {prev next : Usage} (hused : (prev.get? h).isSome) : ((mergeUsage (some prev) next).get? h).isSome := by
  unfold mergeUsage
  rw [Option.getD_some, get?_foldl_mergeEntry]
  obtain ⟨s, hs⟩ := Option.isSome_iff_exists.1 hused
  rw [hs]
  clear hs
  induction recordsOf h next.entries generalizing s with
  | nil => rfl
  | cons r l ih => exact ih (mergeRecord s r)

/-! ## Observed requests -/

variable {P : Type} {d : Invites P}

/-- The record of a request with a valid invite. -/
def recordOf (d : Invites P) (req : UsageObservation P) : Option (JsString × UsedRecord) :=
  req.invite.bind fun proof =>
    if d.isInviteValid proof req.attendeePubkey then
      some (d.inviteHash proof, ⟨req.rumorCreatedAt, req.attendeePubkey, req.name.filter (· ≠ [])⟩)
    else none

/-- The redemption records of an invite in a list of requests. -/
def redemptions (d : Invites P) (h : JsString) (reqs : List (UsageObservation P)) : List UsedRecord := recordsOf h (reqs.filterMap (recordOf d))

/-- What `observeUsed` keeps of the records of one invite. -/
def best (old : Option UsedRecord) (rec_ : UsedRecord) : Option UsedRecord := if old.all rec_.earlier then some rec_ else old

/-- All of the earliest redemptions are one record, and if it has no name there is no
name at all. -/
structure Plain (l : List UsedRecord) : Prop where
  same : ∀ r m, Earliest l r → Earliest l m → r = m
  nameless : ∀ m, Earliest l m → m.name = none → ∀ r ∈ l, r.name = none

theorem redemptions_cons {q : UsageObservation P} {reqs : List (UsageObservation P)} (hq : recordOf d q = some (h, r)) :
    redemptions d h (q :: reqs) = r :: redemptions d h reqs := by
  unfold redemptions
  rw [List.filterMap_cons, hq, recordsOf_cons, if_pos rfl]

theorem redemptions_append (q : UsageObservation P) (reqs : List (UsageObservation P)) :
    redemptions d h (q :: reqs) = redemptions d h [q] ++ redemptions d h reqs := by
  unfold redemptions
  rw [← recordsOf_append, ← List.filterMap_append, List.singleton_append]

theorem redemptions_perm {reqs reqs' : List (UsageObservation P)} (hp : reqs'.Perm reqs) : (redemptions d h reqs').Perm (redemptions d h reqs) :=
  recordsOf_perm (hp.filterMap _)

theorem get?_foldl_observe {reqs : List (UsageObservation P)} {out : Usage} :
    (reqs.foldl (observe d) out).get? h = (redemptions d h reqs).foldl best (out.get? h) := by
  induction reqs generalizing out with
  | nil => rfl
  | cons q reqs ih =>
    have hobserve : (observe d out q).get? h = (redemptions d h [q]).foldl best (out.get? h) := by
      unfold observe redemptions
      rw [List.filterMap_cons]
      cases hi : q.invite with
      | none => simp [recordOf, hi, recordsOf]
      | some proof =>
        by_cases hv : d.isInviteValid proof q.attendeePubkey
        · by_cases hk : d.inviteHash proof = h
          · subst hk
            simp [recordOf, hi, hv, recordsOf, best, apply_ite (JsMap.get? · (d.inviteHash proof)), JsMap.get?_set]
          · simp [recordOf, hi, hv, recordsOf, hk, apply_ite (JsMap.get? · h), JsMap.get?_set]
        · simp [recordOf, hi, hv, recordsOf]
    rw [List.foldl_cons, ih, hobserve, redemptions_append q reqs, List.foldl_append]

theorem get?_observeUsed {reqs : List (UsageObservation P)} : (observeUsed d reqs).get? h = (redemptions d h reqs).foldl best none :=
  get?_foldl_observe

/-- One of the records is kept, none earlier than it. -/
theorem foldl_best (hl : l ≠ []) : ∃ x ∈ l, l.foldl best none = some x ∧ ∀ r ∈ l, x.at_ ≤ r.at_ := by
  induction l using List.reverseRecOn with
  | nil => exact absurd rfl hl
  | append_singleton l r ih =>
    rw [List.foldl_append, List.foldl_cons, List.foldl_nil]
    by_cases hnil : l = []
    · subst hnil
      exact ⟨r, List.mem_singleton_self r, rfl, fun q hq => by rw [List.mem_singleton.1 hq]⟩
    · obtain ⟨x, hx, hfold, hle⟩ := ih hnil
      rw [hfold]
      unfold best
      by_cases hr : r.earlier x
      · refine ⟨r, by simp, by simp [hr], fun q hq => ?_⟩
        have hrx : r.at_ ≤ x.at_ := by
          unfold UsedRecord.earlier at hr
          simp only [Bool.or_eq_true, Bool.and_eq_true, decide_eq_true_eq] at hr
          omega
        rcases List.mem_append.1 hq with hq | hq
        · exact hrx.trans (hle q hq)
        · rw [List.mem_singleton.1 hq]
      · refine ⟨x, List.mem_append_left _ hx, by simp [hr], fun q hq => ?_⟩
        have hxr : x.at_ ≤ r.at_ := by
          unfold UsedRecord.earlier at hr
          simp only [Bool.or_eq_true, Bool.and_eq_true, decide_eq_true_eq] at hr
          omega
        rcases List.mem_append.1 hq with hq | hq
        · exact hle q hq
        · rw [List.mem_singleton.1 hq]
          exact hxr

/-- The report after the requests have been looked at in batches. -/
def report (d : Invites P) (batches : List (List (UsageObservation P))) : Usage := gather (batches.map (observeUsed d))

theorem recordsOf_of_nodup {L : List (JsString × UsedRecord)} (hn : (L.map Prod.fst).Nodup) : recordsOf h L = (look h L).toList := by
  induction L with
  | nil => rfl
  | cons p L ih =>
    obtain ⟨k, r⟩ := p
    obtain ⟨hk, hn⟩ := List.nodup_cons.1 hn
    rw [recordsOf_cons, look, ih hn]
    by_cases he : k = h
    · subst he
      rw [if_pos rfl, if_pos rfl, look_eq_none.2 hk]
      rfl
    · rw [if_neg he, if_neg he]

theorem recordsOf_entries (m : Usage) : recordsOf h m.entries = (m.get? h).toList := recordsOf_of_nodup m.nodup

/-- The batches' best records of an invite. -/
theorem get?_report {batches : List (List (UsageObservation P))} :
    (report d batches).get? h = summary (batches.filterMap fun b => (redemptions d h b).foldl best none) := by
  unfold report
  rw [get?_gather]
  congr 1
  induction batches with
  | nil => rfl
  | cons b batches ih =>
    rw [List.map_cons, List.flatMap_cons, recordsOf_append, ih, recordsOf_entries, get?_observeUsed, List.filterMap_cons]
    cases (redemptions d h b).foldl best none <;> rfl

/-- A plain invite's earliest record is what any of its records with that one come to. -/
theorem Plain.summary_eq (hp : Plain l) (hm : Earliest l m) (hsub : l' ⊆ l) (hmem : m ∈ l') : summary l' = some m := by
  have hm' : Earliest l' m := ⟨hmem, fun r hr => hm.2 r (hsub hr)⟩
  have hback : ∀ r, Earliest l' r → r = m := fun r hr =>
    hp.same r m ⟨hsub hr.1, fun q hq => (hr.2 m hmem).trans (hm.2 q hq)⟩ hm
  cases hname : m.name with
  | some k =>
    have hc : Clear l' := ⟨fun r q hr hq => by rw [hback r hr, hback q hq], .inl ⟨k, fun r hr => by rw [hback r hr, hname]⟩⟩
    obtain ⟨n, hn, hsame, -⟩ := summary_of_clear hc hm'
    rw [hn, hsame k fun r hr => by rw [hback r hr, hname], ← hname]
  | none =>
    have hnone : ∀ r ∈ l', r.name = none := fun r hr => hp.nameless m hm hname r (hsub hr)
    have hc : Clear l' := ⟨fun r q hr hq => by rw [hback r hr, hback q hq], .inr fun r hr k hk => by rw [hnone r hr] at hk; cases hk⟩
    obtain ⟨n, hn, -, -, hfrom⟩ := summary_of_clear hc hm'
    cases n with
    | none => rw [hn, ← hname]
    | some k =>
      obtain ⟨q, hq, hqn⟩ := hfrom k rfl
      rw [hnone q hq] at hqn
      cases hqn

theorem Plain.right (hp : Plain l) (hm : Earliest l m) : Right l m where
  earliest := hm.2
  redeemed := ⟨m, hm.1, rfl, rfl⟩
  lowest r hr hat := by
    rw [hp.same r m ⟨hr, fun q hq => (le_of_eq hat).trans (hm.2 q hq)⟩ hm]
    exact lt_irrefl _
  named n hn := ⟨m, hm.1, rfl, hn⟩

theorem foldl_best_of_not_earlier (hle : ∀ r ∈ l, r.earlier m = false) : l.foldl best (some m) = some m := by
  induction l with
  | nil => rfl
  | cons r l ih =>
    rw [List.foldl_cons, best, Option.all_some, hle r List.mem_cons_self]
    exact ih fun q hq => hle q (List.mem_cons_of_mem r hq)

/-- The report of requests that are looked at one by one. -/
theorem report_singles {reqs : List (UsageObservation P)} :
    (report d (reqs.map fun q => [q])).get? h = summary (redemptions d h reqs) := by
  rw [get?_report]
  congr 1
  induction reqs with
  | nil => rfl
  | cons q reqs ih =>
    rw [List.map_cons, List.filterMap_cons, ih, redemptions_append q reqs]
    unfold redemptions
    rw [List.filterMap_cons, List.filterMap_nil]
    cases hq : recordOf d q with
    | none => rfl
    | some p =>
      by_cases hk : p.1 = h <;> simp [recordsOf, hk, best]

theorem mem_redemptions {reqs : List (UsageObservation P)} : r ∈ redemptions d h reqs ↔ ∃ q ∈ reqs, recordOf d q = some (h, r) := by
  unfold redemptions
  rw [mem_recordsOf, List.mem_filterMap]

theorem flatten_singles {α : Type*} {l : List α} : (l.map fun q => [q]).flatten = l := by
  induction l with
  | nil => rfl
  | cons q l ih => rw [List.map_cons, List.flatten_cons, ih, List.singleton_append]

/-- The report of any batches of the requests, and that it is the same for each of them. -/
theorem report_split_iff (d : Invites P) (reqs : List (UsageObservation P)) :
    (∀ h, Plain (redemptions d h reqs)) ↔
      ∀ batches batches' : List (List (UsageObservation P)), batches.flatten.Perm reqs → batches'.flatten.Perm reqs →
        ∀ h, (report d batches).get? h = (report d batches').get? h ∧
          ∀ s, (report d batches).get? h = some s → Right (redemptions d h reqs) s := by
  constructor
  · intro hplain batches batches' hp hp' h
    have hreport : ∀ bs : List (List (UsageObservation P)), bs.flatten.Perm reqs → ∀ m, Earliest (redemptions d h reqs) m →
        (report d bs).get? h = some m := by
      intro bs hbs m hm
      rw [get?_report]
      have hin : ∀ b ∈ bs, redemptions d h b ⊆ redemptions d h reqs := by
        intro b hb r hr
        obtain ⟨q, hq, hrec⟩ := mem_redemptions.1 hr
        exact mem_redemptions.2 ⟨q, hbs.mem_iff.1 (List.mem_flatten.2 ⟨b, hb, hq⟩), hrec⟩
      refine (hplain h).summary_eq hm ?_ ?_
      · intro x hx
        obtain ⟨b, hb, hbest⟩ := List.mem_filterMap.1 hx
        have hne : redemptions d h b ≠ [] := fun e => by rw [e] at hbest; cases hbest
        obtain ⟨y, hy, hfold, -⟩ := foldl_best hne
        rw [hfold] at hbest
        cases hbest
        exact hin b hb hy
      · obtain ⟨q, hq, hrec⟩ := mem_redemptions.1 hm.1
        obtain ⟨b, hb, hqb⟩ := List.mem_flatten.1 (hbs.mem_iff.2 hq)
        have hmb : m ∈ redemptions d h b := mem_redemptions.2 ⟨q, hqb, hrec⟩
        obtain ⟨y, hy, hfold, hle⟩ := foldl_best (List.ne_nil_of_mem hmb)
        have hym : y = m := (hplain h).same y m ⟨hin b hb hy, fun r hr => (hle m hmb).trans (hm.2 r hr)⟩ hm
        exact List.mem_filterMap.2 ⟨b, hb, by rw [hfold, hym]⟩
    by_cases hnil : redemptions d h reqs = []
    · have hnone : ∀ bs : List (List (UsageObservation P)), bs.flatten.Perm reqs → (report d bs).get? h = none := by
        intro bs hbs
        rw [get?_report, List.filterMap_eq_nil_iff.2 fun b hb => ?_]
        · rfl
        · have hb : redemptions d h b = [] := by
            refine List.eq_nil_iff_forall_not_mem.2 fun r hr => ?_
            obtain ⟨q, hq, hrec⟩ := mem_redemptions.1 hr
            have hmem := mem_redemptions.2 ⟨q, hbs.mem_iff.1 (List.mem_flatten.2 ⟨b, hb, hq⟩), hrec⟩
            rw [hnil] at hmem
            cases hmem
          rw [hb]
          rfl
      rw [hnone batches hp, hnone batches' hp']
      exact ⟨rfl, fun s hs => by cases hs⟩
    · obtain ⟨m, hm⟩ := exists_earliest hnil
      rw [hreport batches hp m hm, hreport batches' hp' m hm]
      exact ⟨rfl, fun s hs => by cases hs; exact (hplain h).right hm⟩
  · intro hall h
    -- the batches with the request of an earliest record in front
    have hfront : ∀ r, Earliest (redemptions d h reqs) r → ∃ l, (r :: l).Perm (redemptions d h reqs) ∧
        (report d (reqs.map fun q => [q])).get? h = summary (r :: l) ∧
        (report d (reqs.map fun q => [q])).get? h = l.foldl best (some r) := by
      intro r hr
      obtain ⟨q, hq, hrec⟩ := mem_redemptions.1 hr.1
      obtain ⟨rest, hp⟩ : ∃ rest, (q :: rest).Perm reqs := by
        obtain ⟨before, after, rfl⟩ := List.append_of_mem hq
        exact ⟨before ++ after, List.perm_middle.symm⟩
      have hsingles := (hall (reqs.map fun q => [q]) ((q :: rest).map fun q => [q]) (by rw [flatten_singles])
        (by rw [flatten_singles]; exact hp) h).1
      have hone := (hall (reqs.map fun q => [q]) [q :: rest] (by rw [flatten_singles]) (by simpa using hp) h).1
      refine ⟨redemptions d h rest, redemptions_cons hrec ▸ redemptions_perm hp, ?_, ?_⟩
      · rw [hsingles, report_singles, redemptions_cons hrec]
      · rw [hone, get?_report, List.filterMap_cons, redemptions_cons hrec, List.foldl_cons]
        have hbest : best none r = some r := rfl
        rw [hbest]
        cases hfold : (redemptions d h rest).foldl best (some r) <;> rfl
    have hperson : ∀ r m, Earliest (redemptions d h reqs) r → Earliest (redemptions d h reqs) m → r.pubkey = m.pubkey := by
      intro r m hr hm
      obtain ⟨l, hl, hsum, -⟩ := hfront r hr
      obtain ⟨l', hl', hsum', -⟩ := hfront m hm
      obtain ⟨n, hn, -⟩ := summary_cons_of_earliest (hr.perm hl)
      obtain ⟨n', hn', -⟩ := summary_cons_of_earliest (hm.perm hl')
      have heq : ({ r with name := n } : UsedRecord) = { m with name := n' } :=
        Option.some.inj (hn.symm.trans (hsum.symm.trans (hsum'.trans hn')))
      exact (UsedRecord.mk.inj heq).2.1
    have hkeep : ∀ r, Earliest (redemptions d h reqs) r → (report d (reqs.map fun q => [q])).get? h = some r := by
      intro r hr
      obtain ⟨l, hl, -, hone⟩ := hfront r hr
      rw [hone]
      refine foldl_best_of_not_earlier fun x hx => ?_
      have hmem : x ∈ redemptions d h reqs := hl.mem_iff.1 (List.mem_cons_of_mem r hx)
      have hle := hr.2 x hmem
      unfold UsedRecord.earlier
      by_cases hat : x.at_ = r.at_
      · have hx' : Earliest (redemptions d h reqs) x := ⟨hmem, fun y hy => (le_of_eq hat).trans (hr.2 y hy)⟩
        simp [hat, hperson x r hx' hr]
      · have hlt : ¬ x.at_ < r.at_ := not_lt.2 hle
        simp [hat, hlt]
    constructor
    · intro r m hr hm
      exact Option.some.inj ((hkeep r hr).symm.trans (hkeep m hm))
    · intro m hm hnone r hr
      obtain ⟨l, hl, hsum, -⟩ := hfront m hm
      obtain ⟨n, hn, hname⟩ := summary_cons_of_earliest (hm.perm hl)
      have heq : m = { m with name := n } := Option.some.inj ((hkeep m hm).symm.trans (hsum.trans hn))
      have hnil : n = none := by rw [← hnone, heq]
      rw [hnone] at hname
      have hfind : l.findSome? (·.name) = none := hname.symm.trans hnil
      rcases List.mem_cons.1 (hl.mem_iff.2 hr) with rfl | hr
      · exact hnone
      · exact List.findSome?_eq_none_iff.1 hfind r hr

/-- The report is right and the same however it was gathered, of records and of requests,
exactly where this holds of each invite, and no label goes back. -/
theorem gather_independent_iff (d : Invites P) :
    (∀ L : List (JsString × UsedRecord), (∀ h, Clear (recordsOf h L)) ↔
      ∀ batches batches' : List Usage, (batches.flatMap (·.entries)).Perm L → (batches'.flatMap (·.entries)).Perm L →
        ∀ h, (gather batches).get? h = (gather batches').get? h ∧ ∀ s, (gather batches).get? h = some s → Right (recordsOf h L) s) ∧
    (∀ reqs : List (UsageObservation P), (∀ h, Plain (redemptions d h reqs)) ↔
      ∀ batches batches' : List (List (UsageObservation P)), batches.flatten.Perm reqs → batches'.flatten.Perm reqs →
        ∀ h, (report d batches).get? h = (report d batches').get? h ∧
          ∀ s, (report d batches).get? h = some s → Right (redemptions d h reqs) s) ∧
    ∀ (prev next : Usage) (h : JsString), (prev.get? h).isSome → ((mergeUsage (some prev) next).get? h).isSome :=
  ⟨gather_split_iff, report_split_iff d, fun _ _ _ hused => mergeUsage_isSome hused⟩

/-- Alice and Bob used one code at the same second. -/
def tiedUse (pubkey : String) : Usage := single (js "c0de", ⟨1000, js pubkey, none⟩)

/-- Who is named depends on whose redemption was merged first. -/
theorem gather_tied : ((gather [tiedUse "aa", tiedUse "bb"]).get? (js "c0de")).map (·.pubkey) = some (js "aa") ∧
    ((gather [tiedUse "bb", tiedUse "aa"]).get? (js "c0de")).map (·.pubkey) = some (js "bb") := by decide +kernel

theorem gather_independent_at_code : ((mergeUsage (some (tiedUse "aa")) (tiedUse "bb")).get? (js "c0de")).isSome :=
  (gather_independent_iff (P := Unit) ⟨fun _ _ => true, fun _ => js "c0de"⟩).2.2 (tiedUse "aa") (tiedUse "bb") (js "c0de")
    (by decide +kernel)

end Nostrautica.InviteUsage
