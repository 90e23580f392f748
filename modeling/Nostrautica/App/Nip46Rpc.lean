/-
Requests to a remote signer: `rpc`, `recordReply` and the attempts of `rpcWithForegroundRetry` of
`app/src/lib/signer/nip46.ts`, for one session.

A signer answers when a person approves, which may be after the request was given up. A reply is
kept for later requests of its fingerprint, and an identical request joins the one in flight
(`rpc_answers`).
-/
import Nostrautica.Js.Map
import Nostrautica.Transition.Run

namespace Nostrautica.Nip46Rpc

open Js

/-- `LATE_REPLY_TTL_MS`. -/
def lateReplyTtlMs : Int := 15 * 60000

/-- `MAX_LATE_REPLIES`. -/
def maxLateReplies : Nat := 64

/-- `MAX_RPC_RESUMES`. -/
def maxRpcResumes : Nat := 3

inductive Promised (V : Type)
  | pending
  | fulfilled (value : V)
  | rejected

structure Reply (V : Type) where
  value : V
  time : Int

/-- An entry of `inflight`, kept after it is deleted there: its `promise`, and the `main` behind it. -/
structure Entry (F V : Type) where
  fingerprint : F
  promise : Promised V
  /-- Is `main` pending? -/
  running : Bool
  resumes : Nat

/-- A request the signer was sent, by the entry it is of. -/
structure Attempt (V : Type) where
  entry : Nat
  raw : Promised V

/-- What a call of `rpc` returns: a promise that is resolved, or an entry's. -/
inductive Returned (V : Type)
  | resolved (value : V)
  | promise (entry : Nat)

structure State (F V : Type) [DecidableEq F] where
  lateReplies : JsMap F (Reply V)
  inflight : JsMap F Nat
  entries : List (Entry F V)
  attempts : List (Attempt V)
  /-- The calls of `rpc`. -/
  calls : List (F × Returned V)
  /-- The last reply of each fingerprint, the newest first. -/
  recent : List (F × Reply V)
  /-- `Date.now()`, as last read. -/
  clock : Int

inductive Act (F V : Type)
  | rpc (fingerprint : F) (now : Int)
  /-- A resume signal, after the probe. -/
  | resume (entry : Nat)
  /-- The signer's reply to an attempt. -/
  | reply (attempt : Nat) (value : V) (now : Int)
  | fail (attempt : Nat)
  /-- `main` rejects: the attempts failed, or their deadlines passed. -/
  | giveUp (entry : Nat)
  /-- `main` is fulfilled, after the entry's promise. -/
  | mainDone (entry : Nat)
  /-- `finally`. -/
  | finish (entry : Nat)

variable {F V : Type} [DecidableEq F]

/-- `while (this.lateReplies.size > MAX_LATE_REPLIES)`: the first entries go. -/
def trim (m : JsMap F (Reply V)) : JsMap F (Reply V) :=
  ⟨m.entries.drop (m.entries.length - maxLateReplies), ((List.drop_sublist ..).map _).nodup m.nodup⟩

/-- The promise settles, where it is pending. -/
def Entry.settle (e : Entry F V) (p : Promised V) : Entry F V :=
  match e.promise with
  | .pending => { e with promise := p }
  | _ => e

/-- `recordReply(fingerprint, value)`. -/
def recordReply (s : State F V) (fingerprint : F) (value : V) (now : Int) : State F V :=
  { s with
    lateReplies := trim ((s.lateReplies.delete fingerprint).set fingerprint ⟨value, now⟩)
    entries :=
      match s.inflight.get? fingerprint with
      | some i => s.entries.modify i (·.settle (.fulfilled value))
      | none => s.entries
    recent := (fingerprint, ⟨value, now⟩) :: s.recent.filter (·.1 ≠ fingerprint)
    clock := now }

/-- `rpc(fingerprint, operation)`. -/
def rpc (s : State F V) (fingerprint : F) (now : Int) : State F V :=
  match (s.lateReplies.get? fingerprint).filter fun late => now - late.time < lateReplyTtlMs with
  | some late => { s with calls := (fingerprint, .resolved late.value) :: s.calls, clock := now }
  | none =>
    let lateReplies := if (s.lateReplies.get? fingerprint).isSome then s.lateReplies.delete fingerprint else s.lateReplies
    match s.inflight.get? fingerprint with
    | some i => { s with lateReplies, calls := (fingerprint, .promise i) :: s.calls, clock := now }
    | none =>
      let i := s.entries.length
      { s with
        lateReplies
        inflight := s.inflight.set fingerprint i
        entries := s.entries ++ [⟨fingerprint, .pending, true, 0⟩]
        attempts := s.attempts ++ [⟨i, .pending⟩]
        calls := (fingerprint, .promise i) :: s.calls
        clock := now }

def step (s : State F V) : Act F V → Option (State F V)
  | .rpc fingerprint now => if s.clock ≤ now then some (rpc s fingerprint now) else none
  | .resume i =>
    match s.entries[i]? with
    | some e =>
      if e.running && e.resumes < maxRpcResumes then
        some { s with entries := s.entries.set i { e with resumes := e.resumes + 1 }, attempts := s.attempts ++ [⟨i, .pending⟩] }
      else none
    | none => none
  | .reply a value now =>
    match s.attempts[a]? with
    | some ⟨i, .pending⟩ =>
      match s.entries[i]? with
      | some e =>
        if s.clock ≤ now then
          some (recordReply { s with attempts := s.attempts.set a ⟨i, .fulfilled value⟩ } e.fingerprint value now)
        else none
      | none => none
    | _ => none
  | .fail a =>
    match s.attempts[a]? with
    | some ⟨i, .pending⟩ => some { s with attempts := s.attempts.set a ⟨i, .rejected⟩ }
    | _ => none
  | .giveUp i =>
    match s.entries[i]? with
    | some e => if e.running then some { s with entries := s.entries.set i { e.settle .rejected with running := false } } else none
    | none => none
  | .mainDone i =>
    match s.entries[i]? with
    | some e =>
      match e.running, e.promise with
      | true, .fulfilled _ => some { s with entries := s.entries.set i { e with running := false } }
      | _, _ => none
    | none => none
  | .finish i =>
    match s.entries[i]? with
    | some e =>
      match e.promise with
      | .pending => none
      | _ => some { s with inflight := if s.inflight.get? e.fingerprint = some i then s.inflight.delete e.fingerprint else s.inflight }
    | none => none

def init (now : Int) : State F V := ⟨.empty, .empty, [], [], [], [], now⟩

def Step (s : State F V) (a : Act F V) (t : State F V) : Prop := step s a = some t

/-! ## What a step does -/

section

variable {s t : State F V} {a : Act F V} {f : F} {now : Int}

theorem rpc_cases (s : State F V) (f : F) (now : Int) :
    (∃ late, s.lateReplies.get? f = some late ∧ now - late.time < lateReplyTtlMs ∧
      rpc s f now = { s with calls := (f, .resolved late.value) :: s.calls, clock := now }) ∨
    ∃ m, (s.lateReplies.get? f = none ∧ m = s.lateReplies ∨
        ∃ late, s.lateReplies.get? f = some late ∧ lateReplyTtlMs ≤ now - late.time ∧ m = s.lateReplies.delete f) ∧
      ((∃ i, s.inflight.get? f = some i ∧ rpc s f now = { s with lateReplies := m, calls := (f, .promise i) :: s.calls, clock := now }) ∨
        s.inflight.get? f = none ∧
          rpc s f now = { s with
            lateReplies := m
            inflight := s.inflight.set f s.entries.length
            entries := s.entries ++ [⟨f, .pending, true, 0⟩]
            attempts := s.attempts ++ [⟨s.entries.length, .pending⟩]
            calls := (f, .promise s.entries.length) :: s.calls
            clock := now }) := by
  unfold rpc
  cases hl : s.lateReplies.get? f with
  | none =>
    refine .inr ⟨s.lateReplies, .inl ⟨rfl, rfl⟩, ?_⟩
    cases hi : s.inflight.get? f with
    | none => exact .inr ⟨rfl, rfl⟩
    | some i => exact .inl ⟨i, rfl, rfl⟩
  | some late =>
    by_cases hfresh : now - late.time < lateReplyTtlMs
    · refine .inl ⟨late, rfl, hfresh, ?_⟩
      rw [Option.filter_some, if_pos (decide_eq_true hfresh)]
    · rw [Option.filter_some, if_neg (by simpa using hfresh)]
      refine .inr ⟨s.lateReplies.delete f, .inr ⟨late, rfl, by omega, rfl⟩, ?_⟩
      cases hi : s.inflight.get? f with
      | none => exact .inr ⟨rfl, rfl⟩
      | some i => exact .inl ⟨i, rfl, rfl⟩

theorem step_cases (h : Step s a t) :
    (∃ f now, a = .rpc f now ∧ s.clock ≤ now ∧ t = rpc s f now) ∨
    (∃ i e, a = .resume i ∧ s.entries[i]? = some e ∧ e.resumes < maxRpcResumes ∧
      t = { s with entries := s.entries.set i { e with resumes := e.resumes + 1 }, attempts := s.attempts ++ [⟨i, .pending⟩] }) ∨
    (∃ x v now i e, a = .reply x v now ∧ s.attempts[x]? = some ⟨i, .pending⟩ ∧ s.entries[i]? = some e ∧ s.clock ≤ now ∧
      t = recordReply { s with attempts := s.attempts.set x ⟨i, .fulfilled v⟩ } e.fingerprint v now) ∨
    (∃ x i, a = .fail x ∧ s.attempts[x]? = some ⟨i, .pending⟩ ∧ t = { s with attempts := s.attempts.set x ⟨i, .rejected⟩ }) ∨
    (∃ i e, a = .giveUp i ∧ s.entries[i]? = some e ∧ t = { s with entries := s.entries.set i { e.settle .rejected with running := false } }) ∨
    (∃ i e, a = .mainDone i ∧ s.entries[i]? = some e ∧ t = { s with entries := s.entries.set i { e with running := false } }) ∨
    ∃ i e, a = .finish i ∧ s.entries[i]? = some e ∧ e.promise ≠ .pending ∧
      t = { s with inflight := if s.inflight.get? e.fingerprint = some i then s.inflight.delete e.fingerprint else s.inflight } := by
  cases a with
  | rpc f now =>
    simp only [Step, step] at h
    split_ifs at h with hg
    exact .inl ⟨f, now, rfl, hg, (Option.some.inj h).symm⟩
  | resume i =>
    simp only [Step, step] at h
    split at h
    · next e he =>
      split_ifs at h with hg
      rw [Bool.and_eq_true, decide_eq_true_eq] at hg
      exact .inr (.inl ⟨i, e, rfl, he, hg.2, (Option.some.inj h).symm⟩)
    · cases h
  | reply x v now =>
    simp only [Step, step] at h
    split at h
    · next i hx =>
      split at h
      · next e he =>
        by_cases hg : s.clock ≤ now
        · rw [if_pos hg] at h
          exact .inr (.inr (.inl ⟨x, v, now, i, e, rfl, hx, he, hg, (Option.some.inj h).symm⟩))
        · rw [if_neg hg] at h
          cases h
      · cases h
    · cases h
  | fail x =>
    simp only [Step, step] at h
    split at h
    · next i hx => exact .inr (.inr (.inr (.inl ⟨x, i, rfl, hx, (Option.some.inj h).symm⟩)))
    · cases h
  | giveUp i =>
    simp only [Step, step] at h
    split at h
    · next e he =>
      split_ifs at h
      exact .inr (.inr (.inr (.inr (.inl ⟨i, e, rfl, he, (Option.some.inj h).symm⟩))))
    · cases h
  | mainDone i =>
    simp only [Step, step] at h
    split at h
    · next e he =>
      split at h
      · exact .inr (.inr (.inr (.inr (.inr (.inl ⟨i, e, rfl, he, (Option.some.inj h).symm⟩)))))
      · cases h
    · cases h
  | finish i =>
    simp only [Step, step] at h
    split at h
    · next e he =>
      split at h
      · cases h
      · next hp => exact .inr (.inr (.inr (.inr (.inr (.inr ⟨i, e, rfl, he, hp, (Option.some.inj h).symm⟩)))))
    · cases h

/-! ## Replies -/

/-- The map holds the last replies, but for those that expired and those after `maxLateReplies` newer ones. -/
structure Stored (m : JsMap F (Reply V)) (recent : List (F × Reply V)) (clock : Int) : Prop where
  nodup : (recent.map (·.1)).Nodup
  sub : m.entries.reverse.Sublist recent
  few : m.entries.length ≤ maxLateReplies
  kept : ∀ newer f r older, recent = newer ++ (f, r) :: older →
    m.get? f = some r ∨ lateReplyTtlMs ≤ clock - r.time ∨ maxLateReplies ≤ newer.length

theorem Stored.tick {m : JsMap F (Reply V)} {recent : List (F × Reply V)} {clock : Int} (h : Stored m recent clock) (hnow : clock ≤ now) :
    Stored m recent now where
  nodup := h.nodup
  sub := h.sub
  few := h.few
  kept newer f r older he := by
    rcases h.kept newer f r older he with hk | hk | hk
    · exact .inl hk
    · exact .inr (.inl (by omega))
    · exact .inr (.inr hk)

theorem Stored.mem {m : JsMap F (Reply V)} {recent : List (F × Reply V)} {clock : Int} (h : Stored m recent clock) {r : Reply V}
    (hr : m.get? f = some r) : (f, r) ∈ recent := h.sub.subset (List.mem_reverse.mpr (JsMap.get?_eq_some.mp hr))

/-- A fingerprint has one last reply. -/
theorem Stored.unique {m : JsMap F (Reply V)} {recent : List (F × Reply V)} {clock : Int} (h : Stored m recent clock) {r r' : Reply V}
    (hr : (f, r) ∈ recent) (hr' : (f, r') ∈ recent) : r = r' :=
  congrArg (·.2) (List.inj_on_of_nodup_map h.nodup hr hr' rfl)

/-- What expired is dropped. -/
theorem Stored.expire {m : JsMap F (Reply V)} {recent : List (F × Reply V)} {clock : Int} (h : Stored m recent clock) {late : Reply V}
    (hl : m.get? f = some late) (hold : lateReplyTtlMs ≤ clock - late.time) : Stored (m.delete f) recent clock where
  nodup := h.nodup
  sub := (List.reverse_sublist.mpr List.filter_sublist).trans h.sub
  few := (List.length_filter_le ..).trans h.few
  kept newer g r older he := by
    rcases h.kept newer g r older he with hk | hk
    · by_cases hg : g = f
      · rw [hg, hl] at hk
        rw [Option.some.inj hk] at hold
        exact .inr (.inl hold)
      · rw [JsMap.get?_delete, if_neg hg]
        exact .inl hk
    · exact .inr hk

theorem put_absent {κ ν : Type} [DecidableEq κ] {k : κ} {v : ν} : ∀ {l : List (κ × ν)}, k ∉ l.map Prod.fst → put k v l = l ++ [(k, v)]
  | [], _ => rfl
  | (k', v') :: l, h => by
    rw [List.map_cons, List.mem_cons, not_or] at h
    rw [put, if_neg fun he => h.1 he.symm, put_absent h.2]
    rfl

/-- What comes after a sublist in a list without repetition stands after as many. -/
theorem before_of_sublist {α : Type} {l l' : List α} {x : α} (hsub : (l' ++ [x]).Sublist l) (hl : l.Nodup) {pre post : List α}
    (he : l = pre ++ x :: post) : l'.length ≤ pre.length := by
  obtain ⟨l₁, l₂, rfl, h₁, h₂⟩ := List.append_sublist_iff.mp hsub
  have hx : x ∈ l₂ := h₂.subset List.mem_cons_self
  obtain ⟨u, v, rfl⟩ := List.append_of_mem hx
  have hpre : l₁ ++ u = pre := by
    rw [← List.append_assoc] at he hl
    have hnot := (List.nodup_middle.mp (he ▸ hl)).notMem
    rw [List.mem_append, not_or] at hnot
    exact ((List.append_cons_inj_of_notMem hnot.1 hnot.2).mp he.symm).1.symm
  rw [← hpre, List.length_append]
  exact h₁.length_le.trans (Nat.le_add_right _ _)

/-- One entry of a list without repetition has a key. -/
theorem length_le_filter {κ ν : Type} [DecidableEq κ] {k : κ} {l : List (κ × ν)} (hl : (l.map (·.1)).Nodup) :
    l.length ≤ (l.filter (·.1 ≠ k)).length + 1 := by
  induction l with
  | nil => exact Nat.zero_le _
  | cons p l ih =>
    rw [List.map_cons, List.nodup_cons] at hl
    by_cases hp : p.1 = k
    · have hrest : l.filter (·.1 ≠ k) = l := List.filter_eq_self.mpr fun q hq =>
        decide_eq_true fun hqk => hl.1 (by rw [hp, ← hqk]; exact List.mem_map_of_mem hq)
      rw [List.filter_cons_of_neg (by simpa using hp), hrest, List.length_cons]
    · rw [List.filter_cons_of_pos (by simpa using hp), List.length_cons, List.length_cons]
      exact Nat.succ_le_succ (ih hl.2)

/-- A reply is the newest, and at most the oldest entry goes. -/
theorem Stored.record {m : JsMap F (Reply V)} {recent : List (F × Reply V)} {clock : Int} (h : Stored m recent clock) (hnow : clock ≤ now)
    (r : Reply V) : Stored (trim ((m.delete f).set f r)) ((f, r) :: recent.filter (·.1 ≠ f)) now := by
  have hentries : ((m.delete f).set f r).entries = m.entries.filter (·.1 ≠ f) ++ [(f, r)] := by
    refine put_absent fun hmem => ?_
    obtain ⟨p, hp, hpf⟩ := List.mem_map.mp hmem
    exact of_decide_eq_true (List.mem_filter.mp hp).2 hpf
  have hall : ((m.delete f).set f r).entries.reverse.Sublist ((f, r) :: recent.filter (·.1 ≠ f)) := by
    rw [hentries, List.reverse_append, List.reverse_singleton, List.singleton_append, ← List.filter_reverse]
    exact (h.sub.filter _).cons_cons _
  have hlen : ((m.delete f).set f r).entries.length ≤ maxLateReplies + 1 := by
    rw [hentries, List.length_append, List.length_singleton]
    exact Nat.succ_le_succ ((List.length_filter_le ..).trans h.few)
  have hnodup : (((f, r) :: recent.filter (·.1 ≠ f)).map (·.1)).Nodup := by
    rw [List.map_cons, List.nodup_cons]
    refine ⟨fun hmem => ?_, (List.filter_sublist.map _).nodup h.nodup⟩
    obtain ⟨p, hp, hpf⟩ := List.mem_map.mp hmem
    exact of_decide_eq_true (List.mem_filter.mp hp).2 hpf
  have htake : ∀ {p : F × Reply V}, p ∈ ((m.delete f).set f r).entries →
      p ∈ (trim ((m.delete f).set f r)).entries ∨ ((trim ((m.delete f).set f r)).entries.reverse ++ [p]).Sublist ((f, r) :: recent.filter (·.1 ≠ f)) ∧
        (trim ((m.delete f).set f r)).entries.length = maxLateReplies := by
    intro p hp
    rw [← List.take_append_drop (((m.delete f).set f r).entries.length - maxLateReplies) ((m.delete f).set f r).entries, List.mem_append] at hp
    rcases hp with hp | hp
    · refine .inr ⟨?_, ?_⟩
      · have hsplit := congrArg List.reverse
          (List.take_append_drop (((m.delete f).set f r).entries.length - maxLateReplies) ((m.delete f).set f r).entries)
        rw [List.reverse_append] at hsplit
        rw [← hsplit] at hall
        exact ((List.singleton_sublist.mpr (List.mem_reverse.mpr hp)).append_left _).trans hall
      · have hpos : 0 < ((m.delete f).set f r).entries.length - maxLateReplies := by
          by_contra hno
          rw [Nat.eq_zero_of_not_pos hno] at hp
          exact absurd hp List.not_mem_nil
        unfold trim
        rw [List.length_drop]
        omega
    · exact .inl hp
  refine ⟨hnodup, (List.reverse_sublist.mpr (List.drop_sublist ..)).trans hall, ?_, fun newer g r' older he => ?_⟩
  · unfold trim
    rw [List.length_drop]
    omega
  · have hput : ∀ {p : F × Reply V}, p ∈ ((m.delete f).set f r).entries → p = (g, r') →
        (trim ((m.delete f).set f r)).get? g = some r' ∨ maxLateReplies ≤ newer.length := by
      rintro p hp rfl
      rcases htake hp with hin | ⟨hsub, hfull⟩
      · exact .inl (JsMap.get?_eq_some.mpr hin)
      · refine .inr ?_
        have hle := before_of_sublist hsub (List.Nodup.of_map _ hnodup) he
        rwa [List.length_reverse, hfull] at hle
    cases newer with
    | nil =>
      obtain ⟨hp, -⟩ := List.cons.inj he
      rcases hput (p := (f, r)) (by rw [hentries]; exact List.mem_append_right _ List.mem_cons_self) hp with hin | hfar
      · exact .inl hin
      · exact .inr (.inr hfar)
    | cons q newer =>
      obtain ⟨rfl, hrest⟩ := List.cons.inj he
      obtain ⟨l₁, l₂, rfl, rfl, hl₂⟩ := List.filter_eq_append_iff.mp hrest
      obtain ⟨l₃, l₄, rfl, hskip, hgf, -⟩ := List.filter_eq_cons_iff.mp hl₂
      have hlong : (l₁ ++ l₃).length ≤ (l₁.filter (·.1 ≠ f)).length + 1 := by
        have hle := length_le_filter (k := f) (l := l₁ ++ l₃) (by
          have hn := h.nodup
          rw [← List.append_assoc, List.map_append] at hn
          exact (List.nodup_append.mp hn).1)
        rwa [List.filter_append, List.filter_eq_nil_iff.mpr hskip, List.append_nil] at hle
      rcases h.kept (l₁ ++ l₃) g r' l₄ (List.append_assoc ..).symm with hk | hk | hk
      · have hin : (g, r') ∈ ((m.delete f).set f r).entries := by
          rw [hentries]
          exact List.mem_append_left _ (List.mem_filter.mpr ⟨JsMap.get?_eq_some.mp hk, hgf⟩)
        rcases hput hin rfl with hin | hfar
        · exact .inl hin
        · exact .inr (.inr hfar)
      · exact .inr (.inl (by omega))
      · exact .inr (.inr (by rw [List.length_cons]; omega))

/-! ## Entries and attempts -/

/-- The signer replied `v` to a request of the fingerprint. -/
def Replied (s : State F V) (f : F) (v : V) : Prop :=
  ∃ x ∈ s.attempts, x.raw = .fulfilled v ∧ ∃ e, s.entries[x.entry]? = some e ∧ e.fingerprint = f

/-- Entries stay, and what is settled stays as it is. -/
def Stay (l l' : List (Entry F V)) : Prop :=
  ∀ (i : Nat) (e : Entry F V), l[i]? = some e → ∃ e', l'[i]? = some e' ∧ e'.fingerprint = e.fingerprint ∧ (e.promise ≠ .pending → e'.promise = e.promise)

omit [DecidableEq F] in
theorem Stay.refl (l : List (Entry F V)) : Stay l l := fun _ e h => ⟨e, h, rfl, fun _ => rfl⟩

omit [DecidableEq F] in
theorem stay_set {l : List (Entry F V)} {i : Nat} {e e' : Entry F V} (h : l[i]? = some e) (hf : e'.fingerprint = e.fingerprint)
    (hp : e.promise ≠ .pending → e'.promise = e.promise) : Stay l (l.set i e') := by
  intro j d hd
  by_cases hji : j = i
  · subst hji
    have hlt := (List.getElem?_eq_some_iff.mp h).1
    rw [h] at hd
    cases hd
    exact ⟨e', by rw [List.getElem?_set, if_pos rfl, if_pos hlt], hf, hp⟩
  · exact ⟨d, by rw [List.getElem?_set, if_neg fun h => hji h.symm]; exact hd, rfl, fun _ => rfl⟩

omit [DecidableEq F] in
theorem stay_append (l m : List (Entry F V)) : Stay l (l ++ m) := fun _ e h =>
  ⟨e, by rw [List.getElem?_append_left (List.getElem?_eq_some_iff.mp h).1]; exact h, rfl, fun _ => rfl⟩

omit [DecidableEq F] in
@[simp] theorem settle_fingerprint (e : Entry F V) (p : Promised V) : (e.settle p).fingerprint = e.fingerprint := by
  unfold Entry.settle
  split <;> rfl

omit [DecidableEq F] in
@[simp] theorem settle_resumes (e : Entry F V) (p : Promised V) : (e.settle p).resumes = e.resumes := by
  unfold Entry.settle
  split <;> rfl

omit [DecidableEq F] in
theorem settle_promise (e : Entry F V) (p : Promised V) : (e.settle p).promise = p ∧ e.promise = .pending ∨ (e.settle p).promise = e.promise ∧ e.promise ≠ .pending := by
  unfold Entry.settle
  split
  · next h => exact .inl ⟨rfl, h⟩
  · next h => exact .inr ⟨rfl, h⟩

omit [DecidableEq F] in
theorem settle_kept (e : Entry F V) (p : Promised V) (h : e.promise ≠ .pending) : (e.settle p).promise = e.promise :=
  (settle_promise e p).elim (fun hp => absurd hp.2 h) (·.1)

omit [DecidableEq F] in
theorem stay_modify (l : List (Entry F V)) (i : Nat) (p : Promised V) : Stay l (l.modify i (·.settle p)) := by
  intro j e he
  rw [List.getElem?_modify, he]
  by_cases hij : i = j
  · exact ⟨e.settle p, by simp [hij], settle_fingerprint e p, settle_kept e p⟩
  · exact ⟨e, by simp [hij], rfl, fun _ => rfl⟩

theorem Replied.mono {v : V} (h : Replied s f v) (he : Stay s.entries t.entries)
    (ha : ∀ x ∈ s.attempts, x.raw = .fulfilled v → x ∈ t.attempts) : Replied t f v := by
  obtain ⟨x, hx, hraw, e, hxe, hf⟩ := h
  obtain ⟨e', he', hf', -⟩ := he x.entry e hxe
  exact ⟨x, ha x hx hraw, hraw, e', he', hf'.trans hf⟩

/-- The settling of an attempt leaves the others. -/
theorem mem_set_of_settled {l : List (Attempt V)} {x i : Nat} {y z : Attempt V} {v : V} (hx : l[x]? = some ⟨i, .pending⟩) (hz : z ∈ l)
    (hraw : z.raw = .fulfilled v) : z ∈ l.set x y := by
  obtain ⟨j, hj⟩ := List.mem_iff_getElem?.mp hz
  have hne : ¬ x = j := by
    rintro rfl
    rw [hx] at hj
    cases hj
    cases hraw
  exact List.mem_iff_getElem?.mpr ⟨j, by rw [List.getElem?_set, if_neg hne]; exact hj⟩

/-- What a step does to the entries and the attempts. -/
theorem step_stay (h : Step s a t) : Stay s.entries t.entries ∧ ∀ x ∈ s.attempts, ∀ v, x.raw = .fulfilled v → x ∈ t.attempts := by
  rcases step_cases h with ⟨f, now, rfl, -, rfl⟩ | ⟨i, e, rfl, he, -, rfl⟩ | ⟨x, v, now, i, e, rfl, hx, he, -, rfl⟩ | ⟨x, i, rfl, hx, rfl⟩ |
    ⟨i, e, rfl, he, rfl⟩ | ⟨i, e, rfl, he, rfl⟩ | ⟨i, e, rfl, he, -, rfl⟩
  · rcases rpc_cases s f now with ⟨late, -, -, hr⟩ | ⟨m, -, ⟨i, -, hr⟩ | ⟨-, hr⟩⟩
    · rw [hr]
      exact ⟨Stay.refl _, fun x hx _ _ => hx⟩
    · rw [hr]
      exact ⟨Stay.refl _, fun x hx _ _ => hx⟩
    · rw [hr]
      exact ⟨stay_append _ _, fun x hx _ _ => List.mem_append_left _ hx⟩
  · exact ⟨stay_set he rfl fun _ => rfl, fun x hx _ _ => List.mem_append_left _ hx⟩
  · refine ⟨?_, fun z hz w hw => mem_set_of_settled hx hz hw⟩
    unfold recordReply
    dsimp only
    split
    · exact stay_modify _ _ _
    · exact Stay.refl _
  · exact ⟨Stay.refl _, fun z hz w hw => mem_set_of_settled hx hz hw⟩
  · exact ⟨stay_set he (settle_fingerprint e _) (settle_kept e _), fun x hx _ _ => hx⟩
  · exact ⟨stay_set he rfl fun _ => rfl, fun x hx _ _ => hx⟩
  · exact ⟨Stay.refl _, fun x hx _ _ => hx⟩

/-- The entries in flight: a pending one is what its fingerprint's requests join, and each has its attempts. -/
structure Flight (s : State F V) : Prop where
  pending : ∀ (i : Nat) (e : Entry F V), s.entries[i]? = some e → e.promise = .pending → s.inflight.get? e.fingerprint = some i
  inflight : ∀ (f : F) (i : Nat), s.inflight.get? f = some i → ∃ e : Entry F V, s.entries[i]? = some e ∧ e.fingerprint = f
  within : ∀ x ∈ s.attempts, x.entry < s.entries.length
  attempts : ∀ (i : Nat) (e : Entry F V), s.entries[i]? = some e →
    e.resumes ≤ maxRpcResumes ∧ s.attempts.countP (·.entry = i) = e.resumes + 1

theorem flight_init : Flight (init now : State F V) where
  pending i e h := by simp [init] at h
  inflight f i h := by simp [init] at h
  within x h := by simp [init] at h
  attempts i e h := by simp [init] at h

/-- The settling of an attempt leaves whose the attempts are. -/
theorem entry_set {l : List (Attempt V)} {x i : Nat} {p : Promised V} (hx : l[x]? = some ⟨i, .pending⟩) :
    (l.set x ⟨i, p⟩).map (·.entry) = l.map (·.entry) := by
  refine List.ext_getElem? fun j => ?_
  rw [List.getElem?_map, List.getElem?_set, List.getElem?_map]
  split_ifs with hj hlt
  · rw [← hj, hx]
    rfl
  · exact absurd (List.getElem?_eq_some_iff.mp hx).1 hlt
  · rfl

/-- A change of entries that keeps their fingerprints and settles them only, with the attempts' entries as they are. -/
theorem Flight.change (h : Flight s) {entries : List (Entry F V)} {attempts : List (Attempt V)} (hlen : entries.length = s.entries.length)
    (hback : ∀ (i : Nat) (e' : Entry F V), entries[i]? = some e' → ∃ e, s.entries[i]? = some e ∧ e'.fingerprint = e.fingerprint ∧
      e'.resumes = e.resumes ∧ (e'.promise = .pending → e.promise = .pending))
    (hstay : Stay s.entries entries) (hatt : attempts.map (·.entry) = s.attempts.map (·.entry)) {t : State F V} (ht : t.entries = entries)
    (hin : t.inflight = s.inflight) (hta : t.attempts = attempts) : Flight t where
  pending i e' he' hp := by
    rw [ht] at he'
    obtain ⟨e, he, hf, -, hpend⟩ := hback i e' he'
    rw [hin, hf]
    exact h.pending i e he (hpend hp)
  inflight f i hi := by
    rw [hin] at hi
    obtain ⟨e, he, hf⟩ := h.inflight f i hi
    obtain ⟨e', he', hf', -⟩ := hstay i e he
    exact ⟨e', ht ▸ he', hf'.trans hf⟩
  within x hx := by
    rw [hta] at hx
    have hmem := List.mem_map_of_mem (f := (·.entry)) hx
    rw [hatt] at hmem
    obtain ⟨y, hy, hyx⟩ := List.mem_map.mp hmem
    rw [ht, hlen, ← hyx]
    exact h.within y hy
  attempts i e' he' := by
    rw [ht] at he'
    obtain ⟨e, he, -, hr, -⟩ := hback i e' he'
    obtain ⟨hle, hcount⟩ := h.attempts i e he
    have hsame : ∀ l : List (Attempt V), l.countP (·.entry = i) = (l.map (·.entry)).countP (· = i) := fun l => by
      rw [List.countP_map]
      rfl
    rw [hr, hta, hsame, hatt, ← hsame]
    exact ⟨hle, hcount⟩

omit [DecidableEq F] in
theorem back_set {l : List (Entry F V)} {i : Nat} {e : Entry F V} (d : Entry F V) (h : l[i]? = some e) (hf : d.fingerprint = e.fingerprint)
    (hr : d.resumes = e.resumes) (hp : d.promise = .pending → e.promise = .pending) (j : Nat) (e' : Entry F V) (he' : (l.set i d)[j]? = some e') :
    ∃ e, l[j]? = some e ∧ e'.fingerprint = e.fingerprint ∧ e'.resumes = e.resumes ∧ (e'.promise = .pending → e.promise = .pending) := by
  rw [List.getElem?_set] at he'
  split_ifs at he' with hij hlt
  · cases he'
    exact ⟨e, hij ▸ h, hf, hr, hp⟩
  · exact ⟨e', he', rfl, rfl, id⟩

omit [DecidableEq F] in
theorem settle_pending {e : Entry F V} {p : Promised V} (hp : p ≠ .pending) : (e.settle p).promise ≠ .pending := by
  rcases settle_promise e p with ⟨h, -⟩ | ⟨h, hne⟩
  · rw [h]
    exact hp
  · rw [h]
    exact hne

omit [DecidableEq F] in
theorem back_modify {l : List (Entry F V)} {i : Nat} {p : Promised V} (hp : p ≠ .pending) (j : Nat) (e' : Entry F V)
    (he' : (l.modify i (·.settle p))[j]? = some e') :
    ∃ e, l[j]? = some e ∧ e'.fingerprint = e.fingerprint ∧ e'.resumes = e.resumes ∧ (e'.promise = .pending → e.promise = .pending) := by
  rw [List.getElem?_modify] at he'
  obtain ⟨e, he, hee⟩ := Option.map_eq_some_iff.mp he'
  refine ⟨e, he, ?_⟩
  by_cases hij : i = j
  · rw [if_pos hij] at hee
    rw [← hee]
    exact ⟨settle_fingerprint e p, settle_resumes e p, fun h => absurd h (settle_pending hp)⟩
  · rw [if_neg hij] at hee
    rw [← hee]
    exact ⟨rfl, rfl, id⟩

theorem Flight.step (h : Flight s) (hs : Step s a t) : Flight t := by
  have hstay := (step_stay hs).1
  rcases step_cases hs with ⟨f, now, rfl, -, rfl⟩ | ⟨i, e, rfl, he, hle, rfl⟩ | ⟨x, v, now, i, e, rfl, hx, he, -, rfl⟩ | ⟨x, i, rfl, hx, rfl⟩ |
    ⟨i, e, rfl, he, rfl⟩ | ⟨i, e, rfl, he, rfl⟩ | ⟨i, e, rfl, he, hp, rfl⟩
  · rcases rpc_cases s f now with ⟨late, -, -, hr⟩ | ⟨m, -, ⟨i, -, hr⟩ | ⟨hnone, hr⟩⟩
    · rw [hr]
      exact ⟨h.pending, h.inflight, h.within, h.attempts⟩
    · rw [hr]
      exact ⟨h.pending, h.inflight, h.within, h.attempts⟩
    · rw [hr]
      have hget : ∀ (i : Nat) (e : Entry F V), (s.entries ++ [⟨f, .pending, true, 0⟩])[i]? = some e →
          s.entries[i]? = some e ∨ i = s.entries.length ∧ e = ⟨f, .pending, true, 0⟩ := by
        intro i e he
        rw [List.getElem?_append] at he
        split_ifs at he with hlt
        · exact .inl he
        · obtain ⟨hi, he⟩ := List.getElem?_eq_some_iff.mp he
          rw [List.length_singleton] at hi
          exact .inr ⟨by omega, by simpa using he.symm⟩
      refine ⟨fun i e he hp => ?_, fun g i hi => ?_, fun x hx => ?_, fun i e he => ?_⟩
      · rw [JsMap.get?_set]
        rcases hget i e he with he | ⟨rfl, rfl⟩
        · have hold := h.pending i e he hp
          rw [if_neg fun hf => by rw [← hf, hnone] at hold; cases hold]
          exact hold
        · rw [if_pos rfl]
      · dsimp only at hi
        rw [JsMap.get?_set] at hi
        split_ifs at hi with hfg
        · cases hi
          exact ⟨_, List.getElem?_concat_length, hfg⟩
        · obtain ⟨e, he, hf⟩ := h.inflight g i hi
          exact ⟨e, by rw [List.getElem?_append_left (List.getElem?_eq_some_iff.mp he).1]; exact he, hf⟩
      · rw [List.length_append, List.length_singleton]
        rcases List.mem_append.mp hx with hx | hx
        · exact Nat.lt_succ_of_lt (h.within x hx)
        · rw [List.mem_singleton.mp hx]
          exact Nat.lt_succ_self _
      · dsimp only
        rw [List.countP_append, List.countP_singleton]
        rcases hget i e he with he | ⟨rfl, rfl⟩
        · have hlt := (List.getElem?_eq_some_iff.mp he).1
          rw [if_neg (by simpa using Nat.ne_of_gt hlt)]
          exact h.attempts i e he
        · have hnone : s.attempts.countP (·.entry = s.entries.length) = 0 :=
            List.countP_eq_zero.mpr fun x hx => by simpa using Nat.ne_of_lt (h.within x hx)
          rw [hnone, if_pos (by simp)]
          exact ⟨Nat.zero_le _, rfl⟩
  · have hlt := (List.getElem?_eq_some_iff.mp he).1
    have hget : ∀ (j : Nat) (d : Entry F V), (s.entries.set i { e with resumes := e.resumes + 1 })[j]? = some d →
        j = i ∧ d = { e with resumes := e.resumes + 1 } ∨ j ≠ i ∧ s.entries[j]? = some d := by
      intro j d hd
      rw [List.getElem?_set] at hd
      split_ifs at hd with hij
      · exact .inl ⟨hij.symm, (Option.some.inj hd).symm⟩
      · exact .inr ⟨fun h => hij h.symm, hd⟩
    refine ⟨fun j d hd hp => ?_, fun g j hj => ?_, fun x hx => ?_, fun j d hd => ?_⟩
    · rcases hget j d hd with ⟨rfl, rfl⟩ | ⟨-, hd⟩
      · exact h.pending j e he hp
      · exact h.pending j d hd hp
    · obtain ⟨d, hd, hf⟩ := h.inflight g j hj
      obtain ⟨d', hd', hf', -⟩ := hstay j d hd
      exact ⟨d', hd', hf'.trans hf⟩
    · rw [List.length_set]
      rcases List.mem_append.mp hx with hx | hx
      · exact h.within x hx
      · rw [List.mem_singleton.mp hx]
        exact hlt
    · dsimp only
      rw [List.countP_append, List.countP_singleton]
      rcases hget j d hd with ⟨rfl, rfl⟩ | ⟨hji, hd⟩
      · rw [(h.attempts j e he).2, if_pos (by simp)]
        exact ⟨hle, rfl⟩
      · rw [if_neg (by simpa using fun h => hji h.symm)]
        exact h.attempts j d hd
  · unfold recordReply
    dsimp only
    split
    · exact h.change (List.length_modify ..) (back_modify (p := .fulfilled v) fun h => by cases h) (stay_modify _ _ _) (entry_set hx) rfl rfl rfl
    · exact h.change rfl (fun i e he => ⟨e, he, rfl, rfl, id⟩) (Stay.refl _) (entry_set hx) rfl rfl rfl
  · exact h.change rfl (fun i e he => ⟨e, he, rfl, rfl, id⟩) (Stay.refl _) (entry_set hx) rfl rfl rfl
  · exact h.change (List.length_set ..) (back_set { e.settle .rejected with running := false } he (settle_fingerprint e _) (settle_resumes e _)
      fun hp => absurd hp (settle_pending (p := .rejected) fun h => by cases h))
      hstay rfl rfl rfl rfl
  · exact h.change (List.length_set ..) (back_set { e with running := false } he rfl rfl id) hstay rfl rfl rfl rfl
  · -- only a settled entry is taken out
    refine ⟨fun j d hd hpend => ?_, fun g j hj => ?_, h.within, h.attempts⟩
    · have hold := h.pending j d hd hpend
      dsimp only
      split_ifs with htail
      · rw [JsMap.get?_delete, if_neg fun hf => ?_]
        · exact hold
        · rw [hf, htail] at hold
          obtain rfl := Option.some.inj hold
          rw [he] at hd
          exact hp (by rw [Option.some.inj hd]; exact hpend)
      · exact hold
    · dsimp only at hj
      split_ifs at hj
      · rw [JsMap.get?_delete] at hj
        split_ifs at hj
        exact h.inflight g j hj
      · exact h.inflight g j hj

/-- What is given out is a reply to a request of the same fingerprint. -/
structure Truthful (s : State F V) : Prop where
  entries : ∀ (i : Nat) (e : Entry F V) (v : V), s.entries[i]? = some e → e.promise = .fulfilled v → Replied s e.fingerprint v
  recent : ∀ f r, (f, r) ∈ s.recent → Replied s f r.value
  calls : ∀ f v, (f, Returned.resolved v) ∈ s.calls → Replied s f v
  joined : ∀ f i, (f, Returned.promise i) ∈ s.calls → ∃ e : Entry F V, s.entries[i]? = some e ∧ e.fingerprint = f

theorem truthful_init : Truthful (init now : State F V) where
  entries i e v h := by simp [init] at h
  recent f r h := absurd h List.not_mem_nil
  calls f v h := absurd h List.not_mem_nil
  joined f i h := absurd h List.not_mem_nil

/-- All that holds in a session. -/
structure Session (s : State F V) : Prop where
  flight : Flight s
  truthful : Truthful s
  stored : Stored s.lateReplies s.recent s.clock

theorem session_init : Session (init now : State F V) where
  flight := flight_init
  truthful := truthful_init
  stored :=
    { nodup := List.nodup_nil
      sub := List.Sublist.slnil
      few := Nat.zero_le _
      kept := fun newer f r older h => absurd h (by cases newer <;> nofun) }

theorem Session.truthful_step (h : Session s) (hs : Step s a t) : Truthful t := by
  obtain ⟨hstay, hatt⟩ := step_stay hs
  have hmono : ∀ {f : F} {v : V}, Replied s f v → Replied t f v := fun hr => hr.mono hstay fun x hx hraw => hatt x hx _ hraw
  have hjoined : ∀ {f : F} {i : Nat}, (∃ e : Entry F V, s.entries[i]? = some e ∧ e.fingerprint = f) →
      ∃ e : Entry F V, t.entries[i]? = some e ∧ e.fingerprint = f := by
    rintro f i ⟨e, he, rfl⟩
    obtain ⟨e', he', hf, -⟩ := hstay i e he
    exact ⟨e', he', hf⟩
  -- the entries a step leaves or changes without fulfilling them
  have hset : ∀ {l : List (Entry F V)}, (∀ (i : Nat) (e' : Entry F V), l[i]? = some e' → (∃ e : Entry F V, s.entries[i]? = some e ∧
      e'.fingerprint = e.fingerprint ∧ (e'.promise = e.promise ∨ ∀ v, e'.promise ≠ .fulfilled v)) ∨ e'.promise = .pending) →
      ∀ (i : Nat) (e' : Entry F V) (v : V), l[i]? = some e' → e'.promise = .fulfilled v → Replied t e'.fingerprint v := by
    intro l hl i e' v he' hv
    rcases hl i e' he' with ⟨e, he, hf, hp | hp⟩ | hp
    · rw [hf]
      exact hmono (h.truthful.entries i e v he (hp ▸ hv))
    · exact absurd hv (hp v)
    · rw [hp] at hv
      cases hv
  have hone : ∀ {i : Nat} {e d : Entry F V}, s.entries[i]? = some e → d.fingerprint = e.fingerprint →
      (d.promise = e.promise ∨ ∀ v, d.promise ≠ .fulfilled v) → ∀ (j : Nat) (e' : Entry F V), (s.entries.set i d)[j]? = some e' →
      (∃ e : Entry F V, s.entries[j]? = some e ∧ e'.fingerprint = e.fingerprint ∧ (e'.promise = e.promise ∨ ∀ v, e'.promise ≠ .fulfilled v)) ∨
        e'.promise = .pending := by
    intro i e d he hf hp j e' he'
    rw [List.getElem?_set] at he'
    split_ifs at he' with hij
    · cases he'
      exact .inl ⟨e, hij ▸ he, hf, hp⟩
    · exact .inl ⟨e', he', rfl, .inl rfl⟩
  have hsame : ∀ (j : Nat) (e' : Entry F V), s.entries[j]? = some e' →
      (∃ e : Entry F V, s.entries[j]? = some e ∧ e'.fingerprint = e.fingerprint ∧ (e'.promise = e.promise ∨ ∀ v, e'.promise ≠ .fulfilled v)) ∨
        e'.promise = .pending := fun j e' he' => .inl ⟨e', he', rfl, .inl rfl⟩
  rcases step_cases hs with ⟨f, now, rfl, -, rfl⟩ | ⟨i, e, rfl, he, -, rfl⟩ | ⟨x, v, now, i, e, rfl, hx, he, -, rfl⟩ | ⟨x, i, rfl, hx, rfl⟩ |
    ⟨i, e, rfl, he, rfl⟩ | ⟨i, e, rfl, he, rfl⟩ | ⟨i, e, rfl, he, -, rfl⟩
  · rcases rpc_cases s f now with ⟨late, hlate, -, hr⟩ | ⟨m, -, ⟨i, hi, hr⟩ | ⟨-, hr⟩⟩
    · rw [hr] at hmono hjoined hset ⊢
      refine ⟨hset hsame, fun g r hg => hmono (h.truthful.recent g r hg), fun g v hg => ?_, fun g i hg => ?_⟩
      · rcases List.mem_cons.mp hg with hg | hg
        · cases hg
          exact hmono (h.truthful.recent f late (h.stored.mem hlate))
        · exact hmono (h.truthful.calls g v hg)
      · rcases List.mem_cons.mp hg with hg | hg
        · cases hg
        · exact hjoined (h.truthful.joined g i hg)
    · rw [hr] at hmono hjoined hset ⊢
      refine ⟨hset hsame, fun g r hg => hmono (h.truthful.recent g r hg), fun g v hg => ?_, fun g j hg => ?_⟩
      · rcases List.mem_cons.mp hg with hg | hg
        · cases hg
        · exact hmono (h.truthful.calls g v hg)
      · rcases List.mem_cons.mp hg with hg | hg
        · cases hg
          exact hjoined (h.flight.inflight f i hi)
        · exact hjoined (h.truthful.joined g j hg)
    · rw [hr] at hmono hjoined hset ⊢
      refine ⟨hset fun j e' he' => ?_, fun g r hg => hmono (h.truthful.recent g r hg), fun g v hg => ?_, fun g j hg => ?_⟩
      · rw [List.getElem?_append] at he'
        split_ifs at he'
        · exact hsame j e' he'
        · obtain ⟨hlt, rfl⟩ := List.getElem?_eq_some_iff.mp he'
          exact .inr (by simp)
      · rcases List.mem_cons.mp hg with hg | hg
        · cases hg
        · exact hmono (h.truthful.calls g v hg)
      · rcases List.mem_cons.mp hg with hg | hg
        · cases hg
          exact ⟨_, List.getElem?_concat_length, rfl⟩
        · exact hjoined (h.truthful.joined g j hg)
  · exact ⟨hset (hone he rfl (.inl rfl)), fun g r hg => hmono (h.truthful.recent g r hg), fun g v hg => hmono (h.truthful.calls g v hg),
      fun g j hg => hjoined (h.truthful.joined g j hg)⟩
  · -- the reply is one to the fingerprint, and so are the entries it settles
    have hnew : Replied (recordReply { s with attempts := s.attempts.set x ⟨i, .fulfilled v⟩ } e.fingerprint v now) e.fingerprint v := by
      obtain ⟨e', he', hf, -⟩ := hstay i e he
      have hlt := (List.getElem?_eq_some_iff.mp hx).1
      exact ⟨⟨i, .fulfilled v⟩, List.mem_iff_getElem?.mpr ⟨x, by
        show (s.attempts.set x ⟨i, .fulfilled v⟩)[x]? = _
        rw [List.getElem?_set, if_pos rfl, if_pos hlt]⟩, rfl, e', he', hf⟩
    refine ⟨fun j e' w he' hw => ?_, fun g r hg => ?_, fun g w hg => hmono (h.truthful.calls g w hg), fun g j hg => hjoined (h.truthful.joined g j hg)⟩
    · unfold recordReply at he'
      dsimp only at he'
      split at he'
      · next k hk =>
        rw [List.getElem?_modify] at he'
        obtain ⟨d, hd, hde⟩ := Option.map_eq_some_iff.mp he'
        by_cases hkj : k = j
        · rw [if_pos hkj] at hde
          obtain ⟨d', hd', hf⟩ := h.flight.inflight e.fingerprint k hk
          rw [hkj, hd] at hd'
          rw [← hde, settle_fingerprint, Option.some.inj hd', hf]
          rcases settle_promise d (.fulfilled v) with ⟨hp, -⟩ | ⟨hp, -⟩
          · rw [← hde, hp] at hw
            cases hw
            exact hnew
          · rw [← hde, hp] at hw
            have hold := hmono (h.truthful.entries j d w hd hw)
            rwa [Option.some.inj hd', hf] at hold
        · rw [if_neg hkj] at hde
          rw [← hde] at hw ⊢
          exact hmono (h.truthful.entries j d w hd hw)
      · exact hmono (h.truthful.entries j e' w he' hw)
    · rcases List.mem_cons.mp hg with hg | hg
      · cases hg
        exact hnew
      · exact hmono (h.truthful.recent g r (List.mem_filter.mp hg).1)
  · exact ⟨hset hsame, fun g r hg => hmono (h.truthful.recent g r hg), fun g v hg => hmono (h.truthful.calls g v hg),
      fun g j hg => hjoined (h.truthful.joined g j hg)⟩
  · refine ⟨hset (hone he (settle_fingerprint e _) ?_), fun g r hg => hmono (h.truthful.recent g r hg),
      fun g v hg => hmono (h.truthful.calls g v hg), fun g j hg => hjoined (h.truthful.joined g j hg)⟩
    rcases settle_promise e .rejected with ⟨hp, -⟩ | ⟨hp, -⟩
    · exact .inr fun v hv => by
        rw [hp] at hv
        cases hv
    · exact .inl hp
  · exact ⟨hset (hone he rfl (.inl rfl)), fun g r hg => hmono (h.truthful.recent g r hg), fun g v hg => hmono (h.truthful.calls g v hg),
      fun g j hg => hjoined (h.truthful.joined g j hg)⟩
  · exact ⟨hset hsame, fun g r hg => hmono (h.truthful.recent g r hg), fun g v hg => hmono (h.truthful.calls g v hg),
      fun g j hg => hjoined (h.truthful.joined g j hg)⟩

theorem Session.step (h : Session s) (hs : Step s a t) : Session t := by
  refine ⟨h.flight.step hs, h.truthful_step hs, ?_⟩
  rcases step_cases hs with ⟨f, now, rfl, hnow, rfl⟩ | ⟨i, e, rfl, he, -, rfl⟩ | ⟨x, v, now, i, e, rfl, hx, he, hnow, rfl⟩ | ⟨x, i, rfl, hx, rfl⟩ |
    ⟨i, e, rfl, he, rfl⟩ | ⟨i, e, rfl, he, rfl⟩ | ⟨i, e, rfl, he, -, rfl⟩
  · have htick := h.stored.tick hnow
    rcases rpc_cases s f now with ⟨late, -, -, hr⟩ | ⟨m, ⟨-, rfl⟩ | ⟨late, hlate, hold, rfl⟩, ⟨i, -, hr⟩ | ⟨-, hr⟩⟩
    · rw [hr]
      exact htick
    · rw [hr]
      exact htick
    · rw [hr]
      exact htick
    · rw [hr]
      exact htick.expire hlate hold
    · rw [hr]
      exact htick.expire hlate hold
  · exact h.stored
  · exact h.stored.record hnow _
  · exact h.stored
  · exact h.stored
  · exact h.stored
  · exact h.stored

/-! ## Sessions -/

/-- A reply settles the pending request of its fingerprint, whichever attempt it is to. -/
theorem Session.settles (h : Session s) {x : Nat} {v : V} (hs : Step s (.reply x v now) t) :
    ∃ (y : Attempt V) (e : Entry F V), s.attempts[x]? = some y ∧ s.entries[y.entry]? = some e ∧
      ∀ (j : Nat) (d : Entry F V), s.entries[j]? = some d → d.fingerprint = e.fingerprint → d.promise = .pending →
        ∃ d', t.entries[j]? = some d' ∧ d'.promise = .fulfilled v := by
  rcases step_cases hs with ⟨f, now, ha, -⟩ | ⟨i, e, ha, -⟩ | ⟨x, v, now, i, e, ha, hx, he, -, rfl⟩ | ⟨x, i, ha, -⟩ | ⟨i, e, ha, -⟩ | ⟨i, e, ha, -⟩ |
    ⟨i, e, ha, -⟩
  all_goals cases ha
  refine ⟨_, e, hx, he, fun j d hd hf hp => ?_⟩
  have hin := h.flight.pending j d hd hp
  rw [hf] at hin
  refine ⟨d.settle (.fulfilled v), ?_, ?_⟩
  · unfold recordReply
    simp only [hin]
    rw [List.getElem?_modify, hd]
    simp
  · exact (settle_promise d (.fulfilled v)).elim (·.1) fun hno => absurd hp hno.2

/-- A call asks the signer only where no request of the fingerprint is pending, and no reply stands. -/
theorem Session.asks (h : Session s) (hs : Step s (.rpc f now) t) :
    (∀ newer r older, s.recent = newer ++ (f, r) :: older → now - r.time < lateReplyTtlMs → newer.length < maxLateReplies →
      t.calls = (f, .resolved r.value) :: s.calls ∧ t.attempts = s.attempts) ∧
    ∀ (i : Nat) (e : Entry F V), s.entries[i]? = some e → e.fingerprint = f → e.promise = .pending → t.attempts = s.attempts := by
  rcases step_cases hs with ⟨f, now, ha, hnow, rfl⟩ | ⟨i, e, ha, -⟩ | ⟨x, v, now, i, e, ha, -⟩ | ⟨x, i, ha, -⟩ | ⟨i, e, ha, -⟩ | ⟨i, e, ha, -⟩ |
    ⟨i, e, ha, -⟩
  all_goals cases ha
  refine ⟨fun newer r older he hfresh hfew => ?_, fun i e he hf hp => ?_⟩
  · have hget : s.lateReplies.get? f = some r := by
      rcases (h.stored.tick hnow).kept newer f r older he with hk | hk | hk
      · exact hk
      · omega
      · omega
    rcases rpc_cases s f now with ⟨late, hlate, -, hr⟩ | ⟨m, ⟨hnone, -⟩ | ⟨late, hlate, hold, -⟩, -⟩
    · rw [hget] at hlate
      rw [hr, Option.some.inj hlate]
      exact ⟨rfl, rfl⟩
    · rw [hget] at hnone
      cases hnone
    · rw [hget] at hlate
      rw [← Option.some.inj hlate] at hold
      omega
  · have hin := h.flight.pending i e he hp
    rw [hf] at hin
    rcases rpc_cases s f now with ⟨late, -, -, hr⟩ | ⟨m, -, ⟨i, -, hr⟩ | ⟨hnone, -⟩⟩
    · rw [hr]
    · rw [hr]
    · rw [hin] at hnone
      cases hnone

/-- **Requests to the signer**: every answer is the signer's reply to a request of that fingerprint; a fingerprint has one pending request, sent
at most four times; a reply settles it, also one that comes late; and nothing is sent while it is pending, or while one of the last replies
stands, which then is the answer. -/
theorem rpc_answers {acts : List (Act F V)} {begin : Int} (h : Run Step (init begin : State F V) acts s) :
    (∀ f v, (f, Returned.resolved v) ∈ s.calls → Replied s f v) ∧
    (∀ f i, (f, Returned.promise i) ∈ s.calls →
      ∃ e : Entry F V, s.entries[i]? = some e ∧ e.fingerprint = f ∧ ∀ v, e.promise = .fulfilled v → Replied s f v) ∧
    (∀ (i j : Nat) (e d : Entry F V), s.entries[i]? = some e → s.entries[j]? = some d → e.promise = .pending → d.promise = .pending →
      e.fingerprint = d.fingerprint → i = j) ∧
    (∀ i, s.attempts.countP (·.entry = i) ≤ maxRpcResumes + 1) ∧
    s.lateReplies.entries.length ≤ maxLateReplies ∧
    (∀ x v now t, Step s (.reply x v now) t → ∃ (y : Attempt V) (e : Entry F V), s.attempts[x]? = some y ∧ s.entries[y.entry]? = some e ∧
      ∀ (j : Nat) (d : Entry F V), s.entries[j]? = some d → d.fingerprint = e.fingerprint → d.promise = .pending →
        ∃ d', t.entries[j]? = some d' ∧ d'.promise = .fulfilled v) ∧
    ∀ f now t, Step s (.rpc f now) t →
      (∀ newer r older, s.recent = newer ++ (f, r) :: older → now - r.time < lateReplyTtlMs → newer.length < maxLateReplies →
        t.calls = (f, .resolved r.value) :: s.calls ∧ t.attempts = s.attempts) ∧
      ∀ (i : Nat) (e : Entry F V), s.entries[i]? = some e → e.fingerprint = f → e.promise = .pending → t.attempts = s.attempts := by
  have hsession : Session s := h.invariant (fun _ _ _ hs hstep => hs.step hstep) session_init
  refine ⟨hsession.truthful.calls, fun f i hc => ?_, fun i j e d he hd hep hdp hf => ?_, fun i => ?_, hsession.stored.few,
    fun x v now t => hsession.settles, fun f now t => hsession.asks⟩
  · obtain ⟨e, he, rfl⟩ := hsession.truthful.joined f i hc
    exact ⟨e, he, rfl, fun v => hsession.truthful.entries i e v he⟩
  · have hi := hsession.flight.pending i e he hep
    rw [hf, hsession.flight.pending j d hd hdp] at hi
    exact (Option.some.inj hi).symm
  · by_cases hi : i < s.entries.length
    · obtain ⟨hle, hcount⟩ := hsession.flight.attempts i _ (List.getElem?_eq_getElem hi)
      rw [hcount]
      exact Nat.succ_le_succ hle
    · have hnone : s.attempts.countP (·.entry = i) = 0 := List.countP_eq_zero.mpr fun x hx => by
        have hlt := hsession.flight.within x hx
        have hne : x.entry ≠ i := by omega
        simpa using hne
      rw [hnone]
      exact Nat.zero_le _

end

/-- A request that was given up is answered later, and asked again it is not sent. -/
def late : List (Act String Nat) := [.rpc "sign" 0, .giveUp 0, .finish 0, .rpc "sign" 60000, .reply 0 7 90000, .rpc "sign" 100000]

theorem rpc_answers_late : ∃ s : State String Nat, Run Step (init 0) late s ∧ s.attempts.length = 2 ∧ Replied s "sign" 7 ∧
    s.lateReplies.entries.length ≤ maxLateReplies := by
  have hrun : Run Step (init 0 : State String Nat) late _ := Run.of_exec rfl
  have hall := rpc_answers hrun
  exact ⟨_, hrun, rfl, hall.1 "sign" 7 List.mem_cons_self, hall.2.2.2.2.1⟩

end Nostrautica.Nip46Rpc
