/-
The `created_at` of what the coordinator publishes at its addresses
(`nextPublishCreatedAt` of `coordinator/src/store/db.ts`, and `nextCreatedAt`,
`reconcileReplaceable` and the NIP-09 deletions of `coordinator.ts`).

A record takes the stamp of its address; a deletion takes the clock. The
watermarks are durable, so a restart is no act here. Clock readings are
milliseconds, stamps seconds.

The order of deletions and records at an address. A deletion takes the clock
while the stamps of the records may have run ahead of it, so a history is in
order just when every act was `Timely` (`deletions_ordered_iff`).
-/
import Nostrautica.Transition.Run

namespace Nostrautica.Stamps

/-- Something the coordinator published: a record at its address, or a deletion
that names addresses. -/
inductive Entry (A : Type*)
  | published (address : A) (created_at : Int)
  | deleted (addresses : List A) (created_at : Int)
  deriving DecidableEq

/-- `publish_watermarks`, and what was published, oldest first. -/
structure Store (A : Type*) where
  /-- `last_created_at`. -/
  watermarks : A → Option Int
  history : List (Entry A)

namespace Store

variable {A : Type*} [DecidableEq A]

/-- A database with the watermarks of earlier publishes. -/
def fresh (watermarks : A → Option Int) : Store A := ⟨watermarks, []⟩

/-- The value of `nextPublishCreatedAt`. -/
def next (s : Store A) (address : A) (now : Int) : Int :=
  match s.watermarks address with
  | some last => max now (last + 1)
  | none => now

/-- `nextPublishCreatedAt`: the next value, which is kept. -/
def nextPublishCreatedAt (s : Store A) (address : A) (now : Int) : Int × Store A :=
  (s.next address now, { s with watermarks := Function.update s.watermarks address (some (s.next address now)) })

/-- What is handed to the relays. -/
def publish (s : Store A) (e : Entry A) : Store A := { s with history := s.history ++ [e] }

end Store

/-- What happens to an address: `now` is the clock's reading. -/
inductive Act (A : Type*)
  /-- A record is built and published. -/
  | publish (address : A) (now : Int)
  /-- A record is built, and the process ends before it is published. -/
  | abandon (address : A) (now : Int)
  /-- A deletion: of `revokeAttendee`, `deleteTalkEntry`, `deleteMatrix` or
  `expireRetention`, which reads the clock before its awaits. -/
  | delete (addresses : List A) (now : Int)
  /-- `reconcileReplaceable` of a record of ours found a newest one. `lower` is
  that the id of the newest one is the lower of the two. -/
  | reconcile (address : A) (ours newest : Int) (lower : Bool)

/-- `Math.floor(this.now() / 1000)`. -/
def seconds (now : Int) : Int := now / 1000

/-- `supersedes`, of the newest record over ours. -/
def supersedes (newest ours : Int) (lower : Bool) : Bool := newest > ours || newest = ours && lower

section

variable {A : Type*} [DecidableEq A]

/-- What one act makes of the store; `none` where it cannot happen. -/
def act (s : Store A) : Act A → Option (Store A)
  | .publish address now =>
    let (created_at, s) := s.nextPublishCreatedAt address (seconds now)
    some (s.publish (.published address created_at))
  | .abandon address now => some (s.nextPublishCreatedAt address (seconds now)).2
  | .delete addresses now => some (s.publish (.deleted addresses (seconds now)))
  | .reconcile address ours newest lower =>
    if .published address ours ∈ s.history then
      if supersedes newest ours lower then some (s.nextPublishCreatedAt address newest).2
      else some (s.publish (.published address ours))
    else none

def Step (s : Store A) (x : Act A) (s' : Store A) : Prop := act s x = some s'

/-- A deletion reaches the records before it at the addresses it names, and no
record after it. -/
def InOrder : Entry A → Entry A → Prop
  | .published address created_at, .deleted addresses deleted_at => address ∈ addresses → created_at ≤ deleted_at
  | .deleted addresses deleted_at, .published address created_at => address ∈ addresses → deleted_at < created_at
  | _, _ => True

/-- Every two entries of a history are in order. -/
def Ordered (history : List (Entry A)) : Prop := history.Pairwise InOrder

end

/-! ## The order of deletions and records -/

set_option linter.unusedSectionVars false

variable {A : Type*} [DecidableEq A] {s s' : Store A} {x : Act A} {xs : List (Act A)} {e : Entry A} {a : A} {now t : Int}

/-- A stamp is later than `t` where the clock is, or the watermark has reached it. -/
theorem Store.lt_next : t < s.next a now ↔ t < now ∨ ∃ last, s.watermarks a = some last ∧ t ≤ last := by
  simp only [Store.next]
  split
  next last h => simp [h]
  next h => simp [h]

/-! ## Timely acts -/

/-- The deletions of an address so far are earlier than `P`. -/
def DeletedBefore (s : Store A) (a : A) (P : Int → Prop) : Prop := ∀ as t, .deleted as t ∈ s.history → a ∈ as → P t

/-- A deletion finds no record of an address it names stamped ahead of the
clock; a record is built when the clock has passed the second of each deletion
of its address, or the watermark has reached it; and a record is published
again only when it is later than each deletion of its address. -/
def Timely (s : Store A) : Act A → Prop
  | .publish a now => DeletedBefore s a fun t => t < seconds now ∨ ∃ last, s.watermarks a = some last ∧ t ≤ last
  | .abandon .. => True
  | .delete as now => ∀ a t, .published a t ∈ s.history → a ∈ as → t ≤ seconds now
  | .reconcile a ours newest lower => supersedes newest ours lower = false → DeletedBefore s a (· < ours)

theorem ordered_publish : Ordered (s.publish e).history ↔ Ordered s.history ∧ ∀ d ∈ s.history, InOrder d e := by
  simp [Ordered, Store.publish, List.pairwise_append]

/-- A record is in order behind a history where it is later than the deletions of its address. -/
theorem inOrder_published : (∀ d ∈ s.history, InOrder d (.published a t)) ↔ DeletedBefore s a (· < t) := by
  constructor
  · exact fun h as t' hd ha => h _ hd ha
  · intro h d hd
    cases d with
    | published => trivial
    | deleted as t' => exact h as t' hd

/-- A deletion is in order behind a history where the records it names are no later. -/
theorem inOrder_deleted {as : List A} :
    (∀ d ∈ s.history, InOrder d (.deleted as t)) ↔ ∀ a t', .published a t' ∈ s.history → a ∈ as → t' ≤ t := by
  constructor
  · exact fun h a t' hd ha => h _ hd ha
  · intro h d hd
    cases d with
    | published a t' => exact h a t' hd
    | deleted => trivial

/-- **An act keeps the order just when it is timely.** -/
theorem ordered_step (hx : Step s x s') : Ordered s'.history ↔ Ordered s.history ∧ Timely s x := by
  cases x with
  | publish a now =>
    cases hx
    rw [ordered_publish, inOrder_published]
    refine and_congr_right fun _ => ?_
    exact forall₄_congr fun as t _ _ => Store.lt_next
  | abandon a now =>
    cases hx
    exact ⟨fun h => ⟨h, trivial⟩, fun h => h.1⟩
  | delete as now =>
    cases hx
    rw [ordered_publish, inOrder_deleted]
    rfl
  | reconcile a ours newest lower =>
    simp only [Step, act] at hx
    split at hx
    · split at hx
      next hs =>
        cases hx
        exact ⟨fun h => ⟨h, fun hn => by simp [hs] at hn⟩, fun h => h.1⟩
      next hs =>
        cases hx
        rw [ordered_publish, inOrder_published]
        refine and_congr_right fun _ => ⟨fun h _ => h, fun h => h ?_⟩
        simpa using hs
    · cases hx

/-- **Deletions are in order with the records of their addresses** after a run
just when every act of it was timely. -/
theorem deletions_ordered_iff {watermarks : A → Option Int} (h : Run Step (.fresh watermarks) xs s) :
    Ordered s.history ↔ Run (fun s x s' => Step s x s' ∧ Timely s x) (.fresh watermarks) xs s := by
  have hiff := h.holds_iff (I := fun _ => True) (Q := fun s => Ordered s.history) (G := Timely)
    (fun h₁ h₂ => Option.some.inj (h₁.symm.trans h₂)) (fun _ _ => trivial) (fun _ hx => ordered_step hx) trivial
  rw [hiff]
  exact and_iff_right List.Pairwise.nil

/-- A record, its deletion in the same second, and a record a second later. -/
theorem deletions_ordered_iff_quietAddress : Ordered [.published 0 5, .deleted [0] 5, .published 0 6] := by
  have h : Run (fun s x s' => Step s x s' ∧ Timely s x) (.fresh fun _ : Nat => none)
      [.publish 0 5000, .delete [0] 5400, .publish 0 6000]
      ⟨Function.update (Function.update (fun _ => none) 0 (some 5)) 0 (some 6),
        [.published 0 5, .deleted [0] 5, .published 0 6]⟩ := by
    refine .cons ⟨rfl, ?_⟩ (.cons ⟨rfl, ?_⟩ (.cons ⟨rfl, ?_⟩ .nil))
    · rintro as t (_ | _)
    · rintro a t hmem -
      cases List.mem_singleton.mp hmem
      decide
    · rintro as t hmem -
      rcases List.mem_cons.mp hmem with hmem | hmem
      · cases hmem
      · cases List.mem_singleton.mp hmem
        exact .inl (by decide)
  exact (deletions_ordered_iff (h.mono fun _ _ _ hx => hx.1)).mpr h

/-- Two records in one second: the stamp of the second is ahead of the clock,
and a deletion in that second does not reach it. -/
theorem deletions_ordered_busyAddress : ∃ xs s, Run Step (.fresh fun _ : Nat => none) xs s ∧ ¬ Ordered s.history := by
  refine ⟨[.publish 0 5000, .publish 0 5000, .delete [0] 5000], _, .cons rfl (.cons rfl (.cons rfl .nil)), fun h => ?_⟩
  have hle := (List.pairwise_cons.mp (List.pairwise_cons.mp h).2).1 _ (.head _)
  exact absurd (hle (.head _)) (by decide)

end Nostrautica.Stamps
