/-
The rate gate of the public inboxes: `inboxRateAllows` of `coordinator/src/coordinator.ts` over
`bumpInboxRate` and `peekInboxRate` of `coordinator/src/store/db.ts`. A bucket is counted in fixed
windows, under a pubkey or, for a whole inbox, under the empty one.

No sender and no inbox gets more than its cap in a window, and what some senders send over theirs
does not turn others away (`gate_bounds`).
-/
import Nostrautica.Js.Text
import Nostrautica.Sql.Keyed

namespace Nostrautica.InboxRate

open Js Sql

/-- `INBOX_RATE_WINDOW_MS`. -/
def windowMs : Nat := 60000

/-- `MAX_RUMORS_PER_SENDER_WINDOW`. -/
def maxRumorsPerSender : Nat := 30

/-- `MAX_RUMORS_PER_EVENT_WINDOW`. -/
def maxRumorsPerEvent : Nat := 600

/-- `RUMORS_PER_ATTENDEE_WINDOW`. -/
def rumorsPerAttendee : Nat := 4

/-- `COORD_INBOX_RATE_KEY`. -/
def coordInboxRateKey : JsString := js "coordinator-inbox"

/-- `now - (now % windowMs)`. -/
def windowStart (now : Nat) : Nat := now - now % windowMs

structure RateRow where
  window_start : Nat
  count : Nat

/-- PRIMARY KEY (coordinate, pubkey). -/
abbrev Table := Keyed (JsString × JsString) RateRow

/-- `peekInboxRate(coordinate, pubkey, now, windowMs)`. -/
def peekInboxRate (t : Table) (coordinate pubkey : JsString) (now : Nat) : Nat :=
  match t.get? (coordinate, pubkey) with
  | some row => if row.window_start = windowStart now then row.count else 0
  | none => 0

/-- `bumpInboxRate(coordinate, pubkey, now, windowMs)`. -/
def bumpInboxRate (t : Table) (coordinate pubkey : JsString) (now : Nat) : Nat × Table :=
  let count :=
    match t.get? (coordinate, pubkey) with
    | some row => if row.window_start = windowStart now then row.count + 1 else 1
    | none => 1
  (count, t.upsert (coordinate, pubkey) fun _ => ⟨windowStart now, count⟩)

/-- `eventRumorBudget(coordinate)`, with the attendees there are. -/
def eventRumorBudget (coordinate : JsString) (enrolled : Nat) : Nat :=
  if coordinate = coordInboxRateKey then maxRumorsPerEvent else maxRumorsPerEvent + enrolled * rumorsPerAttendee

/-- A rumor at the gate. -/
structure Rumor where
  coordinate : JsString
  sender : JsString
  /-- The identity of an installed event, with an admin command. -/
  organizer : Bool
  now : Nat
  /-- `attendeeCount(coordinate)` at that time. -/
  enrolled : Nat

/-- `` `${coordinate}:organizer` ``. -/
def organizerKey (coordinate : JsString) : JsString := coordinate ++ js ":organizer"

/-- `inboxRateAllows(coordinate, senderPubkey, organizer)`. -/
def inboxRateAllows (t : Table) (r : Rumor) : Bool × Table :=
  if r.organizer then
    let own := bumpInboxRate t (organizerKey r.coordinate) r.sender r.now
    (own.1 ≤ maxRumorsPerEvent, own.2)
  else if maxRumorsPerSender ≤ peekInboxRate t r.coordinate r.sender r.now then (false, t)
  else
    let event := bumpInboxRate t r.coordinate [] r.now
    if eventRumorBudget r.coordinate r.enrolled < event.1 then (false, event.2)
    else
      let sender := bumpInboxRate event.2 r.coordinate r.sender r.now
      (sender.1 ≤ maxRumorsPerSender, sender.2)

/-- The table, and the rumors with what the gate said, the newest first. -/
structure State where
  table : Table
  log : List (Rumor × Bool)

def gate (s : State) (r : Rumor) : State :=
  let out := inboxRateAllows s.table r
  ⟨out.2, (r, out.1) :: s.log⟩

/-- The state after some rumors. -/
def after (rumors : List Rumor) : State := rumors.foldl gate ⟨Keyed.empty, []⟩

/-! ## What is counted -/

/-- An ordinary rumor to an inbox in a window. -/
def Ordinary (coordinate : JsString) (w : Nat) (r : Rumor) : Bool := !r.organizer && r.coordinate = coordinate && windowStart r.now = w

/-- Those of a sender. -/
def OrdinaryOf (coordinate sender : JsString) (w : Nat) (r : Rumor) : Bool := Ordinary coordinate w r && r.sender = sender

/-- Those of an organizer. -/
def OrganizerOf (coordinate sender : JsString) (w : Nat) (r : Rumor) : Bool :=
  r.organizer && r.coordinate = coordinate && r.sender = sender && windowStart r.now = w

/-- The admitted ones of some rumors. -/
def admitted (p : Rumor → Bool) (log : List (Rumor × Bool)) : Nat := log.countP fun e => p e.1 && e.2

/-- The rumors of an inbox and a window that are among the first of their sender there. -/
def firsts (coordinate : JsString) (w : Nat) : List Rumor → Nat
  | [] => 0
  | r :: older =>
    firsts coordinate w older +
      if Ordinary coordinate w r && decide (older.countP (OrdinaryOf coordinate r.sender w) < maxRumorsPerSender) then 1 else 0

/-! ## Buckets -/

section

variable {t : Table} {bumps : List ((JsString × JsString) × Nat)} {w now : Nat}

theorem windowStart_mono {a b : Nat} (h : a ≤ b) : windowStart a ≤ windowStart b := by
  unfold windowStart windowMs
  omega

/-- A bucket's count in a window. -/
def countIn (t : Table) (k : JsString × JsString) (v : Nat) : Nat :=
  match t.get? k with
  | some row => if row.window_start = v then row.count else 0
  | none => 0

/-- The table counts these bumps, from the window `w` on. -/
structure Counted (t : Table) (bumps : List ((JsString × JsString) × Nat)) (w : Nat) : Prop where
  past : ∀ b ∈ bumps, b.2 ≤ w
  count : ∀ k v, w ≤ v → countIn t k v = bumps.count (k, v)

theorem counted_empty : Counted Keyed.empty [] 0 := ⟨fun _ h => absurd h List.not_mem_nil, fun _ _ _ => rfl⟩

theorem Counted.later (h : Counted t bumps w) {v : Nat} (hv : w ≤ v) : Counted t bumps v :=
  ⟨fun b hb => (h.past b hb).trans hv, fun k u hu => h.count k u (hv.trans hu)⟩

theorem Counted.peek (h : Counted t bumps w) (coordinate pubkey : JsString) (hw : w ≤ windowStart now) :
    peekInboxRate t coordinate pubkey now = bumps.count ((coordinate, pubkey), windowStart now) := h.count _ _ hw

theorem Counted.bump (h : Counted t bumps w) (coordinate pubkey : JsString) (hw : w ≤ windowStart now) :
    (bumpInboxRate t coordinate pubkey now).1 = bumps.count ((coordinate, pubkey), windowStart now) + 1 ∧
    Counted (bumpInboxRate t coordinate pubkey now).2 (((coordinate, pubkey), windowStart now) :: bumps) (windowStart now) := by
  have hone : (bumpInboxRate t coordinate pubkey now).1 = bumps.count ((coordinate, pubkey), windowStart now) + 1 := by
    rw [← h.count _ _ hw]
    unfold bumpInboxRate countIn
    dsimp only
    cases t.get? (coordinate, pubkey) with
    | none => rfl
    | some row =>
      dsimp only
      split <;> rfl
  refine ⟨hone, fun b hb => ?_, fun k v hv => ?_⟩
  · rcases List.mem_cons.mp hb with rfl | hb
    · exact le_rfl
    · exact (h.past b hb).trans hw
  · have hget : (bumpInboxRate t coordinate pubkey now).2.get? k =
        if (coordinate, pubkey) = k then some ⟨windowStart now, (bumpInboxRate t coordinate pubkey now).1⟩ else t.get? k := Keyed.get?_upsert
    unfold countIn
    rw [hget, List.count_cons]
    by_cases hk : (coordinate, pubkey) = k
    · subst hk
      rw [if_pos rfl]
      dsimp only
      by_cases hv' : windowStart now = v
      · subst hv'
        rw [if_pos rfl, hone, if_pos (by simp)]
      · -- no bump is of a later window
        have hnone : bumps.count ((coordinate, pubkey), v) = 0 := List.count_eq_zero.mpr fun hm => by
          have hle := h.past _ hm
          dsimp only at hle
          omega
        rw [if_neg hv', hnone, if_neg (by simpa using hv')]
    · rw [if_neg hk, if_neg (by simpa using fun h => absurd h hk), ← h.count k v (hw.trans hv)]
      rfl

end

/-! ## The gate -/

section

variable {s : State} {r : Rumor} {bumps : List ((JsString × JsString) × Nat)} {w : Nat} {rumors : List Rumor}

/-- How often a bucket was bumped in the rumor's window. -/
def bumped (bumps : List ((JsString × JsString) × Nat)) (r : Rumor) (k : JsString × JsString) : Nat := bumps.count (k, windowStart r.now)

/-- What the gate bumps for a rumor, and what it says. -/
inductive Passed (bumps : List ((JsString × JsString) × Nat)) (r : Rumor) : List ((JsString × JsString) × Nat) → Bool → Prop
  | organizer {b : Bool} (kind : r.organizer = true) (room : b = true → bumped bumps r (organizerKey r.coordinate, r.sender) < maxRumorsPerEvent) :
    Passed bumps r [((organizerKey r.coordinate, r.sender), windowStart r.now)] b
  | senderOver (kind : r.organizer = false) (full : maxRumorsPerSender ≤ bumped bumps r (r.coordinate, r.sender)) : Passed bumps r [] false
  | inboxOver (kind : r.organizer = false) (room : bumped bumps r (r.coordinate, r.sender) < maxRumorsPerSender)
    (full : eventRumorBudget r.coordinate r.enrolled ≤ bumped bumps r (r.coordinate, [])) :
    Passed bumps r [((r.coordinate, []), windowStart r.now)] false
  | through {b : Bool} (kind : r.organizer = false) (room : bumped bumps r (r.coordinate, r.sender) < maxRumorsPerSender)
    (inbox : bumped bumps r (r.coordinate, []) < eventRumorBudget r.coordinate r.enrolled) (admits : r.sender ≠ [] → b = true) :
    Passed bumps r [((r.coordinate, r.sender), windowStart r.now), ((r.coordinate, []), windowStart r.now)] b

theorem gate_passed (h : Counted s.table bumps w) (hw : w ≤ windowStart r.now) :
    ∃ new b, (gate s r).log = (r, b) :: s.log ∧ Counted (gate s r).table (new ++ bumps) (windowStart r.now) ∧ Passed bumps r new b := by
  have hpeek := h.peek r.coordinate r.sender hw
  have hbump := fun coordinate pubkey => h.bump coordinate pubkey hw
  unfold gate inboxRateAllows
  by_cases ho : r.organizer = true
  · rw [if_pos ho]
    obtain ⟨hone, hcounted⟩ := hbump (organizerKey r.coordinate) r.sender
    refine ⟨_, _, rfl, hcounted, .organizer ho fun hb => ?_⟩
    have hle := of_decide_eq_true hb
    rw [hone] at hle
    exact hle
  · have ho' : r.organizer = false := by simpa using ho
    rw [if_neg ho]
    by_cases hs : maxRumorsPerSender ≤ peekInboxRate s.table r.coordinate r.sender r.now
    · rw [if_pos hs]
      exact ⟨[], false, rfl, h.later hw, .senderOver ho' (hs.trans_eq hpeek)⟩
    · rw [if_neg hs]
      have hroom : bumped bumps r (r.coordinate, r.sender) < maxRumorsPerSender := by
        unfold bumped
        omega
      obtain ⟨hevent, hcounted⟩ := hbump r.coordinate []
      dsimp only
      by_cases he : eventRumorBudget r.coordinate r.enrolled < (bumpInboxRate s.table r.coordinate [] r.now).1
      · rw [if_pos he]
        refine ⟨_, false, rfl, hcounted, .inboxOver ho' hroom ?_⟩
        unfold bumped
        omega
      · rw [if_neg he]
        obtain ⟨hsender, hcounted'⟩ := hcounted.bump r.coordinate r.sender (le_refl (windowStart r.now))
        refine ⟨[_, _], _, rfl, hcounted', .through ho' hroom ?_ fun hne => ?_⟩
        · unfold bumped
          omega
        · have hkey : ((r.coordinate, ([] : JsString)), windowStart r.now) ≠ ((r.coordinate, r.sender), windowStart r.now) := fun h =>
            hne (congrArg (·.1.2) h).symm
          rw [hsender, List.count_cons_of_ne hkey]
          unfold bumped at hroom
          exact decide_eq_true hroom

/-! ## Bounds -/

variable {log : List (Rumor × Bool)} {c p : JsString} {v : Nat} {b : Bool}

/-- What the gate admitted is within what it counted, and within the caps. -/
structure Bounded (log : List (Rumor × Bool)) (bumps : List ((JsString × JsString) × Nat)) : Prop where
  sender : ∀ c p v, admitted (OrdinaryOf c p v) log ≤ bumps.count ((c, p), v) ∧ admitted (OrdinaryOf c p v) log ≤ maxRumorsPerSender
  inbox : ∀ c v, admitted (Ordinary c v) log ≤ bumps.count ((c, []), v) ∧
    ∀ B, (∀ e ∈ log, Ordinary c v e.1 = true → eventRumorBudget c e.1.enrolled ≤ B) → admitted (Ordinary c v) log ≤ B
  organizer : ∀ c p v, admitted (OrganizerOf c p v) log ≤ bumps.count ((organizerKey c, p), v) ∧ admitted (OrganizerOf c p v) log ≤ maxRumorsPerEvent

theorem admitted_cons {q : Rumor → Bool} : admitted q ((r, b) :: log) = admitted q log + if q r && b then 1 else 0 := by
  unfold admitted
  rw [List.countP_cons]

theorem ordinary_iff : Ordinary c v r = true ↔ r.organizer = false ∧ r.coordinate = c ∧ windowStart r.now = v := by
  simp [Ordinary, and_assoc]

theorem ordinaryOf_iff : OrdinaryOf c p v r = true ↔ r.organizer = false ∧ r.coordinate = c ∧ windowStart r.now = v ∧ r.sender = p := by
  simp [OrdinaryOf, ordinary_iff, and_assoc]

theorem organizerOf_iff : OrganizerOf c p v r = true ↔ r.organizer = true ∧ r.coordinate = c ∧ r.sender = p ∧ windowStart r.now = v := by
  simp [OrganizerOf, and_assoc]

/-- One rumor more, where its bucket has a bump more if it is admitted, and had room. -/
theorem admitted_step {q : Rumor → Bool} (new : List ((JsString × JsString) × Nat)) {k : (JsString × JsString) × Nat} (cap : Nat)
    (h : admitted q log ≤ bumps.count k ∧ admitted q log ≤ cap) (hnew : q r = true → b = true → k ∈ new ∧ bumps.count k < cap) :
    admitted q ((r, b) :: log) ≤ (new ++ bumps).count k ∧ admitted q ((r, b) :: log) ≤ cap := by
  rw [admitted_cons, List.count_append]
  by_cases hq : (q r && b) = true
  · rw [if_pos hq]
    rw [Bool.and_eq_true] at hq
    obtain ⟨hin, hlt⟩ := hnew hq.1 hq.2
    have hpos := List.count_pos_iff.mpr hin
    omega
  · rw [if_neg hq]
    omega

theorem Bounded.step {new : List ((JsString × JsString) × Nat)} (h : Bounded log bumps) (hp : Passed bumps r new b) :
    Bounded ((r, b) :: log) (new ++ bumps) where
  sender c p v := by
    refine admitted_step new _ (h.sender c p v) fun hq hb => ?_
    obtain ⟨ho, rfl, rfl, rfl⟩ := ordinaryOf_iff.mp hq
    cases hp with
    | organizer kind => rw [ho] at kind; cases kind
    | senderOver => cases hb
    | inboxOver => cases hb
    | through kind room => exact ⟨List.mem_cons_self, room⟩
  inbox c v := by
    refine ⟨?_, fun B hB => ?_⟩
    · refine (admitted_step new (admitted (Ordinary c v) log + bumps.count ((c, []), v) + 1) ⟨(h.inbox c v).1, by omega⟩ fun hq hb => ?_).1
      obtain ⟨ho, rfl, rfl⟩ := ordinary_iff.mp hq
      cases hp with
      | organizer kind => rw [ho] at kind; cases kind
      | senderOver => cases hb
      | inboxOver => cases hb
      | through => exact ⟨List.mem_cons_of_mem _ List.mem_cons_self, by omega⟩
    · have hold := (h.inbox c v).2 B fun e he => hB e (List.mem_cons_of_mem _ he)
      refine (admitted_step new B ⟨(h.inbox c v).1, hold⟩ fun hq hb => ?_).2
      have hle := hB (r, b) List.mem_cons_self hq
      obtain ⟨ho, rfl, rfl⟩ := ordinary_iff.mp hq
      cases hp with
      | organizer kind => rw [ho] at kind; cases kind
      | senderOver => cases hb
      | inboxOver => cases hb
      | through kind room inbox => exact ⟨List.mem_cons_of_mem _ List.mem_cons_self, inbox.trans_le hle⟩
  organizer c p v := by
    refine admitted_step new _ (h.organizer c p v) fun hq hb => ?_
    obtain ⟨ho, rfl, rfl, rfl⟩ := organizerOf_iff.mp hq
    cases hp with
    | organizer kind room => exact ⟨List.mem_cons_self, room hb⟩
    | senderOver kind => rw [ho] at kind; cases kind
    | inboxOver kind => rw [ho] at kind; cases kind
    | through kind => rw [ho] at kind; cases kind

/-! ## Fairness -/

/-- While an inbox has room for the first rumors of each sender, they are what it counts, and they pass. -/
structure Fair (c : JsString) (v : Nat) (log : List (Rumor × Bool)) (bumps : List ((JsString × JsString) × Nat)) : Prop where
  inbox : bumps.count ((c, []), v) = firsts c v (log.map (·.1))
  sender : ∀ p, p ≠ [] → bumps.count ((c, p), v) = min ((log.map (·.1)).countP (OrdinaryOf c p v)) maxRumorsPerSender
  passed : ∀ newer r b older, log = newer ++ (r, b) :: older → Ordinary c v r = true →
    (older.map (·.1)).countP (OrdinaryOf c r.sender v) < maxRumorsPerSender → b = true

/-- A rumor elsewhere changes nothing. -/
theorem Fair.other {new : List ((JsString × JsString) × Nat)} (h : Fair c v log bumps) (hr : Ordinary c v r = false)
    (hnew : ∀ p, ((c, p), v) ∉ new) : Fair c v ((r, b) :: log) (new ++ bumps) where
  inbox := by
    rw [List.count_append, List.count_eq_zero.mpr (hnew _), Nat.zero_add, h.inbox, List.map_cons, firsts, hr]
    rfl
  sender p hp := by
    have hof : OrdinaryOf c p v r = false := by
      unfold OrdinaryOf
      rw [hr]
      rfl
    rw [List.count_append, List.count_eq_zero.mpr (hnew _), Nat.zero_add, h.sender p hp, List.map_cons, List.countP_cons_of_neg (by rw [hof]; decide)]
  passed newer r' b' older he hr' hfew := by
    cases newer with
    | nil =>
      cases he
      rw [hr] at hr'
      cases hr'
    | cons e newer => exact h.passed newer r' b' older (List.cons.inj he).2 hr' hfew

theorem Fair.step {new : List ((JsString × JsString) × Nat)} (h : Fair c v log bumps) (hp : Passed bumps r new b) (hsender : r.sender ≠ [])
    (horg : r.organizer = true → organizerKey r.coordinate ≠ c) (hroom : firsts c v (((r, b) :: log).map (·.1)) ≤ maxRumorsPerEvent) :
    Fair c v ((r, b) :: log) (new ++ bumps) := by
  by_cases hr : Ordinary c v r = true
  · obtain ⟨ho, rfl, rfl⟩ := ordinary_iff.mp hr
    have hof : ∀ p, OrdinaryOf r.coordinate p (windowStart r.now) r = decide (r.sender = p) := by
      intro p
      unfold OrdinaryOf
      rw [hr, Bool.true_and]
    have hcount : ∀ p, (((r, b) :: log).map (·.1)).countP (OrdinaryOf r.coordinate p (windowStart r.now)) =
        (log.map (·.1)).countP (OrdinaryOf r.coordinate p (windowStart r.now)) + if r.sender = p then 1 else 0 := by
      intro p
      rw [List.map_cons, List.countP_cons, hof]
      simp only [decide_eq_true_eq]
    have hown := h.sender r.sender hsender
    have hfirsts : firsts r.coordinate (windowStart r.now) (((r, b) :: log).map (·.1)) = firsts r.coordinate (windowStart r.now) (log.map (·.1)) +
        if (log.map (·.1)).countP (OrdinaryOf r.coordinate r.sender (windowStart r.now)) < maxRumorsPerSender then 1 else 0 := by
      rw [List.map_cons, firsts, hr, Bool.true_and]
      simp only [decide_eq_true_eq]
    cases hp with
    | organizer kind => rw [ho] at kind; cases kind
    | senderOver kind full =>
      -- past the first rumors of its sender
      unfold bumped at full
      have hmany : ¬ (log.map (·.1)).countP (OrdinaryOf r.coordinate r.sender (windowStart r.now)) < maxRumorsPerSender := by omega
      refine ⟨?_, fun p hp => ?_, fun newer r' b' older he hr' hfew => ?_⟩
      · rw [hfirsts, if_neg hmany]
        exact h.inbox
      · rw [hcount, List.nil_append, h.sender p hp]
        by_cases hpr : r.sender = p
        · rw [if_pos hpr, ← hpr]
          omega
        · rw [if_neg hpr, Nat.add_zero]
      · cases newer with
        | nil =>
          cases he
          exact absurd hfew hmany
        | cons e newer => exact h.passed newer r' b' older (List.cons.inj he).2 hr' hfew
    | inboxOver kind room full =>
      unfold bumped at room full
      have hfew : (log.map (·.1)).countP (OrdinaryOf r.coordinate r.sender (windowStart r.now)) < maxRumorsPerSender := by omega
      rw [hfirsts, if_pos hfew, ← h.inbox] at hroom
      have hbudget : maxRumorsPerEvent ≤ eventRumorBudget r.coordinate r.enrolled := by
        unfold eventRumorBudget
        split <;> omega
      omega
    | through kind room inbox admits =>
      unfold bumped at room
      have hfew : (log.map (·.1)).countP (OrdinaryOf r.coordinate r.sender (windowStart r.now)) < maxRumorsPerSender := by omega
      have hkey : ((r.coordinate, r.sender), windowStart r.now) ≠ ((r.coordinate, ([] : JsString)), windowStart r.now) := fun h =>
        hsender (congrArg (·.1.2) h)
      refine ⟨?_, fun p hp => ?_, fun newer r' b' older he hr' hfew' => ?_⟩
      · rw [hfirsts, if_pos hfew, List.cons_append, List.count_cons_of_ne hkey, List.cons_append, List.count_cons_self, List.nil_append, h.inbox]
      · have hne : ((r.coordinate, ([] : JsString)), windowStart r.now) ≠ ((r.coordinate, p), windowStart r.now) := fun h =>
          hp (congrArg (·.1.2) h).symm
        rw [hcount, List.cons_append, List.count_cons, List.cons_append, List.count_cons_of_ne hne, List.nil_append, h.sender p hp]
        by_cases hpr : r.sender = p
        · subst hpr
          rw [if_pos (by simp), if_pos rfl]
          omega
        · rw [if_neg (by simpa using hpr), if_neg hpr, Nat.add_zero, Nat.add_zero]
      · cases newer with
        | nil =>
          cases he
          exact admits hsender
        | cons e newer => exact h.passed newer r' b' older (List.cons.inj he).2 hr' hfew'
  · rw [Bool.not_eq_true] at hr
    refine h.other hr fun p hmem => ?_
    have hno : ∀ {k : JsString}, r.organizer = false → ((c, p), v) = ((r.coordinate, k), windowStart r.now) → False := by
      intro k ho he
      cases he
      rw [ordinary_iff.mpr ⟨ho, rfl, rfl⟩] at hr
      cases hr
    cases hp with
    | organizer kind =>
      have he := List.mem_singleton.mp hmem
      exact horg kind (congrArg (·.1.1) he).symm
    | senderOver => cases hmem
    | inboxOver kind => exact hno kind (List.mem_singleton.mp hmem)
    | through kind =>
      rcases List.mem_cons.mp hmem with he | hmem
      · exact hno kind he
      · exact hno kind (List.mem_singleton.mp hmem)

/-! ## Runs -/

theorem after_snoc : after (rumors ++ [r]) = gate (after rumors) r := by
  unfold after
  rw [List.foldl_append]
  rfl

/-- What holds after some rumors, the clock not going back. -/
theorem after_spec (h : rumors.Pairwise fun a b => a.now ≤ b.now) : ∃ bumps w, Counted (after rumors).table bumps w ∧
    (∀ t, (∀ r ∈ rumors, r.now ≤ t) → w ≤ windowStart t) ∧ (after rumors).log.map (·.1) = rumors.reverse ∧ Bounded (after rumors).log bumps ∧
    ∀ c v, (∀ r ∈ rumors, r.sender ≠ []) → (∀ r ∈ rumors, r.organizer = true → organizerKey r.coordinate ≠ c) →
      firsts c v rumors.reverse ≤ maxRumorsPerEvent → Fair c v (after rumors).log bumps := by
  induction rumors using List.reverseRecOn with
  | nil =>
    refine ⟨[], 0, counted_empty, fun t _ => Nat.zero_le _, rfl, ⟨fun c p v => ⟨Nat.zero_le _, Nat.zero_le _⟩, fun c v =>
      ⟨Nat.zero_le _, fun B _ => Nat.zero_le _⟩, fun c p v => ⟨Nat.zero_le _, Nat.zero_le _⟩⟩, fun c v _ _ _ => ⟨rfl, fun p _ => rfl, ?_⟩⟩
    intro newer r b older he
    exact absurd he (by cases newer <;> nofun)
  | append_singleton l r ih =>
    obtain ⟨hl, -, hlast⟩ := List.pairwise_append.mp h
    obtain ⟨bumps, w, hcounted, hw, hlog, hbounded, hfair⟩ := ih hl
    have hlast : ∀ a ∈ l, a.now ≤ r.now := fun a ha => hlast a ha r List.mem_cons_self
    obtain ⟨new, b, hnew, hcounted', hpassed⟩ := gate_passed hcounted (hw r.now hlast)
    have hrev : (l ++ [r]).reverse = r :: l.reverse := List.reverse_concat ..
    rw [after_snoc, hrev, hnew]
    refine ⟨new ++ bumps, windowStart r.now, hcounted', fun t ht => windowStart_mono (ht r (List.mem_append_right _ List.mem_cons_self)), ?_,
      hbounded.step hpassed, fun c v hsender horg hroom => ?_⟩
    · rw [List.map_cons, hlog]
    · have hold : firsts c v l.reverse ≤ maxRumorsPerEvent := by
        unfold firsts at hroom
        omega
      refine (hfair c v (fun a ha => hsender a (List.mem_append_left _ ha)) (fun a ha => horg a (List.mem_append_left _ ha)) hold).step hpassed
        (hsender r (List.mem_append_right _ List.mem_cons_self)) (horg r (List.mem_append_right _ List.mem_cons_self)) ?_
      rw [List.map_cons, hlog]
      exact hroom

/-- Any sixty seconds lie in two windows. -/
theorem sliding {all : Rumor → Bool} (q : Nat → Rumor → Bool) (hq : ∀ r, all r = true → q (windowStart r.now) r = true) (a : Nat) :
    (log.countP fun e => all e.1 && e.2 && a ≤ e.1.now && e.1.now < a + windowMs) ≤
      admitted (q (windowStart a)) log + admitted (q (windowStart a + windowMs)) log := by
  unfold admitted
  induction log with
  | nil => exact Nat.zero_le _
  | cons e log ih =>
    rw [List.countP_cons, List.countP_cons, List.countP_cons]
    by_cases he : (all e.1 && e.2 && a ≤ e.1.now && e.1.now < a + windowMs) = true
    · rw [if_pos he]
      simp only [Bool.and_eq_true, decide_eq_true_eq] at he
      obtain ⟨⟨⟨hall, hb⟩, hle⟩, hlt⟩ := he
      have hin := hq e.1 hall
      have hwin : windowStart e.1.now = windowStart a ∨ windowStart e.1.now = windowStart a + windowMs := by
        unfold windowStart windowMs at *
        omega
      rcases hwin with hwin | hwin
      · rw [hwin] at hin
        rw [if_pos (show (q (windowStart a) e.1 && e.2) = true by rw [hin, hb]; rfl)]
        omega
      · rw [hwin] at hin
        rw [if_pos (show (q (windowStart a + windowMs) e.1 && e.2) = true by rw [hin, hb]; rfl)]
        omega
    · rw [if_neg he]
      omega

/-- **The gate keeps its caps, and no sender's excess turns others away**: in a window a sender passes at most thirty times, an inbox as often
as its budget and an organizer six hundred times, and in any sixty seconds a sender twice as often; where the first thirty of each sender fit
an inbox's floor, they all pass. -/
theorem gate_bounds (h : rumors.Pairwise fun a b => a.now ≤ b.now) :
    (∀ c p v, admitted (OrdinaryOf c p v) (after rumors).log ≤ maxRumorsPerSender) ∧
    (∀ c v B, (∀ r ∈ rumors, Ordinary c v r = true → eventRumorBudget c r.enrolled ≤ B) → admitted (Ordinary c v) (after rumors).log ≤ B) ∧
    (∀ c p v, admitted (OrganizerOf c p v) (after rumors).log ≤ maxRumorsPerEvent) ∧
    (∀ c p a, ((after rumors).log.countP fun e => (!e.1.organizer && e.1.coordinate = c && e.1.sender = p) && e.2 && a ≤ e.1.now &&
      e.1.now < a + windowMs) ≤ 2 * maxRumorsPerSender) ∧
    ∀ c v, (∀ r ∈ rumors, r.sender ≠ []) → (∀ r ∈ rumors, r.organizer = true → organizerKey r.coordinate ≠ c) →
      firsts c v rumors.reverse ≤ maxRumorsPerEvent → ∀ newer r b older, (after rumors).log = newer ++ (r, b) :: older → Ordinary c v r = true →
        (older.map (·.1)).countP (OrdinaryOf c r.sender v) < maxRumorsPerSender → b = true := by
  obtain ⟨bumps, w, -, -, hlog, hbounded, hfair⟩ := after_spec h
  refine ⟨fun c p v => (hbounded.sender c p v).2, fun c v B hB => (hbounded.inbox c v).2 B fun e he hq => hB e.1 ?_ hq,
    fun c p v => (hbounded.organizer c p v).2, fun c p a => ?_, fun c v hsender horg hroom => (hfair c v hsender horg hroom).passed⟩
  · have hmem := List.mem_map_of_mem (f := (·.1)) he
    rwa [hlog, List.mem_reverse] at hmem
  · have hall : ∀ r : Rumor, (!r.organizer && r.coordinate = c && r.sender = p) = true → OrdinaryOf c p (windowStart r.now) r = true := by
      intro r hr
      simp only [Bool.and_eq_true, Bool.not_eq_true', decide_eq_true_eq] at hr
      exact ordinaryOf_iff.mpr ⟨hr.1.1, hr.1.2, rfl, hr.2⟩
    have hsum := @sliding (after rumors).log _ (OrdinaryOf c p) hall a
    have h₁ := (hbounded.sender c p (windowStart a)).2
    have h₂ := (hbounded.sender c p (windowStart a + windowMs)).2
    omega

end

/-- The thirty-first rumor of a minute is dropped. -/
def flood : List Rumor := List.replicate 31 ⟨js "31600:e:camp", js "ann", false, 60000, 0⟩

theorem gate_bounds_flood : admitted (OrdinaryOf (js "31600:e:camp") (js "ann") 60000) (after flood).log ≤ 30 :=
  (gate_bounds (List.pairwise_replicate.mpr (.inr le_rfl))).1 _ _ _

end Nostrautica.InboxRate
