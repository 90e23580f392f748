/-
The ecash of the coordinator: `CashuPayment` of `coordinator/src/providers/cashu.ts` as `main.ts`
builds it, with the payment journal and not in balance mode, over `cashuReserve`, `cashuSettle` and
`cashuMarkAmbiguous` of `store/db.ts`.

A section under the wallet lock is cut where it awaits the mint; what runs between two awaits is
one step. The mint answers a call with proofs of its own choice. Amounts, and the tokens that
proofs are encoded in, are left out.
-/
import Nostrautica.Transition.Run

namespace Nostrautica.Cashu

variable {P Rid : Type} [DecidableEq P] [DecidableEq Rid]

/-! ## The journal -/

inductive RowState
  | in_flight
  | settled
  | ambiguous
  deriving DecidableEq

/-- `CashuJournalRow`, but for the mint, the amount and the times. -/
structure Row (P Rid : Type) where
  request_id : Rid
  state : RowState := .in_flight
  sent_proofs : List P
  change_proofs : Option (List P) := none
  deriving DecidableEq

/-- `cashuReserve(requestId, mint, amount, sentProofs)`. -/
def cashuReserve (journal : List (Row P Rid)) (requestId : Rid) (sentProofs : List P) : List (Row P Rid) :=
  if requestId ∈ journal.map (·.request_id) then journal else journal ++ [{ request_id := requestId, sent_proofs := sentProofs }]

/-- `cashuSettle(requestId, changeProofs)`. -/
def cashuSettle (journal : List (Row P Rid)) (requestId : Rid) (changeProofs : List P) : List (Row P Rid) :=
  journal.map fun row =>
    if row.request_id = requestId ∧ row.state ≠ .settled then { row with state := .settled, change_proofs := some changeProofs } else row

/-- `cashuMarkAmbiguous(requestId)`. -/
def cashuMarkAmbiguous (journal : List (Row P Rid)) (requestId : Rid) : List (Row P Rid) :=
  journal.map fun row => if row.request_id = requestId ∧ row.state = .in_flight then { row with state := .ambiguous } else row

/-- `cashuNonterminal()`. -/
def cashuNonterminal (journal : List (Row P Rid)) : List (Row P Rid) := journal.filter (·.state ≠ .settled)

/-- `reconcileJournal()`. -/
def reconcileJournal (journal : List (Row P Rid)) : List (Row P Rid) :=
  ((cashuNonterminal journal).filter (·.state = .in_flight)).foldl (fun journal row => cashuMarkAmbiguous journal row.request_id) journal

/-- The proofs that a row has. -/
def Row.proofs (row : Row P Rid) : List P := row.sent_proofs ++ row.change_proofs.getD []

/-! ## The daemon -/

/-- The section that holds the wallet lock. -/
inductive Task (P Rid : Type)
  /-- `wallet.send` of the proofs of the file. -/
  | sending
  /-- The mint has answered, with new proofs; the section has not gone on. -/
  | sent (outputs keep send : List P)
  /-- `wallet.receive` of the proofs of a token: the change of a request, or funds. -/
  | receiving (requestId : Option Rid) (token : List P)
  | received (requestId : Option Rid) (outputs : List P)
  deriving DecidableEq

/-- The new proofs of an answer that the section has not taken up. -/
def Task.outputs : Task P Rid → List P
  | .sent outputs _ _ => outputs
  | .received _ outputs => outputs
  | .sending | .receiving _ _ => []

structure World (P Rid : Type) where
  /-- The proofs of the wallet file. -/
  file : List P := []
  journal : List (Row P Rid) := []
  task : Option (Task P Rid) := none
  /-- The reservations in memory. -/
  handles : List Rid := []
  /-- The settlements whose last `cashuSettle` is next. -/
  closing : List (Rid × List P) := []
  /-- The proofs that the mint has redeemed. -/
  spent : List P := []
  /-- The proofs that the daemon has had from the mint. -/
  obtained : List P := []
  /-- The proofs of each request, as they were handed to its provider. -/
  handed : List (List P) := []
  deriving DecidableEq

/-- What the wallet file and the journal have. -/
def World.recorded (s : World P Rid) : List P := s.file ++ s.journal.flatMap Row.proofs

/-- The new proofs that only the memory of the daemon has. -/
def World.inMemory (s : World P Rid) : List P := (s.task.map Task.outputs).getD []

inductive Act (P Rid : Type)
  /-- `reserve`, up to the await of `wallet.send`. -/
  | reserve
  /-- The mint swaps `inputs` for `outputs`, or nothing where none are needed. -/
  | mintSend (inputs outputs keep send : List P)
  /-- The section goes on: it journals, saves the file and hands the proofs out. -/
  | takeSend (requestId : Rid)
  /-- `settle`, of a response without change, or up to the await of `wallet.receive`. -/
  | settle (requestId : Rid) (changeToken : Option (List P))
  /-- `fund`, up to the await. -/
  | fund (token : List P)
  | mintReceive (outputs : List P)
  | takeReceive
  /-- The call of the mint throws, before it has swapped anything. -/
  | mintFails
  /-- The last `cashuSettle` of a settlement. -/
  | close (i : Nat)
  | fail (requestId : Rid)
  /-- A provider redeems what it was handed. -/
  | redeem (i : Nat)
  /-- The daemon crashes, starts again and reconciles the journal. -/
  | crash

/-- Proofs that are new: neither the daemon nor the mint has seen them. -/
def World.New (s : World P Rid) (outputs : List P) : Prop :=
  outputs.Nodup ∧ ∀ p ∈ outputs, p ∉ s.obtained ∧ p ∉ s.spent ∧ p ∉ s.recorded

/-- A token from outside: of what the daemon has had, it has only what was handed out. -/
def World.Outside (s : World P Rid) (token : List P) : Prop := ∀ p ∈ token, p ∈ s.obtained → p ∈ s.handed.flatten

instance decidableNew (s : World P Rid) (outputs : List P) : Decidable (s.New outputs) := inferInstanceAs (Decidable (_ ∧ _))

instance decidableOutside (s : World P Rid) (token : List P) : Decidable (s.Outside token) :=
  inferInstanceAs (Decidable (∀ p ∈ token, p ∈ s.obtained → p ∈ s.handed.flatten))

def act (s : World P Rid) : Act P Rid → Option (World P Rid)
  | .reserve => if s.task = none then some { s with task := some .sending } else none
  | .mintSend inputs outputs keep send =>
    if s.task = some .sending ∧ (∀ p ∈ inputs, p ∈ s.file ∧ p ∉ s.spent) ∧ s.New outputs ∧
        (keep ++ send).Perm (s.file.filter (· ∉ inputs) ++ outputs) then
      some { s with
        task := some (.sent outputs keep send)
        spent := s.spent ++ inputs
        obtained := s.obtained ++ outputs }
    else none
  | .takeSend requestId =>
    match s.task with
    | some (.sent _ keep send) =>
      if requestId ∉ s.journal.map (·.request_id) then
        some { s with
          journal := cashuReserve s.journal requestId send
          file := keep
          task := none
          handles := s.handles ++ [requestId]
          handed := s.handed ++ [send] }
      else none
    | _ => none
  | .settle requestId changeToken =>
    if requestId ∈ s.handles then
      match changeToken with
      | none => some { s with journal := cashuSettle s.journal requestId [] }
      | some token =>
        if s.task = none ∧ s.Outside token then
          some { s with
            journal := if token = [] then s.journal else cashuSettle s.journal requestId token
            task := some (.receiving (some requestId) token) }
        else none
    else none
  | .fund token => if s.task = none ∧ s.Outside token then some { s with task := some (.receiving none token) } else none
  | .mintReceive outputs =>
    match s.task with
    | some (.receiving requestId token) =>
      if (∀ p ∈ token, p ∉ s.spent) ∧ s.New outputs ∧ (∀ p ∈ outputs, p ∉ token) then
        some { s with
          task := some (.received requestId outputs)
          spent := s.spent ++ token
          obtained := s.obtained ++ outputs }
      else none
    | _ => none
  | .takeReceive =>
    match s.task with
    | some (.received requestId outputs) =>
      some { s with
        file := s.file ++ outputs
        task := none
        closing := s.closing ++ requestId.toList.map (·, outputs) }
    | _ => none
  | .mintFails =>
    match s.task with
    | some .sending => some { s with task := none }
    | some (.receiving requestId _) => some { s with task := none, closing := s.closing ++ requestId.toList.map (·, []) }
    | _ => none
  | .close i => do
    let (requestId, banked) ← s.closing[i]?
    some { s with journal := cashuSettle s.journal requestId banked, closing := s.closing.eraseIdx i }
  | .fail requestId => if requestId ∈ s.handles then some { s with journal := cashuMarkAmbiguous s.journal requestId } else none
  | .redeem i => do
    let proofs ← s.handed[i]?
    some { s with spent := s.spent ++ proofs }
  | .crash => some { s with journal := reconcileJournal s.journal, task := none, handles := [], closing := [] }

def Step (s : World P Rid) (x : Act P Rid) (t : World P Rid) : Prop := act s x = some t

end Nostrautica.Cashu
