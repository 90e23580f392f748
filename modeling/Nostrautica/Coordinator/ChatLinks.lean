/-
The chat keys of an event's members: `handleAttestation`, `handleLinkRequest` and `handleLinkConfirm` of
`coordinator/src/chat/admin.ts`, over `marmot_chat_keys` and `marmot_chat_links` of `store/db.ts`.

A handler holds the lock of its member and runs without interruption to its next await; awaits between which
it writes nothing are one. Key packages, groups and the texts sent there, the labels, and the notices to the
member are left out, and so are the purges, which delete the rows of whoever has asked for it.
-/
import Nostrautica.Sql.Counts
import Nostrautica.Transition.Run
import Nostrautica.Coordinator.Members
import Nostrautica.Coordinator.Submissions

namespace Nostrautica.ChatLinks

open Sql

variable {C K Code H Proof : Type} [DecidableEq C] [DecidableEq K] [DecidableEq H]

/-- `MAX_CHAT_KEYS_PER_ACCOUNT`. -/
def maxChatKeysPerAccount : Nat := 10

/-- `CHAT_LINK_TTL_MS`. -/
def chatLinkTtlMs : Int := 30 * 60000

/-- `CHAT_LINK_MAX_ATTEMPTS`. -/
def chatLinkMaxAttempts : Nat := 5

/-- `CHAT_LINK_MAX_REQUESTS`. -/
def chatLinkMaxRequests : Nat := 5

/-- `CHAT_LINK_WINDOW_MS`. -/
def chatLinkWindowMs : Int := 60 * 60000

/-- `sha256` of the tagged JSON, `normalizeChatLinkCode`, and `verifyChatDeviceProof`. -/
structure Deps (C K Code H Proof : Type) where
  sha256 : C → K → K → Code → H
  normalizeChatLinkCode : Code → Code
  verifyChatDeviceProof : Proof → C → K → K → Int → Bool

def hashChatLinkCode (d : Deps C K Code H Proof) (code : Code) (coordinate : C) (accountPubkey chatPubkey : K) : H :=
  d.sha256 coordinate accountPubkey chatPubkey (d.normalizeChatLinkCode code)

/-- The hash of a row that is no longer pending is the empty string, which matches nothing. -/
def chatLinkCodeMatches (d : Deps C K Code H Proof) (typed : Code) (storedHash : Option H) (coordinate : C)
    (accountPubkey chatPubkey : K) : Bool :=
  storedHash = some (hashChatLinkCode d typed coordinate accountPubkey chatPubkey)

/-! ## The tables -/

/-- `marmot_chat_keys.status`. -/
inductive KeyStatus
  | active
  | revoked
  deriving DecidableEq

/-- A row of `marmot_chat_keys`. -/
structure KeyRow (K : Type) where
  account_pubkey : K
  status : KeyStatus
  external : Bool
  deriving DecidableEq

/-- `marmot_chat_links.status`. -/
inductive LinkStatus
  | pending
  | linked
  | closed
  deriving DecidableEq

/-- A row of `marmot_chat_links`. -/
structure LinkRow (K H : Type) where
  chat_pubkey : K
  code_hash : Option H
  attempts : Nat
  expires_at : Int
  status : LinkStatus
  window_started_at : Int
  window_count : Nat
  deriving DecidableEq

/-- `upsertChatKey(row)` of a key that is to be active; nothing is left of it where another account has the key. -/
def upsertChatKey (t : Keyed (C × K) (KeyRow K)) (coordinate : C) (accountPubkey chatPubkey : K) (external : Option Bool) :
    Option (Keyed (C × K) (KeyRow K)) :=
  let existing := t.get? (coordinate, chatPubkey)
  if existing.any (·.account_pubkey ≠ accountPubkey) then none
  else some (t.upsert (coordinate, chatPubkey) fun
    | none => ⟨accountPubkey, .active, external.getD false⟩
    | some row => { row with status := .active, external := external.getD row.external })

/-- `setChatKeyStatus(coordinate, chatPubkey, "revoked")`. -/
def revokeChatKey (t : Keyed (C × K) (KeyRow K)) (coordinate : C) (chatPubkey : K) : Keyed (C × K) (KeyRow K) :=
  t.update (coordinate, chatPubkey) fun row => { row with status := .revoked }

/-- A row is one of the account's, and active. -/
def activeOf (coordinate : C) (accountPubkey : K) (key : C × K) (row : KeyRow K) : Bool :=
  key.1 = coordinate ∧ row.account_pubkey = accountPubkey ∧ row.status = .active

/-- `putPendingChatLink(row)`. -/
def putPendingChatLink (t : Keyed (C × K) (LinkRow K H)) (coordinate : C) (accountPubkey chatPubkey : K) (codeHash : H)
    (expiresAt windowStartedAt : Int) (windowCount : Nat) : Keyed (C × K) (LinkRow K H) :=
  t.upsert (coordinate, accountPubkey) fun _ =>
    ⟨chatPubkey, some codeHash, 0, expiresAt, .pending, windowStartedAt, windowCount⟩

/-- `countChatLinkRequest(...)`: a row that is there keeps its code. -/
def countChatLinkRequest (t : Keyed (C × K) (LinkRow K H)) (coordinate : C) (accountPubkey chatPubkey : K) (windowStartedAt : Int)
    (windowCount : Nat) : Keyed (C × K) (LinkRow K H) :=
  t.upsert (coordinate, accountPubkey) fun
    | none => ⟨chatPubkey, none, 0, 0, .closed, windowStartedAt, windowCount⟩
    | some row => { row with window_started_at := windowStartedAt, window_count := windowCount }

/-- `setChatLinkAttempts(coordinate, accountPubkey, attempts)`. -/
def setChatLinkAttempts (t : Keyed (C × K) (LinkRow K H)) (link : C × K) (attempts : Nat) : Keyed (C × K) (LinkRow K H) :=
  t.update link fun row => { row with attempts := attempts }

/-- `setChatLinkStatus(coordinate, accountPubkey, status)`. -/
def setChatLinkStatus (t : Keyed (C × K) (LinkRow K H)) (link : C × K) (status : LinkStatus) : Keyed (C × K) (LinkRow K H) :=
  t.update link fun row => { row with status := status, code_hash := none }

/-- `expiredPendingChatLinks(now)`. -/
def expiredPendingChatLinks (t : Keyed (C × K) (LinkRow K H)) (now : Int) : List (C × K) :=
  (t.rows.filter fun row => row.2.status = .pending ∧ row.2.expires_at ≤ now).map (·.1)

/-! ## The handlers -/

/-- What a handler is to go on with after its await. -/
inductive Pc (C K : Type)
  /-- A link request in its sweep, with the links that are still to be closed. -/
  | sweeping (w : K) (rest : List (C × K))
  /-- A link request at the group of the link before it, the key packages, or its own group. -/
  | opening (w : K) (now windowStartedAt : Int) (windowCount : Nat)
  /-- A link request at the invitation and the texts. -/
  | inviting (w : K)
  /-- Nothing is written any more. -/
  | leaving

/-- What becomes of the codes, the newest first. -/
inductive Entry (C K Code : Type)
  | issued (coordinate : C) (account key : K) (code : Code) (now windowStartedAt : Int)
  | wrong (coordinate : C) (account : K)

structure World (C K Code H : Type) [DecidableEq C] [DecidableEq K] where
  attendees : C → K → Option Membership.Status := fun _ _ => none
  keys : Keyed (C × K) (KeyRow K) := .empty
  links : Keyed (C × K) (LinkRow K H) := .empty
  /-- The watermarks `chatkey-add` and `chatkey-revoke`. -/
  added : C × K → Option Int := fun _ => none
  revoked : C × K → Option Int := fun _ => none
  /-- The handler that holds the lock of a member. -/
  tasks : C × K → Option (Pc C K) := fun _ => none
  /-- The sweeps of the timer. -/
  sweeps : Nat → Option (List (C × K)) := fun _ => none
  log : List (Entry C K Code) := []

/-- What a 21607 asks for. -/
inductive Content (K Code Proof : Type)
  | add (chat_pubkey : K) (proof : Option Proof)
  | revoke (chat_pubkey : K)
  | link (chat_pubkey : K)
  | link_confirm (chat_pubkey : K) (code : Option Code)

/-- What an await has come to. -/
inductive Answer (Code : Type)
  | done
  | failed
  /-- The group is made, and this is the code. -/
  | opened (code : Code)

inductive Act (C K Code Proof : Type)
  /-- A 21607 is handled; `group` says whether the event has an active one. -/
  | deliver (coordinate : C) (account : K) (content : Content K Code Proof) (createdAt now : Int) (group : Bool)
  | settle (coordinate : C) (account : K) (answer : Answer Code) (now : Int)
  /-- The timer's sweep. -/
  | tick (t : Nat) (now : Int)
  | ticked (t : Nat)
  /-- The end of `handleRevoke`, with the keys it read before its await. -/
  | removed (coordinate : C) (keys : List K)
  /-- The attendee's row changes. -/
  | enrolled (coordinate : C) (account : K) (status : Option Membership.Status)
  | crashed

variable {w : World C K Code H}

/-- The handler goes on to its next await. -/
def World.at (w : World C K Code H) (member : C × K) (pc : Pc C K) : World C K Code H :=
  { w with tasks := Function.update w.tasks member (some pc) }

/-- The handler ends, or waits for nothing that it writes after. -/
def World.done (w : World C K Code H) (member : C × K) : World C K Code H :=
  { w with tasks := Function.update w.tasks member none }

/-- A link that did not complete is closed. -/
def World.closeLink (w : World C K Code H) (member : C × K) : World C K Code H :=
  { w with links := setChatLinkStatus w.links member .closed }

/-- How many keys of the account are active. -/
def World.activeKeys (w : World C K Code H) (coordinate : C) (account : K) : Nat := w.keys.count (activeOf coordinate account)

/-- The key is active, and this account's. -/
def World.isActive (w : World C K Code H) (coordinate : C) (account key : K) : Bool :=
  (w.keys.get? (coordinate, key)).any (activeOf coordinate account (coordinate, key))

/-- `bindLinkedKey(...)`. -/
def World.bindLinkedKey (w : World C K Code H) (coordinate : C) (account key : K) : World C K Code H :=
  match upsertChatKey w.keys coordinate account key (some true) with
  | none => w
  | some keys => { w with keys := keys }

/-- The part of `handleAttestation` about an `add`. -/
def World.add (d : Deps C K Code H Proof) (w : World C K Code H) (coordinate : C) (account key : K) (proof : Option Proof)
    (createdAt now : Int) : World C K Code H :=
  let orderAt := Submissions.rumorEffectiveCreatedAt createdAt (now / 1000)
  if proof.any (d.verifyChatDeviceProof · coordinate account key createdAt) = false then w
  else if (w.revoked (coordinate, key)).any (orderAt < ·) then w
  else if w.isActive coordinate account key = false ∧ maxChatKeysPerAccount ≤ w.activeKeys coordinate account then w
  else match upsertChatKey w.keys coordinate account key none with
    | none => w
    | some keys =>
      { w with
        keys := keys
        added := Function.update w.added (coordinate, key) (some (max orderAt ((w.added (coordinate, key)).getD orderAt))) }
      |>.at (coordinate, account) .leaving

/-- The part of `handleAttestation` about a `revoke`. -/
def World.revoke (w : World C K Code H) (coordinate : C) (account key : K) (createdAt now : Int) : World C K Code H :=
  let orderAt := Submissions.rumorEffectiveCreatedAt createdAt (now / 1000)
  if w.attendees coordinate account ≠ some .approved then w
  else if key ≠ account ∧ (w.keys.get? (coordinate, key)).map (·.account_pubkey) ≠ some account then w
  else if (w.added (coordinate, key)).any (orderAt < ·) then w
  else
    { w with
      keys := revokeChatKey w.keys coordinate key
      revoked := Function.update w.revoked (coordinate, key) (some (max orderAt ((w.revoked (coordinate, key)).getD orderAt))) }
    |>.at (coordinate, account) .leaving

/-- `sweepExpiredLinks()`: the next link is closed, and its group taken down. -/
def World.sweepNext (w : World C K Code H) : List (C × K) → World C K Code H × List (C × K)
  | [] => (w, [])
  | link :: rest => (w.closeLink link, rest)

/-- The beginning of `handleLinkRequest`, up to its sweep. -/
def World.linkRequest (w : World C K Code H) (coordinate : C) (account key : K) (now : Int) (group : Bool) : World C K Code H :=
  if w.attendees coordinate account ≠ some .approved then w
  else if group = false then w
  else
    let swept := w.sweepNext (expiredPendingChatLinks w.links now)
    swept.1.at (coordinate, account) (.sweeping key swept.2)

/-- `handleLinkRequest` after its sweep, up to the steps on the network. -/
def World.linkChecked (w : World C K Code H) (coordinate : C) (account key : K) (now : Int) : World C K Code H :=
  let bound := w.keys.get? (coordinate, key)
  if bound.any (·.account_pubkey ≠ account) then w.done (coordinate, account)
  else if bound.any (·.status = .active) then w.at (coordinate, account) .leaving
  else if maxChatKeysPerAccount ≤ w.activeKeys coordinate account then w.done (coordinate, account)
  else if key = account then (w.bindLinkedKey coordinate account key).at (coordinate, account) .leaving
  else
    let prior := w.links.get? (coordinate, account)
    let inWindow := prior.filter (now - ·.window_started_at < chatLinkWindowMs)
    let windowStartedAt := (inWindow.map (·.window_started_at)).getD now
    let windowCount := (inWindow.map (·.window_count)).getD 0 + 1
    if chatLinkMaxRequests < windowCount then w.done (coordinate, account)
    else w.at (coordinate, account) (.opening key now windowStartedAt windowCount)

/-- `handleLinkRequest` once the group is made, or cannot be. -/
def World.linkOpened (d : Deps C K Code H Proof) (w : World C K Code H) (coordinate : C) (account key : K) (now windowStartedAt : Int)
    (windowCount : Nat) : Answer Code → World C K Code H
  | .opened code =>
    { w with
      links := putPendingChatLink w.links coordinate account key (hashChatLinkCode d code coordinate account key) (now + chatLinkTtlMs)
        windowStartedAt windowCount
      log := .issued coordinate account key code now windowStartedAt :: w.log }
    |>.at (coordinate, account) (.inviting key)
  | .done | .failed =>
    -- The row of the request before keeps its code, whose group is gone.
    { w with links := countChatLinkRequest w.links coordinate account key windowStartedAt windowCount }.done (coordinate, account)

/-- `handleLinkConfirm(...)`. -/
def World.linkConfirm (d : Deps C K Code H Proof) (w : World C K Code H) (coordinate : C) (account key : K) (code : Option Code)
    (now : Int) : World C K Code H :=
  let member := (coordinate, account)
  if w.attendees coordinate account ≠ some .approved then w
  else match w.links.get? member, code with
    | some link, some code =>
      if link.status ≠ .pending ∨ link.chat_pubkey ≠ key then w
      else if link.expires_at ≤ now then (w.closeLink member).at member .leaving
      else if chatLinkCodeMatches d code link.code_hash coordinate account key = false then
        let tried := { w with log := .wrong coordinate account :: w.log }
        if chatLinkMaxAttempts ≤ link.attempts + 1 then (tried.closeLink member).at member .leaving
        else { tried with links := setChatLinkAttempts w.links member (link.attempts + 1) }
      else if (w.keys.get? (coordinate, key)).any (·.account_pubkey ≠ account) then (w.closeLink member).at member .leaving
      else if w.isActive coordinate account key = false ∧ maxChatKeysPerAccount ≤ w.activeKeys coordinate account then
        (w.closeLink member).at member .leaving
      else ({ w with links := setChatLinkStatus w.links member .linked }.bindLinkedKey coordinate account key).at member .leaving
    | _, _ => w

/-- `handleAttestation(coordinate, accountPubkey, content, createdAt)`, up to its first await. -/
def World.handleAttestation (d : Deps C K Code H Proof) (w : World C K Code H) (coordinate : C) (account : K)
    (content : Content K Code Proof) (createdAt now : Int) (group : Bool) : World C K Code H :=
  if w.attendees coordinate account = none then w
  else match content with
    | .link key => w.linkRequest coordinate account key now group
    | .link_confirm key code => w.linkConfirm d coordinate account key code now
    | .add key proof => w.add d coordinate account key proof createdAt now
    | .revoke key => w.revoke coordinate account key createdAt now

/-- A handler goes on from its await. -/
def World.goOn (d : Deps C K Code H Proof) (w : World C K Code H) (coordinate : C) (account : K) (answer : Answer Code) (now : Int) :
    Pc C K → World C K Code H
  | .sweeping key [] => w.linkChecked coordinate account key now
  | .sweeping key (link :: rest) => (w.closeLink link).at (coordinate, account) (.sweeping key rest)
  | .opening key began windowStartedAt windowCount => w.linkOpened d coordinate account key began windowStartedAt windowCount answer
  | .inviting _ =>
    match answer with
    | .failed => (w.closeLink (coordinate, account)).at (coordinate, account) .leaving
    | _ => w.done (coordinate, account)
  | .leaving => w.done (coordinate, account)

def act (d : Deps C K Code H Proof) (w : World C K Code H) : Act C K Code Proof → Option (World C K Code H)
  | .deliver coordinate account content createdAt now group =>
    match w.tasks (coordinate, account) with
    | none => some (w.handleAttestation d coordinate account content createdAt now group)
    | some _ => none
  | .settle coordinate account answer now => (w.tasks (coordinate, account)).map (w.goOn d coordinate account answer now)
  | .tick t now =>
    match w.sweeps t with
    | none =>
      let swept := w.sweepNext (expiredPendingChatLinks w.links now)
      some { swept.1 with sweeps := Function.update w.sweeps t (some swept.2) }
    | some _ => none
  | .ticked t => (w.sweeps t).map fun
    | [] => { w with sweeps := Function.update w.sweeps t none }
    | link :: rest => { w.closeLink link with sweeps := Function.update w.sweeps t (some rest) }
  | .removed coordinate keys => some { w with keys := keys.foldl (fun t key => revokeChatKey t coordinate key) w.keys }
  | .enrolled coordinate account status =>
    some { w with attendees := Function.update w.attendees coordinate (Function.update (w.attendees coordinate) account status) }
  | .crashed => some { w with tasks := fun _ => none, sweeps := fun _ => none }

/-- The calls run one after the other up to their awaits. -/
def Step (d : Deps C K Code H Proof) (w : World C K Code H) (x : Act C K Code Proof) (w' : World C K Code H) : Prop := act d w x = some w'

end Nostrautica.ChatLinks
