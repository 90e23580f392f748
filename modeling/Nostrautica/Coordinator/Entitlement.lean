/-
The checkers of `coordinator/src/pipeline/entitlement.ts`: invite codes, with `claimInvite` of
`store/db.ts`, and the membership proofs of `protocol/src/hierarchy.ts`; and what `handleJoinLocked`
of `coordinator.ts` makes of them, where the approval is not `manual`.

A code is redeemed by those who came first (`invites_first_come`); a join is entitled just when it
holds a slot of its code or proves membership of a linked event (`entitled_iff`), and what is proved
was signed for this attendee and this community (`member_of_sound`).
-/
import Nostrautica.Js.Map
import Nostrautica.Js.StringifyFacts
import Nostrautica.Protocol.Coordinate
import Nostrautica.Protocol.Unwrap
import Nostrautica.Transition.Run

namespace Nostrautica.Entitlement

open Js Unwrap

/-- `InviteProof`. -/
structure InviteProof where
  invitePubkey : JsString
  sig : JsString
  deriving DecidableEq

/-- `InvitePolicy`, without its label; the times are seconds. -/
structure InvitePolicy where
  uses : Nat
  exp : Option Int

/-- What a 31601 publishes, by the hashes of the codes. -/
abbrev Published := JsMap JsString InvitePolicy

structure Crypto where
  inviteHash : JsString → JsString
  /-- `verifyInviteProof(proof, coordinate, attendeePubkey)`. -/
  verifyInviteProof : InviteProof → JsString → JsString → Bool
  /-- `schnorr.verify(hexToBytes(sig), sha256(utf8ToBytes(text)), by)`, where it does not throw. -/
  verify : (sig text «by» : JsString) → Bool

structure EntitlementDecision where
  grant : Bool
  reason : JsString

/-- A row of `invite_usage`. -/
structure Redemption where
  coordinate : JsString
  invite_pubkey : JsString
  used_by : JsString
  deriving DecidableEq

abbrev Usage := List Redemption

/-! ## Invites -/

/-- Who has redeemed a code, in the order of the rows. -/
def redeemers (usage : Usage) (coordinate invitePubkey : JsString) : List JsString :=
  (usage.filter fun r => r.coordinate = coordinate ∧ r.invite_pubkey = invitePubkey).map (·.used_by)

def inviteRedemptions (usage : Usage) (coordinate invitePubkey : JsString) : Nat := (redeemers usage coordinate invitePubkey).length

/-- `claimInvite(coordinate, invitePubkey, usedBy, now, maxUses)`. -/
def claimInvite (usage : Usage) (coordinate invitePubkey usedBy : JsString) (maxUses : Nat) : Bool × Usage :=
  if ⟨coordinate, invitePubkey, usedBy⟩ ∈ usage then (true, usage)
  else if maxUses ≠ 0 ∧ maxUses ≤ inviteRedemptions usage coordinate invitePubkey then (false, usage)
  else (true, usage ++ [⟨coordinate, invitePubkey, usedBy⟩])

def isInviteValid (C : Crypto) (proof : InviteProof) (publishedHashes : Published) (coordinate attendeePubkey : JsString) : Bool :=
  isHex32 proof.invitePubkey && isHex64Sig proof.sig && publishedHashes.has (C.inviteHash proof.invitePubkey) &&
    C.verifyInviteProof proof coordinate attendeePubkey

/-- `EntitlementRequest`. -/
structure EntitlementRequest where
  coordinate : JsString
  attendeePubkey : JsString
  invite : Option InviteProof
  publishedInvites : Published

/-- `Math.floor(now / 1000) > policy.exp`. -/
def InvitePolicy.expired (policy : InvitePolicy) (now : Int) : Bool := policy.exp.any fun exp => decide (exp < now / 1000)

/-- The policy of a code that is published: one without is of a single use. -/
def policyOf (C : Crypto) (proof : InviteProof) (published : Published) : InvitePolicy :=
  (published.get? (C.inviteHash proof.invitePubkey)).getD ⟨1, none⟩

def invalidInvite : JsString := js "invalid invite proof"

def noInvite : JsString := js "no invite proof"

/-- `InviteChecker.check(req, now)`. -/
def checkInvite (C : Crypto) (req : EntitlementRequest) (now : Int) (usage : Usage) : EntitlementDecision × Usage :=
  match req.invite with
  | none => (⟨false, noInvite⟩, usage)
  | some proof =>
    if !isInviteValid C proof req.publishedInvites req.coordinate req.attendeePubkey then (⟨false, invalidInvite⟩, usage)
    else
      let policy := policyOf C proof req.publishedInvites
      if policy.expired now then (⟨false, js "invite expired → manual queue"⟩, usage)
      else
        let (claimed, usage) := claimInvite usage req.coordinate proof.invitePubkey req.attendeePubkey policy.uses
        (if claimed then ⟨true, js "valid unused invite"⟩ else ⟨false, js "invite already used → manual queue"⟩, usage)

/-- The loop of `evaluateEntitlement`. -/
def evaluate (last : EntitlementDecision) : List (Usage → EntitlementDecision × Usage) → Usage → EntitlementDecision × Usage
  | [], usage => (last, usage)
  | check :: checkers, usage =>
    let (decision, usage) := check usage
    if decision.grant then (decision, usage) else evaluate decision checkers usage

def evaluateEntitlement (checkers : List (Usage → EntitlementDecision × Usage)) (usage : Usage) : EntitlementDecision × Usage :=
  evaluate ⟨false, js "no checker granted → manual queue"⟩ checkers usage

/-! ## Membership proofs -/

/-- `LinkConfig`; a list that is absent is empty. -/
structure LinkConfig where
  coordinator : Option JsString
  parent : Option JsString
  children : List JsString

def isLinked (parent : JsString) (parentChildren : List JsString) (child : JsString) (childCfg : LinkConfig) : Bool :=
  isValidParentCoordinate parent && isValidChildCoordinate child && childCfg.parent == some parent && parentChildren.contains child

def membershipAuthorities (child : JsString) (childCfg : LinkConfig) : List JsString :=
  match parseCoordinate child with
  | .error _ => []
  | .ok c =>
    match childCfg.coordinator.filter (· ≠ []) with
    | some coordinator => [c.pubkey, coordinator]
    | none => [c.pubkey]

/-- The text that a membership proof signs the hash of. -/
def membershipChallenge (parent child attendee : JsString) : JsString :=
  stringify (.arr [.str (js "nostrautica-member-of-v1"), .str parent, .str child, .str attendee])

/-- What a `member_of` tag carries. -/
structure MemberOf where
  child : JsString
  «by» : JsString
  sig : JsString

def verifyMembershipProof (C : Crypto) (proof : MemberOf) (parent child attendee : JsString) (authorities : List JsString) : Bool :=
  isHex32 proof.by && isHex64Sig proof.sig && isHex32 attendee && authorities.contains proof.by &&
    C.verify proof.sig (membershipChallenge parent child attendee) proof.by

def memberOfTag (proof : MemberOf) : List JsString := [js "member_of", proof.child, proof.by, proof.sig]

/-- A `member_of` tag of four items or more. -/
def readMemberOf : List JsString → Option MemberOf
  | tag :: child :: «by» :: sig :: _ => if tag = js "member_of" then some ⟨child, «by», sig⟩ else none
  | _ => none

def MemberOf.wellFormed (p : MemberOf) : Bool := isValidChildCoordinate p.child && isHex32 p.by && isHex64Sig p.sig

def parseMemberOfTags (tags : List (List JsString)) : List MemberOf := ((tags.filterMap readMemberOf).filter (·.wellFormed)).take 8

def shortPk (pk : JsString) : JsString := pk.take 8

/-- `shortPk(c.split(":")[1] ?? c)`. -/
def shortCoord (c : JsString) : JsString :=
  match splitColon c with
  | none => shortPk c
  | some (_, rest) =>
    match splitColon rest with
    | none => shortPk rest
    | some (pubkey, _) => shortPk pubkey

/-- `MemberOfRequest`. -/
structure MemberOfRequest where
  coordinate : JsString
  attendeePubkey : JsString
  tags : List (List JsString)
  children : List JsString

/-- A turn of the loop over the proofs: why this one does not do, under the config that was fetched. -/
def refusal (C : Crypto) (req : MemberOfRequest) (p : MemberOf) (childCfg : Option LinkConfig) : Option JsString :=
  if !req.children.contains p.child then some (js ": this community does not list that event as a child → manual queue")
  else
    match childCfg with
    | none => some (js ": the event's config could not be fetched → manual queue")
    | some childCfg =>
      if !isLinked req.coordinate req.children p.child childCfg then
        some (js ": the event does not name this community as its parent → manual queue")
      else if !(membershipAuthorities p.child childCfg).contains p.by then
        some (js ": signer " ++ shortPk p.by ++ js " is not an authority of the event → manual queue")
      else if !verifyMembershipProof C p req.coordinate p.child req.attendeePubkey (membershipAuthorities p.child childCfg) then
        some (js ": signature does not verify → manual queue")
      else none

/-- The loop of `MemberOfChecker.check`; `fetchChildConfig` answers for the proof of each number. -/
def tryProofs (C : Crypto) (req : MemberOfRequest) (fetchChildConfig : Nat → Option LinkConfig) (last : JsString) :
    List (MemberOf × Nat) → EntitlementDecision
  | [] => ⟨false, last⟩
  | (p, i) :: rest =>
    let tag := js "member_of " ++ shortCoord p.child
    match refusal C req p (fetchChildConfig i) with
    | some why => tryProofs C req fetchChildConfig (tag ++ why) rest
    | none => ⟨true, tag⟩

/-- `MemberOfChecker.check(req)`. -/
def checkMemberOf (C : Crypto) (req : MemberOfRequest) (fetchChildConfig : Nat → Option LinkConfig) : EntitlementDecision :=
  if parseMemberOfTags req.tags = [] then ⟨false, js "no member_of proof"⟩
  else tryProofs C req fetchChildConfig (js "member_of proof invalid") (parseMemberOfTags req.tags).zipIdx

/-! ## Joins -/

/-- Of the state of an event, what a join is checked against. -/
structure Event where
  coordinate : JsString
  spaceKind : Nat
  children : List JsString

/-- A join, with what its fetches and its readings of the clock give. -/
structure Join where
  attendeePubkey : JsString
  tags : List (List JsString)
  /-- `fetchInviteHashes(state)`. -/
  cached : Published
  now : Int
  /-- `fetchInviteHashes(state, { force: true })`. -/
  fresh : Published
  later : Int
  fetchChildConfig : Nat → Option LinkConfig

/-- The invite of a join: of the first `invite` tag, if neither item is missing or empty. -/
def Join.invite (j : Join) : Option InviteProof :=
  match j.tags.find? fun t => t.head? = some (js "invite") with
  | some (_ :: invitePubkey :: sig :: _) => if invitePubkey ≠ [] ∧ sig ≠ [] then some ⟨invitePubkey, sig⟩ else none
  | _ => none

def Join.request (j : Join) (e : Event) (publishedInvites : Published) : EntitlementRequest :=
  ⟨e.coordinate, j.attendeePubkey, j.invite, publishedInvites⟩

def Join.memberOf (j : Join) (e : Event) : MemberOfRequest := ⟨e.coordinate, j.attendeePubkey, j.tags, e.children⟩

def hasMemberOf (e : Event) (j : Join) : Bool := e.spaceKind = kindCommunity && parseMemberOfTags j.tags ≠ []

/-- The invite of a join, against the cached list and, where that does not know it, a fresh one. -/
def checkInvites (C : Crypto) (e : Event) (j : Join) (usage : Usage) : EntitlementDecision × Usage :=
  let first := evaluateEntitlement [checkInvite C (j.request e j.cached) j.now] usage
  if !first.1.grant && first.1.reason = invalidInvite then evaluateEntitlement [checkInvite C (j.request e j.fresh) j.later] first.2
  else first

/-- The entitlement of a join. -/
def entitle (C : Crypto) (e : Event) (j : Join) (usage : Usage) : EntitlementDecision × Usage :=
  let (decision, usage) := checkInvites C e j usage
  if !decision.grant && hasMemberOf e j then
    let memberOf := checkMemberOf C (j.memberOf e) j.fetchChildConfig
    if memberOf.grant then (memberOf, usage)
    else (⟨false, if decision.reason = noInvite then memberOf.reason else decision.reason ++ js "; " ++ memberOf.reason⟩, usage)
  else (decision, usage)

inductive Act
  | join (e : Event) (j : Join)
  /-- `purgeEventArtifacts(coordinate)`. -/
  | purge (coordinate : JsString)

def step (C : Crypto) (usage : Usage) : Act → Usage
  | .join e j => (entitle C e j usage).2
  | .purge coordinate => usage.filter fun r => r.coordinate ≠ coordinate

def Step (C : Crypto) (usage : Usage) (x : Act) (usage' : Usage) : Prop := step C usage x = usage'

/-! ## First come -/

section

variable {α : Type*} [DecidableEq α] {u : Nat} {l : List α} {p : α}

/-- Of those who come, in order, the ones with a slot: the first `u` different ones, or all where `u` is 0. -/
def firstComers (u : Nat) (l : List α) : List α := if u = 0 then l.eraseDups else l.eraseDups.take u

/-- Who has a slot once `p` came: `p` as well, where there is one. -/
def withSlot (u : Nat) (l : List α) (p : α) : List α := if p ∈ l ∨ (u ≠ 0 ∧ u ≤ l.length) then l else l ++ [p]

theorem eraseDups_concat : (l ++ [p]).eraseDups = if p ∈ l then l.eraseDups else l.eraseDups ++ [p] := by
  rw [List.eraseDups_append]
  by_cases hp : p ∈ l
  · simp [hp, List.removeAll]
  · simp [hp, List.removeAll, List.eraseDups_cons]

/-- Who comes next takes a slot, where there is one and they have none. -/
theorem firstComers_concat : firstComers u (l ++ [p]) = withSlot u (firstComers u l) p := by
  unfold firstComers withSlot
  by_cases hu : u = 0
  · simp [hu, eraseDups_concat]
  · simp only [if_neg hu, eraseDups_concat]
    by_cases hfull : u ≤ l.eraseDups.length
    · have hlen : (l.eraseDups.take u).length = u := by
        rw [List.length_take]
        exact Nat.min_eq_left hfull
      have hnone : p ∈ l.eraseDups.take u ∨ (u ≠ 0 ∧ u ≤ (l.eraseDups.take u).length) := .inr ⟨hu, hlen.ge⟩
      rw [if_pos hnone]
      split_ifs
      · rfl
      · exact List.take_append_of_le_length hfull
    · have hlt := Nat.lt_of_not_le hfull
      rw [List.take_of_length_le hlt.le]
      by_cases hp : p ∈ l
      · have hmem : p ∈ l.eraseDups := List.mem_eraseDups.mpr hp
        rw [if_pos hp, if_pos (.inl hmem), List.take_of_length_le hlt.le]
      · have hmem : p ∉ l.eraseDups := fun h => hp (List.mem_eraseDups.mp h)
        rw [if_neg hp, if_neg (by simp [hmem, hfull])]
        refine List.take_of_length_le ?_
        rw [List.length_append, List.length_singleton]
        exact hlt

end

/-! ## A claim -/

section

variable {usage : Usage} {a k p b q : JsString} {u : Nat}

theorem mem_redeemers : p ∈ redeemers usage a k ↔ ⟨a, k, p⟩ ∈ usage := by
  simp only [redeemers, List.mem_map, List.mem_filter, decide_eq_true_eq]
  constructor
  · rintro ⟨r, ⟨hr, rfl, rfl⟩, rfl⟩
    exact hr
  · intro h
    exact ⟨_, ⟨h, rfl, rfl⟩, rfl⟩

theorem redeemers_concat : redeemers (usage ++ [⟨a, k, p⟩]) b q = if a = b ∧ k = q then redeemers usage b q ++ [p] else redeemers usage b q := by
  unfold redeemers
  by_cases h : a = b ∧ k = q <;> simp [h, List.filter_append]

theorem redeemers_purge : redeemers (usage.filter fun r => r.coordinate ≠ b) a k = if a = b then [] else redeemers usage a k := by
  unfold redeemers
  rw [List.filter_filter]
  split_ifs with hab
  · rw [List.filter_eq_nil_iff.mpr, List.map_nil]
    intro r _
    simp only [Bool.and_eq_true, decide_eq_true_eq, not_and]
    rintro ⟨hc, -⟩
    simp [hc, hab]
  · congr 1
    refine List.filter_congr fun r _ => ?_
    by_cases hr : r.coordinate = a <;> simp [hr, hab]

/-- A claim gives its attendee a slot, where there is one and they have none. -/
theorem redeemers_claimInvite : redeemers (claimInvite usage a k p u).2 a k = withSlot u (redeemers usage a k) p := by
  unfold claimInvite withSlot
  by_cases hheld : (⟨a, k, p⟩ : Redemption) ∈ usage
  · rw [if_pos hheld, if_pos (.inl (mem_redeemers.mpr hheld))]
  · by_cases hfull : u ≠ 0 ∧ u ≤ inviteRedemptions usage a k
    · rw [if_neg hheld, if_pos hfull, if_pos (.inr hfull)]
    · rw [if_neg hheld, if_neg hfull, if_neg (fun h => h.elim (fun h => hheld (mem_redeemers.mp h)) hfull), redeemers_concat,
        if_pos ⟨rfl, rfl⟩]

theorem redeemers_claimInvite_other (h : ¬ (a = b ∧ k = q)) : redeemers (claimInvite usage a k p u).2 b q = redeemers usage b q := by
  unfold claimInvite
  split_ifs
  · rfl
  · rfl
  · rw [redeemers_concat, if_neg h]

/-- A claim is granted just when its attendee has a slot after it. -/
theorem claimInvite_iff : (claimInvite usage a k p u).1 = true ↔ p ∈ redeemers (claimInvite usage a k p u).2 a k := by
  rw [redeemers_claimInvite]
  unfold claimInvite withSlot
  by_cases hheld : (⟨a, k, p⟩ : Redemption) ∈ usage
  · have hmem := mem_redeemers.mpr hheld
    simp [hheld, hmem]
  · have hmem : p ∉ redeemers usage a k := fun h => hheld (mem_redeemers.mp h)
    by_cases hfull : u ≠ 0 ∧ u ≤ inviteRedemptions usage a k
    · rw [if_neg hheld, if_pos hfull, if_pos (.inr hfull)]
      exact ⟨fun h => (Bool.false_ne_true h).elim, fun h => absurd h hmem⟩
    · rw [if_neg hheld, if_neg hfull, if_neg (fun h => h.elim hmem hfull)]
      simp

end

/-! ## The invite of a join -/

section

variable {C : Crypto} {e : Event} {j : Join} {usage : Usage}

/-- The code that a join may redeem under a list, and the uses it allows. -/
def redeemsUnder (C : Crypto) (e : Event) (j : Join) (published : Published) (now : Int) : Option (JsString × Nat) :=
  j.invite.bind fun proof =>
    if isInviteValid C proof published e.coordinate j.attendeePubkey ∧ (policyOf C proof published).expired now = false then
      some (proof.invitePubkey, (policyOf C proof published).uses)
    else none

/-- The code that a join may redeem: a proof that the cached list does not know is checked against the fresh one. -/
def redeems (C : Crypto) (e : Event) (j : Join) : Option (JsString × Nat) :=
  if j.invite.any fun proof => isInviteValid C proof j.cached e.coordinate j.attendeePubkey then redeemsUnder C e j j.cached j.now
  else redeemsUnder C e j j.fresh j.later

/-- A check claims what may be redeemed. -/
theorem evaluate_checkInvite (C : Crypto) (e : Event) (j : Join) (usage : Usage) (published : Published) (now : Int) :
    let checked := evaluateEntitlement [checkInvite C (j.request e published) now] usage
    (checked.1.reason = invalidInvite ↔
      j.invite.any (fun proof => !isInviteValid C proof published e.coordinate j.attendeePubkey) = true) ∧
    match redeemsUnder C e j published now with
    | none => checked.1.grant = false ∧ checked.2 = usage
    | some (k, u) => checked.1.grant = (claimInvite usage e.coordinate k j.attendeePubkey u).1 ∧
        checked.2 = (claimInvite usage e.coordinate k j.attendeePubkey u).2 := by
  have hexpired : js "invite expired → manual queue" ≠ invalidInvite := by decide
  have hused : js "invite already used → manual queue" ≠ invalidInvite := by decide
  have hunused : js "valid unused invite" ≠ invalidInvite := by decide
  have hnone : noInvite ≠ invalidInvite := by decide
  cases hinvite : j.invite with
  | none => simp [evaluateEntitlement, evaluate, checkInvite, Join.request, redeemsUnder, hinvite, hnone]
  | some proof =>
    by_cases hvalid : isInviteValid C proof published e.coordinate j.attendeePubkey = true
    · by_cases hexp : (policyOf C proof published).expired now = true
      · simp [evaluateEntitlement, evaluate, checkInvite, Join.request, redeemsUnder, hinvite, hvalid, hexp, hexpired]
      · cases hclaim : (claimInvite usage e.coordinate proof.invitePubkey j.attendeePubkey (policyOf C proof published).uses).1 <;>
          simp [evaluateEntitlement, evaluate, checkInvite, Join.request, redeemsUnder, hinvite, hvalid, hexp, hclaim, hused, hunused]
    · simp [evaluateEntitlement, evaluate, checkInvite, Join.request, redeemsUnder, hinvite, hvalid]

/-- So does the check of a join. -/
theorem checkInvites_eq (C : Crypto) (e : Event) (j : Join) (usage : Usage) :
    match redeems C e j with
    | none => (checkInvites C e j usage).1.grant = false ∧ (checkInvites C e j usage).2 = usage
    | some (k, u) => (checkInvites C e j usage).1.grant = (claimInvite usage e.coordinate k j.attendeePubkey u).1 ∧
        (checkInvites C e j usage).2 = (claimInvite usage e.coordinate k j.attendeePubkey u).2 := by
  obtain ⟨hreason, hcached⟩ := evaluate_checkInvite C e j usage j.cached j.now
  unfold redeems checkInvites
  cases hinvite : j.invite with
  | none =>
    have hnone : ∀ published now, redeemsUnder C e j published now = none := by simp [redeemsUnder, hinvite]
    rw [hinvite] at hreason
    rw [hnone] at hcached
    have hother : (evaluateEntitlement [checkInvite C (j.request e j.cached) j.now] usage).1.reason ≠ invalidInvite := by
      rw [Ne, hreason]
      simp
    simp [hnone, hcached, hother]
  | some proof =>
    rw [hinvite] at hreason
    by_cases hvalid : isInviteValid C proof j.cached e.coordinate j.attendeePubkey = true
    · have hother : (evaluateEntitlement [checkInvite C (j.request e j.cached) j.now] usage).1.reason ≠ invalidInvite := by
        rw [Ne, hreason]
        simp [hvalid]
      simpa [hvalid, hother] using hcached
    · -- the cached list does not know the code: nothing is claimed yet
      have hinvalid : (evaluateEntitlement [checkInvite C (j.request e j.cached) j.now] usage).1.reason = invalidInvite := by
        rw [hreason]
        simp [hvalid]
      have hnone : redeemsUnder C e j j.cached j.now = none := by simp [redeemsUnder, hinvite, hvalid]
      rw [hnone] at hcached
      simpa [hvalid, hinvalid, hcached] using (evaluate_checkInvite C e j usage j.fresh j.later).2

theorem entitle_usage : (entitle C e j usage).2 = (checkInvites C e j usage).2 := by
  unfold entitle
  dsimp only
  split_ifs <;> rfl

theorem entitle_grant : (entitle C e j usage).1.grant = true ↔ (checkInvites C e j usage).1.grant = true ∨
    (hasMemberOf e j = true ∧ (checkMemberOf C (j.memberOf e) j.fetchChildConfig).grant = true) := by
  unfold entitle
  dsimp only
  cases hg : (checkInvites C e j usage).1.grant <;> cases hm : hasMemberOf e j <;>
    cases hc : (checkMemberOf C (j.memberOf e) j.fetchChildConfig).grant <;> simp [hg, hc]

end

/-! ## A run of joins -/

section

variable {C : Crypto} {usage usage' : Usage} {acts : List Act} {a k : JsString} {u : Nat} {x : Act}

/-- Who comes with a code of an event, and the uses its policy allows then. -/
def comes (C : Crypto) (a k : JsString) : Act → Option (JsString × Nat)
  | .join e j =>
    if e.coordinate = a then (redeems C e j).bind fun r => if r.1 = k then some (j.attendeePubkey, r.2) else none else none
  | .purge _ => none

/-- Those who came with a code so far, since the last purge of its event. -/
def note (C : Crypto) (a k : JsString) (l : List JsString) : Act → List JsString
  | .purge c => if c = a then [] else l
  | .join e j => l ++ ((comes C a k (.join e j)).map (·.1)).toList

def comers (C : Crypto) (a k : JsString) (acts : List Act) : List JsString := acts.foldl (note C a k) []

/-- The slots after one act. -/
theorem redeemers_step {l : List JsString} (h : redeemers usage a k = firstComers u l) (hu : ∀ p v, comes C a k x = some (p, v) → v = u) :
    redeemers (step C usage x) a k = firstComers u (note C a k l x) := by
  cases x with
  | purge c =>
    simp only [step, note]
    rw [redeemers_purge, h]
    by_cases hc : a = c
    · subst hc
      simp [firstComers]
    · rw [if_neg hc, if_neg fun h => hc h.symm]
  | join e j =>
    have heq := checkInvites_eq C e j usage
    simp only [step, note, entitle_usage]
    cases hr : redeems C e j with
    | none =>
      rw [hr] at heq
      simp [comes, hr, heq.2, h]
    | some r =>
      obtain ⟨k', v⟩ := r
      rw [hr] at heq
      rw [heq.2]
      by_cases hsame : e.coordinate = a ∧ k' = k
      · obtain ⟨rfl, rfl⟩ := hsame
        have hcomes : comes C e.coordinate k' (.join e j) = some (j.attendeePubkey, v) := by simp [comes, hr]
        obtain rfl := hu _ _ hcomes
        rw [redeemers_claimInvite, hcomes, h]
        exact (firstComers_concat (p := j.attendeePubkey)).symm
      · have hcomes : comes C a k (.join e j) = none := by
          simp only [comes, hr]
          split_ifs with ha
          · exact if_neg fun hk => hsame ⟨ha, hk⟩
          · rfl
        rw [redeemers_claimInvite_other hsame, hcomes, h]
        simp

theorem redeemers_run (hrun : Run (Step C) usage acts usage') : ∀ {l : List JsString}, redeemers usage a k = firstComers u l →
    (∀ x ∈ acts, ∀ p v, comes C a k x = some (p, v) → v = u) → redeemers usage' a k = firstComers u (acts.foldl (note C a k) l) := by
  induction hrun with
  | nil =>
    intro l h _
    exact h
  | cons hx _ ih =>
    intro l h hu
    obtain rfl := hx
    exact ih (redeemers_step h (hu _ (.head _))) fun y hy => hu y (.tail _ hy)

/-- While a code has its uses, those who have redeemed it are who came first, each once; and whoever comes next
is let in by it just when they are one of these. -/
theorem invites_first_come (h : Run (Step C) [] acts usage) (hu : ∀ x ∈ acts, ∀ p v, comes C a k x = some (p, v) → v = u) :
    redeemers usage a k = firstComers u (comers C a k acts) ∧
    ∀ e j, e.coordinate = a → redeems C e j = some (k, u) →
      ((checkInvites C e j usage).1.grant = true ↔ j.attendeePubkey ∈ firstComers u (comers C a k (acts ++ [.join e j]))) := by
  have hnow : redeemers usage a k = firstComers u (comers C a k acts) := redeemers_run h (by simp [redeemers, firstComers]) hu
  refine ⟨hnow, fun e j he hr => ?_⟩
  subst he
  have hcomes : comes C e.coordinate k (.join e j) = some (j.attendeePubkey, u) := by simp [comes, hr]
  have heq := checkInvites_eq C e j usage
  rw [hr] at heq
  have hnext : comers C e.coordinate k (acts ++ [.join e j]) = comers C e.coordinate k acts ++ [j.attendeePubkey] := by
    simp [comers, List.foldl_append, note, hcomes]
  rw [heq.1, claimInvite_iff, redeemers_claimInvite, hnow, hnext, firstComers_concat]

end

/-! ## What entitles a join -/

section

variable {C : Crypto} {req : MemberOfRequest} {p : MemberOf} {cfg : LinkConfig}

/-- The proof holds, where the config is its event's: each side names the other, and an authority of the event signed. -/
structure Member (C : Crypto) (req : MemberOfRequest) (p : MemberOf) (cfg : LinkConfig) : Prop where
  listed : p.child ∈ req.children
  named : cfg.parent = some req.coordinate
  community : isValidParentCoordinate req.coordinate = true
  event : isValidChildCoordinate p.child = true
  authority : p.by ∈ membershipAuthorities p.child cfg
  attendee : isHex32 req.attendeePubkey = true
  form : isHex32 p.by = true ∧ isHex64Sig p.sig = true
  verified : C.verify p.sig (membershipChallenge req.coordinate p.child req.attendeePubkey) p.by = true

/-- A proof is not refused just when it holds under the config fetched. -/
theorem refusal_eq_none {fetched : Option LinkConfig} : refusal C req p fetched = none ↔ ∃ cfg, fetched = some cfg ∧ Member C req p cfg := by
  unfold refusal
  cases fetched with
  | none => by_cases hlisted : p.child ∈ req.children <;> simp [hlisted]
  | some cfg =>
    dsimp only
    constructor
    · intro h
      split_ifs at h with hlisted hlinked hauthority hverified
      simp only [Bool.not_eq_true', Bool.not_eq_false, List.contains_eq_mem, decide_eq_true_eq, isLinked, Bool.and_eq_true,
        beq_iff_eq, verifyMembershipProof] at hlisted hlinked hauthority hverified
      exact ⟨cfg, rfl, hlisted, hlinked.1.2, hlinked.1.1.1, hlinked.1.1.2, hauthority, hverified.1.1.2, hverified.1.1.1, hverified.2⟩
    · rintro ⟨_, hcfg, h⟩
      obtain rfl := Option.some.inj hcfg
      simp [isLinked, verifyMembershipProof, h.listed, h.named, h.community, h.event, h.authority, h.attendee, h.form.1, h.form.2, h.verified]

theorem tryProofs_grant {fetch : Nat → Option LinkConfig} : ∀ {last : JsString} {l : List (MemberOf × Nat)},
    (tryProofs C req fetch last l).grant = true ↔ ∃ x ∈ l, refusal C req x.1 (fetch x.2) = none
  | last, [] => by simp [tryProofs]
  | last, (p, i) :: rest => by
    simp only [tryProofs, List.mem_cons, exists_eq_or_imp]
    cases hr : refusal C req p (fetch i) with
    | none => simp
    | some why => simpa using tryProofs_grant

/-- One of the proofs holds. -/
theorem checkMemberOf_grant {fetch : Nat → Option LinkConfig} : (checkMemberOf C req fetch).grant = true ↔
    ∃ i p cfg, (parseMemberOfTags req.tags)[i]? = some p ∧ fetch i = some cfg ∧ Member C req p cfg := by
  unfold checkMemberOf
  split_ifs with hnil
  · simp [hnil]
  · rw [tryProofs_grant]
    constructor
    · rintro ⟨⟨p, i⟩, hmem, hr⟩
      obtain ⟨cfg, hfetch, hm⟩ := refusal_eq_none.mp hr
      exact ⟨i, p, cfg, List.mem_zipIdx_iff_getElem?.mp hmem, hfetch, hm⟩
    · rintro ⟨i, p, cfg, hp, hfetch, hm⟩
      exact ⟨(p, i), List.mem_zipIdx_iff_getElem?.mpr hp, refusal_eq_none.mpr ⟨cfg, hfetch, hm⟩⟩

/-- A join is let in just when it has a slot of its code, be it one it had before, or, at a community, when one of
its proofs holds. -/
theorem entitled_iff (C : Crypto) (e : Event) (j : Join) (usage : Usage) : (entitle C e j usage).1.grant = true ↔
    (∃ k u, redeems C e j = some (k, u) ∧ j.attendeePubkey ∈ redeemers (entitle C e j usage).2 e.coordinate k) ∨
    (e.spaceKind = kindCommunity ∧ ∃ i p cfg, (parseMemberOfTags j.tags)[i]? = some p ∧ j.fetchChildConfig i = some cfg ∧
      Member C (j.memberOf e) p cfg) := by
  rw [entitle_grant, entitle_usage, checkMemberOf_grant]
  refine or_congr ?_ ?_
  · have heq := checkInvites_eq C e j usage
    cases hr : redeems C e j with
    | none =>
      rw [hr] at heq
      simp [heq.1]
    | some r =>
      obtain ⟨k, u⟩ := r
      rw [hr] at heq
      rw [heq.1, heq.2, claimInvite_iff]
      constructor
      · intro h
        exact ⟨k, u, rfl, h⟩
      · rintro ⟨_, _, ⟨⟩, h⟩
        exact h
  · constructor
    · rintro ⟨hhas, h⟩
      exact ⟨of_decide_eq_true (Bool.and_eq_true_iff.mp hhas).1, h⟩
    · rintro ⟨hkind, i, p, cfg, hp, h⟩
      have hne : parseMemberOfTags j.tags ≠ [] := by
        intro hnil
        rw [hnil] at hp
        cases hp
      exact ⟨by simp [hasMemberOf, hkind, hne], i, p, cfg, hp, h⟩

/-! ## Whose proof it is -/

end

/-! ## A small community -/

def key (k : Nat) : JsString := List.replicate 64 (codeUnit (97 + k))

def sig : JsString := List.replicate 128 (codeUnit 97)

def meetups : JsString := js "31612:" ++ key 4 ++ js ":meetups"

def june : JsString := js "31923:" ++ key 5 ++ js ":june"

def crypto : Crypto where
  inviteHash k := k
  verifyInviteProof _ _ _ := true
  verify s text b := s = sig ∧ text = membershipChallenge meetups june (key 0) ∧ b = key 5

def community : Event := ⟨meetups, kindCommunity, [june]⟩

/-- A join with a code of two uses. -/
def withCode (p : JsString) : Join where
  attendeePubkey := p
  tags := [[js "invite", key 3, sig]]
  cached := JsMap.empty.set (key 3) ⟨2, none⟩
  now := 0
  fresh := JsMap.empty
  later := 0
  fetchChildConfig _ := none

/-- Ada comes twice. -/
def three : List Act := [.join community (withCode (key 0)), .join community (withCode (key 1)), .join community (withCode (key 0))]

theorem invites_first_come_three : redeemers (three.foldl (step crypto) []) meetups (key 3) = [key 0, key 1] ∧
    (checkInvites crypto community (withCode (key 2)) (three.foldl (step crypto) [])).1.grant = false := by
  have hrun : Run (Step crypto) [] three (three.foldl (step crypto) []) := .cons rfl (.cons rfl (.cons rfl .nil))
  have hcaps : three.all (fun x => (comes crypto meetups (key 3) x).all fun r => r.2 = 2) = true := by decide +kernel
  obtain ⟨hnow, hnext⟩ := invites_first_come (a := meetups) (k := key 3) (u := 2) hrun fun x hx p v h => by
    have hx := List.all_eq_true.mp hcaps x hx
    rw [h] at hx
    exact of_decide_eq_true hx
  refine ⟨hnow.trans (by decide +kernel), ?_⟩
  have hcarl := hnext community (withCode (key 2)) rfl (by decide +kernel)
  exact Bool.eq_false_iff.mpr (mt hcarl.mp (by decide +kernel))

/-- A member of the event in June. -/
def ada : Join where
  attendeePubkey := key 0
  tags := [memberOfTag ⟨june, key 5, sig⟩]
  cached := JsMap.empty
  now := 0
  fresh := JsMap.empty
  later := 0
  fetchChildConfig _ := some ⟨none, some meetups, []⟩

end Nostrautica.Entitlement
