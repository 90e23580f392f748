/-
The rosters that an organizer's device publishes in place of the one it reads: `approveAttendee`,
`revokeAttendeeClient`, `rotateEckAndInbox` and `repairEventKeys` of
`app/src/lib/events/organizer.ts`, without the grants and the directory entries.
-/
import Nostrautica.App.ClientRotation

namespace Nostrautica.ClientRoster

open Js Roster Keystore Nostrautica.Membership

variable {K T C : Type} [DecidableEq K] [DecidableEq T] [DecidableEq C]

/-- A roster that is published in place of the one that was read. -/
structure Rewriting (K C : Type) where
  roster : RosterContent
  stamp : Int
  eck : EckVersion K
  previous : Option RosterContent
  next : RosterContent
  events : List (PageEvent C)

/-- What `assertNoEckCollision(keys)` refuses. -/
def eckCollides (keys : EventKeys K) (current : EckVersion K) : Bool := keys.eck.any fun v => v.id = current.id ∧ v.key ≠ current.key

/-- The roster with an attendee that it may list. -/
def withAttendee (d : Deps K T C) (eck : EckVersion K) (roster : RosterContent) (pubkey : JsString) (role : RosterRole) : RosterContent :=
  if roster.attendees.any (·.pubkey = pubkey) then roster
  else { roster with attendees := roster.attendees ++ [⟨pubkey, d.blindedD eck.key pubkey, role, none⟩] }

/-- `approveAttendee(organizer, ctx, req, role)`. -/
def approveAttendee (d : Deps K T C) (c : Context) (keys : EventKeys K) (relays : List (PageEvent C)) (hasSeen : Bool)
    (pubkey : JsString) (role : RosterRole) (now : Int) (ids : Nat → JsString) : Option (Rewriting K C) := do
  let read := loadRoster d c relays keys.eck keys.pendingEck hasSeen
  let current ← canonicalEck d.fingerprint (afterRead d keys read).eck
  if eckCollides (afterRead d keys read) current then none
  else
    let eck := read.used.getD current
    let (roster, stamp) ← rosterForRewrite read eck.id
    let next := withAttendee d eck roster pubkey role
    if next.attendees.length > maxRoster then none
    else
      let events ← (buildRosterEvents d c eck next stamp (some roster) now ids).toOption
      return ⟨roster, stamp, eck, some roster, next, events⟩

/-- The roster of a rotation; `key` is what `generateEck` returns. -/
def rekeyRoster (d : Deps K T C) (c : Context) (keys : EventKeys K) (relays : List (PageEvent C)) (hasSeen : Bool) (rotation : Rotation)
    (key : K) (now : Int) (ids : Nat → JsString) : Option (Rewriting K C) :=
  let read := loadRoster d c relays keys.eck keys.pendingEck hasSeen
  match rotation.mint (C := C) d (afterRead d keys read) read key with
  | some (.rekeying _ _ roster stamp new) =>
    let next := rekeyed d new rotation.keepChatKeys (rotation.attendees roster)
    (buildRosterEvents d c new next stamp none now ids).toOption.map fun events => ⟨roster, stamp, new, none, next, events⟩
  | _ => none

/-- What a roster is rewritten for. -/
inductive Rewrite (K : Type)
  | approve (pubkey : JsString) (role : RosterRole)
  | rekey (rotation : Rotation) (key : K)

def rewrite (d : Deps K T C) (c : Context) (keys : EventKeys K) (relays : List (PageEvent C)) (hasSeen : Bool) (now : Int)
    (ids : Nat → JsString) : Rewrite K → Option (Rewriting K C)
  | .approve pubkey role => approveAttendee d c keys relays hasSeen pubkey role now ids
  | .rekey rotation key => rekeyRoster d c keys relays hasSeen rotation key now ids

/-- Whose roster it is to be, of the one that was read. -/
def Rewrite.members (op : Rewrite K) (roster : RosterContent) (pubkey : JsString) : Prop :=
  match op with
  | approve approved _ => pubkey ∈ roster.attendees.map (·.pubkey) ∨ pubkey = approved
  | rekey (.revoke removed) _ => pubkey ∈ roster.attendees.map (·.pubkey) ∧ pubkey ≠ removed
  | rekey _ _ => pubkey ∈ roster.attendees.map (·.pubkey)

/-! ## Pages that are skipped -/

/-- A page of the roster that is to be published. -/
def Rewriting.PageAt (w : Rewriting K C) (i : Nat) (p : RosterContent) : Prop :=
  ∃ pages, splitRoster { w.next with eckCurrent := w.eck.id } = .ok pages ∧ pages[i]? = some p

/-- It is not published: it is taken to be on the relays. -/
def Rewriting.Skips (d : Deps K T C) (w : Rewriting K C) (i : Nat) (p : RosterContent) : Prop :=
  w.PageAt i p ∧ (onRelay d w.eck.id w.previous)[i]? = some (d.pageText p)

/-- The record opens under the version to the page. -/
def Opens (d : Deps K T C) (v : EckVersion K) (e : PageEvent C) (p : RosterContent) : Prop :=
  (d.eckDecrypt v.key e.content).bind d.parsePage = some p

/-- What is taken to be on the relays is there, at the addresses that are written, and no
continuation page there is as late as what is published. -/
structure Rewriting.Lands (d : Deps K T C) (c : Context) (relays : List (PageEvent C)) (now : Int) (w : Rewriting K C) : Prop where
  first : ∀ p, w.Skips d 0 p → ∃ e, pickLatest (page0s c relays) = some e ∧ e.author = c.eidPubkey ∧ e.d = c.identifier ∧ Opens d w.eck e p
  stored : ∀ i p, 0 < i → w.Skips d i p →
    ∃ e, pickLatest (recordsAt c relays c.eidPubkey (rosterPageD c.identifier i)) = some e ∧ Opens d w.eck e p
  older : ∀ i p, 0 < i → w.PageAt i p → ¬w.Skips d i p →
    ∀ e ∈ recordsAt c relays c.eidPubkey (rosterPageD c.identifier i), e.created_at < max now (w.stamp + 1)

/-- A reader that follows the latest page 0 finds the members that were to be there. -/
def Rewriting.Keeps (d : Deps K T C) (c : Context) (relays : List (PageEvent C)) (op : Rewrite K) (w : Rewriting K C) : Prop :=
  ∃ e roster stamp, pickLatest (page0s c (relays ++ w.events)) = some e ∧
    readRoster d c (relays ++ w.events) e w.eck = some (.ok roster stamp w.eck) ∧
    ∀ pubkey, pubkey ∈ roster.attendees.map (·.pubkey) ↔ op.members w.roster pubkey

/-- The addresses of an event: its roster is at its identifier, and at a hash. -/
structure Context.Addressed (c : Context) : Prop where
  author : c.eidPubkey ∈ c.authors
  legacy : c.identifier ∈ c.page0Ds
  derived : ∀ base ∈ c.page0Ds, base = c.identifier ∨ isLowerHex 64 base = true

end Nostrautica.ClientRoster
